import FeOS.Lib.Runs
import FeOS.Spec.LiveTop
import FeOS.Proofs.SealAtomic

/-! Bake makes a layer of the disk as it was at one moment, if nothing that its counter does not
show reaches the top meanwhile. -/

namespace FeOS

open Calls Calls.Prog Runs List Node

variable {Hash : Type} [DecidableEq Hash] {L : Crates Hash} {pod : String}

/-! Bake is a seal between two reads of the counter -/

def bakeSeal (L : Crates Hash) (pod : String) : DiskM Hash (SealOutcome Hash) := do
  match ← sys (.loadRow pod) with
  | none => fail (.status s!"no device row for {pod}")
  | some row => do
    let chain ← loadChain row.chain
    if ← sys (.isFile (.top pod)) then sealTop L (.top pod) chain none row.logicalSize row.chunkSize
    else fail (.status "no mutable top; nothing to bake")

def bakeCheck (pod : String) (writesBefore : ℕ) (out : SealOutcome Hash) : DiskM Hash (SealOutcome Hash) := do
  let writesAfter ← sys (.loadWrites pod)
  if writesAfter ≠ writesBefore then do
    sys (.removeLayer out.layerId)
    fail (.status "writes during bake: guest not frozen")
  else pure out

theorem bake_eq : bake L pod =
    (sys (.loadWrites pod) >>= fun writesBefore => bakeSeal L pod >>= bakeCheck pod writesBefore) := by
  refine congrArg (Prog.bind _) (funext fun before => ?_)
  rw [bakeSeal, bind_assoc]
  refine congrArg (Prog.bind _) (funext fun row => ?_)
  cases row with
  | none => rfl
  | some row =>
    rw [bind_assoc]
    refine congrArg (Prog.bind _) (funext fun chain => ?_)
    rw [bind_assoc]
    refine congrArg (Prog.bind _) (funext fun there => ?_)
    cases there <;> rfl

theorem bakeSeal_ok (hL : L.Ideal) {n n' : Node Hash} {row : DeviceRow Hash} {chain : List (Manifest Hash)}
    {f : SparseFile} (hd : Disk L n pod row chain) (hf : n.files (.top pod) = some f) {out : SealOutcome Hash}
    (hrun : run (exec L) (bakeSeal L pod) n = (.ok out, n')) :
    (∀ h c, n.chunks h = some c → n'.chunks h = some c) ∧
      ∀ p < row.logicalSize, deviceView n'.chunks (chain ++ [out.manifest]) p =
        overlay f (chainView n.chunks chain row.chunkSize) p := by
  have h1 : run (exec L) (sys (.loadRow pod)) n = (.ok (some row), n) := by simp [exec, hd.row_eq]
  have h2 : run (exec L) (loadChain row.chain) n = (.ok chain, n) := loadChainFrom_run hd.loads
  have h3 : run (exec L) (sys (.isFile (.top pod))) n = (.ok true, n) := by simp [exec, hf]
  rw [bakeSeal, run_bind_of_ok _ _ h1] at hrun
  rw [run_bind_of_ok _ _ h2, run_bind_of_ok _ _ h3, if_pos rfl] at hrun
  obtain ⟨n1, hstage, rfl, -⟩ := sealTopInner_ok hrun
  obtain ⟨shared, f', touched, hres⟩ := sealStage_ok hd.readable hstage
  obtain rfl : f' = f := Option.some.inj (hres.file.symm.trans hf)
  obtain ⟨hshared, hlast⟩ := hres.chain_eq (Or.inl rfl)
  obtain rfl : chain = shared := hshared
  refine ⟨hres.grows.chunks, fun p hp => ?_⟩
  have hgeo : out.manifest.chunkSize = row.chunkSize ∧ out.manifest.logicalSize = row.logicalSize := by
    rw [hres.manifest]
    exact ⟨rfl, rfl⟩
  rw [deviceView_of_head getLast?_concat (by rwa [hgeo.2]), hgeo.1]
  exact hres.view hL.blake3_inj hd.chunks hd.readable hlast (by rintro _ ⟨⟩) hp

namespace LiveTop

/-- From Bake's first read of the counter on, what reaches the top is a write that was counted
after it. -/
def Calm (w : LiveTop Hash) : DeviceStep → Prop
  | .land i => ∀ c, w.firstRead = some c → ∃ off bytes count, w.flights[i]? = some ⟨.write off bytes, count⟩ ∧ c < count
  | _ => True

def Counted (pod : String) (w : LiveTop Hash) : Prop := ∀ fl ∈ w.flights, fl.count ≤ w.node.writes pod

structure Goes (pod : String) (w w' : LiveTop Hash) : Prop where
  chunks : w'.node.chunks = w.node.chunks
  layers : w'.node.layers = w.node.layers
  rows : w'.node.rows = w.node.rows
  firstRead : w'.firstRead = w.firstRead
  writes : w.node.writes pod ≤ w'.node.writes pod
  tops : w.tops ⊆ w'.tops
  top : ∀ f, w.node.files (.top pod) = some f → f ∈ w.tops → ∃ g, w'.node.files (.top pod) = some g ∧ g ∈ w'.tops ∧
    ∀ p, f.isData p = true → g.isData p = true
  counted : Counted pod w → Counted pod w'

variable {w w' w'' : LiveTop Hash} {e : DeviceStep} {c : ℕ} {f : SparseFile} {n : Node Hash}

section
omit [DecidableEq Hash]

theorem Goes.flies (flights : List Flight) (discards : ℕ)
    (h : ∀ fl ∈ flights, fl ∈ w.flights ∨ fl.count ≤ w.node.writes pod) : Goes pod w { w with flights, discards } :=
  ⟨rfl, rfl, rfl, rfl, le_rfl, List.Subset.refl _, fun f hf hm => ⟨f, hf, hm, fun _ h => h⟩,
    fun hc fl hfl => (h fl hfl).elim (hc fl) id⟩

theorem Goes.refl (w : LiveTop Hash) : Goes pod w w := .flies w.flights w.discards fun _ => .inl

theorem Goes.trans (h : Goes pod w w') (h' : Goes pod w' w'') : Goes pod w w'' where
  chunks := h'.chunks.trans h.chunks
  layers := h'.layers.trans h.layers
  rows := h'.rows.trans h.rows
  firstRead := h'.firstRead.trans h.firstRead
  writes := h.writes.trans h'.writes
  tops := List.Subset.trans h.tops h'.tops
  top f hf hm := by
    obtain ⟨g, hg, hgm, hdata⟩ := h.top f hf hm
    obtain ⟨g', hg', hgm', hdata'⟩ := h'.top g hg hgm
    exact ⟨g', hg', hgm', fun p hp => hdata' p (hdata p hp)⟩
  counted hc := h'.counted (h.counted hc)

theorem isData_write {f : SparseFile} (off : ℕ) (bytes : Bytes) {p : ℕ} (h : f.isData p = true) :
    (f.write off bytes).isData p = true := by
  have hlen := SparseFile.lt_length_of_isData h
  unfold SparseFile.isData SparseFile.write at *
  rw [Splice.getElem?_splice _ (by simp), length_map]
  split_ifs with hin
  · rw [getElem?_map, getElem?_eq_getElem (by omega)]
    rfl
  · rwa [Splice.getElem?_pad, if_pos hlen]

theorem isData_land {f : SparseFile} (change : TopChange) {p : ℕ} (h : f.isData p = true) :
    (TopChange.land f change).1.isData p = true := by
  cases change <;> exact isData_write _ _ h

theorem startWrite_goes (w : LiveTop Hash) (off : ℕ) (bytes : Bytes) : Goes pod w (w.startWrite pod off bytes) := by
  have hcount : Goes pod w
      { w with node := { w.node with writes := Function.update w.node.writes pod (w.node.writes pod + 1) } } :=
    ⟨rfl, rfl, rfl, rfl, by simp, List.Subset.refl _, fun f hf hm => ⟨f, hf, hm, fun _ h => h⟩,
      fun hc fl hfl => by simpa using (hc fl hfl).trans (Nat.le_succ _)⟩
  unfold startWrite
  dsimp only
  split_ifs
  · exact hcount.trans (.flies _ _ fun fl hfl => (mem_append.1 hfl).imp_right fun h => by simp [mem_singleton.1 h])
  · exact hcount

theorem startZeroes_goes (w : LiveTop Hash) (off len : ℕ) : Goes pod w (w.startZeroes pod off len) := by
  unfold startZeroes
  dsimp only
  split_ifs
  · exact .flies _ _ fun fl hfl => (mem_append.1 hfl).imp_right fun h => by rw [mem_singleton.1 h]
  · exact .flies _ _ fun _ => .inl

theorem startZeroes_node (w : LiveTop Hash) (off len : ℕ) : (w.startZeroes pod off len).node = w.node := by
  unfold startZeroes
  dsimp only
  split_ifs <;> rfl

theorem step_goes (h : w.step pod e = some w') : Goes pod w w' := by
  cases e with
  | write off bytes =>
    cases h
    exact startWrite_goes w off bytes
  | discard off len =>
    cases h
    exact startZeroes_goes w off len
  | writeZeroes off len =>
    cases h
    exact startZeroes_goes w off len
  | read =>
    cases h
    exact .refl w
  | flush =>
    cases h
    exact .refl w
  | land i =>
    simp only [step] at h
    split at h
    case h_2 => cases h
    rename_i fl f hfl hf
    cases h
    refine ⟨rfl, rfl, rfl, rfl, le_rfl, subset_cons_self _ _, fun g hg hm => ?_, fun hc fl' hfl' => ?_⟩
    · obtain rfl : f = g := Option.some.inj (hf.symm.trans hg)
      exact ⟨(TopChange.land f fl.change).1, by simp [setTop], by simp [setTop], fun p => isData_land fl.change⟩
    · dsimp only at hfl'
      split at hfl'
      · rcases mem_or_eq_of_mem_set hfl' with hfl' | rfl
        · exact hc fl' hfl'
        · exact hc fl (mem_of_getElem? hfl)
      · exact hc fl' (mem_of_mem_eraseIdx hfl')
  | lose i =>
    simp only [step] at h
    split_ifs at h
    cases h
    exact .flies _ _ fun fl hfl => .inl (mem_of_mem_eraseIdx hfl)

theorem reach_goes {ok : LiveTop Hash → DeviceStep → Prop} (h : Reach (step pod) ok w w') : Goes pod w w' :=
  h.invariant (Goes.refl w) fun _ _ _ hi _ hs => hi.trans (step_goes hs)

structure Still (pod : String) (c : ℕ) (f : SparseFile) (n : Node Hash) (w : LiveTop Hash) : Prop where
  node : w.node = n
  firstRead : w.firstRead = some c
  counted : Counted pod w
  writes : w.node.writes pod = c
  seen : f ∈ w.tops

theorem still_step (hs : Still pod c f n w) (hcalm : Calm w e) (h : w.step pod e = some w') :
    c < w'.node.writes pod ∨ Still pod c f n w' := by
  have hgo := step_goes h
  have still : w'.node = w.node → Still pod c f n w' := fun hn =>
    ⟨hn.trans hs.node, hgo.firstRead.trans hs.firstRead, hgo.counted hs.counted, by rw [hn, hs.writes], hgo.tops hs.seen⟩
  cases e with
  | write off bytes =>
    cases h
    refine Or.inl ?_
    rw [← hs.writes]
    unfold startWrite
    dsimp only
    split_ifs <;> simp
  | discard off len =>
    cases h
    exact Or.inr (still (startZeroes_node w off len))
  | writeZeroes off len =>
    cases h
    exact Or.inr (still (startZeroes_node w off len))
  | read =>
    cases h
    exact Or.inr hs
  | flush =>
    cases h
    exact Or.inr hs
  | land i =>
    obtain ⟨off, bytes, count, hfl, hcount⟩ := hcalm c hs.firstRead
    have := hs.counted _ (mem_of_getElem? hfl)
    rw [hs.writes] at this
    exact absurd hcount (not_lt.2 this)
  | lose i =>
    simp only [step] at h
    split_ifs at h
    cases h
    exact Or.inr (still rfl)

theorem still_reach (h : Reach (step pod) Calm w w') (hs : Still pod c f n w) :
    c < w'.node.writes pod ∨ Still pod c f n w' := by
  refine h.invariant (I := fun w => c < w.node.writes pod ∨ Still pod c f n w) (Or.inr hs) fun s e s' hi hok hstep => ?_
  rcases hi with hb | hi
  · exact Or.inl (hb.trans_le (step_goes hstep).writes)
  · exact still_step hi hok hstep

end

theorem exec_writes (o : Op Hash) (n : Node Hash) : (Node.exec L o n).2.writes = n.writes := by
  cases o <;> simp only [Node.exec, Node.onFile] <;> (try split) <;> rfl

theorem still_exec (o : Op Hash) (hs : Still pod c f n w) :
    (exec pod L o w).1 = (Node.exec L o n).1 ∧ Still pod c f (Node.exec L o n).2 (exec pod L o w).2 := by
  obtain ⟨rfl, hfirst, hcounted, hwrites, hseen⟩ := hs
  have hkept := congrFun (exec_writes (L := L) o w.node) pod
  refine ⟨rfl, rfl, ?_, fun fl hfl => ?_, ?_, hseen⟩
  · cases o <;> simp [exec, hfirst]
  · exact (hcounted fl hfl).trans hkept.ge
  · exact hkept.trans hwrites

theorem bakeCheck_among {ok : LiveTop Hash → DeviceStep → Prop} (out : SealOutcome Hash) (w : LiveTop Hash) :
    Among (exec pod L) (Reach (step pod) ok)
      (fun r w' => ∀ o, r = .ok o → o = out ∧ w.node.writes pod ≤ c ∧ w'.node.chunks = w.node.chunks ∧ w.tops ⊆ w'.tops)
      (bakeCheck pod c out) w := by
  refine among_ask_bind fun w1 h1 => ?_
  have hgo := reach_goes h1
  change Among _ _ _ (if w1.node.writes pod ≠ c then _ else _) _
  split_ifs with hc
  · exact fun _ _ _ _ _ hr => nomatch hr
  · intro w2 h2 o ho
    have hgo' := reach_goes h2
    exact ⟨(Except.ok.inj ho).symm, hgo.writes.trans (not_not.1 hc).le, hgo'.chunks.trans hgo.chunks,
      List.Subset.trans hgo.tops hgo'.tops⟩

end LiveTop

open LiveTop in
/-- If what reaches the top from the first read of the counter on are writes counted after it, and
the chain reads the same at the row's geometry and at its last layer's where the top has nothing,
the layer that Bake returns has, over the chain, the content of the disk at one moment of the
call. -/
theorem bake_snapshot_of_calm (hL : L.Ideal) {n : Node Hash} {row : DeviceRow Hash} {chain : List (Manifest Hash)}
    {f : SparseFile} {flights : List Flight} (hd : Disk L n pod row chain) (hf : n.files (.top pod) = some f)
    (hcounted : ∀ fl ∈ flights, fl.count ≤ n.writes pod)
    (hagree : ∀ p < row.logicalSize, f.isData p = false →
      deviceView n.chunks chain p = chainView n.chunks chain row.chunkSize p)
    (discards : ℕ) :
    Among (LiveTop.exec pod L) (Reach (LiveTop.step pod) Calm)
      (fun r w' => ∀ out, r = .ok out → ∃ g ∈ w'.tops,
        diskView w'.node.chunks none (chain ++ [out.manifest]) row.logicalSize =
          diskView w'.node.chunks (some g) chain row.logicalSize)
      (bake L pod) (LiveTop.start n f discards flights) := by
  rw [bake_eq]
  refine among_ask_bind fun w1 hw1 => ?_
  have hgo := reach_goes hw1
  obtain ⟨g, hg, hseen, hgrown⟩ := hgo.top f hf (mem_singleton_self f)
  have hstill : Still pod (w1.node.writes pod) g w1.node (LiveTop.exec pod L (.loadWrites pod) w1).2 :=
    ⟨rfl, by simp [LiveTop.exec, hgo.firstRead, LiveTop.start], hgo.counted hcounted, rfl, hseen⟩
  have hstore : Store L w1.node := ⟨hgo.chunks ▸ hd.chunks, hgo.layers ▸ hd.ids, hgo.layers ▸ hd.decoded⟩
  have hd1 : Disk L w1.node pod row chain :=
    hd.grows hstore hgo.rows (fun _ _ h => hgo.layers ▸ h) (fun _ _ h => hgo.chunks ▸ h)
  -- the seal runs as if alone, unless the counter moves
  refine among_bind (fun w => .init) _ _ (among_mono (fun r w2 h => ?_) _ _
    (among_spoiled (fun o w hw => (congrFun (exec_writes o w.node) pod).symm ▸ hw)
      (fun w w' hw hb => hb.trans_le (reach_goes hw).writes) (fun o v w => still_exec o) (fun v w w' => still_reach)
      (bakeSeal L pod) w1.node _ hstill))
  cases r with
  | error e => exact fun out hr => nomatch hr
  | ok out =>
    refine among_mono (fun r w3 hcheck o ho => ?_) _ _ (bakeCheck_among out w2)
    obtain ⟨rfl, hle, hchunks, htops⟩ := hcheck o ho
    obtain hb | ⟨hout, hs⟩ := h
    · exact absurd hb (not_lt.2 hle)
    obtain ⟨hkept, hview⟩ := bakeSeal_ok hL hd1 hg (Prod.ext hout.symm rfl)
    have hchunks3 := hchunks.trans (congrArg chunks hs.node)
    refine ⟨g, htops hs.seen, ?_⟩
    rw [hchunks3, diskView_kept hkept hd1.readable]
    refine diskView_congr fun p hp => ?_
    simp only [diskView, if_pos hp]
    rw [hview p hp, hgo.chunks]
    refine overlay_congr fun hdata => (hagree p hp ?_).symm
    exact Bool.eq_false_iff.2 fun hfd => absurd (hgrown p hfd) (Bool.eq_false_iff.1 hdata)

/-- A disk as large as its base, with a write under way when Bake is called. -/
theorem bake_snapshot_of_calm_base_sized :
    Disk sampleCrates (shortNode 3 [none, some 9, none]) "a" (shortDisk 3) [shortBase] ∧
    Among (LiveTop.exec "a" sampleCrates) (Reach (LiveTop.step "a") LiveTop.Calm)
      (fun r w' => ∀ out, r = .ok out → ∃ g ∈ w'.tops,
        diskView w'.node.chunks none ([shortBase] ++ [out.manifest]) 3 = diskView w'.node.chunks (some g) [shortBase] 3)
      (bake sampleCrates "a")
      (LiveTop.start (shortNode 3 [none, some 9, none]) [none, some 9, none] 0 [⟨.write 2 [8], 0⟩]) := by
  have hd : Disk sampleCrates (shortNode 3 [none, some 9, none]) "a" (shortDisk 3) [shortBase] :=
    shortNode_disk (by decide) _
  refine ⟨hd, bake_snapshot_of_calm sampleCrates_ideal hd rfl ?_ (fun p hp _ => ?_) 0⟩
  · decide
  · have hbase : [shortBase].getLast? = some shortBase := rfl
    exact deviceView_of_head hbase hp

/-- Between the seal's reads of its two chunks, a zeroing of a byte of each arrives, and then both
reach the top, the first one first. -/
def zeroedBetween (k : ℕ) (w : LiveTop SampleHash) : LiveTop SampleHash :=
  if k = 8 then
    (follow (LiveTop.step "a") (fun _ _ => True) w [.writeZeroes 0 1, .writeZeroes 2 1, .land 0, .land 0]).getD w
  else w

def isTorn (r : Except Error (SealOutcome SampleHash) × LiveTop SampleHash) : Bool :=
  match r with
  | (.ok out, w) => w.tops.all fun g =>
    (range 3).map (diskView w.node.chunks none ([shortBase] ++ [out.manifest]) 3) ≠
      (range 3).map (diskView w.node.chunks (some g) [shortBase] 3)
  | (.error _, _) => false

/-- Bake returns the first byte as it was before the zeroings and the last as it was after them:
they are counted among the discards, and the counter that Bake reads does not show them. -/
theorem bake_torn_by_zeroes :
    Disk sampleCrates (shortNode 3 [some 5, some 6, some 7]) "a" (shortDisk 3) [shortBase] ∧
    ¬ Among (LiveTop.exec "a" sampleCrates) (Reach (LiveTop.step "a") fun _ _ => True)
      (fun r w' => ∀ out, r = .ok out → ∃ g ∈ w'.tops,
        diskView w'.node.chunks none ([shortBase] ++ [out.manifest]) 3 = diskView w'.node.chunks (some g) [shortBase] 3)
      (bake sampleCrates "a")
      (LiveTop.start (shortNode 3 [some 5, some 6, some 7]) [some 5, some 6, some 7] 0 []) := by
  refine ⟨shortNode_disk (by decide) _, fun h => ?_⟩
  have henv : ∀ k w, Reach (LiveTop.step "a") (fun _ _ => True) w (zeroedBetween k w) := by
    intro k w
    unfold zeroedBetween
    split_ifs
    · cases hf : follow (LiveTop.step "a") (fun _ _ => True) w [.writeZeroes 0 1, .writeZeroes 2 1, .land 0, .land 0] with
      | none => exact .init
      | some w' => exact Reach.init.follow hf
    · exact .init
  have hq := among_runAmong henv _ 0 _ h
  have htorn : isTorn (runAmong (LiveTop.exec "a" sampleCrates) zeroedBetween 0 (bake sampleCrates "a")
      (LiveTop.start (shortNode 3 [some 5, some 6, some 7]) [some 5, some 6, some 7] 0 [])) = true := by decide +kernel
  revert hq htorn
  generalize runAmong (LiveTop.exec "a" sampleCrates) zeroedBetween 0 (bake sampleCrates "a")
    (LiveTop.start (shortNode 3 [some 5, some 6, some 7]) [some 5, some 6, some 7] 0 []) = r
  intro hq htorn
  rcases r with ⟨e | out, w⟩
  · cases htorn
  · obtain ⟨g, hg, heq⟩ := hq out rfl
    have hne := all_eq_true.1 htorn g hg
    rw [heq] at hne
    simp at hne

end FeOS
