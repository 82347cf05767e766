import FeOS.Sanity.Chains
import FeOS.Proofs.NonVacuity

/-! The chains of a node's disks over runs of the daemon's calls. Layers are named by their
content, so that disks can come to share one; a Seal removes the private layer it replaces, and
a rejected Bake the layer it made, looking at no other row. While no call removes what a row
needs, every row's chain loads. -/

namespace FeOS

open Calls Calls.Prog Function List Node

variable {Hash : Type}

/-- The layers of a chain, and their parents as far as the pointers go. -/
inductive Reaches (layers : Hash → Option (Manifest Hash)) (roots : Hash → Prop) : Hash → Prop
  | root {id : Hash} (h : roots id) : Reaches layers roots id
  | parent {id id' : Hash} {m : Manifest Hash} (h : Reaches layers roots id) (hm : layers id = some m)
      (hp : m.parent = some id') : Reaches layers roots id'

def keptRows (rows : String → Option (DeviceRow Hash)) (pod : String) :
    String → Option (DeviceRow Hash) :=
  Function.update rows pod ((rows pod).map fun row => { row with chain := row.chain.take row.sharedDepth })

/-- What keeps a call from removing a layer that a row needs: the private layer of a disk that
is sealed is reached from no other row and not from the disk's shared layers; and while a disk
is baked no write reaches it, or no row has a layer that stands on the disk's newest one. -/
def Careful (s : Service Hash) : Request Hash → Prop
  | .sealDisk pod _ _ => ∀ row old, s.node.rows pod = some row → row.sharedDepth < row.chain.length →
      row.chain.getLast? = some old → ¬ Reaches s.node.layers (Named (keptRows s.node.rows pod)) old
  | .bake pod _ during => during.flatten = [] ∨
      ∀ row last, s.node.rows pod = some row → row.chain.getLast? = some last →
        ∀ id m, Named s.node.rows id → s.node.layers id = some m → m.parent ≠ some last
  | _ => True

variable [DecidableEq Hash] {L : Crates Hash}

section Seal
variable {n n' n₁ : Node Hash} {pod : String} {row : DeviceRow Hash} {chain : List (Manifest Hash)}
  {depth : ℕ} {m : Manifest Hash} {stats : SealStats}

omit [DecidableEq Hash] in
theorem layerId_ne_zero (hL : L.Ideal) (m : Option (Manifest Hash)) :
    m.map L.layerId ≠ some L.zeroHash := by
  intro hzero
  obtain ⟨x, -, hx⟩ := Option.map_eq_some_iff.1 hzero
  exact hL.blake3_ne_zero _ hx

theorem SealAt.parent (hL : L.Ideal) (h : Sound L n) (hat : SealAt L n pod row chain depth m stats n1) :
    row.chain.take depth ≠ [] ∧ m.parent = (row.chain.take depth).getLast? ∧
      m.parent ≠ some L.zeroHash := by
  obtain ⟨hne, hdepth, -⟩ := h.rows pod row hat.row_eq
  have hlen := hat.loads.length
  have hpos : 0 < row.chain.length := length_pos_of_ne_nil hne
  have hd := hat.depth_eq
  have hle : depth ≤ chain.length := by omega
  have hparent := value_of_makes _ (makes_stage pod row chain depth) hat.stage
  rw [sharedPrefix_eq_take hle hat.shape] at hparent
  refine ⟨?_, ?_, ?_⟩
  · rw [ne_eq, take_eq_nil_iff, not_or]
    exact ⟨by omega, hne⟩
  · rw [hparent, ← (hat.loads.take depth).map_id h.ids, getLast?_map]
  · rw [hparent]
    exact layerId_ne_zero hL _

theorem commitLayer_parent (hL : L.Ideal) (h : Sound L n) {M m : Manifest Hash}
    (hM : M.parent ≠ some L.zeroHash) (hm : commitLayer L n.layers M (L.layerId M) = some m) :
    m.parent = M.parent := by
  rcases commitLayer_some hm with hm | ⟨-, rfl⟩
  · exact hL.parent_eq (h.ids _ m hm) (h.parents _ m hm) hM
  · rfl

variable {id old : Hash}

theorem SealAt.named (hat : SealAt L n pod row chain depth m stats n1)
    (h : Named (update n.rows pod (some (sealedRow L row depth m))) id) :
    id = L.layerId m ∨ Named (keptRows n.rows pod) id := by
  obtain ⟨pod', row', hrow', hid⟩ := h
  by_cases hpod : pod' = pod
  · rw [hpod, update_self, Option.some.injEq] at hrow'
    rw [← hrow', sealedRow] at hid
    rcases mem_append.1 hid with hid | hid
    · right
      refine ⟨pod, { row with chain := row.chain.take row.sharedDepth },
        by simp [keptRows, hat.row_eq], ?_⟩
      exact take_subset_take_left _ (by rw [hat.depth_eq]; omega) hid
    · exact Or.inl (mem_singleton.1 hid)
  · rw [update_of_ne hpod] at hrow'
    exact Or.inr ⟨pod', row', by rwa [keptRows, update_of_ne hpod], hid⟩

theorem replaced_ne (h : replaced L row depth m = some old) : old ≠ L.layerId m := by
  rw [replaced] at h
  split_ifs at h
  simpa using (Option.filter_eq_some_iff.1 h).2

theorem Careful.replaced {s : Service Hash} {upload : Bool} {stays : Option ℕ}
    (hcare : Careful s (.sealDisk pod upload stays))
    (hat : SealAt L { s.node with callerStays := stays } pod row chain depth m stats n1)
    (h : replaced L row depth m = some old) :
    ¬ Reaches s.node.layers (Named (keptRows s.node.rows pod)) old := by
  rw [FeOS.replaced] at h
  split_ifs at h with hlt
  have hlen := hat.loads.length
  have hd := hat.depth_eq
  exact hcare row old hat.row_eq (by omega) (Option.filter_eq_some_iff.1 h).1

theorem SealReached.sound (hL : L.Ideal) (h : Sound L n)
    (hat : SealAt L n pod row chain depth m stats n1) {pt : SealPoint}
    (hpt : SealReached L n pod row depth m n1 pt n')
    (hcare : ∀ old, replaced L row depth m = some old → ¬ Named (keptRows n.rows pod) old) :
    Sound L n' := by
  obtain ⟨htake, hparent, hzero⟩ := hat.parent hL h
  have hcommit : Sound L { n with layers := commitLayer L n.layers m } := h.commit hzero rfl rfl
  -- the row names the sealed layer, whose parent is the last shared one
  obtain ⟨m', hm'⟩ := Option.isSome_iff_exists.1 (commitLayer_self (L := L) n.layers m)
  obtain ⟨-, hdepth, -⟩ := h.rows pod row hat.row_eq
  have hmono : ∀ id ∈ row.chain.take depth, ∀ x, n.layers id = some x →
      commitLayer L n.layers m id = some x := fun _ _ _ => commitLayer_mono
  have hloads := ((hat.loads.take depth).mono hmono).concat hm' htake
    ((commitLayer_parent hL h hzero hm').trans hparent)
  have hput : Sound L { n with
      layers := commitLayer L n.layers m
      rows := update n.rows pod (some (sealedRow L row depth m)) } :=
    hcommit.put (by simp [sealedRow])
      (show 0 < (sealedRow L row depth m).sharedDepth from hdepth) ⟨_, hloads⟩ rfl rfl
  cases pt with
  | committed => exact hcommit.congr hpt.layers hpt.rows
  | pointed => exact hput.congr hpt.layers hpt.rows
  | dropped => exact hput.congr hpt.layers hpt.rows
  | cleaned =>
    cases hold : replaced L row depth m with
    | none => exact hput.congr (by simpa only [hold] using hpt.layers) hpt.rows
    | some old =>
      refine hput.remove (fun hnamed => ?_) (by simpa only [hold] using hpt.layers) hpt.rows
      exact (hat.named hnamed).elim (replaced_ne hold) (hcare old hold)

theorem SealReached.reaches (hL : L.Ideal) (h : Sound L n) (hat : SealAt L n pod row chain depth m stats n1)
    (hpt : SealReached L n pod row depth m n1 .cleaned n')
    (hr : Reaches n'.layers (Named n'.rows) id) :
    id = L.layerId m ∨ Reaches n.layers (Named (keptRows n.rows pod)) id := by
  obtain ⟨-, hparent, hzero⟩ := hat.parent hL h
  have hlayers : ∀ id x, n'.layers id = some x → commitLayer L n.layers m id = some x := by
    intro id x hx
    rw [hpt.layers] at hx
    cases hold : replaced L row depth m with
    | none => simpa only [hold] using hx
    | some old =>
      simp only [hold] at hx
      by_cases hid : id = old
      · simp [hid, update_self] at hx
      · rwa [update_of_ne hid] at hx
  -- the sealed layer's parent is a shared one
  have hkept : ∀ id', m.parent = some id' → Named (keptRows n.rows pod) id' := by
    intro id' hid'
    refine ⟨pod, { row with chain := row.chain.take row.sharedDepth },
      by simp [keptRows, hat.row_eq], ?_⟩
    refine take_subset_take_left row.chain ?_ (mem_of_getLast? (hparent.symm.trans hid'))
    rw [hat.depth_eq]
    omega
  induction hr with
  | root hroot =>
    rw [hpt.rows] at hroot
    exact (hat.named hroot).imp_right .root
  | @parent id id' x _ hx hp ih =>
    right
    have hx' := hlayers id x hx
    rcases ih with rfl | hreach
    · rw [commitLayer_parent hL h hzero hx'] at hp
      exact .root (hkept id' hp)
    · rcases commitLayer_some hx' with hx' | ⟨rfl, rfl⟩
      · exact .parent hreach hx' hp
      · exact .root (hkept id' hp)

end Seal

/-! The other calls -/

section Calls
variable {n n' : Node Hash}

variable {logicalSize chunkSize : ℕ}

theorem Sound.made (hL : L.Ideal) (h : Sound L n) {top : Path} {chain : List (Manifest Hash)}
    {mergeWith : Option (Manifest Hash)} {held : Bool}
    (hc : Cut (exec L) (sealTopInner L top chain mergeWith held logicalSize chunkSize) n n') :
    Sound L n' := by
  rcases sealTopInner_cut hc with hg | ⟨m, stats, n1, hstage, rfl⟩
  · exact h.congr hg.layers hg.rows
  · have hmakes := makes_sealStage (L := L) top chain mergeWith held logicalSize chunkSize
    have hg := grows_run hmakes hstage
    have hparent := value_of_makes _ hmakes hstage
    refine (h.congr hg.layers hg.rows).commit ?_ rfl rfl
    rw [hparent]
    exact layerId_ne_zero hL _

theorem importBase_sound (hL : L.Ideal) (h : Sound L n) {image : Path}
    (hc : Cut (exec L) (importBase L image chunkSize) n n') : Sound L n' := by
  have hfile := onFile_snd n image fun f => .ok f.length
  rcases cut_ask_bind _ hc with rfl | ⟨e, he⟩ | ⟨len, n1, hx, hc1⟩
  · exact h
  · obtain rfl : n = n' := hfile.symm.trans (congrArg Prod.snd he)
    exact h
  · obtain rfl : n = n1 := hfile.symm.trans (congrArg Prod.snd hx)
    exact h.made hL hc1

def startedRow (n : Node Hash) (row : DeviceRow Hash) (pod : String) (devId : ℤ) (newRow : Bool) :
    DeviceRow Hash :=
  { (if newRow then row else (n.rows pod).getD row) with devId := some devId }

variable {pod : String} {dev : Option ℤ}

theorem cut_createTop {size : ℕ} {p : DiskM Hash Unit}
    (hc : Cut (exec L) (do
      if !(← sys (.isFile (.top pod))) then sys (.createTop pod size)
      p) n n') : ∃ n2 : Node Hash, n2.layers = n.layers ∧ n2.rows = n.rows ∧ Cut (exec L) p n2 n' := by
  rcases cut_ask_ok _ rfl hc with rfl | hc
  · exact ⟨_, rfl, rfl, .now _ _⟩
  cases hthere : (n.files (.top pod)).isSome with
  | true =>
    rw [hthere] at hc
    exact ⟨n, rfl, rfl, hc⟩
  | false =>
    rw [hthere] at hc
    rcases cut_ask_ok _ rfl hc with rfl | hc
    · exact ⟨_, rfl, rfl, .now _ _⟩
    · refine ⟨_, ?_, ?_, hc⟩ <;> rfl

theorem spawnDev_cut {row : DeviceRow Hash} {newRow : Bool}
    (hc : Cut (exec L) (spawnDev row pod dev newRow) n n') :
    n'.layers = n.layers ∧ (n'.rows = n.rows ∨ ∃ ms devId, Loads n.layers none row.chain ms ∧
      n'.rows = update n.rows pod (some (startedRow n row pod devId newRow))) := by
  rcases cut_loadChain_bind hc with rfl | ⟨ms, hms, hc1⟩
  · exact ⟨rfl, Or.inl rfl⟩
  -- the row is put last
  obtain ⟨n2, hl, hr, hput⟩ := cut_createTop hc1
  cases dev with
  | none =>
    obtain rfl := cut_fail _ hput
    exact ⟨hl, Or.inl hr⟩
  | some devId =>
    cases hput with
    | now => exact ⟨hl, Or.inl hr⟩
    | next hx hput =>
      obtain rfl := cut_ret _ hput
      cases hx
      refine ⟨hl, Or.inr ⟨ms, devId, hms, ?_⟩⟩
      rw [startedRow, hr]
    | failed hx => cases hx

theorem createDisk_sound (h : Sound L n) {ids : List Hash} (hids : ids ≠ [])
    (hc : Cut (exec L) (createDisk pod ids logicalSize dev) n n') : Sound L n' := by
  rcases cut_loadChain_bind hc with rfl | ⟨ms, -, hc1⟩
  · exact h
  cases hlast : ms.getLast? with
  | none =>
    rw [hlast] at hc1
    obtain rfl := cut_fail _ hc1
    exact h
  | some head =>
    rw [hlast] at hc1
    obtain ⟨hl, hr | ⟨ms', devId, hms', hr⟩⟩ := spawnDev_cut hc1
    · exact h.congr hl hr
    · refine h.put ?_ ?_ ?_ hl hr
      · exact hids
      · exact length_pos_of_ne_nil hids
      · exact ⟨ms', hms'⟩

theorem openDisk_sound (h : Sound L n) (hc : Cut (exec L) (openDisk pod dev) n n') : Sound L n' := by
  rcases cut_ask_ok _ rfl hc with rfl | hc1
  · exact h
  cases hrow : n.rows pod with
  | none =>
    rw [hrow] at hc1
    obtain rfl := cut_fail _ hc1
    exact h
  | some row =>
    rw [hrow] at hc1
    obtain ⟨hl, hr | ⟨ms, devId, -, hr⟩⟩ := spawnDev_cut hc1
    · exact h.congr hl hr
    · refine h.sub hl fun pod' row' hrow' => ?_
      rw [hr] at hrow'
      by_cases hpod : pod' = pod
      · rw [hpod, update_self, Option.some.injEq] at hrow'
        refine ⟨row, hpod ▸ hrow, ?_⟩
        rw [← hrow', startedRow, hrow]
        exact ⟨rfl, rfl⟩
      · rw [update_of_ne hpod] at hrow'
        exact ⟨row', hrow', rfl, rfl⟩

theorem clearDevId_sound (h : Sound L n) (pod : String) :
    Sound L (exec L (.clearDevId pod) n).2 := by
  refine h.sub rfl fun pod' row' hrow' => ?_
  by_cases hpod : pod' = pod
  · subst hpod
    simp only [exec, update_self] at hrow'
    obtain ⟨row, hrow, rfl⟩ := Option.map_eq_some_iff.1 hrow'
    exact ⟨row, hrow, rfl, rfl⟩
  · simp only [exec, update_of_ne hpod] at hrow'
    exact ⟨row', hrow', rfl, rfl⟩

theorem removeDevice_sound (h : Sound L n) (pod : String) :
    Sound L (run (exec L) (removeDevice pod) n).2 := by
  refine h.sub rfl fun pod' row' hrow' => ?_
  by_cases hpod : pod' = pod
  · subst hpod
    simp [removeDevice, ask, run, exec] at hrow'
  · simp [removeDevice, ask, run, exec, update_of_ne hpod] at hrow'
    exact ⟨row', hrow', rfl, rfl⟩

omit [DecidableEq Hash] in
theorem Node.write_layers (pod : String) (n : Node Hash) (w : Write) :
    (n.write pod w).layers = n.layers ∧ (n.write pod w).rows = n.rows := by
  simp only [write]
  split
  · split_ifs <;> exact ⟨rfl, rfl⟩
  · exact ⟨rfl, rfl⟩

end Calls

section Bake
variable {n n' : Node Hash} {pod : String}

/-- The layers and the rows as they were; also the counters, if no write comes. -/
structure Steady (noWrites : Prop) (n n' : Node Hash) : Prop where
  layers : n'.layers = n.layers
  rows : n'.rows = n.rows
  writes : noWrites → n'.writes = n.writes

variable {noWrites : Prop}

omit [DecidableEq Hash] in
theorem Steady.refl (n : Node Hash) : Steady noWrites n n := ⟨rfl, rfl, fun _ => rfl⟩

omit [DecidableEq Hash] in
theorem Steady.trans {a b c : Node Hash} (h1 : Steady noWrites a b) (h2 : Steady noWrites b c) :
    Steady noWrites a c :=
  ⟨h2.layers.trans h1.layers, h2.rows.trans h1.rows, fun h => (h2.writes h).trans (h1.writes h)⟩

theorem Steady.staging {o : Op Hash} (ho : StagingCall L o) (h : Steady noWrites n n') :
    Steady noWrites n (exec L o n').2 := by
  have hg := grows_exec o ho n'
  exact h.trans ⟨hg.layers, hg.rows, fun _ => hg.writes⟩

omit [DecidableEq Hash] in
theorem Sound.steady (h : Sound L n) (hs : Steady noWrites n n') : Sound L n' := h.congr hs.layers hs.rows

theorem among_loadChainFrom {n₀ : Node Hash} : ∀ (ids : List Hash) (want : Option Hash) (n : Node Hash),
    Steady noWrites n₀ n → Among (exec L) (Steady noWrites)
      (fun r n' => Steady noWrites n₀ n' ∧ ∀ ms, r = .ok ms → Loads n₀.layers want ids ms)
      (loadChainFrom want ids) n
  | [], _, n, h => fun n' hn' => ⟨h.trans hn', fun ms hms => (Except.ok.inj hms).symm⟩
  | id :: ids, want, n, h => by
    refine among_ask_bind fun n1 h1 => ?_
    have hs := h.trans h1
    cases hl : n1.layers id with
    | none =>
      simp only [exec, hl]
      exact ⟨hs, fun ms hms => by cases hms⟩
    | some m =>
      simp only [exec, hl]
      by_cases hbad : want.isSome ∧ m.parent ≠ want
      · rw [if_pos hbad]
        exact fun n' hn' => ⟨hs.trans hn', fun ms hms => by cases hms⟩
      rw [if_neg hbad]
      rw [not_and, not_not] at hbad
      refine among_bind Steady.refl _ _ (among_mono ?_ _ _ (among_loadChainFrom ids (some id) n1 hs))
      rintro (e | ms') n2 ⟨h2, hload⟩
      · exact ⟨h2, fun ms hms => by cases hms⟩
      · refine fun n' hn' => ⟨h2.trans hn', fun ms hms => ?_⟩
        exact ⟨m, ms', (Except.ok.inj hms).symm, hs.layers ▸ hl, hbad, hload ms' rfl⟩

theorem among_bake (hL : L.Ideal) (h : Sound L n) (hcare : noWrites ∨
      ∀ row last, n.rows pod = some row → row.chain.getLast? = some last →
        ∀ id m, Named n.rows id → n.layers id = some m → m.parent ≠ some last) :
    Among (exec L) (Steady noWrites) (fun _ n' => Sound L n') (bake L pod) n := by
  refine among_ask_bind fun n1 h1 => ?_
  refine among_ask_bind fun n2 h2 => ?_
  have hs2 := h1.trans h2
  simp only [exec]
  cases hrow : n2.rows pod with
  | none => exact fun n' hn' => h.steady (hs2.trans hn')
  | some row =>
  rw [hs2.rows] at hrow
  refine among_bind Steady.refl _ _ (among_mono ?_ _ _ (among_loadChainFrom row.chain none n2 hs2))
  rintro (e | chain) n3 ⟨hs3, hload⟩
  · exact h.steady hs3
  refine among_ask_bind fun n4 h4 => ?_
  have hs4 := hs3.trans h4
  simp only [exec]
  split_ifs
  swap
  · exact fun n' hn' => h.steady (hs4.trans hn')
  -- the seal up to its commit
  have hstage := among_of_makes (x := exec L) (R := Steady noWrites) (P := Steady noWrites n)
    (fun o ho w hw => hw.staging ho) (fun w w' hw' hw => hw.trans hw') _ n4
    (makes_sealStage (.top pod) chain none false row.logicalSize row.chunkSize) hs4
  refine among_bind Steady.refl _ _ (among_bind Steady.refl _ _ (among_mono ?_ _ _ hstage))
  rintro (e | ⟨m, stats⟩) n5 ⟨hs5, hparent⟩
  · exact h.steady hs5
  have hm : m.parent = row.chain.getLast? := by
    rw [hparent _ rfl, ← (hload chain rfl).map_id h.ids, getLast?_map]
    rfl
  have hzero : m.parent ≠ some L.zeroHash := by
    rw [hparent _ rfl]
    exact layerId_ne_zero hL _
  have hcommit : Sound L { n with layers := commitLayer L n.layers m } := h.commit hzero rfl rfl
  refine among_ask_bind fun n6 h6 n7 h7 => ?_
  have hs7 : Steady noWrites { n with layers := commitLayer L n.layers m } n7 := by
    have hs6 := hs5.trans h6
    refine Steady.trans (b := (exec L (.commitManifest m) n6).2) ⟨?_, hs6.rows, hs6.writes⟩ h7
    rw [← hs6.layers]
    rfl
  refine among_ask_bind fun n8 h8 => ?_
  have hs8 := hs7.trans h8
  simp only [exec]
  split_ifs with hwrites
  swap
  · exact fun n' hn' => hcommit.steady (hs8.trans hn')
  refine among_ask_bind fun n9 h9 n' hn' => ?_
  have hs9 := hs8.trans h9
  have hnamed : ¬ Named n.rows (L.layerId m) := by
    rintro ⟨pod', row', hrow', hid⟩
    rcases hcare with hno | hcare
    · exact hwrites (by rw [hs8.writes hno, h1.writes hno])
    -- the layer was there before, and stood on the disk's newest one
    obtain ⟨hne, -, ms, hms⟩ := h.rows pod' row' hrow'
    obtain ⟨m', hm'⟩ := Option.isSome_iff_exists.1 (hms.isSome _ hid)
    have hparent' := hL.parent_eq (h.ids _ m' hm') (h.parents _ m' hm') hzero
    obtain ⟨hne, -, -⟩ := h.rows pod row hrow
    have hlast := getLast?_eq_some_getLast hne
    exact hcare row _ hrow hlast _ m' ⟨pod', row', hrow', hid⟩ hm' (by rw [hparent', hm, hlast])
  have hremoved : Sound L (exec L (.removeLayer (L.layerId m)) n9).2 :=
    hcommit.remove hnamed (by rw [← hs9.layers]; rfl) hs9.rows
  exact hremoved.steady hn'

end Bake

/-! The runs -/

/-- The states of runs that start on an empty node and take careful steps. -/
inductive CarefulRun (L : Crates Hash) : Service Hash → Prop
  | start {s : Service Hash} (hrows : ∀ pod, s.node.rows pod = none)
      (hlayers : ∀ id, s.node.layers id = none) : CarefulRun L s
  | step {s : Service Hash} (h : CarefulRun L s) {r : Request Hash} (hr : Careful s r) :
      CarefulRun L (s.step L r)

omit [DecidableEq Hash] in
theorem started_node (s : Service Hash) (pod : String) (r : Except Error Unit × Node Hash) :
    (Service.started pod (s.done r)).2.node = r.2 := by
  rcases r with ⟨_ | _, _⟩ <;> rfl

omit [DecidableEq Hash] in
theorem steady_during (pod : String) (during : List (List Write)) (k : ℕ) (n : Node Hash) :
    Steady (during.flatten = []) n ((during.getD k []).foldl (write pod) n) := by
  have hwrites : ∀ (ws : List Write) (n : Node Hash), (ws.foldl (write pod) n).layers = n.layers ∧
      (ws.foldl (write pod) n).rows = n.rows := by
    intro ws
    induction ws with
    | nil => exact fun n => ⟨rfl, rfl⟩
    | cons w ws ih =>
      intro n
      obtain ⟨hl, hr⟩ := ih (n.write pod w)
      obtain ⟨hl', hr'⟩ := write_layers pod n w
      exact ⟨hl.trans hl', hr.trans hr'⟩
  refine ⟨(hwrites _ n).1, (hwrites _ n).2, fun hno => ?_⟩
  have hnil : during.getD k [] = [] := by
    cases hk : during[k]? with
    | none => simp [getD, hk]
    | some ws =>
      rw [getD, hk]
      exact flatten_eq_nil_iff.1 hno ws (mem_of_getElem? hk)
  rw [hnil]
  rfl

variable {s : Service Hash}

theorem Sound.step (hL : L.Ideal) (h : Sound L s.node) {r : Request Hash}
    (hr : Careful s r) : Sound L (s.step L r).node := by
  cases r with
  | importBase image chunkSize =>
    have h' : Sound L { s.node with files := update s.node.files (.image "base") (some image) } :=
      h.congr rfl rfl
    exact importBase_sound hL h' (cut_run ..)
  | createDisk pod chain logicalSize dev =>
    simp only [Service.step, Service.handle]
    split_ifs with hreq hlive
    · exact h
    · exact h
    · rw [started_node]
      exact createDisk_sound h (not_or.1 hreq).2 (cut_run ..)
  | openDisk pod dev =>
    simp only [Service.step, Service.handle]
    split_ifs
    · exact h
    · rw [started_node]
      exact openDisk_sound h (cut_run ..)
  | write pod w =>
    simp only [Service.step, Service.handle]
    split_ifs
    · exact h.congr (write_layers pod _ w).1 (write_layers pod _ w).2
    · exact h
  | stopDisk pod =>
    simp only [Service.step, Service.handle]
    split_ifs
    · exact clearDevId_sound h pod
    · exact h
  | sealDisk pod upload stays =>
    simp only [Service.step, Service.handle]
    split_ifs
    · exact h
    · exact h
    · exact h
    · have h' : Sound L { s.node with callerStays := stays } := h.congr rfl rfl
      rcases sealDisk_cut (cut_run (exec L) (sealDisk L pod) { s.node with callerStays := stays }) with
        hq | ⟨row, chain, depth, m, stats, n1, pt, hat, hpt⟩
      · exact h'.congr hq.layers hq.rows
      · exact hpt.sound hL h' hat fun old hold hnamed => hr.replaced hat hold (.root hnamed)
  | bake pod upload during =>
    simp only [Service.step, Service.handle]
    have hbake := among_runAmong (steady_during pod during) (bake L pod) 0 s.node (among_bake hL h hr)
    split_ifs
    · exact h
    · exact hbake
    · exact hbake
    · exact h
  | removeDevice pod =>
    simp only [Service.step, Service.handle]
    split_ifs
    · exact h
    · exact h
    · exact removeDevice_sound h pod

theorem CarefulRun.sound (hL : L.Ideal) (h : CarefulRun L s) : Sound L s.node := by
  induction h with
  | start hrows hlayers =>
    refine ⟨fun id m hm => ?_, fun id m hm => ?_, fun pod row hrow => ?_⟩
    · simp [hlayers] at hm
    · simp [hlayers] at hm
    · simp [hrows] at hrow
  | step _ hr ih => exact ih.step hL hr

theorem Sound.seal_removes (hL : L.Ideal) (h : Sound L s.node) {pod : String}
    {upload : Bool} {stays : Option ℕ} (hr : Careful s (.sealDisk pod upload stays)) {id : Hash}
    (hid : (s.node.layers id).isSome) (hgone : (s.step L (.sealDisk pod upload stays)).node.layers id = none) :
    ¬ Reaches (s.step L (.sealDisk pod upload stays)).node.layers
      (Named (s.step L (.sealDisk pod upload stays)).node.rows) id := by
  have h' : Sound L { s.node with callerStays := stays } := h.congr rfl rfl
  have hthere : ∀ {layers : Hash → Option (Manifest Hash)}, layers = s.node.layers → layers id ≠ none := by
    rintro layers rfl hnone
    simp [hnone] at hid
  simp only [Service.step, Service.handle] at hgone ⊢
  split_ifs at hgone ⊢
  · exact absurd hgone (hthere rfl)
  · exact absurd hgone (hthere rfl)
  · exact absurd hgone (hthere rfl)
  rcases sealDisk_cut (cut_run (exec L) (sealDisk L pod) { s.node with callerStays := stays }) with
    hq | ⟨row, chain, depth, m, stats, n1, pt, hat, hpt⟩
  · exact absurd hgone (hthere hq.layers)
  -- only the last point has lost a layer, the replaced one
  have hkept : commitLayer L s.node.layers m id ≠ none := by
    obtain ⟨x, hx⟩ := Option.isSome_iff_exists.1 hid
    rw [commitLayer_mono hx]
    exact Option.some_ne_none x
  have hgone' : (run (exec L) (sealDisk L pod) { s.node with callerStays := stays }).2.layers id = none :=
    hgone
  rw [hpt.layers] at hgone'
  cases pt with
  | committed => exact absurd hgone' hkept
  | pointed => exact absurd hgone' hkept
  | dropped => exact absurd hgone' hkept
  | cleaned =>
    cases hold : replaced L row depth m with
    | none =>
      rw [hold] at hgone'
      exact absurd hgone' hkept
    | some old =>
      rw [hold] at hgone'
      obtain rfl : id = old := by
        by_contra hne
        simp only [update_of_ne hne] at hgone'
        exact hkept hgone'
      intro hreach
      exact (hpt.reaches hL h' hat hreach).elim (replaced_ne hold) (hr.replaced hat hold)

/-- In the runs that take careful steps every layer of every row's chain is there and the chain
loads, and a careful Seal removes no layer that a row still reaches. -/
theorem chains_load (hL : L.Ideal) (s : Service Hash) (h : CarefulRun L s) :
    (∀ pod row, s.node.rows pod = some row →
      (∀ id ∈ row.chain, (s.node.layers id).isSome) ∧ Ends (exec L) (loadChain row.chain) s.node) ∧
    ∀ pod upload stays, Careful s (.sealDisk pod upload stays) → ∀ id, (s.node.layers id).isSome →
      (s.step L (.sealDisk pod upload stays)).node.layers id = none →
      ¬ Reaches (s.step L (.sealDisk pod upload stays)).node.layers
        (Named (s.step L (.sealDisk pod upload stays)).node.rows) id := by
  have hsound := h.sound hL
  refine ⟨fun pod row hrow => ?_, fun pod upload stays hr id hid hgone => hsound.seal_removes hL hr hid hgone⟩
  obtain ⟨-, -, ms, hms⟩ := hsound.rows pod row hrow
  exact ⟨hms.isSome, ms, s.node, loadChainFrom_run hms⟩

def byteBase : Manifest SampleHash := ⟨1, 1, none, [.data 0 (.of [1]) 1 1]⟩

/-- The private layer of a disk on it that wrote the byte `b`. -/
def byteLayer (b : UInt8) : Manifest SampleHash :=
  ⟨1, 1, some (sampleCrates.layerId byteBase), [.data 0 (.of [b]) 1 1]⟩

def afterRequests (rs : List (Request SampleHash)) : Service SampleHash :=
  rs.foldl (Service.step sampleCrates) ⟨sampleNode (fun _ => none) [], fun _ => false⟩

def written (pod : String) (start : Request SampleHash) (b : UInt8) : List (Request SampleHash) :=
  [start, .write pod ⟨0, [b]⟩, .stopDisk pod]

def oneDisk : List (Request SampleHash) :=
  .importBase [some 1] 1 ::
    (written "a" (.createDisk "a" [sampleCrates.layerId byteBase] 0 (some 0)) 7 ++ [.sealDisk "a" false none])

def oneDiskAgain : List (Request SampleHash) := oneDisk ++ written "a" (.openDisk "a" (some 0)) 8

theorem oneDiskAgain_run : CarefulRun sampleCrates (afterRequests oneDiskAgain) := by
  refine .step (r := .stopDisk "a") (.step (r := .write "a" ⟨0, [8]⟩)
    (.step (r := .openDisk "a" (some 0)) (.step (r := .sealDisk "a" false none) ?_ ?_) trivial) trivial) trivial
  · exact .step (r := .stopDisk "a") (.step (r := .write "a" ⟨0, [7]⟩)
      (.step (r := .createDisk "a" [sampleCrates.layerId byteBase] 0 (some 0))
        (.step (r := .importBase [some 1] 1) (.start (fun _ => rfl) fun _ => rfl) trivial) trivial) trivial) trivial
  · -- the first seal finds no private layer
    intro row old hrow hlt
    cases hrow
    exact absurd hlt (by decide)

theorem oneDiskAgain_careful : Careful (afterRequests oneDiskAgain) (.sealDisk "a" false none) := by
  have hrows : ∀ pod, pod ≠ "a" → (afterRequests oneDiskAgain).node.rows pod = none := by
    have hupdates : ∃ r1 r2 r3 r4 r5, (afterRequests oneDiskAgain).node.rows =
        update (update (update (update (update
          (fun _ => none) "a" r1) "a" r2) "a" r3) "a" r4) "a" r5 := ⟨_, _, _, _, _, rfl⟩
    intro pod hpod
    obtain ⟨r1, r2, r3, r4, r5, h⟩ := hupdates
    rw [h]
    simp [hpod]
  intro row old hrow hlt hlast hreach
  -- the base is all that is reached without the private layer
  have hbase : ∀ id, Reaches (afterRequests oneDiskAgain).node.layers
      (Named (keptRows (afterRequests oneDiskAgain).node.rows "a")) id → id = sampleCrates.layerId byteBase := by
    intro id h
    induction h with
    | root h =>
      obtain ⟨pod, row', hrow', hid⟩ := h
      by_cases hpod : pod = "a"
      · subst hpod
        cases hrow'
        exact mem_singleton.1 hid
      · simp [keptRows, update_of_ne hpod, hrows pod hpod] at hrow'
    | parent _ hm hp ih =>
      subst ih
      cases hm
      cases hp
  cases hrow
  cases hlast
  exact absurd (hbase _ hreach) (by decide)

theorem chains_load_resealed :
    Ends (exec sampleCrates)
      (loadChain [sampleCrates.layerId byteBase, sampleCrates.layerId (byteLayer 7)])
      (afterRequests oneDiskAgain).node ∧
    ¬ Reaches (afterRequests (oneDiskAgain ++ [.sealDisk "a" false none])).node.layers
      (Named (afterRequests (oneDiskAgain ++ [.sealDisk "a" false none])).node.rows)
      (sampleCrates.layerId (byteLayer 7)) := by
  have h := chains_load sampleCrates_ideal (afterRequests oneDiskAgain) oneDiskAgain_run
  exact ⟨(h.1 "a" _ rfl).2, h.2 "a" false none oneDiskAgain_careful _ rfl rfl⟩

def twoDisks : List (Request SampleHash) :=
  oneDisk ++ written "b" (.createDisk "b" [sampleCrates.layerId byteBase] 0 (some 1)) 7 ++
    [.sealDisk "b" false none]

/-- The first one writes again, and is sealed again. -/
def sealClash : List (Request SampleHash) :=
  twoDisks ++ written "a" (.openDisk "a" (some 0)) 8 ++ [.sealDisk "a" false none]

/-- The second one is baked while it writes the same. -/
def bakeClash : List (Request SampleHash) :=
  oneDisk ++ [.createDisk "b" [sampleCrates.layerId byteBase] 0 (some 1), .bake "b" false [[], [⟨0, [7]⟩]]]

/-- A row names the layer of the byte 7, which is not there, so that the row's chain does not load. -/
def LostLayer (s : Service SampleHash) (pod : String) : Prop :=
  ∃ row, s.node.rows pod = some row ∧ sampleCrates.layerId (byteLayer 7) ∈ row.chain ∧
    s.node.layers (sampleCrates.layerId (byteLayer 7)) = none ∧
    (run (exec sampleCrates) (loadChain row.chain) s.node).1 = .error .notFound

/-- Two disks that wrote the same share a layer, and what one of them does takes it from the
other: a seal after another write, and a Bake that a write tears. -/
theorem shared_layer_is_removed :
    LostLayer (afterRequests sealClash) "b" ∧ LostLayer (afterRequests bakeClash) "a" := by
  refine ⟨⟨_, rfl, ?_, rfl, rfl⟩, ⟨_, rfl, ?_, rfl, rfl⟩⟩
  · decide
  · decide

end FeOS
