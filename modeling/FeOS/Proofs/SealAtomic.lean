import FeOS.Sanity.SealDone
import FeOS.Proofs.NonVacuity

/-! The seal of a disk can stop anywhere: the disk still reads as it did, and can be sealed. -/

namespace FeOS

open Calls Calls.Prog List Node

section Views
variable {Hash : Type} {chunks chunks' : Hash → Option Bytes} {chain : List (Manifest Hash)}

theorem deviceView_of_head {head : Manifest Hash} (hhead : chain.getLast? = some head) {p : ℕ} (hp : p < head.logicalSize) :
    deviceView chunks chain p = chainView chunks chain head.chunkSize p := by
  unfold deviceView
  rw [hhead]
  dsimp only
  rw [if_neg]
  have := Nat.div_mul_le_self p head.chunkSize
  omega

theorem deviceView_kept (hkept : ∀ h c, chunks h = some c → chunks' h = some c) (hr : Readable chunks chain) :
    deviceView chunks' chain = deviceView chunks chain := by
  unfold deviceView
  cases chain.getLast? with
  | none => rfl
  | some head => simp only [chainView_kept hkept hr]

theorem diskView_kept (hkept : ∀ h c, chunks h = some c → chunks' h = some c) (hr : Readable chunks chain)
    (top : Option SparseFile) (R : ℕ) : diskView chunks' top chain R = diskView chunks top chain R := by
  unfold diskView
  rw [deviceView_kept hkept hr]

theorem diskView_congr {top top' : Option SparseFile} {chain' : List (Manifest Hash)} {R : ℕ}
    (h : ∀ p < R, diskView chunks top chain R p = diskView chunks' top' chain' R p) :
    diskView chunks top chain R = diskView chunks' top' chain' R := by
  funext p
  by_cases hp : p < R
  · exact h p hp
  · simp only [diskView, if_neg hp]

theorem chunk_length {h : Hash} {len : ℕ} (hpos : 0 < len) (hall : ∀ i < len, (chunkByte chunks (some h) i).isSome) :
    ∃ c, chunks h = some c ∧ len ≤ c.length := by
  have hlast := hall (len - 1) (by omega)
  simp only [chunkByte] at hlast
  cases hc : chunks h with
  | none =>
    simp [hc] at hlast
  | some c =>
    rw [hc, Option.bind_some] at hlast
    obtain ⟨hlt, -⟩ := List.getElem?_eq_some_iff.1 (Option.eq_some_of_isSome hlast)
    exact ⟨c, rfl, by omega⟩

end Views

section Founded
variable {Hash : Type} {L : Crates Hash}

/-- A layer's digest is made after the digest of its parent, which it is made over. -/
def Crates.Founded (L : Crates Hash) : Prop :=
  ∃ rank : Hash → ℕ, ∀ (m : Manifest Hash) (h : Hash), m.parent = some h → rank h < rank (L.layerId m)

variable {layers : Hash → Option (Manifest Hash)}

theorem Loads.ranks (hids : ∀ id m, layers id = some m → L.layerId m = id)
    {rank : Hash → ℕ} (hrank : ∀ (m : Manifest Hash) (h : Hash), m.parent = some h → rank h < rank (L.layerId m)) :
    ∀ {want : Option Hash} {ids : List Hash} {ms : List (Manifest Hash)}, Loads layers want ids ms →
      ids.Pairwise (fun a b => rank a < rank b) ∧ ∀ w ∈ want, ∀ id ∈ ids, rank w < rank id
  | _, [], _, _ => ⟨.nil, fun _ _ _ hid => absurd hid not_mem_nil⟩
  | want, id :: rest, _, ⟨m, ms', _, hl, hparent, hrest⟩ => by
    obtain ⟨hpair, hbelow⟩ := hrest.ranks hids hrank
    refine ⟨pairwise_cons.2 ⟨hbelow id rfl, hpair⟩, fun w hw id' hid' => ?_⟩
    cases hw
    have hfirst : rank w < rank id := by
      rw [← hids id m hl]
      exact hrank m w (hparent rfl)
    rcases mem_cons.1 hid' with rfl | hid'
    · exact hfirst
    · exact hfirst.trans (hbelow id rfl id' hid')

theorem Loads.nodup (hF : L.Founded)
    (hids : ∀ id m, layers id = some m → L.layerId m = id) {ids : List Hash} {ms : List (Manifest Hash)}
    (h : Loads layers none ids ms) : ids.Nodup := by
  obtain ⟨rank, hrank⟩ := hF
  refine (h.ranks hids hrank).1.imp fun hlt => ?_
  rintro rfl
  exact lt_irrefl _ hlt

end Founded

variable {Hash : Type} [DecidableEq Hash] {L : Crates Hash} {n n' n₁ : Node Hash} {pod : String}
  {row : DeviceRow Hash} {chain : List (Manifest Hash)} {depth : ℕ} {m : Manifest Hash} {stats : SealStats}

/-- A disk on a node: its row, its chain, and the chunks of it. -/
structure Disk (L : Crates Hash) (n : Node Hash) (pod : String) (row : DeviceRow Hash)
    (chain : List (Manifest Hash)) : Prop extends Store L n where
  row_eq : n.rows pod = some row
  /-- the fields are a `u64` and a `u32` -/
  logicalSize : row.logicalSize < 256 ^ 8
  chunkSize : row.chunkSize < 256 ^ 4
  loads : Loads n.layers none row.chain chain
  readable : Readable n.chunks chain

/-- What a Seal needs to succeed and to keep the content, of the disk as it is before: at most one
private layer, of the row's geometry; below a chunk that the top has in part, data as long as the
chunk; and where the top has nothing, the same read at the row's geometry and at the last
layer's. -/
def Sealable (chunks : Hash → Option Bytes) (row : DeviceRow Hash) (chain : List (Manifest Hash)) :
    Option SparseFile → Prop
  | none => chain.length ≤ row.sharedDepth + 1 ∧ chain ≠ []
  | some f => chain.length ≤ row.sharedDepth + 1 ∧ 0 < row.chunkSize ∧
      (∀ s ∈ mergedOf chain row.sharedDepth, s.chunkSize = row.chunkSize ∧ s.logicalSize = row.logicalSize) ∧
      (∀ p < row.logicalSize, f.isData p = true → Composable f chunks chain (p / row.chunkSize * row.chunkSize)
        (chunkLenAt (p / row.chunkSize * row.chunkSize) row.logicalSize row.chunkSize)) ∧
      ∀ p < row.logicalSize, f.isData p = false →
        deviceView chunks chain p = chainView chunks chain row.chunkSize p

/-- The row's chain loads, and the disk reads as `v`. -/
def ReadsAs (n : Node Hash) (pod : String) (v : View) : Prop :=
  ∃ row chain, n.rows pod = some row ∧ Loads n.layers none row.chain chain ∧
    diskView n.chunks (n.files (.top pod)) chain row.logicalSize = v

/-- A Seal of the disk whose caller stays succeeds, with a layer that reads as `v`. -/
def SealsAs (L : Crates Hash) (n : Node Hash) (pod : String) (v : View) : Prop :=
  ∃ out n', run (exec L) (sealDisk L pod) { n with callerStays := none } = (.ok out, n') ∧
    ∃ row chain, n'.rows pod = some row ∧ row.chain.getLast? = some out.layerId ∧
      Loads n'.layers none row.chain chain ∧ chain.getLast? = some out.manifest ∧
      diskView n'.chunks none chain row.logicalSize = v

omit [DecidableEq Hash] in
theorem mergedOf_min (chain : List (Manifest Hash)) (k : ℕ) : mergedOf chain (min k chain.length) = mergedOf chain k := by
  unfold mergedOf
  have : min k chain.length < chain.length ↔ k < chain.length := by omega
  simp only [this]

omit [DecidableEq Hash] in
theorem mergedOf_mem {s : Manifest Hash} (h : s ∈ mergedOf chain depth) : chain.getLast? = some s := by
  unfold mergedOf at h
  split_ifs at h
  · exact h
  · cases h

structure SealedChain (L : Crates Hash) (n : Node Hash) (row : DeviceRow Hash) (chain : List (Manifest Hash)) (depth : ℕ)
    (m : Manifest Hash) (n₁ : Node Hash) (f : SparseFile) : Prop where
  pos : 0 < row.chunkSize
  decoded : m.Decoded L
  loads : Loads (commitLayer L n.layers m) none (row.chain.take depth ++ [L.layerId m]) (chain.take depth ++ [m])
  chunkSize : m.chunkSize = row.chunkSize
  logicalSize : m.logicalSize = row.logicalSize
  view : ∀ p < row.logicalSize, chainView n₁.chunks (chain.take depth ++ [m]) row.chunkSize p =
    overlay f (chainView n.chunks chain row.chunkSize) p
  readable : Readable n₁.chunks (chain.take depth ++ [m])
  merged : ∀ s ∈ mergedOf chain depth, s.chunkSize = row.chunkSize ∧ s.logicalSize = row.logicalSize
  composable : ∀ p < row.logicalSize, f.isData p = true →
    Composable f n.chunks chain (p / row.chunkSize * row.chunkSize)
      (chunkLenAt (p / row.chunkSize * row.chunkSize) row.logicalSize row.chunkSize) ∧
    Whole (overlay f (chainView n.chunks chain row.chunkSize)) (p / row.chunkSize * row.chunkSize)
      (chunkLenAt (p / row.chunkSize * row.chunkSize) row.logicalSize row.chunkSize)

theorem SealAt.sealedChain (hL : L.Ideal) (hd : Disk L n pod row chain)
    (hat : SealAt L n pod row chain depth m stats n1) :
    ∃ f, n.files (.top pod) = some f ∧ SealedChain L n row chain depth m n1 f := by
  obtain ⟨shared, f, touched, hres⟩ := sealStage_ok (n := n.marked pod) hd.readable hat.stage
  have hle : depth ≤ chain.length := by
    rw [hat.depth_eq]
    omega
  have hmerge : mergedOf chain depth = none ∨ mergedOf chain depth = chain.getLast? := by
    unfold mergedOf
    split_ifs
    · exact Or.inr rfl
    · exact Or.inl rfl
  obtain ⟨hshared, hlast⟩ := hres.chain_eq hmerge
  rw [sharedPrefix_eq_take hle hat.shape] at hshared
  subst hshared
  have hchain := hd.chain_decoded hd.loads
  have hmem : ∀ s ∈ mergedOf chain depth, s ∈ chain := fun s hs => mem_of_getLast? (mergedOf_mem hs)
  have hdecoded := hres.decoded hL hd.logicalSize hd.chunkSize fun s hs => hchain s (hmem s hs)
  have hparent : m.parent = (row.chain.take depth).getLast? := by
    rw [hres.manifest, ← (hd.loads.take depth).map_id hd.ids, getLast?_map]
    rfl
  refine ⟨f, hres.file, hres.pos, hdecoded, ?_, by rw [hres.manifest]; rfl, by rw [hres.manifest]; rfl, fun p hp => ?_,
    fun m' hm' h hh => ?_, fun s hs => ?_, fun p hp hdata => ?_⟩
  · exact ((hd.loads.take depth).mono fun _ _ _ hl => commitLayer_mono hl).snoc
      (commitLayer_id hL hd.ids hd.decoded hdecoded) hparent
  · exact SealResult.view (n := n.marked pod) hL.blake3_inj hd.chunks hd.readable hres hlast
      (fun s hs => (hchain s (hmem s hs)).sorted) hp
  · rcases mem_append.1 hm' with hm' | hm'
    · exact hres.grows.readable hd.readable m' (mem_of_mem_take hm') h hh
    · rw [mem_singleton.1 hm', hres.manifest] at hh
      obtain ⟨e, he, hk⟩ := mem_filterMap.1 hh
      rcases mem_sealedManifest he with he | ⟨s, hs, he⟩
      · exact hres.admitted e he h hk
      · exact hres.grows.readable hd.readable s (hmem s hs) h (mem_filterMap.2 ⟨e, he, hk⟩)
  · rcases hres.merge with ⟨hnone, -⟩ | ⟨s', last, hs', -, -, hcs, hR⟩
    · simp [hnone] at hs
    · rw [hs'] at hs
      cases hs
      exact ⟨hcs, hR⟩
  · have htouched := (hres.touched_iff _).2 ⟨p, hp, hdata, rfl⟩
    exact ⟨hres.composable _ htouched, hres.whole _ htouched⟩

section Sealed
variable {f : SparseFile}

theorem overlay_congr {v v' : View} {p : ℕ} (h : f.isData p = false → v p = v' p) : overlay f v p = overlay f v' p := by
  unfold overlay
  split_ifs with hdata
  · rfl
  · exact h (Bool.eq_false_iff.2 hdata)

theorem SealedChain.device (hc : SealedChain L n row chain depth m n1 f) {p : ℕ} (hp : p < row.logicalSize) :
    deviceView n1.chunks (chain.take depth ++ [m]) p = overlay f (chainView n.chunks chain row.chunkSize) p := by
  rw [deviceView_of_head getLast?_concat (by rwa [hc.logicalSize]), hc.chunkSize, hc.view p hp]

variable {top : Option SparseFile}

theorem SealedChain.diskView_eq (hc : SealedChain L n row chain depth m n1 f)
    (hagree : ∀ p < row.logicalSize, f.isData p = false →
      deviceView n.chunks chain p = chainView n.chunks chain row.chunkSize p)
    (htop : top = none ∨ top = some f) :
    diskView n1.chunks top (chain.take depth ++ [m]) row.logicalSize = diskView n.chunks (some f) chain row.logicalSize := by
  have hover : ∀ p < row.logicalSize,
      overlay f (chainView n.chunks chain row.chunkSize) p = overlay f (deviceView n.chunks chain) p :=
    fun p hp => overlay_congr fun hdata => (hagree p hp hdata).symm
  refine diskView_congr fun p hp => ?_
  simp only [diskView, if_pos hp]
  rcases htop with rfl | rfl
  · rw [hc.device hp, hover p hp]
  · dsimp only
    rw [← hover p hp]
    conv_lhs => unfold overlay
    rw [hc.device hp]
    unfold overlay
    split_ifs <;> rfl

theorem SealedChain.sealable (hc : SealedChain L n row chain depth m n1 f)
    (hdepth : depth = min row.sharedDepth chain.length)
    (htop : top = none ∨ top = some f) :
    Sealable n1.chunks (sealedRow L row depth m) (chain.take depth ++ [m]) top := by
  have hlen : (chain.take depth ++ [m]).length ≤ row.sharedDepth + 1 := by
    rw [length_append, length_take, length_singleton]
    omega
  rcases htop with rfl | rfl
  · exact ⟨hlen, by simp⟩
  · refine ⟨hlen, hc.pos, fun s hs => ?_, fun p hp hdata => Or.inr fun h hh => ?_, fun p hp hdata => ?_⟩
    · have := mergedOf_mem hs
      rw [getLast?_concat] at this
      cases this
      exact ⟨hc.chunkSize, hc.logicalSize⟩
    · -- the chunk's bytes are all there, so the data below is as long as the chunk
      have hp : p < row.logicalSize := hp
      have hle := Nat.div_mul_le_self p row.chunkSize
      have hpos := hc.pos
      refine chunk_length (lt_min (Nat.sub_pos_of_lt (hle.trans_lt hp)) hpos) fun i hi => ?_
      · have hwhole := (hc.composable p hp hdata).2 i hi
        have hi : i < chunkLenAt (p / row.chunkSize * row.chunkSize) row.logicalSize row.chunkSize := hi
        obtain ⟨hiR, hics⟩ := lt_min_iff.1 hi
        rw [← hc.view _ (Nat.add_lt_of_lt_sub' hiR), chainView_chunk _ _ (Nat.dvd_mul_left _ _) hics] at hwhole
        rw [show parentChunk? (resolveParent (chain.take depth ++ [m]) (p / row.chunkSize * row.chunkSize)) = some h from hh]
          at hwhole
        exact hwhole
    · rw [deviceView_of_head getLast?_concat (by rwa [hc.logicalSize]), hc.chunkSize]
      rfl

end Sealed

/-! What is on the node when a seal stops -/

theorem Store.commit (hst : Store L n) (hm : m.Decoded L) (hvalid : ChunksValid L n'.chunks)
    (hsub : ∀ id x, n'.layers id = some x → commitLayer L n.layers m id = some x) : Store L n' := by
  refine ⟨hvalid, fun id x hx => ?_, fun id x hx => ?_⟩
  · rcases commitLayer_some (hsub id x hx) with hx | ⟨rfl, rfl⟩
    · exact hst.ids id x hx
    · rfl
  · rcases commitLayer_some (hsub id x hx) with hx | ⟨-, rfl⟩
    · exact hst.decoded id x hx
    · exact hm

variable {pt : SealPoint} {f : SparseFile}

theorem SealReached.layers_sub (hpt : SealReached L n pod row depth m n1 pt n') (id : Hash)
    (x : Manifest Hash) (hx : n'.layers id = some x) : commitLayer L n.layers m id = some x := by
  have hlayers := hpt.layers
  cases hold : replaced L row depth m with
  | none =>
    rw [hlayers] at hx
    cases pt <;> simpa only [hold] using hx
  | some old =>
    rw [hlayers] at hx
    cases pt <;> simp only [hold] at hx <;> try exact hx
    by_cases hid : id = old
    · simp [hid, Function.update_self] at hx
    · rwa [Function.update_of_ne hid] at hx

theorem SealReached.loads (hF : L.Founded) (hd : Disk L n pod row chain)
    (hc : SealedChain L n row chain depth m n1 f) (hpt : SealReached L n pod row depth m n1 pt n') :
    Loads n'.layers none (row.chain.take depth ++ [L.layerId m]) (chain.take depth ++ [m]) := by
  refine hc.loads.mono fun id hid x hx => ?_
  rw [hpt.layers]
  split
  · rename_i old hold
    rw [Function.update_of_ne, hx]
    -- the replaced layer is the old chain's last one, and not one of the shared ones
    rintro rfl
    unfold replaced at hold
    split_ifs at hold with hlt
    obtain ⟨hlast, hne⟩ := Option.filter_eq_some_iff.1 hold
    rcases mem_append.1 hid with hid | hid
    · have hnodup := hd.loads.nodup hF hd.ids
      have hdrop : id ∈ row.chain.drop depth := by
        obtain ⟨init, hinit⟩ := getLast?_eq_some_iff.1 hlast
        rw [hinit, drop_append_of_le_length]
        · exact mem_append_right _ (mem_singleton.2 rfl)
        · rw [hinit, length_append, length_singleton] at hlt
          omega
      rw [← take_append_drop depth row.chain, nodup_append] at hnodup
      exact hnodup.2.2 id hid id hdrop rfl
    · exact of_decide_eq_true hne (mem_singleton.1 hid)
  · exact hx

theorem SealReached.disk (hF : L.Founded) (hd : Disk L n pod row chain)
    (hat : SealAt L n pod row chain depth m stats n1) (hc : SealedChain L n row chain depth m n1 f)
    (hpt : SealReached L n pod row depth m n1 pt n') (hpointed : pt ≠ .committed) :
    Disk L n' pod (sealedRow L row depth m) (chain.take depth ++ [m]) := by
  have hstore : Store L n' :=
    hd.toStore.commit hc.decoded (by rw [hpt.chunks]; exact hat.quiet.valid hd.chunks) hpt.layers_sub
  exact { hstore with
    row_eq := by rw [hpt.rows, if_neg hpointed, Function.update_self]
    logicalSize := hd.logicalSize
    chunkSize := hd.chunkSize
    loads := hpt.loads hF hd hc
    readable := by rw [hpt.chunks]; exact hc.readable }

omit [DecidableEq Hash] in
theorem Disk.grows (hd : Disk L n pod row chain) (hst : Store L n') (hrows : n'.rows = n.rows)
    (hlayers : ∀ id x, n.layers id = some x → n'.layers id = some x)
    (hchunks : ∀ h c, n.chunks h = some c → n'.chunks h = some c) : Disk L n' pod row chain := by
  refine { hst with
    row_eq := by rw [hrows, hd.row_eq]
    logicalSize := hd.logicalSize
    chunkSize := hd.chunkSize
    loads := hd.loads.mono fun id _ x hx => hlayers id x hx
    readable := fun m hm h hh => ?_ }
  obtain ⟨c, hc⟩ := Option.isSome_iff_exists.1 (hd.readable m hm h hh)
  rw [hchunks h c hc]
  rfl

omit [DecidableEq Hash] in
theorem Sealable.grows {chunks chunks' : Hash → Option Bytes} (hchunks : ∀ h c, chunks h = some c → chunks' h = some c)
    (hr : Readable chunks chain) : ∀ {top : Option SparseFile}, Sealable chunks row chain top →
    Sealable chunks' row chain top
  | none, hs => hs
  | some f, ⟨hshape, hpos, hmerged, hcomp, hagree⟩ => by
    refine ⟨hshape, hpos, hmerged, fun p hp hdata => (hcomp p hp hdata).imp_right fun hbelow h hh => ?_,
      fun p hp hdata => ?_⟩
    · obtain ⟨c, hc, hle⟩ := hbelow h hh
      exact ⟨c, hchunks h c hc, hle⟩
    · rw [deviceView_kept hchunks hr, chainView_kept hchunks hr]
      exact hagree p hp hdata

theorem cut_sealable (hL : L.Ideal) (hF : L.Founded) (hd : Disk L n pod row chain)
    (hs : Sealable n.chunks row chain (n.files (.top pod))) (hcut : Cut (exec L) (sealDisk L pod) n n') :
    ∃ row' chain', Disk L n' pod row' chain' ∧ Sealable n'.chunks row' chain' (n'.files (.top pod)) ∧
      diskView n'.chunks (n'.files (.top pod)) chain' row'.logicalSize =
        diskView n.chunks (n.files (.top pod)) chain row.logicalSize := by
  rcases sealDisk_cut hcut with hq | ⟨row1, chain1, depth, m, stats, n1, pt, hat, hpt⟩
  · refine ⟨row, chain, hd.grows ?_ hq.rows (fun id x hx => by rw [hq.layers, hx]) hq.chunks, ?_, ?_⟩
    · exact ⟨hq.valid hd.chunks, by rw [hq.layers]; exact hd.ids, by rw [hq.layers]; exact hd.decoded⟩
    · rw [hq.files]
      exact hs.grows hq.chunks hd.readable
    · rw [hq.files]
      exact diskView_kept hq.chunks hd.readable _ _
  obtain rfl : row1 = row := Option.some.inj (hat.row_eq.symm.trans hd.row_eq)
  obtain rfl : chain1 = chain := hat.loads.eq hd.loads
  obtain ⟨f, hf, hc⟩ := hat.sealedChain hL hd
  rw [hf] at hs
  by_cases hcommitted : pt = .committed
  · subst hcommitted
    have hfiles : n'.files = n.files := hpt.files
    have hkept : ∀ h c, n.chunks h = some c → n'.chunks h = some c := by
      rw [hpt.chunks]
      exact hat.quiet.chunks
    refine ⟨row1, chain1, hd.grows ?_ hpt.rows (fun id x hx => ?_) hkept, ?_, ?_⟩
    · exact hd.toStore.commit hc.decoded (by rw [hpt.chunks]; exact hat.quiet.valid hd.chunks) hpt.layers_sub
    · have hlayers : n'.layers = commitLayer L n.layers m := hpt.layers
      rw [hlayers]
      exact commitLayer_mono hx
    · rw [hfiles, hf]
      exact hs.grows hkept hd.readable
    · rw [hfiles]
      exact diskView_kept hkept hd.readable _ _
  · have htop : n'.files (.top pod) = none ∨ n'.files (.top pod) = some f := by
      rw [hpt.files]
      split_ifs
      · exact Or.inr hf
      · exact Or.inl (Function.update_self ..)
    refine ⟨_, _, hpt.disk hF hd hat hc hcommitted, ?_, ?_⟩
    · rw [hpt.chunks]
      exact hc.sealable hat.depth_eq htop
    · rw [hpt.chunks, hf]
      exact hc.diskView_eq hs.2.2.2.2 htop

omit [DecidableEq Hash] in
theorem Disk.newest (hd : Disk L n pod row chain) {m : Manifest Hash} (hm : chain.getLast? = some m) :
    row.chain.getLast? = some (L.layerId m) ∧ n.layers (L.layerId m) = some m := by
  obtain ⟨id, -, hl⟩ := hd.loads.mem m (mem_of_getLast? hm)
  refine ⟨?_, by rw [hd.ids id m hl, hl]⟩
  rw [← hd.loads.map_id hd.ids, getLast?_map, hm]
  rfl

theorem seals_of_sealable (hL : L.Ideal) (hF : L.Founded) (hz : ∀ b, (L.zstd b).isSome) (hd : Disk L n pod row chain)
    (hs : Sealable n.chunks row chain (n.files (.top pod))) (hstays : n.callerStays = none) :
    ∃ out n', run (exec L) (sealDisk L pod) n = (.ok out, n') ∧
      ∃ row' chain', n'.rows pod = some row' ∧ row'.chain.getLast? = some out.layerId ∧
        Loads n'.layers none row'.chain chain' ∧ chain'.getLast? = some out.manifest ∧
        diskView n'.chunks none chain' row'.logicalSize =
          diskView n.chunks (n.files (.top pod)) chain row.logicalSize := by
  cases htop : n.files (.top pod) with
  | none =>
    rw [htop] at hs
    obtain ⟨hshape, hne⟩ := hs
    obtain ⟨m, hm⟩ : ∃ m, chain.getLast? = some m := ⟨_, getLast?_eq_some_getLast hne⟩
    obtain ⟨hlast, hl⟩ := hd.newest hm
    exact ⟨_, _, sealDisk_sealed hd.row_eq hd.loads hshape htop hlast hl, row, chain, hd.row_eq, hlast, hd.loads, hm, rfl⟩
  | some f =>
    rw [htop] at hs
    obtain ⟨hshape, hpos, hmerged, hcomp, hagree⟩ := hs
    obtain ⟨⟨m, stats⟩, n1, hstage⟩ : Ends (exec L) (sealStage L (.top pod) chain
        (mergedOf chain (min row.sharedDepth chain.length)) true row.logicalSize row.chunkSize) (n.marked pod) := by
      refine sealStage_ends (f := f) htop hpos hd.readable (fun _ => hstays) (fun s hs => ?_) (fun _ => hz) hcomp
      rw [mergedOf_min] at hs
      exact ⟨s, mergedOf_mem hs, rfl, hmerged s hs⟩
    have hsome : (n.files (.top pod)).isSome := by
      rw [htop]
      rfl
    have hlen : chain.length ≤ min row.sharedDepth chain.length + 1 := by omega
    have hat : SealAt L n pod row chain _ m stats n1 := ⟨hd.row_eq, hd.loads, rfl, hlen, hsome, hstage⟩
    obtain ⟨n', pt, hrun, hpt', hpt⟩ := sealCommitted_run stats hd.row_eq hsome hat.committed
    obtain ⟨f', hf', hc⟩ := hat.sealedChain hL hd
    obtain rfl : f' = f := Option.some.inj (hf'.symm.trans htop)
    have hd' := hpt.disk hF hd hat hc (by rcases hpt' with rfl | rfl <;> decide)
    refine ⟨⟨L.layerId m, m, stats⟩, n', ?_, _, _, hd'.row_eq, getLast?_concat, hd'.loads, getLast?_concat, ?_⟩
    · rwa [sealDisk_staged hd.row_eq hd.loads rfl hlen hsome, hstage]
    · rw [hpt.chunks]
      exact hc.diskView_eq hagree (Or.inl rfl)

theorem sealable_of_seals (hL : L.Ideal) (hF : L.Founded) (hd : Disk L n pod row chain) {out : SealOutcome Hash}
    (hrun : run (exec L) (sealDisk L pod) n = (.ok out, n')) {row' : DeviceRow Hash} {chain' : List (Manifest Hash)}
    (hrow' : n'.rows pod = some row') (hloads' : Loads n'.layers none row'.chain chain')
    (hview : diskView n'.chunks none chain' row'.logicalSize =
      diskView n.chunks (n.files (.top pod)) chain row.logicalSize) :
    Sealable n.chunks row chain (n.files (.top pod)) := by
  obtain ⟨hshape, hne⟩ := sealDisk_shape hd.row_eq hd.loads hrun
  cases htop : n.files (.top pod) with
  | none => exact ⟨hshape, hne htop⟩
  | some f =>
    have hsome : (n.files (.top pod)).isSome := by
      rw [htop]
      rfl
    have hlen : chain.length ≤ min row.sharedDepth chain.length + 1 := by omega
    rw [sealDisk_staged hd.row_eq hd.loads rfl hlen hsome] at hrun
    rcases hstage : run (exec L) (sealStage L (.top pod) chain (mergedOf chain (min row.sharedDepth chain.length)) true
      row.logicalSize row.chunkSize) (n.marked pod) with ⟨_ | ⟨m, stats⟩, n1⟩
    · simp [hstage] at hrun
    rw [hstage] at hrun
    have hat : SealAt L n pod row chain _ m stats n1 := ⟨hd.row_eq, hd.loads, rfl, hlen, hsome, hstage⟩
    obtain ⟨n'', pt, hrun', hpt', hpt⟩ := sealCommitted_run stats hd.row_eq hsome hat.committed
    obtain rfl : n'' = n' := (Prod.ext_iff.1 (hrun'.symm.trans hrun)).2
    obtain ⟨f', hf', hc⟩ := hat.sealedChain hL hd
    obtain rfl : f' = f := Option.some.inj (hf'.symm.trans htop)
    have hd' := hpt.disk hF hd hat hc (by rcases hpt' with rfl | rfl <;> decide)
    obtain rfl : _ = row' := Option.some.inj (hd'.row_eq.symm.trans hrow')
    obtain rfl : _ = chain' := hd'.loads.eq hloads'
    refine ⟨hshape, hc.pos, fun s hs => hc.merged s (by rwa [mergedOf_min]), fun p hp hdata => (hc.composable p hp hdata).1,
      fun p hp hdata => ?_⟩
    -- where the top has nothing, the layer reads what the seal read below it
    have hat := congrFun hview p
    rw [hpt.chunks, htop] at hat
    have hp' : p < (sealedRow L row (min row.sharedDepth chain.length) m).logicalSize := hp
    simp only [diskView, if_pos hp', if_pos hp] at hat
    rw [hc.device hp] at hat
    unfold overlay at hat
    rw [if_neg (Bool.eq_false_iff.1 hdata), if_neg (Bool.eq_false_iff.1 hdata)] at hat
    exact hat.symm

/-- A Seal can stop anywhere, by an error, for a caller that went or by a crash: the row's chain
loads and the disk reads as before, and a following Seal succeeds with a layer that reads the
same. This is so of the disks that a Seal can seal, and of no others. -/
theorem seal_atomic_iff (hL : L.Ideal) (hF : L.Founded) (hz : ∀ b, (L.zstd b).isSome) (hd : Disk L n pod row chain) :
    (∀ n', Cut (exec L) (sealDisk L pod) n n' →
      ReadsAs n' pod (diskView n.chunks (n.files (.top pod)) chain row.logicalSize) ∧
      SealsAs L n' pod (diskView n.chunks (n.files (.top pod)) chain row.logicalSize)) ↔
    Sealable n.chunks row chain (n.files (.top pod)) := by
  have hstay : ∀ {n : Node Hash} {row : DeviceRow Hash} {chain : List (Manifest Hash)}, Disk L n pod row chain →
      Disk L { n with callerStays := none } pod row chain := fun hd =>
    hd.grows ⟨hd.chunks, hd.ids, hd.decoded⟩ rfl (fun _ _ hx => hx) fun _ _ hx => hx
  constructor
  · intro h
    obtain ⟨-, out, n', hrun, row', chain', hrow', -, hloads', -, hview⟩ := h n (.now _ _)
    exact sealable_of_seals (n := { n with callerStays := none }) hL hF (hstay hd) hrun hrow' hloads' hview
  · intro hs n' hcut
    obtain ⟨row', chain', hd', hs', hview⟩ := cut_sealable hL hF hd hs hcut
    refine ⟨⟨row', chain', hd'.row_eq, hd'.loads, hview⟩, ?_⟩
    rw [← hview]
    exact seals_of_sealable hL hF hz (hstay hd') hs' rfl

theorem length_le_markBytes (b : Bytes) : b.length < (markBytes b).length := by
  induction b with
  | nil => exact Nat.one_pos
  | cons x b ih =>
    rw [length_cons, markBytes, length_cons, length_cons]
    omega

theorem sampleCrates_founded : sampleCrates.Founded := by
  refine ⟨fun h => h.asBytes.length, fun m h hp => ?_⟩
  have hlen : h.asBytes.length ≤ (sampleCrates.layerPreimage m).length := by
    unfold Crates.layerPreimage
    rw [hp]
    simp only [length_append]
    exact le_add_right (le_add_left le_rfl)
  have := length_le_markBytes (sampleCrates.layerPreimage m)
  show h.asBytes.length < (SampleHash.asBytes (.of (sampleCrates.layerPreimage m))).length
  rw [SampleHash.asBytes, length_cons]
  omega

/-- A base of three bytes in chunks of two: its last chunk is a short one. -/
def shortBase : Manifest SampleHash := ⟨2, 3, none, [.data 0 (.of [1, 2]) 2 2, .data 2 (.of [3]) 1 1]⟩

/-- A disk on it, `logicalSize` bytes large, with one byte in its top. -/
def shortDisk (logicalSize : ℕ) : DeviceRow SampleHash :=
  ⟨none, [sampleCrates.layerId shortBase], logicalSize, 2, true, 1⟩

def shortNode (logicalSize : ℕ) (top : SparseFile) : Node SampleHash :=
  { sampleNode (fun _ => some top) [[1, 2], [3]] with
    layers := fun id => if id = sampleCrates.layerId shortBase then some shortBase else none
    rows := fun _ => some (shortDisk logicalSize) }

theorem shortBase_decoded : shortBase.Decoded sampleCrates := by
  refine ⟨by decide, by decide, fun e he => ?_, by decide, nofun⟩
  simp only [shortBase, mem_cons, not_mem_nil, or_false] at he
  rcases he with rfl | rfl
  · exact ⟨by decide, by decide, by decide⟩
  · exact ⟨by decide, by decide, by decide⟩

theorem shortNode_disk {logicalSize : ℕ} (h : logicalSize < 256 ^ 8) (top : SparseFile) :
    Disk sampleCrates (shortNode logicalSize top) "a" (shortDisk logicalSize) [shortBase] := by
  have hlayers : ∀ id m, (shortNode logicalSize top).layers id = some m → sampleCrates.layerId shortBase = id ∧
      shortBase = m := by
    intro id m hm
    simp only [shortNode] at hm
    split_ifs at hm with hid
    exact ⟨hid.symm, Option.some.inj hm⟩
  have hcs : (2 : ℕ) < 256 ^ 4 := by decide
  refine ⟨⟨sampleNode_valid (fun _ => some top) _, fun id m hm => ?_, fun id m hm => ?_⟩, rfl, h, hcs, ?_, ?_⟩
  · obtain ⟨hid, rfl⟩ := hlayers id m hm
    exact hid
  · obtain ⟨-, rfl⟩ := hlayers id m hm
    exact shortBase_decoded
  · exact ⟨shortBase, [], rfl, by simp [shortNode], nofun, rfl⟩
  · intro m hm k hk
    rw [mem_singleton.1 hm] at hk
    have hk : k ∈ [SampleHash.of [1, 2], .of [3]] := hk
    simp only [mem_cons, not_mem_nil, or_false] at hk
    rcases hk with rfl | rfl <;> rfl

/-- A disk as large as its base, with a byte over the first chunk. -/
theorem seal_atomic_iff_base_sized :
    Disk sampleCrates (shortNode 3 [none, some 9, none]) "a" (shortDisk 3) [shortBase] ∧
    ∀ n', Cut (exec sampleCrates) (sealDisk sampleCrates "a") (shortNode 3 [none, some 9, none]) n' →
      ReadsAs n' "a" (diskView (shortNode 3 [none, some 9, none]).chunks (some [none, some 9, none]) [shortBase] 3) ∧
      SealsAs sampleCrates n' "a"
        (diskView (shortNode 3 [none, some 9, none]).chunks (some [none, some 9, none]) [shortBase] 3) := by
  have hd : Disk sampleCrates (shortNode 3 [none, some 9, none]) "a" (shortDisk 3) [shortBase] :=
    shortNode_disk (by decide) _
  refine ⟨hd, (seal_atomic_iff sampleCrates_ideal sampleCrates_founded (fun _ => rfl) hd).2 ?_⟩
  refine ⟨by decide, by decide, nofun, fun p hp hdata => Or.inr fun h hh => ?_, fun p hp _ => ?_⟩
  swap
  · have hbase : [shortBase].getLast? = some shortBase := rfl
    exact deviceView_of_head hbase hp
  have hp : p < 3 := hp
  interval_cases p
  · cases hdata
  · cases hh
    exact ⟨[1, 2], rfl, by decide⟩
  · cases hdata

/-- A disk larger than its base with a byte in the base's short last chunk: no Seal of it
succeeds, as below the chunk's other byte it reads past the end of the short one. -/
theorem grown_disk_is_never_sealed :
    Disk sampleCrates (shortNode 4 [none, none, some 9, none]) "a" (shortDisk 4) [shortBase] ∧
    (run (exec sampleCrates) (sealDisk sampleCrates "a") (shortNode 4 [none, none, some 9, none])).1 =
      .error .unexpectedEof ∧
    ¬ ∀ n', Cut (exec sampleCrates) (sealDisk sampleCrates "a") (shortNode 4 [none, none, some 9, none]) n' →
      ReadsAs n' "a" (diskView (shortNode 4 [none, none, some 9, none]).chunks (some [none, none, some 9, none])
        [shortBase] 4) ∧
      SealsAs sampleCrates n' "a"
        (diskView (shortNode 4 [none, none, some 9, none]).chunks (some [none, none, some 9, none]) [shortBase] 4) := by
  have hfails : (run (exec sampleCrates) (sealDisk sampleCrates "a") (shortNode 4 [none, none, some 9, none])).1 =
      .error .unexpectedEof := by decide +kernel
  refine ⟨shortNode_disk (by decide) _, hfails, fun h => ?_⟩
  obtain ⟨-, out, n', hrun, -⟩ := h _ (.now _ _)
  exact absurd (hfails.symm.trans (congrArg Prod.fst hrun)) nofun

end FeOS
