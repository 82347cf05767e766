import FeOS.Sanity.Chains

/-! A layer's id tells the whole layer: the fields of a manifest have the widths that the id is
made over. -/

namespace FeOS

open List

attribute [ext] Entry Manifest

section
variable {Hash : Type}

/-- The fields are of the widths the source gives them. -/
structure Entry.Fits (e : Entry Hash) : Prop where
  offset : e.offset < 256 ^ 8
  rawLen : e.rawLen < 256 ^ 4
  compLen : e.compLen < 256 ^ 4

/-- A manifest as `decode` gives it: sorted, its numbers in their widths, and a parent that is
none where the field is zero. -/
structure Manifest.Decoded (L : Crates Hash) (m : Manifest Hash) : Prop where
  logicalSize : m.logicalSize < 256 ^ 8
  chunkSize : m.chunkSize < 256 ^ 4
  entries : ∀ e ∈ m.entries, e.Fits
  sorted : Keyed.Sorted Entry.offset m.entries
  parent : m.parent ≠ some L.zeroHash

theorem leBytes_inj : ∀ {w a b : ℕ}, a < 256 ^ w → b < 256 ^ w → leBytes w a = leBytes w b → a = b
  | 0, a, b, ha, hb, _ => by
    rw [pow_zero, Nat.lt_one_iff] at ha hb
    rw [ha, hb]
  | w + 1, a, b, ha, hb, h => by
    obtain ⟨hlow, hhigh⟩ := cons.inj h
    have hrest : a / 256 = b / 256 := by
      rw [pow_succ] at ha hb
      exact leBytes_inj (Nat.div_lt_of_lt_mul (by omega)) (Nat.div_lt_of_lt_mul (by omega)) hhigh
    have hmod : a % 256 = b % 256 := by
      have := congrArg UInt8.toNat hlow
      simpa using this
    rw [← Nat.div_add_mod a 256, ← Nat.div_add_mod b 256, hrest, hmod]

variable {L : Crates Hash}

def Crates.Splits (L : Crates Hash) : Prop :=
  ∀ h h' x y, L.asBytes h ++ x = L.asBytes h' ++ y → h = h' ∧ x = y

theorem encodeEntry_inj (hL : L.Splits) {e e' : Entry Hash} (he : e.Fits) (he' : e'.Fits) {x y : Bytes}
    (h : L.encodeEntry e ++ x = L.encodeEntry e' ++ y) : e = e' ∧ x = y := by
  simp only [Crates.encodeEntry, append_assoc] at h
  obtain ⟨hoff, h⟩ := append_inj h (by simp only [length_leBytes])
  obtain ⟨hkind, h⟩ := append_inj h rfl
  obtain ⟨hhash, h⟩ := hL _ _ _ _ h
  obtain ⟨hraw, h⟩ := append_inj h (by simp only [length_leBytes])
  obtain ⟨hcomp, h⟩ := append_inj h (by simp only [length_leBytes])
  have hkind : e.kind = e'.kind := by
    have := (cons.inj hkind).1
    revert this
    cases e.kind <;> cases e'.kind <;> decide
  exact ⟨Entry.ext (leBytes_inj he.offset he'.offset hoff) hkind hhash (leBytes_inj he.rawLen he'.rawLen hraw)
    (leBytes_inj he.compLen he'.compLen hcomp), h⟩

theorem encodeEntry_ne_nil (e : Entry Hash) : L.encodeEntry e ≠ [] := by
  exact cons_ne_nil _ _

theorem encodeEntries_inj (hL : L.Splits) : ∀ {es es' : List (Entry Hash)}, (∀ e ∈ es, e.Fits) → (∀ e ∈ es', e.Fits) →
    es.flatMap L.encodeEntry = es'.flatMap L.encodeEntry → es = es'
  | [], [], _, _, _ => rfl
  | [], e' :: es', _, _, h => by
    rw [flatMap_cons, flatMap_nil] at h
    exact absurd (append_eq_nil_iff.1 h.symm).1 (encodeEntry_ne_nil e')
  | e :: es, [], _, _, h => by
    rw [flatMap_cons, flatMap_nil] at h
    exact absurd (append_eq_nil_iff.1 h).1 (encodeEntry_ne_nil e)
  | e :: es, e' :: es', hf, hf', h => by
    rw [flatMap_cons, flatMap_cons] at h
    obtain ⟨rfl, hrest⟩ := encodeEntry_inj hL (hf e mem_cons_self) (hf' e' mem_cons_self) h
    rw [encodeEntries_inj hL (fun x hx => hf x (mem_cons_of_mem _ hx))
      (fun x hx => hf' x (mem_cons_of_mem _ hx)) hrest]

theorem Crates.Ideal.layerId_inj (hL : L.Ideal) {m m' : Manifest Hash} (hm : m.Decoded L) (hm' : m'.Decoded L)
    (h : L.layerId m = L.layerId m') : m = m' := by
  have hparent := hL.parent_eq h hm.parent hm'.parent
  have hpre := hL.blake3_inj h
  simp only [Crates.layerPreimage, append_assoc] at hpre
  obtain ⟨hlogical, hpre⟩ := append_inj hpre (by simp only [length_leBytes])
  obtain ⟨hchunk, hpre⟩ := append_inj hpre (by simp only [length_leBytes])
  obtain ⟨-, hpre⟩ := hL.asBytes_split _ _ _ _ hpre
  exact Manifest.ext (leBytes_inj hm.chunkSize hm'.chunkSize hchunk) (leBytes_inj hm.logicalSize hm'.logicalSize hlogical)
    hparent (encodeEntries_inj hL.asBytes_split hm.entries hm'.entries hpre)

/-- What diskd's directories hold: chunks under their digests, and manifests under their ids. -/
structure Store (L : Crates Hash) (n : Node Hash) : Prop where
  chunks : ChunksValid L n.chunks
  ids : ∀ id m, n.layers id = some m → L.layerId m = id
  decoded : ∀ id m, n.layers id = some m → m.Decoded L

theorem Loads.mem {layers : Hash → Option (Manifest Hash)} : ∀ {want : Option Hash} {ids : List Hash}
    {ms : List (Manifest Hash)}, Loads layers want ids ms → ∀ m ∈ ms, ∃ id ∈ ids, layers id = some m
  | _, [], _, h, m, hm => by
    rw [show _ = [] from h] at hm
    cases hm
  | _, id :: _, _, ⟨m', ms', hms, hl, _, hrest⟩, m, hm => by
    rw [hms] at hm
    rcases mem_cons.1 hm with rfl | hm
    · exact ⟨id, mem_cons_self, hl⟩
    · obtain ⟨id', hid', hl'⟩ := hrest.mem m hm
      exact ⟨id', mem_cons_of_mem _ hid', hl'⟩

theorem Store.chain_decoded {n : Node Hash} (hst : Store L n) {ids : List Hash} {chain : List (Manifest Hash)}
    (hl : Loads n.layers none ids chain) : ∀ m ∈ chain, m.Decoded L := fun m hm => by
  obtain ⟨id, -, hid⟩ := hl.mem m hm
  exact hst.decoded id m hid

end

section
variable {Hash : Type} [DecidableEq Hash] {L : Crates Hash} {layers : Hash → Option (Manifest Hash)} {m : Manifest Hash}

theorem commitLayer_id (hL : L.Ideal) (hids : ∀ id m, layers id = some m → L.layerId m = id)
    (hdec : ∀ id m, layers id = some m → m.Decoded L) (hm : m.Decoded L) :
    commitLayer L layers m (L.layerId m) = some m := by
  unfold commitLayer
  split_ifs with hs
  · obtain ⟨m', hm'⟩ := Option.isSome_iff_exists.1 hs
    rw [hm', hL.layerId_inj (hdec _ m' hm') hm (hids _ m' hm')]
  · rw [Function.update_self]

end

end FeOS
