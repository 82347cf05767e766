import FeOS.Sanity.SealResult

/-! The table of a sealed layer, looked up and read. -/

namespace FeOS

open List Keyed

section Resolve
variable {Hash : Type}

theorem resolveParent_concat (chain : List (Manifest Hash)) (m : Manifest Hash) (off : ℕ) :
    resolveParent (chain ++ [m]) off = (m.entryAt off).or (resolveParent chain off) := by
  rw [resolveParent, resolveParent, reverse_append, reverse_singleton,
    singleton_append, findSome?_cons]
  cases m.entryAt off <;> rfl

theorem resolve_eq_resolveParent (head : Manifest Hash) (parents : List (Manifest Hash)) (off : ℕ) :
    Manifest.resolve head parents off = resolveParent (parents ++ [head]) off := by
  rw [resolveParent_concat, Manifest.resolve, resolveParent]
  cases head.entryAt off <;> rfl

theorem resolveParent_mem {chain : List (Manifest Hash)} {off : ℕ} {e : Entry Hash}
    (h : resolveParent chain off = some e) : ∃ m ∈ chain, e ∈ m.entries ∧ e.offset = off := by
  obtain ⟨m, hm, he⟩ := exists_of_findSome?_eq_some h
  exact ⟨m, mem_reverse.1 hm, look_mem he, look_key he⟩

theorem readable_of_fully {chunks : Hash → Option Bytes} {chain : List (Manifest Hash)}
    (h : FullyReadable chunks chain) : Readable chunks chain := by
  intro m hm k hk
  obtain ⟨e, he, hek⟩ := mem_filterMap.1 hk
  obtain ⟨c, hc, -⟩ := h m hm e he k hek
  rw [hc]
  rfl

/-! `materialize` writes out what the chain reads -/

section Materialize
variable {chunks : Hash → Option Bytes} {chain : List (Manifest Hash)} {R cs : ℕ} (hcs : 0 < cs)
  (hlayer : ∀ m ∈ chain, m.Layer cs R) (hread : FullyReadable chunks chain)

theorem getD_writeAt (f : Bytes) (off : ℕ) (data : Bytes) (p : ℕ) :
    (writeAt f off data).getD p 0 =
      if off ≤ p ∧ p < off + data.length then data.getD (p - off) 0 else f.getD p 0 := by
  rw [writeAt, getD_eq_getElem?_getD, Splice.getElem?_splice _ (by simp)]
  split_ifs with h
  · rw [getD_eq_getElem?_getD]
  · rw [Splice.getElem?_pad, getD_eq_getElem?_getD]
    split_ifs with h1 h2
    · rfl
    · rw [getElem?_eq_none (by omega)]
      rfl
    · rw [getElem?_eq_none (by omega)]

theorem setLen_eq (f : Bytes) (len : ℕ) : setLen f len = (range len).map fun p => f.getD p 0 := by
  refine ext_getElem? fun p => ?_
  rw [setLen, getElem?_take, getElem?_map]
  split_ifs with hp
  · rw [Splice.getElem?_pad, getElem?_range hp, Option.map_some, getD_eq_getElem?_getD]
    split_ifs with h
    · rw [getElem?_eq_getElem h]
      rfl
    · rw [getElem?_eq_none (by omega)]
      rfl
  · rw [getElem?_eq_none (by simpa using hp)]
    rfl

include hcs hlayer hread

theorem chainView_whole : Whole (chainView chunks chain cs) 0 R := by
  intro p hp
  rw [zero_add, chainView]
  cases hparent : resolveParent chain (p / cs * cs) with
  | none => rfl
  | some e =>
    obtain ⟨m, hm, he, hoff⟩ := resolveParent_mem hparent
    cases hc : e.chunk? with
    | none => simp [parentChunk?, hc, chunkByte]
    | some h =>
      obtain ⟨c, hch, hlen⟩ := hread m hm e he h hc
      have hraw := (hlayer m hm).rawLen e he
      have hmod := Nat.mod_lt p hcs
      have hdiv := Nat.div_add_mod p cs
      rw [hoff, chunkLenAt, mul_comm] at hraw
      have : p % cs < c.length := by omega
      simp [parentChunk?, hc, chunkByte, hch, this]

theorem materializeFrom_ok {head : Manifest Hash} {parents : List (Manifest Hash)}
    (hchain : chain = parents ++ [head]) : ∀ (l : List ℕ) (f : Bytes),
    ∃ f', materializeFrom chunks head parents l f = .ok f' ∧
      ∀ p < R, f'.getD p 0 =
        if p / cs ∈ l ∧ (parentChunk? (resolveParent chain (p / cs * cs))).isSome
        then (chainView chunks chain cs p).getD 0 else f.getD p 0 := by
  have hhead : head.chunkSize = cs := (hlayer head (by simp [hchain])).chunkSize_eq
  intro l
  induction l with
  | nil => exact fun f => ⟨f, rfl, fun p _ => by simp⟩
  | cons ci l ih =>
    intro f
    rw [materializeFrom, hhead, resolve_eq_resolveParent, ← hchain]
    -- a chunk that reads as zeroes is skipped
    have hskip : parentChunk? (resolveParent chain (ci * cs)) = none →
        ∃ f', materializeFrom chunks head parents l f = .ok f' ∧
          ∀ p < R, f'.getD p 0 =
            if p / cs ∈ ci :: l ∧ (parentChunk? (resolveParent chain (p / cs * cs))).isSome
            then (chainView chunks chain cs p).getD 0 else f.getD p 0 := by
      intro hnone
      obtain ⟨f', hf', hread'⟩ := ih f
      refine ⟨f', hf', fun p hp => ?_⟩
      rw [hread' p hp]
      by_cases hci : p / cs = ci
      · simp [hci, hnone]
      · simp [hci]
    cases hparent : resolveParent chain (ci * cs) with
    | none => exact hskip (by simp [parentChunk?, hparent])
    | some e =>
      cases hc : e.chunk? with
      | none =>
        simp only [hc]
        exact hskip (by simp [parentChunk?, hparent, hc])
      | some h =>
        obtain ⟨m, hm, he, hoff⟩ := resolveParent_mem hparent
        obtain ⟨c, hch, hlen⟩ := hread m hm e he h hc
        have hraw := (hlayer m hm).rawLen e he
        rw [hoff, chunkLenAt] at hraw
        simp only [hc, hch, hlen, ne_eq, not_true, if_false]
        obtain ⟨f', hf', hread'⟩ := ih (writeAt f (ci * cs) c)
        refine ⟨f', hf', fun p hp => ?_⟩
        rw [hread' p hp, getD_writeAt]
        have hdiv := Nat.div_add_mod p cs
        have hmod := Nat.mod_lt p hcs
        rw [mul_comm] at hdiv
        by_cases hci : p / cs = ci
        · have hsome : (parentChunk? (resolveParent chain (ci * cs))).isSome := by
            simp [parentChunk?, hparent, hc]
          have hin : ci * cs ≤ p ∧ p < ci * cs + c.length := by
            rw [hci] at hdiv
            omega
          have hbyte : (chainView chunks chain cs p).getD 0 = c.getD (p - ci * cs) 0 := by
            have : p % cs = p - ci * cs := by
              rw [hci] at hdiv
              omega
            rw [chainView, hci, parentChunk?, hparent, Option.bind_some, hc, chunkByte, hch,
              Option.bind_some, this, getD_eq_getElem?_getD]
          simp only [hci, mem_cons_self, hsome, and_true, if_true, hin, and_self, hbyte, ite_self]
        · have hout : ¬ (ci * cs ≤ p ∧ p < ci * cs + c.length) := by
            rintro ⟨h1, h2⟩
            apply hci
            rw [Nat.div_eq_iff hcs]
            constructor <;> omega
          simp [hci, hout]

theorem materialize_eq (hne : chain ≠ []) :
    materialize chunks chain = .ok (viewChunk (chainView chunks chain cs) 0 R) := by
  obtain ⟨parents, head, hchain⟩ := eq_nil_or_concat chain |>.resolve_left hne
  rw [concat_eq_append] at hchain
  have hmem : head ∈ chain := by simp [hchain]
  have hhead := hlayer head hmem
  have huniform : (chain.any fun m => decide (m.chunkSize ≠ cs ∨ m.logicalSize ≠ R)) = false := by
    rw [any_eq_false]
    intro m hm
    simp [(hlayer m hm).chunkSize_eq, (hlayer m hm).logicalSize_eq]
  obtain ⟨f', hf', hbytes⟩ := materializeFrom_ok hcs hlayer hread hchain
    (range (chunkCount R cs)) []
  have hlast : chain.getLast? = some head := by simp [hchain]
  have hdrop : chain.dropLast = parents := by simp [hchain]
  rw [materialize, hlast]
  simp only [hhead.chunkSize_eq, hhead.logicalSize_eq, huniform, Bool.false_eq_true, if_false, hdrop,
    hcs.ne', hf', Except.map, setLen_eq]
  congr 1
  refine map_congr_left fun p hp => ?_
  rw [mem_range] at hp
  rw [hbytes p hp, zero_add]
  have hci := lt_chunkCount hcs hp
  by_cases hsome : (parentChunk? (resolveParent chain (p / cs * cs))).isSome
  · simp [hci, hsome]
  · rw [if_neg (fun h => hsome h.2), chainView, Option.not_isSome_iff_eq_none.1 hsome]
    rfl

end Materialize

end Resolve

variable {Hash : Type} [DecidableEq Hash] {L : Crates Hash}

theorem canonicalEntry_offset {below : Option (Entry Hash)} {off : ℕ} {buf : Bytes} {e : Entry Hash}
    (h : canonicalEntry L below off buf = some e) : e.offset = off ∧ e.rawLen = buf.length := by
  rw [canonicalEntry] at h
  split_ifs at h <;> cases h <;> exact ⟨rfl, rfl⟩

section Table
variable {shared : List (Manifest Hash)} {mergeWith : Option (Manifest Hash)} {v : View} {R cs : ℕ}
  {touched : List ℕ} (hcs : 0 < cs) (hsorted : touched.Pairwise (· < ·))
  (hmerge : ∀ s ∈ mergeWith, Sorted Entry.offset s.entries)

def entryOf (L : Crates Hash) (shared : List (Manifest Hash)) (v : View) (R cs off : ℕ) :
    Option (Entry Hash) :=
  canonicalEntry L (resolveParent shared off) off (viewChunk v off (chunkLenAt off R cs))

theorem entryOf_offset (k : ℕ) (e : Entry Hash) (h : entryOf L shared v R cs k = some e) :
    e.offset = k := (canonicalEntry_offset h).1

theorem changedEntries_eq :
    changedEntries L shared v R cs touched = (touched.map (· * cs)).filterMap (entryOf L shared v R cs) := by
  rw [filterMap_map]
  rfl

include hcs hsorted in
theorem changedEntries_sorted : Sorted Entry.offset (changedEntries L shared v R cs touched) := by
  rw [changedEntries_eq]
  refine sorted_filterMap entryOf_offset ?_
  rw [pairwise_map]
  exact hsorted.imp fun h => Nat.mul_lt_mul_of_pos_right h hcs

theorem look_changedEntries (k : ℕ) :
    look Entry.offset (changedEntries L shared v R cs touched) k =
      if k ∈ touched.map (· * cs) then entryOf L shared v R cs k else none := by
  rw [changedEntries_eq, look_filterMap entryOf_offset]

omit [DecidableEq Hash] in
theorem look_mergedEntries (k : ℕ) :
    look Entry.offset (mergedEntries mergeWith touched cs) k =
      if k ∈ touched.map (· * cs) then none else mergeWith.bind (·.entryAt k) := by
  cases mergeWith with
  | none => simp [mergedEntries, look]
  | some s =>
    rw [mergedEntries, look_filter (fun k => decide (k ∉ touched.map (· * cs)))]
    simp only [decide_eq_true_eq, ite_not]
    rfl

include hcs hsorted hmerge in
theorem sealed_nodup :
    ((changedEntries L shared v R cs touched ++ mergedEntries mergeWith touched cs).map
      Entry.offset).Nodup := by
  rw [map_append, nodup_append]
  refine ⟨(changedEntries_sorted hcs hsorted).nodup, ?_, ?_⟩
  · cases mergeWith with
    | none => simp [mergedEntries]
    | some s => exact ((hmerge s rfl).nodup).sublist (filter_sublist.map _)
  · -- the merged entries are those at offsets the top left alone
    rintro _ ha _ hb rfl
    obtain ⟨e, he, rfl⟩ := mem_map.1 ha
    obtain ⟨e', he', heq⟩ := mem_map.1 hb
    rw [changedEntries_eq] at he
    obtain ⟨k, hk, hke⟩ := mem_filterMap.1 he
    rw [entryOf_offset k e hke] at heq
    cases mergeWith with
    | none => simp [mergedEntries] at he'
    | some s =>
      have := (mem_filter.1 he').2
      rw [heq] at this
      simp only [decide_eq_true_eq] at this
      exact this hk

omit [DecidableEq Hash] in
theorem sortMerged_perm (l : List (Entry Hash)) : (sortMerged mergeWith l).Perm l := by
  cases mergeWith with
  | none => exact .refl _
  | some s => exact perm_insertionSort _ l

include hcs hsorted hmerge

theorem sealedManifest_entryAt (k : ℕ) :
    (sealedManifest L shared mergeWith v R cs touched).entryAt k =
      if k ∈ touched.map (· * cs) then entryOf L shared v R cs k
      else mergeWith.bind (·.entryAt k) := by
  rw [Manifest.entryAt, sealedManifest, look_perm _ (sortMerged_perm _), look_append,
    look_changedEntries, look_mergedEntries]
  · split_ifs
    · exact Option.or_none
    · exact Option.none_or
  · exact ((sortMerged_perm _).map _).nodup_iff.2 (sealed_nodup hcs hsorted hmerge)

theorem sealedManifest_sorted :
    Sorted Entry.offset (sealedManifest L shared mergeWith v R cs touched).entries := by
  cases mergeWith with
  | none => simpa [sealedManifest, sortMerged, mergedEntries] using changedEntries_sorted hcs hsorted
  | some s => exact sorted_insertionSort (sealed_nodup hcs hsorted hmerge)

omit hcs hsorted hmerge in
theorem mem_sealedManifest {e : Entry Hash}
    (he : e ∈ (sealedManifest L shared mergeWith v R cs touched).entries) :
    e ∈ changedEntries L shared v R cs touched ∨ ∃ s ∈ mergeWith, e ∈ s.entries := by
  rcases mem_append.1 ((sortMerged_perm _).mem_iff.1 he) with he | he
  · exact Or.inl he
  · cases mergeWith with
    | none => simp [mergedEntries] at he
    | some s => exact Or.inr ⟨s, rfl, (mem_filter.1 he).1⟩

omit hmerge in
theorem sealedManifest_layer (hinside : ∀ ci ∈ touched, ci * cs < R)
    (hlayer : ∀ s ∈ mergeWith, s.Layer cs R) :
    (sealedManifest L shared mergeWith v R cs touched).Layer cs R := by
  have hall : ∀ e ∈ (sealedManifest L shared mergeWith v R cs touched).entries,
      cs ∣ e.offset ∧ e.offset < R ∧ e.rawLen = chunkLenAt e.offset R cs := by
    intro e he
    rcases mem_sealedManifest he with he | ⟨s, hs, he⟩
    · rw [changedEntries_eq] at he
      obtain ⟨k, hk, hke⟩ := mem_filterMap.1 he
      obtain ⟨ci, hci, rfl⟩ := mem_map.1 hk
      obtain ⟨hoff, hraw⟩ := canonicalEntry_offset hke
      rw [hoff, hraw, length_viewChunk]
      exact ⟨Dvd.intro_left _ rfl, hinside ci hci, rfl⟩
    · exact ⟨(hlayer s hs).aligned e he, (hlayer s hs).below e he, (hlayer s hs).rawLen e he⟩
  exact ⟨rfl, rfl, sealedManifest_sorted hcs hsorted fun s hs => (hlayer s hs).sorted,
    fun e he => (hall e he).1, fun e he => (hall e he).2.1, fun e he => (hall e he).2.2⟩

end Table

/-! Reading the layer -/

theorem entryOf_reads (hinj : Function.Injective L.blake3) {chunks : Hash → Option Bytes}
    (hvalid : ChunksValid L chunks) {shared : List (Manifest Hash)} (hr : Readable chunks shared)
    {v : View} {R cs off : ℕ} (hw : Whole v off (chunkLenAt off R cs))
    (hadm : ∀ e ∈ entryOf L shared v R cs off, ∀ h, e.chunk? = some h → (chunks h).isSome) {i : ℕ}
    (hi : i < chunkLenAt off R cs) :
    chunkByte chunks (parentChunk? ((entryOf L shared v R cs off).or (resolveParent shared off))) i =
      v (off + i) := by
  rw [← getElem?_viewChunk hw hi]
  rw [entryOf] at hadm ⊢
  set buf := viewChunk v off (chunkLenAt off R cs) with hbuf
  have hlen : i < buf.length := by rwa [hbuf, length_viewChunk]
  -- a chunk in the store under the content's digest is the content
  have hsame : ∀ h, h = L.blake3 buf → (chunks h).isSome → chunkByte chunks (some h) i = buf[i]? := by
    rintro h rfl hs
    obtain ⟨c, hc⟩ := Option.isSome_iff_exists.1 hs
    rw [chunkByte, hc, hinj (hvalid _ _ hc), Option.bind_some]
  have hzero : isAllZero buf = true → buf[i]? = some 0 := by
    intro hz
    rw [getElem?_eq_getElem hlen]
    simpa using all_eq_true.1 hz _ (getElem_mem hlen)
  rw [canonicalEntry] at hadm ⊢
  split_ifs at hadm ⊢ with hz hp hp
  · exact (hzero hz).symm
  · rw [Option.none_or, Option.not_isSome_iff_eq_none.1 hp]
    exact (hzero hz).symm
  · rw [Option.none_or, hp]
    obtain ⟨m, hm, hh⟩ := parentChunk?_mem hp
    exact hsame _ rfl (hr m hm _ hh)
  · exact hsame _ rfl (hadm _ rfl _ rfl)

namespace SealResult
variable {n n' : Node Hash} {top : Path} {chain shared : List (Manifest Hash)}
  {mergeWith : Option (Manifest Hash)} {R cs : ℕ} {f : SparseFile} {touched : List ℕ}
  {m : Manifest Hash} (hinj : Function.Injective L.blake3) (hvalid : ChunksValid L n.chunks)
  (hr : Readable n.chunks chain) (hres : SealResult L n n' top chain shared mergeWith R cs f touched m)

include hres in
theorem entryAt (hsorted : ∀ s ∈ mergeWith, Sorted Entry.offset s.entries) (k : ℕ) :
    m.entryAt k =
      if k ∈ touched.map (· * cs) then
        entryOf L shared (overlay f (chainView n.chunks chain cs)) R cs k
      else mergeWith.bind (·.entryAt k) := by
  rw [hres.manifest]
  exact sealedManifest_entryAt hres.pos hres.sorted hsorted k

include hres in
theorem shared_subset : ∀ m ∈ shared, m ∈ chain := by
  rcases hres.merge with ⟨-, rfl⟩ | ⟨s, last, -, rfl, -⟩
  · exact fun m hm => hm
  · exact fun m hm => mem_append_left _ hm

include hres in
theorem chain_eq (hmerge : mergeWith = none ∨ mergeWith = chain.getLast?) :
    sharedPrefix chain mergeWith = shared ∧ ∀ s ∈ mergeWith, chain = shared ++ [s] := by
  rcases hres.merge with ⟨rfl, rfl⟩ | ⟨s, last, rfl, hchain, -⟩
  · exact ⟨rfl, by simp⟩
  · have hlast : some s = chain.getLast? := hmerge.resolve_left (by simp)
    rw [hchain, getLast?_concat, Option.some.injEq] at hlast
    subst hlast
    refine ⟨by simp [sharedPrefix, hchain], fun s' hs' => ?_⟩
    cases hs'
    exact hchain

include hinj hvalid hr hres

theorem view (hlast : ∀ s ∈ mergeWith, chain = shared ++ [s])
    (hsorted : ∀ s ∈ mergeWith, Sorted Entry.offset s.entries) {p : ℕ} (hp : p < R) :
    chainView n'.chunks (shared ++ [m]) cs p = overlay f (chainView n.chunks chain cs) p := by
  have hpos := hres.pos
  have hmod : p % cs < cs := Nat.mod_lt p hpos
  have hpeq : p / cs * cs + p % cs = p := by
    rw [mul_comm]
    exact Nat.div_add_mod p cs
  rw [chainView, resolveParent_concat, hres.entryAt hsorted]
  by_cases hin : p / cs ∈ touched
  · rw [if_pos (mem_map.2 ⟨_, hin, rfl⟩), entryOf_reads hinj (hres.grows.valid hvalid)
      (fun m' hm' => hres.grows.readable hr m' (hres.shared_subset m' hm')) (hres.whole _ hin), hpeq]
    · intro e he h hh
      refine hres.admitted e ?_ h hh
      rw [changedEntries_eq]
      exact mem_filterMap.2 ⟨_, mem_map.2 ⟨_, hin, rfl⟩, he⟩
    · rw [chunkLenAt]
      omega
  · -- the top has nothing of the chunk, and the layer has there what the merged one had
    have hnot : p / cs * cs ∉ touched.map (· * cs) := by
      intro hmem
      obtain ⟨ci, hci, heq⟩ := mem_map.1 hmem
      exact hin (Nat.eq_of_mul_eq_mul_right hpos heq ▸ hci)
    have hhole : f.isData p = false := by
      by_contra hd
      exact hin ((hres.touched_iff _).2 ⟨p, hp, by simpa using hd, rfl⟩)
    have hchain : (mergeWith.bind (·.entryAt (p / cs * cs))).or (resolveParent shared (p / cs * cs)) =
        resolveParent chain (p / cs * cs) := by
      rcases hres.merge with ⟨rfl, rfl⟩ | ⟨s, last, rfl, -⟩
      · rfl
      · rw [hlast s rfl, resolveParent_concat]
        rfl
    rw [if_neg hnot, hchain, overlay, if_neg (by simp [hhole]), ← chainView_kept hres.grows.chunks hr cs]
    rfl

end SealResult

end FeOS
