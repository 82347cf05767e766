import FeOS.Spec.Sweep

/-! What the keys of the object store tell, and which of the listed objects each pass of a sweep
deletes. -/

namespace FeOS

open List

section Keys

theorem stripPrefix_eq_some {pre s r : List Char} : stripPrefix pre s = some r ↔ s = pre ++ r := by
  unfold stripPrefix
  split_ifs with h
  · rw [List.isPrefixOf_iff_prefix] at h
    obtain ⟨r', rfl⟩ := h
    simp
  · refine ⟨nofun, fun h' => absurd ?_ h⟩
    rw [List.isPrefixOf_iff_prefix, h']
    exact prefix_append pre r

theorem stripSuffix_eq_some {suf s r : List Char} : stripSuffix suf s = some r ↔ s = r ++ suf := by
  unfold stripSuffix
  split_ifs with h
  · rw [isSuffixOf_iff_suffix] at h
    obtain ⟨r', rfl⟩ := h
    simp
  · refine ⟨nofun, fun h' => absurd ?_ h⟩
    rw [isSuffixOf_iff_suffix, h']
    exact suffix_append r suf

variable {c : Char} {key : String}

theorem splitOnce_eq_some : ∀ {s l r : List Char}, splitOnce c s = some (l, r) ↔ s = l ++ c :: r ∧ c ∉ l
  | [], l, r => by simp [splitOnce]
  | a :: s, l, r => by
    unfold splitOnce
    split_ifs with h
    · subst h
      cases l with
      | nil => simp
      | cons b l =>
        simp only [Option.some.injEq, Prod.mk.injEq, nil_eq, reduceCtorEq, false_and, cons_append,
          cons.injEq, mem_cons, not_or, false_iff]
        rintro ⟨⟨rfl, -⟩, hne, -⟩
        exact hne rfl
    · rw [Option.map_eq_some_iff]
      constructor
      · rintro ⟨⟨l', r'⟩, hs, heq⟩
        obtain ⟨rfl, rfl⟩ := Prod.mk.inj heq
        obtain ⟨rfl, hc⟩ := splitOnce_eq_some.1 hs
        exact ⟨rfl, by simp [Ne.symm h, hc]⟩
      · rintro ⟨hs, hc⟩
        cases l with
        | nil =>
          obtain ⟨rfl, -⟩ := cons.inj hs
          exact absurd rfl h
        | cons b l =>
          obtain ⟨rfl, rfl⟩ := cons.inj hs
          exact ⟨(l, r), splitOnce_eq_some.2 ⟨rfl, fun hm => hc (mem_cons_of_mem _ hm)⟩, rfl⟩

theorem splitSnapshotKey_eq_some {e f : List Char} (h : splitSnapshotKey key = some (e, f)) :
    key.toList = "snapshots/".toList ++ e ++ '/' :: f := by
  simp only [splitSnapshotKey, Option.bind_eq_bind, Option.bind_eq_some_iff] at h
  obtain ⟨rest, hrest, ⟨id, rest2⟩, hid, ⟨epoch, file⟩, hepoch, hif⟩ := h
  obtain ⟨rfl, -⟩ := splitOnce_eq_some.1 hid
  obtain ⟨hrest2, -⟩ := splitOnce_eq_some.1 hepoch
  split_ifs at hif
  cases hif
  rw [stripPrefix_eq_some.1 hrest, show rest2 = epoch ++ '/' :: file from hrest2]
  simp

variable {x : List Char × List Char} {id hex : String}

theorem splitSnapshotKey_inj {key' : String}
    (h : splitSnapshotKey key = some x) (h' : splitSnapshotKey key' = some x) : key = key' := by
  apply String.toList_injective
  rw [splitSnapshotKey_eq_some h, splitSnapshotKey_eq_some h']

theorem splitAll_ne_nil : ∀ s : List Char, splitAll c s ≠ []
  | [] => nofun
  | a :: s => by
    rw [splitAll]
    split_ifs
    · nofun
    · split <;> nofun

theorem splitOnce_of_splitAll : ∀ {s p q : List Char} {ps : List (List Char)},
    splitAll c s = p :: q :: ps → ∃ r, splitOnce c s = some (p, r) ∧ splitAll c r = q :: ps
  | [], p, q, ps, h => by cases h
  | a :: s, p, q, ps, h => by
    rw [splitAll] at h
    rw [splitOnce]
    split_ifs at h ⊢ with hc
    · obtain ⟨rfl, hs⟩ := cons.inj h
      exact ⟨s, rfl, hs⟩
    · split at h
      · rename_i hs
        exact absurd hs (splitAll_ne_nil s)
      · rename_i p' ps' hs
        obtain ⟨rfl, rfl⟩ := cons.inj h
        obtain ⟨r, hr, hrest⟩ := splitOnce_of_splitAll hs
        exact ⟨r, by rw [hr]; rfl, hrest⟩

theorem eq_of_splitAll : ∀ {s p : List Char}, splitAll c s = [p] → s = p
  | [], p, h => singleton_inj.1 h
  | a :: s, p, h => by
    rw [splitAll] at h
    split_ifs at h
    · exact absurd (cons.inj h).2 (splitAll_ne_nil s)
    · split at h
      · rename_i hs
        exact absurd hs (splitAll_ne_nil s)
      · rename_i p' ps' hs
        obtain ⟨rfl, rfl⟩ := cons.inj h
        rw [eq_of_splitAll hs]

theorem splitSnapshotKey_of_isHeadKey (h : isHeadKey key = true) :
    ∃ e, splitSnapshotKey key = some (e, "head.json".toList) := by
  unfold isHeadKey at h
  cases hrest : stripPrefix "snapshots/".toList key.toList with
  | none =>
    rw [hrest] at h
    cases h
  | some rest =>
  rw [hrest] at h
  dsimp only at h
  split at h
  · rename_i id epoch file hparts
    simp only [Bool.and_eq_true, Bool.not_eq_true', decide_eq_true_eq] at h
    obtain ⟨⟨⟨hid, hepoch⟩, -⟩, hfile⟩ := h
    have hne : file.isEmpty = false := by rw [hfile]; rfl
    obtain ⟨r, hsplit, hr⟩ := splitOnce_of_splitAll hparts
    obtain ⟨r', hsplit', hr'⟩ := splitOnce_of_splitAll hr
    rw [eq_of_splitAll hr'] at hsplit'
    rw [← hfile]
    refine ⟨id ++ '/' :: epoch, ?_⟩
    simp only [splitSnapshotKey, hrest, hsplit, hsplit', Option.bind_eq_bind, Option.bind_some, hid, hepoch, hne]
    rfl
  · cases h

theorem layerIdOfKey_eq_some : layerIdOfKey key = some id ↔ key = layerKey id := by
  simp only [layerIdOfKey, Option.bind_eq_bind, Option.bind_eq_some_iff, stripPrefix_eq_some,
    stripSuffix_eq_some, Option.some.injEq]
  constructor
  · rintro ⟨rest, hrest, l, rfl, rfl⟩
    apply String.toList_injective
    rw [hrest]
    simp [layerKey]
  · rintro rfl
    exact ⟨id.toList ++ ".manifest".toList, by simp [layerKey], id.toList, rfl, by simp⟩

theorem layerKey_inj {id' : String} (h : layerKey id = layerKey id') : id = id' := by
  have h1 := layerIdOfKey_eq_some.2 h
  rw [layerIdOfKey_eq_some.2 rfl] at h1
  exact Option.some.inj h1

theorem hexDigits_ascii : ∀ c ∈ hexDigits, c ≠ '/' ∧ c.utf8Size = 1 ∧ c.toLower = c := by
  have h : (hexDigits.all fun c => c ≠ '/' && c.utf8Size = 1 && c.toLower = c) = true := by decide
  intro c hc
  have hall := all_eq_true.1 h c hc
  simpa [and_assoc] using hall

theorem Digest.length_hex (d : Digest) : d.hex.toList.length = 64 := by
  have h := d.valid
  simp only [isDigestHex, Bool.and_eq_true, decide_eq_true_eq] at h
  exact h.1

theorem Digest.mem_hex (d : Digest) (hc : c ∈ d.hex.toList) : c ∈ hexDigits := by
  have h := d.valid
  simp only [isDigestHex, Bool.and_eq_true, all_eq_true, decide_eq_true_eq] at h
  exact h.2 c hc

theorem Digest.fromHex_hex (d : Digest) : Digest.fromHex d.hex = some d := by
  have hlower : d.hex.toList.map Char.toLower = d.hex.toList := by
    refine (map_congr_left fun c hc => ?_).trans (map_id _)
    exact (hexDigits_ascii c (d.mem_hex hc)).2.2
  have hvalid := d.valid
  simp only [fromHex, hlower, String.ofList_toList, hvalid, dif_pos]

theorem Digest.hex_inj {d d' : Digest} (h : d.hex = d'.hex) : d = d' := by
  cases d
  cases d'
  cases h
  rfl

theorem utf8Len_ascii : ∀ {s : List Char}, (∀ c ∈ s, c.utf8Size = 1) → utf8Len s = s.length
  | [], _ => rfl
  | a :: s, h => by
    have ih := utf8Len_ascii fun c hc => h c (mem_cons_of_mem _ hc)
    rw [utf8Len] at ih ⊢
    rw [map_cons, sum_cons, ih, h a mem_cons_self, length_cons, add_comm]

theorem toList_chunkKey (h : Digest) : (chunkKey h).toList =
    "chunks/".toList ++ (h.hex.toList.take 2 ++ '/' :: (h.hex.toList ++ ".zst".toList)) := by
  unfold chunkKey
  rw [String.toList_ofList, append_assoc, append_assoc, cons_append]

theorem chunkHexOfKey_chunkKey (h : Digest) : chunkHexOfKey (chunkKey h) = some h.hex := by
  have hslash : '/' ∉ h.hex.toList.take 2 := fun hc =>
    (hexDigits_ascii '/' (h.mem_hex (mem_of_mem_take hc))).1 rfl
  have hlen : utf8Len h.hex.toList = 64 := by
    rw [utf8Len_ascii fun c hc => (hexDigits_ascii c (h.mem_hex hc)).2.1, h.length_hex]
  have hrest : stripPrefix "chunks/".toList (chunkKey h).toList =
      some (h.hex.toList.take 2 ++ '/' :: (h.hex.toList ++ ".zst".toList)) :=
    stripPrefix_eq_some.2 (toList_chunkKey h)
  have hsplit := (splitOnce_eq_some (c := '/')).2
    ⟨(rfl : h.hex.toList.take 2 ++ '/' :: (h.hex.toList ++ ".zst".toList) = _), hslash⟩
  have hhex : stripSuffix ".zst".toList (h.hex.toList ++ ".zst".toList) = some h.hex.toList :=
    stripSuffix_eq_some.2 rfl
  have hpre : (h.hex.toList.take 2).isPrefixOf h.hex.toList = true := by
    rw [List.isPrefixOf_iff_prefix]
    exact take_prefix _ _
  simp only [chunkHexOfKey, hrest, hsplit, hhex, hlen, hpre, Option.bind_eq_bind, Option.bind_some]
  simp

/-! A key is of one kind, which its first letter tells. -/

theorem splitSnapshotKey_head (h : splitSnapshotKey key = some x) :
    key.toList.head? = some 's' := by
  rw [splitSnapshotKey_eq_some (e := x.1) (f := x.2) h]
  rfl

theorem layerKey_head (id : String) : (layerKey id).toList.head? = some 'l' := by
  rw [layerKey, String.toList_append, String.toList_append]
  rfl

theorem chunkHexOfKey_head (h : chunkHexOfKey key = some hex) :
    key.toList.head? = some 'c' := by
  simp only [chunkHexOfKey, Option.bind_eq_bind, Option.bind_eq_some_iff] at h
  obtain ⟨rest, hrest, -⟩ := h
  rw [stripPrefix_eq_some.1 hrest]
  rfl

theorem splitSnapshotKey_layerKey (id : String) : splitSnapshotKey (layerKey id) = none := by
  cases h : splitSnapshotKey (layerKey id) with
  | none => rfl
  | some x =>
    have hhead := splitSnapshotKey_head h
    rw [layerKey_head] at hhead
    exact absurd hhead (by decide)

theorem chunkHexOfKey_layerKey (id : String) : chunkHexOfKey (layerKey id) = none := by
  cases h : chunkHexOfKey (layerKey id) with
  | none => rfl
  | some hex =>
    have hhead := chunkHexOfKey_head h
    rw [layerKey_head] at hhead
    exact absurd hhead (by decide)

theorem chunkKey_ne_layerKey (c : Digest) (id : String) : chunkKey c ≠ layerKey id := by
  intro h
  have hc := chunkHexOfKey_chunkKey c
  simp [h, chunkHexOfKey_layerKey] at hc

theorem splitSnapshotKey_of_chunk (h : chunkHexOfKey key = some hex) :
    splitSnapshotKey key = none := by
  cases hs : splitSnapshotKey key with
  | none => rfl
  | some x =>
    have hhead := splitSnapshotKey_head hs
    rw [chunkHexOfKey_head h] at hhead
    exact absurd hhead (by decide)

end Keys

section Plans
variable {objects : List RemoteObject} {live named : List String} {now grace : ℤ}

variable {key : String} {e : List Char}

@[simp] theorem mem_sortKeys {keys : List String} : key ∈ sortKeys keys ↔ key ∈ keys := by
  rw [sortKeys, mem_insertionSort]

variable {o : RemoteObject}

theorem mem_epochGroup :
    o ∈ epochGroup objects e ↔ o ∈ objects ∧ ∃ f, splitSnapshotKey o.key = some (e, f) := by
  simp [epochGroup]

theorem epochHead_some {h : RemoteObject} (hh : epochHead (epochGroup objects e) = some h) :
    h ∈ objects ∧ splitSnapshotKey h.key = some (e, "head.json".toList) := by
  obtain ⟨ho, f, hf⟩ := mem_epochGroup.1 (mem_of_find?_eq_some hh)
  have hfile := find?_some hh
  rw [hf, decide_eq_true_eq] at hfile
  obtain rfl : f = "head.json".toList := Option.some.inj hfile
  exact ⟨ho, hf⟩

theorem epochHead_eq (ho : o ∈ objects) (hs : splitSnapshotKey o.key = some (e, "head.json".toList)) :
    ∃ h, epochHead (epochGroup objects e) = some h ∧ h.key = o.key := by
  have hsome : (epochHead (epochGroup objects e)).isSome := by
    rw [epochHead, find?_isSome]
    exact ⟨o, mem_epochGroup.2 ⟨ho, _, hs⟩, by simp [hs]⟩
  obtain ⟨h, hh⟩ := Option.isSome_iff_exists.1 hsome
  exact ⟨h, hh, splitSnapshotKey_inj (epochHead_some hh).2 hs⟩

theorem epochDead_iff : epochDead live now grace (epochGroup objects e) = true ↔
    (∀ o ∈ objects, splitSnapshotKey o.key = some (e, "head.json".toList) → o.key ∉ live) ∧
      ∀ o ∈ objects, ∀ f, splitSnapshotKey o.key = some (e, f) → tooYoung o now grace = false := by
  unfold epochDead
  rw [Bool.and_eq_true, Bool.not_eq_true', Bool.not_eq_true']
  refine and_congr ?_ ?_
  · constructor
    · intro h o ho hs hlive
      obtain ⟨hd, hhd, hkey⟩ := epochHead_eq ho hs
      simp [hhd, hkey, hlive] at h
    · intro h
      cases hhd : epochHead (epochGroup objects e) with
      | none => rfl
      | some hd =>
        obtain ⟨ho, hs⟩ := epochHead_some hhd
        simpa using h hd ho hs
  · rw [any_eq_false]
    constructor
    · intro h o ho f hs
      simpa using h o (mem_epochGroup.2 ⟨ho, f, hs⟩)
    · intro h o ho
      obtain ⟨ho, f, hs⟩ := mem_epochGroup.1 ho
      simp [h o ho f hs]

theorem mem_byEpoch {group : List RemoteObject} : group ∈ byEpoch objects ↔
    ∃ e, group = epochGroup objects e ∧ ∃ o ∈ objects, ∃ f, splitSnapshotKey o.key = some (e, f) := by
  unfold byEpoch
  rw [mem_map]
  constructor
  · rintro ⟨e, he, rfl⟩
    rw [mem_dedup, mem_filterMap] at he
    obtain ⟨o, ho, hfst⟩ := he
    obtain ⟨⟨e', f⟩, hs, rfl⟩ := Option.map_eq_some_iff.1 hfst
    exact ⟨e', rfl, o, ho, f, hs⟩
  · rintro ⟨e, rfl, o, ho, f, hs⟩
    refine ⟨e, ?_, rfl⟩
    rw [mem_dedup, mem_filterMap]
    exact ⟨o, ho, by rw [hs]; rfl⟩

theorem mem_deadSnapshotKeys :
    key ∈ (planSnapshots objects live now grace).deadSnapshotKeys ↔
      ∃ o ∈ objects, o.key = key ∧ ∃ e f, splitSnapshotKey key = some (e, f) ∧
        epochDead live now grace (epochGroup objects e) = true := by
  unfold planSnapshots
  simp only [mem_sortKeys, mem_map, mem_flatten, mem_filter]
  constructor
  · rintro ⟨o, ⟨group, ⟨hgroup, hdead⟩, ho⟩, rfl⟩
    obtain ⟨e, rfl, -⟩ := mem_byEpoch.1 hgroup
    obtain ⟨ho, f, hs⟩ := mem_epochGroup.1 ho
    exact ⟨o, ho, rfl, e, f, hs, hdead⟩
  · rintro ⟨o, ho, rfl, e, f, hs, hdead⟩
    exact ⟨o, ⟨_, ⟨mem_byEpoch.2 ⟨e, rfl, o, ho, f, hs⟩, hdead⟩, mem_epochGroup.2 ⟨ho, f, hs⟩⟩, rfl⟩

theorem mem_liveHeadKeys : key ∈ (planSnapshots objects live now grace).liveHeadKeys ↔
    ∃ o ∈ objects, o.key = key ∧ ∃ e, splitSnapshotKey key = some (e, "head.json".toList) ∧
      epochDead live now grace (epochGroup objects e) = false := by
  unfold planSnapshots
  simp only [mem_sortKeys, mem_filterMap, mem_filter, Bool.not_eq_true']
  constructor
  · rintro ⟨group, ⟨hgroup, hdead⟩, hkey⟩
    obtain ⟨e, rfl, -⟩ := mem_byEpoch.1 hgroup
    obtain ⟨h, hh, rfl⟩ := Option.map_eq_some_iff.1 hkey
    obtain ⟨ho, hs⟩ := epochHead_some hh
    exact ⟨h, ho, rfl, e, hs, hdead⟩
  · rintro ⟨o, ho, rfl, e, hs, hdead⟩
    obtain ⟨h, hh, hkey⟩ := epochHead_eq ho hs
    exact ⟨_, ⟨mem_byEpoch.2 ⟨e, rfl, o, ho, _, hs⟩, hdead⟩, by rw [hh, Option.map_some, hkey]⟩

theorem mem_planUnnamed {idOf : String → Option String} :
    key ∈ (planUnnamed idOf objects named now grace).1 ↔
      ∃ o ∈ objects, o.key = key ∧ ∃ id, idOf key = some id ∧ id ∉ named ∧ tooYoung o now grace = false := by
  unfold planUnnamed
  simp only [mem_sortKeys, mem_map, mem_filter]
  constructor
  · rintro ⟨o, ⟨ho, hid⟩, rfl⟩
    obtain ⟨id, hid, hdead⟩ := (Option.any_eq_true _ _).1 hid
    simp only [Bool.not_eq_true', Bool.or_eq_false_iff, decide_eq_false_iff_not] at hdead
    exact ⟨o, ho, rfl, id, hid, hdead⟩
  · rintro ⟨o, ho, rfl, id, hid, hnamed, hyoung⟩
    exact ⟨o, ⟨ho, by simp [hid, hnamed, hyoung]⟩, rfl⟩

end Plans

end FeOS
