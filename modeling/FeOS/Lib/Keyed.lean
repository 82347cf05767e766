import Mathlib.Data.List.Sort
import Mathlib.Tactic

/-! Lists as tables: each item has a key, no key stands twice, and a lookup is the first item
with the key. The order of the items matters to no lookup, and an ordered table is given by
its lookups. -/

namespace Keyed

open List

section Look
variable {α κ : Type} [DecidableEq κ] (key : α → κ)

/-- The item at a key. -/
def look (l : List α) (k : κ) : Option α := l.find? fun a => key a = k

variable {key}

variable {l : List α} {k : κ}

theorem look_key {a : α} (h : look key l k = some a) : key a = k := by
  simpa using find?_some h

theorem look_mem {a : α} (h : look key l k = some a) : a ∈ l :=
  mem_of_find?_eq_some h

theorem look_eq_none : look key l k = none ↔ ∀ a ∈ l, key a ≠ k := by
  simp [look]

theorem look_eq_some (hl : (l.map key).Nodup) {a : α} :
    look key l k = some a ↔ a ∈ l ∧ key a = k := by
  constructor
  · intro h
    exact ⟨look_mem h, look_key h⟩
  · rintro ⟨ha, rfl⟩
    cases hb : look key l (key a) with
    | none => exact absurd rfl (look_eq_none.1 hb a ha)
    | some b => rw [inj_on_of_nodup_map hl (look_mem hb) ha (look_key hb)]

theorem look_append (l l' : List α) (k : κ) :
    look key (l ++ l') k = (look key l k).or (look key l' k) := find?_append

theorem look_filter (q : κ → Bool) (l : List α) (k : κ) :
    look key (l.filter fun a => q (key a)) k = if q k = true then look key l k else none := by
  rw [look, look, find?_filter]
  split_ifs with hk
  · congr 1
    funext a
    by_cases ha : key a = k <;> simp [ha, hk]
  · rw [find?_eq_none]
    rintro a - ha
    simp only [decide_eq_true_eq] at ha
    exact hk (ha.2 ▸ ha.1)

theorem look_perm {l' : List α} (hl : (l.map key).Nodup) (hp : l.Perm l') (k : κ) :
    look key l k = look key l' k := by
  have hl' : (l'.map key).Nodup := (hp.map key).nodup_iff.1 hl
  apply Option.ext
  intro a
  rw [look_eq_some hl, look_eq_some hl', hp.mem_iff]

end Look

variable {α κ : Type} [LinearOrder κ] (key : α → κ)

/-- Strictly increasing keys. -/
def Sorted (l : List α) : Prop := l.Pairwise fun a b => key a < key b

instance (l : List α) : Decidable (Sorted key l) :=
  inferInstanceAs (Decidable (l.Pairwise fun a b => key a < key b))

variable {key}

theorem Sorted.nodup {l : List α} (h : Sorted key l) : (l.map key).Nodup := by
  rw [List.Nodup, pairwise_map]
  exact h.imp ne_of_lt

/-- Two ordered tables with the same lookups are one table. -/
theorem Sorted.eq_of_look {l l' : List α} (hl : Sorted key l) (hl' : Sorted key l')
    (h : ∀ k, look key l k = look key l' k) : l = l' := by
  have hm : ∀ a, a ∈ l ↔ a ∈ l' := fun a => by
    have := h (key a)
    constructor
    · intro ha
      exact look_mem (this ▸ (look_eq_some hl.nodup).2 ⟨ha, rfl⟩)
    · intro ha
      exact look_mem (this.symm ▸ (look_eq_some hl'.nodup).2 ⟨ha, rfl⟩)
  have hp : l.Perm l' :=
    (perm_ext_iff_of_nodup hl.nodup.of_map hl'.nodup.of_map).2 hm
  exact hp.eq_of_pairwise (fun a b _ _ hab hba => absurd hab (not_lt_of_gt hba)) hl hl'

/-- Sorting a table by its keys orders it strictly. -/
theorem sorted_insertionSort {l : List α} (hl : (l.map key).Nodup) :
    Sorted key (l.insertionSort fun a b => key a ≤ key b) := by
  have hp := perm_insertionSort (fun a b => key a ≤ key b) l
  have hn : ((l.insertionSort fun a b => key a ≤ key b).map key).Nodup :=
    (hp.map key).nodup_iff.2 hl
  rw [List.Nodup, pairwise_map] at hn
  have hs : (l.insertionSort fun a b => key a ≤ key b).Pairwise fun a b => key a ≤ key b :=
    haveI : Std.Total (fun a b => key a ≤ key b) := ⟨fun a b => le_total _ _⟩
    haveI : IsTrans α (fun a b => key a ≤ key b) := ⟨fun a b c => le_trans⟩
    pairwise_insertionSort _ l
  exact (hs.and hn).imp fun h => lt_of_le_of_ne h.1 h.2

section FromKeys
variable {ks : List κ} {g : κ → Option α} (hg : ∀ k a, g k = some a → key a = k)
include hg

/-- A table made key by key is looked up as it was made. -/
theorem look_filterMap (k : κ) :
    look key (ks.filterMap g) k = if k ∈ ks then g k else none := by
  induction ks with
  | nil => rfl
  | cons k' ks ih =>
    have hcons : look key ((k' :: ks).filterMap g) k =
        if k' = k then (g k).or (look key (ks.filterMap g) k) else look key (ks.filterMap g) k := by
      cases hk : g k' with
      | none =>
        rw [filterMap_cons_none hk]
        split_ifs with heq
        · rw [← heq, hk, Option.none_or]
        · rfl
      | some a =>
        rw [filterMap_cons_some hk, look, find?_cons]
        by_cases heq : k' = k
        · subst heq
          simp [hg k' a hk, hk]
        · simp [hg k' a hk, heq, look]
    rw [hcons, ih]
    by_cases heq : k' = k
    · subst heq
      cases g k' <;> simp
    · simp [heq, Ne.symm heq]

theorem sorted_filterMap (hks : ks.Pairwise (· < ·)) : Sorted key (ks.filterMap g) := by
  rw [Sorted, pairwise_filterMap]
  refine hks.imp fun hlt a ha b hb => ?_
  rwa [hg _ _ ha, hg _ _ hb]

end FromKeys

/-! Maps -/

/-- A map with keys in order. -/
structure Table (κ V : Type) [LinearOrder κ] where
  items : List (κ × V)
  sorted : Sorted Prod.fst items
  deriving DecidableEq

namespace Table

variable {κ V W : Type} [LinearOrder κ]

def empty : Table κ V := ⟨[], List.Pairwise.nil⟩

def get (t : Table κ V) (k : κ) : Option V := (look Prod.fst t.items k).map Prod.snd

def keys (t : Table κ V) : List κ := t.items.map Prod.fst

variable {t : Table κ V} {k : κ} {v : V} {q : κ × V}

theorem get_eq_some : t.get k = some v ↔ (k, v) ∈ t.items := by
  rw [get, Option.map_eq_some_iff]
  constructor
  · rintro ⟨⟨k', v'⟩, hlook, rfl⟩
    obtain ⟨hmem, rfl⟩ := (look_eq_some t.sorted.nodup).1 hlook
    exact hmem
  · intro hmem
    exact ⟨(k, v), (look_eq_some t.sorted.nodup).2 ⟨hmem, rfl⟩, rfl⟩

/-- The map of what a function makes of each value. -/
def map (f : V → W) (t : Table κ V) : Table κ W where
  items := t.items.map fun p => (p.1, f p.2)
  sorted := by
    rw [Sorted, pairwise_map]
    exact t.sorted

theorem mem_map_items {f : V → W} {w : W} :
    (k, w) ∈ (t.map f).items ↔ ∃ v, (k, v) ∈ t.items ∧ f v = w := by
  simp [map]

@[simp] theorem keys_map (f : V → W) (t : Table κ V) : (t.map f).keys = t.keys := by
  simp [keys, map, Function.comp_def]

/-- The part of a map whose values pass. -/
def filter (q : V → Bool) (t : Table κ V) : Table κ V where
  items := t.items.filter fun p => q p.2
  sorted := t.sorted.sublist filter_sublist

/-- A key's value put in its place, over the one that is there. -/
def insertItems (k : κ) (v : V) : List (κ × V) → List (κ × V)
  | [] => [(k, v)]
  | p :: ps => if k < p.1 then (k, v) :: p :: ps else if k = p.1 then (k, v) :: ps else p :: insertItems k v ps

theorem mem_insertItems {l : List (κ × V)} (hl : Sorted Prod.fst l) :
    q ∈ insertItems k v l ↔ q = (k, v) ∨ q ∈ l ∧ q.1 ≠ k := by
  induction l with
  | nil => simp [insertItems]
  | cons p ps ih =>
    obtain ⟨hfirst, hps⟩ := pairwise_cons.1 hl
    rw [insertItems]
    split_ifs with hlt heq
    · have hne : ∀ q ∈ p :: ps, q.1 ≠ k := by
        rintro q (_ | ⟨_, hq⟩)
        · exact hlt.ne'
        · exact (hlt.trans (hfirst q hq)).ne'
      rw [mem_cons]
      exact or_congr_right ⟨fun hq => ⟨hq, hne q hq⟩, And.left⟩
    · have hne : ∀ q ∈ ps, q.1 ≠ k := fun q hq => heq ▸ (hfirst q hq).ne'
      rw [mem_cons, mem_cons]
      refine or_congr_right ⟨fun hq => ⟨.inr hq, hne q hq⟩, ?_⟩
      rintro ⟨rfl | hq, hqk⟩
      · exact absurd heq.symm hqk
      · exact hq
    · rw [mem_cons, mem_cons, ih hps]
      constructor
      · rintro (rfl | rfl | ⟨hq, hqk⟩)
        · exact .inr ⟨.inl rfl, fun h => heq h.symm⟩
        · exact .inl rfl
        · exact .inr ⟨.inr hq, hqk⟩
      · rintro (rfl | ⟨rfl | hq, hqk⟩)
        · exact .inr (.inl rfl)
        · exact .inl rfl
        · exact .inr (.inr ⟨hq, hqk⟩)

theorem sorted_insertItems {l : List (κ × V)} (hl : Sorted Prod.fst l) :
    Sorted Prod.fst (insertItems k v l) := by
  induction l with
  | nil => exact pairwise_singleton _ _
  | cons p ps ih =>
    obtain ⟨hfirst, hps⟩ := pairwise_cons.1 hl
    rw [insertItems]
    split_ifs with hlt heq
    · refine pairwise_cons.2 ⟨?_, hl⟩
      rintro q (_ | ⟨_, hq⟩)
      · exact hlt
      · exact hlt.trans (hfirst q hq)
    · exact pairwise_cons.2 ⟨fun q hq => heq ▸ hfirst q hq, hps⟩
    · refine pairwise_cons.2 ⟨fun q hq => ?_, ih hps⟩
      rcases (mem_insertItems hps).1 hq with rfl | ⟨hq, -⟩
      · exact lt_of_le_of_ne (not_lt.1 hlt) (Ne.symm heq)
      · exact hfirst q hq

def insert (t : Table κ V) (k : κ) (v : V) : Table κ V := ⟨insertItems k v t.items, sorted_insertItems t.sorted⟩

theorem mem_insert_items :
    q ∈ (t.insert k v).items ↔ q = (k, v) ∨ q ∈ t.items ∧ q.1 ≠ k := mem_insertItems t.sorted

/-- The value is put in only where there is none. -/
def orInsert (t : Table κ V) (k : κ) (v : V) : Table κ V := if (t.get k).isSome then t else t.insert k v

theorem of_mem_orInsert_items (h : q ∈ (t.orInsert k v).items) :
    q = (k, v) ∨ q ∈ t.items := by
  rw [orInsert] at h
  split_ifs at h
  · exact .inr h
  · exact (mem_insert_items.1 h).imp_right And.left

end Table

end Keyed
