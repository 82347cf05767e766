import Mathlib.Data.List.TakeWhile
import FeOS.Lib.Keyed

/-! A map that keeps its keys in an order, oldest first, as a linked hash map does. -/

namespace Linked

open List Keyed

structure LinkedMap (κ ν : Type) where
  entries : List (κ × ν)
  nodup : (entries.map Prod.fst).Nodup

namespace LinkedMap

variable {κ ν : Type}

def empty : LinkedMap κ ν := ⟨[], nodup_nil⟩

def keys (m : LinkedMap κ ν) : List κ := m.entries.map Prod.fst

/-- The values of a map of numbers, in all. -/
def total (m : LinkedMap κ ℕ) : ℕ := (m.entries.map Prod.snd).sum

variable [DecidableEq κ]

def find (m : LinkedMap κ ν) (k : κ) : Option ν := (look Prod.fst m.entries k).map Prod.snd

def erase (m : LinkedMap κ ν) (k : κ) : LinkedMap κ ν where
  entries := m.entries.filter fun e => e.1 ≠ k
  nodup := m.nodup.sublist (filter_sublist.map _)

/-- The key comes last, also one that was there. -/
def insert (m : LinkedMap κ ν) (k : κ) (v : ν) : LinkedMap κ ν where
  entries := (m.erase k).entries ++ [(k, v)]
  nodup := by
    rw [map_append, nodup_append]
    refine ⟨(m.erase k).nodup, nodup_singleton _, ?_⟩
    intro a ha b hb hab
    obtain ⟨e, he, rfl⟩ := mem_map.1 ha
    have hne : e.1 ≠ k := of_decide_eq_true (mem_filter.1 he).2
    exact hne (hab.trans (mem_singleton.1 hb))

variable {m : LinkedMap κ ν} {k k' : κ} {v v' : ν}

theorem find_eq_some : m.find k = some v ↔ (k, v) ∈ m.entries := by
  unfold find
  rw [Option.map_eq_some_iff]
  constructor
  · rintro ⟨e, he, rfl⟩
    have := (look_eq_some m.nodup).1 he
    rw [← this.2]
    exact this.1
  · intro h
    exact ⟨(k, v), (look_eq_some m.nodup).2 ⟨h, rfl⟩, rfl⟩

theorem find_eq_none : m.find k = none ↔ k ∉ m.keys := by
  unfold find keys
  rw [Option.map_eq_none_iff, look_eq_none, mem_map]
  constructor
  · rintro h ⟨e, he, rfl⟩
    exact h e he rfl
  · rintro h e he rfl
    exact h ⟨e, he, rfl⟩

theorem mem_keys : k ∈ m.keys ↔ ∃ v, m.find k = some v := by
  rw [← Option.isSome_iff_exists, Option.isSome_iff_ne_none, ne_eq, find_eq_none, not_not]

theorem mem_keys_erase : k ∈ (m.erase k').keys ↔ k ∈ m.keys ∧ k ≠ k' := by
  unfold keys erase
  simp only [mem_map, mem_filter, decide_eq_true_eq]
  constructor
  · rintro ⟨e, ⟨he, hne⟩, rfl⟩
    exact ⟨⟨e, he, rfl⟩, hne⟩
  · rintro ⟨⟨e, he, rfl⟩, hne⟩
    exact ⟨e, ⟨he, hne⟩, rfl⟩

theorem mem_keys_insert : k ∈ (m.insert k' v).keys ↔ k ∈ m.keys ∨ k = k' := by
  have : (m.insert k' v).keys = (m.erase k').keys ++ [k'] := by
    simp [keys, insert]
  rw [this, mem_append, mem_keys_erase, mem_singleton]
  by_cases h : k = k' <;> simp [h]

theorem find_erase : (m.erase k').find k = if k = k' then none else m.find k := by
  have h : look Prod.fst (m.erase k').entries k = _ :=
    look_filter (fun key => decide (key ≠ k')) m.entries k
  unfold find
  rw [h]
  by_cases hk : k = k' <;> simp [hk]

theorem find_insert : (m.insert k' v).find k = if k = k' then some v else m.find k := by
  unfold insert find
  rw [look_append, Option.map_or]
  have h : (m.erase k').find k = _ := find_erase
  unfold find at h
  rw [h]
  by_cases hk : k = k'
  · subst hk
    simp [look]
  · simp [look, hk, Ne.symm hk]

theorem perm_filter : ∀ {l : List (κ × ν)}, (l.map Prod.fst).Nodup → (k, v) ∈ l →
    l.Perm ((k, v) :: l.filter fun e => e.1 ≠ k)
  | [], _, hmem => by cases hmem
  | e :: l, hnodup, hmem => by
    rw [map_cons, nodup_cons] at hnodup
    rcases mem_cons.1 hmem with rfl | hmem
    · rw [filter_cons_of_neg (by simp)]
      have hrest : l.filter (fun e => e.1 ≠ k) = l := by
        rw [filter_eq_self]
        intro e he
        refine decide_eq_true fun heq => hnodup.1 ?_
        exact mem_map.2 ⟨e, he, heq⟩
      rw [hrest]
    · have hne : e.1 ≠ k := fun heq => hnodup.1 (mem_map.2 ⟨(k, v), hmem, heq.symm⟩)
      rw [filter_cons_of_pos (by simpa using hne)]
      exact ((perm_filter hnodup.2 hmem).cons e).trans (List.Perm.swap _ _ _)

/-- An entry and the others. -/
theorem perm_erase (h : m.find k = some v) : m.entries.Perm ((k, v) :: (m.erase k).entries) :=
  perm_filter m.nodup (find_eq_some.1 h)

theorem erase_of_find (h : m.find k = none) : m.erase k = m := by
  obtain ⟨l, hl⟩ := m
  unfold erase
  congr 1
  rw [filter_eq_self]
  intro e he
  refine decide_eq_true ?_
  rintro rfl
  exact find_eq_none.1 h (mem_map_of_mem he)

theorem total_erase {m : LinkedMap κ ℕ} {n : ℕ} (h : m.find k = some n) : m.total = (m.erase k).total + n := by
  unfold total
  rw [((perm_erase h).map Prod.snd).sum_eq, map_cons, sum_cons, add_comm]

theorem le_total {m : LinkedMap κ ℕ} {n : ℕ} (h : m.find k = some n) : n ≤ m.total := by
  rw [total_erase h]
  exact Nat.le_add_left _ _

theorem total_insert {m : LinkedMap κ ℕ} {n : ℕ} : (m.insert k n).total = (m.erase k).total + n := by
  unfold total insert
  rw [map_append, sum_append]
  simp

theorem total_insert_of_find {m : LinkedMap κ ℕ} {n : ℕ} (h : m.find k = none) :
    (m.insert k n).total = m.total + n := by
  rw [total_insert, erase_of_find h]

end LinkedMap

end Linked
