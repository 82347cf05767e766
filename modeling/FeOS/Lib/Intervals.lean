import Mathlib.Data.List.Sort
import Mathlib.Tactic

/-! Lists of half-open intervals of naturals, and the merging of those that overlap. Two intervals that only touch
stay two. What is covered and what lies inside of an interval tell the merged list: an interval begins where it is
covered and not inside. -/

namespace Intervals

open List

variable {l l' : List (ℕ × ℕ)} {a b : ℕ × ℕ} {d i c : ℕ}

/-- Some interval holds the place. -/
def Covers (l : List (ℕ × ℕ)) (i : ℕ) : Prop := ∃ a ∈ l, a.1 ≤ i ∧ i < a.2

/-- Some interval holds the place and begins so far before it. -/
def Meets (d : ℕ) (l : List (ℕ × ℕ)) (i : ℕ) : Prop := ∃ a ∈ l, a.1 + d ≤ i ∧ i < a.2

instance (l : List (ℕ × ℕ)) (i : ℕ) : Decidable (Covers l i) := inferInstanceAs (Decidable (∃ a ∈ l, _))

instance (d : ℕ) (l : List (ℕ × ℕ)) (i : ℕ) : Decidable (Meets d l i) := inferInstanceAs (Decidable (∃ a ∈ l, _))

/-- The intervals are not empty, and each ends before the next begins. -/
structure Apart (l : List (ℕ × ℕ)) : Prop where
  lt : ∀ a ∈ l, a.1 < a.2
  le : l.Pairwise fun a b => a.2 ≤ b.1

theorem covers_iff_meets : Covers l i ↔ Meets 0 l i := Iff.rfl

theorem covers_cons : Covers (a :: l) i ↔ (a.1 ≤ i ∧ i < a.2) ∨ Covers l i := by simp [Covers]

theorem covers_append : Covers (l ++ l') i ↔ Covers l i ∨ Covers l' i := by simp [Covers, or_and_right, exists_or]

@[simp] theorem meets_nil : ¬ Meets d [] i := by simp [Meets]

@[simp] theorem meets_cons : Meets d (a :: l) i ↔ (a.1 + d ≤ i ∧ i < a.2) ∨ Meets d l i := by simp [Meets]

@[simp] theorem meets_append : Meets d (l ++ l') i ↔ Meets d l i ∨ Meets d l' i := by
  simp [Meets, or_and_right, exists_or]

theorem meets_flatMap {α : Type} {xs : List α} {f : α → List (ℕ × ℕ)} :
    Meets d (xs.flatMap f) i ↔ ∃ x ∈ xs, Meets d (f x) i := by
  simp only [Meets, mem_flatMap]
  grind

theorem meets_congr (h : ∀ a, a ∈ l ↔ a ∈ l') : Meets d l i ↔ Meets d l' i := by simp [Meets, h]

/-- The merging of intervals that come by their beginnings: `last` is the one that may still grow. -/
def mergeInto : ℕ × ℕ → List (ℕ × ℕ) → List (ℕ × ℕ)
  | last, [] => [last]
  | last, a :: l => if a.1 < last.2 then mergeInto (last.1, max last.2 a.2) l else last :: mergeInto a l

def merge : List (ℕ × ℕ) → List (ℕ × ℕ)
  | [] => []
  | a :: l => mergeInto a l

/-- The join of two intervals that overlap meets what they meet. -/
theorem mem_join (hd : d ≤ 1) (hle : a.1 ≤ b.1) (hlt : b.1 < a.2) :
    (a.1 + d ≤ i ∧ i < max a.2 b.2) ↔ (a.1 + d ≤ i ∧ i < a.2) ∨ (b.1 + d ≤ i ∧ i < b.2) := by omega

section
variable (h : (a :: l).Pairwise fun a b => a.1 ≤ b.1)
include h

theorem meets_mergeInto (hd : d ≤ 1) : Meets d (mergeInto a l) i ↔ Meets d (a :: l) i := by
  induction l generalizing a with
  | nil => rfl
  | cons b l ih =>
    obtain ⟨hfirst, hrest⟩ := pairwise_cons.1 h
    have hab := hfirst b mem_cons_self
    rw [mergeInto]
    split_ifs with hlt
    · have hjoin : ((a.1, max a.2 b.2) :: l).Pairwise fun a b => a.1 ≤ b.1 :=
        pairwise_cons.2 ⟨fun c hc => hfirst c (mem_cons_of_mem b hc), hrest.of_cons⟩
      rw [ih hjoin]
      simp only [meets_cons, mem_join hd hab hlt, or_assoc]
    · rw [meets_cons, ih hrest, ← meets_cons]

/-- What is merged begins no earlier than the first interval. -/
theorem fst_le_of_mem_mergeInto (hb : b ∈ mergeInto a l) : a.1 ≤ b.1 := by
  induction l generalizing a with
  | nil =>
    rw [mergeInto, mem_singleton] at hb
    rw [hb]
  | cons c l ih =>
    obtain ⟨hfirst, hrest⟩ := pairwise_cons.1 h
    rw [mergeInto] at hb
    split_ifs at hb with hlt
    · have hjoin : ((a.1, max a.2 c.2) :: l).Pairwise fun a b => a.1 ≤ b.1 :=
        pairwise_cons.2 ⟨fun d hd => hfirst d (mem_cons_of_mem c hd), hrest.of_cons⟩
      have hle : (a.1, max a.2 c.2).1 ≤ b.1 := ih hjoin hb
      exact hle
    · rcases mem_cons.1 hb with rfl | hb
      · exact le_rfl
      · exact (hfirst c mem_cons_self).trans (ih hrest hb)

theorem apart_mergeInto (hlt : ∀ b ∈ a :: l, b.1 < b.2) : Apart (mergeInto a l) := by
  induction l generalizing a with
  | nil => exact ⟨hlt, pairwise_singleton _ _⟩
  | cons b l ih =>
    obtain ⟨hfirst, hrest⟩ := pairwise_cons.1 h
    rw [mergeInto]
    split_ifs with hover
    · refine ih (pairwise_cons.2 ⟨fun c hc => hfirst c (mem_cons_of_mem b hc), hrest.of_cons⟩) fun c hc => ?_
      rcases mem_cons.1 hc with rfl | hc
      · exact lt_of_lt_of_le (hlt a mem_cons_self) (le_max_left _ _)
      · exact hlt c (mem_cons_of_mem _ (mem_cons_of_mem _ hc))
    · have hapart := ih hrest fun c hc => hlt c (mem_cons_of_mem a hc)
      refine ⟨fun c hc => ?_, pairwise_cons.2 ⟨fun c hc => ?_, hapart.le⟩⟩
      · rcases mem_cons.1 hc with rfl | hc
        · exact hlt c mem_cons_self
        · exact hapart.lt c hc
      · exact (not_lt.1 hover).trans (fst_le_of_mem_mergeInto hrest hc)

end

/-! Places where an interval begins -/

theorem Apart.rel (h : Apart l) (ha : a ∈ l) (hb : b ∈ l) (hne : a ≠ b) : a.2 ≤ b.1 ∨ b.2 ≤ a.1 := by
  have hsymm : l.Pairwise fun a b => a.2 ≤ b.1 ∨ b.2 ≤ a.1 := h.le.imp .inl
  have : Std.Symm fun a b : ℕ × ℕ => a.2 ≤ b.1 ∨ b.2 ≤ a.1 := ⟨fun _ _ => Or.symm⟩
  exact hsymm.forall ha hb hne

/-- In a list whose intervals are apart, the beginnings are what is covered and not inside. -/
theorem Apart.mem_fst (h : Apart l) : i ∈ l.map Prod.fst ↔ Covers l i ∧ ¬ Meets 1 l i := by
  constructor
  · intro hi
    obtain ⟨a, ha, rfl⟩ := mem_map.1 hi
    refine ⟨⟨a, ha, le_rfl, h.lt a ha⟩, ?_⟩
    rintro ⟨b, hb, hlt, hend⟩
    have hne : a ≠ b := by
      rintro rfl
      exact Nat.not_succ_le_self _ hlt
    rcases h.rel ha hb hne with hab | hba
    · have := h.lt a ha
      omega
    · omega
  · rintro ⟨⟨a, ha, hle, hlt⟩, hinside⟩
    rcases Nat.lt_or_eq_of_le hle with hbefore | heq
    · exact absurd ⟨a, ha, hbefore, hlt⟩ hinside
    · exact mem_map.2 ⟨a, ha, heq⟩

theorem Apart.sorted_fst (h : Apart l) : (l.map Prod.fst).Pairwise (· < ·) := by
  rw [pairwise_map]
  refine (List.Pairwise.and_mem.1 h.le).imp ?_
  rintro a b ⟨ha, -, hab⟩
  exact lt_of_lt_of_le (h.lt a ha) hab

theorem Apart.not_inside_end (h : Apart l) (ha : a ∈ l) : ¬ Meets 1 l a.2 := by
  rintro ⟨b, hb, hlt, hend⟩
  have hla := h.lt a ha
  have hne : a ≠ b := by
    rintro rfl
    exact lt_irrefl _ hend
  rcases h.rel ha hb hne with hle | hle
  · omega
  · omega

/-- How many intervals begin before a place, and where `q` allows. -/
theorem Apart.countP_fst (h : Apart l) (q : ℕ → Prop) [DecidablePred q] (c : ℕ) :
    (l.countP fun a => decide (a.1 < c ∧ q a.1)) =
      (range c).countP fun i => decide ((Covers l i ∧ ¬ Meets 1 l i) ∧ q i) := by
  have hmap : (l.countP fun a => decide (a.1 < c ∧ q a.1)) =
      ((l.map Prod.fst).filter fun s => decide (s < c ∧ q s)).length := by
    rw [← countP_eq_length_filter, countP_map]
    rfl
  have hperm : ((l.map Prod.fst).filter fun s => decide (s < c ∧ q s)).Perm
      ((range c).filter fun i => decide ((Covers l i ∧ ¬ Meets 1 l i) ∧ q i)) := by
    refine (perm_ext_iff_of_nodup ?_ (nodup_range.filter _)).2 fun s => ?_
    · exact (h.sorted_fst.imp fun hab => ne_of_lt hab).filter _
    · simp only [mem_filter, h.mem_fst, mem_range, decide_eq_true_eq]
      tauto
  rw [hmap, hperm.length_eq, countP_eq_length_filter]

end Intervals
