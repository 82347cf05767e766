import Mathlib.Tactic
import Mathlib.Data.Finset.Card
import Mathlib.Logic.Relation

/-! A walk along pointers with a work list: each node points at one other at most, nodes that
were seen are not queued again, and the nodes found on the way are the result. -/

namespace Walk

open List

variable {α : Type} [DecidableEq α] (next : α → Option α)

/-- The loop, newest first; `fuel` bounds its rounds. -/
def expand : ℕ → List α → List α → List α
  | 0, _, _ => []
  | _ + 1, _, [] => []
  | fuel + 1, seen, x :: queue =>
    match next x with
    | none => expand fuel seen queue
    | some p => if p ∈ seen then expand fuel seen queue else p :: expand fuel (p :: seen) (p :: queue)

variable {next}

/-- Reached from one of `ids` along the pointers. -/
def Reached (next : α → Option α) (ids : List α) (x : α) : Prop :=
  ∃ r ∈ ids, Relation.ReflTransGen (fun a b => next a = some b) r x

omit [DecidableEq α] in
theorem Reached.root {ids : List α} {x : α} (h : x ∈ ids) : Reached next ids x := ⟨x, h, .refl⟩

omit [DecidableEq α] in
theorem Reached.step {ids : List α} {x p : α} (h : Reached next ids x) (hp : next x = some p) :
    Reached next ids p := by
  obtain ⟨r, hr, hx⟩ := h
  exact ⟨r, hr, hx.tail hp⟩

/-- What the loop finds is reached. -/
theorem reached_of_expand {ids : List α} : ∀ (fuel : ℕ) (seen queue : List α),
    (∀ x ∈ queue, Reached next ids x) → ∀ p ∈ expand next fuel seen queue, Reached next ids p
  | 0, _, _, _, _, hp => absurd hp not_mem_nil
  | _ + 1, _, [], _, _, hp => absurd hp not_mem_nil
  | fuel + 1, seen, x :: queue, hq, p, hp => by
    have hqueue : ∀ y ∈ queue, Reached next ids y := fun y hy => hq y (mem_cons_of_mem _ hy)
    rw [expand] at hp
    cases hx : next x with
    | none =>
      rw [hx] at hp
      exact reached_of_expand fuel seen queue hqueue p hp
    | some y =>
      rw [hx] at hp
      have hy : Reached next ids y := (hq x mem_cons_self).step hx
      simp only at hp
      split_ifs at hp
      · exact reached_of_expand fuel seen queue hqueue p hp
      · rcases mem_cons.1 hp with rfl | hp
        · exact hy
        · refine reached_of_expand fuel (y :: seen) (y :: queue) (fun z hz => ?_) p hp
          rcases mem_cons.1 hz with rfl | hz
          · exact hy
          · exact hqueue z hz

/-- With fuel for the queue and for every node that can still be found, the loop leaves no
pointer unfollowed. -/
theorem expand_closed {U : Finset α} (hU : ∀ x p, next x = some p → p ∈ U) :
    ∀ (fuel : ℕ) (seen queue : List α), queue.length + (U \ seen.toFinset).card ≤ fuel →
    (∀ x ∈ seen, x ∈ queue ∨ ∀ p, next x = some p → p ∈ seen) →
    ∀ x, x ∈ seen ∨ x ∈ expand next fuel seen queue → ∀ p, next x = some p →
      p ∈ seen ∨ p ∈ expand next fuel seen queue
  | 0, seen, queue, hfuel, hseen, x, hx, p, hp => by
    obtain rfl : queue = [] := length_eq_zero_iff.1 (by omega)
    rcases hx with hx | hx
    · exact Or.inl ((hseen x hx).resolve_left not_mem_nil p hp)
    · exact absurd hx not_mem_nil
  | _ + 1, seen, [], _, hseen, x, hx, p, hp => by
    rcases hx with hx | hx
    · exact Or.inl ((hseen x hx).resolve_left not_mem_nil p hp)
    · exact absurd hx not_mem_nil
  | fuel + 1, seen, a :: queue, hfuel, hseen, x, hx, p, hp => by
    rw [length_cons] at hfuel
    -- `a` was dealt with, the others are as they were
    have hrest : (∀ b, next a = some b → b ∈ seen) →
        ∀ y ∈ seen, y ∈ queue ∨ ∀ b, next y = some b → b ∈ seen := by
      intro ha y hy
      rcases hseen y hy with hq | hdone
      · rcases mem_cons.1 hq with rfl | hq
        · exact Or.inr ha
        · exact Or.inl hq
      · exact Or.inr hdone
    rw [expand] at hx ⊢
    cases ha : next a with
    | none =>
      simp only [ha] at hx ⊢
      exact expand_closed hU fuel seen queue (by omega) (hrest fun b hb => by rw [ha] at hb; cases hb)
        x hx p hp
    | some b =>
      simp only [ha] at hx ⊢
      split_ifs at hx ⊢ with hb
      · refine expand_closed hU fuel seen queue (by omega) (hrest fun b' hb' => ?_) x hx p hp
        rw [ha] at hb'
        exact Option.some.inj hb' ▸ hb
      · -- the new node leaves what can still be found
        have hcard : (U \ (b :: seen).toFinset).card < (U \ seen.toFinset).card := by
          refine Finset.card_lt_card (Finset.ssubset_iff_subset_ne.2 ⟨?_, fun heq => ?_⟩)
          · exact Finset.sdiff_subset_sdiff le_rfl (by simp)
          · have : b ∈ U \ seen.toFinset := by simp [hU a b ha, hb]
            rw [← heq] at this
            simp at this
        have hnext := expand_closed hU fuel (b :: seen) (b :: queue) (by rw [length_cons]; omega) (by
          intro y hy
          rcases mem_cons.1 hy with rfl | hy
          · exact Or.inl mem_cons_self
          · rcases hseen y hy with hq | hdone
            · rcases mem_cons.1 hq with rfl | hq
              · refine Or.inr fun b' hb' => ?_
                rw [ha] at hb'
                exact Option.some.inj hb' ▸ mem_cons_self
              · exact Or.inl (mem_cons_of_mem _ hq)
            · exact Or.inr fun b' hb' => mem_cons_of_mem _ (hdone b' hb')) x
        have hmove : ∀ z, z ∈ b :: seen ∨ z ∈ expand next fuel (b :: seen) (b :: queue) ↔
            z ∈ seen ∨ z ∈ b :: expand next fuel (b :: seen) (b :: queue) := by
          intro z
          simp only [mem_cons]
          tauto
        exact (hmove p).1 (hnext ((hmove x).2 hx) p hp)

/-- The walk from `ids` finds exactly what is reached. -/
theorem mem_expand {U : Finset α} (hU : ∀ x p, next x = some p → p ∈ U) {ids : List α} {fuel : ℕ}
    (hfuel : ids.length + U.card ≤ fuel) (x : α) :
    x ∈ ids ++ expand next fuel ids ids ↔ Reached next ids x := by
  rw [mem_append]
  refine ⟨fun h => ?_, fun h => ?_⟩
  · rcases h with h | h
    · exact .root h
    · exact reached_of_expand fuel ids ids (fun y hy => .root hy) x h
  · obtain ⟨r, hr, h⟩ := h
    have hclosed := expand_closed hU fuel ids ids
      (le_trans (Nat.add_le_add_left (Finset.card_le_card Finset.sdiff_subset) _) hfuel)
      (fun y hy => Or.inl hy)
    induction h with
    | refl => exact Or.inl hr
    | tail _ hp ih => exact hclosed _ ih _ hp

end Walk
