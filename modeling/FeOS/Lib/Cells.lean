import Mathlib.Logic.Function.Basic
import Mathlib.Tactic

/-! Steps over a family of cells, each of which reads and writes one cell, in a run where every
cell has one step at most. -/

namespace Cells

open List Function

variable {ι M α ε : Type} [DecidableEq ι] {name : α → ι}
  (step : (ι → M) → α → Except ε (ι → M)) {g : α → M}

/-- The run of those steps that are due succeeds, and leaves in each cell what its step writes. -/
theorem foldlM_filter {as : List α} {K : ι → M} (hnodup : (as.map name).Nodup) (due : α → Bool)
    (hstep : ∀ a ∈ as, due a = true → ∀ K' : ι → M, K' (name a) = K (name a) →
      step K' a = .ok (update K' (name a) (g a)))
    (hrest : ∀ a ∈ as, due a = false → K (name a) = g a) :
    ∃ K', (as.filter due).foldlM step K = .ok K' ∧ (∀ a ∈ as, K' (name a) = g a) ∧
      ∀ i, i ∉ as.map name → K' i = K i := by
  induction as generalizing K with
  | nil => exact ⟨K, rfl, by simp, fun _ _ => rfl⟩
  | cons a as ih =>
    obtain ⟨hnew, hnodup⟩ := nodup_cons.1 hnodup
    obtain ⟨hstepa, hstep⟩ := forall_mem_cons.1 hstep
    obtain ⟨hresta, hrest⟩ := forall_mem_cons.1 hrest
    have hne : ∀ b ∈ as, name b ≠ name a := fun b hb heq => hnew (heq ▸ mem_map_of_mem hb)
    cases hdue : due a with
    | false =>
      obtain ⟨K', hrun, hcells, hothers⟩ := ih hnodup hstep hrest
      refine ⟨K', by rw [filter_cons_of_neg (by rw [hdue]; decide), hrun], ?_, ?_⟩
      · exact forall_mem_cons.2 ⟨(hothers _ hnew).trans (hresta hdue), hcells⟩
      · intro i hi
        exact hothers i fun hmem => hi (mem_cons_of_mem _ hmem)
    | true =>
      -- the cell of the first step is not touched again
      have hsame : ∀ b ∈ as, update K (name a) (g a) (name b) = K (name b) := fun b hb =>
        update_of_ne (hne b hb) _ _
      obtain ⟨K', hrun, hcells, hothers⟩ := ih hnodup
        (fun b hb hb' K' hK' => hstep b hb hb' K' (hK'.trans (hsame b hb)))
        (fun b hb hb' => (hsame b hb).trans (hrest b hb hb'))
      refine ⟨K', ?_, ?_, ?_⟩
      · rw [filter_cons_of_pos hdue, foldlM_cons, hstepa hdue K rfl]
        exact hrun
      · exact forall_mem_cons.2 ⟨(hothers _ hnew).trans (update_self _ _ _), hcells⟩
      · intro i hi
        rw [map_cons, mem_cons, not_or] at hi
        rw [hothers i hi.2, update_of_ne hi.1]

theorem foldlM {as : List α} {K : ι → M} (hnodup : (as.map name).Nodup)
    (hstep : ∀ a ∈ as, ∀ K' : ι → M, K' (name a) = K (name a) → step K' a = .ok (update K' (name a) (g a))) :
    ∃ K', as.foldlM step K = .ok K' ∧ (∀ a ∈ as, K' (name a) = g a) ∧ ∀ i, i ∉ as.map name → K' i = K i := by
  have h := foldlM_filter step hnodup (fun _ => true) (fun a ha _ => hstep a ha) fun _ _ hfalse => absurd hfalse (by decide)
  rwa [filter_true] at h

end Cells
