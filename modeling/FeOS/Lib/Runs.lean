import Mathlib.Tactic

/-! Runs of a system whose steps are named by events. An event may not be enabled, and a run can
be held to a condition on the steps it takes. A state is often a family of which a step changes one
member. -/

/-- What a family gives of which one member was changed. -/
theorem Function.update_cases {ι β : Type} [DecidableEq ι] {f : ι → β} {a b : ι} {x y : β}
    (h : Function.update f a x b = y) : (b = a ∧ x = y) ∨ (b ≠ a ∧ f b = y) := by
  rw [Function.update_apply] at h
  split_ifs at h with heq
  · exact .inl ⟨heq, h⟩
  · exact .inr ⟨heq, h⟩

namespace Runs

variable {σ ε : Type} {step : σ → ε → Option σ} {ok : σ → ε → Prop} {s₀ s s' : σ}

/-- The states that are reached from `s₀` by steps that meet `ok`. -/
inductive Reach (step : σ → ε → Option σ) (ok : σ → ε → Prop) (s₀ : σ) : σ → Prop
  | init : Reach step ok s₀ s₀
  | step {s s' : σ} {e : ε} (h : Reach step ok s₀ s) (hok : ok s e) (hs : step s e = some s') :
      Reach step ok s₀ s'

/-- What holds at first and is kept by every step holds in every state. -/
theorem Reach.invariant {I : σ → Prop} (h₀ : I s₀)
    (hstep : ∀ s e s', I s → ok s e → step s e = some s' → I s') (h : Reach step ok s₀ s) : I s := by
  induction h with
  | init => exact h₀
  | step _ hok hs ih => exact hstep _ _ _ ih hok hs

theorem Reach.mono {ok' : σ → ε → Prop} (hle : ∀ s e, ok s e → ok' s e) (h : Reach step ok s₀ s) : Reach step ok' s₀ s := by
  induction h with
  | init => exact .init
  | step _ hok hs ih => exact ih.step (hle _ _ hok) hs

/-- The run of these events, if each of them is enabled and meets `ok`. -/
def follow (step : σ → ε → Option σ) (ok : σ → ε → Prop) [∀ s e, Decidable (ok s e)] (s : σ) : List ε → Option σ
  | [] => some s
  | e :: events => if ok s e then (step s e).bind fun s => follow step ok s events else none

theorem Reach.follow [∀ s e, Decidable (ok s e)] {events : List ε} (h : Reach step ok s₀ s)
    (hf : follow step ok s events = some s') : Reach step ok s₀ s' := by
  induction events generalizing s with
  | nil =>
    cases hf
    exact h
  | cons e events ih =>
    rw [Runs.follow] at hf
    split_ifs at hf with hok
    obtain ⟨s₁, hs, hf⟩ := Option.bind_eq_some_iff.1 hf
    exact ih (h.step hok hs) hf

/-- A run that is computed, and what it ends with. -/
theorem exists_follow [∀ s e, Decidable (ok s e)] (events : List ε) {P : σ → Prop} [DecidablePred P]
    (h : (follow step ok s₀ events).any (fun s => decide (P s)) = true) : ∃ s, Reach step ok s₀ s ∧ P s := by
  cases hf : follow step ok s₀ events with
  | none =>
    rw [hf] at h
    cases h
  | some s =>
    rw [hf] at h
    exact ⟨s, Reach.init.follow hf, of_decide_eq_true h⟩

end Runs
