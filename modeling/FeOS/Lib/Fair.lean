import FeOS.Lib.Runs

/-! Fair runs: infinite runs in which every party that has something to do steps in the end. What
the steps of one party bring nearer, and no step moves away, comes in every fair run. -/

namespace Runs

variable {σ ε π : Type}

/-- An infinite run in which a party that is busy steps in the end. -/
structure Fair (step : σ → ε → Option σ) (s₀ : σ) (party : ε → Option π) (busy : σ → π → Prop)
    (s : ℕ → σ) (e : ℕ → ε) : Prop where
  init : s 0 = s₀
  step : ∀ n, step (s n) (e n) = some (s (n + 1))
  fair : ∀ n p, busy (s n) p → ∃ m ≥ n, party (e m) = some p

variable {step : σ → ε → Option σ} {s₀ : σ} {party : ε → Option π} {busy : σ → π → Prop} {s : ℕ → σ} {e : ℕ → ε}

theorem Fair.reach (h : Fair step s₀ party busy s e) (n : ℕ) : Reach step (fun _ _ => True) s₀ (s n) := by
  induction n with
  | zero =>
    rw [h.init]
    exact .init
  | succ n ih => exact ih.step trivial (h.step n)

/-- What every step keeps stays. -/
theorem Fair.stays {I : σ → Prop} (h : Fair step s₀ party busy s e)
    (hstep : ∀ s e s', Reach step (fun _ _ => True) s₀ s → I s → step s e = some s' → I s') {n m : ℕ}
    (hn : I (s n)) (hle : n ≤ m) :
    I (s m) := by
  induction m, hle using Nat.le_induction with
  | base => exact hn
  | succ m _ ih => exact hstep _ _ _ (h.reach m) ih (h.step m)

/-- From `P` to `Q`, by a rank that every step of `p` lowers and none raises. -/
theorem Fair.leads_to {P Q : σ → Prop} (h : Fair step s₀ party busy s e) (p : π) (rank : σ → ℕ)
    (hstep : ∀ s e s', Reach step (fun _ _ => True) s₀ s → P s → step s e = some s' →
      Q s' ∨ P s' ∧ rank s' ≤ rank s ∧ (party e = some p → rank s' < rank s))
    (hbusy : ∀ s, Reach step (fun _ _ => True) s₀ s → P s → busy s p) {n : ℕ} (hn : P (s n)) : ∃ m ≥ n, Q (s m) := by
  induction hrank : rank (s n) using Nat.strong_induction_on generalizing n with
  | _ k ih =>
    -- until `p` steps, the run is in `P` with a rank that is not above `k`, or it was in `Q`
    have hwait : ∀ m ≥ n, (∃ i ≥ n, Q (s i)) ∨ P (s m) ∧ rank (s m) ≤ k := by
      intro m hm
      induction m, hm using Nat.le_induction with
      | base => exact .inr ⟨hn, hrank.le⟩
      | succ m hm ihm =>
        obtain hq | ⟨hp, hle⟩ := ihm
        · exact .inl hq
        · obtain hq | ⟨hp', hle', -⟩ := hstep _ _ _ (h.reach m) hp (h.step m)
          · exact .inl ⟨m + 1, by omega, hq⟩
          · exact .inr ⟨hp', hle'.trans hle⟩
    obtain ⟨m, hm, hparty⟩ := h.fair n p (hbusy _ (h.reach n) hn)
    obtain hq | ⟨hp, hle⟩ := hwait m hm
    · exact hq
    · obtain hq | ⟨hp', -, hlt⟩ := hstep _ _ _ (h.reach m) hp (h.step m)
      · exact ⟨m + 1, by omega, hq⟩
      · obtain ⟨i, hi, hq⟩ := ih _ ((hlt hparty).trans_le hle) hp' rfl
        exact ⟨i, by omega, hq⟩

end Runs
