import Mathlib.Tactic

/-! Binary search over the places `0 … n - 1`, each of which says whether what is looked for stands before it,
at it or behind it. -/

namespace BinarySearch

variable {cmp : ℕ → Ordering} {n fuel size base k : ℕ}

/-- The halving: `size` places from `base` on are left. -/
def narrow (cmp : ℕ → Ordering) : ℕ → ℕ → ℕ → ℕ
  | 0, _, base => base
  | fuel + 1, size, base =>
    if size ≤ 1 then base
    else narrow cmp fuel (size - size / 2) (if cmp (base + size / 2) = .gt then base else base + size / 2)

/-- The place that compares equal. -/
def search (cmp : ℕ → Ordering) (n : ℕ) : Option ℕ :=
  if n = 0 then none
  else
    let base := narrow cmp n n 0
    if cmp base = .eq then some base else none

/-- The places in order, as far as one that compares equal tells: none before it is greater, all behind it are. -/
structure Found (cmp : ℕ → Ordering) (n k : ℕ) : Prop where
  lt : k < n
  eq : cmp k = .eq
  before : ∀ i < k, cmp i ≠ .gt
  behind : ∀ i, k < i → i < n → cmp i = .gt

theorem narrow_eq (h : Found cmp n k) (hfuel : size ≤ fuel) (hbase : base ≤ k) (hk : k < base + size)
    (hn : base + size ≤ n) : narrow cmp fuel size base = k := by
  induction fuel generalizing size base with
  | zero => omega
  | succ fuel ih =>
    rw [narrow]
    split_ifs with hsize hgt
    · omega
    · have hlt : k < base + size / 2 := by
        by_contra hge
        rcases Nat.lt_or_eq_of_le (not_lt.1 hge) with hmid | hmid
        · exact h.before _ hmid hgt
        · rw [hmid, h.eq] at hgt
          cases hgt
      exact ih (by omega) hbase (by omega) (by omega)
    · have hge : base + size / 2 ≤ k := by
        by_contra hlt
        exact hgt (h.behind _ (not_le.1 hlt) (by omega))
      exact ih (by omega) hge (by omega) (by omega)

theorem narrow_lt (hsize : 0 < size) : narrow cmp fuel size base < base + size := by
  induction fuel generalizing size base with
  | zero =>
    rw [narrow]
    omega
  | succ fuel ih =>
    rw [narrow]
    split_ifs with h₁ h₂
    · omega
    · have := @ih (size - size / 2) base (by omega)
      omega
    · have := @ih (size - size / 2) (base + size / 2) (by omega)
      omega

/-- Where one place at most compares equal, with the others in order around it, the search finds it. -/
theorem search_eq_some (h : ∀ k < n, cmp k = .eq → Found cmp n k) : search cmp n = some k ↔ k < n ∧ cmp k = .eq := by
  unfold search
  constructor
  · intro hs
    dsimp only at hs
    split_ifs at hs with hn heq
    have hlt : narrow cmp n n 0 < 0 + n := narrow_lt (Nat.pos_of_ne_zero hn)
    rw [← Option.some.inj hs]
    exact ⟨by omega, heq⟩
  · rintro ⟨hk, heq⟩
    have hnarrow : narrow cmp n n 0 = k := narrow_eq (h k hk heq) le_rfl (Nat.zero_le k) (by omega) (by omega)
    rw [if_neg (by omega)]
    simp only [hnarrow, heq, if_true]

end BinarySearch
