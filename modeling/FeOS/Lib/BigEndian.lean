import Mathlib.Data.List.Lex
import Mathlib.Tactic

/-! Numbers as digits of a fixed width, the highest digit first. Digit lists of one length are
ordered as the numbers they write. -/

namespace BigEndian

variable {b : ℕ}

/-- The number that the digits write. -/
def value : List (Fin b) → ℕ
  | [] => 0
  | d :: ds => d * b ^ ds.length + value ds

/-- The last digits of a number. -/
def digits [NeZero b] : (width n : ℕ) → List (Fin b)
  | 0, _ => []
  | width + 1, n => Fin.ofNat b (n / b ^ width) :: digits width n

@[simp] theorem length_digits [NeZero b] (width n : ℕ) : (digits (b := b) width n).length = width := by
  induction width with
  | zero => rfl
  | succ width ih => rw [digits, List.length_cons, ih]

theorem value_append (ds es : List (Fin b)) : value (ds ++ es) = value ds * b ^ es.length + value es := by
  induction ds with
  | nil => simp [value]
  | cons d ds ih =>
    rw [List.cons_append, value, value, ih, List.length_append, pow_add]
    ring

theorem value_lt (ds : List (Fin b)) : value ds < b ^ ds.length := by
  induction ds with
  | nil => exact Nat.one_pos
  | cons d ds ih =>
    calc d * b ^ ds.length + value ds
        < d * b ^ ds.length + b ^ ds.length := Nat.add_lt_add_left ih _
      _ = (d + 1) * b ^ ds.length := (Nat.succ_mul _ _).symm
      _ ≤ b * b ^ ds.length := Nat.mul_le_mul_right _ d.isLt
      _ = b ^ (ds.length + 1) := (Nat.pow_succ').symm

theorem value_digits [NeZero b] (width n : ℕ) : value (digits (b := b) width n) = n % b ^ width := by
  induction width with
  | zero => rw [pow_zero, Nat.mod_one]; rfl
  | succ width ih =>
    rw [digits, value, ih, length_digits, Fin.val_ofNat, Nat.mod_pow_succ, Nat.mul_comm, Nat.add_comm]

theorem lt_iff {ds es : List (Fin b)} (h : ds.length = es.length) : ds < es ↔ value ds < value es := by
  induction ds generalizing es with
  | nil =>
    obtain rfl := List.length_eq_zero_iff.1 h.symm
    exact ⟨fun hlt => absurd hlt (lt_irrefl _), fun hlt => absurd hlt (lt_irrefl _)⟩
  | cons d ds ih =>
    cases es with
    | nil => cases h
    | cons e es =>
      have hlen : ds.length = es.length := Nat.succ.inj h
      have hd := value_lt ds
      have he := value_lt es
      rw [hlen] at hd
      rw [List.cons_lt_cons_iff, ih hlen, value, value, hlen]
      -- the higher digit decides, unless both lists start alike
      rcases lt_trichotomy d e with hlt | rfl | hgt
      · have hmul := Nat.mul_le_mul_right (b ^ es.length) (Nat.succ_le_of_lt (Fin.lt_def.1 hlt))
        rw [Nat.succ_mul] at hmul
        exact ⟨fun _ => by omega, fun _ => .inl hlt⟩
      · simp only [lt_irrefl, false_or, true_and, Nat.add_lt_add_iff_left]
      · have hmul := Nat.mul_le_mul_right (b ^ es.length) (Nat.succ_le_of_lt (Fin.lt_def.1 hgt))
        rw [Nat.succ_mul] at hmul
        constructor
        · rintro (hlt | ⟨rfl, -⟩)
          · exact absurd hlt hgt.asymm
          · exact absurd hgt (lt_irrefl _)
        · intro hlt
          omega

theorem le_iff {ds es : List (Fin b)} (h : ds.length = es.length) : ds ≤ es ↔ value ds ≤ value es := by
  rw [← not_lt, ← not_lt, lt_iff h.symm]

end BigEndian
