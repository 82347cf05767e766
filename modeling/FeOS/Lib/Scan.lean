import Mathlib.Data.List.Basic

/-! Scans of a list from left to right. At each place that is not passed over, a rule looks at the
rest of the list, says what stands for its front, and how many elements after the first it takes. -/

namespace Scan

open List

variable {α β : Type}

/-- The scan of a list, its first `n` elements passed over. -/
def scan (f : α → List α → List β × ℕ) : ℕ → List α → List β
  | _, [] => []
  | n + 1, _ :: xs => scan f n xs
  | 0, x :: xs => (f x xs).1 ++ scan f (f x xs).2 xs

variable {f : α → List α → List β × ℕ} {n : ℕ} {xs ys : List α}

theorem scan_drop (n : ℕ) (xs : List α) : scan f n xs = scan f 0 (xs.drop n) := by
  induction xs generalizing n with
  | nil => rw [drop_nil, scan, scan]
  | cons x xs ih =>
    cases n with
    | zero => rfl
    | succ n => exact ih n

/-- A place that no front before it reaches over is come to. -/
theorem exists_scan_append (hn : n ≤ xs.length)
    (h : ∀ x rest, x :: rest <:+ xs → (f x (rest ++ ys)).2 ≤ rest.length) :
    ∃ zs, scan f n (xs ++ ys) = zs ++ scan f 0 ys := by
  induction xs generalizing n with
  | nil =>
    obtain rfl : n = 0 := by simpa using hn
    exact ⟨[], rfl⟩
  | cons x xs ih =>
    have hsuf : ∀ z rest, z :: rest <:+ xs → (f z (rest ++ ys)).2 ≤ rest.length := fun z rest hs =>
      h z rest (hs.trans (suffix_cons x xs))
    cases n with
    | zero =>
      obtain ⟨zs, hzs⟩ := ih (h x xs suffix_rfl) hsuf
      exact ⟨(f x (xs ++ ys)).1 ++ zs, by rw [cons_append, scan, hzs, append_assoc]⟩
    | succ n => exact ih (by simpa using hn) hsuf

/-- What the fronts were made of stands in the list in that order. -/
theorem flatMap_scan_sublist {g : β → List α} (h : ∀ x rest, (f x rest).1.flatMap g <+ x :: rest.take (f x rest).2)
    (n : ℕ) (xs : List α) : (scan f n xs).flatMap g <+ xs.drop n := by
  induction xs generalizing n with
  | nil => simp [scan]
  | cons x xs ih =>
    cases n with
    | zero =>
      have hfront := (h x xs).append (ih (f x xs).2)
      rwa [cons_append, take_append_drop, ← flatMap_append] at hfront
    | succ n => exact ih n

/-- The rule that puts `r` for each part of the list with the property, and leaves the rest: `skip`
elements of the part come after its first. -/
def swap (p : List α → Prop) [DecidablePred p] (r : List α) (skip : ℕ) (x : α) (rest : List α) : List α × ℕ :=
  if p (x :: rest) then (r, skip) else ([x], 0)

variable {p : List α → Prop} [DecidablePred p] {r : List α} {skip : ℕ}

/-- Elements at none of which a part begins are left. -/
theorem scan_swap_keep (h : ∀ a b, xs = a ++ b → b ≠ [] → ¬ p (b ++ ys)) :
    scan (swap p r skip) 0 (xs ++ ys) = xs ++ scan (swap p r skip) 0 ys := by
  induction xs with
  | nil => rfl
  | cons x xs ih =>
    have hx : ¬ p (x :: (xs ++ ys)) := h [] (x :: xs) rfl (cons_ne_nil x xs)
    have hrest := ih fun a b hab => h (x :: a) b (by rw [hab, cons_append])
    rw [cons_append, scan, swap, if_neg hx, hrest]
    rfl

/-- A part that begins the list is replaced. -/
theorem scan_swap_found (hne : xs ≠ []) (h : p (xs ++ ys)) :
    scan (swap p r (xs.length - 1)) 0 (xs ++ ys) = r ++ scan (swap p r (xs.length - 1)) 0 ys := by
  cases xs with
  | nil => exact absurd rfl hne
  | cons x xs =>
    have hx : p (x :: (xs ++ ys)) := h
    rw [cons_append, scan, swap, if_pos hx, scan_drop (length (x :: xs) - 1)]
    simp

end Scan
