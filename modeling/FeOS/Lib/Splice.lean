import Mathlib.Tactic

/-! Writing a run of items into a list at a place, as a write into a buffer or a file does. -/

namespace Splice

open List

variable {α : Type}

/-- The list grown to `n` items with `d`. -/
def pad (d : α) (n : ℕ) (l : List α) : List α := l ++ List.replicate (n - l.length) d

/-- The list with `xs` in place of what stood from `i` on. -/
def splice (l : List α) (i : ℕ) (xs : List α) : List α := l.take i ++ xs ++ l.drop (i + xs.length)

@[simp] theorem length_pad (d : α) (n : ℕ) (l : List α) : (pad d n l).length = max l.length n := by
  simp only [pad, length_append, length_replicate]
  omega

theorem getElem?_pad (d : α) (n : ℕ) (l : List α) (j : ℕ) :
    (pad d n l)[j]? = if j < l.length then l[j]? else if j < n then some d else none := by
  rw [pad, getElem?_append]
  split_ifs with hl hn
  · rfl
  · rw [getElem?_replicate, if_pos (by omega)]
  · rw [getElem?_replicate, if_neg (by omega)]

theorem length_splice {l : List α} {i : ℕ} (xs : List α) (hi : i ≤ l.length) :
    (splice l i xs).length = max l.length (i + xs.length) := by
  simp only [splice, length_append, length_take, length_drop]
  omega

theorem getElem?_splice {l : List α} {i : ℕ} (xs : List α) (hi : i ≤ l.length) (j : ℕ) :
    (splice l i xs)[j]? = if i ≤ j ∧ j < i + xs.length then xs[j - i]? else l[j]? := by
  have hlen : (l.take i).length = i := by
    rw [length_take]
    omega
  rw [splice, append_assoc, getElem?_append, hlen]
  split_ifs with hj hin hin
  · omega
  · rw [getElem?_take, if_pos hj]
  · rw [getElem?_append, if_pos (by omega)]
  · rw [getElem?_append, if_neg (by omega), getElem?_drop]
    congr 1
    omega

end Splice
