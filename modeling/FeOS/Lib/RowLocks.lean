import Mathlib.Tactic

/-! Row locks of a database: the four modes a row is locked in, which of them exclude each other,
and the locks that transactions hold until they end. -/

namespace RowLocks

inductive Mode where
  | keyShare
  | share
  | noKeyUpdate
  | update
  deriving DecidableEq, Repr

def Mode.conflicts : Mode → Mode → Bool
  | .update, _ => true
  | _, .update => true
  | .noKeyUpdate, .noKeyUpdate => true
  | .noKeyUpdate, .share => true
  | .share, .noKeyUpdate => true
  | _, _ => false

theorem Mode.conflicts_comm (a b : Mode) : a.conflicts b = b.conflicts a := by
  cases a <;> cases b <;> rfl

structure Lock (τ ρ : Type) where
  tx : τ
  row : ρ
  mode : Mode
  deriving DecidableEq, Repr

variable {τ ρ : Type}

/-- The row can be locked in the mode, by one that has no lock on it. -/
def Free (held : List (Lock τ ρ)) (row : ρ) (mode : Mode) : Prop :=
  ∀ l ∈ held, l.row = row → l.mode.conflicts mode = false

instance [DecidableEq ρ] (held : List (Lock τ ρ)) (row : ρ) (mode : Mode) : Decidable (Free held row mode) :=
  inferInstanceAs (Decidable (∀ l ∈ held, l.row = row → l.mode.conflicts mode = false))

/-- What is held when a transaction has ended. -/
def release [DecidableEq τ] (held : List (Lock τ ρ)) (tx : τ) : List (Lock τ ρ) := held.filter fun l => l.tx ≠ tx

/-- No two transactions hold locks that exclude each other. -/
def Compatible (held : List (Lock τ ρ)) : Prop :=
  ∀ l ∈ held, ∀ l' ∈ held, l.row = l'.row → l.mode.conflicts l'.mode = true → l.tx = l'.tx

theorem compatible_nil : Compatible ([] : List (Lock τ ρ)) := nofun

variable {held : List (Lock τ ρ)}

theorem Compatible.take {tx : τ} {row : ρ} {mode : Mode} (h : Compatible held)
    (hfree : Free held row mode) : Compatible (⟨tx, row, mode⟩ :: held) := by
  intro l hl l' hl' hrow hc
  rcases List.mem_cons.1 hl with rfl | hl <;> rcases List.mem_cons.1 hl' with rfl | hl'
  · rfl
  · rw [Mode.conflicts_comm, hfree l' hl' hrow.symm] at hc
    cases hc
  · rw [hfree l hl hrow] at hc
    cases hc
  · exact h l hl l' hl' hrow hc

theorem mem_release [DecidableEq τ] {tx : τ} {l : Lock τ ρ} :
    l ∈ release held tx ↔ l ∈ held ∧ l.tx ≠ tx := by
  simp [release]

theorem Compatible.release [DecidableEq τ] (h : Compatible held) (tx : τ) :
    Compatible (release held tx) :=
  fun l hl l' hl' => h l (mem_release.1 hl).1 l' (mem_release.1 hl').1

/-- A row that is free in a mode is held in no mode that excludes it. -/
theorem Free.not_held {row : ρ} {mode : Mode} (h : Free held row mode) {l : Lock τ ρ}
    (hl : l ∈ held) (hrow : l.row = row) (hc : l.mode.conflicts mode = true) : False := by
  rw [h l hl hrow] at hc
  cases hc

end RowLocks
