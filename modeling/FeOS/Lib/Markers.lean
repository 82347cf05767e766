import Mathlib.Data.Finset.Basic
import Mathlib.Order.Lattice
import Mathlib.Tactic

/-! Sets of ranges that are kept as markers: a range is a start at its first key and an end at
the key after its last, and a range that runs to the last key has no end. A key is in the set
when the greatest marker that is not above it is a start. Ranges that neither overlap nor touch
share no marker, so that they can be put in and taken out one by one. -/

namespace Markers

open List Finset

variable {κ : Type} [LinearOrder κ]

structure Marker (κ : Type) where
  key : κ
  stop : Bool
  deriving DecidableEq, Repr

/-- Markers are ordered by their keys, and at one key an end comes before a start: of two
ranges that touch there, the later one begins. -/
def Marker.Upto (m m' : Marker κ) : Prop := m.key < m'.key ∨ m.key = m'.key ∧ (m.stop = true ∨ m'.stop = false)

instance (m m' : Marker κ) : Decidable (m.Upto m') :=
  inferInstanceAs (Decidable (m.key < m'.key ∨ m.key = m'.key ∧ (m.stop = true ∨ m'.stop = false)))

/-- The greatest marker that is not above the key is a start. -/
def Holds (M : Finset (Marker κ)) (a : κ) : Prop :=
  ∃ m ∈ M, m.stop = false ∧ m.key ≤ a ∧ ∀ m' ∈ M, m'.key ≤ a → m'.Upto m

instance (M : Finset (Marker κ)) (a : κ) : Decidable (Holds M a) :=
  inferInstanceAs (Decidable (∃ m ∈ M, m.stop = false ∧ m.key ≤ a ∧ ∀ m' ∈ M, m'.key ≤ a → m'.Upto m))

/-- Takes markers out one by one; none if one of them is not there. -/
def deleteAll (M : Finset (Marker κ)) : List (Marker κ) → Option (Finset (Marker κ))
  | [] => some M
  | m :: ms => if m ∈ M then deleteAll (M.erase m) ms else none

/-- Puts markers in one by one; none if one of them is there already. -/
def insertAll (M : Finset (Marker κ)) : List (Marker κ) → Option (Finset (Marker κ))
  | [] => some M
  | m :: ms => if m ∈ M then none else insertAll (insert m M) ms

theorem deleteAll_eq {M : Finset (Marker κ)} {ms : List (Marker κ)} (hnodup : ms.Nodup) (hin : ∀ m ∈ ms, m ∈ M) :
    deleteAll M ms = some (M \ ms.toFinset) := by
  induction ms generalizing M with
  | nil => rw [deleteAll, toFinset_nil, sdiff_empty]
  | cons m ms ih =>
    obtain ⟨hm, hnodup⟩ := nodup_cons.1 hnodup
    have hin' : ∀ m' ∈ ms, m' ∈ M.erase m := fun m' hm' =>
      mem_erase.2 ⟨fun heq => hm (heq ▸ hm'), hin m' (mem_cons_of_mem _ hm')⟩
    rw [deleteAll, if_pos (hin m mem_cons_self), ih hnodup hin', toFinset_cons,
      sdiff_insert, erase_sdiff_comm]

theorem insertAll_eq {M : Finset (Marker κ)} {ms : List (Marker κ)} (hnodup : ms.Nodup) (hout : ∀ m ∈ ms, m ∉ M) :
    insertAll M ms = some (M ∪ ms.toFinset) := by
  induction ms generalizing M with
  | nil => rw [insertAll, toFinset_nil, union_empty]
  | cons m ms ih =>
    obtain ⟨hm, hnodup⟩ := nodup_cons.1 hnodup
    have hout' : ∀ m' ∈ ms, m' ∉ insert m M := fun m' hm' hmem =>
      (mem_insert.1 hmem).elim (fun heq => hm (heq ▸ hm')) (hout m' (mem_cons_of_mem _ hm'))
    rw [insertAll, if_neg (hout m mem_cons_self), ih hnodup hout', toFinset_cons,
      insert_union, union_insert]

section Ranges
variable (D : κ → Prop) (next : κ → Option κ)

/-- `next` gives the key after a key, among the keys of the domain. -/
structure Next : Prop where
  lt : ∀ {k k'}, D k → next k = some k' → k < k'
  le : ∀ {k k' a}, D k → next k = some k' → D a → k < a → k' ≤ a
  last : ∀ {k a}, D k → next k = none → D a → a ≤ k

/-- The markers of a range. -/
def marks (r : κ × κ) : List (Marker κ) := ⟨r.1, false⟩ :: (next r.2).toList.map (⟨·, true⟩)

/-- The end of a range lies before the start of another: they do not touch. -/
def Before (r r' : κ × κ) : Prop := ∃ k, next r.2 = some k ∧ k < r'.1

/-- Ranges of the domain in order, that neither overlap nor touch. -/
structure Normal (R : List (κ × κ)) : Prop where
  valid : ∀ r ∈ R, D r.1 ∧ D r.2 ∧ r.1 ≤ r.2
  apart : R.Pairwise (Before next)

/-- Every marker but the one end at the first key, which may stand or not, is of a range. -/
def Tracks (first : κ) (M : Finset (Marker κ)) (R : List (κ × κ)) : Prop :=
  ∀ m, m ≠ ⟨first, true⟩ → (m ∈ M ↔ ∃ r ∈ R, m ∈ marks next r)

variable {D next} {R R' : List (κ × κ)} {r r' : κ × κ} {m : Marker κ} {first a : κ} {M : Finset (Marker κ)}

omit [LinearOrder κ] in
theorem mem_marks : m ∈ marks next r ↔ m = ⟨r.1, false⟩ ∨ ∃ k, next r.2 = some k ∧ m = ⟨k, true⟩ := by
  simp [marks, eq_comm]

theorem Normal.eq_or_before (h : Normal D next R) (hr : r ∈ R) (hr' : r' ∈ R) :
    r = r' ∨ Before next r r' ∨ Before next r' r := by
  have hp : R.Pairwise fun r r' => r = r' ∨ Before next r r' ∨ Before next r' r := h.apart.imp fun h => .inr (.inl h)
  have : Std.Symm fun r r' => r = r' ∨ Before next r r' ∨ Before next r' r :=
    ⟨fun _ _ => Or.imp Eq.symm Or.symm⟩
  exact hp.forall_of_forall (fun _ _ => .inl rfl) hr hr'

section
variable (hnext : Next D next)
include hnext

theorem Next.first_le_key (hr : D r.1 ∧ D r.2 ∧ r.1 ≤ r.2) (hm : m ∈ marks next r) : r.1 ≤ m.key := by
  rcases mem_marks.1 hm with rfl | ⟨k, hk, rfl⟩
  · exact le_rfl
  · exact hr.2.2.trans (hnext.lt hr.2.1 hk).le

theorem Next.key_lt_of_before (hr : D r.1 ∧ D r.2 ∧ r.1 ≤ r.2) (hb : Before next r r') (hm : m ∈ marks next r) :
    m.key < r'.1 := by
  obtain ⟨k, hk, hlt⟩ := hb
  rcases mem_marks.1 hm with rfl | ⟨k', hk', rfl⟩
  · exact (hr.2.2.trans_lt (hnext.lt hr.2.1 hk)).trans hlt
  · rw [hk] at hk'
    cases hk'
    exact hlt

section
variable (h : Normal D next R)
include h

/-- Ranges that do not touch share no marker. -/
theorem Normal.eq_of_mem_marks (hr : r ∈ R) (hr' : r' ∈ R)
    (hm : m ∈ marks next r) (hm' : m ∈ marks next r') : r = r' := by
  rcases h.eq_or_before hr hr' with heq | hb | hb
  · exact heq
  · exact absurd (hnext.key_lt_of_before (h.valid r hr) hb hm) (not_lt_of_ge (hnext.first_le_key (h.valid r' hr') hm'))
  · exact absurd (hnext.key_lt_of_before (h.valid r' hr') hb hm') (not_lt_of_ge (hnext.first_le_key (h.valid r hr) hm))

theorem Normal.nodup_marks : (R.flatMap (marks next)).Nodup := by
  rw [nodup_flatMap]
  constructor
  · intro r hr
    cases hn : next r.2 <;> simp [marks, hn]
  · have hdisj : R.Pairwise fun r r' => Before next r r' ∧ r ∈ R ∧ r' ∈ R :=
      h.apart.imp_of_mem fun hr hr' hb => ⟨hb, hr, hr'⟩
    refine hdisj.imp ?_
    rintro r r' ⟨hb, hr, hr'⟩ m hm hm'
    exact absurd (hnext.key_lt_of_before (h.valid r hr) hb hm) (not_lt_of_ge (hnext.first_le_key (h.valid r' hr') hm'))

theorem Normal.ne_first (hfirst : ∀ k, D k → first ≤ k) (hr : r ∈ R)
    (hm : m ∈ marks next r) : m ≠ ⟨first, true⟩ := by
  obtain ⟨-, hlast, -⟩ := h.valid r hr
  rcases mem_marks.1 hm with rfl | ⟨k, hk, rfl⟩
  · simp
  · intro heq
    cases heq
    exact absurd (hnext.lt hlast hk) (not_lt_of_ge (hfirst _ hlast))

/-- Markers of ranges hold what the ranges hold. -/
theorem Tracks.holds_iff (hfirst : ∀ k, D k → first ≤ k) (hM : Tracks next first M R) (ha : D a) :
    Holds M a ↔ ∃ r ∈ R, r.1 ≤ a ∧ a ≤ r.2 := by
  constructor
  · rintro ⟨m, hm, hstop, hle, hgreatest⟩
    have hne : m ≠ ⟨first, true⟩ := fun heq => by
      rw [heq] at hstop
      cases hstop
    obtain ⟨r, hr, hmr⟩ := (hM m hne).1 hm
    obtain ⟨-, hD, hle'⟩ := h.valid r hr
    have hkey : m = ⟨r.1, false⟩ := (mem_marks.1 hmr).resolve_right fun ⟨k, _, heq⟩ => by
      rw [heq] at hstop
      cases hstop
    rw [hkey] at hle hgreatest
    refine ⟨r, hr, hle, not_lt.1 fun hlt => ?_⟩
    -- beyond the range's last key, its end is a later marker
    cases hn : next r.2 with
    | none => exact absurd hlt (not_lt_of_ge (hnext.last hD hn ha))
    | some k =>
      have hend : (⟨k, true⟩ : Marker κ) ∈ marks next r := mem_marks.2 (.inr ⟨k, hn, rfl⟩)
      have hupto := hgreatest _ ((hM _ (h.ne_first hnext hfirst hr hend)).2 ⟨r, hr, hend⟩) (hnext.le hD hn ha hlt)
      have hafter : r.1 < k := hle'.trans_lt (hnext.lt hD hn)
      rcases hupto with hbefore | ⟨heq, -⟩
      · exact absurd hbefore hafter.asymm
      · exact absurd heq hafter.ne'
  · rintro ⟨r, hr, hle, hge⟩
    have hstart : (⟨r.1, false⟩ : Marker κ) ∈ marks next r := mem_marks.2 (.inl rfl)
    refine ⟨⟨r.1, false⟩, (hM _ (by simp)).2 ⟨r, hr, hstart⟩, rfl, hle, fun m' hm' hle' => ?_⟩
    by_cases hne : m' = ⟨first, true⟩
    · subst hne
      rcases (hfirst _ (h.valid r hr).1).lt_or_eq with hlt | heq
      · exact .inl hlt
      · exact .inr ⟨heq, .inl rfl⟩
    obtain ⟨r', hr', hmr'⟩ := (hM m' hne).1 hm'
    rcases h.eq_or_before hr hr' with rfl | hb | hb
    · rcases mem_marks.1 hmr' with rfl | ⟨k, hk, rfl⟩
      · exact .inr ⟨rfl, .inr rfl⟩
      · exact absurd (hnext.lt (h.valid r hr).2.1 hk) (not_lt_of_ge (hle'.trans hge))
    · obtain ⟨k, hk, hlt⟩ := hb
      have hlt' := (hnext.lt (h.valid r hr).2.1 hk).trans hlt
      exact absurd (hlt'.trans_le (hnext.first_le_key (h.valid r' hr') hmr')) (not_lt_of_ge (hle'.trans hge))
    · exact .inl (hnext.key_lt_of_before (h.valid r' hr') hb hmr')

/-- Taking out the ranges that are gone and putting in the new ones: the markers of the first
are there, those of the second are not, and what is left is of the new ranges. -/
theorem Tracks.change {gone new : List (κ × κ)} (h' : Normal D next R')
    (hgone : Normal D next gone) (hgone_iff : ∀ r, r ∈ gone ↔ r ∈ R ∧ r ∉ R')
    (hnew : Normal D next new) (hnew_iff : ∀ r, r ∈ new ↔ r ∈ R' ∧ r ∉ R)
    (hfirst : ∀ k, D k → first ≤ k) (hM : Tracks next first M R) :
    ∃ M₁ M₂, deleteAll M (gone.flatMap (marks next)) = some M₁ ∧
      insertAll M₁ (new.flatMap (marks next)) = some M₂ ∧ Tracks next first M₂ R' := by
  have hdelete := deleteAll_eq (M := M) (hgone.nodup_marks hnext) fun m hm => by
    obtain ⟨r, hr, hmr⟩ := mem_flatMap.1 hm
    have hr := ((hgone_iff r).1 hr).1
    exact (hM m (h.ne_first hnext hfirst hr hmr)).2 ⟨r, hr, hmr⟩
  -- what is left is of the ranges that stay
  have hleft : ∀ m, m ≠ ⟨first, true⟩ →
      (m ∈ M \ (gone.flatMap (marks next)).toFinset ↔ ∃ r ∈ R, r ∈ R' ∧ m ∈ marks next r) := by
    intro m hne
    rw [mem_sdiff, mem_toFinset, hM m hne, mem_flatMap]
    constructor
    · rintro ⟨⟨r, hr, hmr⟩, hnot⟩
      exact ⟨r, hr, by_contra fun hr' => hnot ⟨r, (hgone_iff r).2 ⟨hr, hr'⟩, hmr⟩, hmr⟩
    · rintro ⟨r, hr, hr', hmr⟩
      refine ⟨⟨r, hr, hmr⟩, ?_⟩
      rintro ⟨r₁, hr₁, hmr₁⟩
      obtain ⟨hr₁, hr₁'⟩ := (hgone_iff r₁).1 hr₁
      exact hr₁' (h.eq_of_mem_marks hnext hr hr₁ hmr hmr₁ ▸ hr')
  have hinsert := insertAll_eq (M := M \ (gone.flatMap (marks next)).toFinset) (hnew.nodup_marks hnext) fun m hm hmem => by
    obtain ⟨r, hr, hmr⟩ := mem_flatMap.1 hm
    obtain ⟨hr, hr'⟩ := (hnew_iff r).1 hr
    obtain ⟨r₁, hr₁, hr₁', hmr₁⟩ := (hleft m (h'.ne_first hnext hfirst hr hmr)).1 hmem
    exact hr' (h'.eq_of_mem_marks hnext hr hr₁' hmr hmr₁ ▸ hr₁)
  refine ⟨_, _, hdelete, hinsert, fun m hne => ?_⟩
  rw [mem_union, hleft m hne, mem_toFinset, mem_flatMap]
  constructor
  · rintro (⟨r, -, hr', hmr⟩ | ⟨r, hr, hmr⟩)
    · exact ⟨r, hr', hmr⟩
    · exact ⟨r, ((hnew_iff r).1 hr).1, hmr⟩
  · rintro ⟨r, hr', hmr⟩
    by_cases hr : r ∈ R
    · exact .inl ⟨r, hr, hr', hmr⟩
    · exact .inr ⟨r, (hnew_iff r).2 ⟨hr', hr⟩, hmr⟩

end

end

end Ranges

end Markers
