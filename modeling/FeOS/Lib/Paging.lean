import Mathlib.Data.List.Basic
import Mathlib.Order.Basic

/-! Reading a set in pages. A page that does not end the reading gives a cursor, and the next one goes on
after it. -/

namespace Paging

open List

variable {α C : Type}

/-- The order of what is read, and what comes after a cursor; there is none at first. -/
structure Order (α C : Type) where
  lt : α → α → Prop
  after : Option C → α → Prop

/-- What a page passes: what comes after its cursor, but not after the next one. -/
def Order.passed (o : Order α C) (c next : Option C) (l : α) : Prop :=
  o.after c l ∧ ∀ c', next = some c' → ¬ o.after (some c') l

/-- A page after `c`: in order, of what it passes, and the next one goes on after it. -/
structure Turn (o : Order α C) (c : Option C) (lines : List α) (next : Option C) : Prop where
  sorted : lines.Pairwise o.lt
  within : ∀ l ∈ lines, o.passed c next l
  upTo : ∀ c', next = some c' → ∀ l ∈ lines, ∀ l', o.after (some c') l' → o.lt l l'
  onward : ∀ c', next = some c' → ∀ l, o.after (some c') l → o.after c l

/-- The cursors followed until there is none, for so many pages. -/
def follow (read : Option C → Option (List α × Option C)) : ℕ → Option C → Option (List α)
  | 0, _ => none
  | n + 1, c =>
    (read c).bind fun page => match page.2 with
      | none => some page.1
      | some c' => (follow read n (some c')).map (page.1 ++ ·)

/-- The cursors that are come to. -/
inductive Reached (read : Option C → Option (List α × Option C)) : Option C → Option C → Prop
  | here (c : Option C) : Reached read c c
  | next {c x lines c'} (hread : read c = some (lines, some c')) (hx : Reached read (some c') x) : Reached read c x

/-- A reading that ended, and what its pages give. -/
inductive Follows (read : Option C → Option (List α × Option C)) : Option C → List α → Prop
  | last {c out} (hread : read c = some (out, none)) : Follows read c out
  | more {c lines c' rest} (hread : read c = some (lines, some c')) (hrest : Follows read (some c') rest) :
      Follows read c (lines ++ rest)

variable {o : Order α C} {read : Option C → Option (List α × Option C)} {c x next : Option C}
    {out lines : List α} {n : ℕ} {l : α}

theorem Reached.step {c' : C} (h : Reached read c x) (hread : read x = some (lines, some c')) :
    Reached read c (some c') := by
  induction h with
  | here c => exact .next hread (.here _)
  | next hread' _ ih => exact .next hread' (ih hread)

theorem follows_of_follow (h : follow read n c = some out) : Follows read c out := by
  induction n generalizing c out with
  | zero => cases h
  | succ n ih =>
    obtain ⟨⟨lines, next⟩, hread, hout⟩ := Option.bind_eq_some_iff.1 h
    cases next with
    | none =>
      cases hout
      exact .last hread
    | some c' =>
      obtain ⟨rest, hrest, rfl⟩ := Option.map_eq_some_iff.1 hout
      exact .more hread (ih hrest)

theorem Follows.of_reached (h : Follows read c out) (hx : Reached read c x) : ∃ rest, Follows read x rest := by
  induction hx generalizing out with
  | here => exact ⟨out, h⟩
  | next hread _ ih =>
    cases h with
    | last hlast => cases hread.symm.trans hlast
    | more hread' hrest =>
      cases hread.symm.trans hread'
      exact ih hrest

/-- A reading whose page gives the page's own cursor does not end. -/
theorem Follows.next_ne {c' : C} (h : Follows read c out) (hread : read c = some (lines, some c')) : c ≠ some c' := by
  induction h with
  | last hlast => cases hread.symm.trans hlast
  | more hread' _ ih =>
    cases hread.symm.trans hread'
    rintro rfl
    exact ih hread rfl

/-- What is read is of one of the pages. -/
theorem Follows.exists_page (h : Follows read c out) (hl : l ∈ out) :
    ∃ x lines next, Reached read c x ∧ read x = some (lines, next) ∧ l ∈ lines := by
  induction h with
  | last hread => exact ⟨_, _, none, .here _, hread, hl⟩
  | @more c lines c' rest hread _ ih =>
    rcases mem_append.1 hl with hl | hl
    · exact ⟨c, lines, some c', .here c, hread, hl⟩
    · obtain ⟨x, lines', next, hx, hpage⟩ := ih hl
      exact ⟨x, lines', next, .next hread hx, hpage⟩

section
variable (hturn : ∀ x lines next, Reached read c x → read x = some (lines, next) → Turn o x lines next)
include hturn

theorem Follows.after_of_mem (h : Follows read c out) (hl : l ∈ out) : o.after c l := by
  induction h with
  | last hread => exact ((hturn _ _ none (.here _) hread).within l hl).1
  | @more c lines c' rest hread _ ih =>
    have hpage := hturn c lines (some c') (.here c) hread
    rcases mem_append.1 hl with hl | hl
    · exact (hpage.within l hl).1
    · exact hpage.onward c' rfl l (ih (fun x lines next hx => hturn x lines next (.next hread hx)) hl)

theorem Follows.sorted (h : Follows read c out) : out.Pairwise o.lt := by
  induction h with
  | last hread => exact (hturn _ _ none (.here _) hread).sorted
  | @more c lines c' rest hread hrest ih =>
    have hpage := hturn c lines (some c') (.here c) hread
    have hrests := fun x lines next hx => hturn x lines next (.next hread hx)
    refine pairwise_append.2 ⟨hpage.sorted, ih hrests, fun l hl l' hl' => ?_⟩
    exact hpage.upTo c' rfl l hl l' (hrest.after_of_mem hrests hl')

/-- A reading that ended has all that is wanted exactly if every page has what is wanted of what it passes. -/
theorem Follows.complete_iff (want : α → Prop) (h : Follows read c out) :
    (∀ l, want l → o.after c l → l ∈ out) ↔
      ∀ x lines next, Reached read c x → read x = some (lines, next) → ∀ l, want l → o.passed x next l → l ∈ lines := by
  induction h with
  | @last c out hread =>
    constructor
    · intro hall x lines' next hx hread' l hl hpass
      cases hx with
      | here =>
        cases hread.symm.trans hread'
        exact hall l hl hpass.1
      | next hread₂ _ => cases hread.symm.trans hread₂
    · exact fun hall l hl hafter => hall c out none (.here c) hread l hl ⟨hafter, by simp⟩
  | @more c lines c' rest hread hrest ih =>
    have hpage := hturn c lines (some c') (.here c) hread
    have hrests := fun x lines next hx => hturn x lines next (.next hread hx)
    have hnext : ∀ l, o.after (some c') l → l ∉ lines := fun l hafter hl => (hpage.within l hl).2 c' rfl hafter
    constructor
    · intro hall
      have htail := (ih hrests).1 fun l hl hafter =>
        (mem_append.1 (hall l hl (hpage.onward c' rfl l hafter))).resolve_left (hnext l hafter)
      intro x lines' next hx hread' l hl hpass
      cases hx with
      | here =>
        cases hread.symm.trans hread'
        refine (mem_append.1 (hall l hl hpass.1)).resolve_right fun hmem => ?_
        exact hpass.2 c' rfl (hrest.after_of_mem hrests hmem)
      | next hread₂ hx =>
        cases hread.symm.trans hread₂
        exact htail x lines' next hx hread' l hl hpass
    · intro hall l hl hafter
      by_cases hlater : o.after (some c') l
      · have htail := (ih hrests).2 fun x lines next hx => hall x lines next (.next hread hx)
        exact mem_append_right _ (htail l hl hlater)
      · refine mem_append_left _ (hall c lines (some c') (.here c) hread l hl ⟨hafter, fun c'' hc => ?_⟩)
        cases hc
        exact hlater

end

/-- If every page brings the end nearer, the reading ends. -/
theorem exists_follow (left : Option C → ℕ)
    (hpage : ∀ x, Reached read c x → ∃ lines next, read x = some (lines, next) ∧
      ∀ c', next = some c' → left (some c') < left x) : ∃ n out, follow read n c = some out := by
  induction hn : left c using Nat.strongRecOn generalizing c with
  | _ k ih =>
    obtain ⟨lines, next, hread, hnext⟩ := hpage c (.here c)
    cases next with
    | none => exact ⟨1, lines, by simp [follow, hread]⟩
    | some c' =>
      obtain ⟨n, out, hfollow⟩ := ih _ (hn ▸ hnext c' rfl) (fun x hx => hpage x (.next hread hx)) rfl
      exact ⟨n + 1, lines ++ out, by simp [follow, hread, hfollow]⟩

end Paging
