import FeOS.Spec.Redactor

/-! The places that a redactor finds in a buffer, and the end that could begin a value. -/

namespace FeOS.Authn

open Intervals

variable {r : Redactor} {p buf : Bytes} {d i k s : ℕ}

def Hit (r : Redactor) (buf : Bytes) (i : ℕ) : Prop :=
  ∃ p ∈ r.finders, ∃ s < i + 1, p <+: buf.drop s ∧ i < s + p.length

/-- A value stands over the place and begins so far before it. -/
def Over (r : Redactor) (buf : Bytes) (d i : ℕ) : Prop :=
  ∃ p ∈ r.finders, ∃ s < i + 1 - d, p <+: buf.drop s ∧ i < s + p.length

instance (r : Redactor) (buf : Bytes) (i : ℕ) : Decidable (Hit r buf i) :=
  inferInstanceAs (Decidable (∃ p ∈ r.finders, ∃ s < i + 1, _))

instance (r : Redactor) (buf : Bytes) (d i : ℕ) : Decidable (Over r buf d i) :=
  inferInstanceAs (Decidable (∃ p ∈ r.finders, ∃ s < i + 1 - d, _))

theorem hit_iff_over : Hit r buf i ↔ Over r buf 0 i := Iff.rfl

theorem minLen_le_of_mem (hp : p ∈ r.finders) : minLen ≤ p.length := by
  obtain ⟨s, -, hs⟩ := List.mem_flatMap.1 hp
  exact s.long p hs

theorem ne_nil_of_mem (hp : p ∈ r.finders) : p ≠ [] := by
  rintro rfl
  exact absurd (minLen_le_of_mem hp) (by decide)

/-! One value -/

theorem find_eq_none (hp : p ≠ []) (h : find p buf = none) (s : ℕ) : ¬ p <+: buf.drop s := by
  induction buf generalizing s with
  | nil =>
    rwa [List.drop_nil, List.prefix_nil]
  | cons b buf ih =>
    rw [find] at h
    split_ifs at h with hfirst
    cases s with
    | zero => simpa [List.isPrefixOf_iff_prefix] using hfirst
    | succ s => exact ih (Option.map_eq_none_iff.1 h) s

theorem find_eq_some (hp : p ≠ []) (h : find p buf = some s) : p <+: buf.drop s ∧ ∀ j < s, ¬ p <+: buf.drop j := by
  induction buf generalizing s with
  | nil =>
    rw [find] at h
    split_ifs at h with hempty
    exact absurd (List.isEmpty_iff.1 hempty) hp
  | cons b buf ih =>
    rw [find] at h
    split_ifs at h with hfirst
    · cases h
      exact ⟨List.isPrefixOf_iff_prefix.1 hfirst, nofun⟩
    · obtain ⟨s', hs', rfl⟩ := Option.map_eq_some_iff.1 h
      obtain ⟨hat, hbefore⟩ := ih hs'
      refine ⟨hat, fun j hj => ?_⟩
      cases j with
      | zero => simpa [List.isPrefixOf_iff_prefix] using hfirst
      | succ j => exact hbefore j (by omega)

theorem end_le_of_isPrefix (hp : p ≠ []) (h : p <+: buf.drop s) : s + p.length ≤ buf.length := by
  have hlen := h.length_le
  have hpos := List.length_pos_iff.2 hp
  rw [List.length_drop] at hlen
  omega

structure RunsOk (p buf : Bytes) (start : ℕ) (run : Option (ℕ × ℕ)) (l : List (ℕ × ℕ)) : Prop where
  meets : ∀ d ≤ 1, ∀ i, Meets d l i ↔
    Meets d run.toList i ∨ ∃ s, start ≤ s ∧ (s + d ≤ i ∧ i < s + p.length) ∧ p <+: buf.drop s
  lt : ∀ a ∈ l, a.1 < a.2

section Runs

variable {start pos fuel : ℕ} {run : Option (ℕ × ℕ)} {a : ℕ × ℕ} {l : List (ℕ × ℕ)}

theorem RunsOk.of_none (hlt : ∀ a ∈ run, a.1 < a.2) (h : ∀ s, start ≤ s → ¬ p <+: buf.drop s) :
    RunsOk p buf start run run.toList where
  meets d _ i := by
    refine ⟨.inl, fun hi => hi.resolve_right ?_⟩
    rintro ⟨s, hs, -, hat⟩
    exact h s hs hat
  lt a ha := hlt a (Option.mem_toList.1 ha)

theorem occurs_iff (hat : p <+: buf.drop (start + pos)) (hbefore : ∀ j < pos, ¬ p <+: buf.drop (start + j))
    (q : ℕ → Prop) : (∃ s, start ≤ s ∧ q s ∧ p <+: buf.drop s) ↔
      q (start + pos) ∨ ∃ s, start + pos + 1 ≤ s ∧ q s ∧ p <+: buf.drop s := by
  constructor
  · rintro ⟨s, hs, hq, hps⟩
    rcases lt_trichotomy s (start + pos) with hlt | rfl | hgt
    · refine absurd ?_ (hbefore (s - start) (by omega))
      rwa [show start + (s - start) = s by omega]
    · exact .inl hq
    · exact .inr ⟨s, hgt, hq, hps⟩
  · rintro (hq | ⟨s, hs, hq, hps⟩)
    · exact ⟨start + pos, by omega, hq, hat⟩
    · exact ⟨s, by omega, hq, hps⟩

theorem RunsOk.join (hat : p <+: buf.drop (start + pos)) (hbefore : ∀ j < pos, ¬ p <+: buf.drop (start + j))
    (hle : a.1 ≤ start + pos) (hlt : start + pos < a.2) (hend : a.2 ≤ start + pos + p.length)
    (h : RunsOk p buf (start + pos + 1) (some (a.1, start + pos + p.length)) l) : RunsOk p buf start (some a) l where
  meets d hd i := by
    have hjoin := mem_join (i := i) (b := (start + pos, start + pos + p.length)) hd hle hlt
    rw [max_eq_right hend] at hjoin
    rw [h.meets d hd, occurs_iff hat hbefore]
    simp only [Option.toList_some, meets_cons, meets_nil, or_false, hjoin, or_assoc]
  lt := h.lt

theorem RunsOk.next (hat : p <+: buf.drop (start + pos)) (hbefore : ∀ j < pos, ¬ p <+: buf.drop (start + j))
    (hlt : ∀ a ∈ run, a.1 < a.2) (h : RunsOk p buf (start + pos + 1) (some (start + pos, start + pos + p.length)) l) :
    RunsOk p buf start run (run.toList ++ l) where
  meets d hd i := by
    rw [meets_append, h.meets d hd, occurs_iff hat hbefore]
    simp only [Option.toList_some, meets_cons, meets_nil, or_false]
  lt a ha := (List.mem_append.1 ha).elim (fun hr => hlt a (Option.mem_toList.1 hr)) (h.lt a)

theorem runs_ok (hp : p ≠ []) (hfuel : buf.length < fuel + start)
    (hrun : ∀ a ∈ run, a.1 < start ∧ a.1 < a.2 ∧ a.2 < start + p.length) :
    RunsOk p buf start run (runs p buf fuel start run) := by
  have hpos := List.length_pos_iff.2 hp
  induction fuel generalizing start run with
  | zero =>
    refine .of_none (fun a ha => (hrun a ha).2.1) fun s hs hat => ?_
    have := end_le_of_isPrefix hp hat
    omega
  | succ fuel ih =>
    rw [runs]
    cases hfind : find p (buf.drop start) with
    | none =>
      refine .of_none (fun a ha => (hrun a ha).2.1) fun s hs hat => ?_
      refine find_eq_none hp hfind (s - start) ?_
      rwa [List.drop_drop, show start + (s - start) = s by omega]
    | some pos =>
      obtain ⟨hat, hbefore⟩ := find_eq_some hp hfind
      rw [List.drop_drop] at hat
      have hbefore' : ∀ j < pos, ¬ p <+: buf.drop (start + j) := by
        intro j hj
        have := hbefore j hj
        rwa [List.drop_drop] at this
      have hnew : ∀ {b : ℕ}, b ≤ start + pos → ∀ a ∈ some (b, start + pos + p.length),
          a.1 < start + pos + 1 ∧ a.1 < a.2 ∧ a.2 < start + pos + 1 + p.length := by
        rintro b hb a ⟨⟩
        omega
      cases run with
      | none => exact RunsOk.next hat hbefore' nofun (ih (by omega) (hnew le_rfl))
      | some a =>
        obtain ⟨hbegin, hlt, hend⟩ := hrun a rfl
        dsimp only
        split_ifs with hover
        · exact .join hat hbefore' (by omega) hover (by omega) (ih (by omega) (hnew (by omega)))
        · exact RunsOk.next hat hbefore' (fun b hb => (hrun b hb).2.1) (ih (by omega) (hnew le_rfl))

end Runs

/-! All values -/

theorem runs_whole (hp : p ∈ r.finders) : RunsOk p buf 0 none (runs p buf (buf.length + 1) 0 none) :=
  runs_ok (ne_nil_of_mem hp) (by omega) nofun

theorem meets_found (hd : d ≤ 1) : Meets d (r.found buf k) i ↔ (d ≤ i ∧ i < min k buf.length) ∨ Over r buf d i := by
  have hfirst : Meets d (if 0 < k then [(0, min k buf.length)] else []) i ↔ d ≤ i ∧ i < min k buf.length := by
    split_ifs with hk
    · simp
    · simp only [meets_nil, false_iff]
      omega
  rw [Redactor.found, meets_append, hfirst, meets_flatMap]
  refine or_congr_right ⟨?_, ?_⟩
  · rintro ⟨p, hp, hi⟩
    obtain ⟨s, -, ⟨hs, hlt⟩, hat⟩ := (((runs_whole hp).meets d hd i).1 hi).resolve_left meets_nil
    exact ⟨p, hp, s, by omega, hat, hlt⟩
  · rintro ⟨p, hp, s, hs, hat, hlt⟩
    exact ⟨p, hp, ((runs_whole hp).meets d hd i).2 (.inr ⟨s, Nat.zero_le s, ⟨by omega, hlt⟩, hat⟩)⟩

theorem lt_of_mem_found {a : ℕ × ℕ} (hbuf : 0 < k → buf ≠ []) (ha : a ∈ r.found buf k) : a.1 < a.2 := by
  rcases List.mem_append.1 ha with ha | ha
  · split_ifs at ha with hk
    · cases List.mem_singleton.1 ha
      have := List.length_pos_iff.2 (hbuf hk)
      exact lt_min hk this
    · cases ha
  · obtain ⟨p, hp, ha⟩ := List.mem_flatMap.1 ha
    exact (runs_whole hp).lt a ha

theorem sorted_found (l : List (ℕ × ℕ)) : (l.insertionSort lexLe).Pairwise fun a b => a.1 ≤ b.1 := by
  have htotal : Std.Total lexLe := ⟨fun a b => by
    unfold lexLe
    omega⟩
  have htrans : IsTrans (ℕ × ℕ) lexLe := ⟨fun a b c hab hbc => by
    unfold lexLe at *
    omega⟩
  refine (List.pairwise_insertionSort lexLe l).imp fun {a b} hab => ?_
  unfold lexLe at hab
  omega

/-- What `spans` gives: the places that the values stand over and those found before, in order and apart. -/
structure SpansOk (r : Redactor) (buf : Bytes) (k : ℕ) (l : List (ℕ × ℕ)) : Prop where
  meets : ∀ d ≤ 1, ∀ i, Meets d l i ↔ (d ≤ i ∧ i < min k buf.length) ∨ Over r buf d i
  apart : Apart l

theorem spans_ok (hbuf : 0 < k → buf ≠ []) : SpansOk r buf k (r.spans buf k) := by
  have hmem : ∀ a, a ∈ (r.found buf k).insertionSort lexLe ↔ a ∈ r.found buf k :=
    fun a => (List.perm_insertionSort lexLe _).mem_iff
  unfold Redactor.spans
  dsimp only
  split_ifs with hlen
  · have hsorted := sorted_found (r.found buf k)
    cases hl : (r.found buf k).insertionSort lexLe with
    | nil =>
      rw [← List.length_insertionSort lexLe, hl] at hlen
      cases hlen
    | cons a l =>
      rw [hl] at hsorted hmem
      refine ⟨fun d hd i => ?_, apart_mergeInto hsorted fun b hb => lt_of_mem_found hbuf ((hmem b).1 hb)⟩
      rw [merge, meets_mergeInto hsorted hd, meets_congr hmem, meets_found hd]
  · refine ⟨fun d hd i => meets_found hd, fun a ha => lt_of_mem_found hbuf ha, ?_⟩
    rcases hl : r.found buf k with _ | ⟨a, _ | ⟨b, l⟩⟩
    · exact List.Pairwise.nil
    · exact List.pairwise_singleton _ _
    · rw [hl] at hlen
      simp at hlen

/-! The end that waits -/

theorem le_endLen (p buf : Bytes) (best : ℕ) : best ≤ endLen p buf best := by
  unfold endLen
  dsimp only
  split_ifs
  · exact le_rfl
  · split
    · split_ifs
      · exact le_rfl
      · omega
    · exact le_rfl

theorem endLen_le (p buf : Bytes) (best : ℕ) : endLen p buf best ≤ max best (min (p.length - 1) buf.length) := by
  unfold endLen
  dsimp only
  split_ifs
  · omega
  · split
    · split_ifs
      · omega
      · omega
    · omega

theorem ne_take_of_endLen_lt {best l : ℕ} (h : endLen p buf best < l) (hl : l < p.length) (hbuf : l ≤ buf.length) :
    buf.drop (buf.length - l) ≠ p.take l := by
  intro heq
  unfold endLen at h
  dsimp only at h
  have hw : l ≤ min (p.length - 1) buf.length := by omega
  generalize hwdef : min (p.length - 1) buf.length = w at h hw
  split_ifs at h with hle
  · omega
  · have hdrop : ∀ i ≤ w, (buf.drop (buf.length - w)).drop i = buf.drop (buf.length - (w - i)) := by
      intro i hi
      rw [List.drop_drop]
      congr 1
      omega
    -- the place of this end passes the test
    have htest : (buf.drop (buf.length - w))[w - l]? = p[0]? ∧
        (w - (w - l) ≤ best ∨ (buf.drop (buf.length - w)).drop (w - l) = p.take (w - (w - l))) := by
      have hback : w - (w - l) = l := by omega
      have hmatch : (buf.drop (buf.length - w)).drop (w - l) = p.take l := by
        rw [hdrop _ (by omega), hback, heq]
      refine ⟨?_, .inr (by rw [hback, hmatch])⟩
      have hfirst := congrArg (fun x : Bytes => x[0]?) hmatch
      simpa [List.getElem?_take, show 0 < l by omega] using hfirst
    split at h
    · rename_i i hfind
      obtain ⟨-, hmem, hfirst⟩ := List.find?_range_eq_some.1 hfind
      have hile : i ≤ w - l := by
        by_contra hgt
        have hfail := hfirst (w - l) (not_le.1 hgt)
        rw [decide_eq_true htest] at hfail
        cases hfail
      split_ifs at h with hsmall
      · omega
      · omega
    · rename_i hfind
      have hfail := List.find?_range_eq_none.1 hfind (w - l) (by omega)
      rw [decide_eq_true htest] at hfail
      cases hfail

theorem foldl_endLen (ps : List Bytes) (best : ℕ) :
    best ≤ ps.foldl (fun best p => endLen p buf best) best ∧
    (∀ p ∈ ps, ∀ l, ps.foldl (fun best p => endLen p buf best) best < l → l < p.length → l ≤ buf.length →
      buf.drop (buf.length - l) ≠ p.take l) ∧
    (best ≤ buf.length → ps.foldl (fun best p => endLen p buf best) best ≤ buf.length) ∧
    (best < ps.foldl (fun best p => endLen p buf best) best →
      ∃ p ∈ ps, ps.foldl (fun best p => endLen p buf best) best < p.length) := by
  induction ps generalizing best with
  | nil => exact ⟨le_rfl, nofun, id, fun h => absurd h (lt_irrefl _)⟩
  | cons p ps ih =>
    obtain ⟨hle, hnone, hbuf, hlong⟩ := ih (endLen p buf best)
    have hstep := le_endLen p buf best
    have hbound := endLen_le p buf best
    rw [List.foldl_cons]
    refine ⟨hstep.trans hle, fun q hq l hl => ?_, fun hb => hbuf (by omega), fun hlt => ?_⟩
    · rcases List.mem_cons.1 hq with rfl | hq
      · exact ne_take_of_endLen_lt (lt_of_le_of_lt hle hl)
      · exact hnone q hq l hl
    · rcases Nat.lt_or_eq_of_le hle with hmore | hsame
      · obtain ⟨q, hq, hqlen⟩ := hlong hmore
        exact ⟨q, List.mem_cons_of_mem p hq, hqlen⟩
      · refine ⟨p, List.mem_cons_self, ?_⟩
        rw [← hsame] at hlt ⊢
        omega

theorem not_begun (hp : p ∈ r.finders) (hs : s < buf.length - r.partialLen buf) (hlen : buf.length - s < p.length) :
    ¬ buf.drop s <+: p := by
  intro hprefix
  have hend : r.partialLen buf < buf.length - s := by omega
  have hne := (foldl_endLen r.finders 0).2.1 p hp (buf.length - s) hend hlen (by omega)
  rw [show buf.length - (buf.length - s) = s by omega] at hne
  refine hne ?_
  rw [List.prefix_iff_eq_take.1 hprefix, List.length_drop]

theorem partialLen_le (r : Redactor) (buf : Bytes) : r.partialLen buf ≤ buf.length :=
  (foldl_endLen r.finders 0).2.2.1 (Nat.zero_le _)

theorem exists_partialLen_lt (h : 0 < r.partialLen buf) : ∃ p ∈ r.finders, r.partialLen buf < p.length :=
  (foldl_endLen r.finders 0).2.2.2 h

end FeOS.Authn
