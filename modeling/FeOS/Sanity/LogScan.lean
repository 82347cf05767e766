import FeOS.Spec.LogRead

/-! The scan of the index: what its searches show of the documents, what the loop makes of that, and that
it ends. -/

namespace FeOS.Logs

open List

variable {q : Query} {a b c : Pos} {d d' h last : Doc}

/-! The order of a scan -/

namespace Query

theorem before_irrefl (q : Query) (a : Pos) : ¬ q.before a a := by
  unfold before Pos.lt
  split_ifs <;> omega

theorem before_trans (hab : q.before a b) (hbc : q.before b c) : q.before a c := by
  unfold before Pos.lt at *
  split_ifs at * <;> omega

theorem before_or (q : Query) (a b : Pos) : q.before a b ∨ a = b ∨ q.before b a := by
  obtain ⟨t, s, o⟩ := a
  obtain ⟨t', s', o'⟩ := b
  unfold before Pos.lt
  split_ifs <;> simp only [Pos.mk.injEq] <;> omega

theorem before_of_not (h : ¬ q.before b a) (hbc : q.before b c) : q.before a c := by
  rcases q.before_or a b with hab | rfl | hba
  · exact before_trans hab hbc
  · exact hbc
  · exact absurd hba h

theorem before_of_before_not (hab : q.before a b) (h : ¬ q.before c b) : q.before a c := by
  rcases q.before_or b c with hbc | rfl | hcb
  · exact before_trans hab hbc
  · exact hab
  · exact absurd hcb h

end Query

/-! What the loop makes of the hits -/

section
variable {streams : List StreamRow} {docs docs' hits index : List Doc} {s : Scan} {st : StreamRow} {l : Line}

structure Heads (streams : List StreamRow) (d : Doc) (st : StreamRow) : Prop where
  row : bySID streams d.stream = some st
  head : d.cont = false

theorem Heads.unique {st' : StreamRow} (h : Heads streams d st) (h' : Heads streams d st') : st = st' :=
  Option.some.inj (h.row.symm.trans h'.row)

/-- The line of a document, if a read of it takes it. -/
def Takes (q : Query) (streams : List StreamRow) (d : Doc) (l : Line) : Prop :=
  ∃ st, Heads streams d st ∧ l = lineOf d st.id ∧ q.inRange l = true ∧ (l.part || q.passes l) = true

def Candidate (q : Query) (streams : List StreamRow) (docs : List Doc) (l : Line) : Prop := ∃ d ∈ docs, Takes q streams d l

theorem candidate_cons : Candidate q streams (d :: docs) l ↔ Takes q streams d l ∨ Candidate q streams docs l := by
  simp [Candidate]

theorem candidate_append : Candidate q streams (docs ++ docs') l ↔
    Candidate q streams docs l ∨ Candidate q streams docs' l := by
  simp [Candidate, or_and_right, exists_or]

def Distinct (streams : List StreamRow) (docs : List Doc) : Prop :=
  ∀ d ∈ docs, ∀ d' ∈ docs, ∀ st st', bySID streams d.stream = some st → bySID streams d'.stream = some st' →
    st.id = st'.id → d.off = d'.off → d = d' ∧ st = st'

/-- What was seen is in the lines, where it is taken. -/
def Scan.Has (q : Query) (streams : List StreamRow) (docs : List Doc) (s : Scan) : Prop :=
  ∀ d ∈ docs, ∀ st, Heads streams d st → (st.id, d.off) ∈ s.seen → ∀ l, Takes q streams d l → l ∈ s.out

theorem Scan.hit_cases (q : Query) (streams : List StreamRow) (s : Scan) (fresh : ℕ) (h : Doc) :
    (Scan.hit q streams none (s, fresh) h = (s, fresh) ∧ ∀ st, Heads streams h st → (st.id, h.off) ∈ s.seen) ∨
    ∃ st, Heads streams h st ∧ (st.id, h.off) ∉ s.seen ∧ ∃ s', Scan.hit q streams none (s, fresh) h = (s', fresh + 1) ∧
      s'.seen = (st.id, h.off) :: s.seen ∧ s'.sinceNs = s.sinceNs ∧ s'.untilNs = s.untilNs ∧
      s'.out = if q.inRange (lineOf h st.id) && ((lineOf h st.id).part || q.passes (lineOf h st.id)) then
        s.out ++ [lineOf h st.id] else s.out := by
  unfold Scan.hit
  split
  · rename_i hrow
    refine .inl ⟨rfl, fun st hst => ?_⟩
    simp [hst.row] at hrow
  · rename_i st hrow
    split_ifs with hcont hseen
    · refine .inl ⟨rfl, fun st' hst => ?_⟩
      simp [hst.head] at hcont
    · refine .inl ⟨rfl, fun st' hst => ?_⟩
      rw [hst.row] at hrow
      cases hrow
      exact hseen
    · refine .inr ⟨st, ⟨hrow, by simpa using hcont⟩, hseen, _, rfl, rfl, rfl, rfl, ?_⟩
      simp

variable {fresh : ℕ} {s' : Scan}

/-- What a hit, or several, add. -/
structure Scan.Took (q : Query) (streams : List StreamRow) (docs hits : List Doc) (s s' : Scan) : Prop where
  has : s'.Has q streams docs
  out : ∀ l, l ∈ s'.out ↔ l ∈ s.out ∨ Candidate q streams hits l
  seen : s.seen ⊆ s'.seen
  since : s'.sinceNs = s.sinceNs
  till : s'.untilNs = s.untilNs

theorem mem_add {p : Line → Bool} {x : Line} {xs : List Line} :
    l ∈ (if p x then xs ++ [x] else xs) ↔ l ∈ xs ∨ (l = x ∧ p l = true) := by
  split_ifs with hp
  · rw [mem_append, mem_singleton]
    exact or_congr_right ⟨fun hl => ⟨hl, hl ▸ hp⟩, fun hl => hl.1⟩
  · refine ⟨.inl, fun hl => hl.resolve_right ?_⟩
    rintro ⟨rfl, hpl⟩
    exact hp hpl

theorem Heads.takes_iff (hst : Heads streams d st) :
    Takes q streams d l ↔ l = lineOf d st.id ∧ (q.inRange l && (l.part || q.passes l)) = true := by
  rw [Bool.and_eq_true]
  constructor
  · rintro ⟨st', hst', hl⟩
    rwa [hst.unique hst']
  · exact fun hl => ⟨st, hst, hl⟩

theorem Scan.Has.hit (fresh : ℕ) (hdist : Distinct streams docs) (hs : s.Has q streams docs) (hh : h ∈ docs) :
    Scan.Took q streams docs [h] s (Scan.hit q streams none (s, fresh) h).1 := by
  rcases Scan.hit_cases q streams s fresh h with ⟨heq, hseen⟩ | ⟨st, hst, hnew, s', heq, hseen, hsi, hun, hout⟩
  · rw [heq]
    refine ⟨hs, fun l => ⟨.inl, ?_⟩, List.Subset.refl _, rfl, rfl⟩
    rintro (hl | ⟨d, hd, hl⟩)
    · exact hl
    · obtain rfl := mem_singleton.1 hd
      obtain ⟨st, hst, _⟩ := id hl
      exact hs d hh st hst (hseen st hst) l hl
  · rw [heq]
    have hmem : ∀ l, l ∈ s'.out ↔ l ∈ s.out ∨ Candidate q streams [h] l := by
      intro l
      rw [hout, mem_add (p := fun l => q.inRange l && (l.part || q.passes l)), ← hst.takes_iff]
      simp [Candidate]
    refine ⟨fun d hd st' hst' hin l hl => ?_, hmem, hseen ▸ subset_cons_self _ _, hsi, hun⟩
    rw [hseen, mem_cons, Prod.mk.injEq] at hin
    rcases hin with ⟨hid, hoff⟩ | hin
    · obtain ⟨rfl, _⟩ := hdist d hd h hh st' st hst'.row hst.row hid hoff
      exact (hmem l).2 (.inr ⟨d, mem_singleton_self _, hl⟩)
    · exact (hmem l).2 (.inl (hs d hd st' hst' hin l hl))

theorem Scan.Has.fold (fresh : ℕ) (hdist : Distinct streams docs) (hs : s.Has q streams docs) (hh : ∀ h ∈ hits, h ∈ docs) :
    Scan.Took q streams docs hits s (hits.foldl (Scan.hit q streams none) (s, fresh)).1 := by
  induction hits generalizing s fresh with
  | nil => exact ⟨hs, by simp [Candidate], List.Subset.refl _, rfl, rfl⟩
  | cons h hits ih =>
    have h1 := hs.hit fresh hdist (hh h mem_cons_self)
    have h2 := ih (Scan.hit q streams none (s, fresh) h).2 h1.has fun x hx => hh x (mem_cons_of_mem _ hx)
    rw [foldl_cons]
    refine ⟨h2.has, fun l => ?_, List.Subset.trans h1.seen h2.seen, h2.since.trans h1.since, h2.till.trans h1.till⟩
    rw [h2.out, h1.out, candidate_cons, or_assoc]
    simp [Candidate]

/-- Where something was fresh, a document was seen for the first time. -/
theorem Scan.exists_fresh (hne : (hits.foldl (Scan.hit q streams none) (s, fresh)).2 ≠ fresh) (hs : s.Has q streams docs)
    (hdist : Distinct streams docs) (hh : ∀ h ∈ hits, h ∈ docs) :
    ∃ h ∈ hits, ∃ st, Heads streams h st ∧ (st.id, h.off) ∉ s.seen ∧
      (st.id, h.off) ∈ (hits.foldl (Scan.hit q streams none) (s, fresh)).1.seen := by
  induction hits generalizing s fresh with
  | nil => exact absurd rfl hne
  | cons h hits ih =>
    have h1 := hs.hit fresh hdist (hh h mem_cons_self)
    have hrest := fun x hx => hh x (mem_cons_of_mem h hx)
    rcases Scan.hit_cases q streams s fresh h with ⟨heq, _⟩ | ⟨st, hst, hnew, s', heq, hseen, _⟩
    · rw [foldl_cons, heq] at hne ⊢
      obtain ⟨x, hx, hxs⟩ := ih hne hs hrest
      exact ⟨x, mem_cons_of_mem _ hx, hxs⟩
    · refine ⟨h, mem_cons_self, st, hst, hnew, ?_⟩
      rw [foldl_cons]
      rw [heq] at h1 ⊢
      exact (h1.has.fold (fresh + 1) hdist hrest).seen (hseen ▸ mem_cons_self)

/-! The loop -/

variable {finds : Doc → Bool} {search : Search} {scanLimit fuel : ℕ} {out : List Line} {through : Option Pos}

/-- The documents that the searches of the loop show. -/
def shownLoop (search : Search) (q : Query) (streams : List StreamRow) (scanLimit : ℕ) : ℕ → Scan → List Doc
  | 0, _ => []
  | fuel + 1, s =>
    if 0 < s.untilNs ∧ s.untilNs < s.sinceNs then []
    else
      let hits := search q.forward s.sinceNs s.untilNs (maxOf q.limit)
      let (s', fresh) := hits.foldl (Scan.hit q streams none) (s, 0)
      match hits.getLast? with
      | none => hits
      | some last =>
        if hits.length < maxOf q.limit ∨ q.limit ≤ s'.out.length then hits
        else if scanLimit ≤ s'.scanned then hits
        else hits ++ shownLoop search q streams scanLimit fuel (s'.goOn q.forward last.ts fresh)

theorem Scan.goOn_out (s : Scan) (forward : Bool) (ts : ℤ) (fresh : ℕ) :
    (s.goOn forward ts fresh).out = s.out ∧ (s.goOn forward ts fresh).seen = s.seen := by
  unfold Scan.goOn
  split_ifs <;> exact ⟨rfl, rfl⟩

theorem Scan.Has.goOn (hs : s.Has q streams docs) (ts : ℤ) (fresh : ℕ) : (s.goOn q.forward ts fresh).Has q streams docs := by
  obtain ⟨hout, hseen⟩ := s.goOn_out q.forward ts fresh
  unfold Scan.Has
  rw [hout, hseen]
  exact hs

theorem mem_shownLoop (hd : d ∈ shownLoop search q streams scanLimit fuel s) :
    ∃ since till, d ∈ search q.forward since till (maxOf q.limit) := by
  induction fuel generalizing s with
  | zero => cases hd
  | succ fuel ih =>
    unfold shownLoop at hd
    split_ifs at hd
    · cases hd
    · simp only at hd
      split at hd
      · exact ⟨_, _, hd⟩
      · split_ifs at hd
        · exact ⟨_, _, hd⟩
        · exact ⟨_, _, hd⟩
        · rcases mem_append.1 hd with hd | hd
          · exact ⟨_, _, hd⟩
          · exact ih hd

/-- The loop's lines are those of the documents shown, and it stops at the time of one. -/
theorem mem_scanLoop (hdist : Distinct streams docs)
    (hdocs : ∀ since till, search q.forward since till (maxOf q.limit) ⊆ docs)
    (hs : s.Has q streams docs) (heq : scanLoop search q streams none scanLimit fuel s = some (out, through)) :
    (∀ l, l ∈ out ↔ l ∈ s.out ∨ Candidate q streams (shownLoop search q streams scanLimit fuel s) l) ∧
      ∀ p, through = some p → ∃ last ∈ docs, p = stopAt q.forward last.ts := by
  induction fuel generalizing s with
  | zero => cases heq
  | succ fuel ih =>
    unfold scanLoop at heq
    unfold shownLoop
    split_ifs at heq ⊢
    · cases heq
      simp [Candidate]
    · have hsub := hdocs s.sinceNs s.untilNs
      generalize search q.forward s.sinceNs s.untilNs (maxOf q.limit) = hits at hsub heq ⊢
      have htook := hs.fold 0 hdist hsub
      cases hlast : hits.getLast? with
      | none =>
        simp only [hlast] at heq ⊢
        cases heq
        exact ⟨htook.out, by simp⟩
      | some last =>
        simp only [hlast] at heq ⊢
        split_ifs at heq ⊢
        · cases heq
          exact ⟨htook.out, by simp⟩
        · cases heq
          exact ⟨htook.out, fun p hp => ⟨last, hsub (mem_of_getLast? hlast), (Option.some.inj hp).symm⟩⟩
        · obtain ⟨hout, hthrough⟩ := ih (htook.has.goOn _ _) heq
          refine ⟨fun l => ?_, hthrough⟩
          rw [hout, (Scan.goOn_out _ _ _ _).1, htook.out, candidate_append, or_assoc]

/-! The loop ends -/

theorem length_filter_mono {α : Type} {p r : α → Bool} (himp : ∀ y, p y = true → r y = true) (xs : List α) :
    (xs.filter p).length ≤ (xs.filter r).length := by
  rw [← countP_eq_length_filter, ← countP_eq_length_filter]
  exact countP_mono_left fun y _ => himp y

theorem length_filter_lt {α : Type} {p r : α → Bool} {xs : List α} {x : α}
    (himp : ∀ y, p y = true → r y = true) (hx : x ∈ xs)
    (hr : r x = true) (hp : p x = false) : (xs.filter p).length < (xs.filter r).length := by
  obtain ⟨l, l', rfl⟩ := append_of_mem hx
  have h1 := length_filter_mono himp l
  have h2 := length_filter_mono himp l'
  rw [filter_append, filter_append, filter_cons_of_pos hr, filter_cons_of_neg (by simp [hp])]
  simp only [length_append, length_cons]
  omega

def Scan.unseen (streams : List StreamRow) (s : Scan) (d : Doc) : Bool :=
  (bySID streams d.stream).any fun st => !s.seen.contains (st.id, d.off)

theorem Scan.unseen_iff : s.unseen streams d = true ↔ ∃ st ∈ bySID streams d.stream, (st.id, d.off) ∉ s.seen := by
  simp [Scan.unseen, Option.any_eq_true]

/-- What a loop has still to see: the documents of its times, and those it has not seen. -/
def Scan.left (streams : List StreamRow) (docs : List Doc) (s : Scan) : ℕ :=
  (docs.filter (inTimes s.sinceNs s.untilNs)).length + (docs.filter (s.unseen streams)).length

theorem Scan.left_le (streams : List StreamRow) (docs : List Doc) (s : Scan) : s.left streams docs ≤ 2 * docs.length := by
  rw [Scan.left, two_mul]
  exact Nat.add_le_add (length_filter_le _ _) (length_filter_le _ _)

theorem inTimes_goOn (hlast : inTimes s.sinceNs s.untilNs last = true) (hpos : 0 < last.ts)
    (hlate : q.forward = false → 1 < last.ts)
    (hd : inTimes (s.goOn q.forward last.ts fresh).sinceNs (s.goOn q.forward last.ts fresh).untilNs d = true) :
    inTimes s.sinceNs s.untilNs d = true ∧ (fresh = 0 → d ≠ last) := by
  unfold Scan.goOn at hd
  unfold inTimes at *
  rw [decide_eq_true_iff] at *
  cases hf : q.forward with
  | true =>
    simp only [hf, if_true] at hd
    refine ⟨?_, ?_⟩
    · split_ifs at hd <;> omega
    · rintro rfl rfl
      simp only [if_true] at hd
      omega
  | false =>
    have := hlate hf
    simp only [hf, Bool.false_eq_true, if_false] at hd
    refine ⟨?_, ?_⟩
    · split_ifs at hd <;> omega
    · rintro rfl rfl
      simp only [if_true] at hd
      omega

theorem Scan.left_goOn (hdist : Distinct streams docs) (hs : s.Has q streams docs) (hsub : hits ⊆ docs)
    (hlast : last ∈ hits) (hin : inTimes s.sinceNs s.untilNs last = true) (hpos : 0 < last.ts)
    (hlate : q.forward = false → 1 < last.ts) (hfold : hits.foldl (Scan.hit q streams none) (s, 0) = (s', fresh)) :
    (s'.goOn q.forward last.ts fresh).left streams docs < s.left streams docs := by
  have htook := hs.fold 0 hdist hsub
  have hfresh := fun (hne : (hits.foldl (Scan.hit q streams none) (s, 0)).2 ≠ 0) => Scan.exists_fresh hne hs hdist hsub
  rw [hfold] at htook hfresh
  have htimes : ∀ d, inTimes (s'.goOn q.forward last.ts fresh).sinceNs (s'.goOn q.forward last.ts fresh).untilNs d = true →
      inTimes s.sinceNs s.untilNs d = true ∧ (fresh = 0 → d ≠ last) := by
    intro d hd
    rw [← htook.since, ← htook.till] at hin ⊢
    exact inTimes_goOn hin hpos hlate hd
  have hunseen : ∀ d, (s'.goOn q.forward last.ts fresh).unseen streams d = true → s.unseen streams d = true := by
    intro d hd
    rw [Scan.unseen_iff, (Scan.goOn_out _ _ _ _).2] at hd
    obtain ⟨st, hst, hnot⟩ := hd
    exact Scan.unseen_iff.2 ⟨st, hst, fun hseen => hnot (htook.seen hseen)⟩
  by_cases h0 : fresh = 0
  · refine Nat.add_lt_add_of_lt_of_le (length_filter_lt (fun d hd => (htimes d hd).1) (hsub hlast) hin ?_)
      (length_filter_mono hunseen _)
    by_contra hno
    exact (htimes last (by simpa using hno)).2 h0 rfl
  · obtain ⟨h, hh, st, hst, hnew, hseen⟩ := hfresh h0
    refine Nat.add_lt_add_of_le_of_lt (length_filter_mono (fun d hd => (htimes d hd).1) _)
      (length_filter_lt hunseen (hsub hh) ?_ ?_)
    · exact Scan.unseen_iff.2 ⟨st, hst.row, hnew⟩
    · rw [Scan.unseen, (Scan.goOn_out _ _ _ _).2]
      simpa [hst.row] using hseen

/-- What a search of the index finds. -/
def found (index : List Doc) (finds : Doc → Bool) : List Doc := index.filter finds

theorem Searches.mem {since till : ℤ} {max : ℕ} (hsearch : Searches index finds search)
    (hd : d ∈ search q.forward since till max) : d ∈ found index finds ∧ inTimes since till d = true := by
  obtain ⟨sorted, hperm, _, heq⟩ := hsearch q.forward since till max
  rw [heq] at hd
  have := mem_filter.1 (hperm.mem_iff.1 (mem_of_mem_take hd))
  rw [Bool.and_eq_true] at this
  exact ⟨mem_filter.2 ⟨this.1, this.2.1⟩, this.2.2⟩

theorem scanLoop_ends (hsearch : Searches index finds search) (hpos : ∀ d ∈ index, 0 < d.ts)
    (hlate : q.forward = false → ∀ d ∈ index, 1 < d.ts) (hdist : Distinct streams (found index finds))
    (hs : s.Has q streams (found index finds)) (hfuel : s.left streams (found index finds) < fuel) :
    ∃ r, scanLoop search q streams none scanLimit fuel s = some r := by
  induction fuel generalizing s with
  | zero => omega
  | succ fuel ih =>
    unfold scanLoop
    split_ifs
    · exact ⟨_, rfl⟩
    · have hmem : ∀ d ∈ search q.forward s.sinceNs s.untilNs (maxOf q.limit), _ := fun d hd => hsearch.mem hd
      generalize search q.forward s.sinceNs s.untilNs (maxOf q.limit) = hits at hmem ⊢
      rcases hfold : hits.foldl (Scan.hit q streams none) (s, 0) with ⟨s', fresh⟩
      have hsub : hits ⊆ found index finds := fun d hd => (hmem d hd).1
      have htook := hs.fold 0 hdist hsub
      rw [hfold] at htook
      simp only [hfold]
      split
      · exact ⟨_, rfl⟩
      · rename_i last hlast
        split_ifs
        · exact ⟨_, rfl⟩
        · exact ⟨_, rfl⟩
        · obtain ⟨hlastDocs, hin⟩ := hmem last (mem_of_getLast? hlast)
          have hindex := (mem_filter.1 hlastDocs).1
          have hless := Scan.left_goOn hdist hs hsub (mem_of_getLast? hlast) hin (hpos last hindex)
            (fun hf => hlate hf last hindex) hfold
          exact ih (htook.has.goOn _ _) (by omega)

end

end FeOS.Logs
