import FeOS.Lib.Paging
import FeOS.Sanity.LogScan

/-! A page of a log read: the tail and the index merged and cut, what it leaves to the next one, and the
lines of all of them. -/

namespace FeOS.Logs

open List Paging

variable {q : Query} {streams : List StreamRow} {lines xs : List Line} {l : Line}

abbrev Query.past (q : Query) (c : Option Pos) : Query := { q with cursor := c }

abbrev Query.Ordered (q : Query) (l : List Line) : Prop := l.Pairwise fun x y => q.before x.pos y.pos

/-! Merging -/

theorem mem_compactFrom_of {a x : Line} (h : x ∈ compactFrom a xs) : x ∈ a :: xs := by
  induction xs generalizing a with
  | nil => exact h
  | cons b rest ih =>
    rw [compactFrom] at h
    split_ifs at h
    · rcases mem_cons.1 (ih h) with h | h <;> simp [h]
    · rcases mem_cons.1 h with h | h
      · simp [h]
      · exact mem_cons_of_mem _ (ih h)

theorem mem_compactFrom {a x : Line} (hsame : ∀ x ∈ a :: xs, ∀ y ∈ a :: xs, x.stream = y.stream → x.off = y.off → x = y)
    (h : x ∈ a :: xs) : x ∈ compactFrom a xs := by
  induction xs generalizing a with
  | nil => exact h
  | cons b rest ih =>
    rw [compactFrom]
    split_ifs with heq
    · obtain rfl : a = b := hsame a (by simp) b (by simp) heq.1 heq.2
      exact ih (fun x hx y hy => hsame x (mem_cons_of_mem _ hx) y (mem_cons_of_mem _ hy)) (by simpa using h)
    · rcases mem_cons.1 h with h | h
      · exact h ▸ mem_cons_self
      · exact mem_cons_of_mem _ (ih (fun x hx y hy => hsame x (mem_cons_of_mem _ hx) y (mem_cons_of_mem _ hy)) h)

theorem compactFrom_sorted {a : Line} (hsorted : (a :: xs).Pairwise fun x y => ¬ q.before y.pos x.pos) :
    q.Ordered (compactFrom a xs) := by
  induction xs generalizing a with
  | nil => exact pairwise_singleton _ _
  | cons b rest ih =>
    rw [compactFrom]
    split_ifs with hne
    · exact ih (hsorted.sublist ((sublist_cons_self b rest).cons_cons a))
    · rw [pairwise_cons] at hsorted
      refine pairwise_cons.2 ⟨fun x hx => ?_, ih hsorted.2⟩
      have hab : q.before a.pos b.pos := by
        rcases q.before_or a.pos b.pos with h | h | h
        · exact h
        · simp only [Line.pos, Pos.mk.injEq] at h
          exact absurd ⟨h.2.1, h.2.2⟩ hne
        · exact absurd h (hsorted.1 b mem_cons_self)
      rcases mem_cons.1 (mem_compactFrom_of hx) with rfl | hx
      · exact hab
      · exact Query.before_of_before_not hab ((pairwise_cons.1 hsorted.2).1 x hx)

theorem mergeScan_sorted (q : Query) (xs ys : List Line) : q.Ordered (mergeScan q xs ys) := by
  have htotal : Std.Total fun x y : Line => ¬ q.before y.pos x.pos :=
    ⟨fun x y => by
      by_contra h
      rw [not_or, not_not, not_not] at h
      exact q.before_irrefl _ (Query.before_trans h.1 h.2)⟩
  have htrans : IsTrans Line fun x y => ¬ q.before y.pos x.pos :=
    ⟨fun x y z hxy hyz hzx => hyz (by
      rcases q.before_or x.pos y.pos with h | h | h
      · exact Query.before_trans hzx h
      · exact h ▸ hzx
      · exact absurd h hxy)⟩
  have hsorted := pairwise_insertionSort (fun x y : Line => ¬ q.before y.pos x.pos) (xs ++ ys)
  rw [mergeScan]
  cases hl : (xs ++ ys).insertionSort fun x y : Line => ¬ q.before y.pos x.pos with
  | nil => exact .nil
  | cons a rest => exact compactFrom_sorted (hl ▸ hsorted)

theorem mem_mergeScan {ys : List Line} (hsame : ∀ x ∈ xs ++ ys, ∀ y ∈ xs ++ ys, x.stream = y.stream →
    x.off = y.off → x = y) :
    l ∈ mergeScan q xs ys ↔ l ∈ xs ∨ l ∈ ys := by
  have hperm := perm_insertionSort (fun x y : Line => ¬ q.before y.pos x.pos) (xs ++ ys)
  rw [← mem_append, ← hperm.mem_iff, mergeScan]
  cases hl : (xs ++ ys).insertionSort fun x y : Line => ¬ q.before y.pos x.pos with
  | nil => rfl
  | cons a rest =>
    rw [hl] at hperm
    exact ⟨mem_compactFrom_of, mem_compactFrom fun x hx y hy => hsame x (hperm.mem_iff.1 hx) y (hperm.mem_iff.1 hy)⟩

/-! A page -/

section
variable {docs : List Doc} {c next : Option Pos} {last : Line} {p : Pos} {d : Doc} {fuel scanLimit : ℕ}

def After (q : Query) (c : Option Pos) (l : Line) : Prop := ∀ p, c = some p → q.before p l.pos

def order (q : Query) : Order Line Pos := ⟨fun a b => q.before a.pos b.pos, After q⟩

theorem passed_iff : (order q).passed c next l ↔ After q c l ∧ ∀ c', next = some c' → ¬ q.before c' l.pos := by
  simp [Order.passed, order, After]

theorem mem_takeWhile (hsorted : q.Ordered lines) :
    l ∈ lines.takeWhile (fun l => !decide (q.before p l.pos)) ↔ l ∈ lines ∧ ¬ q.before p l.pos := by
  induction lines with
  | nil => simp
  | cons x lines ih =>
    have hsorted := pairwise_cons.1 hsorted
    by_cases hx : q.before p x.pos
    · simp only [takeWhile_cons, hx, decide_true, Bool.not_true, Bool.false_eq_true, if_false, not_mem_nil, false_iff,
        mem_cons, not_and, not_not]
      rintro (rfl | hl)
      · exact hx
      · exact Query.before_trans hx (hsorted.1 l hl)
    · simp only [takeWhile_cons, hx, decide_false, Bool.not_false, if_true, mem_cons, ih hsorted.2]
      constructor
      · rintro (rfl | hl)
        · exact ⟨.inl rfl, hx⟩
        · exact ⟨.inr hl.1, hl.2⟩
      · rintro ⟨rfl | hl, hp⟩
        · exact .inl rfl
        · exact .inr ⟨hl, hp⟩

theorem last_of_take {n : ℕ} (hsorted : q.Ordered lines) (hlast : (lines.take n).getLast? = some last) :
    (∀ l ∈ lines.take n, ¬ q.before last.pos l.pos) ∧ ∀ l ∈ lines, ¬ q.before last.pos l.pos → l ∈ lines.take n := by
  have hsplit : lines.take n ++ lines.drop n = lines := take_append_drop n lines
  rw [← hsplit] at hsorted
  obtain ⟨htake, _, hcross⟩ := pairwise_append.1 hsorted
  constructor
  · intro l hl hbefore
    obtain ⟨init, hinit⟩ := getLast?_eq_some_iff.1 hlast
    rw [hinit] at hl htake
    rcases mem_append.1 hl with hl | hl
    · exact q.before_irrefl _ (Query.before_trans hbefore ((pairwise_append.1 htake).2.2 l hl last (mem_singleton_self _)))
    · rw [mem_singleton.1 hl] at hbefore
      exact q.before_irrefl _ hbefore
  · intro l hl hnot
    rw [← hsplit, mem_append] at hl
    rcases hl with hl | hl
    · exact hl
    · exact absurd (hcross last (mem_of_getLast? hlast) l hl) hnot

variable {through : Option Pos}

/-- The lines that are not past the place where the scan stopped. -/
def kept (q : Query) (lines : List Line) : Option Pos → List Line
  | none => lines
  | some p => lines.takeWhile fun l => !decide (q.before p l.pos)

theorem mem_kept (hsorted : q.Ordered lines) :
    l ∈ kept q lines through ↔ l ∈ lines ∧ ∀ p, through = some p → ¬ q.before p l.pos := by
  cases through with
  | none => simp [kept]
  | some p =>
    rw [kept, mem_takeWhile hsorted]
    simp

theorem kept_sorted (hsorted : q.Ordered lines) :
    q.Ordered (kept q lines through) := by
  cases through with
  | none => exact hsorted
  | some p => exact hsorted.sublist (takeWhile_sublist _)

theorem cutPage_eq (q : Query) (lines : List Line) (through : Option Pos) :
    cutPage q lines through = if q.limit ≤ ((kept q lines through).take q.limit).length then
      ((kept q lines through).take q.limit, ((kept q lines through).take q.limit).getLast?.map Line.pos, false)
      else ((kept q lines through).take q.limit, through, through.isSome) := by
  cases through <;> rfl

/-- A page has all lines up to its cursor. -/
theorem mem_cutPage (hlimit : 0 < q.limit) (hsorted : q.Ordered lines) :
    l ∈ (cutPage q lines through).1 ↔ l ∈ lines ∧ ∀ c', (cutPage q lines through).2.1 = some c' → ¬ q.before c' l.pos := by
  rw [cutPage_eq]
  split_ifs with hfull
  · cases hlast : ((kept q lines through).take q.limit).getLast? with
    | none =>
      rw [getLast?_eq_none_iff] at hlast
      rw [hlast, length_nil] at hfull
      omega
    | some last =>
      obtain ⟨hno, hin⟩ := last_of_take (kept_sorted hsorted) hlast
      obtain ⟨_, hthrough⟩ := (mem_kept hsorted).1 (mem_of_mem_take (mem_of_getLast? hlast))
      simp only [Option.map_some, Option.some.injEq, forall_eq']
      constructor
      · exact fun hl => ⟨((mem_kept hsorted).1 (mem_of_mem_take hl)).1, hno l hl⟩
      · rintro ⟨hl, hnot⟩
        refine hin l ((mem_kept hsorted).2 ⟨hl, fun p hp hbefore => ?_⟩) hnot
        exact hthrough p hp (Query.before_of_before_not hbefore hnot)
  · rw [length_take] at hfull
    have hall : (kept q lines through).take q.limit = kept q lines through := take_of_length_le (by omega)
    simp only [hall]
    exact mem_kept hsorted

theorem cutPage_next (q : Query) (lines : List Line) (through : Option Pos) {c' : Pos}
    (h : (cutPage q lines through).2.1 = some c') : through = some c' ∨ ∃ l ∈ (cutPage q lines through).1, c' = l.pos := by
  rw [cutPage_eq] at h ⊢
  split_ifs at h ⊢ with hfull
  · obtain ⟨last, hlast, rfl⟩ := Option.map_eq_some_iff.1 h
    exact .inr ⟨last, mem_of_getLast? hlast, rfl⟩
  · exact .inl h

theorem cutPage_sorted (hsorted : q.Ordered lines) : q.Ordered (cutPage q lines through).1 := by
  rw [cutPage_eq]
  split_ifs <;> exact (kept_sorted hsorted).sublist (take_sublist _ _)

/-! A read -/

theorem inRange_cursor (q : Query) (c : Option Pos) (l : Line) :
    (q.past c).inRange l = true ↔ (q.past none).inRange l = true ∧ After q c l := by
  cases c with
  | none => simp [Query.inRange, After]
  | some p =>
    simp only [Query.inRange, After, Option.all_none, Option.all_some, Bool.and_true, Bool.and_eq_true, decide_eq_true_eq,
      Option.some.injEq, forall_eq']
    exact Iff.rfl

theorem mem_tailDoc {acc : List Line × ℕ} : l ∈ (tailDoc q streams acc d).1 ↔ l ∈ acc.1 ∨ Takes q streams d l := by
  unfold tailDoc
  split
  · rename_i hrow
    refine ⟨.inl, fun h => h.resolve_right ?_⟩
    rintro ⟨st, hst, _⟩
    simp [hst.row] at hrow
  · rename_i st hrow
    split_ifs with hcont
    · refine ⟨.inl, fun h => h.resolve_right ?_⟩
      rintro ⟨st, hst, _⟩
      simp [hst.head] at hcont
    · have hst : Heads streams d st := ⟨hrow, by simpa using hcont⟩
      rw [hst.takes_iff]
      exact mem_add (p := fun l => q.inRange l && (l.part || q.passes l))

theorem mem_readTail {tail : List Doc} : l ∈ (readTail q streams tail).1 ↔ Candidate q streams tail l := by
  have hfold : ∀ acc : List Line × ℕ, l ∈ (tail.foldl (tailDoc q streams) acc).1 ↔ l ∈ acc.1 ∨
      Candidate q streams tail l := by
    induction tail with
    | nil => simp [Candidate]
    | cons d tail ih =>
      intro acc
      rw [foldl_cons, ih, mem_tailDoc, candidate_cons, or_assoc]
  rw [readTail, hfold]
  simp

/-- Where the loop of a read begins. -/
def firstScan (q : Query) (scanned : ℕ) : Scan :=
  match q.cursor with
  | none => ⟨q.since, q.till, [], [], scanned⟩
  | some p =>
    if q.forward then ⟨max q.since p.ts, q.till, [], [], scanned⟩ else ⟨q.since, min q.till p.ts, [], [], scanned⟩

theorem firstScan_out (q : Query) (scanned : ℕ) : (firstScan q scanned).out = [] ∧ (firstScan q scanned).seen = [] := by
  unfold firstScan
  split
  · exact ⟨rfl, rfl⟩
  · split_ifs <;> exact ⟨rfl, rfl⟩

theorem firstScan_has (q : Query) (streams : List StreamRow) (docs : List Doc) (scanned : ℕ) :
    (firstScan q scanned).Has q streams docs := by
  intro d _ st _ hseen
  rw [(firstScan_out q scanned).2] at hseen
  cases hseen

theorem readIndex_eq (search : Search) (fuel : ℕ) (q : Query) (streams : List StreamRow) (scanned scanLimit : ℕ) :
    readIndex search fuel q streams none scanned scanLimit =
      scanLoop search q streams none scanLimit fuel (firstScan q scanned) := by
  unfold readIndex firstScan
  cases q.cursor with
  | none => rfl
  | some p => cases hf : q.forward <;> rfl

/-! The pages -/

variable {store : Store} {finds : Doc → Bool} {search : Search}

/-- A reading from the start: what is stored, what the index finds and answers, its bounds and the query. -/
structure Reading where
  store : Store
  finds : Doc → Bool
  search : Search
  scanLimit : ℕ
  fuel : ℕ
  q : Query
  searches : Searches store.index finds search
  limit : 0 < q.limit

theorem bySID_eq_some {sid : SID} {st : StreamRow} (h : bySID streams sid = some st) : st ∈ streams ∧ st.sid = sid := by
  refine ⟨mem_of_find?_eq_some h, ?_⟩
  simpa using find?_some h

theorem eq_of_id {st st' : StreamRow} (h : st ∈ store.rows) (h' : st' ∈ store.rows) (hid : st.id = st'.id) : st = st' := by
  have hnodup : (store.rows.map StreamRow.id).Nodup := pairwise_map.2 (store.ids.imp fun h => ne_of_lt h)
  exact inj_on_of_nodup_map hnodup h h' hid

theorem selected_sub : selectStreams store.rows q ⊆ store.rows := fun _ h => (mem_filter.1 (mem_of_mem_take h)).1

namespace Reading

variable (r : Reading)

def selected : List StreamRow := selectStreams r.store.rows r.q

/-- What a page after `c` is asked for. -/
def asked (c : Option Pos) : Query := (r.q.past c).startAt r.selected

/-- The documents that a page's searches of the index show. -/
def shown (c : Option Pos) : List Doc :=
  shownLoop r.search (r.asked c) r.selected r.scanLimit r.fuel
    (firstScan (r.asked c) (readTail (r.asked c) r.selected r.store.tail).2)

/-- A page before its lines are joined. -/
def page (c : Option Pos) : Option (List Line × Option Pos) :=
  (findPage r.store r.search r.scanLimit r.fuel (r.asked c) r.selected).map fun page => (page.1, page.2.1)

def stored : List Doc := r.store.tail ++ found r.store.index r.finds

variable {r}

theorem mem_stored (h : d ∈ r.stored) : d ∈ r.store.tail ++ r.store.index :=
  mem_append.2 ((mem_append.1 h).imp_right fun h => (mem_filter.1 h).1)

theorem distinct_docs (r : Reading) : Distinct r.selected r.stored := by
  intro d hd d' hd' st st' hst hst' hid hoff
  obtain ⟨hmem, hsid⟩ := bySID_eq_some hst
  obtain ⟨hmem', hsid'⟩ := bySID_eq_some hst'
  obtain rfl := eq_of_id (selected_sub hmem) (selected_sub hmem') hid
  exact ⟨r.store.same d (mem_stored hd) d' (mem_stored hd') (hsid.symm.trans hsid') hoff, rfl⟩

theorem distinct_found (r : Reading) : Distinct r.selected (found r.store.index r.finds) := fun d hd d' hd' =>
  r.distinct_docs d (mem_append_right _ hd) d' (mem_append_right _ hd')

theorem mem_docs (h : d ∈ r.store.tail ++ r.shown c) : d ∈ r.stored := by
  refine mem_append.2 ((mem_append.1 h).imp_right fun h => ?_)
  obtain ⟨since, till, hd⟩ := mem_shownLoop h
  exact (r.searches.mem (q := r.q) hd).1

/-- A page's lines: of the documents of the tail and of those that were shown, those that it passes. -/
theorem page_spec (hpage : r.page c = some (lines, next)) :
    (∀ l, l ∈ lines ↔ Candidate (r.asked c) r.selected (r.store.tail ++ r.shown c) l ∧
      ∀ c', next = some c' → ¬ r.q.before c' l.pos) ∧ r.q.Ordered lines ∧
    ∀ c', next = some c' → (∃ l ∈ lines, c' = l.pos) ∨ ∃ d ∈ r.store.index, c' = stopAt r.q.forward d.ts := by
  obtain ⟨page, hfind, heq⟩ := Option.map_eq_some_iff.1 hpage
  obtain ⟨⟨out, through⟩, hread, rfl⟩ := Option.map_eq_some_iff.1 hfind
  cases heq
  rw [readIndex_eq] at hread
  obtain ⟨hout, hthrough⟩ := mem_scanLoop (q := r.asked c) r.distinct_found
      (fun since till d hd => (r.searches.mem (q := r.q) hd).1)
    (firstScan_has _ _ _ _) hread
  rw [(firstScan_out _ _).1] at hout
  have hboth : ∀ x, x ∈ (readTail (r.asked c) r.selected r.store.tail).1 ++ out ↔
      Candidate (r.asked c) r.selected (r.store.tail ++ r.shown c) x := by
    intro x
    rw [mem_append, mem_readTail, hout, candidate_append]
    simp [shown]
  have hmerged : ∀ l, l ∈ mergeScan (r.asked c) (readTail (r.asked c) r.selected r.store.tail).1 out ↔
      Candidate (r.asked c) r.selected (r.store.tail ++ r.shown c) l := by
    intro l
    rw [mem_mergeScan, ← mem_append, hboth]
    intro x hx y hy hstream hoff
    obtain ⟨d, hd, st, hst, rfl, _⟩ := (hboth x).1 hx
    obtain ⟨d', hd', st', hst', rfl, _⟩ := (hboth y).1 hy
    obtain ⟨rfl, rfl⟩ := r.distinct_docs d (mem_docs hd) d' (mem_docs hd') st st' hst.row hst'.row hstream hoff
    rfl
  refine ⟨fun l => ?_, cutPage_sorted (mergeScan_sorted (r.asked c) _ _), fun c' hc' => ?_⟩
  · rw [← hmerged]
    exact mem_cutPage (q := r.asked c) r.limit (mergeScan_sorted _ _ _)
  · rcases cutPage_next _ _ _ hc' with hstop | hline
    · obtain ⟨d, hd, heq⟩ := hthrough c' hstop
      exact .inr ⟨d, (mem_filter.1 hd).1, heq⟩
    · exact .inl hline

theorem takes_after (h : Takes (r.asked c) r.selected d l) : After r.q c l := by
  obtain ⟨_, _, _, hrange, _⟩ := h
  exact ((inRange_cursor (r.asked none) c l).1 hrange).2

/-- A page whose cursor is past the one it began at. -/
theorem turn (hpage : r.page c = some (lines, next)) (hmoves : ∀ p c', c = some p → next = some c' → r.q.before p c') :
    Turn (order r.q) c lines next := by
  obtain ⟨hmem, hsorted, _⟩ := page_spec hpage
  refine ⟨hsorted, fun l hl => ?_, fun c' hc' l hl l' hl' => ?_, fun c' hc' l hl p hp => ?_⟩
  · obtain ⟨⟨d, _, htakes⟩, hupTo⟩ := (hmem l).1 hl
    exact passed_iff.2 ⟨takes_after htakes, hupTo⟩
  · exact Query.before_of_not (((hmem l).1 hl).2 c' hc') (hl' c' rfl)
  · exact Query.before_trans (hmoves p c' hp hc') (hl c' rfl)

theorem exists_page (c : Option Pos) (hfuel : 2 * r.store.index.length < r.fuel)
    (hlate : r.q.forward = false → ∀ d ∈ r.store.index, 1 < d.ts) : ∃ lines next, r.page c = some (lines, next) := by
  have hleft : ∀ s : Scan, s.left r.selected (found r.store.index r.finds) < r.fuel := fun s =>
    (s.left_le r.selected _).trans_lt (lt_of_le_of_lt (Nat.mul_le_mul_left 2 (length_filter_le _ _)) hfuel)
  obtain ⟨⟨out, through⟩, hloop⟩ := @scanLoop_ends (r.asked c) _ _ _ _ _ r.scanLimit _ r.searches
    (fun d hd => r.store.positive d (mem_append_right _ hd)) hlate r.distinct_found
    (firstScan_has (r.asked c) r.selected _ (readTail (r.asked c) r.selected r.store.tail).2) (hleft _)
  exact ⟨_, _, by rw [page, findPage, readIndex_eq, hloop]; rfl⟩

/-- Where a page can end: at a line, or at the time of a document. -/
def places (r : Reading) : List Pos :=
  (r.stored.filterMap fun d => (bySID r.selected d.stream).map fun st => (lineOf d st.id).pos) ++
    r.store.index.map fun d => stopAt r.q.forward d.ts

/-- The places after a cursor. -/
def left (r : Reading) (c : Option Pos) : ℕ := (r.places.filter fun x => c.all fun p => decide (r.q.before p x)).length

theorem left_lt {c' : Pos} (hc' : c' ∈ r.places) (hmoves : ∀ p, c = some p → r.q.before p c') :
    r.left (some c') < r.left c := by
  refine length_filter_lt (x := c') (fun x hx => ?_) hc' ?_ (by simpa using r.q.before_irrefl c')
  · rw [Option.all_some, decide_eq_true_iff] at hx
    rw [Option.all_eq_true]
    exact fun p hp => decide_eq_true (Query.before_trans (hmoves p hp) hx)
  · rw [Option.all_eq_true]
    exact fun p hp => decide_eq_true (hmoves p hp)

theorem exists_follow (hends : ∀ c, Paging.Reached r.page none c → ∃ lines next, r.page c = some (lines, next))
    (hturn : ∀ p lines c', Paging.Reached r.page none (some p) → r.page (some p) = some (lines, some c') → r.q.before p c') :
    ∃ n out, Paging.follow r.page n none = some out := by
  refine Paging.exists_follow r.left fun c hc => ?_
  obtain ⟨lines, next, hpage⟩ := hends c hc
  refine ⟨lines, next, hpage, fun c' hc' => left_lt ?_ fun p hp => ?_⟩
  · obtain ⟨hmem, _, hnext⟩ := page_spec hpage
    rcases hnext c' hc' with ⟨l, hl, rfl⟩ | ⟨d, hd, rfl⟩
    · obtain ⟨d, hd, st, hst, rfl, _⟩ := ((hmem l).1 hl).1
      exact mem_append_left _ (mem_filterMap.2 ⟨d, mem_docs hd, by rw [hst.row]; rfl⟩)
    · exact mem_append_right _ (mem_map_of_mem hd)
  · subst hp hc'
    exact hturn p lines c' hc hpage

end Reading

/-! The lines of a page -/

theorem finish_pos (head : Line) (text : List Char) (part : Bool) : (finish head text part).pos = head.pos := by
  unfold finish
  split_ifs <;> rfl

theorem joinRest_pos (head : Line) (text : List Char) (last : ℤ) (rest : List Doc) :
    (joinRest head text last rest).pos = head.pos := by
  fun_induction joinRest head text last rest with
  | case1 => exact finish_pos ..
  | case2 _ _ _ _ _ ih => exact ih
  | case3 => exact finish_pos ..
  | case4 => exact finish_pos ..
  | case5 => exact finish_pos ..
  | case6 _ _ _ _ _ _ _ _ _ ih => exact ih

theorem joinPart_pos (store : Store) (streams : List StreamRow) (head : Line) :
    (joinPart store streams head).pos = head.pos := by
  unfold joinPart
  split_ifs
  · rfl
  · split
    · rfl
    · split_ifs
      · rfl
      · exact joinRest_pos ..

theorem joinPart_whole {head : Line} (h : head.part = false) : joinPart store streams head = head := by simp [joinPart, h]

theorem joinPart_row {st : StreamRow} (hsub : streams ⊆ store.rows) (hst : st ∈ streams) (hid : l.stream = st.id) :
    joinPart store streams l = joinPart store [st] l := by
  have hfind : (streams.find? fun x => x.id == l.stream) = some st := by
    cases hf : streams.find? fun x => x.id == l.stream with
    | none =>
      have := find?_eq_none.1 hf st hst
      simp [hid] at this
    | some st' =>
      have hid' : st'.id = l.stream := by simpa using find?_some hf
      rw [eq_of_id (hsub (mem_of_find?_eq_some hf)) (hsub hst) (hid'.trans hid)]
  have hfind' : ([st].find? fun x => x.id == l.stream) = some st := by simp [hid]
  simp only [joinPart, hfind, hfind']

def answered (store : Store) (q : Query) (streams : List StreamRow) (lines : List Line) : List Line :=
  (lines.map (joinPart store streams)).filter q.passes

namespace Reading

variable {r : Reading}

theorem read_past (hne : r.selected ≠ []) (c : Option Pos) : read r.store r.search r.scanLimit r.fuel (r.q.past c) =
    (findPage r.store r.search r.scanLimit r.fuel (r.asked c) r.selected).map
      fun page => ⟨answered r.store r.q r.selected page.1, page.2.1, page.2.2⟩ := if_neg hne

theorem readAll_eq (hne : r.selected ≠ []) (n : ℕ) (c : Option Pos) :
    readAll r.store r.search r.scanLimit r.fuel (r.q.past c) n =
      (follow r.page n c).map (answered r.store r.q r.selected) := by
  induction n generalizing c with
  | zero => rfl
  | succ n ih =>
    rw [readAll, follow, read_past hne, page]
    cases findPage r.store r.search r.scanLimit r.fuel (r.asked c) r.selected with
    | none => rfl
    | some page =>
      obtain ⟨lines, next, stopped⟩ := page
      cases next with
      | none => rfl
      | some c' =>
        simp only [Option.map_some, Option.bind_some]
        rw [ih c', Option.map_map, Option.map_map]
        congr 1
        funext lines
        simp [answered]

end Reading

end

end FeOS.Logs
