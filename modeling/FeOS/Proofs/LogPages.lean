import FeOS.Sanity.LogPage

/-! Paged reads answer every line that matches once and in order exactly if every page is shown what it
passes. -/

namespace FeOS.Logs

open List Paging Reading

variable {store : Store} {finds : Doc → Bool} {q : Query} {streams : List StreamRow} {l : Line}

/-! Which streams are read, and from when -/

theorem startStep_le (streams : List StreamRow) (hforward : q.sinceSet = false ∧ q.forward = true) (k : ℕ) (since : ℤ) :
    (streams.zipIdx (k + 1)).foldl q.startStep since ≤ since ∧
      ∀ st ∈ streams, ∀ first, st.firstNs = some first → (streams.zipIdx (k + 1)).foldl q.startStep since ≤ first := by
  induction streams generalizing k since with
  | nil => simp
  | cons st streams ih =>
    rw [zipIdx_cons, foldl_cons]
    obtain ⟨hle, hfirst⟩ := ih (k + 1) (q.startStep since (st, k + 1))
    have hstep : q.startStep since (st, k + 1) ≤ since ∧ ∀ first, st.firstNs = some first →
        q.startStep since (st, k + 1) ≤ first := by
      unfold Query.startStep
      cases hf : st.firstNs with
      | none => simp
      | some first =>
        simp only [hforward.1, hforward.2, Option.some.injEq, forall_eq']
        split_ifs with hlt
        · simp at hlt
          omega
        · simp at hlt
          omega
    refine ⟨hle.trans hstep.1, fun st' hst' first hfirst' => ?_⟩
    rcases mem_cons.1 hst' with rfl | hst'
    · exact hle.trans (hstep.2 first hfirst')
    · exact hfirst st' hst' first hfirst'

variable {st : StreamRow}

theorem startAt_since_le (hforward : q.sinceSet = false ∧ q.forward = true) (hall : ∀ st ∈ streams, st.firstNs ≠ none)
    (hst : st ∈ streams) {first : ℤ} (hfirst : st.firstNs = some first) : (q.startAt streams).since ≤ first := by
  cases streams with
  | nil => exact absurd hst not_mem_nil
  | cons st₀ streams =>
    obtain ⟨first₀, hfirst₀⟩ := Option.ne_none_iff_exists'.1 (hall st₀ mem_cons_self)
    have hstep : q.startStep q.since (st₀, 0) = first₀ := by simp [Query.startStep, hfirst₀, hforward.1, hforward.2]
    show ((st₀ :: streams).zipIdx.foldl q.startStep q.since) ≤ first
    rw [zipIdx_cons, foldl_cons, hstep]
    obtain ⟨hle, hrest⟩ := startStep_le streams hforward 0 first₀
    rcases mem_cons.1 hst with rfl | hst
    · rw [hfirst₀] at hfirst
      exact hle.trans (Option.some.inj hfirst).le
    · exact hrest st hst first hfirst

theorem startAt_since (h : q.sinceSet = true ∨ q.forward = false) : (q.startAt streams).since = q.since := by
  have hstep : ∀ since st, q.startStep since st = since := by
    intro since st
    unfold Query.startStep
    split
    · rw [if_neg]
      rcases h with h | h <;> simp [h]
    · rfl
  have hfold : ∀ (l : List (StreamRow × ℕ)), l.foldl q.startStep q.since = q.since := by
    intro l
    induction l with
    | nil => rfl
    | cons st l ih => rw [foldl_cons, hstep, ih]
  exact hfold _

theorem selects_iff : q.selects st = true ↔ q.sel st = true ∧ st.firstNs.any (· ≤ q.till) = true ∧
    (q.sinceSet = true ∨ q.forward = false → st.lastNs.any (q.since ≤ ·) = true) := by
  unfold Query.selects
  rw [Bool.and_eq_true, Bool.and_eq_true, and_assoc]
  refine and_congr_right fun _ => and_congr_right fun _ => ?_
  cases q.sinceSet <;> cases q.forward <;> simp

theorem selected_selects (h : st ∈ selectStreams store.rows q) : q.selects st = true :=
  (mem_filter.1 (mem_of_mem_take h)).2

theorem selected_first (h : st ∈ selectStreams store.rows q) : st.firstNs ≠ none := by
  have := (selects_iff.1 (selected_selects h)).2.1
  intro hnone
  simp [hnone] at this

theorem startAt_inTime {d : Doc} (hst : st ∈ selectStreams store.rows q) (hd : d ∈ store.tail ++ store.index)
    (hsid : st.sid = d.stream) :
    q.inTime d.ts ↔ (q.startAt (selectStreams store.rows q)).since ≤ d.ts ∧ d.ts ≤ q.till := by
  unfold Query.inTime
  by_cases hset : q.sinceSet = true ∨ q.forward = false
  · rw [startAt_since hset]
    tauto
  · rw [not_or, Bool.not_eq_true, Bool.not_eq_false] at hset
    obtain ⟨first, hfirst⟩ := Option.ne_none_iff_exists'.1 (selected_first hst)
    have hle := startAt_since_le hset (fun st hst => selected_first hst) hst hfirst
    have hts : first ≤ d.ts := by simpa [hfirst] using (store.times d hd st (selected_sub hst) hsid).1
    constructor
    · exact fun h => ⟨hle.trans hts, h.1⟩
    · exact fun h => ⟨h.2, fun hor => by rcases hor with hor | hor <;> simp [hset] at hor⟩

theorem bySID_of_mem (hst : st ∈ selectStreams store.rows q) : bySID (selectStreams store.rows q) st.sid = some st := by
  cases hf : bySID (selectStreams store.rows q) st.sid with
  | none =>
    have := find?_eq_none.1 hf st hst
    simp at this
  | some st' =>
    obtain ⟨hmem, hsid⟩ := bySID_eq_some hf
    have hnodup : (store.rows.map StreamRow.sid).Nodup := pairwise_map.2 store.sids
    rw [inj_on_of_nodup_map hnodup (selected_sub hmem) (selected_sub hst) hsid]

/-! The lines to answer -/

/-- A document whose line matches the query. -/
structure Matches (store : Store) (finds : Doc → Bool) (q : Query) (st : StreamRow) (d : Doc) : Prop where
  row : st ∈ store.rows
  sel : q.sel st = true
  stored : d ∈ store.tail ∨ (d ∈ store.index ∧ finds d = true)
  stream : d.stream = st.sid
  head : d.cont = false
  time : q.inTime d.ts
  passes : q.passes (joinPart store [st] (lineOf d st.id)) = true

theorem matching_iff : Matching store finds q l ↔
    ∃ st d, Matches store finds q st d ∧ l = joinPart store [st] (lineOf d st.id) := by
  constructor
  · rintro ⟨st, hst, hsel, d, hd, hsid, hcont, htime, rfl, hpass⟩
    exact ⟨st, d, ⟨hst, hsel, hd, hsid, hcont, htime, hpass⟩, rfl⟩
  · rintro ⟨st, d, h, rfl⟩
    exact ⟨st, h.row, h.sel, d, h.stored, h.stream, h.head, h.time, rfl, h.passes⟩

namespace Reading

variable (r : Reading)

/-- A page of the reading. -/
abbrev read (c : Option Pos) : Option Page := Logs.read r.store r.search r.scanLimit r.fuel (r.q.past c)

/-- The cursors that the pages give. -/
inductive Cursors : Option Pos → Prop
  | start : Cursors none
  | next {c : Option Pos} {page : Page} {c' : Pos} (hc : Cursors c) (hread : r.read c = some page)
      (hnext : page.cursor = some c') : Cursors (some c')

/-- Every page's loop of searches ends. -/
def Ends : Prop := ∀ c, r.Cursors c → ∃ page, r.read c = some page

/-- No page gives a cursor before its own. -/
def NeverBack : Prop :=
  ∀ p page c', r.Cursors (some p) → r.read (some p) = some page → page.cursor = some c' → ¬ r.q.before c' p

/-- No page gives a cursor that is not past its own. -/
def Moves : Prop := ∀ p page c', r.Cursors (some p) → r.read (some p) = some page → page.cursor = some c' → r.q.before p c'

/-- Of the lines that match, each page has those between its two cursors: their streams are selected, and
their documents are in the tail or shown by one of the page's searches. -/
def ShowsPassed : Prop :=
  ∀ c page, r.Cursors c → r.read c = some page → ∀ st d, Matches r.store r.finds r.q st d →
    (∀ p, c = some p → r.q.before p (lineOf d st.id).pos) →
      (∀ p, page.cursor = some p → ¬ r.q.before p (lineOf d st.id).pos) →
    st ∈ r.selected ∧ (d ∈ r.store.tail ∨ d ∈ r.shown c)

/-- The cursors followed to the end give what the query is to answer. -/
def Answered : Prop :=
  ∃ pages lines, readAll r.store r.search r.scanLimit r.fuel r.q pages = some lines ∧ Answers r.store r.finds r.q lines

variable {r} {st st' : StreamRow} {d d' : Doc} {c next : Option Pos} {lines out : List Line} {n : ℕ}

theorem matches_mem (h : Matches r.store r.finds r.q st d) : d ∈ r.stored :=
  mem_append.2 (h.stored.imp_right fun hd => mem_filter.2 hd)

/-- A document with the place of a line that matches is the line's. -/
theorem eq_of_pos (h : Matches r.store r.finds r.q st d) (hd' : d' ∈ r.stored) (hst' : Heads r.selected d' st')
    (hpos : (lineOf d' st'.id).pos = (lineOf d st.id).pos) : d' = d ∧ st' = st ∧ st ∈ r.selected := by
  obtain ⟨hin, hsid⟩ := bySID_eq_some hst'.row
  simp only [lineOf, Line.pos, Pos.mk.injEq] at hpos
  obtain rfl := eq_of_id (selected_sub hin) h.row hpos.2.1
  exact ⟨r.store.same d' (mem_stored hd') d (mem_stored (matches_mem h)) (hsid.symm.trans h.stream.symm) hpos.2.2, rfl, hin⟩

theorem takes_of_matches (h : Matches r.store r.finds r.q st d) (hst : st ∈ r.selected)
    (hafter : After r.q c (lineOf d st.id)) :
    Takes (r.asked c) r.selected d (lineOf d st.id) := by
  have hrange := (startAt_inTime hst (mem_stored (matches_mem h)) h.stream.symm).1 h.time
  refine ⟨st, ⟨h.stream ▸ bySID_of_mem hst, h.head⟩, rfl, (inRange_cursor (r.asked none) c _).2 ⟨?_, hafter⟩, ?_⟩
  · rw [Query.inRange, Bool.and_eq_true]
    exact ⟨decide_eq_true hrange, rfl⟩
  · cases hpart : (lineOf d st.id).part with
    | true => rfl
    | false =>
      have hpass := h.passes
      rw [joinPart_whole hpart] at hpass
      rw [Bool.false_or]
      exact hpass

/-- What is taken matches, if it passes the filters once it is joined. -/
theorem matches_of_takes (h : Takes (r.asked c) r.selected d l) (hd : d ∈ r.stored)
    (hpass : r.q.passes (joinPart r.store r.selected l) = true) :
    ∃ st, Matches r.store r.finds r.q st d ∧ Heads r.selected d st ∧ l = lineOf d st.id := by
  obtain ⟨st, hst, rfl, hrange, _⟩ := h
  obtain ⟨hin, hsid⟩ := bySID_eq_some hst.row
  have hjoin : joinPart r.store r.selected (lineOf d st.id) = joinPart r.store [st] (lineOf d st.id) :=
    joinPart_row selected_sub hin rfl
  rw [hjoin] at hpass
  rw [Query.inRange, Bool.and_eq_true, decide_eq_true_iff] at hrange
  exact ⟨st, ⟨selected_sub hin, (selects_iff.1 (selected_selects hin)).1,
    (mem_append.1 hd).imp_right mem_filter.1, hsid.symm,
    hst.head, (startAt_inTime hin (mem_stored hd) hsid).2 hrange.1, hpass⟩, hst, rfl⟩

/-! The pages of a reading -/

theorem mem_page (hm : Matches r.store r.finds r.q st d) (hpage : r.page c = some (lines, next))
    (hpass : (order r.q).passed c next (lineOf d st.id)) :
    lineOf d st.id ∈ lines ↔ st ∈ r.selected ∧ (d ∈ r.store.tail ∨ d ∈ r.shown c) := by
  obtain ⟨hafter, hupTo⟩ := passed_iff.1 hpass
  rw [(page_spec hpage).1, ← mem_append]
  constructor
  · rintro ⟨⟨d', hd', st', hst', hl, _⟩, _⟩
    obtain ⟨rfl, _, hin⟩ := eq_of_pos hm (mem_docs hd') hst' (congrArg Line.pos hl.symm)
    exact ⟨hin, hd'⟩
  · rintro ⟨hst, hd⟩
    exact ⟨⟨d, hd, takes_of_matches hm hst hafter⟩, hupTo⟩

theorem exists_takes (hfollow : Follows r.page c out) (hl : l ∈ out) :
    ∃ c, ∃ d ∈ r.store.tail ++ r.shown c, Takes (r.asked c) r.selected d l := by
  obtain ⟨c, lines, next, _, hpage, hl⟩ := hfollow.exists_page hl
  exact ⟨c, (((page_spec hpage).1 l).1 hl).1⟩

/-- The lines of a reading that ended are what the query is to answer exactly if all that match are among
them. -/
theorem answers_iff (hsorted : r.q.Ordered out) (hfollow : Follows r.page none out) :
    Answers r.store r.finds r.q (answered r.store r.q r.selected out) ↔
      ∀ st d, Matches r.store r.finds r.q st d → lineOf d st.id ∈ out := by
  have hsound : ∀ l₀ ∈ out, r.q.passes (joinPart r.store r.selected l₀) = true →
      ∃ st d, Matches r.store r.finds r.q st d ∧ Heads r.selected d st ∧ l₀ = lineOf d st.id := by
    intro l₀ hl₀ hpass
    obtain ⟨c, d, hd, htakes⟩ := exists_takes hfollow hl₀
    obtain ⟨st, hm⟩ := matches_of_takes htakes (mem_docs hd) hpass
    exact ⟨st, d, hm⟩
  constructor
  · rintro ⟨_, hmem⟩ st d hm
    obtain ⟨hin, hpass⟩ := mem_filter.1 ((hmem _).2 (matching_iff.2 ⟨st, d, hm, rfl⟩))
    obtain ⟨l₀, hl₀, hjoin⟩ := mem_map.1 hin
    -- the line whose join it is has its place
    obtain ⟨st', d', hm', hst', rfl⟩ := hsound l₀ hl₀ (hjoin ▸ hpass)
    have hpos := congrArg Line.pos hjoin
    rw [joinPart_pos, joinPart_pos] at hpos
    obtain ⟨rfl, rfl, _⟩ := eq_of_pos hm (matches_mem hm') hst' hpos
    exact hl₀
  · intro hall
    refine ⟨?_, fun l => ?_⟩
    · refine List.Pairwise.filter _ (pairwise_map.2 (hsorted.imp fun {a b} hab => ?_))
      rw [joinPart_pos, joinPart_pos]
      exact hab
    · rw [matching_iff, answered, mem_filter, mem_map]
      constructor
      · rintro ⟨⟨l₀, hl₀, rfl⟩, hpass⟩
        obtain ⟨st, d, hm, hst, rfl⟩ := hsound l₀ hl₀ hpass
        exact ⟨st, d, hm, joinPart_row selected_sub (bySID_eq_some hst.row).1 rfl⟩
      · rintro ⟨st, d, hm, rfl⟩
        have hin := hall st d hm
        obtain ⟨c, d', hd', st', hst', hl, _⟩ := exists_takes hfollow hin
        obtain ⟨_, _, hsel⟩ := eq_of_pos hm (mem_docs hd') hst' (congrArg Line.pos hl.symm)
        exact ⟨⟨_, hin, joinPart_row selected_sub hsel rfl⟩, hm.passes⟩

section
variable (hne : r.selected ≠ [])
include hne

theorem exists_read_iff : (∃ page, r.read c = some page ∧ page.cursor = next) ↔ ∃ lines, r.page c = some (lines, next) := by
  rw [read, read_past hne, page]
  cases findPage r.store r.search r.scanLimit r.fuel (r.asked c) r.selected with
  | none => simp
  | some page => simp

theorem reached_iff : Reached r.page none c ↔ r.Cursors c := by
  constructor
  · suffices h : ∀ c₀, Reached r.page c₀ c → r.Cursors c₀ → r.Cursors c from fun hc => h none hc .start
    intro c₀ hc
    induction hc with
    | here => exact id
    | next hread _ ih =>
      intro hc₀
      obtain ⟨page, hpage, hcursor⟩ := (exists_read_iff hne).2 ⟨_, hread⟩
      exact ih (.next hc₀ hpage hcursor)
  · intro hc
    induction hc with
    | start => exact .here none
    | next _ hread hnext ih =>
      obtain ⟨lines, hpage⟩ := (exists_read_iff hne).1 ⟨_, hread, hnext⟩
      exact ih.step hpage

theorem exists_page_iff : (∃ page, r.read c = some page) ↔ ∃ lines next, r.page c = some (lines, next) := by
  constructor
  · rintro ⟨page, hread⟩
    obtain ⟨lines, hpage⟩ := (exists_read_iff hne).1 ⟨page, hread, rfl⟩
    exact ⟨lines, _, hpage⟩
  · rintro ⟨lines, next, hpage⟩
    obtain ⟨page, hread, _⟩ := (exists_read_iff hne).2 ⟨lines, hpage⟩
    exact ⟨page, hread⟩

theorem ends_of_follows (h : Follows r.page none out) : r.Ends := by
  intro c hc
  obtain ⟨rest, hrest⟩ := h.of_reached ((reached_iff hne).2 hc)
  refine (exists_page_iff hne).2 ?_
  cases hrest with
  | last hread | more hread => exact ⟨_, _, hread⟩

theorem moves_of_follows (hback : r.NeverBack) (h : Follows r.page none out) : r.Moves := by
  intro p page c' hp hread hnext
  obtain ⟨lines, hpage⟩ := (exists_read_iff hne).1 ⟨page, hread, hnext⟩
  obtain ⟨rest, hrest⟩ := h.of_reached ((reached_iff hne).2 hp)
  rcases r.q.before_or p c' with hlt | rfl | hlt
  · exact hlt
  · exact absurd rfl (hrest.next_ne hpage)
  · exact absurd hlt (hback p page c' hp hread hnext)

theorem moves_page (hmoves : r.Moves) {p c' : Pos} (hp : Reached r.page none (some p))
    (hpage : r.page (some p) = some (lines, some c')) : r.q.before p c' := by
  obtain ⟨page, hread, hnext⟩ := (exists_read_iff hne).2 ⟨lines, hpage⟩
  exact hmoves p page c' ((reached_iff hne).1 hp) hread hnext

theorem turn_of_moves (hmoves : r.Moves) (c : Option Pos) (lines : List Line) (next : Option Pos)
    (hc : Reached r.page none c) (hpage : r.page c = some (lines, next)) : Turn (order r.q) c lines next := by
  refine turn hpage fun p c' hp hn => ?_
  subst hp hn
  exact moves_page hne hmoves hc hpage

/-- All lines that match are read exactly if every page has those it passes. -/
theorem all_iff_shown (hturn : ∀ c lines next, Reached r.page none c → r.page c = some (lines, next) →
      Turn (order r.q) c lines next) (hfollow : Follows r.page none out) :
    (∀ st d, Matches r.store r.finds r.q st d → lineOf d st.id ∈ out) ↔ r.ShowsPassed := by
  have hcomplete := hfollow.complete_iff hturn fun l => ∃ st d, Matches r.store r.finds r.q st d ∧ l = lineOf d st.id
  constructor
  · intro hin c page hc hread st d hm hafter hupTo
    obtain ⟨lines, hpage⟩ := (exists_read_iff hne).1 ⟨page, hread, rfl⟩
    have hpass := passed_iff.2 ⟨hafter, hupTo⟩
    have hpages := hcomplete.1 (by
      rintro _ ⟨st, d, hm, rfl⟩ _
      exact hin st d hm)
    exact (mem_page hm hpage hpass).1
      (hpages c lines page.cursor ((reached_iff hne).2 hc) hpage _ ⟨st, d, hm, rfl⟩ hpass)
  · intro hshown st d hm
    refine hcomplete.2 ?_ _ ⟨st, d, hm, rfl⟩ (fun p hp => by cases hp)
    rintro c lines next hc hpage _ ⟨st, d, hm, rfl⟩ hpass
    obtain ⟨page, hread, rfl⟩ := (exists_read_iff hne).2 ⟨lines, hpage⟩
    obtain ⟨hafter, hupTo⟩ := passed_iff.1 hpass
    exact (mem_page hm hpage hpass).2 (hshown c page ((reached_iff hne).1 hc) hread st d hm hafter hupTo)

end

theorem answered_iff_of_nothing (hcursor : r.q.cursor = none) (hne : r.selected = []) :
    r.Answered ↔ r.Ends ∧ r.Moves ∧ r.ShowsPassed := by
  have hq : r.q = r.q.past none := by rw [← hcursor]
  have hread : ∀ c, Logs.read r.store r.search r.scanLimit r.fuel (r.q.past c) = some ⟨[], none, false⟩ :=
    fun c => if_pos hne
  constructor
  · rintro ⟨pages, lines, heq, _, hmem⟩
    refine ⟨fun c _ => ⟨_, hread c⟩, fun p page c' _ hpage hnext => ?_, fun c page _ _ st d hm _ _ => ?_⟩
    · cases (hread _).symm.trans hpage
      cases hnext
    have hnil : lines = [] := by
      cases pages with
      | zero => cases heq
      | succ pages =>
        rw [hq, readAll, hread] at heq
        exact (Option.some.inj heq).symm
    have hin := (hmem _).2 (matching_iff.2 ⟨st, d, hm, rfl⟩)
    rw [hnil] at hin
    cases hin
  · rintro ⟨-, -, hall⟩
    refine ⟨1, [], ?_, .nil, fun l => ⟨fun hl => absurd hl not_mem_nil, fun hl => ?_⟩⟩
    · rw [hq, readAll, hread]
      rfl
    · obtain ⟨st, d, hm, _⟩ := matching_iff.1 hl
      have hst := (hall none _ .start (hread none) st d hm (by simp) (by simp)).1
      rw [hne] at hst
      cases hst

theorem ends_of_late (hfuel : 2 * r.store.index.length < r.fuel)
    (hlate : r.q.forward = false → ∀ d ∈ r.store.index, 1 < d.ts) : r.Ends := by
  intro c _
  by_cases hne : r.selected = []
  · exact ⟨_, if_pos hne⟩
  · exact (exists_page_iff hne).2 (exists_page c hfuel hlate)

/-- What is read is of the tail, or a search showed it. -/
theorem exists_shown {pages : ℕ} (heq : readAll r.store r.search r.scanLimit r.fuel r.q pages = some lines)
    (hl : l ∈ lines) :
    ∃ d, (d ∈ r.store.tail ∨ ∃ since till, d ∈ r.search r.q.forward since till (maxOf r.q.limit)) ∧ l.pos.off = d.off := by
  by_cases hne : r.selected = []
  · cases pages with
    | zero => cases heq
    | succ pages =>
      rw [readAll, show Logs.read r.store r.search r.scanLimit r.fuel r.q = _ from if_pos hne] at heq
      cases heq
      cases hl
  · rw [show r.q = r.q.past r.q.cursor from rfl, readAll_eq hne] at heq
    obtain ⟨out, hfollow, rfl⟩ := Option.map_eq_some_iff.1 heq
    obtain ⟨l₀, hl₀, rfl⟩ := mem_map.1 (mem_filter.1 hl).1
    obtain ⟨c, d, hd, st, _, rfl, _⟩ := exists_takes (follows_of_follow hfollow) hl₀
    exact ⟨d, (mem_append.1 hd).imp_right fun hd => mem_shownLoop (q := r.asked c) hd, by rw [joinPart_pos]; rfl⟩

end Reading

def firstHits (index : List Doc) (finds : Doc → Bool) : Search := fun forward since till max =>
  ((index.filter fun d => finds d && inTimes since till d).insertionSort (hitOrder forward)).take max

instance (forward : Bool) : Std.Total (hitOrder forward) := ⟨fun a b => by
  unfold hitOrder
  split_ifs <;> omega⟩

instance (forward : Bool) : IsTrans Doc (hitOrder forward) := ⟨fun a b c => by
  unfold hitOrder
  split_ifs <;> omega⟩

theorem firstHits_searches (index : List Doc) (finds : Doc → Bool) : Searches index finds (firstHits index finds) :=
  fun forward _ _ _ => ⟨_, perm_insertionSort _ _, pairwise_insertionSort (hitOrder forward) _, rfl⟩

def wholeRead (limit : ℕ) : Query := ⟨fun _ => true, 0, 10, false, fun _ => true, true, limit, none⟩

def plainDoc (ts off : ℤ) : Doc := ⟨ts, 1, "stdout", 9, "", off, false, false, ['x']⟩

def threeLines : Store where
  rows := [⟨1, 1, some 2, some 3, 3⟩]
  tail := [plainDoc 3 3]
  index := [plainDoc 2 1, plainDoc 2 2]
  ids := by simp
  sids := by simp
  idRange := by simp [minInt64, maxInt64]
  same := by decide
  positive := by decide
  firstPositive := by simp
  times := by decide

def threeRead : Reading where
  store := threeLines
  finds _ := true
  search := firstHits threeLines.index fun _ => true
  scanLimit := 0
  fuel := 5
  q := wholeRead 1
  searches := firstHits_searches _ _
  limit := by decide

/-- The cursors of the reading of three lines, one a page. -/
def threeCursors : List (Option Pos) := [none, some ⟨2, 1, 1⟩, some ⟨2, 1, 2⟩, some ⟨3, 1, 3⟩]

theorem three_pages : ∀ c ∈ threeCursors, ∀ page, threeRead.read c = some page →
    (∀ c', page.cursor = some c' → some c' ∈ threeCursors ∧ ∀ p, c = some p → threeRead.q.before p c') ∧
    ∀ st ∈ threeLines.rows, ∀ d ∈ threeLines.tail ++ threeLines.index, st ∈ threeRead.selected ∧
      ((∀ p, c = some p → threeRead.q.before p (lineOf d st.id).pos) → d ∈ threeLines.tail ∨ d ∈ threeRead.shown c) := by
  have hall : (threeCursors.all fun c => (threeRead.read c).all fun page =>
      (page.cursor.all fun c' => decide (some c' ∈ threeCursors) && c.all fun p => decide (threeRead.q.before p c')) &&
      threeLines.rows.all fun st => (threeLines.tail ++ threeLines.index).all fun d => decide (st ∈ threeRead.selected) &&
        decide ((c.all fun p => decide (threeRead.q.before p (lineOf d st.id).pos)) = true →
          d ∈ threeLines.tail ∨ d ∈ threeRead.shown c)) = true := by
    decide +kernel
  simpa only [all_eq_true, Option.all_eq_true, Bool.and_eq_true, decide_eq_true_eq] using hall

def burst (count : ℕ) : Store where
  rows := [⟨1, 1, some 2, some 2, count⟩]
  tail := []
  index := (range count).map fun n : ℕ => plainDoc 2 n
  ids := by simp
  sids := by simp
  idRange := by simp [minInt64, maxInt64]
  same := by
    simp only [nil_append, mem_map]
    rintro _ ⟨n, _, rfl⟩ _ ⟨m, _, rfl⟩ _ hoff
    exact congrArg (plainDoc 2) hoff
  positive := by
    simp only [nil_append, mem_map]
    rintro _ ⟨n, _, rfl⟩
    simp [plainDoc]
  firstPositive := by simp
  times := by
    simp only [nil_append, mem_map]
    rintro _ ⟨n, _, rfl⟩ st hst _
    rw [mem_singleton.1 hst]
    simp [plainDoc]

theorem firstHits_burst {count max : ℕ} {since till : ℤ} {h : Doc}
    (hh : h ∈ firstHits (burst count).index (fun _ => true) true since till max) : h.off < max := by
  have hsorted : (burst count).index.Pairwise (hitOrder true) := by
    refine pairwise_map.2 (pairwise_lt_range.imp fun {n m} hlt => ?_)
    exact .inr ⟨rfl, Int.ofNat_le.2 hlt.le⟩
  -- all of it is in the range of a search, or nothing
  have hfilter : ((burst count).index.filter fun d => true && inTimes since till d) =
      if inTimes since till (plainDoc 2 0) then (burst count).index else [] := by
    split_ifs with hin
    · refine filter_eq_self.2 fun d hd => ?_
      obtain ⟨n, _, rfl⟩ := mem_map.1 hd
      exact hin
    · refine filter_eq_nil_iff.2 fun d hd => ?_
      obtain ⟨n, _, rfl⟩ := mem_map.1 hd
      exact hin
  rw [firstHits, (hsorted.filter _).insertionSort_eq, hfilter] at hh
  split_ifs at hh
  · rw [burst, ← map_take, take_range] at hh
    obtain ⟨n, hn, rfl⟩ := mem_map.1 hh
    exact Int.ofNat_lt.2 (lt_of_lt_of_le (mem_range.1 hn) (min_le_left _ _))
  · simp at hh

theorem matching_burst {count n : ℕ} (h : n < count) (limit : ℕ) :
    Matching (burst count) (fun _ => true) (wholeRead limit) (lineOf (plainDoc 2 n) 1) := by
  have hmem : plainDoc 2 n ∈ (burst count).index := mem_map.2 ⟨n, mem_range.2 h, rfl⟩
  refine ⟨_, mem_singleton_self _, rfl, plainDoc 2 n, .inr ⟨hmem, rfl⟩, rfl, rfl, ⟨?_, fun h => ?_⟩,
    (joinPart_whole rfl).symm, rfl⟩
  · exact show (2 : ℤ) ≤ 10 by decide
  · exact show (0 : ℤ) ≤ 2 by decide

theorem burst_off_lt {count limit scanLimit fuel pages : ℕ} {lines : List Line} (hlimit : 0 < limit)
    (heq : readAll (burst count) (firstHits (burst count).index fun _ => true)
      scanLimit fuel (wholeRead limit) pages = some lines)
    (hl : l ∈ lines) : l.off < maxOf limit := by
  obtain ⟨d, htail | ⟨since, till, hd⟩, hoff⟩ := exists_shown (r := ⟨burst count, fun _ => true, _, scanLimit, fuel,
    wholeRead limit, firstHits_searches _ _, hlimit⟩) heq hl
  · cases htail
  · exact (show l.off = d.off from hoff) ▸ firstHits_burst hd

end FeOS.Logs
