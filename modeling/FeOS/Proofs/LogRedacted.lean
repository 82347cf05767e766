import FeOS.Lib.Runs
import FeOS.Sanity.LogTexts

/-! The lines whose values are kept out of the shipped logs: no occurrence of a value is cut or meets
another that it is not in, and none comes of a mark. -/

namespace FeOS.Redact

open Runs List Masking

variable {values : List (List Char)} {w w' : World} {e : Event} {src : Source}

def record (values : List (List Char)) (e : Entry) : Record :=
  ⟨e.source, e.line, e.text, redact (fromUtf8Lossy e.text) (redactions values)⟩

structure Inv (values : List (List Char)) (w : World) : Prop where
  source : ∀ src, (w.lines src).source = src
  max : ∀ src, (w.lines src).max = maxLine
  follows : ∀ src, Follows (w.lines src) w.log (bytesFrom 0 (w.output src))
  shipped : ∀ r ∈ w.shipped, ∃ e ∈ w.log, r = record values e

theorem bytesFrom_append (k : ℕ) (xs ys : List UInt8) :
    bytesFrom k (xs ++ ys) = bytesFrom k xs ++ bytesFrom (k + xs.length) ys := by
  simp [bytesFrom, zipIdx_append]

theorem Inv.init : Inv values .init where
  source _ := rfl
  max _ := rfl
  follows src := by
    refine ⟨rfl, fun n => ?_⟩
    show [] ++ (if n = 0 then [] else []) = lineOf [] n
    split_ifs <;> rfl
  shipped _ h := absurd h not_mem_nil

theorem Inv.took (h : Inv values w) {r : Assembler × List Entry} {output : Source → List UInt8} (hown : (w.lines src).Own r)
    (hout : ∀ other, other ≠ src → output other = w.output other)
    (hfol : Follows r.1 (w.log ++ r.2) (bytesFrom 0 (output src))) : Inv values { w.took src r with output := output } where
  source other := by
    by_cases ho : other = src
    · subst ho
      simp [World.took, hown.source, h.source]
    · simp [World.took, ho, h.source]
  max other := by
    by_cases ho : other = src
    · subst ho
      simp [World.took, hown.max, h.max]
    · simp [World.took, ho, h.max]
  follows other := by
    by_cases ho : other = src
    · subst ho
      simpa [World.took] using hfol
    · have hkeep := (h.follows other).keep r.2 fun e he => by
        rw [hown.out e he, h.source, h.source]
        exact Ne.symm ho
      simpa [World.took, ho, hout other ho] using hkeep
  shipped rec hrec := by
    obtain ⟨e, he, heq⟩ := h.shipped rec hrec
    exact ⟨e, mem_append_left _ he, heq⟩

theorem Inv.step (h : Inv values w) (hs : step values w e = some w') : Inv values w' := by
  cases e with
  | read src data =>
    cases hs
    refine h.took (Assembler.Own.pushLoop _ _ _) (fun other ho => Function.update_of_ne ho _ _) ?_
    rw [Function.update_self, bytesFrom_append, Nat.zero_add]
    exact (h.follows src).push _ (by rw [h.max]; decide)
  | due src =>
    cases hs
    exact h.took (Assembler.Own.flush _) (fun _ _ => rfl) (h.follows src).flush
  | ship room =>
    obtain ⟨e, he, rfl⟩ := Option.map_eq_some_iff.1 hs
    refine ⟨h.source, h.max, h.follows, ?_⟩
    cases room with
    | false => exact h.shipped
    | true =>
      intro r hr
      rcases mem_append.1 hr with hr | hr
      · exact h.shipped r hr
      · exact ⟨e, mem_of_getElem? he, mem_singleton.1 hr⟩

theorem Inv.reach (h : Reach (Redact.step values) (fun _ _ => True) .init w) : Inv values w :=
  Reach.invariant .init (fun _ _ _ hi _ hs => hi.step hs) h

/-! A line that is clear of cuts, overlaps and marks -/

theorem vals_bytesFrom (B : List UInt8) (k : ℕ) : vals (bytesFrom k B) = B := by
  simp [vals, bytesFrom, Function.comp_def]

theorem nodup_bytesFrom (B : List UInt8) (k : ℕ) : (bytesFrom k B).Nodup := by
  refine Nodup.of_map Byte.pos ?_
  have hpos : (bytesFrom k B).map Byte.pos = range' k B.length := by
    rw [bytesFrom, map_map, ← zipIdx_map_snd]
    rfl
  rw [hpos]
  exact nodup_range'

/-- What was sent of a line, before it was redacted. -/
def Record.read (r : Record) : List Piece := fromUtf8Lossy r.bytes

/-- What is shipped of a line is clear: a part that has a byte of an occurrence of a value in the line has
all of it, and no value stands in what was read of the parts over the border of two; where a value begins
inside another, it ends in it; and while the parts are redacted, and when they are put together, no value
stands there with a character of a mark. -/
structure World.Clear (values : List (List Char)) (w : World) (src : Source) (n : ℕ) : Prop where
  cut : ∀ v ∈ redactions values, ∀ o, o <:+: w.line src n → vals o = utf8 v →
    ∀ r ∈ w.recordsOf src n, ∀ b ∈ o, b ∈ r.bytes → o <:+: r.bytes
  joins : Apart Piece.char (redactions values) ((w.recordsOf src n).map Record.read)
  nested : ∀ r ∈ w.recordsOf src n, Nested Piece.char (redactions values) r.read
  turns : ∀ r ∈ w.recordsOf src n, ∀ done, done <+: redactions values →
    Unmarked Piece.char mark (redactions values) (redact r.read done)
  together : Unmarked Piece.char mark (redactions values) ((w.recordsOf src n).flatMap Record.text)

theorem text_within {log : List Entry} {e : Entry} (he : e ∈ log) : e.text <:+: textOf log e.source e.line := by
  obtain ⟨l, r, hlr⟩ := append_of_mem (mem_filter.2 ⟨he, decide_eq_true ⟨rfl, rfl⟩⟩ :
    e ∈ log.filter fun x => x.source = e.source ∧ x.line = e.line)
  refine ⟨l.flatMap Entry.text, r.flatMap Entry.text, ?_⟩
  rw [textOf, hlr]
  simp

variable {n : ℕ} {r : Record}

theorem Inv.record_of (h : Inv values w) (hr : r ∈ w.recordsOf src n) :
    r.bytes <:+: w.line src n ∧ r.text = redact r.read (redactions values) := by
  obtain ⟨hr, hsrc⟩ := mem_filter.1 hr
  obtain ⟨e, he, rfl⟩ := h.shipped r hr
  obtain ⟨rfl, rfl⟩ := of_decide_eq_true hsrc
  have hwhole := (h.follows e.source).whole e.line
  rw [h.source] at hwhole
  have hline : textOf w.log e.source e.line <+: w.line e.source e.line := ⟨_, hwhole⟩
  exact ⟨(text_within he).trans hline.isInfix, rfl⟩

theorem mark_ne_nil : mark ≠ [] := by decide

/-- A part as it was read and as it is shipped. -/
theorem World.Clear.exists_parts (h : w.Clear values src n) (hinv : Inv values w) (hr : r ∈ w.recordsOf src n) :
    ∃ ts, ts.flatten = r.read ∧ Parts Piece.char (redactions values) ts ∧
      ts.flatMap (masked Piece.char mark (redactions values)) = r.text := by
  obtain ⟨ts, hts, hparts⟩ := Masking.exists_parts nil_notMem_redactions (h.nested r hr)
  refine ⟨ts, hts, hparts, ?_⟩
  rw [(hinv.record_of hr).2, redact_eq_foldl, ← hts]
  refine (foldl_replace hparts nil_notMem_redactions mark_ne_nil (redactions_sorted values) ?_ prefix_rfl).symm
  intro done hdone
  rw [hts, ← redact_eq_foldl]
  exact h.turns r hr done hdone

/-- All parts of a line. -/
theorem exists_line_parts {vs : List (List Char)} (rs : List Record)
    (h : ∀ r ∈ rs, ∃ ts, ts.flatten = r.read ∧ Parts Piece.char vs ts ∧ ts.flatMap (masked Piece.char mark vs) = r.text)
    (hjoins : Apart Piece.char vs (rs.map Record.read)) :
    ∃ ts, ts.flatten = (rs.map Record.read).flatten ∧ Parts Piece.char vs ts ∧
      ts.flatMap (masked Piece.char mark vs) = rs.flatMap Record.text := by
  induction rs with
  | nil => exact ⟨[], rfl, ⟨trivial, by simp⟩, rfl⟩
  | cons r rs ih =>
    obtain ⟨ts, hts, hparts, htext⟩ := h r mem_cons_self
    obtain ⟨ts', hts', hparts', htext'⟩ := ih (fun r' hr' => h r' (mem_cons_of_mem _ hr')) hjoins.2
    refine ⟨ts ++ ts', by simp [hts, hts'], hparts.append hparts' ?_, by simp [htext, htext']⟩
    rw [hts, hts']
    exact hjoins.1

theorem World.Clear.not_in_text (h : w.Clear values src n) (hinv : Inv values w) {v : List Char}
    (hv : v ∈ redactions values) : ¬ v <:+: w.text src n := by
  obtain ⟨ts, _, hparts, htext⟩ := exists_line_parts _ (fun r hr => h.exists_parts hinv hr) h.joins
  have hno := not_infix_masked hparts nil_notMem_redactions mark_ne_nil hv (htext ▸ h.together)
  rwa [htext, map_flatMap] at hno

theorem World.Clear.not_shown (h : w.Clear values src n) (hinv : Inv values w) {v : List Char}
    (hv : v ∈ redactions values) {o : List Byte} (ho : o <:+: w.line src n) (hvo : vals o = utf8 v) {b : Byte} (hb : b ∈ o) :
    b ∉ w.shown src n := by
  intro hshown
  obtain ⟨r, hr, hbr⟩ := mem_flatMap.1 hshown
  obtain ⟨p, hp, hbp⟩ := mem_flatMap.1 hbr
  obtain ⟨ts, hts, hparts, htext⟩ := h.exists_parts hinv hr
  -- the part it is shipped in is not masked
  rw [← htext] at hp
  obtain ⟨s', hs', hps'⟩ := mem_flatMap.1 hp
  rw [masked] at hps'
  split_ifs at hps' with hmasked
  · rw [(mem_mark hps').2] at hbp
    exact absurd hbp not_mem_nil
  have hpread : p ∈ r.read := by
    rw [← hts]
    exact mem_flatten.2 ⟨s', hs', hps'⟩
  have hbytes : b ∈ r.bytes := (origins_sublist r.bytes).subset (mem_flatMap.2 ⟨p, hpread, hbp⟩)
  -- the occurrence is in the same record, and in a part that is masked
  obtain ⟨s, hs, rfl, rfl⟩ := exists_read (fun hnil => nil_notMem_redactions (hnil ▸ hv)) hvo
    (h.cut v hv o ho hvo r hr b hb hbytes)
  have hne : s ≠ [] := by
    rintro rfl
    exact nil_notMem_redactions hv
  obtain ⟨m, hm, hmv, hsm⟩ := hparts.exists_mem (hts ▸ hs) hne hv
  -- no byte stands in two parts
  have hnodup : (ts.flatMap fun s => s.flatMap Piece.origin).Nodup := by
    have hread : (ts.flatMap fun s => s.flatMap Piece.origin) = r.read.flatMap Piece.origin := by
      rw [← hts, flatten_eq_flatMap, flatMap_assoc]
      rfl
    rw [hread]
    exact ((nodup_bytesFrom _ 0).sublist
      ((hinv.record_of hr).1.trans ( lineOf_infix _ n)).sublist).sublist (origins_sublist _)
  have : Std.Symm (Function.onFun List.Disjoint fun s : List Piece => s.flatMap Piece.origin) := ⟨fun _ _ h => h.symm⟩
  have hdis := (nodup_flatMap.1 hnodup).2.forall hm hs' (by rintro rfl; exact hmasked hmv)
  obtain ⟨x, hx, hbx⟩ := mem_flatMap.1 hb
  exact hdis (mem_flatMap.2 ⟨x, hsm.subset hx, hbx⟩) (mem_flatMap.2 ⟨p, hps', hbp⟩)

def hunter2 : List Char := ['h', 'u', 'n', 't', 'e', 'r', '2']

/-- A line with a value in it, read at once. -/
def loginLine : Entry := ⟨.stdout, false, bytesFrom 0 (utf8 (['p', 'w', ' '] ++ hunter2 ++ [' ', 'o', 'k'])), 0⟩

theorem nested_hunter2 (text : List Piece) : Nested Piece.char [hunter2] text := by
  intro u hu v hv a b _ ha hlen hpre hpre'
  rw [mem_singleton] at hu hv
  subst hu hv
  -- the value would begin again inside itself
  have hdrop : hunter2.drop a.length <+: b.map Piece.char := by
    have := hpre.drop a.length
    rwa [map_append, ← @length_map _ _ a Piece.char, drop_left, length_map] at this
  have hself := prefix_of_prefix_length_le hdrop hpre' (by simp)
  have hno : ∀ k < hunter2.length, 0 < k → ¬ hunter2.drop k <+: hunter2 := by decide
  exact absurd hself (hno _ hlen (length_pos_iff.2 ha))

def twofast : List Char := ['2', 'f', 'a', 's', 't']

theorem log_keeps_output (values : List (List Char)) :
    (∀ w, Reach (step values) (fun _ _ => True) .init w → ∀ src n, n < newlines (bytesFrom 0 (w.output src)) →
      textOf w.log src n = w.line src n) ∧
    ∀ w, Reach (step values) (fun _ _ => True) .init w → ∀ src, (w.lines src).pending = [] →
      ∀ n, textOf w.log src n = w.line src n := by
  have hwhole : ∀ w, Reach (step values) (fun _ _ => True) .init w → ∀ src n,
      n ≠ newlines (bytesFrom 0 (w.output src)) ∨ (w.lines src).pending = [] → textOf w.log src n = w.line src n := by
    intro w h src n hn
    have hinv := Inv.reach h
    have hline := (hinv.follows src).whole n
    rw [hinv.source, (hinv.follows src).count] at hline
    rcases hn with hn | hn <;> simpa [hn, World.line] using hline
  exact ⟨fun w h src n hn => hwhole w h src n (.inl hn.ne), fun w h src hp n => hwhole w h src n (.inr hp)⟩

theorem log_keeps_output_line : ∃ w, Reach (step []) (fun _ _ => True) .init w ∧ w.line .stdout 0 ≠ [] ∧
    textOf w.log .stdout 0 = w.line .stdout 0 := by
  obtain ⟨w, hreach, hlt, hne⟩ : ∃ w, Reach (step []) (fun _ _ => True) .init w ∧
      0 < newlines (bytesFrom 0 (w.output .stdout)) ∧ w.line .stdout 0 ≠ [] :=
    exists_follow [.read .stdout [97, newline, 98]] (by decide +kernel)
  exact ⟨w, hreach, hne, (log_keeps_output []).1 w hreach .stdout 0 hlt⟩

end FeOS.Redact
