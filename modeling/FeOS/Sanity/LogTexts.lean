import FeOS.Lib.Masking
import FeOS.Spec.LogRedact

/-! What an entry's text is made of, what is left of it when it is redacted, and that the entries of a
line make the line. -/

namespace FeOS.Redact

open List

open String (utf8EncodeChar)

variable {text : List Piece} {values : List (List Char)} {v : List Char} {c : Char} {p : Piece} {bytes o : List Byte}

theorem mem_mark (h : p ∈ mark) : p.char ∈ marker ∧ p.origin = [] := by
  obtain ⟨c, hc, rfl⟩ := mem_map.1 h
  exact ⟨hc, rfl⟩

/-! Where the characters of a text stand in its bytes -/

/-- The rule of `fromUtf8Lossy`. -/
def lossy (b : Byte) (rest : List Byte) : List Piece × ℕ :=
  match Utf8.decode (vals (b :: rest)) with
  | some c => ([⟨c, (b :: rest).take c.utf8Size⟩], c.utf8Size - 1)
  | none => ([⟨'\ufffd', []⟩], invalidRest (vals (b :: rest)))

theorem fromUtf8Lossy_eq : fromUtf8Lossy = Scan.scan lossy 0 := rfl

theorem origins_sublist (bytes : List Byte) : (fromUtf8Lossy bytes).flatMap Piece.origin <+ bytes := by
  refine Scan.flatMap_scan_sublist (fun b rest => ?_) 0 bytes
  cases Utf8.decode (vals (b :: rest)) with
  | none => simp
  | some c =>
    obtain ⟨k, hk⟩ := Nat.exists_eq_add_of_lt c.utf8Size_pos
    simp [hk]

/-- A byte that goes on with a character begins none. -/
theorem isCont_of_first {b : UInt8} (h : b.IsUTF8FirstByte) : isCont b = false := by
  have hall : ∀ n : Fin 256, (UInt8.ofNat n).IsUTF8FirstByte → isCont (UInt8.ofNat n) = false := by decide +kernel
  have := hall ⟨b.toNat, b.toNat_lt⟩
  simp only [UInt8.ofNat_toNat] at this
  exact this h

theorem isCont_of_threeOk {b₀ b₁ : UInt8} (h : threeOk b₀ b₁ = true) : isCont b₁ = true := by
  simp only [threeOk, isCont, Bool.or_eq_true, Bool.and_eq_true, decide_eq_true_eq] at h ⊢
  rcases h with ((⟨⟨_, hlo⟩, hhi⟩ | ⟨_, h⟩) | ⟨⟨_, hlo⟩, hhi⟩) | ⟨_, h⟩
  · exact ⟨UInt8.le_trans (by decide : (0x80 : UInt8) ≤ 0xa0) hlo, hhi⟩
  · exact h
  · exact ⟨hlo, UInt8.le_trans hhi (by decide : (0x9f : UInt8) ≤ 0xbf)⟩
  · exact h

theorem isCont_of_fourOk {b₀ b₁ : UInt8} (h : fourOk b₀ b₁ = true) : isCont b₁ = true := by
  simp only [fourOk, isCont, Bool.or_eq_true, Bool.and_eq_true, decide_eq_true_eq] at h ⊢
  rcases h with (⟨⟨_, hlo⟩, hhi⟩ | ⟨_, h⟩) | ⟨⟨_, hlo⟩, hhi⟩
  · exact ⟨UInt8.le_trans (by decide : (0x80 : UInt8) ≤ 0x90) hlo, hhi⟩
  · exact h
  · exact ⟨hlo, UInt8.le_trans hhi (by decide : (0x8f : UInt8) ≤ 0xbf)⟩

theorem invalidRest_le {b x : UInt8} {rest more : List UInt8} (hx : isCont x = false) :
    invalidRest (b :: (rest ++ x :: more)) ≤ rest.length := by
  rcases rest with _ | ⟨b₁, _ | ⟨b₂, rest⟩⟩
  · have hthree : ¬ threeOk b x = true := fun h => by simp [isCont_of_threeOk h] at hx
    have hfour : ¬ fourOk b x = true := fun h => by simp [isCont_of_fourOk h] at hx
    rw [nil_append, invalidRest, if_neg hthree, if_neg hfour, length_nil]
  · rw [cons_append, nil_append, invalidRest]
    split_ifs <;> simp_all
  · rw [cons_append, invalidRest]
    split_ifs <;> simp

/-- No character before a first byte, nor bytes that are none, reach over it. -/
theorem lossy_within {b x : Byte} {rest more : List Byte} (hx : x.val.IsUTF8FirstByte) :
    (lossy b (rest ++ x :: more)).2 ≤ rest.length := by
  unfold lossy
  split
  · rename_i c hdec
    by_contra hlt
    -- the byte after `rest` would be inside the character
    have hfirst := Utf8.isFirst_iff (Utf8.encode_prefix_of_decode hdec) (i := rest.length + 1) (b := x.val)
      (by simp [vals]) (by simp only at hlt; omega)
    have := hfirst.1 hx
    omega
  · have hle : invalidRest (b.val :: (vals rest ++ x.val :: vals more)) ≤ (vals rest).length :=
      invalidRest_le (isCont_of_first hx)
    simpa [vals] using hle

theorem scan_utf8 (h : vals o = utf8 v) (more : List Byte) :
    ∃ s, chars s = v ∧ s.flatMap Piece.origin = o ∧ Scan.scan lossy 0 (o ++ more) = s ++ Scan.scan lossy 0 more := by
  induction v generalizing o with
  | nil =>
    obtain rfl : o = [] := by simpa [vals, utf8] using h
    exact ⟨[], rfl, rfl, rfl⟩
  | cons c v ih =>
    obtain ⟨o₁, o₂, rfl, hc, hv⟩ := map_eq_append_iff.1 h
    obtain ⟨s, hs, ho, hscan⟩ := ih hv
    refine ⟨⟨c, o₁⟩ :: s, by rw [← hs]; rfl, by rw [← ho]; rfl, ?_⟩
    have hlen : o₁.length = c.utf8Size := by
      have := congrArg length hc
      simpa using this
    have hpos := c.utf8Size_pos
    cases o₁ with
    | nil =>
      rw [length_nil] at hlen
      omega
    | cons b rest =>
      have hdec : Utf8.decode (vals (b :: (rest ++ (o₂ ++ more)))) = some c := by
        have : vals (b :: (rest ++ (o₂ ++ more))) = utf8EncodeChar c ++ vals (o₂ ++ more) := by
          rw [← hc]
          simp [vals]
        rw [this, Utf8.decode_encode_append]
      have hrest : rest.length = c.utf8Size - 1 := by
        rw [length_cons] at hlen
        omega
      rw [append_assoc, cons_append, Scan.scan, lossy, hdec]
      simp only
      rw [Scan.scan_drop, ← hrest, drop_left, hscan, ← hlen]
      simp

/-- The bytes of a value in a text's are read as the value. -/
theorem exists_read (hne : v ≠ []) (h : vals o = utf8 v) (ho : o <:+: bytes) :
    ∃ s, s <:+: fromUtf8Lossy bytes ∧ chars s = v ∧ s.flatMap Piece.origin = o := by
  obtain ⟨l, r, rfl⟩ := ho
  obtain ⟨c, v', rfl⟩ := exists_cons_of_ne_nil hne
  obtain ⟨s, hs, hso, hscan⟩ := scan_utf8 h r
  obtain ⟨x, o', rfl⟩ : ∃ x o', o = x :: o' := exists_cons_of_ne_nil (by
    rintro rfl
    have := congrArg length h
    have hpos := c.utf8Size_pos
    simp [vals, utf8] at this
    omega)
  have hx : x.val.IsUTF8FirstByte := by
    have hpre : utf8EncodeChar c <+: vals (x :: o') := ⟨utf8 v', h.symm⟩
    exact (Utf8.isFirst_iff hpre (i := 0) (by simp [vals]) c.utf8Size_pos).2 rfl
  obtain ⟨zs, hzs⟩ : ∃ zs, Scan.scan lossy 0 (l ++ (x :: o' ++ r)) = zs ++ Scan.scan lossy 0 (x :: o' ++ r) :=
    Scan.exists_scan_append (Nat.zero_le _) fun b rest _ => lossy_within hx
  refine ⟨s, ⟨zs, Scan.scan lossy 0 r, ?_⟩, hs, hso⟩
  rw [fromUtf8Lossy_eq, append_assoc l, hzs, hscan, append_assoc]

/-! Redaction -/

theorem mem_dedupRuns {l : List (List Char)} : v ∈ dedupRuns l ↔ v ∈ l := by
  fun_induction dedupRuns l with
  | case1 a rest ih => simp [ih]
  | case2 a b rest hne ih => simp [ih]
  | case3 => rfl

theorem dedupRuns_sublist (l : List (List Char)) : dedupRuns l <+ l := by
  fun_induction dedupRuns l with
  | case1 a rest ih => exact ih.cons a
  | case2 a b rest hne ih => exact ih.cons_cons a
  | case3 => exact Sublist.refl _

theorem mem_redactions : v ∈ redactions values ↔ v ∈ values ∧ v ≠ [] := by
  rw [redactions, mem_dedupRuns, (perm_insertionSort _ _).mem_iff, mem_filter, decide_eq_true_iff]

theorem nil_notMem_redactions : [] ∉ redactions values := fun h => (mem_redactions.1 h).2 rfl

/-- A value that has another inside is the longer one. -/
theorem eq_of_infix {u : List Char} (h : u <:+: v) (hlen : byteLen v ≤ byteLen u) : v = u := by
  obtain ⟨l, r, rfl⟩ := h
  have hpos : ∀ s : List Char, byteLen s = 0 → s = [] := by
    intro s hs
    cases s with
    | nil => rfl
    | cons c s =>
      have := c.utf8Size_pos
      simp [byteLen] at hs
      omega
  have hsum : byteLen (l ++ u ++ r) = byteLen l + byteLen u + byteLen r := by
    simp [byteLen, Nat.add_assoc]
  rw [hpos l (by omega), hpos r (by omega), nil_append, append_nil]

/-- The longest first: what comes after a value does not have it inside. -/
theorem redactions_sorted (values : List (List Char)) : (redactions values).Pairwise fun u v => u <:+: v → v = u := by
  have : Std.Total longestFirst := ⟨fun a b => by
    rcases Nat.lt_trichotomy (byteLen a) (byteLen b) with h | h | h
    · exact .inr (.inl h)
    · exact (le_total a b).imp (fun hab => .inr ⟨h.symm, hab⟩) fun hba => .inr ⟨h, hba⟩
    · exact .inl (.inl h)⟩
  have : IsTrans _ longestFirst := ⟨fun a b c hab hbc => by
    rcases hab with hab | ⟨hab, hab'⟩ <;> rcases hbc with hbc | ⟨hbc, hbc'⟩
    · exact .inl (hbc.trans hab)
    · exact .inl (hbc ▸ hab)
    · exact .inl (hab ▸ hbc)
    · exact .inr ⟨hbc.trans hab, hab'.trans hbc'⟩⟩
  have hsort := (pairwise_insertionSort longestFirst (values.filter fun v => v ≠ [])).sublist (dedupRuns_sublist _)
  refine hsort.imp ?_
  rintro u v (h | ⟨h, _⟩) hin
  · exact eq_of_infix hin h.le
  · exact eq_of_infix hin h.le

theorem redact_eq_foldl (text : List Piece) (values : List (List Char)) :
    redact text values = values.foldl (Masking.replace Piece.char mark) text := by
  have hone : redactOne = Masking.replace Piece.char mark := by
    funext text v
    unfold redactOne
    split_ifs with h
    · rfl
    · exact (Masking.replace_eq_self h).symm
  rw [redact, hone]

/-! The lines of an output -/

section
variable {xs ys : List Byte} {n : ℕ}

def newlines (xs : List Byte) : ℕ := xs.countP fun b => b.val = newline

theorem lineOf_zero_begins (xs : List Byte) : lineOf xs 0 <+: xs := by
  induction xs with
  | nil => exact prefix_rfl
  | cons b rest ih =>
    rw [lineOf]
    split_ifs
    · exact nil_prefix
    · exact (prefix_cons_inj b).2 ih

theorem lineOf_infix (xs : List Byte) (n : ℕ) : lineOf xs n <:+: xs := by
  fun_induction lineOf xs n with
  | case1 => exact infix_rfl
  | case2 => exact nil_infix
  | case3 b rest hb _ => exact ((prefix_cons_inj b).2 (lineOf_zero_begins rest)).isInfix
  | case4 b rest n hb ih => exact ih.trans (suffix_cons b rest).isInfix
  | case5 b rest n hb ih => exact ih.trans (suffix_cons b rest).isInfix

theorem newlines_append : newlines (xs ++ ys) = newlines xs + newlines ys := countP_append

theorem newlines_free (h : ∀ b ∈ ys, b.val ≠ newline) : newlines ys = 0 := by
  rw [newlines, countP_eq_zero]
  intro b hb
  simpa using h b hb

theorem lineOf_of_free (hys : ∀ b ∈ ys, b.val ≠ newline) : lineOf ys n = if n = 0 then ys else [] := by
  induction ys with
  | nil => simp [lineOf]
  | cons b ys ih =>
    rw [forall_mem_cons] at hys
    cases n with
    | zero => simp [lineOf, hys.1, ih hys.2]
    | succ n => simp [lineOf, hys.1, ih hys.2]

theorem lineOf_append_free (hys : ∀ b ∈ ys, b.val ≠ newline) :
    lineOf (xs ++ ys) n = lineOf xs n ++ if n = newlines xs then ys else [] := by
  induction xs generalizing n with
  | nil => exact lineOf_of_free hys
  | cons b xs ih =>
    by_cases hb : b.val = newline
    · have hcount : newlines (b :: xs) = newlines xs + 1 := by simp [newlines, hb]
      cases n with
      | zero => simp [lineOf, hb, hcount]
      | succ n => simp [lineOf, hb, hcount, ih]
    · have hcount : newlines (b :: xs) = newlines xs := by simp [newlines, hb]
      cases n with
      | zero => simp [lineOf, hb, hcount, ih]
      | succ n => simp [lineOf, hb, hcount, ih]

theorem lineOf_append_newline {y : Byte} (hy : y.val = newline) : lineOf (xs ++ [y]) n = lineOf xs n := by
  induction xs generalizing n with
  | nil => cases n <;> simp [lineOf, hy]
  | cons b xs ih => cases n <;> simp [lineOf, ih]

end

/-! The entries of a line -/

def textOf (log : List Entry) (src : Source) (n : ℕ) : List Byte :=
  (log.filter fun e => e.source = src ∧ e.line = n).flatMap Entry.text

theorem textOf_append (log out : List Entry) (src : Source) (n : ℕ) :
    textOf (log ++ out) src n = textOf log src n ++ textOf out src n := by
  simp [textOf, filter_append]

theorem textOf_single (e : Entry) (src : Source) (n : ℕ) :
    textOf [e] src n = if e.source = src ∧ e.line = n then e.text else [] := by
  unfold textOf
  split_ifs with h
  · simp [h]
  · simp [h]

/-- The assembler of a stream and the log have what was read: of each line its entries, and for the last
one what is pending. -/
structure Follows (a : Assembler) (log : List Entry) (T : List Byte) : Prop where
  count : a.line = newlines T
  whole : ∀ n, textOf log a.source n ++ (if n = a.line then a.pending else []) = lineOf T n

theorem exists_split {data : List Byte} {k i : ℕ} (h : ((data.take k).findIdx? fun b => b.val == newline) = some i) :
    ∃ before y after, data = before ++ y :: after ∧ y.val = newline ∧ (∀ b ∈ before, b.val ≠ newline) ∧
      (data.take k).take i = before ∧ data.drop (i + 1) = after := by
  obtain ⟨hlt, hnl, hfree⟩ := findIdx?_eq_some_iff_getElem.1 h
  rw [length_take] at hlt
  have htake : (data.take k).take i = data.take i := by
    rw [take_take]
    congr 1
    omega
  refine ⟨data.take i, data[i], data.drop (i + 1), ?_, by simpa using hnl, ?_, htake, rfl⟩
  · rw [getElem_cons_drop, take_append_drop]
  · intro b hb
    obtain ⟨j, hj, rfl⟩ := getElem_of_mem hb
    rw [length_take] at hj
    have := hfree j (by omega)
    simpa using this

structure Assembler.Own (a : Assembler) (r : Assembler × List Entry) : Prop where
  source : r.1.source = a.source
  max : r.1.max = a.max
  out : ∀ e ∈ r.2, e.source = a.source

theorem Assembler.Own.pushLoop (a : Assembler) (fuel : ℕ) (data : List Byte) : a.Own (a.pushLoop fuel data) := by
  induction fuel generalizing a data with
  | zero => exact ⟨rfl, rfl, by simp [Assembler.pushLoop]⟩
  | succ fuel ih =>
    unfold Assembler.pushLoop
    split_ifs with hdata
    · exact ⟨rfl, rfl, by simp⟩
    · simp only
      split
      · rename_i i _
        obtain ⟨hs, hm, ho⟩ := ih { a with pending := [], line := a.line + 1 } (data.drop (i + 1))
        exact ⟨hs, hm, forall_mem_cons.2 ⟨rfl, ho⟩⟩
      · split_ifs
        · obtain ⟨hs, hm, ho⟩ := ih { a with pending := [] } (data.drop (a.max - a.pending.length))
          exact ⟨hs, hm, forall_mem_cons.2 ⟨rfl, ho⟩⟩
        · exact ⟨rfl, rfl, by simp⟩

theorem Assembler.Own.flush (a : Assembler) : a.Own a.flush := by
  unfold Assembler.flush
  split_ifs
  · exact ⟨rfl, rfl, by simp⟩
  · exact ⟨rfl, rfl, by simp⟩

namespace Follows

variable {a : Assembler} {log : List Entry} {T ys : List Byte}

section
variable (h : Follows a log T)
include h

theorem fill (hys : ∀ b ∈ ys, b.val ≠ newline) :
    Follows { a with pending := a.pending ++ ys } log (T ++ ys) where
  count := by rw [newlines_append, newlines_free hys, ← h.count, Nat.add_zero]
  whole n := by
    rw [lineOf_append_free hys, ← h.whole, ← h.count]
    by_cases hn : n = a.line <;> simp [hn]

theorem cut (part : Bool) :
    Follows { a with pending := [] } (log ++ [⟨a.source, part, a.pending, a.line⟩]) T where
  count := h.count
  whole n := by
    rw [← h.whole, textOf_append, textOf_single]
    by_cases hn : n = a.line
    · subst hn
      simp
    · simp [hn, Ne.symm hn]

theorem endLine (hp : a.pending = []) {y : Byte} (hy : y.val = newline) :
    Follows { a with line := a.line + 1 } log (T ++ [y]) where
  count := by simp [newlines, h.count, hy]
  whole n := by
    rw [lineOf_append_newline hy, ← h.whole, hp]
    simp

theorem keep (out : List Entry) (hout : ∀ e ∈ out, e.source ≠ a.source) : Follows a (log ++ out) T where
  count := h.count
  whole n := by
    have hnone : textOf out a.source n = [] := by
      rw [textOf, flatMap_eq_nil_iff]
      intro e he
      have := mem_filter.1 he
      simp only [decide_eq_true_eq] at this
      exact absurd this.2.1 (hout e this.1)
    rw [textOf_append, hnone, append_nil]
    exact h.whole n

theorem flush : Follows a.flush.1 (log ++ a.flush.2) T := by
  unfold Assembler.flush
  split_ifs with hp
  · simpa using h
  · exact h.cut true

end

theorem pushLoop {fuel : ℕ} (data : List Byte) (h : Follows a log T) (hmax : 0 < a.max)
    (hfuel : 2 * data.length + (if a.pending.length < a.max then 0 else 1) < fuel) :
    Follows (a.pushLoop fuel data).1 (log ++ (a.pushLoop fuel data).2) (T ++ data) := by
  induction fuel generalizing a log T data with
  | zero => omega
  | succ fuel ih =>
    unfold Assembler.pushLoop
    split_ifs with hdata
    · simpa [hdata] using h
    · have hpos : 0 < data.length := length_pos_iff.2 hdata
      simp only
      split
      · rename_i i hi
        -- up to the newline, the entry, and the newline itself
        obtain ⟨before, y, after, hd, hy, hfree, htake, hdrop⟩ := exists_split hi
        have hline := ((h.fill hfree).cut false).endLine rfl hy
        have hlen : data.length = before.length + (after.length + 1) := by rw [hd, length_append, length_cons]
        have := ih after hline hmax (by simp only [length_nil, hmax, if_true]; omega)
        rw [htake, hdrop]
        rw [hd]
        simpa using this
      · rename_i hnone
        have hwindow : ∀ b ∈ data.take (a.max - a.pending.length + 1), b.val ≠ newline := by
          intro b hb
          simpa using findIdx?_eq_none_iff.1 hnone b hb
        split_ifs with hroom
        · -- a full part
          have hfree : ∀ b ∈ data.take (a.max - a.pending.length), b.val ≠ newline := fun b hb =>
            hwindow b (take_subset_take_left data (Nat.le_succ _) hb)
          have := ih (data.drop (a.max - a.pending.length)) ((h.fill hfree).cut true) hmax (by
            simp only [length_nil, hmax, if_true, length_drop]
            split_ifs at hfuel <;> omega)
          simpa [append_assoc, take_append_drop] using this
        · have hall : data.take (a.max - a.pending.length + 1) = data := take_of_length_le (by omega)
          rw [hall] at hwindow
          simpa using h.fill hwindow

theorem push (data : List Byte) (h : Follows a log T) (hmax : 0 < a.max) :
    Follows (a.push data).1 (log ++ (a.push data).2) (T ++ data) := by
  refine h.pushLoop data hmax ?_
  split_ifs <;> omega

end Follows

end FeOS.Redact
