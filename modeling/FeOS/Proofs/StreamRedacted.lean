import FeOS.Sanity.RedactSpans

/-! The redaction of a stream is that of the whole, however the stream is cut: what went on is masked where a value
stands over it, and no place is counted twice. -/

namespace FeOS.Authn

open Intervals List Scanner Splice

variable {r : Redactor} {p buf x y out o chunk : Bytes} {d g i j k n cut : ℕ} {places places' spans : List (ℕ × ℕ)}

/-! Masks -/

@[simp] theorem length_mask (len : ℕ) : (mask len).length = len := by
  unfold mask
  dsimp only
  rw [length_append, length_replicate]
  split_ifs with h1 h2
  · omega
  · omega
  · simp

def Within (places : List (ℕ × ℕ)) (len : ℕ) : Prop := ∀ a ∈ places, a.1 ≤ a.2 ∧ a.2 ≤ len

theorem Within.lt_of_covers (h : Within places n) (hi : Covers places i) : i < n := by
  obtain ⟨a, ha, -, hlt⟩ := hi
  exact hlt.trans_le (h a ha).2

theorem maskAll_cons (buf : Bytes) (a : ℕ × ℕ) (places : List (ℕ × ℕ)) :
    maskAll buf (a :: places) = maskAll (splice buf a.1 (mask (a.2 - a.1))) places := rfl

/-- One mask keeps the length, so what is left stays within. -/
theorem Within.of_cons {a : ℕ × ℕ} (h : Within (a :: places) buf.length) : (a.1 ≤ a.2 ∧ a.2 ≤ buf.length) ∧
    (splice buf a.1 (mask (a.2 - a.1))).length = buf.length ∧
      Within places (splice buf a.1 (mask (a.2 - a.1))).length := by
  have hlt := h a mem_cons_self
  have hlen : (splice buf a.1 (mask (a.2 - a.1))).length = buf.length := by
    rw [length_splice _ (hlt.1.trans hlt.2), length_mask]
    omega
  refine ⟨hlt, hlen, ?_⟩
  rw [hlen]
  exact fun b hb => h b (mem_cons_of_mem a hb)

theorem length_maskAll (h : Within places buf.length) : (maskAll buf places).length = buf.length := by
  induction places generalizing buf with
  | nil => rfl
  | cons a places ih =>
    obtain ⟨-, hlen, hrest⟩ := h.of_cons
    rw [maskAll_cons, ih hrest, hlen]

theorem getElem?_maskAll (h : Within places buf.length) (hi : ¬ Covers places i) : (maskAll buf places)[i]? = buf[i]? := by
  induction places generalizing buf with
  | nil => rfl
  | cons a places ih =>
    obtain ⟨⟨h1, h2⟩, -, hrest⟩ := h.of_cons
    rw [covers_cons, not_or] at hi
    rw [maskAll_cons, ih hrest hi.2, getElem?_splice _ (h1.trans h2), length_mask, if_neg]
    omega

theorem exists_mask_of_covers (h : Within places buf.length) (hi : Covers places i) :
    ∃ len, ∃ b ∈ mask len, (maskAll buf places)[i]? = some b := by
  induction places generalizing buf with
  | nil => exact absurd hi (by rintro ⟨a, ⟨⟩, -⟩)
  | cons a places ih =>
    obtain ⟨⟨h1, h2⟩, -, hrest⟩ := h.of_cons
    rw [maskAll_cons]
    by_cases hlater : Covers places i
    · exact ih hrest hlater
    · -- this mask is the last over the place
      have hin := (covers_cons.1 hi).resolve_right hlater
      have hb : i - a.1 < (mask (a.2 - a.1)).length := by
        rw [length_mask]
        omega
      refine ⟨_, _, getElem_mem hb, ?_⟩
      rw [getElem?_maskAll hrest hlater, getElem?_splice _ (h1.trans h2), length_mask, if_pos (by omega)]
      exact getElem?_eq_getElem hb

theorem maskAll_append_left (h : Within places x.length) : maskAll (x ++ y) places = maskAll x places ++ y := by
  induction places generalizing x with
  | nil => rfl
  | cons a places ih =>
    obtain ⟨⟨h1, h2⟩, -, hrest⟩ := h.of_cons
    have hfirst : splice (x ++ y) a.1 (mask (a.2 - a.1)) = splice x a.1 (mask (a.2 - a.1)) ++ y := by
      simp only [splice, length_mask]
      rw [take_append_of_le_length (by omega), drop_append_of_le_length (by omega), append_assoc,
        append_assoc, append_assoc]
    rw [maskAll_cons, maskAll_cons, hfirst, ih hrest]

def shift (n : ℕ) (places : List (ℕ × ℕ)) : List (ℕ × ℕ) := places.map fun a => (n + a.1, n + a.2)

theorem maskAll_append_right (x y : Bytes) (places : List (ℕ × ℕ)) :
    maskAll (x ++ y) (shift x.length places) = x ++ maskAll y places := by
  induction places generalizing y with
  | nil => rfl
  | cons a places ih =>
    have hfirst : splice (x ++ y) (x.length + a.1) (mask (x.length + a.2 - (x.length + a.1))) =
        x ++ splice y a.1 (mask (a.2 - a.1)) := by
      rw [Nat.add_sub_add_left]
      simp only [splice, length_mask]
      rw [take_length_add_append, Nat.add_assoc, drop_length_add_append]
      simp only [append_assoc]
    rw [shift, map_cons, maskAll_cons, ← shift, hfirst, ih, maskAll_cons]

theorem maskAll_append (h : Within places x.length) (y : Bytes) (places' : List (ℕ × ℕ)) :
    maskAll x places ++ maskAll y places' = maskAll (x ++ y) (places ++ shift x.length places') := by
  have hfold : maskAll (x ++ y) (places ++ shift x.length places') =
      maskAll (maskAll (x ++ y) places) (shift x.length places') := by
    simp only [maskAll, foldl_append]
  rw [hfold, maskAll_append_left h, ← length_maskAll h, maskAll_append_right]

theorem covers_shift (n : ℕ) : Covers (shift n places) i ↔ n ≤ i ∧ Covers places (i - n) := by
  simp only [Covers, shift, mem_map]
  constructor
  · rintro ⟨-, ⟨a, ha, rfl⟩, hi⟩
    exact ⟨by omega, a, ha, by omega, by omega⟩
  · rintro ⟨hn, a, ha, hi⟩
    exact ⟨_, ⟨a, ha, rfl⟩, by dsimp only; omega, by dsimp only; omega⟩

/-! Values in a stream that goes on -/

theorem Over.lt_length (h : Over r x d i) : i < x.length := by
  obtain ⟨p, hp, s, -, hat, hlt⟩ := h
  have := end_le_of_isPrefix (ne_nil_of_mem hp) hat
  omega

theorem Hit.lt_length (h : Hit r x i) : i < x.length := Over.lt_length (hit_iff_over.1 h)

theorem Over.weaken (h : Over r x 1 i) (hd : d ≤ 1) : Over r x d i := by
  obtain ⟨p, hp, s, hs, hat, hlt⟩ := h
  exact ⟨p, hp, s, by omega, hat, hlt⟩

def Begun (r : Redactor) (x : Bytes) (g : ℕ) : Prop := ∀ p ∈ r.finders, ∀ t < g, x.length - t < p.length → ¬ x.drop t <+: p

theorem Begun.isPrefix_append (h : Begun r x g) (hg : g ≤ x.length) (hp : p ∈ r.finders) {t : ℕ} (ht : t < g) :
    p <+: (x ++ y).drop t ↔ p <+: x.drop t := by
  rw [drop_append_of_le_length (by omega)]
  refine ⟨fun hat => ?_, fun hat => hat.trans (prefix_append _ _)⟩
  rcases prefix_or_prefix_of_prefix hat (prefix_append (x.drop t) y) with hwhole | hshort
  · exact hwhole
  · by_cases hlen : x.length - t < p.length
    · exact absurd hshort (h p hp t ht hlen)
    · have heq : x.drop t = p := hshort.eq_of_length_le (by rw [length_drop]; omega)
      rw [heq]

theorem Begun.append (h : Begun r x g) (hg : g ≤ x.length) : Begun r (x ++ y) g := by
  intro p hp t ht hlen hat
  rw [drop_append_of_le_length (by omega)] at hat
  rw [length_append] at hlen
  exact h p hp t ht (by omega) ((prefix_append _ _).trans hat)

theorem Begun.over_append (h : Begun r x g) (hg : g ≤ x.length) (hi : i < g + d) : Over r (x ++ y) d i ↔ Over r x d i := by
  constructor
  · rintro ⟨p, hp, s, hs, hat, hlt⟩
    exact ⟨p, hp, s, hs, (h.isPrefix_append hg hp (by omega)).1 hat, hlt⟩
  · rintro ⟨p, hp, s, hs, hat, hlt⟩
    exact ⟨p, hp, s, hs, (h.isPrefix_append hg hp (by omega)).2 hat, hlt⟩

theorem Over.append (h : Over r x 1 i) : Over r (x ++ y) 1 i := by
  obtain ⟨p, hp, s, hs, hat, hlt⟩ := h
  have hend := end_le_of_isPrefix (ne_nil_of_mem hp) hat
  refine ⟨p, hp, s, hs, ?_, hlt⟩
  rw [drop_append_of_le_length (by omega)]
  exact hat.trans (prefix_append _ _)

/-! What went on -/

/-- The first `out.length` bytes of the stream went on, masked where a value stands over them. -/
structure Passed (r : Redactor) (x out : Bytes) : Prop where
  len : out.length ≤ x.length
  places : ∃ places, Within places out.length ∧ (∀ i < out.length, Covers places i ↔ Hit r x i) ∧
    out = maskAll (x.take out.length) places

theorem Passed.append (h : Passed r x out) (hb : Begun r x out.length) : Passed r (x ++ y) out where
  len := by
    rw [length_append]
    exact h.len.trans (Nat.le_add_right _ _)
  places := by
    obtain ⟨places, hwithin, hcovers, hout⟩ := h.places
    refine ⟨places, hwithin, fun i hi => (hcovers i hi).trans (hb.over_append (d := 0) h.len hi).symm, ?_⟩
    rw [take_append_of_le_length h.len]
    exact hout

def placesBefore (r : Redactor) (x : Bytes) (g : ℕ) : ℕ := (range g).countP fun i => decide (Hit r x i ∧ ¬ Over r x 1 i)

theorem Begun.placesBefore_append (hb : Begun r x g) (hg : g ≤ x.length) :
    placesBefore r (x ++ y) g = placesBefore r x g := by
  refine countP_congr fun i hi => ?_
  have hlt := mem_range.1 hi
  simp only [decide_eq_true_eq, hit_iff_over, hb.over_append (d := 0) hg hlt,
    hb.over_append (d := 1) hg (Nat.lt_succ_of_lt hlt)]

/-- What the masked bytes of the carry stand for: the places found before that reach into what waits. -/
structure Inherits (r : Redactor) (x : Bytes) (g k : ℕ) : Prop where
  deep : ∀ j < k, Over r x 1 (g + j)
  zero : k = 0 → ¬ Over r x 1 g
  reach : ∀ p ∈ r.finders, ∀ t < g, p <+: x.drop t → ∀ j, g + j < t + p.length → j < k

theorem Inherits.of_run (hdeep : ∀ j < k, Over r x 1 (g + j)) (hend : ¬ Over r x 1 (g + k)) : Inherits r x g k where
  deep := hdeep
  zero hk := by
    rw [hk] at hend
    exact hend
  reach p hp t ht hat j hj := by
    by_contra hle
    exact hend ⟨p, hp, t, by omega, hat, by omega⟩

theorem Inherits.append (h : Inherits r x g k) (hb : Begun r x g) (hg : g ≤ x.length) : Inherits r (x ++ y) g k where
  deep j hj := (h.deep j hj).append
  zero hk := fun hd => h.zero hk ((hb.over_append hg (Nat.lt_succ_self g)).1 hd)
  reach p hp t ht hat := h.reach p hp t ht ((hb.isPrefix_append hg hp ht).1 hat)

theorem Inherits.meets (h : Inherits r x g k) (hs : SpansOk r (x.drop g) k spans) (hd : d ≤ 1) (hi : d ≤ i) :
    Meets d spans i ↔ Over r x d (g + i) := by
  rw [hs.meets d hd]
  constructor
  · rintro (hk | ⟨p, hp, s, hlt, hat, hend⟩)
    · exact (h.deep i (by omega)).weaken hd
    · rw [drop_drop] at hat
      exact ⟨p, hp, g + s, by omega, hat, by omega⟩
  · rintro ⟨p, hp, s, hlt, hat, hend⟩
    rcases Nat.lt_or_ge s g with hbefore | hafter
    · have hlen := end_le_of_isPrefix (ne_nil_of_mem hp) hat
      have hk := h.reach p hp s hbefore hat i hend
      rw [length_drop]
      exact .inl (by omega)
    · refine .inr ⟨p, hp, s - g, by omega, ?_, by omega⟩
      rwa [drop_drop, show g + (s - g) = s by omega]

theorem Inherits.covers (h : Inherits r x g k) (hs : SpansOk r (x.drop g) k spans) : Covers spans i ↔ Hit r x (g + i) :=
  h.meets hs zero_le_one (Nat.zero_le i)

theorem not_inside_zero : ¬ Meets 1 spans 0 := by
  rintro ⟨a, -, hlt, -⟩
  exact Nat.not_lt_zero _ hlt

/-! A round -/

theorem within_passedPlaces (h : Apart spans) : Within (passedPlaces cut spans) cut := by
  intro b hb
  obtain ⟨a, ha, rfl⟩ := mem_map.1 hb
  obtain ⟨ha, hlt⟩ := mem_filter.1 ha
  have := h.lt a ha
  have := of_decide_eq_true hlt
  dsimp only
  omega

theorem covers_passedPlaces (hi : i < cut) : Covers (passedPlaces cut spans) i ↔ Covers spans i := by
  simp only [Covers, passedPlaces, mem_map, mem_filter, decide_eq_true_eq]
  constructor
  · rintro ⟨-, ⟨a, ⟨ha, -⟩, rfl⟩, hle, hlt⟩
    dsimp only at hle hlt
    exact ⟨a, ha, hle, by omega⟩
  · rintro ⟨a, ha, hle, hlt⟩
    exact ⟨_, ⟨a, ⟨ha, by omega⟩, rfl⟩, hle, by dsimp only; omega⟩

theorem Inherits.placesBefore_add (h : Inherits r x g k) (hs : SpansOk r (x.drop g) k spans) (cut : ℕ) :
    placesBefore r x (g + cut) = placesBefore r x g + newPlaces k cut spans := by
  have hcount := hs.apart.countP_fst (fun i => ¬ (0 < k ∧ i = 0)) cut
  rw [placesBefore, range_add, countP_append, countP_map, newPlaces, hcount]
  refine congrArg _ (countP_congr fun i _ => ?_)
  simp only [Function.comp_apply, decide_eq_true_eq, h.covers hs]
  rcases Nat.eq_zero_or_pos i with rfl | hi
  · -- the first place is new unless it was found before
    have hzero : ¬ Over r x 1 g ↔ ¬ (0 < k ∧ True) := by
      constructor
      · rintro hd ⟨hk, -⟩
        exact hd (h.deep 0 hk)
      · intro hk
        refine h.zero ?_
        by_contra hpos
        exact hk ⟨Nat.pos_of_ne_zero hpos, trivial⟩
    simp only [not_inside_zero, not_false_eq_true, and_true, Nat.add_zero, hzero]
  · have hne : ¬ (0 < k ∧ i = 0) := by omega
    simp only [h.meets hs le_rfl hi, hne, not_false_eq_true, and_true]

theorem Passed.round {piece : Bytes} (h : Passed r x out) (hk : Inherits r x out.length k)
    (hs : SpansOk r (x.drop out.length) k spans) (hcut : cut ≤ x.length - out.length)
    (hpiece : piece = maskAll ((x.drop out.length).take cut) (passedPlaces cut spans)) :
    (out ++ piece).length = out.length + cut ∧ Passed r x (out ++ piece) := by
  obtain ⟨places, hwithin, hcovers, hout⟩ := h.places
  have hle := h.len
  have hnew : Within (passedPlaces cut spans) cut := within_passedPlaces hs.apart
  have htake : ((x.drop out.length).take cut).length = cut := by
    rw [length_take, length_drop]
    omega
  have hlen : (out ++ piece).length = out.length + cut := by
    rw [length_append, hpiece, length_maskAll (by rwa [htake]), htake]
  have hx : (x.take out.length).length = out.length := by
    rw [length_take]
    omega
  refine ⟨hlen, ?_, places ++ shift out.length (passedPlaces cut spans), ?_, ?_, ?_⟩
  · omega
  · rw [hlen]
    intro a ha
    rcases mem_append.1 ha with ha | ha
    · have := hwithin a ha
      omega
    · obtain ⟨b, hb, rfl⟩ := mem_map.1 ha
      have := hnew b hb
      dsimp only
      omega
  · rw [hlen]
    intro i hi
    rw [covers_append, covers_shift]
    rcases Nat.lt_or_ge i out.length with hold | hfresh
    · simp only [hold.not_ge, false_and, or_false, hcovers i hold]
    · obtain ⟨j, rfl⟩ := Nat.exists_eq_add_of_le hfresh
      have hplaces : ¬ Covers places (out.length + j) := fun hc => hfresh.not_gt (hwithin.lt_of_covers hc)
      simp only [hplaces, false_or, hfresh, true_and, Nat.add_sub_cancel_left,
        covers_passedPlaces (show j < cut by omega), hk.covers hs]
  · have happend := maskAll_append (by rwa [hx]) ((x.drop out.length).take cut) (passedPlaces cut spans)
    rw [← hout, hx, ← hpiece, ← take_add] at happend
    rw [hlen]
    exact happend

def Reaches (k cut : ℕ) (a : ℕ × ℕ) : Prop := (a.1 < cut ∧ cut < a.2) ∨ (cut ≤ a.1 ∧ 0 < k ∧ a.1 = 0)

instance (k cut : ℕ) (a : ℕ × ℕ) : Decidable (Reaches k cut a) := inferInstanceAs (Decidable (_ ∨ _))

theorem foldl_keep {α : Type} {f : α → ℕ} {q : α → Prop} [DecidablePred q] {v m : ℕ} {l : List α}
    (hv : ∀ a ∈ l, q a → f a = v)
    (h : m = v ∨ ∃ a ∈ l, q a) : l.foldl (fun m a => if q a then f a else m) m = v := by
  induction l generalizing m with
  | nil => exact h.resolve_right (by simp)
  | cons a l ih =>
    rw [foldl_cons]
    have hrest : ∀ b ∈ l, q b → f b = v := fun b hb => hv b (mem_cons_of_mem a hb)
    split_ifs with ha
    · exact ih hrest (.inl (hv a mem_cons_self ha))
    · refine ih hrest (h.imp_right ?_)
      rintro ⟨b, hb, hqb⟩
      rcases mem_cons.1 hb with rfl | hb
      · exact absurd hqb ha
      · exact ⟨b, hb, hqb⟩

theorem maskedAfter_eq_foldl : maskedAfter k cut spans =
    spans.foldl (fun m a => if Reaches k cut a then a.2 - cut else m) 0 := by
  unfold maskedAfter
  congr 1
  funext m a
  by_cases ha : Reaches k cut a
  · rw [if_pos ha]
    unfold Reaches at ha
    split_ifs <;> omega
  · rw [if_neg ha]
    unfold Reaches at ha
    split_ifs <;> omega

theorem reaches_unique (h : Apart spans) {a b : ℕ × ℕ} (ha : a ∈ spans) (hb : b ∈ spans) (hra : Reaches k cut a)
    (hrb : Reaches k cut b) : a = b := by
  by_contra hne
  have hla := h.lt a ha
  have hlb := h.lt b hb
  unfold Reaches at hra hrb
  rcases h.rel ha hb hne with hle | hle
  · omega
  · omega

theorem Inherits.maskedAfter (h : Inherits r x g k) (hs : SpansOk r (x.drop g) k spans)
    (hk : 0 < k → g < x.length) (cut : ℕ) :
    (∀ j < maskedAfter k cut spans, Over r x 1 (g + cut + j)) ∧ ¬ Over r x 1 (g + cut + maskedAfter k cut spans) := by
  rw [maskedAfter_eq_foldl]
  by_cases hreach : ∃ a ∈ spans, Reaches k cut a
  · obtain ⟨a, ha, hra⟩ := hreach
    have hlt := hs.apart.lt a ha
    rw [foldl_keep (v := a.2 - cut) (fun b hb hrb => by rw [reaches_unique hs.apart hb ha hrb hra]) (.inr ⟨a, ha, hra⟩)]
    have hend := hs.apart.not_inside_end ha
    rw [h.meets hs le_rfl (by omega)] at hend
    unfold Reaches at hra
    refine ⟨fun j hj => ?_, ?_⟩
    · rcases Nat.eq_zero_or_pos (cut + j) with hzero | hpos
      · -- nothing goes on: what was masked before still is
        have hk : 0 < k := by omega
        have := h.deep 0 hk
        rwa [show g + cut + j = g + 0 by omega]
      · rw [Nat.add_assoc, ← h.meets hs le_rfl hpos]
        exact ⟨a, ha, by omega, by omega⟩
    · rwa [show g + cut + (a.2 - cut) = g + a.2 by omega]
  · rw [foldl_keep (v := 0) (fun a ha hra => absurd ⟨a, ha, hra⟩ hreach) (.inl rfl)]
    refine ⟨nofun, ?_⟩
    rw [Nat.add_zero]
    rcases Nat.eq_zero_or_pos cut with rfl | hpos
    · refine h.zero ?_
      by_contra hne
      have hkpos := Nat.pos_of_ne_zero hne
      have hlen := hk hkpos
      obtain ⟨a, ha, hle, -⟩ := (hs.meets 0 zero_le_one 0).2 (.inl (by rw [length_drop]; omega))
      exact hreach ⟨a, ha, .inr ⟨Nat.zero_le _, hkpos, by omega⟩⟩
    · rw [← h.meets hs le_rfl hpos]
      rintro ⟨a, ha, hlt, hend⟩
      exact hreach ⟨a, ha, .inl ⟨hlt, hend⟩⟩

/-! The scanner -/

/-- The scanner between two chunks of the stream: `out` went on, the rest waits; `base` places were counted before
the stream. -/
structure Scanner.Inv (r : Redactor) (base : ℕ) (x out : Bytes) (s : Scanner) : Prop where
  redactor : s.redactor = r
  passed : Passed r x out
  carry : s.carry = x.drop out.length
  begun : Begun r x out.length
  masked : ∀ j < s.carryMasked, Over r x 1 (out.length + j)
  maskedEnd : ¬ Over r x 1 (out.length + s.carryMasked)
  count : s.count = base + placesBefore r x out.length
  held : s.carry = [] ∨ ∃ p ∈ r.finders, s.carry.length < p.length

theorem Scanner.inv_empty (r : Redactor) (base : ℕ) : Inv r base [] [] ⟨r, [], 0, base⟩ where
  redactor := rfl
  passed := ⟨le_rfl, [], nofun, nofun, rfl⟩
  carry := rfl
  begun := nofun
  masked := nofun
  maskedEnd h := absurd h.lt_length (Nat.not_lt_zero _)
  count := rfl
  held := .inl rfl

namespace Scanner.Inv

variable {s : Scanner} {base : ℕ}

theorem round_spec {buf : Bytes} (hbuf : x.drop out.length = buf) (hr : s.redactor = r) (hpassed : Passed r x out)
    (hk : Inherits r x out.length s.carryMasked) (hpos : 0 < s.carryMasked → out.length < x.length)
    (hcount : s.count = base + placesBefore r x out.length) (final : Bool)
    (hcut : (if final then buf.length else buf.length - r.partialLen buf) = cut) :
    ∃ masked, (out ++ (s.round buf final).1).length = out.length + cut ∧ Passed r x (out ++ (s.round buf final).1) ∧
      (s.round buf final).2 = ⟨r, x.drop (out.length + cut), masked, base + placesBefore r x (out.length + cut)⟩ ∧
      (∀ j < masked, Over r x 1 (out.length + cut + j)) ∧ ¬ Over r x 1 (out.length + cut + masked) := by
  subst hr hbuf
  have hspans : SpansOk s.redactor (x.drop out.length) s.carryMasked
      (s.redactor.spans (x.drop out.length) s.carryMasked) := by
    refine spans_ok fun hk hnil => ?_
    have := drop_eq_nil_iff.1 hnil
    have := hpos hk
    omega
  have hbound : cut ≤ x.length - out.length := by
    rw [← hcut, length_drop]
    split_ifs <;> omega
  rw [round]
  dsimp only
  rw [hcut]
  obtain ⟨hout, hpassed'⟩ := hpassed.round hk hspans hbound rfl
  refine ⟨_, hout, hpassed', ?_, hk.maskedAfter hspans hpos cut⟩
  rw [drop_drop, hk.placesBefore_add hspans, ← Nat.add_assoc, ← hcount]

section
variable (h : s.Inv r base x out)
include h

theorem inherits : Inherits r x out.length s.carryMasked := .of_run h.masked h.maskedEnd

theorem masked_pos (hpos : 0 < s.carryMasked) : out.length < x.length :=
  (h.masked 0 hpos).lt_length

theorem push (chunk : Bytes) :
    (s.push chunk).2.Inv r base (x ++ chunk) (out ++ (s.push chunk).1) := by
  have hlen := h.passed.len
  have hbuf : (x ++ chunk).drop out.length = s.carry ++ chunk := by
    rw [h.carry, drop_append_of_le_length hlen]
  have hpos : 0 < s.carryMasked → out.length < (x ++ chunk).length := by
    intro hpos
    have := h.masked_pos hpos
    rw [length_append]
    omega
  have hcount : s.count = base + placesBefore r (x ++ chunk) out.length := by
    rw [h.begun.placesBefore_append hlen, h.count]
  have hle := partialLen_le r (s.carry ++ chunk)
  have hdrop : (s.carry ++ chunk).length = (x ++ chunk).length - out.length := by rw [← hbuf, length_drop]
  generalize hcut : (s.carry ++ chunk).length - r.partialLen (s.carry ++ chunk) = cut
  obtain ⟨masked, hout, hpassed, hstate, hmasked, hend⟩ := round_spec hbuf h.redactor (h.passed.append h.begun)
    (h.inherits.append h.begun hlen) hpos hcount false hcut
  rw [Scanner.push, hstate, ← hout]
  rw [← hout] at hmasked hend
  refine ⟨rfl, hpassed, rfl, fun p hp t ht hshort => ?_, hmasked, hend, rfl, ?_⟩
  · rcases Nat.lt_or_ge t out.length with hold | hnew
    · exact h.begun.append hlen p hp t hold hshort
    · have hnot : ¬ (s.carry ++ chunk).drop (t - out.length) <+: p := not_begun hp (by omega) (by omega)
      rwa [← hbuf, drop_drop, show out.length + (t - out.length) = t by omega] at hnot
  · have hheld : ((x ++ chunk).drop (out ++ (s.round (s.carry ++ chunk) false).1).length).length =
        r.partialLen (s.carry ++ chunk) := by
      rw [length_drop]
      omega
    rcases Nat.eq_zero_or_pos (r.partialLen (s.carry ++ chunk)) with hzero | hpart
    · exact .inl (length_eq_zero_iff.1 (hheld.trans hzero))
    · obtain ⟨p, hp, hlt⟩ := exists_partialLen_lt hpart
      exact .inr ⟨p, hp, hheld.trans_lt hlt⟩

theorem finish : (out ++ s.finish.1).length = x.length ∧ Passed r x (out ++ s.finish.1) ∧
    s.finish.2 = ⟨r, [], 0, base + placesBefore r x x.length⟩ := by
  have hlen := h.passed.len
  -- behind the stream's end nothing is masked
  have hend : ∀ {k : ℕ}, (∀ j < k, Over r x 1 (x.length + j)) → k = 0 := by
    intro k hdeep
    by_contra hne
    have := (hdeep 0 (Nat.pos_of_ne_zero hne)).lt_length
    omega
  unfold Scanner.finish
  split_ifs with hcarry
  · have heq : out.length = x.length := by
      rw [h.carry, drop_eq_nil_iff] at hcarry
      omega
    have hmasked : s.carryMasked = 0 := hend (heq ▸ h.masked)
    refine ⟨by rw [append_nil, heq], by rw [append_nil]; exact h.passed, ?_⟩
    obtain ⟨redactor, carry, carryMasked, count⟩ := s
    rw [← heq, ← h.count]
    simp only [mk.injEq]
    exact ⟨h.redactor, hcarry, hmasked, trivial⟩
  · have hrest : out.length + s.carry.length = x.length := by
      rw [h.carry, length_drop]
      omega
    obtain ⟨masked, hout, hpassed, hstate, hmasked, -⟩ := round_spec h.carry.symm h.redactor h.passed h.inherits
      h.masked_pos h.count true rfl
    rw [if_pos rfl, hrest] at hstate hmasked hout
    rw [hstate, hend hmasked, drop_length]
    exact ⟨hout, hpassed, rfl⟩

theorem pushAll (chunks : List Bytes) :
    (s.pushAll chunks).2.Inv r base (x ++ chunks.flatten) (out ++ (s.pushAll chunks).1) := by
  induction chunks generalizing s x out with
  | nil =>
    rw [flatten_nil, append_nil, pushAll, append_nil]
    exact h
  | cons chunk chunks ih =>
    have hrest := ih (h.push chunk)
    rw [append_assoc, append_assoc] at hrest
    exact hrest

end

end Scanner.Inv

/-! Streams -/

/-- The text is overwritten by masks exactly where a value stands over it. -/
def Redacted (r : Redactor) (x out : Bytes) : Prop :=
  ∃ places, Within places x.length ∧ (∀ i, Covers places i ↔ Hit r x i) ∧ out = maskAll x places

theorem Passed.redacted (h : Passed r x out) (hlen : out.length = x.length) : Redacted r x out := by
  obtain ⟨places, hwithin, hcovers, hout⟩ := h.places
  rw [hlen] at hwithin hcovers hout
  rw [take_length] at hout
  refine ⟨places, hwithin, fun i => ?_, hout⟩
  rcases Nat.lt_or_ge i x.length with hi | hi
  · exact hcovers i hi
  · have hpast : ∀ {j}, j < x.length → j ≠ i := fun hj => (hj.trans_le hi).ne
    exact ⟨fun hc => absurd rfl (hpast (hwithin.lt_of_covers hc)), fun hhit => absurd rfl (hpast hhit.lt_length)⟩

theorem Redacted.length_eq (h : Redacted r x out) : out.length = x.length := by
  obtain ⟨places, hwithin, -, rfl⟩ := h
  exact length_maskAll hwithin

theorem Redacted.getElem? (h : Redacted r x out) (hi : ¬ Hit r x i) : out[i]? = x[i]? := by
  obtain ⟨places, hwithin, hcovers, rfl⟩ := h
  exact getElem?_maskAll hwithin fun hc => hi ((hcovers i).1 hc)

theorem Redacted.masked (h : Redacted r x out) (hi : Hit r x i) : ∃ len, ∃ b ∈ mask len, out[i]? = some b := by
  obtain ⟨places, hwithin, hcovers, rfl⟩ := h
  exact exists_mask_of_covers hwithin ((hcovers i).2 hi)

theorem spans_zero_ok (r : Redactor) (x : Bytes) : SpansOk r x 0 (r.spans x 0) := spans_ok fun h => absurd h (lt_irrefl 0)

theorem covers_spans_zero : Covers (r.spans x 0) i ↔ Hit r x i := by
  rw [covers_iff_meets, (spans_zero_ok r x).meets 0 zero_le_one, hit_iff_over]
  simp

theorem redact_eq (r : Redactor) (x : Bytes) : r.redact x = (maskAll x (r.spans x 0), (r.spans x 0).length) := by
  rw [Redactor.redact]
  split_ifs with hempty
  · -- without values nothing is found
    have hnil : r.spans x 0 = [] := by
      simp [Redactor.spans, Redactor.found, Redactor.finders, isEmpty_iff.1 hempty]
    rw [hnil]
    rfl
  · rfl

theorem redact_redacted (r : Redactor) (x : Bytes) : Redacted r x (r.redact x).1 := by
  refine ⟨r.spans x 0, fun a ha => ?_, fun i => covers_spans_zero, by rw [redact_eq]⟩
  have hlt := (spans_zero_ok r x).apart.lt a ha
  have hlast : Hit r x (a.2 - 1) := covers_spans_zero.1 ⟨a, ha, by omega, by omega⟩
  have := hlast.lt_length
  omega

theorem redact_snd (r : Redactor) (x : Bytes) : (r.redact x).2 = placesBefore r x x.length := by
  have hinherits : Inherits r x 0 0 := .of_run nofun (by rintro ⟨p, hp, s, hs, -⟩; exact absurd hs (Nat.not_lt_zero s))
  have hadd := hinherits.placesBefore_add (spans_zero_ok r x) x.length
  have hall : newPlaces 0 x.length (r.spans x 0) = (r.spans x 0).length := by
    rw [newPlaces, countP_eq_length]
    intro a ha
    have hlt := (spans_zero_ok r x).apart.lt a ha
    have hhit : Hit r x a.1 := covers_spans_zero.1 ⟨a, ha, le_rfl, hlt⟩
    simpa using hhit.lt_length
  rw [Nat.zero_add, hall] at hadd
  rw [hadd, redact_eq, placesBefore, range_zero]
  simp

/-- However a stream is cut, it is redacted as the whole: its length stays, it is overwritten by masks where a value
stands over it and nowhere else, its places are counted as in the whole, and less waits between two chunks than some
value is long. -/
theorem stream_redacted_as_whole (r : Redactor) (base : ℕ) (chunks : List Bytes) :
    let s : Scanner := ⟨r, [], 0, base⟩
    let out := (s.pushAll chunks).1 ++ (s.pushAll chunks).2.finish.1
    out.length = chunks.flatten.length ∧ Redacted r chunks.flatten out ∧
      (∀ i, Hit r chunks.flatten i → ∃ len, ∃ b ∈ mask len, out[i]? = some b) ∧
      (∀ i, ¬ Hit r chunks.flatten i → out[i]? = chunks.flatten[i]?) ∧
      (s.pushAll chunks).2.finish.2.count = base + (r.redact chunks.flatten).2 ∧
      ∀ n, (s.pushAll (chunks.take n)).2.carry = [] ∨
        ∃ p ∈ r.finders, (s.pushAll (chunks.take n)).2.carry.length < p.length := by
  intro s out
  have hinv := (inv_empty r base).pushAll chunks
  rw [nil_append, nil_append] at hinv
  obtain ⟨hlen, hpassed, hstate⟩ := hinv.finish
  have hredacted := hpassed.redacted hlen
  refine ⟨hlen, hredacted, fun i hi => hredacted.masked hi, fun i hi => hredacted.getElem? hi, ?_, fun n => ?_⟩
  · rw [hstate, redact_snd]
  · exact ((inv_empty r base).pushAll (chunks.take n)).held

/-- One value, `abcabcab`. -/
def sampleRedactor : Redactor := ⟨[Secrets.new [[97, 98, 99, 97, 98, 99, 97, 98]]]⟩

/-- The value twice, the second time over the end of the first, in three chunks. -/
def sampleChunks : List Bytes := [[45, 97, 98, 99], [97, 98, 99, 97, 98, 99], [97, 98, 45]]

theorem stream_redacted_sample :
    ((sampleRedactor.redact sampleChunks.flatten).2 = 1 ∧ Hit sampleRedactor sampleChunks.flatten 11 ∧
      ¬ Hit sampleRedactor sampleChunks.flatten 12) ∧
    ((pushAll ⟨sampleRedactor, [], 0, 4⟩ sampleChunks).1 ++
      (pushAll ⟨sampleRedactor, [], 0, 4⟩ sampleChunks).2.finish.1)[12]? = sampleChunks.flatten[12]? ∧
    (pushAll ⟨sampleRedactor, [], 0, 4⟩ sampleChunks).2.finish.2.count =
      4 + (sampleRedactor.redact sampleChunks.flatten).2 := by
  have hhit : (sampleRedactor.redact sampleChunks.flatten).2 = 1 ∧ Hit sampleRedactor sampleChunks.flatten 11 ∧
      ¬ Hit sampleRedactor sampleChunks.flatten 12 := by
    decide +kernel
  obtain ⟨-, -, -, hsame, hcount, -⟩ := stream_redacted_as_whole sampleRedactor 4 sampleChunks
  exact ⟨hhit, hsame 12 hhit.2.2, hcount⟩

end FeOS.Authn
