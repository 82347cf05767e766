import FeOS.Spec.WebSocketFrames
import FeOS.Proofs.StreamRedacted

/-! The frames of a tunnel are redacted payload by payload, however the stream is cut: what goes on is the stream as
its format reads it, headers as they came and each payload masked as it would be alone. -/

namespace FeOS.Authn

open List Frames

variable {r : Redactor} {h part payload rest x out o t input : Bytes} {b₀ b₁ : UInt8} {f f' : Frames} {fuel base : ℕ}

/-! The format -/

structure HeadOk (h : Bytes) : Prop where
  bytes : ∃ b₀ b₁ rest, h = b₀ :: b₁ :: rest ∧ refusal b₀ b₁ = none ∧ h.length = headLenOf b₁

def HeadPart : Bytes → Prop
  | b₀ :: b₁ :: rest => refusal b₀ b₁ = none ∧ (b₀ :: b₁ :: rest).length < headLenOf b₁
  | _ => True

theorem parse_headPart (hh : HeadPart h) : parse h = ([], .header h) := by
  rcases h with _ | ⟨b₀, _ | ⟨b1, rest⟩⟩
  · simp [parse]
  · simp [parse]
  · rw [parse, if_neg (by simp [hh.1])]
    dsimp only
    rw [if_pos hh.2]

theorem parse_refused (hr : (refusal b₀ b1).isSome) : parse (b₀ :: b1 :: rest) = ([], .refused (b₀ :: b1 :: rest)) := by
  rw [parse, if_pos hr]

theorem parse_payload (hh : HeadOk h) (hlen : part.length < payloadLen h) : parse (h ++ part) = ([], .payload h part) := by
  obtain ⟨b₀, b1, rest, rfl, hr, hneed⟩ := hh.bytes
  have hcons : (b₀ :: b1 :: rest) ++ part = b₀ :: b1 :: (rest ++ part) := rfl
  have htake : (b₀ :: b1 :: (rest ++ part)).take (headLenOf b1) = b₀ :: b1 :: rest := by
    rw [← hcons, take_left' hneed]
  have hdrop : (b₀ :: b1 :: (rest ++ part)).drop (headLenOf b1) = part := by
    rw [← hcons, drop_left' hneed]
  rw [hcons, parse, if_neg (by simp [hr])]
  dsimp only
  rw [if_neg (by rw [← hneed, ← hcons, length_append]; omega), htake, hdrop, if_pos hlen]

theorem parse_frame (hh : HeadOk h) (hlen : payload.length = payloadLen h) :
    parse (h ++ (payload ++ rest)) = ((h, payload) :: (parse rest).1, (parse rest).2) := by
  obtain ⟨b₀, b1, tl, rfl, hr, hneed⟩ := hh.bytes
  have hcons : (b₀ :: b1 :: tl) ++ (payload ++ rest) = b₀ :: b1 :: (tl ++ (payload ++ rest)) := rfl
  have htake : (b₀ :: b1 :: (tl ++ (payload ++ rest))).take (headLenOf b1) = b₀ :: b1 :: tl := by
    rw [← hcons, take_left' hneed]
  have hdrop : (b₀ :: b1 :: (tl ++ (payload ++ rest))).drop (headLenOf b1) = payload ++ rest := by
    rw [← hcons, drop_left' hneed]
  rw [hcons, parse, if_neg (by simp [hr])]
  dsimp only
  rw [if_neg (by rw [← hneed, ← hcons, length_append]; omega), htake, hdrop, if_neg (by rw [length_append]; omega),
    ← hlen, take_left, drop_left]

/-! Frames that went on -/

structure FramePassed (r : Redactor) (frame o : Bytes × Bytes) : Prop where
  head : HeadOk frame.1
  len : frame.2.length = payloadLen frame.1
  same : o.1 = frame.1
  redacted : Redacted r frame.2 o.2

def bytesOf (frames : List (Bytes × Bytes)) : Bytes := frames.flatMap fun frame => frame.1 ++ frame.2

inductive At (r : Redactor) : Frames → Bytes → Bytes → Prop
  | head {h count} (hh : HeadPart h) : At r ⟨⟨r, [], 0, count⟩, h, 0⟩ h []
  | payload {h part o s left base} (hh : HeadOk h) (hleft : 0 < left)
      (hlen : part.length + left = payloadLen h) (hs : s.Inv r base part o) : At r ⟨s, [], left⟩ (h ++ part) (h ++ o)

def Mid (r : Redactor) (f : Frames) (x out : Bytes) : Prop :=
  ∃ frames os cur o, List.Forall₂ (FramePassed r) frames os ∧ x = bytesOf frames ++ cur ∧
    out = bytesOf os ++ o ∧ At r f cur o

def Refused (r : Redactor) (x out : Bytes) : Prop :=
  ∃ frames os b₀ b₁ rest, List.Forall₂ (FramePassed r) frames os ∧ x = bytesOf frames ++ b₀ :: b₁ :: rest ∧
    (refusal b₀ b₁).isSome ∧ out = bytesOf os

theorem bytesOf_concat (frames : List (Bytes × Bytes)) (h payload : Bytes) :
    bytesOf (frames ++ [(h, payload)]) = bytesOf frames ++ (h ++ payload) := by
  simp [bytesOf]

variable {frames os : List (Bytes × Bytes)}

theorem forall₂_concat {frame o : Bytes × Bytes} (hf : List.Forall₂ (FramePassed r) frames os)
    (hlast : FramePassed r frame o) : List.Forall₂ (FramePassed r) (frames ++ [frame]) (os ++ [o]) :=
  rel_append hf (.cons hlast .nil)

theorem redacted_nil (r : Redactor) : Redacted r [] [] :=
  ⟨[], nofun, fun i => ⟨nofun, fun hhit => absurd hhit.lt_length (Nat.not_lt_zero i)⟩, rfl⟩

/-! A turn of the loop -/

theorem takePayload_mid (hm : Mid r f x out) (hleft : 0 < f.left) (ht : t.length ≤ f.left) :
    Mid r (f.takePayload t).2 (x ++ t) (out ++ (f.takePayload t).1) := by
  obtain ⟨frames, os, cur, o, hf, rfl, rfl, hat⟩ := hm
  cases hat with
  | head hh => exact absurd hleft (lt_irrefl 0)
  | @payload h part o s left base hh hpos hlen hs =>
    have hpush := hs.push t
    unfold takePayload
    dsimp only at ht ⊢
    split_ifs with hzero
    · obtain ⟨hfull, hpassed, hstate⟩ := hpush.finish
      have hpay : (part ++ t).length = payloadLen h := by
        rw [length_append]
        omega
      refine ⟨frames ++ [(h, part ++ t)], os ++ [(h, o ++ (s.push t).1 ++ (s.push t).2.finish.1)], [], [],
        forall₂_concat hf ⟨hh, hpay, rfl, hpassed.redacted hfull⟩, ?_, ?_, ?_⟩
      · simp only [bytesOf_concat, append_assoc, append_nil]
      · simp only [bytesOf_concat, append_assoc, append_nil]
      · rw [hstate, hzero]
        exact .head trivial
    · refine ⟨frames, os, h ++ (part ++ t), h ++ (o ++ (s.push t).1), hf, ?_, ?_,
        .payload hh (Nat.pos_of_ne_zero hzero) ?_ hpush⟩
      · simp only [append_assoc]
      · simp only [append_assoc]
      · rw [length_append]
        omega

theorem length_head_le {s : Scanner} {cur : Bytes} (hh : HeadPart cur) (ht : t.length ≤ (mk s cur 0).headLen - cur.length)
    (heq : cur ++ t = b₀ :: b1 :: rest) : (cur ++ t).length ≤ headLenOf b1 := by
  have htwo := two_le_headLenOf b1
  match cur with
  | [] =>
    have : t.length ≤ 2 - 0 := ht
    rw [nil_append]
    omega
  | [c] =>
    have : t.length ≤ 2 - 1 := ht
    rw [length_append, length_singleton]
    omega
  | c₀ :: c1 :: tl =>
    obtain ⟨-, hb, -⟩ := by simpa using heq
    have hneed : t.length ≤ headLenOf c1 - (c₀ :: c1 :: tl).length := ht
    have hpart : (c₀ :: c1 :: tl).length < headLenOf c1 := hh.2
    rw [← hb, length_append]
    omega

theorem takeHead_mid (hm : Mid r f x out) (hleft : f.left = 0) (ht : t.length ≤ f.headLen - f.head.length) :
    ((f.takeHead t).2.2 = none → Mid r (f.takeHead t).2.1 (x ++ t) (out ++ (f.takeHead t).1)) ∧
    ((f.takeHead t).2.2.isSome → ∀ rest, Refused r (x ++ (t ++ rest)) (out ++ (f.takeHead t).1)) := by
  obtain ⟨frames, os, cur, o, hf, rfl, rfl, hat⟩ := hm
  cases hat with
  | payload hh hpos => exact absurd hleft (ne_of_gt hpos)
  | @head _ count hh =>
    unfold takeHead
    dsimp only at ht ⊢
    split
    · rename_i b₀ b1 rest heq
      split
      · rename_i why hwhy
        refine ⟨by rintro ⟨⟩, fun _ more => ?_⟩
        refine ⟨frames, os, b₀, b1, rest ++ more, hf, ?_, by rw [hwhy]; rfl, by rw [append_nil, append_nil]⟩
        rw [← append_assoc, append_assoc (bytesOf frames), heq]
        simp only [append_assoc, cons_append]
      · rename_i hok
        have hneed : (mk ⟨r, [], 0, count⟩ (cur ++ t) 0).headLen = headLenOf b1 := by
          simp only [headLen, heq]
        rw [hneed]
        split_ifs with hshort
        · refine ⟨fun _ => ?_, by rintro ⟨⟩⟩
          refine ⟨frames, os, cur ++ t, [], hf, by rw [append_assoc], by rw [append_nil], .head ?_⟩
          rw [heq] at hshort ⊢
          exact ⟨hok, hshort⟩
        · refine ⟨fun _ => ?_, by rintro ⟨⟩⟩
          have hfit := length_head_le hh ht heq
          have hhead : HeadOk (cur ++ t) := ⟨b₀, b1, rest, heq, hok, by omega⟩
          rcases Nat.eq_zero_or_pos (payloadLen (cur ++ t)) with hzero | hpos
          · -- a frame without payload
            refine ⟨frames ++ [(cur ++ t, [])], os ++ [(cur ++ t, [])], [], [],
              forall₂_concat hf ⟨hhead, hzero.symm, rfl, redacted_nil r⟩, ?_, ?_, ?_⟩
            · simp only [bytesOf_concat, append_assoc, append_nil]
            · simp only [bytesOf_concat, append_nil]
            · rw [hzero]
              exact .head trivial
          · refine ⟨frames, os, cur ++ t ++ [], cur ++ t ++ [], hf, ?_, ?_,
              .payload hhead hpos (Nat.zero_add _) (Scanner.inv_empty r count)⟩
            · simp only [append_assoc, append_nil]
            · simp only [append_nil]
    · rename_i hshort
      refine ⟨fun _ => ?_, by rintro ⟨⟩⟩
      refine ⟨frames, os, cur ++ t, [], hf, by rw [append_assoc], by rw [append_nil], .head ?_⟩
      unfold HeadPart
      split
      · rename_i b₀ b1 rest heq
        exact absurd heq (hshort b₀ b1 rest)
      · trivial

theorem Mid.head_lt (hm : Mid r f x out) (hleft : f.left = 0) : 0 < f.headLen - f.head.length := by
  obtain ⟨frames, os, cur, o, -, -, -, hat⟩ := hm
  cases hat with
  | payload hh hpos => exact absurd hleft (ne_of_gt hpos)
  | head hh =>
    match cur with
    | [] => exact Nat.zero_lt_two
    | [c] => exact Nat.one_pos
    | c₀ :: c1 :: tl => exact Nat.sub_pos_of_lt hh.2

theorem pushLoop_mid (hm : Mid r f x out) (hfuel : input.length ≤ fuel) :
    ((f.pushLoop fuel input).2.2 = none → Mid r (f.pushLoop fuel input).2.1 (x ++ input)
      (out ++ (f.pushLoop fuel input).1)) ∧
    ((f.pushLoop fuel input).2.2.isSome → ∀ rest, Refused r (x ++ (input ++ rest)) (out ++ (f.pushLoop fuel input).1)) := by
  induction fuel generalizing f x out input with
  | zero =>
    have hnil : input = [] := length_eq_zero_iff.1 (Nat.le_zero.1 hfuel)
    subst hnil
    refine ⟨fun _ => ?_, by rintro ⟨⟩⟩
    rw [append_nil, pushLoop, append_nil]
    exact hm
  | succ fuel ih =>
    rw [pushLoop]
    split_ifs with hnil hleft
    · subst hnil
      refine ⟨fun _ => ?_, by rintro ⟨⟩⟩
      rw [append_nil, append_nil]
      exact hm
    · have hpos := length_pos_iff.2 hnil
      have hturn := takePayload_mid hm hleft (length_take_le f.left input)
      have hless : (input.drop f.left).length ≤ fuel := by
        rw [length_drop]
        omega
      have hrest := ih hturn hless
      have hsplit : input.take f.left ++ input.drop f.left = input := take_append_drop _ _
      refine ⟨fun hnone => ?_, fun hsome more => ?_⟩
      · have hmid := hrest.1 hnone
        rwa [append_assoc, hsplit, append_assoc] at hmid
      · have href := hrest.2 hsome more
        rwa [append_assoc, ← append_assoc (input.take f.left), hsplit, append_assoc] at href
    · have hzero : f.left = 0 := Nat.eq_zero_of_not_pos hleft
      have hpos := length_pos_iff.2 hnil
      have hneed := hm.head_lt hzero
      obtain ⟨hgo, hstop⟩ := takeHead_mid hm hzero (length_take_le (f.headLen - f.head.length) input)
      have hsplit : input.take (f.headLen - f.head.length) ++ input.drop (f.headLen - f.head.length) = input :=
        take_append_drop _ _
      dsimp only
      rcases hres : f.takeHead (input.take (f.headLen - f.head.length)) with ⟨o, f', err⟩
      rw [hres] at hgo hstop
      cases err with
      | some err =>
        refine ⟨by rintro ⟨⟩, fun _ more => ?_⟩
        have href := hstop rfl (input.drop (f.headLen - f.head.length) ++ more)
        rwa [← append_assoc (input.take _), hsplit] at href
      | none =>
        have hless : (input.drop (f.headLen - f.head.length)).length ≤ fuel := by
          rw [length_drop]
          omega
        have hrest := ih (hgo rfl) hless
        refine ⟨fun hnone => ?_, fun hsome more => ?_⟩
        · have hmid := hrest.1 hnone
          rwa [append_assoc, hsplit, append_assoc] at hmid
        · have href := hrest.2 hsome more
          rwa [append_assoc, ← append_assoc (input.take _), hsplit, append_assoc] at href

/-! The end of the stream -/

def Ended (r : Redactor) (x out : Bytes) : Prop :=
  ∃ frames os cur o, List.Forall₂ (FramePassed r) frames os ∧ x = bytesOf frames ++ cur ∧ out = bytesOf os ++ o ∧
    ((HeadPart cur ∧ o = cur) ∨
      ∃ h part o', HeadOk h ∧ part.length < payloadLen h ∧ cur = h ++ part ∧ o = h ++ o' ∧ Redacted r part o')

theorem Mid.ended (hm : Mid r f x out) : Ended r x (out ++ f.finish) := by
  obtain ⟨frames, os, cur, o, hf, rfl, rfl, hat⟩ := hm
  cases hat with
  | head hh =>
    refine ⟨frames, os, cur, cur, hf, rfl, ?_, .inl ⟨hh, rfl⟩⟩
    simp only [finish, Scanner.finish, if_true, append_nil, nil_append]
  | @payload h part o s left base hh hpos hlen hs =>
    obtain ⟨hfull, hpassed, -⟩ := hs.finish
    refine ⟨frames, os, h ++ part, h ++ (o ++ s.finish.1), hf, rfl, ?_,
      .inr ⟨h, part, o ++ s.finish.1, hh, by omega, rfl, rfl, hpassed.redacted hfull⟩⟩
    simp only [finish, append_nil, append_assoc]

theorem run_mid (hm : Mid r f x out) (inputs : List Bytes) :
    ((f.run inputs).2 = none → Ended r (x ++ inputs.flatten) (out ++ (f.run inputs).1)) ∧
    ((f.run inputs).2.isSome → Refused r (x ++ inputs.flatten) (out ++ (f.run inputs).1)) := by
  induction inputs generalizing f x out with
  | nil =>
    refine ⟨fun _ => ?_, by rintro ⟨⟩⟩
    rw [flatten_nil, append_nil]
    exact hm.ended
  | cons input inputs ih =>
    obtain ⟨hgo, hstop⟩ := pushLoop_mid hm (le_refl input.length)
    rw [run]
    rcases hres : f.push input with ⟨o, f', err⟩
    rw [← push, hres] at hgo hstop
    cases err with
    | some err => exact ⟨nofun, fun _ => hstop rfl inputs.flatten⟩
    | none =>
      obtain ⟨hend, href⟩ := ih (hgo rfl)
      rw [append_assoc, append_assoc] at hend href
      exact ⟨hend, href⟩

/-! Read by the format -/

theorem parse_bytesOf (hf : List.Forall₂ (FramePassed r) frames os) (rest : Bytes) :
    parse (bytesOf frames ++ rest) = (frames ++ (parse rest).1, (parse rest).2) := by
  induction hf with
  | nil => rfl
  | @cons frame o frames os hfirst _ ih =>
    have hbytes : bytesOf (frame :: frames) ++ rest = frame.1 ++ (frame.2 ++ (bytesOf frames ++ rest)) := by
      simp only [bytesOf, flatMap_cons, append_assoc]
    rw [hbytes, parse_frame hfirst.head hfirst.len, ih]
    rfl

theorem length_bytesOf (hf : List.Forall₂ (FramePassed r) frames os) :
    (bytesOf os).length = (bytesOf frames).length := by
  induction hf with
  | nil => rfl
  | cons hfirst _ ih =>
    simp only [bytesOf, flatMap_cons, length_append, hfirst.same, hfirst.redacted.length_eq] at ih ⊢
    omega

def Tail.refusedLen : Tail → ℕ
  | .refused rest => rest.length
  | _ => 0

/-- What goes on for what follows the last whole frame, and whether the push fails. -/
def TailPassed (r : Redactor) (o : Bytes) (err : Option String) : Tail → Prop
  | .header h => o = h ∧ err = none
  | .payload h part => (∃ o', o = h ++ o' ∧ Redacted r part o') ∧ err = none
  | .refused _ => o = [] ∧ err.isSome

/-- However the stream is cut: each whole frame goes on with its header as it came and its payload masked where
`redact` of it alone masks, what follows the last one so too, and a push fails just where a header is refused. -/
theorem frames_redacted_however_cut (r : Redactor) (base : ℕ) (inputs : List Bytes) :
    let res := run ⟨⟨r, [], 0, base⟩, [], 0⟩ inputs
    (∃ os o, List.Forall₂ (fun frame o => o.1 = frame.1 ∧ Redacted r frame.2 o.2) (parse inputs.flatten).1 os ∧
      res.1 = bytesOf os ++ o ∧ TailPassed r o res.2 (parse inputs.flatten).2) ∧
    res.1.length + (parse inputs.flatten).2.refusedLen = inputs.flatten.length ∧
    ∀ v, Redacted r v (r.redact v).1 := by
  intro res
  have hmid : Mid r ⟨⟨r, [], 0, base⟩, [], 0⟩ [] [] := ⟨[], [], [], [], .nil, rfl, rfl, .head trivial⟩
  obtain ⟨hended, hrefused⟩ := run_mid hmid inputs
  rw [nil_append, nil_append] at hended hrefused
  rw [← and_assoc]
  refine ⟨?_, redact_redacted r⟩
  cases herr : res.2 with
  | none =>
    obtain ⟨frames, os, cur, o, hf, hx, hout, htail⟩ := hended herr
    have hlen := length_bytesOf hf
    have hpassed := hf.imp fun _ _ hp => And.intro hp.same hp.redacted
    rw [hx, parse_bytesOf hf]
    rcases htail with ⟨hh, rfl⟩ | ⟨h, part, o', hh, hshort, rfl, rfl, hred⟩
    · rw [parse_headPart hh, append_nil]
      refine ⟨⟨os, o, hpassed, hout, rfl, rfl⟩, ?_⟩
      show (run _ inputs).1.length + 0 = _
      rw [hout, length_append, length_append, hlen]
      rfl
    · rw [parse_payload hh hshort, append_nil]
      refine ⟨⟨os, h ++ o', hpassed, hout, ⟨o', rfl, hred⟩, rfl⟩, ?_⟩
      show (run _ inputs).1.length + 0 = _
      rw [hout]
      simp only [length_append, hlen, hred.length_eq, Nat.add_zero]
  | some err =>
    obtain ⟨frames, os, b₀, b1, rest, hf, hx, hr, hout⟩ := hrefused (by rw [show (run _ inputs).2 = _ from herr]; rfl)
    have hlen := length_bytesOf hf
    have hpassed := hf.imp fun _ _ hp => And.intro hp.same hp.redacted
    rw [hx, parse_bytesOf hf, parse_refused hr, append_nil]
    refine ⟨⟨os, [], hpassed, by rw [append_nil]; exact hout, rfl, rfl⟩, ?_⟩
    show (run _ inputs).1.length + (b₀ :: b1 :: rest).length = _
    rw [hout, length_append, hlen]

/-- A stream that ends after the first byte of a header with an RSV bit: no push fails, and the byte goes on. -/
theorem lone_rsv_byte_passes : run ⟨⟨⟨[]⟩, [], 0, 0⟩, [], 0⟩ [[0xC1]] = ([0xC1], none) := by
  decide +kernel

end FeOS.Authn
