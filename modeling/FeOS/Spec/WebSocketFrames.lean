import FeOS.Spec.Redactor

/-! The upstream's side of a WebSocket tunnel (`Frames` of `feos-authn/src/redact.rs`): headers pass, each payload is
redacted as a stream that ends with its frame. -/

namespace FeOS.Authn

/-- `head` is `head[..have]`; `left` is what is still to come of the payload. -/
structure Frames where
  scanner : Scanner
  head : Bytes := []
  left : ℕ := 0

/-- The length of a header by its second byte. -/
def headLenOf (b : UInt8) : ℕ :=
  if b &&& 0x7f = 126 then 4 else if b &&& 0x7f = 127 then 10 else 2

/-- Why the tunnel ends with this header. -/
def refusal (b₀ b₁ : UInt8) : Option String :=
  if b₀ &&& 0x70 ≠ 0 then
    some "the upstream sent a compressed or extended WebSocket frame, which cannot be checked for the binding's credential"
  else if b₁ &&& 0x80 ≠ 0 then some "the upstream sent a masked WebSocket frame"
  else none

def ofBeBytes (bytes : Bytes) : ℕ := bytes.foldl (fun n b => n * 256 + b.toNat) 0

/-- The payload's length, by the whole header. -/
def payloadLen (h : Bytes) : ℕ :=
  if h.length = 2 then (h.getD 1 0 &&& 0x7f).toNat else ofBeBytes (h.drop 2)

namespace Frames

variable (f : Frames)

def headLen : ℕ :=
  match f.head with
  | _ :: b₁ :: _ => headLenOf b₁
  | _ => 2

/-- A part of the payload: what goes on, and the frames after it. -/
def takePayload (input : Bytes) : Bytes × Frames :=
  let (out, scanner) := f.scanner.push input
  let left := f.left - input.length
  if left = 0 then
    let (rest, scanner) := scanner.finish
    (out ++ rest, { f with scanner := scanner, left := left })
  else (out, { f with scanner := scanner, left := left })

/-- A part of the header. -/
def takeHead (input : Bytes) : Bytes × Frames × Option String :=
  let f := { f with head := f.head ++ input }
  match f.head with
  | b₀ :: b₁ :: _ =>
    match refusal b₀ b₁ with
    | some why => ([], f, some why)
    | none =>
      if f.head.length < f.headLen then ([], f, none)
      else (f.head, { f with head := [], left := payloadLen f.head }, none)
  | _ => ([], f, none)

/-- The loop of `push`; each turn takes some of the input. -/
def pushLoop : ℕ → Frames → Bytes → Bytes × Frames × Option String
  | 0, f, _ => ([], f, none)
  | fuel + 1, f, input =>
    if input = [] then ([], f, none)
    else if 0 < f.left then
      let (out, f') := f.takePayload (input.take f.left)
      let (rest, f'', err) := pushLoop fuel f' (input.drop f.left)
      (out ++ rest, f'', err)
    else
      let need := f.headLen - f.head.length
      match f.takeHead (input.take need) with
      | (out, f', some err) => (out, f', some err)
      | (out, f', none) =>
        let (rest, f'', err) := pushLoop fuel f' (input.drop need)
        (out ++ rest, f'', err)

def push (input : Bytes) : Bytes × Frames × Option String := pushLoop input.length f input

def finish : Bytes := f.scanner.finish.1 ++ f.head

/-- The pushes of a stream's parts, until one fails, and then the stream's end. -/
def run : Frames → List Bytes → Bytes × Option String
  | f, [] => (f.finish, none)
  | f, input :: inputs =>
    match f.push input with
    | (out, _, some err) => (out, some err)
    | (out, f', none) =>
      let (rest, err) := run f' inputs
      (out ++ rest, err)

end Frames

/-! A stream read as frames, by the format alone -/

/-- What follows the last whole frame. -/
inductive Tail where
  /-- a header that is not whole -/
  | header (h : Bytes)
  | payload (h part : Bytes)
  /-- the header of the frame that begins here is refused -/
  | refused (rest : Bytes)
  deriving DecidableEq, Repr

theorem two_le_headLenOf (b : UInt8) : 2 ≤ headLenOf b := by
  unfold headLenOf
  split_ifs
  · omega
  · omega
  · omega

/-- The whole frames of a stream, each a header and a payload, and what follows them. -/
def parse (x : Bytes) : List (Bytes × Bytes) × Tail :=
  match x with
  | b₀ :: b₁ :: rest =>
    if (refusal b₀ b₁).isSome then ([], .refused (b₀ :: b₁ :: rest))
    else
      let need := headLenOf b₁
      if (b₀ :: b₁ :: rest).length < need then ([], .header (b₀ :: b₁ :: rest))
      else
        let h := (b₀ :: b₁ :: rest).take need
        let body := (b₀ :: b₁ :: rest).drop need
        if body.length < payloadLen h then ([], .payload h body)
        else
          let (frames, tail) := parse (body.drop (payloadLen h))
          ((h, body.take (payloadLen h)) :: frames, tail)
  | x => ([], .header x)
termination_by x.length
decreasing_by
  have := two_le_headLenOf b₁
  simp only [List.length_drop, List.length_cons]
  omega

end FeOS.Authn
