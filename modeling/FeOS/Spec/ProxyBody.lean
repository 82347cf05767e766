import FeOS.Spec.Redactor

/-! Bodies as they pass (`feos-authn/src/body.rs`): an upstream's answer, redacted as it streams, with the exchange's
`http_end` record. -/

namespace FeOS.Authn

abbrev Headers := List (String × Bytes)

/-- What polls of an upstream's body give, one after the other; after the last it has ended. -/
inductive Item where
  | pending
  | data (d : Bytes)
  | trailers (t : Headers)
  /-- A frame that is neither. -/
  | other
  | error (message : String)
  deriving DecidableEq, Repr

def Item.bytes : Item → Bytes
  | .data d => d
  | _ => []

def dataOf (items : List Item) : Bytes := items.flatMap Item.bytes

/-- The body of the HTTP library, with what it says of itself: `is_end_stream` and the bounds of `size_hint` are
right. -/
structure Incoming where
  isEndStream : List Item → Bool
  lower : List Item → ℕ
  upper : List Item → Option ℕ
  ends : ∀ items, isEndStream items = true ↔ ∀ i ∈ items, i = .pending
  lower_le : ∀ items, lower items ≤ (dataOf items).length
  le_upper : ∀ items, ∀ u ∈ upper items, (dataOf items).length ≤ u

inductive Kind where
  | incoming (items : List Item)
  | full (b : Option Bytes)
  deriving DecidableEq, Repr

structure Redacting where
  scanner : Scanner
  trailers : Option Headers
  ended : Bool

structure ErrorRec where
  code : String
  message : String
  deriving DecidableEq, Repr

/-- What is left open of an `http_end` record. -/
structure HttpEnd where
  bytesOut : ℕ
  error : Option ErrorRec
  deriving DecidableEq, Repr

/-- A body whose counter is its guard's `bytes_out`, and the records that the guard wrote. -/
structure ProxyBody where
  kind : Kind
  redact : Option Redacting
  bytesOut : ℕ
  guarded : Bool
  ends : List HttpEnd

inductive Polled where
  | pending
  | data (d : Bytes)
  | trailers (t : Headers)
  | other
  | error (message : String)
  | none
  deriving DecidableEq, Repr

def Polled.bytes : Polled → Bytes
  | .data d => d
  | _ => []

def Redactor.redactHeaders (r : Redactor) (t : Headers) : Headers × ℕ :=
  (t.map fun (name, v) => (name, (r.redact v).1), (t.map fun (_, v) => (r.redact v).2).sum)

namespace Redacting

def push (r : Redacting) (d : Bytes) : Bytes × Redacting :=
    ((r.scanner.push d).1, { r with scanner := (r.scanner.push d).2 })

/-- The trailers wait for what the search holds back. -/
def hold (r : Redacting) (t : Headers) : Bytes × Redacting :=
  let (t, n) := r.scanner.redactor.redactHeaders t
  let scanner := { r.scanner with count := r.scanner.count + n }
  (scanner.finish.1, { r with scanner := scanner.finish.2, trailers := some t })

def finish (r : Redacting) : Bytes × Redacting :=
  (r.scanner.finish.1, { r with scanner := r.scanner.finish.2, ended := true })

/-- `Redacting::poll`, over what the upstream still gives. -/
def poll (r : Redacting) (items : List Item) : Polled × Redacting × List Item :=
  match r.trailers with
  | some t => (.trailers t, { r with trailers := none }, items)
  | none =>
    if r.ended then (.none, r, items)
    else match items with
      | [] => if r.finish.1 = [] then (.none, r.finish.2, []) else (.data r.finish.1, r.finish.2, [])
      | .pending :: items => (.pending, r, items)
      | .error message :: items => (.error message, r, items)
      | .other :: items => r.poll items
      | .data d :: items =>
        if (r.push d).1 = [] then (r.push d).2.poll items else (.data (r.push d).1, (r.push d).2, items)
      | .trailers t :: items => if (r.hold t).1 = [] then (r.hold t).2.poll items
          else (.data (r.hold t).1, (r.hold t).2, items)

end Redacting

/-- `u64::saturating_add` -/
def satAdd (a b : ℕ) : ℕ := min (a + b) (2 ^ 64 - 1)

namespace ProxyBody

/-- Ends the guard's exchange, once. -/
def finish (b : ProxyBody) (error : Option ErrorRec) : ProxyBody :=
  if b.guarded then { b with guarded := false, ends := b.ends ++ [⟨b.bytesOut, error⟩] } else b

/-- What a poll of the body's own source gives. -/
def pollInner (b : ProxyBody) : Polled × ProxyBody := match b.kind with
  | .full none => (.none, b)
  | .full (some d) => (.data d, { b with kind := .full none })
  | .incoming items => match b.redact with
    | some r => ((r.poll items).1, { b with redact := some (r.poll items).2.1, kind := .incoming (r.poll items).2.2 })
    | none => match items with
      | [] => (.none, b)
      | .pending :: items => (.pending, { b with kind := .incoming items })
      | .data d :: items => (.data d, { b with kind := .incoming items })
      | .trailers t :: items => (.trailers t, { b with kind := .incoming items })
      | .other :: items => (.other, { b with kind := .incoming items })
      | .error message :: items => (.error message, { b with kind := .incoming items })

/-- What `poll_frame` does of what it polled. -/
def account (b : ProxyBody) (p : Polled) : ProxyBody := match p with
  | .pending => b
  | .data _ | .trailers _ | .other =>
    let b := { b with bytesOut := (b.bytesOut + p.bytes.length) % 2 ^ 64 }
    if b.kind = .full none then b.finish none else b
  | .error message => b.finish (some ⟨"upstream_body", message⟩)
  | .none => b.finish none

def pollFrame (b : ProxyBody) : Polled × ProxyBody := (b.pollInner.1, b.pollInner.2.account b.pollInner.1)

variable (I : Incoming)

def isEndStream (b : ProxyBody) : Bool := match b.kind, b.redact with
  | .full d, _ => d.isNone
  | .incoming items, none => I.isEndStream items
  | .incoming items, some r => r.trailers.isNone && (r.ended || (I.isEndStream items && r.scanner.carry.length = 0))

def sizeHint (b : ProxyBody) : ℕ × Option ℕ := match b.kind with
  | .full d => (d.elim 0 List.length, some (d.elim 0 List.length))
  | .incoming items =>
    let held := b.redact.elim 0 fun r => r.scanner.carry.length
    let lower := satAdd (I.lower items) held
    (lower, (I.upper items).map fun u => max (satAdd u held) lower)

/-- The drop of a body, and of the guard it still has. -/
def drop (b : ProxyBody) : ProxyBody :=
  (if b.isEndStream I then b.finish none else b).finish
    (some ⟨"aborted", "the exchange ended before its answer's end"⟩)

/-- The first polls of a body, and what is then left of it. -/
def polls (b : ProxyBody) : ℕ → List Polled × ProxyBody
  | 0 => ([], b)
  | n + 1 => ((b.polls n).1 ++ [(b.polls n).2.pollFrame.1], (b.polls n).2.pollFrame.2)

/-- An upstream's answer with its guard. -/
def counted (items : List Item) : ProxyBody where
  kind := .incoming items
  redact := none
  bytesOut := 0
  guarded := true
  ends := []

def redacted (scanner : Scanner) (items : List Item) : ProxyBody :=
  { counted items with redact := some ⟨scanner, none, false⟩ }

end ProxyBody

end FeOS.Authn
