import FeOS.Lib.Intervals
import FeOS.Lib.Splice

/-! The redaction of a credential's values (`feos-authn/src/redact.rs`): whole texts, and a stream that comes in
chunks. -/

namespace FeOS.Authn

abbrev Bytes := List UInt8

def minLen : ℕ := 8

/-- `b"redacted-by-FeOS-binding"` -/
def marker : Bytes :=
  [114, 101, 100, 97, 99, 116, 101, 100, 45, 98, 121, 45, 70, 101, 79, 83, 45, 98, 105, 110, 100, 105, 110, 103]

/-- `b"redacted"` -/
def shortMarker : Bytes := [114, 101, 100, 97, 99, 116, 101, 100]

/-- What `mask` fills a place of this length with. -/
def mask (len : ℕ) : Bytes :=
  let text := if marker.length ≤ len then marker else if shortMarker.length ≤ len then shortMarker else []
  text ++ List.replicate (len - text.length) 42

/-- The values of one credential: none is shorter than `minLen`. -/
structure Secrets where
  finders : List Bytes
  long : ∀ p ∈ finders, minLen ≤ p.length

def Secrets.add (s : Secrets) (v : Bytes) : Secrets :=
  if h : minLen ≤ v.length ∧ v ∉ s.finders then
    { finders := s.finders ++ [v]
      long := fun p hp => (List.mem_append.1 hp).elim (s.long p) fun hv => (List.mem_singleton.1 hv) ▸ h.1 }
  else s

/-- `Secrets::new`: the values that are long enough, each once. -/
def Secrets.new (values : List Bytes) : Secrets := values.foldl Secrets.add ⟨[], nofun⟩

structure Redactor where
  sets : List Secrets

/-- `Finder::find`: where the needle stands first. -/
def find (p : Bytes) : Bytes → Option ℕ
  | [] => if p.isEmpty then some 0 else none
  | b :: buf => if p.isPrefixOf (b :: buf) then some 0 else (find p buf).map (· + 1)

/-- The loop over the places of one value: overlapping ones are merged as they come. -/
def runs (p buf : Bytes) : ℕ → ℕ → Option (ℕ × ℕ) → List (ℕ × ℕ)
  | 0, _, run => run.toList
  | fuel + 1, start, run =>
    match find p (buf.drop start) with
    | none => run.toList
    | some at_ =>
      let s := start + at_
      match run with
      | some r =>
        if s < r.2 then runs p buf fuel (s + 1) (some (r.1, s + p.length))
        else r :: runs p buf fuel (s + 1) (some (s, s + p.length))
      | none => runs p buf fuel (s + 1) (some (s, s + p.length))

/-- The order of pairs. -/
def lexLe (a b : ℕ × ℕ) : Prop := a.1 < b.1 ∨ (a.1 = b.1 ∧ a.2 ≤ b.2)

instance : DecidableRel lexLe := fun _ _ => inferInstanceAs (Decidable (_ ∨ _))

/-- What is overwritten by masks, place by place. -/
def maskAll (buf : Bytes) (places : List (ℕ × ℕ)) : Bytes :=
  places.foldl (fun out a => Splice.splice out a.1 (mask (a.2 - a.1))) buf

/-- The longest proper beginning of the value that ends the buffer, if it is longer than `best`. -/
def endLen (p buf : Bytes) (best : ℕ) : ℕ :=
  let w := min (p.length - 1) buf.length
  if w ≤ best then best
  else
    let tail := buf.drop (buf.length - w)
    -- the occurrences of the first byte, from left to right
    match (List.range w).find? fun i => tail[i]? = p[0]? ∧ (w - i ≤ best ∨ tail.drop i = p.take (w - i)) with
    | some i => if w - i ≤ best then best else w - i
    | none => best

namespace Redactor

variable (r : Redactor)

def isEmpty : Bool := r.sets.isEmpty

def finders : List Bytes := r.sets.flatMap Secrets.finders

def found (buf : Bytes) (inherited : ℕ) : List (ℕ × ℕ) :=
  (if 0 < inherited then [(0, min inherited buf.length)] else []) ++
    r.finders.flatMap fun p => runs p buf (buf.length + 1) 0 none

def spans (buf : Bytes) (inherited : ℕ) : List (ℕ × ℕ) :=
  let found := r.found buf inherited
  if 1 < found.length then Intervals.merge (found.insertionSort lexLe) else found

/-- `partial`: what must wait for the next chunk. -/
def partialLen (buf : Bytes) : ℕ := r.finders.foldl (fun best p => endLen p buf best) 0

/-- `redact`: the masked text, and how many places. -/
def redact (v : Bytes) : Bytes × ℕ :=
  if r.isEmpty then (v, 0) else (maskAll v (r.spans v 0), (r.spans v 0).length)

end Redactor

structure Scanner where
  redactor : Redactor
  carry : Bytes := []
  carryMasked : ℕ := 0
  count : ℕ := 0

namespace Scanner

/-- The carry's masked bytes after a round. -/
def maskedAfter (inherited cut : ℕ) (spans : List (ℕ × ℕ)) : ℕ :=
  spans.foldl (fun masked a =>
    if a.1 < cut then (if cut < a.2 then a.2 - cut else masked)
    else if 0 < inherited ∧ a.1 = 0 then a.2 - cut
    else masked) 0

/-- The places that the round is the first to pass on. -/
def newPlaces (inherited cut : ℕ) (spans : List (ℕ × ℕ)) : ℕ :=
  spans.countP fun a => decide (a.1 < cut ∧ ¬ (0 < inherited ∧ a.1 = 0))

/-- What a round overwrites of what goes on. -/
def passedPlaces (cut : ℕ) (spans : List (ℕ × ℕ)) : List (ℕ × ℕ) :=
  (spans.filter fun a => a.1 < cut).map fun a => (a.1, min a.2 cut)

def round (s : Scanner) (buf : Bytes) (final : Bool) : Bytes × Scanner :=
  let spans := s.redactor.spans buf s.carryMasked
  let cut := if final then buf.length else buf.length - s.redactor.partialLen buf
  (maskAll (buf.take cut) (passedPlaces cut spans),
    { s with
      carry := buf.drop cut
      carryMasked := maskedAfter s.carryMasked cut spans
      count := s.count + newPlaces s.carryMasked cut spans })

def push (s : Scanner) (chunk : Bytes) : Bytes × Scanner := s.round (s.carry ++ chunk) false

def finish (s : Scanner) : Bytes × Scanner :=
  if s.carry = [] then ([], s) else s.round s.carry true

/-- What comes of the chunks, one push after the other. -/
def pushAll (s : Scanner) : List Bytes → Bytes × Scanner
  | [] => ([], s)
  | chunk :: chunks =>
    let (out, s) := s.push chunk
    let (rest, s) := s.pushAll chunks
    (out ++ rest, s)

end Scanner

end FeOS.Authn
