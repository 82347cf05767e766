import Mathlib
import FeOS.Lib.Scan
import FeOS.Lib.Utf8

/-! The text of a container's output on its way to the sink: the lines are put together from the
reads of its two FIFOs (`crates/services/container-service/src/output.rs`), each entry of the log is
redacted and sent (`crates/fleet-client/src/sink.rs`, `crates/fleet-client/src/sink/batch.rs`). A
string is the list of its characters. -/

namespace FeOS.Redact

inductive Source
  | stdout
  | stderr
  deriving DecidableEq, Repr

/-- A byte of the output. Where it stands in the output of its stream is not read. -/
structure Byte where
  val : UInt8
  pos : ℕ
  deriving DecidableEq, Repr

/-- The bytes of an output, from the one at `pos` on. -/
def bytesFrom (pos : ℕ) (data : List UInt8) : List Byte := (data.zipIdx pos).map fun b => ⟨b.1, b.2⟩

def newline : UInt8 := 10

/-- An entry of the log; `part` of a line the next entry of the stream goes on with. -/
structure Entry where
  source : Source
  part : Bool
  text : List Byte
  /-- not written: how many lines of the stream ended before -/
  line : ℕ
  deriving DecidableEq, Repr

/-- The longest part of a line that goes out as one entry. -/
def maxLine : ℕ := 64 * 1024

/-- The lines of one stream, as they come. -/
structure Assembler where
  source : Source
  max : ℕ
  /-- the part of a line read so far -/
  pending : List Byte
  line : ℕ
  deriving DecidableEq, Repr

namespace Assembler

def new (source : Source) (max : ℕ) : Assembler := ⟨source, Nat.max max 1, [], 0⟩

/-- The loop of `push`: each turn takes the bytes up to a newline, a full part, or what is left. -/
def pushLoop : ℕ → Assembler → List Byte → Assembler × List Entry
  | 0, a, _ => (a, [])
  | fuel + 1, a, data =>
    if data = [] then (a, [])
    else
      let room := a.max - a.pending.length
      -- a newline right after a full part ends the line there
      let window := data.take (room + 1)
      match window.findIdx? fun b => b.val == newline with
      | some i =>
        let (a', out) := pushLoop fuel { a with pending := [], line := a.line + 1 } (data.drop (i + 1))
        (a', ⟨a.source, false, a.pending ++ window.take i, a.line⟩ :: out)
      | none =>
        if room < data.length then
          let (a', out) := pushLoop fuel { a with pending := [] } (data.drop room)
          (a', ⟨a.source, true, a.pending ++ data.take room, a.line⟩ :: out)
        else ({ a with pending := a.pending ++ data }, [])

/-- A turn takes a byte, or ends the part that was full. -/
def push (a : Assembler) (data : List Byte) : Assembler × List Entry := a.pushLoop (2 * data.length + 2) data

def flush (a : Assembler) : Assembler × List Entry :=
  if a.pending = [] then (a, []) else ({ a with pending := [] }, [⟨a.source, true, a.pending, a.line⟩])

end Assembler

/-! The text of an entry -/

/-- A character of a text, and the bytes of the output it was read from: none for one that stands for
others. -/
structure Piece where
  char : Char
  origin : List Byte
  deriving DecidableEq, Repr

def vals (bytes : List Byte) : List UInt8 := bytes.map Byte.val

def utf8 (s : List Char) : List UInt8 := s.flatMap String.utf8EncodeChar

def isCont (b : UInt8) : Bool := 0x80 ≤ b && b ≤ 0xbf

/-- The second byte of a character of three bytes goes with its first. -/
def threeOk (b₀ b₁ : UInt8) : Bool :=
  (b₀ == 0xe0 && 0xa0 ≤ b₁ && b₁ ≤ 0xbf) || (0xe1 ≤ b₀ && b₀ ≤ 0xec && isCont b₁) ||
    (b₀ == 0xed && 0x80 ≤ b₁ && b₁ ≤ 0x9f) || (0xee ≤ b₀ && b₀ ≤ 0xef && isCont b₁)

/-- The same of four bytes. -/
def fourOk (b₀ b₁ : UInt8) : Bool :=
  (b₀ == 0xf0 && 0x90 ≤ b₁ && b₁ ≤ 0xbf) || (0xf1 ≤ b₀ && b₀ ≤ 0xf3 && isCont b₁) || (b₀ == 0xf4 && 0x80 ≤ b₁ && b₁ ≤ 0x8f)

/-- The bytes after the first that go with it, where no character begins. -/
def invalidRest : List UInt8 → ℕ
  | b₀ :: b₁ :: rest =>
    if threeOk b₀ b₁ then 1
    else if fourOk b₀ b₁ then if (rest.head?.any isCont) then 2 else 1
    else 0
  | _ => 0

/-- `from_utf8_lossy`, which is `from_utf8` where that succeeds: U+FFFD stands for bytes that are no
character. -/
def fromUtf8Lossy : List Byte → List Piece :=
  Scan.scan (fun b rest =>
    match Utf8.decode (vals (b :: rest)) with
    | some c => ([⟨c, (b :: rest).take c.utf8Size⟩], c.utf8Size - 1)
    | none => ([⟨'\ufffd', []⟩], invalidRest (vals (b :: rest)))) 0

def chars (text : List Piece) : List Char := text.map Piece.char

/-! Redaction -/

def marker : List Char := ['[', 'r', 'e', 'd', 'a', 'c', 't', 'e', 'd', ']']

def byteLen (s : List Char) : ℕ := (s.map Char.utf8Size).sum

/-- The longest first, those of one length in their order. -/
def longestFirst (a b : List Char) : Prop := byteLen b < byteLen a ∨ (byteLen b = byteLen a ∧ a ≤ b)

instance (a b : List Char) : Decidable (longestFirst a b) := inferInstanceAs (Decidable (_ ∨ _))

/-- `dedup` of a vector: of equal elements that stand together one is kept. -/
def dedupRuns : List (List Char) → List (List Char)
  | a :: b :: rest => if a = b then dedupRuns (b :: rest) else a :: dedupRuns (b :: rest)
  | rest => rest

/-- What a line is redacted of. -/
def redactions (values : List (List Char)) : List (List Char) :=
  dedupRuns ((values.filter fun v => v ≠ []).insertionSort longestFirst)

def mark : List Piece := marker.map fun c => ⟨c, []⟩

/-- `replace(value, "[redacted]")`: the occurrences from left to right, none that overlaps one before. -/
def replace (text : List Piece) (value : List Char) : List Piece :=
  Scan.scan (Scan.swap (fun rest => value <+: chars rest) mark (value.length - 1)) 0 text

def redactOne (text : List Piece) (value : List Char) : List Piece :=
  if value <:+: chars text then replace text value else text

/-- Replaces every one of `values` in `text`, one after the other. -/
def redact (text : List Piece) (values : List (List Char)) : List Piece := values.foldl redactOne text

/-! The way from the FIFOs to the sink -/

/-- A record that was sent, of the line it is of. -/
structure Record where
  source : Source
  line : ℕ
  /-- not sent: the entry's text, as it was read -/
  bytes : List Byte
  text : List Piece
  deriving DecidableEq, Repr

structure World where
  lines : Source → Assembler
  /-- what was read of the FIFOs -/
  output : Source → List UInt8
  log : List Entry
  /-- the next entry the stream of the log gives -/
  next : ℕ
  shipped : List Record

def World.init : World := ⟨fun src => .new src maxLine, fun _ => [], [], 0, []⟩

inductive Event
  /-- a read of a FIFO -/
  | read (src : Source) (data : List UInt8)
  /-- the unfinished line waited long enough, or the container exited -/
  | due (src : Source)
  /-- the next entry, and whether the stream's limit has room for it -/
  | ship (room : Bool)
  deriving DecidableEq, Repr

/-- The assembler of a stream and the log, after the assembler took something. -/
def World.took (w : World) (src : Source) (a : Assembler × List Entry) : World :=
  { w with lines := Function.update w.lines src a.1, log := w.log ++ a.2 }

def step (values : List (List Char)) (w : World) : Event → Option World
  | .read src data =>
    let w' := w.took src ((w.lines src).push (bytesFrom (w.output src).length data))
    some { w' with output := Function.update w.output src (w.output src ++ data) }
  | .due src => some (w.took src (w.lines src).flush)
  | .ship room =>
    (w.log[w.next]?).map fun e =>
      let record : Record := ⟨e.source, e.line, e.text, redact (fromUtf8Lossy e.text) (redactions values)⟩
      { w with next := w.next + 1, shipped := if room then w.shipped ++ [record] else w.shipped }

/-! What is to hold -/

/-- The line of an output after `n` newlines, without its own; the last one may go on. -/
def lineOf : List Byte → ℕ → List Byte
  | [], _ => []
  | b :: rest, 0 => if b.val = newline then [] else b :: lineOf rest 0
  | b :: rest, n + 1 => if b.val = newline then lineOf rest n else lineOf rest (n + 1)

def World.line (w : World) (src : Source) (n : ℕ) : List Byte := lineOf (bytesFrom 0 (w.output src)) n

/-- The records shipped for a line. -/
def World.recordsOf (w : World) (src : Source) (n : ℕ) : List Record :=
  w.shipped.filter fun r => r.source = src ∧ r.line = n

def World.text (w : World) (src : Source) (n : ℕ) : List Char := (w.recordsOf src n).flatMap fun r => chars r.text

/-- The bytes of the output that are shipped as they were. -/
def World.shown (w : World) (src : Source) (n : ℕ) : List Byte :=
  (w.recordsOf src n).flatMap fun r => r.text.flatMap Piece.origin

/-- The text shipped for a line has no value in it, and no byte of an occurrence of one. -/
def World.RedactedLine (values : List (List Char)) (w : World) (src : Source) (n : ℕ) : Prop :=
  ∀ v ∈ values, v ≠ [] →
    (¬ v <:+: w.text src n) ∧ ∀ o, o <:+: w.line src n → vals o = utf8 v → ∀ b ∈ o, b ∉ w.shown src n

def World.Redacted (values : List (List Char)) (w : World) : Prop := ∀ src n, w.RedactedLine values src n

end FeOS.Redact
