import Mathlib.Tactic
import Mathlib.Data.List.Sort

/-! The logs of containers on their way to the sink: a stream's limit and batches
(`crates/fleet-client/src/sink/batch.rs`), the shipper that follows a log and sends it
(`crates/fleet-client/src/sink.rs`), and the sink's store (`go/internal/sink/store.go`). -/

namespace FeOS.Sink

/-- A log of a container, as its guest has it: each line starts where the last one ends. It goes on
for ever; a shipper has read some of it. -/
structure Log where
  start : ℕ → ℕ
  text : ℕ → String
  start_zero : start 0 = 0
  strictMono : StrictMono start

abbrev LogId := String

/-- A record to send: an entry of the log, or the node's own of lines it dropped. -/
structure Line where
  offset : ℕ
  nextOffset : ℕ
  text : String
  /-- lines and bytes it stands for, when the node dropped them -/
  dropped : Option (ℕ × ℕ)
  /-- not sent: the lines it is, or counts -/
  stands : List (LogId × ℕ)
  deriving DecidableEq, Repr

namespace Line

/-- The entry of a log's line. -/
def of (id : LogId) (log : Log) (k : ℕ) : Line := ⟨log.start k, log.start (k + 1), log.text k, none, [(id, k)]⟩

/-- The lines and bytes of text it stands for. -/
def counts (l : Line) : ℕ × ℕ := l.dropped.getD (1, l.text.utf8ByteSize)

end Line

/-- Lines dropped since the last one sent. -/
structure Dropped where
  lines : ℕ
  bytes : ℕ
  /-- where the first starts -/
  offset : ℕ
  /-- where the last one ends -/
  nextOffset : ℕ
  stands : List (LogId × ℕ)
  deriving DecidableEq, Repr

namespace Dropped

def empty : Dropped := ⟨0, 0, 0, 0, []⟩

def add (d : Dropped) (l : Line) : Dropped where
  lines := d.lines + l.counts.1
  bytes := d.bytes + l.counts.2
  offset := if d.lines = 0 then l.offset else d.offset
  nextOffset := max d.nextOffset l.nextOffset
  stands := d.stands ++ l.stands

def text (lines bytes : ℕ) : String := "[ferun] dropped " ++ toString lines ++ " lines (" ++ toString bytes ++ " bytes)"

/-- The node's record of them, at the first one's offset. `take` empties it. -/
def take (d : Dropped) : Option Line :=
  if d.lines = 0 then none else some ⟨d.offset, d.nextOffset, text d.lines d.bytes, some (d.lines, d.bytes), d.stands⟩

end Dropped

/-! A batch -/

def batchBytes : ℕ := 2 ^ 20

def batchLines : ℕ := 1000

def recordOverhead : ℕ := 64

def bytesOf (batch : List Line) : ℕ := (batch.map fun l => l.text.utf8ByteSize + recordOverhead).sum

def isFull (batch : List Line) : Bool := decide (batchLines ≤ batch.length ∨ batchBytes ≤ bytesOf batch)

def wouldOverflow (batch : List Line) (l : Line) : Bool :=
  decide (batch ≠ [] ∧ batchBytes < bytesOf batch + l.text.utf8ByteSize + recordOverhead)

/-! The sink -/

/-- A stream's row, and the lines produced to its topic. -/
structure Stream where
  stored : List Line
  nextOffset : ℤ
  lastOff : ℤ
  deriving DecidableEq, Repr

def Stream.empty : Stream := ⟨[], 0, -1⟩

/-- What a batch adds to a stream's row, and where it is: the variables of `ingestStream`. -/
structure Count where
  next : ℤ
  last : ℤ
  fromOff : ℤ
  recs : List Line
  deriving DecidableEq, Repr

def Count.line (c : Count) (l : Line) : Count :=
  let next := max c.next l.offset
  let last := max c.last l.offset
  if (l.offset : ℤ) ≤ c.fromOff then ⟨next, last, c.fromOff, c.recs⟩ else ⟨next, last, l.offset, c.recs ++ [l]⟩

/-- the batch's `Next` -/
def nextOf (lines : List Line) : ℤ := (lines.map fun l => (l.nextOffset : ℤ)).foldl max (-1)

def byOffset (lines : List Line) : List Line := lines.insertionSort fun x y => x.offset ≤ y.offset

/-- `Ingest`, of one stream's batch: a line at or below the last stored is stored. -/
def Stream.ingest (st : Stream) (lines : List Line) : Stream :=
  let c := (byOffset lines).foldl Count.line ⟨nextOf lines, -1, st.lastOff, []⟩
  ⟨st.stored ++ c.recs, max st.nextOffset c.next, max st.lastOff c.last⟩

/-- `Positions`, of one stream -/
def Stream.position (st : Stream) : ℕ := st.nextOffset.toNat

/-! Shippers -/

/-- A run of `ship`. -/
structure Shipper where
  /-- none before the log has an ID -/
  logId : Option LogId
  /-- the line that its guest sends next -/
  next : ℕ
  dropped : Dropped
  batch : List Line
  /-- what `admit` gave, and is not in the batch yet -/
  pending : List Line
  /-- it is in `send` -/
  sending : Bool
  deriving DecidableEq, Repr

namespace Shipper

def new (logId : Option LogId) (next : ℕ) : Shipper := ⟨logId, next, .empty, [], [], false⟩

/-- The limit's `admit` of the next line, by whether there is room for it. -/
def admitLine (s : Shipper) (l : Line) (room : Bool) : Shipper :=
  if room then { s with next := s.next + 1, dropped := .empty, pending := s.dropped.take.toList ++ [l] }
  else { s with next := s.next + 1, dropped := s.dropped.add l }

/-- the batch's `push`; a full one goes -/
def push (s : Shipper) (l : Line) (pending : List Line) : Shipper :=
  let batch := s.batch ++ [l]
  { s with batch := batch, pending := pending, sending := isFull batch }

/-- the log is quiet, or has ended: the record of the lines dropped goes, too -/
def flush (s : Shipper) : Shipper :=
  let batch := s.batch ++ s.dropped.take.toList
  { s with dropped := .empty, batch := batch, sending := decide (batch ≠ []) }

/-- the sink took the batch -/
def taken (s : Shipper) : Shipper := { s with batch := [], sending := false }

/-- the sink refused the batch for its tenant's quota -/
def refused (s : Shipper) : Shipper :=
  { s with dropped := s.batch.foldl Dropped.add s.dropped, batch := [], sending := false }

end Shipper

/-- How an export ends. -/
inductive Result where
  | stored
  | answerLost
  | exhausted
  | failed
  deriving DecidableEq, Repr

def Result.stores : Result → Bool
  | .stored | .answerLost => true
  | _ => false

structure World where
  streams : LogId → Stream
  /-- the runs of `ship`, of one container's logs -/
  shippers : ℕ → Option Shipper

inductive Event where
  /-- a run begins: at the sink's position of the log that is there, or of none -/
  | start (i : ℕ) (logId : Option LogId) (k : ℕ)
  | read (i : ℕ) (room : Bool)
  /-- an entry of another log comes, of its first line -/
  | switch (i : ℕ) (logId : LogId)
  | push (i : ℕ)
  /-- the batch goes: it is due, or has no room for the next record -/
  | send (i : ℕ)
  | flush (i : ℕ)
  | export (i : ℕ) (result : Result)
  | stop (i : ℕ)
  deriving DecidableEq, Repr

namespace World

def empty : World := ⟨fun _ => .empty, fun _ => none⟩

def set (w : World) (i : ℕ) (s : Option Shipper) : World := { w with shippers := Function.update w.shippers i s }

/-- The line of a log that `from_offset` names: the first one that is not before it. -/
def Starts (log : Log) (position k : ℕ) : Prop := position ≤ log.start k ∧ ∀ j < k, log.start j < position

instance (log : Log) (position k : ℕ) : Decidable (Starts log position k) := inferInstanceAs (Decidable (_ ∧ _))

/-- An export's end, for the shipper that made it. -/
def exported (w : World) (i : ℕ) (s : Shipper) (id : LogId) (result : Result) : World :=
  let w := if result.stores then { w with streams := Function.update w.streams id ((w.streams id).ingest s.batch) } else w
  match result with
  | .stored => w.set i (some s.taken)
  | .exhausted => w.set i (some s.refused)
  | _ => w

variable (logs : LogId → Log)

def step (w : World) : Event → Option World
  | .start i logId k =>
    match logId with
    | none => some (w.set i (some (.new none 0)))
    | some id => if Starts (logs id) (w.streams id).position k then some (w.set i (some (.new logId k))) else none
  | .read i room =>
    match w.shippers i with
    | some s =>
      match s.logId with
      | some id =>
        if s.sending = false ∧ s.pending = [] then some
          (w.set i (some (s.admitLine (.of id (logs id) s.next) room))) else none
      | none => none
    | none => none
  | .switch i id =>
    match w.shippers i with
    | some s =>
      if s.sending = false ∧ s.pending = [] ∧ s.batch = [] ∧ s.logId ≠ some id then
        -- the sink is further than the entry: again from its position
        if (logs id).start 0 < (w.streams id).position then some (w.set i none)
        else some (w.set i (some { s with logId := some id, next := 0 }))
      else none
    | none => none
  | .push i =>
    match w.shippers i with
    | some s =>
      match s.pending with
      | l :: pending => if s.sending = false ∧
          wouldOverflow s.batch l = false then some (w.set i (some (s.push l pending))) else none
      | [] => none
    | none => none
  | .send i =>
    match w.shippers i with
    | some s =>
      if s.sending = false ∧ s.batch ≠ [] ∧ (s.pending.head?.all fun l => wouldOverflow s.batch l) then
        some (w.set i (some { s with sending := true }))
      else none
    | none => none
  | .flush i =>
    match w.shippers i with
    | some s => if s.sending = false ∧ s.pending = [] then some (w.set i (some s.flush)) else none
    | none => none
  | .export i result =>
    match w.shippers i with
    | some s =>
      match s.logId with
      | some id => if s.sending then some (w.exported i s id result) else none
      | none => none
    | none => none
  | .stop i => some (w.set i none)

end World

end FeOS.Sink
