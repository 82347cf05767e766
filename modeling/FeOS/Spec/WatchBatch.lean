import FeOS.Lib.Runs

/-! What a watch stream sends (`watch-service/src/lib.rs`): `Batch`, which coalesces, and `pump`, the only writer of
the stream. -/

namespace FeOS.Watch

/-- The kinds that `classify` gives. -/
inductive FileKind
  | created
  | deleted
  | modified
  | attrib
  | movedFrom
  | movedTo
deriving DecidableEq, Repr

inductive EventKind
  | file (kind : FileKind)
  | stale
deriving DecidableEq, Repr

structure Event where
  id : ℕ
  kind : EventKind
  dir : String
  name : String
  isDir : Bool
  cookie : UInt32
  stalePaths : List String
deriving DecidableEq, Repr

structure Batch where
  pending : List Event := []
  seen : List (String × String × FileKind) := []
  nextId : ℕ := 0

def maxBatch : ℕ := 2048

/-- Appends a stale marker. -/
def Batch.stale (b : Batch) (paths : List String) : Batch :=
  { b with pending := b.pending ++ [⟨0, .stale, "", "", false, 0, paths⟩] }

/-- Adds an event; whether the batch wants flushing now. The directories of a batch that is too large are those of a
set, in any order. -/
def Batch.push (b : Batch) (kind : FileKind) (dir name : String) (isDir : Bool) (cookie : UInt32) : Batch × Bool :=
  if (dir, name, kind) ∈ b.seen then (b, false)
  else
    let pending := b.pending ++ [⟨0, .file kind, dir, name, isDir, cookie, []⟩]
    if maxBatch ≤ pending.length then
      (({ b with pending := [], seen := [] } : Batch).stale (pending.map Event.dir).dedup, true)
    else ({ b with pending, seen := (dir, name, kind) :: b.seen }, false)

/-- Events with the ids after `id`. -/
def stamp : ℕ → List Event → List Event
  | _, [] => []
  | id, e :: l => { e with id := id + 1 } :: stamp (id + 1) l

/-- Stamps the ids and hands the batch over. -/
def Batch.take (b : Batch) : List Event × Batch :=
  (stamp b.nextId b.pending, ⟨[], [], b.nextId + b.pending.length⟩)

structure Reconciled where
  watching : List String
  failed : List (String × String)
  watches : ℕ
deriving DecidableEq, Repr

inductive Frame
  | events (events : List Event)
  | ack (cursor : ℕ) (done : Reconciled)
  | error (message : String)
deriving DecidableEq, Repr

inductive Msg
  | fs (kind : FileKind) (dir name : String) (isDir : Bool) (cookie : UInt32)
  | stale (paths : List String)
  /-- With what `open_root` and `reconcile` come to. -/
  | subscribe (done : Except String Reconciled)
  | endOfStream

/-- The stream's state: `caller`, whether the receiver of `out` is still there; `running`, whether the loop is. -/
structure Pump where
  batch : Batch := {}
  deadline : Bool := false
  out : List Frame := []
  caller : Bool := true
  running : Bool := true

/-- `out.send`, and whether it succeeds. -/
def Pump.send (p : Pump) (f : Frame) : Pump × Bool :=
  if p.caller then ({ p with out := p.out ++ [f] }, true) else (p, false)

def Pump.flush (p : Pump) : Pump × Bool :=
  if p.batch.pending = [] then (p, true)
  else ({ p with batch := p.batch.take.2 } : Pump).send (.events p.batch.take.1)

/-- `if !flush(..) { break }; deadline = None` -/
def Pump.flushed (p : Pump) : Pump :=
  if p.flush.2 then { p.flush.1 with deadline := false } else { p.flush.1 with running := false }

/-- The answer to a subscription, with the batch's `cursor`. -/
def Pump.answer (p : Pump) : Except String Reconciled → Pump
  | .error message => { (p.send (.error message)).1 with running := false }
  | .ok done =>
    let sent := p.send (.ack p.batch.nextId done)
    { sent.1 with running := sent.2 }

/-- One turn of the loop with what `rx.recv()` gives. -/
def Pump.recv (p : Pump) : Option Msg → Pump
  | none => { p with running := false }
  | some (.fs kind dir name isDir cookie) =>
    let batch := p.batch.push kind dir name isDir cookie
    if batch.2 then ({ p with batch := batch.1 } : Pump).flushed
    else { p with batch := batch.1, deadline := p.deadline || batch.1.pending ≠ [] }
  | some (.stale paths) => ({ p with batch := p.batch.stale paths } : Pump).flushed
  | some (.subscribe done) => if p.flushed.running then p.flushed.answer done else p.flushed
  | some .endOfStream => { p.flush.1 with running := false }

inductive Turn
  | recv (msg : Option Msg)
  /-- The deadline has come. -/
  | sleep
  | hangUp

def Pump.step (p : Pump) : Turn → Option Pump
  | .recv msg => if p.running then some (p.recv msg) else none
  | .sleep => if p.running ∧ p.deadline then some p.flushed else none
  | .hangUp => some { p with caller := false }

end FeOS.Watch
