import FeOS.Spec.DiskSvc

/-! The device of a disk at work (`diskd/src/dev.rs`) while Bake seals its top. A request first
bumps a counter and then changes the top: between the two, others run. -/

namespace FeOS

def MAX_IO_BYTES : ℕ := 2 ^ 20

/-- What a request still has to do to the top. -/
inductive TopChange where
  | write (off : ℕ) (bytes : Bytes)
  /-- discard and write-zeroes: zeroes are written, a piece at a time -/
  | zeroes (off len : ℕ)
  deriving DecidableEq, Repr

/-- What a request does to the top next, and what is left of it then. -/
def TopChange.land (f : SparseFile) : TopChange → SparseFile × Option TopChange
  | .write off bytes => (f.write off bytes, none)
  | .zeroes off len =>
    let piece := min len MAX_IO_BYTES
    (f.write off (List.replicate piece 0), if piece < len then some (.zeroes (off + piece) (len - piece)) else none)

/-- A request that has bumped its counter: `count` is what the counter of the writes was then,
with it. -/
structure Flight where
  change : TopChange
  count : ℕ
  deriving DecidableEq, Repr

structure LiveTop (Hash : Type) where
  node : Node Hash
  /-- `DevStats::discards` -/
  discards : ℕ
  flights : List Flight
  /-- the tops of the disk since the call began, the newest first -/
  tops : List SparseFile
  /-- what the call read of the counter first -/
  firstRead : Option ℕ

inductive DeviceStep where
  | write (off : ℕ) (bytes : Bytes)
  | discard (off len : ℕ)
  | writeZeroes (off len : ℕ)
  /-- these change neither the top nor the counter of the writes -/
  | read
  | flush
  /-- a request's change reaches the top, or the next piece of it -/
  | land (i : ℕ)
  /-- a request fails instead -/
  | lose (i : ℕ)
  deriving DecidableEq, Repr

namespace LiveTop

variable {Hash : Type} (pod : String)

def withinDisk (w : LiveTop Hash) (off len : ℕ) : Bool :=
  match w.node.rows pod with
  | some row => off + len ≤ row.logicalSize
  | none => false

def setTop (w : LiveTop Hash) (f : SparseFile) : LiveTop Hash :=
  { w with
    node := { w.node with files := Function.update w.node.files (.top pod) (some f) }
    tops := f :: w.tops }

/-- `write_io`, up to the write itself -/
def startWrite (w : LiveTop Hash) (off : ℕ) (bytes : Bytes) : LiveTop Hash :=
  let count := w.node.writes pod + 1
  let w := { w with node := { w.node with writes := Function.update w.node.writes pod count } }
  if w.withinDisk pod off bytes.length then { w with flights := w.flights ++ [⟨.write off bytes, count⟩] } else w

/-- `zero_write_io`, up to its first write: it counts the request among the discards. -/
def startZeroes (w : LiveTop Hash) (off len : ℕ) : LiveTop Hash :=
  let w := { w with discards := w.discards + 1 }
  if w.withinDisk pod off len then { w with flights := w.flights ++ [⟨.zeroes off len, w.node.writes pod⟩] } else w

def step (w : LiveTop Hash) : DeviceStep → Option (LiveTop Hash)
  | .write off bytes => some (w.startWrite pod off bytes)
  | .discard off len => some (w.startZeroes pod off len)
  | .writeZeroes off len => some (w.startZeroes pod off len)
  | .read => some w
  | .flush => some w
  | .land i =>
    match w.flights[i]?, w.node.files (.top pod) with
    | some fl, some f =>
      let (f, left) := TopChange.land f fl.change
      some { w.setTop pod f with
        flights := match left with
          | some change => w.flights.set i { fl with change := change }
          | none => w.flights.eraseIdx i }
    | _, _ => none
  | .lose i => if i < w.flights.length then some { w with flights := w.flights.eraseIdx i } else none

/-- The node's calls in this world; Bake's first read of the counter is kept. -/
def exec [DecidableEq Hash] (L : Crates Hash) (o : Op Hash) (w : LiveTop Hash) : Except Error o.Ans × LiveTop Hash :=
  let r := Node.exec L o w.node
  (r.1, { w with
    node := r.2
    firstRead := match o with
      | .loadWrites _ => w.firstRead <|> some (w.node.writes pod)
      | _ => w.firstRead })

/-- A disk whose device is at work, when Bake is called. -/
def start (n : Node Hash) (top : SparseFile) (discards : ℕ) (flights : List Flight) : LiveTop Hash where
  node := n
  discards := discards
  flights := flights
  tops := [top]
  firstRead := none

end LiveTop

end FeOS
