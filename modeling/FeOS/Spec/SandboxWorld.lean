import FeOS.Spec.SandboxOps

/-! The engine's instances on one database, the nodes' pods, and the processing of tombstones
(`go/internal/sandbox/tombstone.go`): committed transactions, the calls of ops in flight and the
steps of tombstone runs, in any order. -/

namespace FeOS.Sandbox

structure Booking where
  pod : String
  node : String
  vcpus : ℕ
  memoryMiB : ℕ
  gated : Bool
  deriving DecidableEq, Repr

/-- `SumBookings`: without the pod -/
def sumBookings (bookings : List Booking) (node exclude : String) : BookingSums :=
  let on := bookings.filter fun b => b.node = node ∧ b.pod ≠ exclude
  ⟨on.length, (on.map Booking.vcpus).sum, (on.map Booking.memoryMiB).sum⟩

def upsertBooking (bookings : List Booking) (b : Booking) : List Booking := b :: bookings.filter fun x => x.pod ≠ b.pod

def deleteBooking (bookings : List Booking) (pod : String) : List Booking := bookings.filter fun x => x.pod ≠ pod

/-- `UpsertTombstone`: an existing one gets the new time -/
def upsertTombstone (ts : List Tombstone) (t : Tombstone) : List Tombstone := t :: ts.filter fun x => x.key ≠ t.key

def deleteTombstone (ts : List Tombstone) (k : TombstoneKey) : List Tombstone := ts.filter fun x => x.key ≠ k

/-- Where the processing of a tombstone on an instance is (`runTombstone`). -/
inductive RunStage where
  /-- it read the tombstone, which was due -/
  | read
  /-- its GetPod found a pod to delete -/
  | deleting
  /-- the tombstone goes next -/
  | dropping
  deriving DecidableEq, Repr

structure TombRun where
  owner : String
  key : TombstoneKey
  stage : RunStage
  deriving DecidableEq, Repr

structure World where
  rows : String → Option Row
  tombstones : List Tombstone
  bookings : List Booking
  nodes : String → Option NodeRow
  /-- every op that has begun -/
  handles : List Handle
  /-- the ops that made the pod at their target -/
  sent : List ℕ
  /-- the ops whose finish has committed -/
  finished : List ℕ
  /-- the ops whose rollback has committed -/
  rolledBack : List ℕ
  /-- what a node holds of a pod ID -/
  pods : String → String → Option Pod
  runs : List TombRun
  now : ℕ
  /-- the IDs given out are below it -/
  fresh : ℕ

inductive Event where
  | insert (pod : String) (vcpus memoryMiB : ℕ) (pinNode : Option String)
  | commit (pod : String) (t : Txn)
  | setNode (node : String) (row : Option NodeRow)
  | tick (d : ℕ)
  /-- the call of an op in flight makes the pod at its target -/
  | makePod (h : Handle) (state : PodState) (checkpoint : Checkpoint)
  | losePod (node pod : String)
  /-- an instance reads a due tombstone -/
  | startRun (owner : String) (key : TombstoneKey)
  | getPod (i : ℕ)
  /-- the run's DeletePod takes effect -/
  | deletePod (i : ℕ)
  | dropTombstone (i : ℕ)
  /-- a call fails, or the process ends -/
  | failRun (i : ℕ)
  deriving DecidableEq, Repr

/-- An end transaction is that of an op that has begun, and a rollback that of one that sent
nothing. -/
def Txn.mayRun (pod : String) (handles : List Handle) (sent : List ℕ) : Txn → Bool
  | .finish h _ _ => h ∈ handles ∧ h.pod = pod
  | .rollback h _ => h ∈ handles ∧ h.pod = pod ∧ h.opId ∉ sent
  | _ => true

namespace World

variable (w : World)

def hasTombstone (pod node : String) : Bool := w.tombstones.any fun t => t.key.pod = pod ∧ t.key.node = node

def isTombstoned (k : TombstoneKey) : Bool := w.tombstones.any fun t => t.key = k

def reads : Reads where
  now := w.now
  fresh := w.fresh
  tombstoned := w.isTombstoned
  storeOf := fun node => ((w.nodes node).map NodeRow.objectStoreId).getD ""

/-- the gates of a begin, when it claims its target -/
def claims (t : Txn) (row : Row) (kind : OpKind) (pod target : String) : Bool :=
  match t, w.nodes target with
  | .begin _ _ _ reads, some n =>
    (claim row kind target n (sumBookings w.bookings target pod) (w.hasTombstone pod target) reads.tap reads.connected) =
      none
  | _, _ => false

/-- What the transaction does about the booking; none when it fails on it. -/
def bookingsAfter (pod : String) (t : Txn) (e : Effect) : Option (List Booking) :=
  match e.booking, e.after with
  | .unchanged, _ => some w.bookings
  | .free, _ => some (deleteBooking w.bookings pod)
  | .book node, some row =>
    if w.bookings.any fun b => b.pod = pod ∧ b.node = node then some w.bookings
    else (w.nodes node).map fun n =>
      upsertBooking w.bookings ⟨pod, node, row.vcpus, row.memoryMiB,
        capacityRefusal n node row (sumBookings w.bookings node pod) = none⟩
  | .claim node, some after =>
    match w.rows pod, e.begun with
    | some row, some h =>
      if w.claims t row h.kind pod node then some (upsertBooking w.bookings ⟨pod, node, after.vcpus, after.memoryMiB, true⟩)
      else none
    | _, _ => none
  | _, none => none

/-- The writes of a transaction that commits. -/
def write (pod : String) (t : Txn) (e : Effect) (bookings : List Booking) : World :=
  { w with
    rows := Function.update w.rows pod e.after
    tombstones := e.drops.foldl deleteTombstone (e.upserts.foldl upsertTombstone w.tombstones)
    bookings := bookings
    handles := w.handles ++ e.begun.toList
    finished := match t with
      | .finish h _ _ => h.opId :: w.finished
      | _ => w.finished
    rolledBack := match t with
      | .rollback h _ => h.opId :: w.rolledBack
      | _ => w.rolledBack
    fresh := w.fresh + 1 }

/-- what GetPod's answer makes of a run -/
def afterGet (key : TombstoneKey) : Option Pod → RunStage
  | none => .dropping
  | some info => if info.isFerunPod ∧ (info.incarnation = key.incarnation ∨
      info.incarnation = none) then .deleting else .dropping

def setRun (i : ℕ) (r : TombRun) : World := { w with runs := w.runs.set i r }

def endRun (i : ℕ) : World := { w with runs := w.runs.eraseIdx i }

def setPod (node pod : String) (p : Option Pod) : World :=
  { w with pods := Function.update w.pods node (Function.update (w.pods node) pod p) }

def step : Event → Option World
  | .insert pod vcpus memoryMiB pinNode =>
    if w.rows pod = none then
      some { w with
        rows := Function.update w.rows pod (some (Row.new w.fresh vcpus memoryMiB pinNode))
        fresh := w.fresh + 1 }
    else none
  | .commit pod t =>
    if t.mayRun pod w.handles w.sent then
      (t.run pod w.reads (w.rows pod)).bind fun e => (w.bookingsAfter pod t e).map fun bookings => w.write pod t e bookings
    else none
  | .setNode node row => some { w with nodes := Function.update w.nodes node row }
  | .tick d => some { w with now := w.now + d }
  | .makePod h state checkpoint =>
    if h ∈ w.handles ∧ h.opId ∉ w.finished ∧ h.opId ∉ w.rolledBack ∧ makes h.kind then
      some { w.setPod h.target h.pod (some ⟨some h.inc, true, state, checkpoint⟩) with sent := h.opId :: w.sent }
    else none
  | .losePod node pod => some (w.setPod node pod none)
  | .startRun owner key =>
    -- one at a time of an instance
    if (w.tombstones.any fun t => t.key = key ∧ t.notBefore ≤ w.now) ∧
      ¬ (w.runs.any fun r => r.owner = owner ∧ r.key = key) then
      some { w with runs := w.runs ++ [⟨owner, key, .read⟩] }
    else none
  | .getPod i =>
    match w.runs[i]? with
    | some ⟨owner, key, .read⟩ => some (w.setRun i ⟨owner, key, afterGet key (w.pods key.node key.pod)⟩)
    | _ => none
  | .deletePod i =>
    match w.runs[i]? with
    | some ⟨owner, key, .deleting⟩ => some ((w.setPod key.node key.pod none).setRun i ⟨owner, key, .dropping⟩)
    | _ => none
  | .dropTombstone i =>
    match w.runs[i]? with
    | some ⟨_, key, .dropping⟩ => some ({ w with tombstones := deleteTombstone w.tombstones key }.endRun i)
    | _ => none
  | .failRun i => if i < w.runs.length then some (w.endRun i) else none

def start (nodes : String → Option NodeRow) : World where
  rows := fun _ => none
  tombstones := []
  bookings := []
  nodes := nodes
  handles := []
  sent := []
  finished := []
  rolledBack := []
  pods := fun _ _ => none
  runs := []
  now := 0
  fresh := 0

end World

end FeOS.Sandbox
