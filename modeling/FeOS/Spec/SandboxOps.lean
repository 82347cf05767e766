import FeOS.Spec.SandboxRow
import FeOS.Lib.Runs

/-! The transactions of the sandbox engine on a sandbox's row (`go/internal/sandbox`: `begin.go`,
`finish.go`, `sync.go`, `reconcile.go`, `loops.go`, `tombstone.go`; the sweeps of
`go/internal/store/sandboxes.go`), and the engine's instances at work. -/

namespace FeOS.Sandbox

/-- The state an op holds the sandbox in while it runs. -/
def transitional : OpKind → State
  | .resume => .resuming
  | .pause => .pausing
  | .hibernate => .hibernating
  | _ => .creating

def admits (k : OpKind) : Bool := k = .create ∨ k = .start ∨ k = .resume ∨ k = .restore

/-- An op that may make the pod at its target. -/
def makes (k : OpKind) : Bool := k = .create ∨ k = .start ∨ k = .resume ∨ k = .restore ∨ k = .repair

/-! Placement's gates -/

structure NodeRow where
  ready : Bool
  draining : Bool
  forked : Bool
  slots : ℤ
  /-- 0: not gated -/
  vcpuCapacity : ℤ
  memoryCapacityMiB : ℤ
  objectStore : Bool
  objectStoreId : String
  deriving DecidableEq, Repr

structure BookingSums where
  count : ℕ
  vcpus : ℕ
  memoryMiB : ℕ
  deriving DecidableEq, Repr

/-- What the gates look at for one node and one pod. -/
structure GateInput where
  node : NodeRow
  name : String
  booked : BookingSums
  tombstoned : Bool
  /-- another pod has the name of the pod's TAP device -/
  tap : Bool
  connected : Bool
  vcpus : ℕ
  memMiB : ℕ
  pin : Option String
  restore : Bool
  checkpointStore : String
  deriving DecidableEq, Repr

inductive Gate where
  | status
  | draining
  | forked
  | connected
  | tombstone
  | tap
  | store
  | slots
  | cpu
  | memory
  | pin
  deriving DecidableEq, Repr

/-- Whether a gate lets the pod through. -/
def GateInput.passes (i : GateInput) : Gate → Bool
  | .status => i.node.ready
  | .draining => !i.node.draining
  | .forked => !i.node.forked
  | .connected => i.connected
  | .tombstone => !i.tombstoned
  | .pin => i.pin = none ∨ i.pin = some i.name
  | .tap => !i.tap
  | .store =>
    !i.restore ||
      if i.checkpointStore ≠ "" then i.node.objectStoreId = i.checkpointStore
      else i.node.objectStoreId ≠ "" ∨ i.node.objectStore
  | .slots => 0 < i.node.slots ∧ i.booked.count < i.node.slots
  | .cpu => ¬ (0 < i.node.vcpuCapacity ∧ i.node.vcpuCapacity < i.booked.vcpus + i.vcpus)
  | .memory => i.booked.memoryMiB + i.memMiB ≤ i.node.memoryCapacityMiB

def claimGates : List Gate :=
  [.status, .pin, .draining, .forked, .connected, .tombstone, .tap, .store, .slots, .cpu, .memory]

def admitGates : List Gate := [.status, .draining, .forked, .connected, .slots, .cpu, .memory]

def capacityGates : List Gate := [.slots, .cpu, .memory]

/-- `check`: the first gate that refuses -/
def GateInput.check (i : GateInput) (gates : List Gate) : Option Gate := gates.find? fun g => !i.passes g

/-- `claim`, of what it reads under the node's lock. `connected` and `tap` are the instance's and
the other rows'. -/
def claim (row : Row) (kind : OpKind) (target : String) (n : NodeRow) (booked : BookingSums)
    (tombstoned tap connected : Bool) :
    Option Gate :=
  let placed : Bool := kind = .create ∨ kind = .restore
  GateInput.check
    { node := n
      name := target
      booked := booked
      tombstoned := placed && tombstoned
      tap := placed && tap
      connected := connected
      vcpus := row.vcpus
      memMiB := row.memoryMiB
      pin := if kind = .create then row.pinNode else none
      restore := kind = .restore
      checkpointStore := row.checkpointStore }
    (if placed then claimGates else admitGates)

def capacityRefusal (n : NodeRow) (name : String) (row : Row) (booked : BookingSums) : Option Gate :=
  GateInput.check
    { node := n
      name := name
      booked := booked
      tombstoned := false
      tap := false
      connected := false
      vcpus := row.vcpus
      memMiB := row.memoryMiB
      pin := none
      restore := false
      checkpointStore := "" }
    capacityGates

/-! Tombstones, handles and intents -/

@[ext]
structure TombstoneKey where
  pod : String
  node : String
  /-- none for a pod without the label -/
  incarnation : Option ℕ
  deriving DecidableEq, Repr

structure Tombstone where
  key : TombstoneKey
  notBefore : ℕ
  deriving DecidableEq, Repr

/-- What a begin read of the row, for a rollback. -/
structure ReadState where
  state : State
  node : Option String
  lostFrom : Option String
  materialised : Bool
  deriving DecidableEq, Repr

/-- An op in flight on an instance (`OpHandle`). -/
structure Handle where
  pod : String
  opId : ℕ
  inc : ℕ
  kind : OpKind
  target : String
  takeover : Bool
  /-- the hibernate a resume took the place of -/
  preempted : Option ℕ
  read : ReadState
  /-- those the begin wrote -/
  tombstones : List TombstoneKey
  deriving DecidableEq, Repr

/-- What a caller asks the runner to do (`OpIntent`). -/
structure Intent where
  kind : OpKind
  trigger : Trigger
  incarnation : Option ℕ
  takeover : Option ℕ
  preempt : Option ℕ
  deriving DecidableEq, Repr

/-- What a begin reads of other tables, and of its instance. -/
structure BeginReads where
  /-- `drainHibernate` -/
  drains : Bool
  /-- the recheck of the trigger -/
  recheck : Bool
  /-- a takeover finds the op's owner live, or the runner runs it -/
  busy : Bool
  connected : Bool
  tap : Bool
  deadline : ℕ
  deriving DecidableEq, Repr

/-! Begin -/

/-- `precheck`'s first half: the op's precondition, and whether it is bound to the row's node -/
def precondition (row : Row) (i : Intent) (drains : Bool) : Bool × Bool :=
  let st := row.clientState
  match i.kind with
  | .create => (st = .pending, false)
  | .start => (st = .stopped ∨ st = .failed, true)
  | .resume => (st = .paused, true)
  | .restore => (st = .hibernated ∧ row.hasCheckpoint, false)
  | .pause => (st = .running, true)
  | .hibernate => (st = .paused ∨ ((st = .stopped ∨ st = .failed ∨ st = .running) ∧ drains), true)
  | .repair =>
    ((st = .creating ∧ row.pendingSince ≠ none) ∨ (st = .running ∧ row.unreachableSince ≠ none) ∨
      (st = .running ∧ i.trigger = .restart), true)

/-- whether a recheck of another table decides too -/
def rechecks (i : Intent) : Bool :=
  match i.kind, i.trigger with
  | .repair, .repair | .repair, .ensure => true
  | .pause, .idle | .hibernate, .hibernateAfter => true
  | .pause, .drain | .pause, .ensure | .hibernate, .drain | .hibernate, .ensure => true
  | _, _ => false

def precheck (row : Row) (i : Intent) (target : String) (reads : BeginReads) : Bool :=
  let (ok, pinned) := precondition row i reads.drains
  ok && (!pinned || row.node = some target) && (!rechecks i || reads.recheck)

/-- the op columns of a begin -/
@[simps]
def Row.withOp (row : Row) (kind : OpKind) (opId : ℕ) (owner : String) (deadline : ℕ) (target : String)
    (fromState : State) : Row :=
  { row with
    op := some kind
    opId := some opId
    opOwner := some owner
    opDeadline := deadline
    opTarget := some target
    opFromState := some fromState
    clientState := transitional kind }

def beginRow (row : Row) (kind : OpKind) (opId : ℕ) (owner : String) (deadline : ℕ) (target : String) : Row :=
  let after := row.withOp kind opId owner deadline target row.clientState
  let after := if kind = .create ∨ kind = .restore then { after with node := some target } else after
  if after.node ≠ row.node then { after with materialised := false, lostFrom := none } else after

/-- the nodes a restore makes the pod stale on: the record holder, and the one lost grace left it
on -/
def staleNodes (row : Row) (target : String) : List String :=
  ((row.node.toList ++ row.lostFrom.toList).filter fun old => old ≠ target).dedup

/-! What a transaction does -/

/-- What the booking needs: nothing, to be freed, to be on the node whatever its gates say, or to be
claimed there. -/
inductive BookingAction where
  | unchanged
  | free
  | book (node : String)
  | claim (node : String)
  deriving DecidableEq, Repr

structure Effect where
  /-- none when the row is deleted -/
  after : Option Row
  upserts : List Tombstone
  drops : List TombstoneKey
  begun : Option Handle
  booking : BookingAction
  deriving DecidableEq, Repr

/-- `syncBooking`, but for what is booked already -/
def bookingFor (after : Row) : BookingAction :=
  match bookingOf after.clientState with
  | .bookNone => .free
  | .bookUnchanged => .unchanged
  | .bookMust => match after.node with
    | none => .unchanged
    | some n => .book n

/-- a change's commit: the tombstones, the row, and the booking that follows the state -/
def commitChange (pod : String) (now : ℕ) (row : Row) (node : String) (c : Change) (drops : List TombstoneKey) : Effect where
  after := some (row.update c.after)
  upserts := c.stale.map fun inc => ⟨⟨pod, node, inc⟩, now⟩
  drops := drops
  begun := none
  booking := bookingFor c.after

/-- A transaction on one sandbox's row, with what it reads beside the row. The sweeps and
`ReleaseOpsOf` write each row alike, one by one here. -/
inductive Txn where
  /-- `beginOn`, of an instance -/
  | begin (owner : String) (i : Intent) (target : String) (reads : BeginReads)
  /-- `finishOnce`, `fencedOut` included -/
  | finish (h : Handle) (res : CallResult) (obs : Observation)
  /-- `rollbackOnce`; `unfit` when the prepare hook found the node unfit -/
  | rollback (h : Handle) (unfit : Bool)
  /-- `releaseOp`, for the op that was read -/
  | releaseOp (opId : ℕ)
  | releaseOpsOf (owner : String)
  /-- `applySync`, of an observation of the row's node as it was read -/
  | applySync (gen inc : ℕ) (node : String) (obs : Observation)
  /-- `reconcilePod`, with the row's `gen` in the snapshot -/
  | reconcilePod (node : String) (info : Pod) (snap : Option ℕ)
  | reconcileMissing (node : String) (gen inc : ℕ)
  /-- the row's node is down or removed -/
  | downSweep
  | lostGrace
  /-- `deleteLocked`; `live` when the op's owner is -/
  | delete (live : Bool)
  deriving DecidableEq, Repr

/-- What the transactions read of the tables beside the row. -/
structure Reads where
  now : ℕ
  /-- a new op's ID -/
  fresh : ℕ
  tombstoned : TombstoneKey → Bool
  storeOf : String → String

def nothing (row : Option Row) : Effect := ⟨row, [], [], none, .unchanged⟩

/-- `takeover`: nothing but the op's ownership is written -/
def takeoverEffect (pod : String) (db : Reads) (owner : String) (reads : BeginReads) (row : Row)
    (kind : OpKind) : Effect where
  after := some (row.update
    { row with opId := some db.fresh, opOwner := some owner, opDeadline := db.now + reads.deadline })
  upserts := []
  drops := []
  begun := some
    { pod := pod
      opId := db.fresh
      inc := row.incarnation
      kind := kind
      target := row.opTarget.getD ""
      takeover := true
      preempted := none
      read := ⟨row.opFromState.getD .pending, row.node, row.lostFrom, row.materialised⟩
      tombstones := [] }
  booking := .unchanged

/-- `preemptHibernate`: the hibernate in flight is a paused sandbox's on its node -/
def preemptable (i : Intent) (target : String) (row : Row) : Bool :=
  row.opId = i.preempt ∧ row.op = some .hibernate ∧ row.clientState = .hibernating ∧ row.opFromState = some .paused ∧
    row.node = some target ∧ row.opTarget = some target

/-- a resume in the place of the hibernate -/
def preemptEffect (pod : String) (db : Reads) (owner : String) (target : String) (reads : BeginReads)
    (row : Row) : Effect where
  after := some (row.update (row.withOp .resume db.fresh owner (db.now + reads.deadline) target .paused))
  upserts := []
  drops := []
  begun := some
    { pod := pod
      opId := db.fresh
      inc := row.incarnation
      kind := .resume
      target := target
      takeover := false
      preempted := row.opId
      read := ⟨.paused, row.node, row.lostFrom, row.materialised⟩
      tombstones := [] }
  booking := .claim target

/-- the tombstones of a restore: an earlier decision's stays, and a rollback leaves it -/
def beginTombstones (pod : String) (db : Reads) (kind : OpKind) (target : String) (row : Row) : List TombstoneKey :=
  if kind = .restore then
    ((staleNodes row target).map fun old => ⟨pod, old, some row.incarnation⟩).filter fun k => !db.tombstoned k
  else []

def beginEffect (pod : String) (db : Reads) (owner : String) (kind : OpKind) (target : String)
    (reads : BeginReads) (row : Row) :
    Effect where
  after := some (row.update (beginRow row kind db.fresh owner (db.now + reads.deadline) target))
  upserts := (beginTombstones pod db kind target row).map fun k => ⟨k, db.now⟩
  drops := []
  begun := some
    { pod := pod
      opId := db.fresh
      inc := row.incarnation
      kind := kind
      target := target
      takeover := false
      preempted := none
      read := ⟨row.clientState, row.node, row.lostFrom, row.materialised⟩
      tombstones := beginTombstones pod db kind target row }
  booking := if admits kind then .claim target
    else bookingFor (beginRow row kind db.fresh owner (db.now + reads.deadline) target)

def beginOn (pod : String) (db : Reads) (owner : String) (i : Intent) (target : String) (reads : BeginReads) (row : Row) :
    Option Effect :=
  if i.incarnation ≠ none ∧ i.incarnation ≠ some row.incarnation then none
  else match row.op with
    | some kind =>
      if i.preempt ≠ none then
        if preemptable i target row then some (preemptEffect pod db owner target reads row) else none
      else if (i.takeover ≠ none ∧ i.takeover ≠ row.opId) ∨ reads.busy then none
      else some (takeoverEffect pod db owner reads row kind)
    | none =>
      if i.takeover ≠ none ∨ i.preempt ≠ none then none
      else if precheck row i target reads then some (beginEffect pod db owner i.kind target reads row) else none

/-- whether a checkpoint is newer than the row's -/
def newer (row : Row) (cp : Checkpoint) : Bool := cp.headKey ≠ "" ∧ row.checkpointEpoch < min cp.epoch (2 ^ 63 - 1)

/-- `fencedOut`: the op is no longer the row's. A tombstone for a pod that it may have made where
the row does not place it, or a newer checkpoint; nothing else. -/
def fencedOut (db : Reads) (h : Handle) (res : CallResult) (obs : Observation) (row : Option Row) : Effect :=
  let elsewhere : Bool := match row with
    | none => true
    | some row => row.incarnation ≠ h.inc ∨ (row.node ≠ some h.target ∧ row.opTarget ≠ some h.target)
  if makes h.kind ∧ elsewhere then { nothing row with upserts := [⟨⟨h.pod, h.target, some h.inc⟩, db.now⟩] }
  else match row with
    | none => nothing none
    | some row =>
      if row.incarnation ≠ h.inc then nothing (some row)
      else
        let cps := res.checkpoint :: ((obs.ours h.inc).map Pod.checkpoint).toList
        if cps.any (newer row) ∧ row.node = some h.target then
          nothing (some (row.update (cps.foldl (fun a cp => mergeCheckpoint (db.storeOf h.target) cp a) row)))
        else nothing (some row)

def finishOnce (db : Reads) (h : Handle) (res : CallResult) (obs : Observation) (row : Option Row) : Effect :=
  match row with
  | none => fencedOut db h res obs none
  | some r =>
    if r.incarnation ≠ h.inc ∨ r.opId ≠ some h.opId then fencedOut db h res obs (some r)
    else commitChange h.pod db.now r h.target (applyOutcome (db.storeOf h.target) h.kind h.target h.inc db.now res obs r) []

/-- the row that a rollback writes: nothing was sent -/
def rollbackRow (h : Handle) (unfit : Bool) (row : Row) : Row :=
  let a := row.clearOp
  if h.preempted ≠ none then { a with clientState := .unknown }
  else if h.takeover then { a with clientState := .unknown }
  else
    let a := { a with
      clientState := h.read.state
      node := h.read.node
      lostFrom := h.read.lostFrom
      materialised := h.read.materialised }
    if unfit ∧ h.kind = .create ∧ a.pinNode = none then { a with avoidNodes := appendUnique a.avoidNodes h.target } else a

def rollbackOnce (db : Reads) (h : Handle) (unfit : Bool) (row : Option Row) : Effect :=
  match row with
  | none => nothing none
  | some r =>
    if r.incarnation ≠ h.inc ∨ r.opId ≠ some h.opId then nothing (some r)
    else commitChange h.pod db.now r h.target ⟨rollbackRow h unfit r, []⟩
      (if h.preempted = none ∧ ¬ h.takeover then h.tombstones else [])

/-- the row of a released op; node and booking stay -/
def releasedRow (row : Row) : Row := { row.clearOp with clientState := .unknown }

/-- `applySync` and `reconcile` on a row that is as it was read -/
def observed (pod : String) (db : Reads) (node : String) (obs : Observation) (row : Row) : Effect :=
  commitChange pod db.now row node (observe (db.storeOf node) node db.now obs row)
    (if (obs.ours row.incarnation).isSome then [⟨pod, node, some row.incarnation⟩] else [])

def lostGraceRow (row : Row) : Row :=
  let kept := row.hasCheckpoint || row.materialised
  { row with
    clientState := if row.hasCheckpoint then .hibernated else if kept then .lost else .pending
    node := if kept then row.node else none
    lostFrom := if kept then row.node else none
    pendingSince := none
    gen := row.gen + 1 }

/-- `deleteLocked`: a tombstone for every node a pod of the incarnation may be on, not processed
before the deadline of a live op that may still make it there -/
def deleteTombstones (pod : String) (now : ℕ) (live : Bool) (row : Row) : List Tombstone :=
  let mayMake := row.op.any makes && live
  ((row.node.toList ++ row.opTarget.toList ++ row.lostFrom.toList).dedup).map fun n =>
    ⟨⟨pod, n, some row.incarnation⟩, if mayMake ∧ row.opTarget = some n then row.opDeadline else now⟩

/-- What a transaction does to the row, which it locks; none when it fails. -/
def Txn.run (pod : String) (db : Reads) (row : Option Row) : Txn → Option Effect
  | .begin owner i target reads => row.bind (beginOn pod db owner i target reads)
  | .finish h res obs => some (finishOnce db h res obs row)
  | .rollback h unfit => some (rollbackOnce db h unfit row)
  | .releaseOp opId =>
    row.map fun r => if r.opId = some opId ∧ r.op ≠ none then
      commitChange pod db.now r "" ⟨releasedRow r, []⟩ [] else nothing (some r)
  | .releaseOpsOf owner =>
    row.map fun r => if r.opOwner = some owner ∧ r.op ≠ none then
      { nothing (some r) with after := some { releasedRow r with gen := r.gen + 1 } } else nothing (some r)
  | .applySync gen inc node obs =>
    row.map fun r => if r.op = none ∧ r.gen = gen ∧ r.incarnation = inc ∧ r.node = some node then
      observed pod db node obs r else nothing (some r)
  | .reconcilePod node info snap =>
    match row with
    | none => some { nothing none with upserts := [⟨⟨pod, node, info.incarnation⟩, db.now⟩] }
    | some r =>
      -- a pod that no row places there
      if (r.node ≠ some node ∧ r.opTarget ≠ some node) ∨ (info.incarnation ≠ some r.incarnation ∧ r.op = none) then
        some { nothing (some r) with upserts := [⟨⟨pod, node, info.incarnation⟩, db.now⟩] }
      -- changed since the snapshot, or an op runs
      else if info.incarnation ≠ some r.incarnation ∨ r.node ≠ some node ∨ r.op ≠ none ∨ snap ≠ some r.gen then
        some (nothing (some r))
      else some (observed pod db node (.pod info) r)
  | .reconcileMissing node gen inc =>
    row.map fun r => if r.gen = gen ∧ r.op = none ∧ r.node = some node ∧ r.incarnation = inc then
      observed pod db node .notFound r else nothing (some r)
  | .downSweep =>
    row.map fun r => if r.node ≠ none ∧ r.op = none ∧ (r.clientState = .running ∨ r.clientState = .paused ∨
        r.clientState = .creating ∨ r.clientState = .stopped ∨ r.clientState = .failed) then
      { nothing (some r) with after := some { r with clientState := .unknown, gen := r.gen + 1 } } else nothing (some r)
  | .lostGrace =>
    row.map fun r => if r.node ≠ none ∧ r.op = none ∧ r.clientState = .unknown then
      { nothing (some r) with after := some (lostGraceRow r), booking := .free } else nothing (some r)
  | .delete live =>
    row.map fun r => ⟨none, deleteTombstones pod db.now live r, [], none, .free⟩

end FeOS.Sandbox
