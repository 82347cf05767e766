import Mathlib.Tactic

/-! A sandbox's row (`go/internal/store/sandboxes.go`) and what an observation of its pod makes of
it (`go/internal/sandbox/change.go`, `finish.go`). -/

namespace FeOS.Sandbox

inductive State where
  | pending
  | creating
  | running
  | pausing
  | paused
  | resuming
  | hibernating
  | hibernated
  | stopped
  | failed
  | unknown
  | lost
  deriving DecidableEq, Repr

inductive OpKind where
  | create
  | start
  | resume
  | restore
  | pause
  | hibernate
  | repair
  deriving DecidableEq, Repr

inductive Trigger where
  | ensure
  | explicit
  | idle
  | hibernateAfter
  | drain
  | drainForced
  | repair
  | restart
  deriving DecidableEq, Repr

/-- A sandbox's row. A column that is NULL or empty is none. -/
structure Row where
  incarnation : ℕ
  vcpus : ℕ
  memoryMiB : ℕ
  clientState : State
  node : Option String
  /-- a pod of this incarnation was seen on the node -/
  materialised : Bool
  lostFrom : Option String
  avoidNodes : List String
  op : Option OpKind
  opId : Option ℕ
  opOwner : Option String
  opDeadline : ℕ
  opTarget : Option String
  opFromState : Option State
  gen : ℕ
  checkpointEpoch : ℕ
  checkpointHead : String
  checkpointStore : String
  pendingSince : Option ℕ
  unreachableSince : Option ℕ
  pinNode : Option String
  deriving DecidableEq, Repr

namespace Row

def hasCheckpoint (r : Row) : Bool := r.checkpointHead ≠ ""

/-- The row of an insert. -/
def new (incarnation vcpus memoryMiB : ℕ) (pinNode : Option String) : Row where
  incarnation := incarnation
  vcpus := vcpus
  memoryMiB := memoryMiB
  clientState := .pending
  node := none
  materialised := false
  lostFrom := none
  avoidNodes := []
  op := none
  opId := none
  opOwner := none
  opDeadline := 0
  opTarget := none
  opFromState := none
  gen := 0
  checkpointEpoch := 0
  checkpointHead := ""
  checkpointStore := ""
  pendingSince := none
  unreachableSince := none
  pinNode := pinNode

/-- The columns that are not lifecycle columns, set as in another row. -/
def withoutLifecycle (r before : Row) : Row :=
  { r with
    lostFrom := before.lostFrom
    avoidNodes := before.avoidNodes
    pendingSince := before.pendingSince
    unreachableSince := before.unreachableSince
    pinNode := before.pinNode
    gen := before.gen }

/-- `UpdateSandbox`, of a row that is locked: a change of a lifecycle column increments `gen`. -/
@[simps]
def update (before after : Row) : Row :=
  { after with gen := if after.withoutLifecycle before = before then before.gen else before.gen + 1 }

@[simps]
def clearOp (a : Row) : Row :=
  { a with
    op := none
    opId := none
    opOwner := none
    opDeadline := 0
    opTarget := none
    opFromState := none }

end Row

/-! What a node says of a pod -/

inductive PodState where
  | pending
  | running
  | suspended
  | hibernated
  | stopped
  | failed
  | other
  deriving DecidableEq, Repr

/-- A checkpoint; none when its head key is empty. -/
structure Checkpoint where
  headKey : String
  epoch : ℕ
  deriving DecidableEq, Repr

def noCheckpoint : Checkpoint := ⟨"", 0⟩

structure Pod where
  /-- the label's, none for a pod without it -/
  incarnation : Option ℕ
  /-- whether it has the label of a sandbox -/
  isFerunPod : Bool
  state : PodState
  checkpoint : Checkpoint
  deriving DecidableEq, Repr

/-- Nothing (the node never answered), NOT_FOUND, or the pod's record. -/
inductive Observation where
  | noAnswer
  | notFound
  | pod (info : Pod)
  deriving DecidableEq, Repr

def Observation.ours (inc : ℕ) : Observation → Option Pod
  | .pod info => if info.incarnation = some inc then some info else none
  | _ => none

/-- What an op's call answered, by the codes that matter to the row. -/
inductive CallError where
  | resourceExhausted
  | failedPrecondition
  | alreadyExists
  | other
  deriving DecidableEq, Repr

structure CallResult where
  err : Option CallError
  checkpoint : Checkpoint
  deriving DecidableEq, Repr

def placementFailure : Option CallError → Bool
  | some .resourceExhausted => true
  | some .failedPrecondition => true
  | some .alreadyExists => true
  | _ => false

/-! What it makes of the row -/

/-- `mergeCheckpoint`: never back to an older epoch. `store` is the object store that the node
reports. -/
def mergeCheckpoint (store : String) (cp : Checkpoint) (a : Row) : Row :=
  let epoch := min cp.epoch (2 ^ 63 - 1)
  if cp.headKey = "" then a
  else if epoch < a.checkpointEpoch then a
  else if epoch = a.checkpointEpoch ∧ cp.headKey = a.checkpointHead then a
  else { a with
    checkpointHead := cp.headKey
    checkpointEpoch := epoch
    checkpointStore := store }

/-- `notFound` -/
def podNotFound (a : Row) : Row :=
  if a.hasCheckpoint then { a with clientState := .hibernated, node := none, materialised := false, pendingSince := none }
  else if a.materialised then { a with clientState := .lost, pendingSince := none }
  else { a with clientState := .pending, node := none, materialised := false, pendingSince := none }

/-- The row's own pod is on the node. -/
def seenOn (store node : String) (info : Pod) (a : Row) : Row :=
  mergeCheckpoint store info.checkpoint { a with node := some node, materialised := true, lostFrom := none }

def observeOurs (store node : String) (now : ℕ) (info : Pod) (row : Row) : Row :=
  let a := seenOn store node info row
  match info.state with
  | .pending => { a with clientState := .creating, pendingSince := a.pendingSince <|> some now }
  | .running => { a with clientState := .running, pendingSince := none }
  | .suspended => { a with clientState := .paused, pendingSince := none }
  | .hibernated => { a with clientState := .hibernated, pendingSince := none }
  | .stopped => { a with clientState := .stopped, pendingSince := none }
  | .failed => { a with clientState := .failed, pendingSince := none }
  | .other => a

/-- A row to write, and the incarnations of the sandbox's pods on the node to delete. -/
structure Change where
  after : Row
  stale : List (Option ℕ)
  deriving DecidableEq, Repr

/-- `observe`, as Sync and Reconcile apply it -/
def observe (store node : String) (now : ℕ) (obs : Observation) (row : Row) : Change :=
  match obs with
  | .pod info =>
    if info.incarnation = some row.incarnation then ⟨observeOurs store node now info row, []⟩
    -- a stale record
    else ⟨podNotFound row, [info.incarnation]⟩
  | _ => ⟨podNotFound row, []⟩

/-- `applyOurs`: the state of the op's own pod on its target -/
def applyOurs (store target : String) (now : ℕ) (res : CallResult) (info : Pod) (row : Row) : Row :=
  let a := seenOn store target info row
  match info.state with
  | .running => { a with clientState := .running, avoidNodes := [], pendingSince := none, unreachableSince := none }
  | .pending => { a with clientState := .creating, pendingSince := a.pendingSince <|> some now }
  | .suspended => { a with clientState := .paused, pendingSince := none }
  | .hibernated =>
    let a := { a with clientState := .hibernated, pendingSince := none }
    if info.checkpoint.headKey = "" then mergeCheckpoint store res.checkpoint a else a
  | .stopped => { a with clientState := .stopped, pendingSince := none }
  | .failed => { a with clientState := .failed, pendingSince := none }
  | .other => { a with clientState := .unknown }

def appendUnique (nodes : List String) (node : String) : List String := if node ∈ nodes then nodes else nodes ++ [node]

/-- `applyOutcome`: what the target holds of the pod after the op's calls decides. -/
def applyOutcome (store : String) (kind : OpKind) (target : String) (inc now : ℕ) (res : CallResult) (obs : Observation)
    (row : Row) : Change :=
  let a := row.clearOp
  match obs with
  | .noAnswer => ⟨{ a with clientState := .unknown }, []⟩
  | .notFound =>
    let avoids := kind = .create ∧ placementFailure res.err ∧ ¬ a.hasCheckpoint ∧ ¬ a.materialised
    ⟨podNotFound (if avoids then { a with avoidNodes := appendUnique a.avoidNodes target } else a), []⟩
  | .pod info =>
    if info.incarnation = some inc then ⟨applyOurs store target now res info a, []⟩
    else ⟨podNotFound a, [info.incarnation]⟩

/-! Bookings (§9 states table) -/

inductive BookingRule where
  | bookNone
  | bookMust
  | bookUnchanged
  deriving DecidableEq, Repr

def bookingOf : State → BookingRule
  | .creating | .running | .pausing | .resuming => .bookMust
  | .hibernating | .unknown => .bookUnchanged
  | _ => .bookNone

end FeOS.Sandbox
