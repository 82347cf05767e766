import FeOS.Spec.Hibernation

/-! What a pod's hibernations do to what its node has of it: its record, in memory and as it is kept
(`crates/services/pod-service/src/store.rs`), its disk, its snapshot, and its heads in the object
store. Each step may fail, the task may end early, and feosd may end at any step. -/

namespace FeOS.Pods

/-- The fields of a pod's record that a hibernation sets. -/
structure PodRecord where
  state : PodState
  reason : String
  /-- the epoch of its checkpoint, which is the one of its head's key -/
  checkpoint : Option ℕ
  deriving DecidableEq, Repr

/-- A node with a pod, where a disk holds an `α`. -/
structure Node (α : Type) where
  info : PodRecord
  /-- the record as a restart reads it -/
  kept : PodRecord
  disk : Option α
  snapshot : Bool
  /-- a suspended microVM left a snapshot, which is the pod's until it is removed for a stopped pod -/
  hadSnapshot : Bool
  heads : ℕ → Option α
  /-- the epochs whose head's put succeeded -/
  put : List ℕ
  /-- that of the last hibernation -/
  epoch : ℕ
  /-- what is left to do, of a hibernation or a purge -/
  rest : List Step

/-- A step that writes the pod's record: a failure leaves the file as it was. -/
def Step.writesRecord : Step → Bool
  | .setState _ _ | .keepCheckpoint => true
  | _ => false

namespace Node

variable {α : Type}

/-- How a step ends. One that fails may have had its effect. -/
inductive Ends where
  | ok
  | fails (took : Bool)
  deriving DecidableEq, Repr

inductive Event where
  /-- a HibernatePod's task begins -/
  | hibernate (epoch : ℕ) (volumes : List Volume)
  /-- the next step of what is in flight -/
  | run (ends : Ends)
  /-- it is abandoned, or panics -/
  | drop
  | restart
  /-- `follow_vm`, of a running pod whose microVM is suspended -/
  | followVm (ends : Ends)
  /-- the purge of a hibernated pod at feosd's start -/
  | purge (volumes : List Volume)
  deriving DecidableEq, Repr

variable (n : Node α)

/-- `update`: a change that is not kept is only logged -/
def update (info : PodRecord) (saved : Bool) : Node α := { n with info := info, kept := if saved then info else n.kept }

def setState (state : PodState) (reason : String) (saved : Bool) : Node α :=
  if n.info.state = state ∧ n.info.reason = reason then n
  else n.update { n.info with state := state, reason := reason } saved

/-- The effect of a step, if it has it. -/
def effect (s : Step) (took : Bool) : Node α :=
  match s with
  | .setState state reason => n.setState state reason took
  | .keepCheckpoint => n.update { n.info with checkpoint := some n.epoch } took
  | .call .suspendVm => if took then { n with snapshot := true, hadSnapshot := true } else n
  | .call .deleteVm | .call .purgeVm => if took then { n with snapshot := false } else n
  | .call .putHead => if took then { n with heads := Function.update n.heads n.epoch n.disk } else n
  | .disk .remove .pod => if took then { n with disk := none } else n
  | _ => n

def done (s : Step) (rest : List Step) : Node α :=
  let after := n.effect s true
  { after with put := if s = .call .putHead then after.epoch :: after.put else after.put, rest := rest }

def failed (s : Step) (took : Bool) (rest : List Step) : Node α :=
  { n.effect s (took && !s.writesRecord) with rest := if s.mayFail then s.cleanup else rest }

def step : Event → Option (Node α)
  | .hibernate epoch volumes =>
    if n.rest = [] ∧ n.info.state ≠ .hibernated then
      some { n with
        epoch := epoch
        -- a stopped pod has no memory, whatever is left of its microVM
        hadSnapshot := n.hadSnapshot && decide (n.info.state ∉ [.stopped, .failed])
        rest := stepsOf n.info.state n.snapshot volumes }
    else none
  | .run ends =>
    match n.rest, ends with
    | [], _ => none
    | s :: rest, .ok => some (n.done s rest)
    | s :: rest, .fails took => some (n.failed s took rest)
  | .drop => some { n with rest := [] }
  | .restart => some { n with info := n.kept, rest := [] }
  | .followVm ends =>
    if n.rest = [] ∧ n.info.state = .running ∧ n.snapshot then
      some (n.setState .suspended "suspended: the microVM was suspended after its suspend failed" (decide (ends = .ok)))
    else none
  | .purge volumes => if n.rest = [] ∧ n.info.state = .hibernated then some { n with rest := purgeSteps volumes } else none

/-- What the pod's next start, resume or restore finds on its disk, by the record that is kept: a
restore takes the checkpoint's, and `open_disk` the node's own, else the checkpoint's; none is a new
disk. -/
def comesUpOn : Option α :=
  let checkpoint := n.kept.checkpoint.bind n.heads
  if n.kept.state = .hibernated then checkpoint else n.disk <|> checkpoint

end Node

end FeOS.Pods
