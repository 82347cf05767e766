import Mathlib.Tactic

/-! A pod's hibernation (`crates/services/pod-service/src/pods.rs`): the steps of its task, in their
order, and its slot, which HibernatePods join, resumes ask to stop, and the task ends. -/

namespace FeOS.Pods

inductive PodState where
  | pending
  | running
  | suspended
  | hibernated
  | stopped
  | failed
  | other
  deriving DecidableEq, Repr

inductive Phase where
  | waiting
  | suspending
  | sealing
  | uploadingDisk
  | volumes
  | uploadingMemory
  | head
  | leaving
  deriving DecidableEq, Repr

def Phase.number : Phase → ℕ
  | .waiting => 1
  | .suspending => 2
  | .sealing => 3
  | .uploadingDisk => 4
  | .volumes => 5
  | .uploadingMemory => 6
  | .head => 7
  | .leaving => 8

/-! The steps of `hibernate_locked` -/

/-- The pod's own disk, or that of a volume. -/
inductive Disk where
  | pod
  | volume (id : String)
  deriving DecidableEq, Repr

structure Volume where
  id : String
  /-- it is in a checkpoint already -/
  checkpointed : Bool
  deriving DecidableEq, Repr

inductive DiskCall where
  | stop
  | sealLocal
  | upload
  | remove
  deriving DecidableEq, Repr

inductive VolumeCall where
  | get
  | open
  | putRecord
  | putHead
  /-- its record says that it is in the checkpoint -/
  | checkpoint
  deriving DecidableEq, Repr

inductive PodCall where
  | requireObjectStore
  /-- the error of a pod in no state to hibernate -/
  | refuse
  | drainLogs
  /-- `suspend_locked`: the snapshot, the microVM's end, and its disks -/
  | suspendVm
  | settle
  | releaseDisk
  | deleteVm
  | loadHost
  | sealMemory
  | putVmstate
  | putSpec
  | putHead
  | readInfo
  | detachNetwork
  /-- `purge`: its failures are logged -/
  | purgeVm
  | closeMemory
  | applyNetwork
  | releaseAddresses
  deriving DecidableEq, Repr

inductive Step where
  | call (c : PodCall)
  | disk (c : DiskCall) (disk : Disk)
  | volume (c : VolumeCall) (id : String)
  | setMemory (memory : Bool)
  /-- an abandon point between two steps -/
  | check
  | setPhase (phase : Phase)
  | setState (state : PodState) (reason : String)
  | setEpoch
  | enterHead
  /-- the `update` of the record with the checkpoint -/
  | keepCheckpoint
  deriving DecidableEq, Repr

/-- A step that an abandon drops. -/
def Step.abandonable : Step → Bool
  | .disk .sealLocal _ | .disk .upload _ | .call .sealMemory | .call .putVmstate | .call .putSpec => true
  | _ => false

/-- A step whose failure ends the hibernation; the failures of the others are logged. -/
def Step.mayFail : Step → Bool
  | .call c => c ∈ [.requireObjectStore, .refuse, .suspendVm, .settle, .deleteVm, .loadHost, .sealMemory,
      .putVmstate, .putSpec,
      .putHead, .readInfo]
  | .disk c _ => c ≠ .remove
  | .volume c _ => c ≠ .checkpoint
  | _ => false

/-- What is done about a failure before it is returned. -/
def Step.cleanup : Step → List Step
  | .call .suspendVm | .call .settle => [.setState .running ""]
  | _ => []

/-- A step that asks for a head to be put. -/
def Step.putsHead : Step → Bool
  | .call .putHead | .volume .putHead _ => true
  | _ => false

/-- a running pod is suspended first -/
def suspendSteps : List Step :=
  [.setPhase .suspending, .setState .running "hibernating", .call .drainLogs, .call .suspendVm, .call .settle,
    .call .releaseDisk,
    .setState .suspended "suspended", .check]

def sealSteps : List Step :=
  [.disk .stop .pod, .setEpoch, .check, .setPhase .sealing, .disk .sealLocal .pod, .check, .setPhase .uploadingDisk,
    .disk .upload .pod, .setPhase .volumes]

/-- `seal_volumes`, of one volume -/
def volumeSteps (v : Volume) : List Step :=
  if v.checkpointed then [.check, .volume .get v.id]
  else [.check, .volume .get v.id, .volume .open v.id, .disk .stop (.volume v.id), .disk .sealLocal (.volume v.id), .check,
    .disk .upload (.volume v.id)]

def memorySteps : Bool → List Step
  | true => [.setPhase .uploadingMemory, .call .loadHost, .call .sealMemory, .call .putVmstate, .call .putSpec]
  | false => [.setPhase .uploadingMemory, .call .putSpec]

/-- whether its memory goes with it, and the way to a disk that nothing has started -/
def decideSteps : Bool → Bool → List Step
  | true, _ => .setMemory true :: .check :: suspendSteps
  | false, true => [.setMemory true, .check]
  -- a failed pod's microVM may have left its disk started
  | false, false => [.setMemory false, .check, .call .deleteVm]

/-- the steps up to the point of no return -/
def stepsBeforeHead (running memory : Bool) (volumes : List Volume) : List Step :=
  List.flatten [decideSteps running memory, sealSteps, volumes.flatMap volumeSteps, memorySteps memory]

/-- the record and the head of a volume that was sealed -/
def headVolume (v : Volume) : List Step := if v.checkpointed then [] else [.volume .putRecord v.id, .volume .putHead v.id]

def checkpointVolume (v : Volume) : List Step := if v.checkpointed then [] else [.volume .checkpoint v.id]

/-- from the head on, the checkpoint is the pod -/
def leaveSteps : List Step :=
  [.call .readInfo, .call .detachNetwork, .keepCheckpoint, .setState .hibernated "hibernated"]

def purgeSteps (volumes : List Volume) : List Step :=
  .call .purgeVm :: .call .closeMemory :: .disk .remove .pod :: volumes.map fun v => .disk .remove (.volume v.id)

def lastSteps : List Step := [.call .detachNetwork, .call .applyNetwork, .call .releaseAddresses]

def stepsFromHead (volumes : List Volume) : List Step :=
  List.flatten [volumes.flatMap headVolume, [.call .putHead, .setPhase .leaving],
    volumes.flatMap checkpointVolume, leaveSteps,
    purgeSteps volumes, lastSteps]

def hibernateSteps (running memory : Bool) (volumes : List Volume) : List Step :=
  stepsBeforeHead running memory volumes ++ .enterHead :: stepsFromHead volumes

/-- `hibernate_locked`, of a pod that is not hibernated -/
def stepsOf (state : PodState) (snapshotExists : Bool) (volumes : List Volume) : List Step :=
  .call .requireObjectStore :: match state with
    | .running => hibernateSteps true true volumes
    -- one whose snapshot is gone has its disk
    | .suspended => hibernateSteps false snapshotExists volumes
    | .stopped | .failed => hibernateSteps false false volumes
    | _ => [.call .refuse]

/-! The slot -/

/-- A hibernation in flight. -/
structure Hibernation where
  /-- which hibernation it is -/
  token : ℕ
  /-- a HibernatePod said that it may not be abandoned -/
  noAbandon : Bool
  requestIds : List String
  phase : Phase
  /-- whether the pod's memory goes with it; unknown until its task decided -/
  memory : Option Bool
  deriving DecidableEq, Repr

def maxRequestIds : ℕ := 16

namespace Hibernation

/-- whether a resume abandons it now -/
def abandonable (h : Hibernation) : Bool :=
  !h.noAbandon && decide (h.memory ≠ some false) && decide (h.phase.number < Phase.head.number)

def addRequest (h : Hibernation) (id : String) : Hibernation :=
  if id = "" ∨ id ∈ h.requestIds then h
  else { h with requestIds := (if h.requestIds.length = maxRequestIds then h.requestIds.tail else h.requestIds) ++ [id] }

def new (token : ℕ) (noAbandon : Bool) (id : String) : Hibernation := addRequest ⟨token, noAbandon, [], .waiting, none⟩ id

end Hibernation

/-- What a resume does about a hibernation in flight. -/
inductive Meets where
  | abandons (phase : Phase)
  | waits (phase : Phase) (why : String)
  deriving DecidableEq, Repr

/-- `request_abandon`: one that abandons also sets the hibernation's flag -/
def requestAbandon (h : Hibernation) : Meets :=
  if h.abandonable then .abandons h.phase
  else .waits h.phase
    (if h.noAbandon then "it may not be abandoned"
    else if h.memory = some false then "its pod has no memory to resume"
    else "its head is being put")

/-- `enter_head`, with the flag; none when a resume asked for the abandon first -/
def enterHead (h : Hibernation) (asked : Bool) : Option Hibernation :=
  if h.memory = some true ∧ asked then none else some { h with phase := .head }

inductive Joins where
  | refused
  | joins (h : Hibernation)
  | starts
  deriving DecidableEq, Repr

def join (slot : Option Hibernation) (abandonedIds : List String) (id : String) (noAbandon : Bool) : Joins :=
  if id ≠ "" ∧ id ∈ abandonedIds then .refused
  else match slot with
    | some h => .joins ({ h with noAbandon := h.noAbandon || noAbandon }.addRequest id)
    | none => .starts

def endSlot (slot : Option Hibernation) (abandonedIds : List String) (token : ℕ) (abandoned : Bool) :
    Option Hibernation × List String :=
  match slot with
  | none => (none, abandonedIds)
  | some h =>
    if h.token ≠ token then (slot, abandonedIds)
    else
      let ids := abandonedIds ++ h.requestIds
      (none, if abandoned then ids.drop (ids.length - maxRequestIds) else abandonedIds)

end FeOS.Pods
