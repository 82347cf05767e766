import Mathlib.Tactic

/-! The node's volumes (`crates/services/pod-service/src/volumes.rs`) and the calls that claim, let go
of and take them over: creates, deletes and restores of pods, bring-ups, and feosd's restart
(`crates/services/pod-service/src/pods.rs`). What the volumes' lock `changes` covers is one step. -/

namespace FeOS.Volumes

open Function

abbrev PodId := String

abbrev VolumeId := String

inductive VolumeState where
  | available
  | attached
  | checkpointed
  deriving DecidableEq, Repr

structure Volume where
  pod : Option PodId
  state : VolumeState
  deriving DecidableEq, Repr

namespace Volume

def attach (v : Volume) (pod : PodId) : Volume := ⟨some pod, if v.state = .available then .attached else v.state⟩

/-- attached to no pod -/
def free (v : Volume) : Volume := ⟨none, if v.state = .attached then .available else v.state⟩

/-- `check_restorable` -/
def restorable (pod : PodId) (had : Volume) : Bool := had.pod = some pod ∨ had.pod = none ∧ had.state = .checkpointed

end Volume

/-- How a write of a record ends. One that fails may have renamed its file, and is not in the map. -/
inductive Write where
  | ok
  | fails (took : Bool)
  deriving DecidableEq, Repr

/-- The volumes whose record's write fails, and whether it takes effect all the same. -/
abbrev Failures := List (VolumeId × Bool)

def Failures.write (fs : Failures) (id : VolumeId) : Write :=
  match fs.lookup id with
  | none => .ok
  | some took => .fails took

/-- The records in the map, and their files. -/
structure Store where
  map : VolumeId → Option Volume
  kept : VolumeId → Option Volume

namespace Store

variable (st : Store)

/-- a file that is written -/
def keep (id : VolumeId) (v : Option Volume) : Store := { st with kept := update st.kept id v }

/-- a record that is kept and in the map -/
def put (id : VolumeId) (v : Option Volume) : Store := ⟨update st.map id v, update st.kept id v⟩

/-- Writes one record after the other, up to the first that fails; and whether none did. -/
def saves (fs : Failures) : List (VolumeId × Volume) → Store → Store × Bool
  | [], st => (st, true)
  | (id, v) :: rest, st =>
    match fs.write id with
    | .ok => saves fs rest (st.put id (some v))
    | .fails took => (if took then st.keep id (some v) else st, false)

/-- What `claim` writes; none when a volume is not there, or is attached to another pod. -/
def claims (pod : PodId) : List VolumeId → Option (List (VolumeId × Volume))
  | [] => some []
  | id :: ids =>
    match st.map id with
    | none => none
    | some v =>
      match v.pod with
      | none => (claims pod ids).map fun rest => (id, v.attach pod) :: rest
      | some p => if p = pod then claims pod ids else none

def claim (pod : PodId) (ids : List VolumeId) (fs : Failures) : Store × Bool :=
  match st.claims pod ids with
  | none => (st, false)
  | some vs => saves fs vs st

/-- A volume of the pod's that `release` lets go of. -/
def Lets (pod : PodId) (keep : List VolumeId) (id : VolumeId) (v : Volume) : Prop := v.pod = some pod ∧ id ∉ keep

instance (pod : PodId) (keep : List VolumeId) (id : VolumeId) (v : Volume) : Decidable (Lets pod keep id v) :=
  inferInstanceAs (Decidable (_ ∧ _))

/-- `release`: what fails to be kept is logged -/
def release (pod : PodId) (keep : List VolumeId) (fs : Failures) : Store where
  map id := (st.map id).map fun v => if Lets pod keep id v ∧ fs.write id = .ok then v.free else v
  kept id :=
    match st.map id with
    | some v => if Lets pod keep id v ∧ fs.write id ≠ .fails false then some v.free else st.kept id
    | none => st.kept id

/-- `take_over`, of the volumes of a checkpoint -/
def takeOver (pod : PodId) (ids : List VolumeId) (fs : Failures) : Store × Bool :=
  if ∀ id ∈ ids, ∀ had ∈ st.map id, had.restorable pod then saves fs (ids.map fun id => (id, ⟨some pod, .checkpointed⟩)) st
  else (st, false)

/-- the `update` of a volume whose disk was opened -/
def opened (id : VolumeId) (fs : Failures) : Store × Bool :=
  match st.map id with
  | none => (st, false)
  | some v => if v.state = .attached then (st, true) else saves fs [(id, { v with state := .attached })] st

end Store

/-! Pods -/

inductive Up where
  | pending
  | running
  | hibernated
  | failed
  deriving DecidableEq, Repr

structure Pod where
  id : PodId
  /-- which one of its ID it is: its lock -/
  token : ℕ
  volumes : List VolumeId
  up : Up
  /-- not in the record: it was created with its volumes, or a restore took them over -/
  held : Bool
  deriving DecidableEq, Repr

namespace Store

/-- a volume whose pod is gone is let go of -/
def letGo (pods : List Pod) (v : Volume) : Volume := if v.pod.all fun p => pods.any fun pod => pod.id = p then v else v.free

/-- a pod's volume that names no pod is claimed again -/
def claimAgain (pods : List Pod) (id : VolumeId) (v : Volume) : Volume :=
  match v.pod, pods.find? fun pod => id ∈ pod.volumes with
  | none, some pod => v.attach pod.id
  | _, _ => v

/-- `agree`, of a volume's record -/
def agreed (pods : List Pod) (id : VolumeId) (v : Volume) : Volume := claimAgain pods id (letGo pods v)

/-- The records read again, and `reconcile` -/
def reconcile (st : Store) (pods : List Pod) (fs : Failures) : Store where
  map id := (st.kept id).map (agreed pods id)
  kept id := (st.kept id).map fun v => if fs.write id = .fails false then v else agreed pods id v

end Store

/-! Calls in flight -/

inductive CreateStage where
  | claiming
  | adding
  /-- the pod was not added; the volumes that the pod which is there names stay -/
  | releasing (keep : List VolumeId)
  deriving DecidableEq, Repr

inductive DeleteStage where
  | locked
  | forgotten
  deriving DecidableEq, Repr

inductive RestoreStage where
  /-- the volumes to check before the pod is recorded -/
  | adopt (left : List VolumeId)
  | record
  | lock
  /-- under the pod's lock: the volumes to check -/
  | check (token : ℕ) (left : List VolumeId)
  | remove (token : ℕ) (left : List VolumeId)
  | take (token : ℕ)
  /-- the volumes are taken over -/
  | place (token : ℕ)
  deriving DecidableEq, Repr

inductive BringUpStage where
  /-- the volumes to look at -/
  | check (left : List VolumeId)
  /-- the disk to open -/
  | open (id : VolumeId) (left : List VolumeId)
  deriving DecidableEq, Repr

inductive Call where
  | create (pod : PodId) (volumes : List VolumeId) (stage : CreateStage)
  | delete (pod : PodId) (token : ℕ) (stage : DeleteStage)
  | restore (pod : PodId) (volumes : List VolumeId) (stage : RestoreStage)
  | bringUp (pod : PodId) (token : ℕ) (stage : BringUpStage)
  | ended
  deriving DecidableEq, Repr

/-- A step of a call. -/
inductive Move where
  | claim (fs : Failures)
  /-- `add`, and whether the pod's record is kept -/
  | add (saved : Bool)
  | release (fs : Failures)
  /-- whether the record's file is removed -/
  | forget (removed : Bool)
  | checkVolume
  | lock
  | removeDisk
  | takeOver (fs : Failures)
  | place (saved : Bool)
  | openDisk (fs : Failures)
  | runs (saved : Bool)
  /-- it fails elsewhere, or a bring-up is aborted -/
  | fail
  deriving DecidableEq, Repr

structure World where
  store : Store
  pods : PodId → Option Pod
  /-- the pods' records on disk -/
  kept : List Pod
  calls : List Call
  /-- who has a pod's lock -/
  locks : ℕ → Option ℕ
  fresh : ℕ

inductive Event where
  | createVolume (id : VolumeId) (fs : Failures)
  | deleteVolume (id : VolumeId)
  | create (pod : PodId) (volumes : List VolumeId)
  | delete (pod : PodId)
  /-- with the volumes of its checkpoint's spec -/
  | restore (pod : PodId) (volumes : List VolumeId)
  | bringUp (pod : PodId)
  | move (c : ℕ) (m : Move)
  /-- a pod stops, starts, fails or hibernates -/
  | setUp (pod : PodId) (up : Up) (saved : Bool)
  /-- feosd ends, a call in the middle of its writes, and starts with the pods kept -/
  | restart (cut : Option ℕ) (cutFs : Failures) (pods : List Pod) (fs : Failures)
  deriving DecidableEq, Repr

namespace World

variable (w : World)

def begin (call : Call) : World := { w with calls := w.calls ++ [call] }

def setCall (c : ℕ) (call : Call) : World := { w with calls := w.calls.set c call }

/-- the call ends, and lets go of the lock it has -/
def endCall (c : ℕ) : World :=
  { w with
    calls := w.calls.set c .ended
    locks := fun t => if w.locks t = some c then none else w.locks t }

def setStore (st : Store) : World := { w with store := st }

def takeLock (token c : ℕ) : World := { w with locks := update w.locks token (some c) }

/-- a pod that is kept and in the map -/
def addPod (p : Pod) : World := { w with pods := update w.pods p.id (some p), kept := w.kept ++ [p], fresh := w.fresh + 1 }

/-- the pod's record is removed, and it is taken out of the map -/
def forgetPod (pod : PodId) : World := { w with pods := update w.pods pod none, kept := w.kept.filter fun p => p.id ≠ pod }

/-- the pod's record changes; it is kept if it is saved -/
def update (p : Pod) (saved : Bool) : World :=
  { w with
    pods := Function.update w.pods p.id (some p)
    kept := w.kept.map fun q => if q.id = p.id then (if saved then p else { q with held := p.held }) else q }

/-- `check_restorable` of the volume that the node has, if it has it -/
def restorable (pod : PodId) (id : VolumeId) : Bool := (w.store.map id).all (Volume.restorable pod)

def stepCreate (c : ℕ) (pod : PodId) (volumes : List VolumeId) : CreateStage → Move → Option World
  | .claiming, .claim fs =>
    match w.store.claim pod volumes fs with
    | (st, true) => some ((w.setStore st).setCall c (.create pod volumes .adding))
    | (st, false) => some ((w.setStore st).endCall c)
  | .adding, .add saved =>
    match w.pods pod, saved with
    -- another create was faster
    | some p, _ => some (w.setCall c (.create pod volumes (.releasing p.volumes)))
    | none, true => some ((w.addPod ⟨pod, w.fresh, volumes, .pending, true⟩).endCall c)
    | none, false => some (w.setCall c (.create pod volumes (.releasing [])))
  | .releasing keep, .release fs => some ((w.setStore (w.store.release pod keep fs)).endCall c)
  | _, _ => none

def stepDelete (c : ℕ) (pod : PodId) (token : ℕ) : DeleteStage → Move → Option World
  | .locked, .forget true => some ((w.forgetPod pod).setCall c (.delete pod token .forgotten))
  | .locked, .forget false => some (w.endCall c)
  | .locked, .fail => some (w.endCall c)
  | .forgotten, .release fs => some ((w.setStore (w.store.release pod [] fs)).endCall c)
  | _, _ => none

def stepRestore (c : ℕ) (pod : PodId) (volumes : List VolumeId) : RestoreStage → Move → Option World
  | .adopt (id :: left), .checkVolume =>
    some (if w.restorable pod id then w.setCall c (.restore pod volumes (.adopt left)) else w.endCall c)
  | .adopt [], .checkVolume => some (w.setCall c (.restore pod volumes .record))
  | .record, .add saved =>
    match w.pods pod, saved with
    -- another restore was faster
    | some _, _ => some (w.setCall c (.restore pod volumes .lock))
    | none, true => some ((w.addPod ⟨pod, w.fresh, volumes, .hibernated, false⟩).setCall c (.restore pod volumes .lock))
    | none, false => some (w.endCall c)
  | .lock, .lock =>
    match w.pods pod with
    | none => some (w.endCall c)
    | some p =>
      if w.locks p.token = none then
        some (if p.up = .hibernated then
            (w.takeLock p.token c).setCall c (.restore pod p.volumes (.check p.token p.volumes))
          else w.endCall c)
      else none
  | .check token (id :: left), .checkVolume =>
    some (if w.restorable pod id then w.setCall c (.restore pod volumes (.check token left)) else w.endCall c)
  | .check token [], .checkVolume => some (w.setCall c (.restore pod volumes (.remove token volumes)))
  | .remove token (_ :: left), .removeDisk => some (w.setCall c (.restore pod volumes (.remove token left)))
  | .remove token [], .removeDisk => some (w.setCall c (.restore pod volumes (.take token)))
  | .take token, .takeOver fs =>
    match w.store.takeOver pod volumes fs with
    | (st, true) =>
      (w.pods pod).map fun p => ((w.setStore st).update { p with held := true } false).setCall c
      (.restore pod volumes (.place token))
    | (st, false) => some ((w.setStore st).endCall c)
  | .place _, .place saved => (w.pods pod).map fun p => (w.update { p with up := .pending } saved).endCall c
  | _, .fail => some (w.endCall c)
  | _, _ => none

def stepBringUp (c : ℕ) (pod : PodId) (token : ℕ) : BringUpStage → Move → Option World
  | .check (id :: left), .checkVolume =>
    some (if (w.store.map id).any fun v => v.pod = some pod then w.setCall c (.bringUp pod token (.open id left))
      else w.endCall c)
  | .open id left, .openDisk fs =>
    match w.store.opened id fs with
    | (st, true) => some ((w.setStore st).setCall c (.bringUp pod token (.check left)))
    | (st, false) => some ((w.setStore st).endCall c)
  | .check [], .runs saved => (w.pods pod).map fun p => (w.update { p with up := .running } saved).endCall c
  | _, .fail => some (w.endCall c)
  | _, _ => none

def stepCall (c : ℕ) : Call → Move → Option World
  | .create pod volumes stage => w.stepCreate c pod volumes stage
  | .delete pod token stage => w.stepDelete c pod token stage
  | .restore pod volumes stage => w.stepRestore c pod volumes stage
  | .bringUp pod token stage => w.stepBringUp c pod token stage
  | .ended => fun _ => none

/-- what the writes of a call do, of one that is at them -/
def writes (fs : Failures) : Call → Store
  | .create pod volumes .claiming => (w.store.claim pod volumes fs).1
  | .create pod _ (.releasing keep) => w.store.release pod keep fs
  | .delete pod _ .forgotten => w.store.release pod [] fs
  | .restore pod volumes (.take _) => (w.store.takeOver pod volumes fs).1
  | .bringUp _ _ (.open id _) => (w.store.opened id fs).1
  | _ => w.store

def cutStore (cut : Option ℕ) (fs : Failures) : Store :=
  match cut.bind fun c => w.calls[c]? with
  | some call => w.writes fs call
  | none => w.store

def step : Event → Option World
  | .createVolume id fs =>
    if w.store.map id = none then some (w.setStore (Store.saves fs [(id, ⟨none, .available⟩)] w.store).1) else none
  | .deleteVolume id =>
    if (w.store.map id).any fun v => v.pod = none then some (w.setStore (w.store.put id none)) else none
  | .create pod volumes => if w.pods pod = none then some (w.begin (.create pod volumes .claiming)) else none
  | .delete pod =>
    match w.pods pod with
    | some p =>
      if w.locks p.token = none then some ((w.takeLock p.token w.calls.length).begin (.delete pod p.token .locked)) else none
    | none => none
  | .restore pod volumes =>
    match w.pods pod with
    | some p => some (w.begin (.restore pod p.volumes .lock))
    | none => some (w.begin (.restore pod volumes (.adopt volumes)))
  | .bringUp pod =>
    match w.pods pod with
    | some p =>
      if p.up = .pending ∧ w.locks p.token = none then
        some ((w.takeLock p.token w.calls.length).begin (.bringUp pod p.token (.check p.volumes)))
      else none
    | none => none
  | .move c m => w.calls[c]?.bind fun call => w.stepCall c call m
  | .setUp pod up saved =>
    match w.pods pod with
    | some p =>
      if p.up ≠ .hibernated ∧ up ≠ .running ∧ w.locks p.token = none then some (w.update { p with up := up } saved) else none
    | none => none
  | .restart cut cutFs pods fs =>
    if pods.Perm w.kept then
      some {
        store := (w.cutStore cut cutFs).reconcile pods fs
        pods := fun id => pods.find? fun p => p.id = id
        kept := pods
        calls := []
        locks := fun _ => none
        fresh := w.fresh }
    else none

def empty : World where
  store := ⟨fun _ => none, fun _ => none⟩
  pods := fun _ => none
  kept := []
  calls := []
  locks := fun _ => none
  fresh := 0

end World

end FeOS.Volumes
