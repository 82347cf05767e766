import FeOS.Spec.Hibernation
import FeOS.Lib.Runs

/-! HibernatePods, resumes and the tasks of hibernations on one pod, in any order: the slot changes
under the pods' mutex, and the steps of a task run under the pod's lock. -/

namespace FeOS.Pods

open Function

inductive Answer where
  | hibernated
  | aborted
  | error
  /-- the task panicked -/
  | internal
  deriving DecidableEq, Repr

/-- Where the task of a hibernation is (`run_hibernation`). -/
inductive Stage where
  /-- it waits for the pod's lock -/
  | waiting
  | locked
  | steps (rest : List Step)
  /-- a step failed; what is left of its cleanup -/
  | failing (rest : List Step)
  /-- it has its answer, and its guard drops -/
  | ending (answer : Answer) (abandoned : Bool)
  /-- its slot is ended; the lock goes next -/
  | unlocking (answer : Answer)
  | ended (answer : Answer)
  deriving DecidableEq, Repr

structure Task where
  /-- whether the abandon stops it -/
  obeys : Bool
  stage : Stage
  deriving DecidableEq, Repr

/-- Who has the pod's lock. -/
inductive Holder where
  | task (token : ℕ)
  | resume (r : ℕ)
  | other
  deriving DecidableEq, Repr

/-- Where a resume is (`lock_for_resume`). -/
inductive Resume where
  /-- it polled for the lock, and has it or is in the queue -/
  | polled (gotLock : Bool)
  /-- it looked at the slot, and waits for the lock -/
  | waiting (met : Option Meets)
  | holding (met : Option Meets)
  | done
  deriving DecidableEq, Repr

/-- What became of a HibernatePod. -/
inductive Call where
  | refused
  /-- it has the answer of this hibernation -/
  | joined (token : ℕ)
  deriving DecidableEq, Repr

structure World where
  slot : Option Hibernation
  /-- the request ids of abandoned hibernations -/
  abandonedIds : List String
  /-- the flags that resumes set -/
  asked : ℕ → Bool
  tasks : ℕ → Option Task
  lock : Option Holder
  resumes : ℕ → Option Resume
  calls : ℕ → Option Call
  /-- the hibernations whose `enter_head` succeeded -/
  entered : List ℕ
  /-- those that asked for a head to be put -/
  heads : List ℕ
  /-- those that ended as abandoned -/
  abandoned : List ℕ
  /-- tokens are below it -/
  fresh : ℕ

/-- How a step ends. -/
inductive Outcome where
  | ok
  | fails
  /-- it is dropped for an abandon -/
  | dropped
  | panics
  deriving DecidableEq, Repr

inductive Event where
  | hibernatePod (c : ℕ) (id : String) (noAbandon : Bool)
  | takeLock (t : ℕ)
  /-- it reads the pod's record -/
  | read (t : ℕ) (state : PodState) (snapshotExists : Bool) (volumes : List Volume)
  | run (t : ℕ) (outcome : Outcome)
  | endSlot (t : ℕ)
  | unlock (t : ℕ)
  | poll (r : ℕ)
  | ask (r : ℕ)
  | acquire (r : ℕ)
  | release (r : ℕ)
  | otherLock
  | otherUnlock
  deriving DecidableEq, Repr

namespace World

variable (w : World)

@[simps]
def setTask (t : ℕ) (task : Task) : World := { w with tasks := update w.tasks t (some task) }

@[simps]
def withHibernation (t : ℕ) (change : Hibernation → Hibernation) : World :=
  { w with slot := w.slot.map fun h => if h.token = t then change h else h }

/-- `Run::asked` -/
def isAsked (t : ℕ) (task : Task) : Bool := task.obeys && w.asked t

/-- `hibernate_locked` has failed -/
def fail (t : ℕ) (task : Task) : World :=
  if w.isAsked t task then
    { w.setTask t { task with stage := .ending .aborted true } with abandoned := t :: w.abandoned }
  else w.setTask t { task with stage := .ending .error false }

/-- `enter_head` of the task's hibernation -/
def enter (t : ℕ) (task : Task) : Option (Option Hibernation) :=
  match w.slot with
  | some h => if h.token = t then (enterHead h (w.asked t)).map some else if w.isAsked t task then none else some w.slot
  | none => if w.isAsked t task then none else some w.slot

/-- the next step of a task, done -/
def stepOk (t : ℕ) (task : Task) (s : Step) (rest : List Step) : World :=
  let next := { task with stage := .steps rest }
  match s with
  | .call .refuse => w.fail t task
  | .setMemory m => (w.withHibernation t fun h => { h with memory := some m }).setTask t { next with obeys := m }
  | .setPhase p => (w.withHibernation t fun h => { h with phase := p }).setTask t next
  | .check => if w.isAsked t task then w.fail t task else w.setTask t next
  | .enterHead =>
    match w.enter t task with
    | none => w.fail t task
    | some slot => { w.setTask t next with
        slot := slot
        entered := t :: w.entered }
  | s => { w.setTask t next with heads := if s.putsHead then t :: w.heads else w.heads }

def runStep (t : ℕ) (task : Task) (s : Step) (rest : List Step) : Outcome → Option World
  | .ok => some (w.stepOk t task s rest)
  | .fails =>
    if s.mayFail then
      -- a head that was asked for may be up
      some { w.setTask t { task with stage := .failing s.cleanup } with
        heads := if s.putsHead then t :: w.heads else w.heads }
    else none
  | .dropped => if s.abandonable ∧ w.isAsked t task then some (w.setTask t { task with stage := .failing [] }) else none
  | .panics => some (w.setTask t { task with stage := .ending .internal false })

def run (t : ℕ) (task : Task) (o : Outcome) : Option World :=
  match task.stage with
  | .steps (s :: rest) => w.runStep t task s rest o
  | .steps [] => if o = .ok then some (w.setTask t { task with stage := .ending .hibernated false }) else none
  | .failing (_ :: rest) =>
    match o with
    | .ok => some (w.setTask t { task with stage := .failing rest })
    | .panics => some (w.setTask t { task with stage := .ending .internal false })
    | _ => none
  | .failing [] => if o = .ok then some (w.fail t task) else none
  | _ => none

@[simps]
def start (c : ℕ) (id : String) (noAbandon : Bool) : World :=
  { w with
    slot := some (.new w.fresh noAbandon id)
    tasks := update w.tasks w.fresh (some ⟨false, .waiting⟩)
    calls := update w.calls c (some (.joined w.fresh))
    fresh := w.fresh + 1 }

def hibernatePod (c : ℕ) (id : String) (noAbandon : Bool) : World :=
  match join w.slot w.abandonedIds id noAbandon with
  | .refused => { w with calls := update w.calls c (some .refused) }
  | .joins h => { w with
      slot := some h
      calls := update w.calls c (some (.joined h.token)) }
  | .starts => w.start c id noAbandon

/-- the flags when a resume has looked at the slot -/
def askedAfter : ℕ → Bool :=
  match w.slot with
  | some h => if h.abandonable then update w.asked h.token true else w.asked
  | none => w.asked

/-- what a resume does about the slot -/
@[simps]
def askStep (r : ℕ) (gotLock : Bool) : World :=
  let met := w.slot.map requestAbandon
  { w with
    asked := w.askedAfter
    resumes := update w.resumes r (some (if gotLock then .holding met else .waiting met)) }

def step : Event → Option World
  | .hibernatePod c id noAbandon => if w.calls c = none then some (w.hibernatePod c id noAbandon) else none
  | .takeLock t =>
    match w.tasks t with
    | some task =>
      if task.stage = .waiting ∧ w.lock = none then
        some { w.setTask t { task with stage := .locked } with lock := some (.task t) }
      else none
    | none => none
  | .read t state snapshotExists volumes =>
    match w.tasks t with
    | some task =>
      if task.stage = .locked then
        if state = .hibernated then some (w.setTask t { task with stage := .ending .hibernated false })
        else some (w.setTask t { task with stage := .steps (stepsOf state snapshotExists volumes) })
      else none
    | none => none
  | .run t o =>
    match w.tasks t with
    | some task => w.run t task o
    | none => none
  | .endSlot t =>
    match w.tasks t with
    | some task =>
      match task.stage with
      | .ending answer abandoned =>
        let (slot, ids) := Pods.endSlot w.slot w.abandonedIds t abandoned
        some { w.setTask t { task with stage := .unlocking answer } with
          slot := slot
          abandonedIds := ids }
      | _ => none
    | none => none
  | .unlock t =>
    match w.tasks t with
    | some task =>
      match task.stage with
      | .unlocking answer => some { w.setTask t { task with stage := .ended answer } with lock := none }
      | _ => none
    | none => none
  | .poll r =>
    if w.resumes r = none then
      if w.lock = none then
        some { w with
          resumes := update w.resumes r (some (.polled true))
          lock := some (.resume r) }
      else some { w with resumes := update w.resumes r (some (.polled false)) }
    else none
  | .ask r =>
    match w.resumes r with
    | some (.polled gotLock) => some (w.askStep r gotLock)
    | _ => none
  | .acquire r =>
    match w.resumes r with
    | some (.waiting met) =>
      if w.lock = none then
        some { w with
          resumes := update w.resumes r (some (.holding met))
          lock := some (.resume r) }
      else none
    | _ => none
  | .release r =>
    match w.resumes r with
    | some (.holding _) => some { w with
        resumes := update w.resumes r (some .done)
        lock := none }
    | _ => none
  | .otherLock => if w.lock = none then some { w with lock := some .other } else none
  | .otherUnlock => if w.lock = some .other then some { w with lock := none } else none

def empty : World where
  slot := none
  abandonedIds := []
  asked := fun _ => false
  tasks := fun _ => none
  lock := none
  resumes := fun _ => none
  calls := fun _ => none
  entered := []
  heads := []
  abandoned := []
  fresh := 0

end World

end FeOS.Pods
