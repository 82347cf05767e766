import FeOS.Lib.Runs

/-! A planned stop of feosd and the start after it (`crates/services/pod-service/src/pods/stop.rs`): the stop
suspends the running pods and records them in a file, the next feosd resumes the pods of the file and removes it.
Clients change the pods meanwhile, and feosd may end at any moment. What is done under a pod's lock is one step,
at its end. -/

namespace FeOS.PodStop

open Function

abbrev ID := ℕ

/-- The states that the stop and the start tell apart; `stopped` stands for those of a pod whose microVM neither
runs nor is suspended. -/
inductive PodState where
  | running
  | suspended
  | stopped
  deriving DecidableEq, Repr

inductive Who where
  | client
  | stop
  deriving DecidableEq, Repr

structure StopRecord where
  stoppedAt : ℕ
  pods : List ID
  deriving DecidableEq, Repr

def StopRecord.age (r : StopRecord) (now : ℕ) : ℕ := now - r.stoppedAt

/-- `write_record`: a record that names no pod is removed. -/
def writeRecord (r : StopRecord) : Option StopRecord :=
  if r.pods = [] then none else some r

/-- What became of a pod that a stop suspends. -/
inductive Done where
  | suspended
  | notRunning
  | failed
  deriving DecidableEq, Repr

/-- How a call to the microVM ends. With `late`, the microVM is suspended although the suspend failed, and the
pod follows it later. -/
inductive Outcome where
  | done
  | busy (late : Bool)
  | failed (late : Bool)
  deriving DecidableEq, Repr

/-- A `suspend_for_stop` past its first record: what is left of the first pass, the pods to try again, and the
outcomes that are not recorded yet. -/
structure Pass where
  entry : StopRecord
  todo : List ID
  busy : List ID := []
  outcomes : List (ID × Done) := []
  deriving DecidableEq, Repr

inductive Stop where
  | idle
  /-- `still_suspended` is read, and not written yet -/
  | read (entry : StopRecord)
  | suspending (pass : Pass)
  deriving DecidableEq, Repr

/-- The task of `resume_after_stop`: the pods it has not come to, and those whose resumes are under way. -/
inductive Start where
  | waiting
  | resuming (todo inFlight : List ID)
  | over
  deriving DecidableEq, Repr

inductive Op where
  | create
  | start
  | suspend
  | resume
  | stop
  | delete
  deriving DecidableEq, Repr

structure World where
  now : ℕ
  ids : List ID
  pods : ID → Option PodState
  /-- the microVM of the running pod is suspended: a suspend failed and went through after all -/
  late : ID → Option Who
  /-- the file, which outlives feosd -/
  file : Option StopRecord
  up : Bool
  stopping : Bool
  start : Start
  stop : Stop
  /-- the clients' calls that `check_serving` let through -/
  calls : List (Op × ID)
  /-- What is said here and nothing reads: the pods that a stop suspended last, those that a client's
  `SuspendPod` suspended last, and whether a start resumed one of those. -/
  owed : ID → Bool
  clients : ID → Bool
  wronged : Bool

def World.init : World :=
  ⟨0, [], fun _ => none, fun _ => none, none, false, false, .over, .idle, [], fun _ => false, fun _ => false, false⟩

inductive Event where
  | tick
  | boot
  /-- feosd exits, or is killed -/
  | down
  | call (op : Op) (p : ID)
  /-- the call is done, under the pod's lock -/
  | act (i : ℕ) (out : Outcome)
  /-- `follow_vm` -/
  | follow (p : ID)
  /-- the pod's microVM stops or crashes -/
  | vmEnds (p : ID)
  | readRecord
  /-- the start comes to its next pod -/
  | resumeIfSuspended
  /-- a resume of the start is done -/
  | resumed (i : ℕ) (ok : Bool)
  | forgetRecord
  | beginStop
  | stillSuspended
  | keepRecord
  | suspendIfRunning (i : ℕ) (out : Outcome)
  | suspendAgain (i : ℕ) (out : Outcome)
  /-- the stop's grace ends -/
  | giveUp
  /-- the first outcome is recorded -/
  | record
  deriving DecidableEq, Repr

/-- How many pods a stop suspends at once, and a start resumes. -/
def parallel : ℕ := 4

namespace World

variable (w : World)

/-- The pods that the file names. -/
def recorded : List ID := (w.file.map StopRecord.pods).getD []

/-! The pods -/

/-- The pod's new state, by whatever but a suspend. -/
def put (p : ID) (state : Option PodState) : World :=
  { w with
    pods := update w.pods p state
    late := update w.late p none
    owed := update w.owed p false
    clients := update w.clients p false }

/-- The pod is suspended, by a suspend of `who`. -/
def putSuspended (who : Who) (p : ID) : World :=
  { w with
    pods := update w.pods p (some .suspended)
    late := update w.late p none
    owed := update w.owed p (who = .stop)
    clients := update w.clients p (who = .client) }

/-- `suspend_locked` of a running pod. -/
def suspendLocked (who : Who) (p : ID) : Outcome → World
  | .done => w.putSuspended who p
  | .busy late | .failed late =>
    if late then { w with late := update w.late p (some who) } else w

def follow (p : ID) : Option World :=
  match w.up, w.pods p, w.late p with
  | true, some .running, some who => some (w.putSuspended who p)
  | _, _, _ => none

def vmEnds (p : ID) : Option World :=
  match w.up, w.pods p with
  | true, some .running => some (w.put p (some .stopped))
  | _, _ => none

/-! The clients' calls -/

def call (op : Op) (p : ID) : Option World :=
  if w.up && !w.stopping then some { w with calls := w.calls ++ [(op, p)] } else none

/-- What a call that succeeds does with a pod in this state, a suspend apart. -/
def change : Op → Option PodState → Option (Option PodState)
  | .create, none => some (some .running)
  | .start, some .stopped => some (some .running)
  | .resume, some .suspended => some (some .running)
  | .stop, some _ => some (some .stopped)
  | .delete, some _ => some none
  | _, _ => none

/-- The call's pod afterwards; a call that does not find the pod as it expects changes nothing. -/
def perform (op : Op) (p : ID) (out : Outcome) : World :=
  match op, w.pods p with
  | .suspend, some .running => w.suspendLocked .client p out
  | .suspend, _ => w
  | op, state =>
    match change op state, out with
    | some state, .done => { w.put p state with ids := if p ∈ w.ids then w.ids else p :: w.ids }
    | _, _ => w

def act (i : ℕ) (out : Outcome) : Option World :=
  match w.calls[i]? with
  | some (op, p) => some ({ w with calls := w.calls.eraseIdx i }.perform op p out)
  | none => none

/-! feosd -/

def boot : Option World :=
  if w.up then none else some { w with up := true, start := .waiting }

/-- The pods' microVMs end with feosd; those that were suspended meanwhile are found so by the next one. -/
def down : Option World :=
  if w.up then
    some { w with
      up := false, stopping := false, start := .over, stop := .idle, calls := []
      pods := fun p => if w.pods p = some .running ∧ w.late p = none then some .stopped else w.pods p }
  else none

/-! The start -/

def tooOld (within : Option ℕ) (now : ℕ) (r : StopRecord) : Bool :=
  within.any fun within => decide (within < r.age now)

/-- A record that is too old is only removed. -/
def readRecord (within : Option ℕ) : Option World :=
  match w.up, w.start with
  | true, .waiting =>
    match w.file with
    | none => some { w with start := .over }
    | some r =>
      some { w with start := if tooOld within w.now r then .resuming [] [] else .resuming r.pods [] }
  | _, _ => none

def resumeIfSuspended : Option World :=
  match w.start with
  | .resuming (p :: todo) inFlight =>
    if inFlight.length < parallel then
      if !w.stopping ∧ w.pods p = some .suspended then
        some { w with start := .resuming todo (inFlight ++ [p]) }
      else some { w with start := .resuming todo inFlight }
    else none
  | _ => none

/-- The end of a resume of the start; it may find the pod in another state than when it began. -/
def resumed (i : ℕ) (ok : Bool) : Option World :=
  match w.start with
  | .resuming todo inFlight =>
    match inFlight[i]? with
    | some p =>
      let w' := { w with start := .resuming todo (inFlight.eraseIdx i) }
      if ok ∧ w.pods p = some .suspended then
        some { w'.put p (some .running) with wronged := w.wronged || w.clients p }
      else some w'
    | none => none
  | _ => none

def forgetRecord : Option World :=
  match w.start, w.stop with
  | .resuming [] [], .idle =>
    some { w with start := .over, file := if w.stopping then w.file else none }
  | .resuming [] [], .suspending ⟨_, [], [], []⟩ => some { w with start := .over }
  | _, _ => none

/-! The stop -/

def beginStop : Option World :=
  if w.up then some { w with stopping := true } else none

def stillSuspended : Option World :=
  match w.stopping, w.stop with
  | true, .idle =>
    some { w with stop := .read ⟨w.now, w.recorded.filter fun p => w.pods p = some .suspended⟩ }
  | _, _ => none

/-- The running pods, and those of the record that are not among them. -/
def candidates (entry : List ID) : List ID :=
  let running := w.ids.filter fun p => w.pods p = some .running
  entry.foldl (fun candidates p => if p ∈ candidates then candidates else candidates ++ [p]) running

def keepRecord : Option World :=
  match w.stop with
  | .read entry => some { w with file := writeRecord entry, stop := .suspending ⟨entry, w.candidates entry.pods, [], []⟩ }
  | _ => none

/-- A suspend of the pass and what `suspend_each` does with its answer; `busy` and `outcomes` are those without
the pod. -/
def suspendOne (pass : Pass) (p : ID) (out : Outcome) : World :=
  let w' := w.suspendLocked .stop p out
  match out with
  | .done => { w' with stop := .suspending { pass with outcomes := pass.outcomes ++ [(p, .suspended)] } }
  | .busy _ => { w' with stop := .suspending { pass with busy := pass.busy ++ [p] } }
  | .failed _ => { w' with stop := .suspending { pass with outcomes := pass.outcomes ++ [(p, .failed)] } }

def suspendIfRunning (i : ℕ) (out : Outcome) : Option World :=
  match w.stop with
  | .suspending pass =>
    match pass.todo[i]? with
    | some p =>
      if i < parallel then
        let pass := { pass with todo := pass.todo.eraseIdx i }
        match w.pods p with
        | some .running => some (w.suspendOne pass p out)
        -- the lock of a pod that is gone fails
        | none => some { w with stop := .suspending { pass with outcomes := pass.outcomes ++ [(p, .failed)] } }
        | _ => some { w with stop := .suspending { pass with outcomes := pass.outcomes ++ [(p, .notRunning)] } }
      else none
    | none => none
  | _ => none

def suspendAgain (i : ℕ) (out : Outcome) : Option World :=
  match w.stop with
  | .suspending pass =>
    match pass.todo, pass.busy[i]? with
    | [], some p =>
      let pass := { pass with busy := pass.busy.eraseIdx i }
      match w.pods p with
      | some .running => some (w.suspendOne pass p out)
      | some .suspended => some { w with stop := .suspending { pass with outcomes := pass.outcomes ++ [(p, .suspended)] } }
      | none => some { w with stop := .suspending { pass with outcomes := pass.outcomes ++ [(p, .failed)] } }
      | _ => some { w with stop := .suspending { pass with outcomes := pass.outcomes ++ [(p, .notRunning)] } }
    | _, _ => none
  | _ => none

def giveUp : Option World :=
  match w.stop with
  | .suspending pass =>
    match pass.todo with
    | [] =>
      some { w with
        stop := .suspending { pass with busy := [], outcomes := pass.outcomes ++ pass.busy.map fun p => (p, .failed) } }
    | _ => none
  | _ => none

/-- The pods of the record once this outcome is in it. -/
def entryAfter (entry : List ID) : ID × Done → List ID
  | (p, .suspended) => if p ∈ entry then entry else entry ++ [p]
  | (_, .notRunning) => entry
  | (p, .failed) => entry.filter fun q => q ≠ p

def record : Option World :=
  match w.stop with
  | .suspending pass =>
    match pass.outcomes with
    | o :: outcomes =>
      let entry := { pass.entry with pods := entryAfter pass.entry.pods o }
      some { w with file := writeRecord entry, stop := .suspending { pass with entry := entry, outcomes := outcomes } }
    | [] => none
  | _ => none

/-- One step; with `within`, a start resumes the pods only of a stop that is no longer ago. -/
def step (within : Option ℕ) : Event → Option World
  | .tick => some { w with now := w.now + 1 }
  | .boot => w.boot
  | .down => w.down
  | .call op p => w.call op p
  | .act i out => w.act i out
  | .follow p => w.follow p
  | .vmEnds p => w.vmEnds p
  | .readRecord => w.readRecord within
  | .resumeIfSuspended => w.resumeIfSuspended
  | .resumed i ok => w.resumed i ok
  | .forgetRecord => w.forgetRecord
  | .beginStop => w.beginStop
  | .stillSuspended => w.stillSuspended
  | .keepRecord => w.keepRecord
  | .suspendIfRunning i out => w.suspendIfRunning i out
  | .suspendAgain i out => w.suspendAgain i out
  | .giveUp => w.giveUp
  | .record => w.record

end World

end FeOS.PodStop
