import FeOS.Lib.RowLocks
import FeOS.Lib.Runs

/-! The runs of an environment's jobs (`go/internal/env/ctl/jobs.go`, `insertFrom` of `reconcile.go`,
`go/internal/store/env_job_runs.go`): the leader's steps that start the deploy jobs of a deployment, the
calls that run a job by hand on any instance, and what ends a run. -/

namespace FeOS.Jobs

open RowLocks

/-! The tables -/

/-- When a job runs: with a deployment, or by hand. -/
inductive On where
  | deploy
  | manual
  deriving DecidableEq, Repr

structure Job where
  on : On
  retries : ℕ
  deriving DecidableEq, Repr

/-- The jobs of a deployment's spec, by their names. -/
structure Spec where
  jobs : List (String × Job)
  names : (jobs.map Prod.fst).Nodup

inductive DeploymentState where
  | waiting
  | deploying
  | deployed
  | failed
  deriving DecidableEq, Repr

/-- An environment's row: its latest deployment and the one that is deployed, 0 for none. -/
structure Env where
  deployment : ℕ
  deployed : ℕ
  deleting : Bool
  deriving DecidableEq, Repr

inductive Phase where
  | running
  | succeeded
  | failed
  deriving DecidableEq, Repr

/-- What of a run is given when it is inserted. -/
structure NewRun where
  job : String
  templateHash : String
  deployment : ℕ
  attempt : ℕ
  deriving DecidableEq, Repr

/-- A row of `env_job_runs`. The last two are what is said of it here and no function reads: whether a call
inserted it, and whether a run of its template had succeeded by then. -/
structure Run extends NewRun where
  id : ℕ
  sandbox : ℕ
  phase : Phase
  exitCode : Option ℤ
  detail : String
  byHand : Bool
  again : Bool
  deriving DecidableEq, Repr

inductive InstancePhase where
  | starting
  | succeeded
  | failed
  deriving DecidableEq, Repr

/-- A job's instance, with its sandbox's row. -/
structure Instance where
  sandbox : ℕ
  object : String
  phase : InstancePhase
  lastExit : Option ℤ
  detail : String
  exits : List (Option ℤ)
  deriving DecidableEq, Repr

def maxExits : ℕ := 5

def appendExit (exits : List (Option ℤ)) (e : Option ℤ) : List (Option ℤ) :=
  let out := exits ++ [e]
  if maxExits < out.length then out.drop (out.length - maxExits) else out

/-! What is read of the runs, oldest first -/

def jobSucceeded (runs : List Run) (job hash : String) : Bool :=
  runs.any fun r => r.job == job && r.templateHash == hash && r.phase == .succeeded

/-- `ListJobRuns`: the newest first. -/
def listJobRuns (runs : List Run) (job : String) (limit : ℕ) : List Run :=
    ((runs.filter fun r => r.job == job).reverse).take limit

def listLimit : ℕ := 100

def noRunOf (runs : List Run) (job : String) : Bool := runs.all fun r => !(r.job == job && r.phase == .running)

def jobRunOfSandbox (runs : List Run) (sandbox : ℕ) : Option Run := (runs.reverse).find? fun r => r.sandbox == sandbox

def getJobRun (runs : List Run) (id : ℕ) : Option Run := runs.find? fun r => r.id == id

/-! A step -/

/-- What a step or a call knows of the environment. -/
structure View where
  targetNum : ℕ
  target : List (String × Job)
  deploying : Bool
  deriving DecidableEq, Repr

def rolls (st : DeploymentState) : Bool := st == .waiting || st == .deploying

def load (specs : ℕ → Spec) (env : Env) (states : ℕ → DeploymentState) : Option View :=
  if env.deleting ∨ env.deployment = 0 then none
  else if states env.deployment ≠ .failed then
    some ⟨env.deployment, (specs env.deployment).jobs, rolls (states env.deployment)⟩
  else if 0 < env.deployed then some ⟨env.deployed, (specs env.deployed).jobs, false⟩
  else some ⟨0, [], false⟩

/-- A job of the target with its rendered template. -/
structure Plan where
  name : String
  job : Job
  hash : String
  deriving DecidableEq, Repr

inductive Next where
  | wait
  | start (attempt : ℕ)
  | fail
  deriving DecidableEq, Repr

/-- Of the template and the deployment. -/
def Plan.owns (p : Plan) (deployment : ℕ) (r : Run) : Bool := r.templateHash == p.hash && r.deployment == deployment

/-- What `stepJobs` does about a deploy job whose template never succeeded, of the runs it listed. -/
def nextRun (p : Plan) (deployment : ℕ) (runs : List Run) : Next :=
  let last := runs.find? (p.owns deployment)
  let other := runs.find? fun r => !p.owns deployment r && r.phase == .running
  match other, last with
  | some _, _ => .wait
  | none, none => .start 1
  | none, some last =>
    match last.phase with
    | .running => .wait
    | .succeeded => .wait
    | .failed => if last.attempt ≤ p.job.retries then .start (last.attempt + 1) else .fail

/-! An end -/

def noExitStatus : String := "the node did not report an exit status"

/-- Whether a run succeeded, and its detail. -/
def outcome (code : Option ℤ) (detail : String) : Bool × String :=
  if code = none ∧ detail = "" then (false, noExitStatus) else (code == some 0 && detail == "", detail)

def Run.ended (r : Run) (succeeded : Bool) (code : Option ℤ) (detail : String) : Run :=
  { r with phase := if succeeded then .succeeded else .failed, exitCode := code, detail := detail }

def updateJobRun (runs : List Run) (after : Run) : List Run := runs.map fun r => if r.id = after.id then after else r

def Instance.ended (i : Instance) (succeeded : Bool) (code : Option ℤ) (detail : String) : Instance :=
  { i with phase := if succeeded then .succeeded else .failed, lastExit := code, detail := detail,
           exits := appendExit i.exits code }

/-! The transactions -/

inductive Row where
  | lease
  | environment
  | run (id : ℕ)
  deriving DecidableEq, Repr

/-- How far an insert is: the fence, the lock of the environment's row, `noRunOf`. -/
inductive InsertAt where
  | begun
  | fenced
  | locked
  | checked
  deriving DecidableEq, Repr

/-- What ends a run: an exit, a timeout, a lost instance, a job removed, or an instance that is gone. -/
inductive Ending where
  | finishJob (sandbox : ℕ) (code : Option ℤ) (detail : String)
  | failOrphanRun (run : ℕ)
  deriving DecidableEq, Repr

def Ending.run (runs : List Run) : Ending → Option Run
  | .finishJob sandbox _ _ => jobRunOfSandbox runs sandbox
  | .failOrphanRun id => getJobRun runs id

/-- Its transaction; locked with the row that was read, if there is one. -/
inductive EndAt where
  | begun
  | fenced
  | locked (cur : Option Run)
  deriving DecidableEq, Repr

/-- Where a step is in `stepJobs`. -/
inductive StepAt where
  | jobs
  | asked (p : Plan)
  | unmet (p : Plan)
  | start (new : NewRun) (tx : InsertAt)
  deriving DecidableEq, Repr

inductive Proc where
  | idle
  /-- a step of the leader of an epoch, with the jobs that are still to come -/
  | step (epoch : ℕ) (v : View) (rest : List (String × Job)) (pc : StepAt)
  /-- `RunJob` -/
  | call (new : NewRun) (tx : InsertAt)
  | ending (epoch : ℕ) (what : Ending) (tx : EndAt)
  deriving DecidableEq, Repr

structure World where
  env : Env
  states : ℕ → DeploymentState
  runs : List Run
  nextRun : ℕ
  instances : List Instance
  nextSandbox : ℕ
  /-- of the leader's lease -/
  epoch : ℕ
  /-- the leader's step of the environment: one at a time -/
  stepping : Option ℕ
  procs : ℕ → Proc
  held : List (Lock ℕ Row)

def World.init : World := ⟨⟨0, 0, false⟩, fun _ => .waiting, [], 0, [], 0, 0, none, fun _ => .idle, []⟩

inductive Event where
  /-- another instance takes the lease -/
  | takeOver
  /-- a deployment, a rollback, a deletion -/
  | environment (env : Env)
  | deployment (number : ℕ) (st : DeploymentState)
  | beginStep (p : ℕ)
  /-- the next job's template; none when it does not render, or the addons are not ready -/
  | planJob (p : ℕ) (hash : Option String)
  | askSucceeded (p : ℕ)
  | listRuns (p : ℕ)
  | runJob (p : ℕ) (name hash : String)
  | finishJob (p : ℕ) (sandbox : ℕ) (code : Option ℤ) (detail : String)
  | failOrphanRun (p : ℕ) (run : ℕ)
  | fence (p : ℕ)
  | lock (p : ℕ)
  | check (p : ℕ)
  | commit (p : ℕ)
  /-- an error: the transaction is rolled back, and a step goes on with its next job -/
  | abort (p : ℕ)
  /-- the step or the call is over -/
  | leave (p : ℕ)
  | deleteInstance (sandbox : ℕ)
  deriving DecidableEq, Repr

namespace World

variable (w : World) (p : ℕ)

def setProc (q : Proc) : World := { w with procs := Function.update w.procs p q }

def take (row : Row) (mode : Mode) : Option World :=
    if Free w.held row mode then some { w with held := ⟨p, row, mode⟩ :: w.held } else none

/-- The transaction has ended. -/
def unlocked : World := { w with held := release w.held p }

/-- The insert of a run with its instance, and what is said of it here. -/
def insertRun (new : NewRun) (byHand : Bool) : World :=
  { w with
    runs := w.runs ++ [⟨new, w.nextRun, w.nextSandbox, .running, none, "", byHand,
      jobSucceeded w.runs new.job new.templateHash⟩]
    nextRun := w.nextRun + 1
    instances := w.instances ++ [⟨w.nextSandbox, new.job, .starting, none, "", []⟩]
    nextSandbox := w.nextSandbox + 1 }

/-- `UpdateJobRun` of a run that runs. -/
def endRun (cur : Option Run) (succeeded : Bool) (code : Option ℤ) (detail : String) : World :=
  match cur with
  | none => w
  | some r => if r.phase = .running then { w with runs := updateJobRun w.runs (r.ended succeeded code detail) } else w

/-- What an ending's transaction writes. -/
def writeEnd (cur : Option Run) : Ending → World
  | .finishJob sandbox code detail =>
    let (succeeded, detail) := outcome code detail
    let w := w.endRun cur succeeded code detail
    { w with instances := w.instances.map fun i => if i.sandbox = sandbox then i.ended succeeded code detail else i }
  | .failOrphanRun _ =>
    match cur with
    | none => w
    -- inserted after the view was read
    | some r => if w.instances.any fun i => i.sandbox == r.sandbox then w
        else w.endRun cur false r.exitCode "its instance is gone"

def beginStep (specs : ℕ → Spec) : Option World :=
  match w.procs p, w.stepping, load specs w.env w.states with
  | .idle, none, some v =>
    some { w.setProc p (.step w.epoch v (if v.deploying then v.target else []) .jobs) with stepping := some p }
  | _, _, _ => none

def planJob (hash : Option String) : Option World :=
  match w.procs p with
  | .step epoch v ((name, j) :: rest) .jobs =>
    some (w.setProc p (.step epoch v rest (match hash with
      | some hash => if j.on = .deploy then .asked ⟨name, j, hash⟩ else .jobs
      | none => .jobs)))
  | _ => none

def askSucceeded : Option World :=
  match w.procs p with
  | .step epoch v rest (.asked plan) =>
    some (w.setProc p (.step epoch v rest (if jobSucceeded w.runs plan.name plan.hash then .jobs else .unmet plan)))
  | _ => none

def listRuns : Option World :=
  match w.procs p with
  | .step epoch v rest (.unmet plan) =>
    some (w.setProc p (match Jobs.nextRun plan v.targetNum (listJobRuns w.runs plan.name listLimit) with
      | .wait => .step epoch v rest .jobs
      | .start attempt => .step epoch v rest (.start ⟨plan.name, plan.hash, v.targetNum, attempt⟩ .begun)
      | .fail => .step epoch v [] .jobs))
  | _ => none

def runJob (specs : ℕ → Spec) (name hash : String) : Option World :=
  match w.procs p, load specs w.env w.states with
  | .idle, some v =>
    if (v.target.lookup name).isSome then some (w.setProc p (.call ⟨name, hash, v.targetNum, 1⟩ .begun)) else none
  | _, _ => none

def beginEnding (e : Ending) : Option World :=
  match w.procs p with
  | .idle => some (w.setProc p (.ending w.epoch e .begun))
  | _ => none

/-- `Fence`: the lease is still of the epoch, and stays so until the transaction ends. -/
def fence : Option World :=
  match w.procs p with
  | .step epoch v rest (.start new .begun) =>
    if epoch = w.epoch then (w.take p .lease .share).map (·.setProc p (.step epoch v rest (.start new .fenced))) else none
  | .ending epoch e .begun =>
    if epoch = w.epoch then (w.take p .lease .share).map (·.setProc p (.ending epoch e .fenced)) else none
  | _ => none

/-- The environment's row, which must not be in deletion, or the run's. -/
def lock : Option World :=
  match w.procs p with
  | .step epoch v rest (.start new .fenced) =>
    if w.env.deleting then none
    else (w.take p .environment .update).map (·.setProc p (.step epoch v rest (.start new .locked)))
  | .call new .begun =>
    if w.env.deleting then none else (w.take p .environment .update).map (·.setProc p (.call new .locked))
  | .ending epoch e .fenced =>
    match e.run w.runs with
    | none => some (w.setProc p (.ending epoch e (.locked none)))
    | some r => (w.take p (.run r.id) .update).map (·.setProc p (.ending epoch e (.locked (some r))))
  | _ => none

def check : Option World :=
  match w.procs p with
  | .step epoch v rest (.start new .locked) =>
    if noRunOf w.runs new.job then some (w.setProc p (.step epoch v rest (.start new .checked))) else none
  | .call new .locked => if noRunOf w.runs new.job then some (w.setProc p (.call new .checked)) else none
  | _ => none

def commit : Option World :=
  match w.procs p with
  | .step epoch v rest (.start new .checked) =>
      some (((w.insertRun new false).setProc p (.step epoch v rest .jobs)).unlocked p)
  | .call new .checked => some (((w.insertRun new true).setProc p .idle).unlocked p)
  | .ending _ e (.locked cur) => some (((w.writeEnd cur e).setProc p .idle).unlocked p)
  | _ => none

def abort : Option World :=
  match w.procs p with
  | .idle => none
  | .step epoch v rest _ => some ((w.setProc p (.step epoch v rest .jobs)).unlocked p)
  | .call _ _ => some ((w.setProc p .idle).unlocked p)
  | .ending _ _ _ => some ((w.setProc p .idle).unlocked p)

def leave : World :=
  { (w.setProc p .idle).unlocked p with stepping := if w.stepping = some p then none else w.stepping }

/-- The lease's row is written: no transaction of the epoch that has it is open. -/
def takeOver : Option World :=
  if Free w.held .lease .update then some { w with epoch := w.epoch + 1, stepping := none } else none

def step (specs : ℕ → Spec) : Event → Option World
  | .takeOver => w.takeOver
  | .environment env => some { w with env := env }
  | .deployment number st => some { w with states := Function.update w.states number st }
  | .beginStep p => w.beginStep p specs
  | .planJob p hash => w.planJob p hash
  | .askSucceeded p => w.askSucceeded p
  | .listRuns p => w.listRuns p
  | .runJob p name hash => w.runJob p specs name hash
  | .finishJob p sandbox code detail => w.beginEnding p (.finishJob sandbox code detail)
  | .failOrphanRun p run => w.beginEnding p (.failOrphanRun run)
  | .fence p => w.fence p
  | .lock p => w.lock p
  | .check p => w.check p
  | .commit p => w.commit p
  | .abort p => w.abort p
  | .leave p => some (w.leave p)
  | .deleteInstance sandbox => some { w with instances := w.instances.filter fun i => i.sandbox ≠ sandbox }

end World

/-- A run of a job's template that the controller itself started for a deployment. -/
def Run.ofController (job : String) (deployment : ℕ) (hash : String) (r : Run) : Bool :=
  r.job == job && r.deployment == deployment && r.templateHash == hash && !r.byHand

def World.phaseOf (w : World) (id : ℕ) : Option Phase := (getJobRun w.runs id).map Run.phase

end FeOS.Jobs
