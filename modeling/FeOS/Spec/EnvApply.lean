import FeOS.Spec.EnvSpec
import FeOS.Lib.RowLocks
import FeOS.Lib.Runs

/-! Applies of specs to environments (`go/internal/env/plan.go`): a plan from reads outside any
transaction, and a transaction that locks the environment's row. Each statement sees what was
committed before it. -/

namespace FeOS.Env

open RowLocks Function

inductive DeployState where
  | waiting
  | deploying
  | deployed
  | failed
  | replaced
  deriving DecidableEq, Repr

structure Environment where
  owner : String
  name : String
  /-- the current deployment's number, 0 without one -/
  deployment : ℕ
  deleting : Bool
  deriving DecidableEq, Repr

/-- The versions of a secret that are not deleted, and the deleted ones. -/
structure SecretVersions where
  versions : List ℤ
  deleted : List ℤ
  deriving DecidableEq, Repr

/-- the latest version, 0 when every one is deleted -/
def SecretVersions.latest (v : SecretVersions) : ℤ := v.versions.getLast?.getD 0

/-- an attached service in the sandbox -/
def inSandbox (sb : String) (svc : Service) : Bool := svc.runtime = .attached ∧ svc.sandbox.toLower = sb

def attachedIn (sp : Spec) (sb : String) : List (String × Service) := sp.services.items.filter fun p => inSandbox sb p.2

/-- what `loadContext` makes of the other environments' specs for a sandbox -/
def sandboxInfo (others : List (String × Spec)) (sb : String) (httpNames : List String) : SandboxInfo where
  attachedPorts := others.flatMap fun o => (attachedIn o.2 sb).flatMap fun p => p.2.ports.map fun pt => ⟨o.1, p.1, pt.port⟩
  names := others.flatMap fun o => if attachedIn o.2 sb = [] then [] else (sandboxNames o.2 sb).map fun name => ⟨o.1, name⟩
  httpNames := httpNames

/-- The checks of a plan that are not modelled here, of what they read. -/
structure Checks (C Q : Type) where
  /-- what `Validate`, `Normalise` and the bindings' values find beside the attached services -/
  validate : C → Spec → Option Spec → List Finding
  /-- `SpecFindings` of the tenant's limits and use -/
  quota : Q → Option Spec → Spec → List Finding

variable {C Q : Type}

/-- A plan, with what it was made from. -/
structure Planned (C Q : Type) where
  /-- the environment's current deployment when the plan read it, and its spec -/
  current : ℕ
  currentSpec : Option Spec
  parsed : Spec
  parseFindings : List Finding
  mayWriteTenant : Bool
  /-- the current specs of the tenant's other environments, by the environments' names -/
  others : List (String × Spec)
  /-- the sandboxes of the tenant that the spec names, with the names of their HTTP bindings -/
  known : List (String × List String)
  context : C
  quota : Q
  pins : Pins

namespace Planned

variable (p : Planned C Q) (checks : Checks C Q)

def norm : Spec := normalise p.pins p.parsed

def sandboxes (id : String) : Option SandboxInfo := (p.known.lookup id).map (sandboxInfo p.others id)

def findings : List Finding :=
  p.parseFindings ++ checks.validate p.context p.parsed p.currentSpec ++ validateAttached p.sandboxes p.parsed ++
    checks.quota p.quota p.currentSpec p.norm

def valid : Bool := !hasErrors (p.findings checks)

def attachedOk : Bool := checkAttached p.mayWriteTenant p.currentSpec p.norm

end Planned

structure Deployment (C Q : Type) where
  spec : Spec
  base : ℕ
  state : DeployState
  /-- the plan it was made of; no column -/
  plan : Planned C Q

/-- What an apply is asked for. -/
structure Call where
  tenant : String
  env : String
  /-- what `Parse` makes of the request -/
  parsed : Spec
  parseFindings : List Finding
  base : ℕ
  mayWriteTenant : Bool

/-- the plan of a call from what was read -/
def Call.planOf (call : Call) (current : ℕ) (currentSpec : Option Spec) (others : List (String × Spec))
    (known : List (String × List String)) (context : C) (quota : Q) (pins : Pins) : Planned C Q where
  current := current
  currentSpec := currentSpec
  parsed := call.parsed
  parseFindings := call.parseFindings
  mayWriteTenant := call.mayWriteTenant
  others := others
  known := known
  context := context
  quota := quota
  pins := pins

inductive Answer where
  | deployed (number : ℕ)
  | unchanged (number : ℕ)
  | baseMismatch (base current : ℕ)
  | invalid (findings : List Finding)
  | roleRequired
  | noEnvironment
  | deleting
  /-- the environment keeps getting new deployments -/
  | tryAgain
  | failed
  deriving DecidableEq, Repr

/-- How far an apply is. -/
inductive Stage (C Q : Type) where
  | start
  /-- `resolveEnv` read the environment -/
  | resolved (current : ℕ)
  | current (current : ℕ) (currentSpec : Option Spec)
  /-- `loadContext` read the other environments' attached services -/
  | context (current : ℕ) (currentSpec : Option Spec) (others : List (String × Spec)) (known : List (String × List String))
  | planned (p : Planned C Q)
  /-- in the transaction: the environment is locked -/
  | locked (p : Planned C Q)
  | checked (p : Planned C Q)
  | done (answer : Answer)

structure Apply (C Q : Type) where
  call : Call
  attempts : ℕ
  stage : Stage C Q

structure World (C Q : Type) where
  /-- the IDs of all environments -/
  ids : List String
  envs : String → Option Environment
  deployments : String → ℕ → Option (Deployment C Q)
  secrets : String → String → SecretVersions
  locks : List (Lock ℕ String)
  applies : ℕ → Option (Apply C Q)

inductive Event (C Q : Type) where
  | create (id : String) (env : Environment)
  | apply (a : ℕ) (call : Call)
  | resolve (a : ℕ)
  | readCurrent (a : ℕ)
  /-- the sandboxes of the tenant, with the names of their HTTP bindings -/
  | readSandboxes (a : ℕ) (known : List (String × List String))
  | plan (a : ℕ) (context : C) (quota : Q) (pins : Pins)
  | lock (a : ℕ)
  | check (a : ℕ) (quota : Q)
  | commit (a : ℕ)
  | fail (a : ℕ)
  | putSecret (env name : String)
  | deleteSecret (env name : String)
  /-- the controller's changes of a deployment's state -/
  | setState (env : String) (number : ℕ) (state : DeployState)
  | markDeleting (env : String)

namespace World

variable (checks : Checks C Q) (w : World C Q)

/-- the current deployment's spec -/
def currentSpec (env : String) : Option Spec :=
  (w.envs env).bind fun e => (w.deployments env e.deployment).map Deployment.spec

@[simps]
def setApply (a : ℕ) (x : Apply C Q) : World C Q := { w with applies := update w.applies a (some x) }

/-- The end of a transaction. -/
@[simps]
def unlock (a : ℕ) : World C Q := { w with locks := release w.locks a }

def answer (a : ℕ) (x : Apply C Q) (ans : Answer) : World C Q := (w.unlock a).setApply a { x with stage := .done ans }

/-- `errReplan`: the apply begins again, at most three times in all -/
def replan (a : ℕ) (x : Apply C Q) : World C Q :=
  if x.attempts + 1 < 3 then (w.unlock a).setApply a { x with attempts := x.attempts + 1, stage := .start }
  else w.answer a x .tryAgain

/-- `AttachedSpecs`: the current specs of the tenant's other environments that are not being deleted -/
def otherSpecs (tenant env : String) : List (String × Spec) :=
  w.ids.filterMap fun id => (w.envs id).bind fun e =>
    if id ≠ env ∧ e.owner = tenant ∧ e.deleting = false then (w.currentSpec id).map fun sp => (e.name, sp) else none

/-- the transaction's reads of the environment -/
def lockStep (a : ℕ) (x : Apply C Q) (p : Planned C Q) : World C Q :=
  match w.envs x.call.env with
  | none => w.answer a x .noEnvironment
  | some e =>
    if e.deleting then w.answer a x .deleting
    else if e.deployment ≠ p.current then
      if x.call.base = e.deployment then w.replan a x else w.answer a x (.baseMismatch x.call.base e.deployment)
    else World.setApply { w with locks := ⟨a, x.call.env, .update⟩ :: w.locks } a { x with stage := .locked p }

/-- `checkPins` -/
def pinsExist (env : String) (sp : Spec) : Bool := sp.secrets.items.all fun q => q.2 ∈ (w.secrets env q.1).versions

/-- whether the spec is the current deployment's, which did not fail -/
def isUnchanged (env : String) (p : Planned C Q) : Bool :=
  0 < p.current && p.currentSpec.any (fun cur => equalNormalised p.norm cur) &&
    (w.deployments env p.current).any fun d => d.state ≠ .failed

/-- `ReplaceDeployments` of the deployments below one -/
def replaced (below : ℕ) (ds : ℕ → Option (Deployment C Q)) : ℕ → Option (Deployment C Q) := fun n =>
  (ds n).map fun d => if n < below ∧ (d.state = .waiting ∨ d.state = .deploying) then { d with state := .replaced } else d

/-- the next deployment -/
@[simps]
def insert (env : String) (e : Environment) (base : ℕ) (p : Planned C Q) : World C Q :=
  let number := e.deployment + 1
  { w with
    envs := update w.envs env (some { e with deployment := number })
    deployments := update w.deployments env
      (update (replaced number (w.deployments env)) number (some ⟨p.norm, base, .waiting, p⟩)) }

def commitStep (a : ℕ) (x : Apply C Q) (p : Planned C Q) : World C Q :=
  if w.isUnchanged x.call.env p then w.answer a x (.unchanged p.current)
  else if x.call.base ≠ p.current then w.answer a x (.baseMismatch x.call.base p.current)
  else match w.envs x.call.env with
    | none => w.answer a x .failed
    | some e => (w.insert x.call.env e x.call.base p).answer a x (.deployed (e.deployment + 1))

@[simps]
def setSecret (env name : String) (v : SecretVersions) : World C Q :=
  { w with secrets := update w.secrets env (update (w.secrets env) name v) }

/-- every version soft-deleted -/
def dropSecret (env name : String) : World C Q :=
  let v := w.secrets env name
  w.setSecret env name ⟨[], v.deleted ++ v.versions⟩

/-- the next version -/
def addSecret (env name : String) : World C Q :=
  let v := w.secrets env name
  w.setSecret env name ⟨v.versions ++ [(v.versions ++ v.deleted).foldl max 0 + 1], v.deleted⟩

@[simps]
def setState (env : String) (number : ℕ) (d : Deployment C Q) (state : DeployState) : World C Q :=
  let ds := update (w.deployments env) number (some { d with state := state })
  { w with deployments := update w.deployments env ds }

def step : Event C Q → Option (World C Q)
  | .create id env =>
    if w.envs id = none ∧ id ∉ w.ids ∧ env.deployment = 0 then
      some { w with ids := id :: w.ids, envs := update w.envs id (some env) }
    else none
  | .apply a call =>
    match w.applies a with
    | none => some (w.setApply a ⟨call, 0, .start⟩)
    | some _ => none
  | .resolve a =>
    match w.applies a with
    | some x => match x.stage with
      | .start => match w.envs x.call.env with
        | none => some (w.answer a x .noEnvironment)
        | some e =>
          if e.owner ≠ x.call.tenant then some (w.answer a x .noEnvironment)
          else if e.deleting then some (w.answer a x .deleting)
          else some (w.setApply a { x with stage := .resolved e.deployment })
      | _ => none
    | none => none
  | .readCurrent a =>
    match w.applies a with
    | some x => match x.stage with
      | .resolved n =>
        if n = 0 then some (w.setApply a { x with stage := .current 0 none })
        else match w.deployments x.call.env n with
          | none => some (w.answer a x .failed)
          | some d => some (w.setApply a { x with stage := .current n (some d.spec) })
      | _ => none
    | none => none
  | .readSandboxes a known =>
    match w.applies a with
    | some x => match x.stage with
      | .current n cur =>
        if hasErrors x.call.parseFindings then some (w.answer a x (.invalid x.call.parseFindings))
        else some (w.setApply a { x with stage := .context n cur (w.otherSpecs x.call.tenant x.call.env) known })
      | _ => none
    | none => none
  | .plan a context quota pins =>
    match w.applies a with
    | some x => match x.stage with
      | .context n cur others known =>
        let p := x.call.planOf n cur others known context quota
          { pins with secrets := fun name => (w.secrets x.call.env name).latest }
        if ¬ p.valid checks then some (w.answer a x (.invalid (p.findings checks)))
        else if ¬ p.attachedOk then some (w.answer a x .roleRequired)
        else some (w.setApply a { x with stage := .planned p })
      | _ => none
    | none => none
  | .lock a =>
    match w.applies a with
    | some x => match x.stage with
      | .planned p => if Free w.locks x.call.env .update then some (w.lockStep a x p) else none
      | _ => none
    | none => none
  | .check a quota =>
    match w.applies a with
    | some x => match x.stage with
      | .locked p =>
        if ¬ w.pinsExist x.call.env p.norm then some (w.replan a x)
        else if checks.quota quota p.currentSpec p.norm ≠ [] then
          some (w.answer a x (.invalid (checks.quota quota p.currentSpec p.norm)))
        else some (w.setApply a { x with stage := .checked p })
      | _ => none
    | none => none
  | .commit a =>
    match w.applies a with
    | some x => match x.stage with
      | .checked p => some (w.commitStep a x p)
      | _ => none
    | none => none
  | .fail a =>
    match w.applies a with
    | some x => match x.stage with
      | .done _ => none
      | _ => some (w.answer a x .failed)
    | none => none
  | .putSecret env name =>
    if Free w.locks env .update then some (w.addSecret env name) else none
  | .deleteSecret env name =>
    if Free w.locks env .update then
      match w.currentSpec env with
      | some sp => if (sp.secrets.get name).isSome ∨ name ∈ referenced sp then none else some (w.dropSecret env name)
      | none => some (w.dropSecret env name)
    else none
  | .setState env number state =>
    (w.deployments env number).map fun d => w.setState env number d state
  | .markDeleting env =>
    if Free w.locks env .update then
      (w.envs env).map fun e => { w with envs := update w.envs env (some { e with deleting := true }) }
    else none

end World

end FeOS.Env
