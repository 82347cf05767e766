import FeOS.Spec.EnvSpec

/-! What the controller plans for an attached service (`go/internal/env/ctl/render.go`): its
process, with the service's environment rendered against the target spec and the environment's
secrets and addon addresses. -/

namespace FeOS.Env

open Keyed

/-- A part of a template's value: a literal, a secret's or a credential's. -/
structure TemplatePart where
  value : String
  secret : String
  version : ℤ
  escape : String
  credential : String
  deriving DecidableEq, Repr

structure TemplateValue where
  value : String
  secret : String
  version : ℤ
  escape : String
  parts : List TemplatePart
  deriving DecidableEq, Repr

namespace TemplateValue

def literal (s : String) : TemplateValue := ⟨s, "", 0, "", []⟩

/-- `SecretValue` -/
def ofSecret (name : String) (version : ℤ) (escape : String) : TemplateValue := ⟨"", name, version, escape, []⟩

def ofParts (parts : List TemplatePart) : TemplateValue := ⟨"", "", 0, "", parts⟩

end TemplateValue

/-- A reference to an output of an addon. -/
structure Ref where
  key : String
  fields : List (String × String)
  deriving DecidableEq, Repr

/-- What is read of an addon type. -/
structure Blueprint where
  defaultPlan : String
  /-- `Outputs` of the addon of the name, in the environment and at the address -/
  outputs : String → Addon → String → String → Ref → Except String (List TemplatePart)

/-- What a pass knows of an environment beside its target. -/
structure View where
  env : String
  /-- the latest versions of its secrets, 0 without one -/
  secrets : String → ℤ
  /-- the address of an addon's current instance; empty without one -/
  address : String → String
  blueprint : String → Option Blueprint

/-- Why an environment is not rendered. -/
inductive Unrendered where
  | wait (why : String)
  | error (msg : String)
  deriving DecidableEq, Repr

def mapCredentials (addon : String) (parts : List TemplatePart) : List TemplatePart :=
  parts.map fun p =>
    if p.credential ≠ "" then ⟨"", "addon." ++ addon ++ "." ++ p.credential, 1, p.escape, ""⟩ else p

def specAddon (bp : Blueprint) (a : Addon) : Addon := if a.plan = "" then { a with plan := bp.defaultPlan } else a

def secretVersion (target : Spec) (name : String) : ℤ := (target.secrets.get name).getD 0

/-- the version of a secret that is rendered: the pinned one, the latest without a pin -/
def renderedVersion (v : View) (target : Spec) (name : String) : ℤ :=
  if secretVersion target name = 0 then v.secrets name else secretVersion target name

def portOf (s : Service) (ref : PortRef) : ℤ :=
  match s.ports.find? fun p => (ref.name ≠ "" ∧ p.name = ref.name) ∨ (ref.name = "" ∧ p.port = ref.number) with
  | some p => p.port
  | none => if ref.name = "" ∧ 0 < ref.number then ref.number else 0

/-- Why a reference to an addon has no value. -/
inductive NoOutput where
  | noAddon
  | noType (type : String)
  | noAddress
  | refused (msg : String)
  deriving DecidableEq, Repr

/-- the output of an addon of the target, its credentials mapped to system secrets -/
def addonParts (v : View) (target : Spec) (name : String) (ref : Ref) : Except NoOutput (List TemplatePart) :=
  match target.addons.get name with
  | none => .error .noAddon
  | some a => match v.blueprint a.type with
    | none => .error (.noType a.type)
    | some bp =>
      if v.address name = "" then .error .noAddress
      else match bp.outputs name (specAddon bp a) v.env (v.address name) ref with
        | .error msg => .error (.refused msg)
        | .ok parts => .ok (mapCredentials name parts)

def NoOutput.unrendered (k addon : String) : NoOutput → Unrendered
  | .noAddon => .error ("env " ++ k ++ ": no addon " ++ addon)
  | .noType type => .error ("env " ++ k ++ ": no addon type " ++ type.quote)
  | .noAddress => .wait ("waits for the address of addon " ++ addon)
  | .refused msg => .error ("env " ++ k ++ ": " ++ msg)

def serviceText (name key : String) (port : ℤ) : String :=
  if key = "host" then name
  else if key = "port" then toString port
  else "http://" ++ name ++ ":" ++ toString port

def renderValue (v : View) (target : Spec) (k : String) : EnvValue → Except Unrendered TemplateValue
  | .plain s => .ok (.literal s)
  | .literal s => .ok (.literal s)
  | .secret name =>
    if renderedVersion v target name = 0 then .error (.error ("env " ++ k ++ ": no secret " ++ name))
    else .ok (.ofSecret name (renderedVersion v target name) "")
  | .addon name key fields =>
    match addonParts v target name ⟨key, fields⟩ with
    | .error u => .error (u.unrendered k name)
    | .ok parts => .ok (.ofParts parts)
  | .service name port key =>
    match target.services.get name with
    | none => .error (.error ("env " ++ k ++ ": no service " ++ name))
    | some s => .ok (.literal (serviceText name key (portOf s port)))

/-- `renderEnv`: the values in the order of their keys, up to the first that is not rendered -/
def renderEnv (v : View) (target : Spec) : List (String × EnvValue) → Except Unrendered (List (String × TemplateValue))
  | [] => .ok []
  | (k, e) :: env => do
    let t ← renderValue v target k e
    let ts ← renderEnv v target env
    return (k, t) :: ts

/-- The process of an attached service; its environment and its hash only when it is rendered. -/
structure AttachedPlan where
  sandbox : Option String
  argv : List String
  cwd : String
  env : List (String × TemplateValue)
  hash : String
  unrendered : Option Unrendered
  deriving DecidableEq, Repr

/-- `planAttached`, with the hash of a process -/
def planAttached (hashJSON : String → List String → String → List (String × TemplateValue) → String)
    (v : View) (target : Spec)
    (name : String) (s : Service) : AttachedPlan :=
  match parseID s.sandbox with
  | none => ⟨none, s.command, s.cwd, [], "",
      some (.error ("service " ++ name ++ ": sandbox " ++ s.sandbox.quote ++ " is not a sandbox ID"))⟩
  | some id =>
    if s.command = [] then ⟨some id, [], s.cwd, [], "", some (.error ("service " ++ name ++ " has no command"))⟩
    else match renderEnv v target s.env.items with
      | .error u => ⟨some id, s.command, s.cwd, [], "", some u⟩
      | .ok env => ⟨some id, s.command, s.cwd, env, hashJSON id s.command s.cwd env, none⟩

/-- What of a plan runs. -/
structure Process where
  sandbox : Option String
  argv : List String
  cwd : String
  env : List (String × TemplateValue)
  hash : String
  deriving DecidableEq, Repr

def AttachedPlan.process (p : AttachedPlan) : Process := ⟨p.sandbox, p.argv, p.cwd, p.env, p.hash⟩

end FeOS.Env
