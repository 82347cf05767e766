import Mathlib.Data.String.Basic
import FeOS.Lib.Keyed

/-! The spec of an environment's deployment (`go/internal/env/spec/types.go`), its normal form
(`normalise.go`) and the checks of its attached services (`validate.go`, `go/internal/env/plan.go`).
The fields of an object that no function here reads are kept as one text, their JSON. -/

namespace FeOS.Env

open Keyed

inductive Runtime where
  | unset
  | image
  | attached
  | other (name : String)
  deriving DecidableEq, Repr

structure Port where
  name : String
  port : ℤ
  deriving DecidableEq, Repr

/-- A port of a service, by its name or its number. -/
structure PortRef where
  name : String
  number : ℤ
  deriving DecidableEq, Repr

inductive EnvValue where
  | plain (value : String)
  | literal (value : String)
  | secret (name : String)
  | addon (name key : String) (fields : List (String × String))
  | service (name : String) (port : PortRef) (key : String)
  deriving DecidableEq, Repr

structure Service where
  runtime : Runtime
  sandbox : String
  command : List String
  cwd : String
  env : Table String EnvValue
  ports : List Port
  /-- the username and the password of the image's registry -/
  imageCredentials : List EnvValue
  rest : String
  deriving DecidableEq

inductive JobOn where
  | unset
  | deploy
  | release
  | manual
  | other (word : String)
  deriving DecidableEq, Repr

structure Job where
  on : JobOn
  env : Table String EnvValue
  imageCredentials : List EnvValue
  rest : String
  deriving DecidableEq

structure Addon where
  type : String
  version : String
  plan : String
  options : String
  deriving DecidableEq, Repr

structure Binding where
  /-- the values of its credential -/
  values : List EnvValue
  rest : String
  deriving DecidableEq, Repr

structure Spec where
  services : Table String Service
  jobs : Table String Job
  addons : Table String Addon
  /-- the versions that secrets are pinned to, 0 for the latest -/
  secrets : Table String ℤ
  bindings : Table String Binding
  /-- routes, and what is not available yet -/
  rest : String
  deriving DecidableEq

/-! The normal form -/

/-- What `Normalise` pins a spec to, and how it writes the other fields of its objects with it. -/
structure Pins where
  secrets : String → ℤ
  plans : String → String
  service : Service → String
  job : Job → String
  binding : Binding → String
  rest : String → String

def EnvValue.secret? : EnvValue → Option String
  | .secret name => some name
  | _ => none

def referenced (s : Spec) : List String :=
  let values := (s.services.items.flatMap fun p => p.2.env.items.map Prod.snd ++ p.2.imageCredentials) ++
    (s.jobs.items.flatMap fun p => p.2.env.items.map Prod.snd ++ p.2.imageCredentials) ++
    s.bindings.items.flatMap fun p => p.2.values
  ((values.filterMap EnvValue.secret?).dedup).insertionSort fun a b => a ≤ b

def normService (p : Pins) (svc : Service) : Service :=
  { svc with
    runtime := if svc.runtime = .unset then .image else svc.runtime
    imageCredentials := if svc.runtime = .attached then [] else svc.imageCredentials
    rest := p.service svc }

def isJobOnDeploy (on : JobOn) : Bool := on = .unset ∨ on = .deploy ∨ on = .release

def normJob (p : Pins) (j : Job) : Job :=
  { j with
    on := if isJobOnDeploy j.on then .deploy else j.on
    rest := p.job j }

/-- the version of a secret that the normal form pins -/
def pinnedVersion (p : Pins) (s : Spec) (name : String) : Option (String × ℤ) :=
  let given := (s.secrets.get name).getD 0
  let v := if given ≤ 0 then p.secrets name else given
  if v ≤ 0 then none else some (name, v)

theorem pinnedVersion_fst (p : Pins) (s : Spec) (name : String) (a : String × ℤ) (h : pinnedVersion p s name = some a) :
    a.1 = name := by
  unfold pinnedVersion at h
  dsimp only at h
  split_ifs at h <;> cases h <;> rfl

theorem referenced_sorted (s : Spec) : (referenced s).Pairwise (· < ·) := by
  have hsorted : Sorted id (referenced s) := by
    refine sorted_insertionSort ?_
    rw [List.map_id]
    exact List.nodup_dedup _
  exact hsorted

def normalise (p : Pins) (s : Spec) : Spec where
  services := s.services.map (normService p)
  jobs := s.jobs.map (normJob p)
  addons := s.addons.map fun a => if a.plan = "" then { a with plan := p.plans a.type } else a
  secrets := ⟨(referenced s).filterMap (pinnedVersion p s), sorted_filterMap (pinnedVersion_fst p s) (referenced_sorted s)⟩
  bindings := s.bindings.map fun b => { b with rest := p.binding b }
  rest := p.rest s.rest

def oneJobWord (s : Spec) : Spec :=
  { s with jobs := s.jobs.map fun j => if isJobOnDeploy j.on then { j with on := .deploy } else j }

/-- `EqualNormalised`: the JSON of two specs is equal when they are. -/
def equalNormalised (a b : Spec) : Bool := oneJobWord a = oneJobWord b

/-! Attached services -/

def attachedServices : Option Spec → Table String Service
  | none => .empty
  | some sp => sp.services.filter fun svc => svc.runtime = .attached

/-- `checkAttached`: whether the deployment passes for a principal -/
def checkAttached (mayWriteTenant : Bool) (current : Option Spec) (next : Spec) : Bool :=
  mayWriteTenant || attachedServices current = attachedServices (some next)

/-- `SandboxNames`; the order of the names plays no part here -/
def sandboxNames (s : Spec) (sandbox : String) : List String :=
  s.addons.keys ++ (s.services.items.filter fun p => match p.2.runtime with
    | .unset | .image => true
    | .attached => p.2.sandbox.toLower = sandbox.toLower
    | .other _ => false).map Prod.fst

/-- a port that an attached service of another environment uses in a sandbox -/
structure AttachedPort where
  env : String
  service : String
  port : ℤ
  deriving DecidableEq, Repr

structure SandboxName where
  env : String
  name : String
  deriving DecidableEq, Repr

/-- `SandboxInfo`: a sandbox of the tenant, and what other environments have there -/
structure SandboxInfo where
  attachedPorts : List AttachedPort
  names : List SandboxName
  /-- the names of its own HTTP bindings -/
  httpNames : List String
  deriving DecidableEq, Repr

inductive Severity where
  | error
  | warning
  | info
  deriving DecidableEq, Repr

structure Finding where
  severity : Severity
  path : String
  problem : String
  remedy : String
  deriving DecidableEq, Repr

def hasErrors (fs : List Finding) : Bool := fs.any fun f => f.severity = .error

def errorf (path remedy problem : String) : Finding := ⟨.error, path, problem, remedy⟩

/-! IDs of sandboxes (`go/internal/podid`) -/

def idAlphabet : List Char := "0123456789abcdefghjkmnpqrstvwxyz".toList

def idLetters : List Char := "abcdefghjkmnpqrstvwxyz".toList

def validShort (s : String) : Bool :=
  s.length = 11 ∧ s.toList.head?.any (fun c => c ∈ idLetters) ∧ s.toList.all fun c => c ∈ idAlphabet

def validUUID (s : String) : Bool :=
  s.length = 36 ∧ s.toList.zipIdx.all fun p =>
    if p.2 = 8 ∨ p.2 = 13 ∨ p.2 = 18 ∨ p.2 = 23 then p.1 = '-' else p.1 ∈ "0123456789abcdef".toList

/-- `podid.Parse`: an ID in its canonical form -/
def parseID (s : String) : Option String :=
  if validShort s then some s else if validUUID s.toLower then some s.toLower else none

/-! Findings about attached services -/

/-- `validator.sandbox`, of the sandboxes the tenant has -/
def checkSandbox (sandboxes : String → Option SandboxInfo) (path id : String) : List Finding :=
  if id = "" then [errorf path "set sandbox to the ID of one of your sandboxes" "an attached service needs a sandbox"]
  else match parseID id with
    | none => [errorf path "set sandbox to the ID of one of your sandboxes"
        ("sandbox " ++ id.quote ++ " is not a sandbox ID")]
    | some sid => match sandboxes sid with
      | none => [errorf path "create the sandbox first (POST /api/v1/sandboxes with attachable: true), or name one of yours"
          ("no sandbox " ++ id ++ " of yours")]
      | some _ => []

/-- The ports that attached services of the spec have used in each sandbox before, by who did. -/
abbrev Used := List ((String × ℤ) × String)

/-- `attachedPorts`, for one port of one service -/
def attachedPort (sandboxes : String → Option SandboxInfo) (name sandbox : String) (i : ℕ) (pt : Port) (used : Used) :
    List Finding × Used :=
  let sb := sandbox.toLower
  let path := "services." ++ name ++ ".ports[" ++ toString i ++ "].port"
  match used.find? fun u => u.1 = (sb, pt.port) ∧ u.2 ≠ name with
  | some u =>
    ([errorf path "change one's port" ("port " ++ toString pt.port ++ " is attached service " ++ u.2 ++
      "'s too, in the same sandbox")],
      used)
  | none =>
    let others := ((sandboxes sb).map SandboxInfo.attachedPorts).getD []
    ((others.filter fun ap => ap.port = pt.port).map fun ap =>
        errorf path "change one's port" ("port " ++ toString pt.port ++ " is used in sandbox " ++ sandbox ++
          " by service " ++
          ap.service ++ " of environment " ++ ap.env),
      ((sb, pt.port), name) :: used)

/-- the ports of one service, from the `i`th on -/
def servicePorts (sandboxes : String → Option SandboxInfo) (name sandbox : String) :
    ℕ → List Port → Used → List Finding × Used
  | _, [], used => ([], used)
  | i, pt :: ports, used =>
    let (fs, used) := attachedPort sandboxes name sandbox i pt used
    let (fs', used) := servicePorts sandboxes name sandbox (i + 1) ports used
    (fs ++ fs', used)

/-- `attachedPorts` of the services, in order -/
def attachedPorts (sandboxes : String → Option SandboxInfo) : List (String × Service) → Used → List Finding
  | [], _ => []
  | (name, svc) :: services, used =>
    if svc.runtime ≠ .attached ∨ svc.sandbox = "" then attachedPorts sandboxes services used
    else
      let (fs, used) := servicePorts sandboxes name svc.sandbox 0 svc.ports used
      fs ++ attachedPorts sandboxes services used

/-- the sandboxes, in lowercase, that the spec's attached services run in -/
def attachedSandboxes (s : Spec) : List String :=
  ((s.services.items.filter fun p => p.2.runtime = .attached ∧ p.2.sandbox ≠ "").map fun p => p.2.sandbox.toLower).dedup

/-- the path of a finding about a name in a sandbox -/
def namePath (s : Spec) (name : String) : String :=
  if (s.addons.get name).isSome then "addons." ++ name else "services." ++ name

/-- `validator.sandboxNames`, for one sandbox -/
def checkNames (s : Spec) (sb : String) (info : SandboxInfo) : List Finding :=
  let names := (sandboxNames s sb).dedup
  let http := (names.filter fun name => name ∈ info.httpNames).map fun name =>
    errorf (namePath s name) "rename it, or rename the sandbox's HTTP binding"
      (name ++ " is the name of an HTTP binding of sandbox " ++ sb ++ ": its resolver would answer the binding")
  http ++ names.flatMap fun name => ((info.names.filter fun hn => hn.name = name).map SandboxName.env).dedup.map fun env =>
    errorf (namePath s name) "rename one, or run the two environments' attached services in separate sandboxes"
      (name ++ " is a name in sandbox " ++ sb ++ " of environment " ++ env ++ "'s too: a process there could reach either")

/-- `Validate`'s findings about attached services, of an apply -/
def validateAttached (sandboxes : String → Option SandboxInfo) (s : Spec) : List Finding :=
  ((s.services.items.filter fun p => p.2.runtime = .attached).flatMap fun p =>
      checkSandbox sandboxes ("services." ++ p.1 ++ ".sandbox") p.2.sandbox) ++
    attachedPorts sandboxes s.services.items [] ++
    (attachedSandboxes s).flatMap fun sb => ((sandboxes sb).map (checkNames s sb)).getD []

end FeOS.Env
