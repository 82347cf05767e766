import FeOS.Lib.RowLocks
import FeOS.Lib.Runs

/-! A tenant's quotas (`go/internal/quota`, `go/internal/env/common.go`, `go/internal/store/quotas.go`)
and the creates that count against them, each a transaction of statements that see what was
committed before them. -/

namespace FeOS.Quota

open RowLocks

/-! Limits and use -/

inductive Resource where
  | sandboxes
  | environments
  | runningJobs
  | vcpus
  | memoryMiB
  deriving DecidableEq, Repr

/-- In the order `Check` goes through them. -/
def Resource.all : List Resource := [.sandboxes, .environments, .runningJobs, .vcpus, .memoryMiB]

/-- A tenant's use, or what a request asks for. -/
structure Use where
  sandboxes : ℕ := 0
  environments : ℕ := 0
  runningJobs : ℕ := 0
  vcpus : ℕ := 0
  memoryMiB : ℕ := 0
  deriving DecidableEq, Repr

def Use.of (u : Use) : Resource → ℕ
  | .sandboxes => u.sandboxes
  | .environments => u.environments
  | .runningJobs => u.runningJobs
  | .vcpus => u.vcpus
  | .memoryMiB => u.memoryMiB

structure TenantLimits where
  sandboxes : Option ℕ := none
  environments : Option ℕ := none
  runningJobs : Option ℕ := none
  vcpus : Option ℕ := none
  memoryMiB : Option ℕ := none
  deriving DecidableEq, Repr

def TenantLimits.of (l : TenantLimits) : Resource → Option ℕ
  | .sandboxes => l.sandboxes
  | .environments => l.environments
  | .runningJobs => l.runningJobs
  | .vcpus => l.vcpus
  | .memoryMiB => l.memoryMiB

def TenantLimits.any (l : TenantLimits) : Bool :=
  l.sandboxes.isSome || l.environments.isSome || l.runningJobs.isSome || l.vcpus.isSome || l.memoryMiB.isSome

structure Tenant where
  limits : TenantLimits
  deleting : Bool := false
  deriving DecidableEq, Repr

/-! What a deployment spec asks for -/

structure Resources where
  vcpus : ℕ
  memoryMib : ℕ
  deriving DecidableEq, Repr

structure Service where
  runtime : String
  image : String
  replicas : Option ℕ
  resources : Option Resources
  deriving DecidableEq, Repr

structure Addon where
  type : String
  plan : String
  deriving DecidableEq, Repr

structure Spec where
  services : List Service
  addons : List Addon
  deriving DecidableEq, Repr

/-- An addon type of the registry (`addons.Get`). -/
structure AddonType where
  defaultPlan : String
  plans : List (String × Resources)

def defaultReplicas : ℕ := 1
def defaultVCPUs : ℕ := 1
def defaultMemoryMib : ℕ := 512

/-- vCPUs and memory -/
def Service.use (s : Service) : ℕ × ℕ :=
  if s.runtime = "attached" ∨ (s.runtime = "" ∧ s.image = "") then (0, 0)
  else
    let replicas := s.replicas.getD defaultReplicas
    let given := s.resources.getD ⟨0, 0⟩
    let v := if given.vcpus ≠ 0 then given.vcpus else defaultVCPUs
    let m := if given.memoryMib ≠ 0 then given.memoryMib else defaultMemoryMib
    (replicas * v, replicas * m)

def Addon.use (types : String → Option AddonType) (a : Addon) : ℕ × ℕ :=
  match types a.type with
  | none => (0, 0)
  | some b =>
    match b.plans.lookup (if a.plan = "" then b.defaultPlan else a.plan) with
    | none => (0, 0)
    | some p => (p.vcpus, p.memoryMib)

def specUse (types : String → Option AddonType) : Option Spec → ℕ × ℕ
  | none => (0, 0)
  | some sp => (sp.services.map Service.use).sum + (sp.addons.map (Addon.use types)).sum

/-! The tables the use is counted from -/

structure SandboxRow where
  id : String
  owner : String
  environment : Option String
  tenantJob : Bool
  vcpus : ℕ
  memoryMiB : ℕ
  deriving DecidableEq, Repr

structure JobRow where
  id : String
  owner : String
  vcpus : ℕ
  memoryMiB : ℕ
  finished : Bool
  deriving DecidableEq, Repr

structure Environment where
  id : String
  owner : String
  name : String
  deleting : Bool
  /-- the newest first: the current one, whose number is how many there are -/
  deployments : List Spec
  deriving DecidableEq, Repr

structure Tables where
  tenants : String → Option Tenant
  sandboxes : List SandboxRow
  jobs : List JobRow
  environments : List Environment
  /-- the primary key -/
  ids : (environments.map Environment.id).Nodup

namespace Tables

variable (db : Tables) (tenant : String)

def findEnvironment (id : String) : Option Environment := db.environments.find? fun e => e.id = id

def countedSandboxes : List SandboxRow :=
  db.sandboxes.filter fun s => s.owner = tenant ∧ s.environment = none ∧ s.tenantJob = false

def countedJobs : List JobRow := db.jobs.filter fun j => j.owner = tenant ∧ j.finished = false

def countedEnvironments : List Environment := db.environments.filter fun e => e.owner = tenant ∧ e.deleting = false

/-- `TenantUseRows` but its specs -/
structure UseRows where
  sandboxes : ℕ
  sandboxVCPUs : ℕ
  sandboxMemoryMiB : ℕ
  environments : ℕ
  runningJobs : ℕ
  jobVCPUs : ℕ
  jobMemoryMiB : ℕ
  deriving DecidableEq, Repr

/-- the first statement of `TenantUse` -/
def tenantUse : UseRows where
  sandboxes := (db.countedSandboxes tenant).length
  sandboxVCPUs := ((db.countedSandboxes tenant).map (·.vcpus)).sum
  sandboxMemoryMiB := ((db.countedSandboxes tenant).map (·.memoryMiB)).sum
  environments := (db.countedEnvironments tenant).length
  runningJobs := (db.countedJobs tenant).length
  jobVCPUs := ((db.countedJobs tenant).map (·.vcpus)).sum
  jobMemoryMiB := ((db.countedJobs tenant).map (·.memoryMiB)).sum

/-- its second statement: the specs of the current deployments, but of the environment left out -/
def tenantSpecs (exclude : Option String) : List Spec :=
  ((db.countedEnvironments tenant).filter fun e => some e.id ≠ exclude).filterMap (·.deployments.head?)

end Tables

open Tables

/-- `Of`, of what its two statements answered -/
def useOf (types : String → Option AddonType) (rows : UseRows) (specs : List Spec) : Use where
  sandboxes := rows.sandboxes
  environments := rows.environments
  runningJobs := rows.runningJobs
  vcpus := rows.sandboxVCPUs + rows.jobVCPUs + (specs.map fun sp => (specUse types (some sp)).1).sum
  memoryMiB := rows.sandboxMemoryMiB + rows.jobMemoryMiB + (specs.map fun sp => (specUse types (some sp)).2).sum

/-- A tenant's use, when all of it is read at once. -/
def Tables.use (types : String → Option AddonType) (db : Tables) (tenant : String) (exclude : Option String) : Use :=
  useOf types (db.tenantUse tenant) (db.tenantSpecs tenant exclude)

structure QuotaExceeded where
  resource : Resource
  limit : ℕ
  use : ℕ
  ask : ℕ
  deriving DecidableEq, Repr

def exceeds (l : TenantLimits) (use ask : Use) (r : Resource) : Option QuotaExceeded :=
  match l.of r with
  | none => none
  | some limit => if 0 < ask.of r ∧ limit < use.of r + ask.of r then some ⟨r, limit, use.of r, ask.of r⟩ else none

def check (l : TenantLimits) (use ask : Use) : Option QuotaExceeded := Resource.all.findSome? (exceeds l use ask)

/-- an error finding of a deployment whose sums would pass a limit -/
structure Finding where
  what : Resource
  limit : ℕ
  others : ℕ
  next : ℕ
  deriving DecidableEq, Repr

def findingOf (l : TenantLimits) (others : Use) (r : Resource) (cur next : ℕ) : Option Finding :=
  match l.of r with
  | none => none
  | some limit => if others.of r + next ≤ limit ∨ next ≤ cur then none else some ⟨r, limit, others.of r, next⟩

def specFindings (types : String → Option AddonType) (l : TenantLimits) (others : Use) (current next : Option Spec) :
    List Finding :=
  [findingOf l others .vcpus (specUse types current).1 (specUse types next).1,
    findingOf l others .memoryMiB (specUse types current).2 (specUse types next).2].reduceOption

/-! The creates -/

inductive Create where
  /-- `createSandbox` -/
  | sandbox (vcpus memoryMiB : ℕ)
  | job (vcpus memoryMiB : ℕ)
  /-- `CreateEnv` -/
  | environment (id name : String)
  /-- `CloneEnv`, with the spec it deploys, if any -/
  | clone (id name : String) (next : Option Spec)
  /-- `applyOnce`, with what its plan read of the environment -/
  | deployment (env : String) (current : ℕ) (currentSpec : Option Spec) (next : Spec)
  deriving DecidableEq, Repr

/-- what `Check` is asked -/
def Create.ask : Create → Use
  | .sandbox v m => { sandboxes := 1, vcpus := v, memoryMiB := m }
  | .job v m => { runningJobs := 1, vcpus := v, memoryMiB := m }
  | .environment _ _ => { environments := 1 }
  | .clone _ _ _ => { environments := 1 }
  | .deployment _ _ _ _ => {}

/-- the deployment it makes, the one it replaces, and the environment -/
def Create.deploys : Create → Option (String × Option Spec × Spec)
  | .clone id _ (some next) => some (id, none, next)
  | .deployment env _ currentSpec next => some (env, currentSpec, next)
  | _ => none

/-- all that the tenant's use has more of with it -/
def Create.asks (types : String → Option AddonType) (c : Create) : Use :=
  let next := specUse types (c.deploys.map fun d => d.2.2)
  { c.ask with
    vcpus := c.ask.vcpus + next.1
    memoryMiB := c.ask.memoryMiB + next.2 }

/-- The next statement of a create's transaction, with what it has read. -/
inductive Stage where
  /-- `Lock`: `GetTenant` -/
  | reading
  /-- `Lock`: `LockTenant` in the mode that the read chose -/
  | locking (mode : Mode)
  /-- a deployment: `LockEnvironment` -/
  | planning (t : Tenant)
  | counting (t : Tenant)
  | summing (t : Tenant) (rows : UseRows)
  | checking (t : Tenant) (use : Use)
  /-- `checkQuota`: the use without the environment that the deployment is for -/
  | countingOthers (t : Tenant)
  | summingOthers (t : Tenant) (rows : UseRows)
  /-- `SpecFindings` -/
  | comparing (t : Tenant) (others : Use)
  /-- the inserts and the COMMIT -/
  | writing (t : Tenant)
  deriving DecidableEq, Repr

structure Tx where
  tenant : String
  create : Create
  stage : Stage
  deriving DecidableEq, Repr

inductive Row where
  | tenant (id : String)
  | environment (id : String)
  deriving DecidableEq, Repr

structure World where
  db : Tables
  txs : ℕ → Option Tx
  locks : List (Lock ℕ Row)

inductive Event where
  | begin (id : ℕ) (tenant : String) (create : Create)
  /-- the transaction's next statement -/
  | run (id : ℕ)
  /-- its inserts and COMMIT, with the ID that a sandbox or a job gets -/
  | commit (id : ℕ) (fresh : String)
  | abort (id : ℕ)
  | setTenantLimits (tenant : String) (l : TenantLimits)
  | makeTenant (tenant : String) (l : TenantLimits)
  | markTenantDeleting (tenant : String)
  | removeTenant (tenant : String)
  | removeSandbox (id : String)
  | finishJob (id : String)
  | deleteEnvironment (id : String)
  | removeEnvironment (id : String)
  deriving DecidableEq, Repr

namespace World

variable (types : String → Option AddonType) (w : World)

def setTx (id : ℕ) (tx : Tx) : World := { w with txs := Function.update w.txs id (some tx) }

def goTo (id : ℕ) (tx : Tx) (stage : Stage) : World := w.setTx id { tx with stage := stage }

/-- The transaction ends; its locks with it. -/
def endTx (id : ℕ) : World := { w with txs := Function.update w.txs id none, locks := release w.locks id }

def lock (id : ℕ) (row : Row) (mode : Mode) : World := { w with locks := ⟨id, row, mode⟩ :: w.locks }

/-- The lock is chosen by a read of the tenant. -/
def lockMode (t : Tenant) : Mode := if t.limits.any then .noKeyUpdate else .share

/-- a tenant without limits is not counted -/
def countIfAny (t : Tenant) : Stage := if t.limits.any then .counting t else .writing t

/-- once the tenant is locked -/
def lockedStage (create : Create) (t : Tenant) : Stage :=
  match create with
  | .deployment _ _ _ _ => .planning t
  | _ => countIfAny t

/-- `insertEnv`: whether the ID or the tenant's name of it is taken -/
def envTaken (db : Tables) (tenant id name : String) : Bool :=
  db.environments.any fun e => e.id = id ∨ (e.owner = tenant ∧ e.name = name)

/-- The statement at a stage. A failed check ends the transaction; none while a lock is waited
for. -/
def runTx (id : ℕ) (tx : Tx) : Option World :=
  match tx.stage with
  | .reading =>
    match w.db.tenants tx.tenant with
    | none => some (w.endTx id)
    | some t => some (w.goTo id tx (.locking (lockMode t)))
  | .locking mode =>
    if Free w.locks (.tenant tx.tenant) mode then
      match w.db.tenants tx.tenant with
      | none => some (w.endTx id)
      | some t =>
        if t.deleting then some (w.endTx id)
        else some ((w.lock id (.tenant tx.tenant) mode).goTo id tx (lockedStage tx.create t))
    else none
  | .planning t =>
    match tx.create with
    | .deployment env current _ _ =>
      if Free w.locks (.environment env) .update then
        match w.db.findEnvironment env with
        | none => some (w.endTx id)
        | some e =>
          if e.deleting ∨ e.deployments.length ≠ current then some (w.endTx id)
          else some ((w.lock id (.environment env) .update).goTo id tx (countIfAny t))
      else none
    | _ => none
  | .counting t => some (w.goTo id tx (.summing t (w.db.tenantUse tx.tenant)))
  | .summing t rows => some (w.goTo id tx (.checking t (useOf types rows (w.db.tenantSpecs tx.tenant none))))
  | .checking t use =>
    match tx.create with
    -- an environment that exists already asks for nothing
    | .environment env name =>
      if w.db.environments.any fun e => e.id = env ∧ e.owner = tx.tenant ∧ e.name = name then some (w.endTx id)
      else if (check t.limits use tx.create.ask).isSome then some (w.endTx id) else some (w.goTo id tx (.writing t))
    | _ =>
      if (check t.limits use tx.create.ask).isSome then some (w.endTx id)
      else if tx.create.deploys.isSome then some (w.goTo id tx (.countingOthers t))
      else some (w.goTo id tx (.writing t))
  | .countingOthers t => some (w.goTo id tx (.summingOthers t (w.db.tenantUse tx.tenant)))
  | .summingOthers t rows =>
    match tx.create.deploys with
    | none => none
    | some (env, _, _) =>
      some (w.goTo id tx (.comparing t (useOf types rows (w.db.tenantSpecs tx.tenant (some env)))))
  | .comparing t others =>
    match tx.create.deploys with
    | none => none
    | some (_, current, next) =>
      if specFindings types t.limits others current (some next) = [] then some (w.goTo id tx (.writing t))
      else some (w.endTx id)
  | .writing _ => none

end World

/-! What is written -/

namespace Tables

variable (db : Tables)

/-- A new environment, if its ID is not taken. -/
def insertEnvironment (e : Environment) : Option Tables :=
  if h : e.id ∈ db.environments.map Environment.id then none
  else some { db with
    environments := e :: db.environments
    ids := List.nodup_cons.2 ⟨h, db.ids⟩ }

/-- A write of environments, which keeps their IDs. -/
def mapEnvironments (f : Environment → Environment) (hf : ∀ e, (f e).id = e.id) : Tables where
  tenants := db.tenants
  sandboxes := db.sandboxes
  jobs := db.jobs
  environments := db.environments.map f
  ids := by
    rw [List.map_map, show Environment.id ∘ f = Environment.id from funext hf]
    exact db.ids

def deploy (env : String) (next : Spec) (e : Environment) : Environment :=
  if e.id = env then { e with deployments := next :: e.deployments } else e

def markDeleting (env : String) (e : Environment) : Environment := if e.id = env then { e with deleting := true } else e

def removeEnvironment (env : String) : Tables where
  tenants := db.tenants
  sandboxes := db.sandboxes
  jobs := db.jobs
  environments := db.environments.filter fun e => e.id ≠ env
  ids := db.ids.sublist (List.filter_sublist.map _)

/-- What a create writes; none when an ID or a name of its is taken. -/
def write (tenant fresh : String) : Create → Option Tables
  | .sandbox v m =>
    if db.sandboxes.any fun s => s.id = fresh then none
    else some { db with sandboxes := ⟨fresh, tenant, none, false, v, m⟩ :: db.sandboxes }
  -- the job's pod is a sandbox row that is not counted
  | .job v m =>
    if db.sandboxes.any fun s => s.id = fresh then none
    else some { db with
      sandboxes := ⟨fresh, tenant, none, true, v, m⟩ :: db.sandboxes
      jobs := ⟨fresh, tenant, v, m, false⟩ :: db.jobs }
  | .environment id name =>
    if World.envTaken db tenant id name then none else db.insertEnvironment ⟨id, tenant, name, false, []⟩
  | .clone id name next =>
    if World.envTaken db tenant id name then none else db.insertEnvironment ⟨id, tenant, name, false, next.toList⟩
  | .deployment env _ _ next =>
    some (db.mapEnvironments (deploy env next) fun e => by unfold deploy; split <;> rfl)

end Tables

namespace World

variable (types : String → Option AddonType)

/-- What a deployment's plan read of the environment: it is the tenant's, and its current
deployment. -/
def planned (db : Tables) (tenant : String) : Create → Bool
  | .deployment env current currentSpec _ =>
    (db.findEnvironment env).any fun e =>
      e.owner = tenant ∧ e.deployments.length = current ∧ e.deployments.head? = currentSpec
  | _ => true

def step (w : World) : Event → Option World
  | .begin id tenant create =>
    if w.txs id = none ∧ planned w.db tenant create then some (w.setTx id ⟨tenant, create, .reading⟩) else none
  | .run id => (w.txs id).bind fun tx => w.runTx types id tx
  | .commit id fresh =>
    match w.txs id with
    | some ⟨tenant, create, .writing _⟩ => (w.db.write tenant fresh create).map fun db => { w with db := db }.endTx id
    | _ => none
  | .abort id => (w.txs id).map fun _ => w.endTx id
  -- one statement, which waits for the row
  | .setTenantLimits tenant l =>
    match w.db.tenants tenant with
    | none => none
    | some t =>
      if Free w.locks (.tenant tenant) .noKeyUpdate then
        some { w with db := { w.db with tenants := Function.update w.db.tenants tenant (some { t with limits := l }) } }
      else none
  | .makeTenant tenant l =>
    if w.db.tenants tenant = none then
      some { w with db := { w.db with tenants := Function.update w.db.tenants tenant (some ⟨l, false⟩) } }
    else none
  | .markTenantDeleting tenant =>
    match w.db.tenants tenant with
    | none => none
    | some t =>
      if Free w.locks (.tenant tenant) .update then
        some { w with db := { w.db with tenants := Function.update w.db.tenants tenant (some { t with deleting := true }) } }
      else none
  | .removeTenant tenant =>
    if Free w.locks (.tenant tenant) .update then
      some { w with db := { w.db with tenants := Function.update w.db.tenants tenant none } }
    else none
  | .removeSandbox id => some { w with db := { w.db with sandboxes := w.db.sandboxes.filter fun s => s.id ≠ id } }
  | .finishJob id =>
    some { w with db := { w.db with jobs := w.db.jobs.map fun j => if j.id = id then { j with finished := true } else j } }
  | .deleteEnvironment env =>
    if Free w.locks (.environment env) .noKeyUpdate then
      some { w with db := w.db.mapEnvironments (markDeleting env) fun e => by unfold markDeleting; split <;> rfl }
    else none
  | .removeEnvironment env =>
    if Free w.locks (.environment env) .update then some { w with db := w.db.removeEnvironment env } else none

def start (db : Tables) : World := ⟨db, fun _ => none, []⟩

end World

end FeOS.Quota
