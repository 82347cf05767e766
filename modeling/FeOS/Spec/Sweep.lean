import FeOS.Lib.Walk
import FeOS.Spec.ObjectStore

/-! The sweep of the object store: its decisions (`disk-store/src/sweep.rs`) and its three
passes (`DiskSvc::sweep` in `diskd/src/svc.rs`). Every call to the store may fail. -/

namespace FeOS

/-! `sweep.rs` -/

/-- `snapshots/<id>/<epoch>/…` → `("<id>/<epoch>", "<file>")` -/
def splitSnapshotKey (key : String) : Option (List Char × List Char) := do
  let rest ← stripPrefix "snapshots/".toList key.toList
  let (id, rest2) ← splitOnce '/' rest
  let (epoch, file) ← splitOnce '/' rest2
  if id.isEmpty || epoch.isEmpty || file.isEmpty then none else some (id ++ '/' :: epoch, file)

/-- `layers/<layer-id>.manifest` → `<layer-id>` -/
def layerIdOfKey (key : String) : Option String := do
  let rest ← stripPrefix "layers/".toList key.toList
  let id ← stripSuffix ".manifest".toList rest
  some (String.ofList id)

/-- `str::len`, in bytes -/
def utf8Len (s : List Char) : ℕ := (s.map Char.utf8Size).sum

/-- `chunks/<hh>/<hex>.zst` → the hash's hex -/
def chunkHexOfKey (key : String) : Option String := do
  let rest ← stripPrefix "chunks/".toList key.toList
  let (hh, file) ← splitOnce '/' rest
  let hex ← stripSuffix ".zst".toList file
  if utf8Len hex ≠ 64 || !hh.isPrefixOf hex then none else some (String.ofList hex)

/-- A grace that is not positive protects nothing. The difference saturates in the source, which
no comparison with a 64-bit grace can tell. -/
def tooYoung (o : RemoteObject) (now grace : ℤ) : Bool := 0 < grace && now - o.modifiedUnix < grace

structure SweepPlan where
  deadSnapshotKeys : List String
  deadBytes : ℕ
  /-- heads that survived -/
  liveHeadKeys : List String
  deriving DecidableEq, Repr

def sortKeys (keys : List String) : List String := keys.insertionSort (· ≤ ·)

def epochGroup (objects : List RemoteObject) (epoch : List Char) : List RemoteObject :=
  objects.filter fun o => (splitSnapshotKey o.key).map Prod.fst = some epoch

/-- The objects by their epoch prefix. -/
def byEpoch (objects : List RemoteObject) : List (List RemoteObject) :=
  ((objects.filterMap fun o => (splitSnapshotKey o.key).map Prod.fst).dedup).map (epochGroup objects)

def epochHead (group : List RemoteObject) : Option RemoteObject :=
  group.find? fun o => (splitSnapshotKey o.key).map Prod.snd = some "head.json".toList

/-- The caller does not name its head, and no object of it is inside the grace. -/
def epochDead (liveHeadKeys : List String) (now grace : ℤ) (group : List RemoteObject) : Bool :=
  !((epochHead group).any fun h => h.key ∈ liveHeadKeys) && !group.any (tooYoung · now grace)

/-- Pass 1 -/
def planSnapshots (objects : List RemoteObject) (liveHeadKeys : List String) (now grace : ℤ) : SweepPlan :=
  let dead := (byEpoch objects).filter (epochDead liveHeadKeys now grace)
  let kept := (byEpoch objects).filter fun group => !epochDead liveHeadKeys now grace group
  { deadSnapshotKeys := sortKeys (dead.flatten.map (·.key))
    deadBytes := (dead.flatten.map (·.size)).sum
    liveHeadKeys := sortKeys (kept.filterMap fun group => (epochHead group).map (·.key)) }

/-- What passes 2 and 3 delete: the objects of their kind that nothing names and that are past
the grace. -/
def planUnnamed (idOf : String → Option String) (objects : List RemoteObject) (named : List String)
    (now grace : ℤ) : List String × ℕ :=
  let dead := objects.filter fun o =>
    (idOf o.key).any fun id => !(id ∈ named || tooYoung o now grace)
  (sortKeys (dead.map (·.key)), (dead.map (·.size)).sum)

/-- Pass 2 -/
def planLayers : List RemoteObject → List String → ℤ → ℤ → List String × ℕ := planUnnamed layerIdOfKey

/-- Pass 3 -/
def planChunks (objects : List RemoteObject) (referenced : List Digest) : ℤ → ℤ → List String × ℕ :=
  planUnnamed chunkHexOfKey objects (referenced.map Digest.hex)

/-! `svc.rs` -/

/-- The calls of a sweep to the store that can fail, each made once at most. -/
inductive SweepCall where
  | list (sub : String)
  /-- the read of the `i`th head of the request, and the test whether it is there -/
  | liveHead (i : ℕ)
  | liveHeadThere (i : ℕ)
  /-- the read of a head that survived -/
  | keptHead (key : String)
  /-- the read of a manifest, for its parent and for its entries -/
  | parentOf (id : String)
  | entriesOf (id : String)
  | delete (key : String)
  deriving DecidableEq, Repr

/-- What a sweep does not choose: the calls that fail, and whether the budget is spent after
the first pass and after the second. -/
structure SweepEnv where
  fails : SweepCall → Option String
  budgetSpent : ℕ → Bool

structure SweepRequest where
  liveHeads : List String
  liveLayers : List String
  graceSeconds : ℕ
  dryRun : Bool
  noGrace : Bool
  deriving DecidableEq, Repr

structure SweepReport where
  snapshotObjectsSeen : ℕ := 0
  snapshotObjectsDeleted : ℕ := 0
  layersSeen : ℕ := 0
  layersDeleted : ℕ := 0
  chunksSeen : ℕ := 0
  chunksDeleted : ℕ := 0
  bytesDeleted : ℕ := 0
  budgetExhausted : Bool := false
  deletedKeys : List String := []
  deriving DecidableEq, Repr

def DEFAULT_SWEEP_GRACE_SECONDS : ℤ := 24 * 60 * 60

/-- `n as i64` of a `u64` -/
def asI64 (n : ℕ) : ℤ := if n % 2 ^ 64 < 2 ^ 63 then (n % 2 ^ 64 : ℕ) else (n % 2 ^ 64 : ℕ) - 2 ^ 64

def SweepRequest.grace (req : SweepRequest) : ℤ :=
  if req.noGrace then 0
  else if req.graceSeconds = 0 then DEFAULT_SWEEP_GRACE_SECONDS
  else asI64 req.graceSeconds

/-- Deletes every key whose request does not fail; an error if one does. -/
def Tier.deleteAll (t : Tier) (env : SweepEnv) (dryRun : Bool) (keys : List String) :
    Except String Unit × Tier :=
  if dryRun then (.ok (), t)
  else
    let errs := keys.filterMap fun k => (env.fails (.delete k)).map fun e => s!"{k}: {e}"
    let t' := { t with
      bucket := t.bucket.keep fun k => !(k ∈ keys && (env.fails (.delete k)).isNone) }
    match errs with
    | [] => (.ok (), t')
    | first :: _ => (.error s!"{errs.length} delete(s) failed, first: {first}", t')

/-- The local copy when the node has one, otherwise straight from the store. -/
def manifestForSweep (t : Tier) (fault : Option String) (idHex : String) :
    Except String (Manifest Digest) :=
  match fault, t.localLayer idHex with
  | some e, _ => .error e
  | none, some m => .ok m
  | none, none =>
    match Digest.fromHex idHex with
    | none => .error s!"bad layer id hex: {idHex}"
    | some id => (t.getManifest id).mapError fun e => s!"sweep: manifest {idHex}: {e}"

/-- A manifest that cannot be read has no parent. -/
def sweepParent (t : Tier) (env : SweepEnv) (id : String) : Option String :=
  match manifestForSweep t (env.fails (.parentOf id)) id with
  | .ok m => m.parent.map Digest.hex
  | .error _ => none

/-- Transitive parents of `ids`. -/
def expandParents (t : Tier) (env : SweepEnv) (ids : List String) : List String :=
  Walk.expand (sweepParent t env) (ids.length + (t.layers.length + t.bucket.objects.length)) ids ids

/-- The volumes' heads that the live heads name, from the `i`th head of the request on. -/
def liveVolumes (t : Tier) (env : SweepEnv) : ℕ → List String → Except String (List String)
  | _, [] => .ok []
  | i, key :: keys =>
    match t.findObject (env.fails (.liveHead i)) (env.fails (.liveHeadThere i)) key with
    | .error e => .error s!"sweep: live head {key}: {e}"
    -- a head that is gone names nothing
    | .ok none => liveVolumes t env (i + 1) keys
    | .ok (some buf) =>
      match buf.decodeHead with
      | .error e => .error s!"sweep: live head {key}: {e}"
      | .ok head => (liveVolumes t env (i + 1) keys).map (head.volumes ++ ·)

/-- The layers a head names: its chain and its memory. -/
def PodHead.layers (h : PodHead String) : List String := h.chain ++ (h.memory.map (·.layer)).toList

/-- The layers of the heads that survived; a head that cannot be read ends the sweep. -/
def keptLayers (t : Tier) (env : SweepEnv) : List String → Except String (List String)
  | [] => .ok []
  | key :: keys =>
    match (t.getObject (env.fails (.keptHead key)) key).bind Body.decodeHead with
    | .error e => .error s!"sweep: live head {key}: {e}"
    | .ok head => (keptLayers t env keys).map (head.layers ++ ·)

/-- The chunks of the manifests that survived; one that cannot be read ends the sweep. -/
def referencedChunks (t : Tier) (env : SweepEnv) : List String → Except String (List Digest)
  | [] => .ok []
  | id :: ids =>
    match manifestForSweep t (env.fails (.entriesOf id)) id with
    | .error e => .error e
    | .ok m => (referencedChunks t env ids).map (m.dataHashes ++ ·)

/-- The first pass, with the layers that are live after it. -/
def sweepSnapshots (env : SweepEnv) (now : ℤ) (req : SweepRequest) (t : Tier) :
    Except String (ℕ × SweepPlan × List String) × Tier :=
  match t.list (env.fails (.list "snapshots/")) "snapshots/" with
  | .error e => (.error e, t)
  | .ok snaps =>
    match liveVolumes t env 0 req.liveHeads with
    | .error e => (.error e, t)
    | .ok volumes =>
      let plan := planSnapshots snaps (req.liveHeads ++ volumes) now req.grace
      match t.deleteAll env req.dryRun plan.deadSnapshotKeys with
      | (.error e, t₁) => (.error e, t₁)
      | (.ok _, t₁) =>
        match keptLayers t₁ env plan.liveHeadKeys with
        | .error e => (.error e, t₁)
        | .ok named =>
          let ids := req.liveLayers ++ named
          (.ok (snaps.length, plan, ids ++ expandParents t₁ env ids), t₁)

/-- The second pass: the listing, the dead layers and their size. -/
def sweepLayers (env : SweepEnv) (now : ℤ) (req : SweepRequest) (liveLayers : List String) (t : Tier) :
    Except String (List RemoteObject × List String × ℕ) × Tier :=
  match t.list (env.fails (.list "layers/")) "layers/" with
  | .error e => (.error e, t)
  | .ok objs =>
    let (dead, bytes) := planLayers objs liveLayers now req.grace
    match t.deleteAll env req.dryRun dead with
    | (.error e, t₁) => (.error e, t₁)
    | (.ok _, t₁) =>
      -- a layer's marker is a claim about the store too
      (.ok (objs, dead, bytes),
        if req.dryRun then t₁
        else { t₁ with uploaded := fun id => t₁.uploaded id && !(id ∈ dead.filterMap layerIdOfKey) })

/-- The third pass, over the chunks of every manifest that survived the second. -/
def sweepChunks (env : SweepEnv) (now : ℤ) (req : SweepRequest) (surviving : List String) (t : Tier) :
    Except String (ℕ × List String × ℕ) × Tier :=
  match referencedChunks t env surviving with
  | .error e => (.error e, t)
  | .ok referenced =>
    match t.list (env.fails (.list "chunks/")) "chunks/" with
    | .error e => (.error e, t)
    | .ok objs =>
      let (dead, bytes) := planChunks objs referenced now req.grace
      match t.deleteAll env req.dryRun dead with
      | (.error e, t₁) => (.error e, t₁)
      | (.ok _, t₁) =>
        (.ok (objs.length, dead, bytes),
          if req.dryRun then t₁
          else { t₁ with
            marked := fun h => t₁.marked h && !(h ∈ dead.filterMap fun k => (chunkHexOfKey k).bind Digest.fromHex) })

def survivingLayers (objs : List RemoteObject) (dead : List String) : List String :=
  (objs.filterMap fun o => layerIdOfKey o.key).filter fun id => !(id ∈ dead.filterMap layerIdOfKey)

def sweep (env : SweepEnv) (now : ℤ) (req : SweepRequest) (t : Tier) : Except String SweepReport × Tier :=
  match sweepSnapshots env now req t with
  | (.error e, t₁) => (.error e, t₁)
  | (.ok (seen, plan, live), t₁) =>
    let rep : SweepReport :=
      { snapshotObjectsSeen := seen
        snapshotObjectsDeleted := plan.deadSnapshotKeys.length
        bytesDeleted := plan.deadBytes
        deletedKeys := plan.deadSnapshotKeys }
    if env.budgetSpent 0 then (.ok { rep with budgetExhausted := true }, t₁)
    else
      match sweepLayers env now req live t₁ with
      | (.error e, t₂) => (.error e, t₂)
      | (.ok (objs, dead, bytes), t₂) =>
        let rep := { rep with
          layersSeen := objs.length
          layersDeleted := dead.length
          bytesDeleted := rep.bytesDeleted + bytes
          deletedKeys := rep.deletedKeys ++ dead }
        if env.budgetSpent 1 then (.ok { rep with budgetExhausted := true }, t₂)
        else
          match sweepChunks env now req (survivingLayers objs dead) t₂ with
          | (.error e, t₃) => (.error e, t₃)
          | (.ok (chunks, deadChunks, bytes), t₃) =>
            (.ok { rep with
              chunksSeen := chunks
              chunksDeleted := deadChunks.length
              bytesDeleted := rep.bytesDeleted + bytes
              deletedKeys := rep.deletedKeys ++ deadChunks }, t₃)

end FeOS
