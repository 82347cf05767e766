import FeOS.Spec.Content

/-! The disk daemon's calls (`diskd/src/svc.rs`), on a node without an object store. Each is a
program on the node; the daemon's own table of live devices stands beside it. -/

namespace FeOS

open Calls Calls.Prog

section
variable {Hash : Type} [DecidableEq Hash]

/-- Each layer's manifest, and that it names the one before it as its parent. -/
def loadChainFrom : Option Hash → List Hash → DiskM Hash (List (Manifest Hash))
  | _, [] => pure []
  | want, id :: rest => do
    let m ← sys (.loadLayer id)
    if want.isSome ∧ m.parent ≠ want then fail (.status "chain not contiguous")
    else do
      let ms ← loadChainFrom (some id) rest
      pure (m :: ms)

def loadChain (ids : List Hash) : DiskM Hash (List (Manifest Hash)) := loadChainFrom none ids

/-- A top is made if there is none. `dev` is the device that the kernel gives, none if it
gives none. -/
def spawnDev (row : DeviceRow Hash) (pod : String) (dev : Option ℤ) (newRow : Bool) :
    DiskM Hash Unit := do
  let _ ← loadChain row.chain
  if !(← sys (.isFile (.top pod))) then sys (.createTop pod row.logicalSize)
  match dev with
  | none => fail (.status "no device")
  | some devId => sys (.putDeviceRow pod row devId newRow)

def createDisk (pod : String) (chain : List Hash) (logicalSize : ℕ) (dev : Option ℤ) :
    DiskM Hash Unit := do
  let ms ← loadChain chain
  match ms.getLast? with
  | none => fail (.status "empty chain")
  | some head =>
    spawnDev
      { devId := none
        chain := chain
        logicalSize := if logicalSize = 0 then head.logicalSize else logicalSize
        chunkSize := head.chunkSize
        hasTop := true
        -- every layer handed in at create is shared
        sharedDepth := chain.length } pod dev true

def openDisk (pod : String) (dev : Option ℤ) : DiskM Hash Unit := do
  match ← sys (.loadRow pod) with
  | none => fail (.status pod)
  | some row => spawnDev row pod dev false

def stopDisk (pod : String) : DiskM Hash Unit := sys (.clearDevId pod)

def removeDevice (pod : String) : DiskM Hash Unit := do
  sys (.removeRow pod)
  sys (.removeJournal pod)
  sys (.removeLiveDir pod)

end

variable {Hash : Type} [DecidableEq Hash] (L : Crates Hash)

def DEFAULT_DISK_CHUNK_SIZE : ℕ := 64 * 1024

def importBase (image : Path) (chunkSize : ℕ) : DiskM Hash (SealOutcome Hash) := do
  let logical ← sys (.metadataLen image)
  sealTop L image [] none logical (if chunkSize = 0 then DEFAULT_DISK_CHUNK_SIZE else chunkSize)

/-- Points the row at the sealed layer, then drops the top, which the layer holds; then the
head, and last the private layer that was replaced. -/
def sealCommitted (pod : String) (row : DeviceRow Hash) (depth : ℕ) (out : SealOutcome Hash) :
    DiskM Hash (SealOutcome Hash) := do
  let row' ← sys (.updateRow pod fun r =>
    { r with chain := r.chain.take depth ++ [out.layerId], devId := none, hasTop := false })
  sys (.removeFile (.top pod))
  let head ← sys (.loadHead pod)
  sys (.storeHead
    { head.getD
        { podId := pod, logicalSize := row.logicalSize, chunkSize := row.chunkSize, chain := row'.chain } with
      chain := row'.chain, sharedDepth := some (max depth 1), hasTop := false })
  match (if depth < row.chain.length then row.chain.getLast? else none) with
  | none => pure out
  | some old =>
    -- the same id is an idempotent reseal
    if old = out.layerId then pure out
    else do
      sys (.removeLayer old)
      pure out

/-- `DiskSvc::seal`: the local work, under the disk's lock. -/
def sealDisk (pod : String) : DiskM Hash (SealOutcome Hash) := do
  match ← sys (.loadRow pod) with
  | none => fail (.status s!"no device row for {pod}")
  | some row => do
    sys (.markUnheaded pod)
    let chain ← loadChain row.chain
    let depth := min row.sharedDepth chain.length
    if depth + 1 < chain.length then
      fail (.status (s!"row {pod} has {chain.length - depth} private layers " ++
        "(chain shape invariant broken)"))
    else do
      if ← sys (.isFile (.top pod)) then do
        let out ← sealTopHeld L (.top pod) chain (if depth < chain.length then chain.getLast? else none)
          row.logicalSize row.chunkSize
        sealCommitted pod row depth out
      else
        -- sealed already, by a seal whose caller lost the answer
        match row.chain.getLast? with
        | none => fail (.status "empty chain")
        | some newest => do
          let manifest ← sys (.loadLayer newest)
          pure { layerId := L.layerId manifest, manifest := manifest, stats := {} }

/-- `DiskSvc::bake`: a seal of the live top that changes no row. A write in between makes the
layer torn: it is removed again, and the call fails. -/
def bake (pod : String) : DiskM Hash (SealOutcome Hash) := do
  let writesBefore ← sys (.loadWrites pod)
  match ← sys (.loadRow pod) with
  | none => fail (.status s!"no device row for {pod}")
  | some row => do
    let chain ← loadChain row.chain
    if ← sys (.isFile (.top pod)) then do
      let out ← sealTop L (.top pod) chain none row.logicalSize row.chunkSize
      let writesAfter ← sys (.loadWrites pod)
      if writesAfter ≠ writesBefore then do
        sys (.removeLayer out.layerId)
        fail (.status "writes during bake: guest not frozen")
      else pure out
    else fail (.status "no mutable top; nothing to bake")

/-! The daemon -/

/-- A write request of a guest. -/
structure Write where
  off : ℕ
  bytes : Bytes
  deriving DecidableEq, Repr

structure Service (Hash : Type) where
  node : Node Hash
  /-- the devices that are started -/
  live : String → Bool

inductive Request (Hash : Type) where
  | importBase (image : SparseFile) (chunkSize : ℕ)
  | createDisk (pod : String) (chain : List Hash) (logicalSize : ℕ) (dev : Option ℤ)
  | openDisk (pod : String) (dev : Option ℤ)
  | write (pod : String) (w : Write)
  | stopDisk (pod : String)
  | sealDisk (pod : String) (upload : Bool) (callerStays : Option ℕ)
  /-- `during`: the writes that reach the device before the call's first step, its second … -/
  | bake (pod : String) (upload : Bool) (during : List (List Write))
  | removeDevice (pod : String)
  deriving DecidableEq, Repr

/-- `write_io` of a live device: counted, and refused past the disk's end. -/
def Node.write (pod : String) (n : Node Hash) (w : Write) : Node Hash :=
  let n := { n with writes := Function.update n.writes pod (n.writes pod + 1) }
  match n.rows pod, n.files (.top pod) with
  | some row, some f =>
    if row.logicalSize < w.off + w.bytes.length then n
    else { n with files := Function.update n.files (.top pod) (some (f.write w.off w.bytes)) }
  | _, _ => n

namespace Service

/-- The outcome of a program whose only result is that it ended. -/
def done (s : Service Hash) (r : Except Error Unit × Node Hash) : Except Error (Option Hash) × Service Hash :=
  (r.1.map fun _ => none, { s with node := r.2 })

/-- The outcome of a program that makes a layer. -/
def made (s : Service Hash) (r : Except Error (SealOutcome Hash) × Node Hash) :
    Except Error (Option Hash) × Service Hash :=
  (r.1.map fun out => some out.layerId, { s with node := r.2 })

/-- A device that was started is live. -/
def started (pod : String) (r : Except Error (Option Hash) × Service Hash) :
    Except Error (Option Hash) × Service Hash :=
  match r with
  | (.ok a, s) => (.ok a, { s with live := Function.update s.live pod true })
  | (.error e, s) => (.error e, s)

def handle (s : Service Hash) : Request Hash → Except Error (Option Hash) × Service Hash
  | .importBase image chunkSize =>
    -- the image is the caller's file, or what its compressed one unpacks to
    let n := { s.node with files := Function.update s.node.files (.image "base") (some image) }
    s.made (run (Node.exec L) (FeOS.importBase L (.image "base") chunkSize) n)
  | .createDisk pod chain logicalSize dev =>
    if pod.isEmpty ∨ chain = [] then (.error (.status "pod_id and chain required"), s)
    else if s.live pod then (.error (.status pod), s)
    else started pod (s.done (run (Node.exec L) (FeOS.createDisk pod chain logicalSize dev) s.node))
  | .openDisk pod dev =>
    -- started already: its caller lost the answer
    if s.live pod then (.ok none, s)
    else started pod (s.done (run (Node.exec L) (FeOS.openDisk pod dev) s.node))
  | .write pod w =>
    if s.live pod then (.ok none, { s with node := s.node.write pod w })
    else (.error (.status "no device"), s)
  | .stopDisk pod =>
    if s.live pod then
      Service.done { s with live := Function.update s.live pod false }
        (run (Node.exec L) (FeOS.stopDisk pod) s.node)
    else (.error (.status pod), s)
  | .sealDisk pod upload callerStays =>
    if pod.isEmpty then (.error (.status "pod_id required"), s)
    else if s.live pod then (.error (.status "device still live; stop_disk first"), s)
    else if upload then (.error (.status "S3 not configured"), s)
    else s.made (run (Node.exec L) (sealDisk L pod) { s.node with callerStays := callerStays })
  | .bake pod upload during =>
    if pod.isEmpty then (.error (.status "pod_id required"), s)
    else if s.live pod then
      let r := s.made (runAmong (Node.exec L) (fun k n => (during.getD k []).foldl (Node.write pod) n) 0
        (FeOS.bake L pod) s.node)
      -- without an object store the push fails, and the sealed layer stays
      if upload then (r.1.bind fun _ => .error (.status "bake sealed but push failed"), r.2) else r
    else (.error (.status "device not live"), s)
  | .removeDevice pod =>
    if pod.isEmpty then (.error (.status "pod_id required"), s)
    else if s.live pod then (.error (.status "device still live; stop it first"), s)
    else s.done (run (Node.exec L) (FeOS.removeDevice pod) s.node)

/-- The daemon's state after a request, whatever its answer. -/
def step (s : Service Hash) (r : Request Hash) : Service Hash := (s.handle L r).2

end Service

end FeOS
