import Mathlib.Tactic

/-! A pod's head (`disk-store/src/head.rs`) and the keys of the objects beside it. Layers are
named by a type of ids: their digests on a node, the hex of these in the object store. -/

namespace FeOS

/-- Memory side of a hibernation checkpoint. -/
structure MemoryRef (Id : Type) where
  layer : Id
  vmstateKey : String
  epoch : ℕ
  fcVersion : String
  cpuModel : String
  kernelRelease : String
  deriving DecidableEq, Repr

structure PodHead (Id : Type) where
  podId : String
  logicalSize : ℕ
  chunkSize : ℕ
  /-- L0 first -/
  chain : List Id
  /-- how many leading layers are shared; heads from before it was recorded do not say -/
  sharedDepth : Option ℕ := none
  hasTop : Bool := false
  epoch : ℕ := 0
  memory : Option (MemoryRef Id) := none
  /-- keys of the heads of the pod's volumes -/
  volumes : List String := []
  deriving DecidableEq, Repr

def stripPrefix (pre s : List Char) : Option (List Char) :=
  if pre.isPrefixOf s then some (s.drop pre.length) else none

def stripSuffix (suf s : List Char) : Option (List Char) :=
  if suf.isSuffixOf s then some (s.take (s.length - suf.length)) else none

def splitOnce (c : Char) : List Char → Option (List Char × List Char)
  | [] => none
  | a :: s => if a = c then some ([], s) else (splitOnce c s).map fun (l, r) => (a :: l, r)

/-- `str::split`, by one character -/
def splitAll (c : Char) : List Char → List (List Char)
  | [] => [[]]
  | a :: s =>
    if a = c then [] :: splitAll c s
    else match splitAll c s with
      | [] => [[a]]
      | p :: ps => (a :: p) :: ps

def headKey (podId : String) (epoch : ℕ) : String := s!"snapshots/{podId}/{epoch}/head.json"

def vmstateKey (podId : String) (epoch : ℕ) : String := s!"snapshots/{podId}/{epoch}/vmstate"

/-- Whether `key` is that of a head: `snapshots/<id>/<epoch>/head.json`. -/
def isHeadKey (key : String) : Bool :=
  match stripPrefix "snapshots/".toList key.toList with
  | none => false
  | some rest =>
    match splitAll '/' rest with
    | [id, epoch, file] =>
      !id.isEmpty && !epoch.isEmpty && epoch.all Char.isDigit && file = "head.json".toList
    | _ => false

namespace PodHead

variable {Id : Type}

/-- `PodHead::shared_depth()`: the whole chain for a head that does not say. -/
def sharedDepthOf (h : PodHead Id) : ℕ := min (h.sharedDepth.getD h.chain.length) h.chain.length

/-- `PodHead::validate`, checked on every decode -/
def validate (h : PodHead Id) : Except String Unit :=
  if h.podId.isEmpty then .error "head.json: empty pod_id"
  else if h.chain.isEmpty then .error s!"head.json for {h.podId}: empty chain"
  else if h.logicalSize = 0 ∨ h.chunkSize = 0 then
    .error (s!"head.json for {h.podId}: missing disk geometry (logical_size={h.logicalSize} " ++
      s!"chunk_size={h.chunkSize}) — a device opened from it would have size 0")
  else
    match h.sharedDepth.filter fun d => d = 0 ∨ d > h.chain.length with
    | some d =>
      .error s!"head.json for {h.podId}: {d} shared layers of a chain of {h.chain.length}"
    | none =>
      match h.volumes.find? fun key => !isHeadKey key with
      | some key => .error s!"head.json for {h.podId}: {repr key} is not the key of a head"
      | none => .ok ()

/-- A head whose `validate` passes names only heads as its volumes. -/
theorem isHeadKey_of_validate {h : PodHead Id} (hv : h.validate = .ok ()) :
    ∀ key ∈ h.volumes, isHeadKey key = true := by
  intro key hk
  unfold validate at hv
  split_ifs at hv
  split at hv
  · cases hv
  split at hv
  · cases hv
  · rename_i hf
    have := List.find?_eq_none.mp hf key hk
    simpa using this

end PodHead
end FeOS
