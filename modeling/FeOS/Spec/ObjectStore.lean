import FeOS.Spec.Manifest
import FeOS.Spec.Head

/-! The object store as diskd sees it (`disk-store/src/s3.rs`), and the keys of what it holds.
A body is what its bytes decode to: heads, manifests, and all else. -/

namespace FeOS

/-- The digits that `to_hex` writes. -/
def hexDigits : List Char := "0123456789abcdef".toList

def isDigestHex (hex : List Char) : Bool := hex.length = 64 && hex.all (· ∈ hexDigits)

/-- A digest of 32 bytes by its hex: a chunk's hash, or a layer's id. -/
structure Digest where
  hex : String
  valid : isDigestHex hex.toList = true
  deriving DecidableEq

/-- `LayerId::from_hex`, which takes capitals too. -/
def Digest.fromHex (s : String) : Option Digest :=
  let lower := String.ofList (s.toList.map Char.toLower)
  if h : isDigestHex lower.toList = true then some ⟨lower, h⟩ else none

/-- `layers/<layer-id>.manifest` -/
def layerKey (id : String) : String := "layers/" ++ id ++ ".manifest"

def manifestKey (id : Digest) : String := layerKey id.hex

/-- `chunks/<hh>/<hex>.zst` -/
def chunkKey (h : Digest) : String :=
  String.ofList ("chunks/".toList ++ h.hex.toList.take 2 ++ '/' :: h.hex.toList ++ ".zst".toList)

inductive Body where
  | head (h : PodHead String)
  | manifest (m : Manifest Digest)
  | bytes
  deriving DecidableEq

def Body.decodeHead : Body → Except String (PodHead String)
  | .head h => h.validate.map fun _ => h
  | _ => .error "head.json: not a head"

/-- What a listing says of an object. -/
structure RemoteObject where
  key : String
  size : ℕ
  modifiedUnix : ℤ
  deriving DecidableEq, Repr

structure StoredObject extends RemoteObject where
  body : Body
  deriving DecidableEq

/-- An object stands under each key at most once. -/
structure Bucket where
  objects : List StoredObject
  nodup : (objects.map (·.key)).Nodup

namespace Bucket

def find (b : Bucket) (key : String) : Option StoredObject := Keyed.look (·.key) b.objects key

/-- The objects whose keys stay. -/
def keep (b : Bucket) (stays : String → Bool) : Bucket where
  objects := b.objects.filter fun o => stays o.key
  nodup := b.nodup.sublist (List.filter_sublist.map _)

end Bucket

/-- The bucket, and what the node has of it: the layers under its state directory, and the
markers of what is uploaded. -/
structure Tier where
  bucket : Bucket
  layers : List (String × Manifest Digest)
  /-- `uploaded/<layer-id>` -/
  uploaded : String → Bool
  /-- `uploaded-chunks/<hh>/<hex>` -/
  marked : Digest → Bool

namespace Tier

/-- `S3::get_object`, or the error of the request -/
def getObject (t : Tier) (fault : Option String) (key : String) : Except String Body :=
  match fault, t.bucket.find key with
  | some e, _ => .error e
  | none, some o => .ok o.body
  | none, none => .error s!"{key} not found"

/-- `S3::has_object`: false also where the request fails -/
def hasObject (t : Tier) (fault : Option String) (key : String) : Bool :=
  fault.isNone && (t.bucket.find key).isSome

def findObject (t : Tier) (getFault hasFault : Option String) (key : String) :
    Except String (Option Body) :=
  match t.getObject getFault key with
  | .ok b => .ok (some b)
  | .error e => if t.hasObject hasFault key then .error e else .ok none

def getManifest (t : Tier) (id : Digest) : Except String (Manifest Digest) :=
  match t.bucket.find (manifestKey id) with
  | some o => match o.body with
    | .manifest m => .ok m
    | _ => .error "bad magic"
  | none => .error "not found"

/-- `layers/<layer-id>.manifest` on the node -/
def localLayer (t : Tier) (id : String) : Option (Manifest Digest) :=
  (Keyed.look Prod.fst t.layers id).map Prod.snd

def list (t : Tier) (fault : Option String) (sub : String) : Except String (List RemoteObject) :=
  match fault with
  | some e => .error e
  | none => .ok ((t.bucket.objects.filter fun o => sub.toList.isPrefixOf o.key.toList).map (·.toRemoteObject))

end Tier

end FeOS
