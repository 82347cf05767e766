import FeOS.Lib.Calls
import FeOS.Lib.Splice
import FeOS.Spec.Manifest
import FeOS.Spec.Head

/-! What diskd keeps on a node, and the calls its programs make on it. A sparse file is its
cells: `none` is a hole. A chunk that can be read is one the cache holds or fetches again. -/

namespace FeOS

open Function

/-- A file as `SEEK_DATA` and `SEEK_HOLE` see it. A hole reads as zeroes. -/
abbrev SparseFile := List (Option UInt8)

namespace SparseFile

def isData (f : SparseFile) (p : ℕ) : Bool := (f[p]?.join).isSome

def byteAt (f : SparseFile) (p : ℕ) : UInt8 := (f[p]?.join).getD 0

/-- `lseek(pos, SEEK_DATA)`, none for `ENXIO` -/
def seekData (f : SparseFile) (pos : ℕ) : Option ℕ :=
  (List.range' pos (f.length - pos)).find? fun p => f.isData p

/-- `lseek(pos, SEEK_HOLE)`: the end of the file is a hole -/
def seekHole (f : SparseFile) (pos : ℕ) : ℕ :=
  ((List.range' pos (f.length - pos)).find? fun p => !f.isData p).getD f.length

/-- `read_exact_into`: none for `UnexpectedEof` -/
def readExact (f : SparseFile) (off len : ℕ) : Option Bytes :=
  if len = 0 ∨ off + len ≤ f.length then some ((List.range' off len).map f.byteAt) else none

/-- A write of `bytes` at `off`, which may grow the file. -/
def write (f : SparseFile) (off : ℕ) (bytes : Bytes) : SparseFile :=
  Splice.splice (Splice.pad none off f) off (bytes.map some)

end SparseFile

inductive Path where
  /-- `live/<pod>/top.img` -/
  | top (pod : String)
  /-- a file of the caller's -/
  | image (path : String)
  deriving DecidableEq, Repr

/-- A row of `diskd.state` (`diskd/src/state.rs`) -/
structure DeviceRow (Hash : Type) where
  devId : Option ℤ
  chain : List Hash
  logicalSize : ℕ
  chunkSize : ℕ
  hasTop : Bool
  sharedDepth : ℕ
  deriving DecidableEq, Repr

inductive Error where
  /-- a file is not there -/
  | notFound
  | unexpectedEof
  /-- `div_ceil` by zero -/
  | panic
  | corruptManifest (why : String)
  | chunkMissing
  | chunkCorrupt (len rawLen : ℕ)
  | compress
  | sealCancelled
  | status (why : String)
  deriving DecidableEq, Repr

structure Node (Hash : Type) where
  chunks : Hash → Option Bytes
  layers : Hash → Option (Manifest Hash)
  files : Path → Option SparseFile
  rows : String → Option (DeviceRow Hash)
  heads : String → Option (PodHead Hash)
  unheaded : String → Bool
  /-- write requests each device has had (`DevStats::writes`) -/
  writes : String → ℕ
  /-- how many more times the caller of the running Seal is found there; none while it
  stays to the end -/
  callerStays : Option ℕ

inductive Op (Hash : Type) where
  | metadataLen (p : Path)
  | seekData (p : Path) (pos : ℕ)
  | seekHole (p : Path) (pos : ℕ)
  | readExactAt (p : Path) (off len : ℕ)
  | readChunk (h : Hash) (len : ℕ)
  | contains (h : Hash)
  | admitChunk (h : Hash) (bytes : Bytes)
  | cancelled
  | commitManifest (m : Manifest Hash)
  | loadLayer (id : Hash)
  | removeLayer (id : Hash)
  | isFile (p : Path)
  | removeFile (p : Path)
  | createTop (pod : String) (len : ℕ)
  | removeLiveDir (pod : String)
  | loadRow (pod : String)
  | updateRow (pod : String) (f : DeviceRow Hash → DeviceRow Hash)
  | putDeviceRow (pod : String) (row : DeviceRow Hash) (devId : ℤ) (newRow : Bool)
  | clearDevId (pod : String)
  | removeRow (pod : String)
  | loadHead (pod : String)
  | storeHead (head : PodHead Hash)
  | markUnheaded (pod : String)
  | removeJournal (pod : String)
  | loadWrites (pod : String)

@[reducible] def Op.Ans {Hash : Type} : Op Hash → Type
  | metadataLen _ => ℕ
  | seekData _ _ => Option ℕ
  | seekHole _ _ => ℕ
  | readExactAt _ _ _ => Bytes
  | readChunk _ _ => Bytes
  | contains _ => Bool
  | admitChunk _ _ => Unit
  | cancelled => Bool
  | commitManifest _ => Unit
  | loadLayer _ => Manifest Hash
  | removeLayer _ => Unit
  | isFile _ => Bool
  | removeFile _ => Unit
  | createTop _ _ => Unit
  | removeLiveDir _ => Unit
  | loadRow _ => Option (DeviceRow Hash)
  | updateRow _ _ => DeviceRow Hash
  | putDeviceRow _ _ _ _ => Unit
  | clearDevId _ => Unit
  | removeRow _ => Unit
  | loadHead _ => Option (PodHead Hash)
  | storeHead _ => Unit
  | markUnheaded _ => Unit
  | removeJournal _ => Unit
  | loadWrites _ => ℕ

abbrev DiskM (Hash : Type) := Calls.Prog (Op Hash) Op.Ans Error

/-- One call of a program. -/
abbrev sys {Hash : Type} (o : Op Hash) : DiskM Hash o.Ans := Calls.Prog.ask o

variable {Hash : Type} [DecidableEq Hash]

/-- A cache file is written once: an admit of a chunk the cache has changes nothing. -/
def admitTo (chunks : Hash → Option Bytes) (h : Hash) (bytes : Bytes) : Hash → Option Bytes :=
  if (chunks h).isSome then chunks else update chunks h (some bytes)

namespace Node

/-- Answers a file call, with an error where the file is not there. -/
def onFile {α : Type} (n : Node Hash) (p : Path) (g : SparseFile → Except Error α) :
    Except Error α × Node Hash :=
  match n.files p with
  | none => (.error .notFound, n)
  | some f => (g f, n)

def exec (L : Crates Hash) : (o : Op Hash) → Node Hash → Except Error o.Ans × Node Hash
  | .metadataLen p, n => n.onFile p fun f => .ok f.length
  | .seekData p pos, n => n.onFile p fun f => .ok (f.seekData pos)
  | .seekHole p pos, n => n.onFile p fun f => .ok (f.seekHole pos)
  | .readExactAt p off len, n =>
    n.onFile p fun f => match f.readExact off len with
      | some bytes => .ok bytes
      | none => .error .unexpectedEof
  -- an evicted chunk is fetched again; the file is then read from its start
  | .readChunk h len, n =>
    match n.chunks h with
    | none => (.error .chunkMissing, n)
    | some c => (if len ≤ c.length then .ok (c.take len) else .error .unexpectedEof, n)
  | .contains h, n => (.ok (n.chunks h).isSome, n)
  | .admitChunk h bytes, n => (.ok (), { n with chunks := admitTo n.chunks h bytes })
  | .cancelled, n =>
    match n.callerStays with
    | none => (.ok false, n)
    | some 0 => (.ok true, n)
    | some (k + 1) => (.ok false, { n with callerStays := some k })
  -- content-addressed: an identical layer that is committed already stays
  | .commitManifest m, n =>
    (.ok (), { n with layers :=
      if (n.layers (L.layerId m)).isSome then n.layers
      else Function.update n.layers (L.layerId m) (some m) })
  | .loadLayer id, n =>
    match n.layers id with
    | none => (.error .notFound, n)
    | some m => (.ok m, n)
  | .removeLayer id, n => (.ok (), { n with layers := update n.layers id none })
  | .isFile p, n => (.ok (n.files p).isSome, n)
  | .removeFile p, n =>
    match n.files p with
    | none => (.error .notFound, n)
    | some _ => (.ok (), { n with files := update n.files p none })
  | .createTop pod len, n =>
    (.ok (), { n with files := update n.files (.top pod) (some (List.replicate len none)) })
  | .removeLiveDir pod, n =>
    (.ok (), { n with files := update n.files (.top pod) none })
  | .loadRow pod, n => (.ok (n.rows pod), n)
  | .updateRow pod f, n =>
    match n.rows pod with
    | none => (.error (.status s!"no device row for {pod}"), n)
    | some row => (.ok (f row), { n with rows := update n.rows pod (some (f row)) })
  -- `put_device_row`: the row in the state gets the device, unless it is a new one
  | .putDeviceRow pod row devId newRow, n =>
    let current := if newRow then row else (n.rows pod).getD row
    (.ok (), { n with rows := update n.rows pod (some { current with devId := some devId }) })
  | .clearDevId pod, n =>
    let cleared := (n.rows pod).map fun row => { row with devId := none }
    (.ok (), { n with rows := update n.rows pod cleared })
  | .removeRow pod, n => (.ok (), { n with rows := update n.rows pod none })
  -- a head that does not validate is as good as none
  | .loadHead pod, n => (.ok ((n.heads pod).filter fun head => head.validate.isOk), n)
  | .storeHead head, n =>
    (.ok (), { n with heads := update n.heads head.podId (some head) })
  | .markUnheaded pod, n => (.ok (), { n with unheaded := update n.unheaded pod true })
  | .removeJournal pod, n => (.ok (), { n with unheaded := update n.unheaded pod false })
  | .loadWrites pod, n => (.ok (n.writes pod), n)

end Node

end FeOS
