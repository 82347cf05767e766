import FeOS.Lib.Keyed

/-! Chunks and layer manifests (`disk-store/src/chunk.rs`, `disk-store/src/manifest.rs`).

A digest is any type: blake3 and zstd come from crates, and what the store relies on of them
is stated where it is used. Offsets and lengths are naturals; the width of a field matters
only where it is serialised. -/

namespace FeOS

abbrev Bytes := List UInt8

/-- What the store calls of the blake3 and zstd crates: a digest of bytes, a digest's own
bytes, the digest of 32 zero bytes that stands for none, and compression at level 3, which
may fail. -/
structure Crates (Hash : Type) where
  blake3 : Bytes → Hash
  asBytes : Hash → Bytes
  zeroHash : Hash
  zstd : Bytes → Option Bytes

/-! `chunk.rs` -/

def isAllZero (data : Bytes) : Bool := data.all (· == 0)

/-- `logical_size.div_ceil(chunk_size)` -/
def chunkCount (logicalSize chunkSize : ℕ) : ℕ :=
  logicalSize / chunkSize + if logicalSize % chunkSize = 0 then 0 else 1

/-- The trailing chunk may be short. -/
def chunkLenAt (offset logicalSize chunkSize : ℕ) : ℕ := min (logicalSize - offset) chunkSize

/-! `manifest.rs` -/

inductive EntryKind where
  | data
  | zero
  deriving DecidableEq, Repr

structure Entry (Hash : Type) where
  offset : ℕ
  kind : EntryKind
  hash : Hash
  rawLen : ℕ
  compLen : ℕ
  deriving DecidableEq, Repr

structure Manifest (Hash : Type) where
  chunkSize : ℕ
  logicalSize : ℕ
  /-- none for L0 -/
  parent : Option Hash
  /-- sorted by offset -/
  entries : List (Entry Hash)
  deriving DecidableEq, Repr

variable {Hash : Type}

def Entry.data (offset : ℕ) (hash : Hash) (rawLen compLen : ℕ) : Entry Hash :=
  ⟨offset, .data, hash, rawLen, compLen⟩

/-- `Entry::zero`, whose hash is 32 zero bytes -/
def Crates.zeroEntry (L : Crates Hash) (offset rawLen : ℕ) : Entry Hash :=
  ⟨offset, .zero, L.zeroHash, rawLen, 0⟩

/-- The digest of a `data` entry, which names a chunk; a `zero` entry names none. -/
def Entry.chunk? (e : Entry Hash) : Option Hash :=
  match e.kind with
  | .data => some e.hash
  | .zero => none

namespace Manifest

/-- `Manifest::new` -/
def empty (chunkSize logicalSize : ℕ) (parent : Option Hash) : Manifest Hash :=
  ⟨chunkSize, logicalSize, parent, []⟩

def dataBytes (m : Manifest Hash) : ℕ :=
  ((m.entries.filter fun e => e.kind = .data).map (·.rawLen)).sum

/-- Exact-offset lookup. The table is strictly increasing, so the binary search of the
source finds the one entry at the offset. -/
def entryAt (m : Manifest Hash) (offset : ℕ) : Option (Entry Hash) :=
  Keyed.look Entry.offset m.entries offset

/-- `Manifest::resolve`: `chain` is ordered L0 … parent of `head`. -/
def resolve (head : Manifest Hash) (chain : List (Manifest Hash)) (offset : ℕ) :
    Option (Entry Hash) :=
  match head.entryAt offset with
  | some e => some e
  | none => chain.reverse.findSome? fun m => m.entryAt offset

/-- Data chunks the manifest names. -/
def dataHashes (m : Manifest Hash) : List Hash := m.entries.filterMap Entry.chunk?

end Manifest

/-- `to_le_bytes` of an integer of `width` bytes -/
def leBytes : (width : ℕ) → ℕ → Bytes
  | 0, _ => []
  | width + 1, n => UInt8.ofNat n :: leBytes width (n / 256)

def EntryKind.toByte : EntryKind → UInt8
  | .data => 0
  | .zero => 1

def Crates.encodeEntry (L : Crates Hash) (e : Entry Hash) : Bytes :=
  leBytes 8 e.offset ++ [e.kind.toByte, 0, 0, 0] ++ L.asBytes e.hash ++
    leBytes 4 e.rawLen ++ leBytes 4 e.compLen

/-- What `layer_id` feeds the hasher. -/
def Crates.layerPreimage (L : Crates Hash) (m : Manifest Hash) : Bytes :=
  leBytes 8 m.logicalSize ++ leBytes 4 m.chunkSize ++ L.asBytes (m.parent.getD L.zeroHash) ++
    m.entries.flatMap L.encodeEntry

def Crates.layerId (L : Crates Hash) (m : Manifest Hash) : Hash := L.blake3 (L.layerPreimage m)

/-- What the store relies on of blake3: two byte strings never share a digest, digests have
one width, so that a digest is cut off its bytes in one way, and none is the one of all
zeroes. -/
structure Crates.Ideal (L : Crates Hash) : Prop where
  blake3_inj : Function.Injective L.blake3
  asBytes_split : ∀ h h' x y, L.asBytes h ++ x = L.asBytes h' ++ y → h = h' ∧ x = y
  blake3_ne_zero : ∀ b, L.blake3 b ≠ L.zeroHash

end FeOS
