import FeOS.Lib.BinarySearch
import FeOS.Spec.Manifest

/-! The binary form of a layer manifest (`disk-store/src/manifest.rs`), with digests as the 32 bytes they are. -/

namespace FeOS

/-- `[u8; 32]` -/
abbrev Hash32 := { b : Bytes // b.length = 32 }

def Hash32.zero : Hash32 := ⟨List.replicate 32 0, rfl⟩

/-- The crates at 32 bytes: blake3 and zstd themselves are any functions. -/
def Crates.at32 (blake3 : Bytes → Hash32) (zstd : Bytes → Option Bytes) : Crates Hash32 :=
  ⟨blake3, Subtype.val, .zero, zstd⟩

namespace ManifestCodec

/-- `b"DSKDMAN\0"` -/
def magic : Bytes := [68, 83, 75, 68, 77, 65, 78, 0]

def version : ℕ := 1
def headerSize : ℕ := 64
def entrySize : ℕ := 52

variable (L : Crates Hash32)

/-- The number of entries is cut to 32 bits. -/
def encode (m : Manifest Hash32) : Bytes :=
  magic ++ leBytes 4 version ++ leBytes 4 0 ++ leBytes 4 m.chunkSize ++ leBytes 4 m.entries.length ++
    leBytes 8 m.logicalSize ++ ((m.parent.map Subtype.val).getD (List.replicate 32 0)) ++ m.entries.flatMap L.encodeEntry

def ofLeBytes : Bytes → ℕ
  | [] => 0
  | b :: bytes => b.toNat + 256 * ofLeBytes bytes

/-- `buf[off..off + len]` -/
def slice (buf : Bytes) (off len : ℕ) : Bytes := (buf.drop off).take len

def u32At (buf : Bytes) (off : ℕ) : ℕ := ofLeBytes (slice buf off 4)

def u64At (buf : Bytes) (off : ℕ) : ℕ := ofLeBytes (slice buf off 8)

/-- `try_into` an array of 32 bytes -/
def hashAt (short : String) (buf : Bytes) (off : ℕ) : Except String Hash32 :=
  if h : (slice buf off 32).length = 32 then .ok ⟨slice buf off 32, h⟩ else .error short

def kindOf (k : UInt8) : Except String EntryKind :=
  if k = 0 then .ok .data else if k = 1 then .ok .zero else .error s!"bad kind {k}"

def decodeEntry (b : Bytes) : Except String (Entry Hash32) := do
  let kind ← kindOf (b.getD 8 0)
  let hash ← hashAt "bad hash" b 12
  return ⟨u64At b 0, kind, hash, u32At b 44, u32At b 48⟩

/-- The loop over the entries: how many are to come, the offset before them, and the rest of the buffer. -/
def decodeEntries : ℕ → Option ℕ → Bytes → Except String (List (Entry Hash32))
  | 0, _, _ => .ok []
  | count + 1, prevOff, rest => do
    let e ← decodeEntry (rest.take entrySize)
    if prevOff.any fun p => e.offset ≤ p then
      throw "entries not sorted"
    let entries ← decodeEntries count (some e.offset) (rest.drop entrySize)
    return e :: entries

/-- The all-zero id stands for no parent. -/
def parentOf (raw : Hash32) : Option Hash32 := if raw = .zero then none else some raw

def decode (buf : Bytes) : Except String (Manifest Hash32) := do
  if buf.length < headerSize then
    throw "short header"
  if slice buf 0 8 ≠ magic then
    throw "bad magic"
  if u32At buf 8 ≠ version then
    throw s!"version {u32At buf 8}"
  let entryCount := u32At buf 20
  let parentRaw ← hashAt "short parent" buf 32
  let need := headerSize + entryCount * entrySize
  if buf.length ≠ need then
    throw s!"size {buf.length} != expected {need}"
  let entries ← decodeEntries entryCount none (buf.drop headerSize)
  return ⟨u32At buf 16, u64At buf 24, parentOf parentRaw, entries⟩

/-- `entry_at`: the binary search by offset. -/
def entryAt (m : Manifest Hash32) (offset : ℕ) : Option (Entry Hash32) :=
  (BinarySearch.search (fun i => compare ((m.entries.map Entry.offset).getD i 0) offset) m.entries.length).bind
    fun i => m.entries[i]?

end ManifestCodec

end FeOS
