import FeOS.Spec.Seal

/-! What a disk reads as. A view gives the byte at each place, and none where the store has
no byte to give: a chunk that is missing, or shorter than the place asks. A layer is meant to
hold, over the layers below it, exactly the chunks that read differently. -/

namespace FeOS

abbrev View := ℕ → Option UInt8

section
variable {Hash : Type}

/-- A byte of a chunk that a digest names, or of one that reads as zeroes. -/
def chunkByte (chunks : Hash → Option Bytes) : Option Hash → ℕ → Option UInt8
  | some h, i => (chunks h).bind fun chunk => chunk[i]?
  | none, _ => some 0

/-- A chain of layers, read chunk by chunk. -/
def chainView (chunks : Hash → Option Bytes) (chain : List (Manifest Hash)) (chunkSize : ℕ) : View :=
  fun p => chunkByte chunks (parentChunk? (resolveParent chain (p / chunkSize * chunkSize)))
    (p % chunkSize)

/-- The top's data over what is below its holes. -/
def overlay (top : SparseFile) (below : View) : View :=
  fun p => if top.isData p then some (top.byteAt p) else below p

/-- What the device reads of a chain (`read_chain`): past the last layer's end all is zero. -/
def deviceView (chunks : Hash → Option Bytes) (chain : List (Manifest Hash)) : View :=
  match chain.getLast? with
  | none => fun _ => none
  | some head => fun p =>
    if head.logicalSize ≤ p / head.chunkSize * head.chunkSize then some 0
    else chainView chunks chain head.chunkSize p

/-- The content of a disk: what its device reads (`read_io`) with a top, and would without one. -/
def diskView (chunks : Hash → Option Bytes) (top : Option SparseFile) (chain : List (Manifest Hash))
    (logicalSize : ℕ) : View :=
  fun p =>
    if p < logicalSize then
      match top with
      | some f => overlay f (deviceView chunks chain) p
      | none => deviceView chunks chain p
    else none

/-- `len` bytes of a view, from `off` on. -/
def viewChunk (v : View) (off len : ℕ) : Bytes := (List.range len).map fun i => (v (off + i)).getD 0

/-- The view has a byte everywhere in the chunk. -/
def Whole (v : View) (off len : ℕ) : Prop := ∀ i < len, (v (off + i)).isSome

/-- The content of a chain, as one file. Below the first layer all is zero. -/
def chainContent (chunks : Hash → Option Bytes) (chain : List (Manifest Hash)) (logicalSize : ℕ) :
    Except Error Bytes :=
  if chain.isEmpty then .ok (List.replicate logicalSize 0) else materialize chunks chain

/-- The top's data written over a content. -/
def overlayBytes (top : SparseFile) (content : Bytes) : Bytes :=
  content.mapIdx fun p b => if top.isData p then top.byteAt p else b

/-- The layers a sealed one stands on: all of the chain but the layer it is merged with. -/
def sharedPrefix (chain : List (Manifest Hash)) (mergeWith : Option (Manifest Hash)) :
    List (Manifest Hash) := if mergeWith.isSome then chain.dropLast else chain

/-- The form of a layer's table: in order, one entry a chunk of the disk at most. -/
structure Manifest.Layer (m : Manifest Hash) (chunkSize logicalSize : ℕ) : Prop where
  chunkSize_eq : m.chunkSize = chunkSize
  logicalSize_eq : m.logicalSize = logicalSize
  sorted : Keyed.Sorted Entry.offset m.entries
  aligned : ∀ e ∈ m.entries, chunkSize ∣ e.offset
  below : ∀ e ∈ m.entries, e.offset < logicalSize
  rawLen : ∀ e ∈ m.entries, e.rawLen = chunkLenAt e.offset logicalSize chunkSize

instance (m : Manifest Hash) (chunkSize logicalSize : ℕ) : Decidable (m.Layer chunkSize logicalSize) :=
  decidable_of_iff
    (m.chunkSize = chunkSize ∧ m.logicalSize = logicalSize ∧ Keyed.Sorted Entry.offset m.entries ∧
      ∀ e ∈ m.entries, chunkSize ∣ e.offset ∧ e.offset < logicalSize ∧
        e.rawLen = chunkLenAt e.offset logicalSize chunkSize)
    ⟨fun h => ⟨h.1, h.2.1, h.2.2.1, fun e he => (h.2.2.2 e he).1, fun e he => (h.2.2.2 e he).2.1,
      fun e he => (h.2.2.2 e he).2.2⟩,
    fun h => ⟨h.chunkSize_eq, h.logicalSize_eq, h.sorted, fun e he =>
      ⟨h.aligned e he, h.below e he, h.rawLen e he⟩⟩⟩

/-- Every data chunk of the layers is there. -/
def Readable (chunks : Hash → Option Bytes) (chain : List (Manifest Hash)) : Prop :=
  ∀ m ∈ chain, ∀ h ∈ m.dataHashes, (chunks h).isSome

/-- Every data chunk of the layers is there, of the length its entry says. -/
def FullyReadable (chunks : Hash → Option Bytes) (chain : List (Manifest Hash)) : Prop :=
  ∀ m ∈ chain, ∀ e ∈ m.entries, ∀ h, e.chunk? = some h → ∃ c, chunks h = some c ∧ c.length = e.rawLen

/-- A chunk's file has the bytes its name is the digest of. -/
def ChunksValid (L : Crates Hash) (chunks : Hash → Option Bytes) : Prop :=
  ∀ h c, chunks h = some c → L.blake3 c = h

end

variable {Hash : Type} [DecidableEq Hash]

/-- The entry a chunk of content needs over what is below it: none where the chunk reads so
anyway. -/
def canonicalEntry (L : Crates Hash) (below : Option (Entry Hash)) (off : ℕ) (buf : Bytes) :
    Option (Entry Hash) :=
  if isAllZero buf then
    if (parentChunk? below).isSome then some (L.zeroEntry off buf.length) else none
  else if parentChunk? below = some (L.blake3 buf) then none
  else some (Entry.data off (L.blake3 buf) buf.length (((L.zstd buf).getD []).length % 2 ^ 32))

/-- The entries a seal makes for the chunks it touched, of a disk that reads as `v`. -/
def changedEntries (L : Crates Hash) (shared : List (Manifest Hash)) (v : View)
    (logicalSize chunkSize : ℕ) (touched : List ℕ) : List (Entry Hash) :=
  touched.filterMap fun ci =>
    canonicalEntry L (resolveParent shared (ci * chunkSize)) (ci * chunkSize)
      (viewChunk v (ci * chunkSize) (chunkLenAt (ci * chunkSize) logicalSize chunkSize))

/-- The layer a seal makes of a disk that reads as `v`: the changed chunks, and those of the
merged layer that the top left alone. -/
def sealedManifest (L : Crates Hash) (shared : List (Manifest Hash))
    (mergeWith : Option (Manifest Hash)) (v : View) (logicalSize chunkSize : ℕ) (touched : List ℕ) :
    Manifest Hash where
  chunkSize := chunkSize
  logicalSize := logicalSize
  parent := shared.getLast?.map L.layerId
  entries := sortMerged mergeWith
    (changedEntries L shared v logicalSize chunkSize touched ++ mergedEntries mergeWith touched chunkSize)

end FeOS
