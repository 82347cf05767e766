import FeOS.Spec.Node

/-! Seal (`disk-store/src/seal.rs`): turns a sparse top into an immutable layer, optionally
flattened with the last layer of the chain. -/

namespace FeOS

open Calls Calls.Prog

structure SealStats where
  chunksTouched : ℕ := 0
  chunksNew : ℕ := 0
  chunksPoolHit : ℕ := 0
  chunksZeroed : ℕ := 0
  chunksInherited : ℕ := 0
  chunksMerged : ℕ := 0
  bytesNew : ℕ := 0
  bytesDedupPool : ℕ := 0
  deriving DecidableEq, Repr

structure SealOutcome (Hash : Type) where
  layerId : Hash
  manifest : Manifest Hash
  stats : SealStats
  deriving DecidableEq, Repr

/-- What the loop over the touched chunks carries: the entries so far, and the chunks that
wait for the next wave of admissions. -/
structure SealState (Hash : Type) where
  entries : List (Entry Hash) := []
  pending : List (Hash × Bytes) := []
  pendingBytes : ℕ := 0
  stats : SealStats := {}

/-- New chunks are admitted in waves of 64 MiB. -/
def FLUSH_AT : ℕ := 64 * 2 ^ 20

section
variable {Hash : Type}

def dataExtentsFrom (top : Path) (len : ℕ) : (fuel pos : ℕ) → DiskM Hash (List (ℕ × ℕ))
  | 0, _ => pure []
  | fuel + 1, pos =>
    if pos < len then do
      match ← sys (.seekData top pos) with
      | none => pure []
      | some data =>
        if len ≤ data then pure []
        else do
          let hole ← sys (.seekHole top data)
          let rest ← dataExtentsFrom top len fuel (min hole len)
          pure ((data, min hole len) :: rest)
    else pure []

/-- The allocated extents of the file, clamped to `len`. Each turn of the source's loop
takes `pos` further, so `len` turns are enough. -/
def dataExtents (top : Path) (len : ℕ) : DiskM Hash (List (ℕ × ℕ)) := dataExtentsFrom top len len 0

/-- `chain` is ordered L0 … direct parent. -/
def resolveParent (chain : List (Manifest Hash)) (offset : ℕ) : Option (Entry Hash) :=
  chain.reverse.findSome? fun m => m.entryAt offset

/-- The digest of the chunk that provides the bytes at `offset`; none for zeroes. -/
def parentChunk? (parent : Option (Entry Hash)) : Option Hash := parent.bind Entry.chunk?

def readParentChunk (parent : Option (Entry Hash)) (rawLen : ℕ) : DiskM Hash Bytes :=
  match parentChunk? parent with
  | some h => sys (.readChunk h rawLen)
  | none => pure (List.replicate rawLen 0)

/-- Copies what the extents have of `[off, off + rawLen)` onto `base`. -/
def overlayFrom (top : Path) (off rawLen : ℕ) : List (ℕ × ℕ) → Bytes → DiskM Hash Bytes
  | [], base => pure base
  | (s, e) :: rest, base =>
    if min e (off + rawLen) ≤ max s off then overlayFrom top off rawLen rest base
    else do
      let rel := max s off - off
      let want := min e (off + rawLen) - max s off
      let got ← sys (.readExactAt top (max s off) want)
      overlayFrom top off rawLen rest (Splice.splice base rel got)

def overlayExtents (top : Path) (extents : List (ℕ × ℕ)) (off rawLen : ℕ) (base : Bytes) :
    DiskM Hash Bytes :=
  overlayFrom top off rawLen extents ((Splice.pad 0 rawLen base).take rawLen)

/-- Whether a single extent covers the chunk. -/
def coversChunk (extents : List (ℕ × ℕ)) (off rawLen : ℕ) : Bool :=
  extents.any fun (s, e) => s ≤ off && off + rawLen ≤ e

/-- The bytes of one touched chunk, from the top's extents and what is below its holes. -/
def composeChunk (top : Path) (chain : List (Manifest Hash)) (extents : List (ℕ × ℕ))
    (off rawLen : ℕ) : DiskM Hash Bytes :=
  if coversChunk extents off rawLen then sys (.readExactAt top off rawLen)
  else do
    let base ← readParentChunk (resolveParent chain off) rawLen
    overlayExtents top extents off rawLen base

/-- Fails a seal whose caller went away. Only a seal that holds its chunks has one to ask. -/
def goOn (held : Bool) : DiskM Hash Unit :=
  if held then do
    if ← sys .cancelled then fail .sealCancelled else pure ()
  else pure ()

def admitBatch : List (Hash × Bytes) → DiskM Hash Unit
  | [] => pure ()
  | (h, bytes) :: rest => do
    sys (.admitChunk h bytes)
    admitBatch rest

def SealState.flush (held : Bool) (st : SealState Hash) : DiskM Hash (SealState Hash) :=
  if st.pending.isEmpty then pure st
  else do
    goOn held
    admitBatch st.pending
    pure { st with pending := [], pendingBytes := 0 }

def SealState.push (held : Bool) (st : SealState Hash) (h : Hash) (buf : Bytes) :
    DiskM Hash (SealState Hash) :=
  let st := { st with pending := st.pending ++ [(h, buf)], pendingBytes := st.pendingBytes + buf.length }
  if FLUSH_AT ≤ st.pendingBytes then st.flush held else pure st

def SealState.countHit (st : SealState Hash) (buf : Bytes) : SealState Hash :=
  { st with stats := { st.stats with
      chunksPoolHit := st.stats.chunksPoolHit + 1
      bytesDedupPool := st.stats.bytesDedupPool + buf.length } }

def SealState.countNew (st : SealState Hash) (buf : Bytes) : SealState Hash :=
  { st with stats := { st.stats with bytesNew := st.stats.bytesNew + buf.length } }

/-- A chunk the layer has data of. One that is in the cache is held as a new one is, and
written again if it is evicted meanwhile. -/
def SealState.keep (held : Bool) (st : SealState Hash) (h : Hash) (buf : Bytes) :
    DiskM Hash (SealState Hash) := do
  if ← sys (.contains h) then
    if held then (st.countHit buf).push held h buf else pure (st.countHit buf)
  else (st.countNew buf).push held h buf

/-- Chunk indices covered by at least one extent, sorted and without repetition. -/
def touchedChunks (extents : List (ℕ × ℕ)) (chunkSize nChunks : ℕ) : List ℕ :=
  ((extents.flatMap fun (s, e) =>
    List.range' (s / chunkSize) (min ((e - 1) / chunkSize) (nChunks - 1) + 1 - s / chunkSize)).insertionSort
      (· ≤ ·)).dedup

end

variable {Hash : Type} [DecidableEq Hash] (L : Crates Hash)

/-- Files a composed chunk by what the readers of the result will resolve below it. -/
def classifyChunk (held : Bool) (classParent : Option (Entry Hash)) (off : ℕ) (buf : Bytes)
    (st : SealState Hash) : DiskM Hash (SealState Hash) :=
  match isAllZero buf, parentChunk? classParent with
  -- explicit zeros over parent data
  | true, some _ =>
    pure { st with
      entries := st.entries ++ [L.zeroEntry off buf.length]
      stats := { st.stats with chunksZeroed := st.stats.chunksZeroed + 1 } }
  -- all-zero over a zero or absent parent: inherited
  | true, none =>
    pure { st with stats := { st.stats with chunksInherited := st.stats.chunksInherited + 1 } }
  | false, parent =>
    if parent = some (L.blake3 buf) then
      pure { st with stats := { st.stats with chunksInherited := st.stats.chunksInherited + 1 } }
    else
      match L.zstd buf with
      | none => fail .compress
      | some comp => do
        let st ← st.keep held (L.blake3 buf) buf
        pure { st with
          entries := st.entries ++
            [Entry.data off (L.blake3 buf) buf.length (comp.length % 2 ^ 32)]
          stats := { st.stats with chunksNew := st.stats.chunksNew + 1 } }

def sealChunks (top : Path) (chain shared : List (Manifest Hash)) (extents : List (ℕ × ℕ))
    (held : Bool) (logicalSize chunkSize : ℕ) : List ℕ → SealState Hash → DiskM Hash (SealState Hash)
  | [], st => pure st
  | ci :: rest, st => do
    goOn held
    let off := ci * chunkSize
    let buf ← composeChunk top chain extents off (chunkLenAt off logicalSize chunkSize)
    let st ← classifyChunk L held (resolveParent shared off) off buf st
    sealChunks top chain shared extents held logicalSize chunkSize rest st

/-- The shared part of the chain: what the result's readers resolve below it. -/
def sharedOf (chain : List (Manifest Hash)) (mergeWith : Option (Manifest Hash))
    (logicalSize chunkSize : ℕ) : DiskM Hash (List (Manifest Hash)) :=
  match mergeWith with
  | none => pure chain
  | some s =>
    match chain.getLast? with
    | none => fail (.corruptManifest "merge_with set but chain is empty")
    | some last =>
      if L.layerId last ≠ L.layerId s then
        fail (.corruptManifest "merge_with layer is not the chain head")
      else if s.chunkSize ≠ chunkSize ∨ s.logicalSize ≠ logicalSize then
        fail (.corruptManifest "merge_with chunk/logical size mismatch")
      else pure chain.dropLast

/-- The merged layer's entries the top did not override. -/
def mergedEntries (mergeWith : Option (Manifest Hash)) (touched : List ℕ) (chunkSize : ℕ) :
    List (Entry Hash) :=
  match mergeWith with
  | none => []
  | some s => s.entries.filter fun e => e.offset ∉ touched.map (· * chunkSize)

/-- `manifest.entries.sort_by_key(|e| e.offset)`, which only a merge asks for -/
def sortMerged (mergeWith : Option (Manifest Hash)) (entries : List (Entry Hash)) :
    List (Entry Hash) :=
  match mergeWith with
  | none => entries
  | some _ => entries.insertionSort fun a b => a.offset ≤ b.offset

/-- The work of a seal up to its commit: the layer, all of its chunks admitted. -/
def sealStage (top : Path) (chain : List (Manifest Hash)) (mergeWith : Option (Manifest Hash))
    (held : Bool) (logicalSize chunkSize : ℕ) : DiskM Hash (Manifest Hash × SealStats) := do
  let shared ← sharedOf L chain mergeWith logicalSize chunkSize
  let topLen := min (← sys (.metadataLen top)) logicalSize
  if chunkSize = 0 then fail .panic else
  let extents ← dataExtents top topLen
  let touched := touchedChunks extents chunkSize (chunkCount logicalSize chunkSize)
  let st ← sealChunks L top chain shared extents held logicalSize chunkSize touched
    { stats := { chunksTouched := touched.length } }
  let merged := mergedEntries mergeWith touched chunkSize
  let manifest : Manifest Hash :=
    { chunkSize := chunkSize
      logicalSize := logicalSize
      parent := shared.getLast?.map L.layerId
      entries := sortMerged mergeWith (st.entries ++ merged) }
  let st ← st.flush held
  -- the last point a seal whose caller went away stops at
  goOn held
  pure (manifest, { st.stats with chunksMerged := merged.length })

def sealTopInner (top : Path) (chain : List (Manifest Hash)) (mergeWith : Option (Manifest Hash))
    (held : Bool) (logicalSize chunkSize : ℕ) : DiskM Hash (SealOutcome Hash) := do
  let (manifest, stats) ← sealStage L top chain mergeWith held logicalSize chunkSize
  sys (.commitManifest manifest)
  pure { layerId := L.layerId manifest, manifest := manifest, stats := stats }

def sealTop (top : Path) (chain : List (Manifest Hash)) (mergeWith : Option (Manifest Hash))
    (logicalSize chunkSize : ℕ) : DiskM Hash (SealOutcome Hash) :=
  sealTopInner L top chain mergeWith false logicalSize chunkSize

/-- Holds every chunk of the top the layer has data of, and stops for a caller that went. -/
def sealTopHeld (top : Path) (chain : List (Manifest Hash)) (mergeWith : Option (Manifest Hash))
    (logicalSize chunkSize : ℕ) : DiskM Hash (SealOutcome Hash) :=
  sealTopInner L top chain mergeWith true logicalSize chunkSize

/-! `materialize.rs`: the composed view of a chain, as one file -/

/-- A plain write of a file at an offset, over zeroes where the file is shorter. -/
def writeAt (f : Bytes) (off : ℕ) (data : Bytes) : Bytes :=
  Splice.splice (Splice.pad 0 off f) off data

def setLen (f : Bytes) (len : ℕ) : Bytes := (Splice.pad 0 len f).take len

def materializeFrom (chunks : Hash → Option Bytes) (head : Manifest Hash)
    (parents : List (Manifest Hash)) : List ℕ → Bytes → Except Error Bytes
  | [], f => .ok f
  | ci :: rest, f =>
    let off := ci * head.chunkSize
    match Manifest.resolve head parents off with
    | none => materializeFrom chunks head parents rest f
    | some e =>
      match e.chunk? with
      | none => materializeFrom chunks head parents rest f
      | some h =>
        match chunks h with
        | none => .error .chunkMissing
        | some data =>
          if data.length ≠ e.rawLen then .error (.chunkCorrupt data.length e.rawLen)
          else materializeFrom chunks head parents rest (writeAt f off data)

def materialize (chunks : Hash → Option Bytes) (chain : List (Manifest Hash)) : Except Error Bytes :=
  match chain.getLast? with
  | none => .error (.corruptManifest "empty chain")
  | some head =>
    if chain.any fun m => m.chunkSize ≠ head.chunkSize ∨ m.logicalSize ≠ head.logicalSize then
      .error (.corruptManifest "chain inconsistency: chunk size / logical size mismatch")
    else if head.chunkSize = 0 then .error .panic
    else
      (materializeFrom chunks head chain.dropLast
        (List.range (chunkCount head.logicalSize head.chunkSize)) []).map (setLen · head.logicalSize)

end FeOS
