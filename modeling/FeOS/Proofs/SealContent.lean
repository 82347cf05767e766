import FeOS.Sanity.LayerTable
import FeOS.Proofs.NonVacuity

/-! A seal keeps the content of the disk: the new layer over the shared ones reads as the top
over the chain did. -/

namespace FeOS

open Calls Calls.Prog List

variable {Hash : Type} [DecidableEq Hash] {L : Crates Hash}

theorem overlayBytes_viewChunk (f : SparseFile) (v : View) (R : ℕ) :
    overlayBytes f (viewChunk v 0 R) = viewChunk (overlay f v) 0 R := by
  refine ext_getElem? fun p => ?_
  by_cases hp : p < R
  · by_cases hd : f.isData p = true <;> simp [overlayBytes, viewChunk, overlay, hp, hd]
  · rw [getElem?_eq_none (by simpa [overlayBytes] using hp),
      getElem?_eq_none (by simpa using hp)]

omit [DecidableEq Hash] in
theorem FullyReadable.kept {chunks chunks' : Hash → Option Bytes}
    (hkept : ∀ h c, chunks h = some c → chunks' h = some c) {chain : List (Manifest Hash)}
    (h : FullyReadable chunks chain) : FullyReadable chunks' chain := by
  intro m hm e he k hk
  obtain ⟨c, hc, hlen⟩ := h m hm e he k hk
  exact ⟨c, hkept k c hc, hlen⟩

section
variable {n n' : Node Hash} {top : Path} {chain shared : List (Manifest Hash)}
  {mergeWith : Option (Manifest Hash)} {R cs : ℕ} {f : SparseFile} {touched : List ℕ}
  {m : Manifest Hash} (hinj : Function.Injective L.blake3) (hvalid : ChunksValid L n.chunks)
  (hread : FullyReadable n.chunks chain)
  (hres : SealResult L n n' top chain shared mergeWith R cs f touched m)
include hres

include hinj hvalid hread

theorem SealResult.fullyReadable (hlast : ∀ s ∈ mergeWith, chain = shared ++ [s]) :
    FullyReadable n'.chunks (shared ++ [m]) := by
  have hread' := hread.kept hres.grows.chunks
  intro m' hm' e he h hh
  rcases mem_append.1 hm' with hm' | hm'
  · exact hread' m' (hres.shared_subset m' hm') e he h hh
  rw [mem_singleton.1 hm', hres.manifest] at he
  rcases mem_sealedManifest he with he | ⟨s, hs, he⟩
  · obtain ⟨c, hc⟩ := Option.isSome_iff_exists.1 (hres.admitted e he h hh)
    refine ⟨c, hc, ?_⟩
    have hcanon := he
    rw [changedEntries_eq] at hcanon
    obtain ⟨k, -, hk⟩ := mem_filterMap.1 hcanon
    -- a data entry's chunk is the content it was made of
    rw [entryOf, canonicalEntry] at hk
    split_ifs at hk <;> cases hk
    · exact absurd hh (by simp [Entry.chunk?, Crates.zeroEntry])
    · have hcid : L.blake3 c = h := hres.grows.valid hvalid h c hc
      rw [← Option.some.inj hh] at hcid
      rw [hinj hcid]
      rfl
  · exact hread' s (by simp [hlast s hs]) e he h hh

end

/-- The content of the disk before and after a seal, held or not, with or without a merge: the
sealed chain is the old one with the top's extents written over it, and the new layer has the
form of one. -/
theorem seal_preserves_content (hinj : Function.Injective L.blake3) {top : Path}
    {chain : List (Manifest Hash)} {mergeWith : Option (Manifest Hash)} {held : Bool} {R cs : ℕ}
    {n n' : Node Hash} {out : SealOutcome Hash} (hchain : ∀ m ∈ chain, m.Layer cs R)
    (hmerge : mergeWith = none ∨ mergeWith = chain.getLast?) (hvalid : ChunksValid L n.chunks)
    (hread : FullyReadable n.chunks chain)
    (hrun : run (Node.exec L) (sealTopInner L top chain mergeWith held R cs) n = (.ok out, n')) :
    ∃ f old new, n.files top = some f ∧ chainContent n.chunks chain R = .ok old ∧
      materialize n'.chunks (sharedPrefix chain mergeWith ++ [out.manifest]) = .ok new ∧
      old.length = R ∧ new = overlayBytes f old ∧
      out.manifest.parent = (sharedPrefix chain mergeWith).getLast?.map L.layerId ∧
      out.manifest.Layer cs R := by
  obtain ⟨n1, hstage, hn', -⟩ := sealTopInner_ok hrun
  have hr := readable_of_fully hread
  obtain ⟨shared, f, touched, hres⟩ := sealStage_ok hr hstage
  obtain ⟨hshared, hlast⟩ := hres.chain_eq hmerge
  have hmem : ∀ s ∈ mergeWith, s ∈ chain := fun s hs => by simp [hlast s hs]
  have hlayer : out.manifest.Layer cs R := by
    rw [hres.manifest]
    exact sealedManifest_layer hres.pos hres.sorted hres.inside fun s hs => hchain s (hmem s hs)
  have hchunks : n'.chunks = n1.chunks := by rw [hn']; rfl
  -- both sides as views
  have hold : chainContent n.chunks chain R = .ok (viewChunk (chainView n.chunks chain cs) 0 R) := by
    rw [chainContent]
    cases chain with
    | nil =>
      refine congrArg Except.ok (ext_getElem? fun p => ?_)
      by_cases hp : p < R <;> simp [viewChunk, chainView, resolveParent, parentChunk?, chunkByte, hp]
    | cons a l => exact materialize_eq hres.pos hchain hread (cons_ne_nil a l)
  have hnew : materialize n'.chunks (shared ++ [out.manifest]) =
      .ok (viewChunk (chainView n1.chunks (shared ++ [out.manifest]) cs) 0 R) := by
    rw [hchunks]
    refine materialize_eq hres.pos (fun m hm => ?_) (hres.fullyReadable hinj hvalid hread hlast) (by simp)
    rcases mem_append.1 hm with hm | hm
    · exact hchain m (hres.shared_subset m hm)
    · rw [mem_singleton.1 hm]
      exact hlayer
  rw [hshared]
  refine ⟨f, _, _, hres.file, hold, hnew, by simp, ?_, ?_, hlayer⟩
  · rw [overlayBytes_viewChunk]
    refine viewChunk_congr fun p hp => ?_
    rw [zero_add]
    exact hres.view hinj hvalid hr hlast (fun s hs => (hchain s (hmem s hs)).sorted) hp
  · rw [hres.manifest]
    rfl

/-- A base of one chunk of two bytes, on a disk of three. -/
def sampleBase : Manifest SampleHash := ⟨2, 3, none, [.data 0 (.of [1, 2]) 2 2]⟩

/-- A private layer on it that has the short last chunk. -/
def samplePrivate : Manifest SampleHash :=
  ⟨2, 3, some (sampleCrates.layerId sampleBase), [.data 2 (.of [5]) 1 1]⟩

def sampleSealNode : Node SampleHash :=
  sampleNode (fun _ => some [none, some 7, none]) [[1, 2], [5]]

/-- The byte is composed with the base's, the short last chunk is the merged layer's. -/
def sampleSealed : Manifest SampleHash :=
  ⟨2, 3, some (sampleCrates.layerId sampleBase), [.data 0 (.of [1, 7]) 2 2, .data 2 (.of [5]) 1 1]⟩

theorem sample_readable :
    FullyReadable sampleSealNode.chunks [sampleBase, samplePrivate] := by
  intro m hm e he h hh
  rcases mem_pair.1 hm with rfl | rfl
  · rw [mem_singleton.1 he] at hh ⊢
    exact ⟨[1, 2], by rw [← Option.some.inj hh]; rfl, rfl⟩
  · rw [mem_singleton.1 he] at hh ⊢
    exact ⟨[5], by rw [← Option.some.inj hh]; rfl, rfl⟩

theorem seal_preserves_content_merged :
    ∃ f old new, sampleSealNode.files (.top "pod") = some f ∧
      chainContent sampleSealNode.chunks [sampleBase, samplePrivate] 3 = .ok old ∧
      materialize (run (Node.exec sampleCrates) (sealTopInner sampleCrates (.top "pod")
        [sampleBase, samplePrivate] (some samplePrivate) false 3 2) sampleSealNode).2.chunks
        [sampleBase, sampleSealed] = .ok new ∧
      old.length = 3 ∧ new = overlayBytes f old ∧
      sampleSealed.parent = [sampleBase].getLast?.map sampleCrates.layerId ∧ sampleSealed.Layer 2 3 :=
  seal_preserves_content sampleCrates_ideal.blake3_inj
    (show ∀ m ∈ [sampleBase, samplePrivate], m.Layer 2 3 by decide) (Or.inr rfl) (sampleNode_valid _ _) sample_readable
    (show run (Node.exec sampleCrates) (sealTopInner sampleCrates (.top "pod")
        [sampleBase, samplePrivate] (some samplePrivate) false 3 2) sampleSealNode =
      (.ok ⟨sampleCrates.layerId sampleSealed, sampleSealed,
        { chunksTouched := 1, chunksNew := 1, chunksMerged := 1, bytesNew := 2 }⟩, _)
      from Prod.ext (by rfl) rfl)

end FeOS
