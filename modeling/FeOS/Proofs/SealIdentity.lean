import FeOS.Proofs.SealContent

/-! A private layer is given by the content it stands for. Over a fixed shared prefix its
table has an entry exactly where the disk reads differently, whatever seals led there. -/

namespace FeOS

open Calls Calls.Prog List

variable {Hash : Type} [DecidableEq Hash] {L : Crates Hash}

/-- No data entry of the layers names a chunk of zeroes. -/
def NonZeroData (L : Crates Hash) (shared : List (Manifest Hash)) : Prop :=
  ∀ m ∈ shared, ∀ h ∈ m.dataHashes, ∀ c, L.blake3 c = h → isAllZero c = false

/-- The tops sealed in turn over the shared layers, the first without a merge and each later
one merged with the result of the one before it, and the node and the private layer they end
with. Between two seals the store may gain chunks. -/
inductive Flattened (L : Crates Hash) (shared : List (Manifest Hash)) (R cs : ℕ) :
    List SparseFile → Node Hash → Manifest Hash → Prop
  | first {n n' : Node Hash} {top : Path} {f : SparseFile} {held : Bool} {out : SealOutcome Hash}
      (hvalid : ChunksValid L n.chunks) (hread : FullyReadable n.chunks shared)
      (hf : n.files top = some f)
      (hrun : run (Node.exec L) (sealTopInner L top shared none held R cs) n = (.ok out, n')) :
      Flattened L shared R cs [f] n' out.manifest
  | next {tops : List SparseFile} {n₁ n n' : Node Hash} {m : Manifest Hash} {top : Path}
      {f : SparseFile} {held : Bool} {out : SealOutcome Hash}
      (hprev : Flattened L shared R cs tops n₁ m) (hvalid : ChunksValid L n.chunks)
      (hkept : ∀ h c, n₁.chunks h = some c → n.chunks h = some c) (hf : n.files top = some f)
      (hrun : run (Node.exec L) (sealTopInner L top (shared ++ [m]) (some m) held R cs) n =
        (.ok out, n')) :
      Flattened L shared R cs (tops ++ [f]) n' out.manifest

structure Canonical (L : Crates Hash) (shared : List (Manifest Hash)) (R cs : ℕ)
    (chunks : Hash → Option Bytes) (m : Manifest Hash) : Prop where
  pos : 0 < cs
  layer : m.Layer cs R
  parent : m.parent = shared.getLast?.map L.layerId
  valid : ChunksValid L chunks
  read : FullyReadable chunks (shared ++ [m])
  entries : ∀ ci, ci * cs < R →
    m.entryAt (ci * cs) = entryOf L shared (chainView chunks (shared ++ [m]) cs) R cs (ci * cs)

variable {shared : List (Manifest Hash)} {R cs : ℕ} {chunks : Hash → Option Bytes}

theorem entryOf_congr {v w : View} {ci : ℕ} (h : ∀ p < R, p / cs = ci → v p = w p) :
    entryOf L shared v R cs (ci * cs) = entryOf L shared w R cs (ci * cs) := by
  rw [entryOf, entryOf, viewChunk_congr]
  intro i hi
  rw [chunkLenAt] at hi
  refine h _ (by omega) ?_
  rw [Nat.div_eq_iff (by omega)]
  constructor <;> omega

theorem entryOf_shared (ci : ℕ) (hlayer : ∀ m ∈ shared, m.Layer cs R) (hvalid : ChunksValid L chunks)
    (hread : FullyReadable chunks shared) (hnz : NonZeroData L shared) :
    entryOf L shared (chainView chunks shared cs) R cs (ci * cs) = none := by
  set len := chunkLenAt (ci * cs) R cs with hlen
  have hle : len ≤ cs := min_le_right _ _
  rw [entryOf, canonicalEntry]
  cases hp : parentChunk? (resolveParent shared (ci * cs)) with
  | none =>
    have hzero : isAllZero (viewChunk (chainView chunks shared cs) (ci * cs) len) = true := by
      rw [isAllZero, all_eq_true]
      intro b hb
      obtain ⟨i, hi, rfl⟩ := mem_map.1 hb
      rw [mem_range] at hi
      rw [chainView_chunk _ _ (Dvd.intro_left _ rfl) (by omega), hp]
      rfl
    simp [← hlen, hzero]
  | some h =>
    obtain ⟨e, he, hc⟩ := Option.bind_eq_some_iff.1 hp
    obtain ⟨m, hm, hem, hoff⟩ := resolveParent_mem he
    obtain ⟨c, hch, hclen⟩ := hread m hm e hem h hc
    have hraw := (hlayer m hm).rawLen e hem
    rw [hoff, ← hlen] at hraw
    have hbuf : viewChunk (chainView chunks shared cs) (ci * cs) len = c := by
      refine (eq_viewChunk (hclen.trans hraw) fun i hi => ?_).1.symm
      rw [chainView_chunk _ _ (Dvd.intro_left _ rfl) (by omega), hp, chunkByte, hch, Option.bind_some]
    have hid := hvalid h c hch
    have hnonzero := hnz m hm h (mem_filterMap.2 ⟨e, hem, hc⟩) c hid
    simp [← hlen, hbuf, hnonzero, hid]

section Step
variable {shared : List (Manifest Hash)} {R cs : ℕ} {top : Path} {f : SparseFile} {held : Bool}
  {n n' : Node Hash} {out : SealOutcome Hash} (hinj : Function.Injective L.blake3)
  (hshared : ∀ m ∈ shared, m.Layer cs R) (hvalid : ChunksValid L n.chunks)

include hinj hshared hvalid

theorem seal_step {mergeWith : Option (Manifest Hash)} {chain : List (Manifest Hash)}
    (hchain : chain = shared ++ mergeWith.toList) (hmerge : ∀ s ∈ mergeWith, s.Layer cs R)
    (hread : FullyReadable n.chunks chain) (hf : n.files top = some f)
    (hrun : run (Node.exec L) (sealTopInner L top chain mergeWith held R cs) n = (.ok out, n')) :
    0 < cs ∧ out.manifest.Layer cs R ∧ out.manifest.parent = shared.getLast?.map L.layerId ∧
      ChunksValid L n'.chunks ∧ FullyReadable n'.chunks (shared ++ [out.manifest]) ∧
      (∀ p < R, chainView n'.chunks (shared ++ [out.manifest]) cs p =
        overlay f (chainView n.chunks chain cs) p) ∧
      ∀ ci, ci * cs < R → out.manifest.entryAt (ci * cs) =
        if ∃ p < R, f.isData p = true ∧ p / cs = ci then
          entryOf L shared (chainView n'.chunks (shared ++ [out.manifest]) cs) R cs (ci * cs)
        else mergeWith.bind (·.entryAt (ci * cs)) := by
  obtain ⟨n1, hstage, hn', -⟩ := sealTopInner_ok hrun
  have hchunks : n'.chunks = n1.chunks := by rw [hn']; rfl
  have hr := readable_of_fully hread
  obtain ⟨shared', f', touched, hres⟩ := sealStage_ok hr hstage
  obtain rfl : f' = f := Option.some.inj (hres.file.symm.trans hf)
  have hlast : mergeWith = none ∨ mergeWith = chain.getLast? := by
    cases mergeWith with
    | none => exact Or.inl rfl
    | some s => exact Or.inr (by simp [hchain])
  obtain ⟨hpre, hchain'⟩ := hres.chain_eq hlast
  obtain rfl : shared' = shared := by
    rw [← hpre, hchain, sharedPrefix]
    cases mergeWith <;> simp
  have hview := fun p hp => hres.view hinj hvalid hr hchain' (fun s hs => (hmerge s hs).sorted) (p := p) hp
  rw [hchunks]
  refine ⟨hres.pos, ?_, ?_, hres.grows.valid hvalid, hres.fullyReadable hinj hvalid hread hchain', hview,
    fun ci hci => ?_⟩
  · rw [hres.manifest]
    exact sealedManifest_layer hres.pos hres.sorted hres.inside hmerge
  · rw [hres.manifest]
    rfl
  · have hiff : ci * cs ∈ touched.map (· * cs) ↔ ∃ p < R, f'.isData p = true ∧ p / cs = ci := by
      rw [← hres.touched_iff, mem_map]
      constructor
      · rintro ⟨cj, hcj, heq⟩
        exact Nat.eq_of_mul_eq_mul_right hres.pos heq ▸ hcj
      · exact fun h => ⟨ci, h, rfl⟩
    rw [hres.entryAt fun s hs => (hmerge s hs).sorted]
    simp only [hiff]
    rw [entryOf_congr fun p hp _ => (hview p hp).symm]

end Step

section Runs
variable {shared : List (Manifest Hash)} {R cs : ℕ} (hinj : Function.Injective L.blake3)
  (hshared : ∀ m ∈ shared, m.Layer cs R) (hnz : NonZeroData L shared)
include hinj hshared hnz

theorem flattened_canonical {tops : List SparseFile} {n : Node Hash} {m : Manifest Hash}
    (h : Flattened L shared R cs tops n m) : Canonical L shared R cs n.chunks m := by
  induction h with
  | @first n n' top f held out hvalid hread hf hrun =>
    obtain ⟨hpos, hlayer, hparent, hvalid', hread', hview, hentries⟩ :=
      seal_step hinj hshared hvalid (by simp) (by simp) hread hf hrun
    refine ⟨hpos, hlayer, hparent, hvalid', hread', fun ci hci => ?_⟩
    rw [hentries ci hci]
    split_ifs with htouched
    · rfl
    · -- an untouched chunk reads as the shared layers do
      rw [entryOf_congr (w := chainView n.chunks shared cs), entryOf_shared ci hshared hvalid hread hnz]
      · rfl
      · intro p hp hpci
        rw [hview p hp, overlay, if_neg]
        exact fun hd => htouched ⟨p, hp, hd, hpci⟩
  | @next tops n1 n n' m top f held out hprev hvalid hkept hf hrun ih =>
    have hread : FullyReadable n.chunks (shared ++ [m]) := ih.read.kept hkept
    have hold := chainView_kept hkept (readable_of_fully ih.read) cs
    obtain ⟨hpos, hlayer, hparent, hvalid', hread', hview, hentries⟩ :=
      seal_step hinj hshared hvalid (by simp) (by simpa using ih.layer) hread hf hrun
    refine ⟨hpos, hlayer, hparent, hvalid', hread', fun ci hci => ?_⟩
    rw [hentries ci hci]
    split_ifs with htouched
    · rfl
    · rw [Option.bind_some, ih.entries ci hci]
      refine entryOf_congr fun p hp hpci => ?_
      rw [hview p hp, overlay, if_neg, hold]
      exact fun hd => htouched ⟨p, hp, hd, hpci⟩

end Runs

theorem Canonical.layers
    {m : Manifest Hash} (h : Canonical L shared R cs chunks m) (hshared : ∀ m ∈ shared, m.Layer cs R) :
    ∀ x ∈ shared ++ [m], x.Layer cs R := by
  intro x hx
  rcases mem_append.1 hx with hx | hx
  · exact hshared x hx
  · exact mem_singleton.1 hx ▸ h.layer

theorem Canonical.eq {chunks' : Hash → Option Bytes}
    {m m' : Manifest Hash} (h : Canonical L shared R cs chunks m) (h' : Canonical L shared R cs chunks' m')
    (hsame : ∀ p < R, chainView chunks (shared ++ [m]) cs p = chainView chunks' (shared ++ [m']) cs p) :
    m = m' := by
  have hentries : m.entries = m'.entries := by
    refine h.layer.sorted.eq_of_look h'.layer.sorted fun k => ?_
    by_cases hk : cs ∣ k ∧ k < R
    · obtain ⟨⟨ci, rfl⟩, hlt⟩ := hk
      rw [mul_comm] at hlt ⊢
      exact (h.entries ci hlt).trans ((entryOf_congr fun p hp _ => hsame p hp).trans
        (h'.entries ci hlt).symm)
    · -- no table of this form has anything there
      rw [Keyed.look_eq_none.2, Keyed.look_eq_none.2]
      · rintro e he rfl
        exact hk ⟨h'.layer.aligned e he, h'.layer.below e he⟩
      · rintro e he rfl
        exact hk ⟨h.layer.aligned e he, h.layer.below e he⟩
  have hcs : m.chunkSize = m'.chunkSize := h.layer.chunkSize_eq.trans h'.layer.chunkSize_eq.symm
  have hR : m.logicalSize = m'.logicalSize := h.layer.logicalSize_eq.trans h'.layer.logicalSize_eq.symm
  have hparent : m.parent = m'.parent := h.parent.trans h'.parent.symm
  cases m
  cases m'
  simp_all

/-- The private layers that two histories of seals end with: equal if the disks read the same;
with entries only where the disk reads otherwise than the shared layers; and the same again
after a seal of a top that nothing was written to, which does not fail. -/
theorem private_layer_identity (hinj : Function.Injective L.blake3) {shared : List (Manifest Hash)}
    {R cs : ℕ} (hshared : ∀ m ∈ shared, m.Layer cs R) (hnz : NonZeroData L shared)
    {tops tops' : List SparseFile} {n n' : Node Hash} {m m' : Manifest Hash}
    (h : Flattened L shared R cs tops n m) (h' : Flattened L shared R cs tops' n' m') :
    (materialize n.chunks (shared ++ [m]) = materialize n'.chunks (shared ++ [m']) →
      m.entries = m'.entries ∧ L.layerId m = L.layerId m') ∧
    (∀ e ∈ m.entries,
      viewChunk (chainView n.chunks (shared ++ [m]) cs) e.offset e.rawLen ≠
        viewChunk (chainView n.chunks shared cs) e.offset e.rawLen) ∧
    ∀ (n₁ : Node Hash) (top : Path) (f : SparseFile) (held : Bool), ChunksValid L n₁.chunks →
      (∀ k c, n.chunks k = some c → n₁.chunks k = some c) → n₁.files top = some f →
      (∀ p < R, f.isData p = false) → Stays held n₁ →
      ∃ out n₂, run (Node.exec L) (sealTopInner L top (shared ++ [m]) (some m) held R cs) n₁ =
        (.ok out, n₂) ∧ out.layerId = L.layerId m := by
  have hcan := flattened_canonical hinj hshared hnz h
  have hcan' := flattened_canonical hinj hshared hnz h'
  have hlayers := hcan.layers hshared
  have hlayers' := hcan'.layers hshared
  refine ⟨fun hsame => ?_, fun e he heq => ?_, ?_⟩
  · rw [materialize_eq hcan.pos hlayers hcan.read (by simp),
      materialize_eq hcan.pos hlayers' hcan'.read (by simp), Except.ok.injEq] at hsame
    have hviews : ∀ p < R,
        chainView n.chunks (shared ++ [m]) cs p = chainView n'.chunks (shared ++ [m']) cs p := by
      intro p hp
      have hw := getElem?_viewChunk (chainView_whole hcan.pos hlayers hcan.read) hp
      have hw' := getElem?_viewChunk (chainView_whole hcan.pos hlayers' hcan'.read) hp
      rw [zero_add] at hw hw'
      rw [← hw, ← hw', hsame]
    rw [hcan.eq hcan' hviews]
    exact ⟨rfl, rfl⟩
  · obtain ⟨ci, hci⟩ := hcan.layer.aligned e he
    rw [mul_comm] at hci
    have hlt := hcan.layer.below e he
    have hraw := hcan.layer.rawLen e he
    have hentry : m.entryAt e.offset = some e :=
      (Keyed.look_eq_some hcan.layer.sorted.nodup).2 ⟨he, rfl⟩
    rw [hci] at hlt hentry
    -- the same bytes would need no entry
    rw [hcan.entries ci hlt, entryOf, ← hci, ← hraw, heq, hraw, hci] at hentry
    have hnone := entryOf_shared ci hshared hcan.valid
      (fun x hx => hcan.read x (mem_append_left _ hx)) hnz
    rw [entryOf] at hnone
    rw [hnone] at hentry
    cases hentry
  · intro n₁ top f held hvalid hkept hf hhole hs
    have hread := hcan.read.kept hkept
    have hnone : ∀ p < R, f.isData p = true → False := fun p hp hd => by
      rw [hhole p hp] at hd
      exact absurd hd (by simp)
    have hmerge : ∀ s ∈ some m, ∃ last, (shared ++ [m]).getLast? = some last ∧
        L.layerId last = L.layerId s ∧ s.chunkSize = cs ∧ s.logicalSize = R := by
      rintro s ⟨⟩
      exact ⟨m, by simp, rfl, hcan.layer.chunkSize_eq, hcan.layer.logicalSize_eq⟩
    obtain ⟨out, n₂, hrun⟩ := sealTopInner_ends (sealStage_ends hf hcan.pos (readable_of_fully hread) hs
      hmerge (fun hx => hx.elim fun p hp => (hnone p hp.1 hp.2).elim) fun p hp hd => (hnone p hp hd).elim)
    refine ⟨out, n₂, hrun, ?_⟩
    have hcan2 := flattened_canonical hinj hshared hnz (.next h hvalid hkept hf hrun)
    obtain ⟨-, -, -, -, -, hview, -⟩ := seal_step hinj hshared hvalid (by simp) (by simpa using hcan.layer)
      hread hf hrun
    obtain ⟨n3, -, -, hid⟩ := sealTopInner_ok hrun
    rw [hid, hcan2.eq hcan fun p hp => ?_]
    rw [hview p hp, overlay, if_neg (fun hd => hnone p hp hd),
      chainView_kept hkept (readable_of_fully hcan.read)]

def sampleSeal (chain : List (Manifest SampleHash)) (mergeWith : Option (Manifest SampleHash))
    (n : Node SampleHash) : Except Error (SealOutcome SampleHash) × Node SampleHash :=
  run (Node.exec sampleCrates) (sealTopInner sampleCrates (.top "pod") chain mergeWith false 3 2) n

def sampleByteLayer (b : UInt8) : Manifest SampleHash :=
  ⟨2, 3, some (sampleCrates.layerId sampleBase), [.data 0 (.of [1, b]) 2 2]⟩

def sampleByteNode (b : UInt8) : Node SampleHash :=
  sampleNode (fun _ => some [none, some b, none]) [[1, 2]]

def sampleSecondNode : Node SampleHash :=
  { (sampleSeal [sampleBase] none (sampleByteNode 9)).2 with files := (sampleByteNode 7).files }

/-- Two histories to the same three bytes, one by way of another byte. -/
theorem private_layer_identity_two_histories :
    ∃ (n n' : Node SampleHash) (m m' : Manifest SampleHash),
      Flattened sampleCrates [sampleBase] 3 2 [[none, some 7, none]] n m ∧
      Flattened sampleCrates [sampleBase] 3 2 [[none, some 9, none], [none, some 7, none]] n' m' ∧
      m.entries = m'.entries ∧ sampleCrates.layerId m = sampleCrates.layerId m' := by
  have hinj := sampleCrates_ideal.blake3_inj
  have hshared : ∀ m ∈ [sampleBase], m.Layer 2 3 := by decide
  have hnz : NonZeroData sampleCrates [sampleBase] := by
    intro m hm h hh c hc
    rw [mem_singleton.1 hm] at hh
    rw [mem_singleton.1 hh] at hc
    cases hc
    rfl
  have hread : ∀ b, FullyReadable (sampleByteNode b).chunks [sampleBase] := by
    intro b m hm e he h hh
    rw [mem_singleton.1 hm] at he
    rw [mem_singleton.1 he] at hh ⊢
    exact ⟨[1, 2], by rw [← Option.some.inj hh]; rfl, rfl⟩
  have h : Flattened sampleCrates [sampleBase] 3 2 [[none, some 7, none]]
      (sampleSeal [sampleBase] none (sampleByteNode 7)).2 (sampleByteLayer 7) :=
    .first (sampleNode_valid _ _) (hread 7) rfl
      (show sampleSeal [sampleBase] none (sampleByteNode 7) = (.ok ⟨_, sampleByteLayer 7, _⟩, _)
        from Prod.ext (by rfl) rfl)
  have h1 : Flattened sampleCrates [sampleBase] 3 2 [[none, some 9, none]]
      (sampleSeal [sampleBase] none (sampleByteNode 9)).2 (sampleByteLayer 9) :=
    .first (sampleNode_valid _ _) (hread 9) rfl
      (show sampleSeal [sampleBase] none (sampleByteNode 9) = (.ok ⟨_, sampleByteLayer 9, _⟩, _)
        from Prod.ext (by rfl) rfl)
  have h2 : Flattened sampleCrates [sampleBase] 3 2 ([[none, some 9, none]] ++ [[none, some 7, none]])
      (sampleSeal [sampleBase, sampleByteLayer 9] (some (sampleByteLayer 9)) sampleSecondNode).2
      (sampleByteLayer 7) :=
    .next h1 (show ChunksValid _ sampleSecondNode.chunks from
      (flattened_canonical hinj hshared hnz h1).valid) (fun _ _ hc => hc) rfl
      (show sampleSeal [sampleBase, sampleByteLayer 9] (some (sampleByteLayer 9)) sampleSecondNode =
        (.ok ⟨_, sampleByteLayer 7, _⟩, _) from Prod.ext (by rfl) rfl)
  exact ⟨_, _, _, _, h, h2, (private_layer_identity hinj hshared hnz h h2).1 rfl⟩

end FeOS
