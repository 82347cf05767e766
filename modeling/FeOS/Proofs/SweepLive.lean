import FeOS.Sanity.SweepTaken
import FeOS.Proofs.NonVacuity

/-! What a sweep deletes of what its caller named live, whatever reads of it fail. A manifest
that cannot be read ends the walk along its parents, and the sweep goes on without them. -/

namespace FeOS

open List

variable {env : SweepEnv} {now : ℤ} {req : SweepRequest} {t : Tier}

structure LiveHead (req : SweepRequest) (t : Tier) (o : StoredObject) (epoch : List Char) : Prop where
  mem : o ∈ t.bucket.objects
  named : o.key ∈ req.liveHeads
  head : splitSnapshotKey o.key = some (epoch, "head.json".toList)

/-- The layers that the caller named, those of the live heads, and the parents of them all. -/
inductive LiveLayer (req : SweepRequest) (t : Tier) : String → Prop
  | named {id : String} (h : id ∈ req.liveLayers) : LiveLayer req t id
  | head {o : StoredObject} {e : List Char} {head : PodHead String} {id : String} (h : LiveHead req t o e)
      (hd : o.body.decodeHead = .ok head) (hid : id ∈ head.layers) : LiveLayer req t id
  | parent {id : String} {o : StoredObject} {m : Manifest Digest} {p : Digest} (h : LiveLayer req t id)
      (ho : o ∈ t.bucket.objects) (hkey : o.key = layerKey id) (hm : o.body = .manifest m)
      (hp : m.parent = some p) : LiveLayer req t p.hex

/-- What the caller named live: the objects of a live head's epoch, the manifests of the live
layers, and the chunks that these name. -/
inductive Protected (req : SweepRequest) (t : Tier) : String → Prop
  | epoch {o : StoredObject} {e f : List Char} {key : String} (h : LiveHead req t o e)
      (hkey : splitSnapshotKey key = some (e, f)) : Protected req t key
  | layer {id : String} (h : LiveLayer req t id) : Protected req t (layerKey id)
  | chunk {id : String} {o : StoredObject} {m : Manifest Digest} {c : Digest} (h : LiveLayer req t id)
      (ho : o ∈ t.bucket.objects) (hkey : o.key = layerKey id) (hm : o.body = .manifest m)
      (hc : c ∈ m.dataHashes) : Protected req t (chunkKey c)

/-! What each kind of key is protected by -/

theorem Protected.liveHead {key : String} (h : Protected req t key) {e f : List Char}
    (hs : splitSnapshotKey key = some (e, f)) : ∃ o, LiveHead req t o e := by
  cases h with
  | @epoch o e' f' _ h hkey =>
    rw [hs] at hkey
    cases hkey
    exact ⟨o, h⟩
  | layer h =>
    rw [splitSnapshotKey_layerKey] at hs
    cases hs
  | chunk h ho hkey hm hc =>
    rw [splitSnapshotKey_of_chunk (chunkHexOfKey_chunkKey _)] at hs
    cases hs

theorem Protected.liveLayer {key id : String} (h : Protected req t key) (hkey : key = layerKey id) :
    LiveLayer req t id := by
  cases h with
  | epoch h hs =>
    rw [hkey, splitSnapshotKey_layerKey] at hs
    cases hs
  | layer h => exact layerKey_inj hkey ▸ h
  | @chunk _ _ _ c h ho _ hm hc =>
    have hchunk := chunkHexOfKey_chunkKey c
    rw [hkey, chunkHexOfKey_layerKey] at hchunk
    cases hchunk

theorem Protected.chunkOf {key hex : String} (h : Protected req t key) (hhex : chunkHexOfKey key = some hex) :
    ∃ id o m c, LiveLayer req t id ∧ o ∈ t.bucket.objects ∧ o.key = layerKey id ∧ o.body = .manifest m ∧
      c ∈ m.dataHashes ∧ c.hex = hex := by
  cases h with
  | epoch h hs =>
    rw [splitSnapshotKey_of_chunk hhex] at hs
    cases hs
  | layer h =>
    rw [chunkHexOfKey_layerKey] at hhex
    cases hhex
  | @chunk id o m c h ho hkey hm hc =>
    rw [chunkHexOfKey_chunkKey, Option.some.injEq] at hhex
    exact ⟨id, o, m, c, h, ho, hkey, hm, hc, hhex⟩

theorem sweepParent_eq (hf : t.Formed) {o : StoredObject} {id : String} {m : Manifest Digest}
    (ho : o ∈ t.bucket.objects) (hkey : o.key = layerKey id) (hm : o.body = .manifest m)
    (hread : env.fails (.parentOf id) = none) : sweepParent t env id = m.parent.map Digest.hex := by
  obtain ⟨m', hm'⟩ := manifestForSweep_of_mem hf ho hkey hm
  rw [sweepParent, hread, hm', manifestForSweep_eq hf ho hkey hm hm']

theorem LiveLayer.walked (hf : t.Formed) (hreads : ∀ id, env.fails (.parentOf id) = none) {id : String}
    (h : LiveLayer req t id) : Walked env now req t id := by
  induction h with
  | named h => exact .root (Or.inl h)
  | @head o e head id h hd hid =>
    refine .root (Or.inr ⟨o, head, ⟨h.mem, ⟨e, h.head⟩, ?_⟩, hd, hid⟩)
    rintro ⟨e', f, hs, hdead, -⟩
    rw [h.head] at hs
    cases hs
    exact (hdead o h.mem h.head).1 h.named
  | parent _ ho hkey hm hp ih =>
    refine .parent ih ?_
    rw [sweepParent_eq hf ho hkey hm (hreads _), hp, Option.map_some]

/-- A sweep deletes nothing that its caller named live, exactly when its walk finds every live
layer that is old, or it does not get to delete layers. -/
theorem sweep_keeps_live_iff (hf : t.Formed) :
    (∀ o ∈ t.bucket.objects, o ∉ (sweep env now req t).2.bucket.objects → ¬ Protected req t o.key) ↔
      (req.dryRun = false → LayersListed env now req t → ∀ id, LiveLayer req t id →
        ∀ o ∈ t.bucket.objects, o.key = layerKey id → LayerStays env now req t o id) := by
  constructor
  · intro h hdry hlisted id hid o ho hkey
    by_contra hstays
    refine h o ho (sweep_takes_layer hf hlisted hdry hkey hstays) ?_
    rw [hkey]
    exact .layer hid
  · intro h o ho hlost hprot
    obtain ⟨hdry, ⟨e, f, hs, hdead, -⟩ | ⟨hlisted, ⟨id, hkey, hstays⟩ | ⟨hex, hhex, hchunks⟩⟩⟩ :=
      sweep_lost hf ho hlost
    · obtain ⟨o', hlive⟩ := hprot.liveHead hs
      exact (hdead o' hlive.mem hlive.head).1 hlive.named
    · exact hstays (h hdry hlisted id (hprot.liveLayer hkey) o ho hkey)
    · obtain ⟨id, o', m, c, hlive, ho', hkey, hm, hc, hhex'⟩ := hprot.chunkOf hhex
      exact hchunks o' ho' id m hkey hm (h hdry hlisted id hlive o' ho' hkey) c hc hhex'

/-- A base layer with one chunk, and a baked layer on it. -/
def baseObject : StoredObject := ⟨⟨manifestKey digestA, 100, 0⟩, .manifest ⟨1, 1, none, [.data 0 digestC 1 1]⟩⟩

def bakedObject : StoredObject := ⟨⟨manifestKey digestB, 100, 0⟩, .manifest ⟨1, 1, some digestA, []⟩⟩

def bakedTier : Tier where
  bucket :=
    { objects := [baseObject, bakedObject, chunkObject]
      nodup := by
        have hne : layerKey digestA.hex ≠ layerKey digestB.hex :=
          fun h => digestA_ne_digestB (layerKey_inj h)
        simp [baseObject, bakedObject, chunkObject, hne, manifestKey, (chunkKey_ne_layerKey digestC _).symm] }
  layers := []
  uploaded := fun _ => false
  marked := fun _ => false

def bakedRequest : SweepRequest := ⟨[], [digestB.hex], 0, false, false⟩

theorem bakedTier_formed : bakedTier.Formed := by
  refine ⟨fun o ho id m hkey hm => ?_, nofun⟩
  simp only [bakedTier, mem_cons, not_mem_nil, or_false] at ho
  rcases ho with rfl | rfl | rfl
  · exact ⟨digestA, layerKey_inj hkey⟩
  · exact ⟨digestB, layerKey_inj hkey⟩
  · cases hm

theorem sweep_keeps_live_baked : Protected bakedRequest bakedTier bakedObject.key ∧
    ∀ o ∈ bakedTier.bucket.objects, o ∉ (sweep (failing []) 1000000 bakedRequest bakedTier).2.bucket.objects →
      ¬ Protected bakedRequest bakedTier o.key := by
  refine ⟨.layer (.named mem_cons_self), (sweep_keeps_live_iff bakedTier_formed).2 ?_⟩
  intro _ _ _ hid _ _ _
  exact Or.inl (hid.walked bakedTier_formed fun _ => rfl)

theorem bakedTier_snapshots {o : StoredObject} (ho : o ∈ bakedTier.bucket.objects) :
    splitSnapshotKey o.key = none := by
  simp only [bakedTier, mem_cons, not_mem_nil, or_false] at ho
  rcases ho with rfl | rfl | rfl
  · exact splitSnapshotKey_layerKey _
  · exact splitSnapshotKey_layerKey _
  · exact splitSnapshotKey_of_chunk (chunkHexOfKey_chunkKey _)

/-- The base of the live layer is deleted: its child could not be read. -/
theorem unread_layer_loses_its_base :
    baseObject ∈ bakedTier.bucket.objects ∧ Protected bakedRequest bakedTier baseObject.key ∧
      baseObject ∉ (sweep (failing [.parentOf digestB.hex]) 1000000 bakedRequest bakedTier).2.bucket.objects := by
  have hkept : ∀ o, ¬ KeptHead (failing [.parentOf digestB.hex]) 1000000 bakedRequest bakedTier o := by
    rintro o ⟨ho, ⟨e, hs⟩, -⟩
    rw [bakedTier_snapshots ho] at hs
    cases hs
  have hlive : LiveLayer bakedRequest bakedTier digestA.hex :=
    .parent (o := bakedObject) (.named mem_cons_self) (by simp [bakedTier]) rfl rfl rfl
  -- the walk ends at the baked layer
  have hwalked : ∀ id, Walked (failing [.parentOf digestB.hex]) 1000000 bakedRequest bakedTier id →
      id = digestB.hex := by
    intro id h
    induction h with
    | root h =>
      rcases h with h | ⟨o, -, ho, -⟩
      · exact mem_singleton.1 h
      · exact absurd ho (hkept o)
    | parent _ hp ih =>
      subst ih
      simp [sweepParent, failing, manifestForSweep] at hp
  have hlisted : LayersListed (failing [.parentOf digestB.hex]) 1000000 bakedRequest bakedTier := by
    refine ⟨⟨by simp [failing], by rintro _ _ ⟨⟩, Or.inr fun o _ _ => by simp [failing], fun o ho => absurd ho (hkept o)⟩,
      rfl, by simp [failing]⟩
  refine ⟨mem_cons_self, .layer hlive, sweep_takes_layer bakedTier_formed hlisted rfl rfl ?_⟩
  exact not_layerStays.2 ⟨fun h => digestA_ne_digestB (hwalked _ h), by decide, by simp [failing]⟩

end FeOS
