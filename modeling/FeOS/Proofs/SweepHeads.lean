import FeOS.Proofs.SweepLive

/-! The heads that a sweep leaves. A head that survives keeps its epoch and its layers, but the
heads of its volumes survive only for reasons of their own: a sweep looks for the volumes of
the heads that its caller named, and of no others. -/

namespace FeOS

open List

variable {env : SweepEnv} {now : ℤ} {req : SweepRequest} {t : Tier} {o : StoredObject}

structure IsHead (b : Bucket) (o : StoredObject) (head : PodHead String) : Prop where
  mem : o ∈ b.objects
  key : ∃ e, splitSnapshotKey o.key = some (e, "head.json".toList)
  decodes : o.body.decodeHead = .ok head

structure HeadWhole (b : Bucket) (head : PodHead String) : Prop where
  layers : ∀ id ∈ head.layers, ∃ o ∈ b.objects, ∃ m, o.key = layerKey id ∧ o.body = .manifest m ∧
    ∀ c ∈ m.dataHashes, b.Has (chunkKey c)
  vmstate : ∀ mem ∈ head.memory, b.Has mem.vmstateKey
  volumes : ∀ v ∈ head.volumes, b.Has v

def OwnEpoch (o : StoredObject) (head : PodHead String) : Prop :=
  ∀ mem ∈ head.memory, ∀ e, splitSnapshotKey o.key = some (e, "head.json".toList) →
    ∃ f, splitSnapshotKey mem.vmstateKey = some (e, f)

theorem decodeHead_volumes {b : Body} {head : PodHead String} (h : b.decodeHead = .ok head) :
    ∀ v ∈ head.volumes, isHeadKey v = true := by
  cases b with
  | head h' =>
    simp only [Body.decodeHead] at h
    cases hv : h'.validate with
    | error e =>
      rw [hv] at h
      cases h
    | ok u =>
      rw [hv] at h
      cases h
      exact PodHead.isHeadKey_of_validate hv
  | manifest m => cases h
  | bytes => cases h

section Sweep
variable (hf : t.Formed)
include hf

theorem keptHead_of_survives (hfirst : FirstPass env now req t) (hdry : req.dryRun = false)
    (hdeletes : ∀ key, env.fails (.delete key) = none) {o : StoredObject} {e : List Char}
    (ho : o ∈ (sweep env now req t).2.bucket.objects) (hs : splitSnapshotKey o.key = some (e, "head.json".toList)) :
    KeptHead env now req t o :=
  ⟨sweep_sub hf ho, ⟨e, hs⟩, fun hdead => sweep_takes_snapshot hf hfirst hdry hdead (hdeletes _) ho⟩

theorem KeptHead.epoch_survives {o o' : StoredObject} (hkept : KeptHead env now req t o)
    (ho' : o' ∈ t.bucket.objects) {e f : List Char}
    (hs : splitSnapshotKey o.key = some (e, "head.json".toList)) (hs' : splitSnapshotKey o'.key = some (e, f)) :
    o' ∈ (sweep env now req t).2.bucket.objects := by
  by_contra hlost
  obtain ⟨-, ⟨e', f', hse, hdead⟩ | ⟨-, ⟨id, hkey, -⟩ | ⟨hex, hhex, -⟩⟩⟩ := sweep_lost hf ho' hlost
  · rw [hs'] at hse
    cases hse
    exact hkept.kept ⟨e, _, hs, hdead⟩
  · rw [hkey, splitSnapshotKey_layerKey] at hs'
    cases hs'
  · rw [splitSnapshotKey_of_chunk hhex] at hs'
    cases hs'

theorem Walked.survives {id : String} {m : Manifest Digest} (hw : Walked env now req t id)
    (ho : o ∈ t.bucket.objects) (hkey : o.key = layerKey id) (hm : o.body = .manifest m) :
    o ∈ (sweep env now req t).2.bucket.objects ∧ ∀ c ∈ m.dataHashes, t.bucket.Has (chunkKey c) →
      (sweep env now req t).2.bucket.Has (chunkKey c) := by
  have hstays : LayerStays env now req t o id := Or.inl hw
  constructor
  · by_contra hlost
    obtain ⟨-, ⟨e, f, hs, -⟩ | ⟨-, ⟨id', hkey', hgone⟩ | ⟨hex, hhex, -⟩⟩⟩ := sweep_lost hf ho hlost
    · rw [hkey, splitSnapshotKey_layerKey] at hs
      cases hs
    · rw [← layerKey_inj (hkey.symm.trans hkey')] at hgone
      exact hgone hstays
    · rw [hkey, chunkHexOfKey_layerKey] at hhex
      cases hhex
  · rintro c hc ⟨o', ho', hkey'⟩
    refine ⟨o', ?_, hkey'⟩
    have hhex : chunkHexOfKey o'.key = some c.hex := by rw [hkey', chunkHexOfKey_chunkKey]
    by_contra hlost
    obtain ⟨-, ⟨e, f, hs, -⟩ | ⟨-, ⟨id', hkey'', -⟩ | ⟨hex, hhex', hnot⟩⟩⟩ := sweep_lost hf ho' hlost
    · rw [splitSnapshotKey_of_chunk hhex] at hs
      cases hs
    · rw [hkey'', chunkHexOfKey_layerKey] at hhex
      cases hhex
    · rw [hhex, Option.some.injEq] at hhex'
      exact hnot o ho id m hkey hm hstays c hc hhex'

theorem KeptHead.whole {head : PodHead String} (hkept : KeptHead env now req t o)
    (hd : o.body.decodeHead = .ok head) (hwhole : HeadWhole t.bucket head) (hown : OwnEpoch o head)
    (hvols : ∀ v ∈ head.volumes, ∃ o', KeptHead env now req t o' ∧ o'.key = v) :
    HeadWhole (sweep env now req t).2.bucket head where
  layers := by
    intro id hid
    obtain ⟨o', ho', m, hkey, hm, hchunks⟩ := hwhole.layers id hid
    have hw : Walked env now req t id := .root (Or.inr ⟨o, head, hkept, hd, hid⟩)
    obtain ⟨hlayer, hchunk⟩ := hw.survives hf ho' hkey hm
    exact ⟨o', hlayer, m, hkey, hm, fun c hc => hchunk c hc (hchunks c hc)⟩
  vmstate := by
    intro mem hmem
    obtain ⟨o', ho', hkey⟩ := hwhole.vmstate mem hmem
    obtain ⟨e, hs⟩ := hkept.head
    obtain ⟨f, hs'⟩ := hown mem hmem e hs
    rw [← hkey] at hs'
    exact ⟨o', hkept.epoch_survives hf ho' hs hs', hkey⟩
  volumes := by
    intro v hv
    obtain ⟨o', hkept', hkey⟩ := hvols v hv
    obtain ⟨e, hs⟩ := hkept'.head
    exact ⟨o', hkept'.epoch_survives hf hkept'.mem hs hs, hkey⟩

end Sweep

/-- Over a bucket whose heads are whole, a sweep that completes leaves every head whole exactly
when every volume that a kept head names has a head that is kept. -/
theorem sweep_leaves_heads_whole_iff (hf : t.Formed)
    (hwhole : ∀ o head, IsHead t.bucket o head → HeadWhole t.bucket head ∧ OwnEpoch o head)
    (hcalls : ∀ c, env.fails c = none) {rep : SweepReport} (hok : (sweep env now req t).1 = .ok rep) :
    (∀ o head, IsHead (sweep env now req t).2.bucket o head → HeadWhole (sweep env now req t).2.bucket head) ↔
      (req.dryRun = false → ∀ o head, KeptHead env now req t o → o.body.decodeHead = .ok head →
        ∀ v ∈ head.volumes, ∃ o', KeptHead env now req t o' ∧ o'.key = v) := by
  have hfirst : FirstPass env now req t := firstPass_of_ok hok
  constructor
  · intro h hdry o head hkept hd v hv
    obtain ⟨e, hs⟩ := hkept.head
    have hstays := hkept.epoch_survives hf hkept.mem hs hs
    obtain ⟨o', ho', rfl⟩ := (h o head ⟨hstays, ⟨e, hs⟩, hd⟩).volumes v hv
    obtain ⟨e', hs'⟩ := splitSnapshotKey_of_isHeadKey (decodeHead_volumes hd _ hv)
    exact ⟨o', keptHead_of_survives hf hfirst hdry (fun _ => hcalls _) ho' hs', rfl⟩
  · rintro h o head ⟨ho, ⟨e, hs⟩, hd⟩
    obtain ⟨hw, hown⟩ := hwhole o head ⟨sweep_sub hf ho, ⟨e, hs⟩, hd⟩
    cases hdry : req.dryRun with
    | true =>
      have hsame : (sweep env now req t).2.bucket = t.bucket := by
        obtain ⟨snaps, layers, chunks, h⟩ := sweep_taken env now req hf
        rw [h.bucket, hdry]
        simp [Bucket.keep, staysAfter]
      rw [hsame]
      exact hw
    | false =>
      have hkept := keptHead_of_survives hf hfirst hdry (fun _ => hcalls _) ho hs
      exact hkept.whole hf hd hw hown (h hdry o head hkept hd)

/-- A pod's head that is young, and the head of its volume, which is not. -/
def podObject : StoredObject :=
  ⟨⟨"snapshots/p/1/head.json", 10, 999950⟩,
    .head { podId := "p", logicalSize := 1, chunkSize := 1, chain := [digestA.hex],
            volumes := ["snapshots/v/1/head.json"] }⟩

def volumeObject : StoredObject :=
  ⟨⟨"snapshots/v/1/head.json", 10, 0⟩,
    .head { podId := "v", logicalSize := 1, chunkSize := 1, chain := [digestA.hex] }⟩

theorem podObject_key : splitSnapshotKey podObject.key = some ("p/1".toList, "head.json".toList) := rfl

theorem volumeObject_key : splitSnapshotKey volumeObject.key = some ("v/1".toList, "head.json".toList) := rfl

def volumeTier : Tier where
  bucket :=
    { objects := [podObject, volumeObject, baseObject, chunkObject]
      nodup := by
        have hsnap : ∀ {key : String}, splitSnapshotKey key = none →
            podObject.key ≠ key ∧ volumeObject.key ≠ key := by
          refine fun h => ⟨fun heq => ?_, fun heq => ?_⟩
          · rw [← heq, podObject_key] at h
            cases h
          · rw [← heq, volumeObject_key] at h
            cases h
        have hbase := hsnap (splitSnapshotKey_layerKey digestA.hex)
        have hchunk := hsnap (splitSnapshotKey_of_chunk (chunkHexOfKey_chunkKey digestC))
        have hpod : podObject.key ≠ volumeObject.key := by decide
        have hlayer : baseObject.key ≠ chunkObject.key := (chunkKey_ne_layerKey digestC _).symm
        simp only [map_cons, map_nil, nodup_cons, mem_cons, not_mem_nil, or_false,
          not_or, not_false_eq_true, nodup_nil, and_true]
        exact ⟨⟨hpod, hbase.1, hchunk.1⟩, ⟨hbase.2, hchunk.2⟩, hlayer⟩ }
  layers := []
  uploaded := fun _ => false
  marked := fun _ => false

theorem mem_volumeTier : o ∈ volumeTier.bucket.objects ↔
    o = podObject ∨ o = volumeObject ∨ o = baseObject ∨ o = chunkObject := by
  simp [volumeTier]

theorem volumeTier_head (ho : o ∈ volumeTier.bucket.objects) {x : List Char × List Char}
    (hs : splitSnapshotKey o.key = some x) : o = podObject ∨ o = volumeObject := by
  rcases mem_volumeTier.1 ho with h | h | rfl | rfl
  · exact Or.inl h
  · exact Or.inr h
  · cases hs.symm.trans (splitSnapshotKey_layerKey digestA.hex)
  · cases hs.symm.trans (splitSnapshotKey_of_chunk (chunkHexOfKey_chunkKey digestC))

theorem volumeTier_formed : volumeTier.Formed := by
  refine ⟨fun o ho id m hkey hm => ?_, nofun⟩
  rcases mem_volumeTier.1 ho with rfl | rfl | rfl | rfl
  · cases hm
  · cases hm
  · exact ⟨digestA, layerKey_inj hkey⟩
  · cases hm

theorem volumeTier_whole : ∀ o head, IsHead volumeTier.bucket o head →
    HeadWhole volumeTier.bucket head ∧ OwnEpoch o head := by
  rintro o head ⟨ho, ⟨e, hs⟩, hd⟩
  have hlayers : ∀ id ∈ [digestA.hex], ∃ o ∈ volumeTier.bucket.objects, ∃ m, o.key = layerKey id ∧
      o.body = .manifest m ∧ ∀ c ∈ m.dataHashes, volumeTier.bucket.Has (chunkKey c) := by
    intro id hid
    rw [mem_singleton.1 hid]
    refine ⟨baseObject, mem_volumeTier.2 (by simp), _, rfl, rfl, fun c hc => ?_⟩
    obtain rfl : c = digestC := mem_singleton.1 hc
    exact ⟨chunkObject, mem_volumeTier.2 (by simp), rfl⟩
  rcases volumeTier_head ho hs with rfl | rfl
  · obtain rfl := Except.ok.inj hd
    refine ⟨⟨hlayers, nofun, fun v hv => ?_⟩, nofun⟩
    exact ⟨volumeObject, mem_volumeTier.2 (by simp), (mem_singleton.1 hv).symm⟩
  · obtain rfl := Except.ok.inj hd
    exact ⟨⟨hlayers, nofun, nofun⟩, nofun⟩

def volumeRequest (liveHeads : List String) : SweepRequest := ⟨liveHeads, [], 100, false, false⟩

theorem volumeTier_completes (liveHeads : List String)
    (hlive : ∀ key ∈ liveHeads, ∃ x, splitSnapshotKey key = some x) :
    ∃ rep, (sweep (failing []) 1000000 (volumeRequest liveHeads) volumeTier).1 = .ok rep := by
  refine sweep_completes volumeTier_formed (fun _ => rfl) (fun o ho h => ?_) fun o ho id hkey => ?_
  · have hs : ∃ x, splitSnapshotKey o.key = some x := by
      rcases h with h | ⟨e, h⟩
      · exact hlive o.key h
      · exact ⟨_, h⟩
    obtain ⟨x, hs⟩ := hs
    rcases volumeTier_head ho hs with rfl | rfl
    · exact ⟨_, rfl⟩
    · exact ⟨_, rfl⟩
  · rcases mem_volumeTier.1 ho with rfl | rfl | rfl | rfl
    · have := podObject_key
      rw [hkey, splitSnapshotKey_layerKey] at this
      cases this
    · have := volumeObject_key
      rw [hkey, splitSnapshotKey_layerKey] at this
      cases this
    · exact ⟨_, rfl⟩
    · exact absurd hkey (chunkKey_ne_layerKey digestC id)

/-- With the pod's head named, its volume's stays too. -/
theorem sweep_leaves_heads_whole_named :
    (∃ rep, (sweep (failing []) 1000000 (volumeRequest [podObject.key]) volumeTier).1 = .ok rep) ∧
    ∀ o head, IsHead (sweep (failing []) 1000000 (volumeRequest [podObject.key]) volumeTier).2.bucket o head →
      HeadWhole (sweep (failing []) 1000000 (volumeRequest [podObject.key]) volumeTier).2.bucket head := by
  obtain ⟨rep, hok⟩ := volumeTier_completes [podObject.key] fun key hkey =>
    ⟨_, mem_singleton.1 hkey ▸ podObject_key⟩
  refine ⟨⟨rep, hok⟩, ?_⟩
  refine (sweep_leaves_heads_whole_iff volumeTier_formed volumeTier_whole (fun _ => rfl) hok).2 ?_
  rintro - o head ⟨ho, ⟨e, hs⟩, -⟩ hd v hv
  rcases volumeTier_head ho hs with rfl | rfl
  · obtain rfl := Except.ok.inj hd
    rw [mem_singleton.1 hv]
    refine ⟨volumeObject, ⟨mem_volumeTier.2 (by simp), ⟨_, volumeObject_key⟩, ?_⟩, rfl⟩
    rintro ⟨e, f, hs, hdead, -⟩
    rw [volumeObject_key] at hs
    cases hs
    refine (hdead volumeObject (mem_volumeTier.2 (by simp)) volumeObject_key).2 ?_
    refine ⟨0, podObject.key, podObject, _, rfl, rfl, ?_, rfl, mem_singleton.2 rfl⟩
    exact Bucket.find_eq_some.2 ⟨mem_volumeTier.2 (by simp), rfl⟩
  · obtain rfl := Except.ok.inj hd
    cases hv

/-- With no head named, the pod's head stays, as it is young, and its volume's goes. -/
theorem young_head_loses_its_volume :
    (∀ o head, IsHead volumeTier.bucket o head → HeadWhole volumeTier.bucket head ∧ OwnEpoch o head) ∧
    (∃ rep, (sweep (failing []) 1000000 (volumeRequest []) volumeTier).1 = .ok rep) ∧
    ∃ o head, IsHead (sweep (failing []) 1000000 (volumeRequest []) volumeTier).2.bucket o head ∧
      ¬ HeadWhole (sweep (failing []) 1000000 (volumeRequest []) volumeTier).2.bucket head := by
  obtain ⟨rep, hok⟩ := volumeTier_completes [] nofun
  refine ⟨volumeTier_whole, ⟨rep, hok⟩, podObject, _, ⟨?_, ⟨_, podObject_key⟩, rfl⟩, fun hwhole => ?_⟩
  · have hkept : KeptHead (failing []) 1000000 (volumeRequest []) volumeTier podObject := by
      refine ⟨mem_volumeTier.2 (by simp), ⟨_, podObject_key⟩, ?_⟩
      rintro ⟨e, f, hs, -, hold⟩
      have := hold podObject (mem_volumeTier.2 (by simp)) f hs
      exact absurd this (by decide)
    exact hkept.epoch_survives volumeTier_formed hkept.mem podObject_key podObject_key
  · obtain ⟨o, ho, hkey⟩ := hwhole.volumes volumeObject.key (mem_singleton.2 rfl)
    refine sweep_takes_snapshot volumeTier_formed (firstPass_of_ok hok) rfl ?_ rfl ho
    rw [hkey]
    refine ⟨_, _, volumeObject_key, fun o' ho' _ => ⟨nofun, ?_⟩, fun o' ho' f' hs' => ?_⟩
    · rintro ⟨i, live, -, -, hi, -⟩
      cases hi
    · rcases volumeTier_head ho' hs' with rfl | rfl
      · rw [podObject_key] at hs'
        have hne : "p/1".toList ≠ "v/1".toList := by decide
        exact absurd (congrArg Prod.fst (Option.some.inj hs')) hne
      · decide

end FeOS
