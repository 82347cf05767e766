import FeOS.Sanity.SweepRun

/-! What a whole sweep takes from the bucket, and what it leaves. -/

namespace FeOS

open List

variable {env : SweepEnv} {now : ℤ} {req : SweepRequest} {t : Tier}

/-- A bucket of manifests under their digests, of which the node's copies are copies. -/
structure Tier.Formed (t : Tier) : Prop where
  digests : ∀ o ∈ t.bucket.objects, ∀ id m, o.key = layerKey id → o.body = .manifest m →
    ∃ d : Digest, d.hex = id
  copies : ∀ id m, t.localLayer id = some m → ∀ o ∈ t.bucket.objects, o.key = layerKey id →
    o.body = .manifest m

structure LayersListed (env : SweepEnv) (now : ℤ) (req : SweepRequest) (t : Tier) : Prop where
  first : FirstPass env now req t
  inBudget : env.budgetSpent 0 = false
  listed : env.fails (.list "layers/") = none

theorem Tier.Formed.sub (hf : t.Formed) {t' : Tier} (hl : t'.layers = t.layers)
    (hb : ∀ o ∈ t'.bucket.objects, o ∈ t.bucket.objects) : t'.Formed where
  digests := fun o ho => hf.digests o (hb o ho)
  copies := fun id m hlocal o ho => by
    rw [Tier.localLayer, hl] at hlocal
    exact hf.copies id m hlocal o (hb o ho)

variable {o : StoredObject} {id : String}

theorem manifestForSweep_eq (hf : t.Formed) {m m' : Manifest Digest}
    {fault : Option String} (ho : o ∈ t.bucket.objects) (hkey : o.key = layerKey id) (hm : o.body = .manifest m)
    (h : manifestForSweep t fault id = .ok m') : m' = m := by
  rcases (manifestForSweep_ok h).2 with hlocal | ⟨-, d, hd, o', ho', hkey', hbody⟩
  · have := hf.copies id m' hlocal o ho hkey
    rw [hm] at this
    exact (Body.manifest.inj this).symm
  · obtain ⟨d', rfl⟩ := hf.digests o ho id m hkey hm
    rw [Digest.fromHex_hex, Option.some.injEq] at hd
    rw [← hd] at hkey'
    rw [Bucket.key_inj ho' ho (hkey'.trans hkey.symm), hm] at hbody
    exact (Body.manifest.inj hbody).symm

theorem manifestForSweep_of_mem (hf : t.Formed) {m : Manifest Digest}
    (ho : o ∈ t.bucket.objects) (hkey : o.key = layerKey id) (hm : o.body = .manifest m) :
    ∃ m', manifestForSweep t none id = .ok m' := by
  unfold manifestForSweep
  cases hlocal : t.localLayer id with
  | some m' => exact ⟨m', rfl⟩
  | none =>
    obtain ⟨d, rfl⟩ := hf.digests o ho id m hkey hm
    have hfind : t.bucket.find (manifestKey d) = some o := Bucket.find_eq_some.2 ⟨ho, hkey⟩
    refine ⟨m, ?_⟩
    simp only [Digest.fromHex_hex, Tier.getManifest, hfind, hm]
    rfl

variable (env now req t) in
theorem sweep_tier : (sweep env now req t).2 =
    match sweepSnapshots env now req t with
    | (.error _, t₁) => t₁
    | (.ok (_, _, live), t₁) =>
      if env.budgetSpent 0 then t₁
      else
        match sweepLayers env now req live t₁ with
        | (.error _, t₂) => t₂
        | (.ok (objs, dead, _), t₂) =>
          if env.budgetSpent 1 then t₂
          else (sweepChunks env now req (survivingLayers objs dead) t₂).2 := by
  unfold sweep
  rcases sweepSnapshots env now req t with ⟨e | ⟨seen, plan, live⟩, t₁⟩
  · rfl
  dsimp only
  cases env.budgetSpent 0 with
  | true => rfl
  | false =>
    rcases sweepLayers env now req live t₁ with ⟨e | ⟨objs, dead, bytes⟩, t₂⟩
    · rfl
    cases env.budgetSpent 1 with
    | true => rfl
    | false =>
      simp only [Bool.false_eq_true, if_false]
      rcases sweepChunks env now req (survivingLayers objs dead) t₂ with ⟨e | x, t₃⟩ <;> rfl

/-- A layer that the second pass leaves: the walk found it, it is young, or its deletion fails. -/
def LayerStays (env : SweepEnv) (now : ℤ) (req : SweepRequest) (t : Tier) (o : StoredObject) (id : String) : Prop :=
  Walked env now req t id ∨ tooYoung o.toRemoteObject now req.grace = true ∨ env.fails (.delete o.key) ≠ none

theorem not_layerStays : ¬ LayerStays env now req t o id ↔
    ¬ Walked env now req t id ∧ tooYoung o.toRemoteObject now req.grace = false ∧
      env.fails (.delete o.key) = none := by
  rw [LayerStays, not_or, not_or, Bool.not_eq_true, not_not]

/-- No layer that the second pass leaves has a chunk of this digest. -/
def Unread (env : SweepEnv) (now : ℤ) (req : SweepRequest) (t : Tier) (hex : String) : Prop :=
  ∀ o ∈ t.bucket.objects, ∀ id m, o.key = layerKey id → o.body = .manifest m → LayerStays env now req t o id →
    ∀ c ∈ m.dataHashes, c.hex ≠ hex

structure Taken (env : SweepEnv) (now : ℤ) (req : SweepRequest) (t : Tier) (snaps layers chunks : List String) :
    Prop where
  bucket : (sweep env now req t).2.bucket =
    t.bucket.keep (staysAfter env req.dryRun (snaps ++ layers ++ chunks))
  of_snaps : ∀ o ∈ t.bucket.objects, o.key ∈ snaps → DeadSnapshot env now req t o.key
  snaps_of : FirstPass env now req t → ∀ o ∈ t.bucket.objects, DeadSnapshot env now req t o.key → o.key ∈ snaps
  of_layers : ∀ o ∈ t.bucket.objects, o.key ∈ layers → LayersListed env now req t ∧
    ∃ id, o.key = layerKey id ∧ ¬ Walked env now req t id ∧ tooYoung o.toRemoteObject now req.grace = false
  layers_of : LayersListed env now req t → ∀ o ∈ t.bucket.objects, ∀ id, o.key = layerKey id →
    ¬ Walked env now req t id → tooYoung o.toRemoteObject now req.grace = false → o.key ∈ layers
  of_chunks : req.dryRun = false → ∀ key ∈ chunks, LayersListed env now req t ∧
    ∃ hex, chunkHexOfKey key = some hex ∧ Unread env now req t hex

theorem Taken.ofSnapshots {snaps : List String}
    (hb : (sweep env now req t).2.bucket = t.bucket.keep (staysAfter env req.dryRun snaps))
    (hsnaps : ∀ o ∈ t.bucket.objects, o.key ∈ snaps → DeadSnapshot env now req t o.key)
    (hsnaps' : FirstPass env now req t → ∀ o ∈ t.bucket.objects, DeadSnapshot env now req t o.key → o.key ∈ snaps)
    (hnot : ¬ LayersListed env now req t) : Taken env now req t snaps [] [] where
  bucket := by rwa [append_nil, append_nil]
  of_snaps := hsnaps
  snaps_of := hsnaps'
  of_layers := nofun
  layers_of := fun h => absurd h hnot
  of_chunks := nofun

section Passes
variable {snaps : List String} (hone : PassOne env now req t snaps (sweepSnapshots env now req t))
  {seen : ℕ} {plan : SweepPlan} {live : List String} {t₁ : Tier}
  (h₁ : sweepSnapshots env now req t = (.ok (seen, plan, live), t₁))
include hone h₁

theorem mem_of_layerKey (ho : o ∈ t.bucket.objects) (hkey : o.key = layerKey id) :
    o ∈ t₁.bucket.objects := by
  have hb := hone.bucket
  rw [h₁] at hb
  rw [hb, Bucket.mem_keep, ← Bool.not_eq_false, staysAfter_eq_false]
  refine ⟨ho, fun h => ?_⟩
  obtain ⟨x, hx⟩ := hone.snapshots _ h.2.1
  simp [hkey, splitSnapshotKey_layerKey] at hx

theorem mem_dead_layers {objs : List RemoteObject} {dead : List String}
    {r : Except String (List RemoteObject × List String × ℕ) × Tier}
    (htwo : PassTwo env now req live t₁ objs dead r) (ho : o ∈ t.bucket.objects) :
    o.key ∈ dead ↔ ∃ id, o.key = layerKey id ∧ ¬ Walked env now req t id ∧
      tooYoung o.toRemoteObject now req.grace = false := by
  have hlive : ∀ id, id ∈ live ↔ Walked env now req t id := hone.live _ (by rw [h₁])
  constructor
  · intro hd
    obtain ⟨id, hkey⟩ := htwo.layers_only _ hd
    obtain ⟨id', hkey', hnot, hyoung⟩ := (htwo.dead_iff o (mem_of_layerKey hone h₁ ho hkey)).1 hd
    exact ⟨id', hkey', fun h => hnot ((hlive id').2 h), hyoung⟩
  · rintro ⟨id, hkey, hnot, hyoung⟩
    refine (htwo.dead_iff o (mem_of_layerKey hone h₁ ho hkey)).2 ⟨id, hkey, ?_, hyoung⟩
    exact fun h => hnot ((hlive id).1 h)

section Chunks
variable {objs : List RemoteObject} {dead : List String} {bytes : ℕ} {t₂ : Tier}
  (htwo : PassTwo env now req live t₁ objs dead (sweepLayers env now req live t₁))
  (h₂ : sweepLayers env now req live t₁ = (.ok (objs, dead, bytes), t₂))
include htwo h₂

theorem mem_surviving (hdry : req.dryRun = false) (ho : o ∈ t.bucket.objects)
    (hkey : o.key = layerKey id) (hstays : LayerStays env now req t o id) : id ∈ survivingLayers objs dead := by
  have ho₁ : o ∈ t₁.bucket.objects := mem_of_layerKey hone h₁ ho hkey
  refine mem_survivingLayers.2 ⟨⟨o.toRemoteObject, (mem_list htwo.listed).2 ⟨o, ho₁, ?_, rfl⟩, hkey⟩, ?_⟩
  · rw [hkey]
    exact layers_listed id
  rw [← hkey]
  intro hd
  obtain ⟨id', hkey', hnot, hyoung⟩ := (mem_dead_layers hone h₁ htwo ho).1 hd
  rw [← layerKey_inj (hkey.symm.trans hkey')] at hnot
  refine not_layerStays.2 ⟨hnot, hyoung, ?_⟩ hstays
  rcases htwo.ends.1 ⟨_, by rw [h₂]⟩ with h | h
  · simp [h] at hdry
  · exact h _ hd

theorem formed_after_layers (hf : t.Formed) : t₂.Formed := by
  have hl₁ := hone.layers
  have hl₂ := htwo.layers
  have hb₁ := hone.bucket
  have hb₂ := htwo.bucket
  rw [h₁] at hl₁ hb₁
  rw [h₂] at hl₂ hb₂
  refine hf.sub (hl₂.trans hl₁) fun o ho => ?_
  rw [hb₂, hb₁, Bucket.mem_keep, Bucket.mem_keep] at ho
  exact ho.1.1

omit hone h₁ in
theorem mem_of_surviving (ho : o ∈ t₁.bucket.objects) (hkey : o.key = layerKey id)
    (hid : id ∈ survivingLayers objs dead) : o ∈ t₂.bucket.objects := by
  have hb := htwo.bucket
  rw [h₂] at hb
  rw [hb, Bucket.mem_keep, ← Bool.not_eq_false, staysAfter_eq_false]
  refine ⟨ho, fun h => (mem_survivingLayers.1 hid).2 ?_⟩
  rw [← hkey]
  exact h.2.1

end Chunks

end Passes

variable (env now req) in
/-- Every sweep takes the dead snapshots, the old layers that its walk did not find, and chunks
of no layer that stays, as far as it gets. -/
theorem sweep_taken (hf : t.Formed) : ∃ snaps layers chunks, Taken env now req t snaps layers chunks := by
  have htier := sweep_tier env now req t
  rcases sweepSnapshots_cases env now req t with ⟨heq, hno, hfirst⟩ | ⟨snaps, hone⟩
  · refine ⟨[], [], [], .ofSnapshots ?_ nofun (fun h => absurd h hfirst) fun h => hfirst h.first⟩
    rcases h₁ : sweepSnapshots env now req t with ⟨e | x, t₁⟩
    · rw [h₁] at htier heq
      rw [htier, keep_nil]
      exact congrArg Tier.bucket heq
    · exact absurd (by rw [h₁]) (hno x)
  have hsnaps : ∀ o ∈ t.bucket.objects, o.key ∈ snaps → DeadSnapshot env now req t o.key :=
    fun o ho => (hone.dead_iff o ho).1
  have hsnaps' : FirstPass env now req t → ∀ o ∈ t.bucket.objects, DeadSnapshot env now req t o.key →
      o.key ∈ snaps := fun _ o ho => (hone.dead_iff o ho).2
  have hb₁ := hone.bucket
  rcases h₁ : sweepSnapshots env now req t with ⟨e | ⟨seen, plan, live⟩, t₁⟩
  · rw [h₁] at htier hb₁
    refine ⟨snaps, [], [], .ofSnapshots ((congrArg Tier.bucket htier).trans hb₁) hsnaps hsnaps' fun h => ?_⟩
    obtain ⟨x, hx⟩ := hone.ends.2 h.first
    simp [h₁] at hx
  rw [h₁] at htier hb₁
  dsimp only at htier hb₁
  have hfirst : FirstPass env now req t := hone.ends.1 ⟨_, by rw [h₁]⟩
  cases hspent : env.budgetSpent 0 with
  | true =>
    rw [hspent, if_pos rfl] at htier
    refine ⟨snaps, [], [], .ofSnapshots ((congrArg Tier.bucket htier).trans hb₁) hsnaps hsnaps' fun h => ?_⟩
    simp [h.inBudget] at hspent
  | false =>
  rw [hspent, if_neg Bool.false_ne_true] at htier
  rcases sweepLayers_cases env now req t₁ live with ⟨hlist, heq, hno⟩ | ⟨hlist, objs, dead, htwo⟩
  · refine ⟨snaps, [], [], .ofSnapshots ?_ hsnaps hsnaps' fun h => hlist h.listed⟩
    rcases h₂ : sweepLayers env now req live t₁ with ⟨e | x, t₂⟩
    · rw [h₂] at htier heq
      rw [htier, ← hb₁]
      exact congrArg Tier.bucket heq
    · exact absurd (by rw [h₂]) (hno x)
  have hlisted : LayersListed env now req t := ⟨hfirst, hspent, hlist⟩
  -- what is left to say is what the third pass takes
  have htaken : ∀ chunks, (sweep env now req t).2.bucket =
        (t₁.bucket.keep (staysAfter env req.dryRun dead)).keep (staysAfter env req.dryRun chunks) →
      (req.dryRun = false → ∀ key ∈ chunks, ∃ hex, chunkHexOfKey key = some hex ∧ Unread env now req t hex) →
      Taken env now req t snaps dead chunks := by
    intro chunks hb hchunks
    refine ⟨?_, hsnaps, hsnaps', fun o ho hd => ⟨hlisted, (mem_dead_layers hone h₁ htwo ho).1 hd⟩,
      fun _ o ho id hkey hnot hyoung => (mem_dead_layers hone h₁ htwo ho).2 ⟨id, hkey, hnot, hyoung⟩,
      fun hdry key hkey => ⟨hlisted, hchunks hdry key hkey⟩⟩
    rw [hb, hb₁, keep_keep, keep_keep, append_assoc]
  have hb₂ := htwo.bucket
  rcases h₂ : sweepLayers env now req live t₁ with ⟨e | ⟨objs', dead', bytes⟩, t₂⟩
  · rw [h₂] at htier hb₂
    refine ⟨snaps, dead, [], htaken [] ?_ nofun⟩
    rwa [keep_nil, htier]
  obtain ⟨hobjs, hdead⟩ := htwo.value (objs', dead', bytes) (by rw [h₂])
  subst hobjs hdead
  rw [h₂] at htier hb₂
  dsimp only at htier hb₂
  cases hspent' : env.budgetSpent 1 with
  | true =>
    rw [hspent', if_pos rfl] at htier
    refine ⟨snaps, dead', [], htaken [] ?_ nofun⟩
    rw [keep_nil, htier, hb₂]
  | false =>
  rw [hspent', if_neg Bool.false_ne_true] at htier
  obtain ⟨chunks, hb₃, hchunks⟩ := sweepChunks_keep env now req t₂ (survivingLayers objs' dead')
  refine ⟨snaps, dead', chunks, htaken chunks (by rw [htier, hb₃, hb₂]) fun hdry key hkey => ?_⟩
  obtain ⟨hex, hhex, hrefs⟩ := hchunks key hkey
  refine ⟨hex, hhex, fun o ho id m hkey' hm hstays c hc => ?_⟩
  have hid := mem_surviving hone h₁ htwo h₂ hdry ho hkey' hstays
  have ho₂ := mem_of_surviving htwo h₂ (mem_of_layerKey hone h₁ ho hkey') hkey' hid
  obtain ⟨m', hm', hnot⟩ := hrefs id hid
  rw [manifestForSweep_eq (formed_after_layers hone h₁ htwo h₂ hf) ho₂ hkey' hm hm'] at hnot
  exact hnot c hc

theorem sweep_sub (hf : t.Formed) (ho : o ∈ (sweep env now req t).2.bucket.objects) :
    o ∈ t.bucket.objects := by
  obtain ⟨snaps, layers, chunks, h⟩ := sweep_taken env now req hf
  rw [h.bucket, Bucket.mem_keep] at ho
  exact ho.1

theorem sweep_lost (hf : t.Formed) (ho : o ∈ t.bucket.objects)
    (hlost : o ∉ (sweep env now req t).2.bucket.objects) :
    req.dryRun = false ∧ (DeadSnapshot env now req t o.key ∨ LayersListed env now req t ∧
      ((∃ id, o.key = layerKey id ∧ ¬ LayerStays env now req t o id) ∨
        ∃ hex, chunkHexOfKey o.key = some hex ∧ Unread env now req t hex)) := by
  obtain ⟨snaps, layers, chunks, h⟩ := sweep_taken env now req hf
  rw [h.bucket, Bucket.mem_keep, not_and, Bool.not_eq_true, staysAfter_eq_false] at hlost
  obtain ⟨hdry, hkey, hdel⟩ := hlost ho
  refine ⟨hdry, ?_⟩
  rcases mem_append.1 hkey with hkey | hchunk
  · rcases mem_append.1 hkey with hsnap | hlayer
    · exact .inl (h.of_snaps o ho hsnap)
    · obtain ⟨hlisted, id, hkey, hnot, hyoung⟩ := h.of_layers o ho hlayer
      exact .inr ⟨hlisted, .inl ⟨id, hkey, not_layerStays.2 ⟨hnot, hyoung, hdel⟩⟩⟩
  · obtain ⟨hlisted, hex, hhex, hnot⟩ := h.of_chunks hdry o.key hchunk
    exact .inr ⟨hlisted, .inr ⟨hex, hhex, hnot⟩⟩

theorem Taken.takes {snaps layers chunks : List String} (h : Taken env now req t snaps layers chunks)
    (hdry : req.dryRun = false) (hdel : env.fails (.delete o.key) = none)
    (hkey : o ∈ t.bucket.objects → o.key ∈ snaps ++ layers ++ chunks) : o ∉ (sweep env now req t).2.bucket.objects := by
  intro ho
  rw [h.bucket, Bucket.mem_keep] at ho
  rw [staysAfter_eq_false.2 ⟨hdry, hkey ho.1, hdel⟩] at ho
  exact absurd ho.2 Bool.false_ne_true

theorem sweep_takes_snapshot (hf : t.Formed) (hfirst : FirstPass env now req t) (hdry : req.dryRun = false)
    (hdead : DeadSnapshot env now req t o.key) (hdel : env.fails (.delete o.key) = none) :
    o ∉ (sweep env now req t).2.bucket.objects := by
  obtain ⟨snaps, layers, chunks, h⟩ := sweep_taken env now req hf
  exact h.takes hdry hdel fun ho => mem_append_left _ (mem_append_left _ (h.snaps_of hfirst o ho hdead))

theorem sweep_takes_layer (hf : t.Formed) (hlisted : LayersListed env now req t) (hdry : req.dryRun = false)
    (hkey : o.key = layerKey id) (hstays : ¬ LayerStays env now req t o id) :
    o ∉ (sweep env now req t).2.bucket.objects := by
  obtain ⟨hnot, hyoung, hdel⟩ := not_layerStays.1 hstays
  obtain ⟨snaps, layers, chunks, h⟩ := sweep_taken env now req hf
  exact h.takes hdry hdel fun ho => mem_append_left _ (mem_append_right _ (h.layers_of hlisted o ho id hkey hnot hyoung))

theorem firstPass_of_ok {rep : SweepReport} (hok : (sweep env now req t).1 = .ok rep) : FirstPass env now req t := by
  unfold sweep at hok
  rcases sweepSnapshots_cases env now req t with ⟨-, hno, -⟩ | ⟨snaps, hone⟩
  · rcases h₁ : sweepSnapshots env now req t with ⟨e | x, t₁⟩
    · simp [h₁] at hok
    · exact absurd (by rw [h₁]) (hno x)
  · refine hone.ends.1 ?_
    rcases h₁ : sweepSnapshots env now req t with ⟨e | x, t₁⟩
    · simp [h₁] at hok
    · exact ⟨x, rfl⟩

theorem firstPass_of_calls (hcalls : ∀ c, env.fails c = none)
    (hheads : ∀ o ∈ t.bucket.objects, o.key ∈ req.liveHeads ∨
      (∃ e, splitSnapshotKey o.key = some (e, "head.json".toList)) → ∃ head, o.body.decodeHead = .ok head) :
    FirstPass env now req t where
  listed := hcalls _
  live := by
    intro i key hi o ho
    obtain ⟨hmem, rfl⟩ := Bucket.find_eq_some.1 ho
    exact .inl ⟨hcalls _, hheads o hmem (.inl (mem_of_getElem? hi))⟩
  deleted := .inr fun _ _ _ => hcalls _
  kept := fun o ho => ⟨hcalls _, hheads o ho.mem (.inr ho.head)⟩

theorem sweep_completes (hf : t.Formed) (hcalls : ∀ c, env.fails c = none)
    (hheads : ∀ o ∈ t.bucket.objects, o.key ∈ req.liveHeads ∨
      (∃ e, splitSnapshotKey o.key = some (e, "head.json".toList)) → ∃ head, o.body.decodeHead = .ok head)
    (hm : ∀ o ∈ t.bucket.objects, ∀ id, o.key = layerKey id → ∃ m, o.body = .manifest m) :
    ∃ rep, (sweep env now req t).1 = .ok rep := by
  have hfirst : FirstPass env now req t := firstPass_of_calls hcalls hheads
  unfold sweep
  rcases sweepSnapshots_cases env now req t with ⟨-, -, hnot⟩ | ⟨snaps, hone⟩
  · exact absurd hfirst hnot
  obtain ⟨⟨seen, plan, live⟩, hx⟩ := hone.ends.2 hfirst
  rcases h₁ : sweepSnapshots env now req t with ⟨r₁, t₁⟩
  rw [h₁] at hx
  obtain rfl : r₁ = _ := hx
  cases hspent : env.budgetSpent 0 with
  | true => exact ⟨_, rfl⟩
  | false =>
  simp only [Bool.false_eq_true, if_false]
  rcases sweepLayers_cases env now req t₁ live with ⟨hlist, -⟩ | ⟨-, objs, dead, htwo⟩
  · exact absurd (hcalls _) hlist
  obtain ⟨⟨objs', dead', bytes⟩, hx⟩ := htwo.ends.2 (.inr fun key _ => hcalls _)
  obtain ⟨hobjs, hdead⟩ := htwo.value _ hx
  subst hobjs hdead
  rcases h₂ : sweepLayers env now req live t₁ with ⟨r₂, t₂⟩
  rw [h₂] at hx
  obtain rfl : r₂ = _ := hx
  cases hspent' : env.budgetSpent 1 with
  | true => exact ⟨_, rfl⟩
  | false =>
  simp only [Bool.false_eq_true, if_false]
  have hrefs : ∃ refs, referencedChunks t₂ env (survivingLayers objs' dead') = .ok refs := by
    refine referencedChunks_ends fun id hid => ?_
    obtain ⟨⟨r, hr, hkey⟩, -⟩ := mem_survivingLayers.1 hid
    obtain ⟨o, ho₁, -, rfl⟩ := (mem_list htwo.listed).1 hr
    have ho₂ := mem_of_surviving htwo h₂ ho₁ hkey hid
    have ho : o ∈ t.bucket.objects := by
      have hb := hone.bucket
      rw [h₁] at hb
      rw [hb, Bucket.mem_keep] at ho₁
      exact ho₁.1
    obtain ⟨m, hbody⟩ := hm o ho id hkey
    rw [hcalls]
    exact manifestForSweep_of_mem (formed_after_layers hone h₁ htwo h₂ hf) ho₂ hkey hbody
  obtain ⟨x, hx⟩ : ∃ x, (sweepChunks env now req (survivingLayers objs' dead') t₂).1 = .ok x :=
    sweepChunks_ends hrefs hcalls
  rcases h₃ : sweepChunks env now req (survivingLayers objs' dead') t₂ with ⟨r₃, t₃⟩
  rw [h₃] at hx
  obtain rfl : r₃ = _ := hx
  exact ⟨_, rfl⟩

end FeOS
