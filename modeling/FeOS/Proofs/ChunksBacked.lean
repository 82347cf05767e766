import FeOS.Sanity.PushSweep
import FeOS.Sanity.SweepTaken
import FeOS.Proofs.NonVacuity

/-! The chunks of the manifests in the bucket, over runs of pushes and sweeps. A push trusts the
marker of an old chunk, and a sweep that listed the layers before the push put its manifest does
not see that the chunk is named again. -/

namespace FeOS

open Function List Bucket

namespace Tiering

variable (manifestOf : Digest → Manifest Digest)

/-- Whenever a manifest is in the bucket, so is every data chunk it names. -/
def NoChunkMissing (s : Tiering) : Prop :=
  ∀ o ∈ s.tier.bucket.objects, ∀ id m, o.key = layerKey id → o.body = .manifest m →
    ∀ c ∈ m.dataHashes, s.tier.bucket.Has (chunkKey c)

/-- No push takes longer than `d`, and the grace of a sweep exceeds that by the trust in a journal. -/
structure Timed (d : ℤ) (s : Tiering) (e : TierEvent) : Prop where
  pushes : ∀ p a, s.pushes p = some a → s.clock ≤ a.started + d
  sweeps : ∀ k grace, e = .startSweep k grace → UNHEADED_TRUST_SECONDS + d < grace

/-- A push trusts a chunk only if every sweep in flight spares it and none took it, and uploads
one only if no sweep is about to delete it; a sweep lists the layers only if what pushes in
flight trusted is young or named by a layer that it keeps; and it removes the markers of the
chunks that it deleted before it ends. -/
def Careful (s : Tiering) : TierEvent → Prop
  | .push _ (.testMarker c) => s.tier.marked c = true → ∀ k sw, s.sweeps k = some sw →
      sw.Spares manifestOf s.tier.bucket c ∧ ¬ sw.Took c
  | .push _ (.putChunk c _) => ∀ k sw, s.sweeps k = some sw → ¬ sw.Deletes c
  | .push _ (.findChunk c) => ∀ k sw, s.sweeps k = some sw → sw.Spares manifestOf s.tier.bucket c
  | .sweep k (.listLayers live) => ∀ sw, s.sweeps k = some sw → ∀ p a, s.pushes p = some a → ∀ c ∈ a.trusted,
      YoungFor s.tier.bucket sw c ∨ ∃ o ∈ s.tier.bucket.objects, ∃ id, o.key = layerKey id ∧
        Names manifestOf id c ∧ (id ∈ live ∨ tooYoung o.toRemoteObject sw.now sw.grace = true)
  | .sweep k .stop => ∀ sw, s.sweeps k = some sw → ∀ c, sw.Took c → s.tier.marked c = false
  | .crash => ∀ k sw, s.sweeps k = some sw → ∀ c, sw.Took c → s.tier.marked c = false
  | _ => True

variable {manifestOf} {slack : ℤ} {s s' : Tiering}

section Pushes
variable {p : ℕ} {a : Push}

theorem secure_put (h : s.Backed manifestOf slack) (hslack : 0 ≤ slack) {c : Digest} {size : ℕ}
    (hcare : ∀ k sw, s.sweeps k = some sw → ¬ sw.Deletes c) :
    (s.setBucket (s.tier.bucket.put ⟨⟨chunkKey c, size, s.clock⟩, .bytes⟩)).Secure manifestOf c := by
  refine ⟨has_put, fun k sw hk => ?_⟩
  have hnot := hcare k sw hk
  obtain ⟨hnow, hgrace, -⟩ := h.sweeps k sw hk
  have hyoung : YoungFor (s.tier.bucket.put ⟨⟨chunkKey c, size, s.clock⟩, .bytes⟩) sw c := by
    intro o ho hkey
    rcases mem_put.1 ho with rfl | ⟨-, hne⟩
    · simp only [tooYoung, Bool.and_eq_true, decide_eq_true_eq]
      omega
    · exact absurd hkey hne
  unfold SweepState.Spares
  unfold SweepState.Deletes at hnot
  cases hph : sw.phase with
  | heads => trivial
  | layers dead left surviving => exact .inr hyoung
  | read ids referenced => exact .inr (.inr hyoung)
  | chunks left gone =>
    rwa [hph] at hnot
  | unmark hashes => trivial

structure Settles (a a' : Push) (c : Digest) : Prop where
  layer : a'.layer = a.layer
  manifest : a'.manifest = a.manifest
  started : a'.started = a.started
  todo : ∀ x ∈ a.todo, x ∈ a'.todo ∨ x = c
  unmarked : ∀ x ∈ a.unmarked, x ∈ a'.unmarked ∨ x = c
  settled : c ∈ a'.trusted ∨ c ∈ a'.uploaded
  keeps : ∀ x, x ∈ a.trusted ∨ x ∈ a.uploaded → x ∈ a'.trusted ∨ x ∈ a'.uploaded
  trusted : ∀ x ∈ a'.trusted, x ∈ a.trusted ∨ x = c
  uploaded : ∀ x ∈ a'.uploaded, x ∈ a.uploaded ∨ x = c
  batch : ∀ x ∈ a'.batch, x ∈ a.batch ∨ x = c
  listed : a'.listed = a.listed

theorem PushOk.settle (ha : s.PushOk manifestOf a) {a' : Push} {c : Digest} (hst : Settles a a' c)
    (hsec : s.Secure manifestOf c)
    (hfresh : c ∈ a'.uploaded → ∀ o ∈ s.tier.bucket.objects, o.key = chunkKey c → a.started ≤ o.modifiedUnix) :
    s.PushOk manifestOf a' := by
  refine ⟨?_, ?_, fun x hx => ?_, fun x hx => ?_, fun x hx => ?_, fun x hx => ?_, fun x hx => ?_⟩
  · rw [hst.manifest, hst.layer, ha.named]
  · exact hst.started ▸ ha.started
  · rw [hst.manifest] at hx
    rcases ha.covers x hx with hx | hx | hx
    · rcases hst.todo x hx with hx | rfl
      · exact .inl hx
      · exact .inr (.inr hst.settled)
    · rcases hst.unmarked x hx with hx | rfl
      · exact .inr (.inl hx)
      · exact .inr (.inr hst.settled)
    · exact .inr (.inr (hst.keeps x hx))
  · rcases hst.batch x hx with hx | rfl
    · exact hst.keeps x (ha.batch x hx)
    · exact hst.settled
  · rw [hst.listed] at hx
    exact hst.keeps x (ha.listed x hx)
  · rcases hx.imp (hst.trusted x) (hst.uploaded x) with (hx | rfl) | (hx | rfl)
    · exact ha.secure x (.inl hx)
    · exact hsec
    · exact ha.secure x (.inr hx)
    · exact hsec
  · rw [hst.started]
    rcases hst.uploaded x hx with hx' | rfl
    · exact ha.fresh x hx'
    · exact hfresh hx

theorem mem_erase_or {l : List Digest} (c : Digest) {x : Digest} (hx : x ∈ l) : x ∈ l.erase c ∨ x = c := by
  by_cases h : x = c
  · exact .inr h
  · exact .inl ((mem_erase_of_ne h).2 hx)

namespace Backed
variable (h : s.Backed manifestOf slack) (hslack : 0 ≤ slack) (hp : s.pushes p = some a)
include h hp

variable {c : Digest}

theorem testMarker (hcare : s.Careful manifestOf (.push p (.testMarker c)))
    (hs : s.stepPush p a (.testMarker c) = some s') : s'.Backed manifestOf slack := by
  have ha := h.pushes p a hp
  simp only [stepPush] at hs
  split_ifs at hs with hc hmark
  · cases hs
    refine h.setPush_some ?_
    refine ha.settle (c := c) ⟨rfl, rfl, rfl, fun x => mem_erase_or c, fun x => .inl, .inl mem_cons_self,
      fun x => .imp_left (mem_cons_of_mem c), fun x hx => (mem_cons.1 hx).symm, fun x => .inl, fun x => .inl, rfl⟩
      ⟨?_, fun k sw hk => (hcare hmark k sw hk).1⟩ (ha.fresh c)
    -- the marker is true: no sweep took the chunk
    rcases h.markers c hmark with hhas | ⟨k, sw, hk, htook⟩
    · exact hhas
    · exact absurd htook (hcare hmark k sw hk).2
  · cases hs
    refine h.setPush_some ?_
    refine { ha with covers := fun x hx => ?_ }
    rcases ha.covers x hx with hx | hx | hx
    · rcases mem_erase_or c hx with hx | rfl
      · exact .inl hx
      · exact .inr (.inl mem_cons_self)
    · exact .inr (.inl (mem_cons_of_mem _ hx))
    · exact .inr (.inr hx)

include hslack in
theorem putChunk {size : ℕ} (hcare : s.Careful manifestOf (.push p (.putChunk c size)))
    (hs : s.stepPush p a (.putChunk c size) = some s') : s'.Backed manifestOf slack := by
  simp only [stepPush] at hs
  split_ifs at hs with hc
  cases hs
  have hput : (s.setBucket (s.tier.bucket.put ⟨⟨chunkKey c, size, s.clock⟩, .bytes⟩)).Backed manifestOf slack :=
    h.put hslack rfl fun _ _ _ hm => nomatch hm
  have ha := hput.pushes p a hp
  refine hput.setPush_some ?_
  refine ha.settle (c := c) ⟨rfl, rfl, rfl, fun x => .inl, fun x => mem_erase_or c, .inr mem_cons_self,
    fun x => .imp_right (mem_cons_of_mem c), fun x => .inl, fun x hx => (mem_cons.1 hx).symm,
    fun x hx => (mem_cons.1 hx).symm, rfl⟩ (secure_put h hslack hcare) fun _ o ho hkey => ?_
  rcases mem_put.1 ho with rfl | ⟨-, hne⟩
  · exact ha.started
  · exact absurd hkey hne

theorem findChunk (hcare : s.Careful manifestOf (.push p (.findChunk c)))
    (hs : s.stepPush p a (.findChunk c) = some s') : s'.Backed manifestOf slack := by
  have ha := h.pushes p a hp
  simp only [stepPush] at hs
  split_ifs at hs with hc
  cases hs
  obtain ⟨-, hfind⟩ := not_or.1 hc
  refine h.setPush_some ?_
  refine ha.settle (c := c) ⟨rfl, rfl, rfl, fun x => .inl, fun x => mem_erase_or c, .inl mem_cons_self,
    fun x => .imp_left (mem_cons_of_mem c), fun x hx => (mem_cons.1 hx).symm, fun x => .inl,
    fun x hx => (mem_cons.1 hx).symm, rfl⟩ ⟨?_, hcare⟩ (ha.fresh c)
  obtain ⟨o, ho⟩ := Option.ne_none_iff_exists'.1 hfind
  exact ⟨o, find_eq_some.1 ho⟩

theorem listBatch {cs : List Digest} (hs : s.stepPush p a (.listBatch cs) = some s') :
    s'.Backed manifestOf slack := by
  have ha := h.pushes p a hp
  simp only [stepPush] at hs
  split_ifs at hs with hc
  have hbatch : ∀ x ∈ a.batch.filter fun c => c ∉ cs, x ∈ a.trusted ∨ x ∈ a.uploaded :=
    fun x hx => ha.batch x (mem_of_mem_filter hx)
  have hlisted : (s.setPush p (some { a with
      batch := a.batch.filter fun c => c ∉ cs, listed := cs })).Backed manifestOf slack := by
    exact h.setPush_some { ha with batch := hbatch, listed := fun x hx => ha.batch x (hc.1 hx) }
  unfold Tiering.listBatch at hs
  cases hj : a.journal with
  | none =>
    rw [hj] at hs
    cases hs
    rwa [← hj]
  | some j =>
    rw [hj] at hs
    dsimp only at hs
    split_ifs at hs
    cases hf : appendJournal (s.journals j) cs [] (j.start s.clock) with
    | none =>
      rw [hf] at hs
      cases hs
      exact h.setPush_some { ha with batch := hbatch }
    | some f =>
      rw [hf] at hs
      cases hs
      rw [← hj]
      exact hlisted.frame rfl rfl le_rfl rfl rfl fun _ => .inl

theorem markChunk {written : Bool} (hs : s.stepPush p a (.markChunk c written) = some s') :
    s'.Backed manifestOf slack := by
  have ha := h.pushes p a hp
  simp only [stepPush] at hs
  split_ifs at hs with hc
  cases hs
  have hpush : (s.setPush p (some { a with listed := a.listed.filter fun x => x ≠ c })).Backed manifestOf slack := by
    exact h.setPush_some { ha with listed := fun x hx => ha.listed x (mem_of_mem_filter hx) }
  refine hpush.frame rfl rfl le_rfl rfl rfl fun x hx => ?_
  rcases update_cases hx with ⟨rfl, -⟩ | ⟨-, hx⟩
  · exact .inr (ha.secure x (ha.listed x hc)).has
  · exact .inl hx

include hslack in
theorem putManifest {size : ℕ} (hs : s.stepPush p a (.putManifest size) = some s') :
    s'.Backed manifestOf slack := by
  have ha := h.pushes p a hp
  simp only [stepPush] at hs
  split_ifs at hs with hc
  cases hs
  have hput : (s.setBucket (s.tier.bucket.put
      ⟨⟨manifestKey a.layer, size, s.clock⟩, .manifest a.manifest⟩)).Backed manifestOf slack := by
    refine h.put hslack rfl fun id m hkey hm => ⟨⟨a.layer, layerKey_inj hkey, ?_⟩, fun x hx => ?_⟩
    · rw [← Body.manifest.inj hm, ha.named]
    · rw [← Body.manifest.inj hm] at hx
      rcases ha.covers x hx with hx | hx | hx
      · simp [hc.1] at hx
      · simp [hc.2.1] at hx
      · exact ha.secure x hx
  exact hput.setPush_some { hput.pushes p a hp with }

omit hp in
theorem markLayer (hs : s.stepPush p a .markLayer = some s') : s'.Backed manifestOf slack := by
  simp only [stepPush] at hs
  split_ifs at hs with hc
  have hdone : (s.setPush p none).Backed manifestOf slack := h.setPush nofun
  unfold Tiering.markLayer at hs
  split at hs
  · split_ifs at hs
    split at hs
    · cases hs
      exact hdone
    · cases hs
      exact hdone.frame rfl rfl le_rfl rfl rfl fun _ => .inl
  · cases hs
    exact hdone.frame rfl rfl le_rfl rfl rfl fun _ => .inl

include hslack in
theorem stepPush {e : PushStep} (hcare : s.Careful manifestOf (.push p e))
    (hs : s.stepPush p a e = some s') : s'.Backed manifestOf slack := by
  cases e with
  | testMarker c => exact h.testMarker hp hcare hs
  | putChunk c size => exact h.putChunk hslack hp hcare hs
  | findChunk c => exact h.findChunk hp hcare hs
  | listBatch cs => exact h.listBatch hp hs
  | markChunk c written => exact h.markChunk hp hs
  | putManifest size => exact h.putManifest hslack hp hs
  | markLayer => exact h.markLayer hs
  | stop =>
    simp only [Tiering.stepPush] at hs
    split_ifs at hs
    cases hs
    exact h.setPush nofun

end Backed

end Pushes

namespace Backed
variable {k : ℕ} {sw : SweepState} (h : s.Backed manifestOf slack) (hslack : 0 ≤ slack) (hk : s.sweeps k = some sw)
include h hslack hk

variable {key : String}

omit hslack hk h in
theorem delete_sub : ∀ o ∈ (s.tier.bucket.delete key).objects, o ∈ s.tier.bucket.objects :=
  fun _ ho => (mem_delete.1 ho).1

theorem spares_delete (key : String) (c : Digest) (hc : sw.Spares manifestOf s.tier.bucket c) :
    sw.Spares manifestOf (s.tier.bucket.delete key) c :=
  hc.mono (fun o ho => .inl (delete_sub o ho)) (hslack.trans_lt (h.sweeps k sw hk).grace)

theorem deleteSnapshot (hs : s.stepSweep k sw (.deleteSnapshot key) = some s') :
    s'.Backed manifestOf slack := by
  simp only [stepSweep] at hs
  split at hs <;> try cases hs
  split_ifs at hs with hkey
  cases hs
  obtain ⟨x, hx⟩ := Option.isSome_iff_exists.1 hkey
  have hchunk : ∀ c, chunkKey c ≠ key := by
    rintro c rfl
    simp [splitSnapshotKey_of_chunk (chunkHexOfKey_chunkKey c)] at hx
  have hmono := h.spares_delete hslack hk key
  have hstep := h.sweepStep hslack hk sw.phase { s.tier with bucket := s.tier.bucket.delete key } delete_sub rfl
    (fun c _ hc => hc.delete (hchunk c)) (fun o ho id m hkey hm c hc => Or.imp_right (hmono c))
    (fun p a ha c hc => hmono c) (h.sweeps k sw hk).doomed (fun c hc => hc) fun c _ hc =>
      hc.symm.imp_left fun hc => hc.delete (hchunk c)
  rwa [setPhase_self hk] at hstep

theorem listLayers {live : List String} (hcare : s.Careful manifestOf (.sweep k (.listLayers live)))
    (htimed : ∀ p a, s.pushes p = some a → s.clock ≤ a.started + slack)
    (hs : s.stepSweep k sw (.listLayers live) = some s') : s'.Backed manifestOf slack := by
  obtain ⟨hnow, hgrace, -⟩ := h.sweeps k sw hk
  simp only [stepSweep] at hs
  split at hs <;> cases hs
  rename_i objs hph hobjs
  generalize hdead : (planLayers objs live sw.now sw.grace).1 = dead
  have hlisted : ∀ o ∈ s.tier.bucket.objects, ∀ id, o.key = layerKey id → o.key ∉ dead →
      id ∈ survivingLayers objs dead := by
    intro o ho id hkey hnot
    refine mem_survivingLayers.2 ⟨⟨o.toRemoteObject, (mem_list hobjs).2 ⟨o, ho, ?_, rfl⟩, hkey⟩, hkey ▸ hnot⟩
    rw [hkey]
    exact layers_listed id
  refine h.sweepStep hslack hk _ s.tier (fun o ho => ho) rfl (fun c _ hc => hc) ?_ ?_ ?_ (fun c hc => hc) ?_
  · intro o ho id m hkey hm c hc _
    by_cases hd : o.key ∈ dead
    · exact .inl hd
    · obtain ⟨d, rfl, rfl⟩ := h.addressed.bucket o ho id m hkey hm
      exact .inr (.inl ⟨d.hex, hlisted o ho d.hex hkey hd, d, rfl, hc⟩)
  · intro p a ha c hc _
    rcases hc with hc | hc
    · rcases hcare sw hk p a ha c hc with hyoung | ⟨o, ho, id, hkey, hnames, hstays⟩
      · exact .inr hyoung
      · refine .inl ⟨id, hlisted o ho id hkey ?_, hnames⟩
        rw [← hdead, planLayers, mem_planUnnamed]
        rintro ⟨r, hr, hrkey, id', hid', hnot, hold⟩
        obtain ⟨o', ho', -, rfl⟩ := (mem_list hobjs).1 hr
        rw [key_inj ho' ho hrkey] at hold
        rw [layerIdOfKey_eq_some, hkey] at hid'
        rcases hstays with hlive | hyoung
        · exact hnot (layerKey_inj hid' ▸ hlive)
        · simp [hyoung] at hold
    · refine .inr fun o ho hkey => ?_
      have hfresh := (h.pushes p a ha).fresh c hc o ho hkey
      have htime := htimed p a ha
      simp only [tooYoung, Bool.and_eq_true, decide_eq_true_eq]
      omega
  · intro key hkey
    have hkey : key ∈ dead := hkey
    rw [← hdead, planLayers, mem_planUnnamed] at hkey
    obtain ⟨-, -, -, id, hid, -⟩ := hkey
    exact ⟨id, layerIdOfKey_eq_some.1 hid⟩
  · rintro c - (htook | hc)
    · unfold SweepState.Took at htook
      simp [hph] at htook
    · exact .inl hc

theorem deleteLayer (hs : s.stepSweep k sw (.deleteLayer key) = some s') :
    s'.Backed manifestOf slack := by
  have hok := h.sweeps k sw hk
  obtain ⟨now, grace, phase⟩ := sw
  simp only [stepSweep] at hs
  split at hs <;> try cases hs
  rename_i dead left surviving
  split_ifs at hs with hkey
  cases hs
  have hchunk : ∀ c, chunkKey c ≠ key := by
    obtain ⟨id, rfl⟩ := hok.doomed key hkey
    exact fun c => chunkKey_ne_layerKey c id
  have hmono := h.spares_delete hslack hk key
  refine h.sweepStep hslack hk _ { s.tier with bucket := s.tier.bucket.delete key } delete_sub rfl
    (fun c _ hc => hc.delete (hchunk c)) ?_ (fun p a ha c hc => hmono c) ?_ (fun c hc => hc) ?_
  · intro o ho id m hkey' hm c hc
    refine Or.imp (fun hd => ?_) (hmono c)
    exact mem_filter.2 ⟨hd, decide_eq_true (mem_delete.1 ho).2⟩
  · exact fun key' hkey' => hok.doomed key' (mem_of_mem_filter hkey')
  · rintro c - (htook | hc)
    · cases htook
    · exact .inl (hc.delete (hchunk c))

theorem goOn (phase : SweepPhase) (uploaded : String → Bool) (hold : ∀ key, ¬ sw.Doomed key)
    (hnew : ∀ key, ¬ ({ sw with phase } : SweepState).Doomed key)
    (hmono : ∀ c, sw.Spares manifestOf s.tier.bucket c → ({ sw with phase } : SweepState).Spares manifestOf s.tier.bucket c)
    (htook : ∀ c, sw.Took c → ({ sw with phase } : SweepState).Took c) :
    (({ s with tier := { s.tier with uploaded } } : Tiering).setPhase k sw phase).Backed manifestOf slack :=
  h.sweepStep hslack hk phase _ (fun _ ho => ho) rfl (fun _ _ hc => hc)
    (fun _ _ _ _ _ _ c _ hc => .inr (hmono c (hc.resolve_left (hold _)))) (fun _ _ _ c _ => hmono c)
    (fun key hd => absurd hd (hnew key)) (fun _ hc => hc) fun c _ hc => hc.symm.imp_right (htook c)

theorem unmarkLayers (hs : s.stepSweep k sw .unmarkLayers = some s') : s'.Backed manifestOf slack := by
  obtain ⟨now, grace, phase⟩ := sw
  simp only [stepSweep] at hs
  split at hs <;> cases hs
  rename_i dead surviving
  exact h.goOn hslack hk _ _ nofun nofun (fun c hsp => .inr hsp) nofun

omit hslack hk in
theorem names_read {id : String} {m : Manifest Digest} (hm : manifestForSweep s.tier none id = .ok m)
    {c : Digest} (hc : Names manifestOf id c) : c ∈ m.dataHashes := by
  obtain ⟨d, rfl, hc⟩ := hc
  rcases (manifestForSweep_ok hm).2 with hlocal | ⟨-, d', hd', o, ho, hkey, hbody⟩
  · rwa [h.addressed.layers d m hlocal]
  · rw [Digest.fromHex_hex, Option.some.injEq] at hd'
    subst hd'
    obtain ⟨d', hhex, rfl⟩ := h.addressed.bucket o ho d.hex m hkey hbody
    rwa [Digest.hex_inj hhex]

theorem readManifest (hs : s.stepSweep k sw .readManifest = some s') : s'.Backed manifestOf slack := by
  obtain ⟨now, grace, phase⟩ := sw
  simp only [stepSweep] at hs
  split at hs <;> try cases hs
  rename_i id ids refs
  cases hm : manifestForSweep s.tier none id with
  | error e =>
    simp [hm] at hs
  | ok m =>
  rw [hm] at hs
  cases hs
  have hmono : ∀ c, SweepState.Spares manifestOf s.tier.bucket ⟨now, grace, .read (id :: ids) refs⟩ c →
      SweepState.Spares manifestOf s.tier.bucket ⟨now, grace, .read ids (refs ++ m.dataHashes)⟩ c := by
    rintro c (hc | ⟨id', hid', hc⟩ | hc)
    · exact .inl (mem_append_left _ hc)
    · rcases mem_cons.1 hid' with rfl | hid'
      · exact .inl (mem_append_right _ (h.names_read hm hc))
      · exact .inr (.inl ⟨id', hid', hc⟩)
    · exact .inr (.inr hc)
  exact h.goOn hslack hk _ s.tier.uploaded (by rintro _ ⟨⟩) (by rintro _ ⟨⟩) hmono (by rintro _ ⟨⟩)

theorem listChunks (hs : s.stepSweep k sw .listChunks = some s') : s'.Backed manifestOf slack := by
  obtain ⟨now, grace, phase⟩ := sw
  simp only [stepSweep] at hs
  split at hs <;> cases hs
  rename_i refs objs hobjs
  have hmono : ∀ c, SweepState.Spares manifestOf s.tier.bucket ⟨now, grace, .read [] refs⟩ c →
      chunkKey c ∉ (planChunks objs refs now grace).1 := by
    intro c hsp hmem
    rw [planChunks, mem_planUnnamed] at hmem
    obtain ⟨r, hr, hrkey, hex, hhex, hnot, hold⟩ := hmem
    obtain ⟨o, ho, -, rfl⟩ := (mem_list hobjs).1 hr
    rw [chunkHexOfKey_chunkKey, Option.some.injEq] at hhex
    rcases hsp with hc | ⟨id, hid, -⟩ | hyoung
    · exact hnot (hhex ▸ mem_map_of_mem hc)
    · cases hid
    · simp [hyoung o ho hrkey] at hold
  exact h.goOn hslack hk _ s.tier.uploaded (by rintro _ ⟨⟩) (by rintro _ ⟨⟩) hmono (by rintro _ ⟨⟩)

theorem deleteChunk (hs : s.stepSweep k sw (.deleteChunk key) = some s') :
    s'.Backed manifestOf slack := by
  obtain ⟨now, grace, phase⟩ := sw
  simp only [stepSweep] at hs
  split at hs <;> try cases hs
  rename_i left gone
  split_ifs at hs with hkey
  cases hs
  have hmono : ∀ c, chunkKey c ∉ left → chunkKey c ∉ left.filter fun key' => key' ≠ key :=
    fun c hc hmem => hc (mem_of_mem_filter hmem)
  refine h.sweepStep hslack hk _ { s.tier with bucket := s.tier.bucket.delete key }
    delete_sub rfl ?_ (fun o ho id m hkey hm c hc => Or.imp nofun (hmono c))
    (fun p a ha c hc => hmono c) nofun (fun c hc => hc) ?_
  · rintro c (⟨key', hd⟩ | hsp) hc
    · cases hd
    · refine hc.delete ?_
      rintro rfl
      exact hsp hkey
  · rintro c - (htook | hc)
    · exact .inr (mem_cons_of_mem _ htook)
    · by_cases heq : chunkKey c = key
      · refine .inr ?_
        show chunkKey c ∈ key :: gone
        rw [heq]
        exact mem_cons_self
      · exact .inl (hc.delete heq)

theorem chunksDeleted (hs : s.stepSweep k sw .chunksDeleted = some s') : s'.Backed manifestOf slack := by
  obtain ⟨now, grace, phase⟩ := sw
  simp only [stepSweep] at hs
  split at hs <;> cases hs
  rename_i gone
  refine h.goOn hslack hk _ s.tier.uploaded nofun nofun (fun _ _ => trivial) fun c htook => ?_
  refine mem_filterMap.2 ⟨chunkKey c, htook, ?_⟩
  rw [chunkHexOfKey_chunkKey, Option.bind_some, Digest.fromHex_hex]

theorem unmarkChunk {c : Digest} (hs : s.stepSweep k sw (.unmarkChunk c) = some s') :
    s'.Backed manifestOf slack := by
  obtain ⟨now, grace, phase⟩ := sw
  simp only [stepSweep] at hs
  split at hs <;> try cases hs
  rename_i hashes
  split_ifs at hs with hc
  cases hs
  have hmark : ∀ x, update s.tier.marked c false x = true → x ≠ c ∧ s.tier.marked x = true := by
    intro x hx
    rcases update_cases hx with ⟨-, ⟨⟩⟩ | hx
    exact hx
  refine h.sweepStep hslack hk _ { s.tier with marked := update s.tier.marked c false } (fun o ho => ho) rfl
    (fun c _ hc => hc) (fun o ho id m hkey hm c hc _ => .inr trivial) (fun p a ha c hc _ => trivial) nofun
    (fun x hx => (hmark x hx).2) ?_
  rintro x hx (htook | hhas)
  · exact .inr (mem_filter.2 ⟨htook, decide_eq_true (hmark x hx).1⟩)
  · exact .inl hhas

end Backed

theorem Backed.ends (h : s.Backed manifestOf slack) {s' : Tiering} (ht : s'.tier = s.tier) (hc : s'.clock = s.clock)
    (hpushes : ∀ p a, s'.pushes p = some a → s.pushes p = some a)
    (hsweeps : ∀ k sw, s'.sweeps k = some sw → s.sweeps k = some sw)
    (htook : ∀ k sw, s.sweeps k = some sw → s'.sweeps k = some sw ∨ ∀ c, sw.Took c → s.tier.marked c = false) :
    s'.Backed manifestOf slack := by
  refine h.keep (ht ▸ h.addressed) (by rw [ht]) hc.ge (fun p a ha => h.pushes p a (hpushes p a ha))
    (fun k sw hk => .inl (hsweeps k sw hk)) fun c hmark => ?_
  rw [ht] at hmark
  rcases h.markers c hmark with hc | ⟨k, sw, hk, hc⟩
  · exact .inl hc
  · rcases htook k sw hk with hk' | hnot
    · exact .inr ⟨k, sw, hk', hc⟩
    · simp [hnot c hc] at hmark

theorem Backed.stepSweep (h : s.Backed manifestOf slack) (hslack : 0 ≤ slack) {k : ℕ} {sw : SweepState}
    (hk : s.sweeps k = some sw) (htimed : ∀ p a, s.pushes p = some a → s.clock ≤ a.started + slack)
    {e : SweepStep} (hcare : s.Careful manifestOf (.sweep k e)) (hs : s.stepSweep k sw e = some s') :
    s'.Backed manifestOf slack := by
  cases e with
  | deleteSnapshot key => exact h.deleteSnapshot hslack hk hs
  | listLayers live => exact h.listLayers hslack hk hcare htimed hs
  | deleteLayer key => exact h.deleteLayer hslack hk hs
  | unmarkLayers => exact h.unmarkLayers hslack hk hs
  | readManifest => exact h.readManifest hslack hk hs
  | listChunks => exact h.listChunks hslack hk hs
  | deleteChunk key => exact h.deleteChunk hslack hk hs
  | chunksDeleted => exact h.chunksDeleted hslack hk hs
  | unmarkChunk c => exact h.unmarkChunk hslack hk hs
  | stop =>
    cases hs
    refine h.ends rfl rfl (fun p a ha => ha) (fun k' sw' hk' => ?_) fun k' sw' hk' => ?_
    · rcases update_cases hk' with ⟨-, ⟨⟩⟩ | ⟨-, hk'⟩
      exact hk'
    · by_cases heq : k' = k
      · subst heq
        exact .inr (hcare sw' hk')
      · exact .inl ((update_of_ne heq _ _).trans hk')

theorem Addressed.layers_filter (h : Addressed manifestOf s.tier) {id : Digest} :
    Addressed manifestOf { s.tier with layers := s.tier.layers.filter fun x => x.1 ≠ id.hex } where
  bucket := h.bucket
  layers := by
    intro d m hm
    obtain ⟨x, hx, rfl⟩ := Option.map_eq_some_iff.1 hm
    have hlook : Keyed.look Prod.fst (s.tier.layers.filter fun x => x.1 ≠ id.hex) d.hex = _ :=
      Keyed.look_filter (fun key => decide (key ≠ id.hex)) s.tier.layers d.hex
    rw [hlook] at hx
    split_ifs at hx
    exact h.layers d x.2 (Option.map_eq_some_iff.2 ⟨x, hx, rfl⟩)

theorem Addressed.layers_cons (h : Addressed manifestOf s.tier) {id : Digest} :
    Addressed manifestOf { s.tier with
      layers := (id.hex, manifestOf id) :: s.tier.layers.filter fun x => x.1 ≠ id.hex } where
  bucket := h.bucket
  layers := by
    intro d m hm
    obtain ⟨x, hx, rfl⟩ := Option.map_eq_some_iff.1 hm
    rw [Keyed.look, find?_cons] at hx
    split at hx
    · rename_i heq
      obtain rfl := Option.some.inj hx
      rw [Digest.hex_inj (of_decide_eq_true heq)]
    · exact h.layers_filter.layers d x.2 (Option.map_eq_some_iff.2 ⟨x, hx, rfl⟩)

theorem Backed.setLayers (h : s.Backed manifestOf slack) {layers : List (String × Manifest Digest)}
    (ha : Addressed manifestOf { s.tier with layers }) :
    Backed manifestOf slack { s with tier := { s.tier with layers } } :=
  h.keep ha rfl le_rfl h.pushes (fun _ _ => .inl) h.markers

theorem Backed.startPush (h : s.Backed manifestOf slack) {p : ℕ} {layer : Digest} {journal : Option Journal}
    (hs : s.step manifestOf (.startPush p layer journal) = some s') : s'.Backed manifestOf slack := by
  simp only [step] at hs
  split at hs <;> cases hs
  rename_i m hp hm
  exact h.setPush_some ⟨h.addressed.layers layer m hm, le_rfl, fun c hc => .inl hc, nofun, nofun, nofun, nofun⟩

theorem Backed.startSweep (h : s.Backed manifestOf slack) {k : ℕ} {grace : ℤ} (hgrace : slack < grace)
    (hs : s.step manifestOf (.startSweep k grace) = some s') : s'.Backed manifestOf slack := by
  simp only [step] at hs
  split_ifs at hs with hk
  cases hs
  refine h.keep h.addressed rfl le_rfl h.pushes (fun k' sw' hk' => ?_) fun c hmark => (h.markers c hmark).imp_right ?_
  · rcases update_cases hk' with ⟨-, ⟨⟩⟩ | ⟨-, hk'⟩
    · exact .inr ⟨rfl, le_rfl, hgrace, nofun⟩
    · exact .inl hk'
  · rintro ⟨k', sw', hk', htook⟩
    have hne : k' ≠ k := by
      rintro rfl
      simp [hk] at hk'
    exact ⟨k', sw', (update_of_ne hne _ _).trans hk', htook⟩

theorem Backed.step {d : ℤ} (h : s.Backed manifestOf (UNHEADED_TRUST_SECONDS + d)) (hd : 0 ≤ d) {e : TierEvent}
    (htimed : s.Timed d e) (hcare : s.Careful manifestOf e) (hs : s.step manifestOf e = some s') :
    s'.Backed manifestOf (UNHEADED_TRUST_SECONDS + d) := by
  have htrust : 0 ≤ UNHEADED_TRUST_SECONDS := by decide
  have hslack : 0 ≤ UNHEADED_TRUST_SECONDS + d := by omega
  cases e with
  | tick seconds =>
    cases hs
    exact h.frame rfl rfl (by dsimp only; omega) rfl rfl fun _ => .inl
  | addLayer id =>
    cases hs
    exact h.setLayers h.addressed.layers_cons
  | removeLayer id =>
    cases hs
    exact h.setLayers h.addressed.layers_filter
  | markUnheaded disk =>
    simp only [Tiering.step] at hs
    split_ifs at hs
    split at hs
    · cases hs
      exact h
    · cases hs
      exact h.frame rfl rfl le_rfl rfl rfl fun _ => .inl
  | removeJournal j =>
    simp only [Tiering.step] at hs
    split_ifs at hs
    cases hs
    exact h.frame rfl rfl le_rfl rfl rfl fun _ => .inl
  | expireJournal j row =>
    by_cases hmu : s.journalMu ≠ none
    · simp [Tiering.step, if_pos hmu] at hs
    rw [Tiering.step, if_neg hmu] at hs
    unfold expireJournal at hs
    split at hs
    · cases hs
    rename_i f hf
    by_cases hold : s.clock - f.since ≤ UNHEADED_TRUST_SECONDS
    · rw [if_pos hold] at hs
      cases hs
    rw [if_neg hold] at hs
    cases hs
    refine h.frame rfl rfl le_rfl rfl rfl fun c hc => .inl ?_
    exact (Bool.and_eq_true_iff.1 hc).1
  | startPush p layer journal => exact h.startPush hs
  | push p e =>
    obtain ⟨a, ha, hs⟩ := Option.bind_eq_some_iff.1 hs
    exact h.stepPush hslack ha hcare hs
  | startSweep k grace => exact h.startSweep (htimed.sweeps k grace rfl) hs
  | sweep k e =>
    obtain ⟨sw, hk, hs⟩ := Option.bind_eq_some_iff.1 hs
    refine h.stepSweep hslack hk (fun p a ha => ?_) hcare hs
    have := htimed.pushes p a ha
    omega
  | crash =>
    cases hs
    exact h.ends rfl rfl nofun nofun fun k sw hk => .inr (hcare k sw hk)

variable (manifestOf) in
/-- Nothing is in flight, and every marker and every manifest is backed. -/
structure Fresh (s : Tiering) : Prop where
  pushes : ∀ p, s.pushes p = none
  sweeps : ∀ k, s.sweeps k = none
  addressed : Addressed manifestOf s.tier
  manifests : s.NoChunkMissing
  markers : ∀ c, s.tier.marked c = true → s.tier.bucket.Has (chunkKey c)

theorem Fresh.backed (h : s.Fresh manifestOf) : s.Backed manifestOf slack where
  addressed := h.addressed
  sweeps := fun k sw hk => by
    simp [h.sweeps k] at hk
  has := h.manifests
  spared := fun o ho id m hkey hm c hc k sw hk => by
    simp [h.sweeps k] at hk
  pushes := fun p a hp => by
    simp [h.pushes p] at hp
  markers := fun c hc => .inl (h.markers c hc)

/-- In the runs that take careful steps no manifest in the bucket ever misses a chunk. -/
theorem no_chunk_missing {s₀ : Tiering} (h₀ : s₀.Fresh manifestOf) {d : ℤ} (hd : 0 ≤ d)
    (h : Runs.Reach (step manifestOf) (fun s e => s.Timed d e ∧ s.Careful manifestOf e) s₀ s) :
    s.NoChunkMissing := by
  have hbacked : s.Backed manifestOf (UNHEADED_TRUST_SECONDS + d) :=
    h.invariant h₀.backed fun s e s' hs hok hstep => hs.step hd hok.1 hok.2 hstep
  exact hbacked.has

def clashManifest : Manifest Digest := ⟨1, 1, none, [.data 0 digestC 1 1]⟩

def clashLayer : StoredObject := ⟨⟨manifestKey digestA, 100, 1000000⟩, .manifest clashManifest⟩

/-- A node with that layer, whose chunk is marked, with one push and one sweep in flight at most. -/
def clash (bucket : Bucket) (push : Option Push) (sweep : Option SweepPhase) : Tiering where
  tier :=
    { bucket
      layers := [(digestA.hex, clashManifest)]
      uploaded := fun _ => false
      marked := fun h => h = digestC }
  clock := 1000000
  journals := fun _ => none
  journalMu := none
  pushes := fun p => if p = 0 then push else none
  sweeps := fun k => if k = 0 then sweep.map fun phase => ⟨1000000, 86400, phase⟩ else none

def clashPush (todo trusted : List Digest) (manifestPut : Bool) : Push :=
  { layer := digestA, manifest := clashManifest, started := 1000000, journal := none, todo, trusted, manifestPut }

def oldBucket : Bucket := ⟨[chunkObject], nodup_singleton _⟩

section Clash
variable {bucket : Bucket} {push : Option Push} {sweep : Option SweepPhase} {phase : SweepPhase}

theorem update_only {α : Type} (x y : Option α) :
    update (fun n : ℕ => if n = 0 then x else none) 0 y = fun n => if n = 0 then y else none := by
  funext n
  by_cases h : n = 0
  · subst h
    rw [update_self, if_pos rfl]
  · rw [update_of_ne h, if_neg h, if_neg h]

theorem clash_setPush (a : Push) : (clash bucket push sweep).setPush 0 (some a) = clash bucket (some a) sweep :=
  congrArg (fun f => { clash bucket push sweep with pushes := f }) (update_only push (some a))

theorem clash_setPhase (phase' : SweepPhase) :
    (clash bucket push (some phase)).setPhase 0 ⟨1000000, 86400, phase⟩ phase' = clash bucket push (some phase') :=
  congrArg (fun f => { clash bucket push none with sweeps := f }) (update_only _ (some ⟨1000000, 86400, phase'⟩))

theorem clash_startSweep : (clash bucket push none).step (fun _ => clashManifest) (.startSweep 0 86400) =
    some (clash bucket push (some .heads)) :=
  congrArg (fun f => some ({ clash bucket push none with sweeps := f } : Tiering))
    (update_only (none : Option SweepState) (some ⟨1000000, 86400, .heads⟩))

theorem clash_startPush : (clash bucket none sweep).step (fun _ => clashManifest) (.startPush 0 digestA none) =
    some (clash bucket (some (clashPush [digestC] [] false)) sweep) :=
  congrArg some (clash_setPush _)

theorem clash_testMarker :
    (clash bucket (some (clashPush [digestC] [] false)) sweep).step (fun _ => clashManifest)
      (.push 0 (.testMarker digestC)) = some (clash bucket (some (clashPush [] [digestC] false)) sweep) :=
  congrArg some (clash_setPush _)

theorem clash_putManifest :
    (clash bucket (some (clashPush [] [digestC] false)) sweep).step (fun _ => clashManifest)
      (.push 0 (.putManifest 100)) =
        some (clash (bucket.put clashLayer) (some (clashPush [] [digestC] true)) sweep) :=
  congrArg some (clash_setPush _)

theorem clash_timed {e : TierEvent} (hpush : ∀ a, push = some a → a.started = 1000000)
    (he : ∀ k grace, e = .startSweep k grace → grace = 86400) : (clash bucket push sweep).Timed 100 e where
  pushes := fun p a ha => by
    by_cases h : p = 0
    · subst h
      rw [hpush a ha]
      exact (by decide : (1000000 : ℤ) ≤ 1000000 + 100)
    · simp [show (clash bucket push sweep).pushes p = none from if_neg h] at ha
  sweeps := fun k grace heq => by
    rw [he k grace heq]
    decide

theorem clash_grace : ∀ k grace, TierEvent.startSweep 0 86400 = .startSweep k grace → grace = 86400 :=
  fun _ _ he => (TierEvent.startSweep.inj he).2.symm

theorem clashPush_started {todo trusted : List Digest} {put : Bool} :
    ∀ a, some (clashPush todo trusted put) = some a → a.started = 1000000 := by
  intro a ha
  rw [← Option.some.inj ha]
  rfl

theorem clash_sweep {k : ℕ} {sw : SweepState} (hk : (clash bucket push sweep).sweeps k = some sw) :
    ∃ phase, sweep = some phase ∧ sw = ⟨1000000, 86400, phase⟩ := by
  by_cases h : k = 0
  · subst h
    obtain ⟨phase, hphase, rfl⟩ := Option.map_eq_some_iff.1 hk
    exact ⟨phase, hphase, rfl⟩
  · simp [show (clash bucket push sweep).sweeps k = none from if_neg h] at hk

theorem clash_push {p : ℕ} {a : Push} (hp : (clash bucket push sweep).pushes p = some a) : push = some a := by
  by_cases h : p = 0
  · subst h
    exact hp
  · simp [show (clash bucket push sweep).pushes p = none from if_neg h] at hp

end Clash

theorem clash_fresh : (clash oldBucket none none).Fresh fun _ => clashManifest where
  pushes := fun _ => ite_self _
  sweeps := fun _ => ite_self _
  addressed := by
    refine ⟨fun o ho id m hkey hm => ?_, fun d m hm => ?_⟩
    · obtain rfl := mem_singleton.1 ho
      cases hm
    · obtain ⟨x, hx, rfl⟩ := Option.map_eq_some_iff.1 hm
      rw [mem_singleton.1 (Keyed.look_mem hx)]
  manifests := by
    intro o ho id m hkey hm
    obtain rfl := mem_singleton.1 ho
    cases hm
  markers := by
    intro c hc
    rw [of_decide_eq_true hc]
    exact ⟨chunkObject, mem_singleton_self _, rfl⟩

/-- With no sweep in flight the push may trust the chunk; a sweep that comes then sees its manifest. -/
theorem no_chunk_missing_pushed : ∃ s : Tiering, clashLayer ∈ s.tier.bucket.objects ∧
    (∃ sw, s.sweeps 0 = some sw ∧ sw.phase ≠ .heads) ∧ s.NoChunkMissing := by
  have h₀ : Runs.Reach (step fun _ => clashManifest)
      (fun s e => s.Timed 100 e ∧ s.Careful (fun _ => clashManifest) e) (clash oldBucket none none)
      (clash oldBucket none none) := .init
  have h1 := h₀.step (e := .startPush 0 digestA none) ⟨clash_timed nofun nofun, trivial⟩ clash_startPush
  have h2 := h1.step (e := .push 0 (.testMarker digestC)) ⟨clash_timed clashPush_started nofun, fun _ k sw hk => ?_⟩
    clash_testMarker
  have h3 := h2.step (e := .push 0 (.putManifest 100)) ⟨clash_timed clashPush_started nofun, trivial⟩
    clash_putManifest
  have hcare : (clash (oldBucket.put clashLayer) (some (clashPush [] [digestC] true)) none).Careful
      (fun _ => clashManifest) (.startSweep 0 86400) := trivial
  have h4 := h3.step ⟨clash_timed clashPush_started clash_grace, hcare⟩ clash_startSweep
  have h5 := h4.step (e := .sweep 0 (.listLayers [])) ⟨clash_timed clashPush_started nofun, ?_⟩ rfl
  · refine ⟨_, ?_, ⟨_, rfl, ?_⟩, no_chunk_missing clash_fresh (by decide) h5⟩
    · exact mem_put.2 (.inl rfl)
    · intro h
      cases h
  · intro sw hk p a ha c hc
    obtain ⟨phase, -, rfl⟩ := clash_sweep hk
    obtain rfl := Option.some.inj (clash_push ha)
    obtain rfl := mem_singleton.1 hc
    refine .inr ⟨clashLayer, mem_put.2 (.inl rfl), digestA.hex, rfl, ⟨digestA, rfl, ?_⟩, .inr rfl⟩
    exact mem_singleton_self _
  · obtain ⟨phase, hphase, -⟩ := clash_sweep hk
    cases hphase

/-- A sweep has listed the layers and the chunks when the push puts its manifest, and deletes the
chunk. -/
theorem trusted_chunk_is_swept : ∃ s : Tiering, (clash oldBucket none none).Fresh (fun _ => clashManifest) ∧
    Runs.Reach (step fun _ => clashManifest) (fun s e => s.Timed 100 e) (clash oldBucket none none) s ∧
    ¬ s.NoChunkMissing := by
  have hplan : (planChunks [chunkObject.toRemoteObject] [] 1000000 86400).1 = [chunkKey digestC] := by
    decide +kernel
  have h₀ : Runs.Reach (step fun _ => clashManifest) (fun s e => s.Timed 100 e) (clash oldBucket none none)
      (clash oldBucket none none) := .init
  have h1 := h₀.step (e := .startSweep 0 86400)
    (clash_timed nofun clash_grace) clash_startSweep
  have h2 := h1.step (e := .sweep 0 (.listLayers [])) (clash_timed nofun nofun)
    (congrArg some (clash_setPhase (.layers [] [] [])))
  have h3 := h2.step (e := .sweep 0 .unmarkLayers) (clash_timed nofun nofun)
    (congrArg some (clash_setPhase (.read [] [])))
  have h4 := h3.step (e := .sweep 0 .listChunks) (clash_timed nofun nofun)
    (congrArg some ((clash_setPhase _).trans (congrArg (fun l => clash oldBucket none (some (.chunks l []))) hplan)))
  have h5 := h4.step (e := .startPush 0 digestA none) (clash_timed nofun nofun) clash_startPush
  have h6 := h5.step (e := .push 0 (.testMarker digestC)) (clash_timed clashPush_started nofun) clash_testMarker
  have h7 := h6.step (e := .push 0 (.putManifest 100)) (clash_timed clashPush_started nofun) clash_putManifest
  have h8 := h7.step (e := .sweep 0 (.deleteChunk (chunkKey digestC))) (clash_timed clashPush_started nofun) rfl
  refine ⟨_, clash_fresh, h8, fun h => ?_⟩
  have hlayer : clashLayer ∈ ((oldBucket.put clashLayer).delete (chunkKey digestC)).objects :=
    mem_delete.2 ⟨mem_put.2 (.inl rfl), (chunkKey_ne_layerKey digestC digestA.hex).symm⟩
  obtain ⟨o, ho, hkey⟩ := h clashLayer hlayer digestA.hex clashManifest rfl rfl digestC (mem_singleton_self _)
  exact (mem_delete.1 ho).2 hkey

end Tiering

end FeOS
