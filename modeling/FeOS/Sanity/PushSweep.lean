import FeOS.Spec.Tiering
import FeOS.Sanity.SweepRun

/-! What pushes and sweeps in flight know of the bucket, and what each of their steps keeps of
it. A sweep spares a chunk that it will find named or young; a push may rely on the chunks that
every sweep in flight spares. -/

namespace FeOS

open Function Bucket

section Buckets
variable {b : Bucket} {o o' : StoredObject} {key : String}

theorem Bucket.mem_put : o' ∈ (b.put o).objects ↔ o' = o ∨ o' ∈ b.objects ∧ o'.key ≠ o.key := by
  simp [put]

theorem Bucket.mem_delete : o ∈ (b.delete key).objects ↔ o ∈ b.objects ∧ o.key ≠ key := by
  simp [delete, mem_keep]

theorem Bucket.Has.put (h : b.Has key) : (b.put o).Has key := by
  obtain ⟨o', ho', rfl⟩ := h
  by_cases hkey : o'.key = o.key
  · exact ⟨o, mem_put.2 (.inl rfl), hkey.symm⟩
  · exact ⟨o', mem_put.2 (.inr ⟨ho', hkey⟩), rfl⟩

theorem Bucket.has_put : (b.put o).Has o.key := ⟨o, mem_put.2 (.inl rfl), rfl⟩

theorem Bucket.Has.delete {key' : String} (h : b.Has key) (hne : key ≠ key') : (b.delete key').Has key := by
  obtain ⟨o, ho, rfl⟩ := h
  exact ⟨o, mem_delete.2 ⟨ho, hne⟩, rfl⟩

end Buckets

variable (manifestOf : Digest → Manifest Digest)

def Names (id : String) (h : Digest) : Prop := ∃ d : Digest, d.hex = id ∧ h ∈ (manifestOf d).dataHashes

def YoungFor (b : Bucket) (sw : SweepState) (h : Digest) : Prop :=
  ∀ o ∈ b.objects, o.key = chunkKey h → tooYoung o.toRemoteObject sw.now sw.grace = true

namespace SweepState

def Spares (b : Bucket) (sw : SweepState) (h : Digest) : Prop :=
  match sw.phase with
  | .heads => True
  | .layers _ _ surviving => (∃ id ∈ surviving, Names manifestOf id h) ∨ YoungFor b sw h
  | .read ids referenced => h ∈ referenced ∨ (∃ id ∈ ids, Names manifestOf id h) ∨ YoungFor b sw h
  | .chunks left _ => chunkKey h ∉ left
  | .unmark _ => True

def Deletes (sw : SweepState) (h : Digest) : Prop :=
  match sw.phase with
  | .chunks left _ => chunkKey h ∈ left
  | _ => False

def Doomed (sw : SweepState) (key : String) : Prop :=
  match sw.phase with
  | .layers _ left _ => key ∈ left
  | _ => False

def Took (sw : SweepState) (h : Digest) : Prop :=
  match sw.phase with
  | .chunks _ gone => chunkKey h ∈ gone
  | .unmark hashes => h ∈ hashes
  | _ => False

end SweepState

namespace Tiering

def Has (s : Tiering) (h : Digest) : Prop := s.tier.bucket.Has (chunkKey h)

structure Secure (s : Tiering) (h : Digest) : Prop where
  has : s.Has h
  spared : ∀ k sw, s.sweeps k = some sw → sw.Spares manifestOf s.tier.bucket h

structure PushOk (s : Tiering) (a : Push) : Prop where
  named : a.manifest = manifestOf a.layer
  started : a.started ≤ s.clock
  covers : ∀ h ∈ a.manifest.dataHashes, h ∈ a.todo ∨ h ∈ a.unmarked ∨ h ∈ a.trusted ∨ h ∈ a.uploaded
  batch : ∀ h ∈ a.batch, h ∈ a.trusted ∨ h ∈ a.uploaded
  listed : ∀ h ∈ a.listed, h ∈ a.trusted ∨ h ∈ a.uploaded
  secure : ∀ h, h ∈ a.trusted ∨ h ∈ a.uploaded → s.Secure manifestOf h
  fresh : ∀ h ∈ a.uploaded, ∀ o ∈ s.tier.bucket.objects, o.key = chunkKey h → a.started ≤ o.modifiedUnix

/-- What holds of a sweep in flight: it started before now, with a grace above `slack`, and what
it is about to delete in its second pass are manifests. -/
structure SweepOk (slack : ℤ) (s : Tiering) (sw : SweepState) : Prop where
  now : sw.now ≤ s.clock
  grace : slack < sw.grace
  doomed : ∀ key, sw.Doomed key → ∃ id, key = layerKey id

structure Addressed (t : Tier) : Prop where
  bucket : ∀ o ∈ t.bucket.objects, ∀ id m, o.key = layerKey id → o.body = .manifest m →
    ∃ d : Digest, d.hex = id ∧ m = manifestOf d
  layers : ∀ d m, t.localLayer d.hex = some m → m = manifestOf d

/-- What holds in every state: the chunks of a manifest in the bucket are there, and every sweep
in flight spares them or is about to delete that manifest; a marker is backed, or about to be
removed by the sweep that deleted its chunk. -/
structure Backed (slack : ℤ) (s : Tiering) : Prop where
  addressed : Addressed manifestOf s.tier
  sweeps : ∀ k sw, s.sweeps k = some sw → s.SweepOk slack sw
  has : ∀ o ∈ s.tier.bucket.objects, ∀ id m, o.key = layerKey id → o.body = .manifest m →
    ∀ h ∈ m.dataHashes, s.Has h
  spared : ∀ o ∈ s.tier.bucket.objects, ∀ id m, o.key = layerKey id → o.body = .manifest m →
    ∀ h ∈ m.dataHashes, ∀ k sw, s.sweeps k = some sw → sw.Doomed o.key ∨ sw.Spares manifestOf s.tier.bucket h
  pushes : ∀ p a, s.pushes p = some a → s.PushOk manifestOf a
  markers : ∀ h, s.tier.marked h = true → s.Has h ∨ ∃ k sw, s.sweeps k = some sw ∧ sw.Took h

end Tiering

variable {manifestOf}

theorem SweepState.Spares.mono {b b' : Bucket} {sw : SweepState} {h : Digest} (hs : sw.Spares manifestOf b h)
    (hb : ∀ o ∈ b'.objects, o ∈ b.objects ∨ sw.now ≤ o.modifiedUnix) (hg : 0 < sw.grace) :
    sw.Spares manifestOf b' h := by
  have hyoung : YoungFor b sw h → YoungFor b' sw h := by
    intro hy o ho hkey
    rcases hb o ho with ho | hnow
    · exact hy o ho hkey
    · simp only [tooYoung, Bool.and_eq_true, decide_eq_true_eq]
      omega
  unfold Spares at hs ⊢
  cases hph : sw.phase with
  | heads => trivial
  | layers dead left surviving =>
    rw [hph] at hs
    exact hs.imp_right hyoung
  | read ids referenced =>
    rw [hph] at hs
    exact hs.imp_right (Or.imp_right hyoung)
  | chunks left gone =>
    rwa [hph] at hs
  | unmark hashes => trivial

namespace Tiering

variable {slack : ℤ} {s : Tiering}

variable {p k : ℕ} {a : Option Push} {sw : SweepState} {s' : Tiering}

theorem setPhase_self (hk : s.sweeps k = some sw) {t' : Tier} :
    ({ s with tier := t' } : Tiering).setPhase k sw sw.phase = { s with tier := t' } := by
  unfold setPhase
  rw [← hk, update_eq_self]

theorem PushOk.congr {a : Push} (ha : s.PushOk manifestOf a) (hc : s.clock ≤ s'.clock)
    (hhas : ∀ c, s.Secure manifestOf c → s'.Secure manifestOf c)
    (hb : ∀ o ∈ s'.tier.bucket.objects, o ∈ s.tier.bucket.objects ∨ s.clock ≤ o.modifiedUnix) :
    s'.PushOk manifestOf a where
  named := ha.named
  started := ha.started.trans hc
  covers := ha.covers
  batch := ha.batch
  listed := ha.listed
  secure := fun c hc => hhas c (ha.secure c hc)
  fresh := fun c hc o ho hkey => (hb o ho).elim (fun h => ha.fresh c hc o h hkey) fun h => ha.started.trans h

theorem Addressed.mono {t t' : Tier} (h : Addressed manifestOf t) (hb : ∀ o ∈ t'.bucket.objects, o ∈ t.bucket.objects)
    (hl : t'.layers = t.layers) : Addressed manifestOf t' where
  bucket := fun o ho => h.bucket o (hb o ho)
  layers := fun d m => by
    rw [Tier.localLayer, hl]
    exact h.layers d m

theorem SweepState.spares_heads {b : Bucket} {c : Digest} (h : sw.phase = .heads) : sw.Spares manifestOf b c := by
  unfold SweepState.Spares
  rw [h]
  trivial

/-- The bucket stays, and of the sweeps those that are not new. -/
theorem Backed.keep (h : s.Backed manifestOf slack) (ha : Addressed manifestOf s'.tier) (hb : s'.tier.bucket = s.tier.bucket)
    (hc : s.clock ≤ s'.clock) (hpushes : ∀ p a, s'.pushes p = some a → s.PushOk manifestOf a)
    (hsweeps : ∀ k sw, s'.sweeps k = some sw → s.sweeps k = some sw ∨ sw.phase = .heads ∧ s'.SweepOk slack sw)
    (hmarkers : ∀ c, s'.tier.marked c = true → s.Has c ∨ ∃ k sw, s'.sweeps k = some sw ∧ sw.Took c) :
    s'.Backed manifestOf slack := by
  have hhas : ∀ c, s'.Has c ↔ s.Has c := fun c => by rw [Has, Has, hb]
  refine ⟨ha, fun k sw hk => ?_, ?_, ?_, fun p a ha => ?_, fun c hmark => ?_⟩
  · rcases hsweeps k sw hk with hk | ⟨-, hok⟩
    · exact { h.sweeps k sw hk with now := (h.sweeps k sw hk).now.trans hc }
    · exact hok
  · rw [hb]
    exact fun o ho id m hkey hm c hcm => (hhas c).2 (h.has o ho id m hkey hm c hcm)
  · rw [hb]
    intro o ho id m hkey hm c hcm k sw hk
    rcases hsweeps k sw hk with hk | ⟨hheads, -⟩
    · exact h.spared o ho id m hkey hm c hcm k sw hk
    · exact .inr (SweepState.spares_heads hheads)
  · refine (hpushes p a ha).congr hc (fun c hsec => ⟨(hhas c).2 hsec.has, fun k sw hk => ?_⟩) ?_
    · rw [hb]
      rcases hsweeps k sw hk with hk | ⟨hheads, -⟩
      · exact hsec.spared k sw hk
      · exact SweepState.spares_heads hheads
    · rw [hb]
      exact fun o ho => .inl ho
  · rw [hhas]
    exact hmarkers c hmark

theorem Backed.frame (h : s.Backed manifestOf slack) (hb : s'.tier.bucket = s.tier.bucket)
    (hl : s'.tier.layers = s.tier.layers) (hc : s.clock ≤ s'.clock) (hp : s'.pushes = s.pushes)
    (hs : s'.sweeps = s.sweeps) (hm : ∀ c, s'.tier.marked c = true → s.tier.marked c = true ∨ s.Has c) :
    s'.Backed manifestOf slack := by
  refine h.keep (h.addressed.mono (by rw [hb]; exact fun _ ho => ho) hl) hb hc (fun p a ha => h.pushes p a (hp ▸ ha))
    (fun k sw hk => .inl (hs ▸ hk)) fun c hmark => ?_
  rw [hs]
  exact (hm c hmark).elim (h.markers c) .inl

theorem Backed.setPush (h : s.Backed manifestOf slack)
    (ha : ∀ x, a = some x → s.PushOk manifestOf x) : (s.setPush p a).Backed manifestOf slack := by
  refine h.keep h.addressed rfl le_rfl (fun p' x hx => ?_) (fun _ _ => .inl) h.markers
  rcases update_cases hx with ⟨-, hx⟩ | ⟨-, hx⟩
  · exact ha x hx
  · exact h.pushes p' x hx

theorem Backed.setPush_some {a : Push} (h : s.Backed manifestOf slack) (ha : s.PushOk manifestOf a) :
    (s.setPush p (some a)).Backed manifestOf slack := by
  refine h.setPush fun x hx => ?_
  cases hx
  exact ha

section Buckets
variable (hslack : 0 ≤ slack)
include hslack

variable {o : StoredObject}

theorem Secure.put (h : s.Backed manifestOf slack) (hclock : o.modifiedUnix = s.clock) {c : Digest}
    (hc : s.Secure manifestOf c) : (s.setBucket (s.tier.bucket.put o)).Secure manifestOf c := by
  refine ⟨hc.has.put, fun k sw hk => ?_⟩
  obtain ⟨hnow, hgrace, -⟩ := h.sweeps k sw hk
  refine (hc.spared k sw hk).mono (fun o' ho' => ?_) (hslack.trans_lt hgrace)
  rcases mem_put.1 ho' with rfl | ho'
  · exact .inr (hclock ▸ hnow)
  · exact .inl ho'.1

theorem Backed.put (h : s.Backed manifestOf slack) (hclock : o.modifiedUnix = s.clock)
    (hman : ∀ id m, o.key = layerKey id → o.body = .manifest m →
      (∃ d : Digest, d.hex = id ∧ m = manifestOf d) ∧ ∀ c ∈ m.dataHashes, s.Secure manifestOf c) :
    (s.setBucket (s.tier.bucket.put o)).Backed manifestOf slack := by
  have hnew : ∀ o' ∈ (s.tier.bucket.put o).objects, o' ∈ s.tier.bucket.objects ∨ s.clock ≤ o'.modifiedUnix := by
    intro o' ho'
    rcases mem_put.1 ho' with rfl | ho'
    · exact .inr hclock.ge
    · exact .inl ho'.1
  constructor
  · refine ⟨fun o' ho' id m hkey hm => ?_, h.addressed.layers⟩
    rcases mem_put.1 ho' with rfl | ho'
    · exact (hman id m hkey hm).1
    · exact h.addressed.bucket o' ho'.1 id m hkey hm
  · exact fun k sw hk => { h.sweeps k sw hk with }
  · intro o' ho' id m hkey hm c hc
    rcases mem_put.1 ho' with rfl | ho'
    · exact ((hman id m hkey hm).2 c hc).has.put
    · exact (h.has o' ho'.1 id m hkey hm c hc).put
  · intro o' ho' id m hkey hm c hc k sw hk
    obtain ⟨hnow, hgrace, -⟩ := h.sweeps k sw hk
    rcases mem_put.1 ho' with rfl | ho'
    · exact .inr ((((hman id m hkey hm).2 c hc).put hslack h hclock).spared k sw hk)
    · refine (h.spared o' ho'.1 id m hkey hm c hc k sw hk).imp_right fun hsp => ?_
      exact hsp.mono (fun o1 ho1 => (hnew o1 ho1).imp_right hnow.trans) (hslack.trans_lt hgrace)
  · intro p a ha
    exact (h.pushes p a ha).congr le_rfl (fun c hc => hc.put hslack h hclock) hnew
  · intro c hmark
    exact (h.markers c hmark).imp_left Has.put

theorem Backed.sweepStep (h : s.Backed manifestOf slack) {k : ℕ} {sw : SweepState} (hk : s.sweeps k = some sw)
    (phase : SweepPhase) (t' : Tier) (hsub : ∀ o ∈ t'.bucket.objects, o ∈ s.tier.bucket.objects)
    (hlayers : t'.layers = s.tier.layers)
    (hhas : ∀ c, (∃ key, sw.Doomed key) ∨ sw.Spares manifestOf s.tier.bucket c → s.Has c →
      t'.bucket.Has (chunkKey c))
    (hmanifests : ∀ o ∈ t'.bucket.objects, ∀ id m, o.key = layerKey id → o.body = .manifest m → ∀ c ∈ m.dataHashes,
      sw.Doomed o.key ∨ sw.Spares manifestOf s.tier.bucket c →
      ({ sw with phase } : SweepState).Doomed o.key ∨ ({ sw with phase } : SweepState).Spares manifestOf t'.bucket c)
    (hpushes : ∀ p a, s.pushes p = some a → ∀ c, c ∈ a.trusted ∨ c ∈ a.uploaded →
      sw.Spares manifestOf s.tier.bucket c → ({ sw with phase } : SweepState).Spares manifestOf t'.bucket c)
    (hdoomed : ∀ key, ({ sw with phase } : SweepState).Doomed key → ∃ id, key = layerKey id)
    (hmarks : ∀ c, t'.marked c = true → s.tier.marked c = true)
    (htook : ∀ c, t'.marked c = true → sw.Took c ∨ s.Has c →
      t'.bucket.Has (chunkKey c) ∨ ({ sw with phase } : SweepState).Took c) :
    (({ s with tier := t' } : Tiering).setPhase k sw phase).Backed manifestOf slack := by
  have hsweep : ∀ {k' : ℕ} {sw' : SweepState},
      (({ s with tier := t' } : Tiering).setPhase k sw phase).sweeps k' = some sw' →
      (k' = k ∧ sw' = { sw with phase }) ∨ (k' ≠ k ∧ s.sweeps k' = some sw') := by
    exact fun hk' => (update_cases hk').imp_left fun ⟨heq, hsw⟩ => ⟨heq, (Option.some.inj hsw).symm⟩
  have hmono : ∀ {k' : ℕ} {sw' : SweepState} {c : Digest}, s.sweeps k' = some sw' →
      sw'.Spares manifestOf s.tier.bucket c → sw'.Spares manifestOf t'.bucket c := by
    intro k' sw' c hk' hsp
    exact hsp.mono (fun o ho => .inl (hsub o ho)) (hslack.trans_lt (h.sweeps k' sw' hk').grace)
  constructor
  · exact h.addressed.mono hsub hlayers
  · intro k' sw' hk'
    rcases hsweep hk' with ⟨-, rfl⟩ | ⟨-, hk'⟩
    · exact { h.sweeps k sw hk with doomed := hdoomed }
    · exact { h.sweeps k' sw' hk' with }
  · intro o ho id m hkey hm c hc
    refine hhas c ?_ (h.has o (hsub o ho) id m hkey hm c hc)
    exact (h.spared o (hsub o ho) id m hkey hm c hc k sw hk).imp_left fun hd => ⟨_, hd⟩
  · intro o ho id m hkey hm c hc k' sw' hk'
    rcases hsweep hk' with ⟨-, rfl⟩ | ⟨-, hk'⟩
    · exact hmanifests o ho id m hkey hm c hc (h.spared o (hsub o ho) id m hkey hm c hc k sw hk)
    · exact (h.spared o (hsub o ho) id m hkey hm c hc k' sw' hk').imp_right (hmono hk')
  · intro p a ha
    have hok := h.pushes p a ha
    have hsec : ∀ c, c ∈ a.trusted ∨ c ∈ a.uploaded →
        (({ s with tier := t' } : Tiering).setPhase k sw phase).Secure manifestOf c := by
      intro c hc
      have hsec := hok.secure c hc
      refine ⟨hhas c (.inr (hsec.spared k sw hk)) hsec.has, fun k' sw' hk' => ?_⟩
      rcases hsweep hk' with ⟨-, rfl⟩ | ⟨-, hk'⟩
      · exact hpushes p a ha c hc (hsec.spared k sw hk)
      · exact hmono hk' (hsec.spared k' sw' hk')
    exact ⟨hok.named, hok.started, hok.covers, hok.batch, hok.listed, hsec,
      fun c hc o ho => hok.fresh c hc o (hsub o ho)⟩
  · intro c hmark
    have hself : (({ s with tier := t' } : Tiering).setPhase k sw phase).sweeps k = some { sw with phase } := update_self ..
    rcases h.markers c (hmarks c hmark) with hc | ⟨k', sw', hk', hc⟩
    · exact (htook c hmark (.inr hc)).imp_right fun ht => ⟨k, _, hself, ht⟩
    · by_cases heq : k' = k
      · subst heq
        rw [hk, Option.some.injEq] at hk'
        subst hk'
        exact (htook c hmark (.inl hc)).imp_right fun ht => ⟨k', _, hself, ht⟩
      · exact .inr ⟨k', sw', (update_of_ne heq _ _).trans hk', hc⟩

end Buckets

end Tiering

end FeOS
