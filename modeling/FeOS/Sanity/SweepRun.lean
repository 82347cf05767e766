import FeOS.Lib.Calls
import FeOS.Sanity.SweepPlan

/-! What each pass of a sweep reads and takes, in terms of the bucket it found. -/

namespace FeOS

open List Results Bucket

namespace Bucket
variable {b : Bucket} {o o' : StoredObject} {key : String}

theorem key_inj (ho : o ∈ b.objects) (ho' : o' ∈ b.objects) (h : o.key = o'.key) : o = o' :=
  inj_on_of_nodup_map b.nodup ho ho' h

def Has (b : Bucket) (key : String) : Prop := ∃ o ∈ b.objects, o.key = key

theorem find_eq_some : b.find key = some o ↔ o ∈ b.objects ∧ o.key = key :=
  Keyed.look_eq_some b.nodup

variable {stays : String → Bool}

theorem mem_keep :
    o ∈ (b.keep stays).objects ↔ o ∈ b.objects ∧ stays o.key = true := by
  simp [keep]

theorem find_keep (h : stays key = true) :
    (b.keep stays).find key = b.find key := by
  unfold find keep
  rw [Keyed.look_filter, if_pos h]

end Bucket

section Deletes
variable {t : Tier} {env : SweepEnv} {dryRun : Bool} {keys : List String}

def staysAfter (env : SweepEnv) (dryRun : Bool) (keys : List String) (key : String) : Bool :=
  dryRun || !(key ∈ keys && (env.fails (.delete key)).isNone)

theorem staysAfter_eq_false {key : String} : staysAfter env dryRun keys key = false ↔
    dryRun = false ∧ key ∈ keys ∧ env.fails (.delete key) = none := by
  simp [staysAfter]

variable {b : Bucket}

theorem keep_nil : b.keep (staysAfter env dryRun []) = b := by
  simp [keep, staysAfter]

theorem keep_keep {keys' : List String} :
    (b.keep (staysAfter env dryRun keys)).keep (staysAfter env dryRun keys') =
      b.keep (staysAfter env dryRun (keys ++ keys')) := by
  unfold keep
  simp only [filter_filter, mk.injEq]
  refine filter_congr fun o _ => ?_
  rw [Bool.eq_iff_iff]
  simp only [staysAfter, Bool.and_eq_true, Bool.or_eq_true, Bool.not_eq_true', Bool.and_eq_false_iff,
    decide_eq_false_iff_not, mem_append, not_or]
  tauto

theorem deleteAll_spec (t : Tier) (env : SweepEnv) (dryRun : Bool) (keys : List String) :
    ∃ r t', t.deleteAll env dryRun keys = (r, t') ∧ t'.bucket = t.bucket.keep (staysAfter env dryRun keys) ∧
      t'.layers = t.layers ∧ (r = .ok () ↔ dryRun = true ∨ ∀ key ∈ keys, env.fails (.delete key) = none) := by
  unfold Tier.deleteAll
  cases dryRun with
  | true => exact ⟨_, t, if_pos rfl, by simp [keep, staysAfter], rfl, by simp⟩
  | false =>
    rw [if_neg Bool.false_ne_true]
    cases herrs : keys.filterMap fun k => (env.fails (.delete k)).map fun e => s!"{k}: {e}" with
    | nil =>
      simp only [filterMap_eq_nil_iff, Option.map_eq_none_iff] at herrs
      exact ⟨_, _, rfl, rfl, rfl, iff_of_true rfl (.inr herrs)⟩
    | cons first rest =>
      refine ⟨_, _, rfl, rfl, rfl, iff_of_false nofun ?_⟩
      rintro (⟨⟨⟩⟩ | hall)
      simp [filterMap_eq_nil_iff.2 fun k hk => Option.map_eq_none_iff.2 (hall k hk)] at herrs

end Deletes

variable {env : SweepEnv} {now : ℤ} {req : SweepRequest} {t : Tier} {key : String}

/-- A head that a live head of the request names as a volume's, where the read of that head
does not fail. -/
def NamedVolume (env : SweepEnv) (req : SweepRequest) (t : Tier) (key : String) : Prop :=
  ∃ i live o head, req.liveHeads[i]? = some live ∧ env.fails (.liveHead i) = none ∧
    t.bucket.find live = some o ∧ o.body.decodeHead = .ok head ∧ key ∈ head.volumes

def DeadSnapshot (env : SweepEnv) (now : ℤ) (req : SweepRequest) (t : Tier) (key : String) : Prop :=
  ∃ e f, splitSnapshotKey key = some (e, f) ∧
    (∀ o ∈ t.bucket.objects, splitSnapshotKey o.key = some (e, "head.json".toList) →
      o.key ∉ req.liveHeads ∧ ¬ NamedVolume env req t o.key) ∧
    ∀ o ∈ t.bucket.objects, ∀ f, splitSnapshotKey o.key = some (e, f) →
      tooYoung o.toRemoteObject now req.grace = false

structure KeptHead (env : SweepEnv) (now : ℤ) (req : SweepRequest) (t : Tier) (o : StoredObject) : Prop where
  mem : o ∈ t.bucket.objects
  head : ∃ e, splitSnapshotKey o.key = some (e, "head.json".toList)
  kept : ¬ DeadSnapshot env now req t o.key

/-- The read of the `i`th live head of the request does not end the sweep: it gives a head, or
the head is taken for gone. -/
def LiveHeadRead (env : SweepEnv) (t : Tier) (i : ℕ) (key : String) : Prop :=
  ∀ o, t.bucket.find key = some o →
    (env.fails (.liveHead i) = none ∧ ∃ head, o.body.decodeHead = .ok head) ∨
    (env.fails (.liveHead i) ≠ none ∧ env.fails (.liveHeadThere i) ≠ none)

structure FirstPass (env : SweepEnv) (now : ℤ) (req : SweepRequest) (t : Tier) : Prop where
  listed : env.fails (.list "snapshots/") = none
  live : ∀ i key, req.liveHeads[i]? = some key → LiveHeadRead env t i key
  deleted : req.dryRun = true ∨ ∀ o ∈ t.bucket.objects, DeadSnapshot env now req t o.key →
    env.fails (.delete o.key) = none
  kept : ∀ o, KeptHead env now req t o → env.fails (.keptHead o.key) = none ∧
    ∃ head, o.body.decodeHead = .ok head

/-- The layers that the live set starts from: the request's, and those of the heads that are kept. -/
def SweepRoot (env : SweepEnv) (now : ℤ) (req : SweepRequest) (t : Tier) (id : String) : Prop :=
  id ∈ req.liveLayers ∨ ∃ o head, KeptHead env now req t o ∧ o.body.decodeHead = .ok head ∧ id ∈ head.layers

/-- The layers that a sweep takes for live: the roots, and the parents that it finds through
manifests it can read. -/
inductive Walked (env : SweepEnv) (now : ℤ) (req : SweepRequest) (t : Tier) : String → Prop
  | root {id : String} (h : SweepRoot env now req t id) : Walked env now req t id
  | parent {id p : String} (h : Walked env now req t id) (hp : sweepParent t env id = some p) :
      Walked env now req t p

section FirstPass

theorem findObject_eq (t : Tier) (getFault hasFault : Option String) (key : String) :
    t.findObject getFault hasFault key =
      match t.bucket.find key, getFault with
      | none, _ => .ok none
      | some o, none => .ok (some o.body)
      | some _, some e => if hasFault.isNone then .error e else .ok none := by
  unfold Tier.findObject Tier.getObject Tier.hasObject
  cases t.bucket.find key <;> cases getFault <;> simp

theorem liveVolumes_ends (i : ℕ) (keys : List String) : (∃ vols, liveVolumes t env i keys = .ok vols) ↔
    ∀ j key, keys[j]? = some key → LiveHeadRead env t (i + j) key := by
  induction keys generalizing i with
  | nil => simp [liveVolumes]
  | cons key keys ih =>
    rw [← Nat.and_forall_add_one]
    simp only [getElem?_cons_zero, getElem?_cons_succ, Option.some.injEq, forall_eq', ← add_assoc,
      add_right_comm i _ 1, ← ih]
    rw [liveVolumes, LiveHeadRead, findObject_eq, add_zero]
    cases hfind : t.bucket.find key with
    | none => simp
    | some o =>
      cases hfault : env.fails (.liveHead i) with
      | none =>
        cases hdecode : o.body.decodeHead with
        | error e => simp [hdecode]
        | ok head => simp [hdecode, map_eq_ok]
      | some e =>
        cases hthere : env.fails (.liveHeadThere i) <;> simp

theorem mem_liveVolumes {i : ℕ} {keys vols : List String} (h : liveVolumes t env i keys = .ok vols) (v : String) :
    v ∈ vols ↔ ∃ j key o head, keys[j]? = some key ∧ env.fails (.liveHead (i + j)) = none ∧
      t.bucket.find key = some o ∧ o.body.decodeHead = .ok head ∧ v ∈ head.volumes := by
  induction keys generalizing i vols with
  | nil =>
    cases h
    simp
  | cons key keys ih =>
    rw [← Nat.or_exists_add_one]
    simp only [getElem?_cons_zero, getElem?_cons_succ, Option.some.injEq, exists_and_left, exists_eq_left', add_zero,
      ← add_assoc, add_right_comm i _ 1] at ih ⊢
    rw [liveVolumes, findObject_eq] at h
    cases hfind : t.bucket.find key with
    | none =>
      rw [hfind] at h
      simp [ih h]
    | some o =>
      rw [hfind] at h
      cases hfault : env.fails (.liveHead i) with
      | none =>
        rw [hfault] at h
        cases hdecode : o.body.decodeHead with
        | error e => simp [hdecode] at h
        | ok head =>
          simp only [hdecode, map_eq_ok] at h
          obtain ⟨vols', hrest, rfl⟩ := h
          simp [ih hrest, hdecode]
      | some e =>
        rw [hfault] at h
        cases hthere : env.fails (.liveHeadThere i) with
        | none => simp [hthere] at h
        | some e' =>
          simp only [hthere] at h
          simp [ih h]

theorem keptHead_ok {fault : Option String} {head : PodHead String} :
    (t.getObject fault key).bind Body.decodeHead = .ok head ↔
    fault = none ∧ ∃ o, t.bucket.find key = some o ∧ o.body.decodeHead = .ok head := by
  unfold Tier.getObject
  cases fault <;> cases t.bucket.find key <;> simp [Except.bind]

theorem keptLayers_ends (keys : List String) : (∃ ids, keptLayers t env keys = .ok ids) ↔
    ∀ key ∈ keys, env.fails (.keptHead key) = none ∧
      ∃ o head, t.bucket.find key = some o ∧ o.body.decodeHead = .ok head := by
  fun_induction keptLayers t env keys with
  | case1 => simp
  | case2 key keys e he =>
    refine iff_of_false nofun fun h => ?_
    obtain ⟨hfault, o, head, ho, hhead⟩ := h key mem_cons_self
    simp [keptHead_ok.2 ⟨hfault, o, ho, hhead⟩] at he
  | case3 key keys head he ih =>
    obtain ⟨hfault, o, ho, hhead⟩ := keptHead_ok.1 he
    rw [forall_mem_cons, ← ih]
    simp [hfault, ho, hhead, map_eq_ok]

theorem mem_keptLayers {keys ids : List String} (h : keptLayers t env keys = .ok ids) (id : String) :
    id ∈ ids ↔ ∃ key ∈ keys, ∃ o head, t.bucket.find key = some o ∧
      o.body.decodeHead = .ok head ∧ id ∈ head.layers := by
  fun_induction keptLayers t env keys generalizing ids with
  | case1 =>
    cases h
    simp
  | case2 => cases h
  | case3 key keys head he ih =>
    obtain ⟨ids', hrest, rfl⟩ := map_eq_ok.1 h
    obtain ⟨-, o, ho, hhead⟩ := keptHead_ok.1 he
    rw [mem_append, ih hrest, exists_mem_cons_iff]
    simp [ho, hhead]

theorem mem_list {sub : String} {l : List RemoteObject} (h : t.list none sub = .ok l) {r : RemoteObject} :
    r ∈ l ↔ ∃ o ∈ t.bucket.objects, sub.toList <+: o.key.toList ∧ o.toRemoteObject = r := by
  cases h
  simp [mem_map, and_assoc]

theorem snapshots_listed {x : List Char × List Char} (h : splitSnapshotKey key = some x) :
    "snapshots/".toList <+: key.toList := by
  rw [splitSnapshotKey_eq_some (e := x.1) (f := x.2) h, append_assoc]
  exact prefix_append _ _

section Plan
variable {vols : List String} (hvols : liveVolumes t env 0 req.liveHeads = .ok vols)
  {snaps : List RemoteObject} (hsnaps : t.list none "snapshots/" = .ok snaps)
include hvols hsnaps

theorem epochDead_bucket {e : List Char} :
    epochDead (req.liveHeads ++ vols) now req.grace (epochGroup snaps e) = true ↔
      (∀ o ∈ t.bucket.objects, splitSnapshotKey o.key = some (e, "head.json".toList) →
        o.key ∉ req.liveHeads ∧ ¬ NamedVolume env req t o.key) ∧
      ∀ o ∈ t.bucket.objects, ∀ f, splitSnapshotKey o.key = some (e, f) →
        tooYoung o.toRemoteObject now req.grace = false := by
  have hvol : ∀ v, v ∈ vols ↔ NamedVolume env req t v := by
    intro v
    rw [mem_liveVolumes hvols v, NamedVolume]
    simp only [zero_add]
  rw [epochDead_iff]
  refine and_congr ⟨fun h o ho hs => ?_, fun h r hr hs => ?_⟩ ⟨fun h o ho f hs => ?_, fun h r hr f hs => ?_⟩
  · have := h o.toRemoteObject ((mem_list hsnaps).2 ⟨o, ho, snapshots_listed hs, rfl⟩) hs
    rwa [mem_append, not_or, hvol] at this
  · obtain ⟨o, ho, -, rfl⟩ := (mem_list hsnaps).1 hr
    rw [mem_append, not_or, hvol]
    exact h o ho hs
  · exact h o.toRemoteObject ((mem_list hsnaps).2 ⟨o, ho, snapshots_listed hs, rfl⟩) f hs
  · obtain ⟨o, ho, -, rfl⟩ := (mem_list hsnaps).1 hr
    exact h o ho f hs

theorem mem_dead_bucket {o : StoredObject} (ho : o ∈ t.bucket.objects) :
    o.key ∈ (planSnapshots snaps (req.liveHeads ++ vols) now req.grace).deadSnapshotKeys ↔
      DeadSnapshot env now req t o.key := by
  rw [mem_deadSnapshotKeys]
  constructor
  · rintro ⟨-, -, -, e, f, hs, hdead⟩
    exact ⟨e, f, hs, (epochDead_bucket hvols hsnaps).1 hdead⟩
  · rintro ⟨e, f, hs, hdead⟩
    exact ⟨o.toRemoteObject, (mem_list hsnaps).2 ⟨o, ho, snapshots_listed hs, rfl⟩, rfl, e, f, hs,
      (epochDead_bucket hvols hsnaps).2 hdead⟩

theorem mem_kept_bucket :
    key ∈ (planSnapshots snaps (req.liveHeads ++ vols) now req.grace).liveHeadKeys ↔
      ∃ o, KeptHead env now req t o ∧ o.key = key := by
  rw [mem_liveHeadKeys]
  constructor
  · rintro ⟨r, hr, rfl, e, hs, hdead⟩
    obtain ⟨o, ho, -, rfl⟩ := (mem_list hsnaps).1 hr
    refine ⟨o, ⟨ho, ⟨e, hs⟩, ?_⟩, rfl⟩
    rintro ⟨e', f', hs', h⟩
    rw [hs] at hs'
    cases hs'
    simp [(epochDead_bucket hvols hsnaps).2 h] at hdead
  · rintro ⟨o, ⟨ho, ⟨e, hs⟩, hkept⟩, rfl⟩
    refine ⟨o.toRemoteObject, (mem_list hsnaps).2 ⟨o, ho, snapshots_listed hs, rfl⟩, rfl, e, hs, ?_⟩
    rw [← Bool.not_eq_true, epochDead_bucket hvols hsnaps]
    exact fun h => hkept ⟨e, _, hs, h⟩

end Plan

theorem sweepParent_congr {t' : Tier} (hl : t'.layers = t.layers)
    (hf : ∀ id : Digest, t'.bucket.find (manifestKey id) = t.bucket.find (manifestKey id)) :
    sweepParent t' env = sweepParent t env := by
  funext id
  unfold sweepParent manifestForSweep Tier.getManifest Tier.localLayer
  rw [hl]
  simp only [hf]

variable {id : String} {ids : List String}

theorem manifestForSweep_ok {fault : Option String} {m : Manifest Digest}
    (h : manifestForSweep t fault id = .ok m) : fault = none ∧ (t.localLayer id = some m ∨
      t.localLayer id = none ∧ ∃ d, Digest.fromHex id = some d ∧
        ∃ o ∈ t.bucket.objects, o.key = manifestKey d ∧ o.body = .manifest m) := by
  revert h
  fun_cases manifestForSweep t fault id <;> intro h <;> try cases h
  case case2 hlocal => exact ⟨rfl, .inl hlocal⟩
  case case4 hlocal d hd =>
    refine ⟨rfl, .inr ⟨hlocal, d, hd, ?_⟩⟩
    revert h
    fun_cases Tier.getManifest t d <;> rintro ⟨⟩
    case case1 o hfind hbody =>
      obtain ⟨ho, hkey⟩ := find_eq_some.1 hfind
      exact ⟨o, ho, hkey, hbody⟩

/-- The parents that a sweep can find are those of the manifests on the node and in the bucket. -/
def parentsOf (t : Tier) : Finset String :=
  ((t.layers.filterMap fun x => x.2.parent.map Digest.hex) ++
    t.bucket.objects.filterMap fun o => match o.body with
      | .manifest m => m.parent.map Digest.hex
      | _ => none).toFinset

theorem sweepParent_mem {p : String} (h : sweepParent t env id = some p) : p ∈ parentsOf t := by
  unfold sweepParent at h
  rw [parentsOf, mem_toFinset, mem_append]
  cases hm : manifestForSweep t (env.fails (.parentOf id)) id with
  | error e =>
    simp [hm] at h
  | ok m =>
    rw [hm] at h
    rcases (manifestForSweep_ok hm).2 with hlocal | ⟨-, d, -, o, ho, -, hbody⟩
    · obtain ⟨x, hx, rfl⟩ := Option.map_eq_some_iff.1 hlocal
      exact .inl (List.mem_filterMap.2 ⟨x, Keyed.look_mem hx, h⟩)
    · exact .inr (List.mem_filterMap.2 ⟨o, ho, by rw [hbody]; exact h⟩)

theorem card_parentsOf : (parentsOf t).card ≤ t.layers.length + t.bucket.objects.length := by
  refine (toFinset_card_le _).trans ?_
  rw [length_append]
  exact Nat.add_le_add (length_filterMap_le _ _) (length_filterMap_le _ _)

theorem mem_expandParents :
    id ∈ ids ++ expandParents t env ids ↔ Walk.Reached (sweepParent t env) ids id :=
  Walk.mem_expand (fun _ _ => sweepParent_mem) (Nat.add_le_add_left card_parentsOf _) id

theorem walked_iff (hids : ∀ id, id ∈ ids ↔ SweepRoot env now req t id) :
    Walk.Reached (sweepParent t env) ids id ↔ Walked env now req t id := by
  constructor
  · rintro ⟨r, hr, h⟩
    induction h with
    | refl => exact .root ((hids r).1 hr)
    | tail _ hp ih => exact .parent ih hp
  · intro h
    induction h with
    | root h => exact .root ((hids _).2 h)
    | parent _ hp ih => exact ih.step hp

/-- What the first pass does once it has read the live heads: it deletes what is dead, and ends
well with the layers that it takes for live. -/
structure PassOne (env : SweepEnv) (now : ℤ) (req : SweepRequest) (t : Tier) (dead : List String)
    (r : Except String (ℕ × SweepPlan × List String) × Tier) : Prop where
  dead_iff : ∀ o ∈ t.bucket.objects, o.key ∈ dead ↔ DeadSnapshot env now req t o.key
  snapshots : ∀ key ∈ dead, ∃ x, splitSnapshotKey key = some x
  bucket : r.2.bucket = t.bucket.keep (staysAfter env req.dryRun dead)
  layers : r.2.layers = t.layers
  ends : (∃ x, r.1 = .ok x) ↔ FirstPass env now req t
  live : ∀ x, r.1 = .ok x → ∀ id, id ∈ x.2.2 ↔ Walked env now req t id

section Deleted
variable {vols : List String} (hvols : liveVolumes t env 0 req.liveHeads = .ok vols)
  {snaps : List RemoteObject} (hsnaps : t.list none "snapshots/" = .ok snaps)
  {plan : SweepPlan} (hplan : planSnapshots snaps (req.liveHeads ++ vols) now req.grace = plan)

include hplan in
theorem split_of_dead (h : key ∈ plan.deadSnapshotKeys) : ∃ x, splitSnapshotKey key = some x := by
  rw [← hplan, mem_deadSnapshotKeys] at h
  obtain ⟨-, -, -, e, f, hs, -⟩ := h
  exact ⟨_, hs⟩

include hsnaps hplan in
theorem stored_of_dead (h : key ∈ plan.deadSnapshotKeys) : ∃ o ∈ t.bucket.objects, o.key = key := by
  rw [← hplan, mem_deadSnapshotKeys] at h
  obtain ⟨r, hr, rfl, -⟩ := h
  obtain ⟨o, ho, -, rfl⟩ := (mem_list hsnaps).1 hr
  exact ⟨o, ho, rfl⟩

include hvols hsnaps hplan

theorem mem_dead_plan {o : StoredObject} (ho : o ∈ t.bucket.objects) :
    o.key ∈ plan.deadSnapshotKeys ↔ DeadSnapshot env now req t o.key := by
  rw [← hplan]
  exact mem_dead_bucket hvols hsnaps ho

theorem deletes_iff : (req.dryRun = true ∨ ∀ key ∈ plan.deadSnapshotKeys, env.fails (.delete key) = none) ↔
    (req.dryRun = true ∨ ∀ o ∈ t.bucket.objects, DeadSnapshot env now req t o.key →
      env.fails (.delete o.key) = none) := by
  refine or_congr_right ⟨fun h o ho hd => h o.key ((mem_dead_plan hvols hsnaps hplan ho).2 hd), fun h key hkey => ?_⟩
  obtain ⟨o, ho, rfl⟩ := stored_of_dead hsnaps hplan hkey
  exact h o ho ((mem_dead_plan hvols hsnaps hplan ho).1 hkey)

variable {t₁ : Tier} (hbucket : t₁.bucket = t.bucket.keep (staysAfter env req.dryRun plan.deadSnapshotKeys))
include hbucket

theorem find_kept {o : StoredObject} (ho : KeptHead env now req t o) : t₁.bucket.find o.key = some o := by
  rw [hbucket, find_keep, find_eq_some]
  · exact ⟨ho.mem, rfl⟩
  · rw [← Bool.not_eq_false, staysAfter_eq_false]
    rintro ⟨-, hd, -⟩
    exact ho.kept ((mem_dead_plan hvols hsnaps hplan ho.mem).1 hd)

/-- The heads that are read after the deletes are those that are kept. -/
theorem found_kept_iff {o : StoredObject} :
    key ∈ plan.liveHeadKeys ∧ t₁.bucket.find key = some o ↔ KeptHead env now req t o ∧ o.key = key := by
  rw [← hplan, mem_kept_bucket hvols hsnaps]
  constructor
  · rintro ⟨⟨o', ho', rfl⟩, hfind⟩
    cases (find_kept hvols hsnaps hplan hbucket ho').symm.trans hfind
    exact ⟨ho', rfl⟩
  · rintro ⟨ho, rfl⟩
    exact ⟨⟨o, ho, rfl⟩, find_kept hvols hsnaps hplan hbucket ho⟩

theorem keptLayers_plan_ends : (∃ ids, keptLayers t₁ env plan.liveHeadKeys = .ok ids) ↔
    ∀ o, KeptHead env now req t o → env.fails (.keptHead o.key) = none ∧ ∃ head, o.body.decodeHead = .ok head := by
  rw [keptLayers_ends]
  constructor
  · intro h o ho
    obtain ⟨hkey, hfind⟩ := (found_kept_iff hvols hsnaps hplan hbucket).2 ⟨ho, rfl⟩
    obtain ⟨hfault, o', head, ho', hhead⟩ := h o.key hkey
    cases hfind.symm.trans ho'
    exact ⟨hfault, head, hhead⟩
  · intro h key hkey
    have hkept := hkey
    rw [← hplan, mem_kept_bucket hvols hsnaps] at hkept
    obtain ⟨o, ho, rfl⟩ := hkept
    obtain ⟨hfault, head, hhead⟩ := h o ho
    exact ⟨hfault, o, head, find_kept hvols hsnaps hplan hbucket ho, hhead⟩

theorem mem_named_iff {named : List String} (hnamed : keptLayers t₁ env plan.liveHeadKeys = .ok named) :
    id ∈ req.liveLayers ++ named ↔ SweepRoot env now req t id := by
  rw [mem_append, mem_keptLayers hnamed, SweepRoot]
  refine or_congr_right ⟨?_, ?_⟩
  · rintro ⟨key, hkey, o, head, hfind, hhead, hid⟩
    exact ⟨o, head, ((found_kept_iff hvols hsnaps hplan hbucket).1 ⟨hkey, hfind⟩).1, hhead, hid⟩
  · rintro ⟨o, head, ho, hhead, hid⟩
    obtain ⟨hkey, hfind⟩ := (found_kept_iff hvols hsnaps hplan hbucket).2 ⟨ho, rfl⟩
    exact ⟨o.key, hkey, o, head, hfind, hhead, hid⟩

omit hvols hsnaps in
/-- The first pass deletes no manifest. -/
theorem sweepParent_plan (hlayers : t₁.layers = t.layers) : sweepParent t₁ env = sweepParent t env := by
  refine sweepParent_congr hlayers fun d => ?_
  rw [hbucket, find_keep]
  rw [← Bool.not_eq_false, staysAfter_eq_false]
  rintro ⟨-, hd, -⟩
  obtain ⟨y, hy⟩ := split_of_dead hplan hd
  simp [manifestKey, splitSnapshotKey_layerKey] at hy

end Deleted

variable (env now req t) in
theorem sweepSnapshots_cases :
    ((sweepSnapshots env now req t).2 = t ∧ (∀ x, (sweepSnapshots env now req t).1 ≠ .ok x) ∧
      ¬ FirstPass env now req t) ∨
    ∃ dead, PassOne env now req t dead (sweepSnapshots env now req t) := by
  unfold sweepSnapshots
  cases hlist : env.fails (.list "snapshots/") with
  | some e =>
    refine .inl ⟨rfl, nofun, fun h => ?_⟩
    simp [h.listed] at hlist
  | none =>
  obtain ⟨snaps, hsnaps⟩ : ∃ snaps, t.list none "snapshots/" = .ok snaps := ⟨_, rfl⟩
  rw [hsnaps]
  have hread : (∃ vols, liveVolumes t env 0 req.liveHeads = .ok vols) ↔ _ := liveVolumes_ends 0 req.liveHeads
  simp only [zero_add] at hread
  cases hvols : liveVolumes t env 0 req.liveHeads with
  | error e =>
    refine .inl ⟨rfl, nofun, fun h => ?_⟩
    obtain ⟨vols, hv⟩ := hread.2 h.live
    simp [hvols] at hv
  | ok vols =>
  right
  simp only
  generalize hplan : planSnapshots snaps (req.liveHeads ++ vols) now req.grace = plan
  have hdead : ∀ o ∈ t.bucket.objects, o.key ∈ plan.deadSnapshotKeys ↔ DeadSnapshot env now req t o.key :=
    fun o ho => mem_dead_plan hvols hsnaps hplan ho
  have hsnap : ∀ key ∈ plan.deadSnapshotKeys, ∃ x, splitSnapshotKey key = some x := fun key => split_of_dead hplan
  refine ⟨plan.deadSnapshotKeys, ?_⟩
  obtain ⟨res, t1, hdel, hbucket, hlayers, hok⟩ := deleteAll_spec t env req.dryRun plan.deadSnapshotKeys
  rw [deletes_iff hvols hsnaps hplan] at hok
  rw [hdel]
  rcases res with e | ⟨⟩
  · exact ⟨hdead, hsnap, hbucket, hlayers, ⟨nofun, fun h => nomatch hok.2 h.deleted⟩, nofun⟩
  have hends := keptLayers_plan_ends hvols hsnaps hplan hbucket
  dsimp only
  cases hnamed : keptLayers t1 env plan.liveHeadKeys with
  | error e =>
    refine ⟨hdead, hsnap, hbucket, hlayers, ⟨nofun, fun h => ?_⟩, nofun⟩
    obtain ⟨ids, hids⟩ := hends.2 h.kept
    simp [hnamed] at hids
  | ok named =>
    refine ⟨hdead, hsnap, hbucket, hlayers,
      ⟨fun _ => ⟨hlist, hread.1 ⟨vols, hvols⟩, hok.1 rfl, hends.1 ⟨named, hnamed⟩⟩, fun _ => ⟨_, rfl⟩⟩, ?_⟩
    intro x hx id
    cases hx
    rw [mem_expandParents, sweepParent_plan hplan hbucket hlayers]
    exact walked_iff fun id => mem_named_iff hvols hsnaps hplan hbucket hnamed

end FirstPass

section LaterPasses
variable {live : List String}

/-- What the second pass does once it has its listing: it deletes the old manifests of layers
that are not live. -/
structure PassTwo (env : SweepEnv) (now : ℤ) (req : SweepRequest) (live : List String) (t : Tier)
    (objs : List RemoteObject) (dead : List String)
    (r : Except String (List RemoteObject × List String × ℕ) × Tier) : Prop where
  listed : t.list none "layers/" = .ok objs
  dead_iff : ∀ o ∈ t.bucket.objects, o.key ∈ dead ↔
    ∃ id, o.key = layerKey id ∧ id ∉ live ∧ tooYoung o.toRemoteObject now req.grace = false
  layers_only : ∀ key ∈ dead, ∃ id, key = layerKey id
  bucket : r.2.bucket = t.bucket.keep (staysAfter env req.dryRun dead)
  layers : r.2.layers = t.layers
  value : ∀ x, r.1 = .ok x → x.1 = objs ∧ x.2.1 = dead
  ends : (∃ x, r.1 = .ok x) ↔ req.dryRun = true ∨ ∀ key ∈ dead, env.fails (.delete key) = none

theorem layers_listed (id : String) : "layers/".toList <+: (layerKey id).toList := by
  rw [layerKey, String.toList_append, String.toList_append, append_assoc]
  exact prefix_append _ _

variable (env now req live t) in
theorem sweepLayers_cases :
    (env.fails (.list "layers/") ≠ none ∧ (sweepLayers env now req live t).2 = t ∧
      ∀ x, (sweepLayers env now req live t).1 ≠ .ok x) ∨
    env.fails (.list "layers/") = none ∧
      ∃ objs dead, PassTwo env now req live t objs dead (sweepLayers env now req live t) := by
  unfold sweepLayers
  cases hlist : env.fails (.list "layers/") with
  | some e => exact .inl ⟨nofun, rfl, nofun⟩
  | none =>
  refine .inr ⟨rfl, ?_⟩
  obtain ⟨objs, hobjs⟩ : ∃ objs, t.list none "layers/" = .ok objs := ⟨_, rfl⟩
  rw [hobjs]
  dsimp only
  obtain ⟨dead, hdead⟩ : ∃ dead, (planLayers objs live now req.grace).1 = dead := ⟨_, rfl⟩
  have hiff : ∀ o ∈ t.bucket.objects, o.key ∈ dead ↔
      ∃ id, o.key = layerKey id ∧ id ∉ live ∧ tooYoung o.toRemoteObject now req.grace = false := by
    intro o ho
    rw [← hdead, planLayers, mem_planUnnamed]
    constructor
    · rintro ⟨r, hr, hkey, id, hid, hlive, hyoung⟩
      obtain ⟨o', ho', -, rfl⟩ := (mem_list hobjs).1 hr
      rw [key_inj ho' ho hkey] at hyoung
      exact ⟨id, layerIdOfKey_eq_some.1 hid, hlive, hyoung⟩
    · rintro ⟨id, hid, hlive, hyoung⟩
      refine ⟨o.toRemoteObject, (mem_list hobjs).2 ⟨o, ho, ?_, rfl⟩, rfl, id,
        layerIdOfKey_eq_some.2 hid, hlive, hyoung⟩
      rw [hid]
      exact layers_listed id
  have honly : ∀ key ∈ dead, ∃ id, key = layerKey id := by
    intro key hkey
    rw [← hdead, planLayers, mem_planUnnamed] at hkey
    obtain ⟨-, -, -, id, hid, -⟩ := hkey
    exact ⟨id, layerIdOfKey_eq_some.1 hid⟩
  obtain ⟨res, t1, hdel, hbucket, hlayers, hok⟩ := deleteAll_spec t env req.dryRun dead
  rw [hdead, hdel]
  refine ⟨objs, dead, ?_⟩
  rcases res with e | ⟨⟩
  · exact ⟨hobjs, hiff, honly, hbucket, hlayers, nofun, ⟨nofun, fun h => nomatch hok.2 h⟩⟩
  · refine ⟨hobjs, hiff, honly, ?_, ?_, ?_, ⟨fun _ => hok.1 rfl, fun _ => ⟨_, rfl⟩⟩⟩
    · split_ifs <;> exact hbucket
    · split_ifs <;> exact hlayers
    · rintro x ⟨⟩
      exact ⟨rfl, rfl⟩

theorem referenced_mem {ids : List String} {refs : List Digest} (h : referencedChunks t env ids = .ok refs) :
    ∀ id ∈ ids, ∃ m, manifestForSweep t (env.fails (.entriesOf id)) id = .ok m ∧ ∀ h ∈ m.dataHashes, h ∈ refs := by
  fun_induction referencedChunks t env ids generalizing refs with
  | case1 => exact nofun
  | case2 => cases h
  | case3 a ids m hm ih =>
    obtain ⟨refs', hrest, rfl⟩ := map_eq_ok.1 h
    refine forall_mem_cons.2 ⟨⟨m, hm, fun x hx => mem_append_left _ hx⟩, fun id hid => ?_⟩
    obtain ⟨m', hm', hrefs⟩ := ih hrest id hid
    exact ⟨m', hm', fun x hx => mem_append_right _ (hrefs x hx)⟩

theorem referencedChunks_ends {ids : List String}
    (h : ∀ id ∈ ids, ∃ m, manifestForSweep t (env.fails (.entriesOf id)) id = .ok m) :
    ∃ refs, referencedChunks t env ids = .ok refs := by
  fun_induction referencedChunks t env ids with
  | case1 => exact ⟨[], rfl⟩
  | case2 a ids e he =>
    obtain ⟨m, hm⟩ := h a mem_cons_self
    cases hm.symm.trans he
  | case3 a ids m hm ih =>
    obtain ⟨refs, hrefs⟩ := ih fun i hi => h i (mem_cons_of_mem _ hi)
    exact ⟨_, map_eq_ok.2 ⟨refs, hrefs, rfl⟩⟩

theorem sweepChunks_ends {surviving : List String} (hrefs : ∃ refs, referencedChunks t env surviving = .ok refs)
    (hcalls : ∀ c, env.fails c = none) : ∃ x, (sweepChunks env now req surviving t).1 = .ok x := by
  obtain ⟨refs, hrefs⟩ := hrefs
  unfold sweepChunks
  rw [hrefs, hcalls]
  obtain ⟨objs, hobjs⟩ : ∃ objs, t.list none "chunks/" = .ok objs := ⟨_, rfl⟩
  simp only [hobjs]
  obtain ⟨res, t', hdel, -, -, hok⟩ := deleteAll_spec t env req.dryRun (planChunks objs refs now req.grace).1
  obtain rfl := hok.2 (.inr fun _ _ => hcalls _)
  rw [hdel]
  exact ⟨_, rfl⟩

variable (env now req t) in
theorem sweepChunks_keep (surviving : List String) : ∃ dead,
    (sweepChunks env now req surviving t).2.bucket = t.bucket.keep (staysAfter env req.dryRun dead) ∧
    ∀ key ∈ dead, ∃ hex, chunkHexOfKey key = some hex ∧ ∀ id ∈ surviving, ∃ m,
      manifestForSweep t (env.fails (.entriesOf id)) id = .ok m ∧ ∀ h ∈ m.dataHashes, h.hex ≠ hex := by
  unfold sweepChunks
  cases hrefs : referencedChunks t env surviving with
  | error e => exact ⟨[], keep_nil.symm, nofun⟩
  | ok refs =>
  cases hlist : t.list (env.fails (.list "chunks/")) "chunks/" with
  | error e => exact ⟨[], keep_nil.symm, nofun⟩
  | ok objs =>
  dsimp only
  generalize hdead : (planChunks objs refs now req.grace).1 = dead
  obtain ⟨res, t', hdel, hbucket, -⟩ := deleteAll_spec t env req.dryRun dead
  refine ⟨dead, ?_, fun key hkey => ?_⟩
  · rw [hdel]
    rcases res with e | ⟨⟩
    · exact hbucket
    · split_ifs <;> exact hbucket
  · rw [← hdead, planChunks, mem_planUnnamed] at hkey
    obtain ⟨-, -, -, hex, hhex, hnot, -⟩ := hkey
    refine ⟨hex, hhex, fun id hid => ?_⟩
    obtain ⟨m, hm, hmem⟩ := referenced_mem hrefs id hid
    refine ⟨m, hm, fun h hh heq => hnot ?_⟩
    rw [← heq]
    exact mem_map_of_mem (hmem h hh)

theorem mem_survivingLayers {objs : List RemoteObject} {dead : List String} {id : String} :
    id ∈ survivingLayers objs dead ↔ (∃ r ∈ objs, r.key = layerKey id) ∧ layerKey id ∉ dead := by
  unfold survivingLayers
  simp only [mem_filter, mem_filterMap, layerIdOfKey_eq_some, Bool.not_eq_true', decide_eq_false_iff_not]
  refine and_congr_right fun _ => not_congr ⟨?_, fun h => ⟨_, h, rfl⟩⟩
  rintro ⟨k, hk, rfl⟩
  exact hk

end LaterPasses

end FeOS
