import FeOS.Lib.Runs
import FeOS.Sanity.VolumeStore

/-! What holds of the pods, the volumes and the calls in flight, while calls that are about one pod, or
of which one restores a volume that the other names, are not in flight together, and the writes of
claims and releases succeed. -/

namespace FeOS.Volumes

open Function List

def Call.about : Call → Option PodId
  | .create pod _ _ => some pod
  | .delete pod _ _ => some pod
  | .restore pod _ _ => some pod
  | _ => none

def Call.pod : Call → Option PodId
  | .bringUp pod _ _ => some pod
  | call => call.about

def Call.volumes : Call → List VolumeId
  | .create _ volumes _ => volumes
  | .restore _ volumes _ => volumes
  | _ => []

def Call.isRestore : Call → Bool
  | .restore _ _ _ => true
  | _ => false

def Call.lock : Call → Option ℕ
  | .delete _ token _ => some token
  | .restore _ _ (.check token _) => some token
  | .restore _ _ (.remove token _) => some token
  | .restore _ _ (.take token) => some token
  | .restore _ _ (.place token) => some token
  | .bringUp _ token _ => some token
  | _ => none

def Conflict (a b : Call) : Prop :=
  (a.about.isSome ∧ a.about = b.about) ∨ ((a.isRestore ∨ b.isRestore) ∧ ∃ id ∈ a.volumes, id ∈ b.volumes)

instance (a b : Call) : Decidable (Conflict a b) := inferInstanceAs (Decidable (_ ∨ _))

def Clear (w : World) (call : Call) : Prop := ∀ other ∈ w.calls, ¬ Conflict call other

instance (w : World) (call : Call) : Decidable (Clear w call) := inferInstanceAs (Decidable (∀ other ∈ w.calls, _))

def World.restoring (w : World) (pod : PodId) (volumes : List VolumeId) : Call :=
  match w.pods pod with
  | some p => .restore pod p.volumes .lock
  | none => .restore pod volumes (.adopt volumes)

/-- The calls in flight are apart, and the writes of claims and releases succeed. -/
def Calm (w : World) : Event → Prop
  | .create pod volumes => Clear w (.create pod volumes .claiming)
  | .delete pod => Clear w (.delete pod 0 .locked)
  | .restore pod volumes => Clear w (w.restoring pod volumes)
  | .move _ (.claim fs) => fs = []
  | .move _ (.release fs) => fs = []
  | _ => True

/-! The invariant -/

def There (w : World) (pod : PodId) (token : ℕ) (volumes : List VolumeId) : Prop :=
  ∃ p, w.pods pod = some p ∧ p.token = token ∧ p.volumes = volumes

def CallOk (w : World) : Call → Prop
  | .create pod _ .claiming => w.pods pod = none
  | .create pod volumes .adding => w.pods pod = none ∧ ∀ id ∈ volumes, Owns w.store pod id
  | .create pod _ (.releasing keep) => w.pods pod = none ∧ keep = []
  | .delete pod token .locked => ∃ volumes, There w pod token volumes
  | .delete pod _ .forgotten => w.pods pod = none
  | .restore pod _ (.adopt _) => w.pods pod = none
  | .restore pod _ .record => w.pods pod = none
  | .restore pod volumes .lock => ∀ p, w.pods pod = some p → p.volumes = volumes
  | .restore pod volumes (.check token left) => There w pod token volumes ∧ ∀ id ∈ volumes, id ∉ left → Spare w.store pod id
  | .restore pod volumes (.remove token left) =>
    There w pod token volumes ∧ (∀ id ∈ volumes, Spare w.store pod id) ∧ ∀ id ∈ left, id ∈ volumes
  | .restore pod volumes (.take token) => There w pod token volumes ∧ ∀ id ∈ volumes, Spare w.store pod id
  | .restore pod volumes (.place token) => ∃ p, w.pods pod = some p ∧ p.token = token ∧ p.volumes = volumes ∧ p.held = true
  | .bringUp pod token (.check left) => ∃ p, w.pods pod = some p ∧ p.token = token ∧ p.held = true ∧
      ∀ id ∈ left, id ∈ p.volumes
  | .bringUp pod token (.open id left) =>
    ∃ p, w.pods pod = some p ∧ p.token = token ∧ p.held = true ∧ id ∈ p.volumes ∧ ∀ id ∈ left, id ∈ p.volumes
  | .ended => True

structure Inv (w : World) : Prop where
  /-- a pod that holds its volumes owns them -/
  owns : ∀ pod p, w.pods pod = some p → p.held = true → ∀ id ∈ p.volumes, Owns w.store pod id
  podId : ∀ pod p, w.pods pod = some p → p.id = pod
  up : ∀ pod p, w.pods pod = some p → p.up ≠ .hibernated → p.held = true
  /-- the records on disk are those of the pods -/
  kept : ∀ q ∈ w.kept, ∃ p, w.pods q.id = some p ∧ p.volumes = q.volumes ∧ p.held = q.held ∧
    (q.up ≠ .hibernated → q.held = true)
  nodup : (w.kept.map Pod.id).Nodup
  calls : ∀ (c : ℕ) call, w.calls[c]? = some call → CallOk w call
  locks : ∀ (c : ℕ) call token, w.calls[c]? = some call → call.lock = some token → w.locks token = some c
  apart : ∀ (c c' : ℕ) a b, c ≠ c' → w.calls[c]? = some a → w.calls[c']? = some b → ¬ Conflict a b
  /-- a volume that names a pod which is gone names it on disk, too, but for one that is being let go of -/
  left : ∀ id pod, owner w.store.map id = some pod → owner w.store.kept id = some pod ∨ w.pods pod ≠ none ∨
    ∃ (c : ℕ) (token : ℕ), w.calls[c]? = some (.delete pod token .forgotten)

variable {w w' : World} {call call' : Call} {c c' : ℕ} {pod : PodId} {st : Store}

theorem Conflict.symm {a b : Call} (h : Conflict a b) : Conflict b a := by
  rcases h with ⟨ha, hab⟩ | ⟨hr, id, hid, hid'⟩
  · exact .inl ⟨hab ▸ ha, hab.symm⟩
  · exact .inr ⟨hr.symm, id, hid', hid⟩

/-! What a call's fact needs of a change -/

structure PodStays (w w' : World) (pod : PodId) : Prop where
  gone : w.pods pod = none → w'.pods pod = none
  there : ∀ p, w.pods pod = some p →
    ∃ p', w'.pods pod = some p' ∧ p'.token = p.token ∧ p'.volumes = p.volumes ∧ (p.held = true → p'.held = true)

theorem PodStays.of_eq (h : w'.pods pod = w.pods pod) : PodStays w w' pod :=
  ⟨fun hn => h.trans hn, fun p hp => ⟨p, h.trans hp, rfl, rfl, id⟩⟩

theorem There.stays {token : ℕ} {volumes : List VolumeId} (h : There w pod token volumes) (hs : PodStays w w' pod) :
    There w' pod token volumes := by
  obtain ⟨p, hp, ht, hv⟩ := h
  obtain ⟨p', hp', ht', hv', -⟩ := hs.there p hp
  exact ⟨p', hp', ht'.trans ht, hv'.trans hv⟩

theorem CallOk.stays (h : CallOk w call) (hpod : ∀ pod ∈ call.pod, PodStays w w' pod)
    (howns : ∀ pod ∈ call.about, ∀ id ∈ call.volumes, Owns w.store pod id → Owns w'.store pod id)
    (hspare : call.isRestore = true → ∀ pod ∈ call.about, ∀ id ∈ call.volumes, Spare w.store pod id →
      Spare w'.store pod id) :
    CallOk w' call := by
  cases call with
  | create pod volumes stage =>
    have hs := hpod pod rfl
    cases stage with
    | claiming => exact hs.gone h
    | adding => exact ⟨hs.gone h.1, fun id hid => howns pod rfl id hid (h.2 id hid)⟩
    | releasing keep => exact ⟨hs.gone h.1, h.2⟩
  | delete pod token stage =>
    have hs := hpod pod rfl
    cases stage with
    | locked => exact h.imp fun _ ht => ht.stays hs
    | forgotten => exact hs.gone h
  | restore pod volumes stage =>
    have hs := hpod pod rfl
    have hsp := hspare rfl pod rfl
    cases stage with
    | adopt left => exact hs.gone h
    | record => exact hs.gone h
    | lock =>
      intro p' hp'
      cases hp : w.pods pod with
      | none => exact nomatch (hs.gone hp).symm.trans hp'
      | some p =>
        obtain ⟨p'', hp'', -, hv, -⟩ := hs.there p hp
        cases hp'.symm.trans hp''
        exact hv.trans (h p hp)
    | check token left => exact ⟨h.1.stays hs, fun id hid hleft => hsp id hid (h.2 id hid hleft)⟩
    | remove token left => exact ⟨h.1.stays hs, fun id hid => hsp id hid (h.2.1 id hid), h.2.2⟩
    | take token => exact ⟨h.1.stays hs, fun id hid => hsp id hid (h.2 id hid)⟩
    | place token =>
      obtain ⟨p, hp, ht, hv, hh⟩ := h
      obtain ⟨p', hp', ht', hv', hh'⟩ := hs.there p hp
      exact ⟨p', hp', ht'.trans ht, hv'.trans hv, hh' hh⟩
  | bringUp pod token stage =>
    have hs := hpod pod rfl
    cases stage with
    | check left =>
      obtain ⟨p, hp, ht, hh, hl⟩ := h
      obtain ⟨p', hp', ht', hv', hh'⟩ := hs.there p hp
      exact ⟨p', hp', ht'.trans ht, hh' hh, fun id hid => hv' ▸ hl id hid⟩
    | «open» id left =>
      obtain ⟨p, hp, ht, hh, hid, hl⟩ := h
      obtain ⟨p', hp', ht', hv', hh'⟩ := hs.there p hp
      exact ⟨p', hp', ht'.trans ht, hh' hh, hv' ▸ hid, fun id hid => hv' ▸ hl id hid⟩
  | ended => trivial

/-! Changes of the world -/

theorem set_get {calls : List Call} {a b : Call} (h : (calls.set c a)[c']? = some b) :
    (c' = c ∧ b = a) ∨ (c' ≠ c ∧ calls[c']? = some b) := by
  rw [getElem?_set] at h
  split_ifs at h with hc hlt
  · exact .inl ⟨hc.symm, (Option.some.inj h).symm⟩
  · exact .inr ⟨fun heq => hc heq.symm, h⟩

/-- A call comes to another stage: it conflicts with no more than it did, and a lock it has now is its
own. A delete that forgot its pod has let go of its volumes. -/
theorem Inv.setCall (h : Inv w) (hc : w.calls[c]? = some call) (hok : CallOk w call')
    (hconf : ∀ other, Conflict call' other → Conflict call other)
    (hlock : ∀ token, call'.lock = some token → w.locks token = some c)
    (hleft : ∀ pod token, call = .delete pod token .forgotten → ∀ id, owner w.store.map id ≠ some pod) :
    Inv (w.setCall c call') where
  owns := h.owns
  podId := h.podId
  up := h.up
  kept := h.kept
  nodup := h.nodup
  calls := by
    intro c' a ha
    rcases set_get ha with ⟨-, rfl⟩ | ⟨-, ha⟩
    · exact hok
    · exact h.calls c' a ha
  locks := by
    intro c' a token ha hl
    rcases set_get ha with ⟨rfl, rfl⟩ | ⟨-, ha⟩
    · exact hlock token hl
    · exact h.locks c' a token ha hl
  apart := by
    intro c1 c2 a b hne ha hb hab
    rcases set_get ha with ⟨rfl, rfl⟩ | ⟨-, ha'⟩
    · rcases set_get hb with ⟨rfl, -⟩ | ⟨hne', hb'⟩
      · exact hne rfl
      · exact h.apart c1 c2 call b hne hc hb' (hconf b hab)
    · rcases set_get hb with ⟨rfl, rfl⟩ | ⟨-, hb'⟩
      · exact h.apart c2 c1 call a (Ne.symm hne) hc ha' (hconf a hab.symm)
      · exact h.apart c1 c2 a b hne ha' hb' hab
  left := by
    intro id pod hid
    rcases h.left id pod hid with hk | hp | ⟨c1, token, hc1⟩
    · exact .inl hk
    · exact .inr (.inl hp)
    · by_cases heq : c1 = c
      · subst heq
        exact absurd hid (hleft pod token (Option.some.inj (hc.symm.trans hc1)) id)
      · refine .inr (.inr ⟨c1, token, ?_⟩)
        show (w.calls.set c call')[c1]? = _
        rwa [getElem?_set_ne (Ne.symm heq)]

theorem not_conflict_ended {other : Call} : ¬ Conflict .ended other := by
  rintro (⟨h, -⟩ | ⟨-, id, hid, -⟩)
  · cases h
  · cases hid

theorem Inv.endCall (h : Inv w) (hc : w.calls[c]? = some call)
    (hleft : ∀ pod token, call = .delete pod token .forgotten → ∀ id, owner w.store.map id ≠ some pod) :
    Inv (w.endCall c) := by
  have hset : Inv (w.setCall c .ended) :=
    h.setCall hc (show CallOk w .ended from trivial) (fun _ hconf => absurd hconf not_conflict_ended) nofun hleft
  refine ⟨hset.owns, hset.podId, hset.up, hset.kept, hset.nodup, hset.calls, fun c' a token ha hl => ?_,
    hset.apart, hset.left⟩
  rcases set_get ha with ⟨-, rfl⟩ | ⟨hne, ha⟩
  · cases hl
  · have hlocks := h.locks c' a token ha hl
    show (if w.locks token = some c then none else w.locks token) = some c'
    rw [if_neg, hlocks]
    rw [hlocks]
    exact fun heq => hne (Option.some.inj heq)

theorem Inv.takeLock (h : Inv w) {token : ℕ} (hfree : w.locks token = none) (c : ℕ) : Inv (w.takeLock token c) := by
  refine ⟨h.owns, h.podId, h.up, h.kept, h.nodup, h.calls, fun c' a t ha hl => ?_, h.apart, h.left⟩
  have hlocks := h.locks c' a t ha hl
  show update w.locks token (some c) t = some c'
  rw [update_of_ne, hlocks]
  rintro rfl
  simp [hfree] at hlocks

theorem begin_get {calls : List Call} {a b : Call} (h : (calls ++ [a])[c]? = some b) :
    calls[c]? = some b ∨ (c = calls.length ∧ b = a) := by
  rw [getElem?_append] at h
  split_ifs at h with hlt
  · exact .inl h
  · right
    have hlen : c - calls.length = 0 := by
      by_contra hne
      rw [getElem?_eq_none (by rw [length_singleton]; omega)] at h
      cases h
    rw [hlen] at h
    exact ⟨by omega, (Option.some.inj h).symm⟩

theorem Inv.begin (h : Inv w) (hok : CallOk w call) (hclear : Clear w call)
    (hlock : ∀ token, call.lock = some token → w.locks token = some w.calls.length) : Inv (w.begin call) where
  owns := h.owns
  podId := h.podId
  up := h.up
  kept := h.kept
  nodup := h.nodup
  calls := by
    intro c' a ha
    rcases begin_get ha with ha | ⟨-, rfl⟩
    · exact h.calls c' a ha
    · exact hok
  locks := by
    intro c' a token ha hl
    rcases begin_get ha with ha | ⟨rfl, rfl⟩
    · exact h.locks c' a token ha hl
    · exact hlock token hl
  apart := by
    intro c1 c2 a b hne ha hb hab
    rcases begin_get ha with ha' | ⟨h1, rfl⟩
    · rcases begin_get hb with hb' | ⟨-, rfl⟩
      · exact h.apart c1 c2 a b hne ha' hb' hab
      · exact hclear a (mem_of_getElem? ha') hab.symm
    · rcases begin_get hb with hb' | ⟨h2, -⟩
      · exact hclear b (mem_of_getElem? hb') hab
      · exact hne (h1.trans h2.symm)
  left := by
    intro id pod hid
    rcases h.left id pod hid with hk | hp | ⟨c1, token, hc1⟩
    · exact .inl hk
    · exact .inr (.inl hp)
    · refine .inr (.inr ⟨c1, token, ?_⟩)
      show (w.calls ++ [call])[c1]? = _
      rwa [getElem?_append_left (List.getElem?_eq_some_iff.1 hc1).1]

theorem Inv.setStore (h : Inv w) {r : Option PodId} {ids : List VolumeId} (ht : Touch r ids w.store st)
    (howns : ∀ p, r = some p → w.pods p ≠ none → ∀ id, Owns w.store p id → Owns st p id)
    (hcall : ∀ (c : ℕ) call, w.calls[c]? = some call → CallOk (w.setStore st) call ∨
      (∀ p, call.about = some p → r ≠ some p) ∧
        (call.isRestore = true → ∀ id ∈ call.volumes, id ∉ ids)) : Inv (w.setStore st) where
  owns := by
    intro pod p hp hh id hid
    have ho := h.owns pod p hp hh id hid
    by_cases hr : r = some pod
    · exact howns pod hr (fun hn => nomatch hn.symm.trans hp) id ho
    · exact ht.owns ho hr
  podId := h.podId
  up := h.up
  kept := h.kept
  nodup := h.nodup
  calls := by
    intro c call hc
    rcases hcall c call hc with hok | ⟨hother, hids⟩
    · exact hok
    · refine (h.calls c call hc).stays (fun pod _ => .of_eq rfl)
        (fun pod hpod id _ ho => ?_) fun hres pod hpod id hid hs => ?_
      · exact ht.owns ho (hother pod hpod)
      · exact ht.spare hs (.inr (hids hres id hid))
  locks := h.locks
  apart := h.apart
  left := by
    intro id pod hid
    rcases ht.or_same id with ⟨hm, hk⟩ | ⟨-, hafter⟩
    · rw [show owner (w.setStore st).store.kept id = owner w.store.kept id from owner_of_eq hk]
      exact h.left id pod ((owner_of_eq hm).symm.trans hid)
    · have hr : r = some pod := by
        rcases hafter with hn | hn
        · exact nomatch hn.symm.trans hid
        · exact hn.symm.trans hid
      rcases ht.kept id pod hr hid with hk | ⟨hown, hk⟩
      · exact .inl hk
      · rw [show owner (w.setStore st).store.kept id = owner w.store.kept id from owner_of_eq hk]
        exact h.left id pod hown

theorem Inv.addPod (h : Inv w) {p : Pod} (hgone : w.pods p.id = none)
    (hheld : p.held = true → ∀ id ∈ p.volumes, Owns w.store p.id id)
    (hup : p.up ≠ .hibernated → p.held = true)
    (hcall : ∀ (c : ℕ) call, w.calls[c]? = some call → call.about = some p.id → call = .restore p.id p.volumes .lock) :
    Inv (w.addPod p) := by
  have hpods (pod : PodId) (q : Pod) (hq : (w.addPod p).pods pod = some q) : (pod = p.id ∧ q = p) ∨ w.pods pod = some q := by
    rcases update_cases hq with ⟨heq, hq⟩ | ⟨-, hq⟩
    · exact .inl ⟨heq, (Option.some.inj hq).symm⟩
    · exact .inr hq
  have hother (pod : PodId) (hne : pod ≠ p.id) : (w.addPod p).pods pod = w.pods pod := update_of_ne hne ..
  refine ⟨?_, ?_, ?_, ?_, ?_, ?_, h.locks, h.apart, ?_⟩
  · intro pod q hq hh id hid
    rcases hpods pod q hq with ⟨rfl, rfl⟩ | hq
    · exact hheld hh id hid
    · exact h.owns pod q hq hh id hid
  · intro pod q hq
    rcases hpods pod q hq with ⟨rfl, rfl⟩ | hq
    · rfl
    · exact h.podId pod q hq
  · intro pod q hq
    rcases hpods pod q hq with ⟨rfl, rfl⟩ | hq
    · exact hup
    · exact h.up pod q hq
  · intro q hq
    rcases mem_append.1 hq with hq | hq
    · obtain ⟨p', hp', hrest⟩ := h.kept q hq
      refine ⟨p', ?_, hrest⟩
      rwa [hother _ fun heq => nomatch (heq ▸ hp').symm.trans hgone]
    · cases mem_singleton.1 hq
      exact ⟨p, update_self .., rfl, rfl, hup⟩
  · show ((w.kept ++ [p]).map Pod.id).Nodup
    rw [map_append, nodup_append]
    refine ⟨h.nodup, nodup_singleton _, ?_⟩
    intro x hx y hy heq
    obtain ⟨q, hq, rfl⟩ := mem_map.1 hx
    cases mem_singleton.1 hy
    obtain ⟨p', hp', -⟩ := h.kept q hq
    rw [heq] at hp'
    exact nomatch hp'.symm.trans hgone
  · intro c call hc
    have hok := h.calls c call hc
    by_cases habout : call.about = some p.id
    · rw [hcall c call hc habout]
      intro q hq
      rcases hpods _ q hq with ⟨-, rfl⟩ | hq
      · rfl
      · exact nomatch hq.symm.trans hgone
    · refine hok.stays (fun pod hpod => .of_eq (hother pod ?_)) (fun _ _ _ _ ho => ho) fun _ _ _ _ _ hs => hs
      rintro rfl
      -- a bring-up is of a pod that is there
      cases call with
      | bringUp pod token stage =>
        cases hpod
        cases stage with
        | check left =>
          obtain ⟨q, hq, -⟩ := hok
          exact nomatch hq.symm.trans hgone
        | «open» id left =>
          obtain ⟨q, hq, -⟩ := hok
          exact nomatch hq.symm.trans hgone
      | create | delete | restore | ended => exact habout hpod
  · intro id pod hid
    rcases h.left id pod hid with hk | hp | hc
    · exact .inl hk
    · refine .inr (.inl fun hn => ?_)
      rcases update_cases hn with ⟨-, ⟨⟩⟩ | ⟨-, hn⟩
      exact hp hn
    · exact .inr (.inr hc)

theorem Inv.update (h : Inv w) {p p' : Pod} (hp : w.pods pod = some p) (hid : p'.id = pod) (htoken : p'.token = p.token)
    (hvolumes : p'.volumes = p.volumes) (hheld : p.held = true → p'.held = true)
    (howns : p'.held = true → ∀ id ∈ p'.volumes, Owns w.store pod id) (hup : p'.up ≠ .hibernated → p'.held = true)
    (saved : Bool) :
    Inv (w.update p' saved) := by
  subst hid
  have hpods (q : PodId) (x : Pod) (hx : (w.update p' saved).pods q = some x) : (q = p'.id ∧ x = p') ∨
      (q ≠ p'.id ∧ w.pods q = some x) := by
    exact (update_cases hx).imp_left fun ⟨heq, hx⟩ => ⟨heq, (Option.some.inj hx).symm⟩
  have hnew : (w.update p' saved).pods p'.id = some p' := update_self ..
  have hother (q : PodId) (hne : q ≠ p'.id) : (w.update p' saved).pods q = w.pods q := update_of_ne hne ..
  have hstays (q : PodId) : PodStays w (w.update p' saved) q := by
    by_cases hq : q = p'.id
    · subst hq
      refine ⟨(fun hn => nomatch hn.symm.trans hp), fun x hx => ?_⟩
      cases hx.symm.trans hp
      exact ⟨p', hnew, htoken, hvolumes, hheld⟩
    · exact .of_eq (hother q hq)
  refine ⟨?_, ?_, ?_, ?_, ?_, ?_, h.locks, h.apart, ?_⟩
  · intro q x hx hh id hid
    rcases hpods q x hx with ⟨rfl, rfl⟩ | ⟨-, hx⟩
    · exact howns hh id hid
    · exact h.owns q x hx hh id hid
  · intro q x hx
    rcases hpods q x hx with ⟨rfl, rfl⟩ | ⟨-, hx⟩
    · rfl
    · exact h.podId q x hx
  · intro q x hx
    rcases hpods q x hx with ⟨rfl, rfl⟩ | ⟨-, hx⟩
    · exact hup
    · exact h.up q x hx
  · intro q hq
    obtain ⟨q₀, hq₀, rfl⟩ := mem_map.1 hq
    obtain ⟨x, hx, hxv, hxh, hxu⟩ := h.kept q₀ hq₀
    by_cases heq : q₀.id = p'.id
    · rw [heq] at hx
      cases hx.symm.trans hp
      rw [if_pos heq]
      cases saved with
      | true => exact ⟨p', hnew, rfl, rfl, hup⟩
      | false =>
        refine ⟨p', ?_, hvolumes.trans hxv, rfl, fun hu => hheld (hxh.trans (hxu hu))⟩
        rwa [heq]
    · rw [if_neg heq]
      exact ⟨x, (hother _ heq).trans hx, hxv, hxh, hxu⟩
  · have hids : (w.update p' saved).kept.map Pod.id = w.kept.map Pod.id := by
      show (w.kept.map _).map Pod.id = _
      rw [map_map]
      refine map_congr_left fun q _ => ?_
      show Pod.id (if q.id = p'.id then _ else q) = q.id
      split_ifs with heq
      · exact heq.symm
      · rfl
      · rfl
    rw [hids]
    exact h.nodup
  · intro c call hc
    exact (h.calls c call hc).stays (fun q _ => hstays q) (fun _ _ _ _ ho => ho) fun _ _ _ _ _ hs => hs
  · intro id q hid
    rcases h.left id q hid with hk | hq | hc
    · exact .inl hk
    · right; left
      cases hx : w.pods q with
      | none => exact absurd hx hq
      | some x =>
        obtain ⟨x', hx', -⟩ := (hstays q).there x hx
        rw [hx']
        exact Option.some_ne_none _
    · exact .inr (.inr hc)

end FeOS.Volumes
