import FeOS.Lib.Runs
import FeOS.Sanity.VolumeSteps

/-! A volume belongs to one pod: a running pod's volumes name it, no step opens or removes the disk of
another pod's volume, a release frees no later pod's claim, and a create that fails leaves none of its
own. So in the runs where calls in each other's way are not in flight together and the writes of
claims and releases succeed; a delete lets go of its pod's volumes by the pod's ID, after it forgot
the pod. -/

namespace FeOS.Volumes

open Runs

/-- The disk of a volume that a step opens or removes, and the pod that it does so for. -/
def Call.disk : Call → Move → Option (PodId × VolumeId)
  | .restore pod _ (.remove _ (id :: _)), .removeDisk => some (pod, id)
  | .bringUp pod _ (.open id _), .openDisk _ => some (pod, id)
  | _, _ => none

/-- A pod of this ID has the volume, or a create of one that is not this call has claimed it. -/
def Claimed (w : World) (c : ℕ) (pod : PodId) (id : VolumeId) : Prop :=
  (∃ p, w.pods pod = some p ∧ id ∈ p.volumes) ∨
    ∃ (c' : ℕ) (volumes : List VolumeId), c' ≠ c ∧ w.calls[c']? = some (.create pod volumes .adding) ∧ id ∈ volumes

def Exclusive (w : World) : Prop :=
  ∀ pod p, w.pods pod = some p → p.up = .running → ∀ id ∈ p.volumes, owner w.store.map id = some pod

structure ExclusiveStep (w : World) (e : Event) (w' : World) : Prop where
  /-- a disk is opened or removed for the pod that its volume names, if it names one -/
  disk : ∀ (c : ℕ) m call pod id, e = .move c m → w.calls[c]? = some call → call.disk m = some (pod, id) →
    Spare w.store pod id
  /-- a volume is deleted that names none -/
  deleted : ∀ id, e = .deleteVolume id → owner w.store.map id = none
  /-- a release frees no claim but its own -/
  released : ∀ (c : ℕ) fs call pod id, e = .move c (.release fs) → w.calls[c]? = some call → call.about = some pod →
    owner w.store.map id = some pod → owner w'.store.map id ≠ some pod → ¬ Claimed w c pod id
  /-- a create that ends without its pod leaves no volume that names it, but for one that did before it claimed -/
  failed : ∀ (c : ℕ) m pod volumes stage id, e = .move c m → w.calls[c]? = some (.create pod volumes stage) →
    w'.calls[c]? = some .ended → w'.pods pod = none → owner w'.store.map id = some pod →
    stage = .claiming ∧ owner w.store.map id = some pod
  /-- a create leaves the other pods' claims as they were -/
  others : ∀ (c : ℕ) m pod volumes stage id q, e = .move c m → w.calls[c]? = some (.create pod volumes stage) → q ≠ pod →
    (owner w'.store.map id = some q ↔ owner w.store.map id = some q)
  /-- after a restart, no volume names a pod that is gone -/
  restarted : ∀ cut cutFs pods fs pod id, e = .restart cut cutFs pods fs → owner w'.store.map id = some pod →
    w'.pods pod ≠ none

variable {w w' : World} {c : ℕ} {pod : PodId} {volumes : List VolumeId} {id : VolumeId}

theorem Inv.exclusive (h : Inv w) : Exclusive w := by
  intro pod p hp hup id hid
  refine (h.owns pod p hp (h.up pod p hp ?_) id hid).map
  rw [hup]
  decide

variable {m : Move} {call : Call} {stage : CreateStage}

theorem Inv.disk (h : Inv w) (hc : w.calls[c]? = some call) (hd : call.disk m = some (pod, id)) :
    Spare w.store pod id := by
  have hok := h.calls c call hc
  unfold Call.disk at hd
  split at hd <;> cases hd
  · exact hok.2.1 id (hok.2.2 id List.mem_cons_self)
  · obtain ⟨p, hp, -, hheld, hid, -⟩ := hok
    intro q hq
    exact Option.some.inj (hq.symm.trans (h.owns pod p hp hheld id hid).map)

theorem Inv.not_claimed (h : Inv w) (hc : w.calls[c]? = some call) (habout : call.about = some pod)
    (hgone : w.pods pod = none) :
    ¬ Claimed w c pod id := by
  rintro (⟨p, hp, -⟩ | ⟨c', volumes, hne, hc', -⟩)
  · exact nomatch hp.symm.trans hgone
  · exact (h.others hc hc' hne).1 pod rfl habout

theorem release_gone (h : Inv w) {fs : Failures} (hc : w.calls[c]? = some call)
    (hs : w.stepCall c call (.release fs) = some w')
    (habout : call.about = some pod) : w.pods pod = none := by
  have hok := h.calls c call hc
  cases call with
  | create q volumes stage =>
    cases habout
    cases stage with
    | releasing keep => exact hok.1
    | _ => cases hs
  | delete q token stage =>
    cases habout
    cases stage with
    | forgotten => exact hok
    | locked => cases hs
  | restore q volumes stage => cases stage with
    | adopt left | check token left | remove token left => cases left <;> cases hs
    | _ => cases hs
  | bringUp | ended => cases habout

theorem stepCreate_touch (hcalm : Calm w (.move c m)) (hs : w.stepCreate c pod volumes stage m = some w') :
    Touch (some pod) volumes w.store w'.store := by
  revert hs
  fun_cases World.stepCreate w c pod volumes stage m <;> rintro ⟨⟩
  case case1 fs st hcl | case2 fs st hcl =>
    have ht := claim_touch pod volumes fs w.store
    rw [hcl] at ht
    exact ht
  case case3 | case4 | case5 => exact .refl _ _ _
  case case6 keep fs =>
    cases (show fs = [] from hcalm)
    have ht := release_touch pod keep w.store
    exact ⟨ht.or_same, fun id p hp ho => (ht.claimed id p hp ho).imp_right (absurd · List.not_mem_nil), ht.kept⟩

theorem Inv.create_failed (h : Inv w) (hcalm : Calm w (.move c m))
    (hc : w.calls[c]? = some (.create pod volumes stage)) (hs : w.stepCreate c pod volumes stage m = some w')
    (hend : w'.calls[c]? = some .ended) (hgone : w'.pods pod = none) (ho : owner w'.store.map id = some pod) :
    stage = .claiming ∧ owner w.store.map id = some pod := by
  have hok := h.calls c _ hc
  have hlen : c < w.calls.length := (List.getElem?_eq_some_iff.1 hc).1
  have goesOn (stage' : CreateStage) (hend : (w.calls.set c (.create pod volumes stage'))[c]? = some .ended) : False := by
    rw [List.getElem?_set_self hlen] at hend
    cases hend
  revert hs
  fun_cases World.stepCreate w c pod volumes stage m <;> rintro ⟨⟩
  case case1 | case3 | case5 => exact (goesOn _ hend).elim
  case case2 fs st hcl =>
    cases (show fs = [] from hcalm)
    have hfalse : (w.store.claim pod volumes []).2 = false := by rw [hcl]
    have hst := claim_refused hfalse
    rw [hcl] at hst
    exact ⟨rfl, hst ▸ ho⟩
  case case4 => cases (Function.update_self (f := w.pods) ..).symm.trans hgone
  case case6 keep fs =>
    cases (show fs = [] from hcalm)
    -- nothing of the pod's is kept back
    have hown : owner (w.store.release pod keep []).map id = some pod := ho
    rw [release_owner, hok.2] at hown
    split_ifs at hown with hg
    exact absurd ⟨hown, List.not_mem_nil⟩ hg

theorem Inv.exclusiveStep (h : Inv w) {e : Event} (hcalm : Calm w e) (hs : w.step e = some w') : ExclusiveStep w e w' := by
  refine ⟨?_, ?_, ?_, ?_, ?_, ?_⟩
  · rintro c m call pod id rfl hc hd
    exact h.disk hc hd
  · rintro id rfl
    simp only [World.step] at hs
    split_ifs at hs with hm
    obtain ⟨v, hv, hp⟩ := (Option.any_eq_true _ _).1 hm
    exact (owner_of_some hv).trans (of_decide_eq_true hp)
  · rintro c fs call pod id rfl hc habout - -
    obtain ⟨call', hc', hs⟩ := Option.bind_eq_some_iff.1 hs
    cases hc.symm.trans hc'
    exact h.not_claimed hc habout (release_gone h hc hs habout)
  · rintro c m pod volumes stage id rfl hc hend hgone ho
    obtain ⟨call', hc', hs⟩ := Option.bind_eq_some_iff.1 hs
    cases hc.symm.trans hc'
    exact h.create_failed hcalm hc hs hend hgone ho
  · rintro c m pod volumes stage id q rfl hc hne
    obtain ⟨call', hc', hs⟩ := Option.bind_eq_some_iff.1 hs
    cases hc.symm.trans hc'
    exact (stepCreate_touch hcalm hs).owner_iff fun heq => hne (Option.some.inj heq).symm
  · rintro cut cutFs pods fs pod id rfl hid
    exact restart_there hs hid

instance (w : World) (e : Event) : Decidable (Calm w e) := by
  unfold Calm
  split <;> infer_instance

/-- A pod that runs with its volume, the create's call being the first one and the bring-up's the
second. -/
def comeUp (create bringUp : ℕ) : List Event :=
  [.create "pod" ["volume"], .move create (.claim []), .move create (.add true), .bringUp "pod", .move bringUp .checkVolume,
    .move bringUp (.openDisk []), .move bringUp (.runs true)]

def HasVolume (w : World) : Prop := (w.pods "pod").any (fun p => p.up = .running ∧ p.volumes = ["volume"])

instance (w : World) : Decidable (HasVolume w) := inferInstanceAs (Decidable (_ = true))

end FeOS.Volumes
