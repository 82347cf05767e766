import FeOS.Lib.Runs
import FeOS.Spec.HibernationNode

/-! A hibernation keeps the pod: whichever of its steps fail and wherever feosd ends, the record that
is kept finds the pod's disk, on the node or in the checkpoint, as long as the write of the record
that says hibernated succeeds. The purge follows the record in memory, and that write's failure is
only logged. -/

namespace FeOS.Pods

open Runs List

variable {α : Type}

structure Passed where
  put : Bool
  named : Bool
  hibernated : Bool
  snapshot : Bool
  deriving DecidableEq, Repr

/-- A step in its place: the head before the record that names it, that before the record that says
hibernated, and that before what is removed. -/
def Passed.next (p : Passed) : Step → Option Passed
  | .call .putHead => if p.hibernated then none else some { p with put := true }
  | .keepCheckpoint => if p.put ∧ ¬ p.hibernated then some { p with named := true } else none
  | .setState state _ =>
    if state = .hibernated then (if p.put ∧ p.named then some { p with hibernated := true } else none)
    else if p.hibernated then none else some p
  | .call .suspendVm => if p.hibernated then none else some { p with snapshot := true }
  | .call .settle => if p.hibernated then none else some p
  | .call .deleteVm => if p.snapshot then none else some p
  | .call .purgeVm | .disk .remove .pod => if p.hibernated then some p else none
  | _ => some p

def Passed.Ordered (p : Passed) (steps : List Step) : Prop := (steps.foldlM Passed.next p).isSome

namespace Passed

variable {p p' : Passed} {s : Step} {l l' : List Step}

theorem Ordered.nil : p.Ordered [] := rfl

theorem ordered_cons : p.Ordered (s :: l) ↔ ∃ p', p.next s = some p' ∧ p'.Ordered l := by
  unfold Ordered
  rw [foldlM_cons]
  cases h : p.next s with
  | none => simp
  | some p' => simp

theorem ordered_append_of_foldlM (h : l.foldlM next p = some p') : p.Ordered (l ++ l') ↔ p'.Ordered l' := by
  unfold Ordered
  rw [foldlM_append, h]
  rfl

theorem foldlM_still (h : ∀ s ∈ l, p.next s = some p) : l.foldlM next p = some p := by
  induction l with
  | nil => rfl
  | cons s l ih =>
    rw [foldlM_cons, h s mem_cons_self]
    exact ih fun s hs => h s (mem_cons_of_mem _ hs)

theorem ordered_append_of_still (h : ∀ s ∈ l, p.next s = some p) : p.Ordered (l ++ l') ↔ p.Ordered l' :=
  ordered_append_of_foldlM (foldlM_still h)

variable {v : Volume} {volumes : List Volume}

theorem next_of_mem_volumeSteps (h : s ∈ volumeSteps v) : p.next s = some p := by
  unfold volumeSteps at h
  split_ifs at h <;> simp only [mem_cons, not_mem_nil, or_false] at h
  · rcases h with rfl | rfl <;> rfl
  · rcases h with rfl | rfl | rfl | rfl | rfl | rfl | rfl <;> rfl

theorem next_of_mem_headVolume (h : s ∈ headVolume v) : p.next s = some p := by
  unfold headVolume at h
  split_ifs at h
  · cases h
  · simp only [mem_cons, not_mem_nil, or_false] at h
    rcases h with rfl | rfl <;> rfl

theorem next_of_mem_checkpointVolume (h : s ∈ checkpointVolume v) : p.next s = some p := by
  unfold checkpointVolume at h
  split_ifs at h
  · cases h
  · rw [mem_singleton.1 h]
    rfl

theorem ordered_flatMap {f : Volume → List Step} (h : ∀ v, ∀ s ∈ f v, p.next s = some p) :
    p.Ordered (volumes.flatMap f ++ l) ↔ p.Ordered l := by
  refine ordered_append_of_still fun s hs => ?_
  obtain ⟨v, -, hs⟩ := mem_flatMap.1 hs
  exact h v s hs

theorem ordered_purgeSteps (volumes : List Volume) (hp : p.hibernated = true) :
    p.Ordered (purgeSteps volumes ++ l) ↔ p.Ordered l := by
  refine ordered_append_of_still fun s hs => ?_
  simp only [purgeSteps, mem_cons, mem_map] at hs
  rcases hs with rfl | rfl | rfl | ⟨v, -, rfl⟩
  · exact if_pos hp
  · rfl
  · exact if_pos hp
  · rfl

theorem ordered_stepsFromHead (volumes : List Volume) (hp : p.hibernated = false) : p.Ordered (stepsFromHead volumes) := by
  unfold stepsFromHead
  simp only [flatten_cons, flatten_nil, append_nil]
  rw [ordered_flatMap fun v s hs => next_of_mem_headVolume hs]
  have hput : [Step.call .putHead, .setPhase .leaving].foldlM next p = some { p with put := true } := by
    simp [foldlM, next, hp]
  rw [ordered_append_of_foldlM hput, ordered_flatMap fun v s hs => next_of_mem_checkpointVolume hs]
  have hleave : leaveSteps.foldlM next { p with put := true } = some ⟨true, true, true, p.snapshot⟩ := by
    simp [leaveSteps, foldlM, next, hp]
  rw [ordered_append_of_foldlM hleave, ordered_purgeSteps volumes rfl]
  rfl

theorem ordered_hibernateSteps {running memory : Bool} (hp : p.hibernated = false)
    (hm : p.snapshot = true → running = true ∨ memory = true) : p.Ordered (hibernateSteps running memory volumes) := by
  unfold hibernateSteps stepsBeforeHead
  simp only [flatten_cons, flatten_nil, append_nil, append_assoc]
  obtain ⟨p1, hp1, hdecide⟩ : ∃ p1 : Passed, p1.hibernated = false ∧
      (decideSteps running memory).foldlM next p = some p1 := by
    cases running with
    | true => exact ⟨{ p with snapshot := true }, hp, by simp [decideSteps, suspendSteps, foldlM, next, hp]⟩
    | false =>
      cases memory with
      | true => exact ⟨p, hp, rfl⟩
      | false =>
        have hs : ¬ p.snapshot = true := fun h => (hm h).elim nofun nofun
        exact ⟨p, hp, by simp [decideSteps, foldlM, next, hs]⟩
  rw [ordered_append_of_foldlM hdecide]
  have hseal : sealSteps.foldlM next p1 = some p1 := rfl
  rw [ordered_append_of_foldlM hseal, ordered_flatMap fun v s hs => next_of_mem_volumeSteps hs]
  have hmemory : (memorySteps memory).foldlM next p1 = some p1 := by cases memory <;> rfl
  rw [ordered_append_of_foldlM hmemory]
  exact ordered_cons.2 ⟨p1, rfl, ordered_stepsFromHead volumes hp1⟩

theorem ordered_stepsOf {state : PodState} {snapshot : Bool} (hp : p.hibernated = false)
    (hm : p.snapshot = true → snapshot = true ∧ state ∉ [.stopped, .failed]) :
    p.Ordered (stepsOf state snapshot volumes) := by
  refine ordered_cons.2 ⟨p, rfl, ?_⟩
  have hno : state ∈ [.stopped, .failed] → p.snapshot = true → False := fun hs h => (hm h).2 hs
  cases state with
  | running => exact ordered_hibernateSteps hp fun _ => .inl rfl
  | suspended => exact ordered_hibernateSteps hp fun h => .inr (hm h).1
  | stopped => exact ordered_hibernateSteps hp fun h => (hno (by decide) h).elim
  | failed => exact ordered_hibernateSteps hp fun h => (hno (by decide) h).elim
  | pending => rfl
  | hibernated => rfl
  | other => rfl

end Passed

def Step.saysHibernated : Step → Bool
  | .setState .hibernated _ => true
  | _ => false

namespace Node

variable {data : α} {n n' : Node α} {p p' : Passed} {s : Step} {rest : List Step}

structure Agrees (data : α) (p : Passed) (n : Node α) : Prop where
  put : p.put = true → n.epoch ∈ n.put ∧ n.heads n.epoch = some data
  named : p.named = true → n.info.checkpoint = some n.epoch
  hibernated : p.hibernated = true ↔ n.info.state = .hibernated
  snapshot : n.hadSnapshot = true → p.snapshot = true

structure Holds (data : α) (n : Node α) : Prop where
  same : n.kept.state = .hibernated ↔ n.info.state = .hibernated
  hibernated : n.kept.state = .hibernated → n.kept.checkpoint = some n.epoch ∧ n.epoch ∈ n.put ∧ n.heads n.epoch = some data
  onNode : n.kept.state ≠ .hibernated → n.disk = some data ∧ (n.hadSnapshot = true → n.snapshot = true)

structure Inv (data : α) (n : Node α) : Prop extends Holds data n where
  rest : ∃ p, Agrees data p n ∧ p.Ordered n.rest

/-- The write of the record that says hibernated does not fail. -/
def Durable (n : Node α) : Event → Prop
  | .run (.fails _) => n.rest.head?.any Step.saysHibernated = false
  | _ => True

inductive Placed (α : Type) (p : Passed) : Step → Passed → Prop
  | putHead (h : p.hibernated = false) : Placed α p (.call .putHead) { p with put := true }
  | keepCheckpoint (hput : p.put = true) (h : p.hibernated = false) : Placed α p .keepCheckpoint { p with named := true }
  | hibernated {reason} (hput : p.put = true) (hnamed : p.named = true) :
      Placed α p (.setState .hibernated reason) { p with hibernated := true }
  | state {state reason} (hs : state ≠ .hibernated) (h : p.hibernated = false) :
      Placed α p (.setState state reason) p
  | suspendVm (h : p.hibernated = false) : Placed α p (.call .suspendVm) { p with snapshot := true }
  | settle (h : p.hibernated = false) : Placed α p (.call .settle) p
  | deleteVm (h : p.snapshot = false) : Placed α p (.call .deleteVm) p
  | purgeVm (h : p.hibernated = true) : Placed α p (.call .purgeVm) p
  | removeDisk (h : p.hibernated = true) : Placed α p (.disk .remove .pod) p
  | still {s : Step} (hs : ∀ (n : Node α) took, n.effect s took = n) (hp : s ≠ .call .putHead) (hc : s.cleanup = []) :
      Placed α p s p

theorem placed_of_next (h : p.next s = some p') : Placed α p s p' := by
  revert h
  fun_cases Passed.next p s <;> rintro ⟨⟩
  case case2 hh => exact .putHead (Bool.eq_false_iff.2 hh)
  case case3 hp => exact .keepCheckpoint hp.1 (Bool.eq_false_iff.2 hp.2)
  case case5 hp => exact .hibernated hp.1 hp.2
  case case8 hs hh => exact .state hs (Bool.eq_false_iff.2 hh)
  case case10 hh => exact .suspendVm (Bool.eq_false_iff.2 hh)
  case case12 hh => exact .settle (Bool.eq_false_iff.2 hh)
  case case14 hh => exact .deleteVm (Bool.eq_false_iff.2 hh)
  case case15 hh => exact .purgeVm hh
  case case17 hh => exact .removeDisk hh
  case case19 hput _ _ _ _ _ _ _ =>
    -- a step that is none of these has no effect here
    refine .still (fun n took => ?_) hput ?_
    · unfold effect
      split <;> simp_all
    · unfold Step.cleanup
      split <;> simp_all

/-! What a step does, in its place -/

theorem Agrees.withRest (h : Agrees data p n) (rest : List Step) : Agrees data p { n with rest := rest } :=
  ⟨h.put, h.named, h.hibernated, h.snapshot⟩

theorem Holds.withRest (h : Holds data n) (rest : List Step) : Holds data { n with rest := rest } :=
  ⟨h.same, h.hibernated, h.onNode⟩

theorem Agrees.not_hibernated (h : Agrees data p n) (hp : p.hibernated = false) : n.info.state ≠ .hibernated := by
  intro hn
  rw [h.hibernated.2 hn] at hp
  cases hp

theorem Agrees.setState (h : Agrees data p n) (state : PodState) (reason : String) (saved : Bool) :
    Agrees data { p with hibernated := decide (state = .hibernated) } (n.setState state reason saved) := by
  unfold Node.setState
  split_ifs with hs
  · refine ⟨h.put, h.named, ?_, h.snapshot⟩
    rw [hs.1]
    exact decide_eq_true_iff
  · exact ⟨h.put, h.named, decide_eq_true_iff, h.snapshot⟩

theorem setState_rest (state : PodState) (reason : String) (saved : Bool) :
    (n.setState state reason saved).rest = n.rest := by
  unfold setState
  split_ifs <;> rfl

theorem Holds.setState_other (h : Holds data n) {state : PodState} {reason : String} {saved : Bool}
    (hs : state ≠ .hibernated)
    (hn : n.info.state ≠ .hibernated) : Holds data (n.setState state reason saved) := by
  unfold setState
  split_ifs
  · exact h
  · have hk : n.kept.state ≠ .hibernated := fun hk => hn (h.same.1 hk)
    unfold update
    cases saved with
    | true => exact ⟨Iff.rfl, fun hk' => (hs hk').elim, fun _ => h.onNode hk⟩
    | false => exact ⟨⟨fun hk' => (hk hk').elim, fun hk' => (hs hk').elim⟩, fun hk' => (hk hk').elim, fun _ => h.onNode hk⟩

theorem Holds.setState_hibernated (h : Holds data n) {reason : String} (ha : Agrees data p n) (hput : p.put = true)
    (hnamed : p.named = true) : Holds data (n.setState .hibernated reason true) := by
  unfold setState
  split_ifs
  · exact h
  · exact ⟨Iff.rfl, fun _ => ⟨ha.named hnamed, ha.put hput⟩, fun hk => (hk rfl).elim⟩

theorem Agrees.effect (h : Agrees data p n) (hp : Placed α p s p') (hs : s ≠ .call .putHead) (took : Bool) :
    Agrees data p' (n.effect s took) := by
  cases hp with
  | putHead => exact (hs rfl).elim
  | keepCheckpoint => exact ⟨h.put, fun _ => rfl, h.hibernated, h.snapshot⟩
  | hibernated hput hnamed => exact h.setState .hibernated _ took
  | @state state reason hstate hh =>
    have hd : decide (state = .hibernated) = p.hibernated := (decide_eq_false hstate).trans hh.symm
    have := h.setState state reason took
    rw [hd] at this
    exact this
  | suspendVm => cases took <;> exact ⟨h.put, h.named, h.hibernated, fun _ => rfl⟩
  | settle => exact h
  | deleteVm | purgeVm | removeDisk => cases took <;> exact ⟨h.put, h.named, h.hibernated, h.snapshot⟩
  | still heffect =>
    rw [heffect]
    exact h

theorem Holds.effect (h : Holds data n) (ha : Agrees data p n) (hp : Placed α p s p') {took : Bool}
    (hs : took = true ∨ s.saysHibernated = false) : Holds data (n.effect s took) := by
  have gone (hh : p.hibernated = true) : n.kept.state = .hibernated := h.same.2 (ha.hibernated.1 hh)
  have here (hh : p.hibernated = false) : n.kept.state ≠ .hibernated := fun hk => ha.not_hibernated hh (h.same.1 hk)
  cases hp with
  | putHead hh =>
    cases took with
    | false => exact h
    | true => exact ⟨h.same, fun hk => (here hh hk).elim, h.onNode⟩
  | keepCheckpoint hput hh =>
    cases took with
    | false => exact ⟨h.same, h.hibernated, h.onNode⟩
    | true => exact ⟨Iff.rfl, fun hk => (ha.not_hibernated hh hk).elim, fun _ => h.onNode (here hh)⟩
  | hibernated hput hnamed =>
    rcases hs with rfl | hs
    · exact h.setState_hibernated ha hput hnamed
    · cases hs
  | state hstate hh => exact h.setState_other hstate (ha.not_hibernated hh)
  | suspendVm =>
    cases took with
    | false => exact h
    | true => exact ⟨h.same, h.hibernated, fun hk => ⟨(h.onNode hk).1, fun _ => rfl⟩⟩
  | settle => exact h
  | deleteVm hsnap =>
    cases took with
    | false => exact h
    | true =>
      -- there is no snapshot of the pod's
      refine ⟨h.same, h.hibernated, fun hk => ⟨(h.onNode hk).1, fun hn => ?_⟩⟩
      rw [ha.snapshot hn] at hsnap
      cases hsnap
  | purgeVm hh | removeDisk hh =>
    cases took with
    | false => exact h
    | true => exact ⟨h.same, h.hibernated, fun hk => (hk (gone hh)).elim⟩
  | still heffect =>
    rw [heffect]
    exact h

theorem Agrees.put_done (h : Agrees data p n) (ho : Holds data n) (hp : p.hibernated = false) (rest : List Step) :
    Agrees data { p with put := true } (n.done (.call .putHead) rest) := by
  have hk : n.kept.state ≠ .hibernated := fun hk => h.not_hibernated hp (ho.same.1 hk)
  refine ⟨fun _ => ⟨mem_cons_self, ?_⟩, h.named, h.hibernated, h.snapshot⟩
  show Function.update n.heads n.epoch n.disk n.epoch = some data
  rw [Function.update_self]
  exact (ho.onNode hk).1

theorem done_eq (hs : s ≠ .call .putHead) : n.done s rest = { n.effect s true with rest := rest } := by
  unfold done
  simp only [if_neg hs]

theorem Inv.done (h : Inv data n) (hrest : n.rest = s :: rest) : Inv data (n.done s rest) := by
  obtain ⟨p, ha, ho⟩ := h.rest
  rw [hrest] at ho
  obtain ⟨p', hnext, ho⟩ := Passed.ordered_cons.1 ho
  have hp : Placed α p s p' := placed_of_next hnext
  have hh := h.toHolds.effect ha hp (.inl rfl)
  by_cases hs : s = .call .putHead
  · subst hs
    cases hp with
    | putHead hhib =>
      refine ⟨⟨hh.same, fun hk => ?_, hh.onNode⟩, _, ha.put_done h.toHolds hhib rest, ho⟩
      exact (ha.not_hibernated hhib (h.same.1 hk)).elim
    | still _ hne _ => exact (hne rfl).elim
  · rw [done_eq hs]
    exact ⟨hh.withRest rest, p', (ha.effect hp hs true).withRest rest, ho⟩

theorem ordered_cleanup (hp : Placed α p s p') : p'.Ordered s.cleanup := by
  have running (hh : p'.hibernated = false) : p'.Ordered [.setState .running ""] :=
    Passed.ordered_cons.2 ⟨p', by simp [Passed.next, hh], .nil⟩
  cases hp with
  | suspendVm hh => exact running hh
  | settle hh => exact running hh
  | still _ _ hc =>
    rw [hc]
    exact .nil
  | _ => exact .nil

theorem Inv.failed (h : Inv data n) (hrest : n.rest = s :: rest) (hs : s.saysHibernated = false) (took : Bool) :
    Inv data (n.failed s took rest) := by
  obtain ⟨p, ha, ho⟩ := h.rest
  rw [hrest] at ho
  obtain ⟨p', hnext, ho⟩ := Passed.ordered_cons.1 ho
  have hp : Placed α p s p' := placed_of_next hnext
  refine ⟨(h.toHolds.effect ha hp (.inr hs)).withRest _, ?_⟩
  by_cases hput : s = .call .putHead
  · subst hput
    -- a head that may be up counts for nothing
    have hnone : Agrees data { p with put := false } (n.effect (.call .putHead) (took && true)) := by
      cases took <;> exact ⟨nofun, ha.named, ha.hibernated, ha.snapshot⟩
    exact ⟨_, hnone.withRest _, .nil⟩
  · refine ⟨p', (ha.effect hp hput _).withRest _, ?_⟩
    show p'.Ordered (if s.mayFail then s.cleanup else rest)
    split_ifs
    · exact ordered_cleanup hp
    · exact ho

theorem Inv.step {e : Event} (h : Inv data n) (hd : Durable n e) (hs : n.step e = some n') : Inv data n' := by
  revert hs
  fun_cases Node.step n e <;> rintro ⟨⟩
  case case1 epoch volumes hg =>
    have hk : n.kept.state ≠ .hibernated := fun hk => hg.2 (h.same.1 hk)
    obtain ⟨hdisk, hsnap⟩ := h.onNode hk
    refine ⟨⟨h.same, fun hk' => (hk hk').elim, fun _ => ⟨hdisk, fun hn => hsnap (Bool.and_eq_true_iff.1 hn).1⟩⟩, ?_⟩
    -- nothing has happened yet
    refine ⟨⟨false, false, false, n.hadSnapshot && decide (n.info.state ∉ [.stopped, .failed])⟩,
      ⟨nofun, nofun, ⟨nofun, fun hn => (hg.2 hn).elim⟩, id⟩, Passed.ordered_stepsOf rfl fun hn => ?_⟩
    obtain ⟨hhad, hstate⟩ := Bool.and_eq_true_iff.1 hn
    exact ⟨hsnap hhad, of_decide_eq_true hstate⟩
  case case4 hrest => exact h.done hrest
  case case5 took hrest =>
    unfold Durable at hd
    rw [hrest] at hd
    exact h.failed hrest hd took
  case case6 =>
    obtain ⟨p, ha, -⟩ := h.rest
    exact ⟨h.toHolds.withRest [], p, ha.withRest [], .nil⟩
  case case7 =>
    refine ⟨⟨Iff.rfl, h.hibernated, h.onNode⟩, ?_⟩
    exact ⟨⟨false, false, decide (n.kept.state = .hibernated), true⟩, ⟨nofun, nofun, decide_eq_true_iff, fun _ => rfl⟩, .nil⟩
  case case8 ends hg =>
    have hn : n.info.state ≠ .hibernated := by
      rw [hg.2.1]
      decide
    obtain ⟨p, ha, -⟩ := h.rest
    refine ⟨h.toHolds.setState_other (by decide) hn, _, ha.setState .suspended _ _, ?_⟩
    rw [setState_rest, hg.1]
    exact .nil
  case case10 volumes hg =>
    obtain ⟨p, ha, -⟩ := h.rest
    refine ⟨h.toHolds.withRest _, p, ha.withRest _, ?_⟩
    have := (Passed.ordered_purgeSteps (l := []) volumes (ha.hibernated.2 hg.2)).2 .nil
    rwa [append_nil] at this

/-- A pod that is not hibernated, and whose disk is on the node. -/
structure Start (data : α) (n : Node α) : Prop where
  info : n.info.state ≠ .hibernated
  kept : n.kept.state ≠ .hibernated
  disk : n.disk = some data
  snapshot : n.hadSnapshot = true → n.snapshot = true
  rest : n.rest = []

theorem Inv.start (h : Start data n) : Inv data n where
  same := ⟨fun hk => (h.kept hk).elim, fun hn => (h.info hn).elim⟩
  hibernated hk := (h.kept hk).elim
  onNode _ := ⟨h.disk, h.snapshot⟩
  rest := by
    refine ⟨⟨false, false, false, true⟩, ⟨nofun, nofun, ⟨nofun, fun hn => (h.info hn).elim⟩, fun _ => rfl⟩, ?_⟩
    rw [h.rest]
    exact .nil

/-- The pod is not lost: the record that is kept names what is there. -/
structure NotLost (data : α) (n : Node α) : Prop where
  onNode : n.kept.state ≠ .hibernated → n.disk = some data ∧ (n.hadSnapshot = true → n.snapshot = true)
  hibernated : n.kept.state = .hibernated → ∃ epoch ∈ n.put, n.kept.checkpoint = some epoch ∧ n.heads epoch = some data
  /-- the disk is removed after the record that names the checkpoint is kept -/
  removed : n.disk = none → n.kept.state = .hibernated ∧ ∃ epoch ∈ n.put, n.kept.checkpoint = some epoch
  comesUp : n.comesUpOn = some data

theorem Holds.notLost (h : Holds data n) : NotLost data n := by
  have named (hk : n.kept.state = .hibernated) : ∃ epoch ∈ n.put, n.kept.checkpoint = some epoch ∧
      n.heads epoch = some data := by
    obtain ⟨hc, hput, hhead⟩ := h.hibernated hk
    exact ⟨n.epoch, hput, hc, hhead⟩
  refine ⟨h.onNode, named, fun hdisk => ?_, ?_⟩
  · by_cases hk : n.kept.state = .hibernated
    · obtain ⟨epoch, hput, hc, -⟩ := named hk
      exact ⟨hk, epoch, hput, hc⟩
    · rw [(h.onNode hk).1] at hdisk
      cases hdisk
  · unfold comesUpOn
    split_ifs with hk
    · obtain ⟨epoch, -, hc, hhead⟩ := named hk
      rw [hc]
      exact hhead
    · rw [(h.onNode hk).1]
      rfl

/-- Whatever fails and wherever feosd ends, when the write of the record that says hibernated does
not fail. -/
theorem hibernation_keeps_pod {n₀ : Node α} (h₀ : Start data n₀) (h : Reach step Durable n₀ n) : NotLost data n := by
  have hinv : Inv data n := h.invariant (Inv.start h₀) fun _ _ _ hi hd hs => hi.step hd hs
  exact hinv.toHolds.notLost

instance (n : Node α) (e : Event) : Decidable (Durable n e) := by
  unfold Durable
  split <;> infer_instance

/-- A suspended pod with an older checkpoint, the one of its last hibernation. -/
def sampleNode : Node ℕ where
  info := ⟨.suspended, "suspended", some 1⟩
  kept := ⟨.suspended, "suspended", some 1⟩
  disk := some 2
  snapshot := true
  hadSnapshot := true
  heads := fun epoch => if epoch = 1 then some 1 else none
  put := [1]
  epoch := 1
  rest := []

def upToLeave : List Event := .hibernate 2 [] :: replicate 22 (.run .ok)

/-- The write of the checkpoint fails, and the next one has it. -/
theorem hibernation_keeps_pod_hibernated : ∃ n, Reach step Durable sampleNode n ∧ n.disk = none ∧ NotLost 2 n := by
  obtain ⟨n, hreach, hn⟩ : ∃ n, Reach step Durable sampleNode n ∧ n.disk = none :=
    exists_follow (upToLeave ++ [.run (.fails false), .run .ok, .run .ok, .run .ok, .run .ok, .restart]) (by decide +kernel)
  exact ⟨n, hreach, hn, hibernation_keeps_pod ⟨by decide, by decide, rfl, fun _ => rfl, rfl⟩ hreach⟩

/-- Both writes fail, which is only logged, and the purge goes on: after a restart the record names the
pod as suspended, its disk and its snapshot are gone, and it comes up on the disk of its older
checkpoint. -/
theorem lost_record_comes_up_older : Start 2 sampleNode ∧ ∃ n, Reach step (fun _ _ => True) sampleNode n ∧
    n.kept.state = .suspended ∧ n.disk = none ∧ n.snapshot = false ∧ n.comesUpOn = some 1 :=
  ⟨⟨by decide, by decide, rfl, fun _ => rfl, rfl⟩,
    exists_follow (upToLeave ++ [.run (.fails false), .run (.fails false), .run .ok, .run .ok, .run .ok, .restart])
      (by decide +kernel)⟩

end Node

end FeOS.Pods
