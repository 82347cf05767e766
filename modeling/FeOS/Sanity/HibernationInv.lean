import FeOS.Spec.HibernationWorld

/-! What holds in every run of HibernatePods, resumes and tasks on one pod: the slot is that of the
one task that has not ended, a task past its first moment has the pod's lock, and no head is asked
for before `enter_head` succeeded. -/

namespace FeOS.Pods

open Runs Function List Function

/-! The order of a task's steps -/

def Step.early (s : Step) : Bool := !s.putsHead && decide (s ≠ .enterHead)

def Step.late : Step → Bool
  | .check | .setMemory _ | .enterHead => false
  | .setPhase p => p = .leaving
  | s => !s.abandonable

def Unentered (rest : List Step) : Prop :=
  rest.all Step.early ∨ ∃ pre post, rest = pre ++ .enterHead :: post ∧ pre.all Step.early ∧ post.all Step.late

variable {rest : List Step}

theorem Unentered.cons {s : Step} (h : Unentered (s :: rest)) :
    (s.early ∧ Unentered rest) ∨ (s = .enterHead ∧ rest.all Step.late) := by
  rcases h with hall | ⟨pre, post, heq, hpre, hpost⟩
  · rw [all_cons, Bool.and_eq_true] at hall
    exact .inl ⟨hall.1, .inl hall.2⟩
  · cases pre with
    | nil =>
      cases heq
      exact .inr ⟨rfl, hpost⟩
    | cons s' pre =>
      rw [cons_append, cons.injEq] at heq
      rw [all_cons, Bool.and_eq_true] at hpre
      obtain ⟨rfl, rfl⟩ := heq
      exact .inl ⟨hpre.1, .inr ⟨pre, post, rfl, hpre.2, hpost⟩⟩

theorem Unentered.early_cons {s : Step} (hs : s.early) (h : Unentered rest) : Unentered (s :: rest) := by
  rcases h with hall | ⟨pre, post, rfl, hpre, hpost⟩
  · exact .inl (by rw [all_cons, hs, hall]; rfl)
  · exact .inr ⟨s :: pre, post, rfl, by rw [all_cons, hs, hpre]; rfl, hpost⟩

theorem early_stepsBeforeHead (running memory : Bool) (volumes : List Volume) :
    (stepsBeforeHead running memory volumes).all Step.early := by
  have hvolumes : (volumes.flatMap volumeSteps).all Step.early := by
    rw [all_flatMap, all_eq_true]
    intro v _
    unfold volumeSteps
    split_ifs <;> rfl
  have hdecide : (decideSteps running memory).all Step.early := by
    cases running <;> cases memory <;> rfl
  have hmemory : (memorySteps memory).all Step.early := by
    cases memory <;> rfl
  have hseal : sealSteps.all Step.early := rfl
  simp [stepsBeforeHead, all_append, hdecide, hseal, hvolumes, hmemory]

theorem late_stepsFromHead (volumes : List Volume) : (stepsFromHead volumes).all Step.late := by
  have hheads : (volumes.flatMap headVolume).all Step.late := by
    rw [all_flatMap, all_eq_true]
    intro v _
    unfold headVolume
    split_ifs <;> rfl
  have hcheckpoints : (volumes.flatMap checkpointVolume).all Step.late := by
    rw [all_flatMap, all_eq_true]
    intro v _
    unfold checkpointVolume
    split_ifs <;> rfl
  have hpurge : (purgeSteps volumes).all Step.late := by
    simp [purgeSteps, Step.late, Step.abandonable]
  have hput : [Step.call .putHead, .setPhase .leaving].all Step.late := rfl
  have hleave : leaveSteps.all Step.late := rfl
  have hlast : lastSteps.all Step.late := rfl
  simp only [stepsFromHead, flatten_cons, flatten_nil, append_nil, all_append, hheads, hput, hcheckpoints,
    hleave, hpurge, hlast, Bool.and_self]

theorem unentered_stepsOf (state : PodState) (snapshotExists : Bool) (volumes : List Volume) :
    Unentered (stepsOf state snapshotExists volumes) := by
  have hsteps : ∀ running memory, Unentered (hibernateSteps running memory volumes) := fun running memory =>
    .inr ⟨_, _, rfl, early_stepsBeforeHead running memory volumes, late_stepsFromHead volumes⟩
  refine .early_cons rfl ?_
  cases state with
  | running | suspended | stopped | failed => exact hsteps _ _
  | pending | hibernated | other => exact .inl rfl

/-! The invariant -/

def Stage.alive : Stage → Bool
  | .unlocking _ | .ended _ => false
  | _ => true

def Stage.holds : Stage → Bool
  | .waiting | .ended _ => false
  | _ => true

def Stage.over : Stage → Bool
  | .ending _ _ | .unlocking _ | .ended _ => true
  | _ => false

def Stage.RestOk (entered : Prop) : Stage → Prop
  | .waiting | .locked => ¬ entered
  | .steps rest => (entered → rest.all Step.late) ∧ (¬ entered → Unentered rest)
  | _ => True

structure TaskOk (w : World) (t : ℕ) (task : Task) : Prop where
  slot : task.stage.alive → ∃ h, w.slot = some h ∧ h.token = t
  lock : task.stage.holds ↔ w.lock = some (.task t)
  rest : task.stage.RestOk (t ∈ w.entered)
  unasked : t ∈ w.entered → task.obeys = true → w.asked t = false
  /-- a hibernation that was abandoned is over, and its head was not put -/
  abandoned : t ∈ w.abandoned → task.stage.over ∧ t ∉ w.entered

structure SlotOk (w : World) (h : Hibernation) : Prop where
  task : ∃ task, w.tasks h.token = some task ∧ task.stage.alive ∧ (task.obeys = true ↔ h.memory = some true)
  phase : h.token ∈ w.entered → Phase.head.number ≤ h.phase.number

structure Inv (w : World) : Prop where
  made : ∀ t, t < w.fresh → (w.tasks t).isSome
  fresh : ∀ t, w.fresh ≤ t → w.tasks t = none ∧ w.asked t = false ∧ t ∉ w.entered ∧ t ∉ w.abandoned
  tasks : ∀ t task, w.tasks t = some task → TaskOk w t task
  slot : ∀ h, w.slot = some h → SlotOk w h
  lock : ∀ t, w.lock = some (.task t) → (w.tasks t).isSome
  resumes : ∀ r, w.lock = some (.resume r) ↔ w.resumes r = some (.polled true) ∨ ∃ met, w.resumes r = some (.holding met)
  heads : ∀ t ∈ w.heads, t ∈ w.entered
  calls : ∀ c t, w.calls c = some (.joined t) → (w.tasks t).isSome

/-! What a step can do -/

def Stage.works : Stage → Bool
  | .locked | .steps _ | .failing _ => true
  | _ => false

variable {s s' : Stage}

theorem Stage.alive_of_works (h : s.works) : s.alive := by
  cases s <;> first | rfl | cases h

theorem Stage.holds_of_works (h : s.works) : s.holds := by
  cases s <;> first | rfl | cases h

theorem Stage.not_over_of_works (h : s.works) : s.over = false := by
  cases s <;> first | rfl | cases h

inductive Goes : Stage → Stage → Prop
  | read {state snapshotExists volumes} : Goes .locked (.steps (stepsOf state snapshotExists volumes))
  | next {s : Step} {rest : List Step} (hs : s ≠ .enterHead) : Goes (.steps (s :: rest)) (.steps rest)
  | slips {s : Step} {rest left : List Step} : Goes (.steps (s :: rest)) (.failing left)
  | cleans {s : Step} {rest : List Step} : Goes (.failing (s :: rest)) (.failing rest)
  | ends {s : Stage} {answer} (hs : s.works) : Goes s (.ending answer false)

theorem Goes.works (h : Goes s s') : s.works := by
  cases h <;> first | rfl | assumption

theorem Goes.alive (h : Goes s s') : s'.alive := by
  cases h <;> rfl

theorem Goes.holds (h : Goes s s') : s'.holds := by
  cases h <;> rfl

theorem Goes.restOk {entered : Prop} (h : Goes s s') (hrest : s.RestOk entered) : s'.RestOk entered := by
  cases h with
  | read => exact ⟨fun he => absurd he hrest, fun _ => unentered_stepsOf ..⟩
  | next hs =>
    refine ⟨fun he => ?_, fun he => ?_⟩
    · exact (Bool.and_eq_true_iff.1 (hrest.1 he)).2
    · rcases (hrest.2 he).cons with ⟨-, hun⟩ | ⟨rfl, -⟩
      · exact hun
      · exact absurd rfl hs
  | slips | cleans | ends => trivial

def Event.task : Event → Option ℕ
  | .takeLock t | .read t .. | .run t _ | .endSlot t | .unlock t => some t
  | _ => none

/-- What a task's own step does while it works. -/
inductive Worked (w : World) (t : ℕ) (task : Task) : World → Prop
  | goes {s' : Stage} {heads} (hgo : Goes task.stage s')
      (hheads : heads = w.heads ∨ heads = t :: w.heads ∧ ∃ s rest, task.stage = .steps (s :: rest) ∧ s.putsHead) :
      Worked w t task { w.setTask t { task with stage := s' } with heads := heads }
  | decides {m} {rest : List Step} (hs : task.stage = .steps (.setMemory m :: rest)) :
      Worked w t task ((w.withHibernation t fun h => { h with memory := some m }).setTask t ⟨m, .steps rest⟩)
  | phases {p} {rest : List Step} (hs : task.stage = .steps (.setPhase p :: rest)) :
      Worked w t task ((w.withHibernation t fun h => { h with phase := p }).setTask t { task with stage := .steps rest })
  | enters {rest : List Step} {slot} (hs : task.stage = .steps (.enterHead :: rest))
      (hslot : w.enter t task = some slot) :
      Worked w t task { w.setTask t { task with stage := .steps rest } with
        slot := slot
        entered := t :: w.entered }
  | abandons (hs : task.stage.works) (hasked : w.isAsked t task) :
      Worked w t task { w.setTask t { task with stage := .ending .aborted true } with abandoned := t :: w.abandoned }

inductive Moved (w : World) : Event → World → Prop
  | refused {c id noAbandon} (hid : id ≠ "" ∧ id ∈ w.abandonedIds) :
      Moved w (.hibernatePod c id noAbandon) { w with calls := update w.calls c (some .refused) }
  | joined {c id noAbandon h h'} (hid : ¬ (id ≠ "" ∧ id ∈ w.abandonedIds))
      (hslot : w.slot = some h) (htoken : h'.token = h.token) (hphase : h'.phase = h.phase)
      (hmemory : h'.memory = h.memory) :
      Moved w (.hibernatePod c id noAbandon) { w with
        slot := some h'
        calls := update w.calls c (some (.joined h'.token)) }
  | started {c id noAbandon} (hid : ¬ (id ≠ "" ∧ id ∈ w.abandonedIds)) (hslot : w.slot = none) :
      Moved w (.hibernatePod c id noAbandon) (w.start c id noAbandon)
  | locked {t task} (ht : w.tasks t = some task) (hs : task.stage = .waiting) (hfree : w.lock = none) :
      Moved w (.takeLock t) { w.setTask t { task with stage := .locked } with lock := some (.task t) }
  | works {e : Event} {t task w'} (he : e.task = some t) (ht : w.tasks t = some task)
      (h : Worked w t task w') : Moved w e w'
  | endsSlot {t task answer abandoned} (ht : w.tasks t = some task)
      (hs : task.stage = .ending answer abandoned) :
      Moved w (.endSlot t) { w.setTask t { task with stage := .unlocking answer } with
        slot := (endSlot w.slot w.abandonedIds t abandoned).1
        abandonedIds := (endSlot w.slot w.abandonedIds t abandoned).2 }
  | unlocks {t task answer} (ht : w.tasks t = some task) (hs : task.stage = .unlocking answer) :
      Moved w (.unlock t) { w.setTask t { task with stage := .ended answer } with lock := none }
  | polledFree {r} (hr : w.resumes r = none) (hfree : w.lock = none) :
      Moved w (.poll r) { w with
        resumes := update w.resumes r (some (.polled true))
        lock := some (.resume r) }
  | polledQueued {r} (hr : w.resumes r = none) (hheld : w.lock ≠ none) :
      Moved w (.poll r) { w with resumes := update w.resumes r (some (.polled false)) }
  | asked {r gotLock} (hr : w.resumes r = some (.polled gotLock)) : Moved w (.ask r) (w.askStep r gotLock)
  | acquired {r met} (hr : w.resumes r = some (.waiting met)) (hfree : w.lock = none) :
      Moved w (.acquire r) { w with
        resumes := update w.resumes r (some (.holding met))
        lock := some (.resume r) }
  | released {r met} (hr : w.resumes r = some (.holding met)) :
      Moved w (.release r) { w with
        resumes := update w.resumes r (some .done)
        lock := none }
  | otherLocks (hfree : w.lock = none) : Moved w .otherLock { w with lock := some .other }
  | otherUnlocks (hheld : w.lock = some .other) : Moved w .otherUnlock { w with lock := none }

section Inversion
variable {w w' : World} {e : Event} {t : ℕ} {task : Task}

theorem fail_worked (hs : task.stage.works) : Worked w t task (w.fail t task) := by
  unfold World.fail
  split_ifs with hasked
  · exact .abandons hs hasked
  · exact .goes (.ends hs) (.inl rfl)

theorem stepOk_worked {s : Step} {rest : List Step} (hs : task.stage = .steps (s :: rest)) :
    Worked w t task (w.stepOk t task s rest) := by
  have hworks : task.stage.works := hs ▸ rfl
  -- a step that changes nothing but the heads
  have hplain : s ≠ .enterHead → Worked w t task { w.setTask t { task with stage := .steps rest } with
      heads := if s.putsHead then t :: w.heads else w.heads } := by
    intro hne
    refine .goes (hs ▸ .next hne) ?_
    split_ifs with hput
    · exact .inr ⟨rfl, s, rest, hs, hput⟩
    · exact .inl rfl
  cases s with
  | call c =>
    cases c with
    | refuse => exact fail_worked hworks
    | _ => exact hplain nofun
  | disk | volume | setState | setEpoch | keepCheckpoint => exact hplain nofun
  | setMemory m => exact .decides hs
  | check =>
    simp only [World.stepOk]
    split_ifs
    · exact fail_worked hworks
    · exact hplain nofun
  | setPhase p => exact .phases hs
  | enterHead =>
    simp only [World.stepOk]
    split
    next => exact fail_worked hworks
    next slot hslot => exact .enters hs hslot

theorem run_worked {o : Outcome} (h : w.run t task o = some w') : Worked w t task w' := by
  have hplain : ∀ s', Goes task.stage s' → Worked w t task (w.setTask t { task with stage := s' }) :=
    fun s' hgo => .goes hgo (.inl rfl)
  revert h
  fun_cases World.run w t task o <;> intro h <;> try cases h
  case case1 s rest hs =>
    revert h
    fun_cases World.runStep w t task s rest o <;> rintro ⟨⟩
    case case1 => exact stepOk_worked hs
    case case2 =>
      split_ifs with hput
      · exact .goes (hs ▸ .slips) (.inr ⟨rfl, s, rest, hs, hput⟩)
      · exact hplain _ (hs ▸ .slips)
    case case4 => exact hplain _ (hs ▸ .slips)
    case case6 => exact hplain _ (hs ▸ .ends rfl)
  case case2 hs => exact hplain _ (hs ▸ .ends rfl)
  case case4 s rest hs => exact hplain _ (hs ▸ .cleans)
  case case5 s rest hs => exact hplain _ (hs ▸ .ends rfl)
  case case7 hs => exact fail_worked (hs ▸ rfl)

theorem addRequest_same (h : Hibernation) (id : String) :
    (h.addRequest id).token = h.token ∧ (h.addRequest id).phase = h.phase ∧ (h.addRequest id).memory = h.memory := by
  unfold Hibernation.addRequest
  split_ifs <;> exact ⟨rfl, rfl, rfl⟩

theorem hibernatePod_moved (c : ℕ) (id : String) (noAbandon : Bool) :
    Moved w (.hibernatePod c id noAbandon) (w.hibernatePod c id noAbandon) := by
  unfold World.hibernatePod join
  by_cases hid : id ≠ "" ∧ id ∈ w.abandonedIds
  · rw [if_pos hid]
    exact .refused hid
  · rw [if_neg hid]
    cases hslot : w.slot with
    | none => exact .started hid hslot
    | some h =>
      obtain ⟨htoken, hphase, hmemory⟩ := addRequest_same { h with noAbandon := h.noAbandon || noAbandon } id
      exact .joined hid hslot htoken hphase hmemory

theorem step_moved (h : w.step e = some w') : Moved w e w' := by
  revert h
  fun_cases World.step w e <;> intro h <;> try cases h
  case case1 c id noAbandon hc => exact hibernatePod_moved c id noAbandon
  case case3 t task ht hc => exact .locked ht hc.1 hc.2
  case case6 t snapshotExists volumes task ht hs =>
    exact .works rfl ht (.goes (hs ▸ .ends rfl) (.inl rfl))
  case case7 t state snapshotExists volumes task ht hs hstate =>
    exact .works rfl ht (.goes (hs ▸ .read) (.inl rfl))
  case case10 t o task ht => exact .works rfl ht (run_worked h)
  case case12 t task ht answer abandoned hs slot ids hend =>
    obtain ⟨rfl, rfl⟩ := Prod.mk.inj hend
    exact .endsSlot ht hs
  case case15 t task ht answer hs => exact .unlocks ht hs
  case case18 r hr hfree => exact .polledFree hr hfree
  case case19 r hr hfree => exact .polledQueued hr hfree
  case case21 r gotLock hr => exact .asked hr
  case case23 r met hr hfree => exact .acquired hr hfree
  case case26 r met hr => exact .released hr
  case case28 hfree => exact .otherLocks hfree
  case case30 hheld => exact .otherUnlocks hheld

end Inversion

/-! Every step keeps the invariant -/

theorem inv_empty : Inv World.empty where
  made := fun _ h => nomatch h
  fresh := fun _ _ => ⟨rfl, rfl, not_mem_nil, not_mem_nil⟩
  tasks := fun _ _ h => nomatch h
  slot := fun _ h => nomatch h
  lock := fun _ h => nomatch h
  resumes := fun r => by simp [World.empty]
  heads := fun _ h => nomatch h
  calls := fun _ _ h => nomatch h

section Keep
variable {w w' : World} {t : ℕ} {task task' : Task} {slot : Option Hibernation}

theorem Inv.alive_unique (h : Inv w) (ht : w.tasks t = some task) (halive : task.stage.alive) {b : ℕ} {task' : Task}
    (hb : w.tasks b = some task') (halive' : task'.stage.alive) : b = t := by
  obtain ⟨h1, hslot1, rfl⟩ := (h.tasks t task ht).slot halive
  obtain ⟨h2, hslot2, rfl⟩ := (h.tasks b task' hb).slot halive'
  cases hslot1.symm.trans hslot2
  rfl

theorem Inv.of_task {ids : List String} {lock : Option Holder} {entered heads abandoned : List ℕ}
    (h : Inv w) (hw : w' = { w with
      slot := slot
      abandonedIds := ids
      tasks := update w.tasks t (some task')
      lock := lock
      entered := entered
      heads := heads
      abandoned := abandoned })
    (hentered : ∀ b, b ≠ t → (b ∈ entered ↔ b ∈ w.entered)) (habandoned : ∀ b, b ≠ t → (b ∈ abandoned ↔ b ∈ w.abandoned))
    (ht : t < w.fresh) (hlock : ∀ b, b ≠ t → (lock = some (.task b) ↔ w.lock = some (.task b)))
    (hlockr : ∀ r, lock = some (.resume r) ↔ w.lock = some (.resume r)) (hheads : ∀ x ∈ heads, x ∈ entered)
    (hothers : ∀ b, b ≠ t → (∃ h, w.slot = some h ∧ h.token = b) → ∃ h, slot = some h ∧ h.token = b)
    (hslot : ∀ h', slot = some h' → SlotOk w' h') (hok : TaskOk w' t task') : Inv w' := by
  subst hw
  refine ⟨?_, fun b hb => ?_, fun b taskb hb => ?_, hslot, fun b hb => ?_, fun r => (hlockr r).trans (h.resumes r), hheads,
    fun c b hb => ?_⟩
  · exact (forall_update_iff w.tasks fun b x => b < w.fresh → x.isSome).2 ⟨fun _ => rfl, fun b _ => h.made b⟩
  · obtain ⟨hnone, hflag, hent, haban⟩ := h.fresh b hb
    have hne : b ≠ t := fun heq => absurd ht (not_lt.2 (heq ▸ hb))
    exact ⟨(update_of_ne hne _ _).trans hnone, hflag, (not_congr (hentered b hne)).2 hent,
      (not_congr (habandoned b hne)).2 haban⟩
  · rcases update_cases hb with ⟨rfl, ⟨⟩⟩ | ⟨heq, hb⟩
    · exact hok
    · obtain ⟨hslot', hlock', hrest', hunasked', habandoned'⟩ := h.tasks b taskb hb
      refine ⟨fun ha => hothers b heq (hslot' ha), hlock'.trans (hlock b heq).symm, ?_, ?_, ?_⟩
      · rwa [propext (hentered b heq)]
      · rwa [hentered b heq]
      · rwa [hentered b heq, habandoned b heq]
  · dsimp only
    rw [update_apply]
    split_ifs with heq
    · rfl
    · exact h.lock b ((hlock b heq).1 hb)
  · dsimp only
    rw [update_apply]
    split_ifs
    · rfl
    · exact h.calls c b hb

theorem Inv.lt_fresh (h : Inv w) (ht : w.tasks t = some task) : t < w.fresh := by
  by_contra hle
  simp [(h.fresh t (not_lt.1 hle)).1] at ht

theorem Inv.slot_of_alive (h : Inv w) (ht : w.tasks t = some task) (halive : task.stage.alive) :
    ∃ hib, w.slot = some hib ∧ hib.token = t ∧ (task.obeys = true ↔ hib.memory = some true) ∧
      (t ∈ w.entered → Phase.head.number ≤ hib.phase.number) := by
  obtain ⟨hib, hslot, rfl⟩ := (h.tasks t task ht).slot halive
  obtain ⟨⟨task', ht', -, hobeys⟩, hphase⟩ := h.slot hib hslot
  cases ht.symm.trans ht'
  exact ⟨hib, hslot, rfl, hobeys, hphase⟩

theorem Inv.of_work {entered heads abandoned : List ℕ} (h : Inv w) (ht : w.tasks t = some task)
    (hworks : task.stage.works) (hw : w' = { w with
      slot := slot
      tasks := update w.tasks t (some task')
      entered := entered
      heads := heads
      abandoned := abandoned })
    (hentered : ∀ b, b ≠ t → (b ∈ entered ↔ b ∈ w.entered)) (habandoned : ∀ b, b ≠ t → (b ∈ abandoned ↔ b ∈ w.abandoned))
    (hheads : ∀ x ∈ heads, x ∈ entered) (halive : task'.stage.alive) (hholds : task'.stage.holds)
    (hslot : ∃ hib, slot = some hib ∧ hib.token = t ∧ (task'.obeys = true ↔ hib.memory = some true) ∧
      (t ∈ entered → Phase.head.number ≤ hib.phase.number))
    (hrest : task'.stage.RestOk (t ∈ entered)) (hunasked : t ∈ entered → task'.obeys = true → w.asked t = false)
    (hover : t ∈ abandoned → task'.stage.over ∧ t ∉ entered) : Inv w' := by
  subst hw
  obtain ⟨hib, hs, htoken, hobeys, hphase⟩ := hslot
  have hheld : w.lock = some (.task t) := (h.tasks t task ht).lock.1 (Stage.holds_of_works hworks)
  refine h.of_task rfl hentered habandoned (h.lt_fresh ht) (fun _ _ => Iff.rfl) (fun _ => Iff.rfl) hheads ?_ ?_
    ⟨fun _ => ⟨hib, hs, htoken⟩, iff_of_true hholds hheld, hrest, hunasked, hover⟩
  · rintro b hne ⟨hib', hs', rfl⟩
    obtain ⟨hib1, hs1, ht1⟩ := (h.tasks t task ht).slot (Stage.alive_of_works hworks)
    cases hs'.symm.trans hs1
    exact absurd ht1 hne
  · intro hib' hs'
    cases hs.symm.trans hs'
    subst htoken
    exact ⟨⟨task', update_self .., halive, hobeys⟩, hphase⟩

variable {rest : List Step}

namespace Inv
variable (h : Inv w) (ht : w.tasks t = some task)
include h ht

theorem entered_of_puts {s : Step} (hs : task.stage = .steps (s :: rest)) (hput : s.putsHead) : t ∈ w.entered := by
  by_contra hnot
  have hrest := hs ▸ (h.tasks t task ht).rest
  rcases (hrest.2 hnot).cons with ⟨hearly, -⟩ | ⟨rfl, -⟩
  · simp [Step.early, hput] at hearly
  · cases hput

theorem not_abandoned_of_works (hworks : task.stage.works) : t ∉ w.abandoned := by
  intro hmem
  have hover := ((h.tasks t task ht).abandoned hmem).1
  simp [Stage.not_over_of_works hworks] at hover

theorem goes {s' : Stage} {heads : List ℕ} (hgo : Goes task.stage s')
    (hheads : heads = w.heads ∨ heads = t :: w.heads ∧ ∃ s rest, task.stage = .steps (s :: rest) ∧ s.putsHead) :
    Inv { w.setTask t { task with stage := s' } with heads := heads } := by
  have hok := h.tasks t task ht
  have hslot := h.slot_of_alive ht (Stage.alive_of_works hgo.works)
  refine h.of_work ht hgo.works rfl (fun _ _ => Iff.rfl) (fun _ _ => Iff.rfl) ?_ hgo.alive hgo.holds hslot
    (hgo.restOk hok.rest) hok.unasked ?_
  · intro x hx
    rcases hheads with rfl | ⟨rfl, s, rest, hs, hput⟩
    · exact h.heads x hx
    · rcases mem_cons.1 hx with rfl | hx
      · exact h.entered_of_puts ht hs hput
      · exact h.heads x hx
  · exact fun hmem => absurd hmem (h.not_abandoned_of_works ht hgo.works)

theorem withHibernation (halive : task.stage.alive) (change : Hibernation → Hibernation) :
    ∃ hib, hib.token = t ∧ (task.obeys = true ↔ hib.memory = some true) ∧
      (w.withHibernation t change).slot = some (change hib) := by
  obtain ⟨hib, hslot, htoken, hobeys, -⟩ := h.slot_of_alive ht halive
  refine ⟨hib, htoken, hobeys, ?_⟩
  rw [World.withHibernation_slot, hslot, Option.map_some, if_pos htoken]

theorem decides {m : Bool} (hs : task.stage = .steps (.setMemory m :: rest)) :
    Inv ((w.withHibernation t fun hib => { hib with memory := some m }).setTask t ⟨m, .steps rest⟩) := by
  have hworks : task.stage.works := hs ▸ rfl
  have hrest := hs ▸ (h.tasks t task ht).rest
  -- nothing decides after the point of no return
  have hnot : t ∉ w.entered := fun hmem => absurd (Bool.and_eq_true_iff.1 (hrest.1 hmem)).1 nofun
  obtain ⟨hib, htoken, -, hslot⟩ := h.withHibernation ht (Stage.alive_of_works hworks) fun hib =>
      { hib with memory := some m }
  refine h.of_work ht hworks rfl (fun _ _ => Iff.rfl) (fun _ _ => Iff.rfl) h.heads rfl rfl
    ⟨_, hslot, htoken, by simp, fun hmem => absurd hmem hnot⟩ ⟨fun hmem => absurd hmem hnot, fun _ => ?_⟩
    (fun hmem => absurd hmem hnot) fun hmem => absurd hmem (h.not_abandoned_of_works ht hworks)
  rcases (hrest.2 hnot).cons with ⟨-, hun⟩ | ⟨hne, -⟩
  · exact hun
  · cases hne

theorem phases {p : Phase} (hs : task.stage = .steps (.setPhase p :: rest)) :
    Inv ((w.withHibernation t fun hib => { hib with phase := p }).setTask t { task with stage := .steps rest }) := by
  have hok := h.tasks t task ht
  have hgo : Goes task.stage (.steps rest) := hs ▸ .next nofun
  have hrest := hs ▸ hok.rest
  obtain ⟨hib, htoken, hobeys, hslot⟩ :=
    h.withHibernation ht (Stage.alive_of_works hgo.works) fun hib => { hib with phase := p }
  refine h.of_work ht hgo.works rfl (fun _ _ => Iff.rfl) (fun _ _ => Iff.rfl) h.heads rfl rfl
    ⟨_, hslot, htoken, hobeys, fun hmem => ?_⟩ (hgo.restOk hok.rest) hok.unasked
    fun hmem => absurd hmem (h.not_abandoned_of_works ht hgo.works)
  -- the only phase after the head's is the last one
  rw [of_decide_eq_true (Bool.and_eq_true_iff.1 (hrest.1 hmem)).1]
  change Phase.head.number ≤ Phase.leaving.number
  decide

theorem enters (hs : task.stage = .steps (.enterHead :: rest))
    (henter : w.enter t task = some slot) :
    Inv { w.setTask t { task with stage := .steps rest } with
      slot := slot
      entered := t :: w.entered } := by
  have hworks : task.stage.works := hs ▸ rfl
  have hrest := hs ▸ (h.tasks t task ht).rest
  obtain ⟨hib, hslot, htoken, hobeys, -⟩ := h.slot_of_alive ht (Stage.alive_of_works hworks)
  -- its own slot lets it in
  rw [World.enter, hslot] at henter
  simp only [if_pos htoken, enterHead] at henter
  split_ifs at henter with hasked
  · cases henter
  obtain rfl : some { hib with phase := .head } = slot := Option.some.inj henter
  refine h.of_work ht hworks rfl (fun b hne => mem_cons.trans (or_iff_right hne)) (fun _ _ => Iff.rfl)
    (fun x hx => mem_cons_of_mem _ (h.heads x hx)) rfl rfl ⟨{ hib with phase := .head }, rfl, htoken, hobeys,
      fun _ => le_rfl⟩
    ⟨fun _ => ?_, fun hnot => absurd mem_cons_self hnot⟩ (fun _ hob => ?_)
    fun hmem => absurd hmem (h.not_abandoned_of_works ht hworks)
  · by_cases hmem : t ∈ w.entered
    · exact (Bool.and_eq_true_iff.1 (hrest.1 hmem)).2
    · rcases (hrest.2 hmem).cons with ⟨hearly, -⟩ | ⟨-, hlate⟩
      · cases hearly
      · exact hlate
  · by_contra hne
    exact hasked ⟨hobeys.1 hob, Bool.eq_true_of_not_eq_false hne⟩

theorem abandons (hworks : task.stage.works) (hasked : w.isAsked t task) :
    Inv { w.setTask t { task with stage := .ending .aborted true } with abandoned := t :: w.abandoned } := by
  have hok := h.tasks t task ht
  have hslot := h.slot_of_alive ht (Stage.alive_of_works hworks)
  rw [World.isAsked, Bool.and_eq_true] at hasked
  refine h.of_work ht hworks rfl (fun _ _ => Iff.rfl) (fun b hne => mem_cons.trans (or_iff_right hne)) h.heads rfl rfl
    hslot trivial hok.unasked fun _ => ⟨rfl, fun hmem => ?_⟩
  have hfalse := hok.unasked hmem hasked.1
  simp [hasked.2] at hfalse

theorem works (hw : Worked w t task w') : Inv w' := by
  cases hw with
  | goes hgo hheads => exact h.goes ht hgo hheads
  | decides hs => exact h.decides ht hs
  | phases hs => exact h.phases ht hs
  | enters hs henter => exact h.enters ht hs henter
  | abandons hs hasked => exact h.abandons ht hs hasked

theorem locked (hs : task.stage = .waiting) (hfree : w.lock = none) :
    Inv { w.setTask t { task with stage := .locked } with lock := some (.task t) } := by
  have hok := h.tasks t task ht
  have halive : task.stage.alive := hs ▸ rfl
  refine h.of_task rfl (fun _ _ => Iff.rfl) (fun _ _ => Iff.rfl) (h.lt_fresh ht) (fun b hne => ?_) (fun r => ?_) h.heads
    (fun _ _ hex => hex) (fun hib hslot => ?_)
    ⟨fun _ => hok.slot halive, iff_of_true rfl rfl, (hs ▸ hok.rest : Stage.waiting.RestOk _), hok.unasked, fun hmem => ?_⟩
  · rw [hfree]
    simp [Ne.symm hne]
  · rw [hfree]
    simp
  · obtain ⟨⟨task', ht', halive', hobeys⟩, hphase⟩ := h.slot hib hslot
    obtain rfl : hib.token = t := h.alive_unique ht halive ht' halive'
    cases ht.symm.trans ht'
    exact ⟨⟨_, update_self .., rfl, hobeys⟩, hphase⟩
  · cases (hs ▸ (hok.abandoned hmem).1 : Stage.waiting.over = true)

variable {answer : Answer}

theorem endsSlot {abandoned : Bool} (hs : task.stage = .ending answer abandoned) :
    Inv { w.setTask t { task with stage := .unlocking answer } with
      slot := (endSlot w.slot w.abandonedIds t abandoned).1
      abandonedIds := (endSlot w.slot w.abandonedIds t abandoned).2 } := by
  have hok := h.tasks t task ht
  have hheld : w.lock = some (.task t) := hok.lock.1 (hs ▸ rfl)
  obtain ⟨hib, hslot, htoken, -, -⟩ := h.slot_of_alive ht (hs ▸ rfl)
  have hgone : (endSlot w.slot w.abandonedIds t abandoned).1 = none := by
    rw [hslot, endSlot]
    simp only [htoken, ne_eq, not_true_eq_false, if_false]
  refine h.of_task rfl (fun _ _ => Iff.rfl) (fun _ _ => Iff.rfl) (h.lt_fresh ht) (fun _ _ => Iff.rfl)
    (fun _ => Iff.rfl) h.heads ?_ ?_
    ⟨nofun, iff_of_true rfl hheld, trivial, hok.unasked, fun hmem => ⟨rfl, (hok.abandoned hmem).2⟩⟩
  · rintro b hne ⟨hib', hslot', rfl⟩
    cases hslot.symm.trans hslot'
    exact absurd htoken hne
  · intro hib' hslot'
    cases hgone.symm.trans hslot'

theorem unlocks (hs : task.stage = .unlocking answer) :
    Inv { w.setTask t { task with stage := .ended answer } with lock := none } := by
  have hok := h.tasks t task ht
  have hheld : w.lock = some (.task t) := hok.lock.1 (hs ▸ rfl)
  refine h.of_task rfl (fun _ _ => Iff.rfl) (fun _ _ => Iff.rfl) (h.lt_fresh ht) (fun b hne => ?_) (fun r => ?_) h.heads
    (fun _ _ hex => hex) (fun hib hslot => ?_)
    ⟨nofun, iff_of_false nofun nofun, trivial, hok.unasked, fun hmem => ⟨rfl, (hok.abandoned hmem).2⟩⟩
  · rw [hheld]
    simp [Ne.symm hne]
  · rw [hheld]
    simp
  · obtain ⟨⟨task', ht', halive', hobeys⟩, hphase⟩ := h.slot hib hslot
    have hne : hib.token ≠ t := by
      rintro rfl
      cases ht.symm.trans ht'
      rw [hs] at halive'
      cases halive'
    exact ⟨⟨task', (update_of_ne hne _ _).trans ht', halive', hobeys⟩, hphase⟩

end Inv

variable {c r : ℕ} {resumes : ℕ → Option Resume}

namespace Inv
variable (h : Inv w)
include h

theorem of_idle {asked : ℕ → Bool} {lock : Option Holder} {calls : ℕ → Option Call}
    (hw : w' = { w with slot := slot, asked := asked, lock := lock, resumes := resumes, calls := calls })
    (hasked : ∀ t, asked t = w.asked t ∨ t ∉ w.entered ∧ t < w.fresh)
    (hlock : ∀ t, lock = some (.task t) ↔ w.lock = some (.task t))
    (hresumes : ∀ r, lock = some (.resume r) ↔ resumes r = some (.polled true) ∨ ∃ met, resumes r = some (.holding met))
    (hcalls : ∀ c t, calls c = some (.joined t) → (w.tasks t).isSome)
    (hback : ∀ hib', slot = some hib' →
      ∃ hib, w.slot = some hib ∧ hib'.token = hib.token ∧ hib'.memory = hib.memory ∧ hib'.phase = hib.phase)
    (hslot : ∀ hib, w.slot = some hib → ∃ hib', slot = some hib' ∧ hib'.token = hib.token) : Inv w' := by
  subst hw
  refine { h with
    fresh := fun t ht => ?_
    tasks := fun t task ht => ?_
    slot := fun hib' hs' => ?_
    lock := fun t hl => h.lock t ((hlock t).1 hl)
    resumes := hresumes
    calls := hcalls }
  · obtain ⟨hnone, hflag, hent, haban⟩ := h.fresh t ht
    refine ⟨hnone, ?_, hent, haban⟩
    rcases hasked t with heq | ⟨-, hlt⟩
    · exact heq.trans hflag
    · exact absurd hlt (not_lt.2 ht)
  · obtain ⟨hslot', hlock', hrest', hunasked', habandoned'⟩ := h.tasks t task ht
    refine ⟨fun ha => ?_, hlock'.trans (hlock t).symm, hrest', fun hmem hob => ?_, habandoned'⟩
    · obtain ⟨hib, hs, rfl⟩ := hslot' ha
      exact hslot hib hs
    · rcases hasked t with heq | ⟨hnot, -⟩
      · exact heq.trans (hunasked' hmem hob)
      · exact absurd hmem hnot
  · obtain ⟨hib, hs, htoken, hmemory, hphase⟩ := hback hib' hs'
    obtain ⟨htask, hph⟩ := h.slot hib hs
    rw [← htoken, ← hmemory] at htask
    rw [← htoken, ← hphase] at hph
    exact ⟨htask, hph⟩

theorem joined {hib hib' : Hibernation} (hslot : w.slot = some hib) (htoken : hib'.token = hib.token)
    (hphase : hib'.phase = hib.phase) (hmemory : hib'.memory = hib.memory) :
    Inv { w with
      slot := some hib'
      calls := update w.calls c (some (.joined hib'.token)) } := by
  refine h.of_idle rfl (fun _ => .inl rfl) (fun _ => Iff.rfl) h.resumes (fun c' t hc => ?_) (fun x hx => ?_)
    fun x hx => ?_
  · rcases update_cases hc with ⟨-, ⟨⟩⟩ | ⟨-, hc⟩
    · obtain ⟨task, ht, -⟩ := (h.slot hib hslot).task
      rw [htoken, ht]
      rfl
    · exact h.calls c' t hc
  · cases hx
    exact ⟨hib, hslot, htoken, hmemory, hphase⟩
  · cases hslot.symm.trans hx
    exact ⟨hib', rfl, htoken⟩

theorem refused : Inv { w with calls := update w.calls c (some .refused) } := by
  refine h.of_idle rfl (fun _ => .inl rfl) (fun _ => Iff.rfl) h.resumes (fun c' t hc => ?_)
    (fun x hx => ⟨x, hx, rfl, rfl, rfl⟩) fun x hx => ⟨x, hx, rfl⟩
  rcases update_cases hc with ⟨-, ⟨⟩⟩ | ⟨-, hc⟩
  exact h.calls c' t hc

theorem of_resume {lock : Option Holder}
    (hlock : ∀ t, lock = some (.task t) ↔ w.lock = some (.task t))
    (hresumes : ∀ r, lock = some (.resume r) ↔ resumes r = some (.polled true) ∨ ∃ met, resumes r = some (.holding met)) :
    Inv { w with
      resumes := resumes
      lock := lock } :=
  h.of_idle rfl (fun _ => .inl rfl) hlock hresumes h.calls (fun x hx => ⟨x, hx, rfl, rfl, rfl⟩) fun x hx => ⟨x, hx, rfl⟩

theorem no_resume (hl : ∀ r, w.lock ≠ some (.resume r)) (r : ℕ) :
    ¬ (w.resumes r = some (.polled true) ∨ ∃ met, w.resumes r = some (.holding met)) :=
  fun hr => hl r ((h.resumes r).2 hr)

theorem takes (hfree : w.lock = none) {stage : Resume} (hstage : stage = .polled true ∨ ∃ met, stage = .holding met) :
    Inv { w with
      resumes := update w.resumes r (some stage)
      lock := some (.resume r) } := by
  refine h.of_resume (fun t => ?_) fun r' => ?_
  · rw [hfree]
    simp
  · rw [update_apply]
    split_ifs with heq
    · subst heq
      simpa using hstage
    · refine iff_of_false (fun hl => heq ?_) (h.no_resume (fun r => by rw [hfree]; nofun) r')
      cases hl
      rfl

theorem lets_go (hheld : ∀ t, w.lock ≠ some (.task t))
    (hresumes : ∀ r, ¬ (resumes r = some (.polled true) ∨ ∃ met, resumes r = some (.holding met))) :
    Inv { w with
      resumes := resumes
      lock := none } :=
  h.of_resume (fun t => iff_of_false nofun (hheld t)) fun r => iff_of_false nofun (hresumes r)

end Inv

theorem askedAfter_eq (w : World) (t : ℕ) :
    w.askedAfter t = w.asked t ∨ ∃ hib, w.slot = some hib ∧ hib.token = t ∧ hib.abandonable := by
  unfold World.askedAfter
  cases hslot : w.slot with
  | none => exact .inl rfl
  | some hib =>
    dsimp only
    split_ifs with hab
    · rw [update_apply]
      split_ifs with heq
      · exact .inr ⟨hib, rfl, heq.symm, hab⟩
      · exact .inl rfl
    · exact .inl rfl

theorem Inv.not_abandonable (h : Inv w) {hib : Hibernation} (hslot : w.slot = some hib) (hmem : hib.token ∈ w.entered) :
    hib.abandonable = false := by
  have hphase := (h.slot hib hslot).phase hmem
  simp only [Hibernation.abandonable, decide_eq_false (not_lt.2 hphase), Bool.and_false]

theorem Inv.asked (h : Inv w) {gotLock : Bool} (hr : w.resumes r = some (.polled gotLock)) : Inv (w.askStep r gotLock) := by
  refine h.of_idle rfl (fun t => ?_) (fun _ => Iff.rfl) (fun r' => ?_) h.calls
    (fun x hx => ⟨x, hx, rfl, rfl, rfl⟩) fun x hx => ⟨x, hx, rfl⟩
  · rcases askedAfter_eq w t with heq | ⟨hib, hslot, rfl, hab⟩
    · exact .inl heq
    · obtain ⟨task, ht, -⟩ := (h.slot hib hslot).task
      refine .inr ⟨fun hmem => ?_, h.lt_fresh ht⟩
      simp [h.not_abandonable hslot hmem] at hab
  · rw [h.resumes r', update_apply]
    by_cases heq : r' = r
    · subst heq
      rw [if_pos rfl, hr]
      cases gotLock <;> simp
    · rw [if_neg heq]

theorem Inv.started (h : Inv w) {id : String} {noAbandon : Bool} (hslot : w.slot = none) : Inv (w.start c id noAbandon) := by
  obtain ⟨hnone, hflag, hent, haban⟩ := h.fresh w.fresh le_rfl
  obtain ⟨htoken, -, hmemory⟩ := addRequest_same ⟨w.fresh, noAbandon, [], .waiting, none⟩ id
  refine ⟨?_, ?_, ?_, ?_, ?_, h.resumes, h.heads, ?_⟩
  · intro t ht
    have hlt : t < w.fresh + 1 := ht
    rw [World.start_tasks, update_apply]
    split_ifs with heq
    · rfl
    · exact h.made t (by omega)
  · intro t ht
    have hlt : w.fresh + 1 ≤ t := ht
    obtain ⟨hnone', hflag', hent', haban'⟩ := h.fresh t (by omega)
    exact ⟨(update_of_ne (by omega) _ _).trans hnone', hflag', hent', haban'⟩
  · intro t task ht
    rcases update_cases ht with ⟨rfl, ⟨⟩⟩ | ⟨heq, ht⟩
    · refine ⟨fun _ => ⟨_, rfl, htoken⟩, iff_of_false nofun fun hl => ?_, hent, fun hmem => absurd hmem hent,
        fun hmem => absurd hmem haban⟩
      have hsome := h.lock _ hl
      simp [hnone] at hsome
    · obtain ⟨hslot', hlock', hrest', hunasked', habandoned'⟩ := h.tasks t task ht
      refine ⟨fun ha => ?_, hlock', hrest', hunasked', habandoned'⟩
      obtain ⟨hib, hs, -⟩ := hslot' ha
      cases hslot.symm.trans hs
  · intro hib hs
    cases hs
    refine ⟨⟨⟨false, .waiting⟩, ?_, rfl, ?_⟩, fun hmem => ?_⟩
    · rw [World.start_tasks, Hibernation.new, htoken, update_self]
    · rw [Hibernation.new, hmemory]
      simp
    · rw [Hibernation.new, htoken] at hmem
      exact absurd hmem hent
  · intro t hl
    rw [World.start_tasks, update_apply]
    split_ifs
    · rfl
    · exact h.lock t hl
  · intro c' t hc
    rw [World.start_calls, update_apply] at hc
    rw [World.start_tasks, update_apply]
    by_cases htt : t = w.fresh
    · rw [if_pos htt]
      rfl
    · rw [if_neg htt]
      split_ifs at hc
      · cases hc
        exact absurd rfl htt
      · exact h.calls c' t hc

theorem Inv.step {e : Event} (h : Inv w) (hstep : w.step e = some w') : Inv w' := by
  cases step_moved hstep with
  | refused => exact h.refused
  | joined hid hslot htoken hphase hmemory => exact h.joined hslot htoken hphase hmemory
  | started hid hslot => exact h.started hslot
  | locked ht hs hfree => exact h.locked ht hs hfree
  | works he ht hw => exact h.works ht hw
  | endsSlot ht hs => exact h.endsSlot ht hs
  | unlocks ht hs => exact h.unlocks ht hs
  | polledFree hr hfree => exact h.takes hfree (.inl rfl)
  | @polledQueued r hr hheld =>
    refine h.of_resume (fun _ => Iff.rfl) fun r' => ?_
    rw [h.resumes r', update_apply]
    split_ifs with heq
    · subst heq
      rw [hr]
      simp
    · rfl
  | asked hr => exact h.asked hr
  | @acquired r met hr hfree => exact h.takes hfree (.inr ⟨met, rfl⟩)
  | @released r met hr =>
    have hheld : w.lock = some (.resume r) := (h.resumes r).2 (.inr ⟨met, hr⟩)
    refine h.lets_go (fun t => by rw [hheld]; nofun) fun r' => ?_
    rw [update_apply]
    split_ifs with heq
    · simp
    · intro hr'
      cases hheld.symm.trans ((h.resumes r').2 hr')
      exact heq rfl
  | otherLocks hfree =>
    refine h.of_resume (fun t => ?_) fun r => iff_of_false nofun (h.no_resume (fun r => by rw [hfree]; nofun) r)
    rw [hfree]
    simp
  | otherUnlocks hheld => exact h.lets_go (fun t => by rw [hheld]; nofun) (h.no_resume fun r => by rw [hheld]; nofun)

theorem inv_of_reach {ok : World → Event → Prop} (h : Reach World.step ok World.empty w) : Inv w :=
  h.invariant inv_empty fun _ _ _ hi _ hs => hi.step hs

end Keep

end FeOS.Pods
