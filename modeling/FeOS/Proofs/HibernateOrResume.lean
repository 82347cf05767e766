import FeOS.Sanity.HibernationInv

/-! Hibernation and resume never both win: one hibernation at a time, whose answer is every joiner's;
no head of one that was abandoned; no resume before the end of one that entered its head. -/

namespace FeOS.Pods

open Runs Function

variable {w w' : World} {e : Event}

structure Exclusive (w : World) : Prop where
  /-- at most one hibernation runs -/
  one : ∀ t task t' task', w.tasks t = some task → task.stage.alive → w.tasks t' = some task' → task'.stage.alive → t = t'
  /-- a HibernatePod that started or joined a hibernation has its task's answer -/
  calls : ∀ c t, w.calls c = some (.joined t) → (w.tasks t).isSome
  /-- one that was abandoned never enters its head, and puts none -/
  abandoned : ∀ t ∈ w.abandoned, t ∉ w.entered ∧ t ∉ w.heads
  /-- nor does one that a resume asked to stop, once the pod's memory goes with it -/
  asked : ∀ t task, w.tasks t = some task → w.isAsked t task → t ∉ w.entered ∧ t ∉ w.heads
  heads : ∀ t ∈ w.heads, t ∈ w.entered
  /-- from its head on, a resume waits -/
  waits : ∀ h, w.slot = some h → h.token ∈ w.entered → ∃ phase why, requestAbandon h = .waits phase why
  /-- until the task has ended -/
  resumes : ∀ t task r, w.tasks t = some task → t ∈ w.entered → (∀ answer, task.stage ≠ .ended answer) →
    w.lock = some (.task t) ∧ w.resumes r ≠ some (.polled true) ∧ ∀ met, w.resumes r ≠ some (.holding met)
  /-- the slot is ended before the pod's lock is let go -/
  slot : ∀ h, w.slot = some h → ∃ task, w.tasks h.token = some task ∧ (task.stage = .waiting ∨ w.lock = some (.task h.token))

theorem Inv.exclusive (h : Inv w) : Exclusive w where
  one := fun t task t' task' ht ha ht' ha' => h.alive_unique ht' ha' ht ha
  calls := h.calls
  abandoned := by
    intro t hmem
    have hlt : t < w.fresh := by
      by_contra hle
      exact (h.fresh t (not_lt.1 hle)).2.2.2 hmem
    obtain ⟨task, ht⟩ := Option.isSome_iff_exists.1 (h.made t hlt)
    have hnot : t ∉ w.entered := ((h.tasks t task ht).abandoned hmem).2
    exact ⟨hnot, fun hh => hnot (h.heads t hh)⟩
  asked := by
    intro t task ht hasked
    rw [World.isAsked, Bool.and_eq_true] at hasked
    have hnot : t ∉ w.entered := by
      intro hmem
      have hfalse := (h.tasks t task ht).unasked hmem hasked.1
      rw [hasked.2] at hfalse
      cases hfalse
    exact ⟨hnot, fun hh => hnot (h.heads t hh)⟩
  heads := h.heads
  waits := by
    intro hib hslot hmem
    rw [requestAbandon, h.not_abandonable hslot hmem]
    exact ⟨_, _, rfl⟩
  resumes := by
    intro t task r ht hmem hended
    have hok := h.tasks t task ht
    have hholds : task.stage.holds := by
      have hrest := hok.rest
      cases hs : task.stage with
      | waiting =>
        rw [hs] at hrest
        exact absurd hmem hrest
      | ended answer => exact absurd hs (hended answer)
      | _ => rfl
    have hlock := hok.lock.1 hholds
    have hnone := h.no_resume (fun r => by simp [hlock]) r
    exact ⟨hlock, fun hr => hnone (.inl hr), fun met hr => hnone (.inr ⟨met, hr⟩)⟩
  slot := by
    intro hib hslot
    obtain ⟨task, ht, halive, -⟩ := (h.slot hib hslot).task
    refine ⟨task, ht, ?_⟩
    have hlock := (h.tasks hib.token task ht).lock
    cases hs : task.stage with
    | waiting => exact .inl rfl
    | ended answer =>
      rw [hs] at halive
      cases halive
    | _ => exact .inr (hlock.1 (by rw [hs]; rfl))

/-! Steps -/

def Stage.left : Stage → ℕ × ℕ
  | .waiting => (5, 0)
  | .locked => (4, 0)
  | .steps rest => (3, rest.length)
  | .failing rest => (2, rest.length)
  | .ending _ _ => (1, 0)
  | .unlocking _ => (0, 1)
  | .ended _ => (0, 0)

def Stage.Closer (s' s : Stage) : Prop := Prod.Lex (· < ·) (· < ·) s'.left s.left

theorem closer_ending {s : Stage} (h : s.works) (answer : Answer) (abandoned : Bool) :
    (Stage.ending answer abandoned).Closer s := by
  refine Prod.Lex.left _ _ ?_
  cases s with
  | locked => exact show 1 < 4 by decide
  | steps rest => exact show 1 < 3 by decide
  | failing rest => exact show 1 < 2 by decide
  | waiting | ending | unlocking | ended => cases h

theorem Goes.closer {s s' : Stage} (h : Goes s s') : s'.Closer s := by
  cases h with
  | read | slips => exact Prod.Lex.left _ _ (by decide)
  | next | cleans => exact Prod.Lex.right _ (by simp)
  | ends hs => exact closer_ending hs _ false

structure ExclusiveStep (w : World) (e : Event) (w' : World) : Prop where
  /-- a resume never sets the flag of a hibernation that entered its head -/
  asked : ∀ t ∈ w.entered, w'.asked t = w.asked t
  /-- a HibernatePod with an id of an abandoned hibernation starts nothing -/
  refused : ∀ c id noAbandon, e = .hibernatePod c id noAbandon → id ≠ "" → id ∈ w.abandonedIds →
    w'.calls c = some .refused ∧ w'.tasks = w.tasks ∧ w'.slot = w.slot
  /-- a call keeps its hibernation, and an ended task its answer -/
  calls : ∀ c call, w.calls c = some call → (∀ id noAbandon, e ≠ .hibernatePod c id noAbandon) → w'.calls c = some call
  answers : ∀ t task answer, w.tasks t = some task → task.stage = .ended answer → w'.tasks t = some task
  /-- a task's own steps bring it closer to its answer, and no other step moves it -/
  own : ∀ t task, w.tasks t = some task → e.task = some t → ∃ task', w'.tasks t = some task' ∧ task'.stage.Closer task.stage
  others : ∀ t task, w.tasks t = some task → e.task ≠ some t → w'.tasks t = some task

theorem Inv.asked_of_step (h : Inv w) (hstep : w.step e = some w') {t : ℕ} (hmem : t ∈ w.entered) :
    w'.asked t = w.asked t := by
  cases step_moved hstep with
  | @asked r gotLock hr =>
    rcases askedAfter_eq w t with heq | ⟨hib, hslot, rfl, hab⟩
    · exact heq
    · rw [h.not_abandonable hslot hmem] at hab
      cases hab
  | works he ht hw => cases hw <;> rfl
  | _ => rfl

theorem Inv.task_of_step (h : Inv w) (hstep : w.step e = some w') {t : ℕ} {task : Task} (ht : w.tasks t = some task) :
    (e.task ≠ some t ∧ w'.tasks t = some task) ∨
      e.task = some t ∧ ∃ task', w'.tasks t = some task' ∧ task'.stage.Closer task.stage := by
  -- the step of task `b` leaves it at `task'`
  have hupdate : ∀ b taskb task', w.tasks b = some taskb → e.task = some b → w'.tasks = update w.tasks b (some task') →
      task'.stage.Closer taskb.stage → (e.task ≠ some t ∧ w'.tasks t = some task) ∨
        e.task = some t ∧ ∃ task', w'.tasks t = some task' ∧ task'.stage.Closer task.stage := by
    intro b taskb task' hb he heq hcloser
    rw [heq]
    by_cases htb : t = b
    · subst htb
      cases ht.symm.trans hb
      exact .inr ⟨he, task', update_self _ _ _, hcloser⟩
    · refine .inl ⟨fun het => htb ?_, (update_of_ne htb _ _).trans ht⟩
      exact Option.some.inj (het.symm.trans he)
  cases step_moved hstep with
  | refused | joined | polledFree | polledQueued | asked | acquired | released | otherLocks | otherUnlocks =>
      exact .inl ⟨nofun, ht⟩
  | started => exact .inl ⟨nofun, (update_of_ne (h.lt_fresh ht).ne _ _).trans ht⟩
  | @locked b taskb hb hs hfree =>
    exact hupdate b taskb _ hb rfl rfl (Prod.Lex.left _ _ (by rw [hs]; decide))
  | @works e b taskb _ he hb hw =>
    cases hw with
    | goes hgo hheads => exact hupdate b taskb _ hb he rfl hgo.closer
    | @decides m rest hs => exact hupdate b taskb ⟨m, .steps rest⟩ hb he rfl (hs ▸ Goes.closer (.next nofun))
    | phases hs => exact hupdate b taskb _ hb he rfl (hs ▸ Goes.closer (.next nofun))
    | enters hs henter => exact hupdate b taskb _ hb he rfl (hs ▸ Prod.Lex.right _ (by simp))
    | abandons hs hasked => exact hupdate b taskb _ hb he rfl (closer_ending hs _ _)
  | @endsSlot b taskb answer abandoned hb hs =>
    refine hupdate b taskb _ hb rfl rfl ?_
    rw [hs]
    exact Prod.Lex.left _ _ (show 0 < 1 by decide)
  | @unlocks b taskb answer hb hs =>
    refine hupdate b taskb _ hb rfl rfl ?_
    rw [hs]
    exact Prod.Lex.right _ (by decide)

theorem not_closer_ended {s : Stage} {answer : Answer} (h : s.Closer (.ended answer)) : False := by
  rcases Prod.lex_def.1 h with hlt | ⟨-, hlt⟩ <;> exact absurd hlt (Nat.not_lt_zero _)

theorem Inv.exclusiveStep (h : Inv w) (hstep : w.step e = some w') : ExclusiveStep w e w' where
  asked := fun t hmem => h.asked_of_step hstep hmem
  refused := by
    rintro c id noAbandon rfl hne hmem
    cases step_moved hstep with
    | refused => exact ⟨update_self _ _ _, rfl, rfl⟩
    | joined hid => exact absurd ⟨hne, hmem⟩ hid
    | started hid => exact absurd ⟨hne, hmem⟩ hid
    | works he => cases he
  calls := by
    intro c call hc hne
    cases step_moved hstep with
    | @refused c' id noAbandon | @joined c' id noAbandon | @started c' id noAbandon =>
      refine (update_of_ne (fun heq => ?_) _ _).trans hc
      exact hne id noAbandon (heq ▸ rfl)
    | works he ht hw => cases hw <;> exact hc
    | _ => exact hc
  answers := by
    intro t task answer ht hs
    rcases h.task_of_step hstep ht with ⟨-, hsame⟩ | ⟨-, task', -, hcloser⟩
    · exact hsame
    · rw [hs] at hcloser
      exact (not_closer_ended hcloser).elim
  own := by
    intro t task ht he
    rcases h.task_of_step hstep ht with ⟨hne, -⟩ | ⟨-, hex⟩
    · exact absurd he hne
    · exact hex
  others := by
    intro t task ht hne
    rcases h.task_of_step hstep ht with ⟨-, hsame⟩ | ⟨he, -⟩
    · exact hsame
    · exact absurd he hne

theorem task_can_step {t : ℕ} {task : Task} (ht : w.tasks t = some task) (hnot : ∀ answer, task.stage ≠ .ended answer)
    (hlock : task.stage = .waiting → w.lock = none) : ∃ e : Event, e.task = some t ∧ (w.step e).isSome := by
  cases hs : task.stage with
  | waiting => exact ⟨.takeLock t, rfl, by simp [World.step, ht, hs, hlock hs]⟩
  | locked => exact ⟨.read t .hibernated false [], rfl, by simp [World.step, ht, hs]⟩
  | steps rest =>
    refine ⟨.run t .ok, rfl, ?_⟩
    cases rest <;> simp [World.step, World.run, World.runStep, ht, hs]
  | failing rest =>
    refine ⟨.run t .ok, rfl, ?_⟩
    cases rest <;> simp [World.step, World.run, ht, hs]
  | ending answer abandoned => exact ⟨.endSlot t, rfl, by simp [World.step, ht, hs]⟩
  | unlocking answer => exact ⟨.unlock t, rfl, by simp [World.step, ht, hs]⟩
  | ended answer => exact absurd hs (hnot answer)

/-- In every state of every run, and of every step from it. -/
theorem hibernation_excludes_resume (h : Reach World.step (fun _ _ => True) World.empty w) :
    Exclusive w ∧ (∀ e w', w.step e = some w' → ExclusiveStep w e w') ∧
      ∀ t task, w.tasks t = some task → (∀ answer, task.stage ≠ .ended answer) → (task.stage = .waiting → w.lock = none) →
        ∃ e : Event, e.task = some t ∧ (w.step e).isSome := by
  have hinv := inv_of_reach h
  exact ⟨hinv.exclusive, fun e w' hstep => hinv.exclusiveStep hstep, fun t task ht hnot hlock => task_can_step ht hnot hlock⟩

/-- A resume of a running pod comes while its hibernation is being suspended. -/
theorem hibernation_excludes_resume_abandoned : ∃ w, Reach World.step (fun _ _ => True) World.empty w ∧
    0 ∈ w.abandoned ∧ w.abandonedIds = ["id"] ∧ 0 ∉ w.heads := by
  obtain ⟨w, hreach, hmem, hids⟩ : ∃ w, Reach World.step (fun _ _ => True) World.empty w ∧ 0 ∈ w.abandoned ∧
      w.abandonedIds = ["id"] :=
    exists_follow ([.hibernatePod 0 "id" false, .takeLock 0, .read 0 .running false []] ++ List.replicate 5 (.run 0 .ok) ++
        [.poll 0, .ask 0] ++ List.replicate 6 (.run 0 .ok) ++ [.endSlot 0]) (by decide +kernel)
  exact ⟨w, hreach, hmem, hids, ((hibernation_excludes_resume hreach).1.abandoned 0 hmem).2⟩

/-- A resume abandons a hibernation that has not decided yet; the pod is a stopped one, so the
hibernation goes on and puts its head. -/
theorem asked_before_decided_enters : ∃ w, Reach World.step (fun _ _ => True) World.empty w ∧
    w.resumes 0 = some (.waiting (some (.abandons .waiting))) ∧ w.asked 0 = true ∧ 0 ∈ w.entered ∧ 0 ∈ w.heads :=
  exists_follow ([.hibernatePod 0 "" false, .takeLock 0, .poll 0, .ask 0, .read 0 .stopped false []] ++
    List.replicate 17 (.run 0 .ok)) (by decide +kernel)

end FeOS.Pods
