import FeOS.Spec.JobRuns

/-! What the transactions on the runs of an environment's jobs know by the locks they hold, and that the
others leave it true. -/

namespace FeOS.Jobs

open RowLocks List Function

variable {specs : ℕ → Spec} {w w' : World} {p : ℕ} {held held' : List (Lock ℕ Row)} {runs runs' : List Run}

/-! Reads -/

theorem noRunOf_iff {job : String} : noRunOf runs job = true ↔ ∀ r ∈ runs, r.job = job → r.phase ≠ .running := by
  simp [noRunOf, imp_iff_not_or]

theorem jobSucceeded_eq_false {job hash : String} : jobSucceeded runs job hash = false ↔
    ∀ r ∈ runs, r.job = job → r.templateHash = hash → r.phase ≠ .succeeded := by
  simp [jobSucceeded]

variable {r after : Run} {new : NewRun} {e : Event}

theorem Ending.run_mem {e : Ending} (h : e.run runs = some r) : r ∈ runs := by
  cases e with
  | finishJob sandbox code detail => exact mem_reverse.1 (mem_of_find?_eq_some h)
  | failOrphanRun id => exact mem_of_find?_eq_some h

theorem ended_phase_ne (r : Run) (succeeded : Bool) (code : Option ℤ) (detail : String) :
    (r.ended succeeded code detail).phase ≠ .running := by
  cases succeeded <;> simp [Run.ended]

/-! The change of one run -/

/-- The run `r` is written as `after`, which keeps what it was inserted with and does not run. -/
structure Rewrites (r after : Run) : Prop where
  ran : r.phase = .running
  new : after.toNewRun = r.toNewRun
  id : after.id = r.id
  said : after.byHand = r.byHand ∧ after.again = r.again
  stopped : after.phase ≠ .running

theorem rewrites_ended (h : r.phase = .running) (succeeded : Bool) (code : Option ℤ) (detail : String) :
    Rewrites r (r.ended succeeded code detail) :=
  ⟨h, rfl, rfl, ⟨rfl, rfl⟩, ended_phase_ne _ _ _ _⟩

theorem writeEnd_cases (w : World) (cur : Option Run) (e : Ending) :
    ((w.writeEnd cur e).runs = w.runs ∨
      ∃ r after, cur = some r ∧ Rewrites r after ∧ (w.writeEnd cur e).runs = updateJobRun w.runs after ∧
        (after.phase = .succeeded → ∃ sandbox code detail, e = .finishJob sandbox code detail ∧
          (outcome code detail).1 = true)) ∧
      (w.writeEnd cur e).nextRun = w.nextRun ∧ (w.writeEnd cur e).procs = w.procs ∧ (w.writeEnd cur e).held = w.held ∧
      (w.writeEnd cur e).epoch = w.epoch ∧ (w.writeEnd cur e).stepping = w.stepping := by
  cases cur with
  | none => cases e <;> exact ⟨.inl rfl, rfl, rfl, rfl, rfl, rfl⟩
  | some r =>
    cases e with
    | finishJob sandbox code detail =>
      simp only [World.writeEnd, World.endRun]
      split_ifs with hrun
      · refine ⟨.inr ⟨r, _, rfl, rewrites_ended hrun .., rfl, fun hs => ⟨sandbox, code, detail, rfl, ?_⟩⟩, rfl,
          rfl, rfl, rfl, rfl⟩
        by_contra hn
        simp [Run.ended, hn] at hs
      · exact ⟨.inl rfl, rfl, rfl, rfl, rfl, rfl⟩
    | failOrphanRun id =>
      simp only [World.writeEnd, World.endRun]
      split_ifs with hrow hrun
      · exact ⟨.inl rfl, rfl, rfl, rfl, rfl, rfl⟩
      · refine ⟨.inr ⟨r, _, rfl, rewrites_ended hrun .., rfl, fun hs => ?_⟩, rfl, rfl, rfl, rfl, rfl⟩
        simp [Run.ended] at hs
      · exact ⟨.inl rfl, rfl, rfl, rfl, rfl, rfl⟩

theorem mem_updateJobRun {x : Run} : x ∈ updateJobRun runs after ↔
    (x ∈ runs ∧ x.id ≠ after.id) ∨ (x = after ∧ ∃ r ∈ runs, r.id = after.id) := by
  unfold updateJobRun
  rw [mem_map]
  constructor
  · rintro ⟨r, hr, rfl⟩
    split_ifs with hid
    · exact .inr ⟨rfl, r, hr, hid⟩
    · exact .inl ⟨hr, hid⟩
  · rintro (⟨hx, hid⟩ | ⟨rfl, r, hr, hid⟩)
    · exact ⟨x, hx, if_neg hid⟩
    · exact ⟨r, hr, if_pos hid⟩

/-! What a transaction knows -/

def KnowsInsert (held : List (Lock ℕ Row)) (runs : List Run) (p : ℕ) (new : NewRun) : InsertAt → Prop
  | .begun => True
  | .fenced => True
  | .locked => ⟨p, .environment, .update⟩ ∈ held
  | .checked => ⟨p, .environment, .update⟩ ∈ held ∧ noRunOf runs new.job = true

/-- An insert that has checked that no run of the job runs still has the environment's row, and an ending the
row of its run as it read it. -/
def Knows (held : List (Lock ℕ Row)) (runs : List Run) (p : ℕ) : Proc → Prop
  | .step _ _ _ (.start new tx) => KnowsInsert held runs p new tx
  | .call new tx => KnowsInsert held runs p new tx
  | .ending _ _ (.locked (some r)) => ⟨p, .run r.id, .update⟩ ∈ held ∧ r ∈ runs
  | _ => True

structure Left (p : ℕ) (held held' : List (Lock ℕ Row)) (runs runs' : List Run) : Prop where
  keeps : ∀ l ∈ held, l.tx = p → l ∈ held'
  none : ⟨p, .environment, .update⟩ ∈ held → ∀ job, noRunOf runs job = true → noRunOf runs' job = true
  row : ∀ r ∈ runs, ⟨p, .run r.id, .update⟩ ∈ held → r ∈ runs'

theorem Left.of_held (h : ∀ l ∈ held, l.tx = p → l ∈ held') : Left p held held' runs runs :=
  ⟨h, fun _ _ hn => hn, fun _ hr _ => hr⟩

theorem KnowsInsert.left {tx : InsertAt} (h : KnowsInsert held runs p new tx) (hl : Left p held held' runs runs') :
    KnowsInsert held' runs' p new tx := by
  cases tx with
  | begun => trivial
  | fenced => trivial
  | locked => exact hl.keeps _ h rfl
  | checked => exact ⟨hl.keeps _ h.1 rfl, hl.none h.1 _ h.2⟩

variable {q : Proc}

theorem Knows.left (h : Knows held runs p q) (hl : Left p held held' runs runs') : Knows held' runs' p q := by
  cases q with
  | idle => trivial
  | step epoch v rest pc =>
    cases pc with
    | start new tx => exact KnowsInsert.left h hl
    | _ => trivial
  | call new tx => exact KnowsInsert.left h hl
  | ending epoch e tx =>
    cases tx with
    | locked cur =>
      cases cur with
      | none => trivial
      | some r => exact ⟨hl.keeps _ h.1 rfl, hl.row r h.2 h.1⟩
    | _ => trivial

/-! The invariant -/

def OneRunning (runs : List Run) : Prop := runs.Pairwise fun a b => a.phase = .running → b.phase = .running → a.job ≠ b.job

structure Inv (w : World) : Prop where
  compatible : Compatible w.held
  ids : w.runs.Pairwise fun a b => a.id < b.id
  fresh : ∀ r ∈ w.runs, r.id < w.nextRun
  one : OneRunning w.runs
  knows : ∀ p, Knows w.held w.runs p (w.procs p)

theorem Inv.init : Inv World.init :=
  ⟨compatible_nil, .nil, by simp [World.init], .nil, fun _ => trivial⟩

theorem eq_of_id (h : runs.Pairwise fun a b => a.id < b.id) {r' : Run} (hr : r ∈ runs) (hr' : r' ∈ runs)
    (hid : r.id = r'.id) : r = r' := by
  refine inj_on_of_nodup_map (pairwise_map.2 (h.imp fun hlt => ?_)) hr hr' hid
  exact hlt.ne

/-- What a step does to the runs: they stay, or one is inserted, or one that ran is written. -/
inductive Changed (w : World) : List Run → Prop
  | same : Changed w w.runs
  | inserted (new : NewRun) (byHand : Bool) : Changed w (w.insertRun new byHand).runs
  | written {p epoch : ℕ} {what : Ending} {r after : Run} (hp : w.procs p = .ending epoch what (.locked (some r)))
      (hafter : Rewrites r after) : Changed w (updateJobRun w.runs after)

theorem Changed.of_eq (h : runs = w.runs) : Changed w runs := h ▸ .same

structure Goes (w w' : World) : Prop where
  inv : Inv w'
  changed : Changed w w'.runs

theorem Inv.of_eq (h : Inv w) (hruns : w'.runs = w.runs) (hnext : w'.nextRun = w.nextRun) (hprocs : w'.procs = w.procs)
    (hheld : w'.held = w.held) : Inv w' :=
  ⟨hheld ▸ h.compatible, hruns ▸ h.ids, hruns ▸ hnext ▸ h.fresh, hruns ▸ h.one, by rw [hheld, hruns, hprocs]; exact h.knows⟩

theorem Inv.move (h : Inv w) (hcompat : Compatible held') (hids : runs'.Pairwise fun a b => a.id < b.id)
    (hfresh : ∀ r ∈ runs', r.id < w'.nextRun) (hone : OneRunning runs') (hprocs : w'.procs = update w.procs p q)
    (hruns : w'.runs = runs') (hheld : w'.held = held') (hleft : ∀ p', p' ≠ p → Left p' w.held held' w.runs runs')
    (hq : Knows held' runs' p q) : Inv w' := by
  subst hruns hheld
  refine ⟨hcompat, hids, hfresh, hone, fun p' => ?_⟩
  rw [hprocs]
  by_cases hp : p' = p
  · subst hp
    rwa [update_self]
  · rw [update_of_ne hp]
    exact (h.knows p').left (hleft p' hp)

theorem Inv.setProc (h : Inv w) (hq : Knows w.held w.runs p q) : Goes w (w.setProc p q) :=
  ⟨h.move h.compatible h.ids h.fresh h.one rfl rfl rfl (fun _ _ => .of_held fun _ hl _ => hl) hq, .same⟩

theorem Inv.take {row : Row} {mode : Mode} (h : Inv w) (hs : (w.take p row mode).map (·.setProc p q) = some w')
    (hq : Knows (⟨p, row, mode⟩ :: w.held) w.runs p q) : Goes w w' := by
  obtain ⟨w1, htake, rfl⟩ := Option.map_eq_some_iff.1 hs
  unfold World.take at htake
  split_ifs at htake with hfree
  cases htake
  exact ⟨h.move (h.compatible.take hfree) h.ids h.fresh h.one rfl rfl rfl
    (fun _ _ => .of_held fun _ hl _ => mem_cons_of_mem _ hl) hq, .same⟩

theorem mem_release_of_ne {l : Lock ℕ Row} {p' : ℕ} (hp : p' ≠ p) (hl : l ∈ held) (htx : l.tx = p') : l ∈ release held p :=
  mem_release.2 ⟨hl, htx ▸ hp⟩

theorem Inv.rollback (h : Inv w) (hq : Knows (release w.held p) w.runs p q) : Goes w ((w.setProc p q).unlocked p) :=
  ⟨h.move (h.compatible.release p) h.ids h.fresh h.one rfl rfl rfl
    (fun _ hp => .of_held fun _ hl htx => mem_release_of_ne hp hl htx) hq, .same⟩

theorem Inv.insert {byHand : Bool} (h : Inv w) (hknows : KnowsInsert w.held w.runs p new .checked)
    (hq : Knows (release w.held p) (w.insertRun new byHand).runs p q) :
    Goes w (((w.insertRun new byHand).setProc p q).unlocked p) := by
  obtain ⟨hlock, hnone⟩ := hknows
  refine ⟨h.move (h.compatible.release p) ?_ ?_ ?_ rfl rfl rfl (fun p' hp => ⟨?_, ?_, ?_⟩) hq, .inserted new byHand⟩
  · refine pairwise_append.2 ⟨h.ids, pairwise_singleton _ _, fun a ha b hb => ?_⟩
    rw [mem_singleton.1 hb]
    exact h.fresh a ha
  · intro r hr
    rcases mem_append.1 hr with hr | hr
    · exact (h.fresh r hr).trans (Nat.lt_succ_self _)
    · rw [mem_singleton.1 hr]
      exact Nat.lt_succ_self _
  · refine pairwise_append.2 ⟨h.one, pairwise_singleton _ _, fun a ha b hb hrun _ hjob => ?_⟩
    rw [mem_singleton.1 hb] at hjob
    exact noRunOf_iff.1 hnone a ha hjob hrun
  · exact fun l hl htx => mem_release_of_ne hp hl htx
  · exact fun hlock' => absurd (h.compatible _ hlock' _ hlock rfl rfl) hp
  · exact fun r hr _ => mem_append_left _ hr

theorem Inv.rewrite (h : Inv w) (hlock : ⟨p, .run r.id, .update⟩ ∈ w.held)
    (hafter : Rewrites r after) (hnext : w'.nextRun = w.nextRun) (hprocs : w'.procs = update w.procs p q)
    (hruns : w'.runs = updateJobRun w.runs after) (hheld : w'.held = release w.held p)
    (hq : Knows (release w.held p) (updateJobRun w.runs after) p q) : Inv w' := by
  have hid : ∀ x : Run, (if x.id = after.id then after else x).id = x.id := fun x => by
    split_ifs with hx
    · exact hx.symm
    · rfl
  have hphase : ∀ x : Run, (if x.id = after.id then after else x).phase = .running → x.phase = .running ∧
      (if x.id = after.id then after else x) = x := fun x hx => by
    split_ifs at hx ⊢
    · exact absurd hx hafter.stopped
    · exact ⟨hx, rfl⟩
  refine h.move (h.compatible.release p) ?_ ?_ ?_ hprocs hruns hheld (fun p' hp => ⟨?_, ?_, ?_⟩) hq
  · refine pairwise_map.2 (h.ids.imp fun {a b} hlt => ?_)
    rwa [hid, hid]
  · intro x hx
    obtain ⟨y, hy, rfl⟩ := mem_map.1 hx
    rw [hid, hnext]
    exact h.fresh y hy
  · refine pairwise_map.2 (h.one.imp fun {a b} hne ha hb => ?_)
    rw [(hphase a ha).2, (hphase b hb).2]
    exact hne (hphase a ha).1 (hphase b hb).1
  · exact fun l hl htx => mem_release_of_ne hp hl htx
  · intro _ job hnone
    rw [noRunOf_iff] at hnone ⊢
    intro x hx hjob hrun
    rcases mem_updateJobRun.1 hx with ⟨hx, _⟩ | ⟨rfl, _⟩
    · exact hnone x hx hjob hrun
    · exact hafter.stopped hrun
  · intro x hx hlock'
    refine mem_updateJobRun.2 (.inl ⟨hx, fun heq => hp ?_⟩)
    -- two that hold one run's row are one
    rw [hafter.id] at heq
    rw [heq] at hlock'
    exact h.compatible _ hlock' _ hlock rfl rfl

/-! The steps -/

theorem Inv.commit (h : Inv w) (hs : w.commit p = some w') : Goes w w' := by
  have hp := h.knows p
  revert hs
  fun_cases World.commit w p <;> rintro ⟨⟩
  case case1 epoch v rest new heq =>
    rw [heq] at hp
    exact h.insert hp trivial
  case case2 new heq =>
    rw [heq] at hp
    exact h.insert hp trivial
  case case3 epoch e cur heq =>
    rw [heq] at hp
    obtain ⟨hruns | ⟨r, after, rfl, hafter, hruns, _⟩, hnext, hprocs, hheld, _⟩ := writeEnd_cases w cur e
    · exact ⟨h.move (h.compatible.release p) h.ids (fun r hr =>
        hnext.symm ▸ h.fresh r hr) h.one (congrArg (update · p _) hprocs) hruns
        (congrArg (release · p) hheld) (fun _ hp => .of_held fun _ hl htx =>
          mem_release_of_ne hp hl htx) trivial, .of_eq hruns⟩
    · exact ⟨h.rewrite hp.1 hafter hnext (congrArg (update · p _) hprocs) hruns (congrArg (release · p) hheld) trivial,
        hruns.symm ▸ Changed.written heq hafter⟩

theorem Inv.lock (h : Inv w) (hs : w.lock p = some w') : Goes w w' := by
  revert hs
  fun_cases World.lock w p <;> intro hs <;> try cases hs
  case case2 => exact h.take hs mem_cons_self
  case case4 => exact h.take hs mem_cons_self
  case case5 => exact h.setProc trivial
  case case6 r hr => exact h.take hs ⟨mem_cons_self, Ending.run_mem hr⟩

theorem Inv.check (h : Inv w) (hs : w.check p = some w') : Goes w w' := by
  have hp := h.knows p
  revert hs
  fun_cases World.check w p <;> rintro ⟨⟩
  case case1 heq hnone =>
    rw [heq] at hp
    exact h.setProc ⟨hp, hnone⟩
  case case3 heq hnone =>
    rw [heq] at hp
    exact h.setProc ⟨hp, hnone⟩

theorem Inv.fence (h : Inv w) (hs : w.fence p = some w') : Goes w w' := by
  revert hs
  fun_cases World.fence w p <;> intro hs <;> try cases hs
  case case1 => exact h.take hs trivial
  case case3 => exact h.take hs trivial

theorem knows_step {epoch : ℕ} {v : View} {rest : List (String × Job)} {pc : StepAt}
    (h : ∀ new tx, pc = .start new tx → tx = .begun) :
    Knows held runs p (.step epoch v rest pc) := by
  cases pc with
  | start new tx =>
    rw [h new tx rfl]
    trivial
  | _ => trivial

theorem Inv.reads (h : Inv w) (hs : w.step specs e = some w')
    (he : (∃ hash, e = .planJob p hash) ∨ e = .askSucceeded p ∨ e = .listRuns p) : Goes w w' := by
  rcases he with ⟨hash, rfl⟩ | rfl | rfl
  · simp only [World.step, World.planJob] at hs
    split at hs <;> cases hs
    refine h.setProc (knows_step fun new tx heq => ?_)
    split at heq
    · split_ifs at heq
    · cases heq
  · simp only [World.step, World.askSucceeded] at hs
    split at hs <;> cases hs
    refine h.setProc (knows_step fun new tx heq => ?_)
    split_ifs at heq
  · simp only [World.step, World.listRuns] at hs
    split at hs <;> cases hs
    refine h.setProc ?_
    split <;> trivial

theorem Inv.beginEnding {what : Ending} (h : Inv w) (hs : w.beginEnding p what = some w') : Goes w w' := by
  revert hs
  fun_cases World.beginEnding w p what <;> rintro ⟨⟩
  exact h.setProc trivial

theorem Inv.step (h : Inv w) (hs : w.step specs e = some w') : Goes w w' := by
  cases e with
  | takeOver =>
    simp only [World.step, World.takeOver] at hs
    split_ifs at hs
    cases hs
    exact ⟨h.of_eq rfl rfl rfl rfl, .same⟩
  | environment _ | deployment _ _ | deleteInstance _ =>
    cases hs
    exact ⟨h.of_eq rfl rfl rfl rfl, .same⟩
  | beginStep p =>
    simp only [World.step, World.beginStep] at hs
    split at hs <;> cases hs
    exact ⟨(h.setProc (p := p) (q := .step _ _ _ .jobs) trivial).inv.of_eq rfl rfl rfl rfl, .same⟩
  | planJob p hash => exact h.reads hs (.inl ⟨hash, rfl⟩)
  | askSucceeded p => exact h.reads hs (.inr (.inl rfl))
  | listRuns p => exact h.reads hs (.inr (.inr rfl))
  | runJob p name hash =>
    simp only [World.step, World.runJob] at hs
    split at hs <;> try cases hs
    split_ifs at hs
    cases hs
    exact h.setProc trivial
  | finishJob p sandbox code detail => exact h.beginEnding hs
  | failOrphanRun p run => exact h.beginEnding hs
  | fence p => exact h.fence hs
  | lock p => exact h.lock hs
  | check p => exact h.check hs
  | commit p => exact h.commit hs
  | abort p =>
    simp only [World.step, World.abort] at hs
    split at hs <;> cases hs <;> exact h.rollback trivial
  | leave p =>
    cases hs
    exact ⟨(h.rollback (p := p) (q := .idle) trivial).inv.of_eq rfl rfl rfl rfl, .same⟩

theorem Inv.keeps (h : Inv w) (hs : w.step specs e = some w') (hr : r ∈ w.runs) (hphase : r.phase ≠ .running) :
    r ∈ w'.runs := by
  have hchanged := (h.step hs).changed
  generalize w'.runs = runs' at hchanged ⊢
  cases hchanged with
  | same => exact hr
  | inserted new byHand => exact mem_append_left _ hr
  | written hp hafter =>
    rename_i p epoch what cur after
    have hcur := h.knows p
    rw [hp] at hcur
    refine mem_updateJobRun.2 (.inl ⟨hr, fun hid => hphase ?_⟩)
    rw [eq_of_id h.ids hr hcur.2 (hid.trans hafter.id)]
    exact hafter.ran

end FeOS.Jobs
