import FeOS.Sanity.JobSteps

/-! The jobs of an environment run one at a time, and a deploy job as often as its retries say, where nobody
runs it by hand and no other run of its template succeeds between a step's reads and its insert. -/

namespace FeOS.Jobs

open RowLocks List Function Runs

variable {specs : ℕ → Spec} {w w' : World} {p : ℕ} {runs : List Run} {name hash : String} {dep retries : ℕ}

/-! The runs of a template and a deployment -/

def ownRuns (runs : List Run) (name : String) (dep : ℕ) (hash : String) : List Run :=
  runs.filter fun r => r.job == name && r.templateHash == hash && r.deployment == dep

variable {r after : Run} {l : List Run} {q : Proc}

theorem mem_ownRuns : r ∈ ownRuns runs name dep hash ↔ r ∈ runs ∧ r.job = name ∧ r.templateHash = hash ∧
    r.deployment = dep := by
  simp [ownRuns, and_assoc]

structure Numbered (retries : ℕ) (l : List Run) : Prop where
  attempts : l.map (·.attempt) = range' 1 l.length
  most : l.length ≤ retries + 1
  failed : ∀ r ∈ l.dropLast, r.phase = .failed

theorem Numbered.nil : Numbered retries [] := ⟨rfl, Nat.zero_le _, by simp⟩

theorem Numbered.append (h : Numbered retries l) (hfailed : ∀ x ∈ l, x.phase = .failed)
    (hattempt : r.attempt = l.length + 1) (hroom : l.length ≤ retries) : Numbered retries (l ++ [r]) := by
  refine ⟨?_, by simpa using hroom, by simpa using hfailed⟩
  rw [map_append, h.attempts, length_append, length_singleton, range'_concat]
  simp [hattempt, Nat.add_comm]

theorem Numbered.last (h : Numbered retries l) (hlast : l.getLast? = some r) : r.attempt = l.length := by
  obtain ⟨l, rfl⟩ := getLast?_eq_some_iff.1 hlast
  have := h.attempts
  rw [map_append, length_append, length_singleton, range'_concat] at this
  have := append_inj_right' this rfl
  simp at this
  simp [this, Nat.add_comm]

theorem Numbered.eq_last (h : Numbered retries l) (hr : r ∈ l) (hphase : r.phase ≠ .failed) :
    l.getLast? = some r := by
  cases l using reverseRecOn with
  | nil => cases hr
  | append_singleton l x =>
    rw [getLast?_append, getLast?_singleton, Option.some_or]
    rcases mem_append.1 hr with hr | hr
    · exact absurd (h.failed r (by simpa using hr)) hphase
    · rw [mem_singleton.1 hr]

theorem Numbered.map (h : Numbered retries l) (hattempt : ∀ r ∈ l, r.id = after.id → after.attempt = r.attempt)
    (hne : ∀ r ∈ l, r.id = after.id → r.phase ≠ .failed) : Numbered retries (updateJobRun l after) := by
  refine ⟨?_, by simpa [updateJobRun] using h.most, fun x hx => ?_⟩
  · rw [updateJobRun, map_map, length_map, ← h.attempts]
    refine map_congr_left fun r hr => ?_
    show (if r.id = after.id then after else r).attempt = r.attempt
    split_ifs with hid
    · exact hattempt r hr hid
    · rfl
  · rw [updateJobRun, ← map_dropLast] at hx
    obtain ⟨r, hr, rfl⟩ := mem_map.1 hx
    rw [if_neg fun hid => hne r (mem_of_mem_dropLast hr) hid (h.failed r hr)]
    exact h.failed r hr

theorem ownRuns_append (r : Run) : ownRuns (runs ++ [r]) name dep hash =
    ownRuns runs name dep hash ++ if r.job = name ∧ r.templateHash = hash ∧ r.deployment = dep then [r] else [] := by
  rw [ownRuns, filter_append, ← ownRuns]
  congr 1
  rw [filter_singleton]
  simp [and_assoc]

theorem ownRuns_update (hids : runs.Pairwise fun a b => a.id < b.id) (hr : r ∈ runs) (hafter : Rewrites r after) :
    ownRuns (updateJobRun runs after) name dep hash = updateJobRun (ownRuns runs name dep hash) after := by
  unfold ownRuns updateJobRun
  rw [filter_map]
  congr 1
  refine filter_congr fun x hx => ?_
  simp only [comp_apply]
  split_ifs with hid
  · rw [eq_of_id hids hx hr (hid.trans hafter.id), hafter.new]
  · rfl

/-! What a step starts -/

variable {plan : Plan} {epoch id : ℕ} {v : View} {pc : StepAt} {new : NewRun}

theorem last_of_listed {n : ℕ} (h : (listJobRuns runs plan.name n).find? (plan.owns dep) = some r) :
    (ownRuns runs plan.name dep plan.hash).getLast? = some r := by
  have hown : ownRuns runs plan.name dep plan.hash = (runs.filter fun r => r.job == plan.name).filter (plan.owns dep) := by
    rw [filter_filter]
    refine filter_congr fun r _ => ?_
    unfold Plan.owns
    cases r.job == plan.name <;> simp
  have hfind : ((runs.filter fun r => r.job == plan.name).reverse).find? (plan.owns dep) = some r := by
    rw [← take_append_drop n (runs.filter fun r => r.job == plan.name).reverse, find?_append]
    unfold listJobRuns at h
    rw [h, Option.some_or]
  rwa [hown, ← head?_reverse, ← filter_reverse, head?_filter]

theorem nextRun_start {attempt : ℕ} (h : nextRun plan dep (listJobRuns runs plan.name listLimit) = .start attempt)
    (hnum : Numbered plan.job.retries (ownRuns runs plan.name dep plan.hash))
    (hlisted : ownRuns runs plan.name dep plan.hash ≠ [] →
      (listJobRuns runs plan.name listLimit).any (plan.owns dep) = true) :
    attempt = (ownRuns runs plan.name dep plan.hash).length + 1 ∧
      (ownRuns runs plan.name dep plan.hash).length ≤ plan.job.retries ∧
      ∀ r ∈ ownRuns runs plan.name dep plan.hash, r.phase = .failed := by
  unfold nextRun at h
  simp only at h
  split at h
  · cases h
  · rename_i hlast
    cases h
    have hnil : ownRuns runs plan.name dep plan.hash = [] := by
      by_contra hne
      obtain ⟨r, hr, howns⟩ := any_eq_true.1 (hlisted hne)
      exact absurd howns (find?_eq_none.1 hlast r hr)
    rw [hnil]
    exact ⟨rfl, Nat.zero_le _, by simp⟩
  · rename_i last _ hlast
    have hnewest := last_of_listed hlast
    have hattempt := hnum.last hnewest
    split at h
    · cases h
    · cases h
    · rename_i hfailed
      split_ifs at h with hle
      cases h
      refine ⟨by rw [hattempt], hattempt ▸ hle, fun r hr => ?_⟩
      by_contra hne
      rw [hnum.eq_last hr hne] at hnewest
      cases hnewest
      exact hne hfailed

/-! The leader's step -/

def ByHand (specs : ℕ → Spec) (new : NewRun) : Prop := ∀ j, (new.job, j) ∈ (specs new.deployment).jobs → j.on ≠ .deploy

def Deploys (specs : ℕ → Spec) (dep : ℕ) (name : String) (j : Job) : Prop := (name, j) ∈ (specs dep).jobs ∧ j.on = .deploy

structure Due (specs : ℕ → Spec) (runs : List Run) (dep : ℕ) (new : NewRun) : Prop where
  deployment : new.deployment = dep
  unmet : jobSucceeded runs new.job new.templateHash = false
  failed : ∀ r ∈ ownRuns runs new.job dep new.templateHash, r.phase = .failed
  attempt : new.attempt = (ownRuns runs new.job dep new.templateHash).length + 1
  room : ∃ j, Deploys specs dep new.job j ∧ (ownRuns runs new.job dep new.templateHash).length ≤ j.retries

def Aware (specs : ℕ → Spec) (runs : List Run) (dep : ℕ) : StepAt → Prop
  | .jobs => True
  | .asked plan => Deploys specs dep plan.name plan.job
  | .unmet plan => Deploys specs dep plan.name plan.job ∧
      ∀ r ∈ runs, r.job = plan.name → r.templateHash = plan.hash → r.phase = .succeeded → r.deployment = dep
  | .start new _ => Due specs runs dep new

def StepAt.inTx : StepAt → Bool
  | .start _ tx => tx != .begun
  | _ => false

/-- A step of the leader is the one that there is, and the lease is its own while its transaction is open. -/
def Fits (specs : ℕ → Spec) (w : World) (p : ℕ) : Proc → Prop
  | .step epoch v rest pc => epoch ≤ w.epoch ∧ (pc.inTx = true → ⟨p, .lease, .share⟩ ∈ w.held ∧ epoch = w.epoch) ∧
      (epoch = w.epoch → w.stepping = some p ∧ (∀ x ∈ rest, x ∈ (specs v.targetNum).jobs) ∧
        Aware specs w.runs v.targetNum pc)
  | .call new _ => ByHand specs new
  | _ => True

structure Orderly (specs : ℕ → Spec) (w : World) : Prop where
  fits : ∀ p, Fits specs w p (w.procs p)
  byHand : ∀ r ∈ w.runs, r.byHand = true → ByHand specs r.toNewRun
  numbered : ∀ dep name j hash, Deploys specs dep name j → Numbered j.retries (ownRuns w.runs name dep hash)
  again : ∀ r ∈ w.runs, r.byHand = false → r.again = false

theorem Orderly.init (specs : ℕ → Spec) : Orderly specs World.init :=
  ⟨fun _ => trivial, by simp [World.init], fun _ _ _ _ _ => Numbered.nil, by simp [World.init]⟩

structure Beside (w w' : World) (p : ℕ) : Prop where
  epoch : w'.epoch = w.epoch
  stepping : ∀ p', p' ≠ p → w.stepping = some p' → w'.stepping = some p'
  held : ∀ l ∈ w.held, l.tx ≠ p → l ∈ w'.held

theorem Fits.beside {p' : ℕ} (h : Fits specs w p' q) (hb : Beside w w' p) (hp : p' ≠ p)
    (haware : ∀ epoch v rest pc, q = .step epoch v rest pc → w.stepping = some p' → Aware specs w.runs v.targetNum pc →
      Aware specs w'.runs v.targetNum pc) : Fits specs w' p' q := by
  cases q with
  | step epoch v rest pc =>
    obtain ⟨hle, htx, hlive⟩ := h
    refine ⟨hb.epoch ▸ hle, fun hin => ?_, fun heq => ?_⟩
    · rw [hb.epoch]
      exact ⟨hb.held _ (htx hin).1 hp, (htx hin).2⟩
    · obtain ⟨hstepping, hrest, hknows⟩ := hlive (heq.trans hb.epoch)
      exact ⟨hb.stepping p' hp hstepping, hrest, haware epoch v rest pc rfl hstepping hknows⟩
  | call new tx => exact h
  | _ => trivial

namespace Orderly
variable (h : Orderly specs w)
include h

theorem fits_at (hp : w.procs p = q) : Fits specs w p q := hp ▸ h.fits p

theorem fits_beside (hb : Beside w w' p) (hprocs : w'.procs = update w.procs p q)
    (haware : ∀ p' epoch v rest pc, p' ≠ p → w.procs p' = .step epoch v rest pc → w.stepping = some p' →
      Aware specs w.runs v.targetNum pc → Aware specs w'.runs v.targetNum pc) (hq : Fits specs w' p q) (p' : ℕ) :
    Fits specs w' p' (w'.procs p') := by
  rw [hprocs]
  by_cases hp : p' = p
  · subst hp
    rwa [update_self]
  · rw [update_of_ne hp]
    exact (h.fits p').beside hb hp fun epoch v rest pc heq => haware p' epoch v rest pc hp heq

theorem move (hb : Beside w w' p) (hprocs : w'.procs = update w.procs p q)
    (hruns : w'.runs = w.runs) (hq : Fits specs w' p q) : Orderly specs w' := by
  exact ⟨h.fits_beside hb hprocs (fun _ _ _ _ _ _ _ _ ha => hruns ▸ ha) hq, hruns ▸ h.byHand, hruns ▸ h.numbered,
    hruns ▸ h.again⟩

theorem setProc (hq : Fits specs w p q) : Orderly specs (w.setProc p q) :=
  h.move ⟨rfl, fun _ _ hs => hs, fun _ hl _ => hl⟩ rfl rfl (by cases q <;> exact hq)

theorem take {row : Row} {mode : Mode}
    (hs : (w.take p row mode).map (·.setProc p q) = some w')
    (hq : Fits specs { w with held := ⟨p, row, mode⟩ :: w.held } p q) : Orderly specs w' := by
  obtain ⟨w1, htake, rfl⟩ := Option.map_eq_some_iff.1 hs
  unfold World.take at htake
  split_ifs at htake
  cases htake
  exact h.move ⟨rfl, fun _ _ hs => hs, fun _ hl _ => mem_cons_of_mem _ hl⟩ rfl rfl (by cases q <;> exact hq)

theorem rollback (hq : Fits specs { w with held := release w.held p } p q) :
    Orderly specs ((w.setProc p q).unlocked p) :=
  h.move ⟨rfl, fun _ _ hs => hs, fun _ hl hp => mem_release.2 ⟨hl, hp⟩⟩ rfl rfl (by cases q <;> exact hq)

end Orderly

theorem Fits.goOn {rest rest' : List (String × Job)} {pc' : StepAt}
    (h : Fits specs w p (.step epoch v rest pc)) (hrest : rest' ⊆ rest) (htx : pc'.inTx = false)
    (hepoch : w'.epoch = w.epoch) (hstepping : w'.stepping = w.stepping)
    (haware : (∀ x ∈ rest, x ∈ (specs v.targetNum).jobs) → Aware specs w.runs v.targetNum pc →
      Aware specs w'.runs v.targetNum pc') :
    Fits specs w' p (.step epoch v rest' pc') := by
  obtain ⟨hle, _, hlive⟩ := h
  refine ⟨hepoch ▸ hle, fun hin => by simp [htx] at hin, fun heq => ?_⟩
  obtain ⟨hs, hr, ha⟩ := hlive (heq.trans hepoch)
  exact ⟨hstepping.trans hs, fun x hx => hr x (hrest hx), haware hr ha⟩

/-! The inserts -/

theorem jobSucceeded_append (hr : r.phase = .running) {job hash : String} :
    jobSucceeded (runs ++ [r]) job hash = jobSucceeded runs job hash := by
  simp [jobSucceeded, hr]

theorem Aware.byHand (h : Aware specs runs dep pc) (hr : ByHand specs r.toNewRun) (hphase : r.phase = .running) :
    Aware specs (runs ++ [r]) dep pc := by
  have hown : ∀ name j hash, Deploys specs dep name j →
      ownRuns (runs ++ [r]) name dep hash = ownRuns runs name dep hash := by
    intro name j hash hj
    rw [ownRuns_append, if_neg, append_nil]
    rintro ⟨rfl, _, rfl⟩
    exact hr j hj.1 hj.2
  cases pc with
  | jobs => trivial
  | asked plan => exact h
  | unmet plan =>
    refine ⟨h.1, fun x hx hjob hhash hs => ?_⟩
    rcases mem_append.1 hx with hx | hx
    · exact h.2 x hx hjob hhash hs
    · simp [mem_singleton.1 hx, hphase] at hs
  | start new tx =>
    obtain ⟨hdep, hunmet, hfailed, hattempt, j, hj, hroom⟩ := h
    have := hown new.job j new.templateHash hj
    exact ⟨hdep, (jobSucceeded_append hphase).trans hunmet, by rw [this]; exact hfailed, by rw [this]; exact hattempt,
      j, hj, by rw [this]; exact hroom⟩

theorem Orderly.insertByHand {tx : InsertAt} (h : Orderly specs w) (hp : w.procs p = .call new tx) :
    Orderly specs (((w.insertRun new true).setProc p .idle).unlocked p) := by
  have hnew : ByHand specs new := h.fits_at hp
  refine ⟨h.fits_beside ⟨rfl, fun _ _ hs => hs, fun _ hl hp => mem_release.2 ⟨hl, hp⟩⟩ rfl ?_ trivial, ?_, ?_, ?_⟩
  · exact fun _ _ _ _ _ _ _ _ ha => ha.byHand hnew rfl
  · exact forall_mem_append.2 ⟨h.byHand, forall_mem_singleton.2 fun _ => hnew⟩
  · intro dep name j hash hj
    show Numbered _ (ownRuns (w.runs ++ [_]) _ _ _)
    rw [ownRuns_append, if_neg, append_nil]
    · exact h.numbered dep name j hash hj
    · rintro ⟨rfl, _, rfl⟩
      exact hnew j hj.1 hj.2
  · exact forall_mem_append.2 ⟨h.again, forall_mem_singleton.2 nofun⟩

theorem eq_of_name {j j' : Job} (h : (name, j) ∈ (specs dep).jobs) (h' : (name, j') ∈ (specs dep).jobs) : j = j' :=
  congrArg Prod.snd (inj_on_of_nodup_map (specs dep).names h h' rfl)

theorem Orderly.insert {rest : List (String × Job)} (h : Orderly specs w)
    (hp : w.procs p = .step epoch v rest (.start new .checked)) :
    Orderly specs (((w.insertRun new false).setProc p (.step epoch v rest .jobs)).unlocked p) := by
  obtain ⟨hle, htx, hlive⟩ := h.fits_at hp
  obtain ⟨_, hepoch⟩ := htx rfl
  obtain ⟨hstepping, hrest, hdue⟩ := hlive hepoch
  refine ⟨h.fits_beside ⟨rfl, fun _ _ hs => hs, fun _ hl hp => mem_release.2 ⟨hl, hp⟩⟩ rfl ?_ ?_, ?_, ?_, ?_⟩
  · -- there is no other step of the leader
    intro p' _ _ _ _ hne _ hs
    rw [hstepping] at hs
    exact absurd (Option.some.inj hs).symm hne
  · exact ⟨hle, nofun, fun _ => ⟨hstepping, hrest, trivial⟩⟩
  · exact forall_mem_append.2 ⟨h.byHand, forall_mem_singleton.2 nofun⟩
  · intro dep name j hash hj
    show Numbered _ (ownRuns (w.runs ++ [_]) _ _ _)
    rw [ownRuns_append]
    have hnum := h.numbered dep name j hash hj
    split_ifs with hkey
    · obtain ⟨rfl, rfl, rfl⟩ := hkey
      obtain ⟨j', hj', hroom⟩ := hdue.room
      rw [← hdue.deployment] at hj' hroom
      rw [eq_of_name hj'.1 hj.1] at hroom
      refine hnum.append ?_ ?_ hroom
      · have := hdue.failed
        rwa [← hdue.deployment] at this
      · have := hdue.attempt
        rwa [← hdue.deployment] at this
    · rwa [append_nil]
  · exact forall_mem_append.2 ⟨h.again, forall_mem_singleton.2 fun _ => hdue.unmet⟩

/-! The endings -/

/-- The step stands between its look for a success of the template and its insert. -/
def StepAt.stands (job hash : String) : StepAt → Bool
  | .unmet plan => plan.name == job && plan.hash == hash
  | .start new _ => new.job == job && new.templateHash == hash
  | _ => false

theorem Aware.rewrite (h : Aware specs runs dep pc) (hids : runs.Pairwise fun a b => a.id < b.id)
    (hr : r ∈ runs) (hafter : Rewrites r after)
    (hapart : after.phase = .succeeded → pc.stands r.job r.templateHash = true → r.deployment = dep) :
    Aware specs (updateJobRun runs after) dep pc := by
  have hjob : after.job = r.job := congrArg NewRun.job hafter.new
  have hhash : after.templateHash = r.templateHash := congrArg NewRun.templateHash hafter.new
  have hdep : after.deployment = r.deployment := congrArg NewRun.deployment hafter.new
  cases pc with
  | jobs => trivial
  | asked plan => exact h
  | unmet plan =>
    refine ⟨h.1, fun x hx hxjob hxhash hs => ?_⟩
    rcases mem_updateJobRun.1 hx with ⟨hx, _⟩ | ⟨rfl, _⟩
    · exact h.2 x hx hxjob hxhash hs
    · refine hdep.trans (hapart hs ?_)
      simp [StepAt.stands, ← hxjob, ← hxhash, hjob, hhash]
  | start new tx =>
    obtain ⟨hdue, hunmet, hfailed, hattempt, j, hj, hroom⟩ := h
    have hlen : (ownRuns (updateJobRun runs after) new.job dep new.templateHash).length =
        (ownRuns runs new.job dep new.templateHash).length := by
      rw [ownRuns_update hids hr hafter, updateJobRun, length_map]
    -- a run of the step's own does not run
    have hown : after.job = new.job → after.templateHash = new.templateHash → r.deployment ≠ dep := by
      intro hj hh hd
      have := hfailed r (mem_ownRuns.2 ⟨hr, hjob ▸ hj, hhash ▸ hh, hd⟩)
      simp [hafter.ran] at this
    refine ⟨hdue, ?_, ?_, hlen.symm ▸ hattempt, j, hj, hlen.symm ▸ hroom⟩
    · rw [jobSucceeded_eq_false] at hunmet ⊢
      intro x hx hxjob hxhash hs
      rcases mem_updateJobRun.1 hx with ⟨hx, _⟩ | ⟨rfl, _⟩
      · exact hunmet x hx hxjob hxhash hs
      · refine hown hxjob hxhash (hapart hs ?_)
        simp [StepAt.stands, ← hxjob, ← hxhash, hjob, hhash]
    · intro x hx
      obtain ⟨hx, hxjob, hxhash, hxdep⟩ := mem_ownRuns.1 hx
      rcases mem_updateJobRun.1 hx with ⟨hx, _⟩ | ⟨rfl, _⟩
      · exact hfailed x (mem_ownRuns.2 ⟨hx, hxjob, hxhash, hxdep⟩)
      · exact absurd (hdep ▸ hxdep) (hown hxjob hxhash)

theorem Orderly.rewrite (h : Orderly specs w) (hinv : Inv w) (hr : r ∈ w.runs) (hafter : Rewrites r after)
    (hb : Beside w w' p) (hprocs : w'.procs = update w.procs p q) (hruns : w'.runs = updateJobRun w.runs after)
    (hapart : after.phase = .succeeded → ∀ p' epoch v rest pc, w.stepping = some p' → w.procs p' = .step epoch v rest pc →
      pc.stands r.job r.templateHash = true → r.deployment = v.targetNum) (hq : Fits specs w' p q) : Orderly specs w' := by
  refine ⟨h.fits_beside hb hprocs ?_ hq, ?_, ?_, ?_⟩
  · intro p' epoch v rest pc _ hp' hstepping ha
    rw [hruns]
    exact ha.rewrite hinv.ids hr hafter fun hs hstands => hapart hs p' epoch v rest pc hstepping hp' hstands
  · rw [hruns]
    intro x hx hby
    rcases mem_updateJobRun.1 hx with ⟨hx, _⟩ | ⟨rfl, _⟩
    · exact h.byHand x hx hby
    · rw [hafter.new]
      exact h.byHand r hr (hafter.said.1 ▸ hby)
  · rw [hruns]
    intro dep name j hash hj
    rw [ownRuns_update hinv.ids hr hafter]
    refine (h.numbered dep name j hash hj).map (fun x hx hid => ?_) (fun x hx hid => ?_)
    · rw [eq_of_id hinv.ids (mem_ownRuns.1 hx).1 hr (hid.trans hafter.id), hafter.new]
    · rw [eq_of_id hinv.ids (mem_ownRuns.1 hx).1 hr (hid.trans hafter.id), hafter.ran]
      exact nofun
  · rw [hruns]
    intro x hx hby
    rcases mem_updateJobRun.1 hx with ⟨hx, _⟩ | ⟨rfl, _⟩
    · exact h.again x hx hby
    · rw [hafter.said.2]
      exact h.again r hr (hafter.said.1 ▸ hby)

/-! The steps -/

/-- Nobody runs a deploy job by hand; the runs of a step's own template and deployment are not all older than
those it lists; and no run of another deployment succeeds while a step of the leader stands between its look
for a success of the same template and its insert. -/
def Calm (specs : ℕ → Spec) (w : World) : Event → Prop
  | .runJob _ name _ =>
    match load specs w.env w.states with
    | some v => ∀ x ∈ v.target, x.1 = name → x.2.on ≠ .deploy
    | none => True
  | .listRuns p =>
    match w.procs p with
    | .step _ v _ (.unmet plan) =>
      ownRuns w.runs plan.name v.targetNum plan.hash ≠ [] →
        (listJobRuns w.runs plan.name listLimit).any (plan.owns v.targetNum) = true
    | _ => True
  | .commit p =>
    match w.procs p, w.stepping.map w.procs with
    | .ending _ (.finishJob _ code detail) (.locked (some r)), some (.step _ v _ pc) =>
      (outcome code detail).1 = true → pc.stands r.job r.templateHash = true → r.deployment = v.targetNum
    | _, _ => True
  | _ => True

instance (specs : ℕ → Spec) (w : World) (e : Event) : Decidable (Calm specs w e) := by
  unfold Calm
  split
  · split <;> infer_instance
  · split <;> infer_instance
  · split <;> infer_instance
  · infer_instance

theorem Orderly.of_eq (h : Orderly specs w) (hruns : w'.runs = w.runs) (hprocs : w'.procs = w.procs)
    (hheld : w'.held = w.held)
    (hepoch : w'.epoch = w.epoch) (hstepping : w'.stepping = w.stepping) : Orderly specs w' := by
  have hfits : ∀ p q, Fits specs w p q → Fits specs w' p q := by
    intro p q hq
    cases q with
    | step epoch v rest pc => simpa only [Fits, hruns, hheld, hepoch, hstepping] using hq
    | call new tx => exact hq
    | _ => trivial
  exact ⟨fun p => hprocs ▸ hfits p _ (h.fits p), hruns ▸ h.byHand, hruns ▸ h.numbered, hruns ▸ h.again⟩

theorem Orderly.takeOver (h : Orderly specs w) (hs : w.takeOver = some w') : Orderly specs w' := by
  unfold World.takeOver at hs
  split_ifs at hs with hfree
  cases hs
  refine ⟨fun p => ?_, h.byHand, h.numbered, h.again⟩
  cases hq : w.procs p with
  | step epoch v rest pc =>
    obtain ⟨hle, htx, _⟩ := h.fits_at hq
    refine ⟨hle.trans (Nat.le_succ _), fun hin => ?_, fun heq => ?_⟩
    · exact (hfree.not_held (htx hin).1 rfl rfl).elim
    · exact absurd heq (Nat.lt_succ_of_le hle).ne
  | call new tx => exact h.fits_at hq
  | _ => trivial

theorem load_target (h : load specs w.env w.states = some v) : v.target = (specs v.targetNum).jobs ∨ v.target = [] := by
  unfold load at h
  split_ifs at h <;> cases h <;> simp

namespace Orderly
variable (h : Orderly specs w)
include h

theorem beginStep (hs : w.beginStep p specs = some w') : Orderly specs w' := by
  revert hs
  fun_cases World.beginStep w p specs <;> rintro ⟨⟩
  rename_i v hload hnone _
  refine h.move (p := p) (q := .step w.epoch v _ .jobs) ⟨rfl, fun p' _ hs => ?_, fun _ hl _ => hl⟩ rfl rfl
    ⟨le_rfl, nofun, fun _ => ⟨rfl, ?_, trivial⟩⟩
  · simp [hnone] at hs
  · intro x hx
    split_ifs at hx
    · rcases load_target hload with ht | ht <;> rw [ht] at hx
      · exact hx
      · cases hx
    · cases hx

theorem planJob {hash : Option String} (hs : w.planJob p hash = some w') : Orderly specs w' := by
  revert hs
  fun_cases World.planJob w p hash <;> rintro ⟨⟩
  rename_i epoch v name j rest hp
  refine h.setProc ((h.fits_at hp).goOn (fun x hx => mem_cons_of_mem _ hx) ?_ rfl rfl fun hrest _ => ?_)
  · split
    · split_ifs <;> rfl
    · rfl
  · split
    · split_ifs with hon
      · exact ⟨hrest _ mem_cons_self, hon⟩
      · trivial
    · trivial

theorem askSucceeded (hs : w.askSucceeded p = some w') : Orderly specs w' := by
  revert hs
  fun_cases World.askSucceeded w p <;> rintro ⟨⟩
  rename_i epoch v rest plan hp
  refine h.setProc ((h.fits_at hp).goOn (List.Subset.refl _) ?_ rfl rfl fun _ ha => ?_)
  · split_ifs <;> rfl
  · split_ifs with hdone
    · trivial
    · refine ⟨ha, fun r hr hjob hhash hs => ?_⟩
      exact absurd hs (jobSucceeded_eq_false.1 (Bool.eq_false_iff.2 hdone) r hr hjob hhash)

theorem listRuns (hcalm : Calm specs w (.listRuns p)) (hs : w.listRuns p = some w') : Orderly specs w' := by
  revert hs
  fun_cases World.listRuns w p <;> rintro ⟨⟩
  rename_i epoch v rest plan heq
  simp only [Calm, heq] at hcalm
  have hp := h.fits_at heq
  split
  · exact h.setProc (hp.goOn (List.Subset.refl _) rfl rfl rfl fun _ _ => trivial)
  · rename_i attempt hnext
    refine h.setProc (hp.goOn (List.Subset.refl _) rfl rfl rfl fun _ ha => ?_)
    obtain ⟨hattempt, hroom, hfailed⟩ := nextRun_start hnext (h.numbered _ _ _ _ ha.1) hcalm
    refine ⟨rfl, jobSucceeded_eq_false.2 fun r hr hjob hhash hsucc => ?_, hfailed, hattempt, plan.job, ha.1, hroom⟩
    -- a success of the step's own would be its newest run
    have := hfailed r (mem_ownRuns.2 ⟨hr, hjob, hhash, ha.2 r hr hjob hhash hsucc⟩)
    simp [hsucc] at this
  · exact h.setProc (hp.goOn (nil_subset _) rfl rfl rfl fun _ _ => trivial)

theorem runJob (hcalm : Calm specs w (.runJob p name hash)) (hs : w.runJob p specs name hash = some w') :
    Orderly specs w' := by
  revert hs
  fun_cases World.runJob w p specs name hash <;> rintro ⟨⟩
  rename_i v hload _ hname
  simp only [Calm, hload] at hcalm
  refine h.setProc fun j hj => ?_
  rcases load_target hload with ht | ht
  · exact hcalm (name, j) (ht ▸ hj) rfl
  · simp [ht] at hname

theorem fence (hs : w.fence p = some w') : Orderly specs w' := by
  revert hs
  fun_cases World.fence w p <;> intro hs <;> try cases hs
  case case1 heq =>
    have hp := h.fits_at heq
    exact h.take hs ⟨hp.1, fun _ => ⟨mem_cons_self, rfl⟩, hp.2.2⟩
  case case3 => exact h.take hs trivial

theorem lock (hs : w.lock p = some w') : Orderly specs w' := by
  revert hs
  fun_cases World.lock w p <;> intro hs <;> try cases hs
  case case2 heq _ =>
    have hp := h.fits_at heq
    exact h.take hs ⟨hp.1, fun _ => ⟨mem_cons_of_mem _ (hp.2.1 rfl).1, (hp.2.1 rfl).2⟩, hp.2.2⟩
  case case4 hp _ => exact h.take hs (h.fits_at hp)
  case case5 => exact h.setProc trivial
  case case6 => exact h.take hs trivial

theorem check (hs : w.check p = some w') : Orderly specs w' := by
  revert hs
  fun_cases World.check w p <;> rintro ⟨⟩
  case case1 heq _ =>
    have hp := h.fits_at heq
    exact h.setProc ⟨hp.1, fun _ => hp.2.1 rfl, hp.2.2⟩
  case case3 hp _ => exact h.setProc (h.fits_at hp :)

theorem commit (hinv : Inv w) (hcalm : Calm specs w (.commit p)) (hs : w.commit p = some w') :
    Orderly specs w' := by
  have hknows := hinv.knows p
  revert hs
  fun_cases World.commit w p <;> rintro ⟨⟩
  case case1 heq => exact h.insert heq
  case case2 heq => exact h.insertByHand heq
  case case3 epoch e cur heq =>
    obtain ⟨hruns, _, hprocs, hheld, hepoch, hstepping⟩ := writeEnd_cases w cur e
    have hbeside : Beside w (((w.writeEnd cur e).setProc p .idle).unlocked p) p :=
      ⟨hepoch, fun _ _ hs => hstepping.trans hs, fun l hl hp => mem_release.2 ⟨hheld.symm ▸ hl, hp⟩⟩
    rcases hruns with hruns | ⟨r, after, rfl, hafter, hruns, hsucc⟩
    · exact h.move hbeside (congrArg (update · p _) hprocs) hruns trivial
    · rw [heq] at hknows
      refine h.rewrite hinv hknows.2 hafter hbeside (congrArg (update · p _) hprocs) hruns ?_ trivial
      intro hs p' epoch' v rest pc hstep hp' hstands
      obtain ⟨sandbox, code, detail, rfl, hout⟩ := hsucc hs
      simp only [Calm, heq, hstep, Option.map_some, hp'] at hcalm
      exact hcalm hout hstands

theorem abort (hs : w.abort p = some w') : Orderly specs w' := by
  revert hs
  fun_cases World.abort w p <;> rintro ⟨⟩
  case case2 hp => exact h.rollback ((h.fits_at hp).goOn (List.Subset.refl _) rfl rfl rfl fun _ _ => trivial)
  case case3 => exact h.rollback trivial
  case case4 => exact h.rollback trivial

theorem leave : Orderly specs (w.leave p) := by
  refine h.move (p := p) (q := .idle) ⟨rfl, fun p' hne hs => ?_, fun _ hl hp => mem_release.2 ⟨hl, hp⟩⟩ rfl rfl trivial
  show (if w.stepping = some p then none else w.stepping) = some p'
  rw [if_neg, hs]
  rw [hs]
  exact fun heq => hne (Option.some.inj heq)

theorem beginEnding {what : Ending} (hs : w.beginEnding p what = some w') : Orderly specs w' := by
  revert hs
  fun_cases World.beginEnding w p what <;> rintro ⟨⟩
  exact h.setProc trivial

theorem step {e : Event} (hinv : Inv w) (hcalm : Calm specs w e) (hs : w.step specs e = some w') :
    Orderly specs w' := by
  cases e with
  | takeOver => exact h.takeOver hs
  | beginStep p => exact h.beginStep hs
  | planJob p hash => exact h.planJob hs
  | askSucceeded p => exact h.askSucceeded hs
  | listRuns p => exact h.listRuns hcalm hs
  | runJob p name hash => exact h.runJob hcalm hs
  | finishJob p sandbox code detail => exact h.beginEnding hs
  | failOrphanRun p run => exact h.beginEnding hs
  | fence p => exact h.fence hs
  | lock p => exact h.lock hs
  | check p => exact h.check hs
  | commit p => exact h.commit hinv hcalm hs
  | abort p => exact h.abort hs
  | leave p =>
    cases hs
    exact h.leave
  | _ =>
    cases hs
    exact h.of_eq rfl rfl rfl rfl rfl

end Orderly

/-! Whole runs -/

theorem Inv.of_reach {ok : World → Event → Prop} {w₀ : World} (h₀ : Inv w₀)
    (h : Reach (World.step · specs) ok w₀ w) : Inv w :=
  h.invariant h₀ fun _ _ _ hinv _ hs => (hinv.step hs).inv

theorem getJobRun_eq_some (hids : runs.Pairwise fun a b => a.id < b.id) :
    getJobRun runs id = some r ↔ r ∈ runs ∧ r.id = id := by
  refine ⟨fun h => ⟨mem_of_find?_eq_some h, by simpa using find?_some h⟩, fun ⟨hr, hid⟩ => ?_⟩
  cases hf : getJobRun runs id with
  | none =>
    have := find?_eq_none.1 hf r hr
    simp [hid] at this
  | some r' =>
    have hid' : r'.id = id := by simpa using find?_some hf
    rw [eq_of_id hids hr (mem_of_find?_eq_some hf) (hid.trans hid'.symm)]

theorem run_stays {ok : World → Event → Prop} (hinv : Inv w) (hr : r ∈ w.runs) (hne : r.phase ≠ .running)
    (h : Reach (World.step · specs) ok w w') : r ∈ w'.runs := by
  refine (h.invariant (I := fun s => Inv s ∧ r ∈ s.runs) ⟨hinv, hr⟩ fun s e s' hI _ hs => ?_).2
  exact ⟨(hI.1.step hs).inv, hI.1.keeps hs hI.2 hne⟩

theorem phase_stays {ok : World → Event → Prop} {ph : Phase} (hinv : Inv w) (hph : w.phaseOf id = some ph)
    (hne : ph ≠ .running)
    (h : Reach (World.step · specs) ok w w') : w'.phaseOf id = some ph := by
  obtain ⟨r, hget, rfl⟩ := Option.map_eq_some_iff.1 hph
  obtain ⟨hr, hid⟩ := (getJobRun_eq_some hinv.ids).1 hget
  rw [World.phaseOf, (getJobRun_eq_some (hinv.of_reach h).ids).2 ⟨run_stays hinv hr hne h, hid⟩]
  rfl

theorem orderly_of_reach (h : Reach (World.step · specs) (Calm specs) World.init w) : Orderly specs w := by
  refine (h.invariant (I := fun s => Inv s ∧ Orderly specs s) ⟨Inv.init, Orderly.init specs⟩ fun s e s' hI hcalm hs => ?_).2
  exact ⟨(hI.1.step hs).inv, hI.2.step hI.1 hcalm hs⟩

/-- Of any deployments' specs, in every run: at every moment a job has at most one run that runs, and a run's
phase changes once. And in every run whose steps are calm: the controller starts a deploy job's template for
a deployment at most as often as its retries say and once more, and never after it succeeded. -/
theorem jobs_run_once (specs : ℕ → Spec) :
    (∀ w, Reach (World.step · specs) (fun _ _ => True) World.init w →
      OneRunning w.runs ∧ ∀ w', Reach (World.step · specs) (fun _ _ => True) w w' →
        ∀ id ph, w.phaseOf id = some ph → ph ≠ .running → w'.phaseOf id = some ph) ∧
    ∀ w, Reach (World.step · specs) (Calm specs) World.init w →
      (∀ dep name j hash, (name, j) ∈ (specs dep).jobs → j.on = .deploy →
        w.runs.countP (Run.ofController name dep hash) ≤ j.retries + 1) ∧
        ∀ r ∈ w.runs, r.byHand = false → r.again = false := by
  refine ⟨fun w h => ?_, fun w h => ?_⟩
  · have hinv := Inv.init.of_reach h
    exact ⟨hinv.one, fun w' h' id ph hph hne => phase_stays hinv hph hne h'⟩
  · have horder := orderly_of_reach h
    refine ⟨fun dep name j hash hj hon => ?_, horder.again⟩
    refine le_trans ?_ (horder.numbered dep name j hash ⟨hj, hon⟩).most
    rw [ownRuns, ← countP_eq_length_filter]
    refine countP_mono_left fun r _ hr => ?_
    simp only [Run.ofController, Bool.and_eq_true] at hr
    simp only [Bool.and_eq_true]
    exact ⟨⟨hr.1.1.1, hr.1.2⟩, hr.1.1.2⟩

/-! Runs -/

def migrate : Spec := ⟨[("migrate", ⟨.deploy, 1⟩)], by simp⟩

def attempt (sandbox : ℕ) (code : Option ℤ) : List Event :=
  [.beginStep 0, .planJob 0 (some "h"), .askSucceeded 0, .listRuns 0, .fence 0, .lock 0, .check 0, .commit 0, .leave 0,
    .finishJob 1 sandbox code "", .fence 1, .lock 1, .commit 1]

theorem jobs_run_once_retried : ∃ w, Reach (World.step · fun _ => migrate) (Calm fun _ => migrate) World.init w ∧
    w.runs.map Run.phase = [.failed, .succeeded] ∧ w.runs.countP (Run.ofController "migrate" 1 "h") ≤ 2 := by
  obtain ⟨w, hreach, hw⟩ : ∃ w, Reach (World.step · fun _ => migrate) (Calm fun _ => migrate) World.init w ∧
      w.runs.map Run.phase = [.failed, .succeeded] :=
    exists_follow ([.environment ⟨1, 0, false⟩] ++ attempt 0 (some 1) ++ attempt 1 (some 0)) (by decide +kernel)
  exact ⟨w, hreach, hw, ((jobs_run_once fun _ => migrate).2 w hreach).1 1 "migrate" ⟨.deploy, 1⟩ "h" (by simp [migrate]) rfl⟩

def byHand (sandbox : ℕ) (code : Option ℤ) : List Event :=
  [.runJob 2 "migrate" "h", .lock 2, .check 2, .commit 2, .finishJob 1 sandbox code "", .fence 1, .lock 1, .commit 1]

/-- Two attempts fail, the job is run by hand and fails before the next step: the controller starts a third. -/
def thirdAttempt : List Event :=
  [.environment ⟨1, 0, false⟩] ++ attempt 0 (some 1) ++ attempt 1 (some 1) ++ byHand 2 (some 1) ++ attempt 3 (some 1)

def startAfterSuccess : List Event :=
  [.environment ⟨1, 0, false⟩, .beginStep 0, .planJob 0 (some "h"), .askSucceeded 0, .listRuns 0, .fence 0, .lock 0,
    .check 0, .commit 0,
    .leave 0, .environment ⟨2, 0, false⟩, .beginStep 0, .planJob 0 (some "h"), .askSucceeded 0,
    .finishJob 1 0 (some 0) "", .fence 1, .lock 1, .commit 1, .listRuns 0, .fence 0, .lock 0, .check 0, .commit 0]

theorem third_attempt_and_start_after_success :
    (∃ w, Reach (World.step · fun _ => migrate) (fun _ _ => True) World.init w ∧
      w.runs.countP (Run.ofController "migrate" 1 "h") = 3) ∧
    ∃ w, Reach (World.step · fun _ => migrate) (fun _ _ => True) World.init w ∧
      ∃ r ∈ w.runs, r.byHand = false ∧ r.again = true :=
  ⟨exists_follow thirdAttempt (by decide +kernel), exists_follow startAfterSuccess (by decide +kernel)⟩

/-- What a run was inserted with, under its ID. -/
def Run.inserted (r : Run) : ℕ × NewRun := (r.id, r.toNewRun)

theorem Goes.extends (h : Inv w) (hg : Goes w w') : w.runs.map Run.inserted <+: w'.runs.map Run.inserted := by
  generalize hruns : w'.runs = runs at *
  have hchanged := hruns ▸ hg.changed
  cases hchanged with
  | same => exact prefix_rfl
  | inserted new byHand =>
    rw [World.insertRun, map_append]
    exact prefix_append _ _
  | written hp hafter =>
    rename_i p epoch what r after
    have hr : r ∈ w.runs := by
      have := h.knows p
      rw [hp] at this
      exact this.2
    rw [updateJobRun, map_map]
    have hsame : w.runs.map (Run.inserted ∘ fun x => if x.id = after.id then after else x) = w.runs.map Run.inserted := by
      refine map_congr_left fun x hx => ?_
      simp only [comp_apply]
      split_ifs with hid
      · rw [eq_of_id h.ids hx hr (hid.trans hafter.id), Run.inserted, Run.inserted, hafter.id, hafter.new]
      · rfl
    rw [hsame]

theorem job_history_grows (specs : ℕ → Spec) :
    (∀ w w', Reach (World.step · specs) (fun _ _ => True) World.init w → Reach (World.step · specs) (fun _ _ => True) w w' →
      w.runs.map Run.inserted <+: w'.runs.map Run.inserted) ∧
    ∀ w w', Reach (World.step · specs) (fun _ _ => True) World.init w → Reach (World.step · specs) (fun _ _ => True) w w' →
      ∀ r ∈ w.runs, r.phase ≠ .running → r ∈ w'.runs := by
  refine ⟨fun w w' h h' => ?_, fun w w' h h' r hr hne => run_stays (Inv.init.of_reach h) hr hne h'⟩
  refine (h'.invariant (I := fun s => Inv s ∧ w.runs.map Run.inserted <+: s.runs.map Run.inserted)
    ⟨Inv.init.of_reach h, prefix_rfl⟩ fun s e s' hI _ hs => ?_).2
  exact ⟨(hI.1.step hs).inv, hI.2.trans ((hI.1.step hs).extends hI.1)⟩

theorem job_history_grows_retried : ∃ w w' r, Reach (World.step · fun _ => migrate) (fun _ _ => True) World.init w ∧
    Reach (World.step · fun _ => migrate) (fun _ _ => True) w w' ∧ r ∈ w.runs ∧ r.phase = .failed ∧
    w'.runs.length = 2 ∧ r ∈ w'.runs ∧ w.runs.map Run.inserted <+: w'.runs.map Run.inserted := by
  obtain ⟨w, hreach, ⟨r, hr, hfailed⟩, hlater⟩ :
      ∃ w, Reach (World.step · fun _ => migrate) (fun _ _ => True) World.init w ∧ (∃ r ∈ w.runs, r.phase = .failed) ∧
      ((follow (World.step · fun _ => migrate) (fun _ _ => True) w (attempt 1 (some 0))).any
        fun w' => w'.runs.length = 2) = true :=
    exists_follow (.environment ⟨1, 0, false⟩ :: attempt 0 (some 1)) (by decide +kernel)
  obtain ⟨w', hreach', hw'⟩ := exists_follow _ hlater
  obtain ⟨hgrows, hkeeps⟩ := job_history_grows fun _ => migrate
  exact ⟨w, w', r, hreach, hreach', hr, hfailed, hw',
    hkeeps w w' hreach hreach' r hr (by simp [hfailed]), hgrows w w' hreach hreach'⟩

end FeOS.Jobs
