import FeOS.Sanity.EnvSteps

/-! What holds in every run of applies: deployments are numbered without a gap, each one of a plan
for the one before it, and an apply in its transaction has the environment as its plan read it. -/

namespace FeOS.Env

open RowLocks Runs Function

variable {C Q : Type} {checks : Checks C Q} {w w' : World C Q}

namespace World

def start : World C Q where
  ids := []
  envs := fun _ => none
  deployments := fun _ _ => none
  secrets := fun _ _ => ⟨[], []⟩
  locks := []
  applies := fun _ => none

def specOf (w : World C Q) (env : String) (n : ℕ) : Option Spec := (w.deployments env n).map Deployment.spec

end World

/-- Deployment `n + 1` was planned for deployment `n`. -/
structure Lined (checks : Checks C Q) (w : World C Q) (env : String) (n : ℕ) (d : Deployment C Q) : Prop where
  base : d.base = n
  current : d.plan.current = n
  currentSpec : d.plan.currentSpec = w.specOf env n
  valid : d.plan.valid checks
  attached : d.plan.attachedOk
  quota : ∃ q, checks.quota q d.plan.currentSpec d.spec = []
  spec : d.spec = d.plan.norm

def Seen (w : World C Q) (call : Call) (n : ℕ) : Prop :=
  ∃ env, w.envs call.env = some env ∧ env.owner = call.tenant ∧ n ≤ env.deployment

structure Plans (checks : Checks C Q) (w : World C Q) (call : Call) (p : Planned C Q) : Prop where
  seen : Seen w call p.current
  currentSpec : p.currentSpec = w.specOf call.env p.current
  parsed : p.parsed = call.parsed
  valid : p.valid checks
  attached : p.attachedOk

def Holds (w : World C Q) (a : ℕ) (call : Call) (p : Planned C Q) : Prop :=
  ⟨a, call.env, .update⟩ ∈ w.locks ∧ ∃ env, w.envs call.env = some env ∧ env.deployment = p.current ∧ env.deleting = false

def StageOk (checks : Checks C Q) (w : World C Q) (a : ℕ) (call : Call) : Stage C Q → Prop
  | .start => True
  | .resolved n => Seen w call n
  | .current n cur => Seen w call n ∧ cur = w.specOf call.env n
  | .context n cur _ _ => Seen w call n ∧ cur = w.specOf call.env n
  | .planned p => Plans checks w call p
  | .locked p => Plans checks w call p ∧ Holds w a call p
  | .checked p => Plans checks w call p ∧ Holds w a call p ∧ w.pinsExist call.env p.norm ∧
      ∃ q, checks.quota q p.currentSpec p.norm = []
  | .done _ => True

structure Inv (checks : Checks C Q) (w : World C Q) : Prop where
  listed : ∀ env e, w.envs env = some e → env ∈ w.ids
  unmade : ∀ env n, w.envs env = none → w.deployments env n = none
  numbered : ∀ env e n, w.envs env = some e → ((w.deployments env n).isSome ↔ 1 ≤ n ∧ n ≤ e.deployment)
  line : ∀ env n d, w.deployments env (n + 1) = some d → Lined checks w env n d
  locks : Compatible w.locks
  stages : ∀ a x, w.applies a = some x → StageOk checks w a x.call x.stage

structure Grows (w w' : World C Q) : Prop where
  envs : ∀ env e, w.envs env = some e → ∃ e', w'.envs env = some e' ∧ e'.owner = e.owner ∧ e.deployment ≤ e'.deployment
  specs : ∀ env e n, w.envs env = some e → n ≤ e.deployment → w'.specOf env n = w.specOf env n

theorem Grows.of_eq (henvs : w'.envs = w.envs) (hdeps : w'.deployments = w.deployments) : Grows w w' where
  envs := fun env e he => ⟨e, henvs ▸ he, rfl, le_rfl⟩
  specs := fun env e n _ _ => by rw [World.specOf, World.specOf, hdeps]

variable {call : Call} {n a : ℕ} {p : Planned C Q} {env : String} {e : Environment} {d : Deployment C Q}
  {x : Apply C Q}

theorem Seen.grows (h : Seen w call n) (hg : Grows w w') : Seen w' call n := by
  obtain ⟨env, henv, howner, hle⟩ := h
  obtain ⟨env', henv', howner', hle'⟩ := hg.envs _ _ henv
  exact ⟨env', henv', howner'.trans howner, hle.trans hle'⟩

theorem Seen.specOf (h : Seen w call n) (hg : Grows w w') :
    w'.specOf call.env n = w.specOf call.env n := by
  obtain ⟨env, henv, -, hle⟩ := h
  exact hg.specs _ _ _ henv hle

theorem Plans.grows (h : Plans checks w call p) (hg : Grows w w') :
    Plans checks w' call p where
  seen := h.seen.grows hg
  currentSpec := h.currentSpec.trans (h.seen.specOf hg).symm
  parsed := h.parsed
  valid := h.valid
  attached := h.attached

def Spares (w w' : World C Q) (a : ℕ) (env : String) : Prop :=
  ⟨a, env, .update⟩ ∈ w.locks → ∀ e, w.envs env = some e →
    ⟨a, env, .update⟩ ∈ w'.locks ∧ w'.envs env = w.envs env ∧ w'.secrets env = w.secrets env

theorem Holds.spares (h : Holds w a call p) (hsp : Spares w w' a call.env) :
    Holds w' a call p := by
  obtain ⟨hlock, env, henv, hcur, hdel⟩ := h
  obtain ⟨hlock', henvs, -⟩ := hsp hlock env henv
  exact ⟨hlock', env, henvs.trans henv, hcur, hdel⟩

theorem StageOk.keep {s : Stage C Q} (h : StageOk checks w a call s) (hg : Grows w w')
    (hsp : Spares w w' a call.env) : StageOk checks w' a call s := by
  cases s with
  | start => trivial
  | resolved n => exact h.grows hg
  | current n cur => exact ⟨h.1.grows hg, h.2.trans (h.1.specOf hg).symm⟩
  | context n cur others known => exact ⟨h.1.grows hg, h.2.trans (h.1.specOf hg).symm⟩
  | planned p => exact h.grows hg
  | locked p => exact ⟨h.1.grows hg, h.2.spares hsp⟩
  | checked p =>
    obtain ⟨hplans, hholds, hpins, hquota⟩ := h
    refine ⟨hplans.grows hg, hholds.spares hsp, ?_, hquota⟩
    obtain ⟨hlock, env, henv, -⟩ := hholds
    rwa [World.pinsExist, (hsp hlock env henv).2.2]
  | done ans => trivial

theorem Lined.grows (h : Lined checks w env n d)
    (hg : Grows w w') (he : w.envs env = some e) (hn : n ≤ e.deployment) : Lined checks w' env n d :=
  { h with currentSpec := h.currentSpec.trans (hg.specs _ _ _ he hn).symm }

theorem Inv.env_of_deployment (h : Inv checks w)
    (hd : w.deployments env n = some d) : ∃ e, w.envs env = some e ∧ 1 ≤ n ∧ n ≤ e.deployment := by
  cases he : w.envs env with
  | none =>
    simp [h.unmade env n he] at hd
  | some e => exact ⟨e, rfl, (h.numbered env e n he).1 (by rw [hd]; rfl)⟩

theorem Inv.of_still (h : Inv checks w) (henvs : w'.envs = w.envs)
    (hdeps : w'.deployments = w.deployments) (hids : w'.ids = w.ids) (hsecrets : w'.secrets = w.secrets)
    (hlocks : Compatible w'.locks) (hheld : ∀ l ∈ w.locks, l.tx ≠ a → l ∈ w'.locks)
    (hmoves : w'.applies = update w.applies a (some x)) (hx : StageOk checks w' a x.call x.stage) : Inv checks w' where
  listed := by
    rw [henvs, hids]
    exact h.listed
  unmade := by
    rw [henvs, hdeps]
    exact h.unmade
  numbered := by
    rw [henvs, hdeps]
    exact h.numbered
  line := by
    intro env n d hd
    rw [hdeps] at hd
    obtain ⟨e, he, -, hle⟩ := h.env_of_deployment hd
    exact (h.line env n d hd).grows (.of_eq henvs hdeps) he (by omega)
  locks := hlocks
  stages := by
    intro b y hy
    rw [hmoves] at hy
    rcases update_cases hy with ⟨rfl, ⟨⟩⟩ | ⟨hb, hy⟩
    · exact hx
    · refine (h.stages b y hy).keep (.of_eq henvs hdeps) fun hl _ _ => ⟨hheld _ hl hb, ?_, ?_⟩
      · rw [henvs]
      · rw [hsecrets]

theorem Inv.advance {s : Stage C Q} (h : Inv checks w) (hx : w.applies a = some x)
    (hs : Advances checks w x s) : StageOk checks w a x.call s := by
  have hok := h.stages a x hx
  cases hs with
  | @resolved env hs henv howner hdel => exact ⟨env, henv, howner, le_rfl⟩
  | first hs =>
    rw [hs] at hok
    obtain ⟨env, henv, -, -⟩ := id hok
    refine ⟨hok, ?_⟩
    have hnone : ¬ (w.deployments x.call.env 0).isSome := by
      rw [h.numbered _ _ 0 henv]
      omega
    rw [World.specOf, Option.not_isSome_iff_eq_none.1 hnone]
    rfl
  | current hs hd =>
    rw [hs] at hok
    refine ⟨hok, ?_⟩
    rw [World.specOf, hd]
    rfl
  | context hs hparse =>
    rwa [hs] at hok
  | planned hs hvalid hatt =>
    rw [hs] at hok
    exact ⟨hok.1, hok.2, rfl, hvalid, hatt⟩
  | @checked p quota hs hpins hquota =>
    rw [hs] at hok
    exact ⟨hok.1, hok.2, hpins, quota, hquota⟩

theorem Inv.sole {b : ℕ} (h : Inv checks w) (ha : ⟨a, env, .update⟩ ∈ w.locks)
    (hb : ⟨b, env, .update⟩ ∈ w.locks) : b = a :=
  h.locks _ hb _ ha rfl rfl

theorem grows_insert {base : ℕ} (he : w.envs env = some e) :
    Grows w (w.insert env e base p) where
  envs := by
    intro env' e' he'
    rw [World.insert_envs, update_apply]
    split_ifs with heq
    · subst heq
      cases he.symm.trans he'
      exact ⟨_, rfl, rfl, Nat.le_succ _⟩
    · exact ⟨e', he', rfl, le_rfl⟩
  specs := by
    intro env' e' n he' hn
    rw [World.specOf, World.specOf, World.insert_deployments, update_apply]
    split_ifs with heq
    · subst heq
      cases he.symm.trans he'
      rw [update_of_ne (by omega), World.replaced, Option.map_map]
      congr 1
      funext d
      simp only [Function.comp_apply]
      split_ifs <;> rfl
    · rfl

theorem Inv.insert (h : Inv checks w) (hx : w.applies a = some x)
    (hs : x.stage = .checked p) (he : w.envs x.call.env = some e) (hbase : x.call.base = p.current) :
    Inv checks ((w.insert x.call.env e x.call.base p).answer a x (.deployed (e.deployment + 1))) := by
  obtain ⟨hplans, ⟨hlock, e', he', hcur, hdel⟩, hpins, q, hquota⟩ := hs ▸ h.stages a x hx
  cases he.symm.trans he'
  have hg : Grows w (w.insert x.call.env e x.call.base p) := grows_insert he
  refine ⟨?_, ?_, ?_, ?_, h.locks.release a, ?_⟩
  · intro env e1 he1
    rcases update_cases he1 with ⟨rfl, -⟩ | ⟨-, he1⟩
    · exact h.listed _ e he
    · exact h.listed env e1 he1
  · intro env n hnone
    rcases update_cases hnone with ⟨-, ⟨⟩⟩ | ⟨heq, hnone⟩
    rw [World.answer_deployments, World.insert_deployments, update_of_ne heq]
    exact h.unmade env n hnone
  · intro env e'' n he''
    rw [World.answer_envs, World.insert_envs, update_apply] at he''
    rw [World.answer_deployments, World.insert_deployments, update_apply]
    split_ifs at he'' ⊢ with heq
    · cases he''
      rw [update_apply]
      split_ifs with hn
      · simp only [Option.isSome_some, true_iff]
        omega
      · rw [World.replaced, Option.isSome_map, h.numbered _ _ n he]
        dsimp only
        omega
    · exact h.numbered env e'' n he''
  · intro env n d hd
    rw [World.answer_deployments, World.insert_deployments, update_apply] at hd
    split_ifs at hd with heq
    · subst heq
      rw [update_apply] at hd
      split_ifs at hd with hn
      · -- the new one
        cases hd
        obtain rfl : n = e.deployment := by omega
        refine ⟨hbase.trans hcur.symm, hcur.symm, ?_, hplans.valid, hplans.attached, ⟨q, hquota⟩, rfl⟩
        calc p.currentSpec = w.specOf x.call.env p.current := hplans.currentSpec
          _ = w.specOf x.call.env e.deployment := by rw [hcur]
          _ = _ := (hg.specs _ _ _ he le_rfl).symm
      · obtain ⟨d₀, hd₀, rfl⟩ := Option.map_eq_some_iff.1 hd
        have hline := h.line _ n d₀ hd₀
        obtain ⟨e1, he1, -, hle⟩ := h.env_of_deployment hd₀
        have hline' := hline.grows hg he1 (by omega)
        split_ifs <;> exact { hline' with }
    · obtain ⟨e1, he1, -, hle⟩ := h.env_of_deployment hd
      have hline' := (h.line env n d hd).grows hg he1 (by omega)
      exact { hline' with }
  · intro b y hy
    rcases update_cases hy with ⟨-, ⟨⟩⟩ | ⟨hb, hy⟩
    · trivial
    · have hgrow : Grows w ((w.insert x.call.env e x.call.base p).answer a x (.deployed (e.deployment + 1))) :=
        ⟨hg.envs, hg.specs⟩
      refine (h.stages b y hy).keep hgrow fun hl _ _ => ⟨mem_release.2 ⟨hl, hb⟩, ?_, rfl⟩
      have hne : y.call.env ≠ x.call.env := fun heq => hb (h.sole hlock (heq ▸ hl))
      exact update_of_ne hne _ _

theorem setState_eq_map {state : DeployState} (hd : w.deployments env n = some d) (env' : String) (m : ℕ) :
    (w.setState env n d state).deployments env' m =
      (w.deployments env' m).map fun d => if env' = env ∧ m = n then { d with state := state } else d := by
  by_cases henv : env' = env
  · subst henv
    by_cases hm : m = n
    · simp [hm, hd]
    · simp [hm]
  · simp [henv]

theorem grows_setState {state : DeployState} (hd : w.deployments env n = some d) :
    Grows w (w.setState env n d state) where
  envs := fun _ e he => ⟨e, he, rfl, le_rfl⟩
  specs := by
    intro env' e m he hm
    rw [World.specOf, World.specOf, setState_eq_map hd, Option.map_map]
    congr 1
    funext d
    simp only [Function.comp_apply]
    split_ifs <;> rfl

theorem Inv.setState {state : DeployState} (h : Inv checks w)
    (hd : w.deployments env n = some d) : Inv checks (w.setState env n d state) := by
  have hg : Grows w (w.setState env n d state) := grows_setState hd
  refine ⟨h.listed, ?_, ?_, ?_, h.locks, ?_⟩
  · intro env' m hnone
    rw [setState_eq_map hd, h.unmade env' m hnone]
    rfl
  · intro env' e m he
    rw [setState_eq_map hd, Option.isSome_map]
    exact h.numbered env' e m he
  · intro env' m d' hd'
    rw [setState_eq_map hd] at hd'
    obtain ⟨d₀, hd₀, rfl⟩ := Option.map_eq_some_iff.1 hd'
    obtain ⟨e1, he1, -, hle⟩ := h.env_of_deployment hd₀
    have hline := (h.line env' m d₀ hd₀).grows hg he1 (by omega)
    split_ifs <;> exact { hline with }
  · intro a x hx
    exact (h.stages a x hx).keep hg fun hl _ _ => ⟨hl, rfl, rfl⟩

theorem Inv.setEnv {id : String} {env : Environment} {ids : List String} (h : Inv checks w) (hid : id ∈ ids)
    (hids : w.ids ⊆ ids)
    (hkept : ∀ e, w.envs id = some e → env.owner = e.owner ∧ e.deployment ≤ env.deployment)
    (hnumbered : ∀ n, (w.deployments id n).isSome ↔ 1 ≤ n ∧ n ≤ env.deployment)
    (hfree : ∀ a e, w.envs id = some e → ⟨a, id, .update⟩ ∉ w.locks) :
    Inv checks { w with ids := ids, envs := update w.envs id (some env) } := by
  have hg : Grows w { w with ids := ids, envs := update w.envs id (some env) } := by
    refine ⟨fun id' e he => ?_, fun _ _ _ _ _ => rfl⟩
    dsimp only
    rw [update_apply]
    split_ifs with heq
    · subst heq
      exact ⟨env, rfl, hkept e he⟩
    · exact ⟨e, he, rfl, le_rfl⟩
  refine ⟨?_, ?_, ?_, ?_, h.locks, ?_⟩
  · intro id' e he
    rcases update_cases he with ⟨rfl, -⟩ | ⟨-, he⟩
    · exact hid
    · exact hids (h.listed id' e he)
  · intro id' n hnone
    rcases update_cases hnone with ⟨-, ⟨⟩⟩ | ⟨-, hnone⟩
    exact h.unmade id' n hnone
  · intro id' e n he
    rcases update_cases he with ⟨rfl, ⟨⟩⟩ | ⟨-, he⟩
    · exact hnumbered n
    · exact h.numbered id' e n he
  · intro id' n d hd
    obtain ⟨e1, he1, -, hle⟩ := h.env_of_deployment hd
    exact (h.line id' n d hd).grows hg he1 (by omega)
  · intro a x hx
    refine (h.stages a x hx).keep hg fun hl e he => ⟨hl, update_of_ne ?_ _ _, rfl⟩
    rintro rfl
    exact hfree a e he hl

theorem Inv.setSecret {name : String} {v : SecretVersions} (h : Inv checks w) (hfree : Free w.locks env .update) :
    Inv checks (w.setSecret env name v) where
  listed := h.listed
  unmade := h.unmade
  numbered := h.numbered
  line := fun env' n d hd => { h.line env' n d hd with }
  locks := h.locks
  stages := by
    intro a x hx
    refine (h.stages a x hx).keep (.of_eq rfl rfl) fun hl _ _ => ⟨hl, rfl, update_of_ne ?_ _ _⟩
    exact fun heq => hfree.not_held hl heq rfl

theorem Inv.create {id : String} {env : Environment} (h : Inv checks w) (hnew : w.envs id = none)
    (hzero : env.deployment = 0) :
    Inv checks { w with
      ids := id :: w.ids
      envs := update w.envs id (some env) } := by
  have hne : ∀ e, w.envs id ≠ some e := fun e he => nomatch hnew.symm.trans he
  refine h.setEnv List.mem_cons_self (List.subset_cons_self _ _) (fun e he => absurd he (hne e)) (fun n => ?_)
    fun _ e he => absurd he (hne e)
  rw [h.unmade _ n hnew, hzero]
  simp only [Option.isSome_none, Bool.false_eq_true, false_iff]
  omega

theorem Inv.step {e : Event C Q} (h : Inv checks w) (hstep : w.step checks e = some w') : Inv checks w' := by
  cases step_moved hstep with
  | create hnew hzero => exact h.create hnew hzero
  | begin hnew => exact h.of_still rfl rfl rfl rfl h.locks (fun l hl _ => hl) rfl trivial
  | advance he hx hs =>
    refine h.of_still rfl rfl rfl rfl h.locks (fun l hl _ => hl) rfl ?_
    exact (h.advance hx hs).keep (.of_eq rfl rfl) fun hl _ _ => ⟨hl, rfl, rfl⟩
  | @lock a x p env hx hs hfree henv hdel hcur =>
    have hplans : Plans checks w x.call p := by
      have hok := h.stages a x hx
      rwa [hs] at hok
    refine h.of_still rfl rfl rfl rfl (h.locks.take hfree) (fun l hl _ => List.mem_cons_of_mem _ hl) rfl ⟨?_, ?_⟩
    · exact hplans.grows (.of_eq rfl rfl)
    · exact ⟨List.mem_cons_self, env, henv, hcur, hdel⟩
  | @retry e a x he hx =>
    exact h.of_still rfl rfl rfl rfl (h.locks.release a) (fun l hl hne => mem_release.2 ⟨hl, hne⟩) rfl trivial
  | @answer e a x ans he hx hans =>
    exact h.of_still rfl rfl rfl rfl (h.locks.release a) (fun l hl hne => mem_release.2 ⟨hl, hne⟩) rfl trivial
  | insert hx hs henv hbase => exact h.insert hx hs henv hbase
  | addSecret hfree => exact h.setSecret hfree
  | dropSecret hfree => exact h.setSecret hfree
  | setState hd => exact h.setState hd
  | @markDeleting id env hfree henv =>
    refine h.setEnv (h.listed id env henv) (List.Subset.refl _) (fun e he => ?_) (fun n => h.numbered id env n henv)
      fun _ _ _ hl => hfree.not_held hl rfl rfl
    cases henv.symm.trans he
    exact ⟨rfl, le_rfl⟩

theorem inv_start : Inv checks (World.start : World C Q) where
  listed := fun _ _ he => nomatch he
  unmade := fun _ _ _ => rfl
  numbered := fun _ _ _ he => nomatch he
  line := fun _ _ _ hd => nomatch hd
  locks := compatible_nil
  stages := fun _ _ hx => nomatch hx

theorem inv_of_reach {ok : World C Q → Event C Q → Prop} (h : Reach (World.step checks) ok World.start w) : Inv checks w :=
  h.invariant inv_start fun _ _ _ hi _ hs => hi.step hs

end FeOS.Env
