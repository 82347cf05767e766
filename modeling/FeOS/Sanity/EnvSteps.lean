import FeOS.Spec.EnvApply

/-! What a step of the applies can do: an apply reads on, locks, begins again, answers or inserts
the next deployment, or something other than an apply happens. -/

namespace FeOS.Env

open RowLocks

variable {C Q : Type} {checks : Checks C Q} {w w' : World C Q} {x : Apply C Q} {e : Event C Q} {a : ℕ}

namespace World

@[simp] theorem answer_envs (ans : Answer) : (w.answer a x ans).envs = w.envs := rfl

@[simp] theorem answer_deployments (ans : Answer) : (w.answer a x ans).deployments = w.deployments := rfl

end World

def Stage.number : Stage C Q → Option ℕ
  | .start => none
  | .resolved n => some n
  | .current n _ => some n
  | .context n _ _ _ => some n
  | .planned p => some p.current
  | .locked p => some p.current
  | .checked p => some p.current
  | .done _ => none

def Event.caller : Event C Q → Option ℕ
  | .apply a _ | .resolve a | .readCurrent a | .readSandboxes a _ | .plan a .. | .lock a | .check a _ | .commit a
  | .fail a =>
    some a
  | _ => none

inductive Advances (checks : Checks C Q) (w : World C Q) (x : Apply C Q) : Stage C Q → Prop
  | resolved {env} (hs : x.stage = .start) (henv : w.envs x.call.env = some env) (howner : env.owner = x.call.tenant)
      (hdel : env.deleting = false) : Advances checks w x (.resolved env.deployment)
  | first (hs : x.stage = .resolved 0) : Advances checks w x (.current 0 none)
  | current {n d} (hs : x.stage = .resolved n) (hd : w.deployments x.call.env n = some d) :
      Advances checks w x (.current n (some d.spec))
  | context {n cur known} (hs : x.stage = .current n cur) (hparse : hasErrors x.call.parseFindings = false) :
      Advances checks w x (.context n cur (w.otherSpecs x.call.tenant x.call.env) known)
  | planned {n cur others known context quota pins} (hs : x.stage = .context n cur others known)
      (hvalid : (x.call.planOf n cur others known context quota pins).valid checks)
      (hok : (x.call.planOf n cur others known context quota pins).attachedOk) :
      Advances checks w x (.planned (x.call.planOf n cur others known context quota pins))
  | checked {p quota} (hs : x.stage = .locked p) (hpins : w.pinsExist x.call.env p.norm)
      (hquota : checks.quota quota p.currentSpec p.norm = []) : Advances checks w x (.checked p)

/-- An answer that an apply gives without a deployment, of what it read. -/
inductive Answers (checks : Checks C Q) (w : World C Q) (x : Apply C Q) : Answer → Prop
  | unparsed {n cur} (hs : x.stage = .current n cur) : Answers checks w x (.invalid x.call.parseFindings)
  | invalid {n cur others known context quota pins} (hs : x.stage = .context n cur others known) :
      Answers checks w x (.invalid ((x.call.planOf n cur others known context quota pins).findings checks))
  | roleRequired {n cur others known} (hs : x.stage = .context n cur others known) : Answers checks w x .roleRequired
  | moved {p env} (hs : x.stage = .planned p) (henv : w.envs x.call.env = some env)
      (hbase : x.call.base ≠ env.deployment) : Answers checks w x (.baseMismatch x.call.base env.deployment)
  | quota {p quota} (hs : x.stage = .locked p) : Answers checks w x (.invalid (checks.quota quota p.currentSpec p.norm))
  | unchanged {p} (hs : x.stage = .checked p) (hsame : w.isUnchanged x.call.env p) :
      Answers checks w x (.unchanged p.current)
  | mismatch {p} (hs : x.stage = .checked p) (hbase : x.call.base ≠ p.current) :
      Answers checks w x (.baseMismatch x.call.base p.current)
  | noEnvironment : Answers checks w x .noEnvironment
  | deleting : Answers checks w x .deleting
  | tryAgain : Answers checks w x .tryAgain
  | failed : Answers checks w x .failed

inductive Moved (checks : Checks C Q) (w : World C Q) : Event C Q → World C Q → Prop
  | create {id env} (hnew : w.envs id = none) (hzero : env.deployment = 0) :
      Moved checks w (.create id env) { w with
        ids := id :: w.ids
        envs := Function.update w.envs id (some env) }
  | begin {a call} (hnew : w.applies a = none) : Moved checks w (.apply a call) (w.setApply a ⟨call, 0, .start⟩)
  | advance {e : Event C Q} {a x s} (he : e.caller = some a) (hx : w.applies a = some x) (hs : Advances checks w x s) :
      Moved checks w e (w.setApply a { x with stage := s })
  | lock {a x p env} (hx : w.applies a = some x) (hs : x.stage = .planned p) (hfree : Free w.locks x.call.env .update)
      (henv : w.envs x.call.env = some env) (hdel : env.deleting = false) (hcur : env.deployment = p.current) :
      Moved checks w (.lock a) (World.setApply { w with locks := ⟨a, x.call.env, .update⟩ :: w.locks } a
        { x with stage := .locked p })
  | retry {e : Event C Q} {a x} (he : e.caller = some a) (hx : w.applies a = some x) :
      Moved checks w e ((w.unlock a).setApply a { x with
        attempts := x.attempts + 1
        stage := .start })
  | answer {e : Event C Q} {a x ans} (he : e.caller = some a) (hx : w.applies a = some x)
      (hans : Answers checks w x ans) : Moved checks w e (w.answer a x ans)
  | insert {a x p env} (hx : w.applies a = some x) (hs : x.stage = .checked p) (henv : w.envs x.call.env = some env)
      (hbase : x.call.base = p.current) :
      Moved checks w (.commit a) ((w.insert x.call.env env x.call.base p).answer a x (.deployed (env.deployment + 1)))
  | addSecret {env name} (hfree : Free w.locks env .update) : Moved checks w (.putSecret env name) (w.addSecret env name)
  | dropSecret {env name} (hfree : Free w.locks env .update) :
      Moved checks w (.deleteSecret env name) (w.dropSecret env name)
  | setState {env n d state} (hd : w.deployments env n = some d) :
      Moved checks w (.setState env n state) (w.setState env n d state)
  | markDeleting {id env} (hfree : Free w.locks id .update) (henv : w.envs id = some env) :
      Moved checks w (.markDeleting id) { w with envs := Function.update w.envs id (some { env with deleting := true }) }

theorem replan_moved (he : e.caller = some a) (hx : w.applies a = some x) : Moved checks w e (w.replan a x) := by
  unfold World.replan
  split_ifs
  · exact .retry he hx
  · exact .answer he hx .tryAgain

theorem lock_moved {p : Planned C Q} (hx : w.applies a = some x) (hs : x.stage = .planned p)
    (hfree : Free w.locks x.call.env .update) : Moved checks w (.lock a) (w.lockStep a x p) := by
  unfold World.lockStep
  split
  next henv => exact .answer rfl hx .noEnvironment
  next env henv =>
    split_ifs with hdel hcur hbase
    · exact .answer rfl hx .deleting
    · exact replan_moved rfl hx
    · exact .answer rfl hx (.moved hs henv hbase)
    · exact .lock hx hs hfree henv (Bool.eq_false_iff.2 hdel) (not_not.1 hcur)

theorem commit_moved {p : Planned C Q} (hx : w.applies a = some x) (hs : x.stage = .checked p) :
    Moved checks w (.commit a) (w.commitStep a x p) := by
  unfold World.commitStep
  split_ifs with hsame hbase
  · exact .answer rfl hx (.unchanged hs hsame)
  · exact .answer rfl hx (.mismatch hs hbase)
  · split
    next henv => exact .answer rfl hx .failed
    next env henv => exact .insert hx hs henv (not_not.1 hbase)

theorem step_moved (h : w.step checks e = some w') : Moved checks w e w' := by
  revert h
  fun_cases World.step checks w e <;> intro h <;> try cases h
  case case1 id env hc => exact .create hc.1 hc.2.2
  case case3 a call hx => exact .begin hx
  case case5 a x hx hs henv => exact .answer rfl hx .noEnvironment
  case case6 a x hx hs env henv howner => exact .answer rfl hx .noEnvironment
  case case7 a x hx hs env henv howner hdel => exact .answer rfl hx .deleting
  case case8 a x hx hs env henv howner hdel =>
    exact .advance rfl hx (.resolved hs henv (not_not.1 howner) (Bool.eq_false_iff.2 hdel))
  case case11 a x hx hs => exact .advance rfl hx (.first hs)
  case case12 a x hx n hs hne hd => exact .answer rfl hx .failed
  case case13 a x hx n hs hne d hd => exact .advance rfl hx (.current hs hd)
  case case16 a known x hx n cur hs hparse => exact .answer rfl hx (.unparsed hs)
  case case17 a known x hx n cur hs hparse =>
    exact .advance rfl hx (.context hs (Bool.eq_false_iff.2 hparse))
  case case20 a context quota pins x hx n cur others known hs p hvalid =>
    exact .answer rfl hx (.invalid hs)
  case case21 a context quota pins x hx n cur others known hs p hvalid hok =>
    exact .answer rfl hx (.roleRequired hs)
  case case22 a context quota pins x hx n cur others known hs p hvalid hok =>
    exact .advance rfl hx (.planned hs (not_not.1 hvalid) (not_not.1 hok))
  case case25 a x hx p hs hfree => exact lock_moved hx hs hfree
  case case29 a quota x hx p hs hpins => exact replan_moved rfl hx
  case case30 a quota x hx p hs hpins hquota => exact .answer rfl hx (.quota hs)
  case case31 a quota x hx p hs hpins hquota =>
    exact .advance rfl hx (.checked hs (not_not.1 hpins) (not_not.1 hquota))
  case case34 a x hx p hs => exact commit_moved hx hs
  case case38 a x hx hs => exact .answer rfl hx .failed
  case case40 env name hfree => exact .addSecret hfree
  case case43 env name hfree sp hsp hc => exact .dropSecret hfree
  case case44 env name hfree hsp => exact .dropSecret hfree
  case case46 env n state =>
    obtain ⟨d, hd, rfl⟩ := Option.map_eq_some_iff.1 h
    exact .setState hd
  case case47 id hfree =>
    obtain ⟨env, henv, rfl⟩ := Option.map_eq_some_iff.1 h
    exact .markDeleting hfree henv

end FeOS.Env
