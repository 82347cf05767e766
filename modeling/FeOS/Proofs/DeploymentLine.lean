import FeOS.Sanity.EnvLine

/-! Deployments of an environment form one line, whatever applies, secret changes and state
changes interleave: the numbers have no gap, each deployment was planned for the one before it, and
the answer of an apply is one for the deployment that is current. -/

namespace FeOS.Env

open RowLocks Runs Function

variable {C Q : Type} {checks : Checks C Q} {w w' : World C Q} {e : Event C Q}

def AnswerOk (checks : Checks C Q) (w w' : World C Q) (call : Call) (s : Stage C Q) : Answer → Prop
  | .deployed n => ∃ p env, s = .checked p ∧ p.parsed = call.parsed ∧ w.envs call.env = some env ∧ n = env.deployment + 1 ∧
      call.base = env.deployment ∧ w'.deployments call.env n = some ⟨p.norm, env.deployment, .waiting, p⟩
  | .unchanged n => ∃ p env d, s = .checked p ∧ p.parsed = call.parsed ∧ w.envs call.env = some env ∧ n = env.deployment ∧
      w.deployments call.env n = some d ∧ d.state ≠ .failed ∧ equalNormalised p.norm d.spec
  | .baseMismatch base current => base = call.base ∧ base ≠ current ∧ ∃ env, w.envs call.env = some env ∧
      current = env.deployment
  | .invalid findings =>
      (∃ n cur, s = .current n cur ∧ findings = call.parseFindings) ∨
      (∃ n others known context quota pins, s = .context n (w.specOf call.env n) others known ∧
        findings = (call.planOf n (w.specOf call.env n) others known context quota pins).findings checks) ∨
      ∃ p env quota, s = .locked p ∧ w.envs call.env = some env ∧ p.current = env.deployment ∧
        p.currentSpec = w.specOf call.env env.deployment ∧ findings = checks.quota quota p.currentSpec p.norm
  | .roleRequired => ∃ n others known, s = .context n (w.specOf call.env n) others known
  | .noEnvironment | .deleting | .tryAgain | .failed => True

/-- What a step makes of an apply: an attempt is for the deployment that is current when it begins
and for no other, and its answer is right. -/
structure Lawful (checks : Checks C Q) (w w' : World C Q) (x x' : Apply C Q) : Prop where
  call : x'.call = x.call
  begins : ∀ n, x.stage.number = none → x'.stage.number = some n → ∃ env, w.envs x.call.env = some env ∧ env.deployment = n
  keeps : ∀ n m, x.stage.number = some n → x'.stage.number = some m → m = n
  answers : ∀ ans, x'.stage = .done ans → x.stage = .done ans ∨ AnswerOk checks w w' x.call x.stage ans

theorem Lawful.same (x : Apply C Q) : Lawful checks w w' x x where
  call := rfl
  begins := fun n hnone hn => by
    rw [hnone] at hn
    cases hn
  keeps := fun n m hn hm => Option.some.inj (hm.symm.trans hn)
  answers := fun _ h => .inl h

theorem Lawful.advance {x : Apply C Q} {s : Stage C Q} (hs : Advances checks w x s) :
    Lawful checks w w' x { x with stage := s } := by
  have hnum : s.number = x.stage.number ∨ x.stage.number = none ∧ ∃ env, w.envs x.call.env = some env ∧
      s.number = some env.deployment := by
    cases hs with
    | @resolved env hs henv => exact .inr ⟨by rw [hs]; rfl, env, henv, rfl⟩
    | first hs | current hs | context hs | checked hs | planned hs => exact .inl (by rw [hs]; rfl)
  refine ⟨rfl, fun n hnone hn => ?_, fun n m hn hm => ?_, fun ans hdone => ?_⟩
  · obtain heq | ⟨-, env, henv, heq⟩ := hnum
    · cases hnone.symm.trans (heq.symm.trans hn)
    · exact ⟨env, henv, Option.some.inj (heq.symm.trans hn)⟩
  · obtain heq | ⟨hnone, -⟩ := hnum
    · exact Option.some.inj (hm.symm.trans (heq.trans hn))
    · cases hnone.symm.trans hn
  · dsimp only at hdone
    subst hdone
    cases hs

theorem answerOk_of_answers {a : ℕ} {x : Apply C Q} {ans : Answer} (h : Inv checks w) (hx : w.applies a = some x)
    (hans : Answers checks w x ans) : AnswerOk checks w w' x.call x.stage ans := by
  have hok := h.stages a x hx
  cases hans with
  | @unparsed n cur hs => exact .inl ⟨n, cur, hs, rfl⟩
  | @invalid n cur others known context quota pins hs =>
    rw [hs] at hok
    obtain ⟨-, rfl⟩ := hok
    exact .inr (.inl ⟨n, others, known, context, quota, pins, hs, rfl⟩)
  | @roleRequired n cur others known hs =>
    rw [hs] at hok
    obtain ⟨-, rfl⟩ := hok
    exact ⟨n, others, known, hs⟩
  | @moved p env hs henv hbase => exact ⟨rfl, hbase, env, henv, rfl⟩
  | @quota p quota hs =>
    rw [hs] at hok
    obtain ⟨hplans, -, env, henv, hcur, -⟩ := hok
    exact .inr (.inr ⟨p, env, quota, hs, henv, hcur.symm, hcur ▸ hplans.currentSpec, rfl⟩)
  | @unchanged p hs hsame =>
    rw [hs] at hok
    obtain ⟨hplans, ⟨-, env, henv, hcur, -⟩, -⟩ := hok
    simp only [World.isUnchanged, Bool.and_eq_true, decide_eq_true_eq] at hsame
    obtain ⟨⟨-, hequal⟩, hstate⟩ := hsame
    obtain ⟨d, hd, hstate⟩ := (Option.any_eq_true _ _).1 hstate
    rw [hplans.currentSpec, World.specOf, hd] at hequal
    exact ⟨p, env, d, hs, hplans.parsed, henv, hcur.symm, hd, of_decide_eq_true hstate, hequal⟩
  | mismatch hs hbase =>
    rw [hs] at hok
    obtain ⟨-, ⟨-, env, henv, hcur, -⟩, -⟩ := hok
    exact ⟨rfl, hbase, env, henv, hcur.symm⟩
  | noEnvironment | deleting | tryAgain | failed => trivial

theorem lawful_of_step (h : Inv checks w) (hstep : w.step checks e = some w') {a : ℕ} {x x' : Apply C Q}
    (hx : w.applies a = some x) (hx' : w'.applies a = some x') : Lawful checks w w' x x' := by
  have hsame : w'.applies = w.applies → Lawful checks w w' x x' := by
    intro heq
    rw [heq, hx] at hx'
    cases hx'
    exact .same x
  have hmoves : ∀ b y y', w.applies b = some y → w'.applies = update w.applies b (some y') →
      Lawful checks w w' y y' → Lawful checks w w' x x' := by
    intro b y y' hy heq hlaw
    rw [heq] at hx'
    rcases update_cases hx' with ⟨rfl, ⟨⟩⟩ | ⟨-, hx'⟩
    · cases hx.symm.trans hy
      exact hlaw
    · cases hx.symm.trans hx'
      exact .same x
  cases step_moved hstep with
  | create | addSecret | dropSecret | setState | markDeleting => exact hsame rfl
  | begin hnew =>
    rcases update_cases hx' with ⟨rfl, -⟩ | ⟨-, hx'⟩
    · cases hnew.symm.trans hx
    · cases hx.symm.trans hx'
      exact .same x
  | @advance e b y s he hy hs => exact hmoves b y _ hy rfl (.advance hs)
  | @lock b y p env hy hs hfree henv hdel hcur =>
    refine hmoves b y _ hy rfl ⟨rfl, ?_, ?_, fun _ hdone => nomatch hdone⟩
    · intro n hnone
      rw [hs] at hnone
      cases hnone
    · intro n m hn hm
      rw [hs] at hn
      exact Option.some.inj (hm.symm.trans hn)
  | @retry e b y he hy =>
    exact hmoves b y _ hy rfl ⟨rfl, (fun _ _ hn => nomatch hn), (fun _ _ _ hm => nomatch hm), (fun _ hdone => nomatch hdone)⟩
  | @answer e b y ans he hy hans =>
    refine hmoves b y _ hy rfl ⟨rfl, (fun _ _ hn => nomatch hn), (fun _ _ _ hm => nomatch hm), ?_⟩
    rintro _ ⟨rfl⟩
    exact .inr (answerOk_of_answers h hy hans)
  | @insert b y p env hy hs henv hbase =>
    refine hmoves b y _ hy rfl ⟨rfl, (fun _ _ hn => nomatch hn), (fun _ _ _ hm => nomatch hm), ?_⟩
    rintro _ ⟨rfl⟩
    obtain ⟨hplans, ⟨-, env', henv', hcur, -⟩, -⟩ := hs ▸ h.stages b y hy
    cases henv.symm.trans henv'
    refine .inr ⟨p, env, hs, hplans.parsed, henv, rfl, hbase.trans hcur.symm, ?_⟩
    rw [World.answer_deployments, World.insert_deployments, update_self, update_self, hbase, hcur]

theorem made_of_step (h : Inv checks w) (hstep : w.step checks e = some w') {env : String} {n : ℕ} {d : Deployment C Q}
    (hnew : w.deployments env n = none) (hd : w'.deployments env n = some d) :
    (∃ row, w.envs env = some row ∧ n = row.deployment + 1) ∧ w'.pinsExist env d.spec := by
  have hsame : w'.deployments = w.deployments → False := by
    intro heq
    rw [heq, hnew] at hd
    cases hd
  cases step_moved hstep with
  | create | begin | advance | lock | retry | answer | addSecret | dropSecret | markDeleting => exact (hsame rfl).elim
  | setState hd' =>
    rw [setState_eq_map hd', hnew] at hd
    cases hd
  | @insert a x p row hx hs hrow hbase =>
    obtain ⟨-, -, hpins, -⟩ := hs ▸ h.stages a x hx
    rw [World.answer_deployments, World.insert_deployments, update_apply] at hd
    split_ifs at hd with heq
    · subst heq
      rw [update_apply] at hd
      split_ifs at hd with hn
      · cases hd
        exact ⟨⟨row, hrow, hn⟩, hpins⟩
      · rw [World.replaced, hnew] at hd
        cases hd
    · rw [hnew] at hd
      cases hd

theorem unmoved_of_stale (h : Inv checks w) (hstep : w.step checks e = some w') {a : ℕ} {x : Apply C Q} {env : Environment}
    (hcaller : e.caller = some a) (hx : w.applies a = some x) (henv : w.envs x.call.env = some env)
    (hbase : x.call.base ≠ env.deployment) :
    w'.envs = w.envs ∧ w'.deployments = w.deployments ∧ w'.secrets = w.secrets := by
  cases step_moved hstep with
  | begin | advance | lock | retry | answer => exact ⟨rfl, rfl, rfl⟩
  | create | addSecret | dropSecret | setState | markDeleting => cases hcaller
  | insert hy hs henv' hb =>
    cases hcaller
    cases hx.symm.trans hy
    obtain ⟨-, ⟨-, row, hrow, hcur, -⟩, -⟩ := hs ▸ h.stages _ x hx
    cases henv.symm.trans hrow
    exact absurd (hb.trans hcur.symm) hbase

/-- In every state of every run, and of every step from it. -/
theorem deployments_form_line (h : Reach (World.step checks) (fun _ _ => True) World.start w) :
    (∀ env row n, w.envs env = some row → ((w.deployments env n).isSome ↔ 1 ≤ n ∧ n ≤ row.deployment)) ∧
    (∀ env n d, w.deployments env (n + 1) = some d → Lined checks w env n d) ∧
    ∀ e w', w.step checks e = some w' →
      (∀ env n d, w.deployments env n = none → w'.deployments env n = some d →
        (∃ row, w.envs env = some row ∧ n = row.deployment + 1) ∧ w'.pinsExist env d.spec) ∧
      (∀ a x x', w.applies a = some x → w'.applies a = some x' → Lawful checks w w' x x') ∧
      ∀ a x env, e.caller = some a → w.applies a = some x → w.envs x.call.env = some env → x.call.base ≠ env.deployment →
        w'.envs = w.envs ∧ w'.deployments = w.deployments ∧ w'.secrets = w.secrets := by
  have hinv := inv_of_reach h
  refine ⟨hinv.numbered, hinv.line, fun e w' hstep => ⟨?_, ?_, ?_⟩⟩
  · intro env n d hnew hd
    exact made_of_step hinv hstep hnew hd
  · intro a x x' hx hx'
    exact lawful_of_step hinv hstep hx hx'
  · intro a x env hcaller hx henv hbase
    exact unmoved_of_stale hinv hstep hcaller hx henv hbase

def sampleService : Service where
  runtime := .unset
  sandbox := ""
  command := []
  cwd := ""
  env := ⟨[("DB", .secret "db")], List.pairwise_singleton _ _⟩
  ports := [⟨"http", 8080⟩]
  imageCredentials := []
  rest := ""

def sampleSpec : Spec where
  services := ⟨[("web", sampleService)], List.pairwise_singleton _ _⟩
  jobs := .empty
  addons := .empty
  secrets := .empty
  bindings := .empty
  rest := ""

def samplePins : Pins where
  secrets := fun _ => 0
  plans := fun _ => ""
  service := fun svc => svc.rest
  job := fun j => j.rest
  binding := fun b => b.rest
  rest := fun r => r

def sampleChecks : Checks Unit Unit := ⟨fun _ _ _ => [], fun _ _ _ => []⟩

def sampleCall (env : String) (parsed : Spec) : Call := ⟨"tenant", env, parsed, [], 0, true⟩

def planEvents (a : ℕ) (call : Call) (known : List (String × List String)) : List (Event Unit Unit) :=
  [.apply a call, .resolve a, .readCurrent a, .readSandboxes a known, .plan a () () samplePins]

def txnEvents (a : ℕ) : List (Event Unit Unit) := [.lock a, .check a (), .commit a]

theorem deployments_form_line_first : ∃ w, Reach (World.step sampleChecks) (fun _ _ => True) World.start w ∧
    ∃ d ∈ w.deployments "env" 1, Lined sampleChecks w "env" 0 d ∧ d.spec.secrets.get "db" = some 1 := by
  obtain ⟨w, hreach, d, hd, hpin⟩ : ∃ w, Reach (World.step sampleChecks) (fun _ _ => True) World.start w ∧
      ∃ d ∈ w.deployments "env" 1, d.spec.secrets.get "db" = some 1 :=
    exists_follow ([.create "env" ⟨"tenant", "web", 0, false⟩, .putSecret "env" "db"] ++
        planEvents 0 (sampleCall "env" sampleSpec) [] ++ txnEvents 0) (by decide +kernel)
  exact ⟨w, hreach, d, hd, (deployments_form_line hreach).2.1 "env" 0 d hd, hpin⟩

end FeOS.Env
