import Mathlib
import FeOS.Spec.EnvRender

/-! What an apply that leaves the attached services as they are makes of their processes. The
check compares the services; the processes also depend on what their environments refer to. -/

namespace FeOS.Env

open Keyed List

variable {v : View} {cur next : Spec}

def Renders (v : View) (target : Spec) : EnvValue → Prop
  | .plain _ | .literal _ => True
  | .secret name => renderedVersion v target name ≠ 0
  | .addon name key fields => ∃ parts, addonParts v target name ⟨key, fields⟩ = .ok parts
  | .service name _ _ => (target.services.get name).isSome

/-- What the value refers to is the same in the two specs: a secret's version, an addon's output, a
service's port. -/
def Alike (v : View) (cur next : Spec) : EnvValue → Prop
  | .plain _ | .literal _ => True
  | .secret name => renderedVersion v cur name = renderedVersion v next name
  | .addon name key fields => addonParts v cur name ⟨key, fields⟩ = addonParts v next name ⟨key, fields⟩
  | .service name port key => key = "host" ∨
      (cur.services.get name).map (portOf · port) = (next.services.get name).map (portOf · port)

/-- Every value renders in both specs, to the same; or in neither of them does every value. -/
def EnvAlike (v : View) (cur next : Spec) (env : List (String × EnvValue)) : Prop :=
  (∀ p ∈ env, Renders v cur p.2 ∧ Renders v next p.2 ∧ Alike v cur next p.2) ∨
    (∃ p ∈ env, ¬ Renders v cur p.2) ∧ ∃ p ∈ env, ¬ Renders v next p.2

variable {k : String} {e : EnvValue} {env : List (String × EnvValue)} {ts : List (String × TemplateValue)}

theorem renders_iff : Renders v cur e ↔ ∃ t, renderValue v cur k e = .ok t := by
  cases e with
  | plain s => simp [Renders, renderValue]
  | literal s => simp [Renders, renderValue]
  | secret name =>
    rw [Renders, renderValue]
    split_ifs with h <;> simp [h]
  | addon name key fields =>
    rw [Renders, renderValue]
    cases addonParts v cur name ⟨key, fields⟩ <;> simp
  | service name port key =>
    rw [Renders, renderValue]
    cases target : cur.services.get name with
    | none => simp
    | some s => simp

theorem toString_injective {a b : ℤ} (h : toString a = toString b) : a = b := Int.repr_injective h

theorem serviceText_inj (name key : String) {m n : ℤ} :
    serviceText name key m = serviceText name key n ↔ key = "host" ∨ m = n := by
  unfold serviceText
  split_ifs with hhost hport
  · simp [hhost]
  · simp only [hhost, false_or]
    exact ⟨toString_injective, fun h => by rw [h]⟩
  · simp only [hhost, false_or, String.append_right_inj]
    exact ⟨toString_injective, fun h => by rw [h]⟩

theorem alike_iff {s t : TemplateValue} (hs : renderValue v cur k e = .ok s)
    (ht : renderValue v next k e = .ok t) : Alike v cur next e ↔ s = t := by
  cases e with
  | plain text =>
    cases hs
    cases ht
    simp [Alike]
  | literal text =>
    cases hs
    cases ht
    simp [Alike]
  | secret name =>
    rw [renderValue] at hs ht
    split_ifs at hs ht
    cases hs
    cases ht
    simp [Alike, TemplateValue.ofSecret]
  | addon name key fields =>
    rw [renderValue] at hs ht
    split at hs
    next => cases hs
    next parts hc =>
      split at ht
      next => cases ht
      next parts' hn =>
        cases hs
        cases ht
        rw [Alike, hc, hn]
        simp [TemplateValue.ofParts]
  | service name port key =>
    rw [renderValue] at hs ht
    split at hs
    next => cases hs
    next svc hsvc =>
      split at ht
      next => cases ht
      next svc' hsvc' =>
        cases hs
        cases ht
        rw [Alike, hsvc, hsvc']
        simp only [Option.map_some, Option.some.injEq]
        rw [← serviceText_inj name]
        simp [TemplateValue.literal]

theorem renderEnv_cons_ok :
    renderEnv v cur ((k, e) :: env) = .ok ts ↔
      ∃ t ts', renderValue v cur k e = .ok t ∧ renderEnv v cur env = .ok ts' ∧ ts = (k, t) :: ts' := by
  rw [renderEnv]
  cases renderValue v cur k e with
  | error u => simp [bind, Except.bind]
  | ok t => cases renderEnv v cur env <;> simp [bind, Except.bind, pure, Except.pure, eq_comm]

theorem renderEnv_ok_iff :
    (∃ ts, renderEnv v cur env = .ok ts) ↔ ∀ p ∈ env, Renders v cur p.2 := by
  induction env with
  | nil => simp [renderEnv]
  | cons p env ih =>
    obtain ⟨k, e⟩ := p
    simp only [renderEnv_cons_ok]
    rw [forall_mem_cons, ← ih, renders_iff (k := k)]
    constructor
    · rintro ⟨ts, t, ts', ht, hts', -⟩
      exact ⟨⟨t, ht⟩, ts', hts'⟩
    · rintro ⟨⟨t, ht⟩, ts', hts'⟩
      exact ⟨_, t, ts', ht, hts', rfl⟩

theorem renderEnv_eq_iff {ss : List (String × TemplateValue)}
    (hs : renderEnv v cur env = .ok ss) (ht : renderEnv v next env = .ok ts) :
    ss = ts ↔ ∀ p ∈ env, Alike v cur next p.2 := by
  induction env generalizing ss ts with
  | nil =>
    cases hs
    cases ht
    simp
  | cons p env ih =>
    obtain ⟨k, e⟩ := p
    obtain ⟨s, ss', hs1, hss', rfl⟩ := renderEnv_cons_ok.1 hs
    obtain ⟨t, ts', ht1, hts', rfl⟩ := renderEnv_cons_ok.1 ht
    rw [forall_mem_cons, ← ih hss' hts', alike_iff hs1 ht1]
    simp

theorem renderEnv_length (h : renderEnv v cur env = .ok ts) : ts.length = env.length := by
  induction env generalizing ts with
  | nil =>
    cases h
    rfl
  | cons p env ih =>
    obtain ⟨t, ts', -, hts', rfl⟩ := renderEnv_cons_ok.1 h
    rw [length_cons, length_cons, ih hts']

theorem rendered_ne_nil {u : Unrendered}
    (h : renderEnv v cur env = .ok ts) (hu : renderEnv v next env = .error u) : ts ≠ [] := by
  rintro rfl
  obtain rfl := length_eq_zero_iff.1 (renderEnv_length h).symm
  cases hu

theorem not_renders_of_error {u : Unrendered} (h : renderEnv v cur env = .error u) :
    ∃ p ∈ env, ¬ Renders v cur p.2 := by
  by_contra hall
  push Not at hall
  obtain ⟨ts, hts⟩ := renderEnv_ok_iff.2 hall
  cases h.symm.trans hts

theorem renders_of_ok (h : renderEnv v cur env = .ok ts) :
    ∀ p ∈ env, Renders v cur p.2 :=
  renderEnv_ok_iff.1 ⟨ts, h⟩

section Plan
variable {hashJSON : String → List String → String → List (String × TemplateValue) → String} {name : String} {svc : Service}

theorem process_eq_iff (hid : (parseID svc.sandbox).isSome) (hcmd : svc.command ≠ []) :
    (planAttached hashJSON v cur name svc).process = (planAttached hashJSON v next name svc).process ↔
      EnvAlike v cur next svc.env.items := by
  obtain ⟨id, hid⟩ := Option.isSome_iff_exists.1 hid
  simp only [planAttached, hid, if_neg hcmd]
  cases hc : renderEnv v cur svc.env.items with
  | error u =>
    have hcur := not_renders_of_error hc
    cases hn : renderEnv v next svc.env.items with
    | error u' =>
      refine iff_of_true rfl (.inr ⟨hcur, not_renders_of_error hn⟩)
    | ok ts =>
      refine iff_of_false (fun h => rendered_ne_nil hn hc (congrArg Process.env h).symm) ?_
      rintro (hall | ⟨-, p, hp, hnot⟩)
      · obtain ⟨p, hp, hnot⟩ := hcur
        exact hnot (hall p hp).1
      · exact hnot (renders_of_ok hn p hp)
  | ok ss =>
    have hcur := renders_of_ok hc
    cases hn : renderEnv v next svc.env.items with
    | error u =>
      refine iff_of_false (fun h => rendered_ne_nil hc hn (congrArg Process.env h)) ?_
      rintro (hall | ⟨⟨p, hp, hnot⟩, -⟩)
      · obtain ⟨p, hp, hnot⟩ := not_renders_of_error hn
        exact hnot (hall p hp).2.1
      · exact hnot (hcur p hp)
    | ok ts =>
      have hnext := renders_of_ok hn
      constructor
      · intro h
        have halike := (renderEnv_eq_iff hc hn).1 (congrArg Process.env h)
        exact .inl fun p hp => ⟨hcur p hp, hnext p hp, halike p hp⟩
      · rintro (hall | ⟨⟨p, hp, hnot⟩, -⟩)
        · rw [(renderEnv_eq_iff hc hn).2 fun p hp => (hall p hp).2.2]
        · exact absurd (hcur p hp) hnot

theorem process_eq_of_no_process (h : ¬ ((parseID svc.sandbox).isSome ∧ svc.command ≠ [])) :
    (planAttached hashJSON v cur name svc).process = (planAttached hashJSON v next name svc).process := by
  unfold planAttached
  cases hid : parseID svc.sandbox with
  | none => rfl
  | some id =>
    have hcmd : svc.command = [] := by
      by_contra hne
      exact h ⟨by rw [hid]; rfl, hne⟩
    simp only [if_pos hcmd]

/-- An apply that `checkAttached` lets pass without write on the tenant leaves the processes as they
are exactly when what their environments refer to is alike in the two specs. -/
theorem processes_same_iff_alike
    (hashJSON : String → List String → String → List (String × TemplateValue) → String) (v : View) (cur next : Spec)
    (hok : checkAttached false (some cur) next = true) :
    (∀ name svc, (name, svc) ∈ (attachedServices (some cur)).items ∨ (name, svc) ∈ (attachedServices (some next)).items →
      (planAttached hashJSON v cur name svc).process = (planAttached hashJSON v next name svc).process) ↔
    ∀ name svc, (name, svc) ∈ (attachedServices (some cur)).items → (parseID svc.sandbox).isSome → svc.command ≠ [] →
      EnvAlike v cur next svc.env.items := by
  have hsame : attachedServices (some cur) = attachedServices (some next) := by
    simpa [checkAttached] using hok
  rw [← hsame]
  constructor
  · intro h name svc hsvc hid hcmd
    exact (process_eq_iff hid hcmd).1 (h name svc (.inl hsvc))
  · intro h name svc hsvc
    by_cases hp : (parseID svc.sandbox).isSome ∧ svc.command ≠ []
    · exact (process_eq_iff hp.1 hp.2).2 (h name svc (hsvc.elim id id) hp.1 hp.2)
    · exact process_eq_of_no_process hp

end Plan

/-! Two applies of one spec -/

def tokenService (token : EnvValue) : Service where
  runtime := .attached
  sandbox := "a0123456789"
  command := ["serve"]
  cwd := "/"
  env := ⟨[("TOKEN", token)], pairwise_singleton _ _⟩
  ports := []
  imageCredentials := []
  rest := ""

def tokenSpec (token : EnvValue) : Spec where
  services := ⟨[("agent", tokenService token)], pairwise_singleton _ _⟩
  jobs := .empty
  addons := .empty
  secrets := .empty
  bindings := .empty
  rest := ""

/-- the pins when the latest version of every secret is this -/
def pinsAt (latest : ℤ) : Pins where
  secrets := fun _ => latest
  plans := fun _ => ""
  service := fun svc => svc.rest
  job := fun j => j.rest
  binding := fun b => b.rest
  rest := fun r => r

def sampleView : View where
  env := "web"
  secrets := fun _ => 2
  address := fun _ => ""
  blueprint := fun _ => none

theorem processes_same_iff_alike_literal :
    checkAttached false (some (normalise (pinsAt 1) (tokenSpec (.plain "t"))))
      (normalise (pinsAt 2) (tokenSpec (.plain "t"))) = true ∧
    ∀ name svc, (name, svc) ∈ (attachedServices (some (normalise (pinsAt 1) (tokenSpec (.plain "t"))))).items →
      (planAttached (fun _ _ _ _ => "hash") sampleView (normalise (pinsAt 1) (tokenSpec (.plain "t"))) name svc).process =
      (planAttached (fun _ _ _ _ => "hash") sampleView
        (normalise (pinsAt 2) (tokenSpec (.plain "t"))) name svc).process := by
  have hok : checkAttached false (some (normalise (pinsAt 1) (tokenSpec (.plain "t"))))
      (normalise (pinsAt 2) (tokenSpec (.plain "t"))) = true := by
    decide +kernel
  refine ⟨hok, fun name svc hsvc => ?_⟩
  refine (processes_same_iff_alike _ sampleView _ _ hok).2 ?_ name svc (.inl hsvc)
  intro name svc hsvc _ _
  have hitems : (attachedServices (some (normalise (pinsAt 1) (tokenSpec (.plain "t"))))).items =
      [("agent", tokenService (.plain "t"))] := by
    decide +kernel
  rw [hitems, mem_singleton] at hsvc
  cases hsvc
  refine .inl fun p hp => ?_
  rw [mem_singleton.1 hp]
  exact ⟨trivial, trivial, trivial⟩

/-- A new version of a secret, and the same spec applied again, change what runs in the sandbox. -/
theorem pin_changes_process :
    checkAttached false (some (normalise (pinsAt 1) (tokenSpec (.secret "db"))))
      (normalise (pinsAt 2) (tokenSpec (.secret "db"))) = true ∧
    ∃ svc, ("agent", svc) ∈ (attachedServices (some (normalise (pinsAt 1) (tokenSpec (.secret "db"))))).items ∧
      (planAttached (fun _ _ _ _ => "hash") sampleView
        (normalise (pinsAt 1) (tokenSpec (.secret "db"))) "agent" svc).process ≠
      (planAttached (fun _ _ _ _ => "hash") sampleView
        (normalise (pinsAt 2) (tokenSpec (.secret "db"))) "agent" svc).process := by
  refine ⟨by decide +kernel, tokenService (.secret "db"), by decide +kernel, by decide +kernel⟩

end FeOS.Env
