import Mathlib
import FeOS.Proofs.DeploymentLine

/-! The places that attached services of two environments have in one sandbox, their ports and
names: an apply checks its own against the specs that it read of the other environments, and locks
its own environment only. -/

namespace FeOS.Env

open Keyed RowLocks Runs Function List

variable {C Q : Type} {checks : Checks C Q} {w w' w₀ : World C Q} {e : Event C Q}

def Clash (s t : Spec) : Prop :=
  ∃ sb, attachedIn s sb ≠ [] ∧ attachedIn t sb ≠ [] ∧
    ((∃ p ∈ attachedIn s sb, ∃ q ∈ attachedIn t sb, ∃ x ∈ p.2.ports, ∃ y ∈ q.2.ports, x.port = y.port) ∨
      ∃ name ∈ sandboxNames s sb, name ∈ sandboxNames t sb)

variable {s t : Spec} {row : Environment}

theorem Clash.symm (h : Clash s t) : Clash t s := by
  obtain ⟨sb, hs, ht, ⟨p, hp, q, hq, x, hx, y, hy, hport⟩ | ⟨name, hname, hname'⟩⟩ := h
  · exact ⟨sb, ht, hs, .inl ⟨q, hq, p, hp, y, hy, x, hx, hport.symm⟩⟩
  · exact ⟨sb, ht, hs, .inr ⟨name, hname', hname⟩⟩

/-- The spec is the current deployment's of an environment of the owner, which is not being deleted. -/
def Placed (w : World C Q) (id owner : String) (sp : Spec) : Prop :=
  ∃ env, w.envs id = some env ∧ env.owner = owner ∧ env.deleting = false ∧ w.currentSpec id = some sp

/-- No two environments of a tenant claim the same place in a sandbox. -/
def PlacesApart (w : World C Q) : Prop :=
  ∀ id id' owner sp sp', id ≠ id' → Placed w id owner sp → Placed w id' owner sp' → ¬ Clash sp sp'

/-! What validation finds -/

theorem toLower_of_short {s : String} (h : validShort s) : s.toLower = s := by
  have hid : idAlphabet.all (fun c => c.toLower = c) = true := by decide
  simp only [validShort, decide_eq_true_eq, all_eq_true] at h hid
  rw [← String.toList_inj, String.toLower, String.toList_map]
  exact (map_congr_left fun c hc => hid c (h.2.2 c hc)).trans (map_id _)

theorem parseID_eq {s id : String} (h : parseID s = some id) : id = s.toLower := by
  unfold parseID at h
  split_ifs at h with hshort huuid
  · cases h
    exact (toLower_of_short hshort).symm
  · cases h
    rfl

def HasError (fs : List Finding) : Prop := ∃ f ∈ fs, f.severity = .error

variable {fs gs : List Finding} {p : Planned C Q}

theorem HasError.left (h : HasError fs) : HasError (fs ++ gs) := by
  obtain ⟨f, hf, herr⟩ := h
  exact ⟨f, mem_append_left _ hf, herr⟩

theorem HasError.right (h : HasError gs) : HasError (fs ++ gs) := by
  obtain ⟨f, hf, herr⟩ := h
  exact ⟨f, mem_append_right _ hf, herr⟩

theorem HasError.flatMap {α : Type} {l : List α} {f : α → List Finding} {x : α} (hx : x ∈ l) (h : HasError (f x)) :
    HasError (l.flatMap f) := by
  obtain ⟨g, hg, herr⟩ := h
  exact ⟨g, mem_flatMap.2 ⟨x, hx, hg⟩, herr⟩

theorem hasErrors_eq_true : hasErrors fs = true ↔ HasError fs := by
  simp [hasErrors, HasError]

section Validate
variable {sandboxes : String → Option SandboxInfo} {s : Spec} {name : String} {svc : Service}

theorem known_or_error (sandboxes : String → Option SandboxInfo) (path id : String) :
    (id ≠ "" ∧ (sandboxes id.toLower).isSome) ∨ HasError (checkSandbox sandboxes path id) := by
  unfold checkSandbox
  split_ifs with hempty
  · exact .inr ⟨_, mem_singleton_self _, rfl⟩
  · split
    next => exact .inr ⟨_, mem_singleton_self _, rfl⟩
    next sid hsid =>
      obtain rfl := parseID_eq hsid
      split
      next => exact .inr ⟨_, mem_singleton_self _, rfl⟩
      next info hinfo => exact .inl ⟨hempty, by rw [hinfo]; rfl⟩

variable {info : SandboxInfo} {ap : AttachedPort}

variable {sandbox : String} {pt : Port}

theorem attachedPort_error {i : ℕ} {used : Used}
    (hinfo : sandboxes sandbox.toLower = some info) (hap : ap ∈ info.attachedPorts) (hport : ap.port = pt.port) :
    HasError (attachedPort sandboxes name sandbox i pt used).1 := by
  unfold attachedPort
  dsimp only
  split
  · exact ⟨_, mem_singleton_self _, rfl⟩
  · rw [hinfo]
    exact ⟨_, mem_map.2 ⟨ap, mem_filter.2 ⟨hap, decide_eq_true hport⟩, rfl⟩, rfl⟩

theorem servicePorts_error {ports : List Port}
    (hinfo : sandboxes sandbox.toLower = some info) (hap : ap ∈ info.attachedPorts) (hport : ap.port = pt.port)
    (hpt : pt ∈ ports) (i : ℕ) (used : Used) : HasError (servicePorts sandboxes name sandbox i ports used).1 := by
  induction ports generalizing i used with
  | nil => cases hpt
  | cons p ports ih =>
    rw [servicePorts]
    rcases mem_cons.1 hpt with rfl | hpt
    · exact (attachedPort_error hinfo hap hport).left
    · exact (ih hpt (i + 1) _).right

theorem attachedPorts_error {services : List (String × Service)}
    (hsvc : (name, svc) ∈ services) (hrun : svc.runtime = .attached) (hsb : svc.sandbox ≠ "")
    (hinfo : sandboxes svc.sandbox.toLower = some info) (hap : ap ∈ info.attachedPorts) (hport : ap.port = pt.port)
    (hpt : pt ∈ svc.ports) (used : Used) : HasError (attachedPorts sandboxes services used) := by
  induction services generalizing used with
  | nil => cases hsvc
  | cons p services ih =>
    rw [attachedPorts]
    rcases mem_cons.1 hsvc with rfl | hsvc
    · rw [if_neg (by simp [hrun, hsb])]
      exact (servicePorts_error hinfo hap hport hpt 0 used).left
    · split_ifs
      · exact ih hsvc used
      · exact (ih hsvc _).right

theorem checkNames_error {sb : String} {hn : SandboxName} (hname : name ∈ sandboxNames s sb)
    (hmem : hn ∈ info.names) (heq : hn.name = name) : HasError (checkNames s sb info) := by
  refine HasError.right (HasError.flatMap (mem_dedup.2 hname) ?_)
  have henv : hn.env ∈ ((info.names.filter fun hn => hn.name = name).map SandboxName.env).dedup :=
    mem_dedup.2 (mem_map.2 ⟨hn, mem_filter.2 ⟨hmem, decide_eq_true heq⟩, rfl⟩)
  exact ⟨_, mem_map.2 ⟨hn.env, henv, rfl⟩, rfl⟩

theorem sandbox_known (hok : ¬ HasError (validateAttached sandboxes s)) (hsvc : (name, svc) ∈ s.services.items)
    (hrun : svc.runtime = .attached) : svc.sandbox ≠ "" ∧ ∃ info, sandboxes svc.sandbox.toLower = some info := by
  rcases known_or_error sandboxes ("services." ++ name ++ ".sandbox") svc.sandbox with hknown | herr
  · exact ⟨hknown.1, Option.isSome_iff_exists.1 hknown.2⟩
  · refine absurd ?_ hok
    exact (HasError.flatMap (mem_filter.2 ⟨hsvc, decide_eq_true hrun⟩) herr).left.left

end Validate

theorem mem_attachedIn {sb name : String} {svc : Service} :
    (name, svc) ∈ attachedIn s sb ↔ (name, svc) ∈ s.services.items ∧ svc.runtime = .attached ∧ svc.sandbox.toLower = sb := by
  simp [attachedIn, inSandbox]

theorem not_clash_of_valid {o : String × Spec} (hvalid : p.valid checks) (ho : o ∈ p.others) :
    ¬ Clash p.parsed o.2 := by
  have hok : ¬ HasError (validateAttached p.sandboxes p.parsed) := by
    intro herr
    have : hasErrors (p.findings checks) = true := hasErrors_eq_true.2 (herr.right.left)
    simp [Planned.valid, this] at hvalid
  rintro ⟨sb, hs, ht, hclash⟩
  have hinfo : ∀ name svc, (name, svc) ∈ attachedIn p.parsed sb →
      svc.sandbox ≠ "" ∧ ∃ http, p.sandboxes sb = some (sandboxInfo p.others sb http) := by
    intro name svc hmem
    obtain ⟨hsvc, hrun, rfl⟩ := mem_attachedIn.1 hmem
    obtain ⟨hne, info, hinfo⟩ := sandbox_known hok hsvc hrun
    obtain ⟨http, -, rfl⟩ := Option.map_eq_some_iff.1 hinfo
    exact ⟨hne, http, hinfo⟩
  rcases hclash with ⟨⟨name, svc⟩, hsvc, ⟨name', svc'⟩, hsvc', x, hx, y, hy, hport⟩ | ⟨name, hname, hname'⟩
  · -- a port
    obtain ⟨hne, http, hsandbox⟩ := hinfo name svc hsvc
    obtain ⟨hmem, hrun, hsb⟩ := mem_attachedIn.1 hsvc
    have hap : (⟨o.1, name', y.port⟩ : AttachedPort) ∈ (sandboxInfo p.others sb http).attachedPorts :=
      mem_flatMap.2 ⟨o, ho, mem_flatMap.2 ⟨_, hsvc', mem_map.2 ⟨y, hy, rfl⟩⟩⟩
    refine hok (HasError.left (HasError.right ?_))
    exact attachedPorts_error hmem hrun hne (hsb ▸ hsandbox) hap hport.symm hx []
  · -- a name
    obtain ⟨⟨name1, svc⟩, hsvc⟩ := exists_mem_of_ne_nil _ hs
    obtain ⟨hne, http, hsandbox⟩ := hinfo name1 svc hsvc
    obtain ⟨hmem, hrun, hsb⟩ := mem_attachedIn.1 hsvc
    have hhn : (⟨o.1, name⟩ : SandboxName) ∈ (sandboxInfo p.others sb http).names := by
      refine mem_flatMap.2 ⟨o, ho, ?_⟩
      rw [if_neg ht]
      exact mem_map.2 ⟨name, hname', rfl⟩
    have hsbs : sb ∈ attachedSandboxes p.parsed :=
      mem_dedup.2 (mem_map.2 ⟨_, mem_filter.2 ⟨hmem, decide_eq_true ⟨hrun, hne⟩⟩, hsb⟩)
    refine hok (HasError.right (HasError.flatMap hsbs ?_))
    rw [hsandbox]
    exact checkNames_error hname hhn rfl

/-! The normal form has the places of the spec -/

theorem inSandbox_normService (pins : Pins) (sb : String) (svc : Service) :
    inSandbox sb (normService pins svc) = inSandbox sb svc := by
  have hrun : (normService pins svc).runtime = .attached ↔ svc.runtime = .attached := by
    rw [normService]
    dsimp only
    split_ifs with hunset
    · simp [hunset]
    · rfl
  simp only [inSandbox, hrun]
  rfl

theorem attachedIn_normalise (pins : Pins) (s : Spec) (sb : String) :
    attachedIn (normalise pins s) sb = (attachedIn s sb).map fun p => (p.1, normService pins p.2) := by
  rw [attachedIn, attachedIn, normalise, Table.map, filter_map]
  congr 1
  exact filter_congr fun p _ => inSandbox_normService pins sb p.2

theorem sandboxNames_normalise (pins : Pins) (s : Spec) (sb : String) :
    sandboxNames (normalise pins s) sb = sandboxNames s sb := by
  rw [sandboxNames, sandboxNames, normalise]
  rw [Table.keys_map, Table.map, filter_map, map_map]
  congr 2
  refine filter_congr fun p _ => ?_
  rw [Function.comp_apply, normService]
  cases p.2.runtime <;> rfl

theorem clash_normalise {pins : Pins} (h : Clash (normalise pins s) t) : Clash s t := by
  obtain ⟨sb, hs, ht, hclash⟩ := h
  rw [attachedIn_normalise] at hs hclash
  rw [sandboxNames_normalise] at hclash
  refine ⟨sb, fun hnil => hs (by rw [hnil]; rfl), ht, hclash.imp_left ?_⟩
  rintro ⟨p, hp, q, hq, x, hx, y, hy, hport⟩
  obtain ⟨p₀, hp₀, rfl⟩ := mem_map.1 hp
  exact ⟨p₀, hp₀, q, hq, x, hx, y, hy, hport⟩

/-! Runs -/

def shares (s t : Spec) : Bool := s.services.items.any fun p => p.2.runtime = .attached ∧
    attachedIn t p.2.sandbox.toLower ≠ []

theorem Clash.shares (h : Clash s t) : shares s t = true := by
  obtain ⟨sb, hs, ht, -⟩ := h
  obtain ⟨⟨name, svc⟩, hsvc⟩ := exists_mem_of_ne_nil _ hs
  obtain ⟨hmem, hrun, rfl⟩ := mem_attachedIn.1 hsvc
  exact any_eq_true.2 ⟨_, hmem, decide_eq_true ⟨hrun, ht⟩⟩

/-- The plan of an apply that commits has read the current spec of every other environment of the
tenant that has an attached service in one of the spec's sandboxes. -/
def hasRead (w : World C Q) (x : Apply C Q) : Bool :=
  match x.stage with
  | .checked p => (w.otherSpecs x.call.tenant x.call.env).all fun o => shares p.parsed o.2 → o ∈ p.others
  | _ => true

def upToDate (w : World C Q) : Event C Q → Bool
  | .commit a => (w.applies a).all (hasRead w)
  | _ => true

theorem mem_otherSpecs {tenant env id : String} {sp : Spec} (hlisted : id ∈ w.ids)
    (hrow : w.envs id = some row) (hne : id ≠ env) (howner : row.owner = tenant) (hdel : row.deleting = false)
    (hsp : w.currentSpec id = some sp) : (row.name, sp) ∈ w.otherSpecs tenant env := by
  refine mem_filterMap.2 ⟨id, hlisted, ?_⟩
  rw [hrow, Option.bind_some, if_pos ⟨hne, howner, hdel⟩, hsp, Option.map_some]

theorem currentSpec_eq {id : String} (hrow : w.envs id = some row) :
    w.currentSpec id = w.specOf id row.deployment := by
  rw [World.currentSpec, hrow]
  rfl

theorem PlacesApart.of_placed (h : PlacesApart w) (hplaced : ∀ id owner sp, Placed w' id owner sp → Placed w id owner sp) :
    PlacesApart w' :=
  fun id id' owner sp sp' hne hp hp' => h id id' owner sp sp' hne (hplaced _ _ _ hp) (hplaced _ _ _ hp')

theorem PlacesApart.insert {a : ℕ} {x : Apply C Q} (h : PlacesApart w) (hinv : Inv checks w)
    (hx : w.applies a = some x) (hs : x.stage = .checked p) (hrow : w.envs x.call.env = some row)
    (hread : ∀ o ∈ w.otherSpecs x.call.tenant x.call.env, shares p.parsed o.2 → o ∈ p.others) :
    PlacesApart ((w.insert x.call.env row x.call.base p).answer a x (.deployed (row.deployment + 1))) := by
  obtain ⟨hplans, -⟩ := hs ▸ hinv.stages a x hx
  obtain ⟨row', hrow', howner, -⟩ := hplans.seen
  cases hrow.symm.trans hrow'
  set w1 := (w.insert x.call.env row x.call.base p).answer a x (.deployed (row.deployment + 1)) with hw1
  -- the environment of the apply has the plan's spec, any other what it had
  have hown : ∀ owner sp, Placed w1 x.call.env owner sp → owner = x.call.tenant ∧ sp = p.norm := by
    rintro owner sp ⟨env, henv, rfl, -, hsp⟩
    rw [currentSpec_eq henv, World.specOf, hw1, World.answer_deployments, World.insert_deployments, update_self] at hsp
    rw [hw1, World.answer_envs, World.insert_envs, update_self] at henv
    cases henv
    rw [update_self] at hsp
    exact ⟨howner, (Option.some.inj hsp).symm⟩
  have hother : ∀ id owner sp, id ≠ x.call.env → Placed w1 id owner sp → Placed w id owner sp := by
    rintro id owner sp hne ⟨env, henv, howner, hdel, hsp⟩
    rw [currentSpec_eq henv, World.specOf, hw1, World.answer_deployments, World.insert_deployments, update_of_ne hne] at hsp
    rw [hw1, World.answer_envs, World.insert_envs, update_of_ne hne] at henv
    exact ⟨env, henv, howner, hdel, (currentSpec_eq henv).trans hsp⟩
  have hnew : ∀ id sp, id ≠ x.call.env → Placed w1 id x.call.tenant sp → ¬ Clash p.norm sp := by
    intro id sp hne hp hclash
    obtain ⟨env, henv, howner, hdel, hsp⟩ := hother id _ sp hne hp
    have hclash' : Clash p.parsed sp := clash_normalise hclash
    have hmem := mem_otherSpecs (hinv.listed id env henv) henv hne howner hdel hsp
    exact not_clash_of_valid hplans.valid (hread _ hmem hclash'.shares) hclash'
  intro id id' owner sp sp' hne hp hp'
  by_cases hid : id = x.call.env
  · subst hid
    obtain ⟨rfl, rfl⟩ := hown _ _ hp
    exact hnew id' sp' hne.symm hp'
  · by_cases hid' : id' = x.call.env
    · subst hid'
      obtain ⟨rfl, rfl⟩ := hown _ _ hp'
      exact fun hclash => hnew id sp hid hp hclash.symm
    · exact h id id' owner sp sp' hne (hother _ _ _ hid hp) (hother _ _ _ hid' hp')

theorem PlacesApart.step (h : PlacesApart w) (hinv : Inv checks w) (hok : upToDate w e) (hstep : w.step checks e = some w') :
    PlacesApart w' := by
  cases step_moved hstep with
  | begin | advance | lock | retry | answer | addSecret | dropSecret => exact h.of_placed fun _ _ _ hp => hp
  | create hnew hzero =>
    refine h.of_placed fun id' owner sp ⟨env', henv, howner, hdel, hsp⟩ => ?_
    rcases update_cases henv with ⟨rfl, ⟨⟩⟩ | ⟨heq, henv⟩
    · -- a new environment has no deployment
      rw [World.currentSpec] at hsp
      dsimp only at hsp
      rw [update_self, Option.bind_some, hinv.unmade _ _ hnew] at hsp
      cases hsp
    · rw [currentSpec_eq ((update_of_ne heq _ _).trans henv)] at hsp
      exact ⟨env', henv, howner, hdel, (currentSpec_eq henv).trans hsp⟩
  | @setState id n d state hd =>
    refine h.of_placed fun id' owner sp ⟨env, henv, howner, hdel, hsp⟩ => ⟨env, henv, howner, hdel, ?_⟩
    calc w.currentSpec id' = w.specOf id' env.deployment := currentSpec_eq henv
      _ = (w.setState id n d state).specOf id' env.deployment := ((grows_setState hd).specs id' env _ henv le_rfl).symm
      _ = some sp := (currentSpec_eq henv).symm.trans hsp
  | markDeleting hfree henv =>
    refine h.of_placed fun id' owner sp ⟨env', henv', howner, hdel, hsp⟩ => ?_
    rcases update_cases henv' with ⟨-, ⟨⟩⟩ | ⟨heq, henv'⟩
    · cases hdel
    · rw [currentSpec_eq ((update_of_ne heq _ _).trans henv')] at hsp
      exact ⟨env', henv', howner, hdel, (currentSpec_eq henv').trans hsp⟩
  | insert hx hs hrow hbase =>
    rw [upToDate, hx, Option.all_some, hasRead, hs] at hok
    refine h.insert hinv hx hs hrow fun o ho => ?_
    exact of_decide_eq_true (all_eq_true.1 hok o ho)

/-- From any state of a run where no two environments claim the same place. -/
theorem places_apart_of_up_to_date (h₀ : Reach (World.step checks) (fun _ _ => True) World.start w₀)
    (hapart : PlacesApart w₀)
    (h : Reach (World.step checks) (fun w e => upToDate w e) w₀ w) : PlacesApart w := by
  have hboth : Inv checks w ∧ PlacesApart w := by
    refine h.invariant (I := fun w => Inv checks w ∧ PlacesApart w) ⟨inv_of_reach h₀, hapart⟩ ?_
    rintro s e s' ⟨hinv, hplaces⟩ hok hs
    exact ⟨hinv.step hs, hplaces.step hinv hok hs⟩
  exact hboth.2

def sampleAttached (port : ℤ) : Service where
  runtime := .attached
  sandbox := "a0123456789"
  command := ["serve"]
  cwd := "/"
  env := .empty
  ports := [⟨"http", port⟩]
  imageCredentials := []
  rest := ""

def attachedSpec (name : String) (port : ℤ) : Spec where
  services := ⟨[(name, sampleAttached port)], pairwise_singleton _ _⟩
  jobs := .empty
  addons := .empty
  secrets := .empty
  bindings := .empty
  rest := ""

def sampleEnvs : List (Event Unit Unit) :=
  [.create "env-a" ⟨"tenant", "a", 0, false⟩, .create "env-b" ⟨"tenant", "b", 0, false⟩]

theorem placesApart_start : PlacesApart (World.start : World C Q) := by
  rintro id id' owner sp sp' - ⟨env, henv, -⟩
  cases henv

/-- One apply after the other, with ports of their own. -/
theorem places_apart_of_up_to_date_two : ∃ w, Reach (World.step sampleChecks) (fun w e => upToDate w e) World.start w ∧
    w.currentSpec "env-a" = some (attachedSpec "web" 80) ∧ w.currentSpec "env-b" = some (attachedSpec "api" 81) ∧
    PlacesApart w := by
  obtain ⟨w, hreach, ha, hb⟩ : ∃ w, Reach (World.step sampleChecks) (fun w e => upToDate w e) World.start w ∧
      w.currentSpec "env-a" = some (attachedSpec "web" 80) ∧ w.currentSpec "env-b" = some (attachedSpec "api" 81) :=
    exists_follow (sampleEnvs ++ planEvents 0 (sampleCall "env-a" (attachedSpec "web" 80)) [("a0123456789", [])] ++
      txnEvents 0 ++ planEvents 1 (sampleCall "env-b" (attachedSpec "api" 81)) [("a0123456789", [])] ++ txnEvents 1)
      (by decide +kernel)
  exact ⟨w, hreach, ha, hb, places_apart_of_up_to_date .init placesApart_start hreach⟩

/-- Two applies that plan before either commits get the same port. -/
theorem two_plans_take_one_port : PlacesApart (World.start : World Unit Unit) ∧
    ∃ w, Reach (World.step sampleChecks) (fun _ _ => True) World.start w ∧ ¬ PlacesApart w := by
  obtain ⟨w, hreach, ha, hb, hspa, hspb⟩ : ∃ w, Reach (World.step sampleChecks) (fun _ _ => True) World.start w ∧
      w.envs "env-a" = some ⟨"tenant", "a", 1, false⟩ ∧ w.envs "env-b" = some ⟨"tenant", "b", 1, false⟩ ∧
        w.currentSpec "env-a" = some (attachedSpec "web" 80) ∧ w.currentSpec "env-b" = some (attachedSpec "api" 80) :=
    exists_follow (sampleEnvs ++ planEvents 0 (sampleCall "env-a" (attachedSpec "web" 80)) [("a0123456789", [])] ++
      planEvents 1 (sampleCall "env-b" (attachedSpec "api" 80)) [("a0123456789", [])] ++ txnEvents 0 ++ txnEvents 1)
      (by decide +kernel)
  refine ⟨placesApart_start, w, hreach, fun hapart => ?_⟩
  refine hapart "env-a" "env-b" "tenant" _ _ (by decide) ⟨_, ha, rfl, rfl, hspa⟩ ⟨_, hb, rfl, rfl, hspb⟩ ?_
  refine ⟨"a0123456789", by decide +kernel, by decide +kernel, .inl ?_⟩
  exact ⟨("web", sampleAttached 80), by decide +kernel, ("api", sampleAttached 80), by decide +kernel, ⟨"http", 80⟩,
    by decide, ⟨"http", 80⟩, by decide, rfl⟩

end FeOS.Env
