import Mathlib
import FeOS.Spec.Quota

/-! What a tenant's use is made of, and how the writes change it: all of them but the creates'
leave fewer of the rows that count, and a create adds what it asks for. -/

namespace FeOS.Quota

open RowLocks Tables List

variable {types : String → Option AddonType} {db db' db'' : Tables} {tenant : String} {exclude : Option String}

/-! The checks -/

variable {l : TenantLimits} {r : Resource}

theorem exceeds_eq_none {use ask : Use} :
    exceeds l use ask r = none ↔ ∀ limit, l.of r = some limit → 0 < ask.of r → use.of r + ask.of r ≤ limit := by
  unfold exceeds
  cases l.of r with
  | none => simp
  | some limit =>
    simp only [Option.some.injEq, forall_eq']
    split_ifs with h
    · simp [h.1, h.2]
    · simp only [true_iff]
      intro hpos
      by_contra hlt
      exact h ⟨hpos, not_le.1 hlt⟩

theorem Resource.mem_all (r : Resource) : r ∈ Resource.all := by cases r <;> decide

theorem check_eq_none {use ask : Use} :
    check l use ask = none ↔ ∀ r limit, l.of r = some limit → 0 < ask.of r → use.of r + ask.of r ≤ limit := by
  unfold check
  rw [findSome?_eq_none_iff]
  exact ⟨fun h r => exceeds_eq_none.1 (h r r.mem_all), fun h r _ => exceeds_eq_none.2 (h r)⟩

theorem findingOf_eq_none {others : Use} {cur next : ℕ} :
    findingOf l others r cur next = none ↔ ∀ limit, l.of r = some limit → others.of r + next ≤ limit ∨ next ≤ cur := by
  unfold findingOf
  cases l.of r with
  | none => simp
  | some limit =>
    simp only [Option.some.injEq, forall_eq']
    split_ifs with h <;> simp [h]

theorem specFindings_eq_nil {others : Use} {current next : Option Spec} :
    specFindings types l others current next = [] ↔
      findingOf l others .vcpus (specUse types current).1 (specUse types next).1 = none ∧
      findingOf l others .memoryMiB (specUse types current).2 (specUse types next).2 = none := by
  unfold specFindings
  cases findingOf l others .vcpus (specUse types current).1 (specUse types next).1 <;>
    cases findingOf l others .memoryMiB (specUse types current).2 (specUse types next).2 <;> simp [reduceOption]

theorem TenantLimits.any_of {limit : ℕ} (h : l.of r = some limit) : l.any = true := by
  cases r <;> simp only [TenantLimits.of] at h <;> simp [TenantLimits.any, h]

/-! Fewer rows that count -/

structure Fewer (tenant : String) (db db' : Tables) : Prop where
  sandboxes : (db'.countedSandboxes tenant).Sublist (db.countedSandboxes tenant)
  jobs : (db'.countedJobs tenant).Sublist (db.countedJobs tenant)
  environments : (db'.countedEnvironments tenant).Sublist (db.countedEnvironments tenant)

theorem Fewer.refl (tenant : String) (db : Tables) : Fewer tenant db db :=
  ⟨.refl _, .refl _, .refl _⟩

theorem Fewer.of_eq (hs : db'.sandboxes = db.sandboxes) (hj : db'.jobs = db.jobs)
    (he : db'.environments = db.environments) : Fewer tenant db db' := by
  refine ⟨?_, ?_, ?_⟩
  · rw [countedSandboxes, countedSandboxes, hs]
  · rw [countedJobs, countedJobs, hj]
  · rw [countedEnvironments, countedEnvironments, he]

structure UseRowsLe (rows rows' : UseRows) : Prop where
  sandboxes : rows.sandboxes ≤ rows'.sandboxes
  sandboxVCPUs : rows.sandboxVCPUs ≤ rows'.sandboxVCPUs
  sandboxMemoryMiB : rows.sandboxMemoryMiB ≤ rows'.sandboxMemoryMiB
  environments : rows.environments ≤ rows'.environments
  runningJobs : rows.runningJobs ≤ rows'.runningJobs
  jobVCPUs : rows.jobVCPUs ≤ rows'.jobVCPUs
  jobMemoryMiB : rows.jobMemoryMiB ≤ rows'.jobMemoryMiB

theorem UseRowsLe.refl (rows : UseRows) : UseRowsLe rows rows := by constructor <;> exact le_rfl

theorem UseRowsLe.trans {a b c : UseRows} (h : UseRowsLe a b) (h' : UseRowsLe b c) : UseRowsLe a c where
  sandboxes := h.sandboxes.trans h'.sandboxes
  sandboxVCPUs := h.sandboxVCPUs.trans h'.sandboxVCPUs
  sandboxMemoryMiB := h.sandboxMemoryMiB.trans h'.sandboxMemoryMiB
  environments := h.environments.trans h'.environments
  runningJobs := h.runningJobs.trans h'.runningJobs
  jobVCPUs := h.jobVCPUs.trans h'.jobVCPUs
  jobMemoryMiB := h.jobMemoryMiB.trans h'.jobMemoryMiB

theorem sum_map_le_of_sublist {α : Type} {l l' : List α} (f : α → ℕ) (h : l.Sublist l') : (l.map f).sum ≤ (l'.map f).sum :=
  (h.map f).sum_le_sum fun _ _ => Nat.zero_le _

theorem Fewer.rows (h : Fewer tenant db db') : UseRowsLe (db'.tenantUse tenant) (db.tenantUse tenant) where
  sandboxes := h.sandboxes.length_le
  sandboxVCPUs := sum_map_le_of_sublist _ h.sandboxes
  sandboxMemoryMiB := sum_map_le_of_sublist _ h.sandboxes
  environments := h.environments.length_le
  runningJobs := h.jobs.length_le
  jobVCPUs := sum_map_le_of_sublist _ h.jobs
  jobMemoryMiB := sum_map_le_of_sublist _ h.jobs

theorem Fewer.specs (h : Fewer tenant db db') (exclude : Option String) :
    (db'.tenantSpecs tenant exclude).Sublist (db.tenantSpecs tenant exclude) :=
  (h.environments.filter _).filterMap _

theorem useOf_le {rows rows' : UseRows} {specs specs' : List Spec} (h : UseRowsLe rows rows') (hs : specs.Sublist specs')
    (r : Resource) : (useOf types rows specs).of r ≤ (useOf types rows' specs').of r := by
  cases r with
  | sandboxes => exact h.sandboxes
  | environments => exact h.environments
  | runningJobs => exact h.runningJobs
  | vcpus => exact Nat.add_le_add (Nat.add_le_add h.sandboxVCPUs h.jobVCPUs) (sum_map_le_of_sublist _ hs)
  | memoryMiB => exact Nat.add_le_add (Nat.add_le_add h.sandboxMemoryMiB h.jobMemoryMiB) (sum_map_le_of_sublist _ hs)

theorem Fewer.use (h : Fewer tenant db db') (exclude : Option String) (r : Resource) :
    (db'.use types tenant exclude).of r ≤ (db.use types tenant exclude).of r :=
  useOf_le h.rows (h.specs exclude) r

theorem filter_map_sublist {α : Type} {p : α → Bool} {f : α → α} (hf : ∀ a, f a = a ∨ p (f a) = false) :
    ∀ l : List α, ((l.map f).filter p).Sublist (l.filter p)
  | [] => .refl _
  | a :: l => by
    have ih := filter_map_sublist hf l
    rw [map_cons]
    rcases hf a with ha | ha
    · rw [ha, filter_cons, filter_cons]
      split_ifs
      · exact ih.cons_cons a
      · exact ih
    · rw [filter_cons_of_neg (by simp [ha])]
      exact ih.trans ((sublist_cons_self a l).filter _)

theorem Fewer.removeSandbox (tenant id : String) (db : Tables) :
    Fewer tenant db { db with sandboxes := db.sandboxes.filter fun s => s.id ≠ id } :=
  ⟨filter_sublist.filter _, .refl _, .refl _⟩

theorem Fewer.finishJob (tenant id : String) (db : Tables) :
    Fewer tenant db { db with jobs := db.jobs.map fun j => if j.id = id then { j with finished := true } else j } := by
  refine ⟨.refl _, filter_map_sublist (fun j => ?_) _, .refl _⟩
  by_cases hj : j.id = id <;> simp [hj]

theorem Fewer.markDeleting (tenant env : String) (db : Tables) (hf : ∀ e, (markDeleting env e).id = e.id) :
    Fewer tenant db (db.mapEnvironments (markDeleting env) hf) := by
  refine ⟨.refl _, .refl _, filter_map_sublist (fun e => ?_) _⟩
  unfold Tables.markDeleting
  by_cases he : e.id = env <;> simp [he]

theorem Fewer.removeEnvironment (tenant env : String) (db : Tables) : Fewer tenant db (db.removeEnvironment env) :=
  ⟨.refl _, .refl _, filter_sublist.filter _⟩

/-! What a create adds -/

section Write
variable {fresh : String} {create : Create}

variable {e : Environment}

theorem countedEnvironments_deploy {env owner : String} {next : Spec}
    (he : db.findEnvironment env = some e) (howner : e.owner = owner) (hne : tenant ≠ owner)
    (hf : ∀ e, (deploy env next e).id = e.id) :
    ((db.mapEnvironments (deploy env next) hf).countedEnvironments tenant).Sublist (db.countedEnvironments tenant) := by
  have hmap : db.environments.map (deploy env next) = db.environments.map fun x =>
      if x = e then { e with deployments := next :: e.deployments } else x := by
    refine map_congr_left fun x hx => ?_
    have hmem := mem_of_find?_eq_some he
    have hid : e.id = env := by simpa using find?_some he
    unfold deploy
    by_cases hxe : x = e
    · rw [if_pos (by rw [hxe, hid]), if_pos hxe, hxe]
    · rw [if_neg fun h => hxe (inj_on_of_nodup_map db.ids hx hmem (h.trans hid.symm)), if_neg hxe]
  change ((db.environments.map (deploy env next)).filter _).Sublist _
  rw [hmap]
  refine filter_map_sublist (fun x => ?_) _
  by_cases hx : x = e
  · right
    simp [hx, howner, Ne.symm hne]
  · left
    exact if_neg hx

theorem Fewer.write {owner : String} (h : db.write owner fresh create = some db') (hne : tenant ≠ owner)
    (hown : ∀ env cur cs next, create = .deployment env cur cs next → ∃ e, db.findEnvironment env = some e ∧
      e.owner = owner) :
    Fewer tenant db db' := by
  have hne' : owner ≠ tenant := Ne.symm hne
  have hinsert {e : Environment} (he : e.owner = owner) (h : db.insertEnvironment e = some db') : Fewer tenant db db' := by
    unfold insertEnvironment at h
    split_ifs at h
    cases h
    refine ⟨.refl _, .refl _, ?_⟩
    rw [countedEnvironments, filter_cons_of_neg (by simp [he, hne'])]
    exact .refl _
  revert h
  fun_cases Tables.write db owner fresh create <;> intro h <;> try cases h
  case case2 =>
    refine ⟨?_, .refl _, .refl _⟩
    rw [countedSandboxes, filter_cons_of_neg (by simp [hne'])]
    exact .refl _
  case case4 =>
    refine ⟨?_, ?_, .refl _⟩
    · rw [countedSandboxes, filter_cons_of_neg (by simp)]
      exact .refl _
    · rw [countedJobs, filter_cons_of_neg (by simp [hne'])]
      exact .refl _
  case case6 | case8 => exact hinsert rfl h
  case case9 env cur cs next =>
    obtain ⟨e, he, howner⟩ := hown env cur cs next rfl
    exact ⟨.refl _, .refl _, countedEnvironments_deploy he howner hne _⟩

theorem sum_filter_le_of_nodup {α κ : Type} [DecidableEq κ] (key : α → κ) (f : α → ℕ) (k : κ) (c : ℕ) :
    ∀ l : List α, (l.map key).Nodup → (∀ a ∈ l, key a = k → f a ≤ c) →
      (l.map f).sum ≤ ((l.filter fun a => key a ≠ k).map f).sum + c
  | [], _, _ => by simp
  | a :: l, hl, hc => by
    rw [map_cons, nodup_cons] at hl
    by_cases ha : key a = k
    · have hrest : l.filter (fun a => key a ≠ k) = l := by
        refine filter_eq_self.2 fun b hb => ?_
        have : key b ≠ k := fun hbk => hl.1 (mem_map.2 ⟨b, hb, hbk.trans ha.symm⟩)
        simp [this]
      rw [filter_cons_of_neg (by simp [ha]), hrest, map_cons, sum_cons, Nat.add_comm]
      exact Nat.add_le_add_left (hc a mem_cons_self ha) _
    · have ih := sum_filter_le_of_nodup key f k c l hl.2 fun b hb => hc b (mem_cons_of_mem _ hb)
      rw [filter_cons_of_pos (by simp [ha]), map_cons, map_cons, sum_cons, sum_cons]
      omega

def Environment.sumOf (f : Spec → ℕ) (e : Environment) : ℕ := (e.deployments.head?.map f).getD 0

theorem sum_filterMap {α β : Type} (g : α → Option β) (f : β → ℕ) :
    ∀ l : List α, ((l.filterMap g).map f).sum = (l.map fun a => ((g a).map f).getD 0).sum
  | [] => rfl
  | a :: l => by
    rw [map_cons, sum_cons, ← sum_filterMap g f l, filterMap_cons]
    cases g a <;> simp

theorem sum_tenantSpecs (f : Spec → ℕ) : ((db.tenantSpecs tenant exclude).map f).sum =
    (((db.countedEnvironments tenant).filter fun e => some e.id ≠ exclude).map (Environment.sumOf f)).sum :=
  sum_filterMap ..

theorem countedEnvironments_map (env : String) (next : Spec) (hf : ∀ e, (deploy env next e).id = e.id) :
    (db.mapEnvironments (deploy env next) hf).countedEnvironments tenant =
      (db.countedEnvironments tenant).map (deploy env next) := by
  unfold countedEnvironments mapEnvironments
  rw [filter_map]
  congr 2
  funext e
  unfold deploy
  simp only [Function.comp_apply]
  split_ifs <;> rfl

theorem countedEnvironments_ids : ((db.countedEnvironments tenant).map Environment.id).Nodup :=
  db.ids.sublist (filter_sublist.map _)

theorem sum_tenantSpecs_deploy (db : Tables) (tenant : String) (f : Spec → ℕ) (env : String) (next : Spec)
    (hf : ∀ e, (deploy env next e).id = e.id) :
    (((db.mapEnvironments (deploy env next) hf).tenantSpecs tenant none).map f).sum ≤
      ((db.tenantSpecs tenant (some env)).map f).sum + f next := by
  have hids : (((db.countedEnvironments tenant).map (deploy env next)).map Environment.id).Nodup := by
    rw [map_map, show Environment.id ∘ deploy env next = Environment.id from funext hf]
    exact countedEnvironments_ids
  have hnext : ∀ e ∈ (db.countedEnvironments tenant).map (deploy env next), e.id = env → e.sumOf f ≤ f next := by
    intro e he hid
    obtain ⟨e₀, -, rfl⟩ := mem_map.1 he
    rw [hf] at hid
    simp [deploy, hid, Environment.sumOf]
  have hsame : (((db.countedEnvironments tenant).map (deploy env next)).filter fun e => e.id ≠ env).map
      (Environment.sumOf f) =
      ((db.countedEnvironments tenant).filter fun e => some e.id ≠ some env).map (Environment.sumOf f) := by
    rw [filter_map, map_map]
    have hfilter : (fun e : Environment => decide (e.id ≠ env)) ∘ deploy env next = fun e =>
        decide (some e.id ≠ some env) := by
      funext e
      simp [hf]
    rw [hfilter]
    refine map_congr_left fun e he => ?_
    have hid : e.id ≠ env := by simpa using (mem_filter.1 he).2
    simp [deploy, hid]
  rw [sum_tenantSpecs, sum_tenantSpecs, countedEnvironments_map, ← hsame]
  have hall : ((db.countedEnvironments tenant).map (deploy env next)).filter (fun e => some e.id ≠ none) =
      (db.countedEnvironments tenant).map (deploy env next) := filter_eq_self.2 fun e _ => by simp
  rw [hall]
  exact sum_filter_le_of_nodup Environment.id (Environment.sumOf f) env (f next) _ hids hnext

theorem tenantSpecs_exclude_of_not_mem {id : String} (h : id ∉ db.environments.map Environment.id) :
    db.tenantSpecs tenant (some id) = db.tenantSpecs tenant none := by
  unfold tenantSpecs
  congr 1
  refine filter_congr fun e he => ?_
  have : e.id ≠ id := fun hid => h (mem_map.2 ⟨e, (mem_filter.1 he).1, hid⟩)
  simp [this]

theorem tenantSpecs_insert (howner : e.owner = tenant) (hdel : e.deleting = false)
    (h : db'.environments = e :: db.environments) :
    db'.tenantSpecs tenant none = e.deployments.head?.toList ++ db.tenantSpecs tenant none := by
  unfold tenantSpecs countedEnvironments
  rw [h, filter_cons_of_pos (by simp [howner, hdel]), filter_cons_of_pos (by simp), filterMap_cons]
  cases e.deployments.head? <;> rfl

theorem write_use (h : db.write tenant fresh create = some db') {r : Resource}
    (hr : create.deploys = none ∨ r ≠ .vcpus ∧ r ≠ .memoryMiB) :
    (db'.use types tenant none).of r ≤ (db.use types tenant none).of r + create.ask.of r := by
  revert h
  fun_cases write db tenant fresh create <;> intro h <;> try cases h
  case case2 | case4 =>
    cases r <;> simp [use, useOf, Use.of, tenantUse, countedSandboxes, Create.ask, tenantSpecs,
      countedEnvironments, countedJobs] <;> omega
  case case6 id name _ =>
    unfold insertEnvironment at h
    split_ifs at h
    cases h
    rw [use, tenantSpecs_insert (e := ⟨id, tenant, name, false, []⟩) rfl rfl rfl]
    cases r <;> simp [use, useOf, Use.of, tenantUse, countedSandboxes, Create.ask, countedEnvironments, countedJobs]
  case case8 id name next _ =>
    unfold insertEnvironment at h
    split_ifs at h
    cases h
    rw [use, tenantSpecs_insert (e := ⟨id, tenant, name, false, next.toList⟩) rfl rfl rfl]
    cases next with
    | none =>
      cases r <;> simp [use, useOf, Use.of, tenantUse, countedSandboxes, Create.ask, countedEnvironments, countedJobs]
    | some next =>
      obtain hr | hr := hr
      · cases hr
      · cases r <;> simp [use, useOf, Use.of, tenantUse, countedSandboxes, Create.ask, countedEnvironments,
          countedJobs] at hr ⊢
  case case9 =>
    obtain hr | hr := hr
    · cases hr
    · cases r <;> simp [use, useOf, Use.of, tenantUse, Create.ask, countedEnvironments_map] at hr ⊢ <;> exact le_rfl

variable (types) in
theorem write_use_deploys (h : db.write tenant fresh create = some db') {env : String} {current : Option Spec} {next : Spec}
    (hd : create.deploys = some (env, current, next)) :
    (db'.use types tenant none).vcpus ≤ (db.use types tenant (some env)).vcpus + (specUse types (some next)).1 ∧
    (db'.use types tenant none).memoryMiB ≤ (db.use types tenant (some env)).memoryMiB + (specUse types (some next)).2 := by
  cases create with
  | sandbox v m => cases hd
  | job v m => cases hd
  | environment id name => cases hd
  | clone id name next' =>
    cases next' with
    | none => cases hd
    | some next' =>
      cases hd
      simp only [write, insertEnvironment] at h
      split_ifs at h with _ hid
      cases h
      rw [use, use, tenantSpecs_insert (e := ⟨env, tenant, name, false, [next]⟩) rfl rfl rfl,
        tenantSpecs_exclude_of_not_mem hid]
      simp [useOf, tenantUse, countedSandboxes, countedJobs]
      omega
  | deployment env' cur cs next' =>
    cases hd
    cases h
    have hv := sum_tenantSpecs_deploy db tenant (fun sp => (specUse types (some sp)).1) env next
      fun e => by unfold deploy; split <;> rfl
    have hm := sum_tenantSpecs_deploy db tenant (fun sp => (specUse types (some sp)).2) env next
      fun e => by unfold deploy; split <;> rfl
    simp only [use, useOf, tenantUse, countedSandboxes, countedJobs, mapEnvironments] at hv hm ⊢
    omega

end Write

end FeOS.Quota
