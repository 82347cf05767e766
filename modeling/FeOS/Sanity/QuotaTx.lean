import FeOS.Sanity.QuotaUse

/-! What a create's transaction knows at each of its statements, as long as its lock on the tenant
is as strong as the limits it found ask for; and that the others leave it true. -/

namespace FeOS.Quota

open RowLocks Tables World List

variable {types : String → Option AddonType} {w w' : World} {db db' : Tables} {locks locks' : List (Lock ℕ Row)}
  {id : ℕ} {tx : Tx} {t : Tenant}

structure Locked (locks : List (Lock ℕ Row)) (db : Tables) (id : ℕ) (tenant : String) (t : Tenant) : Prop where
  lock : ∃ mode, ⟨id, .tenant tenant, mode⟩ ∈ locks ∧ mode ≠ .keyShare ∧ (t.limits.any = true → mode = .noKeyUpdate)
  row : db.tenants tenant = some t

/-- A deployment's environment is locked, is the tenant's, and has the deployment of the plan. -/
def Planned (locks : List (Lock ℕ Row)) (db : Tables) (id : ℕ) (tenant : String) : Create → Prop
  | .deployment env current _ _ => ⟨id, .environment env, .update⟩ ∈ locks ∧
      ∃ e, db.findEnvironment env = some e ∧ e.owner = tenant ∧ e.deployments.length = current
  | _ => True

structure Ready (locks : List (Lock ℕ Row)) (db : Tables) (id : ℕ) (tx : Tx) (t : Tenant) : Prop where
  locked : Locked locks db id tx.tenant t
  planned : Planned locks db id tx.tenant tx.create

def Checked (types : String → Option AddonType) (db : Tables) (tx : Tx) (t : Tenant) : Prop :=
  check t.limits (db.use types tx.tenant none) tx.create.ask = none

def Compared (types : String → Option AddonType) (db : Tables) (tx : Tx) (t : Tenant) : Prop :=
  ∀ env current next, tx.create.deploys = some (env, current, next) →
    specFindings types t.limits (db.use types tx.tenant (some env)) current (some next) = []

def Knows (types : String → Option AddonType) (locks : List (Lock ℕ Row)) (db : Tables) (id : ℕ) (tx : Tx) : Prop :=
  match tx.stage with
  | .reading => True
  | .locking mode => mode = .share ∨ mode = .noKeyUpdate
  | .planning t => Locked locks db id tx.tenant t
  | .counting t => Ready locks db id tx t ∧ t.limits.any = true
  | .summing t rows => Ready locks db id tx t ∧ t.limits.any = true ∧ UseRowsLe (db.tenantUse tx.tenant) rows
  | .checking t use => Ready locks db id tx t ∧ t.limits.any = true ∧ ∀ r, (db.use types tx.tenant none).of r ≤ use.of r
  | .countingOthers t => Ready locks db id tx t ∧ t.limits.any = true ∧ Checked types db tx t
  | .summingOthers t rows =>
    Ready locks db id tx t ∧ t.limits.any = true ∧ Checked types db tx t ∧ UseRowsLe (db.tenantUse tx.tenant) rows
  | .comparing t others => Ready locks db id tx t ∧ t.limits.any = true ∧ Checked types db tx t ∧
      ∀ env current next, tx.create.deploys = some (env, current, next) →
        ∀ r, (db.use types tx.tenant (some env)).of r ≤ others.of r
  | .writing t => Ready locks db id tx t ∧ (t.limits.any = true → Checked types db tx t ∧ Compared types db tx t)

/-! A smaller use passes what a larger one passed -/

variable {l : TenantLimits} {e : Environment} {fresh : String} {create : Create}

theorem check_mono {use use' ask : Use} (h : check l use ask = none) (hle : ∀ r, use'.of r ≤ use.of r) :
    check l use' ask = none := by
  rw [check_eq_none] at h ⊢
  intro r limit hl hpos
  exact (Nat.add_le_add_right (hle r) _).trans (h r limit hl hpos)

theorem specFindings_mono {others others' : Use} {current next : Option Spec}
    (h : specFindings types l others current next = []) (hle : ∀ r, others'.of r ≤ others.of r) :
    specFindings types l others' current next = [] := by
  rw [specFindings_eq_nil, findingOf_eq_none, findingOf_eq_none] at h ⊢
  refine ⟨fun limit hl => ?_, fun limit hl => ?_⟩
  · exact (h.1 limit hl).imp_left ((Nat.add_le_add_right (hle _) _).trans)
  · exact (h.2 limit hl).imp_left ((Nat.add_le_add_right (hle _) _).trans)

/-! The others -/

structure Left (id : ℕ) (tenant : String) (locks locks' : List (Lock ℕ Row)) (db db' : Tables) : Prop where
  held : ∀ l ∈ locks, l.tx = id → l ∈ locks'
  row : ∀ mode t, mode ≠ .keyShare → ⟨id, .tenant tenant, mode⟩ ∈ locks → db.tenants tenant = some t →
    db'.tenants tenant = some t
  env : ∀ env e, ⟨id, .environment env, .update⟩ ∈ locks → db.findEnvironment env = some e →
    db'.findEnvironment env = some e
  fewer : ⟨id, .tenant tenant, .noKeyUpdate⟩ ∈ locks → Fewer tenant db db'

variable {tenant env : String}

theorem Locked.left (h : Locked locks db id tenant t) (hl : Left id tenant locks locks' db db') :
    Locked locks' db' id tenant t := by
  obtain ⟨mode, hmem, hmode, hany⟩ := h.lock
  exact ⟨⟨mode, hl.held _ hmem rfl, hmode, hany⟩, hl.row mode t hmode hmem h.row⟩

theorem Locked.fewer (h : Locked locks db id tenant t) (hany : t.limits.any = true)
    (hl : Left id tenant locks locks' db db') : Fewer tenant db db' := by
  obtain ⟨mode, hmem, -, hmode⟩ := h.lock
  exact hl.fewer (hmode hany ▸ hmem)

theorem Ready.left (h : Ready locks db id tx t) (hl : Left id tx.tenant locks locks' db db') : Ready locks' db' id tx t := by
  refine ⟨h.locked.left hl, ?_⟩
  have hp := h.planned
  cases hc : tx.create with
  | deployment env current cs next =>
    rw [hc] at hp
    obtain ⟨hmem, e, he, howner, hlen⟩ := hp
    exact ⟨hl.held _ hmem rfl, e, hl.env env e hmem he, howner, hlen⟩
  | _ => trivial

theorem Checked.fewer (h : Checked types db tx t) (hf : Fewer tx.tenant db db') : Checked types db' tx t :=
  check_mono h (hf.use none)

theorem Compared.fewer (h : Compared types db tx t) (hf : Fewer tx.tenant db db') : Compared types db' tx t :=
  fun env current next hd => specFindings_mono (h env current next hd) (hf.use (some env))

theorem Knows.left (h : Knows types locks db id tx) (hl : Left id tx.tenant locks locks' db db') :
    Knows types locks' db' id tx := by
  obtain ⟨tenant, create, stage⟩ := tx
  cases stage with
  | reading => trivial
  | locking mode => exact h
  | planning t => exact Locked.left h hl
  | counting t => exact ⟨h.1.left hl, h.2⟩
  | summing t rows =>
    obtain ⟨hr, hany, hle⟩ := h
    exact ⟨hr.left hl, hany, (hr.locked.fewer hany hl).rows.trans hle⟩
  | checking t use =>
    obtain ⟨hr, hany, hle⟩ := h
    exact ⟨hr.left hl, hany, fun r => ((hr.locked.fewer hany hl).use none r).trans (hle r)⟩
  | countingOthers t =>
    obtain ⟨hr, hany, hc⟩ := h
    exact ⟨hr.left hl, hany, hc.fewer (hr.locked.fewer hany hl)⟩
  | summingOthers t rows =>
    obtain ⟨hr, hany, hc, hle⟩ := h
    have hf := hr.locked.fewer hany hl
    exact ⟨hr.left hl, hany, hc.fewer hf, hf.rows.trans hle⟩
  | comparing t others =>
    obtain ⟨hr, hany, hc, hle⟩ := h
    have hf := hr.locked.fewer hany hl
    exact ⟨hr.left hl, hany, hc.fewer hf, fun env cur next hd r => (hf.use (some env) r).trans (hle env cur next hd r)⟩
  | writing t =>
    obtain ⟨hr, hpass⟩ := h
    refine ⟨hr.left hl, fun hany => ?_⟩
    have hf := hr.locked.fewer hany hl
    exact ⟨(hpass hany).1.fewer hf, (hpass hany).2.fewer hf⟩

theorem Left.of_locks (h : ∀ l ∈ locks, l.tx = id → l ∈ locks') : Left id tenant locks locks' db db :=
  ⟨h, fun _ _ _ _ ht => ht, fun _ _ _ he => he, fun _ => Fewer.refl _ _⟩

theorem find_map_of_ne {f : Environment → Environment} {hf : ∀ e, (f e).id = e.id}
    (he : db.findEnvironment env = some e) (hsame : ∀ e, e.id = env → f e = e) :
    (db.mapEnvironments f hf).findEnvironment env = some e := by
  change (db.environments.map f).find? _ = some e
  rw [find?_map]
  have hcomp : (fun e : Environment => decide (e.id = env)) ∘ f = fun e => decide (e.id = env) := by
    funext e
    simp [hf]
  rw [hcomp, show db.environments.find? (fun e => decide (e.id = env)) = some e from he, Option.map_some]
  rw [hsame e (by simpa using find?_some he)]

theorem find_insert {e' : Environment} (h : db.insertEnvironment e' = some db')
    (he : db.findEnvironment env = some e) : db'.findEnvironment env = some e := by
  unfold insertEnvironment at h
  split_ifs at h with hid
  cases h
  change (e' :: db.environments).find? _ = some e
  have hne : e'.id ≠ env := by
    intro heq
    refine hid (mem_map.2 ⟨e, mem_of_find?_eq_some he, ?_⟩)
    rw [heq]
    simpa using find?_some he
  rw [find?_cons_of_neg (by simp [hne])]
  exact he

theorem write_tenants (h : db.write tenant fresh create = some db') :
    db'.tenants = db.tenants := by
  cases create <;> simp only [Tables.write, insertEnvironment, mapEnvironments] at h <;>
    (try split_ifs at h) <;> cases h <;> rfl

theorem write_find (h : db.write tenant fresh create = some db')
    (he : db.findEnvironment env = some e) (hne : ∀ env' cur cs next, create = .deployment env' cur cs next → env' ≠ env) :
    db'.findEnvironment env = some e := by
  revert h
  fun_cases Tables.write db tenant fresh create <;> intro h <;> try cases h
  case case2 | case4 => exact he
  case case6 | case8 => exact find_insert h he
  case case9 env' cur cs next =>
    refine find_map_of_ne he fun e' he' => ?_
    have := hne env' cur cs next rfl
    unfold deploy
    rw [if_neg fun heq => this (heq.symm.trans he')]

end FeOS.Quota
