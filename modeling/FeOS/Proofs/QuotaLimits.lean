import FeOS.Sanity.QuotaTx

/-! Creates that count against a tenant's limits keep to them together, as long as each locks the
tenant as strongly as the limits it then finds ask for. -/

namespace FeOS.Quota

open RowLocks Tables World Runs Function List

variable {types : String → Option AddonType} {w w' : World} {id : ℕ} {tx : Tx}

structure Inv (types : String → Option AddonType) (w : World) : Prop where
  compatible : Compatible w.locks
  knows : ∀ id tx, w.txs id = some tx → Knows types w.locks w.db id tx

def Tx.locksEnvironment (tx : Tx) : Option String :=
  match tx.stage, tx.create with
  | .planning _, .deployment env _ _ _ => some env
  | _, _ => none

/-- What a statement must find: a tenant that was read without limits has none when it is locked,
and an environment to deploy to is still the tenant's. -/
def Steady (w : World) : Event → Prop
  | .run id => ∀ tx ∈ w.txs id,
      (tx.stage = .locking .share → ∀ t ∈ w.db.tenants tx.tenant, t.limits.any = false) ∧
      ∀ env ∈ tx.locksEnvironment, ∀ e ∈ w.db.findEnvironment env, e.owner = tx.tenant
  | _ => True

/-- A deployment asks for more than the current one of what it asks for. -/
def Rises (types : String → Option AddonType) (c : Create) : Prop := ∀ d ∈ c.deploys,
  (0 < (specUse types (some d.2.2)).1 → (specUse types d.2.1).1 < (specUse types (some d.2.2)).1) ∧
  (0 < (specUse types (some d.2.2)).2 → (specUse types d.2.1).2 < (specUse types (some d.2.2)).2)

instance (w : World) (e : Event) : Decidable (Steady w e) := by
  cases e <;> unfold Steady <;> infer_instance

instance (c : Create) : Decidable (Rises types c) := inferInstanceAs (Decidable (∀ _ ∈ _, _))

/-! One transaction moves on, and the others are left what they know -/

theorem Inv.setTx (h : Inv types w) (hk : Knows types w.locks w.db id tx) : Inv types (w.setTx id tx) := by
  refine ⟨h.compatible, fun id' tx' htx' => ?_⟩
  change update w.txs id _ id' = some tx' at htx'
  by_cases hid : id' = id
  · subst hid
    rw [update_self] at htx'
    cases htx'
    exact hk
  · rw [update_of_ne hid] at htx'
    exact h.knows id' tx' htx'

theorem Inv.goTo {stage : Stage} (h : Inv types w) (hk : Knows types w.locks w.db id { tx with stage := stage }) :
    Inv types (w.goTo id tx stage) := h.setTx hk

theorem Inv.lock {row : Row} {mode : Mode} (h : Inv types w) (hfree : Free w.locks row mode) :
    Inv types (w.lock id row mode) :=
  ⟨h.compatible.take hfree, fun id' tx' htx' =>
    (h.knows id' tx' htx').left (Left.of_locks fun _ hl _ => mem_cons_of_mem _ hl)⟩

variable {db : Tables} {tenant : String} {t : Tenant} {create : Create}

theorem Inv.endTx (h : Inv types w)
    (hleft : ∀ id' tx', id' ≠ id → w.txs id' = some tx' → Left id' tx'.tenant w.locks w.locks w.db db) :
    Inv types ({ w with db := db }.endTx id) := by
  refine ⟨h.compatible.release id, fun id' tx' htx' => ?_⟩
  change update w.txs id none id' = some tx' at htx'
  have hid : id' ≠ id := by
    rintro rfl
    rw [update_self] at htx'
    cases htx'
  rw [update_of_ne hid] at htx'
  have hl := hleft id' tx' hid htx'
  refine (h.knows id' tx' htx').left ⟨fun l hl hlid => mem_release.2 ⟨hl, ?_⟩, hl.row, hl.env, hl.fewer⟩
  rw [hlid]
  exact hid

theorem Inv.endTx_same (h : Inv types w) (id : ℕ) : Inv types (w.endTx id) :=
  h.endTx fun _ _ _ _ => Left.of_locks fun _ hl _ => hl

theorem Inv.write (h : Inv types w)
    (hleft : ∀ id' tx', w.txs id' = some tx' → Left id' tx'.tenant w.locks w.locks w.db db) :
    Inv types { w with db := db } :=
  ⟨h.compatible, fun id' tx' htx' => (h.knows id' tx' htx').left (hleft id' tx' htx')⟩

theorem Inv.writeTenant {t' : Option Tenant} (h : Inv types w)
    (hfree : (∃ mode, (mode = .noKeyUpdate ∨ mode = .update) ∧ Free w.locks (.tenant tenant) mode) ∨
      w.db.tenants tenant = none) :
    Inv types { w with db := { w.db with tenants := update w.db.tenants tenant t' } } := by
  refine h.write fun id' tx' htx' => ⟨fun _ hl _ => hl, fun mode t hmode hmem ht => ?_, fun _ _ _ he => he,
    fun _ => Fewer.of_eq rfl rfl rfl⟩
  by_cases hten : tx'.tenant = tenant
  · rcases hfree with ⟨m, hm, hfree⟩ | hnone
    · refine (hfree.not_held hmem (by rw [hten]) ?_).elim
      rcases hm with rfl | rfl <;> cases mode <;> simp_all [Mode.conflicts]
    · rw [hten, hnone] at ht
      cases ht
  · change update w.db.tenants tenant t' tx'.tenant = some t
    rw [update_of_ne hten, ht]

/-! The statements -/

theorem lockMode_cases (t : Tenant) : lockMode t = .share ∨ lockMode t = .noKeyUpdate := by
  unfold lockMode
  split_ifs
  · exact .inr rfl
  · exact .inl rfl

theorem knows_countIfAny {locks : List (Lock ℕ Row)} (hr : Ready locks db id tx t) :
    Knows types locks db id { tx with stage := countIfAny t } := by
  unfold countIfAny
  split_ifs with hany
  · exact ⟨⟨hr.locked, hr.planned⟩, hany⟩
  · exact ⟨⟨hr.locked, hr.planned⟩, fun h => absurd h hany⟩

theorem lockedStage_cases (create : Create) (t : Tenant) :
    lockedStage create t = .planning t ∨
      lockedStage create t = countIfAny t ∧ ∀ locks db id tenant, Planned locks db id tenant create := by
  cases create with
  | deployment env cur cs next => exact .inl rfl
  | sandbox v m => exact .inr ⟨rfl, fun _ _ _ _ => trivial⟩
  | job v m => exact .inr ⟨rfl, fun _ _ _ _ => trivial⟩
  | environment e n => exact .inr ⟨rfl, fun _ _ _ _ => trivial⟩
  | clone e n next => exact .inr ⟨rfl, fun _ _ _ _ => trivial⟩

namespace Inv
variable (h : Inv types w)
include h

theorem runLocking {mode : Mode} (htx : w.txs id = some tx) (hs : tx.stage = .locking mode) (hok : Steady w (.run id))
    (hfree : Free w.locks (.tenant tx.tenant) mode) (ht : w.db.tenants tx.tenant = some t) :
    Inv types ((w.lock id (.tenant tx.tenant) mode).goTo id tx (lockedStage tx.create t)) := by
  have hmode := h.knows id tx htx
  unfold Knows at hmode
  rw [hs] at hmode
  have hlocked : Locked (w.lock id (.tenant tx.tenant) mode).locks w.db id tx.tenant t := by
    refine ⟨⟨mode, mem_cons_self, ?_, fun hany => ?_⟩, ht⟩
    · rcases hmode with rfl | rfl <;> decide
    · rcases hmode with rfl | rfl
      · rw [((hok tx htx).1 hs) t ht] at hany
        cases hany
      · rfl
  refine Inv.goTo (h.lock hfree) ?_
  rcases lockedStage_cases tx.create t with heq | ⟨heq, hplan⟩
  · rw [heq]
    exact hlocked
  · rw [heq]
    exact knows_countIfAny ⟨hlocked, hplan _ _ _ _⟩

theorem runPlanning {env : String} {cur : ℕ} {cs : Option Spec} {next : Spec} {e : Environment}
    (htx : w.txs id = some tx)
    (hs : tx.stage = .planning t) (hok : Steady w (.run id)) (hc : tx.create = .deployment env cur cs next)
    (hfree : Free w.locks (.environment env) .update) (he : w.db.findEnvironment env = some e)
    (hlen : e.deployments.length = cur) :
    Inv types ((w.lock id (.environment env) .update).goTo id tx (countIfAny t)) := by
  have hk := h.knows id tx htx
  unfold Knows at hk
  rw [hs] at hk
  have howner := (hok tx htx).2 env (by simp [Tx.locksEnvironment, hs, hc]) e he
  have hplan : Planned (w.lock id (.environment env) .update).locks w.db id tx.tenant tx.create := by
    rw [hc]
    exact ⟨mem_cons_self, e, he, howner, hlen⟩
  refine Inv.goTo (h.lock hfree) (knows_countIfAny ⟨?_, hplan⟩)
  exact hk.left (Left.of_locks fun _ hl _ => mem_cons_of_mem _ hl)

theorem checked {use : Use} (htx : w.txs id = some tx) (hs : tx.stage = .checking t use)
    (hcheck : ¬ (check t.limits use tx.create.ask).isSome = true) :
    Ready w.locks w.db id tx t ∧ t.limits.any = true ∧ Checked types w.db tx t := by
  have hk := h.knows id tx htx
  unfold Knows at hk
  rw [hs] at hk
  exact ⟨hk.1, hk.2.1, check_mono (Option.not_isSome_iff_eq_none.1 hcheck) hk.2.2⟩

theorem runChecking {use : Use} (htx : w.txs id = some tx) (hs : tx.stage = .checking t use)
    (hcheck : ¬ (check t.limits use tx.create.ask).isSome = true) (hdep : tx.create.deploys = none) :
    Inv types (w.goTo id tx (.writing t)) := by
  obtain ⟨hr, -, hchecked⟩ := h.checked htx hs hcheck
  refine h.goTo ⟨⟨hr.locked, hr.planned⟩, fun _ => ⟨hchecked, fun e cur next hd => ?_⟩⟩
  exact absurd (hdep.symm.trans hd) nofun

theorem run (htx : w.txs id = some tx) (hok : Steady w (.run id))
    (hrun : w.runTx types id tx = some w') : Inv types w' := by
  have hk := h.knows id tx htx
  unfold Knows at hk
  revert hrun
  fun_cases runTx types w id tx <;> rintro ⟨⟩
  case case2 => exact h.goTo (lockMode_cases _)
  case case5 mode hs hfree t ht _ => exact h.runLocking htx hs hok hfree ht
  case case9 t hs env cur cs next hc hfree e he hbad =>
    exact h.runPlanning htx hs hok hc hfree he (by_contra fun hne => hbad (.inr hne))
  case case12 t hs =>
    rw [hs] at hk
    exact h.goTo ⟨⟨hk.1.locked, hk.1.planned⟩, hk.2, UseRowsLe.refl _⟩
  case case13 t rows hs =>
    rw [hs] at hk
    exact h.goTo ⟨⟨hk.1.locked, hk.1.planned⟩, hk.2.1, fun r => useOf_le hk.2.2 (List.Sublist.refl _) r⟩
  case case16 t use hs env name hc _ hcheck => exact h.runChecking htx hs hcheck (by rw [hc]; rfl)
  case case18 t use hs hcheck _ _ =>
    obtain ⟨hr, hany, hchecked⟩ := h.checked htx hs hcheck
    exact h.goTo ⟨⟨hr.locked, hr.planned⟩, hany, hchecked⟩
  case case19 t use hs hcheck hdep _ => exact h.runChecking htx hs hcheck (Option.not_isSome_iff_eq_none.1 hdep)
  case case20 t hs =>
    rw [hs] at hk
    exact h.goTo ⟨⟨hk.1.locked, hk.1.planned⟩, hk.2.1, hk.2.2, UseRowsLe.refl _⟩
  case case22 t rows hs env cur next hd =>
    rw [hs] at hk
    refine h.goTo ⟨⟨hk.1.locked, hk.1.planned⟩, hk.2.1, hk.2.2.1, fun env' cur' next' hd' r => ?_⟩
    obtain ⟨rfl, -⟩ := Prod.mk.inj (Option.some.inj (hd.symm.trans hd'))
    exact useOf_le hk.2.2.2 (List.Sublist.refl _) r
  case case24 t others hs env cur next hd hfind =>
    rw [hs] at hk
    refine h.goTo ⟨⟨hk.1.locked, hk.1.planned⟩, fun _ => ⟨hk.2.2.1, fun env' cur' next' hd' => ?_⟩⟩
    obtain ⟨rfl, hrest⟩ := Prod.mk.inj (Option.some.inj (hd.symm.trans hd'))
    obtain ⟨rfl, rfl⟩ := Prod.mk.inj hrest
    exact specFindings_mono hfind (hk.2.2.2 _ _ _ hd)
  -- what is refused ends
  all_goals exact h.endTx_same id

/-! Commits and the other writes -/

theorem writing (htx : w.txs id = some ⟨tenant, create, .writing t⟩) :
    Ready w.locks w.db id ⟨tenant, create, .writing t⟩ t ∧
      (t.limits.any = true → Checked types w.db ⟨tenant, create, .writing t⟩ t ∧
        Compared types w.db ⟨tenant, create, .writing t⟩ t) :=
  h.knows id _ htx

theorem commit_left {fresh : String}
    (htx : w.txs id = some ⟨tenant, create, .writing t⟩) (hw : w.db.write tenant fresh create = some db) {id' : ℕ} {tx' : Tx}
    (hid : id' ≠ id) : Left id' tx'.tenant w.locks w.locks w.db db := by
  obtain ⟨⟨⟨⟨mode, hmem, hmode, -⟩, -⟩, hplan⟩, -⟩ := h.writing htx
  refine ⟨fun _ hl _ => hl, fun _ t' _ _ ht' => by rw [write_tenants hw, ht'], fun env e hmem' he => ?_, fun hmem' => ?_⟩
  · refine write_find hw he fun env' cur cs next hc => ?_
    rintro rfl
    subst hc
    exact hid (h.compatible _ hmem' _ hplan.1 rfl rfl)
  · by_cases hten : tx'.tenant = tenant
    · refine absurd (h.compatible _ hmem' _ hmem (by rw [hten]) ?_) hid
      cases mode <;> simp_all [Mode.conflicts]
    · refine Fewer.write hw hten fun env cur cs next hc => ?_
      subst hc
      obtain ⟨-, e, he, howner, -⟩ := hplan
      exact ⟨e, he, howner⟩

theorem step {e : Event} (hok : Steady w e) (hstep : w.step types e = some w') : Inv types w' := by
  revert hstep
  fun_cases World.step types w e <;> intro hstep <;> try cases hstep
  case case1 => exact h.setTx trivial
  case case3 id =>
    obtain ⟨tx, htx, hrun⟩ := Option.bind_eq_some_iff.1 hstep
    exact h.run htx hok hrun
  case case4 id fresh tenant create t htx =>
    obtain ⟨db, hw, rfl⟩ := Option.map_eq_some_iff.1 hstep
    exact h.endTx fun id' tx' hid _ => h.commit_left htx hw hid
  case case6 id =>
    obtain ⟨tx, -, rfl⟩ := Option.map_eq_some_iff.1 hstep
    exact h.endTx_same id
  case case8 hfree => exact h.writeTenant (.inl ⟨_, .inl rfl, hfree⟩)
  case case10 hnone => exact h.writeTenant (.inr hnone)
  case case13 hfree => exact h.writeTenant (.inl ⟨_, .inr rfl, hfree⟩)
  case case15 hfree => exact h.writeTenant (.inl ⟨_, .inr rfl, hfree⟩)
  case case17 sid =>
    exact h.write fun id' tx' _ => ⟨fun _ hl _ => hl, fun _ _ _ _ ht => ht, fun _ _ _ he => he,
      fun _ => Fewer.removeSandbox _ sid _⟩
  case case18 jid =>
    exact h.write fun id' tx' _ => ⟨fun _ hl _ => hl, fun _ _ _ _ ht => ht, fun _ _ _ he => he,
      fun _ => Fewer.finishJob _ jid _⟩
  case case19 env hfree =>
    refine h.write fun id' tx' _ => ⟨fun _ hl _ => hl, fun _ _ _ _ ht => ht, fun env' e hmem he => ?_,
      fun _ => Fewer.markDeleting _ env _ _⟩
    refine find_map_of_ne he fun e' he' => ?_
    have hne : e'.id ≠ env := fun heq => hfree.not_held hmem (by rw [← he', heq]) rfl
    simp [markDeleting, hne]
  case case21 env hfree =>
    refine h.write fun id' tx' _ => ⟨fun _ hl _ => hl, fun _ _ _ _ ht => ht, fun env' e hmem he => ?_,
      fun _ => Fewer.removeEnvironment _ env _⟩
    have hne : env' ≠ env := fun heq => hfree.not_held hmem (by rw [heq]) rfl
    change (w.db.environments.filter _).find? _ = some e
    rw [find?_filter]
    refine Eq.trans ?_ he
    unfold findEnvironment
    congr 1
    funext e'
    by_cases he' : e'.id = env'
    · simp [he', hne]
    · simp [he']

end Inv

theorem inv_start (db : Tables) : Inv types (start db) := ⟨compatible_nil, fun _ _ h => nomatch h⟩

/-! The limits -/

/-- With what a create adds, the tenant's use of each resource that it asks for is within the
limit. -/
def Within (types : String → Option AddonType) (db : Tables) (tenant : String) (create : Create) : Prop :=
  ∀ t r limit, db.tenants tenant = some t → t.limits.of r = some limit → 0 < (create.asks types).of r →
    (db.use types tenant none).of r ≤ limit

theorem Create.ask_of_deploys {d : String × Option Spec × Spec} (h : create.deploys = some d) :
    create.ask.vcpus = 0 ∧ create.ask.memoryMiB = 0 := by
  cases create with
  | clone id name next => exact ⟨rfl, rfl⟩
  | deployment env cur cs next => exact ⟨rfl, rfl⟩
  | sandbox v m => cases h
  | job v m => cases h
  | environment id name => cases h

theorem within_of_passed {db' : Tables} {fresh : String}
    (hrow : db.tenants tenant = some t) (hw : db.write tenant fresh create = some db')
    (hcheck : t.limits.any = true → check t.limits (db.use types tenant none) create.ask = none)
    (hfind : t.limits.any = true → ∀ env current next, create.deploys = some (env, current, next) →
      specFindings types t.limits (db.use types tenant (some env)) current (some next) = [])
    (hmore : ∀ env current next, create.deploys = some (env, current, next) →
      (0 < (specUse types (some next)).1 → (specUse types current).1 < (specUse types (some next)).1) ∧
      (0 < (specUse types (some next)).2 → (specUse types current).2 < (specUse types (some next)).2)) :
    Within types db' tenant create := by
  intro t' r limit ht' hlimit hasks
  obtain rfl : t = t' := by
    rw [write_tenants hw, hrow] at ht'
    exact Option.some.inj ht'
  have hany := TenantLimits.any_of hlimit
  have hchecked := check_eq_none.1 (hcheck hany)
  -- what `Check` was asked for
  have asked : (create.deploys = none ∨ r ≠ .vcpus ∧ r ≠ .memoryMiB) → 0 < create.ask.of r →
      (db'.use types tenant none).of r ≤ limit := fun hr hpos =>
    (write_use hw hr).trans (hchecked r limit hlimit hpos)
  cases hd : create.deploys with
  | none =>
    refine asked (.inl hd) ?_
    simp only [Create.asks, hd] at hasks
    cases r <;> simpa [Use.of, specUse] using hasks
  | some d =>
    obtain ⟨env, current, next⟩ := d
    obtain ⟨hv, hm⟩ := specFindings_eq_nil.1 (hfind hany env current next hd)
    obtain ⟨hv', hm'⟩ := write_use_deploys types hw hd
    obtain ⟨hav, ham⟩ := Create.ask_of_deploys hd
    simp only [Create.asks, hd, Option.map_some] at hasks
    cases r with
    | sandboxes => exact asked (.inr (by simp)) hasks
    | environments => exact asked (.inr (by simp)) hasks
    | runningJobs => exact asked (.inr (by simp)) hasks
    | vcpus =>
      simp only [Use.of, hav, Nat.zero_add] at hasks
      refine hv'.trans ((findingOf_eq_none.1 hv limit hlimit).resolve_right ?_)
      exact not_le.2 ((hmore env current next hd).1 hasks)
    | memoryMiB =>
      simp only [Use.of, ham, Nat.zero_add] at hasks
      refine hm'.trans ((findingOf_eq_none.1 hm limit hlimit).resolve_right ?_)
      exact not_le.2 ((hmore env current next hd).2 hasks)

/-- In a run whose statements find what they must, every create that commits is within the
limits in force then. -/
theorem creates_within_limits_of_steady {db : Tables} {fresh : String}
    (hreach : Reach (World.step types) Steady (start db) w) (hstep : w.step types (.commit id fresh) = some w')
    (htx : w.txs id = some tx) (hrises : Rises types tx.create) :
    Within types w'.db tx.tenant tx.create := by
  have hinv : Inv types w := hreach.invariant (inv_start db) fun _ _ _ hi hok hs => hi.step hok hs
  simp only [World.step] at hstep
  split at hstep
  case h_2 => cases hstep
  rename_i tenant create t hw
  obtain rfl : (⟨tenant, create, .writing t⟩ : Tx) = tx := Option.some.inj (hw.symm.trans htx)
  obtain ⟨db', hwrite, rfl⟩ := Option.map_eq_some_iff.1 hstep
  obtain ⟨hready, hpassed⟩ := hinv.writing htx
  exact within_of_passed hready.locked.row hwrite (fun hany => (hpassed hany).1) (fun hany => (hpassed hany).2)
    fun env current next hd => hrises _ hd

/-- One tenant with these limits, and nothing of its. -/
def sampleTables (l : TenantLimits) : Tables where
  tenants := fun id => if id = "t" then some ⟨l, false⟩ else none
  sandboxes := []
  jobs := []
  environments := []
  ids := nodup_nil

def noAddons (_ : String) : Option AddonType := none

def lockAndCheck (id : ℕ) : List Event := [.run id, .run id, .run id, .run id]

def oneAfterTheOther : List Event :=
  [.begin 1 "t" (.sandbox 1 512), .run 1] ++ lockAndCheck 1 ++ [.commit 1 "a"] ++
    [.begin 2 "t" (.sandbox 1 512), .run 2] ++ lockAndCheck 2

theorem creates_within_limits_of_steady_two :
    ∃ w w' tx, Reach (World.step noAddons) Steady (start (sampleTables { sandboxes := some 2 })) w ∧
      w.step noAddons (.commit 2 "b") = some w' ∧ w.txs 2 = some tx ∧
        tx = ⟨"t", .sandbox 1 512, .writing ⟨{ sandboxes := some 2 }, false⟩⟩ ∧
      Within noAddons w'.db tx.tenant tx.create := by
  obtain ⟨w, hreach, htx, hcommits⟩ : ∃ w, Reach (World.step noAddons) Steady
      (start (sampleTables { sandboxes := some 2 })) w ∧
        w.txs 2 = some ⟨"t", .sandbox 1 512, .writing ⟨{ sandboxes := some 2 }, false⟩⟩ ∧
        (w.step noAddons (.commit 2 "b")).isSome :=
    exists_follow oneAfterTheOther (by decide +kernel)
  obtain ⟨w', hstep⟩ := Option.isSome_iff_exists.1 hcommits
  exact ⟨w, w', _, hreach, hstep, htx, rfl, creates_within_limits_of_steady hreach hstep htx (by decide)⟩

/-- Both creates read the tenant before it has limits. Each then has a lock that does not exclude
the other, and counts. -/
def bothCount : List Event :=
  [.begin 1 "t" (.sandbox 1 512), .begin 2 "t" (.sandbox 1 512), .run 1, .run 2,
    .setTenantLimits "t" { sandboxes := some 1 }] ++ lockAndCheck 1 ++ lockAndCheck 2 ++ [.commit 1 "a"]

/-- Two creates pass a limit of one sandbox together. -/
theorem two_creates_pass_a_limit :
    ∃ w w', Reach (World.step noAddons) (fun _ _ => True) (start (sampleTables {})) w ∧
      w.step noAddons (.commit 2 "b") = some w' ∧
        w.txs 2 = some ⟨"t", .sandbox 1 512, .writing ⟨{ sandboxes := some 1 }, false⟩⟩ ∧
      ¬ Within noAddons w'.db "t" (.sandbox 1 512) := by
  obtain ⟨w, hreach, htx, w', hstep, ht, huse⟩ : ∃ w, Reach (World.step noAddons) (fun _ _ => True)
      (start (sampleTables {})) w ∧ w.txs 2 = some ⟨"t", .sandbox 1 512, .writing ⟨{ sandboxes := some 1 }, false⟩⟩ ∧
        ∃ w' ∈ w.step noAddons (.commit 2 "b"), w'.db.tenants "t" = some ⟨{ sandboxes := some 1 }, false⟩ ∧
          (w'.db.use noAddons "t" none).sandboxes = 2 :=
    exists_follow bothCount (by decide +kernel)
  refine ⟨w, w', hreach, hstep, htx, fun hwithin => ?_⟩
  have hle : (w'.db.use noAddons "t" none).sandboxes ≤ 1 := hwithin _ .sandboxes 1 ht rfl (by decide)
  omega

end FeOS.Quota
