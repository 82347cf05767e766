import FeOS.Sanity.SandboxInv

/-! The state machine of a sandbox's row, over any run of the engine's instances. Its state follows
its op, an op ends once, and its checkpoint does not grow older. A row with a checkpoint, or whose
pod was seen, is not given up, but for a late checkpoint of a row that a create holds. -/

namespace FeOS.Sandbox

open Runs

variable {nodes : String → Option NodeRow} {w w' : World} {ev : Event} {pod : String} {db : Reads} {t : Txn} {e : Effect}
  {r r' : Row}

/-- The columns that only an op's own transactions write while it holds the row. -/
def Row.lifecycle (r : Row) :
    State × Option String × Option OpKind × Option ℕ × Option String × ℕ × Option String × Option State :=
  (r.clientState, r.node, r.op, r.opId, r.opOwner, r.opDeadline, r.opTarget, r.opFromState)

inductive Written (r : Row) (t : Txn) (r' : Row) : Prop
  | stays (hr : r' = r)
  | begins (k : OpKind) (hop : r'.op = some k) (hst : r'.clientState = transitional k)
      (hhead : r'.checkpointHead = r.checkpointHead) (hepoch : r'.checkpointEpoch = r.checkpointEpoch)
      (hcreate : k = .create → r.op = some .create ∨ r.op = none ∧ r.clientState = .pending)
  | settles (a : Row) (node : Option String) (ha : a = r ∧ r.op = none ∧ r.node ≠ none ∨ a = releasedRow r)
      (hs : Settles node a r')
  | merges (h : Handle) (res : CallResult) (obs : Observation) (store : String) (ht : t = .finish h res obs)
      (hinc : r.incarnation = h.inc) (hid : r.opId ≠ some h.opId) (hnode : r.node = some h.target)
      (hnew : (reported h res obs).any (newer r) = true) (hr : r' = r.update (mergeAll store (reported h res obs) r))
  | putsBack (h : Handle) (unfit : Bool) (ht : t = .rollback h unfit) (hid : r.opId = some h.opId)
      (htake : h.takeover = false)
      (hop : r'.op = none) (hst : r'.clientState = h.read.state) (hhead : r'.checkpointHead = r.checkpointHead)
      (hepoch : r'.checkpointEpoch = r.checkpointEpoch)

theorem Settles.of_eq {node : Option String} {a b b' : Row} (h : Settles node a b) (g : ℕ) (hb : b' = { b with gen := g }) :
    Settles node a b' := by
  subst hb
  exact ⟨⟨h.incarnation, h.vcpus, h.memoryMiB, h.op, h.opId, h.opTarget, h.epoch⟩, h.node, h.settled, h.pending, h.lost⟩

theorem releasedRow_settles (r : Row) : Settles none (releasedRow r) (releasedRow r) where
  toKeeps := Keeps.refl _
  node := .inr (.inl rfl)
  settled := .inr rfl
  pending := fun hp => nomatch hp
  lost := fun hl => nomatch hl

theorem Ran.written (h : Ran pod db (some r) t e) (hr : RowOk r) (hafter : e.after = some r') : Written r t r' := by
  cases h <;> cases hafter
  case idle | bury => exact .stays rfl
  case begin owner i target reads hop hpre =>
    exact .begins i.kind (by simp) (by simp) (beginRow_keeps Row.checkpointHead fun _ _ _ _ => rfl)
      (beginRow_keeps Row.checkpointEpoch fun _ _ _ _ => rfl) fun hk => .inr ⟨hop, (precheck_pending hpre).1 hk⟩
  case takeover kind hop => exact .begins kind hop (hr.transitional kind hop) rfl rfl fun hk => .inl (hk ▸ hop)
  case preempt => exact .begins .resume rfl rfl rfl rfl fun hk => nomatch hk
  case finish => exact .settles (releasedRow r) _ (.inr rfl) ((applyOutcome_settles _ _ _ _ _ _ _ r).of_eq _ rfl)
  case merge hinc hid hnode hnew => exact .merges _ _ _ _ rfl hinc hid hnode hnew rfl
  case rollback h unfit _ _ hid =>
    obtain ⟨heq, -⟩ | ⟨-, htake, avoid, heq⟩ := rollbackRow_cases h unfit r
    · rw [heq]
      exact .settles (releasedRow r) none (.inr rfl) ((releasedRow_settles r).of_eq _ rfl)
    · rw [heq]
      exact .putsBack h unfit rfl hid htake rfl rfl rfl rfl
  case release => exact .settles (releasedRow r) none (.inr rfl) ((releasedRow_settles r).of_eq _ rfl)
  case observed hop hnode _ =>
    exact .settles r _ (.inl ⟨rfl, hop, by simp [hnode]⟩) ((observe_settles _ _ _ _ r).of_eq _ rfl)
  case down hop hnode _ => exact .settles r _ (.inl ⟨rfl, hop, hnode⟩) (down_settles r)
  case grace hop hnode _ _ => exact .settles r _ (.inl ⟨rfl, hop, hnode⟩) (lostGrace_settles r)

/-! An op ends once -/

theorem Inv.step_opId (hw : Inv w) (hstep : w.step ev = some w') {x : ℕ} (hx : x < w.fresh) (hrow : w'.rows pod = some r')
    (hid : r'.opId = some x) : ∃ r, w.rows pod = some r ∧ r.opId = some x := by
  obtain ⟨_, _, _, rfl⟩ | hr | ⟨t, e, r, -, -, hr, hran, hafter⟩ := step_row hstep hrow
  · cases hid
  · exact ⟨r', hr, hid⟩
  · obtain ⟨-, ⟨-, heq, -⟩ | ⟨-, hnone, -⟩ | ⟨h, hbegun, heq, -⟩⟩ := hran.ops (hw.row _ r hr) hafter
    · exact ⟨r, hr, heq ▸ hid⟩
    · simp [hnone] at hid
    · have hfresh : h.opId = w.fresh := (hran.begun (hw.row _ r hr) hbegun).1
      have hxid : h.opId = x := Option.some.inj (heq.symm.trans hid)
      omega

structure Over (x : ℕ) (w : World) : Prop extends Inv w where
  given : x < w.fresh
  gone : ∀ pod r, w.rows pod = some r → r.opId ≠ some x

theorem Over.step {x : ℕ} (hw : Over x w) (hstep : w.step ev = some w') : Over x w' where
  toInv := hw.toInv.step hstep
  given := hw.given.trans_le (step_fresh hstep)
  gone := fun pod r hr hid => by
    obtain ⟨r₀, hr₀, hid₀⟩ := hw.toInv.step_opId hstep hw.given hr hid
    exact hw.gone pod r₀ hr₀ hid₀

theorem Inv.over (hw : Inv w) {x : ℕ} (hrow : w.rows pod = some r) (hid : r.opId = some x) (hstep : w.step ev = some w')
    (hends : ∀ r', w'.rows pod = some r' → r'.opId ≠ some x) : Over x w' := by
  obtain ⟨h, hh, rfl, ho⟩ := hw.owned pod r x hrow hid
  refine ⟨hw.step hstep, (hw.below h hh).1.trans_le (step_fresh hstep), fun p r' hr' hid' => ?_⟩
  obtain ⟨r₀, hr₀, hid₀⟩ := hw.step_opId hstep (hw.below h hh).1 hr' hid'
  have hpod : p = pod := (hw.owns hr₀ hh hid₀).pod.symm.trans ho.pod
  subst hpod
  exact hends r' hr' hid'

theorem mergeAll_lifecycle (store : String) (cps : List Checkpoint) (r : Row) :
    (mergeAll store cps r).lifecycle = r.lifecycle :=
  mergeAll_keeps Row.lifecycle store cps (fun _ _ _ => rfl) r

theorem Ran.fenced {row : Option Row} (h : Ran pod db row t e) {hd : Handle} (hends : t.ends = some hd)
    (hid : ∀ r, row = some r → r.opId ≠ some hd.opId) :
    e.booking = .unchanged ∧ e.after.map Row.lifecycle = row.map Row.lifecycle := by
  cases h with
  | idle | bury => exact ⟨rfl, rfl⟩
  | @merge r h res obs => exact ⟨rfl, congrArg some (mergeAll_lifecycle (db.storeOf h.target) (reported h res obs) r)⟩
  | finish _ _ hown =>
    cases hends
    exact absurd hown (hid _ rfl)
  | rollback _ _ hown =>
    cases hends
    exact absurd hown (hid _ rfl)
  | release ht | observed ht | down ht | grace ht => simp [ht] at hends
  | begin | takeover | preempt | delete => cases hends

theorem Over.ends_nothing {x : ℕ} (hw : Over x w) {h : Handle} (hends : t.ends = some h) (hx : h.opId = x)
    (hstep : w.step (.commit pod t) = some w') :
    w'.bookings = w.bookings ∧ ∀ p, (w'.rows p).map Row.lifecycle = (w.rows p).map Row.lifecycle := by
  obtain ⟨e, bs, -, hran, hbs, rfl⟩ := step_commit hstep
  obtain ⟨hbooking, hlife⟩ := hran.fenced hends fun r hr => hx ▸ hw.gone pod r hr
  simp only [World.bookingsAfter, hbooking, Option.some.injEq] at hbs
  refine ⟨hbs.symm, fun p => ?_⟩
  simp only [World.write, Function.update_apply]
  split_ifs with hp
  · rw [hp, hlife]
  · rfl

/-! The checkpoint's epoch -/

theorem Written.epoch (h : Written r t r') : r.checkpointEpoch ≤ r'.checkpointEpoch := by
  cases h with
  | stays hr => exact hr ▸ le_rfl
  | begins k _ _ _ hepoch => exact hepoch.ge
  | settles a node ha hs =>
    rcases ha with ⟨rfl, -⟩ | rfl
    · exact hs.epoch
    · exact hs.epoch
  | merges h res obs store _ _ _ _ _ hr =>
    subst hr
    exact (mergeAll_kept store (reported h res obs) r).epoch
  | putsBack h unfit _ _ _ _ _ _ hepoch => exact hepoch.ge

structure Since (pod : String) (inc epoch : ℕ) (w : World) : Prop extends Inv w where
  given : inc < w.fresh
  newer : ∀ r, w.rows pod = some r → r.incarnation = inc → epoch ≤ r.checkpointEpoch

theorem Since.step {inc epoch : ℕ} (hw : Since pod inc epoch w) (hstep : w.step ev = some w') : Since pod inc epoch w' where
  toInv := hw.toInv.step hstep
  given := hw.given.trans_le (step_fresh hstep)
  newer := fun r' hr' hinc => by
    obtain ⟨_, _, _, rfl⟩ | hr | ⟨t, e, r, -, -, hr, hran, hafter⟩ := step_row hstep hr'
    · -- another incarnation
      exact absurd hinc hw.given.ne'
    · exact hw.newer r' hr hinc
    · have hrow := hw.row _ r hr
      exact (hw.newer r hr ((hran.ops hrow hafter).1.symm.trans hinc)).trans (hran.written hrow hafter).epoch

/-! Where a row is not moved -/

/-- No late end of an earlier op brings a newer checkpoint to a row that a create holds. -/
def Calm (w : World) : Event → Prop
  | .commit pod (.finish h res obs) => ∀ r ∈ w.rows pod, r.op = some .create → r.incarnation = h.inc → r.opId ≠ some h.opId →
      r.node = some h.target → (reported h res obs).any (newer r) = false
  | _ => True

structure CalmInv (w : World) : Prop extends Inv w where
  unsaved : ∀ pod r, w.rows pod = some r → r.op = some .create ∨ r.op = none ∧ r.clientState = .pending →
    r.checkpointHead = ""

theorem CalmInv.start : CalmInv (World.start nodes) := ⟨inv_start, fun _ _ hr => nomatch hr⟩

theorem hasCheckpoint_eq_false : r.hasCheckpoint = false ↔ r.checkpointHead = "" := by
  simp [Row.hasCheckpoint]

theorem Inv.putsBack_pending (hw : Inv w) (hrow : w.rows pod = some r) {h : Handle} (hh : h ∈ w.handles)
    (hid : r.opId = some h.opId) (htake : h.takeover = false) (hp : h.read.state = .pending) : r.op = some .create := by
  rw [(hw.owns hrow hh hid).kind, ((hw.read h hh htake).pending hp).1]

theorem settles_op {a : Row} (ha : a = r ∧ r.op = none ∧ r.node ≠ none ∨ a = releasedRow r) : a.op = none := by
  rcases ha with ⟨rfl, hop, -⟩ | rfl
  · exact hop
  · rfl

theorem settles_not_pending {a : Row} (hr : RowOk r) (ha : a = r ∧ r.op = none ∧ r.node ≠ none ∨ a = releasedRow r) :
    a.clientState ≠ .pending := by
  rcases ha with ⟨rfl, hop, hnode⟩ | rfl
  · exact hr.not_pending hop hnode
  · simp [releasedRow]

theorem CalmInv.written (hw : CalmInv w) (hok : Calm w (.commit pod t)) (hmay : t.mayRun pod w.handles w.sent = true)
    (hrow : w.rows pod = some r) (h : Written r t r')
    (hwait : r'.op = some .create ∨ r'.op = none ∧ r'.clientState = .pending) :
    r'.checkpointHead = "" := by
  have hr := hw.row pod r hrow
  cases h with
  | stays heq =>
    subst heq
    exact hw.unsaved pod r' hrow hwait
  | begins k hop _ hhead _ hcreate =>
    rw [hhead]
    refine hw.unsaved pod r hrow (hcreate ?_)
    simpa [hop] using hwait
  | settles a node ha hs =>
    have hop : r'.op = none := hs.op.trans (settles_op ha)
    have hp : r'.clientState = .pending := by simpa [hop] using hwait
    rcases hs.pending hp with ⟨-, -, -, hcp, hhead⟩ | hp
    · rw [hhead, hasCheckpoint_eq_false.1 hcp]
    · exact absurd hp (settles_not_pending hr ha)
  | merges h res obs store ht hinc hid hnode hnew heq =>
    subst ht
    have hkept := mergeAll_kept store (reported h res obs) r
    have hst := mergeAll_keeps Row.clientState store (reported h res obs) (fun _ _ _ => rfl) r
    rw [heq, Row.update_op, hkept.op, Row.update_clientState, hst] at hwait
    rcases hwait with hcreate | ⟨hop, hp⟩
    · simp [hok r hrow hcreate hinc hid hnode] at hnew
    · simp [(hr.unplaced hop hp).1] at hnode
  | putsBack h unfit ht hid htake hop hst hhead hepoch =>
    subst ht
    have hp : h.read.state = .pending := by simpa [hop, hst] using hwait
    rw [hhead]
    exact hw.unsaved pod r hrow (.inl (hw.putsBack_pending hrow (mem_of_ends hmay rfl).1 hid htake hp))

theorem CalmInv.step (hw : CalmInv w) (hok : Calm w ev) (hstep : w.step ev = some w') : CalmInv w' where
  toInv := hw.toInv.step hstep
  unsaved := fun pod r' hr' hwait => by
    obtain ⟨_, _, _, rfl⟩ | hr | ⟨t, e, r, rfl, hmay, hr, hran, hafter⟩ := step_row hstep hr'
    · rfl
    · exact hw.unsaved pod r' hr hwait
    · exact hw.written hok hmay hr (hran.written (hw.row _ r hr) hafter) hwait

/-- The transaction gives the row up: its state becomes this one. -/
def Moves (r r' : Row) (s : State) : Prop := r.clientState ≠ s ∧ r'.clientState = s

theorem CalmInv.moves (hw : CalmInv w) (hmay : t.mayRun pod w.handles w.sent = true) (hrow : w.rows pod = some r)
    (h : Written r t r') :
    (Moves r r' .lost → r.hasCheckpoint = false) ∧
      (Moves r r' .pending → r.hasCheckpoint = false ∧ r.materialised = false) := by
  have hr := hw.row pod r hrow
  cases h with
  | stays heq =>
    subst heq
    exact ⟨fun hm => absurd hm.2 hm.1, fun hm => absurd hm.2 hm.1⟩
  | begins k hop hst =>
    refine ⟨fun hm => ?_, fun hm => ?_⟩
    all_goals
      have hk := hst.symm.trans hm.2
      cases k <;> cases hk
  | settles a node ha hs =>
    -- a release changes neither the checkpoint nor whether the pod was seen
    have hcp : a.hasCheckpoint = r.hasCheckpoint ∧ a.materialised = r.materialised := by
      rcases ha with ⟨rfl, -⟩ | rfl <;> exact ⟨rfl, rfl⟩
    rw [← hcp.1, ← hcp.2]
    refine ⟨fun hm => (hs.lost hm.2).resolve_right ?_, fun hm => ?_⟩
    · rcases ha with ⟨rfl, -⟩ | rfl
      · exact hm.1
      · simp [releasedRow]
    · obtain ⟨-, -, hmat, hcp, -⟩ := (hs.pending hm.2).resolve_right (settles_not_pending hr ha)
      exact ⟨hcp, hmat⟩
  | merges h res obs store _ _ _ _ _ heq =>
    have hst : r'.clientState = r.clientState := by
      rw [heq, Row.update_clientState]
      exact mergeAll_keeps Row.clientState store (reported h res obs) (fun _ _ _ => rfl) r
    exact ⟨fun hm => absurd (hst.symm.trans hm.2) hm.1, fun hm => absurd (hst.symm.trans hm.2) hm.1⟩
  | putsBack h unfit ht hid htake hop hst =>
    subst ht
    have hh := (mem_of_ends hmay rfl).1
    refine ⟨fun hm => absurd (hst.symm.trans hm.2) (hw.read h hh htake).notLost, fun hm => ?_⟩
    have hcreate := hw.putsBack_pending hrow hh hid htake (hst.symm.trans hm.2)
    exact ⟨hasCheckpoint_eq_false.2 (hw.unsaved pod r hrow (.inl hcreate)), hr.creating hcreate⟩

/-- The state machine of the rows, in every state of every run; the last part where no late
checkpoint came to a row that a create held. -/
theorem row_machine_of_calm (hreach : Reach World.step anyStep (World.start nodes) w) :
    (∀ pod r, w.rows pod = some r → (r.op ≠ none ↔ r.opId ≠ none) ∧ (∀ k, r.op = some k → r.clientState = transitional k) ∧
      (r.clientState = .pausing ∨ r.clientState = .resuming ∨ r.clientState = .hibernating → r.op ≠ none)) ∧
    (∀ pod r x ev w₁ w₂, w.rows pod = some r → r.opId = some x → w.step ev = some w₁ →
      (∀ r₁, w₁.rows pod = some r₁ → r₁.opId ≠ some x) → Reach World.step anyStep w₁ w₂ →
      (∀ pod' r₂, w₂.rows pod' = some r₂ → r₂.opId ≠ some x) ∧
      ∀ pod' t h w₃, t.ends = some h → h.opId = x → w₂.step (.commit pod' t) = some w₃ →
        w₃.bookings = w₂.bookings ∧ ∀ p, (w₃.rows p).map Row.lifecycle = (w₂.rows p).map Row.lifecycle) ∧
    (∀ pod r r' w', w.rows pod = some r → Reach World.step anyStep w w' → w'.rows pod = some r' →
      r'.incarnation = r.incarnation →
      r.checkpointEpoch ≤ r'.checkpointEpoch) ∧
    (Reach World.step Calm (World.start nodes) w → ∀ pod t r r' w', w.step (.commit pod t) = some w' → w.rows pod = some r →
      w'.rows pod = some r' →
      (Moves r r' .lost → r.hasCheckpoint = false) ∧
        (Moves r r' .pending → r.hasCheckpoint = false ∧ r.materialised = false)) := by
  have hw := inv_of_reach hreach
  refine ⟨fun pod r hr => ?_, fun pod r x ev w₁ w₂ hr hx hstep hends hlater => ?_, fun pod r r' w' hr hlater hr' hinc => ?_,
    fun hcalm pod t r r' w' hstep hr hr' => ?_⟩
  · have hrow := hw.row pod r hr
    refine ⟨not_congr hrow.opId, hrow.transitional, fun hst hop => ?_⟩
    obtain ⟨h1, h2, h3⟩ := hrow.settled hop
    exact hst.elim h1 (Or.rec h2 h3)
  · have hover : Over x w₂ := hlater.invariant (hw.over hr hx hstep hends) fun _ _ _ h _ hs => h.step hs
    exact ⟨hover.gone, fun pod' t h w₃ hends hid hs => hover.ends_nothing hends hid hs⟩
  · have hsince : Since pod r.incarnation r.checkpointEpoch w := by
      refine ⟨hw, hw.incarnation pod r hr, fun r₁ hr1 _ => ?_⟩
      rw [Option.some.inj (hr.symm.trans hr1)]
    exact (hlater.invariant hsince fun _ _ _ h _ hs => h.step hs).newer r' hr' hinc
  · have hcalm : CalmInv w := hcalm.invariant CalmInv.start fun _ _ _ h hok hs => h.step hok hs
    obtain ⟨e, bs, hmay, hran, -, rfl⟩ := step_commit hstep
    obtain ⟨hne, -⟩ | ⟨-, r₀, hr₀, hran, hafter⟩ := write_row hran hr'
    · exact absurd rfl hne
    · cases hr.symm.trans hr₀
      exact hcalm.moves hmay hr (hran.written (hw.row pod r hr) hafter)

instance (w : World) (ev : Event) : Decidable (Calm w ev) := by
  unfold Calm
  split <;> infer_instance

theorem row_machine_of_calm_create :
    ∃ w r r' w', Reach World.step Calm (World.start sampleNodes) w ∧ w.rows "p" = some r ∧ r.op = some .create ∧
      w.step (.commit "p" (.releaseOp 1)) = some w' ∧ w'.rows "p" = some r' ∧ r'.op = none ∧
        r.clientState = transitional .create ∧
      (Moves r r' .pending → r.hasCheckpoint = false ∧ r.materialised = false) := by
  obtain ⟨w, hreach, r, hr, hop, w', hstep, r', hr', hop'⟩ : ∃ w, Reach World.step Calm (World.start sampleNodes) w ∧
      ∃ r ∈ w.rows "p", r.op = some .create ∧ ∃ w' ∈ w.step (.commit "p" (.releaseOp 1)), ∃ r' ∈ w'.rows "p", r'.op = none :=
    exists_follow createBegun (by decide +kernel)
  have hany : Reach World.step anyStep (World.start sampleNodes) w := hreach.mono fun _ _ _ => trivial
  obtain ⟨hstates, -, -, hmoves⟩ := row_machine_of_calm hany
  exact ⟨w, r, r', w', hreach, hr, hop, hstep, hr', hop', (hstates "p" r hr).2.1 _ hop,
    (hmoves hreach "p" _ r r' w' hstep hr hr').2⟩

def secondCreate : Handle := sampleHandle 4 .create "a" ⟨.pending, none, none, false⟩ []

/-- The first create is released and the node has no pod, so that the sandbox is created there again. Then
the first one's late end finds a pod with a checkpoint. -/
def lateCheckpoint : List Event :=
  createBegun ++
    [.commit "p" (.releaseOp 1),
      .commit "p" (.applySync 2 0 "a" .notFound),
      .commit "p" (sampleBegin .create .ensure "a"),
      .commit "p" (.finish sampleCreate ⟨none, noCheckpoint⟩ (.pod ⟨some 0, true, .hibernated, ⟨"head", 1⟩⟩))]

/-- The second create's rollback moves a row with a checkpoint to pending. -/
theorem rollback_drops_a_checkpoint :
    ∃ w w' r r', Reach World.step anyStep (World.start sampleNodes) w ∧
      w.step (.commit "p" (.rollback secondCreate false)) = some w' ∧ w.rows "p" = some r ∧ w'.rows "p" = some r' ∧
      r.hasCheckpoint = true ∧ r.clientState = .creating ∧ r'.hasCheckpoint = true ∧ r'.clientState = .pending := by
  obtain ⟨w, hreach, w', hstep, r, hr, r', hr', h⟩ : ∃ w, Reach World.step anyStep (World.start sampleNodes) w ∧
      ∃ w' ∈ w.step (.commit "p" (.rollback secondCreate false)), ∃ r ∈ w.rows "p", ∃ r' ∈ w'.rows "p",
        r.hasCheckpoint = true ∧ r.clientState = .creating ∧ r'.hasCheckpoint = true ∧ r'.clientState = .pending :=
    exists_follow lateCheckpoint (by decide +kernel)
  exact ⟨w, w', r, r', hreach, hstep, hr, hr', h⟩

/-- A row without an op is at rest; an op that a row is in was begun once, for that row. -/
theorem rows_rest_or_are_held (nodes : String → Option NodeRow) :
    (∀ w, Reach World.step anyStep (World.start nodes) w → ∀ pod r, w.rows pod = some r → r.op = none →
      r.opTarget = none ∧ Settled r.clientState ∧ (r.clientState = .pending → r.node = none ∧ r.materialised = false)) ∧
    ∀ w, Reach World.step anyStep (World.start nodes) w → ∀ pod r x, w.rows pod = some r → r.opId = some x →
      (∃! h, h ∈ w.handles ∧ h.opId = x ∧ Owns pod r h) ∧ ∀ pod' r', w.rows pod' = some r' → r'.opId = some x →
        pod' = pod := by
  refine ⟨fun w h pod r hr hop => ?_, fun w h pod r x hr hx => ?_⟩
  · have hok := (inv_of_reach h).row pod r hr
    exact ⟨hok.opTarget.1 hop, hok.settled hop, hok.unplaced hop⟩
  · have hw := inv_of_reach h
    obtain ⟨hd, hmem, rfl, howns⟩ := hw.owned pod r x hr hx
    refine ⟨⟨hd, ⟨hmem, rfl, howns⟩, fun hd' h' => hw.unique hd' h'.1 hd hmem h'.2.1⟩, fun pod' r' hr' hx' => ?_⟩
    exact (hw.owns hr' hmem hx').pod.symm.trans howns.pod

theorem rows_rest_or_are_held_create :
    ∃ w w' r r', Reach World.step anyStep (World.start sampleNodes) w ∧ w.step (.commit "p" (.releaseOp 1)) = some w' ∧
      w.rows "p" = some r ∧ (∃! h, h ∈ w.handles ∧ h.opId = 1 ∧ Owns "p" r h) ∧
      w'.rows "p" = some r' ∧ r'.op = none ∧ Settled r'.clientState := by
  obtain ⟨w, hreach, w', hstep, r, hr, hid, r', hr', hop⟩ : ∃ w, Reach World.step anyStep (World.start sampleNodes) w ∧
      ∃ w' ∈ w.step (.commit "p" (.releaseOp 1)), ∃ r ∈ w.rows "p", r.opId = some 1 ∧
        ∃ r' ∈ w'.rows "p", r'.op = none :=
    exists_follow createBegun (by decide +kernel)
  obtain ⟨hrest, hheld⟩ := rows_rest_or_are_held sampleNodes
  exact ⟨w, w', r, r', hreach, hstep, hr, (hheld w hreach "p" r 1 hr hid).1, hr', hop,
    (hrest w' (hreach.step trivial hstep) "p" r' hr' hop).2.1⟩

end FeOS.Sandbox
