import FeOS.Sanity.SandboxTxn

/-! What a row keeps in every transaction. Apart from a begin, a row is written in few ways: its op
is released, an observation settles it, a late checkpoint is merged into it, or a rollback puts back
what the begin read. -/

namespace FeOS.Sandbox

def Settled (s : State) : Prop := s ≠ .pausing ∧ s ≠ .resuming ∧ s ≠ .hibernating

structure RowOk (r : Row) : Prop where
  opId : r.op = none ↔ r.opId = none
  opTarget : r.op = none ↔ r.opTarget = none
  transitional : ∀ k, r.op = some k → r.clientState = transitional k
  settled : r.op = none → Settled r.clientState
  unplaced : r.op = none → r.clientState = .pending → r.node = none ∧ r.materialised = false
  creating : r.op = some .create → r.materialised = false

structure ReadOk (h : Handle) : Prop where
  settled : Settled h.read.state
  pending : h.read.state = .pending → h.kind = .create ∧ h.read.node = none ∧ h.read.materialised = false
  notLost : h.read.state ≠ .lost

structure Owns (pod : String) (r : Row) (h : Handle) : Prop where
  pod : h.pod = pod
  inc : h.inc = r.incarnation
  kind : r.op = some h.kind
  target : r.opTarget = some h.target

/-- What only an insert, a begin or an op's end writes stays, and the checkpoint does not grow older. -/
structure Keeps (a b : Row) : Prop where
  incarnation : b.incarnation = a.incarnation
  vcpus : b.vcpus = a.vcpus
  memoryMiB : b.memoryMiB = a.memoryMiB
  op : b.op = a.op
  opId : b.opId = a.opId
  opTarget : b.opTarget = a.opTarget
  epoch : a.checkpointEpoch ≤ b.checkpointEpoch

structure Settles (node : Option String) (a b : Row) : Prop extends Keeps a b where
  node : b.node = none ∨ b.node = a.node ∨ b.node = node
  settled : Settled b.clientState ∨ b.clientState = a.clientState
  pending : b.clientState = .pending → b.node = none ∧ b.materialised = false ∧ a.materialised = false ∧
    a.hasCheckpoint = false ∧ b.checkpointHead = a.checkpointHead ∨ a.clientState = .pending
  lost : b.clientState = .lost → a.hasCheckpoint = false ∨ a.clientState = .lost

section Merge

variable (store : String) (cp : Checkpoint) (a : Row)

theorem mergeCheckpoint_keeps {β : Type} (f : Row → β)
    (hf : ∀ head epoch, f { a with checkpointHead := head, checkpointEpoch := epoch, checkpointStore := store } = f a) :
    f (mergeCheckpoint store cp a) = f a := by
  unfold mergeCheckpoint
  dsimp only
  split_ifs
  · rfl
  · rfl
  · rfl
  · exact hf _ _

@[simp] theorem mergeCheckpoint_clientState : (mergeCheckpoint store cp a).clientState = a.clientState :=
  mergeCheckpoint_keeps store cp a Row.clientState fun _ _ => rfl

@[simp] theorem mergeCheckpoint_node : (mergeCheckpoint store cp a).node = a.node :=
  mergeCheckpoint_keeps store cp a Row.node fun _ _ => rfl

end Merge

/-! What settles a row -/

theorem Keeps.refl (a : Row) : Keeps a a := ⟨rfl, rfl, rfl, rfl, rfl, rfl, le_rfl⟩

variable {a b r : Row}

theorem Keeps.trans {c : Row} (h : Keeps a b) (h' : Keeps b c) : Keeps a c :=
  ⟨h'.incarnation.trans h.incarnation, h'.vcpus.trans h.vcpus, h'.memoryMiB.trans h.memoryMiB, h'.op.trans h.op,
    h'.opId.trans h.opId, h'.opTarget.trans h.opTarget, h.epoch.trans h'.epoch⟩

theorem Keeps.restate (h : Keeps a b) (s : State) (avoid : List String) (p u : Option ℕ) :
    Keeps a { b with clientState := s, avoidNodes := avoid, pendingSince := p, unreachableSince := u } :=
  ⟨h.incarnation, h.vcpus, h.memoryMiB, h.op, h.opId, h.opTarget, h.epoch⟩

theorem mergeCheckpoint_kept (store : String) (cp : Checkpoint) (a : Row) : Keeps a (mergeCheckpoint store cp a) := by
  unfold mergeCheckpoint
  dsimp only
  split_ifs with _ hlt
  · exact .refl a
  · exact .refl a
  · exact .refl a
  · exact ⟨rfl, rfl, rfl, rfl, rfl, rfl, not_lt.1 hlt⟩

theorem seenOn_kept (store node : String) (info : Pod) (a : Row) : Keeps a (seenOn store node info a) :=
  have hset : Keeps a { a with node := some node, materialised := true, lostFrom := none } :=
    ⟨rfl, rfl, rfl, rfl, rfl, rfl, le_rfl⟩
  hset.trans (mergeCheckpoint_kept store info.checkpoint _)

@[simp] theorem seenOn_node (store node : String) (info : Pod) (a : Row) : (seenOn store node info a).node = some node := by
  simp [seenOn]

theorem podNotFound_kept (a : Row) : Keeps a (podNotFound a) := by
  unfold podNotFound
  split_ifs <;> exact ⟨rfl, rfl, rfl, rfl, rfl, rfl, le_rfl⟩

theorem podNotFound_settles (node : Option String) (h : Keeps a b) (hnode : b.node = a.node)
    (hmat : b.materialised = a.materialised) (hhead : b.checkpointHead = a.checkpointHead) :
    Settles node a (podNotFound b) := by
  have hcp : b.hasCheckpoint = a.hasCheckpoint := by simp only [Row.hasCheckpoint, hhead]
  refine
    { toKeeps := h.trans (podNotFound_kept b), node := ?_, settled := .inl ?_
      pending := fun hp => .inl ?_, lost := fun hl => .inl ?_ }
  · unfold podNotFound
    split_ifs <;> simp [hnode]
  · unfold podNotFound
    split_ifs <;> simp [Settled]
  · unfold podNotFound at hp ⊢
    split_ifs at hp ⊢ with hc hm
    rw [hmat] at hm
    simp_all
  · unfold podNotFound at hl
    split_ifs at hl with hc
    rw [← hcp]
    exact eq_false_of_ne_true hc

theorem Keeps.settles {node : String} (h : Keeps a b) (hnode : b.node = some node)
    (hst : Settled b.clientState ∧ b.clientState ≠ .pending ∧ b.clientState ≠ .lost ∨ b.clientState = a.clientState) :
    Settles (some node) a b where
  toKeeps := h
  node := .inr (.inr hnode)
  settled := hst.imp And.left id
  pending := fun hp => .inr <| by
    rcases hst with hst | hst
    · exact absurd hp hst.2.1
    · exact hst ▸ hp
  lost := fun hl => .inr <| by
    rcases hst with hst | hst
    · exact absurd hl hst.2.2
    · exact hst ▸ hl

theorem observeOurs_settles (store node : String) (now : ℕ) (info : Pod) (a : Row) :
    Settles (some node) a (observeOurs store node now info a) := by
  have hkept := seenOn_kept store node info a
  have hnode := seenOn_node store node info a
  unfold observeOurs
  cases info.state
  case other => exact hkept.settles hnode (.inr (by simp [seenOn]))
  all_goals exact (hkept.restate ..).settles hnode (.inl (by simp [Settled]))

theorem observe_settles (store node : String) (now : ℕ) (obs : Observation) (a : Row) :
    Settles (some node) a (observe store node now obs a).after := by
  have hgone : Settles (some node) a (podNotFound a) := podNotFound_settles _ (Keeps.refl a) rfl rfl rfl
  cases obs with
  | noAnswer => exact hgone
  | notFound => exact hgone
  | pod info =>
    simp only [observe]
    split_ifs
    · exact observeOurs_settles store node now info a
    · exact hgone

theorem applyOurs_settles (store target : String) (now : ℕ) (res : CallResult) (info : Pod) (h : Keeps a b) :
    Settles (some target) a (applyOurs store target now res info b) := by
  have hkept := h.trans (seenOn_kept store target info b)
  have hnode := seenOn_node store target info b
  unfold applyOurs
  cases info.state
  case hibernated =>
    have hset := hkept.restate .hibernated (seenOn store target info b).avoidNodes none
        (seenOn store target info b).unreachableSince
    split_ifs
    · refine (hset.trans (mergeCheckpoint_kept store res.checkpoint _)).settles ?_ (.inl ?_)
      · simp
      · simp [Settled]
    · exact hset.settles hnode (.inl (by simp [Settled]))
  all_goals exact (hkept.restate ..).settles hnode (.inl (by simp [Settled]))

theorem applyOutcome_settles (store : String) (kind : OpKind) (target : String) (inc now : ℕ) (res : CallResult)
    (obs : Observation)
    (r : Row) : Settles (some target) (releasedRow r) (applyOutcome store kind target inc now res obs r).after := by
  have hclear (avoid : List String) : Keeps (releasedRow r) { r.clearOp with avoidNodes := avoid } :=
    ⟨rfl, rfl, rfl, rfl, rfl, rfl, le_rfl⟩
  cases obs with
  | noAnswer =>
    refine { toKeeps := Keeps.refl _, node := .inr (.inl rfl), settled := .inr rfl, pending := ?_, lost := ?_ }
    · exact fun hp => nomatch hp
    · exact fun hl => nomatch hl
  | notFound =>
    simp only [applyOutcome]
    split_ifs
    · exact podNotFound_settles _ (hclear _) rfl rfl rfl
    · exact podNotFound_settles _ (hclear _) rfl rfl rfl
  | pod info =>
    simp only [applyOutcome]
    split_ifs
    · exact applyOurs_settles store target now res info (hclear _)
    · exact podNotFound_settles _ (hclear _) rfl rfl rfl

theorem down_settles (r : Row) : Settles r.node r { r with clientState := .unknown, gen := r.gen + 1 } where
  toKeeps := ⟨rfl, rfl, rfl, rfl, rfl, rfl, le_rfl⟩
  node := .inr (.inl rfl)
  settled := .inl (by simp [Settled])
  pending := fun hp => nomatch hp
  lost := fun hl => nomatch hl

theorem lostGrace_settles (r : Row) : Settles r.node r (lostGraceRow r) := by
  have hkept : Keeps r (lostGraceRow r) := ⟨rfl, rfl, rfl, rfl, rfl, rfl, le_rfl⟩
  refine { toKeeps := hkept, node := ?_, settled := .inl ?_, pending := fun hp => .inl ?_, lost := fun hl => .inl ?_ }
  · unfold lostGraceRow
    dsimp only
    split_ifs <;> simp
  · unfold lostGraceRow
    dsimp only
    split_ifs <;> simp [Settled]
  · unfold lostGraceRow at hp ⊢
    cases hcp : r.hasCheckpoint <;> cases hmat : r.materialised <;> simp_all
  · unfold lostGraceRow at hl
    cases hcp : r.hasCheckpoint
    · rfl
    · simp [hcp] at hl

/-! Begins -/

theorem beginRow_keeps {β : Type} (f : Row → β) {r : Row} {kind : OpKind} {opId deadline : ℕ} {owner target : String}
    (hf : ∀ (a : Row) node mat lost, f { a with node := node, materialised := mat, lostFrom := lost } = f a) :
    f (beginRow r kind opId owner deadline target) = f (r.withOp kind opId owner deadline target r.clientState) := by
  unfold beginRow
  dsimp only
  split_ifs
  · exact hf (r.withOp kind opId owner deadline target r.clientState) (some target) false none
  · exact hf (r.withOp kind opId owner deadline target r.clientState) (some target) r.materialised r.lostFrom
  · exact hf (r.withOp kind opId owner deadline target r.clientState) r.node false none
  · rfl

section Begin

variable (r : Row) (kind : OpKind) (opId : ℕ) (owner : String) (deadline : ℕ) (target : String)

@[simp] theorem beginRow_incarnation : (beginRow r kind opId owner deadline target).incarnation = r.incarnation :=
  beginRow_keeps Row.incarnation fun _ _ _ _ => rfl

@[simp] theorem beginRow_clientState : (beginRow r kind opId owner deadline target).clientState = transitional kind :=
  beginRow_keeps Row.clientState fun _ _ _ _ => rfl

@[simp] theorem beginRow_op : (beginRow r kind opId owner deadline target).op = some kind :=
  beginRow_keeps Row.op fun _ _ _ _ => rfl

@[simp] theorem beginRow_opId : (beginRow r kind opId owner deadline target).opId = some opId :=
  beginRow_keeps Row.opId fun _ _ _ _ => rfl

@[simp] theorem beginRow_opTarget : (beginRow r kind opId owner deadline target).opTarget = some target :=
  beginRow_keeps Row.opTarget fun _ _ _ _ => rfl

theorem beginRow_node :
    (beginRow r kind opId owner deadline target).node = if kind = .create ∨ kind = .restore then some target
      else r.node := by
  unfold beginRow
  dsimp only
  split_ifs <;> rfl

theorem beginRow_materialised (hmat : r.materialised = false) :
    (beginRow r kind opId owner deadline target).materialised = false := by
  unfold beginRow
  dsimp only
  split_ifs <;> simp [hmat]

end Begin

section Precheck

variable {r : Row} {i : Intent} {target : String} {reads : BeginReads}

theorem precheck_pending (h : precheck r i target reads = true) : i.kind = .create ↔ r.clientState = .pending := by
  unfold precheck precondition at h
  constructor
  · intro hk
    simp only [hk, Bool.and_eq_true, decide_eq_true_eq] at h
    exact h.1.1
  · intro hst
    cases hk : i.kind <;> simp [hk, hst] at h ⊢

theorem precheck_not_lost (h : precheck r i target reads = true) : r.clientState ≠ .lost := by
  unfold precheck precondition at h
  intro hst
  cases hk : i.kind <;> simp [hk, hst] at h

theorem precheck_node (h : precheck r i target reads = true) (hk : ¬ (i.kind = .create ∨ i.kind = .restore)) :
    r.node = some target := by
  unfold precheck precondition at h
  cases hkind : i.kind <;> simp_all

end Precheck

/-! The row's invariant -/

theorem new_ok (incarnation vcpus memoryMiB : ℕ) (pinNode : Option String) :
    RowOk (Row.new incarnation vcpus memoryMiB pinNode) := by
  constructor <;> simp [Row.new, Settled]

theorem RowOk.update (hb : RowOk b) : RowOk (r.update b) :=
  ⟨hb.opId, hb.opTarget, hb.transitional, hb.settled, hb.unplaced, hb.creating⟩

theorem RowOk.not_pending (hr : RowOk r) (hop : r.op = none) (hnode : r.node ≠ none) : r.clientState ≠ .pending :=
  fun hp => hnode (hr.unplaced hop hp).1

theorem releasedRow_ok (r : Row) : RowOk (releasedRow r) := by
  constructor <;> simp [releasedRow, Settled]

theorem Settles.rowOk {node : Option String} (h : Settles node a b) (ha : RowOk a) (hop : a.op = none)
    (hst : a.clientState ≠ .pending) : RowOk b where
  opId := by rw [h.op, h.opId]; exact ha.opId
  opTarget := by rw [h.op, h.opTarget]; exact ha.opTarget
  transitional := fun k hk => by simp [h.op, hop] at hk
  settled := fun _ => h.settled.elim id fun heq => heq ▸ ha.settled hop
  unplaced := fun _ hp => (h.pending hp).elim (fun hnew => ⟨hnew.1, hnew.2.1⟩) fun hold => absurd hold hst
  creating := fun hk => by simp [h.op, hop] at hk

theorem rollbackRow_cases (h : Handle) (unfit : Bool) (r : Row) :
    rollbackRow h unfit r = releasedRow r ∧ (h.preempted ≠ none ∨ h.takeover = true) ∨
      h.preempted = none ∧ h.takeover = false ∧ ∃ avoid, rollbackRow h unfit r =
        { r.clearOp with
          clientState := h.read.state
          node := h.read.node
          lostFrom := h.read.lostFrom
          materialised := h.read.materialised
          avoidNodes := avoid } := by
  unfold rollbackRow
  dsimp only
  split_ifs with hpre htake
  · exact .inl ⟨rfl, .inl hpre⟩
  · exact .inl ⟨rfl, .inr htake⟩
  · exact .inr ⟨not_not.1 hpre, eq_false_of_ne_true htake, _, rfl⟩
  · exact .inr ⟨not_not.1 hpre, eq_false_of_ne_true htake, _, rfl⟩

theorem rollback_ok {h : Handle} {unfit : Bool} (hread : h.takeover = false → ReadOk h) :
    RowOk (rollbackRow h unfit r) := by
  obtain ⟨heq, -⟩ | ⟨-, htake, avoid, heq⟩ := rollbackRow_cases h unfit r
  · rw [heq]
    exact releasedRow_ok r
  · have hread := hread htake
    rw [heq]
    constructor <;> simp [hread.settled]
    exact fun hp => (hread.pending hp).2

section Ran

variable {pod : String} {db : Reads} {row : Option Row} {r r' : Row} {t : Txn} {e : Effect}

theorem begin_ok {i : Intent} {target : String} {reads : BeginReads} (hr : RowOk r) (hop : r.op = none)
    (hpre : precheck r i target reads = true) (opId : ℕ) (owner : String) (deadline : ℕ) :
    RowOk (beginRow r i.kind opId owner deadline target) := by
  constructor
  case creating =>
    intro hk
    rw [beginRow_op, Option.some.injEq] at hk
    exact beginRow_materialised _ _ _ _ _ _ (hr.unplaced hop ((precheck_pending hpre).1 hk)).2
  all_goals simp

theorem mergeAll_kept (store : String) (cps : List Checkpoint) (r : Row) : Keeps r (mergeAll store cps r) := by
  induction cps generalizing r with
  | nil => exact Keeps.refl r
  | cons cp cps ih => exact (mergeCheckpoint_kept store cp r).trans (ih _)

theorem mergeAll_keeps {β : Type} (f : Row → β) (store : String) (cps : List Checkpoint)
    (hf : ∀ (a : Row) head epoch,
      f { a with checkpointHead := head, checkpointEpoch := epoch, checkpointStore := store } = f a)
    (r : Row) : f (mergeAll store cps r) = f r := by
  induction cps generalizing r with
  | nil => rfl
  | cons cp cps ih => exact (ih _).trans (mergeCheckpoint_keeps store cp r f (hf r))

theorem mergeAll_ok (store : String) (cps : List Checkpoint) (hr : RowOk r) : RowOk (mergeAll store cps r) := by
  have hkept := mergeAll_kept store cps r
  have hst := mergeAll_keeps Row.clientState store cps (fun _ _ _ => rfl) r
  have hnode := mergeAll_keeps Row.node store cps (fun _ _ _ => rfl) r
  have hmat := mergeAll_keeps Row.materialised store cps (fun _ _ _ => rfl) r
  constructor
  · rw [hkept.op, hkept.opId]; exact hr.opId
  · rw [hkept.op, hkept.opTarget]; exact hr.opTarget
  · rw [hkept.op, hst]; exact hr.transitional
  · rw [hkept.op, hst]; exact hr.settled
  · rw [hkept.op, hst, hnode, hmat]; exact hr.unplaced
  · rw [hkept.op, hmat]; exact hr.creating

theorem Ran.rowOk (h : Ran pod db (some r) t e) (hr : RowOk r)
    (hread : ∀ h unfit, t = .rollback h unfit → h.takeover = false → ReadOk h) (hafter : e.after = some r') : RowOk r' := by
  cases h <;> cases hafter
  case idle | bury => exact hr
  case begin hop hpre => exact (begin_ok hr hop hpre ..).update
  case takeover hop =>
    refine RowOk.update ⟨?_, hr.opTarget, hr.transitional, hr.settled, hr.unplaced, hr.creating⟩
    simp [hop]
  case preempt => exact RowOk.update (by constructor <;> simp)
  case finish => exact ((applyOutcome_settles _ _ _ _ _ _ _ r).rowOk (releasedRow_ok r) rfl (by simp [releasedRow])).update
  case merge => exact (mergeAll_ok _ _ hr).update
  case rollback => exact (rollback_ok (hread _ _ rfl)).update
  case release =>
    have hr := releasedRow_ok r
    exact ⟨hr.opId, hr.opTarget, hr.transitional, hr.settled, hr.unplaced, hr.creating⟩
  case observed hop hnode _ => exact ((observe_settles _ _ _ _ r).rowOk hr hop (hr.not_pending hop (by simp [hnode]))).update
  case down hop hnode _ => exact (down_settles r).rowOk hr hop (hr.not_pending hop hnode)
  case grace hop hnode _ _ => exact (lostGrace_settles r).rowOk hr hop (hr.not_pending hop hnode)

theorem Ran.exists_row (h : Ran pod db row t e) (hwrites : e.after ≠ none ∨ e.begun ≠ none) : ∃ r, row = some r := by
  cases row with
  | some r => exact ⟨r, rfl⟩
  | none => cases h <;> exact absurd hwrites (by simp [nothing])

theorem Ran.ops (h : Ran pod db (some r) t e) (hr : RowOk r) (hafter : e.after = some r') :
    r'.incarnation = r.incarnation ∧ (r'.op = r.op ∧ r'.opId = r.opId ∧ r'.opTarget = r.opTarget ∨
      r'.op = .none ∧ r'.opId = .none ∧ r'.opTarget = .none ∨
      ∃ h', e.begun = some h' ∧ r'.opId = some h'.opId ∧ Owns pod r' h') := by
  cases h <;> cases hafter
  case idle | bury | down | grace => exact ⟨rfl, .inl ⟨rfl, rfl, rfl⟩⟩
  case begin => exact ⟨by simp, .inr (.inr ⟨_, rfl, by simp, rfl, by simp, by simp, by simp⟩)⟩
  case takeover hop =>
    have htarget : r.opTarget ≠ .none := fun hn => by simp [hr.opTarget.2 hn] at hop
    obtain ⟨target, htarget⟩ := Option.ne_none_iff_exists'.1 htarget
    exact ⟨rfl, .inr (.inr ⟨_, rfl, rfl, rfl, rfl, hop, by simp [htarget]⟩)⟩
  case preempt => exact ⟨rfl, .inr (.inr ⟨_, rfl, rfl, rfl, rfl, rfl, rfl⟩)⟩
  case finish h res obs _ _ _ =>
    have hset := applyOutcome_settles (db.storeOf h.target) h.kind h.target h.inc db.now res obs r
    exact ⟨hset.incarnation, .inr (.inl ⟨hset.op, hset.opId, hset.opTarget⟩)⟩
  case merge h res obs _ _ _ _ =>
    have hkept := mergeAll_kept (db.storeOf h.target) (reported h res obs) r
    exact ⟨hkept.incarnation, .inl ⟨hkept.op, hkept.opId, hkept.opTarget⟩⟩
  case rollback h unfit _ _ _ =>
    obtain ⟨heq, -⟩ | ⟨-, -, avoid, heq⟩ := rollbackRow_cases h unfit r
    · rw [heq]
      exact ⟨rfl, .inr (.inl ⟨rfl, rfl, rfl⟩)⟩
    · rw [heq]
      exact ⟨rfl, .inr (.inl ⟨rfl, rfl, rfl⟩)⟩
  case release => exact ⟨rfl, .inr (.inl ⟨rfl, rfl, rfl⟩)⟩
  case observed node obs _ _ _ =>
    have hset := observe_settles (db.storeOf node) node db.now obs r
    exact ⟨hset.incarnation, .inl ⟨hset.op, hset.opId, hset.opTarget⟩⟩

theorem Ran.begun (h : Ran pod db (some r) t e) (hr : RowOk r) {h' : Handle} (hbegun : e.begun = some h') :
    h'.opId = db.fresh ∧ h'.inc = r.incarnation ∧ h'.pod = pod ∧ (h'.takeover = false → ReadOk h') := by
  cases h <;> cases hbegun
  case begin hop hpre =>
    refine ⟨rfl, rfl, rfl, fun _ => ⟨hr.settled hop, fun hp => ?_, precheck_not_lost hpre⟩⟩
    exact ⟨(precheck_pending hpre).2 hp, hr.unplaced hop hp⟩
  case takeover => exact ⟨rfl, rfl, rfl, fun h => nomatch h⟩
  case preempt => exact ⟨rfl, rfl, rfl, fun _ => ⟨by simp [Settled], (fun hp => nomatch hp), by simp⟩⟩

end Ran

end FeOS.Sandbox
