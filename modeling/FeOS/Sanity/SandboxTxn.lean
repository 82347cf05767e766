import FeOS.Spec.SandboxWorld

/-! What the transactions on a sandbox's row can do, said once. -/

namespace FeOS.Sandbox

def Row.places (r : Row) (n : String) : Prop := r.node = some n ∨ r.opTarget = some n

/-- The row does not place a pod of the key's incarnation on the key's node. -/
def Elsewhere (row : Option Row) (k : TombstoneKey) : Prop :=
  ∀ r, row = some r → k.incarnation = some r.incarnation → ¬ r.places k.node

def reported (h : Handle) (res : CallResult) (obs : Observation) : List Checkpoint :=
  res.checkpoint :: ((obs.ours h.inc).map Pod.checkpoint).toList

def mergeAll (store : String) (cps : List Checkpoint) (r : Row) : Row := cps.foldl (fun a cp => mergeCheckpoint store cp a) r

def Txn.ends : Txn → Option Handle
  | .finish h _ _ => some h
  | .rollback h _ => some h
  | _ => none

inductive Ran (pod : String) (db : Reads) : Option Row → Txn → Effect → Prop
  /-- nothing -/
  | idle {row t} : Ran pod db row t (nothing row)
  /-- a tombstone where the row does not place the pod -/
  | bury {row t k} (hpod : k.pod = pod) (hk : Elsewhere row k) :
      Ran pod db row t { nothing row with upserts := [⟨k, db.now⟩] }
  | begin {r owner i target reads} (hop : r.op = none) (hpre : precheck r i target reads = true) :
      Ran pod db (some r) (.begin owner i target reads) (beginEffect pod db owner i.kind target reads r)
  | takeover {r owner i target reads kind} (hop : r.op = some kind) :
      Ran pod db (some r) (.begin owner i target reads) (takeoverEffect pod db owner reads r kind)
  | preempt {r owner i target reads} (hop : r.op ≠ none) (hp : preemptable i target r = true) :
      Ran pod db (some r) (.begin owner i target reads) (preemptEffect pod db owner target reads r)
  | finish {r h res obs} (hpod : h.pod = pod) (hinc : r.incarnation = h.inc) (hid : r.opId = some h.opId) :
      Ran pod db (some r) (.finish h res obs)
        (commitChange h.pod db.now r h.target (applyOutcome (db.storeOf h.target) h.kind h.target h.inc db.now res obs r) [])
  /-- a fenced-out finish with a newer checkpoint -/
  | merge {r h res obs} (hinc : r.incarnation = h.inc) (hid : r.opId ≠ some h.opId) (hnode : r.node = some h.target)
      (hnew : (reported h res obs).any (newer r) = true) :
      Ran pod db (some r) (.finish h res obs)
        (nothing (some (r.update (mergeAll (db.storeOf h.target) (reported h res obs) r))))
  | rollback {r h unfit} (hpod : h.pod = pod) (hinc : r.incarnation = h.inc) (hid : r.opId = some h.opId) :
      Ran pod db (some r) (.rollback h unfit)
        (commitChange h.pod db.now r h.target ⟨rollbackRow h unfit r, []⟩
          (if h.preempted = none ∧ ¬ h.takeover then h.tombstones else []))
  | release {r t g} (ht : t.ends = none) (hop : r.op ≠ none) :
      Ran pod db (some r) t (nothing (some { releasedRow r with gen := g }))
  | observed {r t node obs} (ht : t.ends = none) (hop : r.op = none) (hnode : r.node = some node) :
      Ran pod db (some r) t (observed pod db node obs r)
  | down {r t} (ht : t.ends = none) (hop : r.op = none) (hnode : r.node ≠ none) :
      Ran pod db (some r) t (nothing (some { r with clientState := .unknown, gen := r.gen + 1 }))
  | grace {r t} (ht : t.ends = none) (hop : r.op = none) (hnode : r.node ≠ none) (hst : r.clientState = .unknown) :
      Ran pod db (some r) t { nothing (some (lostGraceRow r)) with booking := .free }
  | delete {r live} : Ran pod db (some r) (.delete live) ⟨none, deleteTombstones pod db.now live r, [], none, .free⟩

variable {pod : String} {db : Reads} {row : Option Row} {r : Row} {t : Txn} {e : Effect}

theorem ran_fencedOut {h : Handle} {res : CallResult} {obs : Observation} (hpod : h.pod = pod)
    (hid : ∀ r, row = some r → r.incarnation = h.inc → r.opId ≠ some h.opId) :
    Ran pod db row (.finish h res obs) (fencedOut db h res obs row) := by
  cases row with
  | none =>
    simp only [fencedOut]
    split_ifs
    · exact .bury hpod fun r hr => nomatch hr
    · exact .idle
  | some r =>
    simp only [fencedOut]
    split_ifs with hmake hinc hnew
    · refine .bury hpod fun r' hr' hinc => ?_
      cases hr'
      have helse := of_decide_eq_true hmake.2
      exact not_or.2 (helse.resolve_left fun hne => hne (Option.some.inj hinc).symm)
    · exact .idle
    · exact .merge (not_not.1 hinc) (hid r rfl (not_not.1 hinc)) hnew.2 hnew.1
    · exact .idle

theorem ran_beginOn {owner : String} {i : Intent} {target : String} {reads : BeginReads}
    (hrun : beginOn pod db owner i target reads r = some e) : Ran pod db (some r) (.begin owner i target reads) e := by
  unfold beginOn at hrun
  split at hrun
  · cases hrun
  cases hop : r.op with
  | some kind =>
    simp only [hop] at hrun
    split_ifs at hrun with hpre hp
    · cases hrun
      exact .preempt (by simp [hop]) hp
    · cases hrun
      exact .takeover hop
  | none =>
    simp only [hop] at hrun
    split_ifs at hrun with _ hpre
    cases hrun
    exact .begin hop hpre

theorem ran_reconcilePod {node : String} {info : Pod} {snap : Option ℕ}
    (hrun : Txn.run pod db row (.reconcilePod node info snap) = some e) :
    Ran pod db row (.reconcilePod node info snap) e := by
  cases row with
  | none =>
    cases hrun
    exact .bury rfl fun r hr => nomatch hr
  | some r =>
    simp only [Txn.run] at hrun
    split_ifs at hrun with helse hskip
    · cases hrun
      refine .bury rfl fun r' hr' hinc => ?_
      cases hr'
      rcases helse with hplace | hother
      · exact not_or.2 hplace
      · exact absurd hinc hother.1
    · cases hrun
      exact .idle
    · cases hrun
      push Not at hskip
      exact .observed rfl hskip.2.2.1 hskip.2.1

/-- A transaction that leaves the row where its guard fails. -/
theorem ran_guarded {p : Row → Prop} [DecidablePred p] {f : Row → Effect}
    (hrun : row.map (fun r => if p r then f r else nothing (some r)) = some e)
    (h : ∀ r, p r → Ran pod db (some r) t (f r)) : Ran pod db row t e := by
  obtain ⟨r, rfl, rfl⟩ := Option.map_eq_some_iff.1 hrun
  split_ifs with hp
  · exact h r hp
  · exact .idle

theorem run_ran (hrun : t.run pod db row = some e) (hpod : ∀ h, t.ends = some h → h.pod = pod) : Ran pod db row t e := by
  cases t with
  | begin owner i target reads =>
    obtain ⟨r, rfl, hrun⟩ := Option.bind_eq_some_iff.1 hrun
    exact ran_beginOn hrun
  | finish h res obs =>
    cases hrun
    cases row with
    | none => exact ran_fencedOut (hpod h rfl) fun r hr => nomatch hr
    | some r =>
      simp only [finishOnce]
      split_ifs with hout
      · refine ran_fencedOut (hpod h rfl) fun r' hr' hinc hid => ?_
        cases hr'
        exact hout.elim (fun hne => hne hinc) fun hne => hne hid
      · rw [not_or, not_not, not_not] at hout
        exact .finish (hpod h rfl) hout.1 hout.2
  | rollback h unfit =>
    cases hrun
    cases row with
    | none => exact .idle
    | some r =>
      unfold rollbackOnce
      dsimp only
      split
      · exact .idle
      · rename_i hout
        rw [not_or, not_not, not_not] at hout
        exact .rollback (hpod h rfl) hout.1 hout.2
  | reconcilePod node info snap => exact ran_reconcilePod hrun
  | releaseOp opId => exact ran_guarded hrun fun r h => .release rfl h.2
  | releaseOpsOf owner => exact ran_guarded hrun fun r h => .release rfl h.2
  | applySync gen inc node obs => exact ran_guarded hrun fun r h => .observed rfl h.1 h.2.2.2
  | reconcileMissing node gen inc => exact ran_guarded hrun fun r h => .observed rfl h.2.1 h.2.2.1
  | downSweep => exact ran_guarded hrun fun r h => .down rfl h.2.1 h.1
  | lostGrace => exact ran_guarded hrun fun r h => .grace rfl h.2.1 h.1 h.2.2
  | delete live =>
    obtain ⟨r, rfl, rfl⟩ := Option.map_eq_some_iff.1 hrun
    exact .delete

end FeOS.Sandbox
