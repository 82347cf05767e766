import FeOS.Sanity.SandboxTombs

/-! A pod of a deleted sandbox that an op in flight makes has a tombstone once the op has ended: its
end finds no row and writes one. A run that looked for the pod before it was made and drops the
tombstone after that end removes it by key. -/

namespace FeOS.Sandbox

open Runs List

variable {nodes : String → Option NodeRow} {w w' : World} {ev : Event} {pod : String} {db : Reads} {t : Txn} {e : Effect}
  {bs : List Booking} {k : TombstoneKey} {inc : ℕ}

def Handle.key (h : Handle) : TombstoneKey := ⟨h.pod, h.target, some h.inc⟩

def Held (w : World) (k : TombstoneKey) : Prop := ∃ info, w.pods k.node k.pod = some info ∧ info.incarnation = k.incarnation

def Unended (w : World) (k : TombstoneKey) : Prop :=
  ∃ h ∈ w.handles, h.key = k ∧ makes h.kind = true ∧ h.opId ∈ w.sent ∧ h.opId ∉ w.finished

/-- No op that may have made a pod ends while a run of the pod's tombstone is about to drop it. -/
def Quiet (w : World) : Event → Prop
  | .commit _ (.finish h _ _) => makes h.kind = true → ∀ run ∈ w.runs, run.key = h.key → run.stage ≠ .dropping
  | _ => True

/-- The sandbox's row of the incarnation is gone for good; the nodes hold pods of sandboxes only. -/
structure Gone (pod : String) (inc : ℕ) (w : World) : Prop extends TombInv w where
  given : inc < w.fresh
  gone : ∀ r, w.rows pod = some r → r.incarnation ≠ inc

theorem Gone.step (hw : Gone pod inc w) (hstep : w.step ev = some w') : Gone pod inc w' := by
  refine ⟨hw.toTombInv.step hstep, hw.given.trans_le (step_fresh hstep), fun r' hr' => ?_⟩
  obtain ⟨_, _, _, rfl⟩ | hr | ⟨t, e, r, -, -, hr, hran, hafter⟩ := step_row hstep hr'
  · exact hw.given.ne'
  · exact hw.gone r' hr
  · rw [(hran.ops (hw.row _ r hr) hafter).1]
    exact hw.gone r hr

variable {h : Handle} {res : CallResult} {obs : Observation} {i : ℕ}

theorem finish_buries {row : Option Row} (hmakes : makes h.kind = true)
    (hgone : ∀ r, row = some r → r.incarnation ≠ h.inc) (hrun : Txn.run pod db row (.finish h res obs) = some e) :
    e.upserts = [⟨h.key, db.now⟩] ∧ e.drops = [] := by
  cases hrun
  cases row with
  | none => simp [finishOnce, fencedOut, hmakes, nothing, Handle.key]
  | some r => simp [finishOnce, fencedOut, hgone r rfl, hmakes, nothing, Handle.key]

def Ours (w : World) : Prop := ∀ n p info, w.pods n p = some info → info.isFerunPod = true

/-- Where a pod of the deleted incarnation is, the tombstone is, or an op that made it has not ended; and a
run that is about to drop the tombstone has such an op to leave it to. -/
structure Covered (k : TombstoneKey) (w : World) : Prop where
  tombstoned : Held w k → w.isTombstoned k = true ∨ Unended w k
  dropping : ∀ run ∈ w.runs, run.key = k → run.stage = .dropping → Held w k → Unended w k

theorem Covered.of_kept (hc : Covered k w) (hheld : Held w' k → Held w k)
    (htomb : w.isTombstoned k = true → w'.isTombstoned k = true)
    (hun : Unended w k → Unended w' k)
    (hruns : ∀ run ∈ w'.runs, run.key = k → run.stage = .dropping → ∃ run' ∈ w.runs, run'.key = k ∧ run'.stage = .dropping) :
    Covered k w' where
  tombstoned := fun h => (hc.tombstoned (hheld h)).imp htomb hun
  dropping := fun run hrun hkey hst h => by
    obtain ⟨run', hrun', hkey', hst'⟩ := hruns run hrun hkey hst
    exact hun (hc.dropping run' hrun' hkey' hst' (hheld h))

theorem setPod_pods (n p : String) (x : Option Pod) (n' p' : String) :
    (w.setPod n p x).pods n' p' = if n' = n ∧ p' = p then x else w.pods n' p' := by
  by_cases hn : n' = n
  · subst hn
    by_cases hp : p' = p <;> simp [World.setPod, hp]
  · simp [World.setPod, hn]

theorem ours_start : Ours (World.start nodes) := fun _ _ _ hinfo => absurd hinfo (by simp [World.start])

theorem Ours.step (hw : Ours w) (hstep : w.step ev = some w') : Ours w' := by
  have hset : ∀ n p x, (∀ info, x = some info → info.isFerunPod = true) → Ours (w.setPod n p x) := by
    intro n p x hx n' p' info hinfo
    rw [setPod_pods] at hinfo
    split_ifs at hinfo
    · exact hx info hinfo
    · exact hw n' p' info hinfo
  revert hstep
  fun_cases World.step w ev <;> intro hstep <;> try cases hstep
  case case3 hmay =>
    obtain ⟨e, bs, -, -, -, rfl⟩ := step_commit ((if_pos hmay).trans hstep)
    exact hw
  case case7 h state checkpoint _ => exact hset h.target h.pod _ fun info hinfo => by cases hinfo; rfl
  case case9 n p => exact hset n p none (by rintro _ ⟨⟩)
  case case14 => exact hset _ _ none (by rintro _ ⟨⟩)
  all_goals exact hw

theorem Covered.write (hw : Gone k.pod inc w) (hk : k.incarnation = some inc) (hc : Covered k w)
    (hmay : t.mayRun pod w.handles w.sent = true) (hran : Ran pod w.reads (w.rows pod) t e)
    (hother : ∀ h res obs, t = .finish h res obs → makes h.kind = true → h.key ≠ k) : Covered k (w.write pod t e bs) := by
  refine hc.of_kept id (fun htomb => ?_) (fun hun => ?_) fun run hrun hkey hst => ⟨run, hrun, hkey, hst⟩
  · refine isTombstoned_write.2 ⟨.inl htomb, fun hdrop => ?_⟩
    -- it would be one of the row's incarnation
    obtain ⟨r, hr, hpod, hinc⟩ := hw.drops_own hmay hran hdrop
    exact hw.gone r (hpod ▸ hr) (Option.some.inj (hinc.symm.trans hk))
  · obtain ⟨h, hh, hkey, hmakes, hsent, hopen⟩ := hun
    refine ⟨h, mem_write_handles.2 (.inl hh), hkey, hmakes, hsent, fun hfin => ?_⟩
    cases t with
    | finish h' res obs =>
      rcases mem_cons.1 hfin with heq | hfin
      · cases hw.unique h hh h' (mem_of_ends hmay rfl).1 heq
        exact hother h res obs rfl hmakes hkey
      · exact hopen hfin
    | _ => exact hopen hfin

theorem covered_of_finish (hw : Gone h.pod h.inc w) (hmakes : makes h.kind = true)
    (hok : Quiet w (.commit pod (.finish h res obs))) (hstep : w.step (.commit pod (.finish h res obs)) = some w') :
    Covered h.key w' := by
  obtain ⟨e, bs, hmay, hrun, -, rfl⟩ := step_run hstep
  have hpod := (mem_of_ends hmay rfl).2
  obtain ⟨hups, hdrops⟩ := finish_buries hmakes (hpod ▸ hw.gone) hrun
  refine ⟨fun _ => .inl (isTombstoned_write.2 ⟨.inr ?_, ?_⟩), fun run hrun hkey hst => absurd hst (hok hmakes run hrun hkey)⟩
  · exact ⟨_, by rw [hups]; exact mem_singleton_self _, rfl⟩
  · rw [hdrops]
    exact not_mem_nil

theorem afterGet_of_held {info : Pod} (hours : info.isFerunPod = true) (hinc : info.incarnation = k.incarnation) :
    World.afterGet k (some info) = .deleting := by
  simp [World.afterGet, hours, hinc]

theorem held_setPod {n p : String} {x : Option Pod} (h : Held (w.setPod n p x) k) :
    Held w k ∨ k.node = n ∧ k.pod = p ∧ x.bind Pod.incarnation = k.incarnation := by
  obtain ⟨info, hinfo, hinc⟩ := h
  rw [setPod_pods] at hinfo
  split_ifs at hinfo with hat
  · exact .inr ⟨hat.1, hat.2, by rw [hinfo]; exact hinc⟩
  · exact .inl ⟨info, hinfo, hinc⟩

theorem Covered.makePod (hc : Covered k w) (state : PodState) (checkpoint : Checkpoint)
    (hmay : h ∈ w.handles ∧ h.opId ∉ w.finished ∧ h.opId ∉ w.rolledBack ∧ makes h.kind = true) :
    Covered k { w.setPod h.target h.pod (some ⟨some h.inc, true, state, checkpoint⟩) with sent := h.opId :: w.sent } := by
  obtain ⟨hh, hopen, -, hmakes⟩ := hmay
  by_cases hkey : h.key = k
  · have hun : Unended
        { w.setPod h.target h.pod (some ⟨some h.inc, true, state, checkpoint⟩) with sent := h.opId :: w.sent } k :=
      ⟨h, hh, hkey, hmakes, mem_cons_self, hopen⟩
    exact ⟨fun _ => .inr hun, fun _ _ _ _ _ => hun⟩
  · refine hc.of_kept (fun hheld => ?_) id (fun hun => ?_) fun run hrun hkey hst => ⟨run, hrun, hkey, hst⟩
    · refine (held_setPod hheld).resolve_right fun hat => hkey ?_
      obtain ⟨hn, hp, hinc⟩ := hat
      exact TombstoneKey.ext hp.symm hn.symm hinc
    · obtain ⟨h', hh', hkey', hmakes', hsent, hopen'⟩ := hun
      exact ⟨h', hh', hkey', hmakes', mem_cons_of_mem _ hsent, hopen'⟩

theorem Covered.getPod (hours : Ours w) (hc : Covered k w) (owner : String) (key : TombstoneKey) :
    Covered k (w.setRun i ⟨owner, key, World.afterGet key (w.pods key.node key.pod)⟩) := by
  refine ⟨hc.tombstoned, fun run hrun hkey hst hheld => ?_⟩
  rcases mem_or_eq_of_mem_set hrun with hrun | rfl
  · exact hc.dropping run hrun hkey hst hheld
  · -- it found the pod, so that it is not at the drop
    obtain ⟨info, hinfo, hinc⟩ := hheld
    have hkey : key = k := hkey
    have hinfo : w.pods k.node k.pod = some info := hinfo
    simp [hkey, hinfo, afterGet_of_held (hours _ _ _ hinfo) hinc] at hst

theorem Covered.deletePod (hc : Covered k w) (owner : String) (key : TombstoneKey) :
    Covered k ((w.setPod key.node key.pod none).setRun i ⟨owner, key, .dropping⟩) := by
  have hheld (h : Held (w.setPod key.node key.pod none) k) : Held w k ∧ key ≠ k := by
    obtain ⟨info, hinfo, hinc⟩ := h
    rw [setPod_pods] at hinfo
    split_ifs at hinfo with hat
    refine ⟨⟨info, hinfo, hinc⟩, fun heq => hat ?_⟩
    rw [heq]
    exact ⟨rfl, rfl⟩
  refine ⟨fun h => hc.tombstoned (hheld h).1, fun run hrun hkey hst h => ?_⟩
  rcases mem_or_eq_of_mem_set hrun with hrun | rfl
  · exact hc.dropping run hrun hkey hst (hheld h).1
  · exact absurd hkey (hheld h).2

theorem Covered.dropTombstone (hc : Covered k w) {owner : String} {key : TombstoneKey}
    (hi : w.runs[i]? = some ⟨owner, key, .dropping⟩) :
    Covered k ({ w with tombstones := deleteTombstone w.tombstones key }.endRun i) := by
  refine ⟨fun h => ?_, fun run hrun hkey hst h => hc.dropping run (mem_of_mem_eraseIdx hrun) hkey hst h⟩
  by_cases hkey : key = k
  · exact .inr (hc.dropping _ (mem_of_getElem? hi) hkey rfl h)
  · refine (hc.tombstoned h).imp_left fun htomb => ?_
    exact isTombstoned_iff.2 (exists_key_delete.2 ⟨isTombstoned_iff.1 htomb, fun heq => hkey heq.symm⟩)

theorem Covered.step (hw : Gone k.pod inc w) (hk : k.incarnation = some inc) (hours : Ours w) (hc : Covered k w)
    (hok : Quiet w ev)
    (hstep : w.step ev = some w') : Covered k w' := by
  have hrefl : ∀ run ∈ w.runs, run.key = k → run.stage = .dropping → ∃ run' ∈ w.runs, run'.key = k ∧
      run'.stage = .dropping :=
    fun run hrun hkey hst => ⟨run, hrun, hkey, hst⟩
  revert hstep
  fun_cases World.step w ev <;> intro hstep <;> try cases hstep
  case case1 | case5 | case6 => exact hc.of_kept id id id hrefl
  case case3 p t hmay =>
    have hstep := (show w.step (.commit p t) = _ from if_pos hmay).trans hstep
    by_cases hends : ∃ h res obs, t = .finish h res obs ∧ makes h.kind = true ∧ h.key = k
    · obtain ⟨h, res, obs, rfl, hmakes, rfl⟩ := hends
      have hinc : h.inc = inc := Option.some.inj hk
      exact covered_of_finish (hinc ▸ hw) hmakes hok hstep
    · obtain ⟨e, bs, hmay, hran, -, rfl⟩ := step_commit hstep
      exact hc.write hw hk hmay hran fun h res obs ht hmakes hkey => hends ⟨h, res, obs, ht, hmakes, hkey⟩
  case case7 hmay => exact hc.makePod _ _ hmay
  case case9 =>
    refine hc.of_kept (fun hheld => (held_setPod hheld).resolve_right fun hat => ?_) id id hrefl
    simp [hk] at hat
  case case10 =>
    refine hc.of_kept id id id fun run hrun hkey hst => ?_
    rcases mem_append.1 hrun with hrun | hrun
    · exact ⟨run, hrun, hkey, hst⟩
    · cases mem_singleton.1 hrun
      cases hst
  case case12 => exact hc.getPod hours _ _
  case case14 => exact hc.deletePod _ _
  case case16 hi => exact hc.dropTombstone hi
  case case18 => exact hc.of_kept id id id fun run hrun hkey hst => ⟨run, mem_of_mem_eraseIdx hrun, hkey, hst⟩

structure AfterDelete (h : Handle) (w : World) : Prop extends Gone h.pod h.inc w where
  ours : Ours w
  covered : h.opId ∈ w.finished → Covered h.key w

theorem AfterDelete.step (hw : AfterDelete h w) (hh : h ∈ w.handles) (hmakes : makes h.kind = true) (hok : Quiet w ev)
    (hstep : w.step ev = some w') : AfterDelete h w' := by
  refine ⟨hw.toGone.step hstep, hw.ours.step hstep, fun hfin => ?_⟩
  by_cases hbefore : h.opId ∈ w.finished
  · exact (hw.covered hbefore).step hw.toGone rfl hw.ours hok hstep
  -- the step is the op's end
  obtain ⟨p, vcpus, memoryMiB, pinNode, -, -, rfl⟩ | ⟨p, t, e, bs, rfl, hmay, hran, -, rfl⟩ | hapart := step_cases hstep
  · exact absurd hfin hbefore
  · cases t with
    | finish h' res obs =>
      have heq : h.opId = h'.opId := (mem_cons.1 hfin).resolve_right hbefore
      cases hw.unique h hh h' (mem_of_ends hmay rfl).1 heq
      exact covered_of_finish hw.toGone hmakes hok hstep
    | _ => exact absurd hfin hbefore
  · rw [hapart.finished] at hfin
    exact absurd hfin hbefore

theorem step_handles (hstep : w.step ev = some w') : w.handles ⊆ w'.handles := by
  obtain ⟨p, vcpus, memoryMiB, pinNode, -, -, rfl⟩ | ⟨p, t, e, bs, -, -, -, -, rfl⟩ | hapart := step_cases hstep
  · exact List.Subset.refl _
  · exact subset_append_left _ _
  · exact hapart.handles ▸ List.Subset.refl _

theorem afterDelete_of_delete {r : Row} {live : Bool} (hw : TombInv w) (hours : Ours w) (hrow : w.rows h.pod = some r)
    (hinc : h.inc = r.incarnation) (hopen : h.opId ∉ w.finished) (hdel : w.step (.commit h.pod (.delete live)) = some w') :
    AfterDelete h w' := by
  have hours' := hours.step hdel
  have hw' := hw.step hdel
  obtain ⟨e, bs, -, hrun, -, rfl⟩ := step_run hdel
  rw [hrow] at hrun
  cases hrun
  refine ⟨⟨hw', ?_, fun r' hr' => ?_⟩, hours', fun hfin => absurd hfin hopen⟩
  · rw [hinc]
    exact (hw.incarnation h.pod r hrow).trans (Nat.lt_succ_self _)
  · simp [World.write] at hr'

/-- A pod of a deleted sandbox at the target of an op that was in flight has its tombstone once the
op has ended, and every other op that made it there; in runs where no op ends while a run is about
to drop the tombstone of its pod. -/
theorem deleted_pod_tombstoned_of_quiet {w₀ w₁ : World} {r : Row} {h : Handle} {live : Bool}
    (hreach : Reach World.step Quiet (World.start nodes) w₀) (hh : h ∈ w₀.handles) (hmakes : makes h.kind = true)
    (hopen : h.opId ∉ w₀.finished) (hrow : w₀.rows h.pod = some r) (hinc : h.inc = r.incarnation)
    (hdel : w₀.step (.commit h.pod (.delete live)) = some w₁) (hlater : Reach World.step Quiet w₁ w)
    (hfin : h.opId ∈ w.finished)
    (hall : ∀ h' ∈ w.handles, h'.key = h.key → h'.opId ∈ w.sent → h'.opId ∈ w.finished) (hheld : Held w h.key) :
    w.isTombstoned h.key = true := by
  have hours : Ours w₀ := hreach.invariant ours_start fun _ _ _ hw _ hs => hw.step hs
  have hdeleted := afterDelete_of_delete (tombInv_of_reach hreach) hours hrow hinc hopen hdel
  have hafter : AfterDelete h w ∧ h ∈ w.handles :=
    hlater.invariant (I := fun w => AfterDelete h w ∧ h ∈ w.handles) ⟨hdeleted, step_handles hdel hh⟩
      fun _ _ _ hw hok hs => ⟨hw.1.step hw.2 hmakes hok hs, step_handles hs hw.2⟩
  refine ((hafter.1.covered hfin).tombstoned hheld).resolve_right fun hun => ?_
  obtain ⟨h', hh', hkey, -, hsent, hopen'⟩ := hun
  exact hopen' (hall h' hh' hkey hsent)

instance (w : World) (ev : Event) : Decidable (Quiet w ev) := by
  apply @Event.casesOn (fun ev => Decidable (Quiet w ev)) ev
  case commit =>
    intro pod tx
    apply @Txn.casesOn (fun tx => Decidable (Quiet w (.commit pod tx))) tx
    case finish => exact fun _ _ _ => inferInstanceAs (Decidable (_ → ∀ run ∈ w.runs, _))
    all_goals intros; exact .isTrue trivial
  all_goals intros; exact .isTrue trivial

def endsAfterDelete : List Event :=
  [.makePod sampleCreate .running noCheckpoint,
    .commit "p" (.finish sampleCreate ⟨none, noCheckpoint⟩ (.pod ⟨some 0, true, .running, noCheckpoint⟩))]

theorem deleted_pod_tombstoned_of_quiet_create :
    ∃ w₀ w₁ w, Reach World.step Quiet (World.start sampleNodes) w₀ ∧ w₀.step (.commit "p" (.delete true)) = some w₁ ∧
      Reach World.step Quiet w₁ w ∧ Held w ⟨"p", "a", some 0⟩ ∧ w.isTombstoned ⟨"p", "a", some 0⟩ = true := by
  obtain ⟨w₀, hreach, hh, hopen, ⟨r, hr, hinc⟩, w₁, hdel, hend⟩ :
      ∃ w₀, Reach World.step Quiet (World.start sampleNodes) w₀ ∧ sampleCreate ∈ w₀.handles ∧
        sampleCreate.opId ∉ w₀.finished ∧ (∃ r ∈ w₀.rows "p", sampleCreate.inc = r.incarnation) ∧
        ∃ w₁ ∈ w₀.step (.commit "p" (.delete true)), ((follow World.step Quiet w₁ endsAfterDelete).any fun w =>
          sampleCreate.opId ∈ w.finished ∧ (∀ h' ∈ w.handles, h'.key = sampleCreate.key → h'.opId ∈ w.sent →
            h'.opId ∈ w.finished) ∧
            ∃ info ∈ w.pods "a" "p", info.incarnation = some 0) = true :=
    exists_follow createBegun (by decide +kernel)
  obtain ⟨w, hlater, hfin, hall, hheld⟩ := exists_follow _ hend
  exact ⟨w₀, w₁, w, hreach, hdel, hlater, hheld,
    deleted_pod_tombstoned_of_quiet hreach hh rfl hopen hr hinc hdel hlater hfin hall hheld⟩

/-- A run looks for the pod before it is made, and drops the tombstone after the create's end. -/
def droppedAfterEnd : List Event :=
  createBegun ++ [.commit "p" (.delete true), .tick 60, .startRun "two" sampleCreate.key, .getPod 0] ++ endsAfterDelete ++
    [.dropTombstone 0]

/-- Then the node holds a pod of the deleted sandbox, and no tombstone of it is there. -/
theorem deleted_pod_escapes :
    ∃ w, Reach World.step anyStep (World.start sampleNodes) w ∧ w.rows "p" = none ∧
      sampleCreate.opId ∈ w.finished ∧ w.runs = [] ∧
      (∀ h' ∈ w.handles, h' = sampleCreate) ∧ Held w ⟨"p", "a", some 0⟩ ∧ w.isTombstoned ⟨"p", "a", some 0⟩ = false := by
  exact exists_follow (P := fun w : World => w.rows "p" = none ∧ sampleCreate.opId ∈ w.finished ∧ w.runs = [] ∧
    (∀ h' ∈ w.handles, h' = sampleCreate) ∧ (∃ info ∈ w.pods "a" "p", info.incarnation = some 0) ∧
    w.isTombstoned ⟨"p", "a", some 0⟩ = false) droppedAfterEnd (by decide +kernel)

end FeOS.Sandbox
