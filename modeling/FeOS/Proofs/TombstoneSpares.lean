import FeOS.Sanity.SandboxTombs

/-! What the processing of a tombstone deletes is not a pod in use, as long as the tombstone stays
until its run is over: the row does not place a pod where a tombstone of its incarnation is. A run
whose tombstone is removed under it deletes the pod that a restore has put there since. -/

namespace FeOS.Sandbox

open Runs List

variable {nodes : String → Option NodeRow} {w w' : World} {ev : Event} {pod : String} {db : Reads} {t : Txn} {e : Effect}
  {bs : List Booking} {k : TombstoneKey}

/-- A rollback removes no tombstone that a run is at, and a run none that another one is at. -/
def Undisturbed (w : World) : Event → Prop
  | .commit pod (.rollback h _) => ∀ r ∈ w.rows pod, r.opId = some h.opId → ∀ run ∈ w.runs, run.key ∉ h.tombstones
  | .dropTombstone i => ∀ run ∈ w.runs[i]?, ∀ other ∈ w.runs.eraseIdx i, other.key ≠ run.key
  | _ => True

structure RunInv (w : World) : Prop extends TombInv w where
  tombstoned : ∀ run ∈ w.runs, w.isTombstoned run.key = true

theorem RunInv.start : RunInv (World.start nodes) := ⟨TombInv.start, fun _ hrun => absurd hrun not_mem_nil⟩

theorem RunInv.write (hw : RunInv w) (hok : Undisturbed w (.commit pod t))
    (hran : Ran pod w.reads (w.rows pod) t e) {run : TombRun}
    (hrun : run ∈ w.runs) : (w.write pod t e bs).isTombstoned run.key = true := by
  refine isTombstoned_write.2 ⟨.inl (hw.tombstoned run hrun), fun hdrop => ?_⟩
  obtain ⟨hd, unfit, r, rfl, hr, hid, hmem⟩ | ⟨r, n, hr, hplace, hkey⟩ := hran.drops hdrop
  · exact hok r hr hid run hrun hmem
  · have := hw.tombstoned run hrun
    rw [hkey, hw.unburied pod r n hr hplace] at this
    cases this

theorem RunInv.step (hw : RunInv w) (hok : Undisturbed w ev) (hstep : w.step ev = some w') : RunInv w' := by
  refine ⟨hw.toTombInv.step hstep, ?_⟩
  have hold := hw.tombstoned
  have hset {i : ℕ} {owner : String} {key : TombstoneKey} {stage : RunStage} (hi : w.runs[i]? = some ⟨owner, key, stage⟩)
      (stage' : RunStage) : ∀ run ∈ w.runs.set i ⟨owner, key, stage'⟩, w.isTombstoned run.key = true := by
    intro run hrun
    rcases mem_or_eq_of_mem_set hrun with hrun | rfl
    · exact hold run hrun
    · exact hold ⟨owner, key, stage⟩ (mem_of_getElem? hi)
  revert hstep
  fun_cases World.step w ev <;> intro hstep <;> try cases hstep
  case case3 hmay =>
    obtain ⟨e, bs, -, hran, -, rfl⟩ := step_commit ((if_pos hmay).trans hstep)
    exact fun run hrun => hw.write hok hran hrun
  case case10 hdue =>
    intro run hrun
    rcases mem_append.1 hrun with hrun | hrun
    · exact hold run hrun
    · obtain rfl := mem_singleton.1 hrun
      obtain ⟨x, hx, hkey⟩ := any_eq_true.1 hdue.1
      exact isTombstoned_iff.2 ⟨x, hx, (of_decide_eq_true hkey).1⟩
  case case12 hi | case14 hi => exact hset hi _
  case case16 key hi =>
    intro run hrun
    have hne : run.key ≠ key := hok _ hi run hrun
    have hthere := isTombstoned_iff.1 (hold run (mem_of_mem_eraseIdx hrun))
    exact isTombstoned_iff.2 (exists_key_delete.2 ⟨hthere, hne⟩)
  case case18 => exact fun run hrun => hold run (mem_of_mem_eraseIdx hrun)
  all_goals exact hold

/-- When the DeletePod of a run takes effect, the row does not place a pod of the tombstone's
incarnation there, if no tombstone was removed under a run. -/
theorem delete_spares_placed_of_undisturbed {i : ℕ} (hreach : Reach World.step Undisturbed (World.start nodes) w)
    (hstep : w.step (.deletePod i) = some w') :
    ∃ run, w.runs[i]? = some run ∧ run.stage = .deleting ∧ w'.pods run.key.node run.key.pod = none ∧
      Elsewhere (w.rows run.key.pod) run.key := by
  have hw : RunInv w := hreach.invariant RunInv.start fun _ _ _ h hok hs => h.step hok hs
  simp only [World.step] at hstep
  split at hstep
  case h_2 => cases hstep
  rename_i owner key hi
  cases hstep
  refine ⟨_, hi, rfl, by simp [World.setRun, World.setPod], fun r hr hinc hplace => ?_⟩
  have hthere : w.isTombstoned key = true := hw.tombstoned _ (mem_of_getElem? hi)
  have hkey : key = ⟨key.pod, key.node, some r.incarnation⟩ := by rw [← hinc]
  rw [hkey, hw.unburied _ r _ hr hplace] at hthere
  cases hthere

instance (w : World) (ev : Event) : Decidable (Undisturbed w ev) := by
  unfold Undisturbed
  split <;> infer_instance

def staleKey : TombstoneKey := ⟨"p", "a", some 0⟩

def restoredElsewhere : List Event :=
  let hibernate := sampleHandle 3 .hibernate "a" ⟨.running, some "a", none, true⟩ []
  createBegun ++
    [.makePod sampleCreate .running noCheckpoint,
      .commit "p" (.finish sampleCreate ⟨none, noCheckpoint⟩ (.pod ⟨some 0, true, .running, noCheckpoint⟩)),
      .commit "p" (sampleBegin .hibernate .drain "a"),
      .commit "p" (.finish hibernate ⟨none, noCheckpoint⟩ (.pod ⟨some 0, true, .hibernated, ⟨"head", 1⟩⟩)),
      .commit "p" (sampleBegin .restore .ensure "b")]

theorem delete_spares_placed_of_undisturbed_stale :
    ∃ w w' r, Reach World.step Undisturbed (World.start sampleNodes) w ∧ w.step (.deletePod 0) = some w' ∧
      w.runs[0]? = some ⟨"one", staleKey, .deleting⟩ ∧ w.rows "p" = some r ∧ r.node = some "b" ∧ r.incarnation = 0 ∧
      ¬ r.places "a" := by
  obtain ⟨w, hreach, w', hstep, hrun, r, hr, hnode, hinc⟩ : ∃ w, Reach World.step Undisturbed
      (World.start sampleNodes) w ∧ ∃ w' ∈ w.step (.deletePod 0), w.runs[0]? = some ⟨"one", staleKey, .deleting⟩ ∧
          ∃ r ∈ w.rows "p", r.node = some "b" ∧ r.incarnation = 0 :=
    exists_follow (restoredElsewhere ++ [.startRun "one" staleKey, .getPod 0]) (by decide +kernel)
  obtain ⟨run, hrun', -, -, helse⟩ := delete_spares_placed_of_undisturbed hreach hstep
  cases hrun.symm.trans hrun'
  exact ⟨w, w', r, hreach, hstep, hrun, hr, hnode, hinc, helse r hr (by rw [hinc]; rfl)⟩

/-- Two instances find the stale pod. One deletes it and drops the tombstone; the restore on b finds no
pod, and the next one goes back to a. -/
def restoredBack : List Event :=
  let restore := sampleHandle 5 .restore "b" ⟨.hibernated, some "a", none, true⟩ [staleKey]
  let back := sampleHandle 7 .restore "a" ⟨.hibernated, none, none, false⟩ []
  restoredElsewhere ++
    [.startRun "one" staleKey, .startRun "two" staleKey, .getPod 0, .getPod 1, .deletePod 0, .dropTombstone 0,
      .commit "p" (.finish restore ⟨none, noCheckpoint⟩ .notFound),
      .commit "p" (sampleBegin .restore .ensure "a"),
      .makePod back .running ⟨"head", 1⟩,
      .commit "p" (.finish back ⟨none, noCheckpoint⟩ (.pod ⟨some 0, true, .running, ⟨"head", 1⟩⟩))]

/-- The other instance's DeletePod then takes effect on the pod in use. -/
theorem delete_kills_restored_pod :
    ∃ w w' r, Reach World.step anyStep (World.start sampleNodes) w ∧ w.step (.deletePod 0) = some w' ∧
      w.runs[0]? = some ⟨"two", staleKey, .deleting⟩ ∧ w.pods "a" "p" = some ⟨some 0, true, .running, ⟨"head", 1⟩⟩ ∧
      w'.pods "a" "p" = none ∧ w.rows "p" = some r ∧ r.incarnation = 0 ∧ r.node = some "a" ∧ r.clientState = .running := by
  obtain ⟨w, hreach, w', hstep, hrun, hpod, hgone, r, hr, h⟩ : ∃ w, Reach World.step anyStep
      (World.start sampleNodes) w ∧ ∃ w' ∈ w.step (.deletePod 0), w.runs[0]? = some ⟨"two", staleKey, .deleting⟩ ∧
        w.pods "a" "p" = some ⟨some 0, true, .running, ⟨"head", 1⟩⟩ ∧ w'.pods "a" "p" = none ∧
        ∃ r ∈ w.rows "p", r.incarnation = 0 ∧ r.node = some "a" ∧ r.clientState = .running :=
    exists_follow restoredBack (by decide +kernel)
  exact ⟨w, w', r, hreach, hstep, hrun, hpod, hgone, hr, h⟩

theorem placed_never_tombstoned (nodes : String → Option NodeRow) :
    (∀ w, Reach World.step anyStep (World.start nodes) w → ∀ pod r n, w.rows pod = some r → r.node = some n ∨
      r.opTarget = some n →
      w.isTombstoned ⟨pod, n, some r.incarnation⟩ = false) ∧
    ∀ w, Reach World.step anyStep (World.start nodes) w → ∀ pod r h, w.rows pod = some r → h ∈ w.handles →
      r.opId = some h.opId →
      ∀ k ∈ h.tombstones, k.pod = pod ∧ k.incarnation = some r.incarnation := by
  refine ⟨fun w h => (tombInv_of_reach h).unburied, fun w h pod r hd hr hh hid k hk => ?_⟩
  have hinv := tombInv_of_reach h
  have howns := hinv.owns hr hh hid
  exact howns.pod ▸ howns.inc ▸ hinv.own hd hh k hk

/-- The sandbox is restored on b, while the pod that is left on a has a tombstone. -/
theorem placed_never_tombstoned_elsewhere :
    ∃ w r h, Reach World.step anyStep (World.start sampleNodes) w ∧ w.rows "p" = some r ∧ r.node = some "b" ∧
      h ∈ w.handles ∧ r.opId = some h.opId ∧ h.tombstones = [staleKey] ∧ w.isTombstoned staleKey = true ∧
      w.isTombstoned ⟨"p", "b", some r.incarnation⟩ = false ∧ staleKey.incarnation = some r.incarnation := by
  obtain ⟨w, hreach, r, hr, h, hh, hnode, hid, htomb, hstale⟩ :
      ∃ w, Reach World.step anyStep (World.start sampleNodes) w ∧ ∃ r ∈ w.rows "p", ∃ h ∈ w.handles, r.node = some "b" ∧
        r.opId = some h.opId ∧ h.tombstones = [staleKey] ∧
        w.isTombstoned staleKey = true :=
    exists_follow restoredElsewhere (by decide +kernel)
  obtain ⟨hplaced, hheld⟩ := placed_never_tombstoned sampleNodes
  refine ⟨w, r, h, hreach, hr, hnode, hh, hid, htomb, hstale, hplaced w hreach "p" r "b" hr (.inl hnode), ?_⟩
  exact (hheld w hreach "p" r h hr hh hid staleKey (by simp [htomb])).2

end FeOS.Sandbox
