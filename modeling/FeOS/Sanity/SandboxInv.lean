import FeOS.Sanity.SandboxRows

/-! What holds of the rows and of the ops in flight in every state of the engine. -/

namespace FeOS.Sandbox

open Runs Function

structure Inv (w : World) : Prop where
  row : ∀ pod r, w.rows pod = some r → RowOk r
  incarnation : ∀ pod r, w.rows pod = some r → r.incarnation < w.fresh
  /-- the row's op is in flight somewhere -/
  owned : ∀ pod r x, w.rows pod = some r → r.opId = some x → ∃ h ∈ w.handles, h.opId = x ∧ Owns pod r h
  below : ∀ h ∈ w.handles, h.opId < w.fresh ∧ h.inc < w.fresh
  unique : ∀ h ∈ w.handles, ∀ h' ∈ w.handles, h.opId = h'.opId → h = h'
  read : ∀ h ∈ w.handles, h.takeover = false → ReadOk h

variable {nodes : String → Option NodeRow} {w w' : World} {ev : Event} {pod : String} {t : Txn} {e : Effect}
    {bs : List Booking}

theorem inv_start : Inv (World.start nodes) := by
  constructor <;> simp [World.start]

variable {h : Handle} {r' r : Row}

theorem mem_of_ends (hmay : t.mayRun pod w.handles w.sent = true) (hends : t.ends = some h) :
    h ∈ w.handles ∧ h.pod = pod := by
  cases t <;> cases hends
  case finish => exact of_decide_eq_true hmay
  case rollback =>
    obtain ⟨hh, hpod, -⟩ := of_decide_eq_true hmay
    exact ⟨hh, hpod⟩

theorem step_run (hstep : w.step (.commit pod t) = some w') :
    ∃ e bs, t.mayRun pod w.handles w.sent = true ∧ t.run pod w.reads (w.rows pod) = some e ∧
      w.bookingsAfter pod t e = some bs ∧ w' = w.write pod t e bs := by
  simp only [World.step] at hstep
  split_ifs at hstep with hmay
  obtain ⟨e, hrun, hmap⟩ := Option.bind_eq_some_iff.1 hstep
  obtain ⟨bs, hbs, rfl⟩ := Option.map_eq_some_iff.1 hmap
  exact ⟨e, bs, hmay, hrun, hbs, rfl⟩

theorem step_commit (hstep : w.step (.commit pod t) = some w') :
    ∃ e bs, t.mayRun pod w.handles w.sent = true ∧ Ran pod w.reads (w.rows pod) t e ∧
      w.bookingsAfter pod t e = some bs ∧ w' = w.write pod t e bs := by
  obtain ⟨e, bs, hmay, hrun, hbs, rfl⟩ := step_run hstep
  exact ⟨e, bs, hmay, run_ran hrun fun h hends => (mem_of_ends hmay hends).2, hbs, rfl⟩

/-- Rows, bookings and ops change in inserts and transactions only, and a tombstone is not written
elsewhere. -/
structure Apart (w w' : World) : Prop where
  rows : w'.rows = w.rows
  bookings : w'.bookings = w.bookings
  handles : w'.handles = w.handles
  finished : w'.finished = w.finished
  rolledBack : w'.rolledBack = w.rolledBack
  fresh : w'.fresh = w.fresh
  tombstones : w'.tombstones ⊆ w.tombstones

theorem step_cases (hstep : w.step ev = some w') :
    (∃ pod vcpus memoryMiB pinNode, ev = .insert pod vcpus memoryMiB pinNode ∧ w.rows pod = none ∧
      w' = { w with
        rows := update w.rows pod (some (Row.new w.fresh vcpus memoryMiB pinNode))
        fresh := w.fresh + 1 }) ∨
    (∃ pod t e bs, ev = .commit pod t ∧ t.mayRun pod w.handles w.sent = true ∧ Ran pod w.reads (w.rows pod) t e ∧
      w.bookingsAfter pod t e = some bs ∧ w' = w.write pod t e bs) ∨ Apart w w' := by
  revert hstep
  fun_cases World.step w ev <;> intro hstep <;> try cases hstep
  case case1 hnone => exact .inl ⟨_, _, _, _, rfl, hnone, rfl⟩
  case case3 hmay =>
    obtain ⟨e, bs, hcommit⟩ := step_commit ((if_pos hmay).trans hstep)
    exact .inr (.inl ⟨_, _, e, bs, rfl, hcommit⟩)
  case case16 => exact .inr (.inr ⟨rfl, rfl, rfl, rfl, rfl, rfl, fun _ hx => (List.mem_filter.1 hx).1⟩)
  all_goals exact .inr (.inr ⟨rfl, rfl, rfl, rfl, rfl, rfl, List.Subset.refl _⟩)

theorem step_fresh (hstep : w.step ev = some w') : w.fresh ≤ w'.fresh := by
  obtain ⟨p, vcpus, memoryMiB, pinNode, -, -, rfl⟩ | ⟨p, t, e, bs, -, -, -, -, rfl⟩ | hapart := step_cases hstep
  · exact Nat.le_succ _
  · exact Nat.le_succ _
  · exact hapart.fresh.ge

theorem Inv.apart (hw : Inv w) (h : Apart w w') : Inv w' := by
  constructor
  · rw [h.rows]; exact hw.row
  · rw [h.rows, h.fresh]; exact hw.incarnation
  · rw [h.rows, h.handles]; exact hw.owned
  · rw [h.handles, h.fresh]; exact hw.below
  · rw [h.handles]; exact hw.unique
  · rw [h.handles]; exact hw.read

theorem Inv.insert (hw : Inv w) (vcpus memoryMiB : ℕ) (pinNode : Option String) :
    Inv { w with
      rows := update w.rows pod (some (Row.new w.fresh vcpus memoryMiB pinNode))
      fresh := w.fresh + 1 } := by
  have hrow : ∀ pod' r, update w.rows pod (some (Row.new w.fresh vcpus memoryMiB pinNode)) pod' = some r →
      w.rows pod' = some r ∨ r = Row.new w.fresh vcpus memoryMiB pinNode := by
    intro pod' r hr
    rcases update_cases hr with ⟨-, hr⟩ | ⟨-, hr⟩
    · exact .inr (Option.some.inj hr).symm
    · exact .inl hr
  refine ⟨fun pod' r hr => ?_, fun pod' r hr => ?_, fun pod' r x hr hx => ?_, fun h hh => ?_, hw.unique, hw.read⟩
  · rcases hrow pod' r hr with hr | rfl
    · exact hw.row pod' r hr
    · exact new_ok ..
  · rcases hrow pod' r hr with hr | rfl
    · exact (hw.incarnation pod' r hr).trans (Nat.lt_succ_self _)
    · exact Nat.lt_succ_self _
  · rcases hrow pod' r hr with hr | rfl
    · exact hw.owned pod' r x hr hx
    · cases hx
  · exact ⟨(hw.below h hh).1.trans (Nat.lt_succ_self _), (hw.below h hh).2.trans (Nat.lt_succ_self _)⟩

theorem write_row (hran : Ran pod w.reads (w.rows pod) t e) {pod' : String}
    (hr : (w.write pod t e bs).rows pod' = some r') :
    pod' ≠ pod ∧ w.rows pod' = some r' ∨
      pod' = pod ∧ ∃ r, w.rows pod = some r ∧ Ran pod w.reads (some r) t e ∧ e.after = some r' := by
  rcases update_cases hr with ⟨hpod, hr⟩ | hr
  · obtain ⟨r, hrow⟩ := hran.exists_row (.inl (by simp [hr]))
    exact .inr ⟨hpod, r, hrow, hrow ▸ hran, hr⟩
  · exact .inl hr

theorem mem_write_handles : h ∈ (w.write pod t e bs).handles ↔ h ∈ w.handles ∨ e.begun = some h := by
  simp [World.write]

theorem step_row (hstep : w.step ev = some w') (hr' : w'.rows pod = some r') :
    (∃ vcpus memoryMiB pinNode, r' = Row.new w.fresh vcpus memoryMiB pinNode) ∨ w.rows pod = some r' ∨
      ∃ t e r, ev = .commit pod t ∧ t.mayRun pod w.handles w.sent = true ∧ w.rows pod = some r ∧
        Ran pod w.reads (some r) t e ∧
        e.after = some r' := by
  obtain ⟨p, vcpus, memoryMiB, pinNode, -, -, rfl⟩ | ⟨p, t, e, bs, hev, hmay, hran, -, rfl⟩ | hapart := step_cases hstep
  · rcases update_cases hr' with ⟨-, hr'⟩ | ⟨-, hr'⟩
    · exact .inl ⟨vcpus, memoryMiB, pinNode, (Option.some.inj hr').symm⟩
    · exact .inr (.inl hr')
  · obtain ⟨-, hr⟩ | ⟨rfl, r, hr, hran, hafter⟩ := write_row hran hr'
    · exact .inr (.inl hr)
    · exact .inr (.inr ⟨t, e, r, hev, hmay, hr, hran, hafter⟩)
  · exact .inr (.inl (hapart.rows ▸ hr'))

theorem Inv.begun (hw : Inv w) (hran : Ran pod w.reads (w.rows pod) t e) (hh : e.begun = some h) :
    h.opId = w.fresh ∧ h.inc < w.fresh ∧ (h.takeover = false → ReadOk h) := by
  obtain ⟨r, hr⟩ := hran.exists_row (.inr (by simp [hh]))
  rw [hr] at hran
  obtain ⟨hid, hinc, -, hread⟩ := hran.begun (hw.row pod r hr) hh
  exact ⟨hid, hinc ▸ hw.incarnation pod r hr, hread⟩

theorem Inv.owns (hw : Inv w) (hrow : w.rows pod = some r) (hh : h ∈ w.handles) (hid : r.opId = some h.opId) :
    Owns pod r h := by
  obtain ⟨h', hh', heq, ho⟩ := hw.owned pod r h.opId hrow hid
  rwa [hw.unique h' hh' h hh heq] at ho

theorem Owns.of_ops (ho : Owns pod r h) (hinc : r'.incarnation = r.incarnation) (hop : r'.op = r.op)
    (htarget : r'.opTarget = r.opTarget) : Owns pod r' h :=
  ⟨ho.pod, ho.inc.trans hinc.symm, hop.trans ho.kind, htarget.trans ho.target⟩

theorem Inv.write (hw : Inv w) (hmay : t.mayRun pod w.handles w.sent = true) (hran : Ran pod w.reads (w.rows pod) t e) :
    Inv (w.write pod t e bs) := by
  have hread : ∀ h unfit, t = .rollback h unfit → h.takeover = false → ReadOk h := by
    rintro h unfit rfl
    exact hw.read h (mem_of_ends hmay rfl).1
  refine ⟨fun pod' r' hr' => ?_, fun pod' r' hr' => ?_, fun pod' r' x hr' hx => ?_, fun h hh => ?_,
    fun h hh h' hh' hid => ?_,
    fun h hh => ?_⟩
  · obtain ⟨-, hr⟩ | ⟨-, r, hr, hran, hafter⟩ := write_row hran hr'
    · exact hw.row pod' r' hr
    · exact hran.rowOk (hw.row pod r hr) hread hafter
  · refine lt_of_lt_of_le ?_ (Nat.le_succ _)
    obtain ⟨-, hr⟩ | ⟨-, r, hr, hran, hafter⟩ := write_row hran hr'
    · exact hw.incarnation pod' r' hr
    · exact (hran.ops (hw.row pod r hr) hafter).1 ▸ hw.incarnation pod r hr
  · obtain ⟨-, hr⟩ | ⟨rfl, r, hr, hran, hafter⟩ := write_row hran hr'
    · obtain ⟨h, hh, hho⟩ := hw.owned pod' r' x hr hx
      exact ⟨h, mem_write_handles.2 (.inl hh), hho⟩
    · obtain ⟨hinc, ⟨hop, hid, htarget⟩ | ⟨-, hid, -⟩ | ⟨h, hbegun, hid, ho⟩⟩ := hran.ops (hw.row _ r hr) hafter
      · obtain ⟨h, hh, hho, ho⟩ := hw.owned _ r x hr (hid ▸ hx)
        exact ⟨h, mem_write_handles.2 (.inl hh), hho, ho.of_ops hinc hop htarget⟩
      · simp [hid] at hx
      · exact ⟨h, mem_write_handles.2 (.inr hbegun), Option.some.inj (hid.symm.trans hx), ho⟩
  · rcases mem_write_handles.1 hh with hh | hh
    · exact ⟨(hw.below h hh).1.trans (Nat.lt_succ_self _), (hw.below h hh).2.trans (Nat.lt_succ_self _)⟩
    · obtain ⟨hid, hinc, -⟩ := hw.begun hran hh
      exact ⟨hid ▸ Nat.lt_succ_self _, hinc.trans (Nat.lt_succ_self _)⟩
  · rcases mem_write_handles.1 hh with hh | hh <;> rcases mem_write_handles.1 hh' with hh' | hh'
    · exact hw.unique h hh h' hh' hid
    · exact absurd (hid.trans (hw.begun hran hh').1) (hw.below h hh).1.ne
    · exact absurd (hid.symm.trans (hw.begun hran hh).1) (hw.below h' hh').1.ne
    · exact Option.some.inj (hh.symm.trans hh')
  · rcases mem_write_handles.1 hh with hh | hh
    · exact hw.read h hh
    · exact (hw.begun hran hh).2.2

theorem Inv.step (hw : Inv w) (hstep : w.step ev = some w') : Inv w' := by
  obtain ⟨pod, vcpus, memoryMiB, pinNode, -, -, rfl⟩ | ⟨pod, t, e, bs, -, hmay, hran, -, rfl⟩ | hapart := step_cases hstep
  · exact hw.insert vcpus memoryMiB pinNode
  · exact hw.write hmay hran
  · exact hw.apart hapart

theorem inv_of_reach {ok : World → Event → Prop} (h : Reach World.step ok (World.start nodes) w) : Inv w :=
  h.invariant inv_start fun _ _ _ hw _ hstep => hw.step hstep

abbrev anyStep (_ : World) (_ : Event) : Prop := True

/-! Gates -/

theorem check_eq_none {i : GateInput} {gates : List Gate} : i.check gates = none ↔ ∀ g ∈ gates, i.passes g = true := by
  simp [GateInput.check, List.find?_eq_none]

theorem bookingsAfter_claim {n : String} (hbs : w.bookingsAfter pod t e = some bs) (hbooking : e.booking = .claim n) :
    ∃ owner i target reads after row h nr, t = .begin owner i target reads ∧ e.after = some after ∧ w.rows pod = some row ∧
      e.begun = some h ∧ w.nodes n = some nr ∧
      claim row h.kind n nr (sumBookings w.bookings n pod) (w.hasTombstone pod n) reads.tap reads.connected = none ∧
      bs = upsertBooking w.bookings ⟨pod, n, after.vcpus, after.memoryMiB, true⟩ := by
  unfold World.bookingsAfter at hbs
  rw [hbooking] at hbs
  split at hbs <;> try contradiction
  rename_i node after heq hafter
  cases heq
  split at hbs <;> try contradiction
  rename_i row h hrow hbegun
  split_ifs at hbs with hclaims
  cases hbs
  unfold World.claims at hclaims
  split at hclaims <;> try contradiction
  rename_i owner i target reads nr hnr
  exact ⟨owner, i, target, reads, after, row, h, nr, rfl, hafter, hrow, hbegun, hnr, of_decide_eq_true hclaims, rfl⟩

/-! Nodes and begins for runs that are computed -/

def sampleNodes (name : String) : Option NodeRow :=
  if name = "a" ∨ name = "b" then
    some
      { ready := true
        draining := false
        forked := false
        slots := 8
        vcpuCapacity := 8
        memoryCapacityMiB := 8192
        objectStore := true
        objectStoreId := "store" }
  else none

def sampleBegin (kind : OpKind) (trigger : Trigger) (target : String) : Txn :=
  .begin "one" ⟨kind, trigger, none, none, none⟩ target ⟨true, true, false, true, false, 60⟩

def sampleHandle (opId : ℕ) (kind : OpKind) (target : String) (read : ReadState) (tombstones : List TombstoneKey) : Handle :=
  ⟨"p", opId, 0, kind, target, false, none, read, tombstones⟩

def sampleCreate : Handle := sampleHandle 1 .create "a" ⟨.pending, none, none, false⟩ []

def createBegun : List Event := [.insert "p" 1 512 none, .commit "p" (sampleBegin .create .ensure "a")]

end FeOS.Sandbox
