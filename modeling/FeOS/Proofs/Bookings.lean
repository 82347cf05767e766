import FeOS.Sanity.SandboxInv

/-! What is booked through the gates fits its node, whatever ops, observations and sweeps interleave. -/

namespace FeOS.Sandbox

open Runs List

variable {nodes : String → Option NodeRow} {w w' : World} {pod n node : String} {t : Txn} {e : Effect}
    {bs on on' : List Booking}
  {nr : NodeRow} {r : Row} {ev : Event}

/-! Gates -/

theorem claim_fits {row : Row} {kind : OpKind} {sums : BookingSums} {tomb tap conn : Bool}
    (h : claim row kind n nr sums tomb tap conn = none) (hcpu : r.vcpus = row.vcpus) (hmem : r.memoryMiB = row.memoryMiB) :
    capacityRefusal nr n r sums = none := by
  refine check_eq_none.2 fun g hg => ?_
  have hpass := check_eq_none.1 h g (by split_ifs <;> revert hg <;> cases g <;> decide)
  rw [← hcpu, ← hmem] at hpass
  revert hg hpass
  cases g <;> simp [capacityGates, GateInput.passes]

theorem begin_size {owner target : String} {i : Intent} {reads : BeginReads} {row after : Row}
    (hran : Ran pod w.reads (some row) (.begin owner i target reads) e) (hafter : e.after = some after) :
    after.vcpus = row.vcpus ∧ after.memoryMiB = row.memoryMiB := by
  cases hran <;> cases hafter
  case begin =>
    exact Prod.ext_iff.1 (beginRow_keeps (fun r => (r.vcpus, r.memoryMiB)) fun _ _ _ _ => rfl)
  case observed => exact ⟨(observe_settles _ _ _ _ row).vcpus, (observe_settles _ _ _ _ row).memoryMiB⟩
  all_goals exact ⟨rfl, rfl⟩

/-- A transaction frees bookings, or books the pod; through the gates only where it fits. -/
theorem bookings_after (hran : Ran pod w.reads (w.rows pod) t e) (hbs : w.bookingsAfter pod t e = some bs) :
    bs <+ w.bookings ∨ ∃ n nr r gated, w.nodes n = some nr ∧
      bs = upsertBooking w.bookings ⟨pod, n, r.vcpus, r.memoryMiB, gated⟩ ∧
      (gated = true → capacityRefusal nr n r (sumBookings w.bookings n pod) = none) := by
  cases hact : e.booking with
  | unchanged =>
    simp only [World.bookingsAfter, hact, Option.some.injEq] at hbs
    exact .inl (hbs ▸ Sublist.refl _)
  | free =>
    simp only [World.bookingsAfter, hact, Option.some.injEq] at hbs
    exact .inl (hbs ▸ filter_sublist)
  | book n =>
    cases hafter : e.after with
    | none => simp [World.bookingsAfter, hact, hafter] at hbs
    | some r =>
      simp only [World.bookingsAfter, hact, hafter] at hbs
      split_ifs at hbs
      · exact .inl (Option.some.inj hbs ▸ Sublist.refl _)
      · obtain ⟨nr, hnr, rfl⟩ := Option.map_eq_some_iff.1 hbs
        exact .inr ⟨n, nr, r, _, hnr, rfl, of_decide_eq_true⟩
  | claim n =>
    obtain ⟨owner, i, target, reads, after, row, h, nr, rfl, hafter, hrow, -, hnr, hclaim, rfl⟩ :=
      bookingsAfter_claim hbs hact
    have hsize := begin_size (hrow ▸ hran) hafter
    exact .inr ⟨n, nr, after, true, hnr, rfl, fun _ => claim_fits hclaim hsize.1 hsize.2⟩

/-! Capacity -/

def gatedOn (bs : List Booking) (node : String) : List Booking := bs.filter fun b => b.node = node ∧ b.gated

structure Fits (n : NodeRow) (on : List Booking) : Prop where
  slots : on.length ≤ n.slots
  /-- a capacity of 0 does not gate -/
  vcpus : 0 < n.vcpuCapacity → (on.map Booking.vcpus).sum ≤ n.vcpuCapacity
  memory : (on.map Booking.memoryMiB).sum ≤ n.memoryCapacityMiB

theorem Fits.sublist (h : Fits nr on) (hsub : on' <+ on) : Fits nr on' where
  slots := (Int.ofNat_le.2 hsub.length_le).trans h.slots
  vcpus hpos := (Int.ofNat_le.2 ((hsub.map _).sum_le_sum fun _ _ => Nat.zero_le _)).trans (h.vcpus hpos)
  memory := (Int.ofNat_le.2 ((hsub.map _).sum_le_sum fun _ _ => Nat.zero_le _)).trans h.memory

theorem fits_of_capacity (h : capacityRefusal nr n r (sumBookings bs n pod) = none) (gated : Bool) :
    Fits nr (⟨pod, n, r.vcpus, r.memoryMiB, gated⟩ :: bs.filter fun b => b.node = n ∧ b.pod ≠ pod) := by
  have hpass := check_eq_none.1 h
  have hslots := of_decide_eq_true (hpass .slots (by decide))
  have hcpu := of_decide_eq_true (hpass .cpu (by decide))
  have hmem := of_decide_eq_true (hpass .memory (by decide))
  simp only [sumBookings, not_and, not_lt] at hslots hcpu hmem
  refine ⟨by simpa using hslots.2, fun hpos => ?_, by simpa [add_comm] using hmem⟩
  simpa [add_comm] using hcpu hpos

/-- The bookings through the gates fit the node. -/
def FitsOn (w : World) (bs : List Booking) (node : String) : Prop :=
  gatedOn bs node = [] ∨ ∃ n, w.nodes node = some n ∧ Fits n (gatedOn bs node)

/-- No node changes its size. -/
def SameSize (w : World) : Event → Prop
  | .setNode node row => ∀ n ∈ w.nodes node, ∃ n' ∈ row, n'.slots = n.slots ∧ n'.vcpuCapacity = n.vcpuCapacity ∧
      n'.memoryCapacityMiB = n.memoryCapacityMiB
  | _ => True

instance (w : World) (ev : Event) : Decidable (SameSize w ev) := by
  unfold SameSize
  split <;> infer_instance

theorem FitsOn.sublist (h : FitsOn w w.bookings node) (hsub : gatedOn bs node <+ gatedOn w.bookings node) :
    FitsOn w bs node := by
  rcases h with hnil | ⟨n, hn, hfit⟩
  · exact .inl (sublist_nil.1 (hnil ▸ hsub))
  · exact .inr ⟨n, hn, hfit.sublist hsub⟩

theorem FitsOn.after (h : FitsOn w w.bookings node) (hran : Ran pod w.reads (w.rows pod) t e)
    (hbs : w.bookingsAfter pod t e = some bs) :
    FitsOn w bs node := by
  rcases bookings_after hran hbs with hsub | ⟨n, nr, r, gated, hnr, rfl, hgate⟩
  · exact h.sublist (hsub.filter _)
  by_cases hn : n = node ∧ gated = true
  · obtain ⟨rfl, rfl⟩ := hn
    refine .inr ⟨nr, hnr, (fits_of_capacity (hgate rfl) true).sublist ?_⟩
    rw [gatedOn, upsertBooking, filter_cons_of_pos (by simp), filter_filter]
    refine .cons_cons _ (monotone_filter_right _ fun b hb => ?_)
    simp_all
  · refine h.sublist ?_
    rw [gatedOn, upsertBooking, filter_cons_of_neg (by simpa using hn)]
    exact filter_sublist.filter _

theorem step_bookings (hstep : w.step ev = some w') : w'.bookings = w.bookings ∨
    ∃ pod t e, Ran pod w.reads (w.rows pod) t e ∧ w.bookingsAfter pod t e = some w'.bookings := by
  obtain ⟨p, vcpus, memoryMiB, pinNode, -, -, rfl⟩ | ⟨p, t, e, bs, -, -, hran, hbs, rfl⟩ | hapart := step_cases hstep
  · exact .inl rfl
  · exact .inr ⟨p, t, e, hran, hbs⟩
  · exact .inl hapart.bookings

theorem step_nodes (hok : SameSize w ev) (hstep : w.step ev = some w') (hn : w.nodes node = some nr) :
    ∃ n', w'.nodes node = some n' ∧ n'.slots = nr.slots ∧ n'.vcpuCapacity = nr.vcpuCapacity ∧
      n'.memoryCapacityMiB = nr.memoryCapacityMiB := by
  revert hstep
  fun_cases World.step w ev <;> intro hstep <;> try cases hstep
  case case3 hmay =>
    obtain ⟨e, bs, -, -, -, rfl⟩ := step_commit ((if_pos hmay).trans hstep)
    exact ⟨nr, hn, rfl, rfl, rfl⟩
  case case5 name row =>
    by_cases heq : node = name
    · subst heq
      obtain ⟨n', rfl, hsize⟩ := hok nr hn
      exact ⟨n', Function.update_self _ _ _, hsize⟩
    · exact ⟨nr, (Function.update_of_ne heq _ _).trans hn, rfl, rfl, rfl⟩
  all_goals exact ⟨nr, hn, rfl, rfl, rfl⟩

/-- While the nodes keep their sizes, no node is booked through the gates for more than it has. -/
theorem gated_bookings_fit (h : Reach World.step SameSize (World.start nodes) w) (node : String) :
    FitsOn w w.bookings node := by
  refine h.invariant (I := fun w => ∀ node, FitsOn w w.bookings node) (fun _ => .inl rfl)
    (fun w e w' hw hok hs node => ?_) node
  have hfits : FitsOn w w'.bookings node := by
    rcases step_bookings hs with heq | ⟨pod, t, e, hran, hbs⟩
    · exact heq ▸ hw node
    · exact (hw node).after hran hbs
  refine hfits.imp id ?_
  rintro ⟨n, hn, hfit⟩
  obtain ⟨n', hn', hslots, hcpu, hmem⟩ := step_nodes hok hs hn
  exact ⟨n', hn', hslots ▸ hfit.slots, hcpu ▸ hfit.vcpus, hmem ▸ hfit.memory⟩

theorem gated_bookings_fit_created : ∃ w, Reach World.step SameSize (World.start sampleNodes) w ∧
    ∃ n, w.nodes "a" = some n ∧ gatedOn w.bookings "a" ≠ [] ∧ Fits n (gatedOn w.bookings "a") := by
  obtain ⟨w, hreach, hw⟩ : ∃ w, Reach World.step SameSize (World.start sampleNodes) w ∧ gatedOn w.bookings "a" ≠ [] :=
    exists_follow createBegun (by decide +kernel)
  obtain ⟨n, hn, hfit⟩ := (gated_bookings_fit hreach "a").resolve_left hw
  exact ⟨w, hreach, n, hn, hw, hfit⟩

end FeOS.Sandbox
