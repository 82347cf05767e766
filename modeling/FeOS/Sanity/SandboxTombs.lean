import FeOS.Sanity.SandboxInv

/-! The tombstones. A row never places its pod where a tombstone of its incarnation is: a create or a
restore goes to a node without one, and what makes a pod stale on a node writes one. -/

namespace FeOS.Sandbox

open Runs List

variable {nodes : String → Option NodeRow} {w w' : World} {ev : Event} {pod : String} {db : Reads} {t : Txn} {e : Effect}
  {bs : List Booking} {r r' : Row} {k : TombstoneKey}

theorem isTombstoned_iff : w.isTombstoned k = true ↔ ∃ t ∈ w.tombstones, t.key = k := by
  simp [World.isTombstoned]

/-! The table -/

variable {ts : List Tombstone} {row : Option Row} {n : String} {hd : Handle}

theorem exists_key_upsert {t : Tombstone} :
    (∃ x ∈ upsertTombstone ts t, x.key = k) ↔ (∃ x ∈ ts, x.key = k) ∨ t.key = k := by
  constructor
  · rintro ⟨x, hx, rfl⟩
    rcases mem_cons.1 hx with rfl | hx
    · exact .inr rfl
    · exact .inl ⟨x, (mem_filter.1 hx).1, rfl⟩
  · rintro (⟨x, hx, rfl⟩ | rfl)
    · by_cases hkey : x.key = t.key
      · exact ⟨t, mem_cons_self, hkey.symm⟩
      · exact ⟨x, mem_cons_of_mem _ (mem_filter.2 ⟨hx, by simpa using hkey⟩), rfl⟩
    · exact ⟨t, mem_cons_self, rfl⟩

theorem exists_key_upserts {ups : List Tombstone} :
    (∃ x ∈ ups.foldl upsertTombstone ts, x.key = k) ↔ (∃ x ∈ ts, x.key = k) ∨ ∃ x ∈ ups, x.key = k := by
  induction ups generalizing ts with
  | nil => simp
  | cons t ups ih =>
    rw [foldl_cons, ih, exists_key_upsert, exists_mem_cons_iff, or_assoc]

theorem exists_key_delete {k' : TombstoneKey} :
    (∃ x ∈ deleteTombstone ts k', x.key = k) ↔ (∃ x ∈ ts, x.key = k) ∧ k ≠ k' := by
  constructor
  · rintro ⟨x, hx, rfl⟩
    obtain ⟨hx, hne⟩ := mem_filter.1 hx
    exact ⟨⟨x, hx, rfl⟩, by simpa using hne⟩
  · rintro ⟨⟨x, hx, rfl⟩, hne⟩
    exact ⟨x, mem_filter.2 ⟨hx, by simpa using hne⟩, rfl⟩

theorem exists_key_deletes {drops : List TombstoneKey} :
    (∃ x ∈ drops.foldl deleteTombstone ts, x.key = k) ↔ (∃ x ∈ ts, x.key = k) ∧ k ∉ drops := by
  induction drops generalizing ts with
  | nil => simp
  | cons k' drops ih =>
    rw [foldl_cons, ih, exists_key_delete, mem_cons, not_or, and_assoc]

theorem isTombstoned_write : (w.write pod t e bs).isTombstoned k = true ↔
    (w.isTombstoned k = true ∨ ∃ x ∈ e.upserts, x.key = k) ∧ k ∉ e.drops := by
  rw [isTombstoned_iff, isTombstoned_iff]
  exact exists_key_deletes.trans (and_congr_left' exists_key_upserts)

/-! What a transaction writes of them -/

variable {kind : OpKind} {target store : String} {obs : Observation} {x : Option ℕ}

theorem mem_beginTombstones (h : k ∈ beginTombstones pod db kind target r) :
    kind = .restore ∧ k.pod = pod ∧ k.incarnation = some r.incarnation ∧ k.node ≠ target := by
  unfold beginTombstones at h
  split_ifs at h with hk
  · obtain ⟨old, hold, rfl⟩ := mem_map.1 (mem_filter.1 h).1
    refine ⟨hk, rfl, rfl, ?_⟩
    have := (mem_filter.1 (mem_dedup.1 hold)).2
    simpa using this
  · exact absurd h not_mem_nil

theorem applyOutcome_stale {inc now : ℕ} {res : CallResult}
    (h : x ∈ (applyOutcome store kind target inc now res obs r).stale) : x ≠ some inc := by
  cases obs with
  | noAnswer | notFound => exact absurd h not_mem_nil
  | pod info =>
    simp only [applyOutcome] at h
    split_ifs at h with hinc
    · exact absurd h not_mem_nil
    · rwa [mem_singleton.1 h]

theorem observe_stale {node : String} {now : ℕ}
    (h : x ∈ (observe store node now obs r).stale) : x ≠ some r.incarnation := by
  cases obs with
  | noAnswer | notFound => exact absurd h not_mem_nil
  | pod info =>
    simp only [observe] at h
    split_ifs at h with hinc
    · exact absurd h not_mem_nil
    · rwa [mem_singleton.1 h]

theorem Ran.upserts_pod (h : Ran pod db row t e) : ∀ x ∈ e.upserts, x.key.pod = pod := by
  cases h with
  | idle | takeover | preempt | merge | rollback | release | down | grace => exact fun x hx => absurd hx not_mem_nil
  | bury hpod => exact fun x hx => mem_singleton.1 hx ▸ hpod
  | begin =>
    intro x hx
    obtain ⟨key, hkey, rfl⟩ := mem_map.1 hx
    exact (mem_beginTombstones hkey).2.1
  | finish hpod =>
    intro x hx
    obtain ⟨stale, -, rfl⟩ := mem_map.1 hx
    exact hpod
  | observed | delete =>
    intro x hx
    obtain ⟨n, -, rfl⟩ := mem_map.1 hx
    rfl

theorem Ran.upserts_elsewhere (h : Ran pod db row t e) : ∀ x ∈ e.upserts, Elsewhere e.after x.key := by
  cases h with
  | idle | takeover | preempt | merge | rollback | release | down | grace => exact fun x hx => absurd hx not_mem_nil
  | bury _ hk =>
    intro x hx
    obtain rfl := mem_singleton.1 hx
    exact hk
  | @begin r owner i target reads =>
    rintro x hx r' hr' - hplace
    cases hr'
    obtain ⟨key, hkey, rfl⟩ := mem_map.1 hx
    obtain ⟨hk, -, -, hne⟩ := mem_beginTombstones hkey
    have hat : target = key.node := by simpa [Row.places, beginRow_node, hk] using hplace
    exact hne hat.symm
  | @finish r h res obs _ hinc =>
    intro x hx r' hr' hown
    cases hr'
    obtain ⟨stale, hstale, rfl⟩ := mem_map.1 hx
    have hkept := (applyOutcome_settles (db.storeOf h.target) h.kind h.target h.inc db.now res obs r).incarnation
    refine absurd (hown.trans (congrArg some ?_)) (applyOutcome_stale hstale)
    exact hkept.trans hinc
  | @observed r _ node obs =>
    intro x hx r' hr' hown
    cases hr'
    obtain ⟨stale, hstale, rfl⟩ := mem_map.1 hx
    have hkept := (observe_settles (db.storeOf node) node db.now obs r).incarnation
    exact absurd (hown.trans (congrArg some hkept)) (observe_stale hstale)
  | delete => exact fun x _ r hr => nomatch hr

theorem Settles.places {node : Option String} {a b : Row} (h : Settles node a b) (hplace : b.places n) :
    a.places n ∨ node = some n := by
  rcases hplace with hat | hat
  · rcases h.node with heq | heq | heq
    · simp [heq] at hat
    · exact .inl (.inl (heq.symm.trans hat))
    · exact .inr (heq.symm.trans hat)
  · exact .inl (.inr (h.opTarget.symm.trans hat))

theorem releasedRow_places (hplace : (releasedRow r).places n) : r.places n :=
  .inl (by simpa [Row.places, releasedRow] using hplace)

theorem Ran.drops (h : Ran pod db row t e) (hk : k ∈ e.drops) :
    (∃ hd unfit r, t = .rollback hd unfit ∧ row = some r ∧ r.opId = some hd.opId ∧ k ∈ hd.tombstones) ∨
      ∃ r n, row = some r ∧ r.places n ∧ k = ⟨pod, n, some r.incarnation⟩ := by
  cases h with
  | @rollback r hd unfit _ _ hid =>
    refine .inl ⟨hd, unfit, r, rfl, rfl, hid, ?_⟩
    split_ifs at hk
    · exact hk
    · exact absurd hk not_mem_nil
  | @observed r _ node _ _ _ hnode =>
    simp only [Sandbox.observed, commitChange] at hk
    split_ifs at hk
    · exact .inr ⟨r, node, rfl, .inl hnode, mem_singleton.1 hk⟩
    · exact absurd hk not_mem_nil
  | _ => exact absurd hk not_mem_nil

theorem Ran.places (h : Ran pod db (some r) t e) (hafter : e.after = some r') (hplace : r'.places n)
    (howns : ∀ hd, t.ends = some hd → r.opId = some hd.opId → r.opTarget = some hd.target) :
    r.places n ∨
      (∃ owner i reads, t = .begin owner i n reads ∧ (i.kind = .create ∨ i.kind = .restore) ∧ e.booking = .claim n ∧
        e.begun.map Handle.kind = some i.kind) ∨
      ∃ hd unfit, t = .rollback hd unfit ∧ hd.takeover = false ∧ hd.preempted = none ∧ hd.read.node = some n ∧
        r.opId = some hd.opId ∧
        e.drops = hd.tombstones := by
  cases h <;> cases hafter
  case idle | bury | takeover | down => exact .inl hplace
  case begin owner i target reads hop hpre =>
    by_cases hk : i.kind = .create ∨ i.kind = .restore
    · have hat : target = n := by simpa [Row.places, beginRow_node, hk] using hplace
      subst hat
      refine .inr (.inl ⟨owner, i, reads, rfl, hk, ?_, rfl⟩)
      rcases hk with hk | hk <;> simp [beginEffect, admits, hk]
    · have hnode := precheck_node hpre hk
      have hat : target = n := by simpa [Row.places, beginRow_node, hk, hnode] using hplace
      exact .inl (.inl (hat ▸ hnode))
  case preempt target reads hop hp =>
    obtain ⟨-, -, -, -, hnode, -⟩ := of_decide_eq_true hp
    have hat : target = n := by simpa [Row.places, hnode] using hplace
    exact .inl (.inl (hat ▸ hnode))
  case finish h res obs _ _ hid =>
    have hset := applyOutcome_settles (db.storeOf h.target) h.kind h.target h.inc db.now res obs r
    rcases hset.places hplace with hplace | hat
    · exact .inl (releasedRow_places hplace)
    · exact .inl (.inr ((howns h rfl hid).trans hat))
  case merge h res obs _ _ _ _ =>
    have hnode := mergeAll_keeps Row.node (db.storeOf h.target) (reported h res obs) (fun _ _ _ => rfl) r
    have htarget := mergeAll_keeps Row.opTarget (db.storeOf h.target) (reported h res obs) (fun _ _ _ => rfl) r
    exact .inl (hplace.imp hnode.symm.trans htarget.symm.trans)
  case rollback h unfit _ _ hid =>
    obtain ⟨heq, -⟩ | ⟨hpre, htake, avoid, heq⟩ := rollbackRow_cases h unfit r
    · rw [heq] at hplace
      exact .inl (releasedRow_places hplace)
    · rw [heq] at hplace
      have hat : h.read.node = some n := by simpa [Row.places] using hplace
      exact .inr (.inr ⟨h, unfit, rfl, htake, hpre, hat, hid, by simp [commitChange, hpre, htake]⟩)
  case release => exact .inl (releasedRow_places hplace)
  case observed node obs _ hnode _ =>
    rcases (observe_settles (db.storeOf node) node db.now obs r).places hplace with hplace | hat
    · exact .inl hplace
    · exact .inl (.inl (hnode.trans hat))
  case grace => exact .inl (((lostGrace_settles r).places hplace).elim id .inl)

theorem claim_untombstoned (hbs : w.bookingsAfter pod t e = some bs) (hbooking : e.booking = .claim n)
    (hbegun : e.begun = some hd) (hk : hd.kind = .create ∨ hd.kind = .restore) : w.hasTombstone pod n = false := by
  obtain ⟨owner, i, target, reads, after, row, hd', nr, -, -, -, hbegun', -, hclaim, -⟩ := bookingsAfter_claim hbs hbooking
  cases hbegun.symm.trans hbegun'
  have hpass := check_eq_none.1 hclaim .tombstone (by simp [hk, claimGates])
  simpa [GateInput.passes, hk] using hpass

theorem hasTombstone_of_isTombstoned (h : w.isTombstoned k = true) : w.hasTombstone k.pod k.node = true := by
  obtain ⟨x, hx, rfl⟩ := isTombstoned_iff.1 h
  exact any_eq_true.2 ⟨x, hx, by simp⟩

structure TombInv (w : World) : Prop extends Inv w where
  unburied : ∀ pod r n, w.rows pod = some r → r.places n → w.isTombstoned ⟨pod, n, some r.incarnation⟩ = false
  /-- a rollback removes the tombstone of the node that it puts back -/
  putBack : ∀ h ∈ w.handles, h.takeover = false → h.preempted = none → ∀ n, h.read.node = some n →
    n = h.target ∨ ⟨h.pod, n, some h.inc⟩ ∈ h.tombstones
  /-- an op's tombstones are for its own sandbox -/
  own : ∀ h ∈ w.handles, ∀ k ∈ h.tombstones, k.pod = h.pod ∧ k.incarnation = some h.inc

theorem TombInv.start : TombInv (World.start nodes) where
  toInv := inv_start
  unburied := fun _ _ _ hr => nomatch hr
  putBack := fun _ hh => absurd hh not_mem_nil
  own := fun _ hh => absurd hh not_mem_nil

theorem isTombstoned_mono (hsub : w'.tombstones ⊆ w.tombstones) (h : w.isTombstoned k = false) :
    w'.isTombstoned k = false := by
  refine eq_false_of_ne_true fun h' => ?_
  obtain ⟨x, hx, hk⟩ := isTombstoned_iff.1 h'
  exact absurd (isTombstoned_iff.2 ⟨x, hsub hx, hk⟩) (by simp [h])

theorem Ran.putBack (h : Ran pod db (some r) t e)
    (hclean : ∀ n, r.places n → db.tombstoned ⟨pod, n, some r.incarnation⟩ = false)
    (hr : RowOk r) (hbegun : e.begun = some hd) (htake : hd.takeover = false) (hpre : hd.preempted = none)
    (hn : hd.read.node = some n) : n = hd.target ∨ ⟨hd.pod, n, some hd.inc⟩ ∈ hd.tombstones := by
  cases h <;> cases hbegun
  case begin owner i target reads hop hprecheck =>
    by_cases hk : i.kind = .restore
    · by_cases hat : n = target
      · exact .inl hat
      refine .inr ?_
      have hstale : n ∈ staleNodes r target := by
        refine mem_dedup.2 (mem_filter.2 ⟨?_, by simpa using hat⟩)
        exact mem_append_left _ (Option.mem_toList.2 hn)
      simp only [beginTombstones, hk, if_true]
      refine mem_filter.2 ⟨mem_map.2 ⟨n, hstale, rfl⟩, ?_⟩
      simp [hclean n (.inl hn)]
    · by_cases hcreate : i.kind = .create
      · -- a row that waits for its pod has no node
        have hnone := (hr.unplaced hop ((precheck_pending hprecheck).1 hcreate)).1
        exact absurd (hnone.symm.trans hn) (by simp)
      · exact .inl (Option.some.inj (hn.symm.trans (precheck_node hprecheck (not_or.2 ⟨hcreate, hk⟩))))
  case takeover => cases htake
  case preempt hop _ => exact absurd (hr.opId.2 hpre) hop

theorem Ran.own (h : Ran pod db (some r) t e) (hbegun : e.begun = some hd) (hk : k ∈ hd.tombstones) :
    k.pod = hd.pod ∧ k.incarnation = some hd.inc := by
  cases h <;> cases hbegun
  case begin =>
    obtain ⟨-, hpod, hinc, -⟩ := mem_beginTombstones hk
    exact ⟨hpod, hinc⟩
  case takeover | preempt => exact absurd hk not_mem_nil

theorem TombInv.write (hw : TombInv w) (hmay : t.mayRun pod w.handles w.sent = true)
    (hran : Ran pod w.reads (w.rows pod) t e)
    (hbs : w.bookingsAfter pod t e = some bs) : TombInv (w.write pod t e bs) where
  toInv := hw.toInv.write hmay hran
  unburied := fun pod' r' n hr' hplace => by
    refine eq_false_of_ne_true fun hthere => ?_
    obtain ⟨hburied, hkept⟩ := isTombstoned_write.1 hthere
    obtain ⟨hne, hr⟩ | ⟨rfl, r, hr, hran, hafter⟩ := write_row hran hr'
    · rcases hburied with hburied | ⟨x, hx, hkey⟩
      · simp [hw.unburied pod' r' n hr hplace] at hburied
      · exact hne ((congrArg TombstoneKey.pod hkey).symm.trans (hran.upserts_pod x hx))
    rcases hburied with hburied | ⟨x, hx, hkey⟩
    · rw [(hran.ops (hw.row _ r hr) hafter).1] at hburied hkept
      have howns : ∀ hd, t.ends = some hd → r.opId = some hd.opId → Owns pod' r hd :=
        fun hd hends hid => hw.owns hr (mem_of_ends hmay hends).1 hid
      have hclean {n : String} (hplace : r.places n)
          (hburied : w.isTombstoned ⟨pod', n, some r.incarnation⟩ = true) : False := by
        simp [hw.unburied pod' r n hr hplace] at hburied
      obtain hold | ⟨owner, i, reads, rfl, hk, hbooking, hbegun⟩ | ⟨hd, unfit, rfl, htake, hpre, hn, hid, hdrops⟩ :=
        hran.places hafter hplace fun hd hends hid => (howns hd hends hid).target
      · exact hclean hold hburied
      · obtain ⟨hd, hbegun, hkind⟩ := Option.map_eq_some_iff.1 hbegun
        have hnone := claim_untombstoned hbs hbooking hbegun (hkind ▸ hk)
        have hsome := hasTombstone_of_isTombstoned hburied
        exact absurd hsome (by simp [hnone])
      · have ho := howns hd rfl hid
        rcases hw.putBack hd (mem_of_ends hmay rfl).1 htake hpre n hn with rfl | hmem
        · exact hclean (.inr ho.target) hburied
        · rw [ho.pod, ho.inc] at hmem
          exact hkept (hdrops ▸ hmem)
    · exact hran.upserts_elsewhere x hx r' hafter (by rw [hkey]) (by rwa [hkey])
  putBack := fun h hh htake hpre n hn => by
    rcases mem_write_handles.1 hh with hh | hh
    · exact hw.putBack h hh htake hpre n hn
    · obtain ⟨r, hr⟩ := hran.exists_row (.inr (by simp [hh]))
      rw [hr] at hran
      exact hran.putBack (fun n hplace => hw.unburied pod r n hr hplace) (hw.row pod r hr) hh htake hpre hn
  own := fun h hh k hk => by
    rcases mem_write_handles.1 hh with hh | hh
    · exact hw.own h hh k hk
    · obtain ⟨r, hr⟩ := hran.exists_row (.inr (by simp [hh]))
      rw [hr] at hran
      exact hran.own hh hk

theorem TombInv.step (hw : TombInv w) (hstep : w.step ev = some w') : TombInv w' := by
  obtain ⟨p, vcpus, memoryMiB, pinNode, -, -, rfl⟩ | ⟨p, t, e, bs, -, hmay, hran, hbs, rfl⟩ | hapart := step_cases hstep
  · refine ⟨hw.toInv.insert vcpus memoryMiB pinNode, fun pod r n hr hplace => ?_, hw.putBack, hw.own⟩
    rcases Function.update_cases hr with ⟨-, ⟨⟩⟩ | ⟨-, hr⟩
    · exact absurd hplace (by simp [Row.places, Row.new])
    · exact hw.unburied pod r n hr hplace
  · exact hw.write hmay hran hbs
  · refine ⟨hw.toInv.apart hapart, fun pod r n hr hplace => ?_, hapart.handles ▸ hw.putBack, hapart.handles ▸ hw.own⟩
    exact isTombstoned_mono hapart.tombstones (hw.unburied pod r n (hapart.rows ▸ hr) hplace)

theorem tombInv_of_reach {ok : World → Event → Prop} (h : Reach World.step ok (World.start nodes) w) : TombInv w :=
  h.invariant TombInv.start fun _ _ _ hw _ hstep => hw.step hstep

theorem TombInv.drops_own (hw : TombInv w) (hmay : t.mayRun pod w.handles w.sent = true)
    (hran : Ran pod w.reads (w.rows pod) t e) (hk : k ∈ e.drops) :
    ∃ r, w.rows pod = some r ∧ k.pod = pod ∧ k.incarnation = some r.incarnation := by
  obtain ⟨hd, unfit, r, rfl, hr, hid, hmem⟩ | ⟨r, n, hr, -, rfl⟩ := hran.drops hk
  · have hh := (mem_of_ends hmay rfl).1
    have ho := hw.owns hr hh hid
    have hown := hw.own hd hh k hmem
    exact ⟨r, hr, hown.1.trans ho.pod, hown.2.trans (congrArg some ho.inc)⟩
  · exact ⟨r, hr, rfl, rfl⟩

end FeOS.Sandbox
