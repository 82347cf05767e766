import FeOS.Sanity.StopSteps

/-! A start resumes what a stop suspended: in the runs in which no client suspends a pod that the record or a task
of feosd names, and nothing that a stop suspended is given up or lost before it is recorded. -/

namespace FeOS.PodStop

open World List Runs

variable {w w' : World} {pass : Pass} {p q : ID} {i : ℕ} {out : Outcome} {within : Option ℕ}

/-- No client's suspend is of a pod that is named, at once or late; a suspend of the stop that goes through late
is of a pod that it tries again; feosd does not end, nor the stop's grace, with a pod suspended that is not
recorded; and a start neither finds its record too old nor fails to resume a pod. -/
def Unmixed (within : Option ℕ) (w : World) : Event → Prop
  | .act i out =>
    match w.calls[i]? with
    | some (.suspend, p) => out = .done → ¬ w.Named p
    | _ => True
  | .follow p =>
    match w.late p with
    | some .client => ¬ w.Named p
    | some .stop => p ∈ w.retried
    | none => True
  | .down => (∀ o ∈ w.outcomes, o.2 ≠ .suspended) ∧ ∀ p ∈ w.retried, w.pods p ≠ some .suspended
  | .giveUp => ∀ p ∈ w.retried, w.pods p ≠ some .suspended
  | .readRecord => ∀ r ∈ w.file, tooOld within w.now r = false
  | .resumed i ok =>
    match w.start with
    | .resuming _ inFlight => ok = false → ∀ p ∈ inFlight[i]?, w.pods p ≠ some .suspended
    | _ => True
  | _ => True

instance (within : Option ℕ) (w : World) (e : Event) : Decidable (Unmixed within w e) := by
  unfold Unmixed
  split
  · split <;> infer_instance
  · split <;> infer_instance
  · infer_instance
  · infer_instance
  · infer_instance
  · split <;> infer_instance
  · infer_instance

namespace World.Inv
variable (h : w.Inv)
include h

theorem not_owed (hp : w.pods p ≠ some .suspended) : w.owed p ≠ true :=
  fun ho => hp (h.owed p ho)

theorem not_clients (hp : w.pods p ≠ some .suspended) : w.clients p ≠ true :=
  fun hc => hp (h.clients p hc).1

/-! The pods -/

theorem follow (hok : Unmixed within w (.follow p)) (hs : w.follow p = some w') : w'.Inv := by
  revert hs
  fun_cases World.follow w p <;> rintro ⟨⟩
  case case1 who hlate _ _ =>
    simp only [Unmixed, hlate] at hok
    refine h.putSuspended (fun hwho => ?_) (fun hwho => ?_)
    · subst hwho
      exact hok
    · subst hwho
      exact hok

theorem vmEnds (hs : w.vmEnds p = some w') : w'.Inv := by
  revert hs
  fun_cases World.vmEnds w p <;> rintro ⟨⟩
  exact h.put p _

theorem of_same (same : SameBooks w w') (hids : w'.ids.Nodup) (hfair : w'.wronged = w.wronged)
    (hpods : w'.pods = w.pods) (howed : w'.owed = w.owed) (hclients : w'.clients = w.clients) : w'.Inv := by
  refine h.of_pods same hids hfair (fun p hp => ?_) (fun p hp => ?_)
  · rw [howed] at hp
    rw [hpods]
    exact ⟨h.owed p hp, .inl hp⟩
  · rw [hclients] at hp
    rw [hpods]
    exact h.clients p hp

omit h in
theorem suspendLocked_same (w : World) (who : Who) (p : ID) (out : Outcome) (hout : out ≠ .done) :
    (w.suspendLocked who p out).stop = w.stop ∧ (w.suspendLocked who p out).pods = w.pods := by
  cases out with
  | done => exact absurd rfl hout
  | busy late | failed late =>
    simp only [World.suspendLocked]
    split_ifs <;> exact ⟨rfl, rfl⟩

theorem suspendLocked_late {who : Who} (hout : out ≠ .done) : (w.suspendLocked who p out).Inv := by
  cases out with
  | done => exact absurd rfl hout
  | busy late | failed late =>
    simp only [World.suspendLocked]
    split_ifs
    · exact h.of_same ⟨rfl, rfl, rfl, rfl⟩ h.ids rfl rfl rfl rfl
    · exact h

theorem perform {op : Op} (hok : op = .suspend → out = .done → ¬ w.Named p) :
    (w.perform op p out).Inv := by
  unfold World.perform
  split
  · rcases eq_or_ne out .done with rfl | hout
    · exact h.putSuspended nofun fun _ => hok rfl rfl
    · exact h.suspendLocked_late hout
  · exact h
  · split
    · rename_i _ _ _ _ state _
      refine (h.put p state).of_same ⟨rfl, rfl, rfl, rfl⟩ ?_ rfl rfl rfl rfl
      split_ifs with hp
      · exact h.ids
      · exact nodup_cons.2 ⟨hp, h.ids⟩
    · exact h

theorem act (hok : Unmixed within w (.act i out)) (hs : w.act i out = some w') : w'.Inv := by
  revert hs
  fun_cases World.act w i out <;> rintro ⟨⟩
  case case1 op p hcall =>
    have hidle : { w with calls := w.calls.eraseIdx i }.Inv := h.of_same ⟨rfl, rfl, rfl, rfl⟩ h.ids rfl rfl rfl rfl
    refine hidle.perform fun hop hout => ?_
    subst hop
    simp only [Unmixed, hcall] at hok
    exact hok hout

theorem call {op : Op} (hs : w.call op p = some w') : w'.Inv := by
  unfold World.call at hs
  split_ifs at hs
  cases hs
  exact h.of_same ⟨rfl, rfl, rfl, rfl⟩ h.ids rfl rfl rfl rfl

/-! feosd ends and begins -/

theorem boot (hs : w.boot = some w') : w'.Inv := by
  unfold World.boot at hs
  split_ifs at hs
  cases hs
  refine { h with clients := fun p hp => (h.clients p hp).imp_right (mt fun hn => ?_), resumes := nofun }
  have hn' : p ∈ w.recorded ∨ p ∈ [] ∨ p ∈ w.entry ∨ (p, .suspended) ∈ w.outcomes ∨ p ∈ w.retried := hn
  exact hn'.imp_right fun h => .inr (h.resolve_left not_mem_nil)

theorem down (hok : Unmixed within w .down) (hs : w.down = some w') : w'.Inv := by
  unfold World.down at hs
  split_ifs at hs
  cases hs
  -- what is suspended stays so
  have hpods : ∀ p, w.pods p = some .suspended →
      (if w.pods p = some .running ∧ w.late p = none then some .stopped else w.pods p) = some .suspended := by
    intro p hp
    rw [hp, if_neg (by simp)]
  exact
    { ids := h.ids
      owed := fun p hp => hpods p (h.owed p hp)
      listed := fun p hp => by
        refine .inl ((h.listed p hp).resolve_right ?_)
        rintro (hrec | hagain)
        · exact hok.1 _ hrec rfl
        · exact hok.2 p hagain (h.owed p hp)
      clients := fun p hp => by
        refine ⟨hpods p (h.clients p hp).1, fun hn => (h.clients p hp).2 ?_⟩
        have hn' : p ∈ w.recorded ∨ p ∈ [] ∨ p ∈ [] ∨ (p, Done.suspended) ∈ [] ∨ p ∈ [] := hn
        simp only [not_mem_nil, or_false] at hn'
        exact .inl hn'
      fair := h.fair
      stopping := fun hne => absurd rfl hne
      read := nofun
      pass := nofun
      held := fun _ _ => not_mem_nil
      resumes := nofun }

/-! The start -/

theorem setStart {start : Start}
    (hnamed : ∀ p, w.clients p = true → p ∈ { w with start := start }.resumes → w.Named p)
    (hresumes : ∀ todo inFlight, start = .resuming todo inFlight → w.stopping = false →
      ∀ p, w.owed p = true → p ∈ todo ∨ p ∈ inFlight) : { w with start := start }.Inv :=
  { h with
    clients := fun p hp => by
      refine ⟨(h.clients p hp).1, fun hn => ?_⟩
      have hn' : p ∈ w.recorded ∨ p ∈ { w with start := start }.resumes ∨ p ∈ w.entry ∨ (p, .suspended) ∈ w.outcomes ∨
        p ∈ w.retried := hn
      rcases hn' with hrec | hres | hrest
      · exact (h.clients p hp).2 (.inl hrec)
      · exact (h.clients p hp).2 (hnamed p hp hres)
      · exact (h.clients p hp).2 (.inr (.inr hrest))
    resumes := hresumes }

theorem readRecord (hok : Unmixed within w .readRecord) (hs : w.readRecord within = some w') :
    w'.Inv := by
  revert hs
  fun_cases World.readRecord w within <;> rintro ⟨⟩
  case case1 => exact h.setStart (fun _ _ hres => absurd hres not_mem_nil) nofun
  case case2 r hfile =>
    have hold : tooOld within w.now r = false := hok r hfile
    have hrec : w.recorded = r.pods := by simp only [World.recorded, hfile, Option.map_some, Option.getD_some]
    rw [hold]
    refine h.setStart (fun p _ hres => .inl ?_) ?_
    · have hres' : p ∈ r.pods ++ [] := hres
      rwa [append_nil, ← hrec] at hres'
    · rintro _ _ ⟨⟩ hstopping p hp
      -- outside a stop what is owed is in the record
      have hidle : w.stop = .idle := by
        by_contra hne
        simp [h.stopping hne] at hstopping
      have hl := h.listed p hp
      simp only [Listed, World.outcomes, World.retried, hidle, not_mem_nil, or_false] at hl
      exact .inl (hrec ▸ hl)

theorem resumeIfSuspended (hs : w.resumeIfSuspended = some w') : w'.Inv := by
  revert hs
  fun_cases World.resumeIfSuspended w <;> rintro ⟨⟩
  case case1 p todo inFlight hstart _ hgo =>
    refine h.setStart (fun q _ hres => .inr (.inl ?_)) ?_
    · have hres' : q ∈ todo ++ (inFlight ++ [p]) := hres
      simp only [World.resumes, hstart]
      simp only [mem_append, mem_cons, not_mem_nil, or_false] at hres' ⊢
      tauto
    · rintro _ _ ⟨⟩ hstopping q hq
      have hold := h.resumes _ _ hstart hstopping q hq
      simp only [mem_append, mem_cons, not_mem_nil, or_false] at hold ⊢
      tauto
  case case2 p todo inFlight hstart _ hgo =>
    refine h.setStart (fun q _ hres => .inr (.inl ?_)) ?_
    · have hres' : q ∈ todo ++ inFlight := hres
      simp only [World.resumes, hstart]
      exact mem_cons_of_mem p hres'
    · rintro _ _ ⟨⟩ hstopping q hq
      rcases h.resumes _ _ hstart hstopping q hq with htodo | hflight
      · rcases mem_cons.1 htodo with rfl | htodo
        · -- what is passed over is not suspended
          exact absurd ⟨by rw [hstopping]; rfl, h.owed q hq⟩ hgo
        · exact .inl htodo
      · exact .inr hflight

end World.Inv

theorem mem_eraseIdx_of_ne {l : List ID} (hi : l[i]? = some p) (hq : q ∈ l) (hne : q ≠ p) : q ∈ l.eraseIdx i := by
  obtain ⟨j, hj⟩ := mem_iff_getElem?.1 hq
  refine mem_eraseIdx_iff_getElem?.2 ⟨j, fun hij => hne ?_, hj⟩
  subst hij
  exact Option.some.inj (hj.symm.trans hi)

theorem World.Inv.leaveFlight (h : w.Inv) {todo inFlight : List ID} (hstart : w.start = .resuming todo inFlight)
    (hp : inFlight[i]? = some p) (howed : w.owed p ≠ true) :
    { w with start := .resuming todo (inFlight.eraseIdx i) }.Inv := by
  refine h.setStart (fun q _ hres => .inr (.inl ?_)) ?_
  · have hres' : q ∈ todo ++ inFlight.eraseIdx i := hres
    simp only [World.resumes, hstart]
    rw [mem_append] at hres' ⊢
    exact hres'.imp_right mem_of_mem_eraseIdx
  · rintro _ _ ⟨⟩ hstopping q hq
    refine (h.resumes _ _ hstart hstopping q hq).imp_right fun hflight => ?_
    exact mem_eraseIdx_of_ne hp hflight fun hqp => howed (hqp ▸ hq)

theorem World.Inv.resumed (h : w.Inv) {ok : Bool} (hok : Unmixed within w (.resumed i ok))
    (hs : w.resumed i ok = some w') : w'.Inv := by
  revert hs
  fun_cases World.resumed w i ok <;> intro hs <;> try cases hs
  case case1 todo inFlight hstart p hp _ hgo =>
    have hnamed : w.Named p := by
      refine .inr (.inl ?_)
      simp only [World.resumes, hstart]
      exact mem_append_right _ (mem_of_getElem? hp)
    have hclients : w.clients p ≠ true := fun hc => (h.clients p hc).2 hnamed
    have hdone := (h.put p (some .running)).leaveFlight hstart hp (by simp [World.put])
    exact { hdone with fair := by simp [h.fair, Bool.eq_false_iff.2 hclients] }
  case case2 todo inFlight hstart p hp _ hgo =>
    obtain rfl := Option.some.inj hs
    simp only [Unmixed, hstart] at hok
    refine h.leaveFlight hstart hp fun ho => ?_
    rcases Bool.eq_false_or_eq_true ok with hyes | hno
    · exact hgo ⟨hyes, h.owed p ho⟩
    · exact hok hno p hp (h.owed p ho)

theorem World.Inv.forgetRecord (h : w.Inv) (hs : w.forgetRecord = some w') : w'.Inv := by
  revert hs
  fun_cases World.forgetRecord w <;> rintro ⟨⟩
  case case1 hidle hstart =>
    have hover : { w with start := .over }.Inv := h.setStart (fun _ _ hres => absurd hres not_mem_nil) nofun
    by_cases hstopping : w.stopping = true
    · rwa [if_pos hstopping]
    · -- all the pods of the start were seen to
      have hnone : ∀ p, w.owed p ≠ true := by
        intro p hp
        rcases h.resumes _ _ hstart (Bool.eq_false_iff.2 hstopping) p hp with hmem | hmem
        · exact absurd hmem not_mem_nil
        · exact absurd hmem not_mem_nil
      rw [if_neg hstopping]
      exact
        { hover with
          listed := fun p hp => absurd hp (hnone p)
          clients := fun p hp =>
            ⟨(hover.clients p hp).1, fun hn => (hover.clients p hp).2 (.inr (hn.resolve_left not_mem_nil))⟩
          pass := fun pass hpass => absurd (hidle.symm.trans hpass) nofun }
  case case2 => exact h.setStart (fun _ _ hres => absurd hres not_mem_nil) nofun

/-! The stop -/

theorem World.Inv.beginStop (h : w.Inv) (hs : w.beginStop = some w') : w'.Inv := by
  unfold World.beginStop at hs
  split_ifs at hs
  cases hs
  exact { h with stopping := fun _ => rfl, resumes := nofun }

theorem World.Inv.stillSuspended (h : w.Inv) (hs : w.stillSuspended = some w') : w'.Inv := by
  revert hs
  fun_cases World.stillSuspended w <;> rintro ⟨⟩
  case case1 hidle hstopping =>
    have hlisted : ∀ p, w.owed p = true → p ∈ w.recorded := by
      intro p hp
      have hl := h.listed p hp
      simp only [Listed, World.outcomes, World.retried, hidle, not_mem_nil, or_false] at hl
      exact hl
    exact
      { h with
        listed := fun p hp => .inl (hlisted p hp)
        clients := fun p hp => by
          refine (h.clients p hp).imp_right (mt fun hn => ?_)
          have hn' : p ∈ w.recorded ∨ p ∈ w.resumes ∨ p ∈ (w.recorded.filter fun p => w.pods p = some .suspended) ∨
            (p, Done.suspended) ∈ [] ∨ p ∈ [] := hn
          simp only [mem_filter, not_mem_nil, or_false] at hn'
          rcases hn' with hrec | hres | hentry
          · exact .inl hrec
          · exact .inr (.inl hres)
          · exact .inl hentry.1
        stopping := fun _ => hstopping
        read := by
          rintro _ ⟨⟩ p hp
          exact mem_filter.2 ⟨hlisted p hp, decide_eq_true (h.owed p hp)⟩
        pass := by rintro _ ⟨⟩
        held := fun _ _ => not_mem_nil
        resumes := h.resumes }

theorem candidates_nodup (hids : w.ids.Nodup) (entry : List ID) : (w.candidates entry).Nodup := by
  have hgo : ∀ (entry candidates : List ID), candidates.Nodup →
      (entry.foldl (fun candidates p => if p ∈ candidates then candidates else candidates ++ [p]) candidates).Nodup := by
    intro entry
    induction entry with
    | nil => exact fun _ h => h
    | cons p entry ih =>
      intro candidates hnodup
      rw [foldl_cons]
      split_ifs with hp
      · exact ih _ hnodup
      · exact ih _ (nodup_append'.2 ⟨hnodup, nodup_singleton p, by simpa using hp⟩)
  exact hgo entry _ (hids.filter _)

theorem World.Inv.keepRecord (h : w.Inv) (hs : w.keepRecord = some w') : w'.Inv := by
  revert hs
  fun_cases World.keepRecord w <;> rintro ⟨⟩
  case case1 entry hread =>
    have hrec : ((writeRecord entry).map StopRecord.pods).getD [] = entry.pods := recorded_writeRecord entry
    have hstopping : w.stopping = true := h.stopping (by rw [hread]; nofun)
    exact
      { ids := h.ids
        owed := h.owed
        listed := fun p hp => .inl (hrec ▸ h.read entry hread p hp)
        clients := fun p hp => by
          refine (h.clients p hp).imp_right (mt fun hn => ?_)
          have hn' : p ∈ ((writeRecord entry).map StopRecord.pods).getD [] ∨ p ∈ w.resumes ∨ p ∈ entry.pods ∨
            (p, Done.suspended) ∈ [] ∨ p ∈ [] := hn
          simp only [hrec, not_mem_nil, or_false] at hn'
          have hentry : w.entry = entry.pods := by simp only [World.entry, hread]
          unfold World.Named
          rw [hentry]
          tauto
        fair := h.fair
        stopping := fun _ => hstopping
        read := nofun
        pass := by
          rintro _ ⟨⟩
          refine ⟨hrec, ?_⟩
          simpa [Pass.pods] using candidates_nodup h.ids entry.pods
        held := fun _ _ => not_mem_nil
        resumes := h.resumes }

structure Taken (pass pass' : Pass) (p : ID) : Prop where
  entry : pass'.entry = pass.entry
  outcomes : pass'.outcomes = pass.outcomes
  perm : (p :: pass'.pods).Perm pass.pods
  busy : ∀ q ∈ pass'.busy, q ∈ pass.busy
  rest : ∀ q ∈ pass.busy, q ≠ p → q ∈ pass'.busy

theorem taken_todo (hp : pass.todo[i]? = some p) : Taken pass { pass with todo := pass.todo.eraseIdx i } p where
  entry := rfl
  outcomes := rfl
  perm := by
    obtain ⟨hi, rfl⟩ := List.getElem?_eq_some_iff.1 hp
    exact (getElem_cons_eraseIdx_perm hi).append_right _
  busy _ hq := hq
  rest _ hq _ := hq

theorem taken_busy (htodo : pass.todo = []) (hp : pass.busy[i]? = some p) :
    Taken pass { pass with busy := pass.busy.eraseIdx i } p where
  entry := rfl
  outcomes := rfl
  perm := by
    obtain ⟨hi, rfl⟩ := List.getElem?_eq_some_iff.1 hp
    simp only [Pass.pods, htodo, nil_append]
    exact (getElem_cons_eraseIdx_perm hi).append_right _
  busy _ hq := mem_of_mem_eraseIdx hq
  rest _ hq hne := mem_eraseIdx_of_ne hp hq hne

theorem pods_addBusy_perm (pass : Pass) (p : ID) :
    ({ pass with busy := pass.busy ++ [p] } : Pass).pods.Perm (p :: pass.pods) := by
  simp only [Pass.pods]
  refine (List.Perm.append_left _ ?_).trans perm_middle
  rw [append_assoc, singleton_append]
  exact perm_middle

theorem pods_addOutcome_perm (pass : Pass) (p : ID) (d : Done) :
    ({ pass with outcomes := pass.outcomes ++ [(p, d)] } : Pass).pods.Perm (p :: pass.pods) := by
  simp only [Pass.pods, map_append, map_cons, map_nil, ← append_assoc]
  exact perm_append_singleton p _

namespace World.Inv
variable {pass' : Pass} (h : w.Inv) (hstop : w.stop = .suspending pass) (ht : Taken pass pass' p)
include h hstop ht

/-- An outcome for a pod that was taken up: a failed one is of no pod that is owed, and one of a pod that is owed
and does not run is of a pod that the record has already. -/
theorem addOutcome {d : Done} (hsuspended : d = .suspended → w.clients p ≠ true)
    (hfailed : d = .failed → w.owed p ≠ true)
    (hother : d ≠ .suspended → w.owed p = true → (p, .suspended) ∉ pass.outcomes ∧ p ∉ pass.busy) :
    { w with stop := .suspending { pass' with outcomes := pass'.outcomes ++ [(p, d)] } }.Inv := by
  refine h.setPass hstop ht.entry ?_ (fun q hq hlisted => ?_) (fun q hout hq => ?_) (fun q hq hnamed => ?_)
  · exact ((pods_addOutcome_perm pass' p d).trans ht.perm).nodup_iff.2 (h.pass pass hstop).2
  · rcases eq_or_ne q p with rfl | hqp
    · have hd : d = .suspended := by
        by_contra hd
        obtain ⟨hout, hbusy⟩ := hother hd hq
        exact hlisted.elim hout hbusy
      subst hd
      exact .inl (mem_append_right _ (mem_singleton.2 rfl))
    · refine hlisted.imp (fun hout => mem_append_left _ (ht.outcomes ▸ hout)) fun hbusy => ht.rest q hbusy hqp
  · rcases mem_append.1 hout with hold | hnew
    · exact ht.outcomes ▸ hold
    · obtain ⟨rfl, rfl⟩ := Prod.mk.inj (mem_singleton.1 hnew)
      exact absurd hq (hfailed rfl)
  · rcases hnamed with hout | hbusy
    · rcases mem_append.1 hout with hold | hnew
      · exact .inl (ht.outcomes ▸ hold)
      · obtain ⟨rfl, rfl⟩ := Prod.mk.inj (mem_singleton.1 hnew)
        exact absurd hq (hsuspended rfl)
    · exact .inr (ht.busy q hbusy)

theorem addBusy (hp : w.pods p = some .running) :
    { w with stop := .suspending { pass' with busy := pass'.busy ++ [p] } }.Inv := by
  have hns : w.pods p ≠ some .suspended := by rw [hp]; nofun
  refine h.setPass hstop ht.entry ?_ (fun q hq hlisted => ?_) (fun q hfailed _ => ht.outcomes ▸ hfailed)
    (fun q hq hnamed => ?_)
  · exact ((pods_addBusy_perm pass' p).trans ht.perm).nodup_iff.2 (h.pass pass hstop).2
  · have hqp : q ≠ p := fun hqp => h.not_owed hns (hqp ▸ hq)
    exact hlisted.imp (fun hout => ht.outcomes ▸ hout) fun hbusy => mem_append_left _ (ht.rest q hbusy hqp)
  · refine hnamed.imp (fun hout => ht.outcomes ▸ hout) fun hbusy => ?_
    rcases mem_append.1 hbusy with hold | hnew
    · exact ht.busy q hold
    · exact absurd ((mem_singleton.1 hnew) ▸ hq) (h.not_clients hns)

theorem suspendOne (hp : w.pods p = some .running) : (w.suspendOne pass' p out).Inv := by
  have hns : w.pods p ≠ some .suspended := by rw [hp]; nofun
  cases out with
  | done =>
    -- as if the pod were to be tried again, suspended meanwhile, and found so
    have hbusy := h.addBusy hstop ht hp
    have hmem : p ∈ pass'.busy ++ [p] := mem_append_right _ (mem_singleton.2 rfl)
    have hsusp := hbusy.putSuspended (fun _ : Who.stop = .stop => hmem) nofun
    have ht' : Taken { pass' with busy := pass'.busy ++ [p] } pass' p :=
      { entry := rfl
        outcomes := rfl
        perm := (pods_addBusy_perm pass' p).symm
        busy := fun q hq => mem_append_left _ hq
        rest := fun q hq hne => (mem_append.1 hq).resolve_right fun hnew => hne (mem_singleton.1 hnew) }
    refine hsusp.addOutcome rfl ht' (fun _ => ?_) nofun fun hne => absurd rfl hne
    simp [World.putSuspended]
  | busy late =>
    obtain ⟨hstop', hpods⟩ := suspendLocked_same w .stop p (.busy late) nofun
    have hlate : (w.suspendLocked .stop p (.busy late)).Inv := h.suspendLocked_late nofun
    exact hlate.addBusy (hstop'.trans hstop) ht (hpods ▸ hp)
  | failed late =>
    have hlate : (w.suspendLocked .stop p (.failed late)).Inv := h.suspendLocked_late nofun
    obtain ⟨hstop', hpods⟩ := suspendLocked_same w .stop p (.failed late) nofun
    have howed := hlate.not_owed (hpods ▸ hns)
    exact hlate.addOutcome (hstop'.trans hstop) ht nofun (fun _ => howed) fun _ ho => absurd ho howed

theorem addOther {d : Done} (hp : w.pods p ≠ some .suspended) (hd : d ≠ .suspended) :
    { w with stop := .suspending { pass' with outcomes := pass'.outcomes ++ [(p, d)] } }.Inv :=
  h.addOutcome hstop ht (fun hs => absurd hs hd) (fun _ => h.not_owed hp) fun _ ho => absurd ho (h.not_owed hp)

end World.Inv

namespace World.Inv
variable (h : w.Inv)
include h

theorem not_seen (hstop : w.stop = .suspending pass) (hp : p ∈ pass.todo) :
    (p, .suspended) ∉ pass.outcomes ∧ p ∉ pass.busy := by
  have hdisjoint := (nodup_append'.1 (h.pass pass hstop).2).2.2
  refine ⟨fun hout => hdisjoint hp (mem_append_right _ ?_), fun hbusy => hdisjoint hp (mem_append_left _ hbusy)⟩
  exact mem_map_of_mem hout

theorem suspendIfRunning (hs : w.suspendIfRunning i out = some w') : w'.Inv := by
  revert hs
  fun_cases World.suspendIfRunning w i out <;> rintro ⟨⟩
  case case1 pass hstop p hp _ _ hrun => exact h.suspendOne hstop (taken_todo hp) hrun
  case case2 pass hstop p hp _ _ hgone => exact h.addOther hstop (taken_todo hp) (by rw [hgone]; nofun) nofun
  case case3 pass hstop p hp _ _ _ _ =>
    exact h.addOutcome hstop (taken_todo hp) nofun nofun fun _ _ => h.not_seen hstop (mem_of_getElem? hp)

theorem suspendAgain (hs : w.suspendAgain i out = some w') : w'.Inv := by
  revert hs
  fun_cases World.suspendAgain w i out <;> rintro ⟨⟩
  case case1 pass hstop p hp htodo _ hrun => exact h.suspendOne hstop (taken_busy htodo hp) hrun
  case case2 pass hstop p hp htodo _ _ =>
    -- a client's would not have been tried again
    refine h.addOutcome hstop (taken_busy htodo hp) (fun _ hc => (h.clients p hc).2 ?_) nofun fun hne => absurd rfl hne
    refine .inr (.inr (.inr (.inr ?_)))
    rw [retried_of_suspending hstop]
    exact mem_of_getElem? hp
  case case3 pass hstop p hp htodo _ hgone => exact h.addOther hstop (taken_busy htodo hp) (by rw [hgone]; nofun) nofun
  case case4 pass hstop p hp htodo _ _ hns _ => exact h.addOther hstop (taken_busy htodo hp) hns nofun

theorem giveUp (hok : Unmixed within w .giveUp) (hs : w.giveUp = some w') : w'.Inv := by
  revert hs
  fun_cases World.giveUp w <;> rintro ⟨⟩
  case case1 pass hstop htodo =>
    have hbusy : ∀ p ∈ pass.busy, w.owed p ≠ true := by
      intro p hp
      refine h.not_owed (hok p ?_)
      rwa [retried_of_suspending hstop]
    refine h.setPass hstop rfl ?_ (fun p hp hlisted => ?_) (fun p hout hp => ?_) (fun p _ hnamed => ?_)
    · have hperm : ([] ++ (pass.outcomes ++ pass.busy.map fun p => (p, Done.failed)).map Prod.fst).Perm
          (pass.busy ++ pass.outcomes.map Prod.fst) := by
        simp only [nil_append, map_append, map_map]
        have hid : (Prod.fst ∘ fun p : ID => (p, Done.failed)) = id := rfl
        rw [hid, map_id]
        exact perm_append_comm
      have hnodup := (h.pass pass hstop).2
      simp only [Pass.pods, htodo, nil_append] at hnodup ⊢
      exact hperm.nodup_iff.2 hnodup
    · rcases hlisted with hout | hmem
      · exact .inl (mem_append_left _ hout)
      · exact absurd hp (hbusy p hmem)
    · rcases mem_append.1 hout with hold | hnew
      · exact hold
      · obtain ⟨q, hq, heq⟩ := mem_map.1 hnew
        cases heq
        exact absurd hp (hbusy p hq)
    · rcases hnamed with hout | hnil
      · rcases mem_append.1 hout with hold | hnew
        · exact .inl hold
        · obtain ⟨q, _, heq⟩ := mem_map.1 hnew
          cases heq
      · exact absurd hnil not_mem_nil

end World.Inv

theorem mem_entryAfter_of_suspended (entry : List ID) (p : ID) : p ∈ entryAfter entry (p, .suspended) := by
  simp only [entryAfter]
  split_ifs with hp
  · exact hp
  · exact mem_append_right _ (mem_singleton.2 rfl)

theorem mem_entryAfter_of_mem {entry : List ID} {o : ID × Done} (hq : q ∈ entry) (ho : o ≠ (q, .failed)) :
    q ∈ entryAfter entry o := by
  obtain ⟨p, d⟩ := o
  cases d with
  | suspended =>
    simp only [entryAfter]
    split_ifs
    · exact hq
    · exact mem_append_left _ hq
  | notRunning => exact hq
  | failed =>
    refine mem_filter.2 ⟨hq, decide_eq_true fun hqp => ho ?_⟩
    rw [hqp]

theorem of_mem_entryAfter {entry : List ID} {o : ID × Done} (hq : q ∈ entryAfter entry o) :
    q ∈ entry ∨ o = (q, .suspended) := by
  obtain ⟨p, d⟩ := o
  cases d with
  | suspended =>
    simp only [entryAfter] at hq
    split_ifs at hq
    · exact .inl hq
    · rcases mem_append.1 hq with hold | hnew
      · exact .inl hold
      · exact .inr (by rw [mem_singleton.1 hnew])
  | notRunning => exact .inl hq
  | failed => exact .inl (mem_filter.1 hq).1

theorem World.Inv.record (h : w.Inv) (hs : w.record = some w') : w'.Inv := by
  revert hs
  fun_cases World.record w <;> rintro ⟨⟩
  case case1 pass hstop o outcomes houtcomes _ =>
    obtain ⟨hrec, hnodup⟩ := h.pass pass hstop
    have hrec' := recorded_writeRecord { pass.entry with pods := entryAfter pass.entry.pods o }
    have hheld : ∀ p, w.owed p = true → o ≠ (p, .failed) ∧ (p, .failed) ∉ outcomes := by
      intro p hp
      have hold := h.held p hp
      rw [outcomes_of_suspending hstop, houtcomes, mem_cons, not_or] at hold
      exact ⟨fun ho => hold.1 ho.symm, hold.2⟩
    exact
      { ids := h.ids
        owed := h.owed
        listed := fun p hp => by
          have hl := h.listed p hp
          unfold World.Listed at hl
          rw [outcomes_of_suspending hstop, retried_of_suspending hstop, houtcomes, hrec] at hl
          show p ∈ ((writeRecord _).map StopRecord.pods).getD [] ∨ (p, .suspended) ∈ outcomes ∨ p ∈ pass.busy
          rw [hrec']
          rcases hl with hentry | hout | hbusy
          · exact .inl (mem_entryAfter_of_mem hentry (hheld p hp).1)
          · rcases mem_cons.1 hout with rfl | hout
            · exact .inl (mem_entryAfter_of_suspended _ p)
            · exact .inr (.inl hout)
          · exact .inr (.inr hbusy)
        clients := fun p hp => by
          refine (h.clients p hp).imp_right (mt fun hn => ?_)
          have hn' :
              p ∈ ((writeRecord { pass.entry with pods := entryAfter pass.entry.pods o }).map StopRecord.pods).getD [] ∨
            p ∈ w.resumes ∨ p ∈ entryAfter pass.entry.pods o ∨ (p, .suspended) ∈ outcomes ∨ p ∈ pass.busy := hn
          unfold World.Named
          rw [entry_of_suspending hstop, outcomes_of_suspending hstop, retried_of_suspending hstop, houtcomes]
          rw [hrec'] at hn'
          have hentry : p ∈ entryAfter pass.entry.pods o → p ∈ pass.entry.pods ∨ (p, .suspended) ∈ o :: outcomes := by
            intro hmem
            refine (of_mem_entryAfter hmem).imp_right fun ho => ?_
            rw [ho]
            exact mem_cons_self
          have hout : (p, Done.suspended) ∈ outcomes → (p, Done.suspended) ∈ o :: outcomes := mem_cons_of_mem o
          tauto
        fair := h.fair
        stopping := fun _ => h.stopping (by rw [hstop]; nofun)
        read := nofun
        pass := by
          rintro _ ⟨⟩
          refine ⟨hrec', ?_⟩
          simp only [Pass.pods, houtcomes, map_cons] at hnodup ⊢
          refine hnodup.sublist ?_
          exact ((sublist_cons_self _ _).append_left _).append_left _
        held := fun p hp => (hheld p hp).2
        resumes := h.resumes }

/-! Runs -/

theorem World.Inv.step (h : w.Inv) {e : Event} (hok : Unmixed within w e) (hs : w.step within e = some w') : w'.Inv := by
  cases e with
  | tick =>
    cases hs
    exact h.of_same ⟨rfl, rfl, rfl, rfl⟩ h.ids rfl rfl rfl rfl
  | boot => exact h.boot hs
  | down => exact h.down hok hs
  | call op p => exact h.call hs
  | act i out => exact h.act hok hs
  | follow p => exact h.follow hok hs
  | vmEnds p => exact h.vmEnds hs
  | readRecord => exact h.readRecord hok hs
  | resumeIfSuspended => exact h.resumeIfSuspended hs
  | resumed i ok => exact h.resumed hok hs
  | forgetRecord => exact h.forgetRecord hs
  | beginStop => exact h.beginStop hs
  | stillSuspended => exact h.stillSuspended hs
  | keepRecord => exact h.keepRecord hs
  | suspendIfRunning i out => exact h.suspendIfRunning hs
  | suspendAgain i out => exact h.suspendAgain hs
  | giveUp => exact h.giveUp hok hs
  | record => exact h.record hs

/-- In every run whose steps are unmixed no start resumes a pod that a client suspended last, and but while a stop
suspends, each pod that a stop suspended last is in the record. -/
theorem starts_resume_what_stops_suspended
    (h : Reach (fun w e => World.step w within e) (Unmixed within) World.init w) :
    w.wronged = false ∧
      ((∀ pass, w.stop ≠ .suspending pass) → ∀ p, w.owed p = true → p ∈ w.recorded) := by
  have hinv : w.Inv := h.invariant inv_init fun _ _ _ hI hok hs => hI.step hok hs
  refine ⟨hinv.fair, fun hstop p hp => ?_⟩
  have hl := hinv.listed p hp
  cases hw : w.stop with
  | idle => simpa [Listed, World.outcomes, World.retried, hw] using hl
  | read entry => simpa [Listed, World.outcomes, World.retried, hw] using hl
  | suspending pass => exact absurd hw (hstop pass)

/-- A pod that a stop suspends is in the record that the next start reads, and a client's beside it is left alone. -/
theorem starts_resume_what_stops_suspended_twice :
    ∃ w, (Reach (fun w e => World.step w none e) (Unmixed none) World.init w ∧ w.start = .waiting ∧ w.owed 1 = true ∧
      w.clients 2 = true) ∧ w.wronged = false ∧
      ((∀ pass, w.stop ≠ .suspending pass) → ∀ p, w.owed p = true → p ∈ w.recorded) := by
  obtain ⟨w, hreach, hw⟩ : ∃ w, Reach (fun w e => World.step w none e) (Unmixed none) World.init w ∧ w.start = .waiting ∧
      w.owed 1 = true ∧ w.clients 2 = true :=
    exists_follow [.boot, .readRecord, .call .create 1, .act 0 .done, .call .create 2, .act 0 .done,
      .call .suspend 2, .act 0 .done,
        .beginStop, .stillSuspended, .keepRecord, .suspendIfRunning 0 (.busy true), .follow 1,
          .suspendAgain 0 .done, .record,
        .down, .boot] (by decide +kernel)
  exact ⟨w, ⟨hreach, hw⟩, starts_resume_what_stops_suspended hreach⟩

/-- The start resumes the pod, a client suspends it while the record still names it, feosd ends, and the next start
resumes it. And a suspend of a stop that times out and goes through after all is of a pod that no record names. -/
theorem client_suspend_undone_and_late_suspend_lost :
    (∃ w, Reach (fun w e => World.step w none e) (fun _ _ => True) World.init w ∧ w.wronged = true) ∧
      ∃ w, Reach (fun w e => World.step w none e) (fun _ _ => True) World.init w ∧ w.start = .waiting ∧
        w.owed 1 = true ∧ w.recorded = [] := by
  constructor
  · exact exists_follow [.boot, .readRecord, .call .create 1, .act 0 .done, .call .create 2, .act 0 .done, .beginStop,
      .stillSuspended, .keepRecord, .suspendIfRunning 0 .done, .suspendIfRunning 0 .done, .record, .record, .down, .boot,
      .readRecord, .resumeIfSuspended, .resumed 0 true, .call .suspend 2, .act 0 .done, .down, .boot, .readRecord,
      .resumeIfSuspended, .resumed 0 true] (by decide +kernel)
  · exact exists_follow [.boot, .readRecord, .call .create 1, .act 0 .done, .beginStop, .stillSuspended, .keepRecord,
      .suspendIfRunning 0 (.failed true), .record, .down, .boot, .follow 1] (by decide +kernel)

end FeOS.PodStop
