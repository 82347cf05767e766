import FeOS.Sanity.HoldSteps

/-! A release at the ingress undoes no later hold, where a call with a release is given up only when the
release cannot commit any more. -/

namespace FeOS.Ingress

open World Function List

variable {w w' : World} {id : ID} {r c : ℕ}

/-! A call is sent -/

variable {hold release renew : List ID} {call : Call} {now : ℤ} {st : HoldState}

theorem of_todo_hold : .hold id ∈ (Call.of hold release).todo ↔ id ∈ hold := by
  simp [Call.of]

theorem of_release : (Call.of hold release).Has (.release id) ↔ id ∈ release := by
  simp [Call.Has, Call.of]

theorem send_calls_of_ne (h : c ≠ w.nextCall) : (w.send call).calls c = w.calls c := update_of_ne h _ _

theorem send_calls_self (w : World) (call : Call) : (w.send call).calls w.nextCall = call := update_self _ _ _

theorem send_cases (w : World) (call : Call) (c : ℕ) :
    (c = w.nextCall ∧ (w.send call).calls c = call) ∨ (w.send call).calls c = w.calls c := by
  by_cases heq : c = w.nextCall
  · exact .inl ⟨heq, heq ▸ send_calls_self w call⟩
  · exact .inr (send_calls_of_ne heq)

theorem pending_send (hl : Line w) : (w.send (.of hold release)).Pending id ↔ w.Pending id ∨ id ∈ release := by
  constructor
  · rintro ⟨c, hc⟩
    rcases send_cases w (.of hold release) c with ⟨-, heq⟩ | heq <;> rw [heq] at hc
    · exact .inr (of_release.1 hc)
    · exact .inl ⟨c, hc⟩
  · rintro (⟨c, hc⟩ | hid)
    · have hne : c ≠ w.nextCall := by
        rintro rfl
        rw [hl.fresh _ le_rfl] at hc
        rcases hc with hc | hc <;> cases hc
      exact ⟨c, by rwa [send_calls_of_ne hne]⟩
    · exact ⟨w.nextCall, by rw [send_calls_self]; exact of_release.2 hid⟩

theorem Front.send (h : Front w) (call : Call) : Front (w.send call) := by
  refine ⟨h.keys, h.active, h.quiet, fun r id c hc => ?_, fun id c hc => ?_,
    fun c hc => h.unborn c (Nat.le_of_succ_le hc)⟩
  · obtain ⟨hlt, hhold⟩ := h.flight r id c hc
    exact ⟨Nat.lt_succ_of_lt hlt, by rwa [send_calls_of_ne hlt.ne]⟩
  · obtain ⟨hlt, hhold, hnone⟩ := h.admitting id c hc
    exact ⟨Nat.lt_succ_of_lt hlt, by rwa [send_calls_of_ne hlt.ne], hnone⟩

theorem Line.send_fresh (h : Line w) (hc : w.nextCall + 1 ≤ c) : (w.send call).calls c = {} := by
  rw [send_calls_of_ne (by omega)]
  exact h.fresh c (Nat.le_of_succ_le hc)

theorem Line.send_asked (h : Line w)
    (hc : .hold id ∈ ((w.send (.of hold release)).calls c).todo ∨ id ∈ ((w.send (.of hold release)).calls c).held) :
    id ∈ ((w.send (.of hold release)).calls c).hold := by
  rcases send_cases w (.of hold release) c with ⟨-, heq⟩ | heq <;> rw [heq] at hc ⊢
  · exact of_todo_hold.1 (hc.resolve_right nofun)
  · exact h.asked c id hc

theorem Line.send_loose (h : Line w) (hc : ((w.send (.of hold release)).calls c).failed = false) :
    ((w.send (.of hold release)).calls c).loose = [] := by
  rcases send_cases w (.of hold release) c with ⟨-, heq⟩ | heq <;> rw [heq] at hc ⊢
  · rfl
  · exact h.loose c hc

/-- What is claimed once a call is sent was so before, and is nothing that the call releases. -/
theorem Claimed.before_send (pass : Option Pass) (h : Inv w)
    (hx : Claimed { w.send (.of hold release) with pass := pass } id) (hrel : ∀ id ∈ release, (w.inst id).releasing = true)
    (hpass : ∀ ps c, pass = some ps → ps.cur = some c → c = w.nextCall ∨ w.pass = some ps ∧ release = []) :
    Claimed w id ∧ id ∉ release := by
  have hflight : ∀ {r c}, (w.reqs r).flight = some (id, c) → id ∉ release :=
    fun hr hmem => (h.front.quiet id (hrel id hmem)).2.2 _ _ hr
  cases hx with
  | valid hv => exact ⟨.valid hv, fun hmem => hv (h.front.quiet id (hrel id hmem)).1⟩
  | counted hc =>
    obtain ⟨hc, hmem⟩ := Bool.and_eq_true_iff.1 hc
    exact ⟨.counted hc, of_decide_eq_false ((Bool.not_eq_true' _).mp hmem)⟩
  | admitted r c sent hr hheld =>
    have hr' : (w.reqs r).flight = some (id, c) := congrArg Req.flight hr
    rw [send_calls_of_ne (h.front.flight r id c hr').1.ne] at hheld
    exact ⟨.admitted r c sent hr hheld, hflight hr'⟩
  | answered r c hr => exact ⟨.answered r c hr, hflight (congrArg Req.flight hr)⟩
  | shared r c hr hf => exact ⟨.shared r c hr hf, hflight (congrArg Req.flight hr)⟩
  | renewed ps c hps hc hheld =>
    rcases hpass ps c hps hc with rfl | ⟨hps', rfl⟩
    · rw [send_calls_self] at hheld
      cases hheld
    · rw [send_calls_of_ne (h.line.cur ps c hps' hc).ne] at hheld
      exact ⟨.renewed ps c hps' hc hheld, nofun⟩

theorem Inv.sendAdmit (h : Inv w) (id : ID) : Inv (w.send (.of [id] [])) := by
  have hcalls : ∀ ps c, w.pass = some ps → ps.cur = some c → (w.send (.of [id] [])).calls c = w.calls c :=
    fun ps c hps hc => send_calls_of_ne (h.line.cur ps c hps hc).ne
  refine ⟨⟨fun c => h.line.send_fresh, fun ps c hps hc => Nat.lt_succ_of_lt (h.line.cur ps c hps hc), fun c x hx => ?_,
    fun ps c x hps hc hx => h.line.sent ps c x hps hc (hcalls ps c hps hc ▸ hx), h.line.unsent, h.line.renews,
    fun ps c x hps hc hx => h.line.renewing ps c x hps hc (hcalls ps c hps hc ▸ hx), fun x hx => ?_,
    fun ps c x hps hc hx => h.line.apart ps c x hps hc (hcalls ps c hps hc ▸ hx), h.line.nodup,
    fun c x => h.line.send_asked, fun c => h.line.send_loose, h.line.lease⟩, h.front.send _, fun x hx => ?_⟩
  · rcases send_cases w (.of [id] []) c with ⟨-, heq⟩ | heq <;> rw [heq] at hx ⊢
    · cases of_release.1 hx
    · exact h.line.pend c x hx
  · obtain ⟨hkey, ps, hps, hmem⟩ := h.line.releasing x hx
    refine ⟨hkey, ps, hps, hmem.imp_right ?_⟩
    rintro ⟨c, hc, hmem⟩
    exact ⟨c, hc, by rwa [hcalls ps c hps hc]⟩
  · obtain ⟨hclaimed, _⟩ := Claimed.before_send w.pass h hx nofun fun _ _ hps _ => .inr ⟨hps, rfl⟩
    obtain ⟨hidle, hholds⟩ := h.sure x hclaimed
    exact ⟨fun hp => ((pending_send h.line).1 hp).elim hidle nofun, hholds⟩

theorem Inv.acquire (h : Inv w) (hs : w.acquire r = some w') : Inv w' := by
  revert hs
  fun_cases World.acquire w r <;> rintro ⟨⟩
  rename_i id hr _
  have hof : (w.reqs r).of = some id := by rw [hr]; rfl
  have hserve := h.goTo (q := .serving id) hof rfl rfl
  split_ifs with hvalid hfree hrel
  · refine hserve.2 (.valid fun hnone => ?_)
    simp [World.valid, hnone] at hvalid
  · exact hserve.1
  · exact (h.goTo (q := .waitRelease id) hof rfl rfl).1
  · split
    · rename_i flight hflight
      obtain ⟨hlt, hhold, hnone⟩ := h.front.admitting id flight hflight
      refine (h.goOn (q := .waitFlight id flight) hof rfl (fun hr => absurd hr hrel) (fun c hc => ?_) ⟨nofun, nofun,
        fun c hc => ?_⟩).1
      · cases hc
        exact ⟨hlt, hhold⟩
      · cases hc
        rw [hnone]
        exact nofun
    · -- the call is sent first, and the request is then its own
      rename_i hnone
      have hsent := h.sendAdmit id
      have hself : (w.send (.of [id] [])).calls w.nextCall = .of [id] [] := send_calls_self w _
      have ht : Turned (w.send (.of [id] [])) _ r (.admits id w.nextCall w.now) id
          { w.inst id with admitting := some w.nextCall } :=
        turned_set (fun id' hid => ⟨(Option.some.inj hid).symm, h.front.active r id hof⟩) (fun x hx _ => hx) rfl
      refine ht.inv hsent (ht.front_of_flights hsent.front rfl ?_ ?_ ?_ hsent.front.keys) rfl fun hx => ?_
      · exact fun hr => absurd hr hrel
      · rintro id' c ⟨⟩
        exact ⟨Nat.lt_succ_self _, by rw [hself]; rfl⟩
      · rintro c ⟨⟩
        exact ⟨Nat.lt_succ_self _, by rw [hself]; rfl, h.front.unborn _ le_rfl⟩
      · cases hx with
        | counted hc hn => exact absurd (hn.symm.trans hc) nofun
        | valid hv => exact .valid hv
        | admitted c sent hq hheld =>
          cases hq
          rw [hself] at hheld
          cases hheld
        | answered c hq => cases hq
        | shared c hq => cases hq

/-! The control plane -/

structure Call.Goes (old call : Call) : Prop where
  hold : call.hold = old.hold
  release : call.release = old.release
  ops : ∀ op, call.Has op → old.Has op
  todo : ∀ op ∈ call.todo, op ∈ old.todo
  loose : call.failed = false → call.loose = []

theorem Call.goes_todo {old : Call} {op : Op} {rest : List Op} {held : List ID} {refused : List (ID × Refusal)}
    (h : old.todo = op :: rest) (hloose : old.failed = false → old.loose = []) :
    old.Goes { old with todo := rest, held := held, refused := refused } := by
  have hrest : ∀ op ∈ rest, op ∈ old.todo := fun op hop => h ▸ mem_cons_of_mem _ hop
  exact ⟨rfl, rfl, fun op => Or.imp_left (hrest op), hrest, hloose⟩

theorem Call.goes_loose {old : Call} {op : Op} {rest : List Op} (h : old.loose = op :: rest)
    (hloose : old.failed = false → old.loose = []) : old.Goes { old with loose := rest } := by
  refine ⟨rfl, rfl, fun op => Or.imp_right fun hop => h ▸ mem_cons_of_mem _ hop, fun _ hop => hop, fun hf => ?_⟩
  simp [hloose hf] at h

structure Served (w w' : World) (c : ℕ) (call : Call) : Prop where
  inst : w'.inst = w.inst
  keys : w'.keys = w.keys
  reqs : w'.reqs = w.reqs
  pass : w'.pass = w.pass
  flights : w'.flights = w.flights
  nextCall : w'.nextCall = w.nextCall
  dbNow : w'.dbNow = w.dbNow
  counted : w'.counted = w.counted
  calls : w'.calls = update w.calls c call
  goes : (w.calls c).Goes call
  fresh : w.nextCall ≤ c → call = {}
  /-- a hold goes only by a release or when its lease has ended -/
  holds : ∀ id, w'.holds id = none → w.holds id ≠ none → w.Pending id ∨ w.lease id < w.dbNow
  lease : ∀ id, w'.lease id < w.dbNow ∨ w'.lease id = w.lease id ∨ w'.holds id ≠ none
  leased : ∀ id u, w'.holds id = some u → w'.lease id = u
  held : ∀ id ∈ call.held, id ∈ (w.calls c).held ∨ (.hold id ∈ (w.calls c).todo ∧ w'.holds id ≠ none)

namespace Served
variable (hs : Served w w' c call)
include hs

theorem asks (x : ℕ) : (w'.calls x).hold = (w.calls x).hold ∧ (w'.calls x).release = (w.calls x).release := by
  rw [hs.calls, update_apply]
  split_ifs with hx
  · exact hx ▸ ⟨hs.goes.hold, hs.goes.release⟩
  · exact ⟨rfl, rfl⟩

theorem ops_sub {x : ℕ} {op : Op} (h : (w'.calls x).Has op) : (w.calls x).Has op := by
  rw [hs.calls, update_apply] at h
  split_ifs at h with hx
  · rw [hx]
    exact hs.goes.ops op h
  · exact h

theorem safe (h : Safe w id) : Safe w' id := by
  refine ⟨fun ⟨x, hx⟩ => h.idle ⟨x, hs.ops_sub hx⟩, ?_⟩
  unfold World.Holds
  rw [hs.dbNow]
  by_cases hnone : w'.holds id = none
  · right
    have hended : w.lease id < w.dbNow := by
      by_cases hold : w.holds id = none
      · exact h.holds.resolve_left (fun hne => hne hold)
      · exact (hs.holds id hnone hold).resolve_left h.idle
    rcases hs.lease id with hl | hl | hl
    · exact hl
    · rwa [hl]
    · exact absurd hnone hl
  · exact .inl hnone

theorem line (h : Line w) : Line w' := by
  have hserved := hs
  cases w'
  obtain ⟨rfl, rfl, rfl, rfl, rfl, rfl, rfl, rfl, rfl, -⟩ := hserved
  refine ⟨fun x hx => ?_, h.cur, fun x id hx => ?_, ?_, h.unsent, h.renews, ?_, fun id hid => ?_, ?_, h.nodup,
    fun x id hx => ?_, fun x hx => ?_, hs.leased⟩
  · dsimp only
    rw [update_apply]
    split_ifs with heq
    · exact hs.fresh (heq ▸ hx)
    · exact h.fresh x hx
  · rw [(hs.asks x).2]
    exact h.pend x id (hs.ops_sub hx)
  · exact fun ps x id hps hx hid => h.sent ps x id hps hx ((hs.asks x).2 ▸ hid)
  · exact fun ps x id hps hx hid => h.renewing ps x id hps hx ((hs.asks x).1 ▸ hid)
  · obtain ⟨hkey, ps, hps, hmem⟩ := h.releasing id hid
    refine ⟨hkey, ps, hps, hmem.imp_right ?_⟩
    rintro ⟨x, hx, hmem⟩
    exact ⟨x, hx, (hs.asks x).2.symm ▸ hmem⟩
  · exact fun ps x id hps hx hid => h.apart ps x id hps hx ((hs.asks x).2 ▸ hid)
  · rw [(hs.asks x).1]
    dsimp only at hx
    rw [update_apply] at hx
    split_ifs at hx with heq
    · subst heq
      rcases hx with hx | hx
      · exact h.asked x id (.inl (hs.goes.todo _ hx))
      · exact h.asked x id ((hs.held id hx).symm.imp_left And.left)
    · exact h.asked x id hx
  · dsimp only at hx ⊢
    rw [update_apply] at hx ⊢
    split_ifs at hx ⊢
    · exact hs.goes.loose hx
    · exact h.loose x hx

theorem front (h : Front w) : Front w' := by
  have hserved := hs
  cases w'
  obtain ⟨rfl, rfl, rfl, rfl, rfl, rfl, rfl, rfl, rfl, -⟩ := hserved
  exact
    { h with
      flight := fun r id x hx => (hs.asks x).1.symm ▸ h.flight r id x hx
      admitting := fun id x hx => (hs.asks x).1.symm ▸ h.admitting id x hx }

theorem inv (h : Inv w) : Inv w' := by
  refine ⟨hs.line h.line, hs.front h.front, fun id hid => ?_⟩
  have hheld : ∀ x, id ∈ (w'.calls x).held → id ∈ (w.calls x).held ∨
      (x = c ∧ .hold id ∈ (w.calls c).todo ∧ w'.holds id ≠ none) := by
    intro x hx
    rw [hs.calls, update_apply] at hx
    split_ifs at hx with heq
    · rw [heq]
      exact (hs.held id hx).imp_right fun hh => ⟨rfl, hh⟩
    · exact .inl hx
  cases hid with
  | valid hv => exact hs.safe (h.sure id (.valid (hs.inst ▸ hv)))
  | counted hc => exact hs.safe (h.sure id (.counted (hs.counted ▸ hc)))
  | answered r x hr => exact hs.safe (h.sure id (.answered r x (hs.reqs ▸ hr)))
  | shared r x hr hf => exact hs.safe (h.sure id (.shared r x (hs.reqs ▸ hr) (hs.flights ▸ hf)))
  | admitted r x sent hr hx =>
    rw [hs.reqs] at hr
    rcases hheld x hx with hx | ⟨rfl, _, hholds⟩
    · exact hs.safe (h.sure id (.admitted r x sent hr hx))
    · refine ⟨fun ⟨y, hy⟩ => ?_, .inl hholds⟩
      have hrel := h.line.releasing_of_pending ⟨y, hs.ops_sub hy⟩
      exact (h.front.quiet id hrel).2.2 r x (by rw [hr]; rfl)
  | renewed ps x hps hc hx =>
    rw [hs.pass] at hps
    rcases hheld x hx with hx | ⟨rfl, htodo, hholds⟩
    · exact hs.safe (h.sure id (.renewed ps x hps hc hx))
    · refine ⟨fun ⟨y, hy⟩ => ?_, .inl hholds⟩
      have hrel := h.line.releasing_of_pending ⟨y, hs.ops_sub hy⟩
      simp [h.line.renewing ps x id hps hc (h.line.asked x id (.inl htodo))] at hrel

end Served

theorem Line.lt_of_op (h : Line w) {op : Op} (hop : (w.calls c).Has op) : c < w.nextCall := by
  by_contra hge
  rw [h.fresh c (not_lt.1 hge)] at hop
  rcases hop with hop | hop <;> cases hop

namespace Inv
variable (h : Inv w)
include h

theorem setCall {op : Op} (hop : (w.calls c).Has op) (hg : (w.calls c).Goes call)
    (hheld : call.held = (w.calls c).held) :
    Inv (w.setCall c call) := by
  have hs : Served w (w.setCall c call) c call :=
    ⟨rfl, rfl, rfl, rfl, rfl, rfl, rfl, rfl, rfl, hg, fun hge => absurd (h.line.lt_of_op hop) (not_lt.2 hge),
      fun id hnone hne => absurd hnone hne, fun id => .inr (.inl rfl), h.line.lease, fun id hid => .inl (hheld ▸ hid)⟩
  exact hs.inv h

theorem admitHold (hop : (w.calls c).Has (.hold id)) (hg : (w.calls c).Goes call)
    (hheld : ∀ x ∈ call.held, x ∈ (w.calls c).held ∨ (x = id ∧ .hold id ∈ (w.calls c).todo)) :
    Inv ((w.admitHold id).setCall c call) := by
  have hholds : ∀ x, ((w.admitHold id).setCall c call).holds x = if x = id then some (w.dbNow + holdLease) else w.holds x :=
    fun x => update_apply _ _ _ _
  have hlease : ∀ x, ((w.admitHold id).setCall c call).lease x = if x = id then w.dbNow + holdLease else w.lease x :=
    fun x => update_apply _ _ _ _
  have hs : Served w ((w.admitHold id).setCall c call) c call := by
    refine ⟨rfl, rfl, rfl, rfl, rfl, rfl, rfl, rfl, rfl, hg, fun hge => absurd (h.line.lt_of_op hop) (not_lt.2 hge),
      fun x hnone hne => ?_, fun x => ?_, fun x u hu => ?_, fun x hx => ?_⟩
    · rw [hholds] at hnone
      split_ifs at hnone
      exact absurd hnone hne
    · rw [hlease, hholds]
      split_ifs
      · exact .inr (.inr nofun)
      · exact .inr (.inl rfl)
    · rw [hholds] at hu
      rw [hlease]
      split_ifs at hu ⊢
      · exact Option.some.inj hu
      · exact h.line.lease x u hu
    · refine (hheld x hx).imp_right ?_
      rintro ⟨rfl, hmem⟩
      refine ⟨hmem, ?_⟩
      rw [hholds, if_pos rfl]
      exact nofun
  exact hs.inv h

theorem releaseHold (hgone : w.Pending id ∨ w.lease id < w.dbNow) (hfresh : w.nextCall ≤ c → call = {})
    (hg : (w.calls c).Goes call) (hheld : call.held = (w.calls c).held) : Inv ((w.releaseHold id).setCall c call) := by
  have hholds : ∀ x, ((w.releaseHold id).setCall c call).holds x = if x = id then none else w.holds x :=
    fun x => update_apply _ _ _ _
  have hs : Served w ((w.releaseHold id).setCall c call) c call := by
    refine ⟨rfl, rfl, rfl, rfl, rfl, rfl, rfl, rfl, rfl, hg, hfresh, fun x hnone hne => ?_, fun x => .inr (.inl rfl),
      fun x u hu => ?_,
      fun x hx => .inl (hheld ▸ hx)⟩
    · rw [hholds] at hnone
      split_ifs at hnone with heq
      · rwa [heq]
      · exact absurd hnone hne
    · rw [hholds] at hu
      split_ifs at hu
      exact h.line.lease x u hu
  exact hs.inv h

theorem commitRelease (hop : (w.calls c).Has (.release id)) (hg : (w.calls c).Goes call)
    (hheld : call.held = (w.calls c).held) : Inv ((w.releaseHold id).setCall c call) :=
  h.releaseHold (.inl ⟨c, hop⟩) (fun hge => absurd (h.line.lt_of_op hop) (not_lt.2 hge)) hg hheld

theorem serve (hs : w.serve c = some w') : Inv w' := by
  have hloose := h.line.loose c
  revert hs
  fun_cases World.serve w c <;> rintro ⟨⟩
  case case2 id rest htodo =>
    have hop : .hold id ∈ (w.calls c).todo := htodo ▸ mem_cons_self
    split
    · exact h.setCall (.inl hop) (Call.goes_todo htodo hloose) rfl
    · refine h.admitHold (.inl hop) (Call.goes_todo htodo hloose) fun x hx => ?_
      rcases mem_append.1 hx with hx | hx
      · exact .inl hx
      · exact .inr ⟨mem_singleton.1 hx, hop⟩
  case case3 id rest htodo => exact h.commitRelease (.inl (htodo ▸ mem_cons_self)) (Call.goes_todo htodo hloose) rfl

theorem giveUp {inFlight : Bool} (hs : w.giveUp c inFlight = some w') : Inv w' := by
  revert hs
  fun_cases World.giveUp w c inFlight <;> rintro ⟨⟩
  rename_i op rest htodo
  have hop : op ∈ (w.calls c).todo := htodo ▸ mem_cons_self
  refine h.setCall (.inl hop) ⟨rfl, rfl, fun x hx => ?_, nofun, nofun⟩ rfl
  rcases hx with hx | hx
  · cases hx
  · split_ifs at hx
    · rcases mem_cons.1 hx with rfl | hx
      · exact .inl hop
      · exact .inr hx
    · exact .inr hx

theorem late (hs : w.late c = some w') : Inv w' := by
  have hloose := h.line.loose c
  revert hs
  fun_cases World.late w c <;> rintro ⟨⟩
  case case2 id rest hl =>
    have hop : .hold id ∈ (w.calls c).loose := hl ▸ mem_cons_self
    split_ifs
    · exact h.setCall (.inr hop) (Call.goes_loose hl hloose) rfl
    · exact h.admitHold (.inr hop) (Call.goes_loose hl hloose) fun x hx => .inl hx
  case case3 id rest hl => exact h.commitRelease (.inr (hl ▸ mem_cons_self)) (Call.goes_loose hl hloose) rfl

theorem lost (hs : w.lost c = some w') : Inv w' := by
  revert hs
  fun_cases World.lost w c <;> rintro ⟨⟩
  rename_i op rest hl
  exact h.setCall (.inr (hl ▸ mem_cons_self)) (Call.goes_loose hl (h.line.loose c)) rfl

theorem expire (hs : w.expire id = some w') : Inv w' := by
  unfold World.expire at hs
  split_ifs at hs with hended
  cases hs
  obtain ⟨u, hu, hlt⟩ := Option.any_eq_true _ _ |>.1 hended
  have hlease : w.lease id < w.dbNow := (h.line.lease id u hu).symm ▸ of_decide_eq_true hlt
  have hset : w.releaseHold id = (w.releaseHold id).setCall 0 (w.calls 0) := by
    simp [World.setCall, World.releaseHold]
  rw [hset]
  exact h.releaseHold (.inr hlease) (h.line.fresh 0) ⟨rfl, rfl, fun _ h => h, fun _ h => h, h.line.loose 0⟩ rfl

end Inv

/-! The pass -/

theorem turn_release (h : turnOf now st = .release) :
    st.admitting = none ∧ st.releasing = false ∧ st.inflight = [] := by
  unfold turnOf at h
  split_ifs at h with h1 h2 h3
  simp only [Bool.or_eq_true, not_or, Bool.not_eq_true, Option.isSome_eq_false_iff, Option.isNone_iff_eq_none] at h1
  simp only [Bool.or_eq_true, not_or, Bool.not_eq_true, Bool.not_eq_false', List.isEmpty_iff] at h2
  exact ⟨h1.1, h1.2, h2.1⟩

theorem turn_forget (h : turnOf now st = .forget) : st.inflight = [] := by
  unfold turnOf at h
  split_ifs at h with h1 h2 h3
  simp only [Bool.or_eq_true, not_or, Bool.not_eq_true, Bool.not_eq_false', List.isEmpty_iff] at h2
  exact h2.1

theorem mem_sortedIDs {ids : List ID} : id ∈ sortedIDs ids ↔ id ∈ ids := (perm_insertionSort (· ≤ ·) ids).mem_iff

structure Eases (st st' : HoldState) : Prop where
  inflight : ∀ r ∈ st.inflight, r ∈ st'.inflight
  admitting : ∀ c, st'.admitting = some c → st.admitting = some c
  valid : st'.validUntil ≠ none → st.validUntil ≠ none

theorem Eases.refl (st : HoldState) : Eases st st := ⟨fun _ h => h, fun _ h => h, fun h => h⟩

theorem Eases.forget (h : st.inflight = []) : Eases st {} :=
  ⟨fun _ hr => absurd (h ▸ hr) nofun, nofun, fun hv => absurd rfl hv⟩

theorem turn_eases (now : ℤ) (st : HoldState) : Eases st (HoldState.turn st (turnOf now st)) := by
  cases h : turnOf now st with
  | skip => exact .refl st
  | renew => exact .refl st
  | release => exact ⟨fun _ h => h, fun _ h => h, fun hv => absurd rfl hv⟩
  | forget => exact .forget (turn_forget h)

theorem turn_releasing (hst : st.releasing = false) (h : (HoldState.turn st (turnOf now st)).releasing = true) :
    turnOf now st = .release := by
  cases ht : turnOf now st with
  | release => rfl
  | skip =>
    rw [ht] at h
    exact absurd (hst.symm.trans h) nofun
  | renew =>
    rw [ht] at h
    exact absurd (hst.symm.trans h) nofun
  | forget =>
    rw [ht] at h
    cases h

theorem Inv.between {inst : ID → HoldState} {keys : List ID} (h : Inv w)
    (hidle : ∀ c id, ¬ ((w.calls c).Has (.release id))) (hinst : ∀ id, Eases (w.inst id) (inst id))
    (hkeys : keys.Nodup) (hnodup : release.Nodup) (hunsent : ∀ id ∈ release, (inst id).releasing = true)
    (hrenews : ∀ id ∈ renew, (inst id).releasing = false)
    (hreleasing : ∀ id, (inst id).releasing = true → id ∈ keys ∧ id ∈ release)
    (hquiet : ∀ id, (inst id).releasing = true →
      (inst id).validUntil = none ∧ (inst id).admitting = none ∧ ∀ r c, (w.reqs r).flight ≠ some (id, c)) :
    Inv { w with inst := inst, keys := keys, pass := some ⟨now, renew, release, none⟩ } := by
  have hcur : ∀ {ps c} {P : Prop}, some (⟨now, renew, release, none⟩ : Pass) = some ps → ps.cur = some c → P := by
    rintro ps c P ⟨⟩ ⟨⟩
  refine ⟨⟨h.line.fresh, fun ps c => hcur, fun c id hc => absurd hc (hidle c id), fun ps c id => hcur, ?_, ?_,
    fun ps c id => hcur, fun id hid => ⟨(hreleasing id hid).1, _, rfl, .inl (hreleasing id hid).2⟩, fun ps c id => hcur,
    ?_, h.line.asked, h.line.loose, h.line.lease⟩, ⟨hkeys, fun r id hr => (hinst id).inflight r (h.front.active r id hr),
    hquiet, h.front.flight, fun id c hc => h.front.admitting id c ((hinst id).admitting c hc), h.front.unborn⟩,
      fun id hid => ?_⟩
  · rintro ps id ⟨⟩
    exact hunsent id
  · rintro ps id ⟨⟩
    exact hrenews id
  · rintro ps ⟨⟩
    exact hnodup
  · have hclaimed : Claimed w id := hid.before (hinst id).valid rfl rfl rfl rfl fun ps c => hcur
    exact ⟨fun ⟨c, hc⟩ => hidle c id hc, (h.sure id hclaimed).holds⟩

theorem Inv.beginPass (h : Inv w) (hs : w.beginPass = some w') : Inv w' := by
  revert hs
  fun_cases World.beginPass w <;> rintro ⟨⟩
  rename_i hpass turn
  -- nothing is being released before
  have hrel : ∀ id, (w.inst id).releasing = false := by
    intro id
    by_contra hr
    obtain ⟨_, ps, hps, _⟩ := h.line.releasing id (Bool.not_eq_false _ ▸ hr)
    simp [hpass] at hps
  have hpend : ∀ c id, ¬ ((w.calls c).Has (.release id)) := by
    intro c id hc
    obtain ⟨_, ps, hps, _⟩ := h.line.pend c id hc
    simp [hpass] at hps
  have hturned : ∀ id, (if id ∈ w.keys then HoldState.turn (w.inst id) (turn id) else w.inst id).releasing = true →
      id ∈ w.keys ∧ turn id = .release := by
    intro id hid
    split_ifs at hid with hkey
    · exact ⟨hkey, turn_releasing (hrel id) hid⟩
    · exact absurd ((hrel id).symm.trans hid) nofun
  refine h.between hpend (fun id => ?_) (h.front.keys.filter _)
    ((perm_insertionSort _ _).nodup_iff.2 (h.front.keys.filter _))
    (fun id hid => ?_) (fun id hid => ?_) (fun id hid => ?_) fun id hid => ?_
  · split_ifs
    · exact turn_eases w.now (w.inst id)
    · exact .refl _
  · obtain ⟨hkey, hturn⟩ := mem_filter.1 (mem_sortedIDs.1 hid)
    rw [if_pos hkey, of_decide_eq_true hturn]
    rfl
  · obtain ⟨hkey, hturn⟩ := mem_filter.1 (mem_sortedIDs.1 hid)
    rw [if_pos hkey, of_decide_eq_true hturn]
    exact hrel id
  · obtain ⟨hkey, hturn⟩ := hturned id hid
    exact ⟨mem_filter.2 ⟨hkey, by simp [hturn]⟩, mem_sortedIDs.2 (mem_filter.2 ⟨hkey, decide_eq_true hturn⟩)⟩
  · obtain ⟨hkey, hturn⟩ := hturned id hid
    simp only [if_pos hkey, hturn]
    refine ⟨rfl, (turn_release hturn).1, fun r c hr => ?_⟩
    have hactive := h.front.active r id (Req.of_flight hr)
    simp [(turn_release hturn).2.2] at hactive

section
variable {ps : Pass} (h : Line w) (hps : w.pass = some ps)
include h hps

theorem Line.cur_of_release (hc : (w.calls c).Has (.release id)) : ps.cur = some c := by
  obtain ⟨_, ps', hps', hcur⟩ := h.pend c id hc
  cases hps.symm.trans hps'
  exact hcur

theorem Line.not_pending (hcur : ps.cur = none) : ¬ w.Pending id := by
  rintro ⟨c, hc⟩
  exact absurd (h.cur_of_release hps hc) (hcur ▸ nofun)

theorem Line.of_releasing (hr : (w.inst id).releasing = true) :
    id ∈ w.keys ∧ (id ∈ ps.release ∨ ∃ c, ps.cur = some c ∧ id ∈ (w.calls c).release) := by
  obtain ⟨hkey, ps', hps', hmem⟩ := h.releasing id hr
  cases hps.symm.trans hps'
  exact ⟨hkey, hmem⟩

end

theorem Inv.endPass {ps : Pass} (h : Inv w) (hps : w.pass = some ps) (hcur : ps.cur = none) (hempty : ps.release = []) :
    Inv { w with pass := none } := by
  have hrel : ∀ id, (w.inst id).releasing ≠ true := by
    intro id hr
    rcases (h.line.of_releasing hps hr).2 with hmem | ⟨c, hc, _⟩
    · simp [hempty] at hmem
    · simp [hcur] at hc
  refine ⟨⟨h.line.fresh, nofun, fun c id hc => absurd ⟨c, hc⟩ (h.line.not_pending hps hcur), nofun, nofun, nofun, nofun,
    fun id hr => absurd hr (hrel id), nofun, nofun, h.line.asked, h.line.loose, h.line.lease⟩,
    ⟨h.front.keys, h.front.active, h.front.quiet, h.front.flight, h.front.admitting, h.front.unborn⟩, fun id hid => ?_⟩
  obtain ⟨hidle, hholds⟩ := h.sure id (hid.before (fun hv => hv) rfl rfl rfl rfl nofun)
  exact ⟨hidle, hholds⟩

theorem Inv.sendCall (h : Inv w) (hps : w.pass = some ⟨now, renew, release, none⟩) :
    Inv { w.send (.of (renew.take maxHoldIDs) (release.take maxHoldIDs)) with
      pass := some ⟨now, renew.drop maxHoldIDs, release.drop maxHoldIDs, some w.nextCall⟩ } := by
  have hself := send_calls_self w (.of (renew.take maxHoldIDs) (release.take maxHoldIDs))
  have hunsent : ∀ id ∈ release.take maxHoldIDs, (w.inst id).releasing = true :=
    fun id hid => h.line.unsent _ id hps (mem_of_mem_take hid)
  refine ⟨⟨fun c => h.line.send_fresh, ?_, fun c id hc => ?_, ?_, ?_, ?_, ?_, fun id hid => ?_, ?_, ?_,
    fun c id => h.line.send_asked, fun c => h.line.send_loose, h.line.lease⟩, ?_, fun id hid => ?_⟩
  · rintro ps c ⟨⟩ ⟨⟩
    exact Nat.lt_succ_self _
  · change ((w.send _).calls c).Has (.release id) at hc
    rcases send_cases w (.of (renew.take maxHoldIDs) (release.take maxHoldIDs)) c with ⟨rfl, -⟩ | heq
    · rw [hself] at hc
      exact ⟨hself.symm ▸ of_release.1 hc, _, rfl, rfl⟩
    · rw [heq] at hc
      exact absurd ⟨c, hc⟩ (h.line.not_pending hps rfl)
  · rintro ps c id ⟨⟩ ⟨⟩ hid
    rw [hself] at hid
    exact hunsent id hid
  · rintro ps id ⟨⟩ hid
    exact h.line.unsent _ id hps (mem_of_mem_drop hid)
  · rintro ps id ⟨⟩ hid
    exact h.line.renews _ id hps (mem_of_mem_drop hid)
  · rintro ps c id ⟨⟩ ⟨⟩ hid
    rw [hself] at hid
    exact h.line.renews _ id hps (mem_of_mem_take hid)
  · obtain ⟨hkey, hmem⟩ := h.line.of_releasing hps hid
    refine ⟨hkey, _, rfl, ?_⟩
    have hmem : id ∈ release := hmem.resolve_right fun ⟨c, hc, _⟩ => absurd hc nofun
    rw [← take_append_drop maxHoldIDs release] at hmem
    exact (mem_append.1 hmem).symm.imp_right fun hmem => ⟨_, rfl, hself.symm ▸ hmem⟩
  · rintro ps c id ⟨⟩ ⟨⟩ hid hmem
    rw [hself] at hid
    exact (disjoint_take_drop (h.line.nodup _ hps) le_rfl) hid hmem
  · rintro ps ⟨⟩
    exact (h.line.nodup _ hps).sublist (drop_sublist _ _)
  · have hf := h.front.send (.of (renew.take maxHoldIDs) (release.take maxHoldIDs))
    exact ⟨hf.keys, hf.active, hf.quiet, hf.flight, hf.admitting, hf.unborn⟩
  · obtain ⟨hclaimed, hmem⟩ := Claimed.before_send _ h hid hunsent (by rintro ps c ⟨⟩ ⟨⟩; exact .inl rfl)
    obtain ⟨hidle, hholds⟩ := h.sure id hclaimed
    exact ⟨fun hp => ((pending_send h.line).1 hp).elim hidle hmem, hholds⟩

theorem Inv.sendPass (h : Inv w) (hs : w.sendPass = some w') : Inv w' := by
  revert hs
  fun_cases World.sendPass w <;> rintro ⟨⟩
  case case1 now renew release hps hempty => exact h.endPass hps rfl hempty.2
  case case2 now renew release hps _ => exact h.sendCall hps

/-! The end of a pass's call -/

theorem released_cases (w : World) (sent : ℤ) (ids : List ID) (id : ID) :
    Eases (w.inst id) ((w.released sent ids).inst id) ∧ (((w.released sent ids).inst id).releasing = false ∨
      ¬ (id ∈ ids ∧ id ∈ w.keys) ∧ (w.released sent ids).inst id = w.inst id) := by
  change Eases _ (if id ∈ ids ∧ id ∈ w.keys then _ else _) ∧
    ((if id ∈ ids ∧ id ∈ w.keys then _ else _ : HoldState).releasing = false ∨
    _ ∧ (if id ∈ ids ∧ id ∈ w.keys then _ else _) = _)
  by_cases hmem : id ∈ ids ∧ id ∈ w.keys
  · simp only [if_pos hmem]
    split_ifs with hforget
    · simp only [Bool.and_eq_true, List.isEmpty_iff] at hforget
      exact ⟨.forget hforget.1.1, .inl rfl⟩
    · exact ⟨⟨fun _ h => h, fun _ h => h, fun h => h⟩, .inl rfl⟩
  · rw [if_neg hmem]
    exact ⟨.refl _, .inr ⟨hmem, rfl⟩⟩

theorem released_releasing {sent : ℤ} {ids : List ID} (h : (w.inst id).releasing = false) :
    ((w.released sent ids).inst id).releasing = false := by
  rcases (released_cases w sent ids id).2 with hr | ⟨_, heq⟩
  · exact hr
  · exact (congrArg HoldState.releasing heq).trans h

theorem Inv.passDone (h : Inv w) (hps : w.pass = some ⟨now, renew, release, some c⟩)
    (hnone : ∀ id, ¬ ((w.calls c).Has (.release id))) :
    Inv { w.released now (w.calls c).release with pass := some ⟨now, renew, release, none⟩ } := by
  have hidle : ∀ x id, ¬ ((w.calls x).Has (.release id)) := by
    intro x id hx
    cases h.line.cur_of_release hps hx
    exact hnone id hx
  have hinst := released_cases w now (w.calls c).release
  -- what is being released still was so before, and is not of this call
  have hstill : ∀ id, ((w.released now (w.calls c).release).inst id).releasing = true → (w.inst id).releasing = true ∧
      ¬ (id ∈ (w.calls c).release ∧ id ∈ w.keys) ∧ (w.released now (w.calls c).release).inst id = w.inst id := by
    intro id hid
    rcases (hinst id).2 with hr | ⟨hmem, heq⟩
    · exact absurd (hr.symm.trans hid) nofun
    · exact ⟨heq ▸ hid, hmem, heq⟩
  refine h.between hidle (fun id => (hinst id).1) (h.front.keys.filter _) ?_ (fun id hid => ?_) (fun id hid => ?_)
    (fun id hid => ?_) fun id hid => ?_
  · have hnodup := h.line.nodup _ hps
    exact hnodup
  · have hapart : id ∉ (w.calls c).release := fun hmem => h.line.apart _ c id hps rfl hmem hid
    exact (congrArg HoldState.releasing (if_neg fun hmem => hapart hmem.1)).trans (h.line.unsent _ id hps hid)
  · exact released_releasing (h.line.renews _ id hps hid)
  · obtain ⟨hrel, hmem, _⟩ := hstill id hid
    obtain ⟨hkey, hrel⟩ := h.line.of_releasing hps hrel
    have hnot : id ∉ (w.calls c).release := fun hid => hmem ⟨hid, hkey⟩
    refine ⟨mem_filter.2 ⟨hkey, by simp [hnot]⟩, ?_⟩
    rcases hrel with hrel | ⟨x, hx, hrel⟩
    · exact hrel
    · cases hx
      exact absurd hrel hnot
  · obtain ⟨hrel, _, heq⟩ := hstill id hid
    have hquiet := h.front.quiet id hrel
    exact ⟨(congrArg HoldState.validUntil heq).trans hquiet.1,
      (congrArg HoldState.admitting heq).trans hquiet.2.1, hquiet.2.2⟩

theorem renewed_cases (w : World) (sent : ℤ) (call : Call) (id : ID) :
    ∃ st, (w.renewed sent call).inst id = st ∧ st.inflight = (w.inst id).inflight ∧ st.admitting = (w.inst id).admitting ∧
      st.releasing = (w.inst id).releasing ∧ (st.validUntil ≠ none → (w.inst id).validUntil ≠ none ∨ id ∈ call.held) := by
  refine ⟨_, rfl, ?_⟩
  simp only [World.renewed]
  split_ifs with hkey hrefused hheld hheld
  · exact ⟨rfl, rfl, rfl, fun hv => absurd rfl hv⟩
  · exact ⟨rfl, rfl, rfl, fun hv => absurd rfl hv⟩
  · exact ⟨rfl, rfl, rfl, fun _ => .inr hheld⟩
  · exact ⟨rfl, rfl, rfl, .inl⟩
  · exact ⟨rfl, rfl, rfl, .inl⟩

theorem Inv.renewed (h : Inv w) (sent : ℤ) (hsafe : ∀ id ∈ call.held, Safe w id)
    (hrel : ∀ id ∈ call.held, (w.inst id).releasing = false) :
    Inv (w.renewed sent call) := by
  have hinst := renewed_cases w sent call
  have hcalmly : Calmly w (w.renewed sent call) := by
    refine ⟨rfl, rfl, rfl, rfl, rfl, le_rfl, fun id => ?_, fun _ h => h⟩
    obtain ⟨st, heq, _, _, hr, _⟩ := hinst id
    rw [heq, hr]
  refine ⟨h.line.calmly hcalmly, ⟨h.front.keys, fun r id hr => ?_, fun id hid => ?_, h.front.flight, fun id c hc => ?_,
    h.front.unborn⟩, fun id hid => ?_⟩
  · obtain ⟨st, heq, hin, _⟩ := hinst id
    rw [heq, hin]
    exact h.front.active r id hr
  · obtain ⟨st, heq, _, hadm, hr, hvalid⟩ := hinst id
    rw [heq, hr] at hid
    obtain ⟨hnone, hidle, hflight⟩ := h.front.quiet id hid
    rw [heq]
    refine ⟨?_, hadm.trans hidle, hflight⟩
    by_contra hv
    rcases hvalid hv with hv | hheld
    · exact hv hnone
    · simp [hrel id hheld] at hid
  · obtain ⟨st, heq, _, hadm, _⟩ := hinst id
    rw [heq, hadm] at hc
    exact h.front.admitting id c hc
  · by_cases hheld : id ∈ call.held
    · exact (hsafe id hheld).calmly hcalmly
    · have hclaimed : Claimed w id := by
        refine hid.before (fun hv => ?_) rfl rfl rfl rfl fun _ _ hp _ => hp
        obtain ⟨st, heq, _, _, _, hvalid⟩ := hinst id
        rw [heq] at hv
        exact (hvalid hv).resolve_right hheld
      exact (h.sure id hclaimed).calmly hcalmly

theorem Inv.passAnswered (h : Inv w) (hs : w.passAnswered = some w') : Inv w' := by
  revert hs
  fun_cases World.passAnswered w <;> rintro ⟨⟩
  rename_i now renew release c hps hdone
  have hpassed := h.passDone hps fun id hid => by
    rcases hid with hid | hid
    · simp [hdone.1] at hid
    · simp [h.line.loose c hdone.2] at hid
  refine hpassed.renewed now (fun id (hid : id ∈ (w.calls c).held) => ?_) (fun id hid => ?_)
  · obtain ⟨hidle, hholds⟩ := h.sure id (.renewed _ c hps rfl hid)
    exact ⟨hidle, hholds⟩
  · have hrel := h.line.renewing _ c id hps rfl (h.line.asked c id (.inr hid))
    exact released_releasing hrel

/-! Whole runs -/

def Op.isRelease : Op → Bool
  | .release _ => true
  | .hold _ => false

/-- A call of the pass is given up only when none of its releases can commit any more. -/
def Settled (w : World) : Event → Prop
  | .passFailed =>
    match w.pass.bind Pass.cur with
    | some c => ∀ op ∈ (w.calls c).todo ++ (w.calls c).loose, op.isRelease = false
    | none => True
  | _ => True

instance (w : World) (e : Event) : Decidable (Settled w e) := by
  unfold Settled
  split
  · split <;> infer_instance
  · infer_instance

theorem Inv.passFailed (h : Inv w) (hok : Settled w .passFailed) (hs : w.passFailed = some w') : Inv w' := by
  revert hs
  fun_cases World.passFailed w <;> rintro ⟨⟩
  rename_i now renew release c hps
  simp only [Settled, hps, Option.bind_some] at hok
  exact h.passDone hps fun id hid => absurd (hok _ (mem_append.2 hid)) nofun

theorem Inv.around (h : Inv w) (now dbNow : ℤ) (draining : Bool) (sandboxes : ID → Option Sandbox) (hle : w.dbNow ≤ dbNow) :
    Inv { w with now := now, dbNow := dbNow, draining := draining, sandboxes := sandboxes } :=
  h.calmly ⟨rfl, rfl, rfl, rfl, rfl, hle, fun _ => rfl, fun _ h => h⟩
    ⟨h.front.keys, h.front.active, h.front.quiet, h.front.flight, h.front.admitting, h.front.unborn⟩
    fun _ hid => hid.before (fun hv => hv) rfl rfl rfl rfl fun _ _ hp _ => hp

theorem Inv.step {e : Event} (h : Inv w) (hok : Settled w e) (hs : w.step e = some w') : Inv w' := by
  cases e with
  | clock now =>
    simp only [World.step] at hs
    split_ifs at hs
    cases hs
    exact h.around _ _ _ _ le_rfl
  | dbClock now =>
    simp only [World.step] at hs
    split_ifs at hs with hle
    cases hs
    exact h.around _ _ _ _ hle
  | drain | sandbox id sb =>
    cases hs
    exact h.around _ _ _ _ le_rfl
  | request r id => exact h.request hs
  | acquire r => exact h.acquire hs
  | wake r => exact h.wake hs
  | cancel r => exact h.cancel hs
  | admitted r => exact h.admitted hs
  | admitFailed r => exact h.admitFailed hs
  | landed r => exact h.landed hs
  | done r => exact h.done hs
  | beginPass => exact h.beginPass hs
  | sendPass => exact h.sendPass hs
  | passAnswered => exact h.passAnswered hs
  | passFailed => exact h.passFailed hok hs
  | serve c => exact h.serve hs
  | giveUp c inFlight => exact h.giveUp hs
  | late c => exact h.late hs
  | lost c => exact h.lost hs
  | expire id => exact h.expire hs

/-- In every run that gives up no call whose release may still commit: once a request was let through because an
admit or a renewal answered held, no release sent before is on its way, and the hold is in the database until
a newer release is sent or its lease ends. -/
theorem hold_outlives_releases (w : World) (h : Runs.Reach World.step Settled World.init w) (id : ID)
    (hc : w.counted id = true) :
    ¬ w.Pending id ∧ w.Holds id := by
  have hinv : Inv w := h.invariant Inv.init fun _ _ _ hinv hok hs => hinv.step hok hs
  obtain ⟨hidle, hholds⟩ := hinv.sure id (.counted hc)
  exact ⟨hidle, hholds⟩

/-! Runs -/

def servedOnce : List Event :=
  [.sandbox 7 ⟨true, true, false⟩, .request 0 7, .acquire 0, .serve 0, .admitted 0, .landed 0, .done 0, .clock 15,
    .beginPass, .sendPass]

theorem hold_outlives_releases_again : ∃ w, Runs.Reach World.step Settled World.init w ∧ w.counted 7 = true ∧
    w.holds 7 = some 30 ∧
    ¬ w.Pending 7 ∧ w.Holds 7 := by
  obtain ⟨w, hreach, hcounted, hholds⟩ : ∃ w, Runs.Reach World.step Settled World.init w ∧ w.counted 7 = true ∧
      w.holds 7 = some 30 :=
    Runs.exists_follow (servedOnce ++ [.request 1 7, .acquire 1, .serve 1, .passFailed, .wake 1, .acquire 1, .serve 2,
      .admitted 1, .landed 1]) (by decide +kernel)
  exact ⟨w, hreach, hcounted, hholds, hold_outlives_releases w hreach 7 hcounted⟩

/-- The release's call times out at the ingress, the next request's admit is answered, and the release commits. -/
theorem late_release_undoes_hold : ∃ w, Runs.Reach World.step (fun _ _ => True) World.init w ∧ w.counted 7 = true ∧
    ¬ w.Holds 7 := by
  obtain ⟨w, hreach, hcounted, hnone, hlease⟩ : ∃ w, Runs.Reach World.step (fun _ _ => True) World.init w ∧
      w.counted 7 = true ∧ w.holds 7 = none ∧ ¬ w.lease 7 < w.dbNow :=
    Runs.exists_follow (servedOnce ++ [.request 1 7, .acquire 1, .passFailed, .wake 1, .acquire 1, .serve 2, .admitted 1,
      .landed 1, .serve 1]) (by decide +kernel)
  exact ⟨w, hreach, hcounted, fun hholds => hholds.elim (fun hne => hne hnone) hlease⟩

end FeOS.Ingress
