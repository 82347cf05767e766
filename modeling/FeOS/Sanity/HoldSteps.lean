import FeOS.Spec.IngressHolds

/-! What holds between the ingress's states of the holds, its calls and their transactions, as long as it gives
up no call with a release that may still commit. -/

namespace FeOS.Ingress

open World Function List

variable {w w' : World} {id : ID} {r c : ℕ}

/-! Requests -/

def Req.of : Req → Option ID
  | .idle => none
  | .trying id => some id
  | .waitRelease id => some id
  | .waitFlight id _ => some id
  | .admits id _ _ => some id
  | .answered id _ _ => some id
  | .serving id => some id

def Req.flight : Req → Option (ID × ℕ)
  | .waitFlight id c => some (id, c)
  | .admits id c _ => some (id, c)
  | .answered id c _ => some (id, c)
  | _ => none

variable {q : Req} {st : HoldState}

theorem Req.of_flight (h : q.flight = some (id, c)) : q.of = some id := by
  cases q <;> simp_all [Req.flight, Req.of]

/-! Safe holds -/

structure Safe (w : World) (id : ID) : Prop where
  idle : ¬ w.Pending id
  holds : w.Holds id

inductive Claimed (w : World) (id : ID) : Prop
  | valid (h : (w.inst id).validUntil ≠ none)
  | counted (h : w.counted id = true)
  | admitted (r c : ℕ) (sent : ℤ) (h : w.reqs r = .admits id c sent) (hheld : id ∈ (w.calls c).held)
  | answered (r c : ℕ) (h : w.reqs r = .answered id c .held)
  | shared (r c : ℕ) (h : w.reqs r = .waitFlight id c) (hf : w.flights c = some .held)
  | renewed (ps : Pass) (c : ℕ) (h : w.pass = some ps) (hc : ps.cur = some c) (hheld : id ∈ (w.calls c).held)

theorem Claimed.before (hx : Claimed w' id) (hvalid : (w'.inst id).validUntil ≠ none → (w.inst id).validUntil ≠ none)
    (hcounted : w'.counted = w.counted) (hreqs : w'.reqs = w.reqs) (hflights : w'.flights = w.flights)
    (hcalls : w'.calls = w.calls)
    (hpass : ∀ ps c, w'.pass = some ps → ps.cur = some c → w.pass = some ps) : Claimed w id := by
  cases hx with
  | valid h => exact .valid (hvalid h)
  | counted h => exact .counted (hcounted ▸ h)
  | admitted r c sent h hheld => exact .admitted r c sent (hreqs ▸ h) (hcalls ▸ hheld)
  | answered r c h => exact .answered r c (hreqs ▸ h)
  | shared r c h hf => exact .shared r c (hreqs ▸ h) (hflights ▸ hf)
  | renewed ps c h hc hheld => exact .renewed ps c (hpass ps c h hc) hc (hcalls ▸ hheld)

/-! The calls and the pass -/

abbrev Call.Has (call : Call) (op : Op) : Prop := op ∈ call.todo ∨ op ∈ call.loose

/-- The releases that are on their way are those of the pass's call, and the states say so. -/
structure Line (w : World) : Prop where
  fresh : ∀ c, w.nextCall ≤ c → w.calls c = {}
  cur : ∀ ps c, w.pass = some ps → ps.cur = some c → c < w.nextCall
  pend : ∀ c id, (w.calls c).Has (.release id) →
    id ∈ (w.calls c).release ∧ ∃ ps, w.pass = some ps ∧ ps.cur = some c
  sent : ∀ ps c id, w.pass = some ps → ps.cur = some c → id ∈ (w.calls c).release → (w.inst id).releasing = true
  unsent : ∀ ps id, w.pass = some ps → id ∈ ps.release → (w.inst id).releasing = true
  renews : ∀ ps id, w.pass = some ps → id ∈ ps.renew → (w.inst id).releasing = false
  renewing : ∀ ps c id, w.pass = some ps → ps.cur = some c → id ∈ (w.calls c).hold → (w.inst id).releasing = false
  releasing : ∀ id, (w.inst id).releasing = true →
    id ∈ w.keys ∧ ∃ ps, w.pass = some ps ∧ (id ∈ ps.release ∨ ∃ c, ps.cur = some c ∧ id ∈ (w.calls c).release)
  apart : ∀ ps c id, w.pass = some ps → ps.cur = some c → id ∈ (w.calls c).release → id ∉ ps.release
  nodup : ∀ ps, w.pass = some ps → ps.release.Nodup
  asked : ∀ c id, .hold id ∈ (w.calls c).todo ∨ id ∈ (w.calls c).held → id ∈ (w.calls c).hold
  loose : ∀ c, (w.calls c).failed = false → (w.calls c).loose = []
  lease : ∀ id u, w.holds id = some u → w.lease id = u

structure Front (w : World) : Prop where
  keys : w.keys.Nodup
  active : ∀ r id, (w.reqs r).of = some id → r ∈ (w.inst id).inflight
  quiet : ∀ id, (w.inst id).releasing = true →
    (w.inst id).validUntil = none ∧ (w.inst id).admitting = none ∧ ∀ r c, (w.reqs r).flight ≠ some (id, c)
  flight : ∀ r id c, (w.reqs r).flight = some (id, c) → c < w.nextCall ∧ (w.calls c).hold = [id]
  admitting : ∀ id c, (w.inst id).admitting = some c → c < w.nextCall ∧ (w.calls c).hold = [id] ∧ w.flights c = none
  unborn : ∀ c, w.nextCall ≤ c → w.flights c = none

structure Inv (w : World) : Prop where
  line : Line w
  front : Front w
  sure : ∀ id, Claimed w id → Safe w id

theorem Inv.init : Inv World.init := by
  refine ⟨⟨fun _ _ => rfl, nofun, ?_, nofun, nofun, nofun, nofun, nofun, nofun, nofun, ?_, fun _ _ => rfl, nofun⟩,
    ⟨.nil, nofun, nofun, nofun, nofun, fun _ _ => rfl⟩, ?_⟩
  · rintro c id (h | h) <;> cases h
  · rintro c id (h | h) <;> cases h
  · intro id h
    cases h with
    | valid h => exact absurd rfl h
    | counted h => cases h
    | admitted r c sent h hheld => cases h
    | answered r c h => cases h
    | shared r c h hf => cases h
    | renewed ps c h hc hheld => cases h

theorem Line.releasing_of_pending (h : Line w) (hp : w.Pending id) : (w.inst id).releasing = true := by
  obtain ⟨c, hc⟩ := hp
  obtain ⟨hmem, ps, hps, hcur⟩ := h.pend c id hc
  exact h.sent ps c id hps hcur hmem

/-! What the requests change -/

structure Calmly (w w' : World) : Prop where
  calls : w'.calls = w.calls
  nextCall : w'.nextCall = w.nextCall
  pass : w'.pass = w.pass
  holds : w'.holds = w.holds
  lease : w'.lease = w.lease
  dbNow : w.dbNow ≤ w'.dbNow
  releasing : ∀ id, (w'.inst id).releasing = (w.inst id).releasing
  keys : ∀ id, id ∈ w.keys → id ∈ w'.keys

theorem Calmly.pending (h : Calmly w w') : w'.Pending id ↔ w.Pending id := by
  unfold World.Pending
  rw [h.calls]

theorem Safe.calmly (hs : Safe w id) (h : Calmly w w') : Safe w' id := by
  refine ⟨fun hp => hs.idle (h.pending.1 hp), ?_⟩
  unfold World.Holds
  rw [h.holds, h.lease]
  exact hs.holds.imp_right (lt_of_lt_of_le · h.dbNow)

theorem Line.calmly (hl : Line w) (h : Calmly w w') : Line w' := by
  cases w'
  obtain ⟨rfl, rfl, rfl, rfl, rfl, _, hrel, hkeys⟩ := h
  exact
    { hl with
      sent := fun ps c id hps hc hid => (hrel id).trans (hl.sent ps c id hps hc hid)
      unsent := fun ps id hps hid => (hrel id).trans (hl.unsent ps id hps hid)
      renews := fun ps id hps hid => (hrel id).trans (hl.renews ps id hps hid)
      renewing := fun ps c id hps hc hid => (hrel id).trans (hl.renewing ps c id hps hc hid)
      releasing := fun id hid => (hl.releasing id ((hrel id).symm.trans hid)).imp_left (hkeys id) }

theorem Inv.calmly (hi : Inv w) (h : Calmly w w') (hf : Front w') (hc : ∀ id, Claimed w' id → Claimed w id) : Inv w' :=
  ⟨hi.line.calmly h, hf, fun id hid => (hi.sure id (hc id hid)).calmly h⟩

/-! One request and the state of its instance -/

structure Turned (w w' : World) (r : ℕ) (q : Req) (id : ID) (st : HoldState) : Prop where
  reqs : w'.reqs = update w.reqs r q
  inst : w'.inst = update w.inst id st
  calls : w'.calls = w.calls
  nextCall : w'.nextCall = w.nextCall
  pass : w'.pass = w.pass
  holds : w'.holds = w.holds
  lease : w'.lease = w.lease
  dbNow : w'.dbNow = w.dbNow
  keys : ∀ x ∈ w.keys, x ∈ w'.keys
  counted : ∀ x, w'.counted x = true → w.counted x = true ∨ x = id
  of : ∀ id', q.of = some id' → id' = id ∧ r ∈ st.inflight
  others : ∀ x ∈ (w.inst id).inflight, x ≠ r → x ∈ st.inflight
  releasing : st.releasing = (w.inst id).releasing

theorem turned_set (hof : ∀ id', q.of = some id' → id' = id ∧ r ∈ st.inflight)
    (hothers : ∀ x ∈ (w.inst id).inflight, x ≠ r → x ∈ st.inflight) (hrel : st.releasing = (w.inst id).releasing) :
    Turned w ((w.setInst id st).setReq r q) r q id st :=
  ⟨rfl, rfl, rfl, rfl, rfl, rfl, rfl, rfl, fun _ hx => hx, fun _ hx => .inl hx, hof, hothers, hrel⟩

namespace Turned
variable (ht : Turned w w' r q id st)
include ht

theorem inst_apply (x : ID) : w'.inst x = if x = id then st else w.inst x := by
  rw [ht.inst, update_apply]

theorem reqs_apply (x : ℕ) : w'.reqs x = if x = r then q else w.reqs x := by
  rw [ht.reqs, update_apply]

theorem front (h : Front w)
    (hquiet : st.releasing = true → st.validUntil = none ∧ st.admitting = none ∧ q.flight = none)
    (hflight : ∀ id' c, q.flight = some (id', c) → c < w.nextCall ∧ (w.calls c).hold = [id'])
    (hadmitting : ∀ c, st.admitting = some c → c < w.nextCall ∧ (w.calls c).hold = [id] ∧ w'.flights c = none)
    (hothers : ∀ id' c, id' ≠ id → (w.inst id').admitting = some c → w'.flights c = none)
    (hunborn : ∀ c, w.nextCall ≤ c → w'.flights c = none) (hkeys : w'.keys.Nodup) : Front w' := by
  refine ⟨hkeys, fun x id' hx => ?_, fun id' hid => ?_, fun x id' c hx => ?_, fun id' c hid => ?_, ?_⟩
  · rw [ht.reqs_apply] at hx
    rw [ht.inst_apply]
    split_ifs at hx ⊢ with hid hr hr
    · exact hr ▸ (ht.of id' hx).2
    · exact ht.others x (hid ▸ h.active x id' hx) hr
    · exact absurd (ht.of id' hx).1 hid
    · exact h.active x id' hx
  · rw [ht.inst_apply] at hid ⊢
    split_ifs at hid ⊢ with heq
    · obtain ⟨hvalid, hadm, hq⟩ := hquiet hid
      refine ⟨hvalid, hadm, fun x c hx => ?_⟩
      rw [ht.reqs_apply] at hx
      split_ifs at hx
      · simp [hq] at hx
      · rw [heq] at hx
        exact (h.quiet id (ht.releasing.symm.trans hid)).2.2 x c hx
    · refine ⟨(h.quiet id' hid).1, (h.quiet id' hid).2.1, fun x c hx => ?_⟩
      rw [ht.reqs_apply] at hx
      split_ifs at hx
      · exact heq (ht.of id' (Req.of_flight hx)).1
      · exact (h.quiet id' hid).2.2 x c hx
  · rw [ht.reqs_apply] at hx
    rw [ht.nextCall, ht.calls]
    split_ifs at hx
    · exact hflight id' c hx
    · exact h.flight x id' c hx
  · rw [ht.inst_apply] at hid
    rw [ht.nextCall, ht.calls]
    split_ifs at hid with heq
    · exact heq ▸ hadmitting c hid
    · exact ⟨(h.admitting id' c hid).1, (h.admitting id' c hid).2.1, hothers id' c heq hid⟩
  · rwa [ht.nextCall]

theorem front_of_flights (h : Front w) (hflights : w'.flights = w.flights)
    (hquiet : st.releasing = true → st.validUntil = none ∧ st.admitting = none ∧ q.flight = none)
    (hflight : ∀ id' c, q.flight = some (id', c) → c < w.nextCall ∧ (w.calls c).hold = [id'])
    (hadmitting : ∀ c, st.admitting = some c → c < w.nextCall ∧ (w.calls c).hold = [id] ∧ w.flights c = none)
    (hkeys : w'.keys.Nodup) : Front w' := by
  refine ht.front h hquiet hflight ?_ ?_ ?_ hkeys
  · rwa [hflights]
  · rw [hflights]
    exact fun id' c _ hc => (h.admitting id' c hc).2.2
  · rw [hflights]
    exact h.unborn

theorem calmly : Calmly w w' := by
  refine ⟨ht.calls, ht.nextCall, ht.pass, ht.holds, ht.lease, ht.dbNow.ge, fun x => ?_, ht.keys⟩
  rw [ht.inst_apply]
  split_ifs with hx
  · rw [hx]
    exact ht.releasing
  · rfl

end Turned

inductive News (w w' : World) (q : Req) (id : ID) (st : HoldState) : Prop
  | counted (h : w'.counted id = true) (hn : w.counted id = false)
  | valid (h : st.validUntil ≠ none)
  | admitted (c : ℕ) (sent : ℤ) (h : q = .admits id c sent) (hheld : id ∈ (w.calls c).held)
  | answered (c : ℕ) (h : q = .answered id c .held)
  | shared (c : ℕ) (h : q = .waitFlight id c) (hf : w'.flights c = some .held)

theorem News.valid_of_plain (hx : News w w' q id st) (hcounted : w'.counted = w.counted) (hq : q.flight = none) :
    st.validUntil ≠ none := by
  cases hx with
  | counted h hn =>
    simp [hcounted, hn] at h
  | valid h => exact h
  | admitted c sent h => exact absurd (h ▸ hq) nofun
  | answered c h => exact absurd (h ▸ hq) nofun
  | shared c h => exact absurd (h ▸ hq) nofun

theorem Turned.claimed (ht : Turned w w' r q id st) (x : ID) (hx : Claimed w' x) :
    Claimed w x ∨ x = id ∧ News w w' q id st ∨
      ∃ r' c, w.reqs r' = .waitFlight x c ∧ w'.flights c = some .held ∧ w.flights c ≠ some .held := by
  have hof : q.of = some x → x = id := fun h => (ht.of x h).1
  cases hx with
  | valid h =>
    rw [ht.inst_apply] at h
    split_ifs at h with heq
    · exact .inr (.inl ⟨heq, .valid h⟩)
    · exact .inl (.valid h)
  | counted h =>
    rcases ht.counted x h with h' | rfl
    · exact .inl (.counted h')
    · rcases Bool.eq_false_or_eq_true (w.counted x) with hc | hc
      · exact .inl (.counted hc)
      · exact .inr (.inl ⟨rfl, .counted h hc⟩)
  | admitted r' c sent h hheld =>
    rw [ht.reqs_apply] at h
    rw [ht.calls] at hheld
    split_ifs at h
    · obtain rfl := hof (by rw [h]; rfl)
      exact .inr (.inl ⟨rfl, .admitted c sent h hheld⟩)
    · exact .inl (.admitted r' c sent h hheld)
  | answered r' c h =>
    rw [ht.reqs_apply] at h
    split_ifs at h
    · obtain rfl := hof (by rw [h]; rfl)
      exact .inr (.inl ⟨rfl, .answered c h⟩)
    · exact .inl (.answered r' c h)
  | shared r' c h hf =>
    rw [ht.reqs_apply] at h
    split_ifs at h
    · obtain rfl := hof (by rw [h]; rfl)
      exact .inr (.inl ⟨rfl, .shared c h hf⟩)
    · by_cases hold : w.flights c = some .held
      · exact .inl (.shared r' c h hold)
      · exact .inr (.inr ⟨r', c, h, hf, hold⟩)
  | renewed ps c h hc hheld =>
    rw [ht.pass] at h
    rw [ht.calls] at hheld
    exact .inl (.renewed ps c h hc hheld)

/-! `acquire` -/

theorem Turned.inv (ht : Turned w w' r q id st) (h : Inv w) (hf : Front w') (hflights : w'.flights = w.flights)
    (hnew : News w w' q id st → Claimed w id) : Inv w' := by
  refine h.calmly ht.calmly hf fun x hx => ?_
  rcases ht.claimed x hx with hx | ⟨rfl, hx⟩ | ⟨r', c, _, hnow, hold⟩
  · exact hx
  · exact hnew hx
  · rw [hflights] at hnow
    exact absurd hnow hold

theorem Inv.request (h : Inv w) (hs : w.request r id = some w') : Inv w' := by
  revert hs
  fun_cases World.request w r id <;> rintro ⟨⟩
  have ht : Turned w (({ w with keys := if id ∈ w.keys then w.keys else id :: w.keys }.setInst id
      { w.inst id with inflight := r :: (w.inst id).inflight }).setReq r (.trying id)) r (.trying id) id
      { w.inst id with inflight := r :: (w.inst id).inflight } := by
    refine ⟨rfl, rfl, rfl, rfl, rfl, rfl, rfl, rfl, fun x hx => ?_, fun x hx => .inl hx,
      fun id' hid => ⟨(Option.some.inj hid).symm, mem_cons_self⟩, fun x hx _ => mem_cons_of_mem _ hx, rfl⟩
    split_ifs
    · exact hx
    · exact mem_cons_of_mem _ hx
  refine ht.inv h (ht.front_of_flights h.front rfl ?_ nofun ?_ ?_) rfl fun hx => .valid (hx.valid_of_plain rfl rfl)
  · exact fun hrel => ⟨(h.front.quiet id hrel).1, (h.front.quiet id hrel).2.1, rfl⟩
  · exact h.front.admitting id
  · split_ifs with hid
    · exact h.front.keys
    · exact nodup_cons.2 ⟨hid, h.front.keys⟩

theorem counted_count {x : ID} (hx : (w.count id).counted x = true) : w.counted x = true ∨ x = id := by
  by_cases heq : x = id
  · exact .inr heq
  · exact .inl ((update_of_ne heq _ _).symm.trans hx)

namespace Inv
variable (h : Inv w)
include h

theorem goOn (hr : (w.reqs r).of = some id) (hq : q.of = some id)
    (hquiet : (w.inst id).releasing = true → q.flight = none)
    (hflight : ∀ c, q.flight = some (id, c) → c < w.nextCall ∧ (w.calls c).hold = [id])
    (hplain : (∀ c, q ≠ .answered id c .held) ∧ (∀ c sent, q ≠ .admits id c sent) ∧ ∀ c, q = .waitFlight id c →
      w.flights c ≠ some .held) :
    Inv (w.setReq r q) ∧ (Claimed w id → Inv ((w.count id).setReq r q)) := by
  have hof : ∀ id', q.of = some id' → id' = id := fun id' hid => (Option.some.inj (hid.symm.trans hq))
  have hactive := h.front.active r id hr
  have hself : w.inst = update w.inst id (w.inst id) := update_eq_self id w.inst |>.symm
  have hfront : ∀ w', Turned w w' r q id (w.inst id) → w'.flights = w.flights → w'.keys = w.keys → Front w' := by
    intro w' ht hfl hkeys
    refine ht.front_of_flights h.front hfl ?_ (fun id' c hc => ?_) (h.front.admitting id) (hkeys ▸ h.front.keys)
    · exact fun hrel => ⟨(h.front.quiet id hrel).1, (h.front.quiet id hrel).2.1, hquiet hrel⟩
    · obtain rfl := hof id' (Req.of_flight hc)
      exact hflight c hc
  constructor
  · have ht : Turned w (w.setReq r q) r q id (w.inst id) :=
      ⟨rfl, hself, rfl, rfl, rfl, rfl, rfl, rfl, fun _ hx => hx, fun _ hx => .inl hx,
        fun id' hid => ⟨hof id' hid, hactive⟩, fun _ hx _ => hx, rfl⟩
    refine ht.inv h (hfront _ ht rfl rfl) rfl fun hx => ?_
    cases hx with
    | counted hc hn => exact absurd (hn.symm.trans hc) nofun
    | valid hv => exact .valid hv
    | admitted c sent hc => exact absurd hc (hplain.2.1 c sent)
    | answered c hc => exact absurd hc (hplain.1 c)
    | shared c hc hf => exact absurd hf (hplain.2.2 c hc)
  · intro hclaimed
    have ht : Turned w ((w.count id).setReq r q) r q id (w.inst id) :=
      ⟨rfl, hself, rfl, rfl, rfl, rfl, rfl, rfl, fun _ hx => hx, fun _ => counted_count,
        fun id' hid => ⟨hof id' hid, hactive⟩, fun _ hx _ => hx, rfl⟩
    exact ht.inv h (hfront _ ht rfl rfl) rfl fun _ => hclaimed

theorem goTo (hr : (w.reqs r).of = some id) (hq : q.of = some id) (hflight : q.flight = none) :
    Inv (w.setReq r q) ∧ (Claimed w id → Inv ((w.count id).setReq r q)) := by
  refine h.goOn hr hq (fun _ => hflight) (fun c hc => absurd (hflight.symm.trans hc) nofun) ⟨?_, ?_, ?_⟩
  · rintro c rfl
    cases hflight
  · rintro c sent rfl
    cases hflight
  · rintro c rfl
    cases hflight

theorem drop (hst : st = { w.inst id with inflight := st.inflight, lastReq := st.lastReq })
    (hinflight : st.inflight = (w.inst id).inflight.erase r) :
    Inv ((w.setInst id st).setReq r .idle) := by
  have hvalid : st.validUntil = (w.inst id).validUntil := by rw [hst]
  have hadm : st.admitting = (w.inst id).admitting := by rw [hst]
  have hrel : st.releasing = (w.inst id).releasing := by rw [hst]
  have ht : Turned w ((w.setInst id st).setReq r .idle) r .idle id st :=
    turned_set nofun (fun x hx hne => hinflight ▸ (mem_erase_of_ne hne).2 hx) hrel
  refine ht.inv h (ht.front_of_flights h.front rfl (fun hr => ?_) nofun ?_ h.front.keys) rfl
    fun hx => .valid (hvalid ▸ hx.valid_of_plain rfl rfl)
  · rw [hrel] at hr
    exact ⟨hvalid.trans (h.front.quiet id hr).1, hadm.trans (h.front.quiet id hr).2.1, rfl⟩
  · rw [hadm]
    exact h.front.admitting id

theorem wake (hs : w.wake r = some w') : Inv w' := by
  revert hs
  fun_cases World.wake w r <;> intro hs <;> try cases hs
  case case2 id hr hrel => exact (h.goTo (q := .trying id) (by rw [hr]; rfl) rfl rfl).1
  case case3 id flight hr =>
    obtain ⟨res, hres, rfl⟩ := Option.map_eq_some_iff.1 hs
    have hon := h.goTo (q := .serving id) (by rw [hr]; rfl) rfl rfl
    cases res with
    | held => exact hon.2 (.shared r flight hr hres)
    | failed => exact hon.1
    | refused => exact h.drop rfl rfl

theorem cancel (hs : w.cancel r = some w') : Inv w' := by
  revert hs
  fun_cases World.cancel w r <;> rintro ⟨⟩
  case case1 id hr => exact (h.goTo (q := .serving id) (by rw [hr]; rfl) rfl rfl).1
  case case2 id flight hr => exact (h.goTo (q := .serving id) (by rw [hr]; rfl) rfl rfl).1

theorem done (hs : w.done r = some w') : Inv w' := by
  revert hs
  fun_cases World.done w r <;> rintro ⟨⟩
  exact h.drop rfl rfl

theorem noted {flight : ℕ} {sent : ℤ} {res : Result} (hr : w.reqs r = .admits id flight sent)
    (hst : st = { w.inst id with held := st.held, validUntil := st.validUntil, retryAfter := st.retryAfter })
    (hvalid : st.validUntil ≠ none → Claimed w id) (hres : res = .held → Claimed w id) :
    Inv ((w.setInst id st).setReq r (.answered id flight res)) := by
  have hflight := h.front.flight r id flight (by rw [hr]; rfl)
  have hadm : st.admitting = (w.inst id).admitting := by rw [hst]
  have hrel : st.releasing = (w.inst id).releasing := by rw [hst]
  have hin : st.inflight = (w.inst id).inflight := by rw [hst]
  have hnot : (w.inst id).releasing ≠ true := fun hrel => (h.front.quiet id hrel).2.2 r flight (by rw [hr]; rfl)
  have ht : Turned w ((w.setInst id st).setReq r (.answered id flight res)) r (.answered id flight res) id st :=
    turned_set (fun id' hid => ⟨(Option.some.inj hid).symm, hin ▸ h.front.active r id (by rw [hr]; rfl)⟩)
      (fun x hx _ => hin ▸ hx) hrel
  refine ht.inv h (ht.front_of_flights h.front rfl ?_ (fun id' c hc => ?_) ?_ h.front.keys) rfl fun hx => ?_
  · exact fun hr => absurd (hrel.symm.trans hr) hnot
  · cases hc
    exact hflight
  · rw [hadm]
    exact h.front.admitting id
  · cases hx with
    | counted hc hn => exact absurd (hn.symm.trans hc) nofun
    | valid hv => exact hvalid hv
    | answered c hq =>
      cases hq
      exact hres rfl
    | admitted c sent hq => cases hq
    | shared c hq => cases hq

theorem admitted (hs : w.admitted r = some w') : Inv w' := by
  revert hs
  fun_cases World.admitted w r <;> rintro ⟨⟩
  rename_i id flight sent hr call st hdone
  split_ifs with hrefused hheld
  · exact h.noted hr rfl (fun hv => absurd rfl hv) nofun
  · exact h.noted hr rfl (fun _ => .admitted r flight sent hr hheld) (fun _ => .admitted r flight sent hr hheld)
  · exact h.noted hr rfl .valid nofun

theorem admitFailed (hs : w.admitFailed r = some w') : Inv w' := by
  revert hs
  fun_cases World.admitFailed w r <;> rintro ⟨⟩
  rename_i id flight sent hr
  exact h.noted hr rfl .valid nofun

theorem land {flight : ℕ} {res : Result} (q : Req) (st : HoldState) (hr : w.reqs r = .answered id flight res)
    (ht : Turned w w' r q id st)
    (hq : q.flight = none) (hadm : st.admitting = none) (hvalid : st.validUntil = (w.inst id).validUntil)
    (hfl : w'.flights = update w.flights flight (some res)) (hkeys : w'.keys = w.keys)
    (hcounted : ∀ x, w'.counted x = true → w.counted x = true ∨ res = .held) : Inv w' := by
  have hflight := h.front.flight r id flight (by rw [hr]; rfl)
  have hnot : (w.inst id).releasing ≠ true := fun hrel => (h.front.quiet id hrel).2.2 r flight (by rw [hr]; rfl)
  have hother : ∀ id' c, id' ≠ id → (w.calls c).hold = [id'] → c ≠ flight := by
    rintro id' c hne hhold rfl
    rw [hflight.2] at hhold
    exact hne (singleton_inj.1 hhold).symm
  refine h.calmly ht.calmly (ht.front h.front ?_ ?_ ?_ ?_ ?_ (hkeys ▸ h.front.keys)) fun x hx => ?_
  · exact fun hrel => absurd (ht.releasing.symm.trans hrel) hnot
  · intro id' c hc
    simp [hq] at hc
  · intro c hc
    simp [hadm] at hc
  · intro id' c hne hc
    obtain ⟨_, hhold, hnone⟩ := h.front.admitting id' c hc
    rwa [hfl, update_of_ne (hother id' c hne hhold)]
  · intro c hc
    rw [hfl, update_of_ne (by omega)]
    exact h.front.unborn c hc
  · rcases ht.claimed x hx with hx | ⟨rfl, hx⟩ | ⟨r', c, hwait, hnow, hold⟩
    · exact hx
    · cases hx with
      | counted hc hn =>
        rcases hcounted x hc with hc | rfl
        · exact .counted hc
        · exact .answered r flight hr
      | valid hv => exact .valid (hvalid ▸ hv)
      | answered c h | admitted c sent h | shared c h =>
        subst h
        cases hq
    · rw [hfl, update_apply] at hnow
      split_ifs at hnow with hc
      · subst hc
        have hx := (h.front.flight r' x c (by rw [hwait]; rfl)).2
        rw [hflight.2] at hx
        rw [← singleton_inj.1 hx]
        cases hnow
        exact .answered r c hr
      · exact absurd hnow hold

theorem landed (hs : w.landed r = some w') : Inv w' := by
  revert hs
  fun_cases World.landed w r <;> rintro ⟨⟩
  rename_i id flight res hr
  have hactive := h.front.active r id (by rw [hr]; rfl)
  have hof : ∀ id', (Req.serving id).of = some id' → id' = id ∧ r ∈ (w.inst id).inflight :=
    fun id' hid => ⟨(Option.some.inj hid).symm, hactive⟩
  cases res with
  | held =>
    exact h.land (.serving id) { w.inst id with admitting := none } hr
      ⟨rfl, rfl, rfl, rfl, rfl, rfl, rfl, rfl, fun _ hx => hx, fun _ => counted_count, hof, fun x hx _ => hx,
        rfl⟩ rfl rfl rfl rfl rfl fun _ _ => .inr rfl
  | failed =>
    exact h.land (.serving id) { w.inst id with admitting := none } hr
      ⟨rfl, rfl, rfl, rfl, rfl, rfl, rfl, rfl, fun _ hx => hx, fun _ => .inl, hof, fun x hx _ => hx,
        rfl⟩ rfl rfl rfl rfl rfl fun _ => .inl
  | refused =>
    refine h.land .idle { w.inst id with admitting := none, inflight := (w.inst id).inflight.erase r } hr
      ⟨rfl, ?_, rfl, rfl, rfl, rfl, rfl, rfl, fun _ hx => hx, fun _ => .inl, nofun,
        fun x hx hne => (mem_erase_of_ne hne).2 hx, rfl⟩
      rfl rfl rfl rfl rfl fun _ => .inl
    funext x
    simp only [World.returns, World.setReq, World.setInst, update_apply]
    split_ifs <;> simp

end Inv

end FeOS.Ingress
