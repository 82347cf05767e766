import FeOS.Spec.ProxyBody
import FeOS.Proofs.StreamRedacted

/-! An upstream's answer passes as its redaction, or without a redactor as it is: whatever frames it comes in and
whenever the body is dropped. -/

namespace FeOS.Authn

open List ProxyBody

def Item.isFrame : Item → Bool
  | .data _ | .trailers _ => true
  | _ => false

def Ordered : List Item → Prop
  | [] => True
  | .trailers _ :: items => ∀ i ∈ items, i.isFrame = false
  | _ :: items => Ordered items

instance decidableOrdered : (items : List Item) → Decidable (Ordered items)
  | [] => isTrue trivial
  | .trailers _ :: items => inferInstanceAs (Decidable (∀ i ∈ items, i.isFrame = false))
  | .pending :: items | .other :: items | .error _ :: items | .data _ :: items => decidableOrdered items

def Item.headers : Item → Option Headers
  | .trailers t => some t
  | _ => none

def Polled.headers : Polled → List Headers
  | .trailers t => [t]
  | _ => []

variable {r : Redactor} {base : ℕ} {x out : Bytes} {st st' : Redacting} {items items' : List Item} {p : Polled}

def trailersLeft (r : Redactor) (st : Redacting) (items : List Item) : List Headers :=
  st.trailers.toList ++ (items.filterMap Item.headers).map fun t => (r.redactHeaders t).1

def Redacting.steps (st : Redacting) (items : List Item) : ℕ :=
  2 * items.length + st.trailers.toList.length + if st.ended then 0 else 1

/-- A body of whose data `x` was read and `out` emitted: it reads on, or all data is emitted. -/
inductive Good (r : Redactor) (x out : Bytes) : Redacting → List Item → Prop
  | reading {s items base} (h : s.Inv r base x out) (ho : Ordered items) :
      Good r x out ⟨s, none, false⟩ items
  | closed {s t ended items} (h : Redacted r x out) (hs : s.carry = [])
      (hframes : ∀ i ∈ items, i.isFrame = false) (hended : ended = true → items = []) : Good r x out ⟨s, t, ended⟩ items

/-- Nothing is left to emit, and the upstream has no frame and no error. -/
structure Quiet (st : Redacting) (items : List Item) : Prop where
  items : ∀ i ∈ items, i = .pending
  held : st.scanner.carry = []
  trailers : st.trailers = none

structure Turn (r : Redactor) (x out : Bytes) (st : Redacting) (items : List Item) (res : Polled × Redacting × List Item)
    (x' : Bytes) : Prop where
  data : x ++ dataOf items = x' ++ dataOf res.2.2
  good : Good r x' (out ++ res.1.bytes) res.2.1 res.2.2
  trailers : trailersLeft r st items = res.1.headers ++ trailersLeft r res.2.1 res.2.2
  filled : res.1 ≠ .data []
  last : ∀ t, res.1 = .trailers t → Redacted r x' out ∧ dataOf res.2.2 = []
  done : res.1 = .none → Redacted r x' out ∧ Quiet res.2.1 res.2.2 ∧ res.2.1.ended = true
  steps : res.1 = .none ∨ res.2.1.steps res.2.2 < st.steps items

theorem Turn.next {res : Polled × Redacting × List Item} {x0 x' : Bytes} {st0 : Redacting} {items0 : List Item}
    (h : Turn r x out st items res x') (hdata : x0 ++ dataOf items0 = x ++ dataOf items)
    (hleft : trailersLeft r st0 items0 = trailersLeft r st items) (hsteps : st.steps items < st0.steps items0) :
    Turn r x0 out st0 items0 res x' :=
  { h with
    data := hdata.trans h.data
    trailers := hleft.trans h.trailers
    steps := h.steps.imp_right fun hlt => hlt.trans hsteps }

theorem dataOf_eq_nil (h : ∀ i ∈ items, i.isFrame = false) : dataOf items = [] := by
  refine flatMap_eq_nil_iff.2 fun i hi => ?_
  have := h i hi
  cases i <;> first | rfl | cases this

theorem Good.tail {i : Item} (h : Good r x out st (i :: items)) (hi : i.isFrame = false) : Good r x out st items := by
  cases h with
  | reading hinv ho =>
    refine .reading hinv ?_
    cases i <;> first | exact ho | cases hi
  | closed hred hs hframes hended =>
    exact .closed hred hs (fun i hi => hframes i (mem_cons_of_mem _ hi)) fun h => absurd (hended h) (cons_ne_nil _ _)

theorem trailersLeft_cons {i : Item} (hi : i.headers = none) : trailersLeft r st (i :: items) = trailersLeft r st items := by
  rw [trailersLeft, filterMap_cons_none hi, trailersLeft]

theorem steps_cons (i : Item) : st.steps items < st.steps (i :: items) := by
  simp only [Redacting.steps, length_cons]
  omega

theorem Turn.silent {i : Item} (h : Good r x out st (i :: items)) (hi : i.isFrame = false) (hp : p.bytes = [])
    (hheaders : p.headers = []) (hdata : p ≠ .data []) (hnone : p ≠ .none) :
    Turn r x out st (i :: items) (p, st, items) x where
  data := by cases i <;> first | rfl | cases hi
  good := by
    rw [hp, append_nil]
    exact h.tail hi
  trailers := by
    rw [hheaders, trailersLeft_cons]
    · rfl
    · cases i <;> first | rfl | cases hi
  filled := hdata
  last t ht := by
    have ht : p = .trailers t := ht
    rw [ht] at hheaders
    cases hheaders
  done h := absurd h hnone
  steps := .inr (steps_cons i)

theorem Good.push {d : Bytes} (h : Good r x out st (.data d :: items)) :
    Good r (x ++ d) (out ++ (st.push d).1) (st.push d).2 items := by
  cases h with
  | reading hinv ho => exact .reading (hinv.push d) ho
  | closed _ _ hframes _ => exact absurd (hframes _ mem_cons_self) nofun

theorem Good.finish (h : Good r x out st []) : Good r x (out ++ st.finish.1) st.finish.2 [] ∧
    Redacted r x (out ++ st.finish.1) ∧ st.finish.2.scanner.carry = [] := by
  cases h with
  | reading hinv ho =>
    obtain ⟨hlen, hpassed, hstate⟩ := hinv.finish
    have hcarry : Scanner.carry _ = [] := congrArg Scanner.carry hstate
    exact ⟨.closed (hpassed.redacted hlen) hcarry nofun fun _ => rfl, hpassed.redacted hlen, hcarry⟩
  | @closed s t ended items hred hs hframes hended =>
    have hfinish : s.finish = ([], s) := if_pos hs
    simp only [Redacting.finish, hfinish, append_nil]
    exact ⟨.closed hred hs nofun fun _ => rfl, hred, hs⟩

theorem Good.hold {t : Headers} (h : Good r x out st (.trailers t :: items)) :
    Good r x (out ++ (st.hold t).1) (st.hold t).2 items ∧
      trailersLeft r st (.trailers t :: items) = trailersLeft r (st.hold t).2 items ∧
      (st.hold t).2.steps items < st.steps (.trailers t :: items) := by
  cases h with
  | @reading s _ base hinv ho =>
    have hinv' : Scanner.Inv r (base + (s.redactor.redactHeaders t).2) x out
        { s with count := s.count + (s.redactor.redactHeaders t).2 } :=
      { hinv with count := by dsimp only; rw [hinv.count]; omega }
    obtain ⟨hlen, hpassed, hstate⟩ := hinv'.finish
    refine ⟨.closed (hpassed.redacted hlen) (congrArg Scanner.carry hstate) ho nofun, ?_, ?_⟩
    · simp [trailersLeft, Redacting.hold, hinv.redactor, Item.headers]
    · simp only [Redacting.steps, Redacting.hold, length_cons, Option.toList_some, Option.toList_none, length_nil]
      split_ifs <;> omega
  | closed _ _ hframes _ => exact absurd (hframes _ mem_cons_self) nofun

theorem Good.poll (h : Good r x out st items) : ∃ x', Turn r x out st items (st.poll items) x' := by
  fun_induction Redacting.poll st items generalizing x with
  | case1 st items t ht =>
    cases h with
    | reading hinv ho => cases ht
    | closed hred hs hframes hended =>
      obtain rfl : _ = some t := ht
      refine ⟨x, rfl, ?_, rfl, nofun, fun _ _ => ⟨hred, dataOf_eq_nil hframes⟩, nofun, .inr ?_⟩
      · rw [show Polled.bytes (.trailers t) = [] from rfl, append_nil]
        exact .closed hred hs hframes hended
      · simp [Redacting.steps]
  | case2 st items ht hended =>
    cases h with
    | reading hinv ho => cases hended
    | closed hred hs hframes hend =>
      have hnil := hend hended
      refine ⟨x, rfl, ?_, rfl, nofun, nofun, fun _ => ⟨hred, ⟨hnil ▸ nofun, hs, ht⟩, hended⟩, .inl rfl⟩
      rw [show Polled.bytes .none = [] from rfl, append_nil]
      exact .closed hred hs hframes hend
  | case3 st ht hended hrest =>
    obtain ⟨hgood, hred, hcarry⟩ := h.finish
    rw [hrest, append_nil] at hgood hred
    refine ⟨x, rfl, ?_, rfl, nofun, nofun, fun _ => ⟨hred, ⟨nofun, hcarry, ht⟩, rfl⟩, .inl rfl⟩
    rw [show Polled.bytes .none = [] from rfl, append_nil]
    exact hgood
  | case4 st ht hended hrest =>
    refine ⟨x, rfl, h.finish.1, rfl, fun heq => hrest (Polled.data.inj heq), nofun, nofun, .inr ?_⟩
    simp [Redacting.steps, Redacting.finish, hended]
  | case5 st ht hended items => exact ⟨x, Turn.silent h rfl rfl rfl nofun nofun⟩
  | case6 st ht hended message items => exact ⟨x, Turn.silent h rfl rfl rfl nofun nofun⟩
  | case7 st ht hended items ih =>
    obtain ⟨x', hturn⟩ := ih (h.tail rfl)
    exact ⟨x', hturn.next rfl (trailersLeft_cons rfl) (steps_cons _)⟩
  | case8 st ht hended d items hrest ih =>
    have hpush := h.push
    rw [hrest, append_nil] at hpush
    obtain ⟨x', hturn⟩ := ih hpush
    exact ⟨x', hturn.next (append_assoc x d _).symm (trailersLeft_cons rfl) (steps_cons _)⟩
  | case9 st ht hended d items hrest =>
    exact ⟨x ++ d, (append_assoc x d _).symm, h.push, trailersLeft_cons rfl, fun heq => hrest (Polled.data.inj heq),
      nofun, nofun, .inr (steps_cons _)⟩
  | case10 st ht hended t items hrest ih =>
    obtain ⟨hgood, hleft, hsteps⟩ := h.hold
    rw [hrest, append_nil] at hgood
    obtain ⟨x', hturn⟩ := ih hgood
    exact ⟨x', hturn.next rfl hleft hsteps⟩
  | case11 st ht hended t items hrest =>
    obtain ⟨hgood, hleft, hsteps⟩ := h.hold
    exact ⟨x, rfl, hgood, hleft, fun heq => hrest (Polled.data.inj heq), nofun, nofun, .inr hsteps⟩

/-! The body -/

def sent (outs : List Polled) : Bytes := outs.flatMap Polled.bytes

def sentTrailers (outs : List Polled) : List Headers := outs.flatMap Polled.headers

def Polled.isLast : Polled → Bool
  | .error _ | .none => true
  | _ => false

def Polled.errorRec : Polled → Option ErrorRec
  | .error message => some ⟨"upstream_body", message⟩
  | _ => Option.none

variable {outs : List Polled} {b : ProxyBody} {items0 : List Item}

theorem sent_append (p : Polled) : sent (outs ++ [p]) = sent outs ++ p.bytes := by
  rw [sent, flatMap_append, flatMap_singleton, sent]

inductive Ending (outs : List Polled) : Bool → List HttpEnd → Prop
  | running (h : ∀ p ∈ outs, p.isLast = false) : Ending outs true []
  | failed {before after : List Polled} {message : String} (h : outs = before ++ .error message :: after)
      (hbefore : ∀ p ∈ before, p.isLast = false) :
      Ending outs false [⟨(sent before).length % 2 ^ 64, some ⟨"upstream_body", message⟩⟩]
  | done (h : ∀ message, .error message ∉ outs) (hnone : .none ∈ outs) :
      Ending outs false [⟨(sent outs).length % 2 ^ 64, none⟩]

theorem Ending.none (h : ∀ message, .error message ∉ outs) :
    Ending (outs ++ [.none]) false [⟨(sent outs).length % 2 ^ 64, none⟩] := by
  have hsent : sent (outs ++ [.none]) = sent outs := (sent_append _).trans (append_nil _)
  rw [← hsent]
  refine .done (fun message hmem => ?_) (mem_append_right _ mem_cons_self)
  rcases mem_append.1 hmem with hmem | hmem
  · exact h message hmem
  · exact absurd (mem_singleton.1 hmem) nofun

theorem Ending.step {g g' : Bool} {es es' : List HttpEnd} {k : ℕ} (h : Ending outs g es)
    (hk : k = (sent outs).length % 2 ^ 64) (hafter : .none ∈ outs → p = .none)
    (hends : (g', es') = if g ∧ p.isLast then (false, es ++ [⟨k, p.errorRec⟩]) else (g, es)) :
    Ending (outs ++ [p]) g' es' := by
  subst hk
  cases h with
  | running hrun =>
    by_cases hlast : p.isLast = true
    · rw [if_pos ⟨rfl, hlast⟩] at hends
      obtain ⟨rfl, rfl⟩ := Prod.mk.inj hends
      cases p with
      | error message => exact .failed rfl hrun
      | none => exact .none fun message hmem => absurd (hrun _ hmem) nofun
      | _ => cases hlast
    · rw [if_neg fun h => hlast h.2] at hends
      obtain ⟨rfl, rfl⟩ := Prod.mk.inj hends
      exact .running (forall_mem_append.2 ⟨hrun, forall_mem_singleton.2 (by simpa using hlast)⟩)
  | failed heq hbefore =>
    rw [if_neg (by simp)] at hends
    obtain ⟨rfl, rfl⟩ := Prod.mk.inj hends
    exact .failed (by rw [heq, append_assoc, cons_append]) hbefore
  | done hnone hmem =>
    rw [if_neg (by simp)] at hends
    obtain ⟨rfl, rfl⟩ := Prod.mk.inj hends
    rw [hafter hmem]
    exact .none hnone

/-- The counter and the guard of a body that gave `outs`. -/
structure Kept (outs : List Polled) (b : ProxyBody) : Prop where
  bytesOut : b.bytesOut = (sent outs).length % 2 ^ 64
  ends : Ending outs b.guarded b.ends

structure OnPoll (r : Redactor) (items0 : List Item) (outs : List Polled) (b : ProxyBody) (x : Bytes) (st : Redacting)
    (items : List Item) : Prop extends Kept outs b where
  kind : b.kind = .incoming items
  redact : b.redact = some st
  good : Good r x (sent outs) st items
  data : dataOf items0 = x ++ dataOf items
  trailers : (items0.filterMap Item.headers).map (fun t => (r.redactHeaders t).1) = sentTrailers outs ++
    trailersLeft r st items
  filled : .data [] ∉ outs
  quiet : .none ∈ outs → Quiet st items ∧ st.ended = true
  steps : .none ∈ outs ∨ outs.length + st.steps items ≤ 2 * items0.length + 1

theorem Kept.start (items : List Item) : Kept [] (.counted items) := ⟨rfl, .running (by simp)⟩

theorem OnPoll.start (ho : Ordered items0) :
    OnPoll r items0 [] (.redacted ⟨r, [], 0, base⟩ items0) [] ⟨⟨r, [], 0, base⟩, none, false⟩ items0 where
  kind := rfl
  redact := rfl
  good := .reading (Scanner.inv_empty r base) ho
  data := rfl
  trailers := rfl
  filled := nofun
  quiet := nofun
  toKept := ⟨rfl, (Kept.start items0).ends⟩
  steps := .inr (by simp [Redacting.steps])

theorem poll_ended (h : Quiet st items ∧ st.ended = true) : st.poll items = (.none, st, items) := by
  rw [Redacting.poll.eq_def, h.1.trailers]
  exact if_pos h.2

theorem Kept.account (h : Kept outs b) (hkind : b.kind = .incoming items) (hafter : .none ∈ outs → p = .none) :
    (b.account p).kind = b.kind ∧ (b.account p).redact = b.redact ∧ Kept (outs ++ [p]) (b.account p) := by
  have hlt : b.bytesOut < 2 ^ 64 := by
    rw [h.bytesOut]
    exact Nat.mod_lt _ (by norm_num)
  have hmod : b.bytesOut % 18446744073709551616 = b.bytesOut := Nat.mod_eq_of_lt hlt
  obtain ⟨hk, hr, hbytes, hends⟩ : (b.account p).kind = b.kind ∧ (b.account p).redact = b.redact ∧
      (b.account p).bytesOut = (b.bytesOut + p.bytes.length) % 2 ^ 64 ∧
      ((b.account p).guarded, (b.account p).ends) =
        if b.guarded ∧ p.isLast then (false, b.ends ++ [⟨b.bytesOut, p.errorRec⟩]) else (b.guarded, b.ends) := by
    cases p <;> simp only [ProxyBody.account, ProxyBody.finish, hkind, Polled.isLast, Polled.bytes, Polled.errorRec] <;>
      by_cases hg : b.guarded = true <;> simp [hg, hkind, hmod]
  refine ⟨hk, hr, ?_, h.ends.step h.bytesOut hafter hends⟩
  rw [hbytes, sent_append, length_append, h.bytesOut, Nat.mod_add_mod]

theorem OnPoll.pollInner (h : OnPoll r items0 outs b x st items) : b.pollInner = ((st.poll items).1,
    { b with redact := some (st.poll items).2.1, kind := .incoming (st.poll items).2.2 }) := by
  rw [ProxyBody.pollInner, h.kind, h.redact]

theorem OnPoll.step (h : OnPoll r items0 outs b x st items) : ∃ x' st' items',
    OnPoll r items0 (outs ++ [b.pollFrame.1]) b.pollFrame.2 x' st' items' := by
  obtain ⟨x', hturn⟩ := h.good.poll
  rw [pollFrame, h.pollInner]
  have hbefore : Kept outs { b with redact := some (st.poll items).2.1, kind := .incoming (st.poll items).2.2 } :=
    ⟨h.bytesOut, h.ends⟩
  have hafter : .none ∈ outs → (st.poll items).1 = .none := fun hnone => by rw [poll_ended (h.quiet hnone)]
  obtain ⟨hkind, hredact, hkept⟩ := hbefore.account rfl hafter
  refine ⟨x', (st.poll items).2.1, (st.poll items).2.2, hkept, hkind, hredact, ?_, h.data.trans hturn.data, ?_, ?_, ?_, ?_⟩
  · rw [sent_append]
    exact hturn.good
  · rw [h.trailers, hturn.trailers, sentTrailers, sentTrailers, flatMap_append, flatMap_singleton, append_assoc]
  · intro hmem
    rcases mem_append.1 hmem with hmem | hmem
    · exact h.filled hmem
    · exact hturn.filled (mem_singleton.1 hmem).symm
  · intro hmem
    rcases mem_append.1 hmem with hmem | hmem
    · rw [poll_ended (h.quiet hmem)]
      exact h.quiet hmem
    · exact (hturn.done (mem_singleton.1 hmem).symm).2
  · rcases h.steps with hnone | hle
    · exact .inl (mem_append_left _ hnone)
    · rcases hturn.steps with hnone | hlt
      · exact .inl (mem_append_right _ (mem_singleton.2 hnone.symm))
      · refine .inr ?_
        rw [length_append, length_singleton]
        omega

theorem OnPoll.polls (ho : Ordered items0) (n : ℕ) : ∃ x st items,
    OnPoll r items0 ((redacted ⟨r, [], 0, base⟩ items0).polls n).1
      ((redacted ⟨r, [], 0, base⟩ items0).polls n).2 x st items := by
  induction n with
  | zero => exact ⟨_, _, _, .start ho⟩
  | succ n ih =>
    obtain ⟨x, st, items, h⟩ := ih
    exact h.step

theorem length_polls (b : ProxyBody) (n : ℕ) : (b.polls n).1.length = n := by
  induction n with
  | zero => rfl
  | succ n ih => rw [polls, length_append, ih, length_singleton]

theorem Good.exists_whole (h : Good r x out st items) : ∃ whole, Redacted r (x ++ dataOf items) whole ∧ out <+: whole ∧
    (x ++ dataOf items).length = out.length + (dataOf items).length + st.scanner.carry.length := by
  cases h with
  | reading hinv ho =>
    obtain ⟨hlen, hpassed, -⟩ := (hinv.push (dataOf items)).finish
    have hcarry := congrArg length hinv.carry
    have := hinv.passed.len
    refine ⟨_, hpassed.redacted hlen, ?_, ?_⟩
    · rw [append_assoc]
      exact prefix_append _ _
    · rw [length_drop] at hcarry
      rw [length_append]
      dsimp only
      omega
  | closed hred hs hframes hended =>
    rw [dataOf_eq_nil hframes, append_nil]
    refine ⟨out, hred, prefix_rfl, ?_⟩
    rw [hred.length_eq, hs]
    rfl

theorem OnPoll.isEndStream_iff (I : Incoming) (h : OnPoll r items0 outs b x st items) :
    b.isEndStream I = true ↔ Quiet st items := by
  have hcases : b.isEndStream I = (st.trailers.isNone &&
      (st.ended || (I.isEndStream items && st.scanner.carry.length = 0))) := by
    rw [isEndStream, h.kind, h.redact]
  rw [hcases]
  simp only [Bool.and_eq_true, Option.isNone_iff_eq_none, Bool.or_eq_true, I.ends, decide_eq_true_eq, length_eq_zero_iff]
  constructor
  · rintro ⟨htrailers, hended | ⟨hitems, hheld⟩⟩
    · cases h.good with
      | reading hinv ho => cases hended
      | closed hred hs hframes hnil => exact ⟨hnil hended ▸ nofun, hs, htrailers⟩
    · exact ⟨hitems, hheld, htrailers⟩
  · exact fun hq => ⟨hq.trailers, .inr ⟨hq.items, hq.held⟩⟩

/-- Nothing is left to emit, and the upstream has no frame and no error. -/
def ProxyBody.Spent (b : ProxyBody) : Prop := ∃ rest, b.kind = .incoming rest ∧ (∀ i ∈ rest, i = .pending) ∧
  ∀ st ∈ b.redact, st.scanner.carry = [] ∧ st.trailers = none

theorem OnPoll.spent_iff (h : OnPoll r items0 outs b x st items) : b.Spent ↔ Quiet st items := by
  rw [Spent, h.kind, h.redact]
  constructor
  · rintro ⟨rest, ⟨⟩, hrest, hst⟩
    exact ⟨hrest, (hst st rfl).1, (hst st rfl).2⟩
  · intro hq
    refine ⟨items, rfl, hq.items, ?_⟩
    rintro st ⟨⟩
    exact ⟨hq.held, hq.trailers⟩

def HeadersAs (as : Bytes → Bytes → Prop) : Headers → Headers → Prop := Forall₂ fun h h' => h'.1 = h.1 ∧ as h.2 h'.2

/-- All the data of the upstream was emitted, and its trailers. -/
structure Complete (as : Bytes → Bytes → Prop) (items : List Item) (outs : List Polled) : Prop where
  data : as (dataOf items) (sent outs)
  trailers : Forall₂ (HeadersAs as) (items.filterMap Item.headers) (sentTrailers outs)

theorem headersAs_redactHeaders (r : Redactor) (ts : List Headers) :
    Forall₂ (HeadersAs (Redacted r)) ts (ts.map fun t => (r.redactHeaders t).1) := by
  simp only [HeadersAs, Redactor.redactHeaders, forall₂_map_right_iff, forall₂_same]
  exact fun t _ h _ => ⟨trivial, redact_redacted r h.2⟩

theorem OnPoll.complete (h : OnPoll r items0 outs b x st items) (hq : Quiet st items) :
    Complete (Redacted r) items0 outs := by
  have hframes : ∀ i ∈ items, i.isFrame = false := fun i hi => by rw [hq.items i hi]; rfl
  have hnone : items.filterMap Item.headers = [] := filterMap_eq_nil_iff.2 fun i hi => by rw [hq.items i hi]; rfl
  obtain ⟨whole, hred, hpre, hlen⟩ := h.good.exists_whole
  rw [dataOf_eq_nil hframes, append_nil] at hred hlen
  refine ⟨?_, ?_⟩
  · rw [h.data, dataOf_eq_nil hframes, append_nil, hpre.eq_of_length (by rw [hred.length_eq, hlen, hq.held]; rfl)]
    exact hred
  · have hsent := h.trailers
    rw [trailersLeft, hq.trailers, hnone] at hsent
    simp only [Option.toList_none, map_nil, append_nil] at hsent
    rw [← hsent]
    exact headersAs_redactHeaders r _

theorem Kept.drop_ends (I : Incoming) (h : Kept outs b) (hlen : (sent outs).length < 2 ^ 64)
    (hquiet : .none ∈ outs → b.isEndStream I = true) : ∃ e, (b.drop I).ends = [e] ∧
      ((∃ before after message, outs = before ++ .error message :: after ∧
          e = ⟨(sent before).length, some ⟨"upstream_body", message⟩⟩) ∨
        (∀ message, .error message ∉ outs) ∧ e = ⟨(sent outs).length, if b.isEndStream I then none else
          some ⟨"aborted", "the exchange ended before its answer's end"⟩⟩) := by
  have hends := h.ends
  have hmod := Nat.mod_eq_of_lt hlen
  generalize hg : b.guarded = g at hends
  generalize he : b.ends = es at hends
  cases hends with
  | running hrun =>
    refine ⟨_, ?_, .inr ⟨fun message hmem => absurd (hrun _ hmem) nofun, rfl⟩⟩
    rw [← hmod, ← h.bytesOut]
    by_cases hend : b.isEndStream I = true <;> simp [ProxyBody.drop, ProxyBody.finish, hg, he, hend]
  | @failed before after message heq hbefore =>
    refine ⟨_, ?_, .inl ⟨before, after, message, heq, rfl⟩⟩
    rw [heq, sent, flatMap_append, length_append] at hlen
    have hbefore : (sent before).length % 2 ^ 64 = _ := Nat.mod_eq_of_lt (lt_of_le_of_lt (Nat.le_add_right _ _) hlen)
    rw [hbefore] at he
    simp [ProxyBody.drop, ProxyBody.finish, hg, he]
  | done hnone hmem =>
    refine ⟨_, ?_, .inr ⟨hnone, rfl⟩⟩
    rw [hquiet hmem, ← hmod]
    simp [ProxyBody.drop, ProxyBody.finish, hg, he]

theorem sizeHint_bounds (I : Incoming) {total : ℕ} (hkind : b.kind = .incoming items) (hlt : total < 2 ^ 64)
    (htotal : total = (sent outs).length + (dataOf items).length + b.redact.elim 0 fun st => st.scanner.carry.length) :
    (sent outs).length + (b.sizeHint I).1 ≤ total ∧ ∀ u ∈ (b.sizeHint I).2, total ≤ (sent outs).length + u := by
  have hlower := I.lower_le items
  rw [sizeHint, hkind]
  dsimp only
  generalize (b.redact.elim 0 fun st => st.scanner.carry.length) = held at htotal ⊢
  refine ⟨?_, fun u hu => ?_⟩
  · rw [htotal, satAdd]
    omega
  · obtain ⟨u', hu', rfl⟩ := Option.mem_map.1 hu
    have := I.le_upper items u' hu'
    simp only [satAdd]
    omega

/-! A body without a redactor -/

def Item.polled : Item → Polled
  | .pending => .pending
  | .data d => .data d
  | .trailers t => .trailers t
  | .other => .other
  | .error message => .error message

theorem Item.polled_bytes (i : Item) : i.polled.bytes = i.bytes := by cases i <;> rfl

theorem Item.polled_headers (i : Item) : i.polled.headers = i.headers.toList := by cases i <;> rfl

theorem Ordered.tail {i : Item} (h : Ordered (i :: items)) : Ordered items := by
  cases i with
  | trailers t =>
    induction items with
    | nil => trivial
    | cons j items ih =>
      have hj : j.isFrame = false := h j mem_cons_self
      have hitems := ih fun i hi => h i (mem_cons_of_mem _ hi)
      cases j with
      | pending | other | error message => exact hitems
      | data d => cases hj
      | trailers t => cases hj
  | _ => exact h

/-- A body that gave `outs` of the upstream's items, and has `items` left. -/
structure OnPass (items0 : List Item) (outs : List Polled) (b : ProxyBody) (items : List Item) :
    Prop extends Kept outs b where
  kind : b.kind = .incoming items
  redact : b.redact = none
  ordered : Ordered items
  data : dataOf items0 = sent outs ++ dataOf items
  trailers : items0.filterMap Item.headers = sentTrailers outs ++ items.filterMap Item.headers
  quiet : .none ∈ outs → items = []
  steps : .none ∈ outs ∨ outs.length + items.length ≤ items0.length

theorem OnPass.step (h : OnPass items0 outs b items) :
    ∃ items', OnPass items0 (outs ++ [b.pollFrame.1]) b.pollFrame.2 items' := by
  cases items with
  | nil =>
    have hpoll : b.pollFrame = (.none, b.account .none) := by
      rw [pollFrame, pollInner, h.kind, h.redact]
    obtain ⟨hkind, hredact, hkept⟩ := h.toKept.account h.kind fun _ => rfl
    rw [hpoll]
    refine ⟨[], hkept, hkind.trans h.kind, hredact.trans h.redact, trivial, ?_, ?_, fun _ => rfl, .inl (by simp)⟩
    · rw [h.data, sent_append, show Polled.bytes .none = [] from rfl, append_nil]
    · rw [h.trailers, sentTrailers, sentTrailers, flatMap_append]
      simp [Polled.headers]
  | cons i items =>
    have hnone : .none ∉ outs := fun hmem => absurd (h.quiet hmem) (cons_ne_nil _ _)
    have hpoll : b.pollFrame = (i.polled, { b with kind := .incoming items }.account i.polled) := by
      rw [pollFrame, pollInner, h.kind, h.redact]
      cases i <;> rfl
    have hbefore : Kept outs { b with kind := .incoming items } := ⟨h.bytesOut, h.ends⟩
    obtain ⟨hkind, hredact, hkept⟩ := hbefore.account rfl fun hmem => absurd hmem hnone
    rw [hpoll]
    refine ⟨items, hkept, hkind, hredact.trans h.redact, h.ordered.tail, ?_, ?_, fun hmem => ?_, .inr ?_⟩
    · rw [h.data, sent_append, Item.polled_bytes, append_assoc]
      rfl
    · rw [h.trailers, sentTrailers, sentTrailers, flatMap_append, flatMap_singleton, Item.polled_headers, append_assoc]
      cases hi : i.headers <;> simp [hi]
    · rcases mem_append.1 hmem with hmem | hmem
      · exact absurd hmem hnone
      · cases i <;> cases mem_singleton.1 hmem
    · have := h.steps.resolve_left hnone
      rw [length_append, length_singleton]
      rw [length_cons] at this
      omega

theorem OnPass.polls (ho : Ordered items0) (n : ℕ) :
    ∃ items, OnPass items0 ((counted items0).polls n).1 ((counted items0).polls n).2 items := by
  induction n with
  | zero =>
    refine ⟨items0, .start items0, rfl, rfl, ho, rfl, rfl, ?_, .inr ?_⟩
    · rintro ⟨⟩
    · exact (Nat.zero_add _).le
  | succ n ih =>
    obtain ⟨items, h⟩ := ih
    exact h.step

theorem OnPass.spent_iff (h : OnPass items0 outs b items) : b.Spent ↔ ∀ i ∈ items, i = .pending := by
  rw [Spent, h.kind, h.redact]
  constructor
  · rintro ⟨rest, ⟨⟩, hrest, -⟩
    exact hrest
  · intro hrest
    exact ⟨items, rfl, hrest, by rintro st ⟨⟩⟩

theorem headersAs_eq (ts : List Headers) : Forall₂ (HeadersAs Eq) ts ts := by
  simp only [HeadersAs, forall₂_same, and_self, implies_true]

theorem OnPass.complete (h : OnPass items0 outs b items) (hrest : ∀ i ∈ items, i = .pending) : Complete Eq items0 outs := by
  have hdata : dataOf items = [] := dataOf_eq_nil fun i hi => by rw [hrest i hi]; rfl
  have hnone : items.filterMap Item.headers = [] := filterMap_eq_nil_iff.2 fun i hi => by rw [hrest i hi]; rfl
  refine ⟨?_, ?_⟩
  · rw [h.data, hdata, append_nil]
  · rw [h.trailers, hnone, append_nil]
    exact headersAs_eq _

/-! Both -/

/-- What a body gave of the upstream's answer, each text as `as` says, and what it says of the rest. A drop leaves one
`http_end` record: of the upstream's error if one was polled, without an error if nothing was left, and of an abort
else. -/
structure Proxied (I : Incoming) (as : Bytes → Bytes → Prop) (items : List Item) (n : ℕ) (outs : List Polled)
    (b : ProxyBody) : Prop where
  data : ∃ whole, as (dataOf items) whole ∧ sent outs <+: whole
  trailers : ∃ whole, Forall₂ (HeadersAs as) (items.filterMap Item.headers) whole ∧ sentTrailers outs <+: whole
  beforeTrailers : ∀ t, b.pollFrame.1 = .trailers t → as (dataOf items) (sent outs)
  atEnd : .none ∈ outs → Complete as items outs
  ends : 2 * items.length + 2 ≤ n → .none ∈ outs
  isEndStream : b.isEndStream I = true ↔ b.Spent
  spent : b.Spent → Complete as items outs
  lower : (sent outs).length + (b.sizeHint I).1 ≤ (dataOf items).length
  upper : ∀ u ∈ (b.sizeHint I).2, (dataOf items).length ≤ (sent outs).length + u
  bytesOut : b.bytesOut = (sent outs).length
  dropped : ∃ e, (b.drop I).ends = [e] ∧
    ((∃ before after message, outs = before ++ .error message :: after ∧
        e = ⟨(sent before).length, some ⟨"upstream_body", message⟩⟩) ∨
      (∀ message, .error message ∉ outs) ∧ e = ⟨(sent outs).length, if b.isEndStream I then none else
        some ⟨"aborted", "the exchange ended before its answer's end"⟩⟩)

theorem OnPoll.proxied (I : Incoming) (h : OnPoll r items0 outs b x st items) (hlen : (dataOf items0).length < 2 ^ 64) :
    Proxied I (Redacted r) items0 outs.length outs b := by
  obtain ⟨whole, hred, hpre, htotal⟩ := h.good.exists_whole
  rw [← h.data] at hred htotal
  have hsent : (sent outs).length < 2 ^ 64 := by omega
  obtain ⟨hlower, hupper⟩ := sizeHint_bounds I h.kind hlen (by rw [htotal, h.redact]; rfl)
  refine ⟨⟨whole, hred, hpre⟩, ⟨_, headersAs_redactHeaders r _, ?_⟩, fun t ht => ?_,
    fun hnone => h.complete (h.quiet hnone).1,
    fun hn => h.steps.resolve_right (by omega), (h.isEndStream_iff I).trans h.spent_iff.symm,
      fun hs => h.complete (h.spent_iff.1 hs),
    hlower, hupper, h.bytesOut.trans (Nat.mod_eq_of_lt hsent),
    h.drop_ends I hsent fun hnone => (h.isEndStream_iff I).2 (h.quiet hnone).1⟩
  · rw [h.trailers]
    exact prefix_append _ _
  · obtain ⟨x', hturn⟩ := h.good.poll
    have ht' : (st.poll items).1 = .trailers t := (congrArg Prod.fst h.pollInner).symm.trans ht
    obtain ⟨hall, hnil⟩ := hturn.last t ht'
    rwa [h.data, hturn.data, hnil, append_nil]

theorem OnPass.proxied (I : Incoming) (h : OnPass items0 outs b items) (hlen : (dataOf items0).length < 2 ^ 64) :
    Proxied I Eq items0 outs.length outs b := by
  have htotal : (dataOf items0).length = (sent outs).length + (dataOf items).length := by rw [h.data, length_append]
  have hsent : (sent outs).length < 2 ^ 64 := by omega
  have hend : b.isEndStream I = true ↔ ∀ i ∈ items, i = .pending := by
    rw [isEndStream, h.kind, h.redact]
    exact I.ends items
  have hquiet : .none ∈ outs → ∀ i ∈ items, i = .pending := fun hnone => by
    rw [h.quiet hnone]
    exact forall_mem_nil _
  obtain ⟨hlower, hupper⟩ := sizeHint_bounds I h.kind hlen (by rw [htotal, h.redact]; rfl)
  refine ⟨⟨_, rfl, ?_⟩, ⟨_, headersAs_eq _, ?_⟩, fun t ht => ?_, fun hnone => h.complete (hquiet hnone),
    fun hn => h.steps.resolve_right (by omega), hend.trans h.spent_iff.symm, fun hs => h.complete (h.spent_iff.1 hs),
    hlower, hupper, h.bytesOut.trans (Nat.mod_eq_of_lt hsent), h.drop_ends I hsent fun hnone => hend.2 (hquiet hnone)⟩
  · rw [h.data]
    exact prefix_append _ _
  · rw [h.trailers]
    exact prefix_append _ _
  · -- the trailers are the next item, and no data is behind them
    have hordered := h.ordered
    have hdata := h.data
    rw [pollFrame, pollInner, h.kind, h.redact] at ht
    cases items with
    | nil => cases ht
    | cons i items =>
      cases i with
      | trailers t' =>
        have hnil : dataOf items = [] := dataOf_eq_nil hordered
        have htail : dataOf (.trailers t' :: items) = dataOf items := rfl
        rw [hdata, htail, hnil, append_nil]
      | _ => cases ht

/-- The upstream's answer after any number of polls. What was emitted begins a redaction of its data; at the end and
before the trailers it is all of it, no frame is empty, and the trailers are redacted. Without a redactor the answer
passes as it is. -/
theorem proxied_body_redacted (I : Incoming) (r : Redactor) (base : ℕ) (items : List Item) (ho : Ordered items)
    (hlen : (dataOf items).length < 2 ^ 64) (n : ℕ) :
    let body := redacted ⟨r, [], 0, base⟩ items
    let plain := counted items
    (Proxied I (Redacted r) items n (body.polls n).1 (body.polls n).2 ∧ .data [] ∉ (body.polls n).1) ∧
      Proxied I Eq items n (plain.polls n).1 (plain.polls n).2 := by
  intro body plain
  obtain ⟨x, st, rest, h⟩ : ∃ x st rest, OnPoll r items (body.polls n).1 (body.polls n).2 x st rest := OnPoll.polls ho n
  obtain ⟨rest', h'⟩ : ∃ rest, OnPass items (plain.polls n).1 (plain.polls n).2 rest := OnPass.polls ho n
  have hbody := h.proxied I hlen
  have hplain := h'.proxied I hlen
  rw [length_polls] at hbody hplain
  exact ⟨⟨hbody, h.filled⟩, hplain⟩

def sampleIncoming : Incoming where
  isEndStream items := items.all (· = .pending)
  lower items := (dataOf items).length
  upper items := some (dataOf items).length
  ends items := by simp
  lower_le items := le_rfl
  le_upper items u hu := (Option.some.inj hu).le

/-- A beginning of the value at the end of the data, and the value in the trailers. -/
def sampleItems : List Item :=
  [.data [45], .pending, .data [], .data [97, 98, 99, 97], .trailers [("token", [97, 98, 99, 97, 98, 99, 97, 98])], .pending]

/-- The four bytes that may begin the value wait for the trailers. -/
theorem proxied_body_redacted_sample :
    let res := (redacted ⟨sampleRedactor, [], 0, 0⟩ sampleItems).polls 4
    res.1 = [.data [45], .pending, .data [97, 98, 99, 97], .trailers [("token", shortMarker)]] ∧
      Complete (Redacted sampleRedactor) sampleItems res.1 ∧ res.2.bytesOut = 5 := by
  have hpolls : ((redacted ⟨sampleRedactor, [], 0, 0⟩ sampleItems).polls 4).1 =
      [.data [45], .pending, .data [97, 98, 99, 97], .trailers [("token", shortMarker)]] := by decide +kernel
  obtain ⟨hproxied, -⟩ := (proxied_body_redacted sampleIncoming sampleRedactor 0 sampleItems (by decide) (by decide) 4).1
  have hbytes := hproxied.bytesOut
  rw [hpolls] at hbytes
  exact ⟨hpolls, hproxied.spent (hproxied.isEndStream.1 (by decide +kernel)), hbytes⟩

/-- Without a redactor an empty frame of the upstream's is emitted. -/
theorem empty_frame_passes : .data [] ∈ ((counted [.data []]).polls 1).1 := by decide

end FeOS.Authn
