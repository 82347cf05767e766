import FeOS.Spec.WireTable

/-! Parts that carry a table: their headers are the table's and then empty ones with the sequence
going on, and their items are the table's in order. A state that joins them ends as one that is
given the table at once. -/

namespace FeOS.Wire

open List State Table

variable {T : Kinds}

/-! Parts of a table -/

def Table.header (p : Table T) : Table T := { p with more := false, envs := [], removed := [] }

/-- The header of the `k`th part. -/
def head (t : Table T) (k : ℕ) : Table T :=
  if k = 0 then t.header else ⟨t.seq + UInt64.ofNat k, false, false, [], [], none, none, none, t.sentAt⟩

def Heads (t : Table T) (k : ℕ) (ps : List (Table T)) : Prop := ps.map header = (range' k ps.length).map (head t)

variable {t p : Table T} {k : ℕ} {ps : List (Table T)} {s : State T}

theorem heads_cons :
    Heads t k (p :: ps) ↔ p.header = head t k ∧ Heads t (k + 1) ps := by
  rw [Heads, Heads, map_cons, length_cons, range'_succ, map_cons, cons_eq_cons]

theorem heads_concat :
    Heads t k (ps ++ [p]) ↔ Heads t k ps ∧ p.header = head t (k + ps.length) := by
  induction ps generalizing k with
  | nil => simp [Heads]
  | cons q ps ih =>
    rw [cons_append, heads_cons, heads_cons, ih, length_cons, and_assoc, Nat.add_right_comm, Nat.add_assoc]

theorem head_seq (t : Table T) (k : ℕ) : (head t k).seq = t.seq + UInt64.ofNat k := by
  unfold head
  split_ifs with hk
  · subst hk
    exact (UInt64.add_zero _).symm
  · rfl

/-! Applying parts -/

/-- The message that a state makes of the parts it keeps and the next one. -/
def State.message (s : State T) (t : Table T) : Table T :=
  if t.whole then t else match s.parts with
    | some q => q.join t
    | none => t

def State.Accepts (s : State T) (t : Table T) : Prop := t.whole = true ∨ t.seq = (s.parts.elim s.seq Table.seq) + 1

theorem State.Accepts.apply_eq (h : s.Accepts t) : s.apply (some t) = s.take (s.message t) := by
  rw [apply, message]
  by_cases hwhole : t.whole = true
  · rw [if_pos hwhole, if_pos hwhole]
  · have hseq := h.resolve_left hwhole
    rw [if_neg hwhole, if_neg hwhole]
    cases hparts : s.parts with
    | none =>
      rw [hparts] at hseq
      exact if_neg (not_not.2 hseq)
    | some q =>
      rw [hparts] at hseq
      exact if_neg (not_not.2 hseq)

theorem State.accepts_of_apply {s' : State T} {m : Option (Table T)} (h : s.apply (some t) = (s', .ok m)) :
    s.Accepts t := by
  rw [apply] at h
  by_cases hwhole : t.whole = true
  · exact .inl hwhole
  · right
    rw [if_neg hwhole] at h
    cases hparts : s.parts with
    | none =>
      by_contra hseq
      rw [hparts] at h
      simp [if_pos (show t.seq ≠ s.seq + 1 from hseq)] at h
    | some q =>
      by_contra hseq
      rw [hparts] at h
      simp [if_pos (show t.seq ≠ q.seq + 1 from hseq)] at h

theorem State.applyAll_append (s : State T) (ps qs : List (Table T)) :
    s.applyAll (ps ++ qs) = (s.applyAll ps).bind fun s => s.applyAll qs := by
  induction ps generalizing s with
  | nil => rfl
  | cons p ps ih =>
    rw [cons_append, applyAll, applyAll]
    rcases s.apply (some p) with ⟨s', _ | m⟩
    · rfl
    · exact ih s'

theorem foldl_join {q : Table T} (hk : k ≠ 0) (hheads : Heads t k ps)
    (hseq : q.seq + 1 = t.seq + UInt64.ofNat k) :
    ps.foldl join q = { q with
      seq := q.seq + UInt64.ofNat ps.length
      more := ps.getLast?.elim q.more more
      envs := q.envs ++ ps.flatMap envs
      removed := q.removed ++ ps.flatMap removed } := by
  induction ps generalizing k q with
  | nil => simp
  | cons p ps ih =>
    obtain ⟨hp, hheads⟩ := heads_cons.1 hheads
    have hpseq : p.seq = q.seq + 1 := by
      rw [hseq, ← head_seq, ← hp]
      rfl
    rw [head, if_neg hk] at hp
    have hjoin : q.join p =
        { q with seq := q.seq + 1, more := p.more, envs := q.envs ++ p.envs, removed := q.removed ++ p.removed } := by
      have hmesh : p.mesh = none := congrArg Table.mesh hp
      have hself : p.self = none := congrArg Table.self hp
      have hchallenges : p.challenges = none := congrArg Table.challenges hp
      rw [join, hpseq, hmesh, hself, hchallenges]
      simp only [Option.none_or]
    have hseq' : (q.seq + 1) + 1 = t.seq + UInt64.ofNat (k + 1) := by
      rw [hseq, UInt64.ofNat_add, UInt64.add_assoc]
      rfl
    have hlast : (p :: ps).getLast?.elim q.more more = ps.getLast?.elim p.more more := by
      rw [getLast?_cons]
      cases ps.getLast? <;> rfl
    have hlength : q.seq + 1 + UInt64.ofNat ps.length = q.seq + UInt64.ofNat (p :: ps).length := by
      rw [length_cons, UInt64.ofNat_add, UInt64.add_assoc, UInt64.add_comm 1]
      rfl
    rw [foldl_cons, hjoin, hlast, ← hlength, flatMap_cons, flatMap_cons, ← append_assoc,
      ← append_assoc]
    exact ih (Nat.succ_ne_zero k) hheads hseq'

theorem State.applyAll_parts {q : Table T} (hk : k ≠ 0) (hheads : Heads t k ps)
    (hparts : s.parts = some q) (hseq : q.seq + 1 = t.seq + UInt64.ofNat k) (hmore : ∀ p ∈ ps, p.more = true) :
    s.applyAll ps = some { s with parts := some (ps.foldl join q) } := by
  induction ps generalizing s k q with
  | nil =>
    obtain ⟨_, _, _, _, _, _⟩ := s
    simp only at hparts
    rw [hparts]
    rfl
  | cons p ps ih =>
    obtain ⟨hp, hheads⟩ := heads_cons.1 hheads
    obtain ⟨hpmore, hmore⟩ := forall_mem_cons.1 hmore
    have hpseq : p.seq = q.seq + 1 := by
      rw [hseq, ← head_seq, ← hp]
      rfl
    rw [head, if_neg hk] at hp
    have hwhole : p.whole = false := congrArg whole hp
    have haccepts : s.Accepts p := .inr (by rw [hparts, hpseq]; rfl)
    have hmessage : s.message p = q.join p := by
      rw [message, if_neg (by rw [hwhole]; decide), hparts]
    have hjoin : (q.join p).more = true := hpmore
    rw [applyAll, haccepts.apply_eq, hmessage, take, if_pos hjoin, foldl_cons]
    refine ih (k := k + 1) (Nat.succ_ne_zero k) hheads rfl ?_ hmore
    change p.seq + 1 = _
    rw [hpseq, hseq, UInt64.ofNat_add, UInt64.add_assoc]
    rfl

/-- Parts that carry a table: their headers, their items in order, and more to come but for the
last. -/
structure Carries (t : Table T) (pre : List (Table T)) (last : Table T) : Prop where
  heads : Heads t 0 (pre ++ [last])
  more : ∀ p ∈ pre, p.more = true
  complete : last.more = false
  envs : (pre ++ [last]).flatMap envs = t.envs
  removed : (pre ++ [last]).flatMap removed = t.removed

theorem State.message_part (s : State T) (t : Table T) :
    ∃ envs removed, ∀ (more : Bool) (e : List (Env T)) (r : List String),
      s.message { t with more := more, envs := e, removed := r } =
        { s.message t with more := more, envs := envs ++ e, removed := removed ++ r } := by
  by_cases hwhole : t.whole = true
  · refine ⟨[], [], fun more e r => ?_⟩
    rw [message, message, if_pos hwhole, if_pos hwhole]
    rfl
  · cases hparts : s.parts with
    | none =>
      refine ⟨[], [], fun more e r => ?_⟩
      rw [message, message, if_neg hwhole, if_neg hwhole, hparts]
      rfl
    | some q =>
      refine ⟨q.envs, q.removed, fun more e r => ?_⟩
      rw [message, message, if_neg hwhole, if_neg hwhole, hparts]
      rfl

theorem State.message_seq (s : State T) (t : Table T) : (s.message t).seq = t.seq := by
  rw [message]
  split_ifs
  · rfl
  · split <;> rfl

theorem Table.eq_of_header (h : p.header = t.header) :
    p = { t with more := p.more, envs := p.envs, removed := p.removed } := by
  obtain ⟨_, _, _, _, _, _, _, _, _⟩ := p
  obtain ⟨_, _, _, _, _, _, _, _, _⟩ := t
  simp only [header, mk.injEq] at h ⊢
  simp [h]

theorem Carries.applyAll {last : Table T} {pre : List (Table T)} (h : Carries t pre last) (hmore : t.more = false)
    (haccepts : s.Accepts t) :
    (∀ ps, ps <+: pre → ∃ kept, s.applyAll ps = some { s with parts := kept }) ∧
      s.applyAll (pre ++ [last]) = some { s.put (s.message t) with seq := t.seq + UInt64.ofNat pre.length } := by
  obtain ⟨envs, removed, hpart⟩ := s.message_part t
  have hwholeMessage : { s.message t with more := false, envs := envs ++ t.envs, removed := removed ++ t.removed } =
      s.message t := by
    rw [← hpart false t.envs t.removed, ← hmore]
  have hempty : ∃ kept, s.applyAll [] = some { s with parts := kept } := ⟨s.parts, rfl⟩
  cases pre with
  | nil =>
    have heads := (heads_cons.1 h.heads).1
    have hlast : last = t := by
      have henvs : last.envs = t.envs := by simpa using h.envs
      have hremoved : last.removed = t.removed := by simpa using h.removed
      rw [eq_of_header (heads.trans (if_pos rfl)), h.complete, henvs, hremoved, ← hmore]
    refine ⟨fun ps hps => ?_, ?_⟩
    · rwa [prefix_nil.1 hps]
    · have hdone : ¬(s.message t).more = true := by
        rw [← hwholeMessage]
        exact Bool.false_ne_true
      rw [nil_append, hlast, State.applyAll, haccepts.apply_eq, State.take, if_neg hdone]
      have hseq : t.seq + UInt64.ofNat ([] : List (Table T)).length = (s.message t).seq := by
        rw [s.message_seq]
        exact UInt64.add_zero _
      rw [hseq]
      rfl
  | cons p mid =>
    have hp := (heads_cons.1 h.heads).1
    have hheads : Heads t 1 (mid ++ [last]) := (heads_cons.1 h.heads).2
    obtain ⟨hpmore, hmidmore⟩ := forall_mem_cons.1 h.more
    have hp : p = { t with more := true, envs := p.envs, removed := p.removed } := by
      have := eq_of_header (hp.trans (if_pos rfl))
      rwa [hpmore] at this
    -- the first part is kept, with what was kept before it
    have hfirst : s.apply (some p) = ({ s with parts := some (s.message p) }, .ok none) := by
      have haccepts' : s.Accepts p := by
        rwa [hp]
      have hmore' : (s.message p).more = true := by rw [hp, hpart]
      rw [haccepts'.apply_eq, State.take, if_pos hmore']
    have hseq : (s.message p).seq + 1 = t.seq + UInt64.ofNat 1 := by
      rw [s.message_seq, hp]
      rfl
    have hmid := (heads_concat.1 hheads).1
    refine ⟨fun ps hps => ?_, ?_⟩
    · cases ps with
      | nil => exact hempty
      | cons p' ps =>
        obtain ⟨rfl, rest, rfl⟩ := cons_prefix_cons.1 hps
        have hps : Heads t 1 ps := by
          rw [Heads, map_append, length_append, range'_append_1.symm, map_append] at hmid
          exact append_inj_left hmid (by simp)
        refine ⟨some (ps.foldl join (s.message p')), ?_⟩
        rw [State.applyAll, hfirst]
        exact applyAll_parts one_ne_zero hps rfl hseq fun q hq => hmidmore q (mem_append_left _ hq)
    · -- the last part completes them
      have hkept : s.applyAll (p :: mid) = some { s with parts := some (mid.foldl join (s.message p)) } := by
        rw [State.applyAll, hfirst]
        exact applyAll_parts one_ne_zero hmid rfl hseq hmidmore
      have hlastHead := (heads_concat.1 hheads).2
      rw [head, if_neg (by omega)] at hlastHead
      have hwhole : last.whole = false := congrArg whole hlastHead
      have hlastSeq : last.seq = t.seq + UInt64.ofNat (1 + mid.length) := congrArg Table.seq hlastHead
      have hjoined := foldl_join one_ne_zero hheads hseq
      rw [foldl_append, foldl_cons, foldl_nil, getLast?_concat] at hjoined
      have hmessage : message { s with parts := some (mid.foldl join (s.message p)) } last =
          { s.message t with seq := t.seq + UInt64.ofNat (p :: mid).length } := by
        rw [message, if_neg (by rw [hwhole]; decide)]
        dsimp only
        rw [hjoined, ← hwholeMessage, ← h.envs, ← h.removed, hp, hpart]
        simp [h.complete, s.message_seq]
      have haccepts' : Accepts { s with parts := some (mid.foldl join (s.message p)) } last := by
        right
        rw [foldl_join one_ne_zero hmid hseq, hlastSeq]
        change _ = (s.message p).seq + UInt64.ofNat mid.length + 1
        rw [UInt64.add_assoc, UInt64.add_comm (UInt64.ofNat mid.length), ← UInt64.add_assoc, hseq, UInt64.ofNat_add,
          UInt64.add_assoc]
      have hdone : ¬({ s.message t with seq := t.seq + UInt64.ofNat (p :: mid).length } : Table T).more = true := by
        rw [← hwholeMessage]
        exact Bool.false_ne_true
      rw [State.applyAll_append, hkept, Option.bind_some, State.applyAll, haccepts'.apply_eq, hmessage, State.take,
        if_neg hdone]
      rfl

end FeOS.Wire
