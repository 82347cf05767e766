import FeOS.Spec.SyncRuns

/-! What every step of the syncs keeps. At most one call or loop has the sandbox's entry in hand,
and every run that is not closed has one keeper: the call or loop that has the entry it is of, or
that took it out of the map. -/

namespace FeOS.SyncRuns

open Function

def Stage.left : Stage → Option ℕ
  | starting => some 4
  | refused => some 2
  | started => some 3
  | syncing => some 2
  | synced => some 1
  | closed => none

def Stage.behind : Stage → ℕ
  | starting => 8
  | refused => 3
  | started => 7
  | syncing => 6
  | synced => 5
  | closed => 4

/-- How far `c` is from closing a run; none if that is not its to do. -/
def Phase.stage (p : Phase) (entries : ℕ → Entry) (r : ℕ) : Option ℕ := match p with
  | .own e cur s => if r = cur then s.left else if (entries e).queued = some r then some s.behind else none
  | .closing rs => if r ∈ rs then some (rs.idxOf r + 1) else none
  | .ending q => if r = q then some 1 else none
  | _ => none

variable {entries : ℕ → Entry} {e c' k : ℕ} {p : Phase} {procs : ℕ → Phase} {entry : Option ℕ}

theorem stage_own {cur r : ℕ} {s : Stage} : (Phase.own e cur s).stage entries r =
    if r = cur then s.left else if (entries e).queued = some r then some s.behind else none := rfl

def Phase.owns : Phase → Bool
  | .own .. => true
  | _ => false

/-- The phase is one in which a run has begun and is not closed. -/
def Phase.Runs (p : Phase) (r : ℕ) : Prop := match p with
  | .own _ cur s => cur = r ∧ (s = .syncing ∨ s = .synced)
  | _ => False

def World.ProcOk (w : World) (c : ℕ) : Phase → Prop
  | .idle | .called => w.given c = none
  | .own e r _ => e = c ∧ r < w.nextRun ∧ (w.entries c).queued ≠ some r ∧ (w.entries c).running.isSome
  | .closing rs => rs ≠ [] ∧ rs.Nodup
  | .ending _ => w.cancelled = true
  | .ended => True

structure Inv (w : World) : Prop where
  procs : ∀ c, w.ProcOk c (w.procs c)
  owner : ∀ c, w.entry = some c ↔ (w.procs c).owns = true
  keeper : ∀ r c, w.keeper r = some c ↔ ((w.procs c).stage w.entries r).isSome
  closed : ∀ r, (w.runs r).closed = if r < w.nextRun ∧ w.keeper r = none then 1 else 0
  fresh : ∀ r, w.nextRun ≤ r → w.keeper r = none ∧ w.began r = none
  begun : ∀ r c, w.keeper r = some c → ((w.began r).isSome ↔ (w.procs c).Runs r)
  skipped : ∀ r, r < w.nextRun → w.keeper r = none → w.began r = none → (w.runs r).err = some .canceled
  began_lt : ∀ r b, w.began r = some b → b < w.clock
  made_lt : ∀ c, w.made c < w.clock
  given : ∀ c r, w.given c = some r → r < w.nextRun ∧ ∀ b, w.began r = some b → w.made c < b

theorem inv_init : Inv World.init where
  procs c := rfl
  owner c := by simp [World.init, Phase.owns]
  keeper r c := by simp [World.init, Phase.stage]
  closed r := by simp [World.init]
  fresh r _ := ⟨rfl, rfl⟩
  begun r c h := by cases h
  skipped r h := absurd h (Nat.not_lt_zero r)
  began_lt r b h := by cases h
  made_lt c := Nat.one_pos
  given c r h := by cases h

inductive Acts (w : World) : Event → World → Prop
  | request {c} (hp : w.procs c = .idle) :
      Acts w (.request c) { w.setProc c .called with made := update w.made c w.clock, clock := w.clock + 1 }
  | join {c e q} (hp : w.procs c = .called) (hentry : w.entry = some e) (hq : (w.entries e).queued = some q) :
      Acts w (.enter c) { w.setProc c .ended with given := update w.given c (some q) }
  | queue {c e} (hp : w.procs c = .called) (hentry : w.entry = some e) (hq : (w.entries e).queued = none) :
      Acts w (.enter c) { (w.setProc c .ended).newRun c e with
        entries := update w.entries e { w.entries e with queued := some w.nextRun } }
  | new {c} (hp : w.procs c = .called) (hentry : w.entry = none) :
      Acts w (.enter c) { w.newRun c c with
        procs := update w.procs c (.own c w.nextRun .starting)
        entries := update w.entries c ⟨some w.nextRun, none⟩
        entry := some c }
  | start {c r} (hp : w.procs c = .own c r .starting) :
      Acts w (.start c) (w.setProc c (.own c r (if w.bgDone then .refused else .started)))
  | abandon {c r} (hp : w.procs c = .own c r .refused) :
      Acts w (.abandon c) { w.setProc c (.closing (r :: (w.entries c).queued.toList)) with entry := none }
  | close {c r rs} (hp : w.procs c = .closing (r :: rs)) :
      Acts w (.close c) (((w.setErr r (some .canceled)).closeRun r).setProc c (if rs = [] then .ended else .closing rs))
  | begin {c r} (hp : w.procs c = .own c r .started) :
      Acts w (.begin c)
        { w.setProc c (.own c r .syncing) with began := update w.began r (some w.clock), clock := w.clock + 1 }
  | finish {c r err} (hp : w.procs c = .own c r .syncing) :
      Acts w (.finish c err) ((w.setErr r err).setProc c (.own c r .synced))
  | closeDone {c r} (hp : w.procs c = .own c r .synced) :
      Acts w (.closeDone c) ((w.closeRun r).setProc c (.own c r .closed))
  | last {c r} (hp : w.procs c = .own c r .closed) (hq : (w.entries c).queued = none) :
      Acts w (.check c) { w.setProc c .ended with entry := none }
  | drop {c r q} (hp : w.procs c = .own c r .closed) (hq : (w.entries c).queued = some q)
      (hcancelled : w.cancelled = true) :
      Acts w (.check c) { w.setProc c (.ending q) with entry := none }
  | take {c r q} (hp : w.procs c = .own c r .closed) (hq : (w.entries c).queued = some q) :
      Acts w (.check c) { w.setProc c (.own c q .started) with entries := update w.entries c ⟨some q, none⟩ }
  | endQueued {c q} (hp : w.procs c = .ending q) :
      Acts w (.endQueued c) (((w.setErr q (if w.cancelled then some .canceled else none)).closeRun q).setProc c .ended)
  | cancel : Acts w .cancel { w with cancelled := true }
  | done : Acts w .done { w with bgDone := true }

variable {w w' : World} {c r q : ℕ} {s : Stage}

namespace Inv
variable (h : Inv w)
include h

theorem own (hp : w.procs c = .own e r s) :
    e = c ∧ r < w.nextRun ∧ (w.entries c).queued ≠ some r ∧ (w.entries c).running.isSome :=
  (congrArg (w.ProcOk c) hp).mp (h.procs c)

theorem entry_own (hp : w.procs c = .own e r s) : w.entry = some c :=
  (h.owner c).2 (by rw [hp]; rfl)

theorem exists_own (hentry : w.entry = some e) : ∃ r s, w.procs e = .own e r s := by
  have howns := (h.owner e).1 hentry
  cases hp : w.procs e with
  | own e' r s =>
    obtain rfl := (h.own hp).1
    exact ⟨r, s, rfl⟩
  | _ =>
    rw [hp] at howns
    cases howns

theorem kept_lt (hk : w.keeper r = some c) : r < w.nextRun := by
  by_contra hge
  simp [(h.fresh r (not_lt.1 hge)).1] at hk

theorem keeper_run (hp : w.procs c = .own e r s) (hleft : s.left.isSome) : w.keeper r = some c := by
  rw [h.keeper, hp, stage_own, if_pos rfl, hleft]

theorem keeper_queued (hp : w.procs c = .own e r s) (hq : (w.entries c).queued = some q) :
    w.keeper q = some c := by
  obtain ⟨rfl, -, hapart, -⟩ := h.own hp
  have hne : q ≠ r := fun heq => hapart (heq ▸ hq)
  rw [h.keeper, hp, stage_own, if_neg hne, if_pos hq]
  rfl

theorem not_begun (hk : w.keeper r = some c) (hruns : ¬(w.procs c).Runs r) : w.began r = none :=
  Option.not_isSome_iff_eq_none.1 fun hb => hruns ((h.begun r c hk).1 hb)

theorem stage_update (entry : Entry) (hc : c' ≠ e) (r : ℕ) :
    (w.procs c').stage (update w.entries e entry) r = (w.procs c').stage w.entries r := by
  cases hp : w.procs c' with
  | own e' cur s =>
    obtain rfl := (h.own hp).1
    rw [stage_own, stage_own, update_of_ne hc]
  | _ => rfl

/-! What steps are made of -/

theorem owner_set (howns : (w.procs c).owns = p.owns) : ∀ c', w.entry = some c' ↔ (update w.procs c p c').owns = true :=
  (forall_update_iff w.procs fun c' p => w.entry = some c' ↔ p.owns = true).2 ⟨howns ▸ h.owner c, fun c' _ => h.owner c'⟩

theorem keeper_set (hstage : (p.stage w.entries r).isSome = ((w.procs c).stage w.entries r).isSome) :
    ∀ c', w.keeper r = some c' ↔ ((update w.procs c p c').stage w.entries r).isSome = true :=
  (forall_update_iff w.procs fun c' p => w.keeper r = some c' ↔ (p.stage w.entries r).isSome = true).2
    ⟨by rw [hstage, h.keeper], fun c' _ => h.keeper r c'⟩

theorem begun_set (hruns : (w.procs c).Runs r ↔ p.Runs r) :
    ∀ c', w.keeper r = some c' → ((w.began r).isSome ↔ (update w.procs c p c').Runs r) :=
  (forall_update_iff w.procs fun c' p => w.keeper r = some c' → ((w.began r).isSome ↔ p.Runs r)).2
    ⟨fun hk => (h.begun r c hk).trans hruns, fun c' _ => h.begun r c'⟩

theorem setProc (p : Phase) (entry : Option ℕ) (hok : w.ProcOk c p)
    (hentry : entry = some c ↔ p.owns = true) (hothers : ∀ c' ≠ c, entry = some c' ↔ w.entry = some c')
    (hstage : ∀ r, (p.stage w.entries r).isSome = ((w.procs c).stage w.entries r).isSome)
    (hruns : ∀ r, (w.procs c).Runs r ↔ p.Runs r) : Inv { w.setProc c p with entry := entry } where
  procs := (forall_update_iff w.procs w.ProcOk).2 ⟨hok, fun c' _ => h.procs c'⟩
  owner := (forall_update_iff w.procs fun c' p => entry = some c' ↔ p.owns = true).2
    ⟨hentry, fun c' hc => (hothers c' hc).trans (h.owner c')⟩
  keeper r := h.keeper_set (hstage r)
  closed := h.closed
  fresh := h.fresh
  begun r := h.begun_set (hruns r)
  skipped := h.skipped
  began_lt := h.began_lt
  made_lt := h.made_lt
  given := h.given

theorem stage {s' : Stage} (hp : w.procs c = .own c r s) (hleft : s'.left.isSome = s.left.isSome)
    (hruns : s = .syncing ∨ s = .synced ↔ s' = .syncing ∨ s' = .synced) : Inv (w.setProc c (.own c r s')) := by
  have hentry := h.entry_own hp
  refine h.setProc _ w.entry (h.own hp) (by simp [hentry, Phase.owns]) (fun _ _ => Iff.rfl) (fun r' => ?_) fun r' => ?_
  · rw [hp, stage_own, stage_own]
    split_ifs
    · exact hleft
    · rfl
    · rfl
  · rw [hp]
    exact and_congr_right fun _ => hruns

theorem setErr (hk : w.keeper r = some c) (err : Option Err) : Inv (w.setErr r err) :=
  { h with
    closed := (forall_update_iff w.runs fun r' run => run.closed = if r' < w.nextRun ∧ w.keeper r' = none then 1 else 0).2
      ⟨h.closed r, fun r' _ => h.closed r'⟩
    skipped := (forall_update_iff w.runs fun r' run =>
        r' < w.nextRun → w.keeper r' = none → w.began r' = none → run.err = some .canceled).2
      ⟨fun _ hnone => absurd hk (hnone ▸ nofun), fun r' _ => h.skipped r'⟩ }

theorem closeRun (hk : w.keeper r = some c) (hok : w.ProcOk c p)
    (howns : (w.procs c).owns = p.owns) (hclosed : p.stage w.entries r = none)
    (hstage : ∀ r' ≠ r, (p.stage w.entries r').isSome = ((w.procs c).stage w.entries r').isSome)
    (hruns : ∀ r' ≠ r, (w.procs c).Runs r' ↔ p.Runs r') (hend : w.began r = none → (w.runs r).err = some .canceled) :
    Inv ((w.closeRun r).setProc c p) where
  procs := (forall_update_iff w.procs w.ProcOk).2 ⟨hok, fun c' _ => h.procs c'⟩
  owner := h.owner_set howns
  keeper := by
    refine (forall_update_iff w.keeper fun r' k => ∀ c', k = some c' ↔
      ((update w.procs c p c').stage w.entries r').isSome = true).2
      ⟨?_, fun r' hr => ?_⟩
    · refine (forall_update_iff w.procs fun c' p => none = some c' ↔ (p.stage w.entries r).isSome = true).2 ⟨?_,
        fun c' hc => ?_⟩
      · simp [hclosed]
      · rw [← h.keeper, hk]
        simpa using Ne.symm hc
    · exact h.keeper_set (hstage r' hr)
  closed r' := by
    have hclosed' := h.closed r'
    change (update w.runs r _ r').closed = if r' < w.nextRun ∧ update w.keeper r none r' = none then 1 else 0
    by_cases hr : r' = r
    · subst hr
      rw [update_self, update_self, if_pos ⟨h.kept_lt hk, rfl⟩]
      rw [hk, if_neg (by simp)] at hclosed'
      exact congrArg Nat.succ hclosed'
    · rwa [update_of_ne hr, update_of_ne hr]
  fresh := (forall_update_iff w.keeper fun r' k => w.nextRun ≤ r' → k = none ∧ w.began r' = none).2
    ⟨fun hge => ⟨rfl, (h.fresh r hge).2⟩, fun r' _ => h.fresh r'⟩
  begun := (forall_update_iff w.keeper fun r' k => ∀ c', k = some c' →
    ((w.began r').isSome ↔ (update w.procs c p c').Runs r')).2
    ⟨nofun, fun r' hr => h.begun_set (hruns r' hr)⟩
  skipped := by
    refine (forall_update_iff w.runs fun r' run =>
      r' < w.nextRun → update w.keeper r none r' = none → w.began r' = none →
        run.err = some .canceled).2 ⟨fun _ _ => hend, ?_⟩
    intro r' hr hlt hnone
    rw [update_of_ne hr] at hnone
    exact h.skipped r' hlt hnone
  began_lt := h.began_lt
  made_lt := h.made_lt
  given := h.given

/-! The steps -/

theorem request (hp : w.procs c = .idle) :
    Inv { w.setProc c .called with made := update w.made c w.clock, clock := w.clock + 1 } := by
  have hnone : w.given c = none := (congrArg (w.ProcOk c) hp).mp (h.procs c)
  have hmoved := h.setProc .called w.entry hnone (by simp [h.owner, hp, Phase.owns]) (fun _ _ => Iff.rfl)
    (fun r => by rw [hp]; rfl) fun r => by rw [hp]; rfl
  exact
    { hmoved with
      began_lt := fun r b hb => (h.began_lt r b hb).trans (Nat.lt_succ_self _)
      made_lt := (forall_update_iff w.made fun _ m => m < w.clock + 1).2
        ⟨Nat.lt_succ_self _, fun c' _ => (h.made_lt c').trans (Nat.lt_succ_self _)⟩
      given := (forall_update_iff w.made fun c' m => ∀ r, w.given c' = some r → r < w.nextRun ∧
        ∀ b, w.began r = some b → m < b).2
        ⟨fun r hr => absurd hr (hnone ▸ nofun), fun c' _ => h.given c'⟩ }

theorem begin (hp : w.procs c = .own c r .started) :
    Inv { w.setProc c (.own c r .syncing) with began := update w.began r (some w.clock), clock := w.clock + 1 } := by
  have hk := h.keeper_run hp rfl
  refine
    { h with
      procs := (forall_update_iff w.procs w.ProcOk).2 ⟨h.own hp, fun c' _ => h.procs c'⟩
      owner := h.owner_set (by rw [hp]; rfl)
      keeper := fun r' => h.keeper_set ?_
      fresh := (forall_update_iff w.began fun r' b => w.nextRun ≤ r' → w.keeper r' = none ∧ b = none).2
        ⟨fun hge => absurd (h.kept_lt hk) (not_lt.2 hge), fun r' _ => h.fresh r'⟩
      begun := (forall_update_iff w.began fun r' b => ∀ c', w.keeper r' = some c' →
          (b.isSome ↔ (update w.procs c (.own c r .syncing) c').Runs r')).2 ⟨fun c' hk' => ?_, fun r' hr => ?_⟩
      skipped := (forall_update_iff w.began fun r' b => r' < w.nextRun → w.keeper r' = none → b = none →
        (w.runs r').err = _).2
        ⟨fun _ hnone => absurd hk (hnone ▸ nofun), fun r' _ => h.skipped r'⟩
      began_lt := (forall_update_iff w.began fun _ began => ∀ b, began = some b → b < w.clock + 1).2
        ⟨fun b hb => Option.some.inj hb ▸ Nat.lt_succ_self _,
          fun r' _ b hb => (h.began_lt r' b hb).trans (Nat.lt_succ_self _)⟩
      made_lt := fun c' => (h.made_lt c').trans (Nat.lt_succ_self _)
      given := fun c' r' hr' => ⟨(h.given c' r' hr').1, (forall_update_iff w.began fun r' began =>
          w.given c' = some r' → ∀ b, began = some b → w.made c' < b).2
        ⟨fun _ b hb => Option.some.inj hb ▸ h.made_lt c', fun r' _ hr' => (h.given c' r' hr').2⟩ r' hr'⟩ }
  · rw [hp, stage_own, stage_own]
    split_ifs <;> rfl
  · obtain rfl : c = c' := Option.some.inj (hk.symm.trans hk')
    rw [update_self]
    exact iff_of_true rfl ⟨rfl, .inl rfl⟩
  · refine h.begun_set ?_
    rw [hp]
    simp [Phase.Runs, Ne.symm hr]

theorem closeDone (hp : w.procs c = .own c r .synced) : Inv ((w.closeRun r).setProc c (.own c r .closed)) := by
  have hk := h.keeper_run hp rfl
  have hbegan : (w.began r).isSome := (h.begun r c hk).2 (by rw [hp]; exact ⟨rfl, .inr rfl⟩)
  refine h.closeRun hk (h.own hp) (by rw [hp]; rfl) (by simp [stage_own, Stage.left]) (fun r' hne => ?_)
    (fun r' hne => ?_) fun hnone => ?_
  · rw [hp, stage_own, stage_own, if_neg hne, if_neg hne]
    split_ifs <;> rfl
  · rw [hp]
    exact iff_of_false (fun hruns => hne hruns.1.symm) fun hruns => hne hruns.1.symm
  · simp [hnone] at hbegan

theorem abandon (hp : w.procs c = .own c r .refused) :
    Inv { w.setProc c (.closing (r :: (w.entries c).queued.toList)) with entry := none } := by
  obtain ⟨-, -, hapart, -⟩ := h.own hp
  have hnodup : (r :: (w.entries c).queued.toList).Nodup := by
    cases hq : (w.entries c).queued with
    | none => simp
    | some q =>
      rw [hq] at hapart
      simpa using fun heq : r = q => hapart (congrArg some heq.symm)
  refine h.setProc _ none ⟨List.cons_ne_nil _ _, hnodup⟩ (by simp [Phase.owns]) (fun c' hc => ?_) (fun r' => ?_) fun r' => ?_
  · rw [h.entry_own hp]
    simpa using Ne.symm hc
  · rw [hp, Phase.stage, Phase.stage]
    by_cases hr : r' = r
    · simp [hr, Stage.left]
    · rw [if_neg hr]
      cases (w.entries c).queued with
      | none => simp [hr]
      | some q => by_cases hq : q = r' <;> simp [hr, hq, Ne.symm]
  · rw [hp]
    simp [Phase.Runs]

theorem close {rs : List ℕ} (hp : w.procs c = .closing (r :: rs)) :
    Inv (((w.setErr r (some .canceled)).closeRun r).setProc c (if rs = [] then .ended else .closing rs)) := by
  have hok : w.ProcOk c (.closing (r :: rs)) := hp ▸ h.procs c
  obtain ⟨hnot, hnodup⟩ := List.nodup_cons.1 hok.2
  have hk : w.keeper r = some c := by
    rw [h.keeper, hp, Phase.stage, if_pos List.mem_cons_self]
    rfl
  have hstage : ∀ r', Phase.stage (if rs = [] then .ended else .closing rs) w.entries r' =
      (Phase.closing rs).stage w.entries r' := by
    intro r'
    split_ifs with hnil
    · rw [hnil]
      rfl
    · rfl
  refine (h.setErr hk _).closeRun hk ?_ ?_ ?_ (fun r' hne => ?_) (fun r' hne => ?_) fun _ => ?_
  · split_ifs with hnil
    · exact trivial
    · exact ⟨hnil, hnodup⟩
  · change (w.procs c).owns = _
    rw [hp]
    split_ifs <;> rfl
  · exact (hstage r).trans (if_neg hnot)
  · change _ = ((w.procs c).stage w.entries r').isSome
    rw [hp]
    refine (congrArg Option.isSome (hstage r')).trans ?_
    by_cases hmem : r' ∈ rs <;> simp [Phase.stage, hmem, hne]
  · change (w.procs c).Runs r' ↔ _
    rw [hp]
    split_ifs <;> rfl
  · change (update w.runs r _ r).err = _
    rw [update_self]

theorem endQueued (hp : w.procs c = .ending q) :
    Inv (((w.setErr q (if w.cancelled then some .canceled else none)).closeRun q).setProc c .ended) := by
  have hcancelled : w.cancelled = true := (congrArg (w.ProcOk c) hp).mp (h.procs c)
  have hk : w.keeper q = some c := by
    rw [h.keeper, hp, Phase.stage, if_pos rfl]
    rfl
  refine (h.setErr hk _).closeRun hk trivial ?_ rfl (fun r' hne => ?_) (fun r' hne => ?_) fun _ => ?_
  · change (w.procs c).owns = _
    rw [hp]
    rfl
  · change _ = ((w.procs c).stage w.entries r').isSome
    rw [hp, Phase.stage, if_neg hne]
    rfl
  · change (w.procs c).Runs r' ↔ _
    rw [hp]
    rfl
  · change (update w.runs q _ q).err = _
    rw [update_self, if_pos hcancelled]

theorem takeQueued (hp : w.procs c = .own c r .closed) (hq : (w.entries c).queued = some q) :
    Inv { w.setProc c (.own c q .started) with entries := update w.entries c ⟨some q, none⟩ } := by
  obtain ⟨-, -, hapart, -⟩ := h.own hp
  have hkq := h.keeper_queued hp hq
  have hself : update w.entries c ⟨some q, none⟩ c = ⟨some q, none⟩ := update_self ..
  have hstage : ∀ r', ((Phase.own c q .started).stage (update w.entries c ⟨some q, none⟩) r').isSome =
      ((w.procs c).stage w.entries r').isSome := by
    intro r'
    have hne : q ≠ r := fun heq => hapart (heq ▸ hq)
    rw [hp, stage_own, stage_own, hself, hq]
    by_cases hrq : r' = q
    · rw [if_pos hrq, if_neg (fun heq => hne (hrq.symm.trans heq)), if_pos (congrArg some hrq.symm)]
      rfl
    · rw [if_neg hrq, if_neg nofun, if_neg (fun heq : some q = some r' => hrq (Option.some.inj heq).symm)]
      split_ifs <;> rfl
  refine
    { h with
      procs := (forall_update_iff w.procs fun c' p => World.ProcOk { w with entries := _ } c' p).2
        ⟨⟨rfl, h.kept_lt hkq, ?_⟩, fun c' hc => ?_⟩
      owner := h.owner_set (by rw [hp]; rfl)
      keeper := fun r' => (forall_update_iff w.procs fun c' p => w.keeper r' = some c' ↔ (p.stage _ r').isSome = true).2
        ⟨by rw [hstage, h.keeper], fun c' hc => by rw [h.stage_update _ hc, h.keeper]⟩
      begun := fun r' => h.begun_set ?_ }
  · change (update w.entries c _ c).queued ≠ some q ∧ (update w.entries c _ c).running.isSome
    rw [hself]
    exact ⟨nofun, rfl⟩
  · have hok := h.procs c'
    cases hp' : w.procs c' with
    | own e cur s =>
      rw [hp'] at hok
      refine ⟨hok.1, hok.2.1, ?_⟩
      change (update w.entries c _ c').queued ≠ some cur ∧ (update w.entries c _ c').running.isSome
      rw [update_of_ne hc]
      exact hok.2.2
    | _ =>
      rwa [hp'] at hok
  · rw [hp]
    simp [Phase.Runs]

theorem leave (hp : w.procs c = .own c r .closed) (hok : w.ProcOk c p) (howns : p.owns = false)
    (hruns : ∀ r, ¬p.Runs r) (hstage : ∀ r', (p.stage w.entries r').isSome = decide ((w.entries c).queued = some r')) :
    Inv { w.setProc c p with entry := none } := by
  refine h.setProc p none hok (by simp [howns]) (fun c' hc => ?_) (fun r' => ?_) fun r' => ?_
  · rw [h.entry_own hp]
    simpa using Ne.symm hc
  · rw [hstage, hp, stage_own]
    by_cases hr : r' = r
    · rw [if_pos hr, hr, decide_eq_false (h.own hp).2.2.1]
      rfl
    · rw [if_neg hr]
      by_cases hq : (w.entries c).queued = some r' <;> simp [hq]
  · rw [hp]
    exact iff_of_false (fun hr => hr.2.elim nofun nofun) (hruns r')

/-! The first section -/

theorem endCall (hp : w.procs c = .called) : Inv (w.setProc c .ended) :=
  h.setProc .ended w.entry trivial (by rw [h.owner, hp]; simp [Phase.owns]) (fun _ _ => Iff.rfl)
    (fun r => by rw [hp]; rfl) fun r => by rw [hp]; rfl

theorem join (hp : w.procs c = .called) (hentry : w.entry = some e) (hq : (w.entries e).queued = some q) :
    Inv { w.setProc c .ended with given := update w.given c (some q) } := by
  obtain ⟨r, s, hown⟩ := h.exists_own hentry
  have hkq := h.keeper_queued hown hq
  have hruns : ¬(w.procs e).Runs q := by
    rw [hown]
    exact fun hruns => (h.own hown).2.2.1 (hruns.1 ▸ hq)
  refine
    { h.endCall hp with
      procs := (forall_update_iff w.procs fun c' p => World.ProcOk { w with given := _ } c' p).2 ⟨trivial, fun c' hc => ?_⟩
      given := (forall_update_iff w.given fun c' g => ∀ r, g = some r → r < w.nextRun ∧ ∀ b, w.began r = some b →
        w.made c' < b).2
        ⟨fun r hr => ?_, fun c' _ => h.given c'⟩ }
  · have hok := h.procs c'
    cases hp' : w.procs c' with
    | idle | called =>
      rw [hp'] at hok
      exact (update_of_ne hc _ _).trans hok
    | _ =>
      rwa [hp'] at hok
  · cases hr
    refine ⟨h.kept_lt hkq, fun b hb => ?_⟩
    simp [h.not_begun hkq hruns] at hb

theorem newRun
    (hprocs : ∀ c', World.ProcOk { w.newRun c k with procs := procs, entries := entries, entry := entry } c' (procs c'))
    (howner : ∀ c', entry = some c' ↔ (procs c').owns = true)
    (hnew : ∀ c', k = c' ↔ ((procs c').stage entries w.nextRun).isSome)
    (hidle : ∀ c', ¬(procs c').Runs w.nextRun)
    (hold : ∀ c' r, r ≠ w.nextRun → ((procs c').stage entries r).isSome = ((w.procs c').stage w.entries r).isSome)
    (hruns : ∀ c' r, r ≠ w.nextRun → ((w.procs c').Runs r ↔ (procs c').Runs r)) :
    Inv { w.newRun c k with procs := procs, entries := entries, entry := entry } where
  procs := hprocs
  owner := howner
  keeper := (forall_update_iff w.keeper fun r k => ∀ c', k = some c' ↔ ((procs c').stage entries r).isSome = true).2
    ⟨fun c' => by rw [Option.some.injEq, hnew], fun r hr c' => by rw [h.keeper, hold c' r hr]⟩
  closed r := by
    change (update w.runs w.nextRun ⟨0, none⟩ r).closed =
      if r < w.nextRun + 1 ∧ update w.keeper w.nextRun (some k) r = none then 1 else 0
    by_cases hr : r = w.nextRun
    · subst hr
      rw [update_self, update_self, if_neg (by simp)]
    · have hlt : r < w.nextRun + 1 ↔ r < w.nextRun := by omega
      rw [update_of_ne hr, update_of_ne hr, h.closed r]
      simp only [hlt]
  fresh r hge := by
    have hlt : w.nextRun < r := hge
    have hfresh := h.fresh r hlt.le
    exact ⟨(update_of_ne hlt.ne' _ _).trans hfresh.1, hfresh.2⟩
  begun := (forall_update_iff w.keeper fun r k => ∀ c', k = some c' → ((w.began r).isSome ↔ (procs c').Runs r)).2
    ⟨fun c' _ => iff_of_false (by rw [(h.fresh _ le_rfl).2]; nofun) (hidle c'),
      fun r hr c' hk => (h.begun r c' hk).trans (hruns c' r hr)⟩
  skipped r hlt hnone hbegan := by
    have hr : r ≠ w.nextRun := by
      rintro rfl
      exact absurd (hnone.symm.trans (update_self ..)) nofun
    have hold : w.keeper r = none := (update_of_ne hr _ _).symm.trans hnone
    exact (congrArg Run.err (update_of_ne hr _ _)).trans
      (h.skipped r (lt_of_le_of_ne (Nat.lt_succ_iff.1 hlt) hr) hold hbegan)
  began_lt := h.began_lt
  made_lt := h.made_lt
  given := by
    refine (forall_update_iff w.given fun c' g => ∀ r, g = some r → r < w.nextRun + 1 ∧ ∀ b, w.began r = some b →
      w.made c' < b).2
      ⟨fun r hr => ?_, fun c' _ r hr => ?_⟩
    · cases hr
      refine ⟨Nat.lt_succ_self _, fun b hb => ?_⟩
      simp [(h.fresh _ le_rfl).2] at hb
    · exact (h.given c' r hr).imp_left fun hlt => hlt.trans (Nat.lt_succ_self _)

end Inv

theorem World.ProcOk.newRun (hok : w.ProcOk c' p) (hc : c' ≠ c)
    (hentries : ∀ e r s, p = .own e r s → (entries c').queued ≠ some r ∧ (entries c').running.isSome) :
    World.ProcOk { w.newRun c k with procs := procs, entries := entries, entry := entry } c' p := by
  cases p with
  | idle | called => exact (update_of_ne hc _ _).trans hok
  | own e r s => exact ⟨hok.1, hok.2.1.trans (Nat.lt_succ_self _), hentries e r s rfl⟩
  | closing rs => exact hok
  | ending q => exact hok
  | ended => exact trivial

theorem Inv.not_kept (h : Inv w) (c : ℕ) : ¬((w.procs c).stage w.entries w.nextRun).isSome := by
  rw [← h.keeper, (h.fresh _ le_rfl).1]
  nofun

theorem Inv.enterNew (h : Inv w) (hp : w.procs c = .called) (hentry : w.entry = none) :
    Inv { w.newRun c c with
      procs := update w.procs c (.own c w.nextRun .starting)
      entries := update w.entries c ⟨some w.nextRun, none⟩
      entry := some c } := by
  have hnot : ∀ c' e r s, w.procs c' ≠ .own e r s := fun c' e r s hp' => by
    have := h.entry_own hp'
    simp [hentry] at this
  have hself : update w.entries c ⟨some w.nextRun, none⟩ c = ⟨some w.nextRun, none⟩ := update_self ..
  refine h.newRun
    ((forall_update_iff w.procs fun c' p => World.ProcOk _ c' p).2 ⟨⟨rfl, Nat.lt_succ_self _, ?_⟩, fun c' hc => ?_⟩)
    ((forall_update_iff w.procs fun c' p => some c = some c' ↔ p.owns = true).2 ⟨by simp [Phase.owns], fun c' hc => ?_⟩)
    ((forall_update_iff w.procs fun c' p => c = c' ↔ (p.stage _ w.nextRun).isSome = true).2 ⟨?_, fun c' hc => ?_⟩)
    ((forall_update_iff w.procs fun _ p => ¬p.Runs w.nextRun).2 ⟨by simp [Phase.Runs], fun c' _ => ?_⟩)
    (fun c' r hr => (forall_update_iff w.procs fun c' p => (p.stage _ r).isSome = ((w.procs c').stage w.entries r).isSome).2
      ⟨?_, fun c' hc => by rw [h.stage_update _ hc]⟩ c')
    fun c' r hr => (forall_update_iff w.procs fun c' p => (w.procs c').Runs r ↔ p.Runs r).2 ⟨?_, fun _ _ => Iff.rfl⟩ c'
  · change (update w.entries c _ c).queued ≠ _ ∧ (update w.entries c _ c).running.isSome
    rw [hself]
    exact ⟨nofun, rfl⟩
  · exact (h.procs c').newRun hc fun e r s hp' => absurd hp' (hnot c' e r s)
  · rw [← h.owner, hentry]
    simpa using Ne.symm hc
  · simp [stage_own, Stage.left]
  · rw [h.stage_update _ hc]
    exact iff_of_false (Ne.symm hc) (h.not_kept c')
  · cases hp' : w.procs c' with
    | own e cur s => exact absurd hp' (hnot c' e cur s)
    | _ => exact fun hruns => hruns
  · rw [stage_own, if_neg hr, hself, if_neg nofun, hp]
    rfl
  · rw [hp]
    simp [Phase.Runs]

theorem Inv.enterQueue (h : Inv w) (hp : w.procs c = .ended) (hentry : w.entry = some e) (hq : (w.entries e).queued = none) :
    Inv { w.newRun c e with entries := update w.entries e { w.entries e with queued := some w.nextRun } } := by
  obtain ⟨r₀, s, hown⟩ := h.exists_own hentry
  have hne := (h.own hown).2.1.ne
  change Inv { w.newRun c e with
    procs := w.procs
    entries := update w.entries e { w.entries e with queued := some w.nextRun }
    entry := w.entry }
  refine h.newRun (fun c' => ?_) h.owner (fun c' => ?_) (fun c' hruns => ?_) (fun c' r hr => ?_) fun c' r _ => Iff.rfl
  · by_cases hc : c' = c
    · subst hc
      rw [hp]
      trivial
    · refine (h.procs c').newRun hc fun e' r s hp' => ?_
      rw [update_apply]
      split_ifs with hce
      · exact ⟨fun heq => (h.own hp').2.1.ne (Option.some.inj heq).symm, hce ▸ (h.own hp').2.2.2⟩
      · exact (h.own hp').2.2
  · by_cases hc : c' = e
    · subst hc
      rw [hown, stage_own, if_neg hne.symm, update_self, if_pos rfl]
      simp
    · rw [h.stage_update _ hc]
      exact iff_of_false (Ne.symm hc) (h.not_kept c')
  · cases hp' : w.procs c' with
    | own e' cur s =>
      rw [hp'] at hruns
      exact (h.own hp').2.1.ne hruns.1
    | _ =>
      rwa [hp'] at hruns
  · by_cases hc : c' = e
    · subst hc
      have hnew : ¬some w.nextRun = some r := fun heq => hr (Option.some.inj heq).symm
      have hnone : ¬(w.entries c').queued = some r := by
        rw [hq]
        nofun
      rw [hown, stage_own, stage_own, update_self, if_neg hnew, if_neg hnone]
    · rw [h.stage_update _ hc]

theorem Inv.cancel (h : Inv w) : Inv { w with cancelled := true } :=
  { h with
    procs := fun c => by
      have hok := h.procs c
      cases hp : w.procs c with
      | ending q => exact rfl
      | _ =>
        rw [hp] at hok
        exact hok }

/-! Every step -/

theorem Inv.enter_acts (h : Inv w) (hs : w.enter c = some w') : Acts w (.enter c) w' := by
  unfold World.enter at hs
  split at hs
  · next hp =>
    cases hs
    cases hentry : w.entry with
    | none =>
      have hlookup : w.lookup c = { w with entry := some c, entries := update w.entries c ⟨none, none⟩ } := by
        rw [World.lookup, hentry]
      have hnew := Acts.new hp hentry
      rw [hlookup, Option.getD_some, World.enterEntry]
      simp only [update_self, update_idem]
      exact hnew
    | some e =>
      have hlookup : w.lookup c = w := by rw [World.lookup, hentry]
      obtain ⟨r, s, hown⟩ := h.exists_own hentry
      obtain ⟨r, hr⟩ := Option.isSome_iff_exists.1 (h.own hown).2.2.2
      rw [hlookup, hentry, Option.getD_some, World.enterEntry, hr]
      cases hq : (w.entries e).queued with
      | none => exact .queue hp hentry hq
      | some q => exact .join hp hentry hq
  · cases hs

theorem Inv.check_acts (h : Inv w) (hs : w.check c = some w') : Acts w (.check c) w' := by
  unfold World.check at hs
  split at hs
  · next e r hp =>
    obtain rfl := (h.own hp).1
    split at hs
    · next hq =>
      cases hs
      exact .last hp hq
    · next q hq =>
      split_ifs at hs with hcancelled
      · cases hs
        exact .drop hp hq hcancelled
      · cases hs
        exact .take hp hq
  · cases hs

theorem Inv.acts (h : Inv w) {e : Event} (hs : w.step e = some w') : Acts w e w' := by
  revert hs
  fun_cases World.step w e <;> intro hs
  case case1 c =>
    revert hs
    fun_cases World.request w c <;> rintro ⟨⟩
    next hp => exact .request hp
  case case2 c => exact h.enter_acts hs
  case case3 c =>
    revert hs
    fun_cases World.start w c <;> rintro ⟨⟩
    next e r hp =>
      obtain rfl := (h.own hp).1
      exact .start hp
  case case4 c =>
    revert hs
    fun_cases World.abandon w c <;> rintro ⟨⟩
    next e r hp =>
      obtain rfl := (h.own hp).1
      exact .abandon hp
  case case5 c =>
    revert hs
    fun_cases World.close w c <;> rintro ⟨⟩
    next r rs hp => exact .close hp
  case case6 c =>
    revert hs
    fun_cases World.begin w c <;> rintro ⟨⟩
    next e r hp =>
      obtain rfl := (h.own hp).1
      exact .begin hp
  case case7 c err =>
    revert hs
    fun_cases World.finish w c err <;> rintro ⟨⟩
    next e r hp =>
      obtain rfl := (h.own hp).1
      exact .finish hp
  case case8 c =>
    revert hs
    fun_cases World.closeDone w c <;> rintro ⟨⟩
    next e r hp =>
      obtain rfl := (h.own hp).1
      exact .closeDone hp
  case case9 c => exact h.check_acts hs
  case case10 c =>
    revert hs
    fun_cases World.endQueued w c <;> rintro ⟨⟩
    next q hp => exact .endQueued hp
  case case11 =>
    cases hs
    exact .cancel
  case case12 =>
    cases hs
    exact .done

theorem Acts.inv {e : Event} (ha : Acts w e w') (h : Inv w) : Inv w' := by
  cases ha with
  | request hp => exact h.request hp
  | join hp hentry hq => exact h.join hp hentry hq
  | queue hp hentry hq => exact (h.endCall hp).enterQueue (update_self ..) hentry hq
  | new hp hentry => exact h.enterNew hp hentry
  | start hp =>
    split_ifs
    · exact h.stage hp rfl (by simp)
    · exact h.stage hp rfl (by simp)
  | abandon hp => exact h.abandon hp
  | close hp => exact h.close hp
  | begin hp => exact h.begin hp
  | finish hp =>
    refine (h.setErr (h.keeper_run hp rfl) _).stage hp ?_ ?_
    · rfl
    · simp
  | closeDone hp => exact h.closeDone hp
  | last hp hq => exact h.leave (p := .ended) hp trivial rfl nofun fun r' => by simp [hq, Phase.stage]
  | drop hp hq hcancelled =>
    refine h.leave (p := .ending _) hp hcancelled rfl nofun fun r' => ?_
    rw [Phase.stage, hq]
    split_ifs with hr
    · simp [hr]
    · simp [Ne.symm hr]
  | take hp hq => exact h.takeQueued hp hq
  | endQueued hp => exact h.endQueued hp
  | cancel => exact h.cancel
  | done => exact { h with }

end FeOS.SyncRuns
