import FeOS.Lib.Fair
import FeOS.Sanity.SyncSteps

/-! Coalesced syncs cover every request. Each step of a run's keeper brings the run's end nearer
and no other step moves it away, so in every run of the system in which no call or loop stands
still for good, each run that a request was given is closed. -/

namespace FeOS.SyncRuns

open Function Runs

variable {w w' : World} {c r k : ℕ} {e : Event}

/-! How far a run's end is -/

def World.rank (w : World) (r : ℕ) : ℕ := (w.keeper r).elim 0 fun c => ((w.procs c).stage w.entries r).getD 0

/-- A call that was made, or its loop, that has not ended. -/
def World.Busy (w : World) (c : ℕ) : Prop := w.procs c ≠ .idle ∧ w.procs c ≠ .ended

/-- A step closes the run, or leaves it to its keeper, and nearer to its end if the step is the keeper's. -/
def Nearer (w : World) (e : Event) (w' : World) (r k : ℕ) : Prop :=
  w'.keeper r = none ∨ w'.keeper r = some k ∧ w'.rank r ≤ w.rank r ∧ (e.proc = some k → w'.rank r < w.rank r)

theorem Inv.rank_step {p : Phase} (h : Inv w) (he : e.proc = some c) (hk : w.keeper r = some k) (hk' : w'.keeper r = some k)
    (hprocs : w'.procs = update w.procs c p)
    (hentries : ∀ e ≠ c, (w'.entries e).queued = some r ↔ (w.entries e).queued = some r)
    (hnear : ∀ a, (w.procs c).stage w.entries r = some a → ∃ b < a, p.stage w'.entries r = some b) : Nearer w e w' r k := by
  have hrank : w.rank r = ((w.procs k).stage w.entries r).getD 0 := by rw [World.rank, hk]; rfl
  have hrank' : w'.rank r = ((w'.procs k).stage w'.entries r).getD 0 := by rw [World.rank, hk']; rfl
  refine .inr ⟨hk', ?_⟩
  by_cases hc : k = c
  · subst hc
    obtain ⟨a, ha⟩ := Option.isSome_iff_exists.1 ((h.keeper r k).1 hk)
    obtain ⟨b, hlt, hb⟩ := hnear a ha
    have hless : w'.rank r < w.rank r := by
      rw [hrank, hrank', hprocs, update_self, ha, hb]
      exact hlt
    exact ⟨hless.le, fun _ => hless⟩
  · have hsame : (w'.procs k).stage w'.entries r = (w.procs k).stage w.entries r := by
      rw [hprocs, update_of_ne hc]
      cases hp : w.procs k with
      | own e' cur s =>
        obtain rfl := (h.own hp).1
        simp only [stage_own, hentries _ hc]
      | _ => rfl
    refine ⟨by rw [hrank, hrank', hsame], fun hek => ?_⟩
    rw [he, Option.some_inj] at hek
    exact absurd hek.symm hc

theorem stage_own_lt {entries : ℕ → Entry} {e cur a : ℕ} {s s' : Stage}
    (hleft : r = cur → ∃ b, s'.left = some b ∧ ∀ a, s.left = some a → b < a)
    (hbehind : s'.behind < s.behind) (ha : (Phase.own e cur s).stage entries r = some a) :
    ∃ b < a, (Phase.own e cur s').stage entries r = some b := by
  rw [stage_own] at ha
  rw [stage_own]
  split_ifs at ha with hr hq
  · obtain ⟨b, hb, hlt⟩ := hleft hr
    exact ⟨b, hlt a ha, by rw [if_pos hr, hb]⟩
  · cases ha
    exact ⟨_, hbehind, by rw [if_neg hr, if_pos hq]⟩

theorem Inv.rank_close {p : Phase} {r₀ : ℕ} (h : Inv w) (he : e.proc = some c) (hk : w.keeper r = some k)
    (hkeeper : w'.keeper = update w.keeper r₀ none) (hprocs : w'.procs = update w.procs c p)
    (hentries : w'.entries = w.entries)
    (hnear : r ≠ r₀ → ∀ a, (w.procs c).stage w.entries r = some a → ∃ b < a, p.stage w.entries r = some b) :
    Nearer w e w' r k := by
  by_cases hr : r = r₀
  · left
    rw [hkeeper, hr, update_self]
  · refine h.rank_step he hk ?_ hprocs (by simp [hentries]) (hentries ▸ hnear hr)
    rw [hkeeper, update_of_ne hr, hk]

theorem stage_closed {entries : ℕ → Entry} {cur a : ℕ} (ha : (Phase.own c cur .closed).stage entries r = some a) :
    (entries c).queued = some r ∧ a = 4 := by
  rw [stage_own] at ha
  split_ifs at ha with hr hq
  · cases ha
  · cases ha
    exact ⟨hq, rfl⟩

theorem Acts.rank (ha : Acts w e w') (h : Inv w) (hk : w.keeper r = some k) : Nearer w e w' r k := by
  have hne := (h.kept_lt hk).ne
  have hnew : ∀ c, update w.keeper w.nextRun (some c) r = some k := fun c => by rw [update_of_ne hne, hk]
  have hsame : ∀ c, ∀ e ≠ c, (w.entries e).queued = some r ↔ (w.entries e).queued = some r := fun _ _ _ => Iff.rfl
  -- a call that has no run yet keeps none
  have hnone : ∀ {c p entries}, w.procs c = .idle ∨ w.procs c = .called →
      ∀ a, (w.procs c).stage w.entries r = some a → ∃ b < a, Phase.stage p entries r = some b := by
    rintro c p entries (hp | hp) a ha <;> rw [hp] at ha <;> cases ha
  cases ha with
  | request hp => exact h.rank_step rfl hk hk rfl (hsame _) (hnone (.inl hp))
  | join hp => exact h.rank_step rfl hk hk rfl (hsame _) (hnone (.inr hp))
  | @queue c e hp hentry hq =>
    refine h.rank_step rfl hk (hnew e) rfl (fun e' _ => ?_) (hnone (.inr hp))
    change (update w.entries e _ e').queued = some r ↔ _
    rw [update_apply]
    split_ifs with he
    · rw [he, hq]
      simpa using hne.symm
    · rfl
  | @new c hp hentry =>
    refine h.rank_step rfl hk (hnew c) rfl (fun e' he => ?_) (hnone (.inr hp))
    change (update w.entries c _ e').queued = some r ↔ _
    rw [update_of_ne he]
  | start hp =>
    refine h.rank_step rfl hk hk rfl (hsame _) fun a ha => ?_
    rw [hp] at ha
    split_ifs
    · exact stage_own_lt (fun _ => ⟨2, rfl, by simp [Stage.left]⟩) (by decide) ha
    · exact stage_own_lt (fun _ => ⟨3, rfl, by simp [Stage.left]⟩) (by decide) ha
  | abandon hp =>
    refine h.rank_step rfl hk hk rfl (hsame _) fun a ha => ?_
    rw [hp, stage_own] at ha
    split_ifs at ha with hr hq
    · cases ha
      exact ⟨1, by decide, by simp [Phase.stage, hr]⟩
    · cases ha
      exact ⟨2, by decide, by simp [Phase.stage, hq, Ne.symm hr]⟩
  | @close c r₀ rs hp =>
    refine h.rank_close rfl hk rfl rfl rfl fun hr a ha => ?_
    rw [hp, Phase.stage] at ha
    split_ifs at ha with hmem
    have hrest : r ∈ rs := (List.mem_cons.1 hmem).resolve_left hr
    cases ha
    refine ⟨rs.idxOf r + 1, by simp [Ne.symm hr], ?_⟩
    rw [if_neg (List.ne_nil_of_mem hrest)]
    exact if_pos hrest
  | begin hp =>
    refine h.rank_step rfl hk hk rfl (hsame _) fun a ha => ?_
    rw [hp] at ha
    exact stage_own_lt (fun _ => ⟨2, rfl, by simp [Stage.left]⟩) (by decide) ha
  | finish hp =>
    refine h.rank_step rfl hk hk rfl (hsame _) fun a ha => ?_
    rw [hp] at ha
    exact stage_own_lt (fun _ => ⟨1, rfl, by simp [Stage.left]⟩) (by decide) ha
  | closeDone hp =>
    refine h.rank_close rfl hk rfl rfl rfl fun hr a ha => ?_
    rw [hp] at ha
    exact stage_own_lt (fun heq => absurd heq hr) (by decide) ha
  | last hp hq =>
    refine h.rank_step rfl hk hk rfl (hsame _) fun a ha => ?_
    rw [hp] at ha
    rw [(stage_closed ha).1] at hq
    cases hq
  | drop hp hq =>
    refine h.rank_step rfl hk hk rfl (hsame _) fun a ha => ?_
    rw [hp] at ha
    obtain ⟨hr, rfl⟩ := stage_closed ha
    exact ⟨1, by decide, if_pos (Option.some.inj (hr.symm.trans hq))⟩
  | @take c cur q hp hq =>
    refine h.rank_step rfl hk hk rfl (fun e he => ?_) fun a ha => ?_
    · change (update w.entries c _ e).queued = some r ↔ _
      rw [update_of_ne he]
    · rw [hp] at ha
      obtain ⟨hr, rfl⟩ := stage_closed ha
      exact ⟨3, by decide, if_pos (Option.some.inj (hr.symm.trans hq))⟩
  | endQueued hp =>
    refine h.rank_close rfl hk rfl rfl rfl fun hr a ha => ?_
    rw [hp, Phase.stage, if_neg hr] at ha
    cases ha
  | cancel => exact .inr ⟨hk, le_rfl, by rintro ⟨⟩⟩
  | done => exact .inr ⟨hk, le_rfl, by rintro ⟨⟩⟩

theorem Inv.busy_goes_on (h : Inv w) (hbusy : w.Busy c) : ∃ e : Event, e.proc = some c ∧ (w.step e).isSome := by
  cases hp : w.procs c with
  | idle => exact absurd hp hbusy.1
  | called => exact ⟨.enter c, rfl, by simp [World.step, World.enter, hp]⟩
  | own e r s =>
    cases s with
    | starting => exact ⟨.start c, rfl, by simp [World.step, World.start, hp]⟩
    | refused => exact ⟨.abandon c, rfl, by simp [World.step, World.abandon, hp]⟩
    | started => exact ⟨.begin c, rfl, by simp [World.step, World.begin, hp]⟩
    | syncing => exact ⟨.finish c none, rfl, by simp [World.step, World.finish, hp]⟩
    | synced => exact ⟨.closeDone c, rfl, by simp [World.step, World.closeDone, hp]⟩
    | closed =>
      refine ⟨.check c, rfl, ?_⟩
      simp only [World.step, World.check, hp]
      cases (w.entries e).queued with
      | none => rfl
      | some q => cases w.cancelled <;> rfl
  | closing rs =>
    have hok : w.ProcOk c (.closing rs) := hp ▸ h.procs c
    obtain ⟨r, rs, rfl⟩ := List.exists_cons_of_ne_nil hok.1
    exact ⟨.close c, rfl, by simp [World.step, World.close, hp]⟩
  | ending q => exact ⟨.endQueued c, rfl, by simp [World.step, World.endQueued, hp]⟩
  | ended => exact absurd hp hbusy.2

/-! Whole runs -/

theorem Inv.of_reach (h : Reach World.step (fun _ _ => True) World.init w) : Inv w :=
  h.invariant inv_init fun _ _ _ hinv _ hs => (hinv.acts hs).inv hinv

theorem Acts.nextRun_le (ha : Acts w e w') : w.nextRun ≤ w'.nextRun := by
  cases ha with
  | queue | new => exact Nat.le_succ _
  | _ => exact le_rfl

theorem Acts.closed (ha : Acts w e w') (hlt : r < w.nextRun) (hk : w.keeper r = none) : w'.keeper r = none := by
  have hclose : ∀ r₀, update w.keeper r₀ none r = none := by
    intro r₀
    rw [update_apply]
    split_ifs
    · rfl
    · exact hk
  cases ha with
  | queue | new => exact (update_of_ne hlt.ne _ _).trans hk
  | close | closeDone | endQueued => exact hclose _
  | _ => exact hk

theorem Acts.procs_of_ne (ha : Acts w e w') (hne : e.proc ≠ some c) : w'.procs c = w.procs c := by
  cases ha with
  | cancel | done => rfl
  | _ => exact update_of_ne (fun hc => hne (congrArg some hc.symm)) _ _

/-- In every state that is reached, at most one sync runs, the run that a request was given has begun
after the request was made or ended with the cancellation, no run is closed twice, and whoever has not
ended can go on. Where each of them does, every run that a request was given is closed in the end. -/
theorem syncs_cover_requests :
    (∀ w, Reach World.step (fun _ _ => True) World.init w →
      (∀ c c' e r e' r', w.procs c = .own e r .syncing → w.procs c' = .own e' r' .syncing → c = c') ∧
      (∀ c r, w.given c = some r → (∀ b, w.began r = some b → w.made c < b) ∧
        ((w.runs r).closed ≠ 0 → w.began r = none → (w.runs r).err = some .canceled)) ∧
      (∀ r, (w.runs r).closed ≤ 1) ∧ ∀ c, w.Busy c → ∃ e : Event, e.proc = some c ∧ (w.step e).isSome) ∧
    ∀ s e, Fair World.step World.init Event.proc World.Busy s e →
      ∀ n c r, (s n).given c = some r → ∃ m, ∀ k ≥ m, ((s k).runs r).closed = 1 := by
  refine ⟨fun w hreach => ?_, fun s e hfair n c r hgiven => ?_⟩
  · have h := Inv.of_reach hreach
    refine ⟨fun c c' e r e' r' hp hp' => ?_,
      fun c r hgiven => ⟨(h.given c r hgiven).2, fun hclosed hbegan => ?_⟩, fun r => ?_,
      fun c => h.busy_goes_on⟩
    · exact Option.some.inj ((h.entry_own hp).symm.trans (h.entry_own hp'))
    · rw [h.closed] at hclosed
      obtain ⟨hlt, hk⟩ := of_not_not fun hnot => hclosed (if_neg hnot)
      exact h.skipped r hlt hk hbegan
    · rw [h.closed]
      split_ifs <;> decide
  · -- a run without a keeper is closed, and one with a keeper comes to that
    have hend : ∀ n, (s n).keeper r = none → r < (s n).nextRun → ∃ m, ∀ k ≥ m, ((s k).runs r).closed = 1 := by
      intro n hk hlt
      refine ⟨n, fun k hle => ?_⟩
      have hstays := hfair.stays (I := fun w => r < w.nextRun ∧ w.keeper r = none)
          (fun w e w' hreach hw hs => ?_) ⟨hlt, hk⟩ hle
      · rw [(Inv.of_reach (hfair.reach k)).closed, if_pos hstays]
      · have ha := (Inv.of_reach hreach).acts hs
        exact ⟨hw.1.trans_le ha.nextRun_le, ha.closed hw.1 hw.2⟩
    have hlt := ((Inv.of_reach (hfair.reach n)).given c r hgiven).1
    cases hk : (s n).keeper r with
    | none => exact hend n hk hlt
    | some k =>
      have hleads : ∃ m ≥ n, r < (s m).nextRun ∧ (s m).keeper r = none := by
        refine hfair.leads_to (P := fun w => w.keeper r = some k) (Q := fun w => r < w.nextRun ∧ w.keeper r = none) k
          (fun w => w.rank r) (fun w e w' hreach hw hs => ?_) (fun w hreach hw => ?_) hk
        · have h := Inv.of_reach hreach
          exact ((h.acts hs).rank h hw).imp_left fun hnone => ⟨(h.kept_lt hw).trans_le (h.acts hs).nextRun_le, hnone⟩
        · have hsome := ((Inv.of_reach hreach).keeper r k).1 hw
          refine ⟨fun hp => ?_, fun hp => ?_⟩
          · rw [hp] at hsome
            cases hsome
          · rw [hp] at hsome
            cases hsome
      obtain ⟨m, -, hlt, hk⟩ := hleads
      exact hend m hk hlt

def behindOne : List Event :=
  [.request 0, .enter 0, .start 0, .begin 0, .request 1, .enter 1, .finish 0 none, .closeDone 0, .check 0,
    .begin 0, .finish 0 none, .closeDone 0, .check 0]

def behindOneAt (n : ℕ) : Event := behindOne[n]?.getD .cancel

def behindOneRun : ℕ → World
  | 0 => World.init
  | n + 1 => ((behindOneRun n).step (behindOneAt n)).getD (behindOneRun n)

theorem behindOneAt_end {n : ℕ} (hn : 13 ≤ n) : behindOneAt n = .cancel := by
  rw [behindOneAt, List.getElem?_eq_none hn]
  rfl

theorem behindOneRun_step (n : ℕ) : (behindOneRun n).step (behindOneAt n) = some (behindOneRun (n + 1)) := by
  have hsome : ((behindOneRun n).step (behindOneAt n)).isSome := by
    by_cases hn : n < 13
    · exact (by decide +kernel : ∀ n < 13, ((behindOneRun n).step (behindOneAt n)).isSome) n hn
    · rw [behindOneAt_end (not_lt.1 hn)]
      rfl
  obtain ⟨w, hw⟩ := Option.isSome_iff_exists.1 hsome
  rw [behindOneRun, hw]
  rfl

theorem behindOneRun_inv (n : ℕ) : Inv (behindOneRun n) := by
  induction n with
  | zero => exact inv_init
  | succ n ih => exact (ih.acts (behindOneRun_step n)).inv ih

theorem behindOneRun_procs {n m : ℕ} (hle : n ≤ m) (hnot : ∀ i ≥ n, (behindOneAt i).proc ≠ some c) :
    (behindOneRun m).procs c = (behindOneRun n).procs c := by
  induction m, hle using Nat.le_induction with
  | base => rfl
  | succ m hm ih => rw [((behindOneRun_inv m).acts (behindOneRun_step m)).procs_of_ne (hnot m hm), ih]

theorem behindOne_fair : Fair World.step World.init Event.proc World.Busy behindOneRun behindOneAt := by
  refine ⟨rfl, behindOneRun_step, fun n c hbusy => ?_⟩
  by_contra hnot
  have hstill : ∀ i ≥ n, (behindOneAt i).proc ≠ some c := fun i hi hc => hnot ⟨i, hi, hc⟩
  by_cases hc : c < 2
  · -- both calls have ended when the trace ends, and step until then
    have hend : (behindOneRun (max n 13)).procs c = .ended := by
      rw [behindOneRun_procs (le_max_right n 13) fun i hi => by rw [behindOneAt_end hi]; nofun]
      exact (by decide +kernel : ∀ c < 2, (behindOneRun 13).procs c = .ended) c hc
    rw [behindOneRun_procs (le_max_left n 13) hstill] at hend
    exact hbusy.2 hend
  · have hothers : ∀ i ≥ 0, (behindOneAt i).proc ≠ some c := by
      intro i _ hi
      by_cases hlt : i < 13
      · exact hc ((by decide +kernel : ∀ i < 13, ∀ c ∈ (behindOneAt i).proc, c < 2) i hlt c hi)
      · rw [behindOneAt_end (not_lt.1 hlt)] at hi
        cases hi
    exact hbusy.1 (behindOneRun_procs (Nat.zero_le n) hothers)

theorem syncs_cover_requests_behind_one : (behindOneRun 6).given 0 = some 0 ∧ (behindOneRun 6).given 1 = some 1 ∧
    ((behindOneRun 9).began 1 = none ∧ (behindOneRun 10).began 1 = some 4 ∧ (behindOneRun 10).made 1 = 3) ∧
    ∃ m, ∀ k ≥ m, ((behindOneRun k).runs 1).closed = 1 :=
  ⟨by decide +kernel, by decide +kernel, by decide +kernel,
    syncs_cover_requests.2 _ _ behindOne_fair 6 1 1 (by decide +kernel)⟩

/-- The call or loop that has the sandbox's entry has the run, as the current one or the queued one. -/
def World.Entered (w : World) (c r : ℕ) : Prop :=
  w.entry = some c ∧ ∃ cur s, w.procs c = .own c cur s ∧ (r = cur ∨ (w.entries c).queued = some r)

/-- The entry is deleted, and the run is about to be closed. -/
def World.Ends (w : World) (c r : ℕ) : Prop := (∃ rs, w.procs c = .closing rs ∧ r ∈ rs) ∨ w.procs c = .ending r

theorem Inv.open_run (h : Inv w) (hr : r < w.nextRun) (hopen : (w.runs r).closed = 0) : ∃ c, w.Entered c r ∨ w.Ends c r := by
  obtain ⟨c, hc⟩ : ∃ c, w.keeper r = some c := by
    rw [← Option.ne_none_iff_exists']
    intro hnone
    rw [h.closed r, if_pos ⟨hr, hnone⟩] at hopen
    cases hopen
  have hstage := (h.keeper r c).1 hc
  refine ⟨c, ?_⟩
  cases hp : w.procs c with
  | own e cur s =>
    obtain ⟨rfl, -⟩ := h.own hp
    rw [hp, stage_own] at hstage
    refine .inl ⟨h.entry_own hp, cur, s, hp, ?_⟩
    split_ifs at hstage with hcur hq
    · exact .inl hcur
    · exact .inr hq
    · cases hstage
  | closing rs =>
    rw [hp] at hstage
    refine .inr (.inl ⟨rs, hp, ?_⟩)
    by_contra hmem
    simp [Phase.stage, hmem] at hstage
  | ending q =>
    rw [hp] at hstage
    refine .inr (.inr ?_)
    by_cases hq : r = q
    · rw [hp, hq]
    · simp [Phase.stage, hq] at hstage
  | _ => simp [hp, Phase.stage] at hstage

/-- However many requests come: a run that is not closed is the entry's current or queued one, or is being closed without
the entry; so at most two are not. -/
theorem requests_coalesce :
    (∀ w, Reach World.step (fun _ _ => True) World.init w → ∀ r < w.nextRun, (w.runs r).closed = 0 →
      ∃ c, w.Entered c r ∨ w.Ends c r) ∧
    ∀ w, Reach World.step (fun _ _ => True) World.init w → ∀ rs : Finset ℕ,
      (∀ r ∈ rs, r < w.nextRun ∧ (w.runs r).closed = 0 ∧ ∀ c, ¬ w.Ends c r) → rs.card ≤ 2 := by
  refine ⟨fun w h r hr hopen => (Inv.of_reach h).open_run hr hopen, fun w h rs hrs => ?_⟩
  have hentered : ∀ r ∈ rs, ∃ c, w.Entered c r := by
    intro r hr
    obtain ⟨hlt, hopen, hends⟩ := hrs r hr
    obtain ⟨c, hc⟩ := (Inv.of_reach h).open_run hlt hopen
    exact ⟨c, hc.resolve_right (hends c)⟩
  rcases rs.eq_empty_or_nonempty with rfl | ⟨r₀, hr₀⟩
  · exact Nat.zero_le _
  obtain ⟨c, hc, cur, s, hp, -⟩ := hentered r₀ hr₀
  refine (Finset.card_le_card (t := {cur, (w.entries c).queued.getD cur}) fun r hr => ?_).trans Finset.card_le_two
  obtain ⟨c', hc', cur', s', hp', hrun⟩ := hentered r hr
  cases hc.symm.trans hc'
  cases hp.symm.trans hp'
  rcases hrun with rfl | hq
  · exact Finset.mem_insert_self _ _
  · simp [hq]

/-- A request that comes while a run is made waits for the next run, as does the one after it. -/
theorem requests_coalesce_three : ∃ w, Reach World.step (fun _ _ => True) World.init w ∧ w.nextRun = 2 ∧
    ∃ c, w.Entered c 1 ∨ w.Ends c 1 := by
  obtain ⟨w, hreach, hnext, hopen⟩ : ∃ w, Reach World.step (fun _ _ => True) World.init w ∧ w.nextRun = 2 ∧
      (w.runs 1).closed = 0 :=
    exists_follow [.request 0, .enter 0, .start 0, .begin 0, .request 1, .enter 1, .request 2, .enter 2] (by decide +kernel)
  exact ⟨w, hreach, hnext, requests_coalesce.1 w hreach 1 (by omega) hopen⟩

end FeOS.SyncRuns
