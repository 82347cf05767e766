import FeOS.Lib.Runs
import FeOS.Spec.CacheCalls
import FeOS.Sanity.Budget

/-! What the threads and the actor of the chunk cache keep: a chunk that a hold or a pin will
protect at every message in the queue is never unlinked. -/

namespace FeOS

open Linked List Budget Function

namespace Budget

variable {ι Hash : Type} {b b' : Budget Hash} {h : Hash} {id : ℕ} {queue : List (ι × Msg Hash)}

def Held (b : Budget Hash) (id : ℕ) (h : Hash) : Prop := ∃ hashes, b.holds.find id = some hashes ∧ h ∈ hashes

theorem SameWants.held (hs : SameWants b b') (hh : b.Held id h) : b'.Held id h := by
  unfold Held
  rwa [hs.holds]

theorem SameWants.asked (hs : SameWants b b') (msg : Msg Hash) : SameWants (b.asked msg) (b'.asked msg) := by
  cases msg with
  | pin keep order => exact ⟨hs.budget, rfl, hs.holds⟩
  | hold | release =>
    refine ⟨hs.budget, hs.pins, ?_⟩
    unfold Budget.asked
    rw [hs.holds]
  | _ => exact hs

theorem Held.asked (hh : b.Held id h) {msg : Msg Hash} (hne : ∀ order, msg ≠ .release id order) :
    (b.asked msg).Held id h := by
  cases msg with
  | hold id' hashes =>
    obtain ⟨held, hf, hmem⟩ := hh
    unfold Held Budget.asked
    rw [LinkedMap.find_insert]
    split_ifs with hid
    · subst hid
      rw [hf]
      exact ⟨_, rfl, mem_append_left _ hmem⟩
    · exact ⟨held, hf, hmem⟩
  | release id' order =>
    obtain ⟨held, hf, hmem⟩ := hh
    have hid : id ≠ id' := fun heq => hne order (by rw [heq])
    exact ⟨held, by unfold Budget.asked; rw [LinkedMap.find_erase, if_neg hid, hf], hmem⟩
  | _ => exact hh

theorem held_of_hold (hashes : List Hash) (hmem : h ∈ hashes) : (b.asked (.hold id hashes)).Held id h :=
  ⟨_, by unfold asked; rw [LinkedMap.find_insert, if_pos rfl], mem_append_right _ hmem⟩

def final (b : Budget Hash) (queue : List (ι × Msg Hash)) : Budget Hash := queue.foldl (fun b e => b.asked e.2) b

theorem SameWants.final (hs : SameWants b b') (queue : List (ι × Msg Hash)) :
    SameWants (b.final queue) (b'.final queue) := by
  induction queue generalizing b b' with
  | nil => exact hs
  | cons e queue ih => exact ih (hs.asked e.2)

theorem final_append (e : ι × Msg Hash) : b.final (queue ++ [e]) = (b.final queue).asked e.2 := by
  unfold final
  rw [foldl_append]
  rfl

variable [DecidableEq Hash]

theorem Held.wanted (hh : b.Held id h) : b.wanted h = true := wanted_eq_true.2 (.inr ⟨id, hh⟩)

/-- The chunk is wanted now and after every message of the queue. -/
def Steady (h : Hash) : Budget Hash → List (ι × Msg Hash) → Prop
  | b, [] => b.wanted h = true
  | b, e :: queue => b.wanted h = true ∧ Steady h (b.asked e.2) queue

theorem Steady.wanted : ∀ {queue : List (ι × Msg Hash)}, Steady h b queue → b.wanted h = true
  | [], hs => hs
  | _ :: _, hs => hs.1

theorem Steady.congr (hw : SameWants b b') (hs : Steady h b queue) : Steady h b' queue := by
  induction queue generalizing b b' with
  | nil => exact (hw.wanted h).trans hs
  | cons e queue ih => exact ⟨(hw.wanted h).trans hs.1, ih (hw.asked e.2) hs.2⟩

theorem Steady.append {e : ι × Msg Hash} (hs : Steady h b queue) (he : ((b.final queue).asked e.2).wanted h = true) :
    Steady h b (queue ++ [e]) := by
  induction queue generalizing b with
  | nil => exact ⟨hs, he⟩
  | cons e' queue ih => exact ⟨hs.1, ih hs.2 he⟩

theorem Held.steady (hh : b.Held id h) (hq : ∀ t order, (t, Msg.release id order) ∉ queue) : Steady h b queue := by
  induction queue generalizing b with
  | nil => exact hh.wanted
  | cons e queue ih =>
    refine ⟨hh.wanted, ih (hh.asked fun order he => ?_) fun t order hmem => hq t order (mem_cons_of_mem _ hmem)⟩
    exact hq e.1 order (by rw [← he]; exact mem_cons_self)

end Budget

def isHoldOf {ι Hash : Type} [DecidableEq ι] (t : ι) : ι × Msg Hash → Bool
  | (t', .hold _ _) => t' = t
  | _ => false

def Call.awaits {ι Hash : Type} (t : ι) : Call Hash → List (ι × Msg Hash)
  | .waiting hold chunks => [(t, .hold hold (chunks.map Prod.fst))]
  | _ => []

/-- What `pin` was last called with, once the event is over. -/
def CacheEvent.pins {ι Hash : Type} (pins : List Hash) : CacheEvent ι Hash → List Hash
  | .request _ r => r.pins pins
  | _ => pins

namespace SharedCache

variable {ι Hash : Type} [DecidableEq ι] [DecidableEq Hash] {s s' : SharedCache ι Hash} {t : ι} {h : Hash} {id : ℕ}

/-- What is done of a batch under a hold: all of it is held, and the files of the chunks before the
current one are there; the current one's too once it was found or renamed. -/
structure BatchOk (s : SharedCache ι Hash) (id : ℕ) (chunks left : List (Hash × ℕ)) (stage : ChunkStage) : Prop where
  held : ∀ c ∈ chunks, s.budget.Held id c.1
  done : ∀ c ∈ chunks, c ∈ left ∨ c.1 ∈ s.files
  suffix : left ⊆ chunks
  current : stage = .found ∨ stage = .renamed → ∀ c ∈ left.head?, c.1 ∈ s.files

structure Inv (s : SharedCache ι Hash) : Prop where
  sound : s.budget.Sound
  unwanted : ∀ h ∈ s.unlinks, s.budget.wanted h = false
  fresh : ∀ id ∈ s.live, id < s.nextHold
  released : ∀ t id order, (t, Msg.release id order) ∈ s.queue → id < s.nextHold ∧ id ∉ s.live
  borrowed : ∀ t id, (s.calls t).hold? = some id → id ∈ s.live
  waits : ∀ t, s.queue.filter (isHoldOf t) = (s.calls t).awaits t
  batch : ∀ t id chunks left stage, s.calls t = .batch (some id) chunks left stage → s.BatchOk id chunks left stage
  returned : ∀ id hashes, (id, hashes) ∈ s.returned → id < s.nextHold ∧
    (id ∈ s.live → ∀ h ∈ hashes, s.budget.Held id h ∧ h ∈ s.files)
  lastPin : (s.budget.final s.queue).pins = s.lastPin

theorem start_inv (budget : ℕ) (lru : LinkedMap Hash ℕ) : (start budget lru : SharedCache ι Hash).Inv where
  sound := init_sound budget lru
  unwanted := nofun
  fresh := fun _ hid => absurd hid (Finset.notMem_empty _)
  released := nofun
  borrowed := nofun
  waits := fun _ => rfl
  batch := nofun
  returned := nofun
  lastPin := rfl

/-! A thread's own steps -/

omit [DecidableEq ι] [DecidableEq Hash] in
theorem BatchOk.mono {id : ℕ} {chunks left : List (Hash × ℕ)} {stage : ChunkStage}
    (hb : s.BatchOk id chunks left stage) (hbudget : s'.budget = s.budget) (hfiles : s.files ⊆ s'.files) :
    s'.BatchOk id chunks left stage where
  held := hbudget ▸ hb.held
  done := fun c hc => (hb.done c hc).imp_right fun hmem => hfiles hmem
  suffix := hb.suffix
  current := fun hstage c hc => hfiles (hb.current hstage c hc)

theorem Inv.setCall (hi : s.Inv) {call : Call Hash} (hhold : ∀ id, call.hold? = some id → id ∈ s.live)
    (hwait : call.awaits t = (s.calls t).awaits t)
    (hbatch : ∀ id chunks left stage, call = .batch (some id) chunks left stage → s.BatchOk id chunks left stage) :
    (s.setCall t call).Inv := by
  refine { hi with borrowed := fun t' id hid => ?_, waits := fun t' => ?_, batch := fun t' id chunks left stage hc => ?_ }
  all_goals by_cases ht : t' = t
  · subst ht
    exact hhold id (by simpa [setCall] using hid)
  · exact hi.borrowed t' id (by simpa [SharedCache.setCall, ht] using hid)
  · subst ht
    simpa [setCall, hwait] using hi.waits t'
  · simpa [SharedCache.setCall, ht] using hi.waits t'
  · subst ht
    exact (hbatch id chunks left stage (by simpa [setCall] using hc)).mono rfl fun _ hx => hx
  · exact (hi.batch t' id chunks left stage (by simpa [SharedCache.setCall, ht] using hc)).mono rfl fun _ hx => hx

variable {msg : Msg Hash} {e : CacheEvent ι Hash}

omit [DecidableEq ι] in
theorem putFile_frame (h : Hash) (stage : ChunkStage) : ∃ files, s.files ⊆ files ∧ s.putFile h stage = { s with files } := by
  unfold putFile
  split
  · exact ⟨_, Finset.subset_insert _ _, rfl⟩
  · exact ⟨_, subset_rfl, rfl⟩

namespace Inv
variable (hi : s.Inv)
include hi

theorem send {lastPin : List Hash} (hhold : ∀ id hashes, msg ≠ .hold id hashes)
    (hrelease : ∀ id order, msg = .release id order → id < s.nextHold ∧ id ∉ s.live)
    (hpin : ((s.budget.final s.queue).asked msg).pins = lastPin) :
    ({ s.send t msg with lastPin := lastPin } : SharedCache ι Hash).Inv := by
  refine { hi with
    released := fun t' id order hmem => ?_
    waits := fun t' => ?_
    lastPin := ?_
    batch := fun t' id chunks left stage hc => (hi.batch t' id chunks left stage hc).mono rfl fun _ hx => hx }
  · rcases mem_append.1 hmem with hmem | hmem
    · exact hi.released t' id order hmem
    · exact hrelease id order (Prod.ext_iff.1 (mem_singleton.1 hmem)).2.symm
  · have hnot : isHoldOf t' (t, msg) = false := by
      cases msg with
      | hold id hashes => exact absurd rfl (hhold id hashes)
      | _ => rfl
    show (s.queue ++ [(t, msg)]).filter _ = _
    rw [filter_append, filter_singleton, hnot, hi.waits]
    exact append_nil _
  · rw [← hpin]
    exact congrArg _ (final_append (t, msg))

theorem putFile (h : Hash) (stage : ChunkStage) : (s.putFile h stage).Inv := by
  obtain ⟨files, hsub, heq⟩ := s.putFile_frame h stage
  rw [heq]
  refine { hi with batch := fun t' id chunks left stage hc => ?_, returned := fun id hashes hmem => ?_ }
  · exact (hi.batch t' id chunks left stage hc).mono rfl hsub
  · refine (hi.returned id hashes hmem).imp_right fun hr hid x hx => ?_
    exact (hr hid x hx).imp_right fun hx => hsub hx

theorem sendHold {chunks : List (Hash × ℕ)} (hc : s.calls t = .holding id chunks) :
    ((s.send t (.hold id (chunks.map Prod.fst))).setCall t (.waiting id chunks)).Inv := by
  have hlive : id ∈ s.live := hi.borrowed t id (by rw [hc]; rfl)
  refine { hi with
    released := fun t' id' order hmem => ?_
    borrowed := fun t' id' hid => ?_
    waits := fun t' => ?_
    lastPin := ?_
    batch := fun t' id' chunks' left stage hc' => ?_ }
  · rcases mem_append.1 hmem with hmem | hmem
    · exact hi.released t' id' order hmem
    · cases mem_singleton.1 hmem
  · by_cases ht : t' = t
    · subst ht
      have hid : some id = some id' := by simpa [SharedCache.setCall, Call.hold?] using hid
      exact Option.some.inj hid ▸ hlive
    · exact hi.borrowed t' id' (by simpa [SharedCache.setCall, SharedCache.send, ht] using hid)
  · show (s.queue ++ [(t, Msg.hold id (chunks.map Prod.fst))]).filter _ = _
    rw [filter_append, filter_singleton, hi.waits]
    by_cases ht : t' = t
    · subst ht
      simp [SharedCache.setCall, hc, Call.awaits, isHoldOf]
    · simp [SharedCache.setCall, SharedCache.send, ht, Ne.symm ht, isHoldOf]
  · by_cases ht : t' = t
    · subst ht
      simp [SharedCache.setCall] at hc'
    · refine BatchOk.mono (hi.batch t' id' chunks' left stage ?_) rfl fun _ hx => hx
      simpa [SharedCache.setCall, SharedCache.send, ht] using hc'
  · exact (congrArg pins (final_append (t, _))).trans hi.lastPin

theorem newHold :
    ({ s with nextHold := s.nextHold + 1, live := insert s.nextHold s.live } : SharedCache ι Hash).Inv := by
  refine { hi with
    fresh := fun id hid => ?_
    released := fun t id order hmem => ?_
    borrowed := fun t id hid => ?_
    returned := fun id hashes hmem => ?_
    batch := fun t' id chunks left stage hc => (hi.batch t' id chunks left stage hc).mono rfl fun _ hx => hx }
  · rcases Finset.mem_insert.1 hid with rfl | hid
    · exact Nat.lt_succ_self _
    · exact Nat.lt_succ_of_lt (hi.fresh id hid)
  · obtain ⟨hlt, hnot⟩ := hi.released t id order hmem
    refine ⟨Nat.lt_succ_of_lt hlt, fun hid => ?_⟩
    exact hnot ((Finset.mem_insert.1 hid).resolve_left hlt.ne)
  · exact Finset.mem_insert_of_mem (hi.borrowed t id hid)
  · obtain ⟨hlt, hr⟩ := hi.returned id hashes hmem
    refine ⟨Nat.lt_succ_of_lt hlt, fun hid => hr ?_⟩
    exact (Finset.mem_insert.1 hid).resolve_left hlt.ne

theorem dropHold (hlive : id ∈ s.live) (hown : ∀ t, (s.calls t).hold? ≠ some id)
    (order : WalkOrder Hash) :
    ({ s.send t (.release id order) with live := s.live.erase id } : SharedCache ι Hash).Inv := by
  have hdrop : ({ s with live := s.live.erase id } : SharedCache ι Hash).Inv := by
    refine { hi with
      fresh := fun id' hid => ?_
      released := fun t' id' order' hmem => ?_
      borrowed := fun t' id' hid => ?_
      returned := fun id' hashes hmem => ?_
      batch := fun t' id chunks left stage hc => (hi.batch t' id chunks left stage hc).mono rfl fun _ hx => hx }
    · exact hi.fresh id' (Finset.mem_of_mem_erase hid)
    · exact (hi.released t' id' order' hmem).imp_right fun hnot hid => hnot (Finset.mem_of_mem_erase hid)
    · refine Finset.mem_erase.2 ⟨?_, hi.borrowed t' id' hid⟩
      rintro rfl
      exact hown t' hid
    · exact (hi.returned id' hashes hmem).imp_right fun hr hid => hr (Finset.mem_of_mem_erase hid)
  have hrelease : ∀ id' order', Msg.release id order = .release id' order' →
      id' < s.nextHold ∧ id' ∉ s.live.erase id := by
    intro id' order' heq
    cases heq
    exact ⟨hi.fresh id hlive, Finset.notMem_erase _ _⟩
  exact hdrop.send (fun _ _ => nofun) hrelease hi.lastPin

theorem sendQuiet (hhold : ∀ id hashes, msg ≠ .hold id hashes)
    (hrelease : ∀ id order, msg ≠ .release id order) (hquiet : ∀ b : Budget Hash, b.asked msg = b) : (s.send t msg).Inv :=
  hi.send hhold (fun id order heq => absurd heq (hrelease id order)) ((congrArg pins (hquiet _)).trans hi.lastPin)

theorem sendAdmit (h : Hash) (len : ℕ) : (s.send t (.admitChunk h len)).Inv :=
  hi.sendQuiet (fun _ _ => nofun) (fun _ _ => nofun) fun _ => rfl

theorem sendTouch (h : Hash) : (s.send t (.touch h)).Inv :=
  hi.sendQuiet (fun _ _ => nofun) (fun _ _ => nofun) fun _ => rfl

theorem sendFound (hold : Option ℕ) (h : Hash) (len : ℕ) : (s.send t (foundMsg hold h len)).Inv := by
  cases hold with
  | none => exact hi.sendTouch h
  | some _ => exact hi.sendAdmit h len

theorem request (r : CacheRequest Hash) :
    ({ s.send t r.msg with lastPin := r.pins s.lastPin } : SharedCache ι Hash).Inv := by
  refine hi.send ?_ ?_ ?_
  · cases r <;> exact fun _ _ => nofun
  · cases r <;> exact fun _ _ => nofun
  · cases r <;> first | rfl | exact hi.lastPin

theorem setIdle (hwait : (s.calls t).awaits t = []) : (s.setCall t .idle).Inv :=
  hi.setCall nofun hwait.symm nofun

theorem returns {hashes : List Hash} (hlive : id ∈ s.live)
    (hall : ∀ h ∈ hashes, s.budget.Held id h ∧ h ∈ s.files) :
    ({ s with returned := (id, hashes) :: s.returned } : SharedCache ι Hash).Inv := by
  refine { hi with
    batch := fun t' id chunks left stage hc => (hi.batch t' id chunks left stage hc).mono rfl fun _ hx => hx
    returned := fun id' hashes' hmem => ?_ }
  rcases mem_cons.1 hmem with heq | hmem
  · cases heq
    exact ⟨hi.fresh id hlive, fun _ => hall⟩
  · exact hi.returned id' hashes' hmem

end Inv

section Batch

variable {chunks left : List (Hash × ℕ)} {stage : ChunkStage} {c : Hash × ℕ}

omit [DecidableEq ι] [DecidableEq Hash] in
theorem BatchOk.next (hb : s.BatchOk id chunks (c :: left) stage) (hstage : stage = .found ∨ stage = .renamed) :
    s.BatchOk id chunks left .look where
  held := hb.held
  done := fun x hx => by
    rcases hb.done x hx with hmem | hfile
    · rcases mem_cons.1 hmem with rfl | hmem
      · exact .inr (hb.current hstage x rfl)
      · exact .inl hmem
    · exact .inr hfile
  suffix := fun _ hx => hb.suffix (mem_cons_of_mem _ hx)
  current := nofun

omit [DecidableEq ι] in
theorem BatchOk.advance (hb : s.BatchOk id chunks (c :: left) stage) (hstage : stage = .look ∨ stage = .missing) :
    (s.putFile c.1 stage).BatchOk id chunks (c :: left) (s.nextStage c.1 stage) := by
  obtain ⟨files, hsub, heq⟩ := s.putFile_frame c.1 stage
  have hmono : (s.putFile c.1 stage).BatchOk id chunks (c :: left) stage := by
    rw [heq]
    exact hb.mono rfl hsub
  refine { hmono with current := fun hnext x hx => ?_ }
  obtain rfl : c = x := Option.some.inj hx
  rcases hstage with rfl | rfl
  · by_cases hfile : c.1 ∈ s.files
    · exact hfile
    · rw [nextStage, if_neg hfile] at hnext
      exact hnext.elim nofun nofun
  · exact Finset.mem_insert_self _ _

end Batch

theorem Inv.advance (hi : s.Inv) (hs : s.advance t = some s') : s'.Inv := by
  have hwait {call : Call Hash} (hc : s.calls t = call) (hnone : call.awaits t = []) : (s.calls t).awaits t = [] := by
    rw [hc, hnone]
  revert hs
  fun_cases SharedCache.advance s t <;> rintro ⟨⟩
  case case3 h len stage hc =>
    obtain ⟨files, -, heq⟩ := s.putFile_frame h stage
    have hput : ((s.putFile h stage).setCall t (.admitChunk h len (s.nextStage h stage))).Inv :=
      (hi.putFile h stage).setCall nofun (by rw [heq]; exact (hwait hc rfl).symm) nofun
    cases stage
    · exact hput
    · exact (hi.sendTouch h).setIdle (hwait hc rfl)
    · exact hput
    · exact (hi.sendAdmit h len).setIdle (hwait hc rfl)
  case case4 hc => exact hi.sendHold hc
  case case5 hold chunks stage hc =>
    cases hold with
    | none => exact hi.setIdle (hwait hc rfl)
    | some id =>
      have hb := hi.batch t id chunks [] stage hc
      refine (hi.setIdle (hwait hc rfl)).returns (hi.borrowed t id (by rw [hc]; rfl)) fun x hx => ?_
      obtain ⟨c, hmem, rfl⟩ := mem_map.1 hx
      exact ⟨hb.held c hmem, (hb.done c hmem).resolve_left not_mem_nil⟩
  case case6 hold chunks h len left stage hc =>
    have hlive : ∀ id, hold = some id → id ∈ s.live := fun id hid => hi.borrowed t id (by rw [hc]; exact hid)
    have hput : stage = .look ∨ stage = .missing → ((s.putFile h stage).setCall t
        (.batch hold chunks ((h, len) :: left) (s.nextStage h stage))).Inv := fun hstage => by
      obtain ⟨files, -, heq⟩ := s.putFile_frame h stage
      refine (hi.putFile h stage).setCall (fun id hid => ?_) ?_ fun id chunks' left' stage' hcall => ?_
      · rw [heq]
        exact hlive id hid
      · rw [heq]
        exact (hwait hc rfl).symm
      · cases hcall
        exact (hi.batch t id chunks _ stage hc).advance hstage
    have hnext : stage = .found ∨ stage = .renamed → ∀ {s1 : SharedCache ι Hash}, s1.Inv → s1.calls = s.calls →
        s1.live = s.live → s1.budget = s.budget → s1.files = s.files →
        (s1.setCall t (.batch hold chunks left .look)).Inv := by
      intro hstage s1 hi1 hcalls hlive1 hbudget hfiles
      refine hi1.setCall (fun id hid => ?_) ?_ fun id chunks' left' stage' heq => ?_
      · rw [hlive1]
        exact hlive id hid
      · rw [hcalls, hwait hc rfl]
        rfl
      · cases heq
        exact ((hi.batch t id chunks _ stage hc).next hstage).mono hbudget hfiles.ge
    cases stage
    · exact hput (.inl rfl)
    · exact hnext (.inl rfl) (hi.sendFound hold h len) rfl rfl rfl rfl
    · exact hput (.inr rfl)
    · exact hnext (.inr rfl) (hi.sendAdmit h len) rfl rfl rfl rfl

/-! The actor -/

theorem Inv.unlink (hi : s.Inv) {unlinks : List Hash} (hs : s.unlinks = h :: unlinks) (ok : Bool) :
    ({ s with unlinks := unlinks, files := if ok then s.files.erase h else s.files } : SharedCache ι Hash).Inv := by
  have hkeep : ∀ x, s.budget.wanted x = true → x ∈ s.files → x ∈ if ok then s.files.erase h else s.files := by
    intro x hw hx
    cases ok with
    | false => exact hx
    | true =>
      refine Finset.mem_erase.2 ⟨?_, hx⟩
      rintro rfl
      exact Bool.eq_false_iff.1 (hi.unwanted x (by rw [hs]; exact mem_cons_self)) hw
  refine { hi with
    unwanted := fun x hx => ?_
    batch := fun t id chunks left stage hc => ?_
    returned := fun id hashes hmem => ?_ }
  · exact hi.unwanted x (by rw [hs]; exact mem_cons_of_mem _ hx)
  · have hb := hi.batch t id chunks left stage hc
    refine { hb with done := fun c hmem => ?_, current := fun hstage c hmem => ?_ }
    · exact (hb.done c hmem).imp_right (hkeep _ (hb.held c hmem).wanted)
    · have hchunk : c ∈ chunks := hb.suffix (mem_of_mem_head? hmem)
      exact hkeep _ (hb.held c hchunk).wanted (hb.current hstage c hmem)
  · refine (hi.returned id hashes hmem).imp_right fun hr hid x hx => ?_
    obtain ⟨hheld, hfile⟩ := hr hid x hx
    exact ⟨hheld, hkeep x hheld.wanted hfile⟩

theorem Inv.handle (hi : s.Inv) {queue : List (ι × Msg Hash)} (hq : s.queue = (t, msg) :: queue)
    (calls : ι → Call Hash) (hhold : ∀ t', (calls t').hold? = (s.calls t').hold?)
    (hwait : ∀ t', queue.filter (isHoldOf t') = (calls t').awaits t')
    (hbatch : ∀ t' id chunks left stage, calls t' = .batch (some id) chunks left stage →
      s.calls t' = .batch (some id) chunks left stage ∨
        stage = .look ∧ left = chunks ∧ ∀ c ∈ chunks, (s.budget.asked msg).Held id c.1) :
    ({ s with budget := (s.budget.handle msg).1, unlinks := (s.budget.handle msg).2.1, queue := queue,
              calls := calls } : SharedCache ι Hash).Inv := by
  have hwants := handle_wants hi.sound msg
  have hheld : ∀ id h, id ∈ s.live → s.budget.Held id h → (s.budget.handle msg).1.Held id h := by
    intro id h hlive hh
    refine hwants.held (hh.asked fun order heq => ?_)
    exact (hi.released t id order (by rw [hq, heq]; exact mem_cons_self)).2 hlive
  refine { hi with
    sound := handle_sound hi.sound msg
    unwanted := fun x hx => (handle_unlinked hi.sound msg x hx).1
    released := fun t' id order hmem => ?_
    borrowed := fun t' id hid => ?_
    waits := hwait
    batch := fun t' id chunks left stage hc => ?_
    returned := fun id hashes hmem => ?_
    lastPin := ?_ }
  · exact hi.released t' id order (by rw [hq]; exact mem_cons_of_mem _ hmem)
  · rw [hhold] at hid
    exact hi.borrowed t' id hid
  · have hlive : id ∈ s.live := hi.borrowed t' id (by rw [← hhold, show calls t' = _ from hc]; rfl)
    rcases hbatch t' id chunks left stage hc with hc | ⟨rfl, rfl, hnew⟩
    · have hb := hi.batch t' id chunks left stage hc
      exact { hb with held := fun c hmem => hheld id c.1 hlive (hb.held c hmem) }
    · exact ⟨fun c hmem => hwants.held (hnew c hmem), fun c hmem => .inl hmem, fun _ hx => hx, nofun⟩
  · refine (hi.returned id hashes hmem).imp_right fun hr hid x hx => ?_
    obtain ⟨hh, hfile⟩ := hr hid x hx
    exact ⟨hheld id x hid hh, hfile⟩
  · rw [← hi.lastPin, hq]
    exact (hwants.final queue).pins

theorem Inv.receive (hi : s.Inv) (hs : s.receive = some s') : s'.Inv := by
  unfold SharedCache.receive at hs
  split at hs
  · rename_i t msg queue hu hq
    have hwait : ∀ t', (if isHoldOf t' (t, msg) then (t, msg) :: queue.filter (isHoldOf t')
        else queue.filter (isHoldOf t')) = (s.calls t').awaits t' := fun t' => by
      rw [← hi.waits t', hq, filter_cons]
    by_cases hhold : ∃ id hashes, msg = .hold id hashes
    · obtain ⟨id, hashes, rfl⟩ := hhold
      -- The sender waits for this message and for no other one.
      have hown := hwait t
      rw [if_pos (show isHoldOf t (t, Msg.hold id hashes) = true from decide_eq_true rfl)] at hown
      cases hc : s.calls t with
      | waiting id' chunks =>
        rw [hc] at hown
        obtain ⟨hmsg, hnone⟩ := cons.inj hown
        cases hmsg
        simp only [Budget.handle, if_true, answer, hc, Option.some.injEq] at hs
        subst hs
        refine hi.handle hq _ (fun t' => ?_) (fun t' => ?_) fun t' id' chunks' left stage hc' => ?_
        all_goals by_cases ht : t' = t
        · subst ht
          rw [update_self, hc]
          rfl
        · rw [update_of_ne ht]
        · subst ht
          rwa [update_self]
        · rw [update_of_ne ht, ← hwait t', if_neg]
          exact fun heq => ht (of_decide_eq_true heq).symm
        · subst ht
          rw [update_self] at hc'
          cases hc'
          exact .inr ⟨rfl, rfl, fun c hmem => held_of_hold _ (mem_map_of_mem hmem)⟩
        · rw [update_of_ne ht] at hc'
          exact .inl hc'
      | _ =>
        rw [hc] at hown
        cases hown
    · have hreply : (s.budget.handle msg).2.2 ≠ .held := fun h => hhold (handle_held.1 h)
      simp only [if_neg hreply, Option.some.injEq] at hs
      subst hs
      refine hi.handle hq s.calls (fun _ => rfl) (fun t' => ?_) fun _ _ _ _ _ hc => .inl hc
      rw [← hwait t', if_neg]
      unfold isHoldOf
      split
      · rename_i heq
        cases heq
        exact absurd ⟨_, _, rfl⟩ hhold
      · exact Bool.false_ne_true
  · cases hs

theorem Inv.step (hi : s.Inv) (hown : s.Owned e) (hs : s.step e = some s') : s'.Inv := by
  revert hs
  fun_cases SharedCache.step s e <;> intro hs <;> try cases hs
  case case1 => exact hi.newHold
  case case2 order hlive => exact hi.dropHold hlive hown order
  case case4 r hidle => exact hi.request r
  case case6 hidle | case8 hidle => exact hi.setCall nofun (by rw [hidle]; rfl) nofun
  case case10 hidle =>
    refine hi.setCall (fun id' hid => ?_) (by rw [hidle.1]; rfl) nofun
    exact Option.some.inj hid ▸ hidle.2
  case case12 => exact hi.advance hs
  case case13 hc | case14 hc => exact hi.setIdle (by rw [hc]; rfl)
  case case16 => exact hi.receive hs
  case case18 ok _ _ hu => exact hi.unlink hu ok

/-! Pinned chunks -/

/-- What a thread's step does to what the actor works on: a file more, or a message more. -/
structure Frame (s : SharedCache ι Hash) (e : CacheEvent ι Hash) (s' : SharedCache ι Hash) : Prop where
  budget : s'.budget = s.budget
  files : s.files ⊆ s'.files
  queue : s'.queue = s.queue ∨ ∃ m, s'.queue = s.queue ++ [m]
  lastPin : s'.lastPin = e.pins s.lastPin

theorem Frame.put (h : Hash) (stage : ChunkStage) (call : Call Hash) :
    Frame s (.advance t) ((s.putFile h stage).setCall t call) := by
  obtain ⟨files, hsub, heq⟩ := s.putFile_frame h stage
  rw [heq]
  exact ⟨rfl, hsub, .inl rfl, rfl⟩

theorem advance_frame (hs : s.advance t = some s') : Frame s (.advance t) s' := by
  revert hs
  fun_cases advance s t <;> rintro ⟨⟩
  case case3 | case6 =>
    split
    · exact ⟨rfl, fun _ hx => hx, .inr ⟨_, rfl⟩, rfl⟩
    · exact ⟨rfl, fun _ hx => hx, .inr ⟨_, rfl⟩, rfl⟩
    · exact .put ..
  case case4 => exact ⟨rfl, fun _ hx => hx, .inr ⟨_, rfl⟩, rfl⟩
  case case5 => split <;> exact ⟨rfl, fun _ hx => hx, .inl rfl, rfl⟩

theorem step_frame (hs : s.step e = some s') (hreceive : e ≠ .receive)
    (hunlink : ∀ ok, e ≠ .unlink ok) : Frame s e s' := by
  revert hs
  fun_cases step s e <;> intro hs <;> try cases hs
  case case2 | case4 => exact ⟨rfl, fun _ hx => hx, .inr ⟨_, rfl⟩, rfl⟩
  case case12 => exact advance_frame hs
  case case16 => exact absurd rfl hreceive
  case case18 ok _ _ _ => exact absurd rfl (hunlink ok)
  all_goals exact ⟨rfl, fun _ hx => hx, .inl rfl, rfl⟩

structure Kept (h : Hash) (s : SharedCache ι Hash) : Prop where
  steady : Steady h s.budget s.queue
  pinned : h ∈ s.lastPin
  file : h ∈ s.files

theorem Kept.step (hi : s.Inv) (hi' : s'.Inv) (hk : Kept h s) (hpin : h ∈ e.pins s.lastPin)
    (hs : s.step e = some s') : Kept h s' := by
  by_cases hreceive : e = .receive
  · subst hreceive
    simp only [step, receive] at hs
    split at hs <;> cases hs
    rename_i t msg queue hu hq
    have hsteady := hk.steady
    rw [hq] at hsteady
    have hnew : Kept h { s with
        budget := (s.budget.handle msg).1, unlinks := (s.budget.handle msg).2.1, queue := queue } :=
      ⟨hsteady.2.congr (handle_wants hi.sound msg), hk.pinned, hk.file⟩
    split_ifs
    · unfold answer
      split
      · exact ⟨hnew.steady, hnew.pinned, hnew.file⟩
      · exact hnew
    · exact hnew
  by_cases hunlink : ∃ ok, e = .unlink ok
  · obtain ⟨ok, rfl⟩ := hunlink
    simp only [step] at hs
    split at hs <;> cases hs
    rename_i x unlinks hu
    refine ⟨hk.steady, hk.pinned, ?_⟩
    have hne : h ≠ x := by
      rintro rfl
      exact Bool.eq_false_iff.1 (hi.unwanted h (by rw [hu]; exact mem_cons_self)) hk.steady.wanted
    cases ok with
    | false => exact hk.file
    | true => exact Finset.mem_erase.2 ⟨hne, hk.file⟩
  · obtain ⟨hbudget, hfiles, hqueue, hlast⟩ := step_frame hs hreceive fun ok heq => hunlink ⟨ok, heq⟩
    rw [← hlast] at hpin
    refine ⟨?_, hpin, hfiles hk.file⟩
    rw [hbudget]
    rcases hqueue with hq | ⟨m, hq⟩
    · rw [hq]
      exact hk.steady
    · have hfinal := hi'.lastPin
      rw [hbudget, hq, final_append] at hfinal
      rw [hq]
      refine hk.steady.append (wanted_eq_true.2 (.inl ?_))
      rwa [hfinal]

end SharedCache

end FeOS
