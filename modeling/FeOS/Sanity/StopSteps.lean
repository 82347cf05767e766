import FeOS.Spec.StopRecord

/-! What the record, a start and a stop know of the pods, and how that is kept by the steps that change only the
pods and by those that change only what a stop has under way. -/

namespace FeOS.PodStop

open Function

/-- The pods that the pass is still to see to, and those whose outcomes are to be recorded. -/
def Pass.pods (pass : Pass) : List ID := pass.todo ++ (pass.busy ++ pass.outcomes.map Prod.fst)

namespace World

variable (w : World)

def resumes : List ID :=
  match w.start with
  | .resuming todo inFlight => todo ++ inFlight
  | _ => []

def entry : List ID :=
  match w.stop with
  | .idle => []
  | .read entry => entry.pods
  | .suspending pass => pass.entry.pods

def retried : List ID :=
  match w.stop with
  | .suspending pass => pass.busy
  | _ => []

def outcomes : List (ID × Done) :=
  match w.stop with
  | .suspending pass => pass.outcomes
  | _ => []

/-- The record, a start or a stop names the pod, so that a start may resume it. -/
def Named (p : ID) : Prop :=
  p ∈ w.recorded ∨ p ∈ w.resumes ∨ p ∈ w.entry ∨ (p, .suspended) ∈ w.outcomes ∨ p ∈ w.retried

instance (p : ID) : Decidable (w.Named p) := by
  unfold Named
  infer_instance

def Listed (p : ID) : Prop :=
  p ∈ w.recorded ∨ (p, .suspended) ∈ w.outcomes ∨ p ∈ w.retried

structure Inv : Prop where
  ids : w.ids.Nodup
  owed : ∀ p, w.owed p = true → w.pods p = some .suspended
  listed : ∀ p, w.owed p = true → w.Listed p
  clients : ∀ p, w.clients p = true → w.pods p = some .suspended ∧ ¬ w.Named p
  fair : w.wronged = false
  stopping : w.stop ≠ .idle → w.stopping = true
  read : ∀ entry, w.stop = .read entry → ∀ p, w.owed p = true → p ∈ entry.pods
  pass : ∀ pass, w.stop = .suspending pass → w.recorded = pass.entry.pods ∧ pass.pods.Nodup
  held : ∀ p, w.owed p = true → (p, .failed) ∉ w.outcomes
  resumes : ∀ todo inFlight, w.start = .resuming todo inFlight → w.stopping = false →
    ∀ p, w.owed p = true → p ∈ todo ∨ p ∈ inFlight

end World

open World

variable {w w' : World} {pass pass' : Pass} {p q : ID}

theorem recorded_writeRecord (r : StopRecord) : ((writeRecord r).map StopRecord.pods).getD [] = r.pods := by
  unfold writeRecord
  split_ifs with h
  · exact h.symm
  · rfl

theorem outcomes_of_suspending (h : w.stop = .suspending pass) : w.outcomes = pass.outcomes := by
  simp only [World.outcomes, h]

theorem retried_of_suspending (h : w.stop = .suspending pass) : w.retried = pass.busy := by
  simp only [World.retried, h]

theorem entry_of_suspending (h : w.stop = .suspending pass) : w.entry = pass.entry.pods := by
  simp only [World.entry, h]

theorem inv_init : World.init.Inv where
  ids := List.nodup_nil
  owed := nofun
  listed := nofun
  clients := nofun
  fair := rfl
  stopping h := absurd rfl h
  read := nofun
  pass := nofun
  held := nofun
  resumes := nofun

structure SameBooks (w w' : World) : Prop where
  file : w'.file = w.file
  start : w'.start = w.start
  stop : w'.stop = w.stop
  stopping : w'.stopping = w.stopping

namespace SameBooks

section
variable (h : SameBooks w w')
include h

theorem recorded : w'.recorded = w.recorded := by
  unfold World.recorded
  rw [h.file]

theorem resumes : w'.resumes = w.resumes := by
  unfold World.resumes
  rw [h.start]

theorem entry : w'.entry = w.entry := by
  unfold World.entry
  rw [h.stop]

theorem retried : w'.retried = w.retried := by
  unfold World.retried
  rw [h.stop]

theorem outcomes : w'.outcomes = w.outcomes := by
  unfold World.outcomes
  rw [h.stop]

theorem named : w'.Named p ↔ w.Named p := by
  unfold World.Named
  rw [h.recorded, h.resumes, h.entry, h.outcomes, h.retried]

theorem listed : w'.Listed p ↔ w.Listed p := by
  unfold World.Listed
  rw [h.recorded, h.outcomes, h.retried]

end

end SameBooks

theorem World.Inv.not_failed_of_retried (h : w.Inv) (hp : p ∈ w.retried) : (p, .failed) ∉ w.outcomes := by
  intro hfailed
  cases hstop : w.stop with
  | idle => simp [World.retried, hstop] at hp
  | read entry => simp [World.retried, hstop] at hp
  | suspending pass =>
    rw [retried_of_suspending hstop] at hp
    rw [outcomes_of_suspending hstop] at hfailed
    have hnodup := (h.pass pass hstop).2
    have hdisjoint := (List.nodup_append'.1 (List.nodup_append'.1 hnodup).2.1).2.2
    exact hdisjoint hp (List.mem_map_of_mem hfailed)

theorem World.Inv.of_pods (h : w.Inv) (same : SameBooks w w') (hids : w'.ids.Nodup) (hfair : w'.wronged = w.wronged)
    (howed : ∀ p, w'.owed p = true → w'.pods p = some .suspended ∧ (w.owed p = true ∨ p ∈ w.retried))
    (hclients : ∀ p, w'.clients p = true → w'.pods p = some .suspended ∧ ¬ w.Named p) : w'.Inv where
  ids := hids
  owed p hp := (howed p hp).1
  listed p hp := same.listed.2 ((howed p hp).2.elim (h.listed p) fun hr => .inr (.inr hr))
  clients p hp := ⟨(hclients p hp).1, fun hn => (hclients p hp).2 (same.named.1 hn)⟩
  fair := hfair.trans h.fair
  stopping hstop := same.stopping.trans (h.stopping (same.stop ▸ hstop))
  read entry hread p hp := by
    rcases (howed p hp).2 with ho | hr
    · exact h.read entry (same.stop ▸ hread) p ho
    · simp [World.retried, ← same.stop, hread] at hr
  pass pass hpass := by
    rw [same.recorded]
    exact h.pass pass (same.stop ▸ hpass)
  held p hp := by
    rw [same.outcomes]
    exact (howed p hp).2.elim (h.held p) h.not_failed_of_retried
  resumes todo inFlight hstart hstopping p hp := by
    rw [same.stopping] at hstopping
    rw [same.start] at hstart
    rcases (howed p hp).2 with ho | hr
    · exact h.resumes todo inFlight hstart hstopping p ho
    · -- nothing is tried again outside a stop
      have hidle : w.stop ≠ .idle := fun hidle => by simp [World.retried, hidle] at hr
      simp [h.stopping hidle] at hstopping

theorem World.Inv.put (h : w.Inv) (p : ID) (state : Option PodState) : (w.put p state).Inv := by
  have hne : ∀ {f : ID → Bool} {q : ID}, update f p false q = true → q ≠ p ∧ f q = true := by
    intro f q hq
    rcases update_cases hq with ⟨-, ⟨⟩⟩ | hq
    exact hq
  refine h.of_pods ⟨rfl, rfl, rfl, rfl⟩ h.ids rfl (fun q hq => ?_) (fun q hq => ?_)
  · obtain ⟨hqp, hq⟩ := hne hq
    exact ⟨(update_of_ne hqp _ _).trans (h.owed q hq), .inl hq⟩
  · obtain ⟨hqp, hq⟩ := hne hq
    exact ⟨(update_of_ne hqp _ _).trans (h.clients q hq).1, (h.clients q hq).2⟩

theorem World.Inv.putSuspended (h : w.Inv) {who : Who} (hstop : who = .stop → p ∈ w.retried)
    (hclient : who = .client → ¬ w.Named p) : (w.putSuspended who p).Inv := by
  refine h.of_pods ⟨rfl, rfl, rfl, rfl⟩ h.ids rfl (fun q hq => ?_) (fun q hq => ?_)
  · change update w.owed p _ q = true at hq
    rcases eq_or_ne q p with rfl | hqp
    · rw [update_self] at hq
      exact ⟨update_self .., .inr (hstop (of_decide_eq_true hq))⟩
    · rw [update_of_ne hqp] at hq
      exact ⟨(update_of_ne hqp _ _).trans (h.owed q hq), .inl hq⟩
  · change update w.clients p _ q = true at hq
    rcases eq_or_ne q p with rfl | hqp
    · rw [update_self] at hq
      exact ⟨update_self .., hclient (of_decide_eq_true hq)⟩
    · rw [update_of_ne hqp] at hq
      exact ⟨(update_of_ne hqp _ _).trans (h.clients q hq).1, (h.clients q hq).2⟩

theorem World.Inv.setPass (h : w.Inv) (hstop : w.stop = .suspending pass) (hentry : pass'.entry = pass.entry)
    (hnodup : pass'.pods.Nodup)
    (hlisted : ∀ p, w.owed p = true → (p, .suspended) ∈ pass.outcomes ∨ p ∈ pass.busy →
      (p, .suspended) ∈ pass'.outcomes ∨ p ∈ pass'.busy)
    (hheld : ∀ p, (p, .failed) ∈ pass'.outcomes → w.owed p = true → (p, .failed) ∈ pass.outcomes)
    (hnamed : ∀ p, w.clients p = true → (p, .suspended) ∈ pass'.outcomes ∨ p ∈ pass'.busy →
      (p, .suspended) ∈ pass.outcomes ∨ p ∈ pass.busy) :
    { w with stop := .suspending pass' }.Inv where
  ids := h.ids
  owed := h.owed
  listed p hp := by
    have hl := h.listed p hp
    unfold World.Listed at hl
    rw [outcomes_of_suspending hstop, retried_of_suspending hstop] at hl
    exact hl.imp_right (hlisted p hp)
  clients p hp := by
    refine (h.clients p hp).imp_right (mt fun hn => ?_)
    have hn' : p ∈ w.recorded ∨ p ∈ w.resumes ∨ p ∈ pass'.entry.pods ∨ (p, .suspended) ∈ pass'.outcomes ∨
        p ∈ pass'.busy := hn
    unfold World.Named
    rw [entry_of_suspending hstop, outcomes_of_suspending hstop, retried_of_suspending hstop, ← hentry]
    exact hn'.imp_right (Or.imp_right (Or.imp_right (hnamed p hp)))
  fair := h.fair
  stopping _ := h.stopping (by rw [hstop]; nofun)
  read := nofun
  pass := by
    rintro _ ⟨⟩
    exact ⟨hentry ▸ (h.pass pass hstop).1, hnodup⟩
  held p hp hfailed := by
    have hold := h.held p hp
    rw [outcomes_of_suspending hstop] at hold
    exact hold (hheld p hfailed hp)
  resumes := h.resumes

end FeOS.PodStop
