import FeOS.Sanity.Budget

/-! The chunk cache's budget actor keeps its accounts over every sequence of messages. -/

namespace FeOS

open Linked

namespace Budget

variable {Hash : Type} [DecidableEq Hash]

/-- The messages after which the actor has evicted down to the budget: a `Release` is one if its
hold is open. -/
def evictsAfter (b : Budget Hash) : Msg Hash → Bool
  | .admitChunk _ _ => true
  | .pin _ _ => true
  | .release id _ => (b.holds.find id).isSome
  | _ => false

theorem handle_bytes {b : Budget Hash} (hb : b.Sound) : ∀ {msg : Msg Hash}, b.evictsAfter msg = true →
    (b.handle msg).1.bytes ≤ b.budget
  | .admitChunk _ _, _ => evictTo_bytes hb.place.toExact _
  | .pin keep order, _ => by
    have hpin := pinFromLru_keys keep hb.toExact
    exact (evictTo_bytes (pin_sound hb keep order).toExact _).trans hpin.2.1.budget.le
  | .release id order, he => by
    simp only [handle]
    cases hf : b.holds.find id with
    | none =>
      simp [evictsAfter, hf] at he
    | some _ => exact evictTo_bytes (release_sound hb id order).toExact _

/-- From any initial LRU and over any messages: no chunk is in both maps, the sums are exact and
no subtraction has saturated, and what is tracked is pinned iff a pin or an open hold wants it.
The next message unlinks nothing that is wanted or that it is asked to keep, and brings the
evictable bytes within the budget where it should. -/
theorem actor_keeps_accounts (budget : ℕ) (lru : LinkedMap Hash ℕ) (msgs : List (Msg Hash)) :
    let b := (init budget lru).run msgs
    ((∀ h ∈ b.lru.keys, h ∉ b.pinned.keys) ∧ b.bytes = b.lru.total ∧ b.pinnedBytes = b.pinned.total ∧
      b.saturated = false ∧
      ∀ h, h ∈ b.lru.keys ∨ h ∈ b.pinned.keys →
        (h ∈ b.pinned.keys ↔ h ∈ b.pins ∨ ∃ id hashes, b.holds.find id = some hashes ∧ h ∈ hashes)) ∧
    ∀ msg, (∀ h ∈ (b.handle msg).2.1,
        ¬ (h ∈ (b.handle msg).1.pins ∨ ∃ id hashes, (b.handle msg).1.holds.find id = some hashes ∧ h ∈ hashes) ∧
        h ∉ msg.keeps) ∧
      (b.evictsAfter msg = true → (b.handle msg).1.bytes ≤ budget) := by
  intro b
  obtain ⟨hb, hbudget⟩ := run_sound msgs (init_sound budget lru)
  refine ⟨⟨hb.disjoint, hb.bytes, hb.pinnedBytes, hb.saturated, fun h htracked => ?_⟩,
    fun msg => ⟨fun h hh => ?_, fun he => ?_⟩⟩
  · rw [← wanted_eq_true]
    refine ⟨hb.pinned h, fun hw => htracked.resolve_left fun hl => ?_⟩
    exact Bool.eq_false_iff.1 (hb.lru h hl) hw
  · obtain ⟨hw, hkeep⟩ := handle_unlinked hb msg h hh
    rw [← wanted_eq_true]
    exact ⟨Bool.eq_false_iff.1 hw, hkeep⟩
  · exact (handle_bytes hb he).trans hbudget.le

end Budget

end FeOS
