import FeOS.Sanity.HeldChunks

/-! A chunk that a batch holds stays in the chunk cache, whatever the other threads do. -/

namespace FeOS

open Linked Runs

/-- No `pin` leaves the chunk out. -/
def CacheEvent.Keeps {ι Hash : Type} (h : Hash) : CacheEvent ι Hash → Prop
  | .request _ (.pin keep _) => h ∈ keep
  | _ => True

namespace SharedCache

variable {ι Hash : Type} [DecidableEq ι] [DecidableEq Hash] {s s' : SharedCache ι Hash}

theorem reach_inv {budget : ℕ} {lru : LinkedMap Hash ℕ} (h : Reach step Owned (start budget lru : SharedCache ι Hash) s) :
    s.Inv :=
  h.invariant (start_inv budget lru) fun _ _ _ hi hown hs => hi.step hown hs

theorem reach_kept {h : Hash} (hi : s.Inv) (hk : Kept h s)
    (hr : Reach step (fun s (e : CacheEvent ι Hash) => s.Owned e ∧ e.Keeps h) s s') : Kept h s' := by
  have hboth : s'.Inv ∧ Kept h s' := by
    refine hr.invariant (I := fun s => s.Inv ∧ Kept h s) ⟨hi, hk⟩ ?_
    rintro s1 e s2 ⟨hi1, hk1⟩ ⟨hown, hkeeps⟩ hs
    have hi2 := hi1.step hown hs
    refine ⟨hi2, hk1.step hi1 hi2 ?_ hs⟩
    unfold CacheEvent.pins
    split
    · rename_i r
      cases r with
      | pin keep order => exact hkeeps
      | _ => exact hk1.pinned
    · exact hk1.pinned
  exact hboth.2

/-- In every run of any number of threads and the actor: once `admit_batch` has returned for a hold
and until the hold is dropped, the batch's files are there. A chunk of it that the last `pin`
before the drop has keeps its file, whatever comes, until a later `pin` leaves it out. -/
theorem held_chunk_stays (budget : ℕ) (lru : LinkedMap Hash ℕ)
    (hs : Reach step Owned (start budget lru : SharedCache ι Hash) s) {hold : ℕ} {chunks : List Hash}
    (hreturned : (hold, chunks) ∈ s.returned) (hlive : hold ∈ s.live) :
    ∀ h ∈ chunks, h ∈ s.files ∧
      (h ∈ s.lastPin → ∀ s', Reach step (fun s (e : CacheEvent ι Hash) => s.Owned e ∧ e.Keeps h) s s' → h ∈ s'.files) := by
  intro h hmem
  have hi := reach_inv hs
  obtain ⟨hheld, hfile⟩ := (hi.returned hold chunks hreturned).2 hlive h hmem
  refine ⟨hfile, fun hpin s' hr => (reach_kept hi ⟨?_, hpin, hfile⟩ hr).file⟩
  -- Until the pin is handled the hold protects the chunk: no release of it is on its way.
  exact hheld.steady fun t order hrelease => (hi.released t hold order hrelease).2 hlive

instance [Fintype ι] (s : SharedCache ι Hash) (e : CacheEvent ι Hash) : Decidable (s.Owned e) := by
  unfold Owned
  split <;> infer_instance

instance (h : Hash) (e : CacheEvent ι Hash) : Decidable (e.Keeps h) := by
  unfold CacheEvent.Keeps
  split <;> infer_instance

def inOrder : WalkOrder ℕ := ⟨id, fun _ => .rfl⟩

def sealEvents : List (CacheEvent Unit ℕ) :=
  [.newHold, .callBatch () [(7, 10)] (some 1), .advance (), .receive, .advance (), .advance (), .advance (),
    .receive, .advance (), .request () (.pin [7] inOrder)]

def dropEvents : List (CacheEvent Unit ℕ) :=
  [.dropHold () 1 inOrder, .receive, .receive, .request () (.evict .all []), .receive]

/-- The chunk of the batch is in the cache after the eviction of everything that may go. -/
theorem held_chunk_stays_pinned : ∃ s s' : SharedCache Unit ℕ, Reach step Owned (start 5 .empty) s ∧
    (1, [7]) ∈ s.returned ∧ 1 ∈ s.live ∧ 7 ∈ s.lastPin ∧ Reach step (fun s e => s.Owned e ∧ e.Keeps 7) s s' ∧
    1 ∉ s'.live ∧ s'.queue.isEmpty ∧ 7 ∈ s.files ∧ 7 ∈ s'.files := by
  obtain ⟨s, hs, hreturned, hlive, hpin, hdrop⟩ : ∃ s, Reach step Owned (start 5 .empty : SharedCache Unit ℕ) s ∧
      (1, [7]) ∈ s.returned ∧ 1 ∈ s.live ∧ 7 ∈ s.lastPin ∧
      (follow step (fun s e => s.Owned e ∧ e.Keeps 7) s dropEvents).any fun s' => 1 ∉ s'.live ∧ s'.queue.isEmpty :=
    exists_follow sealEvents (by decide +kernel)
  obtain ⟨s', hs', hdropped, hqueue⟩ := exists_follow _ hdrop
  obtain ⟨hfile, hafter⟩ := held_chunk_stays 5 .empty hs hreturned hlive 7 (List.mem_singleton.2 rfl)
  exact ⟨s, s', hs, hreturned, hlive, hpin, hs', hdropped, hqueue, hfile, hafter hpin s' hs'⟩

end SharedCache

end FeOS
