import FeOS.Sanity.Budget

/-! What an eviction takes is what was used least recently; the chunks it steps over because they are to be kept
do not stay in their places. -/

namespace FeOS

open Linked List

namespace Budget

variable {Hash : Type} {goal : ℕ}

def oldest (goal : ℕ) : ℕ → List (Hash × ℕ) → List (Hash × ℕ)
  | _, [] => []
  | bytes, e :: l => if bytes ≤ goal then [] else e :: oldest goal (bytes - e.2) l

theorem oldest_prefix (bytes : ℕ) (l : List (Hash × ℕ)) : oldest goal bytes l <+: l := by
  induction l generalizing bytes with
  | nil => exact prefix_rfl
  | cons e l ih =>
    rw [oldest]
    split_ifs
    · exact nil_prefix
    · exact (prefix_cons_inj e).2 (ih _)

theorem oldest_enough (bytes : ℕ) (l : List (Hash × ℕ)) :
    bytes - ((oldest goal bytes l).map Prod.snd).sum ≤ goal ∨ oldest goal bytes l = l := by
  induction l generalizing bytes with
  | nil => exact Or.inr rfl
  | cons e l ih =>
    rw [oldest]
    split_ifs with hle
    · exact Or.inl (by simpa using hle)
    · rw [map_cons, sum_cons, ← Nat.sub_sub]
      exact (ih (bytes - e.2)).imp_right (congrArg (e :: ·))

theorem oldest_shortest (bytes : ℕ) (l p : List (Hash × ℕ)) (hp : p <+: l)
    (hlen : p.length < (oldest goal bytes l).length) : goal < bytes - (p.map Prod.snd).sum := by
  induction l generalizing bytes p with
  | nil => simp [oldest] at hlen
  | cons e l ih =>
    rw [oldest] at hlen
    split_ifs at hlen with hle
    · simp at hlen
    · cases p with
      | nil => simpa using hle
      | cons e' p =>
        obtain ⟨rfl, hp'⟩ := cons_prefix_cons.1 hp
        rw [map_cons, sum_cons, ← Nat.sub_sub]
        exact ih _ p hp' (by simpa using hlen)

theorem append_comm_iff {l1 l2 : List (Hash × ℕ)} (hnodup : ((l1 ++ l2).map Prod.fst).Nodup) :
    l2 ++ l1 = l1 ++ l2 ↔ l1 = [] ∨ l2 = [] := by
  constructor
  · intro h
    cases l1 with
    | nil => exact Or.inl rfl
    | cons x l1 => cases l2 with
      | nil => exact Or.inr rfl
      | cons y l2 =>
        obtain ⟨rfl, -⟩ := cons.inj h
        simp at hnodup
  · rintro (rfl | rfl) <;> simp

theorem triple_sublist {x y k : Hash} {l1 l2 : List Hash} (h1 : x ∉ l1) (h2 : x ∉ l2) :
    [k, x, y].Sublist (l1 ++ x :: l2) ↔ k ∈ l1 ∧ y ∈ l2 := by
  constructor
  · intro h
    obtain ⟨a, c, heq, ha, hc⟩ := sublist_append_iff.1 h
    match a with
    | [] =>
      obtain rfl : [k, x, y] = c := heq
      rcases sublist_cons_iff.1 hc with hc | ⟨t, ht, hc⟩
      · exact absurd (hc.subset (by simp)) h2
      · cases ht
        exact absurd (hc.subset (by simp)) h2
    | [k'] =>
      obtain ⟨rfl, rfl⟩ : k = k' ∧ [x, y] = c := by simpa using heq
      refine ⟨ha.subset (by simp), ?_⟩
      rcases sublist_cons_iff.1 hc with hc | ⟨t, ht, hc⟩
      · exact absurd (hc.subset (by simp)) h2
      · cases ht
        exact hc.subset (by simp)
    | _ :: x' :: _ =>
      obtain ⟨-, rfl, -⟩ : _ ∧ x = x' ∧ _ := by simpa using heq
      exact absurd (ha.subset (by simp)) h1
  · rintro ⟨hk, hy⟩
    exact (singleton_sublist.2 hk).append ((singleton_sublist.2 hy).cons_cons x)

variable [DecidableEq Hash] {keep : List Hash} {b b' : Budget Hash} {h : Hash} {len : ℕ}

def evictable (b : Budget Hash) (keep : List Hash) : List (Hash × ℕ) := b.lru.entries.filter (·.1 ∉ keep)

/-- What has to go for the evictable bytes to come within `goal`. -/
def evictees (b : Budget Hash) (goal : ℕ) (keep : List Hash) : List (Hash × ℕ) :=
  oldest goal b.lru.total (b.evictable keep)

/-- No chunk of `keep` is older than the last one that has to go, or no chunk is younger. -/
def InPlace (b : Budget Hash) (goal : ℕ) (keep : List Hash) : Prop :=
  ∀ k x y, (b.evictees goal keep).getLast? = some x → k ∈ keep → ¬ [k, x.1, y].Sublist b.lru.keys

theorem evictRounds_split (goal : ℕ) (keep : List Hash) : ∀ (rounds : ℕ) (b : Budget Hash),
    b.lru.entries.length ≤ rounds → ∃ pre rest, b.lru.entries = pre ++ rest ∧
      (evictRounds goal keep rounds b).1.lru.entries = rest ++ pre.filter (·.1 ∈ keep) ∧
      (evictRounds goal keep rounds b).2 = (pre.filter (·.1 ∉ keep)).map Prod.fst ∧
      pre.filter (·.1 ∉ keep) = oldest goal b.bytes (b.evictable keep) ∧ ∀ e ∈ pre.getLast?, e.1 ∉ keep
  | 0, b, hlen => ⟨[], [], by simpa using hlen, by simpa [evictRounds] using hlen, rfl, by
      rw [evictable, length_eq_zero_iff.1 (Nat.le_zero.1 hlen)]; rfl, nofun⟩
  | rounds + 1, b, hlen => by
    rw [evictRounds]
    split_ifs with hgoal
    · refine ⟨[], _, rfl, (append_nil _).symm, rfl, ?_, nofun⟩
      cases b.evictable keep <;> simp [oldest, hgoal]
    cases hd : b.dropOldest keep with
    | none =>
      refine ⟨[], _, rfl, (append_nil _).symm, rfl, ?_, nofun⟩
      have hnil : b.evictable keep = [] := by
        simpa [evictable] using fun h len hmem => dropOldest_none hd h (mem_map_of_mem hmem)
      rw [hnil]
      rfl
    | some r =>
      obtain ⟨h, len, b1⟩ := r
      obtain ⟨skipped, rest1, hdrop⟩ := dropOldest_some hd
      have hh := hdrop.notKept
      have hlen1 : b1.lru.entries.length ≤ rounds := by
        have := hdrop.perm.length_eq
        rw [length_cons] at this
        omega
      obtain ⟨pre, rest, hsplit, hlru, hun, hold, hlast⟩ := evictRounds_split goal keep rounds
        { b1 with evictedEntries := b1.evictedEntries + 1, evictedBytes := b1.evictedBytes + len } hlen1
      -- the rounds that follow end before what this one put at the end
      obtain ⟨t, hrest1, rfl⟩ : ∃ t, rest1 = pre ++ t ∧ rest = t ++ skipped := by
        rcases append_eq_append_iff.1 (hdrop.entries'.symm.trans hsplit) with ⟨u, hpre, hsk⟩ | h
        · cases hu : u.getLast? with
          | none =>
            rw [getLast?_eq_none_iff] at hu
            subst hu
            exact ⟨[], by simpa using hpre.symm, by simpa using hsk.symm⟩
          | some e =>
            refine absurd (hdrop.kept e (hsk ▸ mem_append_left _ (mem_of_getLast? hu))) (hlast e ?_)
            rw [hpre, getLast?_append, hu]
            rfl
        · exact h
      have hkeep : skipped.filter (·.1 ∈ keep) = skipped := filter_eq_self.2 fun e he => decide_eq_true (hdrop.kept e he)
      have hskipped : skipped.filter (·.1 ∉ keep) = [] :=
        filter_eq_nil_iff.2 fun e he => by simpa using hdrop.kept e he
      refine ⟨skipped ++ (h, len) :: pre, t, by rw [hdrop.entries, hrest1]; simp, ?_, ?_, ?_, ?_⟩
      · simp [hlru, hkeep, hh]
      · simp only [hun, filter_append, hskipped, nil_append]
        rw [filter_cons_of_pos (by simpa using hh), map_cons]
      · simp only [evictable, hdrop.entries', hdrop.bytes, filter_append, hskipped, append_nil] at hold
        simp only [evictable, hdrop.entries, filter_append, hskipped, nil_append]
        rw [filter_cons_of_pos (by simpa using hh), filter_cons_of_pos (by simpa using hh), oldest,
          if_neg hgoal, hold]
      · rw [getLast?_append, getLast?_cons]
        cases hpre : pre.getLast? with
        | none => simpa using hh
        | some e => simpa using hlast e hpre

theorem inPlace_iff {pre rest : List (Hash × ℕ)} (hsplit : b.lru.entries = pre ++ rest)
    (hold : pre.filter (·.1 ∉ keep) = b.evictees goal keep) (hlast : ∀ e ∈ pre.getLast?, e.1 ∉ keep) :
    b.InPlace goal keep ↔ pre.filter (·.1 ∈ keep) = [] ∨ rest = [] := by
  rw [InPlace, ← hold]
  cases hpre : pre.getLast? with
  | none => simp [getLast?_eq_none_iff.1 hpre]
  | some x =>
    obtain ⟨older, rfl⟩ := getLast?_eq_some_iff.1 hpre
    have hx : x.1 ∉ keep := hlast x hpre
    have hkeys : b.lru.keys = older.map Prod.fst ++ x.1 :: rest.map Prod.fst := by simp [LinkedMap.keys, hsplit]
    have hnodup := b.lru.nodup
    rw [← LinkedMap.keys, hkeys, nodup_append, nodup_cons] at hnodup
    have hone : x.1 ∉ older.map Prod.fst := fun h => hnodup.2.2 _ h _ mem_cons_self rfl
    simp only [hkeys, filter_append, filter_cons, hx, filter_nil]
    constructor
    · intro h
      refine or_iff_not_imp_right.2 fun hrest => ?_
      obtain ⟨y, hy⟩ := exists_mem_of_ne_nil rest hrest
      simp only [decide_false, Bool.false_eq_true, if_false, append_nil, filter_eq_nil_iff, decide_eq_true_eq]
      exact fun k hk hkeep => h k.1 x y.1 (by simp) hkeep
        ((triple_sublist hone hnodup.2.1.1).2 ⟨mem_map_of_mem hk, mem_map_of_mem hy⟩)
    · intro h k x' y hx' hk hsub
      obtain rfl : x = x' := by simpa using hx'
      obtain ⟨hk', hy⟩ := (triple_sublist hone hnodup.2.1.1).1 hsub
      obtain ⟨e, he, rfl⟩ := mem_map.1 hk'
      rcases h with h | rfl
      · simp only [decide_false, Bool.false_eq_true, if_false, append_nil, filter_eq_nil_iff,
          decide_eq_true_eq] at h
        exact h e he hk
      · cases hy

/-- Over any messages: an eviction unlinks the shortest run of the least recently used chunks that are neither to be
kept nor pinned that brings the evictable bytes within its goal, and every such chunk if none does. The chunks that
stay keep their order iff no chunk that is to be kept is older than the last one that goes, or none is younger. -/
theorem evict_least_recent (budget : ℕ) (lru : LinkedMap Hash ℕ) (msgs : List (Msg Hash)) (target : EvictTarget)
    (keep : List Hash) :
    let b := (init budget lru).run msgs
    let goal := match target with
      | .all => 0
      | .budget => budget
    let out := b.handle (.evict target keep)
    (out.2.1 = (b.evictees goal keep).map Prod.fst ∧ out.1.pinned = b.pinned ∧
      (∀ e ∈ b.evictable keep, e.1 ∉ b.pinned.keys) ∧ b.evictees goal keep <+: b.evictable keep ∧
      (b.lru.total - ((b.evictees goal keep).map Prod.snd).sum ≤ goal ∨ b.evictees goal keep = b.evictable keep) ∧
      ∀ p, p <+: b.evictable keep → p.length < (b.evictees goal keep).length →
        goal < b.lru.total - (p.map Prod.snd).sum) ∧
    (out.1.lru.entries = b.lru.entries.filter (·.1 ∉ out.2.1) ↔ b.InPlace goal keep) := by
  intro b goal out
  obtain ⟨hb, hbudget⟩ := run_sound msgs (init_sound budget lru)
  obtain ⟨hfst, hsnd⟩ : out.1 = (b.evictTo goal keep).1 ∧ out.2.1 = (b.evictTo goal keep).2 := by
    cases target with
    | all => exact ⟨rfl, rfl⟩
    | budget => exact ⟨congrArg (b.evictTo · keep |>.1) hbudget, congrArg (b.evictTo · keep |>.2) hbudget⟩
  obtain ⟨pre, rest, hsplit, hlru, hun, hold, hlast⟩ := evictRounds_split goal keep _ b le_rfl
  rw [← evictTo, ← hfst] at hlru
  rw [← evictTo, ← hsnd] at hun
  rw [hb.bytes] at hold
  refine ⟨⟨by rw [hun, hold, evictees], hfst ▸ (evictTo_spec hb.toExact goal keep).1.pinned, fun e he => ?_,
    oldest_prefix _ _, oldest_enough _ _, oldest_shortest _ _⟩, ?_⟩
  · exact hb.disjoint e.1 (mem_map_of_mem (mem_of_mem_filter he))
  · have hnodup := b.lru.nodup
    rw [hsplit, map_append, nodup_append] at hnodup
    have hpre : pre.filter (·.1 ∉ out.2.1) = pre.filter (·.1 ∈ keep) := by
      refine filter_congr fun e he => ?_
      have hmem : e.1 ∈ out.2.1 ↔ e.1 ∉ keep := by
        rw [hun]
        refine ⟨fun h => ?_, fun h => mem_map_of_mem (mem_filter.2 ⟨he, decide_eq_true h⟩)⟩
        obtain ⟨e', he', heq⟩ := mem_map.1 h
        exact heq ▸ of_decide_eq_true (mem_filter.1 he').2
      simp [hmem]
    have hrest : rest.filter (·.1 ∉ out.2.1) = rest := by
      refine filter_eq_self.2 fun e he => decide_eq_true fun h => ?_
      rw [hun] at h
      exact hnodup.2.2 _ ((filter_sublist.map _).subset h) _ (mem_map_of_mem he) rfl
    rw [inPlace_iff hsplit hold hlast, hsplit, filter_append, hpre, hrest, hlru, append_comm_iff]
    have hsub : (pre.filter (·.1 ∈ keep) ++ rest).Sublist b.lru.entries :=
      hsplit ▸ filter_sublist.append (List.Sublist.refl rest)
    exact b.lru.nodup.sublist (hsub.map _)

/-- Three chunks come in, and all but the first and the last are evicted: the last is then the older of the two, and
the next two chunks that come in drive it out while the first stays. -/
theorem evict_turns_order :
    let b := (init 3 LinkedMap.empty).run [.admitChunk 0 1, .admitChunk 1 1, .admitChunk 2 1]
    let out := b.handle (.evict .all [0, 2])
    b.lru.keys = [0, 1, 2] ∧ out.2.1 = [1] ∧ out.1.lru.keys = [2, 0] ∧
      ((out.1.run [.admitChunk 3 1]).handle (.admitChunk 4 1)).2.1 = [2] := by
  decide

end Budget

end FeOS
