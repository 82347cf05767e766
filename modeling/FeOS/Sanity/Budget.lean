import FeOS.Spec.Cache

/-! What each operation of the budget actor does to the two maps, and that the sums follow. -/

namespace FeOS

open Linked List LinkedMap

/-- What an `Evict` is asked to keep. -/
def Msg.keeps {Hash : Type} : Msg Hash → List Hash
  | .evict _ keep => keep
  | _ => []

namespace Budget

variable {Hash : Type} [DecidableEq Hash] {b b' : Budget Hash} {h x : Hash} {len : ℕ}

structure Exact (b : Budget Hash) : Prop where
  disjoint : ∀ h ∈ b.lru.keys, h ∉ b.pinned.keys
  bytes : b.bytes = b.lru.total
  pinnedBytes : b.pinnedBytes = b.pinned.total
  saturated : b.saturated = false

structure SameWants (b b' : Budget Hash) : Prop where
  budget : b'.budget = b.budget
  pins : b'.pins = b.pins
  holds : b'.holds = b.holds

omit [DecidableEq Hash] in
theorem SameWants.refl : SameWants b b := ⟨rfl, rfl, rfl⟩

omit [DecidableEq Hash] in
theorem SameWants.trans {c : Budget Hash} (h1 : SameWants b b') (h2 : SameWants b' c) : SameWants b c :=
  ⟨h2.budget.trans h1.budget, h2.pins.trans h1.pins, h2.holds.trans h1.holds⟩

theorem SameWants.wanted (hs : SameWants b b') (h : Hash) : b'.wanted h = b.wanted h := by
  unfold Budget.wanted
  rw [hs.pins, hs.holds]

/-! Out of one of the maps, and into one -/

theorem removeLru_lru : (b.removeLru h).lru = b.lru.erase h := by
  unfold removeLru
  split
  · rfl
  · rename_i hf
    exact (erase_of_find hf).symm

theorem removeLru_pinned : (b.removeLru h).pinned = b.pinned := by
  unfold removeLru
  split <;> rfl

theorem removeLru_wants : SameWants b (b.removeLru h) := by
  unfold removeLru
  split <;> exact ⟨rfl, rfl, rfl⟩

theorem Exact.removeLru (hb : b.Exact) : (b.removeLru h).Exact := by
  refine ⟨fun x hx => ?_, ?_, ?_, ?_⟩
  · rw [removeLru_lru, mem_keys_erase] at hx
    rw [removeLru_pinned]
    exact hb.disjoint x hx.1
  · rw [removeLru_lru]
    unfold Budget.removeLru
    split
    · rename_i len hf
      have := total_erase hf
      simp only [hb.bytes]
      omega
    · rename_i hf
      rw [erase_of_find hf]
      exact hb.bytes
  · rw [removeLru_pinned, ← hb.pinnedBytes]
    unfold Budget.removeLru
    split <;> rfl
  · unfold Budget.removeLru
    split
    · rename_i len hf
      have := le_total hf
      simp only [hb.saturated, Bool.false_or, decide_eq_false_iff_not, hb.bytes]
      omega
    · exact hb.saturated

/-! The two maps are treated alike -/

def swap (b : Budget Hash) : Budget Hash :=
  { b with lru := b.pinned, bytes := b.pinnedBytes, pinned := b.lru, pinnedBytes := b.bytes }

omit [DecidableEq Hash] in
theorem Exact.swap (hb : b.Exact) : b.swap.Exact :=
  ⟨fun h hp hl => hb.disjoint h hl hp, hb.pinnedBytes, hb.bytes, hb.saturated⟩

theorem removePinned_eq_swap : b.removePinned h = (b.swap.removeLru h).swap := by
  simp only [removePinned, removeLru, swap]
  split <;> rfl

theorem removePinned_pinned : (b.removePinned h).pinned = b.pinned.erase h := by
  rw [removePinned_eq_swap]
  exact removeLru_lru

theorem removePinned_lru : (b.removePinned h).lru = b.lru := by
  rw [removePinned_eq_swap]
  exact removeLru_pinned

theorem removePinned_wants : SameWants b (b.removePinned h) := by
  rw [removePinned_eq_swap]
  exact ⟨removeLru_wants.budget, removeLru_wants.pins, removeLru_wants.holds⟩

theorem Exact.removePinned (hb : b.Exact) : (b.removePinned h).Exact := by
  rw [removePinned_eq_swap]
  exact hb.swap.removeLru.swap

theorem Exact.insertLru (hb : b.Exact) (hl : h ∉ b.lru.keys) (hp : h ∉ b.pinned.keys) : (b.insertLru h len).Exact := by
  refine ⟨fun x hx => ?_, ?_, hb.pinnedBytes, hb.saturated⟩
  · rcases mem_keys_insert.1 hx with hx | rfl
    · exact hb.disjoint x hx
    · exact hp
  · simp only [Budget.insertLru]
    rw [total_insert_of_find (find_eq_none.2 hl), hb.bytes]

theorem Exact.insertPinned (hb : b.Exact) (hl : h ∉ b.lru.keys) (hp : h ∉ b.pinned.keys) :
    (b.insertPinned h len).Exact := (hb.swap.insertLru hp hl).swap

theorem place_cases : b.place h len =
    if b.wanted h then ((b.removeLru h).removePinned h).insertPinned h len
    else ((b.removeLru h).removePinned h).insertLru h len := by
  unfold place
  simp only [(removeLru_wants.trans removePinned_wants).wanted h]

theorem place_keys (hb : b.Exact) : (b.place h len).Exact ∧ SameWants b (b.place h len) ∧
    (∀ x, x ∈ (b.place h len).lru.keys ↔ x ∈ b.lru.keys ∧ x ≠ h ∨ x = h ∧ b.wanted h = false) ∧
    ∀ x, x ∈ (b.place h len).pinned.keys ↔ x ∈ b.pinned.keys ∧ x ≠ h ∨ x = h ∧ b.wanted h = true := by
  have hex : ((b.removeLru h).removePinned h).Exact := hb.removeLru.removePinned
  have hwants : SameWants b ((b.removeLru h).removePinned h) := removeLru_wants.trans removePinned_wants
  have hlru : ∀ x, x ∈ ((b.removeLru h).removePinned h).lru.keys ↔ x ∈ b.lru.keys ∧ x ≠ h := fun x => by
    rw [removePinned_lru, removeLru_lru, mem_keys_erase]
  have hpinned : ∀ x, x ∈ ((b.removeLru h).removePinned h).pinned.keys ↔ x ∈ b.pinned.keys ∧ x ≠ h := fun x => by
    rw [removePinned_pinned, removeLru_pinned, mem_keys_erase]
  have hl : h ∉ ((b.removeLru h).removePinned h).lru.keys := fun hx => ((hlru h).1 hx).2 rfl
  have hp : h ∉ ((b.removeLru h).removePinned h).pinned.keys := fun hx => ((hpinned h).1 hx).2 rfl
  rw [place_cases]
  cases hw : b.wanted h with
  | true =>
    refine ⟨hex.insertPinned hl hp, ⟨hwants.budget, hwants.pins, hwants.holds⟩, fun x => ?_, fun x => ?_⟩
    · simpa [Budget.insertPinned] using hlru x
    · simp only [if_true, Budget.insertPinned, mem_keys_insert, hpinned, and_true]
  | false =>
    refine ⟨hex.insertLru hl hp, ⟨hwants.budget, hwants.pins, hwants.holds⟩, fun x => ?_, fun x => ?_⟩
    · simp only [Bool.false_eq_true, if_false, Budget.insertLru, mem_keys_insert, hlru, and_true]
    · simpa [Budget.insertLru] using hpinned x

theorem pinFromLru_keys : ∀ (hashes : List Hash) {b : Budget Hash}, b.Exact →
    (b.pinFromLru hashes).Exact ∧ SameWants b (b.pinFromLru hashes) ∧
    (∀ x, x ∈ (b.pinFromLru hashes).lru.keys ↔ x ∈ b.lru.keys ∧ x ∉ hashes) ∧
    ∀ x, x ∈ (b.pinFromLru hashes).pinned.keys ↔ x ∈ b.pinned.keys ∨ x ∈ b.lru.keys ∧ x ∈ hashes
  | [], b, hb => ⟨hb, .refl, fun x => by simp [pinFromLru], fun x => by simp [pinFromLru]⟩
  | h :: hashes, b, hb => by
    unfold pinFromLru
    rw [foldl_cons]
    cases hf : b.lru.find h with
    | none =>
      obtain ⟨hex, hwants, hlru, hpinned⟩ := pinFromLru_keys hashes hb
      have hnot := find_eq_none.1 hf
      refine ⟨hex, hwants, fun x => (hlru x).trans ?_, fun x => (hpinned x).trans ?_⟩
      · rw [mem_cons, not_or]
        refine and_congr_right fun hx => (and_iff_right ?_).symm
        rintro rfl
        exact hnot hx
      · rw [mem_cons]
        refine or_congr_right (and_congr_right fun hx => (or_iff_right ?_).symm)
        rintro rfl
        exact hnot hx
    | some len =>
      have hmem : h ∈ b.lru.keys := mem_keys.2 ⟨len, hf⟩
      have hl : h ∉ (b.removeLru h).lru.keys := by
        rw [removeLru_lru, mem_keys_erase]
        exact fun hx => hx.2 rfl
      have hp : h ∉ (b.removeLru h).pinned.keys := by
        rw [removeLru_pinned]
        exact hb.disjoint h hmem
      have hpin : ((b.removeLru h).insertPinned h len).Exact := hb.removeLru.insertPinned hl hp
      obtain ⟨hex, hwants, hlru, hpinned⟩ := pinFromLru_keys hashes hpin
      have hw : SameWants b ((b.removeLru h).insertPinned h len) :=
        ⟨removeLru_wants.budget, removeLru_wants.pins, removeLru_wants.holds⟩
      refine ⟨hex, hw.trans hwants, fun x => (hlru x).trans ?_, fun x => (hpinned x).trans ?_⟩
      · simp only [Budget.insertPinned, removeLru_lru, mem_keys_erase, mem_cons, not_or, and_assoc]
      · simp only [Budget.insertPinned, removeLru_lru, removeLru_pinned, mem_keys_erase,
          mem_keys_insert, mem_cons]
        by_cases hx : x = h
        · subst hx
          simp [hmem]
        · simp [hx]

theorem unpin_eq_swap (hashes : List Hash) (b : Budget Hash) :
    hashes.foldl (fun b h =>
      match b.pinned.find h with
      | some len => (b.removePinned h).insertLru h len
      | none => b) b = (b.swap.pinFromLru hashes).swap := by
  induction hashes generalizing b with
  | nil => rfl
  | cons h hashes ih =>
    rw [foldl_cons, ih, pinFromLru, pinFromLru, foldl_cons, show b.swap.lru = b.pinned from rfl]
    congr 2
    cases b.pinned.find h with
    | none => rfl
    | some len =>
      simp only [removePinned_eq_swap]
      rfl

theorem unpin_keys (hashes : List Hash) (hb : b.Exact) :
    let b' := hashes.foldl (fun b h =>
      match b.pinned.find h with
      | some len => (b.removePinned h).insertLru h len
      | none => b) b
    b'.Exact ∧ SameWants b b' ∧ (∀ x, x ∈ b'.pinned.keys ↔ x ∈ b.pinned.keys ∧ x ∉ hashes) ∧
    ∀ x, x ∈ b'.lru.keys ↔ x ∈ b.lru.keys ∨ x ∈ b.pinned.keys ∧ x ∈ hashes := by
  intro b'
  obtain ⟨hex, hwants, hkeys⟩ := pinFromLru_keys hashes hb.swap
  rw [show b' = _ from unpin_eq_swap hashes b]
  exact ⟨hex.swap, ⟨hwants.budget, hwants.pins, hwants.holds⟩, hkeys⟩

/-! Evictions -/

/-- An eviction drops an evictable chunk outside `keep`, and puts those it skipped at the end. -/
structure Dropped (b : Budget Hash) (keep : List Hash) (skipped : List (Hash × ℕ)) (h : Hash) (len : ℕ)
    (rest : List (Hash × ℕ)) (b' : Budget Hash) : Prop where
  entries : b.lru.entries = skipped ++ (h, len) :: rest
  kept : ∀ e ∈ skipped, e.1 ∈ keep
  notKept : h ∉ keep
  entries' : b'.lru.entries = rest ++ skipped
  bytes : b'.bytes = b.bytes - len
  saturated : b'.saturated = (b.saturated || decide (b.bytes < len))
  wants : SameWants b b'
  pinned : b'.pinned = b.pinned
  pinnedBytes : b'.pinnedBytes = b.pinnedBytes

theorem dropOldest_some {keep : List Hash} (hd : b.dropOldest keep = some (h, len, b')) :
    ∃ skipped rest, Dropped b keep skipped h len rest b' := by
  unfold dropOldest at hd
  split at hd
  · cases hd
  rename_i h' len' rest hrest
  cases hd
  refine ⟨_, rest, ?_, fun e he => by simpa using mem_takeWhile_imp he, ?_, rfl, rfl, rfl, ⟨rfl, rfl, rfl⟩, rfl, rfl⟩
  · rw [← hrest, takeWhile_append_dropWhile]
  · have := head_dropWhile_not (fun e : Hash × ℕ => decide (e.1 ∈ keep)) (l := b.lru.entries) (by simp [hrest])
    simpa [hrest] using this

section

variable {keep : List Hash} {skipped rest : List (Hash × ℕ)}

section
variable (hd : Dropped b keep skipped h len rest b')
include hd
omit [DecidableEq Hash]

theorem Dropped.perm : b.lru.entries.Perm ((h, len) :: b'.lru.entries) := by
  rw [hd.entries, hd.entries']
  exact perm_middle.trans (perm_append_comm.cons _)

theorem Dropped.mem_keys :
    x ∈ b'.lru.keys ↔ x ∈ b.lru.keys ∧ x ≠ h := by
  have hnodup := (hd.perm.map Prod.fst).nodup_iff.1 b.lru.nodup
  rw [map_cons, nodup_cons] at hnodup
  rw [LinkedMap.keys, LinkedMap.keys, (hd.perm.map Prod.fst).mem_iff, map_cons, mem_cons]
  constructor
  · intro hx
    refine ⟨Or.inr hx, ?_⟩
    rintro rfl
    exact hnodup.1 hx
  · rintro ⟨rfl | hx, hne⟩
    · exact absurd rfl hne
    · exact hx

theorem Dropped.exact (hb : b.Exact) : b'.Exact := by
  have htotal : b.lru.total = len + b'.lru.total := by
    rw [total, (hd.perm.map Prod.snd).sum_eq, map_cons, sum_cons, total]
  refine ⟨fun x hx => hd.pinned ▸ hb.disjoint x (hd.mem_keys.1 hx).1, ?_, ?_, ?_⟩
  · rw [hd.bytes, hb.bytes, htotal, Nat.add_sub_cancel_left]
  · rw [hd.pinnedBytes, hd.pinned, hb.pinnedBytes]
  · rw [hd.saturated, hb.saturated, Bool.false_or, decide_eq_false_iff_not, hb.bytes]
    omega

end

end

theorem dropOldest_none {keep : List Hash} (hd : b.dropOldest keep = none) : ∀ x ∈ b.lru.keys, x ∈ keep := by
  unfold dropOldest at hd
  split at hd
  · rename_i hrest
    intro x hx
    obtain ⟨e, he, rfl⟩ := mem_map.1 hx
    simpa using dropWhile_eq_nil_iff.1 hrest e he
  · cases hd

structure Evicted (b : Budget Hash) (keep : List Hash) (b' : Budget Hash) (unlinked : List Hash) : Prop where
  exact : b'.Exact
  wants : SameWants b b'
  pinned : b'.pinned = b.pinned
  lru : ∀ x, x ∈ b'.lru.keys ↔ x ∈ b.lru.keys ∧ x ∉ unlinked
  unlinked : ∀ x ∈ unlinked, x ∈ b.lru.keys ∧ x ∉ keep

theorem evictRounds_spec (goal : ℕ) (keep : List Hash) : ∀ (rounds : ℕ) {b : Budget Hash}, b.Exact →
    b.lru.entries.length ≤ rounds →
    Evicted b keep (evictRounds goal keep rounds b).1 (evictRounds goal keep rounds b).2 ∧
    ((evictRounds goal keep rounds b).1.bytes ≤ goal ∨
      ∀ x ∈ (evictRounds goal keep rounds b).1.lru.keys, x ∈ keep)
  | 0, b, hb, hlen => by
    refine ⟨⟨hb, .refl, rfl, fun x => by simp [evictRounds], nofun⟩, Or.inr fun x hx => ?_⟩
    obtain ⟨e, he, -⟩ := mem_map.1 hx
    simp [show (evictRounds goal keep 0 b).1 = b from rfl, eq_nil_of_length_eq_zero (Nat.le_zero.1 hlen)] at he
  | rounds + 1, b, hb, hlen => by
    have hsame : Evicted b keep b [] := ⟨hb, .refl, rfl, fun x => by simp, nofun⟩
    unfold evictRounds
    split_ifs with hgoal
    · exact ⟨hsame, Or.inl hgoal⟩
    cases hd : b.dropOldest keep with
    | none => exact ⟨hsame, Or.inr (dropOldest_none hd)⟩
    | some r =>
      obtain ⟨h, len, b1⟩ := r
      obtain ⟨skipped, rest, hdrop⟩ := dropOldest_some hd
      obtain ⟨b2, hb2⟩ : ∃ b2, { b1 with
        evictedEntries := b1.evictedEntries + 1, evictedBytes := b1.evictedBytes + len } = b2 := ⟨_, rfl⟩
      -- the counts of what was evicted are no part of it
      replace hdrop : Dropped b keep skipped h len rest b2 := by
        subst hb2
        exact { hdrop with wants := ⟨hdrop.wants.budget, hdrop.wants.pins, hdrop.wants.holds⟩ }
      have hlen2 : b2.lru.entries.length ≤ rounds := by
        have := hdrop.perm.length_eq
        rw [length_cons] at this
        omega
      obtain ⟨hev, hgoal'⟩ := evictRounds_spec goal keep rounds (hdrop.exact hb) hlen2
      simp only [hb2]
      refine ⟨⟨hev.exact, hdrop.wants.trans hev.wants, hev.pinned.trans hdrop.pinned, fun x => ?_, fun x hx => ?_⟩, hgoal'⟩
      · rw [hev.lru, hdrop.mem_keys, mem_cons, not_or, and_assoc]
      · rcases mem_cons.1 hx with rfl | hx
        · exact ⟨by simp [LinkedMap.keys, hdrop.entries], hdrop.notKept⟩
        · have := hev.unlinked x hx
          exact ⟨(hdrop.mem_keys.1 this.1).1, this.2⟩

theorem evictTo_spec (hb : b.Exact) (goal : ℕ) (keep : List Hash) :
    Evicted b keep (b.evictTo goal keep).1 (b.evictTo goal keep).2 ∧
    ((b.evictTo goal keep).1.bytes ≤ goal ∨ ∀ x ∈ (b.evictTo goal keep).1.lru.keys, x ∈ keep) :=
  evictRounds_spec goal keep _ hb le_rfl

theorem evictTo_bytes (hb : b.Exact) (goal : ℕ) : (b.evictTo goal []).1.bytes ≤ goal := by
  obtain ⟨hev, hgoal | hall⟩ := evictTo_spec hb goal []
  · exact hgoal
  · have hnil : (b.evictTo goal []).1.lru.entries = [] := by
      rw [eq_nil_iff_forall_not_mem]
      intro e he
      exact not_mem_nil (hall e.1 (mem_map_of_mem he))
    rw [hev.exact.bytes, total, hnil]
    exact Nat.zero_le _

/-! Messages -/

/-- The accounts are exact, and a chunk of the cache is pinned when it is wanted and only then. -/
structure Sound (b : Budget Hash) : Prop extends b.Exact where
  lru : ∀ h ∈ b.lru.keys, b.wanted h = false
  pinned : ∀ h ∈ b.pinned.keys, b.wanted h = true

theorem init_sound (budget : ℕ) (lru : LinkedMap Hash ℕ) : (init budget lru).Sound where
  disjoint := fun _ _ => not_mem_nil
  bytes := rfl
  pinnedBytes := rfl
  saturated := rfl
  lru := fun _ _ => rfl
  pinned := fun _ hx => absurd hx not_mem_nil

theorem Sound.evictTo (hb : b.Sound) (goal : ℕ) (keep : List Hash) : (b.evictTo goal keep).1.Sound := by
  obtain ⟨hev, -⟩ := evictTo_spec hb.toExact goal keep
  refine { hev.exact with lru := fun x hx => ?_, pinned := fun x hx => ?_ }
  · rw [hev.wants.wanted]
    exact hb.lru x ((hev.lru x).1 hx).1
  · rw [hev.pinned] at hx
    rw [hev.wants.wanted]
    exact hb.pinned x hx

theorem Sound.unlinked (hb : b.Sound) (goal : ℕ) (keep : List Hash) :
    ∀ x ∈ (b.evictTo goal keep).2, (b.evictTo goal keep).1.wanted x = false ∧ x ∉ keep := by
  intro x hx
  obtain ⟨hev, -⟩ := evictTo_spec hb.toExact goal keep
  obtain ⟨hmem, hkeep⟩ := hev.unlinked x hx
  rw [hev.wants.wanted]
  exact ⟨hb.lru x hmem, hkeep⟩

theorem Sound.place (hb : b.Sound) : (b.place h len).Sound := by
  have hkeys : (b.place h len).Exact ∧ _ := place_keys hb.toExact
  obtain ⟨hex, hwants, hlru, hpinned⟩ := hkeys
  refine { hex with lru := fun x hx => ?_, pinned := fun x hx => ?_ }
  · rw [hwants.wanted]
    rcases (hlru x).1 hx with ⟨hx, -⟩ | ⟨rfl, hw⟩
    · exact hb.lru x hx
    · exact hw
  · rw [hwants.wanted]
    rcases (hpinned x).1 hx with ⟨hx, -⟩ | ⟨rfl, hw⟩
    · exact hb.pinned x hx
    · exact hw

theorem unpinUnwanted_exact (hb : b.Exact) (order : WalkOrder Hash) :
    (b.unpinUnwanted order).Exact ∧ SameWants b (b.unpinUnwanted order) := by
  obtain ⟨hex, hwants, -, -⟩ := unpin_keys ((order.walk b.pinned.keys).filter fun h => !b.wanted h) hb
  exact ⟨hex, hwants⟩

theorem unpinUnwanted_sound (hb : b.Exact) (hlru : ∀ x ∈ b.lru.keys, b.wanted x = false) (order : WalkOrder Hash) :
    (b.unpinUnwanted order).Sound := by
  obtain ⟨hex, hwants⟩ := unpinUnwanted_exact hb order
  obtain ⟨-, -, hpinned, hlru'⟩ :=
    unpin_keys ((order.walk b.pinned.keys).filter fun h => !b.wanted h) hb
  have hmem : ∀ x, x ∈ (order.walk b.pinned.keys).filter (fun h => !b.wanted h) ↔
      x ∈ b.pinned.keys ∧ b.wanted x = false := fun x => by
    rw [mem_filter, (order.perm _).mem_iff, Bool.not_eq_true']
  refine { hex with lru := fun x hx => ?_, pinned := fun x hx => ?_ }
  · rw [hwants.wanted]
    rcases (hlru' x).1 hx with hx | ⟨-, hx⟩
    · exact hlru x hx
    · exact ((hmem x).1 hx).2
  · rw [hwants.wanted]
    obtain ⟨hx, hnot⟩ := (hpinned x).1 hx
    by_contra hw
    exact hnot ((hmem x).2 ⟨hx, Bool.not_eq_true _ ▸ hw⟩)

omit [DecidableEq Hash] in
theorem Exact.withWants (hb : b.Exact) (pins : List Hash) (holds : LinkedMap ℕ (List Hash)) :
    ({ b with pins := pins, holds := holds } : Budget Hash).Exact :=
  ⟨hb.disjoint, hb.bytes, hb.pinnedBytes, hb.saturated⟩

theorem pinFromLru_unwanted (hb : b.Sound) (hashes : List Hash) (hlru : b'.lru = (b.pinFromLru hashes).lru)
    (hwants : ∀ x, b'.wanted x = true → b.wanted x = true ∨ x ∈ hashes) : ∀ x ∈ b'.lru.keys, b'.wanted x = false := by
  intro x hx
  obtain ⟨-, -, hkeys, -⟩ := pinFromLru_keys hashes hb.toExact
  rw [hlru, hkeys] at hx
  refine Bool.eq_false_iff.2 fun hw => ?_
  rcases hwants x hw with hw | hmem
  · exact Bool.eq_false_iff.1 (hb.lru x hx.1) hw
  · exact hx.2 hmem

theorem wanted_eq_true : b.wanted x = true ↔ x ∈ b.pins ∨ ∃ id hashes, b.holds.find id = some hashes ∧ x ∈ hashes := by
  unfold wanted
  rw [Bool.or_eq_true, decide_eq_true_iff, any_eq_true]
  refine or_congr_right ⟨?_, ?_⟩
  · rintro ⟨⟨id, hashes⟩, he, hx⟩
    exact ⟨id, hashes, find_eq_some.2 he, of_decide_eq_true hx⟩
  · rintro ⟨id, hashes, hf, hx⟩
    exact ⟨(id, hashes), find_eq_some.1 hf, decide_eq_true hx⟩

theorem pin_sound (hb : b.Sound) (keep : List Hash) (order : WalkOrder Hash) :
    (({ b.pinFromLru keep with pins := keep } : Budget Hash).unpinUnwanted order).Sound := by
  obtain ⟨hex, hsame, -, -⟩ := pinFromLru_keys keep hb.toExact
  refine unpinUnwanted_sound (hex.withWants keep _) (pinFromLru_unwanted hb keep rfl fun x hx => ?_) order
  rcases wanted_eq_true.1 hx with hx | hx
  · exact Or.inr hx
  · rw [hsame.holds] at hx
    exact Or.inl (wanted_eq_true.2 (Or.inr hx))

theorem hold_wanted (id : ℕ) (hashes : List Hash) (x : Hash) :
    ({ b with holds := b.holds.insert id ((b.holds.find id).getD [] ++ hashes) } : Budget Hash).wanted x = true ↔
      b.wanted x = true ∨ x ∈ hashes := by
  rw [wanted_eq_true, wanted_eq_true, or_assoc]
  refine or_congr_right ⟨?_, ?_⟩
  · rintro ⟨id', held, hf, hx⟩
    rw [find_insert] at hf
    split_ifs at hf with hid
    · rw [← Option.some.inj hf, mem_append] at hx
      refine hx.imp_left fun hx => ?_
      cases hf' : b.holds.find id with
      | none =>
        simp [hf'] at hx
      | some old =>
        rw [hf'] at hx
        exact ⟨id, old, hf', hx⟩
    · exact Or.inl ⟨id', held, hf, hx⟩
  · rintro (⟨id', held, hf, hx⟩ | hx)
    · by_cases hid : id' = id
      · refine ⟨id', _, by rw [find_insert, if_pos hid], mem_append_left _ ?_⟩
        rwa [← hid, hf]
      · exact ⟨id', held, by rw [find_insert, if_neg hid, hf], hx⟩
    · exact ⟨id, _, by rw [find_insert, if_pos rfl], mem_append_right _ hx⟩

theorem hold_sound (hb : b.Sound) (id : ℕ) (hashes : List Hash) : (b.handle (.hold id hashes)).1.Sound := by
  obtain ⟨hex, hsame, -, hpinned⟩ := pinFromLru_keys hashes hb.toExact
  have hwants : ∀ x, (b.handle (.hold id hashes)).1.wanted x = true ↔ b.wanted x = true ∨ x ∈ hashes := fun x => by
    rw [← hsame.wanted x]
    exact hold_wanted id hashes x
  refine { hex.withWants _ _ with
    lru := pinFromLru_unwanted hb hashes rfl fun x => (hwants x).1
    pinned := fun x hx => (hwants x).2 ?_ }
  rcases (hpinned x).1 hx with hx | hx
  · exact Or.inl (hb.pinned x hx)
  · exact Or.inr hx.2

theorem release_sound (hb : b.Sound) (id : ℕ) (order : WalkOrder Hash) :
    (({ b with holds := b.holds.erase id } : Budget Hash).unpinUnwanted order).Sound := by
  refine unpinUnwanted_sound (hb.toExact.withWants _ _) (fun x hx => ?_) order
  refine Bool.eq_false_iff.2 fun hw => Bool.eq_false_iff.1 (hb.lru x hx) (wanted_eq_true.2 ?_)
  refine (wanted_eq_true.1 hw).imp_right ?_
  rintro ⟨id', held, hf, hx⟩
  rw [find_erase] at hf
  split_ifs at hf with hid
  exact ⟨id', held, hf, hx⟩

theorem touch_sound (hb : b.Sound) (hash : Hash) : (b.handle (.touch hash)).1.Sound := by
  simp only [handle]
  cases hf : b.lru.find hash with
  | none => exact hb
  | some len =>
    have hmem : hash ∈ b.lru.keys := mem_keys.2 ⟨len, hf⟩
    have hkeys : ∀ x ∈ (b.lru.insert hash len).keys, x ∈ b.lru.keys := by
      intro x hx
      rcases mem_keys_insert.1 hx with hx | rfl
      · exact hx
      · exact hmem
    refine ⟨⟨fun x hx => hb.disjoint x (hkeys x hx), ?_, hb.pinnedBytes, hb.saturated⟩,
      fun x hx => hb.lru x (hkeys x hx), hb.pinned⟩
    exact hb.bytes.trans ((total_erase hf).trans total_insert.symm)

theorem remove_sound (hb : b.Sound) (hash : Hash) : (b.handle (.remove hash)).1.Sound := by
  have hwants : SameWants b ((b.removeLru hash).removePinned hash) := removeLru_wants.trans removePinned_wants
  show ((b.removeLru hash).removePinned hash).Sound
  refine { hb.toExact.removeLru.removePinned with lru := fun x hx => ?_, pinned := fun x hx => ?_ }
  · rw [removePinned_lru, removeLru_lru, mem_keys_erase] at hx
    exact (hwants.wanted x).trans (hb.lru x hx.1)
  · rw [removePinned_pinned, removeLru_pinned, mem_keys_erase] at hx
    exact (hwants.wanted x).trans (hb.pinned x hx.1)

theorem handle_sound (hb : b.Sound) : ∀ msg, (b.handle msg).1.Sound
  | .admitChunk _ _ => hb.place.evictTo _ _
  | .touch hash => touch_sound hb hash
  | .remove hash => remove_sound hb hash
  | .pin keep order => (pin_sound hb keep order).evictTo _ _
  | .hold id hashes => hold_sound hb id hashes
  | .release id order => by
    simp only [handle]
    cases b.holds.find id with
    | none => exact hb
    | some _ => exact (release_sound hb id order).evictTo _ _
  | .evict _ _ => hb.evictTo _ _
  | .stats => hb

def asked (b : Budget Hash) : Msg Hash → Budget Hash
  | .pin keep _ => { b with pins := keep }
  | .hold id hashes => { b with holds := b.holds.insert id ((b.holds.find id).getD [] ++ hashes) }
  | .release id _ => { b with holds := b.holds.erase id }
  | _ => b

theorem handle_wants (hb : b.Sound) : ∀ msg, SameWants (b.asked msg) (b.handle msg).1
  | .admitChunk hash len => by
    obtain ⟨hex, hwants, -, -⟩ := place_keys (h := hash) (b := b) hb.toExact
    exact hwants.trans (evictTo_spec hex _ _).1.wants
  | .touch hash => by
    simp only [handle]
    cases b.lru.find hash <;> exact ⟨rfl, rfl, rfl⟩
  | .remove _ => removeLru_wants.trans removePinned_wants
  | .pin keep order => by
    obtain ⟨hex, hpin, -, -⟩ := pinFromLru_keys keep hb.toExact
    obtain ⟨hex, hunpin⟩ := unpinUnwanted_exact (hex.withWants keep _) order
    refine SameWants.trans ?_ (hunpin.trans (evictTo_spec hex _ _).1.wants)
    exact ⟨hpin.budget, rfl, hpin.holds⟩
  | .hold _ hashes => by
    obtain ⟨-, hpin, -, -⟩ := pinFromLru_keys hashes hb.toExact
    refine ⟨hpin.budget, hpin.pins, ?_⟩
    show (b.pinFromLru hashes).holds.insert _ _ = _
    rw [hpin.holds]
    rfl
  | .release id order => by
    simp only [handle]
    cases hf : b.holds.find id with
    | none => exact ⟨rfl, rfl, (erase_of_find hf).symm⟩
    | some _ =>
      obtain ⟨hex, hunpin⟩ := unpinUnwanted_exact (hb.toExact.withWants b.pins (b.holds.erase id)) order
      exact hunpin.trans (evictTo_spec hex _ _).1.wants
  | .evict _ _ => (evictTo_spec hb.toExact _ _).1.wants
  | .stats => .refl

theorem handle_held {msg : Msg Hash} : (b.handle msg).2.2 = .held ↔ ∃ id hashes, msg = .hold id hashes := by
  cases msg with
  | hold id hashes => exact ⟨fun _ => ⟨id, hashes, rfl⟩, fun _ => rfl⟩
  | touch hash =>
    simp only [handle]
    cases b.lru.find hash <;> exact ⟨nofun, nofun⟩
  | release id order =>
    simp only [handle]
    cases b.holds.find id <;> exact ⟨nofun, nofun⟩
  | _ => exact ⟨nofun, nofun⟩

theorem handle_budget (hb : b.Sound) (msg : Msg Hash) : (b.handle msg).1.budget = b.budget :=
  (handle_wants hb msg).budget.trans (by cases msg <;> rfl)

theorem run_sound (msgs : List (Msg Hash)) : ∀ {b : Budget Hash}, b.Sound →
    (b.run msgs).Sound ∧ (b.run msgs).budget = b.budget := by
  induction msgs with
  | nil => exact fun hb => ⟨hb, rfl⟩
  | cons msg msgs ih =>
    intro b hb
    obtain ⟨hsound, hbudget⟩ := ih (handle_sound hb msg)
    exact ⟨hsound, hbudget.trans (handle_budget hb msg)⟩

theorem handle_unlinked (hb : b.Sound) : ∀ msg, ∀ x ∈ (b.handle msg).2.1,
    (b.handle msg).1.wanted x = false ∧ x ∉ msg.keeps
  | .admitChunk _ _ => hb.place.unlinked _ _
  | .touch hash => by
    simp only [handle]
    cases b.lru.find hash <;> exact nofun
  | .remove _ => nofun
  | .pin keep order => (pin_sound hb keep order).unlinked _ _
  | .hold _ _ => nofun
  | .release id order => by
    simp only [handle]
    cases b.holds.find id with
    | none => exact nofun
    | some _ => exact (release_sound hb id order).unlinked _ _
  | .evict _ _ => hb.unlinked _ _
  | .stats => nofun

end Budget

end FeOS
