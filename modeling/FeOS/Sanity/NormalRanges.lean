import FeOS.Spec.Policy
import Mathlib.Data.List.Destutter

/-! Every set of a compiled policy is normal: in order, and its ranges neither overlap nor
touch. `normalize` makes such ranges, `subtract` keeps them so, and a compiled set is made by
one of the two. -/

namespace FeOS.Network

open List

open Keyed (Table)

def Family.top : Family → ℕ
  | .v4 => 2 ^ 32 - 1
  | .v6 => 2 ^ 128 - 1

structure NormalRanges (top : ℕ) (ranges : List Range) : Prop where
  valid : ∀ r ∈ ranges, r.1 ≤ r.2 ∧ r.2 ≤ top
  apart : ranges.Pairwise fun a b => a.2 + 1 < b.1

variable {top : ℕ} {ranges holes merged : List Range} {r : Range}

theorem normalRanges_nil : NormalRanges top [] := ⟨by simp, List.Pairwise.nil⟩

theorem normalRanges_singleton (h : r.1 ≤ r.2) (htop : r.2 ≤ top) : NormalRanges top [r] :=
  ⟨by simp [h, htop], pairwise_singleton _ _⟩

theorem normalRanges_cons : NormalRanges top (r :: ranges) ↔
    (r.1 ≤ r.2 ∧ r.2 ≤ top) ∧ (∀ b ∈ ranges, r.2 + 1 < b.1) ∧ NormalRanges top ranges := by
  constructor
  · rintro ⟨hvalid, hapart⟩
    obtain ⟨hfirst, hrest⟩ := pairwise_cons.1 hapart
    exact ⟨hvalid r mem_cons_self, hfirst, fun b hb => hvalid b (mem_cons_of_mem _ hb), hrest⟩
  · rintro ⟨hr, hfirst, hvalid, hapart⟩
    exact ⟨forall_mem_cons.2 ⟨hr, hvalid⟩, pairwise_cons.2 ⟨hfirst, hapart⟩⟩

theorem NormalRanges.append {ranges' : List Range} (h : NormalRanges top ranges) (h' : NormalRanges top ranges')
    (hapart : ∀ a ∈ ranges, ∀ b ∈ ranges', a.2 + 1 < b.1) : NormalRanges top (ranges ++ ranges') :=
  ⟨fun r hr => (mem_append.1 hr).elim (h.valid r) (h'.valid r), pairwise_append.2 ⟨h.apart, h'.apart, hapart⟩⟩

/-! `normalize` -/

structure Merged (top : ℕ) (merged : List Range) : Prop where
  valid : ∀ r ∈ merged, r.1 ≤ r.2 ∧ r.2 ≤ top
  apart : merged.Pairwise fun a b => b.2 + 1 < a.1

theorem Merged.mergeInto (h : Merged top merged) (hr : r.1 ≤ r.2 ∧ r.2 ≤ top) (hnext : ∀ a ∈ merged, a.1 ≤ r.1) :
    Merged top (mergeInto merged r) := by
  cases merged with
  | nil => exact ⟨by simpa [Network.mergeInto] using hr, pairwise_singleton _ _⟩
  | cons last before =>
    obtain ⟨hlast, hbefore⟩ := pairwise_cons.1 h.apart
    have hvalid := forall_mem_cons.1 h.valid
    rw [Network.mergeInto]
    split_ifs with hjoin
    · refine ⟨forall_mem_cons.2 ⟨?_, hvalid.2⟩, pairwise_cons.2 ⟨hlast, hbefore⟩⟩
      exact ⟨hvalid.1.1.trans (le_max_left _ _), max_le hvalid.1.2 hr.2⟩
    · refine ⟨forall_mem_cons.2 ⟨hr, h.valid⟩, pairwise_cons.2 ⟨?_, h.apart⟩⟩
      rintro b (_ | ⟨_, hb⟩)
      · exact not_le.1 fun hle => hjoin (.inr hle)
      · have := hlast b hb
        have := hvalid.1.1
        have := hnext last mem_cons_self
        omega

variable {a scope : Range} {sets : Sets} {set : Family × List Range}

theorem mem_mergeInto_start (ha : a ∈ mergeInto merged r) : a.1 = r.1 ∨ ∃ b ∈ merged, a.1 = b.1 := by
  cases merged with
  | nil =>
    rw [mergeInto, mem_singleton] at ha
    exact .inl (ha ▸ rfl)
  | cons last before =>
    rw [mergeInto] at ha
    split_ifs at ha with hjoin
    · rcases mem_cons.1 ha with rfl | ha
      · exact .inr ⟨last, mem_cons_self, rfl⟩
      · exact .inr ⟨a, mem_cons_of_mem _ ha, rfl⟩
    · rcases mem_cons.1 ha with rfl | ha
      · exact .inl rfl
      · exact .inr ⟨a, ha, rfl⟩

theorem Merged.foldl (hsorted : ranges.Pairwise rangeLe) (hvalid : ∀ r ∈ ranges, r.1 ≤ r.2 ∧ r.2 ≤ top)
    (h : Merged top merged) (hnext : ∀ r ∈ ranges, ∀ a ∈ merged, a.1 ≤ r.1) :
    Merged top (ranges.foldl Network.mergeInto merged) := by
  induction ranges generalizing merged with
  | nil => exact h
  | cons r ranges ih =>
    obtain ⟨hfirst, hrest⟩ := pairwise_cons.1 hsorted
    obtain ⟨hr, hvalid⟩ := forall_mem_cons.1 hvalid
    obtain ⟨hnext, hnext'⟩ := forall_mem_cons.1 hnext
    refine ih hrest hvalid (h.mergeInto hr hnext) fun r' hr' a ha => ?_
    rcases mem_mergeInto_start ha with heq | ⟨b, hb, heq⟩
    · rw [heq]
      exact (hfirst r' hr').elim le_of_lt fun hle => hle.1.le
    · rw [heq]
      exact hnext' r' hr' b hb

theorem pairwise_rangeLe_insertionSort (l : List Range) : (l.insertionSort rangeLe).Pairwise rangeLe := by
  have : Std.Total rangeLe := ⟨fun a b => by unfold rangeLe; omega⟩
  have : IsTrans Range rangeLe := ⟨fun a b c => by unfold rangeLe; omega⟩
  exact pairwise_insertionSort _ l

theorem normalRanges_normalize (h : ∀ r ∈ ranges, r.2 ≤ top) : NormalRanges top (normalize ranges) := by
  have hvalid : ∀ r ∈ (ranges.filter fun r => r.1 ≤ r.2).insertionSort rangeLe, r.1 ≤ r.2 ∧ r.2 ≤ top := by
    intro r hr
    obtain ⟨hr, hle⟩ := mem_filter.1 ((mem_insertionSort _).1 hr)
    exact ⟨of_decide_eq_true hle, h r hr⟩
  have hempty : Merged top [] := ⟨by simp, List.Pairwise.nil⟩
  have hmerged := hempty.foldl (pairwise_rangeLe_insertionSort _) hvalid (by simp)
  exact ⟨fun r hr => hmerged.valid r (mem_reverse.1 hr), pairwise_reverse.2 hmerged.apart⟩

/-! `subtract` -/

theorem normalRanges_cut {start last : ℕ} (hle : start ≤ last) (htop : last ≤ top) (hholes : ∀ h ∈ holes, h.1 ≤ h.2) :
    NormalRanges top (cut last start holes) ∧ ∀ r ∈ cut last start holes, start ≤ r.1 ∧ r.2 ≤ last := by
  have hwhole : NormalRanges top [(start, last)] ∧ ∀ r ∈ [(start, last)], start ≤ r.1 ∧ r.2 ≤ last :=
    ⟨normalRanges_singleton hle htop, by simp⟩
  induction holes generalizing start with
  | nil => exact hwhole
  | cons hole holes ih =>
    obtain ⟨hhole, hholes⟩ := forall_mem_cons.1 hholes
    rw [cut]
    by_cases hpast : hole.2 < start
    · rw [if_pos hpast]
      exact ih hle hholes hwhole
    rw [if_neg hpast]
    by_cases hbeyond : last < hole.1
    · rwa [if_pos hbeyond]
    rw [if_neg hbeyond]
    -- what comes after the hole
    have hafter : NormalRanges top (if last ≤ hole.2 then [] else cut last (hole.2 + 1) holes) ∧
        ∀ r ∈ (if last ≤ hole.2 then [] else cut last (hole.2 + 1) holes), hole.2 + 1 ≤ r.1 ∧ r.2 ≤ last := by
      split_ifs with hcovered
      · exact ⟨normalRanges_nil, by simp⟩
      · exact ih (by omega) hholes ⟨normalRanges_singleton (by simp; omega) htop, by simp⟩
    generalize (if last ≤ hole.2 then [] else cut last (hole.2 + 1) holes) = after at hafter ⊢
    split_ifs with hpiece
    · refine ⟨NormalRanges.append (normalRanges_singleton (by simp; omega) (by simp; omega)) hafter.1 ?_, ?_⟩
      · intro a ha b hb
        have := (hafter.2 b hb).1
        rw [mem_singleton] at ha
        subst ha
        simp only
        omega
      · intro r hr
        rcases mem_append.1 hr with hr | hr
        · rw [mem_singleton] at hr
          subst hr
          simp only
          omega
        · have := hafter.2 r hr
          omega
    · rw [nil_append]
      exact ⟨hafter.1, fun r hr => by have := hafter.2 r hr; omega⟩

theorem NormalRanges.subtract (h : NormalRanges top ranges) (hholes : ∀ h ∈ holes, h.1 ≤ h.2) :
    NormalRanges top (subtract ranges holes) := by
  induction ranges with
  | nil => exact normalRanges_nil
  | cons r ranges ih =>
    obtain ⟨hr, hfirst, hrest⟩ := normalRanges_cons.1 h
    obtain ⟨hcut, hin⟩ := normalRanges_cut hr.1 hr.2 hholes
    rw [Network.subtract, flatMap_cons]
    refine hcut.append (ih hrest) fun a ha b hb => ?_
    obtain ⟨r', hr', hb⟩ := mem_flatMap.1 hb
    have hvalid := hrest.valid r' hr'
    have hb := (normalRanges_cut hvalid.1 hvalid.2 hholes).2 b hb
    have := hin a ha
    have := hfirst r' hr'
    omega

/-! Prefixes and the registry -/

theorem prefixBits_le (address : BitVec 128) (len : ℕ) :
    (prefixBits address len).1.toNat ≤ (prefixBits address len).2.toNat := by
  rw [prefixBits, BitVec.toNat_and, BitVec.toNat_or]
  exact Nat.and_le_left.trans Nat.left_le_or

theorem Prefix.range_valid (p : Prefix) : p.range.1 ≤ p.range.2 ∧ p.range.2 ≤ p.family.top := by
  cases p with
  | v4 address len =>
    have hle := prefixBits_le (address.zeroExtend 128 <<< 96) len
    have hlt := (prefixBits (address.zeroExtend 128 <<< 96) len).2.isLt
    simp only [Prefix.range, Prefix.family, Family.top, BitVec.toNat_ushiftRight, Nat.shiftRight_eq_div_pow]
    exact ⟨Nat.div_le_div_right hle, by omega⟩
  | v6 address len =>
    exact ⟨prefixBits_le address len, by simp only [Prefix.range, Prefix.family, Family.top]; omega⟩

variable (L : Libs)

theorem intersect_le {b : Range} (h : intersect a b = some r) : r.2 ≤ b.2 := by
  unfold intersect at h
  split_ifs at h
  cases h
  exact min_le_right _ _

theorem NormalRanges.globalStep (hscope : scope.2 ≤ top) (h : NormalRanges top ranges)
    (entry : Prefix × Bool) : NormalRanges top (globalStep scope ranges entry) := by
  rw [Network.globalStep]
  split_ifs with hglobal
  · split
    · next r hr =>
      apply normalRanges_normalize
      intro r' hr'
      rcases mem_append.1 hr' with hr' | hr'
      · exact (h.valid r' hr').2
      · rw [mem_singleton] at hr'
        exact hr' ▸ (intersect_le hr).trans hscope
    · exact h
  · exact h.subtract (by simpa using entry.1.range_valid.1)

theorem normalRanges_global (hle : scope.1 ≤ scope.2) (hscope : scope.2 ≤ top) (registry : List (String × Bool)) :
    NormalRanges top (global L scope registry) := by
  exact foldlRecOn _ _ (motive := NormalRanges top) (normalRanges_singleton hle hscope)
    fun ranges h entry _ => h.globalStep hscope entry

theorem normalRanges_internet4 : NormalRanges Family.v4.top (internet4 L) :=
  normalRanges_global L (Prefix.range_valid _).1 (Prefix.range_valid (Prefix.v4 0 0)).2 _

theorem Family.top_le (f : Family) : f.top ≤ Family.v6.top := by
  cases f <;> decide

theorem normalRanges_internet6 : NormalRanges Family.v6.top (internet6 L) := by
  rw [internet6]
  split
  · next scope hscope =>
    exact normalRanges_global L scope.range_valid.1 (scope.range_valid.2.trans scope.family.top_le) _
  · exact normalRanges_nil

/-! The compiler -/

theorem normalRanges_members (group : Option SecurityGroup) : NormalRanges Family.v6.top (members L group) := by
  apply normalRanges_normalize
  intro r hr
  obtain ⟨member, -, hr⟩ := mem_filterMap.1 hr
  obtain ⟨a, -, rfl⟩ := Option.map_eq_some_iff.1 hr
  exact Nat.le_sub_one_of_lt a.isLt

theorem normalRanges_block (cidr : Prefix) (except : List Prefix) : NormalRanges cidr.family.top (block cidr except) := by
  refine (normalRanges_singleton cidr.range_valid.1 cidr.range_valid.2).subtract fun h hh => ?_
  have hholes : NormalRanges Family.v6.top (normalize ((except.filter fun p => p.family = cidr.family).map Prefix.range)) :=
    normalRanges_normalize fun r hr => by
      obtain ⟨p, -, rfl⟩ := mem_map.1 hr
      exact p.range_valid.2.trans p.family.top_le
  exact (hholes.valid h hh).1

theorem normalRanges_denySet (denied : List Prefix) (family : Family) :
    NormalRanges family.top (denySet denied family).2 := by
  apply normalRanges_normalize
  intro r hr
  obtain ⟨p, hp, rfl⟩ := mem_map.1 hr
  obtain rfl := of_decide_eq_true (mem_filter.1 hp).2
  exact p.range_valid.2

def Sets.Normal (sets : Sets) : Prop := ∀ p ∈ sets.items, NormalRanges p.2.1.top p.2.2

theorem Sets.Normal.insert (h : sets.Normal) (name : String)
    (hset : NormalRanges set.1.top set.2) : Sets.Normal (sets.insert name set) := by
  intro p hp
  rcases Table.mem_insert_items.1 hp with rfl | ⟨hp, -⟩
  · exact hset
  · exact h p hp

theorem Sets.Normal.orInsert (h : sets.Normal) (name : String)
    (hset : NormalRanges set.1.top set.2) : Sets.Normal (sets.orInsert name set) := by
  intro p hp
  rcases Table.of_mem_orInsert_items hp with rfl | hp
  · exact hset
  · exact h p hp

theorem baseSets_normal (denied : List Prefix) : (baseSets L denied).Normal := by
  have hempty : Sets.Normal Table.empty := by simp [Sets.Normal, Table.empty]
  refine Sets.Normal.insert (Sets.Normal.insert (Sets.Normal.insert (hempty.insert _ ?_) _ ?_) _ ?_) _ ?_
  · exact normalRanges_denySet denied .v4
  · exact normalRanges_denySet denied .v6
  · exact normalRanges_internet4 L
  · exact normalRanges_internet6 L

section
variable (groups : String → Option SecurityGroup)
include groups

theorem normalRanges_peerSet (peer : Peer) :
    NormalRanges (peerSet L groups peer).2.1.top (peerSet L groups peer).2.2 := by
  cases peer with
  | block cidr except => exact normalRanges_block cidr except
  | group id => exact normalRanges_members L _

theorem readRule_normal {r : Reading} (h : r.sets.Normal) (rule : ProtoRule) :
    (readRule L groups r rule).sets.Normal := by
  unfold readRule
  split
  · exact h
  · next rule hparse =>
    have hsets := h.orInsert (peerSet L groups rule.peer).1 (normalRanges_peerSet L groups rule.peer)
    dsimp only
    split_ifs with happlies
    · split
      · exact hsets
      · exact hsets
    · exact h

theorem compilePod_normal (h : sets.Normal) (pod : Pod) :
    (compilePod L groups sets pod).1.Normal := by
  unfold compilePod
  dsimp only
  split_ifs
  · exact h
  · exact h
  · exact foldlRecOn _ _ (motive := fun r : Reading => r.sets.Normal) h
      fun r hr rule _ => readRule_normal L groups hr rule

theorem compilePods_normal (h : sets.Normal) (pods : List Pod) :
    (compilePods L groups sets pods).1.Normal := by
  induction pods generalizing sets with
  | nil => exact h
  | cons pod pods ih => exact ih (compilePod_normal L groups h pod)

end

structure AddressSet.Of (set : AddressSet) (ranges : List Range) : Prop where
  normal : NormalRanges set.family.top ranges
  eq : set = AddressSet.new set.family ranges

theorem compile_normal (input : Input) {name : String} {set : AddressSet} (h : (name, set) ∈ (compile L input).sets.items) :
    ∃ ranges, set.Of ranges := by
  obtain ⟨s, hs, rfl⟩ := Table.mem_map_items.1 h
  exact ⟨s.2, compilePods_normal L input.groups (baseSets_normal L _) input.pods _ hs, rfl⟩

/-! A set's numbers -/

theorem toNat_ipv4 {n : ℕ} (h : n ≤ Family.v4.top) : (AddressRange.ipv4 n).toNat = n := by
  have hlt : n < 2 ^ 32 := Nat.lt_of_le_sub_one (by decide) h
  rw [AddressRange.ipv4, if_pos hlt, BitVec.toNat_ofNat, Nat.mod_eq_of_lt hlt]

theorem numbers_new {family : Family} (h : r.1 ≤ r.2 ∧ r.2 ≤ family.top) : (AddressRange.new family r).numbers = r := by
  obtain ⟨hle, htop⟩ := h
  cases family with
  | v4 => rw [AddressRange.new, AddressRange.numbers, toNat_ipv4 (hle.trans htop), toNat_ipv4 htop]
  | v6 =>
    have hlt : r.2 < 2 ^ 128 := Nat.lt_of_le_sub_one (by decide) htop
    rw [AddressRange.new, AddressRange.numbers, BitVec.toNat_ofNat, BitVec.toNat_ofNat, Nat.mod_eq_of_lt hlt,
      Nat.mod_eq_of_lt (hle.trans_lt hlt)]

theorem NormalRanges.pairwise_lt (h : NormalRanges top ranges) : ranges.Pairwise fun a b => a.1 < b.1 := by
  refine (h.apart.imp_of_mem (S := fun a b => a.1 < b.1)) fun {a b} ha _ hab => ?_
  have := (h.valid a ha).1
  omega

theorem AddressSet.Of.numbers_eq {set : AddressSet} (h : set.Of ranges) : set.numbers = ranges := by
  have hmap : (ranges.map (AddressRange.new set.family)).map AddressRange.numbers = ranges := by
    rw [map_map]
    conv_rhs => rw [← map_id ranges]
    exact map_congr_left fun r hr => numbers_new (h.normal.valid r hr)
  have hsorted : ranges.Pairwise rangeLe := h.normal.pairwise_lt.imp fun hlt => .inl hlt
  have hdistinct : ranges.Pairwise (· ≠ ·) := h.normal.pairwise_lt.imp fun hlt heq => by
    rw [heq] at hlt
    exact lt_irrefl _ hlt
  have hranges : set.ranges = ranges.map (AddressRange.new set.family) := congrArg AddressSet.ranges h.eq
  rw [AddressSet.numbers, hranges, hmap, hsorted.insertionSort_eq]
  exact (destutter_eq_self_iff _ _).2 hdistinct.isChain

end FeOS.Network
