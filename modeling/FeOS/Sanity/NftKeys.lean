import FeOS.Sanity.NormalRanges
import FeOS.Spec.NftSets

/-! The keys of address sets: octets are ordered as the numbers are, `next` adds one, and a list
of normal ranges is written without an error as the markers of its ranges. -/

namespace FeOS.Network

open List BigEndian

open Markers (Marker)

/-! Keys -/

variable {key key' : Bytes}

theorem nextRev_some (h : nextRev key = some key') :
    key'.length = key.length ∧ value key'.reverse = value key.reverse + 1 := by
  induction key generalizing key' with
  | nil => cases h
  | cons byte key ih =>
    rw [nextRev] at h
    split_ifs at h with hlast
    · -- a byte of 255 becomes 0, and the carry goes to the next
      obtain ⟨rest, hrest, rfl⟩ := Option.map_eq_some_iff.1 h
      obtain ⟨hlen, hvalue⟩ := ih hrest
      refine ⟨congrArg Nat.succ hlen, ?_⟩
      rw [reverse_cons, reverse_cons, value_append, value_append, hvalue]
      simp only [value, length_nil, length_singleton, pow_zero, pow_one]
      have : ((255 : Fin 256) : ℕ) = 255 := rfl
      have : ((0 : Fin 256) : ℕ) = 0 := rfl
      omega
    · cases h
      refine ⟨rfl, ?_⟩
      have hbyte : ((byte + 1 : Fin 256) : ℕ) = byte + 1 := by
        rw [Fin.val_add_one_of_lt]
        exact lt_of_le_of_ne (Fin.le_last byte) hlast
      rw [reverse_cons, reverse_cons, value_append, value_append]
      simp only [value, length_nil, length_singleton, pow_zero, pow_one, hbyte]
      omega

theorem nextRev_none (h : nextRev key = none) : value key.reverse + 1 = 256 ^ key.length := by
  induction key with
  | nil => rfl
  | cons byte key ih =>
    rw [nextRev] at h
    split_ifs at h with hlast
    have hvalue := ih (Option.map_eq_none_iff.1 h)
    subst hlast
    rw [reverse_cons, value_append, show (255 :: key).length = key.length + 1 from rfl, pow_succ 256 key.length, ← hvalue]
    simp only [value, length_nil, length_singleton, pow_zero, pow_one]
    have : ((255 : Fin 256) : ℕ) = 255 := rfl
    omega

theorem next_some (h : next key = some key') :
    key'.length = key.length ∧ value key' = value key + 1 := by
  obtain ⟨rev, hrev, rfl⟩ := Option.map_eq_some_iff.1 h
  obtain ⟨hlen, hvalue⟩ := nextRev_some hrev
  rw [reverse_reverse] at hvalue
  exact ⟨by rw [length_reverse, hlen, length_reverse], hvalue⟩

theorem next_none (h : next key = none) : value key + 1 = 256 ^ key.length := by
  have := nextRev_none (Option.map_eq_none_iff.1 h)
  rwa [reverse_reverse, length_reverse] at this

theorem next_next (len : ℕ) : Markers.Next (fun k : Bytes => k.length = len) next where
  lt hk h := by
    obtain ⟨hlen, hvalue⟩ := next_some h
    rw [lt_iff hlen.symm, hvalue]
    exact Nat.lt_succ_self _
  le {k k' a} hk h ha hlt := by
    obtain ⟨hlen, hvalue⟩ := next_some h
    rw [lt_iff (hk.trans ha.symm)] at hlt
    rwa [le_iff ((hlen.trans hk).trans ha.symm), hvalue]
  last {k a} hk h ha := by
    have hvalue := next_none h
    have hlt := value_lt a
    rw [le_iff (ha.trans hk.symm)]
    rw [ha] at hlt
    rw [hk] at hvalue
    omega

theorem next_isSome (h : key < key') (hlen : key.length = key'.length) : (next key).isSome := by
  cases hn : next key with
  | some k => rfl
  | none => exact absurd h (not_lt_of_ge ((next_next key.length).last rfl hn hlen.symm))

def Family.width (f : Family) : ℕ := f.keyType.len

theorem Family.top_lt (f : Family) : f.top < 256 ^ f.width := by
  cases f <;> decide

def Family.octets (f : Family) (n : ℕ) : Bytes := digits f.width n

def Family.keys (f : Family) (r : Range) : Bytes × Bytes := (f.octets r.1, f.octets r.2)

section
variable {f : Family} {n m : ℕ}

theorem length_octets (f : Family) (n : ℕ) : (f.octets n).length = f.width := length_digits _ _

theorem value_octets (h : n ≤ f.top) : value (f.octets n) = n := by
  rw [Family.octets, value_digits, Nat.mod_eq_of_lt (h.trans_lt f.top_lt)]

theorem octets_lt (hn : n ≤ f.top) (hm : m ≤ f.top) : f.octets n < f.octets m ↔ n < m := by
  rw [lt_iff (by rw [length_octets, length_octets]), value_octets hn, value_octets hm]

theorem octets_le (hn : n ≤ f.top) (hm : m ≤ f.top) : f.octets n ≤ f.octets m ↔ n ≤ m := by
  rw [← not_lt, ← not_lt, octets_lt hm hn]

theorem octets_inj (hn : n ≤ f.top) (hm : m ≤ f.top) (h : f.octets n = f.octets m) : n = m := by
  rw [← value_octets hn, ← value_octets hm, h]

end

def IpAddr.number : IpAddr → ℕ
  | .v4 a => a.toNat
  | .v6 a => a.toNat

theorem IpAddr.octets_eq (a : IpAddr) : a.octets = a.family.octets a.number := by
  cases a <;> rfl

theorem IpAddr.number_le (a : IpAddr) : a.number ≤ a.family.top := by
  cases a with
  | v4 a => exact Nat.le_sub_one_of_lt a.isLt
  | v6 a => exact Nat.le_sub_one_of_lt a.isLt

variable {f : Family} {ranges ranges' : List Range} {r : Range} {mode : Elements}

/-! Normal ranges as keys -/

theorem keys_normal (h : NormalRanges f.top ranges) :
    Markers.Normal (fun k : Bytes => k.length = f.width) next (ranges.map f.keys) where
  valid := by
    intro k hk
    obtain ⟨r, hr, rfl⟩ := mem_map.1 hk
    obtain ⟨hle, htop⟩ := h.valid r hr
    exact ⟨length_octets _ _, length_octets _ _, (octets_le (hle.trans htop) htop).2 hle⟩
  apart := by
    rw [pairwise_map]
    refine h.apart.imp_of_mem fun {a b} ha hb hab => ?_
    obtain ⟨-, htop⟩ := h.valid a ha
    obtain ⟨hle', htop'⟩ := h.valid b hb
    have hlt : f.octets a.2 < f.octets b.1 := (octets_lt htop (hle'.trans htop')).2 (by omega)
    have hlen : (f.octets a.2).length = (f.octets b.1).length := by rw [length_octets, length_octets]
    obtain ⟨k, hk⟩ := Option.isSome_iff_exists.1 (next_isSome hlt hlen)
    obtain ⟨hklen, hvalue⟩ := next_some hk
    refine ⟨k, hk, ?_⟩
    rwa [Family.keys, lt_iff (hklen.trans hlen), hvalue, value_octets htop, value_octets (hle'.trans htop')]

theorem keys_injOn {a b : Range} (ha : a.1 ≤ a.2 ∧ a.2 ≤ f.top) (hb : b.1 ≤ b.2 ∧ b.2 ≤ f.top)
    (h : f.keys a = f.keys b) : a = b := by
  obtain ⟨h1, h2⟩ := Prod.mk.inj h
  exact Prod.ext (octets_inj (ha.1.trans ha.2) (hb.1.trans hb.2) h1) (octets_inj ha.2 hb.2 h2)

theorem mem_filter_keys (h : NormalRanges f.top ranges) (h' : NormalRanges f.top ranges') (k : Bytes × Bytes) :
    k ∈ (ranges.filter (· ∉ ranges')).map f.keys ↔ k ∈ ranges.map f.keys ∧ k ∉ ranges'.map f.keys := by
  constructor
  · intro hk
    obtain ⟨r, hr, rfl⟩ := mem_map.1 hk
    obtain ⟨hr, hnot⟩ := mem_filter.1 hr
    refine ⟨mem_map_of_mem hr, fun hk' => of_decide_eq_true hnot ?_⟩
    obtain ⟨r', hr', heq⟩ := mem_map.1 hk'
    exact keys_injOn (h'.valid r' hr') (h.valid r hr) heq ▸ hr'
  · rintro ⟨hk, hnot⟩
    obtain ⟨r, hr, rfl⟩ := mem_map.1 hk
    exact mem_map_of_mem (mem_filter.2 ⟨hr, decide_eq_true fun hr' => hnot (mem_map_of_mem hr')⟩)

/-! What is written for normal ranges -/

structure NftSet.IsOf (set : NftSet) (f : Family) : Prop where
  key : set.key = f.keyType
  interval : set.interval = true
  map : set.map = false

theorem intervals_isOf (name : String) (set : AddressSet) : (intervals name set).IsOf set.family := ⟨rfl, rfl, rfl⟩

theorem element_new (h : r.1 ≤ r.2 ∧ r.2 ≤ f.top) :
    element (AddressRange.new f r) = Element.range (f.octets r.1) (f.octets r.2) := by
  have hnumbers := numbers_new h
  cases f with
  | v4 =>
    obtain ⟨h1, h2⟩ := Prod.mk.inj hnumbers
    rw [AddressRange.new, element, IpAddr.octets, IpAddr.octets, h1, h2]
    rfl
  | v6 =>
    obtain ⟨h1, h2⟩ := Prod.mk.inj hnumbers
    rw [AddressRange.new, element, IpAddr.octets, IpAddr.octets, h1, h2]
    rfl

def Family.elements (f : Family) (ranges : List Range) : List Element :=
  (ranges.map (AddressRange.new f)).map element

theorem elements_eq (h : NormalRanges f.top ranges) :
    f.elements ranges = ranges.map fun r => Element.range (f.octets r.1) (f.octets r.2) := by
  rw [Family.elements, map_map]
  exact map_congr_left fun r hr => element_new (h.valid r hr)

theorem Element.range_last (first last : Bytes) : (Element.range first last).last.getD first = last := by
  unfold Element.range
  split_ifs with hne
  · rfl
  · exact not_not.1 hne

theorem checkElement_ok {set : NftSet} (hset : set.IsOf f) (a b : ℕ) :
    checkElement set mode (Element.range (f.octets a) (f.octets b)) = .ok () := by
  have hlen : set.key.len = f.width := by rw [hset.key]; rfl
  have hlast : ((Element.range (f.octets a) (f.octets b)).last.any fun l => l.length ≠ set.key.len) = false := by
    unfold Element.range
    split_ifs <;> simp [length_octets, hlen]
  rw [checkElement, if_neg, if_neg, if_neg]
  · simp [Element.range, hset.map]
  · simp [hset.interval]
  · rw [hlast]
    simp [Element.range, length_octets, hlen]

theorem pairwise_keyRanges (h : NormalRanges f.top ranges) :
    (ranges.map fun r => (f.octets r.1, f.octets r.2, (none : Option Verdict))).Pairwise fun a b => a.1 < b.1 := by
  rw [pairwise_map]
  refine h.pairwise_lt.imp_of_mem fun {a b} ha hb hlt => ?_
  have hva := h.valid a ha
  have hvb := h.valid b hb
  exact (octets_lt (hva.1.trans hva.2) (hvb.1.trans hvb.2)).2 hlt

theorem encodeRanges_ok (set : NftSet) (previous : Option Bytes) (h : NormalRanges f.top ranges)
    (hprevious : ∀ p ∈ previous, ∀ r ∈ ranges, p < f.octets r.1) :
    ∃ encoded, encodeRanges set previous (ranges.map fun r => (f.octets r.1, f.octets r.2, none)) = .ok encoded ∧
      encoded.map Encoded.marker = (ranges.map f.keys).flatMap (Markers.marks next) := by
  induction ranges generalizing previous with
  | nil => exact ⟨[], rfl, rfl⟩
  | cons r ranges ih =>
    obtain ⟨hr, hapart, hrest⟩ := normalRanges_cons.1 h
    have hlt : ¬f.octets r.2 < f.octets r.1 := not_lt.2 ((octets_le (hr.1.trans hr.2) hr.2).2 hr.1)
    have hover : ¬(previous.any fun p => f.octets r.1 ≤ p) = true := by
      cases previous with
      | none => simp
      | some p => simpa using hprevious p rfl r mem_cons_self
    have hlater : ∀ p ∈ some (f.octets r.2), ∀ r' ∈ ranges, p < f.octets r'.1 := by
      rintro _ ⟨⟩ r' hr'
      have hvalid := hrest.valid r' hr'
      have := hapart r' hr'
      exact (octets_lt hr.2 (hvalid.1.trans hvalid.2)).2 (by omega)
    obtain ⟨encoded, hencoded, hmarks⟩ := ih _ hrest hlater
    refine ⟨⟨f.octets r.1, false, none, (next (f.octets r.2)).isNone⟩ ::
      (next (f.octets r.2)).toList.map (⟨·, true, none, false⟩) ++ encoded, ?_, ?_⟩
    · rw [map_cons, encodeRanges, if_neg hlt, if_neg hover, hencoded]
      rfl
    · rw [map_append, map_cons, hmarks, map_cons, flatMap_cons, map_map]
      rfl

theorem setElements_ok {set : NftSet} (hset : set.IsOf f) (h : NormalRanges f.top ranges) (mode : Elements) :
    ∃ encoded zero, setElements set (f.elements ranges) mode = .ok encoded ∧
      (zero = [] ∨ mode = .whole ∧ zero = [⟨replicate f.width 0, true⟩]) ∧
      encoded.map Encoded.marker = zero ++ (ranges.map f.keys).flatMap (Markers.marks next) := by
  have hcheck : (f.elements ranges).forM (checkElement set mode) = .ok () := by
    rw [elements_eq h]
    induction ranges with
    | nil => rfl
    | cons r ranges ih =>
      rw [map_cons, List.forM, checkElement_ok hset]
      exact ih (normalRanges_cons.1 h).2.2
  have hranges : (f.elements ranges).map (fun e => (e.key, e.last.getD e.key, verdictOf mode e)) =
      ranges.map fun r => (f.octets r.1, f.octets r.2, none) := by
    rw [elements_eq h, map_map]
    refine map_congr_left fun r _ => ?_
    have hverdict : verdictOf mode (Element.range (f.octets r.1) (f.octets r.2)) = none := by
      unfold verdictOf Element.range
      split_ifs <;> rfl
    simp only [Function.comp_apply, hverdict]
    exact congrArg (fun l => (f.octets r.1, l, (none : Option Verdict))) (Element.range_last _ _)
  have hsorted : (ranges.map fun r => (f.octets r.1, f.octets r.2, (none : Option Verdict))).Pairwise keyRangeLe :=
    (pairwise_keyRanges h).imp fun hlt => .inl hlt
  have hdistinct : (ranges.map fun r => (f.octets r.1, f.octets r.2, (none : Option Verdict))).Pairwise (· ≠ ·) :=
    (pairwise_keyRanges h).imp fun hlt heq => by
      rw [heq] at hlt
      exact lt_irrefl _ hlt
  obtain ⟨encoded, hencoded, hmarks⟩ := encodeRanges_ok set none h (by simp)
  refine ⟨leading set mode (ranges.map fun r => (f.octets r.1, f.octets r.2, none)) ++ encoded,
    (leading set mode (ranges.map fun r => (f.octets r.1, f.octets r.2, none))).map Encoded.marker, ?_, ?_, ?_⟩
  · unfold setElements
    rw [hcheck, hranges, hsorted.insertionSort_eq, (destutter_eq_self_iff _ _).2 hdistinct.isChain, hset.interval]
    rw [if_neg (by decide)]
    dsimp only [bind, Except.bind, pure, Except.pure]
    rw [hencoded]
  · unfold leading
    split_ifs with hlead
    · right
      refine ⟨hlead.1, ?_⟩
      rw [hset.key]
      rfl
    · exact .inl rfl
  · rw [map_append, hmarks]

end FeOS.Network
