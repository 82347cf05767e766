import FeOS.Spec.LogShip

/-! A record of a log stands for a block of its lines, and what a shipper holds, and what the sink has
stored, is one block after the other. -/

namespace FeOS.Sink

open List

def span (id : LogId) (a b : ℕ) : List (LogId × ℕ) := (range' a (b - a)).map fun k => (id, k)

variable {id : LogId} {log : Log} {a b c m : ℕ} {l : Line} {ls ls' : List Line} {d : Dropped}

theorem mem_span {p : LogId × ℕ} : p ∈ span id a b ↔ p.1 = id ∧ a ≤ p.2 ∧ p.2 < b := by
  unfold span
  rw [mem_map]
  constructor
  · rintro ⟨k, hk, rfl⟩
    rw [mem_range'_1] at hk
    exact ⟨rfl, hk.1, by omega⟩
  · rintro ⟨rfl, ha, hb⟩
    refine ⟨p.2, ?_, rfl⟩
    rw [mem_range'_1]
    omega

theorem span_self : span id a a = [] := by
  unfold span
  rw [Nat.sub_self]
  rfl

theorem span_succ : span id a (a + 1) = [(id, a)] := by
  unfold span
  rw [Nat.add_sub_cancel_left]
  rfl

theorem span_append (hab : a ≤ b) (hbc : b ≤ c) : span id a b ++ span id b c = span id a c := by
  unfold span
  rw [← map_append]
  have hb : b = a + 1 * (b - a) := by omega
  have hc : b - a + (c - b) = c - a := by omega
  conv_lhs => rw [show range' b (c - b) = range' (a + 1 * (b - a)) (c - b) by rw [← hb]]
  rw [range'_append, hc]

theorem length_span : (span id a b).length = b - a := by
  unfold span
  rw [length_map, length_range']

theorem nodup_span : (span id a b).Nodup := by
  refine List.Nodup.map (fun x y h => (Prod.mk.inj h).2) nodup_range'

/-! What a record counts -/

structure Counts (id : LogId) (log : Log) (lines bytes offset nextOffset : ℕ) (stands : List (LogId × ℕ)) : Prop where
  lines : lines = stands.length
  bytes : bytes = (stands.map fun p => (log.text p.2).utf8ByteSize).sum
  /-- it is where one of them starts -/
  starts : ∃ k, (id, k) ∈ stands ∧ offset = log.start k
  le_next : ∀ k, (id, k) ∈ stands → log.start (k + 1) ≤ nextOffset
  /-- and says where one of them ends -/
  ends : ∃ k, (id, k) ∈ stands ∧ nextOffset = log.start (k + 1)

def Line.Counted (id : LogId) (log : Log) (l : Line) : Prop :=
    Counts id log l.counts.1 l.counts.2 l.offset l.nextOffset l.stands

def Dropped.Tallies (id : LogId) (log : Log) (d : Dropped) : Prop :=
  d = .empty ∨ Counts id log d.lines d.bytes d.offset d.nextOffset d.stands

theorem Line.counted_of (id : LogId) (log : Log) (k : ℕ) : (Line.of id log k).Counted id log where
  lines := rfl
  bytes := rfl
  starts := ⟨k, mem_singleton.2 rfl, rfl⟩
  le_next := by
    intro j hj
    cases mem_singleton.1 hj
    exact le_rfl
  ends := ⟨k, mem_singleton.2 rfl, rfl⟩

theorem Counts.pos {lines bytes offset nextOffset : ℕ} {stands : List (LogId × ℕ)}
    (h : Counts id log lines bytes offset nextOffset stands) : 0 < lines := by
  obtain ⟨k, hk, -⟩ := h.starts
  rw [h.lines]
  exact length_pos_of_mem hk

theorem Dropped.counts_add (hd : d.Tallies id log) (hl : l.Counted id log) :
    Counts id log (d.add l).lines (d.add l).bytes (d.add l).offset (d.add l).nextOffset (d.add l).stands := by
  rcases hd with rfl | hd
  · exact {
      lines := by simpa [add, empty] using hl.lines
      bytes := by simpa [add, empty] using hl.bytes
      starts := by simpa [add, empty] using hl.starts
      le_next := by simpa [add, empty] using hl.le_next
      ends := by simpa [add, empty] using hl.ends }
  · have hne : d.lines ≠ 0 := hd.pos.ne'
    refine ⟨?_, ?_, ?_, ?_, ?_⟩
    · simp only [add, length_append]
      rw [hd.lines, hl.lines]
    · simp only [add, map_append, sum_append]
      rw [hd.bytes, hl.bytes]
    · -- it stays at the first of them
      obtain ⟨k, hk, hoff⟩ := hd.starts
      refine ⟨k, mem_append_left _ hk, ?_⟩
      simp only [add, if_neg hne]
      exact hoff
    · intro k hk
      rcases mem_append.1 hk with hk | hk
      · exact (hd.le_next k hk).trans (le_max_left _ _)
      · exact (hl.le_next k hk).trans (le_max_right _ _)
    · obtain ⟨k, hk, hk'⟩ := hd.ends
      obtain ⟨j, hj, hj'⟩ := hl.ends
      simp only [add]
      rcases le_total d.nextOffset l.nextOffset with hle | hle
      · exact ⟨j, mem_append_right _ hj, by rw [max_eq_right hle, hj']⟩
      · exact ⟨k, mem_append_left _ hk, by rw [max_eq_left hle, hk']⟩

theorem Dropped.tallies_foldl (hd : d.Tallies id log) (hls : ∀ l ∈ ls, l.Counted id log) :
    (ls.foldl add d).Tallies id log ∧ (ls.foldl add d).stands = d.stands ++ ls.flatMap Line.stands := by
  induction ls generalizing d with
  | nil => exact ⟨hd, by simp⟩
  | cons l ls ih =>
    have hl := counts_add hd (hls l mem_cons_self)
    obtain ⟨htal, hstands⟩ := ih (.inr hl) fun l' hl' => hls l' (mem_cons_of_mem _ hl')
    refine ⟨htal, ?_⟩
    rw [foldl_cons, hstands, flatMap_cons, ← append_assoc]
    rfl

/-! Blocks -/

/-- A record that stands for the lines from `a` to before `b`; one that dropped nothing is its line. -/
structure Block (id : LogId) (log : Log) (a b : ℕ) (l : Line) : Prop where
  lt : a < b
  stands : l.stands.Perm (span id a b)
  counted : l.Counted id log
  line : l.dropped = none → l = Line.of id log a

theorem Block.of (id : LogId) (log : Log) (k : ℕ) : Block id log k (k + 1) (.of id log k) := by
  refine ⟨Nat.lt_succ_self k, ?_, Line.counted_of id log k, fun _ => rfl⟩
  rw [span_succ]
  rfl

namespace Block
variable (h : Block id log a b l)
include h

theorem mem_stands {p : LogId × ℕ} : p ∈ l.stands ↔ p.1 = id ∧ a ≤ p.2 ∧ p.2 < b :=
  h.stands.mem_iff.trans mem_span

theorem offset : ∃ k, a ≤ k ∧ k < b ∧ l.offset = log.start k := by
  obtain ⟨k, hk, hoff⟩ := h.counted.starts
  obtain ⟨-, hak, hkb⟩ := h.mem_stands.1 hk
  exact ⟨k, hak, hkb, hoff⟩

theorem start_le_offset : log.start a ≤ l.offset := by
  obtain ⟨k, hak, -, hoff⟩ := h.offset
  rw [hoff]
  exact log.strictMono.monotone hak

theorem offset_lt : l.offset < log.start b := by
  obtain ⟨k, -, hkb, hoff⟩ := h.offset
  rw [hoff]
  exact log.strictMono hkb

theorem nextOffset : l.nextOffset = log.start b := by
  obtain ⟨k, hk, hnext⟩ := h.counted.ends
  obtain ⟨-, -, hkb⟩ := h.mem_stands.1 hk
  have hlast : (id, b - 1) ∈ l.stands := h.mem_stands.2 ⟨rfl, Nat.le_sub_one_of_lt h.lt,
      Nat.sub_lt (Nat.zero_lt_of_lt h.lt) Nat.one_pos⟩
  have hge := h.counted.le_next _ hlast
  rw [Nat.sub_add_cancel (Nat.one_le_of_lt h.lt)] at hge
  refine le_antisymm ?_ hge
  rw [hnext]
  exact log.strictMono.monotone hkb

end Block

def Blocks (id : LogId) (log : Log) : ℕ → List Line → ℕ → Prop
  | a, [], b => a = b
  | a, l :: ls, b => ∃ c, Block id log a c l ∧ Blocks id log c ls b

theorem Blocks.le (h : Blocks id log a ls b) : a ≤ b := by
  induction ls generalizing a with
  | nil => exact h.le
  | cons l ls ih =>
    obtain ⟨c, hl, hls⟩ := h
    exact hl.lt.le.trans (ih hls)

theorem blocks_append : Blocks id log a (ls ++ ls') b ↔ ∃ c, Blocks id log a ls c ∧ Blocks id log c ls' b := by
  induction ls generalizing a with
  | nil => exact ⟨fun h => ⟨a, rfl, h⟩, fun ⟨c, hc, h⟩ => by cases hc; exact h⟩
  | cons l ls ih =>
    constructor
    · rintro ⟨c, hl, h⟩
      obtain ⟨e, he, h⟩ := ih.1 h
      exact ⟨e, ⟨c, hl, he⟩, h⟩
    · rintro ⟨e, ⟨c, hl, he⟩, h⟩
      exact ⟨c, hl, ih.2 ⟨e, he, h⟩⟩

theorem blocks_singleton : Blocks id log a [l] b ↔ Block id log a b l :=
  ⟨fun ⟨_, hl, h⟩ => by cases h; exact hl, fun h => ⟨b, h, rfl⟩⟩

namespace Blocks
variable (h : Blocks id log a ls b)
include h

theorem block (hl : l ∈ ls) : ∃ x y, a ≤ x ∧ y ≤ b ∧ Block id log x y l := by
  induction ls generalizing a with
  | nil => cases hl
  | cons l' ls ih =>
    obtain ⟨c, hl', hls⟩ := h
    rcases mem_cons.1 hl with rfl | hl
    · exact ⟨a, c, le_rfl, hls.le, hl'⟩
    · obtain ⟨x, y, hx, hy, hb⟩ := ih hls hl
      exact ⟨x, y, hl'.lt.le.trans hx, hy, hb⟩

theorem stands : (ls.flatMap Line.stands).Perm (span id a b) := by
  induction ls generalizing a with
  | nil =>
    cases h
    rw [span_self]
    rfl
  | cons l ls ih =>
    obtain ⟨c, hl, hls⟩ := h
    rw [flatMap_cons, ← span_append hl.lt.le hls.le]
    exact hl.stands.append (ih hls)

theorem pairwise :
    ls.Pairwise fun x y => x.offset < y.offset ∧ ∀ p ∈ x.stands, ∀ q ∈ y.stands, p.2 < q.2 := by
  induction ls generalizing a with
  | nil => exact .nil
  | cons l ls ih =>
    obtain ⟨c, hl, hls⟩ := h
    refine pairwise_cons.2 ⟨fun l' hl' => ?_, ih hls⟩
    obtain ⟨x, y, hx, -, hb⟩ := hls.block hl'
    refine ⟨?_, fun p hp q hq => ?_⟩
    · exact hl.offset_lt.trans_le ((log.strictMono.monotone hx).trans hb.start_le_offset)
    · exact ((hl.mem_stands.1 hp).2.2.trans_le hx).trans_le (hb.mem_stands.1 hq).2.1

theorem countP (k : ℕ) :
    (ls.countP fun l => decide ((id, k) ∈ l.stands)) = if a ≤ k ∧ k < b then 1 else 0 := by
  induction ls generalizing a with
  | nil =>
    cases h
    rw [countP_nil, if_neg (by omega)]
  | cons l ls ih =>
    obtain ⟨c, hl, hls⟩ := h
    have hle := hls.le
    have hlt := hl.lt
    rw [countP_cons, ih hls]
    have hmem : decide ((id, k) ∈ l.stands) = true ↔ a ≤ k ∧ k < c := by
      rw [decide_eq_true_iff, hl.mem_stands]
      exact and_iff_right rfl
    simp only [hmem]
    split_ifs <;> omega

end Blocks

/-! What is dropped, as a block -/

structure Dropped.Block (id : LogId) (log : Log) (a b : ℕ) (d : Dropped) : Prop where
  tallies : d.Tallies id log
  stands : d.stands.Perm (span id a b)
  le : a ≤ b

theorem Dropped.Block.empty (id : LogId) (log : Log) (a : ℕ) : Dropped.Block id log a a .empty :=
  ⟨.inl rfl, by rw [span_self]; rfl, le_rfl⟩

theorem Dropped.Block.take (h : d.Block id log a b) : Blocks id log a d.take.toList b := by
  rcases h.tallies with rfl | hc
  · have hlen := h.stands.length_eq
    rw [length_span] at hlen
    have hle := h.le
    show a = b
    change 0 = b - a at hlen
    omega
  · have htake : d.take = some ⟨d.offset, d.nextOffset, text d.lines d.bytes, some (d.lines, d.bytes), d.stands⟩ :=
      if_neg hc.pos.ne'
    rw [htake]
    refine blocks_singleton.2 ⟨?_, h.stands, hc, nofun⟩
    obtain ⟨k, hk, -⟩ := hc.starts
    have := (mem_span.1 (h.stands.mem_iff.1 hk)).2
    omega

theorem Dropped.Block.add (h : d.Block id log a b) : (d.add (.of id log b)).Block id log a (b + 1) := by
  refine ⟨.inr (counts_add h.tallies (Line.counted_of id log b)), ?_, h.le.trans (Nat.le_succ b)⟩
  rw [← span_append h.le (Nat.le_succ b), span_succ]
  exact h.stands.append_right _

theorem Dropped.Block.refused (h : d.Block id log b c) (hls : Blocks id log a ls b) :
    (ls.foldl Dropped.add d).Block id log a c := by
  obtain ⟨htal, hstands⟩ := tallies_foldl h.tallies fun l hl => (hls.block hl).elim fun _ ⟨_, _, _, hb⟩ => hb.counted
  refine ⟨htal, ?_, hls.le.trans h.le⟩
  rw [hstands, ← span_append hls.le h.le]
  exact (h.stands.append hls.stands).trans perm_append_comm

end FeOS.Sink
