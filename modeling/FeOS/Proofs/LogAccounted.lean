import FeOS.Lib.Runs
import FeOS.Sanity.LogBlocks

/-! Every line of a log before the stream's position at the sink is stored once or counted once, as
long as no record of an export lies across the position or between what is stored, a refused batch
has nothing behind it, and a shipper that comes to another log has dropped nothing; and at its own
offset, as long as no record counts two lines. -/

namespace FeOS.Sink

open Runs List Function

variable {id : LogId} {log : Log} {a b m : ℕ} {st : Stream} {l : Line} {ls : List Line}

/-! The sink -/

def lastOffset (stored : List Line) : ℤ := (stored.getLast?.map fun l => (l.offset : ℤ)).getD (-1)

structure Stream.Has (id : LogId) (log : Log) (m : ℕ) (st : Stream) : Prop where
  stored : Blocks id log 0 st.stored m
  nextOffset : st.nextOffset = log.start m
  lastOff : st.lastOff = lastOffset st.stored

theorem Stream.Has.empty (id : LogId) (log : Log) : Stream.Has id log 0 .empty :=
  ⟨rfl, by rw [log.start_zero]; rfl, rfl⟩

theorem Stream.Has.position (h : Stream.Has id log m st) : st.position = log.start m := by
  unfold Stream.position
  rw [h.nextOffset]
  exact Int.toNat_natCast _

def Stream.Apart (log : Log) (st : Stream) (l : Line) : Prop :=
  (∀ p ∈ l.stands, st.nextOffset ≤ log.start p.2) ∨
    ((∀ p ∈ l.stands, log.start p.2 < st.nextOffset) ∧ (l.offset : ℤ) ≤ st.lastOff)

theorem lastOffset_append (stored : List Line) (l : Line) : lastOffset (stored ++ [l]) = l.offset := by
  unfold lastOffset
  rw [getLast?_append]
  rfl

theorem Blocks.lastOffset_lt {stored : List Line} (h : Blocks id log 0 stored m) : lastOffset stored < log.start m := by
  unfold lastOffset
  cases hlast : stored.getLast? with
  | none =>
    show (-1 : ℤ) < log.start m
    omega
  | some l =>
    obtain ⟨x, y, -, hy, hb⟩ := h.block (mem_of_getLast? hlast)
    have := hb.offset_lt.trans_le (log.strictMono.monotone hy)
    show (l.offset : ℤ) < log.start m
    omega

structure Count.Has (id : LogId) (log : Log) (m : ℕ) (st : Stream) (a : ℕ) (c : Count) : Prop where
  stored : Blocks id log 0 (st.stored ++ c.recs) (max m a)
  fromOff : c.fromOff = lastOffset (st.stored ++ c.recs)
  last : c.fromOff = max st.lastOff c.last

theorem Count.Has.line {c : Count} (h : Count.Has id log m st a c) (hst : st.Has id log m) (hl : Block id log a b l)
    (hap : st.Apart log l) : Count.Has id log m st b (c.line l) := by
  have hlt := hl.lt
  unfold Count.line
  rcases hap with hap | ⟨hap, hoff⟩
  · -- the lines are the next ones
    have hma : m ≤ a := by
      have hfirst := hap (id, a) (hl.mem_stands.2 ⟨rfl, le_rfl, hlt⟩)
      rw [hst.nextOffset] at hfirst
      exact log.strictMono.le_iff_le.1 (Int.ofNat_le.1 hfirst)
    have hstored := h.stored
    rw [max_eq_right hma] at hstored
    have hnew : c.fromOff < l.offset := by
      rw [h.fromOff]
      exact hstored.lastOffset_lt.trans_le (Int.ofNat_le.2 hl.start_le_offset)
    rw [if_neg (by omega)]
    refine ⟨?_, ?_, ?_⟩
    · rw [← append_assoc, max_eq_right (hma.trans hlt.le)]
      exact blocks_append.2 ⟨a, hstored, blocks_singleton.2 hl⟩
    · rw [← append_assoc, lastOffset_append]
    · have := h.last
      show (l.offset : ℤ) = max st.lastOff (max c.last l.offset)
      omega
  · have hbm : b ≤ m := by
      have hlast := hap (id, b - 1) (hl.mem_stands.2 ⟨rfl, by omega, by omega⟩)
      rw [hst.nextOffset] at hlast
      have := log.strictMono.lt_iff_lt.1 (Int.ofNat_lt.1 hlast)
      omega
    have hle : (l.offset : ℤ) ≤ c.fromOff := by
      rw [h.last]
      exact hoff.trans (le_max_left _ _)
    rw [if_pos hle]
    refine ⟨?_, h.fromOff, ?_⟩
    · have hstored := h.stored
      rw [max_eq_left (hlt.le.trans hbm)] at hstored
      rw [max_eq_left hbm]
      exact hstored
    · have := h.last
      show c.fromOff = max st.lastOff (max c.last l.offset)
      omega

theorem Count.Has.foldl {c : Count} (h : Count.Has id log m st a c) (hst : st.Has id log m) (hls : Blocks id log a ls b)
    (hap : ∀ l ∈ ls, st.Apart log l) : Count.Has id log m st b (ls.foldl Count.line c) := by
  induction ls generalizing a c with
  | nil =>
    cases hls
    exact h
  | cons l ls ih =>
    obtain ⟨e, hl, hls⟩ := hls
    exact ih (h.line hst hl (hap l mem_cons_self)) hls fun l' hl' => hap l' (mem_cons_of_mem _ hl')

theorem Blocks.byOffset_eq (h : Blocks id log a ls b) : byOffset ls = ls :=
  List.Pairwise.insertionSort_eq (h.pairwise.imp fun hxy => hxy.1.le)

theorem foldl_line_next (ls : List Line) (c : Count) {bound : ℤ} (hc : c.next = bound)
    (hls : ∀ l ∈ ls, (l.offset : ℤ) ≤ bound) :
    (ls.foldl Count.line c).next = bound := by
  induction ls generalizing c with
  | nil => exact hc
  | cons l ls ih =>
    refine ih (c.line l) ?_ fun l' hl' => hls l' (mem_cons_of_mem _ hl')
    have := hls l mem_cons_self
    unfold Count.line
    split_ifs <;> (show max c.next (l.offset : ℤ) = bound) <;> omega

theorem foldl_max_nextOffset (h : Blocks id log a ls b) {x : ℤ} (hx : x ≤ log.start a) (hne : ls ≠ []) :
    (ls.map fun l => (l.nextOffset : ℤ)).foldl max x = log.start b := by
  induction ls generalizing a x with
  | nil => exact (hne rfl).elim
  | cons l ls ih =>
    obtain ⟨c, hl, hls⟩ := h
    have hac : (log.start a : ℤ) ≤ log.start c := Int.ofNat_le.2 (log.strictMono.monotone hl.lt.le)
    have hmax : max x (l.nextOffset : ℤ) = log.start c := by
      rw [hl.nextOffset]
      exact max_eq_right (hx.trans hac)
    rw [map_cons, foldl_cons, hmax]
    cases ls with
    | nil =>
      cases hls
      rfl
    | cons l' ls => exact ih hls le_rfl (cons_ne_nil _ _)

theorem Stream.Has.ingest (h : st.Has id log m) (hls : Blocks id log a ls b) (ham : a ≤ m) (hap : ∀ l ∈ ls, st.Apart log l) :
    (st.ingest ls).Has id log (max m b) := by
  have hbase : Count.Has id log m st a ⟨nextOf ls, -1, st.lastOff, []⟩ := by
    refine ⟨?_, ?_, ?_⟩
    · rw [append_nil, max_eq_left ham]
      exact h.stored
    · rw [append_nil]
      exact h.lastOff
    · have hlast : (-1 : ℤ) ≤ st.lastOff := by
        rw [h.lastOff]
        unfold lastOffset
        cases st.stored.getLast? with
        | none => exact le_rfl
        | some l =>
          show (-1 : ℤ) ≤ l.offset
          omega
      exact (max_eq_left hlast).symm
  have hc := hbase.foldl h hls hap
  unfold Stream.ingest
  rw [hls.byOffset_eq]
  refine ⟨hc.stored, ?_, ?_⟩
  · -- the position is where the batch ends, if that is further
    by_cases hne : ls = []
    · subst hne
      cases hls
      show max st.nextOffset (-1) = _
      rw [max_eq_left ham, h.nextOffset]
      exact max_eq_left (by omega)
    · have hnext : nextOf ls = log.start b := foldl_max_nextOffset hls (by omega) hne
      have hfold := foldl_line_next ls ⟨nextOf ls, -1, st.lastOff, []⟩ hnext fun l hl => by
        obtain ⟨x, y, -, hy, hb⟩ := hls.block hl
        exact Int.ofNat_le.2 (hb.offset_lt.le.trans (log.strictMono.monotone hy))
      show max st.nextOffset (ls.foldl Count.line _).next = _
      rw [hfold, h.nextOffset, log.strictMono.monotone.map_max]
      exact (Nat.cast_max _ _).symm
  · rw [← hc.fromOff]
    exact hc.last.symm

/-! Shippers -/

/-- What a shipper of this log holds: the lines from one that the sink has come to, up to the next. -/
structure Shipper.Holds (id : LogId) (log : Log) (m : ℕ) (s : Shipper) (a b : ℕ) : Prop where
  le : a ≤ m
  records : Blocks id log a (s.batch ++ s.pending) b
  dropped : s.dropped.Block id log b s.next

def Shipper.Ok (logs : LogId → Log) (m : LogId → ℕ) (s : Shipper) : Prop :=
  match s.logId with
  | none => s.dropped = .empty
  | some id => ∃ a b, s.Holds id (logs id) (m id) a b

variable {logs : LogId → Log} {m m' : LogId → ℕ} {s : Shipper} {w w' : World}

theorem Shipper.Ok.change {s' : Shipper} (h : s.Ok logs m) (hid : s'.logId = s.logId)
    (hnone : s.logId = none → s.dropped = .empty → s'.dropped = .empty)
    (hsome : ∀ id a b, s.logId = some id → s.Holds id (logs id) (m id) a b → ∃ a' b', s'.Holds id (logs id) (m' id) a' b') :
    s'.Ok logs m' := by
  unfold Ok at h ⊢
  rw [hid]
  cases hlog : s.logId with
  | none =>
    rw [hlog] at h
    exact hnone hlog h
  | some id =>
    rw [hlog] at h
    obtain ⟨a, b, hs⟩ := h
    exact hsome id a b hlog hs

theorem Shipper.Ok.mono (h : s.Ok logs m) (hm : ∀ id, m id ≤ m' id) : s.Ok logs m' :=
  h.change rfl (fun _ hd => hd) fun id a b _ hs => ⟨a, b, hs.le.trans (hm id), hs.records, hs.dropped⟩

theorem Shipper.Holds.admitLine {k a b : ℕ} (h : s.Holds id log k a b) (hpend : s.pending = []) (room : Bool) :
    ∃ b', (s.admitLine (.of id log s.next) room).Holds id log k a b' := by
  have hrec := h.records
  rw [hpend, append_nil] at hrec
  cases room with
  | true =>
    refine ⟨s.next + 1, h.le, ?_, .empty id log _⟩
    refine blocks_append.2 ⟨b, hrec, blocks_append.2 ⟨s.next, h.dropped.take, blocks_singleton.2 (Block.of id log _)⟩⟩
  | false =>
    refine ⟨b, h.le, ?_, h.dropped.add⟩
    show Blocks id log a (s.batch ++ s.pending) b
    exact h.records

theorem Shipper.Holds.push {k a b : ℕ} {pending : List Line} (h : s.Holds id log k a b) (hpend : s.pending = l :: pending) :
    (s.push l pending).Holds id log k a b := by
  refine ⟨h.le, ?_, h.dropped⟩
  show Blocks id log a ((s.batch ++ [l]) ++ pending) b
  rw [append_assoc]
  have := h.records
  rw [hpend] at this
  exact this

theorem Shipper.Holds.flush {k a b : ℕ} (h : s.Holds id log k a b) (hpend : s.pending = []) :
    s.flush.Holds id log k a s.next := by
  have hrec := h.records
  rw [hpend, append_nil] at hrec
  refine ⟨h.le, ?_, .empty id log _⟩
  show Blocks id log a ((s.batch ++ s.dropped.take.toList) ++ s.pending) s.next
  rw [hpend, append_nil]
  exact blocks_append.2 ⟨b, hrec, h.dropped.take⟩

theorem Shipper.Holds.refused {k a b : ℕ} (h : s.Holds id log k a b) (hpend : s.pending = []) :
    s.refused.Holds id log k a a := by
  have hrec := h.records
  rw [hpend, append_nil] at hrec
  refine ⟨h.le, ?_, h.dropped.refused hrec⟩
  show Blocks id log a ([] ++ s.pending) a
  rw [hpend]
  rfl

/-! Runs -/

inductive Moved (logs : LogId → Log) (w : World) : Event → World → Prop
  | startNone {i k} : Moved logs w (.start i none k) (w.set i (some (.new none 0)))
  | start {i k id} (hk : World.Starts (logs id) (w.streams id).position k) :
      Moved logs w (.start i (some id) k) (w.set i (some (.new (some id) k)))
  | read {i room s id} (hs : w.shippers i = some s) (hid : s.logId = some id) (hp : s.pending = []) :
      Moved logs w (.read i room) (w.set i (some (s.admitLine (.of id (logs id) s.next) room)))
  | again {i id} : Moved logs w (.switch i id) (w.set i none)
  | switch {i id s} (hs : w.shippers i = some s) (hp : s.pending = []) (hb : s.batch = []) :
      Moved logs w (.switch i id) (w.set i (some { s with logId := some id, next := 0 }))
  | push {i s l pending} (hs : w.shippers i = some s) (hp : s.pending = l :: pending) :
      Moved logs w (.push i) (w.set i (some (s.push l pending)))
  | send {i s} (hs : w.shippers i = some s) :
      Moved logs w (.send i) (w.set i (some { s with sending := true }))
  | flush {i s} (hs : w.shippers i = some s) (hp : s.pending = []) :
      Moved logs w (.flush i) (w.set i (some s.flush))
  | export {i result s id} (hs : w.shippers i = some s) (hid : s.logId = some id) :
      Moved logs w (.export i result) (w.exported i s id result)
  | stop {i} : Moved logs w (.stop i) (w.set i none)

theorem step_moved {e : Event} (h : w.step logs e = some w') : Moved logs w e w' := by
  revert h
  fun_cases World.step logs w e <;> rintro ⟨⟩
  case case1 => exact .startNone
  case case2 hk => exact .start hk
  case case4 s hs id hid hg => exact .read hs hid hg.2
  case case8 => exact .again
  case case9 s hs hg _ => exact .switch hs hg.2.1 hg.2.2.1
  case case12 s hs l pending hp _ => exact .push hs hp
  case case16 s hs _ => exact .send hs
  case case19 s hs hg => exact .flush hs hg.2
  case case22 s hs id hid _ => exact .export hs hid
  case case26 => exact .stop

structure Inv (logs : LogId → Log) (m : LogId → ℕ) (w : World) : Prop where
  streams : ∀ id, (w.streams id).Has id (logs id) (m id)
  shippers : ∀ i s, w.shippers i = some s → s.Ok logs m

/-- An export whose records are apart from what the stream has, and that is not refused with records
of its shipper behind it; and a shipper that comes to another log has dropped nothing. -/
def Tidy (logs : LogId → Log) (w : World) : Event → Prop
  | .export i result =>
    ∀ s ∈ w.shippers i, ∀ id ∈ s.logId,
      (∀ l ∈ s.batch, (w.streams id).Apart (logs id) l) ∧ (result = .exhausted → s.pending = [])
  | .switch i _ => ∀ s ∈ w.shippers i, s.dropped = .empty
  | _ => True

namespace Inv
variable (h : Inv logs m w)
include h

theorem set {i : ℕ} {s : Shipper} (hs : s.Ok logs m) : Inv logs m (w.set i (some s)) := by
  refine ⟨h.streams, fun j s' hj => ?_⟩
  rcases update_cases hj with ⟨-, ⟨⟩⟩ | ⟨-, hj⟩
  · exact hs
  · exact h.shippers j s' hj

theorem stop (i : ℕ) : Inv logs m (w.set i none) := by
  refine ⟨h.streams, fun j s' hj => ?_⟩
  rcases update_cases hj with ⟨-, ⟨⟩⟩ | ⟨-, hj⟩
  exact h.shippers j s' hj

theorem start {k : ℕ} (hk : World.Starts (logs id) (w.streams id).position k) :
    (Shipper.new (some id) k).Ok logs m := by
  refine ⟨k, k, ?_, rfl, .empty _ _ _⟩
  -- the position is a line's start
  by_contra hlt
  have := hk.2 (m id) (by omega)
  rw [(h.streams id).position] at this
  exact lt_irrefl _ this

theorem ingest {a b : ℕ} (hls : Blocks id (logs id) a ls b) (ha : a ≤ m id)
    (hap : ∀ l ∈ ls, (w.streams id).Apart (logs id) l) :
    Inv logs (update m id (max (m id) b)) { w with streams := update w.streams id ((w.streams id).ingest ls) } := by
  have hle : ∀ id', m id' ≤ update m id (max (m id) b) id' := by
    intro id'
    rw [update_apply]
    split_ifs with heq
    · subst heq
      exact le_max_left _ _
    · exact le_rfl
  refine ⟨fun id' => ?_, fun j s' hj => (h.shippers j s' hj).mono hle⟩
  simp only [update_apply]
  split_ifs with heq
  · subst heq
    exact (h.streams id').ingest hls ha hap
  · exact h.streams id'

theorem exported {i : ℕ} {result : Result} (hs : w.shippers i = some s) (hid : s.logId = some id)
    (hap : ∀ l ∈ s.batch, (w.streams id).Apart (logs id) l) (hpend : result = .exhausted → s.pending = []) :
    ∃ m', Inv logs m' (w.exported i s id result) := by
  have hok := h.shippers i s hs
  obtain ⟨a, b, hold⟩ : ∃ a b, s.Holds id (logs id) (m id) a b := by
    unfold Shipper.Ok at hok
    rw [hid] at hok
    exact hok
  obtain ⟨c, hbatch, hpending⟩ := blocks_append.1 hold.records
  have hstores := h.ingest hbatch hold.le hap
  have same {id' : LogId} (hid' : s.logId = some id') : id' = id := Option.some.inj (hid'.symm.trans hid)
  have notNone : s.logId ≠ none := fun hnone => nomatch hnone.symm.trans hid
  cases result with
  | stored =>
    refine ⟨_, hstores.set (hok.change rfl (fun _ hd => hd) fun id' _ _ hid' _ => ?_)⟩
    cases same hid'
    refine ⟨c, b, ?_, hpending, hold.dropped⟩
    rw [update_self]
    exact le_max_right _ _
  | answerLost => exact ⟨_, hstores⟩
  | exhausted =>
    refine ⟨m, h.set (hok.change rfl (fun hnone => (notNone hnone).elim) fun id' _ _ _ hold' => ?_)⟩
    exact ⟨_, _, hold'.refused (hpend rfl)⟩
  | failed => exact ⟨m, h⟩

theorem step {e : Event} (ht : Tidy logs w e) (hstep : w.step logs e = some w') : ∃ m', Inv logs m' w' := by
  cases step_moved hstep with
  | startNone => exact ⟨m, h.set rfl⟩
  | start hk => exact ⟨m, h.set (h.start hk)⟩
  | @read i room s id hs hid hp =>
    have hlog : (s.admitLine (.of id (logs id) s.next) room).logId = s.logId := by cases room <;> rfl
    refine ⟨m, h.set ((h.shippers i s hs).change hlog (fun hnone =>
      nomatch hnone.symm.trans hid) fun id' a b hid' hold => ?_)⟩
    cases Option.some.inj (hid'.symm.trans hid)
    exact ⟨a, hold.admitLine hp room⟩
  | again => exact ⟨m, h.stop _⟩
  | @switch i id s hs hp hb =>
    refine ⟨m, h.set ⟨0, 0, Nat.zero_le _, ?_, ?_⟩⟩
    · show Blocks id (logs id) 0 (s.batch ++ s.pending) 0
      rw [hp, hb]
      rfl
    · show s.dropped.Block id (logs id) 0 0
      rw [ht s hs]
      exact .empty _ _ _
  | @push i s l pending hs hp =>
    exact ⟨m, h.set ((h.shippers i s hs).change rfl (fun _ hd => hd) fun id a b _ hold => ⟨a, b, hold.push hp⟩)⟩
  | @send i s hs =>
    exact ⟨m, h.set ((h.shippers i s hs).change rfl (fun _ hd => hd) fun id a b _ hold => ⟨a, b, hold.le,
      hold.records, hold.dropped⟩)⟩
  | @flush i s hs hp =>
    exact ⟨m, h.set ((h.shippers i s hs).change rfl (fun _ _ => rfl) fun id a b _ hold => ⟨a, s.next, hold.flush hp⟩)⟩
  | «export» hs hid =>
    obtain ⟨hap, hpend⟩ := ht _ hs _ hid
    exact h.exported hs hid hap hpend
  | stop => exact ⟨m, h.stop _⟩

end Inv

/-- Each line of a log before the stream's position is stored once or counted once. -/
structure Accounted (id : LogId) (log : Log) (st : Stream) : Prop where
  /-- one record, and only one, is the line or counts it -/
  once : ∀ k, (log.start k : ℤ) < st.nextOffset → (st.stored.countP fun l => decide ((id, k) ∈ l.stands)) = 1
  /-- none does of a line that is not before it -/
  after : ∀ k, st.nextOffset ≤ log.start k → ∀ l ∈ st.stored, (id, k) ∉ l.stands
  /-- a record that dropped nothing is a line as the log has it -/
  line : ∀ l ∈ st.stored, l.dropped = none → ∃ k, l = .of id log k
  /-- the others say how many lines of the log they count, and their bytes -/
  counts : ∀ l ∈ st.stored, ∀ n ∈ l.dropped, l.stands.Nodup ∧ (∀ p ∈ l.stands, p.1 = id) ∧ n.1 = l.stands.length ∧
    n.2 = (l.stands.map fun p => (log.text p.2).utf8ByteSize).sum
  /-- a record is where one of its lines starts -/
  place : ∀ l ∈ st.stored, ∃ k, (id, k) ∈ l.stands ∧ l.offset = log.start k
  /-- and after all those of the records before it -/
  order : st.stored.Pairwise fun x y => x.offset < y.offset ∧ ∀ p ∈ x.stands, ∀ q ∈ y.stands, p.2 < q.2

theorem Stream.Has.accounted {m : ℕ} (h : st.Has id log m) : Accounted id log st := by
  have before (k : ℕ) : (log.start k : ℤ) < st.nextOffset ↔ k < m := by
    rw [h.nextOffset, Int.ofNat_lt]
    exact log.strictMono.lt_iff_lt
  refine ⟨fun k hk => ?_, fun k hk l hl hmem => ?_, fun l hl hd => ?_, fun l hl n hn => ?_, fun l hl => ?_,
    h.stored.pairwise⟩
  · rw [h.stored.countP, if_pos ⟨Nat.zero_le k, (before k).1 hk⟩]
  · obtain ⟨x, y, -, hy, hb⟩ := h.stored.block hl
    have hkm : k < m := ((hb.mem_stands.1 hmem).2.2).trans_le hy
    exact absurd ((before k).2 hkm) (not_lt.2 hk)
  · obtain ⟨x, y, -, -, hb⟩ := h.stored.block hl
    exact ⟨x, hb.line hd⟩
  · obtain ⟨x, y, -, -, hb⟩ := h.stored.block hl
    have hc := hb.counted
    have hcounts : l.counts = n := by
      unfold Line.counts
      rw [Option.mem_def.1 hn]
      rfl
    refine ⟨hb.stands.nodup_iff.2 nodup_span, fun p hp => (hb.mem_stands.1 hp).1, ?_, ?_⟩
    · rw [← hcounts]
      exact hc.lines
    · rw [← hcounts]
      exact hc.bytes
  · obtain ⟨x, y, -, -, hb⟩ := h.stored.block hl
    exact hb.counted.starts

theorem reach_inv (h : Reach (World.step logs) (Tidy logs) .empty w) : ∃ m, Inv logs m w := by
  refine h.invariant (I := fun w => ∃ m, Inv logs m w) ?_ ?_
  · exact ⟨fun _ => 0, fun id => .empty id (logs id), by rintro i s ⟨⟩⟩
  · rintro w e w' ⟨m, hi⟩ ht hs
    exact hi.step ht hs

/-! Records of one line -/

theorem mem_foldl_line {c : Count} (h : l ∈ (ls.foldl Count.line c).recs) : l ∈ c.recs ∨ l ∈ ls := by
  induction ls generalizing c with
  | nil => exact .inl h
  | cons l' ls ih =>
    rcases ih h with hmem | hmem
    · unfold Count.line at hmem
      split_ifs at hmem
      · exact .inl hmem
      · exact (mem_append.1 hmem).imp id fun heq => mem_cons.2 (.inl (mem_singleton.1 heq))
    · exact .inr (mem_cons_of_mem _ hmem)

theorem mem_ingest (h : l ∈ (st.ingest ls).stored) : l ∈ st.stored ∨ l ∈ ls := by
  refine (mem_append.1 h).imp id fun hrec => ?_
  rcases mem_foldl_line hrec with hnil | hmem
  · cases hnil
  · exact (perm_insertionSort _ ls).mem_iff.1 hmem

/-- No record of an export counts two lines. -/
def Single (w : World) : Event → Prop
  | .export i _ => ∀ s ∈ w.shippers i, ∀ l ∈ s.batch, l.counts.1 = 1
  | _ => True

theorem single_step {e : Event} (h : ∀ id, ∀ l ∈ (w.streams id).stored, l.counts.1 = 1) (hsingle : Single w e)
    (hstep : w.step logs e = some w') : ∀ id, ∀ l ∈ (w'.streams id).stored, l.counts.1 = 1 := by
  cases step_moved hstep with
  | @«export» i result s id hs hid =>
    intro id' l hl
    have hmem : l ∈ (w.streams id').stored ∨ l ∈ s.batch := by
      cases result with
      | stored | answerLost =>
        change l ∈ (update w.streams id ((w.streams id).ingest s.batch) id').stored at hl
        rw [update_apply] at hl
        split_ifs at hl with heq
        · subst heq
          exact mem_ingest hl
        · exact .inl hl
      | exhausted | failed => exact .inl hl
    rcases hmem with hmem | hmem
    · exact h id' l hmem
    · exact hsingle s hs l hmem
  | _ => exact h

/-- A record of one line is where that line starts. -/
theorem Accounted.offset_eq (h : Accounted id log st) (hl : l ∈ st.stored) (hone : l.counts.1 = 1) {k : ℕ}
    (hk : (id, k) ∈ l.stands) :
    l.offset = log.start k := by
  cases hd : l.dropped with
  | none =>
    obtain ⟨j, rfl⟩ := h.line l hl hd
    cases mem_singleton.1 hk
    rfl
  | some n =>
    obtain ⟨j, hj, hoff⟩ := h.place l hl
    have hlen : l.stands.length = 1 := by
      rw [← (h.counts l hl n hd).2.2.1, ← hone, Line.counts, hd]
      rfl
    obtain ⟨p, hp⟩ := length_eq_one_iff.1 hlen
    rw [hp] at hj hk
    cases (mem_singleton.1 hk).trans (mem_singleton.1 hj).symm
    exact hoff

/-- Whatever the limit decides and the exports answer, and whichever shippers run, while the steps are
tidy. While no record of an export counts two lines, each is where its line starts. -/
theorem lines_accounted (h : Reach (World.step logs) (Tidy logs) .empty w) (id : LogId) :
    Accounted id (logs id) (w.streams id) ∧
    (Reach (World.step logs) (fun w e => Tidy logs w e ∧ Single w e) .empty w →
      ∀ l ∈ (w.streams id).stored, ∀ k, (id, k) ∈ l.stands → l.offset = (logs id).start k) := by
  obtain ⟨m, hi⟩ := reach_inv h
  have hacc := (hi.streams id).accounted
  refine ⟨hacc, fun hsingle l hl k hk => hacc.offset_eq hl ?_ hk⟩
  have hone : ∀ id, ∀ l ∈ (w.streams id).stored, l.counts.1 = 1 := by
    refine hsingle.invariant (I := fun w => ∀ id, ∀ l ∈ (w.streams id).stored, l.counts.1 = 1) ?_ ?_
    · rintro id l ⟨⟩
    · exact fun w e w' hw hok hs => single_step hw hok.2 hs
  exact hone id l hl

instance (log : Log) (st : Stream) (l : Line) : Decidable (st.Apart log l) := inferInstanceAs (Decidable (_ ∨ _))

instance (logs : LogId → Log) (w : World) (e : Event) : Decidable (Tidy logs w e) := by
  unfold Tidy
  split <;> infer_instance

instance (w : World) (e : Event) : Decidable (Single w e) := by
  unfold Single
  split <;> infer_instance

def sampleLog : Log where
  start k := 10 * k
  text _ := "a line"
  start_zero := rfl
  strictMono _ _ h := Nat.mul_lt_mul_of_pos_left h (by decide)

/-- A dropped line between two, whose answer is lost, and then a refused one, which is counted. -/
theorem lines_accounted_dropped : ∃ w, Reach (World.step fun _ => sampleLog) (Tidy fun _ => sampleLog) .empty w ∧
    ((w.streams "log").stored.map Line.dropped = [none, some (1, 6), none, some (1, 6)]) ∧
    Accounted "log" sampleLog (w.streams "log") ∧
    ∀ l ∈ (w.streams "log").stored, ∀ k, ("log", k) ∈ l.stands → l.offset = sampleLog.start k := by
  obtain ⟨w, hreach, hw⟩ :
      ∃ w, Reach (World.step fun _ => sampleLog) (fun w e => Tidy (fun _ => sampleLog) w e ∧ Single w e) .empty w ∧
        (w.streams "log").stored.map Line.dropped = [none, some (1, 6), none, some (1, 6)] :=
    exists_follow [.start 0 (some "log") 0, .read 0 true, .push 0, .read 0 false, .read 0 true, .push 0, .push 0, .send 0,
        .export 0 .answerLost, .export 0 .stored, .read 0 true, .push 0, .send 0, .export 0 .exhausted, .flush 0,
        .export 0 .stored] (by decide +kernel)
  have htidy : Reach (World.step fun _ => sampleLog) (Tidy fun _ => sampleLog) .empty w := hreach.mono fun _ _ hok => hok.1
  exact ⟨w, htidy, hw, (lines_accounted htidy "log").1, (lines_accounted htidy "log").2 hreach⟩

/-- A batch is stored and its answer is lost, and the next try is refused for the quota: its line is
counted with the next one, which the limit drops, in a record at its offset. The sink discards that
record, and the position passes the dropped line. -/
theorem refused_after_stored_loses : ∃ w, Reach (World.step fun _ => sampleLog) (fun _ _ => True) .empty w ∧
    (sampleLog.start 1 : ℤ) < (w.streams "log").nextOffset ∧
    ((w.streams "log").stored.countP fun l => decide (("log", 1) ∈ l.stands)) = 0 :=
  exists_follow [.start 0 (some "log") 0, .read 0 true, .push 0, .send 0, .export 0 .answerLost, .export 0 .exhausted,
    .read 0 false, .read 0 true, .push 0, .push 0, .send 0, .export 0 .stored] (by decide +kernel)

end FeOS.Sink
