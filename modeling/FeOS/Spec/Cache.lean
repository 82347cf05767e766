import FeOS.Lib.Linked

/-! The budget actor of the chunk cache (`disk-store/src/cache.rs`): the accounting of what is in
the cache, what is evicted, and what must not be. Lengths are those of files on one disk, whose
sums a `u64` holds. -/

namespace FeOS

open Linked

/-- An order in which a hash map or a hash set may be walked. -/
structure WalkOrder (α : Type) where
  walk : List α → List α
  perm : ∀ l, (walk l).Perm l

inductive EvictTarget where
  /-- every byte that can be fetched again -/
  | all
  /-- within the budget -/
  | budget
  deriving DecidableEq, Repr

structure EvictStats where
  removedEntries : ℕ
  freedBytes : ℕ
  deriving DecidableEq, Repr

structure CacheStats where
  entries : ℕ
  bytes : ℕ
  evictedEntries : ℕ
  evictedBytes : ℕ
  pinnedEntries : ℕ
  pinnedBytes : ℕ
  deriving DecidableEq, Repr

/-- The actor's state: `lru` and `bytes` are the evictable chunks, `pinned` those that are pinned
or held. A hash set is the list of its elements. -/
structure Budget (Hash : Type) where
  budget : ℕ
  lru : LinkedMap Hash ℕ
  bytes : ℕ
  pinned : LinkedMap Hash ℕ
  pinnedBytes : ℕ
  /-- what the last `Pin` pinned, in the cache or not -/
  pins : List Hash
  /-- the open holds, with the chunks each of them holds -/
  holds : LinkedMap ℕ (List Hash)
  evictedEntries : ℕ
  evictedBytes : ℕ
  /-- whether a `saturating_sub` has saturated: recorded here, not in the source -/
  saturated : Bool

/-- What the actor is asked to do; the maps that a request walks are walked in any order. -/
inductive Msg (Hash : Type) where
  | admitChunk (hash : Hash) (len : ℕ)
  | touch (hash : Hash)
  | remove (hash : Hash)
  | pin (keep : List Hash) (order : WalkOrder Hash)
  | hold (id : ℕ) (hashes : List Hash)
  | release (id : ℕ) (order : WalkOrder Hash)
  | evict (target : EvictTarget) (keep : List Hash)
  | stats

/-- What comes back on a request's channel. -/
inductive Reply where
  | none
  | held
  | evicted (stats : EvictStats)
  | stats (stats : CacheStats)
  deriving DecidableEq, Repr

namespace Budget

variable {Hash : Type} [DecidableEq Hash]

/-- The state that `actor_loop` starts with, over the chunks that the cache found on the disk. -/
def init (budget : ℕ) (lru : LinkedMap Hash ℕ) : Budget Hash where
  budget := budget
  lru := lru
  bytes := lru.total
  pinned := .empty
  pinnedBytes := 0
  pins := []
  holds := .empty
  evictedEntries := 0
  evictedBytes := 0
  saturated := false

def wanted (b : Budget Hash) (h : Hash) : Bool := h ∈ b.pins || b.holds.entries.any fun x => h ∈ x.2

/-- Takes a chunk out of the LRU, if it is in it. -/
def removeLru (b : Budget Hash) (h : Hash) : Budget Hash :=
  match b.lru.find h with
  | some len => { b with
      lru := b.lru.erase h
      bytes := b.bytes - len
      saturated := b.saturated || decide (b.bytes < len) }
  | none => b

/-- Takes a chunk out of the pinned ones, if it is one. -/
def removePinned (b : Budget Hash) (h : Hash) : Budget Hash :=
  match b.pinned.find h with
  | some len => { b with
      pinned := b.pinned.erase h
      pinnedBytes := b.pinnedBytes - len
      saturated := b.saturated || decide (b.pinnedBytes < len) }
  | none => b

def insertLru (b : Budget Hash) (h : Hash) (len : ℕ) : Budget Hash :=
  { b with lru := b.lru.insert h len, bytes := b.bytes + len }

def insertPinned (b : Budget Hash) (h : Hash) (len : ℕ) : Budget Hash :=
  { b with pinned := b.pinned.insert h len, pinnedBytes := b.pinnedBytes + len }

/-- A chunk that came into the cache: pinned, or the most recently used. -/
def place (b : Budget Hash) (h : Hash) (len : ℕ) : Budget Hash :=
  let b := (b.removeLru h).removePinned h
  if b.wanted h then b.insertPinned h len else b.insertLru h len

/-- Takes these chunks out of the LRU, if they are in it, and pins them. -/
def pinFromLru (b : Budget Hash) (hashes : List Hash) : Budget Hash :=
  hashes.foldl (fun b h =>
    match b.lru.find h with
    | some len => (b.removeLru h).insertPinned h len
    | none => b) b

/-- Puts the pinned chunks that are no longer wanted back into the LRU, as its most recently used. -/
def unpinUnwanted (b : Budget Hash) (order : WalkOrder Hash) : Budget Hash :=
  ((order.walk b.pinned.keys).filter fun h => !b.wanted h).foldl (fun b h =>
    match b.pinned.find h with
    | some len => (b.removePinned h).insertLru h len
    | none => b) b

/-- Evicts the least recently used chunk that is not in `keep`; the chunks of `keep` before it
become the most recently used. The chunk's file is unlinked. -/
def dropOldest (b : Budget Hash) (keep : List Hash) : Option (Hash × ℕ × Budget Hash) :=
  match hrest : b.lru.entries.dropWhile fun e => e.1 ∈ keep with
  | [] => none
  | (h, len) :: rest =>
    let skipped := b.lru.entries.takeWhile fun e => e.1 ∈ keep
    some (h, len, { b with
      lru :=
        { entries := rest ++ skipped
          nodup := by
            have hperm : (rest ++ skipped).Perm (skipped ++ rest) := List.perm_append_comm
            have hsub : (skipped ++ rest).Sublist b.lru.entries := by
              conv_rhs => rw [← List.takeWhile_append_dropWhile (p := fun e => decide (e.1 ∈ keep)) (l := b.lru.entries),
                hrest]
              exact (List.sublist_cons_self _ _).append_left _
            exact (hperm.map Prod.fst).nodup_iff.2 (b.lru.nodup.sublist (hsub.map _)) }
      bytes := b.bytes - len
      saturated := b.saturated || decide (b.bytes < len) })

/-- The rounds of `evict_to`, and the chunks they unlink. A round takes a chunk out of the LRU. -/
def evictRounds (goal : ℕ) (keep : List Hash) : ℕ → Budget Hash → Budget Hash × List Hash
  | 0, b => (b, [])
  | rounds + 1, b =>
    if b.bytes ≤ goal then (b, [])
    else match b.dropOldest keep with
      | none => (b, [])
      | some (h, len, b) =>
        let b := { b with evictedEntries := b.evictedEntries + 1, evictedBytes := b.evictedBytes + len }
        let (b, unlinked) := evictRounds goal keep rounds b
        (b, h :: unlinked)

/-- Evicts until the evictable bytes are within `goal`, never a chunk in `keep`. -/
def evictTo (b : Budget Hash) (goal : ℕ) (keep : List Hash) : Budget Hash × List Hash :=
  evictRounds goal keep b.lru.entries.length b

def evictStats (before after : Budget Hash) : EvictStats :=
  ⟨after.evictedEntries - before.evictedEntries, after.evictedBytes - before.evictedBytes⟩

def stats (b : Budget Hash) : CacheStats where
  entries := b.lru.entries.length + b.pinned.entries.length
  bytes := b.bytes + b.pinnedBytes
  evictedEntries := b.evictedEntries
  evictedBytes := b.evictedBytes
  pinnedEntries := b.pinned.entries.length
  pinnedBytes := b.pinnedBytes

/-- One round of `actor_loop`: the state after it, the chunks whose files it unlinked, and its
reply. -/
def handle (b : Budget Hash) : Msg Hash → Budget Hash × List Hash × Reply
  | .admitChunk hash len =>
    let (b, unlinked) := (b.place hash len).evictTo b.budget []
    (b, unlinked, .none)
  | .touch hash =>
    match b.lru.find hash with
    | some len => ({ b with lru := b.lru.insert hash len }, [], .none)
    | none => (b, [], .none)
  | .remove hash => ((b.removeLru hash).removePinned hash, [], .none)
  | .pin keep order =>
    let b := { b.pinFromLru keep with pins := keep }
    let (b, unlinked) := (b.unpinUnwanted order).evictTo b.budget []
    (b, unlinked, .none)
  | .hold id hashes =>
    let b := b.pinFromLru hashes
    ({ b with holds := b.holds.insert id ((b.holds.find id).getD [] ++ hashes) }, [], .held)
  | .release id order =>
    match b.holds.find id with
    | some _ =>
      let b := { b with holds := b.holds.erase id }
      let (b, unlinked) := (b.unpinUnwanted order).evictTo b.budget []
      (b, unlinked, .none)
    | none => (b, [], .none)
  | .evict target keep =>
    let goal := match target with
      | .all => 0
      | .budget => b.budget
    let (b', unlinked) := b.evictTo goal keep
    (b', unlinked, .evicted (evictStats b b'))
  | .stats => (b, [], .stats b.stats)

/-- The messages one after the other. -/
def run (b : Budget Hash) (msgs : List (Msg Hash)) : Budget Hash := msgs.foldl (fun b m => (b.handle m).1) b

end Budget

end FeOS
