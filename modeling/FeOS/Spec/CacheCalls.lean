import Mathlib.Data.Finset.Basic
import Mathlib.Logic.Function.Basic
import FeOS.Spec.Cache

/-! The threads that use the chunk cache (`disk-store/src/cache.rs`): their file operations and
messages, and the budget actor with its queue. Of a chunk file only its name and length matter. -/

namespace FeOS

/-- How far a call is with one chunk. -/
inductive ChunkStage where
  /-- to look whether the file is there -/
  | look
  | found
  /-- it was not: to be staged and renamed -/
  | missing
  /-- renamed, to be accounted for -/
  | renamed
  deriving DecidableEq, Repr

/-- The call that a thread is in. -/
inductive Call (Hash : Type) where
  | idle
  | admitChunk (hash : Hash) (len : ℕ) (stage : ChunkStage)
  /-- `admit_batch` with a hold, before its `Hold` message -/
  | holding (hold : ℕ) (chunks : List (Hash × ℕ))
  /-- and waiting for the actor's answer -/
  | waiting (hold : ℕ) (chunks : List (Hash × ℕ))
  /-- `admit_batch` in its loop: `left` are the chunks from the current one on -/
  | batch (hold : Option ℕ) (chunks left : List (Hash × ℕ)) (stage : ChunkStage)
  deriving DecidableEq, Repr

/-- The hold that a call borrows. -/
def Call.hold? {Hash : Type} : Call Hash → Option ℕ
  | .holding hold _ => some hold
  | .waiting hold _ => some hold
  | .batch hold _ _ _ => hold
  | _ => none

/-- The cache with the threads `ι` that use it. -/
structure SharedCache (ι Hash : Type) where
  budget : Budget Hash
  /-- what the actor still unlinks for the message at hand -/
  unlinks : List Hash
  files : Finset Hash
  /-- the actor's channel, with the sender of each message -/
  queue : List (ι × Msg Hash)
  calls : ι → Call Hash
  nextHold : ℕ
  /-- the holds that have not been dropped -/
  live : Finset ℕ
  /-- the batches that `admit_batch` has returned for, with their holds -/
  returned : List (ℕ × List Hash)
  /-- what the last `pin` was called with -/
  lastPin : List Hash

/-- A call that is one message. A call that waits for statistics does nothing until they come. -/
inductive CacheRequest (Hash : Type) where
  | touch (hash : Hash)
  | forget (hash : Hash)
  | pin (keep : List Hash) (order : WalkOrder Hash)
  | evict (target : EvictTarget) (keep : List Hash)
  | stats

def CacheRequest.msg {Hash : Type} : CacheRequest Hash → Msg Hash
  | .touch hash => .touch hash
  | .forget hash => .remove hash
  | .pin keep order => .pin keep order
  | .evict target keep => .evict target keep
  | .stats => .stats

/-- What is pinned once the request is handled, if `pins` was before. -/
def CacheRequest.pins {Hash : Type} (pins : List Hash) : CacheRequest Hash → List Hash
  | .pin keep _ => keep
  | _ => pins

inductive CacheEvent (ι Hash : Type) where
  | newHold
  | dropHold (thread : ι) (hold : ℕ) (order : WalkOrder Hash)
  | request (thread : ι) (request : CacheRequest Hash)
  | callAdmit (thread : ι) (hash : Hash) (len : ℕ)
  | callBatch (thread : ι) (chunks : List (Hash × ℕ)) (hold : Option ℕ)
  /-- the thread's call takes its next step -/
  | advance (thread : ι)
  /-- the thread's call returns an error of a file operation -/
  | fail (thread : ι)
  | receive
  /-- the actor's next unlink, which may fail -/
  | unlink (ok : Bool)

namespace SharedCache

variable {ι Hash : Type} [DecidableEq ι] [DecidableEq Hash]

def setCall (s : SharedCache ι Hash) (t : ι) (call : Call Hash) : SharedCache ι Hash :=
  { s with calls := Function.update s.calls t call }

def send (s : SharedCache ι Hash) (t : ι) (msg : Msg Hash) : SharedCache ι Hash :=
  { s with queue := s.queue ++ [(t, msg)] }

/-- The next stage of a chunk in `admit` and `admit_batch`. -/
def nextStage (s : SharedCache ι Hash) (hash : Hash) : ChunkStage → ChunkStage
  | .look => if hash ∈ s.files then .found else .missing
  | .missing => .renamed
  | stage => stage

def putFile (s : SharedCache ι Hash) (hash : Hash) : ChunkStage → SharedCache ι Hash
  | .missing => { s with files := insert hash s.files }
  | _ => s

/-- What `admit_batch` sends for a chunk whose file was there. -/
def foundMsg (hold : Option ℕ) (hash : Hash) (len : ℕ) : Msg Hash :=
  match hold with
  | some _ => .admitChunk hash len
  | none => .touch hash

/-- The next step of a thread's call. -/
def advance (s : SharedCache ι Hash) (t : ι) : Option (SharedCache ι Hash) :=
  match s.calls t with
  | .idle => none
  | .waiting _ _ => none
  | .admitChunk hash len stage => some <| match stage with
    | .found => (s.send t (.touch hash)).setCall t .idle
    | .renamed => (s.send t (.admitChunk hash len)).setCall t .idle
    | stage => (s.putFile hash stage).setCall t (.admitChunk hash len (s.nextStage hash stage))
  | .holding hold chunks => some ((s.send t (.hold hold (chunks.map Prod.fst))).setCall t (.waiting hold chunks))
  | .batch hold chunks [] _ => some <| match hold with
    | some id => { s.setCall t .idle with returned := (id, chunks.map Prod.fst) :: s.returned }
    | none => s.setCall t .idle
  | .batch hold chunks ((hash, len) :: left) stage => some <| match stage with
    | .found => (s.send t (foundMsg hold hash len)).setCall t (.batch hold chunks left .look)
    | .renamed => (s.send t (.admitChunk hash len)).setCall t (.batch hold chunks left .look)
    | stage => (s.putFile hash stage).setCall t
        (.batch hold chunks ((hash, len) :: left) (s.nextStage hash stage))

/-- The thread whose `Hold` the actor has answered goes on to its loop. -/
def answer (s : SharedCache ι Hash) (t : ι) : SharedCache ι Hash :=
  match s.calls t with
  | .waiting hold chunks => s.setCall t (.batch (some hold) chunks chunks .look)
  | _ => s

/-- The actor receives the next message, when it is done with the last one. -/
def receive (s : SharedCache ι Hash) : Option (SharedCache ι Hash) :=
  match s.unlinks, s.queue with
  | [], (t, msg) :: queue =>
    let (budget, unlinks, reply) := s.budget.handle msg
    let s := { s with budget := budget, unlinks := unlinks, queue := queue }
    some (if reply = .held then s.answer t else s)
  | _, _ => none

def step (s : SharedCache ι Hash) : CacheEvent ι Hash → Option (SharedCache ι Hash)
  | .newHold => some { s with nextHold := s.nextHold + 1, live := insert s.nextHold s.live }
  | .dropHold t hold order =>
    if hold ∈ s.live then some { s.send t (.release hold order) with live := s.live.erase hold } else none
  | .request t request =>
    if s.calls t = .idle then some { s.send t request.msg with lastPin := request.pins s.lastPin } else none
  | .callAdmit t hash len => if s.calls t = .idle then some (s.setCall t (.admitChunk hash len .look)) else none
  | .callBatch t chunks none =>
    if s.calls t = .idle then some (s.setCall t (.batch none chunks chunks .look)) else none
  | .callBatch t chunks (some hold) =>
    if s.calls t = .idle ∧ hold ∈ s.live then some (s.setCall t (.holding hold chunks)) else none
  | .advance t => s.advance t
  | .fail t => match s.calls t with
    | .admitChunk _ _ _ => some (s.setCall t .idle)
    | .batch _ _ _ _ => some (s.setCall t .idle)
    | _ => none
  | .receive => s.receive
  | .unlink ok => match s.unlinks with
    | [] => none
    | hash :: unlinks => some { s with
        unlinks := unlinks
        files := if ok then s.files.erase hash else s.files }

/-- A hold is dropped by its owner, when no call borrows it. -/
def Owned (s : SharedCache ι Hash) : CacheEvent ι Hash → Prop
  | .dropHold _ hold _ => ∀ t, (s.calls t).hold? ≠ some hold
  | _ => True

/-- The cache as `Cache::open` leaves it, over the chunk files that it finds. -/
def start (budget : ℕ) (lru : Linked.LinkedMap Hash ℕ) : SharedCache ι Hash where
  budget := .init budget lru
  unlinks := []
  files := lru.keys.toFinset
  queue := []
  calls := fun _ => .idle
  nextHold := 1
  live := ∅
  returned := []
  lastPin := []

end SharedCache

end FeOS
