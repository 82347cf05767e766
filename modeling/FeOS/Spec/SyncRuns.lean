import Mathlib.Logic.Function.Basic
import Mathlib.Tactic

/-! The syncs of one sandbox on an instance (`internal/sandbox/sync.go`, `requestSync`, and
`goBackground` of `engine.go`): a request makes a run and a background loop for it, or waits for
the one run that is queued behind the loop's. A critical section is one step; between two of them
any other call, loop or stop of the engine may come. A call's entry and its loop have the call's
number. -/

namespace FeOS.SyncRuns

open Function (update)

/-- How a run ended, where it did not end well: the engine's cancellation, or an error of
`syncOnce`. -/
inductive Err where
  | canceled
  | failed
  deriving DecidableEq, Repr

/-- A `syncRun`: how often its channel was closed, and its error. -/
structure Run where
  closed : ℕ
  err : Option Err
  deriving DecidableEq, Repr

structure Entry where
  running : Option ℕ
  queued : Option ℕ
  deriving DecidableEq, Repr

/-- Where a call or its loop is that has the entry in hand. -/
inductive Stage where
  /-- The call is about to start its loop. -/
  | starting
  /-- The loop could not be started. -/
  | refused
  /-- The loop is about to run `syncOnce`. -/
  | started
  | syncing
  | synced
  /-- The run's channel is closed. -/
  | closed
  deriving DecidableEq, Repr

inductive Phase where
  | idle
  /-- `requestSync` was called. -/
  | called
  /-- The entry with its current run. -/
  | own (entry run : ℕ) (stage : Stage)
  /-- The entry is deleted, and the call closes what it had. -/
  | closing (runs : List ℕ)
  /-- The entry is deleted, and the loop closes the run that was queued. -/
  | ending (queued : ℕ)
  | ended
  deriving DecidableEq, Repr

structure World where
  /-- `goBackground` refuses. -/
  bgDone : Bool
  /-- The engine's background context ended. -/
  cancelled : Bool
  /-- The sandbox's entry in the map. -/
  entry : Option ℕ
  entries : ℕ → Entry
  runs : ℕ → Run
  nextRun : ℕ
  procs : ℕ → Phase
  /-- The run that a call returns. -/
  given : ℕ → Option ℕ
  /-- Which nothing reads: a clock of calls and reads, when a call was made, when a run began to
  read the row, and who is to close a run. -/
  clock : ℕ
  made : ℕ → ℕ
  began : ℕ → Option ℕ
  keeper : ℕ → Option ℕ

def World.init : World where
  bgDone := false
  cancelled := false
  entry := none
  entries _ := ⟨none, none⟩
  runs _ := ⟨0, none⟩
  nextRun := 0
  procs _ := .idle
  given _ := none
  clock := 1
  made _ := 0
  began _ := none
  keeper _ := none

inductive Event where
  | request (c : ℕ)
  | enter (c : ℕ)
  | start (c : ℕ)
  | abandon (c : ℕ)
  | close (c : ℕ)
  | begin (c : ℕ)
  | finish (c : ℕ) (err : Option Err)
  | closeDone (c : ℕ)
  | check (c : ℕ)
  | endQueued (c : ℕ)
  | cancel
  | done
  deriving DecidableEq, Repr

/-- The call or loop that an event is a step of. -/
def Event.proc : Event → Option ℕ
  | request c | enter c | start c | abandon c | close c => some c
  | begin c | finish c _ | closeDone c | check c | endQueued c => some c
  | cancel | done => none

namespace World

def setProc (w : World) (c : ℕ) (p : Phase) : World := { w with procs := update w.procs c p }

def setErr (w : World) (r : ℕ) (err : Option Err) : World :=
  { w with runs := update w.runs r { w.runs r with err := err } }

def closeRun (w : World) (r : ℕ) : World :=
  { w with
    runs := update w.runs r { w.runs r with closed := (w.runs r).closed + 1 }
    keeper := update w.keeper r none }

/-- A new run, that is given to call `c` and that `k` is to close. -/
def newRun (w : World) (c k : ℕ) : World :=
  { w with
    runs := update w.runs w.nextRun ⟨0, none⟩
    nextRun := w.nextRun + 1
    given := update w.given c (some w.nextRun)
    keeper := update w.keeper w.nextRun (some k) }

/-- The entry of the map, made if there is none. -/
def lookup (w : World) (c : ℕ) : World := match w.entry with
  | some _ => w
  | none => { w with entry := some c, entries := update w.entries c ⟨none, none⟩ }

def request (w : World) (c : ℕ) : Option World := match w.procs c with
  | .idle => some { w.setProc c .called with made := update w.made c w.clock, clock := w.clock + 1 }
  | _ => none

/-- The first section of `requestSync`, with its entry. -/
def enterEntry (w : World) (c e : ℕ) : World := match (w.entries e).running with
  | some _ => match (w.entries e).queued with
    | some q => { w.setProc c .ended with given := update w.given c (some q) }
    | none =>
      { (w.newRun c e).setProc c .ended with
        entries := update w.entries e { w.entries e with queued := some w.nextRun } }
  | none =>
    { (w.newRun c c).setProc c (.own e w.nextRun .starting) with
      entries := update w.entries e { w.entries e with running := some w.nextRun } }

def enter (w : World) (c : ℕ) : Option World := match w.procs c with
  | .called => some ((w.lookup c).enterEntry c ((w.lookup c).entry.getD c))
  | _ => none

/-- `goBackground` -/
def start (w : World) (c : ℕ) : Option World := match w.procs c with
  | .own e r .starting => some (w.setProc c (.own e r (if w.bgDone then .refused else .started)))
  | _ => none

/-- The second section, of a call whose loop was refused. -/
def abandon (w : World) (c : ℕ) : Option World := match w.procs c with
  | .own e r .refused => some { w.setProc c (.closing (r :: (w.entries e).queued.toList)) with entry := none }
  | _ => none

def close (w : World) (c : ℕ) : Option World := match w.procs c with
  | .closing (r :: rs) => some (((w.setErr r (some .canceled)).closeRun r).setProc c (if rs = [] then .ended
      else .closing rs))
  | _ => none

def begin (w : World) (c : ℕ) : Option World := match w.procs c with
  | .own e r .started =>
    some { w.setProc c (.own e r .syncing) with began := update w.began r (some w.clock), clock := w.clock + 1 }
  | _ => none

def finish (w : World) (c : ℕ) (err : Option Err) : Option World := match w.procs c with
  | .own e r .syncing => some ((w.setErr r err).setProc c (.own e r .synced))
  | _ => none

def closeDone (w : World) (c : ℕ) : Option World := match w.procs c with
  | .own e r .synced => some ((w.closeRun r).setProc c (.own e r .closed))
  | _ => none

/-- The loop's section. -/
def check (w : World) (c : ℕ) : Option World := match w.procs c with
  | .own e _ .closed => match (w.entries e).queued with
    | none => some { w.setProc c .ended with entry := none }
    | some q =>
      if w.cancelled then some { w.setProc c (.ending q) with entry := none }
      else some { w.setProc c (.own e q .started) with entries := update w.entries e ⟨some q, none⟩ }
  | _ => none

def endQueued (w : World) (c : ℕ) : Option World := match w.procs c with
  | .ending q => some (((w.setErr q (if w.cancelled then some .canceled else none)).closeRun q).setProc c .ended)
  | _ => none

def step (w : World) : Event → Option World
  | .request c => w.request c
  | .enter c => w.enter c
  | .start c => w.start c
  | .abandon c => w.abandon c
  | .close c => w.close c
  | .begin c => w.begin c
  | .finish c err => w.finish c err
  | .closeDone c => w.closeDone c
  | .check c => w.check c
  | .endQueued c => w.endQueued c
  | .cancel => some { w with cancelled := true }
  | .done => some { w with bgDone := true }

end World

end FeOS.SyncRuns
