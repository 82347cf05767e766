import FeOS.Lib.Runs

/-! The idle holds of an ingress (`go/internal/ingress/proxy/holds.go`, `go/internal/ingress/service/holds.go`,
`go/internal/store/ingress_holds.go`): requests admit a hold at the control plane, the renew loop holds the
active instances again and releases the quiet ones, and a call may be given up while its transactions go on. -/

namespace FeOS.Ingress

open Function

abbrev ID := ℕ

/-! Times are in seconds. -/

def holdEvery : ℤ := 10
def holdMargin : ℤ := 10
def holdLease : ℤ := 30
def holdRetry : ℤ := 5
def maxHoldIDs : ℕ := 10000

/-! The ingress -/

/-- What the ingress knows of an instance's hold. -/
structure HoldState where
  validUntil : Option ℤ := none
  held : Bool := false
  retryAfter : Option ℤ := none
  /-- the requests that are counted: the code keeps how many -/
  inflight : List ℕ := []
  lastReq : Option ℤ := none
  /-- the admit in flight, by its call -/
  admitting : Option ℕ := none
  /-- the release in flight is not done -/
  releasing : Bool := false
  deriving DecidableEq, Repr

inductive Result where
  | held
  | refused
  | failed
  deriving DecidableEq, Repr

/-- A request in `acquire`; `serving` when it has returned and was not refused. -/
inductive Req where
  | idle
  | trying (id : ID)
  | waitRelease (id : ID)
  | waitFlight (id : ID) (flight : ℕ)
  | admits (id : ID) (flight : ℕ) (sent : ℤ)
  | answered (id : ID) (flight : ℕ) (res : Result)
  | serving (id : ID)
  deriving DecidableEq, Repr

/-- A turn of the renew loop: what is still to send, and the call it waits for. -/
structure Pass where
  now : ℤ
  renew : List ID
  release : List ID
  cur : Option ℕ
  deriving DecidableEq, Repr

/-! The control plane -/

/-- A sandbox as `AdmitIngressHold` reads it. -/
structure Sandbox where
  routed : Bool
  running : Bool
  busy : Bool
  deriving DecidableEq, Repr

inductive Refusal where
  | gone
  | notPublic
  | notRunning
  | busy
  deriving DecidableEq, Repr

def admitRefusal : Option Sandbox → Option Refusal
  | none => some .gone
  | some sb =>
    if !sb.routed then some .notPublic
    else if !sb.running then some .notRunning
    else if sb.busy then some .busy
    else none

/-- A transaction of a `Hold`. -/
inductive Op where
  | hold (id : ID)
  | release (id : ID)
  deriving DecidableEq, Repr

/-- A `Hold`: its request, the transactions that are still to come, those that it does not wait for any more,
and its answer so far. -/
structure Call where
  hold : List ID := []
  release : List ID := []
  todo : List Op := []
  loose : List Op := []
  held : List ID := []
  refused : List (ID × Refusal) := []
  failed : Bool := false
  deriving DecidableEq, Repr

/-- Each ID of `Hold` once, then the releases. -/
def Call.of (hold release : List ID) : Call :=
  { hold := hold, release := release, todo := hold.eraseDups.map .hold ++ release.map .release }

structure World where
  now : ℤ
  /-- of `h.inst` -/
  keys : List ID
  inst : ID → HoldState
  draining : Bool
  reqs : ℕ → Req
  pass : Option Pass
  /-- the results of the admits, by their calls -/
  flights : ℕ → Option Result
  calls : ℕ → Call
  nextCall : ℕ
  /-- the database's clock, the sandboxes, and the ingress's holds with the ends of their leases -/
  dbNow : ℤ
  sandboxes : ID → Option Sandbox
  holds : ID → Option ℤ
  /-- What is said here and nothing reads: the end of the lease last written, and whether a request was let
  through on an answer that the instance is held, since the last release was sent. -/
  lease : ID → ℤ
  counted : ID → Bool

def World.init : World :=
  ⟨0, [], fun _ => {}, false, fun _ => .idle, none, fun _ => none, fun _ => {}, 0, 0, fun _ => none, fun _ => none,
    fun _ => 0, fun _ => false⟩

inductive Event where
  | clock (now : ℤ)
  | dbClock (now : ℤ)
  | drain
  | sandbox (id : ID) (sb : Sandbox)
  /-- a request comes to `acquire` -/
  | request (r : ℕ) (id : ID)
  | acquire (r : ℕ)
  /-- what the request waits for is done -/
  | wake (r : ℕ)
  /-- its context ends first -/
  | cancel (r : ℕ)
  /-- the answer of the request's admit -/
  | admitted (r : ℕ)
  /-- its admit failed or timed out -/
  | admitFailed (r : ℕ)
  /-- the flight is over, and the request returns -/
  | landed (r : ℕ)
  | done (r : ℕ)
  | beginPass
  | sendPass
  | passAnswered
  | passFailed
  /-- the next transaction of a call commits -/
  | serve (c : ℕ)
  /-- the handler gives up; its transaction may still be in flight -/
  | giveUp (c : ℕ) (inFlight : Bool)
  /-- one that nothing waits for commits, or is rolled back -/
  | late (c : ℕ)
  | lost (c : ℕ)
  /-- a hold whose lease ended is deleted -/
  | expire (id : ID)
  deriving DecidableEq, Repr

namespace World

variable (w : World)

def setInst (id : ID) (st : HoldState) : World := { w with inst := update w.inst id st }

def setReq (r : ℕ) (q : Req) : World := { w with reqs := update w.reqs r q }

def count (id : ID) : World := { w with counted := update w.counted id true }

def send (call : Call) : World :=
  { w with calls := update w.calls w.nextCall call, nextCall := w.nextCall + 1,
           counted := fun id => w.counted id && !decide (id ∈ call.release) }

/-! `acquire` -/

def request (r : ℕ) (id : ID) : Option World :=
  match w.reqs r with
  | .idle =>
    let st := w.inst id
    some (({ w with keys := if id ∈ w.keys then w.keys else id :: w.keys }.setInst id
      { st with inflight := r :: st.inflight }).setReq r (.trying id))
  | _ => none

def valid (id : ID) : Bool := (w.inst id).validUntil.any (w.now < ·)

def acquire (r : ℕ) : Option World :=
  match w.reqs r with
  | .trying id =>
    let st := w.inst id
    some <|
      if w.valid id then (w.count id).setReq r (.serving id)
      else if w.draining || st.retryAfter.any (w.now < ·) then w.setReq r (.serving id)
      else if st.releasing then w.setReq r (.waitRelease id)
      else match st.admitting with
        | some flight => w.setReq r (.waitFlight id flight)
        | none => ((w.send (.of [id] [])).setInst id { st with admitting := some w.nextCall }).setReq r
            (.admits id w.nextCall w.now)
  | _ => none

/-- The request is not refused; a refused one is no request to the instance. -/
def returns (r : ℕ) (id : ID) : Result → World
  | .held => (w.count id).setReq r (.serving id)
  | .failed => w.setReq r (.serving id)
  | .refused => (w.setInst id { w.inst id with inflight := (w.inst id).inflight.erase r }).setReq r .idle

def wake (r : ℕ) : Option World :=
  match w.reqs r with
  | .waitRelease id => if (w.inst id).releasing then none else some (w.setReq r (.trying id))
  | .waitFlight id flight => (w.flights flight).map (w.returns r id)
  | _ => none

def cancel (r : ℕ) : Option World :=
  match w.reqs r with
  | .waitRelease id => some (w.setReq r (.serving id))
  | .waitFlight id _ => some (w.setReq r (.serving id))
  | _ => none

/-- `admit`, once the call has answered. -/
def admitted (r : ℕ) : Option World :=
  match w.reqs r with
  | .admits id flight sent =>
    let call := w.calls flight
    let st := w.inst id
    if call.todo = [] ∧ call.failed = false then
      some <|
        if call.refused.any fun x => x.1 == id then
          (w.setInst id { st with held := false, validUntil := none }).setReq r (.answered id flight .refused)
        else if id ∈ call.held then
          (w.setInst id { st with held := true, validUntil := some (sent + holdLease - holdMargin) }).setReq r
          (.answered id flight .held)
        else (w.setInst id { st with retryAfter := some (sent + holdRetry) }).setReq r (.answered id flight .failed)
    else none
  | _ => none

def admitFailed (r : ℕ) : Option World :=
  match w.reqs r with
  | .admits id flight sent =>
    some ((w.setInst id { w.inst id with retryAfter := some (sent + holdRetry) }).setReq r (.answered id flight .failed))
  | _ => none

def landed (r : ℕ) : Option World :=
  match w.reqs r with
  | .answered id flight res =>
    some (({ w with flights := update w.flights flight (some res) }.setInst id
      { w.inst id with admitting := none }).returns r id res)
  | _ => none

def done (r : ℕ) : Option World :=
  match w.reqs r with
  | .serving id =>
    let st := w.inst id
    some ((w.setInst id { st with inflight := st.inflight.erase r, lastReq := some w.now }).setReq r .idle)
  | _ => none

/-! `pass` -/

/-- Its last request is some time ago. -/
def quietSince (now : ℤ) (st : HoldState) : Bool := st.lastReq.all fun t => holdEvery ≤ now - t

inductive Turn where
  | skip
  | renew
  | release
  | forget
  deriving DecidableEq, Repr

def turnOf (now : ℤ) (st : HoldState) : Turn :=
  if st.admitting.isSome || st.releasing then .skip
  else if !st.inflight.isEmpty || !quietSince now st then .renew
  else if st.held then .release
  else .forget

def HoldState.turn (st : HoldState) : Turn → HoldState
  | .release => { st with held := false, validUntil := none, releasing := true }
  | .forget => {}
  | _ => st

def sortedIDs (ids : List ID) : List ID := ids.insertionSort (· ≤ ·)

def beginPass : Option World :=
  match w.pass with
  | some _ => none
  | none =>
    let turn id := turnOf w.now (w.inst id)
    some { w with
      inst := fun id => if id ∈ w.keys then HoldState.turn (w.inst id) (turn id) else w.inst id
      keys := w.keys.filter fun id => turn id ≠ .forget
      pass := some ⟨w.now, sortedIDs (w.keys.filter fun id => turn id = .renew),
        sortedIDs (w.keys.filter fun id => turn id = .release), none⟩ }

/-- The next call of the pass, or its end. -/
def sendPass : Option World :=
  match w.pass with
  | some ⟨now, renew, release, none⟩ =>
    if renew = [] ∧ release = [] then some { w with pass := none }
    else
      some { w.send (.of (renew.take maxHoldIDs) (release.take maxHoldIDs)) with
        pass := some ⟨now, renew.drop maxHoldIDs, release.drop maxHoldIDs, some w.nextCall⟩ }
  | _ => none

/-- A release is done, whether or not the call went through. -/
def released (sent : ℤ) (ids : List ID) : World :=
  let forget id := (w.inst id).inflight.isEmpty && (w.inst id).admitting.isNone && quietSince sent (w.inst id)
  { w with
    inst := fun id => if id ∈ ids ∧ id ∈ w.keys then if forget id then {}
      else { w.inst id with releasing := false } else w.inst id
    keys := w.keys.filter fun id => !(decide (id ∈ ids) && forget id) }

def renewed (sent : ℤ) (call : Call) : World :=
  { w with
    inst := fun id =>
      if id ∈ w.keys then
        let st := w.inst id
        let st := if id ∈ call.held then { st with held := true, validUntil := some (sent + holdLease - holdMargin) } else st
        if call.refused.any fun x => x.1 == id then { st with held := false, validUntil := none } else st
      else w.inst id }

def passAnswered : Option World :=
  match w.pass with
  | some ⟨now, renew, release, some c⟩ =>
    if (w.calls c).todo = [] ∧ (w.calls c).failed = false then
      some { (w.released now (w.calls c).release).renewed now (w.calls c) with pass := some ⟨now, renew, release, none⟩ }
    else none
  | _ => none

def passFailed : Option World :=
  match w.pass with
  | some ⟨now, renew, release, some c⟩ =>
    some { w.released now (w.calls c).release with pass := some ⟨now, renew, release, none⟩ }
  | _ => none

/-! The transactions -/

def setCall (c : ℕ) (call : Call) : World := { w with calls := update w.calls c call }

def admitHold (id : ID) : World :=
  { w with holds := update w.holds id (some (w.dbNow + holdLease)), lease := update w.lease id (w.dbNow + holdLease) }

def releaseHold (id : ID) : World := { w with holds := update w.holds id none }

def serve (c : ℕ) : Option World :=
  let call := w.calls c
  match call.todo with
  | [] => none
  | .hold id :: rest =>
    some <| match admitRefusal (w.sandboxes id) with
      | some why => w.setCall c { call with todo := rest, refused := call.refused ++ [(id, why)] }
      | none => (w.admitHold id).setCall c { call with todo := rest, held := call.held ++ [id] }
  | .release id :: rest => some ((w.releaseHold id).setCall c { call with todo := rest })

def giveUp (c : ℕ) (inFlight : Bool) : Option World :=
  let call := w.calls c
  match call.todo with
  | [] => none
  | op :: _ => some (w.setCall c
      { call with todo := [], failed := true, loose := if inFlight then op :: call.loose else call.loose })

def late (c : ℕ) : Option World :=
  let call := w.calls c
  match call.loose with
  | [] => none
  | .hold id :: rest =>
    some ((if (admitRefusal (w.sandboxes id)).isSome then w else w.admitHold id).setCall c { call with loose := rest })
  | .release id :: rest => some ((w.releaseHold id).setCall c { call with loose := rest })

def lost (c : ℕ) : Option World :=
  let call := w.calls c
  match call.loose with
  | [] => none
  | _ :: rest => some (w.setCall c { call with loose := rest })

def expire (id : ID) : Option World := if (w.holds id).any (· < w.dbNow) then some (w.releaseHold id) else none

def step : Event → Option World
  | .clock now => if w.now ≤ now then some { w with now := now } else none
  | .dbClock now => if w.dbNow ≤ now then some { w with dbNow := now } else none
  | .drain => some { w with draining := true }
  | .sandbox id sb => some { w with sandboxes := update w.sandboxes id (some sb) }
  | .request r id => w.request r id
  | .acquire r => w.acquire r
  | .wake r => w.wake r
  | .cancel r => w.cancel r
  | .admitted r => w.admitted r
  | .admitFailed r => w.admitFailed r
  | .landed r => w.landed r
  | .done r => w.done r
  | .beginPass => w.beginPass
  | .sendPass => w.sendPass
  | .passAnswered => w.passAnswered
  | .passFailed => w.passFailed
  | .serve c => w.serve c
  | .giveUp c inFlight => w.giveUp c inFlight
  | .late c => w.late c
  | .lost c => w.lost c
  | .expire id => w.expire id

end World

/-- A release of the instance's hold is sent and has not come to its end at the control plane. -/
def World.Pending (w : World) (id : ID) : Prop := ∃ c, .release id ∈ (w.calls c).todo ∨ .release id ∈ (w.calls c).loose

/-- The instance's hold is in the database, or its lease has ended. -/
def World.Holds (w : World) (id : ID) : Prop := w.holds id ≠ none ∨ w.lease id < w.dbNow

end FeOS.Ingress
