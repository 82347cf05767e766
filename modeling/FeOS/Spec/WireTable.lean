import Mathlib.Data.Nat.Digits.Defs
import Mathlib.Logic.Function.Basic
import Mathlib.Tactic

/-! The tables of the ingresses' Sync stream (`internal/ingress/wire/split.go`, `state.go`): a
table that is too large goes in parts, and the state of an ingress keeps the parts until the last
one has arrived. What an environment, the mesh, the ingress itself and a challenge are beside an
environment's ID matters to neither. -/

namespace FeOS.Wire

structure Kinds where
  Body : Type
  Mesh : Type
  Self : Type
  Challenge : Type
  Time : Type

structure Env (T : Kinds) where
  id : String
  body : T.Body

/-- One message of the stream. -/
structure Table (T : Kinds) where
  seq : UInt64
  whole : Bool
  /-- The message goes on in the next part. -/
  more : Bool
  envs : List (Env T)
  removed : List String
  mesh : Option T.Mesh
  self : Option T.Self
  challenges : Option (List T.Challenge)
  sentAt : T.Time

/-- What the JSON encoder makes of the values: their sizes coded, or why they cannot be coded. A
time is of RFC 3339 with nanoseconds at most, in quotes. -/
structure Codec (T : Kinds) where
  envSize : Env T → Except String ℕ
  idSize : String → Except String ℕ
  meshSize : T.Mesh → Except String ℕ
  selfSize : T.Self → Except String ℕ
  challengesSize : List T.Challenge → Except String ℕ
  timeSize : T.Time → ℕ
  timeSize_le : ∀ t, timeSize t ≤ 37

variable {T : Kinds} (C : Codec T)

/-! The size of a table as JSON -/

/-- The key of a field, with the comma before it. -/
def keyLen (name : String) : ℕ := name.length + 4

def decimals (n : ℕ) : ℕ := max 1 (Nat.digits 10 n).length

/-- A field that is left out where it is empty. -/
def optSize {α : Type} (name : String) (size : α → Except String ℕ) : Option α → Except String ℕ
  | none => .ok 0
  | some a => (size a).map (· + keyLen name)

/-- A list in brackets, with commas between. -/
def listSize (name : String) (sizes : List ℕ) : ℕ :=
  if sizes = [] then 0 else keyLen name + 1 + sizes.sum + (sizes.length - 1) + 1

def codedSize (t : Table T) : Except String ℕ := do
  let envs ← t.envs.mapM C.envSize
  let ids ← t.removed.mapM C.idSize
  let mesh ← optSize "mesh" C.meshSize t.mesh
  let self ← optSize "self" C.selfSize t.self
  let challenges ← optSize "challenges" C.challengesSize t.challenges
  return keyLen "seq" + decimals t.seq.toNat + (if t.whole then keyLen "whole" + 4 else 0) +
    (if t.more then keyLen "more" + 4 else 0) + listSize "envs" envs + listSize "removed" ids + mesh + self +
    challenges + keyLen "sentAt" + C.timeSize t.sentAt + 1

/-! `split.go` -/

def partFrame : ℕ := 160

/-- What a part takes beside its items. -/
def baseSize (t : Table T) : Except String ℕ := do
  let mesh ← optSize "mesh" C.meshSize t.mesh
  let self ← optSize "self" C.selfSize t.self
  let challenges ← optSize "challenges" C.challengesSize t.challenges
  return partFrame + mesh + self + challenges

/-- The parts that are full, the current one, what it takes so far with its items, and where its
environments and removals begin. -/
structure Cutting (T : Kinds) where
  done : List (Table T)
  cur : Table T
  used : ℕ
  items : ℕ
  envFrom : ℕ
  idFrom : ℕ

def window {α : Type} (l : List α) (start stop : ℕ) : List α := (l.drop start).take (stop - start)

namespace Cutting

def begin (t : Table T) (base : ℕ) : Cutting T where
  done := []
  cur := { t with more := false, envs := [], removed := [] }
  used := base
  items := 0
  envFrom := 0
  idFrom := 0

/-- The current part gets the items before `envTo` and `idTo` that no earlier part has. -/
def cut (t : Table T) (envTo idTo : ℕ) (s : Cutting T) : Cutting T :=
  { s with
    cur := { s.cur with envs := window t.envs s.envFrom envTo, removed := window t.removed s.idFrom idTo }
    envFrom := envTo
    idFrom := idTo }

/-- The current part goes on in the next one. -/
def next (t : Table T) (s : Cutting T) : Cutting T :=
  { s with
    done := s.done ++ [{ s.cur with more := true }]
    cur := ⟨s.cur.seq + 1, false, false, [], [], none, none, none, t.sentAt⟩
    used := partFrame
    items := 0 }

/-- One item of size `n`, before which a full part is cut at `envTo` and `idTo`. -/
def item (t : Table T) (limit : ℤ) (n envTo idTo : ℕ) (s : Cutting T) : Cutting T :=
  let s := if 0 < s.items ∧ limit < (s.used + n : ℕ) then next t (cut t envTo idTo s) else s
  { s with used := s.used + n, items := s.items + 1 }

/-- The environments' loop, from the `i`th on. -/
def envLoop (t : Table T) (limit : ℤ) : (i : ℕ) → List ℕ → Cutting T → Cutting T
  | _, [], s => s
  | i, n :: ns, s => envLoop t limit (i + 1) ns (item t limit n i 0 s)

def idLoop (t : Table T) (limit : ℤ) : (i : ℕ) → List ℕ → Cutting T → Cutting T
  | _, [], s => s
  | i, n :: ns, s => idLoop t limit (i + 1) ns (item t limit n t.envs.length i s)

end Cutting

def cutParts (t : Table T) (limit : ℤ) (base : ℕ) (envSizes idSizes : List ℕ) : List (Table T) :=
  let s := Cutting.idLoop t limit 0 idSizes (Cutting.envLoop t limit 0 envSizes (Cutting.begin t base))
  let s := s.cut t t.envs.length t.removed.length
  s.done ++ [s.cur]

/-- `Split`: the messages that carry a table, each of `limit` bytes at most; each item counts with
the comma before it. -/
def split (t : Table T) (limit : ℤ) : Except String (List (Table T)) := do
  let base ← baseSize C t
  let envSizes ← t.envs.mapM fun e => (C.envSize e).map (· + 1)
  let idSizes ← t.removed.mapM fun id => (C.idSize id).map (· + 1)
  if ((base + envSizes.sum + idSizes.sum : ℕ) : ℤ) ≤ limit then return [t]
  else return cutParts t limit base envSizes idSizes

/-! `state.go` -/

/-- An ingress's table as the stream built it, and the parts of a message received so far. -/
structure State (T : Kinds) where
  seq : UInt64
  /-- None for a map that was never made. -/
  envs : Option (String → Option (Env T))
  mesh : T.Mesh
  self : T.Self
  challenges : List T.Challenge
  parts : Option (Table T)

def Table.join (t n : Table T) : Table T :=
  { t with
    seq := n.seq
    more := n.more
    envs := t.envs ++ n.envs
    removed := t.removed ++ n.removed
    mesh := n.mesh.or t.mesh
    self := n.self.or t.self
    challenges := n.challenges.or t.challenges }

def setEnv (envs : String → Option (Env T)) (id : String) (e : Option (Env T)) : String → Option (Env T) :=
  Function.update envs id e

/-- A message that is complete becomes the state's. -/
def State.put (s : State T) (m : Table T) : State T where
  seq := m.seq
  envs :=
    let start : String → Option (Env T) := if m.whole then fun _ => none else s.envs.getD fun _ => none
    let envs := m.envs.foldl (fun envs e => setEnv envs e.id (some e)) start
    some (m.removed.foldl (fun envs id => setEnv envs id none) envs)
  mesh := m.mesh.getD s.mesh
  self := m.self.getD s.self
  challenges := match m.challenges with
    | some items => items
    | none => if m.whole then [] else s.challenges
  parts := none

def State.take (s : State T) (m : Table T) : State T × Except String (Option (Table T)) :=
  if m.more then ({ s with parts := some m }, .ok none) else (s.put m, .ok (some m))

def outOfSequence (what : String) (seq after : UInt64) : String :=
  "wire: table out of sequence: " ++ what ++ " " ++ toString seq ++ " after " ++ toString after

def State.apply (s : State T) : Option (Table T) → State T × Except String (Option (Table T))
  | none => (s, .error "wire: no table")
  | some t =>
    if t.whole then s.take t
    else match s.parts with
      | some q =>
        if t.seq ≠ q.seq + 1 then ({ s with parts := none }, .error (outOfSequence "part" t.seq q.seq))
        else s.take (q.join t)
      | none =>
        if t.seq ≠ s.seq + 1 then (s, .error (outOfSequence "message" t.seq s.seq))
        else s.take t

/-- Messages applied in order; none if one of them fails. -/
def State.applyAll (s : State T) : List (Table T) → Option (State T)
  | [] => some s
  | t :: ts =>
    match s.apply (some t) with
    | (s, .ok _) => s.applyAll ts
    | (_, .error _) => none

end FeOS.Wire
