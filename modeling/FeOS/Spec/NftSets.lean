import FeOS.Lib.Markers
import FeOS.Spec.Policy

/-! The address sets of a policy in nftables (`feos-utils/src/nft.rs`, the sets of
`pod-service/src/network/rules.rs`): how a set's ranges are written as the elements of an
interval set, and how the changes of a delta are. The kernel finds an element by its key and by
whether it is an end. -/

namespace FeOS.Network

open Markers (Marker deleteAll insertAll)

inductive KeyType where
  | ipv4Addr
  | ipv6Addr
  | ifName
  | inetService
  deriving DecidableEq, Repr

def KeyType.len : KeyType → ℕ
  | ipv4Addr => 4
  | ipv6Addr => 16
  | ifName => 16
  | inetService => 2

inductive Verdict where
  | accept
  | drop
  | back
  | jump (chain : String)
  | goto (chain : String)
  deriving DecidableEq, Repr

/-- A key, or in an interval set the keys from `key` to `last`. -/
structure Element where
  key : Bytes
  last : Option Bytes
  verdict : Option Verdict
  deriving DecidableEq, Repr

def Element.range (first last : Bytes) : Element := ⟨first, if first ≠ last then some last else none, none⟩

structure NftSet where
  name : String
  key : KeyType
  interval : Bool
  map : Bool
  elements : List Element
  deriving DecidableEq, Repr

/-- What a list of elements is for. -/
inductive Elements where
  | whole
  | add
  | delete
  deriving DecidableEq, Repr

/-- An element as the kernel takes it; open if its range runs to the last key. -/
structure Encoded where
  key : Bytes
  stop : Bool
  verdict : Option Verdict
  runsToLast : Bool
  deriving DecidableEq, Repr

def Encoded.marker (e : Encoded) : Marker Bytes := ⟨e.key, e.stop⟩

/-- The key after a key, its last byte first. -/
def nextRev : Bytes → Option Bytes
  | [] => none
  | byte :: bytes => if byte = 255 then (nextRev bytes).map (0 :: ·) else some ((byte + 1) :: bytes)

/-- The key after `key`, big endian; none after the last. -/
def next (key : Bytes) : Option Bytes := (nextRev key.reverse).map List.reverse

def NftSet.invalid (set : NftSet) (what : String) : String := "set " ++ set.name ++ ": " ++ what

def checkElement (set : NftSet) (mode : Elements) (e : Element) : Except String Unit :=
  if e.key.length ≠ set.key.len ∨ (e.last.any fun l => l.length ≠ set.key.len) = true then
    .error (set.invalid ("a key is not " ++ toString set.key.len ++ " bytes"))
  else if e.last.isSome ∧ !set.interval then .error (set.invalid "a range, but no intervals")
  else if mode ≠ .delete ∧ e.verdict.isSome ≠ set.map then
    .error (set.invalid (if set.map then "an element without a verdict" else "a verdict, but no map"))
  else .ok ()

/-- A range of keys, with its verdict. -/
abbrev KeyRange := Bytes × Bytes × Option Verdict

def keyRangeLe (a b : KeyRange) : Prop := a.1 < b.1 ∨ a.1 = b.1 ∧ a.2.1 ≤ b.2.1

instance : DecidableRel keyRangeLe := fun a b => inferInstanceAs (Decidable (a.1 < b.1 ∨ a.1 = b.1 ∧ a.2.1 ≤ b.2.1))

/-- The start and the end of each range. -/
def encodeRanges (set : NftSet) : (previous : Option Bytes) → List KeyRange → Except String (List Encoded)
  | _, [] => .ok []
  | previous, (first, last, verdict) :: rest =>
    if last < first then .error (set.invalid "a range ends before it starts")
    else if (previous.any fun p => first ≤ p) = true then .error (set.invalid "ranges overlap")
    else (encodeRanges set (some last) rest).map fun encoded =>
      ⟨first, false, verdict, (next last).isNone⟩ :: (next last).toList.map (⟨·, true, none, false⟩) ++ encoded

def verdictOf (mode : Elements) (e : Element) : Option Verdict := if mode = .delete then none else e.verdict

/-- A whole set starts with an end at key zero, unless a range starts there. -/
def leading (set : NftSet) (mode : Elements) (ranges : List KeyRange) : List Encoded :=
  if mode = .whole ∧ (ranges.head?.any fun r => r.1.any (· ≠ 0)) = true then
    [⟨List.replicate set.key.len 0, true, none, false⟩]
  else []

def setElements (set : NftSet) (elements : List Element) (mode : Elements) : Except String (List Encoded) := do
  elements.forM (checkElement set mode)
  if !set.interval then
    return elements.map fun e => ⟨e.key, false, verdictOf mode e, false⟩
  let ranges := ((elements.map fun e => (e.key, e.last.getD e.key, verdictOf mode e)).insertionSort
    keyRangeLe).destutter (· ≠ ·)
  let encoded ← encodeRanges set none ranges
  return leading set mode ranges ++ encoded

/-! `rules.rs` -/

def IpAddr.octets : IpAddr → Bytes
  | .v4 a => BigEndian.digits 4 a.toNat
  | .v6 a => BigEndian.digits 16 a.toNat

def element : AddressRange → Element
  | .v4 first last => Element.range (IpAddr.v4 first).octets (IpAddr.v4 last).octets
  | .v6 first last => Element.range (IpAddr.v6 first).octets (IpAddr.v6 last).octets

def Family.keyType : Family → KeyType
  | .v4 => .ipv4Addr
  | .v6 => .ipv6Addr

def intervals (name : String) (set : AddressSet) : NftSet :=
  ⟨name, set.family.keyType, true, false, set.ranges.map element⟩

/-- The address sets of a policy's table. -/
def addressSets (policy : Policy) : List NftSet := policy.sets.items.map fun p => intervals p.1 p.2

inductive ElementOp where
  | add (set : String) (elements : List Element)
  | delete (set : String) (elements : List Element)
  deriving DecidableEq, Repr

/-- The changes of a delta, in one batch: removals before additions. -/
def elementOps (changes : List (String × SetChange)) : List ElementOp :=
  ((changes.filter fun c => c.2.remove ≠ []).map fun c => .delete c.1 (c.2.remove.map element)) ++
    (changes.filter fun c => c.2.add ≠ []).map fun c => .add c.1 (c.2.add.map element)

/-! The kernel -/

/-- The markers of each set. -/
abbrev Kernel := String → Finset (Marker Bytes)

/-- A new set holds the elements it is written with. -/
def newSet (K : Kernel) (set : NftSet) : Except String Kernel :=
  (setElements set set.elements .whole).map fun encoded =>
    Function.update K set.name (encoded.map Encoded.marker).toFinset

def replace (sets : List NftSet) : Except String Kernel := sets.foldlM newSet fun _ => ∅

/-- An element is deleted only if it is there, and added only if it is not. -/
def applyOp (sets : List NftSet) (K : Kernel) : ElementOp → Except String Kernel
  | .delete name elements =>
    match sets.find? fun set => set.name = name with
    | none => .error ("table feos has no set " ++ name)
    | some set => (setElements set elements .delete).bind fun encoded =>
      match deleteAll (K name) (encoded.map Encoded.marker) with
      | some M => .ok (Function.update K name M)
      | none => .error "No such file or directory"
  | .add name elements =>
    match sets.find? fun set => set.name = name with
    | none => .error ("table feos has no set " ++ name)
    | some set => (setElements set elements .add).bind fun encoded =>
      match insertAll (K name) (encoded.map Encoded.marker) with
      | some M => .ok (Function.update K name M)
      | none => .error "File exists"

def update (sets : List NftSet) (K : Kernel) (ops : List ElementOp) : Except String Kernel :=
  ops.foldlM (applyOp sets) K

/-- The policy that was applied last, and what the kernel has of it. -/
structure Applied where
  policy : Policy
  kernel : Kernel

/-- `Network::apply`, where the next policy differs from the last in elements alone. -/
def applyElements (L : Libs) (s : Applied) (input : Input) : Option Applied :=
  match delta s.policy (compile L input) with
  | .elements changes =>
    match update (addressSets s.policy) s.kernel (elementOps changes) with
    | .ok K => some ⟨compile L input, K⟩
    | .error _ => none
  | .replace => none

end FeOS.Network
