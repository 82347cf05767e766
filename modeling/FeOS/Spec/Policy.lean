import FeOS.Lib.Keyed
import FeOS.Spec.AddressRanges

/-! The compiler of the network service (`network-service/src/group.rs`, `policy.rs`): a node's
security groups and pods become named sets of addresses and what each pod may send and receive,
and `delta` says how the sets of one policy become those of the next. -/

namespace FeOS.Network

open Keyed (Table)

/-! `group.rs` -/

inductive Protocol where
  | any
  | tcp
  | udp
  | icmpv6
  | icmp
  deriving DecidableEq, Repr

/-- The derived order of the protocols. -/
def Protocol.rank : Protocol → ℕ
  | any => 0
  | tcp => 1
  | udp => 2
  | icmpv6 => 3
  | icmp => 4

theorem Protocol.rank_injective : Function.Injective Protocol.rank := by
  intro a b h
  cases a <;> cases b <;> first | rfl | cases h

instance : LinearOrder Protocol := LinearOrder.lift' Protocol.rank Protocol.rank_injective

inductive Direction where
  | ingress
  | egress
  deriving DecidableEq, Repr

inductive Peer where
  /-- A prefix, without the prefixes in except. -/
  | block (cidr : Prefix) (except : List Prefix)
  /-- The members of a group. -/
  | group (id : String)
  deriving DecidableEq, Repr

abbrev Ports := List (ℕ × ℕ)

/-- A rule as the compiler reads it. -/
structure Rule where
  direction : Direction
  protocol : Protocol
  /-- First and last port; empty for every port. -/
  ports : Ports
  peer : Peer
  deriving DecidableEq, Repr

/-! The messages of the API -/

inductive ProtoPeer where
  | block (cidr : String) (except : List String)
  | group (id : String)
  deriving DecidableEq, Repr

structure ProtoRule where
  direction : ℤ
  protocol : ℤ
  ports : List (ℕ × ℕ)
  peer : Option ProtoPeer
  deriving DecidableEq, Repr

structure SecurityGroup where
  rules : List ProtoRule
  members : List String
  deriving DecidableEq, Repr

def validId (id : String) : Bool :=
  1 ≤ id.utf8ByteSize && id.utf8ByteSize ≤ 64 &&
    id.toList.all fun c => c.isAlphanum || c == '-' || c == '_' || c == '.'

def parseDirection (n : ℤ) : Except String Direction :=
  if n = 1 then .ok .ingress else if n = 2 then .ok .egress else .error "it has no direction"

def parseProtocol (n : ℤ) : Except String Protocol :=
  if n = 0 then .ok .any
  else if n = 1 then .ok .tcp
  else if n = 2 then .ok .udp
  else if n = 3 then .ok .icmpv6
  else if n = 4 then .ok .icmp
  else .error ("it has an unknown protocol " ++ toString n)

/-- A last port of zero stands for the first alone. -/
def parsePorts (range : ℕ × ℕ) : Except String (ℕ × ℕ) :=
  let last := if range.2 = 0 then range.1 else range.2
  if 1 ≤ range.1 ∧ range.1 ≤ 65535 ∧ last ≤ 65535 ∧ range.1 ≤ last then .ok (range.1, last)
  else .error ("ports " ++ toString range.1 ++ "-" ++ toString range.2 ++ " are not a range of 1 to 65535")

section Compile
variable (L : Libs)

def parseExcept (cidr : Prefix) (text : String) : Except String Prefix := do
  let hole ← Prefix.fromStr L text
  if cidr.contains hole then return hole
  else throw (hole.text L ++ " is not inside " ++ cidr.text L)

def parsePeer : Option ProtoPeer → Except String Peer
  | some (.block cidr holes) => do
    let cidr ← Prefix.fromStr L cidr
    return .block cidr (← holes.mapM (parseExcept L cidr))
  | some (.group id) => if validId id then .ok (.group id) else .error (L.debug id ++ " is not a security group ID")
  | none => .error "it has no peer"

def parseRule (rule : ProtoRule) : Except String Rule := do
  let direction ← parseDirection rule.direction
  let protocol ← parseProtocol rule.protocol
  if rule.ports ≠ [] ∧ protocol ≠ .tcp ∧ protocol ≠ .udp then throw "only TCP and UDP have ports"
  let ports ← rule.ports.mapM parsePorts
  return ⟨direction, protocol, ports, ← parsePeer L rule.peer⟩

/-! `policy.rs` -/

inductive AddressRange where
  | v4 (first last : Ipv4Addr)
  | v6 (first last : Ipv6Addr)
  deriving DecidableEq, Repr

namespace AddressRange

def contains : AddressRange → IpAddr → Bool
  | v4 first last, .v4 a => first.toNat ≤ a.toNat && a.toNat ≤ last.toNat
  | v6 first last, .v6 a => first.toNat ≤ a.toNat && a.toNat ≤ last.toNat
  | _, _ => false

/-- `u32::try_from(n).unwrap_or(u32::MAX)`, as an address -/
def ipv4 (n : ℕ) : Ipv4Addr := if n < 2 ^ 32 then BitVec.ofNat 32 n else BitVec.allOnes 32

/-- A range of numbers of the family, as addresses. -/
def new : Family → Range → AddressRange
  | .v4, r => v4 (ipv4 r.1) (ipv4 r.2)
  | .v6, r => v6 (BitVec.ofNat 128 r.1) (BitVec.ofNat 128 r.2)

def numbers : AddressRange → Range
  | v4 first last => (first.toNat, last.toNat)
  | v6 first last => (first.toNat, last.toNat)

end AddressRange

structure AddressSet where
  family : Family
  ranges : List AddressRange
  deriving DecidableEq, Repr

def AddressSet.new (family : Family) (ranges : List Range) : AddressSet := ⟨family, ranges.map (AddressRange.new family)⟩

def AddressSet.contains (set : AddressSet) (address : IpAddr) : Bool := set.ranges.any (·.contains address)

/-- A pod on the node, as the compiler needs it. -/
structure Pod where
  podId : String
  tap : String
  address : Ipv6Addr
  groups : List String
  deriving DecidableEq, Repr

/-- What a rule allows: a protocol, its ports, and the set of peers. -/
structure Allow where
  protocol : Protocol
  ports : Ports
  peer : String
  family : Family
  deriving DecidableEq, Repr

structure PodPolicy where
  podId : String
  tap : String
  address : Ipv6Addr
  ingress : List Allow
  egress : List Allow
  missing : List String
  deriving DecidableEq, Repr

structure Policy where
  sets : Table String AddressSet
  pods : List PodPolicy
  deriving DecidableEq

/-- Sets as the compiler builds them: their family, and its numbers. -/
abbrev Sets := Table String (Family × List Range)

def hexDigit (n : ℕ) : Char := "0123456789abcdef".toList.getD n '0'

/-- 12 hex digits of the SHA-256. -/
def hash (bytes : Bytes) : String :=
  String.ofList (((L.sha256 bytes).take 6).flatMap fun b => [hexDigit (b / 16), hexDigit (b % 16)])

def bytesOf (s : String) : Bytes := s.toUTF8.toList.map fun b => b.toFin

def maxSetName : ℕ := 64

/-- The set of a group's members. -/
def groupSet (id : String) : String :=
  if id.utf8ByteSize + 2 < maxSetName then "g-" ++ id
  else "g-" ++ String.ofList (id.toList.take (maxSetName - 15)) ++ "-" ++ hash L (bytesOf id)

/-- The set of a block: named after its family and addresses. -/
def blockSet (family : Family) (set : List Range) : String :=
  let first : Fin 256 := match family with
    | .v4 => 4
    | .v6 => 6
  "b-" ++ hash L (first :: set.flatMap fun r => BigEndian.digits 16 r.1 ++ BigEndian.digits 16 r.2)

/-- Whether a rule allows anything of peers of the family. -/
def applies (direction : Direction) (protocol : Protocol) (family : Family) : Bool :=
  match protocol, family with
  | .icmp, .v6 => false
  | .icmpv6, .v4 => false
  | _, .v4 => direction = .egress
  | _, .v6 => true

def members (group : Option SecurityGroup) : List Range :=
  normalize (((group.map SecurityGroup.members).getD []).filterMap fun member =>
    (L.parseIpv6 member).map fun a => (a.toNat, a.toNat))

/-- The addresses of a block without its exceptions. -/
def block (cidr : Prefix) (holes : List Prefix) : List Range :=
  subtract [cidr.range] (normalize ((holes.filter fun p => p.family = cidr.family).map Prefix.range))

/-- `merge_ports`, with the last of the merged ranges first -/
def mergePortsInto (merged : Ports) (p : ℕ × ℕ) : Ports :=
  match merged with
  | last :: before => if p.1 ≤ last.2 + 1 then (last.1, max last.2 p.2) :: before else p :: last :: before
  | [] => [p]

def mergePorts (ports : Ports) : Ports := ((ports.insertionSort rangeLe).foldl mergePortsInto []).reverse

/-- Rules with the same protocol and peers become one, with the ports of all; none stands for
every port. -/
def mergeStep (merged : Table (Protocol ×ₗ String) (Family × Option Ports)) (rule : Protocol × String × Family × Ports) :
    Table (Protocol ×ₗ String) (Family × Option Ports) :=
  let (protocol, peer, family, ports) := rule
  let entry := (merged.get (toLex (protocol, peer))).getD (family, some [])
  let all := match entry.2 with
    | some all => if ports ≠ [] then some (all ++ ports) else none
    | none => none
  merged.insert (toLex (protocol, peer)) (entry.1, all)

def merge (rules : List (Protocol × String × Family × Ports)) : List Allow :=
  (rules.foldl mergeStep Table.empty).items.map fun p =>
    ⟨(ofLex p.1).1, (p.2.2.map mergePorts).getD [], (ofLex p.1).2, p.2.1⟩

/-- What a pod's rules come to while they are read: the sets, and the rules in and out. -/
structure Reading where
  sets : Sets
  ingress : List (Protocol × String × Family × Ports)
  egress : List (Protocol × String × Family × Ports)

/-- The set that holds a rule's peers. -/
def peerSet (groups : String → Option SecurityGroup) : Peer → String × Family × List Range
  | .group id => (groupSet L id, .v6, members L (groups id))
  | .block cidr holes => (blockSet L cidr.family (block cidr holes), cidr.family, block cidr holes)

def readRule (groups : String → Option SecurityGroup) (r : Reading) (rule : ProtoRule) : Reading :=
  match parseRule L rule with
  | .error _ => r
  | .ok rule =>
    let (name, family, set) := peerSet L groups rule.peer
    if applies rule.direction rule.protocol family then
      let allow := (rule.protocol, name, family, rule.ports)
      let sets := r.sets.orInsert name (family, set)
      match rule.direction with
      | .ingress => { r with sets := sets, ingress := r.ingress ++ [allow] }
      | .egress => { r with sets := sets, egress := r.egress ++ [allow] }
    else r

def internetNames : List (String × Family) := [("internet4", .v4), ("internet6", .v6)]

def compilePod (groups : String → Option SecurityGroup) (sets : Sets) (pod : Pod) : Sets × PodPolicy :=
  let policy : PodPolicy := ⟨pod.podId, pod.tap, pod.address, [], [], []⟩
  if pod.groups = [] then
    (sets, { policy with egress := internetNames.map fun p => ⟨.any, [], p.1, p.2⟩ })
  else
    let names := (pod.groups.insertionSort (· ≤ ·)).destutter (· ≠ ·)
    let missing := names.filter fun name => (groups name).isNone
    if missing ≠ [] then (sets, { policy with missing := missing })
    else
      let rules := (names.filterMap groups).flatMap SecurityGroup.rules
      let r := rules.foldl (readRule L groups) ⟨sets, [], []⟩
      (r.sets, { policy with ingress := merge r.ingress, egress := merge r.egress })

def denySet (denied : List Prefix) (family : Family) : Family × List Range :=
  (family, normalize ((denied.filter fun p => p.family = family).map Prefix.range))

/-- The sets that every policy has. -/
def baseSets (denied : List Prefix) : Sets :=
  (((Table.empty.insert "deny4" (denySet denied .v4)).insert "deny6" (denySet denied .v6)).insert
    "internet4" (.v4, internet4 L)).insert "internet6" (.v6, internet6 L)

/-- The node's groups, its pods, and the prefixes that no pod reaches. -/
structure Input where
  groups : String → Option SecurityGroup
  pods : List Pod
  denied : List Prefix

/-- The sets after the pods, and the pods' policies. -/
def compilePods (groups : String → Option SecurityGroup) : Sets → List Pod → Sets × List PodPolicy
  | sets, [] => (sets, [])
  | sets, pod :: pods =>
    let (sets, policy) := compilePod L groups sets pod
    let (sets, policies) := compilePods groups sets pods
    (sets, policy :: policies)

def compile (input : Input) : Policy :=
  let (sets, policies) := compilePods L input.groups (baseSets L (input.denied ++ alwaysDenied L)) input.pods
  ⟨sets.map fun s => AddressSet.new s.1 s.2, policies.insertionSort fun a b => a.podId ≤ b.podId⟩

end Compile

/-- The elements of a set to remove and to add. -/
structure SetChange where
  remove : List AddressRange
  add : List AddressRange
  deriving DecidableEq, Repr

inductive Delta where
  | elements (changes : List (String × SetChange))
  | replace
  deriving DecidableEq, Repr

/-- `BTreeSet<Range>` of a set's ranges -/
def AddressSet.numbers (set : AddressSet) : List Range :=
  ((set.ranges.map AddressRange.numbers).insertionSort rangeLe).destutter (· ≠ ·)

def setChange (before after : AddressSet) : SetChange where
  remove := (before.numbers.filter (· ∉ after.numbers)).map (AddressRange.new after.family)
  add := (after.numbers.filter (· ∉ before.numbers)).map (AddressRange.new after.family)

/-- The changes set by set; none if a set is new or of the other family. -/
def setChanges (old : Table String AddressSet) : List (String × AddressSet) → Option (List (String × SetChange))
  | [] => some []
  | (name, after) :: rest =>
    match old.get name with
    | none => none
    | some before =>
      if before.family ≠ after.family then none
      else if before = after then setChanges old rest
      else (setChanges old rest).map ((name, setChange before after) :: ·)

def delta (old new : Policy) : Delta :=
  if old.pods ≠ new.pods ∨ old.sets.keys ≠ new.sets.keys then .replace
  else match setChanges old.sets new.sets.items with
    | some changes => .elements changes
    | none => .replace

end FeOS.Network
