import Mathlib
import FeOS.Lib.BigEndian

/-! Prefixes and ranges of addresses of the network service (`network-service/src/prefix.rs`,
`ranges.rs`, `registry.rs`). A range is of the numbers of its family: of 32 bits for IPv4, of 128
for IPv6. Sums of the source are guarded against overflow, so that naturals stand for its
`u128`. -/

namespace FeOS.Network

abbrev Bytes := List (Fin 256)

instance neZeroByte : NeZero 256 := ⟨by decide⟩

inductive Family where
  | v4
  | v6
  deriving DecidableEq, Repr

abbrev Ipv4Addr := BitVec 32
abbrev Ipv6Addr := BitVec 128

inductive IpAddr where
  | v4 (address : Ipv4Addr)
  | v6 (address : Ipv6Addr)
  deriving DecidableEq, Repr

def IpAddr.family : IpAddr → Family
  | .v4 _ => .v4
  | .v6 _ => .v6

/-- What the service calls of Rust's library and of the sha2 crate: addresses parsed and shown,
a text in quotes, and a digest. -/
structure Libs where
  parseIp : String → Option IpAddr
  parseIpv6 : String → Option Ipv6Addr
  showIp : IpAddr → String
  debug : String → String
  sha256 : Bytes → Bytes

/-! `ranges.rs` -/

/-- The first and the last address of a range. -/
abbrev Range := ℕ × ℕ

def u128Max : ℕ := 2 ^ 128 - 1

/-- `ranges::prefix`: the range of the prefix of `address` that is `len` bits long. -/
def prefixBits (address : BitVec 128) (len : ℕ) : BitVec 128 × BitVec 128 :=
  let host : BitVec 128 := if 128 ≤ len then 0 else BitVec.allOnes 128 >>> len
  (address &&& ~~~host, address ||| host)

def rangeLe (a b : Range) : Prop := a.1 < b.1 ∨ a.1 = b.1 ∧ a.2 ≤ b.2

instance : DecidableRel rangeLe := fun a b => inferInstanceAs (Decidable (a.1 < b.1 ∨ a.1 = b.1 ∧ a.2 ≤ b.2))

/-- One more range for those that are merged, the last of them first. -/
def mergeInto (merged : List Range) (r : Range) : List Range :=
  match merged with
  | last :: before => if last.2 = u128Max ∨ r.1 ≤ last.2 + 1 then (last.1, max last.2 r.2) :: before else r :: last :: before
  | [] => [r]

/-- The ranges, sorted and merged where they overlap or touch. -/
def normalize (ranges : List Range) : List Range :=
  (((ranges.filter fun r => r.1 ≤ r.2).insertionSort rangeLe).foldl mergeInto []).reverse

/-- What the holes leave of the addresses from `start` to `last`. -/
def cut (last : ℕ) : (start : ℕ) → (holes : List Range) → List Range
  | start, [] => [(start, last)]
  | start, hole :: holes =>
    if hole.2 < start then cut last start holes
    else if last < hole.1 then [(start, last)]
    else
      (if start < hole.1 then [(start, hole.1 - 1)] else []) ++
        if last ≤ hole.2 then [] else cut last (hole.2 + 1) holes

def subtract (ranges holes : List Range) : List Range := ranges.flatMap fun r => cut r.2 r.1 holes

def intersect (a b : Range) : Option Range :=
  if max a.1 b.1 ≤ min a.2 b.2 then some (max a.1 b.1, min a.2 b.2) else none

/-! `prefix.rs` -/

inductive Prefix where
  | v4 (address : Ipv4Addr) (len : ℕ)
  | v6 (address : Ipv6Addr) (len : ℕ)
  deriving DecidableEq, Repr

namespace Prefix

def length : Prefix → ℕ
  | v4 _ len => len
  | v6 _ len => len

def family : Prefix → Family
  | v4 .. => .v4
  | v6 .. => .v6

/-- `mask32` and `mask128` -/
def mask {width : ℕ} (address : BitVec width) (len : ℕ) : BitVec width :=
  if len = 0 then 0 else if len < width then address &&& (BitVec.allOnes width <<< (width - len)) else address

def contains : (self other : Prefix) → Bool
  | v4 address len, v4 inner innerLen => len ≤ innerLen && mask inner len == address
  | v6 address len, v6 inner innerLen => len ≤ innerLen && mask inner len == address
  | _, _ => false

def range : Prefix → Range
  | v4 address len =>
    -- as the top 32 bits of 128
    let bits := prefixBits (address.zeroExtend 128 <<< 96) len
    ((bits.1 >>> 96).toNat, (bits.2 >>> 96).toNat)
  | v6 address len => ((prefixBits address len).1.toNat, (prefixBits address len).2.toNat)

def splitOnce (c : Char) (s : String) : Option (String × String) :=
  if c ∈ s.toList then
    some (String.ofList (s.toList.takeWhile (· ≠ c)), String.ofList (s.toList.dropWhile (· ≠ c)).tail)
  else none

/-- `len.parse::<u8>()`, of digits alone -/
def parseLen (s : String) : Option ℕ :=
  let len := s.toList.foldl (fun n c => n * 10 + (c.toNat - '0'.toNat)) 0
  if s.toList ≠ [] ∧ s.toList.all Char.isDigit ∧ len ≤ 255 then some len else none

variable (L : Libs)

def text : Prefix → String
  | v4 address len => L.showIp (.v4 address) ++ "/" ++ toString len
  | v6 address len => L.showIp (.v6 address) ++ "/" ++ toString len

def fromStr (s : String) : Except String Prefix := do
  let some (address, lenText) := splitOnce '/' s | throw (L.debug s ++ " is not a prefix: address/length")
  let some len := parseLen lenText | throw (L.debug s ++ " has no valid length")
  let some address := L.parseIp address | throw (L.debug s ++ " has no valid address")
  match address with
  | .v4 address =>
    if len ≤ 32 then
      if mask address len = address then return .v4 address len
      else throw (L.debug s ++ " has bits set beyond its length: " ++ text L (.v4 (mask address len) len) ++ "?")
    else throw (L.debug s ++ " is longer than its address")
  | .v6 address =>
    if len ≤ 128 then
      if mask address len = address then return .v6 address len
      else throw (L.debug s ++ " has bits set beyond its length: " ++ text L (.v6 (mask address len) len) ++ "?")
    else throw (L.debug s ++ " is longer than its address")

end Prefix

/-! `registry.rs` -/

def ipv6GlobalUnicast : String := "2000::/3"

/-- The special-purpose blocks of IPv6, and whether each is globally reachable. -/
def ipv6Special : List (String × Bool) :=
  [("::1/128", false), ("::/128", false), ("::ffff:0:0/96", false), ("64:ff9b::/96", true),
    ("64:ff9b:1::/48", false), ("100::/64", false), ("100:0:0:1::/64", false), ("2001::/23", false),
    ("2001::/32", false), ("2001:1::1/128", true), ("2001:1::2/128", true), ("2001:1::3/128", true),
    ("2001:2::/48", false), ("2001:3::/32", true), ("2001:4:112::/48", true), ("2001:10::/28", false),
    ("2001:20::/28", true), ("2001:30::/28", true), ("2001:db8::/32", false), ("2002::/16", false),
    ("2620:4f:8000::/48", true), ("3fff::/20", false), ("5f00::/16", false), ("fc00::/7", false),
    ("fe80::/10", false)]

/-- Those of IPv4, and multicast. -/
def ipv4Special : List (String × Bool) :=
  [("0.0.0.0/8", false), ("0.0.0.0/32", false), ("10.0.0.0/8", false), ("100.64.0.0/10", false),
    ("127.0.0.0/8", false), ("169.254.0.0/16", false), ("172.16.0.0/12", false), ("192.0.0.0/24", false),
    ("192.0.0.0/29", false), ("192.0.0.8/32", false), ("192.0.0.9/32", true), ("192.0.0.10/32", true),
    ("192.0.0.170/32", false), ("192.0.0.171/32", false), ("192.0.2.0/24", false), ("192.31.196.0/24", true),
    ("192.52.193.0/24", true), ("192.88.99.0/24", false), ("192.88.99.2/32", false), ("192.168.0.0/16", false),
    ("192.175.48.0/24", true), ("198.18.0.0/15", false), ("198.51.100.0/24", false), ("203.0.113.0/24", false),
    ("224.0.0.0/4", false), ("240.0.0.0/4", false), ("255.255.255.255/32", false)]

/-- What no pod reaches, whatever its groups say. -/
def alwaysDeniedTexts : List String :=
  ["fe80::/10", "::1/128", "ff00::/8", "::/128", "169.254.0.0/16", "127.0.0.0/8", "224.0.0.0/4", "0.0.0.0/8"]

section Registry
variable (L : Libs)

def alwaysDenied : List Prefix := alwaysDeniedTexts.filterMap fun text => (Prefix.fromStr L text).toOption

/-- A block that is not globally reachable is taken out, one that is is put back in. -/
def globalStep (scope : Range) (reachable : List Range) (entry : Prefix × Bool) : List Range :=
  if entry.2 then
    match intersect entry.1.range scope with
    | some r => normalize (reachable ++ [r])
    | none => reachable
  else subtract reachable [entry.1.range]

/-- The globally reachable addresses of `scope`, from the shortest blocks to the longest. -/
def global (scope : Range) (registry : List (String × Bool)) : List Range :=
  let entries := registry.filterMap fun entry => (Prefix.fromStr L entry.1).toOption.map (·, entry.2)
  (entries.insertionSort fun a b => a.1.length ≤ b.1.length).foldl (globalStep scope) [scope]

def internet6 : List Range :=
  match Prefix.fromStr L ipv6GlobalUnicast with
  | .ok scope => global L scope.range ipv6Special
  | .error _ => []

def internet4 : List Range := global L (Prefix.v4 0 0).range ipv4Special

end Registry

end FeOS.Network
