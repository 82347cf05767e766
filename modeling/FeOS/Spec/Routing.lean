import Mathlib

/-! The way of a request through an environment's routes (`internal/routing/routing.go`, and `resolve` of
`internal/ingress/proxy/table.go`). Texts are bytes. -/

namespace FeOS.Routing

abbrev Text := List UInt8

def text (s : String) : Text := s.toUTF8.data.toList

/-- `strings.Split(p, "/")` -/
def split (p : Text) : List Text := p.splitOn 47

/-- `strings.Join(segs, "/")` -/
def join (segs : List Text) : Text := [47].intercalate segs

/-- `strings.TrimPrefix(p, "/")` -/
def trimLeft : Text → Text
  | [] => []
  | c :: p => if c = 47 then p else c :: p

/-- `strings.TrimSuffix(p, "/")` -/
def trimRight (p : Text) : Text := if p.getLast? = some 47 then p.dropLast else p

def isHex (c : UInt8) : Bool := (48 ≤ c && c ≤ 57) || (97 ≤ c && c ≤ 102) || (65 ≤ c && c ≤ 70)

def unhex (c : UInt8) : UInt8 := if 97 ≤ c then c - 97 + 10 else if 65 ≤ c then c - 65 + 10 else c - 48

def byteOf (a b : UInt8) : UInt8 := unhex a <<< 4 ||| unhex b

def lenientUnescape : Text → Text
  | c :: a :: b :: p =>
    if c = 37 && isHex a && isHex b then byteOf a b :: lenientUnescape p else c :: lenientUnescape (a :: b :: p)
  | c :: p => c :: lenientUnescape p
  | [] => []

def pathUnescape : Text → Option Text
  | c :: a :: b :: p =>
    if c = 37 then
      if isHex a && isHex b then (pathUnescape p).map (byteOf a b :: ·) else none
    else (pathUnescape (a :: b :: p)).map (c :: ·)
  | c :: p => if c = 37 then none else (pathUnescape p).map (c :: ·)
  | [] => some []

def dot : Text := [46]

def dotDot : Text := [46, 46]

/-- The first `n` rounds of `DotSegment`. -/
def dotRounds : ℕ → Text → Text
  | 0, _ => []
  | n + 1, p => match (split p).find? fun seg => seg = dot || seg = dotDot with
    | some seg => seg
    | none => dotRounds n (if 0 < n then lenientUnescape p else p)

def dotSegment (raw : Text) : Text := dotRounds 3 raw

/-- A path's segments, without the empty one before its first slash. -/
def segments (raw : Text) : List Text := split (trimLeft raw)

/-- The segments of a route's path. -/
def want (path : Text) : List Text := if trimRight path = [] then [] else segments (trimRight path)

/-- The loop of `Match` over the segments of one prefix. -/
def matchSegments : List Text → List Text → Bool
  | w :: ws, part :: parts => if pathUnescape part = some w then matchSegments ws parts else false
  | _ :: _, [] => false
  | [], _ => true

/-- The loop of `Match` over the prefixes, of which the next has index `i`; `best` is what it found. -/
def matchFrom (parts : List Text) : List Text → ℕ → Option (ℕ × ℕ) → Option (ℕ × ℕ)
  | [], _, best => best
  | pre :: prefixes, i, best =>
    if parts.length < (want pre).length || best.any fun b =>
      (want pre).length ≤ b.2 then matchFrom parts prefixes (i + 1) best
    else if matchSegments (want pre) parts then matchFrom parts prefixes (i + 1) (some (i, (want pre).length))
    else matchFrom parts prefixes (i + 1) best

/-- `Match` -/
def matchPrefixes (prefixes : List Text) (raw : Text) : Option (ℕ × ℕ) := matchFrom (segments raw) prefixes 0 none

/-- What `net/url` says of a path: how it escapes one, and which bytes stand in an escaped one. -/
structure Escaping where
  escape : Text → Text
  valid : UInt8 → Bool
  escape_nil : escape [] = []
  valid_slash : valid 47 = true

variable (E : Escaping)

def Escaping.Valid (raw : Text) : Prop := ∀ c ∈ raw, E.valid c = true

instance (raw : Text) : Decidable (E.Valid raw) := inferInstanceAs (Decidable (∀ c ∈ raw, E.valid c = true))

def Escaping.escapedPath (path rawPath : Text) : Text :=
  if rawPath ≠ [] ∧ E.Valid rawPath ∧ pathUnescape rawPath = some path then rawPath else E.escape path

def rawOf (path raw : Text) : Text := if E.escapedPath path [] = raw then [] else raw

def stripSegments (raw : Text) (n : ℕ) : Option (Text × Text) :=
  let rest := 47 :: join ((segments raw).drop n)
  (pathUnescape rest).map fun path => (path, rawOf E path rest)

structure Route where
  path : Text
  service : Text
  strip : Bool
  door : Bool
  deriving DecidableEq, Repr

structure EnvRoutes where
  routes : List Route
  services : List Text
  deriving DecidableEq, Repr

def EnvRoutes.prefixes (e : EnvRoutes) : List Text := e.routes.map Route.path

structure Target where
  route : Route
  path : Text
  rawPath : Text
  deriving DecidableEq, Repr

structure Reply where
  status : ℕ
  text : Text
  retryAfter : ℕ
  deriving DecidableEq, Repr

local instance lawfulText : LawfulBEq Text := inferInstance

/-- `resolve` from the match on: route `i`, which has `n` segments. -/
def target (e : EnvRoutes) (raw path : Text) (i n : ℕ) : Except Reply Target := match e.routes[i]? with
  | none => .error ⟨404, text "no route for " ++ path, 0⟩
  | some r =>
    if r.door then .error ⟨404, text "route " ++ r.path ++ text " is served by the route door", 0⟩
    else if r.service ∉ e.services then .error ⟨503, text "no ready instance of " ++ r.service, 5⟩
    else if r.strip then match stripSegments E raw n with
      | none => .error ⟨400, text "the path is not escaped correctly", 0⟩
      | some (path, rawPath) => .ok ⟨r, path, rawPath⟩
    else .ok ⟨r, path, rawOf E path raw⟩

/-- `table.resolve`; none is the table that the ingress does not have yet. -/
def resolve (hosts : Option (Text → Option EnvRoutes)) (host raw : Text) : Except Reply Target :=
  match hosts with
  | none => .error ⟨503, text "the ingress has no routing table yet", 5⟩
  | some hosts => match hosts host with
    | none => .error ⟨404, text "no such host", 0⟩
    | some e =>
      if dotSegment raw = dotDot then .error ⟨400, text "the path has a .. segment", 0⟩
      else if dotSegment raw = dot then .error ⟨400, text "the path has a . segment", 0⟩
      else match pathUnescape raw with
        | none => .error ⟨400, text "the path is not escaped correctly", 0⟩
        | some path => match matchPrefixes e.prefixes raw with
          | none => .error ⟨404, text "no route for " ++ path, 0⟩
          | some (i, n) => target E e raw path i n

end FeOS.Routing
