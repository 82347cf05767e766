import Mathlib

/-! Paged reads of the sink's logs (`go/internal/sink/read.go`, `query.go`, `join.go`): the newest lines
come from the tail of the topics, the others from the index, which answers a search with at most so many
documents. -/

namespace FeOS.Logs

/-- A stream's ID: `s_` and a number of 16 hex digits. -/
abbrev SID := ℕ

/-- A stream as the reads know it: its row and its ID. -/
structure StreamRow where
  id : ℤ
  sid : SID
  firstNs : Option ℤ
  lastNs : Option ℤ
  lastOff : ℤ
  deriving DecidableEq, Repr

/-- A line as an index and a topic hold it; `part` when the next line of its stream goes on with it,
`cont` when it goes on with one. -/
structure Doc where
  ts : ℤ
  stream : SID
  iostream : String
  level : ℕ
  traceId : String
  off : ℤ
  part : Bool
  cont : Bool
  text : List Char
  deriving DecidableEq, Repr

structure Line where
  stream : ℤ
  off : ℤ
  ts : ℤ
  source : String
  level : ℕ
  part : Bool
  cont : Bool
  text : List Char
  trace : String
  deriving DecidableEq, Repr

def levelUnknown : ℕ := 16

/-- A document as a line of the stream row `id`. -/
def lineOf (d : Doc) (id : ℤ) : Line :=
  ⟨id, d.off, d.ts, d.iostream, if d.level = 0 then levelUnknown else d.level, d.part, d.cont, d.text, d.traceId⟩

/-- A line's place in the order of reads. -/
structure Pos where
  ts : ℤ
  stream : ℤ
  off : ℤ
  deriving DecidableEq, Repr

def Line.pos (l : Line) : Pos := ⟨l.ts, l.stream, l.off⟩

/-- `cmpPos(a, b) < 0` -/
def Pos.lt (a b : Pos) : Prop := a.ts < b.ts ∨ (a.ts = b.ts ∧ (a.stream < b.stream ∨ (a.stream = b.stream ∧ a.off < b.off)))

instance (a b : Pos) : Decidable (a.lt b) := inferInstanceAs (Decidable (_ ∨ _))

/-- A read: the selector and the line filters as what they let through, the time range, the direction, the
page's size and where it goes on. -/
structure Query where
  sel : StreamRow → Bool
  since : ℤ
  till : ℤ
  sinceSet : Bool
  passes : Line → Bool
  forward : Bool
  limit : ℕ
  cursor : Option Pos

namespace Query

/-- Whether `a` comes before `b` in the scan's order. -/
def before (q : Query) (a b : Pos) : Prop := if q.forward then a.lt b else b.lt a

instance (q : Query) (a b : Pos) : Decidable (q.before a b) := inferInstanceAs (Decidable (ite _ _ _))

/-- In the time range and after the cursor. -/
def inRange (q : Query) (l : Line) : Bool :=
  decide (q.since ≤ l.ts ∧ l.ts ≤ q.till) && q.cursor.all fun c => decide (q.before c l.pos)

end Query

def minInt64 : ℤ := -2 ^ 63

def maxInt64 : ℤ := 2 ^ 63 - 1

/-- What is stored: the streams' rows by their ID, the documents of the topics' tail and of the index. A
line has its stream and offset for itself, and the time its stream's row says. -/
structure Store where
  rows : List StreamRow
  tail : List Doc
  index : List Doc
  ids : rows.Pairwise fun a b => a.id < b.id
  sids : rows.Pairwise fun a b => a.sid ≠ b.sid
  idRange : ∀ st ∈ rows, minInt64 < st.id ∧ st.id < maxInt64
  same : ∀ d ∈ tail ++ index, ∀ d' ∈ tail ++ index, d.stream = d'.stream → d.off = d'.off → d = d'
  positive : ∀ d ∈ tail ++ index, 0 < d.ts
  firstPositive : ∀ st ∈ rows, ∀ first, st.firstNs = some first → 0 < first
  times : ∀ d ∈ tail ++ index, ∀ st ∈ rows, st.sid = d.stream → st.firstNs.any (· ≤ d.ts) ∧ st.lastNs.any (d.ts ≤ ·)

/-- The most streams one read selects. -/
def maxStreamsRead : ℕ := 10000

/-- The selector, and the streams with lines in the time range. -/
def Query.selects (q : Query) (st : StreamRow) : Bool :=
  q.sel st && st.firstNs.any (· ≤ q.till) && if q.sinceSet || !q.forward then st.lastNs.any (q.since ≤ ·) else true

def selectStreams (rows : List StreamRow) (q : Query) : List StreamRow := (rows.filter q.selects).take maxStreamsRead

def Query.startStep (q : Query) (since : ℤ) (st : StreamRow × ℕ) : ℤ :=
  match st.1.firstNs with
  | some first => if !q.sinceSet && q.forward && (st.2 == 0 || decide (first < since)) then first else since
  | none => since

/-- The read of the streams' start, when it goes forward without a `since`. -/
def Query.startAt (q : Query) (streams : List StreamRow) : Query :=
  { q with since := streams.zipIdx.foldl q.startStep q.since }

def bySID (streams : List StreamRow) (sid : SID) : Option StreamRow := streams.find? fun st => st.sid == sid

def textSize (text : List Char) : ℕ := (text.map Char.utf8Size).sum

/-- What `readTail` does with a document. -/
def tailDoc (q : Query) (streams : List StreamRow) (acc : List Line × ℕ) (d : Doc) : List Line × ℕ :=
  match bySID streams d.stream with
  | none => acc
  | some st =>
    if d.cont then acc
    else
      let l := lineOf d st.id
      (if q.inRange l && (l.part || q.passes l) then acc.1 ++ [l] else acc.1, acc.2 + textSize d.text)

def readTail (q : Query) (streams : List StreamRow) (tail : List Doc) : List Line × ℕ :=
  tail.foldl (tailDoc q streams) ([], 0)

/-! The index -/

/-- The hits of one search: in a direction, from a time to a time, at most so many. -/
abbrev Search := Bool → ℤ → ℤ → ℕ → List Doc

/-- The times a search is asked for; a bound that is not positive is none. -/
def inTimes (since till : ℤ) (d : Doc) : Bool := decide ((0 < since → since ≤ d.ts) ∧ (0 < till → d.ts ≤ till))

/-- The index's order of two hits. -/
def hitOrder (forward : Bool) (a b : Doc) : Prop :=
  if forward then a.ts < b.ts ∨ (a.ts = b.ts ∧ a.off ≤ b.off) else b.ts < a.ts ∨ (b.ts = a.ts ∧ b.off ≤ a.off)

instance (forward : Bool) (a b : Doc) : Decidable (hitOrder forward a b) := inferInstanceAs (Decidable (ite _ _ _))

/-- The index answers the first `max` of the documents that its query finds, in its order; that of
documents of one time and offset is its own. -/
def Searches (index : List Doc) (finds : Doc → Bool) (search : Search) : Prop :=
  ∀ forward since till max, ∃ sorted : List Doc, sorted.Perm (index.filter fun d => finds d && inTimes since till d) ∧
    sorted.Pairwise (hitOrder forward) ∧ search forward since till max = sorted.take max

def maxHits : ℕ := 10000

/-- `iq.Max` -/
def maxOf (limit : ℕ) : ℕ := min maxHits (max (2 * limit) 500)

/-- The loop's variables. -/
structure Scan where
  sinceNs : ℤ
  untilNs : ℤ
  seen : List (ℤ × ℤ)
  out : List Line
  scanned : ℕ

/-- What the loop does with a hit, and whether it is fresh. -/
def Scan.hit (q : Query) (streams : List StreamRow) (through : Option Pos) (acc : Scan × ℕ) (h : Doc) : Scan × ℕ :=
  match bySID streams h.stream with
  | none => acc
  | some st =>
    if h.cont then acc
    else if (st.id, h.off) ∈ acc.1.seen then acc
    else
      let l := lineOf h st.id
      let takes := q.inRange l && through.all (fun p => !decide (q.before p l.pos)) && (l.part || q.passes l)
      ({ acc.1 with seen := (st.id, h.off) :: acc.1.seen, scanned := acc.1.scanned + textSize h.text,
                    out := if takes then acc.1.out ++ [l] else acc.1.out }, acc.2 + 1)

/-- Where a scan that read enough stops: before the lines of this time. -/
def stopAt (forward : Bool) (ts : ℤ) : Pos := if forward then ⟨ts, minInt64, minInt64⟩ else ⟨ts, maxInt64, maxInt64⟩

/-- The next page starts at the last one's time; a page of nothing fresh goes past it. -/
def Scan.goOn (s : Scan) (forward : Bool) (last : ℤ) (fresh : ℕ) : Scan :=
  if forward then { s with sinceNs := if fresh = 0 then last + 1 else last }
  else { s with untilNs := if fresh = 0 then last - 1 else last }

/-- The loop of `readIndex`; `none` when it has not ended after so many turns. -/
def scanLoop (search : Search) (q : Query) (streams : List StreamRow) (through : Option Pos) (scanLimit : ℕ) :
    ℕ → Scan → Option (List Line × Option Pos)
  | 0, _ => none
  | fuel + 1, s =>
    if 0 < s.untilNs ∧ s.untilNs < s.sinceNs then some (s.out, none)
    else
      let hits := search q.forward s.sinceNs s.untilNs (maxOf q.limit)
      let (s', fresh) := hits.foldl (Scan.hit q streams through) (s, 0)
      match hits.getLast? with
      | none => some (s'.out, none)
      | some last =>
        if hits.length < maxOf q.limit ∨ q.limit ≤ s'.out.length then some (s'.out, none)
        else if scanLimit ≤ s'.scanned then some (s'.out, some (stopAt q.forward last.ts))
        else scanLoop search q streams through scanLimit fuel (s'.goOn q.forward last.ts fresh)

/-- The index's lines of a read, in pages, after the cursor and not past `through`. -/
def readIndex (search : Search) (fuel : ℕ) (q : Query) (streams : List StreamRow) (through : Option Pos)
    (scanned scanLimit : ℕ) :
    Option (List Line × Option Pos) :=
  let cut (p : Option Pos) (since till : ℤ) (low : Bool) : ℤ × ℤ := match p with
    | none => (since, till)
    | some p => if low then (max since p.ts, till) else (since, min till p.ts)
  let (since, till) := cut q.cursor q.since q.till q.forward
  let (since, till) := cut through since till (!q.forward)
  scanLoop search q streams through scanLimit fuel ⟨since, till, [], [], scanned⟩

/-! A page -/

def compactFrom (a : Line) : List Line → List Line
  | [] => [a]
  | b :: rest => if a.stream = b.stream ∧ a.off = b.off then compactFrom a rest else a :: compactFrom b rest

/-- One of equal neighbours. -/
def compact : List Line → List Line
  | [] => []
  | a :: rest => compactFrom a rest

def mergeScan (q : Query) (a b : List Line) : List Line :=
  compact ((a ++ b).insertionSort fun x y => ¬ q.before y.pos x.pos)

def maxJoined : ℕ := 2 ^ 20

/-- The most characters of the text whose bytes are not more than `maxJoined`. -/
def cutJoined : ℕ → List Char → List Char
  | _, [] => []
  | room, c :: rest => if c.utf8Size ≤ room then c :: cutJoined (room - c.utf8Size) rest else []

def finish (head : Line) (text : List Char) (part : Bool) : Line :=
  if maxJoined < textSize text then { head with text := cutJoined maxJoined text, part := true }
  else { head with text := text, part := part }

/-- A partial line with the documents that go on with it, by their offsets, each offset once. -/
def joinRest (head : Line) (text : List Char) (last : ℤ) : List Doc → Line
  | [] => finish head text true
  | d :: rest =>
    if d.off ≤ last then joinRest head text last rest
    else if !d.cont then finish head text true
    else
      let text := text ++ d.text
      if maxJoined ≤ textSize text then finish head text true
      else if !d.part then finish head text false
      else joinRest head text d.off rest

/-- Of a stream's source, after the head and up to the last offset the read saw. -/
def goesOn (head : Line) (st : StreamRow) (d : Doc) : Bool :=
  d.stream == st.sid && d.iostream == head.source && decide (head.off < d.off ∧ d.off ≤ st.lastOff)

def byOff (docs : List Doc) : List Doc := docs.insertionSort fun a b => a.off ≤ b.off

/-- `joinParts`, of one head: a search by offset answers 2000 documents at most. -/
def joinPart (store : Store) (streams : List StreamRow) (head : Line) : Line :=
  if !head.part || head.cont then head
  else
    match streams.find? fun st => st.id == head.stream with
    | none => head
    | some st =>
      if st.lastOff ≤ head.off then head
      else
        let rest := (byOff (store.index.filter (goesOn head st))).take 2000 ++ store.tail.filter (goesOn head st)
        joinRest head head.text head.off (byOff rest)

structure Page where
  lines : List Line
  cursor : Option Pos
  /-- `partial`: it stopped at a bound before its limit -/
  stopped : Bool
  deriving DecidableEq, Repr

/-- What of the lines found is a page, and its cursor. -/
def cutPage (q : Query) (found : List Line) (through : Option Pos) : List Line × Option Pos × Bool :=
  let found := match through with
    | none => found
    | some p => found.takeWhile fun l => !decide (q.before p l.pos)
  let found := found.take q.limit
  if q.limit ≤ found.length then (found, found.getLast?.map Line.pos, false) else (found, through, through.isSome)

/-- The lines a page considers, of the tail and of the index, and its cursor. -/
def findPage (store : Store) (search : Search) (scanLimit fuel : ℕ) (q : Query) (streams : List StreamRow) :
    Option (List Line × Option Pos × Bool) :=
  let tail := readTail q streams store.tail
  (readIndex search fuel q streams none tail.2 scanLimit).map fun cold => cutPage q (mergeScan q tail.1 cold.1) cold.2

/-- `Read`: a page of a query, with what the index answers it. -/
def read (store : Store) (search : Search) (scanLimit fuel : ℕ) (q : Query) : Option Page :=
  let streams := selectStreams store.rows q
  if streams = [] then some ⟨[], none, false⟩
  else
    (findPage store search scanLimit fuel (q.startAt streams) streams).map fun page =>
      ⟨(page.1.map (joinPart store streams)).filter q.passes, page.2.1, page.2.2⟩

/-- The lines of the pages, the cursors followed until there is none; `none` when there is one after so
many pages. -/
def readAll (store : Store) (search : Search) (scanLimit fuel : ℕ) (q : Query) : ℕ → Option (List Line)
  | 0 => none
  | pages + 1 =>
    (read store search scanLimit fuel q).bind fun page => match page.cursor with
      | none => some page.lines
      | some c => (readAll store search scanLimit fuel { q with cursor := some c } pages).map (page.lines ++ ·)

/-! What a query is to answer -/

/-- The query's time range: a forward read without a `since` begins with the first line. -/
def Query.inTime (q : Query) (ts : ℤ) : Prop := ts ≤ q.till ∧ (q.sinceSet = true ∨ q.forward = false → q.since ≤ ts)

instance (q : Query) (ts : ℤ) : Decidable (q.inTime ts) := inferInstanceAs (Decidable (_ ∧ _))

/-- A line that matches the query: one of the tail, or one that the index finds. A partial line is joined
with its rest first. -/
def Matching (store : Store) (finds : Doc → Bool) (q : Query) (l : Line) : Prop :=
  ∃ st ∈ store.rows, q.sel st = true ∧ ∃ d, (d ∈ store.tail ∨ (d ∈ store.index ∧ finds d = true)) ∧ d.stream = st.sid ∧
    d.cont = false ∧ q.inTime d.ts ∧ l = joinPart store [st] (lineOf d st.id) ∧ q.passes l = true

/-- The lines are those that match, each once and in the query's order. -/
def Answers (store : Store) (finds : Doc → Bool) (q : Query) (lines : List Line) : Prop :=
  (lines.Pairwise fun a b => q.before a.pos b.pos) ∧ ∀ l, l ∈ lines ↔ Matching store finds q l

end FeOS.Logs
