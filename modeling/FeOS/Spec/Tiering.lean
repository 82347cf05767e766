import FeOS.Lib.Runs
import FeOS.Spec.Sweep

/-! Pushes and sweeps of one node step by step (`push_layer`, the journals and `DiskSvc::sweep`
in `diskd/src/svc.rs`). Requests to the store and writes of markers are steps of their own, in
any order that the two protocols allow. -/

namespace FeOS

open Function

/-- Replaces the object under its key. -/
def Bucket.put (b : Bucket) (o : StoredObject) : Bucket where
  objects := o :: b.objects.filter fun o' => o'.key ≠ o.key
  nodup := by
    refine List.nodup_cons.2 ⟨?_, b.nodup.sublist (List.filter_sublist.map _)⟩
    simp

def Bucket.delete (b : Bucket) (key : String) : Bucket := b.keep fun k => k ≠ key

def UNHEADED_TRUST_SECONDS : ℤ := 12 * 60 * 60

/-- The journal a push lists what it uploads in. -/
inductive Journal where
  /-- `unheaded/<disk>`: chunks and layers -/
  | disk (name : String)
  /-- `unheaded-memory/<layer>`: chunks -/
  | memory (layer : String)
  deriving DecidableEq, Repr

structure JournalFile where
  since : ℤ
  chunks : List Digest
  layers : List Digest

/-- When a journal that is not there starts, if a push starts it. -/
def Journal.start (now : ℤ) : Journal → Option ℤ
  | .disk _ => none
  | .memory _ => some now

/-- `append_journal`: the journal with what is added, if it is there or starts. -/
def appendJournal (file : Option JournalFile) (chunks layers : List Digest) (start : Option ℤ) :
    Option JournalFile :=
  match file, start with
  | some f, _ => some { f with chunks := f.chunks ++ chunks, layers := f.layers ++ layers }
  | none, some since => some ⟨since, chunks, layers⟩
  | none, none => none

/-- A `push_layer` in flight: where each chunk of its layer is. -/
structure Push where
  layer : Digest
  manifest : Manifest Digest
  started : ℤ
  journal : Option Journal
  /-- not looked at -/
  todo : List Digest
  /-- without a marker -/
  unmarked : List Digest := []
  /-- taken to be in the store: marked, or found there -/
  trusted : List Digest := []
  uploaded : List Digest := []
  /-- in the store now, to be marked -/
  batch : List Digest := []
  /-- in the journal, to be marked -/
  listed : List Digest := []
  /-- whether the manifest is up -/
  manifestPut : Bool := false

/-- How far a sweep is. A dry run changes nothing and is not one of these. -/
inductive SweepPhase where
  /-- the first pass -/
  | heads
  /-- the second: the manifests to delete, those of them left, and the layers that survive -/
  | layers (dead left surviving : List String)
  /-- the survivors left to read, and the chunks of those that were read -/
  | read (ids : List String) (referenced : List Digest)
  /-- the third pass: the chunks left to delete, and those deleted -/
  | chunks (left gone : List String)
  /-- the chunks that are to lose their markers -/
  | unmark (hashes : List Digest)
  deriving DecidableEq

structure SweepState where
  now : ℤ
  grace : ℤ
  phase : SweepPhase
  deriving DecidableEq

/-- The node and the bucket, with what is in flight. -/
structure Tiering where
  tier : Tier
  clock : ℤ
  journals : Journal → Option JournalFile
  /-- `journal_mu`, and the push that holds it -/
  journalMu : Option ℕ
  pushes : ℕ → Option Push
  sweeps : ℕ → Option SweepState

inductive PushStep where
  | testMarker (h : Digest)
  /-- the chunk is on the node, and is uploaded -/
  | putChunk (h : Digest) (size : ℕ)
  /-- the chunk is not on the node, and is found in the store -/
  | findChunk (h : Digest)
  | listBatch (hs : List Digest)
  /-- the write of a marker may fail -/
  | markChunk (h : Digest) (written : Bool)
  | putManifest (size : ℕ)
  | markLayer
  /-- an error, or the caller is gone -/
  | stop

inductive SweepStep where
  | deleteSnapshot (key : String)
  /-- the first pass found these layers live -/
  | listLayers (live : List String)
  | deleteLayer (key : String)
  | unmarkLayers
  | readManifest
  | listChunks
  | deleteChunk (key : String)
  | chunksDeleted
  | unmarkChunk (h : Digest)
  /-- the end, or an error, also one after some of the deletes -/
  | stop

inductive TierEvent where
  | tick (seconds : ℕ)
  /-- a seal or a fetch puts a layer's manifest on the node, and a seal removes one -/
  | addLayer (id : Digest)
  | removeLayer (id : Digest)
  | markUnheaded (disk : String)
  | removeJournal (j : Journal)
  /-- the expiry of a journal; a disk's is kept while the disk has a row -/
  | expireJournal (j : Journal) (row : Bool)
  | startPush (p : ℕ) (layer : Digest) (journal : Option Journal)
  | push (p : ℕ) (e : PushStep)
  | startSweep (k : ℕ) (grace : ℤ)
  | sweep (k : ℕ) (e : SweepStep)
  /-- the daemon ends -/
  | crash

namespace Tiering

def setPush (s : Tiering) (p : ℕ) (a : Option Push) : Tiering := { s with pushes := update s.pushes p a }

def setPhase (s : Tiering) (k : ℕ) (sw : SweepState) (phase : SweepPhase) : Tiering :=
  { s with sweeps := update s.sweeps k (some { sw with phase }) }

def setBucket (s : Tiering) (b : Bucket) : Tiering := { s with tier := { s.tier with bucket := b } }

def setMark (s : Tiering) (h : Digest) (v : Bool) : Tiering :=
  { s with tier := { s.tier with marked := update s.tier.marked h v } }

/-- Ends the trust in a journal: what it lists loses its markers. -/
def expireJournal (s : Tiering) (j : Journal) (row : Bool) : Option Tiering :=
  match s.journals j with
  | none => none
  | some f =>
    if s.clock - f.since ≤ UNHEADED_TRUST_SECONDS then none
    else
      let keep := match j with
        | .disk _ => row
        | .memory _ => false
      some { s with
        tier := { s.tier with
          marked := fun h => s.tier.marked h && !(h ∈ f.chunks)
          uploaded := fun id => s.tier.uploaded id && !(id ∈ f.layers.map Digest.hex) }
        journals := update s.journals j (if keep then some ⟨s.clock, [], []⟩ else none) }

/-- `mark_pushed`, up to the markers: lists the chunks in the push's journal. Without a journal
nothing is listed; once a disk's journal is gone, the chunks stay unmarked. -/
def listBatch (s : Tiering) (p : ℕ) (a : Push) (hs : List Digest) : Option Tiering :=
  let a := { a with batch := a.batch.filter fun h => h ∉ hs }
  match a.journal with
  | none => some (s.setPush p (some { a with listed := hs }))
  | some j =>
    if s.journalMu ≠ none then none
    else match appendJournal (s.journals j) hs [] (j.start s.clock) with
      | none => some (s.setPush p (some a))
      | some f =>
        some { s.setPush p (some { a with listed := hs }) with
          journals := update s.journals j (some f)
          journalMu := some p }

def markChunk (s : Tiering) (p : ℕ) (a : Push) (h : Digest) (written : Bool) : Tiering :=
  let listed := a.listed.filter fun h' => h' ≠ h
  let s := s.setMark h (s.tier.marked h || written)
  { s.setPush p (some { a with listed }) with
    journalMu := if listed = [] && s.journalMu = some p then none else s.journalMu }

/-- `mark_layer_pushed` -/
def markLayer (s : Tiering) (p : ℕ) (a : Push) : Option Tiering :=
  let marked : Tiering := { s.setPush p none with
    tier := { s.tier with uploaded := update s.tier.uploaded a.layer.hex true } }
  match a.journal with
  | some (.disk name) =>
    if s.journalMu ≠ none then none
    else match appendJournal (s.journals (.disk name)) [] [a.layer] none with
      | none => some (s.setPush p none)
      | some f => some { marked with journals := update s.journals (.disk name) (some f) }
  | _ => some marked

def stepPush (s : Tiering) (p : ℕ) (a : Push) : PushStep → Option Tiering
  | .testMarker h =>
    if h ∉ a.todo then none
    else if s.tier.marked h then
      some (s.setPush p (some { a with todo := a.todo.erase h, trusted := h :: a.trusted }))
    else some (s.setPush p (some { a with todo := a.todo.erase h, unmarked := h :: a.unmarked }))
  | .putChunk h size =>
    if h ∉ a.unmarked then none
    else some ((s.setBucket (s.tier.bucket.put ⟨⟨chunkKey h, size, s.clock⟩, .bytes⟩)).setPush p
      (some { a with
        unmarked := a.unmarked.erase h
        uploaded := h :: a.uploaded
        batch := h :: a.batch }))
  | .findChunk h =>
    if h ∉ a.unmarked ∨ s.tier.bucket.find (chunkKey h) = none then none
    else some (s.setPush p
      (some { a with
        unmarked := a.unmarked.erase h
        trusted := h :: a.trusted
        batch := h :: a.batch }))
  | .listBatch hs => if hs ⊆ a.batch ∧ a.listed = [] then s.listBatch p a hs else none
  | .markChunk h written => if h ∈ a.listed then some (s.markChunk p a h written) else none
  | .putManifest size =>
    if a.todo = [] ∧ a.unmarked = [] ∧ a.batch = [] ∧ a.listed = [] ∧ a.manifestPut = false then
      some ((s.setBucket (s.tier.bucket.put ⟨⟨manifestKey a.layer, size, s.clock⟩, .manifest a.manifest⟩)).setPush p
        (some { a with manifestPut := true }))
    else none
  | .markLayer => if a.manifestPut then s.markLayer p a else none
  | .stop => if a.listed = [] then some (s.setPush p none) else none

def stepSweep (s : Tiering) (k : ℕ) (sw : SweepState) : SweepStep → Option Tiering
  | .deleteSnapshot key =>
    match sw.phase with
    | .heads => if (splitSnapshotKey key).isSome then some (s.setBucket (s.tier.bucket.delete key)) else none
    | _ => none
  | .listLayers live =>
    match sw.phase, s.tier.list none "layers/" with
    | .heads, .ok objs =>
      let dead := (planLayers objs live sw.now sw.grace).1
      some (s.setPhase k sw (.layers dead dead (survivingLayers objs dead)))
    | _, _ => none
  | .deleteLayer key =>
    match sw.phase with
    | .layers dead left surviving =>
      if key ∈ left then
        some ((s.setBucket (s.tier.bucket.delete key)).setPhase k sw
          (.layers dead (left.filter fun key' => key' ≠ key) surviving))
      else none
    | _ => none
  | .unmarkLayers =>
    match sw.phase with
    | .layers dead [] surviving =>
      some (setPhase
        { s with tier := { s.tier with
            uploaded := fun id => s.tier.uploaded id && !(id ∈ dead.filterMap layerIdOfKey) } }
        k sw (.read surviving []))
    | _ => none
  | .readManifest =>
    match sw.phase with
    | .read (id :: ids) referenced =>
      match manifestForSweep s.tier none id with
      | .ok m => some (s.setPhase k sw (.read ids (referenced ++ m.dataHashes)))
      | .error _ => none
    | _ => none
  | .listChunks =>
    match sw.phase, s.tier.list none "chunks/" with
    | .read [] referenced, .ok objs =>
      some (s.setPhase k sw (.chunks (planChunks objs referenced sw.now sw.grace).1 []))
    | _, _ => none
  | .deleteChunk key =>
    match sw.phase with
    | .chunks left gone =>
      if key ∈ left then
        some ((s.setBucket (s.tier.bucket.delete key)).setPhase k sw
          (.chunks (left.filter fun key' => key' ≠ key) (key :: gone)))
      else none
    | _ => none
  | .chunksDeleted =>
    match sw.phase with
    | .chunks [] gone =>
      some (s.setPhase k sw (.unmark (gone.filterMap fun key => (chunkHexOfKey key).bind Digest.fromHex)))
    | _ => none
  | .unmarkChunk h =>
    match sw.phase with
    | .unmark hashes =>
      if h ∈ hashes then some ((s.setMark h false).setPhase k sw (.unmark (hashes.filter fun h' => h' ≠ h)))
      else none
    | _ => none
  | .stop => some { s with sweeps := update s.sweeps k none }

/-- One step; `manifestOf` gives the manifest that a layer's id is the hash of. -/
def step (manifestOf : Digest → Manifest Digest) (s : Tiering) : TierEvent → Option Tiering
  | .tick seconds => some { s with clock := s.clock + seconds }
  | .addLayer id =>
    some { s with tier := { s.tier with
      layers := (id.hex, manifestOf id) :: s.tier.layers.filter fun x => x.1 ≠ id.hex } }
  | .removeLayer id =>
    some { s with tier := { s.tier with layers := s.tier.layers.filter fun x => x.1 ≠ id.hex } }
  | .markUnheaded disk =>
    if s.journalMu ≠ none then none
    else match s.journals (.disk disk) with
      | some _ => some s
      | none => some { s with journals := update s.journals (.disk disk) (some ⟨s.clock, [], []⟩) }
  | .removeJournal j =>
    if s.journalMu ≠ none then none else some { s with journals := update s.journals j none }
  | .expireJournal j row => if s.journalMu ≠ none then none else s.expireJournal j row
  | .startPush p layer journal =>
    match s.pushes p, s.tier.localLayer layer.hex with
    | none, some manifest =>
      some (s.setPush p (some { layer, manifest, started := s.clock, journal, todo := manifest.dataHashes }))
    | _, _ => none
  | .push p e => (s.pushes p).bind (s.stepPush p · e)
  | .startSweep k grace =>
    if s.sweeps k = none then
      some { s with sweeps := update s.sweeps k (some ⟨s.clock, grace, .heads⟩) }
    else none
  | .sweep k e => (s.sweeps k).bind (s.stepSweep k · e)
  | .crash => some { s with journalMu := none, pushes := fun _ => none, sweeps := fun _ => none }

end Tiering

end FeOS
