import FeOS.Spec.DiskSvc
import FeOS.Sanity.SealResult

/-! The places at which the seal of a disk can stop, and what is on the node there. -/

namespace FeOS

open Calls Calls.Prog Function Node

section Loading
variable {Hash : Type}

def Loads (layers : Hash → Option (Manifest Hash)) : Option Hash → List Hash → List (Manifest Hash) → Prop
  | _, [], ms => ms = []
  | want, id :: rest, ms => ∃ m ms', ms = m :: ms' ∧ layers id = some m ∧
      (want.isSome → m.parent = want) ∧ Loads layers (some id) rest ms'

theorem Loads.length {layers : Hash → Option (Manifest Hash)} : ∀ {want : Option Hash}
    {ids : List Hash} {ms : List (Manifest Hash)}, Loads layers want ids ms → ms.length = ids.length
  | _, [], ms, h => by rw [show ms = [] from h]; rfl
  | _, _ :: _, _, ⟨_, _, rfl, _, _, hrest⟩ => congrArg (· + 1) hrest.length

/-- The disk's row, layers and top as they were, over a store that may have gained chunks. -/
structure Quiet (L : Crates Hash) (n n' : Node Hash) : Prop where
  files : n'.files = n.files
  layers : n'.layers = n.layers
  rows : n'.rows = n.rows
  chunks : ∀ h c, n.chunks h = some c → n'.chunks h = some c
  valid : ChunksValid L n.chunks → ChunksValid L n'.chunks

variable {L : Crates Hash}

theorem Quiet.refl (n : Node Hash) : Quiet L n n := ⟨rfl, rfl, rfl, fun _ _ h => h, id⟩

theorem Quiet.trans {a b c : Node Hash} (h1 : Quiet L a b) (h2 : Quiet L b c) : Quiet L a c :=
  ⟨h2.files.trans h1.files, h2.layers.trans h1.layers, h2.rows.trans h1.rows,
    fun h x hx => h2.chunks h x (h1.chunks h x hx), fun h => h2.valid (h1.valid h)⟩

variable {n n' : Node Hash}

theorem Grows.quiet (h : Grows L n n') : Quiet L n n' :=
  ⟨h.files, h.layers, h.rows, h.chunks, h.valid⟩

variable [DecidableEq Hash]

def Reads (L : Crates Hash) (o : Op Hash) : Prop := ∀ n, (exec L o n).2 = n

theorem reads_loadLayer (id : Hash) : Reads L (.loadLayer id) := fun n => by
  rw [exec]
  cases n.layers id <;> rfl

theorem makes_loadChainFrom : ∀ (want : Option Hash) (ids : List Hash),
    Makes (Reads L) (fun ms => ms.length = ids.length) (loadChainFrom want ids)
  | _, [] => rfl
  | want, id :: rest => by
    refine makes_bind (makes_ask (Q := fun _ => True) (reads_loadLayer id) fun _ => trivial) fun m _ => ?_
    split_ifs
    · trivial
    · refine makes_bind (makes_loadChainFrom (some id) rest) fun ms hms => ?_
      exact congrArg (· + 1) hms

theorem cut_of_reads {α : Type} {Q : α → Prop} {p : DiskM Hash α}
    (hp : Makes (Reads L) Q p) (h : Cut (exec L) p n n') : n' = n :=
  cut_of_makes (exec L) (P := fun w => w = n) (fun _ ho w hw => (ho w).trans hw) hp h rfl

theorem run_of_reads {α : Type} {Q : α → Prop} {p : DiskM Hash α} (hp : Makes (Reads L) Q p)
    (n : Node Hash) : (run (exec L) p n).2 = n := cut_of_reads hp (cut_run _ p n)

theorem loadChainFrom_ok : ∀ {want : Option Hash} {ids : List Hash}
    {ms : List (Manifest Hash)}, run (exec L) (loadChainFrom want ids) n = (.ok ms, n') →
    Loads n.layers want ids ms
  | _, [], ms, h => by
    cases h
    rfl
  | want, id :: rest, ms, h => by
    obtain ⟨m, n1, hload, hrest⟩ := run_bind_ok _ h
    cases hl : n.layers id with
    | none => simp [exec, hl] at hload
    | some m' =>
      simp only [run_ask, exec, hl, Prod.mk.injEq, Except.ok.injEq] at hload
      obtain ⟨rfl, rfl⟩ := hload
      by_cases hbad : want.isSome ∧ m'.parent ≠ want
      · simp [if_pos hbad] at hrest
      rw [if_neg hbad] at hrest
      obtain ⟨ms', n2, hms', hend⟩ := run_bind_ok _ hrest
      cases hend
      rw [not_and, not_not] at hbad
      exact ⟨m', ms', rfl, hl, hbad, loadChainFrom_ok hms'⟩

theorem cut_loadChain_bind {β : Type} {ids : List Hash}
    {f : List (Manifest Hash) → DiskM Hash β} (hc : Cut (exec L) (loadChain ids >>= f) n n') :
    n' = n ∨ ∃ ms, Loads n.layers none ids ms ∧ Cut (exec L) (f ms) n n' := by
  have hreads := makes_loadChainFrom (L := L) none ids
  rcases cut_bind _ hc with hc1 | ⟨ms, n1, hload, hc1⟩
  · exact .inl (cut_of_reads hreads hc1)
  · obtain rfl : n1 = n := by
      rw [← run_of_reads hreads n]
      exact (congrArg Prod.snd hload).symm
    exact .inr ⟨ms, loadChainFrom_ok hload, hc1⟩

theorem loadChainFrom_run : ∀ {want : Option Hash} {ids : List Hash}
    {ms : List (Manifest Hash)}, Loads n.layers want ids ms →
    run (exec L) (loadChainFrom want ids) n = (.ok ms, n)
  | _, [], ms, h => by
    cases h
    rfl
  | want, id :: rest, ms, h => by
    obtain ⟨m, ms', rfl, hl, hparent, hrest⟩ := h
    have hload : run (exec L) (sys (.loadLayer id)) n = (.ok m, n) := by simp [exec, hl]
    rw [loadChainFrom, run_bind_of_ok _ _ hload, if_neg (by simpa using hparent),
      run_bind_of_ok _ _ (loadChainFrom_run hrest)]
    rfl

end Loading

variable {Hash : Type} [DecidableEq Hash] {L : Crates Hash}

def Node.marked (n : Node Hash) (pod : String) : Node Hash :=
  { n with unheaded := update n.unheaded pod true }

def mergedOf (chain : List (Manifest Hash)) (depth : ℕ) : Option (Manifest Hash) :=
  if depth < chain.length then chain.getLast? else none

omit [DecidableEq Hash] in
theorem sharedPrefix_eq_take {chain : List (Manifest Hash)} {depth : ℕ} (hle : depth ≤ chain.length)
    (hshape : chain.length ≤ depth + 1) :
    sharedPrefix chain (mergedOf chain depth) = chain.take depth := by
  rw [sharedPrefix, mergedOf]
  by_cases hlt : depth < chain.length
  · have hne : chain ≠ [] := by
      rintro rfl
      simp at hlt
    rw [if_pos hlt, List.getLast?_eq_some_getLast hne, if_pos (by simp), List.dropLast_eq_take]
    congr 1
    omega
  · rw [if_neg hlt, if_neg (by simp), List.take_of_length_le (by omega)]

structure SealAt (L : Crates Hash) (n : Node Hash) (pod : String) (row : DeviceRow Hash)
    (chain : List (Manifest Hash)) (depth : ℕ) (m : Manifest Hash) (stats : SealStats)
    (n₁ : Node Hash) : Prop where
  row_eq : n.rows pod = some row
  loads : Loads n.layers none row.chain chain
  depth_eq : depth = min row.sharedDepth chain.length
  shape : chain.length ≤ depth + 1
  top : (n.files (.top pod)).isSome
  stage : run (exec L) (sealStage L (.top pod) chain (mergedOf chain depth) true row.logicalSize
    row.chunkSize) (n.marked pod) = (.ok (m, stats), n₁)

inductive SealPoint where
  | committed
  | pointed
  | dropped
  | cleaned
  deriving DecidableEq, Repr

def commitLayer (L : Crates Hash) (layers : Hash → Option (Manifest Hash)) (m : Manifest Hash) :
    Hash → Option (Manifest Hash) :=
  if (layers (L.layerId m)).isSome then layers else update layers (L.layerId m) (some m)

def replaced (L : Crates Hash) (row : DeviceRow Hash) (depth : ℕ) (m : Manifest Hash) : Option Hash :=
  if depth < row.chain.length then row.chain.getLast?.filter (· ≠ L.layerId m) else none

def sealedRow (L : Crates Hash) (row : DeviceRow Hash) (depth : ℕ) (m : Manifest Hash) : DeviceRow Hash :=
  { row with chain := row.chain.take depth ++ [L.layerId m], devId := none, hasTop := false }

structure SealReached (L : Crates Hash) (n : Node Hash) (pod : String) (row : DeviceRow Hash) (depth : ℕ)
    (m : Manifest Hash) (n₁ : Node Hash) (pt : SealPoint) (n' : Node Hash) : Prop where
  chunks : n'.chunks = n₁.chunks
  rows : n'.rows = if pt = .committed then n.rows
    else update n.rows pod (some (sealedRow L row depth m))
  files : n'.files = if pt = .committed ∨ pt = .pointed then n.files
    else update n.files (.top pod) none
  layers : n'.layers = match pt, replaced L row depth m with
    | .cleaned, some old => update (commitLayer L n.layers m) old none
    | _, _ => commitLayer L n.layers m

section
variable {n n' n₁ : Node Hash} {pod : String} {row : DeviceRow Hash} {chain : List (Manifest Hash)}
  {depth : ℕ} {m : Manifest Hash} {stats : SealStats}

theorem makes_stage (pod : String) (row : DeviceRow Hash) (chain : List (Manifest Hash)) (depth : ℕ) :
    Makes (StagingCall L)
      (fun r => r.1.parent = (sharedPrefix chain (mergedOf chain depth)).getLast?.map L.layerId)
      (sealStage L (.top pod) chain (mergedOf chain depth) true row.logicalSize row.chunkSize) :=
  makes_sealStage ..

theorem SealAt.quiet (h : SealAt L n pod row chain depth m stats n1) : Quiet L n n1 := by
  obtain ⟨hf, hl, hr, -, -, -, hc, hv, -⟩ := grows_run (makes_stage pod row chain depth) h.stage
  exact ⟨hf, hl, hr, hc, hv⟩

theorem SealAt.committed (h : SealAt L n pod row chain depth m stats n1) :
    SealReached L n pod row depth m n1 .committed (exec L (.commitManifest m) n1).2 := by
  refine ⟨rfl, h.quiet.rows, h.quiet.files, ?_⟩
  simp only [← h.quiet.layers]
  rfl

theorem sealTopInner_cut {top : Path} {mergeWith : Option (Manifest Hash)} {held : Bool}
    {logicalSize chunkSize : ℕ}
    (hc : Cut (exec L) (sealTopInner L top chain mergeWith held logicalSize chunkSize) n n') :
    Grows L n n' ∨ ∃ m stats n1,
      run (exec L) (sealStage L top chain mergeWith held logicalSize chunkSize) n =
        (.ok (m, stats), n1) ∧ n' = (exec L (.commitManifest m) n1).2 := by
  have hmakes := makes_sealStage (L := L) top chain mergeWith held logicalSize chunkSize
  rcases cut_bind _ hc with hc | ⟨⟨m, stats⟩, n1, hstage, hc⟩
  · exact .inl (grows_of_makes hmakes hc)
  rcases cut_ask_ok _ rfl hc with rfl | hc
  · exact .inl (grows_run hmakes hstage)
  · exact .inr ⟨m, stats, n1, hstage, cut_ret _ hc⟩

theorem sealCommitted_cut {n2 : Node Hash} (hrow : n.rows pod = some row)
    (htop : (n.files (.top pod)).isSome) (h₀ : SealReached L n pod row depth m n1 .committed n2)
    (hc : Cut (exec L) (sealCommitted pod row depth ⟨L.layerId m, m, stats⟩) n2 n') :
    ∃ pt, SealReached L n pod row depth m n1 pt n' := by
  have hrows : n2.rows = n.rows := h₀.rows
  -- the row
  obtain ⟨n3, hx, h1⟩ : ∃ n3, exec L (.updateRow pod fun r =>
      { r with chain := r.chain.take depth ++ [L.layerId m], devId := none, hasTop := false }) n2 =
        (.ok (sealedRow L row depth m), n3) ∧ SealReached L n pod row depth m n1 .pointed n3 := by
    simp only [exec, hrows, hrow]
    exact ⟨_, rfl, h₀.chunks, rfl, h₀.files, h₀.layers⟩
  rcases cut_ask_ok _ hx hc with rfl | hc
  · exact ⟨_, h₀⟩
  -- the top
  obtain ⟨n4, hx, h2⟩ : ∃ n4, exec L (.removeFile (.top pod)) n3 = (.ok (), n4) ∧
      SealReached L n pod row depth m n1 .dropped n4 := by
    obtain ⟨f, hf⟩ := Option.isSome_iff_exists.1 htop
    have hfile : n3.files (.top pod) = some f := by rw [h1.files]; exact hf
    simp only [exec, hfile]
    exact ⟨_, rfl, h1.chunks, h1.rows, congrArg (update · (Path.top pod) none) h1.files, h1.layers⟩
  rcases cut_ask_ok _ hx hc with rfl | hc
  · exact ⟨_, h1⟩
  -- the head, which is no part of what the points say
  rcases cut_ask_ok _ rfl hc with rfl | hc
  · exact ⟨_, h2⟩
  rcases cut_ask_ok _ rfl hc with rfl | hc
  · exact ⟨_, h2⟩
  have h3 : ∀ heads, SealReached L n pod row depth m n1 .dropped { n4 with heads := heads } :=
    fun _ => ⟨h2.chunks, h2.rows, h2.files, h2.layers⟩
  -- the replaced layer
  cases hold : (if depth < row.chain.length then row.chain.getLast? else none) with
  | none =>
    rw [hold] at hc
    exact ⟨_, cut_ret _ hc ▸ h3 _⟩
  | some old =>
    rw [hold] at hc
    by_cases hsame : old = L.layerId m
    · simp only [hsame, if_true] at hc
      exact ⟨_, cut_ret _ hc ▸ h3 _⟩
    have hreplaced : replaced L row depth m = some old := by
      by_cases hlt : depth < row.chain.length
      · rw [if_pos hlt] at hold
        rw [replaced, if_pos hlt, hold]
        simp [hsame]
      · simp [if_neg hlt] at hold
    simp only [hsame, if_false] at hc
    rcases cut_ask_ok _ rfl hc with rfl | hc
    · exact ⟨_, h3 _⟩
    rw [cut_ret _ hc]
    refine ⟨.cleaned, h2.chunks, h2.rows, h2.files, ?_⟩
    rw [hreplaced]
    exact congrArg (update · old none) h2.layers

theorem sealDisk_cut (hc : Cut (exec L) (sealDisk L pod) n n') :
    Quiet L n n' ∨ ∃ row chain depth m stats n1 pt,
      SealAt L n pod row chain depth m stats n1 ∧ SealReached L n pod row depth m n1 pt n' := by
  have hmarked : Quiet L n (n.marked pod) := ⟨rfl, rfl, rfl, fun _ _ h => h, id⟩
  rcases cut_ask_ok _ rfl hc with rfl | hc
  · exact .inl (Quiet.refl _)
  cases hrow : n.rows pod with
  | none =>
    rw [hrow] at hc
    rw [cut_fail _ hc]
    exact .inl (Quiet.refl _)
  | some row =>
  rw [hrow] at hc
  rcases cut_ask_ok _ rfl hc with rfl | hc2
  · exact .inl (Quiet.refl _)
  change Cut _ _ (n.marked pod) n' at hc2
  rcases cut_loadChain_bind hc2 with rfl | ⟨chain, hloads, hc3⟩
  · exact .inl hmarked
  by_cases hshape : min row.sharedDepth chain.length + 1 < chain.length
  · simp only [hshape, if_true] at hc3
    rw [cut_fail _ hc3]
    exact .inl hmarked
  simp only [hshape, if_false] at hc3
  rcases cut_ask_ok _ rfl hc3 with rfl | hc4
  · exact .inl hmarked
  cases hthere : ((n.marked pod).files (.top pod)).isSome with
  | true =>
    rw [hthere, if_pos rfl] at hc4
    -- the seal, up to its commit and past it
    have hat : ∀ {m stats w}, run (exec L) (sealStage L (.top pod) chain
        (mergedOf chain (min row.sharedDepth chain.length)) true row.logicalSize row.chunkSize)
        (n.marked pod) = (.ok (m, stats), w) →
        SealAt L n pod row chain (min row.sharedDepth chain.length) m stats w :=
      fun hstage => ⟨hrow, hloads, rfl, by omega, hthere, hstage⟩
    rcases cut_bind _ hc4 with hc5 | ⟨out, w5, hrun, hc5⟩
    · rcases sealTopInner_cut hc5 with hgrows | ⟨m, stats, w5, hstage, rfl⟩
      · exact .inl (hmarked.trans hgrows.quiet)
      · exact .inr ⟨row, chain, _, m, stats, w5, .committed, hat hstage, (hat hstage).committed⟩
    · obtain ⟨⟨m, stats⟩, w6, hstage, hrest⟩ := run_bind_ok _ hrun
      obtain ⟨_, w7, hcommit, hend⟩ := run_bind_ok _ hrest
      obtain ⟨rfl, rfl⟩ : _ = out ∧ w7 = w5 := by simpa using hend
      have hw7 : (exec L (.commitManifest m) w6).2 = w7 := congrArg Prod.snd hcommit
      obtain ⟨pt, hpt⟩ := sealCommitted_cut hrow hthere (hw7 ▸ (hat hstage).committed) hc5
      exact .inr ⟨row, chain, _, m, stats, w6, pt, hat hstage, hpt⟩
  | false =>
    rw [hthere, if_neg Bool.false_ne_true] at hc4
    -- no top: the newest layer is looked up
    cases hnew : row.chain.getLast? with
    | none =>
      simp only [hnew] at hc4
      rw [cut_fail _ hc4]
      exact .inl hmarked
    | some newest =>
      simp only [hnew] at hc4
      have hreads : Makes (Reads L) (fun _ => True) (do
          let manifest ← sys (.loadLayer newest)
          pure ({ layerId := L.layerId manifest, manifest := manifest, stats := {} } : SealOutcome Hash)) :=
        makes_bind (makes_ask (Q := fun _ => True) (reads_loadLayer newest) fun _ => trivial)
          fun _ _ => trivial
      rw [cut_of_reads hreads hc4]
      exact .inl hmarked

end

end FeOS
