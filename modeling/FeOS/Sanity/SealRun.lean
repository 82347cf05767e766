import FeOS.Sanity.Extents

/-! What a seal's run does to the node, and what it makes of the top and the chain. -/

namespace FeOS

open Calls Calls.Prog List SealState Node

variable {Hash : Type} (L : Crates Hash)

structure Grows (n n' : Node Hash) : Prop where
  files : n'.files = n.files
  layers : n'.layers = n.layers
  rows : n'.rows = n.rows
  heads : n'.heads = n.heads
  unheaded : n'.unheaded = n.unheaded
  writes : n'.writes = n.writes
  chunks : ∀ h c, n.chunks h = some c → n'.chunks h = some c
  valid : ChunksValid L n.chunks → ChunksValid L n'.chunks
  callerStays : n.callerStays = none → n'.callerStays = none

theorem Grows.refl (n : Node Hash) : Grows L n n :=
  ⟨rfl, rfl, rfl, rfl, rfl, rfl, fun _ _ h => h, id, id⟩

variable {L}

theorem Grows.trans {a b c : Node Hash} (h1 : Grows L a b) (h2 : Grows L b c) : Grows L a c where
  files := h2.files.trans h1.files
  layers := h2.layers.trans h1.layers
  rows := h2.rows.trans h1.rows
  heads := h2.heads.trans h1.heads
  unheaded := h2.unheaded.trans h1.unheaded
  writes := h2.writes.trans h1.writes
  chunks := fun h x hx => h2.chunks h x (h1.chunks h x hx)
  valid := fun h => h2.valid (h1.valid h)
  callerStays := fun h => h2.callerStays (h1.callerStays h)

variable {n n' : Node Hash} {st : SealState Hash}

theorem Grows.isSome (hg : Grows L n n') {h : Hash} (hs : (n.chunks h).isSome) :
    (n'.chunks h).isSome := by
  obtain ⟨c, hc⟩ := Option.isSome_iff_exists.1 hs
  rw [hg.chunks h c hc]
  rfl

theorem Grows.readable (hg : Grows L n n') {chain : List (Manifest Hash)}
    (hr : Readable n.chunks chain) : Readable n'.chunks chain :=
  fun m hm h hh => hg.isSome (hr m hm h hh)

theorem onFile_snd {α : Type} (n : Node Hash) (p : Path) (g : SparseFile → Except Error α) :
    (n.onFile p g).2 = n := by
  rw [onFile]
  cases n.files p <;> rfl

variable (L) in
def StagingCall : Op Hash → Prop
  | .metadataLen _ | .seekData _ _ | .seekHole _ _ | .readExactAt _ _ _ => True
  | .readChunk _ _ | .contains _ | .cancelled => True
  | .admitChunk h b => L.blake3 b = h
  | _ => False

theorem makes_sys {o : Op Hash} (ho : StagingCall L o) :
    Makes (StagingCall L) (fun _ => True) (sys o) := makes_ask ho fun _ => trivial

/-! Which calls each part makes -/

def SealState.PendingValid (L : Crates Hash) (st : SealState Hash) : Prop :=
  ∀ x ∈ st.pending, L.blake3 x.2 = x.1

theorem makes_dataExtents (top : Path) (len : ℕ) :
    Makes (StagingCall L) (fun _ => True) (dataExtents top len : DiskM Hash _) := by
  suffices h : ∀ fuel pos, Makes (StagingCall L) (fun _ => True)
      (dataExtentsFrom top len fuel pos : DiskM Hash _) from h len 0
  intro fuel
  induction fuel with
  | zero => exact fun pos => trivial
  | succ fuel ih =>
    intro pos
    rw [dataExtentsFrom]
    split_ifs
    · refine makes_bind (makes_sys trivial) fun d _ => ?_
      cases d with
      | none => trivial
      | some d =>
        simp only
        split_ifs
        · trivial
        · exact makes_bind (makes_sys trivial) fun _ _ => makes_bind (ih _) fun _ _ => trivial
    · trivial

theorem makes_composeChunk (top : Path) (chain : List (Manifest Hash)) (ex : List (ℕ × ℕ)) (off rawLen : ℕ) :
    Makes (StagingCall L) (fun _ => True) (composeChunk top chain ex off rawLen) := by
  have hover : ∀ (l : List (ℕ × ℕ)) (base : Bytes),
      Makes (StagingCall L) (fun _ => True) (overlayFrom top off rawLen l base : DiskM Hash _) := by
    intro l
    induction l with
    | nil => exact fun base => trivial
    | cons x l ih =>
      intro base
      rw [overlayFrom]
      split_ifs
      · exact ih base
      · exact makes_bind (makes_sys trivial) fun _ _ => ih _
  rw [composeChunk]
  split_ifs
  · exact makes_sys trivial
  · refine makes_bind (Q := fun _ => True) ?_ fun base _ => hover _ _
    rw [readParentChunk]
    cases parentChunk? (resolveParent chain off)
    · trivial
    · exact makes_sys trivial

theorem makes_goOn (held : Bool) : Makes (StagingCall L) (fun _ => True) (goOn held : DiskM Hash _) := by
  rw [goOn]
  split_ifs
  · refine makes_bind (makes_sys trivial) fun b _ => ?_
    cases b <;> trivial
  · trivial

theorem makes_admitBatch : ∀ l : List (Hash × Bytes), (∀ x ∈ l, L.blake3 x.2 = x.1) →
    Makes (StagingCall L) (fun _ => True) (admitBatch l)
  | [], _ => trivial
  | x :: l, h =>
    makes_bind (makes_sys (h x (mem_cons_self ..))) fun _ _ =>
      makes_admitBatch l fun y hy => h y (mem_cons_of_mem _ hy)

theorem makes_flush (held : Bool) (hst : st.PendingValid L) :
    Makes (StagingCall L) (PendingValid L) (st.flush held) := by
  rw [flush]
  split_ifs
  · exact hst
  · exact makes_bind (makes_goOn held) fun _ _ => makes_bind (makes_admitBatch _ hst) fun _ _ =>
      fun x hx => absurd hx (not_mem_nil)

theorem makes_push (held : Bool) (hst : st.PendingValid L) (buf : Bytes) :
    Makes (StagingCall L) (PendingValid L) (st.push held (L.blake3 buf) buf) := by
  have hst' : PendingValid L
      { st with pending := st.pending ++ [(L.blake3 buf, buf)]
                pendingBytes := st.pendingBytes + buf.length } := by
    intro x hx
    rcases mem_append.1 hx with hx | hx
    · exact hst x hx
    · rw [mem_singleton.1 hx]
  simp only [push]
  split_ifs
  · exact makes_flush held hst'
  · exact hst'

theorem makes_keep (held : Bool) (hst : st.PendingValid L) (buf : Bytes) :
    Makes (StagingCall L) (PendingValid L) (st.keep held (L.blake3 buf) buf) := by
  refine makes_bind (makes_sys trivial) fun hit _ => ?_
  cases hit with
  | true =>
    rw [if_pos rfl]
    split_ifs
    · exact makes_push held (show (st.countHit buf).PendingValid L from hst) buf
    · exact hst
  | false => exact makes_push held (show (st.countNew buf).PendingValid L from hst) buf

variable [DecidableEq Hash]

theorem admitTo_isSome {chunks : Hash → Option Bytes} {h h' : Hash} {b : Bytes} :
    (admitTo chunks h b h').isSome ↔ (chunks h').isSome ∨ h' = h := by
  rw [admitTo]
  split_ifs with hs
  · constructor
    · exact Or.inl
    · rintro (h' | rfl)
      exacts [h', hs]
  · by_cases heq : h' = h
    · simp [heq]
    · simp [heq]

theorem grows_admit (n : Node Hash) {h : Hash} {b : Bytes} (hb : L.blake3 b = h) :
    Grows L n { n with chunks := admitTo n.chunks h b } := by
  refine ⟨rfl, rfl, rfl, rfl, rfl, rfl, fun h' c hc => ?_, fun hv h' c hc => ?_, id⟩
  · simp only [admitTo]
    split_ifs with hs
    · exact hc
    · rw [Function.update_of_ne, hc]
      rintro rfl
      simp [hc] at hs
  · simp only [admitTo] at hc
    split_ifs at hc with hs
    · exact hv h' c hc
    · by_cases heq : h' = h
      · subst heq
        rw [Function.update_self, Option.some.injEq] at hc
        exact hc ▸ hb
      · rw [Function.update_of_ne heq] at hc
        exact hv h' c hc

theorem grows_exec (o : Op Hash) (ho : StagingCall L o) (n : Node Hash) :
    Grows L n (exec L o n).2 := by
  cases o with
  | admitChunk h b => exact grows_admit n ho
  | cancelled =>
    rw [exec]
    rcases hc : n.callerStays with _ | _ | k
    · exact Grows.refl L n
    · exact Grows.refl L n
    · exact ⟨rfl, rfl, rfl, rfl, rfl, rfl, fun _ _ h => h, id, fun h => by simp [hc] at h⟩
  | readChunk h len =>
    rw [exec]
    cases n.chunks h <;> exact Grows.refl L n
  | contains h => exact Grows.refl L n
  | metadataLen p => rw [exec, onFile_snd]; exact Grows.refl L n
  | seekData p pos => rw [exec, onFile_snd]; exact Grows.refl L n
  | seekHole p pos => rw [exec, onFile_snd]; exact Grows.refl L n
  | readExactAt p off len => rw [exec, onFile_snd]; exact Grows.refl L n
  | _ => exact ho.elim

theorem grows_of_makes {α : Type} {Q : α → Prop} {p : DiskM Hash α}
    (hp : Makes (StagingCall L) Q p) (h : Cut (exec L) p n n') : Grows L n n' :=
  cut_of_makes (exec L) (P := Grows L n) (fun o ho w hw => hw.trans (grows_exec o ho w)) hp h
    (Grows.refl L n)

theorem grows_run {α : Type} {Q : α → Prop} {p : DiskM Hash α}
    {r : Except Error α} (hp : Makes (StagingCall L) Q p) (h : run (exec L) p n = (r, n')) :
    Grows L n n' := by
  have := grows_of_makes hp (cut_run (exec L) p n)
  rwa [show (Prog.run (exec L) p n).2 = n' from congrArg Prod.snd h] at this

/-! The seal -/

theorem makes_classifyChunk (held : Bool) (below : Option (Entry Hash)) (off : ℕ) (buf : Bytes)
    (hst : st.PendingValid L) :
    Makes (StagingCall L) (PendingValid L) (classifyChunk L held below off buf st) := by
  unfold classifyChunk
  split
  · exact hst
  · exact hst
  · split_ifs
    · exact hst
    · cases L.zstd buf with
      | none => trivial
      | some comp =>
        exact makes_bind (makes_keep held hst buf) fun st' hst' => hst'

theorem makes_sealChunks (top : Path) (chain shared : List (Manifest Hash)) (ex : List (ℕ × ℕ))
    (held : Bool) (R cs : ℕ) : ∀ (l : List ℕ) (st : SealState Hash), st.PendingValid L →
      Makes (StagingCall L) (PendingValid L)
        (sealChunks L top chain shared ex held R cs l st)
  | [], _, hst => hst
  | _ :: l, _, hst =>
    makes_bind (makes_goOn held) fun _ _ => makes_bind (makes_composeChunk ..) fun buf _ =>
      makes_bind (makes_classifyChunk held _ _ buf hst) fun st' hst' =>
        makes_sealChunks top chain shared ex held R cs l st' hst'

theorem makes_sealStage (top : Path) (chain : List (Manifest Hash))
    (mergeWith : Option (Manifest Hash)) (held : Bool) (R cs : ℕ) :
    Makes (StagingCall L) (fun r => r.1.parent = (sharedPrefix chain mergeWith).getLast?.map L.layerId)
      (sealStage L top chain mergeWith held R cs) := by
  refine makes_bind (Q := fun shared => shared = sharedPrefix chain mergeWith) ?_ fun shared hshared => ?_
  · unfold sharedOf
    split
    · rfl
    · split
      · trivial
      · split_ifs
        · trivial
        · trivial
        · rfl
  refine makes_bind (makes_sys trivial) fun len _ => ?_
  split_ifs
  · trivial
  refine makes_bind (makes_dataExtents top _) fun ex _ => ?_
  refine makes_bind (makes_sealChunks top chain shared ex held R cs _ _ ?_) fun st hst => ?_
  · exact fun x hx => absurd hx (not_mem_nil)
  · refine makes_bind (makes_flush held hst) fun _ _ => makes_bind (makes_goOn held) fun _ _ => ?_
    simp only [pure_eq, makes_ret, hshared]

end FeOS
