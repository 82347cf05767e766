import FeOS.Sanity.Compose

/-! A seal that comes to its commit has made exactly the layer that `sealedManifest` says, and
every chunk the layer names is in the store. -/

namespace FeOS

open Calls Calls.Prog List Node SealState

section State
variable {Hash : Type}

def SealState.Has (st : SealState Hash) (n : Node Hash) (h : Hash) : Prop :=
  (n.chunks h).isSome ∨ ∃ b, (h, b) ∈ st.pending

variable {L : Crates Hash} {n n' : Node Hash}

theorem SealState.Has.grows {st : SealState Hash} {h : Hash}
    (hs : st.Has n h) (hg : Grows L n n') : st.Has n' h := hs.imp_left hg.isSome

def Stays (held : Bool) (n : Node Hash) : Prop := held = true → n.callerStays = none

theorem Stays.grows {held : Bool} (hs : Stays held n)
    (hg : Grows L n n') : Stays held n' := fun h => hg.callerStays (hs h)

variable {f : SparseFile} {chain : List (Manifest Hash)} {off rawLen : ℕ}

theorem Composable.of_grows (hg : Grows L n n') (hr : Readable n.chunks chain)
    (hc : Composable f n'.chunks chain off rawLen) : Composable f n.chunks chain off rawLen := by
  refine hc.imp_right fun hbelow h hp => ?_
  obtain ⟨m, hm, hh⟩ := parentChunk?_mem hp
  obtain ⟨c, hcn⟩ := Option.isSome_iff_exists.1 (hr m hm h hh)
  obtain ⟨c', hc', hle⟩ := hbelow h hp
  rw [hg.chunks h c hcn, Option.some.injEq] at hc'
  exact ⟨c, hcn, hc' ▸ hle⟩

theorem Composable.grows (hg : Grows L n n') (hc : Composable f n.chunks chain off rawLen) :
    Composable f n'.chunks chain off rawLen := by
  refine hc.imp_right fun hbelow h hp => ?_
  obtain ⟨c, hcn, hle⟩ := hbelow h hp
  exact ⟨c, hg.chunks h c hcn, hle⟩

end State

variable {Hash : Type} [DecidableEq Hash] {L : Crates Hash}

variable {held : Bool} {n n' : Node Hash} {st st' : SealState Hash} {h : Hash} {buf : Bytes} {R cs : ℕ}
  {chain : List (Manifest Hash)} {mergeWith : Option (Manifest Hash)} {top : Path}

theorem goOn_ends (hs : Stays held n) :
    Ends (exec L) (goOn held) n := by
  cases held with
  | false => exact ⟨(), n, rfl⟩
  | true => exact ⟨(), n, by simp [goOn, run_bind, exec, hs rfl]⟩

theorem admitBatch_run : ∀ (l : List (Hash × Bytes)) (n : Node Hash),
    ∃ n', run (exec L) (admitBatch l) n = (.ok (), n') ∧
      ∀ h, (n.chunks h).isSome ∨ (∃ b, (h, b) ∈ l) → (n'.chunks h).isSome
  | [], n => ⟨n, rfl, fun h hh => hh.resolve_right (by simp)⟩
  | x :: l, n => by
    have hx : run (exec L) (sys (.admitChunk x.1 x.2)) n =
        (.ok (), { n with chunks := admitTo n.chunks x.1 x.2 }) := rfl
    obtain ⟨n', hrun, hsome⟩ := admitBatch_run l { n with chunks := admitTo n.chunks x.1 x.2 }
    refine ⟨n', by rw [admitBatch, run_bind_of_ok _ _ hx, hrun], fun h hh => hsome h ?_⟩
    rcases hh with hh | ⟨b, hb⟩
    · exact .inl (admitTo_isSome.2 (.inl hh))
    · rcases mem_cons.1 hb with heq | hb
      · exact .inl (admitTo_isSome.2 (.inr (congrArg Prod.fst heq)))
      · exact .inr ⟨b, hb⟩

theorem flush_ok (h : run (exec L) (st.flush held) n = (.ok st', n')) :
    st'.entries = st.entries ∧ ∀ k, st.Has n k → (n'.chunks k).isSome := by
  rw [flush] at h
  split_ifs at h with hempty
  · cases h
    refine ⟨rfl, fun k hk => hk.resolve_right ?_⟩
    rw [isEmpty_iff.1 hempty]
    simp
  · obtain ⟨_, n1, hgo, h⟩ := run_bind_ok _ h
    obtain ⟨_, n2, hadm, h⟩ := run_bind_ok _ h
    have hg := grows_run (makes_goOn held) hgo
    obtain ⟨n3, hrun, hsome⟩ := admitBatch_run (L := L) st.pending n1
    rw [hadm] at hrun
    cases hrun
    cases h
    exact ⟨rfl, fun k hk => hsome k (hk.grows hg)⟩

theorem flush_ends (hs : Stays held n) :
    Ends (exec L) (st.flush held) n := by
  rw [flush]
  split_ifs
  · exact ⟨st, n, rfl⟩
  · refine ends_bind _ (goOn_ends hs) fun _ n1 _ => ?_
    obtain ⟨n2, hrun, -⟩ := admitBatch_run (L := L) st.pending n1
    exact ends_bind _ ⟨(), n2, hrun⟩ fun _ n3 _ => ⟨_, n3, rfl⟩

theorem push_ok (hrun : run (exec L) (st.push held h buf) n = (.ok st', n')) :
    st'.entries = st.entries ∧ ∀ k, st.Has n k ∨ k = h → st'.Has n' k := by
  simp only [push] at hrun
  have hin : ∀ k, st.Has n k ∨ k = h → Has
      { st with pending := st.pending ++ [(h, buf)], pendingBytes := st.pendingBytes + buf.length } n k := by
    rintro k ((hk | ⟨b, hb⟩) | rfl)
    · exact .inl hk
    · exact .inr ⟨b, mem_append_left _ hb⟩
    · exact .inr ⟨buf, mem_append_right _ (mem_singleton.2 rfl)⟩
  split_ifs at hrun
  · obtain ⟨hentries, hsome⟩ := flush_ok hrun
    exact ⟨hentries, fun k hk => .inl (hsome k (hin k hk))⟩
  · cases hrun
    exact ⟨rfl, hin⟩

theorem push_ends (hs : Stays held n) : Ends (exec L) (st.push held h buf) n := by
  simp only [push]
  split_ifs
  · exact flush_ends hs
  · exact ⟨_, n, rfl⟩

theorem keep_ok (hrun : run (exec L) (st.keep held h buf) n = (.ok st', n')) :
    st'.entries = st.entries ∧ ∀ k, st.Has n k ∨ k = h → st'.Has n' k := by
  obtain ⟨hit, n1, hc, hrest⟩ := run_bind_ok _ hrun
  cases hc
  split_ifs at hrest with hhit
  · obtain ⟨hentries, hhas⟩ := push_ok hrest
    exact ⟨hentries, hhas⟩
  · cases hrest
    refine ⟨rfl, fun k hk => hk.elim id fun heq => .inl ?_⟩
    rwa [heq]
  · obtain ⟨hentries, hhas⟩ := push_ok hrest
    exact ⟨hentries, hhas⟩

theorem keep_ends (hs : Stays held n) : Ends (exec L) (st.keep held h buf) n := by
  refine ends_bind _ ⟨_, n, rfl⟩ fun hit n1 hc => ?_
  cases hc
  split_ifs
  · exact push_ends hs
  · exact ⟨_, n, rfl⟩
  · exact push_ends hs

variable {below : Option (Entry Hash)} {off : ℕ} {f : SparseFile}

theorem classifyChunk_ok
    (hrun : run (exec L) (classifyChunk L held below off buf st) n = (.ok st', n')) :
    st'.entries = st.entries ++ (canonicalEntry L below off buf).toList ∧
      (∀ k, st.Has n k → st'.Has n' k) ∧
      ∀ e ∈ canonicalEntry L below off buf, ∀ k, e.chunk? = some k → st'.Has n' k := by
  unfold classifyChunk at hrun
  unfold canonicalEntry
  split at hrun
  case h_1 h hz hp =>
    cases hrun
    refine ⟨by simp [hz, hp], fun k hk => hk, fun e he k hk => ?_⟩
    simp only [hz, hp, Option.isSome_some, if_true, Option.mem_def, Option.some.injEq] at he
    subst he
    exact absurd hk (by simp [Entry.chunk?, Crates.zeroEntry])
  case h_2 hz hp =>
    cases hrun
    exact ⟨by simp [hz, hp], fun k hk => hk, by simp [hz, hp]⟩
  case h_3 hz =>
    split_ifs at hrun with hsame
    · cases hrun
      exact ⟨by simp [hz, hsame], fun k hk => hk, by simp [hz, hsame]⟩
    · cases hcomp : L.zstd buf with
      | none => simp [hcomp] at hrun
      | some comp =>
        rw [hcomp] at hrun
        obtain ⟨st1, n1, hkeep, hrun⟩ := run_bind_ok _ hrun
        obtain ⟨hentries, hhas⟩ := keep_ok hkeep
        cases hrun
        refine ⟨by simp [hz, hsame, hentries], fun k hk => hhas k (.inl hk), fun e he k hk => ?_⟩
        simp only [hz, hsame, Bool.false_eq_true, if_false, Option.mem_def, Option.some.injEq] at he
        subst he
        exact hhas k (.inr (Option.some.inj hk).symm)

theorem classifyChunk_ends (hs : Stays held n) (hz : ∀ b, (L.zstd b).isSome) :
    Ends (exec L) (classifyChunk L held below off buf st) n := by
  unfold classifyChunk
  split
  · exact ⟨_, n, rfl⟩
  · exact ⟨_, n, rfl⟩
  · split_ifs
    · exact ⟨_, n, rfl⟩
    · obtain ⟨comp, hcomp⟩ := Option.isSome_iff_exists.1 (hz buf)
      rw [hcomp]
      exact ends_bind _ (keep_ends hs) fun st' n' _ => ⟨_, n', rfl⟩

theorem changedEntries_cons (shared : List (Manifest Hash)) (v : View) (R cs ci : ℕ) (l : List ℕ) :
    changedEntries L shared v R cs (ci :: l) =
      (canonicalEntry L (resolveParent shared (ci * cs)) (ci * cs)
        (viewChunk v (ci * cs) (chunkLenAt (ci * cs) R cs))).toList ++
      changedEntries L shared v R cs l := by
  simp only [changedEntries, filterMap_cons]
  split <;> simp_all

section Loop
variable {n₀ : Node Hash} {top : Path} {f : SparseFile} (hf : n₀.files top = some f)
  {chain shared : List (Manifest Hash)} {ex : List (ℕ × ℕ)} {R cs : ℕ} {held : Bool}
  (hex : ExtentsFrom f 0 (min f.length R) ex) (hcs : 0 < cs) (hr : Readable n₀.chunks chain)
include hf hex hcs hr

theorem compose_at {ci : ℕ} (hci : ci * cs < R) {n : Node Hash} (hg : Grows L n₀ n) :
    (Composable f n₀.chunks chain (ci * cs) (chunkLenAt (ci * cs) R cs) →
      run (exec L) (composeChunk top chain ex (ci * cs) (chunkLenAt (ci * cs) R cs)) n =
          (.ok (viewChunk (overlay f (chainView n₀.chunks chain cs)) (ci * cs)
            (chunkLenAt (ci * cs) R cs)), n) ∧
        Whole (overlay f (chainView n₀.chunks chain cs)) (ci * cs) (chunkLenAt (ci * cs) R cs)) ∧
    (¬ Composable f n₀.chunks chain (ci * cs) (chunkLenAt (ci * cs) R cs) →
      ∃ e, run (exec L) (composeChunk top chain ex (ci * cs) (chunkLenAt (ci * cs) R cs)) n =
        (.error e, n)) := by
  have hfn : n.files top = some f := by rw [hg.files, hf]
  have hraw : 0 < chunkLenAt (ci * cs) R cs := by
    rw [chunkLenAt]
    omega
  have hdata : ∀ p < ci * cs + chunkLenAt (ci * cs) R cs, f.isData p = true → p < min f.length R := by
    intro p hp hd
    have := SparseFile.lt_length_of_isData hd
    rw [chunkLenAt] at hp
    omega
  rw [← chainView_kept hg.chunks hr cs]
  refine ⟨fun hc => ?_, fun hc => ?_⟩
  · exact composeChunk_run L hfn hex (min_le_left _ _) hraw (min_le_right _ _) (Dvd.intro_left _ rfl)
      hdata (hc.grows hg)
  · exact composeChunk_stuck L hex hraw hdata fun hc' => hc (hc'.of_grows hg hr)

theorem sealChunks_ok : ∀ (l : List ℕ) (st st' : SealState Hash) (n n' : Node Hash),
    (∀ ci ∈ l, ci * cs < R) → st.PendingValid L → Grows L n₀ n →
    run (exec L) (sealChunks L top chain shared ex held R cs l st) n = (.ok st', n') →
    (∀ ci ∈ l, Composable f n₀.chunks chain (ci * cs) (chunkLenAt (ci * cs) R cs)) ∧
    st'.entries = st.entries ++
      changedEntries L shared (overlay f (chainView n₀.chunks chain cs)) R cs l ∧
    (∀ k, st.Has n k → st'.Has n' k) ∧
    ∀ e ∈ changedEntries L shared (overlay f (chainView n₀.chunks chain cs)) R cs l,
      ∀ k, e.chunk? = some k → st'.Has n' k := by
  intro l
  induction l with
  | nil =>
    intro st st' n n' _ _ _ hrun
    cases hrun
    exact ⟨by simp, by simp [changedEntries], fun k hk => hk, by simp [changedEntries]⟩
  | cons ci l ih =>
    intro st st' n n' hl hst hg hrun
    obtain ⟨_, n1, hgo, hrun1⟩ := run_bind_ok _ hrun
    obtain ⟨buf, n2, hcompose, hrun2⟩ := run_bind_ok _ hrun1
    obtain ⟨st1, n3, hclass, hrun3⟩ := run_bind_ok _ hrun2
    have hg1 := grows_run (makes_goOn held) hgo
    have hat := compose_at hf hex hcs hr (hl ci mem_cons_self) (hg.trans hg1)
    have hcomp : Composable f n₀.chunks chain (ci * cs) (chunkLenAt (ci * cs) R cs) := by
      by_contra hnot
      obtain ⟨e, he⟩ := hat.2 hnot
      simp [he] at hcompose
    rw [(hat.1 hcomp).1] at hcompose
    cases hcompose
    have hmakes := makes_classifyChunk held (resolveParent shared (ci * cs)) (ci * cs)
      (viewChunk (overlay f (chainView n₀.chunks chain cs)) (ci * cs) (chunkLenAt (ci * cs) R cs)) hst
    have hg2 := grows_run hmakes hclass
    obtain ⟨hentries, hkept, hnew⟩ := classifyChunk_ok hclass
    obtain ⟨hall, hentries', hkept', hnew'⟩ := ih st1 st' n3 n'
      (fun cj hcj => hl cj (mem_cons_of_mem _ hcj)) (value_of_makes _ hmakes hclass)
      ((hg.trans hg1).trans hg2) hrun3
    refine ⟨?_, ?_, fun k hk => hkept' k (hkept k (hk.grows hg1)), ?_⟩
    · rintro cj (_ | ⟨_, hcj⟩)
      exacts [hcomp, hall cj hcj]
    · rw [hentries', hentries, changedEntries_cons, append_assoc]
    · intro e he k hk
      rw [changedEntries_cons] at he
      rcases mem_append.1 he with he | he
      · exact hkept' k (hnew e (Option.mem_toList.1 he) k hk)
      · exact hnew' e he k hk

theorem sealChunks_ends : ∀ (l : List ℕ) (st : SealState Hash) (n : Node Hash),
    (l ≠ [] → ∀ b, (L.zstd b).isSome) → (∀ ci ∈ l, ci * cs < R) → st.PendingValid L → Grows L n₀ n → Stays held n →
    (∀ ci ∈ l, Composable f n₀.chunks chain (ci * cs) (chunkLenAt (ci * cs) R cs)) →
    Ends (exec L) (sealChunks L top chain shared ex held R cs l st) n := by
  intro l
  induction l with
  | nil => exact fun st n _ _ _ _ _ _ => ⟨st, n, rfl⟩
  | cons ci l ih =>
    intro st n hz hl hst hg hs hall
    have hzstd := hz (cons_ne_nil ci l)
    refine ends_bind _ (goOn_ends hs) fun _ n1 hgo => ?_
    have hg1 := grows_run (makes_goOn held) hgo
    have hat := compose_at hf hex hcs hr (hl ci mem_cons_self) (hg.trans hg1)
    have hcompose := (hat.1 (hall ci mem_cons_self)).1
    refine ends_bind _ ⟨_, _, hcompose⟩ fun buf n2 hbuf => ?_
    rw [hcompose] at hbuf
    cases hbuf
    refine ends_bind _ (classifyChunk_ends (hs.grows hg1) hzstd) fun st1 n3 hclass => ?_
    have hmakes := makes_classifyChunk held (resolveParent shared (ci * cs)) (ci * cs)
      (viewChunk (overlay f (chainView n₀.chunks chain cs)) (ci * cs) (chunkLenAt (ci * cs) R cs)) hst
    have hg2 := grows_run hmakes hclass
    exact ih st1 n3 (fun _ => hzstd) (fun cj hcj => hl cj (mem_cons_of_mem _ hcj)) (value_of_makes _ hmakes hclass)
      ((hg.trans hg1).trans hg2) ((hs.grows hg1).grows hg2)
      fun cj hcj => hall cj (mem_cons_of_mem _ hcj)

end Loop

structure SealResult (L : Crates Hash) (n n' : Node Hash) (top : Path) (chain shared : List (Manifest Hash))
    (mergeWith : Option (Manifest Hash)) (R cs : ℕ) (f : SparseFile) (touched : List ℕ)
    (m : Manifest Hash) : Prop where
  file : n.files top = some f
  pos : 0 < cs
  merge : (mergeWith = none ∧ shared = chain) ∨
    ∃ s last, mergeWith = some s ∧ chain = shared ++ [last] ∧ L.layerId last = L.layerId s ∧
      s.chunkSize = cs ∧ s.logicalSize = R
  sorted : touched.Pairwise (· < ·)
  inside : ∀ ci ∈ touched, ci * cs < R
  touched_iff : ∀ ci, ci ∈ touched ↔ ∃ p < R, f.isData p = true ∧ p / cs = ci
  composable : ∀ ci ∈ touched, Composable f n.chunks chain (ci * cs) (chunkLenAt (ci * cs) R cs)
  whole : ∀ ci ∈ touched,
    Whole (overlay f (chainView n.chunks chain cs)) (ci * cs) (chunkLenAt (ci * cs) R cs)
  manifest : m = sealedManifest L shared mergeWith (overlay f (chainView n.chunks chain cs)) R cs touched
  admitted : ∀ e ∈ changedEntries L shared (overlay f (chainView n.chunks chain cs)) R cs touched,
    ∀ h, e.chunk? = some h → (n'.chunks h).isSome
  grows : Grows L n n'

theorem sharedOf_ok {shared : List (Manifest Hash)}
    (h : run (exec L) (sharedOf L chain mergeWith R cs) n = (.ok shared, n')) :
    n' = n ∧ ((mergeWith = none ∧ shared = chain) ∨
      ∃ s last, mergeWith = some s ∧ chain = shared ++ [last] ∧ L.layerId last = L.layerId s ∧
        s.chunkSize = cs ∧ s.logicalSize = R) := by
  unfold sharedOf at h
  cases mergeWith with
  | none =>
    cases h
    exact ⟨rfl, .inl ⟨rfl, rfl⟩⟩
  | some s =>
    cases hlast : chain.getLast? with
    | none => simp [hlast] at h
    | some last =>
      by_cases hid : L.layerId last = L.layerId s
      swap
      · simp [hlast, hid] at h
      by_cases hgeo : s.chunkSize = cs ∧ s.logicalSize = R
      swap
      · simp [hlast, hid, not_and_or.1 hgeo] at h
      simp only [hlast, hid, hgeo, ne_eq, not_true, or_self, if_false] at h
      cases h
      refine ⟨rfl, .inr ⟨s, last, rfl, ?_, hid, hgeo.1, hgeo.2⟩⟩
      obtain ⟨l, rfl⟩ := getLast?_eq_some_iff.1 hlast
      rw [dropLast_concat]

theorem touched_iff_isData {ex : List (ℕ × ℕ)}
    (hex : ExtentsFrom f 0 (min f.length R) ex) (hcs : 0 < cs) (ci : ℕ) :
    ci ∈ touchedChunks ex cs (chunkCount R cs) ↔ ∃ p < R, f.isData p = true ∧ p / cs = ci := by
  constructor
  · intro h
    obtain ⟨p, hp, hd, hci⟩ := exists_isData_of_touched hex hcs h
    exact ⟨p, lt_of_lt_of_le hp (min_le_right _ _), hd, hci⟩
  · rintro ⟨p, hp, hd, rfl⟩
    exact touched_of_isData hex hcs (min_le_right _ _)
      (lt_min (SparseFile.lt_length_of_isData hd) hp) hd

theorem sealStage_ok {m : Manifest Hash} {stats : SealStats} (hr : Readable n.chunks chain)
    (hrun : run (exec L) (sealStage L top chain mergeWith held R cs) n = (.ok (m, stats), n')) :
    ∃ shared f touched, SealResult L n n' top chain shared mergeWith R cs f touched m := by
  have hgrows := grows_run (makes_sealStage top chain mergeWith held R cs) hrun
  obtain ⟨shared, n1, hshared, hrun1⟩ := run_bind_ok _ hrun
  obtain ⟨rfl, hmerge⟩ := sharedOf_ok hshared
  obtain ⟨len, n2, hlen, hrun2⟩ := run_bind_ok _ hrun1
  cases hf : n1.files top with
  | none => simp [exec, onFile, hf] at hlen
  | some f =>
  simp only [run_ask, exec, onFile, hf, Prod.mk.injEq, Except.ok.injEq] at hlen
  obtain ⟨rfl, rfl⟩ := hlen
  by_cases hcs : cs = 0
  · simp [hcs] at hrun2
  rw [if_neg hcs] at hrun2
  have hpos : 0 < cs := Nat.pos_of_ne_zero hcs
  obtain ⟨ex, n3, hext, hrun3⟩ := run_bind_ok _ hrun2
  obtain ⟨ex', hext', hex⟩ := dataExtents_run L hf (min f.length R)
  rw [hext'] at hext
  cases hext
  obtain ⟨st, n4, hloop, hrun4⟩ := run_bind_ok _ hrun3
  obtain ⟨st', n5, hflush, hrun5⟩ := run_bind_ok _ hrun4
  obtain ⟨_, n6, hgo, hend⟩ := run_bind_ok _ hrun5
  cases hend
  have hinside : ∀ ci ∈ touchedChunks ex cs (chunkCount R cs), ci * cs < R :=
    fun ci hci => touched_lt hex hpos (min_le_right _ _) hci
  obtain ⟨hcomp, hentries, -, hnew⟩ := sealChunks_ok hf hex hpos hr _ _ _ _ _ hinside
    (fun x hx => absurd hx not_mem_nil) (Grows.refl L _) hloop
  have hg := grows_run (makes_goOn held) hgo
  refine ⟨shared, f, touchedChunks ex cs (chunkCount R cs), hf, hpos, hmerge,
    touchedChunks_sorted .., hinside, touched_iff_isData hex hpos, hcomp, fun ci hci => ?_, ?_,
    fun e he h hh => hg.isSome ((flush_ok hflush).2 h (hnew e he h hh)), hgrows⟩
  · exact ((compose_at hf hex hpos hr (hinside ci hci) (Grows.refl L _)).1 (hcomp ci hci)).2
  · rw [sealedManifest, hentries, nil_append]

/-- A seal of a top that is there comes to its commit: the caller stays, compression works,
what is merged is the last layer in the disk's geometry, and every touched chunk composes. -/
theorem sealStage_ends (hf : n.files top = some f)
    (hpos : 0 < cs) (hr : Readable n.chunks chain) (hs : Stays held n)
    (hmerge : ∀ s ∈ mergeWith, ∃ last, chain.getLast? = some last ∧ L.layerId last = L.layerId s ∧
      s.chunkSize = cs ∧ s.logicalSize = R)
    (hz : (∃ p < R, f.isData p = true) → ∀ b, (L.zstd b).isSome)
    (hcomp : ∀ p < R, f.isData p = true →
      Composable f n.chunks chain (p / cs * cs) (chunkLenAt (p / cs * cs) R cs)) :
    Ends (exec L) (sealStage L top chain mergeWith held R cs) n := by
  have hshared : ∃ shared, run (exec L) (sharedOf L chain mergeWith R cs) n = (.ok shared, n) := by
    cases mergeWith with
    | none => exact ⟨chain, rfl⟩
    | some s =>
      obtain ⟨last, hlast, hid, hcs, hR⟩ := hmerge s rfl
      exact ⟨chain.dropLast, by simp [sharedOf, hlast, hid, hcs, hR]⟩
  obtain ⟨shared, hshared⟩ := hshared
  refine ends_bind _ ⟨shared, n, hshared⟩ fun shared' n1 h1 => ?_
  rw [hshared] at h1
  cases h1
  refine ends_bind _ ⟨f.length, n, by simp [exec, onFile, hf]⟩ fun len n1 h1 => ?_
  simp only [run_ask, exec, onFile, hf, Prod.mk.injEq, Except.ok.injEq] at h1
  obtain ⟨rfl, rfl⟩ := h1
  rw [if_neg hpos.ne']
  obtain ⟨ex, hext, hex⟩ := dataExtents_run L hf (min f.length R)
  refine ends_bind _ ⟨ex, n, hext⟩ fun ex' n1 h1 => ?_
  rw [hext] at h1
  cases h1
  have htouched := touched_iff_isData hex hpos
  have hinside : ∀ ci ∈ touchedChunks ex cs (chunkCount R cs), ci * cs < R :=
    fun ci hci => touched_lt hex hpos (min_le_right _ _) hci
  have hvalid : PendingValid L
      { stats := { chunksTouched := (touchedChunks ex cs (chunkCount R cs)).length } } :=
    fun x hx => absurd hx not_mem_nil
  refine ends_bind _ (sealChunks_ends hf hex hpos hr _ _ _ (fun hne => ?_) hinside hvalid
    (Grows.refl L n) hs fun ci hci => ?_) fun st n1 h1 => ?_
  · obtain ⟨ci, hci⟩ := exists_mem_of_ne_nil _ hne
    obtain ⟨p, hp, hd, -⟩ := (htouched ci).1 hci
    exact hz ⟨p, hp, hd⟩
  · obtain ⟨p, hp, hd, rfl⟩ := (htouched ci).1 hci
    exact hcomp p hp hd
  · have hmakes := makes_sealChunks (L := L) top chain shared ex held R cs
      (touchedChunks ex cs (chunkCount R cs)) _ hvalid
    have hs1 := hs.grows (grows_run hmakes h1)
    refine ends_bind _ (flush_ends hs1) fun st' n2 h2 => ?_
    have hs2 := hs1.grows (grows_run (makes_flush held (value_of_makes _ hmakes h1)) h2)
    exact ends_bind _ (goOn_ends hs2) fun _ n3 _ => ⟨_, n3, rfl⟩

theorem sealTopInner_ends (h : Ends (exec L) (sealStage L top chain mergeWith held R cs) n) :
    Ends (exec L) (sealTopInner L top chain mergeWith held R cs) n :=
  ends_bind _ h fun _ _ _ => ends_bind _ ⟨(), _, rfl⟩ fun _ n2 _ => ⟨_, n2, rfl⟩

theorem sealTopInner_ok {out : SealOutcome Hash}
    (hrun : run (exec L) (sealTopInner L top chain mergeWith held R cs) n = (.ok out, n')) :
    ∃ n1, run (exec L) (sealStage L top chain mergeWith held R cs) n =
        (.ok (out.manifest, out.stats), n1) ∧
      n' = (exec L (.commitManifest out.manifest) n1).2 ∧
      out.layerId = L.layerId out.manifest := by
  obtain ⟨⟨m, stats⟩, n1, hstage, hrest⟩ := run_bind_ok _ hrun
  obtain ⟨_, n2, hcommit, hend⟩ := run_bind_ok _ hrest
  cases hcommit
  cases hend
  exact ⟨n1, hstage, rfl, rfl⟩

end FeOS
