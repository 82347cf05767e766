import FeOS.Sanity.LayerTable
import FeOS.Sanity.LayerIds

/-! What the seal of a disk answers, and what it leaves when it comes to its end. -/

namespace FeOS

open Calls Calls.Prog Node

section Loading
variable {Hash : Type} {layers : Hash → Option (Manifest Hash)}

theorem Loads.eq : ∀ {want : Option Hash} {ids : List Hash} {ms ms' : List (Manifest Hash)},
    Loads layers want ids ms → Loads layers want ids ms' → ms = ms'
  | _, [], ms, ms', h, h' => by rw [show ms = [] from h, show ms' = [] from h']
  | _, _ :: _, _, _, ⟨m, t, hms, hl, _, hrest⟩, ⟨m', t', hms', hl', _, hrest'⟩ => by
    rw [hl] at hl'
    rw [hms, hms', Option.some.inj hl', hrest.eq hrest']

theorem Loads.snoc {ids : List Hash} {ms : List (Manifest Hash)} (h : Loads layers none ids ms) {id : Hash}
    {m : Manifest Hash} (hl : layers id = some m) (hparent : m.parent = ids.getLast?) :
    Loads layers none (ids ++ [id]) (ms ++ [m]) := by
  cases ids with
  | nil =>
    rw [show ms = [] from h]
    exact ⟨m, [], rfl, hl, nofun, rfl⟩
  | cons a ids => exact h.concat hl (List.cons_ne_nil a ids) hparent

end Loading

variable {Hash : Type} [DecidableEq Hash] {L : Crates Hash} {n n₁ n₂ : Node Hash} {pod : String}
  {row : DeviceRow Hash} {chain : List (Manifest Hash)} {depth : ℕ} {m : Manifest Hash} {stats : SealStats}

theorem sealCommitted_run (stats : SealStats) (hrow : n.rows pod = some row) (htop : (n.files (.top pod)).isSome)
    (h₀ : SealReached L n pod row depth m n1 .committed n2) :
    ∃ n' pt, run (exec L) (sealCommitted pod row depth ⟨L.layerId m, m, stats⟩) n2 =
        (.ok ⟨L.layerId m, m, stats⟩, n') ∧ (pt = .dropped ∨ pt = .cleaned) ∧
      SealReached L n pod row depth m n1 pt n' := by
  have hrows : n2.rows = n.rows := h₀.rows
  have hfiles : n2.files = n.files := h₀.files
  obtain ⟨f, hf⟩ := Option.isSome_iff_exists.1 htop
  obtain ⟨n', hrun, hgone⟩ : ∃ n', run (exec L) (sealCommitted pod row depth ⟨L.layerId m, m, stats⟩) n2 =
      (.ok ⟨L.layerId m, m, stats⟩, n') ∧ n'.files (.top pod) = none := by
    have hrow2 : n2.rows pod = some row := by rw [hrows, hrow]
    have hf2 : n2.files (.top pod) = some f := by rw [hfiles, hf]
    simp only [sealCommitted, run_bind, run_ask, exec, hrow2, hf2]
    cases (if depth < row.chain.length then row.chain.getLast? else none) with
    | none => exact ⟨_, rfl, Function.update_self ..⟩
    | some old =>
      dsimp only
      split_ifs
      · exact ⟨_, rfl, Function.update_self ..⟩
      · exact ⟨_, rfl, Function.update_self ..⟩
  have hcut := cut_run (exec L) (sealCommitted pod row depth ⟨L.layerId m, m, stats⟩) n2
  rw [hrun] at hcut
  obtain ⟨pt, hpt⟩ := sealCommitted_cut hrow htop h₀ hcut
  refine ⟨n', pt, hrun, ?_, hpt⟩
  have hfiles' := congrFun hpt.files (.top pod)
  rw [hgone] at hfiles'
  cases pt with
  | committed => cases hfiles'.trans hf
  | pointed => cases hfiles'.trans hf
  | dropped => exact Or.inl rfl
  | cleaned => exact Or.inr rfl

/-! The calls before the seal -/

theorem loadRow_run (hrow : n.rows pod = some row) : run (exec L) (sys (.loadRow pod)) n = (.ok (some row), n) := by
  simp [exec, hrow]

theorem markUnheaded_run : run (exec L) (sys (.markUnheaded pod)) n = (.ok (), n.marked pod) := rfl

theorem loadChain_run (hloads : Loads n.layers none row.chain chain) :
    run (exec L) (loadChain row.chain) (n.marked pod) = (.ok chain, n.marked pod) := loadChainFrom_run hloads

theorem isFile_run : run (exec L) (sys (.isFile (.top pod))) (n.marked pod) =
    (.ok (n.files (.top pod)).isSome, n.marked pod) := rfl

theorem sealDisk_staged (hrow : n.rows pod = some row) (hloads : Loads n.layers none row.chain chain)
    (hdepth : depth = min row.sharedDepth chain.length) (hshape : chain.length ≤ depth + 1)
    (htop : (n.files (.top pod)).isSome) :
    run (exec L) (sealDisk L pod) n =
      match run (exec L) (sealStage L (.top pod) chain (mergedOf chain depth) true row.logicalSize row.chunkSize)
          (n.marked pod) with
      | (.ok (m, stats), n1) =>
        run (exec L) (sealCommitted pod row depth ⟨L.layerId m, m, stats⟩) (exec L (.commitManifest m) n1).2
      | (.error e, n1) => (.error e, n1) := by
  have hfits : ¬ depth + 1 < chain.length := by omega
  rw [sealDisk, run_bind_of_ok _ _ (loadRow_run hrow)]
  rw [run_bind_of_ok _ _ markUnheaded_run, run_bind_of_ok _ _ (loadChain_run hloads), ← hdepth, if_neg hfits,
    run_bind_of_ok _ _ isFile_run, if_pos htop, run_bind, sealTopHeld, sealTopInner, run_bind]
  show _ = match run (exec L) (sealStage L (.top pod) chain (mergedOf chain depth) true row.logicalSize row.chunkSize)
          (n.marked pod) with
      | (.ok (m, stats), n1) => _
      | (.error e, n1) => _
  unfold mergedOf
  rcases run (exec L) (sealStage L (.top pod) chain (if depth < chain.length then chain.getLast? else none) true
    row.logicalSize row.chunkSize) (n.marked pod) with ⟨_ | ⟨m, stats⟩, n1⟩
  · rfl
  · rfl

theorem sealDisk_sealed (hrow : n.rows pod = some row) (hloads : Loads n.layers none row.chain chain)
    (hshape : chain.length ≤ row.sharedDepth + 1) (htop : n.files (.top pod) = none) {newest : Hash}
    (hnewest : row.chain.getLast? = some newest) (hl : n.layers newest = some m) :
    run (exec L) (sealDisk L pod) n = (.ok ⟨L.layerId m, m, {}⟩, n.marked pod) := by
  have h5 : run (exec L) (sys (.loadLayer newest)) (n.marked pod) = (.ok m, n.marked pod) := by
    simp [exec, marked, hl]
  have hfits : ¬ min row.sharedDepth chain.length + 1 < chain.length := by omega
  rw [sealDisk, run_bind_of_ok _ _ (loadRow_run hrow)]
  rw [run_bind_of_ok _ _ markUnheaded_run, run_bind_of_ok _ _ (loadChain_run hloads), if_neg hfits,
    run_bind_of_ok _ _ isFile_run, if_neg (by simp [htop]), hnewest]
  rw [run_bind_of_ok _ _ h5]
  rfl

theorem sealDisk_shape {out : SealOutcome Hash} (hrow : n.rows pod = some row)
    (hloads : Loads n.layers none row.chain chain) (hrun : run (exec L) (sealDisk L pod) n = (.ok out, n1)) :
    chain.length ≤ row.sharedDepth + 1 ∧ (n.files (.top pod) = none → chain ≠ []) := by
  rw [sealDisk, run_bind_of_ok _ _ (loadRow_run hrow)] at hrun
  rw [run_bind_of_ok _ _ markUnheaded_run, run_bind_of_ok _ _ (loadChain_run hloads)] at hrun
  by_cases hfits : min row.sharedDepth chain.length + 1 < chain.length
  · simp [if_pos hfits] at hrun
  refine ⟨by omega, fun htop hnil => ?_⟩
  have hempty : row.chain = [] := List.eq_nil_of_length_eq_zero (by rw [← hloads.length, hnil]; rfl)
  rw [if_neg hfits, run_bind_of_ok _ _ isFile_run, if_neg (by simp [htop]), hempty] at hrun
  cases hrun

theorem SealResult.decoded {n' : Node Hash} {top : Path} {shared : List (Manifest Hash)}
    {mergeWith : Option (Manifest Hash)} {R cs : ℕ} {f : SparseFile} {touched : List ℕ} (hL : L.Ideal)
    (hres : SealResult L n n' top chain shared mergeWith R cs f touched m) (hR : R < 256 ^ 8) (hcs : cs < 256 ^ 4)
    (hmerge : ∀ s ∈ mergeWith, s.Decoded L) : m.Decoded L := by
  have hsorted : ∀ s ∈ mergeWith, Keyed.Sorted Entry.offset s.entries := fun s hs => (hmerge s hs).sorted
  rw [hres.manifest]
  refine ⟨hR, hcs, fun e he => ?_, sealedManifest_sorted hres.pos hres.sorted hsorted, ?_⟩
  · rcases mem_sealedManifest he with he | ⟨s, hs, he⟩
    · rw [changedEntries_eq] at he
      obtain ⟨off, hoff, he⟩ := List.mem_filterMap.1 he
      obtain ⟨ci, hci, rfl⟩ := List.mem_map.1 hoff
      obtain ⟨hoff, hraw⟩ := canonicalEntry_offset he
      have hinside := hres.inside ci hci
      refine ⟨by omega, ?_, ?_⟩
      · rw [hraw, length_viewChunk, chunkLenAt]
        omega
      · rw [entryOf, canonicalEntry] at he
        split_ifs at he <;> cases he
        · exact Nat.pow_pos (by decide)
        · exact Nat.mod_lt _ (by decide)
    · exact (hmerge s hs).entries e he
  · intro hzero
    obtain ⟨x, -, hx⟩ := Option.map_eq_some_iff.1 hzero
    exact hL.blake3_ne_zero _ hx

end FeOS
