import FeOS.Sanity.SweepTaken

/-! A sweep's report names what is gone from the bucket, and nothing else is; a dry run changes nothing. -/

namespace FeOS

open List

variable {env : SweepEnv} {now : ℤ} {req : SweepRequest} {t t₁ t₂ : Tier} {keys keys' ids : List String}

/-- The deletes of the keys all succeeded, and took nothing else. -/
structure Deleted (env : SweepEnv) (dry : Bool) (keys : List String) (t t₁ : Tier) : Prop where
  bucket : t₁.bucket = t.bucket.keep (staysAfter env dry keys)
  all : dry = true ∨ ∀ key ∈ keys, env.fails (.delete key) = none

theorem deleted_of_deleteAll {dry : Bool} (h : t.deleteAll env dry keys = (.ok (), t₁)) : Deleted env dry keys t t₁ := by
  obtain ⟨r, t', h', hb, -, hok⟩ := deleteAll_spec t env dry keys
  cases h.symm.trans h'
  exact ⟨hb, hok.1 rfl⟩

/-- What is kept beside the bucket is marked after the deletes. -/
theorem Deleted.marked {dry : Bool} (h : Deleted env dry keys t t₁) (hb : t₂.bucket = t₁.bucket) :
    Deleted env dry keys t (if dry then t₁ else t₂) := by
  split_ifs with hdry
  · exact h
  · exact ⟨hb.trans h.bucket, h.all⟩

theorem Deleted.trans {dry : Bool} (h : Deleted env dry keys t t₁) (h' : Deleted env dry keys' t₁ t₂) :
    Deleted env dry (keys ++ keys') t t₂ where
  bucket := by rw [h'.bucket, h.bucket, keep_keep]
  all := by
    rcases h.all with hdry | hall
    · exact .inl hdry
    · exact h'.all.imp id fun hall' => forall_mem_append.2 ⟨hall, hall'⟩

theorem sweepSnapshots_deleted {x : ℕ × SweepPlan × List String} (h : sweepSnapshots env now req t = (.ok x, t₁)) :
    Deleted env req.dryRun x.2.1.deadSnapshotKeys t t₁ := by
  revert h
  fun_cases sweepSnapshots env now req t <;> rintro ⟨⟩
  exact deleted_of_deleteAll ‹_›

theorem sweepLayers_deleted {x : List RemoteObject × List String × ℕ} (h : sweepLayers env now req ids t = (.ok x, t₁)) :
    Deleted env req.dryRun x.2.1 t t₁ := by
  revert h
  fun_cases sweepLayers env now req ids t <;> rintro ⟨⟩
  exact (deleted_of_deleteAll ‹_›).marked rfl

theorem sweepChunks_deleted {x : ℕ × List String × ℕ} (h : sweepChunks env now req ids t = (.ok x, t₁)) :
    Deleted env req.dryRun x.2.1 t t₁ := by
  revert h
  fun_cases sweepChunks env now req ids t <;> rintro ⟨⟩
  exact (deleted_of_deleteAll ‹_›).marked rfl

theorem sweep_deleted {rep : SweepReport} (h : sweep env now req t = (.ok rep, t₁)) :
    Deleted env req.dryRun rep.deletedKeys t t₁ := by
  revert h
  fun_cases sweep env now req t <;> rintro ⟨⟩
  case case2 h₁ => exact sweepSnapshots_deleted h₁
  case case4 h₁ _ _ _ _ _ _ _ h₂ => exact (sweepSnapshots_deleted h₁).trans (sweepLayers_deleted h₂)
  case case6 h₁ _ _ _ _ _ _ h₂ _ _ _ _ _ h₃ =>
    exact ((sweepSnapshots_deleted h₁).trans (sweepLayers_deleted h₂)).trans (sweepChunks_deleted h₃)

section DryRun
variable (hdry : req.dryRun = true)
include hdry

theorem deleteAll_dry {r : Except String Unit} (h : t.deleteAll env req.dryRun keys = (r, t₁)) : t₁ = t := by
  rw [hdry] at h
  cases h
  rfl

theorem sweepSnapshots_dry {r : Except String (ℕ × SweepPlan × List String)} (h : sweepSnapshots env now req t = (r, t₁)) :
    t₁ = t := by
  revert h
  fun_cases sweepSnapshots env now req t <;> rintro ⟨⟩
  case case1 | case2 => rfl
  all_goals exact deleteAll_dry hdry ‹_›

theorem sweepLayers_dry {r : Except String (List RemoteObject × List String × ℕ)}
    (h : sweepLayers env now req ids t = (r, t₁)) : t₁ = t := by
  revert h
  fun_cases sweepLayers env now req ids t <;> rintro ⟨⟩
  case case1 => rfl
  case case2 hdel => exact deleteAll_dry hdry hdel
  case case3 hdel => exact (if_pos hdry).trans (deleteAll_dry hdry hdel)

theorem sweepChunks_dry {r : Except String (ℕ × List String × ℕ)}
    (h : sweepChunks env now req ids t = (r, t₁)) : t₁ = t := by
  revert h
  fun_cases sweepChunks env now req ids t <;> rintro ⟨⟩
  case case1 | case2 => rfl
  case case3 hdel => exact deleteAll_dry hdry hdel
  case case4 hdel => exact (if_pos hdry).trans (deleteAll_dry hdry hdel)

theorem sweep_dry : (sweep env now req t).2 = t := by
  fun_cases sweep env now req t
  -- the tier after each pass that was made is the one before it
  all_goals obtain rfl := sweepSnapshots_dry hdry ‹_›
  case case1 | case2 => rfl
  all_goals obtain rfl := sweepLayers_dry hdry ‹_›
  case case3 | case4 => rfl
  all_goals exact sweepChunks_dry hdry ‹_›

end DryRun

/-- A sweep that ends well took the objects that its report names and no other; a dry run changes
nothing, however it ends. -/
theorem sweep_report_exact (env : SweepEnv) (now : ℤ) (req : SweepRequest) (t : Tier) :
    (∀ rep, (sweep env now req t).1 = .ok rep → ∀ o, o ∈ (sweep env now req t).2.bucket.objects ↔
      o ∈ t.bucket.objects ∧ (req.dryRun = true ∨ o.key ∉ rep.deletedKeys)) ∧
    (req.dryRun = true → (sweep env now req t).2 = t) := by
  have hdel : ∀ rep, (sweep env now req t).1 = .ok rep → Deleted env req.dryRun rep.deletedKeys t (sweep env now req t).2 :=
    fun rep h => sweep_deleted (Prod.ext h rfl)
  refine ⟨fun rep h o => ?_, sweep_dry⟩
  rw [(hdel rep h).bucket, Bucket.mem_keep, ← Bool.not_eq_false, staysAfter_eq_false]
  refine and_congr_right fun _ => ?_
  rcases (hdel rep h).all with hdry | hall
  · simp [hdry]
  · have hkey := hall o.key
    cases hdry : req.dryRun
    · simp only [Bool.false_eq_true, true_and, false_or]
      exact not_congr ⟨And.left, fun hmem => ⟨hmem, hkey hmem⟩⟩
    · simp

end FeOS
