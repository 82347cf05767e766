import FeOS.Proofs.DeploymentLine

/-! The applies of an environment take turns, and deployments stay as they were made. -/

namespace FeOS.Env

open RowLocks Runs Function List

variable {C Q : Type} {checks : Checks C Q} {w w' : World C Q} {e : Event C Q}

theorem grows_step (hstep : w.step checks e = some w') : Grows w w' := by
  cases step_moved hstep with
  | @create id env hnew hzero =>
    refine ⟨fun id' e he => ?_, fun _ _ _ _ _ => rfl⟩
    have hne : id' ≠ id := by
      rintro rfl
      cases hnew.symm.trans he
    exact ⟨e, (update_of_ne hne _ _).trans he, rfl, le_rfl⟩
  | @insert a x p env hx hs henv hbase =>
    have hg : Grows w (w.insert x.call.env env x.call.base p) := grows_insert henv
    exact ⟨hg.envs, hg.specs⟩
  | setState hd => exact grows_setState hd
  | @markDeleting id env hfree henv =>
    refine ⟨fun id' e he => ?_, fun _ _ _ _ _ => rfl⟩
    by_cases hid : id' = id
    · subst hid
      cases henv.symm.trans he
      exact ⟨_, update_self _ _ _, rfl, le_rfl⟩
    · exact ⟨e, (update_of_ne hid _ _).trans he, rfl, le_rfl⟩
  | _ => exact .of_eq rfl rfl

theorem Grows.trans {w₁ w₂ : World C Q} (h : Grows w w₁) (h' : Grows w₁ w₂) : Grows w w₂ where
  envs env row hrow := by
    obtain ⟨row₁, hrow₁, howner, hle⟩ := h.envs env row hrow
    obtain ⟨row₂, hrow₂, howner', hle'⟩ := h'.envs env row₁ hrow₁
    exact ⟨row₂, hrow₂, howner'.trans howner, hle.trans hle'⟩
  specs env row n hrow hn := by
    obtain ⟨row₁, hrow₁, -, hle⟩ := h.envs env row hrow
    exact (h'.specs env row₁ n hrow₁ (hn.trans hle)).trans (h.specs env row n hrow hn)

theorem grows_reach (h : Reach (World.step checks) (fun _ _ => True) w w') : Grows w w' :=
  h.invariant (I := Grows w) (.of_eq rfl rfl) fun _ _ _ hg _ hstep => hg.trans (grows_step hstep)

/-- One apply at a time is past the environment's lock, at the deployment that it planned for; what was deployed stays. -/
theorem applies_take_turns :
    (∀ w, Reach (World.step checks) (fun _ _ => True) World.start w →
      ∀ a x p, w.applies a = some x → x.stage = .locked p ∨ x.stage = .checked p →
        (∃ env, w.envs x.call.env = some env ∧ env.deployment = p.current ∧ env.deleting = false) ∧
        ∀ b y q, w.applies b = some y → y.stage = .locked q ∨ y.stage = .checked q → y.call.env = x.call.env → b = a) ∧
    ∀ w w', Reach (World.step checks) (fun _ _ => True) w w' → ∀ env row, w.envs env = some row →
      (∃ row', w'.envs env = some row' ∧ row'.owner = row.owner ∧ row.deployment ≤ row'.deployment) ∧
      ∀ n ≤ row.deployment, (w'.deployments env n).map Deployment.spec = (w.deployments env n).map Deployment.spec := by
  refine ⟨fun w h => ?_, fun w w' h env row hrow => ?_⟩
  · have hinv := inv_of_reach h
    have hholds : ∀ a x p, w.applies a = some x → x.stage = .locked p ∨ x.stage = .checked p → Holds w a x.call p := by
      rintro a x p hx (hs | hs)
      · exact (hs ▸ hinv.stages a x hx).2
      · exact (hs ▸ hinv.stages a x hx).2.1
    intro a x p hx hs
    refine ⟨(hholds a x p hx hs).2, fun b y q hy hs' henv => ?_⟩
    exact hinv.sole (hholds a x p hx hs).1 (henv ▸ (hholds b y q hy hs').1)
  · exact ⟨(grows_reach h).envs env row hrow, fun n hn => (grows_reach h).specs env row n hrow hn⟩

def Stage.isLocked : Stage C Q → Bool
  | .locked _ => true
  | _ => false

/-- The second apply of an environment, past the lock and then deployed. -/
theorem applies_take_turns_second :
    ∃ w w' x p, Reach (World.step sampleChecks) (fun _ _ => True) World.start w ∧ w.applies 1 = some x ∧
      x.stage = .locked p ∧
      (∃ env, w.envs x.call.env = some env ∧ env.deployment = p.current ∧ env.deleting = false) ∧
      Reach (World.step sampleChecks) (fun _ _ => True) w w' ∧ w'.deployments "env" 2 ≠ none ∧
      (w'.deployments "env" 1).map Deployment.spec = (w.deployments "env" 1).map Deployment.spec := by
  obtain ⟨w, hreach, ⟨x, hx, hlocked⟩, ⟨row, hrow, hle⟩, hlater⟩ :
      ∃ w, Reach (World.step sampleChecks) (fun _ _ => True) World.start w ∧
        (∃ x ∈ w.applies 1, x.stage.isLocked = true) ∧ (∃ row ∈ w.envs "env", 1 ≤ row.deployment) ∧
        ((follow (World.step sampleChecks) (fun _ _ => True) w [.check 1 (), .commit 1]).any
          fun w' => w'.deployments "env" 2 ≠ none) = true :=
    exists_follow (.create "env" ⟨"tenant", "web", 0, false⟩ :: .putSecret "env" "db" ::
      planEvents 0 (sampleCall "env" sampleSpec) [] ++ txnEvents 0 ++
      planEvents 1 { sampleCall "env" { sampleSpec with rest := "more" } with base := 1 } [] ++ [.lock 1])
      (by decide +kernel)
  obtain ⟨w', hreach', hw'⟩ := exists_follow _ hlater
  obtain ⟨p, hp⟩ : ∃ p, x.stage = .locked p := by
    cases hs : x.stage <;> rw [hs] at hlocked <;> first | exact ⟨_, rfl⟩ | cases hlocked
  exact ⟨w, w', x, p, hreach, hx, hp, (applies_take_turns.1 w hreach 1 x p hx (.inl hp)).1, hreach', hw',
    (applies_take_turns.2 w w' hreach' "env" row hrow).2 1 hle⟩

end FeOS.Env
