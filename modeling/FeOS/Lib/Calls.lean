import Mathlib.Tactic

/-! Programs as trees of calls to a machine. A program ends with a value, ends with an
error, or makes one call and goes on with its answer. The machine answers a call and moves
from one world to the next, so a program can be run to its end, cut off after any number of
calls, or stepped between the steps of others. The results of steps that can fail come first. -/

namespace Results

variable {ε α β : Type} {r : Except ε α} {b : β}

theorem map_eq_ok {f : α → β} : r.map f = .ok b ↔ ∃ a, r = .ok a ∧ f a = b := by
  cases r <;> simp [Except.map]

theorem bind_eq_ok {f : α → Except ε β} : r.bind f = .ok b ↔ ∃ a, r = .ok a ∧ f a = .ok b := by
  cases r <;> simp [Except.bind]

end Results

namespace Calls

inductive Prog (Op : Type) (Ans : Op → Type) (E : Type) (α : Type) where
  | ret (a : α)
  | fail (e : E)
  | call (o : Op) (k : Ans o → Prog Op Ans E α)

/-- How a world answers a call, and the world after it. -/
abbrev Machine (Op : Type) (Ans : Op → Type) (E W : Type) := (o : Op) → W → Except E (Ans o) × W

namespace Prog

variable {Op : Type} {Ans : Op → Type} {E W α β : Type}

def bind : Prog Op Ans E α → (α → Prog Op Ans E β) → Prog Op Ans E β
  | ret a, f => f a
  | fail e, _ => fail e
  | call o k, f => call o fun a => (k a).bind f

instance : Monad (Prog Op Ans E) where
  pure := ret
  bind := bind

/-- One call, and its answer as the program's value. -/
def ask (o : Op) : Prog Op Ans E (Ans o) := call o ret

@[simp] theorem pure_eq (a : α) : (pure a : Prog Op Ans E α) = ret a := rfl

@[simp] theorem ret_bind (a : α) (f : α → Prog Op Ans E β) : ret a >>= f = f a := rfl

@[simp] theorem call_bind (o : Op) (k : Ans o → Prog Op Ans E α) (f : α → Prog Op Ans E β) :
    call o k >>= f = call o fun a => k a >>= f := rfl

theorem bind_assoc {γ : Type} (p : Prog Op Ans E α) (f : α → Prog Op Ans E β) (g : β → Prog Op Ans E γ) :
    p >>= f >>= g = p >>= fun a => f a >>= g := by
  induction p with
  | ret a => rfl
  | fail e => rfl
  | call o k ih => exact congrArg (call o) (funext ih)

/-- The whole run of a program, and the world it leaves. -/
def run (x : Machine Op Ans E W) : Prog Op Ans E α → W → Except E α × W
  | ret a, w => (.ok a, w)
  | fail e, w => (.error e, w)
  | call o k, w =>
    match x o w with
    | (.ok a, w') => run x (k a) w'
    | (.error e, w') => (.error e, w')

variable (x : Machine Op Ans E W)

@[simp] theorem run_ret (a : α) (w : W) : run x (ret a) w = (.ok a, w) := rfl

@[simp] theorem run_fail (e : E) (w : W) : run x (fail e : Prog Op Ans E α) w = (.error e, w) := rfl

theorem run_call (o : Op) (k : Ans o → Prog Op Ans E α) (w : W) :
    run x (call o k) w =
      match x o w with
      | (.ok a, w') => run x (k a) w'
      | (.error e, w') => (.error e, w') := by
  rw [run]

@[simp] theorem run_ask (o : Op) (w : W) : run x (ask o) w = x o w := by
  rw [ask, run_call]
  rcases x o w with ⟨_ | _, _⟩ <;> rfl

theorem run_bind (p : Prog Op Ans E α) (f : α → Prog Op Ans E β) (w : W) :
    run x (p >>= f) w =
      match run x p w with
      | (.ok a, w') => run x (f a) w'
      | (.error e, w') => (.error e, w') := by
  induction p generalizing w with
  | ret a => rfl
  | fail e => rfl
  | call o k ih =>
    rw [call_bind, run_call, run_call]
    rcases x o w with ⟨_ | a, w'⟩
    · rfl
    · exact ih a w'

variable {p : Prog Op Ans E α} {f : α → Prog Op Ans E β} {w w' : W}

/-- A composite that ends well ran its first part to an end and its second from there. -/
theorem run_bind_ok {b : β} (h : run x (p >>= f) w = (.ok b, w')) :
    ∃ a w₁, run x p w = (.ok a, w₁) ∧ run x (f a) w₁ = (.ok b, w') := by
  rw [run_bind] at h
  rcases hp : run x p w with ⟨_ | a, w₁⟩
  · simp [hp] at h
  · exact ⟨a, w₁, rfl, by simpa [hp] using h⟩

theorem run_bind_of_ok (f : α → Prog Op Ans E β) {w₁ : W} {a : α}
    (h : run x p w = (.ok a, w₁)) : run x (p >>= f) w = run x (f a) w₁ := by
  rw [run_bind, h]

/-- A run among others: before the `k`th call, and before the end, the world moves by `env k`. -/
def runAmong (env : ℕ → W → W) : ℕ → Prog Op Ans E α → W → Except E α × W
  | k, ret a, w => (.ok a, env k w)
  | k, fail e, w => (.error e, env k w)
  | k, call o p, w =>
    match x o (env k w) with
    | (.ok a, w') => runAmong env (k + 1) (p a) w'
    | (.error e, w') => (.error e, w')

/-- The program ends well. -/
def Ends (p : Prog Op Ans E α) (w : W) : Prop := ∃ a w', run x p w = (.ok a, w')

theorem ends_bind (hp : Ends x p w)
    (hf : ∀ a w₁, run x p w = (.ok a, w₁) → Ends x (f a) w₁) : Ends x (p >>= f) w := by
  obtain ⟨a, w₁, ha⟩ := hp
  obtain ⟨b, w₂, hb⟩ := hf a w₁ ha
  exact ⟨b, w₂, by rw [run_bind_of_ok x f ha, hb]⟩

/-- The worlds a program can leave behind when it is cut off: before a call, after one, or
at the call that fails. -/
inductive Cut : Prog Op Ans E α → W → W → Prop
  | now (p : Prog Op Ans E α) (w : W) : Cut p w w
  | next {o : Op} {k : Ans o → Prog Op Ans E α} {w w₁ w' : W} {a : Ans o}
      (h : x o w = (.ok a, w₁)) (hc : Cut (k a) w₁ w') : Cut (call o k) w w'
  | failed {o : Op} {k : Ans o → Prog Op Ans E α} {w w₁ : W} {e : E}
      (h : x o w = (.error e, w₁)) : Cut (call o k) w w₁

/-- A run to the end is one of the places a program can be cut off at. -/
theorem cut_run (p : Prog Op Ans E α) (w : W) : Cut x p w (run x p w).2 := by
  induction p generalizing w with
  | ret a => exact .now _ _
  | fail e => exact .now _ _
  | call o k ih =>
    rcases h : x o w with ⟨e | a, w₁⟩
    · rw [run_call, h]
      exact .failed h
    · rw [run_call, h]
      exact .next h (ih a w₁)

/-- A composite is cut off in its first part, or after it. -/
theorem cut_bind (h : Cut x (p >>= f) w w') :
    Cut x p w w' ∨ ∃ a w₁, run x p w = (.ok a, w₁) ∧ Cut x (f a) w₁ w' := by
  induction p generalizing w with
  | ret a => exact .inr ⟨a, w, rfl, h⟩
  | fail e =>
    cases h
    exact .inl (.now _ _)
  | call o k ih =>
    cases h with
    | now => exact .inl (.now _ _)
    | @next _ _ _ w₁ _ a hx hc =>
      rcases ih a hc with hl | ⟨b, w₂, hr, hc'⟩
      · exact .inl (.next hx hl)
      · exact .inr ⟨b, w₂, by rw [run_call, hx]; exact hr, hc'⟩
    | failed hx => exact .inl (.failed hx)

theorem cut_ret {a : α} (h : Cut x (ret a : Prog Op Ans E α) w w') : w' = w := by
  cases h
  rfl

theorem cut_fail {e : E} (h : Cut x (fail e : Prog Op Ans E α) w w') : w' = w := by
  cases h
  rfl

/-- A program that starts with a call is cut off before it, at it if it fails, or after it. -/
theorem cut_ask_bind {o : Op} {f : Ans o → Prog Op Ans E β} (h : Cut x (ask o >>= f) w w') :
    w' = w ∨ (∃ e, x o w = (.error e, w')) ∨ ∃ a w₁, x o w = (.ok a, w₁) ∧ Cut x (f a) w₁ w' := by
  cases h with
  | now => exact .inl rfl
  | @next _ _ _ w₁ _ a hx hc => exact .inr (.inr ⟨a, w₁, hx, hc⟩)
  | @failed _ _ _ _ e hx => exact .inr (.inl ⟨e, hx⟩)

theorem cut_ask_ok {o : Op} {f : Ans o → Prog Op Ans E β} {a : Ans o} {w₁ : W} (hx : x o w = (.ok a, w₁))
    (h : Cut x (ask o >>= f) w w') : w' = w ∨ Cut x (f a) w₁ w' := by
  rcases cut_ask_bind x h with heq | ⟨e, he⟩ | ⟨b, w₂, hb, hc⟩
  · exact .inl heq
  · cases hx.symm.trans he
  · cases hx.symm.trans hb
    exact .inr hc

/-- Whatever it is answered, the program makes calls of `S` only and ends with a value of
`Q` if it ends well. -/
def Makes (S : Op → Prop) (Q : α → Prop) : Prog Op Ans E α → Prop
  | ret a => Q a
  | fail _ => True
  | call o k => S o ∧ ∀ a, Makes S Q (k a)

section Makes
variable {S : Op → Prop} {Q : α → Prop}

@[simp] theorem makes_ret (a : α) : Makes S Q (ret a : Prog Op Ans E α) ↔ Q a := Iff.rfl

@[simp] theorem makes_fail (e : E) : Makes S Q (fail e : Prog Op Ans E α) := trivial

theorem makes_ask {o : Op} {Q : Ans o → Prop} (ho : S o) (hQ : ∀ a, Q a) :
    Makes S Q (ask o : Prog Op Ans E (Ans o)) := ⟨ho, hQ⟩

variable {p : Prog Op Ans E α}

theorem makes_bind {R : β → Prop} {f : α → Prog Op Ans E β}
    (hp : Makes S Q p) (hf : ∀ a, Q a → Makes S R (f a)) : Makes S R (p >>= f) := by
  induction p with
  | ret a => exact hf a hp
  | fail e => trivial
  | call o k ih => exact ⟨hp.1, fun a => ih a (hp.2 a)⟩

/-- What the calls of `S` keep, a program that makes no others keeps wherever it is cut off. -/
theorem cut_of_makes {P : W → Prop} (hP : ∀ o, S o → ∀ w, P w → P (x o w).2)
    {w w' : W} (hp : Makes S Q p) (h : Cut x p w w') (hw : P w) : P w' := by
  induction h with
  | now => exact hw
  | @next o k w w₁ w' a hx hc ih =>
    have h₁ := hP o hp.1 w hw
    rw [hx] at h₁
    exact ih (hp.2 a) h₁
  | @failed o k w w₁ e hx =>
    have h₁ := hP o hp.1 w hw
    rwa [hx] at h₁

/-- The value of a run that ends well is one of `Q`. -/
theorem value_of_makes {w w' : W} {a : α} (hp : Makes S Q p) (h : run x p w = (.ok a, w')) : Q a := by
  induction p generalizing w with
  | ret b =>
    rw [run_ret, Prod.mk.injEq, Except.ok.injEq] at h
    exact h.1 ▸ hp
  | fail e => simp at h
  | call o k ih =>
    rw [run_call] at h
    rcases hx : x o w with ⟨e | b, w₁⟩
    · simp [hx] at h
    · rw [hx] at h
      exact ih b (hp.2 b) h

end Makes

/-- What holds when the program ends, if others move the world by `R` before each of its calls
and before its end. -/
def Among (R : W → W → Prop) (Q : Except E α → W → Prop) : Prog Op Ans E α → W → Prop
  | ret a, w => ∀ w', R w w' → Q (.ok a) w'
  | fail e, w => ∀ w', R w w' → Q (.error e) w'
  | call o k, w => ∀ w', R w w' →
      match x o w' with
      | (.ok a, w'') => Among R Q (k a) w''
      | (.error e, w'') => Q (.error e) w''

section Among
variable {x} {R : W → W → Prop} {Q : Except E α → W → Prop}

theorem among_runAmong {env : ℕ → W → W} (henv : ∀ k w, R w (env k w)) (p : Prog Op Ans E α) :
    ∀ k w, Among x R Q p w → Q (runAmong x env k p w).1 (runAmong x env k p w).2 := by
  induction p with
  | ret a => exact fun k w h => h _ (henv k w)
  | fail e => exact fun k w h => h _ (henv k w)
  | call o p ih =>
    intro k w h
    have hcall := h _ (henv k w)
    rw [runAmong]
    rcases hx : x o (env k w) with ⟨e | a, w'⟩
    · rwa [hx] at hcall
    · rw [hx] at hcall
      exact ih a (k + 1) w' hcall

/-- The second part starts in a world that the first one ended in. -/
theorem among_bind {Q' : Except E β → W → Prop} (hR : ∀ w, R w w) {f : α → Prog Op Ans E β} :
    ∀ (p : Prog Op Ans E α) (w : W),
    Among x R (fun r w' => match r with
      | .ok a => Among x R Q' (f a) w'
      | .error e => Q' (.error e) w') p w → Among x R Q' (p >>= f) w
  | ret a, w, h => h w (hR w)
  | fail e, w, h => h
  | call o k, w, h => fun w' hw' => by
    have hcall := h w' hw'
    rcases hx : x o w' with ⟨e | a, w''⟩
    · rwa [hx] at hcall
    · rw [hx] at hcall
      exact among_bind hR (k a) w'' hcall

theorem among_ask_bind {o : Op} {f : Ans o → Prog Op Ans E α} {w : W} (h : ∀ w', R w w' → match x o w' with
      | (.ok a, w'') => Among x R Q (f a) w''
      | (.error e, w'') => Q (.error e) w'') : Among x R Q (ask o >>= f) w := h

theorem among_mono {Q Q' : Except E α → W → Prop} (h : ∀ r w, Q r w → Q' r w) :
    ∀ (p : Prog Op Ans E α) (w : W), Among x R Q p w → Among x R Q' p w
  | ret a, _, hp => fun w' hw' => h _ _ (hp w' hw')
  | fail e, _, hp => fun w' hw' => h _ _ (hp w' hw')
  | call o k, _, hp => fun w' hw' => by
    have hcall := hp w' hw'
    rcases hx : x o w' with ⟨e | a, w''⟩
    · rw [hx] at hcall
      exact h _ _ hcall
    · rw [hx] at hcall
      exact among_mono h (k a) w'' hcall

/-- What the program's calls keep and the others keep, holds at its end. -/
theorem among_of_makes {S : Op → Prop} {V : α → Prop} {P : W → Prop}
    (hP : ∀ o, S o → ∀ w, P w → P (x o w).2) (hR : ∀ w w', R w w' → P w → P w') :
    ∀ (p : Prog Op Ans E α) (w : W), Makes S V p → P w →
      Among x R (fun r w' => P w' ∧ ∀ a, r = .ok a → V a) p w
  | ret a, w, hp, hw => fun w' hw' => ⟨hR w w' hw' hw, fun b hb => Except.ok.inj hb ▸ hp⟩
  | fail e, w, _, hw => fun w' hw' => ⟨hR w w' hw' hw, fun b hb => by cases hb⟩
  | call o k, w, hp, hw => fun w' hw' => by
    have h₁ := hP o hp.1 w' (hR w w' hw' hw)
    rcases hx : x o w' with ⟨e | a, w''⟩
    · rw [hx] at h₁
      exact ⟨h₁, fun b hb => by cases hb⟩
    · rw [hx] at h₁
      exact among_of_makes hP hR (k a) w'' (hp.2 a) h₁

/-- What every call and the others keep. -/
theorem among_keep {B : W → Prop} (hB : ∀ o w, B w → B (x o w).2) (hR : ∀ w w', R w w' → B w → B w') :
    ∀ (p : Prog Op Ans E α) (w : W), B w → Among x R (fun _ w' => B w') p w
  | ret _, w, hw => fun w' hw' => hR w w' hw' hw
  | fail _, w, hw => fun w' hw' => hR w w' hw' hw
  | call o k, w, hw => fun w' hw' => by
    have hcall := hB o w' (hR w w' hw' hw)
    rcases hx : x o w' with ⟨e | a, w''⟩
    · rwa [hx] at hcall
    · rw [hx] at hcall
      exact among_keep hB hR (k a) w'' hcall

/-- A program that the others leave alone, as long as they do not spoil the world: it then runs
as it does alone, in the world `v` that `S` relates to the one it is in. -/
theorem among_spoiled {V : Type} {y : Machine Op Ans E V} {S : V → W → Prop} {B : W → Prop}
    (hB : ∀ o w, B w → B (x o w).2) (hRB : ∀ w w', R w w' → B w → B w')
    (hS : ∀ o v w, S v w → (x o w).1 = (y o v).1 ∧ S (y o v).2 (x o w).2)
    (hRS : ∀ v w w', R w w' → S v w → B w' ∨ S v w') :
    ∀ (p : Prog Op Ans E α) (v : V) (w : W), S v w →
      Among x R (fun r w' => B w' ∨ r = (run y p v).1 ∧ S (run y p v).2 w') p w := by
  intro p
  induction p with
  | ret a => exact fun v w h w' hw' => (hRS v w w' hw' h).imp_right fun hs => ⟨rfl, hs⟩
  | fail e => exact fun v w h w' hw' => (hRS v w w' hw' h).imp_right fun hs => ⟨rfl, hs⟩
  | call o k ih =>
    intro v w h w' hw'
    rcases hRS v w w' hw' h with hb | hs
    · have hcall := hB o w' hb
      rcases hx : x o w' with ⟨e | a, w''⟩
      · rw [hx] at hcall
        exact .inl hcall
      · rw [hx] at hcall
        exact among_mono (fun _ _ => .inl) _ _ (among_keep hB hRB (k a) w'' hcall)
    · obtain ⟨heq, hs⟩ := hS o v w' hs
      rw [run_call]
      rcases hx : x o w' with ⟨e | a, w''⟩ <;> rcases hy : y o v with ⟨e' | a', v'⟩ <;> rw [hx, hy] at heq hs <;>
        cases heq
      · exact .inr ⟨rfl, hs⟩
      · exact ih _ v' w'' hs

end Among

end Prog
end Calls
