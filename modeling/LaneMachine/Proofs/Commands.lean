set_option autoImplicit false

/-!
# Commands and replies

A part of the machine that others use is described by the commands it takes: each is answered by a
reply and leaves a new state.  This module has what is common to all such parts: how a program
becomes an answer, how commands follow each other, and what a step lemma says of a whole sequence.
-/

namespace LaneMachine

section

variable {ε σ α ρ : Type}

/-- Runs a program and shows how it ended. -/
def answer (program : EStateM ε σ α) (reply : α → ρ) (refused : ε → ρ) (before : σ) : ρ × σ :=
  match program before with
  | .ok a after => (reply a, after)
  | .error e after => (refused e, after)

variable {program : EStateM ε σ α} {reply : α → ρ} {refused : ε → ρ} {before after : σ}

theorem answer_of_ok {a : α} (h : program before = .ok a after) :
    answer program reply refused before = (reply a, after) := by
  rw [answer, h]

theorem answer_of_error {e : ε} (h : program before = .error e after) :
    answer program reply refused before = (refused e, after) := by
  rw [answer, h]

end

variable {γ ρ σ τ ι : Type}

/-- The replies to commands that follow each other, and the state that is left. -/
def runAll (run : γ → σ → ρ × σ) : List γ → σ → List ρ × σ
  | [], state => ([], state)
  | command :: rest, state =>
    let (reply, after) := run command state
    let (replies, last) := runAll run rest after
    (reply :: replies, last)

variable {run : γ → σ → ρ × σ} {run' : γ → τ → ρ × τ} {run? : γ → σ → Option (ρ × σ)}

/-- The last command of a sequence takes the state that those before it leave. -/
theorem snd_runAll_concat (commands : List γ) (command : γ) (state : σ) :
    (runAll run (commands ++ [command]) state).2 = (run command (runAll run commands state).2).2 := by
  induction commands generalizing state with
  | nil => rfl
  | cons first rest ih => exact ih (run first state).2

/-- What every command keeps, a sequence keeps. -/
theorem runAll_keeps {P : σ → Prop} (hstep : ∀ command state, P state → P (run command state).2)
    (commands : List γ) {state : σ} (h : P state) : P (runAll run commands state).2 := by
  induction commands generalizing state with
  | nil => exact h
  | cons command rest ih => exact ih (hstep command state h)

/-- If a view of the state takes every command as the state does, it takes sequences so. -/
theorem runAll_view (view : σ → τ)
    (hstep : ∀ command state,
      ((run command state).1, view (run command state).2) = run' command (view state))
    (commands : List γ) (state : σ) :
    ((runAll run commands state).1, view (runAll run commands state).2) =
      runAll run' commands (view state) := by
  induction commands generalizing state with
  | nil => rfl
  | cons command rest ih =>
    rw [runAll, runAll, ← hstep]
    dsimp only
    rw [← ih]

/-- Two states related at some level, and a relation that every command moves to the `next` level: the
replies to a sequence are the same, and the relation moves through all levels. -/
theorem runAll_related {R : ι → σ → τ → Prop} {next : ι → γ → Option ι}
    (hstep : ∀ {level level' command a b}, R level a b → next level command = some level' →
      (run command a).1 = (run' command b).1 ∧ R level' (run command a).2 (run' command b).2)
    {commands : List γ} {level level' : ι} {a : σ} {b : τ} (h : R level a b)
    (hlevels : commands.foldlM next level = some level') :
    (runAll run commands a).1 = (runAll run' commands b).1 ∧
      R level' (runAll run commands a).2 (runAll run' commands b).2 := by
  induction commands generalizing level a b with
  | nil =>
    cases hlevels
    exact ⟨rfl, h⟩
  | cons command rest ih =>
    rw [List.foldlM_cons, Option.bind_eq_bind, Option.bind_eq_some_iff] at hlevels
    obtain ⟨middle, hnext, hrest⟩ := hlevels
    obtain ⟨hreply, hafter⟩ := hstep h hnext
    obtain ⟨hreplies, hlast⟩ := ih hafter hrest
    refine ⟨?_, hlast⟩
    simp only [runAll, hreply, hreplies]

end LaneMachine
