/-! Runs of a transition system with their traces: every step is kept with the states
before and behind it, so that a condition on steps is one on the members of a list. -/

namespace TracedRun
variable {σ ε : Type}

structure Step (σ ε : Type) where
  before : σ
  event : ε
  after : σ

inductive Run (step : σ → ε → σ → Prop) : σ → List (Step σ ε) → σ → Prop
  | nil {state} : Run step state [] state
  | cons {state event next trace last} (first : step state event next) (rest : Run step next trace last) :
      Run step state (⟨state, event, next⟩ :: trace) last

variable {step : σ → ε → σ → Prop} {first last : σ} {trace : List (Step σ ε)}

/-- What every admissible step keeps holds all along a run. -/
theorem Run.invariant {good : σ → Prop} {admits : Step σ ε → Prop}
    (keeps : ∀ s e t, step s e t → admits ⟨s, e, t⟩ → good s → good t) (run : Run step first trace last)
    (admitted : ∀ taken ∈ trace, admits taken) (start : good first) :
    good last ∧ ∀ taken ∈ trace, good taken.before ∧ good taken.after := by
  induction run with
  | nil => exact ⟨start, by simp⟩
  | cons taken rest ih =>
    obtain ⟨here, later⟩ := List.forall_mem_cons.mp admitted
    have next := keeps _ _ _ taken here start
    obtain ⟨final, others⟩ := ih later next
    exact ⟨final, List.forall_mem_cons.mpr ⟨⟨start, next⟩, others⟩⟩

theorem Run.split {front back : List (Step σ ε)} (run : Run step first (front ++ back) last) :
    ∃ middle, Run step first front middle ∧ Run step middle back last := by
  induction front generalizing first with
  | nil => exact ⟨first, .nil, run⟩
  | cons taken front ih =>
    cases run with
    | cons here rest =>
      obtain ⟨middle, before, behind⟩ := ih rest
      exact ⟨middle, .cons here before, behind⟩

/-- A run up to one of its steps, the step itself, and the run behind it. -/
theorem Run.at_step {front back : List (Step σ ε)} {taken : Step σ ε}
    (run : Run step first (front ++ taken :: back) last) :
    Run step first front taken.before ∧ step taken.before taken.event taken.after ∧
      Run step taken.after back last := by
  obtain ⟨middle, before, behind⟩ := run.split
  cases behind with
  | cons here rest => exact ⟨before, here, rest⟩

end TracedRun
