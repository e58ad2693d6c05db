/-! Computations that can fail and keep a log. What was logged before a failure stays. -/

namespace EventLog

def Logged (ε ω α : Type) := List ω × Except ε α

variable {ε ω α β : Type}

def Logged.log (run : Logged ε ω α) : List ω := run.1
def Logged.result (run : Logged ε ω α) : Except ε α := run.2

instance : Monad (Logged ε ω) where
  pure value := ([], .ok value)
  bind first next :=
    match first.result with
    | .ok value => (first.log ++ (next value).log, (next value).result)
    | .error failure => (first.log, .error failure)

def emit (event : ω) : Logged ε ω Unit := ([event], .ok ())

def quiet (run : Except ε α) : Logged ε ω α := ([], run)

@[simp] theorem log_pure (value : α) : (pure value : Logged ε ω α).log = [] := rfl
@[simp] theorem log_quiet (run : Except ε α) : (quiet run : Logged ε ω α).log = [] := rfl
@[simp] theorem log_emit (event : ω) : (emit event : Logged ε ω Unit).log = [event] := rfl
@[simp] theorem result_pure (value : α) : (pure value : Logged ε ω α).result = .ok value := rfl
@[simp] theorem result_quiet (run : Except ε α) : (quiet run : Logged ε ω α).result = run := rfl
@[simp] theorem result_emit (event : ω) : (emit event : Logged ε ω Unit).result = .ok () := rfl

variable {first : Logged ε ω α} {next : α → Logged ε ω β}

theorem bind_eq : (first >>= next) =
    match first.result with
    | .ok value => ((first.log ++ (next value).log, (next value).result) : Logged ε ω β)
    | .error failure => (first.log, .error failure) := rfl

/-- Without its log a computation is the one in the monad of failures. -/
@[simp] theorem result_bind : (first >>= next).result = first.result >>= fun value => (next value).result := by
  rw [bind_eq]
  cases first.result <;> rfl

theorem mem_log_bind {event : ω} : event ∈ (first >>= next).log ↔
    event ∈ first.log ∨ ∃ value, first.result = .ok value ∧ event ∈ (next value).log := by
  rw [bind_eq]
  cases first.result with
  | ok value =>
    change event ∈ first.log ++ (next value).log ↔ _
    simp
  | error failure =>
    change event ∈ first.log ↔ _
    simp

end EventLog
