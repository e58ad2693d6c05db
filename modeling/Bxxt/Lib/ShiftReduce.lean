import Mathlib

/-! Parsers that shift and reduce. The tables of a parser may decide without the next token, they may settle a conflict
of the grammar, and its stack may be bounded. What is accepted is told by the trees of the grammar. -/

namespace ShiftReduce

/-- A symbol of a grammar. The kind of the token that ends an input is zero. -/
inductive Sym where
  | terminal (kind : Nat)
  | nonterminal (index : Nat)
  deriving DecidableEq, Repr

/-- A conflict is settled by a rule that is not used in front of a token. -/
structure Grammar where
  start : Nat
  rules : List Nat
  lhs : Nat → Nat
  rhs : Nat → List Sym
  settled : List (Nat × Nat)

inductive Action where
  | shift (state : Nat)
  | reduce (rule : Nat)
  | accept
  | error
  deriving DecidableEq, Repr

/-- `always` is the rule that a state reduces by whatever comes next. -/
structure Tables where
  always : Nat → Option Nat
  action : Nat → Nat → Action
  goto : Nat → Nat → Nat
  lhs : Nat → Nat
  size : Nat → Nat

/-- Where the tokens come from, and what they and the rules mean. A rule sees the whole stack of values. -/
structure Driver (τ ν γ σ ε : Type) where
  next : σ → Except ε (τ × σ)
  kind : τ → Nat
  shifted : τ → ν
  reduced : Nat → List ν → γ → Except ε (ν × γ)
  limit : Nat
  rejected : ε
  exhausted : ε

section Machine
variable {τ ν γ σ ε : Type}

/-- The last entry of the stack comes first. -/
structure Config (τ ν γ σ : Type) where
  stack : List (Nat × ν)
  look : Option τ
  source : σ
  env : γ

def top (stack : List (Nat × ν)) : Nat :=
  match stack with
  | [] => 0
  | (state, _) :: _ => state

variable (T : Tables) (D : Driver τ ν γ σ ε)

/-- The first state is on the stack too. -/
def push (entry : Nat × ν) (stack : List (Nat × ν)) : Except ε (List (Nat × ν)) :=
  if stack.length + 2 < D.limit then .ok (entry :: stack) else .error D.exhausted

def reduceBy (rule : Nat) (c : Config τ ν γ σ) : Except ε (Config τ ν γ σ) := do
  let (value, env) ← D.reduced rule (c.stack.map (·.2)) c.env
  let rest := c.stack.drop (T.size rule)
  return { c with stack := ← push D (T.goto (top rest) (T.lhs rule), value) rest, env }

def peek (c : Config τ ν γ σ) : Except ε (τ × σ) :=
  match c.look with
  | some token => .ok (token, c.source)
  | none => D.next c.source

def step (c : Config τ ν γ σ) : Except ε (Config τ ν γ σ ⊕ γ) :=
  match T.always (top c.stack) with
  | some rule => (reduceBy T D rule c).map .inl
  | none => do
    let (token, source) ← peek D c
    match T.action (top c.stack) (D.kind token) with
    | .shift state => return .inl { c with stack := ← push D (state, D.shifted token) c.stack, look := none, source }
    | .reduce rule => (reduceBy T D rule { c with look := some token, source }).map .inl
    | .accept => return .inr c.env
    | .error => throw D.rejected

def run : Nat → Config τ ν γ σ → Option (Except ε γ)
  | 0, _ => none
  | fuel + 1, c =>
    match step T D c with
    | .error fault => some (.error fault)
    | .ok (.inr env) => some (.ok env)
    | .ok (.inl c) => run fuel c

end Machine
section Trees
variable {τ ν γ σ ε : Type}

inductive Tree (τ : Type) where
  | leaf (token : τ)
  | node (rule : Nat) (children : List (Tree τ))

mutual
def Tree.yield : Tree τ → List τ
  | .leaf token => [token]
  | .node _ children => yields children
termination_by structural tree => tree

def yields : List (Tree τ) → List τ
  | [] => []
  | tree :: trees => tree.yield ++ yields trees
termination_by structural trees => trees
end

mutual
/-- How many entries a stack takes for a tree. -/
def Tree.room : Tree τ → Nat
  | .leaf _ => 1
  | .node _ children => max 1 (rooms children)
termination_by structural tree => tree

def rooms : List (Tree τ) → Nat
  | [] => 0
  | tree :: trees => max tree.room (rooms trees + 1)
termination_by structural trees => trees
end

mutual
/-- What holds of a node whenever it holds of its children. -/
theorem Tree.induct {motive : Tree τ → Prop} (leaf : ∀ token, motive (.leaf token))
    (node : ∀ rule children, (∀ child ∈ children, motive child) → motive (.node rule children)) :
    ∀ tree, motive tree
  | .leaf token => leaf token
  | .node rule children => node rule children (trees_induct leaf node children)
termination_by structural tree => tree

theorem trees_induct {motive : Tree τ → Prop} (leaf : ∀ token, motive (.leaf token))
    (node : ∀ rule children, (∀ child ∈ children, motive child) → motive (.node rule children)) :
    ∀ trees : List (Tree τ), ∀ child ∈ trees, motive child
  | [] => List.forall_mem_nil _
  | tree :: trees => List.forall_mem_cons.mpr ⟨Tree.induct leaf node tree, trees_induct leaf node trees⟩
termination_by structural trees => trees
end

def headKind (kind : τ → Nat) (tokens : List τ) (following : Nat) : Nat :=
  match tokens with
  | [] => following
  | token :: _ => kind token

variable (G : Grammar) (D : Driver τ ν γ σ ε)

def Tree.sym (kind : τ → Nat) : Tree τ → Sym
  | .leaf token => .terminal (kind token)
  | .node rule _ => .nonterminal (G.lhs rule)

mutual
/-- Trees of the grammar in front of a token, with the conflicts settled. -/
def Tree.Derives (kind : τ → Nat) (following : Nat) : Tree τ → Prop
  | .leaf _ => True
  | .node rule children =>
    rule ∈ G.rules ∧ children.map (Tree.sym G kind) = G.rhs rule ∧ (rule, following) ∉ G.settled ∧
      DeriveAll kind following children
termination_by structural tree => tree

def DeriveAll (kind : τ → Nat) (following : Nat) : List (Tree τ) → Prop
  | [] => True
  | tree :: trees => Tree.Derives kind (headKind kind (yields trees) following) tree ∧ DeriveAll kind following trees
termination_by structural trees => trees
end

mutual
/-- The rules are applied from the left, the children of a tree first. -/
def Tree.eval (below : List ν) (env : γ) : Tree τ → Except ε (ν × γ)
  | .leaf token => .ok (D.shifted token, env)
  | .node rule children => do
    let (values, env) ← evals below env children
    D.reduced rule values env
termination_by structural tree => tree

def evals (below : List ν) (env : γ) : List (Tree τ) → Except ε (List ν × γ)
  | [] => .ok (below, env)
  | tree :: trees => do
    let (value, env) ← tree.eval below env
    evals (value :: below) env trees
termination_by structural trees => trees
end

end Trees
section Runs
variable {τ ν γ σ ε : Type} {T : Tables} {D : Driver τ ν γ σ ε}

/-- The tokens that are still to come, with the one that was looked at. -/
inductive Remains (D : Driver τ ν γ σ ε) : Option τ → σ → List τ → Prop
  | ended (token : τ) (source : σ) : D.kind token = 0 → Remains D (some token) source []
  | held (token : τ) (source : σ) (tokens : List τ) :
    D.kind token ≠ 0 → Remains D none source tokens → Remains D (some token) source (token :: tokens)
  | read (source after : σ) (token : τ) (tokens : List τ) :
    D.next source = .ok (token, after) → Remains D (some token) after tokens → Remains D none source tokens

theorem Remains.all {P : τ → Prop} {look : Option τ} {source : σ} {tokens : List τ}
    (remains : Remains D look source tokens)
    (given : ∀ source token after, D.next source = .ok (token, after) → P token)
    (looked : ∀ token ∈ look, P token) :
    ∀ token ∈ tokens, P token := by
  induction remains with
  | ended token source kind => exact List.forall_mem_nil P
  | held token source tokens kind remains ih => exact List.forall_mem_cons.mpr ⟨looked token rfl, ih nofun⟩
  | read source after token tokens next remains ih =>
    refine ih fun other is => ?_
    cases is
    exact given source token after next

def Steps (T : Tables) (D : Driver τ ν γ σ ε) : Config τ ν γ σ → Config τ ν γ σ → Prop :=
  Relation.ReflTransGen fun before after => step T D before = .ok (.inl after)

theorem run_steps {before after : Config τ ν γ σ} (steps : Steps T D before after) {fuel : Nat}
    {result : Except ε γ} (runs : run T D fuel after = some result) :
    ∃ fuel, run T D fuel before = some result := by
  induction steps using Relation.ReflTransGen.head_induction_on with
  | refl => exact ⟨fuel, runs⟩
  | head first _ ih =>
    obtain ⟨fuel, runs⟩ := ih
    refine ⟨fuel + 1, ?_⟩
    rw [run, first]
    exact runs

/-- More fuel does not change how a run ends. -/
theorem run_more {fuel : Nat} {c : Config τ ν γ σ} {result : Except ε γ}
    (runs : run T D fuel c = some result) (more : Nat) :
    run T D (fuel + more) c = some result := by
  induction fuel generalizing c with
  | zero => cases runs
  | succ fuel ih =>
    rw [Nat.succ_add, run]
    rw [run] at runs
    split at runs
    · exact runs
    · exact runs
    · exact ih runs

theorem peek_remains {c : Config τ ν γ σ} {tokens : List τ} (remains : Remains D c.look c.source tokens) :
    ∃ token source, peek D c = .ok (token, source) ∧ D.kind token = headKind D.kind tokens 0 ∧
      Remains D (some token) source tokens := by
  rw [peek]
  generalize c.look = look at remains
  generalize c.source = source at remains
  cases remains with
  | ended token _ last => exact ⟨token, source, rfl, last, .ended token source last⟩
  | held token _ tokens some rest => exact ⟨token, source, rfl, rfl, .held token source tokens some rest⟩
  | read _ after token _ next rest =>
    refine ⟨token, after, next, ?_, rest⟩
    cases rest with
    | ended _ _ last => exact last
    | held => rfl

theorem headKind_append (kind : τ → Nat) (first second : List τ) (following : Nat) :
    headKind kind (first ++ second) following = headKind kind first (headKind kind second following) := by
  cases first <;> rfl

theorem yields_append (first second : List (Tree τ)) : yields (first ++ second) = yields first ++ yields second := by
  induction first with
  | nil => rfl
  | cons tree trees ih => rw [List.cons_append, yields, yields, ih, List.append_assoc]

theorem rooms_append (first second : List (Tree τ)) :
    rooms (first ++ second) = if second = [] then rooms first else max (rooms first) (rooms second + first.length) := by
  split
  · rename_i empty
    rw [empty, List.append_nil]
  rename_i some
  induction first with
  | nil => simp only [List.nil_append, rooms, List.length_nil, Nat.add_zero, Nat.zero_max]
  | cons tree trees ih =>
    rw [List.cons_append, rooms, rooms, ih, List.length_cons]
    omega

theorem evals_cons {tree : Tree τ} {trees : List (Tree τ)} {below : List ν} {env : γ} {result : List ν × γ} :
    evals D below env (tree :: trees) = .ok result ↔
      ∃ value after, tree.eval D below env = .ok (value, after) ∧
        evals D (value :: below) after trees = .ok result := by
  rw [evals]
  cases tree.eval D below env with
  | error fault => exact iff_of_false nofun fun ⟨_, _, wrong, _⟩ => nomatch wrong
  | ok first =>
    constructor
    · intro ran
      exact ⟨first.1, first.2, rfl, ran⟩
    · rintro ⟨value, after, same, ran⟩
      cases same
      exact ran

theorem evals_append {first second : List (Tree τ)} {below : List ν} {env : γ} :
    evals D below env (first ++ second) = evals D below env first >>= fun (values, env) =>
      evals D values env second := by
  induction first generalizing below env with
  | nil => rfl
  | cons tree trees ih =>
    rw [List.cons_append, evals, evals]
    cases tree.eval D below env with
    | error fault => rfl
    | ok result => exact ih

theorem evals_values {trees : List (Tree τ)} {below values : List ν} {env after : γ}
    (ran : evals D below env trees = .ok (values, after)) :
    ∃ own, values = own ++ below ∧ own.length = trees.length := by
  induction trees generalizing below env with
  | nil =>
    rw [evals] at ran
    cases ran
    exact ⟨[], rfl, rfl⟩
  | cons tree trees ih =>
    rw [evals] at ran
    cases first : tree.eval D below env with
    | error fault =>
      rw [first] at ran
      cases ran
    | ok result =>
      rw [first] at ran
      obtain ⟨own, rfl, same⟩ := ih ran
      exact ⟨own ++ [result.1], by simp, by simp [same]⟩

theorem deriveAll_append {G : Grammar} {kind : τ → Nat} {following : Nat} {first second : List (Tree τ)} :
    DeriveAll G kind following (first ++ second) ↔
      DeriveAll G kind (headKind kind (yields second) following) first ∧ DeriveAll G kind following second := by
  induction first with
  | nil => simp only [List.nil_append, DeriveAll, true_and]
  | cons tree trees ih =>
    rw [List.cons_append, DeriveAll, DeriveAll, ih, yields_append, headKind_append]
    exact and_assoc.symm

end Runs
section Completeness
variable {τ ν γ σ ε : Type}

/-- What tables are checked with: the nonterminals that a state waits for, the tokens that may
follow a nonterminal, those that it may start with, and the nonterminals that may be empty. The sets
are bit masks. -/
structure Forecast where
  expects : List (Nat × Nat)
  follow : Nat → Nat
  starts : Nat → Nat
  empty : Nat
  kinds : Nat

section Checks
variable (F : Forecast)

def Forecast.expected (state index : Nat) : Bool := F.expects.any fun entry => entry.1 = state && entry.2.testBit index

def Forecast.nullable : List Sym → Bool
  | [] => true
  | .terminal _ :: _ => false
  | .nonterminal index :: rest => F.empty.testBit index && Forecast.nullable rest

def Forecast.first : List Sym → Nat
  | [] => 0
  | .terminal kind :: _ => 2 ^ kind
  | .nonterminal index :: rest => F.starts index ||| if F.empty.testBit index then Forecast.first rest else 0

def Forecast.ahead (symbols : List Sym) (following : Nat) : Nat :=
  F.first symbols ||| if F.nullable symbols then following else 0

variable (G : Grammar) (T : Tables)

/-- A state uses a rule in front of each token that may follow, unless a conflict is settled against it. -/
def Forecast.uses (state rule : Nat) : Bool :=
  match T.always state with
  | some always => always = rule
  | none => (List.range F.kinds).all fun kind =>
    !(F.follow (G.lhs rule)).testBit kind || G.settled.contains (rule, kind) || T.action state kind = .reduce rule

/-- The rest of a rule leads from a state to one that uses the rule in front of each token that may follow. -/
def Forecast.walks : Nat → List Sym → Nat → Bool
  | state, [], rule => F.uses G T state rule
  | state, .terminal kind :: rest, rule =>
    match T.always state, T.action state kind with
    | none, .shift next => Forecast.walks next rest rule
    | _, _ => false
  | state, .nonterminal index :: rest, rule =>
    F.expected state index && F.ahead rest (F.follow (G.lhs rule)) &&& F.follow index =
      F.ahead rest (F.follow (G.lhs rule)) &&
      Forecast.walks (T.goto state index) rest rule

structure TablesComplete : Prop where
  begins : F.expected 0 G.start = true
  ends : (F.follow G.start).testBit 0 = true
  looks : T.always (T.goto 0 G.start) = none
  accepts : T.action (T.goto 0 G.start) 0 = .accept
  lhs : ∀ rule ∈ G.rules, T.lhs rule = G.lhs rule
  size : ∀ rule ∈ G.rules, T.size rule = (G.rhs rule).length
  empty : ∀ rule ∈ G.rules, F.nullable (G.rhs rule) = true → F.empty.testBit (G.lhs rule) = true
  starts : ∀ rule ∈ G.rules, F.first (G.rhs rule) &&& F.starts (G.lhs rule) = F.first (G.rhs rule)
  follow : ∀ rule ∈ G.rules, F.follow (G.lhs rule) < 2 ^ F.kinds
  walks : ∀ entry ∈ F.expects, ∀ rule ∈ G.rules, entry.2.testBit (G.lhs rule) = true →
    F.walks G T entry.1 (G.rhs rule) rule = true

end Checks

variable {F : Forecast} {G : Grammar} {T : Tables} {D : Driver τ ν γ σ ε}

theorem testBit_of_and {small large : Nat} (inside : small &&& large = small) {bit : Nat}
    (set : small.testBit bit = true) :
    large.testBit bit = true := by
  rw [← inside, Nat.testBit_and, Bool.and_eq_true] at set
  exact set.2

theorem nullable_cons (symbol : Sym) (rest : List Sym) :
    F.nullable (symbol :: rest) = (F.nullable [symbol] && F.nullable rest) := by
  cases symbol with
  | terminal => rfl
  | nonterminal => simp only [Forecast.nullable, Bool.and_true]

theorem first_cons (symbol : Sym) (rest : List Sym) :
    F.first (symbol :: rest) = F.first [symbol] ||| if F.nullable [symbol] then F.first rest else 0 := by
  cases symbol with
  | terminal => exact (Nat.or_zero _).symm
  | nonterminal => simp only [Forecast.first, Forecast.nullable, Bool.and_true, ite_self, Nat.or_zero]

/-- What the symbols of trees tell of the first token. -/
structure StartsAs (F : Forecast) (kind : τ → Nat) (tokens : List τ) (symbols : List Sym) : Prop where
  empty : tokens = [] → F.nullable symbols = true
  first : ∀ token rest, tokens = token :: rest → (F.first symbols).testBit (kind token) = true

theorem StartsAs.cons {kind : τ → Nat} {first second : List τ} {symbol : Sym} {rest : List Sym}
    (one : StartsAs F kind first [symbol]) (others : StartsAs F kind second rest) : StartsAs F kind (first ++ second)
    (symbol :: rest) where
  empty := fun none => by
    obtain ⟨noFirst, noSecond⟩ := List.append_eq_nil_iff.mp none
    rw [nullable_cons, one.empty noFirst, others.empty noSecond]
    rfl
  first := fun token tokens some => by
    rw [first_cons, Nat.testBit_or, Bool.or_eq_true]
    cases first with
    | nil =>
      rw [one.empty rfl]
      exact Or.inr (others.first token tokens some)
    | cons own more =>
      cases some
      exact Or.inl (one.first _ _ rfl)

theorem StartsAs.ahead {kind : τ → Nat} {tokens : List τ} {symbols : List Sym} (as : StartsAs F kind tokens symbols)
    {mask following : Nat} (next : mask.testBit following = true) :
    (F.ahead symbols mask).testBit (headKind kind tokens following) = true := by
  rw [Forecast.ahead, Nat.testBit_or, Bool.or_eq_true]
  cases tokens with
  | nil =>
    rw [as.empty rfl]
    exact Or.inr next
  | cons token rest => exact Or.inl (as.first token rest rfl)

mutual
theorem Tree.startsAs (complete : TablesComplete F G T) (kind : τ → Nat) (following : Nat) : ∀ tree : Tree τ,
    tree.Derives G kind following → StartsAs F kind tree.yield [tree.sym G kind]
  | .leaf token, _ => by
    constructor
    · intro none
      cases none
    · intro first rest some
      cases some
      exact Nat.testBit_two_pow_self
  | .node rule children, derives => by
    obtain ⟨known, symbols, _, all⟩ := derives
    have inner := treesStartAs complete kind following children all
    rw [symbols] at inner
    constructor
    · intro none
      rw [Tree.sym, Forecast.nullable, complete.empty rule known (inner.empty none)]
      rfl
    · intro first rest some
      rw [Tree.sym, Forecast.first, Nat.testBit_or, testBit_of_and (complete.starts rule known)
        (inner.first first rest some)]
      rfl
termination_by structural tree => tree

theorem treesStartAs (complete : TablesComplete F G T) (kind : τ → Nat) (following : Nat) :
    ∀ trees : List (Tree τ),
    DeriveAll G kind following trees → StartsAs F kind (yields trees) (trees.map (Tree.sym G kind))
  | [], _ => by
    constructor
    · intro _
      rfl
    · intro first rest some
      cases some
  | tree :: trees, all => (tree.startsAs complete kind _ all.1).cons (treesStartAs complete kind following trees all.2)
termination_by structural trees => trees
end

def Leads (F : Forecast) (T : Tables) (state : Nat) (symbol : Sym) (following next : Nat) : Prop :=
  match symbol with
  | .terminal kind => T.always state = none ∧ T.action state kind = .shift next
  | .nonterminal index =>
    F.expected state index = true ∧ (F.follow index).testBit following = true ∧ T.goto state index = next

theorem push_room {entry : Nat × ν} {stack : List (Nat × ν)} (room : stack.length + 2 < D.limit) :
    push D entry stack = .ok (entry :: stack) := if_pos room

theorem step_shift {c : Config τ ν γ σ} {token : τ} {tail : List τ} {next : Nat}
    (blind : T.always (top c.stack) = none) (shifts : T.action (top c.stack) (D.kind token) = .shift next)
    (room : c.stack.length + 2 < D.limit) (remains : Remains D c.look c.source (token :: tail)) : ∃ source,
      step T D c = .ok (.inl ⟨(next, D.shifted token) :: c.stack, none, source, c.env⟩) ∧
        Remains D none source tail := by
  obtain ⟨seen, source, peeked, -, rest⟩ := peek_remains remains
  cases rest with
  | held _ _ _ _ rest =>
    refine ⟨source, ?_, rest⟩
    rw [step, blind]
    dsimp only
    rw [peeked]
    change (match T.action (top c.stack) (D.kind token) with
      | .shift state => _
      | .reduce rule => _
      | .accept => _
      | .error => _) = _
    rw [shifts]
    dsimp only
    rw [push_room room]
    rfl

theorem reduceBy_ok {c : Config τ ν γ σ} {own rest : List (Nat × ν)} {rule next : Nat} {value : ν} {env : γ}
    (stack : c.stack = own ++ rest) (size : T.size rule = own.length) (goto : T.goto (top rest) (T.lhs rule) = next)
    (reduced : D.reduced rule (c.stack.map (·.2)) c.env = .ok (value, env)) (room : rest.length + 2 < D.limit) :
    reduceBy T D rule c = .ok { c with stack := (next, value) :: rest, env } := by
  have dropped : c.stack.drop (T.size rule) = rest := by rw [stack, size, List.drop_left]
  rw [reduceBy, reduced]
  change (do
    let stack ← push D (T.goto (top (c.stack.drop (T.size rule))) (T.lhs rule), value) (c.stack.drop (T.size rule))
    return { c with stack, env }) = _
  rw [dropped, goto, push_room room]
  rfl

theorem step_reduce {c : Config τ ν γ σ} {own rest : List (Nat × ν)} {rule next : Nat} {value : ν}
    {env : γ} {tail : List τ} (stack : c.stack = own ++ rest) (size : T.size rule = own.length)
    (goto : T.goto (top rest) (T.lhs rule) = next)
    (reduced : D.reduced rule (c.stack.map (·.2)) c.env = .ok (value, env)) (room : rest.length + 2 < D.limit)
    (follows : (F.follow (G.lhs rule)).testBit (headKind D.kind tail 0) = true)
    (known : headKind D.kind tail 0 < F.kinds) (uses : F.uses G T (top c.stack) rule = true)
    (free : (rule, headKind D.kind tail 0) ∉ G.settled) (remains : Remains D c.look c.source tail) :
    ∃ look source, step T D c = .ok (.inl ⟨(next, value) :: rest, look, source, env⟩) ∧
      Remains D look source tail := by
  rw [Forecast.uses] at uses
  cases always : T.always (top c.stack) with
  | some fixed =>
    rw [always] at uses
    have same : fixed = rule := of_decide_eq_true uses
    subst same
    refine ⟨c.look, c.source, ?_, remains⟩
    rw [step, always]
    dsimp only
    rw [reduceBy_ok stack size goto reduced room]
    rfl
  | none =>
    rw [always, List.all_eq_true] at uses
    have action : T.action (top c.stack) (headKind D.kind tail 0) = .reduce rule := by
      have here := uses _ (List.mem_range.mpr known)
      simpa only [follows, List.contains_eq_mem, free, decide_false, Bool.not_true, Bool.false_or, decide_eq_true_eq]
        using here
    obtain ⟨token, source, peeked, kind, rest'⟩ := peek_remains remains
    refine ⟨some token, source, ?_, rest'⟩
    rw [step, always]
    dsimp only
    rw [peeked]
    change (match T.action (top c.stack) (D.kind token) with
      | .shift state => _
      | .reduce rule => _
      | .accept => _
      | .error => _) = _
    rw [kind, action]
    dsimp only
    have reducedHere := reduceBy_ok (T := T) (D := D) (c := { c with look := some token, source }) stack
      size goto reduced room
    rw [reducedHere]
    rfl

theorem TablesComplete.walks_expected (complete : TablesComplete F G T) {state rule : Nat} (known : rule ∈ G.rules)
    (expected : F.expected state (G.lhs rule) = true) : F.walks G T state (G.rhs rule) rule = true := by
  rw [Forecast.expected, List.any_eq_true] at expected
  obtain ⟨entry, inside, same⟩ := expected
  rw [Bool.and_eq_true, decide_eq_true_eq] at same
  rw [← same.1]
  exact complete.walks entry inside rule known same.2

mutual
/-- A tree of a symbol that leads on is parsed to its value. -/
theorem Tree.steps (complete : TablesComplete F G T) : ∀ (tree : Tree τ) {c : Config τ ν γ σ} {tail : List τ}
    {next : Nat} {value : ν} {env : γ},
    Leads F T (top c.stack) (tree.sym G D.kind) (headKind D.kind tail 0) next →
      tree.Derives G D.kind (headKind D.kind tail 0) →
    tree.eval D (c.stack.map (·.2)) c.env = .ok (value, env) → c.stack.length + tree.room + 1 < D.limit →
    Remains D c.look c.source (tree.yield ++ tail) →
    ∃ look source, Steps T D c ⟨(next, value) :: c.stack, look, source, env⟩ ∧ Remains D look source tail
  | .leaf token, c, tail, next, value, env, leads, _, ran, room, remains => by
    obtain ⟨blind, shifts⟩ := leads
    obtain ⟨source, first, rest⟩ := step_shift blind shifts room remains
    rw [Tree.eval] at ran
    cases ran
    exact ⟨none, source, .single first, rest⟩
  | .node rule children, c, tail, next, value, env, leads, derives, ran, room, remains => by
    obtain ⟨expected, follows, goto⟩ := leads
    obtain ⟨known, symbols, free, all⟩ := derives
    rw [Tree.room] at room
    rw [Tree.eval] at ran
    cases inner : evals D (c.stack.map (·.2)) c.env children with
    | error fault =>
      rw [inner] at ran
      cases ran
    | ok result =>
      obtain ⟨values, before⟩ := result
      rw [inner] at ran
      have walks := complete.walks_expected known expected
      rw [← symbols] at walks
      obtain ⟨own, look, source, steps, count, same, ends, rest⟩ :=
        trees_steps complete children walks follows all inner (by omega) remains
      have small : headKind D.kind tail 0 < F.kinds := by
        by_contra large
        rw [Nat.testBit_lt_two_pow (Nat.lt_of_lt_of_le (complete.follow rule known)
          (Nat.pow_le_pow_right (by decide) (Nat.le_of_not_lt large)))] at follows
        cases follows
      have size : T.size rule = own.length := by rw [complete.size rule known, ← symbols, List.length_map, count]
      have reduced : D.reduced rule ((own ++ c.stack).map (·.2)) before = .ok (value, env) := by
        rw [same]
        exact ran
      obtain ⟨look, source, last, rest⟩ := step_reduce (c := ⟨own ++ c.stack, look, source, before⟩) rfl size
        ((congrArg _ (complete.lhs rule known)).trans goto) reduced (by omega) follows small ends free rest
      exact ⟨look, source, steps.tail last, rest⟩
termination_by structural tree => tree

theorem trees_steps (complete : TablesComplete F G T) : ∀ (trees : List (Tree τ)) {c : Config τ ν γ σ}
    {tail : List τ} {rule : Nat} {values : List ν} {env : γ}, F.walks G T (top c.stack)
    (trees.map (Tree.sym G D.kind)) rule = true →
    (F.follow (G.lhs rule)).testBit (headKind D.kind tail 0) = true →
      DeriveAll G D.kind (headKind D.kind tail 0) trees →
    evals D (c.stack.map (·.2)) c.env trees = .ok (values, env) → c.stack.length + rooms trees + 1 < D.limit →
    Remains D c.look c.source (yields trees ++ tail) →
    ∃ own look source, Steps T D c ⟨own ++ c.stack, look, source, env⟩ ∧ own.length = trees.length ∧
      (own ++ c.stack).map (·.2) = values ∧
      F.walks G T (top (own ++ c.stack)) [] rule = true ∧ Remains D look source tail
  | [], c, tail, rule, values, env, walks, _, _, ran, _, remains => by
    rw [evals] at ran
    cases ran
    exact ⟨[], c.look, c.source, .refl, rfl, rfl, walks, remains⟩
  | tree :: trees, c, tail, rule, values, env, walks, follows, all, ran, room, remains => by
    rw [rooms] at room
    rw [evals] at ran
    rw [yields, List.append_assoc] at remains
    obtain ⟨one, others⟩ := all
    have following : headKind D.kind (yields trees ++ tail) 0 = headKind D.kind (yields trees)
      (headKind D.kind tail 0) := headKind_append ..
    cases first : tree.eval D (c.stack.map (·.2)) c.env with
    | error fault =>
      rw [first] at ran
      cases ran
    | ok result =>
      rw [first] at ran
      obtain ⟨next, leads, onward⟩ : ∃ next, Leads F T (top c.stack) (tree.sym G D.kind)
        (headKind D.kind (yields trees ++ tail) 0) next ∧
          F.walks G T next (trees.map (Tree.sym G D.kind)) rule = true := by
        rw [List.map_cons] at walks
        cases symbol : tree.sym G D.kind with
        | terminal kind =>
          rw [symbol, Forecast.walks] at walks
          split at walks
          · exact ⟨_, ⟨by assumption, by assumption⟩, walks⟩
          · cases walks
        | nonterminal index =>
          rw [symbol, Forecast.walks, Bool.and_eq_true, Bool.and_eq_true, decide_eq_true_eq] at walks
          obtain ⟨⟨expected, inside⟩, onward⟩ := walks
          refine ⟨_, ⟨expected, testBit_of_and inside ?_, rfl⟩, onward⟩
          rw [following]
          exact (treesStartAs complete D.kind _ trees others).ahead follows
      obtain ⟨look, source, steps, rest⟩ := tree.steps complete leads (by rw [following]; exact one) first
        (by omega) remains
      obtain ⟨own, look, source, more, count, same, ends, rest⟩ := trees_steps complete trees
        (c := ⟨(next, result.1) :: c.stack, look, source, result.2⟩) onward follows others ran
        (by rw [List.length_cons]; omega) rest
      refine ⟨own ++ [(next, result.1)], look, source, ?_, ?_, ?_, ?_, rest⟩
      · rw [List.append_assoc]
        exact steps.trans more
      · rw [List.length_append, count]
        rfl
      · rw [List.append_assoc]
        exact same
      · rw [List.append_assoc]
        exact ends
termination_by structural trees => trees
end

theorem accepts_tree (complete : TablesComplete F G T) {tree : Tree τ} {source : σ} {value : ν} {env after : γ}
    (symbol : tree.sym G D.kind = .nonterminal G.start) (derives : tree.Derives G D.kind 0)
    (ran : tree.eval D [] env = .ok (value, after)) (room : tree.room + 1 < D.limit)
    (remains : Remains D none source tree.yield) :
    ∃ fuel, run T D fuel ⟨[], none, source, env⟩ = some (.ok after) := by
  have leads : Leads F T 0 (tree.sym G D.kind) 0 (T.goto 0 G.start) := by
    rw [symbol]
    exact ⟨complete.begins, complete.ends, rfl⟩
  have short : ([] : List (Nat × ν)).length + tree.room + 1 < D.limit := by
    rw [List.length_nil, Nat.zero_add]
    exact room
  have all : Remains D none source (tree.yield ++ []) := by
    rw [List.append_nil]
    exact remains
  obtain ⟨look, source, steps, rest⟩ : ∃ look left,
    Steps T D ⟨[], none, source, env⟩ ⟨[(T.goto 0 G.start, value)], look, left, after⟩ ∧
      Remains D look left [] := tree.steps complete leads derives ran short all
  obtain ⟨token, left, peeked, kind, -⟩ :=
    peek_remains (c := ⟨[(T.goto 0 G.start, value)], look, source, after⟩) rest
  have last : step T D ⟨[(T.goto 0 G.start, value)], look, source, after⟩ = .ok (.inr after) := by
    rw [step, top, complete.looks]
    dsimp only
    rw [peeked]
    change (match T.action (T.goto 0 G.start) (D.kind token) with
      | .shift state => _
      | .reduce rule => _
      | .accept => _
      | .error => _) = _
    rw [kind, headKind, complete.accepts]
    rfl
  have ends : run T D 1 ⟨[(T.goto 0 G.start, value)], look, source, after⟩ = some (.ok after) := by
    rw [run, last]
  exact run_steps steps ends

end Completeness
section Soundness
variable {τ ν γ σ ε : Type}

/-- The rules that a state is inside of, each with the number of its symbols that are behind the state. -/
abbrev Items := List (List (Nat × Nat))

section Checks
variable (F : Forecast) (I : Items) (G : Grammar) (T : Tables)

def Items.inside (state rule dot : Nat) : Bool :=
  if dot = 0 then F.expected state (G.lhs rule) else (I.getD state []).contains (rule, dot)

/-- A state that can be entered. The one that a parser ends in is inside of no rule. -/
def Items.usable (state : Nat) : Bool :=
  state < I.length && (state = 0 || state = T.goto 0 G.start || I.getD state [] ≠ [])

def Items.enters (source : Nat) (symbol : Sym) (target : Nat) : Bool :=
  (0 < target && Items.usable I G T target) && ((I.getD target []).all fun (rule, dot) =>
    0 < dot && (G.rhs rule)[dot - 1]? = some symbol && Items.inside F I G source rule (dot - 1)) &&
  (target ≠ T.goto 0 G.start || source = 0 && symbol = .nonterminal G.start)

def Items.moves (state : Nat) : Bool :=
  match T.always state with
  | some rule =>
    G.rules.contains rule && Items.inside F I G state rule (G.rhs rule).length &&
      G.settled.all fun pair => pair.1 ≠ rule
  | none => (List.range F.kinds).all fun kind =>
    match T.action state kind with
    | .shift next => kind ≠ 0 && Items.enters F I G T state (.terminal kind) next
    | .reduce rule =>
      G.rules.contains rule && Items.inside F I G state rule (G.rhs rule).length && !G.settled.contains (rule, kind)
    | .accept => kind = 0 && state = T.goto 0 G.start
    | .error => true

structure TablesSound : Prop where
  nonempty : 0 < I.length
  bottom : I.getD 0 [] = []
  begins : T.goto 0 G.start ≠ 0
  lhs : ∀ rule ∈ G.rules, T.lhs rule = G.lhs rule
  size : ∀ rule ∈ G.rules, T.size rule = (G.rhs rule).length
  moves : ∀ state < I.length, Items.usable I G T state = true → Items.moves F I G T state = true
  gotos : ∀ entry ∈ F.expects, ∀ rule ∈ G.rules, entry.2.testBit (G.lhs rule) = true →
    Items.enters F I G T entry.1 (.nonterminal (G.lhs rule)) (T.goto entry.1 (G.lhs rule)) = true

end Checks

variable {F : Forecast} {I : Items} {G : Grammar} {T : Tables} {D : Driver τ ν γ σ ε}

structure Entered (F : Forecast) (I : Items) (G : Grammar) (T : Tables) (source : Nat) (symbol : Sym)
    (target : Nat) : Prop where
  positive : 0 < target
  usable : I.usable G T target = true
  items : ∀ rule dot, (rule, dot + 1) ∈ I.getD target [] → (G.rhs rule)[dot]? = some symbol ∧
    I.inside F G source rule dot = true
  final : target = T.goto 0 G.start → source = 0 ∧ symbol = .nonterminal G.start

theorem Items.entered {source target : Nat} {symbol : Sym} (enters : I.enters F G T source symbol target = true) :
    Entered F I G T source symbol target := by
  simp only [Items.enters, Bool.and_eq_true, Bool.or_eq_true, decide_eq_true_eq, List.all_eq_true] at enters
  obtain ⟨⟨⟨positive, usable⟩, items⟩, final⟩ := enters
  refine ⟨positive, usable, fun rule dot member => ?_, fun same => ?_⟩
  · have here := items _ member
    exact ⟨here.1.2, here.2⟩
  · exact final.resolve_left (absurd same)

theorem TablesSound.goto (sound : TablesSound F I G T) {state rule : Nat} (known : rule ∈ G.rules)
    (expected : F.expected state (G.lhs rule) = true) :
    I.enters F G T state (.nonterminal (G.lhs rule)) (T.goto state (G.lhs rule)) = true := by
  rw [Forecast.expected, List.any_eq_true] at expected
  obtain ⟨entry, inside, same⟩ := expected
  rw [Bool.and_eq_true, decide_eq_true_eq] at same
  rw [← same.1]
  exact sound.gotos entry inside rule known same.2

/-- The trees that are on a stack, the last one first. -/
inductive Path (F : Forecast) (I : Items) (G : Grammar) (T : Tables) (kind : τ → Nat) : List (Nat × ν) →
    List (Tree τ) → Prop
  | nil : Path F I G T kind [] []
  | cons (stack : List (Nat × ν)) (trees : List (Tree τ)) (state : Nat) (value : ν) (tree : Tree τ) :
      Path F I G T kind stack trees →
    I.enters F G T (top stack) (tree.sym G kind) state = true →
      Path F I G T kind ((state, value) :: stack) (tree :: trees)

theorem Path.length {kind : τ → Nat} {stack : List (Nat × ν)} {trees : List (Tree τ)}
    (path : Path F I G T kind stack trees) :
    stack.length = trees.length := by
  induction path with
  | nil => rfl
  | cons stack trees state value tree path enters ih => rw [List.length_cons, List.length_cons, ih]

theorem Items.usable_lt {state : Nat} (usable : I.usable G T state = true) : state < I.length := by
  rw [Items.usable, Bool.and_eq_true, decide_eq_true_eq] at usable
  exact usable.1

theorem Path.usable (sound : TablesSound F I G T) {kind : τ → Nat} {stack : List (Nat × ν)}
    {trees : List (Tree τ)} (path : Path F I G T kind stack trees) : I.usable G T (top stack) = true := by
  cases path with
  | nil =>
    rw [top, Items.usable, decide_eq_true sound.nonempty]
    rfl
  | cons stack trees state value tree path enters => exact (Items.entered enters).usable

/-- What a state is inside of is what the stack ends with. -/
theorem Path.unwinds (sound : TablesSound F I G T) {kind : τ → Nat} {rule : Nat} : ∀ (dot : Nat)
    {stack : List (Nat × ν)} {trees : List (Tree τ)},
    Path F I G T kind stack trees → I.inside F G (top stack) rule dot = true →
    ∃ own rest children base, stack = own ++ rest ∧ trees = children ++ base ∧ own.length = dot ∧
      children.length = dot ∧
      children.reverse.map (Tree.sym G kind) = (G.rhs rule).take dot ∧ Path F I G T kind rest base ∧
      F.expected (top rest) (G.lhs rule) = true
  | 0, stack, trees, path, inside => by
    rw [Items.inside, if_pos rfl] at inside
    exact ⟨[], stack, [], trees, rfl, rfl, rfl, rfl, rfl, path, inside⟩
  | dot + 1, stack, trees, path, inside => by
    rw [Items.inside, if_neg (Nat.succ_ne_zero dot), List.contains_iff_mem] at inside
    cases path with
    | nil =>
      rw [top, sound.bottom] at inside
      cases inside
    | cons stack trees state value tree path enters =>
      obtain ⟨symbol, before⟩ := (Items.entered enters).items _ _ inside
      obtain ⟨own, rest, children, base, rfl, rfl, ownCount, childCount, symbols, below, expected⟩ :=
        path.unwinds sound dot before
      refine ⟨(state, value) :: own, rest, tree :: children, base, rfl, rfl, congrArg _ ownCount,
        congrArg _ childCount, ?_, below, expected⟩
      rw [List.reverse_cons, List.map_append, symbols, List.take_add_one, symbol]
      rfl

/-- What the trees on a stack have to do with its values, and with the token that was looked at. -/
structure Built (F : Forecast) (I : Items) (G : Grammar) (T : Tables) (D : Driver τ ν γ σ ε) (first : γ)
    (c : Config τ ν γ σ) (trees : List (Tree τ)) : Prop where
  path : Path F I G T D.kind c.stack trees
  values : evals D [] first trees.reverse = .ok (c.stack.map (·.2), c.env)
  derive : ∀ following, (∀ token ∈ c.look, D.kind token = following) →
    DeriveAll G D.kind following trees.reverse
  room : trees = [] ∨ rooms trees.reverse + 1 < D.limit

theorem Built.nil (first : γ) (source : σ) : Built F I G T D first ⟨[], none, source, first⟩ [] where
  path := .nil
  values := rfl
  derive := fun _ _ => trivial
  room := Or.inl rfl

theorem room_snoc {trees : List (Tree τ)} {tree : Tree τ} (before : trees = [] ∨ rooms trees.reverse + 1 < D.limit)
    (one : tree.room + trees.length + 1 < D.limit) : rooms (tree :: trees).reverse + 1 < D.limit := by
  rw [List.reverse_cons, rooms_append, if_neg (List.cons_ne_nil _ _), List.length_reverse]
  rw [rooms, rooms]
  have small : 0 < tree.room := by
    cases tree with
    | leaf => exact Nat.one_pos
    | node rule children => exact Nat.le_max_left 1 _
  rcases before with rfl | before
  · rw [List.reverse_nil, rooms]
    omega
  · omega

theorem Built.shift {first : γ} {c : Config τ ν γ σ} {trees : List (Tree τ)} {token : τ}
    {next : Nat} {source : σ} (built : Built F I G T D first c trees) (seen : ∀ other ∈ c.look, other = token)
    (enters : I.enters F G T (top c.stack) (.terminal (D.kind token)) next = true)
    (room : c.stack.length + 2 < D.limit) :
    Built F I G T D first ⟨(next, D.shifted token) :: c.stack, none, source, c.env⟩ (.leaf token :: trees) where
  path := .cons _ _ _ _ _ built.path enters
  values := by
    rw [List.reverse_cons, evals_append, built.values]
    rfl
  derive := fun following _ => by
    rw [List.reverse_cons, deriveAll_append]
    exact ⟨built.derive _ fun other member => congrArg D.kind (seen other member), trivial, trivial⟩
  room := by
    refine Or.inr (room_snoc built.room ?_)
    rw [Tree.room, ← built.path.length]
    omega

theorem Built.reduce (sound : TablesSound F I G T) {first : γ} {c : Config τ ν γ σ} {trees : List (Tree τ)}
    {rule : Nat} {value : ν} {env : γ} (built : Built F I G T D first c trees) (known : rule ∈ G.rules)
    (inside : I.inside F G (top c.stack) rule (G.rhs rule).length = true)
    (free : ∀ following, (∀ token ∈ c.look, D.kind token = following) → (rule, following) ∉ G.settled)
    (reduced : D.reduced rule (c.stack.map (·.2)) c.env = .ok (value, env))
    (room : (c.stack.drop (T.size rule)).length + 2 < D.limit) :
    ∃ own base, trees.reverse = base.reverse ++ own ∧
      Built F I G T D first ⟨(T.goto (top (c.stack.drop (T.size rule))) (T.lhs rule), value) ::
        c.stack.drop (T.size rule), c.look, c.source, env⟩
        (.node rule own :: base) := by
  obtain ⟨own, rest, children, base, stack, rfl, ownCount, childCount, symbols, path, expected⟩ :=
    built.path.unwinds sound _ inside
  rw [List.take_length] at symbols
  have dropped : c.stack.drop (T.size rule) = rest := by rw [stack, sound.size rule known, ← ownCount, List.drop_left]
  have parts : (children ++ base).reverse = base.reverse ++ children.reverse := List.reverse_append
  rw [dropped] at room ⊢
  have values := built.values
  rw [parts, evals_append] at values
  refine ⟨children.reverse, base, parts, .cons _ _ _ _ _ path ?_, ?_, fun following seen =>
    ?_, Or.inr (room_snoc ?_ ?_)⟩
  · rw [sound.lhs rule known]
    exact sound.goto known expected
  · rw [List.reverse_cons, evals_append]
    cases before : evals D [] first base.reverse with
    | error fault =>
      rw [before] at values
      cases values
    | ok result =>
      rw [before] at values
      obtain ⟨below, middle⟩ := result
      change evals D below middle children.reverse = _ at values
      obtain ⟨own', same, count⟩ := evals_values values
      rw [stack, List.map_append] at same
      have split : own.map (·.2) = own' ∧ rest.map (·.2) = below := by
        refine List.append_inj same ?_
        rw [List.length_map, count, ownCount, ← childCount, List.length_reverse]
      change evals D below middle [.node rule children.reverse] = _
      rw [evals, Tree.eval, values]
      change (D.reduced rule (c.stack.map (·.2)) c.env >>= fun result => evals D (result.1 :: below) result.2 []) = _
      rw [reduced, List.map_cons, split.2]
      rfl
  · have all := built.derive following seen
    rw [parts, deriveAll_append] at all
    rw [List.reverse_cons, deriveAll_append]
    refine ⟨?_, ⟨known, symbols, free following seen, all.2⟩, trivial⟩
    rw [yields, yields, List.append_nil]
    exact all.1
  · rcases built.room with none | before
    · exact Or.inl (List.append_eq_nil_iff.mp none).2
    · rw [parts, rooms_append] at before
      split at before
      · exact Or.inr before
      · exact Or.inr (by omega)
  · rw [Tree.room, ← path.length]
    rcases built.room with none | before
    · rw [(List.append_eq_nil_iff.mp none).1, List.reverse_nil, rooms]
      omega
    · rw [parts, rooms_append, List.length_reverse, ← path.length] at before
      split at before
      · rename_i empty
        rw [empty, rooms]
        omega
      · omega

def ReducesTo (T : Tables) (D : Driver τ ν γ σ ε) (rule : Nat) (c after : Config τ ν γ σ) : Prop :=
  ∃ value env, D.reduced rule (c.stack.map (·.2)) c.env = .ok (value, env) ∧
    (c.stack.drop (T.size rule)).length + 2 < D.limit ∧
    after = ⟨(T.goto (top (c.stack.drop (T.size rule))) (T.lhs rule), value) :: c.stack.drop (T.size rule),
      c.look, c.source, env⟩

theorem push_eq_ok {entry : Nat × ν} {stack result : List (Nat × ν)} :
    push D entry stack = .ok result ↔ stack.length + 2 < D.limit ∧ result = entry :: stack := by
  rw [push]
  split
  · rename_i room
    rw [Except.ok.injEq, and_iff_right room]
    exact eq_comm
  · rename_i none
    exact iff_of_false nofun fun both => none both.1

theorem reduceBy_eq_ok {rule : Nat} {c after : Config τ ν γ σ} (ran : reduceBy T D rule c = .ok after) :
    ReducesTo T D rule c after := by
  rw [reduceBy] at ran
  cases reduced : D.reduced rule (c.stack.map (·.2)) c.env with
  | error fault =>
    rw [reduced] at ran
    cases ran
  | ok result =>
    rw [reduced] at ran
    cases pushed : push D (T.goto (top (c.stack.drop (T.size rule))) (T.lhs rule), result.1)
      (c.stack.drop (T.size rule)) with
    | error fault =>
      simp only [bind, Except.bind, pushed] at ran
      cases ran
    | ok stack =>
      obtain ⟨room, rfl⟩ := push_eq_ok.mp pushed
      simp only [bind, Except.bind, pushed] at ran
      cases ran
      exact ⟨_, _, reduced, room, rfl⟩

/-- All that a step can do. -/
theorem step_cases {c : Config τ ν γ σ} {result : Config τ ν γ σ ⊕ γ} (ran : step T D c = .ok result) :
    (∃ rule after, T.always (top c.stack) = some rule ∧ ReducesTo T D rule c after ∧ result = .inl after) ∨
    T.always (top c.stack) = none ∧ ∃ token source, peek D c = .ok (token, source) ∧
      ((∃ next, T.action (top c.stack) (D.kind token) = .shift next ∧ c.stack.length + 2 < D.limit ∧
          result = .inl ⟨(next, D.shifted token) :: c.stack, none, source, c.env⟩) ∨
        (∃ rule after, T.action (top c.stack) (D.kind token) = .reduce rule ∧
          ReducesTo T D rule { c with look := some token, source } after ∧ result = .inl after) ∨
        T.action (top c.stack) (D.kind token) = .accept ∧ result = .inr c.env) := by
  rw [step] at ran
  cases always : T.always (top c.stack) with
  | some rule =>
    rw [always] at ran
    dsimp only at ran
    cases reduced : reduceBy T D rule c with
    | error fault =>
      rw [reduced] at ran
      cases ran
    | ok after =>
      rw [reduced] at ran
      cases ran
      exact Or.inl ⟨rule, after, rfl, reduceBy_eq_ok reduced, rfl⟩
  | none =>
    rw [always] at ran
    dsimp only at ran
    cases peeked : peek D c with
    | error fault =>
      rw [peeked] at ran
      cases ran
    | ok seen =>
      obtain ⟨token, source⟩ := seen
      rw [peeked] at ran
      change (match T.action (top c.stack) (D.kind token) with
        | .shift state => _
        | .reduce rule => _
        | .accept => _
        | .error => _) = _ at ran
      refine Or.inr ⟨rfl, token, source, rfl, ?_⟩
      cases action : T.action (top c.stack) (D.kind token) with
      | shift next =>
        rw [action] at ran
        dsimp only at ran
        cases pushed : push D (next, D.shifted token) c.stack with
        | error fault =>
          rw [pushed] at ran
          cases ran
        | ok stack =>
          obtain ⟨room, rfl⟩ := push_eq_ok.mp pushed
          rw [pushed] at ran
          cases ran
          exact Or.inl ⟨next, rfl, room, rfl⟩
      | reduce rule =>
        rw [action] at ran
        dsimp only at ran
        cases reduced : reduceBy T D rule { c with look := some token, source } with
        | error fault =>
          rw [reduced] at ran
          cases ran
        | ok after =>
          rw [reduced] at ran
          cases ran
          exact Or.inr (Or.inl ⟨rule, after, rfl, reduceBy_eq_ok reduced, rfl⟩)
      | accept =>
        rw [action] at ran
        cases ran
        exact Or.inr (Or.inr ⟨rfl, rfl⟩)
      | error =>
        rw [action] at ran
        cases ran

theorem peek_eq_ok {c : Config τ ν γ σ} {token : τ} {source : σ} (peeked : peek D c = .ok (token, source)) :
    (∀ other ∈ c.look, other = token) ∧
      ∀ tokens, Remains D (some token) source tokens → Remains D c.look c.source tokens := by
  rw [peek] at peeked
  split at peeked
  · rename_i other look
    cases peeked
    rw [look]
    exact ⟨fun other member => (Option.some.inj member).symm, fun tokens remains => remains⟩
  · rename_i look
    rw [look]
    exact ⟨fun other member => (nomatch member), fun tokens remains => Remains.read _ _ _ _ peeked remains⟩

theorem TablesSound.always (sound : TablesSound F I G T) {state rule : Nat} (usable : I.usable G T state = true)
    (always : T.always state = some rule) :
    rule ∈ G.rules ∧ I.inside F G state rule (G.rhs rule).length = true ∧
      ∀ kind, (rule, kind) ∉ G.settled := by
  have moves := sound.moves state (Items.usable_lt usable) usable
  rw [Items.moves, always] at moves
  simp only [Bool.and_eq_true, List.contains_iff_mem, List.all_eq_true, decide_eq_true_eq] at moves
  exact ⟨moves.1.1, moves.1.2, fun kind member => moves.2 _ member rfl⟩

theorem TablesSound.look (sound : TablesSound F I G T) {state kind : Nat} (usable : I.usable G T state = true)
    (known : kind < F.kinds) (looks : T.always state = none) :
    (match T.action state kind with
    | .shift next => kind ≠ 0 && Items.enters F I G T state (.terminal kind) next
    | .reduce rule =>
      G.rules.contains rule && Items.inside F I G state rule (G.rhs rule).length && !G.settled.contains (rule, kind)
    | .accept => kind = 0 && state = T.goto 0 G.start
    | .error => true) = true := by
  have moves := sound.moves state (Items.usable_lt usable) usable
  rw [Items.moves, looks, List.all_eq_true] at moves
  exact moves kind (List.mem_range.mpr known)

theorem TablesSound.reduce (sound : TablesSound F I G T) {state kind rule : Nat} (usable : I.usable G T state = true)
    (known : kind < F.kinds) (looks : T.always state = none) (action : T.action state kind = .reduce rule) :
    rule ∈ G.rules ∧ I.inside F G state rule (G.rhs rule).length = true ∧ (rule, kind) ∉ G.settled := by
  have moves := sound.look usable known looks
  rw [action] at moves
  simp only [Bool.and_eq_true, Bool.not_eq_true', List.contains_eq_mem, decide_eq_false_iff_not, decide_eq_true_eq]
    at moves
  exact ⟨moves.1.1, moves.1.2, moves.2⟩

theorem TablesSound.shift (sound : TablesSound F I G T) {state kind next : Nat} (usable : I.usable G T state = true)
    (known : kind < F.kinds) (looks : T.always state = none) (action : T.action state kind = .shift next) :
    kind ≠ 0 ∧ I.enters F G T state (.terminal kind) next = true := by
  have moves := sound.look usable known looks
  rw [action] at moves
  simpa only [Bool.and_eq_true, decide_eq_true_eq] using moves

theorem TablesSound.accept (sound : TablesSound F I G T) {state kind : Nat} (usable : I.usable G T state = true)
    (known : kind < F.kinds) (looks : T.always state = none) (action : T.action state kind = .accept) : kind = 0 ∧
    state = T.goto 0 G.start := by
  have moves := sound.look usable known looks
  rw [action] at moves
  simpa only [Bool.and_eq_true, decide_eq_true_eq] using moves

structure Parse (G : Grammar) (D : Driver τ ν γ σ ε) (first result : γ) (tree : Tree τ) : Prop where
  symbol : tree.sym G D.kind = .nonterminal G.start
  derives : tree.Derives G D.kind 0
  value : ∃ value, tree.eval D [] first = .ok (value, result)
  room : tree.room + 1 < D.limit

theorem Built.look {first : γ} {c : Config τ ν γ σ} {trees : List (Tree τ)} {token : τ} {source : σ}
    (built : Built F I G T D first c trees) (seen : ∀ other ∈ c.look, other = token) :
    Built F I G T D first { c with look := some token, source } trees where
  path := built.path
  values := built.values
  derive := fun following same => built.derive following fun other member =>
    (congrArg D.kind (seen other member)).trans (same token rfl)
  room := built.room

/-- A stack that is accepted holds one tree, that of the whole input. -/
theorem Built.accepts (sound : TablesSound F I G T) {first : γ} {c : Config τ ν γ σ} {trees : List (Tree τ)}
    (built : Built F I G T D first c trees) (ended : ∀ token ∈ c.look, D.kind token = 0)
    (state : top c.stack = T.goto 0 G.start) :
    ∃ tree, Parse G D first c.env tree ∧ trees = [tree] := by
  have path := built.path
  have values := built.values
  have derive := built.derive 0 ended
  have room := built.room
  generalize c.stack = stack at path state values
  generalize c.env = env at values ⊢
  cases path with
  | nil => exact absurd state.symm sound.begins
  | cons stack trees final value tree path enters =>
    obtain ⟨bottom, symbol⟩ := (Items.entered enters).final state
    cases path with
    | nil =>
      rw [List.reverse_cons, List.reverse_nil, List.nil_append] at values derive room
      refine ⟨tree, ⟨symbol, derive.1, ⟨value, ?_⟩, ?_⟩, rfl⟩
      · rw [evals] at values
        cases ran : tree.eval D [] first with
        | error fault =>
          rw [ran] at values
          cases values
        | ok result =>
          rw [ran] at values
          cases values
          rfl
      · have small := room.resolve_left (List.cons_ne_nil _ _)
        rw [rooms] at small
        omega
    | cons stack trees below belowValue other path entered =>
      exact absurd bottom (Nat.ne_of_gt (Items.entered entered).positive)

/-- What a step does to the trees on the stack: a rule is used on the last ones, or a token is put behind them. -/
theorem Built.step (sound : TablesSound F I G T) (kinds : ∀ token, D.kind token < F.kinds) {first : γ}
    {c after : Config τ ν γ σ} {trees : List (Tree τ)} (built : Built F I G T D first c trees)
    (stepped : ShiftReduce.step T D c = .ok (.inl after)) :
    (∃ rule own base, trees.reverse = base.reverse ++ own ∧ Built F I G T D first after (.node rule own :: base) ∧
      (after.look = c.look ∧ after.source = c.source ∨
        ∃ token source, peek D c = .ok (token, source) ∧ after.look = some token ∧ after.source = source)) ∨
    ∃ token source, D.kind token ≠ 0 ∧ peek D c = .ok (token, source) ∧ after.look = none ∧
      after.source = source ∧
      Built F I G T D first after (.leaf token :: trees) := by
  have inside := built.path.usable sound
  obtain ⟨rule, after, always, reduces, same⟩ |
    ⟨looks, token, source, peeked, ⟨state, action, room, same⟩ | ⟨rule, after, action, reduces, same⟩ |
    ⟨_, wrong⟩⟩ := step_cases stepped
  · cases same
    obtain ⟨known, within, free⟩ := sound.always inside always
    obtain ⟨value, env, ran, room, rfl⟩ := reduces
    obtain ⟨own, base, parts, built⟩ := built.reduce sound known within (fun following _ => free following) ran room
    exact .inl ⟨rule, own, base, parts, built, .inl ⟨rfl, rfl⟩⟩
  · cases same
    obtain ⟨seen, -⟩ := peek_eq_ok peeked
    obtain ⟨real, enters⟩ := sound.shift inside (kinds token) looks action
    exact .inr ⟨token, source, real, peeked, rfl, rfl, built.shift seen enters room⟩
  · cases same
    obtain ⟨seen, -⟩ := peek_eq_ok peeked
    obtain ⟨known, within, free⟩ := sound.reduce inside (kinds token) looks action
    obtain ⟨value, env, ran, room, rfl⟩ := reduces
    have ahead : ∀ following, (∀ other ∈ some token, D.kind other = following) →
        (rule, following) ∉ G.settled := fun following same => by
      rw [← same token rfl]
      exact free
    obtain ⟨own, base, parts, built⟩ := (built.look seen).reduce sound known within ahead ran room
    exact .inl ⟨rule, own, base, parts, built, .inr ⟨token, source, peeked, rfl, rfl⟩⟩
  · cases wrong

/-- What is accepted from a stack on is a tree of the grammar that begins with those on the stack. -/
theorem accepted_tree (sound : TablesSound F I G T) (kinds : ∀ token, D.kind token < F.kinds) {first result : γ} :
    ∀ {fuel : Nat} {c : Config τ ν γ σ} {trees : List (Tree τ)}, Built F I G T D first c trees →
      run T D fuel c = some (.ok result) →
    ∃ tokens tree, Remains D c.look c.source tokens ∧ Parse G D first result tree ∧
      tree.yield = yields trees.reverse ++ tokens := by
  intro fuel
  induction fuel with
  | zero =>
    intro c trees _ runs
    cases runs
  | succ fuel ih =>
    intro c trees built runs
    rw [run] at runs
    split at runs
    · cases runs
    · rename_i env stopped
      cases runs
      have inside := built.path.usable sound
      obtain ⟨_, _, _, _, wrong⟩ | ⟨looks, token, source, peeked, ⟨_, _, _, wrong⟩ | ⟨_, _, _, _, wrong⟩ |
        ⟨action, same⟩⟩ := step_cases stopped
      · cases wrong
      · cases wrong
      · cases wrong
      cases same
      obtain ⟨seen, remains⟩ := peek_eq_ok peeked
      obtain ⟨ended, state⟩ := sound.accept inside (kinds token) looks action
      obtain ⟨tree, parse, rfl⟩ := built.accepts sound
        (fun other member => (congrArg D.kind (seen other member)).trans ended) state
      refine ⟨[], tree, remains [] (.ended token source ended), parse, ?_⟩
      rw [List.reverse_cons, List.reverse_nil, List.nil_append, yields, yields, List.append_nil, List.append_nil]
    · rename_i next stopped
      obtain ⟨rule, own, base, parts, after, ahead⟩ | ⟨token, source, real, peeked, blind, left, after⟩ :=
        built.step sound kinds stopped
      · obtain ⟨tokens, tree, rest, parse, yield⟩ := ih after runs
        refine ⟨tokens, tree, ?_, parse, ?_⟩
        · obtain ⟨look, source⟩ | ⟨token, source, peeked, look, left⟩ := ahead
          · rw [look, source] at rest
            exact rest
          · rw [look, left] at rest
            exact (peek_eq_ok peeked).2 tokens rest
        · rw [yield, parts, List.reverse_cons, yields_append, yields_append, yields, yields,
            Tree.yield, List.append_nil]
      · obtain ⟨tokens, tree, rest, parse, yield⟩ := ih after runs
        rw [blind, left] at rest
        refine ⟨token :: tokens, tree, (peek_eq_ok peeked).2 _ (.held _ _ _ real rest), parse, ?_⟩
        rw [yield, List.reverse_cons, yields_append, List.append_assoc]
        rfl

/-- Checked tables accept the trees of the grammar, with their values, and nothing else. The check
is a computation over the tables, so that nothing is assumed of the generator that wrote them. -/
theorem accepted_iff (complete : TablesComplete F G T) (sound : TablesSound F I G T)
    (kinds : ∀ token, D.kind token < F.kinds) {source : σ} {first result : γ} :
    (∃ fuel, run T D fuel ⟨[], none, source, first⟩ = some (.ok result)) ↔
      ∃ tree, Remains D none source tree.yield ∧ Parse G D first result tree := by
  constructor
  · rintro ⟨fuel, runs⟩
    obtain ⟨tokens, tree, remains, parse, yield⟩ := accepted_tree sound kinds (Built.nil first source) runs
    refine ⟨tree, ?_, parse⟩
    rw [yield]
    exact remains
  · rintro ⟨tree, remains, parse⟩
    obtain ⟨value, ran⟩ := parse.value
    exact accepts_tree complete parse.symbol parse.derives ran parse.room remains

end Soundness
end ShiftReduce
