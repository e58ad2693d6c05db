import Bxxt.Lib.ShiftReduce

/-! How long a parser runs, and that its tables leave a text no second tree. -/

namespace ShiftReduce

section Work
variable {τ ν γ σ ε : Type}

mutual
/-- A step of the parser for each token and for each use of a rule. -/
def Tree.work : Tree τ → Nat
  | .leaf _ => 1
  | .node _ children => works children + 1
termination_by structural tree => tree

def works : List (Tree τ) → Nat
  | [] => 0
  | tree :: trees => tree.work + works trees
termination_by structural trees => trees
end

theorem works_append (first second : List (Tree τ)) : works (first ++ second) = works first + works second := by
  induction first with
  | nil => exact (Nat.zero_add _).symm
  | cons tree first ih =>
    rw [List.cons_append, works, works, ih]
    exact (Nat.add_assoc _ _ _).symm

/-- A price for each symbol. A token pays for the rules that are used around it, which bounds the
steps of a parser without counting them along a run. -/
structure Budget where
  charge : Nat
  most : Nat
  own : Nat → Int

def Budget.cost (B : Budget) : Sym → Int
  | .terminal _ => 1 - B.charge
  | .nonterminal index => B.own index

/-- A rule costs no more than the symbol that it makes. -/
structure Budget.Covers (B : Budget) (G : Grammar) : Prop where
  rules : ∀ rule ∈ G.rules, ((G.rhs rule).map B.cost).sum + 1 ≤ B.own (G.lhs rule)
  most : ∀ rule ∈ G.rules, B.own (G.lhs rule) ≤ B.most
  positive : 0 < B.most

variable {G : Grammar} {B : Budget}

theorem works_cost {kind : τ → Nat} {trees : List (Tree τ)}
    (each : ∀ tree ∈ trees, ∀ following, tree.Derives G kind following →
      (tree.work : Int) ≤ B.charge * tree.yield.length + B.cost (tree.sym G kind)) :
    ∀ {following : Nat}, DeriveAll G kind following trees →
      (works trees : Int) ≤ B.charge * (yields trees).length + ((trees.map (Tree.sym G kind)).map B.cost).sum := by
  induction trees with
  | nil =>
    intro following _
    simp [works, yields]
  | cons tree trees ih =>
    intro following derive
    rw [DeriveAll] at derive
    rw [List.forall_mem_cons] at each
    have first := each.1 _ derive.1
    have rest := ih each.2 derive.2
    rw [works, yields, List.length_append, List.map_cons, List.map_cons, List.sum_cons]
    push_cast
    rw [Int.mul_add]
    omega

theorem Tree.work_cost (covers : B.Covers G) {kind : τ → Nat} : ∀ tree : Tree τ, ∀ following,
    tree.Derives G kind following →
    (tree.work : Int) ≤ B.charge * tree.yield.length + B.cost (tree.sym G kind) := by
  refine Tree.induct ?_ ?_
  case refine_1 =>
    intro token following _
    simp [Tree.work, Tree.yield, Tree.sym, Budget.cost]
  case refine_2 =>
    intro rule children each following derives
    rw [Tree.Derives] at derives
    obtain ⟨known, symbols, -, all⟩ := derives
    have below := works_cost each all
    have rules := covers.rules rule known
    rw [symbols] at below
    rw [Tree.work, Tree.yield, Tree.sym, Budget.cost]
    push_cast
    omega

theorem cost_le_most (covers : B.Covers G) {kind : τ → Nat} {tree : Tree τ} {following : Nat}
    (derives : tree.Derives G kind following) :
    B.cost (tree.sym G kind) ≤ B.most := by
  cases tree with
  | leaf token =>
    have positive := covers.positive
    rw [Tree.sym, Budget.cost]
    omega
  | node rule children =>
    rw [Tree.Derives] at derives
    exact covers.most rule derives.1

theorem works_le (covers : B.Covers G) {kind : τ → Nat} {trees : List (Tree τ)} {following : Nat}
    (derive : DeriveAll G kind following trees) :
    works trees ≤ B.charge * (yields trees).length + B.most * trees.length := by
  induction trees with
  | nil => exact Nat.zero_le _
  | cons tree trees ih =>
    rw [DeriveAll] at derive
    have first := tree.work_cost covers _ derive.1
    have most := cost_le_most covers derive.1
    have rest := ih derive.2
    rw [works, yields, List.length_append, List.length_cons, Nat.mul_add, Nat.mul_succ]
    have own : tree.work ≤ B.charge * tree.yield.length + B.most := by
      zify
      omega
    omega

end Work
section Ends
variable {τ ν γ σ ε : Type} {F : Forecast} {I : Items} {G : Grammar} {T : Tables}
  {D : Driver τ ν γ σ ε} {B : Budget}

/-- A source with no more than some number of tokens in front of the end. -/
def Lasts (D : Driver τ ν γ σ ε) : Nat → σ → Prop
  | 0, source => ∀ token after, D.next source = .ok (token, after) → D.kind token = 0
  | count + 1, source => ∀ token after, D.next source = .ok (token,
      after) → D.kind token = 0 ∨ Lasts D count after

def Left (D : Driver τ ν γ σ ε) (look : Option τ) (source : σ) (count : Nat) : Prop :=
  match look with
  | none => Lasts D count source
  | some token => D.kind token = 0 ∨ ∃ fewer, count = fewer + 1 ∧ Lasts D fewer source

theorem Left.peek {c : Config τ ν γ σ} {count : Nat} {token : τ} {source : σ}
    (left : Left D c.look c.source count) (peeked : peek D c = .ok (token, source)) :
    Left D (some token) source count := by
  rw [ShiftReduce.peek] at peeked
  cases looked : c.look with
  | some other =>
    rw [looked] at peeked left
    cases peeked
    exact left
  | none =>
    rw [looked] at peeked left
    cases count with
    | zero => exact .inl (left token source peeked)
    | succ count => exact (left token source peeked).imp_right fun rest => ⟨count, rfl, rest⟩

theorem length_le_rooms (trees : List (Tree τ)) : trees.length ≤ rooms trees := by
  induction trees with
  | nil => exact Nat.le_refl 0
  | cons tree trees ih =>
    rw [rooms, List.length_cons]
    exact Nat.le_trans (Nat.succ_le_succ ih) (Nat.le_max_right _ _)

/-- The work so far, against the tokens that it was for. -/
theorem Built.work_lt (covers : B.Covers G) {first : γ} {c : Config τ ν γ σ} {trees : List (Tree τ)}
    (built : Built F I G T D first c trees) (limit : 0 < D.limit) :
    works trees.reverse < B.charge * (yields trees.reverse).length + B.most * D.limit := by
  have positive := covers.positive
  have short : trees.reverse.length < D.limit := by
    rcases built.room with none | room
    · rw [none]
      exact limit
    · have long := length_le_rooms trees.reverse
      omega
  have derive : ∃ following, DeriveAll G D.kind following trees.reverse := by
    cases looked : c.look with
    | none => exact ⟨0, built.derive 0 fun token is => by rw [looked] at is; cases is⟩
    | some token =>
      refine ⟨D.kind token, built.derive _ fun other is => ?_⟩
      rw [looked] at is
      cases is
      rfl
  obtain ⟨following, derive⟩ := derive
  have all := works_le covers derive
  have stack : B.most * trees.reverse.length < B.most * D.limit := Nat.mul_lt_mul_of_pos_left short positive
  omega

/-- From a stack on the parser needs no more steps than the tokens that are left pay for. -/
theorem run_ends (sound : TablesSound F I G T) (kinds : ∀ token, D.kind token < F.kinds) (covers : B.Covers G)
    (limit : 0 < D.limit) {first : γ} : ∀ {fuel count : Nat} {c : Config τ ν γ σ} {trees : List (Tree τ)},
    Built F I G T D first c trees →
      Left D c.look c.source count →
      B.charge * ((yields trees.reverse).length + count) + B.most * D.limit ≤ works trees.reverse + fuel →
        (run T D fuel c).isSome = true := by
  intro fuel
  induction fuel with
  | zero =>
    intro count c trees built left enough
    have work := built.work_lt covers limit
    rw [Nat.mul_add] at enough
    omega
  | succ fuel ih =>
    intro count c trees built left enough
    rw [run]
    split
    · rfl
    · rfl
    · rename_i next stopped
      obtain ⟨rule, own, base, parts, after, ahead⟩ | ⟨token, source, real, peeked, blind, rest, after⟩ :=
        built.step sound kinds stopped
      · have same : Left D next.look next.source count := by
          obtain ⟨look, source⟩ | ⟨token, source, peeked, look, rest⟩ := ahead
          · rw [look, source]
            exact left
          · rw [look, rest]
            exact left.peek peeked
        refine ih after same ?_
        rw [parts, works_append, yields_append] at enough
        rw [List.reverse_cons, works_append, yields_append, works, works, yields, yields, Tree.work,
          Tree.yield, List.append_nil]
        omega
      · obtain ended | ⟨fewer, rfl, lasts⟩ := left.peek peeked
        · exact absurd ended real
        have fresh : Left D next.look next.source fewer := by
          rw [blind, rest]
          exact lasts
        refine ih after fresh ?_
        rw [List.reverse_cons, works_append, yields_append, works, works, yields, yields, Tree.work,
          Tree.yield, List.append_nil,
          List.length_append, List.length_singleton, Nat.add_assoc _ 1 fewer, Nat.add_comm 1 fewer]
        omega

/-- A parser comes to an end, after a number of steps that grows with the number of the tokens only. -/
theorem parse_ends (sound : TablesSound F I G T) (kinds : ∀ token, D.kind token < F.kinds) (covers : B.Covers G)
    (limit : 0 < D.limit) {source : σ} {count fuel : Nat} {first : γ} (lasts : Lasts D count source)
    (enough : B.charge * count + B.most * D.limit ≤ fuel) :
    (run T D fuel ⟨[], none, source, first⟩).isSome = true := by
  refine run_ends sound kinds covers limit (Built.nil first source) lasts ?_
  rw [List.reverse_nil, yields, works, List.length_nil, Nat.zero_add, Nat.zero_add]
  exact enough

end Ends
section Unique
variable {τ ν γ σ ε : Type} {F : Forecast} {I : Items} {G : Grammar} {T : Tables} {D : Driver τ ν γ σ ε}

theorem Remains.unique {look : Option τ} {source : σ} {first : List τ} (remains : Remains D look source first) :
    ∀ {second : List τ}, Remains D look source second → first = second := by
  induction remains with
  | ended token source ended =>
    intro second other
    cases other with
    | ended => rfl
    | held _ _ _ real _ => exact absurd ended real
  | held token source tokens real _ ih =>
    intro second other
    cases other with
    | ended _ _ ended => exact absurd ended real
    | held _ _ tokens _ rest => rw [ih rest]
  | read source after token tokens next _ ih =>
    intro second other
    cases other with
    | read _ after' token' _ next' rest =>
      rw [next] at next'
      cases next'
      exact ih rest

theorem Remains.ends {look : Option τ} {source : σ} {tokens : List τ} (remains : Remains D look source tokens) :
    (∃ token, D.kind token = 0) ∧ ∀ token ∈ tokens, D.kind token ≠ 0 := by
  induction remains with
  | ended token source ended => exact ⟨⟨token, ended⟩, List.forall_mem_nil _⟩
  | held token source tokens real _ ih => exact ⟨ih.1, List.forall_mem_cons.mpr ⟨real, ih.2⟩⟩
  | read source after token tokens next _ ih => exact ih

/-- The parser of a list of tokens that makes the tree itself. -/
def treeDriver (T : Tables) (kind : τ → Nat) (last : τ) (limit : Nat) :
    Driver τ (Tree τ) (Option (Tree τ)) (List τ) Unit where
  next := fun tokens =>
    match tokens with
    | [] => .ok (last, [])
    | token :: rest => .ok (token, rest)
  kind := kind
  shifted := .leaf
  reduced := fun rule values _ => .ok (.node rule (values.take (T.size rule)).reverse,
    some (.node rule (values.take (T.size rule)).reverse))
  limit := limit
  rejected := ()
  exhausted := ()

section TreeDriver
variable {kind : τ → Nat} {last : τ} {limit : Nat}

theorem treeDriver_remains (ended : kind last = 0) : ∀ {tokens : List τ},
    (∀ token ∈ tokens, kind token ≠ 0) →
    Remains (treeDriver T kind last limit) none tokens tokens
  | [], _ => .read _ _ _ _ rfl (.ended last [] ended)
  | token :: tokens, real => by
    rw [List.forall_mem_cons] at real
    exact .read _ _ _ _ rfl (.held token tokens tokens real.1 (treeDriver_remains ended real.2))

theorem treeDriver_evals {trees : List (Tree τ)}
    (each : ∀ tree ∈ trees, ∀ following below env, tree.Derives G kind following →
      ∃ after, tree.eval (treeDriver T kind last limit) below env = .ok (tree, after)) :
    ∀ {following : Nat} (below : List (Tree τ)) (env : Option (Tree τ)), DeriveAll G kind following trees →
      ∃ after, evals (treeDriver T kind last limit) below env trees = .ok (trees.reverse ++ below, after) := by
  induction trees with
  | nil => exact fun below env _ => ⟨env, rfl⟩
  | cons tree trees ih =>
    intro following below env derive
    rw [DeriveAll] at derive
    rw [List.forall_mem_cons] at each
    obtain ⟨middle, first⟩ := each.1 _ below env derive.1
    obtain ⟨after, rest⟩ := ih each.2 (tree :: below) middle derive.2
    refine ⟨after, evals_cons.mpr ⟨tree, middle, first, ?_⟩⟩
    rw [rest, List.reverse_cons, List.append_assoc]
    rfl

theorem treeDriver_node (complete : TablesComplete F G T) {rule : Nat} {children : List (Tree τ)} {following : Nat}
    {below : List (Tree τ)} {env middle : Option (Tree τ)}
    (derives : (Tree.node rule children).Derives G kind following)
    (ran : evals (treeDriver T kind last limit) below env children = .ok (children.reverse ++ below, middle)) :
    (Tree.node rule children).eval (treeDriver T kind last limit) below env =
      .ok (.node rule children, some (.node rule children)) := by
  rw [Tree.Derives] at derives
  obtain ⟨known, symbols, -, -⟩ := derives
  have size : T.size rule = children.reverse.length := by
    rw [complete.size rule known, ← symbols, List.length_map, List.length_reverse]
  rw [Tree.eval, ran]
  change Except.ok (Tree.node rule ((children.reverse ++ below).take (T.size rule)).reverse, _) = _
  rw [size, List.take_left, List.reverse_reverse]

theorem treeDriver_eval (complete : TablesComplete F G T) : ∀ tree : Tree τ, ∀ following below env,
    tree.Derives G kind following →
    ∃ after, tree.eval (treeDriver T kind last limit) below env = .ok (tree, after) := by
  refine Tree.induct ?_ ?_
  case refine_1 => exact fun token following below env _ => ⟨env, rfl⟩
  case refine_2 =>
    intro rule children each following below env derives
    have all := derives
    rw [Tree.Derives] at all
    obtain ⟨middle, ran⟩ := treeDriver_evals each below env all.2.2.2
    exact ⟨_, treeDriver_node complete derives ran⟩

end TreeDriver

/-- The parser of trees gives back every tree that it has room for. -/
theorem treeDriver_accepts (complete : TablesComplete F G T) {kind : τ → Nat} {last : τ} (ended : kind last = 0)
    {tree : Tree τ} {limit : Nat} (symbol : tree.sym G kind = .nonterminal G.start) (derives : tree.Derives G kind 0)
    (real : ∀ token ∈ tree.yield, kind token ≠ 0) (room : tree.room + 1 < limit) :
    ∃ fuel, run T (treeDriver T kind last limit) fuel ⟨[], none, tree.yield, none⟩ = some (.ok (some tree)) := by
  cases tree with
  | leaf token => cases symbol
  | node rule children =>
    have all := derives
    rw [Tree.Derives] at all
    obtain ⟨middle, ran⟩ := treeDriver_evals (fun tree _ => treeDriver_eval complete tree) [] none all.2.2.2
    exact accepts_tree complete symbol derives (treeDriver_node complete derives ran) room
      (treeDriver_remains ended real)

theorem tree_unique (complete : TablesComplete F G T) {kind : τ → Nat} {last : τ} (ended : kind last = 0)
    {first second : Tree τ}
    (symbols : first.sym G kind = .nonterminal G.start ∧ second.sym G kind = .nonterminal G.start)
    (derives : first.Derives G kind 0 ∧ second.Derives G kind 0) (real : ∀ token ∈ first.yield, kind token ≠ 0)
    (same : first.yield = second.yield) : first = second := by
  have rooms : first.room + 1 < first.room + second.room + 2 ∧ second.room + 1 < first.room + second.room + 2 := by
    omega
  obtain ⟨one, accepts⟩ := treeDriver_accepts complete ended symbols.1 derives.1 real rooms.1
  obtain ⟨other, accepts'⟩ := treeDriver_accepts complete ended symbols.2 derives.2 (same ▸ real) rooms.2
  have long := run_more accepts other
  have long' := run_more accepts' one
  rw [same, Nat.add_comm one other, long'] at long
  cases long
  rfl

/-- Checked tables accept what has a tree, with its value. The tree is the only one. -/
theorem accepted_unique (complete : TablesComplete F G T) (sound : TablesSound F I G T)
    (kinds : ∀ token, D.kind token < F.kinds) {source : σ} {first result : γ} :
    (∃ fuel, run T D fuel ⟨[], none, source, first⟩ = some (.ok result)) ↔
      ∃! tree, Remains D none source tree.yield ∧ Parse G D first result tree := by
  rw [accepted_iff complete sound kinds]
  refine ⟨fun ⟨tree, remains, parse⟩ => ⟨tree, ⟨remains, parse⟩, ?_⟩, ExistsUnique.exists⟩
  rintro other ⟨remains', parse'⟩
  obtain ⟨⟨last, ended⟩, real⟩ := remains'.ends
  exact tree_unique complete ended ⟨parse'.symbol, parse.symbol⟩ ⟨parse'.derives, parse.derives⟩ real
    (remains'.unique remains)

end Unique
end ShiftReduce
