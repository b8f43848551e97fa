import TRex.Lib.StackMachine

/-!
# Guarded evaluation

An operator may have no result for some operands, and then the evaluation of the whole expression
stops. Where every result stands for a value in another domain, in which all operators are total,
the evaluation gets through exactly if no operator of the expression is undefined for the values
that its operands have there (`isSome_evalGuarded_iff`), and its result stands for the value of the
whole (`evalGuarded_stands`). A stack machine that stops at the same operators has the same result
(`run_guarded`). -/

namespace StackMachine.Expr

universe u v x y

variable {L : Type u} {O : Type v} {α : Type x} {β : Type y}

/-- The operators with their operands. -/
def operators : Expr L O → List (O × Expr L O × Expr L O)
  | leaf _ => []
  | node op left right => (op, left, right) :: (left.operators ++ right.operators)

def leaves : Expr L O → List L
  | leaf l => [l]
  | node _ left right => left.leaves ++ right.leaves

/-- The left operand is evaluated before the right one. -/
def evalGuarded (value : L → α) (result : O → α → α → Option α) : Expr L O → Option α
  | leaf l => some (value l)
  | node op left right => do
    let a ← left.evalGuarded value result
    let b ← right.evalGuarded value result
    result op a b

/-- An operator is undefined, or its result stands for the value in the other domain. -/
def Stands (R : α → β → Prop) (result : O → α → α → Option α) (apply : O → β → β → β)
    (Undefined : O → β → β → Prop) : Prop :=
  ∀ op a b a' b', R a a' → R b b' →
    (Undefined op a' b' ∧ result op a b = none) ∨
      (¬ Undefined op a' b' ∧ ∃ c, result op a b = some c ∧ R c (apply op a' b'))

variable {R : α → β → Prop} {value : L → α} {result : O → α → α → Option α} {value' : L → β}
  {apply : O → β → β → β} {Undefined : O → β → β → Prop}

/-- Either some operator is undefined and the evaluation stops, or none is and it ends with what
stands for the value. -/
theorem evalGuarded_stands (ops : Stands R result apply Undefined) (e : Expr L O)
    (leaves : ∀ l ∈ e.leaves, R (value l) (value' l)) :
    (e.evalGuarded value result = none ∧ ∃ n ∈ e.operators,
      Undefined n.1 (n.2.1.eval value' apply) (n.2.2.eval value' apply)) ∨
    (∃ c, e.evalGuarded value result = some c ∧ R c (e.eval value' apply)) ∧
      ∀ n ∈ e.operators, ¬ Undefined n.1 (n.2.1.eval value' apply) (n.2.2.eval value' apply) := by
  induction e with
  | leaf l => exact .inr ⟨⟨value l, rfl, leaves l List.mem_cons_self⟩, List.forall_mem_nil _⟩
  | node op left right ihLeft ihRight =>
      rw [Expr.leaves, List.forall_mem_append] at leaves
      rw [evalGuarded, operators]
      rcases ihLeft leaves.1 with ⟨stopped, n, mem, undefined⟩ | ⟨⟨a, gotA, standsA⟩, fineLeft⟩
      · rw [stopped]
        exact .inl ⟨rfl, n, List.mem_cons_of_mem _ (List.mem_append_left _ mem), undefined⟩
      rcases ihRight leaves.2 with ⟨stopped, n, mem, undefined⟩ | ⟨⟨b, gotB, standsB⟩, fineRight⟩
      · rw [gotA, stopped]
        exact .inl ⟨rfl, n, List.mem_cons_of_mem _ (List.mem_append_right _ mem), undefined⟩
      rw [gotA, gotB, List.forall_mem_cons, List.forall_mem_append]
      rcases ops op a b _ _ standsA standsB with ⟨undefined, stopped⟩ | ⟨fine, c, got, stands⟩
      · exact .inl ⟨stopped, (op, left, right), List.mem_cons_self, undefined⟩
      · exact .inr ⟨⟨c, got, stands⟩, fine, fineLeft, fineRight⟩

theorem isSome_evalGuarded_iff (ops : Stands R result apply Undefined) (e : Expr L O)
    (leaves : ∀ l ∈ e.leaves, R (value l) (value' l)) :
    (e.evalGuarded value result).isSome = true ↔
      ∀ n ∈ e.operators, ¬ Undefined n.1 (n.2.1.eval value' apply) (n.2.2.eval value' apply) := by
  rcases evalGuarded_stands ops e leaves with ⟨stopped, n, mem, undefined⟩ | ⟨⟨c, got, -⟩, fine⟩
  · rw [stopped]
    exact iff_of_false Bool.false_ne_true fun fine => fine n mem undefined
  · rw [got]
    exact iff_of_true rfl fine

/-- Total operators that agree with the guarded ones agree on whole expressions. -/
theorem eval_of_evalGuarded {apply : O → α → α → α}
    (agrees : ∀ op a b c, result op a b = some c → apply op a b = c) (e : Expr L O) {v : α}
    (evaluates : e.evalGuarded value result = some v) : e.eval value apply = v := by
  induction e generalizing v with
  | leaf l =>
      cases evaluates
      rfl
  | node op left right ihLeft ihRight =>
      simp only [evalGuarded, Option.bind_eq_bind, Option.bind_eq_some_iff] at evaluates
      obtain ⟨a, ofLeft, b, ofRight, applied⟩ := evaluates
      rw [eval, ihLeft ofLeft, ihRight ofRight]
      exact agrees op a b v applied

end StackMachine.Expr

namespace StackMachine.Encodes

universe u v w x

variable {L : Type u} {O : Type v} {T : Type w} {α : Type x}
  {step : List α → T → Option (List α)} {capacity : Nat} {value : L → α}
  {result : O → α → α → Option α} {ts : List T} {e : Expr L O}

/-- The cell of an operator replaces its two operands by the result, if there is one. -/
def Yields (step : List α → T → Option (List α)) (result : O → α → α → Option α) (t : T) (op : O) :
    Prop :=
  ∀ a b s, step (a :: b :: s) t = (result op a b).map (· :: s)

/-- Where the evaluation has a result, the run of the cells puts it on the stack. -/
theorem run_guarded (encodes : Encodes (Pushes step capacity value) (Yields step result) ts e)
    (s : List α) (room : s.length + e.leafCount ≤ capacity) {v : α}
    (evaluates : e.evalGuarded value result = some v) :
    ts.reverse.foldlM step s = some (v :: s) := by
  induction encodes generalizing s v with
  | @leaf t l here =>
      cases evaluates
      rw [List.reverse_singleton, foldlM_singleton]
      exact here s room
  | @node t op ts us left right here first second ihFirst ihSecond =>
      simp only [Expr.evalGuarded, Option.bind_eq_bind, Option.bind_eq_some_iff] at evaluates
      obtain ⟨a, ofLeft, b, ofRight, applied⟩ := evaluates
      have pos := left.leafCount_pos
      simp only [Expr.leafCount] at room
      have roomLeft : (b :: s).length + left.leafCount ≤ capacity := by
        have rightPos := right.leafCount_pos
        rw [List.length_cons]
        omega
      rw [List.reverse_cons, List.reverse_append, List.foldlM_append, List.foldlM_append,
        ihSecond s (by omega) ofRight, Option.bind_eq_bind, Option.bind_some,
        ihFirst _ roomLeft ofLeft, Option.bind_some, foldlM_singleton, here, applied]
      rfl

end StackMachine.Encodes
