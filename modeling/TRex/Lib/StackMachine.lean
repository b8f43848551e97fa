import Mathlib.Algebra.Group.Nat.Defs
import Mathlib.Data.List.Basic

/-!
# Expressions in prefix order on a stack

A binary expression is written out as a list of cells, an operator before its two operands, and the
list is run from its last cell to its first one on a stack. Each cell of an operand puts a value on
the stack, and an operator finds its left operand on top.

An operator that takes both operands and puts back its result computes the value of the expression
(`Encodes.run`). One that takes at most the operand on top leaves the value of the last leaf at the
bottom, whatever the operators are (`Encodes.run_bottom`). Where every operator takes one value more
than it puts back, there are never more values on the stack than leaves
(`Encodes.length_le_of_take`).
-/

namespace StackMachine

universe u v w x

variable {L : Type u} {O : Type v} {T : Type w} {α : Type x}

/-! ## Expressions -/

inductive Expr (L : Type u) (O : Type v)
  | leaf (l : L)
  | node (op : O) (left right : Expr L O)

namespace Expr

def size : Expr L O → Nat
  | leaf _ => 1
  | node _ left right => 1 + left.size + right.size

def leafCount : Expr L O → Nat
  | leaf _ => 1
  | node _ left right => left.leafCount + right.leafCount

def height : Expr L O → Nat
  | leaf _ => 0
  | node _ left right => max left.height right.height + 1

/-- The leaf that is written last. -/
def lastLeaf : Expr L O → L
  | leaf l => l
  | node _ _ right => right.lastLeaf

def eval (value : L → α) (apply : O → α → α → α) : Expr L O → α
  | leaf l => value l
  | node op left right => apply op (left.eval value apply) (right.eval value apply)

theorem leafCount_pos (e : Expr L O) : 0 < e.leafCount := by
  cases e with
  | leaf l => exact Nat.one_pos
  | node op left right => exact Nat.add_pos_left left.leafCount_pos _

theorem size_eq (e : Expr L O) : e.size + 1 = 2 * e.leafCount := by
  induction e with
  | leaf l => rfl
  | node op left right ihLeft ihRight =>
      rw [size, leafCount]
      omega

theorem leafCount_le (e : Expr L O) : e.leafCount ≤ 2 ^ e.height := by
  induction e with
  | leaf l => exact Nat.le_refl 1
  | node op left right ihLeft ihRight =>
      have leftLe := Nat.pow_le_pow_right Nat.two_pos (Nat.le_max_left left.height right.height)
      have rightLe := Nat.pow_le_pow_right Nat.two_pos (Nat.le_max_right left.height right.height)
      simp only [leafCount, height, Nat.pow_succ]
      omega

theorem size_lt (e : Expr L O) : e.size < 2 ^ (e.height + 1) := by
  induction e with
  | leaf l => exact Nat.one_lt_two
  | node op left right ihLeft ihRight =>
      have leftLe := Nat.pow_le_pow_right Nat.two_pos
        (Nat.succ_le_succ (Nat.le_max_left left.height right.height))
      have rightLe := Nat.pow_le_pow_right Nat.two_pos
        (Nat.succ_le_succ (Nat.le_max_right left.height right.height))
      simp only [size, height]
      rw [Nat.pow_succ]
      simp only [Nat.succ_eq_add_one] at leftLe rightLe
      omega

theorem height_lt_size (e : Expr L O) : 2 * e.height < e.size := by
  induction e with
  | leaf l => exact Nat.one_pos
  | node op left right ihLeft ihRight =>
      rw [size, height]
      omega

end Expr

/-! ## Cells -/

/-- The cells are an expression in prefix order, a cell standing for a leaf or for an operator as
the two relations say. -/
inductive Encodes (isLeaf : T → L → Prop) (isOp : T → O → Prop) : List T → Expr L O → Prop
  | leaf {t : T} {l : L} (here : isLeaf t l) : Encodes isLeaf isOp [t] (.leaf l)
  | node {t : T} {op : O} {ts us : List T} {left right : Expr L O} (here : isOp t op)
    (first : Encodes isLeaf isOp ts left) (second : Encodes isLeaf isOp us right) :
    Encodes isLeaf isOp (t :: (ts ++ us)) (.node op left right)

namespace Encodes

variable {isLeaf : T → L → Prop} {isOp : T → O → Prop} {ts : List T} {e : Expr L O}

theorem length (encodes : Encodes isLeaf isOp ts e) : ts.length = e.size := by
  induction encodes with
  | leaf here => rfl
  | node here first second ihFirst ihSecond =>
      simp only [List.length_cons, List.length_append, ihFirst, ihSecond, Expr.size]
      omega

theorem map {U : Type w} {isLeaf' : U → L → Prop} {isOp' : U → O → Prop} {f : T → U}
    (leaves : ∀ t l, isLeaf t l → isLeaf' (f t) l) (ops : ∀ t op, isOp t op → isOp' (f t) op)
    (encodes : Encodes isLeaf isOp ts e) : Encodes isLeaf' isOp' (ts.map f) e := by
  induction encodes with
  | leaf here => exact .leaf (leaves _ _ here)
  | node here first second ihFirst ihSecond =>
      rw [List.map_cons, List.map_append]
      exact .node (ops _ _ here) ihFirst ihSecond

theorem forall_mem {P : T → Prop} (leaves : ∀ t l, isLeaf t l → P t)
    (ops : ∀ t op, isOp t op → P t) (encodes : Encodes isLeaf isOp ts e) : ∀ t ∈ ts, P t := by
  induction encodes with
  | leaf here => exact List.forall_mem_singleton.mpr (leaves _ _ here)
  | node here first second ihFirst ihSecond =>
      exact List.forall_mem_cons.mpr
        ⟨ops _ _ here, List.forall_mem_append.mpr ⟨ihFirst, ihSecond⟩⟩

/-! ## Running the cells -/

variable {step : List α → T → Option (List α)} {capacity : Nat} {value : L → α}

/-- The cell of a leaf pushes its value as long as there is room. -/
def Pushes (step : List α → T → Option (List α)) (capacity : Nat) (value : L → α) (t : T) (l : L) :
    Prop :=
  ∀ s : List α, s.length < capacity → step s t = some (value l :: s)

/-- The cell of an operator replaces its two operands by the result. -/
def Replaces (step : List α → T → Option (List α)) (apply : O → α → α → α) (t : T) (op : O) :
    Prop :=
  ∀ a b s, step (a :: b :: s) t = some (apply op a b :: s)

/-- The cell of an operator leaves its operands there, but for the one on top perhaps. -/
def Uncovers (step : List α → T → Option (List α)) (t : T) (_ : O) : Prop :=
  ∀ a b s, step (a :: b :: s) t = some (a :: b :: s) ∨ step (a :: b :: s) t = some (b :: s)

theorem Uncovers.run {t : T} {op : O} (uncovers : Uncovers step t op) {a y : α} {above s : List α} :
    step (a :: (above ++ y :: s)) t = some (a :: (above ++ y :: s)) ∨
      step (a :: (above ++ y :: s)) t = some (above ++ y :: s) := by
  cases above with
  | nil => exact uncovers a y s
  | cons b rest => exact uncovers a b (rest ++ y :: s)

theorem run {apply : O → α → α → α}
    (encodes : Encodes (Pushes step capacity value) (Replaces step apply) ts e) (s : List α)
    (room : s.length + e.leafCount ≤ capacity) :
    ts.reverse.foldlM step s = some (e.eval value apply :: s) := by
  induction encodes generalizing s with
  | leaf here => exact (List.foldlM_cons ..).trans (by rw [here s room]; rfl)
  | @node t op ts us left right here first second ihFirst ihSecond =>
      have pos := left.leafCount_pos
      have rightPos := right.leafCount_pos
      simp only [Expr.leafCount] at room
      have roomLeft : (right.eval value apply :: s).length + left.leafCount ≤ capacity := by
        rw [List.length_cons]
        omega
      rw [List.reverse_cons, List.reverse_append, List.foldlM_append, List.foldlM_append,
        ihSecond s (by omega), Option.bind_eq_bind, Option.bind_some, ihFirst _ roomLeft]
      exact (List.foldlM_cons ..).trans (by rw [here]; rfl)

theorem run_bottom (encodes : Encodes (Pushes step capacity value) (Uncovers step) ts e)
    (s : List α) (room : s.length + e.leafCount ≤ capacity) :
    ∃ above, ts.reverse.foldlM step s = some (above ++ value e.lastLeaf :: s) ∧
      above.length < e.leafCount := by
  induction encodes generalizing s with
  | leaf here =>
      exact ⟨[], (List.foldlM_cons ..).trans (by rw [here s room]; rfl), Nat.one_pos⟩
  | @node t op ts us left right here first second ihFirst ihSecond =>
      simp only [Expr.leafCount] at room
      obtain ⟨above, ranRight, few⟩ := ihSecond s (by omega)
      have roomLeft : (above ++ value right.lastLeaf :: s).length + left.leafCount ≤ capacity := by
        rw [List.length_append, List.length_cons]
        omega
      obtain ⟨above', ranLeft, few'⟩ := ihFirst _ roomLeft
      have ran : (t :: (ts ++ us)).reverse.foldlM step s =
          step (above' ++ value left.lastLeaf :: (above ++ value right.lastLeaf :: s)) t := by
        rw [List.reverse_cons, List.reverse_append, List.foldlM_append, List.foldlM_append,
          ranRight, Option.bind_eq_bind, Option.bind_some, ranLeft]
        exact (List.foldlM_cons ..).trans (bind_pure _)
      rw [ran, Expr.leafCount, Expr.lastLeaf]
      -- whatever the operator drops lies above the last leaf of the right operand
      obtain ⟨a, rest, whole⟩ :=
        List.exists_cons_of_ne_nil (List.append_ne_nil_of_right_ne_nil above'
          (List.cons_ne_nil (value left.lastLeaf) above))
      have count := congrArg List.length whole
      simp only [List.length_append, List.length_cons] at count
      rw [show above' ++ value left.lastLeaf :: (above ++ value right.lastLeaf :: s) =
        a :: (rest ++ value right.lastLeaf :: s) by
          rw [← List.cons_append, ← List.append_assoc, whole, List.cons_append]]
      rcases here.run with kept | dropped
      · exact ⟨a :: rest, kept, by rw [List.length_cons]; omega⟩
      · exact ⟨rest, dropped, by omega⟩

/-! ## The height of the stack -/

/-- The cell of a leaf adds one value, if it has a result. -/
def Grows (step : List α → T → Option (List α)) (t : T) (_ : L) : Prop :=
  ∀ s s', step s t = some s' → s'.length = s.length + 1

/-- The cell of an operator takes one value more than it puts back, if it has a result. -/
def Shrinks (step : List α → T → Option (List α)) (t : T) (_ : O) : Prop :=
  ∀ s s', step s t = some s' → s'.length + 1 = s.length

theorem foldlM_singleton (t : T) (s : List α) : [t].foldlM step s = step s t :=
  (List.foldlM_cons ..).trans (bind_pure _)

theorem length_of_run (encodes : Encodes (Grows step) (Shrinks step) ts e) {s s' : List α}
    (ran : ts.reverse.foldlM step s = some s') : s'.length = s.length + 1 := by
  induction encodes generalizing s s' with
  | @leaf t l here =>
      rw [List.reverse_singleton, foldlM_singleton] at ran
      exact here s s' ran
  | @node t op ts us left right here first second ihFirst ihSecond =>
      rw [List.reverse_cons, List.reverse_append, List.foldlM_append, Option.bind_eq_bind,
        Option.bind_eq_some_iff] at ran
      obtain ⟨s₂, operands, top⟩ := ran
      rw [List.foldlM_append, Option.bind_eq_bind, Option.bind_eq_some_iff] at operands
      obtain ⟨s₁, onRight, onLeft⟩ := operands
      rw [foldlM_singleton] at top
      have shrunk := here s₂ s' top
      rw [ihFirst onLeft, ihSecond onRight] at shrunk
      omega

/-- After any number of cells, there are no more values on the stack than the expression has
leaves. -/
theorem length_le_of_take (encodes : Encodes (Grows step) (Shrinks step) ts e) (k : Nat)
    {s s' : List α} (ran : (ts.reverse.take k).foldlM step s = some s') :
    s'.length ≤ s.length + e.leafCount := by
  induction encodes generalizing k s s' with
  | @leaf t l here =>
      rw [List.reverse_singleton] at ran
      cases k with
      | zero =>
          cases ran
          exact Nat.le_add_right _ _
      | succ k =>
          rw [List.take_of_length_le (Nat.le_add_left 1 k), foldlM_singleton] at ran
          exact Nat.le_of_eq (here s s' ran)
  | @node t op ts us left right here first second ihFirst ihSecond =>
      have pos := left.leafCount_pos
      have rightPos := right.leafCount_pos
      rw [Expr.leafCount]
      rw [List.reverse_cons, List.reverse_append, List.append_assoc, List.take_append,
        List.foldlM_append, Option.bind_eq_bind, Option.bind_eq_some_iff] at ran
      obtain ⟨s₁, onRight, rest⟩ := ran
      by_cases within : k ≤ us.reverse.length
      · -- the right operand is not finished
        rw [Nat.sub_eq_zero_of_le within, List.take_zero] at rest
        cases rest
        have few := ihSecond k onRight
        omega
      · rw [List.take_of_length_le (by omega)] at onRight
        have afterRight := length_of_run second onRight
        rw [List.take_append, List.foldlM_append, Option.bind_eq_bind,
          Option.bind_eq_some_iff] at rest
        obtain ⟨s₂, onLeft, top⟩ := rest
        by_cases within' : k - us.reverse.length ≤ ts.reverse.length
        · rw [Nat.sub_eq_zero_of_le within', List.take_zero] at top
          cases top
          have few := ihFirst _ onLeft
          omega
        · rw [List.take_of_length_le (by omega)] at onLeft
          rw [List.take_of_length_le (by rw [List.length_singleton]; omega), foldlM_singleton]
            at top
          have afterLeft := length_of_run first onLeft
          have shrunk := here s₂ s' top
          omega

end Encodes

end StackMachine
