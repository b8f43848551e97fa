import Mathlib.Algebra.BigOperators.Group.List.Basic
import Mathlib.Algebra.Order.Field.Rat
import Mathlib.Data.Rat.Cast.Order
import Mathlib.Tactic.Ring
import TRex.Lib.Extremes
import TRex.Lib.FloatOrder
import TRex.CompositeEventGenerator
import TRex.StacksInvariant

/-!
# The value of an aggregate

`computeAggregate` over any kind of numbers: `floats` are the numbers of the engine, and
`exactNumbers` are rationals beside one element that is no number. The events that an aggregate
ranges over are the qualifying ones, those strictly inside its interval that satisfy its parameters
(`entering_eq`).

* Over exact numbers the one pass computes number, sum, least, greatest and average of the values of
  the qualifying events (`computeAggregate_qualifying`).
* With no qualifying event there are two exits: one where the interval is empty, which answers no
  number, and one behind the loop, which answers the values that the loop starts from.
* Over floats the order of the values counts: a first value that is no number stays the least and
  the greatest one, and sums and averages depend on what is lost to rounding
  (`answer_floats_eq_iff`). Together, this says when the same values have the same result
  (`computeAggregate_alike_iff`).
-/

namespace TRex

open FloatOrder (Extended)

/-! ## Numbers -/

/-- What `computeAggregate` needs of the type it computes with. -/
structure Numbers (α : Type) where
  ofInt : Int → α
  ofFloat : CFloat → α
  add : α → α → α
  div : α → α → α
  lt : α → α → Bool
  quietNaN : α

/-- `float`. -/
def floats : Numbers CFloat :=
  { ofInt := CFloat.ofInt, ofFloat := id, add := CFloat.add, div := CFloat.div, lt := CFloat.lt
    quietNaN := quietNaN }

/-- Numbers without rounding; `none` is no number, and so is what a division by zero gives. Each
float attribute stands for some rational. -/
def exactNumbers (rational : CFloat → ℚ) : Numbers (Option ℚ) :=
  { ofInt := fun v => some v
    ofFloat := fun f => some (rational f)
    add := fun x y => x.bind fun x => y.map fun y => x + y
    div := fun x y => x.bind fun x => y.bind fun y => if y = 0 then none else some (x / y)
    lt := fun x y => (x.bind fun x => y.map fun y => decide (x < y)).getD false
    quietNaN := none }

namespace Numbers

variable {α : Type} (N : Numbers α)

structure Acc (α : Type) where
  sum : α
  count : Int
  min : α
  max : α
  firstValue : Bool

/-- The value of an event: that of its attribute of the aggregate's name if it is a number. -/
def value (name : CString) (pkt : PubPktPtr) : α :=
  match attributeIn (some pkt) (some name) with
  | some (.int v) => N.ofInt v
  | some (.float f) => N.ofFloat f
  | _ => N.ofInt 0

/-- One turn of the loop of `computeAggregate`. -/
def step (acc : Acc α) (val : α) : Acc α :=
  let acc := { acc with count := acc.count + 1, sum := N.add acc.sum val }
  if acc.firstValue then { acc with min := val, max := val, firstValue := false }
  else if N.lt val acc.min then { acc with min := val }
  else if N.lt acc.max val then { acc with max := val }
  else acc

/-- A turn after the first one. -/
theorem step_next (acc : Acc α) (val : α) (lower higher : Bool) (isNext : acc.firstValue = false)
    (isLower : N.lt val acc.min = lower) (isHigher : N.lt acc.max val = higher) :
    N.step acc val = ⟨N.add acc.sum val, acc.count + 1, if lower then val else acc.min,
      if !lower && higher then val else acc.max, false⟩ := by
  cases lower <;> cases higher <;> simp [step, isNext, isLower, isHigher]

def start : Acc α := ⟨N.ofInt 0, 0, N.ofInt 0, N.ofInt 0, true⟩

/-- What is returned behind the loop. -/
def answer (fun_ : AggregateFun) (vals : List α) : α :=
  let acc := vals.foldl N.step N.start
  match fun_ with
  | .sum => acc.sum
  | .max => acc.max
  | .min => acc.min
  | .count => N.ofInt acc.count
  | .avg => N.div acc.sum (N.ofInt acc.count)
  | .none => N.ofInt 0

end Numbers

/-- The packets of the interval, if any, that the loop does not skip. -/
def Aggregates.entering (a : Aggregates) (index : Nat) (agg : Aggregate) (pe : PartialEvent) :
    List PubPktPtr :=
  ((a.window index agg pe).getD []).filter fun pkt =>
    checkParameters pkt pe (-1) .agg (a.aggregateParameters index)

/-- `CompositeEventGenerator::computeAggregate` over a kind of numbers. -/
def computeAggregateWith {α : Type} (N : Numbers α) (a : Aggregates) (index : Nat)
    (pe : PartialEvent) : α :=
  match a.aggregates[index]? with
  | none => N.ofInt 0
  | some agg =>
    match a.window index agg pe with
    | none => if agg.fun_ = .count then N.ofInt 0 else N.quietNaN
    | some _ => N.answer agg.fun_ ((a.entering index agg pe).map (N.value agg.name))

/-! ## The engine's numbers -/

def AggregateAcc.running (acc : AggregateAcc) : Numbers.Acc CFloat :=
  ⟨acc.sum, acc.count, acc.min, acc.max, acc.firstValue⟩

/-- One turn of the loop, given the value of the packet. -/
def AggregateAcc.take (acc : AggregateAcc) (val : CFloat) : AggregateAcc :=
  let acc := { acc with count := acc.count + 1, sum := acc.sum.add val }
  if acc.firstValue then { acc with min := val, max := val, firstValue := false }
  else if val.lt acc.min then { acc with min := val }
  else if acc.max.lt val then { acc with max := val }
  else acc

theorem AggregateAcc.take_next (acc : AggregateAcc) (val : CFloat) (lower higher : Bool)
    (isNext : acc.firstValue = false) (isLower : val.lt acc.min = lower)
    (isHigher : acc.max.lt val = higher) :
    acc.take val = ⟨acc.sum.add val, acc.count + 1, if lower then val else acc.min,
      if !lower && higher then val else acc.max, false⟩ := by
  cases lower <;> cases higher <;> simp [AggregateAcc.take, isNext, isLower, isHigher]

theorem AggregateAcc.running_take (acc : AggregateAcc) (val : CFloat) :
    floats.step acc.running val = (acc.take val).running := by
  cases isFirst : acc.firstValue with
  | true => simp [Numbers.step, AggregateAcc.take, AggregateAcc.running, isFirst, floats]
  | false =>
      rw [acc.take_next val _ _ isFirst rfl rfl,
        floats.step_next acc.running val _ _ isFirst rfl rfl]
      rfl

/-- The engine computes with floats. -/
theorem aggregateValue_eq_answer (agg : Aggregate) (pkts : List PubPktPtr) :
    aggregateValue agg pkts = floats.answer agg.fun_ (pkts.map (floats.value agg.name)) := by
  have loop : (pkts.map (floats.value agg.name)).foldl floats.step floats.start =
      (pkts.foldl (AggregateAcc.step agg.name)
        ⟨CFloat.ofInt 0, 0, CFloat.ofInt 0, CFloat.ofInt 0, true⟩).running := by
    rw [List.foldl_map]
    change pkts.foldl _
      (AggregateAcc.running ⟨CFloat.ofInt 0, 0, CFloat.ofInt 0, CFloat.ofInt 0, true⟩)
      = _
    exact List.foldl_hom AggregateAcc.running fun acc pkt => acc.running_take _
  unfold aggregateValue Numbers.answer
  rw [loop]
  rfl

theorem computeAggregate_eq_floats (a : Aggregates) (index : Nat) (pe : PartialEvent) :
    computeAggregate a index pe = computeAggregateWith floats a index pe := by
  unfold computeAggregate computeAggregateWith
  cases a.aggregates[index]? with
  | none => rfl
  | some agg =>
      cases window : a.window index agg pe with
      | none => simp only [window, floats]
      | some pkts =>
          simp only [Aggregates.entering, window, Option.getD_some, aggregateValue_eq_answer]

/-! ## Qualifying events -/

/-- A declared aggregate, its stack in order, and a partial result to compute it for. -/
structure Situation where
  a : Aggregates
  index : Nat
  agg : Aggregate
  pe : PartialEvent
  declared : a.aggregates[index]? = some agg
  sorted : TimeSorted (a.receivedAggs index)
  size : a.aggsSize index = (a.receivedAggs index).length

namespace Situation

variable (s : Situation)

/-- The events strictly inside the interval of the aggregate. -/
def inInterval : List PubPktPtr :=
  between (Aggregates.bounds s.agg s.pe).1 (Aggregates.bounds s.agg s.pe).2
    (s.a.receivedAggs s.index)

/-- Those that satisfy the parameters of the aggregate. -/
def qualifying : List PubPktPtr :=
  s.inInterval.filter fun pkt =>
    checkParameters pkt s.pe (-1) .agg (s.a.aggregateParameters s.index)

def result {α : Type} (N : Numbers α) : α := computeAggregateWith N s.a s.index s.pe

theorem window_spec :
    (s.a.window s.index s.agg s.pe = none ∧ s.inInterval = []) ∨
      (s.a.window s.index s.agg s.pe = some s.inInterval ∧ s.inInterval ≠ []) := by
  have spec := aggregateRange_spec s.sorted (Aggregates.bounds s.agg s.pe).1
    (Aggregates.bounds s.agg s.pe).2
  rw [← s.size] at spec
  rcases spec with ⟨answer, nothing⟩ | ⟨range, answer, packets, nonempty⟩
  · refine .inl ⟨?_, nothing⟩
    simp only [Aggregates.window, answer, Option.map_none]
  · refine .inr ⟨?_, nonempty⟩
    simp only [Aggregates.window, answer, Option.map_some, packets]
    rfl

/-- The packets that the loop does not skip are the qualifying events. -/
theorem entering_eq : s.a.entering s.index s.agg s.pe = s.qualifying := by
  unfold Aggregates.entering
  rcases s.window_spec with ⟨window, nothing⟩ | ⟨window, -⟩
  · rw [window, qualifying, nothing]
    rfl
  · rw [window]
    rfl

/-- An empty interval is left before the loop. -/
theorem result_eq {α : Type} (N : Numbers α) :
    s.result N = if s.inInterval = [] then (if s.agg.fun_ = .count then N.ofInt 0 else N.quietNaN)
      else N.answer s.agg.fun_ (s.qualifying.map (N.value s.agg.name)) := by
  unfold result computeAggregateWith
  rw [s.declared]
  rcases s.window_spec with ⟨window, nothing⟩ | ⟨window, nonempty⟩
  · simp only [window, if_pos nothing]
  · simp only [window, if_neg nonempty, s.entering_eq]

theorem inInterval_ne_nil (found : s.qualifying ≠ []) : s.inInterval ≠ [] := by
  intro nothing
  rw [qualifying, nothing] at found
  exact found rfl

end Situation

/-! ## Exact values -/

/-- What an aggregate function stands for on the values of the qualifying events. -/
def AggregateFun.Denotes (fun_ : AggregateFun) (vals : List ℚ) (v : ℚ) : Prop :=
  match fun_ with
  | .count => v = vals.length
  | .sum => v = vals.sum
  | .min => IsLeast {x | x ∈ vals} v
  | .max => IsGreatest {x | x ∈ vals} v
  | .avg => v = vals.sum / vals.length
  | .none => v = 0

theorem AggregateFun.Denotes.unique {fun_ : AggregateFun} {vals vals' : List ℚ} {v v' : ℚ}
    (denotes : fun_.Denotes vals v) (denotes' : fun_.Denotes vals' v') (perm : vals.Perm vals') :
    v = v' := by
  have members : {x | x ∈ vals} = {x | x ∈ vals'} := Set.ext fun x => perm.mem_iff
  cases fun_ with
  | count => rw [denotes, denotes', perm.length_eq]
  | sum => rw [denotes, denotes', perm.sum_eq]
  | min => exact IsLeast.unique denotes (members ▸ denotes')
  | max => exact IsGreatest.unique denotes (members ▸ denotes')
  | avg => rw [denotes, denotes', perm.sum_eq, perm.length_eq]
  | none => rw [denotes, denotes']

section Exact

variable {rational : CFloat → ℚ}

/-- The exact value of an event: 0 without a numeric attribute of the name. -/
def exactValue (rational : CFloat → ℚ) (name : CString) (pkt : PubPktPtr) : ℚ :=
  match attributeIn (some pkt) (some name) with
  | some (.int v) => v
  | some (.float f) => rational f
  | _ => 0

theorem value_exactNumbers (name : CString) (pkt : PubPktPtr) :
    (exactNumbers rational).value name pkt = some (exactValue rational name pkt) := by
  unfold Numbers.value exactValue
  split <;> simp [exactNumbers]

/-- Behind its first value the loop adds up, counts and widens the bounds. -/
theorem foldl_step_exact (vals : List ℚ) (sum : ℚ) (count : Int) (bounds : ℚ × ℚ) :
    (vals.map some).foldl (exactNumbers rational).step
        ⟨some sum, count, some bounds.1, some bounds.2, false⟩ =
      ⟨some (sum + vals.sum), count + vals.length, some (vals.foldl Extremes.widen bounds).1,
        some (vals.foldl Extremes.widen bounds).2, false⟩ := by
  induction vals generalizing sum count bounds with
  | nil => simp
  | cons x rest ih =>
      have turn : (exactNumbers rational).step
          ⟨some sum, count, some bounds.1, some bounds.2, false⟩ (some x) =
            ⟨some (sum + x), count + 1, some (Extremes.widen bounds x).1,
              some (Extremes.widen bounds x).2, false⟩ := by
        unfold Extremes.widen
        by_cases lower : x < bounds.1
        · simp [Numbers.step, exactNumbers, lower]
        · by_cases higher : bounds.2 < x
          · simp [Numbers.step, exactNumbers, lower, higher]
          · simp [Numbers.step, exactNumbers, lower, higher]
      rw [List.map_cons, List.foldl_cons, turn, ih, List.foldl_cons, List.sum_cons,
        List.length_cons, add_assoc]
      congr 1
      push_cast
      ring

theorem foldl_start_exact (x : ℚ) (rest : List ℚ) :
    ((x :: rest).map some).foldl (exactNumbers rational).step (exactNumbers rational).start =
      ⟨some (x :: rest).sum, ((x :: rest).length : Nat), some (rest.foldl Extremes.widen (x, x)).1,
        some (rest.foldl Extremes.widen (x, x)).2, false⟩ := by
  have first : (exactNumbers rational).step (exactNumbers rational).start (some x) =
      ⟨some x, 1, some x, some x, false⟩ := by
    simp [Numbers.step, Numbers.start, exactNumbers]
  rw [List.map_cons, List.foldl_cons, first]
  rw [foldl_step_exact rest x 1 (x, x), List.sum_cons, List.length_cons]
  congr 1
  push_cast
  ring

/-- Behind the loop, with at least one value, every function answers what it stands for. -/
theorem answer_exact (rational : CFloat → ℚ) (fun_ : AggregateFun) {vals : List ℚ}
    (nonempty : vals ≠ []) :
    ∃ v, (exactNumbers rational).answer fun_ (vals.map some) = some v ∧ fun_.Denotes vals v := by
  cases vals with
  | nil => exact absurd rfl nonempty
  | cons x rest =>
      have are := (Extremes.are_singleton x).foldl_widen rest
      have members : ({x} : Set ℚ) ∪ {y | y ∈ rest} = {y | y ∈ x :: rest} := by
        ext y
        simp
      rw [members] at are
      unfold Numbers.answer
      rw [foldl_start_exact]
      cases fun_ with
      | count => exact ⟨_, rfl, by simp [AggregateFun.Denotes]⟩
      | sum => exact ⟨_, rfl, rfl⟩
      | min => exact ⟨_, rfl, are.1⟩
      | max => exact ⟨_, rfl, are.2⟩
      | none => exact ⟨0, by simp [exactNumbers], rfl⟩
      | avg =>
          refine ⟨(x :: rest).sum / ((x :: rest).length : Nat), ?_, rfl⟩
          have positive : (((x :: rest).length : Nat) : ℚ) ≠ 0 :=
            Nat.cast_ne_zero.mpr (Nat.succ_ne_zero rest.length)
          simp only [exactNumbers, Option.bind_some, Int.cast_natCast, if_neg positive]

end Exact

theorem Situation.map_value_exact (rational : CFloat → ℚ) (s : Situation) :
    s.qualifying.map ((exactNumbers rational).value s.agg.name) =
      (s.qualifying.map (exactValue rational s.agg.name)).map some := by
  rw [List.map_map]
  exact List.map_congr_left fun pkt _ => value_exactNumbers s.agg.name pkt

/-- Over exact numbers an aggregate with a qualifying event has the value that its function stands
for on the values of the qualifying events. -/
theorem computeAggregate_qualifying (rational : CFloat → ℚ) (s : Situation)
    (found : s.qualifying ≠ []) :
    ∃ v, computeAggregateWith (exactNumbers rational) s.a s.index s.pe = some v ∧
      s.agg.fun_.Denotes (s.qualifying.map (exactValue rational s.agg.name)) v := by
  have result := s.result_eq (exactNumbers rational)
  rw [if_neg (s.inInterval_ne_nil found), s.map_value_exact] at result
  have nonempty : s.qualifying.map (exactValue rational s.agg.name) ≠ [] := by simpa using found
  obtain ⟨v, answer, denotes⟩ := answer_exact rational s.agg.fun_ nonempty
  exact ⟨v, result.trans answer, denotes⟩

/-- The sum of the areas in the minute before the smoke, over two events of which one is late. -/
def areaSum : Situation :=
  { a :=
      { aggregates := [{ eventType := 5, constraints := [], lowerId := -1, lowerTime := 60
                         upperId := 0, fun_ := .sum, name := ['a'] }]
        aggsSize := fun _ => 2
        receivedAggs := fun _ => [reading 1 5 70, reading 2 5 110]
        aggregateParameters := fun _ => [] }
    index := 0
    agg := { eventType := 5, constraints := [], lowerId := -1, lowerTime := 60, upperId := 0
             fun_ := .sum, name := ['a'] }
    pe := PartialEvent.empty.set 0 (reading 3 1 100)
    declared := rfl
    sorted := List.pairwise_pair.mpr (by decide)
    size := rfl }

theorem areaSum_computed :
    ∃ v, computeAggregateWith (exactNumbers fun _ => 0) areaSum.a areaSum.index areaSum.pe =
      some v ∧
      areaSum.agg.fun_.Denotes (areaSum.qualifying.map (exactValue (fun _ => 0) areaSum.agg.name))
        v :=
  computeAggregate_qualifying _ areaSum (by decide)

/-! ## Floats -/

/-- The number that a float stands for, `none` for what is no number. -/
def CFloat.extended (f : CFloat) : Option Extended :=
  FloatOrder.number (Float32.ofBits f).toModel.unpack

theorem CFloat.lt_iff (f g : CFloat) :
    f.lt g = true ↔ ∃ p ∈ f.extended, ∃ q ∈ g.extended, p < q := by
  have order := FloatOrder.compare_eq_lt_iff
    (FloatOrder.canonical_unpack .binary32 (Float32.ofBits f).toModel.toBits.toBitVec)
    (FloatOrder.canonical_unpack .binary32 (Float32.ofBits g).toModel.toBits.toBitVec)
  exact (decide_eq_true_iff.trans (decide_eq_true_iff.trans beq_iff_eq)).trans order

theorem CFloat.lt_iff_of_number {f g : CFloat} {p q : Extended} (isNumber : f.extended = some p)
    (isNumber' : g.extended = some q) : f.lt g = true ↔ p < q := by
  rw [CFloat.lt_iff, isNumber, isNumber']
  simp

/-- What is no number is neither below nor above anything. -/
theorem CFloat.lt_eq_false {f g : CFloat} (noNumber : f.extended = none ∨ g.extended = none) :
    f.lt g = false := by
  refine Bool.eq_false_iff.mpr fun less => ?_
  obtain ⟨p, isNumber, q, isNumber', -⟩ := (CFloat.lt_iff f g).mp less
  rcases noNumber with noNumber | noNumber
  · exact nomatch noNumber.symm.trans isNumber
  · exact nomatch noNumber.symm.trans isNumber'

/-- The bounds of the numbers that the loop has seen. -/
structure Numbers.Acc.Bounded (acc : Numbers.Acc CFloat) (bounds : Extended × Extended) : Prop where
  isNext : acc.firstValue = false
  least : acc.min.extended = some bounds.1
  greatest : acc.max.extended = some bounds.2

/-- A turn widens the bounds by a number and leaves them otherwise. -/
theorem Numbers.Acc.Bounded.step {acc : Numbers.Acc CFloat} {bounds : Extended × Extended}
    (bounded : acc.Bounded bounds) (f : CFloat) :
    (floats.step acc f).Bounded (f.extended.elim bounds (Extremes.widen bounds)) := by
  obtain ⟨isNext, least, greatest⟩ := bounded
  cases isNumber : f.extended with
  | none =>
      rw [floats.step_next acc f false false isNext (CFloat.lt_eq_false (.inl isNumber))
        (CFloat.lt_eq_false (.inr isNumber))]
      exact ⟨rfl, least, greatest⟩
  | some x =>
      have lower := CFloat.lt_iff_of_number isNumber least
      have higher := CFloat.lt_iff_of_number greatest isNumber
      rw [Option.elim_some, Extremes.widen]
      by_cases below : x < bounds.1
      · rw [floats.step_next acc f true _ isNext (lower.mpr below) rfl, if_pos below]
        exact ⟨rfl, isNumber, greatest⟩
      have notLower : f.lt acc.min = false := Bool.eq_false_iff.mpr (mt lower.mp below)
      rw [if_neg below]
      by_cases above : bounds.2 < x
      · rw [floats.step_next acc f false true isNext notLower (higher.mpr above), if_pos above]
        exact ⟨rfl, least, isNumber⟩
      · rw [floats.step_next acc f false false isNext notLower
          (Bool.eq_false_iff.mpr (mt higher.mp above)), if_neg above]
        exact ⟨rfl, least, greatest⟩

theorem Numbers.Acc.Bounded.foldl {acc : Numbers.Acc CFloat} {bounds : Extended × Extended}
    (bounded : acc.Bounded bounds) (vals : List CFloat) :
    (vals.foldl floats.step acc).Bounded
      ((vals.filterMap CFloat.extended).foldl Extremes.widen bounds) := by
  induction vals generalizing acc bounds with
  | nil => exact bounded
  | cons f rest ih =>
      rw [List.foldl_cons, List.filterMap_cons]
      have next := ih (bounded.step f)
      cases isNumber : f.extended with
      | none => rwa [isNumber] at next
      | some x => rwa [isNumber] at next

/-- A first value that is no number stays the least and the greatest one. -/
theorem foldl_step_noNumber (vals : List CFloat) {acc : Numbers.Acc CFloat}
    (isNext : acc.firstValue = false) (least : acc.min.extended = none)
    (greatest : acc.max.extended = none) :
    (vals.foldl floats.step acc).min.extended = none ∧
      (vals.foldl floats.step acc).max.extended = none := by
  induction vals generalizing acc with
  | nil => exact ⟨least, greatest⟩
  | cons f rest ih =>
      rw [List.foldl_cons, floats.step_next acc f false false isNext
        (CFloat.lt_eq_false (.inr least)) (CFloat.lt_eq_false (.inl greatest))]
      exact ih rfl least greatest

/-- The loop adds up all values, in their order, and counts them. -/
theorem foldl_step_sum (vals : List CFloat) (acc : Numbers.Acc CFloat) :
    (vals.foldl floats.step acc).sum = vals.foldl CFloat.add acc.sum ∧
      (vals.foldl floats.step acc).count = acc.count + vals.length := by
  induction vals generalizing acc with
  | nil => exact ⟨rfl, (Int.add_zero _).symm⟩
  | cons f rest ih =>
      have turn : (floats.step acc f).sum = acc.sum.add f ∧
          (floats.step acc f).count = acc.count + 1 := by
        cases isFirst : acc.firstValue with
        | true => simp [Numbers.step, isFirst, floats]
        | false => rw [floats.step_next acc f _ _ isFirst rfl rfl]; exact ⟨rfl, rfl⟩
      obtain ⟨sum, count⟩ := ih (floats.step acc f)
      rw [List.foldl_cons, sum, count, turn.1, turn.2, List.foldl_cons, List.length_cons]
      refine ⟨rfl, ?_⟩
      push_cast
      ring

/-! ### The least and the greatest float -/

/-- The first of the values is a number. -/
def StartsWithNumber (vals : List CFloat) : Prop := ∃ f ∈ vals.head?, ∃ x, f.extended = some x

/-- What MIN and MAX answer, with at least one value. -/
theorem answer_extremes {vals : List CFloat} (nonempty : vals ≠ []) :
    (StartsWithNumber vals ∧
      ∃ bounds, Extremes.Are {x | some x ∈ vals.map CFloat.extended} bounds ∧
        (floats.answer .min vals).extended = some bounds.1 ∧
        (floats.answer .max vals).extended = some bounds.2) ∨
    (¬ StartsWithNumber vals ∧ (floats.answer .min vals).extended = none ∧
      (floats.answer .max vals).extended = none) := by
  cases vals with
  | nil => exact absurd rfl nonempty
  | cons f rest =>
      have first : floats.step floats.start f = ⟨(CFloat.ofInt 0).add f, 1, f, f, false⟩ := by
        simp [Numbers.step, Numbers.start, floats]
      simp only [Numbers.answer, List.foldl_cons, first]
      cases isNumber : f.extended with
      | none =>
          refine .inr ⟨?_, foldl_step_noNumber rest rfl isNumber isNumber⟩
          rintro ⟨g, isFirst, x, isNumber'⟩
          cases isFirst
          exact nomatch isNumber.symm.trans isNumber'
      | some x =>
          have bounded : Numbers.Acc.Bounded ⟨(CFloat.ofInt 0).add f, 1, f, f, false⟩ (x, x) :=
            ⟨rfl, isNumber, isNumber⟩
          have are := (Extremes.are_singleton x).foldl_widen (rest.filterMap CFloat.extended)
          have members : ({x} : Set Extended) ∪ {y | y ∈ rest.filterMap CFloat.extended} =
              {y | some y ∈ (f :: rest).map CFloat.extended} := by
            ext y
            simp [isNumber, eq_comm]
          rw [members] at are
          exact .inl ⟨⟨f, rfl, x, isNumber⟩, _, are, (bounded.foldl rest).least,
            (bounded.foldl rest).greatest⟩

/-! ### Sums with rounding -/

/-- One of the rationals among the floats. -/
def CFloat.IsFinite (f : CFloat) : Prop := ∃ q, f.extended = some (.exactly q)

/-- The rational that a float stands for, 0 if it is none. -/
def CFloat.rational (f : CFloat) : ℚ := (f.extended.map Extended.toRat).getD 0

theorem CFloat.IsFinite.number_eq {f : CFloat} (finite : f.IsFinite) :
    f.extended = some (.exactly f.rational) := by
  obtain ⟨q, isNumber⟩ := finite
  rw [rational, isNumber]
  rfl

/-- What the additions of the loop lose to rounding, from a running sum on. -/
def roundings (sum : CFloat) : List CFloat → ℚ
  | [] => 0
  | f :: rest => ((sum.add f).rational - (sum.rational + f.rational)) + roundings (sum.add f) rest

theorem rational_foldl_add (vals : List CFloat) (sum : CFloat) :
    (vals.foldl CFloat.add sum).rational =
      sum.rational + (vals.map CFloat.rational).sum + roundings sum vals := by
  induction vals generalizing sum with
  | nil => simp [roundings]
  | cons f rest ih =>
      rw [List.foldl_cons, ih, List.map_cons, List.sum_cons, roundings]
      ring

/-- The values added up from 0 on, each sum rounded. -/
def floatTotal (vals : List CFloat) : CFloat := vals.foldl CFloat.add (CFloat.ofInt 0)

/-- What the total loses to rounding. -/
def totalRounding (vals : List CFloat) : ℚ := roundings (CFloat.ofInt 0) vals

def average (vals : List CFloat) : CFloat := (floatTotal vals).div (CFloat.ofInt vals.length)

/-- What the average loses to rounding: its part of the total's rounding, and that of the
division. -/
def averageRounding (vals : List CFloat) : ℚ :=
  totalRounding vals / vals.length +
    ((average vals).rational - (floatTotal vals).rational / vals.length)

theorem rational_total (vals : List CFloat) :
    (floatTotal vals).rational =
      (CFloat.ofInt 0).rational + (vals.map CFloat.rational).sum + totalRounding vals :=
  rational_foldl_add vals _

theorem rational_average (vals : List CFloat) :
    (average vals).rational =
      ((CFloat.ofInt 0).rational + (vals.map CFloat.rational).sum) / vals.length +
        averageRounding vals := by
  rw [averageRounding, rational_total]
  ring

theorem answer_sum (vals : List CFloat) : floats.answer .sum vals = floatTotal vals :=
  (foldl_step_sum vals floats.start).1

theorem answer_avg (vals : List CFloat) : floats.answer .avg vals = average vals := by
  obtain ⟨sum, count⟩ := foldl_step_sum vals floats.start
  simp only [Numbers.answer, sum, count]
  rw [show floats.start.count = 0 from rfl, Int.zero_add]
  rfl

theorem answer_count (vals : List CFloat) :
    floats.answer .count vals = CFloat.ofInt vals.length := by
  rw [Numbers.answer]
  simp only [(foldl_step_sum vals floats.start).2]
  rw [show floats.start.count = 0 from rfl, Int.zero_add]
  rfl

/-- Two results that lost so much to rounding end alike: both at a rational, with the same loss, or
both at the same infinity or at no number. -/
def EndAlike (f g : CFloat) (lost lost' : ℚ) : Prop :=
  (f.IsFinite ∧ g.IsFinite ∧ lost = lost') ∨ (¬ f.IsFinite ∧ ¬ g.IsFinite ∧ f.extended = g.extended)

/-- Of the same exact result, two rounded ones are the same if they end alike. -/
theorem number_eq_iff_endAlike {f g : CFloat} {exact lost lost' : ℚ}
    (isRounded : f.rational = exact + lost) (isRounded' : g.rational = exact + lost') :
    f.extended = g.extended ↔ EndAlike f g lost lost' := by
  by_cases finite : f.IsFinite <;> by_cases finite' : g.IsFinite
  · rw [finite.number_eq, finite'.number_eq, Option.some.injEq, FloatOrder.exactly_inj, isRounded,
      isRounded', add_right_inj]
    simp [EndAlike, finite, finite']
  · refine iff_of_false (fun same => finite' ?_) ?_
    · exact ⟨_, same ▸ finite.number_eq⟩
    · simp [EndAlike, finite, finite']
  · refine iff_of_false (fun same => finite ?_) ?_
    · exact ⟨_, same ▸ finite'.number_eq⟩
    · simp [EndAlike, finite, finite']
  · simp [EndAlike, finite, finite']

/-! ### The same values in another order -/

/-- Where the order of the values does not matter: never for a number of events; for extremes if
both or neither of the orders starts with a number; for sums and averages if the roundings of both
orders add up to the same. -/
def OrderBlind (fun_ : AggregateFun) (vals vals' : List CFloat) : Prop :=
  match fun_ with
  | .count | .none => True
  | .min | .max => StartsWithNumber vals ↔ StartsWithNumber vals'
  | .sum => EndAlike (floatTotal vals) (floatTotal vals') (totalRounding vals) (totalRounding vals')
  | .avg => EndAlike (average vals) (average vals') (averageRounding vals) (averageRounding vals')

theorem sum_rational_eq {vals vals' : List CFloat}
    (perm : (vals.map CFloat.extended).Perm (vals'.map CFloat.extended)) :
    (vals.map CFloat.rational).sum = (vals'.map CFloat.rational).sum := by
  have same := (perm.map fun x => (x.map Extended.toRat).getD 0).sum_eq
  rwa [List.map_map, List.map_map] at same

/-- Two extremes of the same numbers differ only by which order starts with a number. -/
theorem number_eq_iff_starts {f g : CFloat} {starts starts' : Prop} {numbers : Set Extended}
    (side : Extended × Extended → Extended)
    (found : (starts ∧ ∃ bounds, Extremes.Are numbers bounds ∧ f.extended = some (side bounds)) ∨
      (¬ starts ∧ f.extended = none))
    (found' : (starts' ∧ ∃ bounds, Extremes.Are numbers bounds ∧ g.extended = some (side bounds)) ∨
      (¬ starts' ∧ g.extended = none)) :
    f.extended = g.extended ↔ (starts ↔ starts') := by
  rcases found with ⟨begins, bounds, are, isExtreme⟩ | ⟨begins, isNone⟩
  · rcases found' with ⟨begins', bounds', are', isExtreme'⟩ | ⟨begins', isNone'⟩
    · rw [isExtreme, isExtreme', are.unique are']
      exact iff_of_true rfl (iff_of_true begins begins')
    · rw [isExtreme, isNone']
      exact iff_of_false nofun fun same => begins' (same.mp begins)
  · rcases found' with ⟨begins', bounds', are', isExtreme'⟩ | ⟨begins', isNone'⟩
    · rw [isNone, isExtreme']
      exact iff_of_false nofun fun same => begins (same.mpr begins')
    · rw [isNone, isNone']
      exact iff_of_true rfl (iff_of_false begins begins')

theorem answer_floats_eq_iff (fun_ : AggregateFun) {vals vals' : List CFloat}
    (nonempty : vals ≠ []) (perm : (vals.map CFloat.extended).Perm (vals'.map CFloat.extended)) :
    (floats.answer fun_ vals).extended = (floats.answer fun_ vals').extended ↔
      OrderBlind fun_ vals vals' := by
  have lengths : vals.length = vals'.length := by simpa using perm.length_eq
  have nonempty' : vals' ≠ [] := by
    rw [← List.length_pos_iff, ← lengths]
    exact List.length_pos_iff.mpr nonempty
  have sums := sum_rational_eq perm
  have members : {x | some x ∈ vals.map CFloat.extended} =
    {x | some x ∈ vals'.map CFloat.extended} :=
    Set.ext fun x => perm.mem_iff
  cases fun_ with
  | none => exact iff_of_true rfl trivial
  | count =>
      rw [answer_count, answer_count, lengths]
      exact iff_of_true rfl trivial
  | sum =>
      rw [answer_sum, answer_sum]
      exact number_eq_iff_endAlike (rational_total vals) (sums ▸ rational_total vals')
  | avg =>
      rw [answer_avg, answer_avg]
      refine number_eq_iff_endAlike (rational_average vals) ?_
      rw [rational_average, sums, lengths]
  | min =>
      have extremes := answer_extremes nonempty
      have extremes' := answer_extremes nonempty'
      rw [← members] at extremes'
      exact number_eq_iff_starts Prod.fst
        (extremes.imp (fun ⟨starts, bounds, are, least, _⟩ => ⟨starts, bounds, are, least⟩)
          fun ⟨starts, least, _⟩ => ⟨starts, least⟩)
        (extremes'.imp (fun ⟨starts, bounds, are, least, _⟩ => ⟨starts, bounds, are, least⟩)
          fun ⟨starts, least, _⟩ => ⟨starts, least⟩)
  | max =>
      have extremes := answer_extremes nonempty
      have extremes' := answer_extremes nonempty'
      rw [← members] at extremes'
      exact number_eq_iff_starts Prod.snd
        (extremes.imp (fun ⟨starts, bounds, are, _, greatest⟩ => ⟨starts, bounds, are, greatest⟩)
          fun ⟨starts, _, greatest⟩ => ⟨starts, greatest⟩)
        (extremes'.imp (fun ⟨starts, bounds, are, _, greatest⟩ => ⟨starts, bounds, are, greatest⟩)
          fun ⟨starts, _, greatest⟩ => ⟨starts, greatest⟩)

/-! ## Without a qualifying event -/

/-- The two situations leave the function alike: with a qualifying event, with a function that does
not tell the exits apart, or through the same exit. -/
def AlikeExits (s s' : Situation) : Prop :=
  s.qualifying ≠ [] ∨ s.agg.fun_ = .count ∨ s.agg.fun_ = .avg ∨
    (s.inInterval = [] ↔ s'.inInterval = [])

section Exits

variable {α β : Type} {N : Numbers α} {view : α → β}

/-- Of a result only a view counts. The average of no value is seen as no number, and zero is
not. -/
structure Numbers.Sound (N : Numbers α) (view : α → β) : Prop where
  average : view (N.div (N.ofInt 0) (N.ofInt 0)) = view N.quietNaN
  zero : view (N.ofInt 0) ≠ view N.quietNaN

theorem result_eq_iff_alikeExits (sound : N.Sound view) (s s' : Situation)
    (sameFun : s.agg.fun_ = s'.agg.fun_)
    (empty : s.qualifying = [] ↔ s'.qualifying = []) :
    view (s.result N) = view (s'.result N) ↔ AlikeExits s s' ∧ (s.qualifying ≠ [] →
      view (N.answer s.agg.fun_ (s.qualifying.map (N.value s.agg.name))) =
        view (N.answer s.agg.fun_ (s'.qualifying.map (N.value s'.agg.name)))) := by
  rw [s.result_eq, s'.result_eq]
  by_cases found : s.qualifying = []
  · have found' := empty.mp found
    have zero := sound.zero
    have average := sound.average
    rw [← sameFun, found, found', List.map_nil, List.map_nil, AlikeExits]
    cases s.agg.fun_ <;> by_cases exit : s.inInterval = [] <;>
      by_cases exit' : s'.inInterval = [] <;>
      simp [found, exit, exit', Numbers.answer, Numbers.start, average, zero, zero.symm]
  · have found' := mt empty.mpr found
    rw [if_neg (s.inInterval_ne_nil found), if_neg (s'.inInterval_ne_nil found'), ← sameFun]
    exact ⟨fun same => ⟨.inl found, fun _ => same⟩, fun both => both.2 found⟩

end Exits

theorem floats_sound : floats.Sound CFloat.extended := ⟨by decide +kernel, by decide +kernel⟩

theorem exactNumbers_sound (rational : CFloat → ℚ) : (exactNumbers rational).Sound id :=
  ⟨by simp [exactNumbers], by simp [exactNumbers]⟩

/-- The values of the qualifying events as floats, in their order. -/
def Situation.values (s : Situation) : List CFloat :=
  s.qualifying.map (floats.value s.agg.name)

/-- Over floats the order of the values must not matter either. -/
def AlikeFloats (s s' : Situation) : Prop :=
  AlikeExits s s' ∧ (s.qualifying ≠ [] → OrderBlind s.agg.fun_ s.values s'.values)

/-- Two situations with as many values have none alike. -/
theorem qualifying_eq_nil_iff {s s' : Situation} {γ : Type} {f g : PubPktPtr → γ}
    (perm : (s.qualifying.map f).Perm (s'.qualifying.map g)) :
    s.qualifying = [] ↔ s'.qualifying = [] := by
  have lengths := perm.length_eq
  rw [List.length_map, List.length_map] at lengths
  rw [← List.length_eq_zero_iff, ← List.length_eq_zero_iff, lengths]

/-- The sum of three values in the minute before the fire, in the order of their arrival. -/
def threeAreas (first second third : Int) : Situation :=
  { areaSum with
    a :=
      { areaSum.a with
        aggsSize := fun _ => 3
        receivedAggs := fun _ =>
          [⟨1, PubPkt.new 5 [⟨['a'], .int first⟩] 70⟩, ⟨2, PubPkt.new 5 [⟨['a'], .int second⟩] 80⟩,
            ⟨3, PubPkt.new 5 [⟨['a'], .int third⟩] 90⟩] }
    declared := rfl
    sorted := by simp [TimeSorted, SortedBy, PubPkt.new, PubPktPtr.getTimeStamp]
    size := rfl }

-- the first of the two loses its 1 to rounding
example : computeAggregate (threeAreas (2 ^ 24) 1 (-2 ^ 24)).a 0 areaSum.pe = CFloat.ofInt 0 ∧
    computeAggregate (threeAreas (2 ^ 24) (-2 ^ 24) 1).a 0 areaSum.pe = CFloat.ofInt 1 := by
  decide +kernel

/-- The sum of the areas without an event. -/
def noArea : Situation :=
  { areaSum with
    a := { areaSum.a with aggsSize := fun _ => 0, receivedAggs := fun _ => [] }
    declared := rfl
    sorted := List.Pairwise.nil
    size := rfl }

/-- The sum of the areas with a parameter that no event satisfies. -/
def rejectedArea : Situation :=
  { areaSum with
    a :=
      { areaSum.a with
        aggregateParameters := fun _ =>
          [{ operation := .eq, type := .agg, vtype := .int, lastIndex := 0
             leftTree := .leaf (.static (.int 0)) .int
             rightTree := .leaf (.static (.int 1)) .int }] }
    declared := rfl
    sorted := areaSum.sorted
    size := rfl }

end TRex
