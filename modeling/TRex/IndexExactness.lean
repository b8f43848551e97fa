import TRex.TableInstallation

/-!
# Counting and conjunction

For constraints on integers and Booleans the indexes are lawful, so a message hits a predicate once
for each pair of a constraint of the predicate, repetitions apart, and an attribute that satisfies
it (`count_hits`). If a predicate repeats no constraint and a packet no attribute name, reaching the
number of constraints means that all of them are satisfied (`reported_iff_satisfied`). In general
the comparison of the two numbers decides (`countingIsConjunction_iff`).
-/

namespace TRex

/-! ## What a constraint asks -/

def Op.holdsInt : Op → Int → Int → Bool
  | .eq, v, x => decide (v = x)
  | .lt, v, x => decide (v < x)
  | .gt, v, x => decide (x < v)
  | .ne, v, x => decide (v ≠ x)
  | .le, v, x => decide (v ≤ x)
  | .ge, v, x => decide (x ≤ v)
  | .in_, _, _ => false

def Op.holdsFloat : Op → CFloat → CFloat → Bool
  | .eq, v, x => CFloat.eq v x
  | .lt, v, x => CFloat.lt v x
  | .gt, v, x => CFloat.lt x v
  | .ne, v, x => !CFloat.eq v x
  | .le, v, x => CFloat.le v x
  | .ge, v, x => CFloat.le x v
  | .in_, _, _ => false

def Op.holdsBool : Op → Bool → Bool → Bool
  | .eq, v, x => v == x
  | .ne, v, x => v != x
  | _, _, _ => false

def Op.holdsString : Op → CString → CString → Bool
  | .eq, v, x => decide (v = x)
  | .ne, v, x => decide (v ≠ x)
  | .in_, v, x => CString.contains v x
  | _, _, _ => false

/-- The attribute has the name and the type of the constraint and its value is as the constraint
asks. An operator that has no meaning for a type holds of nothing. -/
def Constraint.satisfiedBy (c : Constraint) (a : Attribute) : Bool :=
  decide (a.name = c.name) &&
    match c.type, a.value with
    | .int, .int v => c.op.holdsInt v c.intVal
    | .float, .float v => c.op.holdsFloat v c.floatVal
    | .bool, .bool v _ => c.op.holdsBool v c.boolVal
    | .string, .string v => c.op.holdsString v c.stringVal
    | _, _ => false

/-- A constraint on an integer or a Boolean, with an operator that is defined for the type. -/
def Constraint.IntOrBool (c : Constraint) : Prop :=
  (c.type = .int ∧ c.op ≠ .in_) ∨ (c.type = .bool ∧ (c.op = .eq ∨ c.op = .ne))

/-- The different constraints of a list. -/
def distinct (cs : List Constraint) : List Constraint := (cs.map Constraint.settled).dedup

theorem Constraint.satisfiedBy_settled (c : Constraint) :
    c.settled.satisfiedBy = c.satisfiedBy := by
  funext a
  unfold satisfiedBy settled
  cases type : c.type <;> cases a.value <;> simp

theorem Constraint.satisfiedBy_int {c : Constraint} (type : c.type = .int) {a : Attribute} :
    c.satisfiedBy a = true ↔
      a.name = c.name ∧ ∃ v, a.value = .int v ∧ c.op.holdsInt v c.intVal = true := by
  unfold satisfiedBy
  rw [type]
  cases a.value <;> simp

theorem Constraint.satisfiedBy_bool {c : Constraint} (type : c.type = .bool) {a : Attribute} :
    c.satisfiedBy a = true ↔
      a.name = c.name ∧ ∃ v pad, a.value = .bool v pad ∧ c.op.holdsBool v c.boolVal = true := by
  unfold satisfiedBy
  rw [type]
  cases a.value <;> simp

/-- Equality of constraints, as the source has it, is equality of what they name. -/
theorem Constraint.equals_iff {c x : Constraint} (intOrBool : c.IntOrBool) :
    c.equals x = true ↔ c.settled = x.settled := by
  unfold equals settled
  simp only [Bool.and_eq_true, beq_iff_eq, Constraint.mk.injEq]
  rcases intOrBool with ⟨type, -⟩ | ⟨type, -⟩
  · rw [type]
    constructor
    · rintro ⟨⟨⟨op, type'⟩, name⟩, val⟩
      rw [← type']
      simp [name, op, beq_iff_eq.mp val]
    · rintro ⟨name, op, type', val, -, -, -⟩
      rw [← type'] at val
      exact ⟨⟨⟨op, type'⟩, name⟩, beq_iff_eq.mpr (by simpa using val)⟩
  · rw [type]
    constructor
    · rintro ⟨⟨⟨op, type'⟩, name⟩, val⟩
      rw [← type']
      simp [name, op, beq_iff_eq.mp val]
    · rintro ⟨name, op, type', -, -, val, -⟩
      rw [← type'] at val
      exact ⟨⟨⟨op, type'⟩, name⟩, beq_iff_eq.mpr (by simpa using val)⟩

/-! ## The indexes of integers and of Booleans -/

namespace IntConstraintIndex

def test : OpMap → Int → Int → Bool
  | .eq, val, stored => decide (stored = val)
  | .lt, val, stored => decide (val < stored)
  | .le, val, stored => decide (val ≤ stored)
  | .gt, val, stored => decide (stored < val)
  | .ge, val, stored => decide (stored ≤ val)
  | .ne, val, stored => decide (stored ≠ val)
  | _, _, _ => false

theorem lawful : kind.Lawful (· ≠ .in_) [.eq, .lt, .le, .gt, .ge, .ne] test where
  keyLt a b := by simp [kind, numericKind]
  skips a b := by simp [kind, numericKind]
  mapOf op supported := by cases op <;> simp_all [kind, numericKind]
  mapOf_inj op op' supported supported' same := by
    cases op <;> cases op' <;> simp_all [kind, numericKind]
  nodup := by decide
  scan val tables sorted := by
    have law : ∀ a b : Int, decide (a < b) = true ↔ a < b := fun a b => decide_eq_true_iff
    have below : ∀ (p : Int → Bool) m, (∀ a b, a < b → p a = true → p b = true) →
        (((tables m).reverse.takeWhile fun e => p e.1).map Prod.snd).Perm
          (((tables m).filter fun e => p e.1).map Prod.snd) := by
      intro p m up
      rw [OrdMap.takeWhile_reverse_eq_filter (sorted m) up]
      exact (List.reverse_perm _).map _
    have above : ∀ (p : Int → Bool) m, (∀ a b, a < b → p b = true → p a = true) →
        (((tables m).takeWhile fun e => p e.1).map Prod.snd) =
          (((tables m).filter fun e => p e.1).map Prod.snd) := by
      intro p m down
      rw [OrdMap.takeWhile_eq_filter (sorted m) down]
    simp only [List.flatMap_cons, List.flatMap_nil, List.append_nil, kind, numericKind, test]
    rw [OrdMap.toList_find? law (sorted .eq)]
    have lt := below (fun x => !decide (x ≤ val)) .lt (by simp; omega)
    have le := below (fun x => !decide (x < val)) .le (by simp; omega)
    have gt := above (fun x => !decide (val ≤ x)) .gt (by simp; omega)
    have ge := above (fun x => !decide (val < x)) .ge (by simp; omega)
    rw [gt, ge]
    simp only [← decide_not, not_le, not_lt] at lt le ⊢
    simp only [List.append_assoc]
    exact (lt.append (le.append_right _)).append_left _

/-- The constraint that a table constraint of this index stands for. -/
def ofKey (key : TableKey Int) : Constraint :=
  { name := key.1, op := key.2.1, type := .int, intVal := key.2.2, floatVal := 0, boolVal := false
    stringVal := [] }

end IntConstraintIndex

namespace BoolConstraintIndex

def test : OpMap → Bool → Bool → Bool
  | .eq, val, stored => decide (stored = val)
  | .df, val, stored => decide (stored = !val)
  | _, _, _ => false

theorem lawful : kind.Lawful (fun op => op = .eq ∨ op = .ne) [.eq, .df] test where
  keyLt a b := by simp [kind]
  skips a b := by simp [kind]
  mapOf op supported := by rcases supported with rfl | rfl <;> simp [kind]
  mapOf_inj op op' supported supported' same := by
    rcases supported with rfl | rfl <;> rcases supported' with rfl | rfl <;> simp_all [kind]
  nodup := by decide
  scan val tables sorted := by
    have law : ∀ a b : Bool, decide (a < b) = true ↔ a < b := fun a b => decide_eq_true_iff
    simp only [List.flatMap_cons, List.flatMap_nil, List.append_nil, kind, test]
    rw [OrdMap.toList_find? law (sorted .eq), OrdMap.toList_find? law (sorted .df)]

def ofKey (key : TableKey Bool) : Constraint :=
  { name := key.1, op := key.2.1, type := .bool, intVal := 0, floatVal := 0, boolVal := key.2.2
    stringVal := [] }

end BoolConstraintIndex

/-! ## Hits of one index -/

/-- Table constraints stand for constraints, and the index tests what these ask. -/
structure IndexKind.StandsFor {V : Type} (kind : IndexKind V) (supports : Op → Prop)
    (test : OpMap → V → V → Bool) (ofKey : TableKey V → Constraint) : Prop where
  injective : Function.Injective ofKey
  keyOf : ∀ c : Constraint, c.type = kind.type →
    ofKey (c.name, c.op, kind.constraintVal c) = c.settled
  tests : ∀ a itc, supports itc.op →
    Represents.tests kind test a itc = (ofKey itc.key).satisfiedBy a

theorem IntConstraintIndex.standsFor : kind.StandsFor (· ≠ .in_) test ofKey where
  injective key key' same := by
    simp only [ofKey, Constraint.mk.injEq] at same
    exact Prod.ext same.1 (Prod.ext same.2.1 same.2.2.2.1)
  keyOf c typed := by
    have type : c.type = .int := typed
    simp [ofKey, Constraint.settled, kind, numericKind, type]
  tests a itc supported := by
    rw [Bool.eq_iff_iff, Represents.tests_iff, Constraint.satisfiedBy_int rfl]
    obtain ⟨name, value⟩ := a
    cases value with
    | int v =>
        have holds : ∀ m, kind.mapOf itc.op = some m →
            test m v itc.val = itc.op.holdsInt v itc.val := by
          intro m hasMap
          rw [Bool.eq_iff_iff]
          cases op : itc.op <;> rw [op] at hasMap <;> cases hasMap <;>
            simp only [test, Op.holdsInt, decide_eq_true_eq]
          case in_ => exact absurd op supported
          all_goals omega
        obtain ⟨m, -, hasMap⟩ := lawful.mapOf itc.op supported
        constructor
        · rintro ⟨⟨-, sameName⟩, m', hasMap', passes⟩
          exact ⟨sameName.symm, v, rfl, holds m' hasMap' ▸ passes⟩
        · rintro ⟨sameName, v', same, passes⟩
          cases same
          exact ⟨⟨rfl, sameName.symm⟩, m, hasMap, (holds m hasMap).trans passes⟩
    | float v => simp [Attribute.type, Value.type, kind, numericKind]
    | bool v pad => simp [Attribute.type, Value.type, kind, numericKind]
    | string v => simp [Attribute.type, Value.type, kind, numericKind]

theorem BoolConstraintIndex.standsFor :
    kind.StandsFor (fun op => op = .eq ∨ op = .ne) test ofKey where
  injective key key' same := by
    simp only [ofKey, Constraint.mk.injEq] at same
    exact Prod.ext same.1 (Prod.ext same.2.1 same.2.2.2.2.2.1)
  keyOf c typed := by
    have type : c.type = .bool := typed
    simp [ofKey, Constraint.settled, kind, type]
  tests a itc supported := by
    rw [Bool.eq_iff_iff, Represents.tests_iff, Constraint.satisfiedBy_bool rfl]
    obtain ⟨name, value⟩ := a
    cases value with
    | bool v pad =>
        have holds : ∀ m, kind.mapOf itc.op = some m →
            test m v itc.val = itc.op.holdsBool v itc.val := by
          intro m hasMap
          rcases supported with op | op <;> rw [op] at hasMap ⊢ <;> cases hasMap <;>
            cases v <;> cases itc.val <;> rfl
        obtain ⟨m, -, hasMap⟩ := lawful.mapOf itc.op supported
        constructor
        · rintro ⟨⟨-, sameName⟩, m', hasMap', passes⟩
          exact ⟨sameName.symm, v, pad, rfl, holds m' hasMap' ▸ passes⟩
        · rintro ⟨sameName, v', pad', same, passes⟩
          cases same
          exact ⟨⟨rfl, sameName.symm⟩, m, hasMap, (holds m hasMap).trans passes⟩
    | int v => simp [Attribute.type, Value.type, kind]
    | float v => simp [Attribute.type, Value.type, kind]
    | string v => simp [Attribute.type, Value.type, kind]

theorem Represents.installAll {V : Type} [LinearOrder V] {kind : IndexKind V} {supports : Op → Prop}
    {maps : List OpMap} {test : OpMap → V → V → Bool} (lawful : kind.Lawful supports maps test)
    {calls : List (Nat × Constraint × TablePred)} (addresses : (calls.map Prod.fst).Nodup)
    (supported : ∀ call ∈ calls, supports call.2.1.op) :
    Represents kind supports (ConstraintIndex.installAll kind calls)
      (calls.map fun call => (keyOf kind call.2.1, call.2.2)) ∧
    ∀ e ∈ (ConstraintIndex.installAll kind calls).usedConstraints, e.1 ∈ calls.map Prod.fst := by
  induction calls using List.reverseRecOn with
  | nil => exact ⟨Represents.empty, fun e used => by cases used⟩
  | append_singleton calls call ih =>
      rw [List.map_append, List.nodup_append] at addresses
      obtain ⟨before, -, apart⟩ := addresses
      obtain ⟨rep, used⟩ := ih before fun call' mem => supported call' (List.mem_append_left _ mem)
      have fresh : ∀ e ∈ (ConstraintIndex.installAll kind calls).usedConstraints,
          e.1 ≠ call.1 := by
        intro e mem
        exact apart e.1 (used e mem) call.1 (List.mem_singleton.mpr rfl)
      have last : supports call.2.1.op :=
        supported call (List.mem_append_right _ (List.mem_singleton.mpr rfl))
      rw [ConstraintIndex.installAll_concat, List.map_append]
      refine ⟨rep.installConstraint lawful fresh last call.2.2, fun e mem => ?_⟩
      rw [List.map_append, List.mem_append]
      rcases rep.mem_installConstraint mem with same | ⟨e', inUsed, same⟩
      · exact .inr (List.mem_singleton.mpr same)
      · exact .inl (same ▸ used e' inUsed)

/-- An attribute hits a predicate once for each different constraint that it was installed with and
that the attribute satisfies. -/
theorem count_hitsOf_installAll {V : Type} [LinearOrder V] {kind : IndexKind V}
    {supports : Op → Prop} {maps : List OpMap} {test : OpMap → V → V → Bool}
    {ofKey : TableKey V → Constraint} (lawful : kind.Lawful supports maps test)
    (standsFor : kind.StandsFor supports test ofKey) {calls : List (Nat × Constraint × TablePred)}
    (addresses : (calls.map Prod.fst).Nodup)
    (supported : ∀ call ∈ calls, supports call.2.1.op ∧ call.2.1.type = kind.type)
    {tp : TablePred} {cs : List Constraint} (nodup : cs.Nodup)
    (members : ∀ c, c ∈ cs ↔ ∃ call ∈ calls, call.2.2 = tp ∧ call.2.1.settled = c) (a : Attribute) :
    ((ConstraintIndex.installAll kind calls).hitsOf kind a).count tp =
      cs.countP fun c => c.satisfiedBy a := by
  obtain ⟨rep, -⟩ :=
    Represents.installAll lawful addresses fun call mem => (supported call mem).1
  generalize ConstraintIndex.installAll kind calls = idx at rep ⊢
  -- the table constraints connected to the predicate stand for the constraints of the list
  have perm : ((idx.usedConstraints.filter fun e => decide (tp ∈ e.2.connectedPredicates)).map
      fun e => ofKey e.2.key).Perm cs := by
    refine (List.perm_ext_iff_of_nodup ?_ nodup).mpr fun c => ?_
    · refine (rep.addresses.nodup.filter _).map_on fun e mem e' mem' same => ?_
      exact rep.eq_of_key (List.mem_of_mem_filter mem) (List.mem_of_mem_filter mem')
        (standsFor.injective same)
    · rw [members, List.mem_map]
      constructor
      · rintro ⟨e, mem, rfl⟩
        obtain ⟨used, connected⟩ := List.mem_filter.mp mem
        have logged := (rep.connected e.2.key tp).mpr ⟨e, used, rfl, of_decide_eq_true connected⟩
        obtain ⟨call, isCall, same⟩ := List.mem_map.mp logged
        refine ⟨call, isCall, congrArg Prod.snd same, ?_⟩
        rw [← standsFor.keyOf _ (supported call isCall).2]
        exact congrArg ofKey (congrArg Prod.fst same)
      · rintro ⟨call, isCall, rfl, rfl⟩
        have logged := List.mem_map_of_mem
          (f := fun call : Nat × Constraint × TablePred =>
            (Represents.keyOf kind call.2.1, call.2.2)) isCall
        obtain ⟨e, used, key, connected⟩ := (rep.connected _ _).mp logged
        refine ⟨e, List.mem_filter.mpr ⟨used, decide_eq_true connected⟩, ?_⟩
        rw [key]
        exact standsFor.keyOf _ (supported call isCall).2
  rw [rep.count_hitsOf lawful, ← perm.countP_eq, List.countP_map, List.countP_filter]
  refine List.countP_congr fun e used => ?_
  rw [standsFor.tests a e.2 (rep.supported e used), Bool.and_comm]
  rfl

/-! ## Hits of a predicate -/

namespace IndexingTable

/-- Only constraints on integers and Booleans are installed. -/
def IntOrBool (rules : List RulePkt) : Prop :=
  ∀ r ∈ rules, ∀ e ∈ r.elements, ∀ c ∈ e.constraints, c.IntOrBool

theorem IntOrBool.of_mem_callsTo {rules : List RulePkt} (intOrBool : IntOrBool rules)
    {alloc : Nat → Nat} {type : ValType} {eventType : Int} {call : Nat × Constraint × TablePred}
    (mem : call ∈ callsTo alloc type eventType (installations (entries rules))) :
    call.2.1.IntOrBool ∧ call.2.1.type = type := by
  obtain ⟨logged, typed⟩ := mem_callsTo mem
  obtain ⟨e, inEntries, -, isIn⟩ := mem_installations.mp logged
  obtain ⟨⟨r, inRules, -, isElement⟩, -⟩ := mem_entries inEntries
  exact ⟨intOrBool r inRules e isElement _ isIn, typed⟩

/-- The calls for a predicate bring the constraints of its element. -/
theorem mem_distinct_filter {rules : List RulePkt} {tp : TablePred} {e : Element}
    (mem : (tp, e) ∈ entries rules) (alloc : Nat → Nat) (type : ValType) (c : Constraint) :
    c ∈ (distinct e.constraints).filter (fun c => decide (c.type = type)) ↔
      ∃ call ∈ callsTo alloc type e.eventType (installations (entries rules)),
        call.2.2 = tp ∧ call.2.1.settled = c := by
  simp only [distinct, List.mem_filter, List.mem_dedup, List.mem_map, decide_eq_true_eq]
  constructor
  · rintro ⟨⟨c, isIn, rfl⟩, typed⟩
    have logged := mem_installations.mpr ⟨e, mem, rfl, isIn⟩
    obtain ⟨addr, isCall⟩ := exists_mem_callsTo alloc logged
    have typed : c.type = type := typed
    exact ⟨_, typed ▸ isCall, rfl, rfl⟩
  · rintro ⟨call, isCall, rfl, rfl⟩
    obtain ⟨logged, typed⟩ := mem_callsTo isCall
    obtain ⟨e', mem', -, isIn⟩ := mem_installations.mp logged
    obtain rfl := eq_of_mem_entries mem mem'
    exact ⟨⟨_, isIn, rfl⟩, typed⟩

section Hits

variable {alloc : Nat → Nat} {rules : List RulePkt}

/-- Nothing is installed in the indexes of the other types. -/
theorem IntOrBool.callsTo_eq_nil (intOrBool : IntOrBool rules) {type : ValType} {eventType : Int}
    (notInt : type ≠ .int) (notBool : type ≠ .bool) :
    callsTo alloc type eventType (installations (entries rules)) = [] := by
  rw [List.eq_nil_iff_forall_not_mem]
  intro call isCall
  obtain ⟨ok, typed⟩ := intOrBool.of_mem_callsTo isCall
  rcases ok with ⟨type', -⟩ | ⟨type', -⟩
  · exact notInt (typed.symm.trans type')
  · exact notBool (typed.symm.trans type')

theorem IntOrBool.float_hitsOf (intOrBool : IntOrBool rules) (eventType : Int) (a : Attribute) :
    ((installed alloc rules).floatIndex eventType).hitsOf FloatConstraintIndex.kind a = [] := by
  obtain ⟨-, -, float, -, -⟩ := (installed_spec alloc rules).indexes
  rw [float, intOrBool.callsTo_eq_nil (by simp) (by simp)]
  simp [ConstraintIndex.hitsOf, ConstraintIndex.installAll, ConstraintIndex.empty,
    FloatConstraintIndex.kind, numericKind, OrdMap.find?]

theorem IntOrBool.string_hitsOf (intOrBool : IntOrBool rules) (eventType : Int) (a : Attribute) :
    ((installed alloc rules).stringIndex eventType).hitsOf StringConstraintIndex.kind a = [] := by
  obtain ⟨-, -, -, -, string⟩ := (installed_spec alloc rules).indexes
  rw [string, intOrBool.callsTo_eq_nil (by simp) (by simp)]
  simp [ConstraintIndex.hitsOf, ConstraintIndex.installAll, ConstraintIndex.empty,
    StringConstraintIndex.kind, OrdMap.find?]

variable {tp : TablePred} {e : Element}

theorem IntOrBool.count_int_hitsOf (intOrBool : IntOrBool rules)
    (fresh : Function.Injective alloc) (mem : (tp, e) ∈ entries rules) (a : Attribute) :
    (((installed alloc rules).intIndex e.eventType).hitsOf IntConstraintIndex.kind a).count tp =
      ((distinct e.constraints).filter fun c => decide (c.type = .int)).countP fun c =>
        c.satisfiedBy a := by
  obtain ⟨-, int, -, -, -⟩ := (installed_spec alloc rules).indexes
  rw [int]
  refine count_hitsOf_installAll IntConstraintIndex.lawful IntConstraintIndex.standsFor
    (nodup_callsTo fresh _ _ _) (fun call isCall => ?_) ((List.nodup_dedup _).filter _)
    (mem_distinct_filter mem alloc .int) a
  obtain ⟨ok, typed⟩ := intOrBool.of_mem_callsTo isCall
  rcases ok with ⟨-, op⟩ | ⟨type, -⟩
  · exact ⟨op, typed⟩
  · cases typed.symm.trans type

theorem IntOrBool.count_bool_hitsOf (intOrBool : IntOrBool rules)
    (fresh : Function.Injective alloc) (mem : (tp, e) ∈ entries rules) (a : Attribute) :
    (((installed alloc rules).boolIndex e.eventType).hitsOf BoolConstraintIndex.kind a).count tp =
      ((distinct e.constraints).filter fun c => decide (c.type = .bool)).countP fun c =>
        c.satisfiedBy a := by
  obtain ⟨-, -, -, bool, -⟩ := (installed_spec alloc rules).indexes
  rw [bool]
  refine count_hitsOf_installAll BoolConstraintIndex.lawful BoolConstraintIndex.standsFor
    (nodup_callsTo fresh _ _ _) (fun call isCall => ?_) ((List.nodup_dedup _).filter _)
    (mem_distinct_filter mem alloc .bool) a
  obtain ⟨ok, typed⟩ := intOrBool.of_mem_callsTo isCall
  rcases ok with ⟨type, -⟩ | ⟨-, op⟩
  · cases typed.symm.trans type
  · exact ⟨op, typed⟩

/-- The constraints of an element are those on integers and those on Booleans. -/
theorem IntOrBool.countP_distinct (intOrBool : IntOrBool rules) {r : RulePkt} (inRules : r ∈ rules)
    (isElement : e ∈ r.elements) (p : Constraint → Bool) :
    (distinct e.constraints).countP p =
      ((distinct e.constraints).filter fun c => decide (c.type = .int)).countP p +
      ((distinct e.constraints).filter fun c => decide (c.type = .bool)).countP p := by
  rw [List.countP_eq_countP_filter_add _ _ fun c => decide (c.type = .int)]
  congr 2
  refine List.filter_congr fun c mem => ?_
  obtain ⟨c, isIn, rfl⟩ := List.mem_map.mp (List.mem_dedup.mp mem)
  rcases intOrBool r inRules e isElement c isIn with ⟨type, -⟩ | ⟨type, -⟩ <;>
    simp [Constraint.settled, type]

/-- A message hits the predicate of an element of its type once for each pair of a constraint of the
element, repetitions apart, and an attribute that satisfies it. -/
theorem count_hits (fresh : Function.Injective alloc) (intOrBool : IntOrBool rules) {pkt : PubPkt}
    (mem : (tp, e) ∈ entries rules) (sameEvent : e.eventType = pkt.eventType) :
    ((installed alloc rules).hits pkt).count tp =
      ((distinct e.constraints).map fun c => pkt.attributes.countP c.satisfiedBy).sum := by
  obtain ⟨⟨r, inRules, -, isElement⟩, -⟩ := mem_entries mem
  have ints := intOrBool.count_int_hitsOf fresh mem
  have bools := intOrBool.count_bool_hitsOf fresh mem
  rw [sameEvent] at ints bools
  unfold hits
  simp only [List.count_append, List.count_flatMap, Function.comp_def, intOrBool.float_hitsOf,
    intOrBool.string_hitsOf, List.count_nil, ints, bools]
  rw [← Tally.sum_countP_comm pkt.attributes (distinct e.constraints) fun a c => c.satisfiedBy a,
    List.map_congr_left fun a _ => intOrBool.countP_distinct inRules isElement _,
    List.sum_map_add]
  simp

end Hits

/-! ## Reports -/

/-- The handler filled for the packet has the element, under its rule, kind and index. -/
def Reports (t : IndexingTable) (pkt : PubPkt) (ruleId : Nat) (e : Element) : Prop :=
  e.stateId ∈ (t.processMessage pkt .empty).matching e.stateType ruleId

instance (t : IndexingTable) (pkt : PubPkt) (ruleId : Nat) (e : Element) :
    Decidable (t.Reports pkt ruleId e) :=
  inferInstanceAs (Decidable (_ ∈ _))

/-- The element of a kind at an index. -/
def elementAt (r : RulePkt) (type : StateType) (i : Nat) : Option Element :=
  match type with
  | .state => (r.predicates[i]?).map fun p => ⟨.state, i, p.eventType, p.constraints⟩
  | .agg => (r.aggregates[i]?).map fun a => ⟨.agg, i, a.eventType, a.constraints⟩
  | .neg => (r.negations[i]?).map fun n => ⟨.neg, i, n.eventType, n.constraints⟩

theorem elementAt_of_mem {r : RulePkt} {e : Element} (mem : e ∈ r.elements) :
    elementAt r e.stateType e.stateId = some e := by
  simp only [RulePkt.elements, List.mem_append, List.mem_map] at mem
  rcases mem with (⟨x, listed, rfl⟩ | ⟨x, listed, rfl⟩) | ⟨x, listed, rfl⟩ <;>
    simp only [elementAt, List.mem_zipIdx_iff_getElem?.mp listed, Option.map_some]

/-- Kind and index identify an element of a rule. -/
theorem eq_of_mem_elements {r : RulePkt} {e e' : Element} (mem : e ∈ r.elements)
    (mem' : e' ∈ r.elements) (sameType : e.stateType = e'.stateType)
    (sameId : e.stateId = e'.stateId) : e = e' := by
  have at_e := elementAt_of_mem mem
  rw [sameType, sameId, elementAt_of_mem mem'] at at_e
  exact (Option.some.inj at_e).symm

/-- A reported element was installed. -/
theorem exists_of_mem_matching {alloc : Nat → Nat} {rules : List RulePkt} {pkt : PubPkt}
    {type : StateType} {ruleId i : Nat}
    (reported : i ∈ ((installed alloc rules).processMessage pkt .empty).matching type ruleId) :
    ∃ r ∈ rules, r.ruleId = ruleId ∧ ∃ e ∈ r.elements, e.stateType = type ∧ e.stateId = i := by
  obtain ⟨tp, e, mem, ⟨sameRule, sameType, sameId⟩, -⟩ :=
    (mem_matching_installed alloc rules pkt type ruleId i).mp reported
  obtain ⟨⟨r, inRules, ruleId', isElement⟩, -⟩ := mem_entries mem
  exact ⟨r, inRules, ruleId'.trans sameRule, e, isElement, sameType, sameId⟩

/-- An element of a rule that its id identifies is reported if the packet has its type and satisfies
its different constraints as often as it has constraints. -/
theorem reports_iff {alloc : Nat → Nat} (fresh : Function.Injective alloc) {rules : List RulePkt}
    (intOrBool : IntOrBool rules) {r : RulePkt} (inRules : r ∈ rules)
    (identified : ∀ r' ∈ rules, r'.ruleId = r.ruleId → r' = r) {e : Element}
    (isElement : e ∈ r.elements) (pkt : PubPkt) :
    (installed alloc rules).Reports pkt r.ruleId e ↔ e.eventType = pkt.eventType ∧
      e.constraints.length ≤
        ((distinct e.constraints).map fun c => pkt.attributes.countP c.satisfiedBy).sum := by
  unfold Reports
  rw [mem_matching_installed]
  constructor
  · rintro ⟨tp, e', mem, ⟨sameRule, sameType, sameId⟩, sameEvent, enough⟩
    obtain ⟨⟨r', inRules', ruleId', isElement'⟩, -⟩ := mem_entries mem
    obtain rfl := identified r' inRules' (ruleId'.trans sameRule)
    obtain rfl := eq_of_mem_elements isElement' isElement sameType sameId
    rw [count_hits fresh intOrBool mem sameEvent] at enough
    exact ⟨sameEvent, enough⟩
  · rintro ⟨sameEvent, enough⟩
    obtain ⟨k, mem⟩ := exists_mem_entries inRules isElement
    rw [← count_hits fresh intOrBool mem sameEvent] at enough
    exact ⟨_, e, mem, ⟨rfl, rfl, rfl⟩, sameEvent, enough⟩

end IndexingTable

open IndexingTable (installed IntOrBool reports_iff exists_of_mem_matching)

/-! ## Without repetitions -/

/-- A list of constraints without repetitions is as long as its different constraints. -/
theorem length_distinct_of_unrepeated {cs : List Constraint}
    (intOrBool : ∀ c ∈ cs, c.IntOrBool) (unrepeated : cs.Pairwise fun c x => c.equals x = false) :
    (distinct cs).length = cs.length := by
  have nodup : (cs.map Constraint.settled).Nodup := by
    rw [List.nodup_iff_pairwise_ne, List.pairwise_map]
    refine (List.pairwise_iff_forall_sublist.mpr fun {c x} sub same => ?_)
    have differ := List.pairwise_iff_forall_sublist.mp unrepeated sub
    have inCs : c ∈ cs := sub.subset List.mem_cons_self
    rw [(Constraint.equals_iff (intOrBool c inCs)).mpr same] at differ
    cases differ
  unfold distinct
  rw [nodup.dedup, List.length_map]

theorem forall_distinct {p : Constraint → Prop} (norm : ∀ c : Constraint, p c.settled ↔ p c)
    {cs : List Constraint} : (∀ c ∈ distinct cs, p c) ↔ ∀ c ∈ cs, p c := by
  simp only [distinct, List.mem_dedup, List.forall_mem_map, norm]

/-- At most one attribute satisfies a constraint if the names differ. -/
theorem countP_satisfiedBy_le_one {attributes : List Attribute}
    (names : (attributes.map Attribute.name).Nodup) (c : Constraint) :
    attributes.countP c.satisfiedBy ≤ 1 := by
  have byName : attributes.countP c.satisfiedBy ≤ (attributes.map Attribute.name).count c.name := by
    rw [List.count, List.countP_map]
    refine List.countP_mono_left fun a _ satisfied => ?_
    have sameName := (Bool.and_eq_true _ _).mp satisfied
    exact beq_iff_eq.mpr (of_decide_eq_true sameName.1)
  exact byName.trans (List.nodup_iff_count_le_one.mp names _)

/-- With distinct rule ids, no repeated constraints and no repeated attribute names, the elements
reported are exactly those whose type is the packet's and whose constraints are all satisfied. -/
theorem reported_iff_satisfied {alloc : Nat → Nat} (fresh : Function.Injective alloc)
    {rules : List RulePkt} (ids : (rules.map RulePkt.ruleId).Nodup) (intOrBool : IntOrBool rules)
    (unrepeated : ∀ r ∈ rules, ∀ e ∈ r.elements,
      e.constraints.Pairwise fun c x => c.equals x = false)
    {pkt : PubPkt} (names : (pkt.attributes.map Attribute.name).Nodup) :
    (∀ r ∈ rules, ∀ e ∈ r.elements,
      (installed alloc rules).Reports pkt r.ruleId e ↔ e.eventType = pkt.eventType ∧
        ∀ c ∈ e.constraints, ∃ a ∈ pkt.attributes, c.satisfiedBy a = true) ∧
    ∀ type ruleId i,
      i ∈ ((installed alloc rules).processMessage pkt .empty).matching type ruleId →
        ∃ r ∈ rules, r.ruleId = ruleId ∧ ∃ e ∈ r.elements, e.stateType = type ∧ e.stateId = i := by
  refine ⟨fun r inRules e isElement => ?_, fun type ruleId i => exists_of_mem_matching⟩
  have identified : ∀ r' ∈ rules, r'.ruleId = r.ruleId → r' = r :=
    fun r' inRules' same => List.inj_on_of_nodup_map ids inRules' inRules same
  have length := length_distinct_of_unrepeated (intOrBool r inRules e isElement)
    (unrepeated r inRules e isElement)
  have norm : ∀ c : Constraint, pkt.attributes.countP c.settled.satisfiedBy = 1 ↔
      pkt.attributes.countP c.satisfiedBy = 1 := fun c => by rw [Constraint.satisfiedBy_settled]
  rw [reports_iff fresh intOrBool inRules identified isElement, ← length,
    Tally.length_le_sum_iff fun c _ => countP_satisfiedBy_le_one names c, forall_distinct norm]
  refine and_congr_right fun _ => forall_congr' fun c => forall_congr' fun _ => ?_
  have le_one := countP_satisfiedBy_le_one names c
  rw [← List.countP_pos_iff]
  omega

/-! Two rules that share a constraint, and a packet that satisfies both. -/

def intConstraint (name : CString) (op : Op) (v : Int) : Constraint :=
  { name, op, type := .int, intVal := v, floatVal := 0, boolVal := false, stringVal := [] }

def boolConstraint (name : CString) (op : Op) (v : Bool) : Constraint :=
  { name, op, type := .bool, intVal := 0, floatVal := 0, boolVal := v, stringVal := [] }

/-- A rule with one state, for events of type 1. -/
def oneEventRule (lastId : Nat) (constraints : List Constraint) : RulePkt :=
  let pkt := (RulePkt.new false lastId).1
  (pkt.addRootPredicate 1 constraints).getD pkt

def hotNoSmoke : List Constraint := [intConstraint ['t'] .gt 45, boolConstraint ['s'] .ne true]

def sharingRules : List RulePkt :=
  [oneEventRule 0 hotNoSmoke, oneEventRule 1 [intConstraint ['t'] .gt 45]]

def hotPkt : PubPkt := PubPkt.new 1 [⟨['s'], .bool false 0⟩, ⟨['t'], .int 50⟩] 0

theorem sharingRules_intOrBool : IntOrBool sharingRules := by
  simp [IntOrBool, sharingRules, hotNoSmoke, oneEventRule, RulePkt.addRootPredicate, RulePkt.new,
    RulePkt.elements, Constraint.IntOrBool, intConstraint, boolConstraint]

theorem sharingRules_reported_iff_satisfied :
    (installed id sharingRules).Reports hotPkt 0 ⟨.state, 0, 1, hotNoSmoke⟩ := by
  have exactly := reported_iff_satisfied Function.injective_id (by decide) sharingRules_intOrBool
    (by decide) (by decide : (hotPkt.attributes.map Attribute.name).Nodup)
  have inRules : oneEventRule 0 hotNoSmoke ∈ sharingRules := by decide
  refine (exactly.1 (oneEventRule 0 hotNoSmoke) inRules ⟨.state, 0, 1, hotNoSmoke⟩ ?_).mpr ?_
  · decide
  · decide

/-! ## With repetitions -/

/-- The attribute that `getAttributeIndexAndType` selects for a name. -/
def PubPkt.selected (pkt : PubPkt) (name : CString) : Option Attribute :=
  (pkt.getAttributeIndexAndType name).bind fun x => pkt.attributes[x.1]?

/-- The attributes other than the selected one. -/
def PubPkt.others (pkt : PubPkt) (name : CString) : List Attribute :=
  match pkt.getAttributeIndexAndType name with
  | some (index, _) => pkt.attributes.eraseIdx index
  | none => pkt.attributes

/-- The selected attribute satisfies the constraint. -/
def PubPkt.selectedSatisfies (pkt : PubPkt) (c : Constraint) : Bool :=
  (pkt.selected c.name).any c.satisfiedBy

/-- How many constraints repeat an earlier one. -/
def repeats (cs : List Constraint) : Nat := cs.length - (distinct cs).length

/-- How many different constraints the selected attributes do not satisfy. -/
def missing (pkt : PubPkt) (cs : List Constraint) : Nat :=
  (distinct cs).countP fun c => !pkt.selectedSatisfies c

/-- How often the different constraints are satisfied by attributes that are not selected. -/
def surplus (pkt : PubPkt) (cs : List Constraint) : Nat :=
  ((distinct cs).map fun c => (pkt.others c.name).countP c.satisfiedBy).sum

/-- If the selected attributes satisfy all constraints, others must make up for the repetitions; if
not, they must not make up for what is missing. -/
def CountsRight (pkt : PubPkt) (cs : List Constraint) : Prop :=
  if missing pkt cs = 0 then repeats cs ≤ surplus pkt cs
  else surplus pkt cs < repeats cs + missing pkt cs

instance (pkt : PubPkt) (cs : List Constraint) : Decidable (CountsRight pkt cs) :=
  inferInstanceAs (Decidable (if missing pkt cs = 0 then repeats cs ≤ surplus pkt cs
    else surplus pkt cs < repeats cs + missing pkt cs))

theorem countP_satisfiedBy (pkt : PubPkt) (c : Constraint) :
    pkt.attributes.countP c.satisfiedBy =
      (pkt.others c.name).countP c.satisfiedBy +
        if pkt.selectedSatisfies c = true then 1 else 0 := by
  unfold PubPkt.selectedSatisfies PubPkt.selected PubPkt.others
  cases found : pkt.getAttributeIndexAndType c.name with
  | none => simp
  | some x =>
      obtain ⟨index, type⟩ := x
      obtain ⟨index', -, typed⟩ := Option.bind_eq_some_iff.mp found
      obtain ⟨a, at_index, same⟩ := Option.map_eq_some_iff.mp typed
      cases same
      obtain ⟨lt, rfl⟩ := List.getElem?_eq_some_iff.mp at_index
      have perm := List.getElem_cons_eraseIdx_perm lt
      rw [← perm.countP_eq, List.countP_cons]
      simp [lt]

theorem sum_countP_eq (pkt : PubPkt) (cs : List Constraint) :
    ((distinct cs).map fun c => pkt.attributes.countP c.satisfiedBy).sum + missing pkt cs =
      surplus pkt cs + (distinct cs).length := by
  have total : (distinct cs).length = (distinct cs).countP pkt.selectedSatisfies +
      (distinct cs).countP fun c => !pkt.selectedSatisfies c := by
    rw [List.length_eq_countP_add_countP pkt.selectedSatisfies]
    simp
  simp only [countP_satisfiedBy, List.sum_map_add, Tally.sum_map_ite_one]
  unfold surplus missing
  omega

theorem length_distinct_le (cs : List Constraint) : (distinct cs).length ≤ cs.length := by
  unfold distinct
  have := (List.dedup_sublist (cs.map Constraint.settled)).length_le
  rwa [List.length_map] at this

theorem missing_eq_zero_iff (pkt : PubPkt) (cs : List Constraint) :
    missing pkt cs = 0 ↔ ∀ c ∈ cs, pkt.selectedSatisfies c = true := by
  have norm : ∀ c : Constraint, pkt.selectedSatisfies c.settled = true ↔
      pkt.selectedSatisfies c = true := by
    intro c
    unfold PubPkt.selectedSatisfies
    rw [Constraint.satisfiedBy_settled]
    rfl
  rw [← forall_distinct norm, missing, List.countP_eq_zero]
  simp only [Bool.not_eq_true', Bool.not_eq_false]

/-- A packet reports an element exactly if its type is right and the selected attributes satisfy its
constraints, provided that the packet is of another type or the counts come out right. -/
theorem countingIsConjunction_iff {alloc : Nat → Nat} (fresh : Function.Injective alloc)
    {rules : List RulePkt} (intOrBool : IntOrBool rules) {r : RulePkt} (inRules : r ∈ rules)
    (identified : ∀ r' ∈ rules, r'.ruleId = r.ruleId → r' = r) {e : Element}
    (isElement : e ∈ r.elements) (pkt : PubPkt) :
    ((installed alloc rules).Reports pkt r.ruleId e ↔ e.eventType = pkt.eventType ∧
        ∀ c ∈ e.constraints, pkt.selectedSatisfies c = true) ↔
      (e.eventType = pkt.eventType → CountsRight pkt e.constraints) := by
  have sum := sum_countP_eq pkt e.constraints
  have le := length_distinct_le e.constraints
  rw [reports_iff fresh intOrBool inRules identified isElement, ← missing_eq_zero_iff]
  by_cases sameEvent : e.eventType = pkt.eventType
  · simp only [sameEvent, true_and, true_implies]
    unfold CountsRight repeats
    split <;> omega
  · simp [sameEvent]

/-! A constraint written twice is never satisfied often enough, and an attribute sent twice stands
in for one that is missing. -/

def twiceRule : RulePkt :=
  oneEventRule 0 [intConstraint ['t'] .gt 45, intConstraint ['t'] .gt 45]

def hotAndDry : List Constraint := [intConstraint ['t'] .gt 45, intConstraint ['h'] .lt 20]

def pairRule : RulePkt := oneEventRule 0 hotAndDry

def twicePkt : PubPkt := PubPkt.new 1 [⟨['t'], .int 50⟩, ⟨['t'], .int 60⟩] 0

theorem twiceRule_not_reported :
    (∃ e ∈ twiceRule.elements, e.eventType = hotPkt.eventType ∧
      (∀ c ∈ e.constraints, hotPkt.selectedSatisfies c = true) ∧
      ¬ (installed id [twiceRule]).Reports hotPkt 0 e) ∧
    ∃ e ∈ pairRule.elements, (installed id [pairRule]).Reports twicePkt 0 e ∧
      ¬ ∀ c ∈ e.constraints, twicePkt.selectedSatisfies c = true := by
  decide

theorem pairRule_countingIsConjunction :
    (installed id [pairRule]).Reports hotPkt 0 ⟨.state, 0, 1, hotAndDry⟩ ↔
      (1 : Int) = hotPkt.eventType ∧ ∀ c ∈ hotAndDry, hotPkt.selectedSatisfies c = true := by
  have intOrBool : IntOrBool [pairRule] := by
    simp [IntOrBool, pairRule, hotAndDry, oneEventRule, RulePkt.addRootPredicate, RulePkt.new,
      RulePkt.elements, Constraint.IntOrBool, intConstraint]
  have inRules : pairRule ∈ [pairRule] := List.mem_singleton.mpr rfl
  have isElement : (⟨.state, 0, 1, hotAndDry⟩ : Element) ∈ pairRule.elements := by decide
  refine (countingIsConjunction_iff Function.injective_id intOrBool inRules
    (fun r' mem _ => List.mem_singleton.mp mem) isElement hotPkt).mpr ?_
  decide

end TRex
