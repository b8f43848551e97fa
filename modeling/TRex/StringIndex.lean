import Mathlib.Data.Char
import Mathlib.Data.List.Lex
import Mathlib.Data.List.Perm.Subperm
import TRex.IndexExactness

/-!
# The index of string constraints

`StringConstraintIndex::getConstraint` passes over stored constraints with the value it looks for,
so constraints of one attribute name and one operator (a group) are shared the wrong way round: one
with a new value is connected to a table constraint with another value, and one with the value
already stored gets a table constraint of its own, which the map does not take. All table
constraints of a group have the value of the first constraint installed, its founder, and only the
founder's is in the maps (`Founded`). A message therefore counts a predicate once for each group
whose founder it satisfies and whose founder the predicate is connected to (`count_hitsOf`), which
decides when a report is right (`stringReport_iff`).
-/

namespace TRex

namespace StringConstraintIndex

/-! ## Groups and founders -/

/-- A call of `installConstraint`: the address a new table constraint would get, the constraint and
the predicate. -/
abbrev Call := Nat × Constraint × TablePred

def inGroup (name : CString) (op : Op) (call : Call) : Bool :=
  decide (call.2.1.name = name) && decide (call.2.1.op = op)

/-- The first call of a group. -/
def founder? (calls : List Call) (name : CString) (op : Op) : Option Call :=
  calls.find? (inGroup name op)

/-- The call connects its predicate to the table constraint of the founder: it is the founder
itself, or it has another value and no table constraint of the group is at a smaller address. -/
def joins (before : List Call) (call : Call) : Bool :=
  match founder? before call.2.1.name call.2.1.op with
  | none => true
  | some f => decide (call.2.1.stringVal ≠ f.2.1.stringVal) && before.all fun other =>
      !(inGroup call.2.1.name call.2.1.op other &&
          decide (other.2.1.stringVal = f.2.1.stringVal)) ||
        decide (f.1 ≤ other.1)

/-- Some call connects the predicate to the founder of the group. -/
def linked (calls : List Call) (name : CString) (op : Op) (tp : TablePred) : Bool :=
  calls.zipIdx.any fun x =>
    inGroup name op x.1 && decide (x.1.2.2 = tp) && joins (calls.take x.2) x.1

theorem inGroup_iff {name : CString} {op : Op} {call : Call} :
    inGroup name op call = true ↔ call.2.1.name = name ∧ call.2.1.op = op := by
  simp [inGroup]

theorem founder?_some {calls : List Call} {name : CString} {op : Op} {f : Call}
    (found : founder? calls name op = some f) :
    f ∈ calls ∧ f.2.1.name = name ∧ f.2.1.op = op :=
  ⟨List.mem_of_find?_eq_some found, inGroup_iff.mp (List.find?_some found)⟩

theorem founder?_none {calls : List Call} {name : CString} {op : Op}
    (absent : founder? calls name op = none) {call : Call} (mem : call ∈ calls) :
    ¬ inGroup name op call = true :=
  List.find?_eq_none.mp absent call mem

theorem founder?_concat (calls : List Call) (call : Call) (name : CString) (op : Op) :
    founder? (calls ++ [call]) name op =
      (founder? calls name op).or (if inGroup name op call = true then some call else none) := by
  unfold founder?
  rw [List.find?_append, List.find?_singleton]

theorem founder?_concat_of_some {calls : List Call} {call f : Call} {name : CString} {op : Op}
    (found : founder? calls name op = some f) : founder? (calls ++ [call]) name op = some f := by
  rw [founder?_concat, found, Option.some_or]

/-- A founder stays the founder of its group. -/
theorem founder?_concat_cases {calls : List Call} {call f : Call} {name : CString} {op : Op}
    (found : founder? (calls ++ [call]) name op = some f) :
    founder? calls name op = some f ∨
      (founder? calls name op = none ∧ f = call ∧ inGroup name op call = true) := by
  rw [founder?_concat] at found
  cases before : founder? calls name op with
  | some f' =>
      rw [before, Option.some_or] at found
      exact .inl found
  | none =>
      rw [before, Option.none_or] at found
      obtain ⟨isGroup, same⟩ := Option.ite_none_right_eq_some.mp found
      cases same
      exact .inr ⟨rfl, rfl, isGroup⟩

/-- No group gets a founder by a call of a group that has one. -/
theorem founder?_concat_of_founded {calls : List Call} {call f : Call}
    (found : founder? calls call.2.1.name call.2.1.op = some f) (name : CString) (op : Op) :
    founder? (calls ++ [call]) name op = founder? calls name op := by
  rw [founder?_concat]
  by_cases isGroup : inGroup name op call = true
  · obtain ⟨rfl, rfl⟩ := inGroup_iff.mp isGroup
    rw [found, Option.some_or]
  · rw [if_neg isGroup, Option.or_none]

theorem exists_founder? {calls : List Call} {call : Call} (mem : call ∈ calls) :
    ∃ f, founder? calls call.2.1.name call.2.1.op = some f := by
  cases found : founder? calls call.2.1.name call.2.1.op with
  | some f => exact ⟨f, rfl⟩
  | none => exact absurd (inGroup_iff.mpr ⟨rfl, rfl⟩) (founder?_none found mem)

theorem linked_concat (calls : List Call) (call : Call) (name : CString) (op : Op)
    (tp : TablePred) : linked (calls ++ [call]) name op tp =
      (linked calls name op tp ||
        (inGroup name op call && decide (call.2.2 = tp) && joins calls call)) := by
  unfold linked
  rw [List.zipIdx_append, List.any_append]
  congr 1
  · rw [Bool.eq_iff_iff, List.any_eq_true, List.any_eq_true]
    refine exists_congr fun x => and_congr_right fun mem => ?_
    have lt := (List.mem_zipIdx mem).2.1
    rw [List.take_append_of_le_length (by omega)]
  · simp

theorem linked_concat_iff {calls : List Call} {call : Call} {name : CString} {op : Op}
    {tp : TablePred} : linked (calls ++ [call]) name op tp = true ↔
      linked calls name op tp = true ∨
        (call.2.2 = tp ∧ inGroup name op call = true ∧ joins calls call = true) := by
  rw [linked_concat, Bool.or_eq_true, Bool.and_eq_true, Bool.and_eq_true, decide_eq_true_iff]
  exact or_congr_right ⟨fun ⟨⟨isGroup, same⟩, isJoined⟩ => ⟨same, isGroup, isJoined⟩,
    fun ⟨same, isGroup, isJoined⟩ => ⟨⟨isGroup, same⟩, isJoined⟩⟩

theorem exists_of_linked {calls : List Call} {name : CString} {op : Op} {tp : TablePred}
    (isLinked : linked calls name op tp = true) :
    ∃ call ∈ calls, call.2.2 = tp ∧ call.2.1.name = name ∧ call.2.1.op = op := by
  obtain ⟨x, mem, passes⟩ := List.any_eq_true.mp isLinked
  rw [Bool.and_eq_true, Bool.and_eq_true, decide_eq_true_iff, inGroup_iff] at passes
  exact ⟨x.1, List.fst_mem_of_mem_zipIdx mem, passes.1.2, passes.1.1⟩

theorem not_linked_of_no_founder {calls : List Call} {name : CString} {op : Op}
    (none : founder? calls name op = none) (tp : TablePred) :
    ¬ linked calls name op tp = true := by
  intro isLinked
  obtain ⟨call, isCall, -, group⟩ := exists_of_linked isLinked
  exact founder?_none none isCall (inGroup_iff.mpr group)

/-- A call with the value of its founder does not connect its predicate to it. -/
theorem not_joins_of_sameVal {calls : List Call} {call f : Call}
    (found : founder? calls call.2.1.name call.2.1.op = some f)
    (sameVal : call.2.1.stringVal = f.2.1.stringVal) : ¬ joins calls call = true := by
  intro isJoined
  unfold joins at isJoined
  rw [found] at isJoined
  exact of_decide_eq_true (Bool.and_eq_true_iff.mp isJoined).1 sameVal

theorem joins_of_no_founder {calls : List Call} {call : Call}
    (none : founder? calls call.2.1.name call.2.1.op = none) : joins calls call = true := by
  unfold joins
  rw [none]

/-! ## What the index holds -/

/-- Every table constraint has the value of the founder of its group, and only the founder's is in
the map of the group. -/
structure Founded (idx : ConstraintIndex CString) (calls : List Call) : Prop where
  addresses : OrdMap.Sorted idx.usedConstraints
  used : ∀ addr itc, (addr, itc) ∈ idx.usedConstraints →
    ∃ f, founder? calls itc.name itc.op = some f ∧ itc.val = f.2.1.stringVal ∧
      ∃ call ∈ calls, call.1 = addr ∧ (call.2.1.name = itc.name ∧ call.2.1.op = itc.op) ∧
        call.2.1.stringVal = f.2.1.stringVal
  created : ∀ call ∈ calls, ∀ f, founder? calls call.2.1.name call.2.1.op = some f →
    call.2.1.stringVal = f.2.1.stringVal →
    ∃ itc, (call.1, itc) ∈ idx.usedConstraints ∧ itc.name = call.2.1.name ∧ itc.op = call.2.1.op
  indexes : ∀ name op m, kind.mapOf op = some m → idx.indexes name m =
    ((founder? calls name op).map fun f => (f.2.1.stringVal, f.1)).toList
  connected : ∀ name op f, founder? calls name op = some f →
    ∀ itc, (f.1, itc) ∈ idx.usedConstraints → itc.connectedPredicates.Nodup ∧
      ∀ tp, tp ∈ itc.connectedPredicates ↔ linked calls name op tp = true

theorem Founded.empty : Founded ConstraintIndex.empty [] where
  addresses := OrdMap.Sorted.nil
  used := by simp [ConstraintIndex.empty]
  created := by simp
  indexes := by simp [ConstraintIndex.empty, founder?]
  connected := by simp [founder?]

variable {idx : ConstraintIndex CString} {calls : List Call}

theorem Founded.addr_mem (founded : Founded idx calls) {e : Nat × TableConstraint CString}
    (mem : e ∈ idx.usedConstraints) : ∃ call ∈ calls, call.1 = e.1 := by
  obtain ⟨f, -, -, call, isCall, at_, -⟩ := founded.used e.1 e.2 mem
  exact ⟨call, isCall, at_⟩

/-- The founder of a group has a table constraint of the group. -/
theorem Founded.of_founder (founded : Founded idx calls) {name : CString} {op : Op} {f : Call}
    (found : founder? calls name op = some f) :
    ∃ itc, (f.1, itc) ∈ idx.usedConstraints ∧ itc.name = name ∧ itc.op = op := by
  obtain ⟨mem, rfl, rfl⟩ := founder?_some found
  exact founded.created f mem f found rfl

theorem mapOf_eq_some {op : Op} {m : OpMap} :
    kind.mapOf op = some m ↔ (op = .eq ∧ m = .eq) ∨ (op = .in_ ∧ m = .in_) := by
  cases op <;> cases m <;> simp [kind]

theorem mapOf_inj {op op' : Op} {m : OpMap} (hasMap : kind.mapOf op = some m)
    (hasMap' : kind.mapOf op' = some m) : op = op' := by
  rcases mapOf_eq_some.mp hasMap with ⟨rfl, rfl⟩ | ⟨rfl, rfl⟩
  · exact (by simpa using mapOf_eq_some.mp hasMap' : op' = .eq).symm
  · exact (by simpa using mapOf_eq_some.mp hasMap' : op' = .in_).symm

/-- `getConstraint` finds nothing if the group has no other value. -/
theorem Founded.getConstraint_none (founded : Founded idx calls) {c : Constraint}
    (sameVal : ∀ f, founder? calls c.name c.op = some f → c.stringVal = f.2.1.stringVal) :
    idx.getConstraint kind c = none := by
  unfold ConstraintIndex.getConstraint
  rw [Option.map_eq_none_iff, List.find?_eq_none]
  intro e mem passes
  simp only [kind, Bool.and_eq_true, decide_eq_true_eq, Bool.not_eq_true', beq_eq_false_iff_ne]
    at passes
  obtain ⟨⟨op, differs⟩, name⟩ := passes
  obtain ⟨f, found, val, -⟩ := founded.used e.1 e.2 mem
  rw [op, name] at found
  exact differs (val.trans (sameVal f found).symm)

/-- Otherwise it finds the table constraint of the group at the least address. -/
theorem Founded.getConstraint_some (founded : Founded idx calls) {c : Constraint} {f : Call}
    (found : founder? calls c.name c.op = some f) (differs : c.stringVal ≠ f.2.1.stringVal) :
    ∃ addr itc, idx.getConstraint kind c = some addr ∧ (addr, itc) ∈ idx.usedConstraints ∧
      (itc.name = c.name ∧ itc.op = c.op) ∧ ∀ addr' itc', (addr', itc') ∈ idx.usedConstraints →
        itc'.name = c.name → itc'.op = c.op → addr ≤ addr' := by
  have passes : ∀ e ∈ idx.usedConstraints, e.2.name = c.name → e.2.op = c.op →
      (decide (e.2.op = c.op) && !kind.skips e.2.val (kind.constraintVal c) &&
        decide (e.2.name = c.name)) = true := by
    intro e mem name op
    obtain ⟨f', found', val, -⟩ := founded.used e.1 e.2 mem
    rw [name, op, found] at found'
    cases found'
    have ne : e.2.val ≠ c.stringVal := fun same => differs (same.symm.trans val)
    simp [kind, name, op, ne]
  obtain ⟨itcF, memF, nameF, opF⟩ := founded.of_founder found
  have passF := passes (f.1, itcF) memF nameF opF
  cases first : idx.usedConstraints.find? fun x => decide (x.2.op = c.op) &&
      !kind.skips x.2.val (kind.constraintVal c) && decide (x.2.name = c.name) with
  | none => exact absurd passF (List.find?_eq_none.mp first _ memF)
  | some e =>
      have pass := List.find?_some first
      rw [Bool.and_eq_true, Bool.and_eq_true, decide_eq_true_iff, decide_eq_true_iff] at pass
      have result : idx.getConstraint kind c = some e.1 := congrArg (Option.map Prod.fst) first
      refine ⟨e.1, e.2, result, List.mem_of_find?_eq_some first, ⟨pass.2, pass.1.1⟩, ?_⟩
      intro addr' itc' mem' name' op'
      exact founded.addresses.le_of_find? first mem' (passes _ mem' name' op')

/-! ## Installation -/

section Share

variable {call f : Call} {addr : Nat} {first : TableConstraint CString}

/-- With the first table constraint of a group at `addr`, the founder has it if a call of the group
that looks for it joins the founder, and only then. -/
theorem Founded.joins_iff (founded : Founded idx calls)
    (found : founder? calls call.2.1.name call.2.1.op = some f)
    (differs : call.2.1.stringVal ≠ f.2.1.stringVal)
    (memFirst : (addr, first) ∈ idx.usedConstraints)
    (group : first.name = call.2.1.name ∧ first.op = call.2.1.op)
    (least : ∀ addr' itc', (addr', itc') ∈ idx.usedConstraints →
      itc'.name = call.2.1.name → itc'.op = call.2.1.op → addr ≤ addr') :
    joins calls call = true ↔ f.1 = addr := by
  obtain ⟨itcF, memF, nameF, opF⟩ := founded.of_founder found
  have ge := least f.1 itcF memF nameF opF
  unfold joins
  rw [found]
  constructor
  · intro isJoined
    -- the call that created the first table constraint is none of those at a smaller address
    obtain ⟨f', found', -, call', isCall, rfl, group', sameVal⟩ := founded.used addr first memFirst
    rw [group.1, group.2] at found' group'
    rw [found] at found'
    cases found'
    have all := List.all_eq_true.mp (Bool.and_eq_true_iff.mp isJoined).2 call' isCall
    rw [inGroup_iff.mpr group', decide_eq_true sameVal] at all
    have le : f.1 ≤ call'.1 := by simpa using all
    omega
  · intro at_
    refine Bool.and_eq_true_iff.mpr ⟨decide_eq_true differs, List.all_eq_true.mpr ?_⟩
    intro other isCall
    by_cases creates : inGroup call.2.1.name call.2.1.op other = true ∧
        other.2.1.stringVal = f.2.1.stringVal
    · obtain ⟨isGroup, sameVal⟩ := creates
      obtain ⟨name', op'⟩ := inGroup_iff.mp isGroup
      have found' : founder? calls other.2.1.name other.2.1.op = some f := by
        rw [name', op', found]
      obtain ⟨itc', mem', group'⟩ := founded.created other isCall f found' sameVal
      have le := least other.1 itc' mem' (group'.1.trans name') (group'.2.trans op')
      simp [at_, le]
    · simp only [not_and_or, Bool.not_eq_true] at creates
      rcases creates with other_ | other_ <;> simp [other_]

/-- The first table constraint of a group belongs to that group's founder or to none. -/
theorem Founded.group_of_address (founded : Founded idx calls) {name : CString} {op : Op}
    (found : founder? calls name op = some f) (memFirst : (f.1, first) ∈ idx.usedConstraints) :
    first.name = name ∧ first.op = op := by
  obtain ⟨itcF, memF, group⟩ := founded.of_founder found
  obtain rfl := founded.addresses.eq_of_key memF memFirst
  exact group

/-- A constraint with another value than its group is connected to the first table constraint. -/
theorem Founded.share (founded : Founded idx calls)
    (found : founder? calls call.2.1.name call.2.1.op = some f)
    (differs : call.2.1.stringVal ≠ f.2.1.stringVal) :
    Founded (idx.installConstraint kind call.1 call.2.1 call.2.2) (calls ++ [call]) := by
  obtain ⟨addr, first, result, memFirst, group, least⟩ := founded.getConstraint_some found differs
  have installed : idx.installConstraint kind call.1 call.2.1 call.2.2 =
      idx.connect addr call.2.2 := by
    unfold ConstraintIndex.installConstraint
    rw [result]
  have sameFounder := founder?_concat_of_founded found
  rw [installed]
  refine ⟨List.pairwise_map.mpr founded.addresses, ?_, ?_, ?_, ?_⟩
  · intro a itc mem
    obtain ⟨old, inOld, rfl⟩ := ConstraintIndex.mem_connect.mp mem
    obtain ⟨f', found', val, call', isCall, rest⟩ := founded.used a old inOld
    rw [sameFounder]
    have isCall' : call' ∈ calls ++ [call] := List.mem_append_left _ isCall
    split <;> exact ⟨f', found', val, call', isCall', rest⟩
  · intro call' isCall f' found' sameVal
    rw [sameFounder] at found'
    rcases List.mem_append.mp isCall with isCall | isLast
    · obtain ⟨old, inOld, group'⟩ := founded.created call' isCall f' found' sameVal
      refine ⟨_, ConstraintIndex.mem_connect.mpr ⟨old, inOld, rfl⟩, ?_⟩
      split <;> exact group'
    · rw [List.mem_singleton.mp isLast] at found' sameVal
      rw [found] at found'
      cases found'
      exact absurd sameVal differs
  · intro name op m hasMap
    rw [sameFounder]
    exact founded.indexes name op m hasMap
  · intro name op f' found' itc mem
    rw [sameFounder] at found'
    obtain ⟨old, inOld, rfl⟩ := ConstraintIndex.mem_connect.mp mem
    obtain ⟨nodup, isLinked⟩ := founded.connected name op f' found' old inOld
    have joined : (inGroup name op call = true ∧ joins calls call = true) ↔ f'.1 = addr := by
      rw [founded.joins_iff found differs memFirst group least]
      constructor
      · intro ⟨isGroup, at_⟩
        obtain ⟨rfl, rfl⟩ := inGroup_iff.mp isGroup
        rw [found] at found'
        cases found'
        exact at_
      · intro at_
        rw [← at_] at memFirst
        obtain ⟨name', op'⟩ := founded.group_of_address found' memFirst
        obtain ⟨rfl, rfl⟩ : call.2.1.name = name ∧ call.2.1.op = op :=
          ⟨group.1.symm.trans name', group.2.symm.trans op'⟩
        rw [found] at found'
        cases found'
        exact ⟨inGroup_iff.mpr ⟨rfl, rfl⟩, at_⟩
    by_cases here : f'.1 = addr
    · rw [if_pos here]
      refine ⟨nodup.insert, fun tp => ?_⟩
      rw [linked_concat_iff, joined, ← isLinked]
      simp only [TableConstraint.insertPredicate, List.mem_insert_iff, here, and_true]
      rw [or_comm, eq_comm]
    · rw [if_neg here]
      refine ⟨nodup, fun tp => ?_⟩
      rw [linked_concat_iff, joined, ← isLinked]
      simp [here]

end Share

theorem lt_iff (s t : CString) : CString.lt s t = true ↔ s < t := decide_eq_true_iff

section Create

variable {call : Call}

/-- Only the first table constraint of a group gets into its map. -/
theorem Founded.indexes_create (founded : Founded idx calls)
    (sameVal : ∀ f, founder? calls call.2.1.name call.2.1.op = some f →
      call.2.1.stringVal = f.2.1.stringVal) {name : CString} {op : Op} {m : OpMap}
    (hasMap : kind.mapOf op = some m) :
    (idx.installTableConstraint kind call.1
      (ConstraintIndex.createConstraint kind call.2.1)).indexes name m =
      ((founder? (calls ++ [call]) name op).map fun f => (f.2.1.stringVal, f.1)).toList := by
  have unchanged := founded.indexes name op m hasMap
  unfold ConstraintIndex.installTableConstraint
  by_cases isGroup : inGroup name op call = true
  · obtain ⟨rfl, rfl⟩ := inGroup_iff.mp isGroup
    simp only [ConstraintIndex.createConstraint, hasMap, Function.update_self]
    rw [unchanged, founder?_concat, if_pos isGroup]
    cases before : founder? calls call.2.1.name call.2.1.op with
    | none => rfl
    | some f' =>
        -- the map keeps the entry of the founder
        have notLess : ¬ CString.lt f'.2.1.stringVal f'.2.1.stringVal = true := by
          rw [lt_iff]
          exact lt_irrefl _
        have keyLt : kind.keyLt = CString.lt := rfl
        have val : kind.constraintVal call.2.1 = f'.2.1.stringVal := sameVal f' before
        simp only [Option.map_some, Option.toList_some, Option.some_or, OrdMap.insert, keyLt, val,
          if_neg notLess]
  · have other : founder? (calls ++ [call]) name op = founder? calls name op := by
      rw [founder?_concat, if_neg isGroup, Option.or_none]
    rw [other, ← unchanged]
    split
    · rfl
    · rename_i m' hasMap'
      by_cases sameName : name = call.2.1.name
      · subst sameName
        have differ : m ≠ m' := by
          intro same
          rw [same] at hasMap
          exact isGroup (inGroup_iff.mpr ⟨rfl, mapOf_inj hasMap' hasMap⟩)
        simp only [ConstraintIndex.createConstraint, Function.update_self]
        rw [Function.update_of_ne differ]
      · simp only [ConstraintIndex.createConstraint]
        rw [Function.update_of_ne sameName]

/-- A constraint without a group, or with the value of its group, gets a table constraint of its
own. -/
theorem Founded.create (founded : Founded idx calls)
    (fresh : ∀ call' ∈ calls, call'.1 ≠ call.1)
    (sameVal : ∀ f, founder? calls call.2.1.name call.2.1.op = some f →
      call.2.1.stringVal = f.2.1.stringVal) :
    Founded (idx.installConstraint kind call.1 call.2.1 call.2.2) (calls ++ [call]) := by
  have unused : ∀ e ∈ idx.usedConstraints, e.1 ≠ call.1 := by
    intro e mem
    obtain ⟨call', isCall, at_⟩ := founded.addr_mem mem
    exact at_ ▸ fresh call' isCall
  -- the index with the new table constraint, not yet connected
  generalize newIdx : idx.installTableConstraint kind call.1
    (ConstraintIndex.createConstraint kind call.2.1) = idx'
  have installed : idx.installConstraint kind call.1 call.2.1 call.2.2 =
      idx'.connect call.1 call.2.2 := by
    unfold ConstraintIndex.installConstraint
    rw [founded.getConstraint_none sameVal, ← newIdx]
  have members : ∀ e, e ∈ idx'.usedConstraints ↔
      e ∈ idx.usedConstraints ∨ e = (call.1, ConstraintIndex.createConstraint kind call.2.1) := by
    intro e
    rw [← newIdx]
    exact ConstraintIndex.mem_installTableConstraint founded.addresses unused
  have sorted : OrdMap.Sorted idx'.usedConstraints := by
    rw [← newIdx]
    exact OrdMap.sorted_insert addrLt_iff founded.addresses
  have lastMem : call ∈ calls ++ [call] := List.mem_append_right _ (List.mem_singleton.mpr rfl)
  obtain ⟨f, found⟩ := exists_founder? lastMem
  have sameVal' : call.2.1.stringVal = f.2.1.stringVal := by
    rcases founder?_concat_cases found with before | ⟨-, rfl, -⟩
    · exact sameVal f before
    · rfl
  rw [installed]
  refine ⟨List.pairwise_map.mpr sorted, ?_, ?_, ?_, ?_⟩
  · intro a itc mem
    obtain ⟨old, inOld, rfl⟩ := ConstraintIndex.mem_connect.mp mem
    have ofOld : ∃ f', founder? (calls ++ [call]) old.name old.op = some f' ∧
        old.val = f'.2.1.stringVal ∧ ∃ call' ∈ calls ++ [call], call'.1 = a ∧
          (call'.2.1.name = old.name ∧ call'.2.1.op = old.op) ∧
          call'.2.1.stringVal = f'.2.1.stringVal := by
      rcases (members _).mp inOld with before | new
      · obtain ⟨f', found', val, call', isCall, rest⟩ := founded.used a old before
        exact ⟨f', founder?_concat_of_some found', val, call', List.mem_append_left _ isCall, rest⟩
      · cases new
        exact ⟨f, found, sameVal', call, lastMem, rfl, ⟨rfl, rfl⟩, sameVal'⟩
    split <;> exact ofOld
  · intro call' isCall f' found' val
    have new : ∃ old, (call'.1, old) ∈ idx'.usedConstraints ∧ old.name = call'.2.1.name ∧
        old.op = call'.2.1.op := by
      rcases List.mem_append.mp isCall with isCall | isLast
      · obtain ⟨f'', before⟩ := exists_founder? isCall
        rw [founder?_concat_of_some before] at found'
        cases found'
        obtain ⟨old, inOld, group⟩ := founded.created call' isCall f' before val
        exact ⟨old, (members _).mpr (.inl inOld), group⟩
      · rw [List.mem_singleton.mp isLast]
        exact ⟨_, (members _).mpr (.inr rfl), rfl, rfl⟩
    obtain ⟨old, inOld, group⟩ := new
    refine ⟨_, ConstraintIndex.mem_connect.mpr ⟨old, inOld, rfl⟩, ?_⟩
    split <;> exact group
  · intro name op m hasMap
    show idx'.indexes name m = _
    rw [← newIdx]
    exact founded.indexes_create sameVal hasMap
  · intro name op f' found' itc mem
    obtain ⟨old, inOld, rfl⟩ := ConstraintIndex.mem_connect.mp mem
    rcases founder?_concat_cases found' with before | ⟨none, rfl, isGroup⟩
    · -- an older founder stays as connected as it was
      have ne : f'.1 ≠ call.1 := fresh f' (founder?_some before).1
      have inOld : (f'.1, old) ∈ idx.usedConstraints := by
        rcases (members _).mp inOld with inOld | new
        · exact inOld
        · exact absurd (congrArg Prod.fst new) ne
      obtain ⟨nodup, isLinked⟩ := founded.connected name op f' before old inOld
      rw [if_neg ne]
      refine ⟨nodup, fun tp => ?_⟩
      rw [isLinked, linked_concat_iff]
      refine ⟨Or.inl, fun either => either.resolve_right fun ⟨_, isGroup, isJoined⟩ => ?_⟩
      obtain ⟨rfl, rfl⟩ := inGroup_iff.mp isGroup
      exact not_joins_of_sameVal before (sameVal f' before) isJoined
    · -- the call is the founder of its group
      have new : old = ConstraintIndex.createConstraint kind f'.2.1 := by
        rcases (members _).mp inOld with before | new
        · exact absurd rfl (unused _ before)
        · exact congrArg Prod.snd new
      have isJoined : joins calls f' = true := by
        obtain ⟨rfl, rfl⟩ := inGroup_iff.mp isGroup
        exact joins_of_no_founder none
      rw [if_pos rfl, new]
      refine ⟨List.Nodup.insert List.nodup_nil, fun tp => ?_⟩
      rw [linked_concat_iff]
      simp only [TableConstraint.insertPredicate, ConstraintIndex.createConstraint,
        List.mem_insert_iff, List.not_mem_nil, or_false, not_linked_of_no_founder none tp, isGroup,
        isJoined, Bool.false_eq_true, false_or, and_true]
      exact eq_comm

end Create

theorem founded_installAll {calls : List Call} (addresses : (calls.map Prod.fst).Nodup) :
    Founded (ConstraintIndex.installAll kind calls) calls := by
  induction calls using List.reverseRecOn with
  | nil => exact Founded.empty
  | append_singleton calls call ih =>
      rw [List.map_append, List.nodup_append] at addresses
      obtain ⟨before, -, apart⟩ := addresses
      have fresh : ∀ call' ∈ calls, call'.1 ≠ call.1 := by
        intro call' isCall
        exact apart call'.1 (List.mem_map_of_mem isCall) call.1 (List.mem_singleton.mpr rfl)
      rw [ConstraintIndex.installAll_concat]
      by_cases sameVal : ∀ f, founder? calls call.2.1.name call.2.1.op = some f →
          call.2.1.stringVal = f.2.1.stringVal
      · exact (ih before).create fresh sameVal
      · push Not at sameVal
        obtain ⟨f, found, differs⟩ := sameVal
        exact (ih before).share found differs

/-! ## Hits -/

/-- The attribute satisfies the founder of its group for the operator, and the predicate is
connected to it. -/
def serves (calls : List Call) (tp : TablePred) (a : Attribute) (op : Op) : Bool :=
  linked calls a.name op tp && (founder? calls a.name op).any fun f => f.2.1.satisfiedBy a

/-- The addresses that a scan finds in the map of an operator. -/
def visited (calls : List Call) (a : Attribute) (op : Op) : List Nat :=
  ((founder? calls a.name op).filter fun f => f.2.1.satisfiedBy a).toList.map Prod.fst

variable {calls : List Call}

theorem satisfiedBy_string {c : Constraint} (type : c.type = .string) {a : Attribute} :
    c.satisfiedBy a = true ↔
      a.name = c.name ∧ ∃ v, a.value = .string v ∧ c.op.holdsString v c.stringVal = true := by
  unfold Constraint.satisfiedBy
  rw [type]
  cases a.value <;> simp

theorem scan_eq (founded : Founded idx calls) (strings : ∀ call ∈ calls, call.2.1.type = .string)
    {a : Attribute} {v : CString} (value : a.value = .string v) :
    kind.scan v (idx.indexes a.name) = visited calls a .eq ++ visited calls a .in_ := by
  -- the one entry of a map passes the test if the attribute satisfies the founder
  have entry : ∀ op m (p : CString → Bool), kind.mapOf op = some m →
      (∀ x, op.holdsString v x = p x) →
      ((idx.indexes a.name m).filter fun e => p e.1).map Prod.snd = visited calls a op := by
    intro op m p hasMap holds
    rw [founded.indexes a.name op m hasMap]
    unfold visited
    cases found : founder? calls a.name op with
    | none => rfl
    | some f =>
        obtain ⟨mem, name, sameOp⟩ := founder?_some found
        have test : f.2.1.satisfiedBy a = p f.2.1.stringVal := by
          rw [Bool.eq_iff_iff, satisfiedBy_string (strings f mem), ← holds, sameOp, name, value]
          simp
        cases pass : p f.2.1.stringVal <;> simp [Option.filter, test, pass]
  have sorted : OrdMap.Sorted (idx.indexes a.name .eq) := by
    rw [founded.indexes a.name .eq .eq rfl]
    cases founder? calls a.name .eq with
    | none => exact OrdMap.Sorted.nil
    | some f => exact List.pairwise_singleton _ _
  have eq := entry .eq .eq (fun x => @decide (x = v) (LinearOrder.toDecidableEq x v)) rfl
    fun x => decide_eq_decide.mpr eq_comm
  have in_ := entry .in_ .in_ (fun x => CString.contains v x) rfl fun x => rfl
  unfold kind
  simp only
  rw [OrdMap.toList_find? lt_iff sorted, eq, in_]

/-- A visit counts the predicates connected to the founder. -/
theorem count_visited (founded : Founded idx calls) (tp : TablePred) (a : Attribute) (op : Op) :
    ((visited calls a op).flatMap idx.predicatesAt).count tp =
      if serves calls tp a op = true then 1 else 0 := by
  unfold visited serves
  cases found : founder? calls a.name op with
  | none => simp
  | some f =>
      obtain ⟨itc, mem, -⟩ := founded.of_founder found
      obtain ⟨nodup, isLinked⟩ := founded.connected a.name op f found itc mem
      have predicates : idx.predicatesAt f.1 = itc.connectedPredicates := by
        unfold ConstraintIndex.predicatesAt
        rw [(OrdMap.find?_eq_some addrLt_iff founded.addresses).mpr mem]
        rfl
      cases satisfied : f.2.1.satisfiedBy a with
      | false => simp [Option.filter, satisfied]
      | true =>
          simp only [Option.filter, satisfied, if_true, Option.toList_some, List.map_cons,
            List.map_nil, List.flatMap_cons, List.flatMap_nil, List.append_nil, Option.any_some,
            Bool.and_true, predicates, nodup.count, isLinked]

/-- An attribute hits a predicate once for each operator whose founder serves it. -/
theorem count_hitsOf (founded : Founded idx calls)
    (strings : ∀ call ∈ calls, call.2.1.type = .string) (a : Attribute) (tp : TablePred) :
    (idx.hitsOf kind a).count tp = [Op.eq, .in_].countP (serves calls tp a) := by
  unfold ConstraintIndex.hitsOf
  by_cases typed : a.type = kind.type
  · have value : ∃ v, a.value = .string v := by
      have type : a.value.type = .string := typed
      cases value : a.value with
      | string v => exact ⟨v, rfl⟩
      | int v => rw [value] at type; cases type
      | float v => rw [value] at type; cases type
      | bool v pad => rw [value] at type; cases type
    obtain ⟨v, value⟩ := value
    have attributeVal : kind.attributeVal a = v := by
      unfold kind
      simp only
      rw [value]
      rfl
    rw [if_pos typed, attributeVal, scan_eq founded strings value, List.flatMap_append,
      List.count_append, count_visited founded, count_visited founded, List.countP_cons,
      List.countP_cons, List.countP_nil]
    omega
  · have unserved : ∀ op, ¬ serves calls tp a op = true := by
      intro op served
      obtain ⟨f, found, satisfied⟩ := (Option.any_eq_true _ _).mp (Bool.and_eq_true_iff.mp served).2
      have type := strings f (founder?_some found).1
      obtain ⟨-, v, value, -⟩ := (satisfiedBy_string type).mp satisfied
      exact typed (congrArg Value.type value)
    rw [if_neg typed, List.count_nil, eq_comm, List.countP_eq_zero]
    exact fun op _ => unserved op

/-! ## Predicates served -/

/-- The constraints are of different groups, each with a map, and in each group the predicate is
connected to the founder and an attribute satisfies the founder. -/
def Served (calls : List Call) (attributes : List Attribute) (tp : TablePred)
    (cs : List Constraint) : Prop :=
  (cs.map fun c => (c.name, c.op)).Nodup ∧ ∀ c ∈ cs, (c.op = .eq ∨ c.op = .in_) ∧
    linked calls c.name c.op tp = true ∧
    (founder? calls c.name c.op).any (fun f => attributes.any f.2.1.satisfiedBy) = true

instance (calls : List Call) (attributes : List Attribute) (tp : TablePred)
    (cs : List Constraint) : Decidable (Served calls attributes tp cs) :=
  inferInstanceAs (Decidable (_ ∧ _))

/-- The groups in which an attribute serves a predicate. -/
def servedGroups (calls : List Call) (attributes : List Attribute) (tp : TablePred) :
    List (CString × Op) :=
  attributes.flatMap fun a => ([Op.eq, .in_].filter (serves calls tp a)).map fun op => (a.name, op)

theorem mem_servedGroups {attributes : List Attribute} {tp : TablePred} {name : CString} {op : Op} :
    (name, op) ∈ servedGroups calls attributes tp ↔
      (op = .eq ∨ op = .in_) ∧ ∃ a ∈ attributes, a.name = name ∧ serves calls tp a op = true := by
  simp only [servedGroups, List.mem_flatMap, List.mem_map, List.mem_filter, List.mem_cons,
    List.not_mem_nil, or_false, Prod.mk.injEq]
  constructor
  · rintro ⟨a, mem, op', ⟨listed, served⟩, sameName, rfl⟩
    exact ⟨listed, a, mem, sameName, served⟩
  · rintro ⟨listed, a, mem, sameName, served⟩
    exact ⟨a, mem, op, ⟨listed, served⟩, sameName, rfl⟩

theorem nodup_servedGroups {attributes : List Attribute}
    (names : (attributes.map Attribute.name).Nodup) (tp : TablePred) :
    (servedGroups calls attributes tp).Nodup := by
  unfold servedGroups
  rw [List.nodup_flatMap]
  refine ⟨fun a _ => ?_, (List.pairwise_map.mp names).imp fun {a b} ne => ?_⟩
  · have ops : [Op.eq, .in_].Nodup := by decide
    exact (ops.filter _).map_on fun op _ op' _ same => congrArg Prod.snd same
  · intro group mem mem'
    obtain ⟨op, -, rfl⟩ := List.mem_map.mp mem
    obtain ⟨op', -, same⟩ := List.mem_map.mp mem'
    exact ne (congrArg Prod.fst same).symm

/-- A predicate is hit as often as it has constraints if each of them is served, in a group of its
own. -/
theorem length_le_servedGroups_iff {attributes : List Attribute}
    (names : (attributes.map Attribute.name).Nodup) {tp : TablePred} {cs : List Constraint}
    (own : ∀ call ∈ calls, call.2.2 = tp → call.2.1 ∈ cs)
    (strings : ∀ call ∈ calls, call.2.1.type = .string) :
    cs.length ≤ (servedGroups calls attributes tp).length ↔ Served calls attributes tp cs := by
  have inGroups : servedGroups calls attributes tp ⊆ cs.map fun c => (c.name, c.op) := by
    rintro ⟨name, op⟩ mem
    obtain ⟨-, a, -, rfl, served⟩ := mem_servedGroups.mp mem
    obtain ⟨call, isCall, same, name, sameOp⟩ :=
      exists_of_linked (Bool.and_eq_true_iff.mp served).1
    exact List.mem_map.mpr ⟨call.2.1, own call isCall same, by rw [name, sameOp]⟩
  have nodup := @nodup_servedGroups calls attributes names tp
  have length : (cs.map fun c => (c.name, c.op)).length = cs.length := List.length_map _
  have each : ∀ c : Constraint, (c.name, c.op) ∈ servedGroups calls attributes tp ↔
      (c.op = .eq ∨ c.op = .in_) ∧ linked calls c.name c.op tp = true ∧
        (founder? calls c.name c.op).any (fun f => attributes.any f.2.1.satisfiedBy) = true := by
    intro c
    rw [mem_servedGroups]
    refine and_congr_right fun _ => ?_
    simp only [Option.any_eq_true, List.any_eq_true]
    constructor
    · rintro ⟨a, mem, sameName, served⟩
      obtain ⟨isLinked, isFounder⟩ := Bool.and_eq_true_iff.mp served
      obtain ⟨f, found, satisfied⟩ := (Option.any_eq_true _ _).mp isFounder
      rw [sameName] at isLinked found
      exact ⟨isLinked, f, found, a, mem, satisfied⟩
    · rintro ⟨isLinked, f, found, a, mem, satisfied⟩
      obtain ⟨isCall, name, -⟩ := founder?_some found
      have sameName : a.name = c.name :=
        ((satisfiedBy_string (strings f isCall)).mp satisfied).1.trans name
      refine ⟨a, mem, sameName, Bool.and_eq_true_iff.mpr ⟨sameName ▸ isLinked, ?_⟩⟩
      exact (Option.any_eq_true _ _).mpr ⟨f, sameName ▸ found, satisfied⟩
  unfold Served
  rw [← length]
  constructor
  · intro le
    have perm := (nodup.subperm inGroups).perm_of_length_le le
    refine ⟨perm.nodup_iff.mp nodup, fun c mem => (each c).mp (perm.mem_iff.mpr ?_)⟩
    exact List.mem_map_of_mem mem
  · intro ⟨distinctGroups, served⟩
    have inServed : (cs.map fun c => (c.name, c.op)) ⊆ servedGroups calls attributes tp := by
      intro group mem
      obtain ⟨c, isIn, rfl⟩ := List.mem_map.mp mem
      exact (each c).mpr (served c isIn)
    exact (distinctGroups.subperm inServed).length_le

end StringConstraintIndex

/-! ## Reports -/

open IndexingTable (installed entries callsTo installations mem_matching_installed mem_entries
  mem_installations mem_callsTo nodup_callsTo eq_of_mem_entries installed_spec)
open StringConstraintIndex (Served)

/-- A constraint on a string, with an operator that is defined for strings. -/
def Constraint.OnString (c : Constraint) : Prop :=
  c.type = .string ∧ (c.op = .eq ∨ c.op = .in_ ∨ c.op = .ne)

def OnlyStrings (rules : List RulePkt) : Prop :=
  ∀ r ∈ rules, ∀ e ∈ r.elements, ∀ c ∈ e.constraints, c.OnString

/-- The calls of `StringConstraintIndex::installConstraint` for one type of events. -/
def stringCalls (alloc : Nat → Nat) (rules : List RulePkt) (eventType : Int) :
    List StringConstraintIndex.Call :=
  callsTo alloc .string eventType (installations (entries rules))

/-- A message hits a predicate once for each group in which an attribute serves it. -/
theorem count_string_hits {alloc : Nat → Nat} (fresh : Function.Injective alloc)
    {rules : List RulePkt} (strings : OnlyStrings rules) (pkt : PubPkt) (tp : TablePred) :
    ((installed alloc rules).hits pkt).count tp =
      (StringConstraintIndex.servedGroups (stringCalls alloc rules pkt.eventType) pkt.attributes
        tp).length := by
  obtain ⟨-, int, float, bool, string⟩ := (installed_spec alloc rules).indexes
  have ofType : ∀ {type call}, call ∈ callsTo alloc type pkt.eventType
      (installations (entries rules)) → type = .string := by
    intro type call isCall
    obtain ⟨logged, typed⟩ := mem_callsTo isCall
    obtain ⟨e, inEntries, -, isIn⟩ := mem_installations.mp logged
    obtain ⟨⟨r, inRules, -, isElement⟩, -⟩ := mem_entries inEntries
    exact typed.symm.trans (strings r inRules e isElement _ isIn).1
  have noHits : ∀ {V : Type} (kind : IndexKind V) (type : ValType), type ≠ .string → ∀ a,
      ((ConstraintIndex.installAll kind (callsTo alloc type pkt.eventType
        (installations (entries rules)))).hitsOf kind a).count tp = 0 := by
    intro V kind type ne a
    rw [List.count_eq_zero]
    intro hit
    obtain ⟨call, isCall, -⟩ := ConstraintIndex.mem_hitsOf hit
    exact ne (ofType isCall)
  have founded := StringConstraintIndex.founded_installAll
    (nodup_callsTo fresh .string pkt.eventType (installations (entries rules)))
  have typed : ∀ call ∈ stringCalls alloc rules pkt.eventType, call.2.1.type = .string :=
    fun call isCall => (mem_callsTo isCall).2
  unfold IndexingTable.hits
  rw [int, float, bool, string]
  simp only [List.count_append, List.count_flatMap, Function.comp_def,
    noHits _ .int (by simp), noHits _ .float (by simp), noHits _ .bool (by simp),
    StringConstraintIndex.count_hitsOf founded typed]
  simp only [StringConstraintIndex.servedGroups, List.length_flatMap, List.length_map,
    List.countP_eq_length_filter]
  simp [stringCalls]

/-- The predicate of an element is reported under its name if it is served. -/
theorem string_reports_iff {alloc : Nat → Nat} (fresh : Function.Injective alloc)
    {rules : List RulePkt} (strings : OnlyStrings rules) {pkt : PubPkt}
    (names : (pkt.attributes.map Attribute.name).Nodup) {tp : TablePred} {e : Element}
    (mem : (tp, e) ∈ entries rules)
    (identified : ∀ tp' e', (tp', e') ∈ entries rules → tp'.ruleId = tp.ruleId →
      e'.stateType = e.stateType → e'.stateId = e.stateId → tp' = tp) :
    (installed alloc rules).Reports pkt tp.ruleId e ↔ e.eventType = pkt.eventType ∧
      Served (stringCalls alloc rules pkt.eventType) pkt.attributes tp e.constraints := by
  have own : ∀ call ∈ stringCalls alloc rules pkt.eventType, call.2.2 = tp →
      call.2.1 ∈ e.constraints := by
    intro call isCall same
    obtain ⟨e', mem', -, isIn⟩ := mem_installations.mp (mem_callsTo isCall).1
    rw [same] at mem'
    rwa [eq_of_mem_entries mem mem']
  have typed : ∀ call ∈ stringCalls alloc rules pkt.eventType, call.2.1.type = .string :=
    fun call isCall => (mem_callsTo isCall).2
  rw [← StringConstraintIndex.length_le_servedGroups_iff names own typed,
    ← count_string_hits fresh strings]
  unfold IndexingTable.Reports
  rw [mem_matching_installed]
  constructor
  · rintro ⟨tp', e', mem', ⟨sameRule, sameType, sameId⟩, sameEvent, enough⟩
    obtain rfl := identified tp' e' mem' sameRule sameType sameId
    obtain rfl := eq_of_mem_entries mem mem'
    exact ⟨sameEvent, enough⟩
  · rintro ⟨sameEvent, enough⟩
    exact ⟨tp, e, mem, ⟨rfl, rfl, rfl⟩, sameEvent, enough⟩

/-- All constraints are satisfied by attributes of the packet. -/
def Satisfied (attributes : List Attribute) (cs : List Constraint) : Prop :=
  ∀ c ∈ cs, ∃ a ∈ attributes, c.satisfiedBy a = true

instance (attributes : List Attribute) (cs : List Constraint) :
    Decidable (Satisfied attributes cs) :=
  inferInstanceAs (Decidable (∀ c ∈ cs, ∃ a ∈ attributes, c.satisfiedBy a = true))

/-- Sharing does no harm: a predicate whose constraints are satisfied is connected to founders that
are satisfied too, and one with an unsatisfied constraint is not. -/
def SharesRight (calls : List StringConstraintIndex.Call) (attributes : List Attribute)
    (tp : TablePred) (cs : List Constraint) : Prop :=
  if Satisfied attributes cs then Served calls attributes tp cs
  else ¬ Served calls attributes tp cs

instance (calls : List StringConstraintIndex.Call) (attributes : List Attribute) (tp : TablePred)
    (cs : List Constraint) : Decidable (SharesRight calls attributes tp cs) :=
  inferInstanceAs (Decidable (if Satisfied attributes cs then Served calls attributes tp cs
    else ¬ Served calls attributes tp cs))

/-- A packet reports an element exactly if it has the element's type and satisfies its constraints,
provided that the packet is of another type or sharing does no harm. -/
theorem stringReport_iff {alloc : Nat → Nat} (fresh : Function.Injective alloc)
    {rules : List RulePkt} (strings : OnlyStrings rules) {pkt : PubPkt}
    (names : (pkt.attributes.map Attribute.name).Nodup) {tp : TablePred} {e : Element}
    (mem : (tp, e) ∈ entries rules)
    (identified : ∀ tp' e', (tp', e') ∈ entries rules → tp'.ruleId = tp.ruleId →
      e'.stateType = e.stateType → e'.stateId = e.stateId → tp' = tp) :
    ((installed alloc rules).Reports pkt tp.ruleId e ↔
        e.eventType = pkt.eventType ∧ Satisfied pkt.attributes e.constraints) ↔
      (e.eventType = pkt.eventType →
        SharesRight (stringCalls alloc rules pkt.eventType) pkt.attributes tp e.constraints) := by
  rw [string_reports_iff fresh strings names mem identified]
  unfold SharesRight
  by_cases sameEvent : e.eventType = pkt.eventType
  · by_cases satisfied : Satisfied pkt.attributes e.constraints <;> simp [sameEvent, satisfied]
  · simp [sameEvent]

/-! Two rules that ask for different values of one attribute: the second one is connected to the
constraint of the first. -/

def stringConstraint (name : CString) (op : Op) (v : CString) : Constraint :=
  { name, op, type := .string, intVal := 0, floatVal := 0, boolVal := false, stringVal := v }

def areaRules : List RulePkt :=
  [oneEventRule 0 [stringConstraint ['a'] .eq ['x']],
   oneEventRule 1 [stringConstraint ['a'] .eq ['y']]]

def areaPkt (area : CString) : PubPkt := PubPkt.new 1 [⟨['a'], .string area⟩] 0

theorem areaRules_misreported :
    (∃ x ∈ entries areaRules, (installed id areaRules).Reports (areaPkt ['x']) x.1.ruleId x.2 ∧
      ¬ Satisfied (areaPkt ['x']).attributes x.2.constraints) ∧
    ∃ x ∈ entries areaRules, x.2.eventType = (areaPkt ['y']).eventType ∧
      Satisfied (areaPkt ['y']).attributes x.2.constraints ∧
      ¬ (installed id areaRules).Reports (areaPkt ['y']) x.1.ruleId x.2 := by
  decide

/-- The element of the first of the two rules. -/
def areaElement : Element := ⟨.state, 0, 1, [stringConstraint ['a'] .eq ['x']]⟩

theorem areaRules_stringReport :
    (installed id areaRules).Reports (areaPkt ['x']) 0 areaElement ↔
      areaElement.eventType = (areaPkt ['x']).eventType ∧
        Satisfied (areaPkt ['x']).attributes areaElement.constraints := by
  have strings : OnlyStrings areaRules := by
    simp [OnlyStrings, areaRules, oneEventRule, RulePkt.addRootPredicate, RulePkt.new,
      RulePkt.elements, Constraint.OnString, stringConstraint]
  have mem : (IndexingTable.tablePred 0 0 areaElement, areaElement) ∈ entries areaRules := by
    decide
  have identified : ∀ x ∈ entries areaRules, x.1.ruleId = 0 → x.2.stateType = .state →
      x.2.stateId = 0 → x.1 = IndexingTable.tablePred 0 0 areaElement := by
    decide
  refine (stringReport_iff Function.injective_id strings (by decide) mem
    fun tp' e' mem' => identified (tp', e') mem').mpr ?_
  decide

end TRex
