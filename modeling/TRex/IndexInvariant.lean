import Mathlib.Data.List.Dedup
import Mathlib.Data.List.Perm.Basic
import TRex.IndexingTable

/-!
# The invariant of a constraint index

An index whose `getConstraint` finds exactly the table constraint of a given name, operator and
value, whose supported operators have maps of their own, and whose scan visits exactly the entries
that pass the test of their map (`IndexKind.Lawful`). For such a kind, `Represents` says that the
index holds one table constraint for each constraint that was installed, connected to the predicates
it was installed for; installation keeps it. Then an attribute hits a predicate once for each of its
different constraints that the attribute satisfies (`Represents.count_hitsOf`).
-/

namespace TRex

namespace ConstraintIndex

variable {V : Type} (kind : IndexKind V)

/-! ## Hits -/

/-- The predicates counted for an attribute, in order. -/
def hitsOf (idx : ConstraintIndex V) (a : Attribute) : List TablePred :=
  if a.type = kind.type then
    (kind.scan (kind.attributeVal a) (idx.indexes a.name)).flatMap idx.predicatesAt
  else []

/-- Processing a message counts the predicates that its attributes hit. -/
theorem processMessage_eq (idx : ConstraintIndex V) (pkt : PubPkt) (s : Progress) :
    idx.processMessage kind pkt s =
      (pkt.attributes.flatMap (idx.hitsOf kind)).foldl countPredicate s := by
  rw [List.foldl_flatMap]
  unfold processMessage
  congr 1
  funext s a
  unfold processAttribute hitsOf
  split
  · rw [List.foldl_flatMap]
    rfl
  · rfl

end ConstraintIndex

/-! ## Lawful kinds -/

/-- The name, the operator and the value of a table constraint. -/
abbrev TableKey (V : Type) := CString × Op × V

def TableConstraint.key {V : Type} (itc : TableConstraint V) : TableKey V :=
  (itc.name, itc.op, itc.val)

/-- What the proofs use of an index kind: `supports` are the operators installed, `maps` the maps
scanned and `test` the comparison of an attribute's value with a stored one. -/
structure IndexKind.Lawful {V : Type} [LinearOrder V] (kind : IndexKind V) (supports : Op → Prop)
    (maps : List OpMap) (test : OpMap → V → V → Bool) : Prop where
  keyLt : ∀ a b, kind.keyLt a b = true ↔ a < b
  skips : ∀ stored given, kind.skips stored given = true ↔ stored ≠ given
  mapOf : ∀ op, supports op → ∃ m ∈ maps, kind.mapOf op = some m
  mapOf_inj : ∀ op op', supports op → supports op' → kind.mapOf op = kind.mapOf op' → op = op'
  nodup : maps.Nodup
  scan : ∀ val tables, (∀ m, OrdMap.Sorted (tables m)) →
    (kind.scan val tables).Perm
      (maps.flatMap fun m => ((tables m).filter fun e => test m val e.1).map Prod.snd)

/-! ## The invariant -/

open ConstraintIndex (addrLt)

theorem addrLt_iff (a b : Nat) : addrLt a b = true ↔ a < b := by
  simp [addrLt]

/-- Connecting changes the entry at the address only. -/
theorem ConstraintIndex.mem_connect {V : Type} {idx : ConstraintIndex V} {addr : Nat}
    {tp : TablePred} {a : Nat} {itc : TableConstraint V} :
    (a, itc) ∈ (idx.connect addr tp).usedConstraints ↔ ∃ old, (a, old) ∈ idx.usedConstraints ∧
      itc = if a = addr then old.insertPredicate tp else old := by
  simp only [connect, List.mem_map, Prod.mk.injEq, Prod.exists]
  constructor
  · rintro ⟨a', old, inUsed, rfl, rfl⟩
    exact ⟨old, inUsed, rfl⟩
  · rintro ⟨old, inUsed, rfl⟩
    exact ⟨a, old, inUsed, rfl, rfl⟩

theorem ConstraintIndex.mem_installTableConstraint {V : Type} {kind : IndexKind V}
    {idx : ConstraintIndex V} (addresses : OrdMap.Sorted idx.usedConstraints) {addr : Nat}
    {itc : TableConstraint V} (fresh : ∀ e ∈ idx.usedConstraints, e.1 ≠ addr)
    {e : Nat × TableConstraint V} :
    e ∈ (idx.installTableConstraint kind addr itc).usedConstraints ↔
      e ∈ idx.usedConstraints ∨ e = (addr, itc) := by
  rw [installTableConstraint, OrdMap.mem_insert addrLt_iff addresses]
  exact or_congr_right ⟨And.left, fun same => ⟨same, fresh⟩⟩

theorem ConstraintIndex.indexes_installTableConstraint {V : Type} {kind : IndexKind V}
    {idx : ConstraintIndex V} {addr : Nat} {itc : TableConstraint V} {m : OpMap}
    (hasMap : kind.mapOf itc.op = some m) :
    (idx.installTableConstraint kind addr itc).indexes =
      Function.update idx.indexes itc.name (Function.update (idx.indexes itc.name) m
        (OrdMap.insert kind.keyLt itc.val addr (idx.indexes itc.name m))) := by
  simp only [installTableConstraint, hasMap]

/-- The index holds one table constraint for each key of the log, connected to the predicates that
the log has for the key. -/
structure Represents {V : Type} [LinearOrder V] (kind : IndexKind V) (supports : Op → Prop)
    (idx : ConstraintIndex V) (log : List (TableKey V × TablePred)) : Prop where
  addresses : OrdMap.Sorted idx.usedConstraints
  keys : (idx.usedConstraints.map fun e => e.2.key).Nodup
  supported : ∀ e ∈ idx.usedConstraints, supports e.2.op
  connected : ∀ key tp, (key, tp) ∈ log ↔
    ∃ e ∈ idx.usedConstraints, e.2.key = key ∧ tp ∈ e.2.connectedPredicates
  nodup : ∀ e ∈ idx.usedConstraints, e.2.connectedPredicates.Nodup
  sorted : ∀ name m, OrdMap.Sorted (idx.indexes name m)
  entries : ∀ name m v addr, (v, addr) ∈ idx.indexes name m ↔
    ∃ itc, (addr, itc) ∈ idx.usedConstraints ∧ itc.name = name ∧ kind.mapOf itc.op = some m ∧
      itc.val = v

namespace Represents

variable {V : Type} [LinearOrder V] {kind : IndexKind V} {supports : Op → Prop}
  {maps : List OpMap} {test : OpMap → V → V → Bool} {idx : ConstraintIndex V}
  {log : List (TableKey V × TablePred)}

theorem empty : Represents kind supports ConstraintIndex.empty [] :=
  ⟨OrdMap.Sorted.nil, List.nodup_nil, by simp [ConstraintIndex.empty],
    by simp [ConstraintIndex.empty], by simp [ConstraintIndex.empty],
    fun _ _ => OrdMap.Sorted.nil, by simp [ConstraintIndex.empty]⟩

/-- The key of a constraint in an index of this kind. -/
def keyOf (kind : IndexKind V) (c : Constraint) : TableKey V := (c.name, c.op, kind.constraintVal c)

theorem getConstraint_some (lawful : kind.Lawful supports maps test) {c : Constraint} {addr : Nat}
    (found : idx.getConstraint kind c = some addr) :
    ∃ itc, (addr, itc) ∈ idx.usedConstraints ∧ itc.key = keyOf kind c := by
  obtain ⟨⟨addr', itc⟩, first, rfl⟩ := Option.map_eq_some_iff.mp found
  have passes := List.find?_some first
  simp only [Bool.and_eq_true, decide_eq_true_eq, Bool.not_eq_true', ← Bool.not_eq_true,
    lawful.skips, not_not] at passes
  obtain ⟨⟨op, val⟩, name⟩ := passes
  exact ⟨itc, List.mem_of_find?_eq_some first, by simp [TableConstraint.key, keyOf, op, val, name]⟩

theorem getConstraint_none (lawful : kind.Lawful supports maps test) {c : Constraint}
    (absent : idx.getConstraint kind c = none) :
    ∀ e ∈ idx.usedConstraints, e.2.key ≠ keyOf kind c := by
  rintro ⟨addr, itc⟩ mem same
  have fails := List.find?_eq_none.mp (Option.map_eq_none_iff.mp absent) _ mem
  simp only [TableConstraint.key, keyOf, Prod.mk.injEq] at same
  obtain ⟨name, op, val⟩ := same
  have equal : kind.skips itc.val (kind.constraintVal c) = false := by
    rw [← Bool.not_eq_true, lawful.skips, not_not]
    exact val
  simp [name, op, equal] at fails

/-- A table constraint is at one address. -/
theorem eq_of_key (rep : Represents kind supports idx log) {e e' : Nat × TableConstraint V}
    (mem : e ∈ idx.usedConstraints) (mem' : e' ∈ idx.usedConstraints) (same : e.2.key = e'.2.key) :
    e = e' :=
  List.inj_on_of_nodup_map rep.keys mem mem' same

/-! ## Installation -/

/-- Connecting a predicate to the table constraint of a key adds the pair to the log. -/
theorem connect (rep : Represents kind supports idx log) {addr : Nat} {itc : TableConstraint V}
    (mem : (addr, itc) ∈ idx.usedConstraints) (tp : TablePred) :
    Represents kind supports (idx.connect addr tp) (log ++ [(itc.key, tp)]) := by
  have members := fun a itc' => @ConstraintIndex.mem_connect V idx addr tp a itc'
  refine ⟨?_, ?_, ?_, ?_, ?_, rep.sorted, ?_⟩
  · exact List.pairwise_map.mpr rep.addresses
  · have sameKeys : (idx.connect addr tp).usedConstraints.map (fun e => e.2.key) =
        idx.usedConstraints.map fun e => e.2.key := by
      simp only [ConstraintIndex.connect, List.map_map]
      refine List.map_congr_left fun e _ => ?_
      simp only [Function.comp_apply]
      split <;> rfl
    rw [sameKeys]
    exact rep.keys
  · rintro ⟨a, itc'⟩ inUsed
    obtain ⟨old, inOld, rfl⟩ := (members a itc').mp inUsed
    have := rep.supported _ inOld
    split <;> exact this
  · intro key tp'
    rw [List.mem_append, List.mem_singleton, rep.connected]
    constructor
    · rintro (⟨⟨a, old⟩, inOld, sameKey, isIn⟩ | same)
      · refine ⟨(a, _), (members a _).mpr ⟨old, inOld, rfl⟩, ?_, ?_⟩
        · split <;> exact sameKey
        · split
          · exact List.mem_insert_of_mem isIn
          · exact isIn
      · cases same
        refine ⟨(addr, _), (members addr _).mpr ⟨itc, mem, rfl⟩, ?_, ?_⟩
        · rw [if_pos rfl]
          rfl
        · rw [if_pos rfl]
          exact List.mem_insert_self
    · rintro ⟨⟨a, itc'⟩, inUsed, sameKey, isIn⟩
      obtain ⟨old, inOld, rfl⟩ := (members a itc').mp inUsed
      by_cases here : a = addr
      · subst here
        obtain rfl := rep.addresses.eq_of_key inOld mem
        simp only [if_true] at sameKey isIn
        rcases List.mem_insert_iff.mp isIn with rfl | before
        · exact .inr (by rw [← sameKey]; rfl)
        · exact .inl ⟨_, inOld, sameKey, before⟩
      · simp only [if_neg here] at sameKey isIn
        exact .inl ⟨_, inOld, sameKey, isIn⟩
  · rintro ⟨a, itc'⟩ inUsed
    obtain ⟨old, inOld, rfl⟩ := (members a itc').mp inUsed
    have := rep.nodup _ inOld
    split
    · exact this.insert
    · exact this
  · intro name m v a
    rw [show (idx.connect addr tp).indexes = idx.indexes from rfl, rep.entries]
    constructor
    · rintro ⟨old, inOld, rest⟩
      refine ⟨_, (members a _).mpr ⟨old, inOld, rfl⟩, ?_⟩
      split <;> exact rest
    · rintro ⟨itc', inUsed, rest⟩
      obtain ⟨old, inOld, rfl⟩ := (members a itc').mp inUsed
      refine ⟨old, inOld, ?_⟩
      split at rest <;> exact rest

section NewTableConstraint

variable {addr : Nat} {itc : TableConstraint V} {m : OpMap}

/-- An entry under the value of a new key would belong to a table constraint with that key. -/
theorem unmapped_of_new (lawful : kind.Lawful supports maps test)
    (rep : Represents kind supports idx log) (new : ∀ e ∈ idx.usedConstraints, e.2.key ≠ itc.key)
    (supported : supports itc.op) (hasMap : kind.mapOf itc.op = some m) :
    ∀ e ∈ idx.indexes itc.name m, e.1 ≠ itc.val := by
  intro ⟨v, a⟩ inMap same
  obtain ⟨itc', inUsed, name, hasMap', val⟩ := (rep.entries _ _ _ _).mp inMap
  have op : itc'.op = itc.op :=
    lawful.mapOf_inj _ _ (rep.supported _ inUsed) supported (hasMap'.trans hasMap.symm)
  exact new _ inUsed (by simp [TableConstraint.key, name, op, val.trans same])

theorem sorted_installTableConstraint (lawful : kind.Lawful supports maps test)
    (rep : Represents kind supports idx log) (hasMap : kind.mapOf itc.op = some m)
    (name : CString) (m' : OpMap) :
    OrdMap.Sorted ((idx.installTableConstraint kind addr itc).indexes name m') := by
  rw [ConstraintIndex.indexes_installTableConstraint hasMap]
  rcases eq_or_ne name itc.name with rfl | ne
  · rw [Function.update_self]
    rcases eq_or_ne m' m with rfl | neMap
    · rw [Function.update_self]
      exact OrdMap.sorted_insert lawful.keyLt (rep.sorted _ _)
    · rw [Function.update_of_ne neMap]
      exact rep.sorted _ _
  · rw [Function.update_of_ne ne]
    exact rep.sorted _ _

theorem mem_indexes_installTableConstraint (lawful : kind.Lawful supports maps test)
    (rep : Represents kind supports idx log) (hasMap : kind.mapOf itc.op = some m)
    (unmapped : ∀ e ∈ idx.indexes itc.name m, e.1 ≠ itc.val) {name : CString} {m' : OpMap} {v : V}
    {a : Nat} : (v, a) ∈ (idx.installTableConstraint kind addr itc).indexes name m' ↔
      (v, a) ∈ idx.indexes name m' ∨ (a = addr ∧ itc.name = name ∧ m = m' ∧ itc.val = v) := by
  rw [ConstraintIndex.indexes_installTableConstraint hasMap]
  rcases eq_or_ne name itc.name with rfl | ne
  · rw [Function.update_self]
    rcases eq_or_ne m' m with rfl | neMap
    · rw [Function.update_self, OrdMap.mem_insert lawful.keyLt (rep.sorted _ _)]
      refine or_congr_right ?_
      rw [Prod.mk.injEq]
      exact ⟨fun ⟨⟨val, at_⟩, _⟩ => ⟨at_, rfl, rfl, val.symm⟩,
        fun ⟨at_, _, _, val⟩ => ⟨⟨val.symm, at_⟩, unmapped⟩⟩
    · rw [Function.update_of_ne neMap]
      exact ⟨Or.inl, fun either => either.elim id fun ⟨_, _, same, _⟩ => absurd same.symm neMap⟩
  · rw [Function.update_of_ne ne]
    exact ⟨Or.inl, fun either => either.elim id fun ⟨_, same, _⟩ => absurd same.symm ne⟩

/-- A new table constraint, under a key that is not there yet, at a fresh address. -/
theorem installTableConstraint (lawful : kind.Lawful supports maps test)
    (rep : Represents kind supports idx log) (fresh : ∀ e ∈ idx.usedConstraints, e.1 ≠ addr)
    (new : ∀ e ∈ idx.usedConstraints, e.2.key ≠ itc.key) (supported : supports itc.op)
    (unconnected : itc.connectedPredicates = []) :
    Represents kind supports (idx.installTableConstraint kind addr itc) log ∧
      (addr, itc) ∈ (idx.installTableConstraint kind addr itc).usedConstraints := by
  obtain ⟨m, -, hasMap⟩ := lawful.mapOf itc.op supported
  have members := fun e =>
    @ConstraintIndex.mem_installTableConstraint V kind idx rep.addresses addr itc fresh e
  have added := (members (addr, itc)).mpr (.inr rfl)
  have unmapped := rep.unmapped_of_new lawful new supported hasMap
  refine ⟨⟨OrdMap.sorted_insert addrLt_iff rep.addresses, ?_, ?_, ?_, ?_,
    rep.sorted_installTableConstraint lawful hasMap, ?_⟩, added⟩
  · have unique : ∀ e ∈ (idx.installTableConstraint kind addr itc).usedConstraints,
        ∀ e' ∈ (idx.installTableConstraint kind addr itc).usedConstraints,
        e.2.key = e'.2.key → e = e' := by
      intro e mem e' mem' same
      rcases (members e).mp mem with old | rfl
      · rcases (members e').mp mem' with old' | rfl
        · exact rep.eq_of_key old old' same
        · exact absurd same (new e old)
      · rcases (members e').mp mem' with old' | rfl
        · exact absurd same.symm (new e' old')
        · rfl
    exact (OrdMap.sorted_insert addrLt_iff rep.addresses).nodup.map_on unique
  · intro e mem
    rcases (members e).mp mem with old | rfl
    · exact rep.supported e old
    · exact supported
  · intro key tp
    rw [rep.connected]
    constructor
    · intro ⟨e, mem, rest⟩
      exact ⟨e, (members e).mpr (.inl mem), rest⟩
    · intro ⟨e, mem, rest⟩
      rcases (members e).mp mem with old | rfl
      · exact ⟨e, old, rest⟩
      · rw [unconnected] at rest
        cases rest.2
  · intro e mem
    rcases (members e).mp mem with old | rfl
    · exact rep.nodup e old
    · rw [unconnected]
      exact List.nodup_nil
  · intro name m' v a
    rw [rep.mem_indexes_installTableConstraint lawful hasMap unmapped, rep.entries]
    constructor
    · intro either
      rcases either with ⟨itc', old, rest⟩ | ⟨rfl, name', rfl, val⟩
      · exact ⟨itc', (members _).mpr (.inl old), rest⟩
      · exact ⟨itc, added, name', hasMap, val⟩
    · intro ⟨itc', mem, name', hasMap', val⟩
      rcases (members _).mp mem with old | same
      · exact .inl ⟨itc', old, name', hasMap', val⟩
      · cases same
        exact .inr ⟨rfl, name', Option.some.inj (hasMap.symm.trans hasMap'), val⟩

end NewTableConstraint

/-- Installing a constraint for a predicate adds the pair to the log. -/
theorem installConstraint (lawful : kind.Lawful supports maps test)
    (rep : Represents kind supports idx log) {addr : Nat}
    (fresh : ∀ e ∈ idx.usedConstraints, e.1 ≠ addr) {c : Constraint} (supported : supports c.op)
    (tp : TablePred) :
    Represents kind supports (idx.installConstraint kind addr c tp)
      (log ++ [(keyOf kind c, tp)]) := by
  unfold ConstraintIndex.installConstraint
  cases found : idx.getConstraint kind c with
  | some a =>
      obtain ⟨itc, mem, key⟩ := getConstraint_some lawful found
      rw [← key]
      exact rep.connect mem tp
  | none =>
      have new : ∀ e ∈ idx.usedConstraints,
          e.2.key ≠ (ConstraintIndex.createConstraint kind c).key := getConstraint_none lawful found
      obtain ⟨rep', mem⟩ := rep.installTableConstraint lawful fresh new supported rfl
      exact rep'.connect mem tp

/-- The addresses in use afterwards. -/
theorem mem_installConstraint (rep : Represents kind supports idx log) {addr : Nat}
    {c : Constraint} {tp : TablePred} {e : Nat × TableConstraint V}
    (mem : e ∈ (idx.installConstraint kind addr c tp).usedConstraints) :
    e.1 = addr ∨ ∃ e' ∈ idx.usedConstraints, e'.1 = e.1 := by
  unfold ConstraintIndex.installConstraint at mem
  split at mem
  · obtain ⟨e', mem', rfl⟩ := List.mem_map.mp mem
    exact .inr ⟨e', mem', rfl⟩
  · obtain ⟨e', mem', rfl⟩ := List.mem_map.mp mem
    rcases (OrdMap.mem_insert addrLt_iff rep.addresses).mp mem' with old | ⟨rfl, -⟩
    · exact .inr ⟨e', old, rfl⟩
    · exact .inl rfl

/-! ## Counting hits -/

/-- Whether an attribute satisfies a table constraint, as the index tests it. -/
def tests (kind : IndexKind V) (test : OpMap → V → V → Bool) (a : Attribute)
    (itc : TableConstraint V) : Bool :=
  a.type = kind.type && itc.name = a.name &&
    (kind.mapOf itc.op).any fun m => test m (kind.attributeVal a) itc.val

omit [LinearOrder V] in
theorem tests_iff {a : Attribute} {itc : TableConstraint V} : tests kind test a itc = true ↔
    (a.type = kind.type ∧ itc.name = a.name) ∧
      ∃ m, kind.mapOf itc.op = some m ∧ test m (kind.attributeVal a) itc.val = true := by
  simp only [tests, Bool.and_eq_true, decide_eq_true_eq, Option.any_eq_true]

theorem predicatesAt_of_mem (rep : Represents kind supports idx log) {addr : Nat}
    {itc : TableConstraint V} (mem : (addr, itc) ∈ idx.usedConstraints) :
    idx.predicatesAt addr = itc.connectedPredicates := by
  unfold ConstraintIndex.predicatesAt
  rw [(OrdMap.find?_eq_some addrLt_iff rep.addresses).mpr mem]
  rfl

/-- A scan visits the addresses of the satisfied table constraints, each once. -/
theorem scan_perm (lawful : kind.Lawful supports maps test)
    (rep : Represents kind supports idx log) {a : Attribute} (typed : a.type = kind.type) :
    (kind.scan (kind.attributeVal a) (idx.indexes a.name)).Perm
      ((idx.usedConstraints.filter fun e => tests kind test a e.2).map Prod.fst) := by
  refine (lawful.scan _ _ (rep.sorted a.name)).trans ?_
  have entryOf : ∀ m addr, addr ∈ ((idx.indexes a.name m).filter fun e =>
      test m (kind.attributeVal a) e.1).map Prod.snd ↔ ∃ itc, (addr, itc) ∈ idx.usedConstraints ∧
        itc.name = a.name ∧ kind.mapOf itc.op = some m ∧
        test m (kind.attributeVal a) itc.val = true := by
    intro m addr
    simp only [List.mem_map, List.mem_filter, Prod.exists, exists_eq_right]
    constructor
    · rintro ⟨v, inMap, passes⟩
      obtain ⟨itc, inUsed, name, hasMap, rfl⟩ := (rep.entries _ _ _ _).mp inMap
      exact ⟨itc, inUsed, name, hasMap, passes⟩
    · rintro ⟨itc, inUsed, name, hasMap, passes⟩
      exact ⟨itc.val, (rep.entries _ _ _ _).mpr ⟨itc, inUsed, name, hasMap, rfl⟩, passes⟩
  rw [List.perm_ext_iff_of_nodup]
  · intro addr
    simp only [List.mem_flatMap, entryOf, List.mem_map, List.mem_filter, tests_iff, Prod.exists,
      typed, true_and]
    constructor
    · rintro ⟨m, -, itc, inUsed, name, hasMap, passes⟩
      exact ⟨_, _, ⟨inUsed, name, m, hasMap, passes⟩, rfl⟩
    · rintro ⟨_, itc, ⟨inUsed, name, m, hasMap, passes⟩, rfl⟩
      obtain ⟨m', listed, hasMap'⟩ := lawful.mapOf itc.op (rep.supported _ inUsed)
      obtain rfl : m = m' := Option.some.inj (hasMap.symm.trans hasMap')
      exact ⟨m, listed, itc, inUsed, name, hasMap, passes⟩
  · rw [List.nodup_flatMap]
    refine ⟨fun m _ => ?_, lawful.nodup.imp ?_⟩
    · -- within a map, an address belongs to one value
      have distinct := ((rep.sorted a.name m).nodup.filter fun e =>
        test m (kind.attributeVal a) e.1)
      refine distinct.map_on fun e mem e' mem' same => ?_
      obtain ⟨itc, inUsed, -, -, val⟩ := (rep.entries _ _ _ _).mp (List.mem_of_mem_filter mem)
      obtain ⟨itc', inUsed', -, -, val'⟩ := (rep.entries _ _ _ _).mp (List.mem_of_mem_filter mem')
      rw [same] at inUsed
      have := rep.addresses.eq_of_key inUsed inUsed'
      rw [this] at val
      exact Prod.ext (val.symm.trans val') same
    · intro m m' ne addr mem mem'
      obtain ⟨itc, inUsed, -, hasMap, -⟩ := (entryOf m addr).mp mem
      obtain ⟨itc', inUsed', -, hasMap', -⟩ := (entryOf m' addr).mp mem'
      obtain rfl := rep.addresses.eq_of_key inUsed inUsed'
      exact ne (Option.some.inj (hasMap.symm.trans hasMap'))
  · have unique : ((idx.usedConstraints.filter fun e => tests kind test a e.2).map Prod.fst).Sublist
        (idx.usedConstraints.map Prod.fst) := List.filter_sublist.map _
    exact rep.addresses.nodup_keys.sublist unique

/-- Table constraints hit a predicate once each if it is connected to them. -/
theorem count_predicatesAt (rep : Represents kind supports idx log) (tp : TablePred)
    {es : List (Nat × TableConstraint V)} (used : ∀ e ∈ es, e ∈ idx.usedConstraints) :
    ((es.map Prod.fst).flatMap idx.predicatesAt).count tp =
      es.countP fun e => decide (tp ∈ e.2.connectedPredicates) := by
  induction es with
  | nil => rfl
  | cons e rest ih =>
      obtain ⟨here, there⟩ := List.forall_mem_cons.mp used
      rw [List.map_cons, List.flatMap_cons, List.count_append, rep.predicatesAt_of_mem here,
        ih there, (rep.nodup e here).count, List.countP_cons, Nat.add_comm]
      simp only [decide_eq_true_eq]

/-- An attribute hits a predicate once for each table constraint that the attribute satisfies and
the predicate is connected to. -/
theorem count_hitsOf (lawful : kind.Lawful supports maps test)
    (rep : Represents kind supports idx log) (a : Attribute) (tp : TablePred) :
    (idx.hitsOf kind a).count tp = idx.usedConstraints.countP fun e =>
      decide (tp ∈ e.2.connectedPredicates) && tests kind test a e.2 := by
  unfold ConstraintIndex.hitsOf
  by_cases typed : a.type = kind.type
  · rw [if_pos typed, ((rep.scan_perm lawful typed).flatMap_right idx.predicatesAt).count_eq,
      rep.count_predicatesAt tp fun e mem => List.mem_of_mem_filter mem, List.countP_filter]
  · rw [if_neg typed, List.count_nil]
    symm
    rw [List.countP_eq_zero]
    simp [tests_iff, typed]

end Represents

end TRex
