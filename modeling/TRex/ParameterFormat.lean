import TRex.BodyFormat

/-!
# The format of parameters that fit into a `GPUParameter`

Once a rule is read, the builder call for a parameter writes the trees and the names in their leaves
to arrays of a fixed size, unless it refuses the parameter because no leaf gives it an index. Here
are the languages of the parameters for which this stays inside the arrays, and the proof that these
are the words of `parameter` that are read as `Serializable` ones. Of the entries of the map with
one key only the first gets to the builder. -/

namespace TRex

open Wire

namespace Format

/-! ## Languages -/

/-- What the byte of a state type is read as. -/
def stateType (w : Bytes) : StateType :=
  if tag w = 0 then .state else if tag w = 1 then .neg else .agg

/-- References into the rule whose index and type allow the name, and values. -/
def referenceNamed (names : Int → StateType → Language UInt8) : Language UInt8 :=
  andThen (bytes 1) fun kind =>
    if tag kind = 0 then
      andThen (bytes 4) fun index => andThen (bytes 1) fun type =>
        names (signed index) (stateType type)
    else typed (stringUpTo stringValLen)

/-- The name of a leaf is copied unless it refers to an aggregate. -/
def serializableReference : Language UInt8 :=
  referenceNamed fun _ type => if type = .agg then string else stringUpTo nameLen

/-- References that give a parameter of a kind no index. -/
def unlinkedReference (kind : StateType) : Language UInt8 :=
  referenceNamed fun index type => if type = kind ∧ 0 ≤ index then 0 else string

/-- The arrays hold trees with at most three operators one below the other. -/
def serializableTree : Language UInt8 := treeOf serializableReference 4

def unlinkedTree (kind : StateType) : Language UInt8 :=
  ⨆ depth, treeOf (unlinkedReference kind) depth

def serializableParameter : Language UInt8 :=
  bytes 1 * andThen (bytes 1) fun type =>
    bytes 1 * (unlinkedTree (stateType type) * unlinkedTree (stateType type) +
      serializableTree * serializableTree)

/-- So many entries of a map in which some keys are known. -/
def serializableEntries : Nat → List Int → Language UInt8
  | 0, _ => 1
  | n + 1, known => andThen (bytes 4) fun key =>
      (if signed key ∈ known then parameter else serializableParameter) *
        serializableEntries n (signed key :: known)

def serializableMap : Language UInt8 :=
  andThen (bytes 4) fun num => serializableEntries (signed num).toNat []

/-! ## References -/

theorem eq_stateType {w : Bytes} (length : w ∈ bytes 1) {type : StateType}
    (spells : Spells (WatchedUnmarshaller.primitive Unmarshaller.decodeStateType) w type) :
    type = stateType w := by
  rcases List.length_eq_one_iff.mp length with ⟨b, rfl⟩
  have read := spells []
  unfold stateType
  rw [show tag [b] = b from rfl]
  by_cases isState : b = 0
  · subst isState
    cases read
    rfl
  by_cases isNeg : b = 1
  · subst isNeg
    cases read
    rfl
  rw [if_neg isState, if_neg isNeg]
  have reads : Reads Unmarshaller.decodeStateType [b] .agg := by
    intro rest
    refine bind_eq_some.mpr ⟨b, rest, rfl, ?_⟩
    split
    · exact absurd rfl isState
    · exact absurd rfl isNeg
    · rfl
  exact (spells_ofDecoder reads).unique read

/-- The reference that is made of its parts. -/
def made (idx : Int) (type : StateType) (name : CString) : OpValueReference :=
  if type = .agg ∧ name.length = 0 then .rulePkt idx .agg none else .rulePkt idx type (some name)

theorem static_of_decodeStaticVal {pad : Nat} {type : ValType} {input rest : Bytes}
    {ref : OpValueReference}
    (read : WatchedUnmarshaller.decodeStaticVal pad type input = .ok (ref, rest)) :
    ∃ value, ref = .static value := by
  cases type with
  | int | float | bool | string =>
      obtain ⟨v, mid, -, done⟩ := Watched.bind_eq_ok.mp read
      cases done
      exact ⟨_, rfl⟩

section Marks

variable {q : OpValueReference → Prop} {names : Int → StateType → Language UInt8}

theorem rulePktReference_marks
    (named : ∀ idx type w, w ∈ names idx type ↔ w ∈ string ∧ q (made idx type (spelledString w))) :
    Marks WatchedUnmarshaller.decodeRulePktReference (bytes 4 * (bytes 1 * string))
      (andThen (bytes 4) fun index => andThen (bytes 1) fun type =>
        names (signed index) (stateType type)) q := by
  have name : ∀ idx type, Marks (do return made idx type (← WatchedUnmarshaller.decodeString))
      string (names idx type) q := fun idx type =>
    Marks.map string_follows ⟨fun w mem => ((named idx type w).mp mem).1, fun mem spells => by
      rw [eq_spelledString mem spells, named, and_iff_right mem]⟩
  have made_eq : WatchedUnmarshaller.decodeRulePktReference = (do
      let idx ← WatchedUnmarshaller.primitive Unmarshaller.decodeInt
      let type ← WatchedUnmarshaller.primitive Unmarshaller.decodeStateType
      return made idx type (← WatchedUnmarshaller.decodeString)) := by
    simp only [WatchedUnmarshaller.decodeRulePktReference, made, apply_ite pure]
  rw [made_eq]
  refine Marks.bind (primitive_follows fixed_int) fun index length idx spells => ?_
  rw [eq_signed length spells]
  refine Marks.bind (primitive_follows fixed_stateType) fun type length type' spells => ?_
  rw [eq_stateType length spells]
  exact name _ _

theorem reference_marks (pad : Nat) (static : ∀ value, q (.static value))
    (named : ∀ idx type w, w ∈ names idx type ↔ w ∈ string ∧ q (made idx type (spelledString w))) :
    Marks (WatchedUnmarshaller.decodeValueReference pad) reference (referenceNamed names) q := by
  have isStatic : Marks (WatchedUnmarshaller.decodeStaticValueReference pad)
      (typed (stringUpTo stringValLen)) (typed (stringUpTo stringValLen)) q := by
    refine Marks.all fun read => ?_
    obtain ⟨type, mid, -, read⟩ := Watched.bind_eq_ok.mp read
    obtain ⟨value, is⟩ := static_of_decodeStaticVal read
    exact is ▸ static value
  refine Marks.bind (primitive_follows Fixed.byte) fun kind length b spells => ?_
  rw [eq_tag length spells]
  by_cases isRulePkt : tag kind = 0
  · rw [if_pos isRulePkt, if_pos isRulePkt, isRulePkt]
    exact rulePktReference_marks named
  · rw [if_neg isRulePkt, if_neg isRulePkt]
    split
    case h_1 isZero => exact absurd isZero isRulePkt
    case h_2 => exact isStatic

/-! ## Trees -/

variable {leaf : Language UInt8}

/-- The trees of less height than `n` whose leaves have a property. -/
def Low (q : OpValueReference → Prop) (n : Nat) (t : OpTree) : Prop :=
  t.asExpr.height < n ∧ ∀ ref ∈ t.refs, q ref

theorem low_inner_iff {left right : OpTree} {op : OpTreeOperation} {valType : ValType} {n : Nat} :
    Low q (n + 1) (.inner left right op valType) ↔ Low q n left ∧ Low q n right := by
  simp only [Low, OpTree.asExpr, StackMachine.Expr.height, OpTree.refs, List.forall_mem_append,
    Nat.add_lt_add_iff_right, max_lt_iff]
  exact and_and_and_comm

/-- The end of an inner node. -/
theorem inner_of_read {left right : OpTree} {valType : ValType} {input rest : Bytes} {t : OpTree}
    (read : (do
      let op ← WatchedUnmarshaller.primitive Unmarshaller.decodeOpTreeOperation
      return OpTree.inner left right op valType : Watched Stop OpTree) input = .ok (t, rest)) :
    ∃ op, t = .inner left right op valType := by
  obtain ⟨op, mid, -, done⟩ := Watched.bind_eq_ok.mp read
  cases done
  exact ⟨op, rfl⟩

/-- The parts of an inner node behind its type. -/
theorem inner_marks {pad depth n : Nat} {valType : ValType}
    (ih : Marks (WatchedUnmarshaller.decodeOpTreeWithin pad depth) (treeOf reference depth)
      (treeOf leaf (min n depth)) (Low q n)) :
    Marks (do
        let leftTree ← WatchedUnmarshaller.decodeOpTreeWithin pad depth
        let rightTree ← WatchedUnmarshaller.decodeOpTreeWithin pad depth
        let op ← WatchedUnmarshaller.primitive Unmarshaller.decodeOpTreeOperation
        return OpTree.inner leftTree rightTree op valType)
      (treeOf reference depth * (treeOf reference depth * bytes 1))
      (treeOf leaf (min n depth) * (treeOf leaf (min n depth) * bytes 1)) (Low q (n + 1)) := by
  refine Marks.seq (treeWithin_follows pad depth) ih (fun left lowLeft => ?_) fun left high => ?_
  · refine Marks.seq (treeWithin_follows pad depth) ih (fun right lowRight => ?_)
      fun right high => ?_
    · refine Marks.all fun read => ?_
      obtain ⟨op, is⟩ := inner_of_read read
      exact is ▸ low_inner_iff.mpr ⟨lowLeft, lowRight⟩
    · refine Marks.none fun read low => ?_
      obtain ⟨op, is⟩ := inner_of_read read
      exact high (low_inner_iff.mp (is ▸ low)).2
  · refine Marks.none fun read low => ?_
    obtain ⟨right, mid, -, read⟩ := Watched.bind_eq_ok.mp read
    obtain ⟨op, is⟩ := inner_of_read read
    exact high (low_inner_iff.mp (is ▸ low)).1

/-- Within a depth, the trees of less height whose leaves have a property are those of the language
with the words of these leaves. -/
theorem treeWithin_marks {pad : Nat}
    (leaves : Marks (WatchedUnmarshaller.decodeValueReference pad) reference leaf q)
    (depth n : Nat) :
    Marks (WatchedUnmarshaller.decodeOpTreeWithin pad depth) (treeOf reference depth)
      (treeOf leaf (min n depth)) (Low q n) := by
  induction depth generalizing n with
  | zero =>
      refine ⟨?_, fun mem => absurd mem (Language.notMem_zero _)⟩
      rw [Nat.min_zero]
      exact le_rfl
  | succ depth ih =>
      cases n with
      | zero =>
          rw [Nat.zero_min]
          exact Marks.none fun _ both => absurd both.1 (Nat.not_lt_zero _)
      | succ n =>
          rw [Nat.succ_min_succ]
          refine Marks.bind (primitive_follows Fixed.byte) fun kind length b spells => ?_
          rw [eq_tag length spells]
          refine (Marks.seq (primitive_follows fixed_valType) (Marks.all fun _ => trivial)
            (fun valType _ => ?_) fun _ no => absurd trivial no)
          by_cases isLeaf : tag kind = 0
          · rw [if_pos isLeaf, if_pos isLeaf, isLeaf]
            refine Marks.map (reference_follows pad) (leaves.congr rfl rfl fun ref _ _ _ => ?_)
            simp [Low, OpTree.asExpr, StackMachine.Expr.height, OpTree.refs]
          · rw [if_neg isLeaf, if_neg isLeaf]
            split
            case h_1 isZero => exact absurd isZero isLeaf
            case h_2 => exact inner_marks (ih n)

theorem treeOf_le {leaf' : Language UInt8} (le : leaf ≤ leaf') (n : Nat) :
    treeOf leaf n ≤ treeOf leaf' n := by
  induction n with
  | zero => exact le_rfl
  | succ n ih =>
      intro w mem
      obtain ⟨kind, isKind, x, ⟨type, isType, u, parts, rfl⟩, rfl⟩ := mem
      refine ⟨kind, isKind, _, ⟨type, isType, u, ?_, rfl⟩, rfl⟩
      by_cases isLeaf : tag kind = 0
      · rw [if_pos isLeaf] at parts ⊢
        exact le parts
      · rw [if_neg isLeaf] at parts ⊢
        obtain ⟨left, isLeft, v, ⟨right, isRight, op, isOp, rfl⟩, rfl⟩ := parts
        exact ⟨left, ih isLeft, _, ⟨right, ih isRight, op, isOp, rfl⟩, rfl⟩

/-- A tree is read within the depth of its length. -/
theorem spells_within {pad : Nat} {w : Bytes} (mem : w ∈ tree) {t : OpTree}
    (spells : Spells (WatchedUnmarshaller.decodeOpTree pad) w t) :
    w ∈ treeOf reference w.length ∧
      Spells (WatchedUnmarshaller.decodeOpTreeWithin pad w.length) w t := by
  obtain ⟨depth, mem⟩ := Language.mem_iSup.mp mem
  have within := treeOf_length mem
  obtain ⟨t', spells'⟩ := (treeWithin_follows pad w.length).complete w within
  have read := spells []
  rw [List.append_nil] at read
  have read' := spells' []
  rw [List.append_nil] at read'
  cases read.symm.trans read'
  exact ⟨within, spells'⟩

theorem tree_marks {pad : Nat}
    (leaves : Marks (WatchedUnmarshaller.decodeValueReference pad) reference leaf q) (n : Nat) :
    Marks (WatchedUnmarshaller.decodeOpTree pad) tree (treeOf leaf n) (Low q n) := by
  constructor
  · intro w mem
    exact Language.mem_iSup.mpr ⟨n, treeOf_le leaves.le n mem⟩
  · intro w t mem spells
    obtain ⟨within, spells'⟩ := spells_within mem spells
    rw [(treeWithin_marks leaves w.length n).iff within spells']
    refine ⟨fun low => treeOf_mono leaf (Nat.min_le_left _ _) low, fun low => ?_⟩
    rcases Nat.le_total n w.length with short | long
    · rwa [Nat.min_eq_left short]
    · rw [Nat.min_eq_right long]
      exact treeOf_length low

theorem allLeaves_marks {pad : Nat}
    (leaves : Marks (WatchedUnmarshaller.decodeValueReference pad) reference leaf q) :
    Marks (WatchedUnmarshaller.decodeOpTree pad) tree (⨆ n, treeOf leaf n)
      fun t => ∀ ref ∈ t.refs, q ref := by
  constructor
  · intro w mem
    obtain ⟨n, mem⟩ := Language.mem_iSup.mp mem
    exact (tree_marks leaves n).le mem
  · intro w t mem spells
    rw [Language.mem_iSup]
    constructor
    · intro all
      exact ⟨t.asExpr.height + 1, ((tree_marks leaves _).iff mem spells).mp
        ⟨Nat.lt_succ_self _, all⟩⟩
    · intro some
      obtain ⟨n, inTree⟩ := some
      exact (((tree_marks leaves n).iff mem spells).mpr inTree).2

end Marks

/-! ## Parameters -/

/-- The reference gives a parameter of the kind no index. -/
def Unlinked (kind : StateType) (ref : OpValueReference) : Prop :=
  ∀ idx name, ref = .rulePkt idx kind name → idx < 0

theorem unlinked_rulePkt {kind type : StateType} {idx : Int} {name : Option CString} :
    Unlinked kind (.rulePkt idx type name) ↔ ¬ (type = kind ∧ 0 ≤ idx) := by
  constructor
  · intro unlinked both
    obtain ⟨rfl, nonneg⟩ := both
    exact absurd (unlinked idx name rfl) (Int.not_lt.mpr nonneg)
  · intro free idx' name' is
    cases is
    exact Int.not_le.mp fun nonneg => free ⟨rfl, nonneg⟩

theorem findFor_neg_iff (kind : StateType) (t : OpTree) :
    RulePkt.findFor kind t < 0 ↔ ∀ ref ∈ t.refs, Unlinked kind ref := by
  induction t with
  | leaf ref valType =>
      cases ref with
      | static value =>
          cases kind <;> simp [RulePkt.findFor, RulePkt.findLastState, RulePkt.findNegation,
            RulePkt.findAggregate, RulePkt.findReference, OpTree.refs, Unlinked]
      | rulePkt idx type name =>
          cases kind <;> cases type <;> simp [RulePkt.findFor, RulePkt.findLastState,
            RulePkt.findNegation, RulePkt.findAggregate, RulePkt.findReference, OpTree.refs,
            Unlinked]
  | inner left right op valType ihLeft ihRight =>
      have node : RulePkt.findFor kind (.inner left right op valType) =
          max (RulePkt.findFor kind left) (RulePkt.findFor kind right) := by cases kind <;> rfl
      rw [node, max_lt_iff, ihLeft, ihRight, OpTree.refs, List.forall_mem_append]

theorem serializableReference_marks (pad : Nat) :
    Marks (WatchedUnmarshaller.decodeValueReference pad) reference serializableReference
      OpValueReference.NameFits := by
  refine reference_marks pad (fun _ => trivial) fun idx type w => ?_
  unfold made
  by_cases isAgg : type = .agg
  · rw [if_pos isAgg, isAgg]
    refine (and_iff_left ?_).symm
    split <;> exact .inl rfl
  · rw [if_neg isAgg, if_neg fun both => isAgg both.1]
    simp only [OpValueReference.NameFits, isAgg, false_or, Option.mem_some_iff, exists_eq_left']
    rfl

theorem unlinkedReference_marks (pad : Nat) (kind : StateType) :
    Marks (WatchedUnmarshaller.decodeValueReference pad) reference (unlinkedReference kind)
      (Unlinked kind) := by
  refine reference_marks pad (fun value idx name is => by cases is) fun idx type w => ?_
  have unlinked : Unlinked kind (made idx type (spelledString w)) ↔ ¬ (type = kind ∧ 0 ≤ idx) := by
    unfold made
    split
    case isTrue isAgg => rw [unlinked_rulePkt, isAgg.1]
    case isFalse => exact unlinked_rulePkt
  rw [unlinked]
  split
  case isTrue linked => exact iff_of_false (Language.notMem_zero w) fun both => both.2 linked
  case isFalse free => exact (and_iff_left free).symm

/-- The end of a parameter. -/
theorem trees_marks {pad : Nat} {part : Language UInt8} {p : OpTree → Prop}
    (marks : Marks (WatchedUnmarshaller.decodeOpTree pad) tree part p) (operation : Op)
    (type : StateType) (vtype : ValType) :
    Marks (do
        let leftTree ← WatchedUnmarshaller.decodeOpTree pad
        let rightTree ← WatchedUnmarshaller.decodeOpTree pad
        return ({ operation, type, vtype, leftTree, rightTree } : ComplexParameter))
      (tree * tree) (part * part) fun par => p par.leftTree ∧ p par.rightTree := by
  refine Marks.seq (tree_follows pad) marks (fun left isLeft => ?_) fun left not => ?_
  · refine Marks.map (tree_follows pad) (marks.congr rfl rfl fun right _ _ _ => ?_)
    exact (and_iff_right isLeft).symm
  · refine Marks.none fun read both => ?_
    obtain ⟨right, mid, -, done⟩ := Watched.bind_eq_ok.mp read
    cases done
    exact not both.1

theorem parameter_marks (pad : Nat) :
    Marks (WatchedUnmarshaller.decodeParameter pad) parameter serializableParameter
      ComplexParameter.Serializable := by
  refine Marks.seq (primitive_follows fixed_constraintOp) (Marks.all fun _ => trivial)
    (fun operation _ => ?_) fun _ no => absurd trivial no
  refine Marks.bind (primitive_follows fixed_stateType) fun w length type spells => ?_
  rw [eq_stateType length spells]
  refine Marks.seq (primitive_follows fixed_valType) (Marks.all fun _ => trivial)
    (fun vtype _ => ?_) fun _ no => absurd trivial no
  have unlinked := trees_marks (allLeaves_marks (unlinkedReference_marks pad (stateType w)))
    operation (stateType w) vtype
  have low := trees_marks (tree_marks (serializableReference_marks pad) 4) operation (stateType w)
    vtype
  refine (unlinked.or low).congr rfl rfl fun par input rest read => ?_
  obtain ⟨left, afterLeft, -, readRight⟩ := Watched.bind_eq_ok.mp read
  obtain ⟨right, afterRight, -, done⟩ := Watched.bind_eq_ok.mp readRight
  cases done
  refine or_congr ?_ ?_
  · rw [max_lt_iff, findFor_neg_iff, findFor_neg_iff]
  · simp only [Low, List.forall_mem_append, Nat.lt_succ_iff]
    exact and_and_and_comm

/-! ## The map of parameters -/

theorem decodeEntry_bind {α β : Type} (d : Watched Stop α) (f : Int × α → Watched Stop β) :
    WatchedUnmarshaller.decodeEntry d >>= f = (do
      let key ← WatchedUnmarshaller.primitive Unmarshaller.decodeInt
      let value ← d
      f (key, value)) := by
  simp only [WatchedUnmarshaller.decodeEntry, bind_assoc, pure_bind]

/-- Entries of which the first ones of their keys fit. -/
theorem entries_marks (pad n : Nat) (known : List Int) :
    Marks (Watched.times (WatchedUnmarshaller.decodeEntry
        (WatchedUnmarshaller.decodeParameter pad)) n)
      ((bytes 4 * parameter) ^ n) (serializableEntries n known)
      (OrdMap.FirstsSatisfy ComplexParameter.Serializable known) := by
  induction n generalizing known with
  | zero =>
      rw [pow_zero]
      refine Marks.all fun read => ?_
      cases read
      trivial
  | succ n ih =>
      rw [pow_succ', mul_assoc]
      rw [Watched.times, decodeEntry_bind]
      refine Marks.bind (primitive_follows fixed_int) fun w length key spells => ?_
      rw [← eq_signed length spells]
      have value : Marks (WatchedUnmarshaller.decodeParameter pad) parameter
          (if key ∈ known then parameter else serializableParameter)
          fun par => key ∈ known ∨ par.Serializable := by
        split
        case isTrue isKnown => exact Marks.all fun _ => .inl isKnown
        case isFalse fresh =>
          exact (parameter_marks pad).congr rfl rfl fun par _ _ _ => (or_iff_right fresh).symm
      refine Marks.seq (parameter_follows pad) value (fun par fits => ?_) fun par not => ?_
      · refine Marks.map ((entry_follows (parameter_follows pad)).times n)
          ((ih (key :: known)).congr rfl rfl fun rest _ _ _ => ?_)
        exact (and_iff_right fits).symm
      · refine Marks.none fun read all => ?_
        obtain ⟨rest, mid, -, done⟩ := Watched.bind_eq_ok.mp read
        cases done
        exact not all.1

theorem map_marks (pad : Nat) :
    Marks (WatchedUnmarshaller.decodeMap (WatchedUnmarshaller.decodeParameter pad)) (map parameter)
      serializableMap fun parameters => ∀ it ∈ parameters, it.2.Serializable := by
  have counted : Marks (WatchedUnmarshaller.counted (WatchedUnmarshaller.decodeEntry
        (WatchedUnmarshaller.decodeParameter pad))) (map parameter) serializableMap
      (OrdMap.FirstsSatisfy ComplexParameter.Serializable []) := by
    refine Marks.bind (primitive_follows fixed_int) fun w length num spells => ?_
    rw [eq_signed length spells]
    exact entries_marks pad _ []
  refine Marks.map (counted_follows (entry_follows (parameter_follows pad))) (counted.congr rfl rfl
    fun entries _ _ _ => ?_)
  have noKey : ∀ k : Int, k ∈ ([] : List Int) ↔
      ∃ e ∈ ([] : List (Int × ComplexParameter)), e.1 = k := by simp
  rw [OrdMap.forall_foldl_insert (by simp) .nil noKey]
  exact (and_iff_right fun e mem => absurd mem List.not_mem_nil).symm

end Format

end TRex
