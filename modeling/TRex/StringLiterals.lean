import TRex.Lib.Stateful
import TRex.RuleParser

/-!
# String literals in rules

A literal is compiled at three places. Two of them remove the first and the last character of the
token's text, which the lexer has already taken out of its quotes or not; `getConstraint` does not.
`not_meansTheSame` says that the strings never agree.
-/

namespace TRex.Tesla

/-- A constraint on the literal compares with the string. -/
def InConstraint (text s : CString) : Prop :=
  ∀ attr_name operator, getConstraint ⟨attr_name, operator, .string_val text⟩ =
    some ⟨attr_name, getConstrOp operator, .string s⟩

/-- The literal of an expression is a leaf with the string. -/
def InExpression (text s : CString) : Prop :=
  ∀ (valType : Option ValType) (state : Parser),
    buildOpTree valType id (.atom (.static (.string_val text))) state =
      some (.leaf (.static (.string_val text)) (.static (.string s)) (some .string), state)

/-- An attribute that is declared as a string and defined as the literal has the string. -/
def InDefinition (text s : CString) : Prop :=
  ∀ (attr_name : CString) (state : Parser) (template : EventTemplate),
    state.eventTemplateAttrTypes attr_name = some .string → state.rule_template = some template →
    addStaticAttribute attr_name (.string_val text) state =
      some ((), { state with rule_template := some { template with
        staticAttributes := template.staticAttributes ++ [some ⟨attr_name, .string s⟩] } })

/-- One string is compiled wherever the literal stands. -/
def MeansTheSame (text : CString) : Prop :=
  ∃ s, InConstraint text s ∧ InExpression text s ∧ InDefinition text s

/-- An attribute that is defined as the literal has the value that an attribute must have that is
required to be equal to it. -/
def DefinedFits (text : CString) : Prop :=
  ∀ attr_name, ∃ c attr, getConstraint ⟨attr_name, .eq, .string_val text⟩ = some c ∧
    staticAttribute (some .string) attr_name (.string_val text) = some (some attr) ∧
    c.op = some .eq ∧ c.value = attr.value

/-! ## The three strings -/

theorem length_unquote {text s : CString} (unquoted : unquote text = some s) :
    s.length + 2 = text.length := by
  unfold unquote at unquoted
  split at unquoted
  case isTrue long =>
    rw [← Option.some.inj unquoted, List.length_dropLast, List.length_drop]
    omega
  case isFalse => cases unquoted

theorem inConstraint_iff {text s : CString} : InConstraint text s ↔ s = text := by
  constructor
  · intro compiled
    have constraint := Option.some.inj (compiled [] .eq)
    exact (Value.string.inj (congrArg Constraint.value constraint)).symm
  · intro same attr_name operator
    rw [same]
    rfl

theorem value_string (text : CString) :
    (Static_reference.string_val text).value = (unquote text).map Value.string := by
  rw [Option.map_eq_bind]
  rfl

/-- A leaf for a literal, or none where the listener throws an exception. -/
theorem buildOpTree_static (ref : Static_reference) (valType : Option ValType) (state : Parser) :
    buildOpTree valType id (.atom (.static ref)) state =
      ref.value.map fun v => (.leaf (.static ref) (.static v) (some v.type), state) := by
  unfold buildOpTree recursivelyNavigateExpression reference
  cases value : ref.value with
  | none =>
    simp only [id_eq, value]
    rfl
  | some v =>
    simp only [id_eq, value]
    rfl

theorem buildOpTree_string (text : CString) (valType : Option ValType) (state : Parser) :
    buildOpTree valType id (.atom (.static (.string_val text))) state =
      (unquote text).map fun s =>
        (.leaf (.static (.string_val text)) (.static (.string s)) (some .string), state) := by
  rw [buildOpTree_static, value_string, Option.map_map]
  rfl

theorem staticAttribute_string (attr_name text : CString) :
    staticAttribute (some .string) attr_name (.string_val text) =
      (unquote text).map fun s => some ⟨attr_name, .string s⟩ := by
  unfold staticAttribute
  simp only [value_string]
  cases unquote text with
  | none => rfl
  | some s => rfl

theorem addStaticAttribute_string {attr_name text : CString} {state : Parser}
    {template : EventTemplate} (declared : state.eventTemplateAttrTypes attr_name = some .string)
    (defined : state.rule_template = some template) :
    addStaticAttribute attr_name (.string_val text) state =
      (unquote text).map fun s => ((), { state with rule_template := some { template with
        staticAttributes := template.staticAttributes ++ [some ⟨attr_name, .string s⟩] } }) := by
  rw [addStaticAttribute, Stateful.get_bind, Stateful.lift_bind, declared, staticAttribute_string,
    Option.bind_map, Option.map_eq_bind]
  congr 1
  funext s
  rw [Function.comp_apply, Stateful.lift_bind, defined]
  rfl

theorem unquote_of_inExpression {text s : CString} (expression : InExpression text s) :
    unquote text = some s := by
  have leaf := (buildOpTree_string text none Parser.new).symm.trans (expression none Parser.new)
  rcases Option.map_eq_some_iff.mp leaf with ⟨read, unquoted, same⟩
  injection same with leaves
  injection leaves with _ reference
  injection reference with value
  rw [unquoted, Value.string.inj value]

/-- The strings of expressions and definitions agree where there are any. -/
theorem inExpression_inDefinition {text s : CString} (unquoted : unquote text = some s) :
    InExpression text s ∧ InDefinition text s := by
  constructor
  · intro valType state
    rw [buildOpTree_string, unquoted]
    rfl
  · intro attr_name state template declared defined
    rw [addStaticAttribute_string declared defined, unquoted]
    rfl

/-! ## They differ -/

theorem unquote_ne (text : CString) : unquote text ≠ some text := by
  intro unquoted
  have shorter := length_unquote unquoted
  omega

theorem constraint_ne_expression {text s t : CString} (constraint : InConstraint text s)
    (expression : InExpression text t) : s ≠ t := by
  intro same
  have unquoted := unquote_of_inExpression expression
  rw [← same, inConstraint_iff.mp constraint] at unquoted
  exact unquote_ne text unquoted

/-- Whatever the text of a literal is, its strings differ, and an attribute that is defined as the
literal is not equal to it. -/
theorem not_meansTheSame (text : CString) : ¬ MeansTheSame text ∧ ¬ DefinedFits text := by
  constructor
  · intro same
    rcases same with ⟨s, constraint, expression, _⟩
    exact constraint_ne_expression constraint expression rfl
  · intro fits
    rcases fits [] with ⟨c, attr, constraint, defined, _, equal⟩
    rw [staticAttribute_string] at defined
    rcases Option.map_eq_some_iff.mp defined with ⟨s, unquoted, made⟩
    have value : Value.string text = attr.value :=
      (congrArg Constraint.value (Option.some.inj constraint)).trans equal
    rw [← Option.some.inj made] at value
    rw [← Value.string.inj value] at unquoted
    exact unquote_ne text unquoted

/-- The area of a fire. -/
def office : CString := ['o', 'f', 'f', 'i', 'c', 'e']

theorem office_not_meansTheSame :
    InConstraint office office ∧ InExpression office ['f', 'f', 'i', 'c'] ∧
      InDefinition office ['f', 'f', 'i', 'c'] ∧ ¬ MeansTheSame office := by
  refine ⟨inConstraint_iff.mpr rfl, (inExpression_inDefinition (by decide)).1,
    (inExpression_inDefinition (by decide)).2, ?_⟩
  intro same
  rcases same with ⟨s, constraint, expression, _⟩
  exact constraint_ne_expression constraint expression rfl

end TRex.Tesla
