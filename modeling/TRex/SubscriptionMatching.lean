import TRex.JavaUnmarshaller
import TRex.Subscription

/-!
# Matching on the client

`SubPkt.match` of the Java client repeats the matching that the server has done, to find out which
subscription a publication was sent for. Its switches over the operators have no `break` behind
their cases, so that a test that passes is followed by those of the operators below it.
`matchedAlike_iff` says for which subscriptions and publications client and server agree, and
`matchedAlike_all_iff` that they agree on all publications only where there is nothing to test. -/

namespace TRex

/-! ## The client -/

namespace Java

/-! An attribute has the default values of its class in the members of the other types. -/

def getIntVal : Value → Int
  | .int v => v
  | _ => 0

def getFloatVal : Value → CFloat
  | .float bits => bits
  | _ => CFloat.ofInt 0

def getBoolVal : Value → Bool
  | .bool b _ => b
  | _ => false

def getStringVal : Value → CString
  | .string s => s
  | _ => []

/-- A switch whose cases fall through: whether one of the tests that are reached returns 0. -/
def fallThrough (cases : List (Op × Bool)) (op : Op) : Bool :=
  (cases.dropWhile fun label => label.1 != op).any Prod.snd

/-- The switches for one constraint and an attribute of its name: whether `match` returns 0. -/
def refuses (constr : Constraint) (at_ : Value) : Bool :=
  match constr.type with
  | .int =>
    let c := constr.intVal
    let a := getIntVal at_
    fallThrough [(.eq, c != a), (.ne, c == a), (.gt, decide (c ≤ a)), (.lt, decide (c ≥ a)),
      (.le, decide (c > a)), (.ge, decide (c < a))] constr.op
  | .float =>
    let c := constr.floatVal
    let a := getFloatVal at_
    fallThrough [(.eq, !c.eq a), (.ne, c.eq a), (.gt, c.le a), (.lt, a.le c), (.le, a.lt c),
      (.ge, c.lt a)] constr.op
  | .bool =>
    let c := constr.boolVal
    let a := getBoolVal at_
    fallThrough [(.eq, c != a), (.ne, c == a)] constr.op
  | .string =>
    let c := constr.stringVal
    let a := getStringVal at_
    -- an order on strings is not defined
    fallThrough [(.eq, c != a), (.ne, c == a), (.gt, true), (.lt, true), (.in_, !decide (c <:+: a))]
      constr.op

/-- `SubPkt.match`; without a matcher it ends with a `NullPointerException`. -/
def SubPkt.«match» (sub : SubPkt) (matcher : Option (PubPkt → Bool)) (pkt : PubPkt) : Option Int :=
  if sub.eventType ≠ pkt.eventType then some 0
  else if sub.constraints.any fun constr =>
      pkt.attributes.any fun at_ => constr.name == at_.name && refuses constr at_.value then some 0
  else matcher.map fun m => if m pkt then 1 else -1

end Java

/-! ## Both sides -/

/-- The publication as the server sends it and the client decodes it. -/
def PubPkt.toJava (pub : PubPkt) : Java.PubPkt := ⟨pub.eventType, pub.timeStamp, pub.attributes⟩

/-- The subscription that the server decodes. -/
def Java.SubPkt.toServer (sub : Java.SubPkt) : TRex.SubPkt := ⟨sub.eventType, sub.constraints⟩

/-- The client returns a value, other than zero exactly when the publication matches on the
server. -/
def MatchedAlike (sub : Java.SubPkt) (matcher : Option (Java.PubPkt → Bool)) (pub : PubPkt) :
    Prop :=
  ∃ v, sub.match matcher pub.toJava = some v ∧ (v ≠ 0 ↔ sub.toServer.matchesPub pub = .ok true)

/-- Integers with any operator but `IN`, Booleans with `EQ` and `NE`, and strings with any
operator. -/
def Constraint.Testable (c : Constraint) : Prop :=
  match c.type with
  | .int => c.op ≠ .in_
  | .float => False
  | .bool => c.op = .eq ∨ c.op = .ne
  | .string => True

/-! ## What the constraints say, and what the client's switches let through -/

/-- The value `x` stands in the relation to the bound `c`. -/
def Op.Relates {V : Type} [LT V] (op : Op) (x c : V) : Prop :=
  match op with
  | .eq => x = c
  | .ne => x ≠ c
  | .lt => x < c
  | .gt => c < x
  | .le => ¬ c < x
  | .ge => ¬ x < c
  | .in_ => False

/-- The value has the type of the constraint and stands in its relation to the constraint's
value. -/
def Constraint.SatisfiedBy (c : Constraint) : Value → Prop
  | .int x => c.type = .int ∧ c.op.Relates x c.intVal
  | .float _ => False
  | .bool b _ => c.type = .bool ∧ (c.op = .eq ∧ b = c.boolVal ∨ c.op = .ne ∧ b ≠ c.boolVal)
  | .string s => c.type = .string ∧
      (c.op = .in_ ∧ c.stringVal <:+: s ∨ c.op.Relates s c.stringVal)

/-- The first attribute of the constraint's name satisfies it. -/
def Constraint.MetBy (c : Constraint) (attributes : List Attribute) : Prop :=
  ∃ a, attributes.find? (fun a => a.name == c.name) = some a ∧ c.SatisfiedBy a.value

/-- The client's switches end without a refusal: this is so for no `EQ`, `GT` or `LT`, for no `NE`
on integers and strings, for `LE` on equal integers, and for `GE` the wrong way round. -/
def Constraint.LetThrough (c : Constraint) (v : Value) : Prop :=
  match c.type, c.op with
  | .int, .le => Java.getIntVal v = c.intVal
  | .int, .ge => Java.getIntVal v ≤ c.intVal
  | .bool, .ne => Java.getBoolVal v ≠ c.boolVal
  | .string, .in_ => c.stringVal <:+: Java.getStringVal v
  | .string, .le | .string, .ge => True
  | _, _ => False

/-- The publication has another type, or every constraint is met and let through, or one is not met
and one, be it another, is not let through. -/
def Undisturbed (sub : Java.SubPkt) (pub : PubPkt) : Prop :=
  (pub.eventType : Int) ≠ sub.eventType ∨
  (∀ c ∈ sub.constraints, c.MetBy pub.attributes ∧
    ∀ a ∈ pub.attributes, a.name = c.name → c.LetThrough a.value) ∨
  (∃ c ∈ sub.constraints, ¬ c.MetBy pub.attributes) ∧
    ∃ c ∈ sub.constraints, ∃ a ∈ pub.attributes, a.name = c.name ∧ ¬ c.LetThrough a.value

/-! ## The client's side -/

section Refuses

variable {c : Constraint} (v : Value)

theorem refuses_int (type : c.type = .int) (known : c.op ≠ .in_) :
    Java.refuses c v = true ↔ ¬ c.LetThrough v := by
  simp only [Java.refuses, Constraint.LetThrough, type]
  cases op : c.op with
  | in_ => exact absurd op known
  | _ =>
      simp [Java.fallThrough]
      try omega

theorem refuses_bool (type : c.type = .bool) (known : c.op = .eq ∨ c.op = .ne) :
    Java.refuses c v = true ↔ ¬ c.LetThrough v := by
  simp only [Java.refuses, Constraint.LetThrough, type]
  rcases known with op | op
  · cases c.boolVal <;> cases Java.getBoolVal v <;> simp [Java.fallThrough, op]
  · cases c.boolVal <;> cases Java.getBoolVal v <;> simp [Java.fallThrough, op]

theorem refuses_string (type : c.type = .string) :
    Java.refuses c v = true ↔ ¬ c.LetThrough v := by
  simp only [Java.refuses, Constraint.LetThrough, type]
  cases c.op <;> simp [Java.fallThrough]

/-- Testing stops where `LetThrough` says so. -/
theorem refuses_iff (testable : c.Testable) : Java.refuses c v = true ↔ ¬ c.LetThrough v := by
  cases type : c.type with
  | int => exact refuses_int v type (by simpa [Constraint.Testable, type] using testable)
  | float => simp [Constraint.Testable, type] at testable
  | bool => exact refuses_bool v type (by simpa [Constraint.Testable, type] using testable)
  | string => exact refuses_string v type

end Refuses

/-- The client finds a publication of the type unless a constraint stops at an attribute. -/
theorem match_ne_zero_iff {sub : Java.SubPkt} (testable : ∀ c ∈ sub.constraints, c.Testable)
    (matcher : Java.PubPkt → Bool) (pkt : Java.PubPkt) :
    ∃ v, sub.match (some matcher) pkt = some v ∧ (v ≠ 0 ↔ sub.eventType = pkt.eventType ∧
      ∀ c ∈ sub.constraints, ∀ a ∈ pkt.attributes, a.name = c.name → c.LetThrough a.value) := by
  have stops : (sub.constraints.any fun constr => pkt.attributes.any fun at_ =>
        constr.name == at_.name && Java.refuses constr at_.value) = true ↔
      ¬ ∀ c ∈ sub.constraints, ∀ a ∈ pkt.attributes, a.name = c.name → c.LetThrough a.value := by
    simp only [List.any_eq_true, Bool.and_eq_true, beq_iff_eq]
    push Not
    apply exists_congr
    intro c
    apply and_congr_right
    intro mem
    apply exists_congr
    intro a
    rw [refuses_iff a.value (testable c mem), eq_comm]
  rw [Java.SubPkt.match]
  split
  case isTrue differ => exact ⟨0, rfl, by simp [differ]⟩
  case isFalse same =>
    rw [not_not] at same
    split
    case isTrue stopped => exact ⟨0, rfl, by simp [stops.mp stopped]⟩
    case isFalse passed =>
      rw [stops, not_not] at passed
      have nonzero : (if matcher pkt then (1 : Int) else -1) ≠ 0 := by split <;> decide
      exact ⟨_, rfl, iff_of_true nonzero ⟨same, passed⟩⟩

/-! ## The server's side -/

theorem matchesNumber_iff (op : Op) (x c : Int) (type : String) :
    op.matchesNumber (fun a b => decide (a < b)) (fun a b => decide (a ≤ b))
      (fun a b => decide (a = b)) type x c = .ok true ↔ op.Relates x c := by
  cases op <;> simp [Op.matchesNumber, Op.Relates]

theorem matchesBool_iff (op : Op) (x c : Bool) :
    op.matchesBool x c = .ok true ↔ op = .eq ∧ x = c ∨ op = .ne ∧ x ≠ c := by
  cases op <;> simp [Op.matchesBool]

theorem matchesString_iff (op : Op) (x c : CString) :
    op.matchesString x c = true ↔ op = .in_ ∧ c <:+: x ∨ op.Relates x c := by
  cases op <;> simp only [Op.matchesString, Op.Relates, decide_eq_true_eq, Bool.not_eq_true',
    decide_eq_false_iff_not, reduceCtorEq, false_and, true_and, false_or, or_false]

theorem matchesAttribute_iff {c : Constraint} (known : c.type ≠ .float) {a : Attribute}
    (name : a.name = c.name) : c.matchesAttribute a = .ok true ↔ c.SatisfiedBy a.value := by
  obtain ⟨name', value⟩ := a
  rw [Constraint.matchesAttribute, if_neg (not_not.mpr name.symm)]
  by_cases type : c.type = Attribute.type ⟨name', value⟩
  · rw [if_neg (not_not.mpr type)]
    cases value with
    | int x =>
        have isInt : c.type = .int := type
        simp only [isInt, Constraint.SatisfiedBy, true_and]
        exact matchesNumber_iff c.op x c.intVal "INT"
    | float bits => exact absurd type known
    | bool x pad =>
        have isBool : c.type = .bool := type
        simp only [isBool, Constraint.SatisfiedBy, true_and]
        exact matchesBool_iff c.op x c.boolVal
    | string x =>
        have isString : c.type = .string := type
        simp only [isString, Constraint.SatisfiedBy, true_and, Except.ok.injEq]
        exact matchesString_iff c.op x c.stringVal
  · rw [if_pos type]
    have other : ¬ c.SatisfiedBy value := by
      intro satisfied
      cases value with
      | int x => exact type satisfied.1
      | float bits => exact satisfied
      | bool x pad => exact type satisfied.1
      | string x => exact type satisfied.1
    simp [other]

theorem matchesAll_iff {pub : PubPkt}
    (mapped : pub.contentMap = PubPkt.buildContentMap pub.attributes)
    {constraints : List Constraint} (known : ∀ c ∈ constraints, c.type ≠ .float) :
    pub.matchesAll constraints = .ok true ↔ ∀ c ∈ constraints, c.MetBy pub.attributes := by
  induction constraints with
  | nil => simp [PubPkt.matchesAll]
  | cons c rest ih =>
      have inRest := ih fun d mem => known d (List.mem_cons_of_mem c mem)
      rw [PubPkt.matchesAll, List.forall_mem_cons]
      rcases PubPkt.getAttributeIndexAndType_mapped mapped c.name with ⟨missing, lookup⟩ |
        ⟨i, a, found, there, lookup⟩
      · have unmet : ¬ c.MetBy pub.attributes := by simp [Constraint.MetBy, missing]
        simp [lookup, unmet]
      · have name : a.name = c.name := by simpa using List.find?_some found
        have met : c.MetBy pub.attributes ↔ c.matchesAttribute a = .ok true := by
          rw [matchesAttribute_iff (known c List.mem_cons_self) name]
          simp [Constraint.MetBy, found]
        rw [met, ← inRest]
        simp only [lookup, there]
        cases c.matchesAttribute a with
        | error text => simp [bind, Except.bind]
        | ok b => cases b <;> simp [bind, Except.bind, pure, Except.pure]

theorem matchesPub_iff {sub : SubPkt} {pub : PubPkt}
    (mapped : pub.contentMap = PubPkt.buildContentMap pub.attributes)
    (known : ∀ c ∈ sub.constraints, c.type ≠ .float) :
    sub.matchesPub pub = .ok true ↔
      sub.eventType = pub.eventType ∧ ∀ c ∈ sub.constraints, c.MetBy pub.attributes := by
  rw [SubPkt.matchesPub]
  split
  case isTrue differ =>
    have reverse : sub.eventType ≠ pub.eventType := Ne.symm differ
    simp [reverse]
  case isFalse same =>
    rw [not_not] at same
    rw [matchesAll_iff mapped known]
    exact (and_iff_right same.symm).symm

/-! ## Both -/

theorem Constraint.Testable.known {c : Constraint} (testable : c.Testable) : c.type ≠ .float := by
  intro float
  simp [Constraint.Testable, float] at testable

/-- On the publications that the engine builds, client and server agree exactly where nothing is
disturbed. -/
theorem matchedAlike_iff (sub : Java.SubPkt) (testable : ∀ c ∈ sub.constraints, c.Testable)
    (matcher : Java.PubPkt → Bool) (type : Int) (attributes : List Attribute) (now : Nat) :
    MatchedAlike sub (some matcher) (PubPkt.new type attributes now) ↔
      Undisturbed sub (PubPkt.new type attributes now) := by
  obtain ⟨v, returned, found⟩ :=
    match_ne_zero_iff testable matcher (PubPkt.new type attributes now).toJava
  have server : sub.toServer.matchesPub (PubPkt.new type attributes now) = .ok true ↔ _ :=
    matchesPub_iff rfl fun c mem => (testable c mem).known
  have alike : MatchedAlike sub (some matcher) (PubPkt.new type attributes now) ↔
      (v ≠ 0 ↔ sub.toServer.matchesPub (PubPkt.new type attributes now) = .ok true) := by
    rw [MatchedAlike, returned]
    simp
  rw [alike, found, server]
  simp only [PubPkt.toJava, Java.SubPkt.toServer, Undisturbed]
  generalize PubPkt.new type attributes now = pub
  by_cases same : sub.eventType = pub.eventType
  · have unmet : (∃ c ∈ sub.constraints, ¬ c.MetBy pub.attributes) ↔
        ¬ ∀ c ∈ sub.constraints, c.MetBy pub.attributes := by
      push Not
      rfl
    have stopped : (∃ c ∈ sub.constraints, ∃ a ∈ pub.attributes,
          a.name = c.name ∧ ¬ c.LetThrough a.value) ↔
        ¬ ∀ c ∈ sub.constraints, ∀ a ∈ pub.attributes, a.name = c.name → c.LetThrough a.value := by
      push Not
      rfl
    rw [unmet, stopped, forall₂_and]
    simp only [same, true_and, ne_eq, not_true_eq_false, false_or]
    exact iff_comm.trans iff_iff_and_or_not_and_not
  · have differ : (pub.eventType : Int) ≠ sub.eventType := Ne.symm same
    simp [same, differ]

/-- A temperature of at most five degrees. -/
def atMostFive : Java.SubPkt := ⟨1, [⟨['t'], .le, .int, 5, 0, false, []⟩]⟩

theorem atMostFive_matchedAlike :
    MatchedAlike atMostFive (some fun _ => true) (PubPkt.new 1 [⟨['t'], .int 5⟩] 0) := by
  have testable : ∀ c ∈ atMostFive.constraints, c.Testable := by
    intro c mem
    rw [List.mem_singleton.mp mem]
    exact Op.noConfusion
  apply (matchedAlike_iff atMostFive testable (fun _ => true) 1 [⟨['t'], .int 5⟩] 0).mpr
  refine .inr (.inl ?_)
  intro c mem
  rw [List.mem_singleton.mp mem]
  refine ⟨⟨⟨['t'], .int 5⟩, rfl, rfl, Int.lt_irrefl 5⟩, ?_⟩
  intro a here _
  rw [List.mem_singleton.mp here]
  exact rfl

/-- A temperature of five degrees. -/
def five : Java.SubPkt := ⟨1, [⟨['t'], .eq, .int, 5, 0, false, []⟩]⟩

/-- The client refuses what it has subscribed to: the test for `NE` follows that for `EQ`. -/
theorem five_not_matchedAlike :
    ¬ MatchedAlike five (some fun _ => true) (PubPkt.new 1 [⟨['t'], .int 5⟩] 0) := by
  rintro ⟨v, returned, found⟩
  have zero : 0 = v := Option.some.inj returned
  exact found.mpr rfl zero.symm

/-- A subscription is matched alike on all publications exactly if it has no constraint, or a type
that no publication has. -/
theorem matchedAlike_all_iff (sub : Java.SubPkt) (testable : ∀ c ∈ sub.constraints, c.Testable)
    (matcher : Java.PubPkt → Bool) :
    (∀ type attributes now, MatchedAlike sub (some matcher) (PubPkt.new type attributes now)) ↔
      sub.constraints = [] ∨ ¬ (0 ≤ sub.eventType ∧ sub.eventType < 2 ^ 16) := by
  constructor
  · intro alike
    by_contra neither
    push Not at neither
    obtain ⟨constrained, nonneg, small⟩ := neither
    have type : ((PubPkt.new sub.eventType [] 0).eventType : Int) = sub.eventType := by
      simp only [PubPkt.new]
      omega
    rcases (matchedAlike_iff sub testable matcher _ _ _).mp (alike sub.eventType [] 0) with
      differ | met | ⟨-, c, -, a, mem, -⟩
    · exact differ type
    · obtain ⟨c, mem⟩ := List.exists_mem_of_ne_nil _ constrained
      obtain ⟨a, found, -⟩ := (met c mem).1
      cases found
    · cases mem
  · intro either type attributes now
    apply (matchedAlike_iff sub testable matcher type attributes now).mpr
    rcases either with none | outside
    · refine .inr (.inl ?_)
      simp [none]
    · refine .inl ?_
      simp only [PubPkt.new]
      omega

end TRex
