import TRex.TimeSpan

/-!
# Queries on the graph of a rule

The predicates of a rule form a tree: each refers to an earlier one. `Path i j w` is the way along
these references from `i` to `j`, with the sum of its windows; what `getLeaves`,
`isInTheSameSequence`, `getWinBetween` and `getMaxWin` answer is said in terms of it
(`graph_queries`).
-/

namespace TRex.RulePkt

/-- The loop of `isInTheSameSequence`; `none` when the fuel runs out. -/
def sameSequenceLoop (pkt : RulePkt) (min : Int) : Nat → Int → Option Bool
  | 0, _ => none
  | fuel + 1, i =>
    if i > 0 then
      match pkt.predicates[i.toNat]? with
      | some p => if p.refersTo = min then some true else sameSequenceLoop pkt min fuel p.refersTo
      | none => none
    else some false

/-- `RulePkt::isInTheSameSequence`. -/
def isInTheSameSequence (pkt : RulePkt) (id1 id2 : Int) : Option Bool :=
  let numPred := pkt.predicates.length
  if id1 = id2 ∨ id1 < 0 ∨ id2 < 0 ∨ id1 ≥ numPred ∨ id2 ≥ numPred then some false
  else pkt.sameSequenceLoop (min id1 id2) (numPred + 1) (max id1 id2)

/-! ## The graph -/

/-- The index of a predicate. -/
def IsIndex (pkt : RulePkt) (i : Int) : Prop := 0 ≤ i ∧ i < (pkt.predicates.length : Int)

/-- The predicate `i` refers to `j`. -/
def Refers (pkt : RulePkt) (i j : Int) : Prop :=
  0 ≤ i ∧ ∃ p, pkt.predicates[i.toNat]? = some p ∧ p.refersTo = j

/-- From a predicate along the references to another, and the sum of the windows on the way. -/
inductive Path (pkt : RulePkt) : Int → Int → Nat → Prop
  | here {i : Int} : pkt.IsIndex i → Path pkt i i 0
  | up {i j : Int} {w : Nat} {p : Predicate} : 0 ≤ i → pkt.predicates[i.toNat]? = some p →
    Path pkt p.refersTo j w → Path pkt i j (w + p.win)

/-- The sums of windows from the predicates to the root. -/
def windowsToRoot (pkt : RulePkt) : Set Nat := {w | ∃ i, pkt.Path i 0 w}

variable {pkt : RulePkt}

theorem getElem?_of_isIndex {i : Int} (valid : pkt.IsIndex i) :
    ∃ p, pkt.predicates[i.toNat]? = some p := by
  have lt : i.toNat < pkt.predicates.length := by
    have bounds := valid.2
    have nonneg := valid.1
    omega
  exact ⟨_, List.getElem?_eq_getElem lt⟩

theorem isIndex_of_getElem? {i : Int} {p : Predicate} (nonneg : 0 ≤ i)
    (lookup : pkt.predicates[i.toNat]? = some p) : pkt.IsIndex i := by
  have lt := (List.getElem?_eq_some_iff.mp lookup).1
  exact ⟨nonneg, by omega⟩

/-- A path starts at a predicate. -/
theorem Path.isIndex {i j : Int} {w : Nat} (path : pkt.Path i j w) : pkt.IsIndex i := by
  cases path with
  | here valid => exact valid
  | up nonneg lookup rest => exact isIndex_of_getElem? nonneg lookup

section Back

variable (built : pkt.Built) (back : pkt.RefersBack)

include back

/-- The link of a predicate that is not the root, as `parent` and `win` have it. -/
theorem RefersBack.link {i : Int} {p : Predicate} (pos : 1 ≤ i)
    (lookup : pkt.predicates[i.toNat]? = some p) :
    pkt.IsIndex p.refersTo ∧ p.refersTo < i ∧ pkt.parent i.toNat = p.refersTo.toNat ∧
      pkt.win i.toNat = p.win := by
  have valid := isIndex_of_getElem? (by omega) lookup
  have earlier := back i.toNat p lookup (by omega)
  refine ⟨⟨earlier.1, ?_⟩, by omega, ?_, ?_⟩
  · have bound := valid.2
    omega
  · simp only [parent, lookup, Option.map_some, Option.getD_some]
  · simp only [win, lookup, Option.map_some, Option.getD_some]

theorem path_of_climb {i j w : Nat} (climb : pkt.Climb i j w) (lt : i < pkt.predicates.length) :
    pkt.Path i j w := by
  induction climb with
  | here i => exact .here ⟨by omega, by omega⟩
  | @up i j w earlier rest ih =>
    have lookup : pkt.predicates[(i : Int).toNat]? = some pkt.predicates[i] := by
      rw [Int.toNat_natCast, List.getElem?_eq_getElem lt]
    have link := back.link (show 1 ≤ (i : Int) by omega) lookup
    rw [Int.toNat_natCast] at link
    have step := ih (by omega)
    rw [link.2.2.1, Int.toNat_of_nonneg link.1.1] at step
    rw [link.2.2.2]
    exact .up (by omega) lookup step

include built

/-- The root refers to no predicate. -/
theorem climb_of_path {i j : Int} {w : Nat} (path : pkt.Path i j w) (valid : pkt.IsIndex j) :
    pkt.Climb i.toNat j.toNat w := by
  induction path with
  | here => exact .here _
  | @up i j w p nonneg lookup rest ih =>
    have target := rest.isIndex.1
    have pos : 1 ≤ i := by
      by_contra root
      have zero : i.toNat = 0 := by omega
      rw [zero] at lookup
      have refersTo := built.bounded.root p lookup
      omega
    have link := back.link pos lookup
    have step := ih valid
    rw [← link.2.2.1] at step
    rw [← link.2.2.2]
    exact .up (by omega) step

/-- Along a path the indices decrease. -/
theorem le_of_path {i j : Int} {w : Nat} (path : pkt.Path i j w) (valid : pkt.IsIndex j) :
    j ≤ i := by
  have le := (climb_of_path built back path valid).le
  have nonneg := path.isIndex.1
  omega

/-! ## The queries -/

/-- The loop ends, and with true exactly if it comes to the lower index. -/
theorem sameSequenceLoop_spec {min : Int} (valid : pkt.IsIndex min) {fuel : Nat} {i : Int}
    (index : pkt.IsIndex i) (enough : i.toNat < fuel) :
    ∃ found, pkt.sameSequenceLoop min fuel i = some found ∧
      (found = true ↔ i ≠ min ∧ ∃ w, pkt.Path i min w) := by
  induction fuel generalizing i with
  | zero => omega
  | succ fuel ih =>
    have nonneg := index.1
    unfold sameSequenceLoop
    split
    case isTrue pos =>
      rcases getElem?_of_isIndex index with ⟨p, lookup⟩
      have link := back.link (show 1 ≤ i by omega) lookup
      rw [lookup]
      simp only
      split
      case isTrue here =>
        have path : pkt.Path i min (0 + p.win) := .up nonneg lookup (here ▸ .here link.1)
        exact ⟨true, rfl, fun _ => ⟨by omega, _, path⟩, fun _ => rfl⟩
      case isFalse other =>
        rcases ih link.1 (by omega) with ⟨found, ends, meaning⟩
        refine ⟨found, ends, meaning.trans ?_⟩
        constructor
        · intro above
          rcases above with ⟨_, w, rest⟩
          have below := le_of_path built back rest valid
          exact ⟨by omega, w + p.win, .up nonneg lookup rest⟩
        · intro above
          rcases above with ⟨ne, w, path⟩
          refine ⟨other, ?_⟩
          cases path with
          | here => exact absurd rfl ne
          | up _ lookup' rest =>
            cases lookup.symm.trans lookup'
            exact ⟨_, rest⟩
    case isFalse root =>
      have arrived : ¬ (i ≠ min ∧ ∃ w, pkt.Path i min w) := by
        intro above
        rcases above with ⟨ne, w, path⟩
        have below := le_of_path built back path valid
        have lower := valid.1
        omega
      exact ⟨false, rfl, fun found => Bool.noConfusion found, fun above => absurd above arrived⟩

theorem isInTheSameSequence_spec (id1 id2 : Int) :
    ∃ found, pkt.isInTheSameSequence id1 id2 = some found ∧
      (found = true ↔ id1 ≠ id2 ∧ pkt.IsIndex id1 ∧ pkt.IsIndex id2 ∧
        ((∃ w, pkt.Path id1 id2 w) ∨ ∃ w, pkt.Path id2 id1 w)) := by
  dsimp only [isInTheSameSequence]
  split
  case isTrue refused =>
    refine ⟨false, rfl, fun found => Bool.noConfusion found, fun same => ?_⟩
    rcases same with ⟨ne, valid1, valid2, _⟩
    unfold IsIndex at valid1 valid2
    omega
  case isFalse accepted =>
    have valid1 : pkt.IsIndex id1 := ⟨by omega, by omega⟩
    have valid2 : pkt.IsIndex id2 := ⟨by omega, by omega⟩
    rcases Int.lt_or_gt_of_ne (show id1 ≠ id2 by omega) with lt | gt
    · rw [min_eq_left lt.le, max_eq_right lt.le]
      rcases sameSequenceLoop_spec built back valid1 valid2
        (show id2.toNat < pkt.predicates.length + 1 by omega) with ⟨found, ends, meaning⟩
      refine ⟨found, ends, meaning.trans ?_⟩
      constructor
      · intro above
        exact ⟨lt.ne, valid1, valid2, .inr above.2⟩
      · intro same
        rcases same with ⟨_, _, _, ⟨w, up⟩ | down⟩
        · exact absurd (le_of_path built back up valid2) (by omega)
        · exact ⟨lt.ne', down⟩
    · rw [min_eq_right gt.le, max_eq_left gt.le]
      rcases sameSequenceLoop_spec built back valid2 valid1
        (show id1.toNat < pkt.predicates.length + 1 by omega) with ⟨found, ends, meaning⟩
      refine ⟨found, ends, meaning.trans ?_⟩
      constructor
      · intro above
        exact ⟨gt.ne', valid1, valid2, .inl above.2⟩
      · intro same
        rcases same with ⟨_, _, _, up | ⟨w, down⟩⟩
        · exact ⟨gt.ne', up⟩
        · exact absurd (le_of_path built back down valid1) (by omega)

theorem getWinBetween_of_path {i j : Int} {w : Nat} (path : pkt.Path i j w)
    (valid : pkt.IsIndex j) : pkt.getWinBetween j i = some w := by
  have start := path.isIndex
  have lt : i.toNat < pkt.predicates.length := by
    have bound := start.2
    have nonneg := start.1
    omega
  have window := getWinBetween_eq back (climb_of_path built back path valid) lt
  rwa [Int.toNat_of_nonneg valid.1, Int.toNat_of_nonneg start.1] at window

/-- The largest sum from a leaf is the largest from any predicate. -/
theorem getMaxWin_isGreatest :
    ∃ m, pkt.getMaxWin = some m ∧
      if pkt.predicates = [] then m = 0 else IsGreatest pkt.windowsToRoot m := by
  rcases getMaxWin_spec built back with ⟨m, found, bounds, attained⟩
  refine ⟨m, found, ?_⟩
  split
  case isTrue empty =>
    rcases attained with zero | ⟨i, lt, _⟩
    · exact zero
    · rw [empty] at lt
      exact absurd lt (Nat.not_lt_zero i)
  case isFalse nonempty =>
    have root : pkt.IsIndex 0 := ⟨le_rfl, by
      have pos := List.length_pos_of_ne_nil nonempty
      omega⟩
    constructor
    · rcases attained with zero | ⟨i, lt, climb⟩
      · rw [zero]
        exact ⟨0, .here root⟩
      · exact ⟨i, path_of_climb back climb lt⟩
    · intro w sum
      rcases sum with ⟨i, path⟩
      have start := path.isIndex
      unfold IsIndex at start
      exact bounds i.toNat w (by omega) (climb_of_path built back path root)

end Back

theorem mem_getLeaves_iff {i : Int} :
    i ∈ pkt.getLeaves ↔ pkt.IsIndex i ∧ ∀ k, ¬ pkt.Refers k i := by
  rw [mem_getLeaves]
  apply and_congr_right
  intro _
  constructor
  · intro unreferenced k refers
    rcases refers with ⟨_, p, lookup, target⟩
    exact unreferenced p (List.mem_of_getElem? lookup) target
  · intro unreferenced p mem target
    rcases List.getElem?_of_mem mem with ⟨k, lookup⟩
    exact unreferenced k ⟨by omega, p, by rwa [Int.toNat_natCast], target⟩

/-- The queries answer what they are asked about the graph of a rule whose predicates refer to
earlier ones. -/
theorem graph_queries (pkt : RulePkt) (built : pkt.Built) (back : pkt.RefersBack) :
    (∀ i, i ∈ pkt.getLeaves ↔ pkt.IsIndex i ∧ ∀ k, ¬ pkt.Refers k i) ∧
    (∀ id1 id2, ∃ found, pkt.isInTheSameSequence id1 id2 = some found ∧
      (found = true ↔ id1 ≠ id2 ∧ pkt.IsIndex id1 ∧ pkt.IsIndex id2 ∧
        ((∃ w, pkt.Path id1 id2 w) ∨ ∃ w, pkt.Path id2 id1 w))) ∧
    (∀ lowerId upperId w, pkt.IsIndex lowerId → pkt.Path upperId lowerId w →
      pkt.getWinBetween lowerId upperId = some w) ∧
    ∃ m, pkt.getMaxWin = some m ∧
      if pkt.predicates = [] then m = 0 else IsGreatest pkt.windowsToRoot m :=
  ⟨fun _ => mem_getLeaves_iff, isInTheSameSequence_spec built back,
    fun _ _ _ valid path => getWinBetween_of_path built back path valid,
    getMaxWin_isGreatest built back⟩

theorem fireRule_queries :
    (∀ i, i ∈ fireRule.getLeaves ↔ fireRule.IsIndex i ∧ ∀ k, ¬ fireRule.Refers k i) ∧
    (∀ id1 id2, ∃ found, fireRule.isInTheSameSequence id1 id2 = some found ∧
      (found = true ↔ id1 ≠ id2 ∧ fireRule.IsIndex id1 ∧ fireRule.IsIndex id2 ∧
        ((∃ w, fireRule.Path id1 id2 w) ∨ ∃ w, fireRule.Path id2 id1 w))) ∧
    (∀ lowerId upperId w, fireRule.IsIndex lowerId → fireRule.Path upperId lowerId w →
      fireRule.getWinBetween lowerId upperId = some w) ∧
    ∃ m, fireRule.getMaxWin = some m ∧
      if fireRule.predicates = [] then m = 0 else IsGreatest fireRule.windowsToRoot m :=
  graph_queries fireRule fireRule_built fireRule_refersBack

end TRex.RulePkt
