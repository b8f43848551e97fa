import TRex.Lib.Links
import TRex.Lib.OrdMap
import TRex.PartialResults

/-!
# The time span of a result

`RulePkt::getWinBetween` adds up the windows on the references from a state to an earlier one, and
`RulePkt::getMaxWin` takes the largest sum that leads from a leaf to the root. The search looks for
the packet of a state strictly inside the window before the packet of the state it refers to, so a
result spans less than these sums (`getPartialResults_span`).
-/

namespace TRex

namespace RulePkt

/-! ## Leaves -/

def ltInt (i j : Int) : Bool := decide (i < j)

/-- `RulePkt::getReferenceCount`. The operator `[]` of the map makes an entry of 0 for a key that is
missing, so the root's -1 is counted as well. -/
def getReferenceCount (pkt : RulePkt) : List (Int × Nat) :=
  let start := (List.range pkt.predicates.length).foldl
    (fun count (i : Nat) => OrdMap.put ltInt i 0 count) []
  pkt.predicates.foldl (fun count p =>
    OrdMap.put ltInt p.refersTo ((OrdMap.find? ltInt p.refersTo count).getD 0 + 1) count) start

/-- `RulePkt::getLeaves`. -/
def getLeaves (pkt : RulePkt) : List Int :=
  (pkt.getReferenceCount.filter fun it => it.2 = 0).map Prod.fst

/-- `RulePkt::getMaxWin`; `none` when the loop of `getWinBetween` does not end at the root. -/
def getMaxWin (pkt : RulePkt) : Option Nat :=
  pkt.getLeaves.foldlM (fun returnTime leaf => (pkt.getWinBetween 0 leaf).map fun currentTime =>
    if currentTime > returnTime then currentTime else returnTime) 0

theorem ltInt_law (i j : Int) : ltInt i j = true ↔ i < j := by simp [ltInt]

/-- Counting references keeps the map in order and leaves an entry at 0 if no reference is to its
key. -/
theorem find?_countReferences (ps : List Predicate) {count : List (Int × Nat)}
    (sorted : OrdMap.Sorted count) (i : Int) :
    let counted := ps.foldl (fun count p =>
      OrdMap.put ltInt p.refersTo ((OrdMap.find? ltInt p.refersTo count).getD 0 + 1) count) count
    OrdMap.Sorted counted ∧ (OrdMap.find? ltInt i counted = some 0 ↔
      OrdMap.find? ltInt i count = some 0 ∧ ∀ p ∈ ps, p.refersTo ≠ i) := by
  induction ps generalizing count with
  | nil => exact ⟨sorted, by simp⟩
  | cons p rest ih =>
      obtain ⟨sorted', counted⟩ := ih (OrdMap.sorted_put ltInt_law sorted)
      refine ⟨sorted', ?_⟩
      rw [List.foldl_cons, counted, OrdMap.find?_put ltInt_law, List.forall_mem_cons]
      by_cases here : i = p.refersTo
      · simp [here]
      · have other : p.refersTo ≠ i := fun same => here same.symm
        simp [here, other]

theorem find?_zeros (n : Nat) (i : Int) :
    let zeros := (List.range n).foldl (fun count (i : Nat) => OrdMap.put ltInt (i : Int) 0 count) []
    OrdMap.Sorted zeros ∧
      (OrdMap.find? ltInt i zeros = some 0 ↔ 0 ≤ i ∧ i < (n : Int)) := by
  induction n with
  | zero =>
      refine ⟨OrdMap.Sorted.nil, ?_⟩
      simp only [List.range_zero, List.foldl_nil, OrdMap.find?, List.find?_nil, Option.map_none]
      constructor
      · intro absurd
        cases absurd
      · omega
  | succ n ih =>
      obtain ⟨sorted, found⟩ := ih
      simp only [List.range_succ, List.foldl_append, List.foldl_cons, List.foldl_nil]
      refine ⟨OrdMap.sorted_put ltInt_law sorted, ?_⟩
      rw [OrdMap.find?_put ltInt_law]
      by_cases last : i = (n : Int)
      · rw [if_pos last]
        simp only [true_iff]
        omega
      · rw [if_neg last, found]
        omega

/-- The leaves are the states that no predicate refers to. -/
theorem mem_getLeaves {pkt : RulePkt} {i : Int} :
    i ∈ pkt.getLeaves ↔
      (0 ≤ i ∧ i < (pkt.predicates.length : Int)) ∧ ∀ p ∈ pkt.predicates, p.refersTo ≠ i := by
  obtain ⟨sorted, zeros⟩ := find?_zeros pkt.predicates.length i
  obtain ⟨sorted', counted⟩ := find?_countReferences pkt.predicates sorted i
  rw [← zeros, ← counted, OrdMap.find?_eq_some ltInt_law sorted']
  simp only [getLeaves, getReferenceCount, List.mem_map, List.mem_filter, decide_eq_true_eq,
    Prod.exists, exists_and_right, exists_eq_right]

/-! ## Sums of windows -/

/-- The state that a state refers to. -/
def parent (pkt : RulePkt) (i : Nat) : Nat :=
  (((pkt.predicates[i]?).map Predicate.refersTo).getD 0).toNat

def win (pkt : RulePkt) (i : Nat) : Nat := ((pkt.predicates[i]?).map Predicate.win).getD 0

/-- Up the references from a state to an earlier one, and the sum of their windows. -/
abbrev Climb (pkt : RulePkt) : Nat → Nat → Nat → Prop := Links.Climb pkt.parent pkt.win

section Windows

variable {pkt : RulePkt} (back : pkt.RefersBack)

include back

theorem RefersBack.parent_lt {i : Nat} (pos : 1 ≤ i) (lt : i < pkt.predicates.length) :
    pkt.parent i < i := by
  have lookup := List.getElem?_eq_getElem lt
  have earlier := back i _ lookup pos
  simp only [parent, lookup, Option.map_some, Option.getD_some]
  omega

theorem winBetweenLoop_eq {i j w : Nat} (climb : pkt.Climb i j w)
    (lt : i < pkt.predicates.length) {fuel : Nat} (enough : i < fuel) (timeBetween : Nat) :
    pkt.winBetweenLoop j fuel i timeBetween = some (timeBetween + w) := by
  induction climb generalizing fuel timeBetween with
  | here i =>
      obtain ⟨fuel, rfl⟩ : ∃ n, fuel = n + 1 := ⟨fuel - 1, by omega⟩
      rw [winBetweenLoop, if_pos rfl, Nat.add_zero]
  | @up i j w earlier rest ih =>
      obtain ⟨fuel, rfl⟩ : ∃ n, fuel = n + 1 := ⟨fuel - 1, by omega⟩
      have below := rest.le
      have lookup := List.getElem?_eq_getElem lt
      have link : ((pkt.parent i : Nat) : Int) = pkt.predicates[i].refersTo := by
        have nonneg := (back i _ lookup (by omega)).1
        simp only [parent, lookup, Option.map_some, Option.getD_some]
        omega
      have window : pkt.win i = pkt.predicates[i].win := by
        simp only [win, lookup, Option.map_some, Option.getD_some]
      have step := ih (by omega) (show pkt.parent i < fuel by omega)
        (timeBetween + pkt.predicates[i].win)
      rw [link] at step
      rw [winBetweenLoop, if_neg (by omega), Int.toNat_natCast, lookup]
      simp only [step, window]
      congr 1
      omega

theorem getWinBetween_eq {i j w : Nat} (climb : pkt.Climb i j w)
    (lt : i < pkt.predicates.length) : pkt.getWinBetween j i = some w := by
  rw [getWinBetween, winBetweenLoop_eq back climb lt (by omega), Nat.zero_add]

end Windows

/-- The loop of `getMaxWin` ends with an upper bound of all it looks at, which is one of them or the
start. -/
theorem foldlM_max (window : Int → Option Nat) (leaves : List Int)
    (defined : ∀ leaf ∈ leaves, ∃ w, window leaf = some w) (start : Nat) :
    ∃ m, leaves.foldlM (fun returnTime leaf => (window leaf).map fun currentTime =>
        if currentTime > returnTime then currentTime else returnTime) start = some m ∧
      start ≤ m ∧ (∀ leaf ∈ leaves, ∀ w, window leaf = some w → w ≤ m) ∧
      (m = start ∨ ∃ leaf ∈ leaves, window leaf = some m) := by
  induction leaves generalizing start with
  | nil => exact ⟨start, rfl, le_rfl, by simp, .inl rfl⟩
  | cons leaf rest ih =>
      obtain ⟨w, isW⟩ := defined leaf List.mem_cons_self
      obtain ⟨m, found, le, bounds, attained⟩ :=
        ih (fun l mem => defined l (List.mem_cons_of_mem leaf mem)) (if w > start then w else start)
      have both : start ≤ m ∧ w ≤ m := by
        split at le <;> omega
      refine ⟨m, ?_, both.1, fun l mem v isV => ?_, ?_⟩
      · rw [List.foldlM_cons, isW]
        exact found
      · rcases List.mem_cons.mp mem with rfl | later
        · cases isW.symm.trans isV
          exact both.2
        · exact bounds l later v isV
      · rcases attained with same | ⟨l, later, isM⟩
        · split at same
          case isTrue => exact .inr ⟨leaf, List.mem_cons_self, same ▸ isW⟩
          case isFalse => exact .inl same
        · exact .inr ⟨l, List.mem_cons_of_mem leaf later, isM⟩

/-- `getMaxWin` bounds the sum of windows from every state to the root; it is one of the sums, or
0. -/
theorem getMaxWin_spec {pkt : RulePkt} (built : pkt.Built) (back : pkt.RefersBack) :
    ∃ m, pkt.getMaxWin = some m ∧
      (∀ i w, i < pkt.predicates.length → pkt.Climb i 0 w → w ≤ m) ∧
      (m = 0 ∨ ∃ i, i < pkt.predicates.length ∧ pkt.Climb i 0 m) := by
  have linked : ∀ i, 1 ≤ i → i < pkt.predicates.length → pkt.parent i < i :=
    fun i pos lt => back.parent_lt pos lt
  have toRoot : ∀ i, i < pkt.predicates.length → ∃ w, pkt.Climb i 0 w :=
    fun i lt => Links.exists_climb_root linked lt
  have toRootOf : ∀ leaf ∈ pkt.getLeaves, ∃ w, leaf.toNat < pkt.predicates.length ∧
      pkt.Climb leaf.toNat 0 w ∧ pkt.getWinBetween 0 leaf = some w := by
    intro leaf mem
    obtain ⟨⟨nonneg, lt⟩, -⟩ := mem_getLeaves.mp mem
    obtain ⟨w, climb⟩ := toRoot leaf.toNat (by omega)
    have window := getWinBetween_eq back climb (by omega)
    rw [Int.toNat_of_nonneg nonneg] at window
    exact ⟨w, by omega, climb, window⟩
  have defined : ∀ leaf ∈ pkt.getLeaves, ∃ w, pkt.getWinBetween 0 leaf = some w := by
    intro leaf mem
    obtain ⟨w, -, -, window⟩ := toRootOf leaf mem
    exact ⟨w, window⟩
  obtain ⟨m, found, -, bounds, attained⟩ :=
    foldlM_max (pkt.getWinBetween 0) pkt.getLeaves defined 0
  have oneOf : m = 0 ∨ ∃ i, i < pkt.predicates.length ∧ pkt.Climb i 0 m := by
    rcases attained with zero | ⟨leaf, mem, isM⟩
    · exact .inl zero
    · obtain ⟨w, lt, climb, window⟩ := toRootOf leaf mem
      cases window.symm.trans isM
      exact .inr ⟨leaf.toNat, lt, climb⟩
  refine ⟨m, found, fun i w lt climb => ?_, oneOf⟩
  -- some leaf climbs to the state, and from there to the root
  obtain ⟨leaf, ltLeaf, isLeaf, v, below⟩ : ∃ leaf, leaf < pkt.predicates.length ∧
      (∀ k, 1 ≤ k → k < pkt.predicates.length → pkt.parent k ≠ leaf) ∧
        ∃ v, pkt.Climb leaf i v :=
    Links.exists_climb_leaf linked lt
  have inLeaves : (leaf : Int) ∈ pkt.getLeaves := by
    refine mem_getLeaves.mpr ⟨⟨by omega, by omega⟩, fun p mem same => ?_⟩
    obtain ⟨k, ltK, rfl⟩ := List.getElem_of_mem mem
    have lookup := List.getElem?_eq_getElem ltK
    rcases Nat.eq_zero_or_pos k with rfl | pos
    · have root := built.bounded.root _ lookup
      omega
    · refine isLeaf k pos ltK ?_
      simp only [parent, lookup, Option.map_some, Option.getD_some, same, Int.toNat_natCast]
  have whole := getWinBetween_eq back (below.trans climb) ltLeaf
  have le := bounds leaf inLeaves _ whole
  omega

end RulePkt

/-! ## The span of a result -/

section Span

variable {pkt : RulePkt} {st : Stacks} {t : PubPktPtr} {pe : PartialEvent}

/-- The packet of a state lies inside the window before the packet of the state it refers to. -/
theorem window_of_mem {k i : Nat} (back : pkt.RefersBack)
    (mem : pe ∈ (StacksRule.new pkt).partials st t k) (pos : 1 ≤ i) (le : i ≤ k)
    (lt : i < pkt.predicates.length) :
    pe.timeOf i < pe.timeOf (pkt.parent i) ∧
      pe.timeOf (pkt.parent i) < pe.timeOf i + pkt.win i := by
  obtain ⟨j, rfl⟩ : ∃ j, i = j + 1 := ⟨i - 1, by omega⟩
  obtain ⟨front, -, e, candidate, agree⟩ := StacksRule.exists_extension_of_mem mem le
  obtain ⟨-, window, -⟩ := StacksRule.mem_candidates candidate
  have lookup := List.getElem?_eq_getElem lt
  have earlier := back.parent_lt pos lt
  have nonneg := (back _ _ lookup pos).1
  have reference : (StacksRule.new pkt).referenceState (j + 1) = (pkt.parent (j + 1) : Nat) := by
    rw [StacksRule.new_referenceState lookup nonneg]
    simp only [RulePkt.parent, lookup, Option.map_some, Option.getD_some]
    omega
  have width : (StacksRule.new pkt).getWindow (j + 1) = pkt.win (j + 1) := by
    rw [StacksRule.new_getWindow lookup]
    simp only [RulePkt.win, lookup, Option.map_some, Option.getD_some]
  have upper : front.timeOf (pkt.parent (j + 1) : Nat) = pe.timeOf (pkt.parent (j + 1) : Nat) := by
    have same := agree (pkt.parent (j + 1)) (by omega)
    rw [PartialEvent.set_of_ne _ _ (by omega)] at same
    simp only [PartialEvent.timeOf, Int.toNat_natCast, same]
  have here : pe.timeOf ((j + 1 : Nat) : Int) = e.getTimeStamp := by
    apply PartialEvent.timeOf_of_some
    rw [Int.toNat_natCast, ← agree (j + 1) (by omega), PartialEvent.set_self]
  rw [reference, width, upper] at window
  rw [here]
  omega

/-- Every partial result spans less than the sum of the windows from each state to the root, and
hence less than the largest such sum. -/
theorem getPartialResults_span (pkt : RulePkt) (st : Stacks) (terminator : PubPktPtr)
    (built : pkt.Built) (back : pkt.RefersBack) (states : ∀ i, (st.states i).Inv)
    (pe : PartialEvent) (mem : pe ∈ (StacksRule.new pkt).getPartialResults st terminator)
    (i : Nat) (pos : 1 ≤ i) (lt : i < pkt.predicates.length) :
    ∃ e₀ e w m, pe.indexes 0 = some e₀ ∧ pe.indexes i = some e ∧
      pkt.getWinBetween 0 i = some w ∧ pkt.getMaxWin = some m ∧
      0 < e₀.getTimeStamp - e.getTimeStamp ∧ e₀.getTimeStamp - e.getTimeStamp < w ∧
      e₀.getTimeStamp - e.getTimeStamp < m := by
  have alive := StacksRule.mem_partials_of_mem_getPartialResults states mem
  rw [StacksRule.new_stacksNum] at alive
  have root := StacksRule.indexes_zero_of_mem alive
  obtain ⟨e, assigned⟩ := StacksRule.assigned_of_mem alive (show i ≤ _ by omega)
  obtain ⟨w, climb⟩ : ∃ w, pkt.Climb i 0 w :=
    Links.exists_climb_root (fun k pos lt => back.parent_lt pos lt) lt
  obtain ⟨m, maxWin, bounds, -⟩ := RulePkt.getMaxWin_spec built back
  let time : Nat → Nat := fun k => pe.timeOf k
  have rises : ∀ k, 0 < k → k ≤ i →
      time k < time (pkt.parent k) ∧ time (pkt.parent k) < time k + pkt.win k :=
    fun k after le => window_of_mem back alive (by omega) (by omega) (by omega)
  have rise := climb.rise rises (by omega)
  have le := bounds i w lt climb
  have timeRoot : time 0 = terminator.getTimeStamp := PartialEvent.timeOf_of_some root
  have timeHere : time i = e.getTimeStamp :=
    PartialEvent.timeOf_of_some (by rw [Int.toNat_natCast]; exact assigned)
  rw [timeRoot, timeHere] at rise
  exact ⟨terminator, e, w, m, root, assigned, RulePkt.getWinBetween_eq back climb lt, maxWin,
    by omega, by omega, by omega⟩

end Span

/-- One temperature, 40 before the smoke. -/
theorem fireRule_span :
    ∃ e₀ e w m, (PartialEvent.empty.set 0 (reading 4 1 100) |>.set 1 (reading 1 2 60)).indexes 0 =
        some e₀ ∧
      (PartialEvent.empty.set 0 (reading 4 1 100) |>.set 1 (reading 1 2 60)).indexes 1 = some e ∧
      RulePkt.fireRule.getWinBetween 0 1 = some w ∧ RulePkt.fireRule.getMaxWin = some m ∧
      0 < e₀.getTimeStamp - e.getTimeStamp ∧ e₀.getTimeStamp - e.getTimeStamp < w ∧
      e₀.getTimeStamp - e.getTimeStamp < m := by
  let st := Stacks.initial.addToStack (reading 1 2 60) 1
  have inv : st.Inv := Stacks.inv_initial.addToStack _ le_rfl
  have found : (StacksRule.new RulePkt.fireRule).getPartialResults st (reading 4 1 100) =
      [PartialEvent.empty.set 0 (reading 4 1 100) |>.set 1 (reading 1 2 60)] := rfl
  exact getPartialResults_span RulePkt.fireRule st (reading 4 1 100) RulePkt.fireRule_built
    RulePkt.fireRule_refersBack inv.states _ (found ▸ List.mem_singleton_self _) 1 le_rfl
    (by decide)

end TRex
