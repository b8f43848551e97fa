import TRex.Placements

/-!
# The order of a result set

The packets generated by one call of `processPubPkt` are kept in a set of pointers and fed back in
the order of their addresses. All of them have the same timestamp, so this order can decide which
packet a consuming rule combines with which, and which packets are left out when the recursion
budget is spent. `deliveredAlike_of_commute` says when the packets handed to the listeners do not
depend on it: when neighbours in a result set commute. Two packets stored one after the other take
each other's address when they come in the other order, so stacks are compared up to the addresses
of their packets.
-/

namespace TRex

open Feedback

/-- The same stacks up to a permutation of the packets' addresses, and the same packets handed out,
in any order. -/
structure SameContents (c c' : Contents) : Prop where
  moved : ∃ f : Equiv.Perm Nat, c'.stacks = fun id => (c.stacks id).move f
  delivered : c.delivered.Perm c'.delivered

theorem Stacks.move_move (st : Stacks) (f g : Equiv.Perm Nat) :
    (st.move f).move g = st.move (g * f : Equiv.Perm Nat) := by
  simp only [Stacks.move, Column.move, List.map_map]
  rfl

theorem Stacks.move_one (st : Stacks) : st.move (1 : Equiv.Perm Nat) = st := by
  have same : PubPktPtr.move (1 : Equiv.Perm Nat) = id := rfl
  simp only [Stacks.move, Column.move, same, List.map_id]

theorem sameContents_equivalence : Equivalence SameContents where
  refl c := ⟨⟨1, funext fun id => (Stacks.move_one (c.stacks id)).symm⟩, List.Perm.refl _⟩
  symm := by
    rintro c c' ⟨⟨f, moved⟩, delivered⟩
    refine ⟨⟨f⁻¹, ?_⟩, delivered.symm⟩
    rw [moved]
    funext id
    rw [Stacks.move_move, inv_mul_cancel, Stacks.move_one]
  trans := by
    rintro c c' c'' ⟨⟨f, moved⟩, delivered⟩ ⟨⟨g, moved'⟩, delivered'⟩
    refine ⟨⟨g * f, ?_⟩, delivered.trans delivered'⟩
    rw [moved', moved]
    funext id
    exact Stacks.move_move _ f g

section Reactions

variable {alloc : Nat → Nat} {place : Placement} {order order' : SetOrder} {numProc : Nat}
  {rules : List RulePkt} {c c' : Contents}

open TRexEngine (installAll)

/-- Two orders, and contents that are the same up to order, give the same results up to order. -/
theorem evaluate_sameContents (ids : (rules.map RulePkt.ruleId).Nodup)
    (fits : (installAll alloc numProc rules).Fits c.stacks) (same : SameContents c c')
    (pkt : PubPkt) :
    SameContents ((installAll alloc numProc rules).evaluate place order c pkt).1
        ((installAll alloc numProc rules).evaluate place order' c' pkt).1 ∧
      ((installAll alloc numProc rules).evaluate place order c pkt).2.Perm
        ((installAll alloc numProc rules).evaluate place order' c' pkt).2 := by
  obtain ⟨g, generated, moved, here, there⟩ := @exists_move_evaluate alloc numProc rules c c' ids
    fits same.moved place place order order' pkt
  have results : ((installAll alloc numProc rules).evaluate place order c pkt).2.Perm
      ((installAll alloc numProc rules).evaluate place order' c' pkt).2 := by
    rw [here, there]
    exact (order.perm _ _).trans (order'.perm _ _).symm
  refine ⟨⟨⟨g, moved⟩, ?_⟩, results⟩
  rw [delivered_evaluate, delivered_evaluate]
  exact same.delivered.append results

theorem keeps_feedback (ids : (rules.map RulePkt.ruleId).Nodup) :
    Keeps (fun c => (installAll alloc numProc rules).Fits c.stacks)
      ((installAll alloc numProc rules).feedback place order) :=
  fun _ x fits => fits_evaluate ids fits place x.copy

theorem respects_feedback (ids : (rules.map RulePkt.ruleId).Nodup) :
    Respects (fun c => (installAll alloc numProc rules).Fits c.stacks) SameContents
      ((installAll alloc numProc rules).feedback place order) := by
  intro c c' x fits same
  refine ⟨(evaluate_sameContents ids fits same x.copy).1, ?_⟩
  obtain ⟨-, generated, -, here, there⟩ := @exists_move_evaluate alloc numProc rules c c' ids
    fits same.moved place place order order x.copy
  exact here.trans (same.delivered.length_eq ▸ there.symm)

theorem rearranges_feedback (ids : (rules.map RulePkt.ruleId).Nodup) :
    Rearranges (fun c => (installAll alloc numProc rules).Fits c.stacks) SameContents
      ((installAll alloc numProc rules).feedback place order)
      ((installAll alloc numProc rules).feedback place order') :=
  fun _ _ x fits same => evaluate_sameContents ids fits same x.copy

end Reactions

namespace RecursiveEngine

variable (alloc : Nat → Nat) (place : Placement) (order : SetOrder) (numProc : Nat)

/-- For two orders of the result sets, a sequence of operations hands out the same packets. -/
def DeliveredAlike (order' : SetOrder) (ops : List Operation) : Prop :=
  ∃ e e', run alloc place order (.finalize numProc) ops = some e ∧
    run alloc place order' (.finalize numProc) ops = some e' ∧
    e.contents.delivered.Perm e'.contents.delivered

/-- Whatever is published, two packets of the same result set that are fed back one after the other
have the same effect in either order, each with all that follows from it: they leave the same
stacks, up to the addresses of the packets, hand out the same packets and use up the same part of
the budget. -/
def SiblingsCommute (ops : List Operation) : Prop :=
  ∀ before pkt after, ops = before ++ .processPubPkt pkt :: after →
    ∀ e, run alloc place order (.finalize numProc) before = some e →
      Commutes SameContents (e.feedback place order) e.feedsBack maxRecursionDepth 1
        ⟨(e.evaluate place order e.contents pkt).1, 0, []⟩
        (e.evaluate place order e.contents pkt).2

variable {alloc place order numProc} {order' : SetOrder} {e e' : RecursiveEngine}
  {ops : List Operation}

theorem siblingsCommute_rules (rules : List RulePkt) :
    SiblingsCommute alloc place order numProc (rules.map .processRulePkt) := by
  intro before pkt after split
  have mem : Operation.processPubPkt pkt ∈ rules.map .processRulePkt := by simp [split]
  simp at mem

theorem SiblingsCommute.concat (commute : SiblingsCommute alloc place order numProc ops)
    {pkt : PubPkt} (last : ∀ e, run alloc place order (.finalize numProc) ops = some e →
      Commutes SameContents (e.feedback place order) e.feedsBack maxRecursionDepth 1
        ⟨(e.evaluate place order e.contents pkt).1, 0, []⟩
        (e.evaluate place order e.contents pkt).2) :
    SiblingsCommute alloc place order numProc (ops ++ [.processPubPkt pkt]) := by
  intro before now after split
  rcases List.eq_nil_or_concat after with rfl | ⟨earlier, op, rfl⟩
  · obtain ⟨rfl, same⟩ := List.append_inj' split rfl
    cases same
    exact last
  · rw [List.concat_eq_append, ← List.cons_append, ← List.append_assoc] at split
    obtain ⟨split, -⟩ := List.append_inj' split rfl
    exact commute before now earlier split

theorem fits_run (ids : ((rulesOf ops).map RulePkt.ruleId).Nodup)
    (reached : run alloc place order (.finalize numProc) ops = some e) :
    e.toTRexEngine.Fits e.contents.stacks :=
  (renamed_run ids reached reached).1.fits

/-- One publication, under two orders. -/
theorem sameContents_walkOf {rules : List RulePkt} (ids : (rules.map RulePkt.ruleId).Nodup)
    (engine : e.toTRexEngine = TRexEngine.installAll alloc numProc rules)
    (engine' : e'.toTRexEngine = TRexEngine.installAll alloc numProc rules)
    (flag : e.feedsBack = e'.feedsBack) (fits : e.toTRexEngine.Fits e.contents.stacks)
    (same : SameContents e.contents e'.contents) {pkt : PubPkt}
    (commutes : Commutes SameContents (e.feedback place order) e.feedsBack maxRecursionDepth 1
      ⟨(e.evaluate place order e.contents pkt).1, 0, []⟩
      (e.evaluate place order e.contents pkt).2) :
    SameContents (walkOf place order e pkt).state (walkOf place order' e' pkt).state := by
  rw [engine] at fits commutes
  obtain ⟨contents, results⟩ :=
    @evaluate_sameContents alloc place order order' numProc rules _ _ ids fits same pkt
  rw [walkOf_eq, walkOf_eq, engine, engine', ← flag]
  have first : Same SameContents (⟨_, 0, []⟩ : Walk Contents PubPkt) ⟨_, 0, []⟩ := ⟨contents, rfl⟩
  exact (commutes.walk_same sameContents_equivalence (keeps_feedback ids) (respects_feedback ids)
    (rearranges_feedback ids) results (fits_evaluate ids fits place pkt) first).state

theorem sameContents_run (ids : ((rulesOf ops).map RulePkt.ruleId).Nodup)
    (commute : SiblingsCommute alloc place order numProc ops)
    (reached : run alloc place order (.finalize numProc) ops = some e)
    (reached' : run alloc place order' (.finalize numProc) ops = some e') :
    SameContents e.contents e'.contents := by
  induction ops using List.reverseRecOn generalizing e e' with
  | nil =>
      cases reached
      cases reached'
      exact sameContents_equivalence.refl _
  | append_singleton ops op ih =>
      obtain ⟨mid, before, now⟩ := run_concat alloc place order reached
      obtain ⟨mid', before', now'⟩ := run_concat alloc place order' reached'
      have idsBefore : ((rulesOf ops).map RulePkt.ruleId).Nodup := by
        rw [rulesOf_append, List.map_append] at ids
        exact (List.nodup_append.mp ids).1
      have commuteBefore : SiblingsCommute alloc place order numProc ops := by
        rintro earlier pkt later rfl
        exact commute earlier pkt (later ++ [op]) (by simp)
      have same : SameContents mid.contents mid'.contents :=
        ih idsBefore commuteBefore before before'
      cases op with
      | processRulePkt pkt =>
          cases now
          cases now'
          rwa [contents_processRulePkt, contents_processRulePkt]
      | processPubPkt pkt =>
          rw [step_processPubPkt] at now now'
          cases now
          cases now'
          have flag : mid.feedsBack = mid'.feedsBack := by
            funext count
            rw [Bool.eq_iff_iff, feedsBack_run before, feedsBack_run before']
          exact sameContents_walkOf idsBefore (toTRexEngine_run rfl before)
            (toTRexEngine_run rfl before') flag (fits_run idsBefore before) same
            (commute ops pkt [] rfl mid before)

end RecursiveEngine

open RecursiveEngine (DeliveredAlike SiblingsCommute rulesOf)

/-- A rule that marks its composite events with the number of a sensor. -/
def sensorRule (ruleId : Nat) (sensor : Int) : RulePkt :=
  { singleRule ruleId 1 2 with ceTemplate := some ⟨2, [], [⟨['x'], .int sensor⟩]⟩ }

/-- A report with a temperature not used before. -/
def reportRule (ruleId : Nat) : RulePkt :=
  { singleRule ruleId 2 3 with
    predicates := [
      { eventType := 2, constraints := [], refersTo := -1, win := 0, kind := .eachWithin },
      { eventType := 5, constraints := [], refersTo := 0, win := 100, kind := .eachWithin }]
    consuming := [1]
    ceTemplate := some ⟨3, [(['x'], .leaf (.rulePkt 0 .state (some ['x'])) .int)], []⟩ }

def twoSensors : List RecursiveEngine.Operation :=
  [.processRulePkt (sensorRule 0 1), .processRulePkt (sensorRule 1 2),
    .processRulePkt (reportRule 2), .processPubPkt (PubPkt.new 5 [] 1),
    .processPubPkt (PubPkt.new 1 [] 10)]

/-- A rule for a packet that comes within a window before another. -/
def withinRule (ruleId : Nat) (input kept output : Int) : RulePkt :=
  { singleRule ruleId input output with
    predicates := [
      { eventType := input, constraints := [], refersTo := -1, win := 0, kind := .eachWithin },
      { eventType := kept, constraints := [], refersTo := 0, win := 100, kind := .eachWithin }] }

def reportRules : List RulePkt :=
  [singleRule 0 1 2, singleRule 1 1 4, withinRule 2 3 2 6, withinRule 3 3 4 7]

def beforeReports : List RecursiveEngine.Operation :=
  reportRules.map .processRulePkt ++ [.processPubPkt (PubPkt.new 1 [] 10)]

def twoReports : List RecursiveEngine.Operation :=
  beforeReports ++ [.processPubPkt (PubPkt.new 3 [] 20)]

/-- What the engine does before it feeds back the results of a packet. -/
def evaluated (e : RecursiveEngine) (pkt : PubPkt) : Walk Contents PubPkt :=
  ⟨(e.evaluate .above .asGenerated e.contents pkt).1, 0, []⟩

def fedBack (e : RecursiveEngine) (pkt : PubPkt) (results : List PubPkt) : Walk Contents PubPkt :=
  walk (e.feedback .above .asGenerated) e.feedsBack maxRecursionDepth 1 (evaluated e pkt) results

/-- Two results commute if they cause nothing and the stacks that they leave in the two orders
differ by a permutation of the addresses. -/
theorem pair_commutes {ops : List RecursiveEngine.Operation} {e : RecursiveEngine}
    {pkt x y : PubPkt} (ids : ((rulesOf ops).map RulePkt.ruleId).Nodup)
    (reached : RecursiveEngine.run id .above .asGenerated (.finalize 1) ops = some e)
    (silent : ∀ before ∈ [[], [x], [y]], ∀ z ∈ [x, y],
      ((e.feedback .above .asGenerated).react (fedBack e pkt before).state z).2 = [])
    (f : Equiv.Perm Nat) (agree : ∀ r ∈ e.stacksRules, ∀ type, ∀ i < r.2.columnsNum type,
      ((fedBack e pkt [y, x]).state.stacks r.1).columns type i =
        (((fedBack e pkt [x, y]).state.stacks r.1).move f).columns type i)
    (delivered : (fedBack e pkt [x, y]).state.delivered.Perm (fedBack e pkt [y, x]).state.delivered)
    (count : (fedBack e pkt [x, y]).count = (fedBack e pkt [y, x]).count) :
    Commutes SameContents (e.feedback .above .asGenerated) e.feedsBack maxRecursionDepth 1
      (evaluated e pkt) [x, y] := by
  have engine := RecursiveEngine.toTRexEngine_run rfl reached
  have fits := RecursiveEngine.fits_run ids reached
  have sorted := (@TRexEngine.holds_installAll id 1 (rulesOf ops) ids).sorted
  have keeps := @keeps_feedback id .above .asGenerated 1 (rulesOf ops) ids
  have start : e.toTRexEngine.Fits (evaluated e pkt).state.stacks := by
    rw [engine] at fits
    unfold evaluated
    rw [engine]
    exact fits_evaluate ids fits .above pkt
  rw [← engine] at sorted keeps
  have fedBackFits : ∀ results, e.toTRexEngine.Fits (fedBack e pkt results).state.stacks :=
    fun results => keeps.walk start results
  refine commutes_pair sameContents_equivalence ?_ silent
  have moved := (fedBackFits [y, x]).ext sorted ((fedBackFits [x, y]).move f) agree
  exact ⟨⟨⟨f, moved⟩, delivered⟩, count⟩

def afterRules : RecursiveEngine :=
  (RecursiveEngine.run id .above .asGenerated (.finalize 1)
    (reportRules.map .processRulePkt)).getD (.finalize 1)

def afterFirst : RecursiveEngine :=
  (RecursiveEngine.run id .above .asGenerated (.finalize 1) beforeReports).getD (.finalize 1)

instance : Fintype StateType := ⟨{.state, .neg, .agg}, fun type => by cases type <;> decide⟩

theorem afterRules_reached : RecursiveEngine.run id .above .asGenerated (.finalize 1)
    (reportRules.map .processRulePkt) = some afterRules :=
  (Option.getD_of_ne_none (RecursiveEngine.run_ne_none _ _) _).symm

theorem afterFirst_reached :
    RecursiveEngine.run id .above .asGenerated (.finalize 1) beforeReports = some afterFirst :=
  (Option.getD_of_ne_none (RecursiveEngine.run_ne_none _ _) _).symm

/-- The events of the two types are stored by different rules. -/
theorem first_commutes : Commutes SameContents (afterRules.feedback .above .asGenerated)
    afterRules.feedsBack maxRecursionDepth 1 (evaluated afterRules (PubPkt.new 1 [] 10))
    [PubPkt.new 2 [] 10, PubPkt.new 4 [] 10] := by
  refine pair_commutes (by decide) afterRules_reached ?_ (Equiv.swap 1 2) ?_ ?_ ?_
  · decide +kernel
  · decide +kernel
  · decide +kernel
  · decide +kernel

/-- No rule uses the reports. -/
theorem second_commutes : Commutes SameContents (afterFirst.feedback .above .asGenerated)
    afterFirst.feedsBack maxRecursionDepth 1 (evaluated afterFirst (PubPkt.new 3 [] 20))
    [PubPkt.new 6 [] 20, PubPkt.new 7 [] 20] := by
  refine pair_commutes (by decide) afterFirst_reached ?_ 1 ?_ ?_ ?_
  · decide +kernel
  · decide +kernel
  · decide +kernel
  · decide +kernel

theorem twoReports_siblingsCommute : SiblingsCommute id .above .asGenerated 1 twoReports := by
  have first : SiblingsCommute id .above .asGenerated 1 beforeReports := by
    refine (RecursiveEngine.siblingsCommute_rules reportRules).concat fun e reached => ?_
    obtain rfl : afterRules = e := Option.some.inj (afterRules_reached.symm.trans reached)
    have results : (afterRules.evaluate .above .asGenerated afterRules.contents
        (PubPkt.new 1 [] 10)).2 = [PubPkt.new 2 [] 10, PubPkt.new 4 [] 10] := by decide +kernel
    rw [results]
    exact first_commutes
  refine first.concat fun e reached => ?_
  obtain rfl : afterFirst = e := Option.some.inj (afterFirst_reached.symm.trans reached)
  have results : (afterFirst.evaluate .above .asGenerated afterFirst.contents
      (PubPkt.new 3 [] 20)).2 = [PubPkt.new 6 [] 20, PubPkt.new 7 [] 20] := by decide +kernel
  rw [results]
  exact second_commutes

end TRex
