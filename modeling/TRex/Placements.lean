import Mathlib.Algebra.Group.End
import TRex.Addresses
import TRex.RecursionFlag
import TRex.ReferenceCounts

/-!
# Where packets are placed

A packet may be placed at any address that none of the packets on the stacks has, also at one that a
deleted packet had before. Two engines that place packets differently hold the same packets up to a
permutation of the addresses (`Renamed`): a new packet extends the permutation, since its address is
new in both. So they generate the same composite events, feed back the same ones and deliver the
same packets, in the same order, as long as both go through their result sets in the same order
(`delivered_place`). That order is one of addresses in the source, and the only thing through which
they can act.
-/

namespace TRex

open Feedback

/-! ## No packets outside the stacks of a rule -/

/-- The stacks of one kind. -/
def Stacks.columns (st : Stacks) : StateType → Nat → Column
  | .state => st.states
  | .neg => st.negs
  | .agg => st.aggs

/-- The packets of the stacks are on the columns that the widths allow. -/
def Stacks.Fits (width : StateType → Nat) (st : Stacks) : Prop :=
  ∀ type i, width type ≤ i → st.columns type i = .empty

section Fits

variable {width : StateType → Nat} {st : Stacks}

theorem fits_initial : Stacks.initial.Fits width := by
  intro type i _
  cases type <;> rfl

theorem Stacks.Fits.mono {width' : StateType → Nat} (fits : st.Fits width)
    (le : ∀ type, width type ≤ width' type) : st.Fits width' :=
  fun type i beyond => fits type i ((le type).trans beyond)

/-- A change of one column within its width, or to an empty one. -/
theorem empty_update {columns : Nat → Column} {i n : Nat} {c : Column}
    (before : ∀ j, n ≤ j → columns j = .empty) (inside : n ≤ i → c = .empty) :
    ∀ j, n ≤ j → Function.update columns i c j = .empty := by
  intro j beyond
  by_cases here : j = i
  · subst here
    rw [Function.update_self]
    exact inside beyond
  · rw [Function.update_of_ne here]
    exact before j beyond

theorem Stacks.Fits.updateStates (fits : st.Fits width) {i : Nat} {c : Column}
    (inside : width .state ≤ i → c = .empty) :
    Stacks.Fits width { st with states := Function.update st.states i c } := by
  intro type
  cases type with
  | state => exact empty_update (fits .state) inside
  | neg => exact fits .neg
  | agg => exact fits .agg

theorem Stacks.Fits.updateNegs (fits : st.Fits width) {i : Nat} {c : Column}
    (inside : width .neg ≤ i → c = .empty) :
    Stacks.Fits width { st with negs := Function.update st.negs i c } := by
  intro type
  cases type with
  | state => exact fits .state
  | neg => exact empty_update (fits .neg) inside
  | agg => exact fits .agg

theorem Stacks.Fits.updateAggs (fits : st.Fits width) {i : Nat} {c : Column}
    (inside : width .agg ≤ i → c = .empty) :
    Stacks.Fits width { st with aggs := Function.update st.aggs i c } := by
  intro type
  cases type with
  | state => exact fits .state
  | neg => exact fits .neg
  | agg => exact empty_update (fits .agg) inside

theorem removeOld_of_empty {c : Column} (empty : c = .empty) (minTS : Nat) :
    c.removeOld minTS = .empty := by
  rw [empty]
  rfl

theorem erase_of_empty {c : Column} (empty : c = .empty) (addrs : List Nat) :
    c.erase addrs = .empty := by
  rw [empty]
  rfl

namespace StacksRule

variable (r : StacksRule)

theorem clearStacks_fits (fits : st.Fits width) : (r.clearStacks st).Fits width := by
  have states : (r.clearStates st).Fits width := by
    refine List.foldlRecOn _ _ fits fun st fits i _ => ?_
    rcases r.clearState_cases st i with same | ⟨minTS, removed⟩
    · rwa [same]
    · rw [removed]
      exact fits.updateStates fun beyond => removeOld_of_empty (fits .state i beyond) minTS
  have negations : (r.clearNegations (r.clearStates st)).Fits width := by
    refine List.foldlRecOn _ _ states fun st fits i _ => ?_
    rcases r.clearNegation_cases st i with same | ⟨minTS, removed⟩
    · rwa [same]
    · rw [removed]
      exact fits.updateNegs fun beyond => removeOld_of_empty (fits .neg i beyond) minTS
  refine List.foldlRecOn _ _ negations fun st fits i _ => ?_
  rcases r.clearAggregate_cases st i with same | ⟨minTS, removed⟩
  · rwa [same]
  · rw [removed]
    exact fits.updateAggs fun beyond => removeOld_of_empty (fits .agg i beyond) minTS

theorem removeConsumedEvent_fits (partialEvents : List PartialEvent) (fits : st.Fits width) :
    (r.removeConsumedEvent st partialEvents).Fits width := by
  refine List.foldlRecOn _ _ fits fun st fits i _ => ?_
  rcases r.consumeState_cases partialEvents st i with same | erased
  · rwa [same]
  · rw [erased]
    exact fits.updateStates fun beyond => erase_of_empty (fits .state i beyond) _

/-- A call that the engine makes puts packets on the rule's own stacks. -/
theorem step_fits (fits : st.Fits r.columnsNum) {call : Call} (made : r.Made call) :
    (r.step st call).Fits r.columnsNum := by
  cases call with
  | addToStack p i => exact fits.updateStates fun beyond => absurd made.2 (Nat.not_lt.mpr beyond)
  | addToNegationStack p i =>
      exact fits.updateNegs fun beyond => absurd made (Nat.not_lt.mpr beyond)
  | addToAggregateStack p i =>
      exact fits.updateAggs fun beyond => absurd made (Nat.not_lt.mpr beyond)
  | startComputation p =>
      have pushed : (st.pushTerminator p).Fits r.columnsNum :=
        fits.updateStates fun beyond => absurd made (Nat.not_lt.mpr beyond)
      have consumed := r.removeConsumedEvent_fits (r.finalResults (r.startComputation st p))
        (r.clearStacks_fits pushed)
      exact consumed.updateStates fun _ => rfl

end StacksRule

/-- Stacks that agree on the columns allowed are the same. -/
theorem Stacks.Fits.ext {st' : Stacks} (fits : st.Fits width) (fits' : st'.Fits width)
    (agree : ∀ type, ∀ i < width type, st.columns type i = st'.columns type i) : st = st' := by
  have columns : ∀ type, st.columns type = st'.columns type := by
    intro type
    funext i
    by_cases inside : i < width type
    · exact agree type i inside
    · rw [fits type i (Nat.not_lt.mp inside), fits' type i (Nat.not_lt.mp inside)]
  have states : st.states = st'.states := columns .state
  have negs : st.negs = st'.negs := columns .neg
  have aggs : st.aggs = st'.aggs := columns .agg
  cases st
  cases st'
  rw [Stacks.mk.injEq]
  exact ⟨states, negs, aggs⟩

end Fits

namespace TRexEngine

/-- The stacks of each rule; an id without a rule has none. -/
def columnsNum (engine : TRexEngine) (id : Nat) (type : StateType) : Nat :=
  ((engine.ruleOf id).map fun r => r.columnsNum type).getD 0

/-- The packets of all stacks are on the stacks of the rules. -/
def Fits (engine : TRexEngine) (st : Nat → Stacks) : Prop :=
  ∀ id, (st id).Fits (engine.columnsNum id)

variable {engine : TRexEngine} {st : Nat → Stacks}

theorem columnsNum_of_some {id : Nat} {r : StacksRule} (found : engine.ruleOf id = some r) :
    engine.columnsNum id = r.columnsNum := by
  funext type
  simp [columnsNum, found]

theorem mem_held_of_fits (sorted : OrdMap.Sorted engine.stacksRules) (fits : engine.Fits st)
    {id i : Nat} {type : StateType} {q : PubPktPtr} (mem : q ∈ ((st id).columns type i).received) :
    q ∈ engine.held st := by
  have inside : i < engine.columnsNum id type := by
    by_contra beyond
    rw [fits id type i (Nat.not_lt.mp beyond)] at mem
    cases mem
  cases found : engine.ruleOf id with
  | none => simp [columnsNum, found] at inside
  | some r =>
      rw [columnsNum_of_some found] at inside
      have isRule := (OrdMap.find?_eq_some idLt_iff sorted).mp found
      refine List.mem_flatMap.mpr ⟨(id, r), isRule, ?_⟩
      cases type with
      | state => exact StacksRule.mem_held_of_states inside mem
      | neg => exact StacksRule.mem_held_of_negs inside mem
      | agg => exact StacksRule.mem_held_of_aggs inside mem

theorem Fits.ext {st' : Nat → Stacks} (sorted : OrdMap.Sorted engine.stacksRules)
    (fits : engine.Fits st) (fits' : engine.Fits st')
    (agree : ∀ x ∈ engine.stacksRules, ∀ type, ∀ i < x.2.columnsNum type,
      (st x.1).columns type i = (st' x.1).columns type i) : st = st' := by
  funext id
  refine (fits id).ext (fits' id) fun type i inside => ?_
  cases found : engine.ruleOf id with
  | none => simp [columnsNum, found] at inside
  | some r =>
      rw [columnsNum_of_some found] at inside
      exact agree (id, r) ((OrdMap.find?_eq_some idLt_iff sorted).mp found) type i inside

theorem Fits.move (fits : engine.Fits st) (f : Nat → Nat) :
    engine.Fits fun id => (st id).move f := by
  intro id type i beyond
  have empty : (st id).columns type i = .empty := fits id type i beyond
  show ((st id).move f).columns type i = .empty
  cases type <;> exact congrArg (Column.move f) empty

theorem act_fst {x : Nat × Call} {r : StacksRule} (found : engine.ruleOf x.1 = some r)
    (st : Stacks) : (engine.system.act x st).1 = r.step st x.2 := by
  simp only [system, found]
  cases x.2 <;> rfl

/-- Calls that the engine makes leave all packets on the stacks of the rules. -/
theorem run_fits (fits : engine.Fits st) {calls : List (Nat × Call)}
    (made : ∀ x ∈ calls, ∃ r, engine.ruleOf x.1 = some r ∧ r.Made x.2) :
    engine.Fits (Interleave.run engine.system st calls).1 := by
  intro id
  refine @Interleave.run_induct _ _ _ _ _ engine.system
    (fun id (st : Stacks) => st.Fits (engine.columnsNum id)) calls ?_ st fits id
  intro x mem st fits
  obtain ⟨r, found, isMade⟩ := made x mem
  have width : engine.columnsNum (engine.system.comp x) = r.columnsNum := columnsNum_of_some found
  rw [act_fst found, width]
  exact r.step_fits (width ▸ fits) isMade

/-! ## The calls for a moved packet -/

section Move

variable (f : Nat → Nat)

theorem ruleCalls_move (mh : MatchingHandler) (ptr : PubPktPtr) (i : Nat) :
    ruleCalls mh (ptr.move f) i = (ruleCalls mh ptr i).map (Call.move f) := by
  unfold ruleCalls
  simp only [List.map_append, List.map_map]
  split <;> rfl

theorem allCalls_move (mh : MatchingHandler) (ptr : PubPktPtr) :
    engine.allCalls mh (ptr.move f) =
      (engine.allCalls mh ptr).map fun x => (x.1, x.2.move f) := by
  unfold allCalls workerCalls callsOf
  rw [List.map_flatMap]
  refine List.flatMap_congr fun w _ => ?_
  split
  · rw [List.map_flatMap]
    refine List.flatMap_congr fun i _ => ?_
    rw [ruleCalls_move, List.map_map, List.map_map]
    rfl
  · rfl

variable {f}

theorem act_move (injective : Function.Injective f) (x : Nat × Call) (st : Stacks) :
    engine.system.act (x.1, x.2.move f) (st.move f) =
      ((engine.system.act x st).1.move f, (engine.system.act x st).2) := by
  obtain ⟨id, call⟩ := x
  simp only [system]
  cases engine.ruleOf id with
  | none => rfl
  | some r =>
      cases call with
      | startComputation p =>
          obtain ⟨results, after⟩ := StacksRule.startComputation_move r st injective p
          exact Prod.ext after results
      | addToStack p i =>
          exact Prod.ext (StacksRule.step_move r st injective (.addToStack p i)) rfl
      | addToNegationStack p i =>
          exact Prod.ext (StacksRule.step_move r st injective (.addToNegationStack p i)) rfl
      | addToAggregateStack p i =>
          exact Prod.ext (StacksRule.step_move r st injective (.addToAggregateStack p i)) rfl

/-- The engine does the same with the moved packets. -/
theorem run_allCalls_move (injective : Function.Injective f) (st : Nat → Stacks)
    (mh : MatchingHandler) (ptr : PubPktPtr) :
    Interleave.run engine.system (fun id => (st id).move f) (engine.allCalls mh (ptr.move f)) =
      (fun id => ((Interleave.run engine.system st (engine.allCalls mh ptr)).1 id).move f,
        (Interleave.run engine.system st (engine.allCalls mh ptr)).2) := by
  rw [allCalls_move]
  exact @Interleave.run_relabel _ _ _ _ _ engine.system _ _ engine.system (Stacks.move f)
    (fun x => (x.1, x.2.move f)) (fun _ => rfl) (act_move injective) st _

end Move

/-- The stacks do not tell apart two moves that agree on the packets held. -/
theorem move_congr (sorted : OrdMap.Sorted engine.stacksRules) (fits : engine.Fits st)
    {f g : Nat → Nat} (agree : ∀ a ∈ (engine.held st).map PubPktPtr.addr, g a = f a) :
    (fun id => (st id).move g) = fun id => (st id).move f := by
  have columns : ∀ id type i,
      ((st id).columns type i).move g = ((st id).columns type i).move f := by
    intro id type i
    refine congrArg (Column.mk _) (List.map_congr_left fun q mem => ?_)
    have held := List.mem_map_of_mem (f := PubPktPtr.addr) (mem_held_of_fits sorted fits mem)
    simp only [PubPktPtr.move, agree q.addr held]
  funext id
  have states : (fun i => ((st id).states i).move g) = fun i => ((st id).states i).move f :=
    funext (columns id .state)
  have negs : (fun i => ((st id).negs i).move g) = fun i => ((st id).negs i).move f :=
    funext (columns id .neg)
  have aggs : (fun i => ((st id).aggs i).move g) = fun i => ((st id).aggs i).move f :=
    funext (columns id .agg)
  unfold Stacks.move
  rw [states, negs, aggs]

theorem held_move (f : Nat → Nat) (st : Nat → Stacks) :
    engine.held (fun id => (st id).move f) = (engine.held st).map (PubPktPtr.move f) := by
  unfold held
  rw [List.map_flatMap]
  refine List.flatMap_congr fun e _ => ?_
  simp only [StacksRule.held, List.map_append, List.map_flatMap]
  rfl

/-- A move of the packets held extends to a new packet: to any address that is new on the other
side. -/
theorem exists_extension (sorted : OrdMap.Sorted engine.stacksRules) (fits : engine.Fits st)
    (f : Equiv.Perm Nat) {a a' : Nat} (fresh : a ∉ (engine.held st).map PubPktPtr.addr)
    (fresh' : a' ∉ (engine.held fun id => (st id).move f).map PubPktPtr.addr) :
    ∃ g : Equiv.Perm Nat, g a = a' ∧
      (fun id => (st id).move g) = fun id => (st id).move f := by
  refine ⟨(Equiv.swap (f a) a') * f, Equiv.swap_apply_left _ _, ?_⟩
  refine move_congr sorted fits fun b held => Equiv.swap_apply_of_ne_of_ne ?_ ?_
  · intro same
    exact fresh (f.injective same ▸ held)
  · intro same
    refine fresh' ?_
    rw [held_move, List.map_map]
    obtain ⟨q, isHeld, rfl⟩ := List.mem_map.mp held
    exact List.mem_map.mpr ⟨q, isHeld, same⟩

end TRexEngine

theorem delivered_evaluate (engine : TRexEngine) (place : Placement) (order : SetOrder)
    (c : Contents) (pkt : PubPkt) : (engine.evaluate place order c pkt).1.delivered =
      c.delivered ++ (engine.evaluate place order c pkt).2 := rfl

/-! ## Engines that place packets differently -/

/-- The same packets up to a permutation of their addresses, and the same packets delivered. -/
structure Renamed (engine : TRexEngine) (c c' : Contents) : Prop where
  fits : engine.Fits c.stacks
  moved : ∃ f : Equiv.Perm Nat, c'.stacks = fun id => (c.stacks id).move f
  delivered : c.delivered = c'.delivered

section Engine

variable {alloc : Nat → Nat} {numProc : Nat} {rules : List RulePkt} {order : SetOrder}
  {c c' : Contents}

open TRexEngine (installAll)

theorem made_of_mem_allCalls (ids : (rules.map RulePkt.ruleId).Nodup) {ptr : PubPktPtr}
    {x : Nat × Call} (mem : x ∈ (installAll alloc numProc rules).allCalls
      ((installAll alloc numProc rules).indexingTable.processMessage ptr.pkt .empty) ptr) :
    ∃ r, (installAll alloc numProc rules).ruleOf x.1 = some r ∧ r.Made x.2 := by
  obtain ⟨w, -, isCall⟩ := List.mem_flatMap.mp mem
  obtain ⟨-, -, made⟩ := made_of_mem_workerCalls ids isCall
  exact made

theorem fits_evaluate (ids : (rules.map RulePkt.ruleId).Nodup)
    (fits : (installAll alloc numProc rules).Fits c.stacks) (place : Placement) (pkt : PubPkt) :
    (installAll alloc numProc rules).Fits
      ((installAll alloc numProc rules).evaluate place order c pkt).1.stacks :=
  TRexEngine.run_fits fits fun _ mem => @made_of_mem_allCalls alloc numProc rules ids
    ⟨place.pick (((installAll alloc numProc rules).held c.stacks).map PubPktPtr.addr), pkt⟩ _ mem

/-- Stacks that are the same up to the addresses stay so, wherever the new packet is placed, and the
same composite events are generated. -/
theorem exists_move_evaluate (ids : (rules.map RulePkt.ruleId).Nodup)
    (fits : (installAll alloc numProc rules).Fits c.stacks)
    (moved : ∃ f : Equiv.Perm Nat, c'.stacks = fun id => (c.stacks id).move f)
    (place place' : Placement) (order order' : SetOrder) (pkt : PubPkt) :
    ∃ (g : Equiv.Perm Nat) (generated : List PubPkt),
      ((installAll alloc numProc rules).evaluate place' order' c' pkt).1.stacks =
          (fun id =>
            (((installAll alloc numProc rules).evaluate place order c pkt).1.stacks id).move g) ∧
        ((installAll alloc numProc rules).evaluate place order c pkt).2 =
          order.arrange c.delivered.length generated ∧
        ((installAll alloc numProc rules).evaluate place' order' c' pkt).2 =
          order'.arrange c'.delivered.length generated := by
  have sorted := (@TRexEngine.holds_installAll alloc numProc rules ids).sorted
  generalize installAll alloc numProc rules = engine at *
  obtain ⟨f, moved⟩ := moved
  -- the two addresses of the new packet
  have fresh := place.fresh ((engine.held c.stacks).map PubPktPtr.addr)
  have fresh' := place'.fresh ((engine.held c'.stacks).map PubPktPtr.addr)
  rw [moved] at fresh'
  obtain ⟨g, here, same⟩ := TRexEngine.exists_extension sorted fits f fresh fresh'
  have run := @TRexEngine.run_allCalls_move engine g g.injective c.stacks
    (engine.indexingTable.processMessage pkt .empty)
    ⟨place.pick ((engine.held c.stacks).map PubPktPtr.addr), pkt⟩
  have ptr : PubPktPtr.move g ⟨place.pick ((engine.held c.stacks).map PubPktPtr.addr), pkt⟩ =
      ⟨place'.pick ((engine.held c'.stacks).map PubPktPtr.addr), pkt⟩ := by
    rw [moved, ← here]
    rfl
  rw [ptr, same, ← moved] at run
  have generated := congrArg Prod.snd run
  refine ⟨g, _, congrArg Prod.fst run, rfl, ?_⟩
  simp only [TRexEngine.evaluate, generated]

theorem Renamed.evaluate (ids : (rules.map RulePkt.ruleId).Nodup)
    (renamed : Renamed (installAll alloc numProc rules) c c') (place place' : Placement)
    (pkt : PubPkt) :
    Renamed (installAll alloc numProc rules)
        ((installAll alloc numProc rules).evaluate place order c pkt).1
        ((installAll alloc numProc rules).evaluate place' order c' pkt).1 ∧
      ((installAll alloc numProc rules).evaluate place order c pkt).2 =
        ((installAll alloc numProc rules).evaluate place' order c' pkt).2 := by
  obtain ⟨g, generated, moved, here, there⟩ := @exists_move_evaluate alloc numProc rules c c' ids
    renamed.fits renamed.moved place place' order order pkt
  have result : ((installAll alloc numProc rules).evaluate place order c pkt).2 =
      ((installAll alloc numProc rules).evaluate place' order c' pkt).2 := by
    rw [here, there, renamed.delivered]
  refine ⟨⟨fits_evaluate ids renamed.fits place pkt, ⟨g, moved⟩, ?_⟩, result⟩
  rw [delivered_evaluate, delivered_evaluate, result, renamed.delivered]

theorem Renamed.mirrors (ids : (rules.map RulePkt.ruleId).Nodup) (place place' : Placement) :
    Mirrors (fun _ => True) (Renamed (installAll alloc numProc rules))
      ((installAll alloc numProc rules).feedback place order)
      ((installAll alloc numProc rules).feedback place' order) := by
  intro c c' pkt _ renamed
  obtain ⟨contents, result⟩ := renamed.evaluate ids place place' pkt.copy
  exact ⟨contents, result, fun _ _ => trivial⟩

/-- A rule installed under a new id has no packets yet. -/
theorem TRexEngine.Fits.install {pkt : RulePkt} {st : Nat → Stacks}
    (ids : ((rules ++ [pkt]).map RulePkt.ruleId).Nodup)
    (fits : (installAll alloc numProc rules).Fits st) :
    (installAll alloc numProc (rules ++ [pkt])).Fits st := by
  refine fun id => (fits id).mono fun type => ?_
  have sorted' := (@TRexEngine.holds_installAll alloc numProc _ ids).sorted
  rw [List.map_append, List.nodup_append] at ids
  have sorted := (@TRexEngine.holds_installAll alloc numProc rules ids.1).sorted
  unfold TRexEngine.columnsNum
  cases found : (installAll alloc numProc rules).ruleOf id with
  | none => exact Nat.zero_le _
  | some r =>
      have isRule := (OrdMap.find?_eq_some TRexEngine.idLt_iff sorted).mp found
      have kept : (installAll alloc numProc (rules ++ [pkt])).ruleOf id = some r := by
        refine (OrdMap.find?_eq_some TRexEngine.idLt_iff sorted').mpr ?_
        rw [TRexEngine.installAll_concat]
        exact (OrdMap.mem_insert TRexEngine.idLt_iff sorted).mpr (.inl isRule)
      rw [kept]

theorem Renamed.processRulePkt {pkt : RulePkt} (ids : ((rules ++ [pkt]).map RulePkt.ruleId).Nodup)
    (renamed : Renamed (installAll alloc numProc rules) c c') :
    Renamed (installAll alloc numProc (rules ++ [pkt])) c c' :=
  ⟨renamed.fits.install ids, renamed.moved, renamed.delivered⟩

end Engine

namespace RecursiveEngine

variable {alloc : Nat → Nat} {place place' : Placement} {order : SetOrder} {numProc : Nat}
  {ops : List Operation} {e e' : RecursiveEngine}

/-- Whether a packet is fed back depends on the rules and the number of those fed back before. -/
theorem feedsBack_run (reached : run alloc place order (.finalize numProc) ops = some e)
    (count : Nat) :
    e.feedsBack count = true ↔ Detected (rulesOf ops) ∧ count < maxRecursionDepth := by
  have flag := flagInv_run reached
  unfold feedsBack
  rw [Bool.and_eq_true, decide_eq_true_eq]
  refine and_congr_left fun _ => ⟨flag.detected, fun detected => ?_⟩
  by_contra off
  exact flag.undetected (Bool.eq_false_iff.mpr off) detected

theorem walkOf_eq (place : Placement) (order : SetOrder) (e : RecursiveEngine) (pkt : PubPkt) :
    walkOf place order e pkt = walk (e.feedback place order) e.feedsBack maxRecursionDepth 1
      ⟨(e.evaluate place order e.contents pkt).1, 0, []⟩
      (e.evaluate place order e.contents pkt).2 := rfl

/-- One publication. -/
theorem mirrored_walkOf {rules : List RulePkt} (ids : (rules.map RulePkt.ruleId).Nodup)
    (engine : e.toTRexEngine = TRexEngine.installAll alloc numProc rules)
    (engine' : e'.toTRexEngine = TRexEngine.installAll alloc numProc rules)
    (flag : e.feedsBack = e'.feedsBack)
    (renamed : Renamed (TRexEngine.installAll alloc numProc rules) e.contents e'.contents)
    (place place' : Placement) (pkt : PubPkt) :
    Mirrored (Renamed (TRexEngine.installAll alloc numProc rules)) [] []
      (walkOf place order e pkt) (walkOf place' order e' pkt) := by
  obtain ⟨first, results⟩ :=
    @Renamed.evaluate alloc numProc rules order _ _ ids renamed place place' pkt
  rw [walkOf_eq, walkOf_eq, engine, engine', ← flag, ← results]
  refine Mirrored.walk (Renamed.mirrors ids place place') ?_ fun _ _ => trivial
  exact ⟨first, rfl, [], rfl, rfl⟩

theorem renamed_run (ids : ((rulesOf ops).map RulePkt.ruleId).Nodup)
    (reached : run alloc place order (.finalize numProc) ops = some e)
    (reached' : run alloc place' order (.finalize numProc) ops = some e') :
    Renamed e.toTRexEngine e.contents e'.contents ∧ e.decisions = e'.decisions := by
  induction ops using List.reverseRecOn generalizing e e' with
  | nil =>
      cases reached
      cases reached'
      exact ⟨⟨fun id => fits_initial, ⟨1, rfl⟩, rfl⟩, rfl⟩
  | append_singleton ops op ih =>
      obtain ⟨mid, before, now⟩ := run_concat alloc place order reached
      obtain ⟨mid', before', now'⟩ := run_concat alloc place' order reached'
      have engine : e.toTRexEngine = TRexEngine.installAll alloc numProc (rulesOf (ops ++ [op])) :=
        toTRexEngine_run rfl reached
      have rules := toTRexEngine_run rfl before
      have rules' := toTRexEngine_run rfl before'
      rw [rulesOf_append] at ids engine
      have idsBefore : ((rulesOf ops).map RulePkt.ruleId).Nodup := by
        rw [List.map_append] at ids
        exact (List.nodup_append.mp ids).1
      obtain ⟨renamed, decisions⟩ := ih idsBefore before before'
      rw [rules] at renamed
      rw [engine]
      cases op with
      | processRulePkt pkt =>
          cases now
          cases now'
          rw [contents_processRulePkt, contents_processRulePkt]
          refine ⟨renamed.processRulePkt ids, ?_⟩
          have kept : ∀ mid : RecursiveEngine, (mid.processRulePkt alloc pkt).decisions =
              mid.decisions := by
            intro mid
            unfold RecursiveEngine.processRulePkt setRecursionNeeded
            split <;> rfl
          rw [kept, kept, decisions]
      | processPubPkt pkt =>
          rw [step_processPubPkt] at now now'
          cases now
          cases now'
          have flag : mid.feedsBack = mid'.feedsBack := by
            funext count
            rw [Bool.eq_iff_iff, feedsBack_run before, feedsBack_run before']
          have same : rulesOf ops ++ rulesOf [.processPubPkt pkt] = rulesOf ops := List.append_nil _
          rw [same]
          obtain ⟨state, -, more, trace, trace'⟩ :=
            mirrored_walkOf idsBefore rules rules' flag renamed place place' pkt
          exact ⟨state, trace.trans trace'.symm⟩

end RecursiveEngine

open RecursiveEngine (rulesOf)

def Placement.lowest : Placement where
  pick used :=
    Nat.find (p := fun a => a ∉ used) ⟨Placement.above.pick used, Placement.above.fresh used⟩
  fresh used := Nat.find_spec (p := fun a => a ∉ used) _

end TRex
