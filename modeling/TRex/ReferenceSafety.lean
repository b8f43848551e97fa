import TRex.ReferenceCounts

/-!
# Reference counts are exact

The invariant behind `ReferenceCounts`. Between calls the references of a rule are the slots of its
stacks. A rule whose worker is inside a call has references from which the remaining accesses of the
call lead to such a state (`Keeps`), whatever the other workers do. The references of the rules and
those of the calls of `processPubPkt` are all there are. Each rule installed reads only slots that
have been assigned; `referenceCount_inexact` is what happens with one that does not.
-/

namespace TRex

namespace Counting

open RefCount

open TRexEngine (installAll)

/-! ## The invariant -/

/-- A rule made by the builder that reads only slots that have been assigned. -/
def Sound (pkt : RulePkt) : Prop := pkt.Built ∧ pkt.ReadsAssignedSlots

/-- A worker during a call of `processPubPkt` for the packet `ptr`. -/
structure Worker.Inv (t : TRexEngine) (ptr : PubPktPtr) (slots : Nat → List Nat) (w : Nat)
    (worker : Worker) : Prop where
  calls : ∀ x ∈ worker.calls, x.2.pkt = ptr ∧ t.InRange w x.1 ∧
    ∃ r, t.ruleOf x.1 = some r ∧ r.Made x.2
  current : ∀ running, worker.current = some running → t.InRange w running.rule ∧
    ∃ r, t.ruleOf running.rule = some r ∧ running.after.Inv ∧ r.Confined running.after ∧
      Keeps [ptr.addr] (slots running.rule) running.todo (addrs (r.held running.after)) ∧
      running.placed ++ created running.todo = addrs running.generated

namespace Machine

/-- No worker is inside a call on the rule. -/
def Resting (s : Machine) (id : Nat) : Prop :=
  ∀ w running, (s.workers w).current = some running → running.rule ≠ id

structure Inv (alloc : Nat → Nat) (numProc : Nat) (s : Machine) : Prop where
  installed : s.alive = true → ∃ rules : List RulePkt, (rules.map RulePkt.ruleId).Nodup ∧
    (∀ pkt ∈ rules, Sound pkt) ∧ s.engine.toTRexEngine = installAll alloc numProc rules
  inCall : s.activations ≠ [] → s.alive = true
  stacksInv : ∀ e ∈ s.engine.stacksRules,
    (s.engine.contents.stacks e.1).Inv ∧ e.2.Confined (s.engine.contents.stacks e.1)
  absent : s.alive = true → ∀ id, id ∉ s.engine.stacksRules.map Prod.fst →
    s.engine.contents.stacks id = .initial ∧ s.slots id = []
  slots : ∀ e ∈ s.engine.stacksRules, s.Resting e.1 →
    (s.slots e.1).Perm (addrs (e.2.held (s.engine.contents.stacks e.1)))
  workers : ∀ w, s.workers w = .idle ∨ ∃ ptr below, s.activations = .working ptr :: below ∧
    (s.workers w).Inv s.engine.toTRexEngine ptr s.slots w
  nodup : s.owned.Nodup
  exact : ∃ h, s.memory = some h ∧ Exact countValues h (s.owned ++ s.slotList)

variable {alloc : Nat → Nat} {numProc : Nat} {s : Machine}

/-- Without results the workers own nothing. -/
theorem owned_of_nothing (nothing : ∀ w, (s.workers w).owned = []) :
    s.owned = s.activations.flatMap Activation.owned := by
  have none : ((List.range s.engine.numProc).flatMap fun w => (s.workers w).owned) = [] := by
    rw [List.flatMap_eq_nil_iff]
    exact fun w _ => nothing w
  rw [owned, none, List.append_nil]

theorem owned_of_idle (idle : s.workers = fun _ => .idle) :
    s.owned = s.activations.flatMap Activation.owned := by
  refine owned_of_nothing fun w => ?_
  rw [idle]
  rfl

theorem inv_initial (alloc : Nat → Nat) (numProc : Nat) : (initial numProc).Inv alloc numProc where
  installed _ := ⟨[], List.nodup_nil, List.forall_mem_nil _, rfl⟩
  inCall some := absurd rfl some
  stacksInv e mem := nomatch mem
  absent _ _ _ := ⟨rfl, rfl⟩
  slots e mem := nomatch mem
  workers w := .inl rfl
  nodup := by
    rw [@owned_of_idle (initial numProc) rfl]
    exact List.nodup_nil
  exact := by
    refine ⟨_, rfl, ?_⟩
    rw [@owned_of_idle (initial numProc) rfl]
    exact exact_nil (by decide)

/-! ## Rules -/

theorem Inv.holds (inv : s.Inv alloc numProc) (alive : s.alive = true) :
    ∃ ids, s.engine.Holds numProc ids := by
  obtain ⟨rules, ids, sound, same⟩ := inv.installed alive
  rw [same]
  exact ⟨_, TRexEngine.holds_installAll alloc numProc ids⟩

/-- A rule installed was made from one that is sound. -/
theorem Inv.exists_sound (inv : s.Inv alloc numProc) (alive : s.alive = true) {id : Nat}
    {r : StacksRule} (isRule : (id, r) ∈ s.engine.stacksRules) :
    ∃ pkt, Sound pkt ∧ StacksRule.new pkt = r := by
  obtain ⟨rules, ids, sound, same⟩ := inv.installed alive
  rw [same] at isRule
  obtain ⟨pkt, inRules, -, made⟩ := exists_of_mem_stacksRules isRule
  exact ⟨pkt, sound pkt inRules, made⟩

theorem mem_of_ruleOf {ids : List Nat} (holds : s.engine.Holds numProc ids) {id : Nat}
    {r : StacksRule} (found : s.engine.ruleOf id = some r) : (id, r) ∈ s.engine.stacksRules :=
  (OrdMap.find?_eq_some TRexEngine.idLt_iff holds.sorted).mp found

theorem resting_of_noCall (noCall : ∀ w, (s.workers w).current = none) (id : Nat) :
    s.Resting id := by
  intro w running current
  rw [noCall w] at current
  cases current

/-- Outside of `processPubPkt` and in the loop over the results the workers rest. -/
theorem Inv.idle (inv : s.Inv alloc numProc)
    (notWorking : ∀ ptr below, s.activations ≠ .working ptr :: below) :
    s.workers = fun _ => .idle := by
  funext w
  rcases inv.workers w with idle | ⟨ptr, below, working, -⟩
  · exact idle
  · exact absurd working (notWorking ptr below)

/-! ## Steps of the caller -/

/-- A step after which no worker has anything to do. -/
theorem Inv.rest (inv : s.Inv alloc numProc) (noCall : ∀ w, (s.workers w).current = none)
    {acts : List Activation} {memory : Option (Heap Nat)} (inCall : acts ≠ [] → s.alive = true)
    (nodup : (acts.flatMap Activation.owned).Nodup)
    (exact : ∃ h, memory = some h ∧
      Exact countValues h (acts.flatMap Activation.owned ++ s.slotList)) :
    Inv alloc numProc { s with memory, activations := acts, workers := fun _ => .idle } := by
  have same := @owned_of_idle { s with memory, activations := acts, workers := fun _ => .idle } rfl
  refine ⟨inv.installed, inCall, inv.stacksInv, inv.absent,
    fun e mem _ => inv.slots e mem (resting_of_noCall noCall e.1), fun w => .inl rfl,
    same ▸ nodup, ?_⟩
  rw [same]
  exact exact

/-- The same with workers that had nothing to do before. -/
theorem Inv.rest_of_idle (inv : s.Inv alloc numProc) (idle : s.workers = fun _ => .idle)
    {acts : List Activation} {memory : Option (Heap Nat)} (inCall : acts ≠ [] → s.alive = true)
    (nodup : (acts.flatMap Activation.owned).Nodup)
    (exact : ∃ h, memory = some h ∧
      Exact countValues h (acts.flatMap Activation.owned ++ s.slotList)) :
    Inv alloc numProc { s with memory, activations := acts } := by
  have rested := inv.rest (fun w => by rw [idle]; rfl) inCall nodup exact
  rw [← idle] at rested
  exact rested

theorem Inv.withDepth (inv : s.Inv alloc numProc) (recursionDepth : Nat) :
    (s.withDepth recursionDepth).Inv alloc numProc :=
  ⟨inv.installed, inv.inCall, inv.stacksInv, inv.absent, inv.slots, inv.workers, inv.nodup,
    inv.exact⟩

/-- The beginning of `processPubPkt`. -/
theorem Inv.enter (inv : s.Inv alloc numProc) (alive : s.alive = true)
    (idle : s.workers = fun _ => .idle) {ptr : PubPktPtr} (fresh : s.Fresh ptr.addr)
    {source : List (Access Nat)}
    (reads : ∀ h, s.memory = some h → exec countValues h source = some h) :
    (s.enter ptr source).Inv alloc numProc := by
  obtain ⟨rules, ids, sound, same⟩ := inv.installed alive
  obtain ⟨h, memory, exact⟩ := inv.exact
  have placed := exact.new (fresh h memory) (by decide)
  have absent := exact.eq_none_iff.mp (fresh h memory)
  have owned_enter : (s.enter ptr source).owned = ptr.addr :: s.owned := by
    rw [owned_of_idle idle, owned_of_nothing fun w => rfl]
    rfl
  have noCall : ∀ w, (s.workers w).current = none := fun w =>
    congrArg Worker.current (congrFun idle w)
  refine ⟨inv.installed, fun _ => alive, inv.stacksInv, inv.absent,
    fun e mem _ => inv.slots e mem (resting_of_noCall noCall e.1), fun w => ?_, ?_, ?_⟩
  · refine .inr ⟨ptr, s.activations, rfl, fun x mem => ?_, fun running current => nomatch current⟩
    simp only [Machine.enter] at mem ⊢
    rw [same] at mem ⊢
    exact made_of_mem_workerCalls ids mem
  · rw [owned_enter, List.nodup_cons]
    exact ⟨fun mem => absent (List.mem_append_left _ mem), inv.nodup⟩
  · refine ⟨Function.update h ptr.addr (some 1), ?_, owned_enter ▸ placed⟩
    show s.perform _ = _
    rw [perform, memory, Option.bind_some, exec_append, reads h memory, Option.bind_some]
    exact placed.exec_reads [ptr.addr] (by simp)

/-- The first access of a sequence. -/
theorem perform_singleton {h h' : Heap Nat} {access : Access Nat} (memory : s.memory = some h)
    (done : access.on countValues h = some h') : s.perform [access] = some h' := by
  rw [perform, memory, Option.bind_some]
  unfold exec
  rw [List.foldlM_cons, done]
  rfl

theorem Inv.collect (inv : s.Inv alloc numProc) {ptr : PubPktPtr} {below : List Activation}
    {results : List PubPktPtr} (top : s.activations = .working ptr :: below)
    (done : ∀ w, (s.workers w).calls = [] ∧ (s.workers w).current = none)
    (all : results.Perm ((List.range s.engine.numProc).flatMap fun w => (s.workers w).result)) :
    Inv alloc numProc { s with
      memory := s.perform (.dec ptr.addr :: (addrs results).map .read)
      activations := .delivering results false :: below
      workers := fun _ => .idle } := by
  have collected : ((List.range s.engine.numProc).flatMap fun w => (s.workers w).owned).Perm
      (addrs results) := by
    have each : (fun w => (s.workers w).owned) = fun w => addrs (s.workers w).result := by
      funext w
      rw [Worker.owned, (done w).2]
      exact List.append_nil _
    rw [each]
    refine List.Perm.trans ?_ (addrs_perm all).symm
    rw [addrs, List.map_flatMap]
    exact List.Perm.refl _
  have owned_perm : s.owned.Perm (ptr.addr ::
      (Activation.delivering results false :: below).flatMap Activation.owned) := by
    rw [owned, top]
    refine (collected.append_left _).trans (List.perm_append_comm.trans ?_)
    exact List.perm_middle
  obtain ⟨h, memory, exact⟩ := inv.exact
  obtain ⟨h', released, exact'⟩ := (exact.perm (owned_perm.append_right s.slotList)).dec
  have nodup := owned_perm.nodup_iff.mp inv.nodup
  refine inv.rest (fun w => (done w).2)
    (fun _ => inv.inCall (by rw [top]; exact List.cons_ne_nil _ _))
    (List.nodup_cons.mp nodup).2 ⟨h', ?_, exact'⟩
  have looked := exact'.exec_reads (addrs results) fun a mem =>
    List.mem_append_left _ (List.mem_append_left _ mem)
  rw [perform, memory, Option.bind_some]
  unfold exec
  rw [List.foldlM_cons, released]
  exact looked

theorem Inv.feed (inv : s.Inv alloc numProc) {p : PubPktPtr} {a : Nat} {rest : List PubPktPtr}
    {below : List Activation} (top : s.activations = .delivering (p :: rest) false :: below)
    (fresh : s.Fresh a) :
    Inv alloc numProc (({ s with activations := .delivering (p :: rest) true :: below }.withDepth
      (s.engine.recursionDepth + 1)).enter ⟨a, p.pkt.copy⟩ [.read p.addr]) := by
  have idle := inv.idle (by simp [top])
  have alive := inv.inCall (by simp [top])
  have owned_eq : s.owned =
      (Activation.delivering (p :: rest) true :: below).flatMap Activation.owned := by
    rw [owned_of_idle idle, top]
    rfl
  have flagged := inv.rest_of_idle idle (fun _ => alive) (owned_eq ▸ inv.nodup)
    (owned_eq ▸ inv.exact)
  refine @Inv.enter alloc numProc _ (flagged.withDepth _) alive idle ⟨a, p.pkt.copy⟩ fresh _
    fun h memory => ?_
  obtain ⟨h', memory', exact⟩ := inv.exact
  obtain rfl : h = h' := Option.some.inj (memory.symm.trans memory')
  refine exact.exec_reads [p.addr] fun b mem => ?_
  obtain rfl := List.mem_singleton.mp mem
  rw [owned_eq]
  exact List.mem_append_left _ List.mem_cons_self

theorem Inv.release (inv : s.Inv alloc numProc) {p : PubPktPtr} {rest : List PubPktPtr}
    {fed : Bool} {below : List Activation}
    (top : s.activations = .delivering (p :: rest) fed :: below) :
    Inv alloc numProc { s with
      memory := s.perform [.dec p.addr]
      activations := .delivering rest false :: below } := by
  have idle := inv.idle (by simp [top])
  have owned_eq : s.owned = p.addr ::
      (Activation.delivering rest false :: below).flatMap Activation.owned := by
    rw [owned_of_idle idle, top]
    rfl
  obtain ⟨h, memory, exact⟩ := inv.exact
  rw [owned_eq] at exact
  obtain ⟨h', released, exact'⟩ := exact.dec
  have nodup := inv.nodup
  rw [owned_eq, List.nodup_cons] at nodup
  exact inv.rest_of_idle idle (fun _ => inv.inCall (by simp [top])) nodup.2
    ⟨h', perform_singleton memory released, exact'⟩

theorem Inv.return_ (inv : s.Inv alloc numProc) {fed : Bool} {below : List Activation}
    (top : s.activations = .delivering [] fed :: below) :
    Inv alloc numProc { s with activations := below } := by
  have idle := inv.idle (by simp [top])
  have owned_eq : s.owned = below.flatMap Activation.owned := by
    rw [owned_of_idle idle, top]
    rfl
  exact inv.rest_of_idle idle (fun _ => inv.inCall (by simp [top]))
    (owned_eq ▸ inv.nodup) (owned_eq ▸ inv.exact)

/-- The references of the rules are the slots of the stacks, if no call is under way. -/
theorem Inv.slotList_perm (inv : s.Inv alloc numProc)
    (noCall : ∀ w, (s.workers w).current = none) :
    s.slotList.Perm (addrs (s.engine.toTRexEngine.held s.engine.contents.stacks)) := by
  have each : s.slotList = s.engine.stacksRules.flatMap fun e => s.slots e.1 := by
    rw [slotList, List.flatMap_map]
  rw [each, TRexEngine.held, addrs, List.map_flatMap]
  exact List.Perm.flatMap_left _ fun e mem => inv.slots e mem (resting_of_noCall noCall e.1)

theorem Inv.destroy (inv : s.Inv alloc numProc) (outside : s.activations = []) :
    Inv alloc numProc { s with
      engine := { s.engine with stacksRules := [] }
      alive := false
      slots := fun _ => []
      memory := s.perform
        ((addrs (s.engine.toTRexEngine.held s.engine.contents.stacks)).map .dec) } := by
  have idle := inv.idle (by simp [outside])
  have owned_eq : s.owned = [] := by
    rw [owned_of_idle idle, outside]
    rfl
  obtain ⟨h, memory, exact⟩ := inv.exact
  rw [owned_eq, List.nil_append] at exact
  have slots := inv.slotList_perm fun w => by rw [idle]; rfl
  rw [← List.append_nil (addrs _)] at slots
  obtain ⟨h', released, exact'⟩ := (exact.perm slots).exec_decs
  refine ⟨fun alive => (nomatch alive), fun inside => absurd outside inside,
    fun e mem => (nomatch mem), fun alive => (nomatch alive), fun e mem => (nomatch mem),
    fun w => .inl (congrFun idle w), inv.nodup, h', ?_, ?_⟩
  · show s.perform _ = _
    rw [perform, memory]
    exact released
  · show Exact countValues h' (s.owned ++ [])
    rw [owned_eq]
    exact exact'

theorem Inv.processRulePkt (inv : s.Inv alloc numProc) (alive : s.alive = true)
    (outside : s.activations = []) {pkt : RulePkt} (isSound : Sound pkt)
    (newId : pkt.ruleId ∉ s.engine.stacksRules.map Prod.fst) :
    Inv alloc numProc { s with engine := s.engine.processRulePkt alloc pkt } := by
  have idle := inv.idle (by simp [outside])
  obtain ⟨rules, ids, sound, same⟩ := inv.installed alive
  have holds := TRexEngine.holds_installAll alloc numProc ids
  rw [← same] at holds
  have isNew : pkt.ruleId ∉ rules.map RulePkt.ruleId :=
    fun mem => newId (holds.ids_perm.mem_iff.mpr mem)
  have holds' := holds.processRulePkt isNew alloc
  have engine := @RecursiveEngine.toTRexEngine_processRulePkt alloc s.engine pkt
  have contents := @RecursiveEngine.contents_processRulePkt alloc s.engine pkt
  obtain ⟨initial, empty⟩ := inv.absent alive _ newId
  have rule : ∀ e ∈ (s.engine.processRulePkt alloc pkt).stacksRules,
      e = (pkt.ruleId, StacksRule.new pkt) ∨ e ∈ s.engine.stacksRules := by
    intro e mem
    rw [engine] at mem
    exact OrdMap.mem_of_mem_insert mem
  have keys : ((s.engine.processRulePkt alloc pkt).stacksRules.map Prod.fst).Perm
      (s.engine.stacksRules.map Prod.fst ++ [pkt.ruleId]) := by
    rw [engine]
    exact holds'.ids_perm.trans (holds.ids_perm.symm.append_right _)
  have slotList_perm :
      ({ s with engine := s.engine.processRulePkt alloc pkt } : Machine).slotList.Perm
      s.slotList := by
    refine (keys.flatMap_right s.slots).trans ?_
    rw [List.flatMap_append, List.flatMap_singleton, empty, List.append_nil]
    exact List.Perm.refl _
  have owned_eq : ({ s with engine := s.engine.processRulePkt alloc pkt } : Machine).owned =
      s.owned := by
    rw [owned_of_idle idle]
    exact owned_of_idle idle
  refine ⟨fun _ => ⟨rules ++ [pkt], ?_, ?_, ?_⟩, inv.inCall, fun e mem => ?_, fun _ id notIn => ?_,
    fun e mem resting => ?_, fun w => .inl (congrFun idle w), ?_, ?_⟩
  · rw [List.map_append, List.nodup_append]
    refine ⟨ids, List.nodup_singleton _, fun id mem id' mem' same => isNew ?_⟩
    rw [← List.mem_singleton.mp mem', ← same]
    exact mem
  · exact List.forall_mem_append.mpr ⟨sound, List.forall_mem_singleton.mpr isSound⟩
  · rw [TRexEngine.installAll_concat, ← same]
    exact engine
  · rw [contents]
    rcases rule e mem with rfl | old
    · rw [initial]
      exact ⟨Stacks.inv_initial, fun i _ => rfl⟩
    · exact inv.stacksInv e old
  · rw [contents]
    refine inv.absent alive id fun mem => notIn ?_
    exact keys.mem_iff.mpr (List.mem_append_left _ mem)
  · rw [contents]
    rcases rule e mem with rfl | old
    · rw [initial, empty]
      have nothing : (StacksRule.new pkt).held .initial = [] := by
        simp [StacksRule.held, Stacks.initial, Column.empty]
      rw [nothing]
      exact List.Perm.refl _
    · exact inv.slots e old resting
  · rw [owned_eq]
    exact inv.nodup
  · obtain ⟨h, memory, exact⟩ := inv.exact
    refine ⟨h, memory, ?_⟩
    rw [owned_eq]
    exact exact.perm (slotList_perm.symm.append_left s.owned)

/-! ## Steps of the workers -/

/-- While the workers are busy, their call owns the packet. -/
theorem mem_owned {ptr : PubPktPtr} {below : List Activation}
    (top : s.activations = .working ptr :: below) : ptr.addr ∈ s.owned := by
  refine List.mem_append_left _ ?_
  rw [top]
  exact List.mem_cons_self

/-- What the workers own when one of them has changed. -/
theorem count_owned_setWorker {w : Nat} (lt : w < s.engine.numProc) (worker : Worker) (a : Nat) :
    (s.setWorker w worker).owned.count a + (s.workers w).owned.count a =
      s.owned.count a + worker.owned.count a := by
  have mem := List.mem_range.mpr lt
  have before := flatMap_update_perm List.nodup_range mem (fun w => (s.workers w).owned)
    (s.workers w).owned
  rw [Function.update_eq_self] at before
  have after := flatMap_update_perm List.nodup_range mem (fun w => (s.workers w).owned) worker.owned
  have same : Function.update (fun w => (s.workers w).owned) w worker.owned =
      fun w' => (Function.update s.workers w worker w').owned :=
    (Function.comp_update Worker.owned s.workers w worker).symm
  rw [same] at after
  have count := before.count_eq a
  have count' := after.count_eq a
  simp only [owned, setWorker, List.count_append] at count count' ⊢
  omega

/-- The worker of a rule is the only one that can be inside a call on it. -/
theorem Inv.only {w w' : Nat} {ids : List Nat} (holds : s.engine.Holds numProc ids) {id : Nat}
    (inRange : s.engine.InRange w id) (inRange' : s.engine.InRange w' id) : w = w' :=
  (holds.owner_eq inRange).symm.trans (holds.owner_eq inRange')

/-- A worker that is not idle, with the call it works for. -/
theorem Inv.working (inv : s.Inv alloc numProc) {w : Nat} (busy : s.workers w ≠ .idle) :
    ∃ ptr below ids, s.activations = .working ptr :: below ∧
      (s.workers w).Inv s.engine.toTRexEngine ptr s.slots w ∧ s.engine.Holds numProc ids := by
  rcases inv.workers w with idle | ⟨ptr, below, top, worker⟩
  · exact absurd idle busy
  · obtain ⟨ids, holds⟩ := inv.holds (inv.inCall (by simp [top]))
    exact ⟨ptr, below, ids, top, worker, holds⟩

theorem Inv.inRange (inv : s.Inv alloc numProc) {w : Nat} {running : Running}
    (current : (s.workers w).current = some running) : s.engine.InRange w running.rule := by
  rcases inv.workers w with idle | ⟨ptr, below, -, worker⟩
  · rw [idle] at current
    cases current
  · exact (worker.current running current).1

theorem owned_setWorker_perm {w : Nat} (lt : w < s.engine.numProc) {worker : Worker}
    {more : List Nat} (grown : worker.owned.Perm ((s.workers w).owned ++ more)) :
    (s.setWorker w worker).owned.Perm (s.owned ++ more) := by
  refine List.perm_iff_count.mpr fun a => ?_
  have count := count_owned_setWorker lt worker a
  have count' := grown.count_eq a
  rw [List.count_append] at count' ⊢
  omega

/-- The other workers' part of the invariant when one worker has changed. -/
theorem Inv.workers_setWorker (inv : s.Inv alloc numProc) {ptr : PubPktPtr}
    {below : List Activation} (top : s.activations = .working ptr :: below) {w : Nat}
    {worker : Worker} {slots : Nat → List Nat}
    (here : worker.Inv s.engine.toTRexEngine ptr slots w)
    (elsewhere : ∀ w', w' ≠ w → ∀ running, (s.workers w').current = some running →
      slots running.rule = s.slots running.rule) (w' : Nat) :
    Function.update s.workers w worker w' = .idle ∨ ∃ ptr below,
      s.activations = .working ptr :: below ∧
        (Function.update s.workers w worker w').Inv s.engine.toTRexEngine ptr slots w' := by
  rcases eq_or_ne w' w with rfl | ne
  · rw [Function.update_self]
    exact .inr ⟨ptr, below, top, here⟩
  rw [Function.update_of_ne ne]
  rcases inv.workers w' with idle | ⟨ptr', below', top', other⟩
  · exact .inl idle
  refine .inr ⟨ptr', below', top', other.calls, fun running current => ?_⟩
  rw [elsewhere w' ne running current]
  exact other.current running current

/-- A rule that rests once a worker has changed rested before, unless the worker was inside a call
on it. -/
theorem Resting.of_setWorker {w id : Nat} {worker : Worker}
    (resting : (s.setWorker w worker).Resting id)
    (here : ∀ running, (s.workers w).current = some running → running.rule ≠ id) :
    s.Resting id := by
  intro w' running current
  rcases eq_or_ne w' w with rfl | ne
  · exact here running current
  · apply resting w' running
    simp only [setWorker, Function.update_of_ne ne]
    exact current

theorem addrs_zipWith {addresses : List Nat} {pkts : List PubPkt}
    (one_each : addresses.length = pkts.length) :
    addrs (List.zipWith PubPktPtr.mk addresses pkts) = addresses := by
  induction addresses generalizing pkts with
  | nil => rfl
  | cons a rest ih =>
      cases pkts with
      | nil => cases one_each
      | cons pkt more => exact congrArg (a :: ·) (ih (Nat.succ.inj one_each))

/-- What a call does, as the engine sees it and as the rule does. -/
theorem act_eq {t : TRexEngine} {x : Nat × Call} {r : StacksRule} (found : t.ruleOf x.1 = some r)
    {st : Stacks} {addresses : List Nat} (wild : Reading → Nat)
    (one_each : addresses.length = (t.system.act x st).2.length) :
    (t.system.act x st).1 = r.step st x.2 ∧
      created (r.accesses st wild addresses x.2) =
        addrs (List.zipWith PubPktPtr.mk addresses (t.system.act x st).2) := by
  rw [addrs_zipWith one_each, StacksRule.created_accesses]
  obtain ⟨id, call⟩ := x
  simp only [TRexEngine.system, found] at one_each ⊢
  cases call with
  | startComputation p => exact ⟨rfl, rfl⟩
  | addToStack p i => exact ⟨rfl, (List.length_eq_zero_iff.mp one_each).symm⟩
  | addToNegationStack p i => exact ⟨rfl, (List.length_eq_zero_iff.mp one_each).symm⟩
  | addToAggregateStack p i => exact ⟨rfl, (List.length_eq_zero_iff.mp one_each).symm⟩

theorem keeps_of_sound {r : StacksRule} (isSound : ∃ pkt, Sound pkt ∧ StacksRule.new pkt = r)
    {st : Stacks} (inv : st.Inv) (confined : r.Confined st) {call : Call} (made : r.Made call)
    (wild : Reading → Nat) (addresses : List Nat) :
    Keeps [call.pkt.addr] (addrs (r.held st)) (r.accesses st wild addresses call)
      (addrs (r.held (r.step st call))) := by
  obtain ⟨pkt, ⟨built, reads⟩, rfl⟩ := isSound
  exact StacksRule.keeps_accesses built reads inv confined made wild addresses

theorem Inv.call (inv : s.Inv alloc numProc) {w : Nat} {x : Nat × Call}
    {rest : List (Nat × Call)} {result : List PubPktPtr} {r : StacksRule} {wild : Reading → Nat}
    {addresses : List Nat} (worker : s.workers w = ⟨x :: rest, none, result⟩)
    (found : s.engine.ruleOf x.1 = some r)
    (one_each : addresses.length =
      (s.engine.system.act x (s.engine.contents.stacks x.1)).2.length) :
    Inv alloc numProc (s.setWorker w
      { calls := rest
        current := some
          { rule := x.1
            todo := r.accesses (s.engine.contents.stacks x.1) wild addresses x.2
            placed := []
            after := (s.engine.system.act x (s.engine.contents.stacks x.1)).1
            generated := List.zipWith PubPktPtr.mk addresses
              (s.engine.system.act x (s.engine.contents.stacks x.1)).2 }
        result }) := by
  obtain ⟨ptr, below, ids, top, workerInv, holds⟩ := inv.working (by rw [worker]; nofun)
  rw [worker] at workerInv
  obtain ⟨⟨isPkt, inRange, r', found', made⟩, later⟩ := List.forall_mem_cons.mp workerInv.calls
  obtain rfl : r = r' := Option.some.inj (found.symm.trans found')
  have isRule := mem_of_ruleOf holds found
  obtain ⟨stacksInv, confined⟩ := inv.stacksInv _ isRule
  obtain ⟨after, generated⟩ := act_eq found wild one_each
  have resting : s.Resting x.1 := by
    intro w' running current same
    have here := inv.inRange current
    rw [same] at here
    rw [Inv.only holds here inRange, worker] at current
    cases current
  have alive : s.alive = true := inv.inCall (by rw [top]; exact List.cons_ne_nil _ _)
  have keeps := keeps_of_sound (inv.exists_sound alive isRule) stacksInv confined made wild
    addresses
  rw [isPkt] at keeps
  have started := keeps.perm (inv.slots _ isRule resting).symm
  have ownedPerm := @owned_setWorker_perm s w inRange.1
    ⟨rest, some ⟨x.1, r.accesses (s.engine.contents.stacks x.1) wild addresses x.2, [],
      (s.engine.system.act x (s.engine.contents.stacks x.1)).1,
      List.zipWith PubPktPtr.mk addresses
        (s.engine.system.act x (s.engine.contents.stacks x.1)).2⟩, result⟩ []
    (by rw [worker, List.append_nil]; exact List.Perm.refl _)
  rw [List.append_nil] at ownedPerm
  refine ⟨inv.installed, inv.inCall, inv.stacksInv, inv.absent, fun e mem resting' => ?_,
    inv.workers_setWorker top ⟨later, fun running current => ?_⟩ (fun _ _ _ _ => rfl),
    ownedPerm.nodup_iff.mpr inv.nodup, ?_⟩
  · apply inv.slots e mem
    apply resting'.of_setWorker
    rw [worker]
    nofun
  · cases current
    rw [after]
    exact ⟨inRange, r, found, r.step_inv stacksInv made.valid,
      StacksRule.step_confined confined made,
      started, generated⟩
  · obtain ⟨h, memory, exact⟩ := inv.exact
    exact ⟨h, memory, exact.perm (ownedPerm.symm.append_right s.slotList)⟩

/-- The state after one access of a worker. -/
def accessed (s : Machine) (w : Nat) (calls : List (Nat × Call)) (running : Running)
    (result : List PubPktPtr) (access : Access Nat) (rest : List (Access Nat)) : Machine :=
  { s.setWorker w
      ⟨calls, some { running with
        todo := rest, placed := running.placed ++ access.created }, result⟩ with
    memory := s.perform [access]
    slots := Function.update s.slots running.rule (access.after (s.slots running.rule)) }

section Access

variable {w : Nat} {calls : List (Nat × Call)} {running : Running} {result : List PubPktPtr}
  {acc : Access Nat} {rest : List (Access Nat)}

theorem owned_accessed_perm (lt : w < s.engine.numProc)
    (worker : s.workers w = ⟨calls, some running, result⟩) :
    (s.accessed w calls running result acc rest).owned.Perm (s.owned ++ acc.created) := by
  refine @owned_setWorker_perm s w lt
    ⟨calls, some { running with todo := rest, placed := running.placed ++ acc.created }, result⟩
    acc.created ?_
  rw [worker]
  simp only [Worker.owned, Option.map_some, Option.getD_some]
  rw [List.append_assoc]

/-- The references of the rules other than the one accessed. -/
theorem slotList_accessed {ids : List Nat} (holds : s.engine.Holds numProc ids)
    (isRule : running.rule ∈ s.engine.stacksRules.map Prod.fst) :
    ∃ others, s.slotList.Perm (s.slots running.rule ++ others) ∧
      (s.accessed w calls running result acc rest).slotList.Perm
        (acc.after (s.slots running.rule) ++ others) := by
  have nodup := holds.sorted.nodup_keys
  have before := flatMap_update_perm nodup isRule s.slots (s.slots running.rule)
  rw [Function.update_eq_self] at before
  exact ⟨_, before, flatMap_update_perm nodup isRule s.slots _⟩

theorem slots_accessed : (s.accessed w calls running result acc rest).slots running.rule =
    acc.after (s.slots running.rule) := Function.update_self _ _ _

/-- A packet that is created belongs to no call yet. -/
theorem Inv.nodup_created (inv : s.Inv alloc numProc) (fresh : ∀ a, acc = .new a → s.Fresh a) :
    (s.owned ++ acc.created).Nodup := by
  obtain ⟨h, memory, exact⟩ := inv.exact
  cases acc with
  | new a =>
      have absent := exact.eq_none_iff.mp (fresh a rfl h memory)
      refine List.nodup_append.mpr ⟨inv.nodup, List.nodup_singleton a, ?_⟩
      intro b mem b' mem' same
      rw [List.mem_singleton.mp mem'] at same
      exact absent (same ▸ List.mem_append_left _ mem)
  | read a => exact (List.append_nil s.owned).symm ▸ inv.nodup
  | inc a => exact (List.append_nil s.owned).symm ▸ inv.nodup
  | dec a => exact (List.append_nil s.owned).symm ▸ inv.nodup

/-- The access finds its packet, and the counters stay exact. -/
theorem Inv.exact_accessed (inv : s.Inv alloc numProc) {ids : List Nat}
    (holds : s.engine.Holds numProc ids) (lt : w < s.engine.numProc)
    (isRule : running.rule ∈ s.engine.stacksRules.map Prod.fst) {ptr : PubPktPtr}
    (lent : ptr.addr ∈ s.owned) (worker : s.workers w = ⟨calls, some running, result⟩)
    (allowed : acc.Allowed [ptr.addr] (s.slots running.rule))
    (fresh : ∀ a, acc = .new a → s.Fresh a)
    (few : (s.accessed w calls running result acc rest).FewSlots) :
    ∃ h, s.perform [acc] = some h ∧ Exact countValues h
      ((s.accessed w calls running result acc rest).owned ++
        (s.accessed w calls running result acc rest).slotList) := by
  obtain ⟨h, memory, exact⟩ := inv.exact
  have ownedPerm := @owned_accessed_perm s w calls running result acc rest lt worker
  obtain ⟨others, before, after⟩ := @slotList_accessed numProc s w calls running result acc rest
    ids holds isRule
  have total : ∀ a, ((s.owned ++ others) ++
      (acc.created ++ acc.after (s.slots running.rule))).count a =
        ((s.accessed w calls running result acc rest).owned ++
          (s.accessed w calls running result acc rest).slotList).count a := by
    intro a
    have one := ownedPerm.count_eq a
    have two := after.count_eq a
    simp only [List.count_append] at one two ⊢
    omega
  have room : ∀ a, ((s.owned ++ others) ++
      (acc.created ++ acc.after (s.slots running.rule))).count a < countValues := by
    intro a
    have once := List.nodup_iff_count_le_one.mp
      (ownedPerm.nodup_iff.mpr (inv.nodup_created fresh)) a
    have fewer := few a
    rw [total a, List.count_append, show countValues = 65536 from rfl]
    omega
  have lentByOthers : ∀ a ∈ [ptr.addr], a ∈ s.owned ++ others := by
    intro a mem
    obtain rfl := List.mem_singleton.mp mem
    exact List.mem_append_left _ lent
  have parts : (s.owned ++ s.slotList).Perm ((s.owned ++ others) ++ s.slots running.rule) := by
    rw [List.append_assoc]
    exact (before.trans List.perm_append_comm).append_left _
  obtain ⟨h', done, exact'⟩ := (exact.perm parts).on allowed lentByOthers
    (fun a same => fresh a same h memory) room
  exact ⟨h', perform_singleton memory done, exact'.perm (List.perm_iff_count.mpr total)⟩

theorem Inv.access (inv : s.Inv alloc numProc)
    (worker : s.workers w = ⟨calls, some running, result⟩) (next : running.todo = acc :: rest)
    (fresh : ∀ a, acc = .new a → s.Fresh a)
    (few : (s.accessed w calls running result acc rest).FewSlots) :
    (s.accessed w calls running result acc rest).Inv alloc numProc := by
  obtain ⟨ptr, below, ids, top, workerInv, holds⟩ := inv.working (by rw [worker]; nofun)
  rw [worker] at workerInv
  obtain ⟨inRange, r, found, afterInv, confined, keeps, generated⟩ := workerInv.current running rfl
  rw [next] at keeps generated
  obtain ⟨allowed, later⟩ := keeps
  have isKey : running.rule ∈ s.engine.stacksRules.map Prod.fst :=
    List.mem_map_of_mem (mem_of_ruleOf holds found)
  have ownedPerm := @owned_accessed_perm s w calls running result acc rest inRange.1 worker
  refine ⟨inv.installed, inv.inCall, inv.stacksInv, fun alive id notIn => ?_,
    fun e mem resting => ?_, inv.workers_setWorker top ⟨workerInv.calls, fun running' current => ?_⟩
      (fun w' ne running' current => ?_), ownedPerm.nodup_iff.mpr (inv.nodup_created fresh),
    inv.exact_accessed holds inRange.1 isKey (mem_owned top) worker allowed fresh few⟩
  · have other : id ≠ running.rule := by
      rintro rfl
      exact notIn isKey
    simp only [accessed, Function.update_of_ne other]
    exact inv.absent alive id notIn
  · have other : e.1 ≠ running.rule := by
      intro same
      refine resting w { running with todo := rest, placed := running.placed ++ acc.created } ?_
        same.symm
      simp only [accessed, setWorker, Function.update_self]
    simp only [accessed, Function.update_of_ne other]
    apply inv.slots e mem
    apply Resting.of_setWorker resting
    rw [worker]
    intro running' current
    cases current
    exact other.symm
  · cases current
    refine ⟨inRange, r, found, afterInv, confined, slots_accessed ▸ later, ?_⟩
    rw [List.append_assoc]
    exact generated
  · -- another worker is inside a call on another rule
    refine Function.update_of_ne (fun same => ne ?_) _ _
    have here := inv.inRange current
    rw [same] at here
    exact Inv.only holds here inRange

theorem Inv.endCall (inv : s.Inv alloc numProc)
    (worker : s.workers w = ⟨calls, some running, result⟩) (done : running.todo = []) :
    ((s.setStacks running.rule running.after).setWorker w
      ⟨calls, none, result ++ running.generated⟩).Inv alloc numProc := by
  obtain ⟨ptr, below, ids, top, workerInv, holds⟩ := inv.working (by rw [worker]; nofun)
  rw [worker] at workerInv
  obtain ⟨inRange, r, found, afterInv, confined, keeps, generated⟩ := workerInv.current running rfl
  rw [done] at keeps generated
  rw [created_nil, List.append_nil] at generated
  have isRule := mem_of_ruleOf holds found
  have isKey : running.rule ∈ s.engine.stacksRules.map Prod.fst := List.mem_map_of_mem isRule
  have same_rule : ∀ e ∈ s.engine.stacksRules, e.1 = running.rule → e.2 = r := by
    intro e mem same
    have found' := (OrdMap.find?_eq_some TRexEngine.idLt_iff holds.sorted).mpr mem
    rw [same] at found'
    exact Option.some.inj (found'.symm.trans found)
  have ownedPerm := @owned_setWorker_perm s w inRange.1
    ⟨calls, none, result ++ running.generated⟩ [] (by
      rw [worker, List.append_nil]
      simp only [Worker.owned, addrs_append, Option.map_none, Option.getD_none, List.append_nil,
        Option.map_some, Option.getD_some, generated]
      exact List.Perm.refl _)
  rw [List.append_nil] at ownedPerm
  refine ⟨inv.installed, inv.inCall, fun e mem => ?_, fun alive id notIn => ?_,
    fun e mem resting => ?_, inv.workers_setWorker top ⟨workerInv.calls, nofun⟩
      (fun _ _ _ _ => rfl), ownedPerm.nodup_iff.mpr inv.nodup, ?_⟩
  · simp only [setWorker, setStacks]
    rcases eq_or_ne e.1 running.rule with same | ne
    · rw [same, Function.update_self, same_rule e mem same]
      exact ⟨afterInv, confined⟩
    · rw [Function.update_of_ne ne]
      exact inv.stacksInv e mem
  · have other : id ≠ running.rule := by
      rintro rfl
      exact notIn isKey
    simp only [setWorker, setStacks, Function.update_of_ne other]
    exact inv.absent alive id notIn
  · simp only [setWorker, setStacks]
    rcases eq_or_ne e.1 running.rule with same | ne
    · rw [same, Function.update_self, same_rule e mem same]
      exact keeps
    · rw [Function.update_of_ne ne]
      apply inv.slots e mem
      apply Resting.of_setWorker resting
      intro running' current
      simp only [setStacks, worker] at current
      cases current
      exact ne.symm
  · obtain ⟨h, memory, exact⟩ := inv.exact
    exact ⟨h, memory, exact.perm (ownedPerm.symm.append_right s.slotList)⟩

end Access

/-! ## Runs -/

theorem Inv.step {s' : Machine} (inv : s.Inv alloc numProc) (step : Step alloc Sound s s')
    (few : s'.FewSlots) : s'.Inv alloc numProc := by
  cases step with
  | processRulePkt admitted alive outside newId =>
      exact inv.processRulePkt alive outside admitted newId
  | processPubPkt alive outside fresh =>
      exact (inv.withDepth 0).enter alive (inv.idle (by simp [outside])) fresh fun h _ => rfl
  | call worker found one_each => exact inv.call worker found one_each
  | missing worker notFound =>
      obtain ⟨ptr, below, ids, -, workerInv, -⟩ := inv.working (by rw [worker]; nofun)
      rw [worker] at workerInv
      obtain ⟨-, -, r, found, -⟩ := workerInv.calls _ List.mem_cons_self
      cases notFound.symm.trans found
  | access worker next fresh => exact inv.access worker next fresh few
  | endCall worker done => exact inv.endCall worker done
  | collect top done all => exact inv.collect top done all
  | feed top needed fresh => exact inv.feed top fresh
  | release top fedBack => exact inv.release top
  | return_ top => exact inv.return_ top
  | destroy alive outside => exact inv.destroy outside

/-- What holds of the counters in one state. -/
structure Counted (s : Machine) (h : Heap Nat) : Prop where
  /-- Every counter is the number of references, and a packet without any is deleted. -/
  counters : ∀ a, h a = if s.references a = 0 then none else some (s.references a)
  /-- The references besides the one of a call are the slots of all stacks. -/
  slots : (∀ w, (s.workers w).current = none) →
    s.slotList.Perm (addrs (s.engine.toTRexEngine.held s.engine.contents.stacks))
  /-- A call that is under way finds the packet that it uses next. -/
  found : ∀ w running access, (s.workers w).current = some running →
    running.todo.head? = some access → (access.on countValues h).isSome = true

theorem Inv.counted (inv : s.Inv alloc numProc) : ∃ h, s.memory = some h ∧ s.Counted h := by
  obtain ⟨h, memory, exact⟩ := inv.exact
  refine ⟨h, memory, fun a => ?_, inv.slotList_perm, fun w running access current next => ?_⟩
  · have total : (s.owned ++ s.slotList).count a = s.references a := by
      rw [List.count_append, references, Nat.add_comm, inv.nodup.count]
    rw [(exact a).2, total]
  · obtain ⟨ptr, below, ids, top, workerInv, holds⟩ := inv.working (w := w) (by
      intro idle
      rw [idle] at current
      cases current)
    obtain ⟨-, r, found, -, -, keeps, -⟩ := workerInv.current running current
    obtain ⟨rest, todo⟩ := List.head?_eq_some_iff.mp next
    rw [todo] at keeps
    have isRule := mem_of_ruleOf holds found
    refine exact.isSome_on keeps.1 fun a mem => ?_
    rcases mem with inSlot | lent
    · refine List.mem_append_right _ (List.mem_flatMap.mpr ⟨running.rule, ?_, inSlot⟩)
      exact List.mem_map_of_mem isRule
    · rw [List.mem_singleton.mp lent]
      exact List.mem_append_left _ (mem_owned top)

end Machine

/-- In every state of every run with rules that read assigned slots only, every counter is the
number of slots that hold the packet plus one for the call that owns it, the packets that exist are
those with such a reference, and no access has met or meets next a packet that does not exist. -/
theorem referenceCount_exact {alloc : Nat → Nat} {numProc : Nat} {s : Machine}
    (reachable : Reachable alloc Sound numProc s) : ∃ h, s.memory = some h ∧ s.Counted h := by
  have inv : s.Inv alloc numProc := by
    induction reachable with
    | initial => exact Machine.inv_initial alloc numProc
    | step before step few ih => exact ih.step step few
  exact inv.counted

/-! ## Runs of one rule

One worker, one rule with the id 0, and packets whose computations generate nothing. -/

section OneRule

def Machine.oneRule (e : RecursiveEngine) (slots : List Nat) (memory : Option (Heap Nat))
    (activations : List Activation) (worker : Worker) : Machine where
  engine := e
  alive := true
  slots := Function.update (fun _ => []) 0 slots
  memory := memory
  activations := activations
  workers := Function.update (fun _ => .idle) 0 worker

/-- The engine with the stacks that a call on the rule leaves. -/
def withStacks (e : RecursiveEngine) (st : Stacks) : RecursiveEngine :=
  { e with contents := { e.contents with «stacks» := Function.update e.contents.stacks 0 st } }

variable {alloc : Nat → Nat} {Admitted : RulePkt → Prop} {e : RecursiveEngine} {slots : List Nat}
  {memory : Option (Heap Nat)} {ptr : PubPktPtr} {call : Call} {r : StacksRule} {after : Stacks}
  {acts : List Activation} {worker : Worker}

theorem fewSlots_oneRule (keys : e.stacksRules.map Prod.fst = [0]) (few : slots.length < 65535) :
    (Machine.oneRule e slots memory acts worker).FewSlots := by
  have slotList : (Machine.oneRule e slots memory acts worker).slotList = slots := by
    show (e.stacksRules.map Prod.fst).flatMap (Function.update (fun _ => []) 0 slots) = slots
    rw [keys, List.flatMap_singleton, Function.update_self]
  intro a
  rw [slotList]
  exact Nat.lt_of_le_of_lt List.count_le_length few

theorem Reachable.install {pkt : RulePkt} (admitted : Admitted pkt) :
    Reachable alloc Admitted 1 (.oneRule ((RecursiveEngine.finalize 1).processRulePkt alloc pkt) []
      (some fun _ => none) [] .idle) := by
  have step := @Step.processRulePkt alloc Admitted (.initial 1) pkt admitted rfl rfl
    List.not_mem_nil
  have installed := (@Reachable.initial alloc Admitted 1).step step fun a => by
    have nothing : ∀ ids : List Nat, (ids.flatMap fun _ => ([] : List Nat)) = [] :=
      fun ids => List.flatMap_eq_nil_iff.mpr fun _ _ => rfl
    simp [Machine.slotList, Machine.initial, nothing]
  unfold Machine.oneRule
  rw [Function.update_eq_self 0 fun _ => ([] : List Nat),
    Function.update_eq_self 0 fun _ => Worker.idle]
  exact installed

/-- Publication of a packet, for which the worker begins its only call. -/
theorem Reachable.begin (reachable : Reachable alloc Admitted 1 (.oneRule e slots memory [] .idle))
    (ptr : PubPktPtr) (call : Call) (wild : Reading → Nat)
    (keys : e.stacksRules.map Prod.fst = [0]) (alone : e.numProc = 1)
    (few : slots.length < 65535) (found : e.ruleOf 0 = some r)
    (fresh : ∀ h, memory = some h → h ptr.addr = none)
    (calls : e.workerCalls (e.indexingTable.processMessage ptr.pkt .empty) ptr 0 = [(0, call)])
    (silent : (e.system.act (0, call) (e.contents.stacks 0)).2 = []) :
    Reachable alloc Admitted 1 (.oneRule { e with recursionDepth := 0 } slots
      (memory.bind fun h => exec countValues h [.new ptr.addr, .read ptr.addr]) [.working ptr]
      ⟨[], some ⟨0, r.accesses (e.contents.stacks 0) wild [] call, [],
        (e.system.act (0, call) (e.contents.stacks 0)).1, []⟩, []⟩) := by
  have workers : (fun w => (⟨e.workerCalls (e.indexingTable.processMessage ptr.pkt .empty) ptr w,
      none, []⟩ : Worker)) = Function.update (fun _ => .idle) 0 ⟨[(0, call)], none, []⟩ := by
    funext w
    rcases eq_or_ne w 0 with rfl | other
    · rw [Function.update_self, calls]
    · have none : e.workerCalls (e.indexingTable.processMessage ptr.pkt .empty) ptr w = [] :=
        if_neg (by omega)
      rw [Function.update_of_ne other, none]
      rfl
  have published : Reachable alloc Admitted 1 (.oneRule { e with recursionDepth := 0 } slots
      (memory.bind fun h => exec countValues h [.new ptr.addr, .read ptr.addr]) [.working ptr]
      ⟨[(0, call)], none, []⟩) := by
    refine reachable.step ?_ (fewSlots_oneRule keys few)
    unfold Machine.oneRule
    rw [← workers]
    exact .processPubPkt rfl rfl fresh
  refine published.step ?_ (fewSlots_oneRule keys few)
  have begun := @Step.call alloc Admitted (.oneRule { e with recursionDepth := 0 } slots
    (memory.bind fun h => exec countValues h [.new ptr.addr, .read ptr.addr]) [.working ptr]
    ⟨[(0, call)], none, []⟩) 0 (0, call) [] [] r wild [] rfl found
    (congrArg List.length silent).symm
  simp only [Machine.setWorker, Machine.oneRule, Function.update_idem, List.zipWith_nil_left]
    at begun
  exact begun

theorem length_after_le (accesses : List (Access Nat)) (slots : List Nat) :
    (accesses.foldl (fun slots access => access.after slots) slots).length ≤
      slots.length + accesses.length := by
  induction accesses generalizing slots with
  | nil => exact le_rfl
  | cons access rest ih =>
      have more : (access.after slots).length ≤ slots.length + 1 := by
        cases access with
        | dec a => exact (List.length_erase_le).trans (Nat.le_succ _)
        | _ => simp [Access.after]
      have later := ih (access.after slots)
      rw [List.foldl_cons, List.length_cons]
      omega

theorem Reachable.accesses_append {done rest : List (Access Nat)}
    (reachable : Reachable alloc Admitted 1 (.oneRule e slots memory acts
      ⟨[], some ⟨0, done ++ rest, [], after, []⟩, []⟩))
    (keys : e.stacksRules.map Prod.fst = [0]) (nothing : created done = [])
    (few : slots.length + done.length < 65535) :
    Reachable alloc Admitted 1 (.oneRule e
      (done.foldl (fun slots access => access.after slots) slots)
      (memory.bind fun h => exec countValues h done) acts
      ⟨[], some ⟨0, rest, [], after, []⟩, []⟩) := by
  induction done generalizing slots memory with
  | nil => simpa [exec] using reachable
  | cons access done ih =>
      rw [created_cons, List.append_eq_nil_iff] at nothing
      rw [List.length_cons] at few
      have more := length_after_le [access] slots
      simp only [List.foldl_cons, List.foldl_nil, List.length_singleton] at more
      have next : Reachable alloc Admitted 1 (.oneRule e (access.after slots)
          (memory.bind fun h => exec countValues h [access]) acts
          ⟨[], some ⟨0, done ++ rest, [], after, []⟩, []⟩) := by
        refine reachable.step ?_ (fewSlots_oneRule keys (by omega))
        have step := @Step.access alloc Admitted (.oneRule e slots memory acts
          ⟨[], some ⟨0, access :: done ++ rest, [], after, []⟩, []⟩) 0 [] _ [] access (done ++ rest)
          rfl rfl (by rintro a rfl; cases nothing.1)
        simp only [Machine.setWorker, Machine.oneRule, Function.update_idem, Function.update_self,
          nothing.1, List.append_nil] at step
        exact step
      have later := ih next nothing.2 (by omega)
      rw [List.foldl_cons]
      rw [Option.bind_assoc] at later
      simpa [exec] using later

/-- The worker makes the next accesses. -/
theorem Reachable.accesses {todo : List (Access Nat)} (reachable : Reachable alloc Admitted 1
      (.oneRule e slots memory acts ⟨[], some ⟨0, todo, [], after, []⟩, []⟩))
    (n : Nat) (keys : e.stacksRules.map Prod.fst = [0]) (nothing : created (todo.take n) = [])
    (few : slots.length + (todo.take n).length < 65535) :
    Reachable alloc Admitted 1 (.oneRule e
      ((todo.take n).foldl (fun slots access => access.after slots) slots)
      (memory.bind fun h => exec countValues h (todo.take n)) acts
      ⟨[], some ⟨0, todo.drop n, [], after, []⟩, []⟩) := by
  rw [← List.take_append_drop n todo] at reachable
  exact reachable.accesses_append keys nothing few

/-- The call ends, and with it the publication. -/
theorem Reachable.finish (reachable : Reachable alloc Admitted 1 (.oneRule e slots memory
      [.working ptr] ⟨[], some ⟨0, [], [], after, []⟩, []⟩))
    (keys : e.stacksRules.map Prod.fst = [0]) (few : slots.length < 65535) :
    Reachable alloc Admitted 1 (.oneRule (withStacks e after) slots
      (memory.bind fun h => exec countValues h [.dec ptr.addr]) [] .idle) := by
  have idle : Function.update (fun _ => Worker.idle) 0 .idle = fun _ => .idle :=
    Function.update_eq_self _ _
  have returned : Reachable alloc Admitted 1 (.oneRule (withStacks e after) slots memory
      [.working ptr] .idle) := by
    refine reachable.step ?_ (fewSlots_oneRule keys few)
    have step := @Step.endCall alloc Admitted (.oneRule e slots memory [.working ptr]
      ⟨[], some ⟨0, [], [], after, []⟩, []⟩) 0 [] _ [] rfl rfl
    simp only [Machine.setWorker, Machine.setStacks, Machine.oneRule, Function.update_idem,
      List.append_nil] at step
    exact step
  have collected : Reachable alloc Admitted 1 (.oneRule (withStacks e after) slots
      (memory.bind fun h => exec countValues h [.dec ptr.addr]) [.delivering [] false] .idle) := by
    refine returned.step ?_ (fewSlots_oneRule keys few)
    unfold Machine.oneRule
    rw [idle]
    have nothing : ((List.range e.numProc).flatMap fun _ => Worker.idle.result) = [] :=
      List.flatMap_eq_nil_iff.mpr fun _ _ => rfl
    exact @Step.collect alloc Admitted
      ⟨withStacks e after, true, _, memory, [.working ptr], fun _ => .idle⟩ ptr [] [] rfl
      (fun _ => ⟨rfl, rfl⟩) (List.Perm.of_eq nothing.symm)
  exact collected.step (.return_ rfl) (fewSlots_oneRule keys few)

/-- A whole publication. -/
theorem Reachable.publish
    (reachable : Reachable alloc Admitted 1 (.oneRule e slots memory [] .idle))
    (ptr : PubPktPtr) (call : Call) (wild : Reading → Nat)
    (keys : e.stacksRules.map Prod.fst = [0]) (alone : e.numProc = 1)
    (found : e.ruleOf 0 = some r) (fresh : ∀ h, memory = some h → h ptr.addr = none)
    (calls : e.workerCalls (e.indexingTable.processMessage ptr.pkt .empty) ptr 0 = [(0, call)])
    (silent : (e.system.act (0, call) (e.contents.stacks 0)).2 = []) {accesses : List (Access Nat)}
    (made : r.accesses (e.contents.stacks 0) wild [] call = accesses)
    (nothing : created accesses = []) (few : slots.length + accesses.length < 65535) :
    Reachable alloc Admitted 1 (.oneRule
      (withStacks { e with recursionDepth := 0 }
        (e.system.act (0, call) (e.contents.stacks 0)).1)
      (accesses.foldl (fun slots access => access.after slots) slots)
      (memory.bind fun h =>
        exec countValues h (.new ptr.addr :: .read ptr.addr :: (accesses ++ [.dec ptr.addr])))
      [] .idle) := by
  have begun := reachable.begin ptr call wild keys alone (by omega) found fresh calls silent
  rw [made, ← List.append_nil accesses] at begun
  have less := length_after_le accesses slots
  have done := (begun.accesses_append keys nothing few).finish keys (by omega)
  simpa [exec, Option.bind_assoc] using done

end OneRule

/-! A rule that reads the area of the temperature once a temperature has been assigned, and one that
reads it before. -/

theorem rainBetween_sound : Sound RulePkt.rainBetween :=
  ⟨RulePkt.rainBetween_built,
    RulePkt.rainBetween_readsSoundly.readsAssignedSlots RulePkt.rainBetween_inRange
      RulePkt.rainBetween_built⟩

/-- A temperature, rain in its area, and smoke, up to the point where the rule reads the area of the
temperature: one reference for its slot, and two for the smoke, which the call still owns. -/
theorem temperature_counted : ∃ s h, Reachable id Sound 1 s ∧ s.memory = some h ∧ h 7 = some 1 ∧
    h 4 = some 2 ∧ s.Counted h := by
  have installed := @Reachable.install id Sound RulePkt.rainBetween rainBetween_sound
  have first := installed.publish (reading 7 2 60) (.addToStack (reading 7 2 60) 1) (fun _ => 0)
    rfl rfl rfl (fun h same => Option.some.inj same ▸ rfl) rfl rfl rfl rfl (by decide)
  have second := first.publish (reading 3 3 70) (.addToNegationStack (reading 3 3 70) 0)
    (fun _ => 0) rfl rfl rfl (fun h same => Option.some.inj same ▸ rfl) rfl rfl rfl rfl (by decide)
  have begun := second.begin (reading 4 1 100) (.startComputation (reading 4 1 100)) (fun _ => 0)
    rfl rfl (by decide) rfl (fun h same => Option.some.inj same ▸ rfl) rfl rfl
  have searched := begun.accesses 14 rfl rfl (by decide)
  obtain ⟨h, memory, counted⟩ := referenceCount_exact searched
  refine ⟨_, h, searched, memory, ?_, ?_, counted⟩
  · exact Option.some.inj memory ▸ rfl
  · exact Option.some.inj memory ▸ rfl

/-- A smoke that finds nothing and is deleted, rain, and another smoke. The slot of the temperature
still holds the address of the first one. -/
theorem referenceCount_inexact :
    ¬ ∀ s, Reachable id RulePkt.Built 1 s → ∃ h, s.memory = some h ∧ s.Counted h := by
  intro all
  have installed := @Reachable.install id RulePkt.Built RulePkt.rainBefore RulePkt.rainBefore_built
  have first := installed.publish (reading 5 1 10) (.startComputation (reading 5 1 10)) (fun _ => 5)
    rfl rfl rfl (fun h same => Option.some.inj same ▸ rfl) rfl rfl rfl rfl (by decide)
  have second := first.publish (reading 3 3 50) (.addToNegationStack (reading 3 3 50) 0)
    (fun _ => 5) rfl rfl rfl (fun h same => Option.some.inj same ▸ rfl) rfl rfl rfl rfl (by decide)
  have begun := second.begin (reading 4 1 100) (.startComputation (reading 4 1 100)) (fun _ => 5)
    rfl rfl (by decide) rfl (fun h same => Option.some.inj same ▸ rfl) rfl rfl
  obtain ⟨h, memory, -⟩ := all _ (begun.accesses 9 rfl rfl (by decide))
  cases memory

end Counting

end TRex
