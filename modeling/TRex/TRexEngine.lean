import TRex.IndexingTable
import TRex.StacksRule

/-!
# The engine and its rules

`Engine/TRexEngine`: installation of rules and the ranges of rule ids that the workers serve. Ids
come from the counter that every construction of a rule packet advances, ranges from the number of
rules installed. `History` puts both together: packets are constructed or copied and some of them
are installed. After such a history every installed rule is in the range of exactly one worker just
if no packet installed was constructed too late (`allServed_iff`).

The members that recursion needs (`inputEvents`, `outputEvents`, `recursionNeeded`,
`recursionDepth`) are added in `RecursiveProcessing`.
-/

namespace TRex

/-- The map of detection sequences, in the order of rule ids, the ranges of the workers and the
index. -/
structure TRexEngine where
  numProc : Nat
  stacksRules : List (Nat × StacksRule)
  lowerBound : Nat → Nat
  upperBound : Nat → Nat
  indexingTable : IndexingTable

namespace TRexEngine

/-- The order of the map's keys. -/
def idLt (i j : Nat) : Bool := decide (i < j)

/-- The loop that assigns the ranges. -/
def setBounds (engine : TRexEngine) : TRexEngine :=
  let size := engine.stacksRules.length / engine.numProc + 1
  { engine with
    lowerBound := fun i => size * i
    upperBound := fun i => size * (i + 1) }

/-- The constructor and `finalize`, before any rule. -/
def finalize (numProc : Nat) : TRexEngine :=
  setBounds { numProc, stacksRules := [], lowerBound := fun _ => 0, upperBound := fun _ => 0
              indexingTable := .empty }

def processRulePkt (alloc : Nat → Nat) (engine : TRexEngine) (pkt : RulePkt) : TRexEngine :=
  let stacksRules := OrdMap.insert idLt pkt.ruleId (StacksRule.new pkt) engine.stacksRules
  let engine := setBounds { engine with stacksRules }
  { engine with indexingTable := engine.indexingTable.installRulePkt alloc pkt }

/-- Worker `i` serves a rule id. -/
def InRange (engine : TRexEngine) (i ruleId : Nat) : Prop :=
  i < engine.numProc ∧ engine.lowerBound i ≤ ruleId ∧ ruleId < engine.upperBound i

instance (engine : TRexEngine) (i ruleId : Nat) : Decidable (engine.InRange i ruleId) :=
  inferInstanceAs (Decidable (_ ∧ _))

/-- Exactly one worker serves the rule id. -/
def Served (engine : TRexEngine) (ruleId : Nat) : Prop := ∃! i, engine.InRange i ruleId

/-- The ids that the ranges cover together. -/
def capacity (rulesNum numProc : Nat) : Nat := numProc * (rulesNum / numProc + 1)

/-- The worker in whose range an id is. -/
def owner (rulesNum numProc id : Nat) : Nat := id / (rulesNum / numProc + 1)

theorem div_eq_of_range {size i id : Nat} (above : size * i ≤ id) (below : id < size * (i + 1)) :
    id / size = i := by
  refine Nat.div_eq_of_lt_le ?_ ?_
  · exact Nat.mul_comm size i ▸ above
  · exact Nat.mul_comm size (i + 1) ▸ below

/-- The ranges tile the ids below the capacity. -/
theorem existsUnique_range_iff {size numProc : Nat} (pos : 0 < size) (id : Nat) :
    (∃! i, i < numProc ∧ size * i ≤ id ∧ id < size * (i + 1)) ↔ id < numProc * size := by
  constructor
  · rintro ⟨i, ⟨lt, -, below⟩, -⟩
    calc id < size * (i + 1) := below
      _ ≤ size * numProc := Nat.mul_le_mul_left size lt
      _ = numProc * size := Nat.mul_comm size numProc
  · intro below
    refine ⟨id / size, ⟨?_, Nat.mul_div_le id size, Nat.lt_mul_div_succ id pos⟩, ?_⟩
    · exact Nat.div_lt_of_lt_mul (Nat.mul_comm numProc size ▸ below)
    · intro i ⟨_, above, below'⟩
      exact (div_eq_of_range above below').symm

/-! ## Runs of installations -/

/-- What the engine knows of the rules installed. -/
structure Holds (engine : TRexEngine) (numProc : Nat) (ids : List Nat) : Prop where
  numProc_eq : engine.numProc = numProc
  sorted : OrdMap.Sorted engine.stacksRules
  ids_perm : (engine.stacksRules.map Prod.fst).Perm ids
  lower : ∀ i, engine.lowerBound i = (ids.length / numProc + 1) * i
  upper : ∀ i, engine.upperBound i = (ids.length / numProc + 1) * (i + 1)

theorem Holds.served_iff_lt {engine : TRexEngine} {numProc : Nat} {ids : List Nat}
    (holds : engine.Holds numProc ids) (id : Nat) :
    engine.Served id ↔ id < capacity ids.length numProc := by
  unfold Served InRange capacity
  simp only [holds.numProc_eq, holds.lower, holds.upper]
  exact existsUnique_range_iff (Nat.succ_pos _) id

theorem Holds.owner_eq {engine : TRexEngine} {numProc : Nat} {ids : List Nat}
    (holds : engine.Holds numProc ids) {w id : Nat} (inRange : engine.InRange w id) :
    owner ids.length numProc id = w := by
  obtain ⟨-, above, below⟩ := inRange
  rw [holds.lower] at above
  rw [holds.upper] at below
  exact div_eq_of_range above below

theorem idLt_iff (i j : Nat) : idLt i j = true ↔ i < j := decide_eq_true_iff

theorem holds_finalize (numProc : Nat) : (finalize numProc).Holds numProc [] :=
  ⟨rfl, OrdMap.Sorted.nil, List.Perm.refl _, fun _ => rfl, fun _ => rfl⟩

/-- Installation under a new id. -/
theorem Holds.processRulePkt {engine : TRexEngine} {numProc : Nat} {ids : List Nat}
    (holds : engine.Holds numProc ids) {pkt : RulePkt} (new : pkt.ruleId ∉ ids)
    (alloc : Nat → Nat) :
    (engine.processRulePkt alloc pkt).Holds numProc (ids ++ [pkt.ruleId]) := by
  have absent : ∀ e ∈ engine.stacksRules, e.1 ≠ pkt.ruleId := by
    intro e mem same
    exact new (holds.ids_perm.mem_iff.mp (same ▸ List.mem_map_of_mem mem))
  have sorted := OrdMap.sorted_insert (k := pkt.ruleId) (v := StacksRule.new pkt) idLt_iff
    holds.sorted
  have perm : ((OrdMap.insert idLt pkt.ruleId (StacksRule.new pkt) engine.stacksRules).map
      Prod.fst).Perm (ids ++ [pkt.ruleId]) := by
    refine (List.perm_ext_iff_of_nodup sorted.nodup_keys ?_).mpr fun id => ?_
    · rw [List.nodup_append]
      refine ⟨holds.ids_perm.nodup_iff.mp holds.sorted.nodup_keys, List.nodup_singleton _, ?_⟩
      intro id mem id' mem' same
      rw [List.mem_singleton.mp mem'] at same
      exact new (same ▸ mem)
    · rw [List.mem_append, ← holds.ids_perm.mem_iff, List.mem_singleton, List.mem_map,
        List.mem_map]
      constructor
      · rintro ⟨e, mem, rfl⟩
        rcases OrdMap.mem_of_mem_insert mem with rfl | old
        · exact .inr rfl
        · exact .inl ⟨e, old, rfl⟩
      · rintro (⟨e, mem, rfl⟩ | rfl)
        · exact ⟨e, (OrdMap.mem_insert idLt_iff holds.sorted).mpr (.inl mem), rfl⟩
        · exact ⟨(pkt.ruleId, StacksRule.new pkt),
            (OrdMap.mem_insert idLt_iff holds.sorted).mpr (.inr ⟨rfl, absent⟩), rfl⟩
  have length := perm.length_eq
  rw [List.length_map] at length
  refine ⟨holds.numProc_eq, sorted, perm, fun i => ?_, fun i => ?_⟩
  · show (_ / engine.numProc + 1) * i = _
    rw [length, holds.numProc_eq]
  · show (_ / engine.numProc + 1) * (i + 1) = _
    rw [length, holds.numProc_eq]

end TRexEngine

/-! ## Constructions and installations -/

/-- `RulePkt::copy`: the predicates and the template under the next id. It reads predicate 0 without
asking whether there is one. -/
def RulePkt.copy (pkt : RulePkt) (lastId : Nat) : Option (RulePkt × Nat) :=
  match pkt.predicates with
  | [] => none
  | root :: rest =>
    let (copy, lastId) := RulePkt.new false lastId
    let copy := (copy.addRootPredicate root.eventType root.constraints).getD copy
    let copy := rest.foldl (fun copy predicate =>
      (copy.addPredicate predicate.eventType predicate.constraints predicate.refersTo
        predicate.win predicate.kind).getD copy) copy
    some ({ copy with ceTemplate := pkt.ceTemplate }, lastId)

/-- What happens to rule packets, and to the engine that takes some of them. -/
inductive HistoryEvent
  /-- A packet is made directly or by `Unmarshaller::decodeRulePkt`, with any content. -/
  | construct (content : RulePkt)
  /-- The packet made as the `k`-th is copied. -/
  | copy (k : Nat)
  /-- The packet made as the `k`-th is given to `processRulePkt`, which deletes it. -/
  | install (k : Nat)

/-- The counter, the packets made so far (`none` once deleted) and the engine. -/
structure History where
  lastId : Nat
  packets : List (Option RulePkt)
  engine : TRexEngine

namespace History

def initial (numProc : Nat) : History :=
  { lastId := 0, packets := [], engine := TRexEngine.finalize numProc }

variable (alloc : Nat → Nat)

/-- One event; `none` where it uses a packet that does not exist. -/
def step (h : History) : HistoryEvent → Option History
  | .construct content =>
    let (pkt, lastId) := RulePkt.new false h.lastId
    some { h with lastId, packets := h.packets ++ [some { content with ruleId := pkt.ruleId }] }
  | .copy k =>
    match h.packets[k]? with
    | some (some pkt) => (pkt.copy h.lastId).map fun (copy, lastId) =>
        { h with lastId, packets := h.packets ++ [some copy] }
    | _ => none
  | .install k =>
    match h.packets[k]? with
    | some (some pkt) => some
        { h with packets := h.packets.set k none, engine := h.engine.processRulePkt alloc pkt }
    | _ => none

def run : History → List HistoryEvent → Option History
  | h, [] => some h
  | h, event :: events => (h.step alloc event).bind fun h' => run h' events

/-- The packets installed, by the order of their construction. -/
def installs (events : List HistoryEvent) : List Nat :=
  events.filterMap fun event => match event with
    | .install k => some k
    | _ => none

/-- Ids count constructions, and what was installed is gone. -/
structure Inv (numProc : Nat) (done : List Nat) (h : History) : Prop where
  lastId_eq : h.lastId = h.packets.length
  ids : ∀ k (pkt : RulePkt), h.packets[k]? = some (some pkt) → pkt.ruleId = k
  deleted : ∀ k ∈ done, h.packets[k]? = some none
  engine : h.engine.Holds numProc done

theorem inv_initial (numProc : Nat) : (initial numProc).Inv numProc [] :=
  ⟨rfl, by simp [initial], by simp, TRexEngine.holds_finalize numProc⟩

theorem ruleId_copy {pkt copy : RulePkt} {lastId lastId' : Nat}
    (copied : pkt.copy lastId = some (copy, lastId')) :
    copy.ruleId = lastId ∧ lastId' = lastId + 1 := by
  unfold RulePkt.copy at copied
  cases preds : pkt.predicates with
  | nil =>
      rw [preds] at copied
      cases copied
  | cons root rest =>
      rw [preds] at copied
      cases copied
      have kept : ∀ (ps : List Predicate) (c : RulePkt),
          (ps.foldl (fun copy predicate => (copy.addPredicate predicate.eventType
            predicate.constraints predicate.refersTo predicate.win predicate.kind).getD copy)
              c).ruleId = c.ruleId := by
        intro ps
        induction ps with
        | nil => exact fun c => rfl
        | cons p ps ih =>
            intro c
            rw [List.foldl_cons, ih]
            unfold RulePkt.addPredicate
            dsimp only
            split <;> rfl
      refine ⟨?_, rfl⟩
      exact (kept rest _).trans rfl

/-- A new packet gets the next id. -/
theorem Inv.snoc {numProc : Nat} {done : List Nat} {h : History} (inv : h.Inv numProc done)
    {pkt : RulePkt} (ruleId : pkt.ruleId = h.lastId) :
    Inv numProc done
      { h with lastId := h.lastId + 1, packets := h.packets ++ [some pkt] } := by
  refine ⟨by simp [inv.lastId_eq], fun k pkt' found => ?_, fun k mem => ?_, inv.engine⟩
  · rcases Nat.lt_or_ge k h.packets.length with before | after
    · rw [List.getElem?_append_left before] at found
      exact inv.ids k pkt' found
    · rw [List.getElem?_append_right after] at found
      obtain ⟨rfl, last⟩ : k = h.packets.length ∧ pkt = pkt' := by
        rw [List.getElem?_singleton] at found
        split at found
        · cases found
          exact ⟨by omega, rfl⟩
        · cases found
      rw [← last, ruleId, inv.lastId_eq]
  · have there := inv.deleted k mem
    obtain ⟨lt, -⟩ := List.getElem?_eq_some_iff.mp there
    rw [List.getElem?_append_left lt]
    exact there

theorem Inv.step {alloc : Nat → Nat} {numProc : Nat} {done : List Nat} {h h' : History}
    (inv : h.Inv numProc done) {event : HistoryEvent} (stepped : h.step alloc event = some h') :
    h'.Inv numProc (done ++ installs [event]) := by
  cases event with
  | construct content =>
      cases stepped
      have none : done ++ installs [.construct content] = done := List.append_nil done
      rw [none]
      exact inv.snoc rfl
  | copy k =>
      have none : done ++ installs [.copy k] = done := List.append_nil done
      rw [none]
      unfold History.step at stepped
      simp only at stepped
      split at stepped
      · rename_i pkt found
        obtain ⟨⟨copy, lastId⟩, copied, rfl⟩ := Option.map_eq_some_iff.mp stepped
        obtain ⟨ruleId, rfl⟩ := ruleId_copy copied
        exact inv.snoc ruleId
      · cases stepped
  | install k =>
      unfold History.step at stepped
      simp only at stepped
      split at stepped
      · rename_i pkt found
        cases stepped
        have ruleId := inv.ids k pkt found
        obtain ⟨lt, -⟩ := List.getElem?_eq_some_iff.mp found
        have new : pkt.ruleId ∉ done := by
          intro mem
          have gone := inv.deleted k (ruleId ▸ mem)
          rw [found] at gone
          cases gone
        have engine := inv.engine.processRulePkt new alloc
        rw [ruleId] at engine
        refine ⟨by simp [inv.lastId_eq], fun j pkt' found' => ?_, fun j mem => ?_, engine⟩
        · rw [List.getElem?_set] at found'
          split at found'
          · cases found'
          · exact inv.ids j pkt' found'
        · rw [List.getElem?_set]
          split
          case isTrue same => rfl
          case isFalse differ =>
            rcases List.mem_append.mp mem with old | last
            · exact inv.deleted j old
            · exact absurd (List.mem_singleton.mp last).symm differ
      · cases stepped

theorem Inv.run {alloc : Nat → Nat} {numProc : Nat} {done : List Nat} {h h' : History}
    (inv : h.Inv numProc done) {events : List HistoryEvent}
    (ran : h.run alloc events = some h') : h'.Inv numProc (done ++ installs events) := by
  induction events generalizing h done with
  | nil =>
      cases ran
      rw [show done ++ installs [] = done from List.append_nil done]
      exact inv
  | cons event events ih =>
      obtain ⟨next, stepped, ran⟩ := Option.bind_eq_some_iff.mp ran
      have split : done ++ installs (event :: events) =
          (done ++ installs [event]) ++ installs events := by
        rw [List.append_assoc]
        unfold installs
        rw [← List.filterMap_append, List.singleton_append]
      rw [split]
      exact ih (inv.step stepped) ran

/-- After a history every installed rule is served by exactly one worker just if each was
constructed early enough for the ranges that the number of installations gives. -/
theorem allServed_iff (alloc : Nat → Nat) {numProc : Nat} {events : List HistoryEvent} {h : History}
    (ran : (initial numProc).run alloc events = some h) :
    (∀ e ∈ h.engine.stacksRules, h.engine.Served e.1) ↔
      ∀ k ∈ installs events, k < TRexEngine.capacity (installs events).length numProc := by
  have inv := (inv_initial numProc).run ran
  rw [List.nil_append] at inv
  have keys : ∀ k, k ∈ installs events ↔ ∃ e ∈ h.engine.stacksRules, e.1 = k := by
    intro k
    rw [← inv.engine.ids_perm.mem_iff, List.mem_map]
  simp only [inv.engine.served_iff_lt]
  constructor
  · intro all k mem
    obtain ⟨e, isRule, rfl⟩ := (keys k).mp mem
    exact all e isRule
  · intro all e isRule
    exact all e.1 ((keys e.1).mpr ⟨e, isRule, rfl⟩)

/-! One rule, constructed after two that are not installed, is out of range of the only worker; with
two workers and an earlier rule it is in range. -/

def lateEvents : List HistoryEvent :=
  [.construct RulePkt.fireRule, .construct RulePkt.fireRule, .copy 1, .install 2]

theorem lateEvents_not_served : ∃ h, (initial 1).run id lateEvents = some h ∧
    ∃ e ∈ h.engine.stacksRules, ¬ h.engine.Served e.1 := by
  have runs : ((initial 1).run id lateEvents).isSome = true := rfl
  obtain ⟨h, ran⟩ := Option.isSome_iff_exists.mp runs
  have inv := (inv_initial 1).run ran
  have installed : 2 ∈ h.engine.stacksRules.map Prod.fst :=
    inv.engine.ids_perm.mem_iff.mpr (by decide)
  obtain ⟨e, isRule, ruleId⟩ := List.mem_map.mp installed
  refine ⟨h, ran, e, isRule, ?_⟩
  rw [inv.engine.served_iff_lt, ruleId]
  decide

theorem lateEvents_allServed : ∃ h, (initial 2).run id (lateEvents ++ [.install 0]) = some h ∧
    ∀ e ∈ h.engine.stacksRules, h.engine.Served e.1 := by
  have runs : ((initial 2).run id (lateEvents ++ [.install 0])).isSome = true := rfl
  obtain ⟨h, ran⟩ := Option.isSome_iff_exists.mp runs
  exact ⟨h, ran, (allServed_iff id ran).mpr (by decide)⟩

end History

end TRex
