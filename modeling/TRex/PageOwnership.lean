import Mathlib.Data.Finset.Prod
import Mathlib.Data.Finset.Range
import TRex.Lib.History
import TRex.Lib.Ownership
import TRex.MemoryManager

/-!
# Who owns the pages

Rules subscribe to the memory manager, fill their stacks page by page and unsubscribe. The table of
a slot keeps the entries of its earlier subscribers, and `unsubscribe` gives back all entries of a
stack, in use or not. `ownershipExact_iff` says in which histories the counts of the chunks stay
exact: no rule may unsubscribe while a stack of its has an entry behind its last page. -/

namespace TRex

open Ownership

/-! ## Entries -/

/-- A rule, a kind of stack, a stack and a page. -/
abbrev Entry := Nat × StateType × Nat × Nat

namespace MemoryManager

variable {mm mm' : MemoryManager} {id id' stack stack' page c : Nat} {type type' : StateType}

/-- The chunk that an entry holds. -/
def held (mm : MemoryManager) (e : Entry) : Option Nat :=
  (mm.rules e.1).chunks e.2.1 e.2.2.1 e.2.2.2

def count (mm : MemoryManager) (c : Nat) : Int := (mm.chunks c).inUse

/-- The pages in use of a stack. -/
def num (mm : MemoryManager) (id : Nat) (type : StateType) (stack : Nat) : Nat :=
  (mm.rules id).numChunks type stack

@[simp] theorem held_setInUse (n : Int) : (mm.setInUse c n).held = mm.held := rfl

@[simp] theorem held_setOnGpu (n : Int) : (mm.setOnGpu c n).held = mm.held := rfl

@[simp] theorem held_setNumChunks (n : Nat) :
    (mm.setNumChunks id type stack n).held = mm.held := by
  funext e
  by_cases same : e.1 = id
  · simp [held, setNumChunks, same]
  · simp [held, setNumChunks, same]

@[simp] theorem held_setChunk : (mm.setChunk id type stack page c).held =
    Function.update mm.held (id, type, stack, page) (some c) := by
  funext e
  obtain ⟨i, t, s, p⟩ := e
  by_cases here : (i, t, s, p) = (id, type, stack, page)
  · cases here
    simp [held, setChunk]
  · rw [Function.update_of_ne here]
    by_cases sameRule : i = id
    · subst sameRule
      by_cases sameType : t = type
      · subst sameType
        by_cases sameStack : s = stack
        · subst sameStack
          have samePage : p ≠ page := fun same => here (by rw [same])
          simp [held, setChunk, samePage]
        · simp [held, setChunk, sameStack]
      · simp [held, setChunk, sameType]
    · simp [held, setChunk, sameRule]

@[simp] theorem count_setInUse (n : Int) :
    (mm.setInUse c n).count = Function.update mm.count c n := by
  funext d
  by_cases same : d = c
  · simp [count, setInUse, same]
  · simp [count, setInUse, same]

@[simp] theorem count_setOnGpu (n : Int) : (mm.setOnGpu c n).count = mm.count := by
  funext d
  by_cases same : d = c
  · simp [count, setOnGpu, same]
  · simp [count, setOnGpu, same]

@[simp] theorem count_setNumChunks (n : Nat) :
    (mm.setNumChunks id type stack n).count = mm.count := rfl

@[simp] theorem count_setChunk : (mm.setChunk id type stack page c).count = mm.count := rfl

@[simp] theorem num_setInUse (n : Int) : (mm.setInUse c n).num = mm.num := rfl

@[simp] theorem num_setOnGpu (n : Int) : (mm.setOnGpu c n).num = mm.num := rfl

@[simp] theorem num_setChunk : (mm.setChunk id type stack page c).num = mm.num := by
  funext i t s
  by_cases same : i = id
  · simp [num, setChunk, same]
  · simp [num, setChunk, same]

theorem num_setNumChunks (n : Nat) : (mm.setNumChunks id type stack n).num id' type' stack' =
    if id' = id ∧ type' = type ∧ stack' = stack then n else mm.num id' type' stack' := by
  by_cases sameRule : id' = id
  · subst sameRule
    by_cases sameType : type' = type
    · subst sameType
      by_cases sameStack : stack' = stack
      · simp [num, setNumChunks, sameStack]
      · simp [num, setNumChunks, sameStack]
    · simp [num, setNumChunks, sameType]
  · simp [num, setNumChunks, sameRule]

/-! ## Allocation -/

/-- The counts are exact for the live entries, and no rule holds a chunk twice. -/
structure Owned (mm : MemoryManager) (live : Finset Entry) : Prop where
  exact : Exact live mm.held mm.count
  unshared : ∀ id, Unshared (live.filter fun e => e.1 = id) mm.held

/-- What `getFreeChunk` does: the chunk was free and is counted. -/
theorem getFreeChunk_eq_some (found : mm.getFreeChunk id = some (c, mm')) :
    mm.count c ≤ 0 ∧ mm'.held = mm.held ∧ mm'.num = mm.num ∧ mm'.inUse = mm.inUse ∧
      mm'.count = Function.update mm.count c (mm.count c + 1) := by
  rw [getFreeChunk] at found
  split at found
  case h_1 => cases found
  case h_2 i first =>
    have free := List.find?_some first
    simp only [Bool.and_eq_true, decide_eq_true_eq] at free
    cases found
    exact ⟨free.1, rfl, rfl, rfl, count_setInUse _⟩

/-- A free chunk is given to an entry that is not live. -/
theorem Owned.assign {live : Finset Entry} {e : Entry} {mm₁ mm₂ : MemoryManager}
    (owned : mm.Owned live) (new : e ∉ live) (found : mm.getFreeChunk id = some (c, mm₁))
    (heldBy : mm₂.held = Function.update mm₁.held e (some c)) (counted : mm₂.count = mm₁.count) :
    mm₂.Owned (insert e live) := by
  obtain ⟨free, heldSame, -, -, taken⟩ := getFreeChunk_eq_some found
  rw [heldSame] at heldBy
  rw [taken] at counted
  constructor
  · rw [heldBy, counted]
    exact owned.exact.grow new
  · intro i
    rw [heldBy, Finset.filter_insert]
    split
    case isTrue ofRule =>
      apply (owned.unshared i).grow
      · exact fun mem => new (Finset.mem_filter.mp mem).1
      · exact fun x mem => owned.exact.not_held free (Finset.mem_filter.mp mem).1
    case isFalse other =>
      intro d x memX y memY holdsX holdsY
      have neX : x ≠ e := fun same => new (same ▸ (Finset.mem_filter.mp memX).1)
      have neY : y ≠ e := fun same => new (same ▸ (Finset.mem_filter.mp memY).1)
      rw [Function.update_of_ne neX] at holdsX
      rw [Function.update_of_ne neY] at holdsY
      exact owned.unshared i d x memX y memY holdsX holdsY

/-! ## Subscribing -/

theorem firstPage_eq_some (paged : mm.firstPage id type stack = some mm') :
    ∃ c mm₁, mm.getFreeChunk id = some (c, mm₁) ∧
      mm' = ((mm₁.setChunk id type stack 0 c).setOnGpu c id).setNumChunks id type stack 1 := by
  rw [firstPage] at paged
  cases found : mm.getFreeChunk id with
  | none =>
      rw [found] at paged
      cases paged
  | some r =>
      rw [found] at paged
      exact ⟨r.1, r.2, rfl, (Option.some.inj paged).symm⟩

/-- The first page of a stack, as a table entry. -/
def firstEntry (id : Nat) (stack : StateType × Nat) : Entry := (id, stack.1, stack.2, 0)

theorem firstPages_num {columns : List (StateType × Nat)}
    (paged : firstPages id columns mm = some mm') :
    mm'.inUse = mm.inUse ∧ ∀ id' type' stack', mm'.num id' type' stack' =
      if id' = id ∧ (type', stack') ∈ columns then 1 else mm.num id' type' stack' := by
  induction columns generalizing mm with
  | nil =>
      cases paged
      simp
  | cons x rest ih =>
      rw [firstPages] at paged
      cases first : mm.firstPage id x.1 x.2 with
      | none =>
          rw [first] at paged
          cases paged
      | some mm₂ =>
          rw [first] at paged
          obtain ⟨c, mm₁, found, made⟩ := firstPage_eq_some first
          obtain ⟨-, -, numSame, useSame, -⟩ := getFreeChunk_eq_some found
          obtain ⟨useAll, numAll⟩ := ih paged
          constructor
          · rw [useAll, made]
            exact useSame
          · intro id' type' stack'
            rw [numAll, made, num_setNumChunks, num_setOnGpu, num_setChunk, numSame]
            grind

theorem firstPages_owned {columns : List (StateType × Nat)} {live : Finset Entry}
    (paged : firstPages id columns mm = some mm') (nodup : columns.Nodup) (owned : mm.Owned live)
    (new : ∀ x ∈ columns, firstEntry id x ∉ live) :
    mm'.Owned (live ∪ (columns.map (firstEntry id)).toFinset) := by
  induction columns generalizing mm live with
  | nil =>
      cases paged
      simpa using owned
  | cons x rest ih =>
      rw [firstPages] at paged
      cases first : mm.firstPage id x.1 x.2 with
      | none =>
          rw [first] at paged
          cases paged
      | some mm₂ =>
          rw [first] at paged
          obtain ⟨c, mm₁, found, made⟩ := firstPage_eq_some first
          have newHere := new x List.mem_cons_self
          have owned₂ : mm₂.Owned (insert (firstEntry id x) live) := by
            apply owned.assign newHere found
            · rw [made, held_setNumChunks, held_setOnGpu, held_setChunk]
              rfl
            · rw [made, count_setNumChunks, count_setOnGpu, count_setChunk]
          obtain ⟨notIn, nodupRest⟩ := List.nodup_cons.mp nodup
          have newRest : ∀ y ∈ rest, firstEntry id y ∉ insert (firstEntry id x) live := by
            intro y mem inLive
            rcases Finset.mem_insert.mp inLive with same | old
            · have equal : y = x := by
                simp only [firstEntry, Prod.mk.injEq] at same
                exact Prod.ext same.2.1 same.2.2.1
              exact notIn (equal ▸ mem)
            · exact new y (List.mem_cons_of_mem x mem) old
          rw [List.map_cons, List.toFinset_cons, Finset.union_insert, ← Finset.insert_union]
          exact ih paged nodupRest owned₂ newRest

theorem nodup_stacksOf (needs : Needs) : (stacksOf needs).Nodup := by
  rw [stacksOf, List.nodup_flatMap]
  constructor
  · intro type _
    exact List.nodup_range.map fun a b same => (Prod.mk.inj same).2
  · apply List.Nodup.pairwise_of_forall_ne (by decide)
    intro a _ b _ differ
    rw [Function.onFun_apply, List.disjoint_left]
    intro x inA inB
    obtain ⟨i, -, ofA⟩ := List.mem_map.mp inA
    obtain ⟨j, -, ofB⟩ := List.mem_map.mp inB
    exact differ (Prod.mk.inj (ofA.trans ofB.symm)).1

theorem mem_stacksOf {needs : Needs} :
    (type, stack) ∈ stacksOf needs ↔ stack < needs.stacks type := by
  simp only [stacksOf, List.mem_flatMap, List.mem_map, List.mem_range, Prod.mk.injEq]
  constructor
  · rintro ⟨t, -, s, lt, rfl, rfl⟩
    exact lt
  · intro lt
    exact ⟨type, by cases type <;> simp, stack, lt, rfl, rfl⟩

/-! ## Adding events -/

theorem growLoop_full {n : Nat} (enough : n ≤ mm.num id type stack) :
    growLoop id type stack page n mm = some mm := by
  cases n with
  | zero => rfl
  | succ n =>
      have none : ¬ n + 1 > (mm.rules id).numChunks type stack := Nat.not_lt.mpr enough
      rw [growLoop, if_neg none]

/-- At most one page is missing, so that the loop makes at most one turn. -/
theorem growLoop_eq_some (grown : growLoop id type stack page (page + 1) mm = some mm')
    (next : page ≤ mm.num id type stack) :
    page < mm.num id type stack ∧ mm' = mm ∨
    page = mm.num id type stack ∧ ∃ c mm₁ mm₂, mm.getFreeChunk id = some (c, mm₁) ∧
      mm₂ = (mm₁.setChunk id type stack page c).setOnGpu (c % mm₁.dChunksnum) id ∧
      mm' = mm₂.setNumChunks id type stack (page + 1) := by
  rcases Nat.lt_or_eq_of_le next with full | last
  · refine .inl ⟨full, ?_⟩
    rw [growLoop_full full] at grown
    exact (Option.some.inj grown).symm
  · refine .inr ⟨last, ?_⟩
    have missing : page + 1 > (mm.rules id).numChunks type stack := by
      simp only [num] at last
      omega
    rw [growLoop, if_pos missing] at grown
    cases found : mm.getFreeChunk id with
    | none =>
        rw [found] at grown
        cases grown
    | some r =>
        obtain ⟨c, mm₁⟩ := r
        obtain ⟨-, -, numSame, -⟩ := getFreeChunk_eq_some found
        rw [found] at grown
        let mm₂ := (mm₁.setChunk id type stack page c).setOnGpu (c % mm₁.dChunksnum) id
        have pages : mm₂.num id type stack = page := by
          rw [num_setOnGpu, num_setChunk, numSame, last]
        have turn : growLoop id type stack page page
            (mm₂.setNumChunks id type stack (mm₂.num id type stack + 1)) = some mm' := grown
        rw [pages, growLoop_full] at turn
        · exact ⟨c, mm₁, mm₂, rfl, rfl, (Option.some.inj turn).symm⟩
        · rw [num_setNumChunks, if_pos ⟨rfl, rfl, rfl⟩]
          exact Nat.le_succ page

theorem storeEvent_frame (ev : EventInfo) (index : Nat) :
    (mm.storeEvent id ev stack index type).held = mm.held ∧
      (mm.storeEvent id ev stack index type).count = mm.count ∧
      (mm.storeEvent id ev stack index type).num = mm.num ∧
      (mm.storeEvent id ev stack index type).inUse = mm.inUse := by
  simp only [storeEvent]
  split <;> exact ⟨rfl, rfl, rfl, rfl⟩

/-! ## Unsubscribing -/

theorem nodup_entriesOf (needs : Needs) : (entriesOf needs).Nodup := by
  rw [entriesOf, List.nodup_flatMap]
  constructor
  · intro x _
    exact List.nodup_range.map fun a b same => (Prod.mk.inj (Prod.mk.inj same).2).2
  · apply List.Nodup.pairwise_of_forall_ne (nodup_stacksOf needs)
    intro a _ b _ differ
    rw [Function.onFun_apply, List.disjoint_left]
    intro x inA inB
    obtain ⟨i, -, ofA⟩ := List.mem_map.mp inA
    obtain ⟨j, -, ofB⟩ := List.mem_map.mp inB
    have same := ofA.trans ofB.symm
    exact differ (Prod.ext (Prod.mk.inj same).1 (Prod.mk.inj (Prod.mk.inj same).2).1)

theorem mem_entriesOf {needs : Needs} :
    (type, stack, page) ∈ entriesOf needs ↔
      stack < needs.stacks type ∧ page < maxPagesPerStack := by
  rw [entriesOf, List.mem_flatMap]
  constructor
  · rintro ⟨x, mem, here⟩
    obtain ⟨p, inRange, same⟩ := List.mem_map.mp here
    cases same
    exact ⟨mem_stacksOf.mp mem, List.mem_range.mp inRange⟩
  · intro ⟨lt, inRange⟩
    exact ⟨(type, stack), mem_stacksOf.mpr lt,
      List.mem_map.mpr ⟨page, List.mem_range.mpr inRange, rfl⟩⟩

theorem releaseEntry_frame (mm : MemoryManager) (id : Nat) (entry : StateType × Nat × Nat) :
    (mm.releaseEntry id entry).rules = mm.rules ∧ (mm.releaseEntry id entry).inUse = mm.inUse ∧
      (mm.releaseEntry id entry).count = fun c =>
        mm.count c - if mm.held (id, entry) = some c then 1 else 0 := by
  rw [releaseEntry]
  split
  case h_1 none =>
    refine ⟨rfl, rfl, ?_⟩
    funext c
    have nothing : mm.held (id, entry) = Option.none := none
    simp [nothing]
  case h_2 d some =>
    refine ⟨rfl, rfl, ?_⟩
    funext c
    have holds : mm.held (id, entry) = Option.some d := some
    rw [count_setOnGpu, count_setInUse, holds]
    by_cases same : c = d
    · simp [same, count]
    · simp [same, Ne.symm same]

theorem releaseEntries (mm : MemoryManager) (id : Nat) {entries : List (StateType × Nat × Nat)}
    (nodup : entries.Nodup) :
    (entries.foldl (fun mm entry => mm.releaseEntry id entry) mm).rules = mm.rules ∧
      (entries.foldl (fun mm entry => mm.releaseEntry id entry) mm).inUse = mm.inUse ∧
      (entries.foldl (fun mm entry => mm.releaseEntry id entry) mm).count = fun c =>
        mm.count c - ((holders (entries.map fun x => (id, x)).toFinset mm.held c).card : Int) := by
  induction entries generalizing mm with
  | nil => simp [holders]
  | cons x rest ih =>
      obtain ⟨notIn, nodupRest⟩ := List.nodup_cons.mp nodup
      obtain ⟨rulesHere, useHere, countHere⟩ := mm.releaseEntry_frame id x
      obtain ⟨rulesRest, useRest, countRest⟩ := ih (mm.releaseEntry id x) nodupRest
      have heldHere : (mm.releaseEntry id x).held = mm.held := by
        funext e
        rw [held, rulesHere, held]
      refine ⟨rulesRest.trans rulesHere, useRest.trans useHere, ?_⟩
      rw [List.foldl_cons, countRest, heldHere, countHere]
      funext c
      have new : (id, x) ∉ (rest.map fun y => (id, y)).toFinset := by
        intro mem
        obtain ⟨y, memY, same⟩ := List.mem_map.mp (List.mem_toFinset.mp mem)
        exact notIn ((Prod.mk.inj same).2 ▸ memY)
      rw [List.map_cons, List.toFinset_cons, card_holders_insert new]
      push_cast
      omega

end MemoryManager

/-! ## Histories -/

/-- The memory manager, with the numbers that the rule in each slot has subscribed with. -/
structure Memory where
  mm : MemoryManager
  subscribers : Nat → Option Needs

inductive MemoryCall
  | subscribe (needs : Needs)
  | addEventToStack (id : Nat) (ev : EventInfo) (stack index : Nat) (type : StateType)
  | unsubscribe (id : Nat)

namespace Memory

def new (dChunksnum : Nat) (host device : Nat → EventInfo) : Memory :=
  ⟨.new dChunksnum host device, fun _ => none⟩

/-- A rule unsubscribes with the numbers it has subscribed with. -/
def step (m : Memory) : MemoryCall → Option Memory
  | .subscribe needs => (m.mm.subscribe needs).map fun (token, mm) =>
    if 0 ≤ token then ⟨mm, Function.update m.subscribers token.toNat (some needs)⟩
    else ⟨mm, m.subscribers⟩
  | .addEventToStack id ev stack index type =>
    (m.mm.addEventToStack id ev stack index type).map fun mm => ⟨mm, m.subscribers⟩
  | .unsubscribe id => (m.subscribers id).map fun needs =>
    ⟨m.mm.unsubscribe id needs, Function.update m.subscribers id none⟩

/-- The calls that processors make: rules fit into the tables, which `checkDefinitions` makes sure
of, and a rule with a slot adds to one of its stacks, one event behind the other. -/
def Allowed (m : Memory) : MemoryCall → Prop
  | .subscribe needs => needs.seqLen - 1 ≤ maxStacks .state ∧ needs.negNum ≤ maxStacks .neg ∧
    needs.aggrNum ≤ maxStacks .agg
  | .addEventToStack id _ stack index type =>
    (m.subscribers id).any (fun needs => decide (stack < needs.stacks type)) = true ∧
      index < allocSize ∧ index / pageSize ≤ m.mm.num id type stack
  | .unsubscribe id => (m.subscribers id).isSome = true

instance (m : Memory) : (call : MemoryCall) → Decidable (m.Allowed call)
  | .subscribe _ => inferInstanceAs (Decidable (_ ∧ _ ∧ _))
  | .addEventToStack _ _ _ _ _ => inferInstanceAs (Decidable (_ ∧ _ ∧ _))
  | .unsubscribe _ => inferInstanceAs (Decidable (_ = _))

/-- Every entry of a table. -/
@[irreducible] def allEntries : Finset Entry :=
  Finset.range maxRuleNum ×ˢ ({.state, .neg, .agg} : Finset StateType) ×ˢ
    Finset.range maxRuleFields ×ˢ Finset.range maxPagesPerStack

/-- The entries of rules that are subscribed, for the pages in use of their stacks. -/
def live (m : Memory) : Finset Entry :=
  allEntries.filter fun e =>
    (m.subscribers e.1).any (fun needs => decide (e.2.2.1 < needs.stacks e.2.1)) = true ∧
      e.2.2.2 < m.mm.num e.1 e.2.1 e.2.2.1

/-- Every chunk is counted once for each live entry that holds it, and the live entries of one rule
hold different chunks. -/
structure OwnershipExact (m : Memory) : Prop where
  counted : ∀ c, (m.mm.chunks c).inUse =
    ((m.live.filter fun e => m.mm.held e = some c).card : Int)
  nonneg : ∀ c, 0 ≤ (m.mm.chunks c).inUse
  unshared : ∀ e ∈ m.live, ∀ e' ∈ m.live, e.1 = e'.1 → ∀ c, m.mm.held e = some c →
    m.mm.held e' = some c → e = e'

/-- No stack of the rule has an entry behind its last page. -/
def NothingBehind (m : Memory) (id : Nat) : Prop :=
  ∀ needs, m.subscribers id = some needs → ∀ type stack page, stack < needs.stacks type →
    page < maxPagesPerStack → m.mm.num id type stack ≤ page →
      m.mm.held (id, type, stack, page) = none

/-- The condition on a call: a rule that unsubscribes leaves no old entries behind. -/
def LeavesNothing (m : Memory) : MemoryCall → Prop
  | .unsubscribe id => m.NothingBehind id
  | _ => True

/-! ## What holds in every history -/

structure Inv (m : Memory) : Prop where
  slot : ∀ id needs, m.subscribers id = some needs → id < maxRuleNum ∧ m.mm.inUse id = true
  fits : ∀ id needs, m.subscribers id = some needs → ∀ type, needs.stacks type ≤ maxStacks type
  pages : ∀ id needs, m.subscribers id = some needs → ∀ type stack, stack < needs.stacks type →
    m.mm.num id type stack ≤ maxPagesPerStack

theorem ownershipExact_iff_owned {m : Memory} : m.OwnershipExact ↔ m.mm.Owned m.live := by
  constructor
  · intro exact
    refine ⟨exact.counted, fun id c e mem e' mem' holds holds' => ?_⟩
    obtain ⟨live, ofRule⟩ := Finset.mem_filter.mp mem
    obtain ⟨live', ofRule'⟩ := Finset.mem_filter.mp mem'
    exact exact.unshared e live e' live' (ofRule.trans ofRule'.symm) c holds holds'
  · intro owned
    refine ⟨owned.exact, owned.exact.nonneg, fun e live e' live' same c holds holds' => ?_⟩
    exact owned.unshared e'.1 c e (Finset.mem_filter.mpr ⟨live, same⟩) e'
      (Finset.mem_filter.mpr ⟨live', rfl⟩) holds holds'

theorem maxStacks_le (type : StateType) : maxStacks type ≤ maxRuleFields := by
  cases type <;> decide

theorem mem_allEntries {id stack page : Nat} {type : StateType} :
    (id, type, stack, page) ∈ allEntries ↔
      id < maxRuleNum ∧ stack < maxRuleFields ∧ page < maxPagesPerStack := by
  have every : type ∈ ({.state, .neg, .agg} : Finset StateType) := by cases type <;> decide
  unfold allEntries
  simp only [Finset.mem_product, Finset.mem_range, every, true_and]

theorem mem_live {m : Memory} (inv : m.Inv) {id stack page : Nat} {type : StateType} :
    (id, type, stack, page) ∈ m.live ↔ ∃ needs, m.subscribers id = some needs ∧
      stack < needs.stacks type ∧ page < m.mm.num id type stack := by
  rw [live, Finset.mem_filter, mem_allEntries, Option.any_eq_true]
  constructor
  · rintro ⟨-, ⟨needs, sub, lt⟩, inPages⟩
    exact ⟨needs, sub, of_decide_eq_true lt, inPages⟩
  · rintro ⟨needs, sub, lt, inPages⟩
    have fits := Nat.le_trans (inv.fits id needs sub type) (maxStacks_le type)
    have pages := inv.pages id needs sub type stack lt
    refine ⟨⟨(inv.slot id needs sub).1, Nat.lt_of_lt_of_le lt fits,
      Nat.lt_of_lt_of_le inPages pages⟩, ⟨needs, sub, decide_eq_true lt⟩, inPages⟩

theorem new_inv (dChunksnum : Nat) (host device : Nat → EventInfo) :
    (new dChunksnum host device).Inv := by
  constructor
  · intro id needs sub
    cases sub
  · intro id needs sub
    cases sub
  · intro id needs sub
    cases sub

theorem new_ownershipExact (dChunksnum : Nat) (host device : Nat → EventInfo) :
    (new dChunksnum host device).OwnershipExact := by
  have nothing : (new dChunksnum host device).live = ∅ := by
    rw [Finset.eq_empty_iff_forall_notMem]
    rintro ⟨id, type, stack, page⟩ mem
    obtain ⟨needs, sub, -⟩ := (mem_live (new_inv dChunksnum host device)).mp mem
    cases sub
  refine ⟨fun c => ?_, fun c => Int.le_refl 0, ?_⟩
  · rw [nothing]
    rfl
  · rw [nothing]
    intro e mem
    exact absurd mem (Finset.notMem_empty e)

/-! ## One call -/

section Step

variable {m m' : Memory}

theorem subscribe_cases {needs : Needs} (inv : m.Inv)
    (next : m.step (.subscribe needs) = some m') :
    m' = m ∨ ∃ i mm₁, m.subscribers i = none ∧ i < maxRuleNum ∧
      MemoryManager.firstPages i (MemoryManager.stacksOf needs) m.mm = some mm₁ ∧
      m' = ⟨{ mm₁ with inUse := Function.update mm₁.inUse i true },
        Function.update m.subscribers i (some needs)⟩ := by
  rw [step, MemoryManager.subscribe] at next
  split at next
  case h_1 full =>
    refine .inl ?_
    cases next
    rfl
  case h_2 i free =>
    refine .inr ?_
    have slot := List.mem_range.mp (List.mem_of_find?_eq_some free)
    have unused : m.mm.inUse i = false := by simpa using List.find?_some free
    have none : m.subscribers i = none := by
      cases sub : m.subscribers i with
      | none => rfl
      | some old =>
          have used := (inv.slot i old sub).2
          rw [unused] at used
          cases used
    cases paged : MemoryManager.firstPages i (MemoryManager.stacksOf needs) m.mm with
    | none =>
        rw [paged] at next
        cases next
    | some mm₁ =>
        rw [paged] at next
        refine ⟨i, mm₁, none, slot, paged, ?_⟩
        have made := Option.some.inj next
        rw [← made]
        simp

theorem addEventToStack_cases {id stack index : Nat} {ev : EventInfo} {type : StateType}
    (next : m.step (.addEventToStack id ev stack index type) = some m') :
    ∃ mm₁, MemoryManager.growLoop id type stack (index / pageSize) (index / pageSize + 1) m.mm =
        some mm₁ ∧ m'.subscribers = m.subscribers ∧ m'.mm.held = mm₁.held ∧
      m'.mm.count = mm₁.count ∧ m'.mm.num = mm₁.num ∧ m'.mm.inUse = mm₁.inUse := by
  rw [step, MemoryManager.addEventToStack] at next
  cases grown : MemoryManager.growLoop id type stack (index / pageSize) (index / pageSize + 1)
      m.mm with
  | none =>
      rw [grown] at next
      cases next
  | some mm₁ =>
      rw [grown] at next
      have made := Option.some.inj next
      rw [← made]
      exact ⟨mm₁, rfl, rfl, MemoryManager.storeEvent_frame ev index⟩

theorem unsubscribe_cases {id : Nat} (next : m.step (.unsubscribe id) = some m') :
    ∃ needs, m.subscribers id = some needs ∧
      m'.subscribers = Function.update m.subscribers id none ∧ m'.mm.rules = m.mm.rules ∧
      m'.mm.inUse = Function.update m.mm.inUse id false ∧
      m'.mm.count = fun c => m.mm.count c - ((holders ((MemoryManager.entriesOf needs).map
        fun x => (id, x)).toFinset m.mm.held c).card : Int) := by
  obtain ⟨needs, sub, made⟩ := Option.map_eq_some_iff.mp next
  obtain ⟨rules, use, counts⟩ := MemoryManager.releaseEntries
    { m.mm with
      swapped := Function.update m.mm.swapped id false
      inUse := Function.update m.mm.inUse id false } id (MemoryManager.nodup_entriesOf needs)
  rw [← made]
  exact ⟨needs, sub, rfl, rules, use, counts⟩

/-! ## The invariant -/

theorem num_of_rules {mm mm' : MemoryManager} (same : mm'.rules = mm.rules) :
    mm'.num = mm.num := by
  funext id type stack
  rw [MemoryManager.num, same, MemoryManager.num]

theorem held_of_rules {mm mm' : MemoryManager} (same : mm'.rules = mm.rules) :
    mm'.held = mm.held := by
  funext e
  rw [MemoryManager.held, same, MemoryManager.held]

theorem Inv.subscribe {needs : Needs} (inv : m.Inv) (allowed : m.Allowed (.subscribe needs))
    (next : m.step (.subscribe needs) = some m') : m'.Inv := by
  rcases subscribe_cases inv next with rfl | ⟨i, mm₁, free, slot, paged, rfl⟩
  · exact inv
  · obtain ⟨useSame, nums⟩ := MemoryManager.firstPages_num paged
    constructor
    · intro id needs' sub
      by_cases same : id = i
      · subst same
        exact ⟨slot, Function.update_self id true mm₁.inUse⟩
      · have sub' : m.subscribers id = some needs' := by
          rw [← sub]
          exact (Function.update_of_ne same _ _).symm
        refine ⟨(inv.slot id needs' sub').1, ?_⟩
        rw [← (inv.slot id needs' sub').2, ← useSame]
        exact Function.update_of_ne same _ _
    · intro id needs' sub type
      by_cases same : id = i
      · subst same
        have equal : needs = needs' := by simpa using sub
        subst equal
        obtain ⟨states, negs, aggs⟩ := allowed
        cases type with
        | state => exact states
        | neg => exact negs
        | agg => exact aggs
      · apply inv.fits id needs' _ type
        rw [← sub]
        exact (Function.update_of_ne same _ _).symm
    · intro id needs' sub type stack lt
      have num : mm₁.num id type stack ≤ maxPagesPerStack := by
        rw [nums]
        split
        case isTrue => decide
        case isFalse old =>
          by_cases same : id = i
          · subst same
            have equal : needs = needs' := by simpa using sub
            subst equal
            exact absurd ⟨rfl, MemoryManager.mem_stacksOf.mpr lt⟩ old
          · apply inv.pages id needs' _ type stack lt
            rw [← sub]
            exact (Function.update_of_ne same _ _).symm
      exact num

theorem Inv.addEventToStack {id stack index : Nat} {ev : EventInfo} {type : StateType}
    (inv : m.Inv) (allowed : m.Allowed (.addEventToStack id ev stack index type))
    (next : m.step (.addEventToStack id ev stack index type) = some m') : m'.Inv := by
  obtain ⟨mm₁, grown, subs, -, -, nums, use⟩ := addEventToStack_cases next
  obtain ⟨-, inside, next⟩ := allowed
  rcases MemoryManager.growLoop_eq_some grown next with ⟨-, rfl⟩ | grew
  · constructor
    · rw [subs, use]
      exact inv.slot
    · rw [subs]
      exact inv.fits
    · rw [subs, nums]
      exact inv.pages
  · obtain ⟨-, c, mm₂, mm₃, found, rfl, rfl⟩ := grew
    obtain ⟨-, -, numSame, useSame, -⟩ := MemoryManager.getFreeChunk_eq_some found
    constructor
    · rw [subs, use]
      intro id' needs sub
      rw [← (inv.slot id' needs sub).2, ← useSame]
      exact ⟨(inv.slot id' needs sub).1, rfl⟩
    · rw [subs]
      exact inv.fits
    · rw [subs, nums]
      intro id' needs sub type' stack' lt
      rw [MemoryManager.num_setNumChunks]
      split
      case isTrue =>
        rw [maxPagesPerStack]
        exact Nat.div_lt_div_of_lt_of_dvd (by decide) inside
      case isFalse =>
        rw [MemoryManager.num_setOnGpu, MemoryManager.num_setChunk, numSame]
        exact inv.pages id' needs sub type' stack' lt

theorem Inv.unsubscribe {id : Nat} (inv : m.Inv) (next : m.step (.unsubscribe id) = some m') :
    m'.Inv := by
  obtain ⟨needs, -, subs, rules, use, -⟩ := unsubscribe_cases next
  have old : ∀ id' needs', m'.subscribers id' = some needs' →
      id' ≠ id ∧ m.subscribers id' = some needs' := by
    intro id' needs' sub
    rw [subs] at sub
    by_cases same : id' = id
    · rw [same, Function.update_self] at sub
      cases sub
    · rw [Function.update_of_ne same] at sub
      exact ⟨same, sub⟩
  constructor
  · intro id' needs' sub
    obtain ⟨other, sub'⟩ := old id' needs' sub
    rw [use, Function.update_of_ne other]
    exact inv.slot id' needs' sub'
  · intro id' needs' sub
    exact inv.fits id' needs' (old id' needs' sub).2
  · intro id' needs' sub
    rw [num_of_rules rules]
    exact inv.pages id' needs' (old id' needs' sub).2

theorem Inv.step {call : MemoryCall} (inv : m.Inv) (allowed : m.Allowed call)
    (next : m.step call = some m') : m'.Inv := by
  cases call with
  | subscribe needs => exact inv.subscribe allowed next
  | addEventToStack id ev stack index type => exact inv.addEventToStack allowed next
  | unsubscribe id => exact inv.unsubscribe next

/-! ## The counts -/

theorem subscribe_owned {needs : Needs} (inv : m.Inv) (allowed : m.Allowed (.subscribe needs))
    (next : m.step (.subscribe needs) = some m') (owned : m.mm.Owned m.live) :
    m'.mm.Owned m'.live := by
  have inv' := inv.subscribe allowed next
  rcases subscribe_cases inv next with rfl | ⟨i, mm₁, free, slot, paged, made⟩
  · exact owned
  · obtain ⟨-, nums⟩ := MemoryManager.firstPages_num paged
    have numSame : m'.mm.num = mm₁.num := by rw [made]; rfl
    have notLive : ∀ x, MemoryManager.firstEntry i x ∉ m.live := by
      intro x mem
      obtain ⟨needs', sub, -⟩ := (mem_live inv).mp mem
      rw [free] at sub
      cases sub
    have grown : m'.live =
        m.live ∪ ((MemoryManager.stacksOf needs).map (MemoryManager.firstEntry i)).toFinset := by
      ext ⟨id, type, stack, page⟩
      rw [Finset.mem_union, mem_live inv', mem_live inv, List.mem_toFinset, List.mem_map, numSame,
        nums, made]
      by_cases same : id = i
      · subst same
        simp only [Function.update_self, free, Option.some.injEq, reduceCtorEq, false_and,
          exists_false, false_or, true_and, exists_eq_left']
        constructor
        · rintro ⟨lt, first⟩
          rw [if_pos (MemoryManager.mem_stacksOf.mpr lt)] at first
          have zero : page = 0 := by omega
          exact ⟨(type, stack), MemoryManager.mem_stacksOf.mpr lt, by rw [zero]; rfl⟩
        · rintro ⟨x, mem, same⟩
          cases same
          rw [if_pos mem]
          exact ⟨MemoryManager.mem_stacksOf.mp mem, Nat.one_pos⟩
      · simp only [Function.update_of_ne same, same, false_and, if_false]
        constructor
        · exact .inl
        · rintro (old | ⟨x, -, other⟩)
          · exact old
          · exact absurd (Prod.mk.inj other).1.symm same
    have ownedAll := MemoryManager.firstPages_owned paged (MemoryManager.nodup_stacksOf needs)
      owned fun x _ => notLive x
    rw [grown, made]
    exact ⟨ownedAll.exact, ownedAll.unshared⟩

theorem addEventToStack_owned {id stack index : Nat} {ev : EventInfo} {type : StateType}
    (inv : m.Inv) (allowed : m.Allowed (.addEventToStack id ev stack index type))
    (next : m.step (.addEventToStack id ev stack index type) = some m')
    (owned : m.mm.Owned m.live) : m'.mm.Owned m'.live := by
  have inv' := inv.addEventToStack allowed next
  obtain ⟨mm₁, grown, subs, heldSame, countSame, numSame, -⟩ := addEventToStack_cases next
  obtain ⟨needs, sub, lt⟩ := (Option.any_eq_true _ _).mp allowed.1
  have ownStack := of_decide_eq_true lt
  suffices ownedBy : mm₁.Owned m'.live by
    refine ⟨?_, fun i => ?_⟩
    · rw [heldSame, countSame]
      exact ownedBy.exact
    · rw [heldSame]
      exact ownedBy.unshared i
  rcases MemoryManager.growLoop_eq_some grown allowed.2.2 with ⟨-, rfl⟩ | grew
  · have same : m'.live = m.live := by
      ext ⟨id', type', stack', page⟩
      rw [mem_live inv', mem_live inv, subs, numSame]
    rw [same]
    exact owned
  · obtain ⟨last, c, mm₂, mm₃, found, rfl, rfl⟩ := grew
    obtain ⟨-, -, numOld, -⟩ := MemoryManager.getFreeChunk_eq_some found
    have new : (id, type, stack, index / pageSize) ∉ m.live := by
      intro mem
      obtain ⟨-, -, -, inPages⟩ := (mem_live inv).mp mem
      exact absurd last (Nat.ne_of_lt inPages)
    have grown : m'.live = insert (id, type, stack, index / pageSize) m.live := by
      ext ⟨id', type', stack', page⟩
      rw [Finset.mem_insert, mem_live inv', mem_live inv, subs, numSame,
        MemoryManager.num_setNumChunks, MemoryManager.num_setOnGpu, MemoryManager.num_setChunk,
        numOld]
      by_cases here : id' = id ∧ type' = type ∧ stack' = stack
      · obtain ⟨rfl, rfl, rfl⟩ := here
        rw [if_pos ⟨rfl, rfl, rfl⟩, last, Nat.lt_succ_iff_lt_or_eq]
        simp only [Prod.mk.injEq, true_and]
        constructor
        · rintro ⟨needs', sub', lt', before | equal⟩
          · exact .inr ⟨needs', sub', lt', before⟩
          · exact .inl equal
        · rintro (equal | ⟨needs', sub', lt', before⟩)
          · exact ⟨needs, sub, ownStack, .inr equal⟩
          · exact ⟨needs', sub', lt', .inl before⟩
      · rw [if_neg here]
        constructor
        · exact .inr
        · rintro (equal | old)
          · cases equal
            exact absurd ⟨rfl, rfl, rfl⟩ here
          · exact old
    rw [grown]
    apply owned.assign new found
    · rw [MemoryManager.held_setNumChunks, MemoryManager.held_setOnGpu,
        MemoryManager.held_setChunk]
    · rw [MemoryManager.count_setNumChunks, MemoryManager.count_setOnGpu,
        MemoryManager.count_setChunk]

theorem unsubscribe_owned_iff {id : Nat} (inv : m.Inv)
    (next : m.step (.unsubscribe id) = some m') (owned : m.mm.Owned m.live) :
    m'.mm.Owned m'.live ↔ m.NothingBehind id := by
  have inv' := inv.unsubscribe next
  obtain ⟨needs, sub, subs, rules, -, counts⟩ := unsubscribe_cases next
  let given := m.live.filter fun e => e.1 = id
  let taken := ((MemoryManager.entriesOf needs).map fun x => (id, x)).toFinset
  have memTaken : ∀ {id' type stack page}, (id', type, stack, page) ∈ taken ↔
      id' = id ∧ stack < needs.stacks type ∧ page < maxPagesPerStack := by
    intro id' type stack page
    rw [List.mem_toFinset, List.mem_map]
    constructor
    · rintro ⟨x, mem, same⟩
      cases same
      exact ⟨rfl, MemoryManager.mem_entriesOf.mp mem⟩
    · rintro ⟨rfl, entry⟩
      exact ⟨(type, stack, page), MemoryManager.mem_entriesOf.mpr entry, rfl⟩
  have memGiven : ∀ {id' type stack page}, (id', type, stack, page) ∈ given ↔
      id' = id ∧ stack < needs.stacks type ∧ page < m.mm.num id type stack := by
    intro id' type stack page
    rw [Finset.mem_filter, mem_live inv]
    constructor
    · rintro ⟨⟨needs', sub', rest⟩, rfl⟩
      rw [sub] at sub'
      cases sub'
      exact ⟨rfl, rest⟩
    · rintro ⟨rfl, rest⟩
      exact ⟨⟨needs, sub, rest⟩, rfl⟩
  have left : m'.live = m.live \ given := by
    ext ⟨id', type, stack, page⟩
    rw [Finset.mem_sdiff, Finset.mem_filter, mem_live inv', mem_live inv, subs,
      num_of_rules rules]
    by_cases same : id' = id
    · simp [same]
    · simp [same]
  have subset : given ⊆ taken := by
    rintro ⟨id', type, stack, page⟩ mem
    obtain ⟨same, lt, inPages⟩ := memGiven.mp mem
    exact memTaken.mpr ⟨same, lt, Nat.lt_of_lt_of_le inPages (inv.pages id needs sub type stack lt)⟩
  have release : Exact (m.live \ given) m.mm.held m'.mm.count ↔
      ∀ e ∈ taken, e ∉ given → m.mm.held e = none := by
    rw [counts]
    exact release_iff owned.exact (Finset.filter_subset _ _) subset
  have behind : (∀ e ∈ taken, e ∉ given → m.mm.held e = none) ↔ m.NothingBehind id := by
    constructor
    · intro nothing needs' sub' type stack page lt inTable last
      rw [sub] at sub'
      cases sub'
      apply nothing _ (memTaken.mpr ⟨rfl, lt, inTable⟩)
      intro mem
      exact absurd (memGiven.mp mem).2.2 (Nat.not_lt.mpr last)
    · rintro nothing ⟨id', type, stack, page⟩ mem kept
      obtain ⟨rfl, lt, inTable⟩ := memTaken.mp mem
      apply nothing needs sub type stack page lt inTable
      exact Nat.not_lt.mp fun inPages => kept (memGiven.mpr ⟨rfl, lt, inPages⟩)
  rw [← behind, ← release, left]
  constructor
  · intro owned'
    rw [← held_of_rules rules]
    exact owned'.exact
  · intro exact'
    rw [← held_of_rules rules] at exact'
    refine ⟨exact', fun i => ?_⟩
    rw [held_of_rules rules]
    apply (owned.unshared i).mono
    exact Finset.filter_subset_filter _ Finset.sdiff_subset

/-- One call keeps the counts exact if and only if it leaves nothing behind. -/
theorem ownershipExact_step_iff {call : MemoryCall} (inv : m.Inv) (exact : m.OwnershipExact)
    (allowed : m.Allowed call) (next : m.step call = some m') :
    m'.OwnershipExact ↔ m.LeavesNothing call := by
  have owned := ownershipExact_iff_owned.mp exact
  rw [ownershipExact_iff_owned]
  cases call with
  | subscribe needs => exact iff_of_true (subscribe_owned inv allowed next owned) trivial
  | addEventToStack id ev stack index type =>
      exact iff_of_true (addEventToStack_owned inv allowed next owned) trivial
  | unsubscribe id => exact unsubscribe_owned_iff inv next owned

end Step

/-- The counts stay exact throughout a history if and only if no rule unsubscribes while one of its
stacks has an entry behind its last page: such an entry is of an earlier subscriber of the slot,
who has given the chunk back already. -/
theorem ownershipExact_iff (dChunksnum : Nat) (host device : Nat → EventInfo)
    (calls : List MemoryCall) :
    Histories.Always step Allowed OwnershipExact (new dChunksnum host device) calls ↔
      Histories.AtEachCall step Allowed LeavesNothing (new dChunksnum host device) calls := by
  have keepsInv : ∀ m call m', Inv m → Allowed m call → step m call = some m' → Inv m' :=
    fun _ _ _ inv allowed next => inv.step allowed next
  have keeps : ∀ m call m', Inv m → OwnershipExact m → Allowed m call →
      step m call = some m' → (OwnershipExact m' ↔ LeavesNothing m call) :=
    fun _ _ _ inv exact allowed next => ownershipExact_step_iff inv exact allowed next
  exact Histories.always_iff keepsInv keeps (new_inv dChunksnum host device)
    (new_ownershipExact dChunksnum host device) calls

/-- A rule with one stack adds an event to its second page and unsubscribes; the next in its slot
finds the entry of that page in its table and gives the chunk back again. -/
def reusedSlot : List MemoryCall :=
  [.subscribe ⟨2, 0, 0⟩, .addEventToStack 0 ⟨[], 1⟩ 0 pageSize .state, .unsubscribe 0,
    .subscribe ⟨2, 0, 0⟩, .unsubscribe 0]

theorem reusedSlot_not_exact : ¬ Histories.Always step Allowed OwnershipExact
    (new 10 (fun _ => ⟨[], 0⟩) (fun _ => ⟨[], 0⟩)) reusedSlot := by
  intro always
  have negative : (Histories.run step Allowed (new 10 (fun _ => ⟨[], 0⟩) (fun _ => ⟨[], 0⟩))
      reusedSlot).map (fun m => (m.mm.chunks 1).inUse) = some (-1) := by decide +kernel
  obtain ⟨m, ran, count⟩ := Option.map_eq_some_iff.mp negative
  have exact := always.of_run ran
  have nonneg := exact.nonneg 1
  rw [count] at nonneg
  exact absurd nonneg (by decide)

end Memory

end TRex
