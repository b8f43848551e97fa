import Mathlib.Data.Set.Insert
import TRex.PageOwnership

/-!
# The events of one rule

What the pages of a rule hold. `Paged` says that the pages in use of a rule lie in different chunks:
no free chunk is one that `ruleOwns` finds in a table of the rule. Writing an event then changes one
place of one stack (`getEvent_write`), adding one keeps all others (`addEventToStack_added`), and
`cleanEventStack` moves up the events behind the removed one (`cleanEventStack_getEvent`).
-/

namespace TRex

namespace MemoryManager

variable {mm mm' mm₁ mm₂ : MemoryManager} {id stack page index c : Nat} {type : StateType}
  {ev : EventInfo} {L : Set (StateType × Nat × Nat)}

/-! ## Pages in different chunks -/

/-- Pages of a rule: they hold chunks, and different ones. -/
structure Paged (mm : MemoryManager) (id : Nat) (L : Set (StateType × Nat × Nat)) : Prop where
  numbered : ∀ c, (mm.chunks c).pageIdx = c
  inTable : ∀ x ∈ L, x.2.1 < maxStacks x.1 ∧ x.2.2 < maxPagesPerStack
  holds : ∀ x ∈ L, ∃ c, mm.held (id, x) = some c
  unshared : ∀ x ∈ L, ∀ y ∈ L, mm.held (id, x) = mm.held (id, y) → x = y

theorem pageIdx_setInUse (n : Int) (d : Nat) :
    ((mm.setInUse c n).chunks d).pageIdx = (mm.chunks d).pageIdx := by
  by_cases same : d = c
  · simp [setInUse, same]
  · simp [setInUse, same]

theorem pageIdx_setOnGpu (n : Int) (d : Nat) :
    ((mm.setOnGpu c n).chunks d).pageIdx = (mm.chunks d).pageIdx := by
  by_cases same : d = c
  · simp [setOnGpu, same]
  · simp [setOnGpu, same]

theorem Paged.of_same (paged : mm.Paged id L) (heldSame : mm'.held = mm.held)
    (pagesSame : ∀ c, (mm'.chunks c).pageIdx = (mm.chunks c).pageIdx) : mm'.Paged id L := by
  constructor
  · intro c
    rw [pagesSame, paged.numbered]
  · exact paged.inTable
  · rw [heldSame]
    exact paged.holds
  · rw [heldSame]
    exact paged.unshared

/-- `ruleOwns` looks at every entry of every table. -/
theorem not_held_of_not_owned (numbered : ∀ c, (mm.chunks c).pageIdx = c)
    (free : mm.ruleOwns id c = false) {x : StateType × Nat × Nat} (ofTable : x.2.1 < maxStacks x.1)
    (ofStack : x.2.2 < maxPagesPerStack) : mm.held (id, x) ≠ some c := by
  intro holds
  have owns : mm.ruleOwns id c = true := by
    rw [ruleOwns, List.any_eq_true]
    refine ⟨x.1, ?_, ?_⟩
    · cases x.1 <;> simp
    · rw [List.any_eq_true]
      refine ⟨x.2.1, List.mem_range.mpr ofTable, ?_⟩
      rw [List.any_eq_true]
      refine ⟨x.2.2, List.mem_range.mpr ofStack, ?_⟩
      have entry : (mm.rules id).chunks x.1 x.2.1 x.2.2 = some c := holds
      simp only [entry, numbered, beq_self_eq_true]
  rw [free] at owns
  cases owns

theorem getFreeChunk_free (found : mm.getFreeChunk id = some (c, mm')) :
    mm.ruleOwns id c = false ∧ mm'.hBaseAddress = mm.hBaseAddress ∧
      ∀ d, (mm'.chunks d).pageIdx = (mm.chunks d).pageIdx := by
  rw [getFreeChunk] at found
  split at found
  case h_1 => cases found
  case h_2 i first =>
    have free := List.find?_some first
    simp only [Bool.and_eq_true, Bool.not_eq_true'] at free
    cases found
    exact ⟨free.2, rfl, pageIdx_setInUse _⟩

/-- A new page gets a chunk of its own. -/
theorem Paged.assign (paged : mm.Paged id L) {x : StateType × Nat × Nat} (new : x ∉ L)
    (ofTable : x.2.1 < maxStacks x.1) (ofStack : x.2.2 < maxPagesPerStack)
    (found : mm.getFreeChunk id = some (c, mm₁))
    (heldBy : mm₂.held = Function.update mm₁.held (id, x) (some c))
    (pagesSame : ∀ c, (mm₂.chunks c).pageIdx = (mm₁.chunks c).pageIdx) :
    mm₂.Paged id (insert x L) := by
  obtain ⟨-, heldSame, -⟩ := getFreeChunk_eq_some found
  obtain ⟨free, -, numbers⟩ := getFreeChunk_free found
  rw [heldSame] at heldBy
  have here : mm₂.held (id, x) = some c := by rw [heldBy, Function.update_self]
  have old : ∀ y ∈ L, mm₂.held (id, y) = mm.held (id, y) := by
    intro y mem
    rw [heldBy]
    apply Function.update_of_ne
    intro same
    exact new ((Prod.mk.inj same).2 ▸ mem)
  have other : ∀ y ∈ L, mm.held (id, y) ≠ some c := fun y mem =>
    not_held_of_not_owned paged.numbered free (paged.inTable y mem).1 (paged.inTable y mem).2
  constructor
  · intro d
    rw [pagesSame, numbers, paged.numbered]
  · intro y mem
    rcases Set.mem_insert_iff.mp mem with rfl | before
    · exact ⟨ofTable, ofStack⟩
    · exact paged.inTable y before
  · intro y mem
    rcases Set.mem_insert_iff.mp mem with rfl | before
    · exact ⟨c, here⟩
    · rw [old y before]
      exact paged.holds y before
  · intro y memY z memZ same
    rcases Set.mem_insert_iff.mp memY with rfl | beforeY
    · rcases Set.mem_insert_iff.mp memZ with rfl | beforeZ
      · rfl
      · rw [here, old z beforeZ] at same
        exact absurd same.symm (other z beforeZ)
    · rcases Set.mem_insert_iff.mp memZ with rfl | beforeZ
      · rw [here, old y beforeY] at same
        exact absurd same (other y beforeY)
      · rw [old y beforeY, old z beforeZ] at same
        exact paged.unshared y beforeY z beforeZ same

theorem firstPage_inTable : 0 < maxPagesPerStack := by decide

theorem firstPages_paged {columns : List (StateType × Nat)}
    (paged : firstPages id columns mm = some mm') (nodup : columns.Nodup) (own : mm.Paged id L)
    (fits : ∀ x ∈ columns, x.2 < maxStacks x.1) (new : ∀ x ∈ columns, (x.1, x.2, 0) ∉ L) :
    mm'.Paged id (L ∪ {y | ∃ x ∈ columns, y = (x.1, x.2, 0)}) := by
  induction columns generalizing mm L with
  | nil =>
      cases paged
      have nothing : L ∪ {y | ∃ x ∈ ([] : List (StateType × Nat)), y = (x.1, x.2, 0)} = L := by
        ext y
        simp
      rw [nothing]
      exact own
  | cons x rest ih =>
      rw [firstPages] at paged
      cases first : mm.firstPage id x.1 x.2 with
      | none =>
          rw [first] at paged
          cases paged
      | some mm₂ =>
          rw [first] at paged
          obtain ⟨c, mm₁, found, made⟩ := firstPage_eq_some first
          have own₂ : mm₂.Paged id (insert (x.1, x.2, 0) L) := by
            apply own.assign (new x List.mem_cons_self) (fits x List.mem_cons_self)
              firstPage_inTable found
            · rw [made, held_setNumChunks, held_setOnGpu, held_setChunk]
            · rw [made]
              exact pageIdx_setOnGpu _
          obtain ⟨notIn, nodupRest⟩ := List.nodup_cons.mp nodup
          have newRest : ∀ y ∈ rest, (y.1, y.2, 0) ∉ insert (x.1, x.2, 0) L := by
            intro y mem inL
            rcases Set.mem_insert_iff.mp inL with same | old
            · simp only [Prod.mk.injEq, and_true] at same
              exact notIn (Prod.ext same.1 same.2 ▸ mem)
            · exact new y (List.mem_cons_of_mem x mem) old
          have all := ih paged nodupRest own₂ (fun y mem => fits y (List.mem_cons_of_mem x mem))
            newRest
          have same : insert (x.1, x.2, 0) L ∪ {y | ∃ x ∈ rest, y = (x.1, x.2, 0)} =
              L ∪ {y | ∃ z ∈ x :: rest, y = (z.1, z.2, 0)} := by
            ext y
            simp only [Set.mem_union, Set.mem_insert_iff, Set.mem_ofPred_eq, List.mem_cons,
              exists_eq_or_imp]
            tauto
          rw [← same]
          exact all

/-! ## Writing events -/

theorem Paged.pageOf (paged : mm.Paged id L) {t : StateType} {s q c : Nat}
    (holds : mm.held (id, t, s, q) = some c) : mm.pageOf id t s q = c := by
  have entry : (mm.rules id).chunks t s q = some c := holds
  rw [MemoryManager.pageOf, entry, Option.map_some, Option.getD_some, paged.numbered]

theorem address_injective {c d i j : Nat}
    (same : c * pageSize + i % pageSize = d * pageSize + j % pageSize) :
    c = d ∧ i % pageSize = j % pageSize := by
  simp only [pageSize] at same ⊢
  omega

theorem index_ext {i j : Nat} (page : i / pageSize = j / pageSize)
    (offset : i % pageSize = j % pageSize) : i = j := by
  simp only [pageSize] at page offset
  omega

/-- Writing to a place of a page changes the event at that place. -/
theorem getEvent_write (paged : mm.Paged id L) (own : (type, stack, index / pageSize) ∈ L)
    {s i : Nat} (other : (StateType.state, s, i / pageSize) ∈ L) (ev : EventInfo) :
    { mm with
      hBaseAddress := Function.update mm.hBaseAddress
        (mm.pageOf id type stack (index / pageSize) * pageSize + index % pageSize) ev }.getEvent
          id s i =
      if type = .state ∧ s = stack ∧ i = index then ev else mm.getEvent id s i := by
  obtain ⟨c, holds⟩ := paged.holds _ own
  obtain ⟨d, holds'⟩ := paged.holds _ other
  have here := paged.pageOf holds
  have there := paged.pageOf holds'
  have pagedAfter : { mm with
      hBaseAddress := Function.update mm.hBaseAddress
        (mm.pageOf id type stack (index / pageSize) * pageSize + index % pageSize) ev }.Paged
          id L := paged.of_same rfl fun _ => rfl
  have thereAfter := pagedAfter.pageOf holds'
  rw [getEvent, thereAfter, here]
  simp only
  by_cases same : type = .state ∧ s = stack ∧ i = index
  · obtain ⟨rfl, rfl, rfl⟩ := same
    rw [holds] at holds'
    cases holds'
    rw [if_pos ⟨rfl, rfl, rfl⟩, Function.update_self]
  · rw [if_neg same, Function.update_of_ne, getEvent, there]
    intro equal
    obtain ⟨chunk, offset⟩ := address_injective equal
    have entry := paged.unshared _ own _ other (by rw [holds, holds', chunk])
    simp only [Prod.mk.injEq] at entry
    exact same ⟨entry.1, entry.2.1.symm, (index_ext entry.2.2 offset.symm).symm⟩

theorem storeEvent_getEvent (paged : mm.Paged id L)
    (own : (type, stack, index / pageSize) ∈ L) {s i : Nat}
    (other : (StateType.state, s, i / pageSize) ∈ L) (ev : EventInfo) :
    (mm.storeEvent id ev stack index type).getEvent id s i =
      if type = .state ∧ s = stack ∧ i = index then ev else mm.getEvent id s i := by
  rw [← getEvent_write paged own other ev, storeEvent]
  simp only
  split <;> rfl

theorem storeEvent_paged (paged : mm.Paged id L) :
    (mm.storeEvent id ev stack index type).Paged id L := by
  apply paged.of_same
  · exact (storeEvent_frame ev index).1
  · intro c
    rw [storeEvent]
    simp only
    split <;> rfl

/-! ## Adding events -/

/-- The pages in use of a rule. -/
def pagesOf (mm : MemoryManager) (id : Nat) (needs : Needs) : Set (StateType × Nat × Nat) :=
  {x | x.2.1 < needs.stacks x.1 ∧ x.2.2 < mm.num id x.1 x.2.1}

/-- What an added event changes: the pages of the rule stay different, its stack may have one more,
and no other event of the states is another. -/
structure Added (mm mm' : MemoryManager) (id : Nat) (needs : Needs) (ev : EventInfo)
    (stack index : Nat) (type : StateType) : Prop where
  paged : mm'.Paged id (mm'.pagesOf id needs)
  num : ∀ t s, mm'.num id t s = if t = type ∧ s = stack then
    max (mm.num id t s) (index / pageSize + 1) else mm.num id t s
  others : ∀ s i, (StateType.state, s, i / pageSize) ∈ mm.pagesOf id needs →
    mm'.getEvent id s i = if type = .state ∧ s = stack ∧ i = index then ev else mm.getEvent id s i
  newest : type = .state → mm'.getEvent id stack index = ev

section Adding

variable {needs : Needs}

theorem pagesOf_storeEvent :
    (mm.storeEvent id ev stack index type).pagesOf id needs = mm.pagesOf id needs := by
  rw [pagesOf, (storeEvent_frame ev index).2.2.1, pagesOf]

/-- The event goes to a page that is in use. -/
theorem storeEvent_added (paged : mm.Paged id (mm.pagesOf id needs))
    (own : stack < needs.stacks type) (full : index / pageSize < mm.num id type stack) :
    Added mm (mm.storeEvent id ev stack index type) id needs ev stack index type := by
  have ownPage : (type, stack, index / pageSize) ∈ mm.pagesOf id needs := ⟨own, full⟩
  constructor
  · rw [pagesOf_storeEvent]
    exact storeEvent_paged paged
  · intro t s
    rw [(storeEvent_frame ev index).2.2.1]
    split
    case isTrue here =>
      obtain ⟨rfl, rfl⟩ := here
      omega
    case isFalse => rfl
  · exact fun s i other => storeEvent_getEvent paged ownPage other ev
  · intro state
    subst state
    rw [storeEvent_getEvent paged ownPage ownPage ev, if_pos ⟨rfl, rfl, rfl⟩]

/-- A free chunk becomes the next page of a stack. -/
def withPage (mm : MemoryManager) (id : Nat) (type : StateType) (stack page c : Nat) :
    MemoryManager :=
  ((mm.setChunk id type stack page c).setOnGpu (c % mm.dChunksnum) id).setNumChunks id type stack
    (page + 1)

theorem held_withPage :
    (mm.withPage id type stack page c).held =
      Function.update mm.held (id, type, stack, page) (some c) := by
  rw [withPage, held_setNumChunks, held_setOnGpu, held_setChunk]

theorem num_withPage (t : StateType) (s : Nat) :
    (mm.withPage id type stack page c).num id t s =
      if t = type ∧ s = stack then page + 1 else mm.num id t s := by
  rw [withPage, num_setNumChunks, num_setOnGpu, num_setChunk]
  simp only [true_and]

/-- The rule has the new page besides the old ones. -/
theorem pagesOf_withPage (own : stack < needs.stacks type) (last : page = mm.num id type stack) :
    (mm.withPage id type stack page c).pagesOf id needs =
      insert (type, stack, page) (mm.pagesOf id needs) := by
  ext ⟨t, s, q⟩
  have member : (t, s, q) ∈ (mm.withPage id type stack page c).pagesOf id needs ↔
      s < needs.stacks t ∧ q < (mm.withPage id type stack page c).num id t s := Iff.rfl
  rw [member, Set.mem_insert_iff, num_withPage]
  by_cases here : t = type ∧ s = stack
  · obtain ⟨rfl, rfl⟩ := here
    simp only [and_self, if_true, Prod.mk.injEq, true_and, pagesOf, Set.mem_ofPred_eq, own, last]
    omega
  · rw [if_neg here]
    constructor
    · exact .inr
    · intro mem
      rcases mem with same | old
      · simp only [Prod.mk.injEq] at same
        exact absurd ⟨same.1, same.2.1⟩ here
      · exact old

/-- The new page lies in a chunk of its own. -/
theorem Paged.withPage (paged : mm.Paged id (mm.pagesOf id needs))
    (fits : needs.stacks type ≤ maxStacks type) (own : stack < needs.stacks type)
    (ofStack : page < maxPagesPerStack) (last : page = mm.num id type stack)
    (found : mm.getFreeChunk id = some (c, mm₂)) :
    (mm₂.withPage id type stack page c).Paged id
      (insert (type, stack, page) (mm.pagesOf id needs)) := by
  have new : (type, stack, page) ∉ mm.pagesOf id needs := by
    intro mem
    have before : page < mm.num id type stack := mem.2
    omega
  exact paged.assign new (Nat.lt_of_lt_of_le own fits) ofStack found held_withPage
    (pageIdx_setOnGpu _)

/-- No event of the pages in use before is another. -/
theorem getEvent_withPage (paged : mm.Paged id (mm.pagesOf id needs))
    (last : page = mm.num id type stack) (found : mm.getFreeChunk id = some (c, mm₂))
    (pagedAfter : (mm₂.withPage id type stack page c).Paged id L) {s i : Nat}
    (mem : (StateType.state, s, i / pageSize) ∈ mm.pagesOf id needs) :
    (mm₂.withPage id type stack page c).getEvent id s i = mm.getEvent id s i := by
  obtain ⟨-, heldSame, -, -⟩ := getFreeChunk_eq_some found
  obtain ⟨-, baseSame, -⟩ := getFreeChunk_free found
  obtain ⟨d, holds⟩ := paged.holds _ mem
  have holdsAfter : (mm₂.withPage id type stack page c).held (id, .state, s, i / pageSize) =
      some d := by
    rw [held_withPage, Function.update_of_ne, heldSame, holds]
    intro same
    have page' : (StateType.state, s, i / pageSize) = (type, stack, page) := (Prod.mk.inj same).2
    have before : page < mm.num id type stack := (page' ▸ mem).2
    omega
  have base : (mm₂.withPage id type stack page c).hBaseAddress = mm.hBaseAddress := baseSame
  rw [getEvent, getEvent, pagedAfter.pageOf holdsAfter, paged.pageOf holds, base]

/-- The event goes to a new page. -/
theorem storeEvent_withPage_added (paged : mm.Paged id (mm.pagesOf id needs))
    (fits : needs.stacks type ≤ maxStacks type) (own : stack < needs.stacks type)
    (inside : index < allocSize) (last : index / pageSize = mm.num id type stack)
    (found : mm.getFreeChunk id = some (c, mm₂)) :
    Added mm ((mm₂.withPage id type stack (index / pageSize) c).storeEvent id ev stack index type)
      id needs ev stack index type := by
  obtain ⟨-, -, numSame, -⟩ := getFreeChunk_eq_some found
  have ofStack : index / pageSize < maxPagesPerStack := by
    rw [maxPagesPerStack]
    exact Nat.div_lt_div_of_lt_of_dvd (by decide) inside
  have pages : (mm₂.withPage id type stack (index / pageSize) c).pagesOf id needs =
      insert (type, stack, index / pageSize) (mm.pagesOf id needs) := by
    rw [pagesOf_withPage own (last.trans (numSame ▸ rfl)), pagesOf, numSame, pagesOf]
  have pagedAfter := paged.withPage fits own ofStack last found
  have ownPage := Set.mem_insert (type, stack, index / pageSize) (mm.pagesOf id needs)
  constructor
  · rw [pagesOf_storeEvent, pages]
    exact storeEvent_paged pagedAfter
  · intro t s
    rw [(storeEvent_frame ev index).2.2.1, num_withPage, numSame]
    split
    case isTrue here =>
      obtain ⟨rfl, rfl⟩ := here
      omega
    case isFalse => rfl
  · intro s i mem
    rw [← getEvent_withPage paged last found pagedAfter mem]
    exact storeEvent_getEvent pagedAfter ownPage (Set.mem_insert_of_mem _ mem) ev
  · intro state
    subst state
    exact (storeEvent_getEvent pagedAfter ownPage ownPage ev).trans (if_pos ⟨rfl, rfl, rfl⟩)

/-- An event is added behind the others or in a page in use. -/
theorem addEventToStack_added (paged : mm.Paged id (mm.pagesOf id needs))
    (fits : needs.stacks type ≤ maxStacks type) (own : stack < needs.stacks type)
    (inside : index < allocSize) (next : index / pageSize ≤ mm.num id type stack)
    (added : mm.addEventToStack id ev stack index type = some mm') :
    Added mm mm' id needs ev stack index type := by
  rw [addEventToStack] at added
  obtain ⟨mm₁, grown, stored⟩ := Option.bind_eq_some_iff.mp added
  cases stored
  rcases growLoop_eq_some grown next with ⟨full, rfl⟩ | ⟨last, c, mm₂, mm₃, found, rfl, rfl⟩
  · exact storeEvent_added paged own full
  · exact storeEvent_withPage_added paged fits own inside last found

end Adding

/-! ## Removing events -/

theorem setEvent_getEvent (paged : mm.Paged id L)
    (own : (StateType.state, stack, index / pageSize) ∈ L) {s i : Nat}
    (other : (StateType.state, s, i / pageSize) ∈ L) (ev : EventInfo) :
    (mm.setEvent id stack index ev).getEvent id s i =
      if s = stack ∧ i = index then ev else mm.getEvent id s i := by
  have written := getEvent_write paged own other ev
  simp only [true_and] at written
  exact written

/-- The events behind the removed one move up. -/
theorem cleanLoop_getEvent {idx high : Nat} (fuel k : Nat) (paged : mm.Paged id L)
    (pages : ∀ j < high, (StateType.state, stack, j / pageSize) ∈ L) (inside : high < allocSize)
    (below : idx + k < high) (enough : high ≤ idx + k + fuel) :
    (cleanLoop id stack idx high fuel k mm).rules = mm.rules ∧
    (cleanLoop id stack idx high fuel k mm).Paged id L ∧
    ∀ s i, (StateType.state, s, i / pageSize) ∈ L →
      (cleanLoop id stack idx high fuel k mm).getEvent id s i =
        if s = stack ∧ idx + k ≤ i ∧ i + 1 < high then mm.getEvent id s (i + 1)
        else mm.getEvent id s i := by
  induction fuel generalizing k mm with
  | zero => omega
  | succ fuel ih =>
      have small : (idx + k + 1) % allocSize = idx + k + 1 := Nat.mod_eq_of_lt (by omega)
      have small' : (idx + k) % allocSize = idx + k := Nat.mod_eq_of_lt (by omega)
      rw [cleanLoop, small]
      split
      case isTrue last =>
        refine ⟨rfl, paged, fun s i _ => ?_⟩
        rw [if_neg]
        omega
      case isFalse more =>
        simp only [small']
        let cleared := mm.invalidatePage (mm.pageOf id .state stack ((idx + k) / pageSize))
        let moved := cleared.setEvent id stack (idx + k) (cleared.getEvent id stack (idx + k + 1))
        have pagedCleared : cleared.Paged id L := paged.of_same rfl (pageIdx_setOnGpu _)
        have pagedMoved : moved.Paged id L := pagedCleared.of_same rfl fun _ => rfl
        have readCleared : ∀ s i, cleared.getEvent id s i = mm.getEvent id s i := by
          intro s i
          have same : cleared.pageOf id .state s (i / pageSize) =
              mm.pageOf id .state s (i / pageSize) := by
            rw [MemoryManager.pageOf, MemoryManager.pageOf]
            congr 1
            have rules : cleared.rules = mm.rules := rfl
            rw [rules]
            congr 1
            funext c
            exact pageIdx_setOnGpu _ c
          have base : cleared.hBaseAddress = mm.hBaseAddress := rfl
          rw [getEvent, getEvent, same, base]
        have read : ∀ s i, (StateType.state, s, i / pageSize) ∈ L → moved.getEvent id s i =
            if s = stack ∧ i = idx + k then mm.getEvent id stack (idx + k + 1)
            else mm.getEvent id s i := by
          intro s i mem
          refine (setEvent_getEvent pagedCleared (pages (idx + k) below) mem
            (cleared.getEvent id stack (idx + k + 1))).trans ?_
          rw [readCleared, readCleared]
        obtain ⟨rules, pagedAll, readAll⟩ := ih (k + 1) pagedMoved (by omega) (by omega)
        refine ⟨rules, pagedAll, fun s i mem => ?_⟩
        have all := readAll s i mem
        rw [← Nat.add_assoc] at all
        refine all.trans ?_
        by_cases here : s = stack
        · subst here
          by_cases behind : idx + k + 1 ≤ i ∧ i + 1 < high
          · rw [if_pos ⟨rfl, behind⟩, if_pos ⟨rfl, by omega, behind.2⟩,
              read s (i + 1) (pages (i + 1) behind.2), if_neg (by omega)]
          · rw [if_neg (fun h => behind h.2), read s i mem]
            by_cases at_ : i = idx + k
            · subst at_
              rw [if_pos ⟨rfl, rfl⟩, if_pos ⟨rfl, Nat.le_refl _, by omega⟩]
            · rw [if_neg (fun h => at_ h.2), if_neg (by omega)]
        · rw [if_neg (fun h => here h.1), if_neg (fun h => here h.1), read s i mem,
            if_neg (fun h => here h.1)]

end MemoryManager

/-! ## The numbers of the chunks -/

namespace MemoryManager

variable {mm mm' : MemoryManager} {id stack page : Nat} {type : StateType}

/-- Every chunk has the page of its own number, as the constructor lays them out. -/
def Numbered (mm : MemoryManager) : Prop := ∀ c, (mm.chunks c).pageIdx = c

theorem firstPages_numbered {columns : List (StateType × Nat)}
    (paged : firstPages id columns mm = some mm') (numbered : mm.Numbered) : mm'.Numbered := by
  induction columns generalizing mm with
  | nil =>
      cases paged
      exact numbered
  | cons x rest ih =>
      rw [firstPages] at paged
      obtain ⟨mm₂, first, paged⟩ := Option.bind_eq_some_iff.mp paged
      obtain ⟨c, mm₁, found, made⟩ := firstPage_eq_some first
      obtain ⟨-, -, same⟩ := getFreeChunk_free found
      apply ih paged
      intro d
      rw [made]
      exact (pageIdx_setOnGpu _ d).trans ((same d).trans (numbered d))

theorem growLoop_numbered {n : Nat} (grown : growLoop id type stack page n mm = some mm')
    (numbered : mm.Numbered) : mm'.Numbered := by
  induction n generalizing mm with
  | zero =>
      cases grown
      exact numbered
  | succ n ih =>
      rw [growLoop] at grown
      split at grown
      case isFalse =>
        cases grown
        exact numbered
      case isTrue =>
        obtain ⟨⟨c, mm₁⟩, found, grown⟩ := Option.bind_eq_some_iff.mp grown
        obtain ⟨-, -, same⟩ := getFreeChunk_free found
        apply ih grown
        intro d
        exact (pageIdx_setOnGpu _ d).trans ((same d).trans (numbered d))

theorem releaseEntry_numbered (entry : StateType × Nat × Nat) (numbered : mm.Numbered) :
    (mm.releaseEntry id entry).Numbered := by
  rw [releaseEntry]
  split
  case h_1 => exact numbered
  case h_2 c held =>
    intro d
    rw [pageIdx_setOnGpu, pageIdx_setInUse]
    exact numbered d

theorem releaseEntries_numbered (entries : List (StateType × Nat × Nat))
    (numbered : mm.Numbered) :
    (entries.foldl (fun mm entry => mm.releaseEntry id entry) mm).Numbered := by
  induction entries generalizing mm with
  | nil => exact numbered
  | cons x rest ih => exact ih (releaseEntry_numbered x numbered)

end MemoryManager

namespace Memory

theorem step_numbered {m m' : Memory} {call : MemoryCall} (next : m.step call = some m')
    (numbered : m.mm.Numbered) : m'.mm.Numbered := by
  cases call with
  | subscribe needs =>
      obtain ⟨⟨token, mm⟩, subscribed, made⟩ := Option.map_eq_some_iff.mp next
      have same : m'.mm = mm := by
        rw [← made]
        by_cases slot : 0 ≤ token
        · simp [slot]
        · simp [slot]
      rw [same]
      rw [MemoryManager.subscribe] at subscribed
      split at subscribed
      case h_1 =>
        cases subscribed
        exact numbered
      case h_2 i free =>
        obtain ⟨mm₁, paged, rest⟩ := Option.bind_eq_some_iff.mp subscribed
        cases rest
        exact (MemoryManager.firstPages_numbered paged numbered : mm₁.Numbered)
  | addEventToStack id ev stack index type =>
      obtain ⟨mm, added, made⟩ := Option.map_eq_some_iff.mp next
      obtain ⟨mm₁, grown, stored⟩ := Option.bind_eq_some_iff.mp added
      cases stored
      rw [← made]
      intro c
      have old := MemoryManager.growLoop_numbered grown numbered c
      simp only [MemoryManager.storeEvent]
      split <;> exact old
  | unsubscribe id =>
      obtain ⟨needs, -, made⟩ := Option.map_eq_some_iff.mp next
      rw [← made]
      exact MemoryManager.releaseEntries_numbered _ numbered

theorem run_numbered {dChunksnum : Nat} {host device : Nat → EventInfo}
    {calls : List MemoryCall} {m : Memory}
    (ran : Histories.run step Allowed (new dChunksnum host device) calls = some m) :
    m.mm.Numbered := by
  have start : (new dChunksnum host device).mm.Numbered := fun _ => rfl
  generalize new dChunksnum host device = s at ran start
  induction calls generalizing s with
  | nil =>
      cases ran
      exact start
  | cons call rest ih =>
      rw [Histories.run] at ran
      split at ran
      case isFalse => cases ran
      case isTrue =>
        obtain ⟨s', next, ran⟩ := Option.bind_eq_some_iff.mp ran
        exact ih s' ran (step_numbered next start)

end Memory

end TRex
