import TRex.TimestampColumns

/-!
# Pages on the device

Before a kernel runs, `MemoryManager::setEventsStacks` goes over the pages of a stack's range and
copies those that the device does not have. Its loops walk over the page starts, the range being in
one piece or wrapped. `resident_iff` says when every page of the range is on the device afterwards
and no page has been looked up that the stack does not have: unless an empty range lies behind the
last page.
-/

namespace TRex

namespace MemoryManager

variable (mm : MemoryManager)

/-- `copyPageToDevice`. -/
def copyPageToDevice (id page : Nat) : MemoryManager :=
  let d_pad := page % mm.dChunksnum * pageSize
  let h_pad := page * pageSize
  let copied := fun a =>
    if d_pad ≤ a ∧ a < d_pad + pageSize then mm.hBaseAddress (h_pad + (a - d_pad))
    else mm.baseAddress a
  { mm with baseAddress := copied }.setOnGpu (page % mm.dChunksnum) id

def isOnGpu (id page : Nat) : Bool := decide ((mm.chunks (page % mm.dChunksnum)).onGpu = id)

end MemoryManager

/-- Where `setEventsStacks` has come to, and the entries of the stack's table that it has looked
up. -/
structure PageWalk where
  mm : MemoryManager
  offset : Nat
  looked : List Nat

namespace PageWalk

section Walk

variable (id s : Nat) (stype : StateType)

/-- `getPage`, and `copyPageToDevice` if the page is not there. -/
def set (w : PageWalk) : PageWalk :=
  let page := w.mm.pageOf id stype s (w.offset / pageSize)
  { w with
    mm := if w.mm.isOnGpu id page then w.mm else w.mm.copyPageToDevice id page
    looked := w.looked ++ [w.offset / pageSize] }

def advance (w : PageWalk) : PageWalk := { w with offset := w.offset + pageSize }

/-- The loop up to the page of `minId`. -/
def skip (minId : Nat) : Nat → PageWalk → PageWalk
  | 0, w => w
  | fuel + 1, w => if w.offset + pageSize ≤ minId then skip minId fuel w.advance else w

/-- A loop that sets a page in each turn. -/
def setWhile (condition : Nat → Bool) : Nat → PageWalk → PageWalk
  | 0, w => w
  | fuel + 1, w =>
    if condition w.offset then setWhile condition fuel (w.set id s stype).advance else w

/-- The pages before `maxId`. -/
def setBefore (maxId : Nat) (w : PageWalk) : PageWalk :=
  let w := w.setWhile id s stype (fun offset => offset + pageSize < maxId) maxPagesPerStack
  if w.offset < maxId then w.set id s stype else w

end Walk

end PageWalk

namespace MemoryManager

variable (mm : MemoryManager)

/-- `setEventsStacks`. No loop takes more turns than there are pages. -/
def setEventsStacks (id s minId maxId : Nat) (stype : StateType) : PageWalk :=
  let w : PageWalk := ⟨mm, 0, []⟩
  if maxId ≥ minId then
    ((w.skip minId maxPagesPerStack).set id s stype).advance.setBefore id s stype maxId
  else
    let w := w.setBefore id s stype maxId
    let w := ((w.skip minId maxPagesPerStack).set id s stype).advance
    w.setWhile id s stype (fun offset => offset < allocSize) maxPagesPerStack

/-! ## What is required -/

/-- A range of a stack and the pages that adding its events has allocated: those up to its end, and
all of them if the range has run past the end of the array. -/
structure Allocated (mm : MemoryManager) (id s minId maxId : Nat) (stype : StateType) : Prop where
  minInside : minId < allocSize
  maxInside : maxId < allocSize
  pages : ∀ q, (∃ c, mm.held (id, stype, s, q) = some c) ↔ q < mm.num id stype s
  some : 0 < mm.num id stype s
  reached : minId ≤ maxId → maxId ≤ pageSize * mm.num id stype s
  wrapped : maxId < minId → mm.num id stype s = maxPagesPerStack

/-- The pages of the range are on the device, and no other pages have been looked up than those that
are allocated. -/
def Resident (mm : MemoryManager) (id s minId maxId : Nat) (stype : StateType) : Prop :=
  let after := mm.setEventsStacks id s minId maxId stype
  (∀ k < Ring.size allocSize minId maxId, after.mm.isOnGpu id
    (after.mm.pageOf id stype s (Ring.pos allocSize minId k / pageSize)) = true) ∧
  ∀ q ∈ after.looked, ∃ c, mm.held (id, stype, s, q) = Option.some c

end MemoryManager

/-! ## One walk -/

namespace PageWalk

variable {id s : Nat} {stype : StateType} {w : PageWalk} {mm : MemoryManager} {k q : Nat}

/-- What is looked up is on the device, and the tables are those that the walk began with. -/
structure Sets (id s : Nat) (stype : StateType) (mm : MemoryManager) (w : PageWalk) : Prop where
  pageOf : w.mm.pageOf id stype s = mm.pageOf id stype s
  onGpu : ∀ q ∈ w.looked, w.mm.isOnGpu id (w.mm.pageOf id stype s q) = true

theorem pageOf_setOnGpu (mm : MemoryManager) (c : Nat) (n : Int) :
    (mm.setOnGpu c n).pageOf id stype s = mm.pageOf id stype s := by
  funext q
  simp only [MemoryManager.pageOf, MemoryManager.pageIdx_setOnGpu]
  rfl

theorem isOnGpu_copyPageToDevice (mm : MemoryManager) (page page' : Nat) :
    (mm.copyPageToDevice id page).isOnGpu id page' =
      (mm.isOnGpu id page' || decide (page' % mm.dChunksnum = page % mm.dChunksnum)) := by
  rw [Bool.eq_iff_iff]
  by_cases same : page' % mm.dChunksnum = page % mm.dChunksnum
  · simp [MemoryManager.isOnGpu, MemoryManager.copyPageToDevice, MemoryManager.setOnGpu, same]
  · simp [MemoryManager.isOnGpu, MemoryManager.copyPageToDevice, MemoryManager.setOnGpu, same]

theorem Sets.set (sets : Sets id s stype mm w) : Sets id s stype mm (w.set id s stype) := by
  by_cases there : w.mm.isOnGpu id (w.mm.pageOf id stype s (w.offset / pageSize)) = true
  · have same : w.set id s stype = { w with looked := w.looked ++ [w.offset / pageSize] } := by
      rw [PageWalk.set, if_pos there]
    rw [same]
    refine ⟨sets.pageOf, fun q mem => ?_⟩
    rcases List.mem_append.mp mem with old | new
    · exact sets.onGpu q old
    · rw [List.mem_singleton.mp new]
      exact there
  · have copied : w.set id s stype =
        { mm := w.mm.copyPageToDevice id (w.mm.pageOf id stype s (w.offset / pageSize))
          offset := w.offset
          looked := w.looked ++ [w.offset / pageSize] } := by
      rw [PageWalk.set, if_neg there]
    have tables : ∀ page, (w.mm.copyPageToDevice id page).pageOf id stype s =
        w.mm.pageOf id stype s := fun page => pageOf_setOnGpu _ _ _
    rw [copied]
    refine ⟨(tables _).trans sets.pageOf, fun q mem => ?_⟩
    simp only [tables, isOnGpu_copyPageToDevice, Bool.or_eq_true, decide_eq_true_eq]
    rcases List.mem_append.mp mem with old | new
    · exact .inl (sets.onGpu q old)
    · rw [List.mem_singleton.mp new]
      exact .inr rfl

theorem Sets.advance (sets : Sets id s stype mm w) : Sets id s stype mm w.advance :=
  ⟨sets.pageOf, sets.onGpu⟩

theorem Sets.skip {minId : Nat} (fuel : Nat) (sets : Sets id s stype mm w) :
    Sets id s stype mm (w.skip minId fuel) := by
  induction fuel generalizing w with
  | zero => exact sets
  | succ fuel ih =>
    unfold PageWalk.skip
    split
    case isTrue => exact ih sets.advance
    case isFalse => exact sets

theorem Sets.setWhile {condition : Nat → Bool} (fuel : Nat) (sets : Sets id s stype mm w) :
    Sets id s stype mm (w.setWhile id s stype condition fuel) := by
  induction fuel generalizing w with
  | zero => exact sets
  | succ fuel ih =>
    unfold PageWalk.setWhile
    split
    case isTrue => exact ih sets.set.advance
    case isFalse => exact sets

theorem Sets.setBefore {maxId : Nat} (sets : Sets id s stype mm w) :
    Sets id s stype mm (w.setBefore id s stype maxId) := by
  unfold PageWalk.setBefore
  dsimp only
  split
  case isTrue => exact (sets.setWhile _).set
  case isFalse => exact sets.setWhile _

/-! ## The pages looked up -/

/-- The walk stands at the start of page `k`. -/
def At (w : PageWalk) (k : Nat) : Prop := w.offset = pageSize * k

theorem At.page (here : w.At k) : w.offset / pageSize = k := by
  rw [here, Nat.mul_div_cancel_left k (by decide)]

theorem At.advance (here : w.At k) : w.advance.At (k + 1) := by
  rw [At, PageWalk.advance, here, Nat.mul_succ]

theorem skip_at (minId fuel : Nat) (here : w.At k) (before : k ≤ minId / pageSize)
    (enough : minId / pageSize ≤ k + fuel) :
    (w.skip minId fuel).At (minId / pageSize) ∧ (w.skip minId fuel).looked = w.looked := by
  induction fuel generalizing w k with
  | zero =>
    have arrived : k = minId / pageSize := by omega
    exact ⟨arrived ▸ here, rfl⟩
  | succ fuel ih =>
    unfold skip
    have offset : w.offset = pageSize * k := here
    split
    case isTrue more =>
      rw [offset, ← Nat.mul_succ, Nat.mul_comm, ← Nat.le_div_iff_mul_le (by decide)] at more
      exact ih here.advance more (by omega)
    case isFalse last =>
      rw [offset, ← Nat.mul_succ, Nat.mul_comm, ← Nat.le_div_iff_mul_le (by decide)] at last
      have arrived : k = minId / pageSize := by omega
      exact ⟨arrived ▸ here, rfl⟩

/-- A loop whose condition holds before page `m` looks up the pages from its own to `m`. -/
theorem setWhile_at (id s : Nat) (stype : StateType) (condition : Nat → Bool) {m : Nat} (fuel : Nat)
    (bound : ∀ k, condition (pageSize * k) = true ↔ k < m) (here : w.At k) (enough : m ≤ k + fuel) :
    (w.setWhile id s stype condition fuel).At (max k m) ∧
      ∀ q, q ∈ (w.setWhile id s stype condition fuel).looked ↔ q ∈ w.looked ∨ k ≤ q ∧ q < m := by
  induction fuel generalizing w k with
  | zero =>
    rw [max_eq_left (by omega)]
    exact ⟨here, fun q => ⟨.inl, fun mem => mem.resolve_right (by omega)⟩⟩
  | succ fuel ih =>
    unfold setWhile
    have offset : w.offset = pageSize * k := here
    rw [offset]
    split
    case isTrue more =>
      have before := (bound k).mp more
      have there : (w.set id s stype).At k := here
      rcases ih there.advance (by omega) with ⟨stops, pages⟩
      rw [max_eq_right (by omega)] at stops ⊢
      refine ⟨stops, fun q => (pages q).trans ?_⟩
      have looked : (w.set id s stype).advance.looked = w.looked ++ [k] := by
        rw [← here.page]
        rfl
      rw [looked, List.mem_append, List.mem_singleton, or_assoc]
      apply or_congr_right
      omega
    case isFalse last =>
      rw [bound] at last
      rw [max_eq_left (by omega)]
      exact ⟨here, fun q => ⟨.inl, fun mem => mem.resolve_right (by omega)⟩⟩

/-- The pages from the walk's own to the end of the range. -/
theorem setBefore_at (id s : Nat) (stype : StateType) {maxId : Nat} (inside : maxId ≤ allocSize)
    (here : w.At k) :
    (∃ j, (w.setBefore id s stype maxId).At j ∧ (j ≤ k ∨ pageSize * j < maxId)) ∧
      ∀ q, q ∈ (w.setBefore id s stype maxId).looked ↔
        q ∈ w.looked ∨ k ≤ q ∧ pageSize * q < maxId := by
  have bound : ∀ k,
      decide (pageSize * k + pageSize < maxId) = true ↔ k < (maxId - 1) / pageSize := by
    intro k
    rw [decide_eq_true_eq]
    simp only [pageSize]
    omega
  have enough : (maxId - 1) / pageSize ≤ k + maxPagesPerStack := by
    simp only [maxPagesPerStack, pageSize, allocSize] at inside ⊢
    omega
  have loop := setWhile_at id s stype (fun offset => offset + pageSize < maxId) maxPagesPerStack
    bound here enough
  unfold setBefore
  dsimp only
  generalize w.setWhile id s stype (fun offset => offset + pageSize < maxId) maxPagesPerStack = w'
    at loop
  rcases loop with ⟨stops, pages⟩
  have offset : w'.offset = pageSize * max k ((maxId - 1) / pageSize) := stops
  split
  case isTrue more =>
    refine ⟨⟨_, stops, ?_⟩, fun q => ?_⟩
    · rw [← offset]
      exact .inr more
    · have looked : (w'.set id s stype).looked = w'.looked ++ [max k ((maxId - 1) / pageSize)] := by
        rw [← stops.page]
        rfl
      rw [looked, List.mem_append, List.mem_singleton, pages, or_assoc]
      apply or_congr_right
      simp only [offset, pageSize] at more ⊢
      omega
  case isFalse last =>
    have behind : max k ((maxId - 1) / pageSize) = k := by
      simp only [offset, pageSize] at last ⊢
      omega
    refine ⟨⟨k, behind ▸ stops, .inl le_rfl⟩, fun q => (pages q).trans ?_⟩
    apply or_congr_right
    simp only [offset, pageSize] at last ⊢
    omega

end PageWalk

/-! ## The whole walk -/

namespace MemoryManager

variable {mm : MemoryManager} {id s minId maxId : Nat} {stype : StateType}

theorem setEventsStacks_sets (mm : MemoryManager) (id s minId maxId : Nat) (stype : StateType) :
    PageWalk.Sets id s stype mm (mm.setEventsStacks id s minId maxId stype) := by
  have start : PageWalk.Sets id s stype mm ⟨mm, 0, []⟩ := ⟨rfl, List.forall_mem_nil _⟩
  unfold setEventsStacks
  dsimp only
  split
  case isTrue => exact (start.skip _).set.advance.setBefore
  case isFalse => exact (start.setBefore.skip _).set.advance.setWhile _

theorem mem_looked (minInside : minId < allocSize) (maxInside : maxId < allocSize) (q : Nat) :
    q ∈ (mm.setEventsStacks id s minId maxId stype).looked ↔
      if minId ≤ maxId then q = minId / pageSize ∨ minId / pageSize < q ∧ pageSize * q < maxId
      else pageSize * q < maxId ∨ minId / pageSize ≤ q ∧ q < maxPagesPerStack := by
  have start : PageWalk.At ⟨mm, 0, []⟩ 0 := rfl
  have few : minId / pageSize < maxPagesPerStack := GPUProcessor.page_lt minInside
  have looked : ∀ {w : PageWalk} {k : Nat}, w.At k →
      (w.set id s stype).advance.looked = w.looked ++ [k] := by
    intro w k here
    rw [← here.page]
    rfl
  unfold setEventsStacks
  dsimp only
  split
  case isTrue contiguous =>
    rcases PageWalk.skip_at minId maxPagesPerStack start (Nat.zero_le _) (by omega) with
      ⟨first, none⟩
    have there := first.advance
    rcases PageWalk.setBefore_at id s stype maxInside.le
      (show ((PageWalk.skip minId maxPagesPerStack ⟨mm, 0, []⟩).set id s stype).advance.At _
        from there) with ⟨_, pages⟩
    rw [pages, looked first, none, List.nil_append, List.mem_singleton]
    exact or_congr_right (and_congr_left' Nat.succ_le_iff)
  case isFalse wrapped =>
    rcases PageWalk.setBefore_at id s stype maxInside.le start with ⟨⟨j, stops, low⟩, before⟩
    have early : j ≤ minId / pageSize := by
      simp only [pageSize] at low ⊢
      omega
    rcases PageWalk.skip_at minId maxPagesPerStack stops early (by omega) with ⟨first, none⟩
    have toEnd : ∀ k, decide (pageSize * k < allocSize) = true ↔ k < maxPagesPerStack := by
      intro k
      rw [decide_eq_true_eq]
      simp only [pageSize, allocSize, maxPagesPerStack]
      omega
    rcases PageWalk.setWhile_at id s stype (fun offset => offset < allocSize) maxPagesPerStack toEnd
      (show (((PageWalk.setBefore id s stype maxId ⟨mm, 0, []⟩).skip minId maxPagesPerStack).set
        id s stype).advance.At _ from first.advance) (by omega) with ⟨_, pages⟩
    rw [pages, looked first, none, List.mem_append, List.mem_singleton, before]
    simp only [List.not_mem_nil, false_or, Nat.zero_le, true_and, or_assoc]
    apply or_congr_right
    omega

/-- The walk misses no page of the range. -/
theorem looked_of_place (minInside : minId < allocSize) (maxInside : maxId < allocSize) {k : Nat}
    (before : k < Ring.size allocSize minId maxId) :
    Ring.pos allocSize minId k / pageSize ∈ (mm.setEventsStacks id s minId maxId stype).looked := by
  have inside : Ring.pos allocSize minId k < allocSize := Ring.pos_lt minInside
  have page := GPUProcessor.page_lt inside
  have within := Ring.pos_within minInside maxInside before
  rw [mem_looked minInside maxInside]
  generalize Ring.pos allocSize minId k = place at page within ⊢
  split at within
  case isTrue contiguous =>
    rw [if_pos contiguous]
    simp only [pageSize]
    omega
  case isFalse wrapped =>
    rw [if_neg wrapped]
    simp only [pageSize] at page ⊢
    omega

/-- A page that the stack does not have is looked up exactly for an empty range behind its last. -/
theorem looked_allocated_iff (allocated : mm.Allocated id s minId maxId stype) :
    (∀ q ∈ (mm.setEventsStacks id s minId maxId stype).looked, q < mm.num id stype s) ↔
      ¬ (minId = maxId ∧ maxId = pageSize * mm.num id stype s) := by
  have pages : ∀ q, q ∈ (mm.setEventsStacks id s minId maxId stype).looked ↔ _ :=
    fun q => mem_looked allocated.minInside allocated.maxInside q
  have reached := allocated.reached
  have minPage := GPUProcessor.page_lt allocated.minInside
  have maxInside := allocated.maxInside
  by_cases contiguous : minId ≤ maxId
  · simp only [if_pos contiguous] at pages
    have enough := reached contiguous
    simp only [pageSize] at pages enough ⊢
    constructor
    · intro all empty
      have first := all (minId / 2048) ((pages _).mpr (.inl rfl))
      omega
    · intro other q mem
      rcases (pages q).mp mem with first | ⟨_, later⟩
      · omega
      · omega
  · simp only [if_neg contiguous] at pages
    have all := allocated.wrapped (by omega)
    constructor
    · intro _ empty
      omega
    · intro _ q mem
      rw [all]
      rcases (pages q).mp mem with early | ⟨_, late⟩
      · simp only [pageSize, allocSize, maxPagesPerStack] at early maxInside ⊢
        omega
      · exact late

/-- The pages of a range are on the device, and the walk has looked up pages of the stack only,
unless the range is empty and begins behind the last page of the stack. -/
theorem resident_iff (mm : MemoryManager) (id s minId maxId : Nat) (stype : StateType)
    (allocated : mm.Allocated id s minId maxId stype) :
    mm.Resident id s minId maxId stype ↔
      ¬ (minId = maxId ∧ maxId = pageSize * mm.num id stype s) := by
  rw [← looked_allocated_iff allocated, Resident]
  have sets := setEventsStacks_sets mm id s minId maxId stype
  constructor
  · intro resident q mem
    exact (allocated.pages q).mp (resident.2 q mem)
  · intro all
    constructor
    · intro k before
      exact sets.onGpu _ (looked_of_place allocated.minInside allocated.maxInside before)
    · intro q mem
      exact (allocated.pages q).mpr (all q mem)

/-- A stack with one page. -/
def onePage : MemoryManager :=
  { MemoryManager.new 64 (fun _ => ⟨[], 0⟩) (fun _ => ⟨[], 0⟩) with
    rules := fun _ =>
      { chunks := fun _ _ page => if page = 0 then some 0 else none
        numChunks := fun _ _ => 1 } }

theorem onePage_allocated {minId maxId : Nat} (ordered : minId ≤ maxId) (one : maxId ≤ pageSize) :
    onePage.Allocated 0 0 minId maxId .state where
  minInside := by
    simp only [pageSize, allocSize] at one ⊢
    omega
  maxInside := by
    simp only [pageSize, allocSize] at one ⊢
    omega
  pages q := by
    have one : onePage.num 0 .state 0 = 1 := rfl
    rw [one, Nat.lt_one_iff]
    by_cases first : q = 0
    · exact ⟨fun _ => first, fun _ => ⟨0, if_pos first⟩⟩
    · have missing : onePage.held (0, .state, 0, q) = none := if_neg first
      rw [missing]
      exact ⟨fun found => absurd found.choose_spec (by simp), fun zero => absurd zero first⟩
  some := Nat.zero_lt_one
  reached _ := one
  wrapped before := absurd before (Nat.not_lt.mpr ordered)

theorem resident_iff_onePage : onePage.Resident 0 0 3 10 .state ↔
    ¬ ((3 : Nat) = 10 ∧ 10 = pageSize * onePage.num 0 .state 0) :=
  resident_iff onePage 0 0 3 10 .state (onePage_allocated (by decide) (by decide))

/-- The 2048 events of the page have expired. -/
theorem emptied_not_resident : onePage.Allocated 0 0 2048 2048 .state ∧
    ¬ onePage.Resident 0 0 2048 2048 .state := by
  have allocated := onePage_allocated (le_refl 2048) (le_refl 2048)
  refine ⟨allocated, fun resident => ?_⟩
  have mem : 1 ∈ (onePage.setEventsStacks 0 0 2048 2048 .state).looked :=
    (mem_looked allocated.minInside allocated.maxInside 1).mpr (by decide)
  exact absurd ((allocated.pages 1).mp (resident.2 1 mem)) (by decide)

end MemoryManager

end TRex
