import TRex.EventKernels
import TRex.Lib.Contest
import Mathlib.Data.List.Perm.Subperm
import Mathlib.Data.List.ProdSigma

/-!
# One extension for each partial result

The branch of `compute` for states that take the first or the last event of their window, where
their stack is large or they have negations. `computeComplexEventsSingleG` writes the extension of a
partial result at the place of that partial result; the others' places stay cleared.
`reduceFinal` counts the extensions and moves them together into the other buffer, but without the
event that they have just got, and the pointers are swapped once more before the next state: it
reads the buffer with the gaps, of which it takes as many entries as there are extensions.
`keepsSurvivors_iff` says when these are the right ones.
-/

namespace TRex

def bigNum : Nat := 1048576
def maxGen : Nat := 100
def maxNewEvents : Nat := 65536

/-- An event of zeros, of which only the timestamp is looked at. -/
def EventInfo.cleared : EventInfo := ⟨[], 0⟩

/-! ## The two buffers -/

structure ResultBuffers where
  prevResultsPtr : Nat → EventInfoSet
  currentResultsPtr : Nat → EventInfoSet
  swapped : Bool

namespace ResultBuffers

variable (b : ResultBuffers)

def swapPointers : ResultBuffers := { b with swapped := !b.swapped }

def getPrevResultsPtr : Nat → EventInfoSet :=
  if !b.swapped then b.prevResultsPtr else b.currentResultsPtr

def getCurrentResultsPtr : Nat → EventInfoSet :=
  if !b.swapped then b.currentResultsPtr else b.prevResultsPtr

/-- The device writes through `getCurrentResultsPtr`. -/
def write (results : Nat → EventInfoSet) : ResultBuffers :=
  if !b.swapped then { b with currentResultsPtr := results }
  else { b with prevResultsPtr := results }

variable {b}

@[simp] theorem getPrevResultsPtr_swapPointers :
    b.swapPointers.getPrevResultsPtr = b.getCurrentResultsPtr := by
  cases h : b.swapped <;> simp [getPrevResultsPtr, getCurrentResultsPtr, swapPointers, h]

@[simp] theorem getCurrentResultsPtr_swapPointers :
    b.swapPointers.getCurrentResultsPtr = b.getPrevResultsPtr := by
  cases h : b.swapped <;> simp [getPrevResultsPtr, getCurrentResultsPtr, swapPointers, h]

@[simp] theorem getCurrentResultsPtr_write (results : Nat → EventInfoSet) :
    (b.write results).getCurrentResultsPtr = results := by
  cases h : b.swapped <;> simp [getCurrentResultsPtr, write, h]

@[simp] theorem getPrevResultsPtr_write (results : Nat → EventInfoSet) :
    (b.write results).getPrevResultsPtr = b.getPrevResultsPtr := by
  cases h : b.swapped <;> simp [getPrevResultsPtr, write, h]

end ResultBuffers

/-! ## The kernels -/

/-- What the threads share: a number for each block, a number and the results for each row. -/
structure Shared where
  maxIdxlocal : Nat × Nat → Nat
  maxTS : Nat → Nat
  currentResult : Nat → EventInfoSet

namespace Launch

variable (l : Launch) (sequenceLen : Nat)

/-- A thread's copy of its partial result, with its event. -/
def extend (x y : Nat) (written : EventInfoSet) : EventInfoSet := fun k =>
  if k = l.state then l.event x
  else if l.state < k ∧ k < sequenceLen then l.prevResults y k
  else written k

/-- `computeComplexEventsSingleG` from the barrier on. The threads that have returned before it are
those that take their event for no candidate. -/
def thread (s : Shared) (t : Nat × Nat) : Shared :=
  let x := t.1
  let y := t.2
  let block := (x / gpuThreads, y)
  if !l.computeComplexEventsSingleG x y then s
  else if !l.firstWithin then
    let s := { s with
      maxIdxlocal := Function.update s.maxIdxlocal block (max (s.maxIdxlocal block) x) }
    if x < s.maxIdxlocal block then s
    else
      let s := { s with maxTS := Function.update s.maxTS y (max (s.maxTS y) x) }
      if s.maxTS y = x then
        { s with currentResult :=
            Function.update s.currentResult y (l.extend sequenceLen x y (s.currentResult y)) }
      else s
  else
    let s := { s with
      maxIdxlocal := Function.update s.maxIdxlocal block (min (s.maxIdxlocal block) x) }
    if x > s.maxIdxlocal block then s
    else
      let s := { s with maxTS := Function.update s.maxTS y (min (s.maxTS y) x) }
      if s.maxTS y = x then
        { s with currentResult :=
            Function.update s.currentResult y (l.extend sequenceLen x y (s.currentResult y)) }
      else s

/-- A thread of `reduceFinal`, with the counter at `currentIndex`. -/
def reduceFinal (prevResults : Nat → EventInfoSet) (s : (Nat → EventInfoSet) × Nat) (x : Nat) :
    (Nat → EventInfoSet) × Nat :=
  if x ≥ maxGen ∨ (prevResults x l.state).timestamp = 0 then s
  else
    let writeIndex := s.2
    if writeIndex ≥ maxGen then (s.1, writeIndex + 1)
    else
      (Function.update s.1 writeIndex fun k =>
        if l.state < k ∧ k ≤ sequenceLen then prevResults x k else s.1 writeIndex k, writeIndex + 1)

end Launch

/-! ## The branch of `compute` -/

/-- The blocks for a number of threads. -/
def colSize (size : Nat) : Nat := size / gpuThreads + if size % gpuThreads > 0 then 1 else 0

/-- The orders in which the threads of the launches run. -/
structure Threads (resultsSize : Nat) where
  grid : Nat → List (Nat × Nat)
  final : List Nat
  grid_perm : ∀ columns, (grid columns).Perm
    ((List.range (columns * gpuThreads)).product (List.range resultsSize))
  final_perm : final.Perm (List.range (colSize maxGen * gpuThreads))

/-- The places and sizes of the parts that the loop of the branch takes the stack in. -/
def parts : Nat → Nat → Nat → List (Nat × Nat)
  | 0, _, _ => []
  | fuel + 1, minId, size =>
    let partSize := min size maxNewEvents
    (minId, partSize) ::
      if size - partSize > 0 then parts fuel (minId + partSize) (size - partSize) else []

namespace Launch

variable (l : Launch) (sequenceLen : Nat) {resultsSize : Nat} (b : ResultBuffers)
  (threads : Threads resultsSize)

/-- The launch as `compute` makes it, with the buffer of the results so far. -/
def onto : Launch := { l with prevResults := b.getPrevResultsPtr }

def launchSingleG (part : Nat × Nat) : ResultBuffers :=
  let start : Shared :=
    { maxIdxlocal := fun _ => if l.firstWithin then bigNum else 0
      maxTS := fun _ => if l.firstWithin then 0x7f7f7f7f else 0
      currentResult := b.getCurrentResultsPtr }
  let launch := { l.onto b with minId := part.1, size := part.2 }
  b.write ((threads.grid (colSize part.2)).foldl (launch.thread sequenceLen) start).currentResult

/-- The branch and what follows in the turn: the buffers, and the number of results. -/
def computeSingle : ResultBuffers × Nat :=
  let cleared := b.write fun y =>
    if y < maxGen then fun _ => EventInfo.cleared else b.getCurrentResultsPtr y
  let launched := (parts (l.size + 1) l.minId l.size).foldl
    (fun b part => l.launchSingleG sequenceLen b threads part) cleared
  let swapped := launched.swapPointers
  let final := threads.final.foldl (l.reduceFinal sequenceLen swapped.getPrevResultsPtr)
    (swapped.getCurrentResultsPtr, 0)
  let reduced := (swapped.write final.1).swapPointers
  (if final.2 = 0 then reduced else reduced.swapPointers, final.2)

/-! ## What the branch is for -/

/-- The events of a partial result that this and the earlier turns have assigned. -/
def assigned (infos : EventInfoSet) : List EventInfo :=
  (List.range' l.state (sequenceLen - l.state)).map infos

def candidates (y : Nat) : List Nat :=
  (List.range l.size).filter fun x => l.computeComplexEventsSingleG x y

def chosen (y : Nat) : Option Nat :=
  if l.firstWithin then (l.candidates y).head? else (l.candidates y).getLast?

/-- A partial result with the event chosen for it. -/
def extended (y : Nat) : EventInfoSet :=
  (l.chosen y).elim (l.prevResults y) fun x =>
    Function.update (l.prevResults y) l.state (l.event x)

def survives (y : Nat) : Bool := !(l.candidates y).isEmpty

def survivors (resultsSize : Nat) : List Nat := (List.range resultsSize).filter l.survives

/-- Whenever there are results to go on with, the next state finds the partial results that have a
candidate, each with the event chosen for it. -/
def KeepsSurvivors (resultsSize : Nat) : Prop :=
  ∀ threads : Threads resultsSize,
    let after := l.computeSingle sequenceLen b threads
    after.2 ≠ 0 →
      ((List.range after.2).map fun i => l.assigned sequenceLen (after.1.getPrevResultsPtr i)).Perm
        (((l.onto b).survivors resultsSize).map fun y =>
          l.assigned sequenceLen ((l.onto b).extended y))

/-! ## One row of the grid -/

variable {l sequenceLen}

theorem timestamp_ne_zero {x y : Nat} (candidate : l.computeComplexEventsSingleG x y = true) :
    (l.event x).timestamp ≠ 0 := by
  simp only [computeComplexEventsSingleG, valid, inWindow, Bool.and_eq_true,
    decide_eq_true_eq] at candidate
  have := candidate.2.1.1.2
  omega

variable (l) in
/-- How good an event is. -/
def rank (x : Nat) : Int := if l.firstWithin then -(x : Int) else x

variable (l) in
def better (a x : Nat) : Nat := if l.firstWithin then min a x else max a x

theorem rank_better (a x : Nat) : l.rank (l.better a x) = max (l.rank a) (l.rank x) := by
  unfold rank better
  split
  case isTrue => omega
  case isFalse => omega

theorem rank_lt_iff {a x : Nat} : l.rank x < l.rank (l.better a x) ↔ l.better a x ≠ x := by
  unfold rank better
  split
  case isTrue => omega
  case isFalse => omega

/-- The two branches of a thread differ in the order of events only. -/
theorem thread_eq (s : Shared) {x y : Nat} (candidate : l.computeComplexEventsSingleG x y = true) :
    l.thread sequenceLen s (x, y) =
      let best := l.better (s.maxIdxlocal (x / gpuThreads, y)) x
      let overall := l.better (s.maxTS y) x
      let maxIdxlocal := Function.update s.maxIdxlocal (x / gpuThreads, y) best
      if best ≠ x then { s with maxIdxlocal }
      else if overall = x then
        { maxIdxlocal
          maxTS := Function.update s.maxTS y overall
          currentResult :=
            Function.update s.currentResult y (l.extend sequenceLen x y (s.currentResult y)) }
      else { s with maxIdxlocal, maxTS := Function.update s.maxTS y overall } := by
  have lower : ∀ a : Nat, (x < max a x) = (max a x ≠ x) := fun a => propext (by omega)
  have higher : ∀ a : Nat, (x > min a x) = (min a x ≠ x) := fun a => propext (by omega)
  unfold thread better
  cases l.firstWithin <;> simp [candidate, lower, higher]

variable (l sequenceLen) in
/-- A row of the grid is a contest among its candidates for the row's place in the results. -/
structure Shows (y : Nat) (written : EventInfoSet) (s : Shared) (c : Contest.State Nat Nat Int) :
    Prop where
  best : ∀ block, c.best block = l.rank (s.maxIdxlocal (block, y))
  overall : c.overall = l.rank (s.maxTS y)
  winner : s.currentResult y =
    c.winner.elim written fun x => l.extend sequenceLen x y written

variable {y : Nat} {written : EventInfoSet} {s : Shared} {c : Contest.State Nat Nat Int}

theorem extend_elim (winner : Option Nat) (x : Nat) :
    l.extend sequenceLen x y (winner.elim written fun x => l.extend sequenceLen x y written) =
      l.extend sequenceLen x y written := by
  cases winner with
  | none => rfl
  | some before =>
    funext k
    simp only [Option.elim, extend]
    split_ifs <;> rfl

theorem rank_injective : Function.Injective l.rank := by
  intro x x' same
  unfold rank at same
  split at same
  case isTrue => omega
  case isFalse => omega

/-- Raising the number of the row's block raises the maximum of the group. -/
theorem Shows.update_best (shows' : l.Shows sequenceLen y written s c) (x block : Nat) :
    Function.update c.best (x / gpuThreads)
        (max (c.best (x / gpuThreads)) (l.rank x)) block =
      l.rank (Function.update s.maxIdxlocal (x / gpuThreads, y)
        (l.better (s.maxIdxlocal (x / gpuThreads, y)) x) (block, y)) := by
  by_cases same : block = x / gpuThreads
  · subst same
    rw [Function.update_self, Function.update_self, shows'.best, rank_better]
  · rw [Function.update_of_ne same, Function.update_of_ne (by simp [same]), shows'.best]

theorem Shows.candidate (shows' : l.Shows sequenceLen y written s c) {x : Nat}
    (candidate : l.computeComplexEventsSingleG x y = true) :
    l.Shows sequenceLen y written (l.thread sequenceLen s (x, y))
      (Contest.offer l.rank (· / gpuThreads) c x) := by
  have best := shows'.update_best x
  have gaveUp : l.rank x < max (c.best (x / gpuThreads)) (l.rank x) ↔
      l.better (s.maxIdxlocal (x / gpuThreads, y)) x ≠ x := by
    rw [shows'.best, ← rank_better, rank_lt_iff]
  have overall : max c.overall (l.rank x) = l.rank (l.better (s.maxTS y) x) := by
    rw [shows'.overall, rank_better]
  rw [thread_eq s candidate]
  unfold Contest.offer
  simp only [Function.update_self, gaveUp, overall, rank_injective.eq_iff]
  split
  case isTrue => exact ⟨best, shows'.overall, shows'.winner⟩
  case isFalse =>
    split
    case isTrue =>
      refine ⟨best, ?_, ?_⟩
      · simp only [Function.update_self]
      · simp only [Function.update_self]
        rw [shows'.winner]
        exact extend_elim _ _
    case isFalse =>
      refine ⟨best, ?_, shows'.winner⟩
      simp only [Function.update_self]

/-- Threads of other rows, and those without a candidate, leave the row as it is. -/
theorem Shows.other (shows' : l.Shows sequenceLen y written s c) {t : Nat × Nat}
    (other : t.2 ≠ y ∨ l.computeComplexEventsSingleG t.1 t.2 = false) :
    l.Shows sequenceLen y written (l.thread sequenceLen s t) c := by
  obtain ⟨x, row⟩ := t
  cases candidate : l.computeComplexEventsSingleG x row with
  | false =>
    have unchanged : l.thread sequenceLen s (x, row) = s := by simp [thread, candidate]
    rwa [unchanged]
  | true =>
    have ne : y ≠ row := by
      rcases other with ne | none'
      · exact Ne.symm ne
      · rw [candidate] at none'
        cases none'
    have apart : ∀ block : Nat, (block, y) ≠ (x / gpuThreads, row) := by
      intro block same
      exact ne (Prod.mk.inj same).2
    rw [thread_eq s candidate]
    dsimp only
    split_ifs
    all_goals
      refine ⟨fun block => ?_, ?_, ?_⟩
      · simp only [Function.update_of_ne (apart block), shows'.best]
      · simp only [Function.update_of_ne ne, shows'.overall]
      · simp only [Function.update_of_ne ne, shows'.winner]

variable (l) in
/-- The candidates of a row in the order in which their threads run. -/
def inRow (order : List (Nat × Nat)) (y : Nat) : List Nat :=
  (order.filter fun t => t.2 == y && l.computeComplexEventsSingleG t.1 t.2).map Prod.fst

theorem Shows.foldl (shows' : l.Shows sequenceLen y written s c) (order : List (Nat × Nat)) :
    l.Shows sequenceLen y written (order.foldl (l.thread sequenceLen) s)
      ((l.inRow order y).foldl (Contest.offer l.rank (· / gpuThreads)) c) := by
  induction order generalizing s c with
  | nil => exact shows'
  | cons t rest ih =>
    unfold inRow
    rw [List.filter_cons, List.foldl_cons]
    by_cases mine : (t.2 == y && l.computeComplexEventsSingleG t.1 t.2) = true
    · rw [if_pos mine, List.map_cons, List.foldl_cons]
      obtain ⟨row, candidate⟩ := Bool.and_eq_true_iff.mp mine
      obtain ⟨x, _⟩ := t
      cases eq_of_beq row
      exact ih (shows'.candidate candidate)
    · rw [if_neg mine]
      refine ih (shows'.other ?_)
      simpa [or_iff_not_imp_left] using mine

/-! ## The event chosen -/

theorem mem_candidates {x : Nat} :
    x ∈ l.candidates y ↔ l.computeComplexEventsSingleG x y = true := by
  rw [candidates, List.mem_filter, List.mem_range]
  refine ⟨And.right, fun candidate => ⟨?_, candidate⟩⟩
  exact of_decide_eq_true (Bool.and_eq_true_iff.mp candidate).1

theorem candidates_sorted : (l.candidates y).Pairwise (· < ·) :=
  List.pairwise_lt_range.filter _

theorem head?_of_least {list : List Nat} {x : Nat} (sorted : list.Pairwise (· < ·)) (mem : x ∈ list)
    (least : ∀ x' ∈ list, x ≤ x') : list.head? = some x := by
  rcases list with _ | ⟨first, rest⟩
  · cases mem
  · rcases List.mem_cons.mp mem with rfl | later
    · rfl
    · have less := List.rel_of_pairwise_cons sorted later
      have le := least first List.mem_cons_self
      omega

theorem getLast?_of_greatest {list : List Nat} {x : Nat} (sorted : list.Pairwise (· < ·))
    (mem : x ∈ list) (greatest : ∀ x' ∈ list, x' ≤ x) : list.getLast? = some x := by
  rcases List.eq_nil_or_concat' list with rfl | ⟨before, last, rfl⟩
  · cases mem
  · rw [List.getLast?_concat]
    rcases List.mem_append.mp mem with earlier | same
    · have less := (List.pairwise_append.mp sorted).2.2 x earlier last List.mem_cons_self
      have le := greatest last (List.mem_append_right _ List.mem_cons_self)
      omega
    · rw [List.mem_singleton.mp same]

/-- The best candidate is the chosen one. -/
theorem chosen_eq {x : Nat} (mem : x ∈ l.candidates y)
    (greatest : ∀ x' ∈ l.candidates y, l.rank x' ≤ l.rank x) : l.chosen y = some x := by
  unfold rank at greatest
  unfold chosen
  split
  case isTrue first =>
    refine head?_of_least candidates_sorted mem fun x' mem' => ?_
    have := greatest x' mem'
    rw [if_pos first, if_pos first] at this
    omega
  case isFalse last =>
    refine getLast?_of_greatest candidates_sorted mem fun x' mem' => ?_
    have := greatest x' mem'
    rw [if_neg last, if_neg last] at this
    omega

theorem chosen_of_isEmpty (empty : l.candidates y = []) : l.chosen y = none := by
  unfold chosen
  rw [empty]
  split <;> rfl

/-! ## A launch -/

variable {resultsSize : Nat} {b : ResultBuffers} {threads : Threads resultsSize}

theorem lt_colSize_mul {x size : Nat} (inside : x < size) : x < colSize size * gpuThreads := by
  unfold colSize gpuThreads
  split <;> omega

theorem mem_inRow {x : Nat} (row : y < resultsSize) :
    x ∈ l.inRow (threads.grid (colSize l.size)) y ↔ x ∈ l.candidates y := by
  rw [mem_candidates, inRow, List.mem_map]
  constructor
  · intro run
    obtain ⟨⟨x', y'⟩, mem, rfl⟩ := run
    obtain ⟨same, candidate⟩ := Bool.and_eq_true_iff.mp (List.mem_filter.mp mem).2
    cases eq_of_beq same
    exact candidate
  · intro candidate
    have inside : x < l.size := of_decide_eq_true (Bool.and_eq_true_iff.mp candidate).1
    refine ⟨(x, y), List.mem_filter.mpr ⟨(threads.grid_perm _).mem_iff.mpr ?_, ?_⟩, rfl⟩
    · exact List.mem_product.mpr
        ⟨List.mem_range.mpr (lt_colSize_mul inside), List.mem_range.mpr row⟩
    · simpa using candidate

theorem inRow_of_le {y : Nat} (outside : resultsSize ≤ y) :
    l.inRow (threads.grid (colSize l.size)) y = [] := by
  unfold inRow
  rw [List.map_eq_nil_iff, List.filter_eq_nil_iff]
  intro t mem is
  have inside := List.mem_range.mp (List.mem_product.mp ((threads.grid_perm _).mem_iff.mp mem)).2
  have same := eq_of_beq (Bool.and_eq_true_iff.mp is).1
  omega

variable (l) in
/-- The numbers that a launch starts from. -/
def start (currentResult : Nat → EventInfoSet) : Shared where
  maxIdxlocal := fun _ => if l.firstWithin then bigNum else 0
  maxTS := fun _ => if l.firstWithin then 0x7f7f7f7f else 0
  currentResult := currentResult

theorem rank_start_le {x : Nat} (inside : x < allocSize) :
    l.rank (if l.firstWithin then bigNum else 0) ≤ l.rank x ∧
      l.rank (if l.firstWithin then 0x7f7f7f7f else 0) ≤ l.rank x := by
  unfold rank bigNum
  unfold allocSize at inside
  split
  case isTrue => omega
  case isFalse => omega

/-- A row with candidates gets the extension by the chosen one, the others stay. -/
theorem foldl_thread (few : l.size < allocSize) (written : Nat → EventInfoSet) (y : Nat) :
    ((threads.grid (colSize l.size)).foldl (l.thread sequenceLen)
        (l.start written)).currentResult y =
      if y < resultsSize then
        (l.chosen y).elim (written y) fun x => l.extend sequenceLen x y (written y)
      else written y := by
  have begins : l.Shows sequenceLen y (written y) (l.start written)
      ⟨fun _ => l.rank (if l.firstWithin then bigNum else 0),
        l.rank (if l.firstWithin then 0x7f7f7f7f else 0), none⟩ :=
    ⟨fun _ => rfl, rfl, rfl⟩
  rw [(begins.foldl (threads.grid (colSize l.size))).winner]
  by_cases row : y < resultsSize
  · rw [if_pos row]
    have inside : ∀ x ∈ l.inRow (threads.grid (colSize l.size)) y, x < allocSize := by
      intro x mem
      have := List.mem_range.mp (List.mem_filter.mp ((mem_inRow row).mp mem)).1
      omega
    rcases Contest.winner_foldl_offer (· / gpuThreads) _ _
      (fun _ x mem => (rank_start_le (inside x mem)).1)
      (fun x mem => (rank_start_le (inside x mem)).2) with ⟨nobody, won⟩ | ⟨x, mem, won, greatest⟩
    · have empty : l.candidates y = [] := by
        refine List.eq_nil_iff_forall_not_mem.mpr fun x mem => ?_
        have run : x ∈ l.inRow (threads.grid (colSize l.size)) y := (mem_inRow row).mpr mem
        rw [nobody] at run
        cases run
      rw [won, chosen_of_isEmpty empty]
    · have chosen := chosen_eq ((mem_inRow row).mp mem) fun x' mem' =>
        greatest x' ((mem_inRow row).mpr mem')
      rw [won, chosen]
  · rw [if_neg row, inRow_of_le (Nat.le_of_not_lt row)]
    rfl

/-! ## The branch -/

variable (l sequenceLen resultsSize) in
/-- What the launch leaves in a row that was cleared. -/
def row (y : Nat) : EventInfoSet :=
  if y < resultsSize then
    (l.chosen y).elim (fun _ => .cleared) fun x => l.extend sequenceLen x y fun _ => .cleared
  else fun _ => .cleared

variable (l sequenceLen b threads) in
/-- The buffers after the loop over the parts of the stack. -/
def launched : ResultBuffers :=
  (parts (l.size + 1) l.minId l.size).foldl
    (fun b part => l.launchSingleG sequenceLen b threads part)
    (b.write fun y => if y < maxGen then fun _ => EventInfo.cleared else b.getCurrentResultsPtr y)

/-- Stacks that fit into their pages are taken in one part. -/
theorem parts_eq (few : l.size < allocSize) :
    parts (l.size + 1) l.minId l.size = [(l.minId, l.size)] := by
  have whole : min l.size maxNewEvents = l.size := Nat.min_eq_left (Nat.le_of_lt few)
  rw [parts, whole, Nat.sub_self]
  rfl

theorem onto_write (results : Nat → EventInfoSet) : l.onto (b.write results) = l.onto b := by
  unfold onto
  rw [ResultBuffers.getPrevResultsPtr_write]

theorem launched_getCurrentResultsPtr (few : l.size < allocSize) {y : Nat} (inside : y < maxGen) :
    (l.launched sequenceLen b threads).getCurrentResultsPtr y =
      (l.onto b).row sequenceLen resultsSize y := by
  unfold launched
  rw [parts_eq few, List.foldl_cons, List.foldl_nil]
  unfold launchSingleG
  rw [ResultBuffers.getCurrentResultsPtr_write, ResultBuffers.getCurrentResultsPtr_write,
    onto_write]
  have small : (l.onto b).size < allocSize := few
  refine (foldl_thread small _ y).trans ?_
  simp only [row, if_pos inside]

/-- Whether a thread of `reduceFinal` finds a result. -/
def found (state : Nat) (results : Nat → EventInfoSet) (x : Nat) : Bool :=
  decide (x < maxGen) && decide ((results x state).timestamp ≠ 0)

theorem reduceFinal_snd (results : Nat → EventInfoSet) (s : (Nat → EventInfoSet) × Nat) (x : Nat) :
    (l.reduceFinal sequenceLen results s x).2 =
      s.2 + if found l.state results x then 1 else 0 := by
  unfold reduceFinal
  by_cases skipped : x ≥ maxGen ∨ (results x l.state).timestamp = 0
  · have not : found l.state results x = false := by
      unfold found
      rcases skipped with beyond | gap
      · rw [decide_eq_false (Nat.not_lt.mpr beyond), Bool.false_and]
      · simp [gap]
    simp [if_pos skipped, not]
  · obtain ⟨inside, present⟩ := not_or.mp skipped
    have is : found l.state results x = true := by
      unfold found
      simp [Nat.not_le.mp inside, present]
    rw [if_neg skipped, is]
    dsimp only
    split <;> rfl

theorem foldl_reduceFinal_snd (results : Nat → EventInfoSet) (order : List Nat)
    (s : (Nat → EventInfoSet) × Nat) :
    (order.foldl (l.reduceFinal sequenceLen results) s).2 =
      s.2 + order.countP (found l.state results) := by
  induction order generalizing s with
  | nil => rfl
  | cons x rest ih =>
    rw [List.foldl_cons, ih, reduceFinal_snd, List.countP_cons]
    omega

theorem computeSingle_snd : (l.computeSingle sequenceLen b threads).2 =
    threads.final.countP
      (found l.state (l.launched sequenceLen b threads).getCurrentResultsPtr) := by
  have reduced : ∀ results start, (threads.final.foldl (l.reduceFinal sequenceLen results)
      (start, 0)).2 = threads.final.countP (found l.state results) := by
    intro results start
    rw [foldl_reduceFinal_snd, Nat.zero_add]
  unfold computeSingle
  simp only [ResultBuffers.getPrevResultsPtr_swapPointers,
    ResultBuffers.getCurrentResultsPtr_swapPointers, reduced]
  rfl

/-- The next state does not read what `reduceFinal` has written. -/
theorem computeSingle_fst (goesOn : (l.computeSingle sequenceLen b threads).2 ≠ 0) :
    (l.computeSingle sequenceLen b threads).1.getPrevResultsPtr =
      (l.launched sequenceLen b threads).getCurrentResultsPtr := by
  unfold computeSingle at goesOn ⊢
  dsimp only at goesOn ⊢
  rw [if_neg goesOn]
  simp only [ResultBuffers.getPrevResultsPtr_swapPointers,
    ResultBuffers.getCurrentResultsPtr_swapPointers, ResultBuffers.getPrevResultsPtr_write]
  rfl

/-! ## Survivors -/

theorem survives_iff : l.survives y = true ↔ ∃ x, l.computeComplexEventsSingleG x y = true := by
  unfold survives
  rw [Bool.not_eq_true', List.isEmpty_eq_false_iff_exists_mem]
  exact exists_congr fun x => mem_candidates

theorem chosen_of_survives (survives : l.survives y = true) :
    ∃ x ∈ l.candidates y, l.chosen y = some x := by
  have some' : l.candidates y ≠ [] := by
    intro none'
    unfold Launch.survives at survives
    rw [none'] at survives
    cases survives
  unfold chosen
  split
  case isTrue => exact ⟨_, List.head_mem some', List.head?_eq_some_head some'⟩
  case isFalse => exact ⟨_, List.getLast_mem some', List.getLast?_eq_some_getLast some'⟩

theorem timestamp_extended (survives : l.survives y = true) :
    (l.extended y l.state).timestamp ≠ 0 := by
  obtain ⟨x, mem, chosen⟩ := chosen_of_survives survives
  unfold extended
  rw [chosen, Option.elim, Function.update_self]
  exact timestamp_ne_zero (mem_candidates.mp mem)

/-- A survivor's row holds its extension, from the state on. -/
theorem row_of_survives (inside : y < resultsSize) (survives : l.survives y = true) {k : Nat}
    (later : l.state ≤ k) (within : k < sequenceLen) :
    l.row sequenceLen resultsSize y k = l.extended y k := by
  obtain ⟨x, _, chosen⟩ := chosen_of_survives survives
  unfold row extended
  rw [if_pos inside, chosen]
  simp only [Option.elim, extend]
  by_cases here : k = l.state
  · rw [if_pos here, here, Function.update_self]
  · rw [if_neg here, if_pos (by omega), Function.update_of_ne here]

theorem row_of_not_survives (dies : l.survives y = false) :
    l.row sequenceLen resultsSize y = fun _ => .cleared := by
  have none' : l.candidates y = [] := by
    unfold survives at dies
    rw [Bool.not_eq_false', List.isEmpty_iff] at dies
    exact dies
  unfold row
  rw [chosen_of_isEmpty none']
  split <;> rfl

theorem timestamp_row (stateIn : l.state < sequenceLen) :
    (l.row sequenceLen resultsSize y l.state).timestamp ≠ 0 ↔
      y < resultsSize ∧ l.survives y = true := by
  by_cases inside : y < resultsSize
  · cases survives : l.survives y with
    | true =>
      rw [row_of_survives inside survives (Nat.le_refl _) stateIn]
      exact iff_of_true (timestamp_extended survives) ⟨inside, rfl⟩
    | false =>
      rw [row_of_not_survives survives]
      exact iff_of_false (fun ne => ne rfl) (by simp)
  · unfold row
    rw [if_neg inside]
    exact iff_of_false (fun ne => ne rfl) fun both => inside both.1

theorem filter_range_of_le {p q : Nat → Bool} {m n : Nat} (le : m ≤ n)
    (same : ∀ x < n, p x = true ↔ x < m ∧ q x = true) :
    (List.range n).filter p = (List.range m).filter q := by
  obtain ⟨d, rfl⟩ := Nat.exists_eq_add_of_le le
  rw [List.range_add, List.filter_append]
  have beyond : ((List.range d).map (m + ·)).filter p = [] := by
    refine List.filter_eq_nil_iff.mpr fun x mem is => ?_
    obtain ⟨k, inside, rfl⟩ := List.mem_map.mp mem
    have := (same (m + k) (Nat.add_lt_add_left (List.mem_range.mp inside) m)).mp is
    omega
  rw [beyond, List.append_nil]
  refine List.filter_congr fun x mem => ?_
  have inside := List.mem_range.mp mem
  rw [Bool.eq_iff_iff, same x (by omega)]
  exact and_iff_right inside

/-- There are as many results as survivors. -/
theorem computeSingle_snd_eq (few : l.size < allocSize) (fits : resultsSize ≤ maxGen)
    (stateIn : l.state < sequenceLen) :
    (l.computeSingle sequenceLen b threads).2 = ((l.onto b).survivors resultsSize).length := by
  rw [computeSingle_snd, threads.final_perm.countP_eq, List.countP_eq_length_filter, survivors]
  congr 1
  have stateIn' : (l.onto b).state < sequenceLen := stateIn
  refine filter_range_of_le (Nat.le_trans fits (by decide)) fun x _ => ?_
  unfold found
  rw [Bool.and_eq_true_iff, decide_eq_true_eq, decide_eq_true_eq]
  constructor
  · intro found
    obtain ⟨inside, present⟩ := found
    rw [launched_getCurrentResultsPtr few inside] at present
    exact (timestamp_row stateIn').mp present
  · intro both
    have inside := Nat.lt_of_lt_of_le both.1 fits
    refine ⟨inside, ?_⟩
    rw [launched_getCurrentResultsPtr few inside]
    exact (timestamp_row stateIn').mpr both

/-! ## Gaps -/

/-- A filtered range without gaps is an initial range. -/
theorem perm_range {p : Nat → Bool} {n : Nat}
    (all : ∀ y < ((List.range n).filter p).length, p y = true) :
    ((List.range n).filter p).Perm (List.range ((List.range n).filter p).length) := by
  have le : ((List.range n).filter p).length ≤ n := by
    simpa using List.length_filter_le p (List.range n)
  have sub : List.range ((List.range n).filter p).length ⊆ (List.range n).filter p := by
    intro y mem
    have inside := List.mem_range.mp mem
    exact List.mem_filter.mpr ⟨List.mem_range.mpr (by omega), all y inside⟩
  refine ((List.subperm_of_subset List.nodup_range sub).perm_of_length_le ?_).symm
  exact Nat.le_of_eq List.length_range.symm

/-- It is all of an initial range exactly if nothing is in front of a gap. -/
theorem all_lt_length_iff {p : Nat → Bool} {n : Nat} :
    (∀ y < ((List.range n).filter p).length, p y = true) ↔
      ∀ y y' : Nat, y < y' → y' < n → p y' = true → p y = true := by
  have nodup : ((List.range n).filter p).Nodup := List.nodup_range.filter p
  constructor
  · intro all y y' before inside is
    have mem : y' ∈ (List.range n).filter p := List.mem_filter.mpr ⟨List.mem_range.mpr inside, is⟩
    have less := List.mem_range.mp ((perm_range all).mem_iff.mp mem)
    exact all y (Nat.lt_trans before less)
  · intro closed y inside
    by_contra gap
    have sub : (List.range n).filter p ⊆ List.range y := by
      intro y' mem
      obtain ⟨range, is⟩ := List.mem_filter.mp mem
      refine List.mem_range.mpr (Nat.lt_of_not_le fun le => ?_)
      rcases Nat.eq_or_lt_of_le le with rfl | less
      · exact gap is
      · exact gap (closed y y' less (List.mem_range.mp range) is)
    have := (List.subperm_of_subset nodup sub).length_le
    rw [List.length_range] at this
    omega

variable (l resultsSize) in
theorem length_survivors_le : (l.survivors resultsSize).length ≤ resultsSize := by
  have le := List.length_filter_le l.survives (List.range resultsSize)
  rwa [List.length_range] at le

/-- The entries that the next state reads. -/
theorem map_getPrevResultsPtr (fits : resultsSize ≤ maxGen) (few : l.size < allocSize)
    (stateIn : l.state < sequenceLen) (goesOn : (l.computeSingle sequenceLen b threads).2 ≠ 0) :
    ((List.range (l.computeSingle sequenceLen b threads).2).map fun i =>
        l.assigned sequenceLen ((l.computeSingle sequenceLen b threads).1.getPrevResultsPtr i)) =
      (List.range ((l.onto b).survivors resultsSize).length).map fun i =>
        l.assigned sequenceLen ((l.onto b).row sequenceLen resultsSize i) := by
  rw [computeSingle_fst goesOn, computeSingle_snd_eq few fits stateIn]
  refine List.map_congr_left fun i mem => ?_
  have le := (l.onto b).length_survivors_le resultsSize
  have inside := List.mem_range.mp mem
  rw [launched_getCurrentResultsPtr few (by omega)]

/-- An entry of a buffer that is an extension is of a survivor. -/
theorem survives_of_perm (stateIn : l.state < sequenceLen)
    (same : ((List.range (l.survivors resultsSize).length).map fun i =>
        l.assigned sequenceLen (l.row sequenceLen resultsSize i)).Perm
      ((l.survivors resultsSize).map fun y => l.assigned sequenceLen (l.extended y)))
    {i : Nat} (inside : i < (l.survivors resultsSize).length) : l.survives i = true := by
  have entry := same.mem_iff.mp (List.mem_map.mpr ⟨i, List.mem_range.mpr inside, rfl⟩)
  obtain ⟨y, mem, equal⟩ := List.mem_map.mp entry
  have own : l.state ∈ List.range' l.state (sequenceLen - l.state) :=
    List.mem_range'_1.mpr (by omega)
  have here : l.extended y l.state = l.row sequenceLen resultsSize i l.state :=
    List.map_inj_left.mp equal _ own
  have present := timestamp_extended (List.mem_filter.mp mem).2
  rw [here] at present
  exact ((timestamp_row stateIn).mp present).2

/-- Without gaps the entries are the extensions. -/
theorem perm_of_survives
    (all : ∀ i < (l.survivors resultsSize).length, l.survives i = true) :
    ((List.range (l.survivors resultsSize).length).map fun i =>
        l.assigned sequenceLen (l.row sequenceLen resultsSize i)).Perm
      ((l.survivors resultsSize).map fun y => l.assigned sequenceLen (l.extended y)) := by
  have extensions : ((List.range (l.survivors resultsSize).length).map fun i =>
        l.assigned sequenceLen (l.row sequenceLen resultsSize i)) =
      (List.range (l.survivors resultsSize).length).map fun y =>
        l.assigned sequenceLen (l.extended y) := by
    refine List.map_congr_left fun i mem => List.map_congr_left fun k range => ?_
    have inside := List.mem_range.mp mem
    have bounds := List.mem_range'_1.mp range
    have le := l.length_survivors_le resultsSize
    exact row_of_survives (by omega) (all i inside) bounds.1 (by omega)
  rw [extensions]
  exact (perm_range all).symm.map _

variable (resultsSize) in
/-- The threads may run one row and one column after the other. -/
def inOrder : Threads resultsSize where
  grid := fun columns => (List.range (columns * gpuThreads)).product (List.range resultsSize)
  final := List.range (colSize maxGen * gpuThreads)
  grid_perm := fun _ => .refl _
  final_perm := .refl _

theorem survives_of_keepsSurvivors (fits : resultsSize ≤ maxGen) (few : l.size < allocSize)
    (stateIn : l.state < sequenceLen) (keeps : l.KeepsSurvivors sequenceLen b resultsSize) {i : Nat}
    (inside : i < ((l.onto b).survivors resultsSize).length) : (l.onto b).survives i = true := by
  have goesOn : (l.computeSingle sequenceLen b (inOrder resultsSize)).2 ≠ 0 := by
    rw [computeSingle_snd_eq few fits stateIn]
    exact Nat.ne_of_gt (Nat.zero_lt_of_lt inside)
  have same := keeps (inOrder resultsSize) goesOn
  rw [map_getPrevResultsPtr fits few stateIn goesOn] at same
  have stateIn' : (l.onto b).state < sequenceLen := stateIn
  exact survives_of_perm stateIn' same inside

/-- The next state finds each surviving partial result, extended by the event chosen for it, exactly
if no partial result without a candidate is in front of one that has any. -/
theorem keepsSurvivors_iff (l : Launch) (sequenceLen resultsSize : Nat) (b : ResultBuffers)
    (fits : resultsSize ≤ maxGen) (few : l.size < allocSize) (stateIn : l.state < sequenceLen) :
    l.KeepsSurvivors sequenceLen b resultsSize ↔
      ∀ y y' : Nat, y < y' → y' < resultsSize →
        (∃ x, (l.onto b).computeComplexEventsSingleG x y' = true) →
          ∃ x, (l.onto b).computeComplexEventsSingleG x y = true := by
  simp only [← survives_iff]
  rw [← all_lt_length_iff]
  constructor
  · intro keeps i inside
    exact survives_of_keepsSurvivors fits few stateIn keeps inside
  · intro all threads after goesOn
    rw [map_getPrevResultsPtr fits few stateIn goesOn]
    exact perm_of_survives all

/-- State 0, with a negation for which nothing has come, takes the first event of a window of 3
before the event of state 1; its stack has one event, of time 4. -/
def oneEvent : Launch where
  stack := fun _ => ⟨[], 4⟩
  pageIdx := fun _ => 0
  prevResults := fun _ _ => .cleared
  state := 0
  minId := 0
  size := 1
  paramNum := []
  check := fun _ _ _ => true
  win := 3
  referredState := 1
  firstWithin := true
  negations := fun _ => ⟨-1, 3, 0⟩
  negsNum := 1
  negPages := ⟨fun _ => 0, fun _ => 0, fun _ _ => 0, fun _ => []⟩
  checkForNegation := fun _ _ _ _ => true

/-- Two partial results with one terminator and different events of state 1, whose times are
given. -/
def twoResults (time time' : Nat) : ResultBuffers where
  prevResultsPtr := fun y state =>
    ⟨[], if state = 2 then 12 else if y = 0 then time else time'⟩
  currentResultsPtr := fun _ _ => .cleared
  swapped := false

theorem keepsSurvivors_iff_inFront : oneEvent.KeepsSurvivors 3 (twoResults 5 10) 2 := by
  refine (keepsSurvivors_iff oneEvent 3 2 (twoResults 5 10) (by decide) (by decide) (by decide)).mpr
    fun y y' before inside _ => ⟨0, ?_⟩
  obtain rfl : y = 0 := by omega
  decide

/-- The event is too old for the first partial result and in the window of the second. -/
theorem behind_not_keepsSurvivors : ¬ oneEvent.KeepsSurvivors 3 (twoResults 10 5) 2 := by
  intro keeps
  have first := survives_of_keepsSurvivors (by decide) (by decide) (by decide) keeps
    (show 0 < _ by decide)
  exact absurd first (by decide)

end Launch

end TRex
