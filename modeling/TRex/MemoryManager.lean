import TRex.Structures

/-!
# The memory of the GPU engine

`Engine/GPU/MemoryManager`: events are stored in pages, and every stack of a rule has a table of the
chunks that hold its pages. The host's memory is `hBaseAddress`, the device's `baseAddress`; a page
of the device is shared by the host's pages of equal number modulo `dChunksnum`. The three tables of
a rule, for states, negations and aggregates, are treated by three copies of the same code, which
are one definition here.

A call ends in `none` where the source exits the process for want of memory. The parameters' and the
results' areas on the device are never read through the memory manager and left out.
-/

namespace TRex

/-! ## Sizes -/

/-- `MAX_RULE_NUM`: rules that the engine handles at a time. -/
def maxRuleNum : Nat := 100

/-- `PAGE_SIZE`: events on a page. -/
def pageSize : Nat := 2048

/-- `ALLOC_SIZE`: events of a column. -/
def allocSize : Nat := 65536

/-- `HOST_MEM_MUL`: pages of the host for one of the device. -/
def hostMemMul : Nat := 1

def maxPagesPerStack : Nat := allocSize / pageSize

def maxNumAggregates : Nat := 3

def maxNumAttr : Nat := 5

def maxNegationsNum : Nat := 2

/-- The lengths of the tables of a rule. -/
def maxStacks : StateType → Nat
  | .state => maxRuleFields - 1
  | .neg => maxNegationsNum
  | .agg => maxNumAggregates

/-! ## Data -/

/-- `EventInfo`: the event as the GPU stores it. -/
structure EventInfo where
  attr : List Attribute
  timestamp : Nat
  deriving DecidableEq

/-- The struct `chunk`. -/
structure MemChunk where
  inUse : Int
  /-- The rule whose data the page of the device holds, -1 if there is none. -/
  onGpu : Int
  pageIdx : Nat

/-- `ruleMemoryStruct`: the tables of a rule, an entry of -1 being `none`, and the number of pages
in use of each stack. -/
structure RuleMemory where
  chunks : StateType → Nat → Nat → Option Nat
  numChunks : StateType → Nat → Nat

structure MemoryManager where
  rules : Nat → RuleMemory
  inUse : Nat → Bool
  swapped : Nat → Bool
  chunks : Nat → MemChunk
  chunksnum : Nat
  dChunksnum : Nat
  notified : Bool
  hBaseAddress : Nat → EventInfo
  baseAddress : Nat → EventInfo

/-- The numbers that a rule subscribes with; that of its parameters is not used. -/
structure Needs where
  seqLen : Nat
  aggrNum : Nat
  negNum : Nat

/-- The stacks that a rule has. The terminator has none. -/
def Needs.stacks (needs : Needs) : StateType → Nat
  | .state => needs.seqLen - 1
  | .neg => needs.negNum
  | .agg => needs.aggrNum

namespace MemoryManager

/-- The constructor, on memory with the given contents. -/
def new (dChunksnum : Nat) (host device : Nat → EventInfo) : MemoryManager :=
  { rules := fun _ => { chunks := fun _ _ _ => none, numChunks := fun _ _ => 0 }
    inUse := fun _ => false
    swapped := fun _ => false
    chunks := fun i => { inUse := 0, onGpu := -1, pageIdx := i }
    chunksnum := dChunksnum * hostMemMul
    dChunksnum
    notified := false
    hBaseAddress := host
    baseAddress := device }

/-! ## Updates -/

variable (mm : MemoryManager)

def setInUse (c : Nat) (inUse : Int) : MemoryManager :=
  { mm with chunks := Function.update mm.chunks c { mm.chunks c with inUse } }

def setOnGpu (c : Nat) (onGpu : Int) : MemoryManager :=
  { mm with chunks := Function.update mm.chunks c { mm.chunks c with onGpu } }

def setChunk (id : Nat) (type : StateType) (stack page : Nat) (chunk : Nat) : MemoryManager :=
  let rule := mm.rules id
  let row := Function.update (rule.chunks type stack) page (some chunk)
  let table := Function.update (rule.chunks type) stack row
  let rule := { rule with chunks := Function.update rule.chunks type table }
  { mm with rules := Function.update mm.rules id rule }

def setNumChunks (id : Nat) (type : StateType) (stack num : Nat) : MemoryManager :=
  let rule := mm.rules id
  let nums := Function.update (rule.numChunks type) stack num
  let rule := { rule with numChunks := Function.update rule.numChunks type nums }
  { mm with rules := Function.update mm.rules id rule }

/-! ## Allocation -/

/-- The page of the chunk that a table entry holds; the source indexes with the entry unchecked, and
the model takes the first page where it is -1. -/
def pageOf (id : Nat) (type : StateType) (stack page : Nat) : Nat :=
  (((mm.rules id).chunks type stack page).map fun c => (mm.chunks c).pageIdx).getD 0

/-- Whether a table of the rule has an entry, in use or not, for the same page of the device. -/
def ruleOwns (id page : Nat) : Bool :=
  [StateType.state, .agg, .neg].any fun type =>
    (List.range (maxStacks type)).any fun i => (List.range maxPagesPerStack).any fun j =>
      match (mm.rules id).chunks type i j with
      | none => false
      | some c => (mm.chunks c).pageIdx % mm.dChunksnum == page % mm.dChunksnum

/-- The first chunk that is neither in use nor owned; the process exits if there is none. -/
def getFreeChunk (id : Nat) : Option (Nat × MemoryManager) :=
  match (List.range mm.chunksnum).find? fun i => (mm.chunks i).inUse ≤ 0 && !mm.ruleOwns id i with
  | none => none
  | some i =>
    some (i, { mm.setInUse i ((mm.chunks i).inUse + 1) with
      notified := mm.notified || decide (mm.dChunksnum ≤ i) })

/-- The first page of a stack of a new rule. -/
def firstPage (id : Nat) (type : StateType) (stack : Nat) : Option MemoryManager := do
  let (chunk, mm) ← mm.getFreeChunk id
  return ((mm.setChunk id type stack 0 chunk).setOnGpu chunk id).setNumChunks id type stack 1

def firstPages (id : Nat) : List (StateType × Nat) → MemoryManager → Option MemoryManager
  | [], mm => some mm
  | (type, stack) :: rest, mm => do firstPages id rest (← mm.firstPage id type stack)

/-- The stacks of a rule in the order in which `subscribe` visits them. -/
def stacksOf (needs : Needs) : List (StateType × Nat) :=
  [StateType.state, .neg, .agg].flatMap fun type =>
    (List.range (needs.stacks type)).map fun stack => (type, stack)

/-- `subscribe`; -1 if all slots are taken. The source then reads `inUse` one behind its end, which
the model takes to be in use. -/
def subscribe (needs : Needs) : Option (Int × MemoryManager) :=
  match (List.range maxRuleNum).find? fun i => !mm.inUse i with
  | none => some (-1, mm)
  | some i => do
    let mm ← firstPages i (stacksOf needs) mm
    return (i, { mm with inUse := Function.update mm.inUse i true })

/-- The loop that gives a stack a new page; it sets the same entry in every turn. -/
def growLoop (id : Nat) (type : StateType) (stack page : Nat) :
    Nat → MemoryManager → Option MemoryManager
  | 0, mm => some mm
  | n + 1, mm =>
    if n + 1 > (mm.rules id).numChunks type stack then do
      let (newChunk, mm) ← mm.getFreeChunk id
      let mm := (mm.setChunk id type stack page newChunk).setOnGpu (newChunk % mm.dChunksnum) id
      growLoop id type stack page n
        (mm.setNumChunks id type stack ((mm.rules id).numChunks type stack + 1))
    else some mm

/-- Writes an event to the host and, if the page of the device belongs to the rule, to the
device. -/
def storeEvent (id : Nat) (ev : EventInfo) (stack index : Nat) (type : StateType) :
    MemoryManager :=
  let page := mm.pageOf id type stack (index / pageSize)
  let chunk := ((mm.rules id).chunks type stack (index / pageSize)).getD 0
  let hostAddress := page * pageSize + index % pageSize
  let address := page % mm.dChunksnum * pageSize + index % pageSize
  let stored := { mm with hBaseAddress := Function.update mm.hBaseAddress hostAddress ev }
  if (mm.chunks (chunk % mm.dChunksnum)).onGpu = id then
    { stored with baseAddress := Function.update mm.baseAddress address ev }
  else stored

def addEventToStack (id : Nat) (ev : EventInfo) (stack index : Nat) (type : StateType) :
    Option MemoryManager := do
  let mm ← growLoop id type stack (index / pageSize) (index / pageSize + 1) mm
  return mm.storeEvent id ev stack index type

/-! ## Access to the host's memory -/

def getEvent (id stack index : Nat) : EventInfo :=
  mm.hBaseAddress (mm.pageOf id .state stack (index / pageSize) * pageSize + index % pageSize)

def setEvent (id stack index : Nat) (ev : EventInfo) : MemoryManager :=
  let address := mm.pageOf id .state stack (index / pageSize) * pageSize + index % pageSize
  { mm with hBaseAddress := Function.update mm.hBaseAddress address ev }

def invalidatePage (page : Nat) : MemoryManager := mm.setOnGpu (page % mm.dChunksnum) (-1)

/-- The loop of `cleanEventStack`: every event behind the removed one moves up by one. -/
def cleanLoop (id stack idx highIndex : Nat) : Nat → Nat → MemoryManager → MemoryManager
  | 0, _, mm => mm
  | fuel + 1, i, mm =>
    if (idx + i + 1) % allocSize = highIndex then mm
    else
      let mm := mm.invalidatePage (mm.pageOf id .state stack ((idx + i) / pageSize))
      let next := mm.getEvent id stack ((idx + i + 1) % allocSize)
      cleanLoop id stack idx highIndex fuel (i + 1)
        (mm.setEvent id stack ((idx + i) % allocSize) next)

/-- `cleanEventStack`, with the new `highIndex`. -/
def cleanEventStack (id stack idx highIndex : Nat) : MemoryManager × Nat :=
  (cleanLoop id stack idx highIndex allocSize 0 mm,
    if highIndex = 0 then allocSize - 1 else highIndex - 1)

/-! ## The end of a subscription -/

/-- The table entries that `unsubscribe` visits. -/
def entriesOf (needs : Needs) : List (StateType × Nat × Nat) :=
  (stacksOf needs).flatMap fun (type, stack) =>
    (List.range maxPagesPerStack).map fun page => (type, stack, page)

/-- Gives the chunk of an entry back. The entry itself stays. -/
def releaseEntry (id : Nat) (entry : StateType × Nat × Nat) : MemoryManager :=
  match (mm.rules id).chunks entry.1 entry.2.1 entry.2.2 with
  | none => mm
  | some c =>
    (mm.setInUse c ((mm.chunks c).inUse - 1)).setOnGpu (c % mm.dChunksnum) (-1)

def unsubscribe (id : Nat) (needs : Needs) : MemoryManager :=
  (entriesOf needs).foldl (fun mm entry => mm.releaseEntry id entry)
    { mm with
      swapped := Function.update mm.swapped id false
      inUse := Function.update mm.inUse id false }

end MemoryManager

end TRex
