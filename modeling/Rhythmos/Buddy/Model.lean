import Rhythmos.Library.ByteMemory
import Rhythmos.Library.DyadicTiling

/-!
# The buddy allocator

The functions of `buddy.c` on an explicit memory area.  A `memarea` consists of
the free-list heads, the `blocks` array with one entry for each 256 bytes of
managed memory, and the managed memory itself, which also holds the free-list
links: the first word of a free block is the offset of the next free block of
the same size.

Every array or memory access is checked against the object it reads, and every
`assert` of the source is kept, so a run without a fault is a run in which no
access leaves its object and no assertion fails.
-/

namespace Rhythmos.Buddy

open ByteMemory DyadicTiling

/-- `EMPTY`, the end of a free list. -/
def empty : ℕ := 4294967295

/-- `DEFAULT_LOWER`: blocks are tracked in units of 256 bytes. -/
def defaultLower : ℕ := 8

/-- One entry of the `blocks` array. -/
structure BlockInfo where
  sizem : ℕ
  used : Bool
  deriving DecidableEq, Repr

/-- `memarea` together with the memory it manages.  `memory` is indexed by
address, `blocks` and `freelist` by array index. -/
structure MemArea where
  lower : ℕ
  upper : ℕ
  mem : ℕ
  memory : Memory
  blocks : ℕ → BlockInfo
  freelist : ℕ → ℕ

inductive Fault where
  /-- an `assert` of the source fails -/
  | assertion
  /-- the `assert(0)` after "Memory exhausted", compiled without `USERLAND` -/
  | exhausted
  /-- an access outside `blocks`, `freelist` or the managed memory -/
  | outOfBounds
  /-- a loop that never ends -/
  | diverges
  deriving DecidableEq, Repr

/-- `assert`. -/
def check (condition : Prop) [Decidable condition] : Except Fault Unit :=
  if condition then .ok () else .error .assertion

/-! ## Array and memory accesses -/

/-- Length of the `blocks` array. -/
def MemArea.nblocks (ma : MemArea) : ℕ := 2 ^ (ma.upper - ma.lower)

/-- Index of the entry for the block at an offset. -/
def MemArea.index (ma : MemArea) (block : ℕ) : ℕ := block / 2 ^ ma.lower

def getInfo (ma : MemArea) (block : ℕ) : Except Fault BlockInfo :=
  if ma.index block < ma.nblocks then .ok (ma.blocks (ma.index block))
  else .error .outOfBounds

def setInfo (ma : MemArea) (block : ℕ) (info : BlockInfo) : Except Fault MemArea :=
  if ma.index block < ma.nblocks then
    .ok { ma with blocks := Function.update ma.blocks (ma.index block) info }
  else .error .outOfBounds

def getSizem (ma : MemArea) (block : ℕ) : Except Fault ℕ := do
  let info ← getInfo ma block
  return info.sizem

def isUsed (ma : MemArea) (block : ℕ) : Except Fault Bool := do
  let info ← getInfo ma block
  return info.used

def setSizem (ma : MemArea) (block sizem : ℕ) : Except Fault MemArea := do
  let info ← getInfo ma block
  setInfo ma block { info with sizem := sizem }

def setUsed (ma : MemArea) (block : ℕ) (used : Bool) : Except Fault MemArea := do
  let info ← getInfo ma block
  setInfo ma block { info with used := used }

def getFreelist (ma : MemArea) (m : ℕ) : Except Fault ℕ :=
  if m < 32 then .ok (ma.freelist m) else .error .outOfBounds

def setFreelist (ma : MemArea) (m head : ℕ) : Except Fault MemArea :=
  if m < 32 then .ok { ma with freelist := Function.update ma.freelist m head }
  else .error .outOfBounds

/-- The link stored in the first word of a free block. -/
def MemArea.link (ma : MemArea) (block : ℕ) : ℕ := load32 ma.memory (ma.mem + block)

def getLink (ma : MemArea) (block : ℕ) : Except Fault ℕ :=
  if block + 4 ≤ 2 ^ ma.upper then .ok (ma.link block) else .error .outOfBounds

def setLink (ma : MemArea) (block value : ℕ) : Except Fault MemArea :=
  if block + 4 ≤ 2 ^ ma.upper then
    .ok { ma with memory := store32 ma.memory (ma.mem + block) value }
  else .error .outOfBounds

/-! ## The functions of `buddy.c` -/

/-- The size loop.  `pow2` wraps at 32 bits. -/
def mforsizeLoop (nbytes : ℕ) : ℕ → ℕ → ℕ → Option ℕ
  | 0, _, _ => none
  | fuel + 1, pow2, m =>
      if pow2 ≤ nbytes then mforsizeLoop nbytes fuel (pow2 * 2 % wordCount) (m + 1)
      else some m

/-- The loop doubles `pow2` at most 32 times before it becomes 0, and from then
on it never ends. -/
def mforsize (ma : MemArea) (nbytes : ℕ) : Except Fault ℕ :=
  match mforsizeLoop nbytes 33 1 0 with
  | none => .error .diverges
  | some m => .ok (if ma.lower ≤ m then m else ma.lower)

/-- Offset of the buddy: bit `m` flipped with the source's 32-bit operations. -/
def flipBit (block m : ℕ) : ℕ :=
  if block &&& (1 <<< m) ≠ 0 then block &&& ((1 <<< m) ^^^ 4294967295)
  else block ||| (1 <<< m)

def getBuddy (ma : MemArea) (block : ℕ) : Except Fault ℕ := do
  let m ← getSizem ma block
  check (ma.lower ≤ m ∧ m ≤ ma.upper)
  return flipBit block m

def addToFreelist (ma : MemArea) (m block : ℕ) : Except Fault MemArea := do
  check (block + 2 ^ m ≤ 2 ^ ma.upper)
  let head ← getFreelist ma m
  let ma ← setLink ma block head
  setFreelist ma m block

/-- What `ptr` points to in `remove_from_freelist`: a free-list head or the link
word of a free block. -/
inductive Slot where
  | head (m : ℕ)
  | link (block : ℕ)
  deriving DecidableEq

def getSlot (ma : MemArea) : Slot → Except Fault ℕ
  | .head m => getFreelist ma m
  | .link block => getLink ma block

def setSlot (ma : MemArea) (slot : Slot) (value : ℕ) : Except Fault MemArea :=
  match slot with
  | .head m => setFreelist ma m value
  | .link block => setLink ma block value

/-- The search loop of `remove_from_freelist`.  Reaching `EMPTY` leaves `found`
at 0, so the final assertion fails. -/
def removeLoop (ma : MemArea) (block : ℕ) : ℕ → Slot → Except Fault MemArea
  | 0, _ => .error .diverges
  | fuel + 1, slot => do
      let current ← getSlot ma slot
      if current = empty then .error .assertion
      else if current = block then do
        let next ← getLink ma current
        setSlot ma slot next
      else removeLoop ma block fuel (.link current)

/-- A list that visits more nodes than there are blocks has a cycle. -/
def removeFromFreelist (ma : MemArea) (m block : ℕ) : Except Fault MemArea :=
  removeLoop ma block (ma.nblocks + 1) (.head m)

/-- The search for the first non-empty free list from `cm` on. -/
def findLoop (ma : MemArea) : ℕ → ℕ → Except Fault ℕ
  | 0, cm => .ok cm
  | fuel + 1, cm => do
      let head ← getFreelist ma cm
      if head ≠ empty then return cm else findLoop ma fuel (cm + 1)

/-- One iteration of the splitting loop of `buddy_alloc`. -/
def splitBlock (ma : MemArea) (cm : ℕ) : Except Fault MemArea := do
  let block ← getFreelist ma cm
  let used ← isUsed ma block
  check (used = false)
  let sizem ← getSizem ma block
  check (sizem = cm)
  let ma ← removeFromFreelist ma cm block
  let half1 := block
  let half2 := block + 2 ^ (cm - 1)
  let ma ← setSizem ma half1 (cm - 1)
  let ma ← setSizem ma half2 (cm - 1)
  let used1 ← isUsed ma half1
  check (used1 = false)
  let used2 ← isUsed ma half2
  check (used2 = false)
  let ma ← addToFreelist ma (cm - 1) half2
  addToFreelist ma (cm - 1) half1

/-- The splitting loop for `cm` from `m + count` down to `m + 1`. -/
def splitLoop (m : ℕ) : ℕ → MemArea → Except Fault MemArea
  | 0, ma => .ok ma
  | count + 1, ma => do
      let ma ← splitBlock ma (m + (count + 1))
      splitLoop m count ma

/-- Take the first block of the free list of order `m`. -/
def takeBlock (ma : MemArea) (m : ℕ) : Except Fault (ℕ × MemArea) := do
  let block ← getFreelist ma m
  check (block ≠ empty)
  let used ← isUsed ma block
  check (used = false)
  let sizem ← getSizem ma block
  check (sizem = m)
  let ma ← setUsed ma block true
  let ma ← removeFromFreelist ma m block
  return ((block + ma.mem) % wordCount, ma)

/-- Result 0 is `NULL`.  With `userland` unset the build asserts on exhaustion. -/
def buddyAlloc (userland : Bool) (ma : MemArea) (nbytes : ℕ) :
    Except Fault (ℕ × MemArea) := do
  let m ← mforsize ma nbytes
  let head ← getFreelist ma m
  if head = empty then
    let cm ← findLoop ma (ma.upper + 1 - (m + 1)) (m + 1)
    if ma.upper < cm then
      if userland then return (0, ma) else throw .exhausted
    else
      let ma ← splitLoop m (cm - m) ma
      takeBlock ma m
  else takeBlock ma m

/-- The coalescing loop of `buddy_free`, run at most `upper - m` times. -/
def mergeLoop : ℕ → MemArea → ℕ → ℕ → ℕ → Except Fault (MemArea × ℕ × ℕ)
  | 0, ma, block, _, m => .ok (ma, block, m)
  | fuel + 1, ma, block, buddy, m => do
      let used ← isUsed ma buddy
      let sizem ← getSizem ma buddy
      if used = false ∧ sizem = m then
        let ma ← removeFromFreelist ma m buddy
        let low := min block buddy
        let high := max block buddy
        let ma ← setSizem ma low (m + 1)
        let ma ← setSizem ma high 0
        let buddy ← getBuddy ma low
        mergeLoop fuel ma low buddy (m + 1)
      else return (ma, block, m)

def buddyFree (ma : MemArea) (ptr : ℕ) : Except Fault MemArea :=
  if ptr = 0 then .ok ma
  else do
    check (ma.mem ≤ ptr ∧ ptr < ma.mem + 2 ^ ma.upper)
    let block := ptr - ma.mem
    let m ← getSizem ma block
    check (ma.lower ≤ m ∧ m ≤ ma.upper)
    let used ← isUsed ma block
    check (used = true)
    let ma ← setUsed ma block false
    let buddy ← getBuddy ma block
    let (ma, block, m) ← mergeLoop (ma.upper - m) ma block buddy m
    addToFreelist ma m block

def buddyInit (sizepow2 membase : ℕ) (memory : Memory) : MemArea where
  lower := defaultLower
  upper := sizepow2
  mem := membase
  memory := store32 memory membase empty
  blocks := Function.update (fun _ => ⟨0, false⟩) 0 ⟨sizepow2, false⟩
  freelist := Function.update (fun _ => empty) sizepow2 0

/-! ## Clients -/

/-- An area with the blocks its clients hold.  A live block is one that
`buddy_alloc` returned and that has not been passed to `buddy_free` since. -/
structure Session where
  area : MemArea
  live : List Block

inductive Operation where
  | alloc (nbytes : ℕ)
  | free (ptr : ℕ)
  | write (address : ℕ) (byte : UInt8)

/-- Pointer to a live block. -/
def Session.pointer (session : Session) (block : Block) : ℕ :=
  session.area.mem + block.base

/-- Clients free only pointers they hold and write only to bytes of live
blocks. -/
def Session.Allowed (session : Session) : Operation → Prop
  | .alloc _ => True
  | .free ptr => ∃ block ∈ session.live, ptr = session.pointer block
  | .write address _ => ∃ block ∈ session.live,
      session.pointer block ≤ address ∧ address < session.pointer block + 2 ^ block.order

def Session.step (userland : Bool) (session : Session) :
    Operation → Except Fault Session
  | .alloc nbytes => do
      let m ← mforsize session.area nbytes
      let (ptr, area) ← buddyAlloc userland session.area nbytes
      if ptr = 0 then return { session with area := area }
      else return ⟨area, ⟨ptr - area.mem, m⟩ :: session.live⟩
  | .free ptr => do
      let area ← buddyFree session.area ptr
      return ⟨area, session.live.filter fun block => session.pointer block ≠ ptr⟩
  | .write address byte =>
      .ok { session with area := { session.area with
        memory := Function.update session.area.memory address byte } }

end Rhythmos.Buddy
