import Rhythmos.Constants
import Rhythmos.Library.Ledger
import Rhythmos.Library.LinkedChain
import Rhythmos.Library.Fallible
import Rhythmos.Libc.Memmove

/-!
# Page allocation and page tables

The functions of `page.c`, and `map_and_copy` of `unixproc.c`, on an explicit
physical memory.  All of them run with paging disabled, so every address they
use is physical.  Page directories and page tables are pages of 1024 words in
that memory, and so are the links of the list of free pages.

The source does not check that `page_end` stays within the 32-bit address
space; the model reports the allocation that would leave it as `exhausted`.
-/

namespace Rhythmos.Paging

open ByteMemory Libc

inductive PageFault where
  /-- an `assert` of `page.c` or `map_and_copy` fails -/
  | assertion
  /-- `page_end` would pass the end of the address space -/
  | exhausted
  /-- the kernel touches a logical address that is not mapped -/
  | unmapped
  deriving DecidableEq, Repr

def check (condition : Prop) [Decidable condition] : Except PageFault Unit :=
  if condition then .ok () else .error .assertion

/-- The global variables of `page.c` and the physical memory.  `ledger` is a
history of the pages handed out and taken back; no function reads it. -/
structure Pages where
  phys : Memory
  pageEnd : ℕ
  pageFree : ℕ
  npages : ℕ
  ledger : List (Ledger.Entry ℕ)

namespace Pages

def store (ps : Pages) (address value : ℕ) : Pages :=
  { ps with phys := store32 ps.phys address value }

end Pages

/-! ## Allocation -/

/-- Zero the first words of a page, as the loop in `alloc_page` does. -/
def zeroWords (phys : Memory) (page : ℕ) : ℕ → Memory
  | 0 => phys
  | count + 1 => store32 (zeroWords phys page count) (page + 4 * count) 0

/-- `alloc_page`. -/
def allocPage (ps : Pages) : Except PageFault (Pages × ℕ) :=
  if ps.pageFree = 0 then
    if ps.pageEnd + pageSize ≤ wordCount then
      .ok ({ ps with
        npages := ps.npages + 1
        pageEnd := ps.pageEnd + pageSize
        phys := zeroWords ps.phys ps.pageEnd 1024
        ledger := .taken ps.pageEnd :: ps.ledger }, ps.pageEnd)
    else .error .exhausted
  else
    .ok ({ ps with
      npages := ps.npages + 1
      pageFree := load32 ps.phys ps.pageFree
      phys := zeroWords ps.phys ps.pageFree 1024
      ledger := .taken ps.pageFree :: ps.ledger }, ps.pageFree)

/-- `free_page`. -/
def freePage (ps : Pages) (page : ℕ) : Except PageFault Pages := do
  check (0 < ps.npages)
  return { ps with
    npages := ps.npages - 1
    phys := store32 ps.phys page ps.pageFree
    pageFree := page
    ledger := .returned page :: ps.ledger }

/-! ## Page directories -/

/-- The entry has its `PAGE_PRESENT` bit set. -/
def isPresent (entry : ℕ) : Bool := entry &&& pagePresent ≠ 0

/-- The page an entry refers to. -/
def frameAddress (entry : ℕ) : ℕ := entry &&& pageAddressMask

/-- The first half of `map_page`: create the page table of a directory entry if
there is none. -/
def createTable (ps : Pages) (pdir dirindex : ℕ) : Except PageFault Pages :=
  if isPresent (load32 ps.phys (pdir + 4 * dirindex)) then .ok ps
  else do
    let (ps, dirpage) ← allocPage ps
    return ps.store (pdir + 4 * dirindex)
      (dirpage ||| pagePresent ||| pageUser ||| pageReadWrite)

/-- `map_page`. -/
def mapPage (ps : Pages) (pdir logical physical access readwrite : ℕ) :
    Except PageFault Pages := do
  check (logical % pageSize = 0)
  check (physical % pageSize = 0)
  let pageno := logical / pageSize
  let dirindex := pageno / 1024
  let tblindex := pageno % 1024
  let ps ← createTable ps pdir dirindex
  let ptable := frameAddress (load32 ps.phys (pdir + 4 * dirindex))
  return ps.store (ptable + 4 * tblindex) (physical ||| pagePresent ||| access ||| readwrite)

/-- `lookup_page`; the physical address is `none` where the source returns 0. -/
def lookupPage (ps : Pages) (pdir logical : ℕ) : Except PageFault (Option ℕ) := do
  check (logical % pageSize = 0)
  let pageno := logical / pageSize
  let dirindex := pageno / 1024
  let tblindex := pageno % 1024
  if isPresent (load32 ps.phys (pdir + 4 * dirindex)) then
    let ptable := frameAddress (load32 ps.phys (pdir + 4 * dirindex))
    if isPresent (load32 ps.phys (ptable + 4 * tblindex)) then
      return some (frameAddress (load32 ps.phys (ptable + 4 * tblindex)))
    else return none
  else return none

/-- `unmap_and_free_page`. -/
def unmapAndFreePage (ps : Pages) (pdir logical : ℕ) : Except PageFault Pages := do
  check (logical % pageSize = 0)
  let pageno := logical / pageSize
  let dirindex := pageno / 1024
  let tblindex := pageno % 1024
  if isPresent (load32 ps.phys (pdir + 4 * dirindex)) then
    let ptable := frameAddress (load32 ps.phys (pdir + 4 * dirindex))
    if isPresent (load32 ps.phys (ptable + 4 * tblindex)) then
      let ps ← freePage ps (frameAddress (load32 ps.phys (ptable + 4 * tblindex)))
      return ps.store (ptable + 4 * tblindex) 0
    else return ps
  else return ps

/-! ## Ranges of pages -/

/-- The addresses visited by `for (addr = start; addr < end; addr += PAGE_SIZE)`. -/
def pageAddresses (first limit : ℕ) : List ℕ :=
  (List.range ((limit - first + (pageSize - 1)) / pageSize)).map fun i => first + i * pageSize

/-- `identity_map`. -/
def identityMap (ps : Pages) (pdir first limit access readwrite : ℕ) : Except PageFault Pages :=
  (pageAddresses first limit).foldlM
    (fun ps addr => mapPage ps pdir addr addr access readwrite) ps

/-- One round of the loop in `map_new_pages`. -/
def mapNewPage (ps : Pages) (pdir logical : ℕ) : Except PageFault Pages := do
  let (ps, page) ← allocPage ps
  mapPage ps pdir logical page pageUser pageReadWrite

/-- `map_new_pages`. -/
def mapNewPages (ps : Pages) (pdir base count : ℕ) : Except PageFault Pages := do
  check (base % pageSize = 0)
  (List.range count).foldlM
    (fun ps i => mapNewPage ps pdir ((base + i * pageSize) % wordCount)) ps

/-- The loop that `kill_process` and `syscall_execve` run over each segment. -/
def unmapRange (ps : Pages) (pdir first limit : ℕ) : Except PageFault Pages :=
  (pageAddresses first limit).foldlM (fun ps addr => unmapAndFreePage ps pdir addr) ps

/-- One round of the loop in `free_page_dir`. -/
def freeTable (ps : Pages) (pdir dirindex : ℕ) : Except PageFault Pages :=
  if isPresent (load32 ps.phys (pdir + 4 * dirindex)) then
    freePage ps (frameAddress (load32 ps.phys (pdir + 4 * dirindex)))
  else .ok ps

/-- `free_page_dir`. -/
def freePageDir (ps : Pages) (pdir : ℕ) : Except PageFault Pages := do
  let ps ← (List.range 1024).foldlM (fun ps dirindex => freeTable ps pdir dirindex) ps
  freePage ps pdir

/-- One round of the loop in `map_and_copy`. -/
def copyPage (srcDir destDir : ℕ) (ps : Pages) (addr : ℕ) : Except PageFault Pages := do
  let (ps, page) ← allocPage ps
  let ps ← mapPage ps destDir addr page pageUser pageReadWrite
  match ← lookupPage ps srcDir addr with
  | none => .error .assertion
  | some srcPhys => return { ps with phys := memmove ps.phys page srcPhys pageSize }

/-- `map_and_copy`. -/
def mapAndCopy (ps : Pages) (srcDir destDir first limit : ℕ) : Except PageFault Pages := do
  check (first % pageSize = 0)
  check (limit % pageSize = 0)
  (pageAddresses first limit).foldlM (copyPage srcDir destDir) ps

/-- One round of the loop in `syscall_execve` that loads the text segment: the
page takes the bytes of the file from `pos` on. -/
def loadPage (pdir textStart : ℕ) (contents : List UInt8) (ps : Pages) (pos : ℕ) :
    Except PageFault Pages := do
  let (ps, page) ← allocPage ps
  let ps := { ps with phys := storeBytes ps.phys page ((contents.drop pos).take pageSize) }
  mapPage ps pdir (textStart + pos) page pageUser pageReadWrite

/-- The loop in `syscall_execve` that loads the text segment. -/
def loadText (ps : Pages) (pdir textStart : ℕ) (contents : List UInt8) :
    Except PageFault Pages :=
  (pageAddresses 0 contents.length).foldlM (loadPage pdir textStart contents) ps

/-! ## Address translation -/

/-- The page table entry the processor finds for a logical address. -/
def walk (phys : Memory) (pdir logical : ℕ) : Option ℕ :=
  let pageno := logical / pageSize
  if isPresent (load32 phys (pdir + 4 * (pageno / 1024))) then
    let ptable := frameAddress (load32 phys (pdir + 4 * (pageno / 1024)))
    if isPresent (load32 phys (ptable + 4 * (pageno % 1024))) then
      some (load32 phys (ptable + 4 * (pageno % 1024)))
    else none
  else none

/-- The physical address behind a logical address.  Kernel code may use every
present page. -/
def translate (phys : Memory) (pdir logical : ℕ) : Except PageFault ℕ :=
  match walk phys pdir logical with
  | some entry => .ok (frameAddress entry + logical % pageSize)
  | none => .error .unmapped

/-- A store by kernel code, with `cr3` the page directory in use or `none` while
paging is disabled. -/
def storeByte (cr3 : Option ℕ) (ps : Pages) (address : ℕ) (byte : UInt8) :
    Except PageFault Pages := do
  match cr3 with
  | none => return { ps with phys := Function.update ps.phys address byte }
  | some pdir =>
      let physical ← translate ps.phys pdir address
      return { ps with phys := Function.update ps.phys physical byte }

/-- A load by kernel code. -/
def loadByte (cr3 : Option ℕ) (ps : Pages) (address : ℕ) : Except PageFault UInt8 := do
  match cr3 with
  | none => return ps.phys address
  | some pdir =>
      let physical ← translate ps.phys pdir address
      return ps.phys physical

/-- Stores of a byte string at consecutive logical addresses. -/
def storeUser (cr3 : Option ℕ) (ps : Pages) (address : ℕ) :
    List UInt8 → Except PageFault Pages
  | [] => .ok ps
  | byte :: bytes => do
      let ps ← storeByte cr3 ps (address % wordCount) byte
      storeUser cr3 ps (address + 1) bytes

/-- Loads of `count` bytes from consecutive logical addresses. -/
def loadUser (cr3 : Option ℕ) (ps : Pages) (address : ℕ) : ℕ → Except PageFault (List UInt8)
  | 0 => .ok []
  | count + 1 => do
      let byte ← loadByte cr3 ps (address % wordCount)
      let bytes ← loadUser cr3 ps (address + 1) count
      return byte :: bytes

/-- A store by the user code of the process whose directory is `pdir`: the entry
must grant access to user mode and allow writes, otherwise the processor raises
a page fault and nothing is stored. -/
def userStore (ps : Pages) (pdir address : ℕ) (byte : UInt8) : Pages :=
  match walk ps.phys pdir address with
  | some entry =>
      if entry &&& pageUser ≠ 0 ∧ entry &&& pageReadWrite ≠ 0 then
        { ps with phys := Function.update ps.phys (frameAddress entry + address % pageSize) byte }
      else ps
  | none => ps

end Rhythmos.Paging
