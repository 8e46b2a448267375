import Rhythmos.Constants
import Rhythmos.Library.Fallible
import Rhythmos.Library.Ledger
import Rhythmos.Paging.Model
import Rhythmos.Filesystem.Images
import Rhythmos.Libc.Printf

/-!
# State of the kernel

The kernel's data structures: the process table with its two queues, the file
handles, pipes and mailboxes on the kernel heap, and the register frames.  The
page directory and the segment bounds of a process are kept in an
`AddressSpace` beside its `Process`, so that code which only schedules or moves
data between processes does not mention memory at all.

Objects on the kernel heap are named by the number of the `kmalloc` call that
created them.  The allocator hands out disjoint blocks (see
`Rhythmos.Buddy.Sessions`), so distinct objects never share bytes.  A name is
never used again, although the allocator gives out the bytes of a released block
again: following a pointer to a released handle or pipe and storing a message in a
released mailbox are faults.  A request that cannot fit the kernel heap at all never
returns, like the assertion in `buddy_alloc`; other requests succeed.

The code, the data and the heap of the kernel lie in memory too, below `PAGE_START`,
at addresses that the linker and the allocator choose.  A store there through a
pointer of a process is a fault.
-/

namespace Rhythmos.Kernel

open ByteMemory

/-- Index into the process table of `MAX_PROCESSES` entries. -/
abbrev Pid := Fin 32

/-- Index into a descriptor table of `MAX_FDS` entries. -/
abbrev Fd := Fin 16

instance neZero_pid : NeZero 32 := ⟨by decide⟩

instance neZero_fd : NeZero 16 := ⟨by decide⟩

instance lawfulBEq_fd : LawfulBEq Fd := inferInstance

abbrev Word := BitVec 32

/-- Name of an object on the kernel heap. -/
abbrev Block := ℕ

/-! ## Faults -/

/-- The functions outside `page.c` that assert something. -/
inductive AssertSite where
  | suspendProcess
  | resumeProcess
  | closeFilehandle
  | checkBufferFree
  | pipeWriterDestroy
  | pipeReaderDestroy
  | syscall
  deriving DecidableEq, Repr

inductive Fault where
  /-- a fault of the page functions or of an access to user memory -/
  | page (fault : Paging.PageFault)
  /-- an `assert` fails -/
  | assertion (site : AssertSite)
  /-- a null pointer or a pointer to a released object is followed -/
  | dangling
  /-- `kmalloc` cannot serve the request -/
  | heapExhausted
  /-- a loop never ends -/
  | diverges
  /-- a block of memory is accessed past its end -/
  | overrun
  /-- a pointer of a process leads a store into the memory of the kernel -/
  | kernelStore
  /-- a message is stored in a mailbox that was released -/
  | releasedMailbox
  /-- the machine is halted, by `syscall_halt` or by an exception in the kernel -/
  | halted
  /-- the nesting of `context_switch` and `syscall` exceeds the given bound -/
  | outOfFuel
  deriving DecidableEq, Repr

/-- The kernel overwrites data of its own, or memory that may hold some.  What it does from
then on depends on where they lie. -/
def Fault.Overwrites (fault : Fault) : Prop := fault = .kernelStore ∨ fault = .releasedMailbox

def check (site : AssertSite) (condition : Prop) [Decidable condition] : Except Fault Unit :=
  if condition then .ok () else .error (.assertion site)

/-- The value a system call returns for an error number. -/
def failure (errno : ℤ) : Word := BitVec.ofInt 32 (-errno)

/-- Run a page function inside the kernel. -/
def onPages {A : Type} : Except Paging.PageFault A → Except Fault A
  | .ok value => .ok value
  | .error fault => .error (.page fault)

/-! ## Registers -/

/-- The register frame saved by an interrupt.  `args` are the words above the
user stack pointer, where a system call finds its arguments; they belong to the
trapped process, which does not run before the call is complete. -/
structure Regs where
  fstate : Fin 27 → Word
  gs : Word
  fs : Word
  es : Word
  ds : Word
  edi : Word
  esi : Word
  ebp : Word
  esp : Word
  ebx : Word
  edx : Word
  ecx : Word
  eax : Word
  intNo : Word
  errCode : Word
  eip : Word
  cs : Word
  eflags : Word
  useresp : Word
  ss : Word
  args : ℕ → Word

def Regs.zero : Regs where
  fstate := fun _ => 0
  gs := 0
  fs := 0
  es := 0
  ds := 0
  edi := 0
  esi := 0
  ebp := 0
  esp := 0
  ebx := 0
  edx := 0
  ecx := 0
  eax := 0
  intNo := 0
  errCode := 0
  eip := 0
  cs := 0
  eflags := 0
  useresp := 0
  ss := 0
  args := fun _ => 0

/-- `init_regs`; the segment selectors are `USER_DATA_SEGMENT | RING_3` and
`USER_CODE_SEGMENT | RING_3`. -/
def initRegs (stackMax startAddr : Word) : Regs :=
  { Regs.zero with
    gs := 0x23
    fs := 0x23
    es := 0x23
    ds := 0x23
    ss := 0x23
    cs := 0x1B
    eflags := 0x202
    eip := startAddr
    useresp := stackMax }

/-! ## System calls -/

/-- The calls in the `switch` of `syscall`. -/
inductive Call where
  | getpid
  | exit
  | write
  | read
  | geterrno
  | brk
  | send
  | receive
  | close
  | pipe
  | dup2
  | fork
  | execve
  | waitpid
  | stat
  | opn
  | getdent
  | chdir
  | getcwd
  | kill
  | halt
  | vfork
  deriving DecidableEq, Repr

/-- The value of the `SYSCALL_` constant. -/
def Call.number : Call → ℕ
  | .getpid => 1
  | .exit => 2
  | .write => 3
  | .read => 4
  | .geterrno => 5
  | .brk => 6
  | .send => 7
  | .receive => 8
  | .close => 9
  | .pipe => 10
  | .dup2 => 11
  | .fork => 12
  | .execve => 13
  | .waitpid => 14
  | .stat => 15
  | .opn => 16
  | .getdent => 17
  | .chdir => 18
  | .getcwd => 19
  | .kill => 20
  | .halt => 21
  | .vfork => 22

def Call.all : List Call :=
  [.getpid, .exit, .write, .read, .geterrno, .brk, .send, .receive, .close, .pipe, .dup2, .fork,
    .execve, .waitpid, .stat, .opn, .getdent, .chdir, .getcwd, .kill, .halt, .vfork]

/-- The call a number stands for, if the `switch` has a case for it. -/
def Call.ofNumber (number : ℕ) : Option Call :=
  Call.all.find? fun call => call.number = number

/-! ## Files -/

/-- The fields of a `directory_entry`, with the bytes of the image it refers to
(`size` bytes from `location` on). -/
structure DirectoryEntry where
  isDir : Bool
  location : ℕ
  mode : Word
  mtime : Word
  contents : List UInt8

/-- The entry at an offset into a filesystem image. -/
def DirectoryEntry.read (fs : Memory) (entry : ℕ) : DirectoryEntry where
  isDir := Filesystem.typeAt fs entry = Filesystem.typeDir
  location := Filesystem.locationAt fs entry
  mode := BitVec.ofNat 32 (Filesystem.modeAt fs entry)
  mtime := BitVec.ofNat 32 (Filesystem.mtimeAt fs entry)
  contents := Libc.loadBytes fs (Filesystem.locationAt fs entry) (Filesystem.sizeAt fs entry)

/-- What the linker and the boot loader leave in memory: the end of the kernel's
code and the addresses of some of its symbols, and the filesystem image.  The code
lies below the kernel heap.  `kmain` asserts that the image ends below 2MB, so no
file is longer. -/
structure Image where
  codeEnd : ℕ
  codeEnd_le : codeEnd ≤ 2 * mb
  launchShell : Word
  idle : Word
  idleStackEnd : Word
  /-- the bytes of the filesystem image -/
  filesystem : Memory
  /-- the byte before the buffer of `relative_to_absolute`, applied to a working directory
  and a path -/
  beforeBuffer : List UInt8 → List UInt8 → UInt8
  /-- the words behind the arguments of `snprintf` on the stack, when `getdent` prints the
  name of an entry of a directory -/
  strayWords : DirectoryEntry → ℕ → ℕ → Word
  /-- the memory that these words point into -/
  strayMemory : DirectoryEntry → ℕ → Memory
  size_lt : ∀ path entry, Filesystem.getDirectoryEntry filesystem path = some entry →
    Filesystem.sizeAt filesystem entry < 2 * mb

/-- `relative_to_absolute`, with a buffer of `PATH_MAX` bytes. -/
def Image.relativeToAbsolute (image : Image) (base rel : List UInt8) : List UInt8 :=
  Filesystem.relativeToAbsolute (image.beforeBuffer base rel) base rel pathMax

/-- `get_directory_entry`; `none` stands for `-ENOENT`. -/
def Image.getDirectoryEntry (image : Image) (path : List UInt8) : Option DirectoryEntry :=
  (Filesystem.getDirectoryEntry image.filesystem path).map (.read image.filesystem)

theorem Image.length_contents_lt (image : Image) {path : List UInt8} {entry : DirectoryEntry}
    (hentry : image.getDirectoryEntry path = some entry) : entry.contents.length < 2 * mb := by
  obtain ⟨offset, hoffset, rfl⟩ := Option.map_eq_some_iff.mp hentry
  simpa [DirectoryEntry.read] using image.size_lt path offset hoffset

/-- What `snprintf` reads for the name of an entry of a directory, which it is given as its
format. -/
def Image.direntSource (image : Image) (dir : DirectoryEntry) (entryno : ℕ) :
    Libc.Printf.Source where
  format index := image.filesystem (Filesystem.entryAddress dir.location entryno + 20 + index)
  args := image.strayWords dir entryno
  memory := image.strayMemory dir entryno

/-- The name that `snprintf` leaves in `d_name`, with its terminator. -/
def Image.direntName (image : Image) (dir : DirectoryEntry) (entryno : ℕ) :
    Except Fault (List UInt8) :=
  match Libc.Printf.vsnprintf (fun _ => 0) (nameMax + 1) (image.direntSource dir entryno) with
  | .ok (str, length) => .ok (Libc.loadBytes str 0 (min length nameMax + 1))
  | .error _ => .error .overrun

theorem Image.ensures_direntName (image : Image) (dir : DirectoryEntry) (entryno : ℕ) :
    Fallible.Ensures (· = .overrun) (image.direntName dir entryno) fun name =>
      name.length ≤ nameMax + 1 := by
  rw [direntName]
  split
  next length _ =>
    rw [Fallible.ensures_ok, Libc.length_loadBytes]
    omega
  next => exact Fallible.ensures_error.mpr rfl

/-! ## Handles, pipes and mailboxes -/

/-- `type` of a file handle with the object it refers to.  The type also decides
the function pointers `write`, `read` and `destroy`. -/
inductive HandleKind where
  | screen
  | pipeWriter (pipe : Block)
  | pipeReader (pipe : Block)
  | file (entry : DirectoryEntry)
  | dir (entry : DirectoryEntry)

structure FileHandle where
  kind : HandleKind
  refcount : ℕ
  pos : ℕ
  entryno : ℕ

structure PipeBuffer where
  reading : Bool
  writing : Bool
  alloc : ℕ
  len : ℕ
  readpid : Option Pid
  data : Memory

/-- A `message`: three words and the `MAX_MESSAGE_SIZE` bytes of `data`. -/
structure Message where
  sender : Word
  tag : Word
  size : Word
  data : ℕ → UInt8

/-- The block a process's `mailbox` points to.  The pointer stays when the block is
released, and `syscall_receive` does not check it, so the messages stay beside the flag. -/
structure Mailbox where
  messages : ℕ → Message
  live : Bool

/-! ## Processes -/

/-- A `struct process` without its memory.  `none` is the pid -1 in `parentPid`
and `waitingOn`, and the null pointer in `prev`, `next`, `filedesc` and
`mailbox`. -/
structure Process where
  pid : Pid
  existing : Bool
  savedRegs : Regs
  ready : Bool
  prev : Option Pid
  next : Option Pid
  inSyscall : ℕ
  lastErrno : ℤ
  filedesc : Fd → Option Block
  cwd : List UInt8
  parentPid : Option Pid
  exitStatus : Word
  exited : Bool
  waitingOn : Option Pid
  mailbox : Option Block
  mailboxSize : ℕ
  mailboxAlloc : ℕ
  receiveBlocked : Bool

/-- The slot after `memset(proc, 0, sizeof(process))`. -/
def Process.zero : Process where
  pid := 0
  existing := false
  savedRegs := Regs.zero
  ready := false
  prev := none
  next := none
  inSyscall := 0
  lastErrno := 0
  filedesc := fun _ => none
  cwd := []
  parentPid := some 0
  exitStatus := 0
  exited := false
  waitingOn := some 0
  mailbox := none
  mailboxSize := 0
  mailboxAlloc := 0
  receiveBlocked := false

/-- The two lists of processes. -/
inductive Queue where
  | ready
  | suspended
  deriving DecidableEq, Repr

structure ProcessList where
  first : Option Pid
  last : Option Pid

/-- A descriptor of a process. -/
abbrev Slot := Pid × Fd

/-- What happened, for the statements about whole runs.  No function reads it. -/
inductive Happening where
  /-- `context_switch` selected a process; the flag tells whether it was alive -/
  | selected (pid : Pid) (alive : Bool)
  /-- a descriptor came to refer to a handle -/
  | referenced (slot : Slot)
  /-- the handle of a descriptor was closed -/
  | closed (slot : Slot)
  | mailboxTaken (mailbox : Block)
  | mailboxReturned (mailbox : Block)
  /-- `syscall_pipe` made the pipe -/
  | pipeMade (pipe : Block)
  | pipeFreed (pipe : Block)
  | writerClosed (pipe : Block)
  | written (pipe : Block) (bytes : List UInt8)
  /-- a read of at most `count` bytes returned the bytes -/
  | delivered (pipe : Block) (count : ℕ) (bytes : List UInt8)
  /-- a slot of the process table was given to a new process -/
  | created (parent : Option Pid) (pid : Pid)
  /-- `kill_process` completed on a process with this parent -/
  | exited (parent : Option Pid) (pid : Pid) (status : Word)
  /-- `waitpid` returned the child's pid with this status -/
  | reaped (parent child : Pid) (status : Word)
  /-- `waitpid` returned `-ECHILD` -/
  | childless (parent child : Pid)
  /-- bytes were stored through a pointer that the process passed to the kernel -/
  | stored (pid : Pid) (address count : ℕ)

/-- The kernel's data apart from memory. -/
structure Core where
  processes : Pid → Process
  current : Option Pid
  queue : Queue → ProcessList
  handles : Block → Option FileHandle
  pipes : Block → Option PipeBuffer
  mailboxes : Block → Mailbox
  /-- number of `kmalloc` calls so far -/
  heap : ℕ
  /-- contents of the blocks `kmalloc` returns -/
  junk : Block → Memory
  inputPipe : Option Block
  history : List Happening

namespace Core

/-- Change one entry of the process table. -/
@[simps]
def modify (c : Core) (pid : Pid) (change : Process → Process) : Core :=
  { c with processes := Function.update c.processes pid (change (c.processes pid)) }

@[simps]
def setQueue (c : Core) (queue : Queue) (list : ProcessList) : Core :=
  { c with queue := Function.update c.queue queue list }

@[simps]
def setHandle (c : Core) (handle : Block) (value : Option FileHandle) : Core :=
  { c with handles := Function.update c.handles handle value }

@[simps]
def setPipe (c : Core) (pipe : Block) (value : Option PipeBuffer) : Core :=
  { c with pipes := Function.update c.pipes pipe value }

@[simps]
def setMailbox (c : Core) (mailbox : Block) (value : Mailbox) : Core :=
  { c with mailboxes := Function.update c.mailboxes mailbox value }

@[simps]
def record (c : Core) (happening : Happening) : Core :=
  { c with history := happening :: c.history }

/-- The handle behind a pointer. -/
def handle (c : Core) (handle : Block) : Except Fault FileHandle :=
  match c.handles handle with
  | some value => .ok value
  | none => .error .dangling

/-- The pipe behind a pointer. -/
def pipe (c : Core) (pipe : Block) : Except Fault PipeBuffer :=
  match c.pipes pipe with
  | some value => .ok value
  | none => .error .dangling

/-- The process behind `current_process`. -/
def currentProcess (c : Core) : Except Fault Pid :=
  match c.current with
  | some pid => .ok pid
  | none => .error .dangling

/-- `kmalloc`. -/
def kmalloc (c : Core) (nbytes : ℕ) : Except Fault (Core × Block) :=
  if nbytes < kernelMemSize then .ok ({ c with heap := c.heap + 1 }, c.heap)
  else .error .heapExhausted

/-- The process exists and has not exited. -/
def isLive (c : Core) (pid : Pid) : Bool :=
  (c.processes pid).existing && !(c.processes pid).exited

end Core

/-- The page directory and the segment bounds of a `struct process`. -/
structure AddressSpace where
  pdir : ℕ
  stackStart : ℕ
  stackEnd : ℕ
  dataStart : ℕ
  dataEnd : ℕ
  textStart : ℕ
  textEnd : ℕ

def AddressSpace.zero : AddressSpace := ⟨0, 0, 0, 0, 0, 0, 0⟩

/-- The whole machine.  `cr3` is the page directory in use, or `none` while
paging is disabled. -/
structure Machine where
  core : Core
  pages : Paging.Pages
  spaces : Pid → AddressSpace
  cr3 : Option ℕ
  image : Image

end Rhythmos.Kernel
