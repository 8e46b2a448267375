import Rhythmos.Kernel.Calls

/-!
# System calls and interrupts

The system calls on the whole machine, the dispatcher `syscall` with
`context_switch`, and the interrupts that drive them.  User code is not
modelled: it may store to its own memory and trap with any registers and
arguments.
-/

namespace Rhythmos.Kernel

open ByteMemory Libc

/-! ## User memory -/

/-- The range `[start, start + size)` lies in `[low, high)`. -/
def within (start size low high : ℕ) : Bool := low ≤ start && start + size ≤ high

/-- `valid_pointer` for the process with the given address space, in 32-bit
arithmetic. -/
def validPointer (space : AddressSpace) (ptr size : ℕ) : Bool :=
  if size = 0 then true
  else if wordCount ≤ ptr + size then false
  else
    within ptr size space.stackStart space.stackEnd ||
      within ptr size space.dataStart space.dataEnd ||
      within ptr size space.textStart space.textEnd

/-- The buffer has a byte in the kernel's memory, which lies below `PAGE_START`. -/
def meetsKernel (address count : ℕ) : Bool :=
  0 < count && (address < pageStart || wordCount < address + count)

namespace Machine

def setCore (m : Machine) (core : Core) : Machine := { m with core := core }

def setSpace (m : Machine) (pid : Pid) (space : AddressSpace) : Machine :=
  { m with spaces := Function.update m.spaces pid space }

def loadUser (m : Machine) (address count : ℕ) : Except Fault (List UInt8) :=
  onPages (Paging.loadUser m.cr3 m.pages address count)

def storeUser (m : Machine) (address : ℕ) (bytes : List UInt8) : Except Fault Machine := do
  let pages ← onPages (Paging.storeUser m.cr3 m.pages address bytes)
  return { m with pages := pages }

/-- A store through a pointer that the process `pid` passed to the kernel.  The kernel's
memory is mapped in every page directory, and in supervisor mode the processor lets all
present pages be written. -/
def copyOut (m : Machine) (pid : Pid) (address : ℕ) (bytes : List UInt8) :
    Except Fault Machine :=
  if meetsKernel address bytes.length then .error .kernelStore
  else do
    let m ← m.storeUser address bytes
    return m.setCore (m.core.record (.stored pid address bytes.length))

/-- The word at a user address. -/
def loadWord (m : Machine) (address : ℕ) : Except Fault ℕ := do
  let bytes ← m.loadUser address 4
  return load32 (fun offset => bytes.getD offset 0) 0

/-- `valid_string`: the bytes of the string before its terminator, or `none` if a
part of it is not valid.  The length is below `2 ^ 32`. -/
def validStringFrom (m : Machine) (space : AddressSpace) (str : ℕ) :
    ℕ → ℕ → Except Fault (Option (List UInt8))
  | 0, _ => .error .diverges
  | rounds + 1, len =>
      if validPointer space str ((len + 1) % wordCount) then do
        let bytes ← m.loadUser (str + len) 1
        if bytes = [0] then return some []
        else
          let rest ← validStringFrom m space str rounds (len + 1)
          return rest.map (bytes ++ ·)
      else return none

def validString (m : Machine) (pid : Pid) (str : Word) : Except Fault (Option (List UInt8)) :=
  m.validStringFrom (m.spaces pid) str.toNat wordCount 0

/-! ## Descriptors -/

/-- `syscall_write`. -/
def syscallWrite (m : Machine) (pid : Pid) (fd buf count : Word) : Except Fault (Machine × Word) :=
  if !validPointer (m.spaces pid) buf.toNat count.toNat then .ok (m, failure efault)
  else
    match m.core.lookup pid fd with
    | none => .ok (m, failure ebadf)
    | some (_, fh) => do
        let (core, res) ← m.core.writeHandle fh (m.loadUser buf.toNat count.toNat)
        return (m.setCore core, res)

/-- `syscall_read`. -/
def syscallRead (m : Machine) (pid : Pid) (fd buf count : Word) : Except Fault (Machine × Word) :=
  if !validPointer (m.spaces pid) buf.toNat count.toNat then .ok (m, failure efault)
  else
    match m.core.lookup pid fd with
    | none => .ok (m, failure ebadf)
    | some (_, fh) => do
        let (core, res, bytes) ← m.core.readHandle fh count.toNat
        let m ← (m.setCore core).copyOut pid buf.toNat bytes
        return (m, res)

/-- `syscall_pipe`. -/
def syscallPipe (m : Machine) (pid : Pid) (filedes : Word) : Except Fault (Machine × Word) :=
  if !validPointer (m.spaces pid) filedes.toNat 8 then .ok (m, failure efault)
  else do
    let (core, fds) ← m.core.syscallPipe pid
    match fds with
    | none => return (m.setCore core, failure emfile)
    | some (readfd, writefd) =>
        let m ← (m.setCore core).copyOut pid filedes.toNat
          (wordBytes (BitVec.ofNat 32 readfd.val) ++ wordBytes (BitVec.ofNat 32 writefd.val))
        return (m, 0)

/-! ## Messages -/

/-- `syscall_send`. -/
def syscallSend (m : Machine) (pid : Pid) (target tag data size : Word) :
    Except Fault (Machine × Word) :=
  if !validPointer (m.spaces pid) data.toNat size.toNat then .ok (m, failure efault)
  else do
    let (core, res) ← m.core.syscallSend pid target tag size.toNat
      (m.loadUser data.toNat size.toNat)
    return (m.setCore core, res)

/-- `syscall_receive`. -/
def syscallReceive (m : Machine) (pid : Pid) (msg block : Word) :
    Except Fault (Machine × Word) :=
  if !validPointer (m.spaces pid) msg.toNat messageSize then .ok (m, failure efault)
  else do
    let (core, res, message) ← m.core.syscallReceive pid block
    let m := m.setCore core
    match message with
    | none => return (m, res)
    | some message =>
        let m ← m.copyOut pid msg.toNat message.bytes
        return (m, res)

/-! ## Files -/

/-- `syscall_stat`. -/
def syscallStat (m : Machine) (pid : Pid) (path buf : Word) : Except Fault (Machine × Word) := do
  match ← m.validString pid path with
  | none => return (m, failure efault)
  | some path =>
      if !validPointer (m.spaces pid) buf.toNat 20 then return (m, failure efault)
      else
        let abs := m.image.relativeToAbsolute (m.core.processes pid).cwd path
        match m.image.getDirectoryEntry abs with
        | none => return (m, failure enoent)
        | some entry =>
            let m ← m.copyOut pid buf.toNat (wordBytes entry.mode ++ wordBytes 0 ++ wordBytes 0 ++
              wordBytes (BitVec.ofNat 32 entry.contents.length) ++ wordBytes entry.mtime)
            return (m, 0)

/-- `syscall_open`. -/
def syscallOpen (m : Machine) (pid : Pid) (pathname flags : Word) :
    Except Fault (Machine × Word) := do
  match ← m.validString pid pathname with
  | none => return (m, failure efault)
  | some path =>
      match m.core.freeDescriptors pid with
      | [] => return (m, failure emfile)
      | fd :: _ =>
          let abs := m.image.relativeToAbsolute (m.core.processes pid).cwd path
          match m.image.getDirectoryEntry abs with
          | none => return (m, failure enoent)
          | some entry =>
              if flags = 0xFFFF ∧ !entry.isDir then return (m, failure enotdir)
              else if flags ≠ 0xFFFF ∧ entry.isDir then return (m, failure eisdir)
              else
                let core ← m.core.openEntry pid fd entry
                return (m.setCore core, BitVec.ofNat 32 fd.val)

/-- `sizeof(struct dirent)`: a word and `NAME_MAX + 1` characters, padded to whole words. -/
def direntSize : ℕ := (4 + (nameMax + 1) + 3) / 4 * 4

/-- `syscall_getdent`. -/
def syscallGetdent (m : Machine) (pid : Pid) (fd entry : Word) : Except Fault (Machine × Word) :=
  if !validPointer (m.spaces pid) entry.toNat direntSize then .ok (m, failure efault)
  else
    match m.core.lookup pid fd with
    | none => .ok (m, failure ebadf)
    | some (_, fh) => do
        let handle ← m.core.handle fh
        match handle.kind with
        | .dir dir =>
            if load32 m.image.filesystem dir.location ≤ handle.entryno then return (m, 0)
            else do
              let name ← m.image.direntName dir handle.entryno
              let core := m.core.setHandle fh
                (some { handle with entryno := handle.entryno + 1 })
              let m ← (m.setCore core).copyOut pid entry.toNat (wordBytes 0 ++ name)
              return (m, 1)
        | _ => return (m, failure enotdir)

/-- `syscall_chdir`. -/
def syscallChdir (m : Machine) (pid : Pid) (path : Word) : Except Fault (Machine × Word) := do
  match ← m.validString pid path with
  | none => return (m, failure efault)
  | some path =>
      let newcwd := m.image.relativeToAbsolute (m.core.processes pid).cwd path
      match m.image.getDirectoryEntry newcwd with
      | none => return (m, failure enoent)
      | some entry =>
          if !entry.isDir then return (m, failure enotdir)
          else
            let core := m.core.modify pid fun proc => { proc with cwd := newcwd }
            return (m.setCore core, 0)

/-- `syscall_getcwd`. -/
def syscallGetcwd (m : Machine) (pid : Pid) (buf size : Word) : Except Fault (Machine × Word) :=
  if !validPointer (m.spaces pid) buf.toNat size.toNat then .ok (m, 0)
  else do
    let text :=
      if size.toNat = 0 then []
      else (m.core.processes pid).cwd.take (size.toNat - 1) ++ [0]
    let m ← m.copyOut pid buf.toNat text
    return (m, buf)

/-! ## Memory -/

/-- `syscall_brk`. -/
def syscallBrk (m : Machine) (pid : Pid) (endDataSegment : Word) :
    Except Fault (Machine × Word) :=
  let space := m.spaces pid
  let oldend := space.dataEnd
  let newend := endDataSegment.toNat
  if newend ≤ oldend then .ok (m, 0)
  else do
    let newend :=
      if newend % pageSize ≠ 0 then (newend / pageSize + 1) * pageSize % wordCount else newend
    let pages ← onPages (Paging.mapNewPages m.pages space.pdir oldend
      ((newend + wordCount - oldend) % wordCount / pageSize))
    let m := { m with pages := pages, cr3 := some space.pdir }
    return (m.setSpace pid { space with dataEnd := newend }, 0)

/-! ## Creation of processes -/

/-- The memory of a child process: `syscall_fork` and `syscall_vfork` with paging
disabled. -/
def forkSpace (m : Machine) (parent child : Pid) : Except Fault Machine := do
  let space := m.spaces parent
  let (pages, pdir) ← onPages (Paging.allocPage m.pages)
  let pages ← onPages (Paging.identityMap pages pdir 0 (6 * mb) pageUser pageReadOnly)
  let pages ← onPages (Paging.mapAndCopy pages space.pdir pdir space.textStart space.textEnd)
  let pages ← onPages (Paging.mapAndCopy pages space.pdir pdir space.dataStart space.dataEnd)
  let pages ← onPages (Paging.mapAndCopy pages space.pdir pdir space.stackStart space.stackEnd)
  return ({ m with pages := pages, cr3 := some space.pdir }).setSpace child
    { space with pdir := pdir }

/-- `syscall_fork` and `syscall_vfork`. -/
def syscallFork (m : Machine) (pid : Pid) (r : Regs) (vfork : Bool) :
    Except Fault (Machine × Word) :=
  match m.core.getFreePid with
  | none => .ok (m, failure eagain)
  | some child => do
      let m ← m.forkSpace pid child
      let core ← m.core.forkProcess pid child r vfork
      return (m.setCore core, BitVec.ofNat 32 child.val)

/-- The memory of the first process: `start_process` maps the kernel for itself,
its code also for the process, and a stack. -/
def startSpace (m : Machine) (pid : Pid) : Except Fault Machine := do
  let stackStart := processStackBase - processStackSize
  let (pages, pdir) ← onPages (Paging.allocPage m.pages)
  let pages ← onPages
    (Paging.identityMap pages pdir (0 * mb) (6 * mb) pageSupervisor pageReadOnly)
  let pages ← onPages (Paging.identityMap pages pdir mb m.image.codeEnd pageUser pageReadOnly)
  let pages ← onPages (Paging.mapNewPages pages pdir stackStart
    ((processStackBase - stackStart) / pageSize))
  return ({ m with pages := pages }).setSpace pid
    { pdir := pdir
      stackStart := stackStart
      stackEnd := processStackBase
      dataStart := processDataBase
      dataEnd := processDataBase
      textStart := processTextBase
      textEnd := processTextBase }

/-- `start_process`; the pid is `none` where the source returns -1. -/
def startProcess (m : Machine) (startAddress : Word) : Except Fault (Machine × Option Pid) :=
  match m.core.getFreePid with
  | none => .ok (m, none)
  | some pid => do
      let m ← m.startSpace pid
      let core ← m.core.startProcess pid (BitVec.ofNat 32 processStackBase) startAddress
      return (m.setCore core, some pid)

/-! ## Death -/

/-- The part of `kill_process` that frees the memory of a process. -/
def freeSpace (m : Machine) (pid : Pid) : Except Fault Machine := do
  let space := m.spaces pid
  let pages ← onPages (Paging.unmapRange m.pages space.pdir space.stackStart space.stackEnd)
  let pages ← onPages (Paging.unmapRange pages space.pdir space.dataStart space.dataEnd)
  let pages ← onPages (Paging.unmapRange pages space.pdir space.textStart space.textEnd)
  let pages ← onPages (Paging.freePageDir pages space.pdir)
  return { m with pages := pages, cr3 := none }

/-- `kill_process`. -/
def killProcess (m : Machine) (pid : Pid) : Except Fault Machine := do
  let current := m.core.current
  let core ← (m.core.detach pid).closeHandles pid
  let m ← (m.setCore core).freeSpace pid
  let core ← m.core.finish pid
  let m := m.setCore core
  if current = some pid then return m
  else
    let other ← m.core.currentProcess
    return { m with cr3 := some (m.spaces other).pdir }

/-- `syscall_exit`. -/
def syscallExit (m : Machine) (pid : Pid) (status : Word) : Except Fault (Machine × Word) := do
  let m := m.setCore (m.core.modify pid fun proc => { proc with exitStatus := status })
  let m ← m.killProcess pid
  return (m, failure esuspend)

/-- `syscall_kill`. -/
def syscallKill (m : Machine) (pid : Pid) (target : Word) : Except Fault (Machine × Word) :=
  match Core.pidArgument target with
  | none => .ok (m, failure esrch)
  | some victim =>
      if !(m.core.processes victim).existing then .ok (m, failure esrch)
      else do
        let res := if victim = (m.core.processes pid).pid then failure esuspend else 0
        let m ← m.killProcess victim
        return (m, res)

/-- `syscall_waitpid`. -/
def syscallWaitpid (m : Machine) (pid : Pid) (child status : Word) :
    Except Fault (Machine × Word) := do
  let (core, res, exitStatus) ← m.core.syscallWaitpid pid child
  let m := m.setCore core
  match exitStatus with
  | none => return (m, res)
  | some word =>
      if status = 0 then return (m, res)
      else
        let m ← m.copyOut pid status.toNat (wordBytes word)
        return (m, res)

/-! ## Execution of programs -/

/-- The first loop of `syscall_execve`: the argument strings, or `none` if a part
of `argv` is not valid. -/
def argumentsFrom (m : Machine) (pid : Pid) (argv : ℕ) :
    ℕ → ℕ → Except Fault (Option (List (List UInt8)))
  | 0, _ => .error .diverges
  | rounds + 1, argno =>
      if validPointer (m.spaces pid) argv ((argno + 1) * 4 % wordCount) then do
        let arg ← m.loadWord (argv + argno * 4)
        if arg = 0 then return some []
        else
          match ← m.validString pid (BitVec.ofNat 32 arg) with
          | none => return none
          | some string =>
              let rest ← argumentsFrom m pid argv rounds (argno + 1)
              return rest.map (string :: ·)
      else return none

def arguments (m : Machine) (pid : Pid) (argv : Word) :
    Except Fault (Option (List (List UInt8))) :=
  if argv = 0 then .ok (some []) else m.argumentsFrom pid argv.toNat wordCount 0

/-- `argdata_size`. -/
def argdataSize (args : List (List UInt8)) : ℕ :=
  (args.map fun arg => arg.length + 1).sum + args.length * 4 + 8

/-- One round of the loop that copies the strings to the end of the buffer,
working backwards, and stores the pointers to them. -/
def packArgument (size : ℕ) (state : Memory × ℕ × ℕ) (arg : List UInt8) : Memory × ℕ × ℕ :=
  let (argdata, argno, pos) := state
  let pos := pos - (arg.length + 1)
  let argdata := storeBytes argdata pos (arg ++ [0])
  (store32 argdata (8 + 4 * argno) (processStackBase - size + pos), argno + 1, pos)

/-- The argument data that `syscall_execve` copies to the stack. -/
def packArguments (junk : Memory) (args : List (List UInt8)) : List UInt8 :=
  let size := argdataSize args
  let (argdata, argc, _) := args.foldl (packArgument size) (junk, 0, size)
  let argdata := store32 argdata 0 argc
  let argdata := store32 argdata 4 (processStackBase - size + 8)
  loadBytes argdata 0 size

/-- The part of `syscall_execve` that replaces the text and data segments. -/
def replaceText (m : Machine) (pid : Pid) (contents : List UInt8) : Except Fault Machine := do
  let space := m.spaces pid
  let pages ← onPages (Paging.unmapRange m.pages space.pdir space.textStart space.textEnd)
  let pages ← onPages (Paging.unmapRange pages space.pdir space.dataStart space.dataEnd)
  let pages ← onPages (Paging.loadText pages space.pdir processTextBase contents)
  let m := { m with pages := pages, cr3 := some space.pdir }
  return m.setSpace pid { space with
    textStart := processTextBase
    textEnd := processTextBase + (contents.length + (pageSize - 1)) / pageSize * pageSize
    dataStart := processDataBase
    dataEnd := processDataBase }

/-- `syscall_execve`. -/
def syscallExecve (m : Machine) (pid : Pid) (filename argv : Word) (r : Regs) :
    Except Fault (Machine × Regs × Word) := do
  match ← m.validString pid filename with
  | none => return (m, r, failure efault)
  | some path =>
      match ← m.arguments pid argv with
      | none => return (m, r, failure efault)
      | some args =>
          match m.image.getDirectoryEntry path with
          | none => return (m, r, failure enoent)
          | some entry =>
              if entry.isDir then return (m, r, failure eisdir)
              else
                let size := argdataSize args
                if wordCount ≤ size then .error .overrun
                else
                  let (core, block) ← m.core.kmalloc size
                  let argdata := packArguments (core.junk block) args
                  let m ← (m.setCore core).replaceText pid entry.contents
                  let m ← m.storeUser (processStackBase - size) argdata
                  return (m, initRegs (BitVec.ofNat 32 (processStackBase - size))
                    (BitVec.ofNat 32 (m.spaces pid).textStart), 0)

/-! ## Dispatch -/

/-- The result of a handler that leaves the registers alone. -/
def keepRegs (r : Regs) (outcome : Except Fault (Machine × Word)) :
    Except Fault (Machine × Regs × Word) := do
  let (m, res) ← outcome
  return (m, r, res)

/-- The `switch` of `syscall`. -/
def dispatch (m : Machine) (pid : Pid) (r : Regs) : Except Fault (Machine × Regs × Word) :=
  match Call.ofNumber r.eax.toNat with
  | none => .ok (m, r, failure enosys)
  | some call =>
      match call with
      | .getpid => .ok (m, r, BitVec.ofNat 32 (m.core.processes pid).pid.val)
      | .exit => keepRegs r (m.syscallExit pid (r.args 0))
      | .write => keepRegs r (m.syscallWrite pid (r.args 0) (r.args 1) (r.args 2))
      | .read => keepRegs r (m.syscallRead pid (r.args 0) (r.args 1) (r.args 2))
      | .geterrno => .ok (m, r, BitVec.ofInt 32 (m.core.processes pid).lastErrno)
      | .brk => keepRegs r (m.syscallBrk pid (r.args 0))
      | .send => keepRegs r (m.syscallSend pid (r.args 0) (r.args 1) (r.args 2) (r.args 3))
      | .receive => keepRegs r (m.syscallReceive pid (r.args 0) (r.args 1))
      | .close => keepRegs r do
          let (core, res) ← m.core.syscallClose pid (r.args 0)
          return (m.setCore core, res)
      | .pipe => keepRegs r (m.syscallPipe pid (r.args 0))
      | .dup2 => keepRegs r do
          let (core, res) ← m.core.syscallDup2 pid (r.args 0) (r.args 1)
          return (m.setCore core, res)
      | .fork => keepRegs r (m.syscallFork pid r false)
      | .vfork => keepRegs r (m.syscallFork pid r true)
      | .execve => m.syscallExecve pid (r.args 0) (r.args 1) r
      | .waitpid => keepRegs r (m.syscallWaitpid pid (r.args 0) (r.args 1))
      | .stat => keepRegs r (m.syscallStat pid (r.args 0) (r.args 1))
      | .opn => keepRegs r (m.syscallOpen pid (r.args 0) (r.args 1))
      | .getdent => keepRegs r (m.syscallGetdent pid (r.args 0) (r.args 1))
      | .chdir => keepRegs r (m.syscallChdir pid (r.args 0))
      | .getcwd => keepRegs r (m.syscallGetcwd pid (r.args 0) (r.args 1))
      | .kill => keepRegs r (m.syscallKill pid (r.args 0))
      | .halt => .error .halted

/-- The part of `syscall` that stores the error number. -/
def storeErrno (m : Machine) (callNo : ℕ) (res : Word) : Machine × Word :=
  match m.core.current with
  | none => (m, res)
  | some pid =>
      if callNo = Call.geterrno.number ∨ res = failure esuspend then (m, res)
      else if res.toInt < 0 then
        (m.setCore (m.core.modify pid fun proc => { proc with lastErrno := -res.toInt }), -1)
      else (m.setCore (m.core.modify pid fun proc => { proc with lastErrno := 0 }), res)

/-- `syscall`, with `context_switch` as a parameter. -/
def syscall (contextSwitch : Machine → Regs → Except Fault (Machine × Regs)) (m : Machine)
    (r : Regs) : Except Fault (Machine × Regs) :=
  match m.core.current with
  | none => .error (.assertion .syscall)
  | some pid => do
      let callNo := r.eax.toNat
      let m := m.setCore (m.core.modify pid fun proc => { proc with inSyscall := callNo })
      let (m, r, res) ← m.dispatch pid r
      let (m, res) := m.storeErrno callNo res
      if res = failure esuspend then contextSwitch m r
      else
        let m := m.setCore (m.core.modify pid fun proc => { proc with inSyscall := 0 })
        let r := { r with eax := res }
        if m.core.current ≠ some pid then contextSwitch m r else return (m, r)

/-- The first statements of `context_switch`: save the registers of the current
process. -/
def saveRegs (m : Machine) (r : Regs) : Machine :=
  match m.core.current with
  | some pid => m.setCore (m.core.modify pid fun proc => { proc with savedRegs := r })
  | none => m

/-- `current_process` is set to the chosen process and its page directory goes
into use. -/
def activate (m : Machine) (pid : Pid) : Machine :=
  { m with
    core := { m.core with current := some pid }.record (.selected pid (m.core.isLive pid))
    cr3 := some (m.spaces pid).pdir }

/-- `context_switch`.  The first argument bounds the nesting of `context_switch`
and `syscall`. -/
def contextSwitch : ℕ → Machine → Regs → Except Fault (Machine × Regs)
  | 0, _, _ => .error .outOfFuel
  | depth + 1, m, r =>
      let m := m.saveRegs r
      match m.core.selectNext with
      | some pid =>
          let r := (m.core.processes pid).savedRegs
          let m := m.activate pid
          if (m.core.processes pid).inSyscall ≠ 0 then syscall (contextSwitch depth) m r
          else .ok (m, r)
      | none =>
          .ok (m.setCore { m.core with current := none },
            initRegs m.image.idleStackEnd m.image.idle)

/-! ## Interrupts -/

/-- What can happen to the machine. -/
inductive Event where
  /-- the kernel starts another process from one of its own functions -/
  | startProcess (startAddress : Word)
  /-- the running process stores a byte -/
  | userStore (address : Word) (byte : UInt8)
  /-- the timer interrupts code with the given registers -/
  | timer (r : Regs)
  /-- a key is pressed; `byte` is what `convert` makes of it -/
  | keyboard (byte : UInt8) (r : Regs)
  /-- the running process makes a system call -/
  | trap (r : Regs)
  /-- the processor raises another interrupt, such as an exception -/
  | exception (number : ℕ) (r : Regs)

/-- The part of `keyboard_handler` before the context switch. -/
def keyboardHandler (m : Machine) (byte : UInt8) : Except Fault Machine :=
  match m.core.inputPipe with
  | some b =>
      if byte ≠ 0 then do
        let core ← m.core.writeToPipe b [byte]
        return m.setCore core
      else .ok m
  | none => .ok m

/-- An interrupt that no handler deals with; exceptions halt the system. -/
def unhandled (m : Machine) (number : ℕ) : Except Fault Machine :=
  if number ≤ 31 then .error .halted else .ok m

/-- The handling of an event.  `depth` bounds the nesting of `context_switch` and
`syscall`. -/
def handle (depth : ℕ) (m : Machine) : Event → Except Fault Machine
  | .startProcess startAddress => Prod.fst <$> m.startProcess startAddress
  | .userStore address byte =>
      match m.core.current with
      | some pid => .ok { m with
          pages := Paging.userStore m.pages (m.spaces pid).pdir address.toNat byte }
      | none => .ok m
  | .timer r => Prod.fst <$> contextSwitch depth m r
  | .keyboard byte r => do
      let m ← m.keyboardHandler byte
      Prod.fst <$> contextSwitch depth m r
  | .trap r => Prod.fst <$> syscall (contextSwitch depth) m r
  | .exception number r =>
      match m.core.current with
      | some pid =>
          if number = 14 ∧ (m.core.processes pid).inSyscall = 0 then do
            let m ← m.killProcess pid
            Prod.fst <$> contextSwitch depth m r
          else m.unhandled number
      | none => m.unhandled number

end Machine

/-! ## Boot -/

/-- The kernel's data when `kmain` is entered. -/
def Core.initial (junk : Block → Memory) : Core where
  processes := fun _ => Process.zero
  current := none
  queue := fun _ => ⟨none, none⟩
  handles := fun _ => none
  pipes := fun _ => none
  mailboxes := fun _ => ⟨fun i => Message.ofMemory (junk 0) i, false⟩
  heap := 0
  junk := junk
  inputPipe := none
  history := []

namespace Machine

/-- The machine when `kmain` is entered, with arbitrary contents of memory and of
the kernel heap. -/
def initial (image : Image) (phys : Memory) (junk : Block → Memory) : Machine where
  core := Core.initial junk
  pages := ⟨phys, pageStart, 0, 0, []⟩
  spaces := fun _ => AddressSpace.zero
  cr3 := none
  image := image

/-- The end of `kmain`: the keyboard writes to the standard input of the first
process. -/
def connectKeyboard (m : Machine) (pid : Pid) : Except Fault Machine :=
  match (m.core.processes pid).filedesc 0 with
  | none => .error .dangling
  | some fh => do
      let handle ← m.core.handle fh
      match handle.kind with
      | .pipeReader b => return m.setCore { m.core with inputPipe := some b }
      | _ => .error .dangling

/-- `kmain`. -/
def kmain (image : Image) (phys : Memory) (junk : Block → Memory) : Except Fault Machine := do
  let (m, pid) ← (initial image phys junk).startProcess image.launchShell
  match pid with
  | none => .error .dangling
  | some pid => m.connectKeyboard pid

end Machine

end Rhythmos.Kernel
