import Rhythmos.Kernel.Pipes

/-!
# Messages, creation and death of processes

What `syscall.c`, `unixproc.c` and `process.c` do to the kernel's data when
messages are exchanged and processes are created, awaited and killed.  The
address spaces are dealt with in `Rhythmos.Kernel.Machine`.
-/

namespace Rhythmos.Kernel

open ByteMemory Libc

/-- `sizeof(message)`. -/
def messageSize : ℕ := 12 + maxMessageSize

/-- The message at an address of a memory block. -/
def Message.ofMemory (memory : Memory) (address : ℕ) : Message where
  sender := BitVec.ofNat 32 (load32 memory address)
  tag := BitVec.ofNat 32 (load32 memory (address + 4))
  size := BitVec.ofNat 32 (load32 memory (address + 8))
  data := fun offset => memory (address + 12 + offset)

/-- The bytes of a word in memory. -/
def wordBytes (word : Word) : List UInt8 :=
  [UInt8.ofNat word.toNat, UInt8.ofNat (word.toNat / 256), UInt8.ofNat (word.toNat / 65536),
    UInt8.ofNat (word.toNat / 16777216)]

/-- The bytes of a message in memory. -/
def Message.bytes (message : Message) : List UInt8 :=
  wordBytes message.sender ++ wordBytes message.tag ++ wordBytes message.size ++
    (List.range maxMessageSize).map message.data

namespace Core

/-- The entry of the process table an `int` argument stands for, unless it is out
of range. -/
def pidArgument (word : Word) : Option Pid :=
  if h : word.toNat < 32 then some ⟨word.toNat, h⟩ else none

/-! ## Messages -/

/-- The mailbox of the destination after `syscall_send` made room for a message,
or `none` where it returns `-ENOMEM`. -/
def reserveMessage (c : Core) (dest : Pid) : Except Fault (Option (Core × Block)) :=
  match (c.processes dest).mailbox with
  | none => do
      let (c, mailbox) ← c.kmalloc (8 * messageSize)
      let c := c.setMailbox mailbox
        { messages := fun i => Message.ofMemory (c.junk mailbox) (i * messageSize)
          live := true }
      let c := c.modify dest fun proc =>
        { proc with mailboxAlloc := 8, mailboxSize := 1, mailbox := some mailbox }
      return some (c.record (.mailboxTaken mailbox), mailbox)
  | some mailbox =>
      if (c.processes dest).mailboxSize < (c.processes dest).mailboxAlloc then
        .ok (some (c.modify dest fun proc => { proc with mailboxSize := proc.mailboxSize + 1 },
          mailbox))
      else .ok none

/-- Fill in the last message of a mailbox. -/
def depositMessage (c : Core) (sender dest : Pid) (mailbox : Block) (tag : Word)
    (data : List UInt8) : Core :=
  let last := (c.processes dest).mailboxSize - 1
  let box := c.mailboxes mailbox
  c.setMailbox mailbox { box with
    messages := Function.update box.messages last
      { sender := BitVec.ofNat 32 (c.processes sender).pid.val
        tag := tag
        size := BitVec.ofNat 32 data.length
        data := storeBytes (box.messages last).data 0 data } }

/-- The end of `syscall_send`: wake up a process blocked in `syscall_receive`. -/
def wakeUpReceiver (c : Core) (dest : Pid) : Except Fault Core :=
  if (c.processes dest).receiveBlocked then do
    let c ← c.resumeProcess dest
    return c.modify dest fun proc => { proc with receiveBlocked := false }
  else .ok c

/-- `syscall_send` after the check of its pointer.  `data` reads the `size` bytes
of the message from user memory. -/
def syscallSend (c : Core) (pid : Pid) (target tag : Word) (size : ℕ)
    (data : Except Fault (List UInt8)) : Except Fault (Core × Word) :=
  match pidArgument target with
  | none => .ok (c, failure esrch)
  | some dest =>
      if !(c.processes dest).existing then .ok (c, failure esrch)
      else if maxMessageSize < size then .ok (c, failure einval)
      else do
        match ← c.reserveMessage dest with
        | none => return (c, failure enomem)
        | some (c, mailbox) =>
            let data ← data
            if (c.mailboxes mailbox).live then
              let c := c.depositMessage pid dest mailbox tag data
              let c ← c.wakeUpReceiver dest
              return (c, 0)
            else .error .releasedMailbox

/-- The `memmove` in `syscall_receive` that drops the first message. -/
def dropMessage (box : Mailbox) (size : ℕ) : Mailbox :=
  { box with messages := fun i => if i < size - 1 then box.messages (i + 1) else box.messages i }

/-- `syscall_receive` after the check of its pointer: the new state, the result,
and the message stored in user memory. -/
def syscallReceive (c : Core) (pid : Pid) (block : Word) :
    Except Fault (Core × Word × Option Message) :=
  let proc := c.processes pid
  if 0 < proc.mailboxSize then
    match proc.mailbox with
    | none => .error .dangling
    | some mailbox =>
        let box := c.mailboxes mailbox
        let c := c.setMailbox mailbox (dropMessage box proc.mailboxSize)
        let c := c.modify pid fun proc => { proc with mailboxSize := proc.mailboxSize - 1 }
        .ok (c, 0, some (box.messages 0))
  else if block ≠ 0 then do
    let c := c.modify pid fun proc => { proc with receiveBlocked := true }
    let c ← c.suspendProcess pid
    return (c, failure esuspend, none)
  else .ok (c, failure eagain, none)

/-! ## Waiting for children -/

/-- `syscall_waitpid`: the new state, the result, and the word to be stored
through `status`. -/
def syscallWaitpid (c : Core) (pid : Pid) (child : Word) :
    Except Fault (Core × Word × Option Word) :=
  match pidArgument child with
  | none => .ok (c, failure echild, none)
  | some target => do
      let c := c.modify pid fun proc => { proc with waitingOn := none }
      let proc := c.processes target
      if !proc.existing ∨ proc.parentPid ≠ some (c.processes pid).pid then
        return (c.record (.childless pid target), failure echild, none)
      else if proc.exited then
        let c := c.modify target fun proc => { proc with existing := false }
        return (c.record (.reaped pid target proc.exitStatus), child, some proc.exitStatus)
      else
        let c := c.modify pid fun proc => { proc with waitingOn := some target }
        let c ← c.suspendProcess pid
        return (c, failure esuspend, none)

/-! ## Creation -/

/-- One round of the loop in `syscall_fork` that copies the file handles. -/
def inheritHandle (parent child : Pid) (c : Core) (fd : Fd) : Except Fault Core :=
  match (c.processes parent).filedesc fd with
  | some fh => (c.install child fd fh).retain fh
  | none => .ok c

/-- Put a new process on the ready list. -/
def makeReady (c : Core) (pid : Pid) : Core :=
  (c.modify pid fun proc => { proc with ready := true }).listAdd .ready pid

/-- `syscall_fork` and `syscall_vfork` apart from memory.  The latter does not copy
the working directory. -/
def forkProcess (c : Core) (parent child : Pid) (r : Regs) (vfork : Bool) :
    Except Fault Core := do
  let parentPid := some (c.processes parent).pid
  let c := (c.reset child).modify child fun proc => { proc with parentPid := parentPid }
  let c := c.record (.created parentPid child)
  let c := if vfork then c.modify parent fun proc => { proc with waitingOn := none } else c
  let c ← (List.finRange 16).foldlM (inheritHandle parent child) c
  let c := c.modify child fun proc => { proc with savedRegs := { r with eax := 0 } }
  let c :=
    if vfork then c else c.modify child fun proc => { proc with cwd := (c.processes parent).cwd }
  return c.makeReady child

/-- `start_process` apart from memory. -/
def startProcess (c : Core) (pid : Pid) (stackEnd startAddress : Word) : Except Fault Core := do
  let c := (c.reset pid).modify pid fun proc =>
    { proc with parentPid := none, waitingOn := none, exitStatus := 255 }
  let c := c.record (.created none pid)
  let (c, b) ← c.newPipe
  let (c, stdin) ← c.newPipeReader b
  let c := c.install pid 0 stdin
  let (c, stdout) ← c.newScreenHandle
  let c := c.install pid 1 stdout
  let (c, stderr) ← c.newScreenHandle
  let c := c.install pid 2 stderr
  let c := c.modify pid fun proc =>
    { proc with cwd := [47], savedRegs := initRegs stackEnd startAddress }
  return c.makeReady pid

/-! ## Death -/

/-- The list a process with this `ready` flag is on. -/
def queueOf (proc : Process) : Queue := if proc.ready then .ready else .suspended

/-- The start of `kill_process`: the process stops running and leaves its list. -/
def detach (c : Core) (pid : Pid) : Core :=
  let c := if c.current = some pid then { c with current := none } else c
  c.listRemove (queueOf (c.processes pid)) pid

/-- One round of the loop in `kill_process` that closes the file handles.  The
descriptors keep their pointers. -/
def closeHandleOf (pid : Pid) (c : Core) (fd : Fd) : Except Fault Core :=
  match (c.processes pid).filedesc fd with
  | some fh => c.closeDescriptor pid fd fh
  | none => .ok c

def closeHandles (c : Core) (pid : Pid) : Except Fault Core :=
  (List.finRange 16).foldlM (closeHandleOf pid) c

/-- `kfree(proc->mailbox)` in `kill_process`.  The pointer stays. -/
def freeMailbox (c : Core) (pid : Pid) : Core :=
  match (c.processes pid).mailbox with
  | some mailbox =>
      (c.setMailbox mailbox { c.mailboxes mailbox with live := false }).record
        (.mailboxReturned mailbox)
  | none => c

/-- The children of a process lose their parent. -/
def orphanChildren (c : Core) (pid : Pid) : Core :=
  { c with processes := fun child =>
      if (c.processes child).parentPid = some (c.processes pid).pid then
        { c.processes child with parentPid := none }
      else c.processes child }

/-- The end of `kill_process`: give up the slot, or leave it to the parent. -/
def notifyParent (c : Core) (pid : Pid) : Except Fault Core :=
  match (c.processes pid).parentPid with
  | none => .ok (c.modify pid fun proc => { proc with existing := false })
  | some parent =>
      if (c.processes parent).inSyscall = Call.waitpid.number ∧
          (c.processes parent).waitingOn = some (c.processes pid).pid then
        (c.modify parent fun proc => { proc with waitingOn := none }).resumeProcess parent
      else .ok c

/-- `kill_process` after the address space is gone. -/
def finish (c : Core) (pid : Pid) : Except Fault Core := do
  let c := (c.freeMailbox pid).orphanChildren pid
  let c ← c.notifyParent pid
  let c := c.modify pid fun proc => { proc with exited := true }
  return c.record (.exited (c.processes pid).parentPid pid (c.processes pid).exitStatus)

end Core

end Rhythmos.Kernel
