import Rhythmos.Kernel.Scheduling
import Rhythmos.Library.RefCount

/-!
# The invariant of the kernel's data

A `View` says what the parts of the state mean: which processes are alive, what
each of them waits for, which descriptors hold a reference, and with which
registers each process entered the kernel.  `Inv v c` says that the state `c` has
this meaning.  Between two interrupts the view is determined by the state; while
`kill_process` takes a process apart, its descriptors and its place in the table
leave the view one by one.
-/

namespace Rhythmos.Kernel

open Fallible RefCount Ledger

/-- What a process waits for. -/
inductive Wait where
  | awake
  /-- data in a pipe -/
  | reading (b : Block)
  /-- a message -/
  | receiving
  /-- the death of a child -/
  | awaiting (child : Pid)
  deriving DecidableEq

structure View where
  alive : Pid → Bool
  /-- the process `kill_process` is working on -/
  dying : Option Pid
  /-- the references held by descriptors -/
  table : Slot → Option Block
  /-- the registers with which a process entered the kernel -/
  frame : Pid → Regs
  wait : Pid → Wait

/-- The list a process is on. -/
def View.place (v : View) (pid : Pid) : Option Queue :=
  if v.alive pid then some (if v.wait pid = .awake then .ready else .suspended) else none

/-- The process is alive, or in the middle of `kill_process`. -/
def View.present (v : View) (pid : Pid) : Prop := v.alive pid = true ∨ v.dying = some pid

/-! ## Histories -/

def Happening.onSlot : Happening → Option (Entry Slot)
  | .referenced slot => some (.taken slot)
  | .closed slot => some (.returned slot)
  | _ => none

def Happening.onMailbox : Happening → Option (Entry Block)
  | .mailboxTaken mailbox => some (.taken mailbox)
  | .mailboxReturned mailbox => some (.returned mailbox)
  | _ => none

def Happening.freed : Happening → Option Block
  | .pipeFreed b => some b
  | _ => none

/-- The events that are not about descriptors, pipes or user memory. -/
def Happening.isLoud : Happening → Bool
  | .selected _ _ | .mailboxTaken _ | .mailboxReturned _ => true
  | .created _ _ | .exited _ _ _ | .reaped _ _ _ | .childless _ _ => true
  | _ => false

/-! ## The life of a process

What the history says about the slots of the process table. -/

inductive Stage where
  | vacant
  | running (parent : Option Pid)
  /-- exited, and not yet awaited -/
  | zombie (parent : Option Pid) (status : Word)
  deriving DecidableEq

/-- The process that may wait for the process in a slot. -/
def Stage.parent : Stage → Option Pid
  | .vacant => none
  | .running parent => parent
  | .zombie parent _ => parent

/-- The process `dead` is no longer a parent. -/
def Stage.orphan (dead : Pid) : Stage → Stage
  | .vacant => .vacant
  | .running parent => .running (if parent = some dead then none else parent)
  | .zombie parent status => .zombie (if parent = some dead then none else parent) status

/-- The stage of a process that exited: a process without a parent leaves its slot
at once. -/
def Stage.exit (parent : Option Pid) (status : Word) : Stage :=
  if parent = none then .vacant else .zombie parent status

/-- The stage of a slot after a history. -/
def stage : List Happening → Pid → Stage
  | [], _ => .vacant
  | .created parent other :: history, pid =>
      if pid = other then .running parent else stage history pid
  | .exited parent other status :: history, pid =>
      if pid = other then Stage.exit parent status else (stage history pid).orphan other
  | .reaped _ child _ :: history, pid => if pid = child then .vacant else stage history pid
  | _ :: history, pid => stage history pid

/-- Slots are only given away when they are vacant, only running processes exit,
and `waitpid` returns what the stage of the child says. -/
def Lawful : List Happening → Prop
  | [] => True
  | .created _ pid :: history => stage history pid = .vacant ∧ Lawful history
  | .exited parent pid _ :: history => stage history pid = .running parent ∧ Lawful history
  | .reaped parent child status :: history =>
      stage history child = .zombie (some parent) status ∧ Lawful history
  | .childless parent child :: history =>
      (stage history child).parent ≠ some parent ∧ Lawful history
  | _ :: history => Lawful history

theorem stage_filter_loud (history : List Happening) (pid : Pid) :
    stage (history.filter Happening.isLoud) pid = stage history pid := by
  induction history with
  | nil => rfl
  | cons happening history ih =>
      cases happening <;> simp [List.filter_cons, Happening.isLoud, stage, ih]

theorem lawful_filter_loud (history : List Happening) :
    Lawful (history.filter Happening.isLoud) ↔ Lawful history := by
  induction history with
  | nil => rfl
  | cons happening history ih =>
      cases happening <;>
        simp [List.filter_cons, Happening.isLoud, Lawful, stage_filter_loud, ih]

/-- The stage of a slot of the process table. -/
def Process.stage (proc : Process) : Stage :=
  if proc.existing then
    if proc.exited then .zombie proc.parentPid proc.exitStatus else .running proc.parentPid
  else .vacant

namespace Core

/-- The references taken and given up by descriptors. -/
def slotLedger (c : Core) : List (Entry Slot) := c.history.filterMap Happening.onSlot

/-- The mailboxes allocated and released. -/
def mailLedger (c : Core) : List (Entry Block) := c.history.filterMap Happening.onMailbox

/-- The pipes released. -/
def freedPipes (c : Core) : List Block := c.history.filterMap Happening.freed

/-- The events that are not about descriptors, pipes or user memory. -/
def loud (c : Core) : List Happening := c.history.filter Happening.isLoud

theorem mailLedger_eq (c : Core) : c.mailLedger = c.loud.filterMap Happening.onMailbox := by
  rw [mailLedger, loud, List.filterMap_filter]
  congr 1
  funext happening
  cases happening <;> rfl

/-! ## Parts of the invariant -/

/-- The process table. -/
structure Slots (v : View) (c : Core) : Prop where
  existing : ∀ pid, v.present pid → (c.processes pid).existing = true
  dying : ∀ pid, v.dying = some pid → v.alive pid = false
  identity : ∀ pid, (c.processes pid).existing = true → (c.processes pid).pid = pid
  zero : (c.processes 0).existing = false
  parent : ∀ pid parent, (c.processes pid).existing = true →
    (c.processes pid).parentPid = some parent → v.present parent ∧ parent ≠ pid

/-- A process is inside a read call on a descriptor of the pipe `b`. -/
def ReadsFrom (v : View) (c : Core) (pid : Pid) (b : Block) : Prop :=
  (c.processes pid).inSyscall = Call.read.number ∧
    ∃ fd fh handle, descriptor ((v.frame pid).args 0) = some fd ∧ v.table (pid, fd) = some fh ∧
      c.handles fh = some handle ∧ handle.kind = .pipeReader b

/-- Every process that waits is registered for the event it waits for, which has
not happened, and nothing else is registered. -/
structure Waits (v : View) (c : Core) : Prop where
  awake : ∀ pid, v.alive pid = false → v.wait pid = .awake
  ready : ∀ pid, v.alive pid = true → ((c.processes pid).ready = true ↔ v.wait pid = .awake)
  registered : ∀ b pipe pid, c.pipes b = some pipe →
    (pipe.readpid = some pid ↔ v.wait pid = .reading b)
  blocked : ∀ pid, (c.processes pid).existing = true →
    ((c.processes pid).receiveBlocked = true ↔ v.wait pid = .receiving)
  awaited : ∀ pid child, v.alive pid = true → child ≠ 0 →
    ((c.processes pid).waitingOn = some child ↔ v.wait pid = .awaiting child)
  reading : ∀ pid b, v.wait pid = .reading b →
    ReadsFrom v c pid b ∧ ∃ pipe, c.pipes b = some pipe ∧ pipe.len = 0 ∧ pipe.writing = true
  receiving : ∀ pid, v.wait pid = .receiving →
    (c.processes pid).inSyscall = Call.receive.number ∧ (c.processes pid).mailboxSize = 0
  awaiting : ∀ pid child, v.wait pid = .awaiting child →
    (c.processes pid).inSyscall = Call.waitpid.number ∧
      pidArgument ((v.frame pid).args 0) = some child ∧ child ≠ 0 ∧ v.present child ∧
      (c.processes child).parentPid = some pid

/-- Handles are counted, and the pipes behind them are open. -/
structure Handles (v : View) (c : Core) : Prop where
  fresh : ∀ fh, c.heap ≤ fh → c.handles fh = none
  resolved : ∀ slot fh, v.table slot = some fh → ∃ handle, c.handles fh = some handle
  counted : ∀ fh handle, c.handles fh = some handle →
    handle.refcount = references v.table fh ∧ 1 ≤ handle.refcount
  reader : ∀ fh handle b, c.handles fh = some handle → handle.kind = .pipeReader b →
    ∃ pipe, c.pipes b = some pipe ∧ pipe.reading = true
  writer : ∀ fh handle b, c.handles fh = some handle → handle.kind = .pipeWriter b →
    ∃ pipe, c.pipes b = some pipe ∧ pipe.writing = true
  readerUnique : ∀ fh handle fh' handle' b, c.handles fh = some handle →
    handle.kind = .pipeReader b → c.handles fh' = some handle' → handle'.kind = .pipeReader b →
    fh = fh'
  writerUnique : ∀ fh handle fh' handle' b, c.handles fh = some handle →
    handle.kind = .pipeWriter b → c.handles fh' = some handle' → handle'.kind = .pipeWriter b →
    fh = fh'

/-- Pipes are released once, when both ends are closed. -/
structure Pipes (c : Core) : Prop where
  fresh : ∀ b, c.heap ≤ b → c.pipes b = none
  opened : ∀ b pipe, c.pipes b = some pipe → pipe.reading = true ∨ pipe.writing = true
  input : ∀ b, c.inputPipe = some b → (∃ pipe, c.pipes b = some pipe ∧ pipe.writing = true) ∧
    ∀ fh handle, c.handles fh = some handle → handle.kind ≠ .pipeWriter b
  madeReader : ∀ b pipe, .pipeMade b ∈ c.history → c.pipes b = some pipe → pipe.reading = true →
    ∃ fh handle, c.handles fh = some handle ∧ handle.kind = .pipeReader b
  madeWriter : ∀ b pipe, .pipeMade b ∈ c.history → c.pipes b = some pipe → pipe.writing = true →
    ∃ fh handle, c.handles fh = some handle ∧ handle.kind = .pipeWriter b
  madeFresh : ∀ b, .pipeMade b ∈ c.history → b < c.heap
  madeFreed : ∀ b, .pipeMade b ∈ c.history → c.pipes b = none → b ∈ c.freedPipes
  freedOnce : c.freedPipes.Nodup
  freedGone : ∀ b, b ∈ c.freedPipes → c.pipes b = none ∧ b < c.heap

/-- Every reference of a descriptor is given up once. -/
structure References (v : View) (c : Core) : Prop where
  linear : Linear c.slotLedger
  outstanding : ∀ slot, Outstanding c.slotLedger slot ↔ ∃ fh, v.table slot = some fh

/-- Every mailbox is released once. -/
structure Mail (v : View) (c : Core) : Prop where
  linear : Linear c.mailLedger
  fresh : ∀ mailbox, Outstanding c.mailLedger mailbox → mailbox < c.heap
  unreleased : ∀ mailbox, Outstanding c.mailLedger mailbox → (c.mailboxes mailbox).live = true
  owned : ∀ pid mailbox, v.present pid → (c.processes pid).mailbox = some mailbox →
    Outstanding c.mailLedger mailbox
  used : ∀ pid mailbox, (c.processes pid).existing = true →
    (c.processes pid).mailbox = some mailbox → mailbox < c.heap
  unique : ∀ pid other mailbox, (c.processes pid).existing = true →
    (c.processes other).existing = true → (c.processes pid).mailbox = some mailbox →
    (c.processes other).mailbox = some mailbox → pid = other
  empty : ∀ pid, (c.processes pid).existing = true → (c.processes pid).mailbox = none →
    (c.processes pid).mailboxSize = 0

/-- The calls that may be repeated.  Apart from the calls that suspend a process
these are calls whose result may look like `-ESUSPEND`. -/
def Repeatable (number : ℕ) : Prop :=
  number ∈ [Call.read.number, Call.write.number, Call.geterrno.number, Call.receive.number,
    Call.waitpid.number, Call.getcwd.number]

/-- A process that left the processor inside a system call will repeat that call. -/
def Pending (v : View) (c : Core) : Prop :=
  ∀ pid, v.alive pid = true → c.current ≠ some pid → (c.processes pid).inSyscall ≠ 0 →
    (v.frame pid).eax.toNat = (c.processes pid).inSyscall ∧
      Repeatable (c.processes pid).inSyscall

/-- Only live processes were ever selected. -/
def Chosen (c : Core) : Prop := ∀ pid alive, .selected pid alive ∈ c.history → alive = true

/-- The process table agrees with the history. -/
structure Lifecycle (c : Core) : Prop where
  lawful : Lawful c.history
  stages : ∀ pid, stage c.history pid = (c.processes pid).stage

structure Inv (v : View) (c : Core) : Prop where
  linked : Linked v.place c
  slots : Slots v c
  waits : Waits v c
  handles : Handles v c
  pipes : Pipes c
  references : References v c
  mail : Mail v c
  pending : Pending v c
  chosen : Chosen c
  lifecycle : Lifecycle c

/-! ## Only the lists depend on list pointers -/

theorem slots_unlinked {v : View} {c : Core} : Slots v c.unlinked ↔ Slots v c :=
  ⟨fun h => ⟨h.existing, h.dying, h.identity, h.zero, h.parent⟩,
    fun h => ⟨h.existing, h.dying, h.identity, h.zero, h.parent⟩⟩

theorem waits_unlinked {v : View} {c : Core} : Waits v c.unlinked ↔ Waits v c :=
  ⟨fun h => ⟨h.awake, h.ready, h.registered, h.blocked, h.awaited, h.reading, h.receiving,
      h.awaiting⟩,
    fun h => ⟨h.awake, h.ready, h.registered, h.blocked, h.awaited, h.reading, h.receiving,
      h.awaiting⟩⟩

theorem handles_unlinked {v : View} {c : Core} : Handles v c.unlinked ↔ Handles v c :=
  ⟨fun h => ⟨h.fresh, h.resolved, h.counted, h.reader, h.writer, h.readerUnique, h.writerUnique⟩,
    fun h => ⟨h.fresh, h.resolved, h.counted, h.reader, h.writer, h.readerUnique, h.writerUnique⟩⟩

theorem pipes_unlinked {c : Core} : Pipes c.unlinked ↔ Pipes c :=
  ⟨fun h => ⟨h.fresh, h.opened, h.input, h.madeReader, h.madeWriter, h.madeFresh, h.madeFreed,
      h.freedOnce, h.freedGone⟩,
    fun h => ⟨h.fresh, h.opened, h.input, h.madeReader, h.madeWriter, h.madeFresh, h.madeFreed,
      h.freedOnce, h.freedGone⟩⟩

theorem references_unlinked {v : View} {c : Core} : References v c.unlinked ↔ References v c :=
  ⟨fun h => ⟨h.linear, h.outstanding⟩, fun h => ⟨h.linear, h.outstanding⟩⟩

theorem mail_unlinked {v : View} {c : Core} : Mail v c.unlinked ↔ Mail v c :=
  ⟨fun h => ⟨h.linear, h.fresh, h.unreleased, h.owned, h.used, h.unique, h.empty⟩,
    fun h => ⟨h.linear, h.fresh, h.unreleased, h.owned, h.used, h.unique, h.empty⟩⟩

theorem pending_unlinked {v : View} {c : Core} : Pending v c.unlinked ↔ Pending v c := Iff.rfl

theorem chosen_unlinked {c : Core} : Chosen c.unlinked ↔ Chosen c := Iff.rfl

theorem lifecycle_unlinked {c : Core} : Lifecycle c.unlinked ↔ Lifecycle c :=
  ⟨fun h => ⟨h.lawful, h.stages⟩, fun h => ⟨h.lawful, h.stages⟩⟩

/-- The invariant for a state known up to its list pointers. -/
theorem Inv.of_unlinked {v : View} {c c' : Core} (hlinked : Linked v.place c')
    (hsame : c'.unlinked = c.unlinked) (hslots : Slots v c) (hwaits : Waits v c)
    (hhandles : Handles v c) (hpipes : Pipes c) (hreferences : References v c) (hmail : Mail v c)
    (hpending : Pending v c) (hchosen : Chosen c) (hlifecycle : Lifecycle c) : Inv v c' where
  linked := hlinked
  slots := slots_unlinked.mp (hsame ▸ slots_unlinked.mpr hslots)
  waits := waits_unlinked.mp (hsame ▸ waits_unlinked.mpr hwaits)
  handles := handles_unlinked.mp (hsame ▸ handles_unlinked.mpr hhandles)
  pipes := pipes_unlinked.mp (hsame ▸ pipes_unlinked.mpr hpipes)
  references := references_unlinked.mp (hsame ▸ references_unlinked.mpr hreferences)
  mail := mail_unlinked.mp (hsame ▸ mail_unlinked.mpr hmail)
  pending := pending_unlinked.mp (hsame ▸ pending_unlinked.mpr hpending)
  chosen := chosen_unlinked.mp (hsame ▸ chosen_unlinked.mpr hchosen)
  lifecycle := lifecycle_unlinked.mp (hsame ▸ lifecycle_unlinked.mpr hlifecycle)

end Core

end Rhythmos.Kernel
