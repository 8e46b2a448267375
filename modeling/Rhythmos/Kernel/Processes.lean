import Rhythmos.Kernel.State

/-!
# Process lists

The list macros of `kernel.h` and the functions of `process.c` that move a
process between the ready and the suspended list.
-/

namespace Rhythmos.Kernel.Core

/-- `list_add`: put a process in front of a list. -/
def listAdd (c : Core) (queue : Queue) (pid : Pid) : Core :=
  match (c.queue queue).first with
  | some first =>
      let c := c.modify pid fun proc => { proc with next := some first }
      let c := c.modify first fun proc => { proc with prev := some pid }
      c.setQueue queue { c.queue queue with first := some pid }
  | none => c.setQueue queue ⟨some pid, some pid⟩

/-- Assign `prev` of a node that may be null. -/
def setPrev (c : Core) (node value : Option Pid) : Core :=
  match node with
  | some pid => c.modify pid fun proc => { proc with prev := value }
  | none => c

/-- Assign `next` of a node that may be null. -/
def setNext (c : Core) (node value : Option Pid) : Core :=
  match node with
  | some pid => c.modify pid fun proc => { proc with next := value }
  | none => c

/-- `list_remove`. -/
def listRemove (c : Core) (queue : Queue) (pid : Pid) : Core :=
  let c :=
    if (c.queue queue).first = some pid then
      c.setQueue queue { c.queue queue with first := (c.processes pid).next }
    else c
  let c :=
    if (c.queue queue).last = some pid then
      c.setQueue queue { c.queue queue with last := (c.processes pid).prev }
    else c
  let c := c.setPrev (c.processes pid).next (c.processes pid).prev
  let c := c.setNext (c.processes pid).prev (c.processes pid).next
  c.modify pid fun proc => { proc with next := none, prev := none }

/-- `suspend_process`. -/
def suspendProcess (c : Core) (pid : Pid) : Except Fault Core := do
  check .suspendProcess ((c.processes pid).existing = true)
  check .suspendProcess ((c.processes pid).ready = true)
  let c := c.modify pid fun proc => { proc with ready := false }
  let c := c.listRemove .ready pid
  return c.listAdd .suspended pid

/-- `resume_process`. -/
def resumeProcess (c : Core) (pid : Pid) : Except Fault Core := do
  check .resumeProcess ((c.processes pid).existing = true)
  check .resumeProcess ((c.processes pid).ready = false)
  let c := c.modify pid fun proc => { proc with ready := true }
  let c := c.listRemove .suspended pid
  return c.listAdd .ready pid

/-- `get_free_pid`: the lowest unused pid above 0. -/
def getFreePid (c : Core) : Option Pid :=
  (List.finRange 32).find? fun pid => 0 < pid.val && !(c.processes pid).existing

/-- The part of `context_switch` that chooses the next process: the successor of
the current process if that is still on the ready list and has one, otherwise
the first process of the ready list.  With no current process the source reads
`ready` through a null pointer; whatever it finds there, the choice is the
same. -/
def selectNext (c : Core) : Option Pid :=
  match c.current with
  | some pid =>
      if (c.processes pid).ready then
        match (c.processes pid).next with
        | some next => some next
        | none => (c.queue .ready).first
      else (c.queue .ready).first
  | none => (c.queue .ready).first

/-- The process table slot after the `memset` in `start_process`, `syscall_fork`
and `syscall_vfork`, with the fields that all of them set. -/
def reset (c : Core) (pid : Pid) : Core :=
  c.modify pid fun _ => { Process.zero with pid := pid, existing := true }

/-- Assign one entry of a descriptor table. -/
def setFiledesc (c : Core) (pid : Pid) (fd : Fd) (handle : Option Block) : Core :=
  c.modify pid fun proc => { proc with filedesc := Function.update proc.filedesc fd handle }

end Rhythmos.Kernel.Core
