import Rhythmos.Kernel.Traps

/-!
# Work behind the scenes

The functions on lists, pipes, handles and descriptors change the list pointers of processes,
their flags, what they wait for and their descriptors, and no other part of the process table
and no mailbox.  `Backstage` relates the kernel's data before and after such a function.
-/

namespace Rhythmos.Kernel

open Fallible ByteMemory Libc

/-- The process without its place in the lists, what it waits for and its descriptors. -/
def Process.bare (proc : Process) : Process := { proc.still with filedesc := fun _ => none }

namespace Core

variable {c c' : Core} {pid : Pid}

/-- Nothing changes in the process table but lists, flags and descriptors. -/
structure Backstage (c c' : Core) : Prop where
  processes : ∀ pid, (c'.processes pid).bare = (c.processes pid).bare
  mailboxes : c'.mailboxes = c.mailboxes

theorem Backstage.refl (c : Core) : Backstage c c := ⟨fun _ => rfl, rfl⟩

theorem Backstage.trans {c₁ c₂ c₃ : Core} (hfirst : Backstage c₁ c₂)
    (hsecond : Backstage c₂ c₃) : Backstage c₁ c₃ where
  processes pid := (hsecond.processes pid).trans (hfirst.processes pid)
  mailboxes := hsecond.mailboxes.trans hfirst.mailboxes

instance : IsPreorder Core Backstage where
  refl := .refl
  trans _ _ _ := .trans

/-- Every other field can be read off. -/
theorem Backstage.field {A : Type*} (hbackstage : Backstage c c') (field : Process → A)
    (hfield : ∀ proc, field proc.bare = field proc) (pid : Pid) :
    field (c'.processes pid) = field (c.processes pid) := by
  rw [← hfield, hbackstage.processes, hfield]

/-- A change of neither processes nor mailboxes. -/
theorem Backstage.of_eq (hprocesses : c'.processes = c.processes)
    (hmailboxes : c'.mailboxes = c.mailboxes) : Backstage c c' := by
  refine ⟨fun pid => ?_, hmailboxes⟩
  rw [hprocesses]

theorem Backstage.of_unlinked (hsame : c'.unlinked = c.unlinked) : Backstage c c' where
  processes pid := by
    have hprocess : (c'.processes pid).unlinked = (c.processes pid).unlinked :=
      congrFun (congrArg Core.processes hsame) pid
    have hbare := congrArg Process.bare hprocess
    exact hbare
  mailboxes := by
    have hmailboxes := congrArg Core.mailboxes hsame
    exact hmailboxes

/-! ## Lists and pipes -/

end Core

namespace Machine

open Rhythmos.Kernel.Core

variable {m : Machine} {pid : Pid} {r : Regs}

/-! ## System calls -/

end Machine

end Rhythmos.Kernel
