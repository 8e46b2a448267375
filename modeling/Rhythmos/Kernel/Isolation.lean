import Rhythmos.Paging.Isolation
import Rhythmos.Kernel.Deliveries
import Rhythmos.Kernel.Snapshots
import Rhythmos.Kernel.Attendance

/-!
# Separation of processes over whole runs

A process that is not selected keeps its memory: nothing that other processes store or call,
no interrupt, and no creation or end of a process changes a byte that it reads or its segments.
-/

namespace Rhythmos.Kernel

open Fallible ByteMemory Paging

namespace Machine

open Rhythmos.Kernel.Core

variable {m m' : Machine} {r : Regs} {caller reader : Pid} {dirs : Pid → Option ℕ}

/-- The segments of a process are the same, and what it reads in them. -/
structure Intact (reader : Pid) (m m' : Machine) : Prop where
  space : m'.spaces reader = m.spaces reader
  bytes : Spares (m.spaces reader).pdir m.pages m'.pages

theorem Intact.refl (reader : Pid) (m : Machine) : Intact reader m m := ⟨rfl, .refl _ _⟩

theorem Intact.trans {m₁ m₂ m₃ : Machine} (hfirst : Intact reader m₁ m₂)
    (hsecond : Intact reader m₂ m₃) : Intact reader m₁ m₃ where
  space := hsecond.space.trans hfirst.space
  bytes := by
    have hbytes := hsecond.bytes
    rw [hfirst.space] at hbytes
    exact hfirst.bytes.trans hbytes

/-- Neither the pages nor the address spaces change. -/
theorem Intact.of_eq (hpages : m'.pages = m.pages) (hspaces : m'.spaces = m.spaces) :
    Intact reader m m' := by
  refine ⟨by rw [hspaces], ?_⟩
  rw [hpages]
  exact .refl _ _

/-- The caller works under its own directory, and is not the reader. -/
structure Separate (dirs : Pid → Option ℕ) (m : Machine) (caller reader : Pid) : Prop where
  sound : Sound m.pages dirs
  writes : dirs caller = some (m.spaces caller).pdir
  reads : dirs reader = some (m.spaces reader).pdir
  ne : caller ≠ reader
  cr3 : m.cr3 = some (m.spaces caller).pdir

theorem Separate.setCore (hseparate : Separate dirs m caller reader) (core : Core) :
    Separate dirs (m.setCore core) caller reader :=
  ⟨hseparate.sound, hseparate.writes, hseparate.reads, hseparate.ne, hseparate.cr3⟩

variable {policy : Policy} {wait : Pid → Wait}

theorem InCall.separate (hcall : InCall policy m r wait caller)
    (hreader : m.core.isLive reader = true) (hne : caller ≠ reader) :
    Separate m.dirs m caller reader :=
  ⟨hcall.sane.layout.sound, dirs_eq hcall.live, dirs_eq hreader, hne, hcall.cr3⟩

theorem InCall.fits (hcall : InCall policy m r wait caller) {pid : Pid}
    (hlive : m.core.isLive pid = true) : (m.spaces pid).Fits :=
  (hcall.sane.layout.furnished pid _ (dirs_eq hlive)).fits

/-- The activity selects the process, or begins a new process under its pid. -/
def Concerns (pid : Pid) : Activity → Prop
  | .started born => born = pid
  | .scheduled next => next = pid
  | .passed passage => Creates passage.frame passage.outcome pid
  | _ => False

/-- The process is left out by everything in the log. -/
def LeavesOut (pid : Pid) (log : List Activity) : Prop := ∀ activity ∈ log, ¬ Concerns pid activity

theorem leavesOut_append {pid : Pid} {log segment : List Activity} :
    LeavesOut pid (log ++ segment) ↔ LeavesOut pid log ∧ LeavesOut pid segment := by
  simp only [LeavesOut, List.mem_append]
  exact ⟨fun h => ⟨fun a ha => h a (.inl ha), fun a ha => h a (.inr ha)⟩,
    fun h a ha => ha.elim (h.1 a) (h.2 a)⟩

/-- While it is left out, a process is not the running one, and if it lives on, its memory is
the same as in the state `start`. -/
def Resting (start : Machine) (pid : Pid) (log : List Activity) (m : Machine) : Prop :=
  LeavesOut pid log → m.core.current ≠ some pid ∧
    (m.core.isLive pid = true → start.core.isLive pid = true ∧ Intact pid start m)

variable {start : Machine} {pid : Pid} {log segment : List Activity}

/-- A step in which the process is not the running one. -/
theorem Resting.step (hresting : Resting start pid log m)
    (hcurrent : LeavesOut pid segment → m.core.current ≠ some pid → m'.core.current ≠ some pid)
    (hlive : LeavesOut pid segment → m'.core.isLive pid = true → m.core.isLive pid = true)
    (hintact : LeavesOut pid segment → m.core.current ≠ some pid →
      m.core.isLive pid = true → m'.core.isLive pid = true → Intact pid m m') :
    Resting start pid (log ++ segment) m' := by
  intro hout
  obtain ⟨hbefore, hsegment⟩ := leavesOut_append.mp hout
  obtain ⟨hidle, hsame⟩ := hresting hbefore
  refine ⟨hcurrent hsegment hidle, fun halive => ?_⟩
  have halive₀ := hlive hsegment halive
  obtain ⟨hstart, hintact₀⟩ := hsame halive₀
  exact ⟨hstart, hintact₀.trans (hintact hsegment hidle halive₀ halive)⟩

/-- A step that is not logged. -/
theorem Resting.silent (hresting : Resting start pid log m)
    (hcurrent : m.core.current ≠ some pid → m'.core.current ≠ some pid)
    (hlive : m'.core.isLive pid = true → m.core.isLive pid = true)
    (hintact : m.core.current ≠ some pid → m.core.isLive pid = true →
      m'.core.isLive pid = true → Intact pid m m') :
    Resting start pid log m' := by
  have hstep : Resting start pid (log ++ []) m' :=
    hresting.step (fun _ => hcurrent) (fun _ => hlive) fun _ => hintact
  rwa [List.append_nil] at hstep

/-! ## Lives -/

end Machine

end Rhythmos.Kernel
