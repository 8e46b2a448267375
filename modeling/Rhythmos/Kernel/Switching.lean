import Rhythmos.Kernel.Traps

/-!
# Nested switches

`context_switch` repeats the pending system call of the process it selects, and `syscall`
calls `context_switch` when a call is suspended.  A `Passage` is one execution of
`syscall` up to the point where it returns or calls `context_switch`; `syscall` and the
handling of an event are cut there.  The log of an event lists what its handling does: the
activations of `context_switch` with the process pointer they read through, the processes
they select, and the passages through `syscall`.
-/

namespace Rhythmos.Kernel

open Fallible ByteMemory Libc

namespace Core

/-- The choice of the next process as `context_switch` makes it.  With no current process
it reads `ready` through a null pointer, and `nullReady` is what it finds there. -/
def selectNextReading (c : Core) (nullReady : Bool) : Option Pid :=
  let ready :=
    match c.current with
    | some pid => (c.processes pid).ready
    | none => nullReady
  let current := if !ready then none else c.current
  match current with
  | some pid =>
      match (c.processes pid).next with
      | some next => some next
      | none => (c.queue .ready).first
  | none => (c.queue .ready).first

/-- What is read through the null pointer does not matter. -/
theorem selectNextReading_eq (c : Core) (nullReady : Bool) :
    c.selectNextReading nullReady = c.selectNext := by
  cases hcurrent : c.current with
  | none => cases nullReady <;> simp [selectNextReading, selectNext, hcurrent]
  | some pid =>
      cases hready : (c.processes pid).ready with
      | false => simp [selectNextReading, selectNext, hcurrent, hready]
      | true =>
          simp only [selectNextReading, selectNext, hcurrent, hready]
          rfl

end Core

/-- An execution of `syscall`, up to the point where it returns or calls
`context_switch`. -/
structure Passage where
  pid : Pid
  before : Machine
  /-- the registers with which `syscall` was entered -/
  frame : Regs
  /-- the result of the handler -/
  outcome : Word
  after : Machine
  result : Regs
  /-- `context_switch` is called next -/
  switches : Bool

namespace Machine

open Rhythmos.Kernel.Core

variable {policy : Policy} {m : Machine} {r : Regs} {wait : Pid → Wait} {pid : Pid}

/-- What `syscall` does with the result of a handler. -/
def conclude (m : Machine) (pid : Pid) (r : Regs) (value : Machine × Regs × Word) : Passage :=
  let (m₁, r₁, outcome) := value
  let (m₂, res) := m₁.storeErrno r.eax.toNat outcome
  if res = failure esuspend then ⟨pid, m, r, outcome, m₂, r₁, true⟩
  else
    let m₃ := m₂.setCore (m₂.core.modify pid fun proc => { proc with inSyscall := 0 })
    ⟨pid, m, r, outcome, m₃, { r₁ with eax := res }, m₃.core.current ≠ some pid⟩

/-- `syscall` up to the point where it returns or calls `context_switch`. -/
def pass (m : Machine) (r : Regs) : Except Fault Passage :=
  match m.core.current with
  | none => .error (.assertion .syscall)
  | some pid => do
      let value ← (m.entered pid r).dispatch pid r
      return m.conclude pid r value

theorem syscall_eq_pass (switch : Machine → Regs → Except Fault (Machine × Regs)) (m : Machine)
    (r : Regs) :
    syscall switch m r = (do
      let passage ← m.pass r
      if passage.switches then switch passage.after passage.result
      else return (passage.after, passage.result)) := by
  cases hcurrent : m.core.current with
  | none => simp only [syscall, pass, hcurrent, error_bind]
  | some pid =>
      simp only [syscall, pass, hcurrent, entered]
      cases dispatch (m.setCore (m.core.modify pid fun proc =>
          { proc with inSyscall := r.eax.toNat })) pid r with
      | error fault => rfl
      | ok value =>
          obtain ⟨m₁, r₁, outcome⟩ := value
          simp only [ok_bind, pure_eq_ok, conclude]
          split
          · rfl
          · simp only [decide_eq_true_eq]

/-! ## Logs -/

/-- What the handling of an event does. -/
inductive Activity where
  /-- `start_process` made a process -/
  | started (pid : Pid)
  /-- the running process made a system call -/
  | trapped (pid : Pid) (r : Regs)
  /-- `context_switch` was entered and reads through this process pointer -/
  | switching (current : Option Pid)
  /-- `context_switch` selected the process -/
  | scheduled (pid : Pid)
  | passed (passage : Passage)

def callLog (switch : Machine → Regs → List Activity) (m : Machine) (r : Regs) : List Activity :=
  match m.pass r with
  | .error _ => []
  | .ok passage =>
      .passed passage :: if passage.switches then switch passage.after passage.result else []

/-- What `contextSwitch` does. -/
def switchLog : ℕ → Machine → Regs → List Activity
  | 0, _, _ => []
  | depth + 1, m, r =>
      .switching m.core.current ::
        match (m.saveRegs r).core.selectNext with
        | some pid =>
            .scheduled pid ::
              if (((m.saveRegs r).activate pid).core.processes pid).inSyscall ≠ 0 then
                callLog (switchLog depth) ((m.saveRegs r).activate pid)
                  ((m.saveRegs r).core.processes pid).savedRegs
              else []
        | none => []

/-! ## The outermost switch -/

/-- Where the handling of an event gets before it calls `context_switch`. -/
inductive Stop where
  /-- to its end -/
  | finished (m : Machine)
  /-- to a call of `context_switch` -/
  | switching (m : Machine) (r : Regs)

def Passage.stop (passage : Passage) : Stop :=
  if passage.switches then .switching passage.after passage.result
  else .finished passage.after

/-- The handling of an event up to the outermost `context_switch`. -/
def upToSwitch (m : Machine) : Event → Except Fault Stop
  | .startProcess startAddress => do
      let (m, _) ← m.startProcess startAddress
      return .finished m
  | .userStore address byte => do
      let m ← handle 0 m (.userStore address byte)
      return .finished m
  | .timer r => .ok (.switching m r)
  | .keyboard byte r => do
      let m ← m.keyboardHandler byte
      return .switching m r
  | .trap r => do
      let passage ← m.pass r
      return Passage.stop passage
  | .exception number r =>
      match m.core.current with
      | some pid =>
          if number = 14 ∧ (m.core.processes pid).inSyscall = 0 then do
            let m ← m.killProcess pid
            return .switching m r
          else do
            let m ← m.unhandled number
            return .finished m
      | none => do
          let m ← m.unhandled number
          return .finished m

/-- The rest of the handling of an event. -/
def proceed (depth : ℕ) : Stop → Except Fault Machine
  | .finished m => .ok m
  | .switching m r => Prod.fst <$> contextSwitch depth m r

theorem proceed_stop (depth : ℕ) (passage : Passage) :
    proceed depth (Passage.stop passage) = Prod.fst <$>
      (if passage.switches then contextSwitch depth passage.after passage.result
      else .ok (passage.after, passage.result)) := by
  rw [Passage.stop]
  split <;> rfl

theorem handle_eq_proceed (depth : ℕ) (m : Machine) (event : Event) :
    handle depth m event = (do
      let stop ← m.upToSwitch event
      proceed depth stop) := by
  cases event with
  | startProcess startAddress =>
      rw [handle, upToSwitch]
      cases m.startProcess startAddress <;> rfl
  | userStore address byte =>
      rw [handle, upToSwitch, handle]
      split <;> rfl
  | timer r => rfl
  | keyboard byte r =>
      rw [handle, upToSwitch]
      cases m.keyboardHandler byte <;> rfl
  | trap r =>
      rw [handle, upToSwitch, syscall_eq_pass]
      cases m.pass r with
      | error fault => rfl
      | ok passage => exact (proceed_stop depth passage).symm
  | exception number r =>
      cases hcurrent : m.core.current with
      | none =>
          simp only [handle, upToSwitch, hcurrent]
          cases m.unhandled number <;> rfl
      | some pid =>
          simp only [handle, upToSwitch, hcurrent]
          split
          · cases m.killProcess pid <;> rfl
          · cases m.unhandled number <;> rfl

/-- What the rest of the handling of an event does. -/
def Stop.log (depth : ℕ) : Stop → List Activity
  | .finished _ => []
  | .switching m r => switchLog depth m r

/-- What an event does before its outermost `context_switch`. -/
def startLog (m : Machine) : Event → List Activity
  | .startProcess _ =>
      match m.core.getFreePid with
      | some pid => [.started pid]
      | none => []
  | .trap r =>
      match m.core.current, m.pass r with
      | some pid, .ok passage => [.trapped pid r, .passed passage]
      | _, _ => []
  | _ => []

/-- What the handling of an event does. -/
def eventLog (depth : ℕ) (m : Machine) (event : Event) : List Activity :=
  match m.upToSwitch event with
  | .error _ => []
  | .ok stop => m.startLog event ++ Stop.log depth stop

/-- The runs from `kmain` in which every event meets a condition, with their events and
what the handling of all of them did. -/
inductive Logged (permits : Machine → Event → Prop) (image : Image) (phys : Memory)
    (junk : Block → Memory) : List Event → List Activity → Machine → Prop
  | boot {m : Machine} : kmain image phys junk = .ok m → Logged permits image phys junk []
      ((initial image phys junk).startLog (.startProcess image.launchShell)) m
  | step {events : List Event} {log : List Activity} {m m' : Machine} {event : Event} (depth : ℕ) :
      Logged permits image phys junk events log m → permits m event →
      handle depth m event = .ok m' →
      Logged permits image phys junk (events ++ [event]) (log ++ eventLog depth m event) m'

/-- The runs that go on when the kernel overwrites data of its own.  What the handling of that
event did, up to then and afterwards, and the state it led to may be anything. -/
inductive MayLog (permits : Machine → Event → Prop) (image : Image) (phys : Memory)
    (junk : Block → Memory) : List Event → List Activity → Machine → Prop
  | boot {m : Machine} : kmain image phys junk = .ok m → MayLog permits image phys junk []
      ((initial image phys junk).startLog (.startProcess image.launchShell)) m
  | step {events : List Event} {log : List Activity} {m m' : Machine} {event : Event} (depth : ℕ) :
      MayLog permits image phys junk events log m → permits m event →
      handle depth m event = .ok m' →
      MayLog permits image phys junk (events ++ [event]) (log ++ eventLog depth m event) m'
  | overwritten {events : List Event} {log : List Activity} {m : Machine} {event : Event}
      {fault : Fault} (depth : ℕ) (segment : List Activity) (m' : Machine) :
      MayLog permits image phys junk events log m → permits m event →
      handle depth m event = .error fault → fault.Overwrites →
      MayLog permits image phys junk (events ++ [event]) (log ++ segment) m'

section MayLog

variable {permits : Machine → Event → Prop} {image : Image} {phys : Memory}
variable {junk : Block → Memory} {events : List Event} {log : List Activity}

theorem Logged.reachable (hlogged : Logged permits image phys junk events log m) :
    Reachable permits image phys junk m := by
  induction hlogged with
  | boot hboot => exact .boot hboot
  | step depth _ hpermits hhandle ih => exact .step depth ih hpermits hhandle

/-- More events give more runs. -/
theorem Logged.mono {permits' : Machine → Event → Prop}
    (hmono : ∀ m event, permits m event → permits' m event)
    (hlogged : Logged permits image phys junk events log m) :
    Logged permits' image phys junk events log m := by
  induction hlogged with
  | boot hboot => exact .boot hboot
  | step depth _ hpermits hhandle ih => exact .step depth ih (hmono _ _ hpermits) hhandle

/-- Runs with safe kills that are careful overwrite nothing. -/
theorem MayLog.careful (hsafely : ∀ m event, permits m event → KillingSafely m event)
    (hlog : MayLog (Carefully permits) image phys junk events log m) :
    Logged (Carefully permits) image phys junk events log m := by
  induction hlog with
  | boot hboot => exact .boot hboot
  | step depth _ hpermits hhandle ih => exact .step depth ih hpermits hhandle
  | overwritten depth segment m' _ hpermits hfault hoverwrites ih =>
      have htolerable := ih.reachable.mayReach.tolerable hsafely hpermits hfault
      exact absurd hoverwrites (not_overwrites_of_tolerable htolerable)

end MayLog

/-- What a passage does to the machine. -/
structure Passed (policy : Policy) (m : Machine) (r : Regs) (pid : Pid) (passage : Passage) :
    Prop where
  caller : passage.pid = pid
  before : passage.before = m
  frame : passage.frame = r
  suspended : passage.switches = true ↔ passage.outcome = failure esuspend
  switching : passage.switches = true →
    ∃ wait, Leaving policy passage.after passage.result wait
  returning : passage.switches = false → passage.after.core.current = some pid ∧
    ∃ wait, Settled policy passage.after wait

theorem storeErrno_esuspend (m : Machine) (callNo : ℕ) (res : Word) :
    (m.storeErrno callNo res).2 = failure esuspend ↔ res = failure esuspend := by
  rw [storeErrno]
  split
  · rfl
  · split
    · rfl
    next hkept =>
      have hres : res ≠ failure esuspend := fun h => hkept (.inr h)
      split
      · exact iff_of_false minus_one_ne hres
      · rfl

theorem conclude_spec {value : Machine × Regs × Word}
    (hreturns : Returns policy value.1 value.2.1 pid value.2.2) :
    Passed policy m r pid (m.conclude pid r value) := by
  obtain ⟨m₁, r₁, outcome⟩ := value
  have hstored := storeErrno_spec hreturns r.eax.toNat
  have hsuspend := storeErrno_esuspend m₁ r.eax.toNat outcome
  simp only [conclude]
  generalize m₁.storeErrno r.eax.toNat outcome = stored at hstored hsuspend ⊢
  obtain ⟨m₂, res⟩ := stored
  simp only at hstored hsuspend ⊢
  split
  next hres =>
    refine ⟨rfl, rfl, rfl, by simpa using hsuspend.mp hres, fun _ => hstored.leaving hres, ?_⟩
    simp
  next hres =>
    obtain ⟨hstill, hsettled⟩ := hstored.settled hres
    have hstays : (m₂.setCore (m₂.core.modify pid fun proc =>
        { proc with inSyscall := 0 })).core.current = some pid := hstill
    have hreturns' : decide ((m₂.setCore (m₂.core.modify pid fun proc =>
        { proc with inSyscall := 0 })).core.current ≠ some pid) = false := by
      simpa using hstays
    refine ⟨rfl, rfl, rfl, ?_, ?_, fun _ => ⟨hstays, hsettled⟩⟩
    · rw [hreturns']
      exact iff_of_false Bool.false_ne_true fun h => hres (hsuspend.mpr h)
    · intro hswitches
      cases hreturns'.symm.trans hswitches

theorem pass_spec (hsane : Sane policy m r wait) (hcurrent : m.core.current = some pid)
    (hlive : m.core.isLive pid = true) (hawake : wait pid = .awake)
    (hcr3 : m.cr3 = some (m.spaces pid).pdir)
    (hpermits : policy.Permits r)
    (hallowed : CallAllowed policy m pid r) :
    Ensures policy.Tolerates (m.pass r) (Passed policy m r pid) := by
  rw [pass, hcurrent]
  have hentered := hsane.enter hcurrent hlive hawake hcr3 hpermits
  refine ensures_bind (dispatch_spec hentered (hallowed.enter r.eax.toNat)) fun value hreturns => ?_
  exact ensures_ok.mpr (conclude_spec hreturns)

end Machine

end Rhythmos.Kernel
