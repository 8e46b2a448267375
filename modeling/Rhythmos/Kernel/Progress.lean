import Rhythmos.Kernel.Events
import Rhythmos.Paging.Contents

/-!
# Steps succeed while memory lasts

In an orderly run no data segment grows into the stack, so exactly the pages of the
segments are mapped.  There the pages that a step needs are bounded, and creating
and killing processes succeed as long as that many pages are left.  What such a
step does to the kernel's data then follows by evaluation, also where the state
is only known up to the contents of memory.
-/

namespace Rhythmos.Kernel

open Fallible ByteMemory Libc Paging

variable {m m₁ : Machine} {r : Regs} {wait : Pid → Wait} {pid child : Pid}

/-! ## Orderly runs -/

/-- Exactly the pages of the segments are mapped. -/
def Policy.orderly : Policy where
  calls := fun _ => True
  regime := ⟨True, fun _ => False, Regime.no_secret⟩
  tended := False
  careful := False
  cwd := fun _ => True

theorem Policy.orderly_suits (image : Image) : Policy.orderly.Suits image :=
  ⟨trivial, fun _ _ _ _ _ _ => trivial, fun _ h => h.elim⟩

theorem Policy.orderly_permits (r : Regs) : Policy.orderly.Permits r :=
  ⟨fun _ => trivial, fun h => h.elim⟩

namespace Machine

open Rhythmos.Kernel.Core

/-- Kills are safe, and no call of `brk` asks for an end of the data segment above the
start of the caller's stack. -/
def Orderly (m : Machine) : Event → Prop
  | .trap r => (r.eax.toNat = Call.kill.number → SafeKill m.core (r.args 0)) ∧
      (r.eax.toNat = Call.brk.number → ∀ pid, m.core.current = some pid →
        (r.args 0).toNat ≤ (m.spaces pid).stackStart)
  | _ => True

theorem orderly_guarantees : Guarantees Orderly Policy.orderly := by
  intro m wait event _ hpermits
  cases event with
  | trap r =>
      obtain ⟨hkill, hbrk⟩ := hpermits
      refine ⟨Policy.orderly_permits r, fun pid hpid => ⟨?_, ?_, ?_, ?_, ?_, ?_⟩⟩
      · exact fun h => ⟨hkill h, fun h => h.elim⟩
      · exact fun _ h => h.elim
      · exact fun h => ⟨fun _ => hbrk h pid hpid, fun _ h => h.elim⟩
      · exact fun _ _ h => h
      · exact fun _ => trivial
      · exact fun _ h => h.elim
  | exception number r => exact fun h => h.elim
  | _ => trivial

/-! ## Memory of new processes -/

/-- The number of pages that suffices for a fork in an orderly run. -/
def forkBound : ℕ := 394785

theorem forkCost_le {regime : Regime} {dirs : Pid → Option ℕ} {ps : Pages} {pdir : ℕ}
    {space : AddressSpace} (hfurnished : Furnished regime dirs ps pid pdir space)
    (hstrict : regime.strict) : forkCost space ≤ forkBound := by
  have hfits := hfurnished.fits
  have hbounded := hfurnished.bounded hstrict
  have htext := hfits.textEnd_le
  have hdata := hbounded.2
  rw [hfits.stackStart] at hdata
  simp only [forkCost, pageCount, hfits.stackStart, hfits.stackEnd, hfits.dataStart,
    hfits.textStart, forkBound]
  simp only [processStackBase, processStackSize, processDataBase, processTextBase, pageSize] at *
  omega

/-- While memory lasts, an operation on pages succeeds. -/
theorem exists_ok_of_room {A : Type} {strict : Prop} {ps : Pages} {count : ℕ}
    {outcome : Except Fault A} {post : A → Prop} (hstrict : strict)
    (hensures : Ensures (Starved strict ps count) outcome post)
    (hroom : ps.pageEnd + pageSize * count ≤ wordCount) :
    ∃ value, outcome = .ok value ∧ post value := by
  cases outcome with
  | ok value => exact ⟨value, rfl, ensures_ok.mp hensures⟩
  | error fault =>
      rcases ensures_error.mp hensures with ⟨-, hfull⟩ | ⟨hlax, -⟩
      · omega
      · exact absurd hstrict hlax

theorem Settled.forkSpace (hsettled : Settled Policy.orderly m wait)
    (hcurrent : m.core.current = some pid) (hfree : m.core.getFreePid = some child)
    (hroom : m.pages.pageEnd + pageSize * forkBound ≤ wordCount) (core : Core) :
    ∃ ps spaces, (m.setCore core).forkSpace pid child =
        .ok ⟨core, ps, spaces, some (m.spaces pid).pdir, m.image⟩ ∧
      ps.pageEnd ≤ m.pages.pageEnd + pageSize * forkBound := by
  have hlayout := (hsettled.sane Regs.zero).layout
  have hdir := dirs_eq (hsettled.live pid hcurrent)
  have hcost : forkCost (m.spaces pid) ≤ forkBound :=
    forkCost_le (hlayout.furnished pid _ hdir) trivial
  have hpages : pageSize * forkCost (m.spaces pid) ≤ pageSize * forkBound :=
    Nat.mul_le_mul_left _ hcost
  obtain ⟨⟨core₁, ps, spaces, cr3, image⟩, hfork, pdir, -, -, hcore, himage, hcr3, hend⟩ :=
    exists_ok_of_room trivial (forkSpace_spec (m := m.setCore core) hlayout hdir
      (dirs_of_vacant (getFreePid_spec hfree).2) fun _ h => h) (by
        simp only [setCore]
        omega)
  simp only [setCore] at hcore himage hcr3 hend
  subst hcore himage hcr3
  exact ⟨ps, spaces, hfork, by omega⟩

/-! ## Evaluation of system calls -/

/-- The state in which a system call is dispatched. -/
def entered (m : Machine) (pid : Pid) (r : Regs) : Machine :=
  m.setCore (m.core.modify pid fun proc => { proc with inSyscall := r.eax.toNat })

theorem dispatch_fork {core : Core} (hcall : Call.ofNumber r.eax.toNat = some .fork)
    (hfree : m.core.getFreePid = some child) (hspace : m.forkSpace pid child = .ok m₁)
    (hcore : m₁.core.forkProcess pid child r false = .ok core) :
    m.dispatch pid r = .ok (m₁.setCore core, r, BitVec.ofNat 32 child.val) := by
  simp [dispatch, hcall, keepRegs, syscallFork, hfree, hspace, hcore]

theorem dispatch_receive {core : Core} {res : Word}
    (hcall : Call.ofNumber r.eax.toNat = some .receive)
    (hvalid : validPointer (m.spaces pid) (r.args 0).toNat messageSize = true)
    (hcore : m.core.syscallReceive pid (r.args 1) = .ok (core, res, none)) :
    m.dispatch pid r = .ok (m.setCore core, r, res) := by
  simp [dispatch, hcall, keepRegs, syscallReceive, hvalid, hcore]

theorem dispatch_exit (hcall : Call.ofNumber r.eax.toNat = some .exit)
    (hkill : (m.setCore (m.core.modify pid fun proc =>
      { proc with exitStatus := r.args 0 })).killProcess pid = .ok m₁) :
    m.dispatch pid r = .ok (m₁, r, failure esuspend) := by
  simp [dispatch, hcall, keepRegs, syscallExit, hkill]

theorem dispatch_kill {victim : Pid} (hcall : Call.ofNumber r.eax.toNat = some .kill)
    (hvictim : pidArgument (r.args 0) = some victim)
    (hexisting : (m.core.processes victim).existing = true)
    (hkill : m.killProcess victim = .ok m₁) :
    m.dispatch pid r = .ok (m₁, r,
      if victim = (m.core.processes pid).pid then failure esuspend else 0) := by
  simp [dispatch, hcall, keepRegs, syscallKill, hvictim, hexisting, hkill]

/-- A buffer at the start of the stack. -/
theorem Settled.validPointer_stack {policy : Policy} (hsettled : Settled policy m wait)
    (hlive : m.core.isLive pid = true) {size : ℕ} (hsize : size ≤ processStackSize) :
    validPointer (m.spaces pid) (processStackBase - processStackSize) size = true := by
  have hfits := ((hsettled.sane Regs.zero).layout.furnished pid _ (dirs_eq hlive)).fits
  have hsmall : processStackBase - processStackSize + size < wordCount := by
    simp only [processStackBase, processStackSize, wordCount] at *
    omega
  have hstack : processStackBase - processStackSize + size ≤ processStackBase := by
    simp only [processStackBase, processStackSize] at *
    omega
  simp [validPointer, within, hfits.stackStart, hfits.stackEnd, Nat.not_le.mpr hsmall, hstack]

/-- The kernel can store in a buffer at the start of the stack of the running process. -/
theorem Settled.exists_copyOut (hsettled : Settled Policy.orderly m wait)
    (hcurrent : m.core.current = some pid) (core : Core) {bytes : List UInt8}
    (hlength : bytes.length ≤ processStackSize) :
    ∃ ps, (m.setCore core).copyOut pid (processStackBase - processStackSize) bytes =
        .ok ⟨core.record (.stored pid (processStackBase - processStackSize) bytes.length), ps,
          m.spaces, m.cr3, m.image⟩ ∧ ps.pageEnd = m.pages.pageEnd := by
  have hlayout := (hsettled.sane Regs.zero).layout
  have hdir := dirs_eq (hsettled.live pid hcurrent)
  have hfurnished := hlayout.furnished pid _ hdir
  have hend : processStackBase - processStackSize + bytes.length ≤ processStackBase := by
    simp only [processStackBase, processStackSize] at *
    omega
  have hmapped : ∀ x, processStackBase - processStackSize ≤ x →
      x < processStackBase - processStackSize + bytes.length →
      Mapped m.pages m.dirs pid (x / pageSize) := by
    intro x hlow hhigh
    refine (hfurnished.mapped trivial _).mpr (.inl ?_)
    rw [hfurnished.fits.stackStart, hfurnished.fits.stackEnd]
    simp only [pagesIn, processStackBase, processStackSize, pageSize] at *
    omega
  obtain ⟨ps, hstore⟩ := hlayout.sound.exists_storeUser hdir (hend.trans (by decide)) hmapped
  have houtside : meetsKernel (processStackBase - processStackSize) bytes.length = false :=
    meetsKernel_eq_false.mpr (.inr ⟨by decide, hend.trans (by decide)⟩)
  have hrefilled := ensures_of_eq_ok (hlayout.sound.storeBytes hdir _ bytes) hstore
  refine ⟨ps, ?_, hrefilled.pageEnd_eq⟩
  have hkernel : (m.setCore core).storeUser (processStackBase - processStackSize) bytes =
      .ok { m.setCore core with pages := ps } := by
    simp only [storeUser, setCore, hsettled.cr3 pid hcurrent, hstore, onPages, ok_bind,
      pure_eq_ok]
  exact copyOut_eq_ok.mpr ⟨houtside, _, hkernel, rfl⟩

/-- The memory of a live process can be freed. -/
theorem Settled.freeSpace (hsettled : Settled Policy.orderly m wait)
    (hlive : m.core.isLive pid = true) (core : Core) :
    ∃ ps, (m.setCore core).freeSpace pid = .ok ⟨core, ps, m.spaces, none, m.image⟩ ∧
      ps.pageEnd = m.pages.pageEnd := by
  obtain ⟨ps, hfree, -, hend⟩ := freeSpace_spec (m := m.setCore core)
    (hsettled.sane Regs.zero).layout (dirs_eq hlive)
  exact ⟨ps, hfree, hend⟩

/-- What a trap does, once the call is known to be dispatched. -/
theorem handle_trap {r₁ : Regs} {res : Word} (depth : ℕ) (hcurrent : m.core.current = some pid)
    (hdispatch : (m.entered pid r).dispatch pid r = .ok (m₁, r₁, res)) :
    handle depth m (.trap r) = Prod.fst <$> (
      if (m₁.storeErrno r.eax.toNat res).2 = failure esuspend then
        contextSwitch depth (m₁.storeErrno r.eax.toNat res).1 r₁
      else
        let m₂ := (m₁.storeErrno r.eax.toNat res).1
        let m₃ := m₂.setCore (m₂.core.modify pid fun proc => { proc with inSyscall := 0 })
        let r₂ := { r₁ with eax := (m₁.storeErrno r.eax.toNat res).2 }
        if m₃.core.current ≠ some pid then contextSwitch depth m₃ r₂ else .ok (m₃, r₂)) := by
  simp only [entered] at hdispatch
  simp [handle, syscall, hcurrent, hdispatch]

/-- With no process to run, `context_switch` leaves none current. -/
theorem contextSwitch_idle (depth : ℕ) (hcurrent : m.core.current = none)
    (hempty : (m.core.queue .ready).first = none) :
    contextSwitch (depth + 1) m r = .ok (m.setCore { m.core with current := none },
      initRegs m.image.idleStackEnd m.image.idle) := by
  simp [contextSwitch, saveRegs, hcurrent, selectNext, hempty]

/-- After a process died, `context_switch` runs the first process of the ready list. -/
theorem contextSwitch_first (depth : ℕ) (hcurrent : m.core.current = none)
    (hfirst : (m.core.queue .ready).first = some pid)
    (hidle : (m.core.processes pid).inSyscall = 0) (hlive : m.core.isLive pid = true) :
    contextSwitch (depth + 1) m r =
      .ok (⟨{ m.core with current := some pid }.record (.selected pid true), m.pages, m.spaces,
        some (m.spaces pid).pdir, m.image⟩, (m.core.processes pid).savedRegs) := by
  simp [contextSwitch, saveRegs, hcurrent, selectNext, hfirst, activate, hlive, hidle]

/-- A computation that is seen to succeed. -/
theorem eq_ok_of_isSome {A : Type} {outcome : Except Fault A} {default : A}
    (hsome : outcome.toOption.isSome = true) : outcome = .ok (outcome.toOption.getD default) := by
  cases outcome with
  | error fault => cases hsome
  | ok value => rfl

/-- A process has entered a system call. -/
def enterCore (core : Core) (pid : Pid) (call : Call) : Core :=
  core.modify pid fun proc => { proc with inSyscall := call.number }

theorem getFreePid_enterCore (core : Core) (pid : Pid) (call : Call) :
    (enterCore core pid call).getFreePid = core.getFreePid := by
  have hexisting : ∀ other, ((enterCore core pid call).processes other).existing =
      (core.processes other).existing := modify_field core pid Process.existing fun _ => rfl
  simp [getFreePid, hexisting]

/-- A process returns successfully from a system call. -/
def leaveCore (core : Core) (pid : Pid) : Core :=
  (core.modify pid fun proc => { proc with lastErrno := 0 }).modify pid fun proc =>
    { proc with inSyscall := 0 }

/-- A call that succeeds with the result 0. -/
theorem handle_success {r₁ : Regs} (depth : ℕ) (hcurrent : m.core.current = some pid)
    (hdispatch : (m.entered pid r).dispatch pid r = .ok (m₁, r₁, 0))
    (hnumber : r.eax.toNat ≠ Call.geterrno.number) (hstill : m₁.core.current = some pid) :
    handle depth m (.trap r) = .ok (m₁.setCore (leaveCore m₁.core pid)) := by
  have hsign : ¬ (0 : Word).toInt < 0 := by decide
  rw [handle_trap depth hcurrent hdispatch]
  simp only [storeErrno, hstill, hnumber, zero_ne, or_self, if_false, hsign, setCore,
    modify_current, ne_eq, not_true]
  rfl

theorem dispatch_send {core : Core} {res : Word}
    (hcall : Call.ofNumber r.eax.toNat = some .send) (hsize : r.args 3 = 0)
    (hcore : m.core.syscallSend pid (r.args 0) (r.args 1) 0 (.ok []) = .ok (core, res)) :
    m.dispatch pid r = .ok (m.setCore core, r, res) := by
  have hload : m.loadUser (r.args 2).toNat 0 = .ok [] := rfl
  have hvalid : validPointer (m.spaces pid) (r.args 2).toNat 0 = true := rfl
  have hzero : (0 : Word).toNat = 0 := rfl
  simp [dispatch, hcall, keepRegs, syscallSend, hsize, hvalid, hload, hcore]

theorem dispatch_pipe {core : Core} {readfd writefd : Fd}
    (hcall : Call.ofNumber r.eax.toNat = some .pipe)
    (hvalid : validPointer (m.spaces pid) (r.args 0).toNat 8 = true)
    (hcore : m.core.syscallPipe pid = .ok (core, some (readfd, writefd)))
    (hstore : (m.setCore core).copyOut pid (r.args 0).toNat
      (wordBytes (BitVec.ofNat 32 readfd.val) ++ wordBytes (BitVec.ofNat 32 writefd.val)) =
        .ok m₁) :
    m.dispatch pid r = .ok (m₁, r, 0) := by
  simp [dispatch, hcall, keepRegs, syscallPipe, hvalid, hcore, hstore]

theorem killProcess_eq {victim : Pid} {core₁ core₂ : Core} {ps : Pages}
    {spaces : Pid → AddressSpace} {image : Image}
    (hclosed : (m.core.detach victim).closeHandles victim = .ok core₁)
    (hspace : (m.setCore core₁).freeSpace victim = .ok ⟨core₁, ps, spaces, none, image⟩)
    (hfinish : core₁.finish victim = .ok core₂) :
    m.killProcess victim =
      if m.core.current = some victim then .ok ⟨core₂, ps, spaces, none, image⟩
      else do
        let other ← core₂.currentProcess
        return ⟨core₂, ps, spaces, some (spaces other).pdir, image⟩ := by
  simp only [setCore] at hspace
  simp [killProcess, hclosed, hspace, hfinish, setCore]

/-- The process `pid` calls `exit`. -/
def exiting (core : Core) (pid : Pid) (r : Regs) : Core :=
  (core.modify pid fun proc => { proc with inSyscall := r.eax.toNat }).modify pid fun proc =>
    { proc with exitStatus := r.args 0 }

theorem handle_exit {core₁ core₂ : Core} {ps : Pages} {spaces : Pid → AddressSpace}
    {image : Image} (depth : ℕ) (hcurrent : m.core.current = some pid)
    (hcall : Call.ofNumber r.eax.toNat = some .exit)
    (hclosed : ((exiting m.core pid r).detach pid).closeHandles pid = .ok core₁)
    (hspace : (m.setCore core₁).freeSpace pid = .ok ⟨core₁, ps, spaces, none, image⟩)
    (hfinish : core₁.finish pid = .ok core₂) (hgone : core₂.current = none) :
    handle depth m (.trap r) =
      Prod.fst <$> contextSwitch depth ⟨core₂, ps, spaces, none, image⟩ r := by
  have hstill : (exiting m.core pid r).current = some pid := hcurrent
  have hkill := killProcess_eq (m := m.setCore (exiting m.core pid r)) hclosed hspace hfinish
  rw [if_pos (show (m.setCore (exiting m.core pid r)).core.current = some pid from hstill)] at hkill
  rw [handle_trap depth hcurrent (dispatch_exit hcall hkill)]
  simp [storeErrno, hgone]

/-! ## A run -/

theorem codeEnd_bare : 2 * mb ≤ 2 * mb := le_rfl

/-- A machine with an empty filesystem. -/
def bare : Image where
  codeEnd := 2 * mb
  codeEnd_le := codeEnd_bare
  launchShell := 0x100000
  idle := 0x100010
  idleStackEnd := 0x101000
  filesystem := fun _ => 0
  beforeBuffer := fun _ _ => 0
  strayWords := fun _ _ _ => 0
  strayMemory := fun _ _ _ => 0
  size_lt := by
    intro _ entry _
    have hzero : Filesystem.sizeAt (fun _ => 0) entry = 0 := rfl
    rw [hzero]
    decide

/-- The state known up to the contents of memory: the kernel's data, and a bound on
the pages in use. -/
def Arrives (permits : Machine → Event → Prop) (core : Core) (used : ℕ) : Prop :=
  ∃ m wait, Reachable permits bare (fun _ => 0) (fun _ _ => 0) m ∧
    Settled Policy.orderly m wait ∧ m.core = core ∧
    m.pages.pageEnd ≤ pageStart + pageSize * used

variable {permits : Machine → Event → Prop} {core core' : Core} {used used' : ℕ}

theorem Arrives.step (harrives : Arrives permits core used) (event : Event) (depth : ℕ)
    (hevent : ∀ m, m.core = core → permits m event ∧ Orderly m event)
    (hstep : ∀ m wait, Settled Policy.orderly m wait → m.core = core →
      m.pages.pageEnd ≤ pageStart + pageSize * used → ∃ m', handle depth m event = .ok m' ∧
        m'.core = core' ∧ m'.pages.pageEnd ≤ pageStart + pageSize * used') :
    Arrives permits core' used' := by
  obtain ⟨m, wait, hreachable, hsettled, hcore, hend⟩ := harrives
  obtain ⟨hpermits, horderly⟩ := hevent m hcore
  obtain ⟨m', hhandle, hcore', hend'⟩ := hstep m wait hsettled hcore hend
  have hspec := handle_spec depth hsettled (orderly_guarantees m wait event hsettled horderly)
  rw [hhandle, ensures_ok] at hspec
  obtain ⟨wait', hsettled'⟩ := hspec
  exact ⟨m', wait', .step depth hreachable hpermits hhandle, hsettled', hcore', hend'⟩

/-- A step that does not touch memory. -/
theorem Arrives.light (harrives : Arrives permits core used) (event : Event) (depth : ℕ)
    (hevent : ∀ m, m.core = core → permits m event ∧ Orderly m event)
    (hstep : ∀ ps spaces cr3 image, ∃ cr3', handle depth ⟨core, ps, spaces, cr3, image⟩ event =
      .ok ⟨core', ps, spaces, cr3', image⟩) : Arrives permits core' used := by
  refine harrives.step event depth hevent ?_
  rintro ⟨core₀, ps, spaces, cr3, image⟩ wait - rfl hend
  obtain ⟨cr3', hhandle⟩ := hstep ps spaces cr3 image
  exact ⟨_, hhandle, rfl, hend⟩

/-- The registers with which a system call is made. -/
def callRegs (call : Call) (args : ℕ → Word) : Regs :=
  { Regs.zero with eax := BitVec.ofNat 32 call.number, args := args }

/-- The kernel's data after `kmain`. -/
def bootCore : Core :=
  let blank := Core.initial fun _ _ => 0
  let started := blank.startProcess 1 (BitVec.ofNat 32 processStackBase) 0x100000
  { started.toOption.getD blank with inputPipe := some 0 }

theorem arrives_boot : Arrives permits bootCore startCost := by
  have hsane := sane_initial (Policy.orderly_suits bare) (fun _ => 0) (fun _ _ => 0) Regs.zero
  have hfree : (initial bare (fun _ => 0) (fun _ _ => 0)).core.getFreePid = some 1 := rfl
  obtain ⟨⟨core, ps, spaces, cr3, image⟩, hspace, pdir, -, -, -, hcore, himage, hcr3, hend⟩ :=
    exists_ok_of_room trivial (startSpace_spec hsane.layout
      (dirs_of_vacant (getFreePid_spec hfree).2) fun _ h => h.elim) (by decide)
  simp only at hcore himage hcr3 hend
  subst hcore himage hcr3
  have hboot : kmain bare (fun _ => 0) (fun _ _ => 0) =
      .ok ⟨bootCore, ps, spaces, none, bare⟩ := by
    rw [kmain, startProcess, hfree]
    simp only [hspace, ok_bind]
    rfl
  have hspec := kmain_spec (Policy.orderly_suits bare) (fun _ => 0) (fun _ _ => 0)
  rw [hboot, ensures_ok] at hspec
  obtain ⟨wait, hsettled⟩ := hspec
  exact ⟨_, wait, .boot hboot, hsettled, rfl, hend⟩

theorem callRegs_eax (call : Call) (args : ℕ → Word) :
    (callRegs call args).eax.toNat = call.number := by
  cases call <;> rfl

theorem calling_call {calls : List Call} {call : Call} (hcall : call ∈ calls) (args : ℕ → Word)
    (m : Machine) : Calling calls m (.trap (callRegs call args)) :=
  ⟨call, hcall, callRegs_eax call args⟩

theorem notKilling_call {call : Call} (hcall : call.number ≠ Call.kill.number) (args : ℕ → Word)
    (m : Machine) : NotKilling m (.trap (callRegs call args)) := by
  rw [NotKilling, callRegs_eax]
  exact hcall

theorem careful_call {call : Call} (hwaitpid : call.number ≠ Call.waitpid.number)
    (hsend : call.number ≠ Call.send.number) (args : ℕ → Word) (m : Machine) :
    Careful m (.trap (callRegs call args)) := by
  constructor
  · rw [callRegs_eax]
    exact fun h => absurd h hwaitpid
  · rw [callRegs_eax]
    exact fun h => absurd h hsend

theorem orderly_call {call : Call} (args : ℕ → Word) (hkill : call.number ≠ Call.kill.number)
    (hbrk : call.number ≠ Call.brk.number) : Orderly m (.trap (callRegs call args)) := by
  constructor
  · rw [callRegs_eax]
    exact fun h => absurd h hkill
  · rw [callRegs_eax]
    exact fun h => absurd h hbrk

/-- The first process runs. -/
def scheduledCore : Core := { bootCore with current := some 1 }.record (.selected 1 true)

theorem arrives_scheduled (htimer : ∀ m, permits m (.timer Regs.zero)) :
    Arrives permits scheduledCore startCost :=
  arrives_boot.light (.timer Regs.zero) 1 (fun m _ => ⟨htimer m, trivial⟩)
    fun _ spaces _ _ => ⟨some (spaces 1).pdir, rfl⟩

/-- The first process has made a second one. -/
def fork (vfork : Bool) (call : Call) : Core :=
  ((enterCore scheduledCore 1 call).forkProcess 1 2 (callRegs call fun _ => 0)
    vfork).toOption.getD scheduledCore

/-- The first process has forked. -/
def forkedCore : Core := leaveCore (fork false .fork) 1

/-- The running process `pid` forks. -/
theorem Arrives.fork {made : Core} (harrives : Arrives permits core used)
    (hfork : ∀ m, m.core = core → permits m (.trap (callRegs .fork fun _ => 0)))
    (hcurrent : core.current = some pid) (hfree : core.getFreePid = some child)
    (hmade : (enterCore core pid .fork).forkProcess pid child (callRegs .fork fun _ => 0) false =
      .ok made) (hstill : made.current = some pid)
    (hroom : pageStart + pageSize * (used + forkBound) ≤ wordCount) :
    Arrives permits (leaveCore made pid) (used + forkBound) := by
  refine harrives.step (.trap (callRegs .fork fun _ => 0)) 1
    (fun m hcore => ⟨hfork m hcore, orderly_call _ (by decide) (by decide)⟩) ?_
  rintro ⟨core, ps, spaces, cr3, image⟩ wait hsettled rfl hend
  simp only at hend
  rw [Nat.mul_add, ← Nat.add_assoc] at hroom
  have hleft : ps.pageEnd + pageSize * forkBound ≤ wordCount := by omega
  obtain ⟨ps', spaces', hspace, hend'⟩ := hsettled.forkSpace hcurrent hfree hleft
    (enterCore core pid .fork)
  have hslot : (enterCore core pid .fork).getFreePid = some child :=
    (getFreePid_enterCore core pid .fork).trans hfree
  have hdispatch := dispatch_fork (r := callRegs .fork fun _ => 0) rfl hslot hspace hmade
  have hresult : ∀ child : Pid, ¬ (BitVec.ofNat 32 child.val).toInt < 0 ∧
      BitVec.ofNat 32 child.val ≠ failure esuspend := by decide
  refine ⟨⟨leaveCore made pid, ps', spaces', some (spaces pid).pdir, image⟩, ?_, rfl, ?_⟩
  · have hnumber : (callRegs .fork fun _ => 0).eax.toNat ≠ Call.geterrno.number := by decide
    rw [handle_trap (m := ⟨core, ps, spaces, cr3, image⟩) (r := callRegs .fork fun _ => 0) 1
      hcurrent hdispatch]
    simp only [storeErrno, setCore, hstill, hnumber, (hresult child).1, (hresult child).2, or_self,
      if_false, modify_current, ne_eq, not_true]
    rfl
  · simp only [Nat.mul_add]
    simp only at hend'
    omega

/-- The pages used after a fork. -/
def forkedPages : ℕ := startCost + forkBound

theorem room_for_fork {pages : ℕ} (hpages : pages ≤ pageStart + pageSize * startCost) :
    pages + pageSize * forkBound ≤ wordCount := by
  simp only [pageStart, pageSize, startCost, forkBound, wordCount, processStackSize] at *
  omega

theorem arrives_forked (htimer : ∀ m, permits m (.timer Regs.zero))
    (hfork : ∀ m, permits m (.trap (callRegs .fork fun _ => 0))) :
    Arrives permits forkedCore forkedPages :=
  (arrives_scheduled htimer).fork (fun m _ => hfork m) rfl rfl rfl rfl (by decide)

/-- The second process runs. -/
def childCore : Core :=
  { forkedCore.modify 1 fun proc => { proc with savedRegs := Regs.zero } with
    current := some 2 }.record (.selected 2 true)

theorem arrives_child (htimer : ∀ m, permits m (.timer Regs.zero))
    (hfork : ∀ m, permits m (.trap (callRegs .fork fun _ => 0))) :
    Arrives permits childCore forkedPages :=
  (arrives_forked htimer hfork).light (.timer Regs.zero) 1 (fun m _ => ⟨htimer m, trivial⟩)
    fun _ spaces _ _ => ⟨some (spaces 2).pdir, rfl⟩

/-- The kernel's data after an event that does not touch memory. -/
def settle (core : Core) (event : Event) : Core :=
  ((handle 1 ⟨core, ⟨fun _ => 0, pageStart, 0, 0, []⟩, fun _ => AddressSpace.zero, none, bare⟩
    event).toOption.map Machine.core).getD core

/-- The second process waits for input, and the first one runs. -/
def blockedCore : Core := settle childCore (.trap (callRegs .read fun _ => 0))

theorem arrives_blocked (htimer : ∀ m, permits m (.timer Regs.zero))
    (hfork : ∀ m, permits m (.trap (callRegs .fork fun _ => 0)))
    (hread : ∀ m, permits m (.trap (callRegs .read fun _ => 0))) :
    Arrives permits blockedCore forkedPages :=
  (arrives_child htimer hfork).light (.trap (callRegs .read fun _ => 0)) 1
    (fun m _ => ⟨hread m, orderly_call _ (by decide) (by decide)⟩)
    fun _ spaces _ _ => ⟨some (spaces 1).pdir, rfl⟩

/-- A reachable state in which the second process waits for input. -/
theorem reachable_blocked : ∃ m,
    Reachable (Carefully NotKilling) bare (fun _ => 0) (fun _ _ => 0) m ∧
    m.core = blockedCore := by
  have hcall : ∀ call, call = .fork ∨ call = .read → ∀ m,
      Carefully NotKilling m (.trap (callRegs call fun _ => 0)) := by
    rintro call (rfl | rfl) m
    · exact ⟨notKilling_call (by decide) _ m, careful_call (by decide) (by decide) _ m⟩
    · exact ⟨notKilling_call (by decide) _ m, careful_call (by decide) (by decide) _ m⟩
  have harrives : Arrives (Carefully NotKilling) blockedCore forkedPages :=
    arrives_blocked (fun _ => ⟨trivial, trivial⟩) (hcall .fork (.inl rfl)) (hcall .read (.inr rfl))
  obtain ⟨m, wait, hreachable, -, hcore, -⟩ := harrives
  exact ⟨m, hreachable, hcore⟩

/-- The handles of a process are closed. -/
def closeCore (core : Core) (pid : Pid) : Core :=
  ((core.detach pid).closeHandles pid).toOption.getD core

/-- A process has been killed, apart from its memory. -/
def killCore (core : Core) (pid : Pid) : Core :=
  ((closeCore core pid).finish pid).toOption.getD core

/-- The kernel's data after a process has called `exit`, before the next one runs. -/
def exitedCore (core : Core) (pid : Pid) : Core :=
  killCore (exiting core pid (callRegs .exit fun _ => 7)) pid

/-- The running process can exit. -/
def canExit (core : Core) (pid : Pid) : Bool :=
  let called := exiting core pid (callRegs .exit fun _ => 7)
  core.current = some pid && core.isLive pid &&
    ((called.detach pid).closeHandles pid).toOption.isSome &&
    ((closeCore called pid).finish pid).toOption.isSome && (exitedCore core pid).current = none

theorem handle_exited (depth : ℕ) (hsettled : Settled Policy.orderly m wait)
    (hcan : canExit m.core pid = true) : ∃ ps, ps.pageEnd = m.pages.pageEnd ∧
      handle depth m (.trap (callRegs .exit fun _ => 7)) = Prod.fst <$> contextSwitch depth
        ⟨exitedCore m.core pid, ps, m.spaces, none, m.image⟩ (callRegs .exit fun _ => 7) := by
  simp only [canExit, Bool.and_eq_true, decide_eq_true_eq] at hcan
  obtain ⟨⟨⟨⟨hcurrent, hlive⟩, hclosed⟩, hfinish⟩, hgone⟩ := hcan
  obtain ⟨ps, hspace, hend⟩ := hsettled.freeSpace hlive
    (closeCore (exiting m.core pid (callRegs .exit fun _ => 7)) pid)
  exact ⟨ps, hend, handle_exit depth hcurrent rfl (eq_ok_of_isSome hclosed) hspace
    (eq_ok_of_isSome hfinish) hgone⟩

/-- The running process exits, and the first one on the ready list runs. -/
theorem Arrives.exit {next : Pid} (harrives : Arrives permits core used)
    (hexit : ∀ m, m.core = core → permits m (.trap (callRegs .exit fun _ => 7)))
    (hcan : canExit core pid = true)
    (hfirst : ((exitedCore core pid).queue .ready).first = some next)
    (hidle : ((exitedCore core pid).processes next).inSyscall = 0)
    (hlive : (exitedCore core pid).isLive next = true) :
    Arrives permits ({ exitedCore core pid with current := some next }.record
      (.selected next true)) used := by
  refine harrives.step (.trap (callRegs .exit fun _ => 7)) 1
    (fun m hcore => ⟨hexit m hcore, orderly_call _ (by decide) (by decide)⟩) ?_
  rintro m wait hsettled rfl hend
  obtain ⟨ps, hend', hhandle⟩ := handle_exited 1 hsettled hcan
  simp only [canExit, Bool.and_eq_true, decide_eq_true_eq] at hcan
  rw [contextSwitch_first (m := ⟨exitedCore m.core pid, ps, m.spaces, none, m.image⟩) 0 hcan.2
    hfirst hidle hlive] at hhandle
  exact ⟨_, hhandle, rfl, hend'.le.trans hend⟩

/-- The running process exits, and none is ready. -/
theorem Arrives.exit_last (harrives : Arrives permits core used)
    (hexit : ∀ m, m.core = core → permits m (.trap (callRegs .exit fun _ => 7)))
    (hcan : canExit core pid = true)
    (hempty : ((exitedCore core pid).queue .ready).first = none) :
    Arrives permits { exitedCore core pid with current := none } used := by
  refine harrives.step (.trap (callRegs .exit fun _ => 7)) 1
    (fun m hcore => ⟨hexit m hcore, orderly_call _ (by decide) (by decide)⟩) ?_
  rintro m wait hsettled rfl hend
  obtain ⟨ps, hend', hhandle⟩ := handle_exited 1 hsettled hcan
  simp only [canExit, Bool.and_eq_true, decide_eq_true_eq] at hcan
  rw [contextSwitch_idle (m := ⟨exitedCore m.core pid, ps, m.spaces, none, m.image⟩) 0 hcan.2
    hempty] at hhandle
  exact ⟨_, hhandle, rfl, hend'.le.trans hend⟩

/-- The second process has exited, and the first one runs. -/
def zombieCore : Core :=
  { exitedCore childCore 2 with current := some 1 }.record (.selected 1 true)

theorem arrives_zombie (htimer : ∀ m, permits m (.timer Regs.zero))
    (hfork : ∀ m, permits m (.trap (callRegs .fork fun _ => 0)))
    (hexit : ∀ m, m.core = childCore → permits m (.trap (callRegs .exit fun _ => 7))) :
    Arrives permits zombieCore forkedPages :=
  (arrives_child htimer hfork).exit hexit (by decide +kernel) (by decide +kernel)
    (by decide +kernel) (by decide +kernel)

/-- The running process is interrupted. -/
def interruptedCore (core : Core) (pid : Pid) : Core :=
  core.modify pid fun proc => { proc with savedRegs := Regs.zero }

/-- The next process runs after a tick of the timer. -/
def tickedCore (core : Core) (pid next : Pid) : Core :=
  { interruptedCore core pid with current := some next }.record (.selected next true)

/-- A tick of the timer, after which another process runs. -/
theorem Arrives.tick {next : Pid} (harrives : Arrives permits core used)
    (htimer : ∀ m, permits m (.timer Regs.zero)) (hcurrent : core.current = some pid)
    (hselect : (interruptedCore core pid).selectNext = some next)
    (hidle : ((interruptedCore core pid).processes next).inSyscall = 0)
    (hlive : (interruptedCore core pid).isLive next = true) :
    Arrives permits (tickedCore core pid next) used := by
  refine harrives.light (.timer Regs.zero) 1 (fun m _ => ⟨htimer m, trivial⟩)
    fun ps spaces cr3 image => ⟨some (spaces next).pdir, ?_⟩
  have hsaved : saveRegs ⟨core, ps, spaces, cr3, image⟩ Regs.zero =
      ⟨interruptedCore core pid, ps, spaces, cr3, image⟩ := by
    rw [saveRegs, hcurrent]
    rfl
  simp [handle, contextSwitch, hsaved, hselect, activate, hidle, hlive, tickedCore]

/-- The second process waits for input, and the first one has forked again. -/
def forkedAgainCore : Core :=
  leaveCore (((enterCore blockedCore 1 .fork).forkProcess 1 3 (callRegs .fork fun _ => 0)
    false).toOption.getD blockedCore) 1

/-- The second process waits for input, the third one has exited, and the first one runs. -/
def bereavedCore : Core :=
  { exitedCore (tickedCore forkedAgainCore 1 3) 3 with current := some 1 }.record
    (.selected 1 true)

theorem arrives_bereaved (htimer : ∀ m, permits m (.timer Regs.zero))
    (hfork : ∀ m, permits m (.trap (callRegs .fork fun _ => 0)))
    (hread : ∀ m, permits m (.trap (callRegs .read fun _ => 0)))
    (hexit : ∀ m, permits m (.trap (callRegs .exit fun _ => 7))) :
    Arrives permits bereavedCore (forkedPages + forkBound) := by
  have hforked : Arrives permits forkedAgainCore (forkedPages + forkBound) := by
    have hfree : blockedCore.getFreePid = some 3 := by decide +kernel
    exact (arrives_blocked htimer hfork hread).fork (fun m _ => hfork m) (by decide +kernel) hfree
      (eq_ok_of_isSome (by decide +kernel)) (by decide +kernel) (by decide)
  have hthird : Arrives permits (tickedCore forkedAgainCore 1 3) (forkedPages + forkBound) :=
    hforked.tick htimer (by decide +kernel) (by decide +kernel) (by decide +kernel)
      (by decide +kernel)
  exact hthird.exit (fun m _ => hexit m) (by decide +kernel) (by decide +kernel)
    (by decide +kernel) (by decide +kernel)

/-! ## Kills -/

/-- The kernel's data after the first process killed the second one. -/
def killedCore (core : Core) : Core := leaveCore (killCore (enterCore core 1 .kill) 2) 1

/-- The first process runs, and it can kill the second one. -/
def canKill (core : Core) : Bool :=
  let called := enterCore core 1 .kill
  core.current = some 1 && core.isLive 2 &&
    ((called.detach 2).closeHandles 2).toOption.isSome &&
    ((closeCore called 2).finish 2).toOption.isSome && (called.processes 1).pid = 1 &&
    (killCore called 2).current = some 1

theorem handle_killed (depth : ℕ) (hsettled : Settled Policy.orderly m wait)
    (hcan : canKill m.core = true) : ∃ ps, ps.pageEnd = m.pages.pageEnd ∧
      handle depth m (.trap (callRegs .kill fun _ => 2)) =
        .ok ⟨killedCore m.core, ps, m.spaces, some (m.spaces 1).pdir, m.image⟩ := by
  simp only [canKill, Bool.and_eq_true, decide_eq_true_eq] at hcan
  obtain ⟨⟨⟨⟨⟨hcurrent, hlive⟩, hclosed⟩, hfinish⟩, hself⟩, hstill⟩ := hcan
  have hclosed' : ((enterCore m.core 1 .kill).detach 2).closeHandles 2 =
      .ok (closeCore (enterCore m.core 1 .kill) 2) := eq_ok_of_isSome hclosed
  have hfinish' : (closeCore (enterCore m.core 1 .kill) 2).finish 2 =
      .ok (killCore (enterCore m.core 1 .kill) 2) := eq_ok_of_isSome hfinish
  obtain ⟨ps, hspace, hend⟩ := hsettled.freeSpace hlive (closeCore (enterCore m.core 1 .kill) 2)
  have hkilled := killProcess_eq (m := m.setCore (enterCore m.core 1 .kill)) hclosed' hspace
    hfinish'
  have hother : (m.setCore (enterCore m.core 1 .kill)).core.current ≠ some 2 := by
    simp [setCore, enterCore, hcurrent]
  rw [if_neg hother] at hkilled
  have hcaller : (killCore (enterCore m.core 1 .kill) 2).currentProcess = .ok 1 := by
    rw [currentProcess, hstill]
  rw [hcaller, ok_bind, pure_eq_ok] at hkilled
  have hexisting : ((enterCore m.core 1 .kill).processes 2).existing = true := by
    have hboth : (m.core.processes 2).existing = true ∧ (m.core.processes 2).exited = false := by
      simpa [isLive] using hlive
    simpa [enterCore] using hboth.1
  have hvictim : pidArgument ((callRegs .kill fun _ => 2).args 0) = some 2 := rfl
  have hne : (2 : Pid) ≠ 1 := by decide
  have hdispatch := @dispatch_kill (m.setCore (enterCore m.core 1 .kill)) _
    (callRegs .kill fun _ => 2) 1 2 rfl hvictim hexisting hkilled
  have hresult : (if (2 : Pid) = ((m.setCore (enterCore m.core 1 .kill)).core.processes 1).pid
      then failure esuspend else (0 : Word)) = 0 := by
    simp only [setCore, hself, if_neg hne]
  rw [hresult] at hdispatch
  exact ⟨ps, hend, handle_success (r := callRegs .kill fun _ => 2) depth hcurrent hdispatch
    (by decide) hstill⟩

/-- The first process kills the second one. -/
theorem Arrives.kill (harrives : Arrives permits core used)
    (hkill : ∀ m, m.core = core → permits m (.trap (callRegs .kill fun _ => 2)))
    (hcan : canKill core = true) :
    ∃ m, Reachable permits bare (fun _ => 0) (fun _ _ => 0) m ∧ m.core = killedCore core := by
  obtain ⟨m, wait, hreachable, hsettled, rfl, -⟩ := harrives
  obtain ⟨ps, -, hhandle⟩ := handle_killed 1 hsettled hcan
  exact ⟨_, .step 1 hreachable (hkill m rfl) hhandle, rfl⟩

/-- The first process kills the second one, which is not blocked. -/
theorem Arrives.killSafely (harrives : Arrives permits core used)
    (hkill : ∀ m, m.core = core → permits m (.trap (callRegs .kill fun _ => 2)))
    (hsafe : SafeKill core 2) (hcan : canKill core = true) :
    Arrives permits (killedCore core) used := by
  refine harrives.step (.trap (callRegs .kill fun _ => 2)) 1 ?_ ?_
  · rintro m rfl
    exact ⟨hkill m rfl, fun _ => hsafe, fun h => absurd h (by decide)⟩
  · rintro m wait hsettled rfl hend
    obtain ⟨ps, hend', hhandle⟩ := handle_killed 1 hsettled hcan
    exact ⟨_, hhandle, rfl, hend'.le.trans hend⟩

/-- The first process has killed the second one and made a third one. -/
def replacedCore : Core :=
  leaveCore (((enterCore (killedCore forkedCore) 1 .fork).forkProcess 1 3
    (callRegs .fork fun _ => 0) false).toOption.getD forkedCore) 1

/-- A process was killed, and another one has exited. -/
def decimatedCore : Core :=
  { exitedCore (tickedCore replacedCore 1 3) 3 with current := some 1 }.record
    (.selected 1 true)

/-- No process waits for input. -/
theorem safeKill_forked : SafeKill forkedCore 2 := by
  have hvictim : pidArgument 2 = some 2 := rfl
  intro victim htarget _
  obtain rfl : victim = 2 := Option.some_injective _ (htarget.symm.trans hvictim)
  refine ⟨rfl, rfl, ?_⟩
  intro b pipe hpipe
  have hpipes : forkedCore.pipes = Function.update (fun _ => none) 0 (forkedCore.pipes 0) := rfl
  have hunread : (forkedCore.pipes 0).all (fun pipe => pipe.readpid = none) = true := by
    decide +kernel
  rw [hpipes] at hpipe
  by_cases hb : b = 0
  · subst hb
    rw [Function.update_self] at hpipe
    have hnone : pipe.readpid = none := by simpa [hpipe] using hunread
    simp [hnone]
  · rw [Function.update_of_ne hb] at hpipe
    cases hpipe

theorem reachable_killed : ∃ m,
    Reachable (Carefully KillingSafely) bare (fun _ => 0) (fun _ _ => 0) m ∧
    m.core = decimatedCore := by
  have hcall : ∀ call, call = .fork ∨ call = .exit → ∀ args m,
      Carefully KillingSafely m (.trap (callRegs call args)) := by
    rintro call (rfl | rfl) args m
    · exact ⟨(notKilling_call (by decide) args m).safely,
        careful_call (by decide) (by decide) args m⟩
    · exact ⟨(notKilling_call (by decide) args m).safely,
        careful_call (by decide) (by decide) args m⟩
  have htimer : ∀ m, Carefully KillingSafely m (.timer Regs.zero) :=
    fun _ => ⟨trivial, trivial⟩
  have hkilled : Arrives (Carefully KillingSafely) (killedCore forkedCore) forkedPages := by
    refine (arrives_forked htimer (hcall .fork (.inl rfl) _)).killSafely ?_ safeKill_forked
      (by decide +kernel)
    rintro m hcore
    refine ⟨fun _ => ?_, careful_call (by decide) (by decide) _ m⟩
    rw [hcore]
    exact safeKill_forked
  have hreplaced : Arrives (Carefully KillingSafely) replacedCore (forkedPages + forkBound) := by
    have hfree : (killedCore forkedCore).getFreePid = some 3 := by decide +kernel
    exact hkilled.fork (fun m _ => hcall .fork (.inl rfl) _ m) (by decide +kernel) hfree
      (eq_ok_of_isSome (by decide +kernel)) (by decide +kernel) (by decide)
  have hthird : Arrives (Carefully KillingSafely) (tickedCore replacedCore 1 3)
      (forkedPages + forkBound) :=
    hreplaced.tick htimer (by decide +kernel) (by decide +kernel) (by decide +kernel)
      (by decide +kernel)
  have hexited : Arrives (Carefully KillingSafely) decimatedCore (forkedPages + forkBound) :=
    hthird.exit (fun m _ => hcall .exit (.inr rfl) _ m) (by decide +kernel) (by decide +kernel)
      (by decide +kernel) (by decide +kernel)
  obtain ⟨m, wait, hreachable, -, hcore, -⟩ := hexited
  exact ⟨m, hreachable, hcore⟩

end Machine

end Rhythmos.Kernel
