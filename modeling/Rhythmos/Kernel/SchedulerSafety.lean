import Rhythmos.Kernel.Progress

/-!
# The scheduler and the processes that wait

What holds in every state of a run from `kmain` without unsafe kills in which the kernel
overwrites nothing of its own: the lists of the scheduler are doubly linked lists of
exactly the live processes, and every process that is suspended waits for an event that
has not happened, and is registered for it.
-/

namespace Rhythmos.Kernel

open Fallible ByteMemory DoublyLinked Libc

namespace Machine

open Rhythmos.Kernel.Core

variable {m : Machine} {image : Image} {phys : Memory} {junk : Block → Memory}
variable {wait : Pid → Wait} {pid : Pid}

/-! ## Overwriting the kernel -/

variable {permits : Machine → Event → Prop} {core : Core} {used : ℕ}

/-- The registers with which a process awaits a child, whose exit status is to be stored at
the address. -/
def awaitRegs (child : Pid) (address : Word) : Regs :=
  callRegs .waitpid fun i => if i = 0 then BitVec.ofNat 32 child.val else address

/-- The kernel's data after the first process awaited a child, apart from what lies at the
address where the exit status is stored. -/
def reapedCore (core : Core) (child : Pid) : Core :=
  leaveCore ((((enterCore core 1 .waitpid).syscallWaitpid 1
    (BitVec.ofNat 32 child.val)).toOption.map Prod.fst).getD core) 1

/-- The first process awaits its exited child and has the exit status stored in the kernel's
memory. -/
theorem Arrives.kernelStore {awaited : Core} (harrives : Arrives permits core used) (child : Pid)
    (address : Word) (hcurrent : core.current = some 1)
    (hawaited : (enterCore core 1 .waitpid).syscallWaitpid 1 (BitVec.ofNat 32 child.val) =
      .ok (awaited, BitVec.ofNat 32 child.val, some 7))
    (hkernel : meetsKernel address.toNat 4 = true) (hstored : address ≠ 0) :
    ∃ m, Reachable permits bare (fun _ => 0) (fun _ _ => 0) m ∧ m.core = core ∧
      handle 1 m (.trap (awaitRegs child address)) = .error .kernelStore := by
  obtain ⟨m, wait, hreachable, -, hcore, -⟩ := harrives
  subst hcore
  have hwaitpid : (m.entered 1 (awaitRegs child address)).syscallWaitpid 1
      (BitVec.ofNat 32 child.val) address = .error .kernelStore := by
    have hcall : (m.entered 1 (awaitRegs child address)).core.syscallWaitpid 1
        (BitVec.ofNat 32 child.val) = .ok (awaited, BitVec.ofNat 32 child.val, some 7) := hawaited
    have hlength : (wordBytes 7).length = 4 := rfl
    rw [syscallWaitpid, hcall]
    simp only [ok_bind, hstored, if_false, copyOut, hlength, hkernel, if_true, error_bind]
  have hdispatch : (m.entered 1 (awaitRegs child address)).dispatch 1 (awaitRegs child address) =
      .error .kernelStore := by
    have hnumber : Call.ofNumber (awaitRegs child address).eax.toNat = some .waitpid := rfl
    have hchild : (awaitRegs child address).args 0 = BitVec.ofNat 32 child.val := rfl
    have hstatus : (awaitRegs child address).args 1 = address := rfl
    simp only [dispatch, hnumber, hchild, hstatus, hwaitpid, keepRegs, error_bind]
  refine ⟨m, hreachable, rfl, ?_⟩
  rw [entered] at hdispatch
  simp [handle, syscall, hcurrent, hdispatch]

/-- The exit status changes the kernel's data. -/
theorem Arrives.overwrite {awaited : Core} (harrives : Arrives permits core used) (child : Pid)
    (address : Word)
    (hpermits : ∀ m, m.core = core → permits m (.trap (awaitRegs child address)))
    (hcurrent : core.current = some 1)
    (hawaited : (enterCore core 1 .waitpid).syscallWaitpid 1 (BitVec.ofNat 32 child.val) =
      .ok (awaited, BitVec.ofNat 32 child.val, some 7))
    (hkernel : meetsKernel address.toNat 4 = true) (hstored : address ≠ 0)
    (change : Core → Core) : ∃ m, MayReach permits bare (fun _ => 0) (fun _ _ => 0) m ∧
      m.core = change (reapedCore core child) := by
  obtain ⟨m, hreachable, hcore, hfault⟩ :=
    harrives.kernelStore child address hcurrent hawaited hkernel hstored
  exact ⟨m.setCore (change (reapedCore core child)), .overwritten 1 _ hreachable.mayReach
    (hpermits m hcore) hfault (.inl rfl), rfl⟩

/-! ## The lists of the scheduler -/

/-- The lists are well formed, and every live process is on the list that its
`ready` flag names. -/
def ListsExact (c : Core) : Prop :=
  ∀ queue, ∃ nodes, IsList c.prevOf c.nextOf (c.queue queue).first (c.queue queue).last nodes ∧
    ∀ pid, pid ∈ nodes ↔ c.isLive pid = true ∧ queueOf (c.processes pid) = queue

theorem listsExact_of_inv {c : Core} {r : Regs} (hinv : Inv (viewOf c r wait) c) :
    ListsExact c := by
  intro queue
  obtain ⟨nodes, hlist, hmem⟩ := hinv.linked queue
  refine ⟨nodes, hlist, ?_⟩
  intro pid
  rw [hmem]
  cases halive : c.isLive pid with
  | false => simp [View.place, viewOf, halive]
  | true =>
      have hready := hinv.waits.ready pid halive
      have hwait : (viewOf c r wait).wait pid = wait pid := rfl
      rw [hwait] at hready
      by_cases hawake : wait pid = .awake
      · simp [View.place, viewOf, halive, hawake, queueOf, hready.mpr hawake]
      · have hflag : (c.processes pid).ready = false := by
          cases hflag : (c.processes pid).ready with
          | true => exact absurd (hready.mp hflag) hawake
          | false => rfl
        simp [View.place, viewOf, halive, hawake, queueOf, hflag]

theorem Settled.listsExact {policy : Policy} (hsettled : Settled policy m wait) :
    ListsExact m.core :=
  listsExact_of_inv (hsettled.sane Regs.zero).inv

/-- In every careful run without `kill` the lists are exact, and no event fails an
assertion of `suspend_process` or `resume_process`. -/
theorem scheduler_lists_exact (hreach : MayReach (Carefully NotKilling) image phys junk m) :
    ListsExact m.core ∧ ∀ event depth fault, Carefully NotKilling m event →
      handle depth m event = .error fault →
      fault ≠ .assertion .suspendProcess ∧ fault ≠ .assertion .resumeProcess := by
  obtain ⟨wait, hsettled⟩ := hreach.lax fun _ _ => NotKilling.safely
  refine ⟨hsettled.listsExact, ?_⟩
  intro event depth fault hevent hfault
  have htolerable := hreach.tolerable (fun _ _ => NotKilling.safely) hevent hfault
  constructor
  · rintro rfl
    rcases htolerable with hharmless | ⟨-, hpage⟩
    · cases hharmless
    · cases hpage
  · rintro rfl
    rcases htolerable with hharmless | ⟨-, hpage⟩
    · cases hharmless
    · cases hpage

theorem scheduler_lists_exact_blocked : ∃ m,
    MayReach (Carefully NotKilling) bare (fun _ => 0) (fun _ _ => 0) m ∧
    m.core.isLive 2 = true ∧ ListsExact m.core := by
  obtain ⟨m, hreachable, hcore⟩ := reachable_blocked
  refine ⟨m, hreachable.mayReach, ?_, (scheduler_lists_exact hreachable.mayReach).1⟩
  rw [hcore]
  rfl

/-- `exists` of the free third entry of the process table is overwritten by an exit status. -/
def raisedCore (core : Core) : Core := core.modify 3 fun proc => { proc with existing := true }

/-- An exit status that is stored in the process table makes a process that is on no list. -/
theorem lists_overwritten : ¬ ∀ m, MayReach NotKilling bare (fun _ => 0) (fun _ _ => 0) m →
    ListsExact m.core := by
  intro hclaim
  have harrives : Arrives NotKilling zombieCore forkedPages :=
    arrives_zombie (fun _ => trivial) (notKilling_call (by decide) _)
      fun m _ => notKilling_call (by decide) _ m
  obtain ⟨m, hreach, hcore⟩ := harrives.overwrite 2 0x110000
    (fun m _ => notKilling_call (by decide) _ m) rfl rfl (by decide) (by decide) raisedCore
  obtain ⟨nodes, hlist, hmem⟩ := hclaim m hreach .suspended
  have hlive : (raisedCore (reapedCore zombieCore 2)).isLive 3 = true := by decide +kernel
  have hqueue : queueOf ((raisedCore (reapedCore zombieCore 2)).processes 3) = .suspended := by
    decide +kernel
  have hempty : ((raisedCore (reapedCore zombieCore 2)).queue .suspended).first = none := by
    decide +kernel
  rw [hcore] at hlist hmem
  have hthird : (3 : Pid) ∈ nodes := (hmem 3).mpr ⟨hlive, hqueue⟩
  have hnone : nodes.head? = none := hlist.first_eq.symm.trans hempty
  rw [List.head?_eq_none_iff] at hnone
  subst hnone
  cases hthird

/-! ## Waiting -/

/-- The process is blocked in a read of the pipe `b`, which is empty and open for
writing, and registered as its reader. -/
def BlockedInRead (c : Core) (pid : Pid) (b : Block) : Prop :=
  (c.processes pid).inSyscall = Call.read.number ∧
    (∃ fd fh handle, descriptor ((c.processes pid).savedRegs.args 0) = some fd ∧
      (c.processes pid).filedesc fd = some fh ∧ c.handles fh = some handle ∧
      handle.kind = .pipeReader b) ∧
    ∃ pipe, c.pipes b = some pipe ∧ pipe.len = 0 ∧ pipe.writing = true ∧
      pipe.readpid = some pid

/-- The process is blocked in a receive, with an empty mailbox. -/
def BlockedInReceive (c : Core) (pid : Pid) : Prop :=
  (c.processes pid).inSyscall = Call.receive.number ∧ (c.processes pid).mailboxSize = 0 ∧
    (c.processes pid).receiveBlocked = true

/-- The process is blocked in a call of `waitpid` for a child of its that has not
exited. -/
def BlockedInWaitpid (c : Core) (pid : Pid) : Prop :=
  (c.processes pid).inSyscall = Call.waitpid.number ∧
    ∃ child, pidArgument ((c.processes pid).savedRegs.args 0) = some child ∧
      (c.processes pid).waitingOn = some child ∧ (c.processes child).existing = true ∧
      (c.processes child).exited = false ∧ (c.processes child).parentPid = some pid

/-- What a process waits for, in terms of the state. -/
theorem Sane.blocked {policy : Policy} {r : Regs} (hsane : Sane policy m r wait)
    (hrunning : ∀ pid, m.core.current = some pid → wait pid = .awake) (pid : Pid) :
    (∀ b, wait pid = .reading b → BlockedInRead m.core pid b) ∧
    (wait pid = .receiving → BlockedInReceive m.core pid) ∧
    (∀ child, wait pid = .awaiting child → BlockedInWaitpid m.core pid) := by
  have hinv := hsane.inv
  have hasleep : wait pid ≠ .awake → m.core.isLive pid = true ∧ m.core.current ≠ some pid := by
    intro hwait
    constructor
    · cases halive : m.core.isLive pid with
      | true => rfl
      | false => exact absurd (hinv.waits.awake pid halive) hwait
    · intro hcurrent
      exact hwait (hrunning pid hcurrent)
  have hframe : wait pid ≠ .awake →
      (viewOf m.core r wait).frame pid = (m.core.processes pid).savedRegs := by
    intro hwait
    simp [viewOf, (hasleep hwait).2]
  refine ⟨?_, ?_, ?_⟩
  · intro b hwait
    have hne : wait pid ≠ .awake := by simp [hwait]
    obtain ⟨⟨hcall, fd, fh, handle, hfd, hslot, hfh, hkind⟩, pipe, hpipe, hempty, hopen⟩ :=
      hinv.waits.reading pid b hwait
    rw [hframe hne] at hfd
    have hreader : pipe.readpid = some pid := (hinv.waits.registered b pipe pid hpipe).mpr hwait
    have hslot : (m.core.processes pid).filedesc fd = some fh := by
      simpa [viewOf, (hasleep hne).1] using hslot
    exact ⟨hcall, ⟨fd, fh, handle, hfd, hslot, hfh, hkind⟩, pipe, hpipe, hempty, hopen, hreader⟩
  · intro hwait
    have hne : wait pid ≠ .awake := by simp [hwait]
    obtain ⟨hcall, hempty⟩ := hinv.waits.receiving pid hwait
    have hexisting := hinv.slots.existing pid (.inl (hasleep hne).1)
    exact ⟨hcall, hempty, (hinv.waits.blocked pid hexisting).mpr hwait⟩
  · intro child hwait
    have hne : wait pid ≠ .awake := by simp [hwait]
    obtain ⟨hcall, hargument, hchild, hpresent, hparent⟩ := hinv.waits.awaiting pid child hwait
    rw [hframe hne] at hargument
    have halive : m.core.isLive child = true := hpresent.resolve_right fun h => by cases h
    have hstate : (m.core.processes child).existing = true ∧
        (m.core.processes child).exited = false := by simpa [isLive] using halive
    exact ⟨hcall, child, hargument,
      (hinv.waits.awaited pid child (hasleep hne).1 hchild).mpr hwait, hstate.1, hstate.2, hparent⟩

/-- A process that is suspended is blocked in one of three calls. -/
theorem Settled.suspended {policy : Policy} (hsettled : Settled policy m wait)
    (hlive : m.core.isLive pid = true) (hsuspended : (m.core.processes pid).ready = false) :
    ((m.core.processes pid).inSyscall = Call.read.number → ∃ b, BlockedInRead m.core pid b) ∧
      ((m.core.processes pid).inSyscall = Call.receive.number → BlockedInReceive m.core pid) ∧
      ((m.core.processes pid).inSyscall = Call.waitpid.number → BlockedInWaitpid m.core pid) ∧
      ((∃ b, BlockedInRead m.core pid b) ∨ BlockedInReceive m.core pid ∨
        BlockedInWaitpid m.core pid) := by
  obtain ⟨hread, hreceive, hwaitpid⟩ :=
    (hsettled.sane Regs.zero).blocked hsettled.awake pid
  have hasleep : wait pid ≠ .awake := by
    intro hawake
    have hready := ((hsettled.sane Regs.zero).inv.waits.ready pid hlive).mpr hawake
    cases hsuspended.symm.trans hready
  have hblocked : (∃ b, BlockedInRead m.core pid b) ∨ BlockedInReceive m.core pid ∨
      BlockedInWaitpid m.core pid := by
    cases hwait : wait pid with
    | awake => exact absurd hwait hasleep
    | reading b => exact .inl ⟨b, hread b hwait⟩
    | receiving => exact .inr (.inl (hreceive hwait))
    | awaiting child => exact .inr (.inr (hwaitpid child hwait))
  have hnumbers : Call.read.number ≠ Call.receive.number ∧
      Call.read.number ≠ Call.waitpid.number ∧ Call.receive.number ≠ Call.waitpid.number := by
    decide
  refine ⟨?_, ?_, ?_, hblocked⟩
  · intro hcall
    rcases hblocked with h | h | h
    · exact h
    · exact absurd (hcall.symm.trans h.1) hnumbers.1
    · exact absurd (hcall.symm.trans h.1) hnumbers.2.1
  · intro hcall
    rcases hblocked with ⟨b, h⟩ | h | h
    · exact absurd (h.1.symm.trans hcall) hnumbers.1
    · exact h
    · exact absurd (hcall.symm.trans h.1) hnumbers.2.2
  · intro hcall
    rcases hblocked with ⟨b, h⟩ | h | h
    · exact absurd (h.1.symm.trans hcall) hnumbers.2.1
    · exact absurd (h.1.symm.trans hcall) hnumbers.2.2
    · exact h

/-- In every careful run without `kill`, a process that is suspended is blocked in one of
three calls, for an event that has not happened and for which it is registered. -/
theorem no_lost_wakeup (hreach : MayReach (Carefully NotKilling) image phys junk m)
    (hlive : m.core.isLive pid = true) (hsuspended : (m.core.processes pid).ready = false) :
    ((m.core.processes pid).inSyscall = Call.read.number → ∃ b, BlockedInRead m.core pid b) ∧
      ((m.core.processes pid).inSyscall = Call.receive.number → BlockedInReceive m.core pid) ∧
      ((m.core.processes pid).inSyscall = Call.waitpid.number → BlockedInWaitpid m.core pid) ∧
      ((∃ b, BlockedInRead m.core pid b) ∨ BlockedInReceive m.core pid ∨
        BlockedInWaitpid m.core pid) := by
  obtain ⟨wait, hsettled⟩ := hreach.lax fun _ _ => NotKilling.safely
  exact hsettled.suspended hlive hsuspended

theorem no_lost_wakeup_blocked : ∃ m,
    MayReach (Carefully NotKilling) bare (fun _ => 0) (fun _ _ => 0) m ∧
    m.core.isLive 2 = true ∧ (m.core.processes 2).ready = false ∧
    ((∃ b, BlockedInRead m.core 2 b) ∨ BlockedInReceive m.core 2 ∨
      BlockedInWaitpid m.core 2) := by
  obtain ⟨m, hreachable, hcore⟩ := reachable_blocked
  have hlive : m.core.isLive 2 = true := by
    rw [hcore]
    rfl
  have hsuspended : (m.core.processes 2).ready = false := by
    rw [hcore]
    rfl
  exact ⟨m, hreachable.mayReach, hlive, hsuspended,
    (no_lost_wakeup hreachable.mayReach hlive hsuspended).2.2.2⟩

/-- The length of the pipe from the keyboard is overwritten by an exit status. -/
def filledCore (core : Core) : Core :=
  { core with pipes := Function.update core.pipes 0 ((core.pipes 0).map fun pipe =>
    { pipe with len := 7 }) }

/-- A process with a pipe of that length as its standard input is not blocked in a read
of it. -/
theorem not_blockedInRead_of_filled {c : Core} {len : ℕ}
    (hfd : descriptor ((c.processes pid).savedRegs.args 0) = some 0)
    (hkind : ((c.processes pid).filedesc 0).bind (fun fh => (c.handles fh).map
      FileHandle.kind) = some (.pipeReader 0))
    (hlen : (c.pipes 0).map PipeBuffer.len = some len) (hfilled : len ≠ 0) (b : Block) :
    ¬ BlockedInRead c pid b := by
  rintro ⟨-, ⟨fd, fh, handle, hfd', hslot, hfh, hreader⟩, pipe, hpipe, hempty, -⟩
  obtain rfl : fd = 0 := Option.some_injective _ (hfd'.symm.trans hfd)
  have hpipeReader : HandleKind.pipeReader b = .pipeReader 0 := by
    simpa [hslot, hfh, hreader] using hkind
  obtain rfl : b = 0 := by simpa using hpipeReader
  have hzero : pipe.len = len := by simpa [hpipe] using hlen
  exact hfilled (hzero.symm.trans hempty)

/-- An exit status that is stored in a pipe leaves its reader suspended while there are
bytes in the pipe. -/
theorem wakeup_overwritten : ¬ ∀ m pid, MayReach NotKilling bare (fun _ => 0) (fun _ _ => 0) m →
    m.core.isLive pid = true → (m.core.processes pid).ready = false →
    (m.core.processes pid).inSyscall = Call.read.number → ∃ b, BlockedInRead m.core pid b := by
  intro hclaim
  have harrives : Arrives NotKilling bereavedCore (forkedPages + forkBound) :=
    arrives_bereaved (fun _ => trivial) (notKilling_call (by decide) _)
      (notKilling_call (by decide) _) (notKilling_call (by decide) _)
  obtain ⟨m, hreach, hcore⟩ := harrives.overwrite 3 0x110000
    (fun m _ => notKilling_call (by decide) _ m) (by decide +kernel) rfl (by decide) (by decide)
    filledCore
  have hblocked := hclaim m 2 hreach
  rw [hcore] at hblocked
  obtain ⟨b, hblocked⟩ := hblocked (by decide +kernel) (by decide +kernel) (by decide +kernel)
  exact not_blockedInRead_of_filled (by decide +kernel) rfl
    (show _ = some 7 by decide +kernel) (by decide) b hblocked

/-! ## Dead processes -/

/-- No dead process is on the ready list, and none was ever selected by
`context_switch`. -/
def OnlyLiveRun (c : Core) : Prop :=
  (∃ nodes, IsList c.prevOf c.nextOf (c.queue .ready).first (c.queue .ready).last nodes ∧
    ∀ pid ∈ nodes, c.isLive pid = true) ∧
  ∀ pid alive, .selected pid alive ∈ c.history → alive = true

/-- In every careful run with safe kills, a dead process never runs. -/
theorem dead_never_runs (hreach : MayReach (Carefully KillingSafely) image phys junk m) :
    OnlyLiveRun m.core := by
  obtain ⟨wait, hsettled⟩ := hreach.lax fun _ _ hsafely => hsafely
  obtain ⟨nodes, hlist, hmem⟩ := hsettled.listsExact .ready
  refine ⟨⟨nodes, hlist, ?_⟩, (hsettled.sane Regs.zero).inv.chosen⟩
  intro pid hpid
  exact ((hmem pid).mp hpid).1

theorem dead_never_runs_killed : ∃ m,
    MayReach (Carefully KillingSafely) bare (fun _ => 0) (fun _ _ => 0) m ∧
    (m.core.processes 2).exited = true ∧ (m.core.processes 3).exited = true ∧
    OnlyLiveRun m.core := by
  obtain ⟨m, hreachable, hcore⟩ := reachable_killed
  refine ⟨m, hreachable.mayReach, ?_, ?_, dead_never_runs hreachable.mayReach⟩
  · rw [hcore]
    decide +kernel
  · rw [hcore]
    decide +kernel

/-- The calls of a process that waits for a message. -/
def receiveRegs : Regs :=
  callRegs .receive fun i =>
    if i = 0 then BitVec.ofNat 32 (processStackBase - processStackSize) else 1

/-- The second process waits for a message. -/
def waitingCore : Core :=
  (((enterCore childCore 2 .receive).syscallReceive 2 1).toOption.map Prod.fst).getD childCore

/-- The first process runs while the second one waits for a message. -/
def receivingCore : Core :=
  { waitingCore.modify 2 fun proc => { proc with savedRegs := receiveRegs } with
    current := some 1 }.record (.selected 1 true)

theorem arrives_receiving (htimer : ∀ m, permits m (.timer Regs.zero))
    (hfork : ∀ m, permits m (.trap (callRegs .fork fun _ => 0)))
    (hreceive : ∀ m, permits m (.trap receiveRegs)) :
    Arrives permits receivingCore forkedPages := by
  refine (arrives_child htimer hfork).step (.trap receiveRegs) 1
    (fun m _ => ⟨hreceive m, orderly_call _ (by decide) (by decide)⟩) ?_
  rintro ⟨core, ps, spaces, cr3, image⟩ wait hsettled rfl hend
  have hlive : childCore.isLive 2 = true := rfl
  have hsize : messageSize ≤ processStackSize := by decide
  have hvalid := hsettled.validPointer_stack hlive hsize
  have hcore : (enterCore childCore 2 .receive).syscallReceive 2 1 =
      .ok (waitingCore, failure esuspend, none) := rfl
  have hdispatch := dispatch_receive
    (m := ⟨enterCore childCore 2 .receive, ps, spaces, cr3, image⟩) (r := receiveRegs) rfl hvalid
    hcore
  refine ⟨⟨receivingCore, ps, spaces, some (spaces 1).pdir, image⟩, ?_, rfl, hend⟩
  rw [handle_trap (m := ⟨childCore, ps, spaces, cr3, image⟩) (r := receiveRegs) 1 rfl hdispatch]
  rfl

/-- The calls that a run may consist of. -/
def runCalls : List Call :=
  [.fork, .vfork, .exit, .kill, .waitpid, .pipe, .read, .write, .close, .dup2, .send, .receive]

/-- The registers with which the second process is sent an empty message. -/
def sendRegs : Regs := callRegs .send fun i => if i = 0 then 2 else 0

/-- The kernel's data after the first process sent the second one an empty message. -/
def sentCore (core : Core) : Core :=
  (((enterCore core 1 .send).syscallSend 1 2 0 0 (.ok [])).toOption.map Prod.fst).getD core

/-- A process that is killed while it waits for a message is put on the ready list by
the next message. -/
theorem dead_process_made_ready : ¬ ∀ m, Reachable (Calling runCalls) bare (fun _ => 0)
    (fun _ _ => 0) m → OnlyLiveRun m.core := by
  intro hclaim
  have harrives : Arrives (Calling runCalls) receivingCore forkedPages :=
    arrives_receiving (fun _ => trivial) (calling_call (by decide) _) (calling_call (by decide) _)
  obtain ⟨⟨core, ps, spaces, cr3, image⟩, hreachable, hcore⟩ :=
    harrives.kill (fun m _ => calling_call (by decide) _ m) (by decide +kernel)
  simp only at hcore
  subst hcore
  have hsend : (enterCore (killedCore receivingCore) 1 .send).syscallSend 1 2 0 0 (.ok []) =
      .ok (sentCore (killedCore receivingCore), 0) := rfl
  have hdispatch := dispatch_send
    (m := ⟨enterCore (killedCore receivingCore) 1 .send, ps, spaces, cr3, image⟩) (r := sendRegs)
    rfl rfl hsend
  have hhandle := handle_success (m := ⟨killedCore receivingCore, ps, spaces, cr3, image⟩)
    (r := sendRegs) 1 rfl hdispatch (by decide) rfl
  obtain ⟨⟨nodes, hlist, hlive⟩, -⟩ := hclaim _
    (.step 1 hreachable (calling_call (by decide) _ _) hhandle)
  have hfirst : ((sentCore (killedCore receivingCore)).queue .ready).first = some 2 := by
    decide +kernel
  have hdead : (leaveCore (sentCore (killedCore receivingCore)) 1).isLive 2 = false := by
    decide +kernel
  have hmem : (2 : Pid) ∈ nodes := List.mem_of_head? (hlist.first_eq.symm.trans hfirst)
  cases hdead.symm.trans (hlive 2 hmem)

/-- The calls of `kill` are made on processes that have not exited. -/
def KillingLive (m : Machine) : Event → Prop
  | .trap r => r.eax.toNat = Call.kill.number → ∀ victim, pidArgument (r.args 0) = some victim →
      (m.core.processes victim).exited = false
  | _ => True

end Machine

end Rhythmos.Kernel
