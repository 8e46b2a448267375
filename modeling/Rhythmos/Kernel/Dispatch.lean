import Rhythmos.Kernel.Memory

/-!
# System calls on the whole machine

A policy says what is assumed about the steps of a run: which system calls are
made, and with which arguments.  Every system call that a policy allows keeps the
invariant of the machine for that policy, and fails in harmless ways only.
-/

namespace Rhythmos.Kernel

open Fallible ByteMemory Libc Paging

/-! ## Policies -/

/-- What is assumed about the steps of a run, beyond what the kernel checks. -/
structure Policy where
  /-- the numbers of the system calls that are made -/
  calls : ℕ → Prop
  /-- what is known about memory -/
  regime : Regime
  /-- no process dies while it has a child that has exited and was not awaited -/
  tended : Prop
  /-- no pointer given to `waitpid` leads into the kernel, and no message is sent to a
  process whose mailbox was released -/
  careful : Prop
  /-- the working directories -/
  cwd : List UInt8 → Prop

/-- The policy is possible with the filesystem and the kernel code of the image. -/
structure Policy.Suits (policy : Policy) (image : Image) : Prop where
  root : policy.cwd [47]
  chdir : ∀ cwd path entry, policy.cwd cwd →
    image.getDirectoryEntry (image.relativeToAbsolute cwd path) = some entry →
    entry.isDir = true → policy.cwd (image.relativeToAbsolute cwd path)
  code : ∀ pageno, policy.regime.secret pageno → ¬ pagesIn mb image.codeEnd pageno

/-- The faults of the calls that follow the policy. -/
def Policy.Tolerates (policy : Policy) (fault : Fault) : Prop :=
  Tolerable policy.regime.strict fault ∨ ¬ policy.careful ∧ fault.Overwrites

theorem Policy.tolerates_of_harmless (policy : Policy) (fault : Fault)
    (hharmless : Harmless fault) : policy.Tolerates fault := .inl (.inl hharmless)

variable {policy : Policy} {m : Machine} {r : Regs} {wait : Pid → Wait} {pid : Pid}

theorem Starved.tolerated {ps : Pages} {count : ℕ} (fault : Fault)
    (hstarved : Starved policy.regime.strict ps count fault) : policy.Tolerates fault :=
  .inl (Starved.tolerable fault hstarved)

/-! ## Calls and exit statuses -/

/-- The process without its system call and its exit status. -/
def Process.idle (proc : Process) : Process := { proc with inSyscall := 0, exitStatus := 0 }

namespace Core

/-- Changing the system call of the running process, or the exit status of a
process that has not exited. -/
theorem Inv.modify {v : View} {c : Core} (hinv : Inv v c) {change : Process → Process}
    (hsame : ∀ proc, (change proc).idle = proc.idle)
    (hstage : (change (c.processes pid)).stage = (c.processes pid).stage)
    (hawake : v.wait pid = .awake) (hcurrent : c.current = some pid) :
    Inv v (c.modify pid change) := by
  have hfield : ∀ {A : Type} (field : Process → A), (∀ proc, field proc.idle = field proc) →
      ∀ other, field ((c.modify pid change).processes other) = field (c.processes other) := by
    intro A field hidle
    apply modify_field
    intro proc
    rw [← hidle, hsame, hidle]
  have hcall : ∀ other, other ≠ pid →
      ((c.modify pid change).processes other).inSyscall = (c.processes other).inSyscall := by
    intro other hother
    simp [hother]
  have hasleep : ∀ other event, v.wait other = event → event ≠ .awake → other ≠ pid := by
    rintro other event hwait hevent rfl
    exact hevent (hwait.symm.trans hawake)
  have hexisting := hfield Process.existing fun _ => rfl
  have hmailbox := hfield Process.mailbox fun _ => rfl
  refine ⟨hinv.linked.congr (hfield Process.prev fun _ => rfl) (hfield Process.next fun _ => rfl)
    rfl, ⟨?_, hinv.slots.dying, ?_, ?_, ?_⟩, ⟨hinv.waits.awake, ?_, hinv.waits.registered, ?_, ?_,
      ?_, ?_, ?_⟩, ?_, ?_, ?_,
    ⟨hinv.mail.linear, hinv.mail.fresh, hinv.mail.unreleased, ?_, ?_, ?_, ?_⟩, ?_, hinv.chosen,
    hinv.lifecycle.lawful, ?_⟩
  · intro other hpresent
    exact (hexisting other).trans (hinv.slots.existing other hpresent)
  · intro other hother
    rw [hexisting] at hother
    exact (hfield Process.pid (fun _ => rfl) other).trans (hinv.slots.identity other hother)
  · exact (hexisting 0).trans hinv.slots.zero
  · intro other parent hother hparent
    rw [hexisting] at hother
    rw [hfield Process.parentPid fun _ => rfl] at hparent
    exact hinv.slots.parent other parent hother hparent
  · intro other halive
    rw [hfield Process.ready fun _ => rfl]
    exact hinv.waits.ready other halive
  · intro other hother
    rw [hexisting] at hother
    rw [hfield Process.receiveBlocked fun _ => rfl]
    exact hinv.waits.blocked other hother
  · intro other child halive hchild
    rw [hfield Process.waitingOn fun _ => rfl]
    exact hinv.waits.awaited other child halive hchild
  · intro other b hwait
    have hreads := hinv.waits.reading other b hwait
    rw [ReadsFrom] at hreads ⊢
    rw [hcall other (hasleep other _ hwait (by simp))]
    exact hreads
  · intro other hwait
    rw [hcall other (hasleep other _ hwait (by simp)), hfield Process.mailboxSize fun _ => rfl]
    exact hinv.waits.receiving other hwait
  · intro other child hwait
    rw [hcall other (hasleep other _ hwait (by simp)), hfield Process.parentPid fun _ => rfl]
    exact hinv.waits.awaiting other child hwait
  · exact ⟨hinv.handles.fresh, hinv.handles.resolved, hinv.handles.counted, hinv.handles.reader,
      hinv.handles.writer, hinv.handles.readerUnique, hinv.handles.writerUnique⟩
  · exact ⟨hinv.pipes.fresh, hinv.pipes.opened, hinv.pipes.input, hinv.pipes.madeReader,
      hinv.pipes.madeWriter, hinv.pipes.madeFresh, hinv.pipes.madeFreed, hinv.pipes.freedOnce,
      hinv.pipes.freedGone⟩
  · exact ⟨hinv.references.linear, hinv.references.outstanding⟩
  · intro other mailbox hpresent howns
    rw [hmailbox] at howns
    exact hinv.mail.owned other mailbox hpresent howns
  · intro other mailbox hother howns
    rw [hexisting] at hother
    rw [hmailbox] at howns
    exact hinv.mail.used other mailbox hother howns
  · intro left right mailbox hleft hright hown hown'
    rw [hexisting] at hleft hright
    rw [hmailbox] at hown hown'
    exact hinv.mail.unique left right mailbox hleft hright hown hown'
  · intro other hother hnone
    rw [hexisting] at hother
    rw [hmailbox] at hnone
    rw [hfield Process.mailboxSize fun _ => rfl]
    exact hinv.mail.empty other hother hnone
  · intro other halive hother hbusy
    have hne : other ≠ pid := by
      rintro rfl
      exact hother hcurrent
    rw [hcall other hne] at hbusy ⊢
    exact hinv.pending other halive hother hbusy
  · intro other
    by_cases hother : other = pid
    · subst hother
      simpa [hstage] using hinv.lifecycle.stages other
    · simpa [hother] using hinv.lifecycle.stages other

end Core

/-! ## Status pointers -/

/-- `waitpid` with these registers stores nothing in the memory of the kernel. -/
def StatusOutside (r : Regs) : Prop := r.args 1 = 0 ∨ meetsKernel (r.args 1).toNat 4 = false

/-- The policy permits a call with these registers, whatever the state. -/
structure Policy.Permits (policy : Policy) (r : Regs) : Prop where
  call : r.eax.toNat ≠ 0 → policy.calls r.eax.toNat
  status : policy.careful → r.eax.toNat = Call.waitpid.number → StatusOutside r

/-- The status pointers of the processes that are inside `waitpid` do not lead into the
kernel. -/
def Core.StatusesOutside (v : View) (c : Core) : Prop :=
  ∀ pid, v.alive pid = true → (c.processes pid).inSyscall = Call.waitpid.number →
    StatusOutside (v.frame pid)

/-- The statuses after a step that enters no `waitpid`. -/
theorem Core.StatusesOutside.step {v v' : View} {c c' : Core} (houtside : StatusesOutside v c)
    (hkept : ∀ pid, v'.alive pid = true → (c'.processes pid).inSyscall = Call.waitpid.number →
      v.alive pid = true ∧ (c.processes pid).inSyscall = Call.waitpid.number ∧
        v'.frame pid = v.frame pid) : StatusesOutside v' c' := by
  intro pid halive hcall
  obtain ⟨halive', hcall', hframe⟩ := hkept pid halive hcall
  rw [hframe]
  exact houtside pid halive' hcall'

/-- The status pointer of the running process. -/
theorem Core.StatusesOutside.current {c : Core}
    (houtside : StatusesOutside (viewOf c r wait) c) (hcurrent : c.current = some pid)
    (hlive : c.isLive pid = true) (hcall : (c.processes pid).inSyscall = Call.waitpid.number) :
    StatusOutside r := by
  have hstatus := houtside pid hlive hcall
  simpa [viewOf, hcurrent] using hstatus

namespace Machine

open Rhythmos.Kernel.Core

/-- The page directories of the live processes. -/
def dirs (m : Machine) (pid : Pid) : Option ℕ :=
  if m.core.isLive pid then some (m.spaces pid).pdir else none

theorem dirs_eq (hlive : m.core.isLive pid = true) : m.dirs pid = some (m.spaces pid).pdir :=
  if_pos hlive

/-- The invariant of the machine. -/
structure Sane (policy : Policy) (m : Machine) (r : Regs) (wait : Pid → Wait) : Prop where
  inv : Inv (viewOf m.core r wait) m.core
  layout : Layout policy.regime m.dirs m.spaces m.pages
  suits : policy.Suits m.image
  calls : ∀ pid, m.core.isLive pid = true → (m.core.processes pid).inSyscall ≠ 0 →
    policy.calls (m.core.processes pid).inSyscall
  cwd : ∀ pid, m.core.isLive pid = true → policy.cwd (m.core.processes pid).cwd
  tended : policy.tended → ∀ pid status, (m.core.processes pid).stage ≠ .zombie none status
  statuses : policy.careful → StatusesOutside (viewOf m.core r wait) m.core

/-- The running process is inside a system call. -/
structure InCall (policy : Policy) (m : Machine) (r : Regs) (wait : Pid → Wait) (pid : Pid) :
    Prop where
  sane : Sane policy m r wait
  current : m.core.current = some pid
  live : m.core.isLive pid = true
  awake : wait pid = .awake
  call : (m.core.processes pid).inSyscall = r.eax.toNat
  cr3 : m.cr3 = some (m.spaces pid).pdir

theorem InCall.running (hcall : InCall policy m r wait pid) : Running m.core r wait pid :=
  ⟨hcall.sane.inv, hcall.current, hcall.live, hcall.awake, hcall.call⟩

/-- The call is finished, or it was suspended and reports so, and the caller is
still alive. -/
def Resumes (policy : Policy) (m : Machine) (r : Regs) (pid : Pid) (res : Word) : Prop :=
  ∃ wait, Sane policy m r wait ∧ m.core.current = some pid ∧ m.core.isLive pid = true ∧
    m.cr3 = some (m.spaces pid).pdir ∧ (wait pid = .awake ∨ res = failure esuspend) ∧
    (res = failure esuspend →
      Repeatable r.eax.toNat ∧ (m.core.processes pid).inSyscall = r.eax.toNat)

/-- A system call is over. -/
def Returns (policy : Policy) (m : Machine) (r : Regs) (pid : Pid) (res : Word) : Prop :=
  Resumes policy m r pid res ∨
    res = failure esuspend ∧ m.core.current = none ∧ ∃ wait, Sane policy m r wait

/-- A call that changed nothing. -/
theorem InCall.unchanged (hcall : InCall policy m r wait pid) {res : Word}
    (hres : res = failure esuspend → Repeatable r.eax.toNat) : Resumes policy m r pid res :=
  ⟨wait, hcall.sane, hcall.current, hcall.live, hcall.cr3, .inl hcall.awake,
    fun h => ⟨hres h, hcall.call⟩⟩

theorem zero_ne : (0 : Word) ≠ failure esuspend := by decide

/-- A call that succeeded without doing anything. -/
theorem InCall.succeeds (hcall : InCall policy m r wait pid) : Resumes policy m r pid 0 :=
  hcall.unchanged fun h => absurd h zero_ne

/-- A call that failed. -/
theorem InCall.fails (hcall : InCall policy m r wait pid) {errno : ℤ}
    (herrno : failure errno ≠ failure esuspend) : Resumes policy m r pid (failure errno) :=
  hcall.unchanged fun h => absurd h herrno

theorem dirs_setCore {core : Core} (hlive : ∀ pid, core.isLive pid = m.core.isLive pid) :
    (m.setCore core).dirs = m.dirs := by
  funext pid
  simp only [dirs, setCore, hlive]

/-- The invariant after a steady change of the kernel's data. -/
theorem Sane.steady (hsane : Sane policy m r wait) {core : Core} {wait' : Pid → Wait}
    (hinv : Inv (viewOf core r wait') core) (hsteady : Steady m.core core) :
    Sane policy (m.setCore core) r wait' where
  inv := hinv
  layout := by
    rw [dirs_setCore hsteady.live]
    exact hsane.layout
  suits := hsane.suits
  calls pid hlive hcall := by
    simp only [setCore] at hlive hcall ⊢
    rw [hsteady.live] at hlive
    rw [hsteady.call] at hcall ⊢
    exact hsane.calls pid hlive hcall
  cwd pid hlive := by
    simp only [setCore] at hlive ⊢
    rw [hsteady.live] at hlive
    rw [hsteady.cwd]
    exact hsane.cwd pid hlive
  tended htended pid status hzombie :=
    hsane.tended htended pid status (hsteady.neglected pid status hzombie)
  statuses hcareful := by
    refine (hsane.statuses hcareful).step ?_
    intro pid halive hcall
    refine ⟨(hsteady.live pid).symm.trans halive, (hsteady.call pid).symm.trans hcall, ?_⟩
    simp only [viewOf, setCore, hsteady.current, hsteady.saved]

/-- A call on the kernel's data. -/
theorem InCall.finish (hcall : InCall policy m r wait pid) {core : Core} {res : Word}
    (hfinishes : Finishes m.core r pid core res) : Resumes policy (m.setCore core) r pid res := by
  obtain ⟨wait', hinv, hsteady, hawake, hres⟩ := hfinishes
  refine ⟨wait', hcall.sane.steady hinv hsteady, hsteady.current.trans hcall.current,
    (hsteady.live pid).trans hcall.live, hcall.cr3, hawake, fun h => ⟨hres h, ?_⟩⟩
  exact (hsteady.call pid).trans hcall.call

/-! ## User memory -/

/-- Recording a store to user memory. -/
theorem recordStored {v : View} {c : Core} (hinv : Inv v c) (caller : Pid) (address count : ℕ) :
    Inv v (c.record (.stored caller address count)) ∧
      Quiet c (c.record (.stored caller address count)) := by
  have hquiet : Quiet c (c.record (.stored caller address count)) :=
    ⟨fun _ => rfl, rfl, rfl, le_rfl, rfl, rfl⟩
  have hsame : SameEnds c (c.record (.stored caller address count)) :=
    ⟨rfl, fun _ => rfl, rfl, rfl, by simp⟩
  exact ⟨hinv.sameEnds hquiet hsame (hinv.linked.congr (fun _ => rfl) (fun _ => rfl) rfl)
    (hinv.waits.congr rfl rfl rfl), hquiet⟩

/-- New contents of user memory. -/
theorem Sane.refill (hsane : Sane policy m r wait) {ps : Pages}
    (hlayout : Layout policy.regime m.dirs m.spaces ps) :
    Sane policy { m with pages := ps } r wait :=
  ⟨hsane.inv, hlayout, hsane.suits, hsane.calls, hsane.cwd, hsane.tended, hsane.statuses⟩

/-- The result of a call is stored in user memory. -/
theorem Resumes.copyOut {res : Word} (hresumes : Resumes policy m r pid res) {address : ℕ}
    {bytes : List UInt8} (houtside : meetsKernel address bytes.length = false) :
    Ensures Harmless (m.copyOut pid address bytes) fun m' => Resumes policy m' r pid res := by
  obtain ⟨wait, hsane, hcurrent, hlive, hcr3, hawake, hres⟩ := hresumes
  refine ensures_weaken
    (copyOut_spec hsane.layout (dirs_eq hlive) hcr3 pid address bytes houtside) ?_
  rintro _ ⟨ps, rfl, hlayout, -⟩
  obtain ⟨hinv, hquiet⟩ := recordStored hsane.inv pid address bytes.length
  have hsane' : Sane policy ({ m with pages := ps }.setCore
      (m.core.record (.stored pid address bytes.length))) r wait := by
    refine (hsane.refill hlayout).steady ?_ hquiet.steady
    rw [viewOf_quiet hquiet]
    exact hinv
  exact ⟨wait, hsane', hcurrent, hlive, hcr3, hawake, hres⟩

theorem validString_spec (m : Machine) (pid : Pid) (str : Word) :
    Ensures Harmless (m.validString pid str) fun _ => True := by
  rw [validString]
  generalize 0 = len
  generalize wordCount = rounds
  induction rounds generalizing len with
  | zero => exact ensures_error.mpr trivial
  | succ rounds ih =>
      rw [validStringFrom]
      split
      · apply ensures_bind (loadUser_spec m _ 1)
        intro bytes _
        split
        · exact ensures_ok.mpr trivial
        · exact ensures_bind (ih (len + 1)) fun rest _ => ensures_ok.mpr trivial
      · exact ensures_ok.mpr trivial

/-- A buffer that was checked does not meet the memory of the kernel. -/
theorem InCall.outside (hcall : InCall policy m r wait pid) {address size count : ℕ}
    (hvalid : validPointer (m.spaces pid) address size = true) (hcount : count ≤ size) :
    meetsKernel address count = false :=
  (hcall.sane.layout.furnished pid _ (dirs_eq hcall.live)).fits.outside hvalid hcount

/-! ## Calls on descriptors -/

theorem syscallWrite_spec (hcall : InCall policy m r wait pid)
    (hnumber : r.eax.toNat = Call.write.number) (fd buf count : Word) :
    Ensures Harmless (m.syscallWrite pid fd buf count) fun result =>
      Resumes policy result.1 r pid result.2 := by
  rw [syscallWrite]
  split
  · exact ensures_ok.mpr (hcall.fails (by decide))
  · split
    · exact ensures_ok.mpr (hcall.fails (by decide))
    next fd' fh hlookup =>
      obtain ⟨-, hslot⟩ := hcall.running.lookup hlookup
      have hbuf : Ensures Harmless (m.loadUser buf.toNat count.toNat) fun _ => True :=
        ensures_weaken (loadUser_spec m _ _) fun _ _ => trivial
      apply ensures_bind
        (writeHandle_spec hcall.running (hcall.call.trans hnumber) hslot hbuf)
      rintro ⟨core, res⟩ hfinishes
      exact ensures_ok.mpr (hcall.finish hfinishes)

theorem syscallRead_spec (hcall : InCall policy m r wait pid)
    (hnumber : r.eax.toNat = Call.read.number) (buf count : Word) :
    Ensures Harmless (m.syscallRead pid (r.args 0) buf count) fun result =>
      Resumes policy result.1 r pid result.2 := by
  rw [syscallRead]
  split
  · exact ensures_ok.mpr (hcall.fails (by decide))
  next hvalid =>
    split
    · exact ensures_ok.mpr (hcall.fails (by decide))
    next fd fh hlookup =>
      obtain ⟨hfd, hslot⟩ := hcall.running.lookup hlookup
      apply ensures_bind (ensures_and
        (readHandle_spec hcall.running (hcall.call.trans hnumber) hfd hslot count.toNat)
        (length_readHandle m.core fh count.toNat))
      rintro ⟨core, res, bytes⟩ ⟨hfinishes, hlength⟩
      have houtside := hcall.outside (by simpa using hvalid) hlength
      apply ensures_bind ((hcall.finish hfinishes).copyOut houtside)
      intro m' hresumes
      exact ensures_ok.mpr hresumes

theorem syscallPipe_spec (hcall : InCall policy m r wait pid) (filedes : Word) :
    Ensures Harmless (m.syscallPipe pid filedes) fun result =>
      Resumes policy result.1 r pid result.2 := by
  rw [syscallPipe]
  split
  · exact ensures_ok.mpr (hcall.fails (by decide))
  next hvalid =>
    apply ensures_bind (Core.syscallPipe_spec hcall.running)
    rintro ⟨core, fds⟩ ⟨wait', hinv, hsteady, hawake⟩
    have hfinish : ∀ res, res ≠ failure esuspend → Resumes policy (m.setCore core) r pid res :=
      fun res hres => hcall.finish ⟨wait', hinv, hsteady, .inl hawake, fun h => absurd h hres⟩
    cases fds with
    | none => exact ensures_ok.mpr (hfinish (failure emfile) (by decide))
    | some fds =>
        have houtside := hcall.outside (by simpa using hvalid) (le_refl 8)
        apply ensures_bind ((hfinish 0 (by decide)).copyOut houtside)
        intro m' hresumes
        exact ensures_ok.mpr hresumes

/-! ## Messages and children -/

theorem syscallSend_spec (hcall : InCall policy m r wait pid) {target : Word}
    (htarget : policy.careful → Addressable m.core target) (tag data size : Word) :
    Ensures policy.Tolerates (m.syscallSend pid target tag data size) fun result =>
      Resumes policy result.1 r pid result.2 := by
  rw [syscallSend]
  split
  · exact ensures_ok.mpr (hcall.fails (by decide))
  · have hdata : Ensures Harmless (m.loadUser data.toNat size.toNat) fun _ => True :=
      ensures_weaken (loadUser_spec m _ _) fun _ _ => trivial
    refine ensures_bind (ensures_mono
      (Core.syscallSend_spec hcall.running target tag size.toNat hdata) ?_ fun _ h => h) ?_
    · rintro fault (hharmless | ⟨rfl, hreleased⟩)
      · exact policy.tolerates_of_harmless fault hharmless
      · exact .inr ⟨fun hcareful => hreleased (htarget hcareful), .inr rfl⟩
    rintro ⟨core, res⟩ hfinishes
    exact ensures_ok.mpr (hcall.finish hfinishes)

theorem length_messageBytes (message : Message) : message.bytes.length = messageSize := by
  simp only [Message.bytes, List.length_append, List.length_map, List.length_range]
  rfl

theorem syscallReceive_spec (hcall : InCall policy m r wait pid)
    (hnumber : r.eax.toNat = Call.receive.number) (msg block : Word) :
    Ensures Harmless (m.syscallReceive pid msg block) fun result =>
      Resumes policy result.1 r pid result.2 := by
  rw [syscallReceive]
  split
  · exact ensures_ok.mpr (hcall.fails (by decide))
  next hvalid =>
    apply ensures_bind
      (Core.syscallReceive_spec hcall.running (hcall.call.trans hnumber) block)
    rintro ⟨core, res, message⟩ hfinishes
    cases message with
    | none => exact ensures_ok.mpr (hcall.finish hfinishes)
    | some message =>
        have houtside := hcall.outside (by simpa using hvalid) (length_messageBytes message).le
        apply ensures_bind ((hcall.finish hfinishes).copyOut houtside)
        intro m' hresumes
        exact ensures_ok.mpr hresumes

theorem syscallWaitpid_spec (hcall : InCall policy m r wait pid)
    (hnumber : r.eax.toNat = Call.waitpid.number) :
    Ensures policy.Tolerates (m.syscallWaitpid pid (r.args 0) (r.args 1)) fun result =>
      Resumes policy result.1 r pid result.2 := by
  have hstatus : policy.careful → StatusOutside r := fun hcareful =>
    (hcall.sane.statuses hcareful).current hcall.current hcall.live (hcall.call.trans hnumber)
  rw [syscallWaitpid]
  refine ensures_bind (ensures_mono
    (Core.syscallWaitpid_spec hcall.running (hcall.call.trans hnumber))
    policy.tolerates_of_harmless fun _ h => h) ?_
  rintro ⟨core, res, exitStatus⟩ hfinishes
  cases exitStatus with
  | none => exact ensures_ok.mpr (hcall.finish hfinishes)
  | some word =>
      simp only
      split
      · exact ensures_ok.mpr (hcall.finish hfinishes)
      next hnonnull =>
        by_cases houtside : meetsKernel (r.args 1).toNat (wordBytes word).length = false
        · refine ensures_bind (ensures_mono ((hcall.finish hfinishes).copyOut houtside)
            policy.tolerates_of_harmless fun _ h => h) ?_
          intro m' hresumes
          exact ensures_ok.mpr hresumes
        · rw [Bool.not_eq_false] at houtside
          rw [copyOut, houtside, if_pos rfl]
          refine ensures_error.mpr (.inr ⟨fun hcareful => ?_, .inl rfl⟩)
          rcases hstatus hcareful with hnull | houtside'
          · exact hnonnull hnull
          · exact Bool.false_ne_true (houtside'.symm.trans houtside)

/-! ## Files -/

theorem syscallStat_spec (hcall : InCall policy m r wait pid) (path buf : Word) :
    Ensures Harmless (m.syscallStat pid path buf) fun result =>
      Resumes policy result.1 r pid result.2 := by
  rw [syscallStat]
  apply ensures_bind (validString_spec m pid path)
  rintro (_ | text) -
  · exact ensures_ok.mpr (hcall.fails (by decide))
  · simp only
    split
    · exact ensures_ok.mpr (hcall.fails (by decide))
    next hvalid =>
      split
      · exact ensures_ok.mpr (hcall.fails (by decide))
      · have houtside := hcall.outside (by simpa using hvalid) (le_refl 20)
        apply ensures_bind (hcall.succeeds.copyOut houtside)
        intro m' hresumes
        exact ensures_ok.mpr hresumes

theorem syscallOpen_spec (hcall : InCall policy m r wait pid) (pathname flags : Word) :
    Ensures Harmless (m.syscallOpen pid pathname flags) fun result =>
      Resumes policy result.1 r pid result.2 := by
  rw [syscallOpen]
  apply ensures_bind (validString_spec m pid pathname)
  rintro (_ | text) -
  · exact ensures_ok.mpr (hcall.fails (by decide))
  · simp only
    split
    · exact ensures_ok.mpr (hcall.fails (by decide))
    next fd rest hfree =>
      have hres : BitVec.ofNat 32 fd.val = failure esuspend → Repeatable r.eax.toNat := by
        refine fun h => absurd h (ne_esuspend ?_)
        have hlt := fd.isLt
        rw [BitVec.toNat_ofNat]
        omega
      split
      · exact ensures_ok.mpr (hcall.fails (by decide))
      next entry _ =>
        split
        · exact ensures_ok.mpr (hcall.fails (by decide))
        · split
          · exact ensures_ok.mpr (hcall.fails (by decide))
          · apply ensures_bind
              (openEntry_spec hcall.running (by simp [hfree]) entry hres)
            intro core hfinishes
            exact ensures_ok.mpr (hcall.finish hfinishes)

theorem syscallGetdent_spec (hcall : InCall policy m r wait pid) (fd entry : Word) :
    Ensures Harmless (m.syscallGetdent pid fd entry) fun result =>
      Resumes policy result.1 r pid result.2 := by
  rw [syscallGetdent]
  split
  · exact ensures_ok.mpr (hcall.fails (by decide))
  next hvalid =>
    split
    · exact ensures_ok.mpr (hcall.fails (by decide))
    next fd' fh hlookup =>
      obtain ⟨-, hslot⟩ := hcall.running.lookup hlookup
      obtain ⟨handle, hfh⟩ := hcall.sane.inv.handles.resolved (pid, fd') fh hslot
      simp only [Core.handle, hfh, ok_bind]
      split
      next dir hkind =>
        split
        · exact ensures_ok.mpr hcall.succeeds
        · refine ensures_bind (ensures_mono (m.image.ensures_direntName dir handle.entryno)
            (fun fault hfault => hfault ▸ trivial) fun _ h => h) fun name hname => ?_
          have hkind : ({ handle with entryno := handle.entryno + 1 } : FileHandle).kind =
              handle.kind := rfl
          obtain ⟨hinv, hquiet⟩ := hcall.sane.inv.setPosition hfh hkind rfl
          have hfinish : Resumes policy (m.setCore (m.core.setHandle fh
              (some { handle with entryno := handle.entryno + 1 }))) r pid 1 := by
            refine hcall.finish ⟨wait, (hcall.running.quiet hquiet hinv).inv, hquiet.steady,
              .inl hcall.awake, fun h => absurd h (by decide)⟩
          have hfits : (wordBytes 0 ++ name).length ≤ direntSize := by
            simp [direntSize, wordBytes]
            omega
          have houtside := hcall.outside (by simpa using hvalid) hfits
          apply ensures_bind (hfinish.copyOut houtside)
          intro m' hresumes
          exact ensures_ok.mpr hresumes
      · exact ensures_ok.mpr (hcall.fails (by decide))

theorem syscallChdir_spec (hcall : InCall policy m r wait pid) (path : Word) :
    Ensures Harmless (m.syscallChdir pid path) fun result =>
      Resumes policy result.1 r pid result.2 := by
  rw [syscallChdir]
  apply ensures_bind (validString_spec m pid path)
  rintro (_ | text) -
  · exact ensures_ok.mpr (hcall.fails (by decide))
  · simp only
    split
    · exact ensures_ok.mpr (hcall.fails (by decide))
    next entry hentry =>
      split
      · exact ensures_ok.mpr (hcall.fails (by decide))
      next hdir =>
        refine ensures_ok.mpr ?_
        have hnew := hcall.sane.suits.chdir _ text entry (hcall.sane.cwd pid hcall.live) hentry
          (by simpa using hdir)
        set newcwd := m.image.relativeToAbsolute (m.core.processes pid).cwd text with hnewcwd
        have hlive : ∀ other, (m.core.modify pid fun proc =>
            { proc with cwd := newcwd }).isLive other = m.core.isLive other :=
          modify_field m.core pid (fun proc => proc.existing && !proc.exited) fun _ => rfl
        have hview : SameView m.core (m.core.modify pid fun proc => { proc with cwd := newcwd }) :=
          ⟨hlive, modify_field m.core pid Process.filedesc fun _ => rfl,
            modify_field m.core pid Process.savedRegs fun _ => rfl, rfl⟩
        have hcalls : ∀ other, ((m.core.modify pid fun proc =>
            { proc with cwd := newcwd }).processes other).inSyscall =
              (m.core.processes other).inSyscall :=
          modify_field m.core pid Process.inSyscall fun _ => rfl
        have hstages : ∀ other, ((m.core.modify pid fun proc =>
            { proc with cwd := newcwd }).processes other).stage = (m.core.processes other).stage :=
          modify_field m.core pid Process.stage fun _ => rfl
        refine ⟨wait, ⟨?_, ?_, hcall.sane.suits, ?_, ?_, ?_, ?_⟩, hcall.current,
          (hlive pid).trans hcall.live, hcall.cr3, .inl hcall.awake, fun h => absurd h zero_ne⟩
        · simp only [setCore]
          rw [hview.viewOf]
          exact hcall.sane.inv.inert pid fun _ => rfl
        · rw [dirs_setCore hlive]
          exact hcall.sane.layout
        · intro other hother
          simp only [setCore] at hother ⊢
          rw [hlive] at hother
          rw [hcalls]
          exact hcall.sane.calls other hother
        · intro other hother
          simp only [setCore] at hother ⊢
          rw [hlive] at hother
          by_cases hsame : other = pid
          · subst hsame
            simpa using hnew
          · simpa [hsame] using hcall.sane.cwd other hother
        · intro htended other status
          simp only [setCore]
          rw [hstages]
          exact hcall.sane.tended htended other status
        · intro hcareful
          simp only [setCore]
          rw [hview.viewOf]
          exact (hcall.sane.statuses hcareful).step fun other halive hwaits =>
            ⟨halive, (hcalls other).symm.trans hwaits, rfl⟩

/-- What `getcwd` stores fits the buffer. -/
theorem length_cwdText (cwd : List UInt8) (size : ℕ) :
    (if size = 0 then [] else cwd.take (size - 1) ++ [0]).length ≤ size := by
  split
  · exact Nat.zero_le _
  · simp only [List.length_append, List.length_take, List.length_cons, List.length_nil]
    omega

theorem syscallGetcwd_spec (hcall : InCall policy m r wait pid)
    (hnumber : r.eax.toNat = Call.getcwd.number) (buf size : Word) :
    Ensures Harmless (m.syscallGetcwd pid buf size) fun result =>
      Resumes policy result.1 r pid result.2 := by
  rw [syscallGetcwd]
  split
  · exact ensures_ok.mpr hcall.succeeds
  next hvalid =>
    have hrepeats : Repeatable r.eax.toNat := by
      rw [hnumber]
      simp [Repeatable]
    have houtside := hcall.outside (by simpa using hvalid)
      (length_cwdText (m.core.processes pid).cwd size.toNat)
    apply ensures_bind ((hcall.unchanged fun _ => hrepeats).copyOut houtside)
    intro m' hresumes
    exact ensures_ok.mpr hresumes

/-! ## Memory -/

/-- The layout determines the page directories. -/
theorem dirs_of_layout {regime : Regime} {dirs : Pid → Option ℕ}
    (hlayout : Layout regime dirs m.spaces m.pages)
    (hlive : ∀ pid, m.core.isLive pid = (dirs pid).isSome) : m.dirs = dirs := by
  funext pid
  rw [Machine.dirs, hlive]
  cases hdir : dirs pid with
  | none => rfl
  | some pdir => exact congrArg some (hlayout.furnished pid pdir hdir).directory

theorem isSome_dirs (m : Machine) (pid : Pid) : (m.dirs pid).isSome = m.core.isLive pid := by
  rw [dirs]
  cases m.core.isLive pid <;> rfl

/-- The segments of a process change. -/
theorem Sane.reshape (hsane : Sane policy m r wait) {m' : Machine} {count : ℕ}
    (hreshaped : Reshaped policy.regime m.dirs m m' pid count) : Sane policy m' r wait := by
  have hcore := hreshaped.core
  refine ⟨?_, ?_, ?_, ?_, ?_, ?_, ?_⟩
  · rw [hcore]
    exact hsane.inv
  · have hdirs : m'.dirs = m.dirs := by
      apply dirs_of_layout hreshaped.layout
      intro other
      rw [hcore, isSome_dirs]
    rw [hdirs]
    exact hreshaped.layout
  · rw [hreshaped.image]
    exact hsane.suits
  · rw [hcore]
    exact hsane.calls
  · rw [hcore]
    exact hsane.cwd
  · rw [hcore]
    exact hsane.tended
  · rw [hcore]
    exact hsane.statuses

theorem InCall.reshaped (hcall : InCall policy m r wait pid) {m' : Machine} {count : ℕ}
    (hreshaped : Reshaped policy.regime m.dirs m m' pid count) : InCall policy m' r wait pid := by
  have hcore := hreshaped.core
  have hdirectory : (m'.spaces pid).pdir = (m.spaces pid).pdir :=
    (hreshaped.layout.furnished pid _ (dirs_eq hcall.live)).directory
  refine ⟨hcall.sane.reshape hreshaped, ?_, ?_, hcall.awake, ?_, ?_⟩
  · rw [hcore]
    exact hcall.current
  · rw [hcore]
    exact hcall.live
  · rw [hcore]
    exact hcall.call
  · rw [hreshaped.cr3, hdirectory]

theorem InCall.brk (hcall : InCall policy m r wait pid) (endDataSegment : Word)
    (hargument : policy.regime.strict → endDataSegment.toNat ≤ (m.spaces pid).stackStart)
    (hsecret : ∀ pageno, policy.regime.secret pageno →
      endDataSegment.toNat ≤ wordCount - pageSize) :
    Ensures policy.Tolerates (m.syscallBrk pid endDataSegment) fun result =>
      Resumes policy result.1 r pid result.2 := by
  refine ensures_mono (syscallBrk_spec hcall.sane.layout (dirs_eq hcall.live) hcall.cr3
    endDataSegment hargument hsecret) Starved.tolerated ?_
  rintro ⟨m', res⟩ ⟨hres, hreshaped⟩
  simp only at hres hreshaped ⊢
  rw [hres]
  exact (hcall.reshaped hreshaped).succeeds

/-- The registers of the running process may change, unless it is inside `waitpid`. -/
theorem Sane.reframe (hsane : Sane policy m r wait)
    (hawake : ∀ pid, m.core.current = some pid → wait pid = .awake)
    (hcall : ∀ pid, m.core.current = some pid →
      (m.core.processes pid).inSyscall ≠ Call.waitpid.number) (r' : Regs) :
    Sane policy m r' wait := by
  refine ⟨?_, hsane.layout, hsane.suits, hsane.calls, hsane.cwd, hsane.tended, ?_⟩
  · refine Inv.reframe (viewOf m.core r' wait).frame hsane.inv hawake ?_
    intro other _ hother
    simp [viewOf, hother]
  · intro hcareful
    refine (hsane.statuses hcareful).step ?_
    intro other halive hwaits
    have hother : m.core.current ≠ some other := fun hcurrent => hcall other hcurrent hwaits
    exact ⟨halive, hwaits, by simp [viewOf, hother]⟩

theorem argumentsFrom_spec (m : Machine) (pid : Pid) (argv rounds argno : ℕ) :
    Ensures Harmless (m.argumentsFrom pid argv rounds argno) fun _ => True := by
  induction rounds generalizing argno with
  | zero => exact ensures_error.mpr trivial
  | succ rounds ih =>
      rw [argumentsFrom]
      split
      · have hload : Ensures Harmless (m.loadWord (argv + argno * 4)) fun _ => True := by
          rw [loadWord]
          exact ensures_bind (loadUser_spec m _ _) fun bytes _ => ensures_ok.mpr trivial
        apply ensures_bind hload
        intro arg _
        split
        · exact ensures_ok.mpr trivial
        · apply ensures_bind (validString_spec m pid _)
          rintro (_ | string) -
          · exact ensures_ok.mpr trivial
          · exact ensures_bind (ih (argno + 1)) fun rest _ => ensures_ok.mpr trivial
      · exact ensures_ok.mpr trivial

theorem syscallExecve_spec (hcall : InCall policy m r wait pid)
    (hnumber : r.eax.toNat = Call.execve.number) (filename argv : Word) :
    Ensures policy.Tolerates (m.syscallExecve pid filename argv r) fun result =>
      Resumes policy result.1 result.2.1 pid result.2.2 := by
  rw [syscallExecve]
  refine ensures_bind (ensures_mono (validString_spec m pid filename) policy.tolerates_of_harmless
    fun _ h => h) ?_
  rintro (_ | path) -
  · exact ensures_ok.mpr (hcall.fails (by decide))
  have harguments : Ensures Harmless (m.arguments pid argv) fun _ => True := by
    rw [arguments]
    split
    · exact ensures_ok.mpr trivial
    · exact argumentsFrom_spec m pid _ _ _
  refine ensures_bind (ensures_mono harguments policy.tolerates_of_harmless fun _ h => h) ?_
  rintro (_ | args) -
  · exact ensures_ok.mpr (hcall.fails (by decide))
  simp only
  split
  · exact ensures_ok.mpr (hcall.fails (by decide))
  next entry hentry =>
    split
    · exact ensures_ok.mpr (hcall.fails (by decide))
    · split
      · exact ensures_error.mpr (policy.tolerates_of_harmless _ trivial)
      · refine ensures_bind (ensures_mono (kmalloc_spec m.core _) policy.tolerates_of_harmless
          fun _ h => h) ?_
        rintro _ rfl
        obtain ⟨hinv, hquiet⟩ := hcall.sane.inv.grow
        have hgrown : InCall policy (m.setCore { m.core with heap := m.core.heap + 1 }) r wait
            pid := by
          refine ⟨hcall.sane.steady ?_ hquiet.steady, hcall.current, hcall.live, hcall.awake,
            hcall.call, hcall.cr3⟩
          rw [viewOf_quiet hquiet]
          exact hinv
        have hsize := m.image.length_contents_lt hentry
        refine ensures_bind (ensures_mono (replaceText_spec hgrown.sane.layout
          (dirs_eq hgrown.live) hsize) Starved.tolerated fun _ h => h) ?_
        intro m₁ hreshaped
        have hcall₁ := hgrown.reshaped hreshaped
        refine ensures_bind (ensures_mono (storeUser_spec hcall₁.sane.layout (dirs_eq hcall₁.live)
          hcall₁.cr3 _ _) policy.tolerates_of_harmless fun _ h => h) ?_
        rintro _ ⟨ps, rfl, hlayout, -⟩
        have hawake : ∀ other, m₁.core.current = some other → wait other = .awake := by
          intro other hother
          obtain rfl : pid = other := by simpa using hcall₁.current.symm.trans hother
          exact hcall.awake
        have hexecve : ∀ other, m₁.core.current = some other →
            (m₁.core.processes other).inSyscall ≠ Call.waitpid.number := by
          intro other hother
          obtain rfl : pid = other := by simpa using hcall₁.current.symm.trans hother
          have hexecutes := hcall₁.call.trans hnumber
          exact fun hwaitpid => absurd (hexecutes.symm.trans hwaitpid) (by decide)
        have hsane := (hcall₁.sane.refill hlayout).reframe hawake hexecve
          (initRegs (BitVec.ofNat 32 (processStackBase - argdataSize args))
            (BitVec.ofNat 32 (m₁.spaces pid).textStart))
        exact ensures_ok.mpr ⟨wait, hsane, hcall₁.current, hcall₁.live, hcall₁.cr3,
          .inl hcall.awake, fun h => absurd h zero_ne⟩

/-! ## Creation and death -/

/-- A new process, with the memory and the working directory of another. -/
theorem Sane.create (hsane : Sane policy m r wait) {child : Pid} {m' : Machine} {pdir : ℕ}
    (hinv : Inv (viewOf m'.core r wait) m'.core) (hcreated : Created m.core m'.core child)
    (hlayout : Layout policy.regime (Function.update m.dirs child (some pdir)) m'.spaces m'.pages)
    (himage : m'.image = m.image) (hcwd : policy.cwd (m'.core.processes child).cwd) :
    Sane policy m' r wait := by
  have hother : ∀ pid, pid ≠ child → m'.core.isLive pid = m.core.isLive pid := by
    intro pid hpid
    rw [hcreated.live, Function.update_of_ne hpid]
  refine ⟨hinv, ?_, ?_, ?_, ?_, ?_, ?_⟩
  · have hdirs : m'.dirs = Function.update m.dirs child (some pdir) := by
      apply dirs_of_layout hlayout
      intro pid
      by_cases hpid : pid = child
      · subst hpid
        simp [hcreated.live]
      · rw [Function.update_of_ne hpid, isSome_dirs, hother pid hpid]
    rw [hdirs]
    exact hlayout
  · rw [himage]
    exact hsane.suits
  · intro pid hlive hcall
    by_cases hpid : pid = child
    · subst hpid
      exact absurd hcreated.idle hcall
    · rw [hother pid hpid] at hlive
      rw [hcreated.call pid hpid] at hcall ⊢
      exact hsane.calls pid hlive hcall
  · intro pid hlive
    by_cases hpid : pid = child
    · subst hpid
      exact hcwd
    · rw [hother pid hpid] at hlive
      rw [hcreated.cwd pid hpid]
      exact hsane.cwd pid hlive
  · intro htended pid status hzombie
    exact hsane.tended htended pid status (hcreated.neglected pid status hzombie)
  · intro hcareful
    refine (hsane.statuses hcareful).step ?_
    intro pid halive hwaits
    have hpid : pid ≠ child := by
      rintro rfl
      exact absurd (hcreated.idle.symm.trans hwaits) (by decide)
    refine ⟨(hother pid hpid).symm.trans halive, (hcreated.call pid hpid).symm.trans hwaits, ?_⟩
    simp only [viewOf, hcreated.current, hcreated.saved pid hpid]

theorem dirs_of_vacant (hvacant : (m.core.processes pid).existing = false) : m.dirs pid = none := by
  rw [dirs, if_neg]
  simp [isLive, hvacant]

theorem syscallFork_spec (hcall : InCall policy m r wait pid) (vfork : Bool)
    (hsecret : ∀ pageno, ¬ policy.regime.secret pageno) (hvfork : vfork = true → policy.cwd []) :
    Ensures policy.Tolerates (m.syscallFork pid r vfork) fun result =>
      Resumes policy result.1 r pid result.2 := by
  rw [syscallFork]
  split
  · exact ensures_ok.mpr (hcall.fails (by decide))
  next child hfree =>
    obtain ⟨-, hvacant⟩ := getFreePid_spec hfree
    have hne : pid ≠ child := by
      rintro rfl
      have hlive := hcall.live
      simp [isLive, hvacant] at hlive
    refine ensures_bind (ensures_mono (forkSpace_spec hcall.sane.layout (dirs_eq hcall.live)
      (dirs_of_vacant hvacant) hsecret) Starved.tolerated fun _ h => h) ?_
    rintro m₁ ⟨pdir, hspaces, hlayout, hcore, himage, hcr3, -⟩
    rw [hcore]
    refine ensures_bind (ensures_mono (forkProcess_spec hcall.running hfree vfork)
      policy.tolerates_of_harmless fun _ h => h) ?_
    rintro core ⟨hinv, hcreated, hcwd⟩
    refine ensures_ok.mpr ⟨wait, ?_, ?_, ?_, ?_, .inl hcall.awake, ?_⟩
    · refine hcall.sane.create hinv hcreated hlayout himage ?_
      simp only [setCore]
      rw [hcwd]
      split
      next h => exact hvfork h
      next => exact hcall.sane.cwd pid hcall.live
    · exact hcreated.current.trans hcall.current
    · simp only [setCore]
      rw [hcreated.live, Function.update_of_ne hne]
      exact hcall.live
    · simp only [setCore]
      rw [hcr3, hspaces, Function.update_of_ne hne]
    · intro h
      refine absurd h (ne_esuspend ?_)
      have hlt := child.isLt
      rw [BitVec.toNat_ofNat]
      omega

/-- Nothing that has exited waits for the process `parent`. -/
def Tends (c : Core) (parent : Pid) : Prop :=
  ∀ child status, (c.processes child).stage ≠ .zombie (some parent) status

theorem killProcess_spec (hsane : Sane policy m r wait) (hcurrent : m.core.current = some pid)
    (hlive : m.core.isLive pid = true) (hawake : wait pid = .awake) {victim : Pid}
    (hkillable : Killable (viewOf m.core r wait) victim)
    (htends : policy.tended → Tends m.core victim) :
    Ensures Harmless (m.killProcess victim) fun m' => ∃ wait', Sane policy m' r wait' ∧
      (victim = pid ∧ m'.core.current = none ∨
        victim ≠ pid ∧ m'.core.current = some pid ∧ m'.core.isLive pid = true ∧
          wait' pid = .awake ∧ m'.cr3 = some (m'.spaces pid).pdir ∧
          (m'.core.processes pid).inSyscall = (m.core.processes pid).inSyscall) := by
  have hvictim : m.core.isLive victim = true := hkillable.alive
  rw [killProcess]
  apply ensures_bind (dismantle_spec hsane.inv hkillable (by
    intro other hother
    obtain rfl : pid = other := by simpa using hcurrent.symm.trans hother
    exact hawake))
  intro core₁ hdismantled
  obtain ⟨ps, hfree, hlayout, -⟩ :=
    freeSpace_spec (m := m.setCore core₁) hsane.layout (dirs_eq hvictim)
  obtain ⟨core₂, wait', hfinish, hinv, hended, hstays⟩ := hdismantled.finish
  simp only [setCore] at hfree
  simp only [setCore, hfree, ok_bind, hfinish]
  have hother : ∀ other, other ≠ victim → core₂.isLive other = m.core.isLive other := by
    intro other hne
    rw [hended.live, Function.update_of_ne hne]
  have hdead : core₂.isLive victim = false := by simp [hended.live]
  have hsane' : ∀ cr3, Sane policy
      { m with core := core₂, pages := ps, cr3 := cr3 } r wait' := by
    intro cr3
    refine ⟨hinv, ?_, hsane.suits, ?_, ?_, ?_, ?_⟩
    · have hdirs : Machine.dirs { m with core := core₂, pages := ps, cr3 := cr3 } =
          Function.update m.dirs victim none := by
        refine dirs_of_layout (m := { m with core := core₂, pages := ps, cr3 := cr3 }) hlayout ?_
        intro other
        by_cases hne : other = victim
        · subst hne
          simp [hdead]
        · rw [Function.update_of_ne hne, isSome_dirs]
          exact hother other hne
      rw [hdirs]
      exact hlayout
    · intro other hlive' hcall
      simp only at hlive' hcall ⊢
      have hne : other ≠ victim := by
        rintro rfl
        cases hdead.symm.trans hlive'
      rw [hother other hne] at hlive'
      rw [hended.call] at hcall ⊢
      exact hsane.calls other hlive' hcall
    · intro other hlive'
      simp only at hlive' ⊢
      have hne : other ≠ victim := by
        rintro rfl
        cases hdead.symm.trans hlive'
      rw [hother other hne] at hlive'
      rw [hended.cwd]
      exact hsane.cwd other hlive'
    · intro htended child status hzombie
      rcases hended.neglected child status hzombie with hold | hnew
      · exact hsane.tended htended child status hold
      · exact htends htended child status hnew
    · intro hcareful
      refine (hsane.statuses hcareful).step ?_
      intro other halive hwaits
      have hne : other ≠ victim := by
        rintro rfl
        cases hdead.symm.trans halive
      refine ⟨(hother other hne).symm.trans halive, (hended.call other).symm.trans hwaits, ?_⟩
      have hsame : core₂.current = some other ↔ m.core.current = some other := by
        rw [hended.current]
        split
        next hvictim => simp [hvictim, Ne.symm hne]
        next => rfl
      simp only [viewOf, hsame, hended.saved]
  rw [hcurrent]
  by_cases hself : victim = pid
  · subst hself
    rw [if_pos rfl]
    refine ensures_ok.mpr ⟨wait', hsane' none, .inl ⟨rfl, ?_⟩⟩
    simp only
    rw [hended.current, if_pos hcurrent]
  · have hpid : core₂.current = some pid := by
      rw [hended.current, hcurrent, if_neg]
      simpa using Ne.symm hself
    rw [if_neg (by simpa using Ne.symm hself)]
    simp only [currentProcess, hpid, ok_bind]
    refine ensures_ok.mpr ⟨wait', hsane' _, .inr ⟨hself, hpid, ?_, hstays pid hawake, rfl, ?_⟩⟩
    · exact (hother pid (Ne.symm hself)).trans hlive
    · exact hended.call pid

/-- A process that does not wait can be killed. -/
theorem killable_of_awake {c : Core} (hlive : c.isLive pid = true) (hawake : wait pid = .awake) :
    Killable (viewOf c r wait) pid := by
  refine ⟨hlive, rfl, ?_, ?_⟩
  · intro b hwait
    cases hawake.symm.trans hwait
  · intro hwait
    cases hawake.symm.trans hwait

theorem syscallExit_spec (hcall : InCall policy m r wait pid) (status : Word)
    (htends : policy.tended → Tends m.core pid) :
    Ensures Harmless (m.syscallExit pid status) fun result =>
      Returns policy result.1 r pid result.2 := by
  have hlive' : (m.core.processes pid).existing = true ∧ (m.core.processes pid).exited = false := by
    simpa [isLive] using hcall.live
  have hstage : ({ m.core.processes pid with exitStatus := status } : Process).stage =
      (m.core.processes pid).stage := by
    simp [Process.stage, hlive'.1, hlive'.2]
  have hstages : ∀ other, ((m.core.modify pid fun proc =>
      { proc with exitStatus := status }).processes other).stage =
        (m.core.processes other).stage := by
    intro other
    by_cases hother : other = pid
    · subst hother
      simpa using hstage
    · simp [hother]
  have hinv : Inv (viewOf m.core r wait) (m.core.modify pid fun proc =>
      { proc with exitStatus := status }) :=
    hcall.sane.inv.modify (fun _ => rfl) hstage hcall.awake hcall.current
  have hview : SameView m.core (m.core.modify pid fun proc => { proc with exitStatus := status }) :=
    ⟨modify_field m.core pid (fun proc => proc.existing && !proc.exited) fun _ => rfl,
      modify_field m.core pid Process.filedesc fun _ => rfl,
      modify_field m.core pid Process.savedRegs fun _ => rfl, rfl⟩
  have hsteady : Steady m.core (m.core.modify pid fun proc => { proc with exitStatus := status }) :=
    ⟨rfl, hview.live, modify_field m.core pid Process.inSyscall fun _ => rfl,
      modify_field m.core pid Process.savedRegs fun _ => rfl,
      modify_field m.core pid Process.cwd fun _ => rfl, fun other s h => by rwa [hstages] at h⟩
  have hsane : Sane policy (m.setCore (m.core.modify pid fun proc =>
      { proc with exitStatus := status })) r wait := by
    refine hcall.sane.steady ?_ hsteady
    rw [hview.viewOf]
    exact hinv
  have hlive : (m.core.modify pid fun proc => { proc with exitStatus := status }).isLive pid =
      true := (hview.live pid).trans hcall.live
  rw [syscallExit]
  apply ensures_bind (killProcess_spec hsane hcall.current hlive hcall.awake
    (killable_of_awake hlive hcall.awake) (by
      intro htended child s
      simp only [setCore]
      rw [hstages]
      exact htends htended child s))
  rintro m' ⟨wait', hsane', hdead | ⟨hne, -⟩⟩
  · exact ensures_ok.mpr (.inr ⟨rfl, hdead.2, wait', hsane'⟩)
  · exact absurd rfl hne

/-- The target of `syscall_kill` can be killed: it does not exist, or it is alive and
not registered as the reader of a pipe or as a receiver. -/
def SafeKill (c : Core) (target : Word) : Prop :=
  ∀ victim, pidArgument target = some victim → (c.processes victim).existing = true →
    (c.processes victim).exited = false ∧ (c.processes victim).receiveBlocked = false ∧
      ∀ b pipe, c.pipes b = some pipe → pipe.readpid ≠ some victim

theorem SafeKill.killable {target : Word} (hsafe : SafeKill m.core target)
    (hsane : Sane policy m r wait) {victim : Pid} (hvictim : pidArgument target = some victim)
    (hexisting : (m.core.processes victim).existing = true) :
    Killable (viewOf m.core r wait) victim := by
  obtain ⟨hexited, hblocked, hreaders⟩ := hsafe victim hvictim hexisting
  refine ⟨?_, rfl, ?_, ?_⟩
  · simp [viewOf, isLive, hexisting, hexited]
  · intro b hwait
    obtain ⟨-, pipe, hpipe, -⟩ := hsane.inv.waits.reading victim b hwait
    exact hreaders b pipe hpipe ((hsane.inv.waits.registered b pipe victim hpipe).mpr hwait)
  · intro hwait
    have := (hsane.inv.waits.blocked victim hexisting).mpr hwait
    cases hblocked.symm.trans this

theorem syscallKill_spec (hcall : InCall policy m r wait pid) (target : Word)
    (hsafe : SafeKill m.core target)
    (htends : policy.tended → ∀ victim, pidArgument target = some victim →
      (m.core.processes victim).existing = true → Tends m.core victim) :
    Ensures Harmless (m.syscallKill pid target) fun result =>
      Returns policy result.1 r pid result.2 := by
  rw [syscallKill]
  split
  · exact ensures_ok.mpr (.inl (hcall.fails (by decide)))
  next victim hvictim =>
    split
    · exact ensures_ok.mpr (.inl (hcall.fails (by decide)))
    next hexists =>
      have hexisting : (m.core.processes victim).existing = true := by simpa using hexists
      have hidentity : (m.core.processes pid).pid = pid := by
        have hlive := hcall.live
        simp only [isLive, Bool.and_eq_true] at hlive
        exact hcall.sane.inv.slots.identity pid hlive.1
      apply ensures_bind (killProcess_spec hcall.sane hcall.current hcall.live hcall.awake
        (hsafe.killable hcall.sane hvictim hexisting)
        fun htended => htends htended victim hvictim hexisting)
      rintro m' ⟨wait', hsane, ⟨hself, hnone⟩ | ⟨hne, hcurrent, hlive, hawake, hcr3, hsyscall⟩⟩
      · refine ensures_ok.mpr (.inr ⟨?_, hnone, wait', hsane⟩)
        simp [hidentity, hself]
      · refine ensures_ok.mpr (.inl ⟨wait', hsane, hcurrent, hlive, hcr3, .inl hawake, ?_⟩)
        simp only [hidentity, hne, if_false]
        exact fun h => absurd h zero_ne

/-! ## Dispatch -/

/-- The system call with registers `r` of the process `pid` follows the policy. -/
structure CallAllowed (policy : Policy) (m : Machine) (pid : Pid) (r : Regs) : Prop where
  kill : r.eax.toNat = Call.kill.number → SafeKill m.core (r.args 0) ∧
    (policy.tended → ∀ victim, pidArgument (r.args 0) = some victim →
      (m.core.processes victim).existing = true → Tends m.core victim)
  exit : r.eax.toNat = Call.exit.number → policy.tended → Tends m.core pid
  brk : r.eax.toNat = Call.brk.number →
    (policy.regime.strict → (r.args 0).toNat ≤ (m.spaces pid).stackStart) ∧
      ∀ pageno, policy.regime.secret pageno → (r.args 0).toNat ≤ wordCount - pageSize
  fork : r.eax.toNat = Call.fork.number ∨ r.eax.toNat = Call.vfork.number →
    ∀ pageno, ¬ policy.regime.secret pageno
  vfork : r.eax.toNat = Call.vfork.number → policy.cwd []
  send : r.eax.toNat = Call.send.number → policy.careful → Addressable m.core (r.args 0)

/-- Calls that are repeated need no further assumption. -/
theorem CallAllowed.of_repeatable (hrepeatable : Repeatable r.eax.toNat) :
    CallAllowed policy m pid r := by
  have hcases : r.eax.toNat = 3 ∨ r.eax.toNat = 4 ∨ r.eax.toNat = 5 ∨ r.eax.toNat = 8 ∨
      r.eax.toNat = 14 ∨ r.eax.toNat = 19 := by
    simp only [Repeatable, List.mem_cons, List.not_mem_nil, or_false, Call.number] at hrepeatable
    omega
  constructor
  all_goals
    intro hnumber
    simp only [Call.number] at hnumber
    omega

theorem ofNumber_eq_some {number : ℕ} {call : Call} (hcall : Call.ofNumber number = some call) :
    number = call.number := by
  have hfound := List.find?_some hcall
  simpa [eq_comm] using hfound

theorem keepRegs_spec {allowed : Fault → Prop} {outcome : Except Fault (Machine × Word)}
    (houtcome : Ensures allowed outcome fun result => Returns policy result.1 r pid result.2) :
    Ensures allowed (keepRegs r outcome) fun result =>
      Returns policy result.1 result.2.1 pid result.2.2 := by
  rw [keepRegs]
  apply ensures_bind houtcome
  rintro ⟨m', res⟩ hreturns
  exact ensures_ok.mpr hreturns

/-- A call that leaves the registers alone and returns to its caller. -/
theorem keepRegs_resumes {allowed : Fault → Prop} {outcome : Except Fault (Machine × Word)}
    (houtcome : Ensures allowed outcome fun result => Resumes policy result.1 r pid result.2) :
    Ensures allowed (keepRegs r outcome) fun result =>
      Resumes policy result.1 result.2.1 pid result.2.2 :=
  ensures_bind houtcome fun _ hresumes => ensures_ok.mpr hresumes

/-- A call that neither kills nor uses memory of its own. -/
theorem keepRegs_harmless {outcome : Except Fault (Machine × Word)}
    (houtcome : Ensures Harmless outcome fun result => Resumes policy result.1 r pid result.2) :
    Ensures policy.Tolerates (keepRegs r outcome) fun result =>
      Resumes policy result.1 result.2.1 pid result.2.2 :=
  keepRegs_resumes (ensures_mono houtcome policy.tolerates_of_harmless fun _ h => h)

/-- The calls other than `exit` and `kill` return to their caller. -/
theorem dispatch_resumes (hcall : InCall policy m r wait pid)
    (hallowed : CallAllowed policy m pid r) (hexit : r.eax.toNat ≠ Call.exit.number)
    (hkill : r.eax.toNat ≠ Call.kill.number) :
    Ensures policy.Tolerates (m.dispatch pid r) fun result =>
      Resumes policy result.1 result.2.1 pid result.2.2 := by
  rw [dispatch]
  split
  · exact ensures_ok.mpr (hcall.fails (by decide))
  next call hfound =>
    have hnumber := ofNumber_eq_some hfound
    cases call with
    | getpid =>
        refine ensures_ok.mpr (hcall.unchanged fun h => absurd h (ne_esuspend ?_))
        have hlt := (m.core.processes pid).pid.isLt
        rw [BitVec.toNat_ofNat]
        omega
    | exit => exact absurd hnumber hexit
    | write => exact keepRegs_harmless (syscallWrite_spec hcall hnumber _ _ _)
    | read => exact keepRegs_harmless (syscallRead_spec hcall hnumber _ _)
    | geterrno =>
        refine ensures_ok.mpr (hcall.unchanged fun _ => ?_)
        rw [hnumber]
        simp [Repeatable]
    | brk =>
        obtain ⟨hargument, hsecret⟩ := hallowed.brk hnumber
        exact keepRegs_resumes (hcall.brk _ hargument hsecret)
    | send => exact keepRegs_resumes (syscallSend_spec hcall (hallowed.send hnumber) _ _ _)
    | receive => exact keepRegs_harmless (syscallReceive_spec hcall hnumber _ _)
    | close =>
        refine keepRegs_harmless (ensures_bind (syscallClose_spec hcall.running _) ?_)
        rintro ⟨core, res⟩ hfinishes
        exact ensures_ok.mpr (hcall.finish hfinishes)
    | pipe => exact keepRegs_harmless (syscallPipe_spec hcall _)
    | dup2 =>
        refine keepRegs_harmless (ensures_bind (syscallDup2_spec hcall.running _ _) ?_)
        rintro ⟨core, res⟩ hfinishes
        exact ensures_ok.mpr (hcall.finish hfinishes)
    | fork =>
        refine keepRegs_resumes (syscallFork_spec hcall false (hallowed.fork (.inl hnumber)) ?_)
        exact fun h => by cases h
    | execve => exact syscallExecve_spec hcall hnumber _ _
    | waitpid => exact keepRegs_resumes (syscallWaitpid_spec hcall hnumber)
    | stat => exact keepRegs_harmless (syscallStat_spec hcall _ _)
    | opn => exact keepRegs_harmless (syscallOpen_spec hcall _ _)
    | getdent => exact keepRegs_harmless (syscallGetdent_spec hcall _ _)
    | chdir => exact keepRegs_harmless (syscallChdir_spec hcall _)
    | getcwd => exact keepRegs_harmless (syscallGetcwd_spec hcall hnumber _ _)
    | kill => exact absurd hnumber hkill
    | halt => exact ensures_error.mpr (policy.tolerates_of_harmless _ trivial)
    | vfork =>
        exact keepRegs_resumes (syscallFork_spec hcall true (hallowed.fork (.inr hnumber))
          fun _ => hallowed.vfork hnumber)

theorem dispatch_spec (hcall : InCall policy m r wait pid) (hallowed : CallAllowed policy m pid r) :
    Ensures policy.Tolerates (m.dispatch pid r) fun result =>
      Returns policy result.1 result.2.1 pid result.2.2 := by
  by_cases hexit : r.eax.toNat = Call.exit.number
  · rw [dispatch, hexit]
    exact keepRegs_spec (ensures_mono (syscallExit_spec hcall (r.args 0) (hallowed.exit hexit))
      policy.tolerates_of_harmless fun _ h => h)
  · by_cases hkill : r.eax.toNat = Call.kill.number
    · obtain ⟨hsafe, htends⟩ := hallowed.kill hkill
      rw [dispatch, hkill]
      exact keepRegs_spec (ensures_mono (syscallKill_spec hcall (r.args 0) hsafe htends)
        policy.tolerates_of_harmless fun _ h => h)
    · exact ensures_weaken (dispatch_resumes hcall hallowed hexit hkill) fun _ => .inl

end Machine

end Rhythmos.Kernel
