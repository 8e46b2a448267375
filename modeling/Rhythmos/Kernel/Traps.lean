import Rhythmos.Kernel.Failures
import Rhythmos.Library.Follows

/-!
# What system calls leave alone in other processes

A system call changes the registers saved for a process, its error number and the call
noted for it only when it creates the process, and ends the life of a process only when
it kills it.  `Aloof who` relates the kernel's data before and after such a change, where
`who` is the process that is created or killed.
-/

namespace Rhythmos.Kernel

open Fallible ByteMemory Libc

/-- What a process outside the kernel relies on: its registers, its error number, the
call it is inside of, and that it is alive. -/
def Process.trapped (proc : Process) : Regs × ℤ × ℕ × Bool :=
  (proc.savedRegs, proc.lastErrno, proc.inSyscall, proc.existing && !proc.exited)

namespace Core

variable {who : Option Pid} {c c' : Core} {pid : Pid}

/-- Only the process `who` is concerned. -/
def Aloof (who : Option Pid) (c c' : Core) : Prop :=
  ∀ pid, who ≠ some pid → (c'.processes pid).trapped = (c.processes pid).trapped

instance (who : Option Pid) : IsPreorder Core (Aloof who) where
  refl _ _ _ := rfl
  trans _ _ _ hfirst hsecond pid hpid := (hsecond pid hpid).trans (hfirst pid hpid)

theorem Aloof.refl (c : Core) : Aloof who c c := fun _ _ => rfl

theorem Aloof.trans {c₁ c₂ c₃ : Core} (hfirst : Aloof who c₁ c₂) (hsecond : Aloof who c₂ c₃) :
    Aloof who c₁ c₃ :=
  fun pid hpid => (hsecond pid hpid).trans (hfirst pid hpid)

theorem Aloof.widen (haloof : Aloof none c c') (who : Option Pid) : Aloof who c c' :=
  fun pid _ => haloof pid (by simp)

/-- A change that does not concern processes. -/
theorem Aloof.of_eq (hprocesses : c'.processes = c.processes) : Aloof who c c' := by
  intro pid _
  rw [hprocesses]

/-- A change of one process. -/
theorem aloof_modify (c : Core) (pid : Pid) {change : Process → Process}
    (hchange : (change (c.processes pid)).trapped = (c.processes pid).trapped) :
    Aloof who c (c.modify pid change) := by
  intro other _
  by_cases hother : other = pid
  · subst hother
    simpa using hchange
  · simp [hother]

theorem Aloof.of_other (hother : ∀ other, other ≠ pid →
    c'.processes other = c.processes other) : Aloof (some pid) c c' := by
  intro other hwho
  rw [hother other fun h => hwho (by rw [h])]

/-- A change of the process in question. -/
theorem aloof_modify_self (c : Core) (pid : Pid) (change : Process → Process) :
    Aloof (some pid) c (c.modify pid change) := by
  refine .of_other fun other hother => ?_
  simp [hother]

/-- A change of list pointers. -/
theorem Aloof.of_unlinked (hsame : c'.unlinked = c.unlinked) : Aloof who c c' := by
  intro pid _
  have hprocess : (c'.processes pid).unlinked = (c.processes pid).unlinked :=
    congrFun (congrArg Core.processes hsame) pid
  have htrapped := congrArg Process.trapped hprocess
  exact htrapped

theorem aloof_listAdd (c : Core) (queue : Queue) (pid : Pid) :
    Aloof who c (c.listAdd queue pid) :=
  .of_unlinked (unlinked_listAdd c queue pid)

theorem aloof_listRemove (c : Core) (queue : Queue) (pid : Pid) :
    Aloof who c (c.listRemove queue pid) :=
  .of_unlinked (unlinked_listRemove c queue pid)

/-! ## Lists, pipes and handles -/

theorem aloof_resumeProcess (c : Core) (pid : Pid) :
    Follows (Aloof who) c id (c.resumeProcess pid) := by
  refine .after fun _ => .after fun _ => .ok ?_
  have hready : Aloof who c (c.modify pid fun proc => { proc with ready := true }) :=
    aloof_modify c pid rfl
  exact (hready.trans (aloof_listRemove _ .suspended pid)).trans (aloof_listAdd _ .ready pid)

theorem aloof_kmalloc (c : Core) (nbytes : ℕ) :
    Follows (Aloof who) c Prod.fst (c.kmalloc nbytes) := by
  rw [kmalloc]
  split
  · exact .ok (.of_eq rfl)
  · exact .error

theorem aloof_wakeUpReader (c : Core) (b : Block) :
    Follows (Aloof who) c id (c.wakeUpReader b) := by
  refine .after fun pipe => ?_
  split
  · exact (aloof_resumeProcess c _).finish fun _ => .of_eq rfl
  · exact .ok (.refl c)

theorem aloof_newPipe (c : Core) : Follows (Aloof who) c Prod.fst c.newPipe :=
  (aloof_kmalloc c _).bind fun _ => (aloof_kmalloc _ _).finish fun _ => .of_eq rfl

theorem aloof_makeRoom (c : Core) (pipe : PipeBuffer) (needed : ℕ) :
    Follows (Aloof who) c Prod.fst (c.makeRoom pipe needed) := by
  rw [makeRoom]
  split
  · exact .after fun alloc => (aloof_kmalloc c alloc).finish fun _ => .refl _
  · exact .ok (.refl c)

theorem aloof_writeToPipe (c : Core) (b : Block) (buf : List UInt8) :
    Follows (Aloof who) c id (c.writeToPipe b buf) := by
  refine .after fun pipe => (aloof_makeRoom c pipe _).bind ?_
  rintro ⟨c₁, pipe₁⟩
  exact (aloof_wakeUpReader _ b).congr (.of_eq rfl)

theorem aloof_checkBufferFree (c : Core) (b : Block) :
    Follows (Aloof who) c id (c.checkBufferFree b) := by
  refine .after fun pipe => ?_
  split
  · exact .after fun _ => .ok (.of_eq rfl)
  · exact .ok (.refl c)

theorem aloof_pipeWriterDestroy (c : Core) (fh b : Block) :
    Follows (Aloof who) c id (c.pipeWriterDestroy fh b) := by
  refine .after fun pipe => .after fun _ => ?_
  refine .next (aloof_wakeUpReader _ b) (.of_eq rfl) fun c₁ => ?_
  exact (aloof_checkBufferFree _ b).finish fun _ => .of_eq rfl

theorem aloof_pipeReaderDestroy (c : Core) (fh b : Block) :
    Follows (Aloof who) c id (c.pipeReaderDestroy fh b) := by
  refine .after fun pipe => .after fun _ => ?_
  exact .next (aloof_checkBufferFree _ b) (.of_eq rfl) fun _ => .ok (.of_eq rfl)

theorem aloof_newHandle (c : Core) (kind : HandleKind) :
    Follows (Aloof who) c Prod.fst (c.newHandle kind) :=
  (aloof_kmalloc c _).finish fun _ => .of_eq rfl

theorem aloof_destroy (c : Core) (fh : Block) (kind : HandleKind) :
    Follows (Aloof who) c id (c.destroy fh kind) := by
  cases kind with
  | pipeWriter b => exact aloof_pipeWriterDestroy c fh b
  | pipeReader b => exact aloof_pipeReaderDestroy c fh b
  | screen => exact .ok (.of_eq rfl)
  | file entry => exact .ok (.of_eq rfl)
  | dir entry => exact .ok (.of_eq rfl)

theorem aloof_closeFilehandle (c : Core) (fh : Block) :
    Follows (Aloof who) c id (c.closeFilehandle fh) := by
  refine .after fun handle => .after fun _ => ?_
  split
  · exact (aloof_destroy _ fh _).congr (.of_eq rfl)
  · exact .ok (.of_eq rfl)

theorem aloof_closeDescriptor (c : Core) (pid : Pid) (fd : Fd) (fh : Block) :
    Follows (Aloof who) c id (c.closeDescriptor pid fd fh) :=
  (aloof_closeFilehandle c fh).finish fun _ => .of_eq rfl

theorem aloof_retain (c : Core) (fh : Block) : Follows (Aloof who) c id (c.retain fh) :=
  .after fun _ => .ok (.of_eq rfl)

theorem aloof_setFiledesc (c : Core) (pid : Pid) (fd : Fd) (fh : Option Block) :
    Aloof who c (c.setFiledesc pid fd fh) :=
  aloof_modify c pid rfl

theorem aloof_install (c : Core) (pid : Pid) (fd : Fd) (fh : Block) :
    Aloof who c (c.install pid fd fh) :=
  (aloof_setFiledesc c pid fd (some fh)).trans (.of_eq rfl)

/-! ## System calls -/

theorem aloof_syscallClose (c : Core) (pid : Pid) (fd : Word) :
    Follows (Aloof who) c Prod.fst (c.syscallClose pid fd) := by
  rw [syscallClose]
  split
  · exact .ok (.refl c)
  · exact (aloof_closeDescriptor c pid _ _).finish fun _ => aloof_setFiledesc _ pid _ none

theorem aloof_redirect (c : Core) (pid : Pid) (fh : Block) (newfd : Fd) :
    Follows (Aloof who) c id (c.redirect pid fh newfd) := by
  rw [redirect]
  cases (c.processes pid).filedesc newfd with
  | none => exact (aloof_retain _ fh).congr (aloof_install c pid newfd fh)
  | some old =>
      exact (aloof_closeDescriptor c pid newfd old).bind fun c₁ =>
        (aloof_retain _ fh).congr (aloof_install c₁ pid newfd fh)

theorem aloof_syscallDup2 (c : Core) (pid : Pid) (oldfd newfd : Word) :
    Follows (Aloof who) c Prod.fst (c.syscallDup2 pid oldfd newfd) := by
  rw [syscallDup2]
  split
  · split
    · exact .ok (.refl c)
    · split
      · exact .ok (.refl c)
      · exact (aloof_redirect c pid _ _).finish fun _ => .refl _
  · exact .ok (.refl c)

theorem aloof_syscallPipe (c : Core) (pid : Pid) :
    Follows (Aloof who) c Prod.fst (c.syscallPipe pid) := by
  rw [syscallPipe]
  split
  · refine (aloof_newPipe c).bind ?_
    rintro ⟨c₁, b⟩
    refine (aloof_newHandle c₁ _).bind ?_
    rintro ⟨c₂, reader⟩
    refine .next (aloof_newHandle _ _) (aloof_install c₂ pid _ reader) ?_
    rintro ⟨c₃, writer⟩
    exact .ok ((aloof_install c₃ pid _ writer).trans (.of_eq rfl))
  · exact .ok (.refl c)

theorem aloof_openEntry (c : Core) (pid : Pid) (fd : Fd) (entry : DirectoryEntry) :
    Follows (Aloof who) c id (c.openEntry pid fd entry) :=
  (aloof_newHandle c _).finish fun value => aloof_install value.1 pid fd value.2

theorem aloof_writeHandle (c : Core) (fh : Block) (buf : Except Fault (List UInt8)) :
    Follows (Aloof who) c Prod.fst (c.writeHandle fh buf) := by
  refine .after fun handle => ?_
  cases handle.kind with
  | screen => exact .after fun _ => .ok (.refl c)
  | pipeWriter b => exact .after fun bytes => (aloof_writeToPipe c b bytes).finish fun _ => .refl _
  | pipeReader b => exact .ok (.refl c)
  | file entry => exact .ok (.refl c)
  | dir entry => exact .ok (.refl c)

theorem aloof_reserveMessage (c : Core) (dest : Pid) :
    Ensures anyFault (c.reserveMessage dest) fun reserved =>
      ∀ value, reserved = some value → Aloof who c value.1 := by
  rw [reserveMessage]
  split
  · have hkmalloc : Follows (Aloof who) c Prod.fst (c.kmalloc (8 * messageSize)) :=
      aloof_kmalloc c _
    refine ensures_bind hkmalloc fun value haloof => ensures_ok.mpr ?_
    rintro _ ⟨⟩
    have hsize : Aloof who value.1 (value.1.modify dest fun proc =>
        { proc with mailboxAlloc := 8, mailboxSize := 1, mailbox := some value.2 }) :=
      aloof_modify value.1 dest rfl
    exact (haloof.trans hsize).trans (.of_eq rfl)
  · split
    · refine ensures_ok.mpr ?_
      rintro _ ⟨⟩
      dsimp only
      exact aloof_modify c dest rfl
    · exact ensures_ok.mpr (by simp)

theorem aloof_wakeUpReceiver (c : Core) (dest : Pid) :
    Follows (Aloof who) c id (c.wakeUpReceiver dest) := by
  rw [wakeUpReceiver]
  split
  · exact (aloof_resumeProcess c dest).finish fun _ => aloof_modify _ dest rfl
  · exact .ok (.refl c)

theorem aloof_syscallSend (c : Core) (pid : Pid) (target tag : Word) (size : ℕ)
    (data : Except Fault (List UInt8)) :
    Follows (Aloof who) c Prod.fst (c.syscallSend pid target tag size data) := by
  rw [syscallSend]
  split
  · exact .ok (.refl c)
  · split
    · exact .ok (.refl c)
    · split
      · exact .ok (.refl c)
      · apply ensures_bind (aloof_reserveMessage c _)
        intro reserved hreserved
        cases reserved with
        | none => exact Follows.ok (.refl c)
        | some value =>
            refine Follows.congr ?_ (hreserved value rfl)
            refine .after fun bytes => ?_
            split
            · exact .next (aloof_wakeUpReceiver _ _) (.of_eq rfl) fun _ => .ok (.refl _)
            · exact ensures_error.mpr trivial

/-! ## Calls that may suspend their caller -/

/-- The caller is the only process that may stop being ready. -/
structure Calm (pid : Pid) (c c' : Core) : Prop where
  aloof : Aloof none c c'
  current : c'.current = c.current
  ready : ∀ other, other ≠ pid → (c'.processes other).ready = (c.processes other).ready

theorem Calm.refl (pid : Pid) (c : Core) : Calm pid c c := ⟨.refl c, rfl, fun _ _ => rfl⟩

theorem Calm.trans {c₁ c₂ c₃ : Core} (hfirst : Calm pid c₁ c₂) (hsecond : Calm pid c₂ c₃) :
    Calm pid c₁ c₃ where
  aloof := hfirst.aloof.trans hsecond.aloof
  current := hsecond.current.trans hfirst.current
  ready other hother := (hsecond.ready other hother).trans (hfirst.ready other hother)

theorem Calm.of_eq (hcurrent : c'.current = c.current) (hprocesses : c'.processes = c.processes) :
    Calm pid c c' := by
  refine ⟨.of_eq hprocesses, hcurrent, ?_⟩
  intro other _
  rw [hprocesses]

theorem calm_modify (c : Core) (pid target : Pid) {change : Process → Process}
    (hchange : (change (c.processes target)).trapped = (c.processes target).trapped)
    (hready : (change (c.processes target)).ready = (c.processes target).ready) :
    Calm pid c (c.modify target change) := by
  refine ⟨aloof_modify c target hchange, rfl, ?_⟩
  intro other _
  by_cases hother : other = target
  · subst hother
    simpa using hready
  · simp [hother]

/-- The caller is not ready if the result says that it was suspended. -/
def Yields (pid : Pid) (c c' : Core) (res : Word) : Prop :=
  Calm pid c c' ∧ (res = failure esuspend → (c'.processes pid).ready = false)

theorem Yields.of_calm {res : Word} (hcalm : Calm pid c c') (hres : res ≠ failure esuspend) :
    Yields pid c c' res :=
  ⟨hcalm, fun h => absurd h hres⟩

/-- The call fails at once. -/
theorem Yields.fails (pid : Pid) (c : Core) {errno : ℤ}
    (herrno : failure errno ≠ failure esuspend) : Yields pid c c (failure errno) :=
  .of_calm (.refl pid c) herrno

/-- Any fault except that the bound on nesting is exceeded, or that a loop does not end. -/
def Nested : Fault → Prop
  | .outOfFuel | .diverges => False
  | _ => True

theorem nested_check (site : AssertSite) (condition : Prop) [Decidable condition] :
    Ensures Nested (check site condition) fun _ => True := by
  rw [check]
  split
  · exact ensures_ok.mpr trivial
  · exact ensures_error.mpr trivial

theorem nested_pipe (c : Core) (b : Block) :
    Ensures Nested (c.pipe b) fun pipe => c.pipes b = some pipe := by
  rw [pipe]
  cases c.pipes b with
  | none => exact ensures_error.mpr trivial
  | some pipe => exact ensures_ok.mpr rfl

theorem nested_handle (c : Core) (fh : Block) :
    Ensures Nested (c.handle fh) fun handle => c.handles fh = some handle := by
  rw [handle]
  cases c.handles fh with
  | none => exact ensures_error.mpr trivial
  | some handle => exact ensures_ok.mpr rfl

theorem Nested.any {A : Type} {outcome : Except Fault A} {post : A → Prop}
    (hensures : Ensures Nested outcome post) : Ensures (fun _ => True) outcome post :=
  ensures_mono hensures (fun _ _ => trivial) fun _ h => h

theorem calm_suspendProcess (c : Core) (pid : Pid) :
    Ensures Nested (c.suspendProcess pid) fun c' =>
      Calm pid c c' ∧ (c'.processes pid).ready = false := by
  have hready : ∀ c' : Core, c'.unlinked =
      (c.modify pid fun proc => { proc with ready := false }).unlinked →
      Calm pid c c' ∧ (c'.processes pid).ready = false := by
    intro c' hsame
    have hflag : ∀ other, (c'.processes other).ready =
        ((c.modify pid fun proc => { proc with ready := false }).processes other).ready := by
      intro other
      have hprocess := congrArg Process.ready (congrFun (congrArg Core.processes hsame) other)
      exact hprocess
    have hcurrent := congrArg Core.current hsame
    have hmodified : Aloof none c (c.modify pid fun proc => { proc with ready := false }) :=
      aloof_modify c pid rfl
    refine ⟨⟨hmodified.trans (.of_unlinked hsame), hcurrent, ?_⟩, ?_⟩
    · intro other hother
      rw [hflag]
      simp [hother]
    · rw [hflag]
      simp
  refine ensures_bind (nested_check _ _) fun _ _ => ensures_bind (nested_check _ _) fun _ _ => ?_
  refine ensures_ok.mpr (hready _ ?_)
  rw [unlinked_listAdd, unlinked_listRemove]

theorem ofNat_ne_esuspend {n : ℕ} (hn : n + 1000 < wordCount) :
    BitVec.ofNat 32 n ≠ failure esuspend := by
  intro hsame
  have hnat := congrArg BitVec.toNat hsame
  have hvalue : (failure esuspend).toNat = 4294966296 := by decide
  rw [BitVec.toNat_ofNat, hvalue] at hnat
  simp only [wordCount] at hn
  omega

theorem yields_pipeReaderRead (hsized : c.Sized) (hcurrent : c.current = some pid) (b : Block)
    (count : ℕ) :
    Ensures Nested (c.pipeReaderRead b count) fun value =>
      Yields pid c value.1 value.2.1 := by
  apply ensures_bind (nested_pipe c b)
  intro pipe hpipe
  split
  · exact ensures_ok.mpr (.fails pid c (by decide))
  · split
    · have hsmall : (if count < pipe.len then count else pipe.len) + 1000 < wordCount := by
        obtain ⟨hlen, halloc⟩ := hsized.pipes b pipe hpipe
        have hheap : kernelMemSize + 1000 < wordCount := by decide
        split <;> omega
      exact ensures_ok.mpr (.of_calm (.of_eq rfl rfl) (ofNat_ne_esuspend hsmall))
    · split
      · exact ensures_ok.mpr (.of_calm (.of_eq rfl rfl) Machine.zero_ne)
      · have hpid : c.currentProcess = .ok pid := by rw [currentProcess, hcurrent]
        rw [hpid, ok_bind]
        refine ensures_bind (calm_suspendProcess _ pid) fun c' hsuspended => ?_
        have hset : Calm pid c (c.setPipe b (some { pipe with
            readpid := some (c.processes pid).pid })) := .of_eq rfl rfl
        exact ensures_ok.mpr ⟨hset.trans hsuspended.1, fun _ => hsuspended.2⟩

theorem yields_fileRead {fh : Block} {handle : FileHandle} {entry : DirectoryEntry}
    (hshort : entry.contents.length < 2 * mb) (count : ℕ) :
    Ensures Nested (c.fileRead fh handle entry.contents count) fun value =>
      Yields pid c value.1 value.2.1 := by
  rw [fileRead]
  split
  · exact ensures_ok.mpr (.of_calm (.refl pid c) Machine.zero_ne)
  · dsimp only
    generalize (if entry.contents.length < (handle.pos + count) % wordCount then
      entry.contents.length - handle.pos else count) = copied
    split
    · exact ensures_error.mpr trivial
    · have hsmall : copied + 1000 < wordCount := by
        simp only [mb, wordCount] at hshort ⊢
        omega
      exact ensures_ok.mpr (.of_calm (.of_eq rfl rfl) (ofNat_ne_esuspend hsmall))

theorem yields_readHandle (hsized : c.Sized) (hcurrent : c.current = some pid) (fh : Block)
    (count : ℕ) :
    Ensures Nested (c.readHandle fh count) fun value => Yields pid c value.1 value.2.1 := by
  apply ensures_bind (nested_handle c fh)
  intro handle hhandle
  cases hkind : handle.kind with
  | screen => exact ensures_ok.mpr (.fails pid c (by decide))
  | pipeWriter b => exact ensures_ok.mpr (.fails pid c (by decide))
  | pipeReader b => exact yields_pipeReaderRead hsized hcurrent b count
  | dir entry => exact ensures_ok.mpr (.fails pid c (by decide))
  | file entry => exact yields_fileRead (hsized.files fh handle entry hhandle hkind) count

theorem yields_syscallReceive (c : Core) (pid : Pid) (block : Word) :
    Ensures Nested (c.syscallReceive pid block) fun value =>
      Yields pid c value.1 value.2.1 := by
  rw [syscallReceive]
  split
  · split
    · exact ensures_error.mpr trivial
    next mailbox _ =>
      have hsize : Calm pid c (c.modify pid fun proc =>
          { proc with mailboxSize := proc.mailboxSize - 1 }) := calm_modify c pid pid rfl rfl
      exact ensures_ok.mpr (.of_calm (hsize.trans (.of_eq rfl rfl)) Machine.zero_ne)
  · split
    · refine ensures_bind (calm_suspendProcess _ pid) fun c' hsuspended => ?_
      have hblocked : Calm pid c (c.modify pid fun proc => { proc with receiveBlocked := true }) :=
        calm_modify c pid pid rfl rfl
      exact ensures_ok.mpr ⟨hblocked.trans hsuspended.1, fun _ => hsuspended.2⟩
    · exact ensures_ok.mpr (.fails pid c (by decide))

theorem pidArgument_ne_esuspend {word : Word} {target : Pid}
    (htarget : pidArgument word = some target) : word ≠ failure esuspend := by
  rintro rfl
  have hnone : pidArgument (failure esuspend) = none := by decide
  cases hnone.symm.trans htarget

theorem yields_syscallWaitpid (c : Core) (pid : Pid) (child : Word) :
    Ensures Nested (c.syscallWaitpid pid child) fun value =>
      Yields pid c value.1 value.2.1 := by
  have hwaiting : ∀ (core : Core) (waitingOn : Option Pid),
      Calm pid core (core.modify pid fun proc => { proc with waitingOn := waitingOn }) :=
    fun core _ => calm_modify core pid pid rfl rfl
  have hreaped : ∀ (core : Core) (target : Pid), (core.processes target).exited = true →
      Calm pid core (core.modify target fun proc => { proc with existing := false }) := by
    intro core target hexited
    refine calm_modify core pid target ?_ rfl
    simp [Process.trapped, hexited]
  rw [syscallWaitpid]
  split
  · exact ensures_ok.mpr (.fails pid c (by decide))
  next target htarget =>
    dsimp only
    split
    · have hchildless : failure echild ≠ failure esuspend := by decide
      exact ensures_ok.mpr (.of_calm ((hwaiting c none).trans (.of_eq rfl rfl)) hchildless)
    · split
      next hexited =>
        refine ensures_ok.mpr (.of_calm ?_ (pidArgument_ne_esuspend htarget))
        exact ((hwaiting c none).trans (hreaped _ target hexited)).trans (.of_eq rfl rfl)
      · refine ensures_bind (calm_suspendProcess _ pid) fun c' hsuspended => ?_
        have hwaits := (hwaiting c none).trans (hwaiting _ (some target))
        exact ensures_ok.mpr ⟨hwaits.trans hsuspended.1, fun _ => hsuspended.2⟩

/-! ## Creation and death -/

/-- A process that has made no system call. -/
def Untried (c : Core) (pid : Pid) : Prop :=
  (c.processes pid).lastErrno = 0 ∧ (c.processes pid).inSyscall = 0

theorem Untried.of_aloof (huntried : Untried c pid) (haloof : Aloof none c c') :
    Untried c' pid := by
  have htrapped := haloof pid (by simp)
  simp only [Process.trapped, Prod.mk.injEq] at htrapped
  exact ⟨htrapped.2.1.trans huntried.1, htrapped.2.2.1.trans huntried.2⟩

theorem Untried.modify (huntried : Untried c pid) {change : Process → Process}
    (herrno : (change (c.processes pid)).lastErrno = (c.processes pid).lastErrno)
    (hcall : (change (c.processes pid)).inSyscall = (c.processes pid).inSyscall) :
    Untried (c.modify pid change) pid := by
  refine ⟨?_, ?_⟩
  · simpa using herrno.trans huntried.1
  · simpa using hcall.trans huntried.2

theorem aloof_makeReady (c : Core) (pid : Pid) : Aloof who c (c.makeReady pid) := by
  have hready : Aloof who c (c.modify pid fun proc => { proc with ready := true }) :=
    aloof_modify c pid rfl
  exact hready.trans (aloof_listAdd _ .ready pid)

theorem aloof_inheritHandle (parent child : Pid) (c : Core) (fd : Fd) :
    Follows (Aloof who) c id (inheritHandle parent child c fd) := by
  rw [inheritHandle]
  split
  · exact (aloof_retain _ _).congr (aloof_install c child fd _)
  · exact .ok (.refl c)

theorem untried_forkProcess (c : Core) (parent child : Pid) (r : Regs) (vfork : Bool) :
    Ensures anyFault (c.forkProcess parent child r vfork) fun c' =>
      Aloof (some child) c c' ∧ Untried c' child := by
  rw [forkProcess]
  dsimp only
  -- the slot before the descriptors are inherited
  generalize hslot : ((c.reset child).modify child fun proc =>
    { proc with parentPid := some (c.processes parent).pid }).record
      (.created (some (c.processes parent).pid) child) = slot
  have hreset : Aloof (some child) c slot ∧ Untried slot child := by
    subst hslot
    refine ⟨.of_other fun other hother => ?_, ?_⟩
    · simp [reset, hother]
    · simp [Untried, reset, Process.zero]
  generalize hstart : (if vfork = true then
    slot.modify parent fun proc => { proc with waitingOn := none } else slot) = start
  have hforgets : Aloof none slot start := by
    subst hstart
    split
    · exact aloof_modify slot parent rfl
    · exact .refl slot
  have hinherits : Follows (Aloof none) start id
      ((List.finRange 16).foldlM (inheritHandle parent child) start) :=
    Follows.foldlM (aloof_inheritHandle parent child) _ start
  refine ensures_bind hinherits fun c₁ hinherited => ?_
  have hborn : Aloof (some child) c c₁ ∧ Untried c₁ child :=
    ⟨hreset.1.trans ((hforgets.trans hinherited).widen _),
      (hreset.2.of_aloof hforgets).of_aloof hinherited⟩
  generalize hregs : c₁.modify child
    (fun proc => { proc with savedRegs := { r with eax := 0 } }) = c₂
  have hframe : Aloof (some child) c c₂ ∧ Untried c₂ child := by
    subst hregs
    exact ⟨hborn.1.trans (aloof_modify_self c₁ child _), hborn.2.modify rfl rfl⟩
  have hcwd : Aloof none c₂ (if vfork = true then c₂ else
      c₂.modify child fun proc => { proc with cwd := (c₂.processes parent).cwd }) := by
    split
    · exact .refl c₂
    · exact aloof_modify c₂ child rfl
  have hready := hcwd.trans (aloof_makeReady _ child)
  exact ensures_ok.mpr ⟨hframe.1.trans (hready.widen _), hframe.2.of_aloof hready⟩

theorem untried_startProcess (c : Core) (pid : Pid) (stackEnd startAddress : Word) :
    Ensures anyFault (c.startProcess pid stackEnd startAddress) fun c' =>
      Aloof (some pid) c c' ∧ Untried c' pid := by
  have hstep : ∀ {c₁ c₂ : Core}, Aloof (some pid) c c₁ ∧ Untried c₁ pid → Aloof none c₁ c₂ →
      Aloof (some pid) c c₂ ∧ Untried c₂ pid :=
    fun hborn haloof => ⟨hborn.1.trans (haloof.widen _), hborn.2.of_aloof haloof⟩
  rw [startProcess]
  dsimp only
  generalize hslot : ((c.reset pid).modify pid fun proc =>
    { proc with parentPid := none, waitingOn := none, exitStatus := 255 }).record
      (.created none pid) = slot
  have hreset : Aloof (some pid) c slot ∧ Untried slot pid := by
    subst hslot
    refine ⟨.of_other fun other hother => ?_, ?_⟩
    · simp [reset, hother]
    · simp [Untried, reset, Process.zero]
  refine ensures_bind (@aloof_newPipe none slot) ?_
  rintro ⟨c₁, b⟩ hpipe
  refine ensures_bind (@aloof_newHandle none c₁ _) ?_
  rintro ⟨c₂, stdin⟩ hstdin
  refine ensures_bind (@aloof_newHandle none _ _) ?_
  rintro ⟨c₃, stdout⟩ hstdout
  refine ensures_bind (@aloof_newHandle none _ _) ?_
  rintro ⟨c₄, stderr⟩ hstderr
  have hinput := (hpipe.trans hstdin).trans (aloof_install c₂ pid 0 stdin)
  have houtput := (hinput.trans hstdout).trans (aloof_install c₃ pid 1 stdout)
  have herror := (houtput.trans hstderr).trans (aloof_install c₄ pid 2 stderr)
  have hopened := hstep hreset herror
  have hframe : Aloof (some pid) c ((c₄.install pid 2 stderr).modify pid fun proc =>
      { proc with cwd := [47], savedRegs := initRegs stackEnd startAddress }) ∧
      Untried ((c₄.install pid 2 stderr).modify pid fun proc =>
        { proc with cwd := [47], savedRegs := initRegs stackEnd startAddress }) pid :=
    ⟨hopened.1.trans (aloof_modify_self _ pid _), hopened.2.modify rfl rfl⟩
  exact ensures_ok.mpr (hstep hframe (aloof_makeReady _ pid))

theorem aloof_detach (c : Core) (pid : Pid) : Aloof who c (c.detach pid) := by
  refine .trans ?_ (aloof_listRemove _ _ pid)
  split
  · exact .of_eq rfl
  · exact .refl c

theorem aloof_closeHandles (c : Core) (pid : Pid) :
    Follows (Aloof who) c id (c.closeHandles pid) := by
  refine Follows.foldlM (fun c fd => ?_) _ _
  rw [closeHandleOf]
  split
  · exact aloof_closeDescriptor c pid fd _
  · exact .ok (.refl c)

theorem aloof_freeMailbox (c : Core) (pid : Pid) : Aloof who c (c.freeMailbox pid) := by
  rw [freeMailbox]
  split
  · exact .of_eq rfl
  · exact .refl c

theorem aloof_orphanChildren (c : Core) (pid : Pid) : Aloof who c (c.orphanChildren pid) := by
  intro child _
  rw [orphanChildren]
  dsimp only
  split
  · rfl
  · rfl

theorem aloof_notifyParent (c : Core) (pid : Pid) :
    Follows (Aloof (some pid)) c id (c.notifyParent pid) := by
  rw [notifyParent]
  split
  · exact .ok (aloof_modify_self c pid _)
  next parent _ =>
    split
    · have hwaiting : Aloof (some pid) c (c.modify parent fun proc =>
          { proc with waitingOn := none }) := aloof_modify c parent rfl
      exact (aloof_resumeProcess _ _).congr hwaiting
    · exact .ok (.refl c)

theorem aloof_finish (c : Core) (pid : Pid) :
    Ensures anyFault (c.finish pid) fun c' => Aloof (some pid) c c' ∧ c'.isLive pid = false := by
  refine ensures_bind ((aloof_notifyParent _ pid).congr
    ((aloof_freeMailbox c pid).trans (aloof_orphanChildren _ pid))) fun c₁ haloof => ?_
  refine ensures_ok.mpr ⟨haloof.trans (.of_other fun other hother => ?_), by simp [isLive]⟩
  simp [hother]

end Core

namespace Machine

open Rhythmos.Kernel.Core

variable {m : Machine} {pid : Pid} {r : Regs} {who : Option Pid}

/-- The kernel's data after a system call. -/
def coreAfter {A : Type} (value : Machine × A) : Core := value.1.core

/-! ## System calls on the machine -/

theorem aloof_copyOut (m : Machine) (pid : Pid) (address : ℕ) (bytes : List UInt8) :
    Follows (Aloof who) m.core Machine.core (m.copyOut pid address bytes) := by
  have hstore : Ensures anyFault (m.storeUser address bytes) fun m' => m'.core = m.core :=
    ensures_bind (ensures_any _) fun _ _ => ensures_ok.mpr rfl
  refine ensures_copyOut trivial (ensures_weaken hstore fun m' hcore => ?_)
  rw [← hcore]
  exact .of_eq rfl

theorem aloof_syscallWrite (m : Machine) (pid : Pid) (fd buf count : Word) :
    Follows (Aloof who) m.core coreAfter (m.syscallWrite pid fd buf count) := by
  rw [syscallWrite]
  split
  · exact .ok (.refl _)
  · split
    · exact .ok (.refl _)
    · exact (aloof_writeHandle m.core _ _).finish fun _ => .refl _

theorem aloof_syscallRead (hsized : m.core.Sized) (hcurrent : m.core.current = some pid)
    (fd buf count : Word) :
    Follows (Aloof none) m.core coreAfter (m.syscallRead pid fd buf count) := by
  rw [syscallRead]
  split
  · exact .ok (.refl _)
  · split
    · exact .ok (.refl _)
    · refine ensures_bind (Nested.any (yields_readHandle hsized hcurrent _ _))
        fun value hyields => ?_
      exact ((aloof_copyOut (m.setCore value.1) pid _ _).congr hyields.1.aloof).finish
        fun _ => .refl _

theorem aloof_syscallPipe (m : Machine) (pid : Pid) (filedes : Word) :
    Follows (Aloof who) m.core coreAfter (m.syscallPipe pid filedes) := by
  rw [Machine.syscallPipe]
  split
  · exact .ok (.refl _)
  · refine (Core.aloof_syscallPipe m.core pid).bind ?_
    rintro ⟨core, fds⟩
    cases fds with
    | none => exact .ok (.refl _)
    | some pair => exact (aloof_copyOut (m.setCore core) pid _ _).finish fun _ => .refl _

theorem aloof_syscallSend (m : Machine) (pid : Pid) (target tag data size : Word) :
    Follows (Aloof who) m.core coreAfter (m.syscallSend pid target tag data size) := by
  rw [Machine.syscallSend]
  split
  · exact .ok (.refl _)
  · exact (Core.aloof_syscallSend m.core pid _ _ _ _).finish fun _ => .refl _

theorem aloof_syscallReceive (m : Machine) (pid : Pid) (msg block : Word) :
    Follows (Aloof none) m.core coreAfter (m.syscallReceive pid msg block) := by
  rw [Machine.syscallReceive]
  split
  · exact .ok (.refl _)
  · refine ensures_bind (Nested.any (yields_syscallReceive m.core pid block)) ?_
    rintro ⟨core, res, message⟩ hyields
    cases message with
    | none => exact Follows.ok hyields.1.aloof
    | some message =>
        exact ((aloof_copyOut (m.setCore core) pid _ _).congr hyields.1.aloof).finish
          fun _ => .refl _

theorem aloof_syscallWaitpid (m : Machine) (pid : Pid) (child status : Word) :
    Follows (Aloof none) m.core coreAfter (m.syscallWaitpid pid child status) := by
  refine ensures_bind (Nested.any (yields_syscallWaitpid m.core pid child)) ?_
  rintro ⟨core, res, exitStatus⟩ hyields
  cases exitStatus with
  | none => exact Follows.ok hyields.1.aloof
  | some word =>
      dsimp only
      split
      · exact Follows.ok hyields.1.aloof
      · exact ((aloof_copyOut (m.setCore core) pid _ _).congr hyields.1.aloof).finish
          fun _ => .refl _

theorem aloof_syscallStat (m : Machine) (pid : Pid) (path buf : Word) :
    Follows (Aloof who) m.core coreAfter (m.syscallStat pid path buf) := by
  refine .after fun text => ?_
  cases text with
  | none => exact .ok (.refl _)
  | some text =>
      dsimp only
      split
      · exact .ok (.refl _)
      · split
        · exact .ok (.refl _)
        · exact (aloof_copyOut m pid _ _).finish fun _ => .refl _

theorem aloof_syscallOpen (m : Machine) (pid : Pid) (pathname flags : Word) :
    Follows (Aloof who) m.core coreAfter (m.syscallOpen pid pathname flags) := by
  refine .after fun text => ?_
  cases text with
  | none => exact .ok (.refl _)
  | some text =>
      dsimp only
      split
      · exact .ok (.refl _)
      · split
        · exact .ok (.refl _)
        · split
          · exact .ok (.refl _)
          · split
            · exact .ok (.refl _)
            · exact (aloof_openEntry m.core pid _ _).finish fun _ => .refl _

theorem aloof_syscallGetdent (m : Machine) (pid : Pid) (fd entry : Word) :
    Follows (Aloof who) m.core coreAfter (m.syscallGetdent pid fd entry) := by
  rw [syscallGetdent]
  split
  · exact .ok (.refl _)
  · split
    · exact .ok (.refl _)
    · refine .after fun handle => ?_
      split
      · split
        · exact .ok (.refl _)
        · exact .after fun name =>
            .next (aloof_copyOut _ pid _ _) (.of_eq rfl) fun _ => .ok (.refl _)
      · exact .ok (.refl _)

theorem aloof_syscallChdir (m : Machine) (pid : Pid) (path : Word) :
    Follows (Aloof who) m.core coreAfter (m.syscallChdir pid path) := by
  refine .after fun text => ?_
  cases text with
  | none => exact .ok (.refl _)
  | some text =>
      dsimp only
      split
      · exact .ok (.refl _)
      · split
        · exact .ok (.refl _)
        · refine .ok ?_
          simp only [coreAfter, setCore]
          exact aloof_modify m.core pid rfl

theorem aloof_syscallGetcwd (m : Machine) (pid : Pid) (buf size : Word) :
    Follows (Aloof who) m.core coreAfter (m.syscallGetcwd pid buf size) := by
  rw [syscallGetcwd]
  split
  · exact .ok (.refl _)
  · exact (aloof_copyOut m pid _ _).finish fun _ => .refl _

theorem aloof_syscallBrk (m : Machine) (pid : Pid) (endDataSegment : Word) :
    Follows (Aloof who) m.core coreAfter (m.syscallBrk pid endDataSegment) := by
  rw [syscallBrk]
  dsimp only
  split
  · exact .ok (.refl _)
  · exact .after fun _ => .ok (.refl _)

theorem core_replaceText (m : Machine) (pid : Pid) (contents : List UInt8) :
    Ensures anyFault (m.replaceText pid contents) fun m' => m'.core = m.core :=
  ensures_bind (ensures_any _) fun _ _ => ensures_bind (ensures_any _) fun _ _ =>
    ensures_bind (ensures_any _) fun _ _ => ensures_ok.mpr rfl

theorem core_storeUser (m : Machine) (address : ℕ) (bytes : List UInt8) :
    Ensures anyFault (m.storeUser address bytes) fun m' => m'.core = m.core :=
  ensures_bind (ensures_any _) fun _ _ => ensures_ok.mpr rfl

theorem aloof_syscallExecve (m : Machine) (pid : Pid) (filename argv : Word) (r : Regs) :
    Follows (Aloof who) m.core coreAfter (m.syscallExecve pid filename argv r) := by
  refine .after fun text => ?_
  cases text with
  | none => exact .ok (.refl _)
  | some path =>
      refine .after fun args => ?_
      cases args with
      | none => exact .ok (.refl _)
      | some args =>
          dsimp only
          split
          · exact .ok (.refl _)
          · split
            · exact .ok (.refl _)
            · split
              · exact .error
              · refine (aloof_kmalloc m.core _).bind ?_
                rintro ⟨core, block⟩
                refine ensures_bind (core_replaceText (m.setCore core) pid _) fun m₁ hcore₁ => ?_
                refine ensures_bind (core_storeUser m₁ _ _) fun m₂ hcore₂ => ?_
                have hcore : m₂.core = core := hcore₂.trans hcore₁
                exact ensures_ok.mpr (.of_eq (congrArg Core.processes hcore))

/-! ## Creation and death on the machine -/

theorem core_forkSpace (m : Machine) (parent child : Pid) :
    Ensures anyFault (m.forkSpace parent child) fun m' => m'.core = m.core :=
  ensures_bind (ensures_any _) fun _ _ => ensures_bind (ensures_any _) fun _ _ =>
    ensures_bind (ensures_any _) fun _ _ => ensures_bind (ensures_any _) fun _ _ =>
    ensures_bind (ensures_any _) fun _ _ => ensures_ok.mpr rfl

/-- A process was created, or there is no room for one. -/
theorem untried_syscallFork (m : Machine) (pid : Pid) (r : Regs) (vfork : Bool) :
    Ensures anyFault (m.syscallFork pid r vfork) fun value =>
      value.1 = m ∧ value.2 = failure eagain ∨
        ∃ child, m.core.getFreePid = some child ∧ value.2 = BitVec.ofNat 32 child.val ∧
          Aloof (some child) m.core value.1.core ∧ Untried value.1.core child := by
  rw [syscallFork]
  split
  · exact ensures_ok.mpr (.inl ⟨rfl, rfl⟩)
  next child hfree =>
    refine ensures_bind (core_forkSpace m pid child) fun m₁ hcore => ?_
    refine ensures_bind (untried_forkProcess m₁.core pid child r vfork) fun core hborn => ?_
    rw [hcore] at hborn
    exact ensures_ok.mpr (.inr ⟨child, hfree, rfl, hborn⟩)

theorem aloof_killProcess (m : Machine) (pid : Pid) :
    Ensures anyFault (m.killProcess pid) fun m' =>
      Aloof (some pid) m.core m'.core ∧ m'.core.isLive pid = false := by
  have hcloses : Follows (Aloof (some pid)) m.core id ((m.core.detach pid).closeHandles pid) :=
    (aloof_closeHandles _ pid).congr (aloof_detach m.core pid)
  refine ensures_bind hcloses fun core hclosed => ?_
  have hspace : Ensures anyFault ((m.setCore core).freeSpace pid) fun m' => m'.core = core :=
    ensures_bind (ensures_any _) fun _ _ => ensures_bind (ensures_any _) fun _ _ =>
      ensures_bind (ensures_any _) fun _ _ => ensures_bind (ensures_any _) fun _ _ =>
      ensures_ok.mpr rfl
  refine ensures_bind hspace fun m₁ hcore => ?_
  rw [hcore]
  refine ensures_bind (aloof_finish core pid) fun core₂ hfinished => ?_
  have hdone : Aloof (some pid) m.core core₂ ∧ core₂.isLive pid = false :=
    ⟨hclosed.trans hfinished.1, hfinished.2⟩
  split
  · exact ensures_ok.mpr hdone
  · exact ensures_bind (ensures_any _) fun _ _ => ensures_ok.mpr hdone

theorem aloof_keyboardHandler (m : Machine) (byte : UInt8) :
    Ensures anyFault (m.keyboardHandler byte) fun m' => Aloof none m.core m'.core := by
  rw [keyboardHandler]
  split
  · split
    · exact ensures_bind (aloof_writeToPipe m.core _ _) fun _ h => ensures_ok.mpr h
    · exact ensures_ok.mpr (.refl _)
  · exact ensures_ok.mpr (.refl _)

theorem aloof_syscallExit (m : Machine) (pid : Pid) (status : Word) :
    Ensures anyFault (m.syscallExit pid status) fun value =>
      Aloof (some pid) m.core value.1.core ∧ value.1.core.isLive pid = false ∧
        value.2 = failure esuspend := by
  have hstatus : Aloof (some pid) m.core (m.core.modify pid fun proc =>
      { proc with exitStatus := status }) := aloof_modify_self m.core pid _
  refine ensures_bind (aloof_killProcess _ pid) fun m₁ hkilled => ?_
  exact ensures_ok.mpr ⟨hstatus.trans hkilled.1, hkilled.2, rfl⟩

/-! ## Dispatch -/

/-- The calls that create or end processes. -/
def vitalCalls : List Call := [.exit, .fork, .vfork, .kill, .halt]

theorem aloof_keepRegs {outcome : Except Fault (Machine × Word)}
    (haloof : Follows (Aloof who) m.core coreAfter outcome) :
    Follows (Aloof who) m.core coreAfter (keepRegs r outcome) :=
  haloof.finish fun _ => .refl _

theorem aloof_dispatch (hsized : m.core.Sized) (hcurrent : m.core.current = some pid)
    (hcall : ∀ call ∈ vitalCalls, r.eax.toNat ≠ call.number) :
    Follows (Aloof none) m.core coreAfter (m.dispatch pid r) := by
  rw [dispatch]
  split
  · exact .ok (.refl _)
  next call hnumber =>
    have hvital : call ∉ vitalCalls := fun h => hcall call h (ofNumber_eq_some hnumber)
    cases call with
    | getpid => exact .ok (.refl _)
    | geterrno => exact .ok (.refl _)
    | write => exact aloof_keepRegs (aloof_syscallWrite m pid _ _ _)
    | read => exact aloof_keepRegs (aloof_syscallRead hsized hcurrent _ _ _)
    | brk => exact aloof_keepRegs (aloof_syscallBrk m pid _)
    | send => exact aloof_keepRegs (aloof_syscallSend m pid _ _ _ _)
    | receive => exact aloof_keepRegs (aloof_syscallReceive m pid _ _)
    | close => exact aloof_keepRegs ((aloof_syscallClose m.core pid _).finish fun _ => .refl _)
    | pipe => exact aloof_keepRegs (aloof_syscallPipe m pid _)
    | dup2 => exact aloof_keepRegs ((aloof_syscallDup2 m.core pid _ _).finish fun _ => .refl _)
    | execve => exact aloof_syscallExecve m pid _ _ r
    | waitpid => exact aloof_keepRegs (aloof_syscallWaitpid m pid _ _)
    | stat => exact aloof_keepRegs (aloof_syscallStat m pid _ _)
    | opn => exact aloof_keepRegs (aloof_syscallOpen m pid _ _)
    | getdent => exact aloof_keepRegs (aloof_syscallGetdent m pid _ _)
    | chdir => exact aloof_keepRegs (aloof_syscallChdir m pid _)
    | getcwd => exact aloof_keepRegs (aloof_syscallGetcwd m pid _ _)
    | _ => exact absurd (by decide) hvital

/-- The call created the process. -/
def Creates (r : Regs) (res : Word) (child : Pid) : Prop :=
  (r.eax.toNat = Call.fork.number ∨ r.eax.toNat = Call.vfork.number) ∧
    res = BitVec.ofNat 32 child.val

/-- What a system call other than `kill` does to the processes. -/
inductive Affected (m : Machine) (pid : Pid) (r : Regs) (value : Machine × Regs × Word) : Prop
  | nobody : r.eax.toNat ≠ Call.exit.number → Aloof none m.core value.1.core →
      (∀ child, ¬ Creates r value.2.2 child) → Affected m pid r value
  | created (child : Pid) : m.core.getFreePid = some child → Creates r value.2.2 child →
      Aloof (some child) m.core value.1.core → Untried value.1.core child → Affected m pid r value
  | exited : r.eax.toNat = Call.exit.number → Aloof (some pid) m.core value.1.core →
      value.1.core.isLive pid = false → value.2.2 = failure esuspend → Affected m pid r value

theorem eagain_ne (child : Pid) : failure eagain ≠ BitVec.ofNat 32 child.val := by
  revert child
  decide

theorem affected_fork (vfork : Bool)
    (hcall : r.eax.toNat = Call.fork.number ∨ r.eax.toNat = Call.vfork.number) :
    Ensures anyFault (keepRegs r (m.syscallFork pid r vfork)) (Affected m pid r) := by
  refine ensures_bind (untried_syscallFork m pid r vfork) ?_
  rintro ⟨m', res⟩ (⟨rfl, rfl⟩ | ⟨child, hfree, rfl, haloof, huntried⟩)
  · refine ensures_ok.mpr (.nobody ?_ (.refl _) fun child h => eagain_ne child h.2)
    simp only [Call.number] at hcall ⊢
    omega
  · exact ensures_ok.mpr (.created child hfree ⟨hcall, rfl⟩ haloof huntried)

theorem affected_dispatch (hsized : m.core.Sized) (hcurrent : m.core.current = some pid)
    (hkill : r.eax.toNat ≠ Call.kill.number) :
    Ensures anyFault (m.dispatch pid r) (Affected m pid r) := by
  by_cases hexit : r.eax.toNat = Call.exit.number
  · rw [dispatch, hexit]
    refine ensures_bind (aloof_syscallExit m pid _) fun value hdead => ?_
    exact ensures_ok.mpr (.exited hexit hdead.1 hdead.2.1 hdead.2.2)
  by_cases hfork : r.eax.toNat = Call.fork.number
  · rw [dispatch, hfork]
    exact affected_fork false (.inl hfork)
  by_cases hvfork : r.eax.toNat = Call.vfork.number
  · rw [dispatch, hvfork]
    exact affected_fork true (.inr hvfork)
  by_cases hhalt : r.eax.toNat = Call.halt.number
  · rw [dispatch, hhalt]
    exact ensures_error.mpr trivial
  have hvital : ∀ call ∈ vitalCalls, r.eax.toNat ≠ call.number := by
    simp only [vitalCalls, List.mem_cons, List.not_mem_nil, or_false, forall_eq_or_imp, forall_eq]
    exact ⟨hexit, hfork, hvfork, hkill, hhalt⟩
  refine ensures_weaken (aloof_dispatch hsized hcurrent hvital) fun value haloof => ?_
  exact .nobody hexit haloof fun child h => h.1.elim hfork hvfork

/-! ## The calls that suspend their caller -/

def blockingCalls : List Call := [.read, .receive, .waitpid]

/-- The number of a call that may suspend its caller. -/
def Blocking (number : ℕ) : Prop := ∃ call ∈ blockingCalls, number = call.number

theorem Yields.copyOut {core : Core} {res : Word} (hyields : Yields pid m.core core res)
    (address : ℕ) (bytes : List UInt8) :
    Ensures Nested ((m.setCore core).copyOut pid address bytes) fun m' =>
      Yields pid m.core m'.core res := by
  have hstore : Ensures Nested ((m.setCore core).storeUser address bytes)
      fun m' => m'.core = core := by
    refine ensures_bind (?_ : Ensures Nested _ fun _ => True) fun _ _ => ensures_ok.mpr rfl
    cases Paging.storeUser (m.setCore core).cr3 (m.setCore core).pages address bytes with
    | ok pages => exact ensures_ok.mpr trivial
    | error fault => exact ensures_error.mpr trivial
  refine ensures_copyOut trivial (ensures_weaken hstore fun m' hcore => ?_)
  simp only [setCore, hcore]
  exact ⟨hyields.1.trans (.of_eq rfl rfl), hyields.2⟩

theorem yields_syscallRead (hsized : m.core.Sized) (hcurrent : m.core.current = some pid)
    (fd buf count : Word) :
    Ensures Nested (m.syscallRead pid fd buf count) fun value =>
      Yields pid m.core value.1.core value.2 := by
  rw [syscallRead]
  split
  · exact ensures_ok.mpr (.fails pid _ (by decide))
  · split
    · exact ensures_ok.mpr (.fails pid _ (by decide))
    · refine ensures_bind (yields_readHandle hsized hcurrent _ _) fun value hyields => ?_
      exact ensures_bind (Yields.copyOut hyields _ _) fun m' hyields => ensures_ok.mpr hyields

theorem yields_syscallReceive (m : Machine) (pid : Pid) (msg block : Word) :
    Ensures Nested (m.syscallReceive pid msg block) fun value =>
      Yields pid m.core value.1.core value.2 := by
  rw [Machine.syscallReceive]
  split
  · exact ensures_ok.mpr (.fails pid _ (by decide))
  · refine ensures_bind (Core.yields_syscallReceive m.core pid block) ?_
    rintro ⟨core, res, message⟩ hyields
    cases message with
    | none => exact ensures_ok.mpr hyields
    | some message =>
        exact ensures_bind (Yields.copyOut hyields _ _) fun m' hyields => ensures_ok.mpr hyields

theorem yields_syscallWaitpid (m : Machine) (pid : Pid) (child status : Word) :
    Ensures Nested (m.syscallWaitpid pid child status) fun value =>
      Yields pid m.core value.1.core value.2 := by
  refine ensures_bind (Core.yields_syscallWaitpid m.core pid child) ?_
  rintro ⟨core, res, exitStatus⟩ hyields
  cases exitStatus with
  | none => exact ensures_ok.mpr hyields
  | some word =>
      dsimp only
      split
      · exact ensures_ok.mpr hyields
      · exact ensures_bind (Yields.copyOut hyields _ _) fun m' hyields => ensures_ok.mpr hyields

/-- A call that may suspend its caller concerns no other process, and leaves the registers
alone. -/
theorem yields_dispatch (hsized : m.core.Sized) (hcurrent : m.core.current = some pid)
    (hblocking : Blocking r.eax.toNat) :
    Ensures Nested (m.dispatch pid r) fun value =>
      Yields pid m.core value.1.core value.2.2 ∧ value.2.1 = r := by
  have hkeep : ∀ outcome, (Ensures Nested outcome fun value : Machine × Word =>
      Yields pid m.core value.1.core value.2) → Ensures Nested (keepRegs r outcome) fun value =>
        Yields pid m.core value.1.core value.2.2 ∧ value.2.1 = r :=
    fun outcome hyields => ensures_bind hyields fun _ h => ensures_ok.mpr ⟨h, rfl⟩
  obtain ⟨call, hcall, hnumber⟩ := hblocking
  rw [dispatch, hnumber]
  simp only [blockingCalls, List.mem_cons, List.not_mem_nil, or_false] at hcall
  rcases hcall with rfl | rfl | rfl
  · exact hkeep _ (yields_syscallRead hsized hcurrent _ _ _)
  · exact hkeep _ (yields_syscallReceive m pid _ _)
  · exact hkeep _ (yields_syscallWaitpid m pid _ _)

end Machine

end Rhythmos.Kernel
