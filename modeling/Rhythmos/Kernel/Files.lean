import Rhythmos.Kernel.Opening

/-!
# System calls on descriptors

Between two steps of the kernel the view of the state is determined by the state
itself and the registers of the running process.  The system calls on
descriptors keep the invariant for this view.
-/

namespace Rhythmos.Kernel

open Fallible Ledger RefCount ByteMemory Libc

namespace Core

/-- The view of a state in which no process is being killed: `r` are the
registers of the running process. -/
def viewOf (c : Core) (r : Regs) (wait : Pid → Wait) : View where
  alive := c.isLive
  dying := none
  table := fun slot =>
    if c.isLive slot.1 then (c.processes slot.1).filedesc slot.2 else none
  frame := fun pid => if c.current = some pid then r else (c.processes pid).savedRegs
  wait := wait

/-- The states have the same view, up to what the processes wait for. -/
structure SameView (c c' : Core) : Prop where
  live : ∀ pid, c'.isLive pid = c.isLive pid
  filedesc : ∀ pid, (c'.processes pid).filedesc = (c.processes pid).filedesc
  savedRegs : ∀ pid, (c'.processes pid).savedRegs = (c.processes pid).savedRegs
  current : c'.current = c.current

theorem SameView.viewOf {c c' : Core} (hsame : SameView c c') (r : Regs) (wait : Pid → Wait) :
    viewOf c' r wait = viewOf c r wait := by
  have hlive : c'.isLive = c.isLive := funext hsame.live
  simp only [Core.viewOf, hlive, hsame.filedesc, hsame.current, hsame.savedRegs]

/-- List pointers do not matter. -/
theorem SameView.of_unlinked {c d c' : Core} (hview : SameView c d)
    (hsame : c'.unlinked = d.unlinked) : SameView c c' where
  live pid := by
    have hlive : c'.isLive pid = d.isLive pid := congrArg (fun core => core.isLive pid) hsame
    exact hlive.trans (hview.live pid)
  filedesc pid := by
    have hfiledesc : (c'.processes pid).filedesc = (d.processes pid).filedesc :=
      congrArg (fun core => (core.processes pid).filedesc) hsame
    exact hfiledesc.trans (hview.filedesc pid)
  savedRegs pid := by
    have hsaved : (c'.processes pid).savedRegs = (d.processes pid).savedRegs :=
      congrArg (fun core => (core.processes pid).savedRegs) hsame
    exact hsaved.trans (hview.savedRegs pid)
  current := by
    have hcurrent : c'.unlinked.current = d.unlinked.current := congrArg Core.current hsame
    exact hcurrent.trans hview.current

theorem viewOf_quiet {c c' : Core} (hquiet : Quiet c c') (r : Regs) (wait : Pid → Wait) :
    viewOf c' r wait = viewOf c r wait := by
  have hsame : SameView c c' :=
    ⟨hquiet.isLive, hquiet.filedesc, fun pid => hquiet.field pid Process.savedRegs fun _ => rfl,
      hquiet.current⟩
  exact hsame.viewOf r wait

theorem viewOf_setFiledesc {c : Core} {pid : Pid} (hlive : c.isLive pid = true) (fd : Fd)
    (value : Option Block) (r : Regs) (wait : Pid → Wait) :
    viewOf (c.setFiledesc pid fd value) r wait =
      { viewOf c r wait with
        table := Function.update (viewOf c r wait).table (pid, fd) value } := by
  have hsame : ∀ {A : Type} (field : Process → A) (other : Pid),
      (∀ proc : Process, field { proc with
        filedesc := Function.update proc.filedesc fd value } = field proc) →
      field ((c.setFiledesc pid fd value).processes other) = field (c.processes other) := by
    intro A field other hfield
    by_cases hother : other = pid
    · subst hother
      simp [setFiledesc, hfield]
    · simp [setFiledesc, hother]
  have hlive' : (c.setFiledesc pid fd value).isLive = c.isLive := by
    funext other
    exact hsame (fun proc => proc.existing && !proc.exited) other fun _ => rfl
  simp only [viewOf, hlive', View.mk.injEq, true_and, and_true]
  refine ⟨?_, ?_⟩
  · funext slot
    obtain ⟨other, fd'⟩ := slot
    by_cases hother : other = pid
    · subst hother
      by_cases hfd : fd' = fd
      · subst hfd
        simp [hlive, setFiledesc]
      · simp [hlive, setFiledesc, hfd]
    · simp [setFiledesc, hother]
  · funext other
    rw [hsame Process.savedRegs other fun _ => rfl]
    rfl

/-- Nothing changes about which processes run, which system calls they are in, with which
registers they were interrupted and where they work, and no zombie loses its parent. -/
structure Steady (c c' : Core) : Prop where
  current : c'.current = c.current
  live : ∀ pid, c'.isLive pid = c.isLive pid
  call : ∀ pid, (c'.processes pid).inSyscall = (c.processes pid).inSyscall
  saved : ∀ pid, (c'.processes pid).savedRegs = (c.processes pid).savedRegs
  cwd : ∀ pid, (c'.processes pid).cwd = (c.processes pid).cwd
  neglected : ∀ pid status, (c'.processes pid).stage = .zombie none status →
    (c.processes pid).stage = .zombie none status

theorem Steady.refl (c : Core) : Steady c c :=
  ⟨rfl, fun _ => rfl, fun _ => rfl, fun _ => rfl, fun _ => rfl, fun _ _ h => h⟩

theorem Steady.trans {c₁ c₂ c₃ : Core} (hfirst : Steady c₁ c₂) (hsecond : Steady c₂ c₃) :
    Steady c₁ c₃ where
  current := hsecond.current.trans hfirst.current
  live pid := (hsecond.live pid).trans (hfirst.live pid)
  call pid := (hsecond.call pid).trans (hfirst.call pid)
  saved pid := (hsecond.saved pid).trans (hfirst.saved pid)
  cwd pid := (hsecond.cwd pid).trans (hfirst.cwd pid)
  neglected pid status h := hfirst.neglected pid status (hsecond.neglected pid status h)

theorem Quiet.steady {c c' : Core} (hquiet : Quiet c c') : Steady c c' where
  current := hquiet.current
  live := hquiet.isLive
  call := hquiet.inSyscall
  saved pid := hquiet.field pid Process.savedRegs fun _ => rfl
  cwd pid := hquiet.field pid Process.cwd fun _ => rfl
  neglected pid status h := by rwa [hquiet.stage] at h

/-- List pointers do not matter. -/
theorem Steady.of_unlinked {c d c' : Core} (hsteady : Steady c d)
    (hsame : c'.unlinked = d.unlinked) : Steady c c' := by
  have hlive : ∀ pid, c'.isLive pid = d.isLive pid :=
    fun pid => congrArg (fun core => core.isLive pid) hsame
  have hcall : ∀ pid, (c'.processes pid).inSyscall = (d.processes pid).inSyscall :=
    fun pid => congrArg (fun core => (core.processes pid).inSyscall) hsame
  have hsaved : ∀ pid, (c'.processes pid).savedRegs = (d.processes pid).savedRegs :=
    fun pid => congrArg (fun core => (core.processes pid).savedRegs) hsame
  have hcwd : ∀ pid, (c'.processes pid).cwd = (d.processes pid).cwd :=
    fun pid => congrArg (fun core => (core.processes pid).cwd) hsame
  have hstage : ∀ pid, (c'.processes pid).stage = (d.processes pid).stage :=
    fun pid => congrArg (fun core => (core.processes pid).stage) hsame
  have hcurrent : c'.unlinked.current = d.unlinked.current := congrArg Core.current hsame
  refine ⟨hcurrent.trans hsteady.current, fun pid => (hlive pid).trans (hsteady.live pid),
    fun pid => (hcall pid).trans (hsteady.call pid),
    fun pid => (hsaved pid).trans (hsteady.saved pid),
    fun pid => (hcwd pid).trans (hsteady.cwd pid), ?_⟩
  intro pid status h
  rw [hstage] at h
  exact hsteady.neglected pid status h

/-- A change of one process that keeps the fields concerned. -/
theorem Steady.modify (c : Core) (pid : Pid) {change : Process → Process}
    (hlive : ∀ proc, ((change proc).existing && !(change proc).exited) =
      (proc.existing && !proc.exited))
    (hcall : ∀ proc, (change proc).inSyscall = proc.inSyscall)
    (hsaved : ∀ proc, (change proc).savedRegs = proc.savedRegs)
    (hcwd : ∀ proc, (change proc).cwd = proc.cwd)
    (hstage : ∀ proc, (change proc).stage = proc.stage) : Steady c (c.modify pid change) := by
  refine ⟨rfl, modify_field c pid (fun proc => proc.existing && !proc.exited) hlive,
    modify_field c pid _ hcall, modify_field c pid _ hsaved, modify_field c pid _ hcwd, ?_⟩
  intro other status h
  rwa [modify_field c pid Process.stage hstage] at h

theorem Steady.setFiledesc (c : Core) (pid : Pid) (fd : Fd) (value : Option Block) :
    Steady c (c.setFiledesc pid fd value) :=
  Steady.modify c pid (fun _ => rfl) (fun _ => rfl) (fun _ => rfl) (fun _ => rfl) fun _ => rfl

/-- The process `pid` is inside the system call that it made with registers `r`. -/
structure Running (c : Core) (r : Regs) (wait : Pid → Wait) (pid : Pid) : Prop where
  inv : Inv (viewOf c r wait) c
  current : c.current = some pid
  live : c.isLive pid = true
  awake : wait pid = .awake
  call : (c.processes pid).inSyscall = r.eax.toNat

/-- The call is finished, or it was suspended and reports so.  Only certain calls
are reported as suspended. -/
def Finishes (c : Core) (r : Regs) (pid : Pid) (c' : Core) (res : Word) : Prop :=
  ∃ wait, Inv (viewOf c' r wait) c' ∧ Steady c c' ∧
    (wait pid = .awake ∨ res = failure esuspend) ∧
    (res = failure esuspend → Repeatable r.eax.toNat)

variable {c : Core} {r : Regs} {wait : Pid → Wait} {pid : Pid}

theorem Running.finish (hrunning : Running c r wait pid) {res : Word}
    (hres : res = failure esuspend → Repeatable r.eax.toNat) : Finishes c r pid c res :=
  ⟨wait, hrunning.inv, Steady.refl c, .inl hrunning.awake, hres⟩

/-- Small results do not look like `-ESUSPEND`. -/
theorem ne_esuspend {res : Word} (hres : res.toNat < 4294966296) : res ≠ failure esuspend := by
  rintro rfl
  exact absurd hres (by decide)

/-- The descriptor found by a lookup holds a reference. -/
theorem Running.lookup (hrunning : Running c r wait pid) {word : Word} {fd : Fd} {fh : Block}
    (hlookup : c.lookup pid word = some (fd, fh)) :
    descriptor word = some fd ∧ (viewOf c r wait).table (pid, fd) = some fh := by
  simp only [Core.lookup, Option.bind_eq_bind, Option.bind_eq_some_iff] at hlookup
  obtain ⟨fd', hfd, fh', hfh, hsame⟩ := hlookup
  simp only [Option.pure_def, Option.some.injEq, Prod.mk.injEq] at hsame
  obtain ⟨rfl, rfl⟩ := hsame
  exact ⟨hfd, by simp [viewOf, hrunning.live, hfh]⟩

/-! ## Closing -/

theorem syscallClose_spec (hrunning : Running c r wait pid) (fd : Word) :
    Ensures Harmless (c.syscallClose pid fd) fun result =>
      Finishes c r pid result.1 result.2 := by
  have hbad : failure ebadf = failure esuspend → Repeatable r.eax.toNat :=
    fun h => absurd h (by decide)
  have hdone : (0 : Word) = failure esuspend → Repeatable r.eax.toNat :=
    fun h => absurd h (by decide)
  rw [syscallClose]
  split
  · exact ensures_ok.mpr (hrunning.finish hbad)
  next fd' fh hlookup =>
    obtain ⟨-, hslot⟩ := hrunning.lookup hlookup
    apply ensures_bind (closeDescriptor_spec hrunning.inv hslot hrunning.awake)
    rintro c₁ ⟨sleeper, hinv, hquiet⟩
    refine ensures_ok.mpr ⟨(viewOf c r wait).rouse sleeper, ?_,
      hquiet.steady.trans (Steady.setFiledesc c₁ pid fd' none),
      .inl (View.rouse_awake hrunning.awake sleeper), hdone⟩
    have hlive : c₁.isLive pid = true := (hquiet.isLive pid).trans hrunning.live
    rw [viewOf_setFiledesc hlive, viewOf_quiet hquiet]
    exact hinv.setFiledesc pid fd' none

/-! ## Duplicating -/

/-- The view after a descriptor that holds no reference was filled. -/
theorem viewOf_take {c₁ c₂ : Core} {fd : Fd} {fh : Block} (table : Slot → Option Block)
    (wait' : Pid → Wait) (hrunning : Running c r wait pid) (hquiet : Quiet c c₁)
    (hquiet' : Quiet (c₁.setFiledesc pid fd (some fh)) c₂)
    (htable : Function.update table (pid, fd) (some fh) =
      Function.update (viewOf c r wait').table (pid, fd) (some fh))
    (hinv : Inv { viewOf c r wait' with
      table := Function.update table (pid, fd) (some fh) } c₂) :
    Inv (viewOf c₂ r wait') c₂ ∧ Steady c c₂ := by
  have hlive : c₁.isLive pid = true := (hquiet.isLive pid).trans hrunning.live
  refine ⟨?_, hquiet.steady.trans ((Steady.setFiledesc c₁ pid fd _).trans hquiet'.steady)⟩
  rw [viewOf_quiet hquiet', viewOf_setFiledesc hlive, viewOf_quiet hquiet, ← htable]
  exact hinv

theorem redirect_spec (hrunning : Running c r wait pid) {oldfd newfd : Fd} {fh : Block}
    (hold : (viewOf c r wait).table (pid, oldfd) = some fh) (hne : oldfd ≠ newfd) :
    Ensures Harmless (c.redirect pid fh newfd) fun c' =>
      ∃ wait', Inv (viewOf c' r wait') c' ∧ Steady c c' ∧ wait' pid = .awake := by
  rw [redirect]
  cases hnew : (c.processes pid).filedesc newfd with
  | none =>
      have hslot : (viewOf c r wait).table (pid, newfd) = none := by simp [viewOf, hnew]
      obtain ⟨c', hrun, hinv, hquiet⟩ := share_spec hrunning.inv hslot hrunning.awake hold
      simp only [ok_bind, hrun, ensures_ok]
      obtain ⟨hinv', hsteady⟩ := viewOf_take _ wait hrunning (Quiet.refl c) hquiet rfl hinv
      exact ⟨wait, hinv', hsteady, hrunning.awake⟩
  | some old =>
      have hslot : (viewOf c r wait).table (pid, newfd) = some old := by
        simp [viewOf, hnew, hrunning.live]
      apply ensures_bind (closeDescriptor_spec hrunning.inv hslot hrunning.awake)
      rintro c₁ ⟨sleeper, hinv₁, hquiet₁⟩
      have hawake : (viewOf c r wait).rouse sleeper pid = .awake :=
        View.rouse_awake hrunning.awake sleeper
      have hheld : ((viewOf c r wait).drop (pid, newfd)) (pid, oldfd) = some fh := by
        rw [View.drop, Function.update_of_ne (by simpa using hne), hold]
      have hempty : (viewOf c r wait).drop (pid, newfd) (pid, newfd) = none := by simp [View.drop]
      obtain ⟨c', hrun, hinv, hquiet⟩ := share_spec hinv₁ hempty hawake hheld
      simp only [hrun, ensures_ok]
      obtain ⟨hinv', hsteady⟩ := viewOf_take ((viewOf c r wait).drop (pid, newfd))
        ((viewOf c r wait).rouse sleeper) hrunning hquiet₁ hquiet (Function.update_idem _ _ _) hinv
      exact ⟨_, hinv', hsteady, hawake⟩

theorem syscallDup2_spec (hrunning : Running c r wait pid) (oldfd newfd : Word) :
    Ensures Harmless (c.syscallDup2 pid oldfd newfd) fun result =>
      Finishes c r pid result.1 result.2 := by
  have hbad : failure ebadf = failure esuspend → Repeatable r.eax.toNat :=
    fun h => absurd h (by decide)
  rw [syscallDup2]
  split
  next old new _ hnew =>
    have hres : newfd = failure esuspend → Repeatable r.eax.toNat := by
      refine fun h => absurd h (ne_esuspend ?_)
      simp only [descriptor, Option.dite_none_right_eq_some] at hnew
      obtain ⟨hlt, -⟩ := hnew
      omega
    split
    · exact ensures_ok.mpr (hrunning.finish hbad)
    next fh hfh =>
      split
      · exact ensures_ok.mpr (hrunning.finish hres)
      next hne =>
        have hold : (viewOf c r wait).table (pid, old) = some fh := by
          simp [viewOf, hfh, hrunning.live]
        apply ensures_bind (redirect_spec hrunning hold hne)
        rintro c' ⟨wait', hinv, hsteady, hawake⟩
        exact ensures_ok.mpr ⟨wait', hinv, hsteady, .inl hawake, hres⟩
  next => exact ensures_ok.mpr (hrunning.finish hbad)

/-! ## Opening -/

/-- A free descriptor of a live process holds no reference. -/
theorem freeDescriptors_spec {fd : Fd} (hfree : fd ∈ c.freeDescriptors pid) :
    (viewOf c r wait).table (pid, fd) = none := by
  simp only [freeDescriptors, List.mem_filter, Option.isNone_iff_eq_none] at hfree
  simp [viewOf, hfree.2]

/-- A new handle is put into a free descriptor. -/
theorem openDescriptor_spec (hrunning : Running c r wait pid) {kind : HandleKind}
    (hopens : Opens c kind) {fd : Fd} (hslot : (viewOf c r wait).table (pid, fd) = none) :
    Running (c.opening kind pid fd) r wait pid ∧ Steady c (c.opening kind pid fd) ∧
      ∀ other, other ≠ fd → (viewOf (c.opening kind pid fd) r wait).table (pid, other) =
        (viewOf c r wait).table (pid, other) := by
  obtain ⟨hinv, hquiet⟩ := hrunning.inv.opening hopens hslot hrunning.awake
  obtain ⟨hinv', hsteady⟩ := viewOf_take _ wait hrunning (Quiet.refl c) hquiet rfl hinv
  refine ⟨⟨hinv', hsteady.current.trans hrunning.current, (hsteady.live pid).trans hrunning.live,
    hrunning.awake, (hsteady.call pid).trans hrunning.call⟩, hsteady, ?_⟩
  intro other hother
  rw [viewOf_quiet hquiet, viewOf_setFiledesc hrunning.live]
  simp [hother]

theorem openEntry_spec (hrunning : Running c r wait pid) {fd : Fd}
    (hfree : fd ∈ c.freeDescriptors pid) (entry : DirectoryEntry) {res : Word}
    (hres : res = failure esuspend → Repeatable r.eax.toNat) :
    Ensures Harmless (c.openEntry pid fd entry) fun c' => Finishes c r pid c' res := by
  rw [openEntry, newFile]
  have hopens : Opens c (if entry.isDir then .dir entry else .file entry) := by
    apply Opens.plain
    intro b
    split <;> simp
  apply ensures_bind (newHandle_spec c _)
  rintro _ rfl
  obtain ⟨hrunning', hsteady, -⟩ := openDescriptor_spec hrunning hopens (freeDescriptors_spec hfree)
  exact ensures_ok.mpr ⟨wait, hrunning'.inv, hsteady, .inl hrunning.awake, hres⟩

theorem Running.quiet {c' : Core} (hrunning : Running c r wait pid) (hquiet : Quiet c c')
    (hinv : Inv (viewOf c r wait) c') : Running c' r wait pid where
  inv := by
    rw [viewOf_quiet hquiet]
    exact hinv
  current := hquiet.current.trans hrunning.current
  live := (hquiet.isLive pid).trans hrunning.live
  awake := hrunning.awake
  call := (hquiet.inSyscall pid).trans hrunning.call

theorem syscallPipe_spec (hrunning : Running c r wait pid) :
    Ensures Harmless (c.syscallPipe pid) fun result =>
      ∃ wait', Inv (viewOf result.1 r wait') result.1 ∧ Steady c result.1 ∧
        wait' pid = .awake := by
  rw [syscallPipe]
  split
  next readfd writefd rest hfree =>
    have hnodup : (readfd :: writefd :: rest).Nodup := by
      rw [← hfree]
      exact List.Nodup.filter _ (List.nodup_finRange 16)
    have hne : readfd ≠ writefd := by
      intro hsame
      simp [hsame] at hnodup
    have hread : (viewOf c r wait).table (pid, readfd) = none :=
      freeDescriptors_spec (by simp [hfree])
    have hwrite : (viewOf c r wait).table (pid, writefd) = none :=
      freeDescriptors_spec (by simp [hfree])
    apply ensures_bind (newPipe_spec hrunning.inv)
    rintro ⟨c₁, b⟩ ⟨hinv₁, hquiet₁, ⟨pipe, hpipe, hreading, hwriting⟩, hkinds, hinput, hlt⟩
    simp only at hinv₁ hquiet₁ hpipe hkinds hinput hlt ⊢
    have hrunning₁ := hrunning.quiet hquiet₁ hinv₁
    rw [newPipeReader]
    apply ensures_bind (newHandle_spec c₁ _)
    rintro _ rfl
    have hopens₁ : Opens c₁ (.pipeReader b) := by
      refine ⟨?_, by simp⟩
      rintro _ ⟨⟩
      exact ⟨⟨pipe, hpipe, hreading⟩, fun fh handle hfh => (hkinds fh handle hfh).1⟩
    have hread₁ : (viewOf c₁ r wait).table (pid, readfd) = none := by
      rw [viewOf_quiet hquiet₁]
      exact hread
    obtain ⟨hrunning₂, hsteady₂, htable₂⟩ := openDescriptor_spec hrunning₁ hopens₁ hread₁
    have hwrite₂ : (viewOf (c₁.opening (.pipeReader b) pid readfd) r wait).table
        (pid, writefd) = none := by
      rw [htable₂ writefd (Ne.symm hne), viewOf_quiet hquiet₁]
      exact hwrite
    have hopens₂ : Opens (c₁.opening (.pipeReader b) pid readfd) (.pipeWriter b) := by
      refine ⟨by simp, ?_⟩
      rintro _ ⟨⟩
      refine ⟨⟨pipe, hpipe, hwriting⟩, ?_, hinput⟩
      intro fh handle hfh
      have hkind := hkinds fh handle
      simp only [opening, install, setFiledesc, record_handles, modify_handles, setHandle_handles,
        Function.update_apply] at hfh
      grind
    simp only [newPipeWriter]
    apply ensures_bind (newHandle_spec (c₁.opening (.pipeReader b) pid readfd) _)
    rintro _ rfl
    obtain ⟨hrunning₃, hsteady₃, -⟩ := openDescriptor_spec hrunning₂ hopens₂ hwrite₂
    obtain ⟨hinv₄, hquiet₄⟩ := hrunning₃.inv.recordMade hpipe
      (Nat.lt_succ_of_lt (Nat.lt_succ_of_lt hlt))
      ⟨c₁.heap, ⟨.pipeReader b, 1, 0, 0⟩, by simp [opening, install, setFiledesc], rfl⟩
      ⟨c₁.heap + 1, ⟨.pipeWriter b, 1, 0, 0⟩, by simp [opening, install, setFiledesc], rfl⟩
    exact ensures_ok.mpr ⟨wait, (hrunning₃.quiet hquiet₄ hinv₄).inv,
      hquiet₁.steady.trans (hsteady₂.trans (hsteady₃.trans hquiet₄.steady)), hrunning.awake⟩
  next => exact ensures_ok.mpr ⟨wait, hrunning.inv, Steady.refl c, hrunning.awake⟩

/-! ## Reading and writing -/

/-- Moving the position of a handle. -/
theorem Inv.setPosition {v : View} (hinv : Inv v c) {fh : Block} {handle new : FileHandle}
    (hfh : c.handles fh = some handle) (hkind : new.kind = handle.kind)
    (hcount : new.refcount = handle.refcount) :
    Inv v (c.setHandle fh (some new)) ∧ Quiet c (c.setHandle fh (some new)) := by
  have hquiet : Quiet c (c.setHandle fh (some new)) :=
    ⟨fun _ => rfl, rfl, rfl, le_rfl, rfl, rfl⟩
  have hwaits : Waits { v with table := v.table }
      { c with handles := Function.update c.handles fh (some new) } := by
    apply hinv.waits.retable
    · intro pid fd _
      rfl
    · intro slot other handle' _ hother
      by_cases hsame : other = fh
      · subst hsame
        rw [hfh, Option.some.injEq] at hother
        subst hother
        exact ⟨new, Function.update_self _ _ _, hkind⟩
      · exact ⟨handle', by rw [Function.update_of_ne hsame]; exact hother, rfl⟩
  refine ⟨hinv.quiet hquiet (hinv.linked.congr (fun _ => rfl) (fun _ => rfl) rfl)
    (hwaits.congr rfl rfl rfl) ?_
    (hinv.pipes.recount hfh hkind rfl rfl rfl rfl rfl fun _ => Iff.rfl)
    ⟨hinv.references.linear, hinv.references.outstanding⟩, hquiet⟩
  refine hinv.handles.recount hfh hkind ?_ (fun _ _ => rfl) rfl rfl rfl
  rw [hcount]
  exact hinv.handles.counted fh handle hfh

/-- A read from a pipe returns at most `count` bytes. -/
theorem length_pipeReaderRead (c : Core) (b : Block) (count : ℕ) :
    Ensures (fun _ => True) (c.pipeReaderRead b count) fun result =>
      result.2.2.length ≤ count := by
  rw [pipeReaderRead]
  refine ensures_bind (ensures_of_ok fun _ _ => trivial) fun pipe _ => ?_
  split
  · exact ensures_ok.mpr (Nat.zero_le _)
  · split
    · refine ensures_ok.mpr ?_
      rw [length_loadBytes]
      split <;> omega
    · split
      · exact ensures_ok.mpr (Nat.zero_le _)
      · refine ensures_bind (ensures_of_ok fun _ _ => trivial) fun pid _ => ?_
        refine ensures_bind (ensures_of_ok fun _ _ => trivial) fun c' _ => ?_
        exact ensures_ok.mpr (Nat.zero_le _)

/-- A read from a file returns at most `count` bytes. -/
theorem length_fileRead (c : Core) (fh : Block) (handle : FileHandle) (contents : List UInt8)
    (count : ℕ) : Ensures (fun _ => True) (c.fileRead fh handle contents count) fun result =>
      result.2.2.length ≤ count := by
  rw [fileRead]
  split
  · exact ensures_ok.mpr (Nat.zero_le _)
  · extract_lets copied
    have hmod := Nat.mod_le (handle.pos + count) wordCount
    have hcopied : copied ≤ count := by
      simp only [copied]
      split <;> omega
    split
    · exact ensures_error.mpr trivial
    · exact ensures_ok.mpr ((List.length_take_le _ _).trans hcopied)

theorem length_readHandle (c : Core) (fh : Block) (count : ℕ) :
    Ensures (fun _ => True) (c.readHandle fh count) fun result => result.2.2.length ≤ count := by
  rw [readHandle]
  refine ensures_bind (ensures_of_ok fun _ _ => trivial) fun handle _ => ?_
  cases hkind : handle.kind with
  | screen => exact ensures_ok.mpr (Nat.zero_le _)
  | pipeWriter b => exact ensures_ok.mpr (Nat.zero_le _)
  | pipeReader b => exact length_pipeReaderRead c b count
  | dir entry => exact ensures_ok.mpr (Nat.zero_le _)
  | file entry => exact length_fileRead c fh handle entry.contents count

theorem readHandle_spec (hrunning : Running c r wait pid)
    (hcall : (c.processes pid).inSyscall = Call.read.number) {fd : Fd} {fh : Block}
    (hfd : descriptor (r.args 0) = some fd)
    (hslot : (viewOf c r wait).table (pid, fd) = some fh) (count : ℕ) :
    Ensures Harmless (c.readHandle fh count) fun result =>
      Finishes c r pid result.1 result.2.1 := by
  have hrepeats : ∀ res, res = failure esuspend → Repeatable r.eax.toNat := by
    intro res _
    rw [← hrunning.call, hcall]
    simp [Repeatable]
  obtain ⟨handle, hfh⟩ := hrunning.inv.handles.resolved (pid, fd) fh hslot
  rw [readHandle, Core.handle, hfh]
  simp only [ok_bind]
  cases hkind : handle.kind with
  | screen => exact ensures_ok.mpr (hrunning.finish (hrepeats _))
  | pipeWriter b => exact ensures_ok.mpr (hrunning.finish (hrepeats _))
  | dir entry => exact ensures_ok.mpr (hrunning.finish (hrepeats _))
  | file entry =>
      change Ensures Harmless (c.fileRead fh handle entry.contents count) _
      rw [fileRead]
      split
      · exact ensures_ok.mpr (hrunning.finish (hrepeats _))
      · extract_lets count'
        split
        · simp [Harmless]
        · have hkind : ({ handle with pos := handle.pos + count' } : FileHandle).kind =
            handle.kind := rfl
          obtain ⟨hinv, hquiet⟩ := hrunning.inv.setPosition hfh hkind rfl
          exact ensures_ok.mpr ⟨wait, (hrunning.quiet hquiet hinv).inv, hquiet.steady,
            .inl hrunning.awake, hrepeats _⟩
  | pipeReader b =>
      obtain ⟨pipe, hpipe, -⟩ := hrunning.inv.handles.reader fh handle b hfh hkind
      have hreads : ReadsFrom (viewOf c r wait) c pid b := by
        refine ⟨hcall, fd, fh, handle, ?_, hslot, hfh, hkind⟩
        simpa [viewOf, hrunning.current] using hfd
      refine ensures_weaken (pipeReaderRead_spec hrunning.inv hrunning.current hrunning.live
        hrunning.awake hreads hpipe count) ?_
      rintro ⟨c', res, buf⟩ ⟨wait', hinv, hquiet, houtcome⟩
      refine ⟨wait', ?_, hquiet.steady, houtcome, hrepeats _⟩
      rw [viewOf_quiet hquiet]
      exact hinv

theorem writeHandle_spec (hrunning : Running c r wait pid)
    (hcall : (c.processes pid).inSyscall = Call.write.number) {fd : Fd} {fh : Block}
    (hslot : (viewOf c r wait).table (pid, fd) = some fh) {buf : Except Fault (List UInt8)}
    (hbuf : Ensures Harmless buf fun _ => True) :
    Ensures Harmless (c.writeHandle fh buf) fun result =>
      Finishes c r pid result.1 result.2 := by
  have hrepeats : ∀ res, res = failure esuspend → Repeatable r.eax.toNat := by
    intro res _
    rw [← hrunning.call, hcall]
    simp [Repeatable]
  obtain ⟨handle, hfh⟩ := hrunning.inv.handles.resolved (pid, fd) fh hslot
  rw [writeHandle, Core.handle, hfh]
  simp only [ok_bind]
  cases hkind : handle.kind with
  | screen =>
      apply ensures_bind hbuf
      intro bytes _
      exact ensures_ok.mpr (hrunning.finish (hrepeats _))
  | pipeReader b => exact ensures_ok.mpr (hrunning.finish (hrepeats _))
  | dir entry => exact ensures_ok.mpr (hrunning.finish (hrepeats _))
  | file entry => exact ensures_ok.mpr (hrunning.finish (hrepeats _))
  | pipeWriter b =>
      obtain ⟨pipe, hpipe, -⟩ := hrunning.inv.handles.writer fh handle b hfh hkind
      apply ensures_bind hbuf
      intro bytes _
      apply ensures_bind (writeToPipe_spec hrunning.inv hpipe bytes)
      rintro c' ⟨hinv, hquiet⟩
      have hawake : (viewOf c r wait).rouse pipe.readpid pid = .awake :=
        View.rouse_awake hrunning.awake pipe.readpid
      refine ensures_ok.mpr ⟨_, ?_, hquiet.steady, .inl hawake, hrepeats _⟩
      rw [viewOf_quiet hquiet]
      exact hinv

end Core

end Rhythmos.Kernel
