import Rhythmos.Kernel.Children

/-!
# Creation of processes

A new process takes a vacant slot of the process table, gets its descriptors one
by one, and is put on the ready list at the end.  Until then the slot is in use
but the process is not alive, like a process in the middle of `kill_process`.
-/

namespace Rhythmos.Kernel

open Fallible Ledger RefCount ByteMemory Libc DoublyLinked

/-- The references while descriptors are copied. -/
def View.inherit (v : View) (child : Pid) (filedesc : Fd → Option Block) (slot : Slot) :
    Option Block :=
  if slot.1 = child then filedesc slot.2 else v.table slot

/-- The references after a descriptor of the process that is being created was
filled. -/
theorem View.take_inherit (v : View) (child : Pid) (filedesc : Fd → Option Block) (fd : Fd)
    (fh : Block) :
    View.take { v with table := v.inherit child filedesc } (child, fd) fh =
      v.inherit child (Function.update filedesc fd (some fh)) := by
  funext slot
  obtain ⟨other, fd'⟩ := slot
  by_cases hother : other = child
  · subst hother
    by_cases hfd : fd' = fd
    · subst hfd
      simp [View.take, View.inherit]
    · simp [View.take, View.inherit, hfd]
  · simp [View.take, View.inherit, hother]

namespace Core

variable {c : Core} {r : Regs} {wait : Pid → Wait} {pid child : Pid} {v : View}

/-- Only the pointers of processes on a list matter. -/
theorem Linked.congr_on {place : Pid → Option Queue} {c c' : Core} (hlinked : Linked place c)
    (hprocesses : ∀ pid, place pid ≠ none → c'.processes pid = c.processes pid)
    (hqueue : c'.queue = c.queue) : Linked place c' := by
  intro queue
  obtain ⟨nodes, hlist, hmem⟩ := hlinked queue
  refine ⟨nodes, ?_, hmem⟩
  have hsame : ∀ pid ∈ nodes, c'.processes pid = c.processes pid := by
    intro pid hpid
    apply hprocesses
    rw [(hmem pid).mp hpid]
    exact Option.some_ne_none queue
  rw [hqueue]
  refine isList_congr hlist ?_ ?_
  · intro pid hpid
    rw [prevOf, prevOf, hsame pid hpid]
  · intro pid hpid
    rw [nextOf, nextOf, hsame pid hpid]

/-! ## A slot is taken -/

/-- A process that is not yet known to anybody. -/
structure Newborn (proc : Process) (pid : Pid) (parent : Option Pid) : Prop where
  pid : proc.pid = pid
  existing : proc.existing = true
  exited : proc.exited = false
  parentPid : proc.parentPid = parent
  mailbox : proc.mailbox = none
  mailboxSize : proc.mailboxSize = 0
  receiveBlocked : proc.receiveBlocked = false

/-- The state in which the process `proc` has taken the slot `pid`. -/
def born (c : Core) (pid : Pid) (proc : Process) : Core :=
  { c with processes := Function.update c.processes pid proc }.record
    (.created proc.parentPid pid)

@[simp]
theorem born_self (c : Core) (pid : Pid) (proc : Process) :
    (c.born pid proc).processes pid = proc := by
  simp [born]

theorem born_of_ne (c : Core) {pid other : Pid} (hother : other ≠ pid) (proc : Process) :
    (c.born pid proc).processes other = c.processes other := by
  simp [born, hother]

theorem Waits.born (hslots : Slots v c) (hwaits : Waits v c) (hdying : v.dying = none)
    (hvacant : (c.processes pid).existing = false) {proc : Process} {parent : Option Pid}
    (hnewborn : Newborn proc pid parent) :
    Waits { v with dying := some pid } (c.born pid proc) := by
  have hdead : v.alive pid = false := by
    by_contra halive
    have hexisting := hslots.existing pid (.inl (by simpa using halive))
    simp [hvacant] at hexisting
  have hawake := hwaits.awake pid hdead
  have hasleep : ∀ other event, v.wait other = event → event ≠ .awake → other ≠ pid := by
    rintro other event hwait hevent rfl
    exact hevent (hwait.symm.trans hawake)
  refine ⟨hwaits.awake, ?_, hwaits.registered, ?_, ?_, ?_, ?_, ?_⟩
  · intro other halive
    have hne : other ≠ pid := by
      rintro rfl
      cases hdead.symm.trans halive
    rw [born_of_ne c hne]
    exact hwaits.ready other halive
  · intro other hexisting
    by_cases hne : other = pid
    · subst hne
      rw [born_self, hnewborn.receiveBlocked]
      simp [hawake]
    · rw [born_of_ne c hne] at hexisting ⊢
      exact hwaits.blocked other hexisting
  · intro other child halive
    have hne : other ≠ pid := by
      rintro rfl
      cases hdead.symm.trans halive
    rw [born_of_ne c hne]
    exact hwaits.awaited other child halive
  · intro other b hwait
    rw [ReadsFrom, born_of_ne c (hasleep other _ hwait (by simp))]
    exact hwaits.reading other b hwait
  · intro other hwait
    rw [born_of_ne c (hasleep other _ hwait (by simp))]
    exact hwaits.receiving other hwait
  · intro other child hwait
    obtain ⟨hcall, harg, hchild, hpresent, hparent⟩ := hwaits.awaiting other child hwait
    have hne : child ≠ pid := by
      rintro rfl
      have hexisting := hslots.existing child hpresent
      simp [hvacant] at hexisting
    rw [born_of_ne c (hasleep other _ hwait (by simp)), born_of_ne c hne]
    refine ⟨hcall, harg, hchild, ?_, hparent⟩
    rcases hpresent with halive | hdying'
    · exact .inl halive
    · simp [hdying] at hdying'

theorem Inv.born (hinv : Inv v c) (hdying : v.dying = none) (hzero : pid ≠ 0)
    (hvacant : (c.processes pid).existing = false) {proc : Process} {parent : Option Pid}
    (hnewborn : Newborn proc pid parent)
    (hparent : ∀ other, parent = some other → v.present other) :
    Inv { v with dying := some pid } (c.born pid proc) := by
  have habsent : ¬ v.present pid := by
    intro hpresent
    have hexisting := hinv.slots.existing pid hpresent
    simp [hvacant] at hexisting
  have hdead : v.alive pid = false := by
    by_contra halive
    exact habsent (.inl (by simpa using halive))
  have hstays : ∀ other, v.present other → { v with dying := some pid }.present other := by
    intro other hother
    rcases hother with halive | hdying'
    · exact .inl halive
    · simp [hdying] at hdying'
  have hold : ∀ other, { v with dying := some pid }.present other → other ≠ pid →
      v.present other := by
    rintro other (halive | hdying') hne
    · exact .inl halive
    · exact absurd (Option.some.inj hdying').symm hne
  have hfiles : SameFiles c (c.born pid proc) :=
    ⟨rfl, rfl, rfl, le_rfl, rfl, rfl, by simp [Core.born]⟩
  refine ⟨?_, ⟨?_, ?_, ?_, ?_, ?_⟩, hinv.waits.born hinv.slots hdying hvacant hnewborn,
    hinv.handles.sameFiles hfiles rfl, hinv.pipes.sameFiles hfiles,
    hinv.references.sameFiles hfiles rfl,
    ⟨hinv.mail.linear, hinv.mail.fresh, hinv.mail.unreleased, ?_, ?_, ?_, ?_⟩, ?_, ?_,
    ⟨⟨?_, hinv.lifecycle.lawful⟩, ?_⟩⟩
  · refine hinv.linked.congr_on ?_ rfl
    intro other hplace
    apply born_of_ne
    rintro rfl
    simp [View.place, hdead] at hplace
  · intro other hpresent
    by_cases hne : other = pid
    · subst hne
      rw [born_self, hnewborn.existing]
    · rw [born_of_ne c hne]
      exact hinv.slots.existing other (hold other hpresent hne)
  · intro other hother
    rw [Option.some.injEq] at hother
    rw [← hother]
    exact hdead
  · intro other hexisting
    by_cases hne : other = pid
    · subst hne
      rw [born_self, hnewborn.pid]
    · rw [born_of_ne c hne] at hexisting ⊢
      exact hinv.slots.identity other hexisting
  · rw [born_of_ne c (Ne.symm hzero)]
    exact hinv.slots.zero
  · intro other parent' hexisting hparent'
    by_cases hne : other = pid
    · subst hne
      rw [born_self, hnewborn.parentPid] at hparent'
      have hpresent := hparent parent' hparent'
      refine ⟨hstays parent' hpresent, ?_⟩
      rintro rfl
      exact habsent hpresent
    · rw [born_of_ne c hne] at hexisting hparent'
      obtain ⟨hpresent, hdistinct⟩ := hinv.slots.parent other parent' hexisting hparent'
      exact ⟨hstays parent' hpresent, hdistinct⟩
  · intro other mailbox hpresent howns
    by_cases hne : other = pid
    · subst hne
      simp [hnewborn.mailbox] at howns
    · rw [born_of_ne c hne] at howns
      exact hinv.mail.owned other mailbox (hold other hpresent hne) howns
  · intro other mailbox hexisting howns
    by_cases hne : other = pid
    · subst hne
      simp [hnewborn.mailbox] at howns
    · rw [born_of_ne c hne] at hexisting howns
      exact hinv.mail.used other mailbox hexisting howns
  · intro other other' mailbox hexisting hexisting' howns howns'
    have hne : other ≠ pid := by
      rintro rfl
      simp [hnewborn.mailbox] at howns
    have hne' : other' ≠ pid := by
      rintro rfl
      simp [hnewborn.mailbox] at howns'
    rw [born_of_ne c hne] at hexisting howns
    rw [born_of_ne c hne'] at hexisting' howns'
    exact hinv.mail.unique other other' mailbox hexisting hexisting' howns howns'
  · intro other hexisting hnone
    by_cases hne : other = pid
    · subst hne
      rw [born_self, hnewborn.mailboxSize]
    · rw [born_of_ne c hne] at hexisting hnone ⊢
      exact hinv.mail.empty other hexisting hnone
  · intro other halive
    have hne : other ≠ pid := by
      rintro rfl
      cases hdead.symm.trans halive
    rw [born_of_ne c hne]
    exact hinv.pending other halive
  · intro other alive hselected
    exact hinv.chosen other alive (by simpa [Core.born] using hselected)
  · change stage c.history pid = .vacant
    rw [hinv.lifecycle.stages]
    simp [Process.stage, hvacant]
  · intro other
    by_cases hne : other = pid
    · subst hne
      simp [Core.born, stage, Process.stage, hnewborn.existing, hnewborn.exited]
    · rw [born_of_ne c hne, ← hinv.lifecycle.stages]
      simp [Core.born, stage, hne]

/-! ## The process starts to run -/

/-- The `ready` flag is all that marking a process ready changes. -/
theorem field_setReady {A : Type} (field : Process → A)
    (hfield : ∀ proc : Process, field { proc with ready := true } = field proc) (c : Core)
    (pid other : Pid) :
    field ((c.modify pid fun proc => { proc with ready := true }).processes other) =
      field (c.processes other) := by
  by_cases hother : other = pid
  · subst hother
    simp [hfield]
  · simp [hother]

/-- The new process is put on the ready list. -/
theorem Inv.launch (hinv : Inv v c) (hdying : v.dying = some pid)
    (hprev : (c.processes pid).prev = none) (hnext : (c.processes pid).next = none)
    (hwaiting : ∀ child, child ≠ 0 → (c.processes pid).waitingOn ≠ some child)
    (hcall : (c.processes pid).inSyscall = 0) {frame : Pid → Regs}
    (hframe : ∀ other, other ≠ pid → frame other = v.frame other) :
    Inv { v with
      alive := Function.update v.alive pid true
      dying := none
      frame := frame } (c.makeReady pid) := by
  have hdead := hinv.slots.dying pid hdying
  have hawake := hinv.waits.awake pid hdead
  have hpresent : ∀ other, ({ v with
      alive := Function.update v.alive pid true
      dying := none
      frame := frame } : View).present other ↔ v.present other := by
    intro other
    by_cases hother : other = pid
    · subst hother
      simp [View.present, hdying]
    · simp [View.present, hother, hdying, Ne.symm hother]
  have hplace : ({ v with
      alive := Function.update v.alive pid true
      dying := none
      frame := frame } : View).place = Function.update v.place pid (some .ready) := by
    funext other
    by_cases hother : other = pid
    · subst hother
      simp [View.place, hawake]
    · simp [View.place, hother]
  have halive : ∀ other, other ≠ pid → Function.update v.alive pid true other = v.alive other :=
    fun other hother => Function.update_of_ne hother _ _
  have hasleep : ∀ other event, v.wait other = event → event ≠ .awake → other ≠ pid := by
    rintro other event hwait hevent rfl
    exact hevent (hwait.symm.trans hawake)
  have hfiles : SameFiles c (c.modify pid fun proc => { proc with ready := true }) :=
    ⟨rfl, rfl, rfl, le_rfl, rfl, rfl, fun _ => Iff.rfl⟩
  refine Inv.of_unlinked (c := c.modify pid fun proc => { proc with ready := true }) ?_
    (unlinked_listAdd _ _ _) ?_ ?_ (hinv.handles.sameFiles hfiles rfl)
    (hinv.pipes.sameFiles hfiles) (hinv.references.sameFiles hfiles rfl) ?_ ?_ hinv.chosen
    ⟨hinv.lifecycle.lawful, ?_⟩
  · rw [hplace]
    refine (hinv.linked.setReady pid true).add .ready ?_ ?_ ?_
    · simp [View.place, hdead]
    · simpa [prevOf] using hprev
    · simpa [nextOf] using hnext
  · refine ⟨?_, by simp, ?_, ?_, ?_⟩
    · intro other hother
      rw [field_setReady Process.existing (fun _ => rfl) c pid other]
      exact hinv.slots.existing other ((hpresent other).mp hother)
    · intro other hother
      rw [field_setReady Process.existing (fun _ => rfl) c pid other] at hother
      rw [field_setReady Process.pid (fun _ => rfl) c pid other]
      exact hinv.slots.identity other hother
    · rw [field_setReady Process.existing (fun _ => rfl) c pid 0]
      exact hinv.slots.zero
    · intro other parent hother hparent
      rw [field_setReady Process.existing (fun _ => rfl) c pid other] at hother
      rw [field_setReady Process.parentPid (fun _ => rfl) c pid other] at hparent
      rw [hpresent]
      exact hinv.slots.parent other parent hother hparent
  · have hwaits := hinv.waits
    refine ⟨?_, ?_, hwaits.registered, ?_, ?_, ?_, ?_, ?_⟩
    · intro other hother
      by_cases hne : other = pid
      · rw [hne]
        exact hawake
      · exact hwaits.awake other ((halive other hne).symm.trans hother)
    · intro other hother
      by_cases hne : other = pid
      · subst hne
        simp [hawake]
      · have hready := hwaits.ready other ((halive other hne).symm.trans hother)
        simpa [hne] using hready
    · intro other hother
      rw [field_setReady Process.existing (fun _ => rfl) c pid other] at hother
      rw [field_setReady Process.receiveBlocked (fun _ => rfl) c pid other]
      exact hwaits.blocked other hother
    · intro other child hother hchild
      rw [field_setReady Process.waitingOn (fun _ => rfl) c pid other]
      by_cases hne : other = pid
      · subst hne
        simp [hawake, hwaiting child hchild]
      · exact hwaits.awaited other child ((halive other hne).symm.trans hother) hchild
    · intro other b hwait
      have hne := hasleep other _ hwait (by simp)
      rw [ReadsFrom, field_setReady Process.inSyscall (fun _ => rfl) c pid other]
      simp only [hframe other hne]
      exact hwaits.reading other b hwait
    · intro other hwait
      rw [field_setReady Process.inSyscall (fun _ => rfl) c pid other,
        field_setReady Process.mailboxSize (fun _ => rfl) c pid other]
      exact hwaits.receiving other hwait
    · intro other child hwait
      have hne := hasleep other _ hwait (by simp)
      rw [field_setReady Process.inSyscall (fun _ => rfl) c pid other,
        field_setReady Process.parentPid (fun _ => rfl) c pid child, hpresent]
      simp only [hframe other hne]
      exact hwaits.awaiting other child hwait
  · refine ⟨hinv.mail.linear, hinv.mail.fresh, hinv.mail.unreleased, ?_, ?_, ?_, ?_⟩
    · intro other mailbox hother howns
      rw [field_setReady Process.mailbox (fun _ => rfl) c pid other] at howns
      exact hinv.mail.owned other mailbox ((hpresent other).mp hother) howns
    · intro other mailbox hother howns
      rw [field_setReady Process.existing (fun _ => rfl) c pid other] at hother
      rw [field_setReady Process.mailbox (fun _ => rfl) c pid other] at howns
      exact hinv.mail.used other mailbox hother howns
    · intro other other' mailbox hother hother' howns howns'
      rw [field_setReady Process.existing (fun _ => rfl) c pid other] at hother
      rw [field_setReady Process.existing (fun _ => rfl) c pid other'] at hother'
      rw [field_setReady Process.mailbox (fun _ => rfl) c pid other] at howns
      rw [field_setReady Process.mailbox (fun _ => rfl) c pid other'] at howns'
      exact hinv.mail.unique other other' mailbox hother hother' howns howns'
    · intro other hother hnone
      rw [field_setReady Process.existing (fun _ => rfl) c pid other] at hother
      rw [field_setReady Process.mailbox (fun _ => rfl) c pid other] at hnone
      rw [field_setReady Process.mailboxSize (fun _ => rfl) c pid other]
      exact hinv.mail.empty other hother hnone
  · intro other hother hcurrent
    rw [field_setReady Process.inSyscall (fun _ => rfl) c pid other]
    by_cases hne : other = pid
    · subst hne
      simp [hcall]
    · simp only [hframe other hne]
      exact hinv.pending other ((halive other hne).symm.trans hother) hcurrent
  · intro other
    rw [field_setReady Process.stage (fun _ => rfl) c pid other]
    exact hinv.lifecycle.stages other

/-- Being put on the ready list does not change what the process is. -/
theorem SameView.makeReady (c : Core) (pid : Pid) : SameView c (c.makeReady pid) := by
  have hready : SameView c (c.modify pid fun proc => { proc with ready := true }) := by
    have hlive := field_setReady (fun proc => proc.existing && !proc.exited) (fun _ => rfl) c pid
    have hfiles := field_setReady Process.filedesc (fun _ => rfl) c pid
    have hregs := field_setReady Process.savedRegs (fun _ => rfl) c pid
    exact ⟨hlive, hfiles, hregs, rfl⟩
  exact hready.of_unlinked (unlinked_listAdd _ _ _)

/-- Being put on the ready list changes the list pointers and the `ready` flag only. -/
theorem field_makeReady {A : Type} (field : Process → A)
    (hfield : ∀ (proc : Process) prev next ready, field { proc with
      prev := prev
      next := next
      ready := ready } = field proc) (c : Core) (child pid : Pid) :
    field ((c.makeReady child).processes pid) = field (c.processes pid) := by
  have hunlinked : ((c.makeReady child).processes pid).unlinked =
      ((c.modify child fun proc => { proc with ready := true }).processes pid).unlinked :=
    congrFun (congrArg Core.processes (unlinked_listAdd
      (c.modify child fun proc => { proc with ready := true }) .ready child)) pid
  have hfield' : ∀ proc : Process, field proc.unlinked = field proc :=
    fun proc => hfield proc none none proc.ready
  rw [← hfield', hunlinked, hfield']
  by_cases hpid : pid = child
  · subst hpid
    simp only [modify_processes, Function.update_self]
    exact hfield (c.processes pid) (c.processes pid).prev (c.processes pid).next true
  · simp [hpid]

/-- The process `child` was created, and nothing else happened to the processes. -/
structure Created (c c' : Core) (child : Pid) : Prop where
  current : c'.current = c.current
  live : ∀ pid, c'.isLive pid = Function.update c.isLive child true pid
  call : ∀ pid, pid ≠ child → (c'.processes pid).inSyscall = (c.processes pid).inSyscall
  saved : ∀ pid, pid ≠ child → (c'.processes pid).savedRegs = (c.processes pid).savedRegs
  idle : (c'.processes child).inSyscall = 0
  cwd : ∀ pid, pid ≠ child → (c'.processes pid).cwd = (c.processes pid).cwd
  neglected : ∀ pid status, (c'.processes pid).stage = .zombie none status →
    (c.processes pid).stage = .zombie none status

/-- A process whose slot was filled starts to run. -/
theorem launch_spec {d : Core} (hinv : Inv { viewOf c r wait with
      dying := some child
      table := (viewOf c r wait).inherit child (d.processes child).filedesc } d)
    {parent : Option Pid} (hnewborn : Newborn (d.processes child) child parent)
    (hprev : (d.processes child).prev = none) (hnext : (d.processes child).next = none)
    (hwaiting : ∀ other, other ≠ 0 → (d.processes child).waitingOn ≠ some other)
    (hcall : (d.processes child).inSyscall = 0)
    (hother : ∀ other, other ≠ child → (d.processes other).still = (c.processes other).still)
    (hcurrent : d.current = c.current) (hnotcurrent : c.current ≠ some child) :
    Inv (viewOf (d.makeReady child) r wait) (d.makeReady child) ∧
      Created c (d.makeReady child) child ∧
      ((d.makeReady child).processes child).cwd = (d.processes child).cwd := by
  have hlive : ∀ pid, d.isLive pid = Function.update c.isLive child true pid := by
    intro pid
    by_cases hpid : pid = child
    · subst hpid
      simp [isLive, hnewborn.existing, hnewborn.exited]
    · have hsame := congrArg (fun proc : Process => proc.existing && !proc.exited)
        (hother pid hpid)
      rw [Function.update_of_ne hpid]
      exact hsame
  have hsame : ∀ {A : Type} (field : Process → A), (∀ proc, field proc.still = field proc) →
      ∀ pid, pid ≠ child → field (d.processes pid) = field (c.processes pid) := by
    intro A field hfield pid hpid
    exact Process.field_of_still (hother pid hpid) field hfield
  refine ⟨?_, ⟨(SameView.makeReady d child).current.trans hcurrent, ?_, ?_, ?_, ?_, ?_, ?_⟩,
    field_makeReady Process.cwd (fun _ _ _ _ => rfl) d child child⟩
  · have hlaunched := hinv.launch rfl hprev hnext hwaiting hcall
      (show ∀ other, other ≠ child → (viewOf d r wait).frame other = (viewOf c r wait).frame other
        from by
          intro other hne
          simp only [viewOf, hcurrent, hsame Process.savedRegs (fun _ => rfl) other hne])
    rw [(SameView.makeReady d child).viewOf]
    have hview : viewOf d r wait = { viewOf c r wait with
        alive := Function.update (viewOf c r wait).alive child true
        dying := none
        table := (viewOf c r wait).inherit child (d.processes child).filedesc
        frame := (viewOf d r wait).frame } := by
      simp only [viewOf, View.mk.injEq, true_and, and_true]
      refine ⟨funext hlive, ?_⟩
      funext slot
      obtain ⟨pid, fd⟩ := slot
      by_cases hpid : pid = child
      · subst hpid
        simp [View.inherit, hlive]
      · simp [View.inherit, hlive, hpid, hsame Process.filedesc (fun _ => rfl) pid hpid]
    rw [hview]
    exact hlaunched
  · intro pid
    rw [← hlive]
    exact (SameView.makeReady d child).live pid
  · intro pid hpid
    rw [field_makeReady Process.inSyscall fun _ _ _ _ => rfl]
    exact hsame Process.inSyscall (fun _ => rfl) pid hpid
  · intro pid hpid
    rw [field_makeReady Process.savedRegs fun _ _ _ _ => rfl]
    exact hsame Process.savedRegs (fun _ => rfl) pid hpid
  · rw [field_makeReady Process.inSyscall fun _ _ _ _ => rfl]
    exact hcall
  · intro pid hpid
    rw [field_makeReady Process.cwd fun _ _ _ _ => rfl]
    exact hsame Process.cwd (fun _ => rfl) pid hpid
  · intro pid status hzombie
    rw [field_makeReady Process.stage fun _ _ _ _ => rfl] at hzombie
    by_cases hpid : pid = child
    · subst hpid
      simp [Process.stage, hnewborn.existing, hnewborn.exited] at hzombie
    · rwa [hsame Process.stage (fun _ => rfl) pid hpid] at hzombie

/-! ## Forking -/

theorem getFreePid_spec (hfree : c.getFreePid = some child) :
    child ≠ 0 ∧ (c.processes child).existing = false := by
  have hfound := List.find?_some hfree
  simp only [Bool.and_eq_true, decide_eq_true_eq, Bool.not_eq_eq_eq_not, Bool.not_true] at hfound
  refine ⟨?_, hfound.2⟩
  rintro rfl
  exact absurd hfound.1 (lt_irrefl _)

/-- The descriptors copied so far. -/
def inherited (filedesc : Fd → Option Block) (done : List Fd) (fd : Fd) : Option Block :=
  if fd ∈ done then filedesc fd else none

/-- The new state has the processes of the old one, except for the descriptors of
`child`. -/
structure Filled (c c' : Core) (child : Pid) (filedesc : Fd → Option Block) : Prop where
  processes : c'.processes =
    (c.modify child fun proc => { proc with filedesc := filedesc }).processes
  queue : c'.queue = c.queue
  current : c'.current = c.current

theorem Filled.self {c' : Core} {filedesc : Fd → Option Block}
    (hfilled : Filled c c' child filedesc) :
    c'.processes child = { c.processes child with filedesc := filedesc } := by
  rw [hfilled.processes]
  simp

theorem Filled.other {c' : Core} {filedesc : Fd → Option Block}
    (hfilled : Filled c c' child filedesc) {other : Pid} (hother : other ≠ child) :
    c'.processes other = c.processes other := by
  rw [hfilled.processes]
  simp [hother]

/-- One more descriptor. -/
theorem Filled.set {c₁ c₂ : Core} {filedesc : Fd → Option Block} {fd : Fd} {value : Option Block}
    (hfilled : Filled c c₁ child filedesc)
    (hprocesses : c₂.processes = (c₁.setFiledesc child fd value).processes)
    (hqueue : c₂.queue = c₁.queue) (hcurrent : c₂.current = c₁.current) :
    Filled c c₂ child (Function.update filedesc fd value) where
  processes := by
    rw [hprocesses]
    funext other
    by_cases hother : other = child
    · subst hother
      simp [setFiledesc, hfilled.self]
    · simp [setFiledesc, hother, hfilled.other hother]
  queue := hqueue.trans hfilled.queue
  current := hcurrent.trans hfilled.current

/-- Taking a reference changes the handle only. -/
theorem retain_frame {c' : Core} {fh : Block} (hrun : c.retain fh = .ok c') :
    c'.processes = c.processes ∧ c'.queue = c.queue ∧ c'.current = c.current := by
  rw [retain] at hrun
  obtain ⟨handle, -, hrun⟩ := bind_eq_ok.mp hrun
  simp only [pure_eq_ok, Except.ok.injEq] at hrun
  subst hrun
  exact ⟨rfl, rfl, rfl⟩

theorem inherited_concat (filedesc : Fd → Option Block) (done : List Fd) (fd : Fd) :
    inherited filedesc (done ++ [fd]) =
      Function.update (inherited filedesc done) fd (filedesc fd) := by
  funext other
  by_cases hother : other = fd
  · subst hother
    simp [inherited]
  · simp [inherited, hother]

theorem inherited_concat_none {filedesc : Fd → Option Block} {done : List Fd} {fd : Fd}
    (hnew : fd ∉ done) (hnone : filedesc fd = none) :
    inherited filedesc (done ++ [fd]) = inherited filedesc done := by
  rw [inherited_concat, hnone, Function.update_eq_self_iff]
  simp [inherited, hnew]

/-- One round of the loop that copies the file handles. -/
theorem Filled.inherit {c₁ c₂ : Core} {parent : Pid} {done : List Fd} {fd : Fd}
    (hfilled : Filled c c₁ child (inherited (c.processes parent).filedesc done))
    (hdistinct : parent ≠ child) (hnew : fd ∉ done)
    (hrun : inheritHandle parent child c₁ fd = .ok c₂) :
    Filled c c₂ child (inherited (c.processes parent).filedesc (done ++ [fd])) := by
  rw [inheritHandle, hfilled.other hdistinct] at hrun
  cases hfh : (c.processes parent).filedesc fd with
  | none =>
      rw [hfh] at hrun
      obtain rfl := Except.ok.inj hrun
      rw [inherited_concat_none hnew hfh]
      exact hfilled
  | some fh =>
      rw [hfh] at hrun
      obtain ⟨hprocesses, hqueue, hcurrent⟩ := retain_frame hrun
      rw [inherited_concat, hfh]
      exact hfilled.set hprocesses hqueue hcurrent

/-- The descriptor tables before the loop that copies the file handles. -/
theorem Filled.start {filedesc : Fd → Option Block}
    (hnone : ∀ fd, (c.processes child).filedesc fd = none) :
    Filled c c child (inherited filedesc []) := by
  have hself : inherited filedesc [] = (c.processes child).filedesc := by
    funext fd
    simp [inherited, hnone]
  rw [hself]
  exact ⟨by simp [modify], rfl, rfl⟩

theorem inherited_all (filedesc : Fd → Option Block) :
    inherited filedesc (List.finRange 16) = filedesc := by
  funext fd
  simp [inherited]

/-- The loop visits every descriptor once. -/
theorem notMem_of_finRange {done rest : List Fd} {fd : Fd}
    (hitems : List.finRange 16 = done ++ fd :: rest) : fd ∉ done := by
  have hnodup := List.nodup_finRange 16
  rw [hitems] at hnodup
  exact fun hin => (List.nodup_append.mp hnodup).2.2 fd hin fd (by simp) rfl

/-- The loop of `syscall_fork` that copies the file handles. -/
theorem inheritHandles_spec {parent : Pid} (hinv : Inv v c) (hchild : v.wait child = .awake)
    (hempty : ∀ fd, v.table (child, fd) = none) (hdistinct : parent ≠ child)
    (htable : ∀ fd, v.table (parent, fd) = (c.processes parent).filedesc fd)
    (hnone : ∀ fd, (c.processes child).filedesc fd = none) :
    Ensures Harmless ((List.finRange 16).foldlM (inheritHandle parent child) c) fun c' =>
      Inv { v with table := v.inherit child (c.processes parent).filedesc } c' ∧
        Filled c c' child (c.processes parent).filedesc := by
  have hloop : Ensures Harmless ((List.finRange 16).foldlM (inheritHandle parent child) c)
      fun c' => Inv { v with
          table := v.inherit child
            (inherited (c.processes parent).filedesc (List.finRange 16)) } c' ∧
        Filled c c' child (inherited (c.processes parent).filedesc (List.finRange 16)) := by
    refine ensures_foldlM (fun done c' => Inv { v with
        table := v.inherit child (inherited (c.processes parent).filedesc done) } c' ∧
      Filled c c' child (inherited (c.processes parent).filedesc done)) ⟨?_, ?_⟩ ?_
    · have hsame : v.inherit child (inherited (c.processes parent).filedesc []) = v.table := by
        funext slot
        obtain ⟨other, fd⟩ := slot
        by_cases hother : other = child
        · subst hother
          simp [View.inherit, inherited, hempty]
        · simp [View.inherit, hother]
      rw [hsame]
      exact hinv
    · exact .start hnone
    · rintro done fd rest c₁ hitems ⟨hinv₁, hfilled₁⟩
      have hnew := notMem_of_finRange hitems
      cases hfh : (c.processes parent).filedesc fd with
      | none =>
          rw [inheritHandle, hfilled₁.other hdistinct, hfh, inherited_concat_none hnew hfh]
          refine ensures_ok.mpr ?_
          exact ⟨hinv₁, hfilled₁⟩
      | some fh =>
          have hslot : { v with
              table := v.inherit child (inherited (c.processes parent).filedesc done) }.table
                (child, fd) = none := by
            simp [View.inherit, inherited, hnew]
          have hheld : { v with
              table := v.inherit child (inherited (c.processes parent).filedesc done) }.table
                (parent, fd) = some fh := by
            simp [View.inherit, hdistinct, htable, hfh]
          obtain ⟨c₂, hrun, hinv₂, -⟩ := share_spec hinv₁ hslot hchild hheld
          have hround : inheritHandle parent child c₁ fd = .ok c₂ := by
            rw [inheritHandle, hfilled₁.other hdistinct, hfh]
            exact hrun
          rw [hround, ensures_ok]
          refine ⟨?_, hfilled₁.inherit hdistinct hnew hround⟩
          rw [inherited_concat, hfh, ← View.take_inherit]
          exact hinv₂
  rw [inherited_all] at hloop
  exact hloop

/-- The slot of a forked child when it was just taken. -/
def forked (parent child : Pid) : Process :=
  { Process.zero with
    pid := child
    existing := true
    parentPid := some parent }

theorem forkProcess_spec (hrunning : Running c r wait pid) (hfree : c.getFreePid = some child)
    (vfork : Bool) :
    Ensures Harmless (c.forkProcess pid child r vfork) fun c' =>
      Inv (viewOf c' r wait) c' ∧ Created c c' child ∧
        (c'.processes child).cwd = if vfork then [] else (c.processes pid).cwd := by
  obtain ⟨hzero, hvacant⟩ := getFreePid_spec hfree
  have halive : (viewOf c r wait).alive pid = true := hrunning.live
  have hexisting := hrunning.inv.slots.existing pid (.inl halive)
  have hidentity := hrunning.inv.slots.identity pid hexisting
  have hdistinct : pid ≠ child := by
    rintro rfl
    cases hvacant.symm.trans hexisting
  have hdead : (viewOf c r wait).alive child = false := by simp [viewOf, isLive, hvacant]
  have hchild : wait child = .awake := hrunning.inv.waits.awake child hdead
  have hborn : ((c.reset child).modify child fun proc =>
      { proc with parentPid := some pid }).record (.created (some pid) child) =
        c.born child (forked pid child) := by
    simp [reset, modify, born, forked]
  have hinv₀ : Inv { viewOf c r wait with dying := some child } (c.born child (forked pid child)) :=
    hrunning.inv.born rfl hzero hvacant ⟨rfl, rfl, rfl, rfl, rfl, rfl, rfl⟩ (by
      rintro other ⟨⟩
      exact .inl halive)
  rw [forkProcess]
  simp only [hidentity, hborn]
  generalize hc₁ : (if vfork = true then (c.born child (forked pid child)).modify pid
    (fun proc => { proc with waitingOn := none }) else c.born child (forked pid child)) = c₁
  have hinv₁ : Inv { viewOf c r wait with dying := some child } c₁ := by
    subst hc₁
    split
    · exact (hinv₀.forget hrunning.awake).1
    · exact hinv₀
  have hkid₁ : c₁.processes child = forked pid child := by
    subst hc₁
    split
    · simp [Ne.symm hdistinct]
    · simp
  have hothers₁ : ∀ other, other ≠ child → (c₁.processes other).still =
      (c.processes other).still := by
    intro other hother
    subst hc₁
    split
    · by_cases hpid : other = pid
      · subst hpid
        simp only [modify_processes, Function.update_self, born_of_ne c hother]
        rfl
      · simp [hpid, born_of_ne c hother]
    · rw [born_of_ne c hother]
  have hcurrent₁ : c₁.current = c.current := by
    subst hc₁
    split <;> rfl
  have hfiledesc₁ : (c₁.processes pid).filedesc = (c.processes pid).filedesc :=
    Process.field_of_still (hothers₁ pid hdistinct) Process.filedesc fun _ => rfl
  apply ensures_bind (inheritHandles_spec hinv₁ hchild (fun fd => by
      simp [viewOf, isLive, hvacant]) hdistinct (fun fd => by
      simp [viewOf, hrunning.live, hfiledesc₁]) (fun fd => by simp [hkid₁, forked, Process.zero]))
  rintro c₂ ⟨hinv₂, hfilled⟩
  have hkid₂ : c₂.processes child =
      { forked pid child with filedesc := (c₁.processes pid).filedesc } := by
    rw [hfilled.self, hkid₁]
  have hcwd₁ : (c₁.processes pid).cwd = (c.processes pid).cwd :=
    Process.field_of_still (hothers₁ pid hdistinct) Process.cwd fun _ => rfl
  generalize hd : (if vfork = true then c₂.modify child (fun proc =>
      { proc with savedRegs := { r with eax := 0 } }) else
    (c₂.modify child fun proc => { proc with savedRegs := { r with eax := 0 } }).modify child
      fun proc => { proc with cwd := ((c₂.modify child fun proc =>
        { proc with savedRegs := { r with eax := 0 } }).processes pid).cwd }) = d
  have hkid : d.processes child = { forked pid child with
      filedesc := (c₁.processes pid).filedesc
      savedRegs := { r with eax := 0 }
      cwd := if vfork then [] else (c.processes pid).cwd } := by
    subst hd
    cases vfork with
    | true => simp [hkid₂, forked, Process.zero]
    | false => simp [hkid₂, forked, hdistinct, hfilled.other hdistinct, hcwd₁]
  have hothers : ∀ other, other ≠ child → d.processes other = c₁.processes other := by
    intro other hother
    subst hd
    split
    · simp [hother, hfilled.other hother]
    · simp [hother, hfilled.other hother]
  have hinv : Inv { viewOf c r wait with
      dying := some child
      table := (viewOf c r wait).inherit child (d.processes child).filedesc } d := by
    rw [hkid]
    subst hd
    split
    · exact hinv₂.inert child fun _ => rfl
    · refine Inv.inert ?_ child fun _ => rfl
      exact hinv₂.inert child fun _ => rfl
  have hcurrent : d.current = c.current := by
    subst hd
    split
    · exact hfilled.current.trans hcurrent₁
    · exact hfilled.current.trans hcurrent₁
  refine ensures_ok.mpr ?_
  have hnewborn : Newborn (d.processes child) child (some pid) := by
    rw [hkid]
    exact ⟨rfl, rfl, rfl, rfl, rfl, rfl, rfl⟩
  have hlaunch := launch_spec hinv hnewborn
    (by rw [hkid]; rfl) (by rw [hkid]; rfl) (by
      intro other hother
      rw [hkid]
      simpa [forked, Process.zero] using Ne.symm hother) (by rw [hkid]; rfl)
    (fun other hother => by rw [hothers other hother, hothers₁ other hother]) hcurrent
    (by rw [hrunning.current]; simpa using hdistinct)
  rw [hkid] at hlaunch
  exact hlaunch

/-! ## Processes started by the kernel -/

/-- The slot of a process of the kernel when it was just taken. -/
def started (pid : Pid) : Process :=
  { Process.zero with
    pid := pid
    existing := true
    parentPid := none
    waitingOn := none
    exitStatus := 255 }

/-- A new pipe does not touch the processes. -/
theorem newPipe_frame (c : Core) :
    Ensures Harmless c.newPipe fun result =>
      result.1.processes = c.processes ∧ result.1.queue = c.queue ∧
        result.1.current = c.current := by
  rw [newPipe]
  apply ensures_bind (kmalloc_spec c 24)
  rintro _ rfl
  apply ensures_bind (kmalloc_spec _ bufsize)
  rintro _ rfl
  exact ensures_ok.mpr ⟨rfl, rfl, rfl⟩

/-- A new handle in a descriptor of a process that is being created. -/
theorem Filled.opening {c₁ : Core} {filedesc : Fd → Option Block}
    (hfilled : Filled c c₁ child filedesc) (kind : HandleKind) (fd : Fd) :
    Filled c (c₁.opening kind child fd) child (Function.update filedesc fd (some c₁.heap)) :=
  hfilled.set rfl rfl rfl

/-- A new handle in a descriptor of a process that is being created. -/
theorem Inv.openNew {c₁ : Core} {filedesc : Fd → Option Block} {kind : HandleKind} (fd : Fd)
    (hinv : Inv { v with table := v.inherit child filedesc } c₁) (hopens : Opens c₁ kind)
    (hnone : filedesc fd = none) (hawake : v.wait child = .awake) :
    Inv { v with table := v.inherit child (Function.update filedesc fd (some c₁.heap)) }
      (c₁.opening kind child fd) := by
  have hslot : ({ v with table := v.inherit child filedesc } : View).table (child, fd) = none := by
    simp [View.inherit, hnone]
  obtain ⟨hopened, -⟩ := hinv.opening hopens hslot hawake
  rw [View.take_inherit] at hopened
  exact hopened

/-- A process was started, with the reading end of a new pipe as its standard input. -/
structure Started (c : Core) (r : Regs) (wait : Pid → Wait) (pid : Pid) (c' : Core) : Prop where
  inv : Inv (viewOf c' r wait) c'
  created : Created c c' pid
  cwd : (c'.processes pid).cwd = [47]
  input : ∃ fh b handle, (c'.processes pid).filedesc 0 = some fh ∧ c'.handles fh = some handle ∧
    handle.kind = .pipeReader b ∧ (∃ pipe, c'.pipes b = some pipe ∧ pipe.writing = true) ∧
    ∀ fh handle, c'.handles fh = some handle → handle.kind ≠ .pipeWriter b

theorem startProcess_spec (hinv : Inv (viewOf c r wait) c) (hfree : c.getFreePid = some pid)
    (hcurrent : c.current ≠ some pid) (stackEnd startAddress : Word) :
    Ensures Harmless (c.startProcess pid stackEnd startAddress) (Started c r wait pid) := by
  obtain ⟨hzero, hvacant⟩ := getFreePid_spec hfree
  have hdead : (viewOf c r wait).alive pid = false := by simp [viewOf, isLive, hvacant]
  have hawake : wait pid = .awake := hinv.waits.awake pid hdead
  have hborn : ((c.reset pid).modify pid fun proc =>
      { proc with parentPid := none, waitingOn := none, exitStatus := 255 }).record
        (.created none pid) = c.born pid (started pid) := by
    simp [reset, modify, born, started]
  have hinv₀ : Inv { viewOf c r wait with dying := some pid } (c.born pid (started pid)) :=
    hinv.born rfl hzero hvacant ⟨rfl, rfl, rfl, rfl, rfl, rfl, rfl⟩ (fun _ h => by cases h)
  rw [startProcess]
  simp only [hborn]
  apply ensures_bind (ensures_and (newPipe_spec hinv₀) (newPipe_frame _))
  rintro ⟨c₁, b⟩ ⟨⟨hinv₁, -, ⟨pipe, hpipe, hreading, hwriting⟩, hkinds, -, -⟩, hprocesses, hqueue,
    hcurrent₁⟩
  simp only at hinv₁ hpipe hkinds hprocesses hqueue hcurrent₁ ⊢
  have hfilled₁ : Filled (c.born pid (started pid)) c₁ pid fun _ => none := by
    refine ⟨?_, hqueue, hcurrent₁⟩
    rw [hprocesses]
    simp [born, modify, started, Process.zero]
  have htable : { viewOf c r wait with dying := some pid }.inherit pid (fun _ => none) =
      (viewOf c r wait).table := by
    funext slot
    obtain ⟨other, fd⟩ := slot
    by_cases hother : other = pid
    · subst hother
      simp [View.inherit, viewOf, isLive, hvacant]
    · simp [View.inherit, hother]
  have hinv₁' : Inv { { viewOf c r wait with dying := some pid } with
      table := { viewOf c r wait with dying := some pid }.inherit pid fun _ => none } c₁ := by
    rw [htable]
    exact hinv₁
  rw [newPipeReader]
  apply ensures_bind (newHandle_spec c₁ _)
  rintro _ rfl
  have hopens : Opens c₁ (.pipeReader b) := by
    refine ⟨?_, by simp⟩
    rintro _ ⟨⟩
    exact ⟨⟨pipe, hpipe, hreading⟩, fun fh handle hfh => (hkinds fh handle hfh).1⟩
  have hinv₂ := Inv.openNew 0 hinv₁' hopens rfl hawake
  have hfilled₂ := hfilled₁.opening (.pipeReader b) 0
  have hplain : ∀ core : Core, Opens core .screen := fun core => Opens.plain core (by simp)
  simp only [newScreenHandle]
  apply ensures_bind (newHandle_spec (c₁.opening (.pipeReader b) pid 0) _)
  rintro _ rfl
  have hinv₃ := Inv.openNew 1 hinv₂ (hplain _) rfl hawake
  have hfilled₃ := hfilled₂.opening .screen 1
  apply ensures_bind (newHandle_spec ((c₁.opening (.pipeReader b) pid 0).opening .screen pid 1) _)
  rintro _ rfl
  have hinv₄ := Inv.openNew 2 hinv₃ (hplain _) rfl hawake
  have hfilled₄ := hfilled₃.opening .screen 2
  refine ensures_ok.mpr ?_
  change Started c r wait pid (((((c₁.opening (.pipeReader b) pid 0).opening .screen pid 1).opening
    .screen pid 2).modify pid fun proc =>
      { proc with cwd := [47], savedRegs := initRegs stackEnd startAddress }).makeReady pid)
  generalize hd : ((((c₁.opening (.pipeReader b) pid 0).opening .screen pid 1).opening
    .screen pid 2).modify pid fun proc =>
      { proc with cwd := [47], savedRegs := initRegs stackEnd startAddress }) = d
  have hkid : d.processes pid = { started pid with
      filedesc := Function.update (Function.update (Function.update (fun _ => none) 0
        (some c₁.heap)) 1 (some (c₁.heap + 1))) 2 (some (c₁.heap + 1 + 1))
      cwd := [47]
      savedRegs := initRegs stackEnd startAddress } := by
    subst hd
    simp only [modify_processes, Function.update_self, hfilled₄.self, born_self]
    rfl
  have hothers : ∀ other, other ≠ pid → (d.processes other).still = (c.processes other).still := by
    intro other hother
    subst hd
    rw [modify_processes, Function.update_of_ne hother, hfilled₄.other hother,
      born_of_ne c hother]
  have hinv₅ : Inv { viewOf c r wait with
      dying := some pid
      table := (viewOf c r wait).inherit pid (d.processes pid).filedesc } d := by
    rw [hkid]
    subst hd
    exact hinv₄.inert pid fun _ => rfl
  have hnewborn : Newborn (d.processes pid) pid none := by
    rw [hkid]
    exact ⟨rfl, rfl, rfl, rfl, rfl, rfl, rfl⟩
  have hcurrent₅ : d.current = c.current := by
    subst hd
    exact hfilled₄.current
  obtain ⟨hlaunched, hcreated, hcwd⟩ := launch_spec hinv₅ hnewborn (by rw [hkid]; rfl)
    (by rw [hkid]; rfl) (by rw [hkid]; exact fun _ _ h => by cases h) (by rw [hkid]; rfl)
    hothers hcurrent₅ hcurrent
  have hfiles : (d.makeReady pid).handles = d.handles ∧ (d.makeReady pid).pipes = d.pipes := by
    have hsame := unlinked_listAdd (d.modify pid fun proc => { proc with ready := true }) .ready pid
    exact ⟨congrArg (fun core => core.handles) hsame, congrArg (fun core => core.pipes) hsame⟩
  refine ⟨hlaunched, hcreated, by rw [hcwd, hkid], c₁.heap, b, ⟨.pipeReader b, 1, 0, 0⟩, ?_, ?_,
    rfl, ⟨pipe, ?_, hwriting⟩, ?_⟩
  · have hfiledesc := (SameView.makeReady d pid).filedesc pid
    rw [hfiledesc, hkid]
    simp
  · rw [hfiles.1]
    subst hd
    simp only [opening, install, setFiledesc, modify_handles, record_handles, setHandle_handles,
      modify_heap, record_heap, setHandle_heap, Function.update_apply]
    grind
  · rw [hfiles.2]
    subst hd
    exact hpipe
  · intro fh handle hfh
    rw [hfiles.1] at hfh
    subst hd
    have hkind := hkinds fh handle
    simp only [opening, install, setFiledesc, modify_handles, record_handles, setHandle_handles,
      Function.update_apply] at hfh
    grind

end Core

end Rhythmos.Kernel
