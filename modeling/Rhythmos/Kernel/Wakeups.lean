import Rhythmos.Kernel.Invariant

/-!
# Falling asleep and waking up

A process that falls asleep registers for what it waits for, and whoever wakes
it up removes the registration.  `rouse` and `lull` are these two changes of a
view.  Most functions change nothing about processes but their `ready` flags,
their list pointers and what they are registered for; `Quiet` says so, and the
parts of the invariant that do not mention these survive.
-/

namespace Rhythmos.Kernel

open Fallible Ledger

/-! ## Quiet changes -/

/-- The process without its list pointers, its `ready` flag and its registrations. -/
def Process.still (proc : Process) : Process :=
  { proc with
    prev := none
    next := none
    ready := false
    waitingOn := none
    receiveBlocked := false }

/-- Every other field can be read off. -/
theorem Process.field_of_still {A : Type*} {proc proc' : Process}
    (hsame : proc.still = proc'.still) (field : Process → A)
    (hfield : ∀ proc, field proc.still = field proc) : field proc = field proc' := by
  rw [← hfield, hsame, hfield]

namespace Core

structure Quiet (c c' : Core) : Prop where
  still : ∀ pid, (c'.processes pid).still = (c.processes pid).still
  current : c'.current = c.current
  inputPipe : c'.inputPipe = c.inputPipe
  heap : c.heap ≤ c'.heap
  mailboxes : c'.mailboxes = c.mailboxes
  loud : c'.loud = c.loud

theorem Quiet.refl (c : Core) : Quiet c c :=
  ⟨fun _ => rfl, rfl, rfl, le_rfl, rfl, rfl⟩

theorem Quiet.trans {c₁ c₂ c₃ : Core} (hfirst : Quiet c₁ c₂) (hsecond : Quiet c₂ c₃) :
    Quiet c₁ c₃ where
  still pid := (hsecond.still pid).trans (hfirst.still pid)
  current := hsecond.current.trans hfirst.current
  inputPipe := hsecond.inputPipe.trans hfirst.inputPipe
  heap := hfirst.heap.trans hsecond.heap
  mailboxes := hsecond.mailboxes.trans hfirst.mailboxes
  loud := hsecond.loud.trans hfirst.loud

/-- A quiet change up to list pointers. -/
theorem Quiet.of_unlinked {c d c' : Core} (hquiet : Quiet c d)
    (hsame : c'.unlinked = d.unlinked) : Quiet c c' where
  still pid := by
    have hstill : (c'.processes pid).still = (d.processes pid).still :=
      congrArg (fun core => (core.processes pid).still) hsame
    exact hstill.trans (hquiet.still pid)
  current := (congrArg Core.current hsame).trans hquiet.current
  inputPipe := (congrArg Core.inputPipe hsame).trans hquiet.inputPipe
  heap := hquiet.heap.trans_eq (congrArg Core.heap hsame).symm
  mailboxes := (congrArg Core.mailboxes hsame).trans hquiet.mailboxes
  loud := (congrArg Core.loud hsame).trans hquiet.loud

section Fields

variable {c c' : Core} (hquiet : Quiet c c') (pid : Pid)
include hquiet

/-- Every other field is the same. -/
theorem Quiet.field {A : Type*} (field : Process → A)
    (hfield : ∀ proc, field proc.still = field proc) :
    field (c'.processes pid) = field (c.processes pid) :=
  Process.field_of_still (hquiet.still pid) field hfield

theorem Quiet.existing : (c'.processes pid).existing = (c.processes pid).existing :=
  hquiet.field pid Process.existing fun _ => rfl

theorem Quiet.parentPid : (c'.processes pid).parentPid = (c.processes pid).parentPid :=
  hquiet.field pid Process.parentPid fun _ => rfl

theorem Quiet.inSyscall : (c'.processes pid).inSyscall = (c.processes pid).inSyscall :=
  hquiet.field pid Process.inSyscall fun _ => rfl

theorem Quiet.filedesc : (c'.processes pid).filedesc = (c.processes pid).filedesc :=
  hquiet.field pid Process.filedesc fun _ => rfl

theorem Quiet.mailbox : (c'.processes pid).mailbox = (c.processes pid).mailbox :=
  hquiet.field pid Process.mailbox fun _ => rfl

theorem Quiet.stage : (c'.processes pid).stage = (c.processes pid).stage :=
  hquiet.field pid Process.stage fun _ => rfl

omit pid in
theorem Quiet.mail : c'.mailLedger = c.mailLedger := by
  rw [mailLedger_eq, mailLedger_eq, hquiet.loud]

theorem Quiet.isLive : c'.isLive pid = c.isLive pid :=
  hquiet.field pid (fun proc => proc.existing && !proc.exited) fun _ => rfl

end Fields

theorem Slots.quiet {v : View} {c c' : Core} (hslots : Slots v c) (hquiet : Quiet c c')
    (table : Slot → Option Block) (wait : Pid → Wait) :
    Slots { v with table := table, wait := wait } c' where
  existing pid hpresent := (hquiet.existing pid).trans (hslots.existing pid hpresent)
  dying := hslots.dying
  identity pid hexisting := by
    rw [hquiet.existing] at hexisting
    exact (hquiet.field pid Process.pid fun _ => rfl).trans (hslots.identity pid hexisting)
  zero := (hquiet.existing 0).trans hslots.zero
  parent pid parent hexisting hparent := by
    rw [hquiet.existing] at hexisting
    rw [hquiet.parentPid] at hparent
    exact hslots.parent pid parent hexisting hparent

theorem Mail.quiet {v : View} {c c' : Core} (hmail : Mail v c) (hquiet : Quiet c c')
    (table : Slot → Option Block) (wait : Pid → Wait) :
    Mail { v with table := table, wait := wait } c' where
  linear := by
    rw [hquiet.mail]
    exact hmail.linear
  fresh mailbox hout := by
    rw [hquiet.mail] at hout
    exact (hmail.fresh mailbox hout).trans_le hquiet.heap
  unreleased mailbox hout := by
    rw [hquiet.mail] at hout
    rw [hquiet.mailboxes]
    exact hmail.unreleased mailbox hout
  owned pid mailbox hpresent howns := by
    rw [hquiet.mailbox] at howns
    rw [hquiet.mail]
    exact hmail.owned pid mailbox hpresent howns
  used pid mailbox hexisting howns := by
    rw [hquiet.existing] at hexisting
    rw [hquiet.mailbox] at howns
    exact (hmail.used pid mailbox hexisting howns).trans_le hquiet.heap
  unique pid other mailbox hpid hother hleft hright := by
    rw [hquiet.existing] at hpid hother
    rw [hquiet.mailbox] at hleft hright
    exact hmail.unique pid other mailbox hpid hother hleft hright
  empty pid hexisting hnone := by
    rw [hquiet.existing] at hexisting
    rw [hquiet.mailbox] at hnone
    exact (hquiet.field pid Process.mailboxSize fun _ => rfl).trans
      (hmail.empty pid hexisting hnone)

theorem Pending.quiet {v : View} {c c' : Core} (hpending : Pending v c) (hquiet : Quiet c c')
    (table : Slot → Option Block) (wait : Pid → Wait) :
    Pending { v with table := table, wait := wait } c' := by
  intro pid halive hcurrent hcall
  rw [hquiet.current] at hcurrent
  rw [hquiet.inSyscall] at hcall ⊢
  exact hpending pid halive hcurrent hcall

theorem Chosen.quiet {c c' : Core} (hchosen : Chosen c) (hquiet : Quiet c c') : Chosen c' := by
  intro pid alive hselected
  have hloud : .selected pid alive ∈ c'.loud := List.mem_filter.mpr ⟨hselected, rfl⟩
  rw [hquiet.loud] at hloud
  exact hchosen pid alive (List.mem_filter.mp hloud).1

theorem Lifecycle.quiet {c c' : Core} (hlifecycle : Lifecycle c) (hquiet : Quiet c c') :
    Lifecycle c' where
  lawful := by
    have hlawful := (lawful_filter_loud c.history).mpr hlifecycle.lawful
    rw [← Core.loud, ← hquiet.loud] at hlawful
    exact (lawful_filter_loud c'.history).mp hlawful
  stages pid := by
    rw [hquiet.stage, ← hlifecycle.stages, ← stage_filter_loud, ← stage_filter_loud c.history]
    exact congrArg (fun history => Rhythmos.Kernel.stage history pid) hquiet.loud

/-- The invariant after a quiet change. -/
theorem Inv.quiet {v : View} {c c' : Core} (hinv : Inv v c) (hquiet : Quiet c c')
    {table : Slot → Option Block} {wait : Pid → Wait}
    (hlinked : Linked { v with table := table, wait := wait }.place c')
    (hwaits : Waits { v with table := table, wait := wait } c')
    (hhandles : Handles { v with table := table, wait := wait } c') (hpipes : Pipes c')
    (hreferences : References { v with table := table, wait := wait } c') :
    Inv { v with table := table, wait := wait } c' where
  linked := hlinked
  slots := hinv.slots.quiet hquiet table wait
  waits := hwaits
  handles := hhandles
  pipes := hpipes
  references := hreferences
  mail := hinv.mail.quiet hquiet table wait
  pending := hinv.pending.quiet hquiet table wait
  chosen := hinv.chosen.quiet hquiet
  lifecycle := hinv.lifecycle.quiet hquiet

end Core

/-! ## Waking up -/

/-- What the processes wait for once `sleeper` woke up. -/
def View.rouse (v : View) (sleeper : Option Pid) (pid : Pid) : Wait :=
  if sleeper = some pid then .awake else v.wait pid

@[simp]
theorem View.rouse_none (v : View) : v.rouse none = v.wait := by
  funext pid
  simp [rouse]

theorem View.rouse_awake {v : View} {pid : Pid} (hawake : v.wait pid = .awake)
    (sleeper : Option Pid) : v.rouse sleeper pid = .awake := by
  rw [rouse, hawake, ite_self]

namespace Core

/-- `sleeper` is ready. -/
@[simps]
def rouse (c : Core) (sleeper : Option Pid) : Core :=
  { c with processes := fun pid =>
      if sleeper = some pid then { c.processes pid with ready := true } else c.processes pid }

theorem rouse_some (c : Core) (pid : Pid) :
    (c.modify pid fun proc => { proc with ready := true }) = c.rouse (some pid) := by
  simp only [modify, rouse, Option.some.injEq, Core.mk.injEq, and_self, and_true]
  funext other
  by_cases hother : other = pid
  · subst hother
    simp
  · simp [hother, Ne.symm hother]

@[simp]
theorem rouse_none (c : Core) : c.rouse none = c := by
  simp [rouse]

/-- Waking up changes the `ready` flag only. -/
theorem rouse_field {A : Type*} (c : Core) (sleeper : Option Pid) (pid : Pid)
    (field : Process → A)
    (hfield : ∀ proc : Process, field { proc with ready := true } = field proc) :
    field ((c.rouse sleeper).processes pid) = field (c.processes pid) := by
  rw [rouse_processes]
  split
  · exact hfield _
  · rfl

/-- The sleeper leaves the suspended list for the ready list. -/
theorem resume_sleeper {v : View} {c : Core} (hlinked : Linked v.place c) {pid : Pid}
    (halive : v.alive pid = true) (hwait : v.wait pid ≠ .awake)
    (hexisting : (c.processes pid).existing = true) (hready : (c.processes pid).ready = false) :
    ∃ c', c.resumeProcess pid = .ok c' ∧
      Linked { v with wait := v.rouse (some pid) }.place c' ∧
      c'.unlinked = (c.rouse (some pid)).unlinked := by
  have hplace : v.place pid = some .suspended := by simp [View.place, halive, hwait]
  obtain ⟨c', hrun, hlinked', hsame⟩ := resumeProcess_spec hlinked hplace hexisting hready
  refine ⟨c', hrun, ?_, by rw [hsame, rouse_some]⟩
  have hplaces : { v with wait := v.rouse (some pid) }.place =
      Function.update v.place pid (some .ready) := by
    funext other
    by_cases hother : other = pid
    · subst hother
      simp [View.place, View.rouse, halive]
    · simp [View.place, View.rouse, hother, Ne.symm hother]
  rw [hplaces]
  exact hlinked'

/-- `wake_up_reader` on a pipe whose registered reader is asleep. -/
theorem wakeUpReader_spec {v : View} {c : Core} (hlinked : Linked v.place c) {b : Block}
    {pipe : PipeBuffer} (hpipe : c.pipes b = some pipe)
    (hreader : ∀ pid, pipe.readpid = some pid → v.alive pid = true ∧ v.wait pid ≠ .awake ∧
      (c.processes pid).existing = true ∧ (c.processes pid).ready = false) :
    ∃ c', c.wakeUpReader b = .ok c' ∧
      Linked { v with wait := v.rouse pipe.readpid }.place c' ∧
      c'.unlinked =
        ((c.rouse pipe.readpid).setPipe b (some { pipe with readpid := none })).unlinked := by
  cases hcase : pipe.readpid with
  | none =>
      refine ⟨c, by simp [wakeUpReader, Core.pipe, hpipe, hcase], ?_, ?_⟩
      · rwa [View.rouse_none]
      · have hself : { pipe with readpid := none } = pipe := by rw [← hcase]
        rw [rouse_none, setPipe, hself, ← hpipe, Function.update_eq_self]
  | some pid =>
      obtain ⟨halive, hwait, hexisting, hready⟩ := hreader pid hcase
      obtain ⟨c', hrun, hlinked', hsame⟩ := resume_sleeper hlinked halive hwait hexisting hready
      refine ⟨c'.setPipe b (some { pipe with readpid := none }), ?_, ?_, ?_⟩
      · simp [wakeUpReader, Core.pipe, hpipe, hcase, hrun]
      · exact hlinked'.congr (fun _ => rfl) (fun _ => rfl) rfl
      · have hlift := congrArg
          (fun core => core.setPipe b (some { pipe with readpid := none })) hsame
        exact hlift

/-- The registered reader of a pipe is asleep. -/
theorem Inv.reader_asleep {v : View} {c : Core} (hslots : Slots v c) (hwaits : Waits v c)
    {b : Block} {pipe : PipeBuffer} (hpipe : c.pipes b = some pipe) {pid : Pid}
    (hread : pipe.readpid = some pid) : v.alive pid = true ∧ v.wait pid ≠ .awake ∧
      (c.processes pid).existing = true ∧ (c.processes pid).ready = false := by
  have hwait := (hwaits.registered b pipe pid hpipe).mp hread
  have hasleep : v.wait pid ≠ .awake := by simp [hwait]
  have halive : v.alive pid = true := by
    by_contra hdead
    exact hasleep (hwaits.awake pid (by simpa using hdead))
  refine ⟨halive, hasleep, hslots.existing pid (.inl halive), ?_⟩
  by_contra hready
  exact hasleep ((hwaits.ready pid halive).mp (by simpa using hready))

/-- Changing a pipe while waking its reader up. -/
theorem Waits.rouseReader {v : View} {c : Core} (hwaits : Waits v c) {b : Block}
    {pipe pipe' : PipeBuffer} (hpipe : c.pipes b = some pipe) (hnone : pipe'.readpid = none) :
    Waits { v with wait := v.rouse pipe.readpid }
      ((c.rouse pipe.readpid).setPipe b (some pipe')) where
  awake pid hdead := View.rouse_awake (hwaits.awake pid hdead) _
  ready pid halive := by
    have hready := hwaits.ready pid halive
    simp only [setPipe_processes, rouse_processes, View.rouse]
    grind
  registered b' pipe₁ pid hpipe₁ := by
    have hregistered := hwaits.registered b' pipe₁ pid
    have hregistered' := hwaits.registered b pipe
    simp only [setPipe_pipes, rouse_pipes, Function.update_apply, View.rouse] at hpipe₁ ⊢
    grind
  blocked pid hexisting := by
    have hblocked := hwaits.blocked pid
    have hregistered := hwaits.registered b pipe pid hpipe
    simp only [setPipe_processes, rouse_processes, View.rouse] at hexisting ⊢
    grind
  awaited pid child halive hchild := by
    have hawaited := hwaits.awaited pid child halive hchild
    have hregistered := hwaits.registered b pipe pid hpipe
    simp only [setPipe_processes, rouse_processes, View.rouse]
    grind
  reading pid b' hwait := by
    have hreading := hwaits.reading pid b'
    have hregistered := hwaits.registered b pipe pid hpipe
    simp only [ReadsFrom, setPipe_processes, setPipe_pipes, setPipe_handles, rouse_processes,
      rouse_pipes, rouse_handles, Function.update_apply, View.rouse] at hreading hwait ⊢
    grind
  receiving pid hwait := by
    have hreceiving := hwaits.receiving pid
    simp only [setPipe_processes, rouse_processes, View.rouse] at hwait ⊢
    grind
  awaiting pid child hwait := by
    have hawaiting := hwaits.awaiting pid child
    simp only [setPipe_processes, rouse_processes, View.rouse, View.present] at hawaiting hwait ⊢
    grind

end Core

/-! ## Falling asleep -/

/-- What the processes wait for once a process fell asleep. -/
def View.lull (v : View) (pid : Pid) (wait : Wait) : Pid → Wait := Function.update v.wait pid wait

namespace Core

/-- A running process leaves the ready list for the suspended list. -/
theorem suspend_awake {v : View} {c : Core} (hlinked : Linked v.place c) {pid : Pid}
    (halive : v.alive pid = true) (hawake : v.wait pid = .awake)
    (hexisting : (c.processes pid).existing = true) (hready : (c.processes pid).ready = true)
    {wait : Wait} (hwait : wait ≠ .awake) :
    ∃ c', c.suspendProcess pid = .ok c' ∧
      Linked { v with wait := v.lull pid wait }.place c' ∧
      c'.unlinked = (c.modify pid fun proc => { proc with ready := false }).unlinked := by
  have hplace : v.place pid = some .ready := by simp [View.place, halive, hawake]
  obtain ⟨c', hrun, hlinked', hsame⟩ := suspendProcess_spec hlinked hplace hexisting hready
  refine ⟨c', hrun, ?_, hsame⟩
  have hplaces : { v with wait := v.lull pid wait }.place =
      Function.update v.place pid (some .suspended) := by
    funext other
    by_cases hother : other = pid
    · subst hother
      simp [View.place, View.lull, halive, hwait]
    · simp [View.place, View.lull, hother]
  rw [hplaces]
  exact hlinked'

/-- A process that is alive and awake can be suspended. -/
theorem Inv.awake_ready {v : View} {c : Core} (hinv : Inv v c) {pid : Pid}
    (halive : v.alive pid = true) (hawake : v.wait pid = .awake) :
    (c.processes pid).existing = true ∧ (c.processes pid).ready = true :=
  ⟨hinv.slots.existing pid (.inl halive), (hinv.waits.ready pid halive).mpr hawake⟩

/-- A process falls asleep, not on a pipe, with a change of its own that registers what it waits
for. -/
theorem Waits.lullSelf {v : View} {c : Core} (hwaits : Waits v c) {pid : Pid} {wait : Wait}
    {change : Process → Process} (halive : v.alive pid = true) (hasleep : wait ≠ .awake)
    (hawake : v.wait pid = .awake) (hpipe : ∀ b, wait ≠ .reading b)
    (hsame : ∀ proc, (change proc).existing = proc.existing ∧
      (change proc).inSyscall = proc.inSyscall ∧ (change proc).mailboxSize = proc.mailboxSize ∧
      (change proc).parentPid = proc.parentPid)
    (hblocked : (c.processes pid).existing = true →
      ((change (c.processes pid)).receiveBlocked = true ↔ wait = .receiving))
    (hawaited : ∀ child ≠ 0,
      (change (c.processes pid)).waitingOn = some child ↔ wait = .awaiting child)
    (hreceiving : wait = .receiving → (c.processes pid).inSyscall = Call.receive.number ∧
      (c.processes pid).mailboxSize = 0)
    (hawaiting : ∀ child, wait = .awaiting child →
      (c.processes pid).inSyscall = Call.waitpid.number ∧
        pidArgument ((v.frame pid).args 0) = some child ∧ child ≠ 0 ∧ v.present child ∧
        (c.processes child).parentPid = some pid) :
    Waits { v with wait := v.lull pid wait }
      ((c.modify pid change).modify pid fun proc => { proc with ready := false }) where
  awake other hdead := by
    have hother := hwaits.awake other hdead
    simp only [View.lull, Function.update_apply]
    grind
  ready other hother := by
    have hready := hwaits.ready other hother
    simp only [modify_processes, View.lull, Function.update_apply]
    grind
  registered b pipe other hpipe' := by
    have hregistered := hwaits.registered b pipe other hpipe'
    simp only [View.lull, Function.update_apply]
    grind
  blocked other hexisting := by
    have hother := hwaits.blocked other
    simp only [modify_processes, View.lull, Function.update_apply] at hexisting ⊢
    grind
  awaited other child hother hchild := by
    have hkept := hwaits.awaited other child hother hchild
    have hnew := hawaited child hchild
    simp only [modify_processes, View.lull, Function.update_apply]
    grind
  reading other b hwait := by
    have hreading := hwaits.reading other b
    simp only [ReadsFrom, modify_processes, modify_pipes, modify_handles, View.lull,
      Function.update_apply] at hreading hwait ⊢
    grind
  receiving other hwait := by
    have hother := hwaits.receiving other
    simp only [modify_processes, View.lull, Function.update_apply] at hwait ⊢
    grind
  awaiting other child hwait := by
    have hother := hwaits.awaiting other child
    have hnew := hawaiting child
    simp only [modify_processes, View.lull, View.present, Function.update_apply]
      at hother hnew hwait ⊢
    grind

/-- A process falls asleep on an empty pipe that is open for writing. -/
theorem Waits.lullReader {v : View} {c : Core} (hwaits : Waits v c) {pid : Pid} {b : Block}
    {pipe : PipeBuffer} (halive : v.alive pid = true) (hawake : v.wait pid = .awake)
    (hreads : ReadsFrom v c pid b) (hpipe : c.pipes b = some pipe) (hnone : pipe.readpid = none)
    (hlen : pipe.len = 0) (hwriting : pipe.writing = true) :
    Waits { v with wait := v.lull pid (.reading b) }
      ((c.setPipe b (some { pipe with readpid := some pid })).modify pid
        fun proc => { proc with ready := false }) where
  awake other hdead := by
    have hother := hwaits.awake other hdead
    simp only [View.lull, Function.update_apply]
    grind
  ready other hother := by
    have hready := hwaits.ready other hother
    simp only [modify_processes, setPipe_processes, View.lull, Function.update_apply]
    grind
  registered b' pipe' other hpipe' := by
    have hregistered := hwaits.registered b' pipe' other
    have hregistered' := hwaits.registered b pipe other hpipe
    simp only [modify_pipes, setPipe_pipes, View.lull, Function.update_apply] at hpipe' ⊢
    grind
  blocked other hexisting := by
    have hblocked := hwaits.blocked other
    simp only [modify_processes, setPipe_processes, View.lull, Function.update_apply]
      at hexisting ⊢
    grind
  awaited other child hother hchild := by
    have hawaited := hwaits.awaited other child hother hchild
    simp only [modify_processes, setPipe_processes, View.lull, Function.update_apply]
    grind
  reading other b' hwait := by
    have hreading := hwaits.reading other b'
    have hregistered := hwaits.registered b pipe other hpipe
    simp only [ReadsFrom, modify_processes, setPipe_processes, modify_pipes, setPipe_pipes,
      modify_handles, setPipe_handles, View.lull, Function.update_apply] at hreading hreads hwait ⊢
    grind
  receiving other hwait := by
    have hreceiving := hwaits.receiving other
    simp only [modify_processes, setPipe_processes, View.lull, Function.update_apply] at hwait ⊢
    grind
  awaiting other child hwait := by
    have hawaiting := hwaits.awaiting other child
    simp only [modify_processes, setPipe_processes, View.lull, View.present,
      Function.update_apply] at hawaiting hwait ⊢
    grind

/-! ## Changes that concern nobody asleep -/

/-- A pipe that nobody waits for may be replaced, added or removed. -/
theorem Waits.setPipe {v : View} {c : Core} (hwaits : Waits v c) {b : Block}
    (hnobody : ∀ pid, v.wait pid ≠ .reading b) {value : Option PipeBuffer}
    (hvalue : ∀ pipe, value = some pipe → pipe.readpid = none) : Waits v (c.setPipe b value) where
  awake := hwaits.awake
  ready := hwaits.ready
  registered b' pipe pid hpipe := by
    have hregistered := hwaits.registered b' pipe pid
    have hnobody' := hnobody pid
    simp only [setPipe_pipes, Function.update_apply] at hpipe
    grind
  blocked := hwaits.blocked
  awaited := hwaits.awaited
  reading pid b' hwait := by
    have hne : b' ≠ b := by
      rintro rfl
      exact hnobody pid hwait
    obtain ⟨hreads, pipe, hpipe, hempty⟩ := hwaits.reading pid b' hwait
    exact ⟨hreads, pipe, by simpa [hne] using hpipe, hempty⟩
  receiving := hwaits.receiving
  awaiting := hwaits.awaiting

/-- Descriptors of processes that are awake may change, and handles may change as
long as those in use keep their kind. -/
theorem Waits.retable {v : View} {c : Core} (hwaits : Waits v c) {table : Slot → Option Block}
    {handles : Block → Option FileHandle}
    (htable : ∀ pid fd, v.wait pid ≠ .awake → table (pid, fd) = v.table (pid, fd))
    (hkinds : ∀ slot fh handle, table slot = some fh → c.handles fh = some handle →
      ∃ new, handles fh = some new ∧ new.kind = handle.kind) :
    Waits { v with table := table } { c with handles := handles } where
  awake := hwaits.awake
  ready := hwaits.ready
  registered := hwaits.registered
  blocked := hwaits.blocked
  awaited := hwaits.awaited
  reading pid b hwait := by
    obtain ⟨⟨hcall, fd, fh, handle, hfd, hslot, hfh, hkind⟩, hpipe⟩ := hwaits.reading pid b hwait
    have hasleep : v.wait pid ≠ .awake := fun hawake => by cases hawake.symm.trans hwait
    have hslot' : table (pid, fd) = some fh := (htable pid fd hasleep).trans hslot
    obtain ⟨new, hnew, hsame⟩ := hkinds (pid, fd) fh handle hslot' hfh
    exact ⟨⟨hcall, fd, fh, new, hfd, hslot', hnew, hsame.trans hkind⟩, hpipe⟩
  receiving := hwaits.receiving
  awaiting := hwaits.awaiting

end Core

end Rhythmos.Kernel
