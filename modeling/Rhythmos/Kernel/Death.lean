import Rhythmos.Kernel.Creation

/-!
# Death of processes

`kill_process` takes a process off its list, closes its descriptors, frees its
memory, and leaves the slot to the parent or releases it.  The process must not
be registered with a pipe or blocked in `syscall_receive`: nothing removes these
registrations.
-/

namespace Rhythmos.Kernel

open Fallible Ledger RefCount ByteMemory Libc DoublyLinked

/-- The process `dead` is being killed. -/
def View.perish (v : View) (dead : Pid) : View :=
  { v with
    alive := Function.update v.alive dead false
    dying := some dead
    wait := Function.update v.wait dead .awake }

/-- The references without those of one process that were given up so far. -/
def View.abandon (v : View) (dead : Pid) (done : List Fd) (slot : Slot) : Option Block :=
  if slot.1 = dead ∧ slot.2 ∈ done then none else v.table slot

namespace Core

variable {c : Core} {r : Regs} {wait : Pid → Wait} {pid dead : Pid} {v : View}

/-! ## Leaving the list -/

/-- A process that can be killed: no registration of it stays behind. -/
structure Killable (v : View) (dead : Pid) : Prop where
  alive : v.alive dead = true
  settled : v.dying = none
  reading : ∀ b, v.wait dead ≠ .reading b
  receiving : v.wait dead ≠ .receiving

theorem View.perish_present (hkillable : Killable v dead) (pid : Pid) :
    (v.perish dead).present pid ↔ v.present pid := by
  have halive := hkillable.alive
  have hdying := hkillable.settled
  simp only [View.perish, View.present, Function.update_apply]
  grind

theorem Waits.perish (hwaits : Waits v c) (hkillable : Killable v dead) :
    Waits (v.perish dead) c where
  awake other hdead := by
    have hawake := hwaits.awake other
    simp only [View.perish, Function.update_apply] at hdead ⊢
    grind
  ready other halive := by
    have hready := hwaits.ready other
    simp only [View.perish, Function.update_apply] at halive ⊢
    grind
  registered b pipe other hpipe := by
    have hregistered := hwaits.registered b pipe other hpipe
    have hreading := hkillable.reading b
    simp only [View.perish, Function.update_apply]
    grind
  blocked other hexisting := by
    have hblocked := hwaits.blocked other hexisting
    have hreceiving := hkillable.receiving
    simp only [View.perish, Function.update_apply]
    grind
  awaited other child halive hchild := by
    have hawaited := hwaits.awaited other child
    simp only [View.perish, Function.update_apply] at halive ⊢
    grind
  reading other b hwait := by
    have hreading := hwaits.reading other b
    simp only [View.perish, Function.update_apply, ReadsFrom] at hwait hreading ⊢
    grind
  receiving other hwait := by
    have hreceiving := hwaits.receiving other
    simp only [View.perish, Function.update_apply] at hwait
    grind
  awaiting other child hwait := by
    have hawaiting := hwaits.awaiting other child
    rw [View.perish_present hkillable]
    simp only [View.perish, Function.update_apply] at hwait ⊢
    grind

/-- The processor no longer runs the process `dead`. -/
def leave (c : Core) (dead : Pid) : Core :=
  if c.current = some dead then { c with current := none } else c

theorem leave_current (c : Core) (dead : Pid) :
    (c.leave dead).current = if c.current = some dead then none else c.current := by
  rw [leave]
  split <;> rfl

/-- The start of `kill_process`. -/
theorem detach_spec (hinv : Inv v c) (hkillable : Killable v dead) :
    Inv (v.perish dead) (c.detach dead) ∧
      (c.detach dead).unlinked = (c.leave dead).unlinked := by
  have hqueue : v.place dead = some (queueOf (c.processes dead)) := by
    have hready := hinv.waits.ready dead hkillable.alive
    rw [View.place, if_pos hkillable.alive, queueOf]
    by_cases hawake : v.wait dead = .awake
    · rw [if_pos hawake, if_pos (hready.mpr hawake)]
    · rw [if_neg hawake, if_neg (fun h => hawake (hready.mp h))]
  have hplace : (v.perish dead).place = Function.update v.place dead none := by
    funext other
    by_cases hother : other = dead
    · subst hother
      simp [View.place, View.perish]
    · simp [View.place, View.perish, hother]
  have hprocesses : (c.leave dead).processes = c.processes := by
    rw [leave]
    split <;> rfl
  have hlinked : Linked v.place (c.leave dead) := by
    refine hinv.linked.congr_on (fun _ _ => by rw [hprocesses]) ?_
    rw [leave]
    split <;> rfl
  have hrun : c.detach dead = (c.leave dead).listRemove (queueOf (c.processes dead)) dead := by
    rw [detach, ← leave, hprocesses]
  have hfiles : SameFiles c (c.leave dead) := by
    rw [leave]
    split
    · exact ⟨rfl, rfl, rfl, le_rfl, rfl, rfl, fun _ => Iff.rfl⟩
    · exact ⟨rfl, rfl, rfl, le_rfl, rfl, rfl, fun _ => Iff.rfl⟩
  have hhistory : (c.leave dead).history = c.history := by
    rw [leave]
    split <;> rfl
  have hboxes : (c.leave dead).mailboxes = c.mailboxes := by
    rw [leave]
    split <;> rfl
  have hunlinked : (c.detach dead).unlinked = (c.leave dead).unlinked := by
    rw [hrun, unlinked_listRemove]
  refine ⟨?_, hunlinked⟩
  have hpresent := View.perish_present hkillable
  refine Inv.of_unlinked ?_ hunlinked ⟨?_, ?_, ?_, ?_, ?_⟩ ?_ (hinv.handles.sameFiles hfiles rfl)
    (hinv.pipes.sameFiles hfiles) (hinv.references.sameFiles hfiles rfl)
    ⟨?_, ?_, ?_, ?_, ?_, ?_, ?_⟩ ?_ ?_ ⟨?_, ?_⟩
  · rw [hplace, hrun]
    exact (hlinked.remove hqueue).1
  · intro other hother
    rw [hprocesses]
    exact hinv.slots.existing other ((hpresent other).mp hother)
  · intro other hother
    simp only [View.perish, Option.some.injEq] at hother ⊢
    simp [hother]
  · rw [hprocesses]
    exact hinv.slots.identity
  · rw [hprocesses]
    exact hinv.slots.zero
  · intro other parent hexisting hparent
    rw [hprocesses] at hexisting hparent
    rw [hpresent]
    exact hinv.slots.parent other parent hexisting hparent
  · exact (hinv.waits.perish hkillable).congr hprocesses hfiles.pipes hfiles.handles
  · rw [mailLedger, hhistory]
    exact hinv.mail.linear
  · intro mailbox hout
    rw [mailLedger, hhistory] at hout
    exact (hinv.mail.fresh mailbox hout).trans_le hfiles.heap
  · intro mailbox hout
    rw [mailLedger, hhistory] at hout
    rw [hboxes]
    exact hinv.mail.unreleased mailbox hout
  · intro other mailbox hother howns
    rw [hprocesses] at howns
    rw [mailLedger, hhistory]
    exact hinv.mail.owned other mailbox ((hpresent other).mp hother) howns
  · intro other mailbox hexisting howns
    rw [hprocesses] at hexisting howns
    exact (hinv.mail.used other mailbox hexisting howns).trans_le hfiles.heap
  · rw [hprocesses]
    exact hinv.mail.unique
  · rw [hprocesses]
    exact hinv.mail.empty
  · intro other halive hcurrent hcall
    have hne : other ≠ dead := by
      rintro rfl
      simp [View.perish] at halive
    have halive' : v.alive other = true := by simpa [View.perish, hne] using halive
    have hcurrent' : c.current ≠ some other := by
      intro hsame
      rw [leave_current, hsame] at hcurrent
      exact hcurrent (if_neg (by simpa using hne))
    rw [hprocesses] at hcall ⊢
    exact hinv.pending other halive' hcurrent' hcall
  · intro other alive hselected
    rw [hhistory] at hselected
    exact hinv.chosen other alive hselected
  · rw [hhistory]
    exact hinv.lifecycle.lawful
  · rw [hhistory, hprocesses]
    exact hinv.lifecycle.stages

/-! ## Closing the descriptors -/

theorem closeHandles_spec (hinv : Inv v c) (hawake : v.wait dead = .awake)
    (htable : ∀ fd, v.table (dead, fd) = (c.processes dead).filedesc fd) :
    Ensures Harmless (c.closeHandles dead) fun c' =>
      ∃ wait', Inv { v with table := v.abandon dead (List.finRange 16), wait := wait' } c' ∧
        Quiet c c' ∧ ∀ pid, v.wait pid = .awake → wait' pid = .awake := by
  refine ensures_foldlM (fun done c' => ∃ wait', Inv { v with
    table := v.abandon dead done, wait := wait' } c' ∧ Quiet c c' ∧
      ∀ pid, v.wait pid = .awake → wait' pid = .awake) ?_ ?_
  · refine ⟨v.wait, ?_, Quiet.refl c, fun _ h => h⟩
    have hsame : v.abandon dead [] = v.table := by
      funext slot
      simp [View.abandon]
    rw [hsame]
    exact hinv
  · rintro done fd rest c₁ hitems ⟨wait', hinv₁, hquiet₁, hawake₁⟩
    have hnew := notMem_of_finRange hitems
    rw [closeHandleOf, hquiet₁.filedesc]
    cases hfh : (c.processes dead).filedesc fd with
    | none =>
        refine ensures_ok.mpr ⟨wait', ?_, hquiet₁, hawake₁⟩
        have hsame : v.abandon dead (done ++ [fd]) = v.abandon dead done := by
          funext slot
          obtain ⟨other, fd'⟩ := slot
          simp only [View.abandon, List.mem_append, List.mem_singleton]
          grind
        rw [hsame]
        exact hinv₁
    | some fh =>
        have hslot : { v with table := v.abandon dead done, wait := wait' }.table (dead, fd) =
            some fh := by
          simp [View.abandon, hnew, htable, hfh]
        refine ensures_weaken (closeDescriptor_spec hinv₁ hslot (hawake₁ dead hawake)) ?_
        rintro c₂ ⟨sleeper, hinv₂, hquiet₂⟩
        refine ⟨View.rouse { v with table := v.abandon dead done, wait := wait' } sleeper, ?_,
          hquiet₁.trans hquiet₂, fun pid hpid => View.rouse_awake (hawake₁ pid hpid) sleeper⟩
        have hdrop : View.drop { v with table := v.abandon dead done, wait := wait' } (dead, fd) =
            v.abandon dead (done ++ [fd]) := by
          funext slot
          obtain ⟨other, fd'⟩ := slot
          simp only [View.drop, View.abandon, List.mem_append, List.mem_singleton,
            Function.update_apply, Prod.mk.injEq]
          grind
        rw [← hdrop]
        exact hinv₂

/-! ## Leaving the slot -/

/-- The entry of a process, up to list pointers, after `dead` is gone. -/
def survivor (dead : Pid) (sleeper : Option Pid) (pid : Pid) (proc : Process) : Process :=
  if pid = dead then { proc with exited := true, existing := proc.parentPid.isSome }
  else
    { proc with
      parentPid := if proc.parentPid = some dead then none else proc.parentPid
      waitingOn := if sleeper = some pid then none else proc.waitingOn
      ready := if sleeper = some pid then true else proc.ready }

/-- The state `d` is the state `c` after the process `dead` is gone, up to list
pointers.  `sleeper` is its parent, if that process waited. -/
structure Gone (c d : Core) (dead : Pid) (sleeper : Option Pid) : Prop where
  processes : ∀ pid, d.processes pid = survivor dead sleeper pid (c.processes pid)
  files : SameFiles c d
  heap : d.heap = c.heap
  current : d.current = c.current
  ledger : d.mailLedger =
    ((c.processes dead).mailbox.map Entry.returned).toList ++ c.mailLedger
  boxes : ∀ mailbox, (c.processes dead).mailbox ≠ some mailbox →
    d.mailboxes mailbox = c.mailboxes mailbox
  history : ∃ events, d.history =
    .exited (c.processes dead).parentPid dead (c.processes dead).exitStatus ::
      (events ++ c.history) ∧
    (∀ pid, stage (events ++ c.history) pid = stage c.history pid) ∧
    (Lawful (events ++ c.history) ↔ Lawful c.history) ∧
    ∀ pid alive, .selected pid alive ∉ events

section Gone

variable {d : Core} {sleeper : Option Pid}

theorem Gone.self (hgone : Gone c d dead sleeper) :
    d.processes dead = { c.processes dead with
      exited := true
      existing := (c.processes dead).parentPid.isSome } := by
  rw [hgone.processes, survivor, if_pos rfl]

theorem Gone.other (hgone : Gone c d dead sleeper) {other : Pid} (hother : other ≠ dead) :
    d.processes other = { c.processes other with
      parentPid := if (c.processes other).parentPid = some dead then none
        else (c.processes other).parentPid
      waitingOn := if sleeper = some other then none else (c.processes other).waitingOn
      ready := if sleeper = some other then true else (c.processes other).ready } := by
  rw [hgone.processes, survivor, if_neg hother]

theorem Gone.existing (hgone : Gone c d dead sleeper) {other : Pid}
    (hexisting : (d.processes other).existing = true)
    (hdead : (c.processes dead).existing = true) : (c.processes other).existing = true := by
  by_cases hother : other = dead
  · rw [hother]
    exact hdead
  · rw [hgone.other hother] at hexisting
    exact hexisting

theorem Gone.mailbox (hgone : Gone c d dead sleeper) (other : Pid) :
    (d.processes other).mailbox = (c.processes other).mailbox ∧
      (d.processes other).mailboxSize = (c.processes other).mailboxSize := by
  by_cases hother : other = dead
  · rw [hother, hgone.self]
    exact ⟨rfl, rfl⟩
  · rw [hgone.other hother]
    exact ⟨rfl, rfl⟩

theorem Gone.inSyscall (hgone : Gone c d dead sleeper) (other : Pid) :
    (d.processes other).inSyscall = (c.processes other).inSyscall := by
  by_cases hother : other = dead
  · rw [hother, hgone.self]
  · rw [hgone.other hother]

/-- Only the parent of a process waits for it. -/
theorem Gone.notAwaited (hsleeper : ∀ pid, sleeper = some pid ↔ v.wait pid = .awaiting dead)
    (pid : Pid) : v.rouse sleeper pid ≠ .awaiting dead := by
  intro hwait
  rw [View.rouse] at hwait
  split at hwait
  · cases hwait
  next hne => exact hne ((hsleeper pid).mpr hwait)

theorem Slots.gone (hslots : Slots v c) (hdying : v.dying = some dead)
    (hgone : Gone c d dead sleeper) :
    Slots { v with dying := none, wait := v.rouse sleeper } d := by
  have hdead := hslots.existing dead (.inr hdying)
  have halive : ∀ other, v.alive other = true → other ≠ dead := by
    rintro other halive rfl
    cases halive.symm.trans (hslots.dying other hdying)
  refine ⟨?_, by simp, ?_, ?_, ?_⟩
  · rintro other (hother | hother)
    · rw [hgone.other (halive other hother)]
      exact hslots.existing other (.inl hother)
    · simp at hother
  · intro other hexisting
    have hidentity := hslots.identity other (hgone.existing hexisting hdead)
    by_cases hother : other = dead
    · rw [hother] at hidentity ⊢
      rw [hgone.self]
      exact hidentity
    · rw [hgone.other hother]
      exact hidentity
  · have hne : (0 : Pid) ≠ dead := by
      rintro rfl
      cases hdead.symm.trans hslots.zero
    rw [hgone.other hne]
    exact hslots.zero
  · intro other parent hexisting hparent
    have hold := hslots.parent other parent (hgone.existing hexisting hdead)
    have hparent' : (c.processes other).parentPid = some parent ∧ parent ≠ dead := by
      by_cases hother : other = dead
      · subst hother
        rw [hgone.self] at hparent
        exact ⟨hparent, (hold hparent).2⟩
      · rw [hgone.other hother] at hparent
        simp only at hparent
        split at hparent
        · cases hparent
        next hne =>
          refine ⟨hparent, ?_⟩
          rintro rfl
          exact hne hparent
    obtain ⟨hpresent, hdistinct⟩ := hold hparent'.1
    refine ⟨?_, hdistinct⟩
    rcases hpresent with hpresent | hpresent
    · exact .inl hpresent
    · rw [hdying, Option.some.injEq] at hpresent
      exact absurd hpresent.symm hparent'.2

theorem Waits.gone (hslots : Slots v c) (hwaits : Waits v c) (hdying : v.dying = some dead)
    (hgone : Gone c d dead sleeper)
    (hsleeper : ∀ pid, sleeper = some pid ↔ v.wait pid = .awaiting dead) :
    Waits { v with dying := none, wait := v.rouse sleeper } d := by
  have hexisting := hslots.existing dead (.inr hdying)
  have hdead := hslots.dying dead hdying
  have hawake := hwaits.awake dead hdead
  have hzero : dead ≠ 0 := by
    rintro rfl
    cases hexisting.symm.trans hslots.zero
  have halive : ∀ other, v.alive other = true → other ≠ dead := by
    rintro other halive rfl
    cases halive.symm.trans hdead
  have hsurvives : ∀ other event, v.rouse sleeper other = event → event ≠ .awake →
      v.wait other = event ∧ sleeper ≠ some other ∧ other ≠ dead := by
    intro other event hwait hevent
    rw [View.rouse] at hwait
    split at hwait
    · exact absurd hwait.symm hevent
    next hne =>
      refine ⟨hwait, hne, ?_⟩
      rintro rfl
      exact hevent (hwait.symm.trans hawake)
  refine ⟨?_, ?_, ?_, ?_, ?_, ?_, ?_, ?_⟩
  · intro other hother
    exact View.rouse_awake (hwaits.awake other hother) sleeper
  · intro other hother
    have hready := hwaits.ready other hother
    rw [hgone.other (halive other hother)]
    simp only [View.rouse]
    split
    · simp
    · exact hready
  · intro b pipe other hpipe
    rw [hgone.files.pipes] at hpipe
    have hregistered := hwaits.registered b pipe other hpipe
    have hwaiting := hsleeper other
    simp only [View.rouse]
    grind
  · intro other hother
    have hblocked := hwaits.blocked other (hgone.existing hother hexisting)
    have hwaiting := hsleeper other
    by_cases hne : other = dead
    · subst hne
      rw [hgone.self]
      change _ ↔ v.rouse sleeper other = _
      rw [View.rouse_awake hawake]
      rw [hawake] at hblocked
      exact hblocked
    · rw [hgone.other hne]
      simp only [View.rouse]
      grind
  · intro other child hother hchild
    have hawaited := hwaits.awaited other child hother hchild
    rw [hgone.other (halive other hother)]
    simp only [View.rouse]
    split
    · simp
    · exact hawaited
  · intro other b hwait
    obtain ⟨hwait', -, -⟩ := hsurvives other _ hwait (by simp)
    rw [ReadsFrom, hgone.inSyscall, hgone.files.handles, hgone.files.pipes]
    exact hwaits.reading other b hwait'
  · intro other hwait
    obtain ⟨hwait', -, -⟩ := hsurvives other _ hwait (by simp)
    rw [hgone.inSyscall, (hgone.mailbox other).2]
    exact hwaits.receiving other hwait'
  · intro other child hwait
    obtain ⟨hwait', hne, hdistinct⟩ := hsurvives other _ hwait (by simp)
    obtain ⟨hcall, harg, hchild, hpresent, hparent⟩ := hwaits.awaiting other child hwait'
    have hchild' : child ≠ dead := by
      rintro rfl
      exact Gone.notAwaited hsleeper other hwait
    rw [hgone.inSyscall, hgone.other hchild']
    refine ⟨hcall, harg, hchild, ?_, ?_⟩
    · rcases hpresent with hpresent | hpresent
      · exact .inl hpresent
      · rw [hdying, Option.some.injEq] at hpresent
        exact absurd hpresent.symm hchild'
    · simp only [hparent, Option.some.injEq]
      rw [if_neg hdistinct]

theorem Mail.gone (hslots : Slots v c) (hmail : Mail v c) (hdying : v.dying = some dead)
    (hgone : Gone c d dead sleeper) :
    Mail { v with dying := none, wait := v.rouse sleeper } d := by
  have hexisting := hslots.existing dead (.inr hdying)
  have hledger : ∀ mailbox, Outstanding d.mailLedger mailbox ↔
      (c.processes dead).mailbox ≠ some mailbox ∧ Outstanding c.mailLedger mailbox := by
    intro mailbox
    rw [hgone.ledger]
    cases hbox : (c.processes dead).mailbox with
    | none => simp
    | some box => simp [eq_comm]
  refine ⟨?_, ?_, ?_, ?_, ?_, ?_, ?_⟩
  · rw [hgone.ledger]
    cases hbox : (c.processes dead).mailbox with
    | none => exact hmail.linear
    | some box =>
        exact ⟨hmail.owned dead box (.inr hdying) hbox, hmail.linear⟩
  · intro mailbox hout
    rw [hgone.heap]
    exact hmail.fresh mailbox ((hledger mailbox).mp hout).2
  · intro mailbox hout
    obtain ⟨hother, hout⟩ := (hledger mailbox).mp hout
    rw [hgone.boxes mailbox hother]
    exact hmail.unreleased mailbox hout
  · intro other mailbox hpresent howns
    have halive : v.alive other = true := by
      rcases hpresent with hpresent | hpresent
      · exact hpresent
      · simp at hpresent
    have hne : other ≠ dead := by
      rintro rfl
      cases halive.symm.trans (hslots.dying other hdying)
    rw [(hgone.mailbox other).1] at howns
    refine (hledger mailbox).mpr ⟨?_, hmail.owned other mailbox (.inl halive) howns⟩
    intro hsame
    exact hne (hmail.unique other dead mailbox (hslots.existing other (.inl halive)) hexisting
      howns hsame)
  · intro other mailbox hother howns
    rw [(hgone.mailbox other).1] at howns
    rw [hgone.heap]
    exact hmail.used other mailbox (hgone.existing hother hexisting) howns
  · intro other other' mailbox hother hother' howns howns'
    rw [(hgone.mailbox other).1] at howns
    rw [(hgone.mailbox other').1] at howns'
    exact hmail.unique other other' mailbox (hgone.existing hother hexisting)
      (hgone.existing hother' hexisting) howns howns'
  · intro other hother hnone
    rw [(hgone.mailbox other).1] at hnone
    rw [(hgone.mailbox other).2]
    exact hmail.empty other (hgone.existing hother hexisting) hnone

theorem Lifecycle.gone (hlifecycle : Lifecycle c) (hexisting : (c.processes dead).existing = true)
    (hexited : (c.processes dead).exited = false) (hgone : Gone c d dead sleeper) :
    Lifecycle d := by
  obtain ⟨events, hhistory, hstages, hlawful, -⟩ := hgone.history
  have hstage : stage c.history dead = .running (c.processes dead).parentPid := by
    rw [hlifecycle.stages]
    simp [Process.stage, hexisting, hexited]
  refine ⟨?_, ?_⟩
  · rw [hhistory]
    exact ⟨(hstages dead).trans hstage, hlawful.mpr hlifecycle.lawful⟩
  · intro other
    rw [hhistory]
    by_cases hother : other = dead
    · subst hother
      rw [hgone.self]
      cases hparent : (c.processes other).parentPid with
      | none => simp [stage, Stage.exit, Process.stage]
      | some parent => simp [stage, Stage.exit, Process.stage, hparent]
    · rw [hgone.other hother]
      simp only [stage, if_neg hother, hstages, hlifecycle.stages, Process.stage]
      split
      · split <;> rfl
      · rfl

/-- The invariant after a process is gone. -/
theorem Inv.gone {c' : Core} (hinv : Inv v c) (hdying : v.dying = some dead)
    (hexited : (c.processes dead).exited = false) (hgone : Gone c d dead sleeper)
    (hsleeper : ∀ pid, sleeper = some pid ↔ v.wait pid = .awaiting dead)
    (hlinked : Linked { v with dying := none, wait := v.rouse sleeper }.place c')
    (hsame : c'.unlinked = d.unlinked) :
    Inv { v with dying := none, wait := v.rouse sleeper } c' := by
  refine Inv.of_unlinked hlinked hsame (hinv.slots.gone hdying hgone)
    (hinv.waits.gone hinv.slots hdying hgone hsleeper) (hinv.handles.sameFiles hgone.files rfl)
    (hinv.pipes.sameFiles hgone.files) (hinv.references.sameFiles hgone.files rfl)
    (hinv.mail.gone hinv.slots hdying hgone) ?_ ?_
    (hinv.lifecycle.gone (hinv.slots.existing dead (.inr hdying)) hexited hgone)
  · intro other halive hcurrent hcall
    rw [hgone.current] at hcurrent
    rw [hgone.inSyscall] at hcall ⊢
    exact hinv.pending other halive hcurrent hcall
  · intro other alive hselected
    obtain ⟨events, hhistory, -, -, hnone⟩ := hgone.history
    rw [hhistory] at hselected
    simp only [List.mem_cons, reduceCtorEq, List.mem_append, hnone other alive, false_or]
      at hselected
    exact hinv.chosen other alive hselected

end Gone

/-! ## The end of `kill_process` -/

/-- The last statements of `kill_process`. -/
def conclude (c : Core) (dead : Pid) : Core :=
  let c := c.modify dead fun proc => { proc with exited := true }
  c.record (.exited (c.processes dead).parentPid dead (c.processes dead).exitStatus)

theorem conclude_unlinked {d : Core} (hsame : c.unlinked = d.unlinked) (dead : Pid) :
    (c.conclude dead).unlinked = (d.conclude dead).unlinked := by
  have hmodify := unlinked_modify_congr hsame dead
    (show ∀ proc : Process, ({ proc with exited := true } : Process).unlinked =
      { proc.unlinked with exited := true } from fun _ => rfl)
  have hparent : ((c.modify dead fun proc => { proc with exited := true }).processes
      dead).parentPid = ((d.modify dead fun proc => { proc with exited := true }).processes
        dead).parentPid := congrArg (fun core => (core.processes dead).parentPid) hmodify
  have hstatus : ((c.modify dead fun proc => { proc with exited := true }).processes
      dead).exitStatus = ((d.modify dead fun proc => { proc with exited := true }).processes
        dead).exitStatus := congrArg (fun core => (core.processes dead).exitStatus) hmodify
  have hrecord := congrArg (fun core => core.record (.exited
    ((d.modify dead fun proc => { proc with exited := true }).processes dead).parentPid dead
    ((d.modify dead fun proc => { proc with exited := true }).processes dead).exitStatus)) hmodify
  rw [conclude, conclude]
  simp only [hparent, hstatus]
  exact hrecord

/-- The state after `dead` is gone. -/
def departed (c : Core) (dead : Pid) (sleeper : Option Pid) : Core :=
  { c.freeMailbox dead with
    processes := fun pid => survivor dead sleeper pid (c.processes pid)
    history := .exited (c.processes dead).parentPid dead (c.processes dead).exitStatus ::
      (c.freeMailbox dead).history }

theorem freeMailbox_history (c : Core) (dead : Pid) : (c.freeMailbox dead).history =
    ((c.processes dead).mailbox.map Happening.mailboxReturned).toList ++ c.history := by
  rw [freeMailbox]
  split
  next mailbox hmailbox => rw [hmailbox]; rfl
  next hmailbox => rw [hmailbox]; rfl

theorem Gone.departed (c : Core) (dead : Pid) (sleeper : Option Pid) :
    Gone c (c.departed dead sleeper) dead sleeper := by
  have hsame : (c.freeMailbox dead).handles = c.handles ∧ (c.freeMailbox dead).pipes = c.pipes ∧
      (c.freeMailbox dead).inputPipe = c.inputPipe ∧ (c.freeMailbox dead).heap = c.heap ∧
      (c.freeMailbox dead).current = c.current := by
    rw [freeMailbox]
    split <;> exact ⟨rfl, rfl, rfl, rfl, rfl⟩
  obtain ⟨hhandles, hpipes, hinput, hheap, hcurrent⟩ := hsame
  refine ⟨fun _ => rfl, ⟨hhandles, hpipes, hinput, hheap.ge, ?_, ?_, ?_⟩, hheap, hcurrent, ?_, ?_,
    ((c.processes dead).mailbox.map Happening.mailboxReturned).toList, ?_, ?_, ?_, ?_⟩
  · simp only [slotLedger, Core.departed, freeMailbox_history]
    cases (c.processes dead).mailbox <;> rfl
  · simp only [freedPipes, Core.departed, freeMailbox_history]
    cases (c.processes dead).mailbox <;> rfl
  · intro b
    simp only [Core.departed, freeMailbox_history]
    cases (c.processes dead).mailbox <;> simp
  · simp only [mailLedger, Core.departed, freeMailbox_history]
    cases (c.processes dead).mailbox <;> rfl
  · intro mailbox hother
    simp only [Core.departed, freeMailbox]
    split
    next box hbox => simp [show mailbox ≠ box by rintro rfl; exact hother hbox]
    next => rfl
  · rw [Core.departed, freeMailbox_history]
  · intro pid
    cases (c.processes dead).mailbox <;> rfl
  · cases (c.processes dead).mailbox <;> rfl
  · intro pid alive
    cases (c.processes dead).mailbox <;> simp

theorem finish_spec (hinv : Inv v c) (hdying : v.dying = some dead)
    (hexited : (c.processes dead).exited = false) :
    ∃ c' sleeper, c.finish dead = .ok c' ∧
      (∀ pid, sleeper = some pid ↔ v.wait pid = .awaiting dead) ∧
      c'.unlinked = (c.departed dead sleeper).unlinked ∧
      Inv { v with dying := none, wait := v.rouse sleeper } c' := by
  have hexisting := hinv.slots.existing dead (.inr hdying)
  have hidentity := hinv.slots.identity dead hexisting
  have hzero : dead ≠ 0 := by
    rintro rfl
    cases hexisting.symm.trans hinv.slots.zero
  have horphan : (c.processes dead).parentPid ≠ some dead := by
    intro hself
    exact (hinv.slots.parent dead dead hexisting hself).2 rfl
  have hparentOf : ∀ pid, v.wait pid = .awaiting dead → (c.processes dead).parentPid = some pid :=
    fun pid hwait => (hinv.waits.awaiting pid dead hwait).2.2.2.2
  -- the table once the children lost their parent
  generalize hd : (c.freeMailbox dead).orphanChildren dead = d
  have hprocesses : ∀ pid, d.processes pid = { c.processes pid with
      parentPid := if (c.processes pid).parentPid = some dead then none
        else (c.processes pid).parentPid } := by
    intro pid
    have hsame : (c.freeMailbox dead).processes = c.processes := by
      rw [freeMailbox]
      split <;> rfl
    rw [← hd]
    simp only [orphanChildren, hsame, hidentity]
    split <;> rfl
  have hdead : d.processes dead = c.processes dead := by
    rw [hprocesses, if_neg horphan]
  have hqueue : d.queue = c.queue := by
    rw [← hd, orphanChildren, freeMailbox]
    split <;> rfl
  have hlinked : Linked v.place d := by
    refine hinv.linked.congr ?_ ?_ hqueue
    · intro pid
      rw [hprocesses]
    · intro pid
      rw [hprocesses]
  have hrest : d.handles = (c.freeMailbox dead).handles ∧ d.pipes = (c.freeMailbox dead).pipes ∧
      d.mailboxes = (c.freeMailbox dead).mailboxes ∧ d.heap = (c.freeMailbox dead).heap ∧
      d.junk = (c.freeMailbox dead).junk ∧ d.inputPipe = (c.freeMailbox dead).inputPipe ∧
      d.history = (c.freeMailbox dead).history ∧ d.current = (c.freeMailbox dead).current := by
    rw [← hd]
    exact ⟨rfl, rfl, rfl, rfl, rfl, rfl, rfl, rfl⟩
  obtain ⟨hhandles, hpipes, hmailboxes, hheap, hjunk, hinput, hhistory, hcurrent⟩ := hrest
  have hdeparted : ∀ (e : Core) (sleeper : Option Pid), e.unlinked.processes =
      (fun pid => (survivor dead sleeper pid (c.processes pid)).unlinked) →
      e.handles = d.handles → e.pipes = d.pipes → e.mailboxes = d.mailboxes → e.heap = d.heap →
      e.junk = d.junk → e.inputPipe = d.inputPipe → e.current = d.current →
      e.history = .exited (c.processes dead).parentPid dead (c.processes dead).exitStatus ::
        d.history → e.unlinked = (c.departed dead sleeper).unlinked := by
    intro e sleeper h₁ h₂ h₃ h₄ h₅ h₆ h₇ h₈ h₉
    simp only [unlinked] at h₁
    simp only [unlinked, departed, h₁, h₂, h₃, h₄, h₅, h₆, h₇, h₈, h₉, hhandles, hpipes,
      hmailboxes, hheap, hjunk, hinput, hcurrent, hhistory]
  have hconclude : ∀ e : Core, Linked v.place e → Linked v.place (e.conclude dead) := by
    intro e he
    have hmodify : Linked v.place (e.modify dead fun proc => { proc with exited := true }) := by
      apply Linked.modify he
      · exact fun _ => rfl
      · exact fun _ => rfl
    exact hmodify.congr (fun _ => rfl) (fun _ => rfl) rfl
  have hfinish : c.finish dead =
      (d.notifyParent dead >>= fun core => .ok (core.conclude dead)) := by
    rw [finish, hd]
    rfl
  cases hparent : (c.processes dead).parentPid with
  | none =>
      have hrun : d.notifyParent dead =
          .ok (d.modify dead fun proc => { proc with existing := false }) := by
        rw [notifyParent, hdead, hparent]
      have hsleeper : ∀ pid, none = some pid ↔ v.wait pid = .awaiting dead := by
        intro pid
        refine ⟨fun h => (by cases h), fun hwait => ?_⟩
        cases hparent.symm.trans (hparentOf pid hwait)
      have hsame : ((d.modify dead fun proc => { proc with existing := false }).conclude
          dead).unlinked = (c.departed dead none).unlinked := by
        refine hdeparted _ none ?_ rfl rfl rfl rfl rfl rfl rfl (by simp [conclude, hdead])
        funext pid
        by_cases hpid : pid = dead
        · subst hpid
          simp [conclude, unlinked, survivor, hdead, hparent]
        · simp [conclude, unlinked, survivor, hpid, hprocesses]
      refine ⟨(d.modify dead fun proc => { proc with existing := false }).conclude dead, none,
        by rw [hfinish, hrun]; rfl, hsleeper, hsame,
        hinv.gone hdying hexited (Gone.departed c dead none) hsleeper ?_ hsame⟩
      rw [View.rouse_none]
      apply hconclude
      apply Linked.modify hlinked
      · exact fun _ => rfl
      · exact fun _ => rfl
  | some parent =>
      obtain ⟨hpresent, hdistinct⟩ := hinv.slots.parent dead parent hexisting hparent
      have halive : v.alive parent = true := by
        rcases hpresent with hpresent | hpresent
        · exact hpresent
        · rw [hdying, Option.some.injEq] at hpresent
          exact absurd hpresent.symm hdistinct
      have hcall : (d.processes parent).inSyscall = (c.processes parent).inSyscall := by
        rw [hprocesses]
      have hwaiting : (d.processes parent).waitingOn = (c.processes parent).waitingOn := by
        rw [hprocesses]
      have hawaited := hinv.waits.awaited parent dead halive hzero
      by_cases hwaits : (c.processes parent).inSyscall = Call.waitpid.number ∧
          (c.processes parent).waitingOn = some dead
      · have hwait := hawaited.mp hwaits.2
        have hasleep : v.wait parent ≠ .awake := by simp [hwait]
        have hready : (c.processes parent).ready = false := by
          by_contra hready
          exact hasleep ((hinv.waits.ready parent halive).mp (by simpa using hready))
        have hlinked' : Linked v.place
            (d.modify parent fun proc => { proc with waitingOn := none }) := by
          apply Linked.modify hlinked
          · exact fun _ => rfl
          · exact fun _ => rfl
        obtain ⟨c₂, hrun₂, hlinked₂, hsame₂⟩ := resume_sleeper hlinked' halive hasleep
          (by simp [hprocesses, hinv.slots.existing parent (.inl halive)])
          (by simp [hprocesses, hready])
        have hrun : d.notifyParent dead = .ok c₂ := by
          rw [notifyParent, hdead, hparent]
          simp only [hcall, hwaiting, hidentity, if_pos hwaits, hrun₂]
        have hsleeper : ∀ pid, some parent = some pid ↔ v.wait pid = .awaiting dead := by
          intro pid
          refine ⟨?_, fun h => hparent.symm.trans (hparentOf pid h)⟩
          rintro ⟨⟩
          exact hwait
        have hsame : (c₂.conclude dead).unlinked = (c.departed dead (some parent)).unlinked := by
          rw [conclude_unlinked hsame₂]
          refine hdeparted _ (some parent) ?_ rfl rfl rfl rfl rfl rfl rfl
            (by simp [conclude, hdead, Ne.symm hdistinct, hdistinct])
          funext pid
          by_cases hpid : pid = dead
          · subst hpid
            simp [conclude, unlinked, survivor, hdead, hparent, hdistinct, Ne.symm hdistinct,
              hexisting]
          · by_cases hpid' : pid = parent
            · subst hpid'
              simp [conclude, unlinked, survivor, hpid, hprocesses]
            · simp [conclude, unlinked, survivor, hpid, hpid', Ne.symm hpid', hprocesses]
        refine ⟨c₂.conclude dead, some parent, by rw [hfinish, hrun]; rfl, hsleeper, hsame,
          hinv.gone hdying hexited (Gone.departed c dead (some parent)) hsleeper ?_ hsame⟩
        have hplace : ({ v with dying := none, wait := v.rouse (some parent) } : View).place =
            { v with wait := v.rouse (some parent) }.place := rfl
        rw [hplace]
        have hmodify : Linked { v with wait := v.rouse (some parent) }.place
            (c₂.modify dead fun proc => { proc with exited := true }) := by
          apply Linked.modify hlinked₂
          · exact fun _ => rfl
          · exact fun _ => rfl
        exact hmodify.congr (fun _ => rfl) (fun _ => rfl) rfl
      · have hrun : d.notifyParent dead = .ok d := by
          rw [notifyParent, hdead, hparent]
          simp only [hcall, hwaiting, hidentity, if_neg hwaits]
        have hsleeper : ∀ pid, none = some pid ↔ v.wait pid = .awaiting dead := by
          intro pid
          refine ⟨fun h => (by cases h), fun hwait => ?_⟩
          have hpid : pid = parent := by
            have hsame := hparent.symm.trans (hparentOf pid hwait)
            exact (Option.some.inj hsame).symm
          subst hpid
          exact absurd ⟨(hinv.waits.awaiting pid dead hwait).1, hawaited.mpr hwait⟩ hwaits
        have hsame : (d.conclude dead).unlinked = (c.departed dead none).unlinked := by
          refine hdeparted _ none ?_ rfl rfl rfl rfl rfl rfl rfl (by simp [conclude, hdead])
          funext pid
          by_cases hpid : pid = dead
          · subst hpid
            simp [conclude, unlinked, survivor, hdead, hparent, hexisting]
          · simp [conclude, unlinked, survivor, hpid, hprocesses]
        refine ⟨d.conclude dead, none, by rw [hfinish, hrun]; rfl, hsleeper, hsame,
          hinv.gone hdying hexited (Gone.departed c dead none) hsleeper ?_ hsame⟩
        rw [View.rouse_none]
        exact hconclude d hlinked

/-! ## `kill_process` apart from memory -/

/-- The registers of a process matter only while it is off the processor. -/
theorem Inv.reframe (frame : Pid → Regs) (hinv : Inv v c)
    (hawake : ∀ pid, c.current = some pid → v.wait pid = .awake)
    (hframe : ∀ pid, v.alive pid = true → c.current ≠ some pid → frame pid = v.frame pid) :
    Inv { v with frame := frame } c := by
  have hasleep : ∀ pid, v.wait pid ≠ .awake → frame pid = v.frame pid := by
    intro pid hwait
    apply hframe
    · by_contra hdead
      exact hwait (hinv.waits.awake pid (by simpa using hdead))
    · exact fun hcurrent => hwait (hawake pid hcurrent)
  have hwaits := hinv.waits
  refine ⟨hinv.linked, ⟨hinv.slots.existing, hinv.slots.dying, hinv.slots.identity,
      hinv.slots.zero, hinv.slots.parent⟩,
    ⟨hwaits.awake, hwaits.ready, hwaits.registered, hwaits.blocked, hwaits.awaited, ?_,
      hwaits.receiving, ?_⟩,
    ⟨hinv.handles.fresh, hinv.handles.resolved, hinv.handles.counted, hinv.handles.reader,
      hinv.handles.writer, hinv.handles.readerUnique, hinv.handles.writerUnique⟩,
    hinv.pipes, ⟨hinv.references.linear, hinv.references.outstanding⟩,
    ⟨hinv.mail.linear, hinv.mail.fresh, hinv.mail.unreleased, hinv.mail.owned, hinv.mail.used,
      hinv.mail.unique, hinv.mail.empty⟩, ?_, hinv.chosen, hinv.lifecycle⟩
  · intro pid b hwait
    have hsame := hasleep pid (by intro h; cases h.symm.trans hwait)
    rw [ReadsFrom]
    simp only [hsame]
    exact hwaits.reading pid b hwait
  · intro pid child hwait
    have hsame := hasleep pid (by intro h; cases h.symm.trans hwait)
    simp only [hsame]
    exact hwaits.awaiting pid child hwait
  · intro pid halive hcurrent hcall
    simp only [hframe pid halive hcurrent]
    exact hinv.pending pid halive hcurrent hcall

/-- The process `dead` is gone, and nothing else happened to the processes but that
they may have become orphans. -/
structure Ended (c c' : Core) (dead : Pid) : Prop where
  current : c'.current = if c.current = some dead then none else c.current
  live : ∀ pid, c'.isLive pid = Function.update c.isLive dead false pid
  call : ∀ pid, (c'.processes pid).inSyscall = (c.processes pid).inSyscall
  saved : ∀ pid, (c'.processes pid).savedRegs = (c.processes pid).savedRegs
  cwd : ∀ pid, (c'.processes pid).cwd = (c.processes pid).cwd
  neglected : ∀ pid status, (c'.processes pid).stage = .zombie none status →
    (c.processes pid).stage = .zombie none status ∨
      (c.processes pid).stage = .zombie (some dead) status

/-- The process is off its list and its descriptors are closed. -/
structure Dismantled (c : Core) (r : Regs) (wait : Pid → Wait) (dead : Pid) (c' : Core) :
    Prop where
  live : c.isLive dead = true
  awake : ∀ pid, c.current = some pid → wait pid = .awake
  quiet : Quiet (c.leave dead) c'
  inv : ∃ wait', Inv { (viewOf c r wait).perish dead with
      table := (viewOf c r wait).abandon dead (List.finRange 16)
      wait := wait' } c' ∧ wait' dead = .awake ∧ ∀ pid, wait pid = .awake → wait' pid = .awake

theorem dismantle_spec (hinv : Inv (viewOf c r wait) c)
    (hkillable : Killable (viewOf c r wait) dead)
    (hawake : ∀ pid, c.current = some pid → wait pid = .awake) :
    Ensures Harmless ((c.detach dead).closeHandles dead) (Dismantled c r wait dead) := by
  obtain ⟨hdetached, hunlinked⟩ := detach_spec hinv hkillable
  have hlive : c.isLive dead = true := hkillable.alive
  have hquiet : Quiet (c.leave dead) (c.detach dead) :=
    (Quiet.refl (c.leave dead)).of_unlinked hunlinked
  have hprocesses : (c.leave dead).processes = c.processes := by
    rw [leave]
    split <;> rfl
  refine ensures_weaken (closeHandles_spec hdetached (by simp [View.perish]) ?_) ?_
  · intro fd
    rw [hquiet.filedesc, hprocesses]
    simp [View.perish, viewOf, hlive]
  · rintro c' ⟨wait', hclosed, hquiet', hawake'⟩
    refine ⟨hlive, hawake, hquiet.trans hquiet', wait', hclosed, ?_, ?_⟩
    · exact hawake' dead (by simp [View.perish])
    · intro pid hpid
      apply hawake'
      by_cases hne : pid = dead
      · simp [View.perish, hne]
      · simpa [View.perish, viewOf, hne] using hpid

theorem Dismantled.finish {c₂ : Core} (hdismantled : Dismantled c r wait dead c₂) :
    ∃ c' wait', c₂.finish dead = .ok c' ∧ Inv (viewOf c' r wait') c' ∧ Ended c c' dead ∧
      ∀ pid, wait pid = .awake → wait' pid = .awake := by
  obtain ⟨wait₂, hinv, hdead, hawake⟩ := hdismantled.inv
  have hquiet := hdismantled.quiet
  have hprocesses : (c.leave dead).processes = c.processes := by
    rw [leave]
    split <;> rfl
  have hfield : ∀ {A : Type} (field : Process → A), (∀ proc, field proc.still = field proc) →
      ∀ pid, field (c₂.processes pid) = field (c.processes pid) := by
    intro A field hstill pid
    rw [hquiet.field pid field hstill, hprocesses]
  have hlive := hdismantled.live
  have hlive' : (c.processes dead).existing = true ∧ (c.processes dead).exited = false := by
    simpa [isLive] using hlive
  have hexited : (c₂.processes dead).exited = false :=
    (hfield Process.exited (fun _ => rfl) dead).trans hlive'.2
  obtain ⟨c', sleeper, hrun, hsleeper, hsame, hinv'⟩ := finish_spec hinv rfl hexited
  have hfinal : ∀ {A : Type} (field : Process → A), (∀ proc, field proc.unlinked = field proc) →
      ∀ pid, field (c'.processes pid) = field (survivor dead sleeper pid (c₂.processes pid)) := by
    intro A field hunlinked pid
    have hproc : (c'.processes pid).unlinked =
        ((c₂.departed dead sleeper).processes pid).unlinked :=
      congrFun (congrArg Core.processes hsame) pid
    rw [← hunlinked, hproc, hunlinked]
    rfl
  have hcurrent : c'.current = if c.current = some dead then none else c.current := by
    have hcurrent' : c'.unlinked.current = (c₂.departed dead sleeper).unlinked.current :=
      congrArg Core.current hsame
    have hdeparted := (Gone.departed c₂ dead sleeper).current
    rw [← leave_current, ← hquiet.current]
    exact hcurrent'.trans hdeparted
  have hlives : ∀ pid, c'.isLive pid = Function.update c.isLive dead false pid := by
    intro pid
    have hpid := hfinal (fun proc => proc.existing && !proc.exited) (fun _ => rfl) pid
    rw [isLive, hpid]
    by_cases hne : pid = dead
    · simp [survivor, hne]
    · simp only [survivor, if_neg hne, Function.update_of_ne hne]
      exact hfield (fun proc => proc.existing && !proc.exited) (fun _ => rfl) pid
  refine ⟨c', View.rouse { (viewOf c r wait).perish dead with
      table := (viewOf c r wait).abandon dead (List.finRange 16)
      wait := wait₂ } sleeper, hrun, ?_, ⟨hcurrent, hlives, ?_, ?_, ?_, ?_⟩, ?_⟩
  · have hreframed := Inv.reframe (viewOf c' r wait₂).frame hinv' ?_ ?_
    · have hview : viewOf c' r (View.rouse { (viewOf c r wait).perish dead with
            table := (viewOf c r wait).abandon dead (List.finRange 16)
            wait := wait₂ } sleeper) = { (viewOf c r wait).perish dead with
          dying := none
          table := (viewOf c r wait).abandon dead (List.finRange 16)
          frame := (viewOf c' r wait₂).frame
          wait := View.rouse { (viewOf c r wait).perish dead with
            table := (viewOf c r wait).abandon dead (List.finRange 16)
            wait := wait₂ } sleeper } := by
        simp only [viewOf, View.perish, View.mk.injEq, true_and, and_true]
        refine ⟨funext hlives, ?_⟩
        funext slot
        obtain ⟨pid, fd⟩ := slot
        rw [hlives, hfinal Process.filedesc (fun _ => rfl)]
        by_cases hne : pid = dead
        · simp [View.abandon, hne]
        · simp [View.abandon, hne, survivor, hfield Process.filedesc (fun _ => rfl)]
      rw [hview]
      exact hreframed
    · intro pid hpid
      rw [hcurrent] at hpid
      split at hpid
      · cases hpid
      · exact View.rouse_awake (hawake pid (hdismantled.awake pid hpid)) sleeper
    · intro pid halive hpid
      have hne : pid ≠ dead := by
        rintro rfl
        simp [View.perish] at halive
      have hcurrent' : c'.current = some pid ↔ c.current = some pid := by
        rw [hcurrent]
        split
        next hsame =>
          rw [hsame]
          simpa using Ne.symm hne
        next => rfl
      have hsaved : (c'.processes pid).savedRegs = (c.processes pid).savedRegs := by
        rw [hfinal Process.savedRegs (fun _ => rfl)]
        simp only [survivor, if_neg hne]
        exact hfield Process.savedRegs (fun _ => rfl) pid
      simp only [viewOf, View.perish, hcurrent', hsaved]
  · intro pid
    rw [hfinal Process.inSyscall (fun _ => rfl), ← hfield Process.inSyscall fun _ => rfl]
    simp only [survivor]
    split <;> rfl
  · intro pid
    rw [hfinal Process.savedRegs (fun _ => rfl), ← hfield Process.savedRegs fun _ => rfl]
    simp only [survivor]
    split <;> rfl
  · intro pid
    rw [hfinal Process.cwd (fun _ => rfl), ← hfield Process.cwd fun _ => rfl]
    simp only [survivor]
    split <;> rfl
  · intro pid status hzombie
    rw [hfinal Process.stage (fun _ => rfl)] at hzombie
    rw [← hfield Process.stage (fun _ => rfl)]
    by_cases hne : pid = dead
    · rw [hne] at hzombie
      simp only [survivor, if_pos, Process.stage] at hzombie
      cases hparent : (c₂.processes dead).parentPid <;> simp [hparent] at hzombie
    · simp only [survivor, if_neg hne, Process.stage] at hzombie ⊢
      grind
  · exact fun pid hpid => View.rouse_awake (hawake pid hpid) sleeper

end Core

end Rhythmos.Kernel
