import Rhythmos.Kernel.Messages

/-!
# Waiting for children

`syscall_waitpid` releases the slot of a child that has exited, or lets the
process sleep until the child exits.
-/

namespace Rhythmos.Kernel

open Fallible Ledger RefCount ByteMemory Libc

namespace Core

variable {c : Core} {r : Regs} {wait : Pid → Wait} {pid : Pid}

/-- A process falls asleep until a child of it exits. -/
theorem Waits.lullParent {v : View} (hwaits : Waits v c) (halive : v.alive pid = true)
    (hawake : v.wait pid = .awake)
    (hcall : (c.processes pid).inSyscall = Call.waitpid.number) {child : Pid}
    (harg : pidArgument ((v.frame pid).args 0) = some child) (hchild : child ≠ 0)
    (hpresent : v.present child) (hparent : (c.processes child).parentPid = some pid) :
    Waits { v with wait := v.lull pid (.awaiting child) }
      ((c.modify pid fun proc => { proc with waitingOn := some child }).modify pid
        fun proc => { proc with ready := false }) := by
  refine hwaits.lullSelf halive (fun h => by cases h) hawake (fun _ h => by cases h)
    (fun proc => ⟨rfl, rfl, rfl, rfl⟩) (fun hexisting => ?_) (fun child' _ => ?_)
    (fun h => by cases h) fun child' hchild' => ?_
  · have hblocked := hwaits.blocked pid hexisting
    rw [hawake] at hblocked
    exact hblocked.trans (iff_of_false (fun h => by cases h) fun h => by cases h)
  · rw [Option.some_inj, Wait.awaiting.injEq]
  · obtain rfl := Wait.awaiting.inj hchild'
    exact ⟨hcall, harg, hchild, hpresent, hparent⟩

/-- A process that is awake forgets what it waited for. -/
theorem Waits.forget {v : View} (hwaits : Waits v c) (hawake : v.wait pid = .awake) :
    Waits v (c.modify pid fun proc => { proc with waitingOn := none }) where
  awake := hwaits.awake
  ready other hother := by
    have hready := hwaits.ready other hother
    simp only [modify_processes, Function.update_apply]
    grind
  registered := hwaits.registered
  blocked other hexisting := by
    have hblocked := hwaits.blocked other
    simp only [modify_processes, Function.update_apply] at hexisting ⊢
    grind
  awaited other child hother hchild := by
    have hawaited := hwaits.awaited other child hother hchild
    simp only [modify_processes, Function.update_apply]
    grind
  reading other b hwait := by
    have hreading := hwaits.reading other b hwait
    simp only [ReadsFrom, modify_processes, modify_pipes, modify_handles, Function.update_apply]
      at hreading ⊢
    grind
  receiving other hwait := by
    have hreceiving := hwaits.receiving other hwait
    simp only [modify_processes, Function.update_apply]
    grind
  awaiting other child hwait := by
    have hawaiting := hwaits.awaiting other child hwait
    simp only [modify_processes, Function.update_apply]
    grind

theorem Inv.forget {v : View} (hinv : Inv v c) (hawake : v.wait pid = .awake) :
    Inv v (c.modify pid fun proc => { proc with waitingOn := none }) ∧
      Quiet c (c.modify pid fun proc => { proc with waitingOn := none }) := by
  have hquiet : Quiet c (c.modify pid fun proc => { proc with waitingOn := none }) := by
    refine ⟨?_, rfl, rfl, le_rfl, rfl, rfl⟩
    intro other
    by_cases hother : other = pid
    · subst hother
      simp only [modify_processes, Function.update_self]
      rfl
    · simp [hother]
  have hends : SameEnds c (c.modify pid fun proc => { proc with waitingOn := none }) :=
    ⟨rfl, fun _ => rfl, rfl, rfl, fun _ => Iff.rfl⟩
  refine ⟨?_, hquiet⟩
  apply hinv.sameEnds hquiet hends _ (hinv.waits.forget hawake)
  apply Linked.modify hinv.linked
  · exact fun _ => rfl
  · exact fun _ => rfl

/-- The slot of a zombie is released to its parent. -/
theorem Inv.reap (hinv : Inv (viewOf c r wait) c) {child : Pid}
    (hexisting : (c.processes child).existing = true) (hexited : (c.processes child).exited = true)
    (hparent : (c.processes child).parentPid = some pid) :
    Inv (viewOf c r wait) ((c.modify child fun proc => { proc with existing := false }).record
      (.reaped pid child (c.processes child).exitStatus)) := by
  have hdead : (viewOf c r wait).alive child = false := by simp [viewOf, isLive, hexited]
  have hstage : (c.processes child).stage =
      .zombie (some pid) (c.processes child).exitStatus := by
    simp [Process.stage, hexisting, hexited, hparent]
  have hprocess : ∀ other, other ≠ child →
      ((c.modify child fun proc => { proc with existing := false }).record
        (.reaped pid child (c.processes child).exitStatus)).processes other =
      c.processes other := by
    intro other hother
    simp [hother]
  have hfiles : SameFiles c ((c.modify child fun proc =>
      { proc with existing := false }).record
        (.reaped pid child (c.processes child).exitStatus)) :=
    ⟨rfl, rfl, rfl, le_rfl, rfl, rfl, by simp⟩
  refine ⟨?_, ⟨?_, hinv.slots.dying, ?_, ?_, ?_⟩, ?_, hinv.handles.sameFiles hfiles rfl,
    hinv.pipes.sameFiles hfiles, hinv.references.sameFiles hfiles rfl, ?_, ?_, ?_, ?_⟩
  · have hlinked : Linked (viewOf c r wait).place
        (c.modify child fun proc => { proc with existing := false }) := by
      apply Linked.modify hinv.linked
      · exact fun _ => rfl
      · exact fun _ => rfl
    exact hlinked.congr (fun _ => rfl) (fun _ => rfl) rfl
  · intro other hpresent
    have hne : other ≠ child := by
      rintro rfl
      rcases hpresent with halive | hdying
      · simp [hdead] at halive
      · simp [viewOf] at hdying
    rw [hprocess other hne]
    exact hinv.slots.existing other hpresent
  · intro other hother
    have hidentity := hinv.slots.identity other
    simp only [record_processes, modify_processes, Function.update_apply] at hother ⊢
    grind
  · have hzero := hinv.slots.zero
    simp only [record_processes, modify_processes, Function.update_apply]
    grind
  · intro other parent hother hparent'
    have hold := hinv.slots.parent other parent
    simp only [record_processes, modify_processes, Function.update_apply] at hother hparent'
    grind
  · have hwaits := hinv.waits
    refine ⟨hwaits.awake, ?_, hwaits.registered, ?_, ?_, ?_, ?_, ?_⟩
    · intro other halive
      rw [hprocess other (by rintro rfl; simp [hdead] at halive)]
      exact hwaits.ready other halive
    · intro other hother
      have hblocked := hwaits.blocked other
      simp only [record_processes, modify_processes, Function.update_apply] at hother ⊢
      grind
    · intro other child' halive
      rw [hprocess other (by rintro rfl; simp [hdead] at halive)]
      exact hwaits.awaited other child' halive
    · intro other b hwait
      have hreading := hwaits.reading other b hwait
      simp only [ReadsFrom, record_processes, modify_processes, record_pipes, modify_pipes,
        record_handles, modify_handles, Function.update_apply] at hreading ⊢
      grind
    · intro other hwait
      have hreceiving := hwaits.receiving other hwait
      simp only [record_processes, modify_processes, Function.update_apply]
      grind
    · intro other child' hwait
      have hawaiting := hwaits.awaiting other child' hwait
      simp only [record_processes, modify_processes, Function.update_apply]
      grind
  · have hmail := hinv.mail
    refine ⟨hmail.linear, hmail.fresh, hmail.unreleased, ?_, ?_, ?_, ?_⟩
    · intro other mailbox hpresent howns
      have howned := hmail.owned other mailbox hpresent
      simp only [record_processes, modify_processes, Function.update_apply] at howns
      change Outstanding c.mailLedger mailbox
      grind
    · intro other mailbox hother howns
      have hused := hmail.used other mailbox
      simp only [record_processes, modify_processes, Function.update_apply, record_heap,
        modify_heap] at hother howns ⊢
      grind
    · intro other other' mailbox hother hother' howns howns'
      have hunique := hmail.unique other other' mailbox
      simp only [record_processes, modify_processes, Function.update_apply]
        at hother hother' howns howns'
      grind
    · intro other hother hnone
      have hempty := hmail.empty other
      simp only [record_processes, modify_processes, Function.update_apply] at hother hnone ⊢
      grind
  · intro other halive hcurrent hcall
    have hne : other ≠ child := by
      rintro rfl
      simp [hdead] at halive
    rw [hprocess other hne] at hcall ⊢
    exact hinv.pending other halive hcurrent hcall
  · intro other alive hselected
    exact hinv.chosen other alive (by simpa using hselected)
  · refine ⟨⟨(hinv.lifecycle.stages child).trans hstage, hinv.lifecycle.lawful⟩, ?_⟩
    intro other
    by_cases hother : other = child
    · subst hother
      simp [stage, Process.stage]
    · rw [hprocess other hother]
      simp only [record_history, modify_history, stage, if_neg hother]
      exact hinv.lifecycle.stages other

/-- A refused `waitpid` agrees with the history. -/
theorem Inv.refuse {v : View} (hinv : Inv v c) {child : Pid}
    (hother : (c.processes child).stage.parent ≠ some pid) :
    Inv v (c.record (.childless pid child)) := by
  have hfiles : SameFiles c (c.record (.childless pid child)) :=
    ⟨rfl, rfl, rfl, le_rfl, rfl, rfl, by simp⟩
  refine ⟨hinv.linked.congr (fun _ => rfl) (fun _ => rfl) rfl, hinv.slots.congr rfl,
    hinv.waits.congr rfl rfl rfl, hinv.handles.sameFiles hfiles rfl,
    hinv.pipes.sameFiles hfiles, hinv.references.sameFiles hfiles rfl,
    ⟨hinv.mail.linear, hinv.mail.fresh, hinv.mail.unreleased, hinv.mail.owned, hinv.mail.used,
      hinv.mail.unique, hinv.mail.empty⟩, hinv.pending, ?_, ?_⟩
  · intro other alive hselected
    exact hinv.chosen other alive (by simpa using hselected)
  · refine ⟨⟨?_, hinv.lifecycle.lawful⟩, hinv.lifecycle.stages⟩
    rwa [hinv.lifecycle.stages]

theorem syscallWaitpid_spec (hrunning : Running c r wait pid)
    (hcall : (c.processes pid).inSyscall = Call.waitpid.number) :
    Ensures Harmless (c.syscallWaitpid pid (r.args 0)) fun result =>
      Finishes c r pid result.1 result.2.1 := by
  have hrepeats : ∀ res, res = failure esuspend → Repeatable r.eax.toNat := by
    intro res _
    rw [← hrunning.call, hcall]
    simp [Repeatable]
  rw [syscallWaitpid]
  split
  · exact ensures_ok.mpr (hrunning.finish (hrepeats _))
  next child hchild =>
    obtain ⟨hinv, hquiet⟩ := hrunning.inv.forget hrunning.awake
    have hrunning' := hrunning.quiet hquiet hinv
    have hcall' : ((c.modify pid fun proc => { proc with waitingOn := none }).processes
        pid).inSyscall = Call.waitpid.number := (hquiet.inSyscall pid).trans hcall
    generalize hd : (c.modify pid fun proc => { proc with waitingOn := none }) = d
    rw [hd] at hrunning' hcall' hquiet
    have halive : (viewOf d r wait).alive pid = true := hrunning'.live
    have hidentity : (d.processes pid).pid = pid := by
      have hexisting := hrunning'.inv.slots.existing pid (.inl halive)
      exact hrunning'.inv.slots.identity pid hexisting
    simp only [hidentity]
    split
    next hrefused =>
      have hother : (d.processes child).stage.parent ≠ some pid := by
        simp only [Bool.not_eq_eq_eq_not, Bool.not_true] at hrefused
        simp only [Process.stage]
        rcases hrefused with hnone | hparent
        · simp [hnone, Stage.parent]
        · split
          · split
            · exact hparent
            · exact hparent
          · simp [Stage.parent]
      refine ensures_ok.mpr ⟨wait, hrunning'.inv.refuse hother, ?_, .inl hrunning.awake,
        hrepeats _⟩
      exact hquiet.steady.trans ⟨rfl, fun _ => rfl, fun _ => rfl, fun _ => rfl, fun _ => rfl,
        fun _ _ h => h⟩
    next haccepted =>
      simp only [Bool.not_eq_eq_eq_not, Bool.not_true, not_or, Bool.not_eq_false,
        not_not] at haccepted
      obtain ⟨hexisting, hparent⟩ := haccepted
      split
      next hexited =>
        have hreaped := hrunning'.inv.reap hexisting hexited hparent
        have hother : ∀ other, other ≠ child → ((d.modify child fun proc =>
            { proc with existing := false }).record (.reaped pid child
              (d.processes child).exitStatus)).processes other = d.processes other := by
          intro other hne
          simp [hne]
        have hfield : ∀ {A : Type} (field : Process → A) (other : Pid),
            (∀ proc : Process, field { proc with existing := false } = field proc) →
            field (((d.modify child fun proc => { proc with existing := false }).record
              (.reaped pid child (d.processes child).exitStatus)).processes other) =
              field (d.processes other) := by
          intro A field other hsame
          by_cases hne : other = child
          · subst hne
            simp [hsame]
          · rw [hother other hne]
        have hlive : ∀ other, ((d.modify child fun proc =>
            { proc with existing := false }).record (.reaped pid child
              (d.processes child).exitStatus)).isLive other = d.isLive other := by
          intro other
          by_cases hne : other = child
          · subst hne
            simp [isLive, hexited]
          · rw [isLive, isLive, hother other hne]
        have hview : SameView d ((d.modify child fun proc =>
            { proc with existing := false }).record (.reaped pid child
              (d.processes child).exitStatus)) :=
          ⟨hlive, fun other => hfield Process.filedesc other fun _ => rfl,
            fun other => hfield Process.savedRegs other fun _ => rfl, rfl⟩
        refine ensures_ok.mpr ⟨wait, ?_, hquiet.steady.trans ⟨rfl, hlive,
          fun other => hfield Process.inSyscall other fun _ => rfl,
          fun other => hfield Process.savedRegs other fun _ => rfl,
          fun other => hfield Process.cwd other fun _ => rfl, ?_⟩, .inl hrunning.awake, hrepeats _⟩
        · rw [hview.viewOf]
          exact hreaped
        · intro other status hzombie
          by_cases hne : other = child
          · subst hne
            simp [Process.stage] at hzombie
          · rwa [hother other hne] at hzombie
      next hrunning'' =>
        have hchild' : child ≠ 0 := by
          rintro rfl
          simp [hrunning'.inv.slots.zero] at hexisting
        have hpresent : (viewOf d r wait).present child := by
          refine .inl ?_
          simpa [viewOf, isLive, hexisting] using hrunning''
        have harg : pidArgument (((viewOf d r wait).frame pid).args 0) = some child := by
          simpa [viewOf, hrunning'.current] using hchild
        obtain ⟨c', hrun, hinv', hquiet'⟩ := hrunning'.inv.lull halive hrunning'.awake
          (hrunning'.inv.waits.lullParent halive hrunning'.awake hcall' harg hchild' hpresent
            hparent)
          (fun h => by cases h) (fun _ => rfl) (fun _ => rfl) (fun _ => rfl) (fun _ => rfl)
        simp only [hrun, ok_bind]
        refine ensures_ok.mpr ⟨(viewOf d r wait).lull pid (.awaiting child), ?_,
          hquiet.steady.trans hquiet'.steady, .inr rfl, hrepeats _⟩
        rw [viewOf_quiet hquiet']
        exact hinv'

end Core

end Rhythmos.Kernel
