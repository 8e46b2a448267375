import Rhythmos.Kernel.Dispatch

/-!
# Runs of the machine

Between two interrupts the machine is settled: the running process is alive, does
not wait and is not inside a system call.  Every interrupt that a policy allows
leads from a settled state to a settled state, through however many switches and
repeated system calls, and so does a run from `kmain`.
-/

namespace Rhythmos.Kernel

open Fallible ByteMemory Libc Paging

variable {policy : Policy} {m : Machine} {r : Regs} {wait : Pid → Wait} {pid : Pid}

namespace Machine

open Rhythmos.Kernel.Core

/-! ## Settled states -/

/-- The state between two interrupts. -/
structure Settled (policy : Policy) (m : Machine) (wait : Pid → Wait) : Prop where
  sane : ∀ r, Sane policy m r wait
  live : ∀ pid, m.core.current = some pid → m.core.isLive pid = true
  awake : ∀ pid, m.core.current = some pid → wait pid = .awake
  idle : ∀ pid, m.core.current = some pid → (m.core.processes pid).inSyscall = 0
  cr3 : ∀ pid, m.core.current = some pid → m.cr3 = some (m.spaces pid).pdir

/-- The registers of the running process do not matter. -/
theorem Settled.of_sane (hsane : Sane policy m r wait)
    (hlive : ∀ pid, m.core.current = some pid → m.core.isLive pid = true)
    (hawake : ∀ pid, m.core.current = some pid → wait pid = .awake)
    (hidle : ∀ pid, m.core.current = some pid → (m.core.processes pid).inSyscall = 0)
    (hcr3 : ∀ pid, m.core.current = some pid → m.cr3 = some (m.spaces pid).pdir) :
    Settled policy m wait :=
  ⟨fun r' => hsane.reframe hawake
    (fun pid hpid hwaits => absurd ((hidle pid hpid).symm.trans hwaits) (by decide)) r', hlive,
    hawake, hidle, hcr3⟩

/-- The state in which `context_switch` is entered. -/
structure Leaving (policy : Policy) (m : Machine) (r : Regs) (wait : Pid → Wait) : Prop where
  sane : Sane policy m r wait
  live : ∀ pid, m.core.current = some pid → m.core.isLive pid = true
  pending : ∀ pid, m.core.current = some pid → (m.core.processes pid).inSyscall ≠ 0 →
    r.eax.toNat = (m.core.processes pid).inSyscall ∧
      Repeatable (m.core.processes pid).inSyscall

theorem Settled.leaving (hsettled : Settled policy m wait) (r : Regs) : Leaving policy m r wait :=
  ⟨hsettled.sane r, hsettled.live, fun pid hpid h => absurd (hsettled.idle pid hpid) h⟩

/-! ## Switching -/

theorem viewOf_saveRegs (m : Machine) (r r' : Regs) (wait : Pid → Wait) (next : Option Pid)
    (hnext : ∀ pid, next = some pid → r' = ((m.saveRegs r).core.processes pid).savedRegs) :
    viewOf { (m.saveRegs r).core with current := next } r' wait = viewOf m.core r wait := by
  cases hcurrent : m.core.current with
  | none =>
      simp only [saveRegs, hcurrent] at hnext ⊢
      simp only [viewOf, View.mk.injEq, true_and, and_true]
      refine ⟨rfl, rfl, ?_⟩
      funext pid
      by_cases hpid : next = some pid
      · simp [hpid, hcurrent, hnext pid hpid]
      · simp [hpid, hcurrent]
  | some old =>
      simp only [saveRegs, hcurrent] at hnext ⊢
      have hfield : ∀ {A : Type} (field : Process → A),
          (∀ proc : Process, field { proc with savedRegs := r } = field proc) →
          ∀ pid, field ((m.core.modify old fun proc => { proc with savedRegs := r }).processes pid)
            = field (m.core.processes pid) := fun field => modify_field m.core old field
      have hlive : ∀ pid, isLive { (m.setCore (m.core.modify old fun proc =>
          { proc with savedRegs := r })).core with current := next } pid = m.core.isLive pid :=
        hfield (fun proc => proc.existing && !proc.exited) fun _ => rfl
      simp only [viewOf, View.mk.injEq, true_and, and_true]
      refine ⟨funext hlive, ?_, ?_⟩
      · funext slot
        rw [hlive]
        exact congrArg (fun filedesc => if m.core.isLive slot.1 = true then
          filedesc slot.2 else none) (hfield Process.filedesc (fun _ => rfl) slot.1)
      · funext pid
        have hsaved : ((m.setCore (m.core.modify old fun proc =>
            { proc with savedRegs := r })).core.processes pid).savedRegs =
              if old = pid then r else (m.core.processes pid).savedRegs := by
          by_cases hpid : old = pid
          · subst hpid
            simp [setCore]
          · simp [setCore, hpid, Ne.symm hpid]
        by_cases hpid : next = some pid
        · rw [if_pos hpid, hnext pid hpid, hsaved]
          simp [hcurrent]
        · rw [if_neg hpid, hsaved]
          simp [hcurrent]

/-- Recording that a live process was selected. -/
theorem recordSelected {v : View} {c : Core} (hinv : Inv v c) (pid : Pid) :
    Inv v (c.record (.selected pid true)) where
  linked := hinv.linked.congr (fun _ => rfl) (fun _ => rfl) rfl
  slots := hinv.slots.congr rfl
  waits := hinv.waits.congr rfl rfl rfl
  handles := ⟨hinv.handles.fresh, hinv.handles.resolved, hinv.handles.counted,
    hinv.handles.reader, hinv.handles.writer, hinv.handles.readerUnique,
    hinv.handles.writerUnique⟩
  pipes := by
    have hmade : ∀ b, Happening.pipeMade b ∈ (c.record (.selected pid true)).history ↔
        .pipeMade b ∈ c.history := by simp
    refine ⟨hinv.pipes.fresh, hinv.pipes.opened, hinv.pipes.input, ?_, ?_, ?_, ?_,
      hinv.pipes.freedOnce, hinv.pipes.freedGone⟩
    · intro b pipe hb
      exact hinv.pipes.madeReader b pipe ((hmade b).mp hb)
    · intro b pipe hb
      exact hinv.pipes.madeWriter b pipe ((hmade b).mp hb)
    · intro b hb
      exact hinv.pipes.madeFresh b ((hmade b).mp hb)
    · intro b hb
      exact hinv.pipes.madeFreed b ((hmade b).mp hb)
  references := ⟨hinv.references.linear, hinv.references.outstanding⟩
  mail := ⟨hinv.mail.linear, hinv.mail.fresh, hinv.mail.unreleased, hinv.mail.owned, hinv.mail.used,
    hinv.mail.unique, hinv.mail.empty⟩
  pending := hinv.pending
  chosen := by
    intro other alive hselected
    rcases List.mem_cons.mp hselected with hnew | hold
    · cases hnew
      rfl
    · exact hinv.chosen other alive hold
  lifecycle := ⟨hinv.lifecycle.lawful, hinv.lifecycle.stages⟩

/-- Another process becomes the current one. -/
theorem setCurrent {v : View} {c : Core} (hinv : Inv v c) (next : Option Pid)
    (hpending : ∀ pid, v.alive pid = true → c.current = some pid →
      (c.processes pid).inSyscall ≠ 0 → (v.frame pid).eax.toNat = (c.processes pid).inSyscall ∧
        Repeatable (c.processes pid).inSyscall) :
    Inv v { c with current := next } where
  linked := hinv.linked.congr (fun _ => rfl) (fun _ => rfl) rfl
  slots := hinv.slots.congr rfl
  waits := hinv.waits.congr rfl rfl rfl
  handles := ⟨hinv.handles.fresh, hinv.handles.resolved, hinv.handles.counted,
    hinv.handles.reader, hinv.handles.writer, hinv.handles.readerUnique,
    hinv.handles.writerUnique⟩
  pipes := ⟨hinv.pipes.fresh, hinv.pipes.opened, hinv.pipes.input, hinv.pipes.madeReader,
    hinv.pipes.madeWriter, hinv.pipes.madeFresh, hinv.pipes.madeFreed, hinv.pipes.freedOnce,
    hinv.pipes.freedGone⟩
  references := ⟨hinv.references.linear, hinv.references.outstanding⟩
  mail := ⟨hinv.mail.linear, hinv.mail.fresh, hinv.mail.unreleased, hinv.mail.owned, hinv.mail.used,
    hinv.mail.unique, hinv.mail.empty⟩
  pending := by
    intro pid halive _ hbusy
    by_cases hcurrent : c.current = some pid
    · exact hpending pid halive hcurrent hbusy
    · exact hinv.pending pid halive hcurrent hbusy
  chosen := hinv.chosen
  lifecycle := ⟨hinv.lifecycle.lawful, hinv.lifecycle.stages⟩

/-- The process that `context_switch` chooses is on the ready list. -/
theorem selectNext_place {c : Core} {v : View} (hlinked : Linked v.place c)
    (hready : ∀ pid, c.current = some pid → v.alive pid = true →
      (c.processes pid).ready = true → v.place pid = some .ready)
    (hlive : ∀ pid, c.current = some pid → v.alive pid = true) {next : Pid}
    (hnext : c.selectNext = some next) : v.place next = some .ready := by
  obtain ⟨nodes, hlist, hmem⟩ := hlinked .ready
  have hfirst : ∀ pid, (c.queue .ready).first = some pid → v.place pid = some .ready := by
    intro pid hpid
    rw [hlist.first_eq] at hpid
    exact (hmem pid).mp (List.mem_of_head? hpid)
  rw [selectNext] at hnext
  split at hnext
  next pid hcurrent =>
    split at hnext
    next hflag =>
      split at hnext
      next after hafter =>
        rw [Option.some.injEq] at hnext
        subst hnext
        have hpid : pid ∈ nodes := (hmem pid).mpr (hready pid hcurrent (hlive pid hcurrent) hflag)
        obtain ⟨front, back, hnodes⟩ := List.append_of_mem hpid
        have hneighbour := (hlist.neighbours front pid back hnodes).2
        have hback : back.head? = some after := hneighbour.symm.trans hafter
        refine (hmem after).mp ?_
        rw [hnodes]
        exact List.mem_append_right _ (List.mem_cons_of_mem _ (List.mem_of_head? hback))
      next => exact hfirst next hnext
    next => exact hfirst next hnext
  next => exact hfirst next hnext

/-- Saving the registers of the current process. -/
theorem Leaving.save (hleaving : Leaving policy m r wait) :
    Inv (viewOf m.core r wait) (m.saveRegs r).core ∧
      (∀ {A : Type} (field : Process → A),
        (∀ proc : Process, field { proc with savedRegs := r } = field proc) →
        ∀ pid, field ((m.saveRegs r).core.processes pid) = field (m.core.processes pid)) ∧
      (m.saveRegs r).core.current = m.core.current ∧ (m.saveRegs r).spaces = m.spaces ∧
      (m.saveRegs r).pages = m.pages ∧ (m.saveRegs r).image = m.image := by
  rw [saveRegs]
  split
  next old _ =>
    have hinv : Inv (viewOf m.core r wait) (m.core.modify old fun proc =>
        { proc with savedRegs := r }) := hleaving.sane.inv.inert old fun _ => rfl
    exact ⟨hinv, fun field => modify_field m.core old field, rfl, rfl, rfl, rfl⟩
  next => exact ⟨hleaving.sane.inv, fun _ _ _ => rfl, rfl, rfl, rfl, rfl⟩

/-- The current process of a state that is sane apart from its registers is
replaced. -/
theorem Leaving.switch (hleaving : Leaving policy m r wait) (next : Option Pid) {r' : Regs}
    (hnext : ∀ pid, next = some pid → r' = ((m.saveRegs r).core.processes pid).savedRegs)
    (cr3 : Option ℕ) :
    Sane policy { m.saveRegs r with
      core := { (m.saveRegs r).core with current := next }
      cr3 := cr3 } r' wait := by
  obtain ⟨hinv, hfield, hcurrent, hspaces, hpages, himage⟩ := hleaving.save
  have hlive : ∀ pid, (m.saveRegs r).core.isLive pid = m.core.isLive pid :=
    hfield (fun proc => proc.existing && !proc.exited) fun _ => rfl
  refine ⟨?_, ?_, ?_, ?_, ?_, ?_, ?_⟩
  · simp only
    rw [viewOf_saveRegs m r r' wait next hnext]
    apply setCurrent hinv
    intro pid _ hpid hbusy
    rw [hfield Process.inSyscall fun _ => rfl] at hbusy ⊢
    rw [hcurrent] at hpid
    have hpending := hleaving.pending pid hpid hbusy
    simpa [viewOf, hpid] using hpending
  · have hdirs : Machine.dirs { m.saveRegs r with
        core := { (m.saveRegs r).core with current := next }
        cr3 := cr3 } = m.dirs := by
      funext pid
      have hsame : isLive { (m.saveRegs r).core with current := next } pid = m.core.isLive pid :=
        hlive pid
      simp only [dirs, hsame, hspaces]
    rw [hdirs, hspaces, hpages]
    exact hleaving.sane.layout
  · rw [himage]
    exact hleaving.sane.suits
  · intro pid hpid hbusy
    have hpid' : m.core.isLive pid = true := (hlive pid).symm.trans hpid
    rw [hfield Process.inSyscall fun _ => rfl] at hbusy ⊢
    exact hleaving.sane.calls pid hpid' hbusy
  · intro pid hpid
    have hpid' : m.core.isLive pid = true := (hlive pid).symm.trans hpid
    rw [hfield Process.cwd fun _ => rfl]
    exact hleaving.sane.cwd pid hpid'
  · intro htended pid status
    rw [hfield Process.stage fun _ => rfl]
    exact hleaving.sane.tended htended pid status
  · intro hcareful
    simp only
    rw [viewOf_saveRegs m r r' wait next hnext]
    refine (hleaving.sane.statuses hcareful).step ?_
    intro pid halive hwaits
    exact ⟨halive, (hfield Process.inSyscall (fun _ => rfl) pid).symm.trans hwaits, rfl⟩

/-- Recording does not change the machine otherwise. -/
theorem Sane.selected (hsane : Sane policy m r wait) (pid : Pid) :
    Sane policy (m.setCore (m.core.record (.selected pid true))) r wait where
  inv := recordSelected hsane.inv pid
  layout := hsane.layout
  suits := hsane.suits
  calls := hsane.calls
  cwd := hsane.cwd
  tended := hsane.tended
  statuses := hsane.statuses

/-- What `context_switch` does to the machine: it selects a process on the ready
list, or none. -/
theorem contextSwitch_cases (hleaving : Leaving policy m r wait) {next : Pid}
    (hnext : (m.saveRegs r).core.selectNext = some next) :
    Sane policy ((m.saveRegs r).activate next) ((m.saveRegs r).core.processes next).savedRegs
        wait ∧
      ((m.saveRegs r).activate next).core.isLive next = true ∧ wait next = .awake ∧
      ((((m.saveRegs r).activate next).core.processes next).inSyscall ≠ 0 →
        ((m.saveRegs r).core.processes next).savedRegs.eax.toNat =
            (((m.saveRegs r).activate next).core.processes next).inSyscall ∧
          Repeatable (((m.saveRegs r).activate next).core.processes next).inSyscall) := by
  obtain ⟨hinv, hfield, hcurrent, -, -, -⟩ := hleaving.save
  have hlive : ∀ pid, (m.saveRegs r).core.isLive pid = m.core.isLive pid :=
    hfield (fun proc => proc.existing && !proc.exited) fun _ => rfl
  have hplace : (viewOf m.core r wait).place next = some .ready := by
    apply selectNext_place hinv.linked _ _ hnext
    · intro pid _ halive hflag
      have hawake := (hinv.waits.ready pid halive).mp hflag
      simp [View.place, halive, hawake]
    · intro pid hpid
      rw [hcurrent] at hpid
      exact hleaving.live pid hpid
  have hnextLive : m.core.isLive next = true ∧ wait next = .awake := by
    by_cases hawake : wait next = .awake <;> cases halive : m.core.isLive next <;>
      simp [View.place, viewOf, hawake, halive] at hplace ⊢
  have hlive' : (m.saveRegs r).core.isLive next = true := (hlive next).trans hnextLive.1
  refine ⟨?_, hlive', hnextLive.2, ?_⟩
  · have hregs : ∀ pid, some next = some pid → ((m.saveRegs r).core.processes next).savedRegs =
        ((m.saveRegs r).core.processes pid).savedRegs := by
      rintro _ ⟨⟩
      rfl
    have hsane := hleaving.switch (some next) hregs (some ((m.saveRegs r).spaces next).pdir)
    rw [activate, hlive']
    exact hsane.selected next
  · intro hbusy
    have hbusy' : ((m.saveRegs r).core.processes next).inSyscall ≠ 0 := hbusy
    by_cases hsame : m.core.current = some next
    · have hpending := hleaving.pending next hsame
        (by rwa [hfield Process.inSyscall fun _ => rfl] at hbusy')
      have hsaved : ((m.saveRegs r).core.processes next).savedRegs = r := by
        simp [saveRegs, hsame, setCore]
      rw [hsaved]
      change _ = ((m.saveRegs r).core.processes next).inSyscall ∧
        Repeatable ((m.saveRegs r).core.processes next).inSyscall
      rw [hfield Process.inSyscall fun _ => rfl]
      exact hpending
    · have hpending := hinv.pending next hnextLive.1 (by rwa [hcurrent]) hbusy'
      have hframe : (viewOf m.core r wait).frame next =
          ((m.saveRegs r).core.processes next).savedRegs := by
        have hother : ∀ old, m.core.current = some old → next ≠ old := by
          rintro old hold rfl
          exact hsame hold
        rw [saveRegs]
        split
        next old hold => simp [viewOf, hsame, setCore, hother old hold]
        next => simp [viewOf, hsame]
      rw [hframe] at hpending
      exact hpending

/-- The next process after `context_switch`, or none. -/
theorem Leaving.idle (hleaving : Leaving policy m r wait) :
    Settled policy ((m.saveRegs r).setCore { (m.saveRegs r).core with current := none }) wait := by
  have hregs : ∀ pid, (none : Option Pid) = some pid →
      r = ((m.saveRegs r).core.processes pid).savedRegs := fun _ h => by cases h
  have hsane := hleaving.switch none hregs (m.saveRegs r).cr3
  exact Settled.of_sane hsane (fun _ h => by cases h) (fun _ h => by cases h)
    (fun _ h => by cases h) fun _ h => by cases h

/-! ## System calls of the running process -/

/-- The call noted in the process table changes. -/
theorem Sane.setCall (hsane : Sane policy m r wait) (hcurrent : m.core.current = some pid)
    (hawake : wait pid = .awake) (number : ℕ) (hcall : number ≠ 0 → policy.calls number)
    (hstatus : policy.careful → number = Call.waitpid.number → StatusOutside r) :
    Sane policy (m.setCore (m.core.modify pid fun proc => { proc with inSyscall := number })) r
        wait ∧
      SameView m.core (m.core.modify pid fun proc => { proc with inSyscall := number }) := by
  have hfield : ∀ {A : Type} (field : Process → A),
      (∀ proc : Process, field { proc with inSyscall := number } = field proc) →
      ∀ other, field ((m.core.modify pid fun proc => { proc with inSyscall := number }).processes
        other) = field (m.core.processes other) := fun field => modify_field m.core pid field
  have hinv : Inv (viewOf m.core r wait) (m.core.modify pid fun proc =>
      { proc with inSyscall := number }) :=
    hsane.inv.modify (fun _ => rfl) rfl hawake hcurrent
  have hview : SameView m.core (m.core.modify pid fun proc => { proc with inSyscall := number }) :=
    ⟨hfield (fun proc => proc.existing && !proc.exited) fun _ => rfl,
      hfield Process.filedesc fun _ => rfl, hfield Process.savedRegs fun _ => rfl, rfl⟩
  refine ⟨⟨?_, ?_, hsane.suits, ?_, ?_, ?_, ?_⟩, hview⟩
  · simp only [setCore]
    rw [hview.viewOf]
    exact hinv
  · rw [dirs_setCore hview.live]
    exact hsane.layout
  · intro other hother hbusy
    simp only [setCore] at hother hbusy ⊢
    rw [hview.live] at hother
    by_cases hsame : other = pid
    · subst hsame
      simp only [modify_processes, Function.update_self] at hbusy ⊢
      exact hcall hbusy
    · simp only [modify_processes, Function.update_of_ne hsame] at hbusy ⊢
      exact hsane.calls other hother hbusy
  · intro other hother
    simp only [setCore] at hother ⊢
    rw [hview.live] at hother
    rw [hfield Process.cwd fun _ => rfl]
    exact hsane.cwd other hother
  · intro htended other status
    simp only [setCore]
    rw [hfield Process.stage fun _ => rfl]
    exact hsane.tended htended other status
  · intro hcareful other halive hwaits
    simp only [setCore] at halive hwaits ⊢
    rw [hview.viewOf] at halive ⊢
    by_cases hsame : other = pid
    · subst hsame
      rw [modify_processes, Function.update_self] at hwaits
      simpa [viewOf, hcurrent] using hstatus hcareful hwaits
    · rw [modify_processes, Function.update_of_ne hsame] at hwaits
      exact hsane.statuses hcareful other halive hwaits

/-- A call that is made again is permitted. -/
theorem Sane.permits (hsane : Sane policy m r wait) (hcurrent : m.core.current = some pid)
    (hlive : m.core.isLive pid = true)
    (hnumber : r.eax.toNat = (m.core.processes pid).inSyscall)
    (hbusy : (m.core.processes pid).inSyscall ≠ 0) : policy.Permits r where
  call _ := hnumber ▸ hsane.calls pid hlive hbusy
  status hcareful hwaits :=
    (hsane.statuses hcareful).current hcurrent hlive (hnumber.symm.trans hwaits)

/-- A system call is entered. -/
theorem Sane.enter (hsane : Sane policy m r wait) (hcurrent : m.core.current = some pid)
    (hlive : m.core.isLive pid = true) (hawake : wait pid = .awake)
    (hcr3 : m.cr3 = some (m.spaces pid).pdir)
    (hpermits : policy.Permits r) :
    InCall policy (m.setCore (m.core.modify pid fun proc =>
      { proc with inSyscall := r.eax.toNat })) r wait pid := by
  obtain ⟨hsane', hview⟩ := hsane.setCall hcurrent hawake r.eax.toNat hpermits.call hpermits.status
  exact ⟨hsane', hcurrent, (hview.live pid).trans hlive, hawake, by simp [setCore], hcr3⟩

/-- What a policy asks of a call does not depend on the call that is noted in the
process table. -/
theorem CallAllowed.enter (hallowed : CallAllowed policy m pid r) (number : ℕ) :
    CallAllowed policy (m.setCore (m.core.modify pid fun proc =>
      { proc with inSyscall := number })) pid r := by
  have hfield : ∀ {A : Type} (field : Process → A),
      (∀ proc : Process, field { proc with inSyscall := number } = field proc) →
      ∀ other, field ((m.core.modify pid fun proc => { proc with inSyscall := number }).processes
        other) = field (m.core.processes other) := fun field => modify_field m.core pid field
  have hexisting := hfield Process.existing fun _ => rfl
  have htends : ∀ parent, Tends m.core parent → Tends (m.core.modify pid fun proc =>
      { proc with inSyscall := number }) parent := by
    intro parent htends child status
    rw [hfield Process.stage fun _ => rfl]
    exact htends child status
  refine ⟨?_, ?_, hallowed.brk, hallowed.fork, hallowed.vfork, ?_⟩
  · intro hnumber
    obtain ⟨hsafe, hkept⟩ := hallowed.kill hnumber
    refine ⟨?_, ?_⟩
    · intro victim hvictim hpresent
      simp only [setCore] at hpresent ⊢
      rw [hexisting] at hpresent
      rw [hfield Process.exited fun _ => rfl, hfield Process.receiveBlocked fun _ => rfl]
      exact hsafe victim hvictim hpresent
    · intro htended victim hvictim hpresent
      simp only [setCore] at hpresent ⊢
      rw [hexisting] at hpresent
      exact htends victim (hkept htended victim hvictim hpresent)
  · intro hnumber htended
    exact htends pid (hallowed.exit hnumber htended)
  · intro hnumber hcareful dest mailbox hdest hpresent howns
    simp only [setCore] at hpresent howns ⊢
    rw [hexisting] at hpresent
    rw [hfield Process.mailbox fun _ => rfl] at howns
    exact hallowed.send hnumber hcareful dest mailbox hdest hpresent howns

/-- The error number of the running process changes. -/
theorem Resumes.setErrno {res res' : Word} (hresumes : Resumes policy m r pid res)
    (hres : res ≠ failure esuspend) (hres' : res' ≠ failure esuspend) (errno : ℤ) :
    Resumes policy (m.setCore (m.core.modify pid fun proc => { proc with lastErrno := errno })) r
      pid res' := by
  obtain ⟨wait, hsane, hcurrent, hlive, hcr3, hawake, -⟩ := hresumes
  have hfield : ∀ {A : Type} (field : Process → A),
      (∀ proc : Process, field { proc with lastErrno := errno } = field proc) →
      ∀ other, field ((m.core.modify pid fun proc => { proc with lastErrno := errno }).processes
        other) = field (m.core.processes other) := fun field => modify_field m.core pid field
  have hinv : Inv (viewOf m.core r wait) (m.core.modify pid fun proc =>
      { proc with lastErrno := errno }) := hsane.inv.inert pid fun _ => rfl
  have hview : SameView m.core (m.core.modify pid fun proc => { proc with lastErrno := errno }) :=
    ⟨hfield (fun proc => proc.existing && !proc.exited) fun _ => rfl,
      hfield Process.filedesc fun _ => rfl, hfield Process.savedRegs fun _ => rfl, rfl⟩
  have hsteady : Steady m.core (m.core.modify pid fun proc => { proc with lastErrno := errno }) :=
    ⟨rfl, hview.live, hfield Process.inSyscall fun _ => rfl, hview.savedRegs,
      hfield Process.cwd fun _ => rfl,
      fun other status h => by rwa [hfield Process.stage fun _ => rfl] at h⟩
  have hsane' : Sane policy (m.setCore (m.core.modify pid fun proc =>
      { proc with lastErrno := errno })) r wait := by
    refine hsane.steady ?_ hsteady
    rw [hview.viewOf]
    exact hinv
  exact ⟨wait, hsane', hcurrent, (hview.live pid).trans hlive, hcr3,
    .inl (hawake.resolve_right hres), fun h => absurd h hres'⟩

theorem minus_one_ne : (-1 : Word) ≠ failure esuspend := by decide

theorem storeErrno_spec {res : Word} (hreturns : Returns policy m r pid res) (callNo : ℕ) :
    Returns policy (m.storeErrno callNo res).1 r pid (m.storeErrno callNo res).2 := by
  rcases hreturns with hresumes | ⟨hres, hnone, hsane⟩
  · have hcurrent : m.core.current = some pid := by
      obtain ⟨wait, -, hcurrent, -⟩ := hresumes
      exact hcurrent
    refine .inl ?_
    simp only [storeErrno, hcurrent]
    split
    · exact hresumes
    next hkept =>
      have hres : res ≠ failure esuspend := fun h => hkept (.inr h)
      split
      · exact hresumes.setErrno hres minus_one_ne _
      · exact hresumes.setErrno hres hres _
  · simp only [storeErrno, hnone]
    exact .inr ⟨hres, hnone, hsane⟩

/-- A suspended call leaves the processor to another process. -/
theorem Returns.leaving {res : Word} (hreturns : Returns policy m r pid res)
    (hres : res = failure esuspend) : ∃ wait, Leaving policy m r wait := by
  rcases hreturns with ⟨wait, hsane, hcurrent, hlive, -, -, hrepeats⟩ | ⟨-, hnone, wait, hsane⟩
  · refine ⟨wait, hsane, ?_, ?_⟩
    · intro other hother
      obtain rfl : pid = other := by simpa using hcurrent.symm.trans hother
      exact hlive
    · intro other hother _
      obtain rfl : pid = other := by simpa using hcurrent.symm.trans hother
      obtain ⟨hrepeatable, hcall⟩ := hrepeats hres
      rw [hcall]
      exact ⟨rfl, hrepeatable⟩
  · exact ⟨wait, hsane, fun _ h => (by cases hnone.symm.trans h),
      fun _ h => (by cases hnone.symm.trans h)⟩

/-- A finished call returns to its caller. -/
theorem Returns.settled {res : Word} (hreturns : Returns policy m r pid res)
    (hres : res ≠ failure esuspend) :
    m.core.current = some pid ∧ ∃ wait, Settled policy
      (m.setCore (m.core.modify pid fun proc => { proc with inSyscall := 0 })) wait := by
  rcases hreturns with ⟨wait, hsane, hcurrent, hlive, hcr3, hawake, -⟩ | ⟨h, -⟩
  · have hawake' : wait pid = .awake := hawake.resolve_right hres
    obtain ⟨hsane', hview⟩ := hsane.setCall hcurrent hawake' 0 (fun h => absurd rfl h)
      fun _ h => absurd h (by decide)
    refine ⟨hcurrent, wait, Settled.of_sane hsane' ?_ ?_ ?_ ?_⟩
    all_goals
      intro other hother
      obtain rfl : pid = other := by simpa using hcurrent.symm.trans hother
    · exact (hview.live pid).trans hlive
    · exact hawake'
    · simp [setCore]
    · exact hcr3
  · exact absurd h hres

theorem syscall_spec {switch : Machine → Regs → Except Fault (Machine × Regs)}
    (hswitch : ∀ m r wait, Leaving policy m r wait →
      Ensures policy.Tolerates (switch m r)
        fun result => ∃ wait, Settled policy result.1 wait)
    (hsane : Sane policy m r wait) (hcurrent : m.core.current = some pid)
    (hlive : m.core.isLive pid = true) (hawake : wait pid = .awake)
    (hcr3 : m.cr3 = some (m.spaces pid).pdir)
    (hpermits : policy.Permits r)
    (hallowed : CallAllowed policy m pid r) :
    Ensures policy.Tolerates (syscall switch m r)
      fun result => ∃ wait, Settled policy result.1 wait := by
  rw [syscall, hcurrent]
  have hentered := hsane.enter hcurrent hlive hawake hcr3 hpermits
  apply ensures_bind (dispatch_spec hentered (hallowed.enter r.eax.toNat))
  rintro ⟨m₁, r₁, res⟩ hreturns
  have hstored := storeErrno_spec hreturns r.eax.toNat
  simp only at hstored ⊢
  generalize m₁.storeErrno r.eax.toNat res = outcome at hstored ⊢
  obtain ⟨m₂, res₂⟩ := outcome
  simp only at hstored ⊢
  split
  next hres =>
    obtain ⟨wait', hleaving⟩ := hstored.leaving hres
    exact hswitch m₂ r₁ wait' hleaving
  next hres =>
    obtain ⟨hstill, hsettled⟩ := hstored.settled hres
    have hsame : (m₂.setCore (m₂.core.modify pid fun proc =>
        { proc with inSyscall := 0 })).core.current = some pid := hstill
    rw [if_neg (not_not.mpr hsame)]
    exact ensures_ok.mpr hsettled

theorem contextSwitch_spec (depth : ℕ) (hleaving : Leaving policy m r wait) :
    Ensures policy.Tolerates (contextSwitch depth m r)
      fun result => ∃ wait, Settled policy result.1 wait := by
  induction depth generalizing m r wait with
  | zero => exact ensures_error.mpr (policy.tolerates_of_harmless _ trivial)
  | succ depth ih =>
      rw [contextSwitch]
      simp only
      split
      next next hnext =>
        obtain ⟨hsane, hlive, hawake, hpending⟩ := contextSwitch_cases hleaving hnext
        split
        next hbusy =>
          -- The call that suspended the process is made again.
          obtain ⟨hnumber, hrepeatable⟩ := hpending hbusy
          rw [← hnumber] at hrepeatable
          exact syscall_spec (fun m r wait => ih) hsane rfl hlive hawake rfl
            (hsane.permits rfl hlive hnumber hbusy) (CallAllowed.of_repeatable hrepeatable)
        next hidle =>
          refine ensures_ok.mpr ⟨wait, Settled.of_sane hsane ?_ ?_ ?_ ?_⟩
          all_goals
            rintro other hother
            obtain rfl : next = other := by simpa [activate] using hother
          · exact hlive
          · exact hawake
          · exact not_not.mp hidle
          · rfl
      next => exact ensures_ok.mpr ⟨wait, hleaving.idle⟩

end Machine

end Rhythmos.Kernel
