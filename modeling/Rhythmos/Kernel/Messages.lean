import Rhythmos.Kernel.Files

/-!
# Sending and receiving messages

A message that arrives in the mailbox of a process blocked in `syscall_receive`
wakes that process up.  Both system calls keep the invariant.
-/

namespace Rhythmos.Kernel

open Fallible Ledger RefCount ByteMemory Libc

namespace Core

variable {c : Core} {r : Regs} {wait : Pid → Wait} {pid : Pid}

/-! ## Changes that concern no files -/

/-- The files are the same. -/
structure SameFiles (c c' : Core) : Prop where
  handles : c'.handles = c.handles
  pipes : c'.pipes = c.pipes
  inputPipe : c'.inputPipe = c.inputPipe
  heap : c.heap ≤ c'.heap
  slots : c'.slotLedger = c.slotLedger
  freed : c'.freedPipes = c.freedPipes
  made : ∀ b, .pipeMade b ∈ c'.history ↔ .pipeMade b ∈ c.history

section SameFiles

variable {v v' : View} {c' : Core}

theorem Handles.sameFiles (hhandles : Handles v c) (hsame : SameFiles c c')
    (htable : v'.table = v.table) : Handles v' c' where
  fresh fh hfh := by
    rw [hsame.handles]
    exact hhandles.fresh fh (hsame.heap.trans hfh)
  resolved := by
    rw [hsame.handles, htable]
    exact hhandles.resolved
  counted := by
    rw [hsame.handles, htable]
    exact hhandles.counted
  reader := by
    rw [hsame.handles, hsame.pipes]
    exact hhandles.reader
  writer := by
    rw [hsame.handles, hsame.pipes]
    exact hhandles.writer
  readerUnique := by
    rw [hsame.handles]
    exact hhandles.readerUnique
  writerUnique := by
    rw [hsame.handles]
    exact hhandles.writerUnique

theorem Pipes.sameFiles (hpipes : Pipes c) (hsame : SameFiles c c') : Pipes c' where
  fresh b hb := by
    rw [hsame.pipes]
    exact hpipes.fresh b (hsame.heap.trans hb)
  opened := by
    rw [hsame.pipes]
    exact hpipes.opened
  input := by
    rw [hsame.inputPipe, hsame.pipes, hsame.handles]
    exact hpipes.input
  madeReader b pipe hb := by
    rw [hsame.pipes, hsame.handles]
    exact hpipes.madeReader b pipe ((hsame.made b).mp hb)
  madeWriter b pipe hb := by
    rw [hsame.pipes, hsame.handles]
    exact hpipes.madeWriter b pipe ((hsame.made b).mp hb)
  madeFresh b hb := (hpipes.madeFresh b ((hsame.made b).mp hb)).trans_le hsame.heap
  madeFreed b hb hnone := by
    rw [hsame.pipes] at hnone
    rw [hsame.freed]
    exact hpipes.madeFreed b ((hsame.made b).mp hb) hnone
  freedOnce := by
    rw [hsame.freed]
    exact hpipes.freedOnce
  freedGone b hb := by
    rw [hsame.freed] at hb
    rw [hsame.pipes]
    obtain ⟨hgone, hlt⟩ := hpipes.freedGone b hb
    exact ⟨hgone, hlt.trans_le hsame.heap⟩

theorem References.sameFiles (hreferences : References v c) (hsame : SameFiles c c')
    (htable : v'.table = v.table) : References v' c' where
  linear := by
    rw [hsame.slots]
    exact hreferences.linear
  outstanding := by
    rw [hsame.slots, htable]
    exact hreferences.outstanding

end SameFiles

/-! ## Sending -/

/-- The process that a message for `dest` wakes up. -/
def receiver (c : Core) (dest : Pid) : Option Pid :=
  if (c.processes dest).receiveBlocked then some dest else none

/-- The process table, up to list pointers, after a message for `dest` arrived. -/
def posted (c : Core) (dest : Pid) (mailbox : Block) (size alloc : ℕ) : Core :=
  (c.rouse (c.receiver dest)).modify dest fun proc =>
    { proc with
      mailbox := some mailbox
      mailboxSize := size
      mailboxAlloc := alloc
      receiveBlocked := false }

section Posted

variable {v : View} {dest : Pid} {mailbox : Block} {size alloc : ℕ}

/-- The arrival of a message changes the mailbox, the `ready` flag and the
`receiveBlocked` flag only. -/
theorem posted_field {A : Type*} (field : Process → A) (other : Pid)
    (hfield : ∀ (proc : Process) ready box n m blocked, field { proc with
      ready := ready
      mailbox := box
      mailboxSize := n
      mailboxAlloc := m
      receiveBlocked := blocked } = field proc) :
    field ((c.posted dest mailbox size alloc).processes other) = field (c.processes other) := by
  have hrouse : field ((c.rouse (c.receiver dest)).processes other) = field (c.processes other) :=
    rouse_field c _ other field fun proc =>
      hfield proc true proc.mailbox proc.mailboxSize proc.mailboxAlloc proc.receiveBlocked
  by_cases hother : other = dest
  · subst hother
    rw [← hrouse]
    simp only [posted, modify_processes, Function.update_self]
    exact hfield _ ((c.rouse (c.receiver other)).processes other).ready _ _ _ _
  · rw [← hrouse]
    simp [posted, hother]

theorem Slots.posted (hslots : Slots v c) (wait : Pid → Wait) :
    Slots { v with wait := wait } (c.posted dest mailbox size alloc) where
  existing other hpresent := by
    rw [posted_field Process.existing other fun _ _ _ _ _ _ => rfl]
    exact hslots.existing other hpresent
  dying := hslots.dying
  identity other hexisting := by
    rw [posted_field Process.existing other fun _ _ _ _ _ _ => rfl] at hexisting
    rw [posted_field Process.pid other fun _ _ _ _ _ _ => rfl]
    exact hslots.identity other hexisting
  zero := by
    rw [posted_field Process.existing 0 fun _ _ _ _ _ _ => rfl]
    exact hslots.zero
  parent other parent hexisting hparent := by
    rw [posted_field Process.existing other fun _ _ _ _ _ _ => rfl] at hexisting
    rw [posted_field Process.parentPid other fun _ _ _ _ _ _ => rfl] at hparent
    exact hslots.parent other parent hexisting hparent

/-- Nobody waits for a message that has arrived. -/
theorem Waits.posted (hwaits : Waits v c) (hexisting : (c.processes dest).existing = true) :
    Waits { v with wait := v.rouse (c.receiver dest) } (c.posted dest mailbox size alloc) where
  awake other hdead := View.rouse_awake (hwaits.awake other hdead) _
  ready other halive := by
    have hready := hwaits.ready other halive
    simp only [Core.posted, modify_processes, rouse_processes, View.rouse, receiver,
      Function.update_apply]
    grind
  registered b pipe other hpipe := by
    have hregistered := hwaits.registered b pipe other hpipe
    have hblocked := hwaits.blocked dest hexisting
    simp only [View.rouse, receiver]
    grind
  blocked other hother := by
    rw [posted_field Process.existing other fun _ _ _ _ _ _ => rfl] at hother
    have hblocked := hwaits.blocked other hother
    simp only [Core.posted, modify_processes, rouse_processes, View.rouse, receiver,
      Function.update_apply]
    grind
  awaited other child halive hchild := by
    rw [posted_field Process.waitingOn other fun _ _ _ _ _ _ => rfl]
    have hawaited := hwaits.awaited other child halive hchild
    have hblocked := hwaits.blocked dest hexisting
    simp only [View.rouse, receiver]
    grind
  reading other b hwait := by
    have hreading := hwaits.reading other b
    have hcall : ((c.posted dest mailbox size alloc).processes other).inSyscall =
        (c.processes other).inSyscall :=
      posted_field Process.inSyscall other fun _ _ _ _ _ _ => rfl
    simp only [View.rouse] at hwait
    simp only [ReadsFrom, hcall] at hreading ⊢
    change _ ∧ ∃ pipe, c.pipes b = some pipe ∧ _
    grind [Core.posted, modify_handles, rouse_handles]
  receiving other hwait := by
    have hreceiving := hwaits.receiving other
    have hblocked := hwaits.blocked dest hexisting
    simp only [View.rouse, receiver] at hwait
    simp only [Core.posted, modify_processes, rouse_processes, receiver, Function.update_apply]
    grind
  awaiting other child hwait := by
    have hawaiting := hwaits.awaiting other child
    rw [posted_field Process.inSyscall other fun _ _ _ _ _ _ => rfl,
      posted_field Process.parentPid child fun _ _ _ _ _ _ => rfl]
    simp only [View.rouse, View.present] at hwait hawaiting ⊢
    grind

/-- The mailbox of the destination is new, or it is the one the destination had. -/
structure Reserved (c c' : Core) (dest : Pid) (mailbox : Block) : Prop where
  files : SameFiles c c'
  current : c'.current = c.current
  mail : ((c.processes dest).mailbox = some mailbox ∧ c'.loud = c.loud) ∨
    ((c.processes dest).mailbox = none ∧ mailbox = c.heap ∧ c'.heap = c.heap + 1 ∧
      c'.loud = .mailboxTaken c.heap :: c.loud)
  kept : ∀ other, (c.mailboxes other).live = true → (c'.mailboxes other).live = true
  fresh : (c.processes dest).mailbox = none → (c'.mailboxes mailbox).live = true

theorem Reserved.mailLedger {c' : Core} (hreserved : Reserved c c' dest mailbox) :
    (c'.mailLedger = c.mailLedger ∧ (c.processes dest).mailbox = some mailbox) ∨
      (c'.mailLedger = .taken c.heap :: c.mailLedger ∧ (c.processes dest).mailbox = none ∧
        mailbox = c.heap ∧ c'.heap = c.heap + 1) := by
  rw [mailLedger_eq, mailLedger_eq]
  rcases hreserved.mail with ⟨hold, hloud⟩ | ⟨hnone, hnew, hheap, hloud⟩
  · exact .inl ⟨by rw [hloud], hold⟩
  · exact .inr ⟨by rw [hloud]; rfl, hnone, hnew, hheap⟩

theorem Mail.posted {c' : Core} (hmail : Mail v c) (hreserved : Reserved c c' dest mailbox)
    (hexisting : (c.processes dest).existing = true) (wait : Pid → Wait)
    (hprocesses : c'.processes = (c.posted dest mailbox size alloc).processes) :
    Mail { v with wait := wait } c' := by
  have hheap := hreserved.files.heap
  have hfresh : ¬ Outstanding c.mailLedger c.heap :=
    fun hout => absurd (hmail.fresh c.heap hout) (lt_irrefl _)
  have hexisting' : ∀ other, (c'.processes other).existing = (c.processes other).existing := by
    intro other
    rw [hprocesses]
    exact posted_field Process.existing other fun _ _ _ _ _ _ => rfl
  have hmailbox : ∀ other, (c'.processes other).mailbox =
      if other = dest then some mailbox else (c.processes other).mailbox := by
    intro other
    rw [hprocesses]
    simp only [Core.posted, modify_processes, Function.update_apply]
    split
    · rfl
    · exact rouse_field c _ other Process.mailbox fun _ => rfl
  have hsize : ∀ other, other ≠ dest →
      (c'.processes other).mailboxSize = (c.processes other).mailboxSize := by
    intro other hother
    rw [hprocesses]
    simp only [Core.posted, modify_processes, Function.update_of_ne hother]
    exact rouse_field c _ other Process.mailboxSize fun _ => rfl
  refine ⟨?_, ?_, ?_, ?_, ?_, ?_, ?_⟩
  · have hlinear := hmail.linear
    rcases hreserved.mailLedger with ⟨hledger, -⟩ | ⟨hledger, -⟩
    · rwa [hledger]
    · rw [hledger, linear_taken]
      exact ⟨hfresh, hlinear⟩
  · intro other hout
    have hother := hmail.fresh other
    rcases hreserved.mailLedger with ⟨hledger, -⟩ | ⟨hledger, -, -, hheap'⟩
    · rw [hledger] at hout
      exact (hother hout).trans_le hheap
    · rw [hledger, outstanding_taken] at hout
      grind
  · intro other hout
    rcases hreserved.mailLedger with ⟨hledger, -⟩ | ⟨hledger, hnone, hnew, -⟩
    · rw [hledger] at hout
      exact hreserved.kept other (hmail.unreleased other hout)
    · rw [hledger, outstanding_taken] at hout
      rcases hout with rfl | hout
      · exact hnew ▸ hreserved.fresh hnone
      · exact hreserved.kept other (hmail.unreleased other hout)
  · intro other mailbox' hpresent howns
    have howned := hmail.owned other mailbox' hpresent
    rw [hmailbox] at howns
    rcases hreserved.mailLedger with ⟨hledger, hold⟩ | ⟨hledger, hnone, hnew, -⟩
    · rw [hledger]
      grind
    · rw [hledger, outstanding_taken]
      grind
  · intro other mailbox' hother howns
    rw [hexisting'] at hother
    rw [hmailbox] at howns
    have hused := hmail.used other mailbox' hother
    rcases hreserved.mailLedger with ⟨-, hold⟩ | ⟨-, hnone, hnew, hheap'⟩
    · grind
    · grind
  · intro other other' mailbox' hother hother' howns howns'
    rw [hexisting'] at hother hother'
    rw [hmailbox] at howns howns'
    have hunique := hmail.unique other other' mailbox' hother hother'
    have hused := hmail.used other mailbox' hother
    have hused' := hmail.used other' mailbox' hother'
    rcases hreserved.mailLedger with ⟨-, hold⟩ | ⟨-, hnone, hnew, hheap'⟩
    · grind
    · grind
  · intro other hother hnone
    rw [hexisting'] at hother
    rw [hmailbox] at hnone
    have hne : other ≠ dest := by
      rintro rfl
      simp at hnone
    rw [if_neg hne] at hnone
    rw [hsize other hne]
    exact hmail.empty other hother hnone

theorem Slots.congr {c' : Core} (hslots : Slots v c) (hprocesses : c'.processes = c.processes) :
    Slots v c' where
  existing := by
    rw [hprocesses]
    exact hslots.existing
  dying := hslots.dying
  identity := by
    rw [hprocesses]
    exact hslots.identity
  zero := by
    rw [hprocesses]
    exact hslots.zero
  parent := by
    rw [hprocesses]
    exact hslots.parent

/-- The reservation of a mailbox says nothing about the life of processes. -/
theorem Reserved.history {c' : Core} (hreserved : Reserved c c' dest mailbox) :
    (∀ other, stage c'.history other = stage c.history other) ∧
      (Lawful c'.history ↔ Lawful c.history) ∧
      ∀ other alive, .selected other alive ∈ c'.history → .selected other alive ∈ c.history := by
  have hselected : ∀ (core : Core) other alive, .selected other alive ∈ core.history ↔
      .selected other alive ∈ core.loud := by
    intro core other alive
    simp [loud, Happening.isLoud]
  have hloud : c'.loud = c.loud ∨ c'.loud = .mailboxTaken c.heap :: c.loud := by
    rcases hreserved.mail with ⟨-, h⟩ | ⟨-, -, -, h⟩
    · exact .inl h
    · exact .inr h
  refine ⟨?_, ?_, ?_⟩
  · intro other
    rw [← stage_filter_loud, ← stage_filter_loud c.history, ← Core.loud, ← Core.loud]
    rcases hloud with h | h
    · rw [h]
    · rw [h]
      rfl
  · rw [← lawful_filter_loud, ← lawful_filter_loud c.history, ← Core.loud, ← Core.loud]
    rcases hloud with h | h
    · rw [h]
    · rw [h]
      rfl
  · intro other alive
    rw [hselected, hselected]
    rcases hloud with h | h
    · rw [h]
      exact id
    · rw [h]
      simp

/-- The invariant after a message arrived. -/
theorem Inv.posted {d c' : Core} (hinv : Inv v c) (hexisting : (c.processes dest).existing = true)
    (hreserved : Reserved c d dest mailbox)
    (hprocesses : d.processes = (c.posted dest mailbox size alloc).processes)
    (hlinked : Linked { v with wait := v.rouse (c.receiver dest) }.place c')
    (hsame : c'.unlinked = d.unlinked) :
    Inv { v with wait := v.rouse (c.receiver dest) } c' := by
  obtain ⟨hstage, hlawful, hselected⟩ := hreserved.history
  refine Inv.of_unlinked hlinked hsame ((hinv.slots.posted _).congr hprocesses) ?_ ?_ ?_ ?_ ?_ ?_
    ?_ ⟨hlawful.mpr hinv.lifecycle.lawful, ?_⟩
  · exact (hinv.waits.posted hexisting).congr hprocesses hreserved.files.pipes
      hreserved.files.handles
  · exact hinv.handles.sameFiles hreserved.files rfl
  · exact hinv.pipes.sameFiles hreserved.files
  · exact hinv.references.sameFiles hreserved.files rfl
  · exact hinv.mail.posted hreserved hexisting _ hprocesses
  · intro other halive hcurrent
    rw [hreserved.current] at hcurrent
    rw [hprocesses, posted_field Process.inSyscall other fun _ _ _ _ _ _ => rfl]
    exact hinv.pending other halive hcurrent
  · exact fun other alive h => hinv.chosen other alive (hselected other alive h)
  · intro other
    rw [hstage, hinv.lifecycle.stages, hprocesses]
    exact (posted_field Process.stage other fun _ _ _ _ _ _ => rfl).symm

/-- The end of `syscall_send`. -/
theorem wakeUpReceiver_spec {d : Core} (hinv : Inv v c)
    (hexisting : (c.processes dest).existing = true) (hreserved : Reserved c d dest mailbox)
    (hprocesses : d.processes = Function.update c.processes dest { c.processes dest with
      mailbox := some mailbox
      mailboxSize := size
      mailboxAlloc := alloc })
    (hqueue : d.queue = c.queue) :
    ∃ c', d.wakeUpReceiver dest = .ok c' ∧
      Inv { v with wait := v.rouse (c.receiver dest) } c' ∧ Steady c c' ∧ SameView c c' := by
  have hdest : d.processes dest = { c.processes dest with
      mailbox := some mailbox
      mailboxSize := size
      mailboxAlloc := alloc } := by
    rw [hprocesses, Function.update_self]
  have hother : ∀ other, other ≠ dest → d.processes other = c.processes other := by
    intro other hne
    rw [hprocesses, Function.update_of_ne hne]
  have hlinked : Linked v.place d := by
    refine hinv.linked.congr ?_ ?_ hqueue
    · intro other
      by_cases hne : other = dest
      · rw [hne, hdest]
      · rw [hother other hne]
    · intro other
      by_cases hne : other = dest
      · rw [hne, hdest]
      · rw [hother other hne]
  have hsteady : ∀ d' : Core, d'.processes = (c.posted dest mailbox size alloc).processes →
      d'.current = d.current → Steady c d' := by
    intro d' hd' hcurrent
    refine ⟨hcurrent.trans hreserved.current, ?_, ?_, ?_, ?_, ?_⟩
    · intro other
      rw [isLive, hd']
      exact posted_field (fun proc => proc.existing && !proc.exited) other fun _ _ _ _ _ _ => rfl
    · intro other
      rw [hd']
      exact posted_field Process.inSyscall other fun _ _ _ _ _ _ => rfl
    · intro other
      rw [hd']
      exact posted_field Process.savedRegs other fun _ _ _ _ _ _ => rfl
    · intro other
      rw [hd']
      exact posted_field Process.cwd other fun _ _ _ _ _ _ => rfl
    · intro other status h
      rwa [hd', posted_field Process.stage other fun _ _ _ _ _ _ => rfl] at h
  have hview : ∀ d' : Core, d'.processes = (c.posted dest mailbox size alloc).processes →
      d'.current = d.current → SameView c d' := by
    intro d' hd' hcurrent
    refine ⟨(hsteady d' hd' hcurrent).live, ?_, ?_, hcurrent.trans hreserved.current⟩
    · intro other
      rw [hd']
      exact posted_field Process.filedesc other fun _ _ _ _ _ _ => rfl
    · intro other
      rw [hd']
      exact posted_field Process.savedRegs other fun _ _ _ _ _ _ => rfl
  cases hblocked : (c.processes dest).receiveBlocked with
  | false =>
      have hreceiver : c.receiver dest = none := by simp [receiver, hblocked]
      have hposted : d.processes = (c.posted dest mailbox size alloc).processes := by
        funext other
        by_cases hne : other = dest
        · subst hne
          rw [hdest]
          simp [Core.posted, hreceiver, hblocked]
        · rw [hother other hne]
          simp [Core.posted, hreceiver, hne]
      refine ⟨d, by simp [wakeUpReceiver, hdest, hblocked], ?_, hsteady d hposted rfl,
        hview d hposted rfl⟩
      apply hinv.posted hexisting hreserved hposted _ rfl
      rw [hreceiver, View.rouse_none]
      exact hlinked
  | true =>
      have hreceiver : c.receiver dest = some dest := by simp [receiver, hblocked]
      have hwait := (hinv.waits.blocked dest hexisting).mp hblocked
      have hasleep : v.wait dest ≠ .awake := by simp [hwait]
      have halive : v.alive dest = true := by
        by_contra hdead
        exact hasleep (hinv.waits.awake dest (by simpa using hdead))
      have hready : (c.processes dest).ready = false := by
        by_contra hready
        exact hasleep ((hinv.waits.ready dest halive).mp (by simpa using hready))
      obtain ⟨c₃, hrun, hlinked₃, hsame₃⟩ := resume_sleeper hlinked halive hasleep
        (by rw [hdest]; exact hexisting) (by rw [hdest]; exact hready)
      have hsame := unlinked_modify_congr hsame₃ dest
        (show ∀ proc : Process, ({ proc with receiveBlocked := false } : Process).unlinked =
          { proc.unlinked with receiveBlocked := false } from fun _ => rfl)
      have hposted : ((d.rouse (some dest)).modify dest
          fun proc => { proc with receiveBlocked := false }).processes =
            (c.posted dest mailbox size alloc).processes := by
        funext other
        by_cases hne : other = dest
        · subst hne
          simp [Core.posted, hreceiver, hdest]
        · simp [Core.posted, hreceiver, hne, Ne.symm hne, hother other hne]
      refine ⟨c₃.modify dest fun proc => { proc with receiveBlocked := false }, ?_, ?_, ?_, ?_⟩
      · simp [wakeUpReceiver, hdest, hblocked, hrun]
      · refine hinv.posted hexisting
          (d := (d.rouse (some dest)).modify dest fun proc => { proc with receiveBlocked := false })
          ⟨?_, hreserved.current, hreserved.mail, hreserved.kept, hreserved.fresh⟩ hposted ?_ hsame
        · exact ⟨hreserved.files.handles, hreserved.files.pipes, hreserved.files.inputPipe,
            hreserved.files.heap, hreserved.files.slots, hreserved.files.freed,
            hreserved.files.made⟩
        · rw [hreceiver]
          exact hlinked₃.modify dest (fun _ => rfl) fun _ => rfl
      · exact (hsteady _ hposted rfl).of_unlinked hsame
      · exact (hview _ hposted rfl).of_unlinked hsame

end Posted

/-- Reserving a place for a message: the state before the message is filled in. -/
theorem reserveMessage_spec (c : Core) (dest : Pid) :
    Ensures Harmless (c.reserveMessage dest) fun result =>
      ∀ d mailbox, result = some (d, mailbox) → ∃ size alloc,
        Reserved c d dest mailbox ∧ d.queue = c.queue ∧
        d.processes = Function.update c.processes dest { c.processes dest with
          mailbox := some mailbox
          mailboxSize := size
          mailboxAlloc := alloc } := by
  rw [reserveMessage]
  split
  next hnone =>
    apply ensures_bind (kmalloc_spec c _)
    rintro _ rfl
    refine ensures_ok.mpr ?_
    intro d mailbox hresult
    simp only [Option.some.injEq, Prod.mk.injEq] at hresult
    obtain ⟨rfl, rfl⟩ := hresult
    refine ⟨1, 8, ⟨⟨rfl, rfl, rfl, Nat.le_succ _, rfl, rfl, by simp⟩, rfl,
      .inr ⟨hnone, rfl, rfl, rfl⟩, ?_, ?_⟩, rfl, rfl⟩
    · intro other hother
      by_cases hnew : other = c.heap <;> simp [hnew, hother]
    · intro _
      simp
  next old hold =>
    split
    · refine ensures_ok.mpr ?_
      intro d mailbox hresult
      simp only [Option.some.injEq, Prod.mk.injEq] at hresult
      obtain ⟨rfl, rfl⟩ := hresult
      refine ⟨(c.processes dest).mailboxSize + 1, (c.processes dest).mailboxAlloc,
        ⟨⟨rfl, rfl, rfl, le_rfl, rfl, rfl, fun _ => Iff.rfl⟩, rfl, .inl ⟨hold, rfl⟩,
          fun _ h => h, fun hnone => (by cases hold.symm.trans hnone)⟩, rfl, ?_⟩
      simp only [modify, ← hold]
    · exact ensures_ok.mpr fun d mailbox hresult => by cases hresult

/-- A message for the target goes to no mailbox that was released. -/
def Addressable (c : Core) (target : Word) : Prop :=
  ∀ dest mailbox, pidArgument target = some dest → (c.processes dest).existing = true →
    (c.processes dest).mailbox = some mailbox → (c.mailboxes mailbox).live = true

theorem Reserved.addressed {d : Core} {dest : Pid} {mailbox : Block} {target : Word}
    (hreserved : Reserved c d dest mailbox) (haddressable : Addressable c target)
    (hdest : pidArgument target = some dest) (hexisting : (c.processes dest).existing = true) :
    (d.mailboxes mailbox).live = true := by
  rcases hreserved.mail with ⟨howns, -⟩ | ⟨hnone, -⟩
  · exact hreserved.kept mailbox (haddressable dest mailbox hdest hexisting howns)
  · exact hreserved.fresh hnone

theorem syscallSend_spec (hrunning : Running c r wait pid) (target tag : Word) (size : ℕ)
    {data : Except Fault (List UInt8)} (hdata : Ensures Harmless data fun _ => True) :
    Ensures (fun fault => Harmless fault ∨ fault = .releasedMailbox ∧ ¬ Addressable c target)
      (c.syscallSend pid target tag size data) fun result =>
        Finishes c r pid result.1 result.2 := by
  have hsrch : failure esrch = failure esuspend → Repeatable r.eax.toNat :=
    fun h => absurd h (by decide)
  have hinval : failure einval = failure esuspend → Repeatable r.eax.toNat :=
    fun h => absurd h (by decide)
  have hnomem : failure enomem = failure esuspend → Repeatable r.eax.toNat :=
    fun h => absurd h (by decide)
  have hdone : (0 : Word) = failure esuspend → Repeatable r.eax.toNat :=
    fun h => absurd h (by decide)
  rw [syscallSend]
  split
  · exact ensures_ok.mpr (hrunning.finish hsrch)
  next dest hdest =>
    split
    · exact ensures_ok.mpr (hrunning.finish hsrch)
    next hexisting =>
      split
      · exact ensures_ok.mpr (hrunning.finish hinval)
      · refine ensures_bind (ensures_mono (reserveMessage_spec c dest) (fun _ => .inl)
          fun _ h => h) ?_
        intro result hresult
        cases result with
        | none => exact ensures_ok.mpr (hrunning.finish hnomem)
        | some result =>
            obtain ⟨d, mailbox⟩ := result
            obtain ⟨size', alloc, hreserved, hqueue, hprocesses⟩ := hresult d mailbox rfl
            refine ensures_bind (ensures_mono hdata (fun _ => .inl) fun _ h => h) ?_
            intro bytes _
            have hexisting' : (c.processes dest).existing = true := by simpa using hexisting
            by_cases hflag : (d.mailboxes mailbox).live = true
            swap
            · rw [if_neg hflag]
              exact ensures_error.mpr (.inr ⟨rfl, fun haddressable =>
                hflag (hreserved.addressed haddressable hdest hexisting')⟩)
            rw [if_pos hflag]
            have hflags : ∀ other, ((d.depositMessage pid dest mailbox tag bytes).mailboxes
                other).live = (d.mailboxes other).live := by
              intro other
              by_cases hother : other = mailbox <;> simp [depositMessage, hother]
            have hreserved' : Reserved c (d.depositMessage pid dest mailbox tag bytes) dest
                mailbox :=
              ⟨⟨hreserved.files.handles, hreserved.files.pipes, hreserved.files.inputPipe,
                hreserved.files.heap, hreserved.files.slots, hreserved.files.freed,
                hreserved.files.made⟩, hreserved.current, hreserved.mail,
                fun other hother => (hflags other).trans (hreserved.kept other hother),
                fun hnone => (hflags mailbox).trans (hreserved.fresh hnone)⟩
            obtain ⟨c', hrun, hinv, hsteady, hview⟩ := wakeUpReceiver_spec hrunning.inv
              hexisting' hreserved' hprocesses hqueue
            simp only [hrun, ok_bind]
            refine ensures_ok.mpr ⟨(viewOf c r wait).rouse (c.receiver dest), ?_, hsteady,
              .inl (View.rouse_awake hrunning.awake _), hdone⟩
            rw [hview.viewOf]
            exact hinv

/-! ## Falling asleep -/

/-- A process that is awake registers for something and falls asleep. -/
theorem Inv.lull {v : View} (hinv : Inv v c) (halive : v.alive pid = true)
    (hawake : v.wait pid = .awake) {event : Wait} {change : Process → Process}
    (hwaits : Waits { v with wait := v.lull pid event }
      ((c.modify pid change).modify pid fun proc => { proc with ready := false }))
    (hevent : event ≠ .awake) (hstill : ∀ proc, (change proc).still = proc.still)
    (hready : ∀ proc, (change proc).ready = proc.ready)
    (hprev : ∀ proc, (change proc).prev = proc.prev)
    (hnext : ∀ proc, (change proc).next = proc.next) :
    ∃ c', (c.modify pid change).suspendProcess pid = .ok c' ∧
      Inv { v with wait := v.lull pid event } c' ∧ Quiet c c' := by
  obtain ⟨hexisting, hrunnable⟩ := hinv.awake_ready halive hawake
  have hexisting' : ∀ proc, (change proc).still.existing = proc.still.existing :=
    fun proc => congrArg Process.existing (hstill proc)
  simp only [Process.still] at hexisting'
  obtain ⟨c', hrun, hlinked, hsame⟩ := suspend_awake (hinv.linked.modify pid hprev hnext) halive
    hawake (by simp [hexisting', hexisting]) (by simp [hready, hrunnable]) hevent
  have hquiet : Quiet c ((c.modify pid change).modify pid fun proc =>
      { proc with ready := false }) := by
    refine ⟨?_, rfl, rfl, le_rfl, rfl, rfl⟩
    intro other
    by_cases hother : other = pid
    · subst hother
      simp only [modify_processes, Function.update_self]
      exact hstill (c.processes other)
    · simp [hother]
  have hends : SameEnds c ((c.modify pid change).modify pid fun proc =>
      { proc with ready := false }) :=
    ⟨rfl, fun _ => rfl, rfl, rfl, fun _ => Iff.rfl⟩
  refine ⟨c', hrun, ?_, hquiet.of_unlinked hsame⟩
  exact hinv.sameEnds (hquiet.of_unlinked hsame) (hends.of_unlinked hsame) hlinked
    (waits_unlinked.mp (hsame ▸ waits_unlinked.mpr hwaits))

/-! ## Receiving -/

/-- A process falls asleep with an empty mailbox. -/
theorem Waits.lullReceiver {v : View} (hwaits : Waits v c) (halive : v.alive pid = true)
    (hawake : v.wait pid = .awake)
    (hcall : (c.processes pid).inSyscall = Call.receive.number)
    (hempty : (c.processes pid).mailboxSize = 0) :
    Waits { v with wait := v.lull pid .receiving }
      ((c.modify pid fun proc => { proc with receiveBlocked := true }).modify pid
        fun proc => { proc with ready := false }) := by
  refine hwaits.lullSelf halive (fun h => by cases h) hawake (fun _ h => by cases h)
    (fun proc => ⟨rfl, rfl, rfl, rfl⟩) (fun _ => iff_of_true rfl rfl) (fun child hchild => ?_)
    (fun _ => ⟨hcall, hempty⟩) fun _ h => by cases h
  have hawaited := hwaits.awaited pid child halive hchild
  rw [hawake] at hawaited
  exact hawaited.trans (iff_of_false (fun h => by cases h) fun h => by cases h)

theorem syscallReceive_spec (hrunning : Running c r wait pid)
    (hcall : (c.processes pid).inSyscall = Call.receive.number) (block : Word) :
    Ensures Harmless (c.syscallReceive pid block) fun result =>
      Finishes c r pid result.1 result.2.1 := by
  have hrepeats : ∀ res, res = failure esuspend → Repeatable r.eax.toNat := by
    intro res _
    rw [← hrunning.call, hcall]
    simp [Repeatable]
  have halive : (viewOf c r wait).alive pid = true := hrunning.live
  have hexisting := hrunning.inv.slots.existing pid (.inl halive)
  have hblocked : (c.processes pid).receiveBlocked = false := by
    by_contra hblocked
    have hwait := (hrunning.inv.waits.blocked pid hexisting).mp (by simpa using hblocked)
    cases hrunning.awake.symm.trans hwait
  have hreceiver : c.receiver pid = none := by simp [receiver, hblocked]
  rw [syscallReceive]
  split
  next hsize =>
    cases hmailbox : (c.processes pid).mailbox with
    | none =>
        have hempty := hrunning.inv.mail.empty pid hexisting hmailbox
        omega
    | some mailbox =>
        refine ensures_ok.mpr ⟨wait, ?_, ?_, .inl hrunning.awake, hrepeats _⟩
        · generalize hd : (c.setMailbox mailbox (dropMessage (c.mailboxes mailbox)
            (c.processes pid).mailboxSize)).modify pid
              (fun proc => { proc with mailboxSize := proc.mailboxSize - 1 }) = d
          have hprocesses : d.processes = (c.posted pid mailbox
              ((c.processes pid).mailboxSize - 1) (c.processes pid).mailboxAlloc).processes := by
            funext other
            subst hd
            by_cases hother : other = pid
            · subst hother
              simp [posted, hreceiver, ← hmailbox, ← hblocked]
            · simp [posted, hreceiver, hother]
          have hreserved : Reserved c d pid mailbox := by
            subst hd
            refine ⟨⟨rfl, rfl, rfl, le_rfl, rfl, rfl, fun _ => Iff.rfl⟩, rfl, .inl ⟨hmailbox, rfl⟩,
              ?_, fun hnone => (by cases hmailbox.symm.trans hnone)⟩
            intro other hother
            by_cases hsame : other = mailbox
            · simpa [hsame, dropMessage] using hsame ▸ hother
            · simpa [hsame] using hother
          have hlinked : Linked (viewOf c r wait).place d := by
            subst hd
            apply Linked.modify
            · exact hrunning.inv.linked.congr (fun _ => rfl) (fun _ => rfl) rfl
            · exact fun _ => rfl
            · exact fun _ => rfl
          have hinv : Inv { viewOf c r wait with wait := (viewOf c r wait).rouse none } d := by
            rw [← hreceiver]
            refine hrunning.inv.posted hexisting hreserved hprocesses ?_ rfl
            rw [hreceiver, View.rouse_none]
            exact hlinked
          have hview : SameView c d := by
            refine ⟨?_, ?_, ?_, hreserved.current⟩
            · intro other
              rw [isLive, hprocesses]
              exact posted_field (fun proc => proc.existing && !proc.exited) other
                fun _ _ _ _ _ _ => rfl
            · intro other
              rw [hprocesses]
              exact posted_field Process.filedesc other fun _ _ _ _ _ _ => rfl
            · intro other
              rw [hprocesses]
              exact posted_field Process.savedRegs other fun _ _ _ _ _ _ => rfl
          rw [View.rouse_none] at hinv
          rw [hview.viewOf]
          exact hinv
        · have hsteady : Steady (c.setMailbox mailbox (dropMessage (c.mailboxes mailbox)
              (c.processes pid).mailboxSize)) ((c.setMailbox mailbox (dropMessage
                (c.mailboxes mailbox) (c.processes pid).mailboxSize)).modify pid fun proc =>
                  { proc with mailboxSize := proc.mailboxSize - 1 }) := by
            apply Steady.modify <;> intro proc <;> rfl
          exact ⟨hsteady.current, hsteady.live, hsteady.call, hsteady.saved, hsteady.cwd,
            hsteady.neglected⟩
  next hsize =>
    split
    · have hempty : (c.processes pid).mailboxSize = 0 := by omega
      obtain ⟨c', hrun, hinv, hquiet⟩ := hrunning.inv.lull halive hrunning.awake
        (hrunning.inv.waits.lullReceiver halive hrunning.awake hcall hempty)
        (fun h => by cases h) (fun _ => rfl) (fun _ => rfl) (fun _ => rfl) (fun _ => rfl)
      simp only [hrun, ok_bind]
      refine ensures_ok.mpr ⟨(viewOf c r wait).lull pid .receiving, ?_, hquiet.steady, .inr rfl,
        hrepeats _⟩
      rw [viewOf_quiet hquiet]
      exact hinv
    · exact ensures_ok.mpr (hrunning.finish (hrepeats _))

end Core

end Rhythmos.Kernel
