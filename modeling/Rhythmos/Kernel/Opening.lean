import Rhythmos.Kernel.Descriptors

/-!
# Taking references to file handles

New handles, new pipes and new references to existing handles, and from them the
system calls that work on descriptors.
-/

namespace Rhythmos.Kernel

open Fallible Ledger RefCount ByteMemory Libc

/-- The process without the fields the invariant does not mention. -/
def Process.essence (proc : Process) : Process :=
  { proc with
    savedRegs := Regs.zero
    lastErrno := 0
    filedesc := fun _ => none
    cwd := []
    mailboxAlloc := 0 }

/-- The references after a descriptor came to refer to a handle. -/
def View.take (v : View) (slot : Slot) (fh : Block) : Slot → Option Block :=
  Function.update v.table slot (some fh)

theorem View.references_take {v : View} {slot : Slot} (hslot : v.table slot = none)
    (fh other : Block) :
    references (v.take slot fh) other = references v.table other + if other = fh then 1 else 0 := by
  have hupdate := references_update v.table slot (some fh) other
  rw [hslot] at hupdate
  simp only [reduceCtorEq, if_false, Nat.add_zero, Option.some.injEq] at hupdate
  rw [View.take, hupdate]
  simp only [eq_comm]

namespace Core

/-! ## Fields that do not matter -/

def essential (c : Core) : Core := { c with processes := fun pid => (c.processes pid).essence }

theorem inv_essential {v : View} {c : Core} : Inv v c.essential ↔ Inv v c := by
  constructor
  · intro h
    exact ⟨h.linked, ⟨h.slots.existing, h.slots.dying, h.slots.identity, h.slots.zero,
        h.slots.parent⟩,
      ⟨h.waits.awake, h.waits.ready, h.waits.registered, h.waits.blocked, h.waits.awaited,
        h.waits.reading, h.waits.receiving, h.waits.awaiting⟩,
      ⟨h.handles.fresh, h.handles.resolved, h.handles.counted, h.handles.reader,
        h.handles.writer, h.handles.readerUnique, h.handles.writerUnique⟩,
      ⟨h.pipes.fresh, h.pipes.opened, h.pipes.input, h.pipes.madeReader, h.pipes.madeWriter,
        h.pipes.madeFresh, h.pipes.madeFreed, h.pipes.freedOnce, h.pipes.freedGone⟩,
      ⟨h.references.linear, h.references.outstanding⟩,
      ⟨h.mail.linear, h.mail.fresh, h.mail.unreleased, h.mail.owned, h.mail.used, h.mail.unique,
        h.mail.empty⟩,
      h.pending, h.chosen, ⟨h.lifecycle.lawful, h.lifecycle.stages⟩⟩
  · intro h
    exact ⟨h.linked, ⟨h.slots.existing, h.slots.dying, h.slots.identity, h.slots.zero,
        h.slots.parent⟩,
      ⟨h.waits.awake, h.waits.ready, h.waits.registered, h.waits.blocked, h.waits.awaited,
        h.waits.reading, h.waits.receiving, h.waits.awaiting⟩,
      ⟨h.handles.fresh, h.handles.resolved, h.handles.counted, h.handles.reader,
        h.handles.writer, h.handles.readerUnique, h.handles.writerUnique⟩,
      ⟨h.pipes.fresh, h.pipes.opened, h.pipes.input, h.pipes.madeReader, h.pipes.madeWriter,
        h.pipes.madeFresh, h.pipes.madeFreed, h.pipes.freedOnce, h.pipes.freedGone⟩,
      ⟨h.references.linear, h.references.outstanding⟩,
      ⟨h.mail.linear, h.mail.fresh, h.mail.unreleased, h.mail.owned, h.mail.used, h.mail.unique,
        h.mail.empty⟩,
      h.pending, h.chosen, ⟨h.lifecycle.lawful, h.lifecycle.stages⟩⟩

/-- Changing fields of a process that the invariant does not mention. -/
theorem Inv.inert {v : View} {c : Core} (hinv : Inv v c) (pid : Pid)
    {change : Process → Process} (hchange : ∀ proc, (change proc).essence = proc.essence) :
    Inv v (c.modify pid change) := by
  have hsame : (c.modify pid change).essential = c.essential := by
    simp only [essential, modify, Core.mk.injEq, and_self, and_true]
    funext other
    by_cases hother : other = pid
    · subst hother
      simp [hchange]
    · simp [hother]
  rw [← inv_essential, hsame, inv_essential]
  exact hinv

theorem Inv.setFiledesc {v : View} {c : Core} (hinv : Inv v c) (pid : Pid) (fd : Fd)
    (handle : Option Block) : Inv v (c.setFiledesc pid fd handle) :=
  hinv.inert pid fun _ => rfl

/-! ## Taking a reference -/

/-- The history of references after filling a descriptor. -/
theorem References.take {v : View} {c c' : Core} (hreferences : References v c) {slot : Slot}
    (hslot : v.table slot = none) (fh : Block)
    (hledger : c'.slotLedger = .taken slot :: c.slotLedger) :
    References { v with table := v.take slot fh } c' where
  linear := by
    rw [hledger, linear_taken, hreferences.outstanding]
    exact ⟨by simp [hslot], hreferences.linear⟩
  outstanding other := by
    rw [hledger, outstanding_taken, hreferences.outstanding other, View.take]
    by_cases hother : other = slot
    · subst hother
      simp
    · simp [hother]

section Take

variable {v : View} {c : Core} {pid : Pid} {fd : Fd} {fh : Block}

/-- A descriptor of a process that is awake changes while all handles in use keep
their kind. -/
theorem Waits.take (hwaits : Waits v c) (hawake : v.wait pid = .awake) (fd : Fd) (fh : Block)
    {handles : Block → Option FileHandle}
    (hkinds : ∀ fh handle, c.handles fh = some handle →
      ∃ new, handles fh = some new ∧ new.kind = handle.kind) :
    Waits { v with table := v.take (pid, fd) fh } { c with handles := handles } := by
  apply hwaits.retable
  · intro other fd' hasleep
    have hne : (other, fd') ≠ (pid, fd) := by
      intro hsame
      rw [Prod.mk.injEq] at hsame
      exact hasleep (hsame.1 ▸ hawake)
    rw [View.take, Function.update_of_ne hne]
  · intro slot fh' handle hslot hfh'
    exact hkinds fh' handle hfh'

/-- The descriptor of a process that is awake takes another reference. -/
theorem share_spec (hinv : Inv v c) (hslot : v.table (pid, fd) = none)
    (hawake : v.wait pid = .awake) {slot : Slot} (hheld : v.table slot = some fh) :
    ∃ c', (c.install pid fd fh).retain fh = .ok c' ∧
      Inv { v with table := v.take (pid, fd) fh } c' ∧
      Quiet (c.setFiledesc pid fd (some fh)) c' := by
  obtain ⟨handle, hfh⟩ := hinv.handles.resolved slot fh hheld
  have hfiled := hinv.setFiledesc pid fd (some fh)
  have hfh' : (c.setFiledesc pid fd (some fh)).handles fh = some handle := hfh
  obtain ⟨hcount, hpos⟩ := hinv.handles.counted fh handle hfh
  have hquiet : Quiet (c.setFiledesc pid fd (some fh)) ((c.install pid fd fh).setHandle fh
      (some { handle with refcount := handle.refcount + 1 })) :=
    ⟨fun _ => rfl, rfl, rfl, le_rfl, rfl, rfl⟩
  refine ⟨(c.install pid fd fh).setHandle fh
    (some { handle with refcount := handle.refcount + 1 }), ?_, ?_, hquiet⟩
  · simp [retain, Core.handle, install, setFiledesc, hfh]
  · have hwaits : Waits { v with table := v.take (pid, fd) fh }
        { c.setFiledesc pid fd (some fh) with
          handles := Function.update c.handles fh
            (some { handle with refcount := handle.refcount + 1 }) } := by
      apply hfiled.waits.take hawake
      intro other handle' hother
      by_cases hsame : other = fh
      · subst hsame
        rw [hfh', Option.some.injEq] at hother
        subst hother
        exact ⟨_, Function.update_self _ _ _, rfl⟩
      · exact ⟨handle', by rw [Function.update_of_ne hsame]; exact hother, rfl⟩
    have hkind : ({ handle with refcount := handle.refcount + 1 } : FileHandle).kind =
        handle.kind := rfl
    refine hfiled.quiet hquiet (hfiled.linked.congr (fun _ => rfl) (fun _ => rfl) rfl)
      (hwaits.congr rfl rfl rfl) ?_ ?_ (hfiled.references.take hslot fh rfl)
    · refine hfiled.handles.recount hfh' hkind ⟨?_, by simp⟩ ?_ rfl rfl rfl
      · rw [View.references_take hslot, if_pos rfl, hcount]
      · intro other hother
        rw [View.references_take hslot, if_neg hother, Nat.add_zero]
    · exact hfiled.pipes.recount hfh' hkind rfl rfl rfl rfl rfl (by simp [install, setFiledesc])

/-! ## New handles -/

theorem newHandle_spec (c : Core) (kind : HandleKind) :
    Ensures Harmless (c.newHandle kind) fun result =>
      result = ({ c with heap := c.heap + 1 }.setHandle c.heap (some ⟨kind, 1, 0, 0⟩), c.heap) := by
  rw [newHandle]
  apply ensures_bind (kmalloc_spec c 36)
  rintro _ rfl
  exact ensures_ok.mpr rfl

/-- The pipe behind a new handle is open and has no other handle of this kind. -/
structure Opens (c : Core) (kind : HandleKind) : Prop where
  reader : ∀ b, kind = .pipeReader b → (∃ pipe, c.pipes b = some pipe ∧ pipe.reading = true) ∧
    ∀ fh handle, c.handles fh = some handle → handle.kind ≠ .pipeReader b
  writer : ∀ b, kind = .pipeWriter b → (∃ pipe, c.pipes b = some pipe ∧ pipe.writing = true) ∧
    (∀ fh handle, c.handles fh = some handle → handle.kind ≠ .pipeWriter b) ∧
    c.inputPipe ≠ some b

theorem Opens.plain (c : Core) {kind : HandleKind}
    (hkind : ∀ b, kind ≠ .pipeReader b ∧ kind ≠ .pipeWriter b) : Opens c kind :=
  ⟨fun b h => absurd h (hkind b).1, fun b h => absurd h (hkind b).2⟩

/-- The state after a new handle was put into a descriptor. -/
def opening (c : Core) (kind : HandleKind) (pid : Pid) (fd : Fd) : Core :=
  ({ c with heap := c.heap + 1 }.setHandle c.heap (some ⟨kind, 1, 0, 0⟩)).install pid fd c.heap

theorem Handles.opening (hhandles : Handles v c) {kind : HandleKind} (hopens : Opens c kind)
    (hslot : v.table (pid, fd) = none) :
    Handles { v with table := v.take (pid, fd) c.heap } (c.opening kind pid fd) where
  fresh other hother := by
    have hfresh := hhandles.fresh other
    simp only [Core.opening, install, setFiledesc, record_heap, modify_heap, setHandle_heap,
      record_handles, modify_handles, setHandle_handles, Function.update_apply] at hother ⊢
    grind
  resolved slot other hslot' := by
    simp only [Core.opening, install, setFiledesc, record_handles, modify_handles,
      setHandle_handles, View.take, Function.update_apply] at hslot' ⊢
    by_cases hother : other = c.heap
    · exact ⟨_, if_pos hother⟩
    · rw [if_neg hother]
      exact hhandles.resolved slot other (by grind)
  counted other handle hother := by
    have hcounted := hhandles.counted other handle
    have htake := View.references_take hslot c.heap other
    have hunused : references v.table c.heap = 0 := by
      refine references_eq_zero_iff.mpr ?_
      intro slot hslot'
      obtain ⟨handle', hhandle'⟩ := hhandles.resolved slot c.heap hslot'
      simp [hhandles.fresh c.heap le_rfl] at hhandle'
    simp only [Core.opening, install, setFiledesc, record_handles, modify_handles,
      setHandle_handles, Function.update_apply] at hother ⊢
    grind
  reader other handle b hother hkind := by
    have hreader := hhandles.reader other handle b
    have hnew := hopens.reader b
    simp only [Core.opening, install, setFiledesc, record_handles, modify_handles,
      setHandle_handles, Function.update_apply] at hother
    change ∃ pipe, c.pipes b = some pipe ∧ pipe.reading = true
    grind
  writer other handle b hother hkind := by
    have hwriter := hhandles.writer other handle b
    have hnew := hopens.writer b
    simp only [Core.opening, install, setFiledesc, record_handles, modify_handles,
      setHandle_handles, Function.update_apply] at hother
    change ∃ pipe, c.pipes b = some pipe ∧ pipe.writing = true
    grind
  readerUnique fh₁ handle₁ fh₂ handle₂ b h₁ hkind₁ h₂ hkind₂ := by
    have hunique := hhandles.readerUnique fh₁ handle₁ fh₂ handle₂ b
    have hnew := hopens.reader b
    simp only [Core.opening, install, setFiledesc, record_handles, modify_handles,
      setHandle_handles, Function.update_apply] at h₁ h₂
    grind
  writerUnique fh₁ handle₁ fh₂ handle₂ b h₁ hkind₁ h₂ hkind₂ := by
    have hunique := hhandles.writerUnique fh₁ handle₁ fh₂ handle₂ b
    have hnew := hopens.writer b
    simp only [Core.opening, install, setFiledesc, record_handles, modify_handles,
      setHandle_handles, Function.update_apply] at h₁ h₂
    grind

theorem Pipes.opening (hpipes : Pipes c) (hfresh : c.handles c.heap = none) {kind : HandleKind}
    (hopens : Opens c kind) : Pipes (c.opening kind pid fd) where
  fresh b hb := hpipes.fresh b (Nat.le_of_succ_le hb)
  opened := hpipes.opened
  input b hb := by
    obtain ⟨hpipe, hnone⟩ := hpipes.input b hb
    refine ⟨hpipe, ?_⟩
    intro other handle hother
    have hnone' := hnone other handle
    have hnew := hopens.writer b
    simp only [Core.opening, install, setFiledesc, record_handles, modify_handles,
      setHandle_handles, Function.update_apply] at hother
    change c.inputPipe = some b at hb
    grind
  madeReader b pipe hb hpipe hreading := by
    have hb' : .pipeMade b ∈ c.history := by simpa [Core.opening, install, setFiledesc] using hb
    obtain ⟨other, handle, hother, hkind⟩ := hpipes.madeReader b pipe hb' hpipe hreading
    refine ⟨other, handle, ?_, hkind⟩
    simp only [Core.opening, install, setFiledesc, record_handles, modify_handles,
      setHandle_handles, Function.update_apply]
    grind
  madeWriter b pipe hb hpipe hwriting := by
    have hb' : .pipeMade b ∈ c.history := by simpa [Core.opening, install, setFiledesc] using hb
    obtain ⟨other, handle, hother, hkind⟩ := hpipes.madeWriter b pipe hb' hpipe hwriting
    refine ⟨other, handle, ?_, hkind⟩
    simp only [Core.opening, install, setFiledesc, record_handles, modify_handles,
      setHandle_handles, Function.update_apply]
    grind
  madeFresh b hb := by
    have hb' : .pipeMade b ∈ c.history := by simpa [Core.opening, install, setFiledesc] using hb
    exact Nat.lt_succ_of_lt (hpipes.madeFresh b hb')
  madeFreed b hb hnone := by
    have hb' : .pipeMade b ∈ c.history := by simpa [Core.opening, install, setFiledesc] using hb
    exact hpipes.madeFreed b hb' hnone
  freedOnce := hpipes.freedOnce
  freedGone b hb := by
    obtain ⟨hnone, hlt⟩ := hpipes.freedGone b hb
    exact ⟨hnone, Nat.lt_succ_of_lt hlt⟩

/-- A new handle in a descriptor of a process that is awake. -/
theorem Inv.opening (hinv : Inv v c) {kind : HandleKind} (hopens : Opens c kind)
    (hslot : v.table (pid, fd) = none) (hawake : v.wait pid = .awake) :
    Inv { v with table := v.take (pid, fd) c.heap } (c.opening kind pid fd) ∧
      Quiet (c.setFiledesc pid fd (some c.heap)) (c.opening kind pid fd) := by
  have hfiled := hinv.setFiledesc pid fd (some c.heap)
  have hquiet : Quiet (c.setFiledesc pid fd (some c.heap)) (c.opening kind pid fd) :=
    ⟨fun _ => rfl, rfl, rfl, Nat.le_succ _, rfl, rfl⟩
  have hfresh := hinv.handles.fresh c.heap le_rfl
  have hwaits : Waits { v with table := v.take (pid, fd) c.heap }
      { c.setFiledesc pid fd (some c.heap) with
        handles := Function.update c.handles c.heap (some ⟨kind, 1, 0, 0⟩) } := by
    apply hfiled.waits.take hawake
    intro other handle hother
    have hne : other ≠ c.heap := by
      rintro rfl
      cases hfresh.symm.trans hother
    exact ⟨handle, by rw [Function.update_of_ne hne]; exact hother, rfl⟩
  refine ⟨hfiled.quiet hquiet (hfiled.linked.congr (fun _ => rfl) (fun _ => rfl) rfl)
    (hwaits.congr rfl rfl rfl) (hinv.handles.opening hopens hslot)
    (hinv.pipes.opening hfresh hopens) (hfiled.references.take hslot c.heap rfl), hquiet⟩

end Take

/-! ## New pipes -/

/-- The state after a pipe was added under a fresh name. -/
theorem Handles.addPipe {v : View} {c c' : Core} (hhandles : Handles v c) {b : Block}
    {pipe : PipeBuffer} (hfresh : c.pipes b = none) (hheap : c.heap ≤ c'.heap)
    (hhandles' : c'.handles = c.handles)
    (hpipes : c'.pipes = Function.update c.pipes b (some pipe)) : Handles v c' where
  fresh fh hfh := by
    rw [hhandles']
    exact hhandles.fresh fh (hheap.trans hfh)
  resolved := by
    rw [hhandles']
    exact hhandles.resolved
  counted := by
    rw [hhandles']
    exact hhandles.counted
  reader fh handle b' hfh hkind := by
    rw [hhandles'] at hfh
    obtain ⟨pipe', hpipe', hreading⟩ := hhandles.reader fh handle b' hfh hkind
    have hne : b' ≠ b := by
      rintro rfl
      simp [hfresh] at hpipe'
    exact ⟨pipe', by simpa [hpipes, hne] using hpipe', hreading⟩
  writer fh handle b' hfh hkind := by
    rw [hhandles'] at hfh
    obtain ⟨pipe', hpipe', hwriting⟩ := hhandles.writer fh handle b' hfh hkind
    have hne : b' ≠ b := by
      rintro rfl
      simp [hfresh] at hpipe'
    exact ⟨pipe', by simpa [hpipes, hne] using hpipe', hwriting⟩
  readerUnique := by
    rw [hhandles']
    exact hhandles.readerUnique
  writerUnique := by
    rw [hhandles']
    exact hhandles.writerUnique

theorem Pipes.addPipe {c c' : Core} (hpipes : Pipes c) {pipe : PipeBuffer}
    (hreading : pipe.reading = true) (hheap : c.heap < c'.heap)
    (hhandles : c'.handles = c.handles) (hinput : c'.inputPipe = c.inputPipe)
    (hhistory : c'.history = c.history)
    (hpipes' : c'.pipes = Function.update c.pipes c.heap (some pipe)) : Pipes c' where
  fresh b hb := by
    have hne : b ≠ c.heap := (hheap.trans_le hb).ne'
    rw [hpipes', Function.update_of_ne hne]
    exact hpipes.fresh b (hheap.le.trans hb)
  opened b pipe' hpipe' := by
    have hopened := hpipes.opened b pipe'
    rw [hpipes', Function.update_apply] at hpipe'
    grind
  input b hb := by
    rw [hinput] at hb
    obtain ⟨⟨pipe', hpipe', hwriting⟩, hnone⟩ := hpipes.input b hb
    have hne : b ≠ c.heap := by
      rintro rfl
      simp [hpipes.fresh c.heap le_rfl] at hpipe'
    rw [hhandles]
    exact ⟨⟨pipe', by simpa [hpipes', hne] using hpipe', hwriting⟩, hnone⟩
  madeReader b pipe' hb hpipe' hreading' := by
    rw [hhistory] at hb
    have hlt := hpipes.madeFresh b hb
    rw [hpipes', Function.update_of_ne hlt.ne] at hpipe'
    rw [hhandles]
    exact hpipes.madeReader b pipe' hb hpipe' hreading'
  madeWriter b pipe' hb hpipe' hwriting' := by
    rw [hhistory] at hb
    have hlt := hpipes.madeFresh b hb
    rw [hpipes', Function.update_of_ne hlt.ne] at hpipe'
    rw [hhandles]
    exact hpipes.madeWriter b pipe' hb hpipe' hwriting'
  madeFresh b hb := by
    rw [hhistory] at hb
    exact (hpipes.madeFresh b hb).trans hheap
  madeFreed b hb hnone := by
    rw [hhistory] at hb
    have hlt := hpipes.madeFresh b hb
    rw [hpipes', Function.update_of_ne hlt.ne] at hnone
    rw [freedPipes, hhistory]
    exact hpipes.madeFreed b hb hnone
  freedOnce := by
    rw [freedPipes, hhistory]
    exact hpipes.freedOnce
  freedGone b hb := by
    rw [freedPipes, hhistory] at hb
    obtain ⟨hnone, hlt⟩ := hpipes.freedGone b hb
    rw [hpipes', Function.update_of_ne hlt.ne]
    exact ⟨hnone, hlt.trans hheap⟩

/-- `new_pipe`. -/
theorem newPipe_spec {v : View} {c : Core} (hinv : Inv v c) :
    Ensures Harmless c.newPipe fun result =>
      Inv v result.1 ∧ Quiet c result.1 ∧
        (∃ pipe, result.1.pipes result.2 = some pipe ∧ pipe.reading = true ∧
          pipe.writing = true) ∧
        (∀ fh handle, result.1.handles fh = some handle →
          handle.kind ≠ .pipeReader result.2 ∧ handle.kind ≠ .pipeWriter result.2) ∧
        result.1.inputPipe ≠ some result.2 ∧ result.2 < result.1.heap := by
  rw [newPipe]
  apply ensures_bind (kmalloc_spec c 24)
  rintro _ rfl
  apply ensures_bind (kmalloc_spec _ bufsize)
  rintro _ rfl
  simp only [pure_eq_ok, ensures_ok]
  have hfresh := hinv.pipes.fresh c.heap le_rfl
  have hnobody : ∀ pid, v.wait pid ≠ .reading c.heap := by
    intro pid hwait
    obtain ⟨-, pipe, hpipe, -⟩ := hinv.waits.reading pid c.heap hwait
    simp [hfresh] at hpipe
  have hquiet : ∀ value,
      Quiet c (({ c with heap := c.heap + 1 + 1 } : Core).setPipe c.heap value) :=
    fun value => ⟨fun _ => rfl, rfl, rfl, Nat.le_add_right _ 2, rfl, rfl⟩
  have hgrown : Waits v { c with heap := c.heap + 1 + 1 } := hinv.waits.congr rfl rfl rfl
  refine ⟨hinv.quiet (hquiet _) (hinv.linked.congr (fun _ => rfl) (fun _ => rfl) rfl)
    (hgrown.setPipe hnobody (by rintro _ ⟨⟩; rfl))
    (hinv.handles.addPipe hfresh (Nat.le_add_right _ 2) rfl rfl)
    (hinv.pipes.addPipe ?_ (Nat.lt_succ_of_lt (Nat.lt_succ_self _)) rfl rfl rfl rfl)
    ⟨hinv.references.linear, hinv.references.outstanding⟩, hquiet _, ?_, ?_, ?_, ?_⟩
  · rfl
  · exact ⟨_, Function.update_self _ _ _, rfl, rfl⟩
  · intro fh handle hfh
    refine ⟨?_, ?_⟩
    · intro hkind
      obtain ⟨pipe, hpipe, -⟩ := hinv.handles.reader fh handle c.heap hfh hkind
      simp [hfresh] at hpipe
    · intro hkind
      obtain ⟨pipe, hpipe, -⟩ := hinv.handles.writer fh handle c.heap hfh hkind
      simp [hfresh] at hpipe
  · intro hinput
    obtain ⟨⟨pipe, hpipe, -⟩, -⟩ := hinv.pipes.input c.heap hinput
    simp [hfresh] at hpipe
  · simp

/-- `syscall_pipe` made a pipe both of whose ends have a handle. -/
theorem Inv.recordMade {v : View} {c : Core} (hinv : Inv v c) {b : Block} {pipe : PipeBuffer}
    (hpipe : c.pipes b = some pipe) (hlt : b < c.heap)
    (hreader : ∃ fh handle, c.handles fh = some handle ∧ handle.kind = .pipeReader b)
    (hwriter : ∃ fh handle, c.handles fh = some handle ∧ handle.kind = .pipeWriter b) :
    Inv v (c.record (.pipeMade b)) ∧ Quiet c (c.record (.pipeMade b)) := by
  have hquiet : Quiet c (c.record (.pipeMade b)) :=
    ⟨fun _ => rfl, rfl, rfl, le_rfl, rfl, rfl⟩
  have hmade : ∀ b', .pipeMade b' ∈ (c.record (.pipeMade b)).history ↔
      b' = b ∨ .pipeMade b' ∈ c.history := by
    intro b'
    simp
  refine ⟨hinv.quiet hquiet (hinv.linked.congr (fun _ => rfl) (fun _ => rfl) rfl)
    (hinv.waits.congr rfl rfl rfl)
    ⟨hinv.handles.fresh, hinv.handles.resolved, hinv.handles.counted, hinv.handles.reader,
      hinv.handles.writer, hinv.handles.readerUnique, hinv.handles.writerUnique⟩
    ⟨hinv.pipes.fresh, hinv.pipes.opened, hinv.pipes.input, ?_, ?_, ?_, ?_,
      hinv.pipes.freedOnce, hinv.pipes.freedGone⟩
    ⟨hinv.references.linear, hinv.references.outstanding⟩, hquiet⟩
  · intro b' pipe' hb hpipe' hreading
    rcases (hmade b').mp hb with rfl | hb
    · exact hreader
    · exact hinv.pipes.madeReader b' pipe' hb hpipe' hreading
  · intro b' pipe' hb hpipe' hwriting
    rcases (hmade b').mp hb with rfl | hb
    · exact hwriter
    · exact hinv.pipes.madeWriter b' pipe' hb hpipe' hwriting
  · intro b' hb
    rcases (hmade b').mp hb with rfl | hb
    · exact hlt
    · exact hinv.pipes.madeFresh b' hb
  · intro b' hb hnone
    rcases (hmade b').mp hb with rfl | hb
    · cases hpipe.symm.trans hnone
    · exact hinv.pipes.madeFreed b' hb hnone

end Core

end Rhythmos.Kernel
