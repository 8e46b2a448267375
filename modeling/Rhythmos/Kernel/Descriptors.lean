import Rhythmos.Kernel.Transfer

/-!
# References to file handles

Opening, duplicating and closing descriptors.  Every change of a descriptor
changes the reference count of one handle by one; the handle is destroyed with
its last reference, and the end of the pipe behind it is closed.
-/

namespace Rhythmos.Kernel

open Fallible Ledger RefCount ByteMemory Libc

/-- The references after a descriptor gave up its own. -/
def View.drop (v : View) (slot : Slot) : Slot → Option Block := Function.update v.table slot none

theorem View.references_drop {v : View} {slot : Slot} {fh : Block}
    (hslot : v.table slot = some fh) (other : Block) :
    references (v.drop slot) other + (if other = fh then 1 else 0) =
      references v.table other := by
  have hupdate := references_update v.table slot none other
  rw [hslot] at hupdate
  simp only [Option.some.injEq, reduceCtorEq, if_false, Nat.add_zero] at hupdate
  rw [← hupdate, View.drop]
  simp only [eq_comm]

/-- A process that sleeps keeps its descriptors when another one closes one of its own. -/
theorem View.drop_asleep {v : View} {slot : Slot} (hawake : v.wait slot.1 = .awake) {pid : Pid}
    {fd : Fd} (hasleep : v.wait pid ≠ .awake) : v.drop slot (pid, fd) = v.table (pid, fd) := by
  have hne : (pid, fd) ≠ slot := by
    rintro rfl
    exact hasleep hawake
  exact Function.update_of_ne hne _ _

/-- After the last reference is gone no descriptor refers to the handle. -/
theorem View.drop_ne {v : View} {slot : Slot} {fh : Block} (hslot : v.table slot = some fh)
    (hlast : references v.table fh = 1) (other : Slot) : v.drop slot other ≠ some fh := by
  have hcount := references_drop hslot fh
  rw [hlast, if_pos rfl] at hcount
  exact references_eq_zero_iff.mp (by omega) other

/-- How destroying a handle of the given kind changes the pipes: it closes one
end of the pipe behind it, and the pipes in `freed` are released. -/
structure ClosesEnd (kind : HandleKind) (pipes pipes' : Block → Option PipeBuffer)
    (freed : List Block) : Prop where
  kept : ∀ b new, pipes' b = some new → ∃ pipe, pipes b = some pipe ∧
    (new.reading = true ↔ pipe.reading = true ∧ kind ≠ .pipeReader b) ∧
    (new.writing = true ↔ pipe.writing = true ∧ kind ≠ .pipeWriter b) ∧
    (new.reading = true ∨ new.writing = true)
  gone : ∀ b pipe, pipes b = some pipe → pipes' b = none → b ∈ freed ∧
    (pipe.reading = true → kind = .pipeReader b) ∧ (pipe.writing = true → kind = .pipeWriter b)
  nodup : freed.Nodup
  freed : ∀ b, b ∈ freed → (∃ pipe, pipes b = some pipe) ∧ pipes' b = none

/-- Handles that do not refer to a pipe. -/
theorem ClosesEnd.plain {kind : HandleKind} {pipes : Block → Option PipeBuffer}
    (hopened : ∀ b pipe, pipes b = some pipe → pipe.reading = true ∨ pipe.writing = true)
    (hkind : ∀ b, kind ≠ .pipeReader b ∧ kind ≠ .pipeWriter b) :
    ClosesEnd kind pipes pipes [] where
  kept b pipe hpipe := ⟨pipe, hpipe, by simp [(hkind b).1], by simp [(hkind b).2],
    hopened b pipe hpipe⟩
  gone b pipe hpipe hnone := by simp [hpipe] at hnone
  nodup := List.nodup_nil
  freed := by simp

/-- What is left of a pipe: nothing once both ends are closed. -/
def PipeBuffer.remains (pipe : PipeBuffer) : Option PipeBuffer :=
  if pipe.reading = false ∧ pipe.writing = false then none else some pipe

/-- The event of releasing a pipe whose ends are both closed. -/
def PipeBuffer.release (pipe : PipeBuffer) (b : Block) : List Happening :=
  if pipe.reading = false ∧ pipe.writing = false then [.pipeFreed b] else []

theorem ClosesEnd.pipe {kind : HandleKind} {pipes : Block → Option PipeBuffer} {b : Block}
    {pipe new : PipeBuffer} (hpipe : pipes b = some pipe)
    (hopened : ∀ b pipe, pipes b = some pipe → pipe.reading = true ∨ pipe.writing = true)
    (hreading : new.reading = true ↔ pipe.reading = true ∧ kind ≠ .pipeReader b)
    (hwriting : new.writing = true ↔ pipe.writing = true ∧ kind ≠ .pipeWriter b)
    (hkind : ∀ b', b' ≠ b → kind ≠ .pipeReader b' ∧ kind ≠ .pipeWriter b') :
    ClosesEnd kind pipes (Function.update pipes b new.remains)
      ((new.release b).filterMap Happening.freed) where
  kept b' pipe' hpipe' := by
    have hopened' := hopened b' pipe'
    have hkind' := hkind b'
    simp only [Function.update_apply, PipeBuffer.remains] at hpipe'
    grind
  gone b' pipe' hpipe' hnone := by
    have hkind' := hkind b'
    simp only [Function.update_apply, PipeBuffer.remains] at hnone
    simp only [PipeBuffer.release]
    by_cases hb : b' = b
    · subst hb
      by_cases hclosed : new.reading = false ∧ new.writing = false
      · rw [if_pos hclosed]
        refine ⟨by simp [Happening.freed], ?_⟩
        grind
      · simp [hclosed] at hnone
    · simp [hb, hpipe'] at hnone
  nodup := by
    rw [PipeBuffer.release]
    split <;> simp [Happening.freed]
  freed b' hb := by
    rw [PipeBuffer.release] at hb
    split at hb
    next hclosed =>
      have hsame : b' = b := by simpa [Happening.freed] using hb
      subst hsame
      exact ⟨⟨pipe, hpipe⟩, by simp [PipeBuffer.remains, hclosed]⟩
    next => simp at hb

namespace Core

/-- The history of references after closing a descriptor. -/
theorem References.drop {v : View} {c c' : Core} (hreferences : References v c) {slot : Slot}
    {fh : Block} (hslot : v.table slot = some fh)
    (hledger : c'.slotLedger = .returned slot :: c.slotLedger) (wait : Pid → Wait) :
    References { v with table := v.drop slot, wait := wait } c' where
  linear := by
    rw [hledger, linear_returned]
    exact ⟨(hreferences.outstanding slot).mpr ⟨fh, hslot⟩, hreferences.linear⟩
  outstanding other := by
    have houtstanding := hreferences.outstanding other
    rw [hledger, outstanding_returned, houtstanding, View.drop]
    by_cases hother : other = slot
    · subst hother
      simp
    · simp [hother]

section Destroy

variable {v : View} {c c' : Core} {slot : Slot} {fh : Block} {handle : FileHandle}
  {freed : List Block}

/-- Dropping the last reference destroys the handle. -/
theorem Handles.destroy (hhandles : Handles v c) (hslot : v.table slot = some fh)
    (hfh : c.handles fh = some handle) (hlast : references v.table fh = 1)
    (hcloses : ClosesEnd handle.kind c.pipes c'.pipes freed)
    (hdestroyed : c'.handles = Function.update c.handles fh none) (hheap : c'.heap = c.heap)
    (wait : Pid → Wait) : Handles { v with table := v.drop slot, wait := wait } c' where
  fresh other hother := by
    have hfresh := hhandles.fresh other (hheap ▸ hother)
    rw [hdestroyed, Function.update_apply]
    grind
  resolved other fh' hother := by
    have hne := View.drop_ne hslot hlast other
    have hresolved := hhandles.resolved other fh'
    simp only [hdestroyed, View.drop, Function.update_apply] at hother hne ⊢
    grind
  counted fh' handle' hfh' := by
    have hcounted := hhandles.counted fh' handle'
    have hcount := View.references_drop hslot fh'
    simp only [hdestroyed, Function.update_apply] at hfh' ⊢
    grind
  reader fh' handle' b hfh' hkind := by
    have hreader := hhandles.reader fh' handle' b
    have hunique := hhandles.readerUnique fh' handle' fh handle b
    have hgone := hcloses.gone b
    have hkept := hcloses.kept b
    simp only [hdestroyed, Function.update_apply] at hfh'
    cases hpipe : c'.pipes b with
    | none => grind
    | some new => grind
  writer fh' handle' b hfh' hkind := by
    have hwriter := hhandles.writer fh' handle' b
    have hunique := hhandles.writerUnique fh' handle' fh handle b
    have hgone := hcloses.gone b
    have hkept := hcloses.kept b
    simp only [hdestroyed, Function.update_apply] at hfh'
    cases hpipe : c'.pipes b with
    | none => grind
    | some new => grind
  readerUnique fh₁ handle₁ fh₂ handle₂ b h₁ hkind₁ h₂ hkind₂ := by
    have hunique := hhandles.readerUnique fh₁ handle₁ fh₂ handle₂ b
    simp only [hdestroyed, Function.update_apply] at h₁ h₂
    grind
  writerUnique fh₁ handle₁ fh₂ handle₂ b h₁ hkind₁ h₂ hkind₂ := by
    have hunique := hhandles.writerUnique fh₁ handle₁ fh₂ handle₂ b
    simp only [hdestroyed, Function.update_apply] at h₁ h₂
    grind

theorem Pipes.destroy (hpipes : Pipes c) (hfh : c.handles fh = some handle)
    (hcloses : ClosesEnd handle.kind c.pipes c'.pipes freed)
    (hdestroyed : c'.handles = Function.update c.handles fh none) (hheap : c'.heap = c.heap)
    (hinput : c'.inputPipe = c.inputPipe) (hfreed : c'.freedPipes = freed ++ c.freedPipes)
    (hmade : ∀ b, .pipeMade b ∈ c'.history ↔ .pipeMade b ∈ c.history) : Pipes c' where
  fresh b hb := by
    have hfresh := hpipes.fresh b (hheap ▸ hb)
    have hkept := hcloses.kept b
    cases hpipe : c'.pipes b with
    | none => rfl
    | some new => grind
  opened b pipe hpipe := by
    obtain ⟨old, -, -, -, hopen⟩ := hcloses.kept b pipe hpipe
    exact hopen
  input b hb := by
    obtain ⟨⟨pipe, hpipe, hwriting⟩, hnone⟩ := hpipes.input b (hinput ▸ hb)
    have hkind := hnone fh handle hfh
    have hgone := hcloses.gone b
    have hkept := hcloses.kept b
    refine ⟨?_, ?_⟩
    · cases hcase : c'.pipes b with
      | none => grind
      | some new => grind
    · intro fh' handle' hfh'
      simp only [hdestroyed, Function.update_apply] at hfh'
      grind
  madeReader b pipe hb hpipe hreading := by
    obtain ⟨old, hold, hflag, -⟩ := hcloses.kept b pipe hpipe
    obtain ⟨fh', handle', hfh', hkind⟩ :=
      hpipes.madeReader b old ((hmade b).mp hb) hold (hflag.mp hreading).1
    refine ⟨fh', handle', ?_, hkind⟩
    rw [hdestroyed, Function.update_apply]
    grind
  madeWriter b pipe hb hpipe hwriting := by
    obtain ⟨old, hold, -, hflag, -⟩ := hcloses.kept b pipe hpipe
    obtain ⟨fh', handle', hfh', hkind⟩ :=
      hpipes.madeWriter b old ((hmade b).mp hb) hold (hflag.mp hwriting).1
    refine ⟨fh', handle', ?_, hkind⟩
    rw [hdestroyed, Function.update_apply]
    grind
  madeFresh b hb := by
    rw [hheap]
    exact hpipes.madeFresh b ((hmade b).mp hb)
  madeFreed b hb hnone := by
    rw [hfreed, List.mem_append]
    cases hpipe : c.pipes b with
    | none => exact .inr (hpipes.madeFreed b ((hmade b).mp hb) hpipe)
    | some pipe => exact .inl (hcloses.gone b pipe hpipe hnone).1
  freedOnce := by
    rw [hfreed, List.nodup_append]
    refine ⟨hcloses.nodup, hpipes.freedOnce, ?_⟩
    rintro b hb _ hb' rfl
    obtain ⟨⟨pipe, hpipe⟩, -⟩ := hcloses.freed b hb
    simp [(hpipes.freedGone b hb').1] at hpipe
  freedGone b hb := by
    rw [hfreed, List.mem_append] at hb
    rw [hheap]
    rcases hb with hb | hb
    · obtain ⟨⟨pipe, hpipe⟩, hnone⟩ := hcloses.freed b hb
      refine ⟨hnone, ?_⟩
      by_contra hge
      have hnone' := hpipes.fresh b (not_lt.mp hge)
      simp [hnone'] at hpipe
    · obtain ⟨hnone, hlt⟩ := hpipes.freedGone b hb
      refine ⟨?_, hlt⟩
      have hkept := hcloses.kept b
      cases hpipe : c'.pipes b with
      | none => rfl
      | some new => grind

/-- The state after a handle was destroyed: `sleeper` was woken up and the pipes
are now `pipes`. -/
def destroyed (c : Core) (sleeper : Option Pid) (fh : Block) (pipes : Block → Option PipeBuffer)
    (events : List Happening) : Core :=
  { c.rouse sleeper with
    handles := Function.update c.handles fh none
    pipes := pipes
    history := events ++ c.history }

/-- The events of closing a descriptor whose handle is destroyed. -/
structure ClosingEvents (slot : Slot) (freed : List Block) (events : List Happening) : Prop where
  slots : events.filterMap Happening.onSlot = [.returned slot]
  loud : events.filter Happening.isLoud = []
  freed : events.filterMap Happening.freed = freed
  made : ∀ b, .pipeMade b ∉ events

/-- The events of destroying one end of a pipe. -/
theorem ClosingEvents.pipe (slot : Slot) (pipe : PipeBuffer) (b : Block) {events : List Happening}
    (hevents : events = [] ∨ events = [.writerClosed b]) :
    ClosingEvents slot ((pipe.release b).filterMap Happening.freed)
      (.closed slot :: (pipe.release b ++ events)) := by
  rw [PipeBuffer.release]
  rcases hevents with rfl | rfl <;> split <;>
    exact ⟨rfl, rfl, rfl, by simp⟩

theorem Quiet.destroyed (c : Core) (sleeper : Option Pid) (fh : Block)
    (pipes : Block → Option PipeBuffer) {events : List Happening}
    (hevents : ClosingEvents slot freed events) :
    Quiet c (c.destroyed sleeper fh pipes events) where
  still := (Quiet.rouse c sleeper).still
  current := rfl
  inputPipe := rfl
  heap := le_rfl
  mailboxes := rfl
  loud := by simp [Core.loud, Core.destroyed, hevents.loud]

/-- The invariant after the last reference to a handle was given up. -/
theorem Inv.destroy (freed : List Block) (hinv : Inv v c) {sleeper : Option Pid}
    {pipes : Block → Option PipeBuffer} {events : List Happening}
    (hslot : v.table slot = some fh) (hfh : c.handles fh = some handle)
    (hlast : RefCount.references v.table fh = 1)
    (hlinked : Linked { v with wait := v.rouse sleeper }.place c')
    (hsame : c'.unlinked = (c.destroyed sleeper fh pipes events).unlinked)
    (hcloses : ClosesEnd handle.kind c.pipes pipes freed)
    (hevents : ClosingEvents slot freed events)
    (hwaits : Waits { v with table := v.drop slot, wait := v.rouse sleeper }
      (c.destroyed sleeper fh pipes events)) :
    Inv { v with table := v.drop slot, wait := v.rouse sleeper } c' ∧ Quiet c c' := by
  have hmade : ∀ b, .pipeMade b ∈ (c.destroyed sleeper fh pipes events).history ↔
      .pipeMade b ∈ c.history := by
    intro b
    simp [destroyed, hevents.made b]
  have hquiet := Quiet.destroyed c sleeper fh pipes hevents
  have hhandles : Handles { v with table := v.drop slot, wait := v.rouse sleeper }
      (c.destroyed sleeper fh pipes events) := by
    refine hinv.handles.destroy hslot hfh hlast hcloses ?_ ?_ _ <;> rfl
  have hpipes : Pipes (c.destroyed sleeper fh pipes events) := by
    refine hinv.pipes.destroy hfh hcloses rfl rfl rfl ?_ hmade
    simp [freedPipes, destroyed, hevents.freed]
  have hreferences : References { v with table := v.drop slot, wait := v.rouse sleeper }
      (c.destroyed sleeper fh pipes events) := by
    refine hinv.references.drop hslot ?_ _
    simp [slotLedger, destroyed, hevents.slots]
  exact ⟨Inv.of_unlinked hlinked hsame (hinv.slots.quiet hquiet _ _) hwaits hhandles hpipes
    hreferences (hinv.mail.quiet hquiet _ _) (hinv.pending.quiet hquiet _ _)
    (hinv.chosen.quiet hquiet) (hinv.lifecycle.quiet hquiet), hquiet.of_unlinked hsame⟩

/-- Processes asleep do not use the descriptor or the handle that goes away. -/
theorem Waits.destroy (hwaits : Waits v c) (hslot : v.table slot = some fh)
    (hlast : references v.table fh = 1) (hawake : v.wait slot.1 = .awake)
    (hprocesses : c'.processes = c.processes) (hpipes : c'.pipes = c.pipes)
    (hdestroyed : c'.handles = Function.update c.handles fh none) :
    Waits { v with table := v.drop slot } c' := by
  have htable : Waits { v with table := v.drop slot }
      { c with handles := Function.update c.handles fh none } := by
    apply hwaits.retable
    · intro pid fd hasleep
      exact View.drop_asleep hawake hasleep
    · intro other fh' handle' hother hfh'
      have hne : fh' ≠ fh := by
        rintro rfl
        exact View.drop_ne hslot hlast other hother
      exact ⟨handle', by rw [Function.update_of_ne hne]; exact hfh', rfl⟩
  exact htable.congr hprocesses hpipes hdestroyed

end Destroy

/-- `check_buffer_free` on a pipe that nobody waits for. -/
theorem checkBufferFree_eq {c : Core} {b : Block} {pipe : PipeBuffer}
    (hpipe : c.pipes b = some pipe) (hnone : pipe.readpid = none) :
    c.checkBufferFree b = .ok { c with
      pipes := Function.update c.pipes b pipe.remains
      history := pipe.release b ++ c.history } := by
  have hself : Function.update c.pipes b (some pipe) = c.pipes := by
    rw [← hpipe, Function.update_eq_self]
  rw [checkBufferFree, Core.pipe, hpipe]
  cases hreading : pipe.reading <;> cases hwriting : pipe.writing <;>
    simp [check, hnone, hreading, hwriting, PipeBuffer.remains, PipeBuffer.release, hself, setPipe,
      record]

/-! ## Changing a reference count -/

section Recount

variable {v : View} {c c' : Core} {fh : Block} {handle new : FileHandle}

/-- A handle changes its reference count with the descriptors that refer to it. -/
theorem Handles.recount (hhandles : Handles v c) (hfh : c.handles fh = some handle)
    (hkind : new.kind = handle.kind) {table : Slot → Option Block}
    (hcount : new.refcount = references table fh ∧ 1 ≤ new.refcount)
    (hothers : ∀ other, other ≠ fh → references table other = references v.table other)
    (hhandles' : c'.handles = Function.update c.handles fh (some new))
    (hpipes : c'.pipes = c.pipes) (hheap : c'.heap = c.heap) :
    Handles { v with table := table } c' where
  fresh other hother := by
    have hfresh := hhandles.fresh other (hheap ▸ hother)
    rw [hhandles', Function.update_apply]
    grind
  resolved slot other hslot := by
    have hpos := references_pos hslot
    rw [hhandles', Function.update_apply]
    by_cases hother : other = fh
    · exact ⟨new, by rw [if_pos hother]⟩
    · rw [hothers other hother] at hpos
      obtain ⟨slot', hslot'⟩ := exists_slot_of_references_pos hpos
      rw [if_neg hother]
      exact hhandles.resolved slot' other hslot'
  counted other handle' hother := by
    have hcounted := hhandles.counted other handle'
    have hothers' := hothers other
    rw [hhandles', Function.update_apply] at hother
    grind
  reader other handle' b hother hkind' := by
    have hreader := hhandles.reader other handle' b
    have hreader' := hhandles.reader fh handle b hfh
    rw [hhandles', Function.update_apply] at hother
    rw [hpipes]
    grind
  writer other handle' b hother hkind' := by
    have hwriter := hhandles.writer other handle' b
    have hwriter' := hhandles.writer fh handle b hfh
    rw [hhandles', Function.update_apply] at hother
    rw [hpipes]
    grind
  readerUnique fh₁ handle₁ fh₂ handle₂ b h₁ hkind₁ h₂ hkind₂ := by
    have hunique := hhandles.readerUnique fh₁ handle₁ fh₂ handle₂ b
    have hleft := hhandles.readerUnique fh handle fh₂ handle₂ b hfh
    have hright := hhandles.readerUnique fh₁ handle₁ fh handle b
    rw [hhandles', Function.update_apply] at h₁ h₂
    grind
  writerUnique fh₁ handle₁ fh₂ handle₂ b h₁ hkind₁ h₂ hkind₂ := by
    have hunique := hhandles.writerUnique fh₁ handle₁ fh₂ handle₂ b
    have hleft := hhandles.writerUnique fh handle fh₂ handle₂ b hfh
    have hright := hhandles.writerUnique fh₁ handle₁ fh handle b
    rw [hhandles', Function.update_apply] at h₁ h₂
    grind

theorem Pipes.recount (hpipes : Pipes c) (hfh : c.handles fh = some handle)
    (hkind : new.kind = handle.kind)
    (hhandles' : c'.handles = Function.update c.handles fh (some new))
    (hpipes' : c'.pipes = c.pipes) (hheap : c'.heap = c.heap) (hinput : c'.inputPipe = c.inputPipe)
    (hfreed : c'.freedPipes = c.freedPipes)
    (hmade : ∀ b, .pipeMade b ∈ c'.history ↔ .pipeMade b ∈ c.history) : Pipes c' where
  fresh := by
    rw [hpipes', hheap]
    exact hpipes.fresh
  opened := by
    rw [hpipes']
    exact hpipes.opened
  input b hb := by
    rw [hinput] at hb
    obtain ⟨hpipe, hnone⟩ := hpipes.input b hb
    have hnone' := hnone fh handle hfh
    rw [hpipes', hhandles']
    refine ⟨hpipe, ?_⟩
    intro other handle' hother
    have hnone'' := hnone other handle'
    rw [Function.update_apply] at hother
    grind
  madeReader b pipe hb hpipe hreading := by
    rw [hpipes'] at hpipe
    obtain ⟨other, handle', hother, hreader⟩ :=
      hpipes.madeReader b pipe ((hmade b).mp hb) hpipe hreading
    by_cases hsame : other = fh
    · subst hsame
      exact ⟨other, new, by simp [hhandles'], by grind⟩
    · exact ⟨other, handle', by simpa [hhandles', hsame] using hother, hreader⟩
  madeWriter b pipe hb hpipe hwriting := by
    rw [hpipes'] at hpipe
    obtain ⟨other, handle', hother, hwriter⟩ :=
      hpipes.madeWriter b pipe ((hmade b).mp hb) hpipe hwriting
    by_cases hsame : other = fh
    · subst hsame
      exact ⟨other, new, by simp [hhandles'], by grind⟩
    · exact ⟨other, handle', by simpa [hhandles', hsame] using hother, hwriter⟩
  madeFresh b hb := by
    rw [hheap]
    exact hpipes.madeFresh b ((hmade b).mp hb)
  madeFreed b hb hnone := by
    rw [hpipes'] at hnone
    rw [hfreed]
    exact hpipes.madeFreed b ((hmade b).mp hb) hnone
  freedOnce := by
    rw [hfreed]
    exact hpipes.freedOnce
  freedGone := by
    rw [hfreed, hpipes', hheap]
    exact hpipes.freedGone

end Recount

section Close

variable {v : View} {c : Core} {slot : Slot} {fh b : Block} {handle : FileHandle}
  {pipe : PipeBuffer}

/-- The end of `pipe_writer_destroy` and `pipe_reader_destroy`, with the record of
the closed descriptor: `pipe` has become `new`, and `sleeper` was woken up. -/
theorem closeEnd_spec (value : Option FileHandle) (hinv : Inv v c) (hslot : v.table slot = some fh)
    (hawake : v.wait slot.1 = .awake) (hfh : c.handles fh = some handle)
    (hlast : references v.table fh = 1) {c₁ : Core} {sleeper : Option Pid} {new : PipeBuffer}
    {events : List Happening}
    (hlinked : Linked { v with wait := v.rouse sleeper }.place c₁)
    (hsame : c₁.unlinked = { c.rouse sleeper with
      handles := Function.update c.handles fh value
      pipes := Function.update c.pipes b (some new)
      history := events ++ c.history }.unlinked) (hnone : new.readpid = none)
    (hcloses : ClosesEnd handle.kind c.pipes (Function.update c.pipes b new.remains)
      ((new.release b).filterMap Happening.freed))
    (hevents : ClosingEvents slot ((new.release b).filterMap Happening.freed)
      (.closed slot :: (new.release b ++ events)))
    (hroused : Waits { v with wait := v.rouse sleeper }
      ((c.rouse sleeper).setPipe b (some new))) :
    Ensures Harmless (c₁.checkBufferFree b >>= fun c => pure (c.setHandle fh none)) fun c' =>
      ∃ sleeper, Inv { v with table := v.drop slot, wait := v.rouse sleeper }
        (c'.record (.closed slot)) ∧ Quiet c (c'.record (.closed slot)) := by
  have hpipe : c₁.pipes b = some new := by
    have hpipes := congrArg (fun core => core.pipes b) hsame
    simpa [unlinked] using hpipes
  rw [checkBufferFree_eq hpipe hnone, ok_bind, pure_eq_ok, ensures_ok]
  have hfinal : ((({ c₁ with
      pipes := Function.update c₁.pipes b new.remains
      history := new.release b ++ c₁.history } : Core).setHandle fh none).record
        (.closed slot)).unlinked =
      (c.destroyed sleeper fh (Function.update c.pipes b new.remains)
        (.closed slot :: (new.release b ++ events))).unlinked := by
    have hlift := congrArg (fun core => (({ core with
      pipes := Function.update core.pipes b new.remains
      history := new.release b ++ core.history } : Core).setHandle fh none).record
        (.closed slot)) hsame
    refine Eq.trans hlift ?_
    simp [unlinked, destroyed, setHandle, record, rouse]
  have hnobody : ∀ pid, v.rouse sleeper pid ≠ .reading b := by
    intro pid hwait
    have hregistered := (hroused.registered b new pid (by simp)).mpr hwait
    simp [hnone] at hregistered
  have hremains : Waits { v with wait := v.rouse sleeper }
      (((c.rouse sleeper).setPipe b (some new)).setPipe b new.remains) := by
    refine hroused.setPipe hnobody ?_
    intro pipe hpipe
    rw [PipeBuffer.remains] at hpipe
    grind
  refine ⟨sleeper, hinv.destroy _ hslot hfh hlast
    (hlinked.congr (fun _ => rfl) (fun _ => rfl) rfl) hfinal hcloses hevents ?_⟩
  refine hremains.destroy hslot hlast (View.rouse_awake hawake _) rfl ?_ rfl
  simp only [destroyed, setPipe, Function.update_idem]
  rfl

/-- Destroying the writer of a pipe. -/
theorem pipeWriterDestroy_spec (hinv : Inv v c) (hslot : v.table slot = some fh)
    (hawake : v.wait slot.1 = .awake) (hfh : c.handles fh = some handle)
    (hkind : handle.kind = .pipeWriter b) (hlast : references v.table fh = 1)
    (value : Option FileHandle) :
    Ensures Harmless ((c.setHandle fh value).pipeWriterDestroy fh b) fun c' =>
      ∃ sleeper, Inv { v with table := v.drop slot, wait := v.rouse sleeper }
        (c'.record (.closed slot)) ∧ Quiet c (c'.record (.closed slot)) := by
  obtain ⟨pipe, hpipe, hwriting⟩ := hinv.handles.writer fh handle b hfh hkind
  rw [pipeWriterDestroy, Core.pipe]
  simp only [setHandle_pipes, hpipe, ok_bind, check, hwriting, if_true]
  have hlinked : Linked v.place (((c.setHandle fh value).setPipe b
      (some { pipe with writing := false })).record (.writerClosed b)) :=
    hinv.linked.congr (fun _ => rfl) (fun _ => rfl) rfl
  have hclosed : (((c.setHandle fh value).setPipe b
      (some { pipe with writing := false })).record (.writerClosed b)).pipes b =
      some { pipe with writing := false } := by simp
  obtain ⟨c₁, hrun, hlinked₁, hsame⟩ := wakeUpReader_spec hlinked hclosed fun pid hread =>
    Inv.reader_asleep hinv.slots hinv.waits hpipe hread
  simp only at hlinked₁ hsame
  rw [hrun, ok_bind]
  have hroused : Waits { v with wait := v.rouse pipe.readpid } ((c.rouse pipe.readpid).setPipe b
      (some { pipe with writing := false, readpid := none })) := hinv.waits.rouseReader hpipe rfl
  refine closeEnd_spec value hinv hslot hawake hfh hlast hlinked₁ (hsame.trans ?_) rfl ?_
    (ClosingEvents.pipe slot _ b (.inr rfl)) hroused
  · simp [unlinked, setHandle, setPipe, record, rouse]
  · rw [hkind]
    refine ClosesEnd.pipe hpipe hinv.pipes.opened (by simp) (by simp) ?_
    intro b' hb
    simp [Ne.symm hb]

/-- Destroying the reader of a pipe. -/
theorem pipeReaderDestroy_spec (hinv : Inv v c) (hslot : v.table slot = some fh)
    (hawake : v.wait slot.1 = .awake) (hfh : c.handles fh = some handle)
    (hkind : handle.kind = .pipeReader b) (hlast : references v.table fh = 1)
    (value : Option FileHandle) :
    Ensures Harmless ((c.setHandle fh value).pipeReaderDestroy fh b) fun c' =>
      ∃ sleeper, Inv { v with table := v.drop slot, wait := v.rouse sleeper }
        (c'.record (.closed slot)) ∧ Quiet c (c'.record (.closed slot)) := by
  obtain ⟨pipe, hpipe, hreading⟩ := hinv.handles.reader fh handle b hfh hkind
  -- a process waiting for data would hold another reference to the only reader
  have hnobody : ∀ pid, v.wait pid ≠ .reading b := by
    intro pid hwait
    obtain ⟨⟨-, fd, fh', handle', -, hfd, hfh', hkind'⟩, -⟩ := hinv.waits.reading pid b hwait
    have hsame := hinv.handles.readerUnique fh handle fh' handle' b hfh hkind hfh' hkind'
    subst hsame
    have hne : (pid, fd) ≠ slot := by
      rintro rfl
      simp [hawake] at hwait
    apply View.drop_ne hslot hlast (pid, fd)
    rw [View.drop, Function.update_of_ne hne, hfd]
  have hnone : pipe.readpid = none := by
    cases hcase : pipe.readpid with
    | none => rfl
    | some pid => exact absurd ((hinv.waits.registered b pipe pid hpipe).mp hcase) (hnobody pid)
  rw [pipeReaderDestroy, Core.pipe]
  simp only [setHandle_pipes, hpipe, ok_bind, check, hreading, if_true]
  have hlinked : Linked { v with wait := v.rouse none }.place
      ((c.setHandle fh value).setPipe b (some { pipe with reading := false })) := by
    rw [View.rouse_none]
    exact hinv.linked.congr (fun _ => rfl) (fun _ => rfl) rfl
  have hnone' : ({ pipe with reading := false } : PipeBuffer).readpid = none := hnone
  have hroused : Waits { v with wait := v.rouse none } ((c.rouse none).setPipe b
      (some { pipe with reading := false })) := by
    rw [View.rouse_none, rouse_none]
    refine hinv.waits.setPipe hnobody ?_
    rintro _ ⟨⟩
    exact hnone
  refine closeEnd_spec value hinv hslot hawake hfh hlast hlinked ?_ hnone' ?_
    (ClosingEvents.pipe slot _ b (.inl rfl)) hroused
  · simp [unlinked, setHandle, setPipe, rouse]
  · rw [hkind]
    refine ClosesEnd.pipe hpipe hinv.pipes.opened (by simp) (by simp) ?_
    intro b' hb
    simp [Ne.symm hb]

/-- Destroying a handle that does not refer to a pipe. -/
theorem plainDestroy_spec (hinv : Inv v c) (hslot : v.table slot = some fh)
    (hawake : v.wait slot.1 = .awake) (hfh : c.handles fh = some handle)
    (hkind : ∀ b, handle.kind ≠ .pipeReader b ∧ handle.kind ≠ .pipeWriter b)
    (hlast : references v.table fh = 1) (value : Option FileHandle) :
    ∃ sleeper, Inv { v with table := v.drop slot, wait := v.rouse sleeper }
        (((c.setHandle fh value).setHandle fh none).record (.closed slot)) ∧
      Quiet c (((c.setHandle fh value).setHandle fh none).record (.closed slot)) := by
  have hfinal : (((c.setHandle fh value).setHandle fh none).record (.closed slot)).unlinked =
      (c.destroyed none fh c.pipes [.closed slot]).unlinked := by
    simp [unlinked, destroyed, setHandle, record, rouse]
  have hlinked : Linked { v with wait := v.rouse none }.place
      (((c.setHandle fh value).setHandle fh none).record (.closed slot)) := by
    rw [View.rouse_none]
    exact hinv.linked.congr (fun _ => rfl) (fun _ => rfl) rfl
  refine ⟨none, hinv.destroy [] hslot hfh hlast hlinked hfinal
    (ClosesEnd.plain hinv.pipes.opened hkind) ⟨rfl, rfl, rfl, by simp⟩ ?_⟩
  rw [View.rouse_none]
  refine hinv.waits.destroy hslot hlast hawake ?_ rfl rfl
  rw [destroyed, rouse_none]

/-- Giving up one of several references to a handle. -/
theorem Inv.release (hinv : Inv v c) (hslot : v.table slot = some fh)
    (hawake : v.wait slot.1 = .awake) (hfh : c.handles fh = some handle)
    (hmany : handle.refcount ≠ 1) :
    Inv { v with table := v.drop slot }
        ((c.setHandle fh (some { handle with refcount := handle.refcount - 1 })).record
          (.closed slot)) ∧
      Quiet c ((c.setHandle fh (some { handle with refcount := handle.refcount - 1 })).record
        (.closed slot)) := by
  have hquiet : Quiet c ((c.setHandle fh
      (some { handle with refcount := handle.refcount - 1 })).record (.closed slot)) :=
    ⟨fun _ => rfl, rfl, rfl, le_rfl, rfl, rfl⟩
  obtain ⟨hcount, hpos⟩ := hinv.handles.counted fh handle hfh
  have hdrop := View.references_drop hslot fh
  rw [if_pos rfl, ← hcount] at hdrop
  have hwaits : Waits { v with table := v.drop slot } { c with
      handles := Function.update c.handles fh
        (some { handle with refcount := handle.refcount - 1 }) } := by
    apply hinv.waits.retable
    · intro pid fd hasleep
      exact View.drop_asleep hawake hasleep
    · intro other fh' handle' hother hfh'
      by_cases hsame : fh' = fh
      · subst hsame
        rw [hfh, Option.some.injEq] at hfh'
        subst hfh'
        exact ⟨_, Function.update_self _ _ _, rfl⟩
      · exact ⟨handle', by rw [Function.update_of_ne hsame]; exact hfh', rfl⟩
  have hkind : ({ handle with refcount := handle.refcount - 1 } : FileHandle).kind =
      handle.kind := rfl
  refine ⟨hinv.quiet hquiet (hinv.linked.congr (fun _ => rfl) (fun _ => rfl) rfl)
    (hwaits.congr rfl rfl rfl) ?_ ?_ (hinv.references.drop hslot rfl _), hquiet⟩
  · refine hinv.handles.recount hfh hkind ⟨?_, ?_⟩ ?_ rfl rfl rfl
    · simp only
      omega
    · simp only
      omega
    · intro other hother
      have hdrop' := View.references_drop hslot other
      rwa [if_neg hother] at hdrop'
  · exact hinv.pipes.recount hfh hkind rfl rfl rfl rfl rfl (by simp)

/-- `close_filehandle` on the handle of a descriptor. -/
theorem closeDescriptor_spec (hinv : Inv v c) {pid : Pid} {fd : Fd}
    (hslot : v.table (pid, fd) = some fh) (hawake : v.wait pid = .awake) :
    Ensures Harmless (c.closeDescriptor pid fd fh) fun c' =>
      ∃ sleeper, Inv { v with table := v.drop (pid, fd), wait := v.rouse sleeper } c' ∧
        Quiet c c' := by
  obtain ⟨handle, hfh⟩ := hinv.handles.resolved (pid, fd) fh hslot
  obtain ⟨hcount, hpos⟩ := hinv.handles.counted fh handle hfh
  rw [closeDescriptor, closeFilehandle, Core.handle, hfh]
  simp only [ok_bind, check, if_pos hpos, pure_eq_ok]
  by_cases hlast : handle.refcount = 1
  · rw [if_pos (by omega)]
    rw [hlast] at hcount
    cases hkind : handle.kind with
    | pipeWriter b =>
        rw [destroy]
        apply ensures_bind (pipeWriterDestroy_spec hinv hslot hawake hfh hkind hcount.symm _)
        intro c' hc'
        exact ensures_ok.mpr hc'
    | pipeReader b =>
        rw [destroy]
        apply ensures_bind (pipeReaderDestroy_spec hinv hslot hawake hfh hkind hcount.symm _)
        intro c' hc'
        exact ensures_ok.mpr hc'
    | screen =>
        exact ensures_ok.mpr
          (plainDestroy_spec hinv hslot hawake hfh (by simp [hkind]) hcount.symm _)
    | file entry =>
        exact ensures_ok.mpr
          (plainDestroy_spec hinv hslot hawake hfh (by simp [hkind]) hcount.symm _)
    | dir entry =>
        exact ensures_ok.mpr
          (plainDestroy_spec hinv hslot hawake hfh (by simp [hkind]) hcount.symm _)
  · rw [if_neg (by omega)]
    refine ensures_ok.mpr ⟨none, ?_⟩
    rw [View.rouse_none]
    exact hinv.release hslot hawake hfh hlast

end Close

end Core

end Rhythmos.Kernel
