import Rhythmos.Kernel.Wakeups

/-!
# Moving data through pipes

`write_to_pipe` and `pipe_reader_read` change the contents of a pipe, wake its
reader up or put the caller to sleep, and leave handles and the open ends of
pipes as they are.
-/

namespace Rhythmos.Kernel

open Fallible Ledger ByteMemory Libc

/-- The faults that the invariant does not exclude: memory runs out or is not
mapped, a trap comes from no process, or the machine stops. -/
def Harmless : Fault → Prop
  | .assertion site => site = .syscall
  | .page fault => fault ≠ .assertion
  | .dangling | .kernelStore | .releasedMailbox => False
  | _ => True

/-- The open ends of a pipe. -/
def PipeBuffer.ends (pipe : PipeBuffer) : Bool × Bool := (pipe.reading, pipe.writing)

namespace Core

/-! ## Handles and open ends stay -/

structure SameEnds (c c' : Core) : Prop where
  handles : c'.handles = c.handles
  ends : ∀ b, (c'.pipes b).map PipeBuffer.ends = (c.pipes b).map PipeBuffer.ends
  slots : c'.slotLedger = c.slotLedger
  freed : c'.freedPipes = c.freedPipes
  made : ∀ b, .pipeMade b ∈ c'.history ↔ .pipeMade b ∈ c.history

theorem SameEnds.none_iff {c c' : Core} (hsame : SameEnds c c') (b : Block) :
    c'.pipes b = none ↔ c.pipes b = none := by
  have hends := hsame.ends b
  cases hc : c.pipes b <;> cases hc' : c'.pipes b <;> simp_all

theorem SameEnds.pipe {c c' : Core} (hsame : SameEnds c c') {b : Block} {pipe : PipeBuffer}
    (hpipe : c'.pipes b = some pipe) :
    ∃ old, c.pipes b = some old ∧ old.reading = pipe.reading ∧ old.writing = pipe.writing := by
  have hends := hsame.ends b
  rw [hpipe] at hends
  obtain ⟨old, hold, hflags⟩ := Option.map_eq_some_iff.mp hends.symm
  simp only [PipeBuffer.ends, Prod.mk.injEq] at hflags
  exact ⟨old, hold, hflags.1, hflags.2⟩

theorem SameEnds.pipe' {c c' : Core} (hsame : SameEnds c c') {b : Block} {pipe : PipeBuffer}
    (hpipe : c.pipes b = some pipe) :
    ∃ new, c'.pipes b = some new ∧ new.reading = pipe.reading ∧ new.writing = pipe.writing := by
  have hends := hsame.ends b
  rw [hpipe] at hends
  obtain ⟨new, hnew, hflags⟩ := Option.map_eq_some_iff.mp hends
  simp only [PipeBuffer.ends, Prod.mk.injEq] at hflags
  exact ⟨new, hnew, hflags.1, hflags.2⟩

theorem Handles.sameEnds {v : View} {c c' : Core} (hhandles : Handles v c) (hquiet : Quiet c c')
    (hsame : SameEnds c c') (wait : Pid → Wait) : Handles { v with wait := wait } c' where
  fresh fh hfh := by
    rw [hsame.handles]
    exact hhandles.fresh fh (hquiet.heap.trans hfh)
  resolved slot fh hslot := by
    rw [hsame.handles]
    exact hhandles.resolved slot fh hslot
  counted fh handle hfh := by
    rw [hsame.handles] at hfh
    exact hhandles.counted fh handle hfh
  reader fh handle b hfh hkind := by
    rw [hsame.handles] at hfh
    obtain ⟨pipe, hpipe, hreading⟩ := hhandles.reader fh handle b hfh hkind
    obtain ⟨new, hnew, hflag, -⟩ := hsame.pipe' hpipe
    exact ⟨new, hnew, hflag.trans hreading⟩
  writer fh handle b hfh hkind := by
    rw [hsame.handles] at hfh
    obtain ⟨pipe, hpipe, hwriting⟩ := hhandles.writer fh handle b hfh hkind
    obtain ⟨new, hnew, -, hflag⟩ := hsame.pipe' hpipe
    exact ⟨new, hnew, hflag.trans hwriting⟩
  readerUnique := by
    rw [hsame.handles]
    exact hhandles.readerUnique
  writerUnique := by
    rw [hsame.handles]
    exact hhandles.writerUnique

theorem Pipes.sameEnds {c c' : Core} (hpipes : Pipes c) (hquiet : Quiet c c')
    (hsame : SameEnds c c') : Pipes c' where
  fresh b hb := (hsame.none_iff b).mpr (hpipes.fresh b (hquiet.heap.trans hb))
  opened b pipe hpipe := by
    obtain ⟨old, hold, hreading, hwriting⟩ := hsame.pipe hpipe
    rw [← hreading, ← hwriting]
    exact hpipes.opened b old hold
  input b hinput := by
    rw [hquiet.inputPipe] at hinput
    obtain ⟨⟨pipe, hpipe, hwriting⟩, hnone⟩ := hpipes.input b hinput
    obtain ⟨new, hnew, -, hflag⟩ := hsame.pipe' hpipe
    refine ⟨⟨new, hnew, hflag.trans hwriting⟩, ?_⟩
    rw [hsame.handles]
    exact hnone
  madeReader b pipe hmade hpipe hreading := by
    obtain ⟨old, hold, hflag, -⟩ := hsame.pipe hpipe
    rw [hsame.handles]
    exact hpipes.madeReader b old ((hsame.made b).mp hmade) hold (hflag.trans hreading)
  madeWriter b pipe hmade hpipe hwriting := by
    obtain ⟨old, hold, -, hflag⟩ := hsame.pipe hpipe
    rw [hsame.handles]
    exact hpipes.madeWriter b old ((hsame.made b).mp hmade) hold (hflag.trans hwriting)
  madeFresh b hmade := (hpipes.madeFresh b ((hsame.made b).mp hmade)).trans_le hquiet.heap
  madeFreed b hmade hnone := by
    rw [hsame.freed]
    exact hpipes.madeFreed b ((hsame.made b).mp hmade) ((hsame.none_iff b).mp hnone)
  freedOnce := by
    rw [hsame.freed]
    exact hpipes.freedOnce
  freedGone b hfreed := by
    rw [hsame.freed] at hfreed
    obtain ⟨hnone, hlt⟩ := hpipes.freedGone b hfreed
    exact ⟨(hsame.none_iff b).mpr hnone, hlt.trans_le hquiet.heap⟩

/-- The invariant after a change that moves data and wakes or puts to sleep. -/
theorem Inv.sameEnds {v : View} {c c' : Core} (hinv : Inv v c) (hquiet : Quiet c c')
    (hsame : SameEnds c c') {wait : Pid → Wait}
    (hlinked : Linked { v with wait := wait }.place c')
    (hwaits : Waits { v with wait := wait } c') : Inv { v with wait := wait } c' := by
  refine hinv.quiet hquiet hlinked hwaits (hinv.handles.sameEnds hquiet hsame wait)
    (hinv.pipes.sameEnds hquiet hsame) ⟨?_, ?_⟩
  · rw [hsame.slots]
    exact hinv.references.linear
  · rw [hsame.slots]
    exact hinv.references.outstanding

theorem SameEnds.of_unlinked {c d c' : Core} (hends : SameEnds c d)
    (hsame : c'.unlinked = d.unlinked) : SameEnds c c' where
  handles := (congrArg Core.handles hsame).trans hends.handles
  ends b := by
    have hpipes := congrArg (fun core => (core.pipes b).map PipeBuffer.ends) hsame
    exact hpipes.trans (hends.ends b)
  slots := (congrArg Core.slotLedger hsame).trans hends.slots
  freed := (congrArg Core.freedPipes hsame).trans hends.freed
  made b := by
    have hhistory := congrArg Core.history hsame
    exact hhistory ▸ hends.made b

/-- `Waits` depends on processes, pipes and handles only. -/
theorem Waits.congr {v : View} {c c' : Core} (hwaits : Waits v c)
    (hprocesses : c'.processes = c.processes) (hpipes : c'.pipes = c.pipes)
    (hhandles : c'.handles = c.handles) : Waits v c' where
  awake := hwaits.awake
  ready := by
    rw [hprocesses]
    exact hwaits.ready
  registered := by
    rw [hpipes]
    exact hwaits.registered
  blocked := by
    rw [hprocesses]
    exact hwaits.blocked
  awaited := by
    rw [hprocesses]
    exact hwaits.awaited
  reading := by
    simp only [ReadsFrom]
    rw [hprocesses, hpipes, hhandles]
    exact hwaits.reading
  receiving := by
    rw [hprocesses]
    exact hwaits.receiving
  awaiting := by
    rw [hprocesses]
    exact hwaits.awaiting

/-- Taking a block from the heap. -/
theorem Inv.grow {v : View} {c : Core} (hinv : Inv v c) :
    Inv v { c with heap := c.heap + 1 } ∧ Quiet c { c with heap := c.heap + 1 } := by
  have hquiet : Quiet c { c with heap := c.heap + 1 } :=
    ⟨fun _ => rfl, rfl, rfl, Nat.le_succ _, rfl, rfl⟩
  have hsame : SameEnds c { c with heap := c.heap + 1 } :=
    ⟨rfl, fun _ => rfl, rfl, rfl, fun _ => Iff.rfl⟩
  exact ⟨hinv.sameEnds hquiet hsame (hinv.linked.congr (fun _ => rfl) (fun _ => rfl) rfl)
    (hinv.waits.congr rfl rfl rfl), hquiet⟩

/-! ## Writing -/

theorem growAlloc_spec (needed : ℕ) (rounds alloc : ℕ) :
    Ensures Harmless (growAlloc needed rounds alloc) fun _ => True := by
  induction rounds generalizing alloc with
  | zero => simp [growAlloc, Harmless]
  | succ rounds ih =>
      rw [growAlloc]
      split
      · exact ih _
      · simp

theorem kmalloc_spec (c : Core) (nbytes : ℕ) :
    Ensures Harmless (c.kmalloc nbytes) fun result =>
      result = ({ c with heap := c.heap + 1 }, c.heap) := by
  rw [kmalloc]
  split
  · simp
  · simp [Harmless]

/-- Making room keeps everything but the buffer. -/
theorem makeRoom_spec {v : View} {c : Core} (hinv : Inv v c) (pipe : PipeBuffer) (needed : ℕ) :
    Ensures Harmless (c.makeRoom pipe needed) fun result =>
      Inv v result.1 ∧ Quiet c result.1 ∧ result.1.pipes = c.pipes ∧
        result.2.ends = pipe.ends ∧ result.2.readpid = pipe.readpid := by
  rw [makeRoom]
  split
  · apply ensures_bind (growAlloc_spec needed 33 pipe.alloc)
    intro alloc _
    apply ensures_bind (kmalloc_spec c alloc)
    rintro _ rfl
    exact ensures_ok.mpr ⟨hinv.grow.1, hinv.grow.2, rfl, rfl, rfl⟩
  · exact ensures_ok.mpr ⟨hinv, Quiet.refl c, rfl, rfl, rfl⟩

/-- Waking processes up is quiet. -/
theorem Quiet.rouse (c : Core) (sleeper : Option Pid) : Quiet c (c.rouse sleeper) :=
  ⟨fun pid => rouse_field c sleeper pid Process.still fun _ => rfl, rfl, rfl, le_rfl, rfl,
    rfl⟩

/-- Fill a pipe and wake its reader up. -/
theorem refill_spec {v : View} {c : Core} (hinv : Inv v c) {b : Block} {pipe filled : PipeBuffer}
    (hpipe : c.pipes b = some pipe) (hends : filled.ends = pipe.ends)
    (hreadpid : filled.readpid = pipe.readpid) (buf : List UInt8) :
    Ensures Harmless (((c.setPipe b (some filled)).record (.written b buf)).wakeUpReader b)
      fun c' => Inv { v with wait := v.rouse pipe.readpid } c' ∧ Quiet c c' := by
  have hlinked : Linked v.place ((c.setPipe b (some filled)).record (.written b buf)) :=
    hinv.linked.congr (fun _ => rfl) (fun _ => rfl) rfl
  have hfilled : ((c.setPipe b (some filled)).record (.written b buf)).pipes b = some filled := by
    simp
  obtain ⟨c', hrun, hlinked', hsame⟩ := wakeUpReader_spec hlinked hfilled fun pid hread =>
    Inv.reader_asleep hinv.slots hinv.waits hpipe (hreadpid ▸ hread)
  rw [hreadpid] at hlinked' hsame
  rw [hrun, ensures_ok]
  have hquiet : Quiet c (((((c.setPipe b (some filled)).record (.written b buf)).rouse
      pipe.readpid)).setPipe b (some { filled with readpid := none })) :=
    ⟨(Quiet.rouse c pipe.readpid).still, rfl, rfl, le_rfl, rfl, rfl⟩
  have hsameEnds : SameEnds c (((((c.setPipe b (some filled)).record (.written b buf)).rouse
      pipe.readpid)).setPipe b (some { filled with readpid := none })) := by
    refine ⟨rfl, ?_, rfl, rfl, by simp⟩
    intro b'
    by_cases hb : b' = b
    · subst hb
      simpa [hpipe, PipeBuffer.ends] using hends
    · simp [hb]
  refine ⟨hinv.sameEnds (hquiet.of_unlinked hsame) (hsameEnds.of_unlinked hsame) hlinked' ?_,
    hquiet.of_unlinked hsame⟩
  have hwoken : Waits { v with wait := v.rouse pipe.readpid }
      ((c.rouse pipe.readpid).setPipe b (some { filled with readpid := none })) :=
    hinv.waits.rouseReader hpipe rfl
  apply waits_unlinked.mp
  rw [hsame, waits_unlinked]
  refine hwoken.congr rfl ?_ rfl
  funext b'
  by_cases hb : b' = b
  · subst hb
    simp
  · simp [hb]

theorem writeToPipe_spec {v : View} {c : Core} (hinv : Inv v c) {b : Block} {pipe : PipeBuffer}
    (hpipe : c.pipes b = some pipe) (buf : List UInt8) :
    Ensures Harmless (c.writeToPipe b buf) fun c' =>
      Inv { v with wait := v.rouse pipe.readpid } c' ∧ Quiet c c' := by
  rw [writeToPipe, Core.pipe, hpipe]
  apply ensures_bind (makeRoom_spec hinv pipe _)
  rintro ⟨c₁, pipe₁⟩ ⟨hinv₁, hquiet₁, hpipes, hends, hreadpid⟩
  simp only at hinv₁ hquiet₁ hpipes hends hreadpid ⊢
  have hpipe₁ : c₁.pipes b = some pipe := by rw [← hpipe, ← hpipes]
  apply ensures_weaken (refill_spec hinv₁ hpipe₁ ?_ ?_ buf)
  · rintro c' ⟨hinv', hquiet'⟩
    exact ⟨hinv', hquiet₁.trans hquiet'⟩
  · exact hends
  · exact hreadpid

/-! ## Reading -/

/-- The outcome of a call by the process `pid`: the invariant holds, and the
process is still awake unless the call reports that it was suspended. -/
def Continues (v : View) (c : Core) (pid : Pid) (c' : Core) (res : Word) : Prop :=
  ∃ wait, Inv { v with wait := wait } c' ∧ Quiet c c' ∧
    (wait pid = .awake ∨ res = failure esuspend)

/-- Recording a delivery. -/
theorem Inv.recordDelivered {v : View} {c : Core} (hinv : Inv v c) (b : Block) (count : ℕ)
    (buf : List UInt8) : Inv v (c.record (.delivered b count buf)) ∧
      Quiet c (c.record (.delivered b count buf)) := by
  have hquiet : Quiet c (c.record (.delivered b count buf)) :=
    ⟨fun _ => rfl, rfl, rfl, le_rfl, rfl, rfl⟩
  have hsame : SameEnds c (c.record (.delivered b count buf)) :=
    ⟨rfl, fun _ => rfl, rfl, rfl, by simp⟩
  exact ⟨hinv.sameEnds hquiet hsame (hinv.linked.congr (fun _ => rfl) (fun _ => rfl) rfl)
    (hinv.waits.congr rfl rfl rfl), hquiet⟩

/-- Changing the contents of a pipe that nobody waits for. -/
theorem Inv.setContents {v : View} {c : Core} (hinv : Inv v c) {b : Block} {pipe : PipeBuffer}
    (hpipe : c.pipes b = some pipe) (hreadpid : pipe.readpid = none) (data : Memory) (len : ℕ) :
    Inv v (c.setPipe b (some { pipe with data := data, len := len })) ∧
      Quiet c (c.setPipe b (some { pipe with data := data, len := len })) := by
  have hquiet : Quiet c (c.setPipe b (some { pipe with data := data, len := len })) :=
    ⟨fun _ => rfl, rfl, rfl, le_rfl, rfl, rfl⟩
  have hsame : SameEnds c (c.setPipe b (some { pipe with data := data, len := len })) := by
    refine ⟨rfl, ?_, rfl, rfl, fun _ => Iff.rfl⟩
    intro b'
    by_cases hb : b' = b
    · subst hb
      simp [hpipe, PipeBuffer.ends]
    · simp [hb]
  have hwaits : Waits { v with wait := v.rouse pipe.readpid } ((c.rouse pipe.readpid).setPipe b
      (some { pipe with data := data, len := len })) := hinv.waits.rouseReader hpipe hreadpid
  rw [hreadpid, View.rouse_none, rouse_none] at hwaits
  exact ⟨hinv.sameEnds hquiet hsame (hinv.linked.congr (fun _ => rfl) (fun _ => rfl) rfl)
    (hwaits.congr rfl (by rw [← hreadpid]) rfl), hquiet⟩

/-- The calling process is suspended until a pipe is written to. -/
theorem suspendReader_spec {v : View} {c : Core} (hinv : Inv v c) {pid : Pid} {b : Block}
    {pipe : PipeBuffer} (halive : v.alive pid = true) (hawake : v.wait pid = .awake)
    (hreads : ReadsFrom v c pid b) (hpipe : c.pipes b = some pipe) (hnone : pipe.readpid = none)
    (hlen : pipe.len = 0) (hwriting : pipe.writing = true) :
    Ensures Harmless
      ((c.setPipe b (some { pipe with readpid := some pid })).suspendProcess pid) fun c' =>
        Inv { v with wait := v.lull pid (.reading b) } c' ∧ Quiet c c' := by
  obtain ⟨hexisting, hready⟩ := hinv.awake_ready halive hawake
  have hlinked : Linked v.place (c.setPipe b (some { pipe with readpid := some pid })) :=
    hinv.linked.congr (fun _ => rfl) (fun _ => rfl) rfl
  obtain ⟨c', hrun, hlinked', hsame⟩ := suspend_awake hlinked halive hawake hexisting hready
    (show Wait.reading b ≠ .awake by simp)
  rw [hrun, ensures_ok]
  have hquiet : Quiet c ((c.setPipe b (some { pipe with readpid := some pid })).modify pid
      fun proc => { proc with ready := false }) := by
    refine ⟨?_, rfl, rfl, le_rfl, rfl, rfl⟩
    intro other
    by_cases hother : other = pid
    · subst hother
      simp [Process.still]
    · simp [hother]
  have hsameEnds : SameEnds c ((c.setPipe b (some { pipe with readpid := some pid })).modify pid
      fun proc => { proc with ready := false }) := by
    refine ⟨rfl, ?_, rfl, rfl, fun _ => Iff.rfl⟩
    intro b'
    by_cases hb : b' = b
    · subst hb
      simp [hpipe, PipeBuffer.ends]
    · simp [hb]
  refine ⟨hinv.sameEnds (hquiet.of_unlinked hsame) (hsameEnds.of_unlinked hsame) hlinked' ?_,
    hquiet.of_unlinked hsame⟩
  apply waits_unlinked.mp
  rw [hsame, waits_unlinked]
  exact hinv.waits.lullReader halive hawake hreads hpipe hnone hlen hwriting

theorem pipeReaderRead_spec {v : View} {c : Core} (hinv : Inv v c) {pid : Pid} {b : Block}
    {pipe : PipeBuffer} (hcurrent : c.current = some pid) (halive : v.alive pid = true)
    (hawake : v.wait pid = .awake) (hreads : ReadsFrom v c pid b)
    (hpipe : c.pipes b = some pipe) (count : ℕ) :
    Ensures Harmless (c.pipeReaderRead b count) fun result =>
      Continues v c pid result.1 result.2.1 := by
  rw [pipeReaderRead, Core.pipe, hpipe]
  simp only [ok_bind]
  by_cases hreadpid : pipe.readpid = none
  · rw [if_neg (by simpa using hreadpid)]
    by_cases hlen : 0 < pipe.len
    · rw [if_pos hlen]
      have hmoved := hinv.setContents hpipe hreadpid
      exact ensures_ok.mpr ⟨v.wait, ((hmoved _ _).1.recordDelivered b count _).1,
        (hmoved _ _).2.trans ((hmoved _ _).1.recordDelivered b count _).2, .inl hawake⟩
    · rw [if_neg hlen]
      by_cases hwriting : pipe.writing = true
      · rw [if_neg (by simpa using hwriting), currentProcess, hcurrent]
        simp only [ok_bind]
        rw [hinv.slots.identity pid (hinv.slots.existing pid (.inl halive))]
        apply ensures_bind (suspendReader_spec hinv halive hawake hreads hpipe hreadpid
          (by omega) hwriting)
        rintro c' ⟨hinv', hquiet'⟩
        exact ensures_ok.mpr ⟨_, hinv', hquiet', .inr rfl⟩
      · rw [if_pos (by simpa using hwriting)]
        obtain ⟨hinv₁, hquiet₁⟩ := hinv.recordDelivered b count []
        exact ensures_ok.mpr ⟨v.wait, hinv₁, hquiet₁, .inl hawake⟩
  · rw [if_pos hreadpid]
    exact ensures_ok.mpr ⟨v.wait, hinv, Quiet.refl c, .inl hawake⟩

end Core

end Rhythmos.Kernel
