import Rhythmos.Kernel.Machine
import Rhythmos.Kernel.Scheduling

/-!
# Pipes are byte streams

The bytes that the reads of a pipe returned, followed by the bytes in its buffer,
are the bytes that were written to it.  `Stream` collects both while the pipe is
written, read and closed, with arbitrary changes of everything else in between.
-/

namespace Rhythmos.Kernel

open Fallible ByteMemory Libc

/-- The bytes in the buffer of a pipe. -/
def PipeBuffer.contents (pipe : PipeBuffer) : List UInt8 := loadBytes pipe.data 0 pipe.len

namespace Core

variable {c c' : Core} {b : Block} {pipe : PipeBuffer}

/-! ## Operations on a pipe -/

theorem pipes_listAdd (c : Core) (queue : Queue) (pid : Pid) :
    (c.listAdd queue pid).pipes = c.pipes := by
  have hsame := congrArg Core.pipes (unlinked_listAdd c queue pid)
  exact hsame

theorem pipes_listRemove (c : Core) (queue : Queue) (pid : Pid) :
    (c.listRemove queue pid).pipes = c.pipes := by
  have hsame := congrArg Core.pipes (unlinked_listRemove c queue pid)
  exact hsame

theorem suspendProcess_pipes {pid : Pid} (hsuspend : c.suspendProcess pid = .ok c') :
    c'.pipes = c.pipes := by
  obtain ⟨_, -, hsuspend⟩ := bind_eq_ok.mp hsuspend
  obtain ⟨_, -, hsuspend⟩ := bind_eq_ok.mp hsuspend
  simp only [pure_eq_ok, Except.ok.injEq] at hsuspend
  subst hsuspend
  rw [pipes_listAdd, pipes_listRemove]
  rfl

theorem pipe_eq_ok : c.pipe b = .ok pipe ↔ c.pipes b = some pipe := by
  cases hpipe : c.pipes b <;> simp [Core.pipe, hpipe]

/-- Waking up a reader only changes who is registered. -/
theorem wakeUpReader_pipes (hwake : c.wakeUpReader b = .ok c') (hpipe : c.pipes b = some pipe) :
    ∃ readpid, c'.pipes b = some { pipe with readpid := readpid } := by
  simp only [wakeUpReader, Core.pipe, hpipe, ok_bind] at hwake
  split at hwake
  · obtain ⟨c₁, -, hwake⟩ := bind_eq_ok.mp hwake
    simp only [pure_eq_ok, Except.ok.injEq] at hwake
    subst hwake
    exact ⟨none, by simp⟩
  · simp only [pure_eq_ok, Except.ok.injEq] at hwake
    subst hwake
    exact ⟨pipe.readpid, hpipe⟩

theorem growAlloc_ge {needed rounds alloc result : ℕ}
    (hgrow : growAlloc needed rounds alloc = .ok result) : needed ≤ result := by
  induction rounds generalizing alloc with
  | zero => cases hgrow
  | succ rounds ih =>
      rw [growAlloc] at hgrow
      split at hgrow
      · exact ih hgrow
      · rw [Except.ok.injEq] at hgrow
        omega

/-- Growing a buffer keeps its contents. -/
theorem makeRoom_contents {needed : ℕ} {pipe' : PipeBuffer}
    (hroom : c.makeRoom pipe needed = .ok (c', pipe')) :
    needed ≤ pipe'.alloc ∧ pipe'.len = pipe.len ∧ pipe'.writing = pipe.writing ∧
      pipe'.contents = pipe.contents := by
  rw [makeRoom] at hroom
  split at hroom
  · obtain ⟨alloc, hgrow, hroom⟩ := bind_eq_ok.mp hroom
    obtain ⟨⟨c₁, newdata⟩, -, hroom⟩ := bind_eq_ok.mp hroom
    simp only [pure_eq_ok, Except.ok.injEq, Prod.mk.injEq] at hroom
    obtain ⟨-, rfl⟩ := hroom
    refine ⟨growAlloc_ge hgrow, rfl, rfl, ?_⟩
    have hload := loadBytes_storeBytes (c₁.junk newdata) 0 (loadBytes pipe.data 0 pipe.len)
    rwa [length_loadBytes] at hload
  next hfits =>
    simp only [pure_eq_ok, Except.ok.injEq, Prod.mk.injEq] at hroom
    obtain ⟨-, rfl⟩ := hroom
    exact ⟨Nat.le_of_not_lt hfits, rfl, rfl, rfl⟩

/-- `write_to_pipe` appends to the buffer. -/
theorem writeToPipe_contents {buf : List UInt8} (hwrite : c.writeToPipe b buf = .ok c')
    (hpipe : c.pipes b = some pipe) (hsmall : pipe.len + buf.length < 2 ^ 31) :
    ∃ pipe', c'.pipes b = some pipe' ∧ pipe'.contents = pipe.contents ++ buf ∧
      pipe'.len = pipe.len + buf.length ∧ pipe'.len ≤ pipe'.alloc ∧
      pipe'.writing = pipe.writing := by
  simp only [writeToPipe, Core.pipe, hpipe, ok_bind] at hwrite
  obtain ⟨⟨c₁, pipe₁⟩, hroom, hwrite⟩ := bind_eq_ok.mp hwrite
  have hneeded : (pipe.len + buf.length) % wordCount = pipe.len + buf.length := by
    apply Nat.mod_eq_of_lt
    simp only [wordCount]
    omega
  rw [hneeded] at hroom hwrite
  obtain ⟨hfits, hlen, hwriting, hcontents⟩ := makeRoom_contents hroom
  obtain ⟨readpid, hpipe'⟩ := wakeUpReader_pipes hwrite (Function.update_self _ _ _)
  refine ⟨_, hpipe', ?_, rfl, hfits, hwriting⟩
  calc loadBytes (storeBytes pipe₁.data pipe₁.len buf) 0 (pipe.len + buf.length)
    _ = loadBytes (storeBytes pipe₁.data pipe₁.len buf) 0 pipe₁.len ++
          loadBytes (storeBytes pipe₁.data pipe₁.len buf) pipe₁.len buf.length := by
        rw [← hlen, loadBytes_add, Nat.zero_add]
    _ = pipe₁.contents ++ buf := by
        rw [loadBytes_storeBytes_below _ _ (by omega), loadBytes_storeBytes]
        rfl
    _ = pipe.contents ++ buf := by rw [hcontents]

/-- `pipe_reader_read` takes bytes from the front of the buffer. -/
theorem pipeReaderRead_contents {count : ℕ} {res : Word} {bytes : List UInt8}
    (hread : c.pipeReaderRead b count = .ok (c', res, bytes)) (hpipe : c.pipes b = some pipe) :
    ∃ pipe', c'.pipes b = some pipe' ∧ pipe.contents = bytes ++ pipe'.contents ∧
      pipe'.len ≤ pipe.len ∧ pipe'.alloc = pipe.alloc ∧ pipe'.writing = pipe.writing := by
  simp only [pipeReaderRead, Core.pipe, hpipe, ok_bind] at hread
  split at hread
  · simp only [pure_eq_ok, Except.ok.injEq, Prod.mk.injEq] at hread
    obtain ⟨rfl, -, rfl⟩ := hread
    exact ⟨pipe, hpipe, rfl, le_rfl, rfl, rfl⟩
  · split at hread
    · simp only [pure_eq_ok, Except.ok.injEq, Prod.mk.injEq] at hread
      obtain ⟨rfl, -, rfl⟩ := hread
      refine ⟨_, Function.update_self _ _ _, ?_, Nat.sub_le _ _, rfl, rfl⟩
      generalize hcopy : (if count < pipe.len then count else pipe.len) = copy
      have hle : copy ≤ pipe.len := by
        rw [← hcopy]
        split <;> omega
      have hrest : loadBytes (if copy < pipe.len then
          memmove pipe.data 0 copy (pipe.len - copy) else pipe.data) 0 (pipe.len - copy) =
            loadBytes pipe.data copy (pipe.len - copy) := by
        apply loadBytes_congr
        intro offset hoffset
        rw [if_pos (by omega), memmove_down pipe.data (Nat.zero_le copy) _ (by omega) (by omega)]
        simp
      calc pipe.contents
        _ = loadBytes pipe.data 0 (copy + (pipe.len - copy)) := by
            rw [PipeBuffer.contents, Nat.add_sub_cancel' hle]
        _ = loadBytes pipe.data 0 copy ++ loadBytes pipe.data copy (pipe.len - copy) := by
            rw [loadBytes_add, Nat.zero_add]
        _ = _ := by rw [← hrest]; rfl
    · split at hread
      · simp only [pure_eq_ok, Except.ok.injEq, Prod.mk.injEq] at hread
        obtain ⟨rfl, -, rfl⟩ := hread
        exact ⟨pipe, hpipe, rfl, le_rfl, rfl, rfl⟩
      · obtain ⟨pid, -, hread⟩ := bind_eq_ok.mp hread
        obtain ⟨c₁, hsuspend, hread⟩ := bind_eq_ok.mp hread
        simp only [pure_eq_ok, Except.ok.injEq, Prod.mk.injEq] at hread
        obtain ⟨rfl, -, rfl⟩ := hread
        rw [suspendProcess_pipes hsuspend]
        exact ⟨_, Function.update_self _ _ _, rfl, le_rfl, rfl, rfl⟩

/-- A read either fails without giving bytes, or returns the number of the bytes it gives,
which are the first ones in the buffer. -/
theorem pipeReaderRead_result {count : ℕ} {res : Word} {bytes : List UInt8}
    (hread : c.pipeReaderRead b count = .ok (c', res, bytes)) (hpipe : c.pipes b = some pipe)
    (hsmall : pipe.len < 2 ^ 31) :
    res.toInt < 0 ∧ bytes = [] ∨
      res = BitVec.ofNat 32 bytes.length ∧ bytes = pipe.contents.take count := by
  have hlength : pipe.contents.length = pipe.len := length_loadBytes _ _ _
  obtain ⟨pipe', -, hsplit, -⟩ := pipeReaderRead_contents hread hpipe
  simp only [pipeReaderRead, Core.pipe, hpipe, ok_bind] at hread
  split at hread
  · simp only [pure_eq_ok, Except.ok.injEq, Prod.mk.injEq] at hread
    obtain ⟨-, rfl, rfl⟩ := hread
    exact .inl ⟨by decide, rfl⟩
  · split at hread
    next hfull =>
      simp only [pure_eq_ok, Except.ok.injEq, Prod.mk.injEq] at hread
      obtain ⟨-, rfl, hbytes⟩ := hread
      have hcopied : bytes.length = min count pipe.len := by
        rw [← hbytes, length_loadBytes]
        split <;> omega
      refine .inr ⟨?_, ?_⟩
      · rw [hcopied]
        congr 1
        split <;> omega
      · calc bytes = (bytes ++ pipe'.contents).take bytes.length := by simp
          _ = pipe.contents.take (min count pipe.len) := by rw [← hsplit, hcopied]
          _ = pipe.contents.take count := by rw [← hlength, ← List.take_eq_take_min]
    next hempty =>
      have hnothing : pipe.contents = [] := by
        rw [← List.length_eq_zero_iff, hlength]
        omega
      split at hread
      · simp only [pure_eq_ok, Except.ok.injEq, Prod.mk.injEq] at hread
        obtain ⟨-, rfl, rfl⟩ := hread
        exact .inr ⟨rfl, by simp [hnothing]⟩
      · obtain ⟨pid, -, hread⟩ := bind_eq_ok.mp hread
        obtain ⟨c₁, -, hread⟩ := bind_eq_ok.mp hread
        simp only [pure_eq_ok, Except.ok.injEq, Prod.mk.injEq] at hread
        obtain ⟨-, rfl, rfl⟩ := hread
        exact .inl ⟨by decide, rfl⟩

/-- A read of a positive count returns 0 only at the end of the stream. -/
theorem pipeReaderRead_end {count : ℕ} {bytes : List UInt8} (hcount : 0 < count)
    (hread : c.pipeReaderRead b count = .ok (c', 0, bytes)) (hpipe : c.pipes b = some pipe)
    (hsmall : pipe.len < 2 ^ 31) : pipe.writing = false ∧ pipe.len = 0 := by
  simp only [pipeReaderRead, Core.pipe, hpipe, ok_bind] at hread
  split at hread
  · simp only [pure_eq_ok, Except.ok.injEq, Prod.mk.injEq] at hread
    exact absurd hread.2.1 (by decide)
  · split at hread
    next hfull =>
      simp only [pure_eq_ok, Except.ok.injEq, Prod.mk.injEq] at hread
      have hcopy := congrArg BitVec.toNat hread.2.1
      rw [BitVec.toNat_ofNat] at hcopy
      split at hcopy
      · rw [Nat.mod_eq_of_lt (by omega)] at hcopy
        exact absurd hcopy (by simp; omega)
      · rw [Nat.mod_eq_of_lt (by omega)] at hcopy
        exact absurd hcopy (by simp; omega)
    next hempty =>
      split at hread
      next hclosed => exact ⟨by simpa using hclosed, by omega⟩
      · obtain ⟨pid, -, hread⟩ := bind_eq_ok.mp hread
        obtain ⟨c₁, hsuspend, hread⟩ := bind_eq_ok.mp hread
        simp only [pure_eq_ok, Except.ok.injEq, Prod.mk.injEq] at hread
        exact absurd hread.2.1 (by decide)

/-- Closing an end of a pipe keeps its contents, or frees it. -/
theorem checkBufferFree_pipes (hcheck : c.checkBufferFree b = .ok c') {pipe' : PipeBuffer}
    (hpipe' : c'.pipes b = some pipe') : c.pipes b = some pipe' := by
  obtain ⟨pipe, -, hcheck⟩ := bind_eq_ok.mp hcheck
  split at hcheck
  · obtain ⟨_, -, hcheck⟩ := bind_eq_ok.mp hcheck
    simp only [pure_eq_ok, Except.ok.injEq] at hcheck
    subst hcheck
    simp at hpipe'
  · simp only [pure_eq_ok, Except.ok.injEq] at hcheck
    exact hcheck ▸ hpipe'

theorem pipeWriterDestroy_contents {fh : Block} (hclose : c.pipeWriterDestroy fh b = .ok c')
    (hpipe : c.pipes b = some pipe) {pipe' : PipeBuffer} (hpipe' : c'.pipes b = some pipe') :
    pipe'.contents = pipe.contents ∧ pipe'.len = pipe.len ∧ pipe'.alloc = pipe.alloc := by
  simp only [pipeWriterDestroy, Core.pipe, hpipe, ok_bind] at hclose
  obtain ⟨_, -, hclose⟩ := bind_eq_ok.mp hclose
  obtain ⟨c₁, hwake, hclose⟩ := bind_eq_ok.mp hclose
  obtain ⟨c₂, hcheck, hclose⟩ := bind_eq_ok.mp hclose
  simp only [pure_eq_ok, Except.ok.injEq] at hclose
  subst hclose
  obtain ⟨readpid, hwoken⟩ := wakeUpReader_pipes hwake (Function.update_self _ _ _)
  have hkept := checkBufferFree_pipes hcheck hpipe'
  rw [hwoken, Option.some.injEq] at hkept
  subst hkept
  exact ⟨rfl, rfl, rfl⟩

theorem pipeReaderDestroy_contents {fh : Block} (hclose : c.pipeReaderDestroy fh b = .ok c')
    (hpipe : c.pipes b = some pipe) {pipe' : PipeBuffer} (hpipe' : c'.pipes b = some pipe') :
    pipe'.contents = pipe.contents ∧ pipe'.len = pipe.len ∧ pipe'.alloc = pipe.alloc := by
  simp only [pipeReaderDestroy, Core.pipe, hpipe, ok_bind] at hclose
  obtain ⟨_, -, hclose⟩ := bind_eq_ok.mp hclose
  obtain ⟨c₁, hcheck, hclose⟩ := bind_eq_ok.mp hclose
  simp only [pure_eq_ok, Except.ok.injEq] at hclose
  subst hclose
  have hkept := checkBufferFree_pipes hcheck hpipe'
  simp only [setPipe_pipes, Function.update_self, Option.some.injEq] at hkept
  subst hkept
  exact ⟨rfl, rfl, rfl⟩

/-! ## Streams -/

/-- What a read with this result returned, of the bytes it put into its buffer. -/
def returned (res : Word) (bytes : List UInt8) : List UInt8 :=
  if res.toInt < 0 then [] else bytes.take res.toNat

theorem returned_eq {count : ℕ} {res : Word} {bytes : List UInt8}
    (hread : c.pipeReaderRead b count = .ok (c', res, bytes)) (hpipe : c.pipes b = some pipe)
    (hsmall : pipe.len < 2 ^ 31) : returned res bytes = bytes := by
  rw [returned]
  rcases pipeReaderRead_result hread hpipe hsmall with ⟨hfails, rfl⟩ | ⟨rfl, htaken⟩
  · rw [if_pos hfails]
  · have hlength : bytes.length ≤ pipe.len := by
      rw [htaken, List.length_take, PipeBuffer.contents, length_loadBytes]
      exact min_le_right _ _
    have hnat : (BitVec.ofNat 32 bytes.length).toNat = bytes.length := by
      rw [BitVec.toNat_ofNat, Nat.mod_eq_of_lt (by omega)]
    have hsign : ¬ (BitVec.ofNat 32 bytes.length).toInt < 0 := by
      rw [BitVec.toInt_eq_toNat_of_lt (by rw [hnat]; omega)]
      omega
    rw [if_neg hsign, hnat, List.take_length]

/-- The pipe `b` was made by `new_pipe`, then written, read and closed, in any order and
by any processes, with changes of other data in between.  `written` are the bytes
that were written and `delivered` those that reads returned. -/
inductive Stream (b : Block) : Core → List UInt8 → List UInt8 → Prop
  | made {c c' : Core} : c.newPipe = .ok (c', b) → Stream b c' [] []
  | write {c c' : Core} {written delivered buf : List UInt8} : Stream b c written delivered →
      (∀ pipe, c.pipes b = some pipe → pipe.len + buf.length < 2 ^ 31) →
      c.writeToPipe b buf = .ok c' → Stream b c' (written ++ buf) delivered
  | read {c c' : Core} {written delivered bytes : List UInt8} {count : ℕ} {res : Word} :
      Stream b c written delivered → 0 < count →
      c.pipeReaderRead b count = .ok (c', res, bytes) →
      Stream b c' written (delivered ++ returned res bytes)
  | closeWriter {c c' : Core} {written delivered : List UInt8} {fh : Block} :
      Stream b c written delivered → c.pipeWriterDestroy fh b = .ok c' →
      Stream b c' written delivered
  | closeReader {c c' : Core} {written delivered : List UInt8} {fh : Block} :
      Stream b c written delivered → c.pipeReaderDestroy fh b = .ok c' →
      Stream b c' written delivered
  | elsewhere {c c' : Core} {written delivered : List UInt8} : Stream b c written delivered →
      c'.pipes b = c.pipes b → Stream b c' written delivered

/-- The invariant of a stream. -/
theorem Stream.contents {written delivered : List UInt8} (hstream : Stream b c written delivered)
    (hpipe : c.pipes b = some pipe) :
    delivered ++ pipe.contents = written ∧ pipe.len ≤ pipe.alloc ∧ pipe.len < 2 ^ 31 := by
  induction hstream generalizing pipe with
  | made hmade =>
      obtain ⟨⟨c₁, b₁⟩, -, hmade⟩ := bind_eq_ok.mp hmade
      obtain ⟨⟨c₂, data⟩, -, hmade⟩ := bind_eq_ok.mp hmade
      simp only [pure_eq_ok, Except.ok.injEq, Prod.mk.injEq] at hmade
      obtain ⟨rfl, rfl⟩ := hmade
      simp only [setPipe_pipes, Function.update_self, Option.some.injEq] at hpipe
      subst hpipe
      exact ⟨rfl, Nat.zero_le _, Nat.two_pow_pos 31⟩
  | @write c c' written delivered buf _ hsmall hwrite ih =>
      obtain ⟨pipe₀, hpipe₀⟩ : ∃ pipe₀, c.pipes b = some pipe₀ := by
        obtain ⟨pipe₀, hpipe₀, -⟩ := bind_eq_ok.mp hwrite
        exact ⟨pipe₀, pipe_eq_ok.mp hpipe₀⟩
      obtain ⟨hcontents, -, -⟩ := ih hpipe₀
      obtain ⟨pipe', hpipe', happend, hlen, hroom, -⟩ :=
        writeToPipe_contents hwrite hpipe₀ (hsmall pipe₀ hpipe₀)
      obtain rfl : pipe' = pipe := by simpa using hpipe'.symm.trans hpipe
      refine ⟨?_, hroom, ?_⟩
      · rw [happend, ← List.append_assoc, hcontents]
      · rw [hlen]
        exact hsmall pipe₀ hpipe₀
  | @read c c' written delivered bytes count res _ _ hread ih =>
      obtain ⟨pipe₀, hpipe₀⟩ : ∃ pipe₀, c.pipes b = some pipe₀ := by
        obtain ⟨pipe₀, hpipe₀, -⟩ := bind_eq_ok.mp hread
        exact ⟨pipe₀, pipe_eq_ok.mp hpipe₀⟩
      obtain ⟨hcontents, hroom, hsmall⟩ := ih hpipe₀
      obtain ⟨pipe', hpipe', htaken, hlen, halloc, -⟩ := pipeReaderRead_contents hread hpipe₀
      obtain rfl : pipe' = pipe := by simpa using hpipe'.symm.trans hpipe
      rw [returned_eq hread hpipe₀ hsmall]
      refine ⟨?_, ?_, lt_of_le_of_lt hlen hsmall⟩
      · rw [List.append_assoc, ← htaken, hcontents]
      · rw [halloc]
        exact hlen.trans hroom
  | @closeWriter c c' written delivered fh _ hclose ih =>
      obtain ⟨pipe₀, hpipe₀⟩ : ∃ pipe₀, c.pipes b = some pipe₀ := by
        obtain ⟨pipe₀, hpipe₀, -⟩ := bind_eq_ok.mp hclose
        exact ⟨pipe₀, pipe_eq_ok.mp hpipe₀⟩
      obtain ⟨hcontents, hlen, halloc⟩ := pipeWriterDestroy_contents hclose hpipe₀ hpipe
      rw [hcontents, hlen, halloc]
      exact ih hpipe₀
  | @closeReader c c' written delivered fh _ hclose ih =>
      obtain ⟨pipe₀, hpipe₀⟩ : ∃ pipe₀, c.pipes b = some pipe₀ := by
        obtain ⟨pipe₀, hpipe₀, -⟩ := bind_eq_ok.mp hclose
        exact ⟨pipe₀, pipe_eq_ok.mp hpipe₀⟩
      obtain ⟨hcontents, hlen, halloc⟩ := pipeReaderDestroy_contents hclose hpipe₀ hpipe
      rw [hcontents, hlen, halloc]
      exact ih hpipe₀
  | elsewhere _ hsame ih => exact ih (hsame ▸ hpipe)

/-- Pipes are lossless streams: what reads returned, followed by the buffer, is what was
written, and the buffer fits its allocation.  A read that does not fail returns the number
of the bytes it gives, the first ones in the buffer, and it reports the end of the stream
only when the writer is closed and everything has been delivered. -/
theorem pipes_lossless {written delivered : List UInt8} (hstream : Stream b c written delivered)
    (hpipe : c.pipes b = some pipe) :
    delivered ++ pipe.contents = written ∧ pipe.len ≤ pipe.alloc ∧
      ∀ count c' res bytes, 0 < count → c.pipeReaderRead b count = .ok (c', res, bytes) →
        (0 ≤ res.toInt → res = BitVec.ofNat 32 bytes.length ∧
          bytes = pipe.contents.take count) ∧
        (res = 0 → pipe.writing = false ∧ delivered = written) := by
  obtain ⟨hcontents, hroom, hsmall⟩ := hstream.contents hpipe
  refine ⟨hcontents, hroom, ?_⟩
  intro count c' res bytes hcount hread
  refine ⟨fun hres => ?_, ?_⟩
  · exact (pipeReaderRead_result hread hpipe hsmall).resolve_left fun hfails =>
      absurd hfails.1 (not_lt.mpr hres)
  · rintro rfl
    obtain ⟨hclosed, hempty⟩ := pipeReaderRead_end hcount hread hpipe hsmall
    refine ⟨hclosed, ?_⟩
    have hnothing : pipe.contents = [] := by simp [PipeBuffer.contents, hempty, loadBytes]
    rw [← hcontents, hnothing, List.append_nil]

/-- Three bytes are written to a new pipe, and two are read. -/
theorem pipes_lossless_read : ∃ c pipe, Stream 0 c [1, 2, 3] [1, 2] ∧ c.pipes 0 = some pipe ∧
    [1, 2] ++ pipe.contents = [1, 2, 3] := by
  obtain ⟨c₁, hmade, hpipe₁⟩ : ∃ c₁, (Core.initial fun _ _ => 0).newPipe = .ok (c₁, 0) ∧
      c₁.pipes 0 = some ⟨true, true, bufsize, 0, none, fun _ => 0⟩ := ⟨_, rfl, rfl⟩
  obtain ⟨c₂, hwrite, hpipe₂⟩ : ∃ c₂, c₁.writeToPipe 0 [1, 2, 3] = .ok c₂ ∧
      c₂.pipes 0 = some ⟨true, true, bufsize, 3, none, storeBytes (fun _ => 0) 0 [1, 2, 3]⟩ := by
    simp [writeToPipe, Core.pipe, hpipe₁, makeRoom, wakeUpReader, bufsize, wordCount]
  obtain ⟨c₃, pipe, hread, hpipe₃⟩ : ∃ c₃ pipe,
      c₂.pipeReaderRead 0 2 = .ok (c₃, 2, [1, 2]) ∧ c₃.pipes 0 = some pipe := by
    simp only [pipeReaderRead, Core.pipe, hpipe₂, ok_bind]
    exact ⟨_, _, rfl, rfl⟩
  have hsmall : ∀ pipe, c₁.pipes 0 = some pipe → pipe.len + [1, 2, 3].length < 2 ^ 31 := by
    rintro pipe hpipe
    rw [hpipe₁, Option.some.injEq] at hpipe
    subst hpipe
    decide
  have hstream : Stream 0 c₃ [1, 2, 3] [1, 2] :=
    .read (.write (.made hmade) hsmall hwrite) (by decide) hread
  exact ⟨c₃, pipe, hstream, hpipe₃, (pipes_lossless hstream hpipe₃).1⟩

end Core

end Rhythmos.Kernel
