import Rhythmos.Kernel.Processes

/-!
# Pipes and file handles

The functions of `pipe.c` and `filedesc.c`, and those of `fscalls.c` that work on
file handles.  Buffers in user memory are passed as byte strings: a function
that writes receives the bytes, a function that reads returns them.
-/

namespace Rhythmos.Kernel.Core

open ByteMemory Libc

/-! ## Pipe buffers -/

/-- `new_pipe`. -/
def newPipe (c : Core) : Except Fault (Core × Block) := do
  let (c, b) ← c.kmalloc 24
  let (c, data) ← c.kmalloc bufsize
  return (c.setPipe b (some
    { reading := true
      writing := true
      alloc := bufsize
      len := 0
      readpid := none
      data := c.junk data }), b)

/-- `wake_up_reader`. -/
def wakeUpReader (c : Core) (b : Block) : Except Fault Core := do
  let pipe ← c.pipe b
  match pipe.readpid with
  | some pid =>
      let c ← c.resumeProcess pid
      return c.setPipe b (some { pipe with readpid := none })
  | none => return c

/-- The loop in `write_to_pipe` that doubles `alloc`, in 32-bit arithmetic.
After 32 rounds `alloc` is 0 and stays 0. -/
def growAlloc (needed : ℕ) : ℕ → ℕ → Except Fault ℕ
  | 0, _ => .error .diverges
  | rounds + 1, alloc =>
      if alloc < needed then growAlloc needed rounds (alloc * 2 % wordCount) else .ok alloc

/-- The first half of `write_to_pipe`: make room for `needed` bytes. -/
def makeRoom (c : Core) (pipe : PipeBuffer) (needed : ℕ) : Except Fault (Core × PipeBuffer) :=
  if pipe.alloc < needed then do
    let alloc ← growAlloc needed 33 pipe.alloc
    let (c, newdata) ← c.kmalloc alloc
    return (c, { pipe with
      alloc := alloc
      data := storeBytes (c.junk newdata) 0 (loadBytes pipe.data 0 pipe.len) })
  else return (c, pipe)

/-- `write_to_pipe`. -/
def writeToPipe (c : Core) (b : Block) (buf : List UInt8) : Except Fault Core := do
  let pipe ← c.pipe b
  let needed := (pipe.len + buf.length) % wordCount
  let (c, pipe) ← c.makeRoom pipe needed
  let c := c.setPipe b (some { pipe with
    data := storeBytes pipe.data pipe.len buf
    len := needed })
  (c.record (.written b buf)).wakeUpReader b

/-- `check_buffer_free`. -/
def checkBufferFree (c : Core) (b : Block) : Except Fault Core := do
  let pipe ← c.pipe b
  if !pipe.reading && !pipe.writing then
    check .checkBufferFree (pipe.readpid = none)
    return (c.setPipe b none).record (.pipeFreed b)
  else return c

/-- `pipe_writer_destroy`. -/
def pipeWriterDestroy (c : Core) (fh b : Block) : Except Fault Core := do
  let pipe ← c.pipe b
  check .pipeWriterDestroy (pipe.writing = true)
  let c := (c.setPipe b (some { pipe with writing := false })).record (.writerClosed b)
  let c ← c.wakeUpReader b
  let c ← c.checkBufferFree b
  return c.setHandle fh none

/-- `pipe_reader_destroy`. -/
def pipeReaderDestroy (c : Core) (fh b : Block) : Except Fault Core := do
  let pipe ← c.pipe b
  check .pipeReaderDestroy (pipe.reading = true)
  let c := c.setPipe b (some { pipe with reading := false })
  let c ← c.checkBufferFree b
  return c.setHandle fh none

/-- `pipe_reader_read`: the new state, the result, and the bytes moved to the
buffer. -/
def pipeReaderRead (c : Core) (b : Block) (count : ℕ) :
    Except Fault (Core × Word × List UInt8) := do
  let pipe ← c.pipe b
  if pipe.readpid ≠ none then
    return (c, failure ebadf, [])
  else if 0 < pipe.len then
    let copy := if count < pipe.len then count else pipe.len
    let buf := loadBytes pipe.data 0 copy
    let data :=
      if copy < pipe.len then memmove pipe.data 0 copy (pipe.len - copy) else pipe.data
    let c := c.setPipe b (some { pipe with data := data, len := pipe.len - copy })
    return (c.record (.delivered b count buf), BitVec.ofNat 32 copy, buf)
  else if !pipe.writing then
    return (c.record (.delivered b count []), 0, [])
  else
    let pid ← c.currentProcess
    let c := c.setPipe b (some { pipe with readpid := some (c.processes pid).pid })
    let c ← c.suspendProcess pid
    return (c, failure esuspend, [])

/-! ## File handles -/

/-- The handle constructors `new_screen_handle`, `new_pipe_writer`,
`new_pipe_reader` and `new_file`, which differ in the kind of the handle only. -/
def newHandle (c : Core) (kind : HandleKind) : Except Fault (Core × Block) := do
  let (c, fh) ← c.kmalloc 36
  return (c.setHandle fh (some ⟨kind, 1, 0, 0⟩), fh)

/-- `new_screen_handle`. -/
def newScreenHandle (c : Core) : Except Fault (Core × Block) := c.newHandle .screen

/-- `new_pipe_writer`. -/
def newPipeWriter (c : Core) (b : Block) : Except Fault (Core × Block) :=
  c.newHandle (.pipeWriter b)

/-- `new_pipe_reader`. -/
def newPipeReader (c : Core) (b : Block) : Except Fault (Core × Block) :=
  c.newHandle (.pipeReader b)

/-- `new_file`, for a directory or a file. -/
def newFile (c : Core) (entry : DirectoryEntry) : Except Fault (Core × Block) :=
  c.newHandle (if entry.isDir then .dir entry else .file entry)

/-- The `destroy` function of a handle. -/
def destroy (c : Core) (fh : Block) (kind : HandleKind) : Except Fault Core :=
  match kind with
  | .pipeWriter b => c.pipeWriterDestroy fh b
  | .pipeReader b => c.pipeReaderDestroy fh b
  | .screen | .file _ | .dir _ => .ok (c.setHandle fh none)

/-- `close_filehandle`. -/
def closeFilehandle (c : Core) (fh : Block) : Except Fault Core := do
  let handle ← c.handle fh
  check .closeFilehandle (1 ≤ handle.refcount)
  let c := c.setHandle fh (some { handle with refcount := handle.refcount - 1 })
  if handle.refcount - 1 = 0 then c.destroy fh handle.kind else return c

/-- `fh->refcount++`. -/
def retain (c : Core) (fh : Block) : Except Fault Core := do
  let handle ← c.handle fh
  return c.setHandle fh (some { handle with refcount := handle.refcount + 1 })

/-- Make a descriptor refer to a handle. -/
def install (c : Core) (pid : Pid) (fd : Fd) (fh : Block) : Core :=
  (c.setFiledesc pid fd (some fh)).record (.referenced (pid, fd))

/-- Close the handle of a descriptor, without clearing the descriptor. -/
def closeDescriptor (c : Core) (pid : Pid) (fd : Fd) (fh : Block) : Except Fault Core := do
  let c ← c.closeFilehandle fh
  return c.record (.closed (pid, fd))

/-! ## System calls on descriptors -/

/-- The descriptor an `int` argument stands for, unless it is out of range. -/
def descriptor (word : Word) : Option Fd :=
  if h : word.toNat < 16 then some ⟨word.toNat, h⟩ else none

/-- The handle behind a descriptor argument of a process. -/
def lookup (c : Core) (pid : Pid) (word : Word) : Option (Fd × Block) := do
  let fd ← descriptor word
  let fh ← (c.processes pid).filedesc fd
  return (fd, fh)

/-- `syscall_close`. -/
def syscallClose (c : Core) (pid : Pid) (fd : Word) : Except Fault (Core × Word) :=
  match c.lookup pid fd with
  | none => .ok (c, failure ebadf)
  | some (fd, fh) => do
      let c ← c.closeDescriptor pid fd fh
      return (c.setFiledesc pid fd none, 0)

/-- The second half of `syscall_dup2`, for two different descriptors. -/
def redirect (c : Core) (pid : Pid) (fh : Block) (newfd : Fd) : Except Fault Core := do
  let c ←
    match (c.processes pid).filedesc newfd with
    | some old => c.closeDescriptor pid newfd old
    | none => .ok c
  (c.install pid newfd fh).retain fh

/-- `syscall_dup2`. -/
def syscallDup2 (c : Core) (pid : Pid) (oldfd newfd : Word) : Except Fault (Core × Word) :=
  match descriptor oldfd, descriptor newfd with
  | some old, some new =>
      match (c.processes pid).filedesc old with
      | none => .ok (c, failure ebadf)
      | some fh =>
          if old = new then .ok (c, newfd)
          else do
            let c ← c.redirect pid fh new
            return (c, newfd)
  | _, _ => .ok (c, failure ebadf)

/-- The unused descriptors of a process, lowest first. -/
def freeDescriptors (c : Core) (pid : Pid) : List Fd :=
  (List.finRange 16).filter fun fd => ((c.processes pid).filedesc fd).isNone

/-- `syscall_pipe` after the check of its argument: the new state, and the two
descriptors, or `none` where the source returns `-EMFILE`. -/
def syscallPipe (c : Core) (pid : Pid) : Except Fault (Core × Option (Fd × Fd)) :=
  match c.freeDescriptors pid with
  | readfd :: writefd :: _ => do
      let (c, b) ← c.newPipe
      let (c, reader) ← c.newPipeReader b
      let c := c.install pid readfd reader
      let (c, writer) ← c.newPipeWriter b
      let c := c.install pid writefd writer
      return (c.record (.pipeMade b), some (readfd, writefd))
  | _ => .ok (c, none)

/-- `syscall_open` once the path is resolved: the handle goes to the descriptor
`fd`. -/
def openEntry (c : Core) (pid : Pid) (fd : Fd) (entry : DirectoryEntry) : Except Fault Core := do
  let (c, fh) ← c.newFile entry
  return c.install pid fd fh

/-- `file_read` on a file of the image. -/
def fileRead (c : Core) (fh : Block) (handle : FileHandle) (contents : List UInt8) (count : ℕ) :
    Except Fault (Core × Word × List UInt8) :=
  if contents.length ≤ handle.pos then .ok (c, 0, [])
  else
    let count :=
      if contents.length < (handle.pos + count) % wordCount then contents.length - handle.pos
      else count
    if contents.length < handle.pos + count then .error .overrun
    else
      .ok (c.setHandle fh (some { handle with pos := handle.pos + count }),
        BitVec.ofNat 32 count, (contents.drop handle.pos).take count)

/-- The `read` function of a handle. -/
def readHandle (c : Core) (fh : Block) (count : ℕ) : Except Fault (Core × Word × List UInt8) := do
  let handle ← c.handle fh
  match handle.kind with
  | .screen | .pipeWriter _ => return (c, failure einval, [])
  | .pipeReader b => c.pipeReaderRead b count
  | .dir _ => return (c, failure eisdir, [])
  | .file entry => c.fileRead fh handle entry.contents count

/-- The `write` function of a handle.  `buf` reads the bytes from user memory.
What goes to the screen is not part of the state. -/
def writeHandle (c : Core) (fh : Block) (buf : Except Fault (List UInt8)) :
    Except Fault (Core × Word) := do
  let handle ← c.handle fh
  match handle.kind with
  | .screen =>
      let buf ← buf
      return (c, BitVec.ofNat 32 buf.length)
  | .pipeWriter b =>
      let buf ← buf
      let c ← c.writeToPipe b buf
      return (c, BitVec.ofNat 32 buf.length)
  | .pipeReader _ => return (c, failure einval)
  | .dir _ | .file _ => return (c, failure ebadf)

end Rhythmos.Kernel.Core
