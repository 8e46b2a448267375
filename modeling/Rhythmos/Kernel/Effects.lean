import Rhythmos.Kernel.PipeStreams
import Rhythmos.Kernel.Progress

/-!
# Effects of the kernel's functions

What no function on the kernel's data does: store through a user pointer by itself,
let a pipe outgrow its buffer, or make a handle of an object that is not a file of the
image refer to a longer one.  `Tame` relates the data before and after a function, and
`Silent` says that every successful outcome of a computation is related to its start.
-/

namespace Rhythmos.Kernel

open Fallible ByteMemory Libc

/-- The event is a store through a user pointer: the process, the address and the
number of bytes. -/
def Happening.onUser : Happening → Option (Pid × ℕ × ℕ)
  | .stored pid address count => some (pid, address, count)
  | _ => none

/-- Any outcome is allowed. -/
def anyFault (_ : Fault) : Prop := True

theorem ensures_any {A : Type} (outcome : Except Fault A) :
    Ensures anyFault outcome fun _ => True := by
  cases outcome with
  | error fault => exact ensures_error.mpr trivial
  | ok value => exact ensures_ok.mpr trivial

namespace Core

/-- The stores through user pointers, newest first. -/
def userStores (c : Core) : List (Pid × ℕ × ℕ) := c.history.filterMap Happening.onUser

/-- The contents of a pipe fit its buffer, which fits the kernel heap, and files are
shorter than 2MB. -/
structure Sized (c : Core) : Prop where
  pipes : ∀ b pipe, c.pipes b = some pipe → pipe.len ≤ pipe.alloc ∧ pipe.alloc ≤ kernelMemSize
  files : ∀ fh handle entry, c.handles fh = some handle → handle.kind = .file entry →
    entry.contents.length < 2 * mb

/-- A change that stores nothing through a user pointer and respects the sizes. -/
structure Tame (c c' : Core) : Prop where
  stores : c'.userStores = c.userStores
  sized : c.Sized → c'.Sized

theorem Tame.refl (c : Core) : Tame c c := ⟨rfl, id⟩

theorem Tame.trans {c₁ c₂ c₃ : Core} (hfirst : Tame c₁ c₂) (hsecond : Tame c₂ c₃) :
    Tame c₁ c₃ :=
  ⟨hsecond.stores.trans hfirst.stores, hsecond.sized ∘ hfirst.sized⟩

/-- A change of neither pipes nor handles. -/
theorem Tame.of_eq {c c' : Core} (hstores : c'.userStores = c.userStores)
    (hpipes : c'.pipes = c.pipes) (hhandles : c'.handles = c.handles) : Tame c c' where
  stores := hstores
  sized hsized := ⟨by rw [hpipes]; exact hsized.pipes, by rw [hhandles]; exact hsized.files⟩

theorem Tame.setPipe {c c' : Core} (htame : Tame c c') (b : Block) {pipe : PipeBuffer}
    (hpipe : c.Sized → pipe.len ≤ pipe.alloc ∧ pipe.alloc ≤ kernelMemSize) :
    Tame c (c'.setPipe b (some pipe)) where
  stores := htame.stores
  sized hsized := by
    refine ⟨fun b' pipe' hpipe' => ?_, (htame.sized hsized).files⟩
    by_cases hb : b' = b
    · subst hb
      obtain rfl : pipe = pipe' := by simpa using hpipe'
      exact hpipe hsized
    · exact (htame.sized hsized).pipes b' pipe' (by simpa [hb] using hpipe')

theorem Tame.dropPipe {c c' : Core} (htame : Tame c c') (b : Block) :
    Tame c (c'.setPipe b none) where
  stores := htame.stores
  sized hsized := by
    refine ⟨fun b' pipe' hpipe' => ?_, (htame.sized hsized).files⟩
    by_cases hb : b' = b
    · simp [hb] at hpipe'
    · exact (htame.sized hsized).pipes b' pipe' (by simpa [hb] using hpipe')

theorem Tame.setHandle {c c' : Core} (htame : Tame c c') (fh : Block) {handle : FileHandle}
    (hhandle : c.Sized → ∀ entry, handle.kind = .file entry → entry.contents.length < 2 * mb) :
    Tame c (c'.setHandle fh (some handle)) where
  stores := htame.stores
  sized hsized := by
    refine ⟨(htame.sized hsized).pipes, fun fh' handle' entry hhandle' hkind => ?_⟩
    by_cases hfh : fh' = fh
    · subst hfh
      obtain rfl : handle = handle' := by simpa using hhandle'
      exact hhandle hsized entry hkind
    · exact (htame.sized hsized).files fh' handle' entry (by simpa [hfh] using hhandle') hkind

theorem Tame.dropHandle {c c' : Core} (htame : Tame c c') (fh : Block) :
    Tame c (c'.setHandle fh none) where
  stores := htame.stores
  sized hsized := by
    refine ⟨(htame.sized hsized).pipes, fun fh' handle' entry hhandle' hkind => ?_⟩
    by_cases hfh : fh' = fh
    · simp [hfh] at hhandle'
    · exact (htame.sized hsized).files fh' handle' entry (by simpa [hfh] using hhandle') hkind

/-- Every successful outcome is a tame change. -/
def Silent {A : Type} (c : Core) (core : A → Core) (outcome : Except Fault A) : Prop :=
  Ensures anyFault outcome fun value => Tame c (core value)

variable {c : Core} {A B : Type} {core : A → Core} {result : B → Core}

theorem Silent.ok {value : A} (htame : Tame c (core value)) :
    Silent c core (.ok value) := ensures_ok.mpr htame

theorem Silent.error {fault : Fault} : Silent c core (.error fault) := ensures_error.mpr trivial

theorem Silent.bind {first : Except Fault A} {rest : A → Except Fault B}
    (hfirst : Silent c core first) (hrest : ∀ value, Silent (core value) result (rest value)) :
    Silent c result (first >>= rest) := by
  apply ensures_bind hfirst
  intro value htame
  exact ensures_weaken (hrest value) fun _ htame' => htame.trans htame'

/-- A last part that returns at once. -/
theorem Silent.finish {first : Except Fault A} {rest : A → B} (hfirst : Silent c core first)
    (hrest : ∀ value, Tame c (core value) → Tame c (result (rest value))) :
    Silent c result (first >>= fun value => pure (rest value)) :=
  ensures_bind hfirst fun value htame => ensures_ok.mpr (hrest value htame)

/-- A first part that does not change the kernel's data. -/
theorem Silent.after {first : Except Fault A} {rest : A → Except Fault B}
    (hrest : ∀ value, Silent c result (rest value)) : Silent c result (first >>= rest) :=
  ensures_bind (ensures_any first) fun value _ => hrest value

/-- A tame change before the computation. -/
theorem Silent.congr {c' : Core} {outcome : Except Fault A} (hsilent : Silent c' core outcome)
    (htame : Tame c c') : Silent c core outcome :=
  ensures_weaken hsilent fun _ htame' => htame.trans htame'

/-- A tame change before a sequence. -/
theorem Silent.next {c' : Core} {first : Except Fault A} {rest : A → Except Fault B}
    (hfirst : Silent c' core first) (htame : Tame c c')
    (hrest : ∀ value, Silent (core value) result (rest value)) :
    Silent c result (first >>= rest) :=
  (hfirst.congr htame).bind hrest

theorem Silent.foldlM {Item : Type} {step : Core → Item → Except Fault Core}
    (hstep : ∀ c item, Silent c id (step c item)) (items : List Item) (c : Core) :
    Silent c id (items.foldlM step c) := by
  induction items generalizing c with
  | nil => exact .ok (.refl c)
  | cons item items ih =>
      rw [List.foldlM_cons]
      exact (hstep c item).bind fun c' => ih c'

theorem ensures_pipe (c : Core) (b : Block) :
    Ensures anyFault (c.pipe b) fun pipe => c.pipes b = some pipe := by
  rw [pipe]
  cases c.pipes b with
  | none => exact ensures_error.mpr trivial
  | some pipe => exact ensures_ok.mpr rfl

theorem ensures_handle (c : Core) (fh : Block) :
    Ensures anyFault (c.handle fh) fun handle => c.handles fh = some handle := by
  rw [handle]
  cases c.handles fh with
  | none => exact ensures_error.mpr trivial
  | some handle => exact ensures_ok.mpr rfl

/-! ## Lists of processes -/

/-- A change of list pointers. -/
theorem Tame.of_unlinked {c c' : Core} (hsame : c'.unlinked = c.unlinked) : Tame c c' := by
  have hhistory := congrArg Core.history hsame
  have hpipes := congrArg Core.pipes hsame
  have hhandles := congrArg Core.handles hsame
  exact .of_eq (congrArg (List.filterMap Happening.onUser) hhistory) hpipes hhandles

theorem tame_modify (c : Core) (pid : Pid) (change : Process → Process) :
    Tame c (c.modify pid change) :=
  .of_eq rfl rfl rfl

theorem tame_listAdd (c : Core) (queue : Queue) (pid : Pid) : Tame c (c.listAdd queue pid) :=
  .of_unlinked (unlinked_listAdd c queue pid)

theorem tame_listRemove (c : Core) (queue : Queue) (pid : Pid) :
    Tame c (c.listRemove queue pid) :=
  .of_unlinked (unlinked_listRemove c queue pid)

theorem silent_suspendProcess (c : Core) (pid : Pid) : Silent c id (c.suspendProcess pid) := by
  have hmodify := tame_modify c pid fun proc => { proc with ready := false }
  have hremove := hmodify.trans (tame_listRemove _ .ready pid)
  exact .after fun _ => .after fun _ => .ok (hremove.trans (tame_listAdd _ .suspended pid))

theorem silent_resumeProcess (c : Core) (pid : Pid) : Silent c id (c.resumeProcess pid) := by
  have hmodify := tame_modify c pid fun proc => { proc with ready := true }
  have hremove := hmodify.trans (tame_listRemove _ .suspended pid)
  exact .after fun _ => .after fun _ => .ok (hremove.trans (tame_listAdd _ .ready pid))

theorem silent_kmalloc (c : Core) (nbytes : ℕ) : Silent c Prod.fst (c.kmalloc nbytes) := by
  rw [kmalloc]
  split
  · exact .ok (.of_eq rfl rfl rfl)
  · exact .error

/-! ## Pipes and handles -/

theorem silent_wakeUpReader (c : Core) (b : Block) : Silent c id (c.wakeUpReader b) := by
  apply ensures_bind (ensures_pipe c b)
  intro pipe hpipe
  split
  · exact (silent_resumeProcess c _).finish fun c' htame =>
      htame.setPipe b fun hsized => hsized.pipes b pipe hpipe
  · exact Silent.ok (.refl c)

theorem silent_newPipe (c : Core) : Silent c Prod.fst c.newPipe :=
  (silent_kmalloc c _).bind fun _ => (silent_kmalloc _ _).finish fun _ htame =>
    htame.setPipe _ fun _ => ⟨Nat.zero_le _, show bufsize ≤ kernelMemSize by decide⟩

/-- The buffer has room for `needed` bytes, within the kernel heap. -/
def RoomFor (c : Core) (pipe : PipeBuffer) (needed : ℕ) (grown : Core × PipeBuffer) : Prop :=
  Tame c grown.1 ∧ needed ≤ grown.2.alloc ∧
    (pipe.alloc ≤ kernelMemSize → grown.2.alloc ≤ kernelMemSize)

theorem ensures_kmalloc (c : Core) (nbytes : ℕ) :
    Ensures anyFault (c.kmalloc nbytes) fun value => Tame c value.1 ∧ nbytes < kernelMemSize := by
  rw [kmalloc]
  split
  · exact ensures_ok.mpr ⟨.of_eq rfl rfl rfl, ‹_›⟩
  · exact ensures_error.mpr trivial

theorem ensures_growAlloc (needed rounds alloc : ℕ) :
    Ensures anyFault (growAlloc needed rounds alloc) fun result => needed ≤ result := by
  cases hgrow : growAlloc needed rounds alloc with
  | error fault => exact ensures_error.mpr trivial
  | ok result => exact ensures_ok.mpr (growAlloc_ge hgrow)

theorem roomFor_makeRoom (c : Core) (pipe : PipeBuffer) (needed : ℕ) :
    Ensures anyFault (c.makeRoom pipe needed) (RoomFor c pipe needed) := by
  rw [makeRoom]
  split
  · apply ensures_bind (ensures_growAlloc needed 33 pipe.alloc)
    intro alloc hneeded
    apply ensures_bind (ensures_kmalloc c alloc)
    rintro ⟨c', newdata⟩ ⟨htame, hsmall⟩
    exact ensures_ok.mpr ⟨htame, hneeded, fun _ => hsmall.le⟩
  · exact ensures_ok.mpr ⟨.refl c, Nat.le_of_not_lt ‹_›, id⟩

theorem silent_writeToPipe (c : Core) (b : Block) (buf : List UInt8) :
    Silent c id (c.writeToPipe b buf) := by
  apply ensures_bind (ensures_pipe c b)
  intro pipe hpipe
  apply ensures_bind (roomFor_makeRoom c pipe _)
  rintro ⟨c', pipe'⟩ ⟨htame, hneeded, halloc⟩
  have hset : Tame c (c'.setPipe b (some { pipe' with
      data := storeBytes pipe'.data pipe'.len buf
      len := (pipe.len + buf.length) % wordCount })) :=
    htame.setPipe b fun hsized => ⟨hneeded, halloc (hsized.pipes b pipe hpipe).2⟩
  exact (silent_wakeUpReader _ b).congr (hset.trans (.of_eq rfl rfl rfl))

theorem silent_checkBufferFree (c : Core) (b : Block) : Silent c id (c.checkBufferFree b) := by
  refine .after fun pipe => ?_
  split
  · exact .after fun _ => .ok (((Tame.refl c).dropPipe b).trans (.of_eq rfl rfl rfl))
  · exact .ok (.refl c)

theorem silent_pipeWriterDestroy (c : Core) (fh b : Block) :
    Silent c id (c.pipeWriterDestroy fh b) := by
  apply ensures_bind (ensures_pipe c b)
  intro pipe hpipe
  have hset : Tame c (c.setPipe b (some { pipe with writing := false })) :=
    (Tame.refl c).setPipe b fun hsized => hsized.pipes b pipe hpipe
  refine Silent.after fun _ => ((silent_wakeUpReader _ b).congr ?_).bind fun c₁ => ?_
  · exact hset.trans (.of_eq rfl rfl rfl)
  · exact (silent_checkBufferFree c₁ b).finish fun _ htame => htame.dropHandle fh

theorem silent_pipeReaderDestroy (c : Core) (fh b : Block) :
    Silent c id (c.pipeReaderDestroy fh b) := by
  apply ensures_bind (ensures_pipe c b)
  intro pipe hpipe
  have hset : Tame c (c.setPipe b (some { pipe with reading := false })) :=
    (Tame.refl c).setPipe b fun hsized => hsized.pipes b pipe hpipe
  exact Silent.after fun _ => ((silent_checkBufferFree _ b).congr hset).finish fun _ htame =>
    htame.dropHandle fh

/-- Files are shorter than 2MB. -/
def ShortKind (kind : HandleKind) : Prop :=
  ∀ entry, kind = .file entry → entry.contents.length < 2 * mb

theorem short_screen : ShortKind .screen := fun _ h => by cases h

theorem short_pipeReader (b : Block) : ShortKind (.pipeReader b) := fun _ h => by cases h

theorem short_pipeWriter (b : Block) : ShortKind (.pipeWriter b) := fun _ h => by cases h

theorem silent_newHandle (c : Core) {kind : HandleKind} (hshort : ShortKind kind) :
    Silent c Prod.fst (c.newHandle kind) :=
  (silent_kmalloc c _).finish fun _ htame => htame.setHandle _ fun _ => hshort

theorem silent_closeFilehandle (c : Core) (fh : Block) : Silent c id (c.closeFilehandle fh) := by
  apply ensures_bind (ensures_handle c fh)
  intro handle hhandle
  have hset : Tame c (c.setHandle fh
      (some { handle with refcount := handle.refcount - 1 })) :=
    (Tame.refl c).setHandle fh fun hsized entry => hsized.files fh handle entry hhandle
  refine Silent.after fun _ => ?_
  split
  · unfold destroy
    split
    · exact (silent_pipeWriterDestroy _ fh _).congr hset
    · exact (silent_pipeReaderDestroy _ fh _).congr hset
    · exact .ok (hset.dropHandle fh)
    · exact .ok (hset.dropHandle fh)
    · exact .ok (hset.dropHandle fh)
  · exact .ok hset

theorem silent_closeDescriptor (c : Core) (pid : Pid) (fd : Fd) (fh : Block) :
    Silent c id (c.closeDescriptor pid fd fh) :=
  (silent_closeFilehandle c fh).finish fun _ htame => htame.trans (.of_eq rfl rfl rfl)

theorem silent_retain (c : Core) (fh : Block) : Silent c id (c.retain fh) := by
  apply ensures_bind (ensures_handle c fh)
  intro handle hhandle
  exact Silent.ok ((Tame.refl c).setHandle fh fun hsized entry =>
    hsized.files fh handle entry hhandle)

theorem silent_syscallClose (c : Core) (pid : Pid) (fd : Word) :
    Silent c Prod.fst (c.syscallClose pid fd) := by
  rw [syscallClose]
  split
  · exact .ok (.refl c)
  · exact (silent_closeDescriptor c pid _ _).finish fun _ htame =>
      htame.trans (.of_eq rfl rfl rfl)

theorem silent_redirect (c : Core) (pid : Pid) (fh : Block) (newfd : Fd) :
    Silent c id (c.redirect pid fh newfd) := by
  rw [redirect]
  cases (c.processes pid).filedesc newfd with
  | none => exact (silent_retain _ fh).congr (.of_eq rfl rfl rfl)
  | some old =>
      exact (silent_closeDescriptor c pid newfd old).bind fun _ =>
        (silent_retain _ fh).congr (.of_eq rfl rfl rfl)

theorem silent_syscallDup2 (c : Core) (pid : Pid) (oldfd newfd : Word) :
    Silent c Prod.fst (c.syscallDup2 pid oldfd newfd) := by
  rw [syscallDup2]
  split
  · split
    · exact .ok (.refl c)
    · split
      · exact .ok (.refl c)
      · exact (silent_redirect c pid _ _).bind fun _ => .ok (.refl _)
  · exact .ok (.refl c)

theorem silent_syscallPipe (c : Core) (pid : Pid) : Silent c Prod.fst (c.syscallPipe pid) := by
  rw [syscallPipe]
  split
  · refine (silent_newPipe c).bind fun _ => ?_
    refine (silent_newHandle _ (short_pipeReader _)).bind ?_
    rintro ⟨c₁, reader⟩
    refine .next (silent_newHandle _ (short_pipeWriter _)) (.of_eq rfl rfl rfl) fun _ => ?_
    exact .ok (.of_eq rfl rfl rfl)
  · exact .ok (.refl c)

theorem silent_openEntry (c : Core) (pid : Pid) (fd : Fd) {entry : DirectoryEntry}
    (hshort : entry.contents.length < 2 * mb) : Silent c id (c.openEntry pid fd entry) := by
  refine (silent_newHandle c ?_).finish fun _ htame => htame.trans (.of_eq rfl rfl rfl)
  intro other hkind
  split at hkind
  · cases hkind
  · obtain rfl := HandleKind.file.inj hkind
    exact hshort

theorem silent_writeHandle (c : Core) (fh : Block) (buf : Except Fault (List UInt8)) :
    Silent c Prod.fst (c.writeHandle fh buf) := by
  refine .after fun handle => ?_
  cases handle.kind with
  | screen => exact .after fun _ => .ok (.refl c)
  | pipeWriter b =>
      exact .after fun bytes => (silent_writeToPipe c b bytes).bind fun _ => .ok (.refl _)
  | pipeReader b => exact .ok (.refl c)
  | file entry => exact .ok (.refl c)
  | dir entry => exact .ok (.refl c)

/-- A read is tame and returns at most `count` bytes. -/
def SilentRead (c : Core) (count : ℕ) (outcome : Except Fault (Core × Word × List UInt8)) : Prop :=
  Ensures anyFault outcome fun value => Tame c value.1 ∧ value.2.2.length ≤ count

theorem SilentRead.of_tame {c c' : Core} {count : ℕ} {res : Word} {bytes : List UInt8}
    (htame : Tame c c') (hlength : bytes.length ≤ count) :
    SilentRead c count (.ok (c', res, bytes)) :=
  ensures_ok.mpr ⟨htame, hlength⟩

theorem SilentRead.empty (c : Core) (count : ℕ) (res : Word) :
    SilentRead c count (.ok (c, res, [])) :=
  .of_tame (.refl c) (Nat.zero_le _)

theorem silentRead_pipeReaderRead (c : Core) (b : Block) (count : ℕ) :
    SilentRead c count (c.pipeReaderRead b count) := by
  apply ensures_bind (ensures_pipe c b)
  intro pipe hpipe
  split
  · exact SilentRead.empty c count _
  · split
    · have hcopy : (if count < pipe.len then count else pipe.len) ≤ count := by
        split <;> omega
      refine SilentRead.of_tame ?_ ((length_loadBytes _ _ _).trans_le hcopy)
      refine ((Tame.refl c).setPipe b fun hsized => ?_).trans (.of_eq rfl rfl rfl)
      obtain ⟨hlen, halloc⟩ := hsized.pipes b pipe hpipe
      exact ⟨(Nat.sub_le _ _).trans hlen, halloc⟩
    · split
      · exact SilentRead.of_tame (.of_eq rfl rfl rfl) (Nat.zero_le _)
      · refine ensures_bind (ensures_any _) fun pid _ => ?_
        have hset : Tame c (c.setPipe b (some { pipe with
            readpid := some (c.processes pid).pid })) :=
          (Tame.refl c).setPipe b fun hsized => hsized.pipes b pipe hpipe
        refine ensures_bind (silent_suspendProcess _ pid) fun c' htame => ?_
        exact ensures_ok.mpr ⟨hset.trans htame, Nat.zero_le _⟩

theorem silentRead_fileRead (c : Core) (fh : Block) {handle : FileHandle}
    {entry : DirectoryEntry} (hhandle : c.handles fh = some handle) (count : ℕ) :
    SilentRead c count (c.fileRead fh handle entry.contents count) := by
  rw [fileRead]
  split
  · exact .empty c count _
  · have hmod := Nat.mod_le (handle.pos + count) wordCount
    have hcopied : (if entry.contents.length < (handle.pos + count) % wordCount then
        entry.contents.length - handle.pos else count) ≤ count := by
      split <;> omega
    dsimp only
    generalize (if entry.contents.length < (handle.pos + count) % wordCount then
      entry.contents.length - handle.pos else count) = copied at hcopied ⊢
    split
    · exact ensures_error.mpr trivial
    · refine .of_tame ((Tame.refl c).setHandle fh fun hsized other hother => ?_)
        ((List.length_take_le _ _).trans hcopied)
      exact hsized.files fh handle other hhandle hother

theorem silentRead_readHandle (c : Core) (fh : Block) (count : ℕ) :
    SilentRead c count (c.readHandle fh count) := by
  apply ensures_bind (ensures_handle c fh)
  intro handle hhandle
  cases hkind : handle.kind with
  | screen => exact SilentRead.empty c count _
  | pipeWriter b => exact SilentRead.empty c count _
  | pipeReader b => exact silentRead_pipeReaderRead c b count
  | dir entry => exact SilentRead.empty c count _
  | file entry => exact silentRead_fileRead c fh hhandle count

/-! ## Messages and processes -/

theorem silent_reserveMessage (c : Core) (dest : Pid) :
    Ensures anyFault (c.reserveMessage dest) fun reserved =>
      ∀ value, reserved = some value → Tame c value.1 := by
  rw [reserveMessage]
  split
  · refine ensures_bind (silent_kmalloc c _) fun value htame => ensures_ok.mpr ?_
    rintro _ ⟨⟩
    exact htame.trans (.of_eq rfl rfl rfl)
  · split
    · refine ensures_ok.mpr ?_
      rintro _ ⟨⟩
      exact .of_eq rfl rfl rfl
    · exact ensures_ok.mpr fun _ h => by cases h

theorem silent_wakeUpReceiver (c : Core) (dest : Pid) : Silent c id (c.wakeUpReceiver dest) := by
  rw [wakeUpReceiver]
  split
  · exact (silent_resumeProcess c dest).finish fun _ htame => htame.trans (.of_eq rfl rfl rfl)
  · exact .ok (.refl c)

theorem silent_syscallSend (c : Core) (pid : Pid) (target tag : Word) (size : ℕ)
    (data : Except Fault (List UInt8)) :
    Silent c Prod.fst (c.syscallSend pid target tag size data) := by
  rw [syscallSend]
  split
  · exact .ok (.refl c)
  · split
    · exact .ok (.refl c)
    · split
      · exact .ok (.refl c)
      · apply ensures_bind (silent_reserveMessage c _)
        intro reserved hreserved
        cases reserved with
        | none => exact Silent.ok (.refl c)
        | some value =>
            refine Silent.congr ?_ (hreserved value rfl)
            refine .after fun bytes => ?_
            split
            · exact .next (silent_wakeUpReceiver _ _) (.of_eq rfl rfl rfl) fun _ => .ok (.refl _)
            · exact ensures_error.mpr trivial

theorem silent_syscallReceive (c : Core) (pid : Pid) (block : Word) :
    Silent c Prod.fst (c.syscallReceive pid block) := by
  rw [syscallReceive]
  split
  · split
    · exact .error
    · exact .ok (.of_eq rfl rfl rfl)
  · split
    · exact .next (silent_suspendProcess _ pid) (.of_eq rfl rfl rfl) fun _ => .ok (.refl _)
    · exact .ok (.refl c)

theorem silent_syscallWaitpid (c : Core) (pid : Pid) (child : Word) :
    Silent c Prod.fst (c.syscallWaitpid pid child) := by
  rw [syscallWaitpid]
  split
  · exact .ok (.refl c)
  · dsimp only
    split
    · exact .ok (.of_eq rfl rfl rfl)
    · split
      · exact .ok (.of_eq rfl rfl rfl)
      · exact .next (silent_suspendProcess _ pid) (.of_eq rfl rfl rfl) fun _ => .ok (.refl _)

theorem silent_inheritHandle (parent child : Pid) (c : Core) (fd : Fd) :
    Silent c id (inheritHandle parent child c fd) := by
  rw [inheritHandle]
  split
  · exact (silent_retain _ _).congr (.of_eq rfl rfl rfl)
  · exact .ok (.refl c)

theorem tame_makeReady (c : Core) (pid : Pid) : Tame c (c.makeReady pid) :=
  (tame_modify c pid _).trans (tame_listAdd _ .ready pid)

theorem silent_forkProcess (c : Core) (parent child : Pid) (r : Regs) (vfork : Bool) :
    Silent c id (c.forkProcess parent child r vfork) := by
  rw [forkProcess]
  refine ((Silent.foldlM (silent_inheritHandle parent child) _ _).congr ?_).finish
    fun c' htame => htame.trans (.trans ?_ (tame_makeReady _ child))
  · cases vfork <;> exact .of_eq rfl rfl rfl
  · cases vfork <;> exact .of_eq rfl rfl rfl

theorem silent_startProcess (c : Core) (pid : Pid) (stackEnd startAddress : Word) :
    Silent c id (c.startProcess pid stackEnd startAddress) := by
  rw [startProcess]
  refine .next (silent_newPipe _) (.of_eq rfl rfl rfl) ?_
  rintro ⟨c₁, b⟩
  refine (silent_newHandle c₁ (short_pipeReader b)).bind ?_
  rintro ⟨c₂, stdin⟩
  refine .next (silent_newHandle _ short_screen) (.of_eq rfl rfl rfl) ?_
  rintro ⟨c₃, stdout⟩
  refine .next (silent_newHandle _ short_screen) (.of_eq rfl rfl rfl) ?_
  rintro ⟨c₄, stderr⟩
  have hinstall : Tame c₄ (c₄.install pid 2 stderr) := .of_eq rfl rfl rfl
  exact .ok ((hinstall.trans (tame_modify _ pid _)).trans (tame_makeReady _ pid))

theorem silent_closeHandles (c : Core) (pid : Pid) : Silent c id (c.closeHandles pid) := by
  refine Silent.foldlM (fun c fd => ?_) _ _
  rw [closeHandleOf]
  split
  · exact silent_closeDescriptor c pid fd _
  · exact .ok (.refl c)

theorem tame_detach (c : Core) (pid : Pid) : Tame c (c.detach pid) := by
  refine .trans ?_ (tame_listRemove _ _ pid)
  split
  · exact .of_eq rfl rfl rfl
  · exact .refl c

theorem silent_notifyParent (c : Core) (pid : Pid) : Silent c id (c.notifyParent pid) := by
  rw [notifyParent]
  split
  · exact .ok (.of_eq rfl rfl rfl)
  · split
    · exact (silent_resumeProcess _ _).congr (.of_eq rfl rfl rfl)
    · exact .ok (.refl c)

theorem silent_finish (c : Core) (pid : Pid) : Silent c id (c.finish pid) := by
  refine ((silent_notifyParent _ pid).congr ?_).finish fun _ htame =>
    htame.trans (.of_eq rfl rfl rfl)
  rw [freeMailbox]
  cases (c.processes pid).mailbox <;> exact .of_eq rfl rfl rfl

end Core

end Rhythmos.Kernel
