import Rhythmos.Kernel.Confinement

/-!
# Failed system calls

Fourteen of the calls leave everything as it was when they return an error, apart from
the record of what happened.  A result that only looks negative, because so many bytes
were moved, does not occur: pipes fit the kernel heap and files are short, in every state
of every run, and the segments of a process lie above the kernel heap.
-/

namespace Rhythmos.Kernel

open Fallible ByteMemory Libc

namespace Machine

open Rhythmos.Kernel.Core

variable {m : Machine} {pid : Pid} {r : Regs}

/-! ## Sizes along a run -/

/-- The computation respects the sizes of pipes and files. -/
def Sizing {A : Type} (m : Machine) (machine : A → Machine) (outcome : Except Fault A) : Prop :=
  Ensures anyFault outcome fun value => m.core.Sized → (machine value).core.Sized

theorem Sizing.ok {A : Type} {machine : A → Machine} {value : A}
    (hsized : m.core.Sized → (machine value).core.Sized) : Sizing m machine (.ok value) :=
  ensures_ok.mpr hsized

theorem Sizing.bind {A B : Type} {machine : A → Machine} {result : B → Machine}
    {first : Except Fault A} {rest : A → Except Fault B} (hfirst : Sizing m machine first)
    (hrest : ∀ value, Sizing (machine value) result (rest value)) :
    Sizing m result (first >>= rest) :=
  ensures_bind hfirst fun value hsized =>
    ensures_weaken (hrest value) fun _ hsized' h => hsized' (hsized h)

/-- A change that does not concern pipes and handles, before the computation. -/
theorem Sizing.congr {A : Type} {m' : Machine} {machine : A → Machine} {outcome : Except Fault A}
    (hsizing : Sizing m' machine outcome) (htame : Tame m.core m'.core) :
    Sizing m machine outcome :=
  ensures_weaken hsizing fun _ hsized h => hsized (htame.sized h)

theorem sizing_syscallWaitpid (m : Machine) (pid : Pid) (child status : Word) :
    Sizing m Prod.fst (m.syscallWaitpid pid child status) := by
  refine ensures_bind (silent_syscallWaitpid m.core pid child) ?_
  rintro ⟨core, res, exitStatus⟩ htame
  cases exitStatus with
  | none => exact ensures_ok.mpr htame.sized
  | some word =>
      dsimp only
      split
      · exact ensures_ok.mpr htame.sized
      · exact ensures_weaken (sized_copyOut (fun _ => rfl) htame) fun _ h => h.2

theorem sizing_dispatch (m : Machine) (pid : Pid) (r : Regs) :
    Sizing m Prod.fst (m.dispatch pid r) := by
  by_cases hcall : Call.ofNumber r.eax.toNat = some .waitpid
  · rw [dispatch, hcall]
    exact (sizing_syscallWaitpid m pid _ _).bind fun _ => .ok id
  · have hother : ¬ WaitsAstray m pid r := fun hwaits => hcall hwaits.1
    exact ensures_weaken (within_dispatch hother) fun _ h => h.2

theorem tame_storeErrno (m : Machine) (callNo : ℕ) (res : Word) :
    Tame m.core (m.storeErrno callNo res).1.core := by
  rw [storeErrno]
  split
  · exact .refl _
  · split
    · exact .refl _
    · split
      · exact .of_eq rfl rfl rfl
      · exact .of_eq rfl rfl rfl

theorem sizing_syscall {contextSwitch : Machine → Regs → Except Fault (Machine × Regs)}
    (hswitch : ∀ m r, Sizing m Prod.fst (contextSwitch m r)) (m : Machine) (r : Regs) :
    Sizing m Prod.fst (syscall contextSwitch m r) := by
  rw [syscall]
  split
  · exact ensures_error.mpr trivial
  · rename_i pid _
    have hentered : Tame m.core (m.entered pid r).core := .of_eq rfl rfl rfl
    refine Sizing.congr ?_ hentered
    refine (sizing_dispatch (m.entered pid r) pid r).bind ?_
    rintro ⟨m₁, r₁, res⟩
    have herrno := tame_storeErrno m₁ r.eax.toNat res
    dsimp only
    split
    · exact (hswitch _ r₁).congr herrno
    · have hleft := herrno.trans (tame_modify (m₁.storeErrno r.eax.toNat res).1.core pid
        fun proc => { proc with inSyscall := 0 })
      split
      · exact (hswitch _ _).congr hleft
      · exact .ok hleft.sized

theorem tame_saveRegs (m : Machine) (r : Regs) : Tame m.core (m.saveRegs r).core := by
  rw [saveRegs]
  split
  · exact .of_eq rfl rfl rfl
  · exact .refl _

theorem sizing_contextSwitch (depth : ℕ) (m : Machine) (r : Regs) :
    Sizing m Prod.fst (contextSwitch depth m r) := by
  induction depth generalizing m r with
  | zero => exact ensures_error.mpr trivial
  | succ depth ih =>
      refine Sizing.congr ?_ (tame_saveRegs m r)
      rw [contextSwitch]
      dsimp only
      split
      · rename_i next _
        have hactive : Tame (m.saveRegs r).core ((m.saveRegs r).activate next).core :=
          .of_eq rfl rfl rfl
        split
        · exact (sizing_syscall ih _ _).congr hactive
        · exact .ok hactive.sized
      · exact .ok fun hsized => ⟨hsized.pipes, hsized.files⟩

theorem sizing_startProcess (m : Machine) (startAddress : Word) :
    Sizing m Prod.fst (m.startProcess startAddress) := by
  rw [startProcess]
  split
  · exact .ok id
  · rename_i pid _
    have hspace : Ensures anyFault (m.startSpace pid) fun m' => Tame m.core m'.core :=
      ensures_bind (ensures_any _) fun _ _ => ensures_bind (ensures_any _) fun _ _ =>
        ensures_bind (ensures_any _) fun _ _ => ensures_bind (ensures_any _) fun _ _ =>
        ensures_ok.mpr (.refl _)
    refine ensures_bind hspace fun m' htame => ?_
    refine ensures_bind ((silent_startProcess m'.core pid _ _).congr htame) fun core htame => ?_
    exact ensures_ok.mpr htame.sized

theorem sizing_keyboardHandler (m : Machine) (byte : UInt8) :
    Sizing m id (m.keyboardHandler byte) := by
  rw [keyboardHandler]
  split
  · split
    · exact ensures_bind (silent_writeToPipe m.core _ _) fun core htame =>
        ensures_ok.mpr htame.sized
    · exact .ok id
  · exact .ok id

theorem sizing_fst {A : Type} {outcome : Except Fault (Machine × A)}
    (hsizing : Sizing m Prod.fst outcome) : Sizing m id (Prod.fst <$> outcome) := by
  cases outcome with
  | error fault => exact ensures_error.mpr trivial
  | ok value => exact ensures_ok.mpr (ensures_ok.mp hsizing)

theorem sizing_unhandled (m : Machine) (number : ℕ) : Sizing m id (m.unhandled number) := by
  rw [unhandled]
  split
  · exact ensures_error.mpr trivial
  · exact .ok id

theorem sizing_handle (depth : ℕ) (m : Machine) (event : Event) :
    Sizing m id (handle depth m event) := by
  cases event with
  | startProcess startAddress => exact sizing_fst (sizing_startProcess m startAddress)
  | userStore address byte =>
      rw [handle]
      split
      · exact .ok id
      · exact .ok id
  | timer r => exact sizing_fst (sizing_contextSwitch depth m r)
  | keyboard byte r =>
      exact (sizing_keyboardHandler m byte).bind fun m' =>
        sizing_fst (sizing_contextSwitch depth m' r)
  | trap r => exact sizing_fst (sizing_syscall (sizing_contextSwitch depth) m r)
  | exception number r =>
      rw [handle]
      split
      · split
        · refine ensures_bind (silent_killProcess m _) fun m' htame => ?_
          exact (sizing_fst (sizing_contextSwitch depth m' r)).congr htame
        · exact sizing_unhandled m number
      · exact sizing_unhandled m number

/-- What holds when the first process has been started and does not depend on the pipe that the
keyboard writes to. -/
theorem ensures_kmain {image : Image} {phys : Memory} {junk : Block → Memory} {P : Machine → Prop}
    (hstart : Ensures anyFault ((initial image phys junk).startProcess image.launchShell)
      fun value => P value.1)
    (hconnect : ∀ (m : Machine) (b : Block), P m →
      P (m.setCore { m.core with inputPipe := some b })) :
    Ensures anyFault (kmain image phys junk) P := by
  refine ensures_bind hstart ?_
  rintro ⟨m, created⟩ hm
  cases created with
  | none => exact ensures_error.mpr trivial
  | some pid =>
      simp only [connectKeyboard]
      split
      · exact ensures_error.mpr trivial
      · refine ensures_bind (ensures_any _) fun handle _ => ?_
        split
        · exact ensures_ok.mpr (hconnect m _ hm)
        · exact ensures_error.mpr trivial

theorem sized_kmain (image : Image) (phys : Memory) (junk : Block → Memory) :
    Ensures anyFault (kmain image phys junk) fun m => m.core.Sized := by
  have hinitial : (Machine.initial image phys junk).core.Sized :=
    ⟨fun _ _ h => (by cases h), fun _ _ _ h => (by cases h)⟩
  have hstart := sizing_startProcess (Machine.initial image phys junk) image.launchShell
  exact ensures_kmain (ensures_weaken hstart fun _ hsized => hsized hinitial)
    fun _ _ hsized => ⟨hsized.pipes, hsized.files⟩

/-- In every state of every run, pipes fit the kernel heap and files are short. -/
theorem Reachable.sized {permits : Machine → Event → Prop} {image : Image} {phys : Memory}
    {junk : Block → Memory} (hreachable : Reachable permits image phys junk m) :
    m.core.Sized := by
  induction hreachable with
  | boot hboot =>
      have hsized := sized_kmain image phys junk
      rwa [hboot, ensures_ok] at hsized
  | @step m m' event depth _ _ hhandle ih =>
      have hsized := sizing_handle depth m event
      rw [hhandle] at hsized
      exact ensures_ok.mp hsized ih

/-! ## Results -/

/-- The result of a call that reports an error. -/
def Fails (res : Word) : Prop := res.toInt < 0 ∧ res ≠ failure esuspend

theorem not_fails_of_toNat {word : Word} (hword : word.toNat < 2 ^ 31) : ¬ Fails word := by
  rintro ⟨hneg, -⟩
  rw [BitVec.toInt_eq_toNat_of_lt (by omega)] at hneg
  omega

theorem not_fails_ofNat {n : ℕ} (hn : n < 2 ^ 31) : ¬ Fails (BitVec.ofNat 32 n) := by
  apply not_fails_of_toNat
  rw [BitVec.toNat_ofNat]
  exact (Nat.mod_le _ _).trans_lt hn

theorem not_fails_zero : ¬ Fails 0 := fun hfails => absurd hfails.1 (by decide)

theorem not_fails_esuspend : ¬ Fails (failure esuspend) := fun hfails => hfails.2 rfl

/-- The machine without the record of what happened. -/
def present (m : Machine) : Machine := { m with core := { m.core with history := [] } }

/-- A computation that reports an error has changed nothing. -/
def Clean {A : Type} (m : Machine) (machine : A → Machine) (word : A → Word)
    (outcome : Except Fault A) : Prop :=
  Ensures anyFault outcome fun value => Fails (word value) → (machine value).present = m.present

theorem Clean.same {A : Type} {machine : A → Machine} {word : A → Word} {value : A}
    (hsame : machine value = m) : Clean m machine word (.ok value) :=
  ensures_ok.mpr fun _ => by rw [hsame]

theorem Clean.succeeds {A : Type} {machine : A → Machine} {word : A → Word} {value : A}
    (hres : ¬ Fails (word value)) : Clean m machine word (.ok value) :=
  ensures_ok.mpr fun hfails => absurd hfails hres

theorem Clean.after {A B : Type} {machine : B → Machine} {word : B → Word}
    {first : Except Fault A} {rest : A → Except Fault B}
    (hrest : ∀ value, Clean m machine word (rest value)) :
    Clean m machine word (first >>= rest) :=
  ensures_bind (ensures_any first) fun value _ => hrest value

/-- A computation on the kernel's data that reports an error has changed nothing. -/
def CleanCore (c : Core) (outcome : Except Fault (Core × Word)) : Prop :=
  Ensures anyFault outcome fun value => Fails value.2 → value.1 = c

theorem CleanCore.same {c : Core} {res : Word} : CleanCore c (.ok (c, res)) :=
  ensures_ok.mpr fun _ => rfl

theorem CleanCore.succeeds {c c' : Core} {res : Word} (hres : ¬ Fails res) :
    CleanCore c (.ok (c', res)) :=
  ensures_ok.mpr fun hfails => absurd hfails hres

theorem CleanCore.after {A : Type} {c : Core} {first : Except Fault A}
    {rest : A → Except Fault (Core × Word)} (hrest : ∀ value, CleanCore c (rest value)) :
    CleanCore c (first >>= rest) :=
  ensures_bind (ensures_any first) fun value _ => hrest value

theorem CleanCore.clean {outcome : Except Fault (Core × Word)}
    (hclean : CleanCore m.core outcome) : Clean m Prod.fst Prod.snd (do
      let (core, res) ← outcome
      return (m.setCore core, res)) := by
  refine ensures_bind hclean fun value hsame => ensures_ok.mpr fun hfails => ?_
  rw [hsame hfails]
  rfl

/-! ## Calls on descriptors -/

/-- The segments of a process lie above the kernel heap. -/
structure Placed (space : AddressSpace) : Prop where
  stack : kernelMemSize ≤ space.stackStart
  data : kernelMemSize ≤ space.dataStart
  text : kernelMemSize ≤ space.textStart

theorem Placed.size_lt {space : AddressSpace} (hplaced : Placed space) {ptr size : ℕ}
    (hvalid : validPointer space ptr size = true) : size + kernelMemSize < wordCount := by
  obtain ⟨hstack, hdata, htext⟩ := hplaced
  simp only [validPointer] at hvalid
  split at hvalid
  · rename_i hzero
    rw [hzero]
    decide
  · split at hvalid
    · cases hvalid
    · simp only [within, Bool.or_eq_true, Bool.and_eq_true, decide_eq_true_eq] at hvalid
      omega

/-- A pipe takes fewer than `2 ^ 31` bytes. -/
theorem length_writeToPipe {c : Core} (hsized : c.Sized) (b : Block) {buf : List UInt8}
    (hlength : buf.length + kernelMemSize < wordCount) :
    Ensures anyFault (c.writeToPipe b buf) fun _ => buf.length < 2 ^ 31 := by
  apply ensures_bind (ensures_pipe c b)
  intro pipe hpipe
  obtain ⟨hlen, halloc⟩ := hsized.pipes b pipe hpipe
  apply ensures_bind (roomFor_makeRoom c pipe _)
  rintro ⟨c', pipe'⟩ ⟨-, hneeded, halloc'⟩
  have hsmall : pipe.len + buf.length < wordCount := by omega
  rw [Nat.mod_eq_of_lt hsmall] at hneeded
  have hbound := hneeded.trans (halloc' halloc)
  refine ensures_weaken (ensures_any _) fun _ _ => ?_
  simp only [kernelMemSize] at hbound
  omega

theorem length_loadUser (m : Machine) (address count : ℕ) :
    Ensures anyFault (m.loadUser address count) fun bytes => bytes.length = count :=
  ensures_mono (loadUser_spec m address count) (fun _ _ => trivial) fun _ h => h

theorem clean_syscallWrite (hsized : m.core.Sized) (hplaced : Placed (m.spaces pid))
    (fd buf count : Word) : Clean m Prod.fst Prod.snd (m.syscallWrite pid fd buf count) := by
  rw [syscallWrite]
  split
  · exact .same rfl
  · rename_i hvalid
    have hsize := hplaced.size_lt (by simpa using hvalid)
    split
    · exact .same rfl
    · refine CleanCore.clean (.after fun handle => ?_)
      split
      · exact .after fun _ => .same
      · apply ensures_bind (length_loadUser m _ _)
        intro bytes hlength
        apply ensures_bind (length_writeToPipe hsized _ (hlength ▸ hsize))
        intro c' hsmall
        exact CleanCore.succeeds (not_fails_ofNat hsmall)
      · exact .same
      · exact .same
      · exact .same

/-- A read that reports an error has changed nothing and returns no bytes. -/
theorem clean_readHandle {c : Core} (hsized : c.Sized) (fh : Block) (count : ℕ) :
    Ensures anyFault (c.readHandle fh count) fun value =>
      Fails value.2.1 → value.1 = c ∧ value.2.2 = [] := by
  have hunchanged : ∀ res : Word, Ensures anyFault (.ok (c, res, []))
      fun value : Core × Word × List UInt8 => Fails value.2.1 → value.1 = c ∧ value.2.2 = [] :=
    fun res => ensures_ok.mpr fun _ => ⟨rfl, rfl⟩
  apply ensures_bind (ensures_handle c fh)
  intro handle hhandle
  cases hkind : handle.kind with
  | screen => exact hunchanged _
  | pipeWriter b => exact hunchanged _
  | dir entry => exact hunchanged _
  | pipeReader b =>
      apply ensures_bind (ensures_pipe c b)
      intro pipe hpipe
      obtain ⟨hlen, halloc⟩ := hsized.pipes b pipe hpipe
      split
      · exact hunchanged _
      · split
        · refine ensures_ok.mpr fun hfails => absurd hfails (not_fails_ofNat ?_)
          simp only [kernelMemSize] at halloc
          split <;> omega
        · split
          · exact ensures_ok.mpr fun hfails => absurd hfails not_fails_zero
          · exact ensures_bind (ensures_any _) fun _ _ => ensures_bind (ensures_any _) fun _ _ =>
              ensures_ok.mpr fun hfails => absurd hfails not_fails_esuspend
  | file entry =>
      have hshort := hsized.files fh handle entry hhandle hkind
      dsimp only
      rw [fileRead]
      split
      · exact hunchanged _
      · dsimp only
        generalize (if entry.contents.length < (handle.pos + count) % wordCount then
          entry.contents.length - handle.pos else count) = copied
        split
        · exact ensures_error.mpr trivial
        · refine ensures_ok.mpr fun hfails => absurd hfails (not_fails_ofNat ?_)
          simp only [mb] at hshort
          omega

theorem clean_syscallRead (hsized : m.core.Sized) (fd buf count : Word) :
    Clean m Prod.fst Prod.snd (m.syscallRead pid fd buf count) := by
  rw [syscallRead]
  split
  · exact .same rfl
  · split
    · exact .same rfl
    · apply ensures_bind (clean_readHandle hsized _ count.toNat)
      rintro ⟨core, res, bytes⟩ hsame
      by_cases hfails : Fails res
      · obtain ⟨rfl, rfl⟩ := hsame hfails
        exact ensures_ok.mpr fun _ => rfl
      · exact ensures_bind (ensures_any _) fun _ _ => ensures_ok.mpr fun h => absurd h hfails

theorem clean_syscallPipe (m : Machine) (pid : Pid) (filedes : Word) :
    Clean m Prod.fst Prod.snd (m.syscallPipe pid filedes) := by
  rw [syscallPipe]
  split
  · exact .same rfl
  · have hpipe : Ensures anyFault (m.core.syscallPipe pid) fun value =>
        value.2 = none → value.1 = m.core := by
      rw [Core.syscallPipe]
      split
      · exact ensures_bind (ensures_any _) fun _ _ => ensures_bind (ensures_any _) fun _ _ =>
          ensures_bind (ensures_any _) fun _ _ => ensures_ok.mpr fun h => by cases h
      · exact ensures_ok.mpr fun _ => rfl
    apply ensures_bind hpipe
    rintro ⟨core, fds⟩ hsame
    cases fds with
    | none =>
        obtain rfl := hsame rfl
        exact Clean.same rfl
    | some fds => exact Clean.after fun _ => .succeeds not_fails_zero

theorem cleanCore_syscallClose (c : Core) (pid : Pid) (fd : Word) :
    CleanCore c (c.syscallClose pid fd) := by
  rw [syscallClose]
  split
  · exact .same
  · exact .after fun _ => .succeeds not_fails_zero

theorem cleanCore_syscallDup2 (c : Core) (pid : Pid) (oldfd newfd : Word) :
    CleanCore c (c.syscallDup2 pid oldfd newfd) := by
  rw [syscallDup2]
  split
  · rename_i old new _ hnew
    have hsmall : newfd.toNat < 16 := by
      by_contra hlarge
      cases hnew.symm.trans (dif_neg hlarge)
    split
    · exact .same
    · split
      · exact .same
      · exact .after fun _ => .succeeds (not_fails_of_toNat (by omega))
  · exact .same

/-! ## Messages and processes -/

theorem cleanCore_syscallSend (c : Core) (pid : Pid) (target tag : Word) (size : ℕ)
    (data : Except Fault (List UInt8)) :
    CleanCore c (c.syscallSend pid target tag size data) := by
  rw [Core.syscallSend]
  split
  · exact .same
  · split
    · exact .same
    · split
      · exact .same
      · refine .after fun reserved => ?_
        cases reserved with
        | none => exact .same
        | some value =>
            refine .after fun _ => ?_
            split
            · exact .after fun _ => .succeeds not_fails_zero
            · exact ensures_error.mpr trivial

theorem clean_syscallSend (m : Machine) (pid : Pid) (target tag data size : Word) :
    Clean m Prod.fst Prod.snd (m.syscallSend pid target tag data size) := by
  rw [syscallSend]
  split
  · exact .same rfl
  · exact (cleanCore_syscallSend m.core pid target tag _ _).clean

theorem clean_syscallReceive (m : Machine) (pid : Pid) (msg block : Word) :
    Clean m Prod.fst Prod.snd (m.syscallReceive pid msg block) := by
  have hreceive : Ensures anyFault (m.core.syscallReceive pid block) fun value =>
      Fails value.2.1 → value.1 = m.core ∧ value.2.2 = none := by
    rw [Core.syscallReceive]
    dsimp only
    split
    · split
      · exact ensures_error.mpr trivial
      · exact ensures_ok.mpr fun hfails => absurd hfails not_fails_zero
    · split
      · exact ensures_bind (ensures_any _) fun _ _ =>
          ensures_ok.mpr fun hfails => absurd hfails not_fails_esuspend
      · exact ensures_ok.mpr fun _ => ⟨rfl, rfl⟩
  rw [syscallReceive]
  split
  · exact .same rfl
  · apply ensures_bind hreceive
    rintro ⟨core, res, message⟩ hsame
    by_cases hfails : Fails res
    · obtain ⟨rfl, rfl⟩ := hsame hfails
      exact Clean.same rfl
    · cases message with
      | none => exact Clean.succeeds hfails
      | some message => exact Clean.after fun _ => .succeeds hfails

theorem clean_syscallFork (m : Machine) (pid : Pid) (r : Regs) (vfork : Bool) :
    Clean m Prod.fst Prod.snd (m.syscallFork pid r vfork) := by
  rw [syscallFork]
  split
  · exact .same rfl
  · rename_i child _
    exact .after fun _ => .after fun _ => .succeeds (not_fails_ofNat (by omega))

theorem clean_syscallKill (m : Machine) (pid : Pid) (target : Word) :
    Clean m Prod.fst Prod.snd (m.syscallKill pid target) := by
  rw [syscallKill]
  split
  · exact .same rfl
  · split
    · exact .same rfl
    · refine .after fun _ => .succeeds ?_
      dsimp only
      split
      · exact not_fails_esuspend
      · exact not_fails_zero

/-! ## Files -/

theorem clean_syscallStat (m : Machine) (pid : Pid) (path buf : Word) :
    Clean m Prod.fst Prod.snd (m.syscallStat pid path buf) := by
  refine .after fun string => ?_
  cases string with
  | none => exact .same rfl
  | some string =>
      dsimp only
      split
      · exact .same rfl
      · split
        · exact .same rfl
        · exact .after fun _ => .succeeds not_fails_zero

theorem clean_syscallOpen (m : Machine) (pid : Pid) (pathname flags : Word) :
    Clean m Prod.fst Prod.snd (m.syscallOpen pid pathname flags) := by
  refine .after fun string => ?_
  cases string with
  | none => exact .same rfl
  | some string =>
      dsimp only
      split
      · exact .same rfl
      · rename_i fd _ _
        split
        · exact .same rfl
        · split
          · exact .same rfl
          · split
            · exact .same rfl
            · exact .after fun _ => .succeeds (not_fails_ofNat (by omega))

theorem clean_syscallGetdent (m : Machine) (pid : Pid) (fd entry : Word) :
    Clean m Prod.fst Prod.snd (m.syscallGetdent pid fd entry) := by
  have hone : ¬ Fails 1 := fun hfails => absurd hfails.1 (by decide)
  rw [syscallGetdent]
  split
  · exact .same rfl
  · split
    · exact .same rfl
    · refine .after fun handle => ?_
      split
      · split
        · exact .same rfl
        · exact .after fun _ => .after fun _ => .succeeds hone
      · exact .same rfl

theorem clean_syscallChdir (m : Machine) (pid : Pid) (path : Word) :
    Clean m Prod.fst Prod.snd (m.syscallChdir pid path) := by
  refine .after fun string => ?_
  cases string with
  | none => exact .same rfl
  | some string =>
      dsimp only
      split
      · exact .same rfl
      · split
        · exact .same rfl
        · exact .succeeds not_fails_zero

theorem clean_syscallExecve (m : Machine) (pid : Pid) (filename argv : Word) (r : Regs) :
    Ensures anyFault (m.syscallExecve pid filename argv r) fun value =>
      Fails value.2.2 → value.1.present = m.present ∧ value.2.1 = r := by
  refine ensures_bind (ensures_any _) fun string _ => ?_
  cases string with
  | none => exact ensures_ok.mpr fun _ => ⟨rfl, rfl⟩
  | some string =>
      refine ensures_bind (ensures_any _) fun args _ => ?_
      cases args with
      | none => exact ensures_ok.mpr fun _ => ⟨rfl, rfl⟩
      | some args =>
          dsimp only
          split
          · exact ensures_ok.mpr fun _ => ⟨rfl, rfl⟩
          · split
            · exact ensures_ok.mpr fun _ => ⟨rfl, rfl⟩
            · split
              · exact ensures_error.mpr trivial
              · refine ensures_bind (ensures_any _) fun _ _ => ?_
                refine ensures_bind (ensures_any _) fun _ _ => ?_
                refine ensures_bind (ensures_any _) fun _ _ => ?_
                exact ensures_ok.mpr fun hfails => absurd hfails not_fails_zero

/-! ## Failed calls change nothing -/

/-- The calls in question. -/
def checkedCalls : List Call :=
  [.write, .read, .send, .receive, .close, .pipe, .dup2, .fork, .execve, .stat, .opn, .getdent,
    .chdir, .kill]

theorem clean_keepRegs {outcome : Except Fault (Machine × Word)}
    (hclean : Clean m Prod.fst Prod.snd outcome) :
    Ensures anyFault (keepRegs r outcome) fun value =>
      Fails value.2.2 → value.1.present = m.present ∧ value.2.1 = r :=
  ensures_bind hclean fun _ hsame => ensures_ok.mpr fun hfails => ⟨hsame hfails, rfl⟩

theorem clean_dispatch (hsized : m.core.Sized) (hplaced : Placed (m.spaces pid)) {call : Call}
    (hcall : Call.ofNumber r.eax.toNat = some call) (hchecked : call ∈ checkedCalls) :
    Ensures anyFault (m.dispatch pid r) fun value =>
      Fails value.2.2 → value.1.present = m.present ∧ value.2.1 = r := by
  rw [dispatch, hcall]
  cases call with
  | write => exact clean_keepRegs (clean_syscallWrite hsized hplaced _ _ _)
  | read => exact clean_keepRegs (clean_syscallRead hsized _ _ _)
  | send => exact clean_keepRegs (clean_syscallSend m pid _ _ _ _)
  | receive => exact clean_keepRegs (clean_syscallReceive m pid _ _)
  | close => exact clean_keepRegs (cleanCore_syscallClose m.core pid _).clean
  | pipe => exact clean_keepRegs (clean_syscallPipe m pid _)
  | dup2 => exact clean_keepRegs (cleanCore_syscallDup2 m.core pid _ _).clean
  | fork => exact clean_keepRegs (clean_syscallFork m pid r false)
  | execve => exact clean_syscallExecve m pid _ _ r
  | stat => exact clean_keepRegs (clean_syscallStat m pid _ _)
  | opn => exact clean_keepRegs (clean_syscallOpen m pid _ _)
  | getdent => exact clean_keepRegs (clean_syscallGetdent m pid _ _)
  | chdir => exact clean_keepRegs (clean_syscallChdir m pid _)
  | kill => exact clean_keepRegs (clean_syscallKill m pid _)
  | _ => exact absurd hchecked (by decide)

theorem Settled.placed {policy : Policy} {wait : Pid → Wait} (hsettled : Settled policy m wait)
    (hlive : m.core.isLive pid = true) : Placed (m.spaces pid) := by
  have hfits := ((hsettled.sane Regs.zero).layout.furnished pid _ (dirs_eq hlive)).fits
  refine ⟨?_, ?_, ?_⟩
  · rw [hfits.stackStart]
    decide
  · rw [hfits.dataStart]
    decide
  · rw [hfits.textStart]
    decide

/-- A call that returns an error has changed nothing, and left the registers alone.  The
conditions on sizes hold in every state of every run, and the conditions on the segments
for every process. -/
theorem failed_calls_change_nothing {image : Image} {phys : Memory} {junk : Block → Memory} :
    (∀ permits m, Reachable permits image phys junk m → m.core.Sized) ∧
    (∀ m pid, Reachable KillingSafely image phys junk m → m.core.isLive pid = true →
      Placed (m.spaces pid)) ∧
    ∀ (m : Machine) (pid : Pid) (r : Regs) (call : Call) (m' : Machine) (r' : Regs) (res : Word),
      m.core.Sized → Placed (m.spaces pid) →
      Call.ofNumber r.eax.toNat = some call → call ∈ checkedCalls →
      m.dispatch pid r = .ok (m', r', res) → res.toInt < 0 → res ≠ failure esuspend →
      m'.present = m.present ∧ r' = r := by
  refine ⟨fun permits m hreachable => hreachable.sized, ?_, ?_⟩
  · intro m pid hreachable hlive
    obtain ⟨wait, hsettled⟩ := hreachable.lax
    exact hsettled.placed hlive
  · intro m pid r call m' r' res hsized hplaced hcall hchecked hdispatch hneg hres
    have hclean := clean_dispatch hsized hplaced hcall hchecked
    rw [hdispatch, ensures_ok] at hclean
    exact hclean ⟨hneg, hres⟩

/-- The first process closes a descriptor it does not have. -/
theorem failed_calls_change_nothing_close : ∃ m m' r', Reachable NotKilling bare (fun _ => 0)
    (fun _ _ => 0) m ∧ m.dispatch 1 (callRegs .close fun _ => 99) =
      .ok (m', r', failure ebadf) ∧ m'.present = m.present := by
  obtain ⟨m, hcareful, hcore⟩ := reachable_blocked
  have hreachable := hcareful.of_carefully
  obtain ⟨hsized, hplaced, hclean⟩ :=
    @failed_calls_change_nothing bare (fun _ => 0) (fun _ _ => 0)
  have hlive : m.core.isLive 1 = true := by
    rw [hcore]
    decide +kernel
  have hdispatch : m.dispatch 1 (callRegs .close fun _ => 99) =
      .ok (m, callRegs .close fun _ => 99, failure ebadf) := rfl
  refine ⟨m, _, _, hreachable, hdispatch, ?_⟩
  exact (hclean m 1 _ .close _ _ _ (hsized _ m hreachable) (hplaced m 1 hreachable.safely hlive)
    rfl (by decide) hdispatch (by decide) (by decide)).1

end Machine

end Rhythmos.Kernel
