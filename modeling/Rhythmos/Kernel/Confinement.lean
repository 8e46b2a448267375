import Rhythmos.Kernel.Effects
import Rhythmos.Paging.Contents

/-!
# Stores through user pointers

The history of the machine lists every store through a pointer that a process passed
to the kernel.  Every call except `waitpid` checks the whole buffer before it stores
anything.
-/

namespace Rhythmos.Kernel

open Fallible ByteMemory Libc

/-- The byte belongs to a segment of the process. -/
def AddressSpace.owns (space : AddressSpace) (address : ℕ) : Prop :=
  space.stackStart ≤ address ∧ address < space.stackEnd ∨
    space.dataStart ≤ address ∧ address < space.dataEnd ∨
    space.textStart ≤ address ∧ address < space.textEnd

/-- All bytes of the buffer belong to segments of the process. -/
def AddressSpace.ownsBuffer (space : AddressSpace) (address count : ℕ) : Prop :=
  ∀ i < count, space.owns ((address + i) % wordCount)

theorem ownsBuffer_of_validPointer {space : AddressSpace} {ptr size : ℕ}
    (hvalid : validPointer space ptr size = true) : space.ownsBuffer ptr size := by
  intro i hi
  have hsize : size ≠ 0 := by omega
  simp only [validPointer, hsize, if_false] at hvalid
  split at hvalid
  · cases hvalid
  · have hsmall : ptr + i < wordCount := by omega
    simp only [within, Bool.or_eq_true, Bool.and_eq_true, decide_eq_true_eq] at hvalid
    rw [Nat.mod_eq_of_lt hsmall, AddressSpace.owns]
    omega

theorem AddressSpace.ownsBuffer.take {space : AddressSpace} {address count size : ℕ}
    (howns : space.ownsBuffer address size) (hcount : count ≤ size) :
    space.ownsBuffer address count :=
  fun i hi => howns i (hi.trans_le hcount)

namespace Machine

open Rhythmos.Kernel.Core

variable {m m₁ : Machine} {pid : Pid} {A B : Type} {machine : A → Machine} {result : B → Machine}

/-! ## Stores of the machine -/

/-- Since the machine was in state `m`, user pointers were used only to store to the
segments that the process `pid` had then. -/
def StoresWithin (m : Machine) (pid : Pid) (m' : Machine) : Prop :=
  ∃ new, m'.core.userStores = new ++ m.core.userStores ∧
    ∀ caller address count, (caller, address, count) ∈ new →
      caller = pid ∧ (m.spaces pid).ownsBuffer address count

theorem StoresWithin.of_eq {m' : Machine} (hsame : m'.core.userStores = m.core.userStores) :
    StoresWithin m pid m' :=
  ⟨[], hsame, fun _ _ _ hmem => by cases hmem⟩

/-- The outcome of a computation that starts in the state `m`; it also respects the sizes
of pipes and files. -/
def Within (m : Machine) (pid : Pid) (machine : A → Machine) (outcome : Except Fault A) : Prop :=
  Ensures anyFault outcome fun value =>
    StoresWithin m pid (machine value) ∧ (m.core.Sized → (machine value).core.Sized)

theorem Within.ok {value : A} (htame : Tame m.core (machine value).core) :
    Within m pid machine (.ok value) :=
  ensures_ok.mpr ⟨.of_eq htame.stores, htame.sized⟩

theorem Within.after {first : Except Fault A} {rest : A → Except Fault B}
    (hrest : ∀ value, Within m pid result (rest value)) : Within m pid result (first >>= rest) :=
  ensures_bind (ensures_any first) fun value _ => hrest value

/-- A tame first part, on the kernel's data. -/
theorem Within.silent {core : A → Core} {first : Except Fault A} {rest : A → Except Fault B}
    (hfirst : Silent m.core core first)
    (hrest : ∀ value, Tame m.core (core value) → Within m pid result (rest value)) :
    Within m pid result (first >>= rest) :=
  ensures_bind hfirst hrest

/-- A tame first part, on the whole machine. -/
theorem Within.still {first : Except Fault Machine} {rest : Machine → Except Fault B}
    (hfirst : Ensures anyFault first fun m' => Tame m.core m'.core)
    (hrest : ∀ m', Tame m.core m'.core → Within m pid result (rest m')) :
    Within m pid result (first >>= rest) :=
  ensures_bind hfirst hrest

/-- A store through a user pointer respects the sizes. -/
theorem sized_copyOut {address : ℕ} {bytes : List UInt8}
    {rest : Machine → Except Fault (Machine × Word)} {res : Word}
    (hrest : ∀ m', rest m' = .ok (m', res)) (htame : Tame m.core m₁.core) :
    Ensures anyFault (m₁.copyOut pid address bytes >>= rest) fun value =>
      value.1.core.userStores = (pid, address, bytes.length) :: m.core.userStores ∧
        (m.core.Sized → value.1.core.Sized) := by
  have hstored : Ensures anyFault (m₁.copyOut pid address bytes) fun m' =>
      m'.core = m₁.core.record (.stored pid address bytes.length) := by
    refine ensures_copyOut trivial ?_
    rw [storeUser]
    refine ensures_bind (ensures_any _) fun pages _ => ensures_ok.mpr rfl
  refine ensures_bind hstored fun m' hcore => ?_
  rw [hrest]
  refine ensures_ok.mpr ⟨?_, fun hsized => ?_⟩
  · rw [hcore]
    exact congrArg (List.cons _) htame.stores
  · rw [hcore]
    exact ⟨(htame.sized hsized).pipes, (htame.sized hsized).files⟩

theorem within_copyOut {address : ℕ} {bytes : List UInt8}
    {rest : Machine → Except Fault (Machine × Word)} {res : Word}
    (hrest : ∀ m', rest m' = .ok (m', res)) (htame : Tame m.core m₁.core)
    (howns : (m.spaces pid).ownsBuffer address bytes.length) :
    Within m pid Prod.fst (m₁.copyOut pid address bytes >>= rest) := by
  refine ensures_weaken (sized_copyOut hrest htame) ?_
  rintro ⟨m', res'⟩ ⟨hstores, hsized⟩
  refine ⟨⟨[(pid, address, bytes.length)], hstores, ?_⟩, hsized⟩
  intro caller address' count hmem
  obtain ⟨rfl, rfl, rfl⟩ : caller = pid ∧ address' = address ∧ count = bytes.length := by
    simpa using hmem
  exact ⟨rfl, howns⟩

/-! ## The calls -/

theorem within_syscallWrite (m : Machine) (pid : Pid) (fd buf count : Word) :
    Within m pid Prod.fst (m.syscallWrite pid fd buf count) := by
  rw [syscallWrite]
  split
  · exact .ok (.refl _)
  · split
    · exact .ok (.refl _)
    · exact .silent (silent_writeHandle m.core _ _) fun _ htame => .ok htame

theorem within_syscallRead (m : Machine) (pid : Pid) (fd buf count : Word) :
    Within m pid Prod.fst (m.syscallRead pid fd buf count) := by
  rw [syscallRead]
  split
  · exact .ok (.refl _)
  · rename_i hvalid
    have howns := ownsBuffer_of_validPointer (by simpa using hvalid)
    split
    · exact .ok (.refl _)
    · apply ensures_bind (silentRead_readHandle m.core _ count.toNat)
      rintro ⟨core, res, bytes⟩ ⟨htame, hlength⟩
      exact within_copyOut (fun _ => rfl) htame (howns.take hlength)

theorem within_syscallPipe (m : Machine) (pid : Pid) (filedes : Word) :
    Within m pid Prod.fst (m.syscallPipe pid filedes) := by
  rw [syscallPipe]
  split
  · exact .ok (.refl _)
  · rename_i hvalid
    have howns := ownsBuffer_of_validPointer (by simpa using hvalid)
    refine .silent (silent_syscallPipe m.core pid) ?_
    rintro ⟨core, fds⟩ htame
    cases fds with
    | none => exact .ok htame
    | some fds => exact within_copyOut (fun _ => rfl) htame howns

theorem within_syscallSend (m : Machine) (pid : Pid) (target tag data size : Word) :
    Within m pid Prod.fst (m.syscallSend pid target tag data size) := by
  rw [syscallSend]
  split
  · exact .ok (.refl _)
  · exact .silent (silent_syscallSend m.core pid target tag _ _) fun _ htame => .ok htame

theorem within_syscallReceive (m : Machine) (pid : Pid) (msg block : Word) :
    Within m pid Prod.fst (m.syscallReceive pid msg block) := by
  rw [syscallReceive]
  split
  · exact .ok (.refl _)
  · rename_i hvalid
    have howns := ownsBuffer_of_validPointer (by simpa using hvalid)
    refine .silent (silent_syscallReceive m.core pid block) ?_
    rintro ⟨core, res, message⟩ htame
    cases message with
    | none => exact .ok htame
    | some message =>
        refine within_copyOut (fun _ => rfl) htame (howns.take (le_of_eq ?_))
        simp [Message.bytes, wordBytes, messageSize]
        omega

theorem within_syscallStat (m : Machine) (pid : Pid) (path buf : Word) :
    Within m pid Prod.fst (m.syscallStat pid path buf) := by
  refine .after fun string => ?_
  cases string with
  | none => exact .ok (.refl _)
  | some string =>
      dsimp only
      split
      · exact .ok (.refl _)
      · rename_i hvalid
        have howns := ownsBuffer_of_validPointer (by simpa using hvalid)
        split
        · exact .ok (.refl _)
        · exact within_copyOut (fun _ => rfl) (.refl _) howns

theorem within_syscallOpen (m : Machine) (pid : Pid) (pathname flags : Word) :
    Within m pid Prod.fst (m.syscallOpen pid pathname flags) := by
  refine .after fun string => ?_
  cases string with
  | none => exact .ok (.refl _)
  | some string =>
      dsimp only
      split
      · exact .ok (.refl _)
      · split
        · exact .ok (.refl _)
        · rename_i entry hentry
          have hshort := m.image.length_contents_lt hentry
          split
          · exact .ok (.refl _)
          · split
            · exact .ok (.refl _)
            · exact .silent (silent_openEntry m.core pid _ hshort) fun _ htame => .ok htame

theorem within_syscallGetdent (m : Machine) (pid : Pid) (fd entry : Word) :
    Within m pid Prod.fst (m.syscallGetdent pid fd entry) := by
  rw [syscallGetdent]
  split
  · exact .ok (.refl _)
  · rename_i hvalid
    have howns := ownsBuffer_of_validPointer (by simpa using hvalid)
    split
    · exact .ok (.refl _)
    · apply ensures_bind (ensures_handle m.core _)
      intro handle hhandle
      split
      next dir _ =>
        split
        · exact Within.ok (.refl _)
        · refine ensures_bind (ensures_mono (m.image.ensures_direntName dir handle.entryno)
            (fun _ _ => trivial) fun _ h => h) fun name hname => ?_
          refine within_copyOut (fun _ => rfl) ?_ (howns.take ?_)
          · exact (Tame.refl _).setHandle _ fun hsized entry => hsized.files _ handle entry hhandle
          · rw [List.length_append, direntSize]
            simp only [wordBytes, List.length_cons, List.length_nil]
            omega
      · exact Within.ok (.refl _)

theorem within_syscallChdir (m : Machine) (pid : Pid) (path : Word) :
    Within m pid Prod.fst (m.syscallChdir pid path) := by
  refine .after fun string => ?_
  cases string with
  | none => exact .ok (.refl _)
  | some string =>
      dsimp only
      split
      · exact .ok (.refl _)
      · split
        · exact .ok (.refl _)
        · exact .ok (.of_eq rfl rfl rfl)

theorem within_syscallGetcwd (m : Machine) (pid : Pid) (buf size : Word) :
    Within m pid Prod.fst (m.syscallGetcwd pid buf size) := by
  rw [syscallGetcwd]
  split
  · exact .ok (.refl _)
  · rename_i hvalid
    have howns := ownsBuffer_of_validPointer (by simpa using hvalid)
    refine within_copyOut (fun _ => rfl) (.refl _) (howns.take ?_)
    split
    · exact Nat.zero_le _
    · simp
      omega

theorem within_syscallBrk (m : Machine) (pid : Pid) (endDataSegment : Word) :
    Within m pid Prod.fst (m.syscallBrk pid endDataSegment) := by
  rw [syscallBrk]
  split
  · exact .ok (.refl _)
  · exact .after fun _ => .ok (.refl _)

theorem within_syscallFork (m : Machine) (pid : Pid) (r : Regs) (vfork : Bool) :
    Within m pid Prod.fst (m.syscallFork pid r vfork) := by
  rw [syscallFork]
  split
  · exact .ok (.refl _)
  · rename_i child _
    have hspace : Ensures anyFault (m.forkSpace pid child) fun m' =>
        Tame m.core m'.core :=
      ensures_bind (ensures_any _) fun _ _ => ensures_bind (ensures_any _) fun _ _ =>
        ensures_bind (ensures_any _) fun _ _ => ensures_bind (ensures_any _) fun _ _ =>
        ensures_bind (ensures_any _) fun _ _ => ensures_ok.mpr (.refl _)
    refine .still hspace fun m' htame => ?_
    exact .silent ((silent_forkProcess m'.core pid child r vfork).congr htame) fun _ htame =>
      .ok htame

theorem silent_killProcess (m : Machine) (victim : Pid) :
    Ensures anyFault (m.killProcess victim) fun m' => Tame m.core m'.core := by
  have hclosed := (silent_closeHandles (m.core.detach victim) victim).congr
    (tame_detach m.core victim)
  refine ensures_bind hclosed fun core htame => ?_
  have hspace : Ensures anyFault ((m.setCore core).freeSpace victim) fun m' =>
      Tame m.core m'.core :=
    ensures_bind (ensures_any _) fun _ _ => ensures_bind (ensures_any _) fun _ _ =>
      ensures_bind (ensures_any _) fun _ _ => ensures_bind (ensures_any _) fun _ _ =>
      ensures_ok.mpr htame
  refine ensures_bind hspace fun m' htame => ?_
  refine ensures_bind ((silent_finish m'.core victim).congr htame) fun core' htame => ?_
  dsimp only
  split
  · exact ensures_ok.mpr htame
  · exact ensures_bind (ensures_any _) fun _ _ => ensures_ok.mpr htame

theorem within_syscallExit (m : Machine) (pid : Pid) (status : Word) :
    Within m pid Prod.fst (m.syscallExit pid status) := by
  have hstatus := tame_modify m.core pid fun proc => { proc with exitStatus := status }
  exact ensures_bind (silent_killProcess _ pid) fun _ htame =>
    ensures_ok.mpr ⟨.of_eq (hstatus.trans htame).stores, (hstatus.trans htame).sized⟩

theorem within_syscallKill (m : Machine) (pid : Pid) (target : Word) :
    Within m pid Prod.fst (m.syscallKill pid target) := by
  rw [syscallKill]
  split
  · exact .ok (.refl _)
  · split
    · exact .ok (.refl _)
    · exact .still (silent_killProcess _ _) fun _ htame => .ok htame

theorem within_syscallWaitpid {m : Machine} {pid : Pid} (child : Word) {status : Word}
    (howns : status ≠ 0 → (m.spaces pid).ownsBuffer status.toNat 4) :
    Within m pid Prod.fst (m.syscallWaitpid pid child status) := by
  refine .silent (silent_syscallWaitpid m.core pid child) ?_
  rintro ⟨core, res, exitStatus⟩ htame
  cases exitStatus with
  | none => exact .ok htame
  | some word =>
      dsimp only
      split
      · exact .ok htame
      · rename_i hstatus
        exact within_copyOut (fun _ => rfl) htame (howns hstatus)

theorem within_syscallExecve (m : Machine) (pid : Pid) (filename argv : Word) (r : Regs) :
    Within m pid Prod.fst (m.syscallExecve pid filename argv r) := by
  refine .after fun string => ?_
  cases string with
  | none => exact .ok (.refl _)
  | some string =>
      refine .after fun args => ?_
      cases args with
      | none => exact .ok (.refl _)
      | some args =>
          dsimp only
          split
          · exact .ok (.refl _)
          · split
            · exact .ok (.refl _)
            · split
              · exact ensures_error.mpr trivial
              · refine .silent (silent_kmalloc m.core _) ?_
                rintro ⟨core, block⟩ htame
                have htext : ∀ contents, Ensures anyFault ((m.setCore core).replaceText pid
                    contents) fun m' => Tame m.core m'.core := fun contents =>
                  ensures_bind (ensures_any _) fun _ _ => ensures_bind (ensures_any _) fun _ _ =>
                    ensures_bind (ensures_any _) fun _ _ => ensures_ok.mpr htame
                refine .still (htext _) fun m' htame' => ?_
                have hstored : ∀ address bytes, Ensures anyFault (m'.storeUser address bytes)
                    fun m' => Tame m.core m'.core := fun address bytes =>
                  ensures_bind (ensures_any _) fun _ _ => ensures_ok.mpr htame'
                exact .still (hstored _ _) fun _ htame => .ok htame

/-! ## Confinement -/

/-- The buffer a call is asked to fill: its address and its size. -/
def outputBuffer (r : Regs) : Call → Option (ℕ × ℕ)
  | .read => some ((r.args 1).toNat, (r.args 2).toNat)
  | .receive => some ((r.args 0).toNat, messageSize)
  | .pipe => some ((r.args 0).toNat, 8)
  | .waitpid => if r.args 1 = 0 then none else some ((r.args 1).toNat, 4)
  | .stat => some ((r.args 1).toNat, 20)
  | .getdent => some ((r.args 1).toNat, direntSize)
  | .getcwd => some ((r.args 0).toNat, (r.args 1).toNat)
  | _ => none

/-- The result of a call that is given an invalid buffer. -/
def refusal : Call → Word
  | .getcwd => 0
  | _ => failure efault

/-- What a call reads from user memory before it looks at the buffer: `stat` reads its
path. -/
def readFirst (m : Machine) (pid : Pid) (r : Regs) : Call → Except Fault Unit
  | .stat => do
      let _ ← m.validString pid (r.args 0)
      return ()
  | _ => .ok ()

/-- The call of the process stores through user pointers only to the segments of the
process, and a call whose buffer has a byte outside of them is refused and changes
nothing. -/
structure Confined (m : Machine) (pid : Pid) (r : Regs) : Prop where
  stores : ∀ m' r' res, m.dispatch pid r = .ok (m', r', res) → StoresWithin m pid m'
  refused : ∀ call address count, Call.ofNumber r.eax.toNat = some call →
    outputBuffer r call = some (address, count) → ¬ (m.spaces pid).ownsBuffer address count →
    m.dispatch pid r = do
      m.readFirst pid r call
      return (m, r, refusal call)

/-- The call is `waitpid`, and its status pointer is not null and leads outside of the
segments of the process. -/
def WaitsAstray (m : Machine) (pid : Pid) (r : Regs) : Prop :=
  Call.ofNumber r.eax.toNat = some .waitpid ∧ r.args 1 ≠ 0 ∧
    ¬ (m.spaces pid).ownsBuffer (r.args 1).toNat 4

theorem within_keepRegs {r : Regs} {outcome : Except Fault (Machine × Word)}
    (hwithin : Within m pid Prod.fst outcome) : Within m pid Prod.fst (keepRegs r outcome) :=
  ensures_bind hwithin fun _ hstores => ensures_ok.mpr hstores

theorem within_dispatch {r : Regs} (hwaitpid : ¬ WaitsAstray m pid r) :
    Within m pid Prod.fst (m.dispatch pid r) := by
  rw [dispatch]
  cases hcall : Call.ofNumber r.eax.toNat with
  | none => exact .ok (.refl _)
  | some call =>
      cases call with
      | getpid => exact .ok (.refl _)
      | exit => exact within_keepRegs (within_syscallExit m pid _)
      | write => exact within_keepRegs (within_syscallWrite m pid _ _ _)
      | read => exact within_keepRegs (within_syscallRead m pid _ _ _)
      | geterrno => exact .ok (.refl _)
      | brk => exact within_keepRegs (within_syscallBrk m pid _)
      | send => exact within_keepRegs (within_syscallSend m pid _ _ _ _)
      | receive => exact within_keepRegs (within_syscallReceive m pid _ _)
      | close => exact within_keepRegs (.silent (silent_syscallClose m.core pid _) fun _ h => .ok h)
      | pipe => exact within_keepRegs (within_syscallPipe m pid _)
      | dup2 => exact within_keepRegs (.silent (silent_syscallDup2 m.core pid _ _) fun _ h => .ok h)
      | fork => exact within_keepRegs (within_syscallFork m pid r false)
      | vfork => exact within_keepRegs (within_syscallFork m pid r true)
      | execve => exact within_syscallExecve m pid _ _ r
      | waitpid =>
          refine within_keepRegs (within_syscallWaitpid _ fun hstatus => ?_)
          by_contra howns
          exact hwaitpid ⟨hcall, hstatus, howns⟩
      | stat => exact within_keepRegs (within_syscallStat m pid _ _)
      | opn => exact within_keepRegs (within_syscallOpen m pid _ _)
      | getdent => exact within_keepRegs (within_syscallGetdent m pid _ _)
      | chdir => exact within_keepRegs (within_syscallChdir m pid _)
      | getcwd => exact within_keepRegs (within_syscallGetcwd m pid _ _)
      | kill => exact within_keepRegs (within_syscallKill m pid _)
      | halt => exact ensures_error.mpr trivial

theorem refused_dispatch {r : Regs} {call : Call} {address count : ℕ}
    (hcall : Call.ofNumber r.eax.toNat = some call) (hwaitpid : call ≠ .waitpid)
    (hbuffer : outputBuffer r call = some (address, count))
    (hastray : ¬ (m.spaces pid).ownsBuffer address count) :
    m.dispatch pid r = do
      m.readFirst pid r call
      return (m, r, refusal call) := by
  have hinvalid : validPointer (m.spaces pid) address count = false := by
    by_contra hvalid
    exact hastray (ownsBuffer_of_validPointer (by simpa using hvalid))
  rw [dispatch, hcall]
  cases call with
  | waitpid => exact absurd rfl hwaitpid
  | stat =>
      obtain ⟨rfl, rfl⟩ := Prod.mk.inj (Option.some.inj hbuffer)
      simp only [keepRegs, syscallStat, readFirst, hinvalid]
      cases m.validString pid (r.args 0) with
      | error fault => rfl
      | ok string => cases string <;> rfl
  | read =>
      obtain ⟨rfl, rfl⟩ := Prod.mk.inj (Option.some.inj hbuffer)
      simp only [keepRegs, syscallRead, hinvalid]
      rfl
  | receive =>
      obtain ⟨rfl, rfl⟩ := Prod.mk.inj (Option.some.inj hbuffer)
      simp only [keepRegs, syscallReceive, hinvalid]
      rfl
  | pipe =>
      obtain ⟨rfl, rfl⟩ := Prod.mk.inj (Option.some.inj hbuffer)
      simp only [keepRegs, syscallPipe, hinvalid]
      rfl
  | getdent =>
      obtain ⟨rfl, rfl⟩ := Prod.mk.inj (Option.some.inj hbuffer)
      simp only [keepRegs, syscallGetdent, hinvalid]
      rfl
  | getcwd =>
      obtain ⟨rfl, rfl⟩ := Prod.mk.inj (Option.some.inj hbuffer)
      simp only [keepRegs, syscallGetcwd, hinvalid]
      rfl
  | _ => cases hbuffer

theorem waitpid_result (c : Core) (pid : Pid) (child : Word) :
    Ensures anyFault (c.syscallWaitpid pid child) fun value => value.2.1 ≠ failure efault := by
  have hchild : failure echild ≠ failure efault := by decide
  have hsuspend : failure esuspend ≠ failure efault := by decide
  rw [Core.syscallWaitpid]
  cases htarget : pidArgument child with
  | none => exact ensures_ok.mpr hchild
  | some target =>
      have hsmall : child.toNat < 32 := by
        by_contra hlarge
        cases htarget.symm.trans (dif_neg hlarge)
      dsimp only
      split
      · exact ensures_ok.mpr hchild
      · split
        · refine ensures_ok.mpr ?_
          rintro rfl
          exact absurd hsmall (by decide)
        · exact ensures_bind (ensures_any _) fun _ _ => ensures_ok.mpr hsuspend

/-- `waitpid` never returns `-EFAULT`. -/
theorem waitpid_not_refused {r : Regs} (hcall : Call.ofNumber r.eax.toNat = some .waitpid) :
    m.dispatch pid r ≠ .ok (m, r, failure efault) := by
  intro hdispatch
  have hres : Ensures anyFault (m.dispatch pid r) fun value => value.2.2 ≠ failure efault := by
    have hwaitpid : Ensures anyFault (m.syscallWaitpid pid (r.args 0) (r.args 1))
        fun value => value.2 ≠ failure efault := by
      refine ensures_bind (waitpid_result m.core pid (r.args 0)) ?_
      rintro ⟨core, res, exitStatus⟩ hres
      cases exitStatus with
      | none => exact ensures_ok.mpr hres
      | some word =>
          dsimp only
          split
          · exact ensures_ok.mpr hres
          · exact ensures_bind (ensures_any _) fun _ _ => ensures_ok.mpr hres
    rw [dispatch, hcall]
    exact ensures_bind hwaitpid fun value hres => ensures_ok.mpr hres
  exact ensures_of_eq_ok hres hdispatch rfl

theorem WaitsAstray.not_confined {r : Regs} (hwaits : WaitsAstray m pid r) :
    ¬ Confined m pid r := by
  obtain ⟨hcall, hstatus, hastray⟩ := hwaits
  intro hconfined
  have hrefused := hconfined.refused .waitpid _ _ hcall (if_neg hstatus) hastray
  exact waitpid_not_refused hcall hrefused

/-- The calls of a process are confined to its memory unless `waitpid` is given a status
pointer that leads outside. -/
theorem confined_iff (m : Machine) (pid : Pid) (r : Regs) :
    Confined m pid r ↔ ¬ WaitsAstray m pid r := by
  constructor
  · exact fun hconfined hwaits => hwaits.not_confined hconfined
  · intro hwaitpid
    refine ⟨fun m' r' res hdispatch => ?_, fun call address count hcall hbuffer hastray => ?_⟩
    · have hwithin : Ensures anyFault (m.dispatch pid r) fun value =>
          StoresWithin m pid value.1 :=
        ensures_weaken (within_dispatch hwaitpid) fun _ h => h.1
      rwa [hdispatch, ensures_ok] at hwithin
    · refine refused_dispatch hcall ?_ hbuffer hastray
      rintro rfl
      simp only [outputBuffer] at hbuffer
      split at hbuffer
      · cases hbuffer
      · rename_i hstatus
        obtain ⟨rfl, rfl⟩ := Prod.mk.inj (Option.some.inj hbuffer)
        exact hwaitpid ⟨hcall, hstatus, hastray⟩

/-- The kernel's memory does not belong to a process. -/
theorem Settled.not_owns {policy : Policy} {wait : Pid → Wait} (hsettled : Settled policy m wait)
    (hlive : m.core.isLive pid = true) {address : ℕ} (haddress : address < 6 * mb) :
    ¬ (m.spaces pid).owns address := by
  have hfits := ((hsettled.sane Regs.zero).layout.furnished pid _ (dirs_eq hlive)).fits
  simp only [AddressSpace.owns, hfits.stackStart, hfits.dataStart, hfits.textStart,
    processStackBase, processStackSize, processDataBase, processTextBase, mb] at *
  omega

/-- A process that awaits an exited child with a status pointer into the kernel is not
refused. -/
theorem waitpid_stores_astray : ¬ ∀ m pid r, Reachable NotKilling bare (fun _ => 0)
    (fun _ _ => 0) m → m.core.current = some pid → Confined (m.entered pid r) pid r := by
  intro hclaim
  have harrives : Arrives NotKilling zombieCore forkedPages :=
    arrives_zombie (fun _ => trivial) (notKilling_call (by decide) _)
      fun m _ => notKilling_call (by decide) _ m
  obtain ⟨m, wait, hreachable, hsettled, hcore, -⟩ := harrives
  have hcurrent : m.core.current = some 1 := by
    rw [hcore]
    rfl
  -- The child is process 2, and the status goes to the start of the kernel's code.
  let args : ℕ → Word := fun i => if i = 0 then 2 else 0x100000
  have howns := hsettled.not_owns (hsettled.live 1 hcurrent) (show 0x100000 < 6 * mb by decide)
  have hastray : WaitsAstray (m.entered 1 (callRegs .waitpid args)) 1 (callRegs .waitpid args) :=
    ⟨rfl, by decide, fun hbuffer => howns (hbuffer 0 (by decide))⟩
  exact hastray.not_confined (hclaim m 1 _ hreachable hcurrent)

end Machine

end Rhythmos.Kernel
