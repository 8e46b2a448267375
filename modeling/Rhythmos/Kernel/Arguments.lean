import Rhythmos.Kernel.Lookups
import Rhythmos.Library.PackedStrings
import Rhythmos.Paging.Contents

/-!
# Arguments of programs

What `execve` is going to do is settled before it changes the process: it returns an error,
or it loads a file and copies the argument data below the end of the stack.  The argument
data are the number of arguments, the pointer to the array, the array, and the strings, the
last one first.
-/

namespace Rhythmos.Kernel

open Fallible ByteMemory Libc PackedStrings

namespace Machine

/-! ## The argument data -/

section Packing

variable {size : ℕ} {args done rest : List (List UInt8)} {arg : List UInt8}
  {state : Memory × ℕ × ℕ}

theorem argdataSize_eq (args : List (List UInt8)) :
    argdataSize args = packedSize args + (4 * args.length + 8) := by
  rw [argdataSize, packedSize]
  omega

/-- The buffer after the strings `done` were copied into it. -/
structure Packing (size : ℕ) (done : List (List UInt8)) (state : Memory × ℕ × ℕ) : Prop where
  count : state.2.1 = done.length
  pos : state.2.2 = size - packedSize done
  array : BytesAt state.1 8 (pointers processStackBase done)
  strings : BytesAt state.1 (size - packedSize done) (packed done)

theorem Packing.step (hpacked : Packing size done state)
    (hroom : packedSize (done ++ [arg]) + (4 * (done ++ [arg]).length + 8) ≤ size)
    (hbase : size ≤ processStackBase) :
    Packing size (done ++ [arg]) (packArgument size state arg) := by
  obtain ⟨argdata, argno, pos⟩ := state
  obtain ⟨rfl, rfl, harray, hstrings⟩ := hpacked
  simp only at harray hstrings
  rw [packedSize_append, packedSize_singleton, List.length_append, List.length_singleton] at hroom
  have hpos : size - packedSize done - (arg.length + 1) = size - packedSize (done ++ [arg]) := by
    rw [packedSize_append, packedSize_singleton]
    omega
  have hpointer : processStackBase - size + (size - packedSize (done ++ [arg])) =
      processStackBase - packedSize (done ++ [arg]) := by
    rw [packedSize_append, packedSize_singleton]
    omega
  have harrayLength := length_pointers processStackBase done
  have hstringsLength := length_packed done
  have hargLength : (arg ++ [0]).length = arg.length + 1 := by simp
  simp only [packArgument, hpos, hpointer]
  refine ⟨by simp, rfl, ?_, ?_⟩
  · rw [pointers_concat, bytesAt_append, harrayLength]
    refine ⟨bytesAt_store32_off _ (bytesAt_storeBytes_off harray ?_) ?_, bytesAt_store32 _ _ _⟩
    · rw [harrayLength, packedSize_append, packedSize_singleton]
      omega
    · rw [harrayLength]
      omega
  · rw [packed_concat, bytesAt_append, length_terminated]
    constructor
    · refine bytesAt_store32_off _ (bytesAt_storeBytes _ _ _) ?_
      rw [length_terminated, packedSize_append, packedSize_singleton]
      omega
    · have haddress : size - packedSize (done ++ [arg]) + (arg.length + 1) =
          size - packedSize done := by
        rw [packedSize_append, packedSize_singleton]
        omega
      rw [haddress]
      refine bytesAt_store32_off _ (bytesAt_storeBytes_off hstrings ?_) ?_
      · rw [hargLength]
        omega
      · omega

theorem Packing.foldl (hpacked : Packing size done state)
    (hroom : packedSize (done ++ rest) + (4 * (done ++ rest).length + 8) ≤ size)
    (hbase : size ≤ processStackBase) :
    Packing size (done ++ rest) (rest.foldl (packArgument size) state) := by
  induction rest generalizing done state with
  | nil => simpa using hpacked
  | cons arg rest ih =>
      have hsplit : done ++ arg :: rest = (done ++ [arg]) ++ rest := by simp
      rw [hsplit] at hroom ⊢
      refine ih (hpacked.step ?_ hbase) hroom
      rw [packedSize_append, List.length_append] at hroom
      omega

/-- What `execve` copies to the stack. -/
def argumentBlock (args : List (List UInt8)) : List UInt8 :=
  word32 args.length ++ (word32 (processStackBase - argdataSize args + 8) ++
    (pointers processStackBase args ++ packed args))

theorem length_argumentBlock (args : List (List UInt8)) :
    (argumentBlock args).length = argdataSize args := by
  simp only [argumentBlock, List.length_append, length_word32, length_pointers, length_packed,
    argdataSize_eq]
  omega

/-- What was in the buffer before does not matter. -/
theorem packArguments_eq (junk : Memory) (hbase : argdataSize args ≤ processStackBase) :
    packArguments junk args = argumentBlock args := by
  have hsize := argdataSize_eq args
  have hempty : Packing (argdataSize args) [] (junk, 0, argdataSize args) :=
    ⟨rfl, rfl, fun i hi => absurd hi (Nat.not_lt_zero i), fun i hi => absurd hi (Nat.not_lt_zero i)⟩
  have hpacked : Packing (argdataSize args) ([] ++ args)
      (args.foldl (packArgument (argdataSize args)) (junk, 0, argdataSize args)) :=
    hempty.foldl hsize.ge hbase
  rw [List.nil_append] at hpacked
  rw [packArguments]
  generalize args.foldl (packArgument (argdataSize args)) (junk, 0, argdataSize args) = state
    at hpacked ⊢
  obtain ⟨argdata, argc, pos⟩ := state
  obtain ⟨rfl, -, harray, hstrings⟩ := hpacked
  have harrayLength := length_pointers processStackBase args
  have hstringsLength := length_packed args
  have haddress : 0 + 4 + 4 + 4 * args.length = argdataSize args - packedSize args := by omega
  have hbytes : BytesAt (store32 (store32 argdata 0 args.length) 4
      (processStackBase - argdataSize args + 8)) 0 (argumentBlock args) := by
    rw [argumentBlock, bytesAt_append, bytesAt_append, bytesAt_append, length_word32,
      length_word32, length_pointers, haddress]
    refine ⟨bytesAt_store32_off _ (bytesAt_store32 _ _ _) (.inr le_rfl), bytesAt_store32 _ _ _,
      bytesAt_store32_off _ (bytesAt_store32_off _ harray (by omega)) (by omega),
      bytesAt_store32_off _ (bytesAt_store32_off _ hstrings (by omega)) (by omega)⟩
  have hload := loadBytes_bytesAt hbytes
  rwa [length_argumentBlock] at hload

end Packing

end Machine

/-! ## Plans -/

/-- What `execve` is going to do. -/
inductive Plan where
  | fails (errno : ℤ)
  | runs (core : Core) (contents : List UInt8) (address : ℕ) (argdata : List UInt8)

namespace Machine

variable {m : Machine} {pid : Pid} {r : Regs} {args : List (List UInt8)}

/-- `execve` from the lookup on, as far as it leaves the process alone. -/
def plan (m : Machine) (args : List (List UInt8)) : Option ℕ → Except Fault Plan
  | none => .ok (.fails enoent)
  | some offset =>
      let entry := DirectoryEntry.read m.image.filesystem offset
      if entry.isDir then .ok (.fails eisdir)
      else
        let size := argdataSize args
        if wordCount ≤ size then .error .overrun
        else do
          let (core, block) ← m.core.kmalloc size
          return .runs core entry.contents (processStackBase - size)
            (packArguments (core.junk block) args)

/-- The rest of `execve`. -/
def carryOut (m : Machine) (pid : Pid) (r : Regs) : Plan → Except Fault (Machine × Regs × Word)
  | .fails errno => .ok (m, r, failure errno)
  | .runs core contents address argdata => do
      let m ← (m.setCore core).replaceText pid contents
      let m ← m.storeUser address argdata
      return (m, initRegs (BitVec.ofNat 32 address) (BitVec.ofNat 32 (m.spaces pid).textStart), 0)

theorem execveWith_eq (m : Machine) (pid : Pid) (args : List (List UInt8)) (r : Regs)
    (found : Option ℕ) :
    m.execveWith pid args r found = m.plan args found >>= m.carryOut pid r := by
  cases found with
  | none => rfl
  | some offset =>
      simp only [execveWith, plan]
      split
      · rfl
      · split
        · rfl
        · cases m.core.kmalloc (argdataSize args) with
          | error fault => rfl
          | ok value => rfl

/-! ## User memory -/

/-- A live process in an address space of its own. -/
structure Housed (m : Machine) (pid : Pid) : Prop where
  sound : Paging.Sound m.pages m.dirs
  live : m.core.isLive pid = true
  fits : (m.spaces pid).Fits

theorem Settled.housed {policy : Policy} {wait : Pid → Wait} (hsettled : Settled policy m wait)
    (hlive : m.core.isLive pid = true) : m.Housed pid where
  sound := (hsettled.sane Regs.zero).layout.sound
  live := hlive
  fits := ((hsettled.sane Regs.zero).layout.furnished pid _ (dirs_eq hlive)).fits

theorem Reachable.housed {image : Image} {phys : Memory} {junk : Block → Memory}
    (hreachable : Reachable KillingSafely image phys junk m)
    (hcurrent : m.core.current = some pid) : m.Housed pid := by
  obtain ⟨wait, hsettled⟩ := hreachable.lax
  exact hsettled.housed (hsettled.live pid hcurrent)

/-- User memory has the bytes of a list at an address. -/
def Reads (m : Machine) (address : ℕ) (bytes : List UInt8) : Prop :=
  m.loadUser address bytes.length = .ok bytes

/-- What can be read of user memory. -/
def view (m : Machine) : Memory := fun address =>
  match Paging.loadByte m.cr3 m.pages (address % wordCount) with
  | .ok byte => byte
  | .error _ => 0

variable {address other : ℕ} {bytes piece : List UInt8}

theorem reads_iff : m.Reads address bytes ↔ ∀ i (hi : i < bytes.length),
    Paging.loadByte m.cr3 m.pages ((address + i) % wordCount) = .ok (bytes.get ⟨i, hi⟩) := by
  rw [Reads, loadUser, onPages_eq_ok, Paging.loadUser_eq_ok_iff]

theorem Reads.bytesAt (hreads : m.Reads address bytes) : BytesAt m.view address bytes := by
  intro i hi
  rw [view, reads_iff.mp hreads i hi]

/-- A part of what can be read. -/
theorem Reads.part (hreads : m.Reads address bytes) (hpart : BytesAt m.view other piece)
    (hlow : address ≤ other) (hhigh : other + piece.length ≤ address + bytes.length) :
    m.Reads other piece := by
  refine reads_iff.mpr fun i hi => ?_
  obtain ⟨j, hj⟩ : ∃ j, other + i = address + j := ⟨other + i - address, by omega⟩
  have hbyte := reads_iff.mp hreads j (by omega)
  have hview := hpart i hi
  rw [view, hj, hbyte] at hview
  rw [hj, hbyte, ← hview]

theorem Reads.loadWord {value : ℕ} (hreads : m.Reads address (word32 value))
    (hvalue : value < wordCount) : m.loadWord address = .ok value := by
  have hload : m.loadUser address 4 = .ok (word32 value) := hreads
  rw [Machine.loadWord, hload, ok_bind, pure_eq_ok]
  exact congrArg Except.ok (load32_bytesAt (bytesAt_ofList (word32 value)) hvalue)

/-! ## Carrying out a plan -/

/-- The size of the text segment of a program. -/
def textSize (contents : List UInt8) : ℕ := (contents.length + (pageSize - 1)) / pageSize * pageSize

theorem length_le_textSize (contents : List UInt8) : contents.length ≤ textSize contents := by
  simp only [textSize, pageSize]
  omega

/-- The bytes of a text segment. -/
def textBytes (contents : List UInt8) : List UInt8 :=
  contents ++ List.replicate (textSize contents - contents.length) 0

theorem length_textBytes (contents : List UInt8) :
    (textBytes contents).length = textSize contents := by
  have hle := length_le_textSize contents
  rw [textBytes, List.length_append, List.length_replicate]
  omega

theorem get_textBytes (contents : List UInt8) {i : ℕ} (hi : i < (textBytes contents).length) :
    (textBytes contents).get ⟨i, hi⟩ = contents.getD i 0 := by
  rw [List.get_eq_getElem]
  by_cases hinside : i < contents.length
  · simp [textBytes, List.getElem_append_left hinside, hinside]
  · simp [textBytes, List.getElem_append_right (Nat.le_of_not_lt hinside), hinside]

/-- The address space of a process that runs a new program. -/
def reloaded (space : AddressSpace) (contents : List UInt8) : AddressSpace :=
  { space with
    textStart := processTextBase
    textEnd := processTextBase + textSize contents
    dataStart := processDataBase
    dataEnd := processDataBase }

theorem fits_reloaded {space : AddressSpace} {contents : List UInt8} (hfits : space.Fits)
    (hsize : contents.length < 2 * mb) : (reloaded space contents).Fits where
  stackStart := hfits.stackStart
  stackEnd := hfits.stackEnd
  dataStart := rfl
  textStart := rfl
  dataEnd_aligned := (by decide : processDataBase % pageSize = 0)
  dataEnd_lt := (by decide : processDataBase < wordCount)
  textEnd_aligned := by
    simp only [reloaded, textSize, processTextBase, pageSize]
    omega
  textStart_le := Nat.le_add_right _ _
  textEnd_le := by
    simp only [reloaded, textSize, processTextBase, processDataBase, pageSize, mb] at *
    omega

/-- A process that runs a new program. -/
structure Started (m m' : Machine) (pid : Pid) (contents : List UInt8) (address : ℕ)
    (argdata : List UInt8) : Prop where
  housed : m'.Housed pid
  cr3 : m'.cr3 = some (m.spaces pid).pdir
  space : m'.spaces pid = reloaded (m.spaces pid) contents
  argdata : m'.Reads address argdata
  text : m'.Reads processTextBase (textBytes contents)

theorem Housed.carryOut {m' : Machine} {r' : Regs} {res : Word} {core : Core}
    {contents argdata : List UInt8} (hhoused : m.Housed pid)
    (hcore : core.processes = m.core.processes) (hsize : contents.length < 2 * mb)
    (hlow : processDataBase ≤ address) (hhigh : address + argdata.length ≤ wordCount)
    (hrun : m.carryOut pid r (.runs core contents address argdata) = .ok (m', r', res)) :
    Started m m' pid contents address argdata ∧ res = 0 ∧
      r' = initRegs (BitVec.ofNat 32 address) (BitVec.ofNat 32 processTextBase) := by
  have hdir := dirs_eq hhoused.live
  have hfits := hhoused.fits
  obtain ⟨ps₁, htext, hshrunk₁⟩ := hhoused.sound.unmapSegment hdir
    (by rw [hfits.textStart]; decide : (m.spaces pid).textStart % pageSize = 0)
    (by rw [hfits.textStart]; decide)
    (hfits.textEnd_le.trans (by decide) : (m.spaces pid).textEnd ≤ wordCount)
  obtain ⟨ps₂, hdata, hshrunk₂⟩ := hshrunk₁.sound.unmapSegment hdir
    (by rw [hfits.dataStart]; decide : (m.spaces pid).dataStart % pageSize = 0)
    (by rw [hfits.dataStart]; decide) hfits.dataEnd_lt.le
  simp only [Machine.carryOut, replaceText, setCore, storeUser, bind_eq_ok, onPages_eq_ok,
    pure_eq_ok, Except.ok.injEq, Prod.mk.injEq] at hrun
  obtain ⟨m₁, ⟨qs₁, htext', qs₂, hdata', ps₃, hload, rfl⟩, m₂, ⟨ps₄, hstore, rfl⟩, rfl, rfl, rfl⟩ :=
    hrun
  obtain rfl : ps₁ = qs₁ := Except.ok.inj (htext.symm.trans htext')
  obtain rfl : ps₂ = qs₂ := Except.ok.inj (hdata.symm.trans hdata')
  simp only [setSpace] at hstore
  have hend : processTextBase + contents.length ≤ wordCount := by
    simp only [mb, processTextBase, wordCount] at *
    omega
  have hsound₃ := (ensures_of_eq_ok
    (hshrunk₂.sound.loadSegment hdir contents (by decide) hend) hload).1.sound
  have hsound₄ := (ensures_of_eq_ok (hsound₃.storeBytes hdir address argdata) hstore).sound
  obtain ⟨hread, hsame⟩ := hsound₃.storeUser_contents hdir hhigh
    (le_trans (by decide) hlow) hstore
  have hlive : ∀ other, core.isLive other = m.core.isLive other := fun other => by
    simp only [Core.isLive, hcore]
  refine ⟨⟨⟨?_, (hlive pid).trans hhoused.live, ?_⟩, rfl, by simp [setSpace, reloaded, textSize],
    ?_, ?_⟩, rfl, ?_⟩
  · have hdirs : Machine.dirs ⟨core, ps₄, Function.update m.spaces pid
        (reloaded (m.spaces pid) contents), some (m.spaces pid).pdir, m.image⟩ = m.dirs := by
      funext other
      simp only [dirs, hlive]
      by_cases hother : other = pid
      · subst hother
        simp [reloaded]
      · simp [hother]
    exact hdirs ▸ hsound₄
  · simp only [setSpace, Function.update_self]
    exact fits_reloaded hfits hsize
  · exact onPages_eq_ok.mpr hread
  · refine reads_iff.mpr fun i hi => ?_
    rw [get_textBytes]
    rw [length_textBytes] at hi
    have hlast : textSize contents ≤ 2 * mb := by
      simp only [textSize, pageSize, mb] at *
      omega
    have hbelow : processTextBase + i < processDataBase := by
      simp only [processTextBase, processDataBase, mb] at *
      omega
    have hword : processTextBase + i < wordCount := hbelow.trans (by decide)
    rw [Nat.mod_eq_of_lt hword]
    refine (hsame pid _ _ hdir hword fun hin => ?_).trans
      (hshrunk₂.sound.loadText_contents hdir (by decide) hend hload hi)
    exact absurd hin.2.1 (by omega)
  · simp [setSpace]

/-! ## Plans of system calls -/

/-- The lookup ends the call. -/
def Refused (m : Machine) (found : Option ℕ) : Prop :=
  ∀ offset, found = some offset → (DirectoryEntry.read m.image.filesystem offset).isDir = true

theorem plan_refused {found : Option ℕ} (hrefused : m.Refused found)
    (args : List (List UInt8)) :
    ∃ errno, m.plan args found = .ok (.fails errno) ∧ (errno = enoent ∨ errno = eisdir) := by
  cases found with
  | none => exact ⟨enoent, rfl, .inl rfl⟩
  | some offset =>
      refine ⟨eisdir, ?_, .inr rfl⟩
      rw [plan]
      exact if_pos (hrefused offset rfl)

/-- A plan for a file. -/
theorem plan_file {offset : ℕ}
    (hfile : (DirectoryEntry.read m.image.filesystem offset).isDir = false) :
    m.plan args (some offset) =
      if argdataSize args < kernelMemSize then
        .ok (.runs { m.core with heap := m.core.heap + 1 }
          (DirectoryEntry.read m.image.filesystem offset).contents
          (processStackBase - argdataSize args) (argumentBlock args))
      else if wordCount ≤ argdataSize args then .error .overrun else .error .heapExhausted := by
  simp only [plan, hfile, Bool.false_eq_true, if_false, Core.kmalloc]
  by_cases hsmall : argdataSize args < kernelMemSize
  · have hword : ¬ wordCount ≤ argdataSize args := by
      simp only [kernelMemSize, wordCount] at *
      omega
    have hbase : argdataSize args ≤ processStackBase := hsmall.le.trans (by decide)
    rw [if_neg hword, if_pos hsmall, if_pos hsmall, ok_bind, pure_eq_ok, packArguments_eq _ hbase]
  · rw [if_neg hsmall, if_neg hsmall]
    split
    · rfl
    · rfl

theorem file_of_not_refused {found : Option ℕ} (hfound : ¬ m.Refused found) :
    ∃ offset, found = some offset ∧
      (DirectoryEntry.read m.image.filesystem offset).isDir = false := by
  simp only [Refused, not_forall] at hfound
  obtain ⟨offset, hoffset, hfile⟩ := hfound
  exact ⟨offset, hoffset, Bool.not_eq_true _ ▸ hfile⟩

/-- A plan that leaves the process alone. -/
theorem plan_fails {found : Option ℕ} {errno : ℤ} (hplan : m.plan args found = .ok (.fails errno)) :
    m.Refused found ∧ (errno = enoent ∨ errno = eisdir) := by
  by_cases hrefused : m.Refused found
  · obtain ⟨errno', hfails, herrno⟩ := plan_refused hrefused args
    obtain rfl := Plan.fails.inj (Except.ok.inj (hfails.symm.trans hplan))
    exact ⟨hrefused, herrno⟩
  · obtain ⟨offset, rfl, hfile⟩ := file_of_not_refused hrefused
    rw [plan_file hfile] at hplan
    split at hplan
    · cases hplan
    · split at hplan
      · cases hplan
      · cases hplan

/-- A plan that changes the process. -/
theorem plan_runs {found : Option ℕ} {core : Core} {contents argdata : List UInt8}
    (hplan : m.plan args found = .ok (.runs core contents address argdata)) :
    ∃ offset, found = some offset ∧
      (DirectoryEntry.read m.image.filesystem offset).isDir = false ∧
      argdataSize args < kernelMemSize ∧ core = { m.core with heap := m.core.heap + 1 } ∧
      contents = (DirectoryEntry.read m.image.filesystem offset).contents ∧
      address = processStackBase - argdataSize args ∧ argdata = argumentBlock args := by
  by_cases hrefused : m.Refused found
  · obtain ⟨errno, hfails, -⟩ := plan_refused hrefused args
    cases hfails.symm.trans hplan
  · obtain ⟨offset, rfl, hfile⟩ := file_of_not_refused hrefused
    rw [plan_file hfile] at hplan
    split at hplan
    next hsmall =>
      obtain ⟨rfl, rfl, rfl, rfl⟩ := Plan.runs.inj (Except.ok.inj hplan)
      exact ⟨offset, rfl, hfile, hsmall, rfl, rfl, rfl, rfl⟩
    next =>
      split at hplan
      · cases hplan
      · cases hplan

variable {filename argv : Word} {text : List UInt8}

/-- `execve` with valid arguments settles a plan and carries it out. -/
theorem syscallExecve_eq (hstring : m.validString pid filename = .ok (some text))
    (hargs : m.arguments pid argv = .ok (some args)) :
    m.syscallExecve pid filename argv r =
      m.plan args (m.execveEntry text) >>= m.carryOut pid r := by
  rw [(looksUp m pid text).execve filename argv args r hstring hargs, execveWith_eq]

/-- A successful call has started a program. -/
theorem Housed.started {m' : Machine} {r' : Regs} (hhoused : m.Housed pid)
    (hstring : m.validString pid filename = .ok (some text))
    (hargs : m.arguments pid argv = .ok (some args))
    (hsize : argdataSize args ≤ processStackSize)
    (hcall : m.syscallExecve pid filename argv r = .ok (m', r', 0)) :
    ∃ offset, m.execveEntry text = some offset ∧
      Started m m' pid (DirectoryEntry.read m.image.filesystem offset).contents
        (processStackBase - argdataSize args) (argumentBlock args) ∧
      r' = initRegs (BitVec.ofNat 32 (processStackBase - argdataSize args))
        (BitVec.ofNat 32 processTextBase) := by
  rw [syscallExecve_eq hstring hargs, bind_eq_ok] at hcall
  obtain ⟨choice, hplan, hrun⟩ := hcall
  cases choice with
  | fails errno =>
      have hzero : failure errno = 0 :=
        congrArg (fun value => value.2.2) (Except.ok.inj hrun)
      obtain ⟨-, rfl | rfl⟩ := plan_fails hplan
      · exact absurd hzero (by decide)
      · exact absurd hzero (by decide)
  | runs core contents address argdata =>
      obtain ⟨offset, hfound, -, -, rfl, rfl, rfl, rfl⟩ := plan_runs hplan
      have hentry : m.image.getDirectoryEntry text =
          some (.read m.image.filesystem offset) := by
        rw [Image.getDirectoryEntry]
        exact congrArg (Option.map _) hfound
      have hshort := m.image.length_contents_lt hentry
      have hlow : processDataBase ≤ processStackBase - argdataSize args := by
        simp only [processDataBase, processStackBase, processStackSize] at *
        omega
      have hhigh : processStackBase - argdataSize args + (argumentBlock args).length ≤
          wordCount := by
        rw [length_argumentBlock]
        simp only [processStackBase, processStackSize, wordCount] at *
        omega
      have hprocesses : ({ m.core with heap := m.core.heap + 1 } : Core).processes =
          m.core.processes := rfl
      obtain ⟨hstarted, -, hregs⟩ := hhoused.carryOut hprocesses hshort hlow hhigh hrun
      exact ⟨offset, hfound, hstarted, hregs⟩

/-! ## Reading arguments -/

theorem reads_cons {byte : UInt8} : m.Reads address (byte :: bytes) ↔
    m.loadUser address 1 = .ok [byte] ∧ m.Reads (address + 1) bytes := by
  have hone : m.loadUser address 1 = .ok [byte] ↔
      Paging.loadByte m.cr3 m.pages (address % wordCount) = .ok byte := by
    rw [loadUser, onPages_eq_ok, Paging.loadUser, Paging.loadUser]
    cases Paging.loadByte m.cr3 m.pages (address % wordCount) with
    | error fault => simp
    | ok byte => simp
  rw [hone, reads_iff, reads_iff]
  constructor
  · intro hbytes
    refine ⟨hbytes 0 (Nat.succ_pos _), fun i hi => ?_⟩
    rw [Nat.add_assoc, Nat.add_comm 1]
    exact hbytes (i + 1) (Nat.succ_lt_succ hi)
  · rintro ⟨hfirst, hrest⟩ i hi
    cases i with
    | zero => exact hfirst
    | succ i =>
        have hbyte := hrest i (Nat.lt_of_succ_lt_succ hi)
        rwa [Nat.add_assoc, Nat.add_comm 1] at hbyte

/-- A buffer in a segment of a process. -/
theorem validPointer_of_within {space : AddressSpace} {ptr size : ℕ}
    (hword : ptr + size < wordCount)
    (hwithin : within ptr size space.stackStart space.stackEnd = true ∨
      within ptr size space.dataStart space.dataEnd = true ∨
      within ptr size space.textStart space.textEnd = true) :
    validPointer space ptr size = true := by
  rw [validPointer, if_neg (Nat.not_le.mpr hword)]
  split
  · rfl
  · rcases hwithin with hstack | hdata | htext
    · simp [hstack]
    · simp [hdata]
    · simp [htext]

/-- A string that lies in the segments of its process. -/
structure StringAt (m : Machine) (pid : Pid) (str : ℕ) (string : List UInt8) : Prop where
  reads : m.Reads str (terminated string)
  text : 0 ∉ string
  valid : ∀ size ≤ string.length + 1, validPointer (m.spaces pid) str size = true
  short : string.length + 1 < wordCount

theorem validStringFrom_of_reads {space : AddressSpace} {str len rounds : ℕ}
    {string : List UInt8} (hreads : m.Reads (str + len) (terminated string)) (htext : 0 ∉ string)
    (hvalid : ∀ size ≤ len + string.length + 1, validPointer space str size = true)
    (hshort : len + string.length + 1 < wordCount) (hrounds : string.length < rounds) :
    m.validStringFrom space str rounds len = .ok (some string) := by
  induction string generalizing len rounds with
  | nil =>
      obtain ⟨rounds, rfl⟩ : ∃ n, rounds = n + 1 := ⟨rounds - 1, by omega⟩
      have hsize : (len + 1) % wordCount = len + 1 := Nat.mod_eq_of_lt (by simpa using hshort)
      obtain ⟨hbyte, -⟩ := reads_cons.mp hreads
      rw [validStringFrom, hsize, if_pos (hvalid _ (by simp)), hbyte, ok_bind, if_pos rfl,
        pure_eq_ok]
  | cons byte string ih =>
      obtain ⟨rounds, rfl⟩ : ∃ n, rounds = n + 1 := ⟨rounds - 1, by omega⟩
      rw [List.length_cons] at hvalid hshort hrounds
      obtain ⟨hbyte, hrest⟩ := reads_cons.mp hreads
      have hne : [byte] ≠ [0] := by
        rintro ⟨⟩
        exact htext List.mem_cons_self
      have hnext : m.validStringFrom space str rounds (len + 1) = .ok (some string) := by
        refine ih ?_ (fun hmem => htext (List.mem_cons_of_mem _ hmem)) ?_ (by omega) (by omega)
        · rw [← Nat.add_assoc]
          exact hrest
        · intro size hsize
          exact hvalid size (by omega)
      have hsize : (len + 1) % wordCount = len + 1 := Nat.mod_eq_of_lt (by omega)
      rw [validStringFrom, hsize, if_pos (hvalid _ (by omega)), hbyte, ok_bind, if_neg hne, hnext,
        ok_bind, pure_eq_ok]
      rfl

theorem StringAt.validString {str : Word} {string : List UInt8}
    (hstring : m.StringAt pid str.toNat string) :
    m.validString pid str = .ok (some string) := by
  have hshort := hstring.short
  refine validStringFrom_of_reads hstring.reads hstring.text ?_ (by omega) (by omega)
  intro size hsize
  exact hstring.valid size (by omega)

/-- A string ends before its first zero. -/
theorem validStringFrom_text {space : AddressSpace} {str len rounds : ℕ} {string : List UInt8}
    (hread : m.validStringFrom space str rounds len = .ok (some string)) : 0 ∉ string := by
  induction rounds generalizing len string with
  | zero => cases hread
  | succ rounds ih =>
      rw [validStringFrom] at hread
      split at hread
      · rw [bind_eq_ok] at hread
        obtain ⟨bytes, hload, hread⟩ := hread
        have hlength := loadUser_spec m (str + len) 1
        rw [hload, ensures_ok] at hlength
        obtain ⟨byte, rfl⟩ := List.length_eq_one_iff.mp hlength
        split at hread
        · obtain rfl := Option.some_injective _ (Except.ok.inj hread)
          exact List.not_mem_nil
        next hne =>
          rw [bind_eq_ok] at hread
          obtain ⟨rest, hrest, hread⟩ := hread
          obtain ⟨tail, rfl, rfl⟩ := Option.map_eq_some_iff.mp (Except.ok.inj hread)
          intro hmem
          rcases List.mem_append.mp hmem with hfirst | htail
          · exact hne (by rw [List.mem_singleton.mp hfirst])
          · exact ih hrest htail
      · cases Except.ok.inj hread

theorem argumentsFrom_text {argv rounds argno : ℕ}
    (hread : m.argumentsFrom pid argv rounds argno = .ok (some args)) :
    ∀ arg ∈ args, 0 ∉ arg := by
  induction rounds generalizing argno args with
  | zero => cases hread
  | succ rounds ih =>
      rw [argumentsFrom] at hread
      split at hread
      · rw [bind_eq_ok] at hread
        obtain ⟨pointer, -, hread⟩ := hread
        split at hread
        · obtain rfl := Option.some_injective _ (Except.ok.inj hread)
          exact fun _ hmem => absurd hmem List.not_mem_nil
        · rw [bind_eq_ok] at hread
          obtain ⟨string, hstring, hread⟩ := hread
          cases string with
          | none => cases Except.ok.inj hread
          | some string =>
              rw [bind_eq_ok] at hread
              obtain ⟨rest, hrest, hread⟩ := hread
              obtain ⟨tail, rfl, rfl⟩ := Option.map_eq_some_iff.mp (Except.ok.inj hread)
              intro arg hmem
              rcases List.mem_cons.mp hmem with rfl | htail
              · exact validStringFrom_text hstring
              · exact ih hrest arg htail
      · cases Except.ok.inj hread

theorem arguments_text {argv : Word} (hread : m.arguments pid argv = .ok (some args)) :
    ∀ arg ∈ args, 0 ∉ arg := by
  rw [Machine.arguments] at hread
  split at hread
  · obtain rfl := Option.some_injective _ (Except.ok.inj hread)
    exact fun _ hmem => absurd hmem List.not_mem_nil
  · exact argumentsFrom_text hread

/-- Entry `argno` of an array of pointers leads to a string. -/
structure EntryAt (m : Machine) (pid : Pid) (argv argno : ℕ) (string : List UInt8) : Prop where
  valid : validPointer (m.spaces pid) argv ((argno + 1) * 4 % wordCount) = true
  entry : ∃ str, m.loadWord (argv + argno * 4) = .ok str ∧ str ≠ 0 ∧ str < wordCount ∧
    m.StringAt pid str string

/-- Arguments that have been found are in front of the result. -/
theorem argumentsFrom_append {argv argno rounds : ℕ}
    (hentries : ∀ i (hi : i < args.length), m.EntryAt pid argv (argno + i) (args.get ⟨i, hi⟩)) :
    m.argumentsFrom pid argv (args.length + rounds) argno =
      (m.argumentsFrom pid argv rounds (argno + args.length)).map (Option.map (args ++ ·)) := by
  induction args generalizing argno with
  | nil =>
      rw [List.length_nil, Nat.zero_add, Nat.add_zero]
      cases m.argumentsFrom pid argv rounds argno with
      | error fault => rfl
      | ok found => cases found <;> rfl
  | cons arg args ih =>
      have hfirst := hentries 0 (Nat.succ_pos _)
      rw [Nat.add_zero] at hfirst
      obtain ⟨hvalid, str, hword, hne, hlt, hstring⟩ := hfirst
      have hnext := @ih (argno + 1) fun i hi => by
        have hentry := hentries (i + 1) (Nat.succ_lt_succ hi)
        rwa [← Nat.add_assoc, Nat.add_right_comm] at hentry
      have hpointer : (BitVec.ofNat 32 str).toNat = str := by
        rw [BitVec.toNat_ofNat]
        exact Nat.mod_eq_of_lt hlt
      have hread : m.validString pid (BitVec.ofNat 32 str) = .ok (some arg) := by
        refine StringAt.validString ?_
        rw [hpointer]
        exact hstring
      have hcount : argno + 1 + args.length = argno + (args.length + 1) := by omega
      rw [List.length_cons, Nat.add_right_comm, argumentsFrom, if_pos hvalid, hword, ok_bind,
        if_neg hne, hread, ok_bind]
      dsimp only
      rw [hnext, hcount]
      cases m.argumentsFrom pid argv rounds (argno + (args.length + 1)) with
      | error fault => rfl
      | ok found => cases found <;> rfl

/-- The array ends exactly where a null pointer is read. -/
theorem argumentsFrom_eq_nil_iff {argv argno : ℕ} (rounds : ℕ) :
    m.argumentsFrom pid argv (rounds + 1) argno = .ok (some []) ↔
      validPointer (m.spaces pid) argv ((argno + 1) * 4 % wordCount) = true ∧
        m.loadWord (argv + argno * 4) = .ok 0 := by
  rw [argumentsFrom]
  split
  next hvalid =>
    simp only [hvalid, true_and]
    cases m.loadWord (argv + argno * 4) with
    | error fault => simp
    | ok arg =>
        rw [ok_bind, Except.ok.injEq]
        split
        next hzero => simp [hzero]
        next hne =>
          simp only [hne, iff_false]
          cases m.validString pid (BitVec.ofNat 32 arg) with
          | error fault => simp
          | ok string =>
              cases string with
              | none => simp
              | some string =>
                  rw [ok_bind]
                  cases m.argumentsFrom pid argv rounds (argno + 1) with
                  | error fault => simp
                  | ok found => cases found <;> simp
  next hinvalid => simp [hinvalid]

/-- An array of pointers to the strings is read as exactly these strings if a null pointer
follows it. -/
theorem arguments_iff {argv : Word} (hnull : argv ≠ 0) (hlength : args.length < wordCount)
    (hentries : ∀ i (hi : i < args.length), m.EntryAt pid argv.toNat i (args.get ⟨i, hi⟩)) :
    m.arguments pid argv = .ok (some args) ↔
      validPointer (m.spaces pid) argv.toNat ((args.length + 1) * 4 % wordCount) = true ∧
        m.loadWord (argv.toNat + args.length * 4) = .ok 0 := by
  obtain ⟨rounds, hrounds⟩ : ∃ rounds, wordCount = args.length + (rounds + 1) :=
    ⟨wordCount - args.length - 1, by omega⟩
  have hfound : m.arguments pid argv =
      (m.argumentsFrom pid argv.toNat (rounds + 1) args.length).map (Option.map (args ++ ·)) := by
    rw [Machine.arguments, if_neg hnull, hrounds, argumentsFrom_append, Nat.zero_add]
    intro i hi
    rw [Nat.zero_add]
    exact hentries i hi
  rw [hfound, ← argumentsFrom_eq_nil_iff rounds]
  cases m.argumentsFrom pid argv.toNat (rounds + 1) args.length with
  | error fault => simp [Except.map]
  | ok found => cases found <;> simp [Except.map]

end Machine

end Rhythmos.Kernel
