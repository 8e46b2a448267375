import Rhythmos.Kernel.Programs

/-!
# What a program finds on its stack

`execve` passes the arguments of a program below the end of the stack segment: the number of
arguments, the pointer to the array, the array of pointers, and the strings.  Nothing follows
the array, so what a reader that looks for a null pointer finds there is the beginning of the
strings.
-/

namespace Rhythmos.Kernel

open Fallible ByteMemory Libc Paging PackedStrings

namespace Machine

variable {m m' : Machine} {r r' : Regs} {pid : Pid} {args : List (List UInt8)}

/-! ## The argument data of a program -/

/-- Two regions, each with its address and its length, have no byte in common. -/
def Apart (left right : ℕ × ℕ) : Prop :=
  left.1 + left.2 ≤ right.1 ∨ right.1 + right.2 ≤ left.1

/-- The regions of the argument data: the first two words, the array, and the strings. -/
def regions (args : List (List UInt8)) : List (ℕ × ℕ) :=
  (processStackBase - argdataSize args, 8) ::
    (processStackBase - argdataSize args + 8, 4 * args.length) ::
      (List.range args.length).map fun i =>
        (start processStackBase args i, (args.getD i []).length + 1)

/-- A program finds its arguments from the address `stack` on. -/
structure ArgumentsPassed (m : Machine) (stack : ℕ) (args : List (List UInt8)) : Prop where
  argc : m.loadWord stack = .ok args.length
  argv : m.loadWord (stack + 4) = .ok (stack + 8)
  entry : ∀ i < args.length,
    m.loadWord (stack + 8 + 4 * i) = .ok (start processStackBase args i)
  string : ∀ i (hi : i < args.length),
    m.Reads (start processStackBase args i) (terminated (args.get ⟨i, hi⟩))
  inside : ∀ region ∈ regions args, stack ≤ region.1 ∧ region.1 + region.2 ≤ processStackBase
  apart : (regions args).Pairwise Apart

theorem getD_eq_get {i : ℕ} (hi : i < args.length) : args.getD i [] = args.get ⟨i, hi⟩ := by
  simp [hi]

theorem regions_inside (hsize : argdataSize args ≤ processStackBase) :
    ∀ region ∈ regions args, processStackBase - argdataSize args ≤ region.1 ∧
      region.1 + region.2 ≤ processStackBase := by
  have hdata := argdataSize_eq args
  have hlimit : packedSize args ≤ processStackBase := by omega
  intro region hregion
  simp only [regions, List.mem_cons, List.mem_map, List.mem_range] at hregion
  rcases hregion with rfl | rfl | ⟨i, hi, rfl⟩
  · constructor
    · exact le_rfl
    · simp only
      omega
  · constructor
    · exact Nat.le_add_right _ _
    · simp only
      omega
  · have hlow := le_start args processStackBase i
    have hend := start_add hlimit hi
    rw [getD_eq_get hi]
    constructor
    · simp only
      omega
    · rw [hend]
      exact Nat.sub_le _ _

theorem regions_apart (hsize : argdataSize args ≤ processStackBase) :
    (regions args).Pairwise Apart := by
  have hdata := argdataSize_eq args
  have hlimit : packedSize args ≤ processStackBase := by omega
  have hstrings : ∀ region ∈ (List.range args.length).map fun i =>
      (start processStackBase args i, (args.getD i []).length + 1),
      processStackBase - packedSize args ≤ region.1 := by
    intro region hregion
    obtain ⟨i, -, rfl⟩ := List.mem_map.mp hregion
    exact le_start args processStackBase i
  rw [regions, List.pairwise_cons, List.pairwise_cons, List.pairwise_map]
  refine ⟨fun region hregion => ?_, fun region hregion => ?_, ?_⟩
  · rw [List.mem_cons] at hregion
    rcases hregion with rfl | hregion
    · exact .inl le_rfl
    · have hlow := hstrings region hregion
      left
      simp only
      omega
  · have hlow := hstrings region hregion
    left
    simp only
    omega
  · refine List.pairwise_lt_range.imp_of_mem ?_
    intro i j hi hj hij
    rw [List.mem_range] at hi hj
    right
    rw [getD_eq_get hj]
    exact start_add_le hlimit hij hj

/-- The argument data are read as the arguments. -/
theorem passed_of_reads (hsize : argdataSize args ≤ processStackBase)
    (hreads : m.Reads (processStackBase - argdataSize args) (argumentBlock args)) :
    m.ArgumentsPassed (processStackBase - argdataSize args) args := by
  have hdata := argdataSize_eq args
  have hlimit : packedSize args ≤ processStackBase := by omega
  have hlength := length_argumentBlock args
  have hbytes := hreads.bytesAt
  have haddress : processStackBase - argdataSize args + 4 + 4 + 4 * args.length =
      processStackBase - packedSize args := by omega
  rw [argumentBlock, bytesAt_append, bytesAt_append, bytesAt_append, length_word32, length_word32,
    length_pointers, haddress] at hbytes
  obtain ⟨hargc, hargv, harray, hstrings⟩ := hbytes
  have hbase : processStackBase < wordCount := by decide
  have hword : ∀ address value, BytesAt m.view address (word32 value) → value < wordCount →
      processStackBase - argdataSize args ≤ address → address + 4 ≤ processStackBase →
      m.loadWord address = .ok value := by
    intro address value hvalue hsmall hlow hhigh
    refine (hreads.part hvalue hlow ?_).loadWord hsmall
    rw [length_word32]
    omega
  refine ⟨hword _ _ hargc (by omega) le_rfl (by omega), hword _ _ hargv (by omega) (by omega)
    (by omega), fun i hi => ?_, fun i hi => ?_, regions_inside hsize, regions_apart hsize⟩
  · have hpointer := start_lt hlimit hi
    exact hword _ _ (bytesAt_words harray i hi) (by omega) (by omega) (by omega)
  · have hlow := le_start args processStackBase i
    have hend := start_add hlimit hi
    refine hreads.part (bytesAt_start hstrings hlimit hi) (by omega) ?_
    rw [length_terminated, hend]
    omega

/-! ## Arguments that fit the stack -/

section Fitting

variable {filename argv : Word} {text contents : List UInt8} {address : ℕ}

theorem toNat_stack (hsize : argdataSize args ≤ processStackSize) :
    (BitVec.ofNat 32 (processStackBase - argdataSize args)).toNat =
      processStackBase - argdataSize args := by
  rw [BitVec.toNat_ofNat]
  refine Nat.mod_eq_of_lt ?_
  simp only [processStackBase, processStackSize] at *
  omega

/-- After a successful call of `execve` whose argument data fit the stack, the program finds
its arguments at the top of its stack, in regions that have no byte in common; its text
segment consists of the bytes of the file and of zeros up to a page boundary. -/
theorem execve_passes_arguments :
    (∀ (image : Image) (phys : Memory) (junk : Block → Memory) (m : Machine) (pid : Pid) (r : Regs),
      Reachable KillingSafely image phys junk m → m.core.current = some pid →
        (m.entered pid r).Housed pid) ∧
    ∀ (m m' : Machine) (pid : Pid) (filename argv : Word) (r r' : Regs) (text : List UInt8)
      (args : List (List UInt8)), m.Housed pid →
      m.validString pid filename = .ok (some text) → m.arguments pid argv = .ok (some args) →
      argdataSize args ≤ processStackSize →
      m.syscallExecve pid filename argv r = .ok (m', r', 0) →
      r'.useresp.toNat = processStackBase - argdataSize args ∧
      m'.ArgumentsPassed r'.useresp.toNat args ∧
      ∃ offset, m.execveEntry text = some offset ∧
        let contents := (DirectoryEntry.read m.image.filesystem offset).contents
        (m'.spaces pid).textStart = processTextBase ∧
        (m'.spaces pid).textEnd = processTextBase + (textBytes contents).length ∧
        (m'.spaces pid).textEnd % pageSize = 0 ∧
        (textBytes contents).length < contents.length + pageSize ∧
        m'.Reads processTextBase (textBytes contents) := by
  refine ⟨fun image phys junk m pid r hreachable hcurrent =>
    (hreachable.housed hcurrent).entered r, ?_⟩
  intro m m' pid filename argv r r' text args hhoused hstring hargs hsize hcall
  obtain ⟨offset, hentry, hstarted, rfl⟩ := hhoused.started hstring hargs hsize hcall
  have hstack : (initRegs (BitVec.ofNat 32 (processStackBase - argdataSize args))
      (BitVec.ofNat 32 processTextBase)).useresp.toNat = processStackBase - argdataSize args :=
    toNat_stack hsize
  have hlimit : argdataSize args ≤ processStackBase := hsize.trans (by decide)
  refine ⟨hstack, ?_, offset, hentry, ?_, ?_, hstarted.housed.fits.textEnd_aligned, ?_,
    hstarted.text⟩
  · rw [hstack]
    exact passed_of_reads hlimit hstarted.argdata
  · rw [hstarted.space]
    rfl
  · rw [hstarted.space, length_textBytes]
    rfl
  · rw [length_textBytes]
    simp only [textSize, pageSize]
    omega

/-- A program that executes its file with the arguments `ls`, `-l`, the empty one and `/a b`. -/
theorem execve_passes_arguments_ls : ∃ image m m' r',
    Reachable NotKilling image (fun _ => 0) (fun _ _ => 0) m ∧ m.core.current = some 1 ∧
      (m.entered 1 executeRegs).syscallExecve 1 (executeRegs.args 0) (executeRegs.args 1)
        executeRegs = .ok (m', r', 0) ∧
      m'.ArgumentsPassed r'.useresp.toNat [[108, 115], [45, 108], [], [47, 97, 32, 98]] := by
  obtain ⟨image, m, wait, hreachable, hcurrent, hexecutes⟩ :=
    exists_executes [[108, 115], [45, 108], [], [47, 97, 32, 98]] (by decide) (by decide)
  have hhoused := execve_passes_arguments.1 image _ _ m 1 executeRegs hreachable.safely hcurrent
  obtain ⟨m', r', hcall, -⟩ := hexecutes.call.exists_execve hexecutes.room hexecutes.string
    hexecutes.arguments hexecutes.entry hexecutes.file (by decide)
  have hpassed := execve_passes_arguments.2 _ m' 1 _ _ executeRegs r' [] _ hhoused
    hexecutes.string hexecutes.arguments (by decide) hcall
  exact ⟨image, m, m', r', hreachable, hcurrent, hcall, hpassed.2.1⟩

/-! ## Reading the arguments again -/

theorem validPointer_stack {space : AddressSpace} (hfits : space.Fits) {ptr size : ℕ}
    (hlow : processStackBase - processStackSize ≤ ptr) (hdata : space.dataEnd ≤ processDataBase)
    (htext : space.textEnd ≤ processDataBase) (hsize : 0 < size) (hword : ptr + size < wordCount) :
    validPointer space ptr size = true ↔ ptr + size ≤ processStackBase := by
  have hnotData : ¬ (ptr + size ≤ space.dataEnd) := by
    simp only [processStackBase, processStackSize, processDataBase] at *
    omega
  have hnotText : ¬ (ptr + size ≤ space.textEnd) := by
    simp only [processStackBase, processStackSize, processDataBase] at *
    omega
  simp [validPointer, within, hfits.stackStart, hfits.stackEnd, hnotData, hnotText, hlow,
    hsize.ne', Nat.not_le.mpr hword]

theorem word_eq_zero_iff {bytes : List UInt8} (hlength : bytes.length = 4) :
    load32 (ofList bytes) 0 = 0 ↔ bytes = List.replicate 4 0 := by
  obtain ⟨a, b, c, d, rfl⟩ := List.length_eq_four.mp hlength
  have hbyte : ∀ byte : UInt8, byte.toNat = 0 ↔ byte = 0 := by
    intro byte
    rw [← UInt8.toNat_inj]
    rfl
  simp [load32, ofList, List.replicate, hbyte, and_assoc]

/-- The word behind the array is the beginning of the strings. -/
theorem loadWord_behind
    (hreads : m.Reads (processStackBase - argdataSize args) (argumentBlock args))
    (hfour : 4 ≤ packedSize args) :
    m.loadWord (processStackBase - argdataSize args + 8 + args.length * 4) = .ok 0 ↔
      List.replicate 4 0 <+: packed args := by
  have hdata := argdataSize_eq args
  have hlength := length_argumentBlock args
  have hbytes := hreads.bytesAt
  rw [argumentBlock, bytesAt_append, bytesAt_append, bytesAt_append, length_word32, length_word32,
    length_pointers, ← List.take_append_drop 4 (packed args), bytesAt_append] at hbytes
  have haddress : processStackBase - argdataSize args + 8 + args.length * 4 =
      processStackBase - argdataSize args + 4 + 4 + 4 * args.length := by omega
  have hfront : ((packed args).take 4).length = 4 := by
    rw [List.length_take, length_packed, Nat.min_eq_left hfour]
  have hread : m.loadUser (processStackBase - argdataSize args + 8 + args.length * 4) 4 =
      .ok ((packed args).take 4) := by
    have hpart : m.Reads (processStackBase - argdataSize args + 4 + 4 + 4 * args.length)
        ((packed args).take 4) := by
      refine hreads.part hbytes.2.2.2.1 (by omega) ?_
      rw [hfront]
      omega
    rw [Reads, hfront] at hpart
    rw [haddress, hpart]
  rw [loadWord, hread, ok_bind, pure_eq_ok, Except.ok.injEq]
  refine (word_eq_zero_iff hfront).trans ?_
  rw [List.prefix_iff_eq_take, List.length_replicate]
  exact eq_comm

/-- The array is read as the arguments if a null pointer seems to follow it. -/
theorem arguments_stack_iff (hfits : (m.spaces pid).Fits)
    (hdataEnd : (m.spaces pid).dataEnd ≤ processDataBase)
    (hsize : argdataSize args ≤ processStackSize) (hzero : ∀ arg ∈ args, 0 ∉ arg)
    (hreads : m.Reads (processStackBase - argdataSize args) (argumentBlock args))
    (hargv : argv.toNat = processStackBase - argdataSize args + 8) :
    m.arguments pid argv = .ok (some args) ↔ List.replicate 4 [] <:+ args := by
  have hdata := argdataSize_eq args
  have hlimit : argdataSize args ≤ processStackBase := hsize.trans (by decide)
  have hpassed := passed_of_reads hlimit hreads
  have hcount : args.length < wordCount := by
    simp only [processStackSize, wordCount] at *
    omega
  have hnull : argv ≠ 0 := by
    rintro rfl
    exact absurd hargv (by simp)
  have hvalid : ∀ {ptr size : ℕ}, processStackBase - argdataSize args ≤ ptr → 0 < size →
      ptr + size < wordCount →
      (validPointer (m.spaces pid) ptr size = true ↔ ptr + size ≤ processStackBase) := by
    intro ptr size hlow hpos hword
    refine validPointer_stack hfits ?_ hdataEnd hfits.textEnd_le hpos hword
    omega
  have hentries : ∀ i (hi : i < args.length),
      m.EntryAt pid argv.toNat i (args.get ⟨i, hi⟩) := by
    intro i hi
    have hlimit' : packedSize args ≤ processStackBase := by omega
    have hlow := le_start args processStackBase i
    have hhigh := start_lt hlimit' hi
    have hend := start_add hlimit' hi
    have hstackSize : processStackBase + processStackSize < wordCount := by decide
    have hsmall : (i + 1) * 4 < wordCount := by
      simp only [processStackSize, wordCount] at *
      omega
    rw [hargv]
    refine ⟨?_, start processStackBase args i, ?_, by omega, by omega, hpassed.string i hi,
      hzero _ (List.get_mem _ _), fun size hshort => ?_, by omega⟩
    · rw [Nat.mod_eq_of_lt hsmall]
      exact (hvalid (by omega) (by omega) (by omega)).mpr (by omega)
    · rw [Nat.mul_comm]
      exact hpassed.entry i hi
    · rcases Nat.eq_zero_or_pos size with rfl | hpos
      · rfl
      · exact (hvalid (by omega) hpos (by omega)).mpr (by omega)
  have hsmall : (args.length + 1) * 4 < wordCount := by
    simp only [processStackSize, wordCount] at *
    omega
  have hbase : processStackBase + processStackSize < wordCount := by decide
  rw [arguments_iff hnull hcount hentries, hargv, Nat.mod_eq_of_lt hsmall,
    hvalid (by omega) (by omega) (by omega), ← replicate_prefix_packed_iff 4 hzero]
  by_cases hfour : 4 ≤ packedSize args
  · rw [loadWord_behind hreads hfour]
    exact and_iff_right (by omega)
  · constructor
    · rintro ⟨hinside, -⟩
      exact absurd hinside (by omega)
    · intro hinitial
      have hle := hinitial.length_le
      rw [List.length_replicate, length_packed] at hle
      exact absurd hle hfour

/-- The array that a program receives is read as the arguments, up to the first null pointer,
exactly when the last four arguments are empty strings: the array is followed by the last
arguments, and not by a null pointer. -/
theorem execve_argv_valid_iff (image : Image) (phys : Memory) (junk : Block → Memory) (m : Machine)
    (pid : Pid) (r : Regs) :
    (Reachable KillingSafely image phys junk m → m.core.current = some pid →
      (m.entered pid r).Housed pid) ∧
    ∀ (m' : Machine) (filename argv : Word) (r' : Regs) (text : List UInt8)
      (args : List (List UInt8)), m.Housed pid →
      m.validString pid filename = .ok (some text) → m.arguments pid argv = .ok (some args) →
      argdataSize args ≤ processStackSize →
      m.syscallExecve pid filename argv r = .ok (m', r', 0) →
      ∃ array : Word, m'.loadWord (r'.useresp.toNat + 4) = .ok array.toNat ∧
        (m'.arguments pid array = .ok (some args) ↔ List.replicate 4 [] <:+ args) := by
  refine ⟨fun hreachable hcurrent => (hreachable.housed hcurrent).entered r, ?_⟩
  intro m' filename argv r' text args hhoused hstring hargs hsize hcall
  obtain ⟨offset, hentry, hstarted, rfl⟩ := hhoused.started hstring hargs hsize hcall
  have hstack : (initRegs (BitVec.ofNat 32 (processStackBase - argdataSize args))
      (BitVec.ofNat 32 processTextBase)).useresp.toNat = processStackBase - argdataSize args :=
    toNat_stack hsize
  have hlimit : argdataSize args ≤ processStackBase := hsize.trans (by decide)
  have hpassed := passed_of_reads hlimit hstarted.argdata
  have harray : (BitVec.ofNat 32 (processStackBase - argdataSize args + 8)).toNat =
      processStackBase - argdataSize args + 8 := by
    rw [BitVec.toNat_ofNat]
    refine Nat.mod_eq_of_lt ?_
    simp only [processStackBase, processStackSize] at *
    omega
  have hdataEnd : (m'.spaces pid).dataEnd ≤ processDataBase := by
    rw [hstarted.space]
    exact le_rfl
  refine ⟨BitVec.ofNat 32 (processStackBase - argdataSize args + 8), ?_, ?_⟩
  · rw [hstack, harray]
    exact hpassed.argv
  · exact arguments_stack_iff hstarted.housed.fits hdataEnd hsize (arguments_text hargs)
      hstarted.argdata harray

/-- A program that executes its file with four empty strings. -/
theorem execve_argv_valid_empty : ∃ image m m' r' array,
    Reachable NotKilling image (fun _ => 0) (fun _ _ => 0) m ∧ m.core.current = some 1 ∧
      (m.entered 1 executeRegs).syscallExecve 1 (executeRegs.args 0) (executeRegs.args 1)
        executeRegs = .ok (m', r', 0) ∧
      m'.loadWord (r'.useresp.toNat + 4) = .ok array.toNat ∧
      m'.arguments 1 array = .ok (some [[], [], [], []]) := by
  obtain ⟨image, m, wait, hreachable, hcurrent, hexecutes⟩ :=
    exists_executes [[], [], [], []] (by decide) (by decide)
  have hhoused := (execve_argv_valid_iff image _ _ m 1 executeRegs).1 hreachable.safely hcurrent
  obtain ⟨m', r', hcall, -⟩ := hexecutes.call.exists_execve hexecutes.room hexecutes.string
    hexecutes.arguments hexecutes.entry hexecutes.file (by decide)
  obtain ⟨array, hload, hiff⟩ :=
    (execve_argv_valid_iff image (fun _ => 0) (fun _ _ => 0) _ 1 executeRegs).2 m' _ _ r' [] _
      hhoused
      hexecutes.string hexecutes.arguments (by decide) hcall
  exact ⟨image, m, m', r', array, hreachable, hcurrent, hcall, hload,
    hiff.mpr List.suffix_rfl⟩

/-- A program that executes its file with the argument `a` receives an array that is not read
as this argument: the word behind the array is past the end of the stack. -/
theorem execve_argv_unterminated : ∃ image m m' r' array,
    Reachable NotKilling image (fun _ => 0) (fun _ _ => 0) m ∧ m.core.current = some 1 ∧
      (m.entered 1 executeRegs).arguments 1 (executeRegs.args 1) = .ok (some [[97]]) ∧
      (m.entered 1 executeRegs).syscallExecve 1 (executeRegs.args 0) (executeRegs.args 1)
        executeRegs = .ok (m', r', 0) ∧
      m'.loadWord (r'.useresp.toNat + 4) = .ok (array : Word).toNat ∧
      m'.arguments 1 array ≠ .ok (some [[97]]) := by
  obtain ⟨image, m, wait, hreachable, hcurrent, hexecutes⟩ :=
    exists_executes [[97]] (by decide) (by decide)
  have hhoused := (hreachable.safely.housed hcurrent).entered executeRegs
  obtain ⟨m', r', hcall, -⟩ := hexecutes.call.exists_execve hexecutes.room hexecutes.string
    hexecutes.arguments hexecutes.entry hexecutes.file (by decide)
  have hsize : argdataSize [[97]] ≤ processStackSize := by decide
  obtain ⟨offset, -, hstarted, rfl⟩ :=
    hhoused.started hexecutes.string hexecutes.arguments hsize hcall
  have hpassed := passed_of_reads (by decide) hstarted.argdata
  have hdataEnd : (m'.spaces 1).dataEnd ≤ processDataBase := by
    rw [hstarted.space]
    exact le_rfl
  refine ⟨image, m, m', _, BitVec.ofNat 32 (processStackBase - argdataSize [[97]] + 8), hreachable,
    hcurrent, hexecutes.arguments, hcall, hpassed.argv, ?_⟩
  rw [ne_eq, arguments_stack_iff hstarted.housed.fits hdataEnd hsize (by decide) hstarted.argdata
    (by decide)]
  decide

end Fitting

/-! ## Arguments that do not fit the stack -/

theorem plan_confined_iff (hfits : (m.spaces pid).Fits) (found : Option ℕ) :
    (∃ choice, m.plan args found = .ok choice ∧ choice.Confined (m.spaces pid)) ↔
      m.Refused found ∨ argdataSize args ≤ processStackSize := by
  by_cases hrefused : m.Refused found
  · obtain ⟨errno, hplan, -⟩ := plan_refused hrefused args
    exact iff_of_true ⟨_, hplan, trivial⟩ (.inl hrefused)
  · obtain ⟨offset, rfl, hfile⟩ := file_of_not_refused hrefused
    rw [plan_file hfile, or_iff_right hrefused]
    constructor
    · rintro ⟨choice, hplan, hconfined⟩
      split at hplan
      next hsmall =>
        obtain rfl := Except.ok.inj hplan
        have hlow := hconfined.1
        rw [hfits.stackStart] at hlow
        simp only [processStackBase, processStackSize, kernelMemSize] at *
        omega
      next =>
        split at hplan
        · cases hplan
        · cases hplan
    · intro hsize
      have hsmall : argdataSize args < kernelMemSize := hsize.trans_lt (by decide)
      rw [if_pos hsmall]
      refine ⟨_, rfl, ?_⟩
      rw [Plan.Confined, hfits.stackStart, hfits.stackEnd, length_argumentBlock]
      simp only [processStackBase, processStackSize] at *
      omega

/-- A call of `execve` with valid arguments carries out a plan, which leaves the process alone
or stays within its stack segment exactly when the lookup of the file fails or the argument
data fit the stack.  In an orderly run with memory left, larger argument data that the kernel
heap has room for stop the whole system. -/
theorem execve_confined_iff (image : Image) (phys : Memory) (junk : Block → Memory) (m : Machine)
    (pid : Pid) (filename argv : Word) (r : Regs) (text : List UInt8) (args : List (List UInt8)) :
    (Reachable KillingSafely image phys junk m → m.core.current = some pid →
      (m.entered pid r).Housed pid) ∧
    (m.Housed pid → m.validString pid filename = .ok (some text) →
      m.arguments pid argv = .ok (some args) →
      m.syscallExecve pid filename argv r =
        m.plan args (m.execveEntry text) >>= m.carryOut pid r ∧
      ((∃ choice, m.plan args (m.execveEntry text) = .ok choice ∧
          choice.Confined (m.spaces pid)) ↔
        m.Refused (m.execveEntry text) ∨ argdataSize args ≤ processStackSize)) ∧
    (Reachable Orderly image phys junk m → m.core.current = some pid →
      m.pages.pageEnd + pageSize * loadBound ≤ wordCount →
      (m.entered pid r).validString pid filename = .ok (some text) →
      (m.entered pid r).arguments pid argv = .ok (some args) →
      ¬ m.Refused (m.execveEntry text) → processStackSize < argdataSize args →
      argdataSize args < kernelMemSize →
      (m.entered pid r).syscallExecve pid filename argv r = .error (.page .unmapped)) := by
  refine ⟨fun hreachable hcurrent => (hreachable.housed hcurrent).entered r, ?_, ?_⟩
  · intro hhoused hstring hargs
    exact ⟨syscallExecve_eq hstring hargs, plan_confined_iff hhoused.fits _⟩
  · intro hreachable hcurrent hroom hstring hargs hfound hlarge hsmall
    obtain ⟨wait, hsettled⟩ :=
      hreachable.settled orderly_guarantees (Policy.orderly_suits image)
    have hcall : InCall Policy.orderly (m.entered pid r) r wait pid :=
      (hsettled.sane r).enter hcurrent (hsettled.live pid hcurrent) (hsettled.awake pid hcurrent)
        (hsettled.cr3 pid hcurrent) (Policy.orderly_permits r)
    obtain ⟨offset, hentry, hfile⟩ := file_of_not_refused hfound
    exact hcall.execve_unconfined hroom hstring hargs hentry hfile hlarge hsmall

/-- 256 arguments of 300 bytes each. -/
def largeArgs : List (List UInt8) := List.replicate 256 (List.replicate 300 97)

theorem argdataSize_largeArgs : argdataSize largeArgs = 78088 := by
  rw [largeArgs, argdataSize, List.map_replicate, List.sum_replicate, List.length_replicate,
    List.length_replicate]
  rfl

theorem notMem_largeArgs : ∀ string ∈ largeArgs, 0 ∉ string := by
  intro string hstring hzero
  obtain rfl := List.eq_of_mem_replicate hstring
  exact absurd (List.eq_of_mem_replicate hzero) (by decide)

theorem largeArgs_short : 4 * (largeArgs.length + 2) + packedSize largeArgs < 2 * mb := by
  have hsize := argdataSize_eq largeArgs
  rw [argdataSize_largeArgs] at hsize
  rw [mb]
  omega

/-- A program that executes its file with these arguments. -/
theorem execve_confined_large : ∃ image m text args,
    Reachable NotKilling image (fun _ => 0) (fun _ _ => 0) m ∧ m.core.current = some 1 ∧
      ((∃ choice, (m.entered 1 executeRegs).plan args ((m.entered 1 executeRegs).execveEntry text) =
          .ok choice ∧ choice.Confined ((m.entered 1 executeRegs).spaces 1)) ↔
        (m.entered 1 executeRegs).Refused ((m.entered 1 executeRegs).execveEntry text) ∨
          argdataSize args ≤ processStackSize) := by
  obtain ⟨image, m, wait, hreachable, hcurrent, hexecutes⟩ :=
    exists_executes largeArgs notMem_largeArgs largeArgs_short
  have hhoused := (execve_confined_iff image _ _ m 1 0 0 executeRegs [] []).1 hreachable.safely
    hcurrent
  have hconfined :=
    (execve_confined_iff image (fun _ => 0) (fun _ _ => 0) _ 1 _ _ executeRegs [] _).2.1
    hhoused hexecutes.string hexecutes.arguments
  exact ⟨image, m, [], _, hreachable, hcurrent, hconfined.2⟩

/-- These arguments are not confined to the stack segment, and the call stops the system. -/
theorem execve_overflows_stack : ∃ image m args,
    Reachable NotKilling image (fun _ => 0) (fun _ _ => 0) m ∧ m.core.current = some 1 ∧
      (m.entered 1 executeRegs).arguments 1 (executeRegs.args 1) = .ok (some args) ∧
      (∃ core contents address argdata,
        (m.entered 1 executeRegs).plan args ((m.entered 1 executeRegs).execveEntry []) =
          .ok (.runs core contents address argdata) ∧
        address < ((m.entered 1 executeRegs).spaces 1).stackStart) ∧
      (m.entered 1 executeRegs).syscallExecve 1 (executeRegs.args 0) (executeRegs.args 1)
        executeRegs = .error (.page .unmapped) := by
  obtain ⟨image, m, wait, hreachable, hcurrent, hexecutes⟩ :=
    exists_executes largeArgs notMem_largeArgs largeArgs_short
  have hsmall : argdataSize largeArgs < kernelMemSize := by
    rw [argdataSize_largeArgs]
    decide
  have hlarge : processStackSize < argdataSize largeArgs := by
    rw [argdataSize_largeArgs]
    decide
  have hfits := ((hreachable.safely.housed hcurrent).entered executeRegs).fits
  refine ⟨image, m, _, hreachable, hcurrent, hexecutes.arguments, ?_, ?_⟩
  · rw [hexecutes.entry, plan_file hexecutes.file, if_pos hsmall]
    refine ⟨_, _, _, _, rfl, ?_⟩
    rw [hfits.stackStart, argdataSize_largeArgs]
    decide
  · exact hexecutes.call.execve_unconfined hexecutes.room hexecutes.string hexecutes.arguments
      hexecutes.entry hexecutes.file hlarge hsmall

end Machine

end Rhythmos.Kernel
