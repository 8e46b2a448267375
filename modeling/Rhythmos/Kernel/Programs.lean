import Rhythmos.Kernel.Arguments
import Rhythmos.Kernel.Progress

/-!
# Programs

In an orderly run `execve` stores the argument data exactly when they fit the stack, and
while memory lasts nothing else goes wrong.  In particular the first process can execute the
only file of an image at once: its stack is full of zeros, which are an empty path and an
empty array of arguments.  What the file holds is then the memory of a process.
-/

namespace Rhythmos.Kernel

open Fallible ByteMemory Libc Paging PackedStrings

/-- The plan stays within the stack segment, or it leaves the process alone. -/
def Plan.Confined (space : AddressSpace) : Plan → Prop
  | .fails _ => True
  | .runs _ _ address argdata =>
      space.stackStart ≤ address ∧ address + argdata.length ≤ space.stackEnd

namespace Machine

variable {m : Machine} {r : Regs} {wait : Pid → Wait} {pid : Pid} {core : Core}
variable {contents argdata : List UInt8} {address : ℕ}

/-! ## Loading -/

/-- The number of pages that suffices to load a file. -/
def loadBound : ℕ := 1024

section Loading

variable {regime : Regime} {dirs : Pid → Option ℕ} {pdir : ℕ}

theorem replaceText_space {m' : Machine} (hreplace : m.replaceText pid contents = .ok m') :
    m'.spaces pid = reloaded (m.spaces pid) contents := by
  simp only [replaceText, bind_eq_ok, onPages_eq_ok, pure_eq_ok, Except.ok.injEq] at hreplace
  obtain ⟨_, -, _, -, _, -, rfl⟩ := hreplace
  simp [setSpace, reloaded, textSize]

theorem exists_replaceText (hstrict : regime.strict)
    (hlayout : Layout regime dirs m.spaces m.pages) (hpid : dirs pid = some pdir)
    (hroom : m.pages.pageEnd + pageSize * loadBound ≤ wordCount)
    (hshort : contents.length < 2 * mb) :
    ∃ m', m.replaceText pid contents = .ok m' ∧ Reshaped regime dirs m m' pid loadBound := by
  have hcost : 2 * pageCount 0 contents.length ≤ loadBound := by
    simp only [pageCount, loadBound, pageSize, mb] at *
    omega
  have hpages : pageSize * (2 * pageCount 0 contents.length) ≤ pageSize * loadBound :=
    Nat.mul_le_mul_left _ hcost
  obtain ⟨m', hreplace, hreshaped⟩ :=
    exists_ok_of_room hstrict (replaceText_spec hlayout hpid hshort) (by omega)
  exact ⟨m', hreplace, hreshaped.layout, hreshaped.spaces, hreshaped.core, hreshaped.image,
    hreshaped.cr3, hreshaped.pageEnd_le.trans (by omega)⟩

/-- Argument data that fit the stack are stored. -/
theorem exists_carryOut (hstrict : regime.strict)
    (hlayout : Layout regime dirs m.spaces m.pages) (hpid : dirs pid = some pdir)
    (hroom : m.pages.pageEnd + pageSize * loadBound ≤ wordCount)
    (hshort : contents.length < 2 * mb)
    (hconfined : Plan.Confined (m.spaces pid) (.runs core contents address argdata)) :
    ∃ m' r', m.carryOut pid r (.runs core contents address argdata) = .ok (m', r', 0) ∧
      m'.core = core ∧ m'.image = m.image ∧
      m'.pages.pageEnd ≤ m.pages.pageEnd + pageSize * loadBound := by
  have hfits := (hlayout.furnished pid pdir hpid).fits
  obtain ⟨hlow, hhigh⟩ := hconfined
  rw [hfits.stackStart] at hlow
  rw [hfits.stackEnd] at hhigh
  obtain ⟨m₁, hreplace, hlayout₁, hspaces, hcore, himage, hcr3, hend⟩ :=
    exists_replaceText (m := m.setCore core) hstrict hlayout hpid hroom hshort
  have hfurnished₁ := hlayout₁.furnished pid pdir hpid
  have hmapped : ∀ x, address ≤ x → x < address + argdata.length →
      Mapped m₁.pages dirs pid (x / pageSize) := by
    intro x hfrom hto
    refine (hfurnished₁.mapped hstrict _).mpr (.inl ?_)
    rw [hfurnished₁.fits.stackStart, hfurnished₁.fits.stackEnd]
    simp only [pagesIn, processStackBase, processStackSize, pageSize] at *
    omega
  have hbound : address + argdata.length ≤ wordCount := hhigh.trans (by decide)
  obtain ⟨ps', hstore⟩ := hlayout₁.sound.exists_storeUser hpid hbound hmapped
  have hcr3' : m₁.cr3 = some pdir := by
    rw [hcr3]
    exact congrArg some (hlayout.furnished pid pdir hpid).directory
  have hrefilled := ensures_of_eq_ok (hlayout₁.sound.storeBytes hpid address argdata) hstore
  refine ⟨{ m₁ with pages := ps' }, initRegs (BitVec.ofNat 32 address)
    (BitVec.ofNat 32 (m₁.spaces pid).textStart), ?_, hcore, himage, ?_⟩
  · rw [carryOut, hreplace, ok_bind, storeUser, hcr3', hstore]
    rfl
  · exact hrefilled.pageEnd_eq.le.trans hend

/-- Argument data that do not fit the stack are not stored. -/
theorem carryOut_unconfined (hstrict : regime.strict)
    (hlayout : Layout regime dirs m.spaces m.pages) (hpid : dirs pid = some pdir)
    (hroom : m.pages.pageEnd + pageSize * loadBound ≤ wordCount)
    (hshort : contents.length < 2 * mb) (hne : argdata ≠ [])
    (hlow : processTextBase + 2 * mb ≤ address)
    (hhigh : address < processStackBase - processStackSize) :
    m.carryOut pid r (.runs core contents address argdata) = .error (.page .unmapped) := by
  obtain ⟨m₁, hreplace, hlayout₁, -, -, -, hcr3, -⟩ :=
    exists_replaceText (m := m.setCore core) hstrict hlayout hpid hroom hshort
  have hfurnished₁ := hlayout₁.furnished pid pdir hpid
  have hspace₁ := replaceText_space hreplace
  have hunmapped : ¬ Mapped m₁.pages dirs pid (address / pageSize) := by
    rw [hfurnished₁.mapped hstrict, AddressSpace.covers, hfurnished₁.fits.stackStart,
      hfurnished₁.fits.stackEnd, hspace₁]
    simp only [pagesIn, reloaded, textSize, processStackBase, processStackSize, processDataBase,
      processTextBase, pageSize, mb] at *
    omega
  have hcr3' : m₁.cr3 = some pdir := by
    rw [hcr3]
    exact congrArg some (hlayout.furnished pid pdir hpid).directory
  have hword : address < wordCount := hhigh.trans (by decide)
  rw [carryOut, hreplace, ok_bind, storeUser, hcr3',
    hlayout₁.sound.storeUser_unmapped hpid hword (le_trans (by decide) hlow) hunmapped hne]
  rfl

end Loading

/-! ## Calls of `execve` -/

section Calls

variable {text : List UInt8} {args : List (List UInt8)} {offset : ℕ}

theorem Housed.setCore (hhoused : m.Housed pid)
    (hlive : ∀ other, core.isLive other = m.core.isLive other) : (m.setCore core).Housed pid where
  sound := by
    rw [dirs_setCore hlive]
    exact hhoused.sound
  live := (hlive pid).trans hhoused.live
  fits := hhoused.fits

theorem Housed.entered (hhoused : m.Housed pid) (r : Regs) : (m.entered pid r).Housed pid := by
  refine hhoused.setCore fun other => ?_
  by_cases hother : other = pid
  · subst hother
    simp [Core.isLive]
  · simp [Core.isLive, hother]

/-- A call whose arguments fit the stack succeeds while memory lasts. -/
theorem InCall.exists_execve (hcall : InCall Policy.orderly m r wait pid)
    (hroom : m.pages.pageEnd + pageSize * loadBound ≤ wordCount) {filename argv : Word}
    (hstring : m.validString pid filename = .ok (some text))
    (hargs : m.arguments pid argv = .ok (some args)) (hentry : m.execveEntry text = some offset)
    (hfile : (DirectoryEntry.read m.image.filesystem offset).isDir = false)
    (hsize : argdataSize args ≤ processStackSize) :
    ∃ m' r', m.syscallExecve pid filename argv r = .ok (m', r', 0) ∧
      m'.core = { m.core with heap := m.core.heap + 1 } ∧ m'.image = m.image ∧
      m'.pages.pageEnd ≤ m.pages.pageEnd + pageSize * loadBound := by
  have hdir := dirs_eq hcall.live
  have hfits := (hcall.sane.layout.furnished pid _ hdir).fits
  have hsmall : argdataSize args < kernelMemSize := hsize.trans_lt (by decide)
  have hread : m.image.getDirectoryEntry text = some (.read m.image.filesystem offset) := by
    rw [Image.getDirectoryEntry]
    exact congrArg (Option.map _) hentry
  have hconfined : Plan.Confined (m.spaces pid)
      (.runs { m.core with heap := m.core.heap + 1 }
        (DirectoryEntry.read m.image.filesystem offset).contents
        (processStackBase - argdataSize args) (argumentBlock args)) := by
    rw [Plan.Confined, hfits.stackStart, hfits.stackEnd, length_argumentBlock]
    simp only [processStackBase, processStackSize] at *
    omega
  obtain ⟨m', r', hrun, hcore, himage, hend⟩ := exists_carryOut (r := r) trivial
    hcall.sane.layout hdir hroom (m.image.length_contents_lt hread) hconfined
  refine ⟨m', r', ?_, hcore, himage, hend⟩
  rw [syscallExecve_eq hstring hargs, hentry, plan_file hfile, if_pos hsmall, ok_bind, hrun]

/-- A call whose arguments do not fit the stack fails in the kernel. -/
theorem InCall.execve_unconfined (hcall : InCall Policy.orderly m r wait pid)
    (hroom : m.pages.pageEnd + pageSize * loadBound ≤ wordCount) {filename argv : Word}
    (hstring : m.validString pid filename = .ok (some text))
    (hargs : m.arguments pid argv = .ok (some args)) (hentry : m.execveEntry text = some offset)
    (hfile : (DirectoryEntry.read m.image.filesystem offset).isDir = false)
    (hlarge : processStackSize < argdataSize args) (hsmall : argdataSize args < kernelMemSize) :
    m.syscallExecve pid filename argv r = .error (.page .unmapped) := by
  have hdir := dirs_eq hcall.live
  have hread : m.image.getDirectoryEntry text = some (.read m.image.filesystem offset) := by
    rw [Image.getDirectoryEntry]
    exact congrArg (Option.map _) hentry
  have hne : argumentBlock args ≠ [] := by
    intro hempty
    have hlength := length_argumentBlock args
    rw [hempty, List.length_nil] at hlength
    omega
  rw [syscallExecve_eq hstring hargs, hentry, plan_file hfile, if_pos hsmall, ok_bind]
  refine carryOut_unconfined trivial hcall.sane.layout hdir hroom
    (m.image.length_contents_lt hread) hne ?_ ?_
  · simp only [processTextBase, processStackBase, kernelMemSize, mb] at *
    omega
  · simp only [processStackBase, processStackSize, kernelMemSize] at *
    omega

end Calls

/-! ## An image with one file -/

section Images

open Filesystem

/-- A filesystem that consists of a file. -/
def fileSystem (contents : List UInt8) : Memory :=
  ofList (word32 contents.length ++ (word32 typeFile ++ (word32 12 ++ contents)))

theorem bytesAt_fileSystem (contents : List UInt8) : BytesAt (fileSystem contents) 12 contents := by
  have hall := bytesAt_ofList
    (word32 contents.length ++ (word32 typeFile ++ (word32 12 ++ contents)))
  rw [bytesAt_append, bytesAt_append, bytesAt_append] at hall
  exact hall.2.2.2

theorem read_fileSystem (hshort : contents.length < wordCount) :
    (DirectoryEntry.read (fileSystem contents) 0).isDir = false ∧
      (DirectoryEntry.read (fileSystem contents) 0).contents = contents := by
  have hsize : sizeAt (fileSystem contents) 0 = contents.length := load32_word32 hshort _
  have htype : typeAt (fileSystem contents) 0 = typeFile := by
    rw [typeAt, fileSystem, load32_skip _ 0]
    exact load32_word32 (by decide) _
  have hlocation : locationAt (fileSystem contents) 0 = 12 := by
    rw [locationAt, fileSystem, load32_skip _ 4, load32_skip _ 0]
    exact load32_word32 (by decide) _
  constructor
  · simp [DirectoryEntry.read, htype, typeFile, typeDir]
  · simp only [DirectoryEntry.read, hsize, hlocation]
    exact loadBytes_bytesAt (bytesAt_fileSystem contents)

/-- When the file starts with a word of zeros, no entries are found in it. -/
theorem getDirectoryEntry_fileSystem {bytes path : List UInt8} {entry : ℕ}
    (hentry : getDirectoryEntry (fileSystem (word32 0 ++ bytes)) path = some entry) :
    entry = 0 := by
  have hlocation : locationAt (fileSystem (word32 0 ++ bytes)) 0 = 12 := by
    rw [locationAt, fileSystem, load32_skip _ 4, load32_skip _ 0]
    exact load32_word32 (by decide) _
  have hcount : load32 (fileSystem (word32 0 ++ bytes)) 12 = 0 := by
    have hfirst := (bytesAt_append.mp (bytesAt_fileSystem (word32 0 ++ bytes))).1
    exact load32_bytesAt hfirst (by decide)
  rw [getDirectoryEntry, Filesystem.walk, Option.map_eq_some_iff] at hentry
  obtain ⟨cursor, hcursor, rfl⟩ := hentry
  cases hfields : Components.fields slash path with
  | nil =>
      rw [hfields] at hcursor
      obtain rfl := Option.some_injective _ hcursor
      rfl
  | cons field rest =>
      have hnone : lookup (fileSystem (word32 0 ++ bytes))
          (rootCursor (fileSystem (word32 0 ++ bytes))).dir field.1 = none := by
        rw [rootCursor, hlocation, lookup, hcount, lookupFrom]
      rw [hfields, List.foldlM_cons, enter, hnone] at hcursor
      cases hcursor

/-- A machine whose filesystem is a program that starts with a word of zeros. -/
def programImage (bytes : List UInt8) (hshort : bytes.length + 4 < 2 * mb) : Image :=
  { bare with
    filesystem := fileSystem (word32 0 ++ bytes)
    size_lt := by
      intro path entry hentry
      rw [getDirectoryEntry_fileSystem hentry]
      have hlength : (word32 0 ++ bytes).length = bytes.length + 4 := by
        rw [List.length_append, length_word32, Nat.add_comm]
      have hsize : sizeAt (fileSystem (word32 0 ++ bytes)) 0 = (word32 0 ++ bytes).length := by
        refine load32_word32 ?_ _
        rw [hlength]
        exact hshort.trans (by decide)
      rw [hsize, hlength]
      exact hshort }

end Images

/-! ## The first process -/

/-- The stack of a new process is full of zeros. -/
theorem startSpace_zeros {dirs : Pid → Option ℕ} {m' : Machine} (hsound : Sound m.pages dirs)
    (hpid : dirs pid = none) (hstart : m.startSpace pid = .ok m') {i : ℕ}
    (hi : i < processStackSize) :
    loadByte (some (m'.spaces pid).pdir) m'.pages (processStackBase - processStackSize + i) =
      .ok 0 := by
  have hfresh : ∀ pageno, ¬ Mapped m.pages dirs pid pageno := fun pageno => not_mapped_of_none hpid
  simp only [startSpace, bind_eq_ok, onPages_eq_ok, pure_eq_ok, Except.ok.injEq] at hstart
  obtain ⟨⟨ps₁, pdir⟩, halloc, ps₂, hkernel, ps₃, huser, ps₄, hstack, rfl⟩ := hstart
  simp only at hkernel huser hstack
  have hend := m.image.codeEnd_le
  obtain ⟨hsound₁, hmapped₁, -⟩ := ensures_of_eq_ok (hsound.newDirectory hpid) halloc
  have hdir : Function.update dirs pid (some pdir) pid = some pdir := Function.update_self _ _ _
  obtain ⟨hsound₂, hunmapped₂, -⟩ := hsound₁.identity_same hdir (by decide) (by decide)
    (by decide) (by decide) (fun pageno h => hfresh pageno ((hmapped₁ pid pageno).mp h)) hkernel
  obtain ⟨hsound₃, -, -⟩ := hsound₂.identity_same hdir (by decide)
    (hend.trans (by decide)) (by decide) (by decide) hunmapped₂ huser
  have hcount : processStackSize = (processStackBase - (processStackBase - processStackSize)) /
      pageSize * pageSize := by decide
  rw [hcount] at hi
  simp only [setSpace, Function.update_self]
  exact hsound₃.mapNews_contents hdir (by decide) (by decide) hstack hi

/-- The first process runs, and its stack is full of zeros. -/
theorem exists_scheduled {image : Image} (hlaunch : image.launchShell = 0x100000) :
    ∃ m wait, Reachable NotKilling image (fun _ => 0) (fun _ _ => 0) m ∧
      Settled Policy.orderly m wait ∧ m.core = scheduledCore ∧ m.image = image ∧
      m.pages.pageEnd ≤ pageStart + pageSize * startCost ∧
      m.Reads (processStackBase - processStackSize) (List.replicate processStackSize 0) := by
  have hsane := sane_initial (Policy.orderly_suits image) (fun _ => 0) (fun _ _ => 0) Regs.zero
  have hfree : (initial image (fun _ => 0) (fun _ _ => 0)).core.getFreePid = some 1 := rfl
  have hpid := dirs_of_vacant (Core.getFreePid_spec hfree).2
  have hroom : pageStart + pageSize * startCost ≤ wordCount := by decide
  obtain ⟨⟨core, ps, spaces, cr3, image'⟩, hspace, pdir, -, -, -, hcore, himage, hcr3, hend⟩ :=
    exists_ok_of_room trivial (startSpace_spec hsane.layout hpid fun _ h => h.elim) hroom
  have hzeros := @startSpace_zeros _ _ _ _ hsane.layout.sound hpid hspace
  simp only at hcore himage hcr3 hend hzeros
  subst hcore himage hcr3
  have hboot : kmain image' (fun _ => 0) (fun _ _ => 0) =
      .ok ⟨bootCore, ps, spaces, none, image'⟩ := by
    rw [kmain, startProcess, hfree, hlaunch]
    simp only [hspace, ok_bind]
    rfl
  have htimer : handle 1 ⟨bootCore, ps, spaces, none, image'⟩ (.timer Regs.zero) =
      .ok ⟨scheduledCore, ps, spaces, some (spaces 1).pdir, image'⟩ := rfl
  have hspec := kmain_spec (Policy.orderly_suits image') (fun _ => 0) (fun _ _ => 0)
  rw [hboot, ensures_ok] at hspec
  obtain ⟨wait, hsettled⟩ := hspec
  have hspec' := handle_spec 1 hsettled
    (orderly_guarantees _ wait (.timer Regs.zero) hsettled trivial)
  rw [htimer, ensures_ok] at hspec'
  obtain ⟨wait', hsettled'⟩ := hspec'
  have hpermits : NotKilling ⟨bootCore, ps, spaces, none, image'⟩ (.timer Regs.zero) := trivial
  refine ⟨_, wait', .step 1 (.boot hboot) hpermits htimer, hsettled', rfl, rfl, hend, ?_⟩
  refine reads_iff.mpr fun i hi => ?_
  rw [List.length_replicate] at hi
  have hword : processStackBase - processStackSize + i < wordCount := by
    simp only [processStackBase, processStackSize, wordCount] at *
    omega
  rw [Nat.mod_eq_of_lt hword, hzeros hi]
  simp

/-! ## A program with data -/

/-- The text segment of the first process holds the only file of the image. -/
structure HasProgram (bytes : List UInt8) (m : Machine) : Prop where
  fits : (m.spaces 1).Fits
  textEnd : (m.spaces 1).textEnd = processTextBase + textSize (word32 0 ++ bytes)
  text : m.Reads processTextBase (textBytes (word32 0 ++ bytes))
  filesystem : m.image.filesystem = fileSystem (word32 0 ++ bytes)

/-- The first process can execute the only file of an image. -/
theorem exists_program (bytes : List UInt8) (hshort : bytes.length + 4 < 2 * mb) :
    ∃ m wait, Reachable NotKilling (programImage bytes hshort) (fun _ => 0) (fun _ _ => 0) m ∧
      Settled Policy.orderly m wait ∧ m.core.current = some 1 ∧
      m.pages.pageEnd + pageSize * loadBound ≤ wordCount ∧ m.HasProgram bytes := by
  obtain ⟨m, wait, hreachable, hsettled, hcore, himage, hend, hzeros⟩ :=
    @exists_scheduled (programImage bytes hshort) rfl
  obtain ⟨stack, hstack⟩ : ∃ stack : Word, stack.toNat = processStackBase - processStackSize :=
    ⟨BitVec.ofNat 32 (processStackBase - processStackSize), by decide⟩
  have hnull : stack ≠ 0 := by
    rintro rfl
    exact absurd hstack (by decide)
  let r := callRegs .execve fun _ => stack
  have hcurrent : m.core.current = some 1 := by
    rw [hcore]
    rfl
  have hlive := hsettled.live 1 hcurrent
  have hcall : InCall Policy.orderly (m.entered 1 r) r wait 1 :=
    (hsettled.sane r).enter hcurrent hlive (hsettled.awake 1 hcurrent) (hsettled.cr3 1 hcurrent)
      (Policy.orderly_permits r)
  have hzero : ∀ count ≤ processStackSize,
      (m.entered 1 r).Reads stack.toNat (List.replicate count 0) := by
    intro count hcount
    rw [hstack]
    refine Reads.part hzeros (fun i hi => ?_) le_rfl (by simpa using hcount)
    rw [List.length_replicate] at hi
    have hbyte : (m.entered 1 r).view (processStackBase - processStackSize + i) = _ :=
      hzeros.bytesAt i (by simpa using hi.trans_le hcount)
    simpa using hbyte
  have hstring : (m.entered 1 r).validString 1 stack = .ok (some []) := by
    refine StringAt.validString ⟨hzero 1 (by decide), by simp, fun size hsize => ?_, by decide⟩
    rw [hstack]
    exact hsettled.validPointer_stack hlive (hsize.trans (by decide))
  have hargs : (m.entered 1 r).arguments 1 stack = .ok (some []) := by
    have hnone : ∀ i (hi : i < ([] : List (List UInt8)).length),
        (m.entered 1 r).EntryAt 1 stack.toNat i (([] : List (List UInt8)).get ⟨i, hi⟩) :=
      fun i hi => absurd hi (Nat.not_lt_zero i)
    refine (arguments_iff hnull (by decide) hnone).mpr ⟨?_, ?_⟩
    · rw [hstack]
      exact hsettled.validPointer_stack hlive (by decide)
    · exact Reads.loadWord (hzero 4 (by decide)) (by decide)
  have hfilesystem : (m.entered 1 r).image.filesystem = fileSystem (word32 0 ++ bytes) :=
    congrArg Image.filesystem himage
  have hentry : (m.entered 1 r).execveEntry [] = some 0 := rfl
  have hlength : (word32 0 ++ bytes).length < wordCount := by
    rw [List.length_append, length_word32, Nat.add_comm]
    exact hshort.trans (by decide)
  obtain ⟨hfile, hcontents⟩ := read_fileSystem hlength
  rw [← hfilesystem] at hfile hcontents
  have hroom : (m.entered 1 r).pages.pageEnd + pageSize * loadBound ≤ wordCount :=
    (Nat.add_le_add_right hend _).trans (by decide)
  obtain ⟨m₁, r₁, hrun, hcore₁, himage₁, hend₁⟩ :=
    hcall.exists_execve hroom hstring hargs hentry hfile (by decide)
  obtain ⟨offset, hoffset, hstarted, -⟩ :=
    ((hsettled.housed hlive).entered r).started hstring hargs (by decide) hrun
  obtain rfl : 0 = offset := Option.some_injective _ (hentry.symm.trans hoffset)
  rw [hcontents] at hstarted
  have hdispatch : (m.entered 1 r).dispatch 1 r = .ok (m₁, r₁, 0) := by
    rw [← hrun]
    rfl
  have hstill : m₁.core.current = some 1 := by
    rw [hcore₁]
    exact hcurrent
  have hnumber : r.eax.toNat ≠ Call.geterrno.number := by
    rw [callRegs_eax]
    decide
  have hhandle := handle_success 1 hcurrent hdispatch hnumber hstill
  have hspec := handle_spec 1 hsettled (orderly_guarantees m wait (.trap r) hsettled
    (orderly_call _ (by decide) (by decide)))
  rw [hhandle, ensures_ok] at hspec
  obtain ⟨wait', hsettled'⟩ := hspec
  have hpermits : NotKilling m (.trap r) := notKilling_call (by decide) _ m
  refine ⟨m₁.setCore (leaveCore m₁.core 1), wait', .step 1 hreachable hpermits hhandle, hsettled',
    hstill, ?_, hstarted.housed.fits, ?_, hstarted.text, ?_⟩
  · exact (Nat.add_le_add_right (hend₁.trans (Nat.add_le_add_right hend _)) _).trans (by decide)
  · exact congrArg AddressSpace.textEnd hstarted.space
  · exact (congrArg Image.filesystem himage₁).trans hfilesystem

section Text

variable {bytes : List UInt8}

/-- A buffer in the text of the program. -/
theorem HasProgram.valid (hprogram : m.HasProgram bytes)
    (hshort : bytes.length + 4 < 2 * mb) {ptr size : ℕ} (hlow : processTextBase ≤ ptr)
    (hhigh : ptr + size ≤ processTextBase + (bytes.length + 4)) :
    validPointer (m.spaces 1) ptr size = true := by
  have hlength : (word32 0 ++ bytes).length = bytes.length + 4 := by
    rw [List.length_append, length_word32, Nat.add_comm]
  have hsize := length_le_textSize (word32 0 ++ bytes)
  have hend : ptr + size ≤ (m.spaces 1).textEnd := by
    rw [hprogram.textEnd]
    omega
  have hword : ptr + size < wordCount := by
    simp only [processTextBase, wordCount, mb] at *
    omega
  refine validPointer_of_within hword (.inr (.inr ?_))
  simp [within, hprogram.fits.textStart, hlow, hend]

theorem HasProgram.bytesAt (hprogram : m.HasProgram bytes) :
    BytesAt m.view processTextBase (word32 0 ++ bytes) := by
  have hall := hprogram.text.bytesAt
  rw [textBytes, bytesAt_append] at hall
  exact hall.1

theorem HasProgram.reads (hprogram : m.HasProgram bytes) {other : ℕ} {piece : List UInt8}
    (hpiece : BytesAt m.view other piece) (hlow : processTextBase ≤ other)
    (hhigh : other + piece.length ≤ processTextBase + (bytes.length + 4)) :
    m.Reads other piece := by
  have hlength : (word32 0 ++ bytes).length = bytes.length + 4 := by
    rw [List.length_append, length_word32, Nat.add_comm]
  have hsize := length_le_textSize (word32 0 ++ bytes)
  refine hprogram.text.part hpiece hlow ?_
  rw [length_textBytes]
  omega

end Text

/-- The end of the strings of a program that starts with a word of zeros, an array of pointers
to them and another word of zeros. -/
def stringsEnd (args : List (List UInt8)) : ℕ :=
  processTextBase + 4 * (args.length + 2) + packedSize args

/-- The array of the pointers, and behind it the strings. -/
def pointersTo (args : List (List UInt8)) : List UInt8 :=
  pointers (stringsEnd args) args ++ (word32 0 ++ packed args)

section Pointers

variable {args : List (List UInt8)}

theorem length_pointersTo (args : List (List UInt8)) :
    (pointersTo args).length + 4 = 4 * (args.length + 2) + packedSize args := by
  rw [pointersTo, List.length_append, List.length_append, length_pointers, length_word32,
    length_packed]
  omega

theorem bytesAt_pointersTo {memory : Memory} {address : ℕ}
    (hbytes : BytesAt memory address (word32 0 ++ pointersTo args)) :
    BytesAt memory address (terminated []) ∧
      (∀ i < args.length, BytesAt memory (address + 4 + i * 4)
        (word32 (start (stringsEnd args) args i))) ∧
      BytesAt memory (address + 4 + args.length * 4) (word32 0) ∧
      BytesAt memory (address + 4 * (args.length + 2)) (packed args) := by
  have haddress : address + 4 + 4 * args.length + 4 = address + 4 * (args.length + 2) := by omega
  rw [pointersTo, bytesAt_append, bytesAt_append, bytesAt_append, length_word32, length_pointers,
    haddress] at hbytes
  obtain ⟨hzero, harray, hend, hstrings⟩ := hbytes
  refine ⟨bytesAt_singleton.mpr (bytesAt_cons.mp hzero).1, fun i hi => ?_, ?_, hstrings⟩
  · rw [Nat.mul_comm i]
    exact bytesAt_words harray i hi
  · rw [Nat.mul_comm]
    exact hend

/-- The program finds the strings in its text. -/
theorem HasProgram.stringAt (hprogram : m.HasProgram (pointersTo args))
    (htext : ∀ string ∈ args, 0 ∉ string)
    (hshort : 4 * (args.length + 2) + packedSize args < 2 * mb) {i : ℕ} (hi : i < args.length) :
    m.StringAt 1 (start (stringsEnd args) args i) (args.get ⟨i, hi⟩) := by
  have hlength := length_pointersTo args
  have hbytes : (pointersTo args).length + 4 < 2 * mb := by omega
  have hlimit : packedSize args ≤ stringsEnd args := Nat.le_add_left _ _
  have hlow := le_start args (stringsEnd args) i
  have hend := start_add hlimit hi
  have hbase : stringsEnd args - packedSize args = processTextBase + 4 * (args.length + 2) :=
    Nat.add_sub_cancel _ _
  have hstrings := (bytesAt_pointersTo hprogram.bytesAt).2.2.2
  rw [← hbase] at hstrings
  have hstop : stringsEnd args = processTextBase + ((pointersTo args).length + 4) := by
    rw [stringsEnd]
    omega
  refine ⟨hprogram.reads (bytesAt_start hstrings hlimit hi) (by omega) ?_,
    htext _ (List.get_mem _ _), fun size hsize => hprogram.valid hbytes (by omega) (by omega), ?_⟩
  · rw [length_terminated]
    omega
  · have hsize := packedSize_take_le_self args i
    simp only [stringsEnd, processTextBase, wordCount, mb] at *
    omega

/-- The program finds its arguments in its text. -/
theorem HasProgram.arguments (hprogram : m.HasProgram (pointersTo args))
    (htext : ∀ string ∈ args, 0 ∉ string)
    (hshort : 4 * (args.length + 2) + packedSize args < 2 * mb) {argv : Word}
    (hargv : argv.toNat = processTextBase + 4) :
    m.arguments 1 argv = .ok (some args) := by
  have hlength := length_pointersTo args
  have hbytes : (pointersTo args).length + 4 < 2 * mb := by omega
  obtain ⟨-, harray, hend, -⟩ := bytesAt_pointersTo hprogram.bytesAt
  have hlimit : packedSize args ≤ stringsEnd args := Nat.le_add_left _ _
  have hword : ∀ i ≤ args.length, ∀ value < wordCount,
      BytesAt m.view (processTextBase + 4 + i * 4) (word32 value) →
        m.loadWord (processTextBase + 4 + i * 4) = .ok value := by
    intro i hi value hvalue hat
    refine (hprogram.reads hat (by omega) ?_).loadWord hvalue
    rw [length_word32]
    omega
  have hvalid : ∀ i ≤ args.length,
      validPointer (m.spaces 1) argv.toNat ((i + 1) * 4 % wordCount) = true := by
    intro i hi
    have hsmall : (i + 1) * 4 < wordCount := by
      simp only [wordCount, mb] at *
      omega
    rw [hargv, Nat.mod_eq_of_lt hsmall]
    exact hprogram.valid hbytes (by omega) (by omega)
  have hentries : ∀ i (hi : i < args.length),
      m.EntryAt 1 argv.toNat i (args.get ⟨i, hi⟩) := by
    intro i hi
    have hlow := le_start args (stringsEnd args) i
    have hhigh := start_lt hlimit hi
    have hpointer : start (stringsEnd args) args i < wordCount := by
      simp only [stringsEnd, processTextBase, wordCount, mb] at *
      omega
    refine ⟨hvalid i hi.le, _, ?_, ?_, hpointer, hprogram.stringAt htext hshort hi⟩
    · rw [hargv]
      exact hword i hi.le _ hpointer (harray i hi)
    · simp only [stringsEnd, processTextBase] at *
      omega
  have hnull : argv ≠ 0 := by
    rintro rfl
    exact absurd hargv (by simp [processTextBase])
  have hcount : args.length < wordCount := by
    simp only [wordCount, mb] at *
    omega
  refine (arguments_iff hnull hcount hentries).mpr ⟨hvalid args.length le_rfl, ?_⟩
  rw [hargv]
  exact hword args.length le_rfl 0 (by decide) hend

end Pointers

/-- The call `execve("", argv)` of a program whose array `argv` is in the text segment. -/
def executeRegs : Regs :=
  callRegs .execve fun i => BitVec.ofNat 32 (processTextBase + 4 * i)

/-- The first process executes the file of its image. -/
structure Executes (args : List (List UInt8)) (m : Machine) (wait : Pid → Wait) : Prop where
  call : InCall Policy.orderly m executeRegs wait 1
  room : m.pages.pageEnd + pageSize * loadBound ≤ wordCount
  string : m.validString 1 (executeRegs.args 0) = .ok (some [])
  arguments : m.arguments 1 (executeRegs.args 1) = .ok (some args)
  entry : m.execveEntry [] = some 0
  file : (DirectoryEntry.read m.image.filesystem 0).isDir = false

/-- A program that executes its own file, with arguments of its own. -/
theorem exists_executes (args : List (List UInt8)) (htext : ∀ string ∈ args, 0 ∉ string)
    (hshort : 4 * (args.length + 2) + packedSize args < 2 * mb) :
    ∃ image m wait, Reachable NotKilling image (fun _ => 0) (fun _ _ => 0) m ∧
      m.core.current = some 1 ∧
      Executes args (m.entered 1 executeRegs) wait := by
  have hlength := length_pointersTo args
  have hbytes : (pointersTo args).length + 4 < 2 * mb := by omega
  obtain ⟨m, wait, hreachable, hsettled, hcurrent, hroom, hfits, htextEnd, hreads, hfilesystem⟩ :=
    exists_program (pointersTo args) hbytes
  have hprogram : (m.entered 1 executeRegs).HasProgram (pointersTo args) :=
    ⟨hfits, htextEnd, hreads, hfilesystem⟩
  have hcall : InCall Policy.orderly (m.entered 1 executeRegs) executeRegs wait 1 :=
    (hsettled.sane executeRegs).enter hcurrent (hsettled.live 1 hcurrent)
      (hsettled.awake 1 hcurrent) (hsettled.cr3 1 hcurrent)
      (Policy.orderly_permits executeRegs)
  have hfilename : (executeRegs.args 0).toNat = processTextBase := by decide
  have hargv : (executeRegs.args 1).toNat = processTextBase + 4 := by decide
  have hempty := (bytesAt_pointersTo hprogram.bytesAt).1
  have hfile : (word32 0 ++ pointersTo args).length < wordCount := by
    rw [List.length_append, length_word32, Nat.add_comm]
    exact hbytes.trans (by decide)
  refine ⟨_, m, wait, hreachable, hcurrent, hcall, hroom, ?_, ?_, rfl, ?_⟩
  · refine StringAt.validString ⟨?_, by simp, fun size hsize => ?_, by decide⟩
    · rw [hfilename]
      refine hprogram.reads hempty le_rfl ?_
      rw [length_terminated, List.length_nil]
      omega
    · rw [hfilename]
      rw [List.length_nil] at hsize
      exact hprogram.valid hbytes le_rfl (by omega)
  · exact hprogram.arguments htext hshort hargv
  · rw [hprogram.filesystem]
    exact (read_fileSystem hfile).1

end Machine

end Rhythmos.Kernel
