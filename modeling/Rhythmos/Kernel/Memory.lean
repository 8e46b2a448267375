import Rhythmos.Kernel.Death
import Rhythmos.Kernel.Machine
import Rhythmos.Paging.Release

/-!
# Address spaces

Every live process has a page directory of its own.  A regime says what else is
known about the memory of the processes: in a strict regime exactly the pages of
the segments are mapped and every page handed out by the allocator has a use,
and the pages that the regime keeps secret are not accessible from user mode.
-/

namespace Rhythmos.Kernel

open Fallible ByteMemory Libc Paging

/-! ## Segments -/

/-- The segments of a process.  Only the ends of the text and the data segment
vary. -/
structure AddressSpace.Fits (space : AddressSpace) : Prop where
  stackStart : space.stackStart = processStackBase - processStackSize
  stackEnd : space.stackEnd = processStackBase
  dataStart : space.dataStart = processDataBase
  textStart : space.textStart = processTextBase
  dataEnd_aligned : space.dataEnd % pageSize = 0
  dataEnd_lt : space.dataEnd < wordCount
  textEnd_aligned : space.textEnd % pageSize = 0
  textStart_le : processTextBase ≤ space.textEnd
  textEnd_le : space.textEnd ≤ processDataBase

/-- The logical page belongs to a segment. -/
def AddressSpace.covers (space : AddressSpace) (pageno : ℕ) : Prop :=
  pagesIn space.stackStart space.stackEnd pageno ∨ pagesIn space.dataStart space.dataEnd pageno ∨
    pagesIn space.textStart space.textEnd pageno

/-- The data segment ends between its start and the stack. -/
def AddressSpace.Bounded (space : AddressSpace) : Prop :=
  space.dataStart ≤ space.dataEnd ∧ space.dataEnd ≤ space.stackStart

/-- What is known about the memory of all processes. -/
structure Regime where
  /-- exactly the pages of the segments are mapped -/
  strict : Prop
  /-- the logical pages that user mode must not reach -/
  secret : ℕ → Prop
  secret_low : ∀ pageno, secret pageno → pageno < 1536

/-- Without secrets, all secrets are low. -/
theorem Regime.no_secret (pageno : ℕ) (hsecret : False) : pageno < 1536 := hsecret.elim

/-- The memory of a process with page directory `pdir`. -/
structure Furnished (regime : Regime) (dirs : Pid → Option ℕ) (ps : Pages) (pid : Pid)
    (pdir : ℕ) (space : AddressSpace) : Prop where
  directory : space.pdir = pdir
  fits : space.Fits
  bounded : regime.strict → space.Bounded
  mapped : regime.strict → ∀ pageno, Mapped ps dirs pid pageno ↔ space.covers pageno
  rising : ∀ pageno, regime.secret pageno → space.dataStart ≤ space.dataEnd
  hidden : ∀ pageno, regime.secret pageno → entry ps.phys pdir pageno &&& pageUser = 0

/-- The memory of the processes with page directories `dirs`. -/
structure Layout (regime : Regime) (dirs : Pid → Option ℕ) (spaces : Pid → AddressSpace)
    (ps : Pages) : Prop where
  sound : Sound ps dirs
  furnished : ∀ pid pdir, dirs pid = some pdir → Furnished regime dirs ps pid pdir (spaces pid)
  tight : regime.strict → ∀ page, ¬ Loose ps dirs page

variable {regime : Regime} {dirs : Pid → Option ℕ} {spaces : Pid → AddressSpace} {ps : Pages}
variable {pid : Pid}

/-- The faults of the whole machine.  Unless the layout is strict, a segment of
which a part is missing may fail to be copied. -/
def Tolerable (strict : Prop) (fault : Fault) : Prop :=
  Harmless fault ∨ ¬ strict ∧ fault = .page .assertion

/-- Memory runs out: `count` more pages do not fit the address space. -/
def Starved (strict : Prop) (ps : Pages) (count : ℕ) (fault : Fault) : Prop :=
  fault = .page .exhausted ∧ wordCount < ps.pageEnd + pageSize * count ∨
    ¬ strict ∧ fault = .page .assertion

theorem Starved.tolerable {strict : Prop} {count : ℕ} (fault : Fault)
    (hstarved : Starved strict ps count fault) : Tolerable strict fault := by
  rcases hstarved with ⟨rfl, -⟩ | hloose
  · exact .inl (by simp [Harmless])
  · exact .inr hloose

/-- The end of the pages after two operations. -/
theorem pageEnd_chain {ps ps₁ ps₂ : Pages} {used count : ℕ}
    (hfirst : ps₁.pageEnd ≤ ps.pageEnd + pageSize * used)
    (hsecond : ps₂.pageEnd ≤ ps₁.pageEnd + pageSize * count) :
    ps₂.pageEnd ≤ ps.pageEnd + pageSize * (used + count) := by
  rw [Nat.mul_add]
  omega

/-- A page function inside an operation that uses `total` pages in all, of which
`used` are used before. -/
theorem ensures_onPages {A : Type} {strict : Prop} {ps ps₁ : Pages} {count total : ℕ} (used : ℕ)
    {computation : Except PageFault A} {allowed : PageFault → Prop} {post : A → Prop}
    (hensures : Ensures allowed computation post)
    (hallowed : ∀ fault, allowed fault → Short ps₁ count fault ∨ ¬ strict ∧ fault = .assertion)
    (hend : ps₁.pageEnd ≤ ps.pageEnd + pageSize * used) (htotal : used + count ≤ total) :
    Ensures (Starved strict ps total) (onPages computation) post := by
  cases computation with
  | ok value => exact ensures_ok.mpr (ensures_ok.mp hensures)
  | error fault =>
      refine ensures_error.mpr ?_
      rcases hallowed fault (ensures_error.mp hensures) with hshort | ⟨hloose, rfl⟩
      · have hshort := hshort.mono used hend htotal
        exact .inl ⟨by rw [hshort.1], hshort.2⟩
      · exact .inr ⟨hloose, rfl⟩

theorem onPages_eq_ok {A : Type} {computation : Except PageFault A} {value : A} :
    onPages computation = .ok value ↔ computation = .ok value := by
  cases computation <;> simp [onPages]

theorem meetsKernel_eq_false {address count : ℕ} : meetsKernel address count = false ↔
    count = 0 ∨ pageStart ≤ address ∧ address + count ≤ wordCount := by
  simp [meetsKernel, imp_iff_not_or]

/-- The segments of a process do not meet the memory of the kernel. -/
theorem AddressSpace.Fits.outside {space : AddressSpace} (hfits : space.Fits)
    {address size count : ℕ} (hvalid : validPointer space address size = true)
    (hcount : count ≤ size) : meetsKernel address count = false := by
  have hstack := hfits.stackStart
  have hdata := hfits.dataStart
  have htext := hfits.textStart
  rw [meetsKernel_eq_false]
  by_cases hzero : size = 0
  · exact .inl (by omega)
  · refine .inr ?_
    simp only [validPointer, hzero, if_false] at hvalid
    split at hvalid
    · cases hvalid
    · simp only [within, Bool.or_eq_true, Bool.and_eq_true, decide_eq_true_eq, processStackBase,
        processStackSize, processDataBase, processTextBase, pageStart, wordCount] at *
      omega

/-- The text and data segments do not meet the stack or each other in a strict
layout. -/
theorem AddressSpace.Fits.disjoint {space : AddressSpace} (hfits : space.Fits)
    (hbounded : space.Bounded) (pageno : ℕ) :
    ¬ (pagesIn space.stackStart space.stackEnd pageno ∧
        pagesIn space.dataStart space.dataEnd pageno) ∧
      ¬ (pagesIn space.stackStart space.stackEnd pageno ∧
        pagesIn space.textStart space.textEnd pageno) ∧
      ¬ (pagesIn space.dataStart space.dataEnd pageno ∧
        pagesIn space.textStart space.textEnd pageno) := by
  have htext := hfits.textEnd_le
  have hstack := hbounded.2
  have hstart := hfits.stackStart
  have hdata := hfits.dataStart
  simp only [pagesIn]
  rw [hstart] at hstack
  rw [hstart, hdata]
  simp only [processStackBase, processStackSize, processDataBase] at *
  omega

/-! ## Contents of memory -/

/-- Stores to user memory keep the layout. -/
theorem Layout.refill {ps' : Pages} (hlayout : Layout regime dirs spaces ps)
    (hrefilled : Refilled ps ps' dirs) : Layout regime dirs spaces ps' where
  sound := hrefilled.sound
  furnished pid pdir hdir := by
    have hold := hlayout.furnished pid pdir hdir
    refine ⟨hold.directory, hold.fits, hold.bounded, ?_, hold.rising, ?_⟩
    · intro hstrict pageno
      exact (hrefilled.mapped pid pageno).trans (hold.mapped hstrict pageno)
    · intro pageno hsecret
      have hlow := regime.secret_low pageno hsecret
      rw [hrefilled.entries (fun _ _ => False) pid pdir pageno hdir (by omega) id]
      exact hold.hidden pageno hsecret
  tight hstrict page hloose := hlayout.tight hstrict page ((hrefilled.loose page).mp hloose)

theorem not_mapped_of_none {pageno : ℕ} (hdir : dirs pid = none) : ¬ Mapped ps dirs pid pageno := by
  rintro ⟨page, -, pdir, hdir', -⟩
  cases hdir.symm.trans hdir'

/-- The memory of one process changes. -/
theorem Layout.replace {dirs' : Pid → Option ℕ} {spaces' : Pid → AddressSpace} {ps' : Pages}
    (hlayout : Layout regime dirs spaces ps) (pid : Pid) (hsound : Sound ps' dirs')
    (hdirs : ∀ other, other ≠ pid → dirs' other = dirs other)
    (hspaces : ∀ other, other ≠ pid → spaces' other = spaces other)
    (hmapped : regime.strict → ∀ other pageno, other ≠ pid →
      (Mapped ps' dirs' other pageno ↔ Mapped ps dirs other pageno))
    (hentries : SameEntries (fun other _ => other = pid) ps.phys ps'.phys dirs')
    (hself : ∀ pdir, dirs' pid = some pdir → Furnished regime dirs' ps' pid pdir (spaces' pid))
    (htight : regime.strict → ∀ page, ¬ Loose ps' dirs' page) :
    Layout regime dirs' spaces' ps' where
  sound := hsound
  furnished other pdir hdir := by
    by_cases hsame : other = pid
    · subst hsame
      exact hself pdir hdir
    · have hentry := hentries other pdir
      rw [hdirs other hsame] at hdir hentry
      have hold := hlayout.furnished other pdir hdir
      rw [hspaces other hsame]
      refine ⟨hold.directory, hold.fits, hold.bounded, ?_, hold.rising, ?_⟩
      · intro hstrict pageno
        rw [hmapped hstrict other pageno hsame]
        exact hold.mapped hstrict pageno
      · intro pageno hsecret
        have hlow := regime.secret_low pageno hsecret
        rw [hentry pageno hdir (by omega) hsame]
        exact hold.hidden pageno hsecret
  tight := htight

/-- The entries of other processes stay. -/
theorem keeps_others {ps ps' : Pages} {dirs : Pid → Option ℕ} {range : ℕ → Prop}
    (hsame : SameEntries (fun other pageno => other = pid ∧ range pageno) ps.phys ps'.phys dirs) :
    SameEntries (fun other _ => other = pid) ps.phys ps'.phys dirs :=
  hsame.mono fun _ _ h => h.1

/-- Changes to the entries of other processes add up. -/
theorem keeps_trans {ps ps₁ ps₂ : Pages} {dirs : Pid → Option ℕ}
    (hfirst : SameEntries (fun other _ => other = pid) ps.phys ps₁.phys dirs)
    (hsecond : SameEntries (fun other _ => other = pid) ps₁.phys ps₂.phys dirs) :
    SameEntries (fun other _ => other = pid) ps.phys ps₂.phys dirs :=
  (hfirst.trans hsecond).mono fun _ _ h => h.elim id id

/-! ## Forking -/

/-- The number of pages in a range. -/
def pageCount (first limit : ℕ) : ℕ := (limit - first + (pageSize - 1)) / pageSize

/-- The pages needed to fork a process. -/
def forkCost (space : AddressSpace) : ℕ :=
  1537 + 2 * pageCount space.textStart space.textEnd + 2 * pageCount space.dataStart space.dataEnd +
    2 * pageCount space.stackStart space.stackEnd

namespace Machine

variable {m : Machine}

/-- The child has a directory of its own, in which the pages of the parent's segments are mapped.
The page tables of all other processes are the same. -/
structure Doubled (dirs : Pid → Option ℕ) (m m' : Machine) (parent child : Pid) (pdir : ℕ) :
    Prop where
  spaces : m'.spaces = Function.update m.spaces child { m.spaces parent with pdir := pdir }
  sound : Sound m'.pages (Function.update dirs child (some pdir))
  mapped : ∀ other pageno,
    Mapped m'.pages (Function.update dirs child (some pdir)) other pageno ↔
      Mapped m.pages dirs other pageno ∨ (other = child ∧ (m.spaces parent).covers pageno)
  entries : SameEntries (fun other _ => other = child) m.pages.phys m'.pages.phys
    (Function.update dirs child (some pdir))
  loose : (m.spaces parent).Bounded →
    ∀ page, Loose m'.pages (Function.update dirs child (some pdir)) page → Loose m.pages dirs page
  core : m'.core = m.core
  image : m'.image = m.image
  cr3 : m'.cr3 = some (m.spaces parent).pdir
  pageEnd : m'.pages.pageEnd ≤ m.pages.pageEnd + pageSize * forkCost (m.spaces parent)

theorem forkSpace_doubled {strict : Prop} {parent child : Pid} (hsound : Sound m.pages dirs)
    (hfits : (m.spaces parent).Fits) (hparent : dirs parent = some (m.spaces parent).pdir)
    (hchild : dirs child = none)
    (hcovered : strict → ∀ pageno, (m.spaces parent).covers pageno →
      Mapped m.pages dirs parent pageno) :
    Ensures (Starved strict m.pages (forkCost (m.spaces parent))) (m.forkSpace parent child)
      fun m' => ∃ pdir, Doubled dirs m m' parent child pdir := by
  have hdistinct : parent ≠ child := by
    rintro rfl
    exact absurd (hparent.symm.trans hchild) (Option.some_ne_none _)
  have hfresh : ∀ pageno, ¬ Mapped m.pages dirs child pageno :=
    fun pageno => not_mapped_of_none hchild
  rw [forkSpace]
  apply ensures_bind (ensures_onPages 0 (hsound.newDirectory hchild) (fun _ => .inl) le_rfl
    (by simp only [forkCost]; omega))
  rintro ⟨ps₁, pdir'⟩ ⟨hsound₁, hmapped₁, hloose₁, hend₁, hentries₁, -⟩
  simp only at hsound₁ hmapped₁ hloose₁ hend₁ hentries₁ ⊢
  have hdirChild : Function.update dirs child (some pdir') child = some pdir' :=
    Function.update_self _ _ _
  have hdirParent : Function.update dirs child (some pdir') parent =
      some (m.spaces parent).pdir := by
    rw [Function.update_of_ne hdistinct, hparent]
  have hidentity : Ensures (Short ps₁ 1536)
      (identityMap ps₁ pdir' 0 (6 * mb) pageUser pageReadOnly) fun ps₂ =>
        Extended ps₁ ps₂ (Function.update dirs child (some pdir')) child (fun _ => False) 1536 ∧
          Granted ps₁ ps₂ (Function.update dirs child (some pdir')) child (pagesIn 0 (6 * mb))
            ((pagePresent ||| pageUser ||| pageReadOnly) &&& pageUser) := by
    apply hsound₁.identity hdirChild
    · decide
    · decide
    · decide
    · decide
    · decide
    · exact fun pageno hmapped => hfresh pageno ((hmapped₁ child pageno).mp hmapped)
  apply ensures_bind (ensures_onPages 1 hidentity (fun _ => .inl) hend₁
    (by simp only [forkCost]; omega))
  rintro ps₂ ⟨hext₂, hgranted₂⟩
  have hend₂ := pageEnd_chain hend₁ hext₂.pageEnd_le
  have hnone₂ : ∀ pageno, ¬ Mapped ps₂ (Function.update dirs child (some pdir')) child pageno := by
    intro pageno
    rw [hext₂.mapped, hmapped₁]
    rintro (hold | ⟨-, hnone⟩)
    · exact hfresh pageno hold
    · exact hnone
  have hmapped₂ : strict → ∀ pageno, (m.spaces parent).covers pageno →
      Mapped ps₂ (Function.update dirs child (some pdir')) parent pageno := by
    intro hstrict pageno hcovers
    exact (hext₂.mapped parent pageno).mpr
      (.inl ((hmapped₁ parent pageno).mpr (hcovered hstrict pageno hcovers)))
  have htext := hext₂.sound.copySegment hdirChild hdirParent
    (by rw [hfits.textStart]; decide) hfits.textEnd_aligned (hfits.textEnd_le.trans (by decide))
    fun hstrict pageno hin => hmapped₂ hstrict pageno (.inr (.inr hin))
  apply ensures_bind (ensures_onPages _ htext (fun _ h => h) hend₂
    (by simp only [forkCost, pageCount]; omega))
  rintro ps₃ ⟨hext₃, hgranted₃⟩
  have hend₃ := pageEnd_chain hend₂ hext₃.pageEnd_le
  have hdata := hext₃.sound.copySegment hdirChild hdirParent
    (by rw [hfits.dataStart]; decide) hfits.dataEnd_aligned hfits.dataEnd_lt.le
    fun hstrict pageno hin =>
      (hext₃.mapped parent pageno).mpr (.inl (hmapped₂ hstrict pageno (.inr (.inl hin))))
  apply ensures_bind (ensures_onPages _ hdata (fun _ h => h) hend₃
    (by simp only [forkCost, pageCount]; omega))
  rintro ps₄ ⟨hext₄, hgranted₄⟩
  have hend₄ := pageEnd_chain hend₃ hext₄.pageEnd_le
  have hstack := hext₄.sound.copySegment hdirChild hdirParent
    (by rw [hfits.stackStart]; decide) (by rw [hfits.stackEnd]; decide)
    (by rw [hfits.stackEnd]; decide)
    fun hstrict pageno hin => (hext₄.mapped parent pageno).mpr
      (.inl ((hext₃.mapped parent pageno).mpr (.inl (hmapped₂ hstrict pageno (.inl hin)))))
  apply ensures_bind (ensures_onPages _ hstack (fun _ h => h) hend₄
    (by simp only [forkCost, pageCount]; omega))
  rintro ps₅ ⟨hext₅, hgranted₅⟩
  have hmapped : ∀ other pageno,
      Mapped ps₅ (Function.update dirs child (some pdir')) other pageno ↔
        Mapped m.pages dirs other pageno ∨ (other = child ∧ (m.spaces parent).covers pageno) := by
    intro other pageno
    rw [hext₅.mapped, hext₄.mapped, hext₃.mapped, hext₂.mapped, hmapped₁]
    constructor
    · rintro ((((hold | ⟨-, hnone⟩) | ⟨hother, htext⟩) | ⟨hother, hdata⟩) | ⟨hother, hstack⟩)
      · exact .inl hold
      · exact hnone.elim
      · exact .inr ⟨hother, .inr (.inr htext)⟩
      · exact .inr ⟨hother, .inr (.inl hdata)⟩
      · exact .inr ⟨hother, .inl hstack⟩
    · rintro (hold | ⟨hother, hstack | hdata | htext⟩)
      · exact .inl (.inl (.inl (.inl hold)))
      · exact .inr ⟨hother, hstack⟩
      · exact .inl (.inr ⟨hother, hdata⟩)
      · exact .inl (.inl (.inr ⟨hother, htext⟩))
  refine ensures_ok.mpr ⟨pdir', rfl, hext₅.sound, hmapped, ?_, ?_, rfl, rfl, rfl,
    pageEnd_chain hend₄ hext₅.pageEnd_le⟩
  · refine keeps_trans ?_ (keeps_trans (keeps_others hgranted₂.same)
      (keeps_trans (keeps_others hgranted₃.same)
        (keeps_trans (keeps_others hgranted₄.same) (keeps_others hgranted₅.same))))
    exact (hentries₁ _).update _
  · intro hbounded page hloose
    have hdisjoint := hfits.disjoint hbounded
    refine hloose₁ page (hext₂.loose (fun _ h => h.elim) page
      (hext₃.loose ?_ page (hext₄.loose ?_ page (hext₅.loose ?_ page hloose))))
    · exact fun pageno _ => hnone₂ pageno
    · intro pageno hin
      rw [hext₃.mapped]
      rintro (hold | ⟨-, htext⟩)
      · exact hnone₂ pageno hold
      · exact (hdisjoint pageno).2.2 ⟨hin, htext⟩
    · intro pageno hin
      rw [hext₄.mapped, hext₃.mapped]
      rintro ((hold | ⟨-, htext⟩) | ⟨-, hdata⟩)
      · exact hnone₂ pageno hold
      · exact (hdisjoint pageno).2.1 ⟨hin, htext⟩
      · exact (hdisjoint pageno).1 ⟨hin, hdata⟩

theorem forkSpace_spec {parent child : Pid} {pdir : ℕ}
    (hlayout : Layout regime dirs m.spaces m.pages) (hparent : dirs parent = some pdir)
    (hchild : dirs child = none) (hsecret : ∀ pageno, ¬ regime.secret pageno) :
    Ensures (Starved regime.strict m.pages (forkCost (m.spaces parent))) (m.forkSpace parent child)
      fun m' =>
        ∃ pdir', m'.spaces = Function.update m.spaces child { m.spaces parent with pdir := pdir' } ∧
          Layout regime (Function.update dirs child (some pdir')) m'.spaces m'.pages ∧
          m'.core = m.core ∧ m'.image = m.image ∧ m'.cr3 = some pdir ∧
          m'.pages.pageEnd ≤ m.pages.pageEnd + pageSize * forkCost (m.spaces parent) := by
  obtain ⟨hsource, hfits, hbounded, hcovered, -, -⟩ := hlayout.furnished parent pdir hparent
  subst hsource
  have hfresh : ∀ pageno, ¬ Mapped m.pages dirs child pageno :=
    fun pageno => not_mapped_of_none hchild
  refine ensures_weaken (forkSpace_doubled hlayout.sound hfits hparent hchild fun hstrict pageno =>
    (hcovered hstrict pageno).mpr) ?_
  rintro m' ⟨pdir', hdoubled⟩
  refine ⟨pdir', hdoubled.spaces, ?_, hdoubled.core, hdoubled.image, hdoubled.cr3,
    hdoubled.pageEnd⟩
  refine hlayout.replace child hdoubled.sound (fun other hother => Function.update_of_ne hother _ _)
    ?_ ?_ hdoubled.entries ?_ ?_
  · intro other hother
    rw [hdoubled.spaces, Function.update_of_ne hother]
  · intro _ other pageno hother
    refine (hdoubled.mapped other pageno).trans ?_
    simp [hother]
  · intro pdir'' hdir
    obtain rfl : pdir' = pdir'' := by simpa using hdir
    rw [hdoubled.spaces, Function.update_self]
    refine ⟨rfl, ⟨hfits.stackStart, hfits.stackEnd, hfits.dataStart, hfits.textStart,
      hfits.dataEnd_aligned, hfits.dataEnd_lt, hfits.textEnd_aligned, hfits.textStart_le,
      hfits.textEnd_le⟩, hbounded, fun _ pageno => ?_,
      fun pageno h => absurd h (hsecret pageno), fun pageno h => absurd h (hsecret pageno)⟩
    refine (hdoubled.mapped child pageno).trans ?_
    simp [hfresh, AddressSpace.covers]
  · exact fun hstrict page hloose =>
      hlayout.tight hstrict page (hdoubled.loose (hbounded hstrict) page hloose)

/-! ## The first process -/

/-- The pages needed to start a process. -/
def startCost : ℕ := 1793 + 2 * (processStackSize / pageSize)

theorem startSpace_spec (hlayout : Layout regime dirs m.spaces m.pages) (hpid : dirs pid = none)
    (hcode : ∀ pageno, regime.secret pageno → ¬ pagesIn mb m.image.codeEnd pageno) :
    Ensures (Starved regime.strict m.pages startCost) (m.startSpace pid) fun m' =>
      ∃ pdir, (m'.spaces pid).pdir = pdir ∧
        Layout regime (Function.update dirs pid (some pdir)) m'.spaces m'.pages ∧
        (∀ other, other ≠ pid → m'.spaces other = m.spaces other) ∧
        m'.core = m.core ∧ m'.image = m.image ∧ m'.cr3 = m.cr3 ∧
        m'.pages.pageEnd ≤ m.pages.pageEnd + pageSize * startCost := by
  have hfresh : ∀ pageno, ¬ Mapped m.pages dirs pid pageno := fun pageno => not_mapped_of_none hpid
  rw [startSpace]
  apply ensures_bind (ensures_onPages 0 (hlayout.sound.newDirectory hpid) (fun _ => .inl) le_rfl
    (by decide))
  rintro ⟨ps₁, pdir⟩ ⟨hsound₁, hmapped₁, hloose₁, hend₁, hentries₁, -⟩
  simp only at hsound₁ hmapped₁ hloose₁ hend₁ hentries₁ ⊢
  have hdir : Function.update dirs pid (some pdir) pid = some pdir := Function.update_self _ _ _
  have hkernel : Ensures (Short ps₁ 1536)
      (identityMap ps₁ pdir (0 * mb) (6 * mb) pageSupervisor pageReadOnly) fun ps₂ =>
        Extended ps₁ ps₂ (Function.update dirs pid (some pdir)) pid (fun _ => False) 1536 ∧
          Granted ps₁ ps₂ (Function.update dirs pid (some pdir)) pid (pagesIn (0 * mb) (6 * mb))
            ((pagePresent ||| pageSupervisor ||| pageReadOnly) &&& pageUser) := by
    apply hsound₁.identity hdir
    · decide
    · decide
    · decide
    · decide
    · decide
    · exact fun pageno hmapped => hfresh pageno ((hmapped₁ pid pageno).mp hmapped)
  apply ensures_bind (ensures_onPages 1 hkernel (fun _ => .inl) hend₁ (by decide))
  rintro ps₂ ⟨hext₂, hgranted₂⟩
  have hend₂ := pageEnd_chain hend₁ hext₂.pageEnd_le
  have huser : Ensures (Short ps₂ 256)
      (identityMap ps₂ pdir mb m.image.codeEnd pageUser pageReadOnly) fun ps₃ =>
        Extended ps₂ ps₃ (Function.update dirs pid (some pdir)) pid (fun _ => False) 256 ∧
          Granted ps₂ ps₃ (Function.update dirs pid (some pdir)) pid (pagesIn mb m.image.codeEnd)
            ((pagePresent ||| pageUser ||| pageReadOnly) &&& pageUser) := by
    have hend := m.image.codeEnd_le
    apply hext₂.sound.identity hdir
    · decide
    · exact hend.trans (by decide)
    · simp only [mb, pageSize] at *
      omega
    · decide
    · decide
    · intro pageno hmapped
      rw [hext₂.mapped, hmapped₁] at hmapped
      exact hmapped.elim (hfresh pageno) And.right
  apply ensures_bind (ensures_onPages _ huser (fun _ => .inl) hend₂ (by decide))
  rintro ps₃ ⟨hext₃, hgranted₃⟩
  have hend₃ := pageEnd_chain hend₂ hext₃.pageEnd_le
  have hstack : Ensures (Short ps₃ (2 * (processStackSize / pageSize)))
      (mapNewPages ps₃ pdir (processStackBase - processStackSize)
        ((processStackBase - (processStackBase - processStackSize)) / pageSize)) fun ps₄ =>
        Extended ps₃ ps₄ (Function.update dirs pid (some pdir)) pid
            (pagesIn (processStackBase - processStackSize) processStackBase)
            (2 * (processStackSize / pageSize)) ∧
          Granted ps₃ ps₄ (Function.update dirs pid (some pdir)) pid
            (pagesIn (processStackBase - processStackSize) processStackBase) pageUser := by
    apply hext₃.sound.mapNews hdir
    · decide
    · decide
  apply ensures_bind (ensures_onPages _ hstack (fun _ => .inl) hend₃ (by decide))
  rintro ps₄ ⟨hext₄, hgranted₄⟩
  have hmapped : ∀ other pageno, Mapped ps₄ (Function.update dirs pid (some pdir)) other pageno ↔
      Mapped m.pages dirs other pageno ∨
        (other = pid ∧ pagesIn (processStackBase - processStackSize) processStackBase pageno) := by
    intro other pageno
    rw [hext₄.mapped, hext₃.mapped, hext₂.mapped, hmapped₁]
    tauto
  refine ensures_ok.mpr ⟨pdir, ?_, ?_, ?_, rfl, rfl, rfl, pageEnd_chain hend₃ hext₄.pageEnd_le⟩
  · simp [setSpace]
  · refine hlayout.replace pid hext₄.sound (fun other hother => Function.update_of_ne hother _ _)
      (fun other hother => Function.update_of_ne hother _ _) ?_ ?_ ?_ ?_
    · intro _ other pageno hother
      refine (hmapped other pageno).trans ?_
      simp [hother]
    · refine keeps_trans ?_ (keeps_trans (keeps_others hgranted₂.same)
        (keeps_trans (keeps_others hgranted₃.same) (keeps_others hgranted₄.same)))
      exact (hentries₁ _).update _
    · intro pdir' hdir'
      obtain rfl : pdir = pdir' := by simpa [hdir] using hdir'
      simp only [setSpace, Function.update_self]
      refine ⟨rfl, ⟨rfl, rfl, rfl, rfl, (by decide : processDataBase % pageSize = 0),
        (by decide : processDataBase < wordCount), (by decide : processTextBase % pageSize = 0),
        le_rfl, (by decide : processTextBase ≤ processDataBase)⟩,
        fun _ => ⟨le_rfl, (by decide : processDataBase ≤ processStackBase - processStackSize)⟩,
        fun _ pageno => ?_, fun _ _ => le_rfl, fun pageno hsecret => ?_⟩
      · refine (hmapped pid pageno).trans ?_
        simp only [hfresh, false_or, true_and, AddressSpace.covers]
        refine ⟨.inl, ?_⟩
        rintro (hin | ⟨hlow, hhigh⟩ | ⟨hlow, hhigh⟩)
        · exact hin
        · exact absurd hhigh (by omega)
        · exact absurd hhigh (by omega)
      · have hlow := regime.secret_low pageno hsecret
        have hstackPage :
            ¬ pagesIn (processStackBase - processStackSize) processStackBase pageno := by
          simp only [pagesIn, processStackBase, processStackSize, pageSize]
          omega
        have hkernelPage : pagesIn (0 * mb) (6 * mb) pageno := by
          simp only [pagesIn, mb, pageSize]
          omega
        refine Eq.trans ?_ (hgranted₂.access pdir pageno hdir (by omega) hkernelPage)
        rw [← hgranted₃.same pid pdir pageno hdir (by omega) fun h => hcode pageno hsecret h.2,
          ← hgranted₄.same pid pdir pageno hdir (by omega) fun h => hstackPage h.2]
    · intro hstrict page hloose
      refine hlayout.tight hstrict page (hloose₁ page (hext₂.loose (fun _ h => h.elim) page
        (hext₃.loose (fun _ h => h.elim) page (hext₄.loose ?_ page hloose))))
      intro pageno _
      rw [hext₃.mapped, hext₂.mapped, hmapped₁]
      have := hfresh pageno
      tauto
  · intro other hother
    simp [setSpace, hother]

/-! ## Death -/

theorem freeSpace_spec {pdir : ℕ} (hlayout : Layout regime dirs m.spaces m.pages)
    (hpid : dirs pid = some pdir) :
    ∃ ps', m.freeSpace pid = .ok { m with pages := ps', cr3 := none } ∧
      Layout regime (Function.update dirs pid none) m.spaces ps' ∧
      ps'.pageEnd = m.pages.pageEnd := by
  obtain ⟨hdirectory, hfits, -, hcovered, -, -⟩ := hlayout.furnished pid pdir hpid
  obtain ⟨ps₁, hstack, hshrunk₁⟩ := hlayout.sound.unmapSegment hpid
    (by rw [hfits.stackStart]; decide : (m.spaces pid).stackStart % pageSize = 0)
    (by rw [hfits.stackStart]; decide)
    (by rw [hfits.stackEnd]; decide : (m.spaces pid).stackEnd ≤ wordCount)
  obtain ⟨ps₂, hdata, hshrunk₂⟩ := hshrunk₁.sound.unmapSegment hpid
    (by rw [hfits.dataStart]; decide : (m.spaces pid).dataStart % pageSize = 0)
    (by rw [hfits.dataStart]; decide) hfits.dataEnd_lt.le
  obtain ⟨ps₃, htext, hshrunk₃⟩ := hshrunk₂.sound.unmapSegment hpid
    (by rw [hfits.textStart]; decide : (m.spaces pid).textStart % pageSize = 0)
    (by rw [hfits.textStart]; decide) (hfits.textEnd_le.trans (by decide))
  obtain ⟨ps₄, hfree, hsound, hmapped, hloose, hend, hentries⟩ := hshrunk₃.sound.freeDirectory hpid
  refine ⟨ps₄, ?_, ?_, ?_⟩
  · rw [freeSpace, hdirectory]
    simp only [hstack, hdata, htext, hfree, onPages, ok_bind, pure_eq_ok]
  · refine hlayout.replace pid hsound (fun other hother => Function.update_of_ne hother _ _)
      (fun _ _ => rfl) ?_ ?_ ?_ ?_
    · intro _ other pageno hother
      rw [hmapped, hshrunk₃.mapped, hshrunk₂.mapped, hshrunk₁.mapped]
      simp [hother]
    · exact keeps_trans ((keeps_others hshrunk₁.entries).update none)
        (keeps_trans ((keeps_others hshrunk₂.entries).update none)
          (keeps_trans ((keeps_others hshrunk₃.entries).update none) (hentries _)))
    · intro pdir' hdir
      simp at hdir
    · intro hstrict page hpage
      rcases hloose page hpage with hbefore | ⟨pageno, hhigh, hheld⟩
      · exact hlayout.tight hstrict page
          (hshrunk₁.loose page (hshrunk₂.loose page (hshrunk₃.loose page hbefore)))
      · -- every page of the process was in a segment, and is unmapped by now
        have hleft : Mapped ps₃ dirs pid pageno := ⟨page, hhigh, hheld⟩
        rw [hshrunk₃.mapped, hshrunk₂.mapped, hshrunk₁.mapped, hcovered hstrict] at hleft
        obtain ⟨⟨⟨hsegment, hnotStack⟩, hnotData⟩, hnotText⟩ := hleft
        rcases hsegment with hstack | hdata | htext
        · exact hnotStack ⟨rfl, hstack⟩
        · exact hnotData ⟨rfl, hdata⟩
        · exact hnotText ⟨rfl, htext⟩
  · rw [hend, hshrunk₃.pageEnd_eq, hshrunk₂.pageEnd_eq, hshrunk₁.pageEnd_eq]

/-! ## Changing segments -/

/-- The pages of a process change, and with them its segments. -/
structure Reshaped (regime : Regime) (dirs : Pid → Option ℕ) (m m' : Machine) (pid : Pid)
    (count : ℕ) : Prop where
  layout : Layout regime dirs m'.spaces m'.pages
  spaces : ∀ other, other ≠ pid → m'.spaces other = m.spaces other
  core : m'.core = m.core
  image : m'.image = m.image
  cr3 : m'.cr3 = some (m.spaces pid).pdir
  pageEnd_le : m'.pages.pageEnd ≤ m.pages.pageEnd + pageSize * count

theorem replaceText_spec {pdir : ℕ} (hlayout : Layout regime dirs m.spaces m.pages)
    (hpid : dirs pid = some pdir) {contents : List UInt8} (hsize : contents.length < 2 * mb) :
    Ensures (Starved regime.strict m.pages (2 * pageCount 0 contents.length))
      (m.replaceText pid contents)
      fun m' => Reshaped regime dirs m m' pid (2 * pageCount 0 contents.length) := by
  obtain ⟨hdirectory, hfits, hbounded, hcovered, -, hhidden⟩ := hlayout.furnished pid pdir hpid
  obtain ⟨ps₁, htext, hshrunk₁⟩ := hlayout.sound.unmapSegment hpid
    (by rw [hfits.textStart]; decide : (m.spaces pid).textStart % pageSize = 0)
    (by rw [hfits.textStart]; decide)
    (hfits.textEnd_le.trans (by decide) : (m.spaces pid).textEnd ≤ wordCount)
  obtain ⟨ps₂, hdata, hshrunk₂⟩ := hshrunk₁.sound.unmapSegment hpid
    (by rw [hfits.dataStart]; decide : (m.spaces pid).dataStart % pageSize = 0)
    (by rw [hfits.dataStart]; decide) hfits.dataEnd_lt.le
  have hload : Ensures (Short ps₂ (2 * pageCount 0 contents.length))
      (loadText ps₂ pdir processTextBase contents) fun ps₃ =>
        Extended ps₂ ps₃ dirs pid
            (pagesIn processTextBase (processTextBase + contents.length))
            (2 * pageCount 0 contents.length) ∧
          Granted ps₂ ps₃ dirs pid
            (pagesIn processTextBase (processTextBase + contents.length)) pageUser := by
    rw [pageCount, Nat.sub_zero]
    apply hshrunk₂.sound.loadSegment hpid
    · decide
    · simp only [processTextBase, mb, wordCount] at *
      omega
  have hend₂ : ps₂.pageEnd ≤ m.pages.pageEnd + pageSize * 0 := by
    rw [hshrunk₂.pageEnd_eq, hshrunk₁.pageEnd_eq]
    exact le_rfl
  rw [replaceText, hdirectory]
  simp only [htext, hdata, onPages, ok_bind]
  apply ensures_bind (ensures_onPages 0 hload (fun _ => .inl) hend₂ (by omega))
  rintro ps₃ ⟨hext₃, hgranted₃⟩
  have hmapped : ∀ other pageno, Mapped ps₃ dirs other pageno ↔
      (Mapped m.pages dirs other pageno ∧
        ¬ (other = pid ∧ pagesIn (m.spaces pid).textStart (m.spaces pid).textEnd pageno) ∧
        ¬ (other = pid ∧ pagesIn (m.spaces pid).dataStart (m.spaces pid).dataEnd pageno)) ∨
      (other = pid ∧ pagesIn processTextBase (processTextBase + contents.length) pageno) := by
    intro other pageno
    rw [hext₃.mapped, hshrunk₂.mapped, hshrunk₁.mapped, and_assoc]
  have hround : ∀ pageno, pagesIn processTextBase (processTextBase + contents.length) pageno ↔
      pagesIn processTextBase (processTextBase +
        (contents.length + (pageSize - 1)) / pageSize * pageSize) pageno := by
    intro pageno
    simp only [pagesIn, pageSize, processTextBase]
    omega
  refine ensures_ok.mpr ⟨?_, fun other hother => ?_, rfl, rfl, ?_, ?_⟩
  · refine hlayout.replace pid hext₃.sound (fun _ _ => rfl)
      (fun other hother => Function.update_of_ne hother _ _) ?_ ?_ ?_ ?_
    · intro _ other pageno hother
      refine (hmapped other pageno).trans ?_
      simp [hother]
    · exact keeps_trans (keeps_others hshrunk₁.entries)
        (keeps_trans (keeps_others hshrunk₂.entries) (keeps_others hgranted₃.same))
    · intro pdir' hdir'
      obtain rfl : pdir = pdir' := by simpa [hpid] using hdir'
      simp only [setSpace, Function.update_self]
      refine ⟨rfl, ⟨hfits.stackStart, hfits.stackEnd, rfl, rfl,
        (by decide : processDataBase % pageSize = 0), (by decide : processDataBase < wordCount),
        ?_, ?_, ?_⟩, fun _ => ⟨le_rfl, ?_⟩, fun hstrict pageno => ?_, fun _ _ => le_rfl,
        fun pageno hsecret => ?_⟩
      · simp only [processTextBase, pageSize]
        omega
      · simp only [processTextBase, pageSize]
        omega
      · simp only [processTextBase, processDataBase, pageSize, mb] at *
        omega
      · rw [hfits.stackStart]
        exact (by decide : processDataBase ≤ processStackBase - processStackSize)
      · have hdisjoint := hfits.disjoint (hbounded hstrict) pageno
        have hnone : ¬ pagesIn processDataBase processDataBase pageno := by
          simp only [pagesIn]
          omega
        refine (hmapped pid pageno).trans ?_
        rw [hcovered hstrict, AddressSpace.covers, AddressSpace.covers, hround]
        tauto
      · have hlow := regime.secret_low pageno hsecret
        have hspared : ∀ first limit, processTextBase ≤ first →
            ¬ (pid = pid ∧ pagesIn first limit pageno) := by
          rintro first limit hfirst ⟨-, hin⟩
          simp only [pagesIn, processTextBase, pageSize] at *
          omega
        refine Eq.trans ?_ (hhidden pageno hsecret)
        refine congrArg (· &&& pageUser) ?_
        rw [← hshrunk₁.entries pid pdir pageno hpid (by omega)
            (hspared _ _ (by rw [hfits.textStart])),
          ← hshrunk₂.entries pid pdir pageno hpid (by omega)
            (hspared _ _ (by rw [hfits.dataStart]; decide))]
        exact hgranted₃.same pid pdir pageno hpid (by omega) (hspared _ _ le_rfl)
    · intro hstrict page hloose
      refine hlayout.tight hstrict page
        (hshrunk₁.loose page (hshrunk₂.loose page (hext₃.loose ?_ page hloose)))
      intro pageno hin
      rw [hshrunk₂.mapped, hshrunk₁.mapped, hcovered hstrict, AddressSpace.covers]
      rintro ⟨⟨hstack | hdata | htext, hnotText⟩, hnotData⟩
      · rw [hfits.stackStart] at hstack
        simp only [pagesIn, processStackBase, processStackSize, processTextBase, mb] at *
        omega
      · exact hnotData ⟨rfl, hdata⟩
      · exact hnotText ⟨rfl, htext⟩
  · simp [setSpace, hother]
  · simp only [setSpace]
    rw [hdirectory]
  · exact (pageEnd_chain hend₂ hext₃.pageEnd_le).trans (by simp)

/-- `newend` in `syscall_brk` after rounding, in 32-bit arithmetic. -/
def brkEnd (newend : ℕ) : ℕ :=
  if newend % pageSize ≠ 0 then (newend / pageSize + 1) * pageSize % wordCount else newend

/-- The number of pages that `syscall_brk` maps for an argument above the end of
the data segment. -/
def brkPages (oldend newend : ℕ) : ℕ := (brkEnd newend + wordCount - oldend) % wordCount / pageSize

/-- The new end of the data segment, and the pages up to it.  Past the last page
the end wraps around to 0. -/
theorem brkPages_spec {oldend newend : ℕ} (hold : oldend % pageSize = 0) (hlt : oldend < newend)
    (hword : newend < wordCount) :
    brkEnd newend % pageSize = 0 ∧
      (newend ≤ brkEnd newend ∧ brkEnd newend < newend + pageSize ∧ brkEnd newend < wordCount ∧
          oldend + brkPages oldend newend * pageSize = brkEnd newend ∨
        brkEnd newend = 0 ∧ wordCount < newend + pageSize ∧
          oldend + brkPages oldend newend * pageSize ≤ wordCount) := by
  have hend : brkEnd newend = newend ∧ newend % pageSize = 0 ∨ newend % pageSize ≠ 0 ∧
      brkEnd newend = (newend / pageSize + 1) * pageSize % wordCount := by
    rw [brkEnd]
    split
    · exact .inr ⟨by assumption, rfl⟩
    · exact .inl ⟨rfl, by omega⟩
  simp only [brkPages, pageSize, wordCount] at *
  omega

theorem syscallBrk_spec {pdir : ℕ} (hlayout : Layout regime dirs m.spaces m.pages)
    (hpid : dirs pid = some pdir) (hcr3 : m.cr3 = some pdir) (endDataSegment : Word)
    (hargument : regime.strict → endDataSegment.toNat ≤ (m.spaces pid).stackStart)
    (hsecret : ∀ pageno, regime.secret pageno → endDataSegment.toNat ≤ wordCount - pageSize) :
    Ensures
      (Starved regime.strict m.pages (2 * brkPages (m.spaces pid).dataEnd endDataSegment.toNat))
      (m.syscallBrk pid endDataSegment) fun result =>
        result.2 = 0 ∧ Reshaped regime dirs m result.1 pid
          (2 * brkPages (m.spaces pid).dataEnd endDataSegment.toNat) := by
  obtain ⟨hdirectory, hfits, hbounded, hcovered, hrising, hhidden⟩ :=
    hlayout.furnished pid pdir hpid
  rw [syscallBrk]
  split
  · refine ensures_ok.mpr ⟨rfl, hlayout, fun _ _ => rfl, rfl, rfl, ?_, Nat.le_add_right _ _⟩
    rw [hcr3, hdirectory]
  next hgrows =>
    obtain ⟨haligned, hcases⟩ := brkPages_spec hfits.dataEnd_aligned
      (Nat.lt_of_not_le hgrows) endDataSegment.isLt
    have hfitsPages : (m.spaces pid).dataEnd +
        brkPages (m.spaces pid).dataEnd endDataSegment.toNat * pageSize ≤ wordCount := by
      omega
    have hnews := hlayout.sound.mapNews hpid hfits.dataEnd_aligned hfitsPages
    rw [hdirectory]
    apply ensures_bind (ensures_onPages 0 hnews (fun _ => .inl) (Nat.le_add_right _ _) (by omega))
    rintro ps₁ ⟨hext₁, hgranted₁⟩
    refine ensures_ok.mpr ⟨rfl, ?_, fun other hother => ?_, rfl, rfl, ?_, hext₁.pageEnd_le⟩
    · refine hlayout.replace pid hext₁.sound (fun _ _ => rfl)
        (fun other hother => Function.update_of_ne hother _ _) ?_ ?_ ?_ ?_
      · intro _ other pageno hother
        refine (hext₁.mapped other pageno).trans ?_
        simp [hother]
      · exact keeps_others hgranted₁.same
      · intro pdir' hdir'
        obtain rfl : pdir = pdir' := by simpa [hpid] using hdir'
        simp only [setSpace, Function.update_self]
        refine ⟨rfl, ⟨hfits.stackStart, hfits.stackEnd, hfits.dataStart, hfits.textStart,
          haligned, ?_, hfits.textEnd_aligned, hfits.textStart_le, hfits.textEnd_le⟩,
          fun hstrict => ?_, fun hstrict pageno => ?_, fun pageno h => ?_, fun pageno h => ?_⟩
        · change brkEnd endDataSegment.toNat < wordCount
          simp only [wordCount] at *
          omega
        rotate_right 2
        · have hbound := hsecret pageno h
          have hstart := hrising pageno h
          change (m.spaces pid).dataStart ≤ brkEnd endDataSegment.toNat
          simp only [pageSize, wordCount] at *
          omega
        · have hstart := hrising pageno h
          have hlow := regime.secret_low pageno h
          have hdata := hfits.dataStart
          have hspared : ¬ (pid = pid ∧ pagesIn (m.spaces pid).dataEnd ((m.spaces pid).dataEnd +
              brkPages (m.spaces pid).dataEnd endDataSegment.toNat * pageSize) pageno) := by
            rintro ⟨-, hin, -⟩
            simp only [processDataBase, pageSize] at *
            omega
          exact (congrArg (· &&& pageUser)
            (hgranted₁.same pid pdir pageno hpid (by omega) hspared)).trans (hhidden pageno h)
        all_goals
          have hlow := (hbounded hstrict).1
          have hhigh := hargument hstrict
          have hdata := hfits.dataStart
          have hstack := hfits.stackStart
          simp only [processStackBase, processStackSize, processDataBase] at hdata hstack
          have hpages : (m.spaces pid).dataEnd +
              brkPages (m.spaces pid).dataEnd endDataSegment.toNat * pageSize =
                brkEnd endDataSegment.toNat := by
            simp only [pageSize, wordCount] at *
            omega
        · constructor
          · change (m.spaces pid).dataStart ≤ brkEnd endDataSegment.toNat
            omega
          · change brkEnd endDataSegment.toNat ≤ (m.spaces pid).stackStart
            simp only [pageSize, wordCount] at *
            omega
        · refine (hext₁.mapped pid pageno).trans ?_
          rw [hcovered hstrict, hpages]
          have hsplit : pagesIn (m.spaces pid).dataStart (brkEnd endDataSegment.toNat) pageno ↔
              pagesIn (m.spaces pid).dataStart (m.spaces pid).dataEnd pageno ∨
                pagesIn (m.spaces pid).dataEnd (brkEnd endDataSegment.toNat) pageno := by
            have := hfits.dataEnd_aligned
            simp only [pagesIn, pageSize, wordCount] at *
            omega
          change (m.spaces pid).covers pageno ∨ _ ↔ pagesIn (m.spaces pid).stackStart
            (m.spaces pid).stackEnd pageno ∨ pagesIn (m.spaces pid).dataStart
              (brkEnd endDataSegment.toNat) pageno ∨ pagesIn (m.spaces pid).textStart
                (m.spaces pid).textEnd pageno
          rw [hsplit, AddressSpace.covers]
          simp only [true_and]
          rw [or_assoc, or_assoc, or_assoc]
          refine or_congr_right (or_congr_right or_comm)
      · intro hstrict page hloose
        refine hlayout.tight hstrict page (hext₁.loose ?_ page hloose)
        intro pageno hin
        rw [hcovered hstrict, AddressSpace.covers]
        have hhigh := hargument hstrict
        have hlow := (hbounded hstrict).1
        have hdata := hfits.dataStart
        have hstack := hfits.stackStart
        have htext := hfits.textEnd_le
        simp only [pagesIn, processStackBase, processStackSize, processDataBase, pageSize,
          wordCount] at *
        omega
    · simp [setSpace, hother]
    · simp only [setSpace]
      rw [hdirectory]

/-! ## Kernel access to user memory -/

theorem loadUser_spec (m : Machine) (address count : ℕ) :
    Ensures Harmless (m.loadUser address count) fun bytes => bytes.length = count := by
  have hload : Ensures (· = .unmapped) (Paging.loadUser m.cr3 m.pages address count)
      fun bytes => bytes.length = count := by
    induction count generalizing address with
    | zero => exact ensures_ok.mpr rfl
    | succ count ih =>
        rw [Paging.loadUser]
        have hbyte : Ensures (· = .unmapped) (loadByte m.cr3 m.pages (address % wordCount))
            fun _ => True := by
          unfold loadByte
          split
          · exact ensures_ok.mpr trivial
          · unfold Paging.translate
            split
            · exact ensures_ok.mpr trivial
            · exact ensures_error.mpr rfl
        refine ensures_bind hbyte fun byte _ => ensures_bind (ih (address + 1))
          fun bytes hbytes => ?_
        exact ensures_ok.mpr (by simp [hbytes])
  rw [loadUser]
  cases hresult : Paging.loadUser m.cr3 m.pages address count with
  | ok bytes =>
      rw [hresult, ensures_ok] at hload
      exact ensures_ok.mpr hload
  | error fault =>
      rw [hresult, ensures_error] at hload
      subst hload
      exact ensures_error.mpr (by simp [Harmless])

theorem storeUser_spec {pdir : ℕ} (hlayout : Layout regime dirs m.spaces m.pages)
    (hpid : dirs pid = some pdir) (hcr3 : m.cr3 = some pdir) (address : ℕ) (bytes : List UInt8) :
    Ensures Harmless (m.storeUser address bytes) fun m' =>
      ∃ ps', m' = { m with pages := ps' } ∧ Layout regime dirs m.spaces ps' ∧
        ps'.pageEnd = m.pages.pageEnd := by
  have hstore := hlayout.sound.storeBytes hpid address bytes
  rw [storeUser, hcr3]
  cases hresult : Paging.storeUser (some pdir) m.pages address bytes with
  | ok ps' =>
      rw [hresult, ensures_ok] at hstore
      exact ensures_ok.mpr ⟨ps', rfl, hlayout.refill hstore, hstore.pageEnd_eq⟩
  | error fault =>
      rw [hresult, ensures_error] at hstore
      subst hstore
      exact ensures_error.mpr (by simp [Harmless])

/-- A store through a pointer of a process fails like the store it makes, or because it
meets the kernel. -/
theorem ensures_copyOut {allowed : Fault → Prop} {post : Machine → Prop} {caller : Pid}
    {address : ℕ} {bytes : List UInt8} (hkernel : allowed .kernelStore)
    (hstore : Ensures allowed (m.storeUser address bytes) fun m' =>
      post (m'.setCore (m'.core.record (.stored caller address bytes.length)))) :
    Ensures allowed (m.copyOut caller address bytes) post := by
  rw [copyOut]
  split
  · exact ensures_error.mpr hkernel
  · exact ensures_bind hstore fun _ hpost => ensures_ok.mpr hpost

theorem copyOut_eq_ok {caller : Pid} {address : ℕ} {bytes : List UInt8} {m' : Machine} :
    m.copyOut caller address bytes = .ok m' ↔ meetsKernel address bytes.length = false ∧
      ∃ m₁, m.storeUser address bytes = .ok m₁ ∧
        m₁.setCore (m₁.core.record (.stored caller address bytes.length)) = m' := by
  rw [copyOut]
  cases meetsKernel address bytes.length <;> simp [bind_eq_ok]

theorem copyOut_spec {pdir : ℕ} (hlayout : Layout regime dirs m.spaces m.pages)
    (hpid : dirs pid = some pdir) (hcr3 : m.cr3 = some pdir) (caller : Pid) (address : ℕ)
    (bytes : List UInt8) (houtside : meetsKernel address bytes.length = false) :
    Ensures Harmless (m.copyOut caller address bytes) fun m' =>
      ∃ ps', m' = { m with
          pages := ps', core := m.core.record (.stored caller address bytes.length) } ∧
        Layout regime dirs m.spaces ps' ∧ ps'.pageEnd = m.pages.pageEnd := by
  rw [copyOut, houtside, if_neg Bool.false_ne_true]
  apply ensures_bind (storeUser_spec hlayout hpid hcr3 address bytes)
  rintro _ ⟨ps', rfl, hlayout', hend⟩
  exact ensures_ok.mpr ⟨ps', rfl, hlayout', hend⟩

/-! ## Stores before paging is enabled -/

theorem storeUser_none (ps : Pages) (bytes : List UInt8) : ∀ (phys : Memory) {address : ℕ},
    address + bytes.length ≤ wordCount →
    Paging.storeUser none { ps with phys := phys } address bytes =
      .ok { ps with phys := storeBytes phys address bytes } := by
  induction bytes with
  | nil => exact fun _ _ _ => rfl
  | cons byte bytes ih =>
      intro phys address hbound
      rw [List.length_cons] at hbound
      rw [Paging.storeUser, Paging.storeByte, pure_eq_ok, ok_bind, Nat.mod_eq_of_lt (by omega),
        ih _ (by omega), storeBytes]

/-- The machine after a store to physical addresses. -/
def storedAt (m : Machine) (pid : Pid) (address : ℕ) (bytes : List UInt8) : Machine :=
  { m with
    pages := { m.pages with phys := storeBytes m.pages.phys address bytes }
    core := m.core.record (.stored pid address bytes.length) }

theorem copyOut_none (m : Machine) (pid : Pid) {address : ℕ} {bytes : List UInt8}
    (hcr3 : m.cr3 = none) (hlow : pageStart ≤ address)
    (hbound : address + bytes.length ≤ wordCount) :
    m.copyOut pid address bytes = .ok (m.storedAt pid address bytes) := by
  have houtside : meetsKernel address bytes.length = false :=
    meetsKernel_eq_false.mpr (.inr ⟨hlow, hbound⟩)
  rw [copyOut, houtside, if_neg Bool.false_ne_true, storeUser, hcr3,
    storeUser_none m.pages bytes m.pages.phys hbound]
  simp only [onPages, ok_bind, pure_eq_ok, setCore, storedAt, hcr3]

theorem storedAt_injective {address : ℕ} {bytes bytes' : List UInt8}
    (hsame : m.storedAt pid address bytes = m.storedAt pid address bytes') : bytes = bytes' := by
  have hhistory : (m.core.record (.stored pid address bytes.length)).history =
      (m.core.record (.stored pid address bytes'.length)).history :=
    congrArg (fun m : Machine => m.core.history) hsame
  have hphys : storeBytes m.pages.phys address bytes = storeBytes m.pages.phys address bytes' :=
    congrArg (fun m : Machine => m.pages.phys) hsame
  have hlength : bytes.length = bytes'.length := by simpa using hhistory
  calc bytes = loadBytes (storeBytes m.pages.phys address bytes) address bytes.length :=
        (loadBytes_storeBytes _ _ _).symm
    _ = loadBytes (storeBytes m.pages.phys address bytes') address bytes'.length := by
        rw [hlength, hphys]
    _ = bytes' := loadBytes_storeBytes _ _ _

end Machine

end Rhythmos.Kernel
