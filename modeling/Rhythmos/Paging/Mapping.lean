import Rhythmos.Paging.Tables

/-!
# Mapping and unmapping

One specification for each function of `page.c`, in terms of which logical
pages are backed (`Mapped`) and which pages are loose.  A function that maps or
unmaps pages of one process leaves the backing of every other process alone.
-/

namespace Rhythmos.Paging

open ByteMemory Libc Fallible

variable {Pid : Type*} {ps : Pages} {dirs : Pid → Option ℕ}
variable {pid : Pid} {pdir : ℕ}

/-- Entering a loose page of zeros as a page table where there was none. -/
theorem Sound.linkTable (hsound : Sound ps dirs) (hdir : dirs pid = some pdir)
    {dirindex : ℕ} (hindex : dirindex < 1024)
    (habsent : isPresent (word ps.phys pdir dirindex) = false) {table value : ℕ}
    (hloose : Loose ps dirs table) (hzero : ∀ index < 1024, word ps.phys table index = 0)
    (hvalue : value % wordCount = value) (hpresent : isPresent value = true)
    (hframe : frameAddress value = table) :
    let ps' := ps.store (pdir + 4 * dirindex) value
    Sound ps' dirs ∧
      (∀ holder page, Holds ps'.phys dirs holder page ↔
        (holder = .table pid dirindex ∧ page = table) ∨ Holds ps.phys dirs holder page) ∧
      (∀ page, Loose ps' dirs page ↔ page ≠ table ∧ Loose ps dirs page) ∧
      ∀ touched, SameEntries touched ps.phys ps'.phys dirs := by
  intro ps'
  obtain ⟨hsame, hholds, hentries⟩ := hsound.tables.linkTable hdir hindex habsent
    (hsound.aligned hloose.1) (fun holder _ => hloose.2 holder) hzero hvalue hpresent hframe
  obtain ⟨hsound', hloose'⟩ := hsound.gain hsame (.inl hloose) hholds
  exact ⟨hsound', hholds, hloose', hentries⟩

variable [DecidableEq Pid]

/-! ## Mapping one page -/

/-- The only failure of a function that allocates up to `count` pages: they do
not fit below the end of the address space. -/
def Short (ps : Pages) (count : ℕ) (fault : PageFault) : Prop :=
  fault = .exhausted ∧ wordCount < ps.pageEnd + pageSize * count

theorem Short.mono {ps' : Pages} {count count' : ℕ} {fault : PageFault}
    (hshort : Short ps' count fault) (extra : ℕ)
    (hend : ps'.pageEnd ≤ ps.pageEnd + pageSize * extra)
    (hcount : extra + count ≤ count') : Short ps count' fault := by
  refine ⟨hshort.1, ?_⟩
  have hlong := hshort.2
  have hmul : pageSize * (extra + count) ≤ pageSize * count' := Nat.mul_le_mul_left _ hcount
  rw [Nat.mul_add] at hmul
  omega

omit [DecidableEq Pid] in
theorem Sound.create (hsound : Sound ps dirs) (hdir : dirs pid = some pdir)
    {dirindex : ℕ} (hindex : dirindex < 1024) :
    Ensures (Short ps 1) (createTable ps pdir dirindex) fun ps' =>
      Sound ps' dirs ∧ isPresent (word ps'.phys pdir dirindex) = true ∧
      (∀ other pageno page, Holds ps'.phys dirs (.backing other pageno) page ↔
        Holds ps.phys dirs (.backing other pageno) page) ∧
      (∀ page, Loose ps' dirs page ↔ Loose ps dirs page) ∧
      ps'.pageEnd ≤ ps.pageEnd + pageSize ∧
      ∀ touched, SameEntries touched ps.phys ps'.phys dirs := by
  rw [createTable]
  split
  · next hpresent =>
      rw [ensures_ok]
      exact ⟨hsound, hpresent, fun _ _ _ => Iff.rfl, fun _ => Iff.rfl, by simp,
        fun _ _ _ _ _ _ _ => rfl⟩
  · next habsent =>
      refine ensures_bind (ensures_mono hsound.alloc ?_ fun _ h => h) ?_
      · rintro fault ⟨hfault, hlong⟩
        exact ⟨hfault, by simpa using hlong⟩
      rintro ⟨ps₁, page⟩ ⟨hsound₁, hloose₁, hnew, hholds₁, hlooses₁, hzero, hend, hentries₁⟩
      simp only [pure_eq_ok, ensures_ok] at *
      have habsent₁ : isPresent (word ps₁.phys pdir dirindex) = false := by
        by_contra hthere
        rw [Bool.not_eq_false] at hthere
        have hheld : Holds ps₁.phys dirs (.table pid dirindex)
            (frameAddress (word ps₁.phys pdir dirindex)) := ⟨pdir, hdir, hindex, hthere, rfl⟩
        obtain ⟨pdir', hdir', -, hpresent, -⟩ := (hholds₁ _ _).mp hheld
        obtain rfl : pdir = pdir' := by simpa [hdir] using hdir'
        exact habsent hpresent
      have haligned := hsound₁.aligned hloose₁.1
      have hfits : page < wordCount := by
        obtain ⟨⟨free, halloc⟩, -⟩ := hsound₁
        exact halloc.lt_wordCount hloose₁.1
      obtain ⟨hmod, hpresent, hframe⟩ := stored_flags haligned hfits
        (show pagePresent ||| pageUser ||| pageReadWrite < pageSize by decide) (by decide)
      obtain ⟨hsound₂, hholds₂, hlooses₂, hentries₂⟩ :=
        hsound₁.linkTable hdir hindex habsent₁ hloose₁ hzero hmod hpresent hframe
      refine ⟨hsound₂, ?_, ?_, ?_, hend, fun touched =>
        ((hentries₁ touched).trans (hentries₂ touched)).mono fun _ _ h => h.elim id id⟩
      · obtain ⟨pdir', hdir', -, hthere, -⟩ :=
          (hholds₂ (.table pid dirindex) page).mpr (.inl ⟨rfl, rfl⟩)
        obtain rfl : pdir = pdir' := by simpa [hdir] using hdir'
        exact hthere
      · intro other pageno x
        rw [hholds₂, hholds₁]
        simp
      · intro x
        rw [hlooses₂, hlooses₁]
        constructor
        · rintro ⟨hne, rfl | hx⟩
          · exact absurd rfl hne
          · exact hx
        · intro hx
          refine ⟨?_, .inr hx⟩
          rintro rfl
          exact hnew hx.1

/-- `map_page` makes one logical page refer to the given page.  A page that
backed it before becomes loose. -/
theorem Sound.map (hsound : Sound ps dirs) (hdir : dirs pid = some pdir)
    {logical physical access readwrite : ℕ} (hlogical : logical % pageSize = 0)
    (hbound : logical < wordCount) (hphysical : physical % pageSize = 0)
    (hfits : physical < wordCount)
    (havailable : Available ps dirs (.backing pid (logical / pageSize)) physical)
    (hflags : pagePresent ||| access ||| readwrite < pageSize)
    (hodd : (pagePresent ||| access ||| readwrite) % 2 = 1) :
    Ensures (Short ps 1) (mapPage ps pdir logical physical access readwrite) fun ps' =>
      Sound ps' dirs ∧
      (∀ other pageno page, Holds ps'.phys dirs (.backing other pageno) page ↔
        if other = pid ∧ pageno = logical / pageSize then page = physical
        else Holds ps.phys dirs (.backing other pageno) page) ∧
      (∀ page, Loose ps' dirs page → page ≠ physical ∧ (Loose ps dirs page ∨
        pageStart ≤ page ∧ Holds ps.phys dirs (.backing pid (logical / pageSize)) page)) ∧
      ps'.pageEnd ≤ ps.pageEnd + pageSize ∧
      ∀ other dir number, dirs other = some dir → number < 1048576 →
        entry ps'.phys dir number = if other = pid ∧ number = logical / pageSize then
          physical ||| pagePresent ||| access ||| readwrite else entry ps.phys dir number := by
  have hpageno : logical / pageSize < 1048576 := by
    simp only [pageSize, wordCount] at *
    omega
  have hindex : logical / pageSize / 1024 < 1024 := by omega
  rw [mapPage]
  simp only [check, hlogical, hphysical, if_true, ok_bind]
  apply ensures_bind (hsound.create hdir hindex)
  rintro ps₁ ⟨hsound₁, hpresent, hholds₁, hloose₁, hend, hentries₁⟩
  rw [pure_eq_ok, ensures_ok]
  obtain ⟨hmod, hthere, hframe⟩ := stored_flags hphysical hfits hflags hodd
  have havailable₁ : Available ps₁ dirs (.backing pid (logical / pageSize)) physical := by
    rcases havailable with hloose | hidentity
    · exact .inl ((hloose₁ physical).mpr hloose)
    · exact .inr hidentity
  -- the store is the removal of the old entry followed by the entry of the new one
  obtain ⟨hsame₀, hholds₀, -⟩ := hsound₁.tables.storeEntry hdir hpageno hpresent
    (show 0 % wordCount = 0 by simp)
  obtain ⟨hsame₂, hholds₂, hentries₂⟩ := hsound₁.tables.storeEntry hdir hpageno hpresent hmod
  set table := frameAddress (word ps₁.phys pdir (logical / pageSize / 1024)) with htable
  set phys₀ := store32 ps₁.phys (table + 4 * (logical / pageSize % 1024)) 0 with hphys₀
  set phys₂ := store32 ps₁.phys (table + 4 * (logical / pageSize % 1024))
    (physical ||| pagePresent ||| access ||| readwrite) with hphys₂
  have hlost : ∀ other x, Holds phys₀ dirs other x ↔
      ¬ (other = .backing pid (logical / pageSize)) ∧ Holds ps₁.phys dirs other x := by
    intro other x
    rw [hholds₀]
    simp
  obtain ⟨hsoundLost, hlooseLost⟩ := hsound₁.lose hsame₀ hlost
  have hsame : SameWordsBut (Pages.Outstanding { ps₁ with phys := phys₀ }) phys₀ phys₂ := by
    intro page hpage hnot index hlt
    rw [hsame₂ page hpage hnot index hlt, hsame₀ page hpage hnot index hlt]
  have havailable₂ : Available { ps₁ with phys := phys₀ } dirs
      (.backing pid (logical / pageSize)) physical := by
    rcases havailable₁ with hloose | hidentity
    · exact .inl ((hlooseLost physical).mpr (.inl hloose))
    · exact .inr hidentity
  have hwon : ∀ other x, Holds phys₂ dirs other x ↔
      (other = .backing pid (logical / pageSize) ∧ x = physical) ∨ Holds phys₀ dirs other x := by
    intro other x
    rw [hholds₂, hlost, hframe]
    simp [hthere, eq_comm]
  obtain ⟨hsoundWon, hlooseWon⟩ := hsoundLost.gain hsame havailable₂ hwon
  refine ⟨hsoundWon, ?_, ?_, hend, ?_⟩
  · intro other pageno page
    change Holds phys₂ dirs (.backing other pageno) page ↔ _
    rw [hholds₂, hholds₁]
    by_cases hsame : other = pid ∧ pageno = logical / pageSize
    · rw [if_pos hsame, hframe, hsame.1, hsame.2]
      simp [hthere, eq_comm]
    · have hdiff : ¬ (Holder.backing other pageno = .backing pid (logical / pageSize)) := by
        simpa using hsame
      rw [if_neg hsame]
      simp [hdiff]
  · intro page hpage
    obtain ⟨hne, hlost⟩ := (hlooseWon page).mp hpage
    refine ⟨hne, ?_⟩
    rcases (hlooseLost page).mp hlost with hloose | ⟨other, rfl, hhigh, hheld⟩
    · exact .inl ((hloose₁ page).mp hloose)
    · exact .inr ⟨hhigh, (hholds₁ pid _ page).mp hheld⟩
  · intro other dir number hother hnumber
    refine (hentries₂ other dir number hother hnumber).trans ?_
    rw [hentries₁ (fun _ _ => False) other dir number hother hnumber id]

end Rhythmos.Paging
