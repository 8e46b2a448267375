import Rhythmos.Paging.Ownership

/-!
# Holders of pages

`Holds` reads off the page directories which page serves as the directory, as
which page table, and as the backing of which logical page of a process.
`Holders` says that every page with a holder is outstanding and has no second
one.  The lemmas give the effect on `Holds` of each kind of store that `page.c`
makes to a directory or a table.
-/

namespace Rhythmos.Paging

open ByteMemory Libc

variable {Pid : Type*}

/-- The use of a page by a process. -/
inductive Holder (Pid : Type*) where
  | directory (pid : Pid)
  | table (pid : Pid) (dirindex : ℕ)
  | backing (pid : Pid) (pageno : ℕ)
  deriving DecidableEq

/-- The page table entry of a logical page, zero where there is no table. -/
def entry (phys : Memory) (pdir pageno : ℕ) : ℕ :=
  if isPresent (word phys pdir (pageno / 1024)) then
    word phys (frameAddress (word phys pdir (pageno / 1024))) (pageno % 1024)
  else 0

/-- The page has the given use, according to the page directories `dirs`. -/
def Holds (phys : Memory) (dirs : Pid → Option ℕ) : Holder Pid → ℕ → Prop
  | .directory pid, page => dirs pid = some page
  | .table pid dirindex, page => ∃ pdir, dirs pid = some pdir ∧ dirindex < 1024 ∧
      isPresent (word phys pdir dirindex) = true ∧ frameAddress (word phys pdir dirindex) = page
  | .backing pid pageno, page => ∃ pdir, dirs pid = some pdir ∧ pageno < 1048576 ∧
      isPresent (entry phys pdir pageno) = true ∧ frameAddress (entry phys pdir pageno) = page

/-- Every page from `PAGE_START` on with a holder is outstanding and has no
other holder.  Memory below is only mapped, and only at logical pages below
6MB. -/
structure Holders (ps : Pages) (dirs : Pid → Option ℕ) : Prop where
  outstanding : ∀ holder page, Holds ps.phys dirs holder page → pageStart ≤ page →
    ps.Outstanding page
  identity : ∀ holder page, Holds ps.phys dirs holder page → page < pageStart →
    ∃ pid pageno, holder = .backing pid pageno ∧ pageno < 1536
  unique : ∀ holder holder' page, Holds ps.phys dirs holder page →
    Holds ps.phys dirs holder' page → pageStart ≤ page → holder = holder'

/-- The invariant of the page allocator and of all page directories. -/
def Sound (ps : Pages) (dirs : Pid → Option ℕ) : Prop :=
  (∃ free, Allocator ps free) ∧ Holders ps dirs

/-- Outstanding without a holder. -/
def Loose (ps : Pages) (dirs : Pid → Option ℕ) (page : ℕ) : Prop :=
  ps.Outstanding page ∧ ∀ holder, ¬ Holds ps.phys dirs holder page

/-- The logical page is backed by an allocated page. -/
def Mapped (ps : Pages) (dirs : Pid → Option ℕ) (pid : Pid) (pageno : ℕ) : Prop :=
  ∃ page, pageStart ≤ page ∧ Holds ps.phys dirs (.backing pid pageno) page

theorem Sound.aligned {ps : Pages} {dirs : Pid → Option ℕ} (hsound : Sound ps dirs) {page : ℕ}
    (hout : ps.Outstanding page) : page % pageSize = 0 := by
  obtain ⟨⟨free, halloc⟩, -⟩ := hsound
  exact halloc.aligned hout

theorem Sound.pageStart_le {ps : Pages} {dirs : Pid → Option ℕ} (hsound : Sound ps dirs)
    {page : ℕ} (hout : ps.Outstanding page) : pageStart ≤ page := by
  obtain ⟨⟨free, halloc⟩, -⟩ := hsound
  exact halloc.pageStart_le hout

theorem Holders.directory_outstanding {ps : Pages} {dirs : Pid → Option ℕ}
    (hheld : Holders ps dirs) {pid : Pid} {page : ℕ}
    (hholds : Holds ps.phys dirs (.directory pid) page) : ps.Outstanding page := by
  rcases Nat.lt_or_ge page pageStart with hlow | hhigh
  · obtain ⟨_, _, hbacking, -⟩ := hheld.identity _ _ hholds hlow
    cases hbacking
  · exact hheld.outstanding _ _ hholds hhigh

theorem Holders.table_outstanding {ps : Pages} {dirs : Pid → Option ℕ}
    (hheld : Holders ps dirs) {pid : Pid} {dirindex page : ℕ}
    (hholds : Holds ps.phys dirs (.table pid dirindex) page) : ps.Outstanding page := by
  rcases Nat.lt_or_ge page pageStart with hlow | hhigh
  · obtain ⟨_, _, hbacking, -⟩ := hheld.identity _ _ hholds hlow
    cases hbacking
  · exact hheld.outstanding _ _ hholds hhigh

theorem Sound.directory_aligned {ps : Pages} {dirs : Pid → Option ℕ} (hsound : Sound ps dirs)
    {pid : Pid} {pdir : ℕ} (hdir : dirs pid = some pdir) : pdir % pageSize = 0 := by
  have hholds : Holds ps.phys dirs (.directory pid) pdir := hdir
  exact hsound.aligned (hsound.2.directory_outstanding hholds)

theorem entry_lt (phys : Memory) (pdir pageno : ℕ) : entry phys pdir pageno < wordCount := by
  unfold entry
  split
  · exact word_lt _ _ _
  · decide

section Congruence

variable {phys phys' : Memory} {dirs : Pid → Option ℕ}

/-- The page table entries of all processes are the same, but for the given
pages. -/
def SameEntries (touched : Pid → ℕ → Prop) (phys phys' : Memory) (dirs : Pid → Option ℕ) : Prop :=
  ∀ pid pdir pageno, dirs pid = some pdir → pageno < 1048576 → ¬ touched pid pageno →
    entry phys' pdir pageno = entry phys pdir pageno

theorem SameEntries.trans {touched touched' : Pid → ℕ → Prop} {phys'' : Memory}
    (hfirst : SameEntries touched phys phys' dirs)
    (hsecond : SameEntries touched' phys' phys'' dirs) :
    SameEntries (fun pid pageno => touched pid pageno ∨ touched' pid pageno) phys phys'' dirs := by
  intro pid pdir pageno hdir hpageno hspared
  rw [not_or] at hspared
  rw [hsecond pid pdir pageno hdir hpageno hspared.2, hfirst pid pdir pageno hdir hpageno hspared.1]

theorem SameEntries.mono {touched touched' : Pid → ℕ → Prop}
    (hsame : SameEntries touched phys phys' dirs)
    (htouched : ∀ pid pageno, touched pid pageno → touched' pid pageno) :
    SameEntries touched' phys phys' dirs := by
  intro pid pdir pageno hdir hpageno hspared
  exact hsame pid pdir pageno hdir hpageno fun h => hspared (htouched pid pageno h)

/-- The directory of the touched process does not matter. -/
theorem SameEntries.update [DecidableEq Pid] {pid : Pid}
    (hsame : SameEntries (fun other _ => other = pid) phys phys' dirs) (value : Option ℕ) :
    SameEntries (fun other _ => other = pid) phys phys' (Function.update dirs pid value) := by
  intro other pdir pageno hdir hpageno hother
  rw [Function.update_of_ne hother] at hdir
  exact hsame other pdir pageno hdir hpageno hother

/-- The entries depend on the words of directories and tables only. -/
theorem sameEntries_of_words (touched : Pid → ℕ → Prop)
    (hdirs : ∀ pid page, Holds phys dirs (.directory pid) page → ∀ index < 1024,
      word phys' page index = word phys page index)
    (htables : ∀ pid dirindex page, Holds phys dirs (.table pid dirindex) page →
      ∀ index < 1024, word phys' page index = word phys page index) :
    SameEntries touched phys phys' dirs := by
  intro pid pdir pageno hdir hpageno _
  have hindex : pageno / 1024 < 1024 := by omega
  rw [entry, entry, hdirs pid pdir hdir _ hindex]
  split
  · next hpresent =>
      exact htables pid (pageno / 1024) _ ⟨pdir, hdir, hindex, hpresent, rfl⟩ _
        (Nat.mod_lt _ (by decide))
  · rfl

/-- `Holds` depends on the words of directories and tables only. -/
theorem holds_congr
    (hdirs : ∀ pid page, Holds phys dirs (.directory pid) page → ∀ index < 1024,
      word phys' page index = word phys page index)
    (htables : ∀ pid dirindex page, Holds phys dirs (.table pid dirindex) page →
      ∀ index < 1024, word phys' page index = word phys page index)
    (holder : Holder Pid) (page : ℕ) :
    Holds phys' dirs holder page ↔ Holds phys dirs holder page := by
  cases holder with
  | directory pid => exact Iff.rfl
  | table pid dirindex =>
      simp only [Holds]
      constructor
      all_goals
        rintro ⟨pdir, hdir, hindex, hpresent, hframe⟩
        have hword := hdirs pid pdir hdir dirindex hindex
        refine ⟨pdir, hdir, hindex, ?_, ?_⟩
        all_goals simp_all
  | backing pid pageno =>
      simp only [Holds]
      have hentry : ∀ pdir, dirs pid = some pdir → pageno < 1048576 →
          entry phys' pdir pageno = entry phys pdir pageno := fun pdir hdir hpageno =>
        sameEntries_of_words (fun _ _ => False) hdirs htables pid pdir pageno hdir hpageno id
      constructor
      · rintro ⟨pdir, hdir, hpageno, hrest⟩
        rw [hentry pdir hdir hpageno] at hrest
        exact ⟨pdir, hdir, hpageno, hrest⟩
      · rintro ⟨pdir, hdir, hpageno, hrest⟩
        rw [← hentry pdir hdir hpageno] at hrest
        exact ⟨pdir, hdir, hpageno, hrest⟩

end Congruence

variable {ps ps' : Pages} {dirs : Pid → Option ℕ}

/-- A change of words that spares every held directory and table keeps `Holds` and
the entries. -/
theorem Sound.holds_congr (hsound : Sound ps dirs) {changed : ℕ → Prop} {phys : Memory}
    (hsame : SameWordsBut changed ps.phys phys)
    (hdirs : ∀ pid page, Holds ps.phys dirs (.directory pid) page → ¬ changed page)
    (htables : ∀ pid dirindex page, Holds ps.phys dirs (.table pid dirindex) page →
      ¬ changed page)
    (touched : Pid → ℕ → Prop) :
    (∀ holder page, Holds phys dirs holder page ↔ Holds ps.phys dirs holder page) ∧
      SameEntries touched ps.phys phys dirs := by
  have hdirs' : ∀ pid page, Holds ps.phys dirs (.directory pid) page → ∀ index < 1024,
      word phys page index = word ps.phys page index := by
    intro pid page hholds
    exact hsame page (hsound.aligned (hsound.2.directory_outstanding hholds))
      (hdirs pid page hholds)
  have htables' : ∀ pid dirindex page, Holds ps.phys dirs (.table pid dirindex) page →
      ∀ index < 1024, word phys page index = word ps.phys page index := by
    intro pid dirindex page hholds
    exact hsame page (hsound.aligned (hsound.2.table_outstanding hholds))
      (htables pid dirindex page hholds)
  exact ⟨Rhythmos.Paging.holds_congr hdirs' htables',
    sameEntries_of_words touched hdirs' htables'⟩

theorem Holders.of_holds (hheld : Holders ps dirs)
    (hout : ∀ page, ps.Outstanding page → (∃ holder, Holds ps.phys dirs holder page) →
      ps'.Outstanding page)
    (hholds : ∀ holder page, Holds ps'.phys dirs holder page ↔ Holds ps.phys dirs holder page) :
    Holders ps' dirs where
  outstanding := by
    intro holder page hholder hhigh
    have hbefore := (hholds holder page).mp hholder
    exact hout page (hheld.outstanding holder page hbefore hhigh) ⟨holder, hbefore⟩
  identity := by
    intro holder page hholder
    exact hheld.identity holder page ((hholds holder page).mp hholder)
  unique := by
    intro holder holder' page hholder hholder'
    exact hheld.unique holder holder' page ((hholds holder page).mp hholder)
      ((hholds holder' page).mp hholder')

/-- Changing the contents of pages that are neither directories nor tables nor
free keeps the invariant and all holders. -/
theorem Sound.of_contents (hsound : Sound ps dirs) {changed : ℕ → Prop} {phys : Memory}
    (hsame : SameWordsBut changed ps.phys phys)
    (hout : ∀ page, changed page → page % pageSize = 0 → pageStart ≤ page → ps.Outstanding page)
    (hdirs : ∀ pid page, Holds ps.phys dirs (.directory pid) page → ¬ changed page)
    (htables : ∀ pid dirindex page, Holds ps.phys dirs (.table pid dirindex) page →
      ¬ changed page)
    (touched : Pid → ℕ → Prop) :
    Sound { ps with phys := phys } dirs ∧
      (∀ holder page, Holds phys dirs holder page ↔ Holds ps.phys dirs holder page) ∧
      SameEntries touched ps.phys phys dirs := by
  obtain ⟨hholds, hentries⟩ := hsound.holds_congr hsame hdirs htables touched
  obtain ⟨⟨free, halloc⟩, hheld⟩ := hsound
  refine ⟨⟨⟨free, ?_⟩, hheld.of_holds (fun page hpage _ => hpage) hholds⟩, hholds, hentries⟩
  have hlinks : ∀ page ∈ free, word phys page 0 = word ps.phys page 0 := by
    intro page hpage
    have hvalid := halloc.valid page hpage
    refine hsame page hvalid.1 (fun hchanged => ?_) 0 (by decide)
    exact ((halloc.outstanding_iff page).mp (hout page hchanged hvalid.1 hvalid.2.1)).2 hpage
  exact { halloc with chain := LinkedChain.isChain_congr hlinks halloc.chain }

/-! ## Gaining and losing holders -/

/-- The page can be given to the holder: it is loose, or it lies below
`PAGE_START` and is mapped at a logical page below 6MB. -/
def Available (ps : Pages) (dirs : Pid → Option ℕ) (holder : Holder Pid) (page : ℕ) : Prop :=
  Loose ps dirs page ∨
    page < pageStart ∧ ∃ pid pageno, holder = .backing pid pageno ∧ pageno < 1536

/-- A store to outstanding pages that gives one available page a holder. -/
theorem Sound.gain (hsound : Sound ps dirs) {phys : Memory} {dirs' : Pid → Option ℕ}
    {holder : Holder Pid} {page : ℕ} (hsame : SameWordsBut ps.Outstanding ps.phys phys)
    (havailable : Available ps dirs holder page)
    (hholds : ∀ other x, Holds phys dirs' other x ↔
      (other = holder ∧ x = page) ∨ Holds ps.phys dirs other x) :
    Sound { ps with phys := phys } dirs' ∧
      ∀ x, Loose { ps with phys := phys } dirs' x ↔ x ≠ page ∧ Loose ps dirs x := by
  have hlow : ∀ x, ps.Outstanding x → pageStart ≤ x := fun x => hsound.pageStart_le
  obtain ⟨⟨free, halloc⟩, hheld⟩ := hsound
  refine ⟨⟨⟨free, halloc.of_phys hsame⟩, ?_, ?_, ?_⟩, ?_⟩
  · intro other x hother hhigh
    rcases (hholds other x).mp hother with ⟨-, rfl⟩ | hbefore
    · rcases havailable with hloose | ⟨hbelow, -⟩
      · exact hloose.1
      · omega
    · exact hheld.outstanding other x hbefore hhigh
  · intro other x hother hbelow
    rcases (hholds other x).mp hother with ⟨rfl, rfl⟩ | hbefore
    · rcases havailable with hloose | ⟨-, hidentity⟩
      · exact absurd (hlow x hloose.1) (by omega)
      · exact hidentity
    · exact hheld.identity other x hbefore hbelow
  · intro left right x hleft hright hhigh
    have hunheld : x = page → ∀ other, ¬ Holds ps.phys dirs other x := by
      rintro rfl
      rcases havailable with hloose | ⟨hbelow, -⟩
      · exact hloose.2
      · omega
    rcases (hholds left x).mp hleft with ⟨rfl, hpage⟩ | hbefore
    · rcases (hholds right x).mp hright with ⟨rfl, -⟩ | hbefore'
      · rfl
      · exact absurd hbefore' (hunheld hpage right)
    · rcases (hholds right x).mp hright with ⟨rfl, hpage⟩ | hbefore'
      · exact absurd hbefore (hunheld hpage left)
      · exact hheld.unique left right x hbefore hbefore' hhigh
  · intro x
    constructor
    · rintro ⟨hout, hfree⟩
      refine ⟨?_, hout, fun other hother => hfree other ((hholds other x).mpr (.inr hother))⟩
      rintro rfl
      exact hfree holder ((hholds holder x).mpr (.inl ⟨rfl, rfl⟩))
    · rintro ⟨hne, hout, hfree⟩
      refine ⟨hout, fun other hother => ?_⟩
      rcases (hholds other x).mp hother with ⟨-, rfl⟩ | hother
      · exact hne rfl
      · exact hfree other hother

/-- A store to outstanding pages that takes some holders away. -/
theorem Sound.lose (hsound : Sound ps dirs) {phys : Memory} {dirs' : Pid → Option ℕ}
    {gone : Holder Pid → Prop} (hsame : SameWordsBut ps.Outstanding ps.phys phys)
    (hholds : ∀ other x, Holds phys dirs' other x ↔ ¬ gone other ∧ Holds ps.phys dirs other x) :
    Sound { ps with phys := phys } dirs' ∧
      ∀ x, Loose { ps with phys := phys } dirs' x ↔ Loose ps dirs x ∨
        ∃ other, gone other ∧ pageStart ≤ x ∧ Holds ps.phys dirs other x := by
  have hlow : ∀ x, ps.Outstanding x → pageStart ≤ x := fun x => hsound.pageStart_le
  obtain ⟨⟨free, halloc⟩, hheld⟩ := hsound
  refine ⟨⟨⟨free, halloc.of_phys hsame⟩, ?_, ?_, ?_⟩, ?_⟩
  · intro other x hother
    exact hheld.outstanding other x ((hholds other x).mp hother).2
  · intro other x hother
    exact hheld.identity other x ((hholds other x).mp hother).2
  · intro left right x hleft hright
    exact hheld.unique left right x ((hholds left x).mp hleft).2 ((hholds right x).mp hright).2
  · intro x
    constructor
    · rintro ⟨hout, hfree⟩
      by_cases hgone : ∃ other, gone other ∧ pageStart ≤ x ∧ Holds ps.phys dirs other x
      · exact .inr hgone
      · refine .inl ⟨hout, fun other hother => ?_⟩
        by_cases hother' : gone other
        · exact hgone ⟨other, hother', hlow x hout, hother⟩
        · exact hfree other ((hholds other x).mpr ⟨hother', hother⟩)
    · rintro (⟨hout, hfree⟩ | ⟨other, hgone, hhigh, hother⟩)
      · exact ⟨hout, fun holder hholder => hfree holder ((hholds holder x).mp hholder).2⟩
      · refine ⟨hheld.outstanding other x hother hhigh, fun holder hholder => ?_⟩
        obtain ⟨hstays, hholder⟩ := (hholds holder x).mp hholder
        rw [hheld.unique holder other x hholder hother hhigh] at hstays
        exact hstays hgone

theorem sameWordsBut_refl (changed : ℕ → Prop) (phys : Memory) :
    SameWordsBut changed phys phys := fun _ _ _ _ _ => rfl

/-! ## Handing out and taking back -/

theorem Sound.alloc (hsound : Sound ps dirs) :
    Fallible.Ensures (fun fault => fault = .exhausted ∧ wordCount < ps.pageEnd + pageSize)
      (allocPage ps) fun result =>
        Sound result.1 dirs ∧ Loose result.1 dirs result.2 ∧ ¬ ps.Outstanding result.2 ∧
        (∀ holder page, Holds result.1.phys dirs holder page ↔ Holds ps.phys dirs holder page) ∧
        (∀ page, Loose result.1 dirs page ↔ page = result.2 ∨ Loose ps dirs page) ∧
        (∀ index < 1024, word result.1.phys result.2 index = 0) ∧
        result.1.pageEnd ≤ ps.pageEnd + pageSize ∧
        ∀ touched, SameEntries touched ps.phys result.1.phys dirs := by
  obtain ⟨⟨free, halloc⟩, hheld⟩ := hsound
  refine Fallible.ensures_weaken (allocPage_spec halloc) ?_
  rintro ⟨ps', page⟩ ⟨hfree, hnot, hout, hsame, hzero, hend⟩
  have hcongr : ∀ touched, (∀ holder other,
      Holds ps'.phys dirs holder other ↔ Holds ps.phys dirs holder other) ∧
        SameEntries touched ps.phys ps'.phys dirs := by
    apply Sound.holds_congr ⟨⟨free, halloc⟩, hheld⟩ hsame
    · rintro pid other hholds rfl
      exact hnot (hheld.directory_outstanding hholds)
    · rintro pid dirindex other hholds rfl
      exact hnot (hheld.table_outstanding hholds)
  have hholds := (hcongr fun _ _ => False).1
  have hhigh : pageStart ≤ page := by
    obtain ⟨free', halloc'⟩ := hfree
    exact halloc'.pageStart_le ((hout page).mpr (.inl rfl))
  have hunheld : ∀ holder, ¬ Holds ps.phys dirs holder page := fun holder hholder =>
    hnot (hheld.outstanding holder page hholder hhigh)
  refine ⟨⟨hfree, ?_⟩, ⟨(hout page).mpr (.inl rfl), ?_⟩, hnot, hholds, ?_, hzero, hend,
    fun touched => (hcongr touched).2⟩
  · exact hheld.of_holds (fun other hother _ => (hout other).mpr (.inr hother)) hholds
  · intro holder hholder
    exact hunheld holder ((hholds holder page).mp hholder)
  · intro other
    simp only [Loose, hout, hholds]
    constructor
    · rintro ⟨rfl | hother, hfree⟩
      · exact .inl rfl
      · exact .inr ⟨hother, hfree⟩
    · rintro (rfl | ⟨hother, hfree⟩)
      · exact ⟨.inl rfl, hunheld⟩
      · exact ⟨.inr hother, hfree⟩

theorem Sound.free (hsound : Sound ps dirs) {page : ℕ} (hloose : Loose ps dirs page) :
    ∃ ps', freePage ps page = .ok ps' ∧ Sound ps' dirs ∧
      (∀ holder other, Holds ps'.phys dirs holder other ↔ Holds ps.phys dirs holder other) ∧
      (∀ other, Loose ps' dirs other ↔ other ≠ page ∧ Loose ps dirs other) ∧
      SameWordsBut (· = page) ps.phys ps'.phys ∧ ps'.pageEnd = ps.pageEnd ∧
      ∀ touched, SameEntries touched ps.phys ps'.phys dirs := by
  obtain ⟨⟨free, halloc⟩, hheld⟩ := hsound
  obtain ⟨ps', hfreed, halloc', hout, hsame, hend⟩ := freePage_spec halloc hloose.1
  have hcongr : ∀ touched, (∀ holder other,
      Holds ps'.phys dirs holder other ↔ Holds ps.phys dirs holder other) ∧
        SameEntries touched ps.phys ps'.phys dirs := by
    apply Sound.holds_congr ⟨⟨free, halloc⟩, hheld⟩ hsame
    · rintro pid other hholds rfl
      exact hloose.2 _ hholds
    · rintro pid dirindex other hholds rfl
      exact hloose.2 _ hholds
  have hholds := (hcongr fun _ _ => False).1
  refine ⟨ps', hfreed, ⟨⟨page :: free, halloc'⟩, hheld.of_holds ?_ hholds⟩, hholds, ?_,
    hsame, hend, fun touched => (hcongr touched).2⟩
  · rintro other hother ⟨holder, hholder⟩
    refine (hout other).mpr ⟨?_, hother⟩
    rintro rfl
    exact hloose.2 holder hholder
  · intro other
    simp only [Loose, hout, hholds]
    tauto

/-! ## New and dropped directories -/

variable [DecidableEq Pid]

/-- An outstanding page of zeros can become the directory of a process without
one. -/
theorem Sound.adopt (hsound : Sound ps dirs) {pid : Pid} {pdir : ℕ} (hnone : dirs pid = none)
    (hloose : Loose ps dirs pdir) (hzero : ∀ index < 1024, word ps.phys pdir index = 0) :
    let dirs' := Function.update dirs pid (some pdir)
    Sound ps dirs' ∧
      (∀ holder page, Holds ps.phys dirs' holder page ↔
        (holder = .directory pid ∧ page = pdir) ∨ Holds ps.phys dirs holder page) ∧
      (∀ page, Loose ps dirs' page ↔ page ≠ pdir ∧ Loose ps dirs page) ∧
      ∀ pageno < 1048576, entry ps.phys pdir pageno = 0 := by
  intro dirs'
  have hempty : ∀ pageno < 1048576, entry ps.phys pdir pageno = 0 := by
    intro pageno hpageno
    have hindex : pageno / 1024 < 1024 := by omega
    rw [entry, hzero _ hindex]
    simp
  have hother : ∀ other, other ≠ pid → dirs' other = dirs other := fun other hne =>
    Function.update_of_ne hne _ _
  have hself : dirs' pid = some pdir := Function.update_self _ _ _
  have hholds : ∀ holder page, Holds ps.phys dirs' holder page ↔
      (holder = .directory pid ∧ page = pdir) ∨ Holds ps.phys dirs holder page := by
    intro holder page
    cases holder with
    | directory other =>
        by_cases hpid : other = pid
        · subst hpid
          simp [Holds, hself, hnone, eq_comm]
        · simp [Holds, hother other hpid, hpid]
    | table other dirindex =>
        by_cases hpid : other = pid
        · subst hpid
          simp only [Holds, hself, hnone, Option.some.injEq]
          constructor
          · rintro ⟨dir, rfl, hindex, hpresent, -⟩
            rw [hzero dirindex hindex] at hpresent
            simp at hpresent
          · rintro (⟨h, -⟩ | ⟨dir, h, -⟩) <;> simp at h
        · simp [Holds, hother other hpid]
    | backing other pageno =>
        by_cases hpid : other = pid
        · subst hpid
          simp only [Holds, hself, hnone, Option.some.injEq]
          constructor
          · rintro ⟨dir, rfl, hpageno, hpresent, -⟩
            rw [hempty pageno hpageno] at hpresent
            simp at hpresent
          · rintro (⟨h, -⟩ | ⟨dir, h, -⟩) <;> simp at h
        · simp [Holds, hother other hpid]
  obtain ⟨hsound', hloose'⟩ := hsound.gain (sameWordsBut_refl _ _) (.inl hloose) hholds
  exact ⟨hsound', hholds, hloose', hempty⟩

/-- The process a page is held by. -/
def Holder.pid : Holder Pid → Pid
  | .directory pid => pid
  | .table pid _ => pid
  | .backing pid _ => pid

/-- Forgetting the directory of a process makes its pages loose. -/
theorem Sound.forget (hsound : Sound ps dirs) (pid : Pid) :
    let dirs' := Function.update dirs pid none
    Sound ps dirs' ∧
      (∀ holder page, Holds ps.phys dirs' holder page ↔
        holder.pid ≠ pid ∧ Holds ps.phys dirs holder page) ∧
      (∀ page, Loose ps dirs' page ↔ Loose ps dirs page ∨
        ∃ holder, Holder.pid holder = pid ∧ pageStart ≤ page ∧
          Holds ps.phys dirs holder page) := by
  intro dirs'
  have hholds : ∀ holder page, Holds ps.phys dirs' holder page ↔
      holder.pid ≠ pid ∧ Holds ps.phys dirs holder page := by
    intro holder page
    have hcases : ∀ other, dirs' other = if other = pid then none else dirs other := by
      intro other
      by_cases hpid : other = pid
      · simp [dirs', hpid]
      · simp [dirs', hpid]
    cases holder with
    | directory other => by_cases hpid : other = pid <;> simp [Holds, Holder.pid, hcases, hpid]
    | table other dirindex => by_cases hpid : other = pid <;> simp [Holds, Holder.pid, hcases, hpid]
    | backing other pageno => by_cases hpid : other = pid <;> simp [Holds, Holder.pid, hcases, hpid]
  obtain ⟨hsound', hloose'⟩ := hsound.lose (sameWordsBut_refl _ _) hholds
  exact ⟨hsound', hholds, hloose'⟩

end Rhythmos.Paging
