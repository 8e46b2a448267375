import Rhythmos.Paging.Holders

/-!
# Directories and page tables

What the effect of a store to a directory or a table depends on: directories and tables are
pages of their own that the allocator has handed out (`Tables`).  The pages that are mapped do
not matter.
-/

namespace Rhythmos.Paging

open ByteMemory Libc Fallible

variable {Pid : Type*} {ps : Pages} {dirs : Pid → Option ℕ}
variable {pid : Pid} {pdir : ℕ}

/-- The page is used as a directory or as a page table. -/
def Holder.Structural : Holder Pid → Prop
  | .directory _ => True
  | .table _ _ => True
  | .backing _ _ => False

theorem Holder.Structural.ne_backing {holder : Holder Pid} (hstructural : holder.Structural)
    (pid : Pid) (pageno : ℕ) : holder ≠ .backing pid pageno := by
  rintro rfl
  exact hstructural

/-- Directories and page tables are outstanding pages, and no two of them are the same. -/
structure Tables (ps : Pages) (dirs : Pid → Option ℕ) : Prop where
  allocator : ∃ free, Allocator ps free
  outstanding : ∀ holder page, holder.Structural → Holds ps.phys dirs holder page →
    ps.Outstanding page
  unique : ∀ holder holder' page, holder.Structural → holder'.Structural →
    Holds ps.phys dirs holder page → Holds ps.phys dirs holder' page → holder = holder'

theorem Sound.tables (hsound : Sound ps dirs) : Tables ps dirs := by
  have hout : ∀ holder page, Holder.Structural holder → Holds ps.phys dirs holder page →
      ps.Outstanding page := by
    intro holder page hstructural hholds
    cases holder with
    | directory other => exact hsound.2.directory_outstanding hholds
    | table other dirindex => exact hsound.2.table_outstanding hholds
    | backing other pageno => exact hstructural.elim
  refine ⟨hsound.1, hout, fun holder holder' page hstructural _ hholds hholds' => ?_⟩
  exact hsound.2.unique holder holder' page hholds hholds'
    (hsound.pageStart_le (hout holder page hstructural hholds))

/-- No directory and no table is mapped at a user page of any directory. -/
def Private (phys : Memory) (dirs : Pid → Option ℕ) (user : ℕ → Prop) : Prop :=
  ∀ holder page other pageno, Holder.Structural holder → Holds phys dirs holder page →
    user pageno → ¬ Holds phys dirs (.backing other pageno) page

theorem Sound.isPrivate (hsound : Sound ps dirs) : Private ps.phys dirs fun _ => True := by
  intro holder page other pageno hstructural hheld _ hbacking
  have hout := hsound.tables.outstanding holder page hstructural hheld
  exact hstructural.ne_backing other pageno
    (hsound.2.unique holder (.backing other pageno) page hheld hbacking (hsound.pageStart_le hout))

theorem Tables.aligned (htables : Tables ps dirs) {page : ℕ} (hout : ps.Outstanding page) :
    page % pageSize = 0 := by
  obtain ⟨free, halloc⟩ := htables.allocator
  exact halloc.aligned hout

theorem Tables.directory_outstanding (htables : Tables ps dirs) (hdir : dirs pid = some pdir) :
    ps.Outstanding pdir := htables.outstanding (.directory pid) pdir trivial hdir

theorem Tables.directory_aligned (htables : Tables ps dirs) (hdir : dirs pid = some pdir) :
    pdir % pageSize = 0 := htables.aligned (htables.directory_outstanding hdir)

/-- A change of words that spares every directory and table keeps all holders and entries. -/
theorem Tables.holds_congr (htables : Tables ps dirs) {changed : ℕ → Prop} {phys : Memory}
    (hsame : SameWordsBut changed ps.phys phys)
    (hspared : ∀ holder page, Holder.Structural holder → Holds ps.phys dirs holder page →
      ¬ changed page) (touched : Pid → ℕ → Prop) :
    (∀ holder page, Holds phys dirs holder page ↔ Holds ps.phys dirs holder page) ∧
      SameEntries touched ps.phys phys dirs := by
  have hdirs : ∀ pid page, Holds ps.phys dirs (.directory pid) page → ∀ index < 1024,
      word phys page index = word ps.phys page index := fun other page hholds =>
    hsame page (htables.directory_aligned hholds) (hspared (.directory other) page trivial hholds)
  have htables' : ∀ pid dirindex page, Holds ps.phys dirs (.table pid dirindex) page →
      ∀ index < 1024, word phys page index = word ps.phys page index :=
    fun other dirindex page hholds =>
      hsame page (htables.aligned (htables.outstanding (.table other dirindex) page trivial hholds))
        (hspared (.table other dirindex) page trivial hholds)
  exact ⟨Rhythmos.Paging.holds_congr hdirs htables',
    sameEntries_of_words touched hdirs htables'⟩

/-! ## Stores to directories and tables -/

theorem Tables.directory_ne (htables : Tables ps dirs) (hdir : dirs pid = some pdir)
    {other : Pid} {pdir' : ℕ} (hdir' : dirs other = some pdir') (hne : other ≠ pid) :
    pdir' ≠ pdir := by
  rintro rfl
  have hleft : Holds ps.phys dirs (.directory pid) pdir' := hdir
  have hright : Holds ps.phys dirs (.directory other) pdir' := hdir'
  have hsame := htables.unique (.directory other) (.directory pid) _ trivial trivial hright hleft
  simp only [Holder.directory.injEq] at hsame
  exact hne hsame

/-- A change of outstanding pages that keeps the directories and the tables. -/
theorem Tables.of_phys (htables : Tables ps dirs) {phys : Memory}
    (hsame : SameWordsBut ps.Outstanding ps.phys phys)
    (hholds : ∀ holder page, Holder.Structural holder →
      (Holds phys dirs holder page ↔ Holds ps.phys dirs holder page)) :
    Tables { ps with phys := phys } dirs := by
  obtain ⟨free, halloc⟩ := htables.allocator
  refine ⟨⟨free, halloc.of_phys hsame⟩, ?_, ?_⟩
  · intro holder page hstructural hheld
    exact htables.outstanding holder page hstructural ((hholds holder page hstructural).mp hheld)
  · intro holder holder' page hleft hright hheld hheld'
    exact htables.unique holder holder' page hleft hright ((hholds holder page hleft).mp hheld)
      ((hholds holder' page hright).mp hheld')

/-- The table behind a present directory entry is not a directory. -/
theorem Tables.table_ne_directory (htables : Tables ps dirs) (hdir : dirs pid = some pdir)
    {dirindex : ℕ} (hindex : dirindex < 1024)
    (hpresent : isPresent (word ps.phys pdir dirindex) = true)
    {other : Pid} {pdir' : ℕ} (hdir' : dirs other = some pdir') :
    frameAddress (word ps.phys pdir dirindex) ≠ pdir' := by
  intro hsame
  have htable : Holds ps.phys dirs (.table pid dirindex) pdir' :=
    ⟨pdir, hdir, hindex, hpresent, hsame⟩
  have hright : Holds ps.phys dirs (.directory other) pdir' := hdir'
  have := htables.unique (.table pid dirindex) (.directory other) _ trivial trivial htable hright
  simp at this

theorem Tables.table_injective (htables : Tables ps dirs) (hdir : dirs pid = some pdir)
    {dirindex : ℕ} (hindex : dirindex < 1024)
    (hpresent : isPresent (word ps.phys pdir dirindex) = true)
    {other : Pid} {pdir' dirindex' : ℕ} (hdir' : dirs other = some pdir')
    (hindex' : dirindex' < 1024)
    (hpresent' : isPresent (word ps.phys pdir' dirindex') = true)
    (hsame : frameAddress (word ps.phys pdir' dirindex') =
      frameAddress (word ps.phys pdir dirindex)) : other = pid ∧ dirindex' = dirindex := by
  have hleft : Holds ps.phys dirs (.table pid dirindex)
      (frameAddress (word ps.phys pdir dirindex)) := ⟨pdir, hdir, hindex, hpresent, rfl⟩
  have hright : Holds ps.phys dirs (.table other dirindex')
      (frameAddress (word ps.phys pdir dirindex)) := ⟨pdir', hdir', hindex', hpresent', hsame⟩
  have :=
    htables.unique (.table other dirindex') (.table pid dirindex) _ trivial trivial hright hleft
  simpa using this

/-- Entering a loose page of zeros as a page table where there was none. -/
theorem Tables.linkTable (htables : Tables ps dirs) (hdir : dirs pid = some pdir)
    {dirindex : ℕ} (hindex : dirindex < 1024)
    (habsent : isPresent (word ps.phys pdir dirindex) = false) {table value : ℕ}
    (haligned : table % pageSize = 0)
    (hnew : ∀ holder, Holder.Structural holder → ¬ Holds ps.phys dirs holder table)
    (hzero : ∀ index < 1024, word ps.phys table index = 0)
    (hvalue : value % wordCount = value) (hpresent : isPresent value = true)
    (hframe : frameAddress value = table) :
    let ps' := ps.store (pdir + 4 * dirindex) value
    SameWordsBut ps.Outstanding ps.phys ps'.phys ∧
      (∀ holder page, Holds ps'.phys dirs holder page ↔
        (holder = .table pid dirindex ∧ page = table) ∨ Holds ps.phys dirs holder page) ∧
      ∀ touched, SameEntries touched ps.phys ps'.phys dirs := by
  intro ps'
  have hpdir := htables.directory_aligned hdir
  have hpdirOut := htables.directory_outstanding hdir
  have hword : ∀ page index, page % pageSize = 0 → index < 1024 →
      word ps'.phys page index =
        if page = pdir ∧ index = dirindex then value else word ps.phys page index := by
    intro page index hpage hlt
    have := word_store32 ps.phys value hpdir hpage hindex hlt
    rwa [hvalue] at this
  have hne : table ≠ pdir := by
    rintro rfl
    exact hnew (.directory pid) trivial hdir
  have hentry : ∀ other dir pageno, dirs other = some dir → pageno < 1048576 →
      entry ps'.phys dir pageno = entry ps.phys dir pageno := by
    intro other dir pageno hother hpageno
    have hlt : pageno / 1024 < 1024 := by omega
    have hmod : pageno % 1024 < 1024 := Nat.mod_lt _ (by decide)
    rw [entry, entry, hword dir _ (htables.directory_aligned hother) hlt]
    by_cases hchanged : dir = pdir ∧ pageno / 1024 = dirindex
    · obtain ⟨rfl, hslot⟩ := hchanged
      have hchanged : dir = dir ∧ pageno / 1024 = dirindex := ⟨rfl, hslot⟩
      simp only [hchanged, and_self, if_true, habsent, hpresent, hframe, Bool.false_eq_true,
        if_false]
      rw [hword table _ haligned hmod, if_neg (fun h => hne h.1),
        hzero _ hmod]
    · rw [if_neg hchanged]
      split
      · next hthere =>
          have hframe' := htables.table_ne_directory hother hlt hthere hdir
          rw [hword _ _ (frameAddress_aligned (word_lt _ _ _)) hmod,
            if_neg (fun h => hframe' h.1)]
      · rfl
  have hholds : ∀ holder page, Holds ps'.phys dirs holder page ↔
      (holder = .table pid dirindex ∧ page = table) ∨ Holds ps.phys dirs holder page := by
    intro holder page
    cases holder with
    | directory other => simp [Holds]
    | backing other pageno =>
        simp only [Holds, reduceCtorEq, false_and, false_or]
        constructor
        · rintro ⟨dir, hother, hpageno, hrest⟩
          rw [hentry other dir pageno hother hpageno] at hrest
          exact ⟨dir, hother, hpageno, hrest⟩
        · rintro ⟨dir, hother, hpageno, hrest⟩
          rw [← hentry other dir pageno hother hpageno] at hrest
          exact ⟨dir, hother, hpageno, hrest⟩
    | table other index =>
        simp only [Holds, Holder.table.injEq]
        constructor
        · rintro ⟨dir, hother, hlt, hthere, hpage⟩
          rw [hword dir index (htables.directory_aligned hother) hlt] at hthere hpage
          by_cases hchanged : dir = pdir ∧ index = dirindex
          · obtain ⟨rfl, rfl⟩ := hchanged
            rw [if_pos ⟨rfl, rfl⟩] at hpage
            refine .inl ⟨⟨?_, rfl⟩, hpage.symm.trans hframe⟩
            by_contra hneq
            exact htables.directory_ne hdir hother hneq rfl
          · rw [if_neg hchanged] at hthere hpage
            exact .inr ⟨dir, hother, hlt, hthere, hpage⟩
        · rintro (⟨⟨rfl, rfl⟩, rfl⟩ | ⟨dir, hother, hlt, hthere, hpage⟩)
          · refine ⟨pdir, hdir, hindex, ?_, ?_⟩
            all_goals rw [hword pdir index hpdir hindex, if_pos ⟨rfl, rfl⟩]
            · exact hpresent
            · exact hframe
          · have hchanged : ¬ (dir = pdir ∧ index = dirindex) := by
              rintro ⟨rfl, rfl⟩
              rw [habsent] at hthere
              simp at hthere
            refine ⟨dir, hother, hlt, ?_, ?_⟩
            all_goals rw [hword dir index (htables.directory_aligned hother) hlt, if_neg hchanged]
            · exact hthere
            · exact hpage
  have hsame : SameWordsBut ps.Outstanding ps.phys ps'.phys := by
    intro page hpage hnot index hlt
    rw [hword page index hpage hlt, if_neg]
    rintro ⟨rfl, -⟩
    exact hnot hpdirOut
  exact ⟨hsame, hholds,
    fun touched other dir pageno hother hpageno _ => hentry other dir pageno hother hpageno⟩

/-! ## Unmapping -/

/-- Where a page table entry is present, there is a table. -/
theorem table_present {phys : Memory} {pageno : ℕ}
    (hpresent : isPresent (entry phys pdir pageno) = true) :
    isPresent (word phys pdir (pageno / 1024)) = true := by
  by_contra habsent
  simp [entry, habsent] at hpresent

theorem unmapAndFreePage_present {logical : ℕ} (hlogical : logical % pageSize = 0)
    (hpresent : isPresent (entry ps.phys pdir (logical / pageSize)) = true) :
    unmapAndFreePage ps pdir logical =
      (freePage ps (frameAddress (entry ps.phys pdir (logical / pageSize)))).map
        fun ps' => ps'.store (frameAddress (word ps.phys pdir (logical / pageSize / 1024)) +
          4 * (logical / pageSize % 1024)) 0 := by
  have htable := table_present hpresent
  rw [entry, if_pos htable] at hpresent ⊢
  simp only [word] at htable hpresent
  simp only [unmapAndFreePage, check, hlogical, if_true, ok_bind, htable, hpresent, word]
  cases freePage ps (frameAddress (load32 ps.phys
      (frameAddress (load32 ps.phys (pdir + 4 * (logical / pageSize / 1024))) +
        4 * (logical / pageSize % 1024)))) with
  | error fault => rfl
  | ok ps' => rfl

/-- The source frees the page first and clears its entry afterwards.  No table is mapped at a user
page, so the stores commute. -/
theorem Tables.unmapAndFreePage_eq (htables : Tables ps dirs) (hdir : dirs pid = some pdir)
    {logical : ℕ} (hlogical : logical % pageSize = 0) (hbound : logical < wordCount)
    {user : ℕ → Prop} (hprivate : Private ps.phys dirs user) (huser : user (logical / pageSize))
    (hpresent : isPresent (entry ps.phys pdir (logical / pageSize)) = true) :
    unmapAndFreePage ps pdir logical =
      freePage (ps.store (frameAddress (word ps.phys pdir (logical / pageSize / 1024)) +
          4 * (logical / pageSize % 1024)) 0)
        (frameAddress (entry ps.phys pdir (logical / pageSize))) := by
  have hpageno : logical / pageSize < 1048576 := by
    simp only [pageSize, wordCount] at *
    omega
  have htable := table_present hpresent
  set page := frameAddress (entry ps.phys pdir (logical / pageSize)) with hpage
  set table := frameAddress (word ps.phys pdir (logical / pageSize / 1024)) with htableEq
  have hne : page ≠ table := by
    intro hsame
    exact hprivate (.table pid (logical / pageSize / 1024)) page pid _ trivial
      ⟨pdir, hdir, by omega, htable, hsame.symm⟩ huser ⟨pdir, hdir, hpageno, hpresent, rfl⟩
  have hcomm : store32 (store32 ps.phys page ps.pageFree)
        (table + 4 * (logical / pageSize % 1024)) 0 =
      store32 (store32 ps.phys (table + 4 * (logical / pageSize % 1024)) 0) page ps.pageFree := by
    have hpageAligned : page % pageSize = 0 := frameAddress_aligned (entry_lt _ _ _)
    have htableAligned : table % pageSize = 0 := frameAddress_aligned (word_lt _ _ _)
    apply store32_comm
    simp only [pageSize] at *
    omega
  obtain ⟨free, halloc⟩ := htables.allocator
  have hpos := halloc.npages_pos (htables.directory_outstanding hdir)
  rw [unmapAndFreePage_present hlogical hpresent]
  simp only [freePage, check, hpos, if_true, ok_bind, pure_eq_ok, Except.map, Pages.store,
    ← hpage, ← htableEq, hcomm]

variable [DecidableEq Pid]

/-- A store to the entry of one logical page changes no other entry and no
directory. -/
theorem Tables.storeEntry (htables : Tables ps dirs) (hdir : dirs pid = some pdir)
    {pageno : ℕ} (hpageno : pageno < 1048576)
    (hpresent : isPresent (word ps.phys pdir (pageno / 1024)) = true) {value : ℕ}
    (hvalue : value % wordCount = value) :
    let table := frameAddress (word ps.phys pdir (pageno / 1024))
    let phys' := store32 ps.phys (table + 4 * (pageno % 1024)) value
    SameWordsBut ps.Outstanding ps.phys phys' ∧
      (∀ holder page, Holds phys' dirs holder page ↔
        (holder = .backing pid pageno ∧ isPresent value = true ∧ frameAddress value = page) ∨
          (holder ≠ .backing pid pageno ∧ Holds ps.phys dirs holder page)) ∧
      ∀ other dir number, dirs other = some dir → number < 1048576 →
        entry phys' dir number =
          if other = pid ∧ number = pageno then value else entry ps.phys dir number := by
  intro table phys'
  have hslot : pageno / 1024 < 1024 := by omega
  have hmod : pageno % 1024 < 1024 := Nat.mod_lt _ (by decide)
  have htable : table % pageSize = 0 := frameAddress_aligned (word_lt _ _ _)
  have hholdsTable : Holds ps.phys dirs (.table pid (pageno / 1024)) table :=
    ⟨pdir, hdir, hslot, hpresent, rfl⟩
  have hword : ∀ page index, page % pageSize = 0 → index < 1024 →
      word phys' page index =
        if page = table ∧ index = pageno % 1024 then value else word ps.phys page index := by
    intro page index hpage hlt
    have := word_store32 ps.phys value htable hpage hmod hlt
    rwa [hvalue] at this
  have hdirWord : ∀ other dir index, dirs other = some dir → index < 1024 →
      word phys' dir index = word ps.phys dir index := by
    intro other dir index hother hlt
    rw [hword dir index (htables.directory_aligned hother) hlt, if_neg]
    rintro ⟨rfl, -⟩
    exact htables.table_ne_directory hdir hslot hpresent hother rfl
  have hentry : ∀ other dir number, dirs other = some dir → number < 1048576 →
      entry phys' dir number =
        if other = pid ∧ number = pageno then value else entry ps.phys dir number := by
    intro other dir number hother hnumber
    have hlt : number / 1024 < 1024 := by omega
    have hmod' : number % 1024 < 1024 := Nat.mod_lt _ (by decide)
    rw [entry, entry, hdirWord other dir _ hother hlt]
    by_cases hthere : isPresent (word ps.phys dir (number / 1024)) = true
    · rw [if_pos hthere, if_pos hthere,
        hword _ _ (frameAddress_aligned (word_lt _ _ _)) hmod']
      by_cases hsame : other = pid ∧ number = pageno
      · obtain ⟨rfl, rfl⟩ := hsame
        obtain rfl : dir = pdir := by simpa [hdir] using hother.symm
        rw [if_pos ⟨rfl, rfl⟩, if_pos ⟨rfl, rfl⟩]
      · rw [if_neg hsame, if_neg]
        rintro ⟨hframe, hlow⟩
        obtain ⟨rfl, hhigh⟩ := htables.table_injective hdir hslot hpresent hother hlt hthere hframe
        exact hsame ⟨rfl, by omega⟩
    · rw [if_neg hthere, if_neg hthere, if_neg]
      rintro ⟨rfl, rfl⟩
      obtain rfl : dir = pdir := by simpa [hdir] using hother.symm
      exact hthere hpresent
  refine ⟨?_, ?_, hentry⟩
  · intro page hpage hnot index hlt
    rw [hword page index hpage hlt, if_neg]
    rintro ⟨rfl, -⟩
    exact hnot (htables.outstanding (.table pid (pageno / 1024)) _ trivial hholdsTable)
  · intro holder page
    cases holder with
    | directory other => simp [Holds]
    | table other index =>
        simp only [Holds, reduceCtorEq, false_and, false_or, ne_eq, not_false_eq_true, true_and]
        constructor
        · rintro ⟨dir, hother, hlt, hrest⟩
          rw [hdirWord other dir index hother hlt] at hrest
          exact ⟨dir, hother, hlt, hrest⟩
        · rintro ⟨dir, hother, hlt, hrest⟩
          rw [← hdirWord other dir index hother hlt] at hrest
          exact ⟨dir, hother, hlt, hrest⟩
    | backing other number =>
        simp only [Holds, Holder.backing.injEq, ne_eq]
        constructor
        · rintro ⟨dir, hother, hnumber, hrest⟩
          rw [hentry other dir number hother hnumber] at hrest
          by_cases hsame : other = pid ∧ number = pageno
          · rw [if_pos hsame] at hrest
            exact .inl ⟨hsame, hrest⟩
          · rw [if_neg hsame] at hrest
            exact .inr ⟨hsame, dir, hother, hnumber, hrest⟩
        · rintro (⟨⟨rfl, rfl⟩, hrest⟩ | ⟨hdiff, dir, hother, hnumber, hrest⟩)
          · refine ⟨pdir, hdir, hpageno, ?_⟩
            rw [hentry other pdir number hdir hpageno, if_pos ⟨rfl, rfl⟩]
            exact hrest
          · refine ⟨dir, hother, hnumber, ?_⟩
            rw [hentry other dir number hother hnumber, if_neg hdiff]
            exact hrest

end Rhythmos.Paging
