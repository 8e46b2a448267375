import Rhythmos.Paging.Release

/-!
# Page tables as maps

A page directory and its tables stand for a map from logical pages to physical pages and flags.
`map_page` changes the map of one directory at one page, `unmap_and_free_page` takes one page out
of it, and the maps of all other directories stay, whatever is mapped in them, as long as
directories and tables are pages of their own.
-/

namespace Rhythmos.Paging

open ByteMemory Libc Fallible

variable {Pid : Type*} {ps : Pages} {dirs : Pid → Option ℕ}
variable {pid : Pid} {pdir : ℕ}

/-- The lookups of all pages in all directories are the same, but for one. -/
def SameLookups (ps ps' : Pages) (dirs : Pid → Option ℕ) (pid : Pid) (logical : ℕ) : Prop :=
  ∀ other dir address, dirs other = some dir → address % pageSize = 0 → address < wordCount →
    ¬ (other = pid ∧ address = logical) → lookupPage ps' dir address = lookupPage ps dir address

/-! ## Looking up -/

theorem sameLookups_of_entries {ps' : Pages} {logical : ℕ} (hlogical : logical % pageSize = 0)
    (hentries : ∀ other dir number, dirs other = some dir → number < 1048576 →
      ¬ (other = pid ∧ number = logical / pageSize) →
      entry ps'.phys dir number = entry ps.phys dir number) :
    SameLookups ps ps' dirs pid logical := by
  intro other dir address hother haddress hbound hdiff
  have hnumber : address / pageSize < 1048576 := by
    simp only [pageSize, wordCount] at *
    omega
  have hspared : ¬ (other = pid ∧ address / pageSize = logical / pageSize) := by
    rintro ⟨hpid, hpage⟩
    refine hdiff ⟨hpid, ?_⟩
    rw [← Nat.div_add_mod address pageSize, ← Nat.div_add_mod logical pageSize, hpage, haddress,
      hlogical]
  rw [lookupPage_eq ps' dir haddress, lookupPage_eq ps dir haddress,
    hentries other dir _ hother hnumber hspared]

/-! ## Mapping -/

theorem Tables.create (htables : Tables ps dirs) (hdir : dirs pid = some pdir) {dirindex : ℕ}
    (hindex : dirindex < 1024) :
    Ensures (Short ps 1) (createTable ps pdir dirindex) fun ps' =>
      Tables ps' dirs ∧ isPresent (word ps'.phys pdir dirindex) = true ∧
      ∀ touched, SameEntries touched ps.phys ps'.phys dirs := by
  rw [createTable]
  split
  · next hpresent =>
      rw [ensures_ok]
      exact ⟨htables, hpresent, fun _ _ _ _ _ _ _ => rfl⟩
  · next habsent =>
      obtain ⟨free, halloc⟩ := htables.allocator
      refine ensures_bind (ensures_mono (allocPage_spec halloc) ?_ fun _ h => h) ?_
      · rintro fault ⟨hfault, hlong⟩
        exact ⟨hfault, by rwa [Nat.mul_one]⟩
      rintro ⟨ps₁, page⟩ ⟨⟨free₁, halloc₁⟩, hnot, hout, hsame, hzero, -⟩
      dsimp only at halloc₁ hnot hout hsame hzero ⊢
      rw [pure_eq_ok, ensures_ok]
      have hspared : ∀ holder other, Holder.Structural holder → Holds ps.phys dirs holder other →
          other ≠ page := by
        rintro holder other hstructural hheld rfl
        exact hnot (htables.outstanding holder other hstructural hheld)
      have hcongr := htables.holds_congr hsame hspared
      have hholds₁ := (hcongr fun _ _ => False).1
      have htables₁ : Tables ps₁ dirs := by
        refine ⟨⟨free₁, halloc₁⟩, ?_, ?_⟩
        · intro holder other hstructural hheld
          exact (hout other).mpr
            (.inr (htables.outstanding holder other hstructural ((hholds₁ _ _).mp hheld)))
        · intro holder holder' other hleft hright hheld hheld'
          exact htables.unique holder holder' other hleft hright ((hholds₁ _ _).mp hheld)
            ((hholds₁ _ _).mp hheld')
      have hnew : ∀ holder, Holder.Structural holder → ¬ Holds ps₁.phys dirs holder page :=
        fun holder hstructural hheld =>
          hspared holder page hstructural ((hholds₁ _ _).mp hheld) rfl
      have habsent₁ : isPresent (word ps₁.phys pdir dirindex) = false := by
        rw [hsame pdir (htables.directory_aligned hdir)
          (hspared (.directory pid) pdir trivial hdir) dirindex hindex]
        exact Bool.eq_false_iff.mpr habsent
      have hpageOut : ps₁.Outstanding page := (hout page).mpr (.inl rfl)
      obtain ⟨hmod, hpresent, hframe⟩ := stored_flags (halloc₁.aligned hpageOut)
        (halloc₁.lt_wordCount hpageOut)
        (show pagePresent ||| pageUser ||| pageReadWrite < pageSize by decide) (by decide)
      obtain ⟨hsame₂, hholds₂, hentries₂⟩ := htables₁.linkTable hdir hindex habsent₁
        (halloc₁.aligned hpageOut) hnew hzero hmod hpresent hframe
      refine ⟨⟨⟨free₁, halloc₁.of_phys hsame₂⟩, ?_, ?_⟩, ?_, fun touched =>
        (((hcongr touched).2).trans (hentries₂ touched)).mono fun _ _ h => h.elim id id⟩
      · intro holder other hstructural hheld
        rcases (hholds₂ holder other).mp hheld with ⟨-, rfl⟩ | hbefore
        · exact hpageOut
        · exact htables₁.outstanding holder other hstructural hbefore
      · intro holder holder' other hleft hright hheld hheld'
        rcases (hholds₂ holder other).mp hheld with ⟨rfl, rfl⟩ | hbefore
        · rcases (hholds₂ holder' other).mp hheld' with ⟨rfl, -⟩ | hbefore'
          · rfl
          · exact absurd hbefore' (hnew holder' hright)
        · rcases (hholds₂ holder' other).mp hheld' with ⟨rfl, rfl⟩ | hbefore'
          · exact absurd hbefore (hnew holder hleft)
          · exact htables₁.unique holder holder' other hleft hright hbefore hbefore'
      · obtain ⟨pdir', hdir', -, hthere, -⟩ :=
          (hholds₂ (.table pid dirindex) page).mpr (.inl ⟨rfl, rfl⟩)
        obtain rfl : pdir = pdir' := by simpa [hdir] using hdir'
        exact hthere

variable [DecidableEq Pid]

/-- `map_page` changes the entry of one logical page. -/
theorem Tables.map (htables : Tables ps dirs) (hdir : dirs pid = some pdir)
    {logical physical access readwrite : ℕ} (hlogical : logical % pageSize = 0)
    (hbound : logical < wordCount) (hphysical : physical % pageSize = 0)
    (hfits : physical < wordCount) (hflags : pagePresent ||| access ||| readwrite < pageSize)
    (hodd : (pagePresent ||| access ||| readwrite) % 2 = 1) :
    Ensures (Short ps 1) (mapPage ps pdir logical physical access readwrite) fun ps' =>
      Tables ps' dirs ∧ ∀ other dir number, dirs other = some dir → number < 1048576 →
        entry ps'.phys dir number = if other = pid ∧ number = logical / pageSize then
          physical ||| (pagePresent ||| access ||| readwrite) else entry ps.phys dir number := by
  have hpageno : logical / pageSize < 1048576 := by
    simp only [pageSize, wordCount] at *
    omega
  rw [mapPage]
  simp only [check, hlogical, hphysical, if_true, ok_bind]
  apply ensures_bind (htables.create hdir (show logical / pageSize / 1024 < 1024 by omega))
  rintro ps₁ ⟨htables₁, hpresent, hentries₁⟩
  rw [pure_eq_ok, ensures_ok]
  have hvalue : physical ||| pagePresent ||| access ||| readwrite =
      physical ||| (pagePresent ||| access ||| readwrite) := by
    rw [Nat.or_assoc, Nat.or_assoc, Nat.or_assoc]
  obtain ⟨hmod, -, -⟩ := entry_flags hphysical hfits hflags hodd
  rw [hvalue]
  obtain ⟨hsame, hholds, hentries⟩ := htables₁.storeEntry hdir hpageno hpresent hmod
  refine ⟨?_, ?_⟩
  · refine htables₁.of_phys hsame fun holder page hstructural => (hholds holder page).trans ?_
    simp [hstructural.ne_backing]
  · intro other dir number hother hnumber
    refine (hentries other dir number hother hnumber).trans ?_
    rw [hentries₁ (fun _ _ => False) other dir number hother hnumber id]

/-! ## Unmapping -/

/-- The free list of `ps'` is that of `ps` with one more page in front. -/
structure Pushed (ps ps' : Pages) (page : ℕ) : Prop where
  head : ps'.pageFree = page
  link : word ps'.phys page 0 = ps.pageFree
  others : ∀ other, other % pageSize = 0 → other ≠ page → ¬ ps.Outstanding other →
    word ps'.phys other 0 = word ps.phys other 0
  ledger : ps'.ledger = .returned page :: ps.ledger
  allocator : ∀ free, Allocator ps free → ps.Outstanding page → Allocator ps' (page :: free)

/-- `unmap_and_free_page` clears the entry of one logical page and frees the page behind it. -/
theorem Tables.unmap (htables : Tables ps dirs) (hdir : dirs pid = some pdir) {logical page : ℕ}
    (hlogical : logical % pageSize = 0) (hbound : logical < wordCount) {user : ℕ → Prop}
    (hprivate : Private ps.phys dirs user) (huser : user (logical / pageSize))
    (hpresent : isPresent (entry ps.phys pdir (logical / pageSize)) = true)
    (hpage : frameAddress (entry ps.phys pdir (logical / pageSize)) = page) :
    ∃ ps', unmapAndFreePage ps pdir logical = .ok ps' ∧ Pushed ps ps' page ∧
      ∀ other dir number, dirs other = some dir → number < 1048576 →
        entry ps'.phys dir number = if other = pid ∧ number = logical / pageSize then 0
          else entry ps.phys dir number := by
  have hpageno : logical / pageSize < 1048576 := by
    simp only [pageSize, wordCount] at *
    omega
  have htable := table_present hpresent
  obtain ⟨hsame₀, hholds₀, hentries₀⟩ := htables.storeEntry hdir hpageno htable
    (show 0 % wordCount = 0 by simp)
  set table := frameAddress (word ps.phys pdir (logical / pageSize / 1024)) with htableEq
  set address := table + 4 * (logical / pageSize % 1024) with haddress
  have hholds : ∀ holder other, Holder.Structural holder →
      (Holds (store32 ps.phys address 0) dirs holder other ↔ Holds ps.phys dirs holder other) := by
    intro holder other hstructural
    rw [hholds₀]
    simp [hstructural.ne_backing]
  have htables₀ := htables.of_phys hsame₀ hholds
  have hpageAligned : page % pageSize = 0 := hpage ▸ frameAddress_aligned (entry_lt _ _ _)
  have hbacking : Holds ps.phys dirs (.backing pid (logical / pageSize)) page :=
    ⟨pdir, hdir, hpageno, hpresent, hpage⟩
  have hspared : ∀ holder other, Holder.Structural holder →
      Holds ps.phys dirs holder other → other ≠ page := by
    rintro holder other hstructural hheld rfl
    exact hprivate holder other pid _ hstructural hheld huser hbacking
  have hlinked := sameWordsBut_link (store32 ps.phys address 0) ps.pageFree hpageAligned
  have hentries₁ := (htables₀.holds_congr hlinked (fun holder other hstructural hheld =>
    hspared holder other hstructural ((hholds holder other hstructural).mp hheld))
    fun _ _ => False).2
  obtain ⟨free, halloc⟩ := htables.allocator
  have hpos := halloc.npages_pos (htables.directory_outstanding hdir)
  have hrun : unmapAndFreePage ps pdir logical = .ok { ps with
      npages := ps.npages - 1
      phys := store32 (store32 ps.phys address 0) page ps.pageFree
      pageFree := page
      ledger := .returned page :: ps.ledger } := by
    rw [htables.unmapAndFreePage_eq hdir hlogical hbound hprivate huser hpresent, hpage]
    simp [freePage, check, hpos, Pages.store, haddress, htableEq]
  refine ⟨_, hrun, ⟨rfl, ?_, ?_, rfl, ?_⟩, ?_⟩
  · simp only [word, Nat.mul_zero, Nat.add_zero]
    exact load32_store32_same _ page halloc.pageFree_lt
  · intro other hother hne hfree
    exact (hlinked other hother hne 0 (by decide)).trans (hsame₀ other hother hfree 0 (by decide))
  · intro free' halloc' hout
    obtain ⟨ps', hfreed, hpushed, -⟩ := freePage_spec (halloc'.of_phys hsame₀) hout
    simp only [freePage, check, hpos, if_true, ok_bind, pure_eq_ok, Except.ok.injEq] at hfreed
    rw [hfreed]
    exact hpushed
  · intro other dir number hother hnumber
    exact (hentries₁ other dir number hother hnumber id).trans
      (hentries₀ other dir number hother hnumber)

/-! ## Page tables implement a map -/

/-- `map_page` sets the lookup of one page to the given page with exactly the given flags, and
`unmap_and_free_page` of a user page takes its lookup away and frees the page that was mapped. -/
theorem tables_implement_map (htables : Tables ps dirs) (hdir : dirs pid = some pdir)
    {logical : ℕ} (hlogical : logical % pageSize = 0) (hbound : logical < wordCount) :
    (∀ physical access readwrite, physical % pageSize = 0 → physical < wordCount →
      access < pageSize → readwrite < pageSize →
      Ensures (Short ps 1) (mapPage ps pdir logical physical access readwrite) fun ps' =>
        lookupPage ps' pdir logical = .ok (some physical) ∧
        entry ps'.phys pdir (logical / pageSize) % pageSize =
          pagePresent ||| access ||| readwrite ∧
        SameLookups ps ps' dirs pid logical ∧ Tables ps' dirs) ∧
    ∀ user, Private ps.phys dirs user → user (logical / pageSize) →
      ∀ page, lookupPage ps pdir logical = .ok (some page) →
        ∃ ps', unmapAndFreePage ps pdir logical = .ok ps' ∧
          lookupPage ps' pdir logical = .ok none ∧
          SameLookups ps ps' dirs pid logical ∧ Pushed ps ps' page := by
  have hpageno : logical / pageSize < 1048576 := by
    simp only [pageSize, wordCount] at *
    omega
  refine ⟨?_, ?_⟩
  · intro physical access readwrite hphysical hfits haccess hreadwrite
    have hflags : pagePresent ||| access ||| readwrite < pageSize :=
      Nat.or_lt_two_pow (n := 12) (Nat.or_lt_two_pow (n := 12) (by decide) haccess) hreadwrite
    have hodd : (pagePresent ||| access ||| readwrite) % 2 = 1 := by
      rw [Nat.or_assoc, Nat.or_mod_two_eq_one]
      exact .inl rfl
    obtain ⟨-, hthere, hframe⟩ := entry_flags hphysical hfits hflags hodd
    apply ensures_mono (htables.map hdir hlogical hbound hphysical hfits hflags hodd) fun _ h => h
    rintro ps' ⟨htables', hentries⟩
    have hentry := hentries pid pdir _ hdir hpageno
    rw [if_pos ⟨rfl, rfl⟩] at hentry
    refine ⟨?_, ?_, ?_, htables'⟩
    · rw [lookupPage_eq ps' pdir hlogical, hentry, if_pos hthere, hframe]
    · rw [hentry, entry_or_flags hphysical hflags, Nat.add_mod, hphysical, Nat.zero_add,
        Nat.mod_mod, Nat.mod_eq_of_lt hflags]
    · apply sameLookups_of_entries hlogical
      intro other dir number hother hnumber hdiff
      rw [hentries other dir number hother hnumber, if_neg hdiff]
  · intro user hprivate huser page hlookup
    rw [lookupPage_eq ps pdir hlogical] at hlookup
    have hthere : isPresent (entry ps.phys pdir (logical / pageSize)) = true := by
      by_contra habsent
      simp [habsent] at hlookup
    rw [if_pos hthere] at hlookup
    simp only [Except.ok.injEq, Option.some.injEq] at hlookup
    obtain ⟨ps', hrun, hpushed, hentries⟩ :=
      htables.unmap hdir hlogical hbound hprivate huser hthere hlookup
    have hentry := hentries pid pdir _ hdir hpageno
    rw [if_pos ⟨rfl, rfl⟩] at hentry
    refine ⟨ps', hrun, ?_, ?_, hpushed⟩
    · rw [lookupPage_eq ps' pdir hlogical, hentry, isPresent_zero]
      simp
    · apply sameLookups_of_entries hlogical
      intro other dir number hother hnumber hdiff
      rw [hentries other dir number hother hnumber, if_neg hdiff]

/-- A directory, its table for the pages from 4MB on and the page mapped at 6MB, in this order. -/
def threePages : Pages where
  phys := store32 (store32 (fun _ => 0) (pageStart + 4) (pageStart + 4096 + 7))
    (pageStart + 4096 + 2048) (pageStart + 8192 + 7)
  pageEnd := pageStart + 12288
  pageFree := 0
  npages := 3
  ledger := [.taken (pageStart + 8192), .taken (pageStart + 4096), .taken pageStart]

theorem threePages_allocator : Allocator threePages [] := by
  refine ⟨rfl, by decide, by decide, rfl, List.nodup_nil, by simp, ?_, ?_, rfl⟩
  · intro page
    simp only [Pages.Outstanding, threePages, Ledger.outstanding_taken, Ledger.not_outstanding_nil,
      Pages.Valid, pageStart, pageSize, List.not_mem_nil, not_false_eq_true, and_true, or_false]
    constructor
    · rintro (rfl | rfl | rfl) <;> simp
    · rintro ⟨haligned, hlow, hhigh⟩
      omega
  · simp [threePages, Ledger.linear_taken, Ledger.linear_nil, Ledger.outstanding_taken,
      Ledger.not_outstanding_nil, pageStart]

theorem threePages_word {index : ℕ} (hindex : index < 1024) :
    word threePages.phys pageStart index = if index = 1 then pageStart + 4096 + 7 else 0 := by
  have hdir := word_store32 (fun _ => 0) (pageStart + 4096 + 7)
    (show pageStart % pageSize = 0 by decide) (show pageStart % pageSize = 0 by decide)
    (show 1 < 1024 by decide) hindex
  have htable := word_store32 (store32 (fun _ => 0) (pageStart + 4) (pageStart + 4096 + 7))
    (pageStart + 8192 + 7) (show (pageStart + 4096) % pageSize = 0 by decide)
    (show pageStart % pageSize = 0 by decide) (show 512 < 1024 by decide) hindex
  refine htable.trans ?_
  rw [if_neg (fun h => absurd h.1 (by decide))]
  refine hdir.trans ?_
  by_cases hone : index = 1
  · rw [if_pos ⟨rfl, hone⟩, if_pos hone]
    decide
  · rw [if_neg (fun h => hone h.2), if_neg hone]
    simp [word, load32]

theorem threePages_holds {holder : Holder Unit} {page : ℕ} (hstructural : holder.Structural)
    (hholds : Holds threePages.phys (fun _ => some pageStart) holder page) :
    (holder = .directory () ∧ page = pageStart) ∨
      (holder = .table () 1 ∧ page = pageStart + 4096) := by
  cases holder with
  | directory pid =>
      simp only [Holds, Option.some.injEq] at hholds
      exact .inl ⟨rfl, hholds.symm⟩
  | table pid dirindex =>
      obtain ⟨pdir, hdir, hindex, hpresent, hframe⟩ := hholds
      simp only [Option.some.injEq] at hdir
      subst hdir
      rw [threePages_word hindex] at hpresent hframe
      by_cases hone : dirindex = 1
      · subst hone
        refine .inr ⟨rfl, hframe.symm.trans ?_⟩
        decide
      · rw [if_neg hone] at hpresent
        exact absurd hpresent (by decide)
  | backing pid pageno => exact hstructural.elim

theorem threePages_tables : Tables threePages fun _ : Unit => some pageStart := by
  refine ⟨⟨[], threePages_allocator⟩, ?_, ?_⟩
  · intro holder page hstructural hholds
    rw [threePages_allocator.outstanding_iff]
    simp only [Pages.Valid, threePages, pageStart, pageSize, List.not_mem_nil, not_false_eq_true,
      and_true]
    rcases threePages_holds hstructural hholds with ⟨-, rfl⟩ | ⟨-, rfl⟩
    · exact ⟨by decide, by decide, by decide⟩
    · exact ⟨by decide, by decide, by decide⟩
  · intro holder holder' page hleft hright hholds hholds'
    rcases threePages_holds hleft hholds with ⟨rfl, rfl⟩ | ⟨rfl, rfl⟩
    · rcases threePages_holds hright hholds' with ⟨rfl, -⟩ | ⟨-, hpage⟩
      · rfl
      · exact absurd hpage (by decide)
    · rcases threePages_holds hright hholds' with ⟨-, hpage⟩ | ⟨rfl, -⟩
      · exact absurd hpage (by decide)
      · rfl

theorem threePages_entry : entry threePages.phys pageStart 1536 = pageStart + 8192 + 7 := by
  have hpage := word_store32 (store32 (fun _ => 0) (pageStart + 4) (pageStart + 4096 + 7))
    (pageStart + 8192 + 7) (show (pageStart + 4096) % pageSize = 0 by decide)
    (show (pageStart + 4096) % pageSize = 0 by decide) (show 512 < 1024 by decide)
    (show 512 < 1024 by decide)
  rw [entry, threePages_word (show 1536 / 1024 < 1024 by decide), if_pos (by decide)]
  exact hpage

theorem threePages_private :
    Private threePages.phys (fun _ : Unit => some pageStart) (· = 1536) := by
  rintro holder page other pageno hstructural hheld rfl ⟨pdir, hdir, -, -, hframe⟩
  simp only [Option.some.injEq] at hdir
  rw [← hdir, threePages_entry] at hframe
  rcases threePages_holds hstructural hheld with ⟨-, rfl⟩ | ⟨-, rfl⟩
  · exact absurd hframe (by decide)
  · exact absurd hframe (by decide)

theorem tables_implement_map_three :
    (Ensures (Short threePages 1) (mapPage threePages pageStart pageStart 0 pageUser 0) fun ps' =>
      lookupPage ps' pageStart pageStart = .ok (some 0)) ∧
    ∃ ps', unmapAndFreePage threePages pageStart pageStart = .ok ps' ∧
      lookupPage ps' pageStart pageStart = .ok none ∧ ps'.pageFree = pageStart + 8192 := by
  obtain ⟨hmap, hunmap⟩ := @tables_implement_map Unit _ _ () _ _ threePages_tables rfl _
    (show pageStart % pageSize = 0 by decide) (show pageStart < wordCount by decide)
  have hlookup : lookupPage threePages pageStart pageStart = .ok (some (pageStart + 8192)) := by
    rw [lookupPage_eq _ _ (by decide), show pageStart / pageSize = 1536 from rfl, threePages_entry]
    decide
  obtain ⟨ps', hrun, hgone, -, hpushed⟩ :=
    hunmap (· = 1536) threePages_private (by decide) _ hlookup
  refine ⟨?_, ps', hrun, hgone, hpushed.head⟩
  exact ensures_mono (hmap 0 pageUser 0 (by decide) (by decide) (by decide) (by decide))
    (fun _ h => h) fun ps' h => h.1

end Rhythmos.Paging
