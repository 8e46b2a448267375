import Rhythmos.Paging.Words

/-!
# Who holds which page

The allocator part of the invariant (`Allocator`) says that the pages below
`page_end` are divided into the free list and the outstanding pages.  The
holder part (`Holders`) says that each page directory, page table and mapped
page of a process is an outstanding page of its own: `Holds` reads the holder
of a page off the page directories, and no page has two holders.

A page may be outstanding without a holder: just after it is handed out, or for
ever once its last mapping is overwritten.  Such a page is `Loose`.
-/

namespace Rhythmos.Paging

open ByteMemory Libc LinkedChain

variable {Pid : Type*}

/-! ## The allocator -/

/-- A page the allocator manages and has reached. -/
def Pages.Valid (ps : Pages) (page : ℕ) : Prop :=
  page % pageSize = 0 ∧ pageStart ≤ page ∧ page < ps.pageEnd

/-- Handed out and not taken back. -/
def Pages.Outstanding (ps : Pages) (page : ℕ) : Prop := Ledger.Outstanding ps.ledger page

/-- The free list and the outstanding pages divide the pages below `page_end`. -/
structure Allocator (ps : Pages) (free : List ℕ) : Prop where
  end_aligned : ps.pageEnd % pageSize = 0
  start_le : pageStart ≤ ps.pageEnd
  end_le : ps.pageEnd ≤ wordCount
  chain : IsChain (fun page => word ps.phys page 0) 0 ps.pageFree free
  nodup : free.Nodup
  valid : ∀ page ∈ free, ps.Valid page
  outstanding_iff : ∀ page, ps.Outstanding page ↔ ps.Valid page ∧ page ∉ free
  linear : Ledger.Linear ps.ledger
  count : ps.npages + free.length = (ps.pageEnd - pageStart) / pageSize

/-- Words of all pages but the given ones are the same. -/
def SameWordsBut (changed : ℕ → Prop) (phys phys' : Memory) : Prop :=
  ∀ page, page % pageSize = 0 → ¬ changed page → ∀ index < 1024,
    word phys' page index = word phys page index

theorem Allocator.aligned {ps : Pages} {free : List ℕ} (halloc : Allocator ps free) {page : ℕ}
    (hout : ps.Outstanding page) : page % pageSize = 0 :=
  ((halloc.outstanding_iff page).mp hout).1.1

theorem Allocator.lt_wordCount {ps : Pages} {free : List ℕ} (halloc : Allocator ps free)
    {page : ℕ} (hout : ps.Outstanding page) : page < wordCount :=
  lt_of_lt_of_le ((halloc.outstanding_iff page).mp hout).1.2.2 halloc.end_le

theorem Allocator.pageStart_le {ps : Pages} {free : List ℕ} (halloc : Allocator ps free)
    {page : ℕ} (hout : ps.Outstanding page) : pageStart ≤ page :=
  ((halloc.outstanding_iff page).mp hout).1.2.1

/-- The allocator only looks at the links in free pages. -/
theorem Allocator.of_phys {ps : Pages} {free : List ℕ} (halloc : Allocator ps free)
    {phys : Memory} (hsame : SameWordsBut ps.Outstanding ps.phys phys) :
    Allocator { ps with phys := phys } free where
  end_aligned := halloc.end_aligned
  start_le := halloc.start_le
  end_le := halloc.end_le
  chain := by
    apply isChain_congr _ halloc.chain
    intro page hpage
    have hvalid := halloc.valid page hpage
    exact hsame page hvalid.1 (fun hout => ((halloc.outstanding_iff page).mp hout).2 hpage) 0
      (by decide)
  nodup := halloc.nodup
  valid := halloc.valid
  outstanding_iff := halloc.outstanding_iff
  linear := halloc.linear
  count := halloc.count

/-- The pages the allocator has reached, in order. -/
def Pages.reached (ps : Pages) : List ℕ :=
  (List.range ((ps.pageEnd - pageStart) / pageSize)).map fun i => pageStart + i * pageSize

theorem Pages.mem_reached {ps : Pages} (hstart : pageStart ≤ ps.pageEnd)
    (haligned : ps.pageEnd % pageSize = 0) {page : ℕ} :
    page ∈ ps.reached ↔ ps.Valid page := by
  simp only [Pages.reached, Pages.Valid, List.mem_map, List.mem_range, pageStart, pageSize] at *
  constructor
  · rintro ⟨i, hi, rfl⟩
    omega
  · rintro ⟨hpage, hlow, hhigh⟩
    exact ⟨(page - 6291456) / 4096, by omega, by omega⟩

@[simp]
theorem Pages.length_reached (ps : Pages) :
    ps.reached.length = (ps.pageEnd - pageStart) / pageSize := by
  simp [Pages.reached]

/-- While a page is outstanding, the counter is positive. -/
theorem Allocator.npages_pos {ps : Pages} {free : List ℕ} (halloc : Allocator ps free)
    {page : ℕ} (hout : ps.Outstanding page) : 0 < ps.npages := by
  obtain ⟨hvalid, hfree⟩ := (halloc.outstanding_iff page).mp hout
  have hnodup : (page :: free).Nodup := List.nodup_cons.mpr ⟨hfree, halloc.nodup⟩
  have hsubset : page :: free ⊆ ps.reached := by
    intro x hx
    rw [Pages.mem_reached halloc.start_le halloc.end_aligned]
    rcases List.mem_cons.mp hx with rfl | hx
    · exact hvalid
    · exact halloc.valid x hx
  have hlength := (hnodup.subperm hsubset).length_le
  have hcount := halloc.count
  simp only [List.length_cons, Pages.length_reached] at hlength
  omega

/-- `alloc_page` hands out a zeroed page that was not outstanding; it gives up
only when every page below the end of the address space is outstanding. -/
theorem allocPage_spec {ps : Pages} {free : List ℕ} (halloc : Allocator ps free) :
    Fallible.Ensures (fun fault => fault = .exhausted ∧ wordCount < ps.pageEnd + pageSize)
      (allocPage ps) fun result =>
        (∃ free', Allocator result.1 free') ∧ ¬ ps.Outstanding result.2 ∧
        (∀ page, result.1.Outstanding page ↔ page = result.2 ∨ ps.Outstanding page) ∧
        SameWordsBut (· = result.2) ps.phys result.1.phys ∧
        (∀ index < 1024, word result.1.phys result.2 index = 0) ∧
        result.1.pageEnd ≤ ps.pageEnd + pageSize := by
  have hzero : ∀ page, page % pageSize = 0 →
      SameWordsBut (· = page) ps.phys (zeroWords ps.phys page 1024) ∧
        ∀ index < 1024, word (zeroWords ps.phys page 1024) page index = 0 := by
    intro page hpage
    refine ⟨?_, ?_⟩
    · intro other hother hne index hindex
      rw [word_zeroWords _ hpage hother hindex le_rfl, if_neg (fun h => hne h.1)]
    · intro index hindex
      rw [word_zeroWords _ hpage hpage hindex le_rfl, if_pos ⟨rfl, hindex⟩]
  rw [allocPage]
  by_cases hnull : ps.pageFree = 0
  · -- the free list is empty: the next page is the one at `page_end`
    obtain rfl : free = [] := (isChain_head_eq_stop_iff halloc.chain).mp hnull
    rw [if_pos hnull]
    split
    case isFalse hfull => exact Fallible.ensures_error.mpr ⟨rfl, Nat.lt_of_not_le hfull⟩
    case isTrue hroom =>
      obtain ⟨hsame, hzeros⟩ := hzero ps.pageEnd halloc.end_aligned
      have hnot : ¬ ps.Outstanding ps.pageEnd := by
        rw [halloc.outstanding_iff]
        exact fun h => absurd h.1.2.2 (lt_irrefl _)
      rw [Fallible.ensures_ok]
      refine ⟨⟨[], ?_⟩, hnot, fun page => Iff.rfl, hsame, hzeros, le_rfl⟩
      have hend := halloc.end_aligned
      have hstart := halloc.start_le
      have hcount := halloc.count
      refine ⟨?_, ?_, hroom, ?_, List.nodup_nil, by simp, ?_, ⟨hnot, halloc.linear⟩, ?_⟩
      · simp only [pageSize] at *
        omega
      · simp only
        omega
      · exact hnull
      · intro page
        have hout := halloc.outstanding_iff page
        simp only [Pages.Outstanding, Ledger.outstanding_taken, Pages.Valid, List.not_mem_nil,
          not_false_eq_true, and_true] at *
        rw [hout]
        simp only [pageSize, pageStart] at *
        omega
      · simp only [List.length_nil, pageSize, pageStart] at *
        omega
  · -- the free list is not empty: its first page is taken
    rw [if_neg hnull]
    obtain ⟨rest, rfl⟩ : ∃ rest, free = ps.pageFree :: rest := by
      cases free with
      | nil => exact absurd halloc.chain hnull
      | cons head rest => exact ⟨rest, by rw [halloc.chain.1]⟩
    obtain ⟨-, hne, hchain⟩ := halloc.chain
    obtain ⟨hhead, hnodup⟩ := List.nodup_cons.mp halloc.nodup
    have hvalid := halloc.valid ps.pageFree (by simp)
    obtain ⟨hsame, hzeros⟩ := hzero ps.pageFree hvalid.1
    have hnot : ¬ ps.Outstanding ps.pageFree := by
      rw [halloc.outstanding_iff]
      simp
    rw [Fallible.ensures_ok]
    refine ⟨⟨rest, ?_⟩, hnot, fun page => Iff.rfl, hsame, hzeros, by simp⟩
    refine ⟨halloc.end_aligned, halloc.start_le, halloc.end_le, ?_, hnodup, ?_, ?_,
      ⟨hnot, halloc.linear⟩, ?_⟩
    · apply isChain_congr _ (by simpa [word] using hchain)
      intro page hpage
      refine hsame page (halloc.valid page (by simp [hpage])).1 ?_ 0 (by decide)
      rintro rfl
      exact hhead hpage
    · intro page hpage
      exact halloc.valid page (by simp [hpage])
    · intro page
      have hout := halloc.outstanding_iff page
      simp only [Pages.Outstanding, Ledger.outstanding_taken] at *
      rw [hout]
      constructor
      · rintro (rfl | ⟨hpage, hmem⟩)
        · exact ⟨hvalid, hhead⟩
        · exact ⟨hpage, fun h => hmem (by simp [h])⟩
      · rintro ⟨hpage, hmem⟩
        by_cases hfirst : page = ps.pageFree
        · exact .inl hfirst
        · exact .inr ⟨hpage, by simp [hfirst, hmem]⟩
    · have hcount := halloc.count
      simp only [List.length_cons] at hcount
      simp only
      omega

/-- The free list starts below the end of the address space. -/
theorem Allocator.pageFree_lt {ps : Pages} {free : List ℕ} (halloc : Allocator ps free) :
    ps.pageFree < wordCount := by
  cases free with
  | nil =>
      have hzero : ps.pageFree = 0 := halloc.chain
      simp [hzero]
  | cons head rest =>
      have hhead := halloc.chain.1
      have hlast := halloc.valid head (by simp)
      rw [hhead]
      exact lt_of_lt_of_le hlast.2.2 halloc.end_le

theorem sameWordsBut_link (phys : Memory) {page : ℕ} (value : ℕ) (hpage : page % pageSize = 0) :
    SameWordsBut (· = page) phys (store32 phys page value) := by
  intro other hother hne index hindex
  have hstore := word_store32 phys value hpage hother (show 0 < 1024 by decide) hindex
  rw [Nat.mul_zero, Nat.add_zero] at hstore
  rw [hstore, if_neg (fun h => hne h.1)]

/-- `free_page` of an outstanding page puts it on the free list. -/
theorem freePage_spec {ps : Pages} {free : List ℕ} (halloc : Allocator ps free) {page : ℕ}
    (hout : ps.Outstanding page) :
    ∃ ps', freePage ps page = .ok ps' ∧ Allocator ps' (page :: free) ∧
      (∀ other, ps'.Outstanding other ↔ other ≠ page ∧ ps.Outstanding other) ∧
      SameWordsBut (· = page) ps.phys ps'.phys ∧ ps'.pageEnd = ps.pageEnd := by
  have hpos := halloc.npages_pos hout
  obtain ⟨hvalid, hfree⟩ := (halloc.outstanding_iff page).mp hout
  have hsame := sameWordsBut_link ps.phys ps.pageFree hvalid.1
  have hfreed : freePage ps page = .ok { ps with
      npages := ps.npages - 1
      phys := store32 ps.phys page ps.pageFree
      pageFree := page
      ledger := .returned page :: ps.ledger } := by
    simp [freePage, check, hpos]
  refine ⟨_, hfreed, ?_, fun other => Iff.rfl, hsame, rfl⟩
  refine ⟨halloc.end_aligned, halloc.start_le, halloc.end_le, ?_,
    List.nodup_cons.mpr ⟨hfree, halloc.nodup⟩, ?_, ?_, ⟨hout, halloc.linear⟩, ?_⟩
  · have hpage : page ≠ 0 := by
      have hlow := hvalid.2.1
      simp only [pageStart] at hlow
      omega
    apply isChain_push halloc.chain hpage
    · simp only [word, Nat.mul_zero, Nat.add_zero]
      exact load32_store32_same ps.phys page halloc.pageFree_lt
    · intro other hother
      refine hsame other (halloc.valid other hother).1 ?_ 0 (by decide)
      rintro rfl
      exact hfree hother
  · intro other hother
    rcases List.mem_cons.mp hother with rfl | hother
    · exact hvalid
    · exact halloc.valid other hother
  · intro other
    have hiff := halloc.outstanding_iff other
    simp only [Pages.Outstanding, Ledger.outstanding_returned, List.mem_cons, not_or] at *
    rw [hiff]
    exact ⟨fun h => ⟨h.2.1, h.1, h.2.2⟩, fun h => ⟨h.2.1, h.1, h.2.2⟩⟩
  · have hcount := halloc.count
    simp only [List.length_cons]
    omega

end Rhythmos.Paging
