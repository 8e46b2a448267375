import Rhythmos.Paging.Ranges

/-!
# Segments and directories

The specifications of the functions that build, copy, load and release the
segments of a process, and of the stores the kernel and user code make through
a page directory.
-/

namespace Rhythmos.Paging

open ByteMemory Libc Fallible

variable {Pid : Type*} [DecidableEq Pid] {ps : Pages} {dirs : Pid → Option ℕ}
variable {pid : Pid} {pdir : ℕ}

/-! ## Page numbers of a range -/

/-- The logical pages that start in `[first, limit)`. -/
def pagesIn (first limit pageno : ℕ) : Prop :=
  first ≤ pageno * pageSize ∧ pageno * pageSize < limit

theorem mem_pageAddresses {first limit addr : ℕ} (haddr : addr ∈ pageAddresses first limit) :
    ∃ i, addr = first + i * pageSize ∧ addr < limit := by
  simp only [pageAddresses, List.mem_map, List.mem_range] at haddr
  obtain ⟨i, hi, rfl⟩ := haddr
  refine ⟨i, rfl, ?_⟩
  simp only [pageSize] at *
  omega

theorem aligned_of_mem_pageAddresses {first limit addr : ℕ} (hfirst : first % pageSize = 0)
    (haddr : addr ∈ pageAddresses first limit) : addr % pageSize = 0 := by
  obtain ⟨i, rfl, -⟩ := mem_pageAddresses haddr
  simp only [pageSize] at *
  omega

theorem exists_pageAddress_iff {first limit pageno : ℕ} (hfirst : first % pageSize = 0) :
    (∃ addr ∈ pageAddresses first limit, pageno = addr / pageSize) ↔
      pagesIn first limit pageno := by
  constructor
  · rintro ⟨addr, haddr, rfl⟩
    have haligned := aligned_of_mem_pageAddresses hfirst haddr
    obtain ⟨i, hi, hlt⟩ := mem_pageAddresses haddr
    simp only [pagesIn, pageSize] at *
    omega
  · rintro ⟨hlow, hhigh⟩
    refine ⟨pageno * pageSize, ?_, ?_⟩
    · simp only [pageAddresses, List.mem_map, List.mem_range]
      refine ⟨pageno - first / pageSize, ?_, ?_⟩
      · simp only [pageSize] at *
        omega
      · simp only [pageSize] at *
        omega
    · simp only [pageSize] at *
      omega

theorem pairwise_pageAddresses (first limit : ℕ) :
    (pageAddresses first limit).Pairwise fun left right =>
      ∀ pageno, pageno = left / pageSize → ¬ pageno = right / pageSize := by
  rw [pageAddresses, List.pairwise_map]
  refine List.pairwise_lt_range.imp ?_
  rintro i j hij pageno rfl
  simp only [pageSize]
  omega

@[simp]
theorem length_pageAddresses (first limit : ℕ) :
    (pageAddresses first limit).length = (limit - first + (pageSize - 1)) / pageSize := by
  simp [pageAddresses]

/-! ## Building -/

theorem Sound.identity (hsound : Sound ps dirs) (hdir : dirs pid = some pdir)
    {first limit access readwrite count : ℕ} (hfirst : first % pageSize = 0)
    (hlimit : limit ≤ pageStart) (hcount : (limit - first + (pageSize - 1)) / pageSize ≤ count)
    (hflags : pagePresent ||| access ||| readwrite < pageSize)
    (hodd : (pagePresent ||| access ||| readwrite) % 2 = 1)
    (hunmapped : ∀ pageno, ¬ Mapped ps dirs pid pageno) :
    Ensures (Short ps count) (identityMap ps pdir first limit access readwrite) fun ps' =>
      Extended ps ps' dirs pid (fun _ => False) count ∧
        Granted ps ps' dirs pid (pagesIn first limit)
          ((pagePresent ||| access ||| readwrite) &&& pageUser) := by
  have hloop : Ensures (Short ps (1 * (pageAddresses first limit).length))
      (identityMap ps pdir first limit access readwrite) fun ps' =>
        Extended ps ps' dirs pid (fun _ => ∃ addr ∈ pageAddresses first limit, False)
            (1 * (pageAddresses first limit).length) ∧
          Granted ps ps' dirs pid
            (fun pageno => ∃ addr ∈ pageAddresses first limit, pageno = addr / pageSize)
            ((pagePresent ||| access ||| readwrite) &&& pageUser) := by
    refine hsound.extendLoop (fun _ _ => False) (fun addr pageno => pageno = addr / pageSize)
      (List.pairwise_of_forall fun _ _ _ h => h.elim) ?_
    intro ps₁ done addr rest hitems hprior
    have haddr : addr ∈ pageAddresses first limit := by simp [hitems]
    obtain ⟨i, -, hlt⟩ := mem_pageAddresses haddr
    refine hprior.sound.mapIdentity hdir (aligned_of_mem_pageAddresses hfirst haddr) (by omega)
      hflags hodd ?_
    rw [hprior.mapped]
    simp [hunmapped]
  rw [Nat.one_mul, length_pageAddresses] at hloop
  refine ensures_mono hloop ?_ fun ps' hext => ⟨hext.1.congr (by simp) hcount,
    hext.2.congr fun pageno => (exists_pageAddress_iff hfirst).symm⟩
  exact fun fault hshort => hshort.mono 0 (Nat.le_add_right _ _) (by omega)

theorem Sound.mapNews (hsound : Sound ps dirs) (hdir : dirs pid = some pdir)
    {base count : ℕ} (hbase : base % pageSize = 0) (hfits : base + count * pageSize ≤ wordCount) :
    Ensures (Short ps (2 * count)) (mapNewPages ps pdir base count) fun ps' =>
      Extended ps ps' dirs pid (pagesIn base (base + count * pageSize)) (2 * count) ∧
        Granted ps ps' dirs pid (pagesIn base (base + count * pageSize)) pageUser := by
  have hlogical : ∀ i, i < count → (base + i * pageSize) % wordCount = base + i * pageSize := by
    intro i hi
    apply Nat.mod_eq_of_lt
    simp only [pageSize, wordCount] at *
    omega
  have hloop : Ensures (Short ps (2 * (List.range count).length))
      ((List.range count).foldlM
        (fun ps i => mapNewPage ps pdir ((base + i * pageSize) % wordCount)) ps) fun ps' =>
        Extended ps ps' dirs pid
            (fun pageno => ∃ i ∈ List.range count, pageno = base / pageSize + i)
            (2 * (List.range count).length) ∧
          Granted ps ps' dirs pid
            (fun pageno => ∃ i ∈ List.range count, pageno = base / pageSize + i) pageUser := by
    refine hsound.extendLoop (fun i pageno => pageno = base / pageSize + i)
      (fun i pageno => pageno = base / pageSize + i) ?_ ?_
    · refine List.pairwise_lt_range.imp ?_
      rintro i j hij pageno rfl
      omega
    · intro ps₁ done i rest hitems hprior
      have hi : i < count := by
        rw [← List.mem_range, hitems]
        simp
      have haligned : (base + i * pageSize) % pageSize = 0 := by
        simp only [pageSize] at *
        omega
      have hnumber : (base + i * pageSize) / pageSize = base / pageSize + i := by
        simp only [pageSize] at *
        omega
      rw [hlogical i hi, ← hnumber]
      refine hprior.sound.mapNew hdir haligned ?_
      simp only [pageSize, wordCount] at *
      omega
  rw [mapNewPages]
  simp only [check, hbase, if_true, ok_bind]
  rw [List.length_range] at hloop
  have hpages : ∀ pageno, pagesIn base (base + count * pageSize) pageno ↔
      ∃ i ∈ List.range count, pageno = base / pageSize + i := by
    intro pageno
    simp only [pagesIn, List.mem_range]
    constructor
    · rintro ⟨hlow, hhigh⟩
      refine ⟨pageno - base / pageSize, ?_, ?_⟩
      all_goals
        simp only [pageSize] at *
        omega
    · rintro ⟨i, hi, rfl⟩
      simp only [pageSize] at *
      omega
  exact ensures_weaken hloop fun ps' hext =>
    ⟨hext.1.congr hpages le_rfl, hext.2.congr hpages⟩

theorem lookupPage_eq (ps : Pages) (pdir : ℕ) {logical : ℕ} (hlogical : logical % pageSize = 0) :
    lookupPage ps pdir logical =
      .ok (if isPresent (entry ps.phys pdir (logical / pageSize)) then
        some (frameAddress (entry ps.phys pdir (logical / pageSize))) else none) := by
  simp only [lookupPage, check, hlogical, if_true, ok_bind, pure_eq_ok, entry, word]
  split
  · split <;> simp_all
  · next habsent => simp [habsent]

theorem Sound.copy {source : Pid} {srcDir : ℕ} (hsound : Sound ps dirs)
    (hdir : dirs pid = some pdir) (hsource : dirs source = some srcDir) {addr : ℕ}
    (haddr : addr % pageSize = 0) (hbound : addr < wordCount) :
    Ensures (fun fault => Short ps 2 fault ∨
        fault = .assertion ∧ ¬ Mapped ps dirs source (addr / pageSize))
      (copyPage srcDir pdir ps addr) fun ps' =>
        Extended ps ps' dirs pid (· = addr / pageSize) 2 ∧
          Granted ps ps' dirs pid (· = addr / pageSize) pageUser := by
  rw [copyPage]
  refine ensures_bind (ensures_mono hsound.alloc ?_ fun _ h => h) ?_
  · rintro fault ⟨hfault, hlong⟩
    exact .inl ⟨hfault, by omega⟩
  rintro ⟨ps₁, page⟩ ⟨hsound₁, hloose₁, -, hholds₁, hlooses₁, -, hend₁, hentries₁⟩
  simp only at *
  have hmapped₁ : ∀ other pageno, Mapped ps₁ dirs other pageno ↔ Mapped ps dirs other pageno := by
    intro other pageno
    simp only [Mapped, hholds₁]
  refine ensures_bind (ensures_mono (hsound₁.mapLoose hdir haddr hbound hloose₁) ?_ fun _ h => h) ?_
  · intro fault hshort
    exact .inl (hshort.mono 1 (by simpa using hend₁) le_rfl)
  rintro ps₂ ⟨hsound₂, hbacking, hmapped₂, hlooses₂, hend₂, hgranted₂⟩
  -- a mapped page of the source is still mapped, so that the lookup succeeds
  have hthere : Mapped ps dirs source (addr / pageSize) →
      isPresent (entry ps₂.phys srcDir (addr / pageSize)) = true := by
    intro hmapped
    obtain ⟨x, -, srcDir', hsource', -, hpresent, -⟩ :=
      (hmapped₂ source (addr / pageSize)).mpr (.inl ((hmapped₁ _ _).mpr hmapped))
    obtain rfl : srcDir = srcDir' := by simpa [hsource] using hsource'
    exact hpresent
  rw [lookupPage_eq ps₂ srcDir haddr]
  cases hlookup : isPresent (entry ps₂.phys srcDir (addr / pageSize)) with
  | false =>
      simp only [Bool.false_eq_true, if_false, ok_bind]
      refine ensures_error.mpr (.inr ⟨rfl, fun hmapped => ?_⟩)
      rw [hthere hmapped] at hlookup
      cases hlookup
  | true =>
      simp only [if_true, ok_bind, pure_eq_ok, ensures_ok]
      have hoff := fun x => @memmove_off ps₂.phys page
        (frameAddress (entry ps₂.phys srcDir (addr / pageSize))) pageSize x
      generalize memmove ps₂.phys page (frameAddress (entry ps₂.phys srcDir (addr / pageSize)))
        pageSize = phys at hoff ⊢
      have hrefilled := hsound₂.refillBacking hbacking hoff
      refine ⟨⟨hrefilled.sound, ?_, ?_, ?_⟩, (hgranted₂.after hentries₁).before hrefilled.entries⟩
      · intro other pageno
        rw [hrefilled.mapped, hmapped₂, hmapped₁]
      · intro hunmapped x hx
        obtain ⟨hne, hbefore⟩ := hlooses₂ x ((hrefilled.loose x).mp hx)
        have hloose := hbefore (by simpa [hmapped₁] using hunmapped)
        exact ((hlooses₁ x).mp hloose).resolve_left hne
      · rw [hrefilled.pageEnd_eq]
        omega

theorem Sound.copySegment {source : Pid} {srcDir : ℕ} (hsound : Sound ps dirs)
    (hdir : dirs pid = some pdir) (hsource : dirs source = some srcDir) {first limit : ℕ}
    (hfirst : first % pageSize = 0) (hlimit : limit % pageSize = 0) (hbound : limit ≤ wordCount)
    {strict : Prop}
    (hmapped : strict → ∀ pageno, pagesIn first limit pageno → Mapped ps dirs source pageno) :
    Ensures (fun fault => Short ps (2 * ((limit - first + (pageSize - 1)) / pageSize)) fault ∨
        ¬ strict ∧ fault = .assertion)
      (mapAndCopy ps srcDir pdir first limit) fun ps' =>
        Extended ps ps' dirs pid (pagesIn first limit)
            (2 * ((limit - first + (pageSize - 1)) / pageSize)) ∧
          Granted ps ps' dirs pid (pagesIn first limit) pageUser := by
  have hloop : Ensures (fun fault => Short ps (2 * (pageAddresses first limit).length) fault ∨
        ¬ strict ∧ fault = .assertion)
      ((pageAddresses first limit).foldlM (copyPage srcDir pdir) ps) fun ps' =>
        Extended ps ps' dirs pid
            (fun pageno => ∃ addr ∈ pageAddresses first limit, pageno = addr / pageSize)
            (2 * (pageAddresses first limit).length) ∧
          Granted ps ps' dirs pid
            (fun pageno => ∃ addr ∈ pageAddresses first limit, pageno = addr / pageSize)
            pageUser := by
    refine hsound.extendLoopOr (fun addr pageno => pageno = addr / pageSize)
      (fun addr pageno => pageno = addr / pageSize) (pairwise_pageAddresses first limit) ?_
    intro ps₁ done addr rest hitems hprior
    have haddr : addr ∈ pageAddresses first limit := by simp [hitems]
    obtain ⟨i, -, hlt⟩ := mem_pageAddresses haddr
    refine ensures_mono (hprior.sound.copy hdir hsource
      (aligned_of_mem_pageAddresses hfirst haddr) (by omega)) ?_ fun _ h => h
    rintro fault (hshort | ⟨hfault, hunmapped⟩)
    · exact .inl hshort
    · refine .inr ⟨fun hstrict => hunmapped ?_, hfault⟩
      refine (hprior.mapped _ _).mpr (.inl (hmapped hstrict _ ?_))
      exact (exists_pageAddress_iff hfirst).mp ⟨addr, haddr, rfl⟩
  rw [mapAndCopy]
  simp only [check, hfirst, hlimit, if_true, ok_bind]
  rw [length_pageAddresses] at hloop
  exact ensures_weaken hloop fun ps' hext =>
    ⟨hext.1.congr (fun pageno => (exists_pageAddress_iff hfirst).symm) le_rfl,
      hext.2.congr fun pageno => (exists_pageAddress_iff hfirst).symm⟩

theorem Sound.load (hsound : Sound ps dirs) (hdir : dirs pid = some pdir) {textStart pos : ℕ}
    (contents : List UInt8) (haligned : (textStart + pos) % pageSize = 0)
    (hbound : textStart + pos < wordCount) :
    Ensures (Short ps 2) (loadPage pdir textStart contents ps pos) fun ps' =>
      Extended ps ps' dirs pid (· = (textStart + pos) / pageSize) 2 ∧
        Granted ps ps' dirs pid (· = (textStart + pos) / pageSize) pageUser := by
  rw [loadPage]
  refine ensures_bind (ensures_mono hsound.alloc ?_ fun _ h => h) ?_
  · rintro fault ⟨hfault, hlong⟩
    exact ⟨hfault, by omega⟩
  rintro ⟨ps₁, page⟩ ⟨hsound₁, hloose₁, -, hholds₁, hlooses₁, -, hend₁, hentries₁⟩
  simp only at *
  have hoff : ∀ x, x < page ∨ page + pageSize ≤ x →
      storeBytes ps₁.phys page ((contents.drop pos).take pageSize) x = ps₁.phys x := by
    intro x hx
    have hlength := List.length_take_le pageSize (contents.drop pos)
    exact storeBytes_off _ _ _ (by omega)
  generalize storeBytes ps₁.phys page ((contents.drop pos).take pageSize) = phys at hoff ⊢
  have hrefilled := hsound₁.refillLoose hloose₁ hoff
  have hmapped₁ : ∀ other pageno, Mapped ps₁ dirs other pageno ↔ Mapped ps dirs other pageno := by
    intro other pageno
    simp only [Mapped, hholds₁]
  refine ensures_mono (hrefilled.sound.mapLoose hdir haligned hbound
    ((hrefilled.loose page).mpr hloose₁)) ?_ ?_
  · intro fault hshort
    exact hshort.mono 1 (by simpa using hend₁) le_rfl
  · rintro ps₂ ⟨hsound₂, -, hmapped₂, hlooses₂, hend₂, hgranted₂⟩
    refine ⟨⟨hsound₂, ?_, ?_, ?_⟩, (hgranted₂.after hrefilled.entries).after hentries₁⟩
    · intro other pageno
      rw [hmapped₂, hrefilled.mapped, hmapped₁]
    · intro hunmapped x hx
      obtain ⟨hne, hbefore⟩ := hlooses₂ x hx
      have hloose := hbefore (by simpa [hrefilled.mapped, hmapped₁] using hunmapped)
      exact ((hlooses₁ x).mp ((hrefilled.loose x).mp hloose)).resolve_left hne
    · simp only at hend₂
      omega

theorem Sound.loadSegment (hsound : Sound ps dirs) (hdir : dirs pid = some pdir)
    {textStart : ℕ} (contents : List UInt8) (haligned : textStart % pageSize = 0)
    (hbound : textStart + contents.length ≤ wordCount) :
    Ensures (Short ps (2 * ((contents.length + (pageSize - 1)) / pageSize)))
      (loadText ps pdir textStart contents) fun ps' =>
        Extended ps ps' dirs pid (pagesIn textStart (textStart + contents.length))
            (2 * ((contents.length + (pageSize - 1)) / pageSize)) ∧
          Granted ps ps' dirs pid (pagesIn textStart (textStart + contents.length)) pageUser := by
  have hloop : Ensures (Short ps (2 * (pageAddresses 0 contents.length).length))
      ((pageAddresses 0 contents.length).foldlM (loadPage pdir textStart contents) ps) fun ps' =>
        Extended ps ps' dirs pid
            (fun pageno => ∃ pos ∈ pageAddresses 0 contents.length,
              pageno = (textStart + pos) / pageSize)
            (2 * (pageAddresses 0 contents.length).length) ∧
          Granted ps ps' dirs pid
            (fun pageno => ∃ pos ∈ pageAddresses 0 contents.length,
              pageno = (textStart + pos) / pageSize) pageUser := by
    refine hsound.extendLoop (fun pos pageno => pageno = (textStart + pos) / pageSize)
      (fun pos pageno => pageno = (textStart + pos) / pageSize) ?_ ?_
    · rw [pageAddresses, List.pairwise_map]
      refine List.pairwise_lt_range.imp ?_
      rintro i j hij pageno rfl
      simp only [pageSize] at *
      omega
    · intro ps₁ done pos rest hitems hprior
      have hpos : pos ∈ pageAddresses 0 contents.length := by simp [hitems]
      have hposAligned := aligned_of_mem_pageAddresses (by simp) hpos
      obtain ⟨i, -, hlt⟩ := mem_pageAddresses hpos
      refine hprior.sound.load hdir contents ?_ (by omega)
      simp only [pageSize] at *
      omega
  rw [length_pageAddresses, Nat.sub_zero] at hloop
  have hpages : ∀ pageno, pagesIn textStart (textStart + contents.length) pageno ↔
      ∃ pos ∈ pageAddresses 0 contents.length, pageno = (textStart + pos) / pageSize := by
    intro pageno
    have hiff : (∃ pos ∈ pageAddresses 0 contents.length,
        pageno - textStart / pageSize = pos / pageSize) ↔
          pagesIn 0 contents.length (pageno - textStart / pageSize) :=
      exists_pageAddress_iff (show 0 % pageSize = 0 by simp)
    constructor
    · rintro ⟨hlow, hhigh⟩
      have hin : pagesIn 0 contents.length (pageno - textStart / pageSize) := by
        simp only [pagesIn, pageSize] at *
        omega
      obtain ⟨pos, hpos, hnumber⟩ := hiff.mpr hin
      have hposAligned := aligned_of_mem_pageAddresses (by simp) hpos
      refine ⟨pos, hpos, ?_⟩
      simp only [pageSize] at *
      omega
    · rintro ⟨pos, hpos, rfl⟩
      have hposAligned := aligned_of_mem_pageAddresses (by simp) hpos
      obtain ⟨i, -, hlt⟩ := mem_pageAddresses hpos
      simp only [pagesIn, pageSize] at *
      omega
  exact ensures_weaken hloop fun ps' hext =>
    ⟨hext.1.congr hpages le_rfl, hext.2.congr hpages⟩

end Rhythmos.Paging
