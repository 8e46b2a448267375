import Rhythmos.Paging.Release

/-!
# Contents of pages

What processes read through their directories.  The functions that build and copy segments
change what one process reads on the pages they map, and a store changes what one process
reads at one address; everything else stays, since no two processes share a page from
`PAGE_START` on and directories and tables are not mapped.
-/

namespace Rhythmos.Paging

open ByteMemory Libc Fallible

variable {Pid : Type*} {ps ps' : Pages} {dirs : Pid → Option ℕ} {pid : Pid} {pdir : ℕ}

/-! ## Loads through a directory -/

theorem walk_eq (phys : Memory) (pdir logical : ℕ) :
    walk phys pdir logical =
      if isPresent (entry phys pdir (logical / pageSize)) then
        some (entry phys pdir (logical / pageSize)) else none := by
  by_cases htable : isPresent (word phys pdir (logical / pageSize / 1024)) = true
  · rw [entry, if_pos htable]
    simp only [word] at htable ⊢
    simp only [walk, htable, if_true]
    rfl
  · rw [entry, if_neg htable]
    simp only [word] at htable
    simp [walk, htable]

theorem loadByte_some (ps : Pages) (pdir address : ℕ) :
    loadByte (some pdir) ps address =
      if isPresent (entry ps.phys pdir (address / pageSize)) then
        .ok (ps.phys (frameAddress (entry ps.phys pdir (address / pageSize)) + address % pageSize))
      else .error .unmapped := by
  simp only [loadByte, translate, walk_eq]
  by_cases hpresent : isPresent (entry ps.phys pdir (address / pageSize)) = true
  · simp [hpresent]
  · simp [hpresent]

/-- A load from a page that backs a logical page. -/
theorem loadByte_of_holds (hdir : dirs pid = some pdir) {address page : ℕ}
    (hheld : Holds ps.phys dirs (.backing pid (address / pageSize)) page) :
    loadByte (some pdir) ps address = .ok (ps.phys (page + address % pageSize)) := by
  obtain ⟨pdir', hdir', -, hpresent, rfl⟩ := hheld
  obtain rfl : pdir = pdir' := by simpa [hdir] using hdir'
  rw [loadByte_some, if_pos hpresent]

/-! ## What stays -/

/-- All processes read the same bytes, but for the given addresses. -/
def SameBytes (touched : Pid → ℕ → Prop) (ps ps' : Pages) (dirs : Pid → Option ℕ) : Prop :=
  ∀ pid pdir address, dirs pid = some pdir → address < wordCount → ¬ touched pid address →
    loadByte (some pdir) ps' address = loadByte (some pdir) ps address

theorem SameBytes.refl (touched : Pid → ℕ → Prop) (ps : Pages) (dirs : Pid → Option ℕ) :
    SameBytes touched ps ps dirs := fun _ _ _ _ _ _ => rfl

theorem SameBytes.trans {touched touched' : Pid → ℕ → Prop} {ps₁ : Pages}
    (hfirst : SameBytes touched ps ps₁ dirs) (hsecond : SameBytes touched' ps₁ ps' dirs) :
    SameBytes (fun pid address => touched pid address ∨ touched' pid address) ps ps' dirs := by
  intro pid pdir address hdir hbound hspared
  rw [not_or] at hspared
  rw [hsecond pid pdir address hdir hbound hspared.2, hfirst pid pdir address hdir hbound hspared.1]

theorem SameBytes.mono {touched touched' : Pid → ℕ → Prop} (hsame : SameBytes touched ps ps' dirs)
    (htouched : ∀ pid address, touched pid address → touched' pid address) :
    SameBytes touched' ps ps' dirs := by
  intro pid pdir address hdir hbound hspared
  exact hsame pid pdir address hdir hbound fun h => hspared (htouched pid address h)

/-- The bytes of a page are the same. -/
def SamePage (phys phys' : Memory) (page : ℕ) : Prop :=
  ∀ offset < pageSize, phys' (page + offset) = phys (page + offset)

theorem samePage_of_off {phys phys' : Memory} {page other : ℕ}
    (hsame : ∀ x, x < other ∨ other + pageSize ≤ x → phys' x = phys x)
    (hpage : page % pageSize = 0) (hother : other % pageSize = 0) (hne : page ≠ other) :
    SamePage phys phys' page := by
  intro offset hoffset
  apply hsame
  simp only [pageSize] at *
  omega

/-- Processes read the bytes of the pages that back their logical pages. -/
theorem sameBytes_of_pages {touched : Pid → ℕ → Prop}
    (hentries : SameEntries touched ps.phys ps'.phys dirs)
    (hpages : ∀ other pageno page, Holds ps.phys dirs (.backing other pageno) page →
      ¬ touched other pageno → SamePage ps.phys ps'.phys page) :
    SameBytes (fun other address => touched other (address / pageSize)) ps ps' dirs := by
  intro other dir address hdir hbound hspared
  have hpageno : address / pageSize < 1048576 := by
    simp only [pageSize, wordCount] at *
    omega
  rw [loadByte_some, loadByte_some, hentries other dir _ hdir hpageno hspared]
  split
  next hpresent =>
    have hheld : Holds ps.phys dirs (.backing other (address / pageSize))
        (frameAddress (entry ps.phys dir (address / pageSize))) :=
      ⟨dir, hdir, hpageno, hpresent, rfl⟩
    rw [hpages other _ _ hheld hspared _ (Nat.mod_lt _ (by decide))]
  next => rfl

/-! ## Pages that hold data -/

/-- A page that neither a directory nor a table occupies and that is not free. -/
structure Payload (ps : Pages) (dirs : Pid → Option ℕ) (page : ℕ) : Prop where
  aligned : page % pageSize = 0
  outstanding : pageStart ≤ page → ps.Outstanding page
  data : ∀ holder, Holds ps.phys dirs holder page → ∃ pid pageno, holder = .backing pid pageno

theorem Sound.payload_of_backing (hsound : Sound ps dirs) {pageno page : ℕ}
    (hheld : Holds ps.phys dirs (.backing pid pageno) page) : Payload ps dirs page where
  aligned := by
    obtain ⟨dir, -, -, -, rfl⟩ := hheld
    exact frameAddress_aligned (entry_lt _ _ _)
  outstanding := hsound.2.outstanding _ _ hheld
  data holder hholder := by
    rcases Nat.lt_or_ge page pageStart with hlow | hhigh
    · obtain ⟨other, number, rfl, -⟩ := hsound.2.identity _ _ hholder hlow
      exact ⟨other, number, rfl⟩
    · exact ⟨pid, pageno, hsound.2.unique _ _ _ hholder hheld hhigh⟩

theorem Sound.payload_of_loose (hsound : Sound ps dirs) {page : ℕ} (hloose : Loose ps dirs page) :
    Payload ps dirs page where
  aligned := hsound.aligned hloose.1
  outstanding _ := hloose.1
  data holder hholder := absurd hholder (hloose.2 holder)

theorem Payload.ne_directory {page : ℕ} (hpayload : Payload ps dirs page)
    (hdir : dirs pid = some pdir) : page ≠ pdir := by
  rintro rfl
  obtain ⟨_, _, hholder⟩ := hpayload.data (.directory pid) hdir
  cases hholder

theorem Payload.ne_table {page dirindex : ℕ} (hpayload : Payload ps dirs page)
    (hdir : dirs pid = some pdir) (hindex : dirindex < 1024)
    (hpresent : isPresent (word ps.phys pdir dirindex) = true) :
    page ≠ frameAddress (word ps.phys pdir dirindex) := by
  rintro rfl
  obtain ⟨_, _, hholder⟩ := hpayload.data (.table pid dirindex) ⟨pdir, hdir, hindex, hpresent, rfl⟩
  cases hholder

/-! ## Allocation and mapping -/

theorem zeroWords_apply (phys : Memory) (page count x : ℕ) :
    zeroWords phys page count x = if page ≤ x ∧ x < page + 4 * count then 0 else phys x := by
  induction count with
  | zero =>
      rw [if_neg (by omega)]
      rfl
  | succ count ih =>
      rw [zeroWords, store32, ih]
      split_ifs <;> first | rfl | omega

theorem allocPage_phys {page : ℕ} (halloc : allocPage ps = .ok (ps', page)) :
    ps'.phys = zeroWords ps.phys page 1024 := by
  rw [allocPage] at halloc
  split at halloc
  · split at halloc
    · obtain ⟨rfl, rfl⟩ := Prod.mk.inj (Except.ok.inj halloc)
      rfl
    · cases halloc
  · obtain ⟨rfl, rfl⟩ := Prod.mk.inj (Except.ok.inj halloc)
    rfl

/-- What `alloc_page` hands out is a page of zeros apart from all pages with data, which it
leaves alone. -/
theorem Sound.alloc_contents (hsound : Sound ps dirs) {page : ℕ}
    (halloc : allocPage ps = .ok (ps', page)) :
    Sound ps' dirs ∧ Loose ps' dirs page ∧
      (∀ offset < pageSize, ps'.phys (page + offset) = 0) ∧
      (∀ other, Payload ps dirs other → other ≠ page ∧ SamePage ps.phys ps'.phys other) ∧
      ∀ holder other, Holds ps'.phys dirs holder other ↔ Holds ps.phys dirs holder other := by
  obtain ⟨hsound', hloose, hnew, hholds, -⟩ := ensures_of_eq_ok hsound.alloc halloc
  have hphys := allocPage_phys halloc
  have hstart := hsound'.pageStart_le hloose.1
  have haligned := hsound'.aligned hloose.1
  refine ⟨hsound', hloose, ?_, ?_, hholds⟩
  · intro offset hoffset
    rw [hphys, zeroWords_apply, if_pos]
    simp only [pageSize] at *
    omega
  · intro other hpayload
    have hne : other ≠ page := by
      rintro rfl
      exact hnew (hpayload.outstanding hstart)
    refine ⟨hne, samePage_of_off ?_ hpayload.aligned haligned hne⟩
    intro x hx
    rw [hphys, zeroWords_apply, if_neg]
    simp only [pageSize] at *
    omega

theorem samePage_store {page index : ℕ} (value : ℕ) {other : ℕ} (hpage : page % pageSize = 0)
    (hindex : index < 1024) (hother : other % pageSize = 0) (hne : other ≠ page) :
    SamePage ps.phys (ps.store (page + 4 * index) value).phys other := by
  refine samePage_of_off ?_ hother hpage hne
  intro x hx
  apply store32_off
  simp only [pageSize] at *
  omega

theorem SamePage.trans {phys phys₁ phys' : Memory} {page : ℕ} (hfirst : SamePage phys phys₁ page)
    (hsecond : SamePage phys₁ phys' page) : SamePage phys phys' page :=
  fun offset hoffset => (hsecond offset hoffset).trans (hfirst offset hoffset)

/-- `map_page` leaves the pages with data alone. -/
theorem Sound.map_contents (hsound : Sound ps dirs) (hdir : dirs pid = some pdir)
    {logical physical access readwrite page : ℕ} (hbound : logical < wordCount)
    (hmap : mapPage ps pdir logical physical access readwrite = .ok ps')
    (hpayload : Payload ps dirs page) : SamePage ps.phys ps'.phys page := by
  have hindex : logical / pageSize / 1024 < 1024 := by
    simp only [pageSize, wordCount] at *
    omega
  have hpdir := hsound.directory_aligned hdir
  have hentry : logical / pageSize % 1024 < 1024 := Nat.mod_lt _ (by decide)
  rw [mapPage, bind_eq_ok] at hmap
  obtain ⟨-, -, hmap⟩ := hmap
  rw [bind_eq_ok] at hmap
  obtain ⟨-, -, hmap⟩ := hmap
  dsimp only at hmap
  rw [bind_eq_ok] at hmap
  obtain ⟨ps₁, hcreate, hstore⟩ := hmap
  -- the table is in place before, or it is a page that was free
  have htable : SamePage ps.phys ps₁.phys page ∧
      page ≠ frameAddress (word ps₁.phys pdir (logical / pageSize / 1024)) := by
    obtain ⟨-, hpresent₁, -⟩ := ensures_of_eq_ok (hsound.create hdir hindex) hcreate
    rw [createTable] at hcreate
    split at hcreate
    next hpresent =>
      obtain rfl := Except.ok.inj hcreate
      exact ⟨fun _ _ => rfl, hpayload.ne_table hdir hindex hpresent⟩
    next =>
      rw [bind_eq_ok] at hcreate
      obtain ⟨⟨ps₂, dirpage⟩, halloc, hcreate⟩ := hcreate
      obtain ⟨hsound₂, hloose, -, hkept, -⟩ := hsound.alloc_contents halloc
      obtain ⟨hne, hsame⟩ := hkept page hpayload
      obtain ⟨haligned, hfits, -⟩ := hsound₂.loose_bounds hloose
      obtain rfl := Except.ok.inj hcreate
      refine ⟨hsame.trans (samePage_store _ hpdir hindex hpayload.aligned
        (hpayload.ne_directory hdir)), ?_⟩
      obtain ⟨hmod, -, hframe⟩ := stored_flags haligned hfits
        (show pagePresent ||| pageUser ||| pageReadWrite < pageSize by decide) (by decide)
      have hword : word (ps₂.store (pdir + 4 * (logical / pageSize / 1024))
          (dirpage ||| pagePresent ||| pageUser ||| pageReadWrite)).phys pdir
            (logical / pageSize / 1024) =
          dirpage ||| pagePresent ||| pageUser ||| pageReadWrite := by
        rw [Pages.store, word_store32 _ _ hpdir hpdir hindex hindex, if_pos ⟨rfl, rfl⟩, hmod]
      rw [hword, hframe]
      exact hne
  obtain ⟨hsame, hne⟩ := htable
  obtain rfl := Except.ok.inj hstore
  refine hsame.trans (samePage_store _ (frameAddress_aligned (word_lt _ _ _)) hentry
    hpayload.aligned hne)

/-- The addresses of one logical page of a process. -/
def onPage (pid : Pid) (pageno : ℕ) (other : Pid) (address : ℕ) : Prop :=
  other = pid ∧ address / pageSize = pageno

theorem Sound.alloc_same (hsound : Sound ps dirs) {page : ℕ}
    (halloc : allocPage ps = .ok (ps', page)) : SameBytes (fun _ _ => False) ps ps' dirs := by
  obtain ⟨-, -, -, hkept, -⟩ := hsound.alloc_contents halloc
  obtain ⟨-, -, -, -, -, -, -, hentries⟩ := ensures_of_eq_ok hsound.alloc halloc
  exact sameBytes_of_pages (hentries fun _ _ => False) fun _ _ page hheld _ =>
    (hkept page (hsound.payload_of_backing hheld)).2

/-- A change of the bytes of one page. -/
theorem Sound.refill_same (hsound : Sound ps dirs) {touched : Pid → ℕ → Prop} {page : ℕ}
    {phys : Memory} (haligned : page % pageSize = 0)
    (hsame : ∀ x, x < page ∨ page + pageSize ≤ x → phys x = ps.phys x)
    (hentries : ∀ touched, SameEntries touched ps.phys phys dirs)
    (htouched : ∀ other pageno, Holds ps.phys dirs (.backing other pageno) page →
      touched other pageno) :
    SameBytes (fun other address => touched other (address / pageSize)) ps
      { ps with phys := phys } dirs := by
  refine sameBytes_of_pages (hentries touched) ?_
  intro other pageno held hheld hspared
  refine samePage_of_off hsame (hsound.payload_of_backing hheld).aligned haligned ?_
  rintro rfl
  exact hspared (htouched other pageno hheld)

/-- The holder of a page from `PAGE_START` on. -/
theorem Sound.backing_unique (hsound : Sound ps dirs) {other : Pid} {pageno number page : ℕ}
    (hheld : Holds ps.phys dirs (.backing pid pageno) page) (hstart : pageStart ≤ page)
    (hother : Holds ps.phys dirs (.backing other number) page) : other = pid ∧ number = pageno := by
  simpa using hsound.2.unique _ _ _ hother hheld hstart

variable [DecidableEq Pid]

theorem Sound.mapLoose_contents (hsound : Sound ps dirs) (hdir : dirs pid = some pdir)
    {logical page : ℕ} (hlogical : logical % pageSize = 0) (hbound : logical < wordCount)
    (hloose : Loose ps dirs page)
    (hmap : mapPage ps pdir logical page pageUser pageReadWrite = .ok ps') :
    Sound ps' dirs ∧ Holds ps'.phys dirs (.backing pid (logical / pageSize)) page ∧
      SamePage ps.phys ps'.phys page ∧
      SameBytes (onPage pid (logical / pageSize)) ps ps' dirs := by
  obtain ⟨hsound', hheld, -, -, -, hgranted⟩ :=
    ensures_of_eq_ok (hsound.mapLoose hdir hlogical hbound hloose) hmap
  refine ⟨hsound', hheld, hsound.map_contents hdir hbound hmap (hsound.payload_of_loose hloose), ?_⟩
  exact sameBytes_of_pages hgranted.same fun _ _ _ hheld _ =>
    hsound.map_contents hdir hbound hmap (hsound.payload_of_backing hheld)

/-! ## New directories -/

/-- A new directory is not seen by the other processes. -/
theorem Sound.newDirectory_same (hsound : Sound ps dirs) {page : ℕ}
    (halloc : allocPage ps = .ok (ps', page)) :
    SameBytes (fun other _ => other = pid) ps ps' (Function.update dirs pid (some page)) := by
  intro other dir address hdir hbound hother
  rw [Function.update_of_ne hother] at hdir
  exact hsound.alloc_same halloc other dir address hdir hbound id

theorem Sound.identity_same (hsound : Sound ps dirs) (hdir : dirs pid = some pdir)
    {first limit access readwrite : ℕ} (hfirst : first % pageSize = 0) (hlimit : limit ≤ pageStart)
    (hflags : pagePresent ||| access ||| readwrite < pageSize)
    (hodd : (pagePresent ||| access ||| readwrite) % 2 = 1)
    (hunmapped : ∀ pageno, ¬ Mapped ps dirs pid pageno)
    (hmap : identityMap ps pdir first limit access readwrite = .ok ps') :
    Sound ps' dirs ∧ (∀ pageno, ¬ Mapped ps' dirs pid pageno) ∧
      SameBytes (fun other _ => other = pid) ps ps' dirs := by
  have hinv : Ensures (fun _ => True) (identityMap ps pdir first limit access readwrite)
      fun ps' => Sound ps' dirs ∧ (∀ pageno, ¬ Mapped ps' dirs pid pageno) ∧
        SameBytes (fun other _ => other = pid) ps ps' dirs := by
    apply ensures_foldlM (fun _ ps₁ => Sound ps₁ dirs ∧ (∀ pageno, ¬ Mapped ps₁ dirs pid pageno) ∧
      SameBytes (fun other _ => other = pid) ps ps₁ dirs)
    · exact ⟨hsound, hunmapped, .refl _ _ _⟩
    · rintro done addr rest ps₁ hitems ⟨hsound₁, hunmapped₁, hsame₁⟩
      have haddr : addr ∈ pageAddresses first limit := by simp [hitems]
      obtain ⟨i, -, hlt⟩ := mem_pageAddresses haddr
      have hword : addr < wordCount := (hlt.trans_le hlimit).trans (by decide)
      refine ensures_of_ok fun ps₂ hstep => ?_
      obtain ⟨hext, hgranted⟩ := ensures_of_eq_ok (hsound₁.mapIdentity hdir
        (aligned_of_mem_pageAddresses hfirst haddr) (hlt.trans_le hlimit) hflags hodd
        (hunmapped₁ _)) hstep
      have hsame₂ : SameBytes (onPage pid (addr / pageSize)) ps₁ ps₂ dirs :=
        sameBytes_of_pages hgranted.same fun _ _ _ hheld _ =>
          hsound₁.map_contents hdir hword hstep (hsound₁.payload_of_backing hheld)
      refine ⟨hext.sound, fun pageno hmapped => ?_, (hsame₁.trans hsame₂).mono ?_⟩
      · exact ((hext.mapped pid pageno).mp hmapped).elim (hunmapped₁ pageno) And.right
      · rintro other address (hother | hon)
        · exact hother
        · exact hon.1
  rwa [hmap, ensures_ok] at hinv

/-! ## Copying and loading pages -/

/-- A copied page is read as the page it was copied from. -/
theorem Sound.copy_contents {source : Pid} {srcDir addr : ℕ} (hsound : Sound ps dirs)
    (hdir : dirs pid = some pdir) (hsource : dirs source = some srcDir) (hne : source ≠ pid)
    (haddr : addr % pageSize = 0) (hbound : addr < wordCount)
    (hcopy : copyPage srcDir pdir ps addr = .ok ps') :
    SameBytes (onPage pid (addr / pageSize)) ps ps' dirs ∧
      ∀ address, address / pageSize = addr / pageSize →
        loadByte (some pdir) ps' address = loadByte (some srcDir) ps address := by
  rw [copyPage, bind_eq_ok] at hcopy
  obtain ⟨⟨ps₁, page⟩, halloc, hcopy⟩ := hcopy
  obtain ⟨hsound₁, hloose₁, -⟩ := hsound.alloc_contents halloc
  have hsame₁ := hsound.alloc_same halloc
  dsimp only at hcopy
  rw [bind_eq_ok] at hcopy
  obtain ⟨ps₂, hmap, hcopy⟩ := hcopy
  obtain ⟨hsound₂, hheld₂, -, hsame₂⟩ := hsound₁.mapLoose_contents hdir haddr hbound hloose₁ hmap
  obtain ⟨haligned, -, hstart⟩ := hsound₁.loose_bounds hloose₁
  rw [lookupPage_eq ps₂ srcDir haddr] at hcopy
  cases hpresent : isPresent (entry ps₂.phys srcDir (addr / pageSize)) with
  | false => simp [hpresent] at hcopy
  | true =>
      simp only [hpresent, if_true, ok_bind] at hcopy
      set srcPhys := frameAddress (entry ps₂.phys srcDir (addr / pageSize)) with hsrcPhys
      have hsourceHeld : Holds ps₂.phys dirs (.backing source (addr / pageSize)) srcPhys := by
        refine ⟨srcDir, hsource, ?_, hpresent, rfl⟩
        simp only [pageSize, wordCount] at *
        omega
      have hapart : srcPhys ≠ page := by
        intro hmeet
        rw [hmeet] at hsourceHeld
        exact hne (hsound₂.backing_unique hheld₂ hstart hsourceHeld).1
      have hsrcAligned := (hsound₂.payload_of_backing hsourceHeld).aligned
      have hregions : page ≤ srcPhys ∨ srcPhys + pageSize ≤ page := by
        simp only [pageSize] at *
        omega
      obtain ⟨phys, hphys, hoff, hcopied⟩ : ∃ phys, memmove ps₂.phys page srcPhys pageSize = phys ∧
          (∀ x, x < page ∨ page + pageSize ≤ x → phys x = ps₂.phys x) ∧
          ∀ offset < pageSize, phys (page + offset) = ps₂.phys (srcPhys + offset) := by
        refine ⟨_, rfl, fun x hx => memmove_off _ _ _ _ hx, fun offset hoffset => ?_⟩
        rw [memmove_at _ hregions (by omega) (by omega), Nat.add_sub_cancel_left]
      rw [hphys] at hcopy
      obtain rfl := Except.ok.inj hcopy
      have hrefilled := hsound₂.refillBacking hheld₂ hoff
      have hsame₃ : SameBytes (onPage pid (addr / pageSize)) ps₂ { ps₂ with phys := phys } dirs :=
        hsound₂.refill_same haligned hoff hrefilled.entries
          fun other pageno => hsound₂.backing_unique hheld₂ hstart
      have hbefore := (hsame₁.trans hsame₂).mono fun _ _ h => h.resolve_left id
      refine ⟨(hbefore.trans hsame₃).mono fun _ _ h => h.elim id id, fun address haddress => ?_⟩
      have hbound' : address < wordCount := by
        simp only [pageSize, wordCount] at *
        omega
      have hheld : Holds phys dirs (.backing pid (address / pageSize)) page := by
        rw [haddress]
        exact (hrefilled.holds _ _).mpr hheld₂
      calc loadByte (some pdir) { ps₂ with phys := phys } address
          = .ok (phys (page + address % pageSize)) := loadByte_of_holds hdir hheld
        _ = .ok (ps₂.phys (srcPhys + address % pageSize)) := by
            rw [hcopied _ (Nat.mod_lt _ (by decide))]
        _ = loadByte (some srcDir) ps₂ address :=
            (loadByte_of_holds hsource (haddress ▸ hsourceHeld)).symm
        _ = loadByte (some srcDir) ps address :=
            hbefore source srcDir address hsource hbound' fun h => hne h.1

omit [DecidableEq Pid] in
/-- A loop whose rounds each write one logical page of a process. -/
theorem Sound.contentsLoop {round : Pages → ℕ → Except PageFault Pages} {items : List ℕ}
    (number : ℕ → ℕ) (expected : ℕ → Except PageFault UInt8) (hsound : Sound ps dirs)
    (hdir : dirs pid = some pdir) (hbound : ∀ item ∈ items, number item < 1048576)
    (hround : ∀ ps₁ ps₂ item, item ∈ items → Sound ps₁ dirs →
      SameBytes (fun other _ => other = pid) ps ps₁ dirs → round ps₁ item = .ok ps₂ →
      Sound ps₂ dirs ∧ SameBytes (onPage pid (number item)) ps₁ ps₂ dirs ∧
        ∀ address, address / pageSize = number item →
          loadByte (some pdir) ps₂ address = expected address)
    (hloop : items.foldlM round ps = .ok ps') :
    SameBytes (fun other address => ∃ item ∈ items, onPage pid (number item) other address)
        ps ps' dirs ∧
      ∀ address, (∃ item ∈ items, address / pageSize = number item) →
        loadByte (some pdir) ps' address = expected address := by
  have hinv : Ensures (fun _ => True) (items.foldlM round ps) fun ps' => Sound ps' dirs ∧
      SameBytes (fun other address => ∃ item ∈ items, onPage pid (number item) other address)
        ps ps' dirs ∧
      ∀ address, (∃ item ∈ items, address / pageSize = number item) →
        loadByte (some pdir) ps' address = expected address := by
    apply ensures_foldlM (fun done ps₁ => Sound ps₁ dirs ∧
      SameBytes (fun other address => ∃ item ∈ done, onPage pid (number item) other address)
        ps ps₁ dirs ∧
      ∀ address, (∃ item ∈ done, address / pageSize = number item) →
        loadByte (some pdir) ps₁ address = expected address)
    · exact ⟨hsound, .refl _ _ _, by simp⟩
    · rintro done item rest ps₁ hitems ⟨hsound₁, hsame₁, hexpected₁⟩
      have hmem : item ∈ items := by simp [hitems]
      refine ensures_of_ok fun ps₂ hstep => ?_
      obtain ⟨hsound₂, hsame₂, hexpected₂⟩ := hround ps₁ ps₂ item hmem hsound₁
        (hsame₁.mono fun _ _ h => h.elim fun _ hon => hon.2.1) hstep
      refine ⟨hsound₂, (hsame₁.trans hsame₂).mono ?_, ?_⟩
      · rintro other address (⟨earlier, hearlier, hon⟩ | hon)
        · exact ⟨earlier, by simp [hearlier], hon⟩
        · exact ⟨item, by simp, hon⟩
      · rintro address ⟨other, hother, hpage⟩
        by_cases hlast : address / pageSize = number item
        · exact hexpected₂ address hlast
        · have hdone : other ∈ done := by
            rcases List.mem_append.mp hother with hdone | hsingle
            · exact hdone
            · rw [List.mem_singleton.mp hsingle] at hpage
              exact absurd hpage hlast
          have hnumber := hbound other (by simp [hitems, hdone])
          have hword : address < wordCount := by
            simp only [pageSize, wordCount] at *
            omega
          rw [hsame₂ pid pdir address hdir hword fun hon => hlast hon.2]
          exact hexpected₁ address ⟨other, hdone, hpage⟩
  exact (ensures_of_eq_ok hinv hloop).2

/-- The addresses of a range of a process. -/
def inRange (pid : Pid) (first limit : ℕ) (other : Pid) (address : ℕ) : Prop :=
  other = pid ∧ first ≤ address ∧ address < limit

theorem mem_pages_iff {first limit address : ℕ} (hfirst : first % pageSize = 0)
    (hlimit : limit % pageSize = 0) :
    (∃ addr ∈ pageAddresses first limit, address / pageSize = addr / pageSize) ↔
      first ≤ address ∧ address < limit := by
  rw [exists_pageAddress_iff hfirst]
  simp only [pagesIn, pageSize] at *
  omega

/-- A copied segment is read as the segment it was copied from. -/
theorem Sound.mapAndCopy_contents {source : Pid} {srcDir first limit : ℕ} (hsound : Sound ps dirs)
    (hdir : dirs pid = some pdir) (hsource : dirs source = some srcDir) (hne : source ≠ pid)
    (hfirst : first % pageSize = 0) (hlimit : limit % pageSize = 0) (hbound : limit ≤ wordCount)
    (hcopy : mapAndCopy ps srcDir pdir first limit = .ok ps') :
    SameBytes (inRange pid first limit) ps ps' dirs ∧
      ∀ address, first ≤ address → address < limit →
        loadByte (some pdir) ps' address = loadByte (some srcDir) ps address := by
  simp only [mapAndCopy, check, hfirst, hlimit, if_true, ok_bind] at hcopy
  have hword : ∀ addr ∈ pageAddresses first limit, addr < wordCount := by
    intro addr hmem
    obtain ⟨i, -, hlt⟩ := mem_pageAddresses hmem
    omega
  have hnumber : ∀ addr ∈ pageAddresses first limit, addr / pageSize < 1048576 := by
    intro addr hmem
    have hlt := hword addr hmem
    simp only [pageSize, wordCount] at *
    omega
  have hround : ∀ ps₁ ps₂ addr, addr ∈ pageAddresses first limit → Sound ps₁ dirs →
      SameBytes (fun other _ => other = pid) ps ps₁ dirs →
      copyPage srcDir pdir ps₁ addr = .ok ps₂ →
      Sound ps₂ dirs ∧ SameBytes (onPage pid (addr / pageSize)) ps₁ ps₂ dirs ∧
        ∀ address, address / pageSize = addr / pageSize →
          loadByte (some pdir) ps₂ address = loadByte (some srcDir) ps address := by
    intro ps₁ ps₂ addr hmem hsound₁ hsame₁ hstep
    have haddr := aligned_of_mem_pageAddresses hfirst hmem
    have hlt := hword addr hmem
    obtain ⟨hext, -⟩ := ensures_of_eq_ok (hsound₁.copy hdir hsource haddr hlt) hstep
    obtain ⟨hsame₂, hcopied₂⟩ := hsound₁.copy_contents hdir hsource hne haddr hlt hstep
    refine ⟨hext.sound, hsame₂, fun address hpage => ?_⟩
    rw [hcopied₂ address hpage]
    refine hsame₁ source srcDir address hsource ?_ hne
    simp only [pageSize, wordCount] at *
    omega
  obtain ⟨hsame, hcopied⟩ := hsound.contentsLoop _ _ hdir hnumber hround hcopy
  constructor
  · refine hsame.mono ?_
    rintro other address ⟨addr, hmem, rfl, hpage⟩
    exact ⟨rfl, (mem_pages_iff hfirst hlimit).mp ⟨addr, hmem, hpage⟩⟩
  · intro address hlow hhigh
    exact hcopied address ((mem_pages_iff hfirst hlimit).mpr ⟨hlow, hhigh⟩)

/-- A loaded page is read as its part of the file, followed by zeros. -/
theorem Sound.load_contents {textStart pos : ℕ} {contents : List UInt8} (hsound : Sound ps dirs)
    (hdir : dirs pid = some pdir) (haligned : (textStart + pos) % pageSize = 0)
    (hbound : textStart + pos < wordCount)
    (hload : loadPage pdir textStart contents ps pos = .ok ps') :
    SameBytes (onPage pid ((textStart + pos) / pageSize)) ps ps' dirs ∧
      ∀ offset < pageSize, loadByte (some pdir) ps' (textStart + pos + offset) =
        .ok (contents.getD (pos + offset) 0) := by
  rw [loadPage, bind_eq_ok] at hload
  obtain ⟨⟨ps₁, page⟩, halloc, hmap⟩ := hload
  obtain ⟨hsound₁, hloose₁, hzero₁, -⟩ := hsound.alloc_contents halloc
  have hsame₁ := hsound.alloc_same halloc
  dsimp only at hmap
  obtain ⟨hpage, -, -⟩ := hsound₁.loose_bounds hloose₁
  obtain ⟨phys, hphys, hoff, hstored⟩ : ∃ phys,
      Libc.storeBytes ps₁.phys page ((contents.drop pos).take pageSize) = phys ∧
      (∀ x, x < page ∨ page + pageSize ≤ x → phys x = ps₁.phys x) ∧
      ∀ offset < pageSize, phys (page + offset) = contents.getD (pos + offset) 0 := by
    have hlength := List.length_take_le pageSize (contents.drop pos)
    refine ⟨_, rfl, fun x hx => storeBytes_off _ _ _ (by omega), fun offset hoffset => ?_⟩
    by_cases hinside : offset < ((contents.drop pos).take pageSize).length
    · rw [storeBytes_at _ _ _ hinside]
      rw [List.length_take, List.length_drop] at hinside
      simp [List.getElem_take, List.getElem_drop,
        List.getElem?_eq_getElem (show pos + offset < contents.length by omega)]
    · rw [storeBytes_off _ _ _ (by omega), hzero₁ offset hoffset]
      rw [List.length_take, List.length_drop] at hinside
      simp [List.getElem?_eq_none (show contents.length ≤ pos + offset by omega)]
  rw [hphys] at hmap
  have hrefilled := hsound₁.refillLoose hloose₁ hoff
  have hsame₂ : SameBytes (fun _ _ => False) ps₁ { ps₁ with phys := phys } dirs :=
    hsound₁.refill_same hpage hoff hrefilled.entries fun other pageno hheld =>
      hloose₁.2 _ hheld
  obtain ⟨-, hheld, hsamePage, hsame₃⟩ := hrefilled.sound.mapLoose_contents hdir haligned hbound
    ((hrefilled.loose page).mpr hloose₁) hmap
  refine ⟨((hsame₁.trans hsame₂).trans hsame₃).mono fun _ _ h =>
    h.resolve_left fun h => h.elim id id, fun offset hoffset => ?_⟩
  have hnumber : (textStart + pos + offset) / pageSize = (textStart + pos) / pageSize := by
    simp only [pageSize] at *
    omega
  have hrest : (textStart + pos + offset) % pageSize = offset := by
    simp only [pageSize] at *
    omega
  rw [loadByte_of_holds hdir (hnumber ▸ hheld), hrest, hsamePage offset hoffset]
  exact congrArg Except.ok (hstored offset hoffset)

/-- A loaded text segment is read as the file, followed by zeros up to the end of the last
page. -/
theorem Sound.loadText_contents {textStart : ℕ} {contents : List UInt8} (hsound : Sound ps dirs)
    (hdir : dirs pid = some pdir) (haligned : textStart % pageSize = 0)
    (hbound : textStart + contents.length ≤ wordCount)
    (hload : loadText ps pdir textStart contents = .ok ps') {i : ℕ}
    (hi : i < (contents.length + (pageSize - 1)) / pageSize * pageSize) :
    loadByte (some pdir) ps' (textStart + i) = .ok (contents.getD i 0) := by
  have hpage : ∀ pos ∈ pageAddresses 0 contents.length, (textStart + pos) % pageSize = 0 ∧
      textStart + pos < wordCount ∧ (textStart + pos) / pageSize < 1048576 := by
    intro pos hmem
    have hpos := aligned_of_mem_pageAddresses (by simp) hmem
    obtain ⟨i, -, hlt⟩ := mem_pageAddresses hmem
    simp only [pageSize, wordCount] at *
    omega
  have hround : ∀ ps₁ ps₂ pos, pos ∈ pageAddresses 0 contents.length → Sound ps₁ dirs →
      SameBytes (fun other _ => other = pid) ps ps₁ dirs →
      loadPage pdir textStart contents ps₁ pos = .ok ps₂ →
      Sound ps₂ dirs ∧ SameBytes (onPage pid ((textStart + pos) / pageSize)) ps₁ ps₂ dirs ∧
        ∀ address, address / pageSize = (textStart + pos) / pageSize →
          loadByte (some pdir) ps₂ address = .ok (contents.getD (address - textStart) 0) := by
    intro ps₁ ps₂ pos hmem hsound₁ _ hstep
    obtain ⟨haligned', hword, -⟩ := hpage pos hmem
    obtain ⟨hext, -⟩ := ensures_of_eq_ok (hsound₁.load hdir contents haligned' hword) hstep
    obtain ⟨hsame₂, hloaded₂⟩ := hsound₁.load_contents hdir haligned' hword hstep
    refine ⟨hext.sound, hsame₂, fun address haddress => ?_⟩
    obtain ⟨offset, hoffset, rfl⟩ : ∃ offset < pageSize, address = textStart + pos + offset := by
      refine ⟨address - (textStart + pos), ?_, ?_⟩
      all_goals
        simp only [pageSize] at *
        omega
    rw [hloaded₂ offset hoffset, Nat.add_assoc, Nat.add_sub_cancel_left]
  obtain ⟨-, hloaded⟩ :=
    hsound.contentsLoop _ _ hdir (fun pos hmem => (hpage pos hmem).2.2) hround hload
  have hin : pagesIn 0 contents.length (i / pageSize) := by
    simp only [pagesIn, pageSize] at *
    omega
  obtain ⟨pos, hmem, hpos⟩ := (exists_pageAddress_iff (by simp)).mpr hin
  have hnumber : (textStart + i) / pageSize = (textStart + pos) / pageSize := by
    simp only [pageSize] at *
    omega
  rw [hloaded _ ⟨pos, hmem, hnumber⟩, Nat.add_sub_cancel_left]

theorem Sound.mapNew_contents {logical : ℕ} (hsound : Sound ps dirs) (hdir : dirs pid = some pdir)
    (haligned : logical % pageSize = 0) (hbound : logical < wordCount)
    (hmap : mapNewPage ps pdir logical = .ok ps') :
    SameBytes (onPage pid (logical / pageSize)) ps ps' dirs ∧
      ∀ address, address / pageSize = logical / pageSize →
        loadByte (some pdir) ps' address = .ok 0 := by
  rw [mapNewPage, bind_eq_ok] at hmap
  obtain ⟨⟨ps₁, page⟩, halloc, hmap⟩ := hmap
  obtain ⟨hsound₁, hloose₁, hzero₁, -⟩ := hsound.alloc_contents halloc
  obtain ⟨-, hheld, hsamePage, hsame₂⟩ :=
    hsound₁.mapLoose_contents hdir haligned hbound hloose₁ hmap
  refine ⟨((hsound.alloc_same halloc).trans hsame₂).mono fun _ _ h => h.resolve_left id,
    fun address haddress => ?_⟩
  have hoffset : address % pageSize < pageSize := Nat.mod_lt _ (by decide)
  rw [loadByte_of_holds hdir (haddress ▸ hheld), hsamePage _ hoffset, hzero₁ _ hoffset]

/-- New pages are read as zeros. -/
theorem Sound.mapNews_contents {base count : ℕ} (hsound : Sound ps dirs)
    (hdir : dirs pid = some pdir) (hbase : base % pageSize = 0)
    (hbound : base + count * pageSize ≤ wordCount)
    (hmap : mapNewPages ps pdir base count = .ok ps') {i : ℕ} (hi : i < count * pageSize) :
    loadByte (some pdir) ps' (base + i) = .ok 0 := by
  simp only [mapNewPages, check, hbase, if_true, ok_bind] at hmap
  have hpage : ∀ k ∈ List.range count, (base + k * pageSize) % wordCount = base + k * pageSize ∧
      (base + k * pageSize) % pageSize = 0 ∧ base + k * pageSize < wordCount ∧
      (base + k * pageSize) / pageSize < 1048576 := by
    intro k hmem
    rw [List.mem_range] at hmem
    simp only [pageSize, wordCount] at *
    omega
  have hround : ∀ ps₁ ps₂ k, k ∈ List.range count → Sound ps₁ dirs →
      SameBytes (fun other _ => other = pid) ps ps₁ dirs →
      mapNewPage ps₁ pdir ((base + k * pageSize) % wordCount) = .ok ps₂ →
      Sound ps₂ dirs ∧ SameBytes (onPage pid ((base + k * pageSize) / pageSize)) ps₁ ps₂ dirs ∧
        ∀ address, address / pageSize = (base + k * pageSize) / pageSize →
          loadByte (some pdir) ps₂ address = .ok 0 := by
    intro ps₁ ps₂ k hmem hsound₁ _ hstep
    obtain ⟨hmod, haligned, hword, -⟩ := hpage k hmem
    rw [hmod] at hstep
    obtain ⟨hext, -⟩ := ensures_of_eq_ok (hsound₁.mapNew hdir haligned hword) hstep
    exact ⟨hext.sound, hsound₁.mapNew_contents hdir haligned hword hstep⟩
  obtain ⟨-, hzero⟩ :=
    hsound.contentsLoop _ _ hdir (fun k hmem => (hpage k hmem).2.2.2) hround hmap
  refine hzero (base + i) ⟨i / pageSize, List.mem_range.mpr ?_, ?_⟩
  all_goals
    simp only [pageSize] at *
    omega

/-! ## Stores -/

omit [DecidableEq Pid] in
/-- A store through a directory, above the memory that all processes share, changes one byte
that its process reads. -/
theorem Sound.poke_contents (hsound : Sound ps dirs) (hdir : dirs pid = some pdir)
    {address word : ℕ} (hbound : address < wordCount) (hhigh : pageStart ≤ address)
    (hwalk : walk ps.phys pdir address = some word) (byte : UInt8) :
    let ps' := { ps with
      phys := Function.update ps.phys (frameAddress word + address % pageSize) byte }
    loadByte (some pdir) ps' address = .ok byte ∧
      SameBytes (fun other x => other = pid ∧ x = address) ps ps' dirs := by
  intro ps'
  have hrefilled := hsound.poke hdir hbound hwalk byte
  have hheld := holds_of_walk hdir hbound hwalk
  have hstart : pageStart ≤ frameAddress word := by
    by_contra hlow
    obtain ⟨other, pageno, hsame, hbelow⟩ := hsound.2.identity _ _ hheld (Nat.lt_of_not_le hlow)
    obtain ⟨-, rfl⟩ := Holder.backing.inj hsame
    simp only [pageStart, pageSize] at *
    omega
  constructor
  · have hheld' : Holds ps'.phys dirs (.backing pid (address / pageSize)) (frameAddress word) :=
      (hrefilled.holds _ _).mpr hheld
    rw [loadByte_of_holds hdir hheld']
    exact congrArg Except.ok (Function.update_self _ _ _)
  · intro other dir x hother hx hspared
    have hpageno : x / pageSize < 1048576 := by
      simp only [pageSize, wordCount] at *
      omega
    rw [loadByte_some, loadByte_some,
      hrefilled.entries (fun _ _ => False) other dir _ hother hpageno id]
    split
    next hpresent =>
      refine congrArg Except.ok (Function.update_of_ne ?_ _ _)
      intro hmeet
      have hother' : Holds ps.phys dirs (.backing other (x / pageSize))
          (frameAddress (entry ps.phys dir (x / pageSize))) :=
        ⟨dir, hother, hpageno, hpresent, rfl⟩
      have hleft := (hsound.payload_of_backing hother').aligned
      have hright := (hsound.payload_of_backing hheld).aligned
      have hframe : frameAddress (entry ps.phys dir (x / pageSize)) = frameAddress word := by
        simp only [pageSize] at *
        omega
      rw [hframe] at hother' hmeet
      obtain ⟨rfl, hnumber⟩ := hsound.backing_unique hheld hstart hother'
      refine hspared ⟨rfl, ?_⟩
      simp only [pageSize] at *
      omega
    next => rfl

/-- The bytes at a user address, one by one. -/
theorem loadUser_eq_ok_iff {cr3 : Option ℕ} {address : ℕ} {bytes : List UInt8} :
    loadUser cr3 ps address bytes.length = .ok bytes ↔
      ∀ i (hi : i < bytes.length),
        loadByte cr3 ps ((address + i) % wordCount) = .ok (bytes.get ⟨i, hi⟩) := by
  induction bytes generalizing address with
  | nil => exact ⟨fun _ i hi => absurd hi (Nat.not_lt_zero i), fun _ => rfl⟩
  | cons byte bytes ih =>
      constructor
      · intro hload i hi
        rw [List.length_cons, loadUser, bind_eq_ok] at hload
        obtain ⟨first, hfirst, hload⟩ := hload
        rw [bind_eq_ok] at hload
        obtain ⟨rest, hrest, hload⟩ := hload
        obtain ⟨rfl, rfl⟩ := List.cons.inj (Except.ok.inj hload)
        cases i with
        | zero => exact hfirst
        | succ i =>
            have hnext := ih.mp hrest i (Nat.lt_of_succ_lt_succ hi)
            rwa [Nat.add_assoc, Nat.add_comm 1] at hnext
      · intro hbytes
        have hfirst : loadByte cr3 ps (address % wordCount) = .ok byte :=
          hbytes 0 (Nat.succ_pos _)
        have hrest : loadUser cr3 ps (address + 1) bytes.length = .ok bytes := by
          refine ih.mpr fun i hi => ?_
          rw [Nat.add_assoc, Nat.add_comm 1]
          exact hbytes (i + 1) (Nat.succ_lt_succ hi)
        rw [List.length_cons, loadUser, hfirst, ok_bind, hrest, ok_bind, pure_eq_ok]

omit [DecidableEq Pid] in
/-- What is stored through a directory is read back, and nothing else changes. -/
theorem Sound.storeUser_contents {address : ℕ} {bytes : List UInt8} (hsound : Sound ps dirs)
    (hdir : dirs pid = some pdir) (hbound : address + bytes.length ≤ wordCount)
    (hhigh : pageStart ≤ address)
    (hstore : storeUser (some pdir) ps address bytes = .ok ps') :
    loadUser (some pdir) ps' address bytes.length = .ok bytes ∧
      SameBytes (inRange pid address (address + bytes.length)) ps ps' dirs := by
  induction bytes generalizing ps address with
  | nil =>
      obtain rfl := Except.ok.inj hstore
      exact ⟨rfl, .refl _ _ _⟩
  | cons byte bytes ih =>
      rw [List.length_cons] at hbound
      have hword : address < wordCount := by omega
      rw [storeUser, Nat.mod_eq_of_lt hword, bind_eq_ok] at hstore
      obtain ⟨ps₁, hfirst, hrest⟩ := hstore
      cases hwalk : walk ps.phys pdir address with
      | none => simp [storeByte, translate, hwalk] at hfirst
      | some word =>
          simp only [storeByte, translate, hwalk, ok_bind, pure_eq_ok] at hfirst
          obtain rfl := Except.ok.inj hfirst
          have hpoke := hsound.poke hdir hword hwalk byte
          obtain ⟨hread, hsame⟩ := hsound.poke_contents hdir hword hhigh hwalk byte
          obtain ⟨hreads, hsames⟩ := ih hpoke.sound (by omega) (by omega) hrest
          constructor
          · rw [List.length_cons, loadUser, Nat.mod_eq_of_lt hword,
              hsames pid pdir address hdir hword fun hin => absurd hin.2.1 (by omega), hread,
              ok_bind, hreads]
            rfl
          · refine (hsame.trans hsames).mono ?_
            rw [List.length_cons]
            rintro other x (⟨rfl, rfl⟩ | ⟨rfl, hlow, hhigh⟩)
            · exact ⟨rfl, le_rfl, by omega⟩
            · exact ⟨rfl, by omega, by omega⟩

omit [DecidableEq Pid] in
/-- Stores to mapped pages succeed. -/
theorem Sound.exists_storeUser {address : ℕ} {bytes : List UInt8} (hsound : Sound ps dirs)
    (hdir : dirs pid = some pdir) (hbound : address + bytes.length ≤ wordCount)
    (hmapped : ∀ x, address ≤ x → x < address + bytes.length →
      Mapped ps dirs pid (x / pageSize)) :
    ∃ ps', storeUser (some pdir) ps address bytes = .ok ps' := by
  induction bytes generalizing ps address with
  | nil => exact ⟨ps, rfl⟩
  | cons byte bytes ih =>
      rw [List.length_cons] at hbound hmapped
      have hword : address < wordCount := by omega
      obtain ⟨page, -, dir, hdir', -, hpresent, -⟩ := hmapped address le_rfl (by omega)
      obtain rfl : pdir = dir := by simpa [hdir] using hdir'
      have hwalk : walk ps.phys pdir address =
          some (entry ps.phys pdir (address / pageSize)) := by
        rw [walk_eq, if_pos hpresent]
      have hpoke := hsound.poke hdir hword hwalk byte
      have hnext : address + 1 + bytes.length ≤ wordCount := by omega
      obtain ⟨ps', hrest⟩ := ih hpoke.sound hnext fun x hlow hhigh =>
        (hpoke.mapped pid _).mpr (hmapped x (by omega) (by omega))
      refine ⟨ps', ?_⟩
      rw [storeUser, Nat.mod_eq_of_lt hword]
      simp only [storeByte, translate, hwalk, ok_bind, pure_eq_ok]
      exact hrest

omit [DecidableEq Pid] in
/-- A store to a page that is not mapped fails. -/
theorem Sound.storeUser_unmapped {address : ℕ} {bytes : List UInt8} (hsound : Sound ps dirs)
    (hdir : dirs pid = some pdir) (hbound : address < wordCount) (hhigh : pageStart ≤ address)
    (hunmapped : ¬ Mapped ps dirs pid (address / pageSize)) (hne : bytes ≠ []) :
    storeUser (some pdir) ps address bytes = .error .unmapped := by
  obtain ⟨byte, bytes, rfl⟩ := List.exists_cons_of_ne_nil hne
  have hwalk : walk ps.phys pdir address = none := by
    cases hwalk : walk ps.phys pdir address with
    | none => rfl
    | some word =>
        have hheld := holds_of_walk hdir hbound hwalk
        refine absurd ⟨_, ?_, hheld⟩ hunmapped
        by_contra hlow
        obtain ⟨other, pageno, hsame, hbelow⟩ :=
          hsound.2.identity _ _ hheld (Nat.lt_of_not_le hlow)
        obtain ⟨-, rfl⟩ := Holder.backing.inj hsame
        simp only [pageStart, pageSize] at *
        omega
  rw [storeUser, Nat.mod_eq_of_lt hbound]
  simp [storeByte, translate, hwalk]

/-! ## Isolation -/

section Isolation

variable {writer reader : Pid} {address : ℕ}

/-- A process stores through its directory, in user mode or in a system call. -/
inductive Stored (dirs : Pid → Option ℕ) (writer : Pid) (ps : Pages) : Pages → Prop
  | user {pdir address : ℕ} (byte : UInt8) : dirs writer = some pdir → address < wordCount →
      Stored dirs writer ps (userStore ps pdir address byte)
  | kernel {pdir : ℕ} {ps' : Pages} (address : ℕ) (bytes : List UInt8) :
      dirs writer = some pdir → storeUser (some pdir) ps address bytes = .ok ps' →
      Stored dirs writer ps ps'

/-- Any processes store, in any order. -/
inductive StoredAll (dirs : Pid → Option ℕ) (ps : Pages) : Pages → Prop
  | refl : StoredAll dirs ps ps
  | step {writer : Pid} {ps₁ ps' : Pages} : StoredAll dirs ps ps₁ → Stored dirs writer ps₁ ps' →
      StoredAll dirs ps ps'

omit [DecidableEq Pid] in
theorem Stored.refilled (hsound : Sound ps dirs) (hstored : Stored dirs writer ps ps') :
    Refilled ps ps' dirs := by
  cases hstored with
  | user byte hdir hbound => exact hsound.userStore hdir hbound byte
  | kernel address bytes hdir hstore =>
      have hrefilled := ensures_of_eq_ok (hsound.storeBytes hdir address bytes) hstore
      exact hrefilled

omit [DecidableEq Pid] in
theorem StoredAll.refilled (hsound : Sound ps dirs) (hstored : StoredAll dirs ps ps') :
    Refilled ps ps' dirs := by
  induction hstored with
  | refl => exact Refilled.refl hsound
  | step _ hlast ih => exact ih.trans (hlast.refilled ih.sound)

omit [DecidableEq Pid] in
/-- No other process has access to the page that backs a logical page. -/
theorem Sound.poke_isolated (hsound : Sound ps dirs) {writerDir target word : ℕ}
    (hwriter : dirs writer = some writerDir) (hdir : dirs reader = some pdir)
    (hne : writer ≠ reader) (hbound : target < wordCount)
    (hwalk : walk ps.phys writerDir target = some word)
    (hmapped : Mapped ps dirs reader (address / pageSize)) (byte : UInt8) :
    loadByte (some pdir) { ps with
      phys := Function.update ps.phys (frameAddress word + target % pageSize) byte } address =
      loadByte (some pdir) ps address := by
  obtain ⟨page, hstart, hheld⟩ := hmapped
  have htarget := holds_of_walk hwriter hbound hwalk
  have hapart : frameAddress word ≠ page := by
    rintro rfl
    exact hne (hsound.backing_unique hheld hstart htarget).1
  have hheld' := ((hsound.poke hwriter hbound hwalk byte).holds _ _).mpr hheld
  have haligned := (hsound.payload_of_backing hheld).aligned
  have haligned' := (hsound.payload_of_backing htarget).aligned
  rw [loadByte_of_holds hdir hheld, loadByte_of_holds hdir hheld']
  refine congrArg Except.ok (Function.update_of_ne ?_ _ _)
  simp only [pageSize] at *
  omega

omit [DecidableEq Pid] in
/-- What one process stores does not change what another one reads. -/
theorem Stored.isolated (hsound : Sound ps dirs) (hstored : Stored dirs writer ps ps')
    (hne : writer ≠ reader) (hdir : dirs reader = some pdir)
    (hmapped : Mapped ps dirs reader (address / pageSize)) :
    loadByte (some pdir) ps' address = loadByte (some pdir) ps address := by
  cases hstored with
  | user byte hwriter hbound =>
      rw [userStore]
      split
      next word hwalk =>
        split
        · exact hsound.poke_isolated hwriter hdir hne hbound hwalk hmapped byte
        · rfl
      next => rfl
  | @kernel writerDir _ target bytes hwriter hstore =>
      induction bytes generalizing ps target with
      | nil =>
          obtain rfl := Except.ok.inj hstore
          rfl
      | cons byte bytes ih =>
          have hbound : target % wordCount < wordCount := Nat.mod_lt _ (by decide)
          rw [storeUser, bind_eq_ok] at hstore
          obtain ⟨ps₁, hfirst, hrest⟩ := hstore
          cases hwalk : walk ps.phys writerDir (target % wordCount) with
          | none => simp [storeByte, translate, hwalk] at hfirst
          | some word =>
              simp only [storeByte, translate, hwalk, ok_bind, pure_eq_ok] at hfirst
              obtain rfl := Except.ok.inj hfirst
              have hpoke := hsound.poke hwriter hbound hwalk byte
              rw [ih hpoke.sound ((hpoke.mapped reader _).mpr hmapped) _ hrest]
              exact hsound.poke_isolated hwriter hdir hne hbound hwalk hmapped byte

end Isolation

/-! ## Copies of segments -/

/-- Since `ps`, only one process has changed, and it reads what another one read before. -/
structure Copied (dirs : Pid → Option ℕ) (source pid : Pid) (srcDir pdir : ℕ) (ps ps' : Pages)
    (area : ℕ → Prop) : Prop where
  sound : Sound ps' dirs
  same : SameBytes (fun other _ => other = pid) ps ps' dirs
  copied : ∀ address, area address →
    loadByte (some pdir) ps' address = loadByte (some srcDir) ps address

theorem Copied.segment {source : Pid} {srcDir first limit : ℕ} {ps₁ : Pages} {area : ℕ → Prop}
    (hcopied : Copied dirs source pid srcDir pdir ps ps₁ area) (hdir : dirs pid = some pdir)
    (hsource : dirs source = some srcDir) (hne : source ≠ pid)
    (harea : ∀ address, area address → address < wordCount) (hfirst : first % pageSize = 0)
    (hlimit : limit % pageSize = 0) (hbound : limit ≤ wordCount)
    (hcopy : mapAndCopy ps₁ srcDir pdir first limit = .ok ps') :
    Copied dirs source pid srcDir pdir ps ps'
      fun address => area address ∨ (first ≤ address ∧ address < limit) := by
  obtain ⟨hsame, hread⟩ :=
    hcopied.sound.mapAndCopy_contents hdir hsource hne hfirst hlimit hbound hcopy
  have hsource₁ : ∀ address, address < wordCount →
      loadByte (some srcDir) ps₁ address = loadByte (some srcDir) ps address :=
    fun address haddress => hcopied.same source srcDir address hsource haddress hne
  refine ⟨?_, ?_, ?_⟩
  · exact (ensures_of_eq_ok (hcopied.sound.copySegment hdir hsource hfirst hlimit hbound
      fun h : False => h.elim) hcopy).1.sound
  · exact (hcopied.same.trans hsame).mono fun _ _ h => h.elim id And.left
  · intro address haddress
    by_cases hlast : first ≤ address ∧ address < limit
    · rw [hread address hlast.1 hlast.2, hsource₁ address (by omega)]
    · have hearlier := haddress.resolve_right hlast
      rw [hsame pid pdir address hdir (harea address hearlier) fun h => hlast h.2]
      exact hcopied.copied address hearlier

end Rhythmos.Paging
