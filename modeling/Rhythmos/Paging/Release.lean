import Rhythmos.Paging.Segments

/-!
# Directories, releases and stores through a directory

A new directory is an allocated page of zeros.  Unmapping frees the backing
page of each logical page of a segment, and `free_page_dir` frees the tables
and the directory; what was still mapped then becomes loose.  Stores through a
directory only reach pages it maps.
-/

namespace Rhythmos.Paging

open ByteMemory Libc Fallible

variable {Pid : Type*} [DecidableEq Pid] {ps : Pages} {dirs : Pid → Option ℕ}
variable {pid : Pid} {pdir : ℕ}

/-- `alloc_page` for the directory of a new process. -/
theorem Sound.newDirectory (hsound : Sound ps dirs) (hnone : dirs pid = none) :
    Ensures (Short ps 1) (allocPage ps) fun result =>
      let dirs' := Function.update dirs pid (some result.2)
      Sound result.1 dirs' ∧
        (∀ other pageno, Mapped result.1 dirs' other pageno ↔ Mapped ps dirs other pageno) ∧
        (∀ page, Loose result.1 dirs' page → Loose ps dirs page) ∧
        result.1.pageEnd ≤ ps.pageEnd + pageSize * 1 ∧
        (∀ touched, SameEntries touched ps.phys result.1.phys dirs) ∧
        ∀ pageno < 1048576, entry result.1.phys result.2 pageno = 0 := by
  refine ensures_mono hsound.alloc ?_ ?_
  · rintro fault ⟨hfault, hlong⟩
    exact ⟨hfault, by simpa using hlong⟩
  · rintro ⟨ps₁, page⟩ ⟨hsound₁, hloose₁, hnew, hholds₁, hlooses₁, hzero, hend, hentries₁⟩
    simp only at *
    obtain ⟨hsound₂, hholds₂, hlooses₂, hempty⟩ := hsound₁.adopt hnone hloose₁ hzero
    refine ⟨hsound₂, ?_, ?_, by simpa using hend, hentries₁, hempty⟩
    · intro other pageno
      simp only [Mapped, hholds₂, hholds₁]
      simp
    · intro x hx
      obtain ⟨hne, hx⟩ := (hlooses₂ x).mp hx
      exact ((hlooses₁ x).mp hx).resolve_left hne

/-! ## Unmapping -/

/-- The logical pages in `range` of one process were unmapped and their pages
freed. -/
structure Shrunk (ps ps' : Pages) (dirs : Pid → Option ℕ) (pid : Pid) (range : ℕ → Prop) :
    Prop where
  sound : Sound ps' dirs
  mapped : ∀ other pageno, Mapped ps' dirs other pageno ↔
    Mapped ps dirs other pageno ∧ ¬ (other = pid ∧ range pageno)
  loose : ∀ page, Loose ps' dirs page → Loose ps dirs page
  pageEnd_eq : ps'.pageEnd = ps.pageEnd
  entries : SameEntries (fun other pageno => other = pid ∧ range pageno) ps.phys ps'.phys dirs

omit [DecidableEq Pid] in
theorem Shrunk.trans {ps₁ ps₂ : Pages} {left right : ℕ → Prop}
    (hfirst : Shrunk ps ps₁ dirs pid left) (hsecond : Shrunk ps₁ ps₂ dirs pid right) :
    Shrunk ps ps₂ dirs pid (fun pageno => left pageno ∨ right pageno) where
  sound := hsecond.sound
  mapped := by
    intro other pageno
    rw [hsecond.mapped, hfirst.mapped]
    tauto
  loose := fun page hpage => hfirst.loose page (hsecond.loose page hpage)
  pageEnd_eq := hsecond.pageEnd_eq.trans hfirst.pageEnd_eq
  entries := (hfirst.entries.trans hsecond.entries).mono (by tauto)

omit [DecidableEq Pid] in
theorem Shrunk.congr {ps' : Pages} {range range' : ℕ → Prop}
    (hshrunk : Shrunk ps ps' dirs pid range) (hrange : ∀ pageno, range' pageno ↔ range pageno) :
    Shrunk ps ps' dirs pid range' where
  sound := hshrunk.sound
  mapped := by
    intro other pageno
    rw [hshrunk.mapped, hrange]
  loose := hshrunk.loose
  pageEnd_eq := hshrunk.pageEnd_eq
  entries := hshrunk.entries.mono fun _ pageno h => ⟨h.1, (hrange pageno).mpr h.2⟩

theorem unmapAndFreePage_absent {logical : ℕ} (hlogical : logical % pageSize = 0)
    (habsent : isPresent (entry ps.phys pdir (logical / pageSize)) = false) :
    unmapAndFreePage ps pdir logical = .ok ps := by
  simp only [unmapAndFreePage, check, hlogical, if_true, ok_bind, pure_eq_ok]
  split
  · next htable =>
      have hentry : entry ps.phys pdir (logical / pageSize) = load32 ps.phys
          (frameAddress (load32 ps.phys (pdir + 4 * (logical / pageSize / 1024))) +
            4 * (logical / pageSize % 1024)) := by
        simp [entry, word, htable]
      rw [← hentry, habsent]
      simp
  · rfl

theorem Sound.unmap (hsound : Sound ps dirs) (hdir : dirs pid = some pdir) {logical : ℕ}
    (hlogical : logical % pageSize = 0) (hbound : logical < wordCount)
    (hhigh : 1536 ≤ logical / pageSize) :
    ∃ ps', unmapAndFreePage ps pdir logical = .ok ps' ∧
      Shrunk ps ps' dirs pid (· = logical / pageSize) := by
  have hpageno : logical / pageSize < 1048576 := by
    simp only [pageSize, wordCount] at *
    omega
  cases hentry : isPresent (entry ps.phys pdir (logical / pageSize)) with
  | false =>
      refine ⟨ps, unmapAndFreePage_absent hlogical hentry, hsound, ?_, fun _ h => h, rfl,
        fun _ _ _ _ _ _ => rfl⟩
      intro other pageno
      refine ⟨fun hmapped => ⟨hmapped, ?_⟩, fun h => h.1⟩
      rintro ⟨rfl, rfl⟩
      obtain ⟨page, -, pdir', hdir', -, hthere, -⟩ := hmapped
      obtain rfl : pdir = pdir' := by simpa [hdir] using hdir'
      rw [hentry] at hthere
      simp at hthere
  | true =>
      have htable := table_present hentry
      set page := frameAddress (entry ps.phys pdir (logical / pageSize)) with hpage
      have hheld : Holds ps.phys dirs (.backing pid (logical / pageSize)) page :=
        ⟨pdir, hdir, hpageno, hentry, rfl⟩
      have hstart : pageStart ≤ page := by
        by_contra hlow
        obtain ⟨other, pageno, hsame, hbelow⟩ :=
          hsound.2.identity _ _ hheld (Nat.lt_of_not_le hlow)
        simp only [Holder.backing.injEq] at hsame
        omega
      have hout := hsound.2.outstanding _ _ hheld hstart
      obtain ⟨hsame₀, hholds₀, hentries₀⟩ := hsound.tables.storeEntry hdir hpageno htable
        (show 0 % wordCount = 0 by simp)
      set table := frameAddress (word ps.phys pdir (logical / pageSize / 1024)) with htableEq
      set address := table + 4 * (logical / pageSize % 1024) with haddress
      have hlost : ∀ other x, Holds (store32 ps.phys address 0) dirs other x ↔
          ¬ (other = .backing pid (logical / pageSize)) ∧ Holds ps.phys dirs other x := by
        intro other x
        rw [hholds₀]
        simp
      obtain ⟨hsound₀, hloose₀⟩ := hsound.lose hsame₀ hlost
      have hloosePage : Loose { ps with phys := store32 ps.phys address 0 } dirs page :=
        (hloose₀ page).mpr (.inr ⟨_, rfl, hstart, hheld⟩)
      obtain ⟨ps', hfreed, hsound', hholds', hlooses', -, hend', hentries'⟩ :=
        hsound₀.free hloosePage
      refine ⟨ps', ?_, hsound', ?_, ?_, hend', ?_⟩
      · rw [hsound.tables.unmapAndFreePage_eq hdir hlogical hbound hsound.isPrivate trivial hentry]
        exact hfreed
      · intro other pageno
        simp only [Mapped, hholds', hlost, Holder.backing.injEq]
        constructor
        · rintro ⟨x, hx, hdiff, hbefore⟩
          exact ⟨⟨x, hx, hbefore⟩, hdiff⟩
        · rintro ⟨⟨x, hx, hbefore⟩, hdiff⟩
          exact ⟨x, hx, hdiff, hbefore⟩
      · intro x hx
        obtain ⟨hne, hx⟩ := (hlooses' x).mp hx
        rcases (hloose₀ x).mp hx with hbefore | ⟨other, rfl, -, hother⟩
        · exact hbefore
        · obtain ⟨pdir', hdir', -, -, hframe⟩ := hother
          obtain rfl : pdir = pdir' := by simpa [hdir] using hdir'
          exact absurd hframe.symm hne
      · intro other dir number hother hnumber hspared
        rw [hentries' (fun _ _ => False) other dir number hother hnumber id]
        exact (hentries₀ other dir number hother hnumber).trans (if_neg hspared)

theorem Sound.unmapSegment (hsound : Sound ps dirs) (hdir : dirs pid = some pdir)
    {first limit : ℕ} (hfirst : first % pageSize = 0) (hlow : pageStart ≤ first)
    (hlimit : limit ≤ wordCount) :
    ∃ ps', unmapRange ps pdir first limit = .ok ps' ∧
      Shrunk ps ps' dirs pid (pagesIn first limit) := by
  have hloop : Ensures (fun _ => False) (unmapRange ps pdir first limit) fun ps' =>
      Shrunk ps ps' dirs pid
        (fun pageno => ∃ addr ∈ pageAddresses first limit, pageno = addr / pageSize) := by
    apply ensures_foldlM (fun done ps₁ => Shrunk ps ps₁ dirs pid
      (fun pageno => ∃ addr ∈ done, pageno = addr / pageSize))
    · exact ⟨hsound, by simp, fun _ h => h, rfl, fun _ _ _ _ _ _ => rfl⟩
    · intro done addr rest ps₁ hitems hprior
      have haddr : addr ∈ pageAddresses first limit := by simp [hitems]
      have haligned := aligned_of_mem_pageAddresses hfirst haddr
      obtain ⟨i, hi, hlt⟩ := mem_pageAddresses haddr
      have hhigh : 1536 ≤ addr / pageSize := by
        simp only [pageSize, pageStart] at *
        omega
      obtain ⟨ps₂, hunmapped, hshrunk⟩ := hprior.sound.unmap hdir haligned (by omega) hhigh
      rw [hunmapped, ensures_ok]
      refine (hprior.trans hshrunk).congr fun pageno => ?_
      simp only [List.mem_append, List.mem_singleton]
      constructor
      · rintro ⟨other, hother | rfl, hnumber⟩
        · exact .inl ⟨other, hother, hnumber⟩
        · exact .inr hnumber
      · rintro (⟨other, hother, hnumber⟩ | hnumber)
        · exact ⟨other, .inl hother, hnumber⟩
        · exact ⟨addr, .inr rfl, hnumber⟩
  obtain ⟨ps', hrun, hshrunk⟩ := exists_ok_of_ensures hloop
  exact ⟨ps', hrun, hshrunk.congr fun pageno => (exists_pageAddress_iff hfirst).symm⟩

/-! ## Releasing a directory -/

/-- The pages of the tables of a directory, for the entries in a list. -/
def tablesOf (phys : Memory) (pdir : ℕ) (entries : List ℕ) (page : ℕ) : Prop :=
  ∃ dirindex ∈ entries, isPresent (word phys pdir dirindex) = true ∧
    frameAddress (word phys pdir dirindex) = page

/-- `free_page_dir` frees the tables and the directory.  Pages that were still
mapped become loose. -/
theorem Sound.freeDirectory (hsound : Sound ps dirs) (hdir : dirs pid = some pdir) :
    let dirs' := Function.update dirs pid none
    ∃ ps', freePageDir ps pdir = .ok ps' ∧ Sound ps' dirs' ∧
      (∀ other pageno, Mapped ps' dirs' other pageno ↔
        other ≠ pid ∧ Mapped ps dirs other pageno) ∧
      (∀ page, Loose ps' dirs' page → Loose ps dirs page ∨
        ∃ pageno, pageStart ≤ page ∧ Holds ps.phys dirs (.backing pid pageno) page) ∧
      ps'.pageEnd = ps.pageEnd ∧ ∀ touched, SameEntries touched ps.phys ps'.phys dirs' := by
  intro dirs'
  obtain ⟨hsound₀, hholds₀, hlooses₀⟩ := hsound.forget pid
  have hdirHeld : Holds ps.phys dirs (.directory pid) pdir := hdir
  have hdirStart := hsound.pageStart_le (hsound.2.directory_outstanding hdirHeld)
  have htables : ∀ dirindex page, dirindex < 1024 →
      isPresent (word ps.phys pdir dirindex) = true →
      frameAddress (word ps.phys pdir dirindex) = page →
      Holds ps.phys dirs (.table pid dirindex) page ∧ pageStart ≤ page := by
    intro dirindex page hindex hpresent hframe
    have hheld : Holds ps.phys dirs (.table pid dirindex) page :=
      ⟨pdir, hdir, hindex, hpresent, hframe⟩
    exact ⟨hheld, hsound.pageStart_le (hsound.2.table_outstanding hheld)⟩
  -- the loop keeps the words of the directory and frees one table after the other
  have hloop : Ensures (fun _ => False)
      ((List.range 1024).foldlM (fun ps dirindex => freeTable ps pdir dirindex) ps) fun ps₁ =>
        Sound ps₁ dirs' ∧ (∀ index < 1024, word ps₁.phys pdir index = word ps.phys pdir index) ∧
        (∀ holder page, Holds ps₁.phys dirs' holder page ↔ Holds ps.phys dirs' holder page) ∧
        (∀ page, Loose ps₁ dirs' page ↔ Loose ps dirs' page ∧
          ¬ tablesOf ps.phys pdir (List.range 1024) page) ∧
        ps₁.pageEnd = ps.pageEnd ∧ ∀ touched, SameEntries touched ps.phys ps₁.phys dirs' := by
    apply ensures_foldlM (fun done ps₁ => Sound ps₁ dirs' ∧
      (∀ index < 1024, word ps₁.phys pdir index = word ps.phys pdir index) ∧
      (∀ holder page, Holds ps₁.phys dirs' holder page ↔ Holds ps.phys dirs' holder page) ∧
      (∀ page, Loose ps₁ dirs' page ↔ Loose ps dirs' page ∧
        ¬ tablesOf ps.phys pdir done page) ∧
      ps₁.pageEnd = ps.pageEnd ∧ ∀ touched, SameEntries touched ps.phys ps₁.phys dirs')
    · refine ⟨hsound₀, fun _ _ => rfl, fun _ _ => Iff.rfl, ?_, rfl, fun _ _ _ _ _ _ _ => rfl⟩
      simp [tablesOf]
    · rintro done dirindex rest ps₁ hitems ⟨hsound₁, hwords₁, hholds₁, hlooses₁, hend₁, hentries₁⟩
      have hindex : dirindex < 1024 := by
        rw [← List.mem_range, hitems]
        simp
      have hsnoc : ∀ page, tablesOf ps.phys pdir (done ++ [dirindex]) page ↔
          tablesOf ps.phys pdir done page ∨ (isPresent (word ps.phys pdir dirindex) = true ∧
            frameAddress (word ps.phys pdir dirindex) = page) := by
        intro page
        simp only [tablesOf, List.mem_append, List.mem_singleton]
        constructor
        · rintro ⟨index, hmem | rfl, hrest⟩
          · exact .inl ⟨index, hmem, hrest⟩
          · exact .inr hrest
        · rintro (⟨index, hmem, hrest⟩ | hrest)
          · exact ⟨index, .inl hmem, hrest⟩
          · exact ⟨dirindex, .inr rfl, hrest⟩
      have hload : load32 ps₁.phys (pdir + 4 * dirindex) = word ps.phys pdir dirindex :=
        hwords₁ dirindex hindex
      rw [freeTable, hload]
      by_cases hpresent : isPresent (word ps.phys pdir dirindex) = true
      · rw [if_pos hpresent]
        obtain ⟨hheld, hstart⟩ := htables dirindex _ hindex hpresent rfl
        have hfresh : ¬ tablesOf ps.phys pdir done
            (frameAddress (word ps.phys pdir dirindex)) := by
          rintro ⟨earlier, hmem, hthere, hframe⟩
          have hearlier : earlier < 1024 := by
            rw [← List.mem_range, hitems]
            simp [hmem]
          obtain ⟨hheld', -⟩ := htables earlier _ hearlier hthere hframe
          have hsame := hsound.2.unique _ _ _ hheld' hheld hstart
          simp only [Holder.table.injEq, true_and] at hsame
          have hnodup : (List.range 1024).Nodup := List.nodup_range
          rw [hitems, List.nodup_append] at hnodup
          exact hnodup.2.2 earlier hmem dirindex (by simp) hsame
        have hloose : Loose ps₁ dirs' (frameAddress (word ps.phys pdir dirindex)) :=
          (hlooses₁ _).mpr ⟨(hlooses₀ _).mpr (.inr ⟨_, rfl, hstart, hheld⟩), hfresh⟩
        obtain ⟨ps₂, hfreed, hsound₂, hholds₂, hlooses₂, hsame₂, hend₂, hentries₂⟩ :=
          hsound₁.free hloose
        rw [hfreed, ensures_ok]
        refine ⟨hsound₂, ?_, ?_, ?_, hend₂.trans hend₁, fun touched =>
          ((hentries₁ touched).trans (hentries₂ touched)).mono fun _ _ h => h.elim id id⟩
        · intro index hlt
          rw [hsame₂ pdir (hsound.directory_aligned hdir) ?_ index hlt, hwords₁ index hlt]
          intro hsame
          rw [← hsame] at hheld
          have := hsound.2.unique _ _ _ hdirHeld hheld hdirStart
          simp at this
        · intro holder page
          rw [hholds₂, hholds₁]
        · intro page
          rw [hlooses₂, hlooses₁, hsnoc]
          simp only [hpresent, true_and, ne_eq, not_or]
          exact ⟨fun h => ⟨h.2.1, h.2.2, fun hsame => h.1 hsame.symm⟩,
            fun h => ⟨fun hsame => h.2.2 hsame.symm, h.1, h.2.1⟩⟩
      · rw [if_neg hpresent, ensures_ok]
        refine ⟨hsound₁, hwords₁, hholds₁, ?_, hend₁, hentries₁⟩
        intro page
        rw [hlooses₁, hsnoc]
        simp [hpresent]
  cases hresult :
      (List.range 1024).foldlM (fun ps dirindex => freeTable ps pdir dirindex) ps with
  | error fault =>
      rw [hresult, ensures_error] at hloop
      exact hloop.elim
  | ok ps₁ =>
      rw [hresult, ensures_ok] at hloop
      obtain ⟨hsound₁, -, hholds₁, hlooses₁, hend₁, hentries₁⟩ := hloop
      have hnotTable : ¬ tablesOf ps.phys pdir (List.range 1024) pdir := by
        rintro ⟨dirindex, hmem, hpresent, hframe⟩
        obtain ⟨hheld, -⟩ := htables dirindex pdir (List.mem_range.mp hmem) hpresent hframe
        have := hsound.2.unique _ _ _ hdirHeld hheld hdirStart
        simp at this
      have hloose : Loose ps₁ dirs' pdir :=
        (hlooses₁ pdir).mpr ⟨(hlooses₀ pdir).mpr (.inr ⟨_, rfl, hdirStart, hdirHeld⟩), hnotTable⟩
      obtain ⟨ps₂, hfreed, hsound₂, hholds₂, hlooses₂, -, hend₂, hentries₂⟩ :=
        hsound₁.free hloose
      refine ⟨ps₂, ?_, hsound₂, ?_, ?_, hend₂.trans hend₁, fun touched =>
        ((hentries₁ touched).trans (hentries₂ touched)).mono fun _ _ h => h.elim id id⟩
      · rw [freePageDir, hresult, ok_bind, hfreed]
      · intro other pageno
        simp only [Mapped, hholds₂, hholds₁]
        constructor
        · rintro ⟨page, hstart, hheld⟩
          obtain ⟨hne, hheld⟩ := (hholds₀ _ _).mp hheld
          exact ⟨hne, page, hstart, hheld⟩
        · rintro ⟨hne, page, hstart, hheld⟩
          exact ⟨page, hstart, (hholds₀ _ _).mpr ⟨hne, hheld⟩⟩
      · intro page hpage
        obtain ⟨hne, hpage⟩ := (hlooses₂ page).mp hpage
        obtain ⟨hpage, hnot⟩ := (hlooses₁ page).mp hpage
        rcases (hlooses₀ page).mp hpage with hloose | ⟨holder, hpid, hstart, hheld⟩
        · exact .inl hloose
        · cases holder with
          | directory other =>
              obtain rfl : other = pid := hpid
              have hsame : dirs other = some page := hheld
              rw [hdir, Option.some.injEq] at hsame
              exact absurd hsame.symm hne
          | table other dirindex =>
              obtain rfl : other = pid := hpid
              obtain ⟨pdir', hdir', hindex, hpresent, hframe⟩ := hheld
              obtain rfl : pdir = pdir' := by simpa [hdir] using hdir'
              exact absurd ⟨dirindex, List.mem_range.mpr hindex, hpresent, hframe⟩ hnot
          | backing other pageno =>
              obtain rfl : other = pid := hpid
              exact .inr ⟨pageno, hstart, hheld⟩

/-! ## Stores through a directory -/

omit [DecidableEq Pid] in
theorem holds_of_walk (hdir : dirs pid = some pdir) {logical word : ℕ}
    (hbound : logical < wordCount) (hwalk : walk ps.phys pdir logical = some word) :
    Holds ps.phys dirs (.backing pid (logical / pageSize)) (frameAddress word) := by
  have hpageno : logical / pageSize < 1048576 := by
    simp only [pageSize, wordCount] at *
    omega
  simp only [walk] at hwalk
  split at hwalk
  · next htable =>
      split at hwalk
      · next hpage =>
          simp only [Option.some.injEq] at hwalk
          subst hwalk
          have hentry : entry ps.phys pdir (logical / pageSize) = load32 ps.phys
              (frameAddress (load32 ps.phys (pdir + 4 * (logical / pageSize / 1024))) +
                4 * (logical / pageSize % 1024)) := by
            simp [entry, Paging.word, htable]
          refine ⟨pdir, hdir, hpageno, ?_, ?_⟩
          · rw [hentry]
            exact hpage
          · rw [hentry]
      · simp at hwalk
  · simp at hwalk

omit [DecidableEq Pid] in
/-- A store to a byte of a mapped page. -/
theorem Sound.poke (hsound : Sound ps dirs) (hdir : dirs pid = some pdir) {logical word : ℕ}
    (hbound : logical < wordCount) (hwalk : walk ps.phys pdir logical = some word)
    (byte : UInt8) :
    Refilled ps { ps with
      phys := Function.update ps.phys (frameAddress word + logical % pageSize) byte } dirs := by
  refine hsound.refillBacking (holds_of_walk hdir hbound hwalk) ?_
  intro x hx
  have hlt : logical % pageSize < pageSize := Nat.mod_lt _ (by decide)
  exact Function.update_of_ne (by omega) _ _

omit [DecidableEq Pid] in
theorem Sound.storeBytes (hsound : Sound ps dirs) (hdir : dirs pid = some pdir) (address : ℕ)
    (bytes : List UInt8) :
    Ensures (· = .unmapped) (storeUser (some pdir) ps address bytes) fun ps' =>
      Refilled ps ps' dirs := by
  induction bytes generalizing ps address with
  | nil =>
      rw [storeUser, ensures_ok]
      exact Refilled.refl hsound
  | cons byte bytes ih =>
      rw [storeUser]
      have hbound : address % wordCount < wordCount := Nat.mod_lt _ (by decide)
      cases hwalk : walk ps.phys pdir (address % wordCount) with
      | none => simp [storeByte, translate, hwalk]
      | some word =>
          have hpoke := hsound.poke hdir hbound hwalk byte
          simp only [storeByte, translate, hwalk, ok_bind, pure_eq_ok]
          exact ensures_weaken (ih hpoke.sound (address + 1)) fun ps' hrest => hpoke.trans hrest

omit [DecidableEq Pid] in
theorem Sound.userStore (hsound : Sound ps dirs) (hdir : dirs pid = some pdir) {address : ℕ}
    (hbound : address < wordCount) (byte : UInt8) :
    Refilled ps (userStore ps pdir address byte) dirs := by
  rw [Paging.userStore]
  split
  · next word hwalk =>
      split
      · exact hsound.poke hdir hbound hwalk byte
      · exact Refilled.refl hsound
  · exact Refilled.refl hsound

end Rhythmos.Paging
