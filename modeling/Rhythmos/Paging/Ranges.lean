import Rhythmos.Paging.Mapping

/-!
# Mapping and unmapping ranges of pages

The loops of `page.c`, `map_and_copy` and `syscall_execve`.  `Extended` is the
effect of code that maps new pages for one process, `Shrunk` that of code that
unmaps and frees pages; both compose along a loop.
-/

namespace Rhythmos.Paging

open ByteMemory Libc Fallible

variable {Pid : Type*} [DecidableEq Pid] {ps : Pages} {dirs : Pid → Option ℕ}
variable {pid : Pid} {pdir : ℕ}

/-- The logical pages in `range` of one process were mapped to new pages, at
most `count` pages were handed out for it, and no page became loose unless a
mapping was overwritten. -/
structure Extended (ps ps' : Pages) (dirs : Pid → Option ℕ) (pid : Pid) (range : ℕ → Prop)
    (count : ℕ) : Prop where
  sound : Sound ps' dirs
  mapped : ∀ other pageno, Mapped ps' dirs other pageno ↔
    Mapped ps dirs other pageno ∨ (other = pid ∧ range pageno)
  loose : (∀ pageno, range pageno → ¬ Mapped ps dirs pid pageno) →
    ∀ page, Loose ps' dirs page → Loose ps dirs page
  pageEnd_le : ps'.pageEnd ≤ ps.pageEnd + pageSize * count

/-- The entries of one process for the pages in `touched` were written, with or
without access from user mode. -/
structure Granted (ps ps' : Pages) (dirs : Pid → Option ℕ) (pid : Pid) (touched : ℕ → Prop)
    (access : ℕ) : Prop where
  same : SameEntries (fun other pageno => other = pid ∧ touched pageno) ps.phys ps'.phys dirs
  access : ∀ pdir pageno, dirs pid = some pdir → pageno < 1048576 → touched pageno →
    entry ps'.phys pdir pageno &&& pageUser = access

omit [DecidableEq Pid] in
theorem Granted.trans {ps₁ ps₂ : Pages} {left right : ℕ → Prop} {access : ℕ}
    (hfirst : Granted ps ps₁ dirs pid left access)
    (hsecond : Granted ps₁ ps₂ dirs pid right access) :
    Granted ps ps₂ dirs pid (fun pageno => left pageno ∨ right pageno) access where
  same := (hfirst.same.trans hsecond.same).mono (by tauto)
  access := by
    intro pdir pageno hdir hpageno htouched
    by_cases hright : right pageno
    · exact hsecond.access pdir pageno hdir hpageno hright
    · rw [hsecond.same pid pdir pageno hdir hpageno fun h => hright h.2]
      exact hfirst.access pdir pageno hdir hpageno (htouched.resolve_right hright)

omit [DecidableEq Pid] in
/-- Steps before that leave all entries alone. -/
theorem Granted.after {ps₁ ps₂ : Pages} {touched : ℕ → Prop} {access : ℕ}
    (hgranted : Granted ps₁ ps₂ dirs pid touched access)
    (hbefore : ∀ touched, SameEntries touched ps.phys ps₁.phys dirs) :
    Granted ps ps₂ dirs pid touched access where
  same := ((hbefore fun _ _ => False).trans hgranted.same).mono fun _ _ h => h.resolve_left id
  access := hgranted.access

omit [DecidableEq Pid] in
/-- Steps after that leave all entries alone. -/
theorem Granted.before {ps₁ ps₂ : Pages} {touched : ℕ → Prop} {access : ℕ}
    (hgranted : Granted ps ps₁ dirs pid touched access)
    (hafter : ∀ touched, SameEntries touched ps₁.phys ps₂.phys dirs) :
    Granted ps ps₂ dirs pid touched access where
  same := (hgranted.same.trans (hafter fun _ _ => False)).mono fun _ _ h => h.resolve_right id
  access pdir pageno hdir hpageno htouched := by
    rw [hafter (fun _ _ => False) pid pdir pageno hdir hpageno id]
    exact hgranted.access pdir pageno hdir hpageno htouched

omit [DecidableEq Pid] in
theorem Granted.congr {ps' : Pages} {touched touched' : ℕ → Prop} {access : ℕ}
    (hgranted : Granted ps ps' dirs pid touched access)
    (htouched : ∀ pageno, touched' pageno ↔ touched pageno) :
    Granted ps ps' dirs pid touched' access where
  same := hgranted.same.mono fun _ pageno h => ⟨h.1, (htouched pageno).mpr h.2⟩
  access pdir pageno hdir hpageno h :=
    hgranted.access pdir pageno hdir hpageno ((htouched pageno).mp h)

omit [DecidableEq Pid] in
theorem Extended.refl (hsound : Sound ps dirs) {range : ℕ → Prop}
    (hempty : ∀ pageno, ¬ range pageno)
    (count : ℕ) : Extended ps ps dirs pid range count where
  sound := hsound
  mapped := by simp [hempty]
  loose := fun _ _ h => h
  pageEnd_le := Nat.le_add_right _ _

omit [DecidableEq Pid] in
theorem Extended.trans {ps₁ ps₂ : Pages} {left right : ℕ → Prop} {count count' : ℕ}
    (hfirst : Extended ps ps₁ dirs pid left count)
    (hsecond : Extended ps₁ ps₂ dirs pid right count')
    (hdisjoint : ∀ pageno, left pageno → ¬ right pageno) :
    Extended ps ps₂ dirs pid (fun pageno => left pageno ∨ right pageno) (count + count') where
  sound := hsecond.sound
  mapped := by
    intro other pageno
    rw [hsecond.mapped, hfirst.mapped]
    tauto
  loose := by
    intro hunmapped page hpage
    refine hfirst.loose (fun pageno hleft => hunmapped pageno (.inl hleft)) page ?_
    refine hsecond.loose ?_ page hpage
    intro pageno hright hmapped
    rcases (hfirst.mapped pid pageno).mp hmapped with hbefore | ⟨-, hleft⟩
    · exact hunmapped pageno (.inr hright) hbefore
    · exact hdisjoint pageno hleft hright
  pageEnd_le := by
    have hleft := hfirst.pageEnd_le
    have hright := hsecond.pageEnd_le
    rw [Nat.mul_add]
    omega

omit [DecidableEq Pid] in
theorem Extended.congr {ps' : Pages} {range range' : ℕ → Prop} {count count' : ℕ}
    (hext : Extended ps ps' dirs pid range count) (hrange : ∀ pageno, range' pageno ↔ range pageno)
    (hcount : count ≤ count') : Extended ps ps' dirs pid range' count' where
  sound := hext.sound
  mapped := by
    intro other pageno
    rw [hext.mapped, hrange]
  loose := fun hunmapped =>
    hext.loose fun pageno hmem => hunmapped pageno ((hrange pageno).mpr hmem)
  pageEnd_le := by
    have hend := hext.pageEnd_le
    have hmul : pageSize * count ≤ pageSize * count' := Nat.mul_le_mul_left _ hcount
    omega

omit [DecidableEq Pid] in
/-- A loop whose rounds each extend the mapping by disjoint sets of pages, or fail
in some other way. -/
theorem Sound.extendLoopOr {round : Pages → ℕ → Except PageFault Pages} {items : List ℕ}
    (covers touches : ℕ → ℕ → Prop) {each access : ℕ} {other : PageFault → Prop}
    (hsound : Sound ps dirs)
    (hdisjoint : items.Pairwise fun left right => ∀ pageno, covers left pageno →
      ¬ covers right pageno)
    (hround : ∀ ps₁ done item rest, items = done ++ item :: rest →
      Extended ps ps₁ dirs pid (fun pageno => ∃ item ∈ done, covers item pageno)
        (each * done.length) →
      Ensures (fun fault => Short ps₁ each fault ∨ other fault) (round ps₁ item) fun ps₂ =>
        Extended ps₁ ps₂ dirs pid (covers item) each ∧
          Granted ps₁ ps₂ dirs pid (touches item) access) :
    Ensures (fun fault => Short ps (each * items.length) fault ∨ other fault)
      (items.foldlM round ps) fun ps' =>
        Extended ps ps' dirs pid (fun pageno => ∃ item ∈ items, covers item pageno)
            (each * items.length) ∧
          Granted ps ps' dirs pid (fun pageno => ∃ item ∈ items, touches item pageno) access := by
  have hsnoc : ∀ (relation : ℕ → ℕ → Prop) (done : List ℕ) (item pageno : ℕ),
      (∃ x ∈ done ++ [item], relation x pageno) ↔
        (∃ x ∈ done, relation x pageno) ∨ relation item pageno := by
    intro relation done item pageno
    simp [or_and_right, exists_or]
  apply ensures_foldlM (fun done ps₁ => Extended ps ps₁ dirs pid
      (fun pageno => ∃ item ∈ done, covers item pageno) (each * done.length) ∧
    Granted ps ps₁ dirs pid (fun pageno => ∃ item ∈ done, touches item pageno) access)
  · exact ⟨Extended.refl hsound (by simp) _, fun _ _ _ _ _ _ => rfl, by simp⟩
  · rintro done item rest ps₁ hitems ⟨hprior, hgranted⟩
    refine ensures_mono (hround ps₁ done item rest hitems hprior) ?_ ?_
    · rintro fault (hshort | hother)
      · refine .inl (hshort.mono _ hprior.pageEnd_le ?_)
        rw [hitems, List.length_append, List.length_cons, ← Nat.mul_succ]
        exact Nat.mul_le_mul_left _ (by omega)
      · exact .inr hother
    · rintro ps₂ ⟨hext, hgranted'⟩
      have hnew : ∀ pageno, (∃ item ∈ done, covers item pageno) → ¬ covers item pageno := by
        rintro pageno ⟨earlier, hearlier, hcovers⟩
        rw [hitems, List.pairwise_append] at hdisjoint
        exact hdisjoint.2.2 earlier hearlier item (by simp) pageno hcovers
      refine ⟨(hprior.trans hext hnew).congr (hsnoc covers done item) ?_,
        (hgranted.trans hgranted').congr (hsnoc touches done item)⟩
      simp [Nat.mul_add]

omit [DecidableEq Pid] in
/-- A loop whose rounds each extend the mapping by disjoint sets of pages. -/
theorem Sound.extendLoop {round : Pages → ℕ → Except PageFault Pages} {items : List ℕ}
    (covers touches : ℕ → ℕ → Prop) {each access : ℕ} (hsound : Sound ps dirs)
    (hdisjoint : items.Pairwise fun left right => ∀ pageno, covers left pageno →
      ¬ covers right pageno)
    (hround : ∀ ps₁ done item rest, items = done ++ item :: rest →
      Extended ps ps₁ dirs pid (fun pageno => ∃ item ∈ done, covers item pageno)
        (each * done.length) →
      Ensures (Short ps₁ each) (round ps₁ item) fun ps₂ =>
        Extended ps₁ ps₂ dirs pid (covers item) each ∧
          Granted ps₁ ps₂ dirs pid (touches item) access) :
    Ensures (Short ps (each * items.length)) (items.foldlM round ps) fun ps' =>
      Extended ps ps' dirs pid (fun pageno => ∃ item ∈ items, covers item pageno)
          (each * items.length) ∧
        Granted ps ps' dirs pid (fun pageno => ∃ item ∈ items, touches item pageno) access := by
  have hloop : Ensures (fun fault => Short ps (each * items.length) fault ∨ False)
      (items.foldlM round ps) fun ps' =>
        Extended ps ps' dirs pid (fun pageno => ∃ item ∈ items, covers item pageno)
            (each * items.length) ∧
          Granted ps ps' dirs pid (fun pageno => ∃ item ∈ items, touches item pageno) access := by
    refine hsound.extendLoopOr covers touches hdisjoint ?_
    intro ps₁ done item rest hitems hprior
    exact ensures_mono (hround ps₁ done item rest hitems hprior) (fun fault => .inl) fun _ h => h
  simpa only [or_false] using hloop

/-! ## Single pages -/

omit [DecidableEq Pid] in
theorem Available.of_loose {holder : Holder Pid} {page : ℕ} (hloose : Loose ps dirs page) :
    Available ps dirs holder page := .inl hloose

omit [DecidableEq Pid] in
theorem Sound.loose_bounds (hsound : Sound ps dirs) {page : ℕ} (hloose : Loose ps dirs page) :
    page % pageSize = 0 ∧ page < wordCount ∧ pageStart ≤ page := by
  obtain ⟨⟨free, halloc⟩, -⟩ := hsound
  exact ⟨halloc.aligned hloose.1, halloc.lt_wordCount hloose.1, halloc.pageStart_le hloose.1⟩

/-- The entry of one page was written. -/
theorem granted_of_entries {ps' : Pages} {pageno value access : ℕ}
    (hentries : ∀ other dir number, dirs other = some dir → number < 1048576 →
      entry ps'.phys dir number =
        if other = pid ∧ number = pageno then value else entry ps.phys dir number)
    (haccess : value &&& pageUser = access) : Granted ps ps' dirs pid (· = pageno) access where
  same other dir number hdir hnumber hspared := by
    rw [hentries other dir number hdir hnumber, if_neg hspared]
  access := by
    rintro dir number hdir hnumber rfl
    rw [hentries pid dir number hdir hnumber, if_pos ⟨rfl, rfl⟩, haccess]

/-- Mapping a loose page as user memory. -/
theorem Sound.mapLoose (hsound : Sound ps dirs) (hdir : dirs pid = some pdir)
    {logical page : ℕ} (hlogical : logical % pageSize = 0) (hbound : logical < wordCount)
    (hloose : Loose ps dirs page) :
    Ensures (Short ps 1) (mapPage ps pdir logical page pageUser pageReadWrite) fun ps' =>
      Sound ps' dirs ∧ Holds ps'.phys dirs (.backing pid (logical / pageSize)) page ∧
      (∀ other pageno, Mapped ps' dirs other pageno ↔
        Mapped ps dirs other pageno ∨ (other = pid ∧ pageno = logical / pageSize)) ∧
      (∀ x, Loose ps' dirs x → x ≠ page ∧
        (¬ Mapped ps dirs pid (logical / pageSize) → Loose ps dirs x)) ∧
      ps'.pageEnd ≤ ps.pageEnd + pageSize ∧
      Granted ps ps' dirs pid (· = logical / pageSize) pageUser := by
  obtain ⟨haligned, hfits, hhigh⟩ := hsound.loose_bounds hloose
  refine ensures_weaken (hsound.map hdir hlogical hbound haligned hfits
    (Available.of_loose hloose) (by decide) (by decide)) ?_
  rintro ps' ⟨hsound', hholds, hlooses, hend, hentries⟩
  refine ⟨hsound', (hholds pid _ page).mpr (by simp), ?_, ?_, hend,
    granted_of_entries hentries (user_flag haligned)⟩
  · intro other pageno
    by_cases hsame : other = pid ∧ pageno = logical / pageSize
    · refine ⟨fun _ => .inr hsame, fun _ => ⟨page, hhigh, ?_⟩⟩
      rw [hholds, if_pos hsame]
    · simp only [Mapped, hholds, hsame, or_false, if_false]
  · intro x hx
    obtain ⟨hne, hbefore⟩ := hlooses x hx
    refine ⟨hne, fun hunmapped => ?_⟩
    rcases hbefore with hbefore | ⟨hx, hheld⟩
    · exact hbefore
    · exact absurd ⟨x, hx, hheld⟩ hunmapped

theorem Sound.mapNew (hsound : Sound ps dirs) (hdir : dirs pid = some pdir)
    {logical : ℕ} (hlogical : logical % pageSize = 0) (hbound : logical < wordCount) :
    Ensures (Short ps 2) (mapNewPage ps pdir logical) fun ps' =>
      Extended ps ps' dirs pid (· = logical / pageSize) 2 ∧
        Granted ps ps' dirs pid (· = logical / pageSize) pageUser := by
  refine ensures_bind (ensures_mono hsound.alloc ?_ fun _ h => h) ?_
  · rintro fault ⟨hfault, hlong⟩
    exact ⟨hfault, by omega⟩
  rintro ⟨ps₁, page⟩ ⟨hsound₁, hloose₁, -, hholds₁, hlooses₁, -, hend₁, hentries₁⟩
  simp only at *
  have hmapped₁ : ∀ other pageno, Mapped ps₁ dirs other pageno ↔ Mapped ps dirs other pageno := by
    intro other pageno
    simp only [Mapped, hholds₁]
  refine ensures_mono (hsound₁.mapLoose hdir hlogical hbound hloose₁) ?_ ?_
  · intro fault hshort
    exact hshort.mono 1 (by simpa using hend₁) le_rfl
  · rintro ps₂ ⟨hsound₂, -, hmapped₂, hlooses₂, hend₂, hgranted₂⟩
    refine ⟨⟨hsound₂, ?_, ?_, by omega⟩, hgranted₂.after hentries₁⟩
    · intro other pageno
      rw [hmapped₂, hmapped₁]
    · intro hunmapped x hx
      obtain ⟨hne, hbefore⟩ := hlooses₂ x hx
      have hloose := hbefore (by simpa [hmapped₁] using hunmapped)
      exact ((hlooses₁ x).mp hloose).resolve_left hne

/-- Mapping memory below `PAGE_START` at its own address. -/
theorem Sound.mapIdentity (hsound : Sound ps dirs) (hdir : dirs pid = some pdir)
    {addr access readwrite : ℕ} (haddr : addr % pageSize = 0) (hlow : addr < pageStart)
    (hflags : pagePresent ||| access ||| readwrite < pageSize)
    (hodd : (pagePresent ||| access ||| readwrite) % 2 = 1)
    (hunmapped : ¬ Mapped ps dirs pid (addr / pageSize)) :
    Ensures (Short ps 1) (mapPage ps pdir addr addr access readwrite) fun ps' =>
      Extended ps ps' dirs pid (fun _ => False) 1 ∧
        Granted ps ps' dirs pid (· = addr / pageSize)
          ((pagePresent ||| access ||| readwrite) &&& pageUser) := by
  have hnumber : addr / pageSize < 1536 := by
    simp only [pageSize, pageStart] at *
    omega
  have hfits : addr < wordCount := by
    simp only [pageStart, wordCount] at *
    omega
  refine ensures_weaken (hsound.map hdir haddr hfits haddr hfits
    (.inr ⟨hlow, pid, _, rfl, hnumber⟩) hflags hodd) ?_
  rintro ps' ⟨hsound', hholds, hlooses, hend, hentries⟩
  refine ⟨⟨hsound', ?_, ?_, by simpa using hend⟩,
    granted_of_entries hentries (user_flag haddr)⟩
  · intro other pageno
    simp only [and_false, or_false, Mapped, hholds]
    by_cases hsame : other = pid ∧ pageno = addr / pageSize
    · simp only [hsame, and_self, if_true]
      constructor
      · rintro ⟨page, hhigh, rfl⟩
        omega
      · rintro hmapped
        exact absurd hmapped hunmapped
    · simp only [hsame, if_false]
  · intro _ page hpage
    rcases (hlooses page hpage).2 with hloose | ⟨hhigh, hheld⟩
    · exact hloose
    · exact absurd ⟨page, hhigh, hheld⟩ hunmapped

/-! ## Contents -/

/-- Only the contents of mapped or loose pages, or of memory below `PAGE_START`,
changed. -/
structure Refilled (ps ps' : Pages) (dirs : Pid → Option ℕ) : Prop where
  sound : Sound ps' dirs
  holds : ∀ holder page, Holds ps'.phys dirs holder page ↔ Holds ps.phys dirs holder page
  ledger_eq : ps'.ledger = ps.ledger
  pageEnd_eq : ps'.pageEnd = ps.pageEnd
  entries : ∀ touched, SameEntries touched ps.phys ps'.phys dirs

omit [DecidableEq Pid] in
theorem Refilled.refl (hsound : Sound ps dirs) : Refilled ps ps dirs :=
  ⟨hsound, fun _ _ => Iff.rfl, rfl, rfl, fun _ _ _ _ _ _ _ => rfl⟩

omit [DecidableEq Pid] in
theorem Refilled.trans {ps₁ ps₂ : Pages} (hfirst : Refilled ps ps₁ dirs)
    (hsecond : Refilled ps₁ ps₂ dirs) : Refilled ps ps₂ dirs where
  sound := hsecond.sound
  holds := fun holder page => (hsecond.holds holder page).trans (hfirst.holds holder page)
  ledger_eq := hsecond.ledger_eq.trans hfirst.ledger_eq
  pageEnd_eq := hsecond.pageEnd_eq.trans hfirst.pageEnd_eq
  entries touched :=
    ((hfirst.entries touched).trans (hsecond.entries touched)).mono fun _ _ h => h.elim id id

omit [DecidableEq Pid] in
theorem Refilled.mapped {ps' : Pages} (hrefilled : Refilled ps ps' dirs) (other : Pid)
    (pageno : ℕ) : Mapped ps' dirs other pageno ↔ Mapped ps dirs other pageno := by
  simp only [Mapped, hrefilled.holds]

omit [DecidableEq Pid] in
theorem Refilled.loose {ps' : Pages} (hrefilled : Refilled ps ps' dirs) (page : ℕ) :
    Loose ps' dirs page ↔ Loose ps dirs page := by
  simp only [Loose, Pages.Outstanding, hrefilled.holds, hrefilled.ledger_eq]

omit [DecidableEq Pid] in
theorem Sound.refill (hsound : Sound ps dirs) {page : ℕ} {phys : Memory}
    (haligned : page % pageSize = 0)
    (hsame : ∀ x, x < page ∨ page + pageSize ≤ x → phys x = ps.phys x)
    (hout : pageStart ≤ page → ps.Outstanding page)
    (hdirs : ∀ other, ¬ Holds ps.phys dirs (.directory other) page)
    (htables : ∀ other dirindex, ¬ Holds ps.phys dirs (.table other dirindex) page) :
    Refilled ps { ps with phys := phys } dirs := by
  have hwords : SameWordsBut (· = page) ps.phys phys := fun other hother hne index hindex =>
    word_congr hsame haligned hother hne hindex
  have hcontents := hsound.of_contents hwords
    (by rintro _ rfl - hhigh; exact hout hhigh)
    (by rintro other _ hheld rfl; exact hdirs other hheld)
    (by rintro other dirindex _ hheld rfl; exact htables other dirindex hheld)
  obtain ⟨hsound', hholds, -⟩ := hcontents fun _ _ => False
  exact ⟨hsound', hholds, rfl, rfl, fun touched => (hcontents touched).2.2⟩

omit [DecidableEq Pid] in
theorem Sound.refillLoose (hsound : Sound ps dirs) {page : ℕ} {phys : Memory}
    (hloose : Loose ps dirs page)
    (hsame : ∀ x, x < page ∨ page + pageSize ≤ x → phys x = ps.phys x) :
    Refilled ps { ps with phys := phys } dirs :=
  hsound.refill (hsound.aligned hloose.1) hsame (fun _ => hloose.1)
    (fun _ => hloose.2 _) (fun _ _ => hloose.2 _)

omit [DecidableEq Pid] in
theorem Sound.refillBacking (hsound : Sound ps dirs) {page pageno : ℕ} {phys : Memory}
    (hheld : Holds ps.phys dirs (.backing pid pageno) page)
    (hsame : ∀ x, x < page ∨ page + pageSize ≤ x → phys x = ps.phys x) :
    Refilled ps { ps with phys := phys } dirs := by
  have hother : ∀ holder, Holds ps.phys dirs holder page →
      ps.Outstanding page → holder = .backing pid pageno := fun holder hholder hout =>
    hsound.2.unique _ _ _ hholder hheld (hsound.pageStart_le hout)
  refine hsound.refill ?_ hsame (hsound.2.outstanding _ _ hheld) ?_ ?_
  · obtain ⟨pdir, -, -, -, rfl⟩ := hheld
    exact frameAddress_aligned (entry_lt _ _ _)
  · intro other hdir
    have := hother _ hdir (hsound.2.directory_outstanding hdir)
    simp at this
  · intro other dirindex htable
    have := hother _ htable (hsound.2.table_outstanding htable)
    simp at this

end Rhythmos.Paging
