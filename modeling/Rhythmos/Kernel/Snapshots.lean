import Rhythmos.Kernel.Programs

/-!
# Forked processes

`syscall_fork` gives the child the parent's registers, except for the result of the call, its
descriptors and its working directory, and a copy of its segments in pages of the child's own.
What either of the two stores afterwards is not seen by the other.
-/

namespace Rhythmos.Kernel

open Fallible ByteMemory Paging

/-- The address belongs to a segment. -/
def AddressSpace.contains (space : AddressSpace) (address : ℕ) : Prop :=
  space.textStart ≤ address ∧ address < space.textEnd ∨
    space.dataStart ≤ address ∧ address < space.dataEnd ∨
    space.stackStart ≤ address ∧ address < space.stackEnd

namespace Core

variable {c : Core} {r : Regs} {parent child : Pid}

/-! ## The process table -/

/-- The descriptors of a process refer to handles. -/
def Resolved (c : Core) (pid : Pid) : Prop :=
  ∀ fd fh, (c.processes pid).filedesc fd = some fh → ∃ handle, c.handles fh = some handle

theorem exists_inherited (hresolved : c.Resolved parent) (hdistinct : parent ≠ child)
    (hnone : ∀ fd, (c.processes child).filedesc fd = none) :
    ∃ c', (List.finRange 16).foldlM (inheritHandle parent child) c = .ok c' ∧
      Filled c c' child (c.processes parent).filedesc := by
  have hloop : Ensures (fun _ => False) ((List.finRange 16).foldlM (inheritHandle parent child) c)
      fun c' => Filled c c' child (inherited (c.processes parent).filedesc (List.finRange 16)) ∧
        ∀ fh handle, c.handles fh = some handle → ∃ handle', c'.handles fh = some handle' := by
    refine ensures_foldlM (fun done c' =>
      Filled c c' child (inherited (c.processes parent).filedesc done) ∧
        ∀ fh handle, c.handles fh = some handle → ∃ handle', c'.handles fh = some handle')
      ⟨.start hnone, fun fh handle hhandle => ⟨handle, hhandle⟩⟩ ?_
    rintro done fd rest c₁ hitems ⟨hfilled₁, hkept₁⟩
    have hnew := notMem_of_finRange hitems
    cases hfh : (c.processes parent).filedesc fd with
    | none =>
        have hround : inheritHandle parent child c₁ fd = .ok c₁ := by
          rw [inheritHandle, hfilled₁.other hdistinct, hfh]
        rw [hround, ensures_ok]
        exact ⟨hfilled₁.inherit hdistinct hnew hround, hkept₁⟩
    | some fh =>
        obtain ⟨handle, hhandle⟩ := hresolved fd fh hfh
        obtain ⟨handle₁, hhandle₁⟩ := hkept₁ fh handle hhandle
        have hround : inheritHandle parent child c₁ fd = .ok ((c₁.install child fd fh).setHandle fh
            (some { handle₁ with refcount := handle₁.refcount + 1 })) := by
          rw [inheritHandle, hfilled₁.other hdistinct, hfh]
          simp [retain, Core.handle, install, setFiledesc, hhandle₁]
        rw [hround, ensures_ok]
        refine ⟨hfilled₁.inherit hdistinct hnew hround, fun other value hvalue => ?_⟩
        by_cases hother : other = fh
        · subst hother
          simp
        · simpa [install, setFiledesc, hother] using hkept₁ other value hvalue
  obtain ⟨c', hrun, hfilled, -⟩ := exists_ok_of_ensures hloop
  rw [inherited_all] at hfilled
  exact ⟨c', hrun, hfilled⟩

/-- What the process table holds for a forked child, and that the rest of it stays. -/
structure Forked (c c' : Core) (parent child : Pid) (r : Regs) : Prop where
  live : ∀ pid, c'.isLive pid = Function.update c.isLive child true pid
  registers : (c'.processes child).savedRegs = { r with eax := 0 }
  filedesc : (c'.processes child).filedesc = (c.processes parent).filedesc
  cwd : (c'.processes child).cwd = (c.processes parent).cwd
  others : ∀ pid, pid ≠ child → (c'.processes pid).still = (c.processes pid).still

theorem exists_forkProcess (hresolved : c.Resolved parent) (hdistinct : parent ≠ child) :
    ∃ c', c.forkProcess parent child r false = .ok c' ∧ Forked c c' parent child r := by
  set c₁ := ((c.reset child).modify child fun proc =>
    { proc with parentPid := some (c.processes parent).pid }).record
      (.created (some (c.processes parent).pid) child) with hc₁
  have hparent₁ : c₁.processes parent = c.processes parent := by
    simp [hc₁, reset, hdistinct]
  have hchild₁ : c₁.processes child = { Process.zero with
      pid := child
      existing := true
      parentPid := some (c.processes parent).pid } := by
    simp [hc₁, reset]
  have hresolved₁ : c₁.Resolved parent := by
    intro fd fh hfh
    rw [hparent₁] at hfh
    exact hresolved fd fh hfh
  obtain ⟨c₂, hrun, hfilled⟩ :=
    exists_inherited hresolved₁ hdistinct (by simp [hchild₁, Process.zero])
  set c₃ := c₂.modify child fun proc => { proc with savedRegs := { r with eax := 0 } } with hc₃
  set c₄ := c₃.modify child fun proc => { proc with cwd := (c₃.processes parent).cwd } with hc₄
  have hchild₄ : c₄.processes child = { c₂.processes child with
      savedRegs := { r with eax := 0 }
      cwd := (c₂.processes parent).cwd } := by
    simp [hc₄, hc₃, hdistinct]
  have hother₄ : ∀ pid, pid ≠ child → c₄.processes pid = c.processes pid := by
    intro pid hpid
    simp [hc₄, hc₃, hc₁, reset, hpid, hfilled.other hpid]
  refine ⟨c₄.makeReady child, ?_, ⟨?_, ?_, ?_, ?_, ?_⟩⟩
  · simp only [forkProcess, Bool.false_eq_true, if_false, ← hc₁, hrun, ok_bind, pure_eq_ok]
    rfl
  · intro pid
    rw [(SameView.makeReady c₄ child).live]
    by_cases hpid : pid = child
    · subst hpid
      simp [isLive, hchild₄, hfilled.self, hchild₁, Process.zero]
    · rw [Function.update_of_ne hpid, isLive, isLive, hother₄ pid hpid]
  · rw [field_makeReady Process.savedRegs fun _ _ _ _ => rfl, hchild₄]
  · rw [field_makeReady Process.filedesc fun _ _ _ _ => rfl, hchild₄, hfilled.self, hparent₁]
  · rw [field_makeReady Process.cwd fun _ _ _ _ => rfl, hchild₄, hfilled.other hdistinct, hparent₁]
  · intro pid hpid
    rw [field_makeReady Process.still fun _ _ _ _ => rfl, hother₄ pid hpid]

end Core

namespace Machine

variable {m m' : Machine} {parent child : Pid}

/-! ## The address space -/

theorem forkSpace_copied {dirs : Pid → Option ℕ} (hsound : Sound m.pages dirs)
    (hfits : (m.spaces parent).Fits) (hparent : dirs parent = some (m.spaces parent).pdir)
    (hchild : dirs child = none) (hfork : m.forkSpace parent child = .ok m') :
    ∃ pdir, m'.spaces = Function.update m.spaces child { m.spaces parent with pdir := pdir } ∧
      Copied (Function.update dirs child (some pdir)) parent child (m.spaces parent).pdir pdir
        m.pages m'.pages (m.spaces parent).contains := by
  have hdistinct : parent ≠ child := by
    rintro rfl
    exact absurd (hparent.symm.trans hchild) (Option.some_ne_none _)
  simp only [forkSpace, bind_eq_ok, onPages_eq_ok, pure_eq_ok, Except.ok.injEq, Prod.exists]
    at hfork
  obtain ⟨ps₁, pdir, halloc, ps₂, hidentity, ps₃, htext, ps₄, hdata, ps₅, hstack, rfl⟩ := hfork
  have hdir : Function.update dirs child (some pdir) child = some pdir :=
    Function.update_self _ _ _
  have hsource : Function.update dirs child (some pdir) parent = some (m.spaces parent).pdir := by
    rw [Function.update_of_ne hdistinct, hparent]
  obtain ⟨hsound₁, hmapped₁, -⟩ := ensures_of_eq_ok (hsound.newDirectory hchild) halloc
  have hunmapped₁ : ∀ pageno,
      ¬ Mapped ps₁ (Function.update dirs child (some pdir)) child pageno :=
    fun pageno hmapped => not_mapped_of_none hchild ((hmapped₁ child pageno).mp hmapped)
  obtain ⟨hsound₂, -, hsame₂⟩ := hsound₁.identity_same hdir (by decide) (by decide) (by decide)
    (by decide) hunmapped₁ hidentity
  have hempty : Copied (Function.update dirs child (some pdir)) parent child
      (m.spaces parent).pdir pdir m.pages ps₂ fun _ => False :=
    ⟨hsound₂, ((hsound.newDirectory_same halloc).trans hsame₂).mono fun _ _ h => h.elim id id,
      fun _ h => h.elim⟩
  have htextEnd : (m.spaces parent).textEnd ≤ wordCount := hfits.textEnd_le.trans (by decide)
  have hdataEnd : (m.spaces parent).dataEnd ≤ wordCount := hfits.dataEnd_lt.le
  have hstackEnd : (m.spaces parent).stackEnd ≤ wordCount := by
    rw [hfits.stackEnd]
    decide
  have hcopied₃ := hempty.segment hdir hsource hdistinct (fun _ h => h.elim)
    (by rw [hfits.textStart]; decide) hfits.textEnd_aligned htextEnd htext
  have hcopied₄ := hcopied₃.segment hdir hsource hdistinct
    (fun _ h => h.elim False.elim fun h => h.2.trans_le htextEnd)
    (by rw [hfits.dataStart]; decide) hfits.dataEnd_aligned hdataEnd hdata
  have hcopied₅ := hcopied₄.segment hdir hsource hdistinct
    (fun _ h => h.elim (fun h => h.elim False.elim fun h => h.2.trans_le htextEnd)
      fun h => h.2.trans_le hdataEnd)
    (by rw [hfits.stackStart]; decide) (by rw [hfits.stackEnd]; decide) hstackEnd hstack
  refine ⟨pdir, rfl, hcopied₅.sound, hcopied₅.same, fun address haddress => ?_⟩
  refine hcopied₅.copied address ?_
  rcases haddress with htext | hdata | hstack
  · exact .inl (.inl (.inr htext))
  · exact .inl (.inr hdata)
  · exact .inr hstack

theorem covers_of_contains {space : AddressSpace} {address : ℕ} (hfits : space.Fits)
    (hcontains : space.contains address) : space.covers (address / pageSize) := by
  have htext : space.textStart % pageSize = 0 := by
    rw [hfits.textStart]
    decide
  have hdata : space.dataStart % pageSize = 0 := by
    rw [hfits.dataStart]
    decide
  have hstack : space.stackStart % pageSize = 0 := by
    rw [hfits.stackStart]
    decide
  simp only [AddressSpace.contains, AddressSpace.covers, pagesIn, pageSize] at *
  omega

/-! ## The copy -/

/-- What a process reads at an address of its own. -/
def byteAt (m : Machine) (pid : Pid) (address : ℕ) : Except PageFault UInt8 :=
  loadByte (some (m.spaces pid).pdir) m.pages address

/-- `child` is a copy of `parent` that shares no page with any other process. -/
structure Snapshot (m m' : Machine) (parent child : Pid) (r : Regs) : Prop where
  created : ∀ pid, m'.core.isLive pid = Function.update m.core.isLive child true pid
  sound : Sound m'.pages m'.dirs
  bounds : ∃ pdir, m'.spaces = Function.update m.spaces child { m.spaces parent with pdir := pdir }
  bytes : ∀ address, (m.spaces parent).contains address →
    ∃ byte, m.byteAt parent address = .ok byte ∧ m'.byteAt child address = .ok byte
  separate : ∀ pageno, (m.spaces parent).covers pageno →
    ∃ page, Holds m'.pages.phys m'.dirs (.backing child pageno) page ∧
      ∀ holder, Holds m'.pages.phys m'.dirs holder page → holder = .backing child pageno
  isolated : ∀ ps ps' writer reader, StoredAll m'.dirs m'.pages ps → Stored m'.dirs writer ps ps' →
    writer ≠ reader → reader = parent ∨ reader = child → ∀ address,
      (m.spaces parent).contains address →
        loadByte (some (m'.spaces reader).pdir) ps' address =
          loadByte (some (m'.spaces reader).pdir) ps address
  registers : (m'.core.processes child).savedRegs = { r with eax := 0 }
  filedesc : (m'.core.processes child).filedesc = (m.core.processes parent).filedesc
  cwd : (m'.core.processes child).cwd = (m.core.processes parent).cwd
  memory : ∀ pid address, pid ≠ child → m.core.isLive pid = true → address < wordCount →
    m'.byteAt pid address = m.byteAt pid address
  entries : ∀ pid pageno, pid ≠ child → m.core.isLive pid = true → pageno < 1048576 →
    entry m'.pages.phys (m'.spaces pid).pdir pageno = entry m.pages.phys (m.spaces pid).pdir pageno
  others : ∀ pid, pid ≠ child → (m'.core.processes pid).still = (m.core.processes pid).still
  cr3 : m'.cr3 = some (m.spaces parent).pdir

/-- A live process whose descriptors refer to handles. -/
structure Forkable (m : Machine) (pid : Pid) : Prop where
  housed : m.Housed pid
  resolved : m.core.Resolved pid

theorem Reachable.forkable {image : Image} {phys : Memory} {junk : Block → Memory} {pid : Pid}
    (hreachable : Reachable KillingSafely image phys junk m)
    (hcurrent : m.core.current = some pid) : m.Forkable pid := by
  obtain ⟨wait, hsettled⟩ := hreachable.lax
  have hlive := hsettled.live pid hcurrent
  refine ⟨hsettled.housed hlive, fun fd fh hfh => ?_⟩
  refine (hsettled.sane Regs.zero).inv.handles.resolved (pid, fd) fh ?_
  simpa [Core.viewOf, hlive] using hfh

theorem Forkable.entered {pid : Pid} (hforkable : m.Forkable pid) (r : Regs) :
    (m.entered pid r).Forkable pid := by
  refine ⟨hforkable.housed.entered r, fun fd fh hfh => hforkable.resolved fd fh ?_⟩
  simpa [Machine.entered, setCore] using hfh

theorem snapshot_of_fork {core : Core} {r : Regs} {pdir : ℕ} (hforkable : m.Forkable parent)
    (hmapped : ∀ pageno, (m.spaces parent).covers pageno → Mapped m.pages m.dirs parent pageno)
    (hdistinct : parent ≠ child) (hdoubled : Doubled m.dirs m m' parent child pdir)
    (hcopied : Copied (Function.update m.dirs child (some pdir)) parent child
      (m.spaces parent).pdir pdir m.pages m'.pages (m.spaces parent).contains)
    (hforked : Core.Forked m.core core parent child r) :
    m.Snapshot (m'.setCore core) parent child r := by
  have hdirs : (m'.setCore core).dirs = Function.update m.dirs child (some pdir) := by
    funext pid
    by_cases hpid : pid = child
    · subst hpid
      simp [dirs, setCore, hforked.live, hdoubled.spaces]
    · simp [dirs, setCore, hforked.live, hdoubled.spaces, hpid]
  have hspace : ∀ pid, pid ≠ child → (m'.spaces pid).pdir = (m.spaces pid).pdir := by
    intro pid hpid
    rw [hdoubled.spaces, Function.update_of_ne hpid]
  have hspaceChild : (m'.spaces child).pdir = pdir := by
    rw [hdoubled.spaces, Function.update_self]
  have hdir : ∀ pid, pid ≠ child → m.core.isLive pid = true →
      Function.update m.dirs child (some pdir) pid = some (m.spaces pid).pdir := by
    intro pid hpid hlive
    rw [Function.update_of_ne hpid, dirs_eq hlive]
  have hsound := hdoubled.sound
  have hparent := hforkable.housed.live
  have hchildMapped : ∀ pageno, (m.spaces parent).covers pageno →
      Mapped m'.pages (Function.update m.dirs child (some pdir)) child pageno :=
    fun pageno hcovers => (hdoubled.mapped child pageno).mpr (.inr ⟨rfl, hcovers⟩)
  refine ⟨hforked.live, hdirs ▸ hsound, ⟨pdir, hdoubled.spaces⟩, ?_, ?_, ?_, hforked.registers,
    hforked.filedesc, hforked.cwd, ?_, ?_, hforked.others, hdoubled.cr3⟩
  · intro address haddress
    have hcovers := covers_of_contains hforkable.housed.fits haddress
    obtain ⟨page, -, hheld⟩ := hmapped _ hcovers
    have hread := loadByte_of_holds (dirs_eq hparent) hheld
    refine ⟨_, hread, ?_⟩
    rw [byteAt, show ((m'.setCore core).spaces child).pdir = pdir from hspaceChild]
    exact (hcopied.copied address haddress).trans hread
  · intro pageno hcovers
    obtain ⟨page, hstart, hheld⟩ := hchildMapped pageno hcovers
    rw [hdirs]
    exact ⟨page, hheld, fun holder hholder => hsound.2.unique _ _ _ hholder hheld hstart⟩
  · intro ps ps' writer reader hrun hstored hne hreader address haddress
    have hcovers := covers_of_contains hforkable.housed.fits haddress
    rw [hdirs] at hrun hstored
    have hrefilled := hrun.refilled hsound
    have hreaderMapped : Mapped m'.pages (Function.update m.dirs child (some pdir)) reader
        (address / pageSize) := by
      rcases hreader with rfl | rfl
      · exact (hdoubled.mapped reader _).mpr (.inl (hmapped _ hcovers))
      · exact hchildMapped _ hcovers
    have hreaderDir : Function.update m.dirs child (some pdir) reader =
        some (m'.spaces reader).pdir := by
      rcases hreader with rfl | rfl
      · rw [hdir reader hdistinct hparent, hspace reader hdistinct]
      · rw [hspaceChild, Function.update_self]
    exact hstored.isolated hrefilled.sound hne hreaderDir
      ((hrefilled.mapped reader _).mpr hreaderMapped)
  · intro pid address hpid hlive haddress
    rw [byteAt, byteAt, show ((m'.setCore core).spaces pid).pdir = (m.spaces pid).pdir from
      hspace pid hpid]
    exact hcopied.same pid _ address (hdir pid hpid hlive) haddress hpid
  · intro pid pageno hpid hlive hpageno
    rw [show ((m'.setCore core).spaces pid).pdir = (m.spaces pid).pdir from hspace pid hpid]
    exact hdoubled.entries pid _ pageno (hdir pid hpid hlive) hpageno hpid

theorem exists_getFreePid {c : Core} {slot : Pid} (hslot : slot ≠ 0)
    (hfree : (c.processes slot).existing = false) : ∃ child, c.getFreePid = some child := by
  refine Option.isSome_iff_exists.mp ?_
  rw [Core.getFreePid, List.find?_isSome]
  refine ⟨slot, List.mem_finRange slot, ?_⟩
  simp [hfree, Fin.pos_iff_ne_zero.mpr hslot]

/-- `syscall_fork` makes an independent copy of the caller, unless the pages for it do not fit
the address space.  The descriptors of the running process always refer to handles. -/
theorem fork_snapshots (image : Image) (phys : Memory) (junk : Block → Memory) (m : Machine)
    (pid : Pid) (r : Regs) :
    (Reachable KillingSafely image phys junk m → m.core.current = some pid →
      (m.entered pid r).Forkable pid) ∧
    (m.Forkable pid →
      (∀ pageno, (m.spaces pid).covers pageno → Mapped m.pages m.dirs pid pageno) →
      (∃ slot : Pid, slot ≠ 0 ∧ (m.core.processes slot).existing = false) →
      ∃ child, (m.core.processes child).existing = false ∧
        Ensures (fun fault => fault = .page .exhausted ∧
            wordCount < m.pages.pageEnd + pageSize * forkCost (m.spaces pid))
          (m.syscallFork pid r false) fun result =>
            result.2 = BitVec.ofNat 32 child.val ∧ m.Snapshot result.1 pid child r) := by
  refine ⟨fun hreachable hcurrent => (hreachable.forkable hcurrent).entered r, ?_⟩
  rintro hforkable hmapped ⟨slot, hslot, hvacantSlot⟩
  obtain ⟨child, hfree⟩ := exists_getFreePid hslot hvacantSlot
  obtain ⟨-, hvacant⟩ := Core.getFreePid_spec hfree
  have hlive := hforkable.housed.live
  have hdistinct : pid ≠ child := by
    rintro rfl
    simp [Core.isLive, hvacant] at hlive
  have hdoubled := forkSpace_doubled (m := m) hforkable.housed.sound hforkable.housed.fits
    (dirs_eq hlive) (dirs_of_vacant hvacant) fun _ : True => hmapped
  refine ⟨child, hvacant, ?_⟩
  rw [syscallFork, hfree]
  dsimp only
  cases hfork : m.forkSpace pid child with
  | error fault =>
      rw [hfork, ensures_error] at hdoubled
      rcases hdoubled with hfull | ⟨hstrict, -⟩
      · exact ensures_error.mpr hfull
      · exact absurd trivial hstrict
  | ok m₁ =>
      rw [hfork, ensures_ok] at hdoubled
      obtain ⟨pdir, hdoubled⟩ := hdoubled
      obtain ⟨pdir', hspaces, hcopied⟩ := forkSpace_copied hforkable.housed.sound
        hforkable.housed.fits (dirs_eq hlive) (dirs_of_vacant hvacant) hfork
      obtain rfl : pdir = pdir' := by
        have hsame := congrFun (hdoubled.spaces.symm.trans hspaces) child
        simpa using hsame
      obtain ⟨core, hcore, hforked⟩ :=
        Core.exists_forkProcess (r := r) hforkable.resolved hdistinct
      rw [ok_bind, hdoubled.core, hcore, ok_bind, pure_eq_ok, ensures_ok]
      exact ⟨rfl, snapshot_of_fork hforkable hmapped hdistinct hdoubled hcopied hforked⟩

/-- The first process forks. -/
theorem fork_snapshots_first : ∃ m m' child,
    Machine.syscallFork m 1 Regs.zero false = .ok (m', BitVec.ofNat 32 child) ∧
      ∃ pid : Pid, pid.val = child ∧ m.Snapshot m' 1 pid Regs.zero := by
  have harrives : Arrives KillingSafely scheduledCore startCost :=
    arrives_scheduled fun _ => trivial
  obtain ⟨m, wait, hreachable, hsettled, hcore, hend⟩ := harrives
  have hcurrent : m.core.current = some 1 := by
    rw [hcore]
    rfl
  have hfurnished := (hsettled.sane Regs.zero).layout.furnished 1 _
    (dirs_eq (hsettled.live 1 hcurrent))
  have hdirs : (m.entered 1 Regs.zero).dirs = m.dirs := by
    funext pid
    by_cases hpid : pid = 1
    · simp [dirs, Machine.entered, setCore, Core.isLive, hpid]
    · simp [dirs, Machine.entered, setCore, Core.isLive, hpid]
  have hmapped : ∀ pageno, ((m.entered 1 Regs.zero).spaces 1).covers pageno →
      Mapped (m.entered 1 Regs.zero).pages (m.entered 1 Regs.zero).dirs 1 pageno := by
    rw [hdirs]
    exact fun pageno => (hfurnished.mapped trivial pageno).mpr
  have hvacant : ((m.entered 1 Regs.zero).core.processes 2).existing = false := by
    simp only [Machine.entered, setCore, hcore]
    rfl
  have hfork := fork_snapshots bare (fun _ => 0) (fun _ _ => 0)
  have hforkable := (hfork m 1 Regs.zero).1 hreachable hcurrent
  obtain ⟨child, -, hsnapshot⟩ := (hfork (m.entered 1 Regs.zero) 1 Regs.zero).2 hforkable hmapped
    ⟨2, by decide, hvacant⟩
  have hcost := forkCost_le hfurnished trivial
  have hroom := room_for_fork hend
  cases hrun : (m.entered 1 Regs.zero).syscallFork 1 Regs.zero false with
  | error fault =>
      rw [hrun, ensures_error] at hsnapshot
      have hpages : pageSize * forkCost (m.spaces 1) ≤ pageSize * forkBound :=
        Nat.mul_le_mul_left _ hcost
      have hfull : wordCount < m.pages.pageEnd + pageSize * forkCost (m.spaces 1) := hsnapshot.2
      omega
  | ok result =>
      rw [hrun, ensures_ok] at hsnapshot
      exact ⟨_, result.1, child.val, hrun.trans (by rw [← hsnapshot.1]), child, rfl, hsnapshot.2⟩

end Machine

end Rhythmos.Kernel
