import Rhythmos.Filesystem.Chains
import Rhythmos.Kernel.Progress

/-!
# The entries that system calls look up

`stat`, `open` and `chdir` make a path absolute before they look it up, `execve` looks it
up as it is.  What the calls do with a valid path depends on the image through this lookup
only, so that the calls can be compared, and compared with what the path means, on the
offsets of the entries.
-/

namespace Rhythmos.Kernel

open Fallible ByteMemory Components Filesystem

namespace Machine

variable {m : Machine} {pid : Pid} {text : List UInt8}

/-! ## Lookups -/

/-- The lookup of `stat`, `open` and `chdir`. -/
def pathEntry (m : Machine) (pid : Pid) (path : List UInt8) : Option ℕ :=
  Filesystem.getDirectoryEntry m.image.filesystem
    (m.image.relativeToAbsolute (m.core.processes pid).cwd path)

/-- The lookup of `execve`. -/
def execveEntry (m : Machine) (path : List UInt8) : Option ℕ :=
  Filesystem.getDirectoryEntry m.image.filesystem path

/-- `stat` from the lookup on. -/
def statWith (m : Machine) (pid : Pid) (buf : Word) : Option ℕ → Except Fault (Machine × Word)
  | none => .ok (m, failure enoent)
  | some offset => do
      let entry := DirectoryEntry.read m.image.filesystem offset
      let m ← m.copyOut pid buf.toNat (wordBytes entry.mode ++ wordBytes 0 ++ wordBytes 0 ++
        wordBytes (BitVec.ofNat 32 entry.contents.length) ++ wordBytes entry.mtime)
      return (m, 0)

/-- `open` from the lookup on. -/
def openWith (m : Machine) (pid : Pid) (fd : Fd) (flags : Word) :
    Option ℕ → Except Fault (Machine × Word)
  | none => .ok (m, failure enoent)
  | some offset =>
      let entry := DirectoryEntry.read m.image.filesystem offset
      if flags = 0xFFFF ∧ !entry.isDir then .ok (m, failure enotdir)
      else if flags ≠ 0xFFFF ∧ entry.isDir then .ok (m, failure eisdir)
      else do
        let core ← m.core.openEntry pid fd entry
        return (m.setCore core, BitVec.ofNat 32 fd.val)

/-- `chdir` from the lookup on. -/
def chdirWith (m : Machine) (pid : Pid) (newcwd : List UInt8) :
    Option ℕ → Except Fault (Machine × Word)
  | none => .ok (m, failure enoent)
  | some offset =>
      if !(DirectoryEntry.read m.image.filesystem offset).isDir then .ok (m, failure enotdir)
      else .ok (m.setCore (m.core.modify pid fun proc => { proc with cwd := newcwd }), 0)

/-- `execve` from the lookup on. -/
def execveWith (m : Machine) (pid : Pid) (args : List (List UInt8)) (r : Regs) :
    Option ℕ → Except Fault (Machine × Regs × Word)
  | none => .ok (m, r, failure enoent)
  | some offset =>
      let entry := DirectoryEntry.read m.image.filesystem offset
      if entry.isDir then .ok (m, r, failure eisdir)
      else
        let size := argdataSize args
        if wordCount ≤ size then .error .overrun
        else do
          let (core, block) ← m.core.kmalloc size
          let argdata := packArguments (core.junk block) args
          let m ← (m.setCore core).replaceText pid entry.contents
          let m ← m.storeUser (processStackBase - size) argdata
          return (m, initRegs (BitVec.ofNat 32 (processStackBase - size))
            (BitVec.ofNat 32 (m.spaces pid).textStart), 0)

/-- The calls use a valid path for their lookups only. -/
structure LooksUp (m : Machine) (pid : Pid) (text : List UInt8) : Prop where
  stat : ∀ path buf, m.validString pid path = .ok (some text) →
    validPointer (m.spaces pid) buf.toNat 20 = true →
    m.syscallStat pid path buf = m.statWith pid buf (m.pathEntry pid text)
  opn : ∀ path flags fd fds, m.validString pid path = .ok (some text) →
    m.core.freeDescriptors pid = fd :: fds →
    m.syscallOpen pid path flags = m.openWith pid fd flags (m.pathEntry pid text)
  chdir : ∀ path, m.validString pid path = .ok (some text) →
    m.syscallChdir pid path = m.chdirWith pid
      (m.image.relativeToAbsolute (m.core.processes pid).cwd text) (m.pathEntry pid text)
  execve : ∀ path argv args r, m.validString pid path = .ok (some text) →
    m.arguments pid argv = .ok (some args) →
    m.syscallExecve pid path argv r = m.execveWith pid args r (m.execveEntry text)

theorem looksUp (m : Machine) (pid : Pid) (text : List UInt8) : m.LooksUp pid text where
  stat path buf htext hvalid := by
    rw [syscallStat, htext, ok_bind, pathEntry]
    simp only [hvalid, Image.getDirectoryEntry]
    cases Filesystem.getDirectoryEntry m.image.filesystem
      (m.image.relativeToAbsolute (m.core.processes pid).cwd text) <;> rfl
  opn path flags fd fds htext hfree := by
    rw [syscallOpen, htext, ok_bind, pathEntry]
    simp only [hfree, Image.getDirectoryEntry]
    cases Filesystem.getDirectoryEntry m.image.filesystem
      (m.image.relativeToAbsolute (m.core.processes pid).cwd text) <;> rfl
  chdir path htext := by
    rw [syscallChdir, htext, ok_bind, pathEntry]
    simp only [Image.getDirectoryEntry]
    cases Filesystem.getDirectoryEntry m.image.filesystem
      (m.image.relativeToAbsolute (m.core.processes pid).cwd text) <;> rfl
  execve path argv args r htext hargs := by
    rw [syscallExecve, htext, ok_bind]
    dsimp only
    rw [hargs, ok_bind, execveEntry]
    simp only [Image.getDirectoryEntry]
    cases Filesystem.getDirectoryEntry m.image.filesystem text <;> rfl

/-! ## Machines with one path -/

/-- An image with a single path. -/
def chainImage {names : List (List UInt8)} (hchain : Chainable pathStride names)
    (isDir : Bool) : Image where
  codeEnd := 2 * mb
  codeEnd_le := codeEnd_bare
  launchShell := 0x100000
  idle := 0x100010
  idleStackEnd := 0x101000
  filesystem := chain pathStride names isDir
  beforeBuffer := fun _ _ => 0
  strayWords := fun _ _ _ => 0
  strayMemory := fun _ _ _ => 0
  size_lt := by
    intro path entry hentry
    have hempty := @size_walk_chain _ _ isDir hchain _ _ hentry
    rw [hempty]
    decide

/-- A machine with such an image, on which the process 1 has a given working directory. -/
def chainMachine {names : List (List UInt8)} (hchain : Chainable pathStride names)
    (isDir : Bool) (cwd : List UInt8) : Machine :=
  let m := initial (chainImage hchain isDir) (fun _ => 0) fun _ _ => 0
  m.setCore (m.core.modify 1 fun proc => { proc with cwd := cwd })

theorem cwd_chainMachine {names : List (List UInt8)} (hchain : Chainable pathStride names)
    (isDir : Bool) (cwd : List UInt8) :
    ((chainMachine hchain isDir cwd).core.processes 1).cwd = cwd := by
  simp [chainMachine, setCore]

/-! ## What the lookups find -/

variable {cwd : List (List UInt8)}

theorem two_le_pathMax : 2 ≤ pathMax := by decide

/-- The lookup of a path that survives finds what the names of the path lead to. -/
theorem pathEntry_eq (hcwd : IsDirectoryPath pathMax cwd)
    (hprocess : (m.core.processes pid).cwd = render cwd) (hsurvives : Survives pathMax cwd text) :
    m.pathEntry pid text = walk m.image.filesystem (flagged (resolve cwd text)) := by
  obtain ⟨htext, hnames⟩ := relativeToAbsolute_eq two_le_pathMax
    (m.image.beforeBuffer (render cwd) text) hcwd hsurvives
  rw [pathEntry, hprocess, Image.relativeToAbsolute, htext, Filesystem.getDirectoryEntry,
    (components_render hnames).2]

/-- What `stat`, `open` and `chdir` look up is what the path leads to, in every image, exactly
if the path survives in a buffer of `PATH_MAX` bytes. -/
theorem lookups_exact_iff (hcwd : IsDirectoryPath pathMax cwd) (hcwdString : 0 ∉ render cwd)
    (htext : 0 ∉ text) :
    (∀ (m : Machine) (pid : Pid), (m.core.processes pid).cwd = render cwd → m.LooksUp pid text ∧
      ∀ entry, m.pathEntry pid text = some entry →
        walk m.image.filesystem (flagged (resolve cwd text)) = some entry) ↔
      Survives pathMax cwd text := by
  constructor
  · intro hexact
    by_contra hlost
    have hcut := mt (components_relativeToAbsolute two_le_pathMax 0 hcwd text).mp hlost
    have hshort := length_relativeToAbsolute_le two_le_pathMax 0 hcwd text
    have hstring : 0 ∉ relativeToAbsolute 0 (render cwd) text pathMax :=
      not_mem_relativeToAbsolute (by decide) hcwdString htext 0 pathMax
    have hchain := chainable_components hstring (by simp only [pathMax] at hshort ⊢; omega)
    obtain ⟨entry, hfound, hother⟩ := chain_separates hchain
      (show (fields slash (relativeToAbsolute 0 (render cwd) text pathMax)).map Prod.fst = _
        from rfl)
      (show (flagged (resolve cwd text)).map Prod.fst ≠ _ by
        rw [map_fst_flagged]
        exact Ne.symm hcut)
    have hprocess := cwd_chainMachine hchain true (render cwd)
    refine hother ((hexact _ 1 hprocess).2 entry ?_)
    rw [pathEntry, hprocess]
    exact hfound
  · intro hsurvives m pid hprocess
    refine ⟨looksUp m pid text, fun entry hentry => ?_⟩
    rw [← pathEntry_eq hcwd hprocess hsurvives]
    exact hentry

/-- The path `"/bin"` with the working directory `"/"`. -/
theorem lookups_exact_bin :
    ((∀ (m : Machine) (pid : Pid), (m.core.processes pid).cwd = render [] →
      m.LooksUp pid [0x2F, 0x62, 0x69, 0x6E] ∧
        ∀ entry, m.pathEntry pid [0x2F, 0x62, 0x69, 0x6E] = some entry →
          walk m.image.filesystem (flagged (resolve [] [0x2F, 0x62, 0x69, 0x6E])) = some entry) ↔
      Survives pathMax [] [0x2F, 0x62, 0x69, 0x6E]) ∧
      Survives pathMax [] [0x2F, 0x62, 0x69, 0x6E] :=
  ⟨lookups_exact_iff ⟨by simp, by decide⟩ (by decide) (by decide), by decide, by decide⟩

/-- Four directories below each other whose names have 254 bytes, and `"ab"` in the last. -/
def deepNames : List (List UInt8) :=
  [List.replicate 254 0x61, List.replicate 254 0x61, List.replicate 254 0x61,
    List.replicate 254 0x61, [0x61, 0x62]]

/-- The path of `"abc"` in the last of these directories. -/
def deepPath : List UInt8 := render deepNames ++ [0x63]

theorem chainable_deepNames : Chainable pathStride deepNames :=
  ⟨by decide +kernel, by decide +kernel, by decide, by decide⟩

/-- A path of 1024 bytes finds `"ab"` where it names `"abc"`, which does not exist. -/
theorem deepPath_cut :
    ∃ m : Machine, (m.core.processes 1).cwd = render [] ∧ m.LooksUp 1 deepPath ∧
      m.pathEntry 1 deepPath ≠ none ∧
        walk m.image.filesystem (flagged (resolve [] deepPath)) = none := by
  have hprocess := cwd_chainMachine chainable_deepNames true (render [])
  refine ⟨_, hprocess, looksUp _ _ _, ?_, ?_⟩
  · have hcut : relativeToAbsolute 0 (render []) deepPath pathMax = render deepNames := by
      decide +kernel
    have hfields : (fields slash (render deepNames)).map Prod.fst = deepNames := by
      decide +kernel
    rw [pathEntry, hprocess, Image.relativeToAbsolute]
    show walk (chain pathStride deepNames true)
      (fields slash (relativeToAbsolute 0 (render []) deepPath pathMax)) ≠ none
    rw [hcut, walk_chain chainable_deepNames, hfields, if_pos (List.prefix_refl _)]
    simp
  · show walk (chain pathStride deepNames true) (flagged (resolve [] deepPath)) = none
    rw [walk_chain chainable_deepNames, map_fst_flagged, if_neg (by decide +kernel)]

/-- A path that `execve` looks up as the other calls do. -/
def Absolute (cwd : List (List UInt8)) (path : List UInt8) : Prop :=
  (path.head? = some slash ∨ cwd = []) ∧ Dotless path ∧
    (components slash path = [] ∨ path.getLast? ≠ some slash)

theorem origin_eq_nil (cwd : List (List UInt8)) (path : List UInt8) :
    origin cwd path = [] ↔ path.head? = some slash ∨ cwd = [] := by
  rw [origin]
  split
  next h => simp [h]
  next h => simp [h]

/-- A path that fits into a buffer of `PATH_MAX` bytes, with the working directory, is looked
up alike by `execve` and by the other calls, in every image, exactly if it starts at the root,
has no dots, and does not end with a `'/'` behind a name. -/
theorem execve_looks_up_iff (hcwd : IsDirectoryPath pathMax cwd) (htext : 0 ∉ text)
    (hlength : text.length < pathMax) (hsurvives : Survives pathMax cwd text) :
    (∀ (m : Machine) (pid : Pid), (m.core.processes pid).cwd = render cwd → m.LooksUp pid text ∧
      m.execveEntry text = m.pathEntry pid text) ↔ Absolute cwd text := by
  have hresolve := resolve_eq_components hcwd.names text
  rw [origin_eq_nil] at hresolve
  constructor
  · intro hsame
    have hchain := chainable_components htext hlength
    have hnames : resolve cwd text = components slash text := by
      by_contra hne
      obtain ⟨entry, hfound, hother⟩ := chain_separates hchain
        (show (fields slash text).map Prod.fst = _ from rfl)
        (show (flagged (resolve cwd text)).map Prod.fst ≠ _ by
          rw [map_fst_flagged]
          exact hne)
      have hprocess := cwd_chainMachine hchain true (render cwd)
      have hentries := (hsame _ 1 hprocess).2
      rw [pathEntry_eq hcwd hprocess hsurvives] at hentries
      exact hother (hentries.symm.trans hfound)
    obtain ⟨hstart, hdotless⟩ := hresolve.mp hnames
    refine ⟨hstart, hdotless, ?_⟩
    by_contra hends
    rw [not_or, not_not] at hends
    obtain ⟨hne, hlast⟩ := hends
    obtain ⟨front, rfl⟩ : ∃ front, text = front ++ [slash] := by
      obtain ⟨front, hfront⟩ := List.getLast?_eq_some_iff.mp hlast
      exact ⟨front, hfront⟩
    obtain ⟨hfound, hnone⟩ := chain_file hchain hne
    have hprocess := cwd_chainMachine hchain false (render cwd)
    have hentries := (hsame _ 1 hprocess).2
    rw [pathEntry_eq hcwd hprocess hsurvives, hnames, execveEntry, Filesystem.getDirectoryEntry,
      fields_concat_sep] at hentries
    exact hfound (hentries.symm.trans hnone)
  · rintro ⟨hstart, hdotless, hend⟩ m pid hprocess
    refine ⟨looksUp m pid text, ?_⟩
    have hfields : fields slash text = flagged (components slash text) := by
      rcases hend with hnil | hlast
      · have hnone : fields slash text = [] := List.map_eq_nil_iff.mp hnil
        rw [hnil, hnone]
        rfl
      · exact fields_of_getLast hlast
    rw [pathEntry_eq hcwd hprocess hsurvives, hresolve.mpr ⟨hstart, hdotless⟩, ← hfields]
    rfl

/-- The path `"/bin"` with the working directory `"/"`. -/
theorem execve_looks_up_bin :
    ((∀ (m : Machine) (pid : Pid), (m.core.processes pid).cwd = render [] →
      m.LooksUp pid [0x2F, 0x62, 0x69, 0x6E] ∧
        m.execveEntry [0x2F, 0x62, 0x69, 0x6E] = m.pathEntry pid [0x2F, 0x62, 0x69, 0x6E]) ↔
      Absolute [] [0x2F, 0x62, 0x69, 0x6E]) ∧ Absolute [] [0x2F, 0x62, 0x69, 0x6E] :=
  ⟨execve_looks_up_iff ⟨by simp, by decide⟩ (by decide) (by decide) ⟨by decide, by decide⟩,
    .inl rfl, ⟨by decide, by decide⟩, .inr (by decide)⟩

/-- In the directory `"/a"`, the path `"b"` leads to `"/a/b"`, but not in `execve`. -/
theorem execve_misses_relative :
    ∃ m : Machine, (m.core.processes 1).cwd = render [[0x61]] ∧ m.LooksUp 1 [0x62] ∧
      m.pathEntry 1 [0x62] ≠ none ∧ m.execveEntry [0x62] = none := by
  have hchain : Chainable pathStride [[0x61], [0x62]] :=
    ⟨by decide, by decide, by decide, by decide⟩
  have hprocess := cwd_chainMachine hchain true (render [[0x61]])
  refine ⟨_, hprocess, looksUp _ _ _, ?_, ?_⟩
  · rw [pathEntry_eq ⟨by decide, by decide⟩ hprocess ⟨by decide, by decide⟩]
    show walk (chain pathStride [[0x61], [0x62]] true) (flagged [[0x61], [0x62]]) ≠ none
    rw [walk_chain hchain, if_pos (by decide)]
    simp
  · show walk (chain pathStride [[0x61], [0x62]] true) (fields slash [0x62]) = none
    rw [walk_chain hchain, if_neg (by decide)]

end Machine

end Rhythmos.Kernel
