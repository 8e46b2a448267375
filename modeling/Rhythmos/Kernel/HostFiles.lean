import Rhythmos.Fstool.Lookups
import Rhythmos.Kernel.FileReads

/-!
# Files of the host

The filesystem of the kernel is an image that `fstool` made from a directory of the host.  What
`open`, `read` and `getdent` do with it is stated in terms of that directory.
-/

namespace Rhythmos.Kernel

open Fallible ByteMemory Filesystem Libc Machine
open Fstool (Host Tree Node FileNode Garbage Reports Describes Stores StoresDirectory imageBytes
  maxImage build build_writes_image getDirectoryEntry_image)

/-! ## Entries of the image -/

/-- The entry that the kernel finds for a file or directory of the host. -/
def Serves (image : Image) (entry : DirectoryEntry) : Node → Prop
  | .file node =>
      entry.isDir = false ∧ entry.contents = node.contents ∧
        entry.mode = BitVec.ofNat 32 node.stat.mode ∧ entry.mtime = BitVec.ofNat 32 node.stat.mtime
  | .dir _ children =>
      entry.isDir = true ∧ StoresDirectory image.filesystem entry.location children

theorem ofNat_mod (n : ℕ) : BitVec.ofNat 32 (n % wordCount) = BitVec.ofNat 32 n := by
  apply BitVec.eq_of_toNat_eq
  simp [wordCount]

theorem serves_of_describes {image : Image} {entry : ℕ} {node : Node}
    (hdescribes : Describes image.filesystem entry node) :
    Serves image (.read image.filesystem entry) node := by
  cases node with
  | file node =>
      obtain ⟨hentry, htype, hsize, hcontents⟩ := hdescribes
      have hdir : typeAt image.filesystem entry ≠ typeDir := by
        rw [htype]
        decide
      refine ⟨decide_eq_false hdir, ?_, ?_, ?_⟩
      · rw [DirectoryEntry.read, hsize, loadBytes_bytesAt hcontents]
      · rw [DirectoryEntry.read, hentry.mode, ofNat_mod]
      · rw [DirectoryEntry.read, hentry.mtime, ofNat_mod]
  | dir stat children =>
      obtain ⟨htype, hdirectory⟩ : typeAt image.filesystem entry = typeDir ∧
          StoresDirectory image.filesystem (locationAt image.filesystem entry) children := by
        cases stat <;> exact hdescribes.2
      exact ⟨decide_eq_true htype, hdirectory⟩

/-- The kernel finds what the path leads to. -/
theorem getDirectoryEntry_serves {host : Host} {garbage : List UInt8 → Memory} {root : Memory}
    {dir : List UInt8} {tree : Tree} {image : Image}
    (hbytes : BytesAt image.filesystem 0 (imageBytes host garbage root dir tree))
    (hfits : tree.imageSize ≤ maxImage) (path : List UInt8) :
    Option.Rel (Serves image) (image.getDirectoryEntry path) (tree.resolve path) := by
  have hfound := getDirectoryEntry_image hbytes hfits path
  rw [Image.getDirectoryEntry]
  generalize Filesystem.getDirectoryEntry image.filesystem path = looked at hfound ⊢
  generalize tree.resolve path = found at hfound ⊢
  cases hfound with
  | none => exact .none
  | some hdescribes => exact .some (serves_of_describes hdescribes)

/-! ## Names -/

/-- The names in a directory. -/
def names : Tree → List EntryName
  | .nil => []
  | .file name _ next => name :: names next
  | .dir name _ _ next => name :: names next

theorem length_names (tree : Tree) : (names tree).length = tree.count := by
  induction tree with
  | nil => rfl
  | file name node next ih => rw [names, List.length_cons, ih, Tree.count]
  | dir name stat children next _ ih => rw [names, List.length_cons, ih, Tree.count]

/-- A string is in memory with its terminator. -/
theorem bytesAt_of_cString {memory : Memory} {name : List UInt8} {count address : ℕ}
    (hname : cString memory count address = name) (hlength : name.length < count) :
    BytesAt memory address (name ++ [0]) := by
  induction name generalizing count address with
  | nil =>
      obtain ⟨count, rfl⟩ := Nat.exists_eq_succ_of_ne_zero (Nat.ne_zero_of_lt hlength)
      rw [cString] at hname
      split at hname
      next hzero => exact bytesAt_singleton.mpr hzero
      next => cases hname
  | cons c name ih =>
      obtain ⟨count, rfl⟩ := Nat.exists_eq_succ_of_ne_zero (Nat.ne_zero_of_lt hlength)
      rw [cString] at hname
      split at hname
      next => cases hname
      next =>
        obtain ⟨hc, hrest⟩ := List.cons.inj hname
        rw [List.cons_append, bytesAt_cons]
        exact ⟨hc, ih hrest (Nat.lt_of_succ_lt_succ hlength)⟩

theorem bytesAt_of_nameAt {fs : Memory} {entry : ℕ} {name : EntryName}
    (hname : nameAt fs entry = name.chars) : BytesAt fs (entry + 20) (name.chars ++ [0]) := by
  have hlength := name.length_lt
  have hmax : maxFilenameLen < wordCount := by decide
  exact bytesAt_of_cString hname (hlength.trans hmax)

theorem name_of_stores {fs : Memory} {dir i : ℕ} {tree : Tree} (hstores : Stores fs dir i tree) :
    ∀ j (h : j < (names tree).length),
      BytesAt fs (entryAddress dir (i + j) + 20) (((names tree).get ⟨j, h⟩).chars ++ [0]) := by
  induction tree generalizing i with
  | nil => exact fun j h => absurd h (Nat.not_lt_zero j)
  | file name node next ih =>
      intro j h
      cases j with
      | zero => exact bytesAt_of_nameAt hstores.1
      | succ j =>
          have hnext := ih hstores.2.2.2.2 j (Nat.lt_of_succ_lt_succ h)
          rwa [Nat.add_assoc, Nat.add_comm 1 j] at hnext
  | dir name stat children next _ ih =>
      intro j h
      cases j with
      | zero => exact bytesAt_of_nameAt hstores.1
      | succ j =>
          have hnext := ih hstores.2.2.2.2 j (Nat.lt_of_succ_lt_succ h)
          rwa [Nat.add_assoc, Nat.add_comm 1 j] at hnext

theorem holdsNames_stored {fs : Memory} {dir : ℕ} {tree : Tree}
    (hstores : StoresDirectory fs dir tree) : HoldsNames fs dir (names tree) := by
  refine ⟨hstores.1.trans (length_names tree).symm, fun j h => ?_⟩
  have hname := name_of_stores hstores.2 j h
  rwa [Nat.zero_add] at hname

/-! ## Images for trees -/

/-- All files and directories are smaller than 2MB. -/
def Small : Tree → Prop
  | .nil => True
  | .file _ node next => node.contents.length < 2 * mb ∧ Small next
  | .dir _ stat children next => stat.stat.size % wordCount < 2 * mb ∧ Small children ∧ Small next

/-- The size in the entry of a file or directory. -/
def nodeSize : Node → ℕ
  | .file node => node.contents.length
  | .dir none _ => 0
  | .dir (some stat) _ => stat.stat.size % wordCount

def SmallNode (node : Node) : Prop :=
  nodeSize node < 2 * mb ∧ match node with
    | .file _ => True
    | .dir _ children => Small children

theorem small_find {tree : Tree} (hsmall : Small tree) {name : List UInt8} {node : Node}
    (hfind : tree.find name = some node) : SmallNode node := by
  induction tree with
  | nil => cases hfind
  | file other file next ih =>
      obtain ⟨hsize, hnext⟩ := hsmall
      rw [Tree.find] at hfind
      split at hfind
      · obtain rfl := Option.some_injective _ hfind
        exact ⟨hsize, trivial⟩
      · exact ih hnext hfind
  | dir other stat children next _ ih =>
      obtain ⟨hsize, hchildren, hnext⟩ := hsmall
      rw [Tree.find] at hfind
      split at hfind
      · obtain rfl := Option.some_injective _ hfind
        exact ⟨hsize, hchildren⟩
      · exact ih hnext hfind

theorem small_follow {tree : Tree} (hsmall : Small tree) {node found : Node}
    (hnode : SmallNode node) {path : List (List UInt8 × Bool)}
    (hfollow : tree.follow node path = some found) : SmallNode found := by
  induction path generalizing tree node with
  | nil =>
      obtain rfl := Option.some_injective _ hfollow
      exact hnode
  | cons field rest ih =>
      obtain ⟨name, last⟩ := field
      rw [Tree.follow] at hfollow
      split at hfollow
      next => cases hfollow
      next file hfind =>
        split at hfollow
        · exact ih hsmall (small_find hsmall hfind) hfollow
        · cases hfollow
      next stat children hfind =>
        have hfound := small_find hsmall hfind
        exact ih hfound.2 hfound hfollow

/-- A machine can have the image of a tree whose files and directories are small. -/
theorem exists_image (host : Host) (garbage : List UInt8 → Memory) (root : Memory)
    (dir : List UInt8) {tree : Tree} (hfits : tree.imageSize ≤ maxImage) (hsmall : Small tree) :
    ∃ image : Image, BytesAt image.filesystem 0 (imageBytes host garbage root dir tree) := by
  have hbytes := bytesAt_ofList (imageBytes host garbage root dir tree)
  have hsizes : ∀ path entry,
      Filesystem.getDirectoryEntry (ofList (imageBytes host garbage root dir tree)) path =
        some entry →
      sizeAt (ofList (imageBytes host garbage root dir tree)) entry < 2 * mb := by
    intro path entry hlooked
    have hfound := getDirectoryEntry_image hbytes hfits path
    rw [hlooked] at hfound
    generalize hresolve : tree.resolve path = found at hfound
    cases hfound with
    | @some _ node hdescribes =>
        have hroot : SmallNode (.dir none tree) := ⟨(by decide : 0 < 2 * mb), hsmall⟩
        have hnode := (small_follow hsmall hroot hresolve).1
        cases node with
        | file node =>
            rw [hdescribes.2.2.1]
            exact hnode
        | dir stat children =>
            cases stat with
            | none =>
                rw [hdescribes.1.2]
                exact hnode
            | some stat =>
                rw [hdescribes.1.size]
                exact hnode
  exact ⟨{ bare with filesystem := ofList _, size_lt := hsizes }, hbytes⟩

/-! ## Reads and listings -/

/-- A file of the host goes through an image and the kernel unchanged: however the reads of the
file are cut and distributed over descriptors and processes, together they have returned the
bytes of the host's file up to the position, and the next one returns the bytes behind it. -/
theorem reads_deliver_host_file {host : Host} {dir : List UInt8} {found : List (List UInt8)}
    {tree : Tree} (hopendir : host.opendir dir = some found)
    (hreports : Reports host dir found tree) (hfits : tree.imageSize ≤ maxImage) {depth : ℕ}
    (hdepth : tree.height < depth) (garbage : Garbage) :
    ∃ bytes printed, build host garbage depth dir = .ok (bytes, printed) ∧
      ∀ image : Image, BytesAt image.filesystem 0 bytes → ∀ path node,
        tree.resolve path = some (.file node) →
        ∃ entry, image.getDirectoryEntry path = some entry ∧ entry.isDir = false ∧
          entry.mode = BitVec.ofNat 32 node.stat.mode ∧
          entry.mtime = BitVec.ofNat 32 node.stat.mtime ∧
          ∀ fh delivered m, Reading image entry fh delivered m →
            ∃ handle, m.core.handles fh = some handle ∧
              handle.pos ≤ node.contents.length ∧ delivered = node.contents.take handle.pos ∧
              ∀ pid slot fd buf count, m.core.lookup pid fd = some (slot, fh) →
                Placed (m.spaces pid) →
                validPointer (m.spaces pid) buf.toNat count.toNat = true →
                ∃ next, next = (node.contents.drop handle.pos).take count.toNat ∧
                  m.syscallRead pid fd buf count = (do
                    let m ← (m.setCore (m.core.setHandle fh (some { handle with
                      pos := handle.pos + next.length }))).copyOut pid buf.toNat next
                    return (m, BitVec.ofNat 32 next.length)) := by
  refine ⟨_, _, build_writes_image hopendir hreports hfits hdepth garbage, ?_⟩
  intro image hbytes path node hpath
  have hserves := getDirectoryEntry_serves hbytes hfits path
  rw [hpath] at hserves
  cases hlooked : image.getDirectoryEntry path with
  | none =>
      rw [hlooked] at hserves
      cases hserves
  | some entry =>
      rw [hlooked] at hserves
      obtain ⟨hfile, hcontents, hmode, hmtime⟩ : Serves image entry (.file node) := by
        cases hserves with
        | some hserves => exact hserves
      refine ⟨entry, rfl, hfile, hmode, hmtime, ?_⟩
      intro fh delivered m hreading
      obtain ⟨handle, hread⟩ := hreading.position
      have hpos := hread.pos_le
      refine ⟨handle, hread.handle_eq, hcontents ▸ hpos, hcontents ▸ hread.delivered_eq, ?_⟩
      intro pid slot fd buf count hlookup hplaced hvalid
      have hword := hread.position_lt hplaced hvalid
      have hcall := hread.syscallRead_eq hlookup hvalid hword
      have hnext : (entry.contents.drop handle.pos).take (handle.available entry count.toNat) =
          (node.contents.drop handle.pos).take count.toNat := by
        rw [hcontents, FileHandle.available, hcontents, ← List.length_drop, List.take_eq_take_iff]
        omega
      have hlength : ((node.contents.drop handle.pos).take count.toNat).length =
          handle.available entry count.toNat := by
        rw [List.length_take, List.length_drop, FileHandle.available, hcontents]
      refine ⟨_, rfl, ?_⟩
      rw [hcall, hnext, hlength]

theorem small_smallTree : Small Fstool.smallTree :=
  ⟨by decide, by decide, trivial, trivial⟩

theorem opendir_smallHost :
    Fstool.smallHost.opendir [0x64] = some [Filesystem.dot, [0x66], [0x73]] := rfl

theorem height_smallTree : Fstool.smallTree.height < 2 := by decide

/-- A process opens the file of the image and reads two bytes. -/
theorem reads_deliver_host_file_small :
    ∃ (image : Image) (entry : DirectoryEntry) (m : Machine) (handle : FileHandle),
      image.getDirectoryEntry [slash, 0x66] = some entry ∧
      Reading image entry 0 (entry.contents.take 2) m ∧ m.core.handles 0 = some handle ∧
      entry.contents.take 2 = [1, 2, 3].take handle.pos := by
  obtain ⟨bytes, printed, hbuild, hserves⟩ :=
    reads_deliver_host_file opendir_smallHost Fstool.reports_smallTree (by decide)
      height_smallTree ⟨fun _ => 0, fun _ _ => 0, fun _ => 0⟩
  obtain ⟨image, himage⟩ := exists_image Fstool.smallHost (fun _ _ => 0) (fun _ => 0) [0x64]
    (by decide) small_smallTree
  have hbytes := build_writes_image opendir_smallHost Fstool.reports_smallTree (by decide)
    height_smallTree ⟨fun _ => 0, fun _ _ => 0, fun _ => 0⟩
  obtain ⟨rfl, -⟩ := Prod.mk.inj (Except.ok.inj (hbuild.symm.trans hbytes))
  obtain ⟨entry, hentry, hfile, -, -, hreads⟩ :=
    hserves image himage [slash, 0x66] Fstool.smallFile rfl
  obtain ⟨m, hreading⟩ := exists_reading hentry hfile
  obtain ⟨handle, hhandle, -, hdelivered, -⟩ := hreads 0 _ m hreading
  exact ⟨image, entry, m, handle, hentry, hreading, hhandle, hdelivered⟩

/-- `getdent` lists a directory of the host: the calls on a handle of the directory deliver the
names of what is in it, in the order of the host, and then return 0 for ever.  The kernel prints
a name as a format, so that no name may contain a `'%'`. -/
theorem getdent_lists_host_directory {host : Host} {dir : List UInt8} {found : List (List UInt8)}
    {tree : Tree} (hopendir : host.opendir dir = some found)
    (hreports : Reports host dir found tree) (hfits : tree.imageSize ≤ maxImage) {depth : ℕ}
    (hdepth : tree.height < depth) (garbage : Garbage) :
    ∃ bytes printed, build host garbage depth dir = .ok (bytes, printed) ∧
      ∀ image : Image, BytesAt image.filesystem 0 bytes → ∀ path stat children,
        tree.resolve path = some (.dir stat children) →
        (∀ name ∈ names children, Printf.ascii '%' ∉ name.chars) →
        ∃ entry, image.getDirectoryEntry path = some entry ∧ entry.isDir = true ∧
          Lists image entry (names children) := by
  refine ⟨_, _, build_writes_image hopendir hreports hfits hdepth garbage, ?_⟩
  intro image hbytes path stat children hpath hnames
  have hserves := getDirectoryEntry_serves hbytes hfits path
  rw [hpath] at hserves
  cases hlooked : image.getDirectoryEntry path with
  | none =>
      rw [hlooked] at hserves
      cases hserves
  | some entry =>
      rw [hlooked] at hserves
      obtain ⟨hdir, hstores⟩ : Serves image entry (.dir stat children) := by
        cases hserves with
        | some hserves => exact hserves
      exact ⟨entry, rfl, hdir, lists_plain hdir (holdsNames_stored hstores) hnames⟩

theorem getdent_lists_host_directory_small :
    ∃ (image : Image) (entry : DirectoryEntry), image.getDirectoryEntry [slash] = some entry ∧
      Lists image entry [Fstool.fileName, Fstool.subdirectoryName] := by
  obtain ⟨bytes, printed, hbuild, hlists⟩ :=
    getdent_lists_host_directory opendir_smallHost Fstool.reports_smallTree (by decide)
      height_smallTree ⟨fun _ => 0, fun _ _ => 0, fun _ => 0⟩
  obtain ⟨image, himage⟩ := exists_image Fstool.smallHost (fun _ _ => 0) (fun _ => 0) [0x64]
    (by decide) small_smallTree
  have hbytes := build_writes_image opendir_smallHost Fstool.reports_smallTree (by decide)
    height_smallTree ⟨fun _ => 0, fun _ _ => 0, fun _ => 0⟩
  obtain ⟨rfl, -⟩ := Prod.mk.inj (Except.ok.inj (hbuild.symm.trans hbytes))
  obtain ⟨entry, hentry, -, hlist⟩ := hlists image himage [slash] none Fstool.smallTree rfl
    (by decide)
  exact ⟨image, entry, hentry, hlist⟩

end Rhythmos.Kernel
