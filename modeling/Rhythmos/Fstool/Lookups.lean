import Rhythmos.Fstool.Encoding

/-!
# Lookups in an image of a tree

The image of a tree is read back: every entry of a table has the name, the kind and the
location that it was written with.  A lookup in a directory therefore finds what the tree has
under that name, and a walk along a path finds what the path leads to in the tree.
-/

namespace Rhythmos.Fstool

open ByteMemory Components Filesystem

/-! ## Paths in a tree -/

/-- What a path can lead to.  The host says nothing about the root except what is in it. -/
inductive Node where
  | file (node : FileNode)
  | dir (stat : Option DirStat) (children : Tree)

/-- The first file or directory with a name. -/
def Tree.find (name : List UInt8) : Tree → Option Node
  | nil => none
  | file other node next => if other.chars = name then some (.file node) else next.find name
  | dir other stat children next =>
      if other.chars = name then some (.dir (some stat) children) else next.find name

/-- Follow the rest of a path in a directory, where the path has led to `node` so far.  A file
must be at the end of the path. -/
def Tree.follow : Tree → Node → List (List UInt8 × Bool) → Option Node
  | _, node, [] => some node
  | tree, _, (name, last) :: rest =>
      match tree.find name with
      | none => none
      | some (.file node) => if last then tree.follow (.file node) rest else none
      | some (.dir stat children) => children.follow (.dir stat children) rest

/-- What a path leads to, from the root. -/
def Tree.resolve (tree : Tree) (path : List UInt8) : Option Node :=
  tree.follow (.dir none tree) (fields slash path)

/-! ## What an image says about a tree -/

variable {fs : Memory}

/-- The entry at an address. -/
structure EntryAt (fs : Memory) (address : ℕ) (st : Stat) : Prop where
  size : sizeAt fs address = st.size % wordCount
  type : typeAt fs address = if st.isDir then typeDir else typeFile
  mode : modeAt fs address = st.mode % wordCount
  mtime : mtimeAt fs address = st.mtime % wordCount

/-- The image has everything in a directory, from the entry with the number `i` on. -/
def Stores (fs : Memory) : ℕ → ℕ → Tree → Prop
  | _, _, .nil => True
  | dir, i, .file name node next =>
      nameAt fs (entryAddress dir i) = name.chars ∧
        EntryAt fs (entryAddress dir i) node.stat ∧
        sizeAt fs (entryAddress dir i) = node.contents.length ∧
        BytesAt fs (locationAt fs (entryAddress dir i)) node.contents ∧ Stores fs dir (i + 1) next
  | dir, i, .dir name stat children next =>
      nameAt fs (entryAddress dir i) = name.chars ∧
        EntryAt fs (entryAddress dir i) stat.stat ∧
        load32 fs (locationAt fs (entryAddress dir i)) = children.count ∧
        Stores fs (locationAt fs (entryAddress dir i)) 0 children ∧ Stores fs dir (i + 1) next

/-- The image has a directory at an address. -/
def StoresDirectory (fs : Memory) (dir : ℕ) (tree : Tree) : Prop :=
  load32 fs dir = tree.count ∧ Stores fs dir 0 tree

/-- An entry of the image is that of a file or directory.  That of the root has the size zero, and
its mode and time are never set. -/
def Describes (fs : Memory) (entry : ℕ) : Node → Prop
  | .file node =>
      EntryAt fs entry node.stat ∧ typeAt fs entry = typeFile ∧
        sizeAt fs entry = node.contents.length ∧
        BytesAt fs (locationAt fs entry) node.contents
  | .dir none children =>
      (entry = 0 ∧ sizeAt fs entry = 0) ∧ typeAt fs entry = typeDir ∧
        StoresDirectory fs (locationAt fs entry) children
  | .dir (some stat) children =>
      EntryAt fs entry stat.stat ∧ typeAt fs entry = typeDir ∧
        StoresDirectory fs (locationAt fs entry) children

/-! ## Reading entries -/

variable {address : ℕ} {entry : Entry} {last : UInt8}

theorem entryAt_of_bytes (hentry : BytesAt fs address (entry.bytes last)) :
    EntryAt fs address entry.stat := by
  obtain ⟨hsize, -, -, hmode, hmtime, -⟩ := bytesAt_entry.mp hentry
  exact ⟨load32_bytesAt_mod hsize, typeAt_entry hentry, load32_bytesAt_mod hmode,
    load32_bytesAt_mod hmtime⟩

theorem locationAt_entry (hentry : BytesAt fs address (entry.bytes last))
    (hlocation : entry.location < wordCount) : locationAt fs address = entry.location := by
  obtain ⟨-, -, hbytes, -⟩ := bytesAt_entry.mp hentry
  exact load32_bytesAt hbytes hlocation

/-! ## Reading directories -/

theorem entryAddress_succ (dir i : ℕ) :
    entryAddress dir (i + 1) = entryAddress dir i + entrySize := by
  rw [entryAddress, entryAddress, Nat.mul_succ, ← Nat.add_assoc]

theorem le_tableSize (count : ℕ) : count ≤ Tree.tableSize count := by
  rw [Tree.tableSize, entrySize, maxFilenameLen]
  omega

section Reading

variable {host : Host} {garbage : List UInt8 → Memory}

/-- Everything in a directory is stored where its entries say. -/
theorem stores_of_bytes {dir i location : ℕ} {memory : Memory} {path : List UInt8} {tree : Tree}
    (hentries : BytesAt fs (entryAddress dir i) (entryBytes memory i (tree.entries location)))
    (hcontents : BytesAt fs location (contentBytes host garbage path location tree))
    (hfits : location + tree.size < wordCount) : Stores fs dir i tree := by
  induction tree generalizing dir i location memory path with
  | nil => exact trivial
  | file name node next ih =>
      rw [Tree.size] at hfits
      rw [Tree.entries, entryBytes, bytesAt_append, Entry.length_bytes,
        ← entryAddress_succ] at hentries
      rw [contentBytes, bytesAt_append] at hcontents
      have hlocation := locationAt_entry hentries.1 (by simp only; omega)
      have hentry := entryAt_of_bytes hentries.1
      refine ⟨nameAt_entry hentries.1, hentry, ?_, ?_, ?_⟩
      · rw [hentry.size]
        simp only
        rw [node.size, Nat.mod_eq_of_lt (by omega)]
      · rw [hlocation]
        exact hcontents.1
      · exact ih hentries.2 hcontents.2 (by omega)
  | dir name stat children next ihChildren ihNext =>
      rw [Tree.size] at hfits
      rw [Tree.entries, entryBytes, bytesAt_append, Entry.length_bytes,
        ← entryAddress_succ] at hentries
      rw [contentBytes, bytesAt_append, bytesAt_append] at hcontents
      obtain ⟨⟨htable, hchildren⟩, hnext⟩ := hcontents
      rw [length_tableBytes, Tree.length_entries] at hchildren
      rw [List.length_append, length_tableBytes, Tree.length_entries, length_contentBytes,
        ← Tree.directorySize] at hnext
      rw [tableBytes, bytesAt_append, length_word32, Tree.length_entries] at htable
      have hlocation := locationAt_entry hentries.1 (by simp only; omega)
      simp only at hlocation
      refine ⟨nameAt_entry hentries.1, entryAt_of_bytes hentries.1, ?_, ?_, ?_⟩
      · rw [hlocation]
        exact load32_bytesAt htable.1 (by have := le_tableSize children.count; omega)
      · rw [hlocation]
        exact ihChildren htable.2 hchildren (by omega)
      · refine ihNext hentries.2 hnext ?_
        rw [Tree.directorySize]
        omega

theorem storesDirectory_of_bytes {location : ℕ} {path : List UInt8} {tree : Tree}
    (hbytes : BytesAt fs location (directoryBytes host garbage path location tree))
    (hfits : location + tree.directorySize < wordCount) : StoresDirectory fs location tree := by
  rw [Tree.directorySize] at hfits
  rw [directoryBytes, bytesAt_append, length_tableBytes, Tree.length_entries] at hbytes
  obtain ⟨htable, hcontents⟩ := hbytes
  rw [tableBytes, bytesAt_append, length_word32, Tree.length_entries] at htable
  have hcount := le_tableSize tree.count
  refine ⟨load32_bytesAt htable.1 (by omega), ?_⟩
  exact stores_of_bytes htable.2 hcontents (by omega)

/-- The words of the root entry. -/
theorem root_of_bytes {root : Memory} {path : List UInt8} {tree : Tree}
    (himage : BytesAt fs 0 (imageBytes host garbage root path tree)) :
    sizeAt fs 0 = 0 ∧ typeAt fs 0 = typeDir ∧ locationAt fs 0 = entrySize := by
  have hroot := (bytesAt_append.mp himage).1
  have hsame : ∀ x < entrySize, fs x = rootEntry root x := by
    intro x hx
    have hbyte := hroot x (by rwa [Libc.length_loadBytes])
    simpa [Libc.loadBytes] using hbyte
  have hword : ∀ address, address + 4 ≤ 12 →
      load32 fs address = load32 (store32 (store32 (store32 root 0 0) 4 typeDir) 8 entrySize)
        address := by
    intro address haddress
    have hsize : 12 ≤ entrySize := by decide
    refine load32_congr fun x hlow hhigh => ?_
    rw [hsame x (by omega), rootEntry]
    exact Libc.storeBytes_off _ _ _ (.inl (by omega))
  refine ⟨?_, ?_, ?_⟩
  · rw [sizeAt, hword 0 (by decide), load32_store32_off _ _ _ (by decide),
      load32_store32_off _ _ _ (by decide), load32_store32_same _ _ (by decide)]
  · rw [typeAt, hword (0 + 4) (by decide), load32_store32_off _ _ _ (by decide),
      load32_store32_same _ _ (by decide)]
  · rw [locationAt, hword (0 + 8) (by decide), load32_store32_same _ _ (by decide)]

/-- The root entry of an image describes the root of the tree. -/
theorem describes_root {root : Memory} {path : List UInt8} {tree : Tree}
    (himage : BytesAt fs 0 (imageBytes host garbage root path tree))
    (hfits : tree.imageSize ≤ maxImage) : Describes fs 0 (.dir none tree) := by
  obtain ⟨hsize, htype, hlocation⟩ := root_of_bytes himage
  have hdirectory := (bytesAt_append.mp himage).2
  rw [Libc.length_loadBytes, Nat.zero_add] at hdirectory
  refine ⟨⟨rfl, hsize⟩, htype, hlocation ▸ storesDirectory_of_bytes hdirectory ?_⟩
  rw [Tree.imageSize, maxImage] at hfits
  rw [wordCount]
  omega

end Reading

/-! ## Lookups -/

/-- A lookup from an entry on finds what the rest of the tree has under the name. -/
theorem lookupFrom_stored {dir i : ℕ} {tree : Tree} (hstores : Stores fs dir i tree)
    (name : List UInt8) :
    Option.Rel (Describes fs) (lookupFrom fs dir name tree.count i) (tree.find name) := by
  induction tree generalizing i with
  | nil => exact .none
  | file other node next ih =>
      obtain ⟨hname, hentry, hsize, hcontents, hnext⟩ := hstores
      rw [Tree.count, lookupFrom, Tree.find, hname]
      split
      · have htype : typeAt fs (entryAddress dir i) = typeFile := by
          rw [hentry.type, node.isDir_stat]
          rfl
        exact .some ⟨hentry, htype, hsize, hcontents⟩
      · exact ih hnext
  | dir other stat children next _ ih =>
      obtain ⟨hname, hentry, hcount, hchildren, hnext⟩ := hstores
      rw [Tree.count, lookupFrom, Tree.find, hname]
      split
      · refine .some ⟨hentry, ?_, hcount, hchildren⟩
        rw [hentry.type, stat.directory]
        rfl
      · exact ih hnext

/-- What the cursor of a walk stands for: the entry it has come to, and the directory in which
the walk goes on. -/
def Reached (fs : Memory) (cursor : Cursor) (tree : Tree) (node : Node) : Prop :=
  Describes fs cursor.entry node ∧ StoresDirectory fs cursor.dir tree

/-- A walk through an image follows the path in the tree. -/
theorem foldlM_enter {cursor : Cursor} {tree : Tree} {node : Node}
    (hreached : Reached fs cursor tree node) (path : List (List UInt8 × Bool)) :
    Option.Rel (Describes fs) ((path.foldlM (enter fs) cursor).map Cursor.entry)
      (tree.follow node path) := by
  induction path generalizing cursor tree node with
  | nil => exact .some hreached.1
  | cons field rest ih =>
      obtain ⟨name, last⟩ := field
      have hfound := lookupFrom_stored hreached.2.2 name
      rw [← hreached.2.1] at hfound
      rw [List.foldlM_cons, enter, lookup, Tree.follow]
      generalize lookupFrom fs cursor.dir name (load32 fs cursor.dir) 0 = looked at hfound
      generalize tree.find name = found at hfound
      cases hfound with
      | none => exact .none
      | @some entry found hdescribes =>
          simp only [Option.bind_eq_bind]
          cases found with
          | file file =>
              have htype : typeAt fs entry ≠ typeDir := by
                rw [hdescribes.2.1]
                decide
              rw [if_neg htype]
              cases last with
              | true => exact ih ⟨hdescribes, hreached.2⟩
              | false => exact .none
          | dir stat children =>
              obtain ⟨htype, hdirectory⟩ : typeAt fs entry = typeDir ∧
                  StoresDirectory fs (locationAt fs entry) children := by
                cases stat <;> exact hdescribes.2
              rw [if_pos htype]
              exact ih ⟨hdescribes, hdirectory⟩

/-- `get_directory_entry` in the image of a tree finds what the path leads to. -/
theorem getDirectoryEntry_image {host : Host} {garbage : List UInt8 → Memory} {root : Memory}
    {dir : List UInt8} {tree : Tree}
    (himage : BytesAt fs 0 (imageBytes host garbage root dir tree))
    (hfits : tree.imageSize ≤ maxImage) (path : List UInt8) :
    Option.Rel (Describes fs) (getDirectoryEntry fs path) (tree.resolve path) := by
  have hroot := describes_root himage hfits
  exact foldlM_enter ⟨hroot, hroot.2.2⟩ _

/-- The round trip: whatever the host reports can be looked up in the image that `fstool` makes
of it.  A path is found in the image if and only if it leads to a file or a directory of the
tree, and the entry found has its type, size, mode and time, and its contents; that of the root
has the size zero instead, and no mode or time. -/
theorem lookups_find_tree {host : Host} {dir : List UInt8} {names : List (List UInt8)}
    {tree : Tree} (hopendir : host.opendir dir = some names)
    (hreports : Reports host dir names tree) (hfits : tree.imageSize ≤ maxImage) {depth : ℕ}
    (hdepth : tree.height < depth) (garbage : Garbage) :
    ∃ image, build host garbage depth dir = .ok (image, listing host dir tree) ∧
      image.length = tree.imageSize ∧ ∀ fs, BytesAt fs 0 image → ∀ path,
        Option.Rel (Describes fs) (getDirectoryEntry fs path) (tree.resolve path) := by
  refine ⟨_, build_writes_image hopendir hreports hfits hdepth garbage,
    length_imageBytes _ _ _ _ _, ?_⟩
  intro fs hfs path
  exact getDirectoryEntry_image hfs hfits path

theorem lookups_find_tree_small :
    ∃ image, build smallHost ⟨fun _ => 0, fun _ _ => 0, fun _ => 0⟩ 2 [0x64] =
        .ok (image, listing smallHost [0x64] smallTree) ∧
      image.length = smallTree.imageSize ∧ ∀ fs, BytesAt fs 0 image → ∀ path,
        Option.Rel (Describes fs) (getDirectoryEntry fs path) (smallTree.resolve path) :=
  lookups_find_tree rfl reports_smallTree (by decide) (by decide) _

end Rhythmos.Fstool
