import Rhythmos.Filesystem.Catalogues
import Rhythmos.Fstool.Builder

/-!
# Directory trees and their images

What a host directory contains, as a tree, and the image of a tree: the table of a directory,
then the files and directories in it, each directory laid out in the same way.  The location
of everything is known from the sizes of what stands before it, so the image can be written
down without a second pass.
-/

namespace Rhythmos.Fstool

open ByteMemory Filesystem

/-! ## Trees -/

/-- A regular file that `stat` and `read` agree about. -/
structure FileNode where
  stat : Stat
  contents : List UInt8
  regular : stat.isReg = true
  size : stat.size = contents.length

/-- What `stat` says about a directory. -/
structure DirStat where
  stat : Stat
  directory : stat.isDir = true

/-- The files and directories in a directory, in the order in which `readdir` gives them. -/
inductive Tree where
  | nil
  | file (name : EntryName) (node : FileNode) (next : Tree)
  | dir (name : EntryName) (stat : DirStat) (children next : Tree)

theorem FileNode.isDir_stat (node : FileNode) : node.stat.isDir = false := by
  have hregular := node.regular
  rw [Stat.isReg, beq_iff_eq] at hregular
  rw [Stat.isDir, hregular]
  rfl

namespace Tree

/-- The number of entries in the table of the directory. -/
def count : Tree → ℕ
  | nil => 0
  | file _ _ next => next.count + 1
  | dir _ _ _ next => next.count + 1

/-- How deep directories are nested. -/
def height : Tree → ℕ
  | nil => 0
  | file _ _ next => next.height
  | dir _ _ children next => max (children.height + 1) next.height

/-- The number of bytes of a table with `count` entries. -/
def tableSize (count : ℕ) : ℕ := 4 + entrySize * count

/-- The number of bytes of everything in the directory. -/
def size : Tree → ℕ
  | nil => 0
  | file _ node next => node.contents.length + next.size
  | dir _ _ children next => tableSize children.count + children.size + next.size

/-- The number of bytes of a directory with everything in it. -/
def directorySize (tree : Tree) : ℕ := tableSize tree.count + tree.size

/-- The number of bytes of an image, whose first entry is the root. -/
def imageSize (tree : Tree) : ℕ := entrySize + tree.directorySize

end Tree

/-! ## Entries -/

/-- A `directory_entry` in which the location may not be known yet. -/
structure Entry where
  name : EntryName
  stat : Stat
  location : ℕ

/-- The bytes of an entry.  The name field has one byte more than `strncpy` fills in. -/
def Entry.bytes (entry : Entry) (last : UInt8) : List UInt8 :=
  word32 entry.stat.size ++ (word32 (if entry.stat.isDir then typeDir else typeFile) ++
    (word32 entry.location ++ (word32 entry.stat.mode ++ (word32 entry.stat.mtime ++
      (nameField entry.name.chars ++ [last])))))

/-- The entries of a table from number `i` on, in memory that had the contents `garbage`. -/
def entryBytes (garbage : Memory) : ℕ → List Entry → List UInt8
  | _, [] => []
  | i, entry :: entries =>
      entry.bytes (garbage (entryAddress 0 i + 275)) ++ entryBytes garbage (i + 1) entries

namespace Tree

/-- The entries before their locations are known. -/
def placeholders : Tree → List Entry
  | nil => []
  | file name node next => ⟨name, node.stat, 0⟩ :: next.placeholders
  | dir name stat _ next => ⟨name, stat.stat, 0⟩ :: next.placeholders

/-- The entries of a directory whose files and directories start at `location`. -/
def entries (location : ℕ) : Tree → List Entry
  | nil => []
  | file name node next =>
      ⟨name, node.stat, location⟩ :: next.entries (location + node.contents.length)
  | dir name stat children next =>
      ⟨name, stat.stat, location⟩ :: next.entries (location + children.directorySize)

end Tree

/-- The bytes of a table. -/
def tableBytes (garbage : Memory) (entries : List Entry) : List UInt8 :=
  word32 entries.length ++ entryBytes garbage 0 entries

/-! ## Images -/

section Images

variable (host : Host) (garbage : List UInt8 → Memory)

/-- The bytes of everything in the directory at `path`, from `location` on. -/
def contentBytes (path : List UInt8) (location : ℕ) : Tree → List UInt8
  | .nil => []
  | .file _ node next =>
      node.contents ++ contentBytes path (location + node.contents.length) next
  | .dir name _ children next =>
      let start := location + Tree.tableSize children.count
      let inner := fullPath host path name.chars
      (tableBytes (garbage inner) (children.entries start) ++ contentBytes inner start children) ++
        contentBytes path (location + children.directorySize) next

/-- The bytes of a directory with everything in it. -/
def directoryBytes (path : List UInt8) (location : ℕ) (tree : Tree) : List UInt8 :=
  tableBytes (garbage path) (tree.entries (location + Tree.tableSize tree.count)) ++
    contentBytes host garbage path (location + Tree.tableSize tree.count) tree

/-- The bytes of an image.  The root entry keeps what was in the memory of the fields that are
not set. -/
def imageBytes (root : Memory) (path : List UInt8) (tree : Tree) : List UInt8 :=
  Libc.loadBytes (rootEntry root) 0 entrySize ++ directoryBytes host garbage path entrySize tree

/-- The paths of everything in the directory at `path`, every directory before what is in
it. -/
def listing (path : List UInt8) : Tree → List (List UInt8)
  | .nil => []
  | .file name _ next => fullPath host path name.chars :: listing path next
  | .dir name _ children next =>
      let inner := fullPath host path name.chars
      (inner :: listing inner children) ++ listing path next

end Images

/-- The host reports a tree for the directory at a path, whose names come in the given order.
Names that are ignored and special files do not belong to the tree. -/
inductive Reports (host : Host) : List UInt8 → List (List UInt8) → Tree → Prop
  | nil (path) : Reports host path [] .nil
  | ignored {path names tree name} : ignoreFile name = true → Reports host path names tree →
      Reports host path (name :: names) tree
  | special {path names tree name st} : ignoreFile name = false →
      host.stat (fullPath host path name) = some st → st.isDir = false → st.isReg = false →
      Reports host path names tree → Reports host path (name :: names) tree
  | file {path names next chunks} (name : EntryName) (node : FileNode) :
      ignoreFile name.chars = false →
      host.stat (fullPath host path name.chars) = some node.stat →
      host.reads (fullPath host path name.chars) = some chunks →
      chunks.flatten = node.contents → Reports host path names next →
      Reports host path (name.chars :: names) (.file name node next)
  | dir {path names next inner children} (name : EntryName) (stat : DirStat) :
      ignoreFile name.chars = false →
      host.stat (fullPath host path name.chars) = some stat.stat →
      host.opendir (fullPath host path name.chars) = some inner →
      Reports host (fullPath host path name.chars) inner children →
      Reports host path names next →
      Reports host path (name.chars :: names) (.dir name stat children next)

/-! ## Sizes -/

@[simp]
theorem length_nameField (name : List UInt8) : (nameField name).length = maxFilenameLen := by
  rw [nameField, List.length_append, List.length_take, List.length_replicate]
  omega

@[simp]
theorem Entry.length_bytes (entry : Entry) (last : UInt8) :
    (entry.bytes last).length = entrySize := by
  simp [Entry.bytes, entrySize, maxFilenameLen]

@[simp]
theorem length_entryBytes (garbage : Memory) (i : ℕ) (entries : List Entry) :
    (entryBytes garbage i entries).length = entrySize * entries.length := by
  induction entries generalizing i with
  | nil => rfl
  | cons entry entries ih =>
      rw [entryBytes, List.length_append, Entry.length_bytes, ih, List.length_cons, Nat.mul_succ,
        Nat.add_comm]

theorem entryBytes_append (garbage : Memory) (i : ℕ) (left right : List Entry) :
    entryBytes garbage i (left ++ right) =
      entryBytes garbage i left ++ entryBytes garbage (i + left.length) right := by
  induction left generalizing i with
  | nil => rfl
  | cons entry left ih =>
      rw [List.cons_append, entryBytes, entryBytes, ih, List.append_assoc, List.length_cons,
        Nat.add_assoc, Nat.add_comm 1]

@[simp]
theorem length_tableBytes (garbage : Memory) (entries : List Entry) :
    (tableBytes garbage entries).length = Tree.tableSize entries.length := by
  rw [tableBytes, List.length_append, length_word32, length_entryBytes, Tree.tableSize]

@[simp]
theorem Tree.length_placeholders (tree : Tree) : tree.placeholders.length = tree.count := by
  induction tree with
  | nil => rfl
  | file name node next ih => rw [placeholders, List.length_cons, ih, count]
  | dir name stat children next _ ih => rw [placeholders, List.length_cons, ih, count]

@[simp]
theorem Tree.length_entries (tree : Tree) (location : ℕ) :
    (tree.entries location).length = tree.count := by
  induction tree generalizing location with
  | nil => rfl
  | file name node next ih => rw [entries, List.length_cons, ih, count]
  | dir name stat children next _ ih => rw [entries, List.length_cons, ih, count]

@[simp]
theorem length_contentBytes (host : Host) (garbage : List UInt8 → Memory) (path : List UInt8)
    (location : ℕ) (tree : Tree) :
    (contentBytes host garbage path location tree).length = tree.size := by
  induction tree generalizing path location with
  | nil => rfl
  | file name node next ih => rw [contentBytes, List.length_append, ih, Tree.size]
  | dir name stat children next ihChildren ihNext =>
      simp only [contentBytes, List.length_append, length_tableBytes, Tree.length_entries,
        ihChildren, ihNext, Tree.size]

@[simp]
theorem length_directoryBytes (host : Host) (garbage : List UInt8 → Memory) (path : List UInt8)
    (location : ℕ) (tree : Tree) :
    (directoryBytes host garbage path location tree).length = tree.directorySize := by
  simp [directoryBytes, Tree.directorySize]

theorem length_imageBytes (host : Host) (garbage : List UInt8 → Memory) (root : Memory)
    (path : List UInt8) (tree : Tree) :
    (imageBytes host garbage root path tree).length = tree.imageSize := by
  simp [imageBytes, Tree.imageSize]

end Rhythmos.Fstool
