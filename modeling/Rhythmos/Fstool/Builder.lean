import Rhythmos.Filesystem.Images
import Rhythmos.Library.Fallible
import Rhythmos.Libc.Memmove

/-!
# `fstool -build`

The program that makes a filesystem image from a directory of the host.  It appends to a
buffer that doubles as it fills.  For every directory it appends a table whose locations are
still zero, then the files and directories in the table one after the other, and in the end
it copies the table, with the locations filled in, over the place of the first one.

The host is a parameter: what its `opendir`, `stat` and `read` say about a path, and its
`PATH_MAX`.  So are the contents of memory that the program never sets.
-/

namespace Rhythmos.Fstool

open ByteMemory Libc Filesystem

/-- Why `fstool` makes no image. -/
inductive Fault where
  /-- a call of the host fails, and the program exits -/
  | exits
  /-- a loop or a recursion never ends -/
  | diverges
  /-- the buffer is written past its end -/
  | overrun
  deriving DecidableEq, Repr

/-! ## The host -/

/-- The fields of a `struct stat` that the program reads. -/
structure Stat where
  mode : ℕ
  size : ℕ
  mtime : ℕ

/-- `S_ISDIR` -/
def Stat.isDir (st : Stat) : Bool := st.mode &&& 0o170000 == 0o040000

/-- `S_ISREG` -/
def Stat.isReg (st : Stat) : Bool := st.mode &&& 0o170000 == 0o100000

structure Host where
  /-- `PATH_MAX`, which the headers of the host may define again -/
  pathMax : ℕ
  /-- the names that `readdir` gives for a directory, or `none` where `opendir` fails -/
  opendir : List UInt8 → Option (List (List UInt8))
  /-- `none` where `stat` fails -/
  stat : List UInt8 → Option Stat
  /-- what the calls of `read` give until one gives nothing, or `none` where `open` fails -/
  reads : List UInt8 → Option (List (List UInt8))

/-- What memory contains before the program sets it. -/
structure Garbage where
  /-- the variable `root` of `main` -/
  root : Memory
  /-- the memory of the table for the directory at a path -/
  table : List UInt8 → Memory
  /-- the buffer -/
  buffer : Memory

/-- `snprintf(fullpath, PATH_MAX, "%s/%s", path, name)` -/
def fullPath (host : Host) (path name : List UInt8) : List UInt8 :=
  (path ++ slash :: name).take (host.pathMax - 1)

/-! ## The buffer -/

structure Output where
  alloc : ℕ
  size : ℕ
  data : Memory

/-- The loop that doubles `alloc`.  A product that overflows is zero and stays so. -/
def growLoop (needed : ℕ) : ℕ → ℕ → Except Fault ℕ
  | 0, _ => .error .diverges
  | rounds + 1, alloc =>
      if alloc < needed then growLoop needed rounds (alloc * 2 % wordCount) else .ok alloc

/-- `output_append` -/
def outputAppend (out : Output) (bytes : List UInt8) : Except Fault Output := do
  let alloc ← growLoop ((out.size + bytes.length) % wordCount) 34 out.alloc
  if out.size + bytes.length ≤ alloc then
    return {
      alloc := alloc
      size := out.size + bytes.length
      data := storeBytes out.data out.size bytes }
  else throw .overrun

/-- `process_file` -/
def processFile (host : Host) (out : Output) (path : List UInt8) : Except Fault Output :=
  match host.reads path with
  | none => .error .exits
  | some chunks => chunks.foldlM outputAppend out

/-! ## Tables -/

/-- `newdirect` with `alloc` -/
structure Table where
  alloc : ℕ
  data : Memory

/-- `ignore_file`: `"."`, `".."` and `".svn"` -/
def ignoreFile (name : List UInt8) : Bool :=
  name == dot || name == dotDot || name == [0x2E, 0x73, 0x76, 0x6E]

/-- What `strncpy(ent->name, name, MAX_FILENAME_LEN)` stores. -/
def nameField (name : List UInt8) : List UInt8 :=
  name.take maxFilenameLen ++ List.replicate (maxFilenameLen - name.length) 0

/-- The statements that add an entry to a table. -/
def addEntry (table : Table) (name : List UInt8) (st : Stat) : Table :=
  let count := load32 table.data 0
  let ent := entryAddress 0 count
  let data := store32 table.data 0 (count + 1)
  let data := store32 data ent st.size
  let data := store32 data (ent + 4) (if st.isDir then typeDir else typeFile)
  let data := store32 data (ent + 8) 0
  let data := store32 data (ent + 12) st.mode
  let data := store32 data (ent + 16) st.mtime
  { alloc := (table.alloc + entrySize) % wordCount
    data := storeBytes data (ent + 20) (nameField name) }

/-- One round of the loop over the names in a directory. -/
def scanName (host : Host) (path : List UInt8) (table : Table) (name : List UInt8) :
    Except Fault Table :=
  if ignoreFile name then .ok table
  else
    match host.stat (fullPath host path name) with
    | none => .error .exits
    | some st => .ok (if st.isDir || st.isReg then addEntry table name st else table)

/-- A table without entries. -/
def emptyTable (garbage : Memory) : Table where
  alloc := 4
  data := store32 garbage 0 0

/-! ## Directories -/

/-- The variables of `process_dir` while it appends the files of a directory, and what was
printed so far. -/
structure Progress where
  out : Output
  data : Memory
  printed : List (List UInt8)

/-- One round of the loop over the entries of a table.  `recurse` is `process_dir`. -/
def placeEntry (host : Host)
    (recurse : Output → List UInt8 → Except Fault (Output × List (List UInt8)))
    (path : List UInt8) (progress : Progress) (i : ℕ) : Except Fault Progress := do
  let ent := entryAddress 0 i
  let full := fullPath host path (nameAt progress.data ent)
  let data := store32 progress.data (ent + 8) progress.out.size
  if typeAt data ent = typeDir then
    let (out, printed) ← recurse progress.out full
    return ⟨out, data, progress.printed ++ full :: printed⟩
  else
    let out ← processFile host progress.out full
    return ⟨out, data, progress.printed ++ [full]⟩

/-- `process_dir`, with the paths it prints.  The first argument bounds the depth of the
recursion. -/
def processDir (host : Host) (garbage : List UInt8 → Memory) :
    ℕ → Output → List UInt8 → Except Fault (Output × List (List UInt8))
  | 0, _, _ => .error .diverges
  | depth + 1, out, path =>
      match host.opendir path with
      | none => .error .exits
      | some names => do
          let table ← names.foldlM (scanName host path) (emptyTable (garbage path))
          let diroffset := out.size
          let out ← outputAppend out (loadBytes table.data 0 table.alloc)
          let progress ← (List.range (load32 table.data 0)).foldlM
            (placeEntry host (processDir host garbage depth) path) ⟨out, table.data, []⟩
          let out := { progress.out with
            data := storeBytes progress.out.data diroffset
              (loadBytes progress.data 0 table.alloc) }
          return (out, progress.printed)

/-! ## The program -/

/-- `"ROOT"` -/
def rootName : List UInt8 := [0x52, 0x4F, 0x4F, 0x54]

/-- The variable `root` when it is appended. -/
def rootEntry (garbage : Memory) : Memory :=
  let root := store32 garbage 0 0
  let root := store32 root 4 typeDir
  let root := store32 root 8 entrySize
  storeBytes root 20 (rootName ++ [0])

/-- `main` for `-build`: the bytes of the image, and the paths printed.  The size of the root
entry is set when the entry is in the buffer already. -/
def build (host : Host) (garbage : Garbage) (depth : ℕ) (dir : List UInt8) :
    Except Fault (List UInt8 × List (List UInt8)) := do
  let out ← outputAppend ⟨1, 0, garbage.buffer⟩ (loadBytes (rootEntry garbage.root) 0 entrySize)
  let (out, printed) ← processDir host garbage.table depth out dir
  return (loadBytes out.data 0 out.size, printed)

end Rhythmos.Fstool
