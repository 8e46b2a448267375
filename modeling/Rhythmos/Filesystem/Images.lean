import Rhythmos.Library.ByteMemory
import Rhythmos.Filesystem.Paths

/-!
# Filesystem images

A filesystem image starts with the entry of the root directory.  A directory is a word that
counts its entries, and the entries; an entry refers to a directory or to the bytes of a
file by an offset into the image.  `get_directory_entry` follows the fields of a path from
the root, one lookup in a directory after the other.
-/

namespace Rhythmos.Filesystem

open ByteMemory Components

def typeDir : ℕ := 0x01
def typeFile : ℕ := 0x02
def maxFilenameLen : ℕ := 255

/-- `sizeof(directory_entry)`: five words and the name. -/
def entrySize : ℕ := 4 * 5 + (maxFilenameLen + 1)

/-! ## Entries -/

/-- The string at an address, up to its terminator, in the next `count` bytes. -/
def cString (memory : Memory) : ℕ → ℕ → List UInt8
  | 0, _ => []
  | count + 1, address =>
      if memory address = 0 then [] else memory address :: cString memory count (address + 1)

def sizeAt (fs : Memory) (entry : ℕ) : ℕ := load32 fs entry
def typeAt (fs : Memory) (entry : ℕ) : ℕ := load32 fs (entry + 4)
def locationAt (fs : Memory) (entry : ℕ) : ℕ := load32 fs (entry + 8)
def modeAt (fs : Memory) (entry : ℕ) : ℕ := load32 fs (entry + 12)
def mtimeAt (fs : Memory) (entry : ℕ) : ℕ := load32 fs (entry + 16)
def nameAt (fs : Memory) (entry : ℕ) : List UInt8 := cString fs wordCount (entry + 20)

/-- `&dir->entries[i]` -/
def entryAddress (dir i : ℕ) : ℕ := dir + 4 + entrySize * i

/-! ## Lookups -/

/-- The loop of `lookup` from the entry `i` on.  The comparison of the lengths and `strncmp`
together compare the strings. -/
def lookupFrom (fs : Memory) (dir : ℕ) (name : List UInt8) : ℕ → ℕ → Option ℕ
  | 0, _ => none
  | count + 1, i =>
      if nameAt fs (entryAddress dir i) = name then some (entryAddress dir i)
      else lookupFrom fs dir name count (i + 1)

/-- `lookup`, with offsets in place of pointers. -/
def lookup (fs : Memory) (dir : ℕ) (name : List UInt8) : Option ℕ :=
  lookupFrom fs dir name (load32 fs dir) 0

/-- The variables `*entry` and `dir` of `get_directory_entry`. -/
structure Cursor where
  entry : ℕ
  dir : ℕ

/-- What `get_directory_entry` does with a component; the flag says that the component is at
the end of the path. -/
def enter (fs : Memory) (cursor : Cursor) (field : List UInt8 × Bool) : Option Cursor :=
  match lookup fs cursor.dir field.1 with
  | none => none
  | some entry =>
      if typeAt fs entry = typeDir then some ⟨entry, locationAt fs entry⟩
      else if field.2 then some ⟨entry, cursor.dir⟩
      else none

/-- Where a walk through the image starts. -/
def rootCursor (fs : Memory) : Cursor := ⟨0, locationAt fs 0⟩

/-- The walk along the fields of a path. -/
def walk (fs : Memory) (path : List (List UInt8 × Bool)) : Option ℕ :=
  (path.foldlM (enter fs) (rootCursor fs)).map Cursor.entry

/-- `get_directory_entry`: the offset of the entry; `none` stands for `-ENOENT`. -/
def getDirectoryEntry (fs : Memory) (path : List UInt8) : Option ℕ := walk fs (fields slash path)

end Rhythmos.Filesystem
