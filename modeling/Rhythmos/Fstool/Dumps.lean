import Rhythmos.Fstool.Lookups
import Rhythmos.Libc.Formats

/-!
# `fstool -dump`

The program reads an image file into a buffer that grows with it, and prints a line for
everything in the image, every directory before what is in it.
-/

namespace Rhythmos.Fstool

open ByteMemory Fallible Filesystem Libc
open Libc.Printf (ascii signed)

/-! ## `read_file` -/

/-- `BUFSIZE` -/
def bufsize : ℕ := 1024

/-- The variables of `read_file`. -/
structure FileBuffer where
  allocated : ℕ
  size : ℕ
  data : Memory

/-- One round of the loop of `read_file`.  The call of `read` may store as many bytes as it asks
for, and the two numbers are of type `int`. -/
def readChunk (buffer : FileBuffer) (chunk : List UInt8) : Except Fault FileBuffer :=
  if buffer.size + bufsize ≤ buffer.allocated ∧ buffer.allocated + chunk.length < 2 ^ 31 then
    .ok {
      allocated := buffer.allocated + chunk.length
      size := buffer.size + chunk.length
      data := storeBytes buffer.data buffer.size chunk }
  else .error .overrun

/-- `read_file`, where `chunks` are what the calls of `read` give. -/
def readFile (garbage : Memory) (chunks : List (List UInt8)) : Except Fault FileBuffer :=
  chunks.foldlM readChunk ⟨bufsize, 0, garbage⟩

/-! ## `dump_dir` -/

/-- `"%-8d"` -/
def sizeField (size : ℕ) : List UInt8 :=
  let digits := signed (BitVec.ofNat 32 size).toInt
  digits ++ List.replicate (8 - digits.length) (ascii ' ')

/-- `printf("%c %-8d %s\n", ...)` -/
def dumpLine (isDir : Bool) (size : ℕ) (path : List UInt8) : List UInt8 :=
  (if isDir then ascii 'D' else ascii 'F') ::
    (ascii ' ' :: (sizeField size ++ ascii ' ' :: (path ++ [ascii '\n'])))

/-- One round of the loop over a directory.  `recurse` is `dump_dir`. -/
def dumpEntry (host : Host) (fs : Memory) (recurse : List UInt8 → ℕ → Except Fault (List UInt8))
    (path : List UInt8) (dir : ℕ) (printed : List UInt8) (i : ℕ) : Except Fault (List UInt8) := do
  let ent := entryAddress dir i
  let full := fullPath host path (nameAt fs ent)
  let printed := printed ++ dumpLine (typeAt fs ent = typeDir) (sizeAt fs ent) full
  if typeAt fs ent = typeDir then
    let inner ← recurse full ent
    return printed ++ inner
  else return printed

/-- `dump_dir`: what it prints.  The first argument bounds the depth of the recursion. -/
def dumpDir (host : Host) (fs : Memory) : ℕ → List UInt8 → ℕ → Except Fault (List UInt8)
  | 0, _, _ => .error .diverges
  | depth + 1, path, entry =>
      let dir := locationAt fs entry
      (List.range (load32 fs dir)).foldlM
        (dumpEntry host fs (dumpDir host fs depth) path dir) []

/-- `dump_image` -/
def dumpImage (host : Host) (fs : Memory) (depth : ℕ) : Except Fault (List UInt8) :=
  dumpDir host fs depth [] 0

/-- `main` for `-dump`. -/
def dump (host : Host) (garbage : Memory) (depth : ℕ) (chunks : List (List UInt8)) :
    Except Fault (List UInt8) := do
  let buffer ← readFile garbage chunks
  dumpImage host buffer.data depth

/-- A line for everything in a directory, every directory before what is in it. -/
def Tree.dump (host : Host) (path : List UInt8) : Tree → List UInt8
  | nil => []
  | file name node next =>
      dumpLine false node.contents.length (fullPath host path name.chars) ++ next.dump host path
  | dir name stat children next =>
      let inner := fullPath host path name.chars
      dumpLine true stat.stat.size inner ++ (children.dump host inner ++ next.dump host path)

/-! ## The file is read -/

/-- The buffer has read the bytes, and has room for the next call of `read`. -/
structure FileBuffer.Has (buffer : FileBuffer) (bytes : List UInt8) : Prop where
  size : buffer.size = bytes.length
  allocated : buffer.allocated = bytes.length + bufsize
  stored : BytesAt buffer.data 0 bytes

theorem FileBuffer.Has.readChunk {buffer : FileBuffer} {bytes : List UInt8}
    (hhas : buffer.Has bytes) (chunk : List UInt8)
    (hfits : bytes.length + chunk.length + bufsize < 2 ^ 31) :
    ∃ buffer', Fstool.readChunk buffer chunk = .ok buffer' ∧ buffer'.Has (bytes ++ chunk) := by
  obtain ⟨hsize, hallocated, hstored⟩ := hhas
  refine ⟨_, if_pos ⟨by omega, by omega⟩, ⟨?_, ?_, ?_⟩⟩
  · rw [List.length_append, ← hsize]
  · simp only [List.length_append]
    omega
  · rw [hsize, bytesAt_append, Nat.zero_add]
    exact ⟨bytesAt_storeBytes_off hstored (.inr (Nat.zero_add _).le), bytesAt_storeBytes _ _ _⟩

theorem FileBuffer.Has.foldlM_readChunk {chunks : List (List UInt8)} :
    ∀ {buffer : FileBuffer} {bytes : List UInt8}, buffer.Has bytes →
      bytes.length + chunks.flatten.length + bufsize < 2 ^ 31 →
      ∃ buffer', chunks.foldlM Fstool.readChunk buffer = .ok buffer' ∧
        buffer'.Has (bytes ++ chunks.flatten) := by
  induction chunks with
  | nil => exact fun hhas _ => ⟨_, rfl, by rwa [List.flatten_nil, List.append_nil]⟩
  | cons chunk chunks ih =>
      intro buffer bytes hhas hfits
      rw [List.flatten_cons, List.length_append] at hfits
      obtain ⟨buffer₁, hbuffer₁, hhas₁⟩ := hhas.readChunk chunk (by omega)
      obtain ⟨buffer₂, hbuffer₂, hhas₂⟩ := ih hhas₁ (by rw [List.length_append]; omega)
      refine ⟨buffer₂, ?_, ?_⟩
      · rw [List.foldlM_cons, hbuffer₁, ok_bind, hbuffer₂]
      · rwa [List.flatten_cons, ← List.append_assoc]

/-- However the calls of `read` cut the file, the buffer gets all of it. -/
theorem readFile_has (garbage : Memory) (chunks : List (List UInt8))
    (hfits : chunks.flatten.length + bufsize < 2 ^ 31) :
    ∃ buffer, readFile garbage chunks = .ok buffer ∧ buffer.Has chunks.flatten := by
  have hempty : (⟨bufsize, 0, garbage⟩ : FileBuffer).Has [] :=
    ⟨rfl, (Nat.zero_add _).symm, fun _ h => absurd h (Nat.not_lt_zero _)⟩
  exact hempty.foldlM_readChunk (by rw [List.length_nil]; omega)

/-! ## What is printed -/

theorem sizeField_mod (size : ℕ) : sizeField (size % wordCount) = sizeField size := by
  have hword : BitVec.ofNat 32 (size % wordCount) = BitVec.ofNat 32 size := by
    apply BitVec.eq_of_toNat_eq
    simp [wordCount]
  rw [sizeField, sizeField, hword]

variable {host : Host} {fs : Memory}

/-- The rest of a directory is printed, from the entry with the number `i` on. -/
theorem foldlM_dumpEntry {dir i depth : ℕ} (path printed : List UInt8) {tree : Tree}
    (hstores : Stores fs dir i tree) (hdepth : tree.height ≤ depth) :
    (List.range' i tree.count).foldlM (dumpEntry host fs (dumpDir host fs depth) path dir)
      printed = .ok (printed ++ tree.dump host path) := by
  induction tree generalizing dir i depth path printed with
  | nil => simp [Tree.count, Tree.dump]
  | file name node next ih =>
      obtain ⟨hname, hentry, hsize, -, hnext⟩ := hstores
      have htype : typeAt fs (entryAddress dir i) ≠ typeDir := by
        rw [hentry.type, node.isDir_stat]
        decide
      have hstep : dumpEntry host fs (dumpDir host fs depth) path dir printed i = .ok (printed ++
          dumpLine false node.contents.length (fullPath host path name.chars)) := by
        simp only [dumpEntry, htype, if_false, hname, hsize, decide_false, pure_eq_ok]
      rw [Tree.count, List.range'_succ, List.foldlM_cons, hstep, ok_bind, ih _ _ hnext hdepth,
        Tree.dump, List.append_assoc]
  | dir name stat children next ihChildren ihNext =>
      obtain ⟨hname, hentry, hcount, hchildren, hnext⟩ := hstores
      rw [Tree.height] at hdepth
      obtain ⟨deeper, rfl⟩ : ∃ deeper, depth = deeper + 1 := ⟨depth - 1, by omega⟩
      have htype : typeAt fs (entryAddress dir i) = typeDir := by
        rw [hentry.type, stat.directory]
        rfl
      have hinner := ihChildren (fullPath host path name.chars) [] hchildren
        (show children.height ≤ deeper by omega)
      have hstep : dumpEntry host fs (dumpDir host fs (deeper + 1)) path dir printed i =
          .ok (printed ++ dumpLine true stat.stat.size (fullPath host path name.chars) ++
            children.dump host (fullPath host path name.chars)) := by
        rw [dumpEntry]
        simp only [htype, if_true, hname, hentry.size, decide_true, dumpLine, sizeField_mod,
          dumpDir, hcount, List.range_eq_range', hinner, ok_bind, pure_eq_ok, List.nil_append]
      rw [Tree.count, List.range'_succ, List.foldlM_cons, hstep, ok_bind,
        ihNext _ _ hnext (by omega), Tree.dump]
      simp only [List.append_assoc]

/-- The dump of the image of a tree. -/
theorem dumpImage_image {garbage : List UInt8 → Memory} {root : Memory} {dir : List UInt8}
    {tree : Tree} (himage : BytesAt fs 0 (imageBytes host garbage root dir tree))
    (hfits : tree.imageSize ≤ maxImage) {depth : ℕ} (hdepth : tree.height < depth) :
    dumpImage host fs depth = .ok (tree.dump host []) := by
  obtain ⟨deeper, rfl⟩ : ∃ deeper, depth = deeper + 1 := ⟨depth - 1, by omega⟩
  obtain ⟨-, -, hcount, hstores⟩ := describes_root himage hfits
  rw [dumpImage, dumpDir, hcount, List.range_eq_range',
    foldlM_dumpEntry [] [] hstores (show tree.height ≤ deeper by omega), List.nil_append]

/-- Building an image and dumping it prints the tree that the host reports: a line for every
file and directory with its kind, its size and its path, however the image file is read. -/
theorem dump_prints_tree {host : Host} {dir : List UInt8} {names : List (List UInt8)}
    {tree : Tree} (hopendir : host.opendir dir = some names)
    (hreports : Reports host dir names tree) (hfits : tree.imageSize + bufsize < 2 ^ 31)
    {depth : ℕ} (hdepth : tree.height < depth) (garbage : Garbage) :
    ∃ image printed, build host garbage depth dir = .ok (image, printed) ∧
      ∀ chunks, chunks.flatten = image → ∀ buffer,
        dump host buffer depth chunks = .ok (tree.dump host []) := by
  have hmax : tree.imageSize ≤ maxImage := by
    rw [maxImage]
    omega
  refine ⟨_, _, build_writes_image hopendir hreports hmax hdepth garbage, ?_⟩
  rintro chunks hchunks garbage'
  have hsize := length_imageBytes host garbage.table garbage.root dir tree
  obtain ⟨buffer, hbuffer, hhas⟩ := readFile_has garbage' chunks
    (by rw [hchunks, hsize]; exact hfits)
  rw [dump, hbuffer, ok_bind]
  exact dumpImage_image (hchunks ▸ hhas.stored) hmax hdepth

theorem dump_prints_tree_small :
    ∃ image printed, build smallHost ⟨fun _ => 0, fun _ _ => 0, fun _ => 0⟩ 2 [0x64] =
        .ok (image, printed) ∧
      ∀ chunks, chunks.flatten = image → ∀ buffer,
        dump smallHost buffer 2 chunks = .ok (smallTree.dump smallHost []) :=
  dump_prints_tree rfl reports_smallTree (by decide) (by decide) _

end Rhythmos.Fstool
