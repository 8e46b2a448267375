import Rhythmos.Fstool.Encoding
import Rhythmos.Library.Labels

/-!
# Images that depend on uninitialised memory

Some bytes of an image are never set: the mode and the time of the root entry, what follows its
name, and the last byte of every name field, which has one byte more than `strncpy` fills.
Two builds of the same directory agree everywhere else, and these bytes can be anything.
-/

namespace Rhythmos.Fstool

open ByteMemory Filesystem Labels Libc

/-! ## The bytes that are not set -/

/-- Which bytes of the root entry are not set. -/
def unsetRoot : List Bool :=
  List.replicate 12 false ++ (List.replicate 8 true ++
    (List.replicate (rootName.length + 1) false ++
      List.replicate (maxFilenameLen - rootName.length) true))

/-- Which bytes of a table with `count` entries are not set. -/
def unsetTable (count : ℕ) : List Bool :=
  List.replicate 4 false ++
    (List.replicate count (List.replicate (20 + maxFilenameLen) false ++ [true])).flatten

/-- Which bytes of everything in a directory are not set. -/
def unsetContents : Tree → List Bool
  | .nil => []
  | .file _ node next => List.replicate node.contents.length false ++ unsetContents next
  | .dir _ _ children next =>
      (unsetTable children.count ++ unsetContents children) ++ unsetContents next

/-- Which bytes of the image of a tree are not set. -/
def unsetImage (tree : Tree) : List Bool :=
  unsetRoot ++ (unsetTable tree.count ++ unsetContents tree)

/-! ## Two builds -/

section Builds

variable {R : Bool → UInt8 → UInt8 → Prop} {garbage garbage' : Memory}

/-- The bytes of two memories are related like bytes that are not set. -/
def Strays (R : Bool → UInt8 → UInt8 → Prop) (garbage garbage' : Memory) : Prop :=
  ∀ x, R true (garbage x) (garbage' x)

theorem compared_set (hsame : ∀ b, R false b b) {n : ℕ} {bytes : List UInt8}
    (hlength : bytes.length = n) : Compared R (List.replicate n false) bytes bytes :=
  hlength ▸ compared_self hsame bytes

theorem compared_strays (hstrays : Strays R garbage garbage') (src len : ℕ) :
    Compared R (List.replicate len true) (loadBytes garbage src len)
      (loadBytes garbage' src len) := by
  have hmap := compared_map (fun x => garbage (src + x)) (fun x => garbage' (src + x))
    (fun x => hstrays (src + x)) (List.range len)
  rwa [List.length_range] at hmap

/-- The words of the root entry, in memory that had the contents `garbage`. -/
def rootWords (garbage : Memory) : Memory :=
  store32 (store32 (store32 garbage 0 0) 4 typeDir) 8 entrySize

theorem bytesAt_rootWords (garbage : Memory) :
    BytesAt (rootWords garbage) 0 (word32 0 ++ (word32 typeDir ++ word32 entrySize)) := by
  rw [bytesAt_append, bytesAt_append]
  refine ⟨?_, ?_, bytesAt_store32 _ _ _⟩
  · exact bytesAt_store32_off _ (bytesAt_store32_off _ (bytesAt_store32 _ _ _)
      (.inr (by decide))) (.inr (by decide))
  · exact bytesAt_store32_off _ (bytesAt_store32 _ _ _) (.inr (by decide))

theorem rootWords_off (garbage : Memory) {x : ℕ} (hx : 12 ≤ x) :
    rootWords garbage x = garbage x := by
  rw [rootWords, store32_off _ _ _ (by omega), store32_off _ _ _ (by omega),
    store32_off _ _ _ (by omega)]

/-- The bytes of the root entry. -/
theorem rootEntry_bytes (garbage : Memory) :
    loadBytes (rootEntry garbage) 0 entrySize =
      (word32 0 ++ (word32 typeDir ++ word32 entrySize)) ++ (loadBytes garbage 12 8 ++
        ((rootName ++ [0]) ++ loadBytes garbage 25 (maxFilenameLen - rootName.length))) := by
  have hname : (rootName ++ [0]).length = 5 := rfl
  have hwords : loadBytes (rootEntry garbage) 0 12 =
      word32 0 ++ (word32 typeDir ++ word32 entrySize) :=
    loadBytes_bytesAt (bytesAt_storeBytes_off (bytesAt_rootWords garbage) (.inr (by decide)))
  have hmiddle : loadBytes (rootEntry garbage) 12 8 = loadBytes garbage 12 8 := by
    apply loadBytes_congr
    intro offset hoffset
    rw [rootEntry, storeBytes_off _ _ _ (by omega)]
    exact rootWords_off garbage (by omega)
  have hstored : loadBytes (rootEntry garbage) 20 5 = rootName ++ [0] :=
    loadBytes_bytesAt (bytesAt_storeBytes (rootWords garbage) 20 (rootName ++ [0]))
  have hrest : loadBytes (rootEntry garbage) 25 (maxFilenameLen - rootName.length) =
      loadBytes garbage 25 (maxFilenameLen - rootName.length) := by
    apply loadBytes_congr
    intro offset hoffset
    rw [rootEntry, storeBytes_off _ _ _ (by rw [hname]; omega)]
    exact rootWords_off garbage (by omega)
  calc loadBytes (rootEntry garbage) 0 entrySize
    _ = loadBytes (rootEntry garbage) 0
          (12 + (8 + (5 + (maxFilenameLen - rootName.length)))) := rfl
    _ = loadBytes (rootEntry garbage) 0 12 ++ (loadBytes (rootEntry garbage) 12 8 ++
          (loadBytes (rootEntry garbage) 20 5 ++
            loadBytes (rootEntry garbage) 25 (maxFilenameLen - rootName.length))) := by
        rw [loadBytes_add, loadBytes_add, loadBytes_add]
    _ = _ := by
        rw [← hwords, ← hmiddle, ← hstored, ← hrest]

theorem compared_root (hsame : ∀ b, R false b b) (hstrays : Strays R garbage garbage') :
    Compared R unsetRoot (loadBytes (rootEntry garbage) 0 entrySize)
      (loadBytes (rootEntry garbage') 0 entrySize) := by
  rw [rootEntry_bytes, rootEntry_bytes]
  exact (compared_set hsame (n := 12) rfl).append ((compared_strays hstrays _ _).append
    ((compared_set hsame (n := rootName.length + 1) rfl).append (compared_strays hstrays _ _)))

theorem compared_entry (hsame : ∀ b, R false b b) (entry : Entry) {last last' : UInt8}
    (hlast : R true last last') :
    Compared R (List.replicate (20 + maxFilenameLen) false ++ [true]) (entry.bytes last)
      (entry.bytes last') := by
  obtain ⟨front, hlength, hfront⟩ : ∃ front, front.length = 20 + maxFilenameLen ∧
      ∀ last, entry.bytes last = front ++ [last] :=
    ⟨word32 entry.stat.size ++ (word32 (if entry.stat.isDir then typeDir else typeFile) ++
      (word32 entry.location ++ (word32 entry.stat.mode ++ (word32 entry.stat.mtime ++
        nameField entry.name.chars)))), by simp [maxFilenameLen], fun last => by simp [Entry.bytes]⟩
  rw [hfront, hfront]
  exact (compared_set hsame hlength).append (.cons hlast .nil)

theorem compared_entries (hsame : ∀ b, R false b b) (hstrays : Strays R garbage garbage')
    (entries : List Entry) (i : ℕ) :
    Compared R (List.replicate entries.length
      (List.replicate (20 + maxFilenameLen) false ++ [true])).flatten
      (entryBytes garbage i entries) (entryBytes garbage' i entries) := by
  induction entries generalizing i with
  | nil => exact .nil
  | cons entry entries ih =>
      rw [List.length_cons, List.replicate_succ, List.flatten_cons]
      exact (compared_entry hsame entry (hstrays _)).append (ih _)

theorem compared_table (hsame : ∀ b, R false b b) (hstrays : Strays R garbage garbage')
    {entries : List Entry} {count : ℕ} (hcount : entries.length = count) :
    Compared R (unsetTable count) (tableBytes garbage entries) (tableBytes garbage' entries) := by
  subst hcount
  exact (compared_set hsame (length_word32 _)).append (compared_entries hsame hstrays entries 0)

end Builds

section Directories

variable {R : Bool → UInt8 → UInt8 → Prop} {host : Host} {garbage garbage' : List UInt8 → Memory}

theorem compared_contents (hsame : ∀ b, R false b b)
    (hstrays : ∀ path, Strays R (garbage path) (garbage' path)) (tree : Tree) (path : List UInt8)
    (location : ℕ) :
    Compared R (unsetContents tree) (contentBytes host garbage path location tree)
      (contentBytes host garbage' path location tree) := by
  induction tree generalizing path location with
  | nil => exact .nil
  | file name node next ih => exact (compared_self hsame _).append (ih _ _)
  | dir name stat children next ihChildren ihNext =>
      exact ((compared_table hsame (hstrays _) (Tree.length_entries children _)).append
        (ihChildren _ _)).append (ihNext _ _)

theorem compared_image (hsame : ∀ b, R false b b)
    (hstrays : ∀ path, Strays R (garbage path) (garbage' path)) {root root' : Memory}
    (hroot : Strays R root root') (path : List UInt8) (tree : Tree) :
    Compared R (unsetImage tree) (imageBytes host garbage root path tree)
      (imageBytes host garbage' root' path tree) :=
  (compared_root hsame hroot).append
    ((compared_table hsame (hstrays _) (Tree.length_entries tree _)).append
      (compared_contents hsame hstrays tree _ _))

end Directories

/-- Which bytes of an image are reproducible.  Whatever memory contains that the program does not
set, the build succeeds and prints the same paths; a byte of the image is the same in all builds
of a directory if and only if it is not one of those that are never set: eight bytes of the root
entry and what follows its name, and the last byte of the name field of every entry. -/
theorem build_reproducible_iff {host : Host} {dir : List UInt8} {names : List (List UInt8)}
    {tree : Tree} (hopendir : host.opendir dir = some names)
    (hreports : Reports host dir names tree) (hfits : tree.imageSize ≤ maxImage) {depth : ℕ}
    (hdepth : tree.height < depth) :
    ∃ image : Garbage → List UInt8,
      (∀ garbage, build host garbage depth dir = .ok (image garbage, listing host dir tree)) ∧
      (∀ garbage, (image garbage).length = tree.imageSize) ∧
      ∀ i < tree.imageSize,
        (∀ garbage garbage', (image garbage)[i]? = (image garbage')[i]?) ↔
          (unsetImage tree)[i]? = some false := by
  refine ⟨fun garbage => imageBytes host garbage.table garbage.root dir tree,
    build_writes_image hopendir hreports hfits hdepth,
    fun garbage => length_imageBytes _ _ _ _ _, fun i hi => ?_⟩
  -- memory that is full of zeros in one build and of ones in the other
  have hstray : (0 : UInt8) = 1 ↔ true = false := by decide
  have hdiffer : Compared (fun unset x y => x = y ↔ unset = false) (unsetImage tree)
      (imageBytes host (fun _ _ => 0) (fun _ => 0) dir tree)
      (imageBytes host (fun _ _ => 1) (fun _ => 1) dir tree) :=
    compared_image (by simp) (fun _ _ => hstray) (fun _ => hstray) dir tree
  obtain ⟨label, hlabel⟩ : ∃ label, (unsetImage tree)[i]? = some label := by
    have hlength := hdiffer.length.1
    rw [length_imageBytes] at hlength
    exact ⟨_, List.getElem?_eq_getElem (by omega)⟩
  rw [hlabel, Option.some_inj]
  constructor
  · intro hall
    obtain ⟨x, y, hx, hy, hrel⟩ := hdiffer.getElem? hlabel
    have hsame := hall ⟨fun _ => 0, fun _ _ => 0, fun _ => 0⟩ ⟨fun _ => 1, fun _ _ => 1, fun _ => 1⟩
    rw [hx, hy, Option.some_inj] at hsame
    exact hrel.mp hsame
  · rintro rfl garbage garbage'
    have hagree : Compared (fun unset x y => unset = false → x = y) (unsetImage tree)
        (imageBytes host garbage.table garbage.root dir tree)
        (imageBytes host garbage'.table garbage'.root dir tree) :=
      compared_image (fun _ _ => rfl) (fun _ _ => by simp) (fun _ => by simp) dir tree
    obtain ⟨x, y, hx, hy, hrel⟩ := hagree.getElem? hlabel
    rw [hx, hy, hrel rfl]

theorem build_reproducible_iff_small :
    ∃ image : Garbage → List UInt8,
      (∀ garbage, build smallHost garbage 2 [0x64] =
        .ok (image garbage, listing smallHost [0x64] smallTree)) ∧
      (∀ garbage, (image garbage).length = smallTree.imageSize) ∧
      ∀ i < smallTree.imageSize,
        (∀ garbage garbage', (image garbage)[i]? = (image garbage')[i]?) ↔
          (unsetImage smallTree)[i]? = some false :=
  build_reproducible_iff rfl reports_smallTree (by decide) (by decide)

end Rhythmos.Fstool
