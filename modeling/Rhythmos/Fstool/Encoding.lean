import Rhythmos.Filesystem.Chains
import Rhythmos.Fstool.Trees

/-!
# `fstool` writes the image of a tree

The buffer and the table of `process_dir` are related to the bytes they stand for: appending
extends the bytes of the buffer, adding an entry extends the table, and filling in a location
changes one entry of it.  From what one round of each loop does follows, by induction on what
the host reports, that `process_dir` appends the bytes of a directory with everything in it.
-/

namespace Rhythmos.Fstool

open ByteMemory Fallible Filesystem Libc

/-! ## The buffer -/

/-- The largest size of a buffer: doubling it once more overflows. -/
def maxImage : ℕ := 2147483648

/-- The buffer as it is between two calls. -/
structure Output.Sound (out : Output) : Prop where
  power : ∃ k ≤ 31, out.alloc = 2 ^ k
  size_le : out.size ≤ out.alloc

/-- The bytes were appended to the buffer. -/
structure Appended (out out' : Output) (bytes : List UInt8) : Prop where
  sound : out'.Sound
  size : out'.size = out.size + bytes.length
  kept : ∀ x < out.size, out'.data x = out.data x
  appended : BytesAt out'.data out.size bytes

variable {out out' out'' : Output} {bytes more : List UInt8}

theorem Appended.nil (hsound : out.Sound) : Appended out out [] where
  sound := hsound
  size := rfl
  kept _ _ := rfl
  appended _ h := absurd h (Nat.not_lt_zero _)

theorem Appended.trans (hfirst : Appended out out' bytes) (hsecond : Appended out' out'' more) :
    Appended out out'' (bytes ++ more) where
  sound := hsecond.sound
  size := by rw [hsecond.size, hfirst.size, List.length_append, Nat.add_assoc]
  kept x hx := by
    have hsize := hfirst.size
    rw [hsecond.kept x (by omega), hfirst.kept x hx]
  appended := by
    have hsize := hfirst.size
    rw [bytesAt_append, ← hsize]
    refine ⟨bytesAt_congr hfirst.appended fun x _ hx => hsecond.kept x (by omega), ?_⟩
    exact hsecond.appended

theorem growLoop_eq {needed : ℕ} (hneeded : needed ≤ maxImage) : ∀ {rounds k : ℕ}, k ≤ 31 →
    31 < rounds + k → ∃ k' ≤ 31, growLoop needed rounds (2 ^ k) = .ok (2 ^ k') ∧
      needed ≤ 2 ^ k' := by
  intro rounds
  induction rounds with
  | zero =>
      intro k hk hrounds
      omega
  | succ rounds ih =>
      intro k hk hrounds
      rw [growLoop]
      by_cases hsmall : 2 ^ k < needed
      · have hk' : k ≠ 31 := by
          rintro rfl
          rw [maxImage] at hneeded
          omega
        have hpow : 2 ^ (k + 1) ≤ 2 ^ 31 := Nat.pow_le_pow_right (by decide) (by omega)
        have hdouble : 2 ^ k * 2 % wordCount = 2 ^ (k + 1) := by
          rw [← pow_succ, Nat.mod_eq_of_lt (by rw [wordCount]; omega)]
        rw [if_pos hsmall, hdouble]
        exact ih (by omega) (by omega)
      · rw [if_neg hsmall]
        exact ⟨k, hk, rfl, by omega⟩

/-- `output_append` appends what fits. -/
theorem outputAppend_spec (hsound : out.Sound) (bytes : List UInt8)
    (hfits : out.size + bytes.length ≤ maxImage) :
    ∃ out', outputAppend out bytes = .ok out' ∧ Appended out out' bytes := by
  obtain ⟨k, hk, halloc⟩ := hsound.power
  obtain ⟨k', hk', hgrow, hroom⟩ := growLoop_eq hfits hk (show 31 < 34 + k by omega)
  have hsmall : (out.size + bytes.length) % wordCount = out.size + bytes.length := by
    rw [maxImage] at hfits
    rw [Nat.mod_eq_of_lt (by rw [wordCount]; omega)]
  rw [outputAppend, hsmall, halloc, hgrow]
  simp only [ok_bind]
  rw [if_pos hroom]
  refine ⟨_, rfl, ⟨⟨k', hk', rfl⟩, hroom⟩, rfl, ?_, bytesAt_storeBytes _ _ _⟩
  intro x hx
  exact storeBytes_off _ _ _ (.inl hx)

theorem foldlM_outputAppend (hsound : out.Sound) {chunks : List (List UInt8)}
    (hfits : out.size + chunks.flatten.length ≤ maxImage) :
    ∃ out', chunks.foldlM outputAppend out = .ok out' ∧ Appended out out' chunks.flatten := by
  induction chunks generalizing out with
  | nil => exact ⟨out, rfl, Appended.nil hsound⟩
  | cons chunk chunks ih =>
      rw [List.flatten_cons, List.length_append] at hfits
      obtain ⟨out₁, hout₁, happended₁⟩ :=
        outputAppend_spec hsound chunk (by omega)
      have hsize := happended₁.size
      obtain ⟨out₂, hout₂, happended₂⟩ := ih happended₁.sound (by omega)
      rw [List.foldlM_cons, hout₁, ok_bind, List.flatten_cons]
      exact ⟨out₂, hout₂, happended₁.trans happended₂⟩

/-- `process_file` appends the contents of a file. -/
theorem processFile_spec {host : Host} {path : List UInt8} {chunks : List (List UInt8)}
    (hsound : out.Sound) (hreads : host.reads path = some chunks)
    (hfits : out.size + chunks.flatten.length ≤ maxImage) :
    ∃ out', processFile host out path = .ok out' ∧ Appended out out' chunks.flatten := by
  rw [processFile, hreads]
  exact foldlM_outputAppend hsound hfits

/-! ## Entries -/

variable {memory garbage : Memory} {address : ℕ} {entry : Entry} {last : UInt8}

theorem bytesAt_entry : BytesAt memory address (entry.bytes last) ↔
    BytesAt memory address (word32 entry.stat.size) ∧
    BytesAt memory (address + 4) (word32 (if entry.stat.isDir then typeDir else typeFile)) ∧
    BytesAt memory (address + 8) (word32 entry.location) ∧
    BytesAt memory (address + 12) (word32 entry.stat.mode) ∧
    BytesAt memory (address + 16) (word32 entry.stat.mtime) ∧
    BytesAt memory (address + 20) (nameField entry.name.chars) ∧
    BytesAt memory (address + 275) [last] := by
  simp only [Entry.bytes, bytesAt_append, length_word32, length_nameField, Nat.add_assoc]
  exact Iff.rfl

/-- Filling in a location changes nothing else in the entry. -/
theorem bytesAt_entry_relocate (hentry : BytesAt memory address (entry.bytes last))
    (location : ℕ) :
    BytesAt (store32 memory (address + 8) location) address
      (Entry.bytes { entry with location := location } last) := by
  obtain ⟨hsize, htype, -, hmode, hmtime, hname, hlast⟩ := bytesAt_entry.mp hentry
  have hlength : (nameField entry.name.chars).length = 255 := length_nameField _
  refine bytesAt_entry.mpr ⟨?_, ?_, bytesAt_store32 _ _ _, ?_, ?_, ?_, ?_⟩
  · exact bytesAt_store32_off _ hsize (by rw [length_word32]; omega)
  · exact bytesAt_store32_off _ htype (by rw [length_word32]; omega)
  · exact bytesAt_store32_off _ hmode (by rw [length_word32]; omega)
  · exact bytesAt_store32_off _ hmtime (by rw [length_word32]; omega)
  · exact bytesAt_store32_off _ hname (by omega)
  · exact bytesAt_store32_off _ hlast (by rw [List.length_singleton]; omega)

/-- The name of an entry is read back. -/
theorem nameAt_entry (hentry : BytesAt memory address (entry.bytes last)) :
    nameAt memory address = entry.name.chars := by
  obtain ⟨-, -, -, -, -, hname, -⟩ := bytesAt_entry.mp hentry
  have hlength := entry.name.length_lt
  have htake : entry.name.chars.take maxFilenameLen = entry.name.chars :=
    List.take_of_length_le hlength.le
  obtain ⟨k, hk⟩ : ∃ k, maxFilenameLen - entry.name.chars.length = k + 1 :=
    ⟨maxFilenameLen - entry.name.chars.length - 1, by omega⟩
  rw [nameField, htake, hk, List.replicate_succ, bytesAt_append, bytesAt_cons] at hname
  refine cString_eq entry.name.nonzero ?_ hname.1 hname.2.1
  calc entry.name.chars.length < maxFilenameLen := hlength
    _ ≤ wordCount := by decide

theorem typeAt_entry (hentry : BytesAt memory address (entry.bytes last)) :
    typeAt memory address = if entry.stat.isDir then typeDir else typeFile := by
  obtain ⟨-, htype, -⟩ := bytesAt_entry.mp hentry
  exact load32_bytesAt htype (by split <;> decide)

/-! ## Tables -/

/-- The address of an entry behind the entries before it. -/
theorem bytesAt_tableBytes_append {left right : List Entry} :
    BytesAt memory address (tableBytes garbage (left ++ right)) ↔
      BytesAt memory address (word32 (left.length + right.length)) ∧
      BytesAt memory (address + 4) (entryBytes garbage 0 left) ∧
      BytesAt memory (entryAddress address left.length)
        (entryBytes garbage left.length right) := by
  rw [tableBytes, bytesAt_append, entryBytes_append, bytesAt_append, length_word32,
    length_entryBytes, List.length_append, Nat.zero_add]
  exact Iff.rfl

theorem bytesAt_tableBytes_entry {left right : List Entry}
    (htable : BytesAt memory address (tableBytes garbage (left ++ entry :: right))) :
    BytesAt memory (entryAddress address left.length)
      (entry.bytes (garbage (entryAddress 0 left.length + 275))) := by
  obtain ⟨-, -, hright⟩ := bytesAt_tableBytes_append.mp htable
  rw [entryBytes, bytesAt_append] at hright
  exact hright.1

/-- Filling in the location of one entry of a table. -/
theorem bytesAt_table_relocate {left right : List Entry}
    (htable : BytesAt memory 0 (tableBytes garbage (left ++ entry :: right))) (location : ℕ) :
    BytesAt (store32 memory (entryAddress 0 left.length + 8) location) 0
      (tableBytes garbage (left ++ { entry with location := location } :: right)) := by
  have hentry := bytesAt_entry_relocate (bytesAt_tableBytes_entry htable) location
  obtain ⟨hcount, hleft, hright⟩ := bytesAt_tableBytes_append.mp htable
  rw [entryBytes, bytesAt_append, Entry.length_bytes] at hright
  have hlength : (entryBytes garbage 0 left).length = entrySize * left.length :=
    length_entryBytes _ _ _
  have haddress : entryAddress 0 left.length = 4 + entrySize * left.length := by
    rw [entryAddress, Nat.zero_add]
  have hsize : entrySize = 276 := rfl
  refine bytesAt_tableBytes_append.mpr ⟨?_, ?_, ?_⟩
  · exact bytesAt_store32_off _ hcount (by rw [length_word32]; omega)
  · exact bytesAt_store32_off _ hleft (by omega)
  · rw [entryBytes, bytesAt_append, Entry.length_bytes]
    exact ⟨hentry, bytesAt_store32_off _ hright.2 (by omega)⟩

/-- The table holds the entries; behind them its memory was not set. -/
structure Table.Holds (table : Table) (garbage : Memory) (entries : List Entry) : Prop where
  alloc : table.alloc = Tree.tableSize entries.length
  held : BytesAt table.data 0 (tableBytes garbage entries)
  rest : ∀ x, entryAddress 0 entries.length ≤ x → table.data x = garbage x

variable {table : Table} {entries : List Entry}

theorem emptyTable_holds (garbage : Memory) : (emptyTable garbage).Holds garbage [] where
  alloc := rfl
  held := by
    rw [tableBytes, entryBytes, List.append_nil]
    exact bytesAt_store32 _ _ _
  rest x hx := store32_off _ _ _ (.inr hx)

theorem Table.Holds.count (hholds : table.Holds garbage entries)
    (hfits : Tree.tableSize entries.length ≤ maxImage) :
    load32 table.data 0 = entries.length := by
  have hheld := hholds.held
  rw [tableBytes, bytesAt_append] at hheld
  refine load32_bytesAt hheld.1 ?_
  rw [Tree.tableSize, entrySize, maxFilenameLen, maxImage] at hfits
  rw [wordCount]
  omega

/-- The stores of a new entry, where there are `count` entries already. -/
theorem addEntry_stores (name : List UInt8) (st : Stat) {ent count : ℕ}
    (hcount : load32 table.data 0 = count) (hent : entryAddress 0 count = ent) (hfar : 4 ≤ ent) :
    let data := (addEntry table name st).data
    BytesAt data 0 (word32 (count + 1)) ∧ BytesAt data ent (word32 st.size) ∧
      BytesAt data (ent + 4) (word32 (if st.isDir then typeDir else typeFile)) ∧
      BytesAt data (ent + 8) (word32 0) ∧ BytesAt data (ent + 12) (word32 st.mode) ∧
      BytesAt data (ent + 16) (word32 st.mtime) ∧ BytesAt data (ent + 20) (nameField name) ∧
      ∀ x, 4 ≤ x → x < ent ∨ ent + 275 ≤ x → data x = table.data x := by
  have hname : (nameField name).length = 255 := length_nameField _
  rw [addEntry, hcount, hent]
  have hword : ∀ {memory : Memory} {address other value : ℕ} (word : ℕ),
      BytesAt memory address (word32 value) → other + 4 ≤ address ∨ address + 4 ≤ other →
      BytesAt (store32 memory other word) address (word32 value) :=
    fun word hbytes hoff => bytesAt_store32_off word hbytes (by rwa [length_word32])
  have hbelow : ∀ {memory : Memory} {address value : ℕ},
      BytesAt memory address (word32 value) → address + 4 ≤ ent + 20 →
      BytesAt (storeBytes memory (ent + 20) (nameField name)) address (word32 value) :=
    fun hbytes hoff => bytesAt_storeBytes_off hbytes (.inr (by rwa [length_word32]))
  refine ⟨?_, ?_, ?_, ?_, ?_, ?_, bytesAt_storeBytes _ _ _, ?_⟩
  · refine hbelow ?_ (by omega)
    exact hword _ (hword _ (hword _ (hword _ (hword _ (bytesAt_store32 _ _ _) (by omega))
      (by omega)) (by omega)) (by omega)) (by omega)
  · refine hbelow ?_ (by omega)
    exact hword _ (hword _ (hword _ (hword _ (bytesAt_store32 _ _ _) (by omega)) (by omega))
      (by omega)) (by omega)
  · refine hbelow ?_ (by omega)
    exact hword _ (hword _ (hword _ (bytesAt_store32 _ _ _) (by omega)) (by omega)) (by omega)
  · refine hbelow ?_ (by omega)
    exact hword _ (hword _ (bytesAt_store32 _ _ _) (by omega)) (by omega)
  · refine hbelow ?_ (by omega)
    exact hword _ (bytesAt_store32 _ _ _) (by omega)
  · exact hbelow (bytesAt_store32 _ _ _) (by omega)
  · intro x hlow hx
    dsimp only
    rw [storeBytes_off _ _ _ (by omega), store32_off _ _ _ (by omega),
      store32_off _ _ _ (by omega), store32_off _ _ _ (by omega), store32_off _ _ _ (by omega),
      store32_off _ _ _ (by omega), store32_off _ _ _ (by omega)]

/-- Adding an entry to a table. -/
theorem Table.Holds.addEntry (hholds : table.Holds garbage entries) (name : EntryName)
    (st : Stat) (hfits : Tree.tableSize (entries.length + 1) ≤ maxImage) :
    (addEntry table name.chars st).Holds garbage (entries ++ [⟨name, st, 0⟩]) := by
  have hsize : entrySize = 276 := rfl
  rw [Tree.tableSize, Nat.mul_succ, maxImage] at hfits
  have hcount : load32 table.data 0 = entries.length :=
    hholds.count (by rw [Tree.tableSize, maxImage]; omega)
  have haddress : entryAddress 0 entries.length = 4 + entrySize * entries.length := by
    rw [entryAddress, Nat.zero_add]
  obtain ⟨hnext, hsize', htype, hlocation, hmode, hmtime, hname, hkept⟩ :=
    addEntry_stores name.chars st hcount rfl (by omega)
  have hheld := hholds.held
  rw [tableBytes, bytesAt_append, length_word32, Nat.zero_add] at hheld
  refine ⟨?_, ?_, ?_⟩
  · rw [Fstool.addEntry]
    simp only
    rw [hholds.alloc, List.length_append, List.length_singleton, Tree.tableSize, Tree.tableSize,
      Nat.mul_succ, Nat.mod_eq_of_lt (by rw [wordCount]; omega), Nat.add_assoc]
  · rw [bytesAt_tableBytes_append]
    refine ⟨hnext, ?_, ?_⟩
    · refine bytesAt_congr hheld.2 fun x hlow hhigh => hkept x hlow ?_
      rw [length_entryBytes] at hhigh
      omega
    · rw [entryBytes, entryBytes, List.append_nil, bytesAt_entry]
      refine ⟨hsize', htype, hlocation, hmode, hmtime, hname, bytesAt_singleton.mpr ?_⟩
      rw [hkept _ (by omega) (by omega), hholds.rest _ (by omega)]
  · intro x hx
    rw [List.length_append, List.length_singleton, entryAddress, Nat.mul_succ] at hx
    rw [hkept x (by omega) (by omega), hholds.rest x (by omega)]

/-- A file or a directory gets an entry. -/
theorem scanName_entry {host : Host} {path name : List UInt8} {st : Stat} (table : Table)
    (hignore : ignoreFile name = false) (hstat : host.stat (fullPath host path name) = some st)
    (hkind : (st.isDir || st.isReg) = true) :
    scanName host path table name = .ok (addEntry table name st) := by
  rw [scanName, if_neg (by rw [hignore]; exact Bool.false_ne_true), hstat]
  simp only [hkind, if_true]

/-- The loop over the names in a directory adds an entry for every file and directory. -/
theorem foldlM_scanName {host : Host} {path : List UInt8} {names : List (List UInt8)} {tree : Tree}
    (hreports : Reports host path names tree) {table : Table} {entries : List Entry}
    (hholds : table.Holds garbage entries)
    (hfits : Tree.tableSize (entries.length + tree.count) ≤ maxImage) :
    ∃ table', names.foldlM (scanName host path) table = .ok table' ∧
      table'.Holds garbage (entries ++ tree.placeholders) := by
  have hmono : ∀ {few many : ℕ}, few ≤ many → Tree.tableSize many ≤ maxImage →
      Tree.tableSize few ≤ maxImage := by
    intro few many hle hmany
    exact le_trans (Nat.add_le_add_left (Nat.mul_le_mul_left _ hle) _) hmany
  induction hreports generalizing table entries with
  | nil path =>
      refine ⟨table, rfl, ?_⟩
      rw [Tree.placeholders, List.append_nil]
      exact hholds
  | ignored hignore _ ih =>
      rw [List.foldlM_cons, scanName, if_pos hignore, ok_bind]
      exact ih hholds hfits
  | special hignore hstat hdir hreg _ ih =>
      rw [List.foldlM_cons, scanName, if_neg (by rw [hignore]; exact Bool.false_ne_true), hstat]
      simp only [hdir, hreg, Bool.or_false, Bool.false_eq_true, if_false, ok_bind]
      exact ih hholds hfits
  | @file _ _ next _ name node hignore hstat _ _ _ ih =>
      have hkind : (node.stat.isDir || node.stat.isReg) = true := by rw [node.regular, Bool.or_true]
      have hnext := hholds.addEntry name node.stat
        (hmono (Nat.add_le_add_left (Nat.le_add_left 1 next.count) _) hfits)
      rw [Tree.count, Nat.add_comm next.count 1] at hfits
      obtain ⟨table', hloop, hholds'⟩ := ih hnext (by simpa [Nat.add_assoc] using hfits)
      rw [List.foldlM_cons, scanName_entry table hignore hstat hkind, ok_bind]
      exact ⟨table', hloop, by simpa [Tree.placeholders] using hholds'⟩
  | @dir _ _ next _ _ name stat hignore hstat _ _ _ _ ih =>
      have hkind : (stat.stat.isDir || stat.stat.isReg) = true := by
        rw [stat.directory, Bool.true_or]
      have hnext := hholds.addEntry name stat.stat
        (hmono (Nat.add_le_add_left (Nat.le_add_left 1 next.count) _) hfits)
      rw [Tree.count, Nat.add_comm next.count 1] at hfits
      obtain ⟨table', hloop, hholds'⟩ := ih hnext (by simpa [Nat.add_assoc] using hfits)
      rw [List.foldlM_cons, scanName_entry table hignore hstat hkind, ok_bind]
      exact ⟨table', hloop, by simpa [Tree.placeholders] using hholds'⟩

/-! ## Directories -/

section Directories

variable {host : Host} {garbage : List UInt8 → Memory}

/-- What `process_dir` has done about a tree: it appended the bytes of the directory and
printed the paths of everything in it. -/
def Processed (host : Host) (garbage : List UInt8 → Memory) (out : Output) (path : List UInt8)
    (tree : Tree) (result : Except Fault (Output × List (List UInt8))) : Prop :=
  ∃ out', result = .ok (out', listing host path tree) ∧
    Appended out out' (directoryBytes host garbage path out.size tree)

/-- What the loop over the entries of a table has done, from the entries `left` on. -/
def Placed (host : Host) (garbage : List UInt8 → Memory) (path : List UInt8) (left : List Entry)
    (progress : Progress) (tree : Tree) (result : Except Fault Progress) : Prop :=
  ∃ progress', result = .ok progress' ∧
    Appended progress.out progress'.out
      (contentBytes host garbage path progress.out.size tree) ∧
    BytesAt progress'.data 0
      (tableBytes (garbage path) (left ++ tree.entries progress.out.size)) ∧
    progress'.printed = progress.printed ++ listing host path tree

/-- `process_dir`, where its loop over the entries is known to work. -/
theorem processDir_of_placed (garbage : List UInt8 → Memory) (depth : ℕ) {path : List UInt8}
    {names : List (List UInt8)} {tree : Tree} (hopendir : host.opendir path = some names)
    (hreports : Reports host path names tree) {out : Output} (hsound : out.Sound)
    (hfits : out.size + tree.directorySize ≤ maxImage)
    (hplaced : ∀ progress : Progress, progress.out.Sound →
      progress.out.size + tree.size ≤ maxImage →
      BytesAt progress.data 0 (tableBytes (garbage path) ([] ++ tree.placeholders)) →
      Placed host garbage path [] progress tree
        ((List.range' 0 tree.count).foldlM
          (placeEntry host (processDir host garbage depth) path) progress)) :
    Processed host garbage out path tree (processDir host garbage (depth + 1) out path) := by
  rw [Tree.directorySize] at hfits
  obtain ⟨table, hscan, hholds⟩ := foldlM_scanName hreports (emptyTable_holds (garbage path))
    (by rw [List.length_nil, Nat.zero_add]; omega)
  rw [List.nil_append] at hholds
  have hcount : load32 table.data 0 = tree.count := by
    rw [hholds.count (by rw [Tree.length_placeholders]; omega), Tree.length_placeholders]
  have halloc : table.alloc = Tree.tableSize tree.count := by
    rw [hholds.alloc, Tree.length_placeholders]
  obtain ⟨out₁, hout₁, happended₁⟩ :=
    outputAppend_spec hsound (loadBytes table.data 0 table.alloc)
      (by rw [length_loadBytes, halloc]; omega)
  have hsize₁ : out₁.size = out.size + Tree.tableSize tree.count := by
    rw [happended₁.size, length_loadBytes, halloc]
  obtain ⟨progress, hloop, happended₂, htable, hprinted⟩ :=
    hplaced ⟨out₁, table.data, []⟩ happended₁.sound (by simp only; omega) hholds.held
  simp only [List.nil_append] at happended₂ htable hprinted
  have hbytes : loadBytes progress.data 0 table.alloc =
      tableBytes (garbage path) (tree.entries out₁.size) := by
    have hload := loadBytes_bytesAt htable
    rwa [length_tableBytes, Tree.length_entries, ← halloc] at hload
  have hlength : (tableBytes (garbage path) (tree.entries out₁.size)).length =
      Tree.tableSize tree.count := by
    rw [length_tableBytes, Tree.length_entries]
  have hsize₂ := happended₂.size
  rw [length_contentBytes] at hsize₂
  refine ⟨{ progress.out with
    data := storeBytes progress.out.data out.size (loadBytes progress.data 0 table.alloc) },
    ?_, ?_⟩
  · rw [processDir, hopendir]
    simp only
    rw [hscan, ok_bind, hout₁, ok_bind, hcount, List.range_eq_range', hloop, ok_bind, hprinted]
    rfl
  · refine ⟨⟨happended₂.sound.power, happended₂.sound.size_le⟩, ?_, ?_, ?_⟩
    · rw [length_directoryBytes, Tree.directorySize]
      simp only
      omega
    · intro x hx
      dsimp only
      rw [storeBytes_off _ _ _ (.inl hx), happended₂.kept x (by omega), happended₁.kept x hx]
    · rw [directoryBytes, ← hsize₁, hbytes, bytesAt_append, hlength, ← hsize₁]
      refine ⟨bytesAt_storeBytes _ _ _, bytesAt_storeBytes_off happended₂.appended (.inl ?_)⟩
      rw [hlength, hsize₁]

/-- A round of the loop over the entries of a table, by what the entry is. -/
theorem placeEntry_eq {path : List UInt8} {left right : List Entry} {entry : Entry}
    {memory : Memory} {progress : Progress}
    (recurse : Output → List UInt8 → Except Fault (Output × List (List UInt8)))
    (htable : BytesAt progress.data 0 (tableBytes memory (left ++ entry :: right))) :
    placeEntry host recurse path progress left.length =
      let full := fullPath host path entry.name.chars
      let data := store32 progress.data (entryAddress 0 left.length + 8) progress.out.size
      if entry.stat.isDir then do
        let (out, printed) ← recurse progress.out full
        return ⟨out, data, progress.printed ++ full :: printed⟩
      else do
        let out ← processFile host progress.out full
        return ⟨out, data, progress.printed ++ [full]⟩ := by
  have hname := nameAt_entry (bytesAt_tableBytes_entry htable)
  have htype := typeAt_entry
    (bytesAt_tableBytes_entry (bytesAt_table_relocate htable progress.out.size))
  rw [placeEntry]
  simp only [hname, htype]
  cases entry.stat.isDir <;> simp [typeDir, typeFile]

/-- The loop over the entries appends every file and directory and fills in its location. -/
theorem foldlM_placeEntry {path : List UInt8} {names : List (List UInt8)} {tree : Tree}
    (hreports : Reports host path names tree) {depth : ℕ} (hdepth : tree.height ≤ depth)
    (left : List Entry) (progress : Progress) (hsound : progress.out.Sound)
    (hfits : progress.out.size + tree.size ≤ maxImage)
    (htable : BytesAt progress.data 0 (tableBytes (garbage path) (left ++ tree.placeholders))) :
    Placed host garbage path left progress tree
      ((List.range' left.length tree.count).foldlM
        (placeEntry host (processDir host garbage depth) path) progress) := by
  induction hreports generalizing depth left progress with
  | nil path =>
      refine ⟨progress, rfl, Appended.nil hsound, htable, ?_⟩
      rw [listing, List.append_nil]
  | ignored _ _ ih => exact ih hdepth left progress hsound hfits htable
  | special _ _ _ _ _ ih => exact ih hdepth left progress hsound hfits htable
  | @file path _ next chunks name node _ _ hreads hcontents _ ih =>
      rw [Tree.size] at hfits
      rw [Tree.placeholders] at htable
      obtain ⟨out₁, hout₁, happended₁⟩ :=
        processFile_spec hsound hreads (by rw [hcontents]; omega)
      rw [hcontents] at happended₁
      have hsize₁ := happended₁.size
      have htable₁ := bytesAt_table_relocate htable progress.out.size
      rw [← List.singleton_append, ← List.append_assoc] at htable₁
      obtain ⟨progress', hloop, happended₂, htable₂, hprinted⟩ :=
        ih hdepth (left ++ [⟨name, node.stat, progress.out.size⟩])
          ⟨out₁, _, progress.printed ++ [fullPath host path name.chars]⟩ happended₁.sound
          (by simp only; omega) htable₁
      simp only [hsize₁, List.append_assoc, List.singleton_append] at happended₂ htable₂ hprinted
      rw [List.length_append, List.length_singleton] at hloop
      refine ⟨progress', ?_, happended₁.trans happended₂, htable₂, hprinted⟩
      rw [Tree.count, List.range'_succ, List.foldlM_cons, placeEntry_eq _ htable]
      simp only [node.isDir_stat, Bool.false_eq_true, if_false, hout₁, ok_bind, pure_eq_ok]
      exact hloop
  | @dir path _ next inner children name stat _ _ hopendir hchildren _ ihChildren ihNext =>
      rw [Tree.size, ← Tree.directorySize] at hfits
      rw [Tree.height] at hdepth
      rw [Tree.placeholders] at htable
      obtain ⟨deeper, rfl⟩ : ∃ deeper, depth = deeper + 1 := ⟨depth - 1, by omega⟩
      obtain ⟨out₁, hout₁, happended₁⟩ :=
        processDir_of_placed garbage deeper hopendir hchildren hsound
          (by omega) fun inside hinside hroom hplaceholders =>
            ihChildren (by omega) [] inside hinside hroom hplaceholders
      have hsize₁ := happended₁.size
      rw [length_directoryBytes] at hsize₁
      have htable₁ := bytesAt_table_relocate htable progress.out.size
      rw [← List.singleton_append, ← List.append_assoc] at htable₁
      have hnext := ihNext (show next.height ≤ deeper + 1 by omega)
        (left ++ [⟨name, stat.stat, progress.out.size⟩])
        ⟨out₁, store32 progress.data (entryAddress 0 left.length + 8) progress.out.size,
          progress.printed ++ fullPath host path name.chars ::
            listing host (fullPath host path name.chars) children⟩ happended₁.sound
        (by simp only; omega)
      obtain ⟨progress', hloop, happended₂, htable₂, hprinted⟩ := hnext htable₁
      simp only [hsize₁, List.append_assoc, List.singleton_append] at happended₂ htable₂ hprinted
      rw [List.length_append, List.length_singleton] at hloop
      refine ⟨progress', ?_, happended₁.trans happended₂, htable₂, hprinted⟩
      rw [Tree.count, List.range'_succ, List.foldlM_cons, placeEntry_eq _ htable]
      simp only [stat.directory, if_true, hout₁, ok_bind, pure_eq_ok]
      exact hloop

/-- `process_dir` appends the bytes of the directory with everything in it. -/
theorem processDir_processed (garbage : List UInt8 → Memory) {path : List UInt8}
    {names : List (List UInt8)} {tree : Tree}
    (hopendir : host.opendir path = some names) (hreports : Reports host path names tree)
    {depth : ℕ} (hdepth : tree.height < depth) {out : Output} (hsound : out.Sound)
    (hfits : out.size + tree.directorySize ≤ maxImage) :
    Processed host garbage out path tree (processDir host garbage depth out path) := by
  obtain ⟨deeper, rfl⟩ : ∃ deeper, depth = deeper + 1 := ⟨depth - 1, by omega⟩
  exact processDir_of_placed garbage deeper hopendir hreports hsound hfits
    fun progress hsound hroom htable =>
      foldlM_placeEntry hreports (by omega) [] progress hsound hroom htable

end Directories

/-! ## The program -/

/-- `fstool -build` writes the image of the tree that the host reports, whatever memory
contained before, and prints the path of everything in it. -/
theorem build_writes_image {host : Host} {path : List UInt8} {names : List (List UInt8)}
    {tree : Tree} (hopendir : host.opendir path = some names)
    (hreports : Reports host path names tree) (hfits : tree.imageSize ≤ maxImage) {depth : ℕ}
    (hdepth : tree.height < depth) (garbage : Garbage) :
    build host garbage depth path =
      .ok (imageBytes host garbage.table garbage.root path tree, listing host path tree) := by
  have hempty : (⟨1, 0, garbage.buffer⟩ : Output).Sound := ⟨⟨0, by decide, rfl⟩, Nat.zero_le _⟩
  rw [Tree.imageSize] at hfits
  obtain ⟨out₁, hout₁, happended₁⟩ :=
    outputAppend_spec hempty (loadBytes (rootEntry garbage.root) 0 entrySize)
      (by rw [length_loadBytes]; simp only; omega)
  have hsize₁ : out₁.size = entrySize := by
    rw [happended₁.size, length_loadBytes]
    exact Nat.zero_add _
  obtain ⟨out₂, hout₂, happended₂⟩ :=
    processDir_processed garbage.table hopendir hreports hdepth happended₁.sound
      (by omega)
  have himage := happended₁.trans happended₂
  rw [hsize₁] at himage
  have hload := loadBytes_bytesAt himage.appended
  have hsize := himage.size
  simp only [Nat.zero_add] at hsize
  rw [build, hout₁, ok_bind, hout₂, ok_bind]
  simp only [pure_eq_ok]
  rw [hsize, hload]
  rfl

/-! ### A small directory -/

/-- The directory `"d"` with the file `"f"` and the empty directory `"s"`. -/
def smallHost : Host where
  pathMax := 4096
  opendir path :=
    if path = [0x64] then some [dot, [0x66], [0x73]]
    else if path = [0x64, 0x2F, 0x73] then some [dotDot]
    else none
  stat path :=
    if path = [0x64, 0x2F, 0x66] then some ⟨0o100644, 3, 7⟩
    else if path = [0x64, 0x2F, 0x73] then some ⟨0o040755, 4096, 9⟩
    else none
  reads path := if path = [0x64, 0x2F, 0x66] then some [[1, 2], [3]] else none

def fileName : EntryName := ⟨[0x66], by decide, by decide, by decide⟩

def subdirectoryName : EntryName := ⟨[0x73], by decide, by decide, by decide⟩

def smallFile : FileNode := ⟨⟨0o100644, 3, 7⟩, [1, 2, 3], by decide, by decide⟩

def smallTree : Tree :=
  .file fileName smallFile (.dir subdirectoryName ⟨⟨0o040755, 4096, 9⟩, by decide⟩ .nil .nil)

theorem reports_smallTree :
    Reports smallHost [0x64] [dot, [0x66], [0x73]] smallTree := by
  refine .ignored (by decide) (.file fileName smallFile (by decide) rfl rfl rfl ?_)
  exact .dir subdirectoryName _ (by decide) rfl rfl (.ignored (by decide) (.nil _)) (.nil _)

end Rhythmos.Fstool
