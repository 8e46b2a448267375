import Rhythmos.Filesystem.Images

/-!
# Images with one path

A chain is an image with a single path: every directory has one entry, at a fixed distance
from the one before, and the last entry is an empty directory or a file.  A walk through a
chain succeeds exactly for the beginnings of its path, so that chains tell paths apart.
-/

namespace Rhythmos.Filesystem

open ByteMemory Components

variable {stride : ℕ} {names : List (List UInt8)} {isDir : Bool}

/-! ## Reading from a list of bytes -/

/-- A string is read back up to its terminator. -/
theorem cString_eq {memory : Memory} {name : List UInt8} (hname : 0 ∉ name) {count address : ℕ}
    (hcount : name.length < count)
    (hbytes : ∀ i (h : i < name.length), memory (address + i) = name.get ⟨i, h⟩)
    (hend : memory (address + name.length) = 0) : cString memory count address = name := by
  induction name generalizing count address with
  | nil =>
      obtain ⟨n, rfl⟩ : ∃ n, count = n + 1 := ⟨count - 1, by simp at hcount; omega⟩
      rw [cString, if_pos (by simpa using hend)]
  | cons c name ih =>
      rw [List.mem_cons, not_or] at hname
      rw [List.length_cons] at hcount
      obtain ⟨n, rfl⟩ : ∃ n, count = n + 1 := ⟨count - 1, by omega⟩
      have hfirst : memory address = c := hbytes 0 (by simp)
      rw [cString, hfirst, if_neg (Ne.symm hname.1), ih hname.2 (by omega)]
      · intro i hi
        have hnext := hbytes (i + 1) (by simpa using hi)
        rw [Nat.add_assoc, Nat.add_comm 1 i, hnext]
        rfl
      · rw [Nat.add_assoc, Nat.add_comm 1 name.length]
        exact hend

/-! ## Chains -/

/-- The type of an entry in a chain of which `rest` is what follows. -/
def linkType (isDir : Bool) (rest : List (List UInt8)) : ℕ :=
  if rest = [] ∧ isDir = false then typeFile else typeDir

/-- The bytes of the directory with the number `level`, with the names from there on. -/
def link (stride level : ℕ) (isDir : Bool) : List (List UInt8) → List UInt8
  | [] => []
  | name :: rest =>
      word32 1 ++ (word32 0 ++ (word32 (linkType isDir rest) ++ (word32 ((level + 1) * stride) ++
        (word32 0 ++ (word32 0 ++ (name ++ [0]))))))

/-- The entry of the root directory, in a chain. -/
def chainRoot (stride : ℕ) : List UInt8 :=
  word32 0 ++ (word32 typeDir ++ (word32 stride ++ (word32 0 ++ (word32 0 ++ [0]))))

/-- The image with the path `names`. -/
def chain (stride : ℕ) (names : List (List UInt8)) (isDir : Bool) : Memory := fun address =>
  if address / stride = 0 then ofList (chainRoot stride) (address % stride)
  else ofList (link stride (address / stride) isDir (names.drop (address / stride - 1)))
    (address % stride)

/-- There is room for the names in a chain. -/
structure Chainable (stride : ℕ) (names : List (List UInt8)) : Prop where
  room : ∀ name ∈ names, name.length + 32 ≤ stride
  strings : ∀ name ∈ names, 0 ∉ name
  stride_le : 32 ≤ stride
  bound : (names.length + 2) * stride < wordCount

theorem chain_link (hstride : 0 < stride) (level : ℕ) {offset : ℕ} (hoffset : offset < stride) :
    chain stride names isDir ((level + 1) * stride + offset) =
      ofList (link stride (level + 1) isDir (names.drop level)) offset := by
  have hdiv : ((level + 1) * stride + offset) / stride = level + 1 := by
    rw [Nat.mul_comm, Nat.mul_add_div hstride, Nat.div_eq_of_lt hoffset, Nat.add_zero]
  have hmod : ((level + 1) * stride + offset) % stride = offset := by
    rw [Nat.mul_comm, Nat.mul_add_mod, Nat.mod_eq_of_lt hoffset]
  rw [chain, hdiv, hmod, if_neg (Nat.succ_ne_zero level), Nat.add_sub_cancel]

theorem chain_root (hstride : 0 < stride) {offset : ℕ} (hoffset : offset < stride) :
    chain stride names isDir offset = ofList (chainRoot stride) offset := by
  rw [chain, Nat.div_eq_of_lt hoffset, if_pos rfl, Nat.mod_eq_of_lt hoffset]

/-- A word of a directory in a chain. -/
theorem load32_chain (level : ℕ) {offset : ℕ} (hoffset : offset + 4 ≤ stride) :
    load32 (chain stride names isDir) ((level + 1) * stride + offset) =
      load32 (ofList (link stride (level + 1) isDir (names.drop level))) offset := by
  have hstride : 0 < stride := by omega
  simp only [load32, Nat.add_assoc]
  rw [chain_link hstride level (by omega), chain_link hstride level (by omega),
    chain_link hstride level (by omega), chain_link hstride level (by omega)]

/-- The entry of the directory with the number `level + 1`. -/
def chainEntry (stride level : ℕ) : ℕ := (level + 1) * stride + 4

/-- What a directory of a chain holds. -/
structure Linked (fs : Memory) (stride level : ℕ) (isDir : Bool) (name : List UInt8)
    (rest : List (List UInt8)) : Prop where
  count : load32 fs ((level + 1) * stride) = 1
  size : sizeAt fs (chainEntry stride level) = 0
  type : typeAt fs (chainEntry stride level) = linkType isDir rest
  location : locationAt fs (chainEntry stride level) = (level + 2) * stride
  name : nameAt fs (chainEntry stride level) = name

theorem linked_chain (hchain : Chainable stride names) {level : ℕ} {name : List UInt8}
    {rest : List (List UInt8)} (hrest : names.drop level = name :: rest) :
    Linked (chain stride names isDir) stride level isDir name rest := by
  have hmem : name ∈ names := List.mem_of_mem_drop (by rw [hrest]; simp)
  have hroom := hchain.room name hmem
  have hlevel : level < names.length := by
    have hlength := congrArg List.length hrest
    rw [List.length_drop, List.length_cons] at hlength
    omega
  have hlocation : (level + 2) * stride < wordCount :=
    (Nat.mul_le_mul_right stride (by omega)).trans_lt hchain.bound
  have htype : linkType isDir rest < wordCount := by
    rw [linkType]
    split <;> decide
  have hword : ∀ offset, offset + 4 ≤ stride →
      load32 (chain stride names isDir) ((level + 1) * stride + offset) =
        load32 (ofList (link stride (level + 1) isDir (name :: rest))) offset := by
    intro offset hoffset
    rw [load32_chain level hoffset, hrest]
  refine ⟨?_, ?_, ?_, ?_, ?_⟩
  · rw [← Nat.add_zero ((level + 1) * stride), hword 0 (by omega)]
    exact load32_word32 (by decide) _
  · rw [sizeAt, chainEntry, hword 4 (by omega), link, load32_skip 1 0]
    exact load32_word32 (by decide) _
  · rw [typeAt, chainEntry, Nat.add_assoc, hword 8 (by omega), link, load32_skip 1 4,
    load32_skip 0 0]
    exact load32_word32 htype _
  · rw [locationAt, chainEntry, Nat.add_assoc, hword 12 (by omega), link, load32_skip 1 8,
      load32_skip 0 4, load32_skip _ 0]
    exact load32_word32 hlocation _
  · have hbyte : ∀ offset, offset + 24 < stride →
        chain stride names isDir (chainEntry stride level + 20 + offset) =
          ofList (name ++ [0]) offset := by
      intro offset hoffset
      rw [chainEntry, Nat.add_assoc, Nat.add_assoc, chain_link (by omega) level (by omega), hrest]
      have hskips : ∀ (value more : ℕ) (right : List UInt8),
          ofList (word32 value ++ right) (4 + more) = ofList right more := fun value more right =>
        ofList_append_right (word32 value) right more
      rw [link, show 4 + (20 + offset) = 4 + (4 + (4 + (4 + (4 + (4 + offset))))) by omega, hskips,
        hskips, hskips, hskips, hskips, hskips]
    apply cString_eq (hchain.strings name hmem)
    · have hbound := hchain.bound
      have hsmall : stride ≤ (names.length + 2) * stride :=
        Nat.le_mul_of_pos_left stride (by omega)
      omega
    · intro i hi
      rw [hbyte i (by omega), ofList_append_left _ _ hi, ofList]
      simp [hi]
    · rw [hbyte name.length (by omega), ← Nat.add_zero name.length, ofList_append_right]
      rfl

theorem linked_end {level : ℕ} (hstride : 32 ≤ stride) (hend : names.drop level = []) :
    load32 (chain stride names isDir) ((level + 1) * stride) = 0 := by
  have hword := @load32_chain stride names isDir level 0 (by omega)
  rw [Nat.add_zero, hend] at hword
  exact hword

/-! ## Walks -/

theorem root_chain (hchain : Chainable stride names) :
    locationAt (chain stride names isDir) 0 = stride ∧ sizeAt (chain stride names isDir) 0 = 0 := by
  have hstride := hchain.stride_le
  have hword : ∀ offset, offset + 4 ≤ stride →
      load32 (chain stride names isDir) offset = load32 (ofList (chainRoot stride)) offset := by
    intro offset hoffset
    simp only [load32]
    rw [chain_root (by omega) (by omega), chain_root (by omega) (by omega),
      chain_root (by omega) (by omega), chain_root (by omega) (by omega)]
  have hsmall : stride < wordCount :=
    (Nat.le_mul_of_pos_left stride (by omega)).trans_lt hchain.bound
  constructor
  · rw [locationAt, hword 8 (by omega), chainRoot, load32_skip 0 4, load32_skip _ 0]
    exact load32_word32 hsmall _
  · rw [sizeAt, hword 0 (by omega)]
    exact load32_word32 (by decide) _

/-- A step through a chain. -/
theorem enter_chain (hchain : Chainable stride names) (level entry : ℕ)
    (field : List UInt8 × Bool) :
    enter (chain stride names isDir) ⟨entry, (level + 1) * stride⟩ field =
      match names.drop level with
      | [] => none
      | name :: rest =>
          if name = field.1 then
            if rest = [] ∧ isDir = false then
              if field.2 then some ⟨chainEntry stride level, (level + 1) * stride⟩ else none
            else some ⟨chainEntry stride level, (level + 2) * stride⟩
          else none := by
  rw [enter]
  cases hdrop : names.drop level with
  | nil => simp [lookup, linked_end hchain.stride_le hdrop, lookupFrom]
  | cons name rest =>
      have hlinked := @linked_chain _ _ isDir hchain level name rest hdrop
      have haddress : entryAddress ((level + 1) * stride) 0 = chainEntry stride level := by
        rw [entryAddress, chainEntry, Nat.mul_zero, Nat.add_zero]
      have hlookup : lookup (chain stride names isDir) ((level + 1) * stride) field.1 =
          if name = field.1 then some (chainEntry stride level) else none := by
        rw [lookup, hlinked.count, lookupFrom, haddress, hlinked.name, lookupFrom]
      rw [hlookup]
      by_cases hname : name = field.1
      · rw [if_pos hname]
        dsimp only
        rw [hlinked.type, hlinked.location, if_pos hname, linkType]
        by_cases hfile : rest = [] ∧ isDir = false
        · rw [if_pos hfile, if_pos hfile, if_neg (by decide)]
        · rw [if_neg hfile, if_neg hfile, if_pos rfl]
      · dsimp only
        rw [if_neg hname, if_neg hname]

/-- The entry reached after some names of the path. -/
def reached (stride : ℕ) : ℕ → ℕ
  | 0 => 0
  | level + 1 => chainEntry stride level

theorem reached_injective (hstride : 0 < stride) {level level' : ℕ}
    (hsame : reached stride level = reached stride level') : level = level' := by
  cases level with
  | zero =>
      cases level' with
      | zero => rfl
      | succ level' => simp [reached, chainEntry] at hsame
  | succ level =>
      cases level' with
      | zero => simp [reached, chainEntry] at hsame
      | succ level' =>
          simp only [reached, chainEntry] at hsame
          have heq := Nat.eq_of_mul_eq_mul_right hstride (Nat.add_right_cancel hsame)
          exact heq

/-- A walk through directories follows the path of the chain. -/
theorem foldlM_chain (hchain : Chainable stride names) (path : List (List UInt8 × Bool))
    (level : ℕ) (hdirs : isDir = true ∨ level + path.length < names.length) :
    path.foldlM (enter (chain stride names isDir)) ⟨reached stride level, (level + 1) * stride⟩ =
      if path.map Prod.fst <+: names.drop level then
        some ⟨reached stride (level + path.length), (level + path.length + 1) * stride⟩
      else none := by
  induction path generalizing level with
  | nil => simp
  | cons field path ih =>
      rw [List.length_cons] at hdirs ⊢
      rw [List.foldlM_cons, enter_chain hchain]
      cases hdrop : names.drop level with
      | nil => simp
      | cons name rest =>
          have hrest : rest = names.drop (level + 1) := by
            rw [← List.drop_drop, hdrop]
            rfl
          by_cases hname : name = field.1
          · have hdir : ¬ (rest = [] ∧ isDir = false) := by
              rintro ⟨hend, hfile⟩
              rcases hdirs with htrue | hless
              · cases hfile.symm.trans htrue
              · rw [hrest, List.drop_eq_nil_iff] at hend
                omega
            have hdirs' : isDir = true ∨ level + 1 + path.length < names.length := by
              rw [Nat.add_assoc, Nat.add_comm 1]
              exact hdirs
            dsimp only
            rw [if_pos hname, if_neg hdir, Option.bind_eq_bind, Option.bind_some]
            rw [show chainEntry stride level = reached stride (level + 1) from rfl,
              ih (level + 1) hdirs']
            simp only [List.map_cons, hname, hrest, List.prefix_cons_inj, Nat.add_assoc,
              Nat.add_comm 1]
          · have hne : ¬ (field :: path).map Prod.fst <+: name :: rest := by
              rw [List.map_cons, List.cons_prefix_cons]
              exact fun h => hname h.1.symm
            dsimp only
            rw [if_neg hname, if_neg hne]
            rfl

theorem rootCursor_chain (hchain : Chainable stride names) :
    rootCursor (chain stride names isDir) = ⟨reached stride 0, (0 + 1) * stride⟩ := by
  rw [rootCursor, root_chain hchain |>.1]
  simp [reached]

theorem walk_chain (hchain : Chainable stride names) (path : List (List UInt8 × Bool)) :
    walk (chain stride names true) path =
      if path.map Prod.fst <+: names then some (reached stride path.length) else none := by
  rw [walk, rootCursor_chain hchain, foldlM_chain hchain path 0 (.inl rfl), Nat.zero_add,
    List.drop_zero]
  split <;> rfl

/-- A chain of directories tells its path from every other path. -/
theorem chain_separates (hchain : Chainable stride names) {path other : List (List UInt8 × Bool)}
    (hpath : path.map Prod.fst = names) (hother : other.map Prod.fst ≠ names) :
    ∃ entry, walk (chain stride names true) path = some entry ∧
      walk (chain stride names true) other ≠ some entry := by
  refine ⟨reached stride path.length, ?_, ?_⟩
  · rw [walk_chain hchain, if_pos (by rw [hpath])]
  · rw [walk_chain hchain]
    split
    next hprefix =>
      intro hsame
      have hstride : 0 < stride := by
        have hle := hchain.stride_le
        omega
      have hlength := reached_injective hstride (Option.some_injective _ hsame)
      apply hother
      apply hprefix.eq_of_length
      rw [List.length_map, hlength, ← hpath, List.length_map]
    next => simp

/-- A chain that ends with a file tells whether a path goes on behind its last name. -/
theorem chain_file (hchain : Chainable stride names) (hne : names ≠ []) :
    walk (chain stride names false) (flagged names) ≠ none ∧
      walk (chain stride names false) (names.map (·, false)) = none := by
  obtain ⟨front, last, rfl⟩ := List.eq_nil_or_concat names |>.resolve_left hne
  rw [List.concat_eq_append] at *
  have hfront := @foldlM_chain _ _ false hchain (front.map (·, false)) 0
    (.inr (by simp))
  have hmap : (front.map (·, false)).map Prod.fst = front := by simp [Function.comp_def]
  rw [hmap, if_pos (by simp), List.length_map, Nat.zero_add] at hfront
  have hdrop : (front ++ [last]).drop front.length = [last] := by simp
  have hend : ∀ flag : Bool, walk (chain stride (front ++ [last]) false)
      (front.map (·, false) ++ [(last, flag)]) =
        if flag then some (chainEntry stride front.length) else none := by
    intro flag
    rw [walk, rootCursor_chain hchain, List.foldlM_append, hfront, Option.bind_eq_bind,
      Option.bind_some, List.foldlM_cons, enter_chain hchain, Nat.zero_add, hdrop]
    cases flag <;> simp
  rw [flagged_concat, hend, List.map_append]
  exact ⟨by simp, hend false⟩

/-! ## Chains for given paths -/

/-- All entries of a chain are empty. -/
theorem size_walk_chain (hchain : Chainable stride names) {path : List (List UInt8 × Bool)}
    {entry : ℕ} (hwalk : walk (chain stride names isDir) path = some entry) :
    sizeAt (chain stride names isDir) entry = 0 := by
  have hstep : ∀ (path : List (List UInt8 × Bool)) (level start : ℕ) (cursor : Cursor),
      sizeAt (chain stride names isDir) start = 0 →
      path.foldlM (enter (chain stride names isDir)) ⟨start, (level + 1) * stride⟩ = some cursor →
      sizeAt (chain stride names isDir) cursor.entry = 0 := by
    intro path
    induction path with
    | nil =>
        intro level start cursor hstart hcursor
        obtain rfl := Option.some_injective _ hcursor
        exact hstart
    | cons field path ih =>
        intro level start cursor hstart hcursor
        rw [List.foldlM_cons, enter_chain hchain] at hcursor
        cases hdrop : names.drop level with
        | nil => simp [hdrop] at hcursor
        | cons name rest =>
            have hsize := (@linked_chain _ _ isDir hchain level name rest hdrop).size
            rw [hdrop] at hcursor
            dsimp only at hcursor
            split at hcursor
            · split at hcursor
              · split at hcursor
                · exact ih level _ cursor hsize hcursor
                · cases hcursor
              · exact ih (level + 1) _ cursor hsize hcursor
            · cases hcursor
  rw [walk, rootCursor_chain hchain, Option.map_eq_some_iff] at hwalk
  obtain ⟨cursor, hcursor, rfl⟩ := hwalk
  exact hstep path 0 0 cursor (root_chain hchain).2 hcursor

/-- The distance between the entries of a chain for a path of at most `PATH_MAX` bytes. -/
def pathStride : ℕ := 2048

theorem chainable_components {text : List UInt8} (hstring : 0 ∉ text)
    (hlength : text.length < pathMax) : Chainable pathStride (components slash text) := by
  have hjoined := length_joined_components slash text
  have hlong : ∀ name ∈ components slash text,
      name.length + 1 ≤ (joined slash (components slash text)).length := by
    intro name hname
    obtain ⟨front, back, hsplit⟩ := List.append_of_mem hname
    rw [hsplit, joined_append, joined_cons]
    simp only [List.length_append, List.length_cons]
    omega
  have hcount : ∀ names : List (List UInt8), names.length ≤ (joined slash names).length := by
    intro names
    induction names with
    | nil => simp
    | cons name names ih =>
        simp only [joined_cons, List.length_append, List.length_cons]
        omega
  have hfew := hcount (components slash text)
  simp only [pathMax] at hlength
  refine ⟨fun name hname => ?_, fun name hname hzero => ?_, by decide, ?_⟩
  · have hname' := hlong name hname
    simp only [pathStride]
    omega
  · exact hstring (mem_of_mem_component hname hzero)
  · simp only [pathStride, wordCount]
    omega

end Rhythmos.Filesystem
