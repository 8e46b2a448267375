import Rhythmos.Library.Editing
import Rhythmos.Libc.Strings
import Rhythmos.Shell.Arguments

/-!
# Backspaces in a command line

`rm_chars` and `rm_consecutive_chars` of `dsh.c`.  `rm_chars` makes one editing pass over a
string, and as often as there are backspaces it has to be repeated.  `rm_consecutive_chars` is
meant to repeat it, but compares the characters with the pointer `key` and not with what it
points to, so that it returns a copy of the string.
-/

namespace Rhythmos.Shell.Erasing

open Buddy Editing Fallible Objects
open Arguments (separators)
open Libc.Strings (charValue)
open Libc.Tokens (runs stringAt stringAt_eq subset_of_mem_runs)

def backspace : UInt8 := 8

/-- The string literal `"\b"`. -/
def backspaceKey : List UInt8 := [backspace, 0]

/-- The text that `rm_chars` prints when `malloc` returns `NULL`. -/
def unableText : List UInt8 := "Unable to allocate memory\n".toList.map Libc.Printf.ascii

/-! ## The functions of `dsh.c` -/

/-- The loop over the key, which computes `found`. -/
def keyLoop (src key : List UInt8) (lenKey i : ℕ) : ℕ → ℕ → Bool → Except Fault Bool
  | 0, _, _ => .error .diverges
  | fuel + 1, j, found =>
      if j < lenKey then do
        let c ← loadChar src i
        let k ← loadChar key j
        let next ← loadChar src (i + 1)
        keyLoop src key lenKey i fuel (j + 1)
          (if (c = k ∧ next ≠ k) ∨ (c ≠ k ∧ next = k) then true else found)
      else .ok found

/-- The loop over `src`, which copies the characters that are not found. -/
def copyLoop (src key : List UInt8) (lenSrc lenKey : ℕ) :
    ℕ → ℕ → ℕ → List UInt8 → Except Fault (List UInt8)
  | 0, _, _, _ => .error .diverges
  | fuel + 1, i, k, dest =>
      if i < lenSrc then do
        let found ← keyLoop src key lenKey i (lenKey + 1) 0 false
        if found then copyLoop src key lenSrc lenKey fuel (i + 1) k dest
        else
          let c ← loadChar src i
          let dest ← storeChar dest k c
          copyLoop src key lenSrc lenKey fuel (i + 1) (k + 1) dest
      else .ok dest

variable {P : Type}

def rmChars (lib : Libc P) (process : P) (src key : List UInt8) :
    Except Fault (Option Object × P) := do
  let lenSrc ← strlen src
  let lenKey ← strlen key
  let (dest, process) ← lib.malloc process (lenSrc + 1)
  match dest with
  | none => return (none, lib.printf process unableText)
  | some dest =>
      let bytes ← memset dest.bytes 0 (lenSrc + 1)
      let bytes ← copyLoop src key lenSrc lenKey (lenSrc + 1) 0 0 bytes
      return (some { dest with bytes := bytes }, process)

/-- The value of a `char`, which is signed, as it is compared with a pointer. -/
def promoted (c : UInt8) : ℕ := (charValue c % ByteMemory.wordCount).toNat

/-- The loop over `dest`, which computes `found`; it goes on in the string that `rm_chars`
returns. -/
def scanLoop (lib : Libc P) (key : Object) :
    ℕ → P → ℕ → Bool → Object → Except Fault (Bool × Object × P)
  | 0, _, _, _, _ => .error .diverges
  | fuel + 1, process, i, found, dest => do
      let len ← strlen dest.bytes
      if i < len then
        let c ← loadChar dest.bytes i
        if promoted c = key.address then
          match ← rmChars lib process dest.bytes key.bytes with
          -- the string is read at the address 0
          | (none, _) => throw .outOfBounds
          | (some dest, process) => scanLoop lib key fuel process (i + 1) true dest
        else scanLoop lib key fuel process (i + 1) found dest
      else return (found, dest, process)

/-- The loop that goes on while `found` is set.  A turn that removes nothing is repeated for
ever. -/
def consecutiveLoop (lib : Libc P) (key : Object) : ℕ → P → Object → Except Fault (Object × P)
  | 0, _, _ => .error .diverges
  | fuel + 1, process, dest => do
      let (found, dest, process) ← scanLoop lib key (dest.bytes.length + 1) process 0 false dest
      if found then consecutiveLoop lib key fuel process dest
      else return (dest, process)

def rmConsecutiveChars (lib : Libc P) (process : P) (src : List UInt8) (key : Object) :
    Except Fault (Object × P) := do
  let len ← strlen src
  match ← lib.malloc process (len + 1) with
  -- `strcpy` writes to the address 0
  | (none, _) => throw .outOfBounds
  | (some dest, process) =>
      let bytes ← strcpy dest.bytes src
      consecutiveLoop lib key (len + 2) process { dest with bytes := bytes }

/-- A string literal.  No `char` has the value of its address. -/
structure Literal extends Object where
  outside : ∀ c, promoted c ≠ address

/-! ## A pass of `rm_chars` -/

variable {src key dest chars rest : List UInt8} {c k next : UInt8} {i j : ℕ}

/-- The two sides of the beginning or of the end of a run of `key`. -/
def atEdge (c next k : UInt8) : Bool := (c = k ∧ next ≠ k) ∨ (c ≠ k ∧ next = k)

theorem keyLoop_eq {fuel lenKey : ℕ} {found : Bool} (hc : loadChar src i = .ok c)
    (hnext : loadChar src (i + 1) = .ok next) (hkey : key.drop j = chars ++ 0 :: rest)
    (hlen : j + chars.length = lenKey) (hfuel : chars.length < fuel) :
    keyLoop src key lenKey i fuel j found = .ok (found || chars.any (atEdge c next)) := by
  induction chars generalizing fuel j found with
  | nil =>
      obtain ⟨fuel, rfl⟩ := Nat.exists_eq_succ_of_ne_zero (Nat.ne_zero_of_lt hfuel)
      rw [List.length_nil, Nat.add_zero] at hlen
      rw [keyLoop, if_neg hlen.ge.not_gt, List.any_nil, Bool.or_false]
  | cons k chars ih =>
      obtain ⟨fuel, rfl⟩ := Nat.exists_eq_succ_of_ne_zero (Nat.ne_zero_of_lt hfuel)
      obtain ⟨hload, hrest⟩ := loadChar_of_drop hkey
      rw [List.length_cons] at hlen
      rw [keyLoop, if_pos (by omega), hc, ok_bind, hload, ok_bind, hnext, ok_bind,
        ih hrest (by omega) (Nat.lt_of_succ_lt_succ hfuel), List.any_cons]
      congr 1
      by_cases hedge : (c = k ∧ next ≠ k) ∨ (c ≠ k ∧ next = k)
      · rw [if_pos hedge, atEdge, decide_eq_true hedge, Bool.true_or, Bool.or_true]
      · rw [if_neg hedge, atEdge, decide_eq_false hedge, Bool.false_or]

/-- What one pass removes with the key `"\b"`. -/
theorem not_atEdge_iff (text : List UInt8) (hnext : (text ++ 0 :: rest).head? = some next) :
    atEdge c next backspace = false ↔ (c = backspace ↔ text.head? = some backspace) := by
  have hhead : next = backspace ↔ text.head? = some backspace := by
    cases text with
    | nil =>
        obtain rfl : 0 = next := Option.some_inj.mp hnext
        decide
    | cons d text =>
        obtain rfl : d = next := Option.some_inj.mp hnext
        exact Option.some_inj.symm
  rw [atEdge, decide_eq_false_iff_not, ← hhead]
  tauto

/-- The loop has copied `kept`, and has zeros for the rest. -/
theorem copyLoop_eq {fuel lenSrc free : ℕ} {text : List UInt8} (kept : List UInt8)
    (hsrc : src.drop i = text ++ 0 :: rest) (hlen : i + text.length = lenSrc)
    (hfuel : text.length < fuel) (hfree : text.length < free) :
    copyLoop src backspaceKey lenSrc 1 fuel i kept.length (kept ++ List.replicate free 0) =
      .ok (kept ++ sweep backspace text ++
        List.replicate (free - (sweep backspace text).length) 0) := by
  induction text generalizing fuel i kept free with
  | nil =>
      obtain ⟨fuel, rfl⟩ := Nat.exists_eq_succ_of_ne_zero (Nat.ne_zero_of_lt hfuel)
      rw [List.length_nil, Nat.add_zero] at hlen
      rw [copyLoop, if_neg hlen.ge.not_gt, sweep, List.append_nil, List.length_nil, Nat.sub_zero]
  | cons c text ih =>
      obtain ⟨fuel, rfl⟩ := Nat.exists_eq_succ_of_ne_zero (Nat.ne_zero_of_lt hfuel)
      obtain ⟨free, rfl⟩ := Nat.exists_eq_succ_of_ne_zero (Nat.ne_zero_of_lt hfree)
      rw [List.length_cons] at hlen hfuel hfree
      obtain ⟨hload, hrest⟩ := loadChar_of_drop hsrc
      obtain ⟨next, after, hnext⟩ : ∃ next after, text ++ 0 :: rest = next :: after := by
        cases text with
        | nil => exact ⟨_, _, rfl⟩
        | cons d text => exact ⟨_, _, rfl⟩
      have hloadNext := (loadChar_of_drop (hrest.trans hnext)).1
      have hfound : keyLoop src backspaceKey 1 i (1 + 1) 0 false =
          .ok (false || [backspace].any (atEdge c next)) :=
        keyLoop_eq hload hloadNext rfl rfl (by decide)
      rw [Bool.false_or, List.any_cons, List.any_nil, Bool.or_false] at hfound
      have hedge := @not_atEdge_iff rest c next text (by rw [hnext]; rfl)
      rw [copyLoop, if_pos (by omega), hfound, ok_bind, sweep]
      by_cases hkeep : c = backspace ↔ text.head? = some backspace
      · have hlength : (kept ++ [c]).length = kept.length + 1 := List.length_append
        rw [if_neg (by rw [hedge.mpr hkeep]; exact Bool.false_ne_true), hload, ok_bind,
          List.replicate_succ, storeChar_append rfl, ok_bind, List.append_cons, ← hlength,
          ih _ hrest (by omega) (by omega) (by omega), if_pos hkeep, List.length_cons,
          Nat.succ_sub_succ, List.append_assoc kept, List.singleton_append]
      · have hgone : atEdge c next backspace = true :=
          Bool.of_not_eq_false fun h => hkeep (hedge.mp h)
        rw [if_pos hgone, ih _ hrest (by omega) (by omega) (by omega), if_neg hkeep]

/-- What a pass over a string leaves: the terminator stands wherever no character does. -/
def swept (chars : List UInt8) : List UInt8 :=
  sweep backspace chars ++ List.replicate (chars.length + 1 - (sweep backspace chars).length) 0

theorem rmChars_eq {lib : Libc P} {process process' : P} {object : Object} (rest : List UInt8)
    (htext : 0 ∉ chars)
    (hmalloc : lib.malloc process (chars.length + 1) = .ok (some object, process'))
    (hsize : object.bytes.length = chars.length + 1) :
    rmChars lib process (chars ++ 0 :: rest) backspaceKey =
      .ok (some { object with bytes := swept chars }, process') := by
  have hchar : 0 ∉ [backspace] := by decide
  have hkey : strlen backspaceKey = .ok 1 := strlen_eq [] hchar
  have hcopy : copyLoop (chars ++ 0 :: rest) backspaceKey chars.length 1 (chars.length + 1) 0 0
      (List.replicate (chars.length + 1) 0) = .ok (swept chars) :=
    copyLoop_eq [] List.drop_zero (Nat.zero_add _) (Nat.lt_succ_self chars.length)
      (Nat.lt_succ_self chars.length)
  rw [rmChars, strlen_eq rest htext, ok_bind, hkey, ok_bind, hmalloc, ok_bind]
  simp only [memset_of_length 0 hsize, ok_bind, hcopy, pure_eq_ok]

/-- The object that a pass leaves holds the string with its terminator. -/
theorem swept_eq (chars : List UInt8) :
    ∃ rest, swept chars = sweep backspace chars ++ 0 :: rest := by
  have hsublist : (sweep backspace chars).Sublist chars := sweep_sublist chars
  have hle := hsublist.length_le
  refine ⟨List.replicate (chars.length - (sweep backspace chars).length) 0, ?_⟩
  rw [swept, Nat.succ_sub hle, List.replicate_succ]

theorem notMem_sweep (htext : 0 ∉ chars) : 0 ∉ sweep backspace chars :=
  fun hmem => htext ((sweep_sublist chars).subset hmem)

/-! ## Repeated passes -/

/-- `rm_chars` is applied again and again, until there is no backspace in the string. -/
def repeatLoop (lib : Libc P) : ℕ → P → List UInt8 → Except Fault (List UInt8 × P)
  | 0, _, _ => .error .diverges
  | fuel + 1, process, s =>
      if backspace ∈ stringAt s 0 then do
        match ← rmChars lib process s backspaceKey with
        | (none, _) => throw .outOfBounds
        | (some dest, process) => repeatLoop lib fuel process dest.bytes
      else .ok (s, process)

theorem repeatLoop_eq {lib : Libc P} (hlib : lib.Serves) {fuel : ℕ} (process : P)
    (rest : List UInt8) (htext : 0 ∉ chars) (hfuel : chars.count backspace < fuel) :
    ∃ object process', repeatLoop lib fuel process (chars ++ 0 :: rest) = .ok (object, process') ∧
      stringAt object 0 = edited backspace chars := by
  induction fuel generalizing process chars rest with
  | zero => exact absurd hfuel (Nat.not_lt_zero _)
  | succ fuel ih =>
      have hstring : stringAt (chars ++ 0 :: rest) 0 = chars := stringAt_eq List.drop_zero htext
      by_cases hmem : backspace ∈ chars
      · obtain ⟨object, process', hmalloc, hsize⟩ := hlib process (chars.length + 1)
        obtain ⟨rest', hswept⟩ := swept_eq chars
        have hless : (sweep backspace chars).count backspace < fuel :=
          (count_sweep_lt hmem).trans_le (Nat.le_of_lt_succ hfuel)
        obtain ⟨last, process'', hlast, hedited⟩ := ih process' rest' (notMem_sweep htext) hless
        refine ⟨last, process'', ?_, hedited.trans (edited_sweep chars)⟩
        rw [repeatLoop, hstring, if_pos hmem, rmChars_eq rest htext hmalloc hsize, ok_bind]
        simpa only [hswept] using hlast
      · refine ⟨_, _, by rw [repeatLoop, hstring, if_neg hmem], ?_⟩
        rw [hstring, edited_of_notMem hmem]

/-- Each pass of `rm_chars` leaves fewer backspaces, as long as there are any, and repeated passes
come to an end, with the string that the backspaces leave when each takes back the character
before it. -/
theorem rmChars_edits {lib : Libc P} (hlib : lib.Serves) (process : P) (chars : List UInt8)
    (htext : 0 ∉ chars) :
    (∀ process text, 0 ∉ text → backspace ∈ text → ∃ dest process',
      rmChars lib process (text ++ [0]) backspaceKey = .ok (some dest, process') ∧
        (stringAt dest.bytes 0).count backspace < text.count backspace) ∧
      ∀ fuel, chars.count backspace < fuel → ∃ object process',
        repeatLoop lib fuel process (chars ++ [0]) = .ok (object, process') ∧
          backspace ∉ stringAt object 0 ∧ stringAt object 0 = edited backspace chars := by
  constructor
  · intro process text htext hmem
    obtain ⟨object, process', hmalloc, hsize⟩ := hlib process (text.length + 1)
    obtain ⟨rest, hswept⟩ := swept_eq text
    refine ⟨_, process', rmChars_eq [] htext hmalloc hsize, ?_⟩
    rw [stringAt_eq (List.drop_zero.trans hswept) (notMem_sweep htext)]
    exact count_sweep_lt hmem
  · intro fuel hfuel
    obtain ⟨object, process', hrepeat, hedited⟩ := repeatLoop_eq hlib process [] htext hfuel
    refine ⟨object, process', hrepeat, ?_, hedited⟩
    rw [hedited]
    exact notMem_edited chars

/-- The string `ab\b\bc`. -/
theorem rmChars_edits_abc :
    (∀ process text, 0 ∉ text → backspace ∈ text → ∃ dest process',
      rmChars bump process (text ++ [0]) backspaceKey = .ok (some dest, process') ∧
        (stringAt dest.bytes 0).count backspace < text.count backspace) ∧
      ∀ fuel, ([97, 98, 8, 8, 99] : List UInt8).count backspace < fuel → ∃ object process',
        repeatLoop bump fuel 0 ([97, 98, 8, 8, 99] ++ [0]) = .ok (object, process') ∧
          backspace ∉ stringAt object 0 ∧
          stringAt object 0 = edited backspace [97, 98, 8, 8, 99] :=
  rmChars_edits bump_serves 0 [97, 98, 8, 8, 99] (by decide)

/-! ## What `rm_consecutive_chars` returns -/

/-- The loop finds nothing. -/
theorem scanLoop_eq {lib : Libc P} {key : Literal} {process : P} {dest : Object} {found : Bool}
    {fuel : ℕ} {text : List UInt8} (hdest : dest.bytes = chars ++ 0 :: rest) (htext : 0 ∉ chars)
    (hrest : dest.bytes.drop i = text ++ 0 :: rest) (hlen : i + text.length = chars.length)
    (hfuel : text.length < fuel) :
    scanLoop lib key.toObject fuel process i found dest = .ok (found, dest, process) := by
  have hstrlen : strlen dest.bytes = .ok chars.length := hdest ▸ strlen_eq rest htext
  induction text generalizing fuel i with
  | nil =>
      obtain ⟨fuel, rfl⟩ := Nat.exists_eq_succ_of_ne_zero (Nat.ne_zero_of_lt hfuel)
      rw [List.length_nil, Nat.add_zero] at hlen
      rw [scanLoop, hstrlen, ok_bind, if_neg hlen.ge.not_gt]
      rfl
  | cons c text ih =>
      obtain ⟨fuel, rfl⟩ := Nat.exists_eq_succ_of_ne_zero (Nat.ne_zero_of_lt hfuel)
      rw [List.length_cons] at hlen
      obtain ⟨hload, hnext⟩ := loadChar_of_drop hrest
      rw [scanLoop, hstrlen, ok_bind, if_pos (by omega), hload, ok_bind, if_neg (key.outside c)]
      exact ih hnext (by omega) (Nat.lt_of_succ_lt_succ hfuel)

theorem rmConsecutiveChars_eq {lib : Libc P} {process process' : P} {object : Object}
    (key : Literal) (rest : List UInt8) (htext : 0 ∉ chars)
    (hmalloc : lib.malloc process (chars.length + 1) = .ok (some object, process'))
    (hsize : object.bytes.length = chars.length + 1) :
    rmConsecutiveChars lib process (chars ++ 0 :: rest) key.toObject =
      .ok ({ object with bytes := chars ++ [0] }, process') := by
  have hscan : scanLoop lib key.toObject ((chars ++ [0]).length + 1) process' 0 false
      { object with bytes := chars ++ [0] } =
        .ok (false, { object with bytes := chars ++ [0] }, process') :=
    scanLoop_eq rfl htext List.drop_zero (Nat.zero_add _) (by simp)
  rw [rmConsecutiveChars, strlen_eq rest htext, ok_bind, hmalloc, ok_bind]
  simp only [strcpy_eq rest htext hsize, ok_bind, consecutiveLoop, hscan, Bool.false_eq_true,
    if_false, pure_eq_ok]

/-- `rm_consecutive_chars` always returns a copy of the line.  So the backspaces are applied, and
the tokens have none, exactly where the line has none. -/
theorem rmConsecutiveChars_edits_iff {lib : Libc P} (hlib : lib.Serves) (process : P)
    (key : Literal) (rest : List UInt8) (htext : 0 ∉ chars) :
    (∃ dest process', rmConsecutiveChars lib process (chars ++ 0 :: rest) key.toObject =
        .ok (dest, process') ∧ stringAt dest.bytes 0 = edited backspace chars ∧
      ∀ token ∈ runs separators (stringAt dest.bytes 0), backspace ∉ token) ↔
        backspace ∉ chars := by
  obtain ⟨object, process', hmalloc, hsize⟩ := hlib process (chars.length + 1)
  have hcopy := rmConsecutiveChars_eq key rest htext hmalloc hsize
  have hstring : stringAt (chars ++ [0]) 0 = chars := stringAt_eq List.drop_zero htext
  constructor
  · rintro ⟨dest, process'', hdest, hedited, -⟩
    obtain ⟨rfl, -⟩ := Prod.mk.inj (Except.ok.inj (hcopy.symm.trans hdest))
    exact edited_eq_self_iff.mp (hedited.symm.trans hstring)
  · intro hmem
    refine ⟨_, process', hcopy, hstring.trans (edited_of_notMem hmem).symm, ?_⟩
    intro token htoken hbackspace
    rw [hstring] at htoken
    exact hmem (subset_of_mem_runs htoken hbackspace)

theorem promoted_cases (c : UInt8) : promoted c < 128 ∨ 2 ^ 32 - 128 ≤ promoted c := by
  have hlt := c.toNat_lt
  rw [promoted, charValue]
  split
  · left
    simp only [ByteMemory.wordCount]
    omega
  · right
    simp only [ByteMemory.wordCount]
    omega

theorem outside_text (c : UInt8) : promoted c ≠ 0x10000000 := by
  have := promoted_cases c
  omega

/-- The string literal at the beginning of the text segment. -/
def textLiteral : Literal := ⟨⟨0x10000000, backspaceKey⟩, outside_text⟩

/-- The line `ls`. -/
theorem rmConsecutiveChars_edits_ls :
    (∃ dest process', rmConsecutiveChars bump 0 ([108, 115] ++ 0 :: []) textLiteral.toObject =
        .ok (dest, process') ∧ stringAt dest.bytes 0 = edited backspace [108, 115] ∧
      ∀ token ∈ runs separators (stringAt dest.bytes 0), backspace ∉ token) ↔
        backspace ∉ ([108, 115] : List UInt8) :=
  rmConsecutiveChars_edits_iff bump_serves 0 textLiteral [] (by decide)

/-- The line `a\b` stays as it is, though nothing of it remains. -/
theorem rmConsecutiveChars_keeps_backspace :
    rmConsecutiveChars bump 0 [97, 8, 0] textLiteral.toObject = .ok (⟨0, [97, 8, 0]⟩, 3) ∧
      edited backspace [97, 8] = [] := by
  decide

end Rhythmos.Shell.Erasing
