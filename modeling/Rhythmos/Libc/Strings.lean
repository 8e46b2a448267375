import Rhythmos.Libc.Printf

/-!
# Comparing strings

`strcmp` and `strncmp` of `libc.c`.  Where one string is a proper prefix of the other,
`strcmp` puts the longer one first, as if the end of a string came after every character.
`strncmp` puts the shorter one first, but it takes no two strings for equal whose ends it
reaches.
-/

namespace Rhythmos.Libc.Strings

open ByteMemory Fallible Printf

/-- A string at an address. -/
structure StringAt (memory : Memory) (address : ℕ) (chars : List UInt8) : Prop where
  bytes : BytesAt memory address (chars ++ [0])
  text : 0 ∉ chars
  short : chars.length < wordCount

/-- The value of a `char`, which is signed. -/
def charValue (c : UInt8) : ℤ := if c.toNat < 128 then c.toNat else c.toNat - 256

def Ascii (chars : List UInt8) : Prop := ∀ c ∈ chars, c.toNat < 128

/-! ## The functions of `libc.c` -/

/-- The loop of `strcmp`, and what follows it. -/
def strcmpLoop (memory : Memory) (s1 s2 : ℕ) : ℕ → ℕ → Except Fault ℤ
  | 0, _ => .error .diverges
  | fuel + 1, pos =>
      let c1 := memory (s1 + pos)
      let c2 := memory (s2 + pos)
      if c1 ≠ 0 ∧ c2 ≠ 0 then
        if c1 ≠ c2 then .ok (charValue c1 - charValue c2)
        else strcmpLoop memory s1 s2 fuel (pos + 1)
      else if c1 ≠ 0 then .ok (-1)
      else if c2 ≠ 0 then .ok 1
      else .ok 0

def strcmp (memory : Memory) (s1 s2 : ℕ) : Except Fault ℤ := strcmpLoop memory s1 s2 wordCount 0

/-- The loop of `strncmp`, and what follows it. -/
def strncmpLoop (memory : Memory) (s1 s2 n : ℕ) : ℕ → ℕ → Except Fault ℤ
  | 0, _ => .error .diverges
  | fuel + 1, pos =>
      let c1 := memory (s1 + pos)
      let c2 := memory (s2 + pos)
      if pos < n ∧ c1 ≠ 0 ∧ c2 ≠ 0 then
        if c1 ≠ c2 then .ok (charValue c1 - charValue c2)
        else strncmpLoop memory s1 s2 n fuel (pos + 1)
      else if pos < n then
        if c2 ≠ 0 then .ok (-1) else .ok 1
      else .ok 0

def strncmp (memory : Memory) (s1 s2 n : ℕ) : Except Fault ℤ :=
  strncmpLoop memory s1 s2 n wordCount 0

/-! ## Results -/

/-- What `strcmp` returns for two strings. -/
def comparison : List UInt8 → List UInt8 → ℤ
  | c1 :: s1, c2 :: s2 => if c1 ≠ c2 then charValue c1 - charValue c2 else comparison s1 s2
  | _ :: _, [] => -1
  | [], _ :: _ => 1
  | [], [] => 0

/-- What `strncmp` returns for two strings. -/
def truncatedComparison : ℕ → List UInt8 → List UInt8 → ℤ
  | 0, _, _ => 0
  | n + 1, c1 :: s1, c2 :: s2 =>
      if c1 ≠ c2 then charValue c1 - charValue c2 else truncatedComparison n s1 s2
  | _ + 1, _, [] => 1
  | _ + 1, [], _ :: _ => -1

variable {memory : Memory} {s1 s2 : ℕ} {left right : List UInt8}

theorem strcmpLoop_eq {fuel pos : ℕ} (hleft : BytesAt memory (s1 + pos) (left ++ [0]))
    (hright : BytesAt memory (s2 + pos) (right ++ [0])) (hleftText : 0 ∉ left)
    (hrightText : 0 ∉ right) (hfuel : left.length < fuel) :
    strcmpLoop memory s1 s2 fuel pos = .ok (comparison left right) := by
  induction left generalizing right fuel pos with
  | nil =>
      obtain ⟨fuel, rfl⟩ := Nat.exists_eq_succ_of_ne_zero (Nat.ne_zero_of_lt hfuel)
      have hfirst : memory (s1 + pos) = 0 := (bytesAt_cons.mp hleft).1
      cases right with
      | nil =>
          have hsecond : memory (s2 + pos) = 0 := (bytesAt_cons.mp hright).1
          simp [strcmpLoop, hfirst, hsecond, comparison]
      | cons c2 right =>
          have hsecond : memory (s2 + pos) = c2 := (bytesAt_cons.mp hright).1
          have hne : c2 ≠ 0 := fun h => hrightText (h ▸ List.mem_cons_self)
          simp [strcmpLoop, hfirst, hsecond, comparison, hne]
  | cons c1 left ih =>
      obtain ⟨fuel, rfl⟩ := Nat.exists_eq_succ_of_ne_zero (Nat.ne_zero_of_lt hfuel)
      obtain ⟨hfirst, hleft⟩ := bytesAt_cons.mp hleft
      have hne1 : c1 ≠ 0 := fun h => hleftText (h ▸ List.mem_cons_self)
      cases right with
      | nil =>
          have hsecond : memory (s2 + pos) = 0 := (bytesAt_cons.mp hright).1
          simp [strcmpLoop, hfirst, hsecond, comparison, hne1]
      | cons c2 right =>
          obtain ⟨hsecond, hright⟩ := bytesAt_cons.mp hright
          have hne2 : c2 ≠ 0 := fun h => hrightText (h ▸ List.mem_cons_self)
          rw [List.length_cons] at hfuel
          have hrest : strcmpLoop memory s1 s2 fuel (pos + 1) = .ok (comparison left right) :=
            ih hleft hright (fun h => hleftText (List.mem_cons_of_mem _ h))
              (fun h => hrightText (List.mem_cons_of_mem _ h)) (by omega)
          by_cases hsame : c1 = c2
          · simp [strcmpLoop, hfirst, hsecond, hne2, hsame, hrest, comparison]
          · simp [strcmpLoop, hfirst, hsecond, hne1, hne2, hsame, comparison]

theorem strcmp_eq (hleft : StringAt memory s1 left) (hright : StringAt memory s2 right) :
    strcmp memory s1 s2 = .ok (comparison left right) :=
  strcmpLoop_eq hleft.bytes hright.bytes hleft.text hright.text hleft.short

theorem strncmpLoop_eq {fuel pos n : ℕ} (hleft : BytesAt memory (s1 + pos) (left ++ [0]))
    (hright : BytesAt memory (s2 + pos) (right ++ [0])) (hleftText : 0 ∉ left)
    (hrightText : 0 ∉ right) (hfuel : left.length < fuel) :
    strncmpLoop memory s1 s2 n fuel pos = .ok (truncatedComparison (n - pos) left right) := by
  induction left generalizing right fuel pos with
  | nil =>
      obtain ⟨fuel, rfl⟩ := Nat.exists_eq_succ_of_ne_zero (Nat.ne_zero_of_lt hfuel)
      have hfirst : memory (s1 + pos) = 0 := (bytesAt_cons.mp hleft).1
      by_cases hpos : pos < n
      · obtain ⟨k, hk⟩ : ∃ k, n - pos = k + 1 := ⟨n - pos - 1, by omega⟩
        cases right with
        | nil =>
            have hsecond : memory (s2 + pos) = 0 := (bytesAt_cons.mp hright).1
            simp [strncmpLoop, hfirst, hsecond, hpos, hk, truncatedComparison]
        | cons c2 right =>
            have hsecond : memory (s2 + pos) = c2 := (bytesAt_cons.mp hright).1
            have hne : c2 ≠ 0 := fun h => hrightText (h ▸ List.mem_cons_self)
            simp [strncmpLoop, hfirst, hsecond, hpos, hk, truncatedComparison, hne]
      · have hk : n - pos = 0 := by omega
        simp [strncmpLoop, hpos, hk, truncatedComparison]
  | cons c1 left ih =>
      obtain ⟨fuel, rfl⟩ := Nat.exists_eq_succ_of_ne_zero (Nat.ne_zero_of_lt hfuel)
      obtain ⟨hfirst, hleft⟩ := bytesAt_cons.mp hleft
      have hne1 : c1 ≠ 0 := fun h => hleftText (h ▸ List.mem_cons_self)
      by_cases hpos : pos < n
      · obtain ⟨k, hk⟩ : ∃ k, n - pos = k + 1 := ⟨n - pos - 1, by omega⟩
        cases right with
        | nil =>
            have hsecond : memory (s2 + pos) = 0 := (bytesAt_cons.mp hright).1
            simp [strncmpLoop, hfirst, hsecond, hpos, hk, truncatedComparison]
        | cons c2 right =>
            obtain ⟨hsecond, hright⟩ := bytesAt_cons.mp hright
            have hne2 : c2 ≠ 0 := fun h => hrightText (h ▸ List.mem_cons_self)
            rw [List.length_cons] at hfuel
            have hnext : n - (pos + 1) = k := by omega
            have hrest : strncmpLoop memory s1 s2 n fuel (pos + 1) =
                .ok (truncatedComparison k left right) := by
              rw [← hnext]
              exact ih hleft hright (fun h => hleftText (List.mem_cons_of_mem _ h))
                (fun h => hrightText (List.mem_cons_of_mem _ h)) (by omega)
            by_cases hsame : c1 = c2
            · simp [strncmpLoop, hfirst, hsecond, hne2, hpos, hsame, hrest, hk,
                truncatedComparison]
            · simp [strncmpLoop, hfirst, hsecond, hne1, hne2, hpos, hsame, hk,
                truncatedComparison]
      · have hk : n - pos = 0 := by omega
        simp [strncmpLoop, hpos, hk, truncatedComparison]

theorem strncmp_eq (hleft : StringAt memory s1 left) (hright : StringAt memory s2 right) (n : ℕ) :
    strncmp memory s1 s2 n = .ok (truncatedComparison n left right) :=
  strncmpLoop_eq hleft.bytes hright.bytes hleft.text hright.text hleft.short

/-! ## The order of strings -/

/-- The sign of a result is that of the lexicographic comparison. -/
structure Orders (result : ℤ) (left right : List UInt8) : Prop where
  less : result < 0 ↔ left < right
  equal : result = 0 ↔ left = right
  greater : 0 < result ↔ right < left

theorem charValue_ascii {c : UInt8} (hc : c.toNat < 128) : charValue c = c.toNat := if_pos hc

variable {c1 c2 : UInt8}

theorem ascii_cons : Ascii (c1 :: left) ↔ c1.toNat < 128 ∧ Ascii left := List.forall_mem_cons

/-- Strings that differ in their first characters. -/
theorem orders_of_ne (hc1 : c1.toNat < 128) (hc2 : c2.toNat < 128) (hne : c1 ≠ c2) :
    Orders (charValue c1 - charValue c2) (c1 :: left) (c2 :: right) := by
  have hne' : c1.toNat ≠ c2.toNat := fun h => hne (UInt8.toNat_inj.mp h)
  rw [charValue_ascii hc1, charValue_ascii hc2]
  constructor
  · rw [List.cons_lt_cons_iff, UInt8.lt_iff_toNat_lt]
    simp only [hne, false_and, or_false]
    omega
  · simp only [List.cons.injEq, hne, false_and, iff_false]
    omega
  · rw [List.cons_lt_cons_iff, UInt8.lt_iff_toNat_lt]
    simp only [Ne.symm hne, false_and, or_false]
    omega

/-- A common first character does not matter. -/
theorem orders_cons_iff {result : ℤ} (c : UInt8) :
    Orders result (c :: left) (c :: right) ↔ Orders result left right := by
  constructor
  · rintro ⟨hless, hequal, hgreater⟩
    refine ⟨?_, ?_, ?_⟩
    · simpa [List.cons_lt_cons_iff] using hless
    · simpa using hequal
    · simpa [List.cons_lt_cons_iff] using hgreater
  · rintro ⟨hless, hequal, hgreater⟩
    refine ⟨?_, ?_, ?_⟩
    · simpa [List.cons_lt_cons_iff] using hless
    · simpa using hequal
    · simpa [List.cons_lt_cons_iff] using hgreater

theorem orders_nil : Orders 0 [] [] := ⟨by simp, by simp, by simp⟩

theorem comparison_orders_iff (hleft : Ascii left) (hright : Ascii right) :
    Orders (comparison left right) left right ↔
      (left <+: right ∨ right <+: left → left = right) := by
  induction left generalizing right with
  | nil =>
      cases right with
      | nil => exact iff_of_true orders_nil fun _ => rfl
      | cons c2 right =>
          refine iff_of_false (fun horders => ?_) (fun hsame => ?_)
          · exact absurd (horders.less.mpr (List.nil_lt_cons _ _)) (by simp [comparison])
          · cases hsame (.inl List.nil_prefix)
  | cons c1 left ih =>
      rw [ascii_cons] at hleft
      cases right with
      | nil =>
          refine iff_of_false (fun horders => ?_) (fun hsame => ?_)
          · exact absurd (horders.greater.mpr (List.nil_lt_cons _ _)) (by simp [comparison])
          · cases hsame (.inr List.nil_prefix)
      | cons c2 right =>
          rw [ascii_cons] at hright
          by_cases hsame : c1 = c2
          · subst hsame
            rw [comparison, if_neg (not_not.mpr rfl), orders_cons_iff, ih hleft.2 hright.2]
            simp [List.cons_prefix_cons]
          · rw [comparison, if_pos hsame]
            refine iff_of_true (orders_of_ne hleft.1 hright.1 hsame) ?_
            simp [List.cons_prefix_cons, hsame, Ne.symm hsame]

/-- A string with its end, which `strcmp` takes for a character above all others. -/
def closed (chars : List UInt8) : List ℕ := chars.map UInt8.toNat ++ [128]

theorem comparison_neg_iff (hleft : Ascii left) (hright : Ascii right) :
    comparison left right < 0 ↔ closed left < closed right := by
  induction left generalizing right with
  | nil =>
      cases right with
      | nil => simp [comparison]
      | cons c2 right =>
          have hc2 := (ascii_cons.mp hright).1
          simp [comparison, closed, List.cons_lt_cons_iff]
          omega
  | cons c1 left ih =>
      rw [ascii_cons] at hleft
      cases right with
      | nil =>
          have hc1 := hleft.1
          simp [comparison, closed, List.cons_lt_cons_iff, hc1]
      | cons c2 right =>
          rw [ascii_cons] at hright
          have hclosed : ∀ c chars, closed (c :: chars) = c.toNat :: closed chars := fun _ _ => rfl
          rw [hclosed, hclosed, List.cons_lt_cons_iff, comparison]
          by_cases hsame : c1 = c2
          · subst hsame
            rw [if_neg (not_not.mpr rfl), ih hleft.2 hright.2]
            simp
          · have hne' : c1.toNat ≠ c2.toNat := fun h => hsame (UInt8.toNat_inj.mp h)
            rw [if_pos hsame, charValue_ascii hleft.1, charValue_ascii hright.1]
            simp only [hne', false_and, or_false]
            omega

theorem comparison_swap (left right : List UInt8) :
    comparison right left = -comparison left right := by
  induction left generalizing right with
  | nil => cases right <;> simp [comparison]
  | cons c1 left ih =>
      cases right with
      | nil => simp [comparison]
      | cons c2 right =>
          by_cases hsame : c1 = c2
          · simp [comparison, hsame, ih]
          · simp [comparison, hsame, Ne.symm hsame]

theorem comparison_trans {middle : List UInt8} (hleft : Ascii left) (hmiddle : Ascii middle)
    (hright : Ascii right) (hfirst : comparison left middle < 0)
    (hsecond : comparison middle right < 0) : comparison left right < 0 := by
  rw [comparison_neg_iff hleft hmiddle] at hfirst
  rw [comparison_neg_iff hmiddle hright] at hsecond
  rw [comparison_neg_iff hleft hright]
  exact hfirst.trans hsecond

theorem comparison_eq_zero_iff (hleft : Ascii left) (hright : Ascii right) :
    comparison left right = 0 ↔ left = right := by
  constructor
  · intro hzero
    have hswap := comparison_swap left right
    have hbelow : ¬ closed left < closed right := by
      rw [← comparison_neg_iff hleft hright]
      omega
    have habove : ¬ closed right < closed left := by
      rw [← comparison_neg_iff hright hleft]
      omega
    have hclosed : closed left = closed right :=
      le_antisymm (not_lt.mp habove) (not_lt.mp hbelow)
    have hmap := List.append_cancel_right hclosed
    exact List.map_injective_iff.mpr (fun _ _ => UInt8.toNat_inj.mp) hmap
  · rintro rfl
    have hswap := comparison_swap left left
    omega

/-- `strcmp` has the sign of the lexicographic comparison unless one string is a proper prefix
of the other, and it orders all strings in any case. -/
theorem strcmp_orders_iff (hleft : StringAt memory s1 left) (hright : StringAt memory s2 right)
    (hleftAscii : Ascii left) (hrightAscii : Ascii right) :
    ∃ result back, strcmp memory s1 s2 = .ok result ∧ strcmp memory s2 s1 = .ok back ∧
      (Orders result left right ↔ (left <+: right ∨ right <+: left → left = right)) ∧
      (result = 0 ↔ left = right) ∧ back = -result ∧
      ∀ (s3 : ℕ) (last : List UInt8), StringAt memory s3 last → Ascii last →
        ∃ next both, strcmp memory s2 s3 = .ok next ∧ strcmp memory s1 s3 = .ok both ∧
          (result < 0 → next < 0 → both < 0) := by
  refine ⟨_, _, strcmp_eq hleft hright, strcmp_eq hright hleft,
    comparison_orders_iff hleftAscii hrightAscii, comparison_eq_zero_iff hleftAscii hrightAscii,
    comparison_swap left right, ?_⟩
  intro s3 last hlast hlastAscii
  exact ⟨_, _, strcmp_eq hright hlast, strcmp_eq hleft hlast,
    comparison_trans hleftAscii hrightAscii hlastAscii⟩

/-- The strings `ab` and `ac`, one behind the other. -/
theorem strcmp_orders_ab : ∃ result,
    strcmp (ofList [97, 98, 0, 97, 99, 0]) 0 3 = .ok result ∧
      (Orders result [97, 98] [97, 99] ↔
        ([97, 98] <+: ([97, 99] : List UInt8) ∨ [97, 99] <+: ([97, 98] : List UInt8) →
          [97, 98] = ([97, 99] : List UInt8))) := by
  obtain ⟨result, -, hresult, -, horders, -⟩ :=
    @strcmp_orders_iff (ofList [97, 98, 0, 97, 99, 0]) 0 3 [97, 98] [97, 99]
      ⟨(bytesAt_append.mp (bytesAt_ofList ([97, 98, 0] ++ [97, 99, 0]))).1, by decide, by decide⟩
      ⟨(bytesAt_append.mp (bytesAt_ofList ([97, 98, 0] ++ [97, 99, 0]))).2, by decide, by decide⟩
      (by simp [Ascii]) (by simp [Ascii])
  exact ⟨result, hresult, horders⟩

/-- The string `a` precedes `ab`, but `strcmp` returns a positive number. -/
theorem strcmp_prefix : strcmp (ofList [97, 0, 97, 98, 0]) 0 2 = .ok 1 ∧
    ([97] : List UInt8) < [97, 98] := by
  decide

theorem truncatedComparison_orders_iff {n : ℕ} (hleft : Ascii left) (hright : Ascii right) :
    Orders (truncatedComparison n left right) (left.take n) (right.take n) ↔
      ¬ (left = right ∧ left.length < n) := by
  induction n generalizing left right with
  | zero => exact iff_of_true orders_nil (by simp)
  | succ n ih =>
      cases left with
      | nil =>
          cases right with
          | nil =>
              refine iff_of_false (fun horders => ?_) (by simp)
              exact absurd (horders.equal.mpr rfl) (by simp [truncatedComparison])
          | cons c2 right =>
              refine iff_of_true ⟨?_, ?_, ?_⟩ (by simp)
              · simp [truncatedComparison]
              · simp [truncatedComparison]
              · simp [truncatedComparison]
      | cons c1 left =>
          rw [ascii_cons] at hleft
          cases right with
          | nil =>
              refine iff_of_true ⟨?_, ?_, ?_⟩ (by simp)
              · simp [truncatedComparison]
              · simp [truncatedComparison]
              · simp [truncatedComparison]
          | cons c2 right =>
              rw [ascii_cons] at hright
              rw [List.take_succ_cons, List.take_succ_cons, truncatedComparison]
              by_cases hsame : c1 = c2
              · subst hsame
                rw [if_neg (not_not.mpr rfl), orders_cons_iff, ih hleft.2 hright.2]
                simp
              · rw [if_pos hsame]
                exact iff_of_true (orders_of_ne hleft.1 hright.1 hsame) (by simp [hsame])

/-- `strncmp` has the sign of the comparison of the first `n` characters unless the strings are
equal and end before that. -/
theorem strncmp_orders_iff (hleft : StringAt memory s1 left) (hright : StringAt memory s2 right)
    (hleftAscii : Ascii left) (hrightAscii : Ascii right) (n : ℕ) :
    ∃ result, strncmp memory s1 s2 n = .ok result ∧
      (Orders result (left.take n) (right.take n) ↔ ¬ (left = right ∧ left.length < n)) :=
  ⟨_, strncmp_eq hleft hright n, truncatedComparison_orders_iff hleftAscii hrightAscii⟩

/-- The first two characters of `ab` and `ac`. -/
theorem strncmp_orders_ab : ∃ result,
    strncmp (ofList [97, 98, 0, 97, 99, 0]) 0 3 2 = .ok result ∧
      (Orders result ([97, 98].take 2) ([97, 99].take 2) ↔
        ¬ ([97, 98] = ([97, 99] : List UInt8) ∧ [97, 98].length < 2)) :=
  strncmp_orders_iff
    ⟨(bytesAt_append.mp (bytesAt_ofList ([97, 98, 0] ++ [97, 99, 0]))).1, by decide, by decide⟩
    ⟨(bytesAt_append.mp (bytesAt_ofList ([97, 98, 0] ++ [97, 99, 0]))).2, by decide, by decide⟩
    (by simp [Ascii]) (by simp [Ascii]) 2

/-- Both strings are `a`, but `strncmp` with `n = 2` returns a positive number. -/
theorem strncmp_end : strncmp (ofList [97, 0, 97, 0]) 0 2 2 = .ok 1 ∧
    ¬ Orders 1 (([97] : List UInt8).take 2) ([97].take 2) :=
  ⟨by decide, fun horders => absurd (horders.equal.mpr rfl) (by decide)⟩

end Rhythmos.Libc.Strings
