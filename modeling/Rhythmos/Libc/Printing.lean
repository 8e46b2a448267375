import Rhythmos.Libc.FormatStrings
import Rhythmos.Libc.Memmove

/-!
# Printing from a local buffer

`printf` and `kprintf` of `libc.c` hand over as many bytes of a local buffer as `vsnprintf`
returns.  That is the length of the full output, so where the output does not fit, the NUL at
the end of the buffer is handed over, and what stands behind the buffer.
-/

namespace Rhythmos.Libc.Printf

open ByteMemory ClippedWrites Fallible Printer

/-- The bytes that `printf` hands to `write`; `none` is a failed assertion. -/
def printf (inUserMode : Bool) (buf : Memory) (src : Source) :
    Except Fault (Option (List UInt8)) := do
  if !inUserMode then return none
  else
    let (buf, len) ← vsnprintf buf 4096 src
    return some (loadBytes buf 0 len)

/-- The bytes that `kprintf` hands to `write_to_screen`; `none` is a failed assertion. -/
def kprintf (inUserMode : Bool) (buf : Memory) (src : Source) :
    Except Fault (Option (List UInt8)) := do
  if inUserMode then return none
  else
    let (buf, len) ← vsnprintf buf 4096 src
    return some (loadBytes buf 0 len)

/-- The bytes are formatted text from the part of the buffer that was written. -/
structure Emits (out bytes : List UInt8) : Prop where
  text : bytes <+: out
  written : bytes.length ≤ min (out.length + 1) 4096

variable {src : Source} {size : ℕ} {p p' : Printer} {items : List Item} {args : List Arg}
  {out : List UInt8}

/-- The loop over a format ends behind the output, or behind what an `int` can count. -/
theorem formatLoop_long (hsize : 0 < size) (hword : size < wordCount) (items : List Item) :
    ∀ {args : List Arg} {out : List UInt8} {fuel c : ℕ} {p : Printer},
      output items args = some out → Narrow items → BytesAt src.format c (text items ++ [0]) →
      Supplies src p.ap args → p.pos < wordCount → (text items).length < wordCount →
      (text items).length < fuel → formatLoop src size fuel c p = .ok p' →
      min (p.pos + out.length) (2 ^ 31) ≤ p'.pos := by
  induction items with
  | nil =>
      intro args out fuel c p hout _ hbytes _ _ _ hfuel hloop
      obtain ⟨fuel, rfl⟩ := Nat.exists_eq_succ_of_ne_zero (Nat.ne_zero_of_lt hfuel)
      obtain rfl : [] = out := Option.some_injective _ hout
      have hend : src.format c = 0 := (bytesAt_cons.mp hbytes).1
      rw [formatLoop, if_pos hend] at hloop
      obtain rfl := Except.ok.inj hloop
      exact min_le_left _ _
  | cons item items ih =>
      intro args out fuel c p hout hnarrow hbytes hargs hpos hlength hfuel hloop
      obtain ⟨fuel, rfl⟩ := Nat.exists_eq_succ_of_ne_zero (Nat.ne_zero_of_lt hfuel)
      have hnarrow' : Narrow items := fun d hd => hnarrow d (List.mem_cons_of_mem _ hd)
      cases item with
      | literal char =>
          obtain ⟨more, hmore, rfl⟩ : ∃ more, output items args = some more ∧
              char.val :: more = out := by
            simpa [output, Option.bind_eq_some_iff] using hout
          obtain ⟨hfits, hrest, hloop⟩ := literal_turn hsize hword hpos hbytes hloop
          rw [text, List.length_cons] at hlength hfuel
          have hend := ih hmore hnarrow' hrest hargs (p := p.print size [char.val]) hfits
            (by omega) (by omega) hloop
          rw [pos_print, List.length_singleton] at hend
          rw [List.length_cons]
          omega
      | directive d =>
          obtain ⟨chars, rest, hfield, more, hmore, rfl⟩ : ∃ chars rest,
              field d.conversion args = some (chars, rest) ∧ ∃ more,
                output items rest = some more ∧ d.pad chars ++ more = out := by
            simpa [output, Option.bind_eq_some_iff] using hout
          obtain ⟨hfits, hrest, hloop⟩ :=
            directive_turn hsize hword hpos hbytes hlength hloop hfield hargs
          obtain ⟨-, hargs'⟩ := @printField_eq size p src _ _ _ _ hfield hargs
          rw [text, List.length_cons, List.length_append, List.length_cons] at hlength hfuel
          have hend := ih hmore hnarrow' hrest hargs' hfits (by omega) (by omega) hloop
          rw [pos_advance, pos_print, Directive.length_padBy] at hend
          rw [List.length_append, Directive.pad, Directive.length_padBy]
          -- the padding is exact unless the field alone is too long
          by_cases hshort : chars.length < 2 ^ 31
          · rw [Directive.spaces_eq (hnarrow d List.mem_cons_self) hshort] at hend
            omega
          · omega

theorem pos_terminate (hterminated : terminate size p = .ok p') : p'.pos = p.pos := by
  rw [terminate] at hterminated
  split at hterminated
  · split at hterminated
    · rw [store] at hterminated
      split at hterminated
      · obtain rfl := Except.ok.inj hterminated
        rfl
      · cases hterminated
    · rw [store] at hterminated
      split at hterminated
      · obtain rfl := Except.ok.inj hterminated
        rfl
      · cases hterminated
  · obtain rfl := Except.ok.inj hterminated
    rfl

/-- `vsnprintf` returns the length of the output, or more than an `int` can hold. -/
theorem vsnprintf_long {str str' : ℕ → UInt8} {length : ℕ} (hsize : 0 < size)
    (hword : size < wordCount) (hnarrow : Narrow items) (hout : output items args = some out)
    (hformat : BytesAt src.format 0 (text items ++ [0])) (hlength : (text items).length < wordCount)
    (hargs : Supplies src 0 args) (hprinted : vsnprintf str size src = .ok (str', length)) :
    min out.length (2 ^ 31) ≤ length := by
  rw [vsnprintf, bind_eq_ok] at hprinted
  obtain ⟨p, hloop, hprinted⟩ := hprinted
  rw [bind_eq_ok] at hprinted
  obtain ⟨q, hterminated, hprinted⟩ := hprinted
  obtain ⟨-, rfl⟩ := Prod.mk.inj (Except.ok.inj hprinted)
  rw [pos_terminate hterminated]
  have hlong := @formatLoop_long src size p hsize hword items args out wordCount 0 ⟨str, 0, 0⟩ hout
    hnarrow hformat hargs (show 0 < wordCount by decide) hlength hlength hloop
  rw [Nat.zero_add] at hlong
  exact hlong

/-- What is handed over is formatted text where the output fits with its NUL, and where the NUL
that takes the place of the last character is that character. -/
theorem emits_iff (hnarrow : Narrow items) (hout : output items args = some out)
    (hformat : BytesAt src.format 0 (text items ++ [0])) (hlength : (text items).length < wordCount)
    (hargs : Supplies src 0 args) (buf : Memory) :
    (∃ buf' len, vsnprintf buf 4096 src = .ok (buf', len) ∧ Emits out (loadBytes buf' 0 len)) ↔
      out.length < 4096 ∨ out.length = 4096 ∧ out.getLast? = some 0 := by
  by_cases hshort : out.length ≤ 4096
  · obtain ⟨buf', hprinted, -, hbytes⟩ :=
      vsnprintf_truncates hnarrow hout hformat hlength hargs (by omega) buf 4096
    have hload := loadBytes_bytesAt (hbytes (by decide))
    by_cases hfits : out.length < 4096
    · have hloadOut : loadBytes buf' 0 out.length = out := by
        rw [List.take_of_length_le (by omega)] at hbytes
        exact loadBytes_bytesAt (bytesAt_append.mp (hbytes (by decide))).1
      refine iff_of_true ⟨buf', out.length, hprinted, ?_⟩ (.inl hfits)
      rw [hloadOut]
      exact ⟨List.prefix_rfl, by omega⟩
    · have hfull : out.length = 4096 := by omega
      obtain ⟨front, last, rfl⟩ := out.eq_nil_or_concat'.resolve_left (by
        rintro rfl
        cases hfull)
      have hfront : (front ++ [last]).take (4096 - 1) = front := by
        rw [List.length_append, List.length_singleton] at hfull
        exact List.take_left' (by omega)
      have hloadOut : loadBytes buf' 0 (front ++ [last]).length = front ++ [0] := by
        rw [hfront] at hload
        rw [List.length_append, List.length_singleton] at hload ⊢
        exact hload
      rw [or_iff_right hfits, and_iff_right hfull, List.getLast?_concat, Option.some.injEq]
      constructor
      · rintro ⟨buf'', len, hprinted', hemits⟩
        obtain ⟨rfl, rfl⟩ := Prod.mk.inj (Except.ok.inj (hprinted.symm.trans hprinted'))
        have hsame := hemits.text.eq_of_length (length_loadBytes _ _ _)
        rw [hloadOut] at hsame
        exact (List.append_singleton_inj.mp hsame).2.symm
      · rintro rfl
        refine ⟨buf', _, hprinted, ?_⟩
        rw [hloadOut]
        exact ⟨List.prefix_rfl, by omega⟩
  · refine iff_of_false ?_ (by omega)
    rintro ⟨buf', len, hprinted, hemits⟩
    have hlong := vsnprintf_long (by decide) (by decide) hnarrow hout hformat hlength hargs hprinted
    have hwritten := hemits.written
    rw [length_loadBytes] at hwritten
    omega

theorem printf_eq_ok_iff {buf : Memory} {bytes : List UInt8} :
    printf true buf src = .ok (some bytes) ↔
      ∃ buf' len, vsnprintf buf 4096 src = .ok (buf', len) ∧ bytes = loadBytes buf' 0 len := by
  rw [printf]
  cases vsnprintf buf 4096 src with
  | error fault => simp
  | ok result =>
      obtain ⟨buf', len⟩ := result
      simp [eq_comm]

/-- `printf` and `kprintf` hand over formatted text only where the output is shorter than the
buffer, or as long and ends in a NUL. -/
theorem printf_emits_iff (hnarrow : Narrow items) (hout : output items args = some out)
    (hformat : BytesAt src.format 0 (text items ++ [0])) (hlength : (text items).length < wordCount)
    (hargs : Supplies src 0 args) (buf : Memory) :
    ((∃ bytes, printf true buf src = .ok (some bytes) ∧ Emits out bytes) ↔
      out.length < 4096 ∨ out.length = 4096 ∧ out.getLast? = some 0) ∧
    ((∃ bytes, kprintf false buf src = .ok (some bytes) ∧ Emits out bytes) ↔
      out.length < 4096 ∨ out.length = 4096 ∧ out.getLast? = some 0) ∧
    printf false buf src = .ok none ∧ kprintf true buf src = .ok none := by
  have hkernel : kprintf false buf src = printf true buf src := rfl
  have huser : (∃ bytes, printf true buf src = .ok (some bytes) ∧ Emits out bytes) ↔
      out.length < 4096 ∨ out.length = 4096 ∧ out.getLast? = some 0 := by
    rw [← emits_iff hnarrow hout hformat hlength hargs buf]
    constructor
    · rintro ⟨bytes, hprinted, hbytes⟩
      obtain ⟨buf', len, hresult, rfl⟩ := printf_eq_ok_iff.mp hprinted
      exact ⟨buf', len, hresult, hbytes⟩
    · rintro ⟨buf', len, hresult, hbytes⟩
      exact ⟨_, printf_eq_ok_iff.mpr ⟨buf', len, hresult, rfl⟩, hbytes⟩
  rw [hkernel]
  exact ⟨huser, huser, rfl, rfl⟩

/-- The number -7 for the format `"%4d."`. -/
def tickSource : Source := ⟨ofList (text tickItems ++ [0]), fun _ => -7, fun _ => 0⟩

def tickOutput : List UInt8 := [0x20, 0x20, 0x2D, 0x37, 0x2E]

theorem printf_emits_tick :
    ((∃ bytes, printf true (fun _ => 1) tickSource = .ok (some bytes) ∧ Emits tickOutput bytes) ↔
      tickOutput.length < 4096 ∨ tickOutput.length = 4096 ∧ tickOutput.getLast? = some 0) ∧
    ((∃ bytes, kprintf false (fun _ => 1) tickSource = .ok (some bytes) ∧ Emits tickOutput bytes) ↔
      tickOutput.length < 4096 ∨ tickOutput.length = 4096 ∧ tickOutput.getLast? = some 0) ∧
    printf false (fun _ => 1) tickSource = .ok none ∧
    kprintf true (fun _ => 1) tickSource = .ok none := by
  have hout : output tickItems [.int (-7)] = some tickOutput := by decide
  have hargs : Supplies tickSource 0 [.int (-7)] :=
    ⟨show (-7 : BitVec 32).toInt = (-7 : ℤ) by decide, trivial⟩
  exact printf_emits_iff narrow_tickItems hout (bytesAt_ofList _) (by decide) hargs _

/-- The directive `%5000d`. -/
def wide : Directive := ⟨false, [5, 0, 0, 0], ascii 'd', not_isDigit_d, fun _ _ => d_ne_flag⟩

/-- The number 7 in the format `"%5000d"`: what is handed over is not formatted text. -/
theorem printf_overruns : ¬ ∃ bytes,
    printf true (fun _ => 0) ⟨ofList (text [.directive wide] ++ [0]), fun _ => 7, fun _ => 0⟩ =
      .ok (some bytes) ∧ Emits (wide.pad (signed 7)) bytes := by
  have hwidth : wide.width = 5000 := by decide
  have hlength : (wide.pad (signed 7)).length = 5000 := by
    have hdigits : (signed 7).length = 1 := by decide
    rw [Directive.pad, Directive.length_padBy, hwidth, hdigits]
  have hnarrow : Narrow [.directive wide] := by
    intro d hd
    obtain rfl : d = wide := by simpa using hd
    omega
  have hout : output [.directive wide] [.int 7] = some (wide.pad (signed 7)) := by
    have hfield : field wide.conversion [.int 7] = some (signed 7, []) := rfl
    rw [output, hfield]
    exact congrArg some (List.append_nil _)
  have hargs : Supplies ⟨ofList (text [.directive wide] ++ [0]), fun _ => 7, fun _ => 0⟩ 0
      [.int 7] := ⟨show (7 : BitVec 32).toInt = (7 : ℤ) by decide, trivial⟩
  rintro ⟨bytes, hprinted, hbytes⟩
  obtain ⟨buf', len, hresult, rfl⟩ := printf_eq_ok_iff.mp hprinted
  have hfits := (emits_iff hnarrow hout (bytesAt_ofList _) (by decide) hargs _).mp
    ⟨buf', len, hresult, hbytes⟩
  omega

end Rhythmos.Libc.Printf
