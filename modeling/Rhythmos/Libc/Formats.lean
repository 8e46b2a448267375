import Rhythmos.Libc.Printf

/-!
# Formats

A format is the text of a list of items, each of them a literal character or a complete
directive.  For a matching argument list, what a field prints is a list of characters, and
`output` is the concatenation of what the items print.  A right-aligned field is printed
twice, and the second copy covers the first because it is at least as long.
-/

namespace Rhythmos.Libc.Printf

open ByteMemory ClippedWrites Fallible Printer

/-! ## Fields -/

/-- An argument of `vsnprintf`. -/
inductive Arg where
  | string (chars : List UInt8)
  | char (c : UInt8)
  | int (i : ℤ)
  | unsigned (n : ℕ)
  deriving DecidableEq, Repr

/-- The word stands for the argument. -/
def Arg.Represents (memory : Memory) (word : BitVec 32) : Arg → Prop
  | .string chars =>
      BytesAt memory word.toNat (chars ++ [0]) ∧ 0 ∉ chars ∧ chars.length < wordCount
  | .char c => UInt8.ofNat word.toNat = c
  | .int i => word.toInt = i
  | .unsigned n => word.toNat = n

/-- The words from the index `ap` on stand for the arguments. -/
def Supplies (src : Source) : ℕ → List Arg → Prop
  | _, [] => True
  | ap, arg :: args => arg.Represents src.memory (src.args ap) ∧ Supplies src (ap + 1) args

/-- The decimal notation of an integer. -/
def signed (i : ℤ) : List UInt8 :=
  if i < 0 then ascii '-' :: numeral 10 i.natAbs else numeral 10 i.natAbs

def conversions : List UInt8 :=
  [ascii 's', ascii 'c', ascii 'd', ascii 'u', ascii 'p', ascii 'x']

/-- The converted field, and the arguments that are left; there is none if the first argument
does not match.  Every other conversion character prints a `'%'`. -/
def field (c : UInt8) (args : List Arg) : Option (List UInt8 × List Arg) :=
  if c ∉ conversions then some ([ascii '%'], args)
  else
    match args with
    | .string chars :: args => if c = ascii 's' then some (chars, args) else none
    | .char b :: args => if c = ascii 'c' then some ([b], args) else none
    | .int i :: args => if c = ascii 'd' then some (signed i, args) else none
    | .unsigned n :: args =>
        if c = ascii 'u' then some (numeral 10 n, args)
        else if c = ascii 'p' then some (ascii '0' :: ascii 'x' :: numeral 16 n, args)
        else if c = ascii 'x' then some (numeral 16 n, args)
        else none
    | [] => none

variable {size : ℕ} {p : Printer} {src : Source}

theorem toNat_neg_of_toInt_neg {word : BitVec 32} (hneg : word.toInt < 0) :
    (-word).toNat = word.toInt.natAbs := by
  rw [BitVec.toInt_eq_toNat_cond] at hneg ⊢
  rw [BitVec.toNat_neg]
  have := word.isLt
  omega

theorem toNat_of_toInt_nonneg {word : BitVec 32} (hnonneg : ¬ word.toInt < 0) :
    word.toNat = word.toInt.natAbs := by
  rw [BitVec.toInt_eq_toNat_cond] at hnonneg ⊢
  have := word.isLt
  omega

/-- The decimal conversion. -/
theorem printSigned_eq (val : BitVec 32) (p : Printer) :
    (if val.toInt < 0 then do
      let p ← addchar size p (ascii '-')
      printNum size p (-val).toNat 10
    else printNum size p val.toNat 10) = addchars size (signed val.toInt) p := by
  rw [signed]
  split
  next hneg =>
    rw [← toNat_neg_of_toInt_neg hneg, addchars]
    simp only [printNum_eq (by decide : 1 < 10) (by decide) (BitVec.isLt (-val))]
  next hnonneg =>
    rw [← toNat_of_toInt_nonneg hnonneg, printNum_eq (by decide) (by decide) val.isLt]

/-- A field is printed as it is specified. -/
theorem printField_eq {c : UInt8} {args rest : List Arg} {chars : List UInt8}
    (hfield : field c args = some (chars, rest)) (hargs : Supplies src p.ap args) :
    printField src size p c = addchars size chars (p.advance (args.length - rest.length)) ∧
      Supplies src (p.ap + (args.length - rest.length)) rest := by
  by_cases hother : c ∉ conversions
  · rw [field.eq_def, if_pos hother, Option.some_inj] at hfield
    obtain ⟨rfl, rfl⟩ := Prod.mk.inj hfield
    simp only [conversions, List.mem_cons, List.not_mem_nil, or_false, not_or] at hother
    obtain ⟨hs, hc, hd, hu, hp, hx⟩ := hother
    simp only [printField, hs, hc, hd, hu, hp, hx, if_false, Nat.sub_self]
    exact ⟨(addchars_singleton _ p).symm, hargs⟩
  · cases args with
    | nil =>
        rw [field.eq_def, if_neg hother] at hfield
        cases hfield
    | cons arg args =>
        obtain ⟨harg, hargs⟩ := hargs
        have hval := (src.args p.ap).isLt
        -- every conversion reads one argument
        suffices hprint : rest = args ∧
            printField src size p c = addchars size chars (p.advance 1) by
          obtain ⟨rfl, hprint⟩ := hprint
          rw [hprint, List.length_cons, Nat.add_sub_cancel_left]
          exact ⟨rfl, hargs⟩
        rw [field.eq_def, if_neg hother] at hfield
        cases arg with
        | string text =>
            obtain ⟨hbytes, hnonzero, hlength⟩ := harg
            dsimp only at hfield
            split at hfield
            next hc =>
              obtain ⟨rfl, rfl⟩ := Prod.mk.inj (Option.some_injective _ hfield)
              rw [printField, if_pos hc]
              exact ⟨rfl, stringLoop_eq text (p.advance 1) hbytes hnonzero hlength⟩
            next => cases hfield
        | char b =>
            obtain rfl : UInt8.ofNat (src.args p.ap).toNat = b := harg
            dsimp only at hfield
            split at hfield
            next hc =>
              obtain ⟨rfl, rfl⟩ := Prod.mk.inj (Option.some_injective _ hfield)
              subst hc
              exact ⟨rfl, (addchars_singleton _ (p.advance 1)).symm⟩
            next => cases hfield
        | int i =>
            obtain rfl : (src.args p.ap).toInt = i := harg
            dsimp only at hfield
            split at hfield
            next hc =>
              obtain ⟨rfl, rfl⟩ := Prod.mk.inj (Option.some_injective _ hfield)
              subst hc
              exact ⟨rfl, printSigned_eq _ (p.advance 1)⟩
            next => cases hfield
        | unsigned n =>
            obtain rfl : (src.args p.ap).toNat = n := harg
            dsimp only at hfield
            split at hfield
            next hc =>
              obtain ⟨rfl, rfl⟩ := Prod.mk.inj (Option.some_injective _ hfield)
              subst hc
              exact ⟨rfl, printNum_eq (by decide) (by decide) hval (p.advance 1)⟩
            next =>
              split at hfield
              next hc =>
                obtain ⟨rfl, rfl⟩ := Prod.mk.inj (Option.some_injective _ hfield)
                subst hc
                refine ⟨rfl, ?_⟩
                simp only [addchars, ← printNum_eq (by decide : 1 < 16) (by decide) hval]
                rfl
              next =>
                split at hfield
                next hc =>
                  obtain ⟨rfl, rfl⟩ := Prod.mk.inj (Option.some_injective _ hfield)
                  subst hc
                  exact ⟨rfl, printNum_eq (by decide) (by decide) hval (p.advance 1)⟩
                next => cases hfield

/-! ## Directives -/

/-- A directive: an optional `'-'`, the digits of the width, and one conversion character.
Nothing stops the conversion from being the NUL at the end of a string; what stands behind
it then belongs to the format as well. -/
structure Directive where
  left : Bool
  digits : List (Fin 10)
  conversion : UInt8
  not_digit : ¬ IsDigit conversion
  no_flag : left = false → digits = [] → conversion ≠ ascii '-'

instance neZero_digit : NeZero 10 := ⟨by decide⟩

theorem not_isDigit_d : ¬ IsDigit (ascii 'd') := by decide

theorem d_ne_flag : ascii 'd' ≠ ascii '-' := by decide

namespace Directive

def width (d : Directive) : ℕ := d.digits.foldl (fun width digit => 10 * width + digit.val) 0

def digitChars (d : Directive) : List UInt8 := d.digits.map fun digit => hexdigit digit.val

/-- The characters of the flag and the width. -/
def front (d : Directive) : List UInt8 := (if d.left then [ascii '-'] else []) ++ d.digitChars

/-- The field with a number of spaces. -/
def padBy (d : Directive) (count : ℕ) (chars : List UInt8) : List UInt8 :=
  if d.left then chars ++ List.replicate count (ascii ' ')
  else List.replicate count (ascii ' ') ++ chars

/-- The field with its padding. -/
def pad (d : Directive) (chars : List UInt8) : List UInt8 := d.padBy (d.width - chars.length) chars

/-- The number of spaces as it is computed, with an `int` for the width. -/
def spaces (d : Directive) (chars : List UInt8) : ℕ :=
  (BitVec.ofNat 32 d.width - BitVec.ofNat 32 chars.length).toInt.toNat

theorem spaces_eq {d : Directive} {chars : List UInt8} (hwidth : d.width < 2 ^ 31)
    (hlength : chars.length < 2 ^ 31) : d.spaces chars = d.width - chars.length := by
  rw [spaces, BitVec.toInt_eq_toNat_cond, BitVec.toNat_sub, BitVec.toNat_ofNat,
    BitVec.toNat_ofNat]
  omega

theorem length_padBy (d : Directive) (count : ℕ) (chars : List UInt8) :
    (d.padBy count chars).length = count + chars.length := by
  rw [padBy]
  split
  · rw [List.length_append, List.length_replicate, Nat.add_comm]
  · rw [List.length_append, List.length_replicate]

end Directive

theorem isDigit_hexdigit (digit : Fin 10) : IsDigit (hexdigit digit.val) := by
  fin_cases digit <;> decide

theorem ofNat_hexdigit (digit : Fin 10) :
    BitVec.ofNat 32 (hexdigit digit.val).toNat = BitVec.ofNat 32 digit.val + 48 := by
  fin_cases digit <;> decide

/-- The width is read up to the first character that is no digit. -/
theorem widthLoop_eq {format : ℕ → UInt8} (digits : List (Fin 10)) : ∀ {fuel c width : ℕ},
    BytesAt format c (digits.map fun digit => hexdigit digit.val) →
    ¬ IsDigit (format (c + digits.length)) → digits.length < fuel →
    widthLoop format fuel c (BitVec.ofNat 32 width) = .ok (c + digits.length,
      BitVec.ofNat 32 (digits.foldl (fun width digit => 10 * width + digit.val) width)) := by
  induction digits with
  | nil =>
      intro fuel c width _ hend hfuel
      obtain ⟨fuel, rfl⟩ := Nat.exists_eq_succ_of_ne_zero (Nat.ne_zero_of_lt hfuel)
      rw [List.length_nil, Nat.add_zero] at hend
      rw [widthLoop, if_neg hend]
      rfl
  | cons digit digits ih =>
      intro fuel c width hbytes hend hfuel
      obtain ⟨fuel, rfl⟩ := Nat.exists_eq_succ_of_ne_zero (Nat.ne_zero_of_lt hfuel)
      rw [List.map_cons, bytesAt_cons] at hbytes
      obtain ⟨hc, hrest⟩ := hbytes
      rw [List.length_cons] at hend hfuel
      have hpad : BitVec.ofNat 32 width * 10 + BitVec.ofNat 32 (hexdigit digit.val).toNat - 48 =
          BitVec.ofNat 32 (10 * width + digit.val) := by
        have hten : BitVec.ofNat 32 width * 10 = BitVec.ofNat 32 (10 * width) := by
          rw [BitVec.ofNat_mul, mul_comm]
          rfl
        rw [ofNat_hexdigit, hten, BitVec.ofNat_add, ← BitVec.add_assoc, BitVec.add_sub_cancel]
      rw [widthLoop, hc, if_pos (isDigit_hexdigit digit), hpad,
        ih hrest (by rw [Nat.add_assoc, Nat.add_comm 1]; exact hend) (by omega), List.length_cons,
        List.foldl_cons, Nat.add_assoc, Nat.add_comm 1]

/-- What stands in front of a character that is neither a digit nor, without a flag and a
width, a `'-'` is read as the flag and the width. -/
theorem widthLoop_front {format : ℕ → UInt8} {c : ℕ} {left : Bool} {digits : List (Fin 10)}
    (hbytes : BytesAt format c
      ((if left then [ascii '-'] else []) ++ digits.map fun digit => hexdigit digit.val))
    (hend : ¬ IsDigit (format (c + (left.toNat + digits.length))))
    (hflag : left = false → digits = [] → format c ≠ ascii '-')
    (hdigits : digits.length < wordCount) :
    (format c ≠ ascii '-' ↔ left = false) ∧
      widthLoop format wordCount (if left = false then c else c + 1) 0 =
        .ok (c + (left.toNat + digits.length),
          BitVec.ofNat 32 (digits.foldl (fun width digit => 10 * width + digit.val) 0)) := by
  cases left with
  | true =>
      rw [if_pos rfl, List.singleton_append, bytesAt_cons] at hbytes
      rw [Bool.toNat_true, ← Nat.add_assoc] at hend ⊢
      rw [if_neg (by simp)]
      exact ⟨by simp [hbytes.1], widthLoop_eq digits hbytes.2 hend hdigits⟩
  | false =>
      rw [if_neg (by simp), List.nil_append] at hbytes
      rw [Bool.toNat_false, Nat.zero_add] at hend ⊢
      rw [if_pos rfl]
      refine ⟨iff_of_true ?_ rfl, widthLoop_eq digits hbytes hend hdigits⟩
      cases digits with
      | nil => exact hflag rfl rfl
      | cons digit digits =>
          rw [List.map_cons, bytesAt_cons] at hbytes
          intro hminus
          have hdigit := isDigit_hexdigit digit
          rw [← hbytes.1, hminus] at hdigit
          exact absurd hdigit (by decide)

theorem length_front (d : Directive) : d.front.length = d.left.toNat + d.digits.length := by
  rw [Directive.front, List.length_append, Directive.digitChars, List.length_map]
  cases d.left <;> rfl

theorem read_directive {format : ℕ → UInt8} {c : ℕ} {d : Directive} {more : List UInt8}
    (hbytes : BytesAt format c (d.front ++ d.conversion :: more))
    (hdigits : d.digits.length < wordCount) :
    (format c ≠ ascii '-' ↔ d.left = false) ∧
      widthLoop format wordCount (if d.left = false then c else c + 1) 0 =
        .ok (c + d.front.length, BitVec.ofNat 32 d.width) ∧
      format (c + d.front.length) = d.conversion := by
  obtain ⟨hfront, hrest⟩ := bytesAt_append.mp hbytes
  have hconversion := (bytesAt_cons.mp hrest).1
  have hread := widthLoop_front hfront
    (by rw [← length_front, hconversion]; exact d.not_digit) (fun hleft hnone => by
      have hempty : d.front = [] := by rw [Directive.front, Directive.digitChars, hleft, hnone]; rfl
      rw [hempty, List.length_nil, Nat.add_zero] at hconversion
      rw [hconversion]
      exact d.no_flag hleft hnone) hdigits
  rw [← length_front] at hread
  exact ⟨hread.1, hread.2, hconversion⟩

/-- The padding that is left after a field was printed. -/
theorem sub_printed (width start length : ℕ) :
    BitVec.ofNat 32 width -
      (BitVec.ofNat 32 ((start + length) % wordCount) - BitVec.ofNat 32 start) =
      BitVec.ofNat 32 width - BitVec.ofNat 32 length := by
  have hmod : BitVec.ofNat 32 ((start + length) % wordCount) =
      BitVec.ofNat 32 (start + length) := by
    apply BitVec.eq_of_toNat_eq
    simp
  rw [hmod, BitVec.ofNat_add, BitVec.add_comm, BitVec.add_sub_cancel]

/-- A left-aligned directive prints its field and then spaces, and a right-aligned one prints
its field, starts again, and prints spaces and the field. -/
theorem directive_eq {c : ℕ} {d : Directive} {more chars : List UInt8} {args rest : List Arg}
    (hbytes : BytesAt src.format c (d.front ++ d.conversion :: more))
    (hdigits : d.digits.length < wordCount) (hfield : field d.conversion args = some (chars, rest))
    (hargs : Supplies src p.ap args) (hpos : p.pos < wordCount) :
    directive src size c p = (do
      let first ← addchars size chars (p.advance (args.length - rest.length))
      let q ← (if d.left then addchars size (List.replicate (d.spaces chars) (ascii ' ')) first
        else addchars size (d.padBy (d.spaces chars) chars)
          ((first.rewind p).advance (args.length - rest.length)))
      return (c + d.front.length, q)) := by
  obtain ⟨hflag, hread, hconversion⟩ := read_directive hbytes hdigits
  obtain ⟨hprint, -⟩ := @printField_eq size p src _ _ _ _ hfield hargs
  simp only [directive, hflag, hread, ok_bind, hconversion, hprint]
  cases hfirst : addchars size chars (p.advance (args.length - rest.length)) with
  | error fault => rfl
  | ok first =>
      have hspaces : (BitVec.ofNat 32 d.width -
          (BitVec.ofNat 32 first.pos - BitVec.ofNat 32 p.pos)).toInt.toNat = d.spaces chars := by
        obtain ⟨hfirstPos, -⟩ :=
          pos_addchars (p := p.advance (args.length - rest.length)) chars hpos hfirst
        rw [hfirstPos, pos_advance, sub_printed, Directive.spaces]
      simp only [ok_bind, hspaces, spaceLoop_eq]
      cases hleft : d.left with
      | true => rfl
      | false =>
          rw [if_pos rfl, if_neg (by simp), Directive.padBy, hleft, if_neg (by simp),
            addchars_advance,
            addchars_append]
          cases hpad : addchars size (List.replicate (d.spaces chars) (ascii ' '))
              (first.rewind p) with
          | error fault => rfl
          | ok q =>
              obtain ⟨-, hap⟩ := pos_addchars _
                (show (first.rewind p).pos < wordCount from hpos) hpad
              obtain ⟨hagain, -⟩ := @printField_eq size q src _ _ _ _ hfield
                (by rw [hap]; exact hargs)
              rw [ok_bind, hagain, addchars_advance]
              rfl

/-- If everything fits below the end of the numbers, a directive prints its field with the
padding, whatever part of it the buffer holds. -/
theorem directive_prints {c : ℕ} {d : Directive} {more chars : List UInt8} {args rest : List Arg}
    (hbytes : BytesAt src.format c (d.front ++ d.conversion :: more))
    (hdigits : d.digits.length < wordCount) (hfield : field d.conversion args = some (chars, rest))
    (hargs : Supplies src p.ap args)
    (hpos : p.pos + (d.padBy (d.spaces chars) chars).length < wordCount) :
    directive src size c p = .ok (c + d.front.length,
      (p.print size (d.padBy (d.spaces chars) chars)).advance (args.length - rest.length)) := by
  have hlength := d.length_padBy (d.spaces chars) chars
  rw [directive_eq hbytes hdigits hfield hargs (by omega),
    addchars_eq chars (by rw [pos_advance]; omega), ok_bind]
  cases hleft : d.left with
  | true =>
      rw [if_pos rfl, addchars_eq _ (by
        rw [pos_print, pos_advance, List.length_replicate]
        omega), ok_bind, print_append, print_advance, Directive.padBy, hleft, if_pos rfl]
      rfl
  | false =>
      rw [if_neg (by simp), print_advance, addchars_advance, addchars_eq
        (p := ((p.print size chars).advance (args.length - rest.length)).rewind p) _ hpos,
        print_rewind _ (by omega)]
      rfl

/-- A directive only returns if everything fits below the end of the numbers. -/
theorem directive_fits {c : ℕ} {d : Directive} {more chars : List UInt8} {args rest : List Arg}
    {result : ℕ × Printer} (hsize : 0 < size) (hword : size < wordCount)
    (hbytes : BytesAt src.format c (d.front ++ d.conversion :: more))
    (hdigits : d.digits.length < wordCount) (hfield : field d.conversion args = some (chars, rest))
    (hargs : Supplies src p.ap args) (hpos : p.pos < wordCount)
    (hprinted : directive src size c p = .ok result) :
    p.pos + (d.padBy (d.spaces chars) chars).length < wordCount := by
  rw [directive_eq hbytes hdigits hfield hargs hpos, bind_eq_ok] at hprinted
  obtain ⟨first, hfirst, hprinted⟩ := hprinted
  rw [bind_eq_ok] at hprinted
  obtain ⟨q, hq, -⟩ := hprinted
  cases hleft : d.left with
  | true =>
      have hshort := addchars_fits hsize hword chars
        (show (p.advance (args.length - rest.length)).pos < wordCount from hpos) hfirst
      rw [addchars_eq _ hshort] at hfirst
      obtain rfl := Except.ok.inj hfirst
      rw [hleft, if_pos rfl] at hq
      have hfits := addchars_fits hsize hword _ hshort hq
      rw [pos_print, pos_advance, List.length_replicate] at hfits
      rw [Directive.length_padBy]
      omega
  | false =>
      rw [hleft, if_neg (by simp)] at hq
      exact addchars_fits (p := (first.rewind p).advance (args.length - rest.length)) hsize hword _
        hpos hq

/-! ## Formats and their output -/

/-- A literal character or a directive. -/
inductive Item where
  | literal (c : { c : UInt8 // c ≠ 0 ∧ c ≠ ascii '%' })
  | directive (d : Directive)

/-- The format that consists of the items. -/
def text : List Item → List UInt8
  | [] => []
  | .literal c :: items => c.val :: text items
  | .directive d :: items => ascii '%' :: (d.front ++ d.conversion :: text items)

/-- The widths are not too large for an `int`. -/
def Narrow (items : List Item) : Prop := ∀ d, Item.directive d ∈ items → d.width < 2 ^ 31

/-- The full output for an argument list that matches the format. -/
def output : List Item → List Arg → Option (List UInt8)
  | [], _ => some []
  | .literal c :: items, args => do
      let chars ← output items args
      return c.val :: chars
  | .directive d :: items, args => do
      let (chars, args) ← field d.conversion args
      let more ← output items args
      return d.pad chars ++ more

/-- The loop over the format prints the output of its items. -/
theorem formatLoop_eq (items : List Item) : ∀ {args : List Arg} {out : List UInt8} {c : ℕ}
    (fuel : ℕ) (p : Printer), output items args = some out → Narrow items →
    BytesAt src.format c (text items ++ [0]) → Supplies src p.ap args →
    p.pos + out.length < 2 ^ 31 → (text items).length < wordCount → (text items).length < fuel →
    ∃ ap, formatLoop src size fuel c p = .ok { p.print size out with ap := ap } := by
  have hsmall : (2 : ℕ) ^ 31 < wordCount := by norm_num [wordCount]
  induction items with
  | nil =>
      intro args out c fuel p hout _ hbytes _ _ _ hfuel
      obtain ⟨fuel, rfl⟩ := Nat.exists_eq_succ_of_ne_zero (Nat.ne_zero_of_lt hfuel)
      obtain rfl : [] = out := Option.some_injective _ hout
      have hend : src.format c = 0 := (bytesAt_cons.mp hbytes).1
      exact ⟨p.ap, by rw [formatLoop, if_pos hend, print_nil]⟩
  | cons item items ih =>
      intro args out c fuel p hout hnarrow hbytes hargs hpos hlength hfuel
      obtain ⟨fuel, rfl⟩ := Nat.exists_eq_succ_of_ne_zero (Nat.ne_zero_of_lt hfuel)
      have hnarrow' : Narrow items := fun d hd => hnarrow d (List.mem_cons_of_mem _ hd)
      cases item with
      | literal char =>
          obtain ⟨more, hmore, rfl⟩ : ∃ more, output items args = some more ∧
              char.val :: more = out := by
            simpa [output, Option.bind_eq_some_iff] using hout
          rw [text, List.cons_append, bytesAt_cons] at hbytes
          obtain ⟨hc, hrest⟩ := hbytes
          rw [text, List.length_cons] at hlength hfuel
          rw [List.length_cons] at hpos
          obtain ⟨ap, hloop⟩ := ih fuel (p.print size [char.val]) hmore hnarrow' hrest
            hargs (by rw [pos_print, List.length_singleton]; omega) (by omega) (by omega)
          refine ⟨ap, ?_⟩
          rw [formatLoop, hc, if_neg char.property.1, if_neg char.property.2,
            addchar_eq _ (by omega), ok_bind, hloop, print_append]
          rfl
      | directive d =>
          obtain ⟨chars, rest, hfield, more, hmore, rfl⟩ : ∃ chars rest,
              field d.conversion args = some (chars, rest) ∧ ∃ more,
                output items rest = some more ∧ d.pad chars ++ more = out := by
            simpa [output, Option.bind_eq_some_iff] using hout
          rw [text, List.cons_append, bytesAt_cons, List.append_assoc, List.cons_append] at hbytes
          obtain ⟨hpercent, hbytes⟩ := hbytes
          rw [text, List.length_cons, List.length_append, List.length_cons] at hlength hfuel
          rw [List.length_append, Directive.pad, Directive.length_padBy] at hpos
          have hfront := length_front d
          have hspaces : d.spaces chars = d.width - chars.length :=
            Directive.spaces_eq (hnarrow d List.mem_cons_self) (by omega)
          have hdirective := @directive_prints size p src _ _ _ _ _ _ hbytes (by omega) hfield
            hargs
            (by rw [Directive.length_padBy]; omega)
          obtain ⟨-, hargs'⟩ := @printField_eq size p src _ _ _ _ hfield hargs
          have hrest := (bytesAt_cons.mp (bytesAt_append.mp hbytes).2).2
          rw [Nat.add_assoc] at hrest
          rw [hspaces] at hdirective
          obtain ⟨ap, hloop⟩ := ih fuel
            ((p.print size (d.pad chars)).advance (args.length - rest.length)) hmore hnarrow'
            hrest hargs' (by
              rw [pos_advance, pos_print, Directive.pad, Directive.length_padBy]
              omega) (by omega) (by omega)
          refine ⟨ap, ?_⟩
          have hnull : ascii '%' ≠ 0 := by decide
          rw [formatLoop, hpercent, if_neg hnull, if_pos rfl, hdirective, ok_bind]
          dsimp only
          rw [Nat.add_assoc, ← Directive.pad, hloop, print_advance, print_append]
          rfl

/-- A printed and terminated buffer holds what fits of the output, and a NUL. -/
theorem bytesAt_clipped (out : List UInt8) (str : ℕ → UInt8) (hsize : 0 < size) :
    BytesAt (clip size (min out.length (size - 1)) [0] (clip (size - 1) 0 out str)) 0
      (out.take (size - 1) ++ [0]) := by
  have htaken : (out.take (size - 1)).length = min (size - 1) out.length := List.length_take
  rw [bytesAt_append]
  constructor
  · intro index hindex
    have hlt : index < min (size - 1) out.length := htaken ▸ hindex
    have hat : clip (size - 1) 0 out str (0 + index) = out[index] :=
      clip_at (show index < out.length by omega) (by omega)
    rw [Nat.zero_add] at hat
    rw [Nat.zero_add, clip_off (.inr (.inl (by omega))), hat]
    simp
  · rw [Nat.zero_add, htaken, min_comm (size - 1), bytesAt_cons]
    refine ⟨?_, fun index hindex => absurd hindex (Nat.not_lt_zero _)⟩
    have hat : clip size (min out.length (size - 1)) [0] (clip (size - 1) 0 out str)
        (min out.length (size - 1) + 0) = [(0 : UInt8)][0] := clip_at Nat.one_pos (by omega)
    exact hat

/-- What `vsnprintf` returns and the buffer it leaves. -/
theorem vsnprintf_eq {items : List Item} {args : List Arg} {out : List UInt8}
    (hnarrow : Narrow items) (hout : output items args = some out)
    (hformat : BytesAt src.format 0 (text items ++ [0])) (hlength : (text items).length < wordCount)
    (hargs : Supplies src 0 args) (hshort : out.length < 2 ^ 31) (str : ℕ → UInt8) (size : ℕ) :
    vsnprintf str size src = .ok
      (clip size (min out.length (size - 1)) [0] (clip (size - 1) 0 out str), out.length) := by
  have hsmall : (2 : ℕ) ^ 31 < wordCount := by norm_num [wordCount]
  obtain ⟨ap, hloop⟩ := @formatLoop_eq size src items _ _ 0 wordCount ⟨str, 0, 0⟩ hout hnarrow
    hformat hargs (by rw [Nat.zero_add]; exact hshort) hlength hlength
  have hend : (Printer.mk (clip (size - 1) 0 out str) out.length ap).pos + 1 < wordCount :=
    show out.length + 1 < wordCount by omega
  have hprinted : formatLoop src size wordCount 0 ⟨str, 0, 0⟩ =
      .ok ⟨clip (size - 1) 0 out str, out.length, ap⟩ := by
    rw [hloop, print, Nat.zero_add]
  rw [vsnprintf, hprinted, ok_bind, terminate_eq hend]
  rfl

/-- For a format of complete directives and a matching argument list, `vsnprintf` returns the
length of the full output whatever the size is, writes nothing outside the buffer, and leaves
in the buffer what fits of the output, followed by a NUL. -/
theorem vsnprintf_truncates {items : List Item} {args : List Arg} {out : List UInt8}
    (hnarrow : Narrow items) (hout : output items args = some out)
    (hformat : BytesAt src.format 0 (text items ++ [0])) (hlength : (text items).length < wordCount)
    (hargs : Supplies src 0 args) (hshort : out.length < 2 ^ 31) (str : ℕ → UInt8) (size : ℕ) :
    ∃ str', vsnprintf str size src = .ok (str', out.length) ∧
      (∀ index, size ≤ index → str' index = str index) ∧
      (0 < size → BytesAt str' 0 (out.take (size - 1) ++ [0])) := by
  refine ⟨clip size (min out.length (size - 1)) [0] (clip (size - 1) 0 out str),
    vsnprintf_eq hnarrow hout hformat hlength hargs hshort str size, ?_, ?_⟩
  · intro index hindex
    rw [clip_off (.inl hindex), clip_off (.inl (by omega))]
  · exact bytesAt_clipped out str

/-- The format `"%4d."` -/
def tickItems : List Item :=
  [.directive ⟨false, [4], ascii 'd', not_isDigit_d, fun _ _ => d_ne_flag⟩,
    .literal ⟨ascii '.', by decide⟩]

theorem narrow_tickItems : Narrow tickItems := by
  simp [Narrow, tickItems, Directive.width]

/-- The number -7 in a buffer of five bytes: the output `"  -7."` of the format `"%4d."` loses
its last character. -/
theorem vsnprintf_truncates_tick : ∃ str',
    vsnprintf (fun _ => 1) 5
      ⟨ofList (text tickItems ++ [0]), fun _ => -7, fun _ => 0⟩ = .ok (str', 5) ∧
    (∀ index, 5 ≤ index → str' index = 1) ∧
    (0 < 5 → BytesAt str' 0 ([0x20, 0x20, 0x2D, 0x37, 0x2E].take (5 - 1) ++ [0])) := by
  have hout : output tickItems [.int (-7)] = some [0x20, 0x20, 0x2D, 0x37, 0x2E] := by decide
  have hargs : Supplies ⟨ofList (text tickItems ++ [0]), fun _ => -7, fun _ => 0⟩ 0 [.int (-7)] :=
    ⟨show (-7 : BitVec 32).toInt = (-7 : ℤ) by decide, trivial⟩
  exact vsnprintf_truncates narrow_tickItems hout (bytesAt_ofList _) (by decide) hargs (by decide)
    _ 5

end Rhythmos.Libc.Printf
