import Rhythmos.Library.ByteMemory
import Rhythmos.Library.ClippedWrites
import Rhythmos.Library.Fallible

/-!
# Formatted output

`vsnprintf` of `libc.c` and the functions below it.  The buffer is an object of its own:
the format, the arguments and the strings they point to lie outside it and are only read,
so they are given as what stands there.  Every write is checked against the buffer.

Whatever prints a number, a string or spaces is `addchars` for the characters that it
prints, and these are clipped by the buffer.
-/

namespace Rhythmos.Libc

open ByteMemory ClippedWrites Fallible

namespace Printf

inductive Fault where
  /-- a write outside the buffer -/
  | outOfBounds
  /-- a loop that does not find the end of a string -/
  | diverges
  deriving DecidableEq, Repr

/-- What `vsnprintf` reads: the characters from `format` on, the words from `ap` on, and the
memory that holds the strings. -/
structure Source where
  format : ℕ → UInt8
  args : ℕ → BitVec 32
  memory : Memory

/-- The buffer `str`, the index `pos` of the next character, and the number of argument words
that were read. -/
structure Printer where
  str : ℕ → UInt8
  pos : ℕ
  ap : ℕ

/-- Back to the position and the arguments of `start`. -/
def Printer.rewind (p start : Printer) : Printer := { p with pos := start.pos, ap := start.ap }

/-! ## The functions of `libc.c` -/

def ascii (c : Char) : UInt8 := UInt8.ofNat c.toNat

/-- The assignment `str[index] = c`. -/
def store (size : ℕ) (p : Printer) (index : ℕ) (c : UInt8) : Except Fault Printer :=
  if index < size then .ok { p with str := Function.update p.str index c }
  else .error .outOfBounds

/-- The macro `addchar`. -/
def addchar (size : ℕ) (p : Printer) (c : UInt8) : Except Fault Printer := do
  let p ← if (p.pos + 1) % wordCount < size then store size p p.pos c else .ok p
  return { p with pos := (p.pos + 1) % wordCount }

def hexdigits : List Char :=
  ['0', '1', '2', '3', '4', '5', '6', '7', '8', '9', 'a', 'b', 'c', 'd', 'e', 'f']

/-- `hexdigits[index]` -/
def hexdigit (index : ℕ) : UInt8 := ascii (hexdigits.getD index '0')

/-- The loop that computes `mult`. -/
def multLoop (base : ℕ) : ℕ → ℕ → ℕ → Except Fault ℕ
  | 0, _, _ => .error .diverges
  | fuel + 1, x, mult =>
      if base ≤ x then multLoop base fuel (x / base) (mult * base % wordCount) else .ok mult

/-- The loop over all digits but the last. -/
def digitLoop (size val base : ℕ) : ℕ → ℕ → ℕ → Printer → Except Fault Printer
  | 0, _, _, _ => .error .diverges
  | fuel + 1, x, mult, p =>
      if base ≤ x then do
        let p ← addchar size p (hexdigit (val / mult % base))
        digitLoop size val base fuel (x / base) (mult / base) p
      else .ok p

/-- `print_num`.  A value of 32 bits has at most 32 digits. -/
def printNum (size : ℕ) (p : Printer) (val base : ℕ) : Except Fault Printer := do
  let mult ← multLoop base 32 val 1
  let p ← digitLoop size val base 32 val mult p
  addchar size p (hexdigit (val % base))

/-- The loop of the conversion `s`. -/
def stringLoop (memory : Memory) (size : ℕ) : ℕ → ℕ → Printer → Except Fault Printer
  | 0, _, _ => .error .diverges
  | fuel + 1, s, p =>
      if memory s = 0 then .ok p
      else do
        let p ← addchar size p (memory s)
        stringLoop memory size fuel (s + 1) p

/-- `print_field` -/
def printField (src : Source) (size : ℕ) (p : Printer) (c : UInt8) : Except Fault Printer :=
  let val := src.args p.ap
  let next := { p with ap := p.ap + 1 }
  if c = ascii 's' then stringLoop src.memory size wordCount val.toNat next
  else if c = ascii 'c' then addchar size next (UInt8.ofNat val.toNat)
  else if c = ascii 'd' then
    if val.toInt < 0 then do
      let p ← addchar size next (ascii '-')
      printNum size p (-val).toNat 10
    else printNum size next val.toNat 10
  else if c = ascii 'u' then printNum size next val.toNat 10
  else if c = ascii 'p' then do
    let p ← addchar size next (ascii '0')
    let p ← addchar size p (ascii 'x')
    printNum size p val.toNat 16
  else if c = ascii 'x' then printNum size next val.toNat 16
  else addchar size p (ascii '%')

def IsDigit (c : UInt8) : Prop := ascii '0' ≤ c ∧ c ≤ ascii '9'

instance (c : UInt8) : Decidable (IsDigit c) := inferInstanceAs (Decidable (_ ∧ _))

/-- The loop that reads the width.  It returns the index behind it. -/
def widthLoop (format : ℕ → UInt8) : ℕ → ℕ → BitVec 32 → Except Fault (ℕ × BitVec 32)
  | 0, _, _ => .error .diverges
  | fuel + 1, c, pad =>
      if IsDigit (format c) then
        widthLoop format fuel (c + 1) (pad * 10 + BitVec.ofNat 32 (format c).toNat - 48)
      else .ok (c, pad)

/-- The loop that prints spaces. -/
def spaceLoop (size : ℕ) : ℕ → Printer → Except Fault Printer
  | 0, p => .ok p
  | pad + 1, p => do
      let p ← addchar size p (ascii ' ')
      spaceLoop size pad p

/-- The branch for `'%'`, from the character after it on.  It returns the index of the
conversion character. -/
def directive (src : Source) (size c : ℕ) (start : Printer) : Except Fault (ℕ × Printer) := do
  let rightAligned := src.format c ≠ ascii '-'
  let c := if rightAligned then c else c + 1
  let (c, pad) ← widthLoop src.format wordCount c 0
  let p ← printField src size start (src.format c)
  let pad := pad - (BitVec.ofNat 32 p.pos - BitVec.ofNat 32 start.pos)
  if rightAligned then
    let p := p.rewind start
    let p ← spaceLoop size pad.toInt.toNat p
    let p ← printField src size p (src.format c)
    return (c, p)
  else
    let p ← spaceLoop size pad.toInt.toNat p
    return (c, p)

/-- The loop over the format. -/
def formatLoop (src : Source) (size : ℕ) : ℕ → ℕ → Printer → Except Fault Printer
  | 0, _, _ => .error .diverges
  | fuel + 1, c, p =>
      if src.format c = 0 then .ok p
      else if src.format c = ascii '%' then do
        let (c, p) ← directive src size (c + 1) p
        formatLoop src size fuel (c + 1) p
      else do
        let p ← addchar size p (src.format c)
        formatLoop src size fuel (c + 1) p

/-- The end of `vsnprintf`. -/
def terminate (size : ℕ) (p : Printer) : Except Fault Printer :=
  if 0 < size then
    if (p.pos + 1) % wordCount < size then store size p p.pos 0
    else store size p (size - 1) 0
  else .ok p

/-- `vsnprintf`: the buffer afterwards and the result. -/
def vsnprintf (str : ℕ → UInt8) (size : ℕ) (src : Source) :
    Except Fault ((ℕ → UInt8) × ℕ) := do
  let p ← formatLoop src size wordCount 0 ⟨str, 0, 0⟩
  let p ← terminate size p
  return (p.str, p.pos)

/-! ## Printing characters -/

namespace Printer

/-- The characters were printed into the buffer. -/
def print (size : ℕ) (p : Printer) (chars : List UInt8) : Printer :=
  { p with str := clip (size - 1) p.pos chars p.str, pos := p.pos + chars.length }

@[simp]
theorem print_nil (size : ℕ) (p : Printer) : p.print size [] = p := by
  simp [print]

theorem print_append (size : ℕ) (p : Printer) (chars more : List UInt8) :
    (p.print size chars).print size more = p.print size (chars ++ more) := by
  simp only [print, clip_append, List.length_append, Nat.add_assoc]

@[simp]
theorem pos_print (size : ℕ) (p : Printer) (chars : List UInt8) :
    (p.print size chars).pos = p.pos + chars.length := rfl

@[simp]
theorem ap_print (size : ℕ) (p : Printer) (chars : List UInt8) :
    (p.print size chars).ap = p.ap := rfl

/-- Arguments were read. -/
def advance (p : Printer) (count : ℕ) : Printer := { p with ap := p.ap + count }

@[simp]
theorem pos_advance (p : Printer) (count : ℕ) : (p.advance count).pos = p.pos := rfl

theorem print_advance (size : ℕ) (p : Printer) (chars : List UInt8) (count : ℕ) :
    (p.advance count).print size chars = (p.print size chars).advance count := rfl

/-- Printing again from the same position covers what was printed. -/
theorem print_rewind {size : ℕ} {p : Printer} {chars more : List UInt8} (count : ℕ)
    (hlength : chars.length ≤ more.length) :
    (((p.print size chars).advance count).rewind p).print size more = p.print size more := by
  simp only [print, advance, rewind, clip_cover hlength]

end Printer

open Printer

/-- Print the characters of a list. -/
def addchars (size : ℕ) : List UInt8 → Printer → Except Fault Printer
  | [], p => .ok p
  | c :: chars, p => do
      let p ← addchar size p c
      addchars size chars p

variable {size : ℕ} {p p' : Printer} {chars : List UInt8}

theorem addchars_append (chars more : List UInt8) : ∀ p : Printer,
    addchars size (chars ++ more) p = (do
      let p ← addchars size chars p
      addchars size more p) := by
  induction chars with
  | nil =>
      intro p
      rfl
  | cons c chars ih =>
      intro p
      rw [List.cons_append, addchars, addchars]
      cases addchar size p c with
      | error fault => rfl
      | ok p => exact ih p

theorem addchars_singleton (c : UInt8) (p : Printer) :
    addchars size [c] p = addchar size p c := by
  rw [addchars]
  cases addchar size p c <;> rfl

theorem addchar_eq (c : UInt8) (hpos : p.pos + 1 < wordCount) :
    addchar size p c = .ok (p.print size [c]) := by
  have hmod : (p.pos + 1) % wordCount = p.pos + 1 := Nat.mod_eq_of_lt hpos
  simp only [addchar, hmod, print, clip_singleton]
  by_cases hfits : p.pos + 1 < size
  · have hlimit : p.pos < size - 1 := by omega
    have hinside : p.pos < size := by omega
    rw [if_pos hfits, if_pos hlimit, store, if_pos hinside, ok_bind, pure_eq_ok]
    simp only [hmod, List.length_singleton]
  · have hlimit : ¬ p.pos < size - 1 := by omega
    rw [if_neg hfits, if_neg hlimit, ok_bind, pure_eq_ok, hmod]
    rfl

theorem addchars_eq (chars : List UInt8) : ∀ {p : Printer}, p.pos + chars.length < wordCount →
    addchars size chars p = .ok (p.print size chars) := by
  induction chars with
  | nil =>
      intro p _
      rw [addchars, print_nil]
  | cons c chars ih =>
      intro p hpos
      rw [List.length_cons] at hpos
      rw [addchars, addchar_eq _ (by omega), ok_bind,
        ih (by rw [pos_print, List.length_singleton]; omega), print_append]
      rfl

/-- `pos` counts the characters, and only characters change. -/
theorem pos_addchar {c : UInt8} (hprinted : addchar size p c = .ok p') :
    p'.pos = (p.pos + 1) % wordCount ∧ p'.ap = p.ap := by
  rw [addchar] at hprinted
  split at hprinted
  · rw [store] at hprinted
    split at hprinted
    · obtain rfl := Except.ok.inj hprinted
      exact ⟨rfl, rfl⟩
    · cases hprinted
  · obtain rfl := Except.ok.inj hprinted
    exact ⟨rfl, rfl⟩

theorem pos_addchars (chars : List UInt8) : ∀ {p : Printer}, p.pos < wordCount →
    addchars size chars p = .ok p' →
    p'.pos = (p.pos + chars.length) % wordCount ∧ p'.ap = p.ap := by
  induction chars with
  | nil =>
      intro p hpos hprinted
      obtain rfl := Except.ok.inj hprinted
      exact ⟨(Nat.mod_eq_of_lt hpos).symm, rfl⟩
  | cons c chars ih =>
      intro p hpos hprinted
      rw [addchars, bind_eq_ok] at hprinted
      obtain ⟨q, hq, hrest⟩ := hprinted
      obtain ⟨hqpos, hqap⟩ := pos_addchar hq
      obtain ⟨hp', hap⟩ := ih (hqpos ▸ Nat.mod_lt _ (by decide)) hrest
      rw [hp', hap, hqpos, hqap, Nat.mod_add_mod, List.length_cons, Nat.add_assoc,
        Nat.add_comm 1]
      exact ⟨rfl, rfl⟩

/-- A buffer is never left through `pos` running over: the write at the last position before
that is out of bounds. -/
theorem addchars_fits (hsize : 0 < size) (hword : size < wordCount) (chars : List UInt8) :
    ∀ {p : Printer}, p.pos < wordCount → addchars size chars p = .ok p' →
      p.pos + chars.length < wordCount := by
  induction chars with
  | nil =>
      intro p hpos _
      exact hpos
  | cons c chars ih =>
      intro p hpos hprinted
      rw [addchars, bind_eq_ok] at hprinted
      obtain ⟨q, hq, hrest⟩ := hprinted
      have hnext : p.pos + 1 < wordCount := by
        by_contra hlast
        have hend : p.pos + 1 = wordCount := le_antisymm hpos (Nat.le_of_not_lt hlast)
        have houtside : ¬ p.pos < size := by omega
        rw [addchar, hend, Nat.mod_self, if_pos hsize, store, if_neg houtside] at hq
        cases hq
      rw [addchar_eq _ hnext] at hq
      obtain rfl := Except.ok.inj hq
      have hfits := ih (by rw [pos_print, List.length_singleton]; exact hnext) hrest
      rw [pos_print, List.length_singleton] at hfits
      rw [List.length_cons]
      omega

theorem addchar_advance (c : UInt8) (p : Printer) (count : ℕ) :
    addchar size (p.advance count) c = (addchar size p c).map fun p => p.advance count := by
  rw [addchar, addchar]
  by_cases hfits : (p.pos + 1) % wordCount < size
  · by_cases hinside : p.pos < size
    · simp only [pos_advance, hfits, if_true, store, hinside]
      rfl
    · simp only [pos_advance, hfits, if_true, store, hinside, if_false]
      rfl
  · simp only [pos_advance, hfits, if_false]
    rfl

theorem addchars_advance (chars : List UInt8) (count : ℕ) : ∀ p : Printer,
    addchars size chars (p.advance count) =
      (addchars size chars p).map fun p => p.advance count := by
  induction chars with
  | nil =>
      intro p
      rfl
  | cons c chars ih =>
      intro p
      rw [addchars, addchars, addchar_advance]
      cases addchar size p c with
      | error fault => rfl
      | ok p => exact ih p

theorem spaceLoop_eq (count : ℕ) : ∀ p : Printer,
    spaceLoop size count p = addchars size (List.replicate count (ascii ' ')) p := by
  induction count with
  | zero =>
      intro p
      rfl
  | succ count ih =>
      intro p
      simp only [spaceLoop, ih, List.replicate_succ, addchars]

/-! ## Numbers -/

/-- The usual notation of a number. -/
def numeral (base n : ℕ) : List UInt8 := (Nat.toDigits base n).map ascii

theorem hexdigit_eq {d : ℕ} (hd : d < 16) : hexdigit d = ascii (Nat.digitChar d) := by
  interval_cases d <;> rfl

theorem multLoop_eq {base : ℕ} (hbase : 1 < base) (fuel : ℕ) : ∀ {x mult : ℕ}, x < base ^ fuel →
    mult * x < wordCount → 0 < fuel →
    multLoop base fuel x mult = .ok (mult * base ^ Nat.log base x) := by
  induction fuel with
  | zero =>
      intro x mult _ _ hfuel
      exact absurd hfuel (lt_irrefl 0)
  | succ fuel ih =>
      intro x mult hx hmult _
      rw [multLoop]
      split
      next hle =>
        have hdiv : mult * base * (x / base) ≤ mult * x := by
          rw [Nat.mul_assoc]
          exact Nat.mul_le_mul_left mult (Nat.mul_div_le x base)
        have hpos : 0 < x / base := Nat.div_pos hle (by omega)
        have hmod : mult * base % wordCount = mult * base := by
          apply Nat.mod_eq_of_lt
          calc mult * base ≤ mult * base * (x / base) := Nat.le_mul_of_pos_right _ hpos
            _ < wordCount := hdiv.trans_lt hmult
        have hfuel : 0 < fuel := by
          by_contra hzero
          obtain rfl : fuel = 0 := by omega
          rw [zero_add, pow_one] at hx
          omega
        have hsmall : x / base < base ^ fuel := by
          rw [Nat.div_lt_iff_lt_mul (by omega), ← pow_succ]
          exact hx
        have hlog : Nat.log base x = Nat.log base (x / base) + 1 := by
          have hlog := Nat.log_pos hbase hle
          rw [Nat.log_div_base]
          omega
        rw [hmod, ih hsmall (hdiv.trans_lt hmult) hfuel, hlog, pow_succ, Nat.mul_assoc,
          Nat.mul_comm base]
      next hlt =>
        rw [Nat.log_of_lt (by omega), pow_zero, Nat.mul_one]

/-- The digits of `val` at the positions `count` down to 1. -/
def leading (val base : ℕ) : ℕ → List UInt8
  | 0 => []
  | count + 1 => hexdigit (val / base ^ (count + 1) % base) :: leading val base count

/-- Dropping the last digit of a number. -/
theorem leading_succ (val base count : ℕ) : leading val base (count + 1) =
    leading (val / base) base count ++ [hexdigit (val / base % base)] := by
  induction count with
  | zero => simp [leading]
  | succ count ih =>
      rw [leading, ih, leading, List.cons_append, Nat.div_div_eq_div_mul, ← pow_succ']

theorem numeral_eq {base : ℕ} (hbase : 1 < base) (hhex : base ≤ 16) (val : ℕ) :
    leading val base (Nat.log base val) ++ [hexdigit (val % base)] = numeral base val := by
  induction val using Nat.strong_induction_on with
  | _ val ih =>
      have hdigit : hexdigit (val % base) = ascii (Nat.digitChar (val % base)) :=
        hexdigit_eq ((Nat.mod_lt _ (by omega)).trans_le hhex)
      rw [numeral, Nat.toDigits_eq_if hbase]
      split
      next hlt =>
        rw [Nat.log_of_lt hlt, leading, hdigit, Nat.mod_eq_of_lt hlt]
        rfl
      next hle =>
        have hle' : base ≤ val := by omega
        have hlog : Nat.log base val = Nat.log base (val / base) + 1 := by
          have hlog := Nat.log_pos hbase hle'
          rw [Nat.log_div_base]
          omega
        rw [hlog, leading_succ, ih (val / base) (Nat.div_lt_self (by omega) hbase), hdigit,
          List.map_append]
        rfl

theorem digitLoop_eq {val base : ℕ} (hbase : 1 < base) (fuel : ℕ) : ∀ {x count : ℕ} (p : Printer),
    Nat.log base x = count → count < fuel →
    digitLoop size val base fuel x (base ^ count) p = addchars size (leading val base count) p := by
  induction fuel with
  | zero =>
      intro x count p _ hfuel
      exact absurd hfuel (Nat.not_lt_zero _)
  | succ fuel ih =>
      intro x count p hlog hfuel
      rw [digitLoop]
      cases count with
      | zero =>
          have hlt : ¬ base ≤ x := by
            intro hle
            have := Nat.log_pos hbase hle
            omega
          rw [if_neg hlt, leading, addchars]
      | succ count =>
          have hle : base ≤ x := by
            by_contra hlt
            rw [Nat.log_of_lt (by omega)] at hlog
            exact absurd hlog (by omega)
          have hlog' : Nat.log base (x / base) = count := by
            rw [Nat.log_div_base, hlog]
            rfl
          have hmult : base ^ (count + 1) / base = base ^ count := by
            rw [pow_succ, Nat.mul_div_cancel _ (by omega)]
          rw [if_pos hle, leading, addchars, hmult]
          cases addchar size p (hexdigit (val / base ^ (count + 1) % base)) with
          | error fault => rfl
          | ok p => exact ih p hlog' (by omega)

/-- A number is printed in the usual notation. -/
theorem printNum_eq {val base : ℕ} (hbase : 1 < base) (hhex : base ≤ 16) (hval : val < wordCount)
    (p : Printer) : printNum size p val base = addchars size (numeral base val) p := by
  have hfuel : val < base ^ 32 :=
    calc val < 2 ^ 32 := hval
      _ ≤ base ^ 32 := Nat.pow_le_pow_left hbase 32
  have hlog : Nat.log base val < 32 := by
    by_cases hzero : val = 0
    · rw [hzero, Nat.log_zero_right]
      omega
    · exact (Nat.log_lt_iff_lt_pow hbase hzero).mpr hfuel
  rw [printNum, multLoop_eq hbase 32 hfuel (by rw [Nat.one_mul]; exact hval) (by omega), ok_bind,
    Nat.one_mul, digitLoop_eq hbase 32 p rfl hlog, ← numeral_eq hbase hhex, addchars_append]
  simp only [addchars_singleton]

/-! ## Strings -/

theorem stringLoop_eq {memory : Memory} (chars : List UInt8) : ∀ {fuel s : ℕ} (p : Printer),
    BytesAt memory s (chars ++ [0]) → 0 ∉ chars → chars.length < fuel →
    stringLoop memory size fuel s p = addchars size chars p := by
  induction chars with
  | nil =>
      intro fuel s p hbytes _ hfuel
      obtain ⟨fuel, rfl⟩ := Nat.exists_eq_succ_of_ne_zero (Nat.ne_zero_of_lt hfuel)
      have hend : memory s = 0 := (bytesAt_cons.mp hbytes).1
      rw [stringLoop, if_pos hend, addchars]
  | cons c chars ih =>
      intro fuel s p hbytes hnonzero hfuel
      obtain ⟨fuel, rfl⟩ := Nat.exists_eq_succ_of_ne_zero (Nat.ne_zero_of_lt hfuel)
      rw [List.length_cons] at hfuel
      rw [List.mem_cons, not_or] at hnonzero
      obtain ⟨hc, hrest⟩ := bytesAt_cons.mp hbytes
      rw [stringLoop, hc, if_neg (Ne.symm hnonzero.1), addchars]
      cases addchar size p c with
      | error fault => rfl
      | ok p => exact ih p hrest hnonzero.2 (by omega)

/-! ## The end -/

theorem terminate_eq (hpos : p.pos + 1 < wordCount) :
    terminate size p = .ok
      { p with str := clip size (min p.pos (size - 1)) [0] p.str } := by
  rw [terminate, Nat.mod_eq_of_lt hpos, clip_singleton]
  by_cases hsize : 0 < size
  · rw [if_pos hsize]
    by_cases hfits : p.pos + 1 < size
    · have hmin : min p.pos (size - 1) = p.pos := by omega
      have hinside : p.pos < size := by omega
      rw [if_pos hfits, hmin, if_pos hinside, store, if_pos hinside]
    · have hmin : min p.pos (size - 1) = size - 1 := by omega
      have hinside : size - 1 < size := by omega
      rw [if_neg hfits, hmin, if_pos hinside, store, if_pos hinside]
  · rw [if_neg hsize, if_neg (by omega)]

end Printf

end Rhythmos.Libc
