import Rhythmos.Libc.Formats
import Rhythmos.Libc.Memmove
import Rhythmos.Libc.Tokens

/-!
# Numbers and their notation

`atoi` of `libc.c` reads back what the conversion `d` prints: the digits of a number are added
up modulo `2 ^ 32` on both sides, and so is the sign of the least integer.
-/

namespace Rhythmos.Libc.Printf

open ByteMemory Fallible Printer Tokens

/-! ## The functions of `libc.c` -/

/-- The legal digits in order. -/
def legal : List UInt8 := (hexdigits.take 10).map ascii

/-- The loop that skips whitespace. -/
def blankLoop (memory : Memory) : ℕ → ℕ → Except Fault ℕ
  | 0, _ => .error .diverges
  | fuel + 1, s =>
      if memory s = ascii ' ' ∨ memory s = ascii '\t' then blankLoop memory fuel (s + 1)
      else .ok s

/-- The loop over the digits. -/
def valueLoop (memory : Memory) : ℕ → ℕ → BitVec 32 → Except Fault (BitVec 32)
  | 0, _, _ => .error .diverges
  | fuel + 1, s, val =>
      if memory s = 0 then .ok val
      else do
        match ← strchr (legal ++ [0]) 0 (memory s) with
        | none => return val
        | some digit => valueLoop memory fuel (s + 1) (val * 10 + BitVec.ofNat 32 digit)

def atoi (memory : Memory) (s : ℕ) : Except Fault (BitVec 32) := do
  let s ← blankLoop memory wordCount s
  let neg := memory s = ascii '-'
  let s := if neg then s + 1 else if memory s = ascii '+' then s + 1 else s
  let val ← valueLoop memory wordCount s 0
  return if neg then -val else val

/-- The products that the first loop of `printNum` computes for `mult`, before they are cut to
a word. -/
def products (base : ℕ) : ℕ → ℕ → ℕ → List ℕ
  | 0, _, _ => []
  | fuel + 1, x, mult =>
      if base ≤ x then mult * base :: products base fuel (x / base) (mult * base % wordCount)
      else []

/-- The values of `mult` by which the second loop of `printNum` divides. -/
def divisors (base : ℕ) : ℕ → ℕ → ℕ → List ℕ
  | 0, _, _ => []
  | fuel + 1, x, mult =>
      if base ≤ x then mult :: divisors base fuel (x / base) (mult / base) else []

/-! ## Notations -/

/-- The digits of a number without leading zeros. -/
structure Canonical (base n : ℕ) (digits : List ℕ) : Prop where
  small : ∀ d ∈ digits, d < base
  value : digits.foldl (fun n d => base * n + d) 0 = n
  nonempty : digits ≠ []
  leading : digits.head? = some 0 → digits = [0]

theorem exists_canonical {base : ℕ} (hbase : 1 < base) (hhex : base ≤ 16) (n : ℕ) :
    ∃ digits, Canonical base n digits ∧ numeral base n = digits.map hexdigit := by
  induction n using Nat.strong_induction_on with
  | _ n ih =>
      have hlast : ∀ {d}, d < base → hexdigit d = ascii (Nat.digitChar d) :=
        fun hd => hexdigit_eq (hd.trans_le hhex)
      rw [numeral, Nat.toDigits_eq_if hbase]
      split
      next hlt =>
        refine ⟨[n], ⟨by simpa using hlt, by simp, List.cons_ne_nil _ _, ?_⟩, ?_⟩
        · intro hzero
          rw [List.head?_cons, Option.some.injEq] at hzero
          rw [hzero]
        · rw [List.map_singleton, List.map_singleton, hlast hlt]
      next hle =>
        obtain ⟨digits, hdigits, hnumeral⟩ :=
          ih (n / base) (Nat.div_lt_self (by omega) hbase)
        have hmod : n % base < base := Nat.mod_lt _ (by omega)
        refine ⟨digits ++ [n % base], ⟨?_, ?_, by simp, ?_⟩, ?_⟩
        · rw [List.forall_mem_append, List.forall_mem_singleton]
          exact ⟨hdigits.small, hmod⟩
        · rw [List.foldl_append, hdigits.value]
          exact Nat.div_add_mod n base
        · intro hzero
          rw [List.head?_append_of_ne_nil _ hdigits.nonempty] at hzero
          have hvalue := hdigits.value
          rw [hdigits.leading hzero] at hvalue
          have hpos : 0 < n / base := Nat.div_pos (by omega) (by omega)
          simp only [List.foldl_cons, List.foldl_nil] at hvalue
          omega
        · rw [List.map_append, List.map_append, List.map_singleton, List.map_singleton,
            hlast hmod, ← hnumeral, numeral]

theorem products_lt {base : ℕ} (hbase : 1 < base) : ∀ {fuel x mult : ℕ}, mult * x < wordCount →
    ∀ m ∈ products base fuel x mult, m < wordCount := by
  intro fuel
  induction fuel with
  | zero =>
      intro x mult _ m hm
      cases hm
  | succ fuel ih =>
      intro x mult hmult
      rw [products]
      split
      next hle =>
        have hdiv : mult * base * (x / base) ≤ mult * x := by
          rw [Nat.mul_assoc]
          exact Nat.mul_le_mul_left mult (Nat.mul_div_le x base)
        have hpos : 0 < x / base := Nat.div_pos hle (by omega)
        have hproduct : mult * base < wordCount :=
          calc mult * base ≤ mult * base * (x / base) := Nat.le_mul_of_pos_right _ hpos
            _ < wordCount := hdiv.trans_lt hmult
        rw [List.forall_mem_cons, Nat.mod_eq_of_lt hproduct]
        exact ⟨hproduct, ih (hdiv.trans_lt hmult)⟩
      next => simp

theorem divisors_pos {base : ℕ} (hbase : 1 < base) : ∀ {fuel x : ℕ},
    ∀ m ∈ divisors base fuel x (base ^ Nat.log base x), 0 < m := by
  intro fuel
  induction fuel with
  | zero =>
      intro x m hm
      cases hm
  | succ fuel ih =>
      intro x
      rw [divisors]
      split
      next hle =>
        have hlog : Nat.log base x = Nat.log base (x / base) + 1 := by
          have hlog := Nat.log_pos hbase hle
          rw [Nat.log_div_base]
          omega
        have hdiv : base ^ Nat.log base x / base = base ^ Nat.log base (x / base) := by
          rw [hlog, pow_succ, Nat.mul_div_cancel _ (by omega)]
        rw [List.forall_mem_cons, hdiv]
        exact ⟨Nat.pow_pos (by omega), ih⟩
      next => simp

/-! ## Reading numbers -/

variable {memory : Memory} {s : ℕ} {c : UInt8}

theorem isDigit_of_mem_legal (hc : c ∈ legal) : IsDigit c := by
  fin_cases hc <;> decide

theorem notMem_legal : 0 ∉ legal := by decide

theorem strchr_digit {d : ℕ} (hd : d < 10) :
    strchr (legal ++ [0]) 0 (hexdigit d) = .ok (some d) := by
  rw [strchr_eq _ notMem_legal]
  interval_cases d <;> rfl

theorem strchr_other (hc : ¬ IsDigit c) (hnull : c ≠ 0) : strchr (legal ++ [0]) 0 c = .ok none := by
  rw [strchr_eq _ notMem_legal, Except.ok.injEq, List.findIdx?_eq_none_iff]
  intro e he
  have hne : e ≠ c := by
    rintro rfl
    rcases List.mem_append.mp he with hlegal | hend
    · exact hc (isDigit_of_mem_legal hlegal)
    · exact hnull (List.mem_singleton.mp hend)
  simpa using hne

theorem hexdigit_ne_zero {d : ℕ} (hd : d < 10) : hexdigit d ≠ 0 := by
  interval_cases d <;> decide

/-- The loop adds the digits up, and it ends at the first character that is none. -/
theorem valueLoop_eq (digits : List ℕ) : ∀ {fuel s n : ℕ}, (∀ d ∈ digits, d < 10) →
    BytesAt memory s (digits.map hexdigit ++ [c]) → ¬ IsDigit c → digits.length < fuel →
    valueLoop memory fuel s (BitVec.ofNat 32 n) =
      .ok (BitVec.ofNat 32 (digits.foldl (fun n d => 10 * n + d) n)) := by
  induction digits with
  | nil =>
      intro fuel s n _ hbytes hc hfuel
      obtain ⟨fuel, rfl⟩ := Nat.exists_eq_succ_of_ne_zero (Nat.ne_zero_of_lt hfuel)
      have hend : memory s = c := (bytesAt_cons.mp hbytes).1
      rw [valueLoop, hend]
      by_cases hnull : c = 0
      · rw [if_pos hnull]
        rfl
      · rw [if_neg hnull, strchr_other hc hnull]
        rfl
  | cons d digits ih =>
      intro fuel s n hsmall hbytes hc hfuel
      obtain ⟨fuel, rfl⟩ := Nat.exists_eq_succ_of_ne_zero (Nat.ne_zero_of_lt hfuel)
      obtain ⟨hd, hsmall⟩ := List.forall_mem_cons.mp hsmall
      rw [List.map_cons, List.cons_append, bytesAt_cons] at hbytes
      obtain ⟨hfirst, hrest⟩ := hbytes
      have hnext : BitVec.ofNat 32 n * 10 + BitVec.ofNat 32 d = BitVec.ofNat 32 (10 * n + d) := by
        have hten : BitVec.ofNat 32 n * 10 = BitVec.ofNat 32 (10 * n) := by
          rw [BitVec.ofNat_mul, mul_comm]
          rfl
        rw [hten, BitVec.ofNat_add]
      rw [valueLoop, hfirst, if_neg (hexdigit_ne_zero hd), strchr_digit hd, ok_bind]
      dsimp only
      rw [hnext, ih hsmall hrest hc (Nat.lt_of_succ_lt_succ hfuel), List.foldl_cons]

theorem blankLoop_eq (blanks : List UInt8) : ∀ {fuel s : ℕ},
    (∀ b ∈ blanks, b = ascii ' ' ∨ b = ascii '\t') → BytesAt memory s (blanks ++ [c]) →
    c ≠ ascii ' ' → c ≠ ascii '\t' → blanks.length < fuel →
    blankLoop memory fuel s = .ok (s + blanks.length) := by
  induction blanks with
  | nil =>
      intro fuel s _ hbytes hspace htab hfuel
      obtain ⟨fuel, rfl⟩ := Nat.exists_eq_succ_of_ne_zero (Nat.ne_zero_of_lt hfuel)
      have hend : memory s = c := (bytesAt_cons.mp hbytes).1
      rw [blankLoop, hend, if_neg (not_or.mpr ⟨hspace, htab⟩)]
      rfl
  | cons b blanks ih =>
      intro fuel s hblanks hbytes hspace htab hfuel
      obtain ⟨fuel, rfl⟩ := Nat.exists_eq_succ_of_ne_zero (Nat.ne_zero_of_lt hfuel)
      obtain ⟨hb, hblanks⟩ := List.forall_mem_cons.mp hblanks
      rw [List.cons_append, bytesAt_cons] at hbytes
      obtain ⟨hfirst, hrest⟩ := hbytes
      rw [blankLoop, hfirst, if_pos hb, ih hblanks hrest hspace htab (Nat.lt_of_succ_lt_succ hfuel),
        List.length_cons, Nat.add_assoc, Nat.add_comm 1]

/-- The sign in front of a number. -/
def sign (negative : Bool) : List UInt8 := if negative then [ascii '-'] else []

theorem atoi_eq {blanks : List UInt8} {negative : Bool} {n : ℕ} (hn : n < wordCount)
    (hblanks : ∀ b ∈ blanks, b = ascii ' ' ∨ b = ascii '\t') (hlength : blanks.length < wordCount)
    (hc : ¬ IsDigit c)
    (hbytes : BytesAt memory s (blanks ++ (sign negative ++ numeral 10 n) ++ [c])) :
    atoi memory s = .ok (if negative then -BitVec.ofNat 32 n else BitVec.ofNat 32 n) := by
  obtain ⟨digits, hdigits, hnumeral⟩ := exists_canonical (by decide : 1 < 10) (by decide) n
  obtain ⟨first, rest, hfirst⟩ := List.exists_cons_of_ne_nil hdigits.nonempty
  have hfuel : digits.length < wordCount := by
    have hten : (Nat.toDigits 10 n).length ≤ 10 :=
      (Nat.length_toDigits_le_iff (by decide) (by decide)).mpr (hn.trans (by decide))
    have hsame := congrArg List.length hnumeral
    rw [numeral, List.length_map, List.length_map] at hsame
    exact (hsame ▸ hten).trans_lt (by decide)
  rw [hnumeral, List.append_assoc, List.append_assoc] at hbytes
  obtain ⟨hblanksAt, hrest⟩ := bytesAt_append.mp hbytes
  obtain ⟨hsignAt, hdigitsAt⟩ := bytesAt_append.mp hrest
  have hvalue : valueLoop memory wordCount (s + blanks.length + (sign negative).length) 0 =
      .ok (BitVec.ofNat 32 n) := by
    rw [← hdigits.value]
    exact valueLoop_eq digits hdigits.small hdigitsAt hc hfuel
  cases negative with
  | true =>
      have hminus : memory (s + blanks.length) = ascii '-' := (bytesAt_cons.mp hsignAt).1
      have hskip := @blankLoop_eq memory (ascii '-') blanks wordCount s hblanks
        (bytesAt_append.mpr ⟨hblanksAt, hsignAt⟩) (by decide) (by decide) hlength
      have hstart : s + blanks.length + (sign true).length = s + blanks.length + 1 := rfl
      rw [hstart] at hvalue
      simp only [atoi, hskip, ok_bind, hminus, if_true]
      rw [hvalue]
      rfl
  | false =>
      have hdigit : first < 10 := hdigits.small first (by rw [hfirst]; exact List.mem_cons_self)
      have hat : memory (s + blanks.length) = hexdigit first := by
        rw [hfirst, List.map_cons, List.cons_append] at hdigitsAt
        exact (bytesAt_cons.mp hdigitsAt).1
      have hplain : ∀ sep, ¬ IsDigit sep → hexdigit first ≠ sep := by
        rintro sep hsep rfl
        exact hsep (isDigit_hexdigit ⟨first, hdigit⟩)
      have hskip := @blankLoop_eq memory (hexdigit first) blanks wordCount s hblanks
        (bytesAt_append.mpr ⟨hblanksAt, bytesAt_singleton.mpr hat⟩) (hplain _ (by decide))
        (hplain _ (by decide)) hlength
      have hminus : hexdigit first ≠ ascii '-' := hplain _ (by decide)
      have hplus : hexdigit first ≠ ascii '+' := hplain _ (by decide)
      have hstart : s + blanks.length + (sign false).length = s + blanks.length := rfl
      rw [hstart] at hvalue
      simp only [atoi, hskip, ok_bind, hat, hminus, hplus, if_false]
      rw [hvalue]
      rfl

theorem signed_eq (i : ℤ) : signed i = sign (decide (i < 0)) ++ numeral 10 i.natAbs := by
  rw [signed, sign]
  by_cases hneg : i < 0
  · simp [hneg]
  · simp [hneg]

/-- The words that a 32-bit integer and its magnitude stand for. -/
theorem ofNat_natAbs (v : BitVec 32) :
    (if decide (v.toInt < 0) then -BitVec.ofNat 32 v.toInt.natAbs
      else BitVec.ofNat 32 v.toInt.natAbs) = v := by
  by_cases hneg : v.toInt < 0
  · rw [if_pos (by simpa using hneg), ← toNat_neg_of_toInt_neg hneg, BitVec.ofNat_toNat,
      BitVec.setWidth_eq, BitVec.neg_neg]
  · rw [if_neg (by simpa using hneg), ← toNat_of_toInt_nonneg hneg, BitVec.ofNat_toNat,
      BitVec.setWidth_eq]

theorem natAbs_lt (v : BitVec 32) : v.toInt.natAbs < wordCount := by
  by_cases hneg : v.toInt < 0
  · rw [← toNat_neg_of_toInt_neg hneg]
    exact (-v).isLt
  · rw [← toNat_of_toInt_nonneg hneg]
    exact v.isLt

theorem length_signed {i : ℤ} (hi : i.natAbs < wordCount) : (signed i).length ≤ 11 := by
  have hten : (Nat.toDigits 10 i.natAbs).length ≤ 10 :=
    (Nat.length_toDigits_le_iff (by decide) (by decide)).mpr (hi.trans (by decide))
  rw [signed_eq, List.length_append, numeral, List.length_map, sign]
  split
  · rw [List.length_singleton]
    omega
  · rw [List.length_nil]
    omega

/-- The directive `%d`. -/
def decimal : Directive := ⟨false, [], ascii 'd', not_isDigit_d, fun _ _ => d_ne_flag⟩

/-- `atoi` reads back what `"%d"` prints into a large enough buffer, behind blanks and tabs and in
front of anything that is no digit.  `printNum` prints the digits of a number without leading
zeros, its products stay within a word, and it never divides by zero. -/
theorem atoi_snprintf :
    (∀ (v : BitVec 32) (str : ℕ → UInt8) (size : ℕ) (src : Source),
      BytesAt src.format 0 (text [.directive decimal] ++ [0]) → src.args 0 = v → 12 ≤ size →
      ∃ str' len, vsnprintf str size src = .ok (str', len) ∧ atoi str' 0 = .ok v ∧
        ∀ (memory : Memory) (s : ℕ) (blanks : List UInt8) (c : UInt8),
          (∀ b ∈ blanks, b = ascii ' ' ∨ b = ascii '\t') → blanks.length < wordCount →
          ¬ IsDigit c → BytesAt memory s (blanks ++ loadBytes str' 0 len ++ [c]) →
          atoi memory s = .ok v) ∧
    ∀ u base, u < wordCount → base = 10 ∨ base = 16 →
      (∃ digits, Canonical base u digits ∧ ∀ size p,
        printNum size p u base = addchars size (digits.map hexdigit) p) ∧
      (∀ m ∈ products base 32 u 1, m < wordCount) ∧
      ∃ mult, multLoop base 32 u 1 = .ok mult ∧ ∀ m ∈ divisors base 32 u mult, 0 < m := by
  constructor
  · intro v str size src hformat hargs hsize
    have hnarrow : Narrow [.directive decimal] := by
      intro d hd
      obtain rfl : d = decimal := by simpa using hd
      exact Nat.two_pow_pos 31
    have hmagnitude : v.toInt.natAbs < wordCount := natAbs_lt v
    have hlength : (signed v.toInt).length ≤ 11 := length_signed hmagnitude
    have hpad : decimal.pad (signed v.toInt) = signed v.toInt := by
      have hwidth : decimal.width = 0 := rfl
      rw [Directive.pad, hwidth, Nat.zero_sub]
      rfl
    have hout : output [.directive decimal] [.int v.toInt] = some (signed v.toInt) := by
      have hfield : field decimal.conversion [.int v.toInt] = some (signed v.toInt, []) := rfl
      rw [output, hfield]
      simp only [Option.bind_eq_bind, Option.bind_some, hpad]
      exact congrArg some (List.append_nil _)
    have hsupplies : Supplies src 0 [.int v.toInt] :=
      ⟨show (src.args 0).toInt = v.toInt by rw [hargs], trivial⟩
    obtain ⟨str', hprinted, -, hbytes⟩ :=
      vsnprintf_truncates hnarrow hout hformat (by decide) hsupplies (by omega) str size
    have hstored := hbytes (by omega)
    rw [List.take_of_length_le (by omega)] at hstored
    have hload := loadBytes_bytesAt (bytesAt_append.mp hstored).1
    have hread : ∀ (memory : Memory) (s : ℕ) (blanks : List UInt8) (c : UInt8),
        (∀ b ∈ blanks, b = ascii ' ' ∨ b = ascii '\t') → blanks.length < wordCount →
        ¬ IsDigit c → BytesAt memory s (blanks ++ signed v.toInt ++ [c]) →
        atoi memory s = .ok v := by
      intro memory s blanks c hblanks hshort hc htext
      rw [signed_eq] at htext
      rw [atoi_eq hmagnitude hblanks hshort hc htext, ofNat_natAbs]
    refine ⟨str', (signed v.toInt).length, hprinted, ?_, ?_⟩
    · exact hread str' 0 [] 0 (by simp) (by decide) (by decide) hstored
    · rw [hload]
      exact hread
  · intro u base hu hbase
    have hlow : 1 < base := by omega
    have hhigh : base ≤ 16 := by omega
    obtain ⟨digits, hdigits, hnumeral⟩ := exists_canonical hlow hhigh u
    refine ⟨⟨digits, hdigits, fun size p => ?_⟩,
      products_lt hlow (by rw [Nat.one_mul]; exact hu), ?_⟩
    · rw [← hnumeral]
      exact printNum_eq hlow hhigh hu p
    · have hfuel : u < base ^ 32 :=
        calc u < 2 ^ 32 := hu
          _ ≤ base ^ 32 := Nat.pow_le_pow_left hlow 32
      rw [multLoop_eq hlow 32 hfuel (by rw [Nat.one_mul]; exact hu) (by decide), Nat.one_mul]
      exact ⟨_, rfl, divisors_pos hlow⟩

/-- The least integer, behind a blank and in front of a `'.'`. -/
theorem atoi_snprintf_least : ∃ str' len,
    vsnprintf (fun _ => 1) 12
      ⟨ofList (text [.directive decimal] ++ [0]), fun _ => BitVec.intMin 32, fun _ => 0⟩ =
        .ok (str', len) ∧ atoi str' 0 = .ok (BitVec.intMin 32) ∧
      ∀ (memory : Memory) (s : ℕ) (blanks : List UInt8) (c : UInt8),
        (∀ b ∈ blanks, b = ascii ' ' ∨ b = ascii '\t') → blanks.length < wordCount →
        ¬ IsDigit c → BytesAt memory s (blanks ++ loadBytes str' 0 len ++ [c]) →
        atoi memory s = .ok (BitVec.intMin 32) :=
  atoi_snprintf.1 (BitVec.intMin 32) _ 12 _ (bytesAt_ofList _) rfl le_rfl

end Rhythmos.Libc.Printf
