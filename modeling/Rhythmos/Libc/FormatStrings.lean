import Rhythmos.Libc.Formats

/-!
# Strings used as formats

Every string is a format.  A string without `'%'` prints itself, and where a string has a
directive there are arguments for which it prints something else: no directive prints its
own characters.
-/

namespace Rhythmos.Libc.Printf

open ByteMemory ClippedWrites Fallible Printer

/-! ## The items of a string -/

theorem text_append (items more : List Item) : text (items ++ more) = text items ++ text more := by
  induction items with
  | nil => rfl
  | cons item items ih =>
      cases item with
      | literal c => rw [List.cons_append, text, text, ih, List.cons_append]
      | directive d =>
          rw [List.cons_append, text, text, ih, List.cons_append, List.append_assoc,
            List.cons_append]

/-- The digits in front of a string. -/
theorem exists_digits (chars : List UInt8) : ∃ (digits : List (Fin 10)) (rest : List UInt8),
    chars = (digits.map fun digit => hexdigit digit.val) ++ rest ∧
      ∀ c more, rest = c :: more → ¬ IsDigit c := by
  induction chars with
  | nil => exact ⟨[], [], rfl, by simp⟩
  | cons c chars ih =>
      by_cases hdigit : IsDigit c
      · obtain ⟨digits, rest, rfl, hrest⟩ := ih
        have hlow : 48 ≤ c.toNat := hdigit.1
        have hhigh : c.toNat ≤ 57 := hdigit.2
        refine ⟨⟨c.toNat - 48, by omega⟩ :: digits, rest, ?_, hrest⟩
        have hc : hexdigit (c.toNat - 48) = c := by
          obtain ⟨d, hd⟩ : ∃ d, c.toNat = 48 + d := ⟨c.toNat - 48, by omega⟩
          have hsmall : d < 10 := by omega
          apply UInt8.toNat_inj.mp
          rw [hd, Nat.add_sub_cancel_left]
          interval_cases d <;> rfl
        rw [List.map_cons, hc]
        rfl
      · refine ⟨[], c :: chars, rfl, ?_⟩
        rintro _ _ ⟨⟩
        exact hdigit

/-- The characters after a `'%'` are a flag and a width, and what follows them: nothing, or
the conversion character and the rest of the string. -/
theorem exists_directive (chars : List UInt8) : ∃ d : Directive,
    d.conversion = 0 ∧ chars = d.front ∨ ∃ rest, chars = d.front ++ d.conversion :: rest := by
  obtain ⟨left, digits, rest, hchars, hrest, hflag⟩ : ∃ (left : Bool) (digits : List (Fin 10))
      (rest : List UInt8),
      chars = (if left then [ascii '-'] else []) ++
        (digits.map fun digit => hexdigit digit.val) ++ rest ∧
      (∀ c more, rest = c :: more → ¬ IsDigit c) ∧
      (left = false → ∀ more, chars ≠ ascii '-' :: more) := by
    by_cases hminus : ∃ more, chars = ascii '-' :: more
    · obtain ⟨more, rfl⟩ := hminus
      obtain ⟨digits, rest, rfl, hrest⟩ := exists_digits more
      exact ⟨true, digits, rest, rfl, hrest, by simp⟩
    · obtain ⟨digits, rest, hchars, hrest⟩ := exists_digits chars
      exact ⟨false, digits, rest, hchars, hrest, fun _ more h => hminus ⟨more, h⟩⟩
  cases rest with
  | nil =>
      rw [List.append_nil] at hchars
      exact ⟨⟨left, digits, 0, by decide, fun _ _ => by decide⟩, .inl ⟨rfl, hchars⟩⟩
  | cons conversion rest =>
      have hminus : left = false → digits = [] → conversion ≠ ascii '-' := by
        rintro rfl rfl rfl
        exact hflag rfl rest hchars
      exact ⟨⟨left, digits, conversion, hrest conversion rest rfl, hminus⟩, .inr ⟨rest, hchars⟩⟩

/-- The items of a string; `tail` is a directive that the end of the string cuts off. -/
structure Reading (chars : List UInt8) where
  items : List Item
  tail : Option Directive
  cut : ∀ d ∈ tail, d.conversion = 0
  complete : chars = text items ++ tail.elim [] fun d => ascii '%' :: d.front

/-- Every string consists of items. -/
theorem exists_reading (chars : List UInt8) (hnonzero : 0 ∉ chars) : Nonempty (Reading chars) := by
  induction hlength : chars.length using Nat.strong_induction_on generalizing chars with
  | _ length ih =>
      cases chars with
      | nil => exact ⟨[], none, by simp, rfl⟩
      | cons c chars =>
          rw [List.mem_cons, not_or] at hnonzero
          rw [List.length_cons] at hlength
          by_cases hpercent : c = ascii '%'
          · subst hpercent
            obtain ⟨d, ⟨hcut, hchars⟩ | ⟨rest, hchars⟩⟩ := exists_directive chars
            · exact ⟨[], some d, by simpa using hcut, by rw [hchars]; rfl⟩
            · have hshorter : rest.length < length := by
                rw [hchars, List.length_append, List.length_cons] at hlength
                omega
              have hrest : 0 ∉ rest := by
                rw [hchars, List.mem_append, List.mem_cons, not_or, not_or] at hnonzero
                exact hnonzero.2.2.2
              obtain ⟨items, tail, hcut, hcomplete⟩ := ih rest.length hshorter rest hrest rfl
              refine ⟨.directive d :: items, tail, hcut, ?_⟩
              rw [hchars, text, List.cons_append, List.append_assoc, List.cons_append,
                ← hcomplete]
          · obtain ⟨items, tail, hcut, hcomplete⟩ := ih chars.length (by omega) chars hnonzero.2 rfl
            refine ⟨.literal ⟨c, Ne.symm hnonzero.1, hpercent⟩ :: items, tail, hcut, ?_⟩
            rw [text, List.cons_append, ← hcomplete]

/-! ## Strings without directives -/

def directives : List Item → ℕ
  | [] => 0
  | .literal _ :: items => directives items
  | .directive _ :: items => directives items + 1

theorem directives_append (items more : List Item) :
    directives (items ++ more) = directives items + directives more := by
  induction items with
  | nil => rw [List.nil_append, directives, Nat.zero_add]
  | cons item items ih =>
      cases item with
      | literal c => exact ih
      | directive d => rw [List.cons_append, directives, ih, directives, Nat.add_right_comm]

theorem directives_le_count (items : List Item) :
    directives items ≤ (text items).count (ascii '%') := by
  induction items with
  | nil => exact Nat.zero_le _
  | cons item items ih =>
      cases item with
      | literal c =>
          rw [directives, text, List.count_cons_of_ne c.property.2]
          exact ih
      | directive d =>
          rw [directives, text, List.count_cons_self, List.count_append]
          have hmore : (text items).count (ascii '%') ≤
              (d.conversion :: text items).count (ascii '%') := List.count_le_count_cons
          omega

theorem notMem_text {items : List Item} (hnone : directives items = 0) :
    ascii '%' ∉ text items := by
  induction items with
  | nil => exact List.not_mem_nil
  | cons item items ih =>
      cases item with
      | literal c =>
          rw [text, List.mem_cons, not_or]
          exact ⟨Ne.symm c.property.2, ih hnone⟩
      | directive d => exact absurd hnone (Nat.succ_ne_zero _)

/-- Characters other than `'%'` are printed as they are. -/
theorem output_literals {items : List Item} (hnone : directives items = 0) (more : List Item)
    (args : List Arg) :
    output (items ++ more) args = (output more args).map (text items ++ ·) := by
  induction items with
  | nil => simp [text]
  | cons item items ih =>
      cases item with
      | literal c =>
          rw [List.cons_append, output, ih hnone]
          cases output more args <;> rfl
      | directive d => exact absurd hnone (Nat.succ_ne_zero _)

theorem narrow_literals {items more : List Item} (hnone : directives items = 0)
    (hmore : Narrow more) : Narrow (items ++ more) := by
  induction items with
  | nil => exact hmore
  | cons item items ih =>
      cases item with
      | literal c =>
          intro d hd
          rw [List.cons_append, List.mem_cons] at hd
          rcases hd with hd | hd
          · cases hd
          · exact ih hnone d hd
      | directive d => exact absurd hnone (Nat.succ_ne_zero _)

theorem exists_literals (chars : List UInt8) (hnonzero : 0 ∉ chars) (hnone : ascii '%' ∉ chars) :
    ∃ items, directives items = 0 ∧ chars = text items := by
  induction chars with
  | nil => exact ⟨[], rfl, rfl⟩
  | cons c chars ih =>
      rw [List.mem_cons, not_or] at hnonzero hnone
      obtain ⟨items, hitems, rfl⟩ := ih hnonzero.2 hnone.2
      exact ⟨.literal ⟨c, Ne.symm hnonzero.1, Ne.symm hnone.1⟩ :: items, hitems, rfl⟩

/-! ## Strings with directives -/

/-- What items print when a conversion gives a single `'%'`, or characters other than it. -/
inductive Shows : List Item → List UInt8 → Prop
  | nil : Shows [] []
  | literal (c : { c : UInt8 // c ≠ 0 ∧ c ≠ ascii '%' }) {items : List Item} {out : List UInt8} :
      Shows items out → Shows (.literal c :: items) (c.val :: out)
  | directive (d : Directive) (count : ℕ) {items : List Item} {chars out : List UInt8} :
      (d.digits = [] → count = 0) → (chars = [ascii '%'] ∨ ascii '%' ∉ chars) → Shows items out →
      Shows (.directive d :: items) (d.padBy count chars ++ out)

theorem notMem_spaces (count : ℕ) : ascii '%' ∉ List.replicate count (ascii ' ') := by
  intro hmem
  exact absurd (List.eq_of_mem_replicate hmem) (by decide)

theorem count_padBy (d : Directive) (count : ℕ) (chars : List UInt8) :
    (d.padBy count chars).count (ascii '%') = chars.count (ascii '%') := by
  have hspaces := List.count_eq_zero.mpr (notMem_spaces count)
  rw [Directive.padBy]
  split
  · rw [List.count_append, hspaces, Nat.add_zero]
  · rw [List.count_append, hspaces, Nat.zero_add]

theorem Shows.count_le {items : List Item} {out : List UInt8} (hshows : Shows items out) :
    out.count (ascii '%') ≤ directives items := by
  induction hshows with
  | nil => exact Nat.zero_le _
  | literal c _ ih =>
      rw [List.count_cons_of_ne c.property.2]
      exact ih
  | @directive d count items chars out _ hchars _ ih =>
      have hone : chars.count (ascii '%') ≤ 1 := by
        rcases hchars with rfl | hnone
        · exact List.count_le_length
        · rw [List.count_eq_zero.mpr hnone]
          exact Nat.zero_le 1
      rw [List.count_append, count_padBy, directives]
      omega

/-- The parts of a list around the first `'%'`. -/
theorem first_percent {left right : List UInt8} (hleft : ascii '%' ∉ left) :
    ∀ {junk more : List UInt8}, ascii '%' ∉ junk →
      left ++ ascii '%' :: right = junk ++ ascii '%' :: more → junk = left ∧ right = more := by
  induction left with
  | nil =>
      intro junk more hjunk hsame
      cases junk with
      | nil => exact ⟨rfl, (List.cons.inj hsame).2⟩
      | cons j junk => exact absurd (List.mem_cons.mpr (.inl (List.cons.inj hsame).1)) hjunk
  | cons c left ih =>
      intro junk more hjunk hsame
      rw [List.mem_cons, not_or] at hleft
      cases junk with
      | nil => exact absurd (List.cons.inj hsame).1.symm hleft.1
      | cons j junk =>
          rw [List.mem_cons, not_or] at hjunk
          obtain ⟨rfl, hrest⟩ := List.cons.inj hsame
          obtain ⟨rfl, hright⟩ := ih hleft.2 hjunk.2 hrest
          exact ⟨rfl, hright⟩

/-- A field that prints a `'%'` can only print its flag and width where what follows it
does. -/
theorem padBy_eq {d : Directive} {count : ℕ} {junk out rest : List UInt8}
    (hjunk : ascii '%' ∉ junk)
    (hsame : d.padBy count [ascii '%'] ++ out = junk ++ ascii '%' :: (d.front ++ rest)) :
    junk = List.replicate count (ascii ' ') ∧ out = d.front ++ rest := by
  rw [Directive.padBy] at hsame
  cases hleft : d.left with
  | false =>
      rw [hleft, if_neg (by simp), List.append_assoc, List.singleton_append] at hsame
      exact first_percent (notMem_spaces count) hjunk hsame
  | true =>
      rw [hleft, if_pos rfl, List.append_assoc, List.singleton_append] at hsame
      obtain ⟨rfl, hrest⟩ := @first_percent [] _ List.not_mem_nil _ _ hjunk hsame
      cases count with
      | zero => exact ⟨rfl, hrest⟩
      | succ count =>
          rw [Directive.front, hleft, if_pos rfl, List.replicate_succ, List.cons_append,
            List.append_assoc, List.singleton_append] at hrest
          exact absurd (List.cons.inj hrest).1 (by decide)

/-- Where items print their own text, perhaps behind other characters, there are none of these,
and no directives. -/
theorem Shows.copies {last : List Item} {end_ : List UInt8}
    (hcount : directives last ≤ end_.count (ascii '%'))
    (hlast : ∀ junk out, Shows last out → out = junk ++ end_ → junk = []) (items : List Item) :
    ∀ {junk out : List UInt8}, Shows (items ++ last) out → out = junk ++ (text items ++ end_) →
      junk = [] ∧ directives items = 0 := by
  induction items with
  | nil =>
      intro junk out hshows hout
      exact ⟨hlast junk out hshows hout, rfl⟩
  | cons item items ih =>
      intro junk out hshows hout
      cases hshows with
      | @literal c _ out hshows =>
          rw [text, List.cons_append] at hout
          cases junk with
          | nil =>
              have hrest : out = [] ++ (text items ++ end_) := (List.cons.inj hout).2
              exact ⟨rfl, (ih hshows hrest).2⟩
          | cons j junk =>
              have hmore : out = (junk ++ [c.val]) ++ (text items ++ end_) := by
                rw [List.append_assoc]
                exact (List.cons.inj hout).2
              exact absurd (ih hshows hmore).1 (by simp)
      | @directive d count _ chars out hwidth hchars hshows =>
          exfalso
          have hfew := hshows.count_le
          have hmany := directives_le_count items
          have htext : (text items).count (ascii '%') ≤
              (d.conversion :: text items).count (ascii '%') := List.count_le_count_cons
          have hcounts := congrArg (List.count (ascii '%')) hout
          rw [text, List.count_append, count_padBy, List.count_append, List.count_append,
            List.count_cons_self, List.count_append] at hcounts
          rw [List.append_eq, directives_append] at hfew
          rcases hchars with rfl | hnone
          · have hjunk : ascii '%' ∉ junk := by
              rw [List.count_singleton_self] at hcounts
              exact List.count_eq_zero.mp (by omega)
            rw [text, List.cons_append, List.append_assoc, List.cons_append] at hout
            obtain ⟨-, hout⟩ := padBy_eq hjunk hout
            have hmore : out = (d.front ++ [d.conversion]) ++ (text items ++ end_) := by
              rw [hout, List.append_assoc]
              rfl
            exact absurd (ih hshows hmore).1 (by simp)
          · rw [List.count_eq_zero.mpr hnone] at hcounts
            omega

theorem Shows.literals {items more : List Item} (hnone : directives items = 0) :
    ∀ {out : List UInt8}, Shows (items ++ more) out → ∃ out', out = text items ++ out' ∧
      Shows more out' := by
  induction items with
  | nil => exact fun hshows => ⟨_, rfl, hshows⟩
  | cons item items ih =>
      intro out hshows
      cases hshows with
      | literal c hshows =>
          obtain ⟨out', rfl, hmore⟩ := ih hnone hshows
          exact ⟨out', rfl, hmore⟩
      | directive d => exact absurd hnone (Nat.succ_ne_zero _)

/-- The items of a string, with the directive that its end cuts off. -/
def Reading.all {chars : List UInt8} (r : Reading chars) : List Item :=
  r.items ++ r.tail.toList.map .directive

/-- A directive that is cut off takes the terminator of the string as its conversion. -/
theorem Reading.text_all {chars : List UInt8} (r : Reading chars) :
    text r.all = chars ∨ text r.all = chars ++ [0] := by
  obtain ⟨items, tail, hcut, hcomplete⟩ := r
  cases tail with
  | none =>
      have hall : text (items ++ []) = chars := by
        rw [List.append_nil, hcomplete, Option.elim_none, List.append_nil]
      exact .inl hall
  | some d =>
      have hconversion : d.conversion = 0 := hcut d rfl
      have hall : text (items ++ [.directive d]) = chars ++ [0] := by
        rw [text_append, hcomplete, Option.elim_some, text, text, hconversion, List.append_assoc,
          List.cons_append]
      exact .inr hall

/-- A string that prints itself has a `'%'` at most at its end. -/
theorem Reading.notMem_dropLast {chars : List UInt8} (r : Reading chars)
    (hshows : Shows r.all chars) : ascii '%' ∉ chars.dropLast := by
  obtain ⟨items, tail, hcut, hcomplete⟩ := r
  cases tail with
  | none =>
      have hbase : ∀ junk out, Shows [] out → out = junk ++ [] → junk = [] := by
        intro junk out hnil hout
        cases hnil
        simpa using hout.symm
      obtain ⟨-, hnone⟩ := hshows.copies (Nat.zero_le _) hbase items
        (hcomplete.trans (List.nil_append _).symm)
      intro hmem
      apply notMem_text hnone
      rw [Option.elim_none, List.append_nil] at hcomplete
      exact hcomplete ▸ List.mem_of_mem_dropLast hmem
  | some d =>
      have hbase : ∀ junk out, Shows [.directive d] out → out = junk ++ ascii '%' :: d.front →
          junk = [] ∧ d.front = [] := by
        intro junk out hlast hout
        cases hlast with
        | @directive _ count _ chars out hwidth hchars hnil =>
            cases hnil
            have hcounts := congrArg (List.count (ascii '%')) hout
            rw [List.count_append, count_padBy, List.count_nil, List.count_append,
              List.count_cons_self] at hcounts
            rcases hchars with rfl | hnone
            · have hjunk : ascii '%' ∉ junk := by
                rw [List.count_singleton_self] at hcounts
                exact List.count_eq_zero.mp (by omega)
              rw [← List.append_nil d.front] at hout
              obtain ⟨rfl, hfront⟩ := padBy_eq hjunk hout
              rw [List.append_nil] at hfront
              have hdigits : d.digits = [] := by
                have hlength := length_front d
                rw [← hfront, List.length_nil] at hlength
                exact List.eq_nil_of_length_eq_zero (by omega)
              rw [hwidth hdigits]
              exact ⟨rfl, hfront.symm⟩
            · rw [List.count_eq_zero.mpr hnone] at hcounts
              omega
      have hcount : directives [.directive d] ≤ (ascii '%' :: d.front).count (ascii '%') := by
        rw [List.count_cons_self]
        exact Nat.le_add_left _ _
      obtain ⟨-, hnone⟩ := hshows.copies hcount
        (fun junk out hlast hout => (hbase junk out hlast hout).1) items
        (hcomplete.trans (List.nil_append _).symm)
      obtain ⟨out, hout, hlast⟩ := hshows.literals hnone
      have hend : out = [] ++ ascii '%' :: d.front :=
        List.append_cancel_left (hout.symm.trans hcomplete)
      obtain ⟨-, hfront⟩ := hbase [] out hlast hend
      rw [hcomplete, Option.elim_some, hfront, List.dropLast_concat]
      exact notMem_text hnone

/-! ## Running a string as a format -/

variable {size : ℕ} {p p' : Printer} {src : Source}

/-- Every argument word is 33, and the memory holds zeros: a number, the character `'!'`, and
an empty string. -/
structure Plain (src : Source) : Prop where
  args : ∀ ap, src.args ap = 33
  memory : ∀ address, src.memory address = 0

/-- Every conversion finds its argument. -/
theorem Plain.exists_field (hplain : Plain src) (c : UInt8) (ap : ℕ) : ∃ args chars,
    field c args = some (chars, []) ∧ Supplies src ap args ∧ chars.length ≤ 4 ∧
      (chars = [ascii '%'] ∨ ascii '%' ∉ chars) := by
  have hstring : Arg.Represents src.memory (src.args ap) (.string []) := by
    rw [hplain.args]
    exact ⟨bytesAt_cons.mpr ⟨hplain.memory _, fun _ h => absurd h (Nat.not_lt_zero _)⟩,
      List.not_mem_nil, by decide⟩
  have hchar : Arg.Represents src.memory (src.args ap) (.char (ascii '!')) := by
    rw [hplain.args]
    exact rfl
  have hint : Arg.Represents src.memory (src.args ap) (.int 33) := by
    rw [hplain.args]
    exact rfl
  have hunsigned : Arg.Represents src.memory (src.args ap) (.unsigned 33) := by
    rw [hplain.args]
    exact rfl
  by_cases hc : c ∈ conversions
  · simp only [conversions, List.mem_cons, List.not_mem_nil, or_false] at hc
    rcases hc with rfl | rfl | rfl | rfl | rfl | rfl
    · exact ⟨[.string []], [], rfl, ⟨hstring, trivial⟩, by decide, by decide⟩
    · exact ⟨[.char (ascii '!')], _, rfl, ⟨hchar, trivial⟩, by decide, by decide⟩
    · exact ⟨[.int 33], _, rfl, ⟨hint, trivial⟩, by decide, by decide⟩
    · exact ⟨[.unsigned 33], _, rfl, ⟨hunsigned, trivial⟩, by decide, by decide⟩
    · exact ⟨[.unsigned 33], _, rfl, ⟨hunsigned, trivial⟩, by decide, by decide⟩
    · exact ⟨[.unsigned 33], _, rfl, ⟨hunsigned, trivial⟩, by decide, by decide⟩
  · refine ⟨[], [ascii '%'], ?_, trivial, by decide, .inl rfl⟩
    rw [field.eq_def, if_pos hc]

theorem spaces_of_digits {d : Directive} {chars : List UInt8} (hdigits : d.digits = [])
    (hlength : chars.length < 2 ^ 31) : d.spaces chars = 0 := by
  have hwidth : d.width = 0 := by rw [Directive.width, hdigits, List.foldl_nil]
  rw [Directive.spaces_eq (by rw [hwidth]; exact Nat.two_pow_pos 31) hlength, hwidth,
    Nat.zero_sub]

/-- A turn of a loop that comes to its end prints a character. -/
theorem literal_turn {items : List Item} {char : {c : UInt8 // c ≠ 0 ∧ c ≠ ascii '%'}} {fuel c : ℕ}
    (hsize : 0 < size) (hword : size < wordCount) (hpos : p.pos < wordCount)
    (hbytes : BytesAt src.format c (text (.literal char :: items) ++ [0]))
    (hloop : formatLoop src size (fuel + 1) c p = .ok p') :
    (p.print size [char.val]).pos < wordCount ∧ BytesAt src.format (c + 1) (text items ++ [0]) ∧
      formatLoop src size fuel (c + 1) (p.print size [char.val]) = .ok p' := by
  rw [text, List.cons_append, bytesAt_cons] at hbytes
  obtain ⟨hc, hrest⟩ := hbytes
  rw [formatLoop, hc, if_neg char.property.1, if_neg char.property.2, bind_eq_ok] at hloop
  obtain ⟨q, hq, hloop⟩ := hloop
  have hfits := addchars_fits hsize hword [char.val] hpos (by rw [addchars_singleton, hq])
  rw [List.length_singleton] at hfits
  rw [addchar_eq _ hfits] at hq
  obtain rfl := Except.ok.inj hq
  exact ⟨hfits, hrest, hloop⟩

/-- Or it prints a field. -/
theorem directive_turn {items : List Item} {d : Directive} {fuel c : ℕ} (hsize : 0 < size)
    (hword : size < wordCount) (hpos : p.pos < wordCount)
    (hbytes : BytesAt src.format c (text (.directive d :: items) ++ [0]))
    (hlength : (text (.directive d :: items)).length < wordCount)
    (hloop : formatLoop src size (fuel + 1) c p = .ok p') {args rest : List Arg}
    {chars : List UInt8} (hfield : field d.conversion args = some (chars, rest))
    (hargs : Supplies src p.ap args) :
    ((p.print size (d.padBy (d.spaces chars) chars)).advance
        (args.length - rest.length)).pos < wordCount ∧
      BytesAt src.format (c + 1 + d.front.length + 1) (text items ++ [0]) ∧
      formatLoop src size fuel (c + 1 + d.front.length + 1)
        ((p.print size (d.padBy (d.spaces chars) chars)).advance (args.length - rest.length)) =
          .ok p' := by
  rw [text, List.cons_append, bytesAt_cons, List.append_assoc, List.cons_append] at hbytes
  obtain ⟨hpercent, hbytes⟩ := hbytes
  rw [text, List.length_cons, List.length_append, List.length_cons] at hlength
  have hfront := length_front d
  have hnull : ascii '%' ≠ 0 := by decide
  rw [formatLoop, hpercent, if_neg hnull, if_pos rfl, bind_eq_ok] at hloop
  obtain ⟨result, hresult, hloop⟩ := hloop
  have hfits := directive_fits hsize hword hbytes (by omega) hfield hargs hpos hresult
  rw [directive_prints hbytes (by omega) hfield hargs hfits] at hresult
  obtain rfl := Except.ok.inj hresult
  exact ⟨hfits, (bytesAt_cons.mp (bytesAt_append.mp hbytes).2).2, hloop⟩

/-- If the loop over a format comes to its end, it has printed what the items show. -/
theorem formatLoop_shows (hplain : Plain src) (hsize : 0 < size) (hword : size < wordCount)
    (items : List Item) : ∀ {fuel c : ℕ} {p : Printer}, p.pos < wordCount →
    BytesAt src.format c (text items ++ [0]) → (text items).length < wordCount →
    (text items).length < fuel → formatLoop src size fuel c p = .ok p' →
    ∃ out ap, Shows items out ∧ p' = { p.print size out with ap := ap } ∧ p'.pos < wordCount := by
  induction items with
  | nil =>
      intro fuel c p hpos hbytes _ hfuel hloop
      obtain ⟨fuel, rfl⟩ := Nat.exists_eq_succ_of_ne_zero (Nat.ne_zero_of_lt hfuel)
      have hend : src.format c = 0 := (bytesAt_cons.mp hbytes).1
      rw [formatLoop, if_pos hend] at hloop
      obtain rfl := Except.ok.inj hloop
      exact ⟨[], p.ap, .nil, by rw [print_nil], hpos⟩
  | cons item items ih =>
      intro fuel c p hpos hbytes hlength hfuel hloop
      obtain ⟨fuel, rfl⟩ := Nat.exists_eq_succ_of_ne_zero (Nat.ne_zero_of_lt hfuel)
      cases item with
      | literal char =>
          obtain ⟨hfits, hrest, hloop⟩ := literal_turn hsize hword hpos hbytes hloop
          rw [text, List.length_cons] at hlength hfuel
          obtain ⟨out, ap, hshows, hp', hend⟩ := ih hfits hrest (by omega) (by omega) hloop
          refine ⟨char.val :: out, ap, .literal char hshows, ?_, hend⟩
          rw [hp', print_append]
          rfl
      | directive d =>
          obtain ⟨args, chars, hfield, hargs, hshort, hchars⟩ :=
            hplain.exists_field d.conversion p.ap
          obtain ⟨hfits, hrest, hloop⟩ :=
            directive_turn hsize hword hpos hbytes hlength hloop hfield hargs
          rw [text, List.length_cons, List.length_append, List.length_cons] at hlength hfuel
          obtain ⟨out, ap, hshows, hp', hend⟩ := ih hfits hrest (by omega) (by omega) hloop
          refine ⟨d.padBy (d.spaces chars) chars ++ out, ap,
            .directive d _ (fun hdigits => spaces_of_digits hdigits (by omega)) hchars hshows,
            ?_, hend⟩
          rw [hp', print_advance, print_append]
          rfl

theorem terminate_fits (hsize : 0 < size) (hword : size < wordCount) (hpos : p.pos < wordCount)
    (hterminated : terminate size p = .ok p') : p.pos + 1 < wordCount := by
  by_contra hlast
  have hend : p.pos + 1 = wordCount := le_antisymm hpos (Nat.le_of_not_lt hlast)
  have houtside : ¬ p.pos < size := by omega
  rw [terminate, if_pos hsize, hend, Nat.mod_self, if_pos hsize, store, if_neg houtside]
    at hterminated
  cases hterminated

/-- What `vsnprintf` returns and leaves in the buffer when it comes to its end. -/
theorem vsnprintf_shows {items : List Item} {str str' : ℕ → UInt8} {length : ℕ}
    (hplain : Plain src) (hsize : 0 < size) (hword : size < wordCount)
    (hformat : BytesAt src.format 0 (text items ++ [0])) (hlength : (text items).length < wordCount)
    (hprinted : vsnprintf str size src = .ok (str', length)) :
    ∃ out, Shows items out ∧ length = out.length ∧
      BytesAt str' 0 (out.take (size - 1) ++ [0]) := by
  rw [vsnprintf, bind_eq_ok] at hprinted
  obtain ⟨p, hloop, hprinted⟩ := hprinted
  obtain ⟨out, ap, hshows, rfl, hpos⟩ := formatLoop_shows hplain hsize hword items
    (show (Printer.mk str 0 0).pos < wordCount from Nat.zero_lt_of_lt hword) hformat hlength
    hlength hloop
  rw [bind_eq_ok] at hprinted
  obtain ⟨q, hterminated, hprinted⟩ := hprinted
  have hfits := terminate_fits hsize hword hpos hterminated
  rw [terminate_eq hfits] at hterminated
  obtain rfl := Except.ok.inj hterminated
  obtain ⟨rfl, rfl⟩ := Prod.mk.inj (Except.ok.inj hprinted)
  refine ⟨out, hshows, by rw [pos_print, Nat.zero_add], ?_⟩
  rw [pos_print, Nat.zero_add]
  exact bytesAt_clipped out str hsize

/-- A string without `'%'` prints itself. -/
theorem vsnprintf_literals {chars : List UInt8} (hnonzero : 0 ∉ chars) (hnone : ascii '%' ∉ chars)
    (hformat : BytesAt src.format 0 (chars ++ [0])) (hshort : chars.length < 2 ^ 31)
    (str : ℕ → UInt8) (hsize : 0 < size) :
    ∃ str', vsnprintf str size src = .ok (str', chars.length) ∧
      BytesAt str' 0 (chars.take (size - 1) ++ [0]) := by
  have hsmall : (2 : ℕ) ^ 31 < wordCount := by norm_num [wordCount]
  have hempty : Narrow [] := fun d hd => absurd hd List.not_mem_nil
  obtain ⟨items, hitems, htext⟩ := exists_literals chars hnonzero hnone
  have hout : output (items ++ []) [] = some chars := by
    rw [output_literals hitems, output, Option.map_some, List.append_nil, htext]
  have hwhole : text (items ++ []) = chars := by rw [List.append_nil, htext]
  have hprinted := vsnprintf_eq (narrow_literals hitems hempty) hout
    (by rw [hwhole]; exact hformat) (by rw [hwhole]; omega) trivial hshort str size
  exact ⟨_, hprinted, bytesAt_clipped chars str hsize⟩

theorem eq_dropLast_percent {chars : List UInt8} (hpercent : ascii '%' ∈ chars)
    (hlast : ascii '%' ∉ chars.dropLast) : chars = chars.dropLast ++ [ascii '%'] := by
  have hsplit := List.dropLast_append_getLast (List.ne_nil_of_mem hpercent)
  rw [← hsplit, List.mem_append, List.mem_singleton] at hpercent
  rcases hpercent with hfirst | hend
  · exact absurd hfirst hlast
  · rw [hend]
    exact hsplit.symm

/-- The directive of a `'%'` at the end of a string. -/
def Directive.final : Directive := ⟨false, [], 0, by decide, fun _ _ => by decide⟩

theorem narrow_final {more : List Item} (hmore : Narrow more) :
    Narrow (.directive .final :: more) := by
  intro d hd
  rw [List.mem_cons, Item.directive.injEq] at hd
  rcases hd with rfl | hd
  · exact Nat.two_pow_pos 31
  · exact hmore d hd

/-- A string whose only `'%'` is at its end prints itself and what stands behind its
terminator. -/
theorem vsnprintf_final {chars more : List UInt8} (hnonzero : 0 ∉ chars)
    (hnone : ascii '%' ∉ chars) (hmoreNonzero : 0 ∉ more) (hmoreNone : ascii '%' ∉ more)
    (hformat : BytesAt src.format 0 (chars ++ [ascii '%', 0] ++ more ++ [0]))
    (hshort : chars.length + 2 + more.length < 2 ^ 31) (str : ℕ → UInt8) (hsize : 0 < size) :
    ∃ str', vsnprintf str size src = .ok (str', (chars ++ [ascii '%'] ++ more).length) ∧
      BytesAt str' 0 ((chars ++ [ascii '%'] ++ more).take (size - 1) ++ [0]) := by
  have hsmall : (2 : ℕ) ^ 31 < wordCount := by norm_num [wordCount]
  have hempty : Narrow [] := fun d hd => absurd hd List.not_mem_nil
  obtain ⟨first, hfirst, htext⟩ := exists_literals chars hnonzero hnone
  obtain ⟨items, hitems, htextMore⟩ := exists_literals more hmoreNonzero hmoreNone
  have hitemsOut : output (items ++ []) [] = some more := by
    rw [output_literals hitems, output, Option.map_some, List.append_nil, htextMore]
  have hfinalOut : output (.directive .final :: (items ++ [])) [] = some (ascii '%' :: more) := by
    have hfield : field Directive.final.conversion [] = some ([ascii '%'], []) := rfl
    have hpad : Directive.final.pad [ascii '%'] = [ascii '%'] := rfl
    rw [output, hfield]
    simp only [Option.bind_eq_bind, Option.bind_some, hitemsOut, hpad]
    rfl
  have hout : output (first ++ .directive .final :: (items ++ [])) [] =
      some (chars ++ [ascii '%'] ++ more) := by
    rw [output_literals hfirst, hfinalOut, Option.map_some, ← htext, List.append_assoc]
    rfl
  have hwhole : text (first ++ .directive .final :: (items ++ [])) =
      chars ++ [ascii '%', 0] ++ more := by
    rw [text_append, text, List.append_nil, ← htext, ← htextMore, List.append_assoc]
    rfl
  have hprinted := vsnprintf_eq
    (narrow_literals hfirst (narrow_final (narrow_literals hitems hempty))) hout
    (by rw [hwhole]; exact hformat) (by rw [hwhole]; simp; omega) trivial (by simp; omega) str size
  exact ⟨_, hprinted, bytesAt_clipped _ str hsize⟩

end Rhythmos.Libc.Printf
