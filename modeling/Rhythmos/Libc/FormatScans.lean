import Rhythmos.Libc.FormatStrings

/-!
# What is read of a format

The indices at which `vsnprintf` reads its format.  A directive takes the character behind its
width for the conversion and the loop goes on behind that, also where it is the terminator, so
the scan stays within the string exactly where no directive is cut off.
-/

namespace Rhythmos.Libc.Printf

open ByteMemory Fallible Printer

/-! ## The indices that are read -/

def widthReads (format : ℕ → UInt8) : ℕ → ℕ → List ℕ
  | 0, _ => []
  | fuel + 1, c => c :: if IsDigit (format c) then widthReads format fuel (c + 1) else []

/-- The flag, the width, and the conversion character, at which `printField` looks again. -/
def directiveReads (format : ℕ → UInt8) (c : ℕ) : List ℕ :=
  let start := if format c ≠ ascii '-' then c else c + 1
  c :: widthReads format wordCount start ++
    match widthLoop format wordCount start 0 with
    | .ok (conversion, _) => [conversion]
    | .error _ => []

def formatReads (src : Source) (size : ℕ) : ℕ → ℕ → Printer → List ℕ
  | 0, _, _ => []
  | fuel + 1, c, p =>
      c :: if src.format c = 0 then []
        else if src.format c = ascii '%' then
          directiveReads src.format (c + 1) ++
            match directive src size (c + 1) p with
            | .ok (c, p) => formatReads src size fuel (c + 1) p
            | .error _ => []
        else
          match addchar size p (src.format c) with
          | .ok p => formatReads src size fuel (c + 1) p
          | .error _ => []

variable {src : Source} {size : ℕ} {p : Printer}

/-! ## Formats without a directive that is cut off -/

/-- Some NUL stands behind every address that an argument gives, so every string ends. -/
def Terminated (src : Source) : Prop :=
  ∀ ap, ∃ length < wordCount, src.memory ((src.args ap).toNat + length) = 0

theorem exists_string {memory : Memory} (length : ℕ) : ∀ {address : ℕ},
    memory (address + length) = 0 →
    ∃ chars, BytesAt memory address (chars ++ [0]) ∧ 0 ∉ chars ∧ chars.length ≤ length := by
  induction length with
  | zero =>
      intro address hend
      exact ⟨[], bytesAt_singleton.mpr hend, List.not_mem_nil, le_rfl⟩
  | succ length ih =>
      intro address hend
      by_cases hfirst : memory address = 0
      · exact ⟨[], bytesAt_singleton.mpr hfirst, List.not_mem_nil, Nat.zero_le _⟩
      · rw [Nat.add_comm length, ← Nat.add_assoc] at hend
        obtain ⟨chars, hbytes, htext, hlength⟩ := ih hend
        refine ⟨memory address :: chars, bytesAt_cons.mpr ⟨rfl, hbytes⟩, ?_,
          Nat.succ_le_succ hlength⟩
        rw [List.mem_cons, not_or]
        exact ⟨Ne.symm hfirst, htext⟩

/-- Every conversion finds its argument. -/
theorem Terminated.exists_field (hterminated : Terminated src) (c : UInt8) (ap : ℕ) :
    ∃ args chars, field c args = some (chars, []) ∧ Supplies src ap args := by
  by_cases hc : c ∈ conversions
  · simp only [conversions, List.mem_cons, List.not_mem_nil, or_false] at hc
    rcases hc with rfl | rfl | rfl | rfl | rfl | rfl
    · obtain ⟨length, hlength, hend⟩ := hterminated ap
      obtain ⟨chars, hbytes, htext, hle⟩ := exists_string length hend
      exact ⟨[.string chars], chars, rfl, ⟨hbytes, htext, by omega⟩, trivial⟩
    · exact ⟨[.char _], _, rfl, rfl, trivial⟩
    · exact ⟨[.int _], _, rfl, rfl, trivial⟩
    · exact ⟨[.unsigned _], _, rfl, rfl, trivial⟩
    · exact ⟨[.unsigned _], _, rfl, rfl, trivial⟩
    · exact ⟨[.unsigned _], _, rfl, rfl, trivial⟩
  · refine ⟨[], [ascii '%'], ?_, trivial⟩
    rw [field.eq_def, if_pos hc]

/-- Printing does not diverge, and the position stays a number of 32 bits. -/
def Settles (outcome : Except Fault Printer) : Prop :=
  Ensures (· = .outOfBounds) outcome fun p => p.pos < wordCount

theorem settles_ok {q : Printer} : Settles (.ok q) ↔ q.pos < wordCount := ensures_ok

theorem settles_error {fault : Fault} : Settles (.error fault) ↔ fault = .outOfBounds :=
  ensures_error

theorem settles_addchar (c : UInt8) (p : Printer) : Settles (addchar size p c) := by
  have hpos : (p.pos + 1) % wordCount < wordCount := Nat.mod_lt _ (by decide)
  rw [Settles, addchar]
  split
  · rw [store]
    split
    · exact settles_ok.mpr hpos
    · exact settles_error.mpr rfl
  · exact settles_ok.mpr hpos

theorem settles_addchars (chars : List UInt8) : ∀ {p : Printer}, p.pos < wordCount →
    Settles (addchars size chars p) := by
  induction chars with
  | nil =>
      intro p hpos
      exact settles_ok.mpr hpos
  | cons c chars ih =>
      intro p _
      exact ensures_bind (settles_addchar c p) fun q hq => ih hq

/-- A directive goes on behind its conversion. -/
theorem directive_settles (size : ℕ) {c : ℕ} {d : Directive} {more : List UInt8}
    (hterminated : Terminated src) (hpos : p.pos < wordCount)
    (hbytes : BytesAt src.format c (d.front ++ d.conversion :: more))
    (hdigits : d.digits.length < wordCount) :
    Ensures (· = .outOfBounds) (directive src size c p) fun result =>
      result.1 = c + d.front.length ∧ result.2.pos < wordCount := by
  obtain ⟨args, chars, hfield, hargs⟩ := hterminated.exists_field d.conversion p.ap
  rw [directive_eq hbytes hdigits hfield hargs hpos]
  refine ensures_bind (settles_addchars chars hpos) fun first hfirst => ?_
  have hpadded : Settles (if d.left then
        addchars size (List.replicate (d.spaces chars) (ascii ' ')) first
      else addchars size (d.padBy (d.spaces chars) chars)
        ((first.rewind p).advance (args.length - ([] : List Arg).length))) := by
    split
    · exact settles_addchars _ hfirst
    · exact settles_addchars _ hpos
  exact ensures_bind hpadded fun q hq => ensures_ok.mpr ⟨rfl, hq⟩

/-- The characters of the width end in front of the index that the loop returns. -/
theorem widthReads_le {format : ℕ → UInt8} : ∀ {fuel c : ℕ} {pad pad' : BitVec 32} {stop : ℕ},
    widthLoop format fuel c pad = .ok (stop, pad') → ∀ i ∈ widthReads format fuel c, i ≤ stop := by
  intro fuel
  induction fuel with
  | zero =>
      intro c pad pad' stop _ i hi
      cases hi
  | succ fuel ih =>
      intro c pad pad' stop hread
      rw [widthLoop] at hread
      rw [widthReads, List.forall_mem_cons]
      by_cases hdigit : IsDigit (format c)
      · rw [if_pos hdigit] at hread ⊢
        have hrest := ih hread
        refine ⟨?_, hrest⟩
        cases fuel with
        | zero => cases hread
        | succ fuel =>
            have hnext := hrest (c + 1) (by rw [widthReads]; exact List.mem_cons_self)
            omega
      · rw [if_neg hdigit] at hread ⊢
        obtain ⟨rfl, -⟩ := Prod.mk.inj (Except.ok.inj hread)
        exact ⟨le_rfl, by simp⟩

theorem directiveReads_le {format : ℕ → UInt8} {c : ℕ} {d : Directive} {more : List UInt8}
    (hbytes : BytesAt format c (d.front ++ d.conversion :: more))
    (hdigits : d.digits.length < wordCount) :
    ∀ i ∈ directiveReads format c, i ≤ c + d.front.length := by
  obtain ⟨hflag, hread, -⟩ := read_directive hbytes hdigits
  have hstart : (if format c ≠ ascii '-' then c else c + 1) = if d.left = false then c else c + 1 :=
    if_congr hflag rfl rfl
  simp only [directiveReads, hstart, hread]
  rw [List.cons_append, List.forall_mem_cons, List.forall_mem_append, List.forall_mem_singleton]
  exact ⟨Nat.le_add_right _ _, widthReads_le hread, le_rfl⟩

/-- The scan of complete items stops at the terminator. -/
theorem formatReads_le (hterminated : Terminated src) (items : List Item) :
    ∀ {fuel c : ℕ} {p : Printer}, p.pos < wordCount →
      BytesAt src.format c (text items ++ [0]) → (text items).length < wordCount →
      (text items).length < fuel →
      (∀ i ∈ formatReads src size fuel c p, i ≤ c + (text items).length) ∧
        Settles (formatLoop src size fuel c p) := by
  induction items with
  | nil =>
      intro fuel c p hpos hbytes _ hfuel
      obtain ⟨fuel, rfl⟩ := Nat.exists_eq_succ_of_ne_zero (Nat.ne_zero_of_lt hfuel)
      have hend : src.format c = 0 := (bytesAt_cons.mp hbytes).1
      rw [formatReads, formatLoop, if_pos hend, if_pos hend, List.forall_mem_singleton]
      exact ⟨le_rfl, settles_ok.mpr hpos⟩
  | cons item items ih =>
      intro fuel c p hpos hbytes hlength hfuel
      obtain ⟨fuel, rfl⟩ := Nat.exists_eq_succ_of_ne_zero (Nat.ne_zero_of_lt hfuel)
      cases item with
      | literal char =>
          rw [text, List.cons_append, bytesAt_cons] at hbytes
          obtain ⟨hc, hrest⟩ := hbytes
          rw [text, List.length_cons] at hlength hfuel ⊢
          rw [formatReads, formatLoop, hc, if_neg char.property.1, if_neg char.property.1,
            if_neg char.property.2, if_neg char.property.2, List.forall_mem_cons]
          have hadd := @settles_addchar size char.val p
          cases hq : addchar size p char.val with
          | error fault =>
              rw [hq] at hadd
              exact ⟨⟨Nat.le_add_right _ _, by simp⟩, hadd⟩
          | ok q =>
              rw [hq] at hadd
              obtain ⟨hreads, hsettles⟩ :=
                @ih fuel (c + 1) q (settles_ok.mp hadd) hrest (by omega) (by omega)
              refine ⟨⟨Nat.le_add_right _ _, fun i hi => ?_⟩, hsettles⟩
              have hi' := hreads i hi
              omega
      | directive d =>
          rw [text, List.cons_append, bytesAt_cons, List.append_assoc, List.cons_append] at hbytes
          obtain ⟨hpercent, hbytes⟩ := hbytes
          rw [text, List.length_cons, List.length_append, List.length_cons] at hlength hfuel ⊢
          have hfront := length_front d
          have hnull : ascii '%' ≠ 0 := by decide
          have hdirective := directive_settles size hterminated hpos hbytes (by omega)
          have hscan := directiveReads_le hbytes (by omega)
          rw [formatReads, formatLoop, hpercent, if_neg hnull, if_neg hnull, if_pos rfl,
            if_pos rfl, List.forall_mem_cons, List.forall_mem_append]
          have hscan' : ∀ i ∈ directiveReads src.format (c + 1),
              i ≤ c + (d.front.length + ((text items).length + 1) + 1) := by
            intro i hi
            have hi' := hscan i hi
            omega
          cases hresult : directive src size (c + 1) p with
          | error fault =>
              rw [hresult, ensures_error] at hdirective
              exact ⟨⟨Nat.le_add_right _ _, hscan', by simp⟩, settles_error.mpr hdirective⟩
          | ok result =>
              obtain ⟨conversion, q⟩ := result
              rw [hresult] at hdirective
              obtain ⟨hconversion, hq⟩ := ensures_ok.mp hdirective
              have hrest := (bytesAt_cons.mp (bytesAt_append.mp hbytes).2).2
              rw [← hconversion] at hrest
              obtain ⟨hreads, hsettles⟩ :=
                @ih fuel (conversion + 1) q hq hrest (by omega) (by omega)
              refine ⟨⟨Nat.le_add_right _ _, hscan', fun i hi => ?_⟩, hsettles⟩
              have hi' := hreads i hi
              dsimp only at hconversion
              omega

/-! ## Formats that end in a directive that is cut off -/

/-- Where nothing is stored, nothing can go wrong. -/
theorem addchars_zero (chars : List UInt8) : ∀ {p : Printer}, p.pos < wordCount →
    ∃ q, addchars 0 chars p = .ok q ∧ q.pos < wordCount := by
  induction chars with
  | nil =>
      intro p hpos
      exact ⟨p, rfl, hpos⟩
  | cons c chars ih =>
      intro p _
      have hadd : addchar 0 p c = .ok { p with pos := (p.pos + 1) % wordCount } := by
        rw [addchar, if_neg (Nat.not_lt_zero _)]
        rfl
      rw [addchars, hadd, ok_bind]
      exact ih (Nat.mod_lt _ (by decide))

theorem directive_zero {c : ℕ} {d : Directive} {more : List UInt8}
    (hterminated : Terminated src) (hpos : p.pos < wordCount)
    (hbytes : BytesAt src.format c (d.front ++ d.conversion :: more))
    (hdigits : d.digits.length < wordCount) :
    ∃ q, directive src 0 c p = .ok (c + d.front.length, q) ∧ q.pos < wordCount := by
  obtain ⟨args, chars, hfield, hargs⟩ := hterminated.exists_field d.conversion p.ap
  rw [directive_eq hbytes hdigits hfield hargs hpos]
  obtain ⟨first, hfirst, hfirstPos⟩ := @addchars_zero chars
    (p.advance (args.length - [].length)) hpos
  rw [hfirst, ok_bind]
  cases d.left with
  | true =>
      obtain ⟨q, hq, hqPos⟩ := addchars_zero (List.replicate (d.spaces chars) (ascii ' ')) hfirstPos
      rw [if_pos rfl, hq]
      exact ⟨q, rfl, hqPos⟩
  | false =>
      obtain ⟨q, hq, hqPos⟩ := @addchars_zero (d.padBy (d.spaces chars) chars)
        ((first.rewind p).advance (args.length - [].length)) hpos
      rw [if_neg (by simp), hq]
      exact ⟨q, rfl, hqPos⟩

/-- The scan of items goes on behind them. -/
theorem mem_formatReads (hterminated : Terminated src) (items : List Item) :
    ∀ {fuel c : ℕ} {p : Printer}, p.pos < wordCount → BytesAt src.format c (text items) →
      (text items).length ≤ wordCount → items.length < fuel →
      c + (text items).length ∈ formatReads src 0 fuel c p := by
  induction items with
  | nil =>
      intro fuel c p _ _ _ hfuel
      obtain ⟨fuel, rfl⟩ := Nat.exists_eq_succ_of_ne_zero (Nat.ne_zero_of_lt hfuel)
      rw [formatReads]
      exact List.mem_cons_self
  | cons item items ih =>
      intro fuel c p hpos hbytes hlength hfuel
      obtain ⟨fuel, rfl⟩ := Nat.exists_eq_succ_of_ne_zero (Nat.ne_zero_of_lt hfuel)
      rw [List.length_cons] at hfuel
      rw [formatReads]
      refine List.mem_cons_of_mem _ ?_
      cases item with
      | literal char =>
          rw [text, bytesAt_cons] at hbytes
          obtain ⟨hc, hrest⟩ := hbytes
          rw [text, List.length_cons] at hlength ⊢
          obtain ⟨q, hq, hqPos⟩ := addchars_zero [char.val] hpos
          rw [addchars_singleton] at hq
          have hmem := @ih fuel (c + 1) q hqPos hrest (by omega) (by omega)
          rw [hc, if_neg char.property.1, if_neg char.property.2, hq,
            show c + ((text items).length + 1) = c + 1 + (text items).length by omega]
          exact hmem
      | directive d =>
          rw [text, bytesAt_cons] at hbytes
          obtain ⟨hpercent, hbytes⟩ := hbytes
          rw [text, List.length_cons, List.length_append, List.length_cons] at hlength ⊢
          have hfront := length_front d
          have hnull : ascii '%' ≠ 0 := by decide
          obtain ⟨q, hq, hqPos⟩ := directive_zero hterminated hpos hbytes (by omega)
          have hrest := (bytesAt_cons.mp (bytesAt_append.mp hbytes).2).2
          have hnext : c + (d.front.length + ((text items).length + 1) + 1) =
              c + 1 + d.front.length + 1 + (text items).length := by omega
          have hmem := @ih fuel (c + 1 + d.front.length + 1) q hqPos hrest (by omega) (by omega)
          rw [hpercent, if_neg hnull, if_pos rfl, hq, hnext]
          exact List.mem_append_right _ hmem

theorem length_le_text (items : List Item) : items.length ≤ (text items).length := by
  induction items with
  | nil => exact le_rfl
  | cons item items ih =>
      cases item with
      | literal char =>
          rw [text, List.length_cons, List.length_cons]
          exact Nat.succ_le_succ ih
      | directive d =>
          rw [text, List.length_cons, List.length_cons, List.length_append, List.length_cons]
          omega

theorem terminate_settles (hpos : p.pos < wordCount) : Settles (terminate size p) := by
  rw [terminate]
  split
  · split
    · rw [store]
      split
      · exact settles_ok.mpr hpos
      · exact settles_error.mpr rfl
    · rw [store]
      split
      · exact settles_ok.mpr hpos
      · exact settles_error.mpr rfl
  · exact settles_ok.mpr hpos

/-- `vsnprintf` reads nothing behind the terminator of its format, and no loop of it goes on for
ever, exactly where the format consists of literal characters and complete directives. -/
theorem vsnprintf_reads_iff {chars : List UInt8} (htext : 0 ∉ chars)
    (hlength : chars.length < wordCount) :
    (∀ (str : ℕ → UInt8) (size : ℕ) (src : Source), BytesAt src.format 0 (chars ++ [0]) →
      Terminated src →
      (∀ i ∈ formatReads src size wordCount 0 ⟨str, 0, 0⟩, i ≤ chars.length) ∧
        vsnprintf str size src ≠ .error .diverges) ↔ ∃ items, chars = text items := by
  constructor
  · intro hreads
    obtain ⟨items, tail, hcut, hcomplete⟩ := Classical.choice (exists_reading chars htext)
    cases tail with
    | none => exact ⟨items, by rw [hcomplete, Option.elim_none, List.append_nil]⟩
    | some d =>
        -- the terminator is the conversion of the last directive
        have hall : text (items ++ [Item.directive d]) = chars ++ [0] := by
          rw [text_append, hcomplete, Option.elim_some, text, text, hcut d rfl]
          simp
        have hpercent : (items ++ [Item.directive d]).length < wordCount := by
          have hitems := length_le_text items
          have htextLength := congrArg List.length hall
          rw [text_append, text, text, List.length_append, List.length_cons, List.length_append,
            List.length_append, List.length_singleton, List.length_singleton] at htextLength
          rw [List.length_append, List.length_singleton]
          omega
        have hmem := @mem_formatReads ⟨ofList (chars ++ [0]), fun _ => 0, fun _ => 0⟩
          (fun _ => ⟨0, by decide, rfl⟩) (items ++ [Item.directive d]) wordCount 0
          ⟨fun _ => 0, 0, 0⟩ (by decide) (by rw [hall]; exact bytesAt_ofList _)
          (by rw [hall, List.length_append, List.length_singleton]; exact hlength) hpercent
        have hle := (hreads _ 0 _ (bytesAt_ofList _) fun _ => ⟨0, by decide, rfl⟩).1 _ hmem
        rw [hall, Nat.zero_add, List.length_append, List.length_singleton] at hle
        exact absurd hle (Nat.not_succ_le_self _)
  · rintro ⟨items, rfl⟩ str size src hformat hterminated
    obtain ⟨hreads, hsettles⟩ := @formatReads_le src size hterminated items wordCount 0 ⟨str, 0, 0⟩
      (show 0 < wordCount by decide) hformat hlength hlength
    rw [Nat.zero_add] at hreads
    refine ⟨hreads, fun hdiverges => ?_⟩
    have hreturns : Ensures (· = Fault.outOfBounds) (vsnprintf str size src) fun _ => True :=
      ensures_bind hsettles fun p hp =>
        ensures_bind (terminate_settles hp) fun _ _ => ensures_ok.mpr trivial
    rw [hdiverges] at hreturns
    cases ensures_error.mp hreturns

/-- The format `"%d"`. -/
theorem vsnprintf_reads_decimal :
    (∀ (str : ℕ → UInt8) (size : ℕ) (src : Source),
      BytesAt src.format 0 ([ascii '%', ascii 'd'] ++ [0]) → Terminated src →
      (∀ i ∈ formatReads src size wordCount 0 ⟨str, 0, 0⟩, i ≤ [ascii '%', ascii 'd'].length) ∧
        vsnprintf str size src ≠ .error .diverges) ↔
      ∃ items, [ascii '%', ascii 'd'] = text items :=
  vsnprintf_reads_iff (by decide) (by decide)

/-- For the format `"%"` the character behind the terminator is read. -/
theorem vsnprintf_overreads :
    BytesAt (ofList [ascii '%', 0]) 0 ([ascii '%'] ++ [0]) ∧
      Terminated ⟨ofList [ascii '%', 0], fun _ => 0, fun _ => 0⟩ ∧
      2 ∈ formatReads ⟨ofList [ascii '%', 0], fun _ => 0, fun _ => 0⟩ 8 wordCount 0
        ⟨fun _ => 0, 0, 0⟩ :=
  ⟨bytesAt_ofList _, fun _ => ⟨0, by decide, rfl⟩, by decide⟩

end Rhythmos.Libc.Printf
