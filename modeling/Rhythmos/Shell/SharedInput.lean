import Rhythmos.Shell.Backspaces
import Rhythmos.Shell.Input

/-!
# The input of `sh.c`

`process_line` of `sh.c` edits the line where it is, in the buffer of `main`.  Its loops look at
two characters behind the terminator, and these are the beginning of the next line.

If both are backspaces, the first loop does not end.  If only the first one is, the second loop
may put the other one in place of the terminator; then `parse_command` takes what is ahead for a
part of the line, and puts terminators in place of the newlines in it.
-/

namespace Rhythmos.Shell

open Buddy ByteMemory Fallible Objects SplitLines
open Arguments (separators clear)
open Erasing (backspace)

namespace Sh

variable {P : Type}

/-! ## The functions of `sh.c` -/

/-- `MAX_ARGS`. -/
def maxArgs : ℕ := 32

/-- A loop over the line at `start` in `input`, and the two calls behind it.  The loop ends when
`tline` is full, at the latest. -/
def rewriteAt (lib : Libc P) (step : List UInt8 → ℤ → Except Fault (ℤ × UInt8)) (process : P)
    (input : List UInt8) (start : ℕ) : Except Fault (List UInt8 × P) := do
  let stop ← strlenLoop input (input.length + 1) start
  match ← lib.malloc process bufsize with
  | (none, _) => throw .outOfBounds
  | (some tline, process) =>
      let (tpos, bytes) ← copyLoop (step input) stop (tline.bytes.length + 1) start 0 tline.bytes
      let line ← memset (input.drop start) 0 (stop - start)
      let line ← memmove line bytes tpos
      return (input.take start ++ line, process)

/-- `process_line`, as far as it concerns the buffer: `parse_command` is the last to store there,
and puts no more than `MAX_ARGS - 1` pointers into `argv`. -/
def processLine (lib : Libc P) (process : P) (input : List UInt8) (start : ℕ) :
    Except Fault (List UInt8) := do
  let (input, process) ← rewriteAt lib firstStep process input start
  let (input, _) ← rewriteAt lib secondStep process input start
  let (_, line, _) ←
    parseCommand (input.drop start) (List.replicate (maxArgs + 1) 0) maxArgs
  return input.take start ++ line

/-- The branch for a newline.  The state of the heap when `process_line` is called, and whether
it sets `done`, may depend on all the strings that it has got. -/
def endLine (lib : Libc P) (heap : List (List UInt8) → P) (exits : List (List UInt8) → Bool)
    (s : State) : Except Halt State := do
  let input ← store s.input s.pos 0
  let line ← lineAt input inputSize s.linestart
  match processLine lib (heap (s.calls ++ [line])) (Libc.loadBytes input 0 inputSize)
      s.linestart with
  | .error _ => .error (.hung (s.calls ++ [line]))
  | .ok bytes =>
      .ok { s with
        input := Libc.storeBytes input 0 bytes
        linestart := s.pos + 1
        done := s.done || exits (s.calls ++ [line])
        calls := s.calls ++ [line] }

def main (lib : Libc P) (heap : List (List UInt8) → P) (exits : List (List UInt8) → Bool)
    (chunks : List (List UInt8)) (input : Memory) : Except Halt State :=
  mainLoop (endLine lib heap exits) chunks ⟨input, 0, 0, false, []⟩

/-! ## Lines that are stuck, and lines that damage what is ahead -/

/-- The first loop does not end: two backspaces stand behind the first character of the line, or
behind its terminator. -/
def Stuck (cur rest : List UInt8) : Prop :=
  ¬ Apart cur.tail ∨ ∃ more, rest = backspace :: backspace :: more

/-- What is ahead begins with a backspace and another character, which takes the place of the
terminator as the line has no backspaces that would make it shorter; and `parse_command` finds
separators ahead. -/
def Damages (cur rest : List UInt8) : Prop :=
  ∃ b more, rest = backspace :: b :: more ∧ b ≠ backspace ∧ backspace ∉ cur.tail ∧
    ∃ c ∈ rest, c ∈ separators

variable {lib : Libc P} {step : ℤ → Except Fault (ℤ × UInt8)}
  {cur rest more tline out extra bytes before behind input' : List UInt8} {process process' : P}
  {a b c : UInt8} {len fuel tpos tpos' index start : ℕ} {pos : ℤ}

/-- For a line at the beginning of its object these are the loops of `editLine`. -/
theorem rewriteAt_zero (hlib : lib.Serves) (step : List UInt8 → ℤ → Except Fault (ℤ × UInt8))
    (process : P) (line : List UInt8) :
    rewriteAt lib step process line 0 = rewrite lib step process line := by
  obtain ⟨object, process', hmalloc, hsize⟩ := hlib process bufsize
  rw [rewriteAt, rewrite, strlen]
  simp only [hmalloc, ok_bind, hsize, List.drop_zero, List.take_zero, List.nil_append, Nat.sub_zero,
    Nat.cast_zero]

/-! ## Loops with more room -/

theorem storeChar_extend (hstore : storeChar tline index c = .ok bytes) (extra : List UInt8) :
    storeChar (tline ++ extra) index c = .ok (bytes ++ extra) := by
  rw [storeChar] at hstore ⊢
  split at hstore
  case isTrue hbound =>
    obtain rfl := Except.ok.inj hstore
    rw [if_pos (by rw [List.length_append]; omega), List.set_append_left _ _ hbound]
  case isFalse => cases hstore

/-- A loop that ends does the same where `tline` has more room. -/
theorem copyLoop_extend (k : ℕ) (extra : List UInt8)
    (hrun : copyLoop step len fuel pos tpos tline = .ok (tpos', out)) :
    copyLoop step len (fuel + k) pos tpos (tline ++ extra) = .ok (tpos', out ++ extra) := by
  induction fuel generalizing pos tpos tline with
  | zero => cases hrun
  | succ fuel ih =>
      rw [copyLoop] at hrun
      rw [Nat.add_right_comm, copyLoop]
      split at hrun
      case isTrue hpos =>
        obtain ⟨⟨pos', c⟩, hstep, hrun⟩ := bind_eq_ok.mp hrun
        obtain ⟨stored, hstore, hrun⟩ := bind_eq_ok.mp hrun
        rw [if_pos hpos, hstep, ok_bind]
        dsimp only at hstore ⊢
        rw [storeChar_extend hstore extra, ok_bind]
        exact ih hrun
      case isFalse hpos =>
        obtain ⟨rfl, rfl⟩ := Prod.mk.inj (Except.ok.inj hrun)
        rw [if_neg hpos]

/-- So what it has copied is known from loops that have enough room for it. -/
theorem copyLoop_roomy (size : ℕ) (hrun : copyLoop step len fuel pos 0 tline = .ok (tpos, out)) :
    ∃ fuel' free extra, size < free.length ∧ size + 1 < fuel' ∧
      copyLoop step len fuel' pos 0 free = .ok (tpos, out ++ extra) :=
  ⟨fuel + (size + 2), tline ++ List.replicate (size + 1) 0, _, by simp; omega, by omega,
    copyLoop_extend (size + 2) (List.replicate (size + 1) 0) hrun⟩

theorem take_of_append_eq {copied : List UInt8} (htpos : tpos = copied.length)
    (hle : tpos ≤ out.length) (hout : out ++ extra = copied ++ behind) :
    out.take tpos = copied := by
  calc out.take tpos
    _ = (out ++ extra).take tpos := (List.take_append_of_le_length hle).symm
    _ = copied := by rw [hout, htpos, List.take_left]

/-! ## What the loops leave in the buffer -/

/-- A loop over the line, the bytes that it copies, and the buffer with these bytes. -/
theorem rewriteAt_eq_ok {step : List UInt8 → ℤ → Except Fault (ℤ × UInt8)} (htext : 0 ∉ cur)
    (hrun : rewriteAt lib step process (before ++ (cur ++ 0 :: behind)) before.length =
      .ok (input', process')) :
    ∃ tline tpos out, copyLoop (step (before ++ (cur ++ 0 :: behind)))
        (before.length + cur.length) (tline.length + 1) before.length 0 tline = .ok (tpos, out) ∧
      tpos ≤ out.length ∧
      input' = before ++
        (out.take tpos ++ (List.replicate cur.length 0 ++ 0 :: behind).drop tpos) := by
  have hlen : strlenLoop (before ++ (cur ++ 0 :: behind))
      ((before ++ (cur ++ 0 :: behind)).length + 1) before.length =
        .ok (before.length + cur.length) :=
    strlenLoop_eq List.drop_left htext (by simp; omega)
  rw [rewriteAt, hlen, ok_bind] at hrun
  obtain ⟨⟨object, process₁⟩, -, hrun⟩ := bind_eq_ok.mp hrun
  cases object with
  | none => cases hrun
  | some tline =>
      obtain ⟨⟨tpos, out⟩, hcopy, hrun⟩ := bind_eq_ok.mp hrun
      obtain ⟨line₁, hmemset, hrun⟩ := bind_eq_ok.mp hrun
      obtain ⟨line₂, hmemmove, hrun⟩ := bind_eq_ok.mp hrun
      obtain ⟨rfl, -⟩ := Prod.mk.inj (Except.ok.inj hrun)
      rw [List.drop_left, Nat.add_sub_cancel_left, memset, if_pos (by simp), List.drop_left]
        at hmemset
      obtain rfl := Except.ok.inj hmemset
      rw [memmove] at hmemmove
      split at hmemmove
      case isTrue hbounds =>
        obtain rfl := Except.ok.inj hmemmove
        exact ⟨tline.bytes, tpos, out, hcopy, hbounds.2, by rw [List.take_left]⟩
      case isFalse => cases hmemmove

/-- The first loop leaves a line as it is. -/
theorem rewriteAt_first (htext : 0 ∉ cur) (hapart : Apart cur.tail)
    (hab : ¬ (a = backspace ∧ b = backspace))
    (hrun : rewriteAt lib firstStep process (before ++ (cur ++ 0 :: a :: b :: more))
      before.length = .ok (input', process')) :
    input' = before ++ (cur ++ 0 :: a :: b :: more) := by
  obtain ⟨tline, tpos, out, hcopy, hle, rfl⟩ := rewriteAt_eq_ok htext hrun
  obtain ⟨fuel, free, extra, hroom, hfuel, hroomy⟩ := copyLoop_roomy cur.length hcopy
  obtain ⟨last, hcopies⟩ := first_copies hab before.length List.drop_left rfl hapart hroom hfuel []
  obtain ⟨htpos, hout⟩ := Prod.mk.inj (Except.ok.inj (hroomy.symm.trans hcopies))
  rw [List.nil_append, List.append_cons] at hout
  rw [List.nil_append] at htpos
  have hcopied := take_of_append_eq (by simpa using htpos) hle hout
  have hdrop : (List.replicate cur.length 0 ++ 0 :: a :: b :: more).drop tpos =
      a :: b :: more := by
    rw [List.append_cons, List.drop_left' (by simp [htpos])]
  rw [hcopied, hdrop, List.append_assoc]
  rfl

/-- The second loop leaves the text in the line, and behind it the terminator or what it took for
that; the rest of the line is cleared. -/
theorem rewriteAt_second (htext : 0 ∉ cur)
    (hrun : rewriteAt lib secondStep process (before ++ (cur ++ 0 :: a :: b :: more))
      before.length = .ok (input', process')) :
    ∃ last, (last = 0 ∨ a = backspace ∧ last = b) ∧
      input' = before ++ (skim cur ++ last ::
        (List.replicate (cur.length - (skim cur).length) 0 ++ a :: b :: more)) := by
  obtain ⟨tline, tpos, out, hcopy, hle, rfl⟩ := rewriteAt_eq_ok htext hrun
  obtain ⟨fuel, free, extra, hroom, hfuel, hroomy⟩ := copyLoop_roomy cur.length hcopy
  obtain ⟨last, behind, hlast, hcopies⟩ :=
    second_copies before.length List.drop_left rfl hroom hfuel []
  obtain ⟨htpos, hout⟩ := Prod.mk.inj (Except.ok.inj (hroomy.symm.trans hcopies))
  rw [List.nil_append, List.append_cons] at hout
  rw [List.nil_append] at htpos
  have hcopied := take_of_append_eq (by simpa using htpos) hle hout
  have hshort := (skim_sublist cur).length_le
  have hdrop : (List.replicate cur.length 0 ++ 0 :: a :: b :: more).drop tpos =
      List.replicate (cur.length - (skim cur).length) 0 ++ a :: b :: more := by
    have hsplit : List.replicate cur.length (0 : UInt8) ++ [0] = List.replicate tpos 0 ++
        List.replicate (cur.length - (skim cur).length) 0 := by
      rw [← List.replicate_add, ← List.replicate_succ']
      congr 1
      omega
    rw [List.append_cons, hsplit, List.append_assoc, List.drop_left' List.length_replicate]
  refine ⟨last, hlast, ?_⟩
  rw [hcopied, hdrop, List.append_assoc]
  rfl

/-! ## What `parse_command` leaves of it -/

theorem notMem_of_length_skim {text : List UInt8} (hlength : (skim text).length = text.length) :
    backspace ∉ text.tail := by
  induction text using skim_induction with
  | nil => exact List.not_mem_nil
  | keep c text hnext ih =>
      rw [skim_cons hnext, List.length_cons, List.length_cons] at hlength
      have htail := ih (Nat.succ_inj.mp hlength)
      cases text with
      | nil => exact List.not_mem_nil
      | cons d text =>
          rw [List.tail_cons, List.mem_cons, not_or]
          exact ⟨fun h => hnext (congrArg some h.symm), htail⟩
  | last c =>
      rw [skim, if_pos rfl] at hlength
      cases hlength
  | skip c e text ih =>
      have hshort := (skim_sublist text).length_le
      rw [skim_skip, List.length_cons, List.length_cons, List.length_cons, List.length_cons]
        at hlength
      omega

theorem parseCommand_line {chars tail line : List UInt8} {argc : ℕ} {argv : List ℕ}
    (htext : 0 ∉ chars)
    (hrun : parseCommand (chars ++ 0 :: tail) (List.replicate (maxArgs + 1) 0) maxArgs =
      .ok (argc, line, argv)) : line = chars.map clear ++ 0 :: tail := by
  have heq := Arguments.parseCommand_eq htext
    (show maxArgs ≤ (List.replicate (maxArgs + 1) 0).length + 1 by decide) tail
  obtain ⟨-, hline⟩ := Prod.mk.inj (Except.ok.inj (hrun.symm.trans heq))
  exact (Prod.mk.inj hline).1

/-- `parse_command` changes the line only, if what is ahead is not damaged. -/
theorem parseCommand_keeps {last garbage : UInt8} {line : List UInt8} {argc : ℕ} {argv : List ℕ}
    (htext : 0 ∉ cur) (hrest : 0 ∉ rest) (hspared : ¬ Damages cur rest)
    (hlast : last = 0 ∨ ∃ more', rest = backspace :: last :: more' ∧ last ≠ backspace)
    (hrun : parseCommand (skim cur ++ last ::
        (List.replicate (cur.length - (skim cur).length) 0 ++ (rest ++ 0 :: garbage :: more)))
      (List.replicate (maxArgs + 1) 0) maxArgs = .ok (argc, line, argv)) :
    ∃ line', line'.length = cur.length + 1 ∧ line = line' ++ (rest ++ 0 :: garbage :: more) := by
  have hskim : 0 ∉ skim cur := fun hmem => htext ((skim_sublist cur).subset hmem)
  have hshort := (skim_sublist cur).length_le
  by_cases hzero : last = 0
  · subst hzero
    refine ⟨(skim cur).map clear ++
      0 :: List.replicate (cur.length - (skim cur).length) 0, ?_, ?_⟩
    · simp only [List.length_append, List.length_map, List.length_cons, List.length_replicate]
      omega
    · rw [parseCommand_line hskim hrun]
      simp
  · obtain ⟨more', hmore, hne⟩ := hlast.resolve_left hzero
    obtain hlength | ⟨k, hk⟩ : (skim cur).length = cur.length ∨
        ∃ k, cur.length - (skim cur).length = k + 1 :=
      (hshort.eq_or_lt).imp_right fun hlt => ⟨cur.length - (skim cur).length - 1, by omega⟩
    · -- the terminator is gone, but what is ahead has no separators
      have hkept : skim cur = cur := (skim_sublist cur).eq_of_length hlength
      have hwords : ∀ c ∈ rest, c ∉ separators := by
        intro c hc hseparator
        exact hspared ⟨last, more', hmore, hne, notMem_of_length_skim hlength, c, hc, hseparator⟩
      have hchars : 0 ∉ cur ++ last :: rest := by
        rw [List.mem_append, List.mem_cons]
        rintro (h | h | h)
        · exact htext h
        · exact hzero h.symm
        · exact hrest h
      rw [hlength, Nat.sub_self, List.replicate_zero, List.nil_append, hkept, ← List.cons_append,
        ← List.append_assoc] at hrun
      refine ⟨(cur ++ [last]).map clear, by simp, ?_⟩
      rw [parseCommand_line hchars hrun, List.append_cons cur last rest, List.map_append,
        Arguments.map_clear_of_forall hwords, List.append_assoc]
    · have hchars : 0 ∉ skim cur ++ [last] := by
        rw [List.mem_append, List.mem_singleton]
        exact not_or.mpr ⟨hskim, fun h => hzero h.symm⟩
      rw [hk, List.replicate_succ, List.cons_append, List.append_cons] at hrun
      refine ⟨(skim cur ++ [last]).map clear ++ 0 :: List.replicate k 0, ?_, ?_⟩
      · simp only [List.length_append, List.length_map, List.length_cons, List.length_replicate,
          List.length_nil]
        omega
      · rw [parseCommand_line hchars hrun]
        simp

/-! ## A call of `process_line` -/

/-- The first loop does not end on a line that is stuck. -/
theorem rewriteAt_stuck (htext : 0 ∉ cur) (hstuck : Stuck cur rest) :
    rewriteAt lib firstStep process (before ++ (cur ++ 0 :: (rest ++ more))) before.length ≠
      .ok (input', process') := by
  intro hrun
  obtain ⟨tline, tpos, out, hcopy, -⟩ := rewriteAt_eq_ok htext hrun
  rcases hstuck with hapart | ⟨ahead, rfl⟩
  · obtain ⟨front, behind, htail⟩ := exists_pair hapart
    cases cur with
    | nil => exact hapart trivial
    | cons first text =>
        rw [List.tail_cons] at htail
        subst htail
        have hpair : (before ++ (first :: (front ++ backspace :: backspace :: behind) ++
            0 :: (rest ++ more))).drop (before.length + front.length + 1) =
              backspace :: backspace :: (behind ++ 0 :: (rest ++ more)) := by
          rw [Nat.add_assoc, ← List.drop_drop, List.drop_left, List.cons_append,
            List.drop_succ_cons, List.append_assoc, List.drop_left]
          rfl
        refine first_stuck_at hpair ?_ (Nat.le_add_right _ _) (tpos, out) hcopy
        rw [List.length_cons, List.length_append]
        omega
  · have hpair : (before ++ (cur ++ 0 :: (backspace :: backspace :: ahead ++ more))).drop
        (before.length + cur.length + 1) = backspace :: backspace :: (ahead ++ more) := by
      rw [Nat.add_assoc, ← List.drop_drop, List.drop_left, ← List.drop_drop, List.drop_left]
      rfl
    exact first_stuck_at hpair le_rfl (Nat.le_add_right _ _) (tpos, out) hcopy

/-- A call that returns changes the line only, if it does not damage what is ahead. -/
theorem processLine_spec {garbage : UInt8} (htext : 0 ∉ cur) (hrest : 0 ∉ rest)
    (hspared : Stuck cur rest ∨ ¬ Damages cur rest)
    (hrun : processLine lib process (before ++ (cur ++ 0 :: (rest ++ 0 :: garbage :: more)))
      before.length = .ok input') :
    ¬ Stuck cur rest ∧ ∃ line, line.length = cur.length + 1 ∧
      input' = before ++ (line ++ (rest ++ 0 :: garbage :: more)) := by
  obtain ⟨⟨input₁, process₁⟩, hfirst, hrun⟩ := bind_eq_ok.mp hrun
  obtain ⟨⟨input₂, process₂⟩, hsecond, hrun⟩ := bind_eq_ok.mp hrun
  obtain ⟨⟨argc, line, argv⟩, hparse, hreturn⟩ := bind_eq_ok.mp hrun
  obtain rfl := Except.ok.inj hreturn
  have hcomes : ¬ Stuck cur rest := fun hstuck => rewriteAt_stuck htext hstuck hfirst
  refine ⟨hcomes, ?_⟩
  obtain ⟨hapart, hahead⟩ := not_or.mp hcomes
  -- the two characters behind the terminator
  obtain ⟨a, b, behind, hbehind, hlast⟩ : ∃ a b behind,
      rest ++ 0 :: garbage :: more = a :: b :: behind ∧
        (a = backspace → b = 0 ∨ ∃ more', rest = a :: b :: more') := by
    cases rest with
    | nil => exact ⟨0, garbage, more, rfl, fun h => absurd h (by decide)⟩
    | cons a rest =>
        cases rest with
        | nil => exact ⟨a, 0, garbage :: more, rfl, fun _ => .inl rfl⟩
        | cons b rest => exact ⟨a, b, rest ++ 0 :: garbage :: more, rfl, fun _ => .inr ⟨rest, rfl⟩⟩
  have hab : ¬ (a = backspace ∧ b = backspace) := by
    rintro ⟨ha, hb⟩
    rcases hlast ha with hzero | ⟨more', hmore⟩
    · exact absurd (hzero.symm.trans hb) (by decide)
    · exact hahead ⟨more', by rw [hmore, ha, hb]⟩
  rw [hbehind] at hfirst
  obtain rfl := rewriteAt_first htext (not_not.mp hapart) hab hfirst
  obtain ⟨last, hchar, rfl⟩ := rewriteAt_second htext hsecond
  rw [List.drop_left, ← hbehind] at hparse
  have hchar' : last = 0 ∨ ∃ more', rest = backspace :: last :: more' ∧ last ≠ backspace := by
    rcases hchar with hzero | ⟨ha, rfl⟩
    · exact .inl hzero
    · rcases hlast ha with hzero | ⟨more', hmore⟩
      · exact .inl hzero
      · exact .inr ⟨more', ha ▸ hmore, fun hb => hab ⟨ha, hb⟩⟩
  obtain ⟨line', hlength, hline⟩ :=
    parseCommand_keeps htext hrest (hspared.resolve_left hcomes) hchar' hparse
  refine ⟨line', hlength, ?_⟩
  rw [List.take_left, hline]

/-- The whole buffer, with the line and what is ahead. -/
theorem loadBytes_input {input : Memory} {line : List UInt8}
    (hbytes : BytesAt input start line) (hbound : start + line.length < inputSize) :
    ∃ before garbage more, before.length = start ∧
      Libc.loadBytes input 0 inputSize = before ++ (line ++ garbage :: more) := by
  obtain ⟨size, hsize⟩ : ∃ size, inputSize = start + (line.length + (size + 1)) :=
    ⟨inputSize - start - line.length - 1, by omega⟩
  have hmore := Libc.length_loadBytes input (0 + start + line.length) (size + 1)
  obtain ⟨garbage, more, hgarbage⟩ := List.exists_cons_of_length_eq_add_one hmore
  refine ⟨Libc.loadBytes input 0 start, garbage, more, Libc.length_loadBytes _ _ _, ?_⟩
  rw [hsize, Libc.loadBytes_add, Libc.loadBytes_add, hgarbage, Nat.zero_add,
    Libc.loadBytes_bytesAt hbytes]

theorem ends_endLine (lib : Libc P) (heap : List (List UInt8) → P)
    (exits : List (List UInt8) → Bool) :
    Ends exits Stuck Damages False (endLine lib heap exits) := by
  intro s cur rest hs hspared
  obtain ⟨hstore, hline, hbytes⟩ := hs.terminate
  have hpos := hs.pos
  have hbound := hs.bound
  have htext := hs.aheadText
  rw [List.mem_cons, not_or] at htext
  rw [List.length_cons] at hbound
  rw [endLine, hstore, ok_bind, hline, ok_bind]
  obtain ⟨before, garbage, more, hbefore, hinput⟩ := loadBytes_input hbytes (by simp; omega)
  have hsplit : cur ++ 0 :: (rest ++ [0]) ++ garbage :: more =
      cur ++ 0 :: (rest ++ 0 :: garbage :: more) := by simp
  rw [hinput, hsplit, ← hbefore]
  cases hrun : processLine lib (heap (s.calls ++ [cur]))
      (before ++ (cur ++ 0 :: (rest ++ 0 :: garbage :: more))) before.length with
  | error fault => exact ensures_error.mpr ⟨not_false, rfl⟩
  | ok bytes =>
      obtain ⟨hcomes, line, hlength, rfl⟩ := processLine_spec hs.behindText htext.2 hspared hrun
      refine ensures_ok.mpr ⟨hcomes, rfl, rfl, ?_, rfl, rfl⟩
      have hstored := Libc.bytesAt_storeBytes (Function.update s.input s.pos 0) 0
        (before ++ (line ++ (rest ++ 0 :: garbage :: more)))
      rw [bytesAt_append, bytesAt_append, Nat.zero_add, hbefore, hlength, ← Nat.add_assoc, ← hpos]
        at hstored
      obtain ⟨hkept, hend⟩ := bytesAt_append.mp hstored.2.2
      exact bytesAt_append.mpr ⟨hkept, bytesAt_singleton.mpr (bytesAt_cons.mp hend).1⟩

/-! ## Runs of `sh.c` -/

variable {exits : List (List UInt8) → Bool} {heap : List (List UInt8) → P} {s : State}
  {carry consumed chunk : List UInt8}

/-- The conditions on the chunks that the shell reads, until `process_line` sets `done` or does
not return: there is no newline in a chunk when more of its line is behind than fits into half
of the buffer, and no line damages what is ahead of it in its chunk. -/
def MeetsFrom (exits : List (List UInt8) → Bool) : List UInt8 → List (List UInt8) → Prop
  | _, [] => True
  | consumed, chunk :: chunks =>
      stopped exits [] (complete newline consumed) = false →
        (bufsize ≤ (fragment newline consumed).length → newline ∉ chunk) ∧
        SparedIn Stuck Damages (fragment newline consumed) chunk ∧
        (¬ StuckIn Stuck (fragment newline consumed) chunk →
          MeetsFrom exits (consumed ++ chunk) chunks)

/-- Where the conditions are met, the strings that are passed are the first lines of the input. -/
theorem mainLoop_lines (lib : Libc P) (heap : List (List UInt8) → P)
    (chunks : List (List UInt8)) : ∀ {s : State} {carry consumed : List UInt8},
    Follows exits s carry consumed → s.calls = complete newline consumed →
    MeetsFrom exits consumed chunks → (∀ chunk ∈ chunks, Readable chunk) →
    Ensures (fun halt => ∃ calls, halt = .hung calls ∧
        calls <+: complete newline (consumed ++ chunks.flatten))
      (mainLoop (endLine lib heap exits) chunks s)
      fun s' => s'.calls <+: complete newline (consumed ++ chunks.flatten) := by
  induction chunks with
  | nil =>
      intro s carry consumed _ hcalls _ _
      rw [mainLoop, List.flatten_nil, List.append_nil]
      exact ensures_ok.mpr (hcalls ▸ List.prefix_rfl)
  | cons chunk chunks ih =>
      intro s carry consumed hs hcalls hmeets hchunks
      obtain ⟨hchunk, hchunks⟩ := List.forall_mem_cons.mp hchunks
      rw [mainLoop, List.flatten_cons]
      by_cases hdone : s.done = true
      · rw [if_pos hdone, complete_append, ← hcalls]
        exact ensures_ok.mpr (List.prefix_append _ _)
      · rw [hs.done, hcalls, Bool.not_eq_true] at hdone
        obtain ⟨hlong, hspared, hnext⟩ := hmeets hdone
        have hgoes : ¬ s.done = true := by rw [hs.done, hcalls, hdone]; exact Bool.false_ne_true
        -- the rest is all of the line, if the line ends in this chunk
        have hwhole : newline ∉ chunk ∨ carry = fragment newline consumed :=
          or_iff_not_imp_left.mpr fun hline => hs.whole (not_le.mp fun h => hline (hlong h))
        have hspared' : SparedIn Stuck Damages carry chunk :=
          hwhole.elim sparedIn_of_notMem fun hsame => hsame ▸ hspared
        have hsame : complete newline (carry ++ chunk) =
            complete newline (fragment newline consumed ++ chunk) :=
          (complete_inj hs.waiting.open_ (notMem_fragment newline consumed)).mpr hwhole
        have hlines : complete newline (consumed ++ chunk) = complete newline consumed ++
            complete newline (fragment newline consumed ++ chunk) :=
          complete_append consumed chunk
        rw [if_neg hgoes]
        refine ensures_bind (ensures_mono
          (turn_spec (ends_endLine lib heap exits) hs.waiting hchunk hspared') ?_ fun _ h => h) ?_
        · rintro halt ⟨-, count, rfl⟩
          refine ⟨_, rfl, ?_⟩
          rw [hcalls, hsame, ← List.append_assoc, complete_append (consumed ++ chunk), hlines,
            List.append_assoc, List.prefix_append_right_inj]
          exact (List.take_prefix _ _).trans (List.prefix_append _ _)
        · rintro s' ⟨hcomes, hturned⟩
          have hcomes' : ¬ StuckIn Stuck (fragment newline consumed) chunk :=
            hwhole.elim stuckIn_of_notMem fun hsame => hsame ▸ hcomes
          have hcalls' : s'.calls = complete newline (consumed ++ chunk) := by
            rw [hturned.calls, hcalls, hsame, hlines]
          rw [← List.append_assoc]
          exact ih (hs.turned hturned) hcalls' (hnext hcomes') hchunks

/-- A run from the start. -/
theorem main_lines {chunks : List (List UInt8)} (hchunks : ∀ chunk ∈ chunks, Readable chunk)
    (lib : Libc P) (heap : List (List UInt8) → P) (exits : List (List UInt8) → Bool)
    (input : Memory) (hmeets : MeetsFrom exits [] chunks) :
    Ensures (fun halt => ∃ calls, halt = .hung calls ∧ calls <+: complete newline chunks.flatten)
      (main lib heap exits chunks input) fun s => s.calls <+: complete newline chunks.flatten := by
  have hopen : newline ∉ ([] : List UInt8) := List.not_mem_nil
  exact mainLoop_lines lib heap chunks (follows_start exits input)
    (complete_of_notMem hopen).symm hmeets hchunks

end Sh

/-! ## Both shells -/

/-- For every input, the strings that `main` of `dsh.c` passes to `process_line` are complete
lines exactly where no line is ended in a chunk that is read when `BUFSIZE` bytes of it, or more,
are behind; the `n`-th of them is always an end of the `n`-th line.  Those that `main` of `sh.c`
passes are complete lines where moreover no line damages what is ahead of it. -/
theorem mains_pass_lines {chunks : List (List UInt8)}
    (hchunks : ∀ chunk ∈ chunks, Readable chunk) (exits : List (List UInt8) → Bool)
    (input : Memory) :
    (∃ s, main exits chunks input = .ok s ∧
      List.Forall₂ (· <:+ ·) s.calls ((complete newline chunks.flatten).take s.calls.length) ∧
      (s.calls <+: complete newline chunks.flatten ↔ FitsFrom exits [] chunks)) ∧
    ∀ {P : Type} (lib : Libc P) (heap : List (List UInt8) → P), Sh.MeetsFrom exits [] chunks →
      Ensures
        (fun halt => ∃ calls, halt = .hung calls ∧ calls <+: complete newline chunks.flatten)
        (Sh.main lib heap exits chunks input)
        fun s => s.calls <+: complete newline chunks.flatten :=
  ⟨main_lines_iff hchunks exits input, fun lib heap =>
    Sh.main_lines hchunks lib heap exits input⟩

/-- The lines `ls` and `pwd` in one chunk. -/
def twoLines : List (List UInt8) := [[108, 115, 10, 112, 119, 100, 10]]

theorem mains_pass_lines_two :
    (∃ s, main (fun _ => false) twoLines (fun _ => 0) = .ok s ∧
      List.Forall₂ (· <:+ ·) s.calls ((complete newline twoLines.flatten).take s.calls.length) ∧
      (s.calls <+: complete newline twoLines.flatten ↔ FitsFrom (fun _ => false) [] twoLines)) ∧
    Ensures
      (fun halt => ∃ calls, halt = .hung calls ∧ calls <+: complete newline twoLines.flatten)
      (Sh.main bump (fun _ => 0) (fun _ => false) twoLines fun _ => 0)
      fun s => s.calls <+: complete newline twoLines.flatten := by
  have hchunks : ∀ chunk ∈ twoLines, Readable chunk := by
    intro chunk hchunk
    fin_cases hchunk
    exact ⟨by decide, by decide, by decide⟩
  have hmeets : Sh.MeetsFrom (fun _ => false) [] twoLines := by
    refine fun _ => ⟨fun hlong => absurd hlong (by decide), ?_, fun _ => trivial⟩
    have hfirst : ¬ Sh.Damages [108, 115] [112, 119, 100, 10] := by
      rintro ⟨b, more, hrest, -⟩
      cases hrest
    have hsecond : ¬ Sh.Damages [112, 119, 100] [] := by
      rintro ⟨b, more, hrest, -⟩
      cases hrest
    exact .inr ⟨hfirst, .inr ⟨hsecond, trivial⟩⟩
  obtain ⟨hdsh, hsh⟩ := mains_pass_lines hchunks (fun _ => false) fun _ => 0
  exact ⟨hdsh, hsh bump (fun _ => 0) hmeets⟩

/-- The line `ls`, a line that begins with a backspace, and an empty line. -/
def erasedChunks : List (List UInt8) := [[108, 115, 10, 8, 120, 121, 32, 122, 10], [10]]

/-- Of a line that is too long, `main` of `dsh.c` passes the last byte.  The line `ls` damages the
next one, of which `main` of `sh.c` passes the beginning. -/
theorem mains_pass_fragments :
    (∃ s, main (fun _ => false) longChunks (fun _ => 0) = .ok s ∧
      s.calls = [[98]] ∧ [98] ∉ complete newline longChunks.flatten) ∧
    (Sh.main bump (fun _ => 0) (fun _ => false) erasedChunks fun _ => 0).map State.calls =
      .ok [[108, 115], [8, 120, 121]] ∧
    [8, 120, 121] ∉ complete newline erasedChunks.flatten :=
  ⟨main_passes_fragment, by decide +kernel, by decide⟩

end Rhythmos.Shell
