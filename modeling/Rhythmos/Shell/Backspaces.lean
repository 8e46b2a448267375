import Rhythmos.Constants
import Rhythmos.Shell.Erasing

/-!
# The backspaces of `sh.c`

`process_line` of `sh.c` rewrites its line in two loops.  Both look at the character behind the one
at `pos`, and so behind the terminator at the end.  The first goes back where two backspaces follow,
and then comes to them again and again; where it copies the line, the second one removes the
backspaces that have enough other characters between them.
-/

namespace Rhythmos.Shell.Sh

open Buddy Editing Fallible Objects
open Erasing (backspace)
open Libc.Tokens (stringAt stringAt_eq)

/-! ## The loops of `process_line` -/

/-- The value `line[pos]`. -/
def loadAt (line : List UInt8) (pos : ℤ) : Except Fault UInt8 :=
  if 0 ≤ pos then loadChar line pos.toNat else .error .outOfBounds

/-- The condition in the first loop. -/
def bothFollow (line : List UInt8) (pos : ℤ) : Except Fault Bool := do
  let next ← loadAt line (pos + 1)
  if next = backspace then
    let second ← loadAt line (pos + 2)
    return decide (second = backspace)
  else return false

/-- The first loop: where `pos` is then, and the character that it copies. -/
def firstStep (line : List UInt8) (pos : ℤ) : Except Fault (ℤ × UInt8) := do
  let both ← bothFollow line pos
  let pos := if both then pos - 3 else pos
  let c ← loadAt line pos
  return (pos, c)

/-- The second loop. -/
def secondStep (line : List UInt8) (pos : ℤ) : Except Fault (ℤ × UInt8) := do
  let next ← loadAt line (pos + 1)
  let pos := if next = backspace then pos + 2 else pos
  let c ← loadAt line pos
  return (pos, c)

/-- Each of the two loops copies characters to `tline`. -/
def copyLoop (step : ℤ → Except Fault (ℤ × UInt8)) (len : ℕ) :
    ℕ → ℤ → ℕ → List UInt8 → Except Fault (ℕ × List UInt8)
  | 0, _, _, _ => .error .diverges
  | fuel + 1, pos, tpos, tline =>
      if pos ≤ len then do
        let (pos, c) ← step pos
        let tline ← storeChar tline tpos c
        copyLoop step len fuel (pos + 1) (tpos + 1) tline
      else .ok (tpos, tline)

/-- `memmove` from one object to another. -/
def memmove (dest src : List UInt8) (n : ℕ) : Except Fault (List UInt8) :=
  if n ≤ dest.length ∧ n ≤ src.length then .ok (src.take n ++ dest.drop n)
  else .error .outOfBounds

variable {P : Type}

/-- A loop over the line, and the two calls behind it.  The loop ends when `tline` is full, at the
latest. -/
def rewrite (lib : Libc P) (step : List UInt8 → ℤ → Except Fault (ℤ × UInt8)) (process : P)
    (line : List UInt8) : Except Fault (List UInt8 × P) := do
  let len ← strlen line
  match ← lib.malloc process bufsize with
  | (none, _) => throw .outOfBounds
  | (some tline, process) =>
      let (tpos, bytes) ← copyLoop (step line) len (bufsize + 1) 0 0 tline.bytes
      let line ← memset line 0 len
      let line ← memmove line bytes tpos
      return (line, process)

/-- The part of `process_line` that rewrites the line. -/
def editLine (lib : Libc P) (process : P) (line : List UInt8) : Except Fault (List UInt8 × P) := do
  let (line, process) ← rewrite lib firstStep process line
  rewrite lib secondStep process line

/-! ## A loop that never ends -/

variable {line tline done free chars text rest : List UInt8} {step : ℤ → Except Fault (ℤ × UInt8)}
  {c old : UInt8} {len fuel tpos : ℕ} {pos pos' : ℤ}

/-- A loop that does not get past some position does not end. -/
theorem copyLoop_stuck (limit : ℤ) (hlimit : limit ≤ len)
    (hstep : ∀ pos pos' c, pos ≤ limit → step pos = .ok (pos', c) → pos' + 1 ≤ limit)
    (hpos : pos ≤ limit) (result : ℕ × List UInt8) :
    copyLoop step len fuel pos tpos tline ≠ .ok result := by
  intro hrun
  induction fuel generalizing pos tpos tline with
  | zero => cases hrun
  | succ fuel ih =>
      rw [copyLoop, if_pos (hpos.trans hlimit)] at hrun
      obtain ⟨⟨pos', c⟩, hc, hrun⟩ := bind_eq_ok.mp hrun
      obtain ⟨tline', -, hrun⟩ := bind_eq_ok.mp hrun
      exact ih (hstep pos pos' c hpos hc) hrun

/-- A turn of a loop that copies a character. -/
theorem copyLoop_step (hpos : pos ≤ len) (hstep : step pos = .ok (pos', c)) :
    copyLoop step len (fuel + 1) pos done.length (done ++ old :: free) =
      copyLoop step len fuel (pos' + 1) (done ++ [c]).length (done ++ [c] ++ free) := by
  rw [copyLoop, if_pos hpos, hstep, ok_bind]
  dsimp only
  rw [storeChar_append rfl, ok_bind, List.length_append, List.append_assoc]
  rfl

/-- The turn that gets to the end of the line is the last one. -/
theorem copyLoop_last (hpos : pos ≤ len) (hstep : step pos = .ok (pos', c))
    (hend : (len : ℤ) ≤ pos')
    (hroom : 0 < free.length) (hfuel : 1 < fuel) : ∃ behind,
      copyLoop step len fuel pos done.length (done ++ free) =
        .ok (done.length + 1, done ++ c :: behind) := by
  obtain ⟨fuel, rfl⟩ : ∃ fuel', fuel = fuel' + 1 + 1 := ⟨fuel - 2, by omega⟩
  obtain ⟨old, behind, rfl⟩ := List.exists_cons_of_length_pos hroom
  refine ⟨behind, ?_⟩
  rw [copyLoop_step hpos hstep, copyLoop, if_neg (by omega), List.length_append, List.append_assoc]
  rfl

theorem loadAt_of_drop {index : ℕ} (h : line.drop index = c :: rest) (hpos : pos = index) :
    loadAt line pos = .ok c := by
  rw [loadAt, if_pos (by omega), hpos, Int.toNat_natCast, (loadChar_of_drop h).1]

/-! ## Where the backspaces stand -/

/-- No backspace stands directly behind another one. -/
def Apart : List UInt8 → Prop
  | [] => True
  | c :: rest => (c = backspace → rest[0]? ≠ some backspace) ∧ Apart rest

/-- No backspace stands directly behind another one, or behind one and another character. -/
def Spread : List UInt8 → Prop
  | [] => True
  | c :: rest =>
      (c = backspace → rest[0]? ≠ some backspace ∧ rest[1]? ≠ some backspace) ∧ Spread rest

/-- The lines of which the two loops make what they should.  The first character of the line is no
backspace, or a second one follows it; and from the second character on the backspaces stand
apart. -/
def Edits (chars : List UInt8) : Prop :=
  (chars[0]? = some backspace → chars[1]? = some backspace) ∧ Spread chars.tail

theorem Spread.apart (h : Spread text) : Apart text := by
  induction text with
  | nil => trivial
  | cons c text ih => exact ⟨fun hc => (h.1 hc).1, ih h.2⟩

theorem exists_pair (h : ¬ Apart text) :
    ∃ before rest, text = before ++ backspace :: backspace :: rest := by
  induction text with
  | nil => exact absurd trivial h
  | cons c text ih =>
      by_cases hrest : Apart text
      · have hpair : c = backspace ∧ text[0]? = some backspace := by
          by_contra hnone
          exact h ⟨fun hc hhead => hnone ⟨hc, hhead⟩, hrest⟩
        obtain ⟨rfl, hhead⟩ := hpair
        cases text with
        | nil => cases hhead
        | cons d text => exact ⟨[], text, by rw [Option.some.inj hhead]; rfl⟩
      · obtain ⟨before, rest, rfl⟩ := ih hrest
        exact ⟨c :: before, rest, rfl⟩

/-! ## The first loop -/

theorem bothFollow_eq {index : ℕ} {next second : UInt8}
    (hline : line.drop (index + 1) = next :: second :: rest) :
    bothFollow line index = .ok (decide (next = backspace ∧ second = backspace)) := by
  rw [bothFollow, loadAt_of_drop hline (by omega), ok_bind]
  by_cases hnext : next = backspace
  · rw [if_pos hnext, loadAt_of_drop (loadChar_of_drop hline).2 (by omega), ok_bind, pure_eq_ok]
    simp only [hnext, true_and]
  · rw [if_neg hnext, pure_eq_ok]
    simp only [hnext, false_and, decide_false]

theorem firstStep_eq {index : ℕ} {next second : UInt8}
    (hline : line.drop index = c :: next :: second :: rest)
    (hpair : ¬ (next = backspace ∧ second = backspace)) :
    firstStep line index = .ok ((index : ℤ), c) := by
  rw [firstStep, bothFollow_eq (loadChar_of_drop hline).2, ok_bind, decide_eq_false hpair]
  dsimp only
  rw [if_neg Bool.false_ne_true, loadAt_of_drop hline rfl]
  rfl

/-- The first three characters from a place in the line on. -/
theorem exists_three (rest : List UInt8) {a b : UInt8} (hab : ¬ (a = backspace ∧ b = backspace))
    (hapart : Apart text.tail) :
    ∃ c next second behind, text ++ 0 :: a :: b :: rest = c :: next :: second :: behind ∧
      ¬ (next = backspace ∧ second = backspace) ∧ text.headD 0 = c := by
  have hzero : (0 : UInt8) ≠ backspace := by decide
  cases text with
  | nil => exact ⟨_, _, _, _, rfl, hab, rfl⟩
  | cons c text =>
      cases text with
      | nil => exact ⟨_, _, _, _, rfl, fun h => hzero h.1, rfl⟩
      | cons d text =>
          cases text with
          | nil => exact ⟨_, _, _, _, rfl, fun h => hzero h.2, rfl⟩
          | cons e text =>
              exact ⟨_, _, _, _, rfl, fun h => hapart.1 h.1 (congrArg some h.2), rfl⟩

theorem Apart.tail (h : Apart text) : Apart text.tail := by
  cases text with
  | nil => trivial
  | cons c text => exact h.2

/-- The first loop copies the line, where it does not go back. -/
theorem first_copies {a b : UInt8} (hab : ¬ (a = backspace ∧ b = backspace)) (index : ℕ)
    (hline : line.drop index = text ++ 0 :: a :: b :: rest) (hlen : index + text.length = len)
    (hapart : Apart text.tail) (hroom : text.length < free.length)
    (hfuel : text.length + 1 < fuel) (done : List UInt8) :
    ∃ behind, copyLoop (firstStep line) len fuel index done.length (done ++ free) =
      .ok ((done ++ text).length + 1, done ++ text ++ 0 :: behind) := by
  induction text generalizing index done free fuel with
  | nil =>
      have hcopy := firstStep_eq (c := 0) hline hab
      rw [List.append_nil]
      rw [List.length_nil] at hlen hroom hfuel
      exact copyLoop_last (by omega) hcopy (by omega) hroom (by omega)
  | cons c text ih =>
      obtain ⟨fuel, rfl⟩ := Nat.exists_eq_succ_of_ne_zero (Nat.ne_zero_of_lt hfuel)
      obtain ⟨old, free, rfl⟩ := List.exists_cons_of_length_pos (Nat.zero_lt_of_lt hroom)
      rw [List.length_cons] at hlen hfuel
      rw [List.length_cons, List.length_cons] at hroom
      obtain ⟨c', next, second, behind, hthree, hpair, hhead⟩ := exists_three rest hab hapart
      obtain rfl : c = c' := hhead
      have hcopy := firstStep_eq (hline.trans hthree) hpair
      have hrest : ∃ behind, copyLoop (firstStep line) len fuel (index + 1 : ℕ) (done ++ [c]).length
          (done ++ [c] ++ free) =
            .ok ((done ++ [c] ++ text).length + 1, done ++ [c] ++ text ++ 0 :: behind) :=
        ih _ (loadChar_of_drop hline).2 (by omega) hapart.tail (Nat.lt_of_succ_lt_succ hroom)
          (by omega) _
      obtain ⟨behind, hrest⟩ := hrest
      refine ⟨behind, ?_⟩
      rw [copyLoop_step (by omega) hcopy, List.append_cons done c text]
      exact hrest

/-! ## The second loop -/

/-- What the second loop makes of a text. -/
def skim : List UInt8 → List UInt8
  | [] => []
  | [c] => [c]
  | [c, d] => if d = backspace then [] else [c, d]
  | c :: d :: e :: rest =>
      if d = backspace then e :: skim rest else c :: skim (d :: e :: rest)

theorem skim_cons (hnext : text[0]? ≠ some backspace) : skim (c :: text) = c :: skim text := by
  cases text with
  | nil => rfl
  | cons d text =>
      have hd : d ≠ backspace := fun h => hnext (congrArg some h)
      cases text with
      | nil => simp only [skim, if_neg hd]
      | cons e text => rw [skim, if_neg hd]

/-- Induction over what the second loop copies. -/
@[elab_as_elim]
theorem skim_induction {motive : List UInt8 → Prop} (nil : motive [])
    (keep : ∀ c text, text[0]? ≠ some backspace → motive text → motive (c :: text))
    (last : ∀ c, motive [c, backspace])
    (skip : ∀ c e text, motive text → motive (c :: backspace :: e :: text))
    (text : List UInt8) : motive text := by
  induction text using skim.induct with
  | case1 => exact nil
  | case2 c => exact keep c [] (by simp) nil
  | case3 c => exact last c
  | case4 c d hd => exact keep c [d] (by simpa using hd) (keep d [] (by simp) nil)
  | case5 c e rest ih => exact skip c e rest ih
  | case6 c d e rest hd ih => exact keep c (d :: e :: rest) (by simpa using hd) ih

theorem skim_skip (c e : UInt8) (text : List UInt8) :
    skim (c :: backspace :: e :: text) = e :: skim text := by
  rw [skim, if_pos rfl]

theorem skim_sublist (text : List UInt8) : (skim text).Sublist text := by
  induction text using skim_induction with
  | nil => exact List.Sublist.refl _
  | keep c text hnext ih =>
      rw [skim_cons hnext]
      exact ih.cons_cons c
  | last c => exact List.nil_sublist _
  | skip c e text ih =>
      rw [skim_skip]
      exact ((ih.cons_cons e).cons _).cons c

theorem secondStep_keep {index : ℕ} {next : UInt8} (hline : line.drop index = c :: next :: rest)
    (hnext : next ≠ backspace) : secondStep line index = .ok ((index : ℤ), c) := by
  rw [secondStep, loadAt_of_drop (loadChar_of_drop hline).2 (by omega), ok_bind]
  dsimp only
  rw [if_neg hnext, loadAt_of_drop hline rfl]
  rfl

theorem secondStep_skip {index : ℕ} {e : UInt8}
    (hline : line.drop index = c :: backspace :: e :: rest) :
    secondStep line index = .ok ((index : ℤ) + 2, e) := by
  have hnext := (loadChar_of_drop hline).2
  rw [secondStep, loadAt_of_drop hnext (by omega), ok_bind]
  dsimp only
  rw [if_pos rfl, loadAt_of_drop (loadChar_of_drop hnext).2 (by omega)]
  rfl

/-- The second loop puts the terminator behind the text, or the second of the two characters
behind the terminator, if the first of them is a backspace. -/
theorem second_copies {a b : UInt8} (index : ℕ)
    (hline : line.drop index = text ++ 0 :: a :: b :: rest) (hlen : index + text.length = len)
    (hroom : text.length < free.length) (hfuel : text.length + 1 < fuel) (done : List UInt8) :
    ∃ last behind, (last = 0 ∨ a = backspace ∧ last = b) ∧
      copyLoop (secondStep line) len fuel index done.length (done ++ free) =
        .ok ((done ++ skim text).length + 1, done ++ skim text ++ last :: behind) := by
  induction text using skim_induction generalizing index done free fuel with
  | nil =>
      rw [List.length_nil] at hlen hroom hfuel
      rw [skim, List.append_nil]
      by_cases ha : a = backspace
      · subst ha
        have hlast : ∃ behind, copyLoop (secondStep line) len fuel index done.length
            (done ++ free) = .ok (done.length + 1, done ++ b :: behind) :=
          copyLoop_last (by omega) (secondStep_skip hline) (by omega) hroom (by omega)
        obtain ⟨behind, hcopy⟩ := hlast
        exact ⟨b, behind, .inr ⟨rfl, rfl⟩, hcopy⟩
      · have hlast : ∃ behind, copyLoop (secondStep line) len fuel index done.length
            (done ++ free) = .ok (done.length + 1, done ++ 0 :: behind) :=
          copyLoop_last (by omega) (secondStep_keep hline ha) (by omega) hroom (by omega)
        obtain ⟨behind, hcopy⟩ := hlast
        exact ⟨0, behind, .inl rfl, hcopy⟩
  | last c =>
      rw [List.length_cons, List.length_singleton] at hlen hroom hfuel
      rw [skim, if_pos rfl, List.append_nil]
      have hlast : ∃ behind, copyLoop (secondStep line) len fuel index done.length
          (done ++ free) = .ok (done.length + 1, done ++ 0 :: behind) :=
        copyLoop_last (by omega) (secondStep_skip hline) (by omega) (by omega) (by omega)
      obtain ⟨behind, hcopy⟩ := hlast
      exact ⟨0, behind, .inl rfl, hcopy⟩
  | keep c text hnext ih =>
      rw [List.length_cons] at hlen hroom hfuel
      obtain ⟨fuel, rfl⟩ := Nat.exists_eq_succ_of_ne_zero (Nat.ne_zero_of_lt hfuel)
      obtain ⟨old, free, rfl⟩ := List.exists_cons_of_length_pos (Nat.zero_lt_of_lt hroom)
      rw [List.length_cons] at hroom
      obtain ⟨next, behind, hbehind, hkeep⟩ : ∃ next behind,
          text ++ 0 :: a :: b :: rest = next :: behind ∧ next ≠ backspace := by
        cases text with
        | nil => exact ⟨_, _, rfl, by decide⟩
        | cons d text => exact ⟨_, _, rfl, fun h => hnext (congrArg some h)⟩
      have hcopy := secondStep_keep (hline.trans (congrArg (c :: ·) hbehind)) hkeep
      have hrest : ∃ last behind, (last = 0 ∨ a = backspace ∧ last = b) ∧
          copyLoop (secondStep line) len fuel (index + 1 : ℕ) (done ++ [c]).length
            (done ++ [c] ++ free) =
          .ok ((done ++ [c] ++ skim text).length + 1, done ++ [c] ++ skim text ++ last :: behind) :=
        ih _ (loadChar_of_drop hline).2 (by omega) (by omega) (by omega) _
      obtain ⟨last, behind, hlast, hrest⟩ := hrest
      refine ⟨last, behind, hlast, ?_⟩
      rw [copyLoop_step (by omega) hcopy, skim_cons hnext, List.append_cons done c (skim text)]
      exact hrest
  | skip c e text ih =>
      rw [List.length_cons, List.length_cons, List.length_cons] at hlen hroom hfuel
      obtain ⟨fuel, rfl⟩ := Nat.exists_eq_succ_of_ne_zero (Nat.ne_zero_of_lt hfuel)
      obtain ⟨old, free, rfl⟩ := List.exists_cons_of_length_pos (Nat.zero_lt_of_lt hroom)
      rw [List.length_cons] at hroom
      have hdrop := (loadChar_of_drop (loadChar_of_drop (loadChar_of_drop hline).2).2).2
      have hrest : ∃ last behind, (last = 0 ∨ a = backspace ∧ last = b) ∧
          copyLoop (secondStep line) len fuel (index + 1 + 1 + 1 : ℕ) (done ++ [e]).length
            (done ++ [e] ++ free) =
          .ok ((done ++ [e] ++ skim text).length + 1, done ++ [e] ++ skim text ++ last :: behind) :=
        ih _ hdrop (by omega) (by omega) (by omega) _
      obtain ⟨last, behind, hlast, hrest⟩ := hrest
      have hpos : (index : ℤ) + 2 + 1 = (index + 1 + 1 + 1 : ℕ) := by omega
      refine ⟨last, behind, hlast, ?_⟩
      rw [copyLoop_step (by omega) (secondStep_skip hline), skim_skip,
        List.append_cons done e (skim text), hpos]
      exact hrest

/-! ## What the second loop makes of a line -/

/-- It applies the backspaces that stand far enough from each other. -/
theorem typeAll_of_spread {kept : List UInt8} (hhead : text[0]? ≠ some backspace)
    (hspread : Spread text) : typeAll backspace kept text = kept ++ skim text := by
  induction text using skim_induction generalizing kept with
  | nil => exact (List.append_nil kept).symm
  | keep c text hnext ih =>
      have hc : c ≠ backspace := fun h => hhead (congrArg some h)
      rw [typeAll_cons hc, ih hnext hspread.2, skim_cons hnext, List.append_assoc]
      rfl
  | last c =>
      have hc : c ≠ backspace := fun h => hhead (congrArg some h)
      rw [typeAll_cons hc, typeAll_cons_del, List.dropLast_concat, skim, if_pos rfl,
        List.append_nil]
      rfl
  | skip c e text ih =>
      have hc : c ≠ backspace := fun h => hhead (congrArg some h)
      obtain ⟨he, hnext⟩ := hspread.2.1 rfl
      have hkept : e ≠ backspace := fun h => he (congrArg some h)
      rw [typeAll_cons hc, typeAll_cons_del, List.dropLast_concat, typeAll_cons hkept,
        ih hnext hspread.2.2.2, skim_skip, List.append_assoc]
      rfl

/-- And where no backspace is left of those that stand apart, they stand far enough. -/
theorem spread_of_notMem (hapart : Apart text) (hskim : backspace ∉ skim text) :
    text[0]? ≠ some backspace ∧ Spread text := by
  induction text using skim_induction with
  | nil => exact ⟨by simp, trivial⟩
  | keep c text hnext ih =>
      rw [skim_cons hnext, List.mem_cons, not_or] at hskim
      have hc : c ≠ backspace := Ne.symm hskim.1
      exact ⟨by simpa using hc, fun h => absurd h hc, (ih hapart.2 hskim.2).2⟩
  | last c =>
      have hc : c ≠ backspace := fun h => hapart.1 h rfl
      exact ⟨by simpa using hc, fun h => absurd h hc, fun _ => ⟨by simp, by simp⟩, trivial⟩
  | skip c e text ih =>
      rw [skim_skip, List.mem_cons, not_or] at hskim
      have hc : c ≠ backspace := fun h => hapart.1 h rfl
      have he : e ≠ backspace := Ne.symm hskim.1
      obtain ⟨hnext, hspread⟩ := ih hapart.2.2.2 hskim.2
      exact ⟨by simpa using hc, fun h => absurd h hc, fun _ => ⟨by simpa using he, hnext⟩,
        fun h => absurd h he, hspread⟩

/-- The first character of a line is never looked at, so a second backspace is taken to erase a
first one. -/
theorem skim_eq_edited_iff (hapart : Apart chars.tail) :
    skim chars = edited backspace chars ↔ Edits chars := by
  by_cases hpair : chars[0]? = some backspace ∧ chars[1]? = some backspace
  · obtain ⟨first, rfl⟩ := List.head?_eq_some_iff.mp (List.head?_eq_getElem?.trans hpair.1)
    obtain ⟨text, rfl⟩ := List.head?_eq_some_iff.mp (List.head?_eq_getElem?.trans hpair.2)
    have hedited : edited backspace (backspace :: backspace :: text) =
        typeAll backspace [] text := by
      rw [edited, typeAll_cons_del, typeAll_cons_del]
      rfl
    rw [hedited]
    cases text with
    | nil => exact iff_of_true rfl ⟨fun _ => rfl, fun _ => ⟨by simp, by simp⟩, trivial⟩
    | cons e text =>
        have he : e ≠ backspace := fun h => hapart.1 rfl (congrArg some h)
        rw [skim_skip, typeAll_cons he]
        constructor
        · intro hsame
          have hskim : backspace ∉ skim text := by
            intro hmem
            have hleft : backspace ∈ typeAll backspace ([] ++ [e]) text :=
              hsame ▸ List.mem_cons_of_mem e hmem
            rcases mem_typeAll hleft with hkept | htext
            · exact he (List.mem_singleton.mp hkept).symm
            · exact htext.2 rfl
          obtain ⟨hnext, hspread⟩ := spread_of_notMem hapart.2.2 hskim
          exact ⟨fun _ => rfl, fun _ => ⟨by simpa using he, hnext⟩, fun h => absurd h he, hspread⟩
        · intro hedits
          rw [typeAll_of_spread (hedits.2.1 rfl).2 hedits.2.2.2]
          rfl
  · constructor
    · intro hsame
      have hskim : backspace ∉ skim chars := hsame ▸ notMem_edited chars
      have hall : Apart chars := by
        cases chars with
        | nil => trivial
        | cons c text =>
            exact ⟨fun hc hnext => hpair ⟨congrArg some hc, hnext⟩, hapart⟩
      obtain ⟨hhead, hspread⟩ := spread_of_notMem hall hskim
      refine ⟨fun h => absurd h hhead, ?_⟩
      cases chars with
      | nil => trivial
      | cons c text => exact hspread.2
    · intro hedits
      have hhead : chars[0]? ≠ some backspace := fun h => hpair ⟨h, hedits.1 h⟩
      have hspread : Spread chars := by
        cases chars with
        | nil => trivial
        | cons c text => exact ⟨fun h => absurd (congrArg some h) hhead, hedits.2⟩
      rw [edited, typeAll_of_spread hhead hspread, List.nil_append]

/-! ## Where the first loop does not end -/

theorem firstStep_le (hstep : firstStep line pos = .ok (pos', c)) : pos' ≤ pos := by
  obtain ⟨both, -, hstep⟩ := bind_eq_ok.mp hstep
  obtain ⟨c', -, hstep⟩ := bind_eq_ok.mp hstep
  obtain ⟨rfl, -⟩ := Prod.mk.inj (Except.ok.inj hstep)
  split
  · omega
  · exact le_rfl

/-- In front of two backspaces the loop goes back. -/
theorem firstStep_lt {index : ℕ} (hline : line.drop (index + 1) = backspace :: backspace :: rest)
    (hstep : firstStep line index = .ok (pos', c)) : pos' < index := by
  rw [firstStep, bothFollow_eq hline, ok_bind, decide_eq_true ⟨rfl, rfl⟩] at hstep
  obtain ⟨c', -, hstep⟩ := bind_eq_ok.mp hstep
  obtain ⟨rfl, -⟩ := Prod.mk.inj (Except.ok.inj hstep)
  rw [if_pos rfl]
  omega

/-- The loop does not get past two backspaces, wherever it begins. -/
theorem first_stuck_at {limit start : ℕ}
    (hpair : line.drop (limit + 1) = backspace :: backspace :: rest) (hlimit : limit ≤ len)
    (hstart : start ≤ limit) (result : ℕ × List UInt8) :
    copyLoop (firstStep line) len fuel start tpos tline ≠ .ok result := by
  refine copyLoop_stuck limit (by omega) ?_ (by omega) result
  intro pos pos' c hpos hstep
  rcases hpos.lt_or_eq with hlt | rfl
  · have := firstStep_le hstep
    omega
  · exact firstStep_lt hpair hstep

theorem first_stuck {behind : List UInt8} (hapart : ¬ Apart chars.tail) (result : ℕ × List UInt8) :
    copyLoop (firstStep (chars ++ behind)) chars.length fuel 0 0 tline ≠ .ok result := by
  obtain ⟨before, rest, htail⟩ := exists_pair hapart
  cases chars with
  | nil => exact absurd trivial hapart
  | cons first text =>
      rw [List.tail_cons] at htail
      have hpair : ((first :: text) ++ behind).drop (before.length + 1) =
          backspace :: backspace :: (rest ++ behind) := by
        rw [htail, List.cons_append, List.drop_succ_cons, List.append_assoc, List.drop_left]
        rfl
      have hlength : before.length ≤ (first :: text).length := by
        rw [htail, List.length_cons, List.length_append]
        omega
      exact first_stuck_at hpair hlength (Nat.zero_le _) result

/-- Nor past the end of a line, if nothing may be read behind the terminator. -/
theorem first_stuck_end (result : ℕ × List UInt8) :
    copyLoop (firstStep (chars ++ [0])) chars.length fuel 0 0 tline ≠ .ok result := by
  refine copyLoop_stuck chars.length le_rfl ?_ (by omega) result
  intro pos pos' c hpos hstep
  rcases hpos.lt_or_eq with hlt | rfl
  · have := firstStep_le hstep
    omega
  · have hend : loadAt (chars ++ [0]) ((chars.length : ℤ) + 1) = .error .outOfBounds := by
      rw [loadAt, if_pos (by omega), loadChar]
      simp
    rw [firstStep, bothFollow, hend, error_bind, error_bind] at hstep
    cases hstep

/-! ## What becomes of a line -/

variable {lib : Libc P}

/-- A loop that copies some text leaves it in the line, which keeps what stands behind it. -/
theorem rewrite_eq (step : List UInt8 → ℤ → Except Fault (ℤ × UInt8)) (hlib : lib.Serves)
    (process : P) (rest : List UInt8) (htext : 0 ∉ chars) {out : List UInt8}
    (hle : out.length ≤ chars.length)
    (hloop : ∀ tline, tline.length = bufsize → ∃ behind,
      copyLoop (step (chars ++ 0 :: rest)) chars.length (bufsize + 1) 0 0 tline =
        .ok (out.length + 1, out ++ 0 :: behind)) :
    ∃ process', rewrite lib step process (chars ++ 0 :: rest) =
      .ok (out ++ 0 :: (List.replicate (chars.length - out.length) 0 ++ rest), process') := by
  obtain ⟨object, process', hmalloc, hsize⟩ := hlib process bufsize
  obtain ⟨behind, hcopy⟩ := hloop object.bytes hsize
  have hmemset : memset (chars ++ 0 :: rest) 0 chars.length =
      .ok (List.replicate chars.length 0 ++ 0 :: rest) := by
    rw [memset, if_pos (by simp), List.drop_left]
  have hmemmove : memmove (List.replicate chars.length 0 ++ 0 :: rest) (out ++ 0 :: behind)
      (out.length + 1) =
        .ok (out ++ 0 :: (List.replicate (chars.length - out.length) 0 ++ rest)) := by
    have hlines : List.replicate chars.length 0 ++ 0 :: rest =
        List.replicate (out.length + 1) 0 ++
          (List.replicate (chars.length - out.length) 0 ++ rest) := by
      rw [List.append_cons, ← List.append_assoc, ← List.replicate_add,
        ← List.replicate_succ' (n := chars.length)]
      congr 2
      omega
    have htake : (out ++ 0 :: behind).take (out.length + 1) = out ++ [0] := by
      rw [List.take_append, List.take_of_length_le (Nat.le_succ _), Nat.add_sub_cancel_left]
      rfl
    rw [memmove, if_pos ⟨by simp; omega, by simp⟩, htake, hlines,
      List.drop_left' List.length_replicate, List.append_assoc]
    rfl
  refine ⟨process', ?_⟩
  rw [rewrite, strlen_eq rest htext, ok_bind, hmalloc, ok_bind]
  simp only [hcopy, ok_bind, hmemset, hmemmove, pure_eq_ok]

theorem rewrite_ne_ok {step : List UInt8 → ℤ → Except Fault (ℤ × UInt8)} (process : P)
    (rest : List UInt8) (htext : 0 ∉ chars)
    (hloop : ∀ tline result,
      copyLoop (step (chars ++ 0 :: rest)) chars.length (bufsize + 1) 0 0 tline ≠ .ok result)
    (result : List UInt8 × P) : rewrite lib step process (chars ++ 0 :: rest) ≠ .ok result := by
  intro hrun
  rw [rewrite, strlen_eq rest htext, ok_bind] at hrun
  obtain ⟨⟨object, process'⟩, -, hrun⟩ := bind_eq_ok.mp hrun
  cases object with
  | none => cases hrun
  | some tline =>
      obtain ⟨copied, hcopy, -⟩ := bind_eq_ok.mp hrun
      exact hloop tline.bytes copied hcopy

/-- Both loops, where the first one comes to its end. -/
theorem editLine_eq (hlib : lib.Serves) (process : P) {a : UInt8} (b : UInt8) (rest : List UInt8)
    (htext : 0 ∉ chars) (hshort : chars.length < bufsize) (ha : a ≠ backspace)
    (hapart : Apart chars.tail) : ∃ behind process',
      editLine lib process (chars ++ 0 :: a :: b :: rest) =
        .ok (skim chars ++ 0 :: behind, process') := by
  obtain ⟨process', hfirst⟩ := rewrite_eq firstStep hlib process (a :: b :: rest) htext
    le_rfl fun tline htline => first_copies (fun h => ha h.1) 0 List.drop_zero (Nat.zero_add _)
      hapart (by omega) (by omega) []
  have hloop : ∀ tline, tline.length = bufsize → ∃ behind,
      copyLoop (secondStep (chars ++ 0 :: a :: b :: rest)) chars.length (bufsize + 1) 0 0 tline =
        .ok ((skim chars).length + 1, skim chars ++ 0 :: behind) := by
    intro tline htline
    have hcopies : ∃ last behind, (last = 0 ∨ a = backspace ∧ last = b) ∧
        copyLoop (secondStep (chars ++ 0 :: a :: b :: rest)) chars.length (bufsize + 1) 0 0 tline =
          .ok ((skim chars).length + 1, skim chars ++ last :: behind) :=
      second_copies 0 List.drop_zero (Nat.zero_add _) (by omega) (by omega) []
    obtain ⟨last, behind, hlast, hcopy⟩ := hcopies
    obtain rfl := hlast.resolve_right fun h => ha h.1
    exact ⟨behind, hcopy⟩
  obtain ⟨process'', hsecond⟩ := rewrite_eq secondStep hlib process' (a :: b :: rest) htext
    (skim_sublist chars).length_le hloop
  rw [Nat.sub_self, List.replicate_zero, List.nil_append] at hfirst
  refine ⟨List.replicate (chars.length - (skim chars).length) 0 ++ a :: b :: rest, process'', ?_⟩
  rw [editLine, hfirst, ok_bind]
  exact hsecond

/-- If nothing may be read behind the terminator, `process_line` edits no line.  If what follows it
may be, and is no backspace, the loops end, with the text that the backspaces leave, exactly where
no backspace from the second character on stands behind another one or behind one and another
character, and the first character is a backspace only if the second is. -/
theorem editLine_edits_iff (hlib : lib.Serves) (process : P) (htext : 0 ∉ chars)
    (hshort : chars.length < bufsize) :
    (∀ line process', editLine lib process (chars ++ [0]) ≠ .ok (line, process')) ∧
      ∀ a b rest, a ≠ backspace → ((∃ line process',
        editLine lib process (chars ++ 0 :: a :: b :: rest) = .ok (line, process') ∧
          stringAt line 0 = edited backspace chars) ↔ Edits chars) := by
  constructor
  · intro line process' hrun
    obtain ⟨first, hfirst, -⟩ := bind_eq_ok.mp hrun
    exact rewrite_ne_ok process [] htext (fun _ => first_stuck_end) first hfirst
  · intro a b rest ha
    by_cases hapart : Apart chars.tail
    · obtain ⟨behind, process', hrun⟩ := editLine_eq hlib process b rest htext hshort ha hapart
      have hskim : 0 ∉ skim chars := fun h => htext ((skim_sublist chars).subset h)
      have hstring : stringAt (skim chars ++ 0 :: behind) 0 = skim chars :=
        stringAt_eq List.drop_zero hskim
      rw [← skim_eq_edited_iff hapart]
      constructor
      · rintro ⟨line, process'', hline, hedited⟩
        obtain ⟨rfl, -⟩ := Prod.mk.inj (Except.ok.inj (hrun.symm.trans hline))
        exact hstring.symm.trans hedited
      · intro hedited
        exact ⟨_, process', hrun, hstring.trans hedited⟩
    · refine iff_of_false ?_ fun hedits => hapart hedits.2.apart
      rintro ⟨line, process', hrun, -⟩
      obtain ⟨first, hfirst, -⟩ := bind_eq_ok.mp hrun
      exact rewrite_ne_ok process _ htext (fun _ => first_stuck hapart) first hfirst

/-- The line `ls`. -/
theorem editLine_edits_ls :
    (∀ line process', editLine bump 0 ([108, 115] ++ [0]) ≠ .ok (line, process')) ∧
      ∀ a b rest, a ≠ backspace → ((∃ line process',
        editLine bump 0 ([108, 115] ++ 0 :: a :: b :: rest) = .ok (line, process') ∧
          stringAt line 0 = edited backspace [108, 115]) ↔ Edits [108, 115]) :=
  editLine_edits_iff bump_serves 0 (by decide) (by decide)

/-- The line `ls` is read behind its terminator; in the line `abcd\b\b` the first loop goes back
from index 3 to index 0, each time it gets there. -/
theorem editLine_fails : editLine bump 0 [108, 115, 0] = .error .outOfBounds ∧
    firstStep [97, 98, 99, 100, 8, 8, 0] 3 = .ok (0, 97) := by
  decide +kernel

end Rhythmos.Shell.Sh
