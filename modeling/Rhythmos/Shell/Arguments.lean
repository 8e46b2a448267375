import Rhythmos.Libc.Tokens
import Rhythmos.Shell.Objects

/-!
# The arguments of a command

`parse_command`, of which `dsh.c`, `sh.c` and `fstool.c` have a copy each.  The line and the array
`argv` are objects of their own; an entry of the array is an index into the line.
-/

namespace Rhythmos.Shell

open Buddy Fallible Objects
open Libc.Tokens (Run runs)

namespace Arguments

/-- The characters `' '` and `'\n'`. -/
def space : UInt8 := 32
def newline : UInt8 := 10

/-! ## The function of `dsh.c`, `sh.c` and `fstool.c` -/

/-- The assignment `argv[argc] = &line[start]`. -/
def setArg (argv : List ℕ) (argc start : ℕ) : Except Fault (List ℕ) :=
  if argc < argv.length then .ok (argv.set argc start) else .error .outOfBounds

def parseLoop (len max : ℕ) :
    ℕ → ℕ → ℕ → ℕ → List UInt8 → List ℕ → Except Fault (ℕ × List UInt8 × List ℕ)
  | 0, _, _, _, _, _ => .error .diverges
  | fuel + 1, pos, start, argc, line, argv =>
      if pos ≤ len then do
        let c ← loadChar line pos
        if newline = c ∨ space = c ∨ pos = len then
          let line ← storeChar line pos 0
          if start < pos ∧ argc + 1 < max then
            let argv ← setArg argv argc start
            parseLoop len max fuel (pos + 1) (pos + 1) (argc + 1) line argv
          else parseLoop len max fuel (pos + 1) (pos + 1) argc line argv
        else parseLoop len max fuel (pos + 1) start argc line argv
      else .ok (argc, line, argv)

/-- The number of arguments, with the line and the array after the call. -/
def parseCommand (line : List UInt8) (argv : List ℕ) (max : ℕ) :
    Except Fault (ℕ × List UInt8 × List ℕ) := do
  let len ← strlen line
  parseLoop len max (len + 2) 0 0 0 line argv

end Arguments

/-- `parse_command` of `dsh.c`. -/
def Dsh.parseCommand := Arguments.parseCommand

/-- `parse_command` of `sh.c`. -/
def Sh.parseCommand := Arguments.parseCommand

/-- `parse_command` of `fstool.c`. -/
def Fstool.parseCommand := Arguments.parseCommand

namespace Arguments

/-! ## The words of a line -/

def separators : List UInt8 := [space, newline]

/-- The word `cur` at `start`, if there is one. -/
def lastWord (start : ℕ) (cur : List UInt8) : List (ℕ × List UInt8) :=
  if cur = [] then [] else [(start, cur)]

/-- The words of the text `cur ++ rest` at `start`, each with its index; there is no separator
in `cur`. -/
def spans (start : ℕ) (cur : List UInt8) : List UInt8 → List (ℕ × List UInt8)
  | [] => lastWord start cur
  | c :: rest =>
      if c ∈ separators then lastWord start cur ++ spans (start + cur.length + 1) [] rest
      else spans start (cur ++ [c]) rest

/-- A separator gives way to a terminator. -/
def clear (c : UInt8) : UInt8 := if c ∈ separators then 0 else c

/-- One word more, unless the array is full. -/
def addArg (max : ℕ) (args : ℕ × List ℕ) (start : ℕ) : ℕ × List ℕ :=
  if args.1 + 1 < max then (args.1 + 1, args.2.set args.1 start) else args

def addArgs (max : ℕ) (args : ℕ × List ℕ) (starts : List ℕ) : ℕ × List ℕ :=
  starts.foldl (addArg max) args

variable {before cur rest tail run : List UInt8} {c : UInt8} {start pos len max argc fuel : ℕ}
  {argv : List ℕ}

theorem mem_separators : c ∈ separators ↔ newline = c ∨ space = c := by
  rw [separators, List.mem_cons, List.mem_singleton, or_comm, eq_comm, eq_comm (a := c)]

theorem map_clear_of_forall (hrun : ∀ c ∈ run, c ∉ separators) : run.map clear = run := by
  refine (List.map_congr_left fun c hc => ?_).trans (List.map_id run)
  exact if_neg (hrun c hc)

theorem length_addArgs (starts : List ℕ) (args : ℕ × List ℕ) :
    (addArgs max args starts).2.length = args.2.length := by
  induction starts generalizing args with
  | nil => rfl
  | cons start starts ih =>
      rw [addArgs, List.foldl_cons]
      refine (ih _).trans ?_
      rw [addArg]
      split
      · exact List.length_set
      · rfl

/-- The words that fit are stored in a row. -/
theorem addArgs_eq (starts : List ℕ) (hargc : argc + 1 ≤ max) (hargv : max ≤ argv.length + 1) :
    (addArgs max (argc, argv) starts).1 = min (argc + starts.length) (max - 1) ∧
      (∀ index, argc ≤ index → index < (addArgs max (argc, argv) starts).1 →
        (addArgs max (argc, argv) starts).2[index]? = starts[index - argc]?) ∧
      ∀ index, index < argc ∨ (addArgs max (argc, argv) starts).1 ≤ index →
        (addArgs max (argc, argv) starts).2[index]? = argv[index]? := by
  induction starts generalizing argc argv with
  | nil =>
      refine ⟨?_, fun index hlow hhigh => absurd hhigh hlow.not_gt, fun _ _ => rfl⟩
      rw [addArgs, List.foldl_nil, List.length_nil]
      omega
  | cons start starts ih =>
      by_cases hfits : argc + 1 < max
      · have hargv' : max ≤ (argv.set argc start).length + 1 := by rwa [List.length_set]
        have hstep : addArgs max (argc, argv) (start :: starts) =
            addArgs max (argc + 1, argv.set argc start) starts := by
          rw [addArgs, List.foldl_cons, addArg, if_pos hfits, addArgs]
        obtain ⟨hcount, hnew, hold⟩ := ih (show argc + 1 + 1 ≤ max from hfits) hargv'
        rw [hstep]
        refine ⟨?_, fun index hlow hhigh => ?_, fun index hindex => ?_⟩
        · rw [hcount, List.length_cons]
          omega
        · rcases Nat.eq_or_lt_of_le hlow with rfl | hlt
          · rw [hold argc (.inl (Nat.lt_succ_self argc)), List.getElem?_set_self (by omega),
              Nat.sub_self, List.getElem?_cons_zero]
          · rw [hnew index hlt hhigh, ← List.getElem?_cons_succ (a := start)]
            congr 1
            omega
        · rw [hold index (by omega), List.getElem?_set_ne (by omega)]
      · have hstep : addArgs max (argc, argv) (start :: starts) =
            addArgs max (argc, argv) starts := by
          rw [addArgs, List.foldl_cons, addArg, if_neg hfits, addArgs]
        obtain ⟨hcount, -, hold⟩ := ih hargc hargv
        rw [hstep]
        refine ⟨?_, fun index hlow hhigh => ?_, hold⟩
        · rw [hcount, List.length_cons]
          omega
        · omega

theorem forall_concat {c : UInt8} (hcur : ∀ c ∈ cur, c ∉ separators) (hc : c ∉ separators) :
    ∀ e ∈ cur ++ [c], e ∉ separators := by
  intro e he
  rcases List.mem_append.mp he with he | he
  · exact hcur e he
  · rwa [List.mem_singleton.mp he]

/-- A character that ends a word. -/
theorem parseLoop_split {line line' : List UInt8} (hle : pos ≤ len)
    (hload : loadChar line pos = .ok c) (hsplit : newline = c ∨ space = c ∨ pos = len)
    (hstore : storeChar line pos 0 = .ok line')
    (hpos : pos = start + cur.length) (hargv : max ≤ argv.length + 1) :
    parseLoop len max (fuel + 1) pos start argc line argv =
      parseLoop len max fuel (pos + 1) (pos + 1)
        (addArgs max (argc, argv) ((lastWord start cur).map Prod.fst)).1 line'
        (addArgs max (argc, argv) ((lastWord start cur).map Prod.fst)).2 := by
  rw [parseLoop, if_pos hle, hload, ok_bind, if_pos hsplit, hstore, ok_bind, lastWord]
  by_cases hempty : cur = []
  · rw [hempty, List.length_nil] at hpos
    rw [if_neg (fun h => h.1.ne' hpos), if_pos hempty]
    rfl
  · have hlength := List.length_pos_iff.mpr hempty
    rw [if_neg hempty, List.map_singleton, addArgs, List.foldl_cons, List.foldl_nil, addArg]
    by_cases hfits : argc + 1 < max
    · rw [if_pos ⟨by omega, hfits⟩, setArg, if_pos (by omega), ok_bind, if_pos hfits]
    · rw [if_neg (fun h => hfits h.2), if_neg hfits]

theorem addArgs_append (args : ℕ × List ℕ) (starts starts' : List ℕ) :
    addArgs max args (starts ++ starts') = addArgs max (addArgs max args starts) starts' :=
  List.foldl_append

theorem parseLoop_eq (before cur : List UInt8) (hcur : ∀ c ∈ cur, c ∉ separators)
    (hstart : start = before.length)
    (hpos : pos = start + cur.length) (hlen : len = pos + rest.length)
    (hfuel : rest.length + 1 < fuel) (hargv : max ≤ argv.length + 1) :
    parseLoop len max fuel pos start argc (before ++ cur ++ (rest ++ 0 :: tail)) argv =
      .ok ((addArgs max (argc, argv) ((spans start cur rest).map Prod.fst)).1,
        before ++ cur ++ (rest.map clear ++ 0 :: tail),
        (addArgs max (argc, argv) ((spans start cur rest).map Prod.fst)).2) := by
  have hend : (before ++ cur).length = pos := by
    rw [List.length_append]
    omega
  induction rest generalizing before cur start pos argc argv fuel with
  | nil =>
      obtain ⟨fuel, rfl⟩ : ∃ fuel', fuel = fuel' + 1 + 1 := ⟨fuel - 2, by
        rw [List.length_nil] at hfuel
        omega⟩
      have hload : loadChar (before ++ cur ++ ([] ++ 0 :: tail)) pos = .ok 0 :=
        (loadChar_of_drop (by rw [← hend, List.drop_left]; rfl)).1
      rw [List.length_nil, Nat.add_zero] at hlen
      rw [parseLoop_split hlen.ge hload (.inr (.inr hlen.symm)) (storeChar_append hend 0 0) hpos
          hargv,
        parseLoop, if_neg (by omega)]
      rfl
  | cons c rest ih =>
      obtain ⟨fuel, rfl⟩ := Nat.exists_eq_succ_of_ne_zero (Nat.ne_zero_of_lt hfuel)
      have hload : loadChar (before ++ cur ++ (c :: rest ++ 0 :: tail)) pos = .ok c :=
        (loadChar_of_drop (by rw [← hend, List.drop_left]; rfl)).1
      rw [List.length_cons] at hlen hfuel
      by_cases hc : c ∈ separators
      · have hstored : storeChar (before ++ cur ++ (c :: rest ++ 0 :: tail)) pos 0 =
            .ok (before ++ cur ++ [0] ++ [] ++ (rest ++ 0 :: tail)) := by
          rw [List.cons_append, storeChar_append hend]
          simp
        have hlength : (before ++ cur ++ [0]).length = pos + 1 := by
          rw [List.length_append, hend]
          rfl
        rw [parseLoop_split (by omega) hload ((mem_separators.mp hc).imp_right .inl) hstored hpos
          hargv, ih (before ++ cur ++ [0]) [] (by simp) hlength.symm
          (Nat.add_zero (pos + 1)).symm (by omega) (by omega)
          (by rwa [length_addArgs]) (by rwa [List.append_nil]), spans, if_pos hc, ← hpos,
          List.map_append, addArgs_append]
        simp [clear, hc]
      · have hword : ¬ (newline = c ∨ space = c ∨ pos = len) := by
          rintro (hnewline | hspace | hlast)
          · exact hc (mem_separators.mpr (.inl hnewline))
          · exact hc (mem_separators.mpr (.inr hspace))
          · omega
        have hpos' : pos + 1 = start + (cur ++ [c]).length := by
          rw [List.length_append, hpos]
          rfl
        have hnext := @ih start (pos + 1) argc fuel argv before (cur ++ [c])
          (forall_concat hcur hc) hstart hpos' (by omega) (by omega) hargv
          (by rw [← List.append_assoc, List.length_append, hend]; rfl)
        rw [parseLoop, if_pos (by omega), hload, ok_bind, if_neg hword, spans, if_neg hc,
          List.cons_append, List.append_cons _ c]
        rw [← List.append_assoc before] at hnext
        rw [hnext]
        simp [clear, hc]

/-! ## What `parse_command` returns -/

open Libc.Tokens (runs_cons runs_of_forall runs_append_cons runs_append_delim
  runs_append_of_getLast)

theorem spans_map_snd (hcur : ∀ c ∈ cur, c ∉ separators) :
    (spans start cur rest).map Prod.snd = runs separators (cur ++ rest) := by
  induction rest generalizing start cur with
  | nil =>
      rw [spans, List.append_nil, lastWord]
      split
      case isTrue hempty =>
          rw [hempty]
          rfl
      case isFalse hne => rw [runs_of_forall hcur hne, List.map_singleton]
  | cons c rest ih =>
      rw [spans]
      by_cases hc : c ∈ separators
      · rw [if_pos hc, List.map_append, ih (by simp), List.nil_append, lastWord]
        split
        case isTrue hempty =>
          rw [hempty, List.nil_append, runs_cons hc, List.map_nil, List.nil_append]
        case isFalse hne =>
          rw [runs_append_cons hcur hne hc, List.map_singleton, List.singleton_append]
      · rw [if_neg hc, ih (forall_concat hcur hc), List.append_assoc, List.singleton_append]

/-- The word that ends in front of some text. -/
theorem lastWord_run (behind : List UInt8) (hcur : ∀ c ∈ cur, c ∉ separators)
    (hbefore : ∀ c ∈ before.getLast?, c ∈ separators) (hbehind : ∀ c ∈ behind.head?, c ∈ separators)
    (hstart : start = before.length) {index p : ℕ}
    (hword : (lastWord start cur)[index]? = some (p, run)) :
    Run separators (before ++ cur ++ behind) before run behind ∧ before.length = p ∧ index = 0 := by
  rw [lastWord] at hword
  split at hword
  case isTrue => cases hword
  case isFalse hne =>
      cases index with
      | zero =>
          obtain ⟨rfl, rfl⟩ := Prod.mk.inj (Option.some.inj hword)
          exact ⟨⟨rfl, hne, hcur, hbefore, hbehind⟩, hstart.symm, rfl⟩
      | succ index => cases hword

/-- Each word is a run of the line, and as many runs stand in front of it as words. -/
theorem spans_run (before cur rest : List UInt8) (hcur : ∀ c ∈ cur, c ∉ separators)
    (hbefore : ∀ c ∈ before.getLast?, c ∈ separators) (hstart : start = before.length)
    {index p : ℕ} (hword : (spans start cur rest)[index]? = some (p, run)) :
    ∃ lead behind, Run separators (before ++ cur ++ rest) lead run behind ∧ lead.length = p ∧
      (runs separators lead).length = (runs separators before).length + index := by
  induction rest generalizing before cur start index with
  | nil =>
      obtain ⟨hrun, hp, rfl⟩ := lastWord_run [] hcur hbefore (by simp) hstart hword
      exact ⟨before, [], hrun, hp, rfl⟩
  | cons c rest ih =>
      rw [spans] at hword
      by_cases hc : c ∈ separators
      · rw [if_pos hc] at hword
        by_cases hfirst : index < (lastWord start cur).length
        · rw [List.getElem?_append_left hfirst] at hword
          obtain ⟨hrun, hp, rfl⟩ := lastWord_run (c :: rest) hcur hbefore
            (by simpa using hc) hstart hword
          exact ⟨before, c :: rest, hrun, hp, rfl⟩
        · rw [List.getElem?_append_right (not_lt.mp hfirst)] at hword
          have hlast : ∀ e ∈ (before ++ cur ++ [c]).getLast?, e ∈ separators := by simpa using hc
          have hcount : (runs separators (before ++ cur ++ [c])).length =
              (runs separators before).length + (lastWord start cur).length := by
            rw [List.append_assoc, runs_append_of_getLast hbefore, List.length_append, lastWord]
            by_cases hempty : cur = []
            · rw [if_pos hempty, hempty, List.nil_append, runs_cons hc]
              rfl
            · rw [if_neg hempty, runs_append_cons hcur hempty hc]
              rfl
          obtain ⟨lead, behind, hrun, hp, hleads⟩ := ih (before ++ cur ++ [c]) [] (by simp) hlast
            (by rw [List.length_append, List.length_append, hstart]; rfl) hword
          rw [List.append_nil, List.append_assoc, List.singleton_append] at hrun
          refine ⟨lead, behind, hrun, hp, ?_⟩
          rw [hleads, hcount]
          omega
      · rw [if_neg hc] at hword
        obtain ⟨lead, behind, hrun, hp, hleads⟩ :=
          ih before (cur ++ [c]) (forall_concat hcur hc) hbefore
          hstart hword
        rw [← List.append_assoc, List.append_assoc, List.singleton_append] at hrun
        exact ⟨lead, behind, hrun, hp, hleads⟩

/-- The terminators make a string of each run. -/
theorem drop_cleared {chars lead behind : List UInt8} (tail : List UInt8)
    (hrun : Run separators chars lead run behind) :
    ∃ rest, (chars.map clear ++ 0 :: tail).drop lead.length = run ++ 0 :: rest := by
  obtain ⟨heq, -, hinside, -, hstop⟩ := hrun
  have hlead : (lead.map clear).length = lead.length := List.length_map clear
  rw [heq, List.map_append, List.map_append, map_clear_of_forall hinside, List.append_assoc,
    List.append_assoc, ← hlead, List.drop_left]
  cases behind with
  | nil => exact ⟨tail, rfl⟩
  | cons c behind =>
      have hc : clear c = 0 := if_pos (hstop c rfl)
      exact ⟨behind.map clear ++ 0 :: tail, by rw [List.map_cons, hc]; rfl⟩

theorem parseCommand_eq {chars : List UInt8} (htext : 0 ∉ chars) (hargv : max ≤ argv.length + 1)
    (tail : List UInt8) :
    parseCommand (chars ++ 0 :: tail) argv max =
      .ok ((addArgs max (0, argv) ((spans 0 [] chars).map Prod.fst)).1,
        chars.map clear ++ 0 :: tail,
        (addArgs max (0, argv) ((spans 0 [] chars).map Prod.fst)).2) := by
  have hloop : parseLoop chars.length max (chars.length + 2) 0 0 0 (chars ++ 0 :: tail) argv =
      .ok ((addArgs max (0, argv) ((spans 0 [] chars).map Prod.fst)).1,
        chars.map clear ++ 0 :: tail,
        (addArgs max (0, argv) ((spans 0 [] chars).map Prod.fst)).2) :=
    parseLoop_eq [] [] (by simp) rfl rfl (Nat.zero_add _).symm (by omega) hargv
  rw [parseCommand, strlen_eq tail htext, ok_bind, hloop]

/-- `parse_command` returns the number of the runs of the line, as far as `argv` has room for them,
and pointers to the runs, each of which has got a terminator; it stores nothing else in `argv`, and
changes nothing of the line but separators.  The three copies are the same function. -/
theorem parseCommand_tokenises {chars : List UInt8} (htext : 0 ∉ chars) (hmax : 1 ≤ max)
    (hargv : max ≤ argv.length + 1) (tail : List UInt8) :
    (∃ line' argv', Dsh.parseCommand (chars ++ 0 :: tail) argv max =
        .ok (min (runs separators chars).length (max - 1), line', argv') ∧
      (∀ i < min (runs separators chars).length (max - 1), ∃ lead run behind rest,
        (runs separators chars)[i]? = some run ∧ Run separators chars lead run behind ∧
          (runs separators lead).length = i ∧ argv'[i]? = some lead.length ∧
          line'.drop lead.length = run ++ 0 :: rest) ∧
      (∀ i, max - 1 ≤ i → argv'[i]? = argv[i]?) ∧
      ∀ i, i ≠ chars.length → (∀ c, chars[i]? = some c → c ∉ separators) →
        line'[i]? = (chars ++ 0 :: tail)[i]?) ∧
    Sh.parseCommand = Dsh.parseCommand ∧ Fstool.parseCommand = Dsh.parseCommand := by
  refine ⟨?_, rfl, rfl⟩
  have hwords : (spans 0 [] chars).map Prod.snd = runs separators chars := spans_map_snd (by simp)
  have hlength : ((spans 0 [] chars).map Prod.fst).length = (runs separators chars).length := by
    rw [← hwords, List.length_map, List.length_map]
  obtain ⟨hcount, hnew, hold⟩ := addArgs_eq ((spans 0 [] chars).map Prod.fst)
    (show 0 + 1 ≤ max from hmax) hargv
  rw [hlength, Nat.zero_add] at hcount
  refine ⟨chars.map clear ++ 0 :: tail, (addArgs max (0, argv) ((spans 0 [] chars).map Prod.fst)).2,
    ?_, fun i hi => ?_, fun i hi => ?_, fun i hi hc => ?_⟩
  · rw [Dsh.parseCommand, parseCommand_eq htext hargv, hcount]
  · have hword : i < (spans 0 [] chars).length := by
      rw [List.length_map] at hlength
      omega
    obtain ⟨lead, behind, hrun, hp, hleads⟩ := spans_run [] [] chars (by simp) (by simp) rfl
      (List.getElem?_eq_getElem hword)
    obtain ⟨rest, hdrop⟩ := drop_cleared tail hrun
    refine ⟨lead, _, behind, rest, ?_, hrun, ?_, ?_, hdrop⟩
    · rw [← hwords, List.getElem?_map, List.getElem?_eq_getElem hword]
      rfl
    · rw [hleads]
      exact Nat.zero_add i
    · rw [hnew i (Nat.zero_le i) (hcount ▸ hi), Nat.sub_zero, List.getElem?_map,
        List.getElem?_eq_getElem hword, hp]
      rfl
  · exact hold i (.inr (hcount ▸ (min_le_right _ _).trans hi))
  · rcases lt_or_gt_of_ne hi with hlt | hgt
    · rw [List.getElem?_append_left (by rwa [List.length_map]), List.getElem?_append_left hlt,
        List.getElem?_map, List.getElem?_eq_getElem hlt, Option.map_some]
      exact congrArg some (if_neg (hc _ (List.getElem?_eq_getElem hlt)))
    · rw [List.getElem?_append_right (by rw [List.length_map]; omega),
        List.getElem?_append_right hgt.le, List.length_map]

/-- The line ` ls\n-l `, and an array for 32 arguments and the `NULL` behind them. -/
theorem parseCommand_tokenises_ls :
    (∃ line' argv', Dsh.parseCommand ([32, 108, 115, 10, 45, 108, 32] ++ 0 :: [])
        (List.replicate 33 0) 32 =
        .ok (min (runs separators [32, 108, 115, 10, 45, 108, 32]).length (32 - 1), line', argv') ∧
      (∀ i < min (runs separators [32, 108, 115, 10, 45, 108, 32]).length (32 - 1),
        ∃ lead run behind rest, (runs separators [32, 108, 115, 10, 45, 108, 32])[i]? = some run ∧
          Run separators [32, 108, 115, 10, 45, 108, 32] lead run behind ∧
          (runs separators lead).length = i ∧ argv'[i]? = some lead.length ∧
          line'.drop lead.length = run ++ 0 :: rest) ∧
      (∀ i, 32 - 1 ≤ i → argv'[i]? = (List.replicate 33 0)[i]?) ∧
      ∀ i, i ≠ ([32, 108, 115, 10, 45, 108, 32] : List UInt8).length →
        (∀ c, ([32, 108, 115, 10, 45, 108, 32] : List UInt8)[i]? = some c → c ∉ separators) →
        line'[i]? = ([32, 108, 115, 10, 45, 108, 32] ++ 0 :: [])[i]?) ∧
    Sh.parseCommand = Dsh.parseCommand ∧ Fstool.parseCommand = Dsh.parseCommand :=
  parseCommand_tokenises (by decide) (by decide) (by decide) []

end Arguments

end Rhythmos.Shell
