import Mathlib.Data.List.Basic
import Rhythmos.Libc.Printf

/-!
# Splitting strings

`strchr`, `strspn`, `strpbrk` and `strtok` of `libc.c`.  A string is an object of its own that
ends with its terminator; a pointer into it is an index, and every access is checked against it.

`strpbrk` stops at the character `'0'` and not at the terminator, for which `strchr` finds a
match.  So the last token of a string ends the run of `strtok` only where it has a `'0'`.
-/

namespace Rhythmos.Libc.Tokens

open Fallible Printf

/-! ## The functions of `libc.c` -/

def load (object : List UInt8) (index : ℕ) : Except Fault UInt8 :=
  if h : index < object.length then .ok object[index] else .error .outOfBounds

def store (object : List UInt8) (index : ℕ) (c : UInt8) : Except Fault (List UInt8) :=
  if index < object.length then .ok (object.set index c) else .error .outOfBounds

/-- The loop of `strchr`, and what follows it. -/
def strchrLoop (object : List UInt8) (ch : UInt8) : ℕ → ℕ → Except Fault (Option ℕ)
  | 0, _ => .error .diverges
  | fuel + 1, s => do
      let c ← load object s
      if c ≠ 0 then
        if c = ch then return some s
        else strchrLoop object ch fuel (s + 1)
      else return if c = ch then some s else none

/-- Every loop ends at the end of the object at the latest. -/
def strchr (object : List UInt8) (s : ℕ) (ch : UInt8) : Except Fault (Option ℕ) :=
  strchrLoop object ch (object.length + 1) s

/-- The inner loop of `strspn`: the character at which it stops. -/
def acceptLoop (accept : List UInt8) (c : UInt8) : ℕ → ℕ → Except Fault UInt8
  | 0, _ => .error .diverges
  | fuel + 1, a => do
      let e ← load accept a
      if e ≠ 0 ∧ c ≠ e then acceptLoop accept c fuel (a + 1)
      else return e

def strspnLoop (object accept : List UInt8) : ℕ → ℕ → ℕ → Except Fault ℕ
  | 0, _, _ => .error .diverges
  | fuel + 1, p, count => do
      let c ← load object p
      if c = 0 then return count
      else
        let e ← acceptLoop accept c (accept.length + 1) 0
        if e = 0 then return count
        else strspnLoop object accept fuel (p + 1) (count + 1)

def strspn (object : List UInt8) (s : ℕ) (accept : List UInt8) : Except Fault ℕ :=
  strspnLoop object accept (object.length + 1) s 0

/-- The character `'0'`, for which `strpbrk` looks in place of the terminator. -/
def zero : UInt8 := 48

def strpbrkLoop (object accept : List UInt8) : ℕ → ℕ → Except Fault (Option ℕ)
  | 0, _ => .error .diverges
  | fuel + 1, s => do
      let c ← load object s
      if c ≠ zero then
        match ← strchr accept 0 c with
        | none => strpbrkLoop object accept fuel (s + 1)
        | some _ => return some s
      else return none

def strpbrk (object : List UInt8) (s : ℕ) (accept : List UInt8) : Except Fault (Option ℕ) :=
  strpbrkLoop object accept (object.length + 1) s

/-- The string that is being split, and the static pointer `olds` into it. -/
structure Splitter where
  object : List UInt8
  olds : Option ℕ

def strtok (p : Splitter) (s : Option ℕ) (delim : List UInt8) :
    Except Fault (Option ℕ × Splitter) :=
  match s <|> p.olds with
  | none => .ok (none, p)
  | some s => do
      let count ← strspn p.object s delim
      let token := s + count
      let c ← load p.object token
      if c = 0 then return (none, { p with olds := none })
      else
        match ← strpbrk p.object token delim with
        | none => return (some token, { p with olds := none })
        | some s => return (some token, { object := ← store p.object s 0, olds := some (s + 1) })

/-- The string at a pointer. -/
def stringAt (object : List UInt8) (s : ℕ) : List UInt8 := (object.drop s).takeWhile (· ≠ 0)

/-- The strings that `strtok` returns when it is called for `s`, and then for `NULL` until it
returns `NULL`. -/
def tokens (delim : List UInt8) : ℕ → Option ℕ → Splitter → Except Fault (List (List UInt8))
  | 0, _, _ => .error .diverges
  | fuel + 1, s, p => do
      match ← strtok p s delim with
      | (none, _) => return []
      | (some token, p) => return stringAt p.object token :: (← tokens delim fuel none p)

def strtokAll (chars delim : List UInt8) (olds : Option ℕ) : Except Fault (List (List UInt8)) :=
  tokens (delim ++ [0]) (chars.length + 2) (some 0) ⟨chars ++ [0], olds⟩

/-! ## What the functions return -/

/-- The character of the string at which `strpbrk` stops, the terminator included. -/
def stop (accept : List UInt8) : List UInt8 → Option ℕ
  | [] => some 0
  | c :: chars =>
      if c = zero then none
      else if c ∈ accept then some 0
      else (stop accept chars).map (· + 1)

variable {object delim chars : List UInt8}

theorem load_of_drop {s : ℕ} {c : UInt8} (h : object.drop s = c :: chars) :
    load object s = .ok c ∧ object.drop (s + 1) = chars := by
  have hlt : s < object.length := by
    by_contra hle
    simp [List.drop_of_length_le (not_lt.mp hle)] at h
  rw [List.drop_eq_getElem_cons hlt, List.cons.injEq] at h
  exact ⟨by rw [load, dif_pos hlt, h.1], h.2⟩

theorem load_end {s : ℕ} (h : object.drop s = []) : load object s = .error .outOfBounds :=
  dif_neg (not_lt.mpr (List.drop_eq_nil_iff.mp h))

theorem strchrLoop_eq {fuel s : ℕ} (ch : UInt8) (h : object.drop s = chars ++ [0])
    (htext : 0 ∉ chars) (hfuel : chars.length < fuel) :
    strchrLoop object ch fuel s =
      .ok (((chars ++ [0]).findIdx? (· = ch)).map (s + ·)) := by
  induction chars generalizing fuel s with
  | nil =>
      obtain ⟨fuel, rfl⟩ := Nat.exists_eq_succ_of_ne_zero (Nat.ne_zero_of_lt hfuel)
      rw [strchrLoop, (load_of_drop h).1, ok_bind, if_neg (not_not.mpr rfl)]
      by_cases hch : ch = 0
      · simp [hch, pure_eq_ok]
      · simp [Ne.symm hch, pure_eq_ok]
  | cons c chars ih =>
      obtain ⟨fuel, rfl⟩ := Nat.exists_eq_succ_of_ne_zero (Nat.ne_zero_of_lt hfuel)
      obtain ⟨hload, hrest⟩ := load_of_drop h
      have hne : c ≠ 0 := fun h => htext (h ▸ List.mem_cons_self)
      have htail : 0 ∉ chars := fun h => htext (List.mem_cons_of_mem _ h)
      rw [strchrLoop, hload, ok_bind, if_pos hne, List.cons_append, List.findIdx?_cons]
      by_cases hch : c = ch
      · simp [hch, pure_eq_ok]
      · rw [if_neg hch, ih hrest htail (Nat.lt_of_succ_lt_succ hfuel),
          if_neg (by simpa using hch), Option.map_map]
        congr 2
        funext index
        simp only [Function.comp_apply]
        omega

/-- `strchr` finds the terminator as well. -/
theorem strchr_eq (ch : UInt8) (htext : 0 ∉ chars) :
    strchr (chars ++ [0]) 0 ch = .ok ((chars ++ [0]).findIdx? (· = ch)) := by
  rw [strchr, strchrLoop_eq ch List.drop_zero htext (by simp)]
  simp

theorem acceptLoop_eq {fuel a : ℕ} {c : UInt8} (h : object.drop a = chars ++ [0])
    (htext : 0 ∉ chars) (hfuel : chars.length < fuel) :
    acceptLoop object c fuel a = .ok (if c ∈ chars then c else 0) := by
  induction chars generalizing fuel a with
  | nil =>
      obtain ⟨fuel, rfl⟩ := Nat.exists_eq_succ_of_ne_zero (Nat.ne_zero_of_lt hfuel)
      rw [acceptLoop, (load_of_drop h).1, ok_bind]
      simp [pure_eq_ok]
  | cons e chars ih =>
      obtain ⟨fuel, rfl⟩ := Nat.exists_eq_succ_of_ne_zero (Nat.ne_zero_of_lt hfuel)
      obtain ⟨hload, hrest⟩ := load_of_drop h
      have hne : e ≠ 0 := fun h => htext (h ▸ List.mem_cons_self)
      have htail : 0 ∉ chars := fun h => htext (List.mem_cons_of_mem _ h)
      rw [acceptLoop, hload, ok_bind]
      by_cases hce : c = e
      · simp [hce, pure_eq_ok]
      · rw [if_pos ⟨hne, hce⟩, ih hrest htail (Nat.lt_of_succ_lt_succ hfuel)]
        simp [hce]

theorem strspnLoop_eq {fuel p count : ℕ} (hdelim : 0 ∉ delim) (h : object.drop p = chars ++ [0])
    (htext : 0 ∉ chars) (hfuel : chars.length < fuel) :
    strspnLoop object (delim ++ [0]) fuel p count =
      .ok (count + (chars.takeWhile (· ∈ delim)).length) := by
  induction chars generalizing fuel p count with
  | nil =>
      obtain ⟨fuel, rfl⟩ := Nat.exists_eq_succ_of_ne_zero (Nat.ne_zero_of_lt hfuel)
      rw [strspnLoop, (load_of_drop h).1, ok_bind, if_pos rfl]
      rfl
  | cons c chars ih =>
      obtain ⟨fuel, rfl⟩ := Nat.exists_eq_succ_of_ne_zero (Nat.ne_zero_of_lt hfuel)
      obtain ⟨hload, hrest⟩ := load_of_drop h
      have hne : c ≠ 0 := fun h => htext (h ▸ List.mem_cons_self)
      have htail : 0 ∉ chars := fun h => htext (List.mem_cons_of_mem _ h)
      rw [strspnLoop, hload, ok_bind, if_neg hne,
        acceptLoop_eq List.drop_zero hdelim (by simp), ok_bind]
      by_cases hmem : c ∈ delim
      · rw [if_pos hmem, if_neg hne, ih hrest htail (Nat.lt_of_succ_lt_succ hfuel),
          List.takeWhile_cons_of_pos (by simpa using hmem), List.length_cons]
        congr 1
        omega
      · rw [if_neg hmem, if_pos rfl, List.takeWhile_cons_of_neg (by simpa using hmem)]
        rfl

theorem strspn_eq {s : ℕ} (hdelim : 0 ∉ delim) (h : object.drop s = chars ++ [0])
    (htext : 0 ∉ chars) :
    strspn object s (delim ++ [0]) = .ok (chars.takeWhile (· ∈ delim)).length := by
  have hlength := congrArg List.length h
  rw [List.length_drop, List.length_append, List.length_singleton] at hlength
  rw [strspn, strspnLoop_eq hdelim h htext (by omega), Nat.zero_add]

theorem strpbrkLoop_eq {fuel s : ℕ} (hdelim : 0 ∉ delim) (h : object.drop s = chars ++ [0])
    (htext : 0 ∉ chars) (hfuel : chars.length < fuel) :
    strpbrkLoop object (delim ++ [0]) fuel s = .ok ((stop delim chars).map (s + ·)) := by
  induction chars generalizing fuel s with
  | nil =>
      obtain ⟨fuel, rfl⟩ := Nat.exists_eq_succ_of_ne_zero (Nat.ne_zero_of_lt hfuel)
      rw [strpbrkLoop, (load_of_drop h).1, ok_bind, if_pos (by decide), strchr_eq 0 hdelim]
      have hfound : ((delim ++ [0]).findIdx? (· = (0 : UInt8))).isSome := by simp
      obtain ⟨index, hindex⟩ := Option.isSome_iff_exists.mp hfound
      rw [hindex, ok_bind]
      rfl
  | cons c chars ih =>
      obtain ⟨fuel, rfl⟩ := Nat.exists_eq_succ_of_ne_zero (Nat.ne_zero_of_lt hfuel)
      obtain ⟨hload, hrest⟩ := load_of_drop h
      have hne : c ≠ 0 := fun h => htext (h ▸ List.mem_cons_self)
      have htail : 0 ∉ chars := fun h => htext (List.mem_cons_of_mem _ h)
      rw [strpbrkLoop, hload, ok_bind, stop]
      by_cases hzero : c = zero
      · rw [if_neg (not_not.mpr hzero), if_pos hzero]
        rfl
      · rw [if_pos hzero, if_neg hzero, strchr_eq c hdelim, ok_bind]
        by_cases hmem : c ∈ delim
        · have hfound : ((delim ++ [0]).findIdx? (· = c)).isSome := by simp [hmem]
          obtain ⟨index, hindex⟩ := Option.isSome_iff_exists.mp hfound
          rw [hindex, if_pos hmem]
          rfl
        · have hnone : (delim ++ [0]).findIdx? (· = c) = none := by
            rw [List.findIdx?_eq_none_iff]
            intro e he
            have hne' : e ≠ c := by
              rintro rfl
              rcases List.mem_append.mp he with he | he
              · exact hmem he
              · exact hne (List.mem_singleton.mp he)
            simpa using hne'
          rw [hnone, if_neg hmem]
          change strpbrkLoop object (delim ++ [0]) fuel (s + 1) = _
          rw [ih hrest htail (Nat.lt_of_succ_lt_succ hfuel), Option.map_map]
          congr 2
          funext index
          simp only [Function.comp_apply]
          omega

theorem strpbrk_eq {s : ℕ} (hdelim : 0 ∉ delim) (h : object.drop s = chars ++ [0])
    (htext : 0 ∉ chars) :
    strpbrk object s (delim ++ [0]) = .ok ((stop delim chars).map (s + ·)) := by
  have hlength := congrArg List.length h
  rw [List.length_drop, List.length_append, List.length_singleton] at hlength
  exact strpbrkLoop_eq hdelim h htext (by omega)

/-! ## The runs of a string -/

/-- The maximal runs of characters that are not in `delim`. -/
def runs (delim chars : List UInt8) : List (List UInt8) :=
  (chars.splitOnP (· ∈ delim)).filter (· ≠ [])

/-- A maximal run of a string, with what stands before and behind it. -/
structure Run (delim chars before run behind : List UInt8) : Prop where
  eq : chars = before ++ run ++ behind
  nonempty : run ≠ []
  inside : ∀ c ∈ run, c ∉ delim
  start : ∀ c ∈ before.getLast?, c ∈ delim
  stop : ∀ c ∈ behind.head?, c ∈ delim

/-- Where `strtok` finds the end of every run: one that ends the string has a `'0'`, and any
other has none and is not followed by one. -/
def Splits (delim chars : List UInt8) : Prop :=
  ∀ before run behind, Run delim chars before run behind →
    (behind = [] → zero ∈ run) ∧ (behind ≠ [] → zero ∉ run ∧ behind.head? ≠ some zero)

variable {before run behind : List UInt8} {c : UInt8}

theorem runs_cons (hc : c ∈ delim) : runs delim (c :: chars) = runs delim chars := by
  have hsplit := List.splitOnP_append_cons (p := (· ∈ delim)) [] chars (by simpa using hc)
  rw [List.nil_append, List.splitOnP_nil, List.singleton_append] at hsplit
  rw [runs, hsplit, List.filter_cons_of_neg (by simp), runs]

theorem subset_of_mem_runs {delim chars run : List UInt8} (hrun : run ∈ runs delim chars) :
    run ⊆ chars := by
  have hsplit : run ∈ chars.splitOnP (· ∈ delim) := List.mem_of_mem_filter hrun
  clear hrun
  induction chars generalizing run with
  | nil =>
      rw [List.splitOnP_nil, List.mem_singleton] at hsplit
      exact hsplit ▸ List.Subset.refl _
  | cons c chars ih =>
      rw [List.splitOnP_cons_eq_if_modifyHead] at hsplit
      split at hsplit
      · rcases List.mem_cons.mp hsplit with rfl | hrest
        · exact List.nil_subset _
        · exact List.subset_cons_of_subset c (ih hrest)
      · obtain ⟨first, others, heq⟩ :=
          List.exists_cons_of_ne_nil (List.splitOnP_ne_nil (· ∈ delim) chars)
        rw [heq, List.modifyHead_cons] at hsplit
        rcases List.mem_cons.mp hsplit with rfl | hrest
        · exact List.cons_subset_cons c (ih (heq ▸ List.mem_cons_self))
        · exact List.subset_cons_of_subset c (ih (heq ▸ List.mem_cons_of_mem _ hrest))

theorem runs_of_forall (hrun : ∀ c ∈ run, c ∉ delim) (hne : run ≠ []) :
    runs delim run = [run] := by
  rw [runs, List.splitOnP_eq_singleton (by simpa using hrun)]
  simp [hne]

theorem runs_append_cons (hrun : ∀ c ∈ run, c ∉ delim) (hne : run ≠ []) (hc : c ∈ delim) :
    runs delim (run ++ c :: behind) = run :: runs delim behind := by
  rw [runs, List.splitOnP_append_cons_of_forall_mem (by simpa using hrun) c (by simpa using hc),
    List.filter_cons_of_pos (by simpa using hne), runs]

/-- A delimiter divides the runs of a string. -/
theorem runs_append_delim (hc : c ∈ delim) :
    runs delim (before ++ c :: behind) = runs delim before ++ runs delim behind := by
  rw [runs, List.splitOnP_append_cons before behind (by simpa using hc), List.filter_append, runs,
    runs]

theorem runs_append_of_getLast (hbefore : ∀ c ∈ before.getLast?, c ∈ delim) :
    runs delim (before ++ chars) = runs delim before ++ runs delim chars := by
  rcases before.eq_nil_or_concat with rfl | ⟨front, c, rfl⟩
  · rfl
  · have hc : c ∈ delim := hbefore c (by simp)
    have hnil : runs delim [] = [] := by simp [runs]
    rw [List.concat_eq_append, List.append_assoc, List.singleton_append, runs_append_delim hc,
      runs_append_delim hc, hnil, List.append_nil]

/-- Delimiters in front of a string change neither its runs nor what stands behind them. -/
theorem splits_cons_iff (hc : c ∈ delim) : Splits delim (c :: chars) ↔ Splits delim chars := by
  constructor
  · intro hsplits before run behind hrun
    refine hsplits (c :: before) run behind ⟨by rw [hrun.eq]; rfl, hrun.nonempty, hrun.inside, ?_,
      hrun.stop⟩
    intro e he
    cases before with
    | nil =>
        obtain rfl : c = e := by simpa using he
        exact hc
    | cons b before => exact hrun.start e (by simpa using he)
  · intro hsplits before run behind hrun
    cases before with
    | nil =>
        obtain ⟨e, rest, rfl⟩ := List.exists_cons_of_ne_nil hrun.nonempty
        obtain ⟨rfl, -⟩ := List.cons.inj hrun.eq
        exact absurd hc (hrun.inside _ List.mem_cons_self)
    | cons b before =>
        obtain ⟨rfl, heq⟩ := List.cons.inj hrun.eq
        refine hsplits before run behind ⟨heq, hrun.nonempty, hrun.inside, fun e he => ?_,
          hrun.stop⟩
        refine hrun.start e ?_
        cases before with
        | nil => cases he
        | cons b before => simpa using he

theorem splits_nil : Splits delim [] := by
  intro before run behind hrun
  have heq := hrun.eq
  simp only [List.nil_eq, List.append_eq_nil_iff] at heq
  exact absurd heq.1.2 hrun.nonempty

/-- The first run of a string that begins with it. -/
theorem first_run (hrun : ∀ c ∈ run, c ∉ delim) (hbehind : ∀ c ∈ behind.head?, c ∈ delim)
    {run' behind' : List UInt8} (hfirst : Run delim (run ++ behind) [] run' behind') :
    run' = run ∧ behind' = behind := by
  have htake : ∀ {run behind : List UInt8}, (∀ c ∈ run, c ∉ delim) →
      (∀ c ∈ behind.head?, c ∈ delim) → (run ++ behind).takeWhile (· ∉ delim) = run := by
    intro run behind hrun hbehind
    rw [List.takeWhile_append_of_pos (by simpa using hrun)]
    cases behind with
    | nil => simp
    | cons c behind => simp [hbehind c rfl]
  have heq := hfirst.eq
  rw [List.nil_append] at heq
  obtain rfl : run' = run := by
    rw [← htake hfirst.inside hfirst.stop, ← heq, htake hrun hbehind]
  exact ⟨rfl, (List.append_cancel_left heq).symm⟩

theorem splits_append_iff (hrun : ∀ c ∈ run, c ∉ delim) (hne : run ≠ [])
    (hbehind : ∀ c ∈ behind.head?, c ∈ delim) :
    Splits delim (run ++ behind) ↔
      ((behind = [] → zero ∈ run) ∧ (behind ≠ [] → zero ∉ run ∧ behind.head? ≠ some zero)) ∧
        Splits delim behind := by
  constructor
  · intro hsplits
    refine ⟨hsplits [] run behind ⟨rfl, hne, hrun, by simp, hbehind⟩, ?_⟩
    intro before run' behind' hrun'
    refine hsplits (run ++ before) run' behind' ⟨?_, hrun'.nonempty, hrun'.inside, ?_, hrun'.stop⟩
    · rw [hrun'.eq]
      simp
    · intro e he
      cases before with
      | nil =>
          -- a run does not begin behind another one
          obtain ⟨c, rest, rfl⟩ := List.exists_cons_of_ne_nil hrun'.nonempty
          have heq := hrun'.eq
          rw [List.nil_append] at heq
          refine absurd (hbehind c ?_) (hrun'.inside c List.mem_cons_self)
          rw [heq]
          rfl
      | cons b before =>
          rw [List.getLast?_append_of_ne_nil _ (List.cons_ne_nil b before)] at he
          exact hrun'.start e he
  · rintro ⟨hfirst, hrest⟩ before run' behind' hrun'
    have heq := hrun'.eq
    rw [List.append_assoc, List.append_eq_append_iff] at heq
    rcases heq with ⟨lead, hbefore, hbehind'⟩ | ⟨rest, hbefore, -⟩
    · cases lead with
      | nil =>
          rw [List.append_nil] at hbefore
          rw [hbefore] at hrun'
          obtain ⟨e, he⟩ := Option.isSome_iff_exists.mp (List.getLast?_isSome.mpr hne)
          exact absurd (hrun'.start e he) (hrun e (List.mem_of_getLast? he))
      | cons b lead =>
          refine hrest (b :: lead) run' behind'
            ⟨by rw [hbehind', List.append_assoc], hrun'.nonempty, hrun'.inside, ?_, hrun'.stop⟩
          intro e he
          refine hrun'.start e ?_
          rw [hbefore, List.getLast?_append_of_ne_nil _ (List.cons_ne_nil b lead)]
          exact he
    · rcases before.eq_nil_or_concat with rfl | ⟨front, e, rfl⟩
      · obtain ⟨rfl, rfl⟩ := first_run hrun hbehind hrun'
        exact hfirst
      · refine absurd (hrun'.start e (by simp)) (hrun e ?_)
        rw [hbefore]
        simp

/-! ## The calls of `strtok` -/

/-- Delimiters, and then a run, if there is one. -/
theorem exists_run (delim chars : List UInt8) :
    (∀ c ∈ chars, c ∈ delim) ∨ ∃ lead run behind, chars = lead ++ (run ++ behind) ∧
      (∀ c ∈ lead, c ∈ delim) ∧ run ≠ [] ∧ (∀ c ∈ run, c ∉ delim) ∧
        ∀ c ∈ behind.head?, c ∈ delim := by
  induction chars with
  | nil => exact .inl (by simp)
  | cons c chars ih =>
      by_cases hc : c ∈ delim
      · rcases ih with hall | ⟨lead, run, behind, rfl, hlead, hrest⟩
        · exact .inl (List.forall_mem_cons.mpr ⟨hc, hall⟩)
        · exact .inr ⟨c :: lead, run, behind, rfl, List.forall_mem_cons.mpr ⟨hc, hlead⟩, hrest⟩
      · refine .inr ⟨[], (c :: chars).takeWhile (· ∉ delim), (c :: chars).dropWhile (· ∉ delim),
          by rw [List.nil_append, List.takeWhile_append_dropWhile], by simp, ?_, ?_, ?_⟩
        · simp [hc]
        · intro e he
          simpa using List.mem_takeWhile_imp he
        · intro e he
          have hstop := List.head?_dropWhile_not (· ∉ delim) (c :: chars)
          rw [Option.mem_def.mp he] at hstop
          simpa using hstop

theorem runs_append {lead : List UInt8} (hlead : ∀ c ∈ lead, c ∈ delim) :
    runs delim (lead ++ chars) = runs delim chars := by
  induction lead with
  | nil => rfl
  | cons c lead ih =>
      obtain ⟨hc, hlead⟩ := List.forall_mem_cons.mp hlead
      rw [List.cons_append, runs_cons hc, ih hlead]

theorem splits_append {lead : List UInt8} (hlead : ∀ c ∈ lead, c ∈ delim) :
    Splits delim (lead ++ chars) ↔ Splits delim chars := by
  induction lead with
  | nil => rfl
  | cons c lead ih =>
      obtain ⟨hc, hlead⟩ := List.forall_mem_cons.mp hlead
      rw [List.cons_append, splits_cons_iff hc, ih hlead]

/-- Where `strpbrk` stops behind a run. -/
theorem stop_run (hrun : ∀ c ∈ run, c ∉ delim) (hbehind : ∀ c ∈ behind.head?, c ∈ delim) :
    stop delim (run ++ behind) =
      if zero ∈ run ∨ behind.head? = some zero then none else some run.length := by
  induction run with
  | nil =>
      cases behind with
      | nil => rfl
      | cons c behind =>
          rw [List.nil_append, stop]
          by_cases hzero : c = zero
          · simp [hzero]
          · simp [hzero, hbehind c rfl]
  | cons c run ih =>
      obtain ⟨hc, hrun⟩ := List.forall_mem_cons.mp hrun
      rw [List.cons_append, stop, if_neg hc, ih hrun]
      by_cases hzero : c = zero
      · simp [hzero]
      · rw [if_neg hzero]
        by_cases hstop : zero ∈ run ∨ behind.head? = some zero
        · rw [if_pos hstop, if_pos (hstop.imp_left (List.mem_cons_of_mem _))]
          rfl
        · have hstop' : ¬ (zero ∈ c :: run ∨ behind.head? = some zero) := by
            simpa [Ne.symm hzero] using hstop
          rw [if_neg hstop, if_neg hstop']
          rfl

variable {p : Splitter} {s : Option ℕ} {pos : ℕ}

theorem strtok_none (hdelim : 0 ∉ delim) (hpos : (s <|> p.olds) = some pos)
    (hobject : p.object.drop pos = chars ++ [0]) (htext : 0 ∉ chars)
    (hall : ∀ c ∈ chars, c ∈ delim) :
    strtok p s (delim ++ [0]) = .ok (none, { p with olds := none }) := by
  have hspan : chars.takeWhile (· ∈ delim) = chars :=
    List.takeWhile_eq_self_iff.mpr (by simpa using hall)
  have hend : p.object.drop (pos + chars.length) = [0] := by
    rw [← List.drop_drop, hobject, List.drop_left]
  simp only [strtok, hpos]
  rw [strspn_eq hdelim hobject htext, hspan, ok_bind, (load_of_drop hend).1, ok_bind, if_pos rfl]
  rfl

/-- A call that finds a run returns it, with all that stands behind it where `strpbrk` finds no
end. -/
theorem strtok_some {lead : List UInt8} (hdelim : 0 ∉ delim) (hpos : (s <|> p.olds) = some pos)
    (hobject : p.object.drop pos = lead ++ (run ++ behind) ++ [0])
    (htext : 0 ∉ lead ++ (run ++ behind)) (hlead : ∀ c ∈ lead, c ∈ delim) (hne : run ≠ [])
    (hrun : ∀ c ∈ run, c ∉ delim) (hbehind : ∀ c ∈ behind.head?, c ∈ delim) :
    strtok p s (delim ++ [0]) =
      if zero ∈ run ∨ behind.head? = some zero then
        .ok (some (pos + lead.length), { p with olds := none })
      else .ok (some (pos + lead.length),
        { object := p.object.set (pos + lead.length + run.length) 0,
          olds := some (pos + lead.length + run.length + 1) }) := by
  obtain ⟨c, rest, rfl⟩ := List.exists_cons_of_ne_nil hne
  have hcDelim : c ∉ delim := hrun c List.mem_cons_self
  have hspan : (lead ++ (c :: rest ++ behind)).takeWhile (· ∈ delim) = lead := by
    rw [List.takeWhile_append_of_pos (by simpa using hlead), List.cons_append,
      List.takeWhile_cons_of_neg (by simpa using hcDelim), List.append_nil]
  have htoken : p.object.drop (pos + lead.length) = c :: rest ++ behind ++ [0] := by
    rw [← List.drop_drop, hobject, List.append_assoc, List.drop_left]
  have htokenText : 0 ∉ c :: rest ++ behind := fun h => htext (List.mem_append_right _ h)
  have hcNe : c ≠ 0 := fun h => htokenText (h ▸ List.mem_cons_self)
  simp only [strtok, hpos]
  rw [strspn_eq hdelim hobject htext, hspan, ok_bind, (load_of_drop htoken).1, ok_bind,
    if_neg hcNe, strpbrk_eq hdelim htoken htokenText, stop_run hrun hbehind]
  by_cases hstop : zero ∈ c :: rest ∨ behind.head? = some zero
  · rw [if_pos hstop, if_pos hstop]
    rfl
  · have hlength := congrArg List.length htoken
    rw [List.length_drop] at hlength
    simp only [List.length_append, List.length_cons, List.length_nil] at hlength
    rw [if_neg hstop, if_neg hstop, Option.map_some, ok_bind]
    have hbound : pos + lead.length + (c :: rest).length < p.object.length := by
      rw [List.length_cons]
      omega
    simp only [store, if_pos hbound]
    rfl

theorem stringAt_eq {object rest : List UInt8} (hobject : object.drop pos = chars ++ 0 :: rest)
    (htext : 0 ∉ chars) : stringAt object pos = chars := by
  have hall : ∀ c ∈ chars, decide (c ≠ 0) = true := by
    intro c hc
    have hne : c ≠ 0 := fun h => htext (h ▸ hc)
    exact decide_eq_true hne
  rw [stringAt, hobject, List.takeWhile_append_of_pos hall]
  simp

/-- A call for a pointer behind the terminator reads there. -/
theorem strtok_end (hpos : (s <|> p.olds) = some pos) (hobject : p.object.drop pos = []) :
    strtok p s delim = .error .outOfBounds := by
  simp only [strtok, hpos]
  rw [strspn, strspnLoop, load_end hobject]
  rfl

theorem tokens_of_strtok {fuel : ℕ} {token : ℕ} {p' : Splitter}
    (h : strtok p s delim = .ok (some token, p')) :
    tokens delim (fuel + 1) s p =
      (tokens delim fuel none p').map (stringAt p'.object token :: ·) := by
  rw [tokens, h, ok_bind]
  dsimp only
  cases tokens delim fuel none p' <;> rfl

theorem tokens_of_null {fuel : ℕ} (hs : (s <|> p.olds) = none) :
    tokens delim (fuel + 1) s p = .ok [] := by
  simp only [tokens, strtok, hs]
  rfl

theorem map_eq_ok_iff {α β : Type*} {f : α → β} (hf : Function.Injective f)
    {x : Except Fault α} {a : α} : x.map f = .ok (f a) ↔ x = .ok a := by
  cases x with
  | error fault => simp [Except.map]
  | ok b => simp [Except.map, hf.eq_iff]

/-- The tokens of a string are its runs where `strtok` finds the end of each. -/
theorem tokens_iff {fuel : ℕ} (hdelim : 0 ∉ delim) (hpos : (s <|> p.olds) = some pos)
    (hobject : p.object.drop pos = chars ++ [0]) (htext : 0 ∉ chars)
    (hfuel : chars.length + 1 < fuel) :
    tokens (delim ++ [0]) fuel s p = .ok (runs delim chars) ↔ Splits delim chars := by
  induction fuel generalizing chars p s pos with
  | zero => exact absurd hfuel (Nat.not_lt_zero _)
  | succ fuel ih =>
      rcases exists_run delim chars with
        hall | ⟨lead, run, behind, rfl, hlead, hne, hrun, hbehind⟩
      · have htokens : tokens (delim ++ [0]) (fuel + 1) s p = .ok [] := by
          rw [tokens, strtok_none hdelim hpos hobject htext hall, ok_bind]
          rfl
        rw [htokens, ← List.append_nil chars, runs_append hall, splits_append hall]
        exact iff_of_true rfl splits_nil
      · have hcall := strtok_some hdelim hpos hobject htext hlead hne hrun hbehind
        have htoken : p.object.drop (pos + lead.length) = run ++ behind ++ [0] := by
          rw [← List.drop_drop, hobject, List.append_assoc, List.drop_left]
        have htokenText : 0 ∉ run ++ behind := fun h => htext (List.mem_append_right _ h)
        rw [runs_append hlead, splits_append hlead, splits_append_iff hrun hne hbehind]
        obtain ⟨fuel, rfl⟩ := Nat.exists_eq_succ_of_ne_zero (Nat.ne_zero_of_lt
          (Nat.lt_of_succ_lt_succ hfuel))
        by_cases hstop : zero ∈ run ∨ behind.head? = some zero
        · -- the token is taken for the last one
          rw [if_pos hstop] at hcall
          rw [tokens_of_strtok hcall, tokens_of_null rfl, stringAt_eq htoken htokenText]
          cases behind with
          | nil =>
              have hzero : zero ∈ run := hstop.resolve_right (by simp)
              rw [List.append_nil, runs_of_forall hrun hne]
              exact iff_of_true rfl ⟨⟨fun _ => hzero, fun h => absurd rfl h⟩, splits_nil⟩
          | cons c rest =>
              rw [runs_append_cons hrun hne (hbehind c rfl)]
              refine iff_of_false (fun heq => ?_) fun hsplits => ?_
              · have hhead := (List.cons.inj (Except.ok.inj heq)).1
                simp at hhead
              · obtain ⟨hrunZero, hnext⟩ := hsplits.1.2 (List.cons_ne_nil c rest)
                exact hstop.elim hrunZero hnext
        · -- the character behind the token is overwritten
          obtain ⟨hzero, hnext⟩ := not_or.mp hstop
          rw [if_neg hstop] at hcall
          rw [tokens_of_strtok hcall]
          cases behind with
          | nil =>
              rw [tokens, strtok_end rfl]
              · exact iff_of_false (fun h => by cases h) fun hsplits => hzero (hsplits.1.1 rfl)
              · rw [List.append_nil] at htoken
                rw [List.drop_eq_nil_iff, List.length_set]
                have hlength := congrArg List.length htoken
                rw [List.length_drop, List.length_append, List.length_singleton] at hlength
                omega
          | cons c rest =>
              have hc : c ∈ delim := hbehind c rfl
              have hset : (p.object.set (pos + lead.length + run.length) 0).drop
                  (pos + lead.length) = run ++ 0 :: (rest ++ [0]) := by
                rw [List.drop_set, if_neg (by omega), htoken, Nat.add_sub_cancel_left]
                simp
              have hrest : (p.object.set (pos + lead.length + run.length) 0).drop
                  (pos + lead.length + run.length + 1) = rest ++ [0] := by
                rw [Nat.add_assoc _ run.length, ← List.drop_drop, hset, ← List.drop_drop,
                  List.drop_left]
                rfl
              have hrunText : 0 ∉ run := fun h => htokenText (List.mem_append_left _ h)
              have hrestText : 0 ∉ rest := fun h =>
                htokenText (List.mem_append_right _ (List.mem_cons_of_mem _ h))
              rw [stringAt_eq hset hrunText, runs_append_cons hrun hne hc,
                map_eq_ok_iff (List.cons_injective), ih rfl hrest hrestText, splits_cons_iff hc]
              · refine ⟨fun hsplits => ⟨⟨by simp, fun _ => ⟨hzero, hnext⟩⟩, hsplits⟩, And.right⟩
              · simp only [List.length_append, List.length_cons] at hfuel
                omega

/-- Where `strpbrk` finds the first character of `accept`, or that there is none: no `'0'` stands
in front of that character, which is none itself, or there is a `'0'` and no such character. -/
def Finds (accept chars : List UInt8) : Prop :=
  (∃ before c behind, chars = before ++ c :: behind ∧ (∀ e ∈ before, e ∉ accept) ∧ c ∈ accept ∧
    zero ∉ before ∧ c ≠ zero) ∨ (∀ c ∈ chars, c ∉ accept) ∧ zero ∈ chars

theorem finds_cons_iff (hc : c ∉ delim) (hzero : c ≠ zero) :
    Finds delim (c :: chars) ↔ Finds delim chars := by
  constructor
  · rintro (⟨before, e, behind, heq, hbefore, he, hfree, hne⟩ | ⟨hnone, hmem⟩)
    · cases before with
      | nil =>
          obtain ⟨rfl, -⟩ := List.cons.inj heq
          exact absurd he hc
      | cons b before =>
          obtain ⟨-, rfl⟩ := List.cons.inj heq
          exact .inl ⟨before, e, behind, rfl, (List.forall_mem_cons.mp hbefore).2, he,
            fun h => hfree (List.mem_cons_of_mem _ h), hne⟩
    · exact .inr ⟨(List.forall_mem_cons.mp hnone).2,
        (List.mem_cons.mp hmem).resolve_left (Ne.symm hzero)⟩
  · rintro (⟨before, e, behind, rfl, hbefore, he, hfree, hne⟩ | ⟨hnone, hmem⟩)
    · exact .inl ⟨c :: before, e, behind, rfl, List.forall_mem_cons.mpr ⟨hc, hbefore⟩, he,
        fun h => hfree ((List.mem_cons.mp h).resolve_left (Ne.symm hzero)), hne⟩
    · exact .inr ⟨List.forall_mem_cons.mpr ⟨hc, hnone⟩, List.mem_cons_of_mem _ hmem⟩

theorem stop_eq_iff : stop delim chars = chars.findIdx? (· ∈ delim) ↔ Finds delim chars := by
  induction chars with
  | nil => exact iff_of_false (fun h => by cases h) (by simp [Finds])
  | cons c chars ih =>
      rw [stop, List.findIdx?_cons]
      by_cases hzero : c = zero
      · rw [if_pos hzero]
        by_cases hc : c ∈ delim
        · refine iff_of_false (by simp [hc]) ?_
          rintro (⟨before, e, behind, heq, -, -, hfree, hne⟩ | ⟨hnone, -⟩)
          · cases before with
            | nil => exact hne ((List.cons.inj heq).1.symm.trans hzero)
            | cons b before => exact hfree ((List.cons.inj heq).1 ▸ hzero ▸ List.mem_cons_self)
          · exact hnone c List.mem_cons_self hc
        · rw [if_neg (by simpa using hc), eq_comm, Option.map_eq_none_iff,
            List.findIdx?_eq_none_iff]
          constructor
          · intro hnone
            have hnone' : ∀ e ∈ chars, e ∉ delim := by simpa using hnone
            exact .inr ⟨List.forall_mem_cons.mpr ⟨hc, hnone'⟩, hzero ▸ List.mem_cons_self⟩
          · rintro (⟨before, e, behind, heq, -, -, hfree, hne⟩ | ⟨hnone, -⟩)
            · cases before with
              | nil => exact absurd ((List.cons.inj heq).1.symm.trans hzero) hne
              | cons b before =>
                  exact absurd ((List.cons.inj heq).1 ▸ hzero ▸ List.mem_cons_self) hfree
            · simpa using (List.forall_mem_cons.mp hnone).2
      · rw [if_neg hzero]
        by_cases hc : c ∈ delim
        · rw [if_pos hc, if_pos (by simpa using hc)]
          exact iff_of_true rfl (.inl ⟨[], c, chars, rfl, by simp, hc, by simp, hzero⟩)
        · rw [if_neg hc, if_neg (by simpa using hc), finds_cons_iff hc hzero, ← ih]
          exact (Option.map_injective (add_left_injective 1)).eq_iff

/-- `strtok` returns the runs of a string, and reads nothing behind its terminator, exactly where
it finds the end of each run, and `strpbrk` stops at the first character of `accept` exactly where
no `'0'` comes first and no terminator is taken for one. -/
theorem strtok_splits_iff (hdelim : 0 ∉ delim) (htext : 0 ∉ chars) (olds : Option ℕ) :
    (strtokAll chars delim olds = .ok (runs delim chars) ↔ Splits delim chars) ∧
      (strpbrk (chars ++ [0]) 0 (delim ++ [0]) = .ok (chars.findIdx? (· ∈ delim)) ↔
        Finds delim chars) := by
  constructor
  · exact tokens_iff hdelim rfl List.drop_zero htext (Nat.lt_succ_self _)
  · have hstart : (fun index => 0 + index) = (id : ℕ → ℕ) := funext Nat.zero_add
    rw [strpbrk_eq hdelim List.drop_zero htext, hstart, Option.map_id, id, Except.ok.injEq,
      stop_eq_iff]

/-- The string `a ` and the delimiter ` `. -/
theorem strtok_splits_space :
    (strtokAll [97, 32] [32] none = .ok (runs [32] [97, 32]) ↔ Splits [32] [97, 32]) ∧
      (strpbrk ([97, 32] ++ [0]) 0 ([32] ++ [0]) =
        .ok ([97, 32].findIdx? (· ∈ ([32] : List UInt8))) ↔
        Finds [32] [97, 32]) :=
  strtok_splits_iff (by decide) (by decide) none

/-- The string `a` has one token, but the call for the next one reads behind the terminator;
`strpbrk` finds no space in it, but returns a pointer to the terminator. -/
theorem strtok_overruns : strtokAll [97] [32] none = .error .outOfBounds ∧
    strpbrk [97, 0] 0 [32, 0] = .ok (some 1) := by
  decide

end Rhythmos.Libc.Tokens
