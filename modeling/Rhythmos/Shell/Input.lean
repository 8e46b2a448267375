import Rhythmos.Constants
import Rhythmos.Library.SplitLines
import Rhythmos.Libc.Memmove
import Rhythmos.Libc.Printf

/-!
# The input of the shells

`main` of `dsh.c` reads its standard input into a buffer, calls `process_line` for each line
that it finds there, and keeps the rest for the next turn.  `main` of `sh.c` has the same loops,
but its `process_line` works on the buffer itself, where that of `dsh.c` works on a copy of the
line; so the loops get the branch for a newline as a parameter.  Every access to the buffer is
checked.

A rest that fills half of the buffer is dropped, but nothing remembers that the line goes on, so
the end of a line that is too long is taken for a line.
-/

namespace Rhythmos.Shell

open ByteMemory Fallible Libc Libc.Printf SplitLines

def newline : UInt8 := 10

/-- The size of `input`. -/
def inputSize : ℕ := 2 * bufsize + 1

/-- The variables of `main`, and the strings that it has passed to `process_line`. -/
structure State where
  input : Memory
  pos : ℕ
  linestart : ℕ
  done : Bool
  calls : List (List UInt8)

/-- Why a run is over before its input is. -/
inductive Halt where
  /-- a fault of `main` itself -/
  | fault (fault : Fault)
  /-- a call of `process_line` that does not return, with the strings up to that call -/
  | hung (calls : List (List UInt8))
  deriving DecidableEq

/-! ## The functions of `dsh.c` and `sh.c` -/

def load (input : Memory) (index : ℕ) : Except Halt UInt8 :=
  if index < inputSize then .ok (input index) else .error (.fault .outOfBounds)

def store (input : Memory) (index : ℕ) (c : UInt8) : Except Halt Memory :=
  if index < inputSize then .ok (Function.update input index c)
  else .error (.fault .outOfBounds)

/-- The string at an index, as `process_line` reads it. -/
def lineAt (input : Memory) : ℕ → ℕ → Except Halt (List UInt8)
  | 0, _ => .error (.fault .diverges)
  | fuel + 1, index => do
      let c ← load input index
      if c = 0 then return []
      else
        let line ← lineAt input fuel (index + 1)
        return c :: line

/-- The loop that scans the data up to `stop`, with the branch for a newline. -/
def scanLoop (endLine : State → Except Halt State) (stop : ℕ) :
    ℕ → State → Except Halt State
  | 0, _ => .error (.fault .diverges)
  | fuel + 1, s =>
      if s.pos < stop then do
        let c ← load s.input s.pos
        let s ← if c = newline then endLine s else .ok s
        scanLoop endLine stop fuel { s with pos := s.pos + 1 }
      else .ok s

/-- The remaining data is shifted to the beginning of the buffer, or dropped. -/
def keepRest (s : State) : Except Halt State :=
  if s.linestart ≤ s.pos ∧ s.pos ≤ inputSize then
    let rest := s.pos - s.linestart
    .ok { s with
      input := memmove s.input 0 s.linestart rest
      pos := if bufsize ≤ rest then 0 else rest
      linestart := 0 }
  else .error (.fault .outOfBounds)

/-- A turn of the loop.  `read` gets room for `BUFSIZE` bytes and returns those of `chunk`. -/
def turn (endLine : State → Except Halt State) (chunk : List UInt8) (s : State) :
    Except Halt State :=
  if s.pos + bufsize ≤ inputSize then do
    let stop := s.pos + chunk.length
    let input ← store (storeBytes s.input s.pos chunk) stop 0
    let s ← scanLoop endLine stop (chunk.length + 1) { s with input := input }
    keepRest s
  else .error (.fault .outOfBounds)

/-- The loop of `main`, up to the end of the input. -/
def mainLoop (endLine : State → Except Halt State) :
    List (List UInt8) → State → Except Halt State
  | [], s => .ok s
  | chunk :: chunks, s =>
      if s.done then .ok s
      else do
        let s ← turn endLine chunk s
        mainLoop endLine chunks s

/-! ## The functions of `dsh.c` -/

/-- The branch for a newline.  Whether `process_line` sets `done` may depend on all the strings
that it has got; it works on a copy of the string. -/
def endLine (exits : List (List UInt8) → Bool) (s : State) : Except Halt State := do
  let input ← store s.input s.pos 0
  let line ← lineAt input inputSize s.linestart
  return { s with
    input := input
    linestart := s.pos + 1
    done := s.done || exits (s.calls ++ [line])
    calls := s.calls ++ [line] }

def main (exits : List (List UInt8) → Bool) (chunks : List (List UInt8)) (input : Memory) :
    Except Halt State := mainLoop (endLine exits) chunks ⟨input, 0, 0, false, []⟩

/-! ## A turn -/

variable {branch : State → Except Halt State} {exits : List (List UInt8) → Bool}
  {stuck damages : List UInt8 → List UInt8 → Prop} {returns : Prop}
  {s s' : State} {cur rest carry chunk consumed : List UInt8}

theorem lineAt_eq {input : Memory} (chars : List UInt8) : ∀ {fuel index : ℕ},
    BytesAt input index (chars ++ [0]) → 0 ∉ chars → index + chars.length < inputSize →
    chars.length < fuel → lineAt input fuel index = .ok chars := by
  induction chars with
  | nil =>
      intro fuel index hbytes _ hbound hfuel
      obtain ⟨fuel, rfl⟩ := Nat.exists_eq_succ_of_ne_zero (Nat.ne_zero_of_lt hfuel)
      have hend : input index = 0 := (bytesAt_cons.mp hbytes).1
      rw [List.length_nil, Nat.add_zero] at hbound
      rw [lineAt, load, if_pos hbound, hend]
      rfl
  | cons c chars ih =>
      intro fuel index hbytes htext hbound hfuel
      obtain ⟨fuel, rfl⟩ := Nat.exists_eq_succ_of_ne_zero (Nat.ne_zero_of_lt hfuel)
      rw [List.cons_append, bytesAt_cons] at hbytes
      rw [List.mem_cons, not_or] at htext
      rw [List.length_cons] at hbound hfuel
      have hrest := @ih fuel (index + 1) hbytes.2 htext.2 (by omega) (by omega)
      rw [lineAt, load, if_pos (by omega), hbytes.1, ok_bind, if_neg (Ne.symm htext.1), hrest]
      rfl

/-- The scan has come to the end of `cur`, which is no line yet, and `rest` is ahead of it, with
a terminator behind it. -/
structure Scanning (s : State) (cur rest : List UInt8) : Prop where
  behind : BytesAt s.input s.linestart cur
  ahead : BytesAt s.input s.pos (rest ++ [0])
  pos : s.pos = s.linestart + cur.length
  bound : s.pos + rest.length + 1 < inputSize
  behindText : 0 ∉ cur
  aheadText : 0 ∉ rest
  open_ : newline ∉ cur

/-- What the branch for a newline does with the line `cur`, if it leaves alone what is ahead. -/
structure Ended (exits : List (List UInt8) → Bool) (s : State) (cur rest : List UInt8)
    (s' : State) : Prop where
  pos : s'.pos = s.pos
  linestart : s'.linestart = s.pos + 1
  ahead : BytesAt s'.input (s.pos + 1) (rest ++ [0])
  calls : s'.calls = s.calls ++ [cur]
  done : s'.done = (s.done || exits (s.calls ++ [cur]))

/-- A branch for a newline that leaves alone what is ahead, unless it `damages` that.  It does not
come back from the lines that are `stuck`, nor perhaps from others, if not every call
`returns`. -/
def Ends (exits : List (List UInt8) → Bool) (stuck damages : List UInt8 → List UInt8 → Prop)
    (returns : Prop) (branch : State → Except Halt State) : Prop :=
  ∀ s cur rest, Scanning s cur (newline :: rest) → stuck cur rest ∨ ¬ damages cur rest →
    Ensures (fun halt => ¬ returns ∧ halt = .hung (s.calls ++ [cur])) (branch s)
      fun s' => ¬ stuck cur rest ∧ Ended exits s cur rest s'

/-- There is a line in the text from which `process_line` does not come back. -/
def StuckIn (stuck : List UInt8 → List UInt8 → Prop) : List UInt8 → List UInt8 → Prop
  | _, [] => False
  | cur, c :: rest =>
      if c = newline then stuck cur rest ∨ StuckIn stuck [] rest
      else StuckIn stuck (cur ++ [c]) rest

/-- No line of the text damages what is ahead, up to one that is stuck. -/
def SparedIn (stuck damages : List UInt8 → List UInt8 → Prop) :
    List UInt8 → List UInt8 → Prop
  | _, [] => True
  | cur, c :: rest =>
      if c = newline then stuck cur rest ∨ ¬ damages cur rest ∧ SparedIn stuck damages [] rest
      else SparedIn stuck damages (cur ++ [c]) rest

/-- The terminator takes the place of the newline. -/
theorem Scanning.terminate (hs : Scanning s cur (newline :: rest)) :
    store s.input s.pos 0 = .ok (Function.update s.input s.pos 0) ∧
      lineAt (Function.update s.input s.pos 0) inputSize s.linestart = .ok cur ∧
      BytesAt (Function.update s.input s.pos 0) s.linestart (cur ++ 0 :: (rest ++ [0])) := by
  obtain ⟨-, hahead⟩ := bytesAt_cons.mp hs.ahead
  have hpos := hs.pos
  have hbound := hs.bound
  rw [List.length_cons] at hbound
  have hbehind : BytesAt (Function.update s.input s.pos 0) s.linestart (cur ++ [0]) := by
    rw [bytesAt_append, bytesAt_singleton, ← hpos, Function.update_self]
    refine ⟨fun index hindex => ?_, rfl⟩
    rw [Function.update_of_ne (by omega)]
    exact hs.behind index hindex
  have hahead' : BytesAt (Function.update s.input s.pos 0) (s.pos + 1) (rest ++ [0]) := by
    intro index hindex
    rw [Function.update_of_ne (by omega)]
    exact hahead index hindex
  refine ⟨?_, ?_, ?_⟩
  · rw [store, if_pos (by omega)]
  · exact lineAt_eq cur hbehind hs.behindText (by omega) (by omega)
  · rw [List.append_cons, bytesAt_append, List.length_append, ← Nat.add_assoc, ← hpos]
    exact ⟨hbehind, hahead'⟩

/-- What scanning some text has done. -/
structure Scanned (exits : List (List UInt8) → Bool) (s : State) (text : List UInt8) (stop : ℕ)
    (s' : State) : Prop where
  pos : s'.pos = stop
  linestart : s'.linestart + (fragment newline text).length = stop
  bytes : BytesAt s'.input s'.linestart (fragment newline text)
  calls : s'.calls = s.calls ++ complete newline text
  done : s'.done = (s.done || stopped exits s.calls (complete newline text))

/-- The run is over in a call of `process_line`; the strings up to that call are lines. -/
def Hung (calls lines : List (List UInt8)) (halt : Halt) : Prop :=
  ∃ count, halt = .hung (calls ++ lines.take count)

theorem stuckIn_of_notMem (hopen : newline ∉ rest) : ¬ StuckIn stuck cur rest := by
  induction rest generalizing cur with
  | nil => exact not_false
  | cons c rest ih =>
      rw [List.mem_cons, not_or] at hopen
      rw [StuckIn, if_neg (Ne.symm hopen.1)]
      exact ih hopen.2

theorem sparedIn_of_notMem (hopen : newline ∉ rest) : SparedIn stuck damages cur rest := by
  induction rest generalizing cur with
  | nil => trivial
  | cons c rest ih =>
      rw [List.mem_cons, not_or] at hopen
      rw [SparedIn, if_neg (Ne.symm hopen.1)]
      exact ih hopen.2

/-- The scan goes past a character of the line. -/
theorem Scanning.next {c : UInt8} (hs : Scanning s cur (c :: rest)) (hline : c ≠ newline) :
    Scanning { s with pos := s.pos + 1 } (cur ++ [c]) rest where
  behind := bytesAt_append.mpr
    ⟨hs.behind, bytesAt_singleton.mpr (hs.pos ▸ (bytesAt_cons.mp hs.ahead).1)⟩
  ahead := (bytesAt_cons.mp hs.ahead).2
  pos := by
    rw [List.length_append, hs.pos]
    rfl
  bound := by
    have hbound := hs.bound
    rw [List.length_cons] at hbound
    dsimp only
    omega
  behindText := by simpa using ⟨hs.behindText, (not_or.mp (List.mem_cons.not.mp hs.aheadText)).1⟩
  aheadText := (not_or.mp (List.mem_cons.not.mp hs.aheadText)).2
  open_ := by simpa using ⟨hs.open_, Ne.symm hline⟩

/-- Behind the newline a new line begins. -/
theorem Ended.scanning (hended : Ended exits s cur rest s')
    (hs : Scanning s cur (newline :: rest)) :
    Scanning { s' with pos := s'.pos + 1 } [] rest where
  behind _ hindex := absurd hindex (Nat.not_lt_zero _)
  ahead := by
    dsimp only
    rw [hended.pos]
    exact hended.ahead
  pos := by
    dsimp only
    rw [hended.pos, hended.linestart]
    rfl
  bound := by
    have hbound := hs.bound
    rw [List.length_cons] at hbound
    dsimp only
    rw [hended.pos]
    omega
  behindText := List.not_mem_nil
  aheadText := (not_or.mp (List.mem_cons.not.mp hs.aheadText)).2
  open_ := List.not_mem_nil

/-- What is scanned behind the newline comes behind the line. -/
theorem Scanned.line {stop : ℕ} {s₁ : State} (hended : Ended exits s cur rest s₁)
    (hopen : newline ∉ cur)
    (hscanned : Scanned exits { s₁ with pos := s₁.pos + 1 } rest stop s') :
    Scanned exits s (cur ++ newline :: rest) stop s' where
  pos := hscanned.pos
  linestart := by
    rw [fragment_line hopen]
    exact hscanned.linestart
  bytes := by
    rw [fragment_line hopen]
    exact hscanned.bytes
  calls := by
    rw [complete_line hopen, hscanned.calls, hended.calls, List.append_assoc, List.singleton_append]
  done := by
    rw [complete_line hopen, hscanned.done, stopped, ← Bool.or_assoc, ← hended.done,
      ← hended.calls]

theorem scanLoop_spec (hbranch : Ends exits stuck damages returns branch) (rest : List UInt8) :
    ∀ {fuel stop : ℕ} {s : State} {cur : List UInt8}, Scanning s cur rest →
      SparedIn stuck damages cur rest → stop = s.pos + rest.length → rest.length < fuel →
      Ensures (fun halt => ¬ returns ∧ Hung s.calls (complete newline (cur ++ rest)) halt)
        (scanLoop branch stop fuel s)
        fun s' => ¬ StuckIn stuck cur rest ∧ Scanned exits s (cur ++ rest) stop s' := by
  induction rest with
  | nil =>
      intro fuel stop s cur hs _ hstop hfuel
      obtain ⟨fuel, rfl⟩ := Nat.exists_eq_succ_of_ne_zero (Nat.ne_zero_of_lt hfuel)
      rw [List.length_nil, Nat.add_zero] at hstop
      rw [scanLoop, if_neg (by omega), List.append_nil]
      refine ensures_ok.mpr ⟨not_false, hstop.symm, ?_, ?_, ?_, ?_⟩
      · rw [fragment_of_notMem hs.open_, hstop, hs.pos]
      · rw [fragment_of_notMem hs.open_]
        exact hs.behind
      · rw [complete_of_notMem hs.open_, List.append_nil]
      · rw [complete_of_notMem hs.open_, stopped, Bool.or_false]
  | cons c rest ih =>
      intro fuel stop s cur hs hspared hstop hfuel
      obtain ⟨fuel, rfl⟩ := Nat.exists_eq_succ_of_ne_zero (Nat.ne_zero_of_lt hfuel)
      have hbound := hs.bound
      rw [List.length_cons] at hstop hfuel hbound
      have hload : load s.input s.pos = .ok c := by
        rw [load, if_pos (by omega), (bytesAt_cons.mp hs.ahead).1]
      rw [scanLoop, if_pos (by omega), hload, ok_bind]
      by_cases hline : c = newline
      · subst hline
        rw [SparedIn, if_pos rfl] at hspared
        rw [if_pos rfl]
        refine ensures_bind (ensures_mono (hbranch s cur rest hs (hspared.imp_right And.left))
          (fun halt hhalt => ⟨hhalt.1, 1, ?_⟩) fun _ h => h) ?_
        · rw [complete_line hs.open_]
          exact hhalt.2
        rintro s₁ ⟨hcomes, hended⟩
        have hrest := @ih fuel stop _ [] (hended.scanning hs) (hspared.resolve_left hcomes).2
          (by dsimp only; rw [hended.pos]; omega) (by omega)
        refine ensures_mono hrest ?_ ?_
        · rintro halt ⟨hreturns, count, rfl⟩
          refine ⟨hreturns, count + 1, ?_⟩
          dsimp only
          rw [complete_line hs.open_, hended.calls, List.append_assoc]
          rfl
        · rintro s' ⟨hcomes', hscanned⟩
          refine ⟨?_, .line hended hs.open_ hscanned⟩
          rw [StuckIn, if_pos rfl]
          exact not_or.mpr ⟨hcomes, hcomes'⟩
      · rw [SparedIn, if_neg hline] at hspared
        have hrest := @ih fuel stop _ (cur ++ [c]) (hs.next hline) hspared
          (by dsimp only; omega) (by omega)
        rw [if_neg hline, ok_bind, List.append_cons, StuckIn, if_neg hline]
        refine ensures_weaken hrest ?_
        rintro s' ⟨hcomes, hscanned⟩
        exact ⟨hcomes, hscanned.pos, hscanned.linestart, hscanned.bytes, hscanned.calls,
          hscanned.done⟩

/-- At the beginning of a turn the buffer holds the rest of the data. -/
structure Waiting (s : State) (carry : List UInt8) : Prop where
  linestart : s.linestart = 0
  pos : s.pos = carry.length
  short : carry.length < bufsize
  bytes : BytesAt s.input 0 carry
  text : 0 ∉ carry
  open_ : newline ∉ carry

/-- What `read` can return: some bytes, no more than there is room for. -/
structure Readable (chunk : List UInt8) : Prop where
  nonempty : 0 < chunk.length
  fits : chunk.length ≤ bufsize
  text : 0 ∉ chunk

/-- The rest of the data that the next turn gets. -/
def kept (text : List UInt8) : List UInt8 :=
  if bufsize ≤ (fragment newline text).length then [] else fragment newline text

/-- `read` puts the data behind the rest, and a terminator is put behind the data. -/
theorem bytesAt_read {input : Memory} (chunk : List UInt8) (hcarry : BytesAt input 0 carry) :
    BytesAt (Function.update (storeBytes input carry.length chunk)
      (carry.length + chunk.length) 0) 0 (carry ++ (chunk ++ [0])) := by
  have hstored : BytesAt (storeBytes input carry.length chunk) 0 (carry ++ chunk) := by
    rw [bytesAt_append, Nat.zero_add]
    exact ⟨bytesAt_storeBytes_off hcarry (.inr (by omega)), bytesAt_storeBytes _ _ _⟩
  have hread : BytesAt (Function.update (storeBytes input carry.length chunk)
      (carry.length + chunk.length) 0) 0 (carry ++ chunk) := by
    refine bytesAt_congr hstored fun x _ hx => Function.update_of_ne ?_ _ _
    rw [List.length_append] at hx
    omega
  rw [← List.append_assoc, bytesAt_append, bytesAt_singleton, Nat.zero_add, List.length_append,
    Function.update_self]
  exact ⟨hread, rfl⟩

/-- What a turn does that gets some data behind the rest `carry`. -/
structure Turned (exits : List (List UInt8) → Bool) (s : State) (carry chunk : List UInt8)
    (s' : State) : Prop where
  waiting : Waiting s' (kept (carry ++ chunk))
  calls : s'.calls = s.calls ++ complete newline (carry ++ chunk)
  done : s'.done = (s.done || stopped exits s.calls (complete newline (carry ++ chunk)))

/-- The rest is shifted to the beginning of the buffer. -/
theorem keepRest_spec {stop : ℕ} (hscanned : Scanned exits s (carry ++ chunk) stop s')
    (hbound : stop ≤ inputSize) (hcarry : 0 ∉ carry) (hchunk : 0 ∉ chunk) :
    ∃ next, keepRest s' = .ok next ∧ Turned exits s carry chunk next := by
  have hend := hscanned.linestart
  have hstop := hscanned.pos
  have hrest : s'.pos - s'.linestart = (fragment newline (carry ++ chunk)).length := by omega
  have hkept : (kept (carry ++ chunk)).length =
      if bufsize ≤ (fragment newline (carry ++ chunk)).length then 0
      else (fragment newline (carry ++ chunk)).length := by
    rw [kept]
    split
    · rfl
    · rfl
  let next : State := { s' with
    input := memmove s'.input 0 s'.linestart (fragment newline (carry ++ chunk)).length
    pos := (kept (carry ++ chunk)).length
    linestart := 0 }
  have hnext : keepRest s' = .ok next := by
    rw [keepRest, if_pos (by omega)]
    simp only [hrest, ← hkept, next]
  refine ⟨next, hnext, ⟨rfl, rfl, ?_, ?_, ?_, ?_⟩, hscanned.calls, hscanned.done⟩
  · rw [hkept]
    split
    · decide
    · omega
  · -- what is kept is moved to the beginning
    rw [kept]
    split
    · exact fun _ hindex => absurd hindex (Nat.not_lt_zero _)
    · intro index hindex
      have hmoved := @memmove_at s'.input 0 s'.linestart
        (fragment newline (carry ++ chunk)).length (.inl (Nat.zero_le _)) (0 + index)
        (Nat.zero_le _) (by omega)
      rw [Nat.sub_zero, Nat.zero_add] at hmoved
      rw [Nat.zero_add]
      exact hmoved.trans (hscanned.bytes index hindex)
  · rw [kept]
    split
    · exact List.not_mem_nil
    · intro hmem
      have htext := (fragment_suffix_self newline (carry ++ chunk)).subset hmem
      exact (List.mem_append.mp htext).elim hcarry hchunk
  · rw [kept]
    split
    · exact List.not_mem_nil
    · exact notMem_fragment _ _

theorem turn_spec (hbranch : Ends exits stuck damages returns branch) (hs : Waiting s carry)
    (hchunk : Readable chunk) (hspared : SparedIn stuck damages carry chunk) :
    Ensures (fun halt => ¬ returns ∧ Hung s.calls (complete newline (carry ++ chunk)) halt)
      (turn branch chunk s)
      fun s' => ¬ StuckIn stuck carry chunk ∧ Turned exits s carry chunk s' := by
  have hpos := hs.pos
  have hshort := hs.short
  have hfits := hchunk.fits
  have hsize : inputSize = 2 * bufsize + 1 := rfl
  obtain ⟨hbehind, hahead⟩ := bytesAt_append.mp (bytesAt_read chunk hs.bytes)
  rw [← hpos] at hbehind hahead
  rw [Nat.zero_add] at hahead
  have hscanning : Scanning { s with
      input := Function.update (storeBytes s.input s.pos chunk) (s.pos + chunk.length) 0 }
      carry chunk :=
    ⟨by rw [hs.linestart]; exact hbehind, hahead,
      by dsimp only; rw [hs.linestart, hpos, Nat.zero_add], by dsimp only; omega, hs.text,
      hchunk.text, hs.open_⟩
  rw [turn, if_pos (by omega)]
  dsimp only
  rw [store, if_pos (by omega), ok_bind]
  refine ensures_bind (scanLoop_spec hbranch chunk hscanning hspared rfl (Nat.lt_succ_self _)) ?_
  rintro s' ⟨hcomes, hscanned⟩
  obtain ⟨next, hnext, hturned⟩ := keepRest_spec hscanned (by omega) hs.text hchunk.text
  rw [hnext]
  exact ensures_ok.mpr ⟨hcomes, hturned.waiting, hturned.calls, hturned.done⟩

/-! ## Runs -/

/-- The state after the data `consumed`: the strings that were passed are ends of its lines, and
the rest is an end of its fragment, all of it unless that is too long. -/
structure Follows (exits : List (List UInt8) → Bool) (s : State) (carry consumed : List UInt8) :
    Prop where
  waiting : Waiting s carry
  suffix : carry <:+ fragment newline consumed
  whole : (fragment newline consumed).length < bufsize → carry = fragment newline consumed
  calls : List.Forall₂ (· <:+ ·) s.calls (complete newline consumed)
  done : s.done = stopped exits [] s.calls

/-- The line of which some data is left goes on in the next turn. -/
theorem Follows.turned (hs : Follows exits s carry consumed)
    (hturned : Turned exits s carry chunk s') :
    Follows exits s' (kept (carry ++ chunk)) (consumed ++ chunk) := by
  obtain ⟨hwaiting, hcalls, hdone⟩ := hturned
  have hopen := notMem_fragment newline consumed
  refine ⟨hwaiting, ?_, ?_, ?_, ?_⟩
  · rw [kept]
    split
    · exact List.nil_suffix
    · rw [fragment_append consumed]
      exact fragment_suffix hs.suffix hopen chunk
  · intro hshort
    have hsame : fragment newline (carry ++ chunk) = fragment newline (consumed ++ chunk) := by
      rw [fragment_append consumed]
      by_cases hline : newline ∈ chunk
      · exact fragment_congr hs.waiting.open_ hopen hline
      · rw [fragment_append, fragment_of_notMem (by simp [hopen, hline]), List.length_append]
          at hshort
        rw [hs.whole (by omega)]
    rw [kept, hsame, if_neg (by omega)]
  · rw [hcalls, complete_append consumed]
    exact List.rel_append hs.calls (complete_suffix hs.suffix hopen chunk)
  · rw [hdone, hcalls, stopped_append, hs.done, List.nil_append]

theorem follows_start (exits : List (List UInt8) → Bool) (input : Memory) :
    Follows exits ⟨input, 0, 0, false, []⟩ [] [] := by
  have hopen : newline ∉ ([] : List UInt8) := List.not_mem_nil
  refine ⟨⟨rfl, rfl, by decide, fun _ hindex => absurd hindex (Nat.not_lt_zero _),
    List.not_mem_nil, hopen⟩, List.nil_suffix, fun _ => (fragment_of_notMem hopen).symm, ?_, rfl⟩
  rw [complete_of_notMem hopen]
  exact .nil

/-! ## Runs of `dsh.c` -/

/-- `process_line` works on a copy, so the branch for a newline leaves alone what is ahead. -/
theorem ends_endLine (exits : List (List UInt8) → Bool) :
    Ends exits (fun _ _ => False) (fun _ _ => False) True (endLine exits) := by
  intro s cur rest hs _
  obtain ⟨hstore, hline, hbytes⟩ := hs.terminate
  obtain ⟨-, hahead⟩ := bytesAt_append.mp hbytes
  rw [bytesAt_cons, ← hs.pos] at hahead
  rw [endLine, hstore, ok_bind, hline, ok_bind, pure_eq_ok]
  exact ensures_ok.mpr ⟨not_false, rfl, rfl, hahead.2, rfl, rfl⟩

theorem sparedIn_of_never (stuck : List UInt8 → List UInt8 → Prop) (cur text : List UInt8) :
    SparedIn stuck (fun _ _ => False) cur text := by
  induction text generalizing cur with
  | nil => trivial
  | cons c text ih =>
      rw [SparedIn]
      split
      · exact .inr ⟨not_false, ih []⟩
      · exact ih (cur ++ [c])

theorem Follows.turn (hs : Follows exits s carry consumed) (hchunk : Readable chunk) :
    ∃ s', turn (endLine exits) chunk s = .ok s' ∧
      Follows exits s' (kept (carry ++ chunk)) (consumed ++ chunk) ∧
      s'.calls = s.calls ++ complete newline (carry ++ chunk) := by
  have hspec := turn_spec (ends_endLine exits) hs.waiting hchunk (sparedIn_of_never _ carry chunk)
  obtain ⟨s', hturn, -, hturned⟩ := exists_ok_of_ensures
    (ensures_mono hspec (fun halt hhalt => hhalt.1 trivial) fun _ h => h)
  exact ⟨s', hturn, hs.turned hturned, hturned.calls⟩

/-- Every run goes through, and the `n`-th string that is passed is an end of the `n`-th line.
Every line has its string unless the shell stops. -/
theorem mainLoop_follows (chunks : List (List UInt8)) : ∀ {s : State} {carry consumed : List UInt8},
    Follows exits s carry consumed → (∀ chunk ∈ chunks, Readable chunk) →
    ∃ s', mainLoop (endLine exits) chunks s = .ok s' ∧ s.calls <+: s'.calls ∧
      List.Forall₂ (· <:+ ·) s'.calls
        ((complete newline (consumed ++ chunks.flatten)).take s'.calls.length) ∧
      (stopped exits [] s'.calls = true ∨
        s'.calls.length = (complete newline (consumed ++ chunks.flatten)).length) := by
  induction chunks with
  | nil =>
      intro s carry consumed hs _
      refine ⟨s, rfl, List.prefix_rfl, ?_⟩
      rw [List.flatten_nil, List.append_nil, List.take_of_length_le hs.calls.length_eq.ge]
      exact ⟨hs.calls, .inr hs.calls.length_eq⟩
  | cons chunk chunks ih =>
      intro s carry consumed hs hchunks
      obtain ⟨hchunk, hchunks⟩ := List.forall_mem_cons.mp hchunks
      rw [mainLoop, List.flatten_cons]
      by_cases hdone : s.done = true
      · refine ⟨s, if_pos hdone, List.prefix_rfl, ?_⟩
        rw [complete_append, List.take_left' hs.calls.length_eq.symm]
        exact ⟨hs.calls, .inl (hs.done ▸ hdone)⟩
      · obtain ⟨s', hturn, hs', hcalls⟩ := hs.turn hchunk
        obtain ⟨s'', hloop, hextends, hends⟩ := ih hs' hchunks
        rw [if_neg hdone, hturn, ok_bind, ← List.append_assoc]
        refine ⟨s'', hloop, ?_, hends⟩
        rw [hcalls] at hextends
        exact (List.prefix_append _ _).trans hextends

/-- No line is ended in a chunk that the shell reads when it has more of that line behind it than
fits into half of the buffer. -/
def FitsFrom (exits : List (List UInt8) → Bool) (consumed : List UInt8)
    (chunks : List (List UInt8)) : Prop :=
  ∀ before chunk after, chunks = before ++ chunk :: after →
    stopped exits [] (complete newline (consumed ++ before.flatten)) = false →
    bufsize ≤ (fragment newline (consumed ++ before.flatten)).length → newline ∉ chunk

theorem fitsFrom_cons_iff {chunks : List (List UInt8)} :
    FitsFrom exits consumed (chunk :: chunks) ↔
      (stopped exits [] (complete newline consumed) = false →
        bufsize ≤ (fragment newline consumed).length → newline ∉ chunk) ∧
      FitsFrom exits (consumed ++ chunk) chunks := by
  constructor
  · intro hfits
    constructor
    · intro hgoing hlong
      refine hfits [] chunk chunks rfl ?_ ?_
      · rw [List.flatten_nil, List.append_nil]
        exact hgoing
      · rw [List.flatten_nil, List.append_nil]
        exact hlong
    · rintro before next after rfl hgoing hlong
      refine hfits (chunk :: before) next after rfl ?_ ?_
      · rw [List.flatten_cons, ← List.append_assoc]
        exact hgoing
      · rw [List.flatten_cons, ← List.append_assoc]
        exact hlong
  · rintro ⟨hfirst, hrest⟩ before next after hchunks hgoing hlong
    cases before with
    | nil =>
        obtain ⟨rfl, rfl⟩ := List.cons.inj hchunks
        rw [List.flatten_nil, List.append_nil] at hgoing hlong
        exact hfirst hgoing hlong
    | cons b before =>
        obtain ⟨rfl, rfl⟩ := List.cons.inj hchunks
        rw [List.flatten_cons, ← List.append_assoc] at hgoing hlong
        exact hrest before next after rfl hgoing hlong

/-- After the shell has stopped nothing is read. -/
theorem fitsFrom_of_stopped {chunks : List (List UInt8)}
    (hstopped : stopped exits [] (complete newline consumed) = true) :
    FitsFrom exits consumed chunks := by
  intro before chunk after _ hgoing
  rw [complete_append, stopped_append, hstopped] at hgoing
  cases hgoing

/-- As long as the strings that were passed are the lines, the rest of the run passes lines only
if the rest of the input fits. -/
theorem mainLoop_lines_iff (chunks : List (List UInt8)) :
    ∀ {s s' : State} {carry consumed : List UInt8}, Follows exits s carry consumed →
      s.calls = complete newline consumed → (∀ chunk ∈ chunks, Readable chunk) →
      mainLoop (endLine exits) chunks s = .ok s' →
      (s'.calls <+: complete newline (consumed ++ chunks.flatten) ↔
        FitsFrom exits consumed chunks) := by
  induction chunks with
  | nil =>
      intro s s' carry consumed _ hcalls _ hloop
      obtain rfl := Except.ok.inj hloop
      rw [List.flatten_nil, List.append_nil, hcalls]
      refine iff_of_true List.prefix_rfl fun before chunk after hchunks => ?_
      exact absurd hchunks (by simp)
  | cons chunk chunks ih =>
      intro s s' carry consumed hs hcalls hchunks hloop
      obtain ⟨hchunk, hchunks⟩ := List.forall_mem_cons.mp hchunks
      rw [mainLoop] at hloop
      rw [List.flatten_cons]
      by_cases hdone : s.done = true
      · rw [if_pos hdone] at hloop
        obtain rfl := Except.ok.inj hloop
        rw [hs.done, hcalls] at hdone
        rw [hcalls, complete_append]
        exact iff_of_true (List.prefix_append _ _) (fitsFrom_of_stopped hdone)
      · rw [if_neg hdone] at hloop
        have hgoing : stopped exits [] (complete newline consumed) = false := by
          rw [← hcalls, ← hs.done]
          exact Bool.eq_false_iff.mpr hdone
        obtain ⟨s₁, hturn, hs₁, hcalls₁⟩ := hs.turn hchunk
        rw [hturn, ok_bind] at hloop
        have hopen := notMem_fragment newline consumed
        have hlines : s₁.calls = complete newline (consumed ++ chunk) ↔
            newline ∉ chunk ∨ carry = fragment newline consumed := by
          rw [hcalls₁, hcalls, complete_append consumed, List.append_right_inj]
          exact complete_inj hs.waiting.open_ hopen
        rw [fitsFrom_cons_iff, ← List.append_assoc]
        by_cases hwhole : newline ∉ chunk ∨ carry = fragment newline consumed
        · rw [ih hs₁ (hlines.mpr hwhole) hchunks hloop]
          refine ⟨fun hrest => ⟨fun _ hlong => ?_, hrest⟩, And.right⟩
          refine hwhole.resolve_right fun hsame => ?_
          have hshort := hs.waiting.short
          rw [hsame] at hshort
          omega
        · -- the end of a line was passed, and nothing takes it back
          obtain ⟨hline, hcut⟩ := not_or.mp hwhole
          refine iff_of_false (fun hfirst => ?_) fun hfits => ?_
          · obtain ⟨s'', hloop', hextends, -, -⟩ := mainLoop_follows chunks hs₁ hchunks
            obtain rfl := Except.ok.inj (hloop.symm.trans hloop')
            refine hwhole (hlines.mp ?_)
            have hlength := hs₁.calls.length_eq
            rw [complete_append (consumed ++ chunk)] at hfirst
            exact (List.prefix_of_prefix_length_le (hextends.trans hfirst)
              (List.prefix_append _ _) hlength.le).eq_of_length hlength
          · refine hline fun hmem => hfits.1 hgoing ?_ hmem
            by_contra hshort
            exact hcut (hs.whole (by omega))

/-- Input with short lines fits. -/
theorem fitsFrom_of_short {chunks : List (List UInt8)}
    (hlines : ∀ line ∈ complete newline chunks.flatten, line.length < bufsize) :
    FitsFrom exits [] chunks := by
  rintro before chunk after rfl - hlong hline
  rw [List.nil_append] at hlong
  obtain ⟨line, more, rfl, hopen⟩ := (exists_line newline chunk).resolve_left (not_not.mpr hline)
  have hbefore := notMem_fragment newline before.flatten
  have hshort := hlines (fragment newline before.flatten ++ line) (by
    rw [List.flatten_append, List.flatten_cons, complete_append, List.append_assoc,
      List.cons_append,
      ← List.append_assoc, complete_line (by simp [hbefore, hopen])]
    exact List.mem_append_right _ List.mem_cons_self)
  rw [List.length_append] at hshort
  omega

/-- The strings up to the first that stops the shell are the lines of the input, however it is
cut into chunks, if these lines are shorter than `BUFSIZE`. -/
theorem main_splits {chunks : List (List UInt8)} (hchunks : ∀ chunk ∈ chunks, Readable chunk)
    (hlines : ∀ line ∈ complete newline chunks.flatten, line.length < bufsize)
    (exits : List (List UInt8) → Bool) (input : Memory) :
    ∃ s, main exits chunks input = .ok s ∧
      upTo exits [] s.calls = upTo exits [] (complete newline chunks.flatten) := by
  have hopen : newline ∉ ([] : List UInt8) := List.not_mem_nil
  obtain ⟨s, hloop, -, -, hend⟩ := mainLoop_follows chunks (follows_start exits input) hchunks
  have hfirst := (mainLoop_lines_iff chunks (follows_start exits input)
    (complete_of_notMem hopen).symm hchunks hloop).mpr (fitsFrom_of_short hlines)
  rw [List.nil_append] at hend hfirst
  refine ⟨s, hloop, ?_⟩
  rcases hend with hstopped | hlength
  · obtain ⟨more, hmore⟩ := hfirst
    rw [← hmore, upTo_append more hstopped]
  · rw [hfirst.eq_of_length hlength]

/-- The lines `a` and `b` in three chunks, of which the first stops the shell. -/
theorem main_splits_two : ∃ s,
    main (fun calls => calls == [[97]]) [[97], [10, 98], [10]] (fun _ => 1) = .ok s ∧
      upTo (fun calls => calls == [[97]]) [] s.calls =
        upTo (fun calls => calls == [[97]]) []
          (complete newline [[97], [10, 98], [10]].flatten) := by
  refine main_splits ?_ (by decide) _ _
  intro chunk hchunk
  fin_cases hchunk
  · exact ⟨by decide, by decide, by decide⟩
  · exact ⟨by decide, by decide, by decide⟩
  · exact ⟨by decide, by decide, by decide⟩

/-- For every input the `n`-th string that is passed is an end of the `n`-th line.  All of them
are complete lines exactly where no line is ended in a chunk that is read when `BUFSIZE` bytes of
it, or more, are behind. -/
theorem main_lines_iff {chunks : List (List UInt8)} (hchunks : ∀ chunk ∈ chunks, Readable chunk)
    (exits : List (List UInt8) → Bool) (input : Memory) :
    ∃ s, main exits chunks input = .ok s ∧
      List.Forall₂ (· <:+ ·) s.calls ((complete newline chunks.flatten).take s.calls.length) ∧
      (s.calls <+: complete newline chunks.flatten ↔ FitsFrom exits [] chunks) := by
  have hopen : newline ∉ ([] : List UInt8) := List.not_mem_nil
  obtain ⟨s, hloop, -, hends, -⟩ := mainLoop_follows chunks (follows_start exits input) hchunks
  have hlines := mainLoop_lines_iff chunks (follows_start exits input)
    (complete_of_notMem hopen).symm hchunks hloop
  exact ⟨s, hloop, hends, hlines⟩

/-- A line of `BUFSIZE + 1` bytes whose last one is read later. -/
def longChunks : List (List UInt8) := [List.replicate bufsize 97, [98, 10]]

theorem readable_longChunks : ∀ chunk ∈ longChunks, Readable chunk := by
  intro chunk hchunk
  fin_cases hchunk
  · refine ⟨?_, ?_, ?_⟩
    · rw [List.length_replicate]
      decide
    · rw [List.length_replicate]
    · exact fun hmem => absurd (List.eq_of_mem_replicate hmem) (by decide)
  · exact ⟨by decide, by decide, by decide⟩

/-- The line is reported as too long, but its last byte is passed as a line. -/
theorem main_passes_fragment : ∃ s, main (fun _ => false) longChunks (fun _ => 0) = .ok s ∧
    s.calls = [[98]] ∧ [98] ∉ complete newline longChunks.flatten := by
  have hopen : newline ∉ List.replicate bufsize (97 : UInt8) :=
    fun hmem => absurd (List.eq_of_mem_replicate hmem) (by decide)
  obtain ⟨hfirst, hsecond⟩ := List.forall_mem_cons.mp readable_longChunks
  have hstart := follows_start (fun _ => false) (fun _ => 0)
  obtain ⟨s₁, hturn₁, hs₁, hcalls₁⟩ := hstart.turn hfirst
  have hkept : kept ([] ++ List.replicate bufsize 97) = [] := by
    rw [List.nil_append, kept, fragment_of_notMem hopen, List.length_replicate, if_pos le_rfl]
  have hnone : s₁.calls = [] := by
    rw [hcalls₁, List.nil_append, List.nil_append, complete_of_notMem hopen]
  rw [hkept] at hs₁
  obtain ⟨s₂, hturn₂, hs₂, hcalls₂⟩ := hs₁.turn (hsecond _ List.mem_cons_self)
  rw [hnone] at hcalls₂
  have hdone₁ : s₁.done = false := by
    rw [hs₁.done, hnone]
    rfl
  refine ⟨s₂, ?_, hcalls₂.trans (by decide), ?_⟩
  · rw [main, longChunks, mainLoop, if_neg (by decide), hturn₁, ok_bind, mainLoop, hdone₁,
      if_neg (by decide), hturn₂, ok_bind, mainLoop]
  · have hlines : complete newline longChunks.flatten = [List.replicate bufsize 97 ++ [98]] := by
      have hline : newline ∉ List.replicate bufsize (97 : UInt8) ++ [98] := by
        rw [List.mem_append, not_or]
        exact ⟨hopen, by decide⟩
      have hsplit := complete_line hline []
      rw [complete_of_notMem List.not_mem_nil, List.append_assoc] at hsplit
      exact hsplit
    rw [hlines, List.mem_singleton]
    intro hsame
    have hlength := congrArg List.length hsame
    rw [List.length_append, List.length_replicate] at hlength
    exact absurd hlength (by decide)

end Rhythmos.Shell
