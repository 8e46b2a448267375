import Rhythmos.Library.Flags
import Rhythmos.Library.Lockstep
import Rhythmos.Libc.Printf

/-!
# The keyboard

`convert` and `keyboard_handler` of `keyboard.c`, without the reset of the interrupt controller and
the change of process, which do not concern the keyboard.  The desk is what the code is for: the
keys that are held, and what has been typed with them.
-/

namespace Rhythmos.Kernel.Keyboard

open Flags Lockstep
open Libc.Printf (ascii)

/-! ## The constants of `keyboard.h` -/

def keyboardOutputPort : ℕ := 0x60
def keyboardInputBufStatus : UInt8 := 0x02
def keyRelease : ℕ := 0x80

def kbdMetaAlt : BitVec 16 := 0x0200
def kbdMetaCtrl : BitVec 16 := 0x0400
def kbdMetaShift : BitVec 16 := 0x0800
def kbdMetaCaps : BitVec 16 := 0x1000
def kbdMetaNum : BitVec 16 := 0x2000
def kbdMetaScrl : BitVec 16 := 0x4000

def keyF1 : UInt8 := 0x80
def keyF2 : UInt8 := keyF1 + 1
def keyF3 : UInt8 := keyF2 + 1
def keyF4 : UInt8 := keyF3 + 1
def keyF5 : UInt8 := keyF4 + 1
def keyF6 : UInt8 := keyF5 + 1
def keyF7 : UInt8 := keyF6 + 1
def keyF8 : UInt8 := keyF7 + 1
def keyF9 : UInt8 := keyF8 + 1
def keyF10 : UInt8 := keyF9 + 1
def keyF11 : UInt8 := keyF10 + 1
def keyF12 : UInt8 := keyF11 + 1
def keyIns : UInt8 := 0x90
def keyDel : UInt8 := keyIns + 1
def keyHome : UInt8 := keyDel + 1
def keyEnd : UInt8 := keyHome + 1
def keyPgup : UInt8 := keyEnd + 1
def keyPgdn : UInt8 := keyPgup + 1
def keyLft : UInt8 := keyPgdn + 1
def keyUp : UInt8 := keyLft + 1
def keyDn : UInt8 := keyUp + 1
def keyRt : UInt8 := keyDn + 1

def raw1LeftCtrl : ℕ := 0x1D
def raw1RightCtrl : ℕ := 0x1D
def raw1LeftShift : ℕ := 0x2A
def raw1RightShift : ℕ := 0x36
def raw1LeftAlt : ℕ := 0x38
def raw1RightAlt : ℕ := 0x38
def raw1CapsLock : ℕ := 0x3A
def raw1NumLock : ℕ := 0x45
def raw1ScrollLock : ℕ := 0x46

/-! ## The key maps -/

/-- The codes from 0x38, which all maps have alike. -/
def lastKeys : List UInt8 := [
  0, ascii ' ', 0, keyF1, keyF2, keyF3, keyF4, keyF5,
  keyF6, keyF7, keyF8, keyF9, keyF10, 0, 0, keyHome,
  keyUp, keyPgup, ascii '-', keyLft, ascii '5', keyRt, ascii '+', keyEnd,
  keyDn, keyPgdn, keyIns, keyDel, 0, 0, 0, keyF11,
  keyF12]

def keyMap : List UInt8 := [
  0, 0x1B, ascii '1', ascii '2', ascii '3', ascii '4', ascii '5', ascii '6',
  ascii '7', ascii '8', ascii '9', ascii '0', ascii '-', ascii '=', 8, 9,
  ascii 'q', ascii 'w', ascii 'e', ascii 'r', ascii 't', ascii 'y', ascii 'u', ascii 'i',
  ascii 'o', ascii 'p', ascii '[', ascii ']', 10, 0, ascii 'a', ascii 's',
  ascii 'd', ascii 'f', ascii 'g', ascii 'h', ascii 'j', ascii 'k', ascii 'l', ascii ';',
  0x27, 0x60, 0, 0x5C, ascii 'z', ascii 'x', ascii 'c', ascii 'v',
  ascii 'b', ascii 'n', ascii 'm', ascii ',', ascii '.', ascii '/', 0, 0] ++ lastKeys

def keyMapShift : List UInt8 := [
  0, 0x1B, ascii '!', ascii '@', ascii '#', ascii '$', ascii '%', ascii '^',
  ascii '&', ascii '*', ascii '(', ascii ')', ascii '_', ascii '+', 8, 9,
  ascii 'Q', ascii 'W', ascii 'E', ascii 'R', ascii 'T', ascii 'Y', ascii 'U', ascii 'I',
  ascii 'O', ascii 'P', 0x7B, 0x7D, 10, 0, ascii 'A', ascii 'S',
  ascii 'D', ascii 'F', ascii 'G', ascii 'H', ascii 'J', ascii 'K', ascii 'L', ascii ':',
  0x22, ascii '~', 0, ascii '|', ascii 'Z', ascii 'X', ascii 'C', ascii 'V',
  ascii 'B', ascii 'N', ascii 'M', ascii '<', ascii '>', ascii '?', 0, ascii '*'] ++ lastKeys

def keyMapCaps : List UInt8 := [
  0, 0x1B, ascii '1', ascii '2', ascii '3', ascii '4', ascii '5', ascii '6',
  ascii '7', ascii '8', ascii '9', ascii '0', ascii '-', ascii '=', 8, 9,
  ascii 'Q', ascii 'W', ascii 'E', ascii 'R', ascii 'T', ascii 'Y', ascii 'U', ascii 'I',
  ascii 'O', ascii 'P', ascii '[', ascii ']', 10, 0, ascii 'A', ascii 'S',
  ascii 'D', ascii 'F', ascii 'G', ascii 'H', ascii 'J', ascii 'K', ascii 'L', ascii ';',
  0x27, 0x60, 0, 0x5C, ascii 'Z', ascii 'X', ascii 'C', ascii 'V',
  ascii 'B', ascii 'N', ascii 'M', ascii ',', ascii '.', ascii '/', 0, 0] ++ lastKeys

def keyMapCapsShift : List UInt8 := [
  0, 0x1B, ascii '!', ascii '@', ascii '#', ascii '$', ascii '%', ascii '^',
  ascii '&', ascii '*', ascii '(', ascii ')', ascii '_', ascii '+', 8, 9,
  ascii 'q', ascii 'w', ascii 'e', ascii 'r', ascii 't', ascii 'y', ascii 'u', ascii 'i',
  ascii 'o', ascii 'p', 0x7B, 0x7D, 10, 0, ascii 'a', ascii 's',
  ascii 'd', ascii 'f', ascii 'g', ascii 'h', ascii 'j', ascii 'k', ascii 'l', ascii ':',
  0x22, ascii '~', 0, ascii '|', ascii 'z', ascii 'x', ascii 'c', ascii 'v',
  ascii 'b', ascii 'n', ascii 'm', ascii '<', ascii '>', ascii '?', 0, ascii '*'] ++ lastKeys

/-! ## The functions of `keyboard.c` -/

/-- The static variables of `convert`, and the data that has gone to `input_pipe`, when there is
one.  Of the ports, how often the status has been read and what has been written. -/
structure Driver where
  kbdStatus : BitVec 16
  sawBreakCode : Bool
  inputPipe : Option (List UInt8)
  reads : ℕ
  written : List (ℕ × ℕ)

section Ports

-- The answers of the status port, in order.
variable (stat : ℕ → UInt8)

/-- The turns that are left when the input buffer is empty, and the number of answers then. -/
def waitKbd : ℕ → ℕ → ℕ × ℕ
  | 0, reads => (0, reads)
  | timeout + 1, reads =>
      if stat reads &&& keyboardInputBufStatus = 0 then (timeout + 1, reads + 1)
      else waitKbd timeout (reads + 1)

def writeKbd (k : Driver) (adr data : ℕ) : Driver :=
  let waited := waitKbd stat 500000 k.reads
  { k with
    reads := waited.2
    written := if waited.1 ≠ 0 then k.written ++ [(adr, data)] else k.written }

/-- The data that sets the LEDs. -/
def ledBits (status : BitVec 16) : ℕ :=
  (if Has status kbdMetaScrl then 1 else 0) ||| (if Has status kbdMetaNum then 2 else 0) |||
    (if Has status kbdMetaCaps then 4 else 0)

/-- The code at the label `LEDS`. -/
def leds (k : Driver) : Driver :=
  writeKbd stat (writeKbd stat k keyboardOutputPort 0xED) keyboardOutputPort (ledBits k.kbdStatus)

/-- What a break code does to `kbd_status`. -/
def breakMeta (status : BitVec 16) (key : ℕ) : BitVec 16 :=
  if key = raw1LeftAlt ∨ key = raw1RightAlt then status &&& ~~~kbdMetaAlt
  else if key = raw1LeftCtrl ∨ key = raw1RightCtrl then status &&& ~~~kbdMetaCtrl
  else if key = raw1LeftShift ∨ key = raw1RightShift then status &&& ~~~kbdMetaShift
  else status

/-- The raw scan code converted to a character. -/
def charOf (status : BitVec 16) (key : ℕ) : UInt8 :=
  if Has status kbdMetaCaps then
    if Has status kbdMetaShift then keyMapCapsShift.getD key 0 else keyMapCaps.getD key 0
  else
    if Has status kbdMetaShift then keyMapShift.getD key 0 else keyMap.getD key 0

/-- `convert` for a make code.  There is no result when the machine is rebooted. -/
def convertMake (k : Driver) (key : ℕ) : Option (UInt8 × Driver) :=
  if key = raw1LeftAlt ∨ key = raw1RightAlt then
    some (0, { k with kbdStatus := k.kbdStatus ||| kbdMetaAlt })
  else if key = raw1LeftCtrl ∨ key = raw1RightCtrl then
    some (0, { k with kbdStatus := k.kbdStatus ||| kbdMetaCtrl })
  else if key = raw1LeftShift ∨ key = raw1RightShift then
    some (0, { k with kbdStatus := k.kbdStatus ||| kbdMetaShift })
  else if key = raw1ScrollLock then
    some (0, leds stat { k with kbdStatus := k.kbdStatus ^^^ kbdMetaScrl })
  else if key = raw1NumLock then
    some (0, leds stat { k with kbdStatus := k.kbdStatus ^^^ kbdMetaNum })
  else if key = raw1CapsLock then
    some (0, leds stat { k with kbdStatus := k.kbdStatus ^^^ kbdMetaCaps })
  else if keyMap.length ≤ key then some (0, k)
  else if charOf k.kbdStatus key = 0 then some (0, k)
  else if Has k.kbdStatus kbdMetaCtrl ∧ Has k.kbdStatus kbdMetaAlt ∧
      charOf k.kbdStatus key = keyDel then none
  else some (charOf k.kbdStatus key, k)

/-- `convert` after the check for a break code. -/
def convertKey (k : Driver) (key : ℕ) : Option (UInt8 × Driver) :=
  if k.sawBreakCode then
    some (0, { k with kbdStatus := breakMeta k.kbdStatus key, sawBreakCode := false })
  else convertMake stat k key

def convert (k : Driver) (key : ℕ) : Option (UInt8 × Driver) :=
  if 0x80 ≤ key then convertKey stat { k with sawBreakCode := true } (key &&& 0x7F)
  else convertKey stat k key

/-- `write_to_pipe` for a character that is not 0. -/
def deliver (k : Driver) (i : UInt8) : Driver :=
  if i ≠ 0 then { k with inputPipe := k.inputPipe.map fun data => data ++ [i] } else k

def keyboardHandler (k : Driver) (key : ℕ) : Option Driver := do
  let converted ← convert stat k key
  return deliver converted.2 converted.1

end Ports

/-! ## The desk -/

/-- A key has a code of seven bits; of two keys with one code, one sends a code before it. -/
structure Key where
  extended : Bool
  code : Fin 128
deriving DecidableEq

/-- A code of the keyboard: the one before an extended key, or that a key is pressed or released. -/
inductive Sent
  | extend
  | make (key : Key)
  | release (key : Key)

def Sent.byte : Sent → ℕ
  | .extend => 0xE0
  | .make key => key.code
  | .release key => key.code + keyRelease

inductive Modifier
  | alt
  | ctrl
  | shift
deriving DecidableEq

namespace Modifier

def bit : Modifier → BitVec 16
  | alt => kbdMetaAlt
  | ctrl => kbdMetaCtrl
  | shift => kbdMetaShift

def codes : Modifier → List ℕ
  | alt => [raw1LeftAlt, raw1RightAlt]
  | ctrl => [raw1LeftCtrl, raw1RightCtrl]
  | shift => [raw1LeftShift, raw1RightShift]

end Modifier

/-- The keys that are held, how often Caps Lock has been pressed, and what has been typed. -/
structure Desk where
  held : Finset Key
  capsPresses : ℕ
  typed : List UInt8

def mapFor (caps shift : Bool) : List UInt8 :=
  if caps then if shift then keyMapCapsShift else keyMapCaps
  else if shift then keyMapShift else keyMap

namespace Desk

def Holds (d : Desk) (m : Modifier) : Prop := ∃ key ∈ d.held, key.code.val ∈ m.codes

instance (d : Desk) (m : Modifier) : Decidable (d.Holds m) :=
  inferInstanceAs (Decidable (∃ key ∈ d.held, key.code.val ∈ m.codes))

def CapsOn (d : Desk) : Prop := Odd d.capsPresses

instance (d : Desk) : Decidable d.CapsOn := inferInstanceAs (Decidable (Odd d.capsPresses))

/-- The character of a key, from the map for the modifiers in force. -/
def char (d : Desk) (key : Key) : UInt8 :=
  (mapFor (decide d.CapsOn) (decide (d.Holds .shift))).getD key.code 0

def press (d : Desk) (key : Key) : Desk :=
  { d with
    held := insert key d.held
    capsPresses := if key.code = raw1CapsLock then d.capsPresses + 1 else d.capsPresses }

def type (d : Desk) (c : UInt8) : Desk := if c = 0 then d else { d with typed := d.typed ++ [c] }

/-- Ctrl, Alt and Del end the work at the desk. -/
def send (d : Desk) : Sent → Option Desk
  | .extend => some d
  | .make key =>
      if d.Holds .ctrl ∧ d.Holds .alt ∧ d.char key = keyDel then none
      else some ((d.press key).type (d.char key))
  | .release key => some { d with held := d.held.erase key }

/-- Each key is pressed and released in turn. -/
def Alternates (d : Desk) : Sent → Prop
  | .extend => True
  | .make key => key ∉ d.held
  | .release key => key ∈ d.held

instance (d : Desk) : ∀ sent, Decidable (d.Alternates sent)
  | .extend => instDecidableTrue
  | .make key => inferInstanceAs (Decidable (key ∉ d.held))
  | .release key => inferInstanceAs (Decidable (key ∈ d.held))

/-- No other key of its kind is held when a modifier key is released. -/
def Alone (d : Desk) : Sent → Prop
  | .release key => ∀ m, key.code.val ∈ Modifier.codes m →
      ∀ other ∈ d.held, other.code.val ∈ m.codes → other = key
  | _ => True

end Desk

/-- The keyboard after some codes from the start. -/
def handled (stat : ℕ → UInt8) (inputPipe : Option (List UInt8)) (run : List Sent) :
    Option Driver :=
  run.foldlM (fun k sent => keyboardHandler stat k sent.byte) ⟨0, false, inputPipe, 0, []⟩

def emptyDesk : Desk := ⟨∅, 0, []⟩

def desk (run : List Sent) : Option Desk := run.foldlM Desk.send emptyDesk

/-- The bits of `kbd_status` say which modifiers are in force, and what has been typed has gone to
the pipe. -/
structure Follows (inputPipe : Option (List UInt8)) (k : Driver) (d : Desk) : Prop where
  modifiers : ∀ m : Modifier, Has k.kbdStatus m.bit ↔ d.Holds m
  caps : Has k.kbdStatus kbdMetaCaps ↔ d.CapsOn
  made : k.sawBreakCode = false
  pipe : k.inputPipe = inputPipe.map fun data => data ++ d.typed

variable {stat : ℕ → UInt8} {inputPipe : Option (List UInt8)} {k : Driver} {d : Desk} {key : Key}
variable {code : ℕ} {status : BitVec 16} {m m' : Modifier}

/-! ## The bits of `kbd_status` -/

theorem bit_and_bit (hne : m ≠ m') : m.bit &&& m'.bit = 0#16 := by
  cases m <;> cases m' <;> first | exact absurd rfl hne | rfl

theorem bit_and_caps : m.bit &&& kbdMetaCaps = 0#16 := by
  cases m <;> rfl

theorem has_bit : Has m.bit m.bit := by
  cases m <;> decide

theorem codes_inj (hm : code ∈ m.codes) (hm' : code ∈ m'.codes) : m = m' := by
  cases m <;> cases m' <;> first | rfl | skip
  all_goals
    simp only [Modifier.codes, List.mem_cons, List.not_mem_nil, or_false, raw1LeftAlt,
      raw1RightAlt, raw1LeftCtrl, raw1RightCtrl, raw1LeftShift, raw1RightShift] at hm hm'
    omega

theorem kbdMetaCaps_eq : kbdMetaCaps = BitVec.twoPow 16 12 := by decide

/-- No check of a modifier key succeeds. -/
theorem notMem_codes (hnone : ∀ m : Modifier, code ∉ m.codes) :
    ¬ (code = raw1LeftAlt ∨ code = raw1RightAlt) ∧
      ¬ (code = raw1LeftCtrl ∨ code = raw1RightCtrl) ∧
      ¬ (code = raw1LeftShift ∨ code = raw1RightShift) :=
  ⟨fun h => hnone .alt (List.mem_pair.mpr h), fun h => hnone .ctrl (List.mem_pair.mpr h),
    fun h => hnone .shift (List.mem_pair.mpr h)⟩

theorem mem_codes_iff (hm : code ∈ m.codes) : code ∈ m'.codes ↔ m = m' :=
  ⟨codes_inj hm, fun hsame => hsame ▸ hm⟩

theorem notMem_caps : raw1CapsLock ∉ m.codes := by
  cases m <;> decide

theorem breakMeta_of_mem (hm : code ∈ m.codes) : breakMeta status code = status &&& ~~~m.bit := by
  cases m <;> rw [Modifier.codes, List.mem_pair] at hm <;> obtain rfl | rfl := hm <;> rfl

theorem breakMeta_of_notMem (hnone : ∀ m : Modifier, code ∉ m.codes) :
    breakMeta status code = status := by
  obtain ⟨halt, hctrl, hshift⟩ := notMem_codes hnone
  rw [breakMeta, if_neg halt, if_neg hctrl, if_neg hshift]

theorem has_breakMeta : Has (breakMeta status code) m.bit ↔ Has status m.bit ∧ code ∉ m.codes := by
  by_cases hkind : ∃ m' : Modifier, code ∈ m'.codes
  · obtain ⟨m', hm'⟩ := hkind
    rw [breakMeta_of_mem hm']
    by_cases hsame : m' = m
    · subst hsame
      exact iff_of_false not_has_and_not fun h => h.2 hm'
    · rw [has_and_not (bit_and_bit hsame)]
      exact (and_iff_left fun hm => hsame (codes_inj hm' hm)).symm
  · rw [not_exists] at hkind
    rw [breakMeta_of_notMem hkind]
    exact (and_iff_left (hkind m)).symm

theorem has_breakMeta_caps : Has (breakMeta status code) kbdMetaCaps ↔ Has status kbdMetaCaps := by
  by_cases hkind : ∃ m' : Modifier, code ∈ m'.codes
  · obtain ⟨m', hm'⟩ := hkind
    rw [breakMeta_of_mem hm', has_and_not bit_and_caps]
  · rw [breakMeta_of_notMem (not_exists.mp hkind)]

theorem has_or_bit : Has (status ||| m.bit) m'.bit ↔ Has status m'.bit ∨ m = m' := by
  rw [has_or]
  refine or_congr_right ⟨fun hhas => ?_, fun hsame => hsame ▸ has_bit⟩
  by_contra hne
  exact hhas (bit_and_bit hne)

/-! ## What the functions do with a code -/

theorem convertMake_of_mem (hm : code ∈ m.codes) : convertMake stat k code =
    some (0, { k with kbdStatus := k.kbdStatus ||| m.bit }) := by
  cases m <;> rw [Modifier.codes, List.mem_pair] at hm <;> obtain rfl | rfl := hm <;> rfl

/-- A lock key toggles a bit of its own. -/
theorem convertMake_lock (hlock : code ∈ [raw1ScrollLock, raw1NumLock, raw1CapsLock]) :
    ∃ lock : BitVec 16, convertMake stat k code =
        some (0, leds stat { k with kbdStatus := k.kbdStatus ^^^ lock }) ∧
      (∀ m : Modifier, lock &&& m.bit = 0#16) ∧
      (code = raw1CapsLock → lock = kbdMetaCaps) ∧
      (code ≠ raw1CapsLock → lock &&& kbdMetaCaps = 0#16) := by
  rw [List.mem_cons, List.mem_pair] at hlock
  obtain rfl | rfl | rfl := hlock
  · exact ⟨kbdMetaScrl, rfl, fun m => by cases m <;> rfl, fun h => absurd h (by decide),
      fun _ => rfl⟩
  · exact ⟨kbdMetaNum, rfl, fun m => by cases m <;> rfl, fun h => absurd h (by decide),
      fun _ => rfl⟩
  · exact ⟨kbdMetaCaps, rfl, fun m => by cases m <;> rfl, fun _ => rfl, fun h => absurd rfl h⟩

theorem charOf_eq : charOf status code =
    (mapFor (decide (Has status kbdMetaCaps)) (decide (Has status kbdMetaShift))).getD code 0 := by
  by_cases hcaps : Has status kbdMetaCaps <;> by_cases hshift : Has status kbdMetaShift <;>
    simp only [charOf, mapFor, hcaps, hshift, decide_true, decide_false, if_true, if_false] <;> rfl

theorem length_mapFor (caps shift : Bool) : (mapFor caps shift).length = keyMap.length := by
  cases caps <;> cases shift <;> rfl

theorem keyDel_ne_zero : keyDel ≠ 0 := by decide

/-- A key that is no modifier and no lock. -/
theorem convertMake_char (hmodifier : ∀ m : Modifier, code ∉ m.codes)
    (hlock : code ∉ [raw1ScrollLock, raw1NumLock, raw1CapsLock]) : convertMake stat k code =
      if Has k.kbdStatus kbdMetaCtrl ∧ Has k.kbdStatus kbdMetaAlt ∧
        charOf k.kbdStatus code = keyDel then none else some (charOf k.kbdStatus code, k) := by
  obtain ⟨halt, hctrl, hshift⟩ := notMem_codes hmodifier
  rw [List.mem_cons, List.mem_pair, not_or, not_or] at hlock
  rw [convertMake, if_neg halt, if_neg hctrl, if_neg hshift, if_neg hlock.1, if_neg hlock.2.1,
    if_neg hlock.2.2]
  have hnothing (hzero : charOf k.kbdStatus code = 0) : some (0, k) =
      if Has k.kbdStatus kbdMetaCtrl ∧ Has k.kbdStatus kbdMetaAlt ∧
        charOf k.kbdStatus code = keyDel then none else some (charOf k.kbdStatus code, k) := by
    rw [hzero, if_neg fun h => keyDel_ne_zero h.2.2.symm]
  by_cases hlength : keyMap.length ≤ code
  · rw [if_pos hlength]
    refine hnothing ?_
    rw [charOf_eq, List.getD_eq_default _ _ ((length_mapFor _ _).trans_le hlength)]
  rw [if_neg hlength]
  by_cases hzero : charOf k.kbdStatus code = 0
  · rw [if_pos hzero]
    exact hnothing hzero
  · rw [if_neg hzero]

theorem keyboardHandler_make (hmade : k.sawBreakCode = false) (key : Key) :
    keyboardHandler stat k (Sent.make key).byte =
      (convertMake stat k key.code).map fun converted => deliver converted.2 converted.1 := by
  have hcode : ¬ 0x80 ≤ key.code.val := key.code.isLt.not_ge
  rw [keyboardHandler, Sent.byte, convert, if_neg hcode, convertKey, if_neg (by rw [hmade]; decide)]
  cases convertMake stat k key.code <;> rfl

theorem keyboardHandler_break (hcode : code < 128) : keyboardHandler stat k (code + keyRelease) =
    some { k with kbdStatus := breakMeta k.kbdStatus code, sawBreakCode := false } := by
  have hkey : (code + keyRelease) &&& 0x7F = code := by
    rw [keyRelease, Nat.and_two_pow_sub_one_eq_mod _ 7]
    omega
  rw [keyboardHandler, convert, if_pos (by rw [keyRelease]; omega), hkey, convertKey, if_pos rfl]
  rfl

/-! ## The desk -/

theorem Desk.holds_press : (d.press key).Holds m ↔ d.Holds m ∨ key.code.val ∈ m.codes := by
  have hheld : (d.press key).Holds m ↔ ∃ other ∈ insert key d.held, other.code.val ∈ m.codes :=
    Iff.rfl
  rw [hheld, Finset.exists_mem_insert, or_comm]
  rfl

theorem Desk.capsOn_press : (d.press key).CapsOn ↔
    if key.code = raw1CapsLock then ¬ d.CapsOn else d.CapsOn := by
  rw [Desk.CapsOn, Desk.press]
  by_cases hcaps : key.code = raw1CapsLock
  · rw [if_pos hcaps, if_pos hcaps, Nat.odd_add_one, Desk.CapsOn]
  · rw [if_neg hcaps, if_neg hcaps, Desk.CapsOn]

/-- A key that releases no modifier leaves the same modifiers in force. -/
theorem Desk.holds_erase (hm : key.code.val ∉ m.codes) :
    ({ d with held := d.held.erase key } : Desk).Holds m ↔ d.Holds m := by
  constructor
  · rintro ⟨other, hother, hcode⟩
    exact ⟨other, Finset.mem_of_mem_erase hother, hcode⟩
  · rintro ⟨other, hother, hcode⟩
    refine ⟨other, Finset.mem_erase.mpr ⟨fun hsame => ?_, hother⟩, hcode⟩
    exact hm (hsame ▸ hcode)

theorem mapFor_eq_zero (caps shift : Bool) (hm : code ∈ m.codes) :
    (mapFor caps shift).getD code 0 = 0 := by
  cases m <;> rw [Modifier.codes, List.mem_pair] at hm <;> obtain rfl | rfl := hm <;>
    cases caps <;> cases shift <;> rfl

theorem mapFor_lock_eq_zero (caps shift : Bool)
    (hlock : code ∈ [raw1ScrollLock, raw1NumLock, raw1CapsLock]) :
    (mapFor caps shift).getD code 0 = 0 := by
  rw [List.mem_cons, List.mem_pair] at hlock
  obtain rfl | rfl | rfl := hlock <;> cases caps <;> cases shift <;> rfl

/-- A key without a character. -/
theorem Desk.send_make (hchar : d.char key = 0) : d.send (.make key) = some (d.press key) := by
  rw [Desk.send, hchar, if_neg fun h => keyDel_ne_zero h.2.2.symm, Desk.type, if_pos rfl]

/-! ## The simulation -/

namespace Follows

theorem charOf (hfollows : Follows inputPipe k d) :
    charOf k.kbdStatus key.code = d.char key := by
  have hshift : decide (Has k.kbdStatus kbdMetaShift) = decide (d.Holds .shift) :=
    decide_eq_decide.mpr (hfollows.modifiers .shift)
  rw [charOf_eq, Desk.char, decide_eq_decide.mpr hfollows.caps, hshift]

/-- A key is pressed, and `kbd_status` gets the bit of its kind. -/
theorem press (hfollows : Follows inputPipe k d) {k' : Driver}
    (hmodifiers : ∀ m : Modifier,
      Has k'.kbdStatus m.bit ↔ Has k.kbdStatus m.bit ∨ key.code.val ∈ m.codes)
    (hcaps : Has k'.kbdStatus kbdMetaCaps ↔ if key.code = raw1CapsLock then
      ¬ Has k.kbdStatus kbdMetaCaps else Has k.kbdStatus kbdMetaCaps)
    (hmade : k'.sawBreakCode = k.sawBreakCode) (hpipe : k'.inputPipe = k.inputPipe) :
    Follows inputPipe k' (d.press key) where
  modifiers m := by
    rw [hmodifiers m, hfollows.modifiers m, Desk.holds_press]
  caps := by
    rw [hcaps, Desk.capsOn_press, hfollows.caps]
  made := hmade.trans hfollows.made
  pipe := hpipe.trans hfollows.pipe

theorem deliver (hfollows : Follows inputPipe k d) (c : UInt8) :
    Follows inputPipe (deliver k c) (d.type c) := by
  rw [Keyboard.deliver, Desk.type]
  by_cases hzero : c = 0
  · rw [if_neg (not_not_intro hzero), if_pos hzero]
    exact hfollows
  · rw [if_pos hzero, if_neg hzero]
    refine ⟨hfollows.modifiers, hfollows.caps, hfollows.made, ?_⟩
    show k.inputPipe.map _ = _
    rw [hfollows.pipe, Option.map_map]
    refine congrArg (fun f => inputPipe.map f) (funext fun data => ?_)
    exact List.append_assoc _ _ _

theorem make_modifier (hfollows : Follows inputPipe k d) (hm : key.code.val ∈ m.codes) :
    Option.Rel (Follows inputPipe) (keyboardHandler stat k (Sent.make key).byte)
      (d.send (.make key)) := by
  have hcaps : key.code.val ≠ raw1CapsLock := fun hcode => notMem_caps (hcode ▸ hm)
  rw [keyboardHandler_make hfollows.made, convertMake_of_mem hm,
    Desk.send_make (mapFor_eq_zero _ _ hm)]
  refine Option.Rel.some (hfollows.press (fun m' => ?_) ?_ rfl rfl)
  · rw [mem_codes_iff hm]
    exact has_or_bit
  · rw [if_neg hcaps]
    have hstatus : Has (k.kbdStatus ||| m.bit) kbdMetaCaps ↔ Has k.kbdStatus kbdMetaCaps := by
      rw [has_or]
      exact or_iff_left fun hhas => hhas bit_and_caps
    exact hstatus

theorem make_lock (hfollows : Follows inputPipe k d)
    (hlock : key.code.val ∈ [raw1ScrollLock, raw1NumLock, raw1CapsLock]) :
    Option.Rel (Follows inputPipe) (keyboardHandler stat k (Sent.make key).byte)
      (d.send (.make key)) := by
  have hnone (m : Modifier) : key.code.val ∉ m.codes := by
    intro hm
    rw [List.mem_cons, List.mem_pair] at hlock
    obtain hcode | hcode | hcode := hlock <;> rw [hcode] at hm <;>
      cases m <;> exact absurd hm (by decide)
  obtain ⟨lock, hconvert, hbits, hcaps, hnoCaps⟩ := @convertMake_lock stat k _ hlock
  rw [keyboardHandler_make hfollows.made, hconvert,
    Desk.send_make (mapFor_lock_eq_zero _ _ hlock)]
  refine Option.Rel.some (hfollows.press (fun m => ?_) ?_ rfl rfl)
  · exact (has_xor (hbits m)).trans (or_iff_left (hnone m)).symm
  · by_cases hcode : key.code.val = raw1CapsLock
    · rw [if_pos hcode, ← hcaps hcode]
      exact has_xor_self (by decide) ((hcaps hcode).trans kbdMetaCaps_eq)
    · rw [if_neg hcode]
      exact has_xor (hnoCaps hcode)

theorem make_char (hfollows : Follows inputPipe k d)
    (hmodifier : ∀ m : Modifier, key.code.val ∉ m.codes)
    (hlock : key.code.val ∉ [raw1ScrollLock, raw1NumLock, raw1CapsLock]) :
    Option.Rel (Follows inputPipe) (keyboardHandler stat k (Sent.make key).byte)
      (d.send (.make key)) := by
  have hcaps : key.code.val ≠ raw1CapsLock := fun hcode => by
    rw [hcode] at hlock
    exact hlock (by decide)
  have hpressed : Follows inputPipe k (d.press key) :=
    hfollows.press (fun m => (or_iff_left (hmodifier m)).symm) (by rw [if_neg hcaps]) rfl rfl
  have hsalute : (Has k.kbdStatus kbdMetaCtrl ∧ Has k.kbdStatus kbdMetaAlt ∧
      d.char key = keyDel) ↔ d.Holds .ctrl ∧ d.Holds .alt ∧ d.char key = keyDel :=
    and_congr (hfollows.modifiers .ctrl) (and_congr_left' (hfollows.modifiers .alt))
  rw [keyboardHandler_make hfollows.made, convertMake_char hmodifier hlock, hfollows.charOf,
    Desk.send]
  by_cases hreboots : d.Holds .ctrl ∧ d.Holds .alt ∧ d.char key = keyDel
  · rw [if_pos (hsalute.mpr hreboots), if_pos hreboots]
    exact Option.Rel.none
  · rw [if_neg (mt hsalute.mp hreboots), if_neg hreboots]
    exact Option.Rel.some (hpressed.deliver _)

theorem make (hfollows : Follows inputPipe k d) (key : Key) :
    Option.Rel (Follows inputPipe) (keyboardHandler stat k (Sent.make key).byte)
      (d.send (.make key)) := by
  by_cases hmodifier : ∃ m : Modifier, key.code.val ∈ m.codes
  · obtain ⟨m, hm⟩ := hmodifier
    exact hfollows.make_modifier hm
  by_cases hlock : key.code.val ∈ [raw1ScrollLock, raw1NumLock, raw1CapsLock]
  · exact hfollows.make_lock hlock
  · exact hfollows.make_char (not_exists.mp hmodifier) hlock

/-- The release of a key has the bit cleared, whatever other keys of its kind are held. -/
theorem release (hfollows : Follows inputPipe k d) (key : Key) :
    Option.Rel (Follows inputPipe) (keyboardHandler stat k (Sent.release key).byte)
      (d.send (.release key)) ↔ d.Alone (.release key) := by
  rw [Sent.byte, keyboardHandler_break key.code.isLt, Desk.send, rel_some_iff, Desk.Alone]
  constructor
  · intro hreleased m hm other hother hcode
    by_contra hne
    have hholds := (hreleased.modifiers m).mpr
      ⟨other, Finset.mem_erase.mpr ⟨hne, hother⟩, hcode⟩
    exact (has_breakMeta.mp hholds).2 hm
  · intro halone
    refine ⟨fun m => has_breakMeta.trans ?_, has_breakMeta_caps.trans hfollows.caps, rfl,
      hfollows.pipe⟩
    by_cases hm : key.code.val ∈ m.codes
    · refine iff_of_false (fun h => h.2 hm) ?_
      rintro ⟨other, hother, hcode⟩
      have hmem := Finset.mem_erase.mp hother
      exact hmem.1 (halone m hm other hmem.2 hcode)
    · rw [Desk.holds_erase hm, ← hfollows.modifiers m]
      exact and_iff_left hm

theorem extend (hfollows : Follows inputPipe k d) :
    Option.Rel (Follows inputPipe) (keyboardHandler stat k Sent.extend.byte) (d.send .extend) := by
  have hbreak : keyboardHandler stat k Sent.extend.byte = _ := keyboardHandler_break (by decide)
  have hnone (m : Modifier) : 0x60 ∉ m.codes := by
    cases m <;> decide
  rw [hbreak, breakMeta_of_notMem hnone]
  exact Option.Rel.some ⟨hfollows.modifiers, hfollows.caps, rfl, hfollows.pipe⟩

theorem send_iff (hfollows : Follows inputPipe k d) (sent : Sent) :
    Option.Rel (Follows inputPipe) (keyboardHandler stat k sent.byte) (d.send sent) ↔
      d.Alone sent := by
  cases sent with
  | extend => exact iff_of_true hfollows.extend trivial
  | make key => exact iff_of_true (hfollows.make key) trivial
  | release key => exact hfollows.release key

theorem start (inputPipe : Option (List UInt8)) :
    Follows inputPipe ⟨0, false, inputPipe, 0, []⟩ emptyDesk where
  modifiers m := iff_of_false not_has_zero fun hholds => by
    obtain ⟨key, hkey, -⟩ := hholds
    exact Finset.notMem_empty key hkey
  caps := iff_of_false not_has_zero (by decide)
  made := rfl
  pipe := by
    simp only [emptyDesk, List.append_nil]
    exact (congrFun Option.map_id inputPipe).symm

end Follows

/-- After each code `kbd_status` has the bits of the modifiers that are in force, and the pipe has
got the characters from the maps for them, exactly when no modifier key is released while another
key of its kind is held. -/
theorem handled_follows_iff (stat : ℕ → UInt8) (inputPipe : Option (List UInt8))
    (run : List Sent) :
    (∀ done, done <+: run →
      Option.Rel (Follows inputPipe) (handled stat inputPipe done) (desk done)) ↔
        Along Desk.send Desk.Alone emptyDesk run :=
  rel_iff_along (fun _ _ sent hfollows => hfollows.send_iff sent) (Follows.start inputPipe) run

/-- Both Shift keys are pressed, and one of them is released. -/
def twoShifts : List Sent := [.make ⟨false, 0x2A⟩, .make ⟨false, 0x36⟩, .release ⟨false, 0x2A⟩]

theorem twoShifts_loses_shift :
    Along Desk.send Desk.Alternates emptyDesk twoShifts ∧
      ¬ Option.Rel (Follows (some [])) (handled (fun _ => 0) (some []) twoShifts)
        (desk twoShifts) := by
  refine ⟨by decide, fun hfollows => ?_⟩
  have hkeyboard : handled (fun _ => 0) (some []) twoShifts =
      some ⟨0, false, some [], 0, []⟩ := rfl
  have hdesk : desk twoShifts = some ⟨{⟨false, 0x36⟩}, 0, []⟩ := rfl
  rw [hkeyboard, hdesk, rel_some_iff] at hfollows
  exact not_has_zero ((hfollows.modifiers .shift).mpr (by decide))

end Rhythmos.Kernel.Keyboard
