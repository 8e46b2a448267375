import Rhythmos.Filesystem.Paths
import Rhythmos.Libc.Formats

/-!
# The buffer of `relative_to_absolute`

The function as it edits its buffer, with every access to the buffer checked.  After each
component the buffer holds the text that the functions on lists compute, followed by a NUL.
-/

namespace Rhythmos.Filesystem.PathBuffer

open ByteMemory Components Fallible Libc.Printf

/-! ## The function of `filesystem.c` -/

/-- The array `abs` and the variable `abs_len`. -/
structure Buffer where
  abs : ℕ → UInt8
  absLen : ℕ

/-- The value `abs[index]`. -/
def load (max : ℕ) (abs : ℕ → UInt8) (index : ℕ) : Except Fault UInt8 :=
  if index < max then .ok (abs index) else .error .outOfBounds

/-- The assignment `abs[index] = c`. -/
def store (max : ℕ) (abs : ℕ → UInt8) (index : ℕ) (c : UInt8) : Except Fault (ℕ → UInt8) :=
  if index < max then .ok (Function.update abs index c) else .error .outOfBounds

/-- The value `abs[abs_len - 1]`. -/
def loadLast (max : ℕ) (b : Buffer) : Except Fault UInt8 :=
  match b.absLen with
  | 0 => .error .outOfBounds
  | last + 1 => load max b.abs last

/-- `strlen` of the string that `read` reads, from the index `len` on. -/
def strlen (read : ℕ → Except Fault UInt8) : ℕ → ℕ → Except Fault ℕ
  | 0, _ => .error .diverges
  | fuel + 1, len => do
      let c ← read len
      if c = 0 then return len else strlen read fuel (len + 1)

/-- The loop that removes the characters behind the last `'/'`. -/
def stripLoop (max : ℕ) (abs : ℕ → UInt8) : ℕ → Except Fault Buffer
  | absLen + 2 => do
      let last ← load max abs (absLen + 1)
      if last ≠ slash then do
        let abs ← store max abs (absLen + 1) 0
        stripLoop max abs (absLen + 1)
      else return ⟨abs, absLen + 2⟩
  | absLen => .ok ⟨abs, absLen⟩

/-- The case of `".."`. -/
def removeLast (max : ℕ) (b : Buffer) : Except Fault Buffer := do
  let b ← stripLoop max b.abs b.absLen
  match b.absLen with
  | absLen + 2 => do
      let abs ← store max b.abs (absLen + 1) 0
      return ⟨abs, absLen + 1⟩
  | _ => return b

/-- The loop that copies the characters of `rel` from `rpos` on. -/
def copyLoop (max : ℕ) (rel : ℕ → UInt8) : ℕ → ℕ → Buffer → Except Fault Buffer
  | 0, _, b => .ok b
  | count + 1, rpos, b =>
      if b.absLen < max - 1 then do
        let abs ← store max b.abs b.absLen (rel rpos)
        copyLoop max rel count (rpos + 1) ⟨abs, b.absLen + 1⟩
      else .ok b

/-- The extra `'/'` in front of a name, if the path is not the root. -/
def addSlash (max : ℕ) (b : Buffer) : Except Fault Buffer :=
  if b.absLen < max - 1 then do
    let last ← loadLast max b
    if last ≠ slash then do
      let abs ← store max b.abs b.absLen slash
      return ⟨abs, b.absLen + 1⟩
    else return b
  else .ok b

/-- The case of a name. -/
def addComponent (max : ℕ) (rel : ℕ → UInt8) (start pos : ℕ) (b : Buffer) :
    Except Fault Buffer := do
  let b ← addSlash max b
  let b ← copyLoop max rel (pos - start) start b
  let abs ← store max b.abs b.absLen 0
  return { b with abs := abs }

/-- What is done with the component from `rel[start]` to `rel[pos - 1]`, if there is one. -/
def command (max : ℕ) (rel : ℕ → UInt8) (start pos : ℕ) (b : Buffer) : Except Fault Buffer :=
  if pos ≤ start then .ok b
  else if pos - start = 1 ∧ rel start = ascii '.' then .ok b
  else if pos - start = 2 ∧ rel start = ascii '.' ∧ rel (start + 1) = ascii '.' then
    removeLast max b
  else addComponent max rel start pos b

/-- The loop over the positions of `rel`, of which `left` are left. -/
def componentLoop (max : ℕ) (rel : ℕ → UInt8) (relLen : ℕ) :
    ℕ → ℕ → ℕ → Buffer → Except Fault Buffer
  | 0, _, _, b => .ok b
  | left + 1, pos, start, b =>
      if rel pos = slash ∨ pos = relLen then do
        let b ← command max rel start pos b
        componentLoop max rel relLen left (pos + 1) (pos + 1) b
      else componentLoop max rel relLen left (pos + 1) start b

/-- The path that the buffer starts with: the root if `rel` is absolute, and `base` if not. -/
def initialise (memory : Memory) (abs : ℕ → UInt8) (base : BitVec 32) (rel : ℕ → UInt8)
    (max : ℕ) : Except Fault ((ℕ → UInt8) × ℕ) :=
  if rel 0 = slash then vsnprintf abs max ⟨ofList [slash, 0], fun _ => 0, memory⟩
  else vsnprintf abs max ⟨ofList [ascii '%', ascii 's', 0], fun _ => base, memory⟩

/-- `relative_to_absolute`, with strings at `base` and `rel` in a memory apart from the
buffer. -/
def relativeToAbsolute (memory : Memory) (abs : ℕ → UInt8) (base rel : BitVec 32) (max : ℕ) :
    Except Fault (ℕ → UInt8) := do
  let rel := fun index => memory (rel.toNat + index)
  let (abs, _) ← initialise memory abs base rel max
  let relLen ← strlen (fun index => .ok (rel index)) wordCount 0
  let absLen ← strlen (load max abs) wordCount 0
  let b ← componentLoop max rel relLen (relLen + 1) 0 0 ⟨abs, absLen⟩
  return b.abs

/-! ## Texts in the buffer -/

variable {max : ℕ} {b : Buffer} {text : List UInt8}

/-- The buffer starts with a text, which is given from its last character on. -/
structure Written (max : ℕ) (b : Buffer) (text : List UInt8) : Prop where
  bytes : BytesAt b.abs 0 text.reverse
  length_eq : b.absLen = text.length
  length_le : text.length ≤ max - 1

/-- The text is followed by a NUL. -/
structure Terminated (max : ℕ) (b : Buffer) (text : List UInt8) : Prop extends
    Written max b text where
  terminator : b.abs b.absLen = 0

theorem load_eq {abs : ℕ → UInt8} {index : ℕ} (hinside : index < max) :
    load max abs index = .ok (abs index) := if_pos hinside

theorem Written.load {c : UInt8} {abs : ℕ → UInt8} {absLen : ℕ} (hmax : 2 ≤ max)
    (hwritten : Written max ⟨abs, absLen + 1⟩ (c :: text)) : load max abs absLen = .ok c := by
  obtain ⟨hbytes, hlength, hle⟩ := hwritten
  rw [List.length_cons] at hlength hle
  rw [List.reverse_cons, bytesAt_append, bytesAt_singleton, Nat.zero_add, List.length_reverse]
    at hbytes
  obtain rfl : absLen = text.length := Nat.succ_injective hlength
  rw [load_eq (by omega)]
  exact congrArg Except.ok hbytes.2

theorem Written.loadLast {c : UInt8} (hmax : 2 ≤ max) (hwritten : Written max b (c :: text)) :
    loadLast max b = .ok c := by
  obtain ⟨abs, absLen⟩ := b
  obtain rfl : absLen = text.length + 1 := hwritten.length_eq
  exact hwritten.load hmax

/-- A character is appended. -/
theorem Written.push (hwritten : Written max b text) (hroom : text.length < max - 1) (c : UInt8) :
    store max b.abs b.absLen c = .ok (Function.update b.abs b.absLen c) ∧
      Written max ⟨Function.update b.abs b.absLen c, b.absLen + 1⟩ (c :: text) := by
  obtain ⟨hbytes, hlength, -⟩ := hwritten
  refine ⟨by rw [store, if_pos (by omega)], ?_, ?_, ?_⟩
  · rw [List.reverse_cons, bytesAt_append, bytesAt_singleton, Nat.zero_add, List.length_reverse,
      ← hlength]
    refine ⟨bytesAt_update hbytes (.inr ?_) c, Function.update_self _ _ _⟩
    rw [Nat.zero_add, List.length_reverse, hlength]
  · rw [List.length_cons, hlength]
  · exact hroom

/-- A NUL is put behind the text. -/
theorem Written.terminate (hmax : 2 ≤ max) (hwritten : Written max b text) :
    store max b.abs b.absLen 0 = .ok (Function.update b.abs b.absLen 0) ∧
      Terminated max ⟨Function.update b.abs b.absLen 0, b.absLen⟩ text := by
  obtain ⟨hbytes, hlength, hle⟩ := hwritten
  refine ⟨by rw [store, if_pos (by omega)], ⟨?_, hlength, hle⟩, Function.update_self _ _ _⟩
  refine bytesAt_update hbytes (.inr ?_) 0
  rw [Nat.zero_add, List.length_reverse, hlength]

/-- The last character is left out. -/
theorem Written.pop {c : UInt8} {abs : ℕ → UInt8} {absLen : ℕ}
    (hwritten : Written max ⟨abs, absLen + 1⟩ (c :: text)) : Written max ⟨abs, absLen⟩ text := by
  obtain ⟨hbytes, hlength, hle⟩ := hwritten
  rw [List.length_cons] at hlength hle
  rw [List.reverse_cons, bytesAt_append] at hbytes
  exact ⟨hbytes.1, by simpa using hlength, by omega⟩

/-! ## The cases -/

theorem stripLoop_eq (hmax : 2 ≤ max) (text : List UInt8) : ∀ {abs : ℕ → UInt8} {absLen : ℕ},
    Terminated max ⟨abs, absLen⟩ text →
    ∃ b', stripLoop max abs absLen = .ok b' ∧ Terminated max b' (stripName text) := by
  induction text with
  | nil =>
      intro abs absLen hterminated
      obtain rfl : absLen = 0 := hterminated.length_eq
      exact ⟨_, rfl, hterminated⟩
  | cons last text ih =>
      intro abs absLen hterminated
      cases text with
      | nil =>
          obtain rfl : absLen = 1 := hterminated.length_eq
          exact ⟨_, rfl, hterminated⟩
      | cons before text =>
          obtain rfl : absLen = text.length + 2 := hterminated.length_eq
          rw [stripLoop, hterminated.toWritten.load hmax, ok_bind, stripName]
          split
          next hname =>
            obtain ⟨hstore, hshorter⟩ := hterminated.toWritten.pop.terminate hmax
            rw [hstore, ok_bind]
            exact ih hshorter
          next => exact ⟨_, rfl, hterminated⟩

theorem removeLast_eq (hmax : 2 ≤ max) (hterminated : Terminated max b text) :
    ∃ b', removeLast max b = .ok b' ∧ Terminated max b' (removeName text) := by
  obtain ⟨⟨abs, absLen⟩, hstrip, hstripped⟩ := stripLoop_eq hmax text hterminated
  rw [removeLast, hstrip, ok_bind, removeName]
  generalize stripName text = stripped at hstripped
  cases stripped with
  | nil =>
      obtain rfl : absLen = 0 := hstripped.length_eq
      exact ⟨_, rfl, hstripped⟩
  | cons last rest =>
      cases rest with
      | nil =>
          obtain rfl : absLen = 1 := hstripped.length_eq
          exact ⟨_, rfl, hstripped⟩
      | cons before rest =>
          obtain rfl : absLen = rest.length + 2 := hstripped.length_eq
          obtain ⟨hstore, hshorter⟩ := hstripped.toWritten.pop.terminate hmax
          dsimp only at hstore ⊢
          rw [hstore]
          exact ⟨_, rfl, hshorter⟩

/-- Characters are copied while there is room. -/
theorem copyLoop_eq {rel : ℕ → UInt8} (name : List UInt8) : ∀ {rpos : ℕ} {b : Buffer}
    {text : List UInt8}, BytesAt rel rpos name → Written max b text →
    ∃ b', copyLoop max rel name.length rpos b = .ok b' ∧
      Written max b' (copyName max text name) := by
  induction name with
  | nil => exact fun _ hwritten => ⟨_, rfl, hwritten⟩
  | cons c name ih =>
      intro rpos b text hbytes hwritten
      obtain ⟨hc, hrest⟩ := bytesAt_cons.mp hbytes
      rw [List.length_cons, copyLoop, copyName, hwritten.length_eq]
      split
      next hroom =>
        obtain ⟨hstore, hlonger⟩ := hwritten.push hroom c
        rw [hc, ← hwritten.length_eq, hstore, ok_bind]
        exact ih hrest hlonger
      next => exact ⟨_, rfl, hwritten⟩

theorem addSlash_eq (hmax : 2 ≤ max) (hne : text ≠ []) (junk : UInt8)
    (hwritten : Written max b text) :
    ∃ b', addSlash max b = .ok b' ∧ Written max b'
      (if text.length < max - 1 ∧ text.headD junk ≠ slash then slash :: text else text) := by
  obtain ⟨last, rest, rfl⟩ := List.exists_cons_of_ne_nil hne
  rw [addSlash, hwritten.length_eq, List.headD_cons]
  by_cases hroom : (last :: rest).length < max - 1
  · rw [if_pos hroom, hwritten.loadLast hmax, ok_bind]
    by_cases hslash : last ≠ slash
    · obtain ⟨hstore, hlonger⟩ := hwritten.push hroom slash
      rw [if_pos hslash, if_pos ⟨hroom, hslash⟩, ← hwritten.length_eq, hstore]
      exact ⟨_, rfl, hlonger⟩
    · rw [if_neg hslash, if_neg fun h => hslash h.2]
      exact ⟨_, rfl, hwritten⟩
  · rw [if_neg hroom, if_neg fun h => hroom h.1]
    exact ⟨_, rfl, hwritten⟩

theorem addComponent_eq {rel : ℕ → UInt8} {start pos : ℕ} {name : List UInt8} (hmax : 2 ≤ max)
    (hname : BytesAt rel start name) (hpos : pos - start = name.length) (hne : text ≠ [])
    (junk : UInt8) (hterminated : Terminated max b text) :
    ∃ b', addComponent max rel start pos b = .ok b' ∧
      Terminated max b' (addName max junk text name) := by
  obtain ⟨b₁, hslash, hseparated⟩ := addSlash_eq hmax hne junk hterminated.toWritten
  obtain ⟨b₂, hcopied, hlonger⟩ := copyLoop_eq name hname hseparated
  obtain ⟨hstore, hend⟩ := hlonger.terminate hmax
  rw [addComponent, hslash, ok_bind, hpos, hcopied, ok_bind, hstore, ok_bind, addName]
  rw [apply_ite fun text => copyName max text name] at hend
  exact ⟨_, rfl, hend⟩

theorem stripName_ne_nil (hne : text ≠ []) : stripName text ≠ [] := by
  fun_induction stripName text with
  | case1 last before abs hlast ih => exact ih (List.cons_ne_nil _ _)
  | case2 => exact List.cons_ne_nil _ _
  | case3 => exact hne

theorem copyName_ne_nil (name : List UInt8) : ∀ {text : List UInt8}, text ≠ [] →
    copyName max text name ≠ [] := by
  induction name with
  | nil => exact fun hne => hne
  | cons c name ih =>
      intro text hne
      rw [copyName]
      split
      · exact ih (List.cons_ne_nil _ _)
      · exact hne

/-- The buffer never becomes empty. -/
theorem applyComponent_ne_nil (max : ℕ) (junk : UInt8) (component : List UInt8) (hne : text ≠ []) :
    applyComponent max junk text component ≠ [] := by
  rw [applyComponent]
  split
  · exact hne
  · split
    · rw [removeName]
      split
      · exact List.cons_ne_nil _ _
      · exact stripName_ne_nil hne
    · rw [addName]
      split
      · exact copyName_ne_nil component (List.cons_ne_nil _ _)
      · exact copyName_ne_nil component hne

theorem command_eq {rel : ℕ → UInt8} {start pos : ℕ} {component : List UInt8} (hmax : 2 ≤ max)
    (hbytes : BytesAt rel start component) (hpos : pos = start + component.length)
    (hne : text ≠ []) (junk : UInt8) (hterminated : Terminated max b text) :
    ∃ b', command max rel start pos b = .ok b' ∧ Terminated max b'
      (if component = [] then text else applyComponent max junk text component) := by
  have hlength : pos - start = component.length := by omega
  have hdot : pos - start = 1 ∧ rel start = ascii '.' ↔ component = dot := by
    rw [hlength, dot]
    constructor
    · rintro ⟨hcount, hfirst⟩
      obtain ⟨c, rfl⟩ := List.length_eq_one_iff.mp hcount
      rw [bytesAt_singleton.mp hbytes] at hfirst
      rw [hfirst]
      rfl
    · rintro rfl
      exact ⟨rfl, bytesAt_singleton.mp hbytes⟩
  have hdotDot : pos - start = 2 ∧ rel start = ascii '.' ∧ rel (start + 1) = ascii '.' ↔
      component = dotDot := by
    rw [hlength, dotDot]
    constructor
    · rintro ⟨hcount, hfirst, hsecond⟩
      obtain ⟨c, d, rfl⟩ := List.length_eq_two.mp hcount
      rw [bytesAt_cons, bytesAt_singleton] at hbytes
      rw [hbytes.1] at hfirst
      rw [hbytes.2] at hsecond
      rw [hfirst, hsecond]
      rfl
    · rintro rfl
      rw [bytesAt_cons, bytesAt_singleton] at hbytes
      exact ⟨rfl, hbytes⟩
  have hempty : pos ≤ start ↔ component = [] := by
    rw [← List.length_eq_zero_iff]
    omega
  rw [command, applyComponent, if_congr hempty rfl rfl, if_congr hdot rfl rfl,
    if_congr hdotDot rfl rfl]
  split
  · exact ⟨b, rfl, hterminated⟩
  · split
    · exact ⟨b, rfl, hterminated⟩
    · split
      · exact removeLast_eq hmax hterminated
      · exact addComponent_eq hmax hbytes hlength hne junk hterminated

/-! ## The loops -/

/-- The loop over the positions applies the components one after the other; `run` are the
characters since the last `'/'`. -/
theorem componentLoop_eq {rel : ℕ → UInt8} {relLen : ℕ} (hmax : 2 ≤ max) (junk : UInt8)
    (rest : List UInt8) : ∀ {run : List UInt8} {start pos : ℕ} {b : Buffer} {text : List UInt8},
    BytesAt rel start (run ++ rest) → pos = start + run.length → relLen = pos + rest.length →
    text ≠ [] → Terminated max b text →
    ∃ b', componentLoop max rel relLen (rest.length + 1) pos start b = .ok b' ∧
      Terminated max b'
        (((fieldsFrom slash run rest).map Prod.fst).foldl (applyComponent max junk) text) := by
  induction rest with
  | nil =>
      intro run start pos b text hbytes hpos hend hne hterminated
      rw [List.append_nil] at hbytes
      rw [List.length_nil, Nat.add_zero] at hend
      obtain ⟨b', hdone, hterminated'⟩ := command_eq hmax hbytes hpos hne junk hterminated
      rw [List.length_nil, Nat.zero_add, componentLoop, if_pos (.inr hend.symm), hdone, ok_bind,
        componentLoop, fieldsFrom]
      refine ⟨b', rfl, ?_⟩
      by_cases hempty : run = []
      · rw [if_pos hempty] at hterminated' ⊢
        exact hterminated'
      · rw [if_neg hempty] at hterminated' ⊢
        exact hterminated'
  | cons c rest ih =>
      intro run start pos b text hbytes hpos hend hne hterminated
      obtain ⟨hrun, hrest⟩ := bytesAt_append.mp hbytes
      obtain ⟨hc, hrest⟩ := bytesAt_cons.mp hrest
      rw [List.length_cons] at hend
      rw [← hpos] at hc hrest
      rw [List.length_cons, componentLoop, fieldsFrom]
      by_cases hslash : c = slash
      · obtain ⟨b₁, hdone, hterminated'⟩ := command_eq hmax hrun hpos hne junk hterminated
        rw [if_pos (.inl (hc.trans hslash)), if_pos hslash, hdone, ok_bind]
        by_cases hempty : run = []
        · rw [if_pos hempty] at hterminated' ⊢
          exact @ih [] _ _ _ _ hrest rfl (by omega) hne hterminated'
        · rw [if_neg hempty] at hterminated' ⊢
          rw [List.map_cons, List.foldl_cons]
          exact @ih [] _ _ _ _ hrest rfl (by omega)
            (applyComponent_ne_nil max junk run hne) hterminated'
      · have hinside : ¬ (rel pos = slash ∨ pos = relLen) := by
          rw [hc]
          rintro (h | h)
          · exact hslash h
          · omega
        rw [if_neg hinside, if_neg hslash]
        refine @ih (run ++ [c]) _ _ _ _ ?_ ?_ (by omega) hne hterminated
        · rw [List.append_assoc]
          exact hbytes
        · rw [List.length_append, List.length_singleton, hpos, Nat.add_assoc]

theorem strlen_eq {read : ℕ → Except Fault UInt8} {memory : Memory} (chars : List UInt8) :
    ∀ {fuel len : ℕ}, BytesAt memory len (chars ++ [0]) → 0 ∉ chars → chars.length < fuel →
      (∀ index ≤ len + chars.length, read index = .ok (memory index)) →
      strlen read fuel len = .ok (len + chars.length) := by
  induction chars with
  | nil =>
      intro fuel len hbytes _ hfuel hread
      obtain ⟨fuel, rfl⟩ := Nat.exists_eq_succ_of_ne_zero (Nat.ne_zero_of_lt hfuel)
      rw [strlen, hread len (Nat.le_add_right _ _), ok_bind, bytesAt_singleton.mp hbytes,
        if_pos rfl]
      rfl
  | cons c chars ih =>
      intro fuel len hbytes hnonzero hfuel hread
      obtain ⟨fuel, rfl⟩ := Nat.exists_eq_succ_of_ne_zero (Nat.ne_zero_of_lt hfuel)
      rw [List.mem_cons, not_or] at hnonzero
      rw [List.length_cons] at hfuel hread
      obtain ⟨hc, hrest⟩ := bytesAt_cons.mp hbytes
      rw [strlen, hread len (Nat.le_add_right _ _), ok_bind, hc, if_neg (Ne.symm hnonzero.1),
        ih hrest hnonzero.2 (by omega) (fun index hindex => hread index (by omega)),
        List.length_cons, Nat.add_assoc, Nat.add_comm 1]

/-! ## The whole function -/

/-- A string in memory, with a length that is an `int`. -/
structure StringAt (memory : Memory) (address : BitVec 32) (chars : List UInt8) : Prop where
  bytes : BytesAt memory address.toNat (chars ++ [0])
  nonzero : 0 ∉ chars
  length_lt : chars.length < 2 ^ 31

variable {memory : Memory} {base rel : BitVec 32} {chars path : List UInt8}

theorem initialise_eq (hmax : 2 ≤ max) (hbase : StringAt memory base chars)
    (hrel : StringAt memory rel path) (abs : ℕ → UInt8) :
    ∃ abs' length, initialise memory abs base (fun index => memory (rel.toNat + index)) max =
      .ok (abs', length) ∧
      BytesAt abs' 0 ((if path.head? = some slash then [slash].take (max - 1)
        else chars.take (max - 1)) ++ [0]) := by
  have hsmall : (2 : ℕ) ^ 31 < wordCount := by norm_num [wordCount]
  have hfirst : memory (rel.toNat + 0) = slash ↔ path.head? = some slash := by
    cases path with
    | nil =>
        rw [Nat.add_zero, bytesAt_singleton.mp hrel.bytes]
        decide
    | cons c path => simp [(bytesAt_cons.mp hrel.bytes).1]
  rw [initialise, if_congr hfirst rfl rfl]
  split
  · have hout : output [.literal ⟨slash, by decide⟩] [] = some [slash] := rfl
    have hnarrow : Narrow [.literal ⟨slash, by decide⟩] := by simp [Narrow]
    have hprinted := @vsnprintf_eq ⟨ofList [slash, 0], fun _ => 0, memory⟩ _ _ _ hnarrow hout
      (bytesAt_ofList _) (by decide) trivial (by decide) abs max
    exact ⟨_, _, hprinted, bytesAt_clipped [slash] abs (by omega)⟩
  · let items : List Item :=
      [.directive ⟨false, [], ascii 's', by decide, fun _ _ => by decide⟩]
    have hout : output items [.string chars] = some chars := by
      simp [items, output, field, conversions, Directive.pad, Directive.padBy, Directive.width]
    have hnarrow : Narrow items := by simp [Narrow, items, Directive.width]
    have hprinted := @vsnprintf_eq ⟨ofList [ascii '%', ascii 's', 0], fun _ => base, memory⟩ _ _ _
      hnarrow hout (bytesAt_ofList _) (by decide)
      ⟨⟨hbase.bytes, hbase.nonzero, hbase.length_lt.trans hsmall⟩, trivial⟩ hbase.length_lt abs max
    exact ⟨_, _, hprinted, bytesAt_clipped chars abs (by omega)⟩

/-- The function keeps to its buffer and leaves in it what the functions on lists compute. -/
theorem relativeToAbsolute_eq (hmax : 2 ≤ max) (hbase : StringAt memory base chars)
    (hne : chars ≠ []) (hrel : StringAt memory rel path) (abs : ℕ → UInt8) (junk : UInt8) :
    ∃ abs', relativeToAbsolute memory abs base rel max = .ok abs' ∧
      BytesAt abs' 0 (Filesystem.relativeToAbsolute junk chars path max ++ [0]) ∧
      (Filesystem.relativeToAbsolute junk chars path max).length ≤ max - 1 := by
  obtain ⟨abs₁, length, hinitial, hbytes⟩ := initialise_eq hmax hbase hrel abs
  have hsmall : (2 : ℕ) ^ 31 < wordCount := by norm_num [wordCount]
  generalize hstart : (if path.head? = some slash then [slash].take (max - 1)
    else chars.take (max - 1)) = first at hbytes
  obtain ⟨hfirst, hnonzero, hshort, hlength⟩ : first ≠ [] ∧ 0 ∉ first ∧ first.length ≤ max - 1 ∧
      first.length < wordCount := by
    have hroom : 0 < max - 1 := by omega
    subst hstart
    split
    · rw [List.take_of_length_le hroom]
      exact ⟨List.cons_ne_nil _ _, by decide, hroom, by decide⟩
    · have htaken := List.length_take_le (max - 1) chars
      have hless := List.length_take_le' (max - 1) chars
      refine ⟨?_, fun hmem => hbase.nonzero (List.mem_of_mem_take hmem), htaken, ?_⟩
      · rw [Ne, List.take_eq_nil_iff]
        rintro (h | h)
        · omega
        · exact hne h
      · exact hless.trans_lt (hbase.length_lt.trans hsmall)
  have hrelLen : strlen (fun index => .ok (memory (rel.toNat + index))) wordCount 0 =
      .ok path.length := by
    have hpath : BytesAt (fun index => memory (rel.toNat + index)) 0 (path ++ [0]) := by
      intro index hindex
      rw [Nat.zero_add]
      exact hrel.bytes index hindex
    have hlen := strlen_eq path hpath hrel.nonzero (hrel.length_lt.trans hsmall) fun _ _ => rfl
    rwa [Nat.zero_add] at hlen
  have habsLen : strlen (load max abs₁) wordCount 0 = .ok first.length := by
    have hread : ∀ index ≤ 0 + first.length, load max abs₁ index = .ok (abs₁ index) :=
      fun index hindex => load_eq (by omega)
    have hlen := strlen_eq first hbytes hnonzero hlength hread
    rwa [Nat.zero_add] at hlen
  obtain ⟨htext, hzero⟩ := bytesAt_append.mp hbytes
  have hterminated : Terminated max ⟨abs₁, first.length⟩ first.reverse :=
    ⟨⟨by rw [List.reverse_reverse]; exact htext, (List.length_reverse).symm,
      by rw [List.length_reverse]; exact hshort⟩, by simpa using bytesAt_singleton.mp hzero⟩
  have hrun : BytesAt (fun index => memory (rel.toNat + index)) 0 ([] ++ path) := by
    intro index hindex
    rw [Nat.zero_add]
    exact (bytesAt_append.mp hrel.bytes).1 index hindex
  have hpos : 0 = 0 + ([] : List UInt8).length := rfl
  obtain ⟨b, hloop, hb⟩ := componentLoop_eq hmax junk path hrun hpos (Nat.zero_add _).symm
    (List.reverse_ne_nil_iff.mpr hfirst) hterminated
  have hresult : Filesystem.relativeToAbsolute junk chars path max =
      (((fieldsFrom slash [] path).map Prod.fst).foldl (applyComponent max junk)
        first.reverse).reverse := by
    rw [Filesystem.relativeToAbsolute, hstart]
    rfl
  refine ⟨b.abs, ?_, ?_, ?_⟩
  · simp only [relativeToAbsolute, hinitial, ok_bind, hrelLen, habsLen, hloop, pure_eq_ok]
  · rw [hresult, bytesAt_append, bytesAt_singleton, List.length_reverse, ← hb.length_eq,
      Nat.zero_add]
    exact ⟨hb.bytes, hb.terminator⟩
  · rw [hresult, List.length_reverse]
    exact hb.length_le

/-! ## Paths that fit -/

/-- The base and every intermediate path fit a buffer of `max` bytes. -/
structure Fits (max : ℕ) (cwd : List (List UInt8)) (path : List UInt8) : Prop where
  base : (render cwd).length ≤ max - 1
  steps : ∀ parts, parts <+: components slash path →
    (render (parts.foldl descend (origin cwd path))).length ≤ max - 1

theorem pathLength_le_render (names : List (List UInt8)) :
    pathLength names ≤ (render names).length := by
  rw [render, pathLength]
  split
  next hroot => simp [hroot]
  next => exact le_rfl

theorem pathLength_dropLast {names : List (List UInt8)} (hne : names ≠ []) :
    pathLength names.dropLast < pathLength names := by
  obtain ⟨front, last, rfl⟩ := List.eq_nil_or_concat names |>.resolve_left hne
  rw [List.concat_eq_append, List.dropLast_concat, pathLength, pathLength, joined_append]
  simp

theorem Fits.survives {cwd : List (List UInt8)} (hfits : Fits max cwd path) :
    Survives max cwd path := by
  have hkept : ∀ parts, parts <+: components slash path →
      (parts.foldl (keepUp max) (origin cwd path, true)).2 = true := by
    intro parts
    induction parts using List.reverseRecOn with
    | nil => exact fun _ => rfl
    | append_singleton parts part ih =>
        intro hprefix
        have hparts : parts <+: components slash path :=
          (List.prefix_append parts [part]).trans hprefix
        have hkept := ih hparts
        have hnames := foldl_keepUp_fst max parts (origin cwd path, true)
        have hlength := (pathLength_le_render _).trans (hfits.steps parts hparts)
        rw [List.foldl_concat, keepUp, hkept, hnames]
        split
        · exact hkept
        · split
          · by_cases hroot : (parts.foldl descend (origin cwd path)).dropLast = []
            · simp [hroot]
            · have hne : parts.foldl descend (origin cwd path) ≠ [] := by
                intro hnil
                exact hroot (by rw [hnil]; rfl)
              have hshorter := pathLength_dropLast hne
              have hroom : pathLength (parts.foldl descend (origin cwd path)).dropLast < max - 1 :=
                hshorter.trans_le hlength
              simp [hroom]
          · rfl
  refine ⟨hkept _ (List.prefix_refl _), ?_⟩
  rw [foldl_keepUp_fst]
  exact (pathLength_le_render _).trans (hfits.steps _ (List.prefix_refl _))

/-! ## What the function computes -/

/-- The function only accesses its buffer and leaves a terminated string in it.  If the base
and every intermediate path fit, the string is the path that the components of `rel` lead to,
and it is normalised again. -/
theorem relativeToAbsolute_normalises {cwd : List (List UInt8)}
    (hcwd : ∀ name ∈ cwd, IsFileName name) (hbase : StringAt memory base (render cwd))
    (hrel : StringAt memory rel path) (hmax : 2 ≤ max) (abs : ℕ → UInt8) :
    ∃ abs' text, relativeToAbsolute memory abs base rel max = .ok abs' ∧
      BytesAt abs' 0 (text ++ [0]) ∧ 0 ∉ text ∧ text.length < max ∧
      (Fits max cwd path → text = render (resolve cwd path) ∧
        ∀ name ∈ resolve cwd path, IsFileName name) := by
  obtain ⟨abs', hresult, hbytes, hlength⟩ :=
    relativeToAbsolute_eq hmax hbase (render_ne_nil cwd) hrel abs 0
  have hzero := not_mem_relativeToAbsolute (by decide : (0 : UInt8) ≠ slash) hbase.nonzero
    hrel.nonzero 0 max
  refine ⟨abs', _, hresult, hbytes, hzero, by omega, fun hfits => ?_⟩
  have hdirectory : IsDirectoryPath max cwd :=
    ⟨hcwd, (pathLength_le_render cwd).trans hfits.base⟩
  obtain ⟨htext, hnames⟩ := Filesystem.relativeToAbsolute_eq hmax 0 hdirectory hfits.survives
  refine ⟨htext, fun name hname => ⟨hnames name hname, ?_⟩⟩
  have horigin : dot ∉ origin cwd path ∧ dotDot ∉ origin cwd path := by
    rw [origin]
    split
    · exact ⟨List.not_mem_nil, List.not_mem_nil⟩
    · exact ⟨fun h => (hcwd dot h).2.1 rfl, fun h => (hcwd dotDot h).2.2 rfl⟩
  obtain ⟨hdot, hdotDot⟩ := dotless_foldl_descend horigin (components slash path)
  exact ⟨fun h => hdot (h ▸ hname), fun h => hdotDot (h ▸ hname)⟩

/-- The path `"../b"` in the directory `"/a"`, with a buffer of three bytes. -/
theorem relativeToAbsolute_normalises_sibling : ∃ abs' text,
    relativeToAbsolute (ofList [slash, 0x61, 0, 0x2E, 0x2E, slash, 0x62, 0]) (fun _ => 1) 0 3 3 =
      .ok abs' ∧
    BytesAt abs' 0 (text ++ [0]) ∧ text = [slash, 0x62] := by
  have hbytes := bytesAt_ofList [slash, 0x61, 0, 0x2E, 0x2E, slash, 0x62, 0]
  have hbase : StringAt (ofList [slash, 0x61, 0, 0x2E, 0x2E, slash, 0x62, 0]) 0 (render [[0x61]]) :=
    ⟨(bytesAt_append.mp (show BytesAt _ 0 (render [[0x61]] ++ [0] ++ _) from hbytes)).1, by decide,
      by decide⟩
  have hrel : StringAt (ofList [slash, 0x61, 0, 0x2E, 0x2E, slash, 0x62, 0]) 3
      [0x2E, 0x2E, slash, 0x62] :=
    ⟨(bytesAt_append.mp (show BytesAt _ 0 ([slash, 0x61, 0] ++ _) from hbytes)).2, by decide,
      by decide⟩
  have hfits : Fits 3 [[0x61]] [0x2E, 0x2E, slash, 0x62] := by
    refine ⟨by decide, ?_⟩
    intro parts hparts
    have hparts' : parts ∈ [[], [dotDot], [dotDot, [0x62]]] := (List.mem_inits _ _).mpr hparts
    fin_cases hparts' <;> decide
  have hcwd : ∀ name ∈ [[(0x61 : UInt8)]], IsFileName name := by decide
  obtain ⟨abs', text, hresult, htext, -, -, hnormal⟩ :=
    relativeToAbsolute_normalises hcwd hbase hrel (by decide : 2 ≤ 3) fun _ => 1
  exact ⟨abs', text, hresult, htext, (hnormal hfits).1⟩

end Rhythmos.Filesystem.PathBuffer
