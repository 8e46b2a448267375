import Rhythmos.Constants
import Rhythmos.Library.Components

/-!
# Absolute paths

`relative_to_absolute` edits a buffer of `max` bytes component by component.  A path means
a list of names: `resolve` applies the components of a path to a working directory, one by
one and without any bound.  While the buffer is long enough it holds the text of that list,
and otherwise the first `max - 1` bytes of it, until a component is removed.
-/

namespace Rhythmos.Filesystem

open Components

/-- `'/'` -/
def slash : UInt8 := 0x2F

/-- `"."` -/
def dot : List UInt8 := [0x2E]

/-- `".."` -/
def dotDot : List UInt8 := [0x2E, 0x2E]

/-! ## `relative_to_absolute` -/

/-- The loop that removes the characters behind the last `'/'`.  The string in the buffer is
given from its last character on. -/
def stripName : List UInt8 → List UInt8
  | last :: before :: abs =>
      if last ≠ slash then stripName (before :: abs) else last :: before :: abs
  | abs => abs

/-- The case of `".."`. -/
def removeName (abs : List UInt8) : List UInt8 :=
  match stripName abs with
  | _ :: before :: abs => before :: abs
  | abs => abs

/-- The loop that copies a name to the end of the buffer. -/
def copyName (max : ℕ) (abs : List UInt8) : List UInt8 → List UInt8
  | [] => abs
  | c :: name => if abs.length < max - 1 then copyName max (c :: abs) name else abs

/-- The case of a name.  `junk` is what lies before the buffer: `abs[abs_len - 1]` is there
while the string is empty. -/
def addName (max : ℕ) (junk : UInt8) (abs name : List UInt8) : List UInt8 :=
  if abs.length < max - 1 ∧ abs.headD junk ≠ slash then copyName max (slash :: abs) name
  else copyName max abs name

def applyComponent (max : ℕ) (junk : UInt8) (abs component : List UInt8) : List UInt8 :=
  if component = dot then abs
  else if component = dotDot then removeName abs
  else addName max junk abs component

/-- `relative_to_absolute`. -/
def relativeToAbsolute (junk : UInt8) (base rel : List UInt8) (max : ℕ) : List UInt8 :=
  let abs := if rel.head? = some slash then [slash].take (max - 1) else base.take (max - 1)
  ((components slash rel).foldl (applyComponent max junk) abs.reverse).reverse

/-! ## What paths mean -/

/-- A name that a component of a path can have, apart from `"."` and `".."`. -/
def IsFileName (name : List UInt8) : Prop := IsName slash name ∧ name ≠ dot ∧ name ≠ dotDot

instance (name : List UInt8) : Decidable (IsFileName name) :=
  inferInstanceAs (Decidable ((name ≠ [] ∧ slash ∉ name) ∧ name ≠ dot ∧ name ≠ dotDot))

/-- A component applied to a list of names. -/
def descend (names : List (List UInt8)) (component : List UInt8) : List (List UInt8) :=
  if component = dot then names
  else if component = dotDot then names.dropLast
  else names ++ [component]

/-- Where a path starts. -/
def origin (cwd : List (List UInt8)) (path : List UInt8) : List (List UInt8) :=
  if path.head? = some slash then [] else cwd

/-- The names of the file that a path refers to, from the root on. -/
def resolve (cwd : List (List UInt8)) (path : List UInt8) : List (List UInt8) :=
  (components slash path).foldl descend (origin cwd path)

/-- The text of a list of names. -/
def render (names : List (List UInt8)) : List UInt8 :=
  if names = [] then [slash] else joined slash names

/-- The length of a list of names as a text. -/
def pathLength (names : List (List UInt8)) : ℕ := (joined slash names).length

/-! ## The buffer holds a prefix -/

variable {max : ℕ} {junk : UInt8} {names : List (List UInt8)} {name : List UInt8}

theorem copyName_eq (max : ℕ) (abs name : List UInt8) (habs : abs.length ≤ max - 1) :
    copyName max abs name = (abs.reverse ++ name.take (max - 1 - abs.length)).reverse := by
  induction name generalizing abs with
  | nil => simp [copyName]
  | cons c name ih =>
      rw [copyName]
      by_cases hroom : abs.length < max - 1
      · rw [if_pos hroom, ih (c :: abs) (by simpa using hroom)]
        obtain ⟨n, hn⟩ : ∃ n, max - 1 - abs.length = n + 1 := ⟨max - 1 - abs.length - 1, by omega⟩
        have hless : max - 1 - (c :: abs).length = n := by
          rw [List.length_cons]
          omega
        rw [hless, hn, List.take_succ_cons]
        simp
      · have hfull : max - 1 - abs.length = 0 := by omega
        simp [hroom, hfull]

theorem render_ne_nil (names : List (List UInt8)) : render names ≠ [] := by
  rw [render]
  split
  · simp
  next hnames =>
    obtain ⟨name, names, rfl⟩ := List.exists_cons_of_ne_nil hnames
    simp

theorem render_concat (names : List (List UInt8)) (name : List UInt8) :
    render (names ++ [name]) = joined slash names ++ slash :: name := by
  simp [render]

theorem length_render_le (hmax : 2 ≤ max) (hfits : pathLength names ≤ max - 1) :
    (render names).length ≤ max - 1 := by
  rw [render]
  split
  · simp
    omega
  · exact hfits

/-- A character of a name comes last. -/
theorem head_reverse_joined (hnames : ∀ name ∈ names, IsName slash name) (hne : names ≠ []) :
    (joined slash names).reverse.headD junk ≠ slash := by
  obtain ⟨front, last, rfl⟩ := List.eq_nil_or_concat names |>.resolve_left hne
  have hlast := hnames last (by simp)
  obtain ⟨init, c, rfl⟩ := List.eq_nil_or_concat last |>.resolve_left hlast.1
  have hc : c ≠ slash := by
    rintro rfl
    exact hlast.2 (by simp)
  simpa using hc

/-- Adding a name to a prefix of a path gives a prefix of the longer path. -/
theorem addName_take (hmax : 2 ≤ max) (hnames : ∀ name ∈ names, IsName slash name)
    (name : List UInt8) :
    addName max junk ((render names).take (max - 1)).reverse name =
      ((render (names ++ [name])).take (max - 1)).reverse := by
  rw [addName, render_concat]
  by_cases hroot : names = []
  · have hslash : [slash].take (max - 1) = [slash] := by
      rw [List.take_of_length_le]
      simp
      omega
    subst hroot
    rw [render, if_pos rfl, hslash, if_neg (by simp), copyName_eq _ _ _ (by simp; omega)]
    obtain ⟨n, hn⟩ : ∃ n, max - 1 = n + 1 := ⟨max - 2, by omega⟩
    simp [hn, List.take_succ_cons]
  · rw [render, if_neg hroot]
    by_cases hroom : (joined slash names).length < max - 1
    · have hwhole : (joined slash names).take (max - 1) = joined slash names :=
        List.take_of_length_le hroom.le
      rw [hwhole, if_pos ⟨by simpa using hroom, head_reverse_joined hnames hroot⟩,
        copyName_eq _ _ _ (by simpa using hroom)]
      obtain ⟨n, hn⟩ : ∃ n, max - 1 - (joined slash names).length = n + 1 :=
        ⟨max - 1 - (joined slash names).length - 1, by omega⟩
      have hless : max - 1 - (slash :: (joined slash names).reverse).length = n := by
        rw [List.length_cons, List.length_reverse]
        omega
      rw [hless, List.take_append, hwhole, hn, List.take_succ_cons]
      simp
    · have hfull : ((joined slash names).take (max - 1)).length = max - 1 := by
        rw [List.length_take]
        omega
      rw [if_neg (by simp [hfull]), copyName_eq _ _ _ (by simp [hfull])]
      rw [List.take_append_of_le_length (by omega)]
      simp [hfull]

theorem stripName_eq {name : List UInt8} (hname : slash ∉ name) (abs : List UInt8) :
    stripName (name ++ slash :: abs) = slash :: abs := by
  induction name with
  | nil => cases abs <;> simp [stripName]
  | cons c name ih =>
      rw [List.mem_cons, not_or] at hname
      obtain ⟨before, rest, hrest⟩ := List.exists_cons_of_ne_nil
        (show name ++ slash :: abs ≠ [] by simp)
      rw [List.cons_append, hrest, stripName, if_pos (Ne.symm hname.1), ← hrest, ih hname.2]

theorem removeName_eq {name : List UInt8} (hname : slash ∉ name) (abs : List UInt8) :
    removeName (name ++ slash :: abs) = if abs = [] then [slash] else abs := by
  rw [removeName, stripName_eq hname]
  cases abs <;> simp

/-- Removing the last name, where there was room for more than the names before it. -/
theorem removeName_concat (hname : slash ∉ name) (hroom : pathLength names < max - 1) :
    removeName ((render (names ++ [name])).take (max - 1)).reverse = (render names).reverse := by
  obtain ⟨n, hn⟩ : ∃ n, max - 1 - (joined slash names).length = n + 1 :=
    ⟨max - 1 - (joined slash names).length - 1, by rw [pathLength] at hroom; omega⟩
  have hcut : ((render (names ++ [name])).take (max - 1)).reverse =
      (name.take n).reverse ++ slash :: (joined slash names).reverse := by
    rw [render_concat, List.take_append, List.take_of_length_le hroom.le, hn, List.take_succ_cons]
    simp
  have hnone : slash ∉ (name.take n).reverse := by
    rw [List.mem_reverse]
    exact fun h => hname (List.mem_of_mem_take h)
  rw [hcut, removeName_eq hnone, render]
  by_cases hroot : names = []
  · simp [hroot]
  · obtain ⟨head, rest, rfl⟩ := List.exists_cons_of_ne_nil hroot
    simp

theorem removeName_root (hmax : 2 ≤ max) :
    removeName ((render []).take (max - 1)).reverse = (render []).reverse := by
  have hslash : (render []).take (max - 1) = [slash] := by
    rw [render, if_pos rfl, List.take_of_length_le]
    simp
    omega
  rw [hslash]
  simp [removeName, stripName, render]

/-- Removing a name from a path that does not fit leaves a path of fewer names. -/
theorem removeName_take (hmax : 2 ≤ max) (hnames : ∀ name ∈ names, IsName slash name)
    (hne : names ≠ []) :
    ∃ kept, kept.length < names.length ∧ (∀ name ∈ kept, name ∈ names) ∧
      pathLength kept ≤ max - 1 ∧
      removeName ((render names).take (max - 1)).reverse = (render kept).reverse := by
  induction names using List.reverseRecOn with
  | nil => exact absurd rfl hne
  | append_singleton names name ih =>
      have hname := hnames name (by simp)
      by_cases hroom : pathLength names < max - 1
      · refine ⟨names, by simp, fun other hother => by simp [hother], hroom.le, ?_⟩
        exact removeName_concat hname.2 hroom
      · have hfull : max - 1 ≤ (joined slash names).length := by
          rw [pathLength] at hroom
          omega
        have hne' : names ≠ [] := by
          rintro rfl
          simp at hfull
          omega
        have hcut : (render (names ++ [name])).take (max - 1) = (render names).take (max - 1) := by
          rw [render_concat, render, if_neg hne', List.take_append_of_le_length hfull]
        obtain ⟨kept, hless, hmem, hfits, hremove⟩ :=
          ih (fun other hother => hnames other (by simp [hother])) hne'
        refine ⟨kept, ?_, fun other hother => ?_, hfits, hcut ▸ hremove⟩
        · rw [List.length_append]
          omega
        · simp [hmem other hother]

/-! ## Paths that survive -/

/-- The names that a path refers to up to a component, and whether a buffer of `max` bytes
has kept up: a `".."` must lead to a path that leaves room, unless it leads to the root. -/
def keepUp (max : ℕ) (state : List (List UInt8) × Bool) (component : List UInt8) :
    List (List UInt8) × Bool :=
  if component = dot then state
  else if component = dotDot then
    (state.1.dropLast, state.2 && decide (pathLength state.1.dropLast < max - 1) ||
      decide (state.1.dropLast = []))
  else (state.1 ++ [component], state.2)

/-- The whole path keeps up with a buffer of `max` bytes, and the result fits. -/
def Survives (max : ℕ) (cwd : List (List UInt8)) (path : List UInt8) : Prop :=
  let state := (components slash path).foldl (keepUp max) (origin cwd path, true)
  state.2 = true ∧ pathLength state.1 ≤ max - 1

theorem keepUp_fst (max : ℕ) (state : List (List UInt8) × Bool) (component : List UInt8) :
    (keepUp max state component).1 = descend state.1 component := by
  rw [keepUp, descend]
  split
  · rfl
  · split <;> rfl

theorem foldl_keepUp_fst (max : ℕ) (path : List (List UInt8)) (state : List (List UInt8) × Bool) :
    (path.foldl (keepUp max) state).1 = path.foldl descend state.1 := by
  induction path generalizing state with
  | nil => rfl
  | cons component path ih => rw [List.foldl_cons, List.foldl_cons, ih, keepUp_fst]

/-- The buffer holds a prefix of the names `held`; these are the names of the path if the
buffer has kept up, and fewer if it has not. -/
structure Holds (max : ℕ) (state : List (List UInt8) × Bool) (abs : List UInt8)
    (held : List (List UInt8)) : Prop where
  text : abs = ((render held).take (max - 1)).reverse
  names : ∀ name ∈ held, IsName slash name
  kept : state.2 = true → held = state.1
  lost : state.2 = false → held.length < state.1.length

theorem take_render (hmax : 2 ≤ max) (hfits : pathLength names ≤ max - 1) :
    (render names).take (max - 1) = render names :=
  List.take_of_length_le (length_render_le hmax hfits)

variable {state : List (List UInt8) × Bool} {abs : List UInt8} {held : List (List UInt8)}

theorem Holds.add (hholds : Holds max state abs held) (hmax : 2 ≤ max) (junk : UInt8)
    (hname : IsName slash name) :
    Holds max (state.1 ++ [name], state.2) (addName max junk abs name) (held ++ [name]) where
  text := by rw [hholds.text, addName_take hmax hholds.names]
  names := by
    intro other hother
    rcases List.mem_append.mp hother with hother | hother
    · exact hholds.names other hother
    · obtain rfl := List.mem_singleton.mp hother
      exact hname
  kept hkept := by rw [hholds.kept hkept]
  lost hlost := by
    have hless := hholds.lost hlost
    simpa using hless

/-- A `".."` that the buffer keeps up with. -/
theorem removeName_kept (hmax : 2 ≤ max) (hnames : ∀ name ∈ names, IsName slash name)
    (hroom : pathLength names.dropLast < max - 1) :
    removeName ((render names).take (max - 1)).reverse =
      ((render names.dropLast).take (max - 1)).reverse := by
  rw [take_render hmax hroom.le]
  rcases List.eq_nil_or_concat names with rfl | ⟨front, name, rfl⟩
  · exact removeName_root hmax
  · rw [List.concat_eq_append, List.dropLast_concat] at *
    exact removeName_concat (hnames name (by simp)).2 hroom

/-- A `".."` in a path whose names before the last do not fit either. -/
theorem removeName_lost (hmax : 2 ≤ max) (hnames : ∀ name ∈ names, IsName slash name)
    (hroom : ¬ pathLength names.dropLast < max - 1) :
    ∃ kept, kept.length < names.dropLast.length ∧ (∀ name ∈ kept, name ∈ names) ∧
      removeName ((render names).take (max - 1)).reverse =
        ((render kept).take (max - 1)).reverse := by
  rcases List.eq_nil_or_concat names with rfl | ⟨front, name, rfl⟩
  · simp [pathLength] at hroom
    omega
  · rw [List.concat_eq_append, List.dropLast_concat] at *
    have hfull : max - 1 ≤ (joined slash front).length := by
      rw [pathLength] at hroom
      omega
    have hne : front ≠ [] := by
      rintro rfl
      simp at hfull
      omega
    have hcut : (render (front ++ [name])).take (max - 1) = (render front).take (max - 1) := by
      rw [render_concat, render, if_neg hne, List.take_append_of_le_length hfull]
    obtain ⟨kept, hless, hmem, hfits, hremove⟩ :=
      removeName_take hmax (fun other hother => hnames other (by simp [hother])) hne
    refine ⟨kept, hless, fun other hother => by simp [hmem other hother], ?_⟩
    rw [hcut, hremove, take_render hmax hfits]

theorem Holds.remove (hholds : Holds max state abs held) (hmax : 2 ≤ max) :
    ∃ held', Holds max (keepUp max state dotDot) (removeName abs) held' := by
  have hkeep : keepUp max state dotDot = (state.1.dropLast,
      state.2 && decide (pathLength state.1.dropLast < max - 1) ||
        decide (state.1.dropLast = [])) := by
    rw [keepUp, if_neg (by decide), if_pos rfl]
  have hsub : ∀ {kept : List (List UInt8)}, (∀ name ∈ kept, name ∈ held) →
      ∀ name ∈ kept, IsName slash name := fun hmem name hname => hholds.names name (hmem name hname)
  rw [hkeep, hholds.text]
  cases hstate : state.2 with
  | true =>
      obtain rfl := hholds.kept hstate
      by_cases hroom : pathLength state.1.dropLast < max - 1
      · exact ⟨_, removeName_kept hmax hholds.names hroom,
          hsub fun name hname => List.mem_of_mem_dropLast hname, fun _ => rfl, by simp [hroom]⟩
      · obtain ⟨kept, hless, hmem, hremove⟩ := removeName_lost hmax hholds.names hroom
        have hne : state.1.dropLast ≠ [] := by
          intro hnil
          simp [hnil] at hless
        exact ⟨kept, hremove, hsub hmem, by simp [hroom, hne], fun _ => hless⟩
  | false =>
      have hless := hholds.lost hstate
      by_cases hroot : held = []
      · subst hroot
        have hfits : pathLength [] ≤ max - 1 := Nat.zero_le _
        refine ⟨[], ?_, by simp, fun hkept => ?_, fun hlost => ?_⟩
        · rw [removeName_root hmax, take_render hmax hfits]
        · have hnil : state.1.dropLast = [] := by simpa using hkept
          exact hnil.symm
        · have hne : state.1.dropLast ≠ [] := by simpa using hlost
          simpa [List.length_pos_iff] using List.length_pos_iff.mpr hne
      · obtain ⟨kept, hless', hmem, hfits, hremove⟩ := removeName_take hmax hholds.names hroot
        have hshort : kept.length < state.1.dropLast.length := by
          rw [List.length_dropLast]
          omega
        have hne : state.1.dropLast ≠ [] := by
          intro hnil
          simp [hnil] at hshort
        refine ⟨kept, ?_, hsub hmem, by simp [hne], fun _ => hshort⟩
        rw [hremove, take_render hmax hfits]

theorem Holds.step (hholds : Holds max state abs held) (hmax : 2 ≤ max) (junk : UInt8)
    {component : List UInt8} (hcomponent : IsName slash component) :
    ∃ held', Holds max (keepUp max state component) (applyComponent max junk abs component)
      held' := by
  rw [applyComponent]
  by_cases hdot : component = dot
  · rw [keepUp, if_pos hdot, if_pos hdot]
    exact ⟨held, hholds⟩
  · by_cases hdotDot : component = dotDot
    · rw [if_neg hdot, if_pos hdotDot, hdotDot]
      exact hholds.remove hmax
    · rw [keepUp, if_neg hdot, if_neg hdotDot, if_neg hdot, if_neg hdotDot]
      exact ⟨_, hholds.add hmax junk hcomponent⟩

theorem Holds.steps (hmax : 2 ≤ max) (junk : UInt8) (path : List (List UInt8))
    (hpath : ∀ component ∈ path, IsName slash component) (hholds : Holds max state abs held) :
    ∃ held', Holds max (path.foldl (keepUp max) state)
      (path.foldl (applyComponent max junk) abs) held' := by
  induction path generalizing state abs held with
  | nil => exact ⟨held, hholds⟩
  | cons component path ih =>
      obtain ⟨held', hholds'⟩ := hholds.step hmax junk (hpath component (by simp))
      exact ih (fun other hother => hpath other (by simp [hother])) hholds'

/-! ## The result -/

variable {cwd : List (List UInt8)} {path : List UInt8}

/-- A working directory: the text of a list of file names that fits into a buffer of `max`
bytes with its terminator. -/
structure IsDirectoryPath (max : ℕ) (cwd : List (List UInt8)) : Prop where
  names : ∀ name ∈ cwd, IsFileName name
  fits : pathLength cwd ≤ max - 1

theorem relativeToAbsolute_holds (hmax : 2 ≤ max) (junk : UInt8) (hcwd : IsDirectoryPath max cwd)
    (path : List UInt8) :
    ∃ held, Holds max ((components slash path).foldl (keepUp max) (origin cwd path, true))
      (relativeToAbsolute junk (render cwd) path max).reverse held := by
  have hstart : Holds max (origin cwd path, true)
      (if path.head? = some slash then [slash].take (max - 1)
        else (render cwd).take (max - 1)).reverse (origin cwd path) := by
    refine ⟨?_, ?_, fun _ => rfl, by simp⟩
    · rw [origin]
      split <;> rfl
    · rw [origin]
      split
      · simp
      · exact fun name hname => (hcwd.names name hname).1
  rw [relativeToAbsolute, List.reverse_reverse]
  exact hstart.steps hmax junk _ fun _ => isName_of_mem_components

theorem components_render (hnames : ∀ name ∈ names, IsName slash name) :
    components slash (render names) = names ∧ fields slash (render names) = flagged names := by
  rw [render]
  split
  next hroot =>
    subst hroot
    exact ⟨rfl, rfl⟩
  · exact components_joined hnames

/-- A cut text has no more components than the whole one, and they are no longer than it. -/
theorem components_take_render (n : ℕ) (hnames : ∀ name ∈ names, IsName slash name) :
    (components slash ((render names).take (n + 1))).length ≤ names.length ∧
      pathLength (components slash ((render names).take (n + 1))) ≤ n + 1 := by
  by_cases hroot : names = []
  · subst hroot
    simp [render, pathLength, components]
  · obtain ⟨name, rest, rfl⟩ := List.exists_cons_of_ne_nil hroot
    have htext : (render (name :: rest)).take (n + 1) =
        slash :: (name ++ joined slash rest).take n := by
      rw [render, if_neg hroot, joined_cons, List.cons_append, List.take_succ_cons]
    have hsame : components slash (slash :: (name ++ joined slash rest).take n) =
        components slash ((name ++ joined slash rest).take n) := by
      rw [components, fields_sep_cons, components]
    rw [htext, hsame]
    constructor
    · have hcount := count_joined hnames
      rw [joined_cons, List.cons_append, List.count_cons_self] at hcount
      have hless := (List.take_sublist n (name ++ joined slash rest)).count_le slash
      have hbound := length_components_le slash ((name ++ joined slash rest).take n)
      omega
    · have hbound := length_joined_components slash ((name ++ joined slash rest).take n)
      have hshort := List.length_take_le n (name ++ joined slash rest)
      rw [pathLength]
      omega

/-- A path that survives becomes the text of the names it refers to. -/
theorem relativeToAbsolute_eq (hmax : 2 ≤ max) (junk : UInt8) (hcwd : IsDirectoryPath max cwd)
    (hsurvives : Survives max cwd path) :
    relativeToAbsolute junk (render cwd) path max = render (resolve cwd path) ∧
      ∀ name ∈ resolve cwd path, IsName slash name := by
  obtain ⟨held, hholds⟩ := relativeToAbsolute_holds hmax junk hcwd path
  obtain ⟨hkept, hfits⟩ := hsurvives
  have hheld : held = resolve cwd path := by
    rw [hholds.kept hkept, foldl_keepUp_fst]
    rfl
  have hfits' : pathLength (resolve cwd path) ≤ max - 1 := by
    rw [foldl_keepUp_fst] at hfits
    exact hfits
  have htext := hholds.text
  rw [hheld, take_render hmax hfits'] at htext
  exact ⟨List.reverse_injective htext, hheld ▸ hholds.names⟩

/-- The components of the result are the names that the path refers to exactly for the paths
that survive. -/
theorem components_relativeToAbsolute (hmax : 2 ≤ max) (junk : UInt8)
    (hcwd : IsDirectoryPath max cwd) (path : List UInt8) :
    components slash (relativeToAbsolute junk (render cwd) path max) = resolve cwd path ↔
      Survives max cwd path := by
  constructor
  · intro hsame
    obtain ⟨held, hholds⟩ := relativeToAbsolute_holds hmax junk hcwd path
    obtain ⟨n, hn⟩ : ∃ n, max - 1 = n + 1 := ⟨max - 2, by omega⟩
    have htext := List.reverse_injective hholds.text
    rw [hn] at htext
    obtain ⟨hfew, hshort⟩ := components_take_render n hholds.names
    rw [← htext, hsame] at hfew hshort
    have hstack : ((components slash path).foldl (keepUp max) (origin cwd path, true)).1 =
        resolve cwd path := foldl_keepUp_fst max _ _
    cases hstate : ((components slash path).foldl (keepUp max) (origin cwd path, true)).2 with
    | true =>
        refine ⟨hstate, ?_⟩
        rw [hstack, hn]
        exact hshort
    | false =>
        have hlost := hholds.lost hstate
        rw [hstack] at hlost
        omega
  · intro hsurvives
    obtain ⟨htext, hnames⟩ := relativeToAbsolute_eq hmax junk hcwd hsurvives
    rw [htext]
    exact (components_render hnames).1

theorem length_relativeToAbsolute_le (hmax : 2 ≤ max) (junk : UInt8)
    (hcwd : IsDirectoryPath max cwd) (path : List UInt8) :
    (relativeToAbsolute junk (render cwd) path max).length ≤ max - 1 := by
  obtain ⟨held, hholds⟩ := relativeToAbsolute_holds hmax junk hcwd path
  rw [List.reverse_injective hholds.text]
  exact List.length_take_le _ _

/-! ## Characters -/

theorem stripName_suffix (abs : List UInt8) : stripName abs <:+ abs := by
  fun_induction stripName abs with
  | case1 last before abs hlast ih => exact ih.trans (List.suffix_cons _ _)
  | case2 => exact List.suffix_rfl
  | case3 => exact List.suffix_rfl

theorem removeName_suffix (abs : List UInt8) : removeName abs <:+ abs := by
  have hstrip := stripName_suffix abs
  rw [removeName]
  split
  next last before rest hstripped =>
    rw [hstripped] at hstrip
    exact (List.suffix_cons _ _).trans hstrip
  next => exact hstrip

theorem not_mem_copyName {c : UInt8} {abs name : List UInt8} (habs : c ∉ abs) (hname : c ∉ name) :
    c ∉ copyName max abs name := by
  induction name generalizing abs with
  | nil => exact habs
  | cons head name ih =>
      rw [List.mem_cons, not_or] at hname
      rw [copyName]
      split
      · refine ih ?_ hname.2
        rw [List.mem_cons, not_or]
        exact ⟨hname.1, habs⟩
      · exact habs

/-- The result consists of characters of the working directory and of the path, and of `'/'`. -/
theorem not_mem_relativeToAbsolute {c : UInt8} (hc : c ≠ slash) {base : List UInt8}
    (hbase : c ∉ base) (hpath : c ∉ path) (junk : UInt8) (max : ℕ) :
    c ∉ relativeToAbsolute junk base path max := by
  have hstart : c ∉ (if path.head? = some slash then [slash].take (max - 1)
      else base.take (max - 1)).reverse := by
    rw [List.mem_reverse]
    split
    · exact fun h => hc (List.mem_singleton.mp (List.mem_of_mem_take h))
    · exact fun h => hbase (List.mem_of_mem_take h)
  have hsteps : ∀ (names : List (List UInt8)) (abs : List UInt8), (∀ name ∈ names, c ∉ name) →
      c ∉ abs → c ∉ names.foldl (applyComponent max junk) abs := by
    intro names
    induction names with
    | nil => exact fun abs _ habs => habs
    | cons name names ih =>
        intro abs hnames habs
        refine ih _ (fun other hother => hnames other (by simp [hother])) ?_
        have hname := hnames name (by simp)
        rw [applyComponent]
        split
        · exact habs
        · split
          · exact fun h => habs ((removeName_suffix abs).subset h)
          · rw [addName]
            split
            · refine not_mem_copyName ?_ hname
              rw [List.mem_cons, not_or]
              exact ⟨hc, habs⟩
            · exact not_mem_copyName habs hname
  rw [relativeToAbsolute, List.mem_reverse]
  refine hsteps _ _ (fun name hname hmem => hpath ?_) hstart
  exact mem_of_mem_component hname hmem

/-! ## Plain paths -/

/-- No component of the path is `"."` or `".."`. -/
def Dotless (path : List UInt8) : Prop :=
  dot ∉ components slash path ∧ dotDot ∉ components slash path

theorem foldl_descend_eq {start path : List (List UInt8)} (hpath : dot ∉ path ∧ dotDot ∉ path) :
    path.foldl descend start = start ++ path := by
  induction path generalizing start with
  | nil => simp
  | cons component path ih =>
      simp only [List.mem_cons, not_or] at hpath
      rw [List.foldl_cons, descend, if_neg (Ne.symm hpath.1.1), if_neg (Ne.symm hpath.2.1),
        ih ⟨hpath.1.2, hpath.2.2⟩]
      simp

/-- No name of a resolved path is `"."` or `".."`. -/
theorem dotless_foldl_descend {start : List (List UInt8)} (hstart : dot ∉ start ∧ dotDot ∉ start)
    (path : List (List UInt8)) :
    dot ∉ path.foldl descend start ∧ dotDot ∉ path.foldl descend start := by
  induction path generalizing start with
  | nil => exact hstart
  | cons component path ih =>
      refine ih ?_
      rw [descend]
      split
      · exact hstart
      next hdot =>
        split
        · exact ⟨fun h => hstart.1 (List.mem_of_mem_dropLast h),
            fun h => hstart.2 (List.mem_of_mem_dropLast h)⟩
        next hdotDot =>
          simp only [List.mem_append, List.mem_singleton, not_or]
          exact ⟨⟨hstart.1, Ne.symm hdot⟩, hstart.2, Ne.symm hdotDot⟩

/-- A path is its own list of names exactly if it starts at the root and has no dots. -/
theorem resolve_eq_components (hcwd : ∀ name ∈ cwd, IsFileName name) (path : List UInt8) :
    resolve cwd path = components slash path ↔ origin cwd path = [] ∧ Dotless path := by
  constructor
  · intro hsame
    have horigin : dot ∉ origin cwd path ∧ dotDot ∉ origin cwd path := by
      rw [origin]
      split
      · exact ⟨List.not_mem_nil, List.not_mem_nil⟩
      · exact ⟨fun h => (hcwd dot h).2.1 rfl, fun h => (hcwd dotDot h).2.2 rfl⟩
    have hdotless := dotless_foldl_descend horigin (components slash path)
    rw [← resolve, hsame] at hdotless
    refine ⟨?_, hdotless⟩
    rw [resolve, foldl_descend_eq hdotless] at hsame
    exact List.self_eq_append_left.mp hsame.symm
  · rintro ⟨horigin, hdotless⟩
    rw [resolve, horigin, foldl_descend_eq hdotless, List.nil_append]

end Rhythmos.Filesystem
