import Mathlib

/-!
# Components of a text

A text is read from left to right and cut at a separator.  Its fields are the nonempty runs
between separators, each with whether it is ended by the end of the text.  The components
are the runs alone.  Texts in which every component follows one separator have the expected
fields.
-/

namespace Components

variable {A : Type*} [DecidableEq A] {sep : A}

/-- The fields of a text, where `run` was read since the last separator. -/
def fieldsFrom (sep : A) (run : List A) : List A → List (List A × Bool)
  | [] => if run = [] then [] else [(run, true)]
  | c :: text =>
      if c = sep then
        if run = [] then fieldsFrom sep [] text else (run, false) :: fieldsFrom sep [] text
      else fieldsFrom sep (run ++ [c]) text

def fields (sep : A) (text : List A) : List (List A × Bool) := fieldsFrom sep [] text

def components (sep : A) (text : List A) : List (List A) := (fields sep text).map Prod.fst

/-- Every component after a separator. -/
def joined (sep : A) (names : List (List A)) : List A := names.flatMap (sep :: ·)

/-- The fields of a text that ends with the last component. -/
def flagged : List (List A) → List (List A × Bool)
  | [] => []
  | [name] => [(name, true)]
  | name :: next :: names => (name, false) :: flagged (next :: names)

/-- A text that can be a component. -/
def IsName (sep : A) (name : List A) : Prop := name ≠ [] ∧ sep ∉ name

/-! ## Reading -/

theorem fieldsFrom_append {name : List A} (hname : sep ∉ name) (run text : List A) :
    fieldsFrom sep run (name ++ text) = fieldsFrom sep (run ++ name) text := by
  induction name generalizing run with
  | nil => simp
  | cons c name ih =>
      rw [List.mem_cons, not_or] at hname
      rw [List.cons_append, fieldsFrom, if_neg (Ne.symm hname.1), ih hname.2]
      simp

@[simp]
theorem fields_nil (sep : A) : fields sep [] = [] := rfl

@[simp]
theorem fields_sep_cons (sep : A) (text : List A) : fields sep (sep :: text) = fields sep text := by
  simp [fields, fieldsFrom]

theorem fields_name {name : List A} (hname : IsName sep name) :
    fields sep name = [(name, true)] := by
  have hread := fieldsFrom_append hname.2 [] []
  rw [List.append_nil] at hread
  rw [fields, hread, fieldsFrom, if_neg (by simpa using hname.1), List.nil_append]

theorem fields_name_sep {name : List A} (hname : IsName sep name) (text : List A) :
    fields sep (name ++ sep :: text) = (name, false) :: fields sep text := by
  rw [fields, fieldsFrom_append hname.2, fieldsFrom, if_pos rfl,
    if_neg (by simpa using hname.1), List.nil_append, fields]

/-- A separator ends the fields before it. -/
theorem fields_append_sep (left right : List A) :
    fields sep (left ++ sep :: right) =
      (components sep left).map (·, false) ++ fields sep right := by
  have hfrom : ∀ run, fieldsFrom sep run (left ++ sep :: right) =
      ((fieldsFrom sep run left).map Prod.fst).map (·, false) ++ fieldsFrom sep [] right := by
    intro run
    induction left generalizing run with
    | nil => by_cases hrun : run = [] <;> simp [fieldsFrom, hrun]
    | cons c left ih =>
        rw [List.cons_append, fieldsFrom, fieldsFrom]
        by_cases hc : c = sep
        · by_cases hrun : run = [] <;> simp [hc, hrun, ih]
        · simp [hc, ih]
  exact hfrom []

theorem isName_of_mem_components {text name : List A} (hname : name ∈ components sep text) :
    IsName sep name := by
  have hfrom : ∀ run, sep ∉ run → ∀ field ∈ fieldsFrom sep run text, IsName sep field.1 := by
    clear hname
    induction text with
    | nil =>
        intro run hrun field hfield
        by_cases hempty : run = []
        · simp [fieldsFrom, hempty] at hfield
        · obtain rfl : field = (run, true) := by simpa [fieldsFrom, hempty] using hfield
          exact ⟨hempty, hrun⟩
    | cons c text ih =>
        intro run hrun field hfield
        rw [fieldsFrom] at hfield
        by_cases hc : c = sep
        · rw [if_pos hc] at hfield
          by_cases hempty : run = []
          · rw [if_pos hempty] at hfield
            exact ih [] List.not_mem_nil field hfield
          · rw [if_neg hempty, List.mem_cons] at hfield
            rcases hfield with rfl | hfield
            · exact ⟨hempty, hrun⟩
            · exact ih [] List.not_mem_nil field hfield
        · rw [if_neg hc] at hfield
          refine ih (run ++ [c]) ?_ field hfield
          simp [hrun, Ne.symm hc]
  obtain ⟨field, hfield, rfl⟩ := List.mem_map.mp hname
  exact hfrom [] List.not_mem_nil field hfield

/-- The components consist of what the text consists of. -/
theorem mem_of_mem_component {text name : List A} (hname : name ∈ components sep text) {c : A}
    (hc : c ∈ name) : c ∈ text := by
  have hfrom : ∀ run, ∀ field ∈ fieldsFrom sep run text, ∀ c ∈ field.1, c ∈ run ++ text := by
    clear hname hc
    induction text with
    | nil =>
        intro run field hfield
        by_cases hempty : run = []
        · simp [fieldsFrom, hempty] at hfield
        · obtain rfl : field = (run, true) := by simpa [fieldsFrom, hempty] using hfield
          simp
    | cons head text ih =>
        intro run field hfield c hc
        rw [fieldsFrom] at hfield
        by_cases hhead : head = sep
        · rw [if_pos hhead] at hfield
          by_cases hempty : run = []
          · rw [if_pos hempty] at hfield
            have hin := ih [] field hfield c hc
            simp only [List.nil_append] at hin
            simp [hin]
          · rw [if_neg hempty, List.mem_cons] at hfield
            rcases hfield with rfl | hfield
            · simp [show c ∈ run from hc]
            · have hin := ih [] field hfield c hc
              simp only [List.nil_append] at hin
              simp [hin]
        · rw [if_neg hhead] at hfield
          simpa using ih (run ++ [head]) field hfield c hc
  obtain ⟨field, hfield, rfl⟩ := List.mem_map.mp hname
  simpa using hfrom [] field hfield c hc

/-! ## Joining -/

@[simp]
theorem joined_nil (sep : A) : joined sep [] = [] := rfl

@[simp]
theorem joined_cons (sep : A) (name : List A) (names : List (List A)) :
    joined sep (name :: names) = sep :: name ++ joined sep names := rfl

@[simp]
theorem joined_append (sep : A) (left right : List (List A)) :
    joined sep (left ++ right) = joined sep left ++ joined sep right := by
  simp [joined]

@[simp]
theorem map_fst_flagged (names : List (List A)) : (flagged names).map Prod.fst = names := by
  induction names with
  | nil => rfl
  | cons name names ih =>
      cases names with
      | nil => rfl
      | cons next names => rw [flagged, List.map_cons, ih]

theorem flagged_concat (names : List (List A)) (name : List A) :
    flagged (names ++ [name]) = names.map (·, false) ++ [(name, true)] := by
  induction names with
  | nil => rfl
  | cons head names ih =>
      cases names with
      | nil => rfl
      | cons next names =>
          rw [List.cons_append, List.cons_append, flagged, ← List.cons_append, ih]
          rfl

theorem components_joined {names : List (List A)} (hnames : ∀ name ∈ names, IsName sep name) :
    components sep (joined sep names) = names ∧
      fields sep (joined sep names) = flagged names := by
  have hfields : fields sep (joined sep names) = flagged names := by
    induction names with
    | nil => rfl
    | cons name names ih =>
        have hname := hnames name (by simp)
        cases names with
        | nil => simpa [flagged] using fields_name hname
        | cons next names =>
            rw [joined_cons, List.cons_append, fields_sep_cons]
            have hrest := ih fun name hmem => hnames name (by simp [hmem])
            rw [joined_cons, List.cons_append, fields_sep_cons] at hrest
            rw [joined_cons, List.cons_append, fields_name_sep hname, flagged, hrest]
  refine ⟨?_, hfields⟩
  rw [components, hfields, map_fst_flagged]

/-! ## Counting -/

/-- A text that starts with a separator has room for its components, each after a separator. -/
theorem length_joined_components (sep : A) (text : List A) :
    (joined sep (components sep text)).length ≤ text.length + 1 := by
  have hfrom : ∀ run, (joined sep ((fieldsFrom sep run text).map Prod.fst)).length ≤
      run.length + text.length + 1 := by
    induction text with
    | nil => intro run; by_cases hrun : run = [] <;> simp [fieldsFrom, hrun]
    | cons c text ih =>
        intro run
        rw [fieldsFrom]
        by_cases hc : c = sep
        · have hrest := ih []
          by_cases hrun : run = []
          · simp only [hc, hrun, if_true, List.length_nil, List.length_cons] at hrest ⊢
            omega
          · simp only [hc, hrun, if_true, if_false, List.map_cons, joined_cons, List.length_append,
              List.length_cons, List.length_nil] at hrest ⊢
            omega
        · have hrest := ih (run ++ [c])
          simp only [hc, if_false, List.length_append, List.length_cons, List.length_nil]
            at hrest ⊢
          omega
  simpa [components, fields] using hfrom []

/-- There are at most as many components as separators, and one more. -/
theorem length_components_le (sep : A) (text : List A) :
    (components sep text).length ≤ text.count sep + 1 := by
  have hfrom : ∀ run, (fieldsFrom sep run text).length ≤ text.count sep + 1 := by
    induction text with
    | nil => intro run; by_cases hrun : run = [] <;> simp [fieldsFrom, hrun]
    | cons c text ih =>
        intro run
        rw [fieldsFrom]
        by_cases hc : c = sep
        · have hrest := ih []
          by_cases hrun : run = []
          · simp only [hc, hrun, if_true, List.count_cons_self]
            omega
          · simp only [hc, hrun, if_true, if_false, List.count_cons_self, List.length_cons]
            omega
        · rw [if_neg hc, List.count_cons_of_ne hc]
          exact ih (run ++ [c])
  simpa [components, fields] using hfrom []

theorem count_joined {names : List (List A)} (hnames : ∀ name ∈ names, IsName sep name) :
    (joined sep names).count sep = names.length := by
  induction names with
  | nil => rfl
  | cons name names ih =>
      have hnone := List.count_eq_zero.mpr (hnames name (by simp)).2
      rw [joined_cons, List.cons_append, List.count_cons_self, List.count_append, hnone,
        ih fun name hmem => hnames name (by simp [hmem])]
      simp

/-! ## The end of a text -/

/-- A text that does not end with a separator ends with its last component. -/
theorem fields_of_getLast {text : List A} (hlast : text.getLast? ≠ some sep) :
    fields sep text = flagged (components sep text) := by
  have hfrom : ∀ run, fieldsFrom sep run text = flagged ((fieldsFrom sep run text).map Prod.fst) ∧
      (text ≠ [] → fieldsFrom sep run text ≠ []) := by
    induction text with
    | nil => intro run; by_cases hrun : run = [] <;> simp [fieldsFrom, hrun, flagged]
    | cons c text ih =>
        intro run
        by_cases hend : text = []
        · subst hend
          have hc : c ≠ sep := by simpa using hlast
          simp [fieldsFrom, hc, flagged]
        · have hlast' : text.getLast? ≠ some sep := by
            obtain ⟨head, rest, rfl⟩ := List.exists_cons_of_ne_nil hend
            rwa [List.getLast?_cons_cons] at hlast
          have hrest := ih hlast'
          rw [fieldsFrom]
          by_cases hc : c = sep
          · obtain ⟨hflagged, hne⟩ := hrest []
            by_cases hrun : run = []
            · simpa [hc, hrun] using ⟨hflagged, hne hend⟩
            · rw [if_pos hc, if_neg hrun]
              obtain ⟨field, rest, hfields⟩ := List.exists_cons_of_ne_nil (hne hend)
              rw [hfields, List.map_cons] at hflagged
              refine ⟨?_, fun _ => List.cons_ne_nil _ _⟩
              rw [hfields, List.map_cons, List.map_cons, flagged, ← hflagged]
          · rw [if_neg hc]
            exact ⟨(hrest (run ++ [c])).1, fun _ => (hrest (run ++ [c])).2 hend⟩
  exact (hfrom []).1

theorem fields_concat_sep (text : List A) :
    fields sep (text ++ [sep]) = (components sep (text ++ [sep])).map (·, false) := by
  have hfields : fields sep (text ++ [sep]) = (components sep text).map (·, false) := by
    rw [fields_append_sep, fields_nil, List.append_nil]
  have hcomponents : components sep (text ++ [sep]) = components sep text := by
    rw [components, hfields]
    simp [Function.comp_def]
  rw [hcomponents, hfields]

end Components
