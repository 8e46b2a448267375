import Rhythmos.Filesystem.PathBuffers
import Rhythmos.Fstool.Dumps
import Rhythmos.Shell.Arguments

/-!
# `fstool -shell`

A small shell with which a user walks through an image.  Its working directory is a text, which
`relative_to_absolute` changes, and every command starts again at the root of the image.  On
the image of a tree the commands do what the same commands do in the tree, where the working
directory is a list of names.
-/

namespace Rhythmos.Fstool

open ByteMemory Components Fallible Filesystem
open Libc.Printf (ascii)
open Libc.Tokens (Run runs)
open Shell.Arguments (separators newline)

def text (s : String) : List UInt8 := s.toList.map ascii

/-! ## Commands -/

/-- The errors of `getdir` and `getfile`. -/
inductive Errno where
  | noEnt
  | notDir
  | isDir
  deriving DecidableEq, Repr

/-- `getdir` -/
def getdir (fs : Memory) (path : List UInt8) : Except Errno ℕ :=
  match getDirectoryEntry fs path with
  | none => .error .noEnt
  | some entry => if typeAt fs entry = typeDir then .ok entry else .error .notDir

/-- `getfile` -/
def getfile (fs : Memory) (path : List UInt8) : Except Errno ℕ :=
  match getDirectoryEntry fs path with
  | none => .error .noEnt
  | some entry => if typeAt fs entry = typeFile then .ok entry else .error .isDir

/-- The permission bits that `ls` shows, with their letters. -/
def permissions : List (ℕ × Char) :=
  [(0o400, 'r'), (0o200, 'w'), (0o100, 'x'), (0o040, 'r'), (0o020, 'w'), (0o010, 'x'),
    (0o004, 'r'), (0o002, 'w'), (0o001, 'x')]

/-- A line that `ls` prints. -/
def listLine (isDir : Bool) (mode size : ℕ) (name : List UInt8) : List UInt8 :=
  (if isDir then ascii 'd' else ascii '-') ::
    (permissions.map fun bit => ascii (if mode &&& bit.1 ≠ 0 then bit.2 else '-')) ++
    (if isDir then text " DIR  " ++ (sizeField size ++ ascii ' ' :: (name ++ text "/\n"))
      else text " FILE " ++ (sizeField size ++ ascii ' ' :: (name ++ text "\n")))

/-- The loop of `ls` over a directory. -/
def listDir (fs : Memory) (dir : ℕ) : List UInt8 :=
  (List.range (load32 fs dir)).flatMap fun i =>
    let ent := entryAddress dir i
    listLine (typeAt fs ent = typeDir) (modeAt fs ent) (sizeAt fs ent) (nameAt fs ent)

def helpText : List UInt8 :=
  text "Commands:\n" ++
    text "ls [path]  - list directory contents (or . if no path)\n" ++
    text "cat <path> - display contents of a file\n" ++
    text "cd <path>  - change current working directory\n" ++
    text "pwd        - print current working directory\n" ++
    text "q          - quit fstool\n"

/-- What a command does: the working directory behind it, what it prints, and whether it ends the
program. -/
structure Reply (Cwd : Type) where
  cwd : Cwd
  printed : List UInt8
  quits : Bool := false

section Commands

variable (strerror : Errno → List UInt8)

/-- `printf("%s\n", strerror(-r))` -/
def complaint (errno : Errno) : List UInt8 := strerror errno ++ text "\n"

/-- The body of the loop of `shell`.  `junk` is what lies before the buffer `abspath`. -/
def command (host : Host) (fs : Memory) (junk : UInt8) (cwd : List UInt8)
    (argv : List (List UInt8)) : Reply (List UInt8) :=
  let absolute := fun path => relativeToAbsolute junk cwd path host.pathMax
  let argc := argv.length
  let name := argv.getD 0 []
  if 1 ≤ argc ∧ name = text "ls" then
    let abspath := if 2 ≤ argc then absolute (argv.getD 1 []) else cwd.take (host.pathMax - 1)
    match getdir fs abspath with
    | .error errno => { cwd, printed := complaint strerror errno }
    | .ok entry => { cwd, printed := listDir fs (locationAt fs entry) }
  else if argc = 2 ∧ name = text "cat" then
    match getfile fs (absolute (argv.getD 1 [])) with
    | .error errno => { cwd, printed := complaint strerror errno }
    | .ok entry =>
        { cwd, printed := Libc.loadBytes fs (locationAt fs entry) (sizeAt fs entry) }
  else if argc = 2 ∧ name = text "cd" then
    let abspath := absolute (argv.getD 1 [])
    match getdir fs abspath with
    | .error errno => { cwd, printed := complaint strerror errno }
    | .ok _ => { cwd := abspath.take (host.pathMax - 1), printed := [] }
  else if argc = 1 ∧ name = text "pwd" then { cwd, printed := cwd ++ text "\n" }
  else if argc = 1 ∧ name = text "q" then { cwd, printed := [], quits := true }
  else if argc = 1 ∧ name = text "help" then { cwd, printed := helpText }
  else { cwd, printed := text "Invalid command\n" }

end Commands

/-! ## Lines -/

/-- What the calls of `fgets` give, with room for `max` characters and the terminator; `line` was
read since the last call returned. -/
def fgetsFrom (max : ℕ) (line : List UInt8) : List UInt8 → List (List UInt8)
  | [] => if line = [] then [] else [line]
  | c :: input =>
      if c = newline ∨ max ≤ line.length + 1 then (line ++ [c]) :: fgetsFrom max [] input
      else fgetsFrom max (line ++ [c]) input

/-- `sizeof(line)` -/
def lineSize : ℕ := 1024

/-- The lines of the input, as `fgets` cuts them. -/
def inputLines (input : List UInt8) : List (List UInt8) := fgetsFrom (lineSize - 1) [] input

/-- The room of `argv`. -/
def argvRoom : ℕ := 8

/-- The strings that `argv` points to after `parse_command`. -/
def argStrings (line : List UInt8) : Except Fault (List (List UInt8)) :=
  match Shell.Fstool.parseCommand (line ++ [0]) (List.replicate argvRoom 0) argvRoom with
  | .error _ => .error .overrun
  | .ok (argc, line, argv) =>
      .ok ((argv.take argc).map fun start => (line.drop start).takeWhile (· ≠ 0))

def prompt (cwd : List UInt8) : List UInt8 := cwd ++ text " > "

section Shell

variable (strerror : Errno → List UInt8) (host : Host) (fs : Memory) (junk : UInt8)

/-- The loop of `shell`: what it prints. -/
def shellLoop : List (List UInt8) → List UInt8 → Except Fault (List UInt8)
  | [], _ => .ok []
  | line :: lines, cwd => do
      let argv ← argStrings line
      let reply := command strerror host fs junk cwd argv
      if reply.quits then return reply.printed
      else
        let rest ← shellLoop lines reply.cwd
        return reply.printed ++ (prompt reply.cwd ++ rest)

/-- `shell`, for an input. -/
def shell (input : List UInt8) : Except Fault (List UInt8) := do
  let cwd := [slash].take (host.pathMax - 1)
  let rest ← shellLoop strerror host fs junk (inputLines input) cwd
  return prompt cwd ++ rest

/-- `main` for `-shell`. -/
def shellMain (garbage : Memory) (chunks : List (List UInt8)) (input : List UInt8) :
    Except Fault (List UInt8) := do
  let buffer ← readFile garbage chunks
  shell strerror host buffer.data junk input

end Shell

/-! ## The same commands in a tree -/

/-- A command of the user. -/
inductive Request where
  | ls (path : Option (List UInt8))
  | cat (path : List UInt8)
  | cd (path : List UInt8)
  | pwd
  | quit
  | help
  | invalid

/-- The command that the words of a line stand for. -/
def Request.read : List (List UInt8) → Request
  | [] => .invalid
  | [name] =>
      if name = text "ls" then .ls none
      else if name = text "pwd" then .pwd
      else if name = text "q" then .quit
      else if name = text "help" then .help
      else .invalid
  | [name, path] =>
      if name = text "ls" then .ls (some path)
      else if name = text "cat" then .cat path
      else if name = text "cd" then .cd path
      else .invalid
  | name :: path :: _ => if name = text "ls" then .ls (some path) else .invalid

/-- The path that a command is about. -/
def Request.path : Request → Option (List UInt8)
  | .ls path => path
  | .cat path | .cd path => some path
  | _ => none

/-- The words of a line that are used. -/
def usedWords (line : List UInt8) : List (List UInt8) :=
  (runs separators (line.takeWhile (· ≠ 0))).take (argvRoom - 1)

namespace Tree

/-- What a list of names leads to, from the root on. -/
def walk (tree : Tree) (names : List (List UInt8)) : Option Node :=
  tree.follow (.dir none tree) (flagged names)

def dirAt (tree : Tree) (names : List (List UInt8)) : Except Errno Tree :=
  match tree.walk names with
  | none => .error .noEnt
  | some (.file _) => .error .notDir
  | some (.dir _ children) => .ok children

def fileAt (tree : Tree) (names : List (List UInt8)) : Except Errno FileNode :=
  match tree.walk names with
  | none => .error .noEnt
  | some (.file node) => .ok node
  | some (.dir _ _) => .error .isDir

/-- A line for everything in a directory. -/
def list : Tree → List UInt8
  | nil => []
  | file name node next =>
      listLine false node.stat.mode node.contents.length name.chars ++ next.list
  | dir name stat _ next => listLine true stat.stat.mode stat.stat.size name.chars ++ next.list

variable (strerror : Errno → List UInt8) (tree : Tree)

/-- What a command does in the directory with the names `cwd`. -/
def perform (cwd : List (List UInt8)) : Request → Reply (List (List UInt8))
  | .ls path =>
      match tree.dirAt ((path.map (Filesystem.resolve cwd)).getD cwd) with
      | .error errno => { cwd, printed := complaint strerror errno }
      | .ok children => { cwd, printed := children.list }
  | .cat path =>
      match tree.fileAt (Filesystem.resolve cwd path) with
      | .error errno => { cwd, printed := complaint strerror errno }
      | .ok node => { cwd, printed := node.contents }
  | .cd path =>
      match tree.dirAt (Filesystem.resolve cwd path) with
      | .error errno => { cwd, printed := complaint strerror errno }
      | .ok _ => { cwd := Filesystem.resolve cwd path, printed := [] }
  | .pwd => { cwd, printed := render cwd ++ text "\n" }
  | .quit => { cwd, printed := [], quits := true }
  | .help => { cwd, printed := helpText }
  | .invalid => { cwd, printed := text "Invalid command\n" }

/-- What the user sees in a session. -/
def session : List (List UInt8) → List (List UInt8) → List UInt8
  | [], _ => []
  | line :: lines, cwd =>
      let reply := tree.perform strerror cwd (.read (usedWords line))
      if reply.quits then reply.printed
      else reply.printed ++ (prompt (render reply.cwd) ++ session lines reply.cwd)

/-- Every path that a session forms fits a buffer of `PATH_MAX` bytes. -/
def Fitting (host : Host) : List (List UInt8) → List (List UInt8) → Prop
  | [], cwd => (render cwd).length ≤ host.pathMax - 1
  | line :: lines, cwd =>
      let request := Request.read (usedWords line)
      let reply := tree.perform strerror cwd request
      (render cwd).length ≤ host.pathMax - 1 ∧
        (∀ path ∈ request.path, PathBuffer.Fits host.pathMax cwd path) ∧
        (reply.quits = false → Fitting host lines reply.cwd)

/-- The paths of all directories leave room for a line in a buffer of `PATH_MAX` bytes. -/
def Roomy (host : Host) : Prop :=
  ∀ names stat children, tree.walk names = some (.dir stat children) →
    pathLength names + lineSize < host.pathMax

end Tree

/-! ## Words -/

theorem length_fgetsFrom {max : ℕ} (hmax : 0 < max) (line : List UInt8) {input : List UInt8}
    (hline : line.length < max) : ∀ got ∈ fgetsFrom max line input, got.length ≤ max := by
  induction input generalizing line with
  | nil =>
      intro got hgot
      rw [fgetsFrom] at hgot
      split at hgot
      · exact absurd hgot List.not_mem_nil
      · rw [List.mem_singleton.mp hgot]
        exact hline.le
  | cons c input ih =>
      intro got hgot
      rw [fgetsFrom] at hgot
      split at hgot
      · rcases List.mem_cons.mp hgot with rfl | hgot
        · rw [List.length_append]
          exact hline
        · exact ih [] hmax got hgot
      next hmore =>
        refine ih _ ?_ got hgot
        rw [List.length_append, List.length_singleton]
        omega

/-- The text of a line with its terminator. -/
theorem exists_terminated (line : List UInt8) :
    0 ∉ line.takeWhile (· ≠ 0) ∧ ∃ tail, line ++ [0] = line.takeWhile (· ≠ 0) ++ 0 :: tail := by
  induction line with
  | nil => exact ⟨List.not_mem_nil, [], rfl⟩
  | cons c line ih =>
      obtain ⟨htext, tail, htail⟩ := ih
      by_cases hc : c = 0
      · subst hc
        exact ⟨List.not_mem_nil, line ++ [0], rfl⟩
      · rw [List.takeWhile_cons_of_pos (by simpa using hc)]
        refine ⟨?_, tail, ?_⟩
        · rw [List.mem_cons, not_or]
          exact ⟨Ne.symm hc, htext⟩
        · rw [List.cons_append, htail, List.cons_append]

theorem takeWhile_terminated {run rest : List UInt8} (hrun : 0 ∉ run) :
    (run ++ 0 :: rest).takeWhile (· ≠ 0) = run := by
  have hpass : ∀ c ∈ run, (decide (c ≠ 0)) = true := fun c hc => by
    rw [decide_eq_true_eq]
    exact fun h => hrun (h ▸ hc)
  rw [List.takeWhile_append_of_pos hpass, List.takeWhile_cons_of_neg (by simp), List.append_nil]

open Shell.Arguments in
/-- `parse_command` finds the words of the line. -/
theorem argStrings_eq (line : List UInt8) : argStrings line = .ok (usedWords line) := by
  obtain ⟨htext, tail, htail⟩ := exists_terminated line
  rw [argStrings, usedWords, htail]
  generalize line.takeWhile (· ≠ 0) = chars at htext ⊢
  have hargv : argvRoom ≤ (List.replicate argvRoom 0).length + 1 := by
    rw [List.length_replicate]
    omega
  obtain ⟨hcount, hnew, -⟩ := addArgs_eq ((spans 0 [] chars).map Prod.fst)
    (show 0 + 1 ≤ argvRoom by decide) hargv
  have hwords : (spans 0 [] chars).map Prod.snd = runs separators chars := spans_map_snd (by simp)
  rw [Shell.Fstool.parseCommand, parseCommand_eq htext hargv tail]
  simp only
  refine congrArg Except.ok (List.ext_getElem? fun i => ?_)
  rw [List.length_map, Nat.zero_add] at hcount
  rw [← hwords, List.getElem?_map]
  by_cases hi : i < min (spans 0 [] chars).length (argvRoom - 1)
  · have hword : i < (spans 0 [] chars).length := (Nat.lt_min.mp hi).1
    have hroom : i < argvRoom - 1 := (Nat.lt_min.mp hi).2
    obtain ⟨lead, behind, hrun, hp, -⟩ := spans_run [] [] chars (by simp) (by simp) rfl
      (List.getElem?_eq_getElem hword)
    rw [List.get_eq_getElem, List.append_nil, List.nil_append] at hrun
    rw [List.get_eq_getElem] at hp
    obtain ⟨rest, hdrop⟩ := drop_cleared tail hrun
    have hclean : 0 ∉ ((spans 0 [] chars)[i]).2 := by
      intro hzero
      refine htext ?_
      rw [hrun.eq]
      simp [hzero]
    rw [List.getElem?_take_of_lt (by omega), hnew i (Nat.zero_le i) (by omega), Nat.sub_zero,
      List.getElem?_map, List.getElem?_take_of_lt hroom, List.getElem?_map,
      List.getElem?_eq_getElem hword, Option.map_some, Option.map_some, Option.map_some, ← hp,
      hdrop, takeWhile_terminated hclean]
  · rw [List.getElem?_eq_none (by rw [List.length_take]; omega), Option.map_none,
      List.getElem?_eq_none (by rw [List.length_take, List.length_map]; omega)]

open Shell.Arguments in
theorem length_usedWords {line word : List UInt8} (hword : word ∈ usedWords line) :
    word.length ≤ line.length := by
  have hruns := List.mem_of_mem_take hword
  have hwords : (spans 0 [] (line.takeWhile (· ≠ 0))).map Prod.snd =
      runs separators (line.takeWhile (· ≠ 0)) := spans_map_snd (by simp)
  rw [← hwords] at hruns
  obtain ⟨span, hspan, rfl⟩ := List.mem_map.mp hruns
  obtain ⟨i, hi⟩ := List.getElem?_of_mem hspan
  obtain ⟨lead, behind, hrun, -, -⟩ := spans_run [] [] _ (by simp) (by simp) rfl hi
  have hlength := congrArg List.length hrun.eq
  have hline := (List.takeWhile_prefix (p := fun c : UInt8 => decide (c ≠ 0)) (l := line)).length_le
  simp only [List.length_append, List.nil_append] at hlength
  omega

/-! ## Paths -/

theorem pathLength_append (left right : List (List UInt8)) :
    pathLength (left ++ right) = pathLength left + pathLength right := by
  rw [pathLength, joined_append, List.length_append, pathLength, pathLength]

theorem pathLength_dropLast_le (names : List (List UInt8)) :
    pathLength names.dropLast ≤ pathLength names := by
  by_cases hnames : names = []
  · rw [hnames, List.dropLast_nil]
  · exact (PathBuffer.pathLength_dropLast hnames).le

theorem pathLength_foldl_descend (parts start : List (List UInt8)) :
    pathLength (parts.foldl descend start) ≤ pathLength start + pathLength parts := by
  induction parts generalizing start with
  | nil => exact Nat.le_add_right _ _
  | cons part parts ih =>
      have hstep : pathLength (descend start part) ≤ pathLength start + pathLength [part] := by
        rw [descend]
        split
        · exact Nat.le_add_right _ _
        · split
          · exact (pathLength_dropLast_le start).trans (Nat.le_add_right _ _)
          · exact (pathLength_append start [part]).le
      have hparts := pathLength_append [part] parts
      rw [List.singleton_append] at hparts
      exact (ih _).trans (by omega)

/-- A short path fits the buffer where there is room for it. -/
theorem fits_of_room {max : ℕ} {cwd : List (List UInt8)} {path : List UInt8}
    (hroom : pathLength cwd + path.length + 2 ≤ max) : PathBuffer.Fits max cwd path := by
  refine ⟨length_render_le (by omega) (by omega), ?_⟩
  intro parts hparts
  obtain ⟨rest, hrest⟩ := hparts
  have hparts : pathLength parts + pathLength rest ≤ path.length + 1 := by
    rw [← pathLength_append, hrest]
    exact length_joined_components slash path
  have horigin : pathLength (origin cwd path) ≤ pathLength cwd := by
    rw [origin]
    split
    · exact Nat.zero_le _
    · exact le_rfl
  have hfold := pathLength_foldl_descend parts (origin cwd path)
  exact length_render_le (by omega) (by omega)

theorem isFileName_resolve {cwd : List (List UInt8)} (hcwd : ∀ name ∈ cwd, IsFileName name)
    {path : List UInt8} (hnames : ∀ name ∈ resolve cwd path, IsName slash name) :
    ∀ name ∈ resolve cwd path, IsFileName name := by
  have horigin : dot ∉ origin cwd path ∧ dotDot ∉ origin cwd path := by
    rw [origin]
    split
    · exact ⟨List.not_mem_nil, List.not_mem_nil⟩
    · exact ⟨fun h => (hcwd dot h).2.1 rfl, fun h => (hcwd dotDot h).2.2 rfl⟩
  obtain ⟨hdot, hdotDot⟩ := dotless_foldl_descend horigin (components slash path)
  exact fun name hname =>
    ⟨hnames name hname, fun h => hdot (h ▸ hname), fun h => hdotDot (h ▸ hname)⟩

/-- A working directory of the tree. -/
structure Stands (tree : Tree) (cwd : List (List UInt8)) : Prop where
  names : ∀ name ∈ cwd, IsFileName name
  directory : ∃ stat children, tree.walk cwd = some (.dir stat children)

theorem stands_root (tree : Tree) : Stands tree [] :=
  ⟨fun _ h => absurd h List.not_mem_nil, none, tree, rfl⟩

variable {host : Host} {fs : Memory} {tree : Tree} {cwd : List (List UInt8)} {path : List UInt8}

theorem length_render_pos (names : List (List UInt8)) : 0 < (render names).length := by
  rw [render]
  split
  · exact Nat.one_pos
  next hne =>
    obtain ⟨name, rest, rfl⟩ := List.exists_cons_of_ne_nil hne
    simp [joined]

/-- In a working directory, a path that fits becomes the text of the names it leads to. -/
theorem Stands.relativeToAbsolute_eq (hstands : Stands tree cwd)
    (hfits : PathBuffer.Fits host.pathMax cwd path) (junk : UInt8) :
    relativeToAbsolute junk (render cwd) path host.pathMax = render (resolve cwd path) ∧
      (render (resolve cwd path)).length ≤ host.pathMax - 1 ∧
      ∀ name ∈ resolve cwd path, IsFileName name := by
  have hcwd : IsDirectoryPath host.pathMax cwd :=
    ⟨hstands.names, (PathBuffer.pathLength_le_render cwd).trans hfits.base⟩
  have hmax : 2 ≤ host.pathMax := by
    have hpos := length_render_pos cwd
    have hbase := hfits.base
    omega
  obtain ⟨htext, hnames⟩ := Filesystem.relativeToAbsolute_eq hmax junk hcwd hfits.survives
  exact ⟨htext, hfits.steps _ (List.prefix_refl _), isFileName_resolve hstands.names hnames⟩

/-! ## Lookups -/

/-- A lookup of the text of a list of names finds what the names lead to. -/
theorem getDirectoryEntry_render (hroot : Describes fs 0 (.dir none tree))
    {names : List (List UInt8)} (hnames : ∀ name ∈ names, IsFileName name) :
    Option.Rel (Describes fs) (getDirectoryEntry fs (render names)) (tree.walk names) := by
  have hfields := (components_render fun name hname => (hnames name hname).1).2
  rw [getDirectoryEntry, Filesystem.walk, hfields]
  exact foldlM_enter ⟨hroot, hroot.2.2⟩ (flagged names)

/-- `getdir` finds the directories of the tree. -/
theorem getdir_render (hroot : Describes fs 0 (.dir none tree)) {names : List (List UInt8)}
    (hnames : ∀ name ∈ names, IsFileName name) :
    match tree.dirAt names with
    | .error errno => getdir fs (render names) = .error errno
    | .ok children => ∃ entry, getdir fs (render names) = .ok entry ∧
        StoresDirectory fs (locationAt fs entry) children := by
  have hfound := getDirectoryEntry_render hroot hnames
  rw [Tree.dirAt, getdir]
  generalize getDirectoryEntry fs (render names) = looked at hfound
  generalize tree.walk names = found at hfound
  cases hfound with
  | none => rfl
  | @some entry node hdescribes =>
      cases node with
      | file node =>
          have htype : typeAt fs entry ≠ typeDir := by
            rw [hdescribes.2.1]
            decide
          exact if_neg htype
      | dir stat children =>
          obtain ⟨htype, hdirectory⟩ : typeAt fs entry = typeDir ∧
              StoresDirectory fs (locationAt fs entry) children := by
            cases stat <;> exact hdescribes.2
          exact ⟨entry, if_pos htype, hdirectory⟩

/-- `getfile` finds the files of the tree. -/
theorem getfile_render (hroot : Describes fs 0 (.dir none tree)) {names : List (List UInt8)}
    (hnames : ∀ name ∈ names, IsFileName name) :
    match tree.fileAt names with
    | .error errno => getfile fs (render names) = .error errno
    | .ok node => ∃ entry, getfile fs (render names) = .ok entry ∧
        Libc.loadBytes fs (locationAt fs entry) (sizeAt fs entry) = node.contents := by
  have hfound := getDirectoryEntry_render hroot hnames
  rw [Tree.fileAt, getfile]
  generalize getDirectoryEntry fs (render names) = looked at hfound
  generalize tree.walk names = found at hfound
  cases hfound with
  | none => rfl
  | @some entry node hdescribes =>
      cases node with
      | file node =>
          obtain ⟨-, htype, hsize, hcontents⟩ := hdescribes
          exact ⟨entry, if_pos htype, by rw [hsize, Libc.loadBytes_bytesAt hcontents]⟩
      | dir stat children =>
          have htype : typeAt fs entry ≠ typeFile := by
            have hdir : typeAt fs entry = typeDir := by cases stat <;> exact hdescribes.2.1
            rw [hdir]
            decide
          exact if_neg htype

/-! ## Listings -/

/-- The permission bits stand in the low bits of the mode. -/
theorem listLine_mod (isDir : Bool) (mode size : ℕ) (name : List UInt8) :
    listLine isDir (mode % wordCount) (size % wordCount) name = listLine isDir mode size name := by
  have hbits : ∀ bit ∈ permissions, (mode % wordCount) &&& bit.1 = mode &&& bit.1 := by
    intro bit hbit
    have hsmall : bit.1 < wordCount := by
      have hall : ∀ bit ∈ permissions, bit.1 < wordCount := by decide
      exact hall bit hbit
    calc (mode % wordCount) &&& bit.1
        = (mode % wordCount) &&& (bit.1 % wordCount) := by rw [Nat.mod_eq_of_lt hsmall]
      _ = (mode &&& bit.1) % wordCount := (Nat.and_mod_two_pow (n := 32)).symm
      _ = mode &&& bit.1 := Nat.mod_eq_of_lt (Nat.and_le_right.trans_lt hsmall)
  have hmap : permissions.map (fun bit =>
        ascii (if (mode % wordCount) &&& bit.1 ≠ 0 then bit.2 else '-')) =
      permissions.map fun bit => ascii (if mode &&& bit.1 ≠ 0 then bit.2 else '-') :=
    List.map_congr_left fun bit hbit => by rw [hbits bit hbit]
  rw [listLine, listLine, hmap, sizeField_mod]

theorem flatMap_listLine {dir i : ℕ} (hstores : Stores fs dir i tree) :
    (List.range' i tree.count).flatMap (fun i =>
      listLine (typeAt fs (entryAddress dir i) = typeDir) (modeAt fs (entryAddress dir i))
        (sizeAt fs (entryAddress dir i)) (nameAt fs (entryAddress dir i))) = tree.list := by
  induction tree generalizing i with
  | nil => rfl
  | file name node next ih =>
      obtain ⟨hname, hentry, hsize, -, hnext⟩ := hstores
      have htype : typeAt fs (entryAddress dir i) ≠ typeDir := by
        rw [hentry.type, node.isDir_stat]
        decide
      have hline := listLine_mod false node.stat.mode node.stat.size name.chars
      rw [Tree.count, List.range'_succ, List.flatMap_cons, ih hnext, Tree.list, hname,
        hentry.mode, hentry.size, decide_eq_false htype, hline, node.size]
  | dir name stat children next _ ih =>
      obtain ⟨hname, hentry, -, -, hnext⟩ := hstores
      have htype : typeAt fs (entryAddress dir i) = typeDir := by
        rw [hentry.type, stat.directory]
        rfl
      have hline := listLine_mod true stat.stat.mode stat.stat.size name.chars
      rw [Tree.count, List.range'_succ, List.flatMap_cons, ih hnext, Tree.list, hname,
        hentry.mode, hentry.size, decide_eq_true htype, hline]

/-- `ls` lists a directory of the tree. -/
theorem listDir_stored {dir : ℕ} (hstores : StoresDirectory fs dir tree) :
    listDir fs dir = tree.list := by
  rw [listDir, hstores.1, List.range_eq_range']
  exact flatMap_listLine hstores.2

/-! ## Sessions -/

section Sessions

variable {strerror : Errno → List UInt8} {junk : UInt8}

/-- A reply of the shell is that of the tree, and the session goes on in a directory. -/
structure Mirrors (tree : Tree) (reply : Reply (List UInt8)) (answer : Reply (List (List UInt8))) :
    Prop where
  cwd : reply.cwd = render answer.cwd
  printed : reply.printed = answer.printed
  quits : reply.quits = answer.quits
  stands : Stands tree answer.cwd

theorem mirrors_same (hstands : Stands tree cwd) (printed : List UInt8) (quits : Bool) :
    Mirrors tree ⟨render cwd, printed, quits⟩ ⟨cwd, printed, quits⟩ := ⟨rfl, rfl, rfl, hstands⟩

/-- `ls` on the text of some names. -/
theorem ls_mirrors (hroot : Describes fs 0 (.dir none tree)) (hstands : Stands tree cwd)
    {names : List (List UInt8)} (hnames : ∀ name ∈ names, IsFileName name) :
    Mirrors tree
      (match getdir fs (render names) with
        | .error errno => { cwd := render cwd, printed := complaint strerror errno }
        | .ok entry => { cwd := render cwd, printed := listDir fs (locationAt fs entry) })
      (match tree.dirAt names with
        | .error errno => { cwd, printed := complaint strerror errno }
        | .ok children => { cwd, printed := children.list }) := by
  have hfound := getdir_render hroot hnames
  cases hdir : tree.dirAt names with
  | error errno =>
      rw [hdir] at hfound
      rw [hfound]
      exact mirrors_same hstands _ _
  | ok children =>
      rw [hdir] at hfound
      obtain ⟨entry, hentry, hstores⟩ := hfound
      rw [hentry]
      simp only
      rw [listDir_stored hstores]
      exact mirrors_same hstands _ _

theorem cat_mirrors (hroot : Describes fs 0 (.dir none tree)) (hstands : Stands tree cwd)
    {names : List (List UInt8)} (hnames : ∀ name ∈ names, IsFileName name) :
    Mirrors tree
      (match getfile fs (render names) with
        | .error errno => { cwd := render cwd, printed := complaint strerror errno }
        | .ok entry =>
            { cwd := render cwd
              printed := Libc.loadBytes fs (locationAt fs entry) (sizeAt fs entry) })
      (match tree.fileAt names with
        | .error errno => { cwd, printed := complaint strerror errno }
        | .ok node => { cwd, printed := node.contents }) := by
  have hfound := getfile_render hroot hnames
  cases hfile : tree.fileAt names with
  | error errno =>
      rw [hfile] at hfound
      rw [hfound]
      exact mirrors_same hstands _ _
  | ok node =>
      rw [hfile] at hfound
      obtain ⟨entry, hentry, hcontents⟩ := hfound
      rw [hentry]
      simp only
      rw [hcontents]
      exact mirrors_same hstands _ _

theorem cd_mirrors (hroot : Describes fs 0 (.dir none tree)) (hstands : Stands tree cwd)
    {names : List (List UInt8)} (hnames : ∀ name ∈ names, IsFileName name)
    (hfits : (render names).length ≤ host.pathMax - 1) :
    Mirrors tree
      (match getdir fs (render names) with
        | .error errno => { cwd := render cwd, printed := complaint strerror errno }
        | .ok _ => { cwd := (render names).take (host.pathMax - 1), printed := [] })
      (match tree.dirAt names with
        | .error errno => { cwd, printed := complaint strerror errno }
        | .ok _ => { cwd := names, printed := [] }) := by
  have hfound := getdir_render hroot hnames
  cases hdir : tree.dirAt names with
  | error errno =>
      rw [hdir] at hfound
      rw [hfound]
      exact mirrors_same hstands _ _
  | ok children =>
      obtain ⟨stat, hwalk⟩ : ∃ stat, tree.walk names = some (.dir stat children) := by
        rw [Tree.dirAt] at hdir
        split at hdir
        next => cases hdir
        next => cases hdir
        next stat children' hwalk =>
          obtain rfl := Except.ok.inj hdir
          exact ⟨stat, hwalk⟩
      rw [hdir] at hfound
      obtain ⟨entry, hentry, -⟩ := hfound
      rw [hentry]
      simp only
      rw [List.take_of_length_le hfits]
      exact mirrors_same ⟨hnames, stat, children, hwalk⟩ _ _

/-- A command does in the image what it does in the tree. -/
theorem command_mirrors (hroot : Describes fs 0 (.dir none tree)) (hstands : Stands tree cwd)
    (hbound : (render cwd).length ≤ host.pathMax - 1) {argv : List (List UInt8)}
    (hfits : ∀ path ∈ (Request.read argv).path, PathBuffer.Fits host.pathMax cwd path) :
    Mirrors tree (command strerror host fs junk (render cwd) argv)
      (tree.perform strerror cwd (.read argv)) := by
  cases argv with
  | nil => exact mirrors_same hstands _ _
  | cons name words =>
      cases words with
      | nil =>
          simp only [command, Request.read, List.length_cons, List.length_nil, List.getD_cons_zero,
            le_refl, true_and, Nat.reduceLeDiff, Nat.reduceEqDiff, if_false, false_and,
            List.take_of_length_le hbound]
          split
          · exact ls_mirrors hroot hstands hstands.names
          · split
            · exact mirrors_same hstands _ _
            · split
              · exact mirrors_same hstands _ _
              · split <;> exact mirrors_same hstands _ _
      | cons path words =>
          have hpath : PathBuffer.Fits host.pathMax cwd path →
              relativeToAbsolute junk (render cwd) path host.pathMax = render (resolve cwd path) ∧
                (render (resolve cwd path)).length ≤ host.pathMax - 1 ∧
                ∀ name ∈ resolve cwd path, IsFileName name :=
            fun hfits => hstands.relativeToAbsolute_eq hfits junk
          cases words with
          | nil =>
              simp only [command, Request.read, List.length_cons, List.length_nil,
                List.getD_cons_zero, List.getD_cons_succ, Nat.reduceAdd, Nat.reduceLeDiff,
                Nat.reduceEqDiff, le_refl, if_true, true_and, false_and, if_false] at hfits ⊢
              by_cases hls : name = text "ls"
              · rw [if_pos hls] at hfits
                obtain ⟨htext, -, hnames⟩ := hpath (hfits path rfl)
                rw [if_pos hls, if_pos hls, htext]
                exact ls_mirrors hroot hstands hnames
              rw [if_neg hls] at hfits
              rw [if_neg hls, if_neg hls]
              by_cases hcat : name = text "cat"
              · rw [if_pos hcat] at hfits
                obtain ⟨htext, -, hnames⟩ := hpath (hfits path rfl)
                rw [if_pos hcat, if_pos hcat, htext]
                exact cat_mirrors hroot hstands hnames
              rw [if_neg hcat] at hfits
              rw [if_neg hcat, if_neg hcat]
              by_cases hcd : name = text "cd"
              · rw [if_pos hcd] at hfits
                obtain ⟨htext, hresolved, hnames⟩ := hpath (hfits path rfl)
                rw [if_pos hcd, if_pos hcd, htext]
                exact cd_mirrors hroot hstands hnames hresolved
              rw [if_neg hcd, if_neg hcd]
              exact mirrors_same hstands _ _
          | cons word words =>
              have hsome : 1 ≤ words.length + 1 + 1 + 1 := Nat.le_add_left 1 _
              have htwo : 2 ≤ words.length + 1 + 1 + 1 := by omega
              have hnotOne : words.length + 1 + 1 + 1 ≠ 1 := by omega
              have hnotTwo : words.length + 1 + 1 + 1 ≠ 2 := by omega
              simp only [command, Request.read, List.length_cons, List.getD_cons_zero,
                List.getD_cons_succ, hsome, htwo, hnotOne, hnotTwo, if_true, true_and,
                false_and, if_false] at hfits ⊢
              by_cases hls : name = text "ls"
              · rw [if_pos hls] at hfits
                obtain ⟨htext, -, hnames⟩ := hpath (hfits path rfl)
                rw [if_pos hls, if_pos hls, htext]
                exact ls_mirrors hroot hstands hnames
              rw [if_neg hls, if_neg hls]
              exact mirrors_same hstands _ _

/-- The loop of the shell shows what the session in the tree shows. -/
theorem shellLoop_eq (hroot : Describes fs 0 (.dir none tree)) (lines : List (List UInt8))
    (hstands : Stands tree cwd) (hfitting : tree.Fitting strerror host lines cwd) :
    shellLoop strerror host fs junk lines (render cwd) = .ok (tree.session strerror lines cwd) := by
  induction lines generalizing cwd with
  | nil => rfl
  | cons line lines ih =>
      obtain ⟨hbound, hpath, hrest⟩ := hfitting
      have hmirrors : Mirrors tree (command strerror host fs junk (render cwd) (usedWords line))
          (tree.perform strerror cwd (.read (usedWords line))) :=
        command_mirrors hroot hstands hbound hpath
      rw [shellLoop, Tree.session, argStrings_eq, ok_bind]
      dsimp only
      rw [hmirrors.quits, hmirrors.printed, hmirrors.cwd]
      split
      · rfl
      next hgoes =>
        rw [ih hmirrors.stands (hrest (Bool.eq_false_iff.mpr hgoes))]
        rfl

theorem Tree.Fitting.bound {lines : List (List UInt8)}
    (hfitting : tree.Fitting strerror host lines cwd) :
    (render cwd).length ≤ host.pathMax - 1 := by
  cases lines with
  | nil => exact hfitting
  | cons line lines => exact hfitting.1

/-- The shell on the image of a tree shows what a session in the tree shows. -/
theorem shell_eq (hroot : Describes fs 0 (.dir none tree)) {input : List UInt8}
    (hfitting : tree.Fitting strerror host (inputLines input) []) :
    shell strerror host fs junk input =
      .ok (prompt [slash] ++ tree.session strerror (inputLines input) []) := by
  have hstart : [slash].take (host.pathMax - 1) = render [] :=
    List.take_of_length_le hfitting.bound
  rw [shell, hstart, shellLoop_eq hroot _ (stands_root tree) hfitting]
  rfl

/-! ## Trees in which every session fits -/

theorem Stands.perform (hstands : Stands tree cwd) {request : Request}
    (hnames : ∀ path ∈ request.path, ∀ name ∈ resolve cwd path, IsFileName name) :
    Stands tree (tree.perform strerror cwd request).cwd := by
  cases request with
  | cd path =>
      rw [Tree.perform]
      cases hdir : tree.dirAt (resolve cwd path) with
      | error errno => exact hstands
      | ok children =>
          refine ⟨hnames path rfl, ?_⟩
          rw [Tree.dirAt] at hdir
          split at hdir
          next => cases hdir
          next => cases hdir
          next stat children' hwalk => exact ⟨stat, children', hwalk⟩
  | ls path =>
      rw [Tree.perform]
      split <;> exact hstands
  | cat path =>
      rw [Tree.perform]
      split <;> exact hstands
  | _ => exact hstands

theorem Request.mem_of_path {words : List (List UInt8)} {path : List UInt8}
    (hpath : path ∈ (Request.read words).path) : path ∈ words := by
  have hsecond : ∀ {name word : List UInt8} {more : List (List UInt8)},
      path ∈ (some word : Option (List UInt8)) → path ∈ name :: word :: more := by
    intro name word more hword
    obtain rfl := Option.some_injective _ hword
    exact List.mem_cons_of_mem _ List.mem_cons_self
  unfold Request.read at hpath
  split at hpath
  · cases hpath
  · split_ifs at hpath <;> cases hpath
  · split_ifs at hpath
    · exact hsecond hpath
    · exact hsecond hpath
    · exact hsecond hpath
    · cases hpath
  · split_ifs at hpath
    · exact hsecond hpath
    · cases hpath

theorem length_path {line path : List UInt8}
    (hpath : path ∈ (Request.read (usedWords line)).path) : path.length ≤ line.length :=
  length_usedWords (Request.mem_of_path hpath)

/-- Where the paths of all directories leave room for a line, every session fits. -/
theorem Tree.Roomy.fitting (hroomy : tree.Roomy host) (lines : List (List UInt8))
    (hlines : ∀ line ∈ lines, line.length < lineSize) (hstands : Stands tree cwd) :
    tree.Fitting strerror host lines cwd := by
  have hbound : ∀ {cwd}, Stands tree cwd → pathLength cwd + lineSize < host.pathMax := by
    intro cwd hstands
    obtain ⟨stat, children, hwalk⟩ := hstands.directory
    exact hroomy cwd stat children hwalk
  induction lines generalizing cwd with
  | nil =>
      have hroom := hbound hstands
      rw [lineSize] at hroom
      exact length_render_le (by omega) (by omega)
  | cons line lines ih =>
      have hroom := hbound hstands
      have hfits : ∀ path ∈ (Request.read (usedWords line)).path,
          PathBuffer.Fits host.pathMax cwd path := by
        intro path hpath
        have hlength := length_path hpath
        have hline := hlines line List.mem_cons_self
        rw [lineSize] at hline hroom
        exact fits_of_room (by omega)
      rw [lineSize] at hroom
      refine ⟨length_render_le (by omega) (by omega), hfits, fun _ => ?_⟩
      refine ih (fun other hother => hlines other (List.mem_cons_of_mem _ hother)) ?_
      exact hstands.perform fun path hpath =>
        (hstands.relativeToAbsolute_eq (hfits path hpath) 0).2.2

end Sessions

/-- Building an image and opening a shell on it: where the paths that the session forms fit, the
shell shows what the same session shows in the tree that the host reported.  It never faults, and
its working directory is always a directory of the tree.  If the paths of all directories leave
room for a line, every session fits. -/
theorem shell_refines_tree {host : Host} {dir : List UInt8} {names : List (List UInt8)}
    {tree : Tree} (hopendir : host.opendir dir = some names)
    (hreports : Reports host dir names tree) (hfits : tree.imageSize + bufsize < 2 ^ 31)
    {depth : ℕ} (hdepth : tree.height < depth) (garbage : Garbage) :
    (∃ image printed, build host garbage depth dir = .ok (image, printed) ∧
      ∀ chunks, chunks.flatten = image → ∀ strerror buffer junk input,
        tree.Fitting strerror host (inputLines input) [] →
        shellMain strerror host junk buffer chunks input =
          .ok (prompt [slash] ++ tree.session strerror (inputLines input) [])) ∧
    (tree.Roomy host → ∀ strerror input, tree.Fitting strerror host (inputLines input) []) := by
  have hmax : tree.imageSize ≤ maxImage := by
    rw [maxImage]
    omega
  refine ⟨⟨_, _, build_writes_image hopendir hreports hmax hdepth garbage, ?_⟩, ?_⟩
  · rintro chunks hchunks strerror garbage' junk input hfitting
    have hsize := length_imageBytes host garbage.table garbage.root dir tree
    obtain ⟨buffer, hbuffer, hhas⟩ := readFile_has garbage' chunks
      (by rw [hchunks, hsize]; exact hfits)
    rw [shellMain, hbuffer, ok_bind]
    exact shell_eq (describes_root (hchunks ▸ hhas.stored) hmax) hfitting
  · intro hroomy strerror input
    refine hroomy.fitting _ (fun line hline => ?_) (stands_root tree)
    have hlength := length_fgetsFrom (by decide : 0 < lineSize - 1) [] (by decide) line hline
    rw [lineSize] at hlength ⊢
    omega

theorem roomy_smallTree : smallTree.Roomy smallHost := by
  intro names stat children hwalk
  rcases names with _ | ⟨name, rest⟩
  · decide
  · by_cases hfile : [0x66] = name
    · subst hfile
      cases rest <;> cases hwalk
    · by_cases hdir : [0x73] = name
      · subst hdir
        rcases rest with _ | ⟨other, _ | ⟨more, rest⟩⟩
        · decide
        · cases hwalk
        · cases hwalk
      · have hnone : smallTree.find name = none := by
          simp only [smallTree, Tree.find, fileName, subdirectoryName, hfile, hdir, if_false]
        cases rest with
        | nil =>
            rw [Tree.walk, flagged, Tree.follow, hnone] at hwalk
            cases hwalk
        | cons other rest =>
            rw [Tree.walk, flagged, Tree.follow, hnone] at hwalk
            cases hwalk

theorem shell_refines_tree_small :
    ∃ image printed, build smallHost ⟨fun _ => 0, fun _ _ => 0, fun _ => 0⟩ 2 [0x64] =
        .ok (image, printed) ∧
      ∀ chunks, chunks.flatten = image → ∀ strerror buffer junk input,
        shellMain strerror smallHost junk buffer chunks input =
          .ok (prompt [slash] ++ smallTree.session strerror (inputLines input) []) := by
  obtain ⟨⟨image, printed, hbuild, hshell⟩, hroomy⟩ := shell_refines_tree rfl reports_smallTree
    (by decide) (by decide : smallTree.height < 2) ⟨fun _ => 0, fun _ _ => 0, fun _ => 0⟩
  refine ⟨image, printed, hbuild, fun chunks hchunks strerror buffer junk input => ?_⟩
  exact hshell chunks hchunks strerror buffer junk input (hroomy roomy_smallTree strerror input)

end Rhythmos.Fstool
