import Rhythmos.Buddy.Sessions
import Rhythmos.Constants
import Rhythmos.Shell.Erasing

/-!
# Command lines

`process_line` of `dsh.c`, in a process whose heap is the area of `malloc`.  Nothing frees the copy
of the line that `rm_consecutive_chars` returns, and two of the three returns do not free `tline`
either.  So each command leaves blocks behind, and no shell lives to see more commands than its heap
has blocks.
-/

namespace Rhythmos.Shell.Dsh

open Buddy Fallible Objects Erasing
open Libc.Printf (ascii)
open Libc.Strings (comparison)
open Libc.Tokens (stringAt)

/-- The characters of a string literal. -/
def text (s : String) : List UInt8 := s.toList.map ascii

/-- `MAX_ARGS`. -/
def maxArgs : ℕ := 32

/-- `DEFAULT_PATH`. -/
def defaultPath : List UInt8 := text "/bin"

/-- The output of a process and the system calls it makes, in a world `W`.  None of them concerns
the heap of the process. -/
structure Calls (W : Type) where
  printf : W → List UInt8 → W
  perror : W → List UInt8 → W
  chdir : W → List UInt8 → ℤ × W
  getcwd : W → Option (List UInt8) × W
  stat : W → List UInt8 → ℤ × W
  getpid : W → ℤ
  fork : W → ℤ × W
  waitpid : W → ℤ → ℤ × W

structure Process (W : Type) where
  heap : Session
  world : W

variable {W : Type}

/-! ## The functions of `buddy.c` -/

/-- `sizeof(memarea)`. -/
def memareaSize : ℕ := 144

/-- The heap that `init_userspace_malloc` sets up. -/
def initUserspaceMalloc (memory : ByteMemory.Memory) : Session :=
  Session.init 20 (processDataBase + memareaSize) memory

/-- `malloc` in user mode.  The block is added to the live ones, and holds what its memory does. -/
def malloc (process : Process W) (nbytes : ℕ) : Except Fault (Object × Process W) := do
  let m ← mforsize process.heap.area nbytes
  let (ptr, area) ← buddyAlloc true process.heap.area nbytes
  -- "Out of memory"
  check (ptr ≠ 0)
  return (⟨ptr, (List.range nbytes).map fun i => area.memory (ptr + i)⟩,
    { process with heap := ⟨area, ⟨ptr - area.mem, m⟩ :: process.heap.live⟩ })

def free (process : Process W) (ptr : ℕ) : Except Fault (Process W) := do
  let heap ← process.heap.step true (.free ptr)
  return { process with heap := heap }

/-- What the functions on strings use of the process. -/
def libc (calls : Calls W) : Libc (Process W) where
  malloc process nbytes := do
    let (object, process) ← malloc process nbytes
    return (some object, process)
  printf process chars := { process with world := calls.printf process.world chars }

/-! ## The functions of `dsh.c` -/

/-- How the part of `process_line` that executes a command goes on. -/
inductive Action (W : Type) where
  /-- to the end of the function, where `tline` is freed -/
  | finish (world : W) (done : Bool)
  /-- to the `return` behind `run_program` -/
  | ran (world : W)
  /-- in the child of `run_program`, which calls `execve`, and exits where that fails -/
  | child (filename : List UInt8) (args : List (List UInt8))

def runProgram (calls : Calls W) (world : W) (filename : List UInt8)
    (args : List (List UInt8)) : Action W :=
  let (pid, world) := calls.fork world
  if pid < 0 then .ran (calls.perror world (text "fork"))
  else if pid = 0 then .child filename args
  else
    let (result, world) := calls.waitpid world pid
    if result < 0 then .ran (calls.perror world (text "waitpid")) else .ran world

/-- The body of the loop that looks for shell variables. -/
def shellVariable (calls : Calls W) (line : List UInt8) (world : W) (arg : List UInt8) : W :=
  if arg[0]? = some (ascii '$') then
    let world := calls.printf world (text "SHELL VARIABLE DETECTED: " ++ arg)
    if arg[1]? = some (ascii '$') then
      calls.printf world (text (toString (calls.getpid world)))
    else if comparison arg (text "$line") = 0 then
      calls.printf world (text "buf:" ++ line ++ text "\n")
    else if comparison arg (text "$PATH") = 0 then calls.printf world (defaultPath ++ text "\n")
    else world
  else world

/-- The command `argv[0]`, with the arguments behind it. -/
def execute (calls : Calls W) (world : W) (done : Bool) (line command : List UInt8)
    (args : List (List UInt8)) : Action W :=
  if comparison command (text "cd") = 0 then
    match args with
    | [] => .finish (calls.printf world (text "Usage: cd <path>\n")) done
    | path :: _ =>
        let (result, world) := calls.chdir world path
        if result < 0 then .finish (calls.perror world path) done else .finish world done
  else if comparison command (text "pwd") = 0 then
    match calls.getcwd world with
    | (none, world) => .finish (calls.perror world (text "getcwd")) done
    | (some path, world) => .finish (calls.printf world (path ++ text "\n")) done
  else if comparison command (text "exit") = 0 then .finish world true
  else
    let world := (command :: args).foldl (shellVariable calls line) world
    let cmdpath := (defaultPath ++ text "/" ++ command).take (pathMax - 1)
    let (result, world) := calls.stat world cmdpath
    if result = 0 then runProgram calls world cmdpath (command :: args)
    else .finish (calls.printf world (command ++ text ": command not found\n")) done

/-- The assignment `argv[argc] = NULL`, behind which there are no more arguments. -/
def endArgs (argv : List ℕ) (argc : ℕ) : Except Fault (List ℕ) :=
  if argc < argv.length then .ok (argv.take argc) else .error .outOfBounds

inductive Outcome (W : Type) where
  /-- `process_line` returns, with `done` as it is then -/
  | returned (process : Process W) (done : Bool)
  | child (filename : List UInt8) (args : List (List UInt8))

/-- `key` is the string literal `"\b"`. -/
def processLine (calls : Calls W) (key : Object) (process : Process W) (line : List UInt8)
    (done : Bool) : Except Fault (Outcome W) := do
  let _ ← strlen line
  let (tline, process) ← malloc process bufsize
  let (copy, process) ← rmConsecutiveChars (libc calls) process line key
  let (argc, bytes, argv) ← parseCommand copy.bytes (List.replicate (maxArgs + 1) 0) maxArgs
  let argv ← endArgs argv argc
  match argv.map (stringAt bytes) with
  | [] => return .returned process done
  | command :: args =>
      match execute calls process.world done (stringAt bytes 0) command args with
      | .finish world done =>
          let process ← free { process with world := world } tline.address
          return .returned process done
      | .ran world => return .returned { process with world := world } done
      | .child filename args => return .child filename args

/-! ## The heap -/

/-- A process has got one block more. -/
structure Grown (process process' : Process W) (block : DyadicTiling.Block) : Prop where
  live : process'.heap.live = block :: process.heap.live
  inv : process'.heap.Inv
  upper : process'.heap.area.upper = process.heap.area.upper
  mem : process'.heap.area.mem = process.heap.area.mem

variable {process process' : Process W} {object tline : Object}

theorem Grown.notMem {block : DyadicTiling.Block} (hgrown : Grown process process' block) :
    block ∉ process.heap.live := by
  have hnodup := hgrown.inv.1
  rw [hgrown.live] at hnodup
  exact (List.nodup_cons.mp hnodup).1

/-- A call of `malloc` that returns. -/
theorem malloc_spec (hinv : process.heap.Inv) {nbytes : ℕ}
    (hmalloc : malloc process nbytes = .ok (object, process')) :
    ∃ block, Grown process process' block ∧ object.address = process'.heap.pointer block ∧
      object.bytes.length = nbytes := by
  obtain ⟨m, hm, hmalloc⟩ := bind_eq_ok.mp hmalloc
  obtain ⟨⟨ptr, area⟩, halloc, hmalloc⟩ := bind_eq_ok.mp hmalloc
  obtain ⟨⟨⟩, hcheck, hmalloc⟩ := bind_eq_ok.mp hmalloc
  obtain ⟨rfl, rfl⟩ := Prod.mk.inj (Except.ok.inj hmalloc)
  have hnbytes : nbytes < 2 ^ 31 := by
    by_contra hlarge
    rw [Session.mforsize_eq_error _ (not_lt.mp hlarge)] at hm
    cases hm
  have hptr : ptr ≠ 0 := by
    intro hzero
    rw [check, if_neg (not_not.mpr hzero)] at hcheck
    cases hcheck
  have hstep : process.heap.step true (.alloc nbytes) =
      .ok ⟨area, ⟨ptr - area.mem, m⟩ :: process.heap.live⟩ := by
    simp only [Session.step, hm, ok_bind, halloc, if_neg hptr, pure_eq_ok]
  obtain ⟨hinv', hupper⟩ := Session.step_inv hinv ⟨.alloc nbytes, trivial, hstep⟩
  obtain ⟨-, lists, hrep, hbuddies⟩ := hinv
  rcases buddyAlloc_spec true hrep hbuddies hnbytes with
    ⟨cm, base, ma, hserved, hallocated⟩ | ⟨-, hfailed⟩
  · obtain ⟨rfl, rfl⟩ := Prod.mk.inj (Except.ok.inj (halloc.symm.trans hserved))
    refine ⟨_, ⟨rfl, hinv', hupper, hallocated.keeps.mem⟩, ?_, ?_⟩
    · simp only [Session.pointer, hallocated.keeps.mem]
      omega
    · rw [List.length_map, List.length_range]
  · rw [hfailed] at halloc
    exact absurd (Prod.mk.inj (Except.ok.inj halloc)).1.symm hptr

theorem free_spec (process : Process W) (hinv : process.heap.Inv) {block : DyadicTiling.Block}
    (hblock : block ∈ process.heap.live)
    (hfree : free process (process.heap.pointer block) = .ok process') :
    process'.heap.live = process.heap.live.erase block ∧ process'.heap.Inv ∧
      process'.heap.area.upper = process.heap.area.upper := by
  obtain ⟨area, hstep, hinv', hupper⟩ := Session.step_free true hinv hblock
  rw [free, hstep, ok_bind, pure_eq_ok] at hfree
  obtain rfl := Except.ok.inj hfree
  exact ⟨rfl, hinv', hupper⟩

/-- The copy of the line is one block more. -/
theorem rmConsecutiveChars_spec {calls : Calls W} (key : Literal) {chars : List UInt8}
    (rest : List UInt8) (htext : 0 ∉ chars) (hinv : process.heap.Inv)
    (hcopy : rmConsecutiveChars (libc calls) process (chars ++ 0 :: rest) key.toObject =
      .ok (object, process')) : ∃ block, Grown process process' block := by
  have hlen := strlen_eq rest htext
  obtain ⟨len, hstrlen, hrun⟩ := bind_eq_ok.mp hcopy
  obtain rfl := Except.ok.inj (hlen.symm.trans hstrlen)
  obtain ⟨⟨dest, after⟩, hmalloc, -⟩ := bind_eq_ok.mp hrun
  obtain ⟨⟨fresh, after⟩, hfresh, hreturn⟩ := bind_eq_ok.mp hmalloc
  obtain ⟨rfl, rfl⟩ := Prod.mk.inj (Except.ok.inj hreturn)
  obtain ⟨block, hgrown, -, hsize⟩ := malloc_spec hinv hfresh
  have heq := rmConsecutiveChars_eq key rest htext hmalloc hsize
  obtain ⟨-, rfl⟩ := Prod.mk.inj (Except.ok.inj (heq.symm.trans hcopy))
  exact ⟨block, hgrown⟩

/-! ## The blocks that a command leaves -/

/-- What a call of `process_line` that returns has done to the heap: the copy of the line is one
block more, and `tline` another one where it has not been freed. -/
structure Leaked (process process' : Process W) : Prop where
  inv : process'.heap.Inv
  upper : process'.heap.area.upper = process.heap.area.upper
  live : ∃ copy tline, copy ∉ process.heap.live ∧
    (process'.heap.live = copy :: process.heap.live ∨
      process'.heap.live = copy :: tline :: process.heap.live)

theorem processLine_leaked {calls : Calls W} (key : Literal) {chars : List UInt8}
    (rest : List UInt8) (htext : 0 ∉ chars) (hinv : process.heap.Inv) {done done' : Bool}
    (hrun : processLine calls key.toObject process (chars ++ 0 :: rest) done =
      .ok (.returned process' done')) : Leaked process process' := by
  obtain ⟨-, -, hrun⟩ := bind_eq_ok.mp hrun
  obtain ⟨⟨tline, first⟩, htline, hrun⟩ := bind_eq_ok.mp hrun
  obtain ⟨⟨copy, second⟩, hcopy, hrun⟩ := bind_eq_ok.mp hrun
  obtain ⟨⟨argc, bytes, argv⟩, -, hrun⟩ := bind_eq_ok.mp hrun
  obtain ⟨argv, -, hrun⟩ := bind_eq_ok.mp hrun
  obtain ⟨tblock, hfirst, haddress, -⟩ := malloc_spec hinv htline
  obtain ⟨cblock, hsecond⟩ := rmConsecutiveChars_spec key rest htext hfirst.inv hcopy
  have hupper := hsecond.upper.trans hfirst.upper
  have hnew : cblock ∉ tblock :: process.heap.live := hfirst.live ▸ hsecond.notMem
  have hnotMem : cblock ∉ process.heap.live := fun h => hnew (List.mem_cons_of_mem _ h)
  have hlive : second.heap.live = cblock :: tblock :: process.heap.live := by
    rw [hsecond.live, hfirst.live]
  cases hargs : argv.map (stringAt bytes) with
  | nil =>
      simp only [hargs, pure_eq_ok, Except.ok.injEq, Outcome.returned.injEq] at hrun
      obtain ⟨rfl, -⟩ := hrun
      exact ⟨hsecond.inv, hupper, cblock, tblock, hnotMem, .inr hlive⟩
  | cons command args =>
      simp only [hargs] at hrun
      cases haction : execute calls second.world done (stringAt bytes 0) command args with
      | finish world done =>
          simp only [haction] at hrun
          obtain ⟨third, hfree, hreturn⟩ := bind_eq_ok.mp hrun
          obtain ⟨rfl, -⟩ := Outcome.returned.inj (Except.ok.inj hreturn)
          have hpointer : tline.address = second.heap.pointer tblock := by
            rw [haddress, Session.pointer, Session.pointer, hsecond.mem]
          rw [hpointer] at hfree
          obtain ⟨herase, hinv', hupper'⟩ := free_spec ⟨second.heap, world⟩ hsecond.inv
            (hlive ▸ List.mem_cons_of_mem _ List.mem_cons_self) hfree
          refine ⟨hinv', hupper'.trans hupper, cblock, tblock, hnotMem, .inl ?_⟩
          have hne : cblock ≠ tblock := fun h => hnew (h ▸ List.mem_cons_self)
          rw [herase, hlive, List.erase_cons_tail (by simpa using hne), List.erase_cons_head]
      | ran world =>
          simp only [haction, pure_eq_ok, Except.ok.injEq, Outcome.returned.injEq] at hrun
          obtain ⟨rfl, -⟩ := hrun
          exact ⟨hsecond.inv, hupper, cblock, tblock, hnotMem, .inr hlive⟩
      | child filename params =>
          simp only [haction, pure_eq_ok, Except.ok.injEq] at hrun
          cases hrun

theorem Leaked.ssubset (hleaked : Leaked process process') :
    process.heap.liveSet ⊂ process'.heap.liveSet := by
  obtain ⟨copy, tline, hnew, hlive⟩ := hleaked.live
  constructor
  · intro block hblock
    have hold : block ∈ process.heap.live := hblock
    change block ∈ process'.heap.live
    rcases hlive with h | h
    · rw [h]
      exact List.mem_cons_of_mem _ hold
    · rw [h]
      exact List.mem_cons_of_mem _ (List.mem_cons_of_mem _ hold)
  · intro hsubset
    refine hnew (hsubset (a := copy) ?_)
    change copy ∈ process'.heap.live
    rcases hlive with h | h
    · rw [h]
      exact List.mem_cons_self
    · rw [h]
      exact List.mem_cons_self

theorem Leaked.length_lt (hleaked : Leaked process process') :
    process.heap.live.length < process'.heap.live.length := by
  obtain ⟨copy, tline, -, hlive⟩ := hleaked.live
  rcases hlive with h | h
  · rw [h, List.length_cons]
    omega
  · rw [h, List.length_cons, List.length_cons]
    omega

/-- A process has executed `n` commands, each of which has returned; whatever happens between them
leaves the heap alone. -/
inductive Commands (calls : Calls W) (key : Literal) (start : Process W) : ℕ → Process W → Prop
  | none : Commands calls key start 0 start
  | next {n : ℕ} {before between after : Process W} {chars rest : List UInt8} {done done' : Bool}
      (hbefore : Commands calls key start n before) (hheap : between.heap = before.heap)
      (htext : 0 ∉ chars)
      (hrun : processLine calls key.toObject between (chars ++ 0 :: rest) done =
        .ok (.returned after done')) : Commands calls key start (n + 1) after

theorem Commands.length_live {calls : Calls W} {key : Literal} {start : Process W} {n : ℕ}
    (hinv : start.heap.Inv) (hrun : Commands calls key start n process) :
    process.heap.Inv ∧ process.heap.area.upper = start.heap.area.upper ∧
      n + start.heap.live.length ≤ process.heap.live.length := by
  induction hrun with
  | none => exact ⟨hinv, rfl, (Nat.zero_add _).le⟩
  | next hbefore hheap htext hrun ih =>
      rw [← hheap] at ih
      obtain ⟨hinvBefore, hupper, hlength⟩ := ih
      have hleaked := processLine_leaked key _ htext hinvBefore hrun
      have hlt := hleaked.length_lt
      exact ⟨hleaked.inv, hleaked.upper.trans hupper, by omega⟩

/-- The heap of a program, after any use that the program has made of it. -/
def Reached (process : Process W) : Prop := ∃ memory,
  Relation.ReflTransGen (Session.Step true) (initUserspaceMalloc memory) process.heap

theorem Reached.inv (hreached : Reached process) :
    process.heap.Inv ∧ process.heap.area.upper = 20 := by
  obtain ⟨memory, hrun⟩ := hreached
  have hinit : (initUserspaceMalloc memory).Inv := by
    refine Session.init_inv memory (by norm_num) (by norm_num) ?_ ?_
    · norm_num [processDataBase, memareaSize]
    · norm_num [processDataBase, memareaSize, ByteMemory.wordCount]
  exact Session.run_inv hinit hrun

/-- No call of `process_line` that returns leaves the live blocks as they were: whatever the line
and the outcome, there are more.  So no shell executes more than 4096 commands. -/
theorem processLine_leaks (calls : Calls W) (key : Literal) :
    (∀ process chars rest done, Reached process → 0 ∉ chars →
      ¬ ∃ process' done', processLine calls key.toObject process (chars ++ 0 :: rest) done =
          .ok (.returned process' done') ∧ process'.heap.liveSet = process.heap.liveSet) ∧
      ∀ start n process, Reached start → Commands calls key start n process → n ≤ 4096 := by
  constructor
  · rintro process chars rest done hreached htext ⟨process', done', hrun, hsame⟩
    have hleaked := processLine_leaked key rest htext hreached.inv.1 hrun
    exact hleaked.ssubset.ne hsame.symm
  · intro start n process hreached hrun
    obtain ⟨hinv, hupper, hlength⟩ := hrun.length_live hreached.inv.1
    have hle := Session.length_live_le hinv
    rw [hupper, hreached.inv.2] at hle
    omega

/-! ## A command that leaves two blocks -/

/-- A world in which every program can be run. -/
def calm : Calls Unit where
  printf _ _ := ()
  perror _ _ := ()
  chdir _ _ := (0, ())
  getcwd _ := (some [47], ())
  stat _ _ := (0, ())
  getpid _ := 1
  fork _ := (2, ())
  waitpid _ pid := (pid, ())

/-- The live blocks after a call that returns. -/
def Outcome.live : Outcome W → Option (List DyadicTiling.Block)
  | .returned process _ => some process.heap.live
  | .child _ _ => none

/-- The command `ls`, from an empty heap. -/
theorem processLine_ls_leaks : (initUserspaceMalloc fun _ => 0).live = [] ∧
    (processLine calm textLiteral.toObject ⟨initUserspaceMalloc fun _ => 0, ()⟩ [108, 115, 0]
      false).map Outcome.live = .ok (some [⟨2048, 8⟩, ⟨0, 11⟩]) := by
  decide +kernel

end Rhythmos.Shell.Dsh
