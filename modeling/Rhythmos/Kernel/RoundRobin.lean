import Rhythmos.Kernel.Attendance
import Rhythmos.Kernel.Restarts

/-!
# Round robin

A rotation is a number of timer interrupts with the time slices between them.  In a slice
the running process does what it likes, as long as the ready list stays as it is: the slice
is any function of the machine that keeps what `Slice` lists, together with the registers
that the next interrupt finds.  The step lemma says which process one `context_switch`
selects and what it is given; the run lemma follows the list around.
-/

namespace Rhythmos.Kernel

open Fallible DoublyLinked

/-- `nodes` is the ready list, and no process on it is inside a system call. -/
structure ReadyList (nodes : List Pid) (c : Core) : Prop where
  linked : IsList c.prevOf c.nextOf (c.queue .ready).first (c.queue .ready).last nodes
  ready : ∀ pid ∈ nodes, (c.processes pid).ready = true
  idle : ∀ pid ∈ nodes, (c.processes pid).inSyscall = 0

/-- The machine `m'` may be what a time slice makes of `m`: no process is created, suspended,
resumed or killed, and nobody touches the saved registers of the processes that wait for
their turn. -/
structure Slice (nodes : List Pid) (m m' : Machine) : Prop where
  current : m'.core.current = m.core.current
  queue : m'.core.queue .ready = m.core.queue .ready
  links : ∀ pid ∈ nodes, m'.core.prevOf pid = m.core.prevOf pid ∧
    m'.core.nextOf pid = m.core.nextOf pid
  ready : ∀ pid ∈ nodes, (m'.core.processes pid).ready = (m.core.processes pid).ready
  inSyscall : ∀ pid ∈ nodes, (m'.core.processes pid).inSyscall = (m.core.processes pid).inSyscall
  savedRegs : ∀ pid ∈ nodes, m.core.current ≠ some pid →
    (m'.core.processes pid).savedRegs = (m.core.processes pid).savedRegs

/-- One timer interrupt. -/
structure Turn where
  /-- the process that is interrupted -/
  leaving : Option Pid
  /-- the registers that are saved for it -/
  saved : Regs
  selected : Option Pid
  /-- the registers that the selected process continues with -/
  given : Regs

/-- What happens up to the next timer interrupt, and the registers that it finds. -/
abbrev Work := Machine → Machine × Regs

/-- The registers saved when a process was last switched out, after the given turns. -/
def lastSaved (before : Pid → Regs) (turns : List Turn) (pid : Pid) : Regs :=
  turns.foldl (fun regs turn => if turn.leaving = some pid then turn.saved else regs) (before pid)

theorem lastSaved_cons (before : Pid → Regs) (turn : Turn) (turns : List Turn) (pid : Pid) :
    lastSaved before (turn :: turns) pid =
      lastSaved (fun other => if turn.leaving = some other then turn.saved else before other)
        turns pid := rfl

theorem lastSaved_congr {before before' : Pid → Regs} {pid : Pid} (hsame : before pid = before' pid)
    (turns : List Turn) : lastSaved before turns pid = lastSaved before' turns pid := by
  rw [lastSaved, lastSaved, hsame]

/-- Every selected process is given what was saved when it was last switched out. -/
def Faithful (before : Pid → Regs) (turns : List Turn) : Prop :=
  ∀ earlier turn later, turns = earlier ++ turn :: later → ∀ pid, turn.selected = some pid →
    turn.given = lastSaved before (earlier ++ [turn]) pid

namespace Machine

variable {nodes : List Pid} {m m' : Machine} {r : Regs} {index depth : ℕ}

/-- The timer interrupts the works one after the other. -/
def rotate (depth : ℕ) : List Work → Machine → Except Fault (Machine × List Turn)
  | [], m => .ok (m, [])
  | work :: works, m => do
      let (m₁, r) := work m
      let (m₂, given) ← contextSwitch depth m₁ r
      let (m₃, turns) ← rotate depth works m₂
      return (m₃, ⟨m₁.core.current, r, m₂.core.current, given⟩ :: turns)

/-- The registers saved in the process table. -/
def savedRegs (m : Machine) (pid : Pid) : Regs := (m.core.processes pid).savedRegs

/-! ## Slices -/

theorem ReadyList.slice (hready : ReadyList nodes m.core) (hslice : Slice nodes m m') :
    ReadyList nodes m'.core where
  linked := by
    rw [hslice.queue]
    exact isList_congr hready.linked (fun pid hpid => (hslice.links pid hpid).1)
      fun pid hpid => (hslice.links pid hpid).2
  ready pid hpid := (hslice.ready pid hpid).trans (hready.ready pid hpid)
  idle pid hpid := (hslice.inSyscall pid hpid).trans (hready.idle pid hpid)

/-- A store of the running process is work of a time slice. -/
theorem slice_userStore {address : Word} {byte : UInt8}
    (hstore : handle depth m (.userStore address byte) = .ok m') : Slice nodes m m' := by
  have hcore : m'.core = m.core := by
    rw [handle] at hstore
    split at hstore
    next => rw [← Except.ok.inj hstore]
    next => rw [← Except.ok.inj hstore]
  exact
    { current := congrArg Core.current hcore
      queue := congrArg (fun c => Core.queue c .ready) hcore
      links := fun pid _ => ⟨congrArg (fun c => Core.prevOf c pid) hcore,
        congrArg (fun c => Core.nextOf c pid) hcore⟩
      ready := fun pid _ => congrArg (fun c => (Core.processes c pid).ready) hcore
      inSyscall := fun pid _ => congrArg (fun c => (Core.processes c pid).inSyscall) hcore
      savedRegs := fun pid _ _ => congrArg (fun c => (Core.processes c pid).savedRegs) hcore }

/-- A system call that returns to its caller has neither suspended nor ended it. -/
theorem conclude_returns {pid : Pid} {value : Machine × Regs × Word}
    (hreturns : (m.conclude pid r value).switches = false) :
    value.2.2 ≠ failure esuspend ∧ value.1.core.current = some pid := by
  simp only [conclude] at hreturns
  split at hreturns
  next => cases hreturns
  next hstill =>
    refine ⟨fun hres => hstill ((storeErrno_esuspend _ _ _).mpr hres), ?_⟩
    rw [← current_storeErrno value.1 r.eax.toNat value.2.2]
    simpa [setCore] using hreturns

/-- A system call that returns to its caller is work of a time slice, if it leaves the ready
list alone. -/
theorem slice_pass {pid : Pid} {passage : Passage} (hsized : m.core.Sized)
    (hcurrent : m.core.current = some pid) (hidle : (m.core.processes pid).inSyscall = 0)
    (hcall : ∀ call ∈ vitalCalls, r.eax.toNat ≠ call.number) (hpass : m.pass r = .ok passage)
    (hreturns : passage.switches = false)
    (hqueue : passage.after.core.queue .ready = m.core.queue .ready)
    (hlinks : ∀ other ∈ nodes, passage.after.core.prevOf other = m.core.prevOf other ∧
      passage.after.core.nextOf other = m.core.nextOf other)
    (hready : ∀ other ∈ nodes,
      (passage.after.core.processes other).ready = (m.core.processes other).ready) :
    Slice nodes m passage.after := by
  simp only [pass, hcurrent] at hpass
  obtain ⟨value, hdispatch, hconclude⟩ := bind_eq_ok.mp hpass
  obtain rfl : m.conclude pid r value = passage := Except.ok.inj hconclude
  have hentered : ∀ {other : Pid}, other ≠ pid →
      (m.entered pid r).core.processes other = m.core.processes other := by
    intro other hother
    simp [entered, setCore, hother]
  have haloof : Core.Aloof none (m.entered pid r).core value.1.core := by
    have hfollows := aloof_dispatch (m := m.entered pid r) (r := r)
      ((Core.tame_modify m.core pid fun proc =>
        { proc with inSyscall := r.eax.toNat }).sized hsized) hcurrent hcall
    rw [Follows, hdispatch, ensures_ok] at hfollows
    exact hfollows
  obtain ⟨hres, hback⟩ := conclude_returns hreturns
  have hafter := after_over m r _ hback hres
  have hothers : ∀ {other : Pid}, other ≠ pid →
      (m.conclude pid r value).after.core.processes other = value.1.core.processes other := by
    intro other hother
    simp [hafter, hother]
  have htrapped : ∀ {other : Pid}, other ≠ pid →
      (value.1.core.processes other).savedRegs = (m.core.processes other).savedRegs ∧
        (value.1.core.processes other).inSyscall = (m.core.processes other).inSyscall := by
    intro other hother
    have htrapped := haloof other (by simp)
    rw [hentered hother] at htrapped
    simp only [Process.trapped, Prod.mk.injEq] at htrapped
    exact ⟨htrapped.1, htrapped.2.2.1⟩
  refine
    { current := ?_
      queue := hqueue
      links := hlinks
      ready := hready
      inSyscall := fun other _ => ?_
      savedRegs := fun other _ hother => ?_ }
  · rw [hafter, hcurrent]
    exact hback
  · by_cases hother : other = pid
    · subst hother
      rw [hafter, hidle]
      simp
    · rw [hothers hother]
      exact (htrapped hother).2
  · have hne : other ≠ pid := fun h => hother (h ▸ hcurrent)
    rw [hothers hne]
    exact (htrapped hne).1

/-! ## One switch -/

/-- From a process on the ready list, `context_switch` goes to the next one, or back to the
first, and restores what was saved for it. -/
theorem contextSwitch_next (hready : ReadyList nodes m.core) (hindex : index < nodes.length)
    (hcurrent : m.core.current = some nodes[index]) (depth : ℕ) (r : Regs) :
    ∃ next m', nodes[(index + 1) % nodes.length]? = some next ∧
      contextSwitch (depth + 1) m r = .ok (m', frameOf m.core r next) ∧
      m'.core.current = some next ∧ ReadyList nodes m'.core ∧
      m'.savedRegs = frameOf m.core r := by
  have hsaved : ∀ {A : Type} (field : Process → A),
      (∀ proc : Process, field { proc with savedRegs := r } = field proc) → ∀ pid,
        field ((m.saveRegs r).core.processes pid) = field (m.core.processes pid) :=
    fun field => field_saveRegs m r field
  have hqueue : (m.saveRegs r).core.queue = m.core.queue := by
    rw [saveRegs, hcurrent]
    rfl
  have hcurrent' : (m.saveRegs r).core.current = some nodes[index] := by
    rw [saveRegs, hcurrent]
    exact hcurrent
  obtain ⟨next, hnext⟩ : ∃ next, nodes[(index + 1) % nodes.length]? = some next :=
    ⟨_, List.getElem?_eq_getElem (Nat.mod_lt _ (by omega))⟩
  have hmem : next ∈ nodes := List.mem_of_getElem? hnext
  have hselect : (m.saveRegs r).core.selectNext = some next := by
    have hflag := (hsaved Process.ready (fun _ => rfl) nodes[index]).trans
      (hready.ready _ (List.getElem_mem hindex))
    have hlink := hsaved Process.next (fun _ => rfl) nodes[index]
    rw [← hnext, ← hready.linked.next_or_first hindex, Core.selectNext, hcurrent']
    simp only [hflag, if_true, hlink, hqueue, Core.nextOf]
    cases (m.core.processes nodes[index]).next <;> rfl
  have hidle := (hsaved Process.inSyscall (fun _ => rfl) next).trans (hready.idle next hmem)
  refine ⟨next, (m.saveRegs r).activate next, hnext, ?_, rfl, ?_, ?_⟩
  · rw [contextSwitch]
    simp only [hselect]
    have hidle' : ¬ (((m.saveRegs r).activate next).core.processes next).inSyscall ≠ 0 :=
      not_not.mpr hidle
    rw [if_neg hidle', savedRegs_saveRegs]
  · refine ⟨?_, fun pid hpid => ?_, fun pid hpid => ?_⟩
    · show IsList (m.saveRegs r).core.prevOf (m.saveRegs r).core.nextOf
        ((m.saveRegs r).core.queue .ready).first ((m.saveRegs r).core.queue .ready).last nodes
      rw [hqueue]
      exact isList_congr hready.linked (fun pid _ => hsaved Process.prev (fun _ => rfl) pid)
        fun pid _ => hsaved Process.next (fun _ => rfl) pid
    · exact (hsaved Process.ready (fun _ => rfl) pid).trans (hready.ready pid hpid)
    · exact (hsaved Process.inSyscall (fun _ => rfl) pid).trans (hready.idle pid hpid)
  · funext pid
    exact savedRegs_saveRegs m r pid

/-! ## A run of switches -/

theorem rotate_spec (depth : ℕ) {works : List Work}
    (hworks : ∀ work ∈ works, ∀ m, Slice nodes m (work m).1) : ∀ {m : Machine} {index : ℕ},
    ReadyList nodes m.core → (hindex : index < nodes.length) →
    m.core.current = some nodes[index] →
    ∃ m' turns, rotate (depth + 1) works m = .ok (m', turns) ∧
      m'.core.current = nodes[(index + works.length) % nodes.length]? ∧
      turns.map Turn.selected = (List.range works.length).map
        (fun turn => nodes[(index + 1 + turn) % nodes.length]?) ∧
      Faithful m.savedRegs turns := by
  induction works with
  | nil =>
      intro m index hready hindex hcurrent
      refine ⟨m, [], rfl, ?_, rfl, ?_⟩
      · rw [List.length_nil, Nat.add_zero, Nat.mod_eq_of_lt hindex, hcurrent,
          List.getElem?_eq_getElem hindex]
      · intro earlier turn later hturns
        simp at hturns
  | cons work works ih =>
      intro m index hready hindex hcurrent
      have hslice := hworks work List.mem_cons_self m
      have hready₁ := ReadyList.slice hready hslice
      obtain ⟨next, m₂, hnext, hswitch, hcurrent₂, hready₂, hsaved⟩ :=
        contextSwitch_next hready₁ hindex (hslice.current.trans hcurrent) depth (work m).2
      obtain ⟨hlt, hget⟩ := List.getElem?_eq_some_iff.mp hnext
      obtain ⟨m', turns, hrotate, hend, hselected, hfaithful⟩ :=
        ih (fun other hother => hworks other (List.mem_cons_of_mem _ hother)) hready₂ hlt
          (hcurrent₂.trans (congrArg some hget.symm))
      have hmod : ∀ count, ((index + 1) % nodes.length + count) % nodes.length =
          (index + 1 + count) % nodes.length := fun count => Nat.mod_add_mod _ _ _
      -- the process table holds the saved registers of everybody else
      have hbefore : ∀ pid ∈ nodes, frameOf (work m).1.core (work m).2 pid =
          if (work m).1.core.current = some pid then (work m).2 else m.savedRegs pid := by
        intro pid hpid
        rw [frameOf]
        split
        · rfl
        next hother =>
          rw [hslice.current] at hother
          exact hslice.savedRegs pid hpid hother
      refine ⟨m', ⟨(work m).1.core.current, (work m).2, some next,
        frameOf (work m).1.core (work m).2 next⟩ :: turns, ?_, ?_, ?_, ?_⟩
      · simp only [rotate, hswitch, ok_bind, hrotate, hcurrent₂, pure_eq_ok]
      · rw [hend, hmod, List.length_cons]
        congr 2
        omega
      · rw [List.map_cons, hselected, List.length_cons, List.range_succ_eq_map, List.map_cons,
          List.map_map, Nat.add_zero, hnext]
        congr 1
        apply List.map_congr_left
        intro turn _
        rw [Function.comp_apply, Nat.add_assoc, hmod]
        congr 2
        omega
      · intro earlier turn later hturns pid hpid
        cases earlier with
        | nil =>
            obtain ⟨rfl, -⟩ : _ = turn ∧ turns = later := by simpa using hturns
            obtain rfl : next = pid := Option.some_injective _ hpid
            exact hbefore next (List.mem_of_getElem? hnext)
        | cons first earlier =>
            obtain ⟨rfl, hturns'⟩ : _ = first ∧ turns = earlier ++ turn :: later := by
              simpa using hturns
            have hmem : pid ∈ nodes := by
              have hselectedMem : some pid ∈ turns.map Turn.selected := by
                rw [hturns', ← hpid]
                simp
              rw [hselected, List.mem_map] at hselectedMem
              obtain ⟨_, -, hget⟩ := hselectedMem
              exact List.mem_of_getElem? hget
            rw [hfaithful earlier turn later hturns' pid hpid, List.cons_append, lastSaved_cons,
              hsaved]
            exact lastSaved_congr (hbefore pid hmem) _

/-- As many timer interrupts as there are ready processes select each of them exactly once,
the interrupted one last, and give each of them what was saved for it. -/
theorem round_robin (hready : ReadyList nodes m.core) {start : Pid} (hstart : start ∈ nodes)
    (hcurrent : m.core.current = some start) (depth : ℕ) {works : List Work}
    (hlength : works.length = nodes.length)
    (hworks : ∀ work ∈ works, ∀ m, Slice nodes m (work m).1) :
    ∃ m' turns, rotate (depth + 1) works m = .ok (m', turns) ∧
      (turns.map Turn.selected).Perm (nodes.map some) ∧ m'.core.current = some start ∧
      Faithful m.savedRegs turns := by
  obtain ⟨index, hindex, rfl⟩ := List.mem_iff_getElem.mp hstart
  obtain ⟨m', turns, hrotate, hend, hselected, hfaithful⟩ :=
    rotate_spec depth hworks hready hindex hcurrent
  refine ⟨m', turns, hrotate, ?_, ?_, hfaithful⟩
  · have hturned : turns.map Turn.selected = (nodes.rotate (index + 1)).map some := by
      rw [hselected, hlength]
      apply List.ext_getElem
      · simp
      · intro turn _ _
        have hlt : (index + 1 + turn) % nodes.length < nodes.length :=
          Nat.mod_lt _ (Nat.zero_lt_of_lt hindex)
        simp only [List.getElem_map, List.getElem_range, List.getElem_rotate,
          List.getElem?_eq_getElem hlt, Nat.add_comm turn]
    rw [hturned]
    exact (List.rotate_perm nodes (index + 1)).map some
  · rw [hend, hlength, Nat.add_mod_right, Nat.mod_eq_of_lt hindex,
      List.getElem?_eq_getElem hindex]

/-- The second process of a machine after a fork spins, the first one counts in `eax`. -/
theorem round_robin_forked :
    ∃ m' turns, rotate 1 [fun m => (m, Regs.zero), fun m => (m, { Regs.zero with eax := 1 })]
        ((initial bare (fun _ => 0) fun _ _ => 0).setCore forkedCore) = .ok (m', turns) ∧
      (turns.map Turn.selected).Perm ([2, 1].map some) ∧ m'.core.current = some 1 ∧
      Faithful ((initial bare (fun _ => 0) fun _ _ => 0).setCore forkedCore).savedRegs turns := by
  have hlist : ReadyList [2, 1] forkedCore := by
    refine ⟨⟨by decide, rfl, rfl, ?_⟩, by decide, by decide⟩
    intro front node back hnodes
    rcases front with _ | ⟨first, _ | ⟨second, front⟩⟩
    · obtain ⟨rfl, rfl⟩ : 2 = node ∧ [1] = back := by simpa using hnodes
      exact ⟨rfl, rfl⟩
    · obtain ⟨rfl, rfl, rfl⟩ : 2 = first ∧ 1 = node ∧ back = [] := by simpa using hnodes
      exact ⟨rfl, rfl⟩
    · simp at hnodes
  have hslice : ∀ m : Machine, Slice [2, 1] m m := fun m =>
    ⟨rfl, rfl, fun _ _ => ⟨rfl, rfl⟩, fun _ _ => rfl, fun _ _ => rfl, fun _ _ _ => rfl⟩
  refine round_robin (m := (initial bare (fun _ => 0) fun _ _ => 0).setCore forkedCore) hlist
    (by decide) rfl 0 rfl ?_
  simp [hslice]

end Machine

end Rhythmos.Kernel
