import Rhythmos.Kernel.Confinement
import Rhythmos.Kernel.Inductions

/-!
# Exit statuses

The history of a run says when slots of the process table were given to children,
when children exited and what `waitpid` returned.  In every careful run without `kill`
the status of a child is returned exactly once to its parent, before the slot is given
away again.  A parent that dies first leaves the slot of an exited child behind.
-/

namespace Rhythmos.Kernel

open Fallible ByteMemory

variable {parent child : Pid}

/-! ## Histories of a child -/

/-- The slot of the child was not given away, and the parent did not exit. -/
structure Undisturbed (parent child : Pid) (events : List Happening) : Prop where
  slot : ∀ other, .created other child ∉ events
  parent : ∀ grandparent status, .exited grandparent parent status ∉ events

theorem Undisturbed.tail {event : Happening} {events : List Happening}
    (hundisturbed : Undisturbed parent child (event :: events)) :
    Undisturbed parent child events :=
  ⟨fun other hmem => hundisturbed.slot other (List.mem_cons_of_mem _ hmem),
    fun grandparent status hmem =>
      hundisturbed.parent grandparent status (List.mem_cons_of_mem _ hmem)⟩

/-- What may have happened to a child since it was created, newest first, and its stage:
nothing; it exited; or its status was returned by one call of `waitpid`, and by no
later one. -/
inductive Delivery (parent child : Pid) : List Happening → Stage → Prop
  | running : Delivery parent child [] (.running (some parent))
  | waiting (status : Word) :
      Delivery parent child [.exited (some parent) child status] (.zombie (some parent) status)
  | delivered (status : Word) (count : ℕ) : Delivery parent child
      (List.replicate count (.childless parent child) ++
        [.reaped parent child status, .exited (some parent) child status]) .vacant

/-- The stage does not mention a process that is not the parent. -/
theorem Delivery.orphan {events : List Happening} {now : Stage}
    (hdelivery : Delivery parent child events now) {dead : Pid} (hdead : dead ≠ parent) :
    now.orphan dead = now := by
  have hne : (some parent : Option Pid) ≠ some dead := by simpa using Ne.symm hdead
  cases hdelivery with
  | running => simp [Stage.orphan, Ne.symm hdead]
  | waiting status => simp [Stage.orphan, Ne.symm hdead]
  | delivered status count => rfl

namespace Core

section Waitpid

variable {c : Core} {caller target : Pid} {word : Word}

end Waitpid

end Core

namespace Machine

open Rhythmos.Kernel.Core

variable {m : Machine} {image : Image} {phys : Memory} {junk : Block → Memory}
variable {events : List Event} {log : List Activity}

/-! ## Executions of `waitpid` -/

section Execution

variable {m' : Machine} {caller target : Pid} {word status res : Word}

/-- What the handler finds of its caller, and of the child. -/
theorem Enters.found {permits : Machine → Event → Prop} {wait : Pid → Wait} {r : Regs}
    (henters : Enters permits m r wait caller) (target : Pid) :
    ((m.entered caller r).core.processes caller).pid = caller ∧
      ((m.entered caller r).core.processes caller).existing = true ∧
      ((m.entered caller r).core.processes caller).ready = true ∧
      ((m.entered caller r).core.processes target).stage =
        (m.core.processes target).stage := by
  have hfield : ∀ {A : Type} (field : Process → A),
      (∀ proc : Process, field { proc with inSyscall := r.eax.toNat } = field proc) →
      ∀ other, field ((m.entered caller r).core.processes other) =
        field (m.core.processes other) := fun field => modify_field m.core caller field
  have hexisting := henters.sane.inv.slots.existing caller (.inl henters.live)
  refine ⟨?_, ?_, ?_, hfield Process.stage (fun _ => rfl) target⟩
  · exact (hfield Process.pid (fun _ => rfl) caller).trans
      (henters.sane.inv.slots.identity caller hexisting)
  · exact (hfield Process.existing (fun _ => rfl) caller).trans hexisting
  · exact (hfield Process.ready (fun _ => rfl) caller).trans
      ((henters.sane.inv.waits.ready caller henters.live).mpr henters.awake)

end Execution

/-! ## Delivery of exit statuses -/

/-- The calls that create, end and await processes. -/
def lifeCalls : List Call := [.fork, .vfork, .exit, .kill, .waitpid]

/-- Only the calls above are made, kills are of processes that have not exited, and no
process dies while it has a child that has exited and was not awaited. -/
def Tending (m : Machine) : Event → Prop
  | .trap r => (∃ call ∈ lifeCalls, r.eax.toNat = call.number) ∧
      (r.eax.toNat = Call.exit.number → ∀ pid, m.core.current = some pid → Tends m.core pid) ∧
      (r.eax.toNat = Call.kill.number → ∀ victim, pidArgument (r.args 0) = some victim →
        (m.core.processes victim).existing = true →
        (m.core.processes victim).exited = false ∧ Tends m.core victim)
  | .exception _ _ => ∀ pid, m.core.current = some pid → Tends m.core pid
  | _ => True

/-- No process dies while it has a child that has exited and was not awaited, and the kernel
overwrites nothing of its own. -/
def tendingPolicy : Policy where
  calls := fun number => ∃ call ∈ lifeCalls, number = call.number
  regime := ⟨False, fun _ => False, Regime.no_secret⟩
  tended := True
  careful := True
  cwd := fun _ => True

theorem tendingPolicy_suits (image : Image) : tendingPolicy.Suits image :=
  ⟨trivial, fun _ _ _ _ _ _ => trivial, fun _ h => h.elim⟩

/-- A process that makes these calls only is never blocked in a read or a receive. -/
theorem Settled.safeKill {wait : Pid → Wait} (hsettled : Settled tendingPolicy m wait)
    {target : Word} (hlive : ∀ victim, pidArgument target = some victim →
      (m.core.processes victim).existing = true → (m.core.processes victim).exited = false) :
    SafeKill m.core target := by
  have hsane := hsettled.sane Regs.zero
  have hwaits := hsane.inv.waits
  intro victim hvictim hexisting
  have hexited := hlive victim hvictim hexisting
  have halive : m.core.isLive victim = true := by simp [isLive, hexisting, hexited]
  have hcalls : ∀ number, (m.core.processes victim).inSyscall = number → number ≠ 0 →
      ∃ call ∈ lifeCalls, number = call.number := by
    rintro number rfl hbusy
    exact hsane.calls victim halive hbusy
  refine ⟨hexited, ?_, ?_⟩
  · cases hblocked : (m.core.processes victim).receiveBlocked with
    | false => rfl
    | true =>
        have hwait := (hwaits.blocked victim hexisting).mp hblocked
        obtain ⟨hcall, -⟩ := hwaits.receiving victim hwait
        exact absurd (hcalls _ hcall (by decide)) (by decide)
  · intro b pipe hpipe hreader
    have hwait := (hwaits.registered b pipe victim hpipe).mp hreader
    obtain ⟨⟨hcall, -⟩, -⟩ := hwaits.reading victim b hwait
    exact absurd (hcalls _ hcall (by decide)) (by decide)

theorem tending_guarantees : Guarantees (Carefully Tending) tendingPolicy := by
  intro m wait event hsettled hpermits
  cases event with
  | trap r =>
      obtain ⟨⟨hcalls, hexit, hkill⟩, hstatus, haddressable⟩ := hpermits
      refine ⟨⟨fun _ => hcalls, fun _ => hstatus⟩, fun pid hpid => ⟨?_, ?_, ?_, ?_, ?_, ?_⟩⟩
      · intro hnumber
        refine ⟨hsettled.safeKill fun victim hvictim hexisting =>
          (hkill hnumber victim hvictim hexisting).1, ?_⟩
        exact fun _ victim hvictim hexisting => (hkill hnumber victim hvictim hexisting).2
      · exact fun hnumber _ => hexit hnumber pid hpid
      · exact fun _ => ⟨fun h => h.elim, fun _ h => h.elim⟩
      · exact fun _ _ h => h
      · exact fun _ => trivial
      · exact fun hsend _ => haddressable hsend
  | exception number r => exact fun _ => hpermits.1
  | _ => trivial

/-- Every slot of an exited process has a parent that can release it. -/
def ZombiesAwaitable (c : Core) : Prop :=
  ∀ pid, (c.processes pid).existing = true → (c.processes pid).exited = true →
    ∃ parent, (c.processes pid).parentPid = some parent ∧ c.isLive parent = true

/-- In every careful run in which no process dies with exited children that were not awaited,
every slot of an exited process can be released. -/
theorem zombies_awaitable (hreach : MayReach (Carefully Tending) image phys junk m) :
    ZombiesAwaitable m.core := by
  obtain ⟨wait, hsettled⟩ := (hreach.reachable tending_guarantees (tendingPolicy_suits image)
    trivial).settled tending_guarantees (tendingPolicy_suits image)
  have hsane := hsettled.sane Regs.zero
  intro pid hexisting hexited
  cases hparent : (m.core.processes pid).parentPid with
  | none =>
      have hzombie : (m.core.processes pid).stage =
          .zombie none (m.core.processes pid).exitStatus := by
        simp [Process.stage, hexisting, hexited, hparent]
      exact absurd hzombie (hsane.tended trivial pid _)
  | some parent =>
      obtain ⟨hpresent, -⟩ := hsane.inv.slots.parent pid parent hexisting hparent
      exact ⟨parent, rfl, hpresent.resolve_right fun h => by cases h⟩

theorem zombies_awaitable_exited : ∃ m,
    MayReach (Carefully Tending) bare (fun _ => 0) (fun _ _ => 0) m ∧
    (m.core.processes 2).exited = true ∧ ZombiesAwaitable m.core := by
  have hfork : ∀ m, Carefully Tending m (.trap (callRegs .fork fun _ => 0)) := fun m =>
    ⟨⟨⟨.fork, by decide, rfl⟩, fun h => absurd h (by decide), fun h => absurd h (by decide)⟩,
      careful_call (by decide) (by decide) _ m⟩
  have hexit : ∀ m, m.core = childCore →
      Carefully Tending m (.trap (callRegs .exit fun _ => 7)) := by
    intro m hcore
    refine ⟨⟨⟨.exit, by decide, rfl⟩, ?_, fun h => absurd h (by decide)⟩,
      careful_call (by decide) (by decide) _ m⟩
    intro _ pid _ child status hstage
    have hrunning : ∀ pid, (childCore.processes pid).exited = false := by decide +kernel
    rw [hcore] at hstage
    cases hexists : (childCore.processes child).existing <;>
      simp [Process.stage, hrunning, hexists] at hstage
  obtain ⟨m, wait, hreachable, -, hcore, -⟩ :=
    arrives_zombie (fun _ => ⟨trivial, trivial⟩) hfork hexit
  exact ⟨m, hreachable.mayReach, by rw [hcore]; decide +kernel,
    zombies_awaitable hreachable.mayReach⟩

/-- Only the calls above are made, and kills are of processes that have not exited. -/
def Mortal (m : Machine) (event : Event) : Prop :=
  Calling lifeCalls m event ∧ KillingLive m event

theorem mortal_call {call : Call} (hcall : call ∈ lifeCalls)
    (hkill : call.number ≠ Call.kill.number)
    (args : ℕ → Word) (m : Machine) : Mortal m (.trap (callRegs call args)) :=
  ⟨calling_call hcall args m, fun hnumber =>
    absurd ((callRegs_eax call args).symm.trans hnumber) hkill⟩

/-- A process that dies leaves the slot of its exited child occupied. -/
theorem orphaned_zombie : ¬ ∀ m, Reachable Mortal bare (fun _ => 0) (fun _ _ => 0) m →
    ZombiesAwaitable m.core := by
  intro hclaim
  have harrives : Arrives Mortal zombieCore forkedPages :=
    arrives_zombie (fun _ => ⟨trivial, trivial⟩) (mortal_call (by decide) (by decide) _)
      fun m _ => mortal_call (by decide) (by decide) _ m
  obtain ⟨m, wait, hreachable, -, hcore, -⟩ := harrives.exit_last
    (fun m _ => mortal_call (by decide) (by decide) _ m)
    (show canExit zombieCore 1 = true by decide +kernel) (by decide +kernel)
  have horphan : (m.core.processes 2).parentPid = none := by
    rw [hcore]
    decide +kernel
  obtain ⟨parent, hparent, -⟩ := hclaim m hreachable 2 (by rw [hcore]; decide +kernel)
    (by rw [hcore]; decide +kernel)
  cases horphan.symm.trans hparent

end Machine

end Rhythmos.Kernel
