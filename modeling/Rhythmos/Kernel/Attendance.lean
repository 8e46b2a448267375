import Rhythmos.Kernel.Switching

/-!
# Reads through the pointer to the current process

`context_switch` reads `current_process->ready` without a check.  The pointer is null from
`kmain` up to the first switch, while the machine is idle, and after the running process
has exited, was killed by itself or by a page fault.
-/

namespace Rhythmos.Kernel

open Fallible ByteMemory Libc

namespace Machine

open Rhythmos.Kernel.Core

variable {policy : Policy} {m : Machine} {r : Regs} {wait : Pid → Wait} {pid : Pid}

/-! ## The current process after a passage -/

theorem current_storeErrno (m : Machine) (callNo : ℕ) (res : Word) :
    (m.storeErrno callNo res).1.core.current = m.core.current := by
  rw [storeErrno]
  split
  · rfl
  · split
    · rfl
    · split <;> rfl

theorem current_conclude (m : Machine) (pid : Pid) (r : Regs) (value : Machine × Regs × Word) :
    (m.conclude pid r value).after.core.current = value.1.core.current := by
  have hstored := current_storeErrno value.1 r.eax.toNat value.2.2
  simp only [conclude]
  split
  · exact hstored
  · exact hstored

/-- A call other than `exit` and `kill` leaves its caller current. -/
theorem pass_resumes (hsane : Sane policy m r wait) (hcurrent : m.core.current = some pid)
    (hlive : m.core.isLive pid = true) (hawake : wait pid = .awake)
    (hcr3 : m.cr3 = some (m.spaces pid).pdir)
    (hpermits : policy.Permits r)
    (hallowed : CallAllowed policy m pid r) (hexit : r.eax.toNat ≠ Call.exit.number)
    (hkill : r.eax.toNat ≠ Call.kill.number) :
    Ensures policy.Tolerates (m.pass r) fun passage =>
      Passed policy m r pid passage ∧ passage.after.core.current = some pid := by
  rw [pass, hcurrent]
  have hentered := hsane.enter hcurrent hlive hawake hcr3 hpermits
  refine ensures_bind (dispatch_resumes hentered (hallowed.enter r.eax.toNat) hexit hkill) ?_
  intro value hresumes
  refine ensures_ok.mpr ⟨conclude_spec (.inl hresumes), ?_⟩
  obtain ⟨-, -, hstays, -⟩ := hresumes
  exact (current_conclude m pid r value).trans hstays

theorem repeatable_ne {number : ℕ} (hrepeatable : Repeatable number) :
    number ≠ Call.exit.number ∧ number ≠ Call.kill.number := by
  simp only [Repeatable, List.mem_cons, List.not_mem_nil, or_false, Call.number] at hrepeatable
  simp only [Call.number]
  omega

/-- A switch that starts with a current process never reads through a null pointer: the
calls that are repeated leave their caller current. -/
theorem Leaving.attended (depth : ℕ) (hleaving : Leaving policy m r wait)
    (hcurrent : m.core.current ≠ none) : .switching none ∉ switchLog depth m r := by
  induction depth generalizing m r wait with
  | zero => exact List.not_mem_nil
  | succ depth ih =>
      rw [switchLog]
      refine List.not_mem_cons_of_ne_of_not_mem
        (fun h => hcurrent (Activity.switching.inj h).symm) ?_
      split
      next next hnext =>
        obtain ⟨hsane, hlive, hawake, hpending⟩ := contextSwitch_cases hleaving hnext
        refine List.not_mem_cons_of_ne_of_not_mem (by simp) ?_
        split
        next hbusy =>
          obtain ⟨hnumber, hrepeatable⟩ := hpending hbusy
          rw [← hnumber] at hrepeatable
          obtain ⟨hexit, hkill⟩ := repeatable_ne hrepeatable
          have hpass := pass_resumes hsane rfl hlive hawake rfl
            (hsane.permits rfl hlive hnumber hbusy)
            (CallAllowed.of_repeatable hrepeatable) hexit hkill
          rw [callLog]
          split
          · exact List.not_mem_nil
          next passage hpassage =>
            rw [hpassage, ensures_ok] at hpass
            obtain ⟨hpassed, hstays⟩ := hpass
            refine List.not_mem_cons_of_ne_of_not_mem (by simp) ?_
            split
            next hswitches =>
              obtain ⟨wait', hleaving'⟩ := hpassed.switching hswitches
              exact ih hleaving' (by rw [hstays]; simp)
            · exact List.not_mem_nil
        · exact List.not_mem_nil
      next => exact List.not_mem_nil

theorem Leaving.attended_iff {depth : ℕ} (hdepth : depth ≠ 0) (hleaving : Leaving policy m r wait) :
    .switching none ∉ switchLog depth m r ↔ m.core.current ≠ none := by
  refine ⟨?_, hleaving.attended depth⟩
  intro hlog hnone
  obtain ⟨depth, rfl⟩ := Nat.exists_eq_succ_of_ne_zero hdepth
  rw [switchLog, hnone] at hlog
  exact hlog (List.mem_cons_self ..)

/-! ## Steps -/

/-- The switch that an event makes starts with a current process. -/
def Attended (m : Machine) : Event → Prop
  | .timer _ => m.core.current ≠ none
  | .keyboard _ _ => m.core.current ≠ none
  | .trap r => r.eax.toNat ≠ Call.exit.number ∧
      (r.eax.toNat = Call.kill.number → pidArgument (r.args 0) ≠ m.core.current)
  | .exception number _ => number = 14 → m.core.current = none
  | _ => True

theorem current_keyboardHandler (hsettled : Settled policy m wait) (byte : UInt8) :
    Ensures Harmless (m.keyboardHandler byte) fun m' => m'.core.current = m.core.current := by
  rw [keyboardHandler]
  split
  next b hinput =>
    split
    · have hsane := hsettled.sane Regs.zero
      obtain ⟨⟨pipe, hpipe, -⟩, -⟩ := hsane.inv.pipes.input b hinput
      refine ensures_bind (writeToPipe_spec hsane.inv hpipe [byte]) fun core hwritten => ?_
      exact ensures_ok.mpr hwritten.2.steady.current
    · exact ensures_ok.mpr rfl
  next => exact ensures_ok.mpr rfl

/-- A call that ends the life of its caller leaves no process current. -/
theorem Returns.gone {res : Word} (hreturns : Returns policy m r pid res)
    (hdead : m.core.isLive pid = false) : m.core.current = none := by
  rcases hreturns with ⟨-, -, -, hlive, -⟩ | ⟨-, hnone, -⟩
  · cases hdead.symm.trans hlive
  · exact hnone

theorem Settled.identity (hsettled : Settled policy m wait)
    (hlive : m.core.isLive pid = true) : (m.core.processes pid).pid = pid := by
  apply (hsettled.sane Regs.zero).inv.slots.identity pid
  simp only [isLive, Bool.and_eq_true] at hlive
  exact hlive.1

theorem gone_exit (hexit : r.eax.toNat = Call.exit.number) :
    Ensures anyFault (m.dispatch pid r) fun value => value.1.core.isLive pid = false := by
  rw [dispatch, hexit]
  refine ensures_bind (aloof_syscallExit m pid _) fun value hdead => ?_
  exact ensures_ok.mpr hdead.2.1

theorem gone_kill (hkill : r.eax.toNat = Call.kill.number) (hlive : m.core.isLive pid = true)
    (hself : pidArgument (r.args 0) = some pid) :
    Ensures anyFault (m.dispatch pid r) fun value => value.1.core.isLive pid = false := by
  have hexisting : (m.core.processes pid).existing = true := by
    simp only [isLive, Bool.and_eq_true] at hlive
    exact hlive.1
  rw [dispatch, hkill]
  refine ensures_bind (?_ : Ensures anyFault _ fun value => value.1.core.isLive pid = false)
    fun value hdead => ensures_ok.mpr hdead
  simp only [syscallKill, hself, hexisting, Bool.not_true, Bool.false_eq_true, if_false]
  refine ensures_bind (aloof_killProcess m pid) fun m' hdead => ?_
  exact ensures_ok.mpr hdead.2

/-- A call `kill` for another process reports that it is over. -/
theorem over_kill (hkill : r.eax.toNat = Call.kill.number)
    (hidentity : (m.core.processes pid).pid = pid) (hother : pidArgument (r.args 0) ≠ some pid) :
    Ensures anyFault (m.dispatch pid r) fun value => value.2.2 ≠ failure esuspend := by
  have hsearch : failure esrch ≠ failure esuspend := by decide
  rw [dispatch, hkill]
  refine ensures_bind (?_ : Ensures anyFault _ fun value => value.2 ≠ failure esuspend)
    fun value hover => ensures_ok.mpr hover
  rw [syscallKill]
  split
  · exact ensures_ok.mpr hsearch
  next victim hvictim =>
    split
    · exact ensures_ok.mpr hsearch
    · refine ensures_bind (ensures_any _) fun m' _ => ensures_ok.mpr ?_
      have hne : victim ≠ (m.core.processes pid).pid := by
        rw [hidentity]
        rintro rfl
        exact hother hvictim
      rw [if_neg hne]
      exact zero_ne

/-- After a system call a process is current unless the call ended the life of its
caller. -/
theorem attended_trap (hsettled : Settled Policy.lax m wait) (hcurrent : m.core.current = some pid)
    (hsafe : KillingSafely m (.trap r)) :
    Ensures anyFault (m.pass r) fun passage => Passed Policy.lax m r pid passage ∧
      (passage.after.core.current ≠ none ↔ Attended m (.trap r)) := by
  have hallowed := killingSafely_guarantees m wait (.trap r) hsettled hsafe
  have hlive := hsettled.live pid hcurrent
  have hsane := hsettled.sane r
  have hawake := hsettled.awake pid hcurrent
  have hcr3 := hsettled.cr3 pid hcurrent
  have hentered := hsane.enter hcurrent hlive hawake hcr3 hallowed.1
  rw [pass, hcurrent]
  have hspec := ensures_mono (dispatch_spec hentered ((hallowed.2 pid hcurrent).enter r.eax.toNat))
    (fun _ _ => trivial : ∀ fault, _ → anyFault fault) fun _ h => h
  have hentry : (m.entered pid r).core.isLive pid = true := hentered.live
  by_cases hexit : r.eax.toNat = Call.exit.number
  · refine ensures_bind (ensures_and hspec (gone_exit hexit)) fun value hdone => ?_
    obtain ⟨hreturns, hdead⟩ := hdone
    refine ensures_ok.mpr ⟨conclude_spec hreturns, ?_⟩
    rw [current_conclude, hreturns.gone hdead]
    simp [Attended, hexit]
  · by_cases hkill : r.eax.toNat = Call.kill.number
    · by_cases hself : pidArgument (r.args 0) = some pid
      · refine ensures_bind (ensures_and hspec (gone_kill hkill hentry hself)) fun value hdone => ?_
        obtain ⟨hreturns, hdead⟩ := hdone
        refine ensures_ok.mpr ⟨conclude_spec hreturns, ?_⟩
        rw [current_conclude, hreturns.gone hdead]
        simp [Attended, hkill, hself, hcurrent]
      · have hidentity : ((m.entered pid r).core.processes pid).pid = pid := by
          simpa [entered, setCore] using hsettled.identity hlive
        refine ensures_bind (ensures_and hspec (over_kill hkill hidentity hself))
          fun value hdone => ?_
        obtain ⟨hreturns, hover⟩ := hdone
        refine ensures_ok.mpr ⟨conclude_spec hreturns, ?_⟩
        have hstays : value.1.core.current = some pid := (hreturns.settled hover).1
        rw [current_conclude, hstays]
        simp [Attended, hkill, hself, hcurrent, Call.number]
    · have hresumes := ensures_mono (dispatch_resumes hentered
        ((hallowed.2 pid hcurrent).enter r.eax.toNat) hexit hkill)
        (fun _ _ => trivial : ∀ fault, _ → anyFault fault) fun _ h => h
      refine ensures_bind hresumes fun value hresumed => ?_
      refine ensures_ok.mpr ⟨conclude_spec (.inl hresumed), ?_⟩
      obtain ⟨-, -, hstays, -⟩ := hresumed
      rw [current_conclude, hstays]
      simp [Attended, hexit, hkill]

/-- Where the handling of an event gets: if it switches, then with a current process
exactly when the event is attended. -/
def Stops (m : Machine) (event : Event) : Stop → Prop
  | .finished _ => Attended m event
  | .switching m₀ r₀ => (∃ wait, Leaving Policy.lax m₀ r₀ wait) ∧
      (m₀.core.current ≠ none ↔ Attended m event)

theorem stops_trap (hsettled : Settled Policy.lax m wait) (hsafe : KillingSafely m (.trap r)) :
    Ensures anyFault (m.upToSwitch (.trap r)) (Stops m (.trap r)) := by
  rw [upToSwitch]
  cases hcurrent : m.core.current with
  | none =>
      rw [pass, hcurrent]
      exact ensures_error.mpr trivial
  | some pid =>
      refine ensures_bind (attended_trap hsettled hcurrent hsafe) fun passage hdone => ?_
      obtain ⟨hpassed, hiff⟩ := hdone
      refine ensures_ok.mpr ?_
      rw [Passage.stop]
      split
      next hswitches => exact ⟨hpassed.switching hswitches, hiff⟩
      next hswitches =>
        obtain ⟨hstays, -⟩ := hpassed.returning (by simpa using hswitches)
        refine hiff.mp ?_
        rw [hstays]
        simp

theorem stops_keyboard (hsettled : Settled Policy.lax m wait) (byte : UInt8) :
    Ensures anyFault (m.upToSwitch (.keyboard byte r)) (Stops m (.keyboard byte r)) := by
  rw [upToSwitch]
  have hspec := ensures_mono (ensures_and (keyboardHandler_spec hsettled byte)
    (current_keyboardHandler hsettled byte)) (fun _ _ => trivial : ∀ fault, _ → anyFault fault)
    fun _ h => h
  refine ensures_bind hspec fun m₀ hdone => ?_
  obtain ⟨⟨wait₀, hsettled₀⟩, hcurrent₀⟩ := hdone
  refine ensures_ok.mpr ⟨⟨wait₀, hsettled₀.leaving r⟩, ?_⟩
  rw [hcurrent₀]
  rfl

theorem stops_exception (hsettled : Settled Policy.lax m wait) (number : ℕ) :
    Ensures anyFault (m.upToSwitch (.exception number r)) (Stops m (.exception number r)) := by
  rw [upToSwitch]
  cases hcurrent : m.core.current with
  | none =>
      refine ensures_bind (ensures_any _) fun m₀ _ => ensures_ok.mpr ?_
      exact fun _ => hcurrent
  | some pid =>
      have hlive := hsettled.live pid hcurrent
      have hawake := hsettled.awake pid hcurrent
      simp only [hsettled.idle pid hcurrent, and_true]
      split
      next hfault =>
        have hkill := killProcess_spec (hsettled.sane r) hcurrent hlive hawake
          (killable_of_awake hlive hawake) fun h => h.elim
        refine ensures_bind (ensures_mono hkill (fun _ _ => trivial) fun _ h => h) ?_
        rintro m₀ ⟨wait₀, hsane₀, ⟨-, hnone⟩ | ⟨hne, -⟩⟩
        · refine ensures_ok.mpr ⟨⟨wait₀, hsane₀, fun _ h => (by cases hnone.symm.trans h),
            fun _ h => (by cases hnone.symm.trans h)⟩, ?_⟩
          rw [hnone]
          simp [Attended, hfault, hcurrent]
        · exact absurd rfl hne
      next hfault =>
        refine ensures_bind (ensures_any _) fun m₀ _ => ensures_ok.mpr ?_
        exact fun h => absurd h hfault

theorem upToSwitch_spec (hsettled : Settled Policy.lax m wait) {event : Event}
    (hsafe : KillingSafely m event) : Ensures anyFault (m.upToSwitch event) (Stops m event) := by
  cases event with
  | startProcess startAddress =>
      exact ensures_bind (ensures_any _) fun _ _ => ensures_ok.mpr trivial
  | userStore address byte =>
      exact ensures_bind (ensures_any _) fun _ _ => ensures_ok.mpr trivial
  | timer r => exact ensures_ok.mpr ⟨⟨wait, hsettled.leaving r⟩, Iff.rfl⟩
  | keyboard byte r => exact stops_keyboard hsettled byte
  | trap r => exact stops_trap hsettled hsafe
  | exception number r => exact stops_exception hsettled number

/-- Only a switch reads through the pointer. -/
theorem attended_startLog (m : Machine) (event : Event) :
    .switching none ∉ m.startLog event := by
  cases event with
  | startProcess startAddress =>
      simp only [startLog]
      split <;> simp
  | trap r =>
      simp only [startLog]
      split <;> simp
  | _ => exact List.not_mem_nil

/-- A step reads through a null pointer exactly when it switches with no process
current. -/
theorem Settled.attended_iff {m' : Machine} {event : Event} {depth : ℕ}
    (hsettled : Settled Policy.lax m wait) (hsafe : KillingSafely m event)
    (hhandle : handle depth m event = .ok m') :
    .switching none ∉ eventLog depth m event ↔ Attended m event := by
  rw [handle_eq_proceed, bind_eq_ok] at hhandle
  obtain ⟨stop, hstop, hproceed⟩ := hhandle
  have hspec := upToSwitch_spec hsettled hsafe
  rw [hstop, ensures_ok] at hspec
  simp only [eventLog, hstop, List.mem_append, attended_startLog, false_or]
  cases stop with
  | finished m₀ => exact iff_of_true List.not_mem_nil hspec
  | switching m₀ r₀ =>
      obtain ⟨⟨wait₀, hleaving⟩, hiff⟩ := hspec
      refine (hleaving.attended_iff ?_).trans hiff
      rintro rfl
      cases hproceed

/-! ## Runs -/

variable {image : Image} {phys : Memory} {junk : Block → Memory}

/-- The interrupts of the hardware that switch. -/
def Interrupts : Event → Prop
  | .timer _ => True
  | .keyboard _ _ => True
  | _ => False

theorem current_kmain (image : Image) (phys : Memory) (junk : Block → Memory) :
    Ensures anyFault (kmain image phys junk) fun m => m.core.current = none := by
  have hlive : ∀ pid, (initial image phys junk).core.current = some pid →
      (initial image phys junk).core.isLive pid = true := fun _ h => by cases h
  have hspec := startProcess_spec (sane_initial (Policy.lax_suits image) phys junk Regs.zero)
    hlive image.launchShell
  exact ensures_kmain (ensures_mono hspec (fun _ _ => trivial) fun _ hstarted => hstarted.2.1)
    fun _ _ hcurrent => hcurrent

theorem handle_trap_idle (depth : ℕ) (hnone : m.core.current = none) :
    handle depth m (.trap r) = .error (.assertion .syscall) := by
  rw [handle, syscall, hnone]
  rfl

/-- Without a current process, no event but an interrupt makes one current. -/
theorem Settled.still {m' : Machine} {event : Event} {depth : ℕ}
    (hsettled : Settled Policy.lax m wait) (hnone : m.core.current = none)
    (hquiet : ¬ Interrupts event) (hhandle : handle depth m event = .ok m') :
    m'.core.current = none ∧ KillingSafely m event := by
  cases event with
  | startProcess startAddress =>
      refine ⟨?_, trivial⟩
      have hstart := startProcess_spec (hsettled.sane Regs.zero) hsettled.live startAddress
      have hspec : Ensures Policy.lax.Tolerates
          (Prod.fst <$> m.startProcess startAddress)
          fun m' => m'.core.current = m.core.current :=
        ensures_fst (ensures_weaken hstart fun _ hstarted => hstarted.2.1)
      rw [handle] at hhandle
      rw [hhandle, ensures_ok] at hspec
      exact hspec.trans hnone
  | userStore address byte =>
      rw [handle, hnone] at hhandle
      obtain rfl : m = m' := by simpa using hhandle
      exact ⟨hnone, trivial⟩
  | timer r => exact absurd trivial hquiet
  | keyboard byte r => exact absurd trivial hquiet
  | trap r => cases (handle_trap_idle depth hnone).symm.trans hhandle
  | exception number r =>
      refine ⟨?_, trivial⟩
      rw [handle, hnone] at hhandle
      simp only [unhandled] at hhandle
      split at hhandle
      · cases hhandle
      · obtain rfl : m = m' := by simpa using hhandle
        exact hnone

theorem Logged.still {events : List Event} {log : List Activity}
    (hlogged : Logged (fun _ _ => True) image phys junk events log m)
    (hquiet : ∀ event ∈ events, ¬ Interrupts event) :
    m.core.current = none ∧ Reachable KillingSafely image phys junk m := by
  induction hlogged with
  | boot hboot =>
      have hcurrent := current_kmain image phys junk
      rw [hboot, ensures_ok] at hcurrent
      exact ⟨hcurrent, .boot hboot⟩
  | @step events log m m' event depth _ _ hhandle ih =>
      obtain ⟨hnone, hreachable⟩ := ih fun event hevent => hquiet event (by simp [hevent])
      obtain ⟨wait, hsettled⟩ := hreachable.lax
      obtain ⟨hnone', hsafe⟩ := hsettled.still hnone (hquiet event (by simp)) hhandle
      exact ⟨hnone', .step depth hreachable hsafe hhandle⟩

/-- Up to the first interrupt no process is current, so that interrupt reads through a null
pointer. -/
theorem Logged.attended_iff {events : List Event} {log : List Activity}
    (hlogged : Logged (fun _ _ => True) image phys junk events log m) :
    .switching none ∉ log ↔ ∀ event ∈ events, ¬ Interrupts event := by
  induction hlogged with
  | boot hboot => exact iff_of_true (attended_startLog _ _) fun _ h => by cases h
  | @step events log m m' event depth hlogged _ hhandle ih =>
      simp only [List.mem_append, not_or, List.mem_singleton, or_imp, forall_and, forall_eq]
      by_cases hquiet : ∀ event ∈ events, ¬ Interrupts event
      · obtain ⟨hnone, hreachable⟩ := hlogged.still hquiet
        obtain ⟨wait, hsettled⟩ := hreachable.lax
        have hsafe : KillingSafely m event := by
          cases event with
          | trap r => cases (handle_trap_idle depth hnone).symm.trans hhandle
          | _ => trivial
        refine and_congr ih ((hsettled.attended_iff hsafe hhandle).trans ?_)
        cases event with
        | timer r => exact iff_of_false (fun h => h hnone) fun h => h trivial
        | keyboard byte r => exact iff_of_false (fun h => h hnone) fun h => h trivial
        | trap r => cases (handle_trap_idle depth hnone).symm.trans hhandle
        | startProcess startAddress => exact iff_of_true trivial id
        | userStore address byte => exact iff_of_true trivial id
        | exception number r => exact iff_of_true (fun _ => hnone) id
      · exact iff_of_false (fun h => hquiet (ih.mp h.1)) fun h => hquiet h.1

end Machine

end Rhythmos.Kernel
