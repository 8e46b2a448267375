import Rhythmos.Kernel.Restarts
import Rhythmos.Library.Histories

/-!
# Induction over what runs do

An invariant of the log and the machine holds in all states of a run if the things that a
machine can do preserve it: a process is selected, a call is executed, a process is started,
a byte is stored or typed, and the running process is killed.  `Inductive` lists these cases;
the nesting of `context_switch` and `syscall` and the induction on the run are dealt with here.
-/

namespace Rhythmos.Kernel.Machine

open Fallible Rhythmos.Kernel.Core ByteMemory Histories

variable {m m' : Machine} {r : Regs} {wait : Pid → Wait} {pid : Pid}
variable {log : List Activity}

/-- The running process enters the kernel, or its call is executed again. -/
structure Enters (permits : Machine → Event → Prop) (m : Machine) (r : Regs) (wait : Pid → Wait)
    (pid : Pid) : Prop where
  sane : Sane Policy.lax m r wait
  current : m.core.current = some pid
  live : m.core.isLive pid = true
  awake : wait pid = .awake
  cr3 : m.cr3 = some (m.spaces pid).pdir
  permitted : permits m (.trap r) ∨ Repeatable r.eax.toNat
  allowed : CallAllowed Policy.lax m pid r

/-- The invariant `inv` is preserved, and every execution of a call is `good`. -/
structure Inductive (permits : Machine → Event → Prop) (inv : List Activity → Machine → Prop)
    (good : List Activity → Passage → Prop) : Prop where
  safe : ∀ m event, permits m event → KillingSafely m event
  selects : ∀ {log m}, inv log m → ∀ r next,
    inv (log ++ [.switching m.core.current] ++ [.scheduled next]) ((m.saveRegs r).activate next)
  rests : ∀ {log m}, inv log m → ∀ r, inv (log ++ [.switching m.core.current])
    ((m.saveRegs r).setCore { (m.saveRegs r).core with current := none })
  passes : ∀ {log m r wait pid}, Enters permits m r wait pid → inv log m →
    Ensures anyFault ((m.entered pid r).dispatch pid r) fun value =>
      good log (m.conclude pid r value) ∧
        inv (log ++ [.passed (m.conclude pid r value)]) (m.conclude pid r value).after
  traps : ∀ {log m}, inv log m → ∀ pid r, inv (log ++ [.trapped pid r]) m
  starts : ∀ {log m wait}, Settled Policy.lax m wait → inv log m → ∀ address,
    Ensures anyFault (m.startProcess address) fun value =>
      inv (log ++ m.startLog (.startProcess address)) value.1
  connects : ∀ {log m}, inv log m → ∀ b,
    inv log (m.setCore { m.core with inputPipe := some b })
  stores : ∀ {log m wait}, Settled Policy.lax m wait → inv log m → ∀ pid,
    m.core.current = some pid → ∀ (address : Word) byte,
    inv log { m with pages := Paging.userStore m.pages (m.spaces pid).pdir address.toNat byte }
  types : ∀ {log m wait}, Settled Policy.lax m wait → inv log m → ∀ byte,
    Ensures anyFault (m.keyboardHandler byte) (inv log)
  kills : ∀ {log m wait pid}, Settled Policy.lax m wait → m.core.current = some pid →
    inv log m → Ensures anyFault (m.killProcess pid) (inv log)

section Rule

variable {permits : Machine → Event → Prop} {inv : List Activity → Machine → Prop}
variable {good : List Activity → Passage → Prop}

/-- The executions of calls in a log are good. -/
def Judged (good : List Activity → Passage → Prop) (earlier : List Activity) : Activity → Prop
  | .passed passage => good earlier passage
  | _ => True

theorem CallAllowed.of_safe (hsafe : KillingSafely m (.trap r))
    (hsettled : Settled Policy.lax m wait) (hcurrent : m.core.current = some pid) :
    CallAllowed Policy.lax m pid r :=
  (killingSafely_guarantees m wait (.trap r) hsettled hsafe).2 pid hcurrent

/-- An execution of `syscall`. -/
theorem Inductive.pass (hrule : Inductive permits inv good) (henters : Enters permits m r wait pid)
    (hinv : inv log m) :
    Ensures anyFault (m.pass r) fun passage => Passed Policy.lax m r pid passage ∧
      good log passage ∧ inv (log ++ [.passed passage]) passage.after := by
  have hpassed : Ensures anyFault (m.pass r) (Passed Policy.lax m r pid) :=
    ensures_mono (pass_spec henters.sane henters.current henters.live henters.awake henters.cr3
      (Policy.lax_permits r) henters.allowed) (fun _ _ => trivial) fun _ h => h
  have hgood : Ensures anyFault (m.pass r) fun passage =>
      good log passage ∧ inv (log ++ [.passed passage]) passage.after := by
    rw [Machine.pass, henters.current]
    exact ensures_bind (hrule.passes henters hinv) fun value hdone => ensures_ok.mpr hdone
  exact ensures_and hpassed hgood

/-- `context_switch` with everything that it calls. -/
theorem Inductive.contextSwitch (hrule : Inductive permits inv good) (depth : ℕ)
    (hleaving : Leaving Policy.lax m r wait) (hinv : inv log m) :
    Ensures anyFault (Machine.contextSwitch depth m r) fun result =>
      Throughout (Judged good) log (switchLog depth m r) ∧
        inv (log ++ switchLog depth m r) result.1 := by
  induction depth generalizing m r wait log with
  | zero => exact ensures_error.mpr trivial
  | succ depth ih =>
      rw [Machine.contextSwitch, switchLog]
      cases hnext : (m.saveRegs r).core.selectNext with
      | none =>
          exact ensures_ok.mpr ⟨throughout_cons trivial (throughout_nil _), hrule.rests hinv r⟩
      | some next =>
          obtain ⟨hsane, hlive, hawake, hpending⟩ := contextSwitch_cases hleaving hnext
          have hselected := hrule.selects hinv r next
          dsimp only
          by_cases hbusy : (((m.saveRegs r).activate next).core.processes next).inSyscall ≠ 0
          · rw [if_pos hbusy, if_pos hbusy, syscall_eq_pass, callLog]
            obtain ⟨hnumber, hrepeatable⟩ := hpending hbusy
            rw [← hnumber] at hrepeatable
            have henters : Enters permits ((m.saveRegs r).activate next)
                ((m.saveRegs r).core.processes next).savedRegs wait next :=
              ⟨hsane, rfl, hlive, hawake, rfl, .inr hrepeatable, .of_repeatable hrepeatable⟩
            have hpass := hrule.pass henters hselected
            cases hpassage : ((m.saveRegs r).activate next).pass
                ((m.saveRegs r).core.processes next).savedRegs with
            | error fault => exact ensures_error.mpr trivial
            | ok passage =>
                rw [hpassage, ensures_ok] at hpass
                obtain ⟨hpassed, hgood, hinv'⟩ := hpass
                have hstart : ∀ segment,
                    Throughout (Judged good) (log ++ [.switching m.core.current] ++
                      [.scheduled next] ++ [.passed passage]) segment →
                    Throughout (Judged good) log (.switching m.core.current :: .scheduled next ::
                      .passed passage :: segment) := fun segment hsegment =>
                  throughout_cons trivial (throughout_cons trivial (throughout_cons hgood hsegment))
                simp only [ok_bind]
                cases hswitches : passage.switches with
                | false =>
                    refine ensures_ok.mpr ⟨hstart [] (throughout_nil _), ?_⟩
                    simpa using hinv'
                | true =>
                    obtain ⟨wait', hleaving'⟩ := hpassed.switching hswitches
                    refine ensures_weaken (ih hleaving' hinv') fun result hdone => ?_
                    refine ⟨hstart _ hdone.1, ?_⟩
                    simpa using hdone.2
          · rw [if_neg hbusy, if_neg hbusy]
            refine ensures_ok.mpr ⟨throughout_cons trivial (throughout_cons trivial
              (throughout_nil _)), ?_⟩
            simpa using hselected

/-- Where the handling of an event gets before the outermost `context_switch`. -/
def Upheld (inv : List Activity → Machine → Prop) (log : List Activity) : Stop → Prop
  | .finished m => inv log m
  | .switching m r => (∃ wait, Leaving Policy.lax m r wait) ∧ inv log m

theorem Inductive.trap (hrule : Inductive permits inv good)
    (hsettled : Settled Policy.lax m wait) (hpermits : permits m (.trap r)) (hinv : inv log m) :
    Ensures anyFault (m.upToSwitch (.trap r)) fun stop =>
      Throughout (Judged good) log (m.startLog (.trap r)) ∧
        Upheld inv (log ++ m.startLog (.trap r)) stop := by
  rw [upToSwitch, startLog]
  cases hcurrent : m.core.current with
  | none =>
      rw [Machine.pass, hcurrent]
      exact ensures_error.mpr trivial
  | some pid =>
      have henters : Enters permits m r wait pid :=
        ⟨hsettled.sane r, hcurrent, hsettled.live pid hcurrent, hsettled.awake pid hcurrent,
          hsettled.cr3 pid hcurrent, .inl hpermits,
          .of_safe (hrule.safe m _ hpermits) hsettled hcurrent⟩
      have hpass := hrule.pass henters (hrule.traps hinv pid r)
      cases hpassage : m.pass r with
      | error fault => exact ensures_error.mpr trivial
      | ok passage =>
          rw [hpassage, ensures_ok] at hpass
          obtain ⟨hpassed, hgood, hinv'⟩ := hpass
          rw [List.append_assoc] at hinv'
          have hstop : Upheld inv (log ++ ([.trapped pid r] ++ [.passed passage]))
              (Passage.stop passage) := by
            rw [Passage.stop]
            split
            next hswitches => exact ⟨hpassed.switching hswitches, hinv'⟩
            next => exact hinv'
          exact ensures_ok.mpr ⟨throughout_cons trivial (throughout_cons hgood
            (throughout_nil _)), hstop⟩

theorem Inductive.exception (hrule : Inductive permits inv good)
    (hsettled : Settled Policy.lax m wait) (hinv : inv log m) (number : ℕ) :
    Ensures anyFault (m.upToSwitch (.exception number r)) (Upheld inv log) := by
  have hunhandled : Ensures anyFault (do
      let m ← m.unhandled number
      return Stop.finished m) (Upheld inv log) := by
    rw [unhandled]
    split
    · exact ensures_error.mpr trivial
    · exact ensures_ok.mpr hinv
  rw [upToSwitch]
  split
  next pid hcurrent =>
    split
    · refine ensures_bind (ensures_and (killRunning_spec hsettled hcurrent r)
        (hrule.kills hsettled hcurrent hinv)) fun m' hdone => ensures_ok.mpr ?_
      exact ⟨hdone.1.leaving, hdone.2⟩
    · exact hunhandled
  next => exact hunhandled

/-- The handling of an event up to the outermost `context_switch`. -/
theorem Inductive.upToSwitch (hrule : Inductive permits inv good)
    (hsettled : Settled Policy.lax m wait) {event : Event} (hpermits : permits m event)
    (hinv : inv log m) :
    Ensures anyFault (m.upToSwitch event) fun stop =>
      Throughout (Judged good) log (m.startLog event) ∧
        Upheld inv (log ++ m.startLog event) stop := by
  have hsilent : ∀ {stop : Stop}, Upheld inv log stop →
      Throughout (Judged good) log [] ∧ Upheld inv (log ++ []) stop := by
    intro stop hupheld
    rw [List.append_nil]
    exact ⟨throughout_nil log, hupheld⟩
  cases event with
  | startProcess startAddress =>
      refine ensures_bind (hrule.starts hsettled hinv startAddress) fun value hinv' =>
        ensures_ok.mpr ⟨?_, hinv'⟩
      rw [startLog]
      split
      · exact throughout_cons trivial (throughout_nil _)
      · exact throughout_nil _
  | userStore address byte =>
      have hstored : Ensures anyFault (m.upToSwitch (.userStore address byte))
          (Upheld inv log) := by
        rw [Machine.upToSwitch, handle]
        split
        next pid hcurrent =>
          exact ensures_ok.mpr (hrule.stores hsettled hinv pid hcurrent address byte)
        next => exact ensures_ok.mpr hinv
      exact ensures_weaken hstored fun _ => hsilent
  | timer r => exact ensures_ok.mpr (hsilent ⟨⟨wait, hsettled.leaving r⟩, hinv⟩)
  | keyboard byte r =>
      have htyped : Ensures anyFault (m.upToSwitch (.keyboard byte r)) (Upheld inv log) := by
        rw [Machine.upToSwitch]
        refine ensures_bind (ensures_and (hrule.types hsettled hinv byte)
          (ensures_mono (keyboardHandler_spec hsettled byte) (fun _ _ => trivial)
            fun _ h => h)) fun m' hdone => ensures_ok.mpr ?_
        obtain ⟨hinv', wait', hsettled'⟩ := hdone
        exact ⟨⟨wait', hsettled'.leaving r⟩, hinv'⟩
      exact ensures_weaken htyped fun _ => hsilent
  | trap r => exact hrule.trap hsettled hpermits hinv
  | exception number r =>
      exact ensures_weaken (hrule.exception hsettled hinv number) fun _ => hsilent

variable {image : Image} {phys : Memory} {junk : Block → Memory} {events : List Event}

theorem settled_initial (image : Image) (phys : Memory) (junk : Block → Memory) :
    ∃ wait, Settled Policy.lax (initial image phys junk) wait :=
  ⟨_, Settled.of_sane (sane_initial (Policy.lax_suits image) phys junk Regs.zero)
    (fun _ h => by cases h) (fun _ h => by cases h) (fun _ h => by cases h)
    fun _ h => by cases h⟩

theorem Inductive.kmain (hrule : Inductive permits inv good)
    (hinitial : inv [] (initial image phys junk)) :
    Ensures anyFault (Machine.kmain image phys junk)
      (inv ((initial image phys junk).startLog (.startProcess image.launchShell))) := by
  obtain ⟨wait, hsettled⟩ := settled_initial image phys junk
  exact ensures_kmain (hrule.starts hsettled hinitial image.launchShell) fun m b hinv =>
    hrule.connects hinv b

/-- The handling of an event. -/
theorem Inductive.handle (hrule : Inductive permits inv good)
    (hsettled : Settled Policy.lax m wait) {event : Event} (hpermits : permits m event)
    (hinv : inv log m) {depth : ℕ} (hhandle : Machine.handle depth m event = .ok m') :
    Throughout (Judged good) log (eventLog depth m event) ∧
      inv (log ++ eventLog depth m event) m' := by
  rw [handle_eq_proceed, bind_eq_ok] at hhandle
  obtain ⟨stop, hstop, hproceed⟩ := hhandle
  have hupTo := hrule.upToSwitch hsettled hpermits hinv
  rw [hstop, ensures_ok] at hupTo
  obtain ⟨hstarted, hupheld⟩ := hupTo
  rw [eventLog, hstop]
  dsimp only
  cases stop with
  | finished m₀ =>
      obtain rfl : m₀ = m' := by simpa [proceed] using hproceed
      simp only [Stop.log, List.append_nil]
      exact ⟨hstarted, hupheld⟩
  | switching m₀ r₀ =>
      obtain ⟨⟨wait₀, hleaving⟩, hinv₀⟩ := hupheld
      have hswitched := hrule.contextSwitch depth hleaving hinv₀
      rw [← List.append_assoc]
      simp only [proceed] at hproceed
      cases hswitch : Machine.contextSwitch depth m₀ r₀ with
      | error fault =>
          rw [hswitch] at hproceed
          cases hproceed
      | ok result =>
          rw [hswitch] at hproceed
          rw [hswitch, ensures_ok] at hswitched
          obtain rfl : result.1 = m' := by simpa using hproceed
          exact ⟨throughout_append hstarted hswitched.1, hswitched.2⟩

/-- In every state of a run the invariant holds, and all executions of calls so far were
good. -/
theorem Inductive.run (hrule : Inductive permits inv good)
    (hinitial : inv [] (initial image phys junk))
    (hlogged : Logged permits image phys junk events log m) :
    Throughout (Judged good) [] log ∧ inv log m := by
  induction hlogged with
  | @boot m hboot =>
      have hkmain := hrule.kmain hinitial
      rw [hboot, ensures_ok] at hkmain
      refine ⟨?_, hkmain⟩
      rw [startLog]
      split
      · exact throughout_cons trivial (throughout_nil _)
      · exact throughout_nil _
  | step depth hlogged hpermits hhandle ih =>
      obtain ⟨wait, hsettled⟩ := (Reachable.mono hrule.safe (Logged.reachable hlogged)).lax
      obtain ⟨hjudged, hinv⟩ := hrule.handle hsettled hpermits ih.2 hhandle
      exact ⟨throughout_append ih.1 hjudged, hinv⟩

end Rule

/-! ## Executions of calls -/

/-- A run goes on with a call that does not suspend its caller. -/
theorem Logged.returned {permits : Machine → Event → Prop} {image : Image} {phys : Memory}
    {junk : Block → Memory} {events : List Event} {value : Machine × Regs × Word}
    (hlogged : Logged permits image phys junk events log m) (hpermits : permits m (.trap r))
    (hcurrent : m.core.current = some pid)
    (hdispatch : (m.entered pid r).dispatch pid r = .ok value)
    (hstill : value.1.core.current = some pid) (hres : value.2.2 ≠ failure esuspend) :
    Logged permits image phys junk (events ++ [.trap r])
      (log ++ [.trapped pid r, .passed (m.conclude pid r value)])
      (m.conclude pid r value).after := by
  have hpass : m.pass r = .ok (m.conclude pid r value) := by
    rw [Machine.pass, hcurrent]
    simp only [hdispatch, ok_bind, pure_eq_ok]
  obtain ⟨hreturns, -⟩ := result_over m r _ hstill hres
  generalize m.conclude pid r value = passage at *
  have hhandle : Machine.handle 1 m (.trap r) = .ok passage.after := by
    rw [handle_eq_proceed, Machine.upToSwitch, hpass, ok_bind, pure_eq_ok, ok_bind, proceed_stop,
      hreturns]
    rfl
  have hevent : eventLog 1 m (.trap r) = [.trapped pid r, .passed passage] := by
    rw [eventLog, Machine.upToSwitch, hpass, ok_bind, startLog, hpass, hcurrent]
    simp [Passage.stop, hreturns, Stop.log]
  have hstepped := hlogged.step 1 hpermits hhandle
  rwa [hevent] at hstepped

/-! ## Parts of runs -/

/-- A run goes on from a state, with what the handling of the events does. -/
inductive Continues (permits : Machine → Event → Prop) (m : Machine) :
    List Activity → Machine → Prop
  | stay : Continues permits m [] m
  | step {log : List Activity} {m₁ m₂ : Machine} {event : Event} (depth : ℕ) :
      Continues permits m log m₁ → permits m₁ event → handle depth m₁ event = .ok m₂ →
      Continues permits m (log ++ eventLog depth m₁ event) m₂

theorem Continues.reachable {permits : Machine → Event → Prop} {image : Image} {phys : Memory}
    {junk : Block → Memory} (hcontinues : Continues permits m log m')
    (hreachable : Reachable permits image phys junk m) :
    Reachable permits image phys junk m' := by
  induction hcontinues with
  | stay => exact hreachable
  | step depth _ hpermits hhandle ih => exact .step depth ih hpermits hhandle

/-- More events give more continuations. -/
theorem Continues.mono {permits permits' : Machine → Event → Prop}
    (hmono : ∀ m event, permits m event → permits' m event)
    (hcontinues : Continues permits m log m') : Continues permits' m log m' := by
  induction hcontinues with
  | stay => exact .stay
  | step depth _ hpermits hhandle ih => exact ih.step depth (hmono _ _ hpermits) hhandle

/-- A run goes on from a state, also when the kernel overwrites data of its own. -/
inductive MayContinue (permits : Machine → Event → Prop) (m : Machine) :
    List Activity → Machine → Prop
  | stay : MayContinue permits m [] m
  | step {log : List Activity} {m₁ m₂ : Machine} {event : Event} (depth : ℕ) :
      MayContinue permits m log m₁ → permits m₁ event → handle depth m₁ event = .ok m₂ →
      MayContinue permits m (log ++ eventLog depth m₁ event) m₂
  | overwritten {log : List Activity} {m₁ : Machine} {event : Event} {fault : Fault} (depth : ℕ)
      (segment : List Activity) (m₂ : Machine) :
      MayContinue permits m log m₁ → permits m₁ event → handle depth m₁ event = .error fault →
      fault.Overwrites → MayContinue permits m (log ++ segment) m₂

/-- A careful run that goes on with safe kills overwrites nothing. -/
theorem MayContinue.careful {permits : Machine → Event → Prop} {image : Image} {phys : Memory}
    {junk : Block → Memory} (hsafely : ∀ m event, permits m event → KillingSafely m event)
    (hreachable : Reachable (Carefully permits) image phys junk m)
    (hcontinues : MayContinue (Carefully permits) m log m') :
    Continues (Carefully permits) m log m' := by
  induction hcontinues with
  | stay => exact .stay
  | step depth _ hpermits hhandle ih => exact ih.step depth hpermits hhandle
  | overwritten depth segment m₂ _ hpermits hfault hoverwrites ih =>
      have htolerable :=
        (ih.reachable hreachable).mayReach.tolerable hsafely hpermits hfault
      exact absurd hoverwrites (not_overwrites_of_tolerable htolerable)

end Rhythmos.Kernel.Machine
