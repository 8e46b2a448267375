import Rhythmos.Kernel.Runs

/-!
# Events and reachable states

Every event that a policy allows leads from a settled state to a settled state,
and `kmain` ends in one.  `Reachable` is the set of states of all runs whose
events meet a condition; where the condition implies a policy, every reachable
state is settled.
-/

namespace Rhythmos.Kernel

open Fallible ByteMemory Libc Paging

variable {policy : Policy} {m : Machine} {r : Regs} {wait : Pid → Wait} {pid : Pid}

namespace Machine

open Rhythmos.Kernel.Core

/-! ## Events -/

/-- An event follows the policy. -/
def Allowed (policy : Policy) (m : Machine) : Event → Prop
  | .trap r => policy.Permits r ∧ ∀ pid, m.core.current = some pid → CallAllowed policy m pid r
  | .exception _ _ => policy.tended → ∀ pid, m.core.current = some pid → Tends m.core pid
  | _ => True

theorem ensures_fst {A : Type} {allowed : Fault → Prop} {outcome : Except Fault (Machine × A)}
    {post : Machine → Prop} (houtcome : Ensures allowed outcome fun result => post result.1) :
    Ensures allowed (Prod.fst <$> outcome) post := by
  cases outcome with
  | error fault => exact ensures_error.mpr (ensures_error.mp houtcome)
  | ok result =>
      rw [ensures_ok] at houtcome
      exact ensures_ok.mpr houtcome

theorem startProcess_spec (hsane : Sane policy m r wait)
    (hlive : ∀ pid, m.core.current = some pid → m.core.isLive pid = true) (startAddress : Word) :
    Ensures policy.Tolerates (m.startProcess startAddress) fun result =>
      Sane policy result.1 r wait ∧ result.1.core.current = m.core.current ∧
        (∀ pid, m.core.isLive pid = true → result.1.core.isLive pid = true ∧
          (result.1.core.processes pid).inSyscall = (m.core.processes pid).inSyscall ∧
          result.1.spaces pid = m.spaces pid) ∧
        result.1.cr3 = m.cr3 ∧
        ∀ pid, result.2 = some pid → ∃ fh b handle,
          (result.1.core.processes pid).filedesc 0 = some fh ∧
          result.1.core.handles fh = some handle ∧ handle.kind = .pipeReader b ∧
          (∃ pipe, result.1.core.pipes b = some pipe ∧ pipe.writing = true) ∧
          ∀ fh handle, result.1.core.handles fh = some handle → handle.kind ≠ .pipeWriter b := by
  rw [startProcess]
  split
  · exact ensures_ok.mpr ⟨hsane, rfl, fun pid h => ⟨h, rfl, rfl⟩, rfl, fun _ h => by cases h⟩
  next pid hfree =>
    obtain ⟨-, hvacant⟩ := getFreePid_spec hfree
    have hdead : m.core.isLive pid = false := by simp [isLive, hvacant]
    have hcurrent : m.core.current ≠ some pid := fun h => by cases hdead.symm.trans (hlive pid h)
    refine ensures_bind (ensures_mono (startSpace_spec hsane.layout (dirs_of_vacant hvacant)
      hsane.suits.code) Starved.tolerated fun _ h => h) ?_
    rintro m₁ ⟨pdir, -, hlayout, hspaces, hcore, himage, hcr3, -⟩
    rw [hcore]
    refine ensures_bind (ensures_mono (Core.startProcess_spec hsane.inv hfree hcurrent _ _)
      policy.tolerates_of_harmless fun _ h => h) ?_
    intro core hstarted
    refine ensures_ok.mpr ⟨?_, hstarted.created.current, ?_, hcr3, ?_⟩
    · refine hsane.create hstarted.inv hstarted.created hlayout himage ?_
      simp only [setCore]
      rw [hstarted.cwd]
      exact hsane.suits.root
    · intro other hother
      have hne : other ≠ pid := by
        rintro rfl
        cases hdead.symm.trans hother
      refine ⟨?_, hstarted.created.call other hne, hspaces other hne⟩
      simp only [setCore]
      rw [hstarted.created.live, Function.update_of_ne hne]
      exact hother
    · rintro _ ⟨⟩
      exact hstarted.input

theorem keyboardHandler_spec (hsettled : Settled policy m wait) (byte : UInt8) :
    Ensures Harmless (m.keyboardHandler byte) fun m' => ∃ wait', Settled policy m' wait' := by
  rw [keyboardHandler]
  split
  next b hinput =>
    split
    · have hsane := hsettled.sane Regs.zero
      obtain ⟨⟨pipe, hpipe, -⟩, -⟩ := hsane.inv.pipes.input b hinput
      apply ensures_bind (writeToPipe_spec hsane.inv hpipe [byte])
      rintro core ⟨hinv, hquiet⟩
      have hsane' : Sane policy (m.setCore core) Regs.zero
          ((viewOf m.core Regs.zero wait).rouse pipe.readpid) := by
        refine hsane.steady ?_ hquiet.steady
        rw [viewOf_quiet hquiet]
        exact hinv
      refine ensures_ok.mpr ⟨_, Settled.of_sane hsane' ?_ ?_ ?_ ?_⟩
      all_goals
        intro pid hpid
        have hpid : m.core.current = some pid := hquiet.steady.current.symm.trans hpid
      · exact (hquiet.steady.live pid).trans (hsettled.live pid hpid)
      · have hawake : (viewOf m.core Regs.zero wait).wait pid = .awake := hsettled.awake pid hpid
        simp [View.rouse, hawake]
      · exact (hquiet.steady.call pid).trans (hsettled.idle pid hpid)
      · exact hsettled.cr3 pid hpid
    · exact ensures_ok.mpr ⟨wait, hsettled⟩
  next => exact ensures_ok.mpr ⟨wait, hsettled⟩

theorem Settled.userStore (hsettled : Settled policy m wait) (hcurrent : m.core.current = some pid)
    (address : Word) (byte : UInt8) :
    Settled policy { m with
      pages := Paging.userStore m.pages (m.spaces pid).pdir address.toNat byte } wait := by
  have hdir := dirs_eq (hsettled.live pid hcurrent)
  have hlayout := (hsettled.sane Regs.zero).layout
  have hrefilled := hlayout.sound.userStore hdir address.isLt byte
  exact Settled.of_sane ((hsettled.sane Regs.zero).refill (hlayout.refill hrefilled)) hsettled.live
    hsettled.awake hsettled.idle hsettled.cr3

theorem handle_spec (depth : ℕ) (hsettled : Settled policy m wait) {event : Event}
    (hallowed : Allowed policy m event) :
    Ensures policy.Tolerates (handle depth m event)
      fun m' => ∃ wait', Settled policy m' wait' := by
  cases event with
  | startProcess startAddress =>
      rw [handle]
      refine ensures_fst (ensures_weaken
        (startProcess_spec (hsettled.sane Regs.zero) hsettled.live startAddress) ?_)
      rintro ⟨m₁, created⟩ ⟨hsane, hcurrent, hkept, hcr3, -⟩
      simp only at hsane hcurrent hkept hcr3 ⊢
      refine ⟨wait, Settled.of_sane hsane ?_ ?_ ?_ ?_⟩
      all_goals
        intro pid hpid
        rw [hcurrent] at hpid
        obtain ⟨hlive, hcall, hspace⟩ := hkept pid (hsettled.live pid hpid)
      · exact hlive
      · exact hsettled.awake pid hpid
      · exact hcall.trans (hsettled.idle pid hpid)
      · rw [hcr3, hspace]
        exact hsettled.cr3 pid hpid
  | userStore address byte =>
      rw [handle]
      split
      next pid hcurrent => exact ensures_ok.mpr ⟨wait, hsettled.userStore hcurrent address byte⟩
      next => exact ensures_ok.mpr ⟨wait, hsettled⟩
  | timer r => exact ensures_fst (contextSwitch_spec depth (hsettled.leaving r))
  | keyboard byte r =>
      rw [handle]
      refine ensures_bind (ensures_mono (keyboardHandler_spec hsettled byte)
        policy.tolerates_of_harmless fun _ h => h) ?_
      rintro m₁ ⟨wait₁, hsettled₁⟩
      exact ensures_fst (contextSwitch_spec depth (hsettled₁.leaving r))
  | trap r =>
      rw [handle]
      refine ensures_fst ?_
      cases hcurrent : m.core.current with
      | none =>
          rw [syscall, hcurrent]
          exact ensures_error.mpr (policy.tolerates_of_harmless _ (by simp [Harmless]))
      | some pid =>
          exact syscall_spec (fun m r wait => contextSwitch_spec depth) (hsettled.sane r) hcurrent
            (hsettled.live pid hcurrent) (hsettled.awake pid hcurrent) (hsettled.cr3 pid hcurrent)
            hallowed.1 (hallowed.2 pid hcurrent)
  | exception number r =>
      have hunhandled : Ensures policy.Tolerates (m.unhandled number)
          fun m' => ∃ wait', Settled policy m' wait' := by
        rw [unhandled]
        split
        · exact ensures_error.mpr (policy.tolerates_of_harmless _ trivial)
        · exact ensures_ok.mpr ⟨wait, hsettled⟩
      rw [handle]
      split
      next pid hcurrent =>
        split
        · refine ensures_bind (ensures_mono (killProcess_spec (hsettled.sane r) hcurrent
            (hsettled.live pid hcurrent) (hsettled.awake pid hcurrent)
            (killable_of_awake (hsettled.live pid hcurrent) (hsettled.awake pid hcurrent))
            (fun htended => hallowed htended pid hcurrent)) policy.tolerates_of_harmless
            fun _ h => h) ?_
          rintro m₁ ⟨wait₁, hsane₁, ⟨-, hnone⟩ | ⟨hne, -⟩⟩
          · have hleaving : Leaving policy m₁ r wait₁ :=
              ⟨hsane₁, fun _ h => (by cases hnone.symm.trans h),
                fun _ h => (by cases hnone.symm.trans h)⟩
            exact ensures_fst (contextSwitch_spec depth hleaving)
          · exact absurd rfl hne
        · exact hunhandled
      next => exact hunhandled

/-! ## Boot -/

theorem inv_initial (junk : Block → Memory) (r : Regs) :
    Inv (viewOf (Core.initial junk) r fun _ => .awake) (Core.initial junk) where
  linked queue := ⟨[], DoublyLinked.isList_nil _ _, by simp [View.place, viewOf, Core.initial,
    isLive, Process.zero]⟩
  slots := by
    refine ⟨?_, ?_, ?_, rfl, ?_⟩
    · intro pid hpresent
      simp [View.present, viewOf, Core.initial, isLive, Process.zero] at hpresent
    · intro pid hdying
      cases hdying
    · intro pid hexisting
      cases hexisting
    · intro pid parent hexisting
      cases hexisting
  waits := by
    refine ⟨fun _ _ => rfl, ?_, ?_, ?_, ?_, ?_, ?_, ?_⟩
    · intro pid halive
      cases halive
    · intro b pipe pid hpipe
      cases hpipe
    · intro pid hexisting
      cases hexisting
    · intro pid child halive
      cases halive
    · intro pid b hwait
      cases hwait
    · intro pid hwait
      cases hwait
    · intro pid child hwait
      cases hwait
  handles := by
    refine ⟨fun _ _ => rfl, ?_, ?_, ?_, ?_, ?_, ?_⟩
    · intro slot fh htable
      simp [viewOf, Core.initial, isLive, Process.zero] at htable
    · intro fh handle hfh
      cases hfh
    · intro fh handle b hfh
      cases hfh
    · intro fh handle b hfh
      cases hfh
    · intro fh handle fh' handle' b hfh
      cases hfh
    · intro fh handle fh' handle' b hfh
      cases hfh
  pipes := by
    refine ⟨fun _ _ => rfl, ?_, ?_, ?_, ?_, ?_, ?_, List.nodup_nil, ?_⟩
    · intro b pipe hpipe
      cases hpipe
    · intro b hinput
      cases hinput
    · intro b pipe hmade
      cases hmade
    · intro b pipe hmade
      cases hmade
    · intro b hmade
      cases hmade
    · intro b hmade
      cases hmade
    · intro b hfreed
      cases hfreed
  references := ⟨trivial, by simp [slotLedger, viewOf, Core.initial, isLive, Process.zero]⟩
  mail := by
    refine ⟨trivial, ?_, ?_, ?_, ?_, ?_, ?_⟩
    · intro mailbox houtstanding
      exact houtstanding.elim
    · intro mailbox houtstanding
      exact houtstanding.elim
    · intro pid mailbox _ howns
      cases howns
    · intro pid mailbox hexisting
      cases hexisting
    · intro pid other mailbox hexisting
      cases hexisting
    · intro pid hexisting
      cases hexisting
  pending := by
    intro pid halive
    cases halive
  chosen := by
    intro pid alive hselected
    cases hselected
  lifecycle := ⟨trivial, fun _ => rfl⟩

theorem sound_initial (phys : Memory) :
    Sound ⟨phys, pageStart, 0, 0, []⟩ (fun _ : Pid => none) ∧
      ∀ page, ¬ Loose ⟨phys, pageStart, 0, 0, []⟩ (fun _ : Pid => none) page := by
  have hholds : ∀ holder page, ¬ Holds phys (fun _ : Pid => none) holder page := by
    intro holder page hholds
    cases holder <;> simp [Holds] at hholds
  refine ⟨⟨⟨[], ?_⟩, ?_⟩, fun page hloose => hloose.1.elim⟩
  · refine ⟨by simp [pageStart, pageSize], le_rfl, by simp [pageStart, wordCount], rfl,
      List.nodup_nil, fun _ h => (by cases h), ?_, trivial, by simp⟩
    intro page
    refine ⟨fun hout => hout.elim, ?_⟩
    rintro ⟨⟨-, hlow, hhigh⟩, -⟩
    simp only at hhigh
    omega
  · exact ⟨fun holder page h => absurd h (hholds holder page),
      fun holder page h => absurd h (hholds holder page),
      fun holder _ page h => absurd h (hholds holder page)⟩

theorem sane_initial {image : Image} (hsuits : policy.Suits image) (phys : Memory)
    (junk : Block → Memory) (r : Regs) :
    Sane policy (initial image phys junk) r fun _ => .awake where
  inv := inv_initial junk r
  layout := by
    have hdirs : (initial image phys junk).dirs = fun _ => none := by
      funext pid
      rfl
    rw [hdirs]
    obtain ⟨hsound, htight⟩ := sound_initial phys
    exact ⟨hsound, fun _ _ h => (by cases h), fun _ => htight⟩
  suits := hsuits
  calls pid hlive := by cases hlive
  cwd pid hlive := by cases hlive
  tended _ _ _ h := by cases h
  statuses _ _ halive := by cases halive

theorem connectKeyboard_spec (hsane : Sane policy m r wait) {fh b : Block} {handle : FileHandle}
    (hslot : (m.core.processes pid).filedesc 0 = some fh) (hfh : m.core.handles fh = some handle)
    (hkind : handle.kind = .pipeReader b)
    (hwriting : ∃ pipe, m.core.pipes b = some pipe ∧ pipe.writing = true)
    (hwriters : ∀ fh handle, m.core.handles fh = some handle → handle.kind ≠ .pipeWriter b) :
    m.connectKeyboard pid = .ok (m.setCore { m.core with inputPipe := some b }) ∧
      Sane policy (m.setCore { m.core with inputPipe := some b }) r wait := by
  have hinv := hsane.inv
  refine ⟨by simp [connectKeyboard, hslot, Core.handle, hfh, hkind], ⟨?_, hsane.layout,
    hsane.suits, hsane.calls, hsane.cwd, hsane.tended, hsane.statuses⟩⟩
  refine ⟨hinv.linked.congr (fun _ => rfl) (fun _ => rfl) rfl, hinv.slots.congr rfl,
    hinv.waits.congr rfl rfl rfl, ?_, ?_, ?_, ?_, hinv.pending, hinv.chosen, ?_⟩
  · exact ⟨hinv.handles.fresh, hinv.handles.resolved, hinv.handles.counted, hinv.handles.reader,
      hinv.handles.writer, hinv.handles.readerUnique, hinv.handles.writerUnique⟩
  · refine ⟨hinv.pipes.fresh, hinv.pipes.opened, ?_, hinv.pipes.madeReader, hinv.pipes.madeWriter,
      hinv.pipes.madeFresh, hinv.pipes.madeFreed, hinv.pipes.freedOnce, hinv.pipes.freedGone⟩
    rintro _ ⟨⟩
    exact ⟨hwriting, hwriters⟩
  · exact ⟨hinv.references.linear, hinv.references.outstanding⟩
  · exact ⟨hinv.mail.linear, hinv.mail.fresh, hinv.mail.unreleased, hinv.mail.owned,
      hinv.mail.used, hinv.mail.unique, hinv.mail.empty⟩
  · exact ⟨hinv.lifecycle.lawful, hinv.lifecycle.stages⟩

theorem kmain_spec {image : Image} (hsuits : policy.Suits image) (phys : Memory)
    (junk : Block → Memory) :
    Ensures (fun fault => policy.Tolerates fault ∨ fault = .dangling)
      (kmain image phys junk) fun m => ∃ wait, Settled policy m wait := by
  rw [kmain]
  have hlive : ∀ pid, (initial image phys junk).core.current = some pid →
      (initial image phys junk).core.isLive pid = true := fun _ h => by cases h
  refine ensures_bind (ensures_mono (startProcess_spec (sane_initial hsuits phys junk Regs.zero)
    hlive image.launchShell) (fun _ => .inl) fun _ h => h) ?_
  rintro ⟨m, created⟩ ⟨hsane, hcurrent, -, -, hinput⟩
  simp only at hsane hcurrent hinput ⊢
  cases created with
  | none => exact ensures_error.mpr (.inr rfl)
  | some pid =>
      obtain ⟨fh, b, handle, hslot, hfh, hkind, hwriting, hwriters⟩ := hinput pid rfl
      obtain ⟨hconnect, hsane'⟩ := connectKeyboard_spec hsane hslot hfh hkind hwriting hwriters
      simp only [hconnect]
      have hidle : ∀ pid, (m.setCore { m.core with inputPipe := some b }).core.current ≠
          some pid := by
        intro pid hpid
        cases hcurrent.symm.trans hpid
      exact ensures_ok.mpr ⟨_, Settled.of_sane hsane' (fun pid h => absurd h (hidle pid))
        (fun pid h => absurd h (hidle pid)) (fun pid h => absurd h (hidle pid))
        fun pid h => absurd h (hidle pid)⟩

/-! ## Reachable states -/

/-- The states of the runs from `kmain` in which every event meets a condition on
the state and the event. -/
inductive Reachable (permits : Machine → Event → Prop) (image : Image) (phys : Memory)
    (junk : Block → Memory) : Machine → Prop
  | boot {m : Machine} : kmain image phys junk = .ok m → Reachable permits image phys junk m
  | step {m m' : Machine} {event : Event} (depth : ℕ) : Reachable permits image phys junk m →
      permits m event → handle depth m event = .ok m' → Reachable permits image phys junk m'

variable {permits : Machine → Event → Prop} {image : Image} {phys : Memory}
variable {junk : Block → Memory}

/-- The condition on the events guarantees the policy in settled states. -/
def Guarantees (permits : Machine → Event → Prop) (policy : Policy) : Prop :=
  ∀ m wait event, Settled policy m wait → permits m event → Allowed policy m event

theorem Reachable.settled (hguarantees : Guarantees permits policy) (hsuits : policy.Suits image)
    (hreachable : Reachable permits image phys junk m) : ∃ wait, Settled policy m wait := by
  induction hreachable with
  | boot hboot =>
      have hspec := kmain_spec hsuits phys junk
      rwa [hboot, ensures_ok] at hspec
  | step depth _ hpermits hhandle ih =>
      obtain ⟨wait, hsettled⟩ := ih
      have hspec := handle_spec depth hsettled (hguarantees _ _ _ hsettled hpermits)
      rwa [hhandle, ensures_ok] at hspec

/-- The states of the runs from `kmain` in which every event meets a condition, and that
go on when the kernel overwrites data of its own.  What it overwrites depends on the linker
and the allocator, so from then on it may be in any state. -/
inductive MayReach (permits : Machine → Event → Prop) (image : Image) (phys : Memory)
    (junk : Block → Memory) : Machine → Prop
  | boot {m : Machine} : kmain image phys junk = .ok m → MayReach permits image phys junk m
  | step {m m' : Machine} {event : Event} (depth : ℕ) : MayReach permits image phys junk m →
      permits m event → handle depth m event = .ok m' → MayReach permits image phys junk m'
  | overwritten {m : Machine} {event : Event} {fault : Fault} (depth : ℕ) (m' : Machine) :
      MayReach permits image phys junk m → permits m event →
      handle depth m event = .error fault → fault.Overwrites → MayReach permits image phys junk m'

theorem Reachable.mayReach (hreachable : Reachable permits image phys junk m) :
    MayReach permits image phys junk m := by
  induction hreachable with
  | boot hboot => exact .boot hboot
  | step depth _ hpermits hhandle ih => exact .step depth ih hpermits hhandle

theorem not_overwrites_of_tolerable {strict : Prop} {fault : Fault}
    (htolerable : Tolerable strict fault) : ¬ fault.Overwrites := by
  rintro (rfl | rfl)
  · rcases htolerable with hharmless | ⟨-, hpage⟩
    · exact hharmless
    · cases hpage
  · rcases htolerable with hharmless | ⟨-, hpage⟩
    · exact hharmless
    · cases hpage

/-- A careful run overwrites nothing. -/
theorem MayReach.reachable (hguarantees : Guarantees permits policy)
    (hsuits : policy.Suits image) (hcareful : policy.careful)
    (hreach : MayReach permits image phys junk m) : Reachable permits image phys junk m := by
  induction hreach with
  | boot hboot => exact .boot hboot
  | step depth _ hpermits hhandle ih => exact .step depth ih hpermits hhandle
  | overwritten depth m' _ hpermits hfault hoverwrites ih =>
      obtain ⟨wait, hsettled⟩ := ih.settled hguarantees hsuits
      have hspec := handle_spec depth hsettled (hguarantees _ _ _ hsettled hpermits)
      rw [hfault, ensures_error] at hspec
      rcases hspec with htolerable | ⟨hcareless, -⟩
      · exact absurd hoverwrites (not_overwrites_of_tolerable htolerable)
      · exact absurd hcareful hcareless

/-- Faults of an event in a reachable state. -/
theorem Reachable.tolerable (hguarantees : Guarantees permits policy)
    (hsuits : policy.Suits image) (hreachable : Reachable permits image phys junk m)
    {event : Event} (hpermits : permits m event) {depth : ℕ} {fault : Fault}
    (hfault : handle depth m event = .error fault) : policy.Tolerates fault := by
  obtain ⟨wait, hsettled⟩ := hreachable.settled hguarantees hsuits
  have hspec := handle_spec depth hsettled (hguarantees _ _ _ hsettled hpermits)
  rw [hfault] at hspec
  exact ensures_error.mp hspec

/-- More events give more reachable states. -/
theorem Reachable.mono {permits' : Machine → Event → Prop}
    (hmono : ∀ m event, permits m event → permits' m event)
    (hreachable : Reachable permits image phys junk m) :
    Reachable permits' image phys junk m := by
  induction hreachable with
  | boot hboot => exact .boot hboot
  | step depth _ hpermits hhandle ih => exact .step depth ih (hmono _ _ hpermits) hhandle

/-! ## Conditions on events -/

/-- The event is not a system call `kill`. -/
def NotKilling (_ : Machine) : Event → Prop
  | .trap r => r.eax.toNat ≠ Call.kill.number
  | _ => True

/-- The event is not a system call `kill`, or the target of the call does not exist,
or is alive and not blocked in a read or in a receive. -/
def KillingSafely (m : Machine) : Event → Prop
  | .trap r => r.eax.toNat = Call.kill.number → SafeKill m.core (r.args 0)
  | _ => True

/-- The event is a tick of the timer or one of the given system calls. -/
def Calling (calls : List Call) (_ : Machine) : Event → Prop
  | .timer _ => True
  | .trap r => ∃ call ∈ calls, r.eax.toNat = call.number
  | _ => False

/-- The event is not a call of `waitpid` with a status pointer into the kernel, nor a message
to a process whose mailbox was released. -/
def Careful (m : Machine) : Event → Prop
  | .trap r => (r.eax.toNat = Call.waitpid.number → StatusOutside r) ∧
      (r.eax.toNat = Call.send.number → Addressable m.core (r.args 0))
  | _ => True

/-- The events that meet a condition and are careful. -/
def Carefully (permits : Machine → Event → Prop) (m : Machine) (event : Event) : Prop :=
  permits m event ∧ Careful m event

theorem NotKilling.safely {event : Event} (hevent : NotKilling m event) :
    KillingSafely m event := by
  cases event with
  | trap r => exact fun hkill => absurd hkill hevent
  | _ => trivial

end Machine

/-- Nothing is assumed about the calls beyond their safety. -/
def Policy.lax : Policy where
  calls := fun _ => True
  regime := ⟨False, fun _ => False, Regime.no_secret⟩
  tended := False
  careful := False
  cwd := fun _ => True

theorem Policy.lax_suits (image : Image) : Policy.lax.Suits image :=
  ⟨trivial, fun _ _ _ _ _ _ => trivial, fun _ h => h.elim⟩

theorem Policy.lax_permits (r : Regs) : Policy.lax.Permits r := ⟨fun _ => trivial, fun h => h.elim⟩

/-- In addition the kernel overwrites nothing of its own. -/
def Policy.cautious : Policy := { Policy.lax with careful := True }

theorem Policy.cautious_suits (image : Image) : Policy.cautious.Suits image :=
  ⟨trivial, fun _ _ _ _ _ _ => trivial, fun _ h => h.elim⟩

namespace Machine

theorem killingSafely_guarantees : Guarantees KillingSafely Policy.lax := by
  intro m wait event _ hpermits
  cases event with
  | trap r =>
      refine ⟨Policy.lax_permits r, fun pid _ => ⟨?_, ?_, ?_, ?_, ?_, ?_⟩⟩
      · exact fun hkill => ⟨hpermits hkill, fun h => h.elim⟩
      · exact fun _ h => h.elim
      · exact fun _ => ⟨fun h => h.elim, fun _ h => h.elim⟩
      · exact fun _ _ h => h
      · exact fun _ => trivial
      · exact fun _ h => h.elim
  | exception number r => exact fun h => h.elim
  | _ => trivial

theorem carefully_guarantees : Guarantees (Carefully KillingSafely) Policy.cautious := by
  intro m wait event _ hpermits
  cases event with
  | trap r =>
      obtain ⟨hsafe, hstatus, haddressable⟩ := hpermits
      refine ⟨⟨fun _ => trivial, fun _ => hstatus⟩, fun pid _ => ⟨?_, ?_, ?_, ?_, ?_, ?_⟩⟩
      · exact fun hkill => ⟨hsafe hkill, fun h => h.elim⟩
      · exact fun _ h => h.elim
      · exact fun _ => ⟨fun h => h.elim, fun _ h => h.elim⟩
      · exact fun _ _ h => h
      · exact fun _ => trivial
      · exact fun hsend _ => haddressable hsend
  | exception number r => exact fun h => h.elim
  | _ => trivial

variable {permits : Machine → Event → Prop} {image : Image} {phys : Memory}
variable {junk : Block → Memory}

/-- The states of runs with safe kills are settled. -/
theorem Reachable.lax (hreachable : Reachable KillingSafely image phys junk m) :
    ∃ wait, Settled Policy.lax m wait :=
  hreachable.settled killingSafely_guarantees (Policy.lax_suits image)

/-- Runs with safe kills that are careful overwrite nothing. -/
theorem MayReach.careful (hsafely : ∀ m event, permits m event → KillingSafely m event)
    (hreach : MayReach (Carefully permits) image phys junk m) :
    Reachable (Carefully permits) image phys junk m :=
  hreach.reachable (fun _ _ _ hsettled hpermits => carefully_guarantees _ _ _ hsettled
    ⟨hsafely _ _ hpermits.1, hpermits.2⟩) (Policy.cautious_suits image) trivial

/-- The states of careful runs with safe kills are settled. -/
theorem MayReach.lax (hsafely : ∀ m event, permits m event → KillingSafely m event)
    (hreach : MayReach (Carefully permits) image phys junk m) :
    ∃ wait, Settled Policy.lax m wait :=
  ((hreach.careful hsafely).mono fun _ _ h => hsafely _ _ h.1).lax

/-- The faults of a careful event in a careful run. -/
theorem MayReach.tolerable (hsafely : ∀ m event, permits m event → KillingSafely m event)
    (hreach : MayReach (Carefully permits) image phys junk m) {event : Event}
    (hpermits : Carefully permits m event) {depth : ℕ} {fault : Fault}
    (hfault : handle depth m event = .error fault) :
    Tolerable Policy.cautious.regime.strict fault := by
  have hreachable : Reachable (Carefully KillingSafely) image phys junk m :=
    (hreach.careful hsafely).mono fun _ _ h => ⟨hsafely _ _ h.1, h.2⟩
  have htolerates := hreachable.tolerable carefully_guarantees (Policy.cautious_suits image)
    ⟨hsafely _ _ hpermits.1, hpermits.2⟩ hfault
  exact htolerates.resolve_right fun hoverwrites => hoverwrites.1 trivial

theorem Reachable.of_carefully (hreachable : Reachable (Carefully permits) image phys junk m) :
    Reachable permits image phys junk m :=
  hreachable.mono fun _ _ => And.left

theorem Reachable.safely (hreachable : Reachable NotKilling image phys junk m) :
    Reachable KillingSafely image phys junk m :=
  hreachable.mono fun _ _ => NotKilling.safely

end Machine

end Rhythmos.Kernel
