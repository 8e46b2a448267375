import Rhythmos.Kernel.Attendance
import Rhythmos.Kernel.SchedulerSafety

/-!
# The nesting of switches is bounded

Only `read`, `receive` and `waitpid` are repeated, as long as no process calls `getcwd` for
no bytes at the one address that reads as `-ESUSPEND`.  A repeated call that is suspended
again takes its caller off the ready list and makes no other process ready, so that the
list is shorter at each level of the recursion of `context_switch` and `syscall`.
-/

namespace Rhythmos.Kernel

open Fallible ByteMemory DoublyLinked Libc

namespace Machine

open Rhythmos.Kernel.Core

variable {policy : Policy} {m : Machine} {r : Regs} {wait : Pid → Wait} {pid : Pid}

/-! ## Results that look like `-ESUSPEND` -/

/-- A call of `getcwd` that returns `-ESUSPEND`: the pointer is not checked for a buffer of
no bytes. -/
def Feigns (r : Regs) : Prop :=
  r.eax.toNat = Call.getcwd.number ∧ r.args 0 = failure esuspend ∧ r.args 1 = 0

theorem write_ne_esuspend (hplaced : Placed (m.spaces pid)) (fd buf count : Word) :
    Ensures anyFault (m.syscallWrite pid fd buf count) fun value =>
      value.2 ≠ failure esuspend := by
  have hbad : failure ebadf ≠ failure esuspend := by decide
  have hinvalid : failure einval ≠ failure esuspend := by decide
  rw [syscallWrite]
  split
  · have hfault : failure efault ≠ failure esuspend := by decide
    exact ensures_ok.mpr hfault
  next hvalid =>
    have hsize := hplaced.size_lt (by simpa using hvalid)
    have hlength : ∀ bytes : List UInt8, bytes.length = count.toNat →
        BitVec.ofNat 32 bytes.length ≠ failure esuspend := by
      intro bytes hbytes
      apply ofNat_ne_esuspend
      simp only [kernelMemSize, wordCount] at hsize ⊢
      omega
    split
    · exact ensures_ok.mpr hbad
    · refine ensures_bind (?_ : Ensures anyFault _ fun value => value.2 ≠ failure esuspend)
        fun value hvalue => ensures_ok.mpr hvalue
      refine ensures_bind (ensures_any _) fun handle _ => ?_
      split
      · refine ensures_bind (length_loadUser m _ _) fun bytes hbytes => ?_
        exact ensures_ok.mpr (hlength bytes hbytes)
      · refine ensures_bind (length_loadUser m _ _) fun bytes hbytes => ?_
        exact ensures_bind (ensures_any _) fun _ _ => ensures_ok.mpr (hlength bytes hbytes)
      · exact ensures_ok.mpr hinvalid
      · exact ensures_ok.mpr hbad
      · exact ensures_ok.mpr hbad

/-- A valid pointer to at least one byte lies below the last page. -/
theorem validPointer_ne_esuspend {space : AddressSpace} (hfits : space.Fits) {size : ℕ}
    (hvalid : validPointer space (failure esuspend).toNat size = true) : size = 0 := by
  have hvalue : (failure esuspend).toNat = 4294966296 := by decide
  have haligned := hfits.dataEnd_aligned
  have hbound := hfits.dataEnd_lt
  have htext := hfits.textEnd_le
  rw [hvalue] at hvalid
  simp only [validPointer] at hvalid
  split at hvalid
  next hzero => exact hzero
  next hsize =>
    split at hvalid
    · cases hvalid
    · simp only [within, hfits.stackEnd, Bool.or_eq_true, Bool.and_eq_true,
        decide_eq_true_eq] at hvalid
      simp only [processStackBase, processDataBase, wordCount, pageSize] at *
      omega

theorem getcwd_esuspend (hfits : (m.spaces pid).Fits) (buf size : Word) :
    Ensures anyFault (m.syscallGetcwd pid buf size) fun value =>
      value.2 = failure esuspend → buf = failure esuspend ∧ size = 0 := by
  rw [syscallGetcwd]
  split
  · exact ensures_ok.mpr fun h => absurd h zero_ne
  next hvalid =>
    refine ensures_bind (ensures_any _) fun m' _ => ensures_ok.mpr ?_
    rintro rfl
    have hzero := validPointer_ne_esuspend hfits (by simpa using hvalid)
    exact ⟨rfl, BitVec.eq_of_toNat_eq hzero⟩

theorem errno_ne_esuspend {errno : ℤ} (hlow : 0 ≤ errno) (hhigh : errno ≤ 2 ^ 31) :
    BitVec.ofInt 32 errno ≠ failure esuspend := by
  intro hsame
  have hnat := congrArg BitVec.toNat hsame
  have hvalue : (failure esuspend).toNat = 4294966296 := by decide
  rw [BitVec.toNat_ofInt, hvalue] at hnat
  omega

/-- The calls that report that they were suspended are those that suspend. -/
theorem blocking_of_esuspend {value : Machine × Regs × Word} (hplaced : Placed (m.spaces pid))
    (hfits : (m.spaces pid).Fits) (hlow : 0 ≤ (m.core.processes pid).lastErrno)
    (hhigh : (m.core.processes pid).lastErrno ≤ 2 ^ 31) (hhonest : ¬ Feigns r)
    (hrepeatable : Repeatable r.eax.toNat) (hdispatch : m.dispatch pid r = .ok value)
    (hres : value.2.2 = failure esuspend) : Blocking r.eax.toNat := by
  simp only [Repeatable, List.mem_cons, List.not_mem_nil, or_false] at hrepeatable
  rcases hrepeatable with hcall | hcall | hcall | hcall | hcall | hcall
  · exact ⟨.read, by decide, hcall⟩
  · have hwrite : Ensures anyFault (m.dispatch pid r) fun value =>
        value.2.2 ≠ failure esuspend := by
      rw [dispatch, hcall]
      exact ensures_bind (write_ne_esuspend hplaced _ _ _) fun _ h => ensures_ok.mpr h
    rw [hdispatch, ensures_ok] at hwrite
    exact absurd hres hwrite
  · have herrno : Ensures anyFault (m.dispatch pid r) fun value =>
        value.2.2 ≠ failure esuspend := by
      rw [dispatch, hcall]
      exact ensures_ok.mpr (errno_ne_esuspend hlow hhigh)
    rw [hdispatch, ensures_ok] at herrno
    exact absurd hres herrno
  · exact ⟨.receive, by decide, hcall⟩
  · exact ⟨.waitpid, by decide, hcall⟩
  · have hgetcwd : Ensures anyFault (m.dispatch pid r) fun value =>
        value.2.2 = failure esuspend → r.args 0 = failure esuspend ∧ r.args 1 = 0 := by
      rw [dispatch, hcall]
      exact ensures_bind (getcwd_esuspend hfits _ _) fun _ h => ensures_ok.mpr h
    rw [hdispatch, ensures_ok] at hgetcwd
    exact absurd ⟨hcall, hgetcwd hres⟩ hhonest

/-! ## Pending calls -/

/-- A live process is inside no call, or inside one that suspends, and its error number is
not negative. -/
def PromptProcess (proc : Process) : Prop :=
  (proc.existing && !proc.exited) = true →
    (proc.inSyscall ≠ 0 → Blocking proc.inSyscall) ∧ 0 ≤ proc.lastErrno ∧ proc.lastErrno ≤ 2 ^ 31

def Prompt (c : Core) : Prop := ∀ pid, PromptProcess (c.processes pid)

theorem PromptProcess.congr {proc proc' : Process} (hprompt : PromptProcess proc)
    (htrapped : proc'.trapped = proc.trapped) : PromptProcess proc' := by
  simp only [Process.trapped, Prod.mk.injEq] at htrapped
  obtain ⟨-, herrno, hcall, hlive⟩ := htrapped
  simpa only [PromptProcess, herrno, hcall, hlive] using hprompt

theorem PromptProcess.of_untried {c : Core} (huntried : Untried c pid) :
    PromptProcess (c.processes pid) := by
  intro _
  simp [huntried.1, huntried.2]

/-- All processes but the one that is created or killed stay as they are. -/
theorem Prompt.of_aloof {who : Option Pid} {c c' : Core} (hprompt : Prompt c)
    (haloof : Aloof who c c') (hwho : ∀ pid, who = some pid → PromptProcess (c'.processes pid)) :
    Prompt c' := by
  intro pid
  by_cases hpid : who = some pid
  · exact hwho pid hpid
  · exact (hprompt pid).congr (haloof pid hpid)

theorem Prompt.aloof {c c' : Core} (hprompt : Prompt c) (haloof : Aloof none c c') : Prompt c' :=
  hprompt.of_aloof haloof (by simp)

/-- The error number kept for a result. -/
def errnoOf (res : Word) : ℤ := if res.toInt < 0 then -res.toInt else 0

theorem errnoOf_bounds (res : Word) : 0 ≤ errnoOf res ∧ errnoOf res ≤ 2 ^ 31 := by
  have hlow := BitVec.le_toInt res
  rw [errnoOf]
  split <;> omega

/-- `storeErrno` for a call that is over. -/
theorem storeErrno_over {callNo : ℕ} {res : Word} (hcurrent : m.core.current = some pid)
    (hres : res ≠ failure esuspend) :
    (m.storeErrno callNo res).1 = m.setCore (m.core.modify pid fun proc => { proc with
      lastErrno := if callNo = Call.geterrno.number then proc.lastErrno else errnoOf res }) := by
  by_cases hcall : callNo = Call.geterrno.number
  · have hsame : (m.core.modify pid fun proc => proc) = m.core := by
      rw [Core.modify, Function.update_eq_self]
    simp only [storeErrno, hcurrent, hcall, true_or, if_true]
    rw [hsame, setCore]
  · simp only [storeErrno, hcurrent, hcall, hres, or_self, if_false, errnoOf]
    split <;> rfl

theorem storeErrno_suspended {callNo : ℕ} {res : Word} (hres : res = failure esuspend) :
    m.storeErrno callNo res = (m, res) := by
  simp only [storeErrno, hres, or_true, if_true]
  split <;> rfl

/-- The kernel's data after a passage whose handler was suspended or killed its caller. -/
theorem after_suspended (m : Machine) (pid : Pid) (r : Regs) (value : Machine × Regs × Word)
    (hres : value.2.2 = failure esuspend) :
    (m.conclude pid r value).after.core = value.1.core := by
  have hstored := @storeErrno_suspended value.1 r.eax.toNat value.2.2 hres
  simp only [conclude, hstored]
  rw [if_pos hres]

/-- The kernel's data after a passage whose handler is over. -/
theorem after_over (m : Machine) (r : Regs) (value : Machine × Regs × Word)
    (hcurrent : value.1.core.current = some pid) (hres : value.2.2 ≠ failure esuspend) :
    (m.conclude pid r value).after.core = (value.1.core.modify pid fun proc => { proc with
      lastErrno := if r.eax.toNat = Call.geterrno.number then proc.lastErrno
        else errnoOf value.2.2 }).modify pid fun proc => { proc with inSyscall := 0 } := by
  have hstill : (value.1.storeErrno r.eax.toNat value.2.2).2 ≠ failure esuspend := fun h =>
    hres ((storeErrno_esuspend _ _ _).mp h)
  simp only [conclude, hstill, if_false, storeErrno_over hcurrent hres, setCore]

theorem prompt_conclude {value : Machine × Regs × Word}
    (hothers : ∀ other, other ≠ pid → PromptProcess (value.1.core.processes other))
    (hreturns : Returns policy value.1 value.2.1 pid value.2.2)
    (herrno : value.1.core.isLive pid = true → 0 ≤ (value.1.core.processes pid).lastErrno ∧
      (value.1.core.processes pid).lastErrno ≤ 2 ^ 31)
    (hblocking : value.2.2 = failure esuspend → value.1.core.isLive pid = true →
      Blocking (value.1.core.processes pid).inSyscall) :
    Prompt (m.conclude pid r value).after.core := by
  intro other
  by_cases hres : value.2.2 = failure esuspend
  · rw [after_suspended m pid r _ hres]
    by_cases hother : other = pid
    · subst hother
      exact fun hlive => ⟨fun _ => hblocking hres hlive, herrno hlive⟩
    · exact hothers other hother
  · rw [after_over m r _ (hreturns.settled hres).1 hres]
    by_cases hother : other = pid
    · subst hother
      intro hlive
      simp only [modify_processes, Function.update_self] at hlive ⊢
      refine ⟨fun h => absurd rfl h, ?_⟩
      split
      · exact herrno hlive
      · exact errnoOf_bounds value.2.2
    · simpa [hother] using hothers other hother

theorem CallAllowed.lax (hkill : r.eax.toNat ≠ Call.kill.number) :
    CallAllowed Policy.lax m pid r :=
  ⟨fun h => absurd h hkill, fun _ h => h.elim, fun _ => ⟨fun h => h.elim, fun _ h => h.elim⟩,
    fun _ _ h => h, fun _ => trivial, fun _ h => h.elim⟩

theorem placed_of_fits {space : AddressSpace} (hfits : space.Fits) : Placed space := by
  refine ⟨?_, ?_, ?_⟩
  · rw [hfits.stackStart]
    decide
  · rw [hfits.dataStart]
    decide
  · rw [hfits.textStart]
    decide

/-- After the handler of an honest call, the processes are prompt up to the caller, which is
so if it was suspended. -/
theorem prompt_dispatch (hcall : InCall Policy.lax m r wait pid) (hprompt : ∀ other,
      other ≠ pid → PromptProcess (m.core.processes other))
    (herrno : 0 ≤ (m.core.processes pid).lastErrno ∧ (m.core.processes pid).lastErrno ≤ 2 ^ 31)
    (hsized : m.core.Sized) (hkill : r.eax.toNat ≠ Call.kill.number) (hhonest : ¬ Feigns r) :
    Ensures anyFault (m.dispatch pid r) fun value =>
      Returns Policy.lax value.1 value.2.1 pid value.2.2 ∧
      (∀ other, other ≠ pid → PromptProcess (value.1.core.processes other)) ∧
      (value.1.core.isLive pid = true → (value.1.core.processes pid).lastErrno =
        (m.core.processes pid).lastErrno) ∧
      (value.2.2 = failure esuspend → value.1.core.isLive pid = true →
        Blocking (value.1.core.processes pid).inSyscall) := by
  have hspec := dispatch_spec hcall (CallAllowed.lax hkill)
  cases hdispatch : m.dispatch pid r with
  | error fault => exact ensures_error.mpr trivial
  | ok value =>
      have haffected := affected_dispatch hsized hcall.current hkill
      rw [hdispatch, ensures_ok] at haffected hspec
      have hfits := (hcall.sane.layout.furnished pid _ (dirs_eq hcall.live)).fits
      -- a caller that was suspended is inside the call it made
      have hcaller : r.eax.toNat ≠ Call.exit.number →
          (value.1.core.processes pid).trapped = (m.core.processes pid).trapped →
          (value.1.core.isLive pid = true → (value.1.core.processes pid).lastErrno =
            (m.core.processes pid).lastErrno) ∧
          (value.2.2 = failure esuspend → value.1.core.isLive pid = true →
            Blocking (value.1.core.processes pid).inSyscall) := by
        intro hexit htrapped
        simp only [Process.trapped, Prod.mk.injEq] at htrapped
        obtain ⟨-, herrno', hcall', hlive'⟩ := htrapped
        refine ⟨fun _ => herrno', fun hres hlive => ?_⟩
        have hresumes := dispatch_resumes hcall (CallAllowed.lax hkill) hexit hkill
        rw [hdispatch, ensures_ok] at hresumes
        obtain ⟨-, -, -, -, -, -, hrepeats⟩ := hresumes
        obtain ⟨hrepeatable, hframe⟩ := hrepeats hres
        rw [hcall', hcall.call] at hframe
        rw [hcall', hcall.call]
        exact blocking_of_esuspend (placed_of_fits hfits) hfits herrno.1 herrno.2 hhonest
          (hframe ▸ hrepeatable) hdispatch hres
      refine ensures_ok.mpr ⟨hspec, ?_⟩
      cases haffected with
      | nobody hexit haloof _ =>
          refine ⟨fun other hother => (hprompt other hother).congr (haloof other (by simp)), ?_⟩
          exact hcaller hexit (haloof pid (by simp))
      | created child hfree hcreates haloof huntried =>
          have hexit : r.eax.toNat ≠ Call.exit.number := by
            have hnumber := hcreates.1
            simp only [Call.number] at hnumber ⊢
            omega
          have hne : some child ≠ some pid := by
            rintro ⟨⟩
            have hvacant := (getFreePid_spec hfree).2
            have hlive := hcall.live
            simp [isLive, hvacant] at hlive
          refine ⟨fun other hother => ?_, hcaller hexit (haloof pid hne)⟩
          by_cases hchild : some child = some other
          · obtain rfl : child = other := by simpa using hchild
            exact .of_untried huntried
          · exact (hprompt other hother).congr (haloof other hchild)
      | exited _ haloof hdead _ =>
          refine ⟨fun other hother => ?_, fun h => (by cases hdead.symm.trans h),
            fun _ h => (by cases hdead.symm.trans h)⟩
          exact (hprompt other hother).congr (haloof other fun h => hother (by simpa using h.symm))

theorem sized_conclude (m : Machine) (pid : Pid) (r : Regs) {value : Machine × Regs × Word}
    (hsized : value.1.core.Sized) : (m.conclude pid r value).after.core.Sized := by
  have hstored := (tame_storeErrno value.1 r.eax.toNat value.2.2).sized hsized
  simp only [conclude]
  split
  · exact hstored
  · exact ⟨hstored.pipes, hstored.files⟩

theorem prompt_pass (hsane : Sane Policy.lax m r wait) (hcurrent : m.core.current = some pid)
    (hlive : m.core.isLive pid = true) (hawake : wait pid = .awake)
    (hcr3 : m.cr3 = some (m.spaces pid).pdir) (hprompt : Prompt m.core) (hsized : m.core.Sized)
    (hkill : r.eax.toNat ≠ Call.kill.number) (hhonest : ¬ Feigns r) :
    Ensures anyFault (m.pass r) fun passage => Passed Policy.lax m r pid passage ∧
      Prompt passage.after.core ∧ passage.after.core.Sized := by
  rw [pass, hcurrent]
  have hentered := hsane.enter hcurrent hlive hawake hcr3 (Policy.lax_permits r)
  have hothers : ∀ other, other ≠ pid → PromptProcess ((m.entered pid r).core.processes other) := by
    intro other hother
    simpa [entered, setCore, hother] using hprompt other
  have herrno : 0 ≤ ((m.entered pid r).core.processes pid).lastErrno ∧
      ((m.entered pid r).core.processes pid).lastErrno ≤ 2 ^ 31 := by
    simpa [entered, setCore] using (hprompt pid hlive).2
  have htame : Tame m.core (m.entered pid r).core := .of_eq rfl rfl rfl
  have hsized' := htame.sized hsized
  refine ensures_bind (ensures_and (prompt_dispatch hentered hothers herrno hsized' hkill hhonest)
    (sizing_dispatch (m.entered pid r) pid r)) fun value hdone => ?_
  obtain ⟨⟨hreturns, hkept, herrno', hblocking⟩, hsizing⟩ := hdone
  refine ensures_ok.mpr ⟨conclude_spec hreturns, prompt_conclude hkept hreturns ?_ hblocking,
    sized_conclude m pid r (hsizing hsized')⟩
  intro hstill
  rw [herrno' hstill]
  exact herrno

/-! ## The ready list shrinks -/

/-- The processes on the ready list. -/
def readyPids (c : Core) : Finset Pid :=
  Finset.univ.filter fun pid => c.isLive pid = true ∧ (c.processes pid).ready = true

theorem readyPids_congr {c c' : Core} (hlive : ∀ pid, c'.isLive pid = c.isLive pid)
    (hready : ∀ pid, (c'.processes pid).ready = (c.processes pid).ready) :
    readyPids c' = readyPids c := by
  simp only [readyPids, hlive, hready]

theorem Aloof.live {c c' : Core} (haloof : Aloof none c c') (pid : Pid) :
    c'.isLive pid = c.isLive pid := by
  have htrapped := haloof pid (by simp)
  simp only [Process.trapped, Prod.mk.injEq] at htrapped
  exact htrapped.2.2.2

/-- A suspended caller leaves the ready list, and nobody joins it. -/
theorem readyPids_lt {c c' : Core} {res : Word} (hyields : Yields pid c c' res)
    (hres : res = failure esuspend) (hlive : c.isLive pid = true)
    (hready : (c.processes pid).ready = true) : (readyPids c').card < (readyPids c).card := by
  obtain ⟨hcalm, hsuspended⟩ := hyields
  have hgone : (c'.processes pid).ready = false := hsuspended hres
  apply Finset.card_lt_card
  refine Finset.ssubset_iff_subset_ne.mpr ⟨?_, ?_⟩
  · intro other hother
    simp only [readyPids, Finset.mem_filter, Finset.mem_univ, true_and] at hother ⊢
    have hne : other ≠ pid := by
      rintro rfl
      cases hgone.symm.trans hother.2
    rw [Aloof.live hcalm.aloof, hcalm.ready other hne] at hother
    exact hother
  · intro hsame
    have hmem : pid ∈ readyPids c := by simp [readyPids, hlive, hready]
    rw [← hsame] at hmem
    simp [readyPids, hgone] at hmem

/-- A repeated call that is suspended makes the ready list shorter. -/
theorem pass_shrinks (hcurrent : m.core.current = some pid) (hlive : m.core.isLive pid = true)
    (hready : (m.core.processes pid).ready = true) (hsized : m.core.Sized)
    (hblocking : Blocking r.eax.toNat) :
    Ensures Nested (m.pass r) fun passage => passage.outcome = failure esuspend →
      (readyPids passage.after.core).card < (readyPids m.core).card := by
  rw [pass, hcurrent]
  have htame : Tame m.core (m.entered pid r).core := .of_eq rfl rfl rfl
  have hcurrent' : (m.entered pid r).core.current = some pid := hcurrent
  refine ensures_bind (yields_dispatch (htame.sized hsized) hcurrent' hblocking) ?_
  rintro value ⟨hyields, -⟩
  refine ensures_ok.mpr fun houtcome => ?_
  have hres : value.2.2 = failure esuspend := by
    simp only [conclude] at houtcome
    split at houtcome
    · exact houtcome
    · exact houtcome
  have hfield : ∀ {A : Type} (field : Process → A),
      (∀ proc : Process, field { proc with inSyscall := r.eax.toNat } = field proc) →
      ∀ other, field ((m.entered pid r).core.processes other) = field (m.core.processes other) :=
    fun field => modify_field m.core pid field
  have hsame : readyPids (m.entered pid r).core = readyPids m.core :=
    readyPids_congr (hfield (fun proc => proc.existing && !proc.exited) fun _ => rfl)
      (hfield Process.ready fun _ => rfl)
  rw [after_suspended m pid r _ hres, ← hsame]
  refine readyPids_lt hyields hres ?_ ?_
  · exact (hfield (fun proc => proc.existing && !proc.exited) (fun _ => rfl) pid).trans hlive
  · exact (hfield Process.ready (fun _ => rfl) pid).trans hready

/-! ## Switches -/

def Activity.isSwitching : Activity → Bool
  | .switching _ => true
  | _ => false

/-- The number of activations of `context_switch`; each is nested in the one before. -/
def activations (log : List Activity) : ℕ := log.countP Activity.isSwitching

/-- A field other than the saved registers is not changed by saving registers. -/
theorem field_saveRegs {A : Type} (m : Machine) (r : Regs) (field : Process → A)
    (hfield : ∀ proc : Process, field { proc with savedRegs := r } = field proc) (other : Pid) :
    field ((m.saveRegs r).core.processes other) = field (m.core.processes other) := by
  rw [saveRegs]
  split
  · exact modify_field m.core _ field hfield other
  · rfl

theorem prompt_saveRegs (hprompt : Prompt m.core) (r : Regs) : Prompt (m.saveRegs r).core :=
  fun other => (field_saveRegs m r PromptProcess (fun _ => rfl) other).mpr (hprompt other)

theorem readyPids_saveRegs (m : Machine) (r : Regs) :
    readyPids (m.saveRegs r).core = readyPids m.core :=
  readyPids_congr (field_saveRegs m r (fun proc => proc.existing && !proc.exited) fun _ => rfl)
    (field_saveRegs m r Process.ready fun _ => rfl)

theorem Blocking.honest (hblocking : Blocking r.eax.toNat) :
    r.eax.toNat ≠ Call.kill.number ∧ ¬ Feigns r := by
  obtain ⟨call, hcall, hnumber⟩ := hblocking
  have hnumbers : ∀ call ∈ blockingCalls, call.number ≠ Call.kill.number ∧
      call.number ≠ Call.getcwd.number := by decide
  obtain ⟨hkill, hgetcwd⟩ := hnumbers call hcall
  rw [hnumber]
  exact ⟨hkill, fun hfeigns => hgetcwd (hnumber.symm.trans hfeigns.1)⟩

/-- The nesting stays within the number of ready processes, plus one. -/
theorem contextSwitch_nests (depth : ℕ) (hleaving : Leaving Policy.lax m r wait)
    (hprompt : Prompt m.core) (hsized : m.core.Sized) :
    Ensures (fun fault => (readyPids m.core).card < depth → Nested fault)
        (contextSwitch depth m r) (fun result => Prompt result.1.core) ∧
      activations (switchLog depth m r) ≤ (readyPids m.core).card + 1 := by
  induction depth generalizing m r wait with
  | zero => exact ⟨ensures_error.mpr fun h => absurd h (Nat.not_lt_zero _), Nat.zero_le _⟩
  | succ depth ih =>
      have hsaved := prompt_saveRegs hprompt r
      have hone : ∀ log : List Activity, activations log = 0 →
          activations (.switching m.core.current :: log) ≤ (readyPids m.core).card + 1 := by
        intro log hlog
        simp only [activations, List.countP_cons, Activity.isSwitching, if_true] at hlog ⊢
        omega
      rw [contextSwitch, switchLog]
      cases hnext : (m.saveRegs r).core.selectNext with
      | none => exact ⟨ensures_ok.mpr hsaved, hone _ rfl⟩
      | some next =>
        obtain ⟨hsane, hlive, hawake, hpending⟩ := contextSwitch_cases hleaving hnext
        dsimp only
        by_cases hbusy : (((m.saveRegs r).activate next).core.processes next).inSyscall ≠ 0
        · rw [if_pos hbusy, if_pos hbusy]
          obtain ⟨hnumber, -⟩ := hpending hbusy
          have hblocking := (hsaved next hlive).1 hbusy
          rw [show ((m.saveRegs r).core.processes next).inSyscall = _ from hnumber.symm]
            at hblocking
          obtain ⟨hkill, hhonest⟩ := hblocking.honest
          have hready := (hsane.inv.waits.ready next hlive).mpr hawake
          have hsized' := (tame_saveRegs m r).sized hsized
          have hpass := ensures_and (pass_shrinks (m := (m.saveRegs r).activate next) rfl hlive
            hready ⟨hsized'.pipes, hsized'.files⟩ hblocking)
            (prompt_pass hsane rfl hlive hawake rfl hsaved ⟨hsized'.pipes, hsized'.files⟩ hkill
              hhonest)
          have hcount : readyPids ((m.saveRegs r).activate next).core = readyPids m.core :=
            readyPids_saveRegs m r
          rw [syscall_eq_pass, callLog]
          cases hpassage : ((m.saveRegs r).activate next).pass
              ((m.saveRegs r).core.processes next).savedRegs with
          | error fault =>
              rw [hpassage, ensures_error] at hpass
              exact ⟨ensures_error.mpr fun _ => hpass, hone _ rfl⟩
          | ok passage =>
              rw [hpassage, ensures_ok] at hpass
              obtain ⟨hshrinks, hpassed, hprompt', hsized''⟩ := hpass
              simp only [ok_bind]
              cases hswitches : passage.switches with
              | false => exact ⟨ensures_ok.mpr hprompt', hone _ rfl⟩
              | true =>
                have hless := hshrinks (hpassed.suspended.mp hswitches)
                rw [hcount] at hless
                obtain ⟨wait', hleaving'⟩ := hpassed.switching hswitches
                obtain ⟨hswitch, hcounted⟩ := ih hleaving' hprompt' hsized''
                refine ⟨ensures_mono hswitch (fun fault hfuel hdepth => hfuel (by omega))
                  fun _ h => h, ?_⟩
                have hlog : activations (.switching m.core.current :: .scheduled next ::
                    .passed passage :: switchLog depth passage.after passage.result) =
                    activations (switchLog depth passage.after passage.result) + 1 := by
                  simp [activations, List.countP_cons, Activity.isSwitching]
                simp only [if_true]
                omega
        · rw [if_neg hbusy, if_neg hbusy]
          exact ⟨ensures_ok.mpr hsaved, hone _ rfl⟩

/-! ## Runs -/

/-- The event is no call of `kill`, and no call of `getcwd` that returns `-ESUSPEND`. -/
def Sober (_ : Machine) : Event → Prop
  | .trap r => r.eax.toNat ≠ Call.kill.number ∧ ¬ Feigns r
  | _ => True

theorem Sober.safely {event : Event} (hsober : Sober m event) : KillingSafely m event := by
  cases event with
  | trap r => exact fun hkill => absurd hkill hsober.1
  | _ => trivial

theorem prompt_startProcess (hprompt : Prompt m.core) (startAddress : Word) :
    Ensures anyFault (m.startProcess startAddress) fun value => Prompt value.1.core := by
  rw [startProcess]
  split
  · exact ensures_ok.mpr hprompt
  next pid _ =>
    have hspace : Ensures anyFault (m.startSpace pid) fun m' => m'.core = m.core :=
      ensures_bind (ensures_any _) fun _ _ => ensures_bind (ensures_any _) fun _ _ =>
        ensures_bind (ensures_any _) fun _ _ => ensures_bind (ensures_any _) fun _ _ =>
        ensures_ok.mpr rfl
    refine ensures_bind hspace fun m' hcore => ?_
    refine ensures_bind (untried_startProcess m'.core pid _ _) fun core hborn => ensures_ok.mpr ?_
    rw [hcore] at hborn
    refine hprompt.of_aloof hborn.1 ?_
    rintro _ ⟨⟩
    exact .of_untried hborn.2

theorem prompt_kmain (image : Image) (phys : Memory) (junk : Block → Memory) :
    Ensures anyFault (kmain image phys junk) fun m => Prompt m.core := by
  have hinitial : Prompt (initial image phys junk).core := fun _ h => by cases h
  exact ensures_kmain (prompt_startProcess hinitial image.launchShell) fun _ _ hprompt => hprompt

/-- Where the handling of an event gets in a sober run. -/
def Controlled : Stop → Prop
  | .finished m => Prompt m.core
  | .switching m r => (∃ wait, Leaving Policy.lax m r wait) ∧ Prompt m.core ∧ m.core.Sized

theorem controlled_trap (hsettled : Settled Policy.lax m wait) (hprompt : Prompt m.core)
    (hsized : m.core.Sized) (hsober : Sober m (.trap r)) :
    Ensures anyFault (m.upToSwitch (.trap r)) Controlled := by
  rw [upToSwitch]
  cases hcurrent : m.core.current with
  | none =>
      rw [pass, hcurrent]
      exact ensures_error.mpr trivial
  | some pid =>
      have hpass := prompt_pass (hsettled.sane r) hcurrent (hsettled.live pid hcurrent)
        (hsettled.awake pid hcurrent) (hsettled.cr3 pid hcurrent) hprompt hsized hsober.1 hsober.2
      refine ensures_bind hpass fun passage hdone => ensures_ok.mpr ?_
      obtain ⟨hpassed, hprompt', hsized'⟩ := hdone
      rw [Passage.stop]
      split
      next hswitches => exact ⟨hpassed.switching hswitches, hprompt', hsized'⟩
      next => exact hprompt'

theorem controlled_keyboard (hsettled : Settled Policy.lax m wait) (hprompt : Prompt m.core)
    (hsized : m.core.Sized) (byte : UInt8) :
    Ensures anyFault (m.upToSwitch (.keyboard byte r)) Controlled := by
  rw [upToSwitch]
  refine ensures_bind (ensures_and (aloof_keyboardHandler m byte) (ensures_and
    (sizing_keyboardHandler m byte) (keyboardHandler_spec hsettled byte))) fun m₀ hdone =>
      ensures_ok.mpr ?_
  obtain ⟨haloof₀, hsizing, wait₀, hsettled₀⟩ := hdone
  exact ⟨⟨wait₀, hsettled₀.leaving r⟩, hprompt.aloof haloof₀, hsizing hsized⟩

/-- What an exception leaves when it has killed the running process. -/
structure KilledRunning (m : Machine) (pid : Pid) (r : Regs) (m' : Machine) : Prop where
  aloof : Aloof (some pid) m.core m'.core
  dead : m'.core.isLive pid = false
  tame : Tame m.core m'.core
  idle : ∀ other, m'.core.current ≠ some other
  leaving : ∃ wait, Leaving Policy.lax m' r wait

theorem killRunning_spec (hsettled : Settled Policy.lax m wait)
    (hcurrent : m.core.current = some pid) (r : Regs) :
    Ensures anyFault (m.killProcess pid) (KilledRunning m pid r) := by
  have hlive := hsettled.live pid hcurrent
  have hawake := hsettled.awake pid hcurrent
  have hkill := killProcess_spec (hsettled.sane r) hcurrent hlive hawake
    (killable_of_awake hlive hawake) fun h => h.elim
  refine ensures_weaken (ensures_and (aloof_killProcess m pid)
    (ensures_and (silent_killProcess m pid) hkill)) fun m' hdone => ?_
  obtain ⟨⟨haloof, hdead⟩, htame, wait', hsane, ⟨-, hnone⟩ | ⟨hne, -⟩⟩ := hdone
  · have hidle : ∀ other, m'.core.current ≠ some other := fun _ h => by
      cases hnone.symm.trans h
    exact ⟨haloof, hdead, htame, hidle, wait', hsane, fun other h => absurd h (hidle other),
      fun other h => absurd h (hidle other)⟩
  · exact absurd rfl hne

theorem controlled_exception (hsettled : Settled Policy.lax m wait) (hprompt : Prompt m.core)
    (hsized : m.core.Sized) (number : ℕ) :
    Ensures anyFault (m.upToSwitch (.exception number r)) Controlled := by
  have hunhandled : Ensures anyFault (m.unhandled number) fun m' => Prompt m'.core := by
    rw [unhandled]
    split
    · exact ensures_error.mpr trivial
    · exact ensures_ok.mpr hprompt
  rw [upToSwitch]
  split
  next pid hcurrent =>
    split
    · refine ensures_bind (killRunning_spec hsettled hcurrent r) fun m₀ hkilled =>
        ensures_ok.mpr ⟨hkilled.leaving, hprompt.of_aloof hkilled.aloof ?_,
          hkilled.tame.sized hsized⟩
      rintro _ ⟨⟩ hlive'
      cases hkilled.dead.symm.trans hlive'
    · exact ensures_bind hunhandled fun _ h => ensures_ok.mpr h
  next => exact ensures_bind hunhandled fun _ h => ensures_ok.mpr h

theorem upToSwitch_controlled (hsettled : Settled Policy.lax m wait) (hprompt : Prompt m.core)
    (hsized : m.core.Sized) {event : Event} (hsober : Sober m event) :
    Ensures anyFault (m.upToSwitch event) Controlled := by
  cases event with
  | startProcess startAddress =>
      exact ensures_bind (prompt_startProcess hprompt startAddress) fun _ h => ensures_ok.mpr h
  | userStore address byte =>
      rw [upToSwitch, handle]
      split
      · exact ensures_ok.mpr hprompt
      · exact ensures_ok.mpr hprompt
  | timer r => exact ensures_ok.mpr ⟨⟨wait, hsettled.leaving r⟩, hprompt, hsized⟩
  | keyboard byte r => exact controlled_keyboard hsettled hprompt hsized byte
  | trap r => exact controlled_trap hsettled hprompt hsized hsober
  | exception number r => exact controlled_exception hsettled hprompt hsized number

variable {image : Image} {phys : Memory} {junk : Block → Memory}

theorem Reachable.sober_safely (hreachable : Reachable Sober image phys junk m) :
    Reachable KillingSafely image phys junk m :=
  hreachable.mono fun _ _ => Sober.safely

/-- In every state of a sober run, pending calls are calls that suspend. -/
theorem Reachable.prompt (hreachable : Reachable Sober image phys junk m) : Prompt m.core := by
  induction hreachable with
  | boot hboot =>
      have hspec := prompt_kmain image phys junk
      rwa [hboot, ensures_ok] at hspec
  | @step m m' event depth hreachable hsober hhandle ih =>
      obtain ⟨wait, hsettled⟩ := hreachable.sober_safely.lax
      rw [handle_eq_proceed, bind_eq_ok] at hhandle
      obtain ⟨stop, hstop, hproceed⟩ := hhandle
      have hcontrolled := upToSwitch_controlled hsettled ih hreachable.sized hsober
      rw [hstop, ensures_ok] at hcontrolled
      cases stop with
      | finished m₀ =>
          obtain rfl : m₀ = m' := by simpa [proceed] using hproceed
          exact hcontrolled
      | switching m₀ r₀ =>
          obtain ⟨⟨wait₀, hleaving⟩, hprompt₀, hsized₀⟩ := hcontrolled
          have hspec := (contextSwitch_nests depth hleaving hprompt₀ hsized₀).1
          simp only [proceed] at hproceed
          cases hswitch : contextSwitch depth m₀ r₀ with
          | error fault =>
              rw [hswitch] at hproceed
              cases hproceed
          | ok result =>
              rw [hswitch] at hproceed
              rw [hswitch, ensures_ok] at hspec
              obtain rfl : result.1 = m' := by simpa using hproceed
              exact hspec

/-! ## The bound -/

/-- The running process is the only one on the ready list. -/
structure Alone (c : Core) (pid : Pid) : Prop where
  current : c.current = some pid
  ready : (c.processes pid).ready = true
  next : (c.processes pid).next = none
  first : (c.queue .ready).first = some pid

end Machine

end Rhythmos.Kernel
