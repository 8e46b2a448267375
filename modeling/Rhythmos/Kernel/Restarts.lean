import Rhythmos.Kernel.Nesting

/-!
# Suspended calls restart transparently

A call that suspends its caller is executed again whenever the caller is selected, by
`context_switch` and `syscall` calling each other on one register frame.  The log of a run
determines an account for each process: the registers of its latest trap, the outcome of
its latest completed call, and whether it is suspended in one.  The kernel's data agree
with the accounts between any two entries of the log.
-/

namespace Rhythmos.Kernel

open Fallible ByteMemory Libc

namespace Machine

open Rhythmos.Kernel.Core

variable {m : Machine} {r : Regs} {wait : Pid → Wait} {pid other : Pid}
variable {log : List Activity}

/-! ## Accounts -/

/-- What the log says about a process. -/
structure Account where
  /-- the registers of its latest system call -/
  trap : Option Regs
  /-- the outcome of its latest completed call other than `geterrno` -/
  outcome : Option Word
  /-- it was suspended by the latest execution of a call -/
  suspended : Bool

/-- The account of a new process. -/
def Account.blank : Account := ⟨none, none, false⟩

/-- The error code of the latest completed call. -/
def Account.errno (account : Account) : ℤ := (account.outcome.map errnoOf).getD 0

instance (r : Regs) (res : Word) (child : Pid) : Decidable (Creates r res child) :=
  inferInstanceAs (Decidable (_ ∧ _))

instance (number : ℕ) : Decidable (Blocking number) :=
  inferInstanceAs (Decidable (∃ call ∈ blockingCalls, number = call.number))

/-- The account of the caller after a passage. -/
def Account.passed (account : Account) (passage : Passage) : Account :=
  if passage.outcome = failure esuspend then
    { account with suspended := decide (Blocking passage.frame.eax.toNat) }
  else if passage.frame.eax.toNat = Call.geterrno.number then { account with suspended := false }
  else { account with outcome := some passage.outcome, suspended := false }

/-- What an entry of the log adds to the account of `pid`. -/
def Account.note (pid : Pid) (account : Account) : Activity → Account
  | .started born => if born = pid then .blank else account
  | .trapped caller r => if caller = pid then { account with trap := some r } else account
  | .switching _ => account
  | .scheduled _ => account
  | .passed passage =>
      if Creates passage.frame passage.outcome pid then .blank
      else if passage.pid = pid then account.passed passage
      else account

def accountOf (log : List Activity) (pid : Pid) : Account := log.foldl (Account.note pid) .blank

@[simp]
theorem accountOf_append (log : List Activity) (activity : Activity) (pid : Pid) :
    accountOf (log ++ [activity]) pid = (accountOf log pid).note pid activity := by
  simp [accountOf]

/-! ## Restarts -/

/-- The call is over: only `eax` differs from the registers of the trap, the error number is
the caller's own, and nothing happened to the registers and error numbers of others. -/
structure Completes (passage : Passage) : Prop where
  returns : passage.switches = false ∧ passage.after.core.current = some passage.pid
  result : passage.result = { passage.frame with
    eax := if passage.outcome.toInt < 0 then -1 else passage.outcome }
  errno : (passage.after.core.processes passage.pid).lastErrno =
    if passage.outcome.toInt < 0 then -passage.outcome.toInt else 0
  others : ∀ other, other ≠ passage.pid →
    (passage.after.core.processes other).savedRegs =
        (passage.before.core.processes other).savedRegs ∧
      (passage.after.core.processes other).lastErrno =
        (passage.before.core.processes other).lastErrno

/-- A passage agrees with the account of its caller. -/
structure Transparent (account : Account) (passage : Passage) : Prop where
  /-- the call is executed with the registers of the trap -/
  frame : account.trap = some passage.frame
  current : passage.before.core.current = some passage.pid
  /-- the page directory of the caller is in use -/
  directory : passage.before.cr3 = some (passage.before.spaces passage.pid).pdir
  completes : Blocking passage.frame.eax.toNat → passage.outcome ≠ failure esuspend →
    Completes passage
  /-- `geterrno` reports the error code of the latest completed call -/
  geterrno : passage.frame.eax.toNat = Call.geterrno.number →
    passage.switches = false ∧ passage.after.core.current = some passage.pid ∧
      passage.result = { passage.frame with eax := BitVec.ofInt 32 account.errno }

/-- An entry of the log agrees with the accounts after the entries before it; a suspended
process that is selected executes its call. -/
def Proper (earlier : List Activity) (later : List Activity) : Activity → Prop
  | .scheduled pid => (accountOf earlier pid).suspended = true →
      ∃ passage rest, later = .passed passage :: rest ∧ passage.pid = pid
  | .passed passage => Transparent (accountOf earlier passage.pid) passage
  | _ => True

/-- Every entry is proper. -/
def Restarted (log segment : List Activity) : Prop :=
  ∀ earlier activity later, segment = earlier ++ activity :: later →
    Proper (log ++ earlier) later activity

theorem restarted_nil (log : List Activity) : Restarted log [] := by
  intro earlier activity later hsplit
  simp at hsplit

theorem restarted_cons {segment : List Activity} {activity : Activity}
    (hfirst : Proper log segment activity) (hrest : Restarted (log ++ [activity]) segment) :
    Restarted log (activity :: segment) := by
  intro earlier entry later hsplit
  cases earlier with
  | nil =>
      obtain ⟨rfl, rfl⟩ : activity = entry ∧ segment = later := by simpa using hsplit
      simpa using hfirst
  | cons head earlier =>
      obtain ⟨rfl, htail⟩ : activity = head ∧ segment = earlier ++ entry :: later := by
        simpa using hsplit
      simpa using hrest earlier entry later htail

theorem Proper.append {earlier later : List Activity} {activity : Activity}
    (hproper : Proper earlier later activity) (segment : List Activity) :
    Proper earlier (later ++ segment) activity := by
  cases activity with
  | scheduled pid =>
      intro hsuspended
      obtain ⟨passage, rest, rfl, hpid⟩ := hproper hsuspended
      exact ⟨passage, rest ++ segment, rfl, hpid⟩
  | _ => exact hproper

theorem restarted_append {segment segment' : List Activity} (hfirst : Restarted log segment)
    (hsecond : Restarted (log ++ segment) segment') : Restarted log (segment ++ segment') := by
  intro earlier activity later hsplit
  rcases List.append_eq_append_iff.mp hsplit with ⟨middle, rfl, hlater⟩ | ⟨middle, rfl, hlater⟩
  · rw [← List.append_assoc]
    exact hsecond middle activity later hlater
  · cases middle with
    | nil =>
        rw [List.append_nil] at hsecond
        have hproper := hsecond [] activity later hlater.symm
        simpa using hproper
    | cons head middle =>
        obtain ⟨rfl, rfl⟩ : activity = head ∧ later = middle ++ segment' := by
          simpa using hlater
        exact (hfirst earlier activity middle rfl).append segment'

/-! ## The process table agrees with the accounts -/

/-- A slot of the process table agrees with an account, if `frame` are the registers of the
process. -/
structure Agrees (account : Account) (proc : Process) (frame : Regs) : Prop where
  errno : (proc.existing && !proc.exited) = true → proc.lastErrno = account.errno
  trap : (proc.existing && !proc.exited) = true → proc.inSyscall ≠ 0 → account.trap = some frame
  suspended : account.suspended = true →
    (proc.existing && !proc.exited) = true ∧ proc.inSyscall ≠ 0

theorem Agrees.congr {account : Account} {proc proc' : Process} {frame frame' : Regs}
    (hagrees : Agrees account proc frame) (htrapped : proc'.trapped = proc.trapped)
    (hframe : proc.inSyscall ≠ 0 → frame' = frame) : Agrees account proc' frame' := by
  simp only [Process.trapped, Prod.mk.injEq] at htrapped
  obtain ⟨-, herrno, hcall, hlive⟩ := htrapped
  refine ⟨?_, ?_, ?_⟩
  · rw [hlive, herrno]
    exact hagrees.errno
  · rw [hlive, hcall]
    intro halive hbusy
    rw [hframe hbusy]
    exact hagrees.trap halive hbusy
  · rw [hlive, hcall]
    exact hagrees.suspended

theorem agrees_blank {proc : Process} (herrno : proc.lastErrno = 0) (hcall : proc.inSyscall = 0)
    (frame : Regs) : Agrees .blank proc frame :=
  ⟨fun _ => herrno, fun _ h => absurd hcall h, fun h => by cases h⟩

/-- A process that is dead agrees with any account that does not call it suspended. -/
theorem agrees_dead {account : Account} {proc : Process}
    (hdead : (proc.existing && !proc.exited) = false) (hsuspended : account.suspended = false)
    (frame : Regs) : Agrees account proc frame :=
  ⟨fun h => (by cases hdead.symm.trans h), fun h => (by cases hdead.symm.trans h),
    fun h => (by cases hsuspended.symm.trans h)⟩

/-- The registers of a process, where `r` are those of the running one. -/
def frameOf (c : Core) (r : Regs) (pid : Pid) : Regs :=
  if c.current = some pid then r else (c.processes pid).savedRegs

/-- All processes agree with their accounts. -/
def Kept (log : List Activity) (c : Core) (r : Regs) : Prop :=
  ∀ pid, Agrees (accountOf log pid) (c.processes pid) (frameOf c r pid)

/-- The running process is inside no call. -/
def Idle (c : Core) : Prop := ∀ pid, c.current = some pid → (c.processes pid).inSyscall = 0

theorem frameOf_idle {c : Core} (hidle : Idle c) (hbusy : (c.processes pid).inSyscall ≠ 0)
    (r : Regs) : frameOf c r pid = (c.processes pid).savedRegs :=
  if_neg fun hcurrent => hbusy (hidle pid hcurrent)

/-- A process that an event does not concern still agrees with its account. -/
theorem Agrees.of_aloof {account : Account} {who : Option Pid} {c c' : Core}
    (hagrees : Agrees account (c.processes pid) (frameOf c r pid)) (haloof : Aloof who c c')
    (hpid : who ≠ some pid) (hidle : Idle c) (hidle' : Idle c') (r' : Regs) :
    Agrees account (c'.processes pid) (frameOf c' r' pid) := by
  have htrapped := haloof pid hpid
  have hfields := htrapped
  simp only [Process.trapped, Prod.mk.injEq] at hfields
  obtain ⟨hregs, -, hcall, -⟩ := hfields
  refine hagrees.congr htrapped fun hbusy => ?_
  rw [frameOf_idle hidle hbusy, frameOf_idle hidle' (hcall ▸ hbusy), hregs]

theorem Kept.of_aloof {c c' : Core} (hkept : Kept log c r) (haloof : Aloof none c c')
    (hidle : Idle c) (hidle' : Idle c') (r' : Regs) : Kept log c' r' :=
  fun pid => Agrees.of_aloof (hkept pid) haloof (by simp) hidle hidle' r'

theorem Kept.reframe {c : Core} (hkept : Kept log c r) (hidle : Idle c) (r' : Regs) :
    Kept log c r' :=
  hkept.of_aloof (.refl c) hidle hidle r'

/-! ## Passages -/

theorem conclude_fields (m : Machine) (pid : Pid) (r : Regs) (value : Machine × Regs × Word) :
    (m.conclude pid r value).pid = pid ∧ (m.conclude pid r value).before = m ∧
      (m.conclude pid r value).frame = r ∧ (m.conclude pid r value).outcome = value.2.2 := by
  rw [conclude]
  dsimp only
  split <;> exact ⟨rfl, rfl, rfl, rfl⟩

theorem result_suspended (m : Machine) (pid : Pid) (r : Regs) (value : Machine × Regs × Word)
    (hres : value.2.2 = failure esuspend) : (m.conclude pid r value).result = value.2.1 := by
  have hstored := (storeErrno_esuspend value.1 r.eax.toNat value.2.2).mpr hres
  simp only [conclude]
  rw [if_pos hstored]

theorem result_over (m : Machine) (r : Regs) (value : Machine × Regs × Word)
    (hcurrent : value.1.core.current = some pid) (hres : value.2.2 ≠ failure esuspend) :
    (m.conclude pid r value).switches = false ∧
      (m.conclude pid r value).result = { value.2.1 with
        eax := if r.eax.toNat = Call.geterrno.number then value.2.2
          else if value.2.2.toInt < 0 then -1 else value.2.2 } := by
  have hstill : (value.1.storeErrno r.eax.toNat value.2.2).2 ≠ failure esuspend := fun h =>
    hres ((storeErrno_esuspend _ _ _).mp h)
  have hword : (value.1.storeErrno r.eax.toNat value.2.2).2 =
      if r.eax.toNat = Call.geterrno.number then value.2.2
        else if value.2.2.toInt < 0 then -1 else value.2.2 := by
    simp only [storeErrno, hcurrent, hres, or_false]
    split
    · rfl
    · split <;> rfl
  have hstays : (value.1.storeErrno r.eax.toNat value.2.2).1.core.current = some pid := by
    rw [storeErrno_over hcurrent hres]
    exact hcurrent
  rw [conclude]
  dsimp only
  rw [if_neg hstill, ← hword]
  exact ⟨decide_eq_false fun hleft => hleft hstays, rfl⟩

/-- A call that suspends its caller leaves the registers alone. -/
theorem frame_dispatch (m : Machine) (pid : Pid) (r : Regs) :
    Ensures anyFault (m.dispatch pid r) fun value =>
      value.2.2 = failure esuspend → value.2.1 = r := by
  have hkeep : ∀ outcome, Ensures anyFault (keepRegs r outcome) fun value =>
      value.2.2 = failure esuspend → value.2.1 = r :=
    fun outcome => ensures_bind (ensures_any _) fun _ _ => ensures_ok.mpr fun _ => rfl
  have hexecve : Ensures anyFault (m.syscallExecve pid (r.args 0) (r.args 1) r) fun value =>
      value.2.2 = failure esuspend → value.2.1 = r := by
    refine ensures_bind (ensures_any _) fun text _ => ?_
    cases text with
    | none => exact ensures_ok.mpr fun _ => rfl
    | some path =>
        refine ensures_bind (ensures_any _) fun args _ => ?_
        cases args with
        | none => exact ensures_ok.mpr fun _ => rfl
        | some args =>
            dsimp only
            split
            · exact ensures_ok.mpr fun _ => rfl
            · split
              · exact ensures_ok.mpr fun _ => rfl
              · split
                · exact ensures_error.mpr trivial
                · exact ensures_bind (ensures_any _) fun _ _ => ensures_bind (ensures_any _)
                    fun _ _ => ensures_bind (ensures_any _) fun _ _ =>
                    ensures_ok.mpr fun h => absurd h zero_ne
  rw [dispatch]
  split
  · exact ensures_ok.mpr fun _ => rfl
  next call _ =>
    cases call with
    | getpid => exact ensures_ok.mpr fun _ => rfl
    | geterrno => exact ensures_ok.mpr fun _ => rfl
    | execve => exact hexecve
    | halt => exact ensures_error.mpr trivial
    | _ => exact hkeep _

theorem creates_unique {res : Word} {child child' : Pid} (hcreates : Creates r res child)
    (hcreates' : Creates r res child') : child = child' := by
  have hsame := congrArg BitVec.toNat (hcreates.2.symm.trans hcreates'.2)
  rw [BitVec.toNat_ofNat, BitVec.toNat_ofNat] at hsame
  have hbound := child.isLt
  have hbound' := child'.isLt
  apply Fin.ext
  omega

theorem creates_ne_esuspend {res : Word} {child : Pid} (hcreates : Creates r res child) :
    res ≠ failure esuspend := by
  rw [hcreates.2]
  apply ofNat_ne_esuspend
  have hbound := child.isLt
  simp only [wordCount]
  omega

theorem creates_not_exit {res : Word} {child : Pid} (hcreates : Creates r res child) :
    r.eax.toNat ≠ Call.exit.number := by
  have hnumber := hcreates.1
  simp only [Call.number] at hnumber ⊢
  omega

/-- What the handler of a call does to the other processes agrees with what the passage adds
to their accounts. -/
theorem agrees_others {passage : Passage} {value : Machine × Regs × Word}
    (haffected : Affected (m.entered pid r) pid r value) (hcaller : passage.pid = pid)
    (hframe : passage.frame = r) (houtcome : passage.outcome = value.2.2)
    (hcurrent : m.core.current = some pid) (hother : other ≠ pid)
    (hagrees : Agrees (accountOf log other) (m.core.processes other) (frameOf m.core r other)) :
    Agrees ((accountOf log other).note other (.passed passage)) (value.1.core.processes other)
      (value.1.core.processes other).savedRegs := by
  have hentered : (m.entered pid r).core.processes other = m.core.processes other := by
    simp [entered, setCore, hother]
  have hsaved : frameOf m.core r other = (m.core.processes other).savedRegs :=
    if_neg fun h => hother (Option.some_injective _ (hcurrent.symm.trans h)).symm
  -- a process that the call does not concern
  have haloof : (value.1.core.processes other).trapped =
        ((m.entered pid r).core.processes other).trapped → ¬ Creates r value.2.2 other →
      Agrees ((accountOf log other).note other (.passed passage)) (value.1.core.processes other)
        (value.1.core.processes other).savedRegs := by
    intro htrapped hcreates
    rw [Account.note, hframe, houtcome, if_neg hcreates, hcaller, if_neg (Ne.symm hother)]
    rw [hentered] at htrapped
    refine hagrees.congr htrapped fun _ => ?_
    rw [hsaved]
    simp only [Process.trapped, Prod.mk.injEq] at htrapped
    exact htrapped.1
  cases haffected with
  | nobody _ hnobody hcreates => exact haloof (hnobody other (by simp)) (hcreates other)
  | exited hexit hself _ _ =>
      refine haloof (hself other fun h => hother ?_) fun h => creates_not_exit h hexit
      exact (Option.some_injective _ h).symm
  | created child _ hcreates hself huntried =>
      by_cases hchild : other = child
      · subst hchild
        rw [Account.note, hframe, houtcome, if_pos hcreates]
        exact agrees_blank huntried.1 huntried.2 _
      · refine haloof (hself other fun h => hchild ?_) fun h => hchild (creates_unique h hcreates)
        exact (Option.some_injective _ h).symm

/-- The caller of a call other than `exit` is not concerned by it. -/
theorem trapped_caller {value : Machine × Regs × Word} {core : Core}
    (haffected : Affected (m.setCore core) pid r value) (hexit : r.eax.toNat ≠ Call.exit.number)
    (hlive : core.isLive pid = true) :
    (value.1.core.processes pid).trapped = (core.processes pid).trapped ∧
      ¬ Creates r value.2.2 pid := by
  cases haffected with
  | nobody _ hnobody hcreates => exact ⟨hnobody pid (by simp), hcreates pid⟩
  | exited h _ _ _ => exact absurd h hexit
  | created child hfree hcreates hself _ =>
      have hne : child ≠ pid := by
        rintro rfl
        have hvacant := (getFreePid_spec hfree).2
        simp only [setCore] at hvacant
        simp [isLive, hvacant] at hlive
      refine ⟨hself pid fun h => hne (Option.some_injective _ h), ?_⟩
      exact fun h => hne (creates_unique hcreates h)

theorem Blocking.ne {number : ℕ} (hblocking : Blocking number) :
    number ≠ 0 ∧ number ≠ Call.exit.number ∧ number ≠ Call.geterrno.number := by
  obtain ⟨call, hcall, rfl⟩ := hblocking
  have hnumbers : ∀ call ∈ blockingCalls, call.number ≠ 0 ∧ call.number ≠ Call.exit.number ∧
      call.number ≠ Call.geterrno.number := by decide
  exact hnumbers call hcall

theorem entered_trapped (m : Machine) (pid : Pid) (r : Regs) :
    ((m.entered pid r).core.processes pid).trapped =
      ((m.core.processes pid).savedRegs, (m.core.processes pid).lastErrno, r.eax.toNat,
        m.core.isLive pid) := by
  simp [entered, setCore, Process.trapped, isLive]

theorem live_entered (m : Machine) (pid : Pid) (r : Regs) :
    (m.entered pid r).core.isLive pid = m.core.isLive pid := by
  simp [entered, setCore, isLive]

/-- The caller after a call in which it was suspended or killed. -/
theorem agrees_suspended {account : Account} {value : Machine × Regs × Word} {frame : Regs}
    (haffected : Affected (m.entered pid r) pid r value) (hres : value.2.2 = failure esuspend)
    (hlive : m.core.isLive pid = true) (htrap : account.trap = some r)
    (herrno : (m.core.processes pid).lastErrno = account.errno)
    (hkeeps : r.eax.toNat ≠ Call.exit.number → frame = r) :
    Agrees (account.note pid (.passed (m.conclude pid r value))) (value.1.core.processes pid)
      frame := by
  obtain ⟨hcaller, -, hframe, houtcome⟩ := conclude_fields m pid r value
  have hnote : account.note pid (.passed (m.conclude pid r value)) =
      { account with suspended := decide (Blocking r.eax.toNat) } := by
    rw [Account.note, hframe, houtcome, if_neg fun h => creates_ne_esuspend h hres, hcaller,
      if_pos rfl, Account.passed, hframe, houtcome, if_pos hres]
  rw [hnote]
  by_cases hexit : r.eax.toNat = Call.exit.number
  · refine agrees_dead ?_ (decide_eq_false fun h => h.ne.2.1 hexit) frame
    cases haffected with
    | nobody h _ _ => exact absurd hexit h
    | created child _ hcreates _ _ => exact absurd hexit (creates_not_exit hcreates)
    | exited _ _ hdead _ => exact hdead
  · obtain ⟨htrapped, -⟩ := trapped_caller haffected hexit ((live_entered m pid r).trans hlive)
    have hcallee := htrapped.trans (entered_trapped m pid r)
    simp only [Process.trapped, Prod.mk.injEq] at hcallee
    obtain ⟨-, herrno', hcall, halive⟩ := hcallee
    rw [hkeeps hexit]
    refine ⟨fun _ => herrno'.trans herrno, fun _ _ => htrap, fun hsuspended => ?_⟩
    rw [halive, hcall]
    exact ⟨hlive, (of_decide_eq_true hsuspended).ne.1⟩

/-- The caller after a call that is over. -/
theorem agrees_over {account : Account} {value : Machine × Regs × Word} (frame : Regs)
    (haffected : Affected (m.entered pid r) pid r value) (hres : value.2.2 ≠ failure esuspend)
    (hcurrent : value.1.core.current = some pid) (hlive : m.core.isLive pid = true)
    (herrno : (m.core.processes pid).lastErrno = account.errno) :
    Agrees (account.note pid (.passed (m.conclude pid r value)))
      ((m.conclude pid r value).after.core.processes pid) frame := by
  obtain ⟨hcaller, -, hframe, houtcome⟩ := conclude_fields m pid r value
  have hexit : r.eax.toNat ≠ Call.exit.number := by
    intro hexit
    cases haffected with
    | nobody h _ _ => exact h hexit
    | created child _ hcreates _ _ => exact creates_not_exit hcreates hexit
    | exited _ _ _ h => exact hres h
  obtain ⟨htrapped, hcreates⟩ := trapped_caller haffected hexit
    ((live_entered m pid r).trans hlive)
  have hcallee := htrapped.trans (entered_trapped m pid r)
  simp only [Process.trapped, Prod.mk.injEq] at hcallee
  obtain ⟨-, herrno', -, -⟩ := hcallee
  have hnote : account.note pid (.passed (m.conclude pid r value)) =
      account.passed (m.conclude pid r value) := by
    rw [Account.note, hframe, houtcome, if_neg hcreates, hcaller, if_pos rfl]
  rw [hnote, Account.passed, hframe, houtcome, if_neg hres, after_over m r _ hcurrent hres]
  by_cases hgeterrno : r.eax.toNat = Call.geterrno.number
  · rw [if_pos hgeterrno]
    refine ⟨fun _ => ?_, fun _ h => absurd ?_ h, fun h => by cases h⟩
    · simpa [hgeterrno, Account.errno] using herrno'.trans herrno
    · simp
  · rw [if_neg hgeterrno]
    refine ⟨fun _ => ?_, fun _ h => absurd ?_ h, fun h => by cases h⟩
    · simp [hgeterrno, Account.errno]
    · simp

/-- A call that may suspend its caller and completes. -/
theorem completes_pass {value : Machine × Regs × Word} (hsized : m.core.Sized)
    (hcurrent : m.core.current = some pid) (hblocking : Blocking r.eax.toNat)
    (hdispatch : (m.entered pid r).dispatch pid r = .ok value)
    (hres : value.2.2 ≠ failure esuspend) : Completes (m.conclude pid r value) := by
  obtain ⟨hcaller, hbefore, hframe, houtcome⟩ := conclude_fields m pid r value
  have htame : Tame m.core (m.entered pid r).core := .of_eq rfl rfl rfl
  have hyields := yields_dispatch (m := m.entered pid r) (htame.sized hsized) hcurrent hblocking
  rw [hdispatch, ensures_ok] at hyields
  obtain ⟨⟨hcalm, -⟩, hregs⟩ := hyields
  have hstill : value.1.core.current = some pid := hcalm.current.trans hcurrent
  obtain ⟨hswitches, hresult⟩ := result_over m r _ hstill hres
  have hafter := after_over m r _ hstill hres
  have hother := hblocking.ne.2.2
  refine ⟨⟨hswitches, ?_⟩, ?_, ?_, ?_⟩
  · rw [hafter, hcaller]
    exact hstill
  · rw [hresult, hframe, houtcome, hregs, if_neg hother]
  · rw [hafter, hcaller, houtcome]
    simp [hother, errnoOf]
  · intro other hne
    rw [hcaller] at hne
    have htrapped := hcalm.aloof other (by simp)
    simp only [Process.trapped, Prod.mk.injEq, entered, setCore, modify_processes,
      Function.update_of_ne hne] at htrapped
    rw [hafter, hbefore]
    simp only [modify_processes, Function.update_of_ne hne]
    exact ⟨htrapped.1, htrapped.2.1⟩

theorem Account.errno_bounds (account : Account) : 0 ≤ account.errno ∧ account.errno ≤ 2 ^ 31 := by
  rw [errno]
  cases account.outcome with
  | none => simp
  | some res => exact errnoOf_bounds res

/-- `geterrno` returns the error number. -/
theorem geterrno_pass {account : Account} {value : Machine × Regs × Word}
    (hcurrent : m.core.current = some pid) (hgeterrno : r.eax.toNat = Call.geterrno.number)
    (herrno : (m.core.processes pid).lastErrno = account.errno)
    (hdispatch : (m.entered pid r).dispatch pid r = .ok value) :
    (m.conclude pid r value).switches = false ∧
      (m.conclude pid r value).after.core.current = some pid ∧
      (m.conclude pid r value).result = { r with eax := BitVec.ofInt 32 account.errno } := by
  have hvalue : (m.entered pid r).dispatch pid r =
      .ok (m.entered pid r, r, BitVec.ofInt 32 account.errno) := by
    have hsame : ((m.entered pid r).core.processes pid).lastErrno = account.errno := by
      simpa [entered, setCore] using herrno
    rw [dispatch, hgeterrno, ← hsame]
    rfl
  obtain rfl : value = (m.entered pid r, r, BitVec.ofInt 32 account.errno) := by
    simpa using hdispatch.symm.trans hvalue
  have hres := errno_ne_esuspend account.errno_bounds.1 account.errno_bounds.2
  obtain ⟨hswitches, hresult⟩ := result_over m r
    (m.entered pid r, r, BitVec.ofInt 32 account.errno) hcurrent hres
  refine ⟨hswitches, ?_, ?_⟩
  · rw [after_over m r _ hcurrent hres]
    exact hcurrent
  · rw [hresult, if_pos hgeterrno]

theorem kept_conclude {value : Machine × Regs × Word} (hcurrent : m.core.current = some pid)
    (hlive : m.core.isLive pid = true) (htrap : (accountOf log pid).trap = some r)
    (hkept : Kept log m.core r) (haffected : Affected (m.entered pid r) pid r value)
    (hregs : value.2.2 = failure esuspend → value.2.1 = r)
    (hstays : r.eax.toNat ≠ Call.exit.number → value.1.core.current = some pid)
    (hnobody : ∀ other, other ≠ pid → value.1.core.current ≠ some other) :
    Kept (log ++ [.passed (m.conclude pid r value)]) (m.conclude pid r value).after.core
      (m.conclude pid r value).result := by
  obtain ⟨hcaller, -, hframe, houtcome⟩ := conclude_fields m pid r value
  have herrno := (hkept pid).errno hlive
  intro other
  rw [accountOf_append]
  by_cases hres : value.2.2 = failure esuspend
  · rw [after_suspended m pid r _ hres, result_suspended m pid r _ hres, hregs hres]
    by_cases hother : other = pid
    · subst hother
      refine agrees_suspended haffected hres hlive htrap herrno fun hexit => ?_
      rw [frameOf, if_pos (hstays hexit)]
    · rw [frameOf, if_neg (hnobody other hother)]
      exact agrees_others haffected hcaller hframe houtcome hcurrent hother (hkept other)
  · have hstill : value.1.core.current = some pid := by
      apply hstays
      cases haffected with
      | nobody h _ _ => exact h
      | created child _ hcreates _ _ => exact creates_not_exit hcreates
      | exited _ _ _ h => exact absurd h hres
    by_cases hother : other = pid
    · subst hother
      exact agrees_over _ haffected hres hstill hlive herrno
    · have hothers := agrees_others haffected hcaller hframe houtcome hcurrent hother
        (hkept other)
      have hsame : (m.conclude pid r value).after.core.processes other =
          value.1.core.processes other := by
        rw [after_over m r _ hstill hres]
        simp [hother]
      have hleft : (m.conclude pid r value).after.core.current ≠ some other := by
        rw [after_over m r _ hstill hres]
        exact hnobody other hother
      rw [frameOf, if_neg hleft, hsame]
      exact hothers

/-- A call is executed with the registers of its trap, and the accounts are kept. -/
theorem kept_pass (hsane : Sane Policy.lax m r wait) (hcurrent : m.core.current = some pid)
    (hlive : m.core.isLive pid = true) (hawake : wait pid = .awake)
    (hcr3 : m.cr3 = some (m.spaces pid).pdir) (hsized : m.core.Sized)
    (hkill : r.eax.toNat ≠ Call.kill.number) (htrap : (accountOf log pid).trap = some r)
    (hkept : Kept log m.core r) :
    Ensures anyFault (m.pass r) fun passage => Passed Policy.lax m r pid passage ∧
      passage.after.core.Sized ∧ Transparent (accountOf log pid) passage ∧
      Kept (log ++ [.passed passage]) passage.after.core passage.result := by
  have hentered : InCall Policy.lax (m.entered pid r) r wait pid :=
    hsane.enter hcurrent hlive hawake hcr3 (Policy.lax_permits r)
  have htame : Tame m.core (m.entered pid r).core := .of_eq rfl rfl rfl
  have hsized' := htame.sized hsized
  have hallowed : CallAllowed Policy.lax (m.entered pid r) pid r := CallAllowed.lax hkill
  have hspec := dispatch_spec hentered hallowed
  have haffected := affected_dispatch (m := m.entered pid r) hsized' hcurrent hkill
  have hregs := frame_dispatch (m.entered pid r) pid r
  have hsizing : Ensures anyFault ((m.entered pid r).dispatch pid r) _ :=
    sizing_dispatch (m.entered pid r) pid r
  rw [pass, hcurrent]
  dsimp only
  cases hdispatch : (m.entered pid r).dispatch pid r with
  | error fault => exact ensures_error.mpr trivial
  | ok value =>
      rw [hdispatch, ensures_ok] at hspec haffected hregs hsizing
      obtain ⟨hcaller, hbefore, hframe, houtcome⟩ := conclude_fields m pid r value
      have hstays : r.eax.toNat ≠ Call.exit.number → value.1.core.current = some pid := by
        intro hexit
        have hresumes := dispatch_resumes hentered hallowed hexit hkill
        rw [hdispatch, ensures_ok] at hresumes
        obtain ⟨-, -, hstill, -⟩ := hresumes
        exact hstill
      have hnobody : ∀ other, other ≠ pid → value.1.core.current ≠ some other := by
        intro other hother hcurrent'
        rcases hspec with ⟨-, -, hstill, -⟩ | ⟨-, hnone, -⟩
        · exact hother (Option.some_injective _ (hcurrent'.symm.trans hstill))
        · cases hnone.symm.trans hcurrent'
      refine ensures_ok.mpr ⟨conclude_spec hspec, sized_conclude m pid r (hsizing hsized'), ?_,
        kept_conclude hcurrent hlive htrap hkept haffected hregs hstays hnobody⟩
      refine ⟨?_, ?_, ?_, ?_, ?_⟩
      · rw [hframe]
        exact htrap
      · rw [hbefore, hcaller]
        exact hcurrent
      · rw [hbefore, hcaller]
        exact hcr3
      · rw [hframe, houtcome]
        exact fun hblocking hres => completes_pass hsized hcurrent hblocking hdispatch hres
      · rw [hframe, hcaller]
        intro hgeterrno
        exact geterrno_pass hcurrent hgeterrno ((hkept pid).errno hlive) hdispatch

/-! ## Switches -/

theorem savedRegs_saveRegs (m : Machine) (r : Regs) (pid : Pid) :
    ((m.saveRegs r).core.processes pid).savedRegs = frameOf m.core r pid := by
  cases hcurrent : m.core.current with
  | none => simp [saveRegs, frameOf, hcurrent]
  | some running =>
      by_cases hpid : pid = running
      · subst hpid
        simp [saveRegs, frameOf, hcurrent, setCore]
      · simp [saveRegs, frameOf, hcurrent, setCore, hpid, Ne.symm hpid]

/-- Saving the registers moves them to the process they belong to. -/
theorem Kept.save (hkept : Kept log m.core r) (pid : Pid) :
    Agrees (accountOf log pid) ((m.saveRegs r).core.processes pid)
      ((m.saveRegs r).core.processes pid).savedRegs := by
  have hsame := field_saveRegs m r
    (fun proc => Agrees (accountOf log pid) proc (frameOf m.core r pid))
    (fun proc => propext ⟨fun h => ⟨h.errno, h.trap, h.suspended⟩,
      fun h => ⟨h.errno, h.trap, h.suspended⟩⟩) pid
  rw [savedRegs_saveRegs]
  exact hsame.mpr (hkept pid)

theorem Kept.activate (hkept : Kept log m.core r) (next : Pid) :
    Kept log ((m.saveRegs r).activate next).core
      ((m.saveRegs r).core.processes next).savedRegs := by
  intro pid
  have hframe : frameOf ((m.saveRegs r).activate next).core
      ((m.saveRegs r).core.processes next).savedRegs pid =
      ((m.saveRegs r).core.processes pid).savedRegs := by
    rw [frameOf]
    split
    next hnext =>
      obtain rfl : next = pid := Option.some_injective _ hnext
      rfl
    next => rfl
  rw [hframe]
  exact hkept.save pid

/-- Entries that say nothing about a process. -/
theorem Kept.quiet {c : Core} {activity : Activity} (hkept : Kept log c r)
    (hquiet : ∀ pid account, Account.note pid account activity = account) :
    Kept (log ++ [activity]) c r := by
  intro pid
  rw [accountOf_append, hquiet]
  exact hkept pid

/-- All calls that a switch executes are executed with the registers of their traps, and the
accounts are kept. -/
theorem kept_contextSwitch (depth : ℕ) (hleaving : Leaving Policy.lax m r wait)
    (hsized : m.core.Sized) (hkept : Kept log m.core r) :
    Ensures anyFault (contextSwitch depth m r) fun result =>
      Restarted log (switchLog depth m r) ∧
        Kept (log ++ switchLog depth m r) result.1.core result.2 := by
  induction depth generalizing m r wait log with
  | zero => exact ensures_error.mpr trivial
  | succ depth ih =>
      have hkept' : Kept (log ++ [.switching m.core.current]) m.core r := hkept.quiet fun _ _ => rfl
      rw [contextSwitch, switchLog]
      cases hnext : (m.saveRegs r).core.selectNext with
      | none =>
          exact ensures_ok.mpr ⟨restarted_cons trivial (restarted_nil _), hkept'.save⟩
      | some next =>
          obtain ⟨hsane, hlive, hawake, hpending⟩ := contextSwitch_cases hleaving hnext
          have hactive := hkept'.activate next
          have hselected : Kept (log ++ [.switching m.core.current] ++ [.scheduled next])
              ((m.saveRegs r).activate next).core
              ((m.saveRegs r).core.processes next).savedRegs := hactive.quiet fun _ _ => rfl
          have hsized' := (tame_saveRegs m r).sized hsized
          dsimp only
          by_cases hbusy : (((m.saveRegs r).activate next).core.processes next).inSyscall ≠ 0
          · rw [if_pos hbusy, if_pos hbusy, syscall_eq_pass, callLog]
            obtain ⟨hnumber, hrepeatable⟩ := hpending hbusy
            rw [← hnumber] at hrepeatable
            have htrap := (hselected next).trap hlive hbusy
            have hrunning : ((m.saveRegs r).activate next).core.current = some next := rfl
            rw [frameOf, if_pos hrunning] at htrap
            have hpass := kept_pass hsane rfl hlive hawake rfl ⟨hsized'.pipes, hsized'.files⟩
              (repeatable_ne hrepeatable).2 htrap hselected
            cases hpassage : ((m.saveRegs r).activate next).pass
                ((m.saveRegs r).core.processes next).savedRegs with
            | error fault => exact ensures_error.mpr trivial
            | ok passage =>
                rw [hpassage, ensures_ok] at hpass
                obtain ⟨hpassed, hsized'', htransparent, hpasses⟩ := hpass
                have hproper : Transparent (accountOf (log ++ [.switching m.core.current] ++
                    [.scheduled next]) passage.pid) passage := by
                  rw [hpassed.caller]
                  exact htransparent
                simp only [ok_bind]
                -- the entries up to the passage
                have hstart : ∀ segment,
                    Restarted (log ++ [.switching m.core.current] ++ [.scheduled next] ++
                      [.passed passage]) segment →
                    Restarted log (.switching m.core.current :: .scheduled next ::
                      .passed passage :: segment) := fun segment hsegment =>
                  restarted_cons trivial (restarted_cons
                    (fun _ => ⟨passage, segment, rfl, hpassed.caller⟩)
                    (restarted_cons hproper hsegment))
                cases hswitches : passage.switches with
                | false =>
                    refine ensures_ok.mpr ⟨hstart [] (restarted_nil _), ?_⟩
                    simpa using hpasses
                | true =>
                    obtain ⟨wait', hleaving'⟩ := hpassed.switching hswitches
                    refine ensures_weaken (ih hleaving' hsized'' hpasses) fun result hdone => ?_
                    refine ⟨hstart _ hdone.1, ?_⟩
                    simpa using hdone.2
          · rw [if_neg hbusy, if_neg hbusy]
            refine ensures_ok.mpr ⟨restarted_cons trivial (restarted_cons ?_ (restarted_nil _)), ?_⟩
            · intro hsuspended
              exact absurd ((hactive next).suspended hsuspended).2 hbusy
            · simpa using hselected

/-! ## Runs -/

/-- Where the handling of an event gets, in agreement with the accounts. -/
def Accounted (log : List Activity) : Stop → Prop
  | .finished m => Idle m.core → ∃ r, Kept log m.core r
  | .switching m r => (∃ wait, Leaving Policy.lax m r wait) ∧ m.core.Sized ∧ Kept log m.core r

theorem kept_startProcess (hkept : Kept log m.core r) (hidle : Idle m.core)
    (startAddress : Word) :
    Ensures anyFault (m.startProcess startAddress) fun value => Idle value.1.core →
      Kept (log ++ m.startLog (.startProcess startAddress)) value.1.core r := by
  rw [startProcess, startLog]
  cases m.core.getFreePid with
  | none =>
      refine ensures_ok.mpr fun _ => ?_
      simpa using hkept
  | some born =>
      have hspace : Ensures anyFault (m.startSpace born) fun m' => m'.core = m.core :=
        ensures_bind (ensures_any _) fun _ _ => ensures_bind (ensures_any _) fun _ _ =>
          ensures_bind (ensures_any _) fun _ _ => ensures_bind (ensures_any _) fun _ _ =>
          ensures_ok.mpr rfl
      refine ensures_bind hspace fun m' hcore => ?_
      refine ensures_bind (untried_startProcess m'.core born _ _) fun core hborn => ?_
      rw [hcore] at hborn
      refine ensures_ok.mpr fun hidle' pid => ?_
      rw [accountOf_append, Account.note]
      split
      next hpid =>
        subst hpid
        exact agrees_blank hborn.2.1 hborn.2.2 _
      next hpid =>
        refine Agrees.of_aloof (hkept pid) hborn.1 (fun h => hpid ?_) hidle hidle' r
        exact Option.some_injective _ h

theorem accounted_trap (hsettled : Settled Policy.lax m wait) (hsized : m.core.Sized)
    (hkept : ∀ r, Kept log m.core r) (hkill : r.eax.toNat ≠ Call.kill.number) :
    Ensures anyFault (m.upToSwitch (.trap r)) fun stop =>
      Restarted log (m.startLog (.trap r)) ∧ Accounted (log ++ m.startLog (.trap r)) stop := by
  rw [upToSwitch, startLog]
  cases hcurrent : m.core.current with
  | none =>
      rw [pass, hcurrent]
      exact ensures_error.mpr trivial
  | some pid =>
      have hlive := hsettled.live pid hcurrent
      have htrapped : Kept (log ++ [.trapped pid r]) m.core r := by
        intro other
        rw [accountOf_append, Account.note]
        split
        next hother =>
          subst hother
          refine ⟨(hkept r pid).errno, fun _ hbusy => absurd (hsettled.idle pid hcurrent) hbusy, ?_⟩
          exact (hkept r pid).suspended
        next => exact hkept r other
      have htrap : (accountOf (log ++ [.trapped pid r]) pid).trap = some r := by
        rw [accountOf_append, Account.note, if_pos rfl]
      have hpass := kept_pass (hsettled.sane r) hcurrent hlive (hsettled.awake pid hcurrent)
        (hsettled.cr3 pid hcurrent) hsized hkill htrap htrapped
      cases hpassage : m.pass r with
      | error fault => exact ensures_error.mpr trivial
      | ok passage =>
          rw [hpassage, ensures_ok] at hpass
          obtain ⟨hpassed, hsized', htransparent, hkept'⟩ := hpass
          have hproper : Transparent (accountOf (log ++ [.trapped pid r]) passage.pid)
              passage := by
            rw [hpassed.caller]
            exact htransparent
          rw [List.append_assoc] at hkept'
          have hstop : Accounted (log ++ ([.trapped pid r] ++ [.passed passage]))
              (Passage.stop passage) := by
            rw [Passage.stop]
            split
            next hswitches => exact ⟨hpassed.switching hswitches, hsized', hkept'⟩
            next => exact fun _ => ⟨_, hkept'⟩
          exact ensures_ok.mpr ⟨restarted_cons trivial (restarted_cons hproper
            (restarted_nil _)), hstop⟩

theorem accounted_keyboard (hsettled : Settled Policy.lax m wait) (hsized : m.core.Sized)
    (hkept : Kept log m.core r) (byte : UInt8) :
    Ensures anyFault (m.upToSwitch (.keyboard byte r)) (Accounted log) := by
  rw [upToSwitch]
  refine ensures_bind (ensures_and (aloof_keyboardHandler m byte) (ensures_and
    (sizing_keyboardHandler m byte) (keyboardHandler_spec hsettled byte))) fun m₀ hdone =>
      ensures_ok.mpr ?_
  obtain ⟨haloof₀, hsizing, wait₀, hsettled₀⟩ := hdone
  exact ⟨⟨wait₀, hsettled₀.leaving r⟩, hsizing hsized,
    hkept.of_aloof haloof₀ hsettled.idle hsettled₀.idle r⟩

theorem accounted_exception (hsettled : Settled Policy.lax m wait) (hsized : m.core.Sized)
    (hkept : Kept log m.core r) (number : ℕ) :
    Ensures anyFault (m.upToSwitch (.exception number r)) (Accounted log) := by
  have hunhandled : Ensures anyFault (m.unhandled number) fun m' => m' = m := by
    rw [unhandled]
    split
    · exact ensures_error.mpr trivial
    · exact ensures_ok.mpr rfl
  have hfinished : Ensures anyFault (do
      let m ← m.unhandled number
      return Stop.finished m) (Accounted log) := by
    refine ensures_bind hunhandled fun m' hsame => ensures_ok.mpr ?_
    subst hsame
    exact fun _ => ⟨r, hkept⟩
  rw [upToSwitch]
  split
  next pid hcurrent =>
    split
    next hfault =>
      refine ensures_bind (killRunning_spec hsettled hcurrent r) fun m₀ hkilled =>
        ensures_ok.mpr ⟨hkilled.leaving, hkilled.tame.sized hsized, fun other => ?_⟩
      by_cases hother : some pid = some other
      · obtain rfl := Option.some_injective _ hother
        refine agrees_dead hkilled.dead ?_ _
        cases hsuspended : (accountOf log pid).suspended with
        | false => rfl
        | true => exact absurd hfault.2 ((hkept pid).suspended hsuspended).2
      · exact Agrees.of_aloof (hkept other) hkilled.aloof hother hsettled.idle
          (fun other h => absurd h (hkilled.idle other)) r
    · exact hfinished
  next => exact hfinished

theorem accounted_upToSwitch (hsettled : Settled Policy.lax m wait) (hsized : m.core.Sized)
    (hkept : ∀ r, Kept log m.core r) {event : Event} (hevent : NotKilling m event) :
    Ensures anyFault (m.upToSwitch event) fun stop =>
      Restarted log (m.startLog event) ∧ Accounted (log ++ m.startLog event) stop := by
  have hsilent : ∀ {stop : Stop}, Accounted log stop →
      Restarted log [] ∧ Accounted (log ++ []) stop := by
    intro stop haccounted
    rw [List.append_nil]
    exact ⟨restarted_nil log, haccounted⟩
  cases event with
  | startProcess startAddress =>
      refine ensures_bind (kept_startProcess (hkept Regs.zero) hsettled.idle startAddress)
        fun value hkept' => ensures_ok.mpr ⟨?_, fun hidle => ⟨_, hkept' hidle⟩⟩
      rw [startLog]
      split
      · exact restarted_cons trivial (restarted_nil _)
      · exact restarted_nil _
  | userStore address byte =>
      have hstored : Ensures anyFault (m.upToSwitch (.userStore address byte))
          (Accounted log) := by
        rw [upToSwitch, handle]
        split
        · exact ensures_ok.mpr fun _ => ⟨_, hkept Regs.zero⟩
        · exact ensures_ok.mpr fun _ => ⟨_, hkept Regs.zero⟩
      exact ensures_weaken hstored fun _ => hsilent
  | timer r => exact ensures_ok.mpr (hsilent ⟨⟨wait, hsettled.leaving r⟩, hsized, hkept r⟩)
  | keyboard byte r =>
      exact ensures_weaken (accounted_keyboard hsettled hsized (hkept r) byte) fun _ => hsilent
  | trap r => exact accounted_trap hsettled hsized hkept hevent
  | exception number r =>
      exact ensures_weaken (accounted_exception hsettled hsized (hkept r) number) fun _ => hsilent

variable {image : Image} {phys : Memory} {junk : Block → Memory} {events : List Event}

theorem kept_kmain (image : Image) (phys : Memory) (junk : Block → Memory) :
    Ensures anyFault (kmain image phys junk) fun m => Idle m.core →
      Kept ((initial image phys junk).startLog (.startProcess image.launchShell)) m.core
        Regs.zero := by
  have hinitial : Kept [] (initial image phys junk).core Regs.zero :=
    fun _ => agrees_dead rfl rfl _
  exact ensures_kmain (kept_startProcess hinitial (fun _ h => by cases h) image.launchShell)
    fun _ _ hkept => hkept

/-- In every state of a run without `kill`, the accounts are kept and all calls so far were
executed with the registers of their traps. -/
theorem Logged.kept (hlogged : Logged NotKilling image phys junk events log m) :
    Restarted [] log ∧ ∀ r, Kept log m.core r := by
  induction hlogged with
  | @boot m hboot =>
      obtain ⟨wait, hsettled⟩ := (Reachable.boot hboot : Reachable KillingSafely _ _ _ _).lax
      have hkept := kept_kmain image phys junk
      rw [hboot, ensures_ok] at hkept
      refine ⟨?_, (hkept hsettled.idle).reframe hsettled.idle⟩
      rw [startLog]
      split
      · exact restarted_cons trivial (restarted_nil _)
      · exact restarted_nil _
  | @step events log m m' event depth hlogged hevent hhandle ih =>
      obtain ⟨hrestarted, hkept⟩ := ih
      have hreachable := Logged.reachable hlogged
      obtain ⟨wait, hsettled⟩ := hreachable.safely.lax
      obtain ⟨wait', hsettled'⟩ := (Reachable.step depth hreachable hevent hhandle).safely.lax
      rw [handle_eq_proceed, bind_eq_ok] at hhandle
      obtain ⟨stop, hstop, hproceed⟩ := hhandle
      have haccounted := accounted_upToSwitch hsettled hreachable.sized hkept hevent
      rw [hstop, ensures_ok] at haccounted
      obtain ⟨hstarted, hstopped⟩ := haccounted
      rw [eventLog, hstop]
      dsimp only
      rw [← List.append_assoc]
      have hupto := restarted_append hrestarted hstarted
      cases stop with
      | finished m₀ =>
          obtain rfl : m₀ = m' := by simpa [proceed] using hproceed
          obtain ⟨r, hkept'⟩ := hstopped hsettled'.idle
          simp only [Stop.log, List.append_nil]
          exact ⟨hupto, hkept'.reframe hsettled'.idle⟩
      | switching m₀ r₀ =>
          obtain ⟨⟨wait₀, hleaving⟩, hsized₀, hkept₀⟩ := hstopped
          have hswitched := kept_contextSwitch depth hleaving hsized₀ hkept₀
          simp only [proceed] at hproceed
          cases hswitch : contextSwitch depth m₀ r₀ with
          | error fault =>
              rw [hswitch] at hproceed
              cases hproceed
          | ok result =>
              rw [hswitch] at hproceed
              rw [hswitch, ensures_ok] at hswitched
              obtain rfl : result.1 = m' := by simpa using hproceed
              refine ⟨restarted_append hupto ?_, hswitched.2.reframe hsettled'.idle⟩
              rw [List.nil_append]
              exact hswitched.1

end Machine

end Rhythmos.Kernel
