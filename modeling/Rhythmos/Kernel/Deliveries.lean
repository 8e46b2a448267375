import Rhythmos.Kernel.Inductions
import Rhythmos.Kernel.Mailboxes

/-!
# Messages over whole runs

The log of a run says which messages were sent to a process and which messages it received.
The mailbox of a live process holds, in order, the messages that were sent and not yet
received.  A message sent to a process that has exited and was not awaited goes to a mailbox
that was released, so that runs with such calls are left out.
-/

namespace Rhythmos.Kernel

open Fallible ByteMemory Histories Libc

namespace Machine

open Rhythmos.Kernel.Core

/-! ## Messages in a log -/

/-- The message that an execution of `send` put into a mailbox, with its destination. -/
def letterSent (passage : Passage) : Option (Pid × Letter) :=
  if passage.frame.eax.toNat = Call.send.number ∧ passage.outcome = 0 then
    match pidArgument (passage.frame.args 0),
        passage.before.loadUser (passage.frame.args 2).toNat (passage.frame.args 3).toNat with
    | some dest, .ok bytes =>
        some (dest, ⟨BitVec.ofNat 32 passage.pid.val, passage.frame.args 1, bytes⟩)
    | _, _ => none
  else none

/-- The message that an execution of `receive` left in the memory of its caller. -/
def letterReceived (passage : Passage) : Option Letter :=
  if passage.frame.eax.toNat = Call.receive.number ∧ passage.outcome = 0 then
    match passage.after.loadUser (passage.frame.args 0).toNat messageSize with
    | .ok bytes => some (Message.ofMemory (ofList bytes) 0).letter
    | .error _ => none
  else none

/-- The messages sent to a process and those it received, oldest first. -/
structure Traffic where
  sent : List Letter
  received : List Letter

/-- The traffic of a new process. -/
def Traffic.none : Traffic := ⟨[], []⟩

/-- What an execution of a call adds to the traffic of `pid`. -/
def Traffic.passed (pid : Pid) (traffic : Traffic) (passage : Passage) : Traffic where
  sent :=
    match letterSent passage with
    | some (dest, letter) => if dest = pid then traffic.sent ++ [letter] else traffic.sent
    | .none => traffic.sent
  received :=
    match letterReceived passage with
    | some letter =>
        if passage.pid = pid then traffic.received ++ [letter] else traffic.received
    | .none => traffic.received

/-- What an entry of the log adds to the traffic of `pid`. -/
def Traffic.note (pid : Pid) (traffic : Traffic) : Activity → Traffic
  | .started born => if born = pid then .none else traffic
  | .passed passage =>
      if Creates passage.frame passage.outcome pid then .none else traffic.passed pid passage
  | _ => traffic

def trafficOf (log : List Activity) (pid : Pid) : Traffic := log.foldl (Traffic.note pid) .none

@[simp]
theorem trafficOf_append (log : List Activity) (activity : Activity) (pid : Pid) :
    trafficOf (log ++ [activity]) pid = (trafficOf log pid).note pid activity := by
  simp [trafficOf]

/-- The messages that wait for a process. -/
def pendingFor (log : List Activity) (pid : Pid) : List Letter :=
  (trafficOf log pid).sent.drop (trafficOf log pid).received.length

variable {m : Machine} {r : Regs} {wait : Pid → Wait} {pid : Pid}
variable {log : List Activity}

/-- What `send` returns. -/
def sendResult (m : Machine) (waiting : Pid → List Letter) (pid : Pid) (r : Regs) : Word :=
  if !validPointer (m.spaces pid) (r.args 2).toNat (r.args 3).toNat then failure efault
  else m.core.sendOutcome waiting (r.args 0) (r.args 3).toNat

/-- What `receive` returns. -/
def receiveResult (m : Machine) (waiting : Pid → List Letter) (pid : Pid) (r : Regs) : Word :=
  if !validPointer (m.spaces pid) (r.args 0).toNat messageSize then failure efault
  else receiveOutcome waiting pid (r.args 1)

/-- An execution of a call, where `earlier` has happened before. -/
structure Delivered (earlier : List Activity) (passage : Passage) : Prop where
  sends : passage.frame.eax.toNat = Call.send.number →
    passage.outcome =
        passage.before.sendResult (pendingFor earlier) passage.pid passage.frame ∧
      (passage.outcome = 0 → ∃ dest letter, letterSent passage = some (dest, letter))
  receives : passage.frame.eax.toNat = Call.receive.number →
    passage.outcome =
        passage.before.receiveResult (pendingFor earlier) passage.pid passage.frame ∧
      (passage.outcome = 0 → ∃ letter rest, pendingFor earlier passage.pid = letter :: rest ∧
        letterReceived passage = some letter)

/-- The mailboxes of live processes hold what the log says. -/
def Queued (log : List Activity) (m : Machine) : Prop :=
  ∀ pid, m.core.isLive pid = true → m.core.Boxed pid ∧
    (trafficOf log pid).sent = (trafficOf log pid).received ++ m.core.queued pid

theorem Queued.pending (hqueued : Queued log m) (hlive : m.core.isLive pid = true) :
    pendingFor log pid = m.core.queued pid := by
  rw [pendingFor, (hqueued pid hlive).2, List.drop_left]

/-- Nothing happens to the messages of live processes. -/
theorem Queued.unaffected {m' : Machine} {activity : Activity} (hqueued : Queued log m)
    (hunaffected : Unaffected none m.core m'.core)
    (hquiet : ∀ pid traffic, Traffic.note pid traffic activity = traffic) :
    Queued (log ++ [activity]) m' := by
  intro pid hlive
  obtain ⟨hlive', hsame, hboxed⟩ := hunaffected.queued (by simp) hlive
  rw [trafficOf_append, hquiet, hsame]
  exact ⟨hboxed (hqueued pid hlive').1, (hqueued pid hlive').2⟩

theorem Queued.still {m' : Machine} (hqueued : Queued log m)
    (hunaffected : Unaffected none m.core m'.core) : Queued log m' := by
  intro pid hlive
  obtain ⟨hlive', hsame, hboxed⟩ := hunaffected.queued (by simp) hlive
  rw [hsame]
  exact ⟨hboxed (hqueued pid hlive').1, (hqueued pid hlive').2⟩

/-! ## The frame of a call -/

/-- What `syscall` does after the handler concerns no messages, lives and selections. -/
def Concluding (c c' : Core) : Prop :=
  Unaffected none c c' ∧ (∀ other, c'.isLive other = c.isLive other) ∧ c'.current = c.current

theorem Concluding.trans {c₁ c₂ c₃ : Core} (hfirst : Concluding c₁ c₂)
    (hsecond : Concluding c₂ c₃) : Concluding c₁ c₃ :=
  ⟨hfirst.1.trans hsecond.1, fun other => (hsecond.2.1 other).trans (hfirst.2.1 other),
    hsecond.2.2.trans hfirst.2.2⟩

/-- What `receive` stores can be read back. -/
theorem Housed.receives (message : Message) {address : ℕ} (hhoused : m.Housed pid)
    (hcr3 : m.cr3 = some (m.spaces pid).pdir)
    (hvalid : validPointer (m.spaces pid) address messageSize = true) :
    Ensures anyFault (m.copyOut pid address message.bytes) fun m' =>
      m'.loadUser address messageSize = .ok message.bytes := by
  have hfits := hhoused.fits
  have hpositive : messageSize ≠ 0 := by decide
  simp only [validPointer, hpositive, if_false] at hvalid
  split at hvalid
  next => cases hvalid
  next hword =>
    have hhigh : pageStart ≤ address := by
      simp only [within, hfits.stackStart, hfits.dataStart, hfits.textStart, Bool.or_eq_true,
        Bool.and_eq_true, decide_eq_true_eq] at hvalid
      simp only [processStackBase, processStackSize, processDataBase, processTextBase,
        pageStart] at *
      omega
    have hlength := length_messageBytes message
    refine ensures_copyOut trivial ?_
    rw [Machine.storeUser, hcr3]
    cases hstore : Paging.storeUser (some (m.spaces pid).pdir) m.pages address message.bytes with
    | error fault => exact ensures_error.mpr trivial
    | ok pages =>
        obtain ⟨hload, -⟩ := hhoused.sound.storeUser_contents (dirs_eq hhoused.live)
          (by rw [hlength]; omega) hhigh hstore
        refine ensures_ok.mpr ?_
        rw [Machine.loadUser, onPages_eq_ok, ← hlength]
        exact hload

theorem Queued.sends {passage : Passage} {dest : Pid} {letter : Letter}
    (hqueued : Queued log m) (m' : Machine) (hposts : Posts m.core m'.core dest letter)
    (hsent : letterSent passage = some (dest, letter)) (hreceived : letterReceived passage = none)
    (hcreates : ∀ child, ¬ Creates passage.frame passage.outcome child) :
    Queued (log ++ [.passed passage]) m' := by
  intro other hlive
  have hlive' : m.core.isLive other = true := (hposts.live other).symm.trans hlive
  obtain ⟨hboxed, hwaiting⟩ := hqueued other hlive'
  rw [trafficOf_append, Traffic.note, if_neg (hcreates other), Traffic.passed, hsent, hreceived]
  dsimp only
  by_cases hother : dest = other
  · subst hother
    obtain ⟨hsame, hboxed'⟩ := hposts.dest hboxed
    rw [if_pos rfl, hwaiting, hsame, List.append_assoc]
    exact ⟨hboxed', rfl⟩
  · obtain ⟨hsame, hboxed'⟩ := hposts.others other (Ne.symm hother) hlive'
    rw [if_neg hother, hwaiting, hsame]
    exact ⟨hboxed' hboxed, rfl⟩

theorem Queued.receives {m' : Machine} {passage : Passage} {letter : Letter}
    (hqueued : Queued log m) (hcaller : passage.pid = pid)
    (htakes : Takes m.core m'.core pid letter) (hsent : letterSent passage = none)
    (hreceived : letterReceived passage = some letter)
    (hcreates : ∀ child, ¬ Creates passage.frame passage.outcome child) :
    Queued (log ++ [.passed passage]) m' := by
  intro other hlive
  have hlive' : m.core.isLive other = true := (htakes.live other).symm.trans hlive
  obtain ⟨hboxed, hwaiting⟩ := hqueued other hlive'
  rw [trafficOf_append, Traffic.note, if_neg (hcreates other), Traffic.passed, hsent, hreceived]
  dsimp only
  rw [hcaller]
  by_cases hother : pid = other
  · subst hother
    rw [if_pos rfl, hwaiting, htakes.taken, List.append_assoc]
    exact ⟨htakes.boxed, rfl⟩
  · obtain ⟨hsame, hboxed'⟩ := htakes.others other (Ne.symm hother) hlive'
    rw [if_neg hother, hwaiting, hsame]
    exact ⟨hboxed' hboxed, rfl⟩

/-- A call that is neither about messages nor creates a process. -/
theorem Queued.passes {m' : Machine} {passage : Passage} (hqueued : Queued log m)
    (hunaffected : Unaffected none m.core m'.core) (hsent : letterSent passage = none)
    (hreceived : letterReceived passage = none)
    (hcreates : ∀ child, ¬ Creates passage.frame passage.outcome child) :
    Queued (log ++ [.passed passage]) m' := by
  refine hqueued.unaffected hunaffected fun other traffic => ?_
  rw [Traffic.note, if_neg (hcreates other), Traffic.passed, hsent, hreceived]

variable {image : Image} {phys : Memory} {junk : Block → Memory} {events : List Event}

end Machine

end Rhythmos.Kernel
