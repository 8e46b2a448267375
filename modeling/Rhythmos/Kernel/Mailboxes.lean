import Rhythmos.Kernel.Arguments
import Rhythmos.Kernel.Backstage

/-!
# Mailboxes

What `syscall_send` and `syscall_receive` do to the messages that wait in the mailboxes of
processes, and that no other function does anything to the messages of a live process.
-/

namespace Rhythmos.Kernel

open Fallible ByteMemory Libc

/-- A message as the processes see it. -/
structure Letter where
  sender : Word
  tag : Word
  contents : List UInt8
  deriving DecidableEq

def Message.letter (message : Message) : Letter where
  sender := message.sender
  tag := message.tag
  contents := loadBytes message.data 0 message.size.toNat

namespace Core

variable {c c' : Core} {pid : Pid}

/-- The messages in the mailbox of a process, oldest first. -/
def queued (c : Core) (pid : Pid) : List Letter :=
  match (c.processes pid).mailbox with
  | some b =>
      (List.range (c.processes pid).mailboxSize).map fun i => ((c.mailboxes b).messages i).letter
  | none => []

/-- A mailbox has room for eight messages, and the messages in it are not too long. -/
structure Boxed (c : Core) (pid : Pid) : Prop where
  room : ∀ b, (c.processes pid).mailbox = some b → (c.processes pid).mailboxAlloc = 8
  size_le : (c.processes pid).mailboxSize ≤ 8
  empty : (c.processes pid).mailbox = none → (c.processes pid).mailboxSize = 0
  short : ∀ b, (c.processes pid).mailbox = some b → ∀ i < (c.processes pid).mailboxSize,
    ((c.mailboxes b).messages i).size.toNat ≤ maxMessageSize

/-- The mailbox of a process and its size. -/
def postbox (c : Core) (pid : Pid) : Option Block × ℕ × ℕ :=
  ((c.processes pid).mailbox, (c.processes pid).mailboxSize, (c.processes pid).mailboxAlloc)

/-- The messages of live processes are the same, except for the process `who`. -/
structure Unaffected (who : Option Pid) (c c' : Core) : Prop where
  messages : ∀ b, (c'.mailboxes b).messages = (c.mailboxes b).messages
  kept : ∀ pid, who ≠ some pid → c'.isLive pid = true →
    c.isLive pid = true ∧ c'.postbox pid = c.postbox pid

theorem Unaffected.refl (who : Option Pid) (c : Core) : Unaffected who c c :=
  ⟨fun _ => rfl, fun _ _ hlive => ⟨hlive, rfl⟩⟩

theorem Unaffected.trans {who : Option Pid} {c₁ c₂ c₃ : Core} (hfirst : Unaffected who c₁ c₂)
    (hsecond : Unaffected who c₂ c₃) : Unaffected who c₁ c₃ where
  messages b := (hsecond.messages b).trans (hfirst.messages b)
  kept pid hwho hlive := by
    obtain ⟨hlive₂, hsame₂⟩ := hsecond.kept pid hwho hlive
    obtain ⟨hlive₁, hsame₁⟩ := hfirst.kept pid hwho hlive₂
    exact ⟨hlive₁, hsame₂.trans hsame₁⟩

theorem Backstage.unaffected (hbackstage : Backstage c c') (who : Option Pid) :
    Unaffected who c c' where
  messages b := by rw [hbackstage.mailboxes]
  kept pid _ hlive := by
    have hsame := hbackstage.field (fun proc => (proc.existing && !proc.exited,
      (proc.mailbox, proc.mailboxSize, proc.mailboxAlloc))) (fun _ => rfl) pid
    obtain ⟨hlive', hbox⟩ := Prod.mk.inj hsame
    exact ⟨hlive'.symm.trans hlive, hbox⟩

/-- A change of processes that ends lives at most. -/
theorem Unaffected.of_fields {who : Option Pid}
    (hmessages : ∀ b, (c'.mailboxes b).messages = (c.mailboxes b).messages)
    (hlive : ∀ pid, who ≠ some pid → c'.isLive pid = true → c.isLive pid = true)
    (hbox : ∀ pid, who ≠ some pid → c'.postbox pid = c.postbox pid) : Unaffected who c c' :=
  ⟨hmessages, fun pid hwho h => ⟨hlive pid hwho h, hbox pid hwho⟩⟩

/-- A change of the process `who`. -/
theorem unaffected_modify_self (c : Core) (pid : Pid) (change : Process → Process) :
    Unaffected (some pid) c (c.modify pid change) := by
  refine .of_fields (fun _ => rfl) ?_ ?_
  · intro other hother h
    have hne : other ≠ pid := fun h => hother (by rw [h])
    simpa [isLive, hne] using h
  · intro other hother
    have hne : other ≠ pid := fun h => hother (by rw [h])
    simp [postbox, hne]

theorem queued_congr (hmessages : ∀ b, (c.processes pid).mailbox = some b →
      (c'.mailboxes b).messages = (c.mailboxes b).messages)
    (hbox : c'.postbox pid = c.postbox pid) :
    c'.queued pid = c.queued pid ∧ (c.Boxed pid → c'.Boxed pid) := by
  simp only [postbox, Prod.mk.injEq] at hbox
  obtain ⟨hmailbox, hsize, halloc⟩ := hbox
  constructor
  · rw [queued, queued, hmailbox]
    split
    next b hb => rw [hsize, hmessages b hb]
    next => rfl
  · rintro ⟨hroom, hle, hempty, hshort⟩
    refine ⟨?_, ?_, ?_, ?_⟩
    · rw [hmailbox, halloc]
      exact hroom
    · rwa [hsize]
    · rw [hmailbox, hsize]
      exact hempty
    · intro b hb i hi
      rw [hmailbox] at hb
      rw [hsize] at hi
      rw [hmessages b hb]
      exact hshort b hb i hi

theorem Unaffected.queued {who : Option Pid} (hunaffected : Unaffected who c c')
    (hwho : who ≠ some pid) (hlive : c'.isLive pid = true) :
    c.isLive pid = true ∧ c'.queued pid = c.queued pid ∧ (c.Boxed pid → c'.Boxed pid) := by
  obtain ⟨hlive', hbox⟩ := hunaffected.kept pid hwho hlive
  exact ⟨hlive', queued_congr (fun b _ => hunaffected.messages b) hbox⟩

theorem Backstage.live (hbackstage : Backstage c c') (pid : Pid) : c'.isLive pid = c.isLive pid :=
  hbackstage.field (fun proc => proc.existing && !proc.exited) (fun _ => rfl) pid

theorem Backstage.queued (hbackstage : Backstage c c') (hlive : c.isLive pid = true) :
    c'.queued pid = c.queued pid ∧ (c.Boxed pid → c'.Boxed pid) :=
  ((hbackstage.unaffected none).queued (by simp) ((hbackstage.live pid).trans hlive)).2

/-! ## Birth and death -/

instance (who : Option Pid) : IsPreorder Core (Unaffected who) where
  refl := .refl who
  trans _ _ _ := .trans

/-- A process with no mailbox. -/
def Boxless (c : Core) (pid : Pid) : Prop := c.postbox pid = (none, 0, 0)

theorem Boxless.queued (hboxless : c.Boxless pid) : c.queued pid = [] ∧ c.Boxed pid := by
  simp only [Boxless, postbox, Prod.mk.injEq] at hboxless
  obtain ⟨hmailbox, hsize, -⟩ := hboxless
  refine ⟨?_, ⟨?_, ?_, fun _ => hsize, ?_⟩⟩
  · rw [Core.queued, hmailbox]
  · intro b hb
    cases hmailbox.symm.trans hb
  · rw [hsize]
    exact Nat.zero_le 8
  · intro b hb
    cases hmailbox.symm.trans hb

/-- A new process is the only one that is disturbed, and it has no mailbox. -/
def Lodges (c c' : Core) (child : Pid) : Prop :=
  Unaffected (some child) c c' ∧ c'.Boxless child

/-- A change of the new process that has nothing to do with its mailbox. -/
theorem Lodges.modify {c₁ : Core} {child : Pid} (hlodges : Lodges c c₁ child)
    (change : Process → Process)
    (hbox : ∀ proc, ((change proc).mailbox, (change proc).mailboxSize,
      (change proc).mailboxAlloc) = (proc.mailbox, proc.mailboxSize, proc.mailboxAlloc)) :
    Lodges c (c₁.modify child change) child := by
  refine ⟨hlodges.1.trans (unaffected_modify_self c₁ child change), ?_⟩
  rw [Boxless, ← hlodges.2]
  simpa [postbox] using hbox (c₁.processes child)

/-- The destination of a message gets it, and the messages of others are the same. -/
structure Posts (c c' : Core) (dest : Pid) (letter : Letter) : Prop where
  live : ∀ pid, c'.isLive pid = c.isLive pid
  others : ∀ pid, pid ≠ dest → c.isLive pid = true →
    c'.queued pid = c.queued pid ∧ (c.Boxed pid → c'.Boxed pid)
  dest : c.Boxed dest → c'.queued dest = c.queued dest ++ [letter] ∧ c'.Boxed dest

/-- What `send` returns, where `waiting` are the messages that wait for the processes. -/
def sendOutcome (c : Core) (waiting : Pid → List Letter) (target : Word) (size : ℕ) : Word :=
  match pidArgument target with
  | none => failure esrch
  | some dest =>
      if !(c.processes dest).existing then failure esrch
      else if maxMessageSize < size then failure einval
      else if (waiting dest).length < 8 then 0
      else failure enomem

/-- What `receive` returns, where `waiting` are the messages that wait for the processes. -/
def receiveOutcome (waiting : Pid → List Letter) (pid : Pid) (block : Word) : Word :=
  if waiting pid ≠ [] then 0 else if block ≠ 0 then failure esuspend else failure eagain

/-- A process takes the oldest of its messages, and the messages of others are the same. -/
structure Takes (c c' : Core) (pid : Pid) (letter : Letter) : Prop where
  live : ∀ other, c'.isLive other = c.isLive other
  others : ∀ other, other ≠ pid → c.isLive other = true →
    c'.queued other = c.queued other ∧ (c.Boxed other → c'.Boxed other)
  taken : c.queued pid = letter :: c'.queued pid
  boxed : c'.Boxed pid

end Core

end Rhythmos.Kernel
