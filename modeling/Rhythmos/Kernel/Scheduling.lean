import Rhythmos.Kernel.Calls
import Rhythmos.Library.DoublyLinked

/-!
# Process lists are exact

`Linked place c` says that each of the two lists is a well-formed doubly linked
list of exactly the processes that `place` assigns to it.  Adding and removing a
process changes `place` at that process only, and changes nothing but list
pointers: two states that agree except for them have the same `unlinked` part.
-/

namespace Rhythmos.Kernel

open DoublyLinked Fallible

/-- The process without its list pointers. -/
def Process.unlinked (proc : Process) : Process := { proc with prev := none, next := none }

namespace Core

/-- The kernel's data without the two lists. -/
def unlinked (c : Core) : Core :=
  { c with
    processes := fun pid => (c.processes pid).unlinked
    queue := fun _ => ⟨none, none⟩ }

def prevOf (c : Core) (pid : Pid) : Option Pid := (c.processes pid).prev

def nextOf (c : Core) (pid : Pid) : Option Pid := (c.processes pid).next

/-- Each list is a doubly linked list of the processes placed on it. -/
def Linked (place : Pid → Option Queue) (c : Core) : Prop :=
  ∀ queue, ∃ nodes,
    IsList c.prevOf c.nextOf (c.queue queue).first (c.queue queue).last nodes ∧
      ∀ pid, pid ∈ nodes ↔ place pid = some queue

/-! ## Changes that leave the lists alone -/

/-- A field that a change of one process keeps is kept for all processes. -/
theorem modify_field {A : Type*} (c : Core) (pid : Pid) {change : Process → Process}
    (field : Process → A) (hfield : ∀ proc, field (change proc) = field proc) (other : Pid) :
    field ((c.modify pid change).processes other) = field (c.processes other) := by
  by_cases hother : other = pid
  · subst hother
    simp [hfield]
  · simp [hother]

theorem Linked.congr {place : Pid → Option Queue} {c c' : Core} (hlinked : Linked place c)
    (hprev : ∀ pid, (c'.processes pid).prev = (c.processes pid).prev)
    (hnext : ∀ pid, (c'.processes pid).next = (c.processes pid).next)
    (hqueue : c'.queue = c.queue) : Linked place c' := by
  intro queue
  obtain ⟨nodes, hlist, hmem⟩ := hlinked queue
  refine ⟨nodes, ?_, hmem⟩
  rw [hqueue]
  exact isList_congr hlist (fun pid _ => hprev pid) (fun pid _ => hnext pid)

theorem unlinked_modify (c : Core) (pid : Pid) {change : Process → Process}
    (hchange : (change (c.processes pid)).unlinked = (c.processes pid).unlinked) :
    (c.modify pid change).unlinked = c.unlinked := by
  have hprocesses : (fun other => ((c.modify pid change).processes other).unlinked) =
      fun other => (c.processes other).unlinked := by
    funext other
    by_cases hother : other = pid
    · subst hother
      simp [hchange]
    · simp [hother]
  rw [unlinked, unlinked, hprocesses]
  rfl

/-- A change of one process commutes with forgetting list pointers. -/
theorem unlinked_modify_congr {c c' : Core} (hsame : c'.unlinked = c.unlinked) (pid : Pid)
    {change : Process → Process} (hchange : ∀ proc, (change proc).unlinked = change proc.unlinked) :
    (c'.modify pid change).unlinked = (c.modify pid change).unlinked := by
  have hcommute : ∀ core : Core, (core.modify pid change).unlinked =
      core.unlinked.modify pid change := by
    intro core
    simp only [modify, unlinked, Core.mk.injEq, and_self, and_true]
    funext other
    by_cases hother : other = pid
    · subst hother
      simp [hchange]
    · simp [hother]
  rw [hcommute, hcommute, hsame]

theorem unlinked_setQueue (c : Core) (queue : Queue) (list : ProcessList) :
    (c.setQueue queue list).unlinked = c.unlinked := rfl

theorem unlinked_listAdd (c : Core) (queue : Queue) (pid : Pid) :
    (c.listAdd queue pid).unlinked = c.unlinked := by
  rw [listAdd]
  split
  · rw [unlinked_setQueue, unlinked_modify _ _ rfl, unlinked_modify _ _ rfl]
  · exact unlinked_setQueue _ _ _

theorem unlinked_setPrev (c : Core) (node value : Option Pid) :
    (c.setPrev node value).unlinked = c.unlinked := by
  cases node with
  | none => rfl
  | some pid =>
      rw [setPrev]
      exact unlinked_modify c pid rfl

theorem unlinked_setNext (c : Core) (node value : Option Pid) :
    (c.setNext node value).unlinked = c.unlinked := by
  cases node with
  | none => rfl
  | some pid =>
      rw [setNext]
      exact unlinked_modify c pid rfl

theorem unlinked_listRemove (c : Core) (queue : Queue) (pid : Pid) :
    (c.listRemove queue pid).unlinked = c.unlinked := by
  have hends : ∀ (d : Core) (condition : Prop) [Decidable condition] (list : ProcessList),
      (if condition then d.setQueue queue list else d).unlinked = d.unlinked := by
    intro d condition _ list
    split
    · exact unlinked_setQueue _ _ _
    · rfl
  rw [listRemove]
  simp only []
  rw [unlinked_modify _ _ rfl, unlinked_setNext, unlinked_setPrev, hends, hends]

/-! ## Removing a process -/

@[simp]
theorem queue_setPrev (c : Core) (node value : Option Pid) :
    (c.setPrev node value).queue = c.queue := by
  cases node <;> rfl

@[simp]
theorem queue_setNext (c : Core) (node value : Option Pid) :
    (c.setNext node value).queue = c.queue := by
  cases node <;> rfl

theorem processes_setPrev (c : Core) (node value : Option Pid) (other : Pid) :
    (c.setPrev node value).processes other =
      { c.processes other with prev := if node = some other then value else c.prevOf other } := by
  cases node with
  | none => simp [setPrev, prevOf]
  | some pid =>
      by_cases hother : other = pid
      · subst hother
        simp [setPrev]
      · simp [setPrev, prevOf, hother, Ne.symm hother]

theorem processes_setNext (c : Core) (node value : Option Pid) (other : Pid) :
    (c.setNext node value).processes other =
      { c.processes other with next := if node = some other then value else c.nextOf other } := by
  cases node with
  | none => simp [setNext, nextOf]
  | some pid =>
      by_cases hother : other = pid
      · subst hother
        simp [setNext]
      · simp [setNext, nextOf, hother, Ne.symm hother]

theorem processes_listRemove (c : Core) (queue : Queue) (pid : Pid)
    (hnext : c.nextOf pid ≠ some pid) (hprev : c.prevOf pid ≠ some pid) (other : Pid) :
    (c.listRemove queue pid).processes other =
      if other = pid then { c.processes pid with next := none, prev := none }
      else { c.processes other with
        prev := if c.nextOf pid = some other then c.prevOf pid else c.prevOf other
        next := if c.prevOf pid = some other then c.nextOf pid else c.nextOf other } := by
  have hends : ∀ (d : Core) (condition : Prop) [Decidable condition] (list : ProcessList),
      (if condition then d.setQueue queue list else d).processes = d.processes := by
    intro d condition _ list
    split <;> rfl
  rw [nextOf] at hnext
  rw [prevOf] at hprev
  by_cases hother : other = pid
  · subst hother
    simp [listRemove, processes_setNext, processes_setPrev, hends]
  · simp [listRemove, processes_setNext, processes_setPrev, hends, hother, hnext, hprev, prevOf,
      nextOf]
    exact ⟨rfl, rfl⟩

theorem queue_listRemove (c : Core) (queue : Queue) (pid : Pid) (other : Queue) :
    (c.listRemove queue pid).queue other =
      if other = queue then
        { first := if (c.queue queue).first = some pid then c.nextOf pid else (c.queue queue).first
          last := if (c.queue queue).last = some pid then c.prevOf pid else (c.queue queue).last }
      else c.queue other := by
  simp only [listRemove, modify_queue, queue_setNext, queue_setPrev]
  by_cases hother : other = queue
  · subst hother
    by_cases hfirst : (c.queue other).first = some pid
    · by_cases hlast : (c.queue other).last = some pid
      · simp [setQueue, hfirst, hlast, nextOf, prevOf]
      · simp [setQueue, hfirst, hlast, nextOf]
    · by_cases hlast : (c.queue other).last = some pid
      · simp [setQueue, hfirst, hlast, prevOf]
      · simp [hfirst, hlast]
  · by_cases hfirst : (c.queue queue).first = some pid
    · by_cases hlast : (c.queue queue).last = some pid
      · simp [setQueue, hfirst, hlast, hother]
      · simp [setQueue, hfirst, hlast, hother]
    · by_cases hlast : (c.queue queue).last = some pid
      · simp [setQueue, hfirst, hlast, hother]
      · simp [hfirst, hlast, hother]

/-- The two lists have no process in common. -/
theorem Linked.disjoint {place : Pid → Option Queue} {nodes nodes' : List Pid}
    {queue queue' : Queue} (hmem : ∀ pid, pid ∈ nodes ↔ place pid = some queue)
    (hmem' : ∀ pid, pid ∈ nodes' ↔ place pid = some queue') (hne : queue ≠ queue') {pid : Pid}
    (hpid : pid ∈ nodes) : pid ∉ nodes' := by
  intro hpid'
  have hsame := ((hmem pid).mp hpid).symm.trans ((hmem' pid).mp hpid')
  exact hne (by simpa using hsame)

theorem Linked.remove {place : Pid → Option Queue} {c : Core} (hlinked : Linked place c)
    {queue : Queue} {pid : Pid} (hplace : place pid = some queue) :
    Linked (Function.update place pid none) (c.listRemove queue pid) ∧
      (c.listRemove queue pid).prevOf pid = none ∧ (c.listRemove queue pid).nextOf pid = none := by
  obtain ⟨nodes, hlist, hmem⟩ := hlinked queue
  obtain ⟨front, back, rfl⟩ := List.append_of_mem ((hmem pid).mpr hplace)
  obtain ⟨hprevPid, hnextPid⟩ := hlist.neighbours front pid back rfl
  have hnodup := List.nodup_append.mp hlist.nodup
  have hback : pid ∉ back := (List.nodup_cons.mp hnodup.2.1).1
  have hfront : pid ∉ front := fun hin => hnodup.2.2 pid hin pid (by simp) rfl
  have hnext : c.nextOf pid ≠ some pid := by
    intro hself
    rw [hself] at hnextPid
    exact hback (List.mem_of_head? hnextPid.symm)
  have hprev : c.prevOf pid ≠ some pid := by
    intro hself
    rw [hself] at hprevPid
    exact hfront (List.mem_of_getLast? hprevPid.symm)
  have hself := processes_listRemove c queue pid hnext hprev pid
  refine ⟨?_, by simp [prevOf, hself], by simp [nextOf, hself]⟩
  intro other
  by_cases hother : other = queue
  · subst hother
    have hne : ∀ node ∈ front ++ back, node ≠ pid := by
      rintro node hnode rfl
      rcases List.mem_append.mp hnode with hin | hin
      · exact hfront hin
      · exact hback hin
    refine ⟨front ++ back, ?_, ?_⟩
    · rw [queue_listRemove, if_pos rfl]
      refine isList_remove hlist ?_ ?_ rfl rfl
      · intro node hnode
        simp [prevOf, processes_listRemove c other pid hnext hprev node, hne node hnode]
      · intro node hnode
        simp [nextOf, processes_listRemove c other pid hnext hprev node, hne node hnode]
    · intro node
      by_cases hnode : node = pid
      · subst hnode
        simp [hfront, hback]
      · simpa [hnode] using hmem node
  · obtain ⟨nodes', hlist', hmem'⟩ := hlinked other
    refine ⟨nodes', ?_, ?_⟩
    · rw [queue_listRemove, if_neg hother]
      -- the neighbours of `pid` are on its own list
      have houtside : ∀ node ∈ nodes', node ≠ pid ∧ c.nextOf pid ≠ some node ∧
          c.prevOf pid ≠ some node := by
        intro node hnode
        have hout := Linked.disjoint hmem' hmem hother hnode
        refine ⟨?_, ?_, ?_⟩
        · rintro rfl
          simp at hout
        · intro hsome
          rw [hsome] at hnextPid
          have := List.mem_of_head? hnextPid.symm
          simp [this] at hout
        · intro hsome
          rw [hsome] at hprevPid
          have := List.mem_of_getLast? hprevPid.symm
          simp [this] at hout
      refine isList_congr hlist' ?_ ?_
      · intro node hnode
        obtain ⟨hne, hnotNext, -⟩ := houtside node hnode
        simp [prevOf, processes_listRemove c queue pid hnext hprev node, hne]
        intro hsome
        exact absurd hsome hnotNext
      · intro node hnode
        obtain ⟨hne, -, hnotPrev⟩ := houtside node hnode
        simp [nextOf, processes_listRemove c queue pid hnext hprev node, hne]
        intro hsome
        exact absurd hsome hnotPrev
    · intro node
      by_cases hnode : node = pid
      · subst hnode
        simp [hmem', hplace, Ne.symm hother]
      · simpa [hnode] using hmem' node

/-! ## Adding a process -/

theorem processes_listAdd (c : Core) (queue : Queue) (pid : Pid)
    (hfirst : (c.queue queue).first ≠ some pid) (other : Pid) :
    (c.listAdd queue pid).processes other =
      if other = pid then
        { c.processes pid with
          next := if (c.queue queue).first = none then c.nextOf pid else (c.queue queue).first }
      else { c.processes other with
        prev := if (c.queue queue).first = some other then some pid else c.prevOf other } := by
  rw [listAdd]
  cases hcase : (c.queue queue).first with
  | none =>
      by_cases hother : other = pid
      · subst hother
        simp [nextOf]
      · simp [hother, prevOf]
  | some first =>
      have hne : pid ≠ first := by
        rintro rfl
        exact hfirst hcase
      by_cases hother : other = pid
      · subst hother
        simp [hne]
      · by_cases hhead : other = first
        · subst hhead
          simp [hother]
        · simp [hother, hhead, Ne.symm hhead, prevOf]

theorem queue_listAdd (c : Core) (queue : Queue) (pid : Pid) (other : Queue) :
    (c.listAdd queue pid).queue other =
      if other = queue then
        { first := some pid
          last := if (c.queue queue).first = none then some pid else (c.queue queue).last }
      else c.queue other := by
  rw [listAdd]
  by_cases hother : other = queue
  · subst hother
    cases hcase : (c.queue other).first with
    | none => simp [setQueue]
    | some first => simp [setQueue]
  · cases hcase : (c.queue queue).first with
    | none => simp [setQueue, hother]
    | some first => simp [setQueue, hother]

theorem Linked.add {place : Pid → Option Queue} {c : Core} (hlinked : Linked place c)
    (queue : Queue) {pid : Pid} (hplace : place pid = none) (hprev : c.prevOf pid = none)
    (hnext : c.nextOf pid = none) :
    Linked (Function.update place pid (some queue)) (c.listAdd queue pid) := by
  have houtside : ∀ {other : Queue} {nodes : List Pid},
      (∀ node, node ∈ nodes ↔ place node = some other) →
      pid ∉ nodes := by
    intro other nodes hmem hin
    have := (hmem pid).mp hin
    simp [hplace] at this
  obtain ⟨nodes, hlist, hmem⟩ := hlinked queue
  have hout := houtside hmem
  have hfirst : (c.queue queue).first ≠ some pid := by
    intro hself
    rw [hlist.first_eq] at hself
    exact hout (List.mem_of_head? hself)
  intro other
  by_cases hother : other = queue
  · subst hother
    refine ⟨pid :: nodes, ?_, ?_⟩
    · rw [queue_listAdd, if_pos rfl]
      refine isList_cons hlist hout ?_ ?_ ?_ ?_ rfl
      · simpa [prevOf, processes_listAdd c other pid hfirst pid] using hprev
      · cases hcase : (c.queue other).first with
        | none => simpa [nextOf, processes_listAdd c other pid hfirst pid, hcase] using hnext
        | some first => simp [nextOf, processes_listAdd c other pid hfirst pid, hcase]
      · intro node hnode
        have hne : node ≠ pid := fun hsame => hout (hsame ▸ hnode)
        simp [prevOf, processes_listAdd c other pid hfirst node, hne]
      · intro node hnode
        have hne : node ≠ pid := fun hsame => hout (hsame ▸ hnode)
        simp [nextOf, processes_listAdd c other pid hfirst node, hne]
    · intro node
      by_cases hnode : node = pid
      · subst hnode
        simp
      · simpa [hnode] using hmem node
  · obtain ⟨nodes', hlist', hmem'⟩ := hlinked other
    refine ⟨nodes', ?_, ?_⟩
    · rw [queue_listAdd, if_neg hother]
      refine isList_congr hlist' ?_ ?_
      · intro node hnode
        have hne : node ≠ pid := fun hsame => houtside hmem' (hsame ▸ hnode)
        have hhead : (c.queue queue).first ≠ some node := by
          intro hsome
          rw [hlist.first_eq] at hsome
          exact Linked.disjoint hmem' hmem hother hnode (List.mem_of_head? hsome)
        simp [prevOf, processes_listAdd c queue pid hfirst node, hne, hhead]
      · intro node hnode
        have hne : node ≠ pid := fun hsame => houtside hmem' (hsame ▸ hnode)
        simp [nextOf, processes_listAdd c queue pid hfirst node, hne]
    · intro node
      by_cases hnode : node = pid
      · subst hnode
        simp [hmem', hplace, Ne.symm hother]
      · simpa [hnode] using hmem' node

/-! ## Suspending and resuming -/

/-- Take a process from one list to the other. -/
theorem Linked.move {place : Pid → Option Queue} {c : Core} (hlinked : Linked place c)
    {queue : Queue} (queue' : Queue) {pid : Pid} (hplace : place pid = some queue) :
    Linked (Function.update place pid (some queue'))
      ((c.listRemove queue pid).listAdd queue' pid) := by
  obtain ⟨hremoved, hprev, hnext⟩ := hlinked.remove hplace
  simpa using hremoved.add queue' (by simp) hprev hnext

/-- Changing other fields of a process leaves the lists alone. -/
theorem Linked.modify {place : Pid → Option Queue} {c : Core} (hlinked : Linked place c)
    (pid : Pid) {change : Process → Process} (hprev : ∀ proc, (change proc).prev = proc.prev)
    (hnext : ∀ proc, (change proc).next = proc.next) : Linked place (c.modify pid change) := by
  apply hlinked.congr
  · intro other
    by_cases hother : other = pid
    · subst hother
      simp [hprev]
    · simp [hother]
  · intro other
    by_cases hother : other = pid
    · subst hother
      simp [hnext]
    · simp [hother]
  · rfl

theorem Linked.setReady {place : Pid → Option Queue} {c : Core} (hlinked : Linked place c)
    (pid : Pid) (flag : Bool) :
    Linked place (c.modify pid fun proc => { proc with ready := flag }) :=
  hlinked.modify pid (fun _ => rfl) fun _ => rfl

theorem suspendProcess_spec {place : Pid → Option Queue} {c : Core} (hlinked : Linked place c)
    {pid : Pid} (hplace : place pid = some .ready) (hexisting : (c.processes pid).existing = true)
    (hready : (c.processes pid).ready = true) :
    ∃ c', c.suspendProcess pid = .ok c' ∧
      Linked (Function.update place pid (some .suspended)) c' ∧
      c'.unlinked = (c.modify pid fun proc => { proc with ready := false }).unlinked := by
  have hrun : c.suspendProcess pid =
      .ok (((c.modify pid fun proc => { proc with ready := false }).listRemove
        .ready pid).listAdd .suspended pid) := by
    simp [suspendProcess, check, hexisting, hready]
  refine ⟨_, hrun, (hlinked.setReady pid false).move .suspended hplace, ?_⟩
  rw [unlinked_listAdd, unlinked_listRemove]

theorem resumeProcess_spec {place : Pid → Option Queue} {c : Core} (hlinked : Linked place c)
    {pid : Pid} (hplace : place pid = some .suspended)
    (hexisting : (c.processes pid).existing = true) (hready : (c.processes pid).ready = false) :
    ∃ c', c.resumeProcess pid = .ok c' ∧
      Linked (Function.update place pid (some .ready)) c' ∧
      c'.unlinked = (c.modify pid fun proc => { proc with ready := true }).unlinked := by
  have hrun : c.resumeProcess pid =
      .ok (((c.modify pid fun proc => { proc with ready := true }).listRemove
        .suspended pid).listAdd .ready pid) := by
    simp [resumeProcess, check, hexisting, hready]
  refine ⟨_, hrun, (hlinked.setReady pid true).move .ready hplace, ?_⟩
  rw [unlinked_listAdd, unlinked_listRemove]

end Core

end Rhythmos.Kernel
