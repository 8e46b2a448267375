import Rhythmos.Buddy.Free

/-!
# Runs of the buddy allocator

A session is an area together with the blocks its clients hold.  Sessions start
at `buddy_init` and proceed by allocations, by releases of live blocks and by
client writes to live blocks.  This module proves the allocator's invariant for
every session, and that coalescing is complete: the free blocks are determined
by the live blocks, whatever the order of the calls.
-/

namespace Rhythmos.Buddy

open ByteMemory DyadicTiling LinkedChain Fallible

namespace Session

/-- The session right after `buddy_init`. -/
def init (sizepow2 membase : ℕ) (memory : Memory) : Session :=
  ⟨buddyInit sizepow2 membase memory, []⟩

/-- One call or client write that returns. -/
def Step (userland : Bool) (session session' : Session) : Prop :=
  ∃ operation, session.Allowed operation ∧ session.step userland operation = .ok session'

def liveSet (session : Session) : Set Block := {block | block ∈ session.live}

/-- The blocks reached from the free lists of orders `lower` to `upper` through
the links in memory. -/
def freeSet (session : Session) : Set Block :=
  {block | session.area.lower ≤ block.order ∧ block.order ≤ session.area.upper ∧
    ∃ nodes, IsChain session.area.link empty (session.area.freelist block.order) nodes ∧
      block.base ∈ nodes}

/-- Release the given blocks one after the other. -/
def freeAll (session : Session) : List Block → Except Fault Session
  | [] => .ok session
  | block :: blocks => do
      let session ← session.step true (.free (session.pointer block))
      session.freeAll blocks

/-- The invariant that every operation keeps. -/
def Inv (session : Session) : Prop :=
  session.live.Nodup ∧ ∃ lists, Rep session.area session.liveSet ∅ lists ∧
    NoBuddies (freeBlocks lists)

/-! ## Initialisation -/

/-- The free lists after `buddy_init`. -/
def initLists (sizepow2 : ℕ) : ℕ → List ℕ := Function.update (fun _ => []) sizepow2 [0]

theorem freeBlocks_initLists (sizepow2 : ℕ) :
    freeBlocks (initLists sizepow2) = {⟨0, sizepow2⟩} := by
  ext block
  rw [initLists, mem_freeBlocks_update]
  simp [freeBlocks, Block.ext_iff, and_comm]

theorem init_inv {sizepow2 membase : ℕ} (memory : Memory) (hlow : 8 ≤ sizepow2)
    (hhigh : sizepow2 ≤ 30) (hpos : 0 < membase)
    (hfits : membase + 2 ^ sizepow2 ≤ wordCount) : (init sizepow2 membase memory).Inv := by
  have htiles : tiles {block | block ∈ ([] : List Block)} ∅ (initLists sizepow2) =
      {⟨0, sizepow2⟩} := by
    simp [tiles, freeBlocks_initLists]
  refine ⟨List.nodup_nil, initLists sizepow2, ?_, ?_⟩
  · refine
      { free_lists := ?_
        mem_pos := hpos
        mem_le := hfits
        tiling := ?_
        order_ge := ?_
        hand_free := by simp
        live_info := by simp [liveSet, init]
        hand_info := by simp
        free_info := ?_
        other_info := ?_ }
    · refine
        { lower_eq := rfl
          upper_ge := hlow
          upper_le := hhigh
          chain := ?_
          nodup := ?_
          dvd := ?_
          lt := ?_
          separate := ?_ }
      · intro m _
        by_cases hm : m = sizepow2
        · subst hm
          have hlink : (buddyInit m membase memory).link 0 = empty :=
            load32_store32_same memory membase (by norm_num [empty, wordCount])
          simp [initLists, init, buddyInit, empty]
          exact hlink
        · simp [initLists, init, buddyInit, hm]
      · intro m
        by_cases hm : m = sizepow2 <;> simp [initLists, hm]
      · intro m block hblock
        by_cases hm : m = sizepow2
        · subst hm
          simp [initLists] at hblock
          simp [hblock]
        · simp [initLists, hm] at hblock
      · intro m block hblock
        by_cases hm : m = sizepow2
        · subst hm
          simp [initLists] at hblock
          simp [hblock, init, buddyInit]
        · simp [initLists, hm] at hblock
      · intro m m' block hblock hblock'
        by_cases hm : m = sizepow2
        · by_cases hm' : m' = sizepow2
          · rw [hm, hm']
          · simp [initLists, hm'] at hblock'
        · simp [initLists, hm] at hblock
    · change Tiling (tiles {block | block ∈ ([] : List Block)} ∅ (initLists sizepow2)) sizepow2
      rw [htiles]
      exact Tiling.single sizepow2
    · intro block hblock
      rw [show tiles (liveSet (init sizepow2 membase memory)) ∅ (initLists sizepow2) =
        {⟨0, sizepow2⟩} from htiles] at hblock
      rw [hblock]
      exact hlow
    · intro block hblock
      rw [freeBlocks_initLists] at hblock
      rw [hblock]
      simp [init, buddyInit]
    · intro index hindex
      rw [show tiles (liveSet (init sizepow2 membase memory)) ∅ (initLists sizepow2) =
        {⟨0, sizepow2⟩} from htiles] at hindex
      have hne : index ≠ 0 := by
        intro heq
        exact hindex _ rfl (by simp [heq])
      simp [init, buddyInit, hne]
  · rw [freeBlocks_initLists]
    rintro block rfl hbuddy
    exact Block.buddy_ne (dvd_zero _) hbuddy

/-! ## Allocation -/

/-- A request of `2 ^ 31` bytes or more never leaves the size loop. -/
theorem mforsizeLoop_eq_none {nbytes : ℕ} (hnbytes : 2 ^ 31 ≤ nbytes) (fuel : ℕ) :
    ∀ pow2 m, (pow2 = 0 ∨ ∃ k ≤ 31, pow2 = 2 ^ k) →
      mforsizeLoop nbytes fuel pow2 m = none := by
  induction fuel with
  | zero =>
      intro pow2 m _
      rfl
  | succ fuel ih =>
      intro pow2 m hpow2
      have hle : pow2 ≤ nbytes := by
        rcases hpow2 with rfl | ⟨k, hk, rfl⟩
        · exact Nat.zero_le _
        · exact (Nat.pow_le_pow_right (by omega) hk).trans hnbytes
      rw [mforsizeLoop, if_pos hle]
      apply ih
      rcases hpow2 with rfl | ⟨k, hk, rfl⟩
      · left
        rfl
      · rcases hk.eq_or_lt with rfl | hlt
        · left
          rfl
        · right
          refine ⟨k + 1, hlt, ?_⟩
          rw [← pow_succ]
          apply Nat.mod_eq_of_lt
          calc 2 ^ (k + 1) ≤ 2 ^ 31 := Nat.pow_le_pow_right (by omega) hlt
            _ < wordCount := by norm_num [wordCount]

theorem mforsize_eq_error (ma : MemArea) {nbytes : ℕ} (hnbytes : 2 ^ 31 ≤ nbytes) :
    mforsize ma nbytes = .error .diverges := by
  rw [mforsize, mforsizeLoop_eq_none hnbytes 33 1 0 (Or.inr ⟨0, by omega, rfl⟩)]

/-- The free lists hold no block of order `m` or more. -/
def Exhausted (session : Session) (m : ℕ) : Prop :=
  ∀ block ∈ session.freeSet, block.order < m

theorem freeSet_eq {session : Session} {lists : ℕ → List ℕ} {live hand : Set Block}
    (hrep : Rep session.area live hand lists) : session.freeSet = freeBlocks lists := by
  ext block
  constructor
  · rintro ⟨-, hle, nodes, hchain, hmem⟩
    have hlt : block.order < 32 := by
      have := hrep.free_lists.upper_le
      omega
    have heq := isChain_unique hchain (hrep.free_lists.chain block.order hlt)
    rw [heq] at hmem
    exact hmem
  · intro hfree
    refine ⟨?_, hrep.order_le (Rep.free_mem hfree), lists block.order, ?_, hfree⟩
    · rw [hrep.free_lists.lower_eq]
      exact hrep.order_ge block (Rep.free_mem hfree)
    · exact hrep.free_lists.chain block.order (hrep.order_lt (Rep.free_mem hfree))

theorem liveSet_cons (area : MemArea) (block : Block) (live : List Block) :
    liveSet ⟨area, block :: live⟩ = insert block {other | other ∈ live} := by
  ext other
  simp [liveSet]

/-- An allocation either adds a live block of the requested order or finds no
free block that is large enough. -/
theorem step_alloc (userland : Bool) {session : Session} (hinv : session.Inv) {nbytes : ℕ}
    (hnbytes : nbytes < 2 ^ 31) :
    (∃ area base, session.step userland (.alloc nbytes) =
        .ok ⟨area, ⟨base, requestOrder nbytes⟩ :: session.live⟩ ∧
        Inv ⟨area, ⟨base, requestOrder nbytes⟩ :: session.live⟩ ∧
        area.upper = session.area.upper) ∨
      (session.Exhausted (requestOrder nbytes) ∧ session.step userland (.alloc nbytes) =
        if userland then .ok session else .error .exhausted) := by
  obtain ⟨hnodup, lists, hrep, hbuddies⟩ := hinv
  have hmforsize : mforsize session.area nbytes = .ok (requestOrder nbytes) := by
    rw [mforsize_eq session.area hnbytes, hrep.free_lists.lower_eq]
    rfl
  rcases buddyAlloc_spec userland hrep hbuddies hnbytes with
    ⟨cm, base, area, halloc, hallocated⟩ | ⟨hnone, halloc⟩
  · left
    have hptr : session.area.mem + base ≠ 0 := by
      have := hrep.mem_pos
      omega
    have hbase : session.area.mem + base - area.mem = base := by
      rw [hallocated.keeps.mem]
      omega
    refine ⟨area, base, ?_, ⟨?_, _, ?_, hallocated.noBuddies⟩, hallocated.keeps.upper⟩
    · simp only [step, hmforsize, ok_bind, halloc, hptr, if_false, hbase, pure_eq_ok]
    · refine List.nodup_cons.mpr ⟨?_, hnodup⟩
      intro hlive
      obtain ⟨rest, hfirst⟩ := hallocated.first
      have hfree : (⟨base, cm⟩ : Block) ∈ freeBlocks lists := by simp [hfirst]
      have heq := hrep.tiling.eq_of_base (Rep.live_mem hlive) (Rep.free_mem hfree) rfl
      exact hrep.live_not_free hlive (heq ▸ hfree)
    · rw [liveSet_cons]
      exact hallocated.rep
  · right
    constructor
    · intro block hblock
      rw [freeSet_eq hrep] at hblock
      by_contra hle
      push Not at hle
      have hempty := hnone block.order hle
      have hmem : block.base ∈ lists block.order := hblock
      rw [hempty] at hmem
      exact absurd hmem List.not_mem_nil
    · simp only [step, hmforsize, ok_bind, halloc]
      cases userland <;> rfl

/-- An area has no more live blocks than units of 256 bytes. -/
theorem length_live_le {session : Session} (hinv : session.Inv) :
    session.live.length ≤ 2 ^ (session.area.upper - 8) := by
  obtain ⟨hnodup, lists, hrep, -⟩ := hinv
  have hunit : ∀ block ∈ session.live, 256 * (block.base / 256) = block.base ∧
      block.base < 2 ^ session.area.upper := by
    intro block hblock
    have htile : block ∈ tiles session.liveSet ∅ lists := Rep.live_mem hblock
    have hdvd : 2 ^ 8 ∣ block.base :=
      (pow_dvd_pow 2 (hrep.order_ge block htile)).trans (hrep.tiling.aligned block htile)
    have hinside := hrep.tiling.inside block htile
    have hpos : 0 < 2 ^ block.order := by positivity
    exact ⟨Nat.mul_div_cancel' hdvd, by omega⟩
  have hunits : (session.live.map fun block => block.base / 256).Nodup := by
    refine List.Nodup.map_on (fun left hleft right hright heq => ?_) hnodup
    refine hrep.tiling.eq_of_base (Rep.live_mem hleft) (Rep.live_mem hright) ?_
    rw [← (hunit left hleft).1, ← (hunit right hright).1, heq]
  have hsubset : (session.live.map fun block => block.base / 256) ⊆
      List.range (2 ^ (session.area.upper - 8)) := by
    intro unit hmem
    obtain ⟨block, hblock, rfl⟩ := List.mem_map.mp hmem
    have hsplit : 2 ^ session.area.upper = 2 ^ (session.area.upper - 8) * 256 := by
      rw [show (256 : ℕ) = 2 ^ 8 from rfl, ← pow_add,
        Nat.sub_add_cancel hrep.free_lists.upper_ge]
    rw [List.mem_range, Nat.div_lt_iff_lt_mul (by norm_num), ← hsplit]
    exact (hunit block hblock).2
  have hle := (hunits.subperm hsubset).length_le
  rwa [List.length_map, List.length_range] at hle

/-! ## Release -/

theorem step_free (userland : Bool) {session : Session} (hinv : session.Inv) {block : Block}
    (hblock : block ∈ session.live) :
    ∃ area, session.step userland (.free (session.pointer block)) =
        .ok ⟨area, session.live.erase block⟩ ∧ Inv ⟨area, session.live.erase block⟩ ∧
      area.upper = session.area.upper := by
  obtain ⟨hnodup, lists, hrep, hbuddies⟩ := hinv
  obtain ⟨area, lists', hfree, hrep', hbuddies', hkeeps⟩ :=
    buddyFree_spec hrep hbuddies hblock
  have hfilter : (session.live.filter fun other =>
      session.pointer other ≠ session.pointer block) = session.live.erase block := by
    rw [hnodup.erase_eq_filter]
    apply List.filter_congr
    intro other hother
    have hiff : session.pointer other ≠ session.pointer block ↔ other ≠ block := by
      refine not_congr ⟨fun heq => ?_, fun heq => heq ▸ rfl⟩
      refine hrep.tiling.eq_of_base (Rep.live_mem hother) (Rep.live_mem hblock) ?_
      simp only [pointer] at heq
      omega
    rw [Bool.eq_iff_iff, decide_eq_true_iff, bne_iff_ne]
    exact hiff
  have hlive : liveSet ⟨area, session.live.erase block⟩ = session.liveSet \ {block} := by
    ext other
    simp only [liveSet, Set.mem_sdiff, Set.mem_singleton_iff, Set.mem_ofPred_eq]
    rw [hnodup.mem_erase_iff]
    tauto
  refine ⟨area, ?_, ⟨hnodup.erase block, lists', ?_, hbuddies'⟩, hkeeps.upper⟩
  · simp only [step]
    rw [show session.pointer block = session.area.mem + block.base from rfl] at hfilter ⊢
    rw [hfree, ok_bind, pure_eq_ok, hfilter]
  · rw [hlive]
    exact hrep'

/-! ## Client writes -/

theorem step_write (userland : Bool) {session : Session} (hinv : session.Inv)
    {address : ℕ} {byte : UInt8} (hallowed : session.Allowed (.write address byte)) :
    ∃ session', session.step userland (.write address byte) = .ok session' ∧
      session'.Inv ∧ session'.area.upper = session.area.upper := by
  obtain ⟨hnodup, lists, hrep, hbuddies⟩ := hinv
  obtain ⟨block, hblock, hlow, hhigh⟩ := hallowed
  refine ⟨_, rfl, ⟨hnodup, lists, ?_, hbuddies⟩, rfl⟩
  -- the links of the free blocks lie outside the written live block
  have hlink : ∀ m, ∀ node ∈ lists m,
      load32 (Function.update session.area.memory address byte) (session.area.mem + node) =
        session.area.link node := by
    intro m node hnode
    have hfree : (⟨node, m⟩ : Block) ∈ freeBlocks lists := hnode
    have hne : (⟨node, m⟩ : Block) ≠ block := fun heq =>
      hrep.live_not_free hblock (heq ▸ hfree)
    have hoff := hrep.live_off_word hblock (Rep.free_mem hfree) hne hlow hhigh
    apply load32_congr
    intro x hxlow hxhigh
    rw [Function.update_of_ne (by omega)]
  exact
    { free_lists :=
        { hrep.free_lists with
          chain := fun m hm => isChain_congr (hlink m) (hrep.free_lists.chain m hm) }
      mem_pos := hrep.mem_pos
      mem_le := hrep.mem_le
      tiling := hrep.tiling
      order_ge := hrep.order_ge
      hand_free := hrep.hand_free
      live_info := hrep.live_info
      hand_info := hrep.hand_info
      free_info := hrep.free_info
      other_info := hrep.other_info }

/-- Every operation that returns keeps the invariant and the size of the area. -/
theorem step_inv {userland : Bool} {session session' : Session} (hinv : session.Inv)
    (hstep : Step userland session session') :
    session'.Inv ∧ session'.area.upper = session.area.upper := by
  obtain ⟨operation, hallowed, hrun⟩ := hstep
  cases operation with
  | alloc nbytes =>
      by_cases hnbytes : nbytes < 2 ^ 31
      · rcases step_alloc userland hinv hnbytes with ⟨area, base, hok, hafter⟩ | ⟨-, hfail⟩
        · rw [hok] at hrun
          cases hrun
          exact hafter
        · rw [hfail] at hrun
          cases userland with
          | false => cases hrun
          | true =>
              cases hrun
              exact ⟨hinv, rfl⟩
      · rw [step, mforsize_eq_error session.area (by omega)] at hrun
        cases hrun
  | free ptr =>
      obtain ⟨block, hblock, rfl⟩ := hallowed
      obtain ⟨area, hok, hafter⟩ := step_free userland hinv hblock
      rw [hok] at hrun
      cases hrun
      exact hafter
  | write address byte =>
      obtain ⟨after, hok, hafter⟩ := step_write userland hinv hallowed
      rw [hok] at hrun
      cases hrun
      exact hafter

/-- The invariant holds along every run. -/
theorem run_inv {userland : Bool} {session session' : Session} (hinv : session.Inv)
    (hrun : Relation.ReflTransGen (Step userland) session session') :
    session'.Inv ∧ session'.area.upper = session.area.upper := by
  induction hrun with
  | refl => exact ⟨hinv, rfl⟩
  | tail _ hstep ih =>
      obtain ⟨hinv', hupper⟩ := step_inv ih.1 hstep
      exact ⟨hinv', hupper.trans ih.2⟩

/-! ## The allocator's invariant -/

/-- What a session looks like to a reader of `buddy.c`. -/
structure WellFormed (session : Session) : Prop where
  /-- live and free blocks partition the area into aligned blocks -/
  partition : Tiling (session.liveSet ∪ session.freeSet) session.area.upper
  disjoint : Disjoint session.liveSet session.freeSet
  orders : ∀ block ∈ session.liveSet ∪ session.freeSet,
    8 ≤ block.order ∧ block.order ≤ session.area.upper
  /-- every free list is finite, duplicate-free and consists of unused blocks of
  its order -/
  freelists : ∀ m < 32, ∃ nodes,
    IsChain session.area.link empty (session.area.freelist m) nodes ∧ nodes.Nodup ∧
      ∀ node ∈ nodes, session.area.blocks (session.area.index node) = ⟨m, false⟩
  /-- a live block is recorded with its order -/
  live_entry : ∀ block ∈ session.liveSet,
    session.area.blocks (session.area.index block.base) = ⟨block.order, true⟩
  /-- an entry that is not the head of a block is zero -/
  other_entry : ∀ index < session.area.nblocks,
    (∀ block ∈ session.liveSet ∪ session.freeSet, session.area.index block.base ≠ index) →
      session.area.blocks index = ⟨0, false⟩
  /-- no two live blocks overlap -/
  live_nodup : session.live.Nodup
  live_apart : ∀ left ∈ session.live, ∀ right ∈ session.live, left ≠ right →
    ¬ left.Meets right

theorem tiles_eq {session : Session} {lists : ℕ → List ℕ}
    (hrep : Rep session.area session.liveSet ∅ lists) :
    tiles session.liveSet ∅ lists = session.liveSet ∪ session.freeSet := by
  rw [freeSet_eq hrep, tiles, Set.union_empty]

theorem wellFormed_of_inv {session : Session} (hinv : session.Inv) : session.WellFormed := by
  obtain ⟨hnodup, lists, hrep, -⟩ := hinv
  have htiles := tiles_eq hrep
  have hfree := freeSet_eq hrep
  refine
    { partition := by rw [← htiles]; exact hrep.tiling
      disjoint := ?_
      orders := ?_
      freelists := ?_
      live_entry := ?_
      other_entry := ?_
      live_nodup := hnodup
      live_apart := ?_ }
  · rw [hfree]
    exact Set.disjoint_left.mpr fun block hlive => hrep.live_not_free hlive
  · rw [← htiles]
    exact fun block hblock => ⟨hrep.order_ge block hblock, hrep.order_le hblock⟩
  · intro m hm
    refine ⟨lists m, hrep.free_lists.chain m hm, hrep.free_lists.nodup m, ?_⟩
    intro node hnode
    rw [hrep.index_eq]
    exact hrep.free_info ⟨node, m⟩ hnode
  · intro block hblock
    rw [hrep.index_eq]
    exact hrep.live_info block hblock
  · intro index _ hindex
    apply hrep.other_info
    rw [htiles]
    intro block hblock heq
    apply hindex block hblock
    rw [hrep.index_eq, heq]
    omega
  · intro left hleft right hright hne hmeets
    exact hne (hrep.tiling.unique left (Rep.live_mem hleft) right (Rep.live_mem hright) hmeets)

/-- A request for less than `2 ^ 31` bytes; other operations have no size. -/
def SmallRequest : Operation → Prop
  | .alloc nbytes => nbytes < 2 ^ 31
  | _ => True

/-- No call faults in any session of the given build. -/
def NeverFaults (userland : Bool) : Prop :=
  ∀ (sizepow2 membase : ℕ) (memory : Memory), 8 ≤ sizepow2 → sizepow2 ≤ 30 →
    0 < membase → membase + 2 ^ sizepow2 ≤ wordCount →
    ∀ session, Relation.ReflTransGen (Step userland) (init sizepow2 membase memory) session →
      ∀ operation, session.Allowed operation → SmallRequest operation →
        ∃ session', session.step userland operation = .ok session'

/-- In every session from `buddy_init` on, whatever the clients allocate, release
and write, the blocks partition the area, the free lists and the `blocks` array
record exactly these blocks, and the next call faults only through the
`assert(0)` of the kernel build, when the free lists hold no block of the
requested order. -/
theorem sessions_wellFormed (userland : Bool) {sizepow2 membase : ℕ} (memory : Memory)
    (hlow : 8 ≤ sizepow2) (hhigh : sizepow2 ≤ 30) (hpos : 0 < membase)
    (hfits : membase + 2 ^ sizepow2 ≤ wordCount) {session : Session}
    (hrun : Relation.ReflTransGen (Step userland) (init sizepow2 membase memory) session) :
    session.WellFormed ∧
      ∀ operation, session.Allowed operation → SmallRequest operation →
        (∃ session', session.step userland operation = .ok session') ∨
          (userland = false ∧ session.step userland operation = .error .exhausted ∧
            ∃ nbytes, operation = .alloc nbytes ∧
              session.Exhausted (requestOrder nbytes)) := by
  obtain ⟨hinv, -⟩ := run_inv (init_inv memory hlow hhigh hpos hfits) hrun
  refine ⟨wellFormed_of_inv hinv, ?_⟩
  intro operation hallowed hsmall
  cases operation with
  | alloc nbytes =>
      rcases step_alloc userland hinv hsmall with ⟨area, base, hok, -⟩ | ⟨hnone, hfail⟩
      · exact Or.inl ⟨_, hok⟩
      · cases userland with
        | true => exact Or.inl ⟨_, hfail⟩
        | false => exact Or.inr ⟨rfl, hfail, nbytes, rfl, hnone⟩
  | free ptr =>
      obtain ⟨block, hblock, rfl⟩ := hallowed
      obtain ⟨area, hok, -, -⟩ := step_free userland hinv hblock
      exact Or.inl ⟨_, hok⟩
  | write address byte => exact Or.inl ⟨_, rfl⟩

theorem sessions_wellFormed_alloc :
    ∃ session, (init 9 4096 fun _ => 0).step true (.alloc 100) = .ok session ∧
      session.live = [⟨0, 8⟩] ∧ session.WellFormed := by
  obtain ⟨session, hstep, hlive⟩ :
      ∃ session, (init 9 4096 fun _ => 0).step true (.alloc 100) = .ok session ∧
        session.live = [⟨0, 8⟩] := ⟨_, rfl, rfl⟩
  have hrun : Relation.ReflTransGen (Step true) (init 9 4096 fun _ => 0) session :=
    .single ⟨.alloc 100, trivial, hstep⟩
  exact ⟨session, hstep, hlive,
    (@sessions_wellFormed true 9 4096 (fun _ => 0) (by decide) (by decide) (by decide) (by decide)
      session hrun).1⟩

/-- The kernel build asserts when a fresh area of 256 bytes is asked for 256
bytes: the request needs a block of 512. -/
theorem kernel_build_faults : ¬ NeverFaults false := by
  intro hnever
  obtain ⟨session', hstep⟩ := hnever 8 4096 (fun _ => 0) (by decide) (by decide) (by decide)
    (by decide) _ Relation.ReflTransGen.refl (.alloc 256) trivial (by simp [SmallRequest])
  have hfault : (init 8 4096 fun _ => 0).step false (.alloc 256) = .error .exhausted := by
    rfl
  rw [hfault] at hstep
  cases hstep

/-! ## Coalescing -/

theorem freeSet_eq_maximalFree {session : Session} (hinv : session.Inv) :
    session.freeSet = maximalFree session.liveSet 8 session.area.upper := by
  obtain ⟨-, lists, hrep, hbuddies⟩ := hinv
  have htiling := hrep.tiling
  rw [tiles_eq hrep] at htiling
  have hfree := freeSet_eq hrep
  refine free_eq_maximalFree htiling ?_ ?_ ?_
  · rw [hfree]
    exact hbuddies
  · intro block hblock
    rw [hfree] at hblock
    exact hrep.order_ge block (Rep.free_mem hblock)
  · rw [hfree]
    exact Set.disjoint_left.mpr fun block hlive => hrep.live_not_free hlive

/-- The `blocks` array is determined by the live and the free blocks. -/
theorem blocks_eq {left right : Session} (hleft : left.Inv) (hright : right.Inv)
    (hlive : left.liveSet = right.liveSet) (hfree : left.freeSet = right.freeSet) :
    left.area.blocks = right.area.blocks := by
  obtain ⟨-, lists, hrep, -⟩ := hleft
  obtain ⟨-, lists', hrep', -⟩ := hright
  have hfreeBlocks : freeBlocks lists = freeBlocks lists' := by
    rw [← freeSet_eq hrep, ← freeSet_eq hrep', hfree]
  rw [hlive] at hrep
  funext index
  by_cases hhead : ∃ block ∈ tiles right.liveSet ∅ lists', block.base = 256 * index
  · obtain ⟨block, hblock, hbase⟩ := hhead
    have hindex : block.base / 256 = index := by omega
    rw [← hindex]
    rcases mem_tiles.mp hblock with hblock | hblock | hblock
    · rw [hrep.live_info block hblock, hrep'.live_info block hblock]
    · exact absurd hblock (Set.notMem_empty block)
    · rw [hrep'.free_info block hblock, hrep.free_info block (hfreeBlocks ▸ hblock)]
  · push Not at hhead
    rw [hrep'.other_info index hhead, hrep.other_info index]
    intro block hblock
    apply hhead block
    rw [mem_tiles] at hblock ⊢
    rwa [← hfreeBlocks]

/-- Releasing some of the live blocks always succeeds. -/
theorem freeAll_spec (blocks : List Block) :
    ∀ {session : Session}, session.Inv → blocks.Nodup →
      (∀ block ∈ blocks, block ∈ session.live) →
      ∃ session', session.freeAll blocks = .ok session' ∧ session'.Inv ∧
        session'.area.upper = session.area.upper ∧
        ∀ block, block ∈ session'.live ↔ block ∈ session.live ∧ block ∉ blocks := by
  induction blocks with
  | nil =>
      intro session hinv _ _
      exact ⟨session, rfl, hinv, rfl, by simp⟩
  | cons first blocks ih =>
      intro session hinv hnodup hmem
      obtain ⟨area, hok, hinv', hupper⟩ := step_free true hinv (hmem first (by simp))
      have hlive : ∀ block, block ∈ session.live.erase first ↔
          block ≠ first ∧ block ∈ session.live := fun block => hinv.1.mem_erase_iff
      obtain ⟨hfirst, hrest⟩ := List.nodup_cons.mp hnodup
      obtain ⟨session', hfree, hinv'', hupper', hlive'⟩ := ih hinv' hrest (by
        intro block hblock
        rw [hlive]
        exact ⟨fun heq => hfirst (heq ▸ hblock), hmem block (by simp [hblock])⟩)
      refine ⟨session', ?_, hinv'', hupper'.trans hupper, ?_⟩
      · rw [freeAll, hok, ok_bind, hfree]
      · intro block
        rw [hlive', hlive, List.mem_cons]
        tauto

/-- An area without live blocks is one free block. -/
theorem freeSet_of_live_empty {session : Session} (hinv : session.Inv)
    (hlive : session.liveSet = ∅) : session.freeSet = {⟨0, session.area.upper⟩} := by
  obtain ⟨-, lists, hrep, hbuddies⟩ := hinv
  have htiling := hrep.tiling
  rw [tiles_eq hrep, hlive] at htiling
  have hfree := freeSet_eq hrep
  have hcandidate : Candidate ∅ 8 session.area.upper ⟨0, session.area.upper⟩ :=
    ⟨dvd_zero _, hrep.free_lists.upper_ge, (Nat.zero_add _).le, by simp⟩
  obtain ⟨tile, htile, hcontains⟩ :=
    exists_free_contains htiling (by rw [hfree]; exact hbuddies) hcandidate
  have hmem : tile ∈ ∅ ∪ session.freeSet := Or.inr htile
  have horder : session.area.upper ≤ tile.order := hcontains.order_le
  have hinside := htiling.inside tile hmem
  have hsize : 2 ^ session.area.upper ≤ 2 ^ tile.order :=
    Nat.pow_le_pow_right (by omega) horder
  have hexact : tile = ⟨0, session.area.upper⟩ := by
    apply Block.ext
    · change tile.base = 0
      omega
    · exact le_antisymm ((Nat.pow_le_pow_iff_right (by omega)).mp
        (show 2 ^ tile.order ≤ 2 ^ session.area.upper by omega)) horder
  subst hexact
  ext block
  constructor
  · intro hblock
    have hcovers : (⟨0, session.area.upper⟩ : Block).Covers block.base := by
      have hpos : 0 < 2 ^ block.order := by positivity
      have := htiling.inside block (Or.inr hblock)
      change 0 ≤ block.base ∧ block.base < 0 + 2 ^ session.area.upper
      omega
    exact htiling.unique block (Or.inr hblock) _ hmem
      ⟨block.base, block.covers_base, hcovers⟩
  · rintro rfl
    exact htile

/-- In every session the free blocks are the maximal aligned blocks that avoid
the live blocks, and no two of them are buddies.  Releasing a set of live blocks
leads to the same free blocks and the same `blocks` array in every order, and
releasing all of them restores the state of `buddy_init`. -/
theorem coalescing_complete (userland : Bool) {sizepow2 membase : ℕ} (memory : Memory)
    (hlow : 8 ≤ sizepow2) (hhigh : sizepow2 ≤ 30) (hpos : 0 < membase)
    (hfits : membase + 2 ^ sizepow2 ≤ wordCount) {session : Session}
    (hrun : Relation.ReflTransGen (Step userland) (init sizepow2 membase memory) session) :
    session.freeSet = maximalFree session.liveSet 8 sizepow2 ∧
      NoBuddies session.freeSet ∧
      (∀ first second : List Block, first.Perm second → first.Nodup →
        (∀ block ∈ first, block ∈ session.live) →
        ∃ left right, session.freeAll first = .ok left ∧ session.freeAll second = .ok right ∧
          left.freeSet = right.freeSet ∧ left.area.blocks = right.area.blocks) ∧
      (∀ blocks : List Block, blocks.Perm session.live →
        ∃ final, session.freeAll blocks = .ok final ∧ final.freeSet = {⟨0, sizepow2⟩} ∧
          final.area.blocks = (init sizepow2 membase memory).area.blocks) := by
  have hinit := init_inv memory hlow hhigh hpos hfits
  obtain ⟨hinv, hupper⟩ := run_inv hinit hrun
  have hupper' : session.area.upper = sizepow2 := hupper
  refine ⟨?_, ?_, ?_, ?_⟩
  · rw [← hupper']
    exact freeSet_eq_maximalFree hinv
  · obtain ⟨-, lists, hrep, hbuddies⟩ := hinv
    rw [freeSet_eq hrep]
    exact hbuddies
  · intro first second hperm hnodup hmem
    obtain ⟨left, hleft, hinvLeft, hupperLeft, hliveLeft⟩ := freeAll_spec first hinv hnodup hmem
    obtain ⟨right, hright, hinvRight, hupperRight, hliveRight⟩ :=
      freeAll_spec second hinv (hperm.nodup_iff.mp hnodup)
        (fun block hblock => hmem block (hperm.mem_iff.mpr hblock))
    have hlive : left.liveSet = right.liveSet := by
      ext block
      change block ∈ left.live ↔ block ∈ right.live
      rw [hliveLeft, hliveRight, hperm.mem_iff]
    have hfree : left.freeSet = right.freeSet := by
      rw [freeSet_eq_maximalFree hinvLeft, freeSet_eq_maximalFree hinvRight, hlive,
        hupperLeft, hupperRight]
    exact ⟨left, right, hleft, hright, hfree, blocks_eq hinvLeft hinvRight hlive hfree⟩
  · intro blocks hperm
    obtain ⟨final, hfinal, hinvFinal, hupperFinal, hliveFinal⟩ :=
      freeAll_spec blocks hinv (hperm.nodup_iff.mpr hinv.1)
        (fun block hblock => hperm.mem_iff.mp hblock)
    have hlive : final.liveSet = ∅ := by
      ext block
      change block ∈ final.live ↔ False
      rw [hliveFinal, hperm.mem_iff]
      tauto
    have hfree := freeSet_of_live_empty hinvFinal hlive
    rw [hupperFinal, hupper'] at hfree
    have hliveInit : (init sizepow2 membase memory).liveSet = ∅ := by simp [liveSet, init]
    have hfreeInit := freeSet_of_live_empty hinit hliveInit
    refine ⟨final, hfinal, hfree, ?_⟩
    exact blocks_eq hinvFinal hinit (hlive.trans hliveInit.symm) (hfree.trans hfreeInit.symm)

theorem coalescing_complete_alloc :
    ∃ session, (init 9 4096 fun _ => 0).step true (.alloc 100) = .ok session ∧
      session.live = [⟨0, 8⟩] ∧ session.freeSet = maximalFree session.liveSet 8 9 := by
  obtain ⟨session, hstep, hlive⟩ :
      ∃ session, (init 9 4096 fun _ => 0).step true (.alloc 100) = .ok session ∧
        session.live = [⟨0, 8⟩] := ⟨_, rfl, rfl⟩
  have hrun : Relation.ReflTransGen (Step true) (init 9 4096 fun _ => 0) session :=
    .single ⟨.alloc 100, trivial, hstep⟩
  exact ⟨session, hstep, hlive,
    (@coalescing_complete true 9 4096 (fun _ => 0) (by decide) (by decide) (by decide) (by decide)
      session hrun).1⟩

end Session

end Rhythmos.Buddy
