import Rhythmos.Buddy.Sessions

/-!
# Requests to the buddy allocator

What a single request does in any session: when it is served and from where, that
releasing the block at once restores the area, and which order `mforsize` chooses.
An allocation followed by the release of its block splits one free block and merges
exactly the same halves again.
-/

namespace Rhythmos.Buddy

open ByteMemory DyadicTiling LinkedChain Fallible

variable {ma : MemArea} {live : Set Block} {lists : ℕ → List ℕ} {base : ℕ} {rest : List ℕ}

/-! ## Undoing an allocation -/

/-- The free lists after the first block of order `m + count` was split down to order
`m` and its lowest part was taken. -/
def splitTaken (lists : ℕ → List ℕ) (base : ℕ) (rest : List ℕ) (m count j : ℕ) : List ℕ :=
  if j = m + count then rest
  else if m ≤ j ∧ j < m + count then (base + 2 ^ j) :: lists j
  else lists j

theorem splitDown_tail {m : ℕ} (count : ℕ) : ∀ {lists : ℕ → List ℕ} {rest : List ℕ},
    lists (m + count) = base :: rest →
    Function.update (splitDown m count lists) m (splitDown m count lists m).tail =
      splitTaken lists base rest m count := by
  induction count with
  | zero =>
      intro lists rest hlist
      funext j
      by_cases hj : j = m
      · subst hj
        have hlist' : lists j = base :: rest := hlist
        simp [splitDown, splitTaken, hlist']
      · have hnone : ¬ (m ≤ j ∧ j < m + 0) := by omega
        simp [splitDown, splitTaken, hj]
  | succ count ih =>
      intro lists rest hlist
      have hsplit := splitLists_cons (show lists (m + count + 1) = base :: rest from hlist)
      have hhead : splitLists lists (m + (count + 1)) (m + count) =
          base :: (base + 2 ^ (m + count)) :: lists (m + count) := by
        rw [← Nat.add_assoc, hsplit, Function.update_self]
      rw [splitDown, ih hhead]
      funext j
      rw [← Nat.add_assoc, hsplit]
      simp only [splitTaken, ← Nat.add_assoc]
      by_cases htop : j = m + count + 1
      · subst htop
        simp
      · by_cases hnext : j = m + count
        · subst hnext
          simp
        · have hiff : (m ≤ j ∧ j < m + count + 1) ↔ (m ≤ j ∧ j < m + count) := by omega
          simp only [htop, hnext, if_false, hiff, Function.update_of_ne, ne_eq, not_false_eq_true]

/-- Coalescing the part that was taken merges exactly the halves of the split. -/
theorem mergeLoop_undo {lists : ℕ → List ℕ} (count : ℕ) : ∀ {ma : MemArea} {m : ℕ},
    Rep ma live {⟨base, m⟩} (splitTaken lists base rest m count) →
    lists (m + count) = base :: rest → 2 ^ (m + count) ∣ base →
    (⟨base, m + count⟩ : Block).buddy ∉ freeBlocks lists →
    ∃ ma', mergeLoop (ma.upper - m) ma base (⟨base, m⟩ : Block).buddy.base m =
        .ok (ma', base, m + count) ∧
      Rep ma' live {⟨base, m + count⟩} (Function.update lists (m + count) rest) ∧
      Keeps ma ma' live := by
  induction count with
  | zero =>
      intro ma m hrep hlist hdvd hnone
      have hlists : splitTaken lists base rest m 0 = Function.update lists m rest := by
        funext j
        by_cases hj : j = m
        · simp [splitTaken, hj]
        · have hrange : ¬ (m ≤ j ∧ j < m + 0) := by omega
          simp [splitTaken, hj]
      have hlist' : lists m = base :: rest := hlist
      have hbuddy : (⟨base, m⟩ : Block).buddy ∉ freeBlocks (splitTaken lists base rest m 0) := by
        intro hfree
        rw [hlists, mem_freeBlocks_update] at hfree
        rcases hfree with ⟨-, hmem⟩ | ⟨hne, -⟩
        · apply hnone
          have hbuddy : (⟨base, m⟩ : Block).buddy.base ∈
              lists (⟨base, m⟩ : Block).buddy.order := by
            rw [Block.buddy_order, hlist']
            exact List.mem_cons_of_mem _ hmem
          exact hbuddy
        · exact hne (Block.buddy_order _)
      refine ⟨ma, mergeLoop_stop hrep hbuddy, ?_, Keeps.refl ma live⟩
      rw [Nat.add_zero, ← hlists]
      exact hrep
  | succ count ih =>
      intro ma m hrep hlist hdvd hnone
      have hassoc : m + (count + 1) = (m + 1) + count := by omega
      rw [hassoc] at hlist hdvd hnone
      have hlow : 2 ^ (m + 1) ∣ base := (pow_dvd_pow 2 (Nat.le_add_right _ count)).trans hdvd
      have hbuddy : (⟨base, m⟩ : Block).buddy = ⟨base + 2 ^ m, m⟩ := Block.buddy_low hlow
      have hparent : (⟨base, m⟩ : Block).parent = ⟨base, m + 1⟩ := Block.parent_low hlow
      have hhead : splitTaken lists base rest m (count + 1) m = (base + 2 ^ m) :: lists m := by
        have hne : m ≠ m + (count + 1) := by omega
        have hrange : m ≤ m ∧ m < m + (count + 1) := by omega
        rw [splitTaken, if_neg hne, if_pos hrange]
      have hfree : (⟨base, m⟩ : Block).buddy ∈
          freeBlocks (splitTaken lists base rest m (count + 1)) := by
        rw [hbuddy, mem_freeBlocks, hhead]
        exact List.mem_cons_self
      obtain ⟨ma₁, hstep, hrep₁, hkeeps₁⟩ := mergeLoop_step hrep hfree
      have hlists : Function.update (splitTaken lists base rest m (count + 1)) m
          ((splitTaken lists base rest m (count + 1) m).erase (⟨base, m⟩ : Block).buddy.base) =
            splitTaken lists base rest (m + 1) count := by
        rw [hbuddy, hhead, List.erase_cons_head]
        funext j
        by_cases hj : j = m
        · subst hj
          have hne : j ≠ j + 1 + count := by omega
          have hrange : ¬ (j + 1 ≤ j ∧ j < j + 1 + count) := by omega
          rw [Function.update_self, splitTaken, if_neg hne, if_neg hrange]
        · have hiff : (m ≤ j ∧ j < m + 1 + count) ↔ (m + 1 ≤ j ∧ j < m + 1 + count) := by omega
          rw [Function.update_of_ne hj]
          simp only [splitTaken, hassoc, hiff]
      rw [hparent] at hstep hrep₁
      rw [hlists] at hrep₁
      obtain ⟨ma₂, hloop, hrep₂, hkeeps₂⟩ := ih hrep₁ hlist hdvd hnone
      rw [hassoc]
      exact ⟨ma₂, hstep.trans hloop, hrep₂, hkeeps₁.trans hkeeps₂⟩

/-- Releasing the block of a successful allocation restores the free lists. -/
theorem Allocated.undo (hrep : Rep ma live ∅ lists) (hbuddies : NoBuddies (freeBlocks lists))
    {m cm : ℕ} {ma' : MemArea} (hallocated : Allocated ma live lists m cm base ma') :
    ∃ ma'', buddyFree ma' (ma.mem + base) = .ok ma'' ∧ Rep ma'' live ∅ lists ∧
      Keeps ma' ma'' live := by
  obtain ⟨rest, hlist⟩ := hallocated.first
  have hcm : m + (cm - m) = cm := by
    have := hallocated.order_le
    omega
  have hfree : (⟨base, cm⟩ : Block) ∈ freeBlocks lists := by simp [hlist]
  have hnotLive : (⟨base, m⟩ : Block) ∉ live := by
    intro hlive
    have heq := hrep.tiling.eq_of_base (Rep.live_mem hlive) (Rep.free_mem hfree) rfl
    exact hrep.live_not_free hlive (heq ▸ hfree)
  have hlive : insert (⟨base, m⟩ : Block) live \ {⟨base, m⟩} = live := by
    ext other
    by_cases heq : other = ⟨base, m⟩
    · simp [heq, hnotLive]
    · simp [heq]
  have hrep' := hallocated.rep
  rw [splitDown_tail (cm - m) (by rw [hcm]; exact hlist)] at hrep'
  obtain ⟨ma₁, hrep₁, hkeeps₁, hstart⟩ := buddyFree_eq hrep' (Set.mem_insert _ _)
  rw [hlive] at hrep₁ hkeeps₁
  obtain ⟨ma₂, hloop, hrep₂, hkeeps₂⟩ := mergeLoop_undo (cm - m) hrep₁ (by rw [hcm]; exact hlist)
    (by rw [hcm]; exact hrep.tiling.aligned _ (Rep.free_mem hfree))
    (by rw [hcm]; exact fun hbuddy => hbuddies _ hfree hbuddy)
  rw [hcm] at hloop hrep₂
  obtain ⟨ma₃, hadd, -, hrep₃, hkeeps₃⟩ := hrep₂.relink (Set.mem_singleton _)
  rw [Set.sdiff_self, Function.update_self, Function.update_idem, ← hlist,
    Function.update_eq_self] at hrep₃
  refine ⟨ma₃, ?_, hrep₃, hkeeps₁.trans (hkeeps₂.trans hkeeps₃)⟩
  rw [hallocated.keeps.mem] at hstart
  rw [hstart, hloop, ok_bind]
  exact hadd

/-! ## The order of a request -/

theorem lt_two_pow_requestOrder (nbytes : ℕ) : nbytes < 2 ^ requestOrder nbytes :=
  (Nat.lt_size_self nbytes).trans_le (Nat.pow_le_pow_right (by omega) (le_max_right _ _))

/-- `mforsize` chooses the least order for the request unless the request is a power of
two that is itself an admissible block size; then it chooses the next order. -/
theorem mforsize_least_iff (ma : MemArea) {nbytes : ℕ} (hpos : 1 ≤ nbytes)
    (hupper : ma.upper ≤ 30) (hnbytes : nbytes ≤ 2 ^ ma.upper) :
    (∃ k, mforsize ma nbytes = .ok k ∧ IsLeast {j | ma.lower ≤ j ∧ nbytes ≤ 2 ^ j} k) ↔
      ¬ ∃ k, ma.lower ≤ k ∧ nbytes = 2 ^ k := by
  have hsmall : nbytes < 2 ^ 31 := by
    have hle : 2 ^ ma.upper ≤ 2 ^ 30 := Nat.pow_le_pow_right (by omega) hupper
    omega
  rw [mforsize_eq ma hsmall]
  constructor
  · rintro ⟨k, horder, -, hleast⟩ ⟨exact, hlower, rfl⟩
    obtain rfl : max ma.lower (2 ^ exact).size = k := Except.ok.inj horder
    have hle := hleast ⟨hlower, le_rfl⟩
    rw [Nat.size_pow] at hle
    omega
  · intro hexact
    refine ⟨_, rfl, ⟨le_max_left _ _, ?_⟩, ?_⟩
    · have hle : nbytes ≤ 2 ^ Nat.size nbytes := (Nat.lt_size_self nbytes).le
      exact hle.trans (Nat.pow_le_pow_right (by omega) (le_max_right _ _))
    · rintro j ⟨hlower, hle⟩
      refine max_le hlower (Nat.size_le.mpr ?_)
      exact lt_of_le_of_ne hle fun heq => hexact ⟨j, hlower, heq⟩

theorem mforsize_least_hundred : ∃ k, mforsize (buddyInit 9 4096 fun _ => 0) 100 = .ok k ∧
    IsLeast {j | (buddyInit 9 4096 fun _ => 0).lower ≤ j ∧ 100 ≤ 2 ^ j} k := by
  refine (@mforsize_least_iff (buddyInit 9 4096 fun _ => 0) 100 (by decide) (by decide)
    (by decide)).mpr ?_
  rintro ⟨k, hlower, heq⟩
  have hlarge : 2 ^ 8 ≤ 2 ^ k := Nat.pow_le_pow_right (by omega) hlower
  omega

/-- A request of 256 bytes is given the order 9, and the whole of a fresh area cannot be
allocated. -/
theorem exact_request_rounded_up :
    (¬ ∃ k, mforsize (buddyInit 9 4096 fun _ => 0) 256 = .ok k ∧
      IsLeast {j | (buddyInit 9 4096 fun _ => 0).lower ≤ j ∧ 256 ≤ 2 ^ j} k) ∧
    (buddyAlloc true (buddyInit 9 4096 fun _ => 0) (2 ^ 9)).map Prod.fst = .ok 0 := by
  refine ⟨?_, rfl⟩
  rintro ⟨k, horder, -, hleast⟩
  obtain rfl : 9 = k := Except.ok.inj horder
  have hle : 9 ≤ 8 := hleast ⟨by decide, by decide⟩
  omega

namespace Session

/-! ## Termination -/

/-- A request comes to an end: the size loop stops, at an order that `freelist` has, and the
allocation returns, unless the kernel's build stops at "Memory exhausted". -/
structure Ends (userland : Bool) (ma : MemArea) (nbytes : ℕ) : Prop where
  loop : ∃ fuel m, mforsizeLoop nbytes fuel 1 0 = some m
  order : ∃ m ≤ 31, mforsize ma nbytes = .ok m
  alloc : (∃ ptr area, buddyAlloc userland ma nbytes = .ok (ptr, area)) ∨
    (userland = false ∧ buddyAlloc userland ma nbytes = .error .exhausted)

/-- No number of iterations ends the size loop of a request of `2 ^ 31` bytes or more. -/
theorem not_ends {nbytes : ℕ} (hnbytes : 2 ^ 31 ≤ nbytes) (userland : Bool) (ma : MemArea) :
    ¬ Ends userland ma nbytes := by
  intro hends
  obtain ⟨fuel, m, hloop⟩ := hends.loop
  rw [mforsizeLoop_eq_none hnbytes fuel 1 0 (Or.inr ⟨0, by omega, rfl⟩)] at hloop
  cases hloop

/-- In every session a request comes to an end exactly if it is for less than `2 ^ 31` bytes. -/
theorem ends_iff (userland : Bool) {sizepow2 membase : ℕ} (memory : Memory)
    (hlow : 8 ≤ sizepow2) (hhigh : sizepow2 ≤ 30) (hpos : 0 < membase)
    (hfits : membase + 2 ^ sizepow2 ≤ wordCount) {session : Session}
    (hrun : Relation.ReflTransGen (Step userland) (init sizepow2 membase memory) session)
    (nbytes : ℕ) : Ends userland session.area nbytes ↔ nbytes < 2 ^ 31 := by
  constructor
  · intro hends
    by_contra hlarge
    exact not_ends (Nat.le_of_not_lt hlarge) userland session.area hends
  · intro hnbytes
    obtain ⟨⟨-, lists, hrep, hbuddies⟩, -⟩ := run_inv (init_inv memory hlow hhigh hpos hfits) hrun
    have hsize : Nat.size nbytes ≤ 31 := Nat.size_le.mpr hnbytes
    have hloop : mforsizeLoop nbytes 33 (2 ^ 0) 0 = some (Nat.size nbytes) :=
      mforsizeLoop_eq (Nat.lt_size_self nbytes) hsize 33 0 (Nat.zero_le _)
        (fun _ _ hi => Nat.lt_size.mp hi) (by omega)
    refine
      { loop := ⟨33, Nat.size nbytes, hloop⟩
        order := ⟨max session.area.lower (Nat.size nbytes), ?_, mforsize_eq session.area hnbytes⟩
        alloc := ?_ }
    · rw [hrep.free_lists.lower_eq]
      exact max_le (by decide) hsize
    · rcases buddyAlloc_spec userland hrep hbuddies hnbytes with
        ⟨cm, base, area, halloc, -⟩ | ⟨-, halloc⟩
      · exact .inl ⟨_, area, halloc⟩
      · cases userland with
        | true => exact .inl ⟨0, session.area, halloc⟩
        | false => exact .inr ⟨rfl, halloc⟩

theorem ends_hundred : Ends false (buddyInit 9 4096 fun _ => 0) 100 :=
  (@ends_iff false 9 4096 (fun _ => 0) (by decide) (by decide) (by decide) (by decide) _ .refl
    100).mpr (by decide)

/-- The size loop for a request of 2 GB doubles `pow2` to 0. -/
theorem two_gb_request_hangs : ¬ Ends false (buddyInit 9 4096 fun _ => 0) 0x80000000 ∧
    buddyAlloc false (buddyInit 9 4096 fun _ => 0) 0x80000000 = .error .diverges := by
  refine ⟨not_ends (by decide) _ _, ?_⟩
  rw [buddyAlloc, mforsize_eq_error _ (by decide)]
  rfl

/-! ## Requests in a session -/

/-- What a request of order `m` does in the build that returns `NULL` on exhaustion:
the result and the area after it. -/
structure Served (session : Session) (nbytes m ptr : ℕ) (area : MemArea) : Prop where
  large : nbytes < 2 ^ m
  succeeds : ptr ≠ 0 ↔ ∃ block ∈ session.freeSet, m ≤ block.order
  block : ptr ≠ 0 → ∃ base, ptr = session.area.mem + base ∧
    area.blocks (area.index base) = ⟨m, true⟩ ∧
    ∃ source ∈ session.freeSet, m ≤ source.order ∧
      (∀ other ∈ session.freeSet, m ≤ other.order → source.order ≤ other.order) ∧
      source.base ≤ base ∧ base + 2 ^ m ≤ source.base + 2 ^ source.order
  headers : ∀ block ∈ session.live, area.blocks (area.index block.base) =
    session.area.blocks (session.area.index block.base)
  contents : ∀ block ∈ session.live, ∀ address, session.pointer block ≤ address →
    address < session.pointer block + 2 ^ block.order →
      area.memory address = session.area.memory address
  unchanged : ptr = 0 → area = session.area

theorem served_of_allocated {session : Session} {lists : ℕ → List ℕ} {nbytes cm base : ℕ}
    {area : MemArea} (hrep : Rep session.area session.liveSet ∅ lists)
    (hallocated : Allocated session.area session.liveSet lists (requestOrder nbytes) cm base
      area) :
    Served session nbytes (requestOrder nbytes) (session.area.mem + base) area := by
  obtain ⟨rest, hfirst⟩ := hallocated.first
  have hnull : session.area.mem + base ≠ 0 := by
    have := hrep.mem_pos
    omega
  have hsource : (⟨base, cm⟩ : Block) ∈ session.freeSet := by
    rw [freeSet_eq hrep]
    simp [hfirst]
  have hindex := hallocated.rep.index_eq
  refine
    { large := lt_two_pow_requestOrder nbytes
      succeeds := iff_of_true hnull ⟨_, hsource, hallocated.order_le⟩
      block := fun _ => ⟨base, rfl, ?_, ⟨base, cm⟩, hsource, hallocated.order_le, ?_, le_rfl, ?_⟩
      headers := ?_
      contents := fun block hblock => hallocated.keeps.contents block hblock
      unchanged := fun h => absurd h hnull }
  · rw [hindex]
    exact hallocated.rep.live_info _ (Set.mem_insert _ _)
  · intro other hother horder
    by_contra hlt
    have hempty := hallocated.smallest other.order horder (by simpa using hlt)
    rw [freeSet_eq hrep] at hother
    have hmem : other.base ∈ lists other.order := hother
    rw [hempty] at hmem
    exact absurd hmem List.not_mem_nil
  · exact Nat.add_le_add_left (Nat.pow_le_pow_right (by omega) hallocated.order_le) base
  · intro block hblock
    rw [hindex, hrep.index_eq, hallocated.rep.live_info block (Set.mem_insert_of_mem _ hblock),
      hrep.live_info block hblock]

/-- In every session a request below `2 ^ 31` bytes succeeds exactly when some free block
is large enough, is then served from the smallest such block, and leaves the live blocks
alone; a request that fails changes nothing. -/
theorem alloc_serves {sizepow2 membase : ℕ} (memory : Memory) (hlow : 8 ≤ sizepow2)
    (hhigh : sizepow2 ≤ 30) (hpos : 0 < membase) (hfits : membase + 2 ^ sizepow2 ≤ wordCount)
    {session : Session}
    (hrun : Relation.ReflTransGen (Step true) (init sizepow2 membase memory) session)
    {nbytes : ℕ} (hnbytes : nbytes < 2 ^ 31) :
    ∃ m ptr area, mforsize session.area nbytes = .ok m ∧
      buddyAlloc true session.area nbytes = .ok (ptr, area) ∧
      Served session nbytes m ptr area := by
  obtain ⟨⟨-, lists, hrep, hbuddies⟩, -⟩ := run_inv (init_inv memory hlow hhigh hpos hfits) hrun
  have hmforsize : mforsize session.area nbytes = .ok (requestOrder nbytes) := by
    rw [mforsize_eq session.area hnbytes, hrep.free_lists.lower_eq]
    rfl
  refine ⟨requestOrder nbytes, ?_⟩
  rcases buddyAlloc_spec true hrep hbuddies hnbytes with
    ⟨cm, base, area, halloc, hallocated⟩ | ⟨hnone, halloc⟩
  · exact ⟨_, area, hmforsize, halloc, served_of_allocated hrep hallocated⟩
  · refine ⟨0, session.area, hmforsize, halloc, ?_⟩
    have hfail : ¬ ∃ block ∈ session.freeSet, requestOrder nbytes ≤ block.order := by
      rintro ⟨block, hblock, horder⟩
      rw [freeSet_eq hrep] at hblock
      have hmem : block.base ∈ lists block.order := hblock
      rw [hnone block.order horder] at hmem
      exact absurd hmem List.not_mem_nil
    exact
      { large := lt_two_pow_requestOrder nbytes
        succeeds := iff_of_false (fun h => h rfl) hfail
        block := fun h => absurd rfl h
        headers := fun _ _ => rfl
        contents := fun _ _ _ _ _ => rfl
        unchanged := fun _ => rfl }

theorem alloc_serves_fresh : ∃ m ptr area, mforsize (buddyInit 9 4096 fun _ => 0) 100 = .ok m ∧
    buddyAlloc true (buddyInit 9 4096 fun _ => 0) 100 = .ok (ptr, area) ∧
    Served (init 9 4096 fun _ => 0) 100 m ptr area :=
  @alloc_serves 9 4096 (fun _ => 0) (by decide) (by decide) (by decide) (by decide) _ .refl 100
    (by decide)

/-- Releasing a block right after its allocation restores every free list and the whole
`blocks` array. -/
theorem free_undoes_alloc (userland : Bool) {sizepow2 membase : ℕ} (memory : Memory)
    (hlow : 8 ≤ sizepow2) (hhigh : sizepow2 ≤ 30) (hpos : 0 < membase)
    (hfits : membase + 2 ^ sizepow2 ≤ wordCount) {session : Session}
    (hrun : Relation.ReflTransGen (Step userland) (init sizepow2 membase memory) session)
    {nbytes ptr : ℕ} {area : MemArea} (hnbytes : nbytes < 2 ^ 31)
    (halloc : buddyAlloc userland session.area nbytes = .ok (ptr, area)) (hptr : ptr ≠ 0) :
    ∃ area', buddyFree area ptr = .ok area' ∧ area'.blocks = session.area.blocks ∧
      ∀ m < 32, ∃ nodes, IsChain session.area.link empty (session.area.freelist m) nodes ∧
        IsChain area'.link empty (area'.freelist m) nodes := by
  obtain ⟨hinv, -⟩ := run_inv (init_inv memory hlow hhigh hpos hfits) hrun
  obtain ⟨hnodup, lists, hrep, hbuddies⟩ := id hinv
  rcases buddyAlloc_spec userland hrep hbuddies hnbytes with
    ⟨cm, base, area₁, halloc', hallocated⟩ | ⟨-, halloc'⟩
  · obtain ⟨rfl, rfl⟩ := Prod.mk.inj (Except.ok.inj (halloc.symm.trans halloc'))
    obtain ⟨area', hfree, hrep', -⟩ := hallocated.undo hrep hbuddies
    have hfreeSet : freeSet ⟨area', session.live⟩ = session.freeSet := by
      rw [freeSet_eq hrep, @freeSet_eq ⟨area', session.live⟩ _ _ _ hrep']
    have hinv' : Inv ⟨area', session.live⟩ := ⟨hnodup, lists, hrep', hbuddies⟩
    refine ⟨area', hfree, blocks_eq hinv' hinv rfl hfreeSet, fun m hm => ?_⟩
    exact ⟨lists m, hrep.free_lists.chain m hm, hrep'.free_lists.chain m hm⟩
  · rw [halloc] at halloc'
    cases userland with
    | true =>
        obtain ⟨rfl, -⟩ := Prod.mk.inj (Except.ok.inj halloc')
        exact absurd rfl hptr
    | false => cases halloc'

theorem free_undoes_alloc_fresh : ∃ area area',
    buddyAlloc true (buddyInit 9 4096 fun _ => 0) 100 = .ok (4096, area) ∧
      buddyFree area 4096 = .ok area' ∧ area'.blocks = (buddyInit 9 4096 fun _ => 0).blocks := by
  obtain ⟨area, halloc⟩ : ∃ area, buddyAlloc true (buddyInit 9 4096 fun _ => 0) 100 =
      .ok (4096, area) := ⟨_, rfl⟩
  obtain ⟨area', hfree, hblocks, -⟩ := @free_undoes_alloc true 9 4096 (fun _ => 0) (by decide)
    (by decide) (by decide) (by decide) _ .refl 100 4096 area (by decide) halloc (by decide)
  exact ⟨area, area', halloc, hfree, hblocks⟩

end Session

end Rhythmos.Buddy
