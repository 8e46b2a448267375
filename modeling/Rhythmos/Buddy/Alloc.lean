import Rhythmos.Buddy.Moves

/-!
# Allocation

Specification of `buddy_alloc` against the representation invariant.  The
splitting loop replaces the first free block of some order by its halves until a
block of the requested order is free; the halves it leaves behind have no free
buddies.
-/

namespace Rhythmos.Buddy

open ByteMemory DyadicTiling LinkedChain Fallible

namespace Rep

variable {ma : MemArea} {live hand : Set Block} {lists : ℕ → List ℕ}

theorem keeps_withBlocks (ma : MemArea) (blocks : ℕ → BlockInfo) (live : Set Block) :
    Keeps ma { ma with blocks := blocks } live :=
  ⟨rfl, rfl, rfl, fun _ _ _ _ _ => rfl⟩

theorem getInfo_withBlocks (hrep : Rep ma live hand lists) (blocks : ℕ → BlockInfo)
    {block : ℕ} (hblock : block < 2 ^ ma.upper) :
    getInfo { ma with blocks := blocks } block = .ok (blocks (block / 256)) := by
  have hsize := hrep.size_eq
  have hindex := hrep.index_eq block
  have hlt : ma.index block < ma.nblocks := by omega
  change (if ma.index block < ma.nblocks then _ else _) = _
  rw [if_pos hlt]
  exact congrArg (fun index => Except.ok (blocks index)) hindex

theorem setInfo_withBlocks (hrep : Rep ma live hand lists) (blocks : ℕ → BlockInfo)
    {block : ℕ} (hblock : block < 2 ^ ma.upper) (info : BlockInfo) :
    setInfo { ma with blocks := blocks } block info =
      .ok { ma with blocks := Function.update blocks (block / 256) info } := by
  have hsize := hrep.size_eq
  have hindex := hrep.index_eq block
  have hlt : ma.index block < ma.nblocks := by omega
  change (if ma.index block < ma.nblocks then
    Except.ok { ma with blocks := Function.update blocks (ma.index block) info } else _) = _
  rw [if_pos hlt, hindex]

/-- The head of a free list is its first block. -/
theorem freelist_cons (hrep : Rep ma live hand lists) {m base : ℕ} {rest : List ℕ}
    (hm : m < 32) (hlist : lists m = base :: rest) : getFreelist ma m = .ok base := by
  have hchain := hrep.free_lists.chain m hm
  rw [hlist] at hchain
  rw [getFreelist, if_pos hm, hchain.1]

/-- A free list is empty exactly when its head is `EMPTY`. -/
theorem freelist_eq_empty_iff (hrep : Rep ma live hand lists) {m : ℕ} (hm : m < 32) :
    ma.freelist m = empty ↔ lists m = [] :=
  isChain_head_eq_stop_iff (hrep.free_lists.chain m hm)

end Rep

/-! ## Splitting -/

/-- Effect of one iteration of the splitting loop on the free lists. -/
def splitLists (lists : ℕ → List ℕ) (cm : ℕ) : ℕ → List ℕ :=
  match lists cm with
  | [] => lists
  | base :: rest =>
      Function.update (Function.update lists cm rest) (cm - 1)
        (base :: (base + 2 ^ (cm - 1)) :: lists (cm - 1))

theorem splitLists_cons {lists : ℕ → List ℕ} {order base : ℕ} {rest : List ℕ}
    (hlist : lists (order + 1) = base :: rest) :
    splitLists lists (order + 1) =
      Function.update (Function.update lists (order + 1) rest) order
        (base :: (base + 2 ^ order) :: lists order) := by
  simp [splitLists, hlist]

theorem splitBlock_spec {ma : MemArea} {live : Set Block} {lists : ℕ → List ℕ}
    (hrep : Rep ma live ∅ lists) {order base : ℕ} {rest : List ℕ} (horder : 8 ≤ order)
    (hlist : lists (order + 1) = base :: rest) :
    ∃ ma', splitBlock ma (order + 1) = .ok ma' ∧
      Rep ma' live ∅ (splitLists lists (order + 1)) ∧ Keeps ma ma' live := by
  have hbase : base ∈ lists (order + 1) := by simp [hlist]
  have hfree : (⟨base, order + 1⟩ : Block) ∈ freeBlocks lists := hbase
  have hlt : base < 2 ^ ma.upper := hrep.base_lt (Rep.free_mem hfree)
  have hinside : base + 2 ^ (order + 1) ≤ 2 ^ ma.upper :=
    hrep.tiling.inside _ (Rep.free_mem hfree)
  have hinfo : ma.blocks (base / 256) = ⟨order + 1, false⟩ := hrep.free_info _ hfree
  have hpos : 0 < 2 ^ order := by positivity
  have hpow : 256 ∣ 2 ^ order := by
    rw [show (256 : ℕ) = 2 ^ 8 by norm_num]
    exact pow_dvd_pow 2 horder
  have hhead : getFreelist ma (order + 1) = .ok base :=
    hrep.freelist_cons (hrep.order_lt (Rep.free_mem hfree)) hlist
  obtain ⟨ma₁, hremove, hblocks, hrep₁, hkeeps₁⟩ := hrep.unlink hbase
  rw [show insert (⟨base, order + 1⟩ : Block) ∅ = {⟨base, order + 1⟩} by simp] at hrep₁
  have hupper := hkeeps₁.upper
  have hhand : (⟨base, order + 1⟩ : Block) ∈ ({⟨base, order + 1⟩} : Set Block) := rfl
  -- the entry of the upper half is the interior of a block
  have hinterior : ma₁.blocks ((base + 2 ^ order) / 256) = ⟨0, false⟩ := by
    apply hrep₁.other_info
    intro tile htile heq
    have hdvd : 256 ∣ base := hrep.base_dvd (Rep.free_mem hfree)
    have hmem : (⟨base, order + 1⟩ : Block) ∈ tiles live {⟨base, order + 1⟩}
        (Function.update lists (order + 1) ((lists (order + 1)).erase base)) :=
      Rep.hand_mem hhand
    have htileBase : tile.base = base + 2 ^ order := by omega
    have hsame := hrep₁.tiling.unique tile htile ⟨base, order + 1⟩ hmem
      ⟨tile.base, tile.covers_base, by
        change base ≤ tile.base ∧ tile.base < base + 2 ^ (order + 1)
        rw [pow_succ]
        omega⟩
    rw [hsame] at htileBase
    change base = base + 2 ^ order at htileBase
    omega
  have hentries : (base + 2 ^ order) / 256 ≠ base / 256 := by omega
  have hsplit := hrep₁.splitHand horder hhand
  set blocks₃ := Function.update (Function.update ma₁.blocks (base / 256) ⟨order, false⟩)
    ((base + 2 ^ order) / 256) ⟨order, false⟩ with hblocks₃
  have hlow : blocks₃ (base / 256) = ⟨order, false⟩ := by
    rw [hblocks₃, Function.update_of_ne hentries.symm, Function.update_self]
  have hhigh : blocks₃ ((base + 2 ^ order) / 256) = ⟨order, false⟩ := by
    rw [hblocks₃, Function.update_self]
  have hlt₁ : base < 2 ^ ma₁.upper := by rw [hupper]; exact hlt
  have hlt₂ : base + 2 ^ order < 2 ^ ma₁.upper := by
    rw [hupper]
    rw [pow_succ] at hinside
    omega
  have hset₁ : setSizem ma₁ base order =
      .ok { ma₁ with blocks := Function.update ma₁.blocks (base / 256) ⟨order, false⟩ } := by
    rw [setSizem, hrep₁.getInfo_eq hlt₁, ok_bind, hblocks, hinfo, hrep₁.setInfo_eq hlt₁, hblocks]
  have hset₂ : setSizem
      { ma₁ with blocks := Function.update ma₁.blocks (base / 256) ⟨order, false⟩ }
      (base + 2 ^ order) order = .ok { ma₁ with blocks := blocks₃ } := by
    rw [setSizem, hrep₁.getInfo_withBlocks _ hlt₂, ok_bind, Function.update_of_ne hentries,
      hinterior, hrep₁.setInfo_withBlocks _ hlt₂]
  have hused₁ : isUsed { ma₁ with blocks := blocks₃ } base = .ok false := by
    rw [isUsed, hrep₁.getInfo_withBlocks _ hlt₁, hlow]
    rfl
  have hused₂ : isUsed { ma₁ with blocks := blocks₃ } (base + 2 ^ order) = .ok false := by
    rw [isUsed, hrep₁.getInfo_withBlocks _ hlt₂, hhigh]
    rfl
  -- link the upper half, then the lower half
  have hhighHand : (⟨base + 2 ^ order, order⟩ : Block) ∈
      ({⟨base, order + 1⟩} \ {⟨base, order + 1⟩} : Set Block) ∪
        {⟨base, order⟩, ⟨base + 2 ^ order, order⟩} := by simp
  obtain ⟨ma₄, hadd₄, -, hrep₄, hkeeps₄⟩ := hsplit.relink hhighHand
  have hlowHand : (⟨base, order⟩ : Block) ∈
      (({⟨base, order + 1⟩} \ {⟨base, order + 1⟩} : Set Block) ∪
        {⟨base, order⟩, ⟨base + 2 ^ order, order⟩}) \ {⟨base + 2 ^ order, order⟩} := by simp
  obtain ⟨ma₅, hadd₅, -, hrep₅, hkeeps₅⟩ := hrep₄.relink hlowHand
  refine ⟨ma₅, ?_, ?_, ?_⟩
  · have hused₀ : isUsed ma base = .ok false := by
      rw [isUsed, hrep.getInfo_eq hlt, hinfo]
      rfl
    have hsizem₀ : getSizem ma base = .ok (order + 1) := by
      rw [getSizem, hrep.getInfo_eq hlt, hinfo]
      rfl
    simp only [splitBlock, hhead, hused₀, hsizem₀, ok_bind, check_of, hremove,
      Nat.add_sub_cancel, hset₁, hset₂, hused₁, hused₂, hadd₄, hadd₅]
  · have hhandEmpty : ((({⟨base, order + 1⟩} \ {⟨base, order + 1⟩} : Set Block) ∪
        {⟨base, order⟩, ⟨base + 2 ^ order, order⟩}) \ {⟨base + 2 ^ order, order⟩}) \
          {⟨base, order⟩} = ∅ := by
      ext tile
      simp
    rw [hhandEmpty] at hrep₅
    rw [splitLists_cons hlist]
    convert hrep₅ using 1
    simp [hlist]
  · exact (hkeeps₁.trans (Rep.keeps_withBlocks ma₁ blocks₃ live)).trans
      (hkeeps₄.trans hkeeps₅)

/-- One iteration takes the first block of order `order + 1` off the free lists
and puts its halves there. -/
theorem mem_freeBlocks_splitLists {ma : MemArea} {lists : ℕ → List ℕ}
    (hlists : Lists ma lists) {order base : ℕ} {rest : List ℕ}
    (hlist : lists (order + 1) = base :: rest) {block : Block} :
    block ∈ freeBlocks (splitLists lists (order + 1)) ↔
      (block ∈ freeBlocks lists ∧ block ≠ ⟨base, order + 1⟩) ∨
        block = ⟨base, order⟩ ∨ block = ⟨base + 2 ^ order, order⟩ := by
  have herase : Function.update lists (order + 1) rest =
      Function.update lists (order + 1) ((lists (order + 1)).erase base) := by simp [hlist]
  have hrest : block ∈ freeBlocks (Function.update lists (order + 1) rest) ↔
      block ∈ freeBlocks lists ∧ block ≠ ⟨base, order + 1⟩ := by
    rw [herase]
    exact Rep.mem_freeBlocks_erase hlists
  rw [splitLists_cons hlist, mem_freeBlocks_update]
  by_cases heq : block.order = order
  · have hne : block ≠ ⟨base, order + 1⟩ := by
      intro h
      rw [h] at heq
      simp at heq
    simp only [heq, true_and, List.mem_cons, not_true_eq_false, ne_eq, false_and, or_false,
      Block.ext_iff, and_true, freeBlocks, Set.mem_ofPred_eq]
    simp only [Nat.left_eq_add, one_ne_zero, and_false, not_false_eq_true, and_true]
    tauto
  · simp only [heq, false_and, ne_eq, not_false_eq_true, true_and, false_or, hrest,
      Block.ext_iff, and_false, or_false]

/-- Splitting the first block of an order leaves buddies only at the new head. -/
theorem noBuddies_splitLists {ma : MemArea} {live : Set Block} {lists : ℕ → List ℕ}
    (hrep : Rep ma live ∅ lists) {order base : ℕ} {rest : List ℕ}
    (hlist : lists (order + 1) = base :: rest)
    (hbuddies : NoBuddies (freeBlocks lists \ {⟨base, order + 1⟩})) :
    NoBuddies (freeBlocks (splitLists lists (order + 1)) \ {⟨base, order⟩}) := by
  have hfree : (⟨base, order + 1⟩ : Block) ∈ freeBlocks lists := by
    simp [hlist]
  have hdvd : 2 ^ (order + 1) ∣ base := hrep.tiling.aligned _ (Rep.free_mem hfree)
  have hlow : 2 ^ order ∣ base := (pow_dvd_pow 2 (Nat.le_succ order)).trans hdvd
  have hbuddy : (⟨base, order⟩ : Block).buddy = ⟨base + 2 ^ order, order⟩ :=
    Block.buddy_low hdvd
  have hbuddy' : (⟨base + 2 ^ order, order⟩ : Block).buddy = ⟨base, order⟩ := by
    rw [← hbuddy]
    exact Block.buddy_buddy hlow
  have hnotFree : (⟨base, order⟩ : Block) ∉ freeBlocks lists := by
    intro hmem
    have heq := hrep.tiling.eq_of_base (Rep.free_mem hmem) (Rep.free_mem hfree) rfl
    simp at heq
  rintro block ⟨hblock, hne⟩ ⟨hblock', hne'⟩
  rw [mem_freeBlocks_splitLists hrep.free_lists hlist] at hblock hblock'
  rcases hblock with hold | rfl | rfl
  · rcases hblock' with hold' | heq | heq
    · exact hbuddies block hold hold'
    · exact hne' heq
    · have haligned := hrep.tiling.aligned block (Rep.free_mem hold.1)
      have : block = ⟨base, order⟩ := by
        rw [← Block.buddy_buddy haligned, heq, hbuddy']
      exact hne this
  · exact hne rfl
  · rw [hbuddy'] at hne'
    exact hne' rfl

/-- Effect of the whole splitting loop on the free lists. -/
def splitDown (m : ℕ) : ℕ → (ℕ → List ℕ) → (ℕ → List ℕ)
  | 0, lists => lists
  | count + 1, lists => splitDown m count (splitLists lists (m + (count + 1)))

theorem splitLoop_spec {live : Set Block} {m : ℕ} (hm : 8 ≤ m) {base : ℕ} (count : ℕ) :
    ∀ {ma : MemArea} {lists : ℕ → List ℕ} {rest : List ℕ}, Rep ma live ∅ lists →
      lists (m + count) = base :: rest →
      NoBuddies (freeBlocks lists \ {⟨base, m + count⟩}) →
      ∃ ma', splitLoop m count ma = .ok ma' ∧ Rep ma' live ∅ (splitDown m count lists) ∧
        Keeps ma ma' live ∧ (∃ rest', splitDown m count lists m = base :: rest') ∧
        NoBuddies (freeBlocks (splitDown m count lists) \ {⟨base, m⟩}) := by
  induction count with
  | zero =>
      intro ma lists rest hrep hlist hbuddies
      exact ⟨ma, rfl, hrep, Keeps.refl ma live, ⟨rest, hlist⟩, hbuddies⟩
  | succ count ih =>
      intro ma lists rest hrep hlist hbuddies
      obtain ⟨ma₁, hsplit, hrep₁, hkeeps₁⟩ :=
        splitBlock_spec hrep (show 8 ≤ m + count by omega) hlist
      have hhead : splitLists lists (m + (count + 1)) (m + count) =
          base :: (base + 2 ^ (m + count)) :: lists (m + count) := by
        have hlist' : lists (m + count + 1) = base :: rest := hlist
        simp [splitLists, ← Nat.add_assoc, hlist']
      obtain ⟨ma₂, hloop, hrep₂, hkeeps₂, hrest, hbuddies₂⟩ :=
        ih hrep₁ hhead (noBuddies_splitLists hrep hlist hbuddies)
      refine ⟨ma₂, ?_, hrep₂, hkeeps₁.trans hkeeps₂, hrest, hbuddies₂⟩
      have hsplit' : splitBlock ma (m + (count + 1)) = .ok ma₁ := hsplit
      simp only [splitLoop, hsplit', ok_bind, hloop]

/-! ## Taking a block -/

/-- Removal neither reads nor writes the `blocks` array. -/
theorem removeLoop_withBlocks (ma : MemArea) (blocks : ℕ → BlockInfo) (block fuel : ℕ)
    (slot : Slot) :
    removeLoop { ma with blocks := blocks } block fuel slot =
      (removeLoop ma block fuel slot).map fun ma' => { ma' with blocks := blocks } := by
  induction fuel generalizing slot with
  | zero => rfl
  | succ fuel ih =>
      have hget : getSlot { ma with blocks := blocks } slot = getSlot ma slot := by
        cases slot <;> rfl
      have hset : ∀ value, setSlot { ma with blocks := blocks } slot value =
          (setSlot ma slot value).map fun ma' => { ma' with blocks := blocks } := by
        intro value
        cases slot with
        | head m =>
            simp only [setSlot, setFreelist]
            split <;> rfl
        | link node =>
            simp only [setSlot, setLink]
            split <;> rfl
      have hlink : ∀ node, getLink { ma with blocks := blocks } node = getLink ma node :=
        fun _ => rfl
      simp only [removeLoop, hget, hlink]
      cases getSlot ma slot with
      | error fault => rfl
      | ok current =>
          simp only [ok_bind]
          split
          · rfl
          split
          · cases getLink ma current with
            | error fault => rfl
            | ok next => exact hset next
          · exact ih _

theorem takeBlock_spec {ma : MemArea} {live : Set Block} {lists : ℕ → List ℕ}
    (hrep : Rep ma live ∅ lists) {m base : ℕ} {rest : List ℕ}
    (hlist : lists m = base :: rest) :
    ∃ ma', takeBlock ma m = .ok (ma.mem + base, ma') ∧
      Rep ma' (insert ⟨base, m⟩ live) ∅ (Function.update lists m rest) ∧
      Keeps ma ma' live := by
  have hbase : base ∈ lists m := by simp [hlist]
  have hfree : (⟨base, m⟩ : Block) ∈ freeBlocks lists := hbase
  have hlt : base < 2 ^ ma.upper := hrep.base_lt (Rep.free_mem hfree)
  have hinfo : ma.blocks (base / 256) = ⟨m, false⟩ := hrep.free_info _ hfree
  have hhead : getFreelist ma m = .ok base :=
    hrep.freelist_cons (hrep.order_lt (Rep.free_mem hfree)) hlist
  have hempty : base ≠ empty := hrep.free_lists.ne_empty hbase
  have hused : isUsed ma base = .ok false := by
    rw [isUsed, hrep.getInfo_eq hlt, hinfo]
    rfl
  have hsizem : getSizem ma base = .ok m := by
    rw [getSizem, hrep.getInfo_eq hlt, hinfo]
    rfl
  obtain ⟨ma₁, hremove, hblocks, hrep₁, hkeeps₁⟩ := hrep.unlink hbase
  have herase : (lists m).erase base = rest := by simp [hlist]
  rw [herase] at hrep₁
  have hhand : (⟨base, m⟩ : Block) ∈ (insert ⟨base, m⟩ ∅ : Set Block) := by simp
  have hnotLive : (⟨base, m⟩ : Block) ∉ live := fun h => hrep.live_not_free h hfree
  have hlive' : ∀ other, other ∈ insert (⟨base, m⟩ : Block) live ↔
      (other ∈ live ∧ other ≠ ⟨base, m⟩) ∨ (true = true ∧ other = ⟨base, m⟩) := by
    intro other
    by_cases heq : other = ⟨base, m⟩
    · simp [heq]
    · simp [heq]
  have hhand' : ∀ other, other ∈ (∅ : Set Block) ↔
      (other ∈ (insert ⟨base, m⟩ ∅ : Set Block) ∧ other ≠ ⟨base, m⟩) ∨
        (true = false ∧ other = ⟨base, m⟩) := by
    intro other
    simp
  have hmark := hrep₁.mark true (Rep.hand_mem hhand) (hrep₁.hand_free _ hhand) hlive' hhand'
  set blocks := Function.update ma₁.blocks (base / 256) ⟨m, true⟩ with hblocksEq
  refine ⟨{ ma₁ with blocks := blocks }, ?_, hmark,
    hkeeps₁.trans (Rep.keeps_withBlocks ma₁ blocks live)⟩
  have hsetUsed : setUsed ma base true = .ok { ma with blocks := blocks } := by
    rw [setUsed, hrep.getInfo_eq hlt, ok_bind, hinfo, hrep.setInfo_eq hlt, hblocksEq, hblocks]
  have hremove' : removeFromFreelist { ma with blocks := blocks } m base =
      .ok { ma₁ with blocks := blocks } := by
    have hcommute := removeLoop_withBlocks ma blocks base (ma.nblocks + 1) (.head m)
    have hremoveLoop : removeLoop ma base (ma.nblocks + 1) (.head m) = .ok ma₁ := hremove
    rw [hremoveLoop] at hcommute
    exact hcommute
  have hptr : (base + ma₁.mem) % wordCount = ma.mem + base := by
    rw [hkeeps₁.mem]
    have := hrep.mem_le
    rw [Nat.mod_eq_of_lt (by omega), Nat.add_comm]
  simp only [takeBlock, hhead, ok_bind, check_of hempty, hused, hsizem, check_of, hsetUsed,
    hremove', pure_eq_ok, hptr]

/-! ## Choosing the order -/

/-- The size loop started at `2 ^ k` stops at the first power above `nbytes`. -/
theorem mforsizeLoop_eq {nbytes j : ℕ} (hj : nbytes < 2 ^ j) (hj31 : j ≤ 31) (fuel : ℕ) :
    ∀ k, k ≤ j → (∀ i, k ≤ i → i < j → 2 ^ i ≤ nbytes) → j - k < fuel →
      mforsizeLoop nbytes fuel (2 ^ k) k = some j := by
  induction fuel with
  | zero =>
      intro k _ _ hfuel
      exact absurd hfuel (Nat.not_lt_zero _)
  | succ fuel ih =>
      intro k hk hmin hfuel
      rcases hk.eq_or_lt with rfl | hlt
      · simp [mforsizeLoop, hj]
      · have hle := hmin k le_rfl hlt
        have hdouble : 2 ^ k * 2 % wordCount = 2 ^ (k + 1) := by
          rw [← pow_succ]
          apply Nat.mod_eq_of_lt
          calc 2 ^ (k + 1) ≤ 2 ^ 31 := Nat.pow_le_pow_right (by omega) (by omega)
            _ < wordCount := by norm_num [wordCount]
        rw [mforsizeLoop, if_pos hle, hdouble]
        exact ih (k + 1) hlt (fun i hi => hmin i (by omega)) (by omega)

/-- The order for a request below `2 ^ 31` bytes: the least power of two above
the request, but no less than the granularity. -/
theorem mforsize_eq (ma : MemArea) {nbytes : ℕ} (hnbytes : nbytes < 2 ^ 31) :
    mforsize ma nbytes = .ok (max ma.lower (Nat.size nbytes)) := by
  have hsize : Nat.size nbytes ≤ 31 := Nat.size_le.mpr hnbytes
  have hloop : mforsizeLoop nbytes 33 (2 ^ 0) 0 = some (Nat.size nbytes) := by
    apply mforsizeLoop_eq (Nat.lt_size_self nbytes) hsize 33 0 (Nat.zero_le _)
    · intro i _ hi
      exact Nat.lt_size.mp hi
    · omega
  rw [pow_zero] at hloop
  simp only [mforsize, hloop]
  split
  · rw [max_eq_right ‹_›]
  · rw [max_eq_left (by omega)]

/-- The search returns the first order from `cm` on whose list is not empty, or
`upper + 1`. -/
theorem findLoop_eq {ma : MemArea} {live : Set Block} {lists : ℕ → List ℕ}
    (hrep : Rep ma live ∅ lists) (fuel : ℕ) :
    ∀ cm, fuel = ma.upper + 1 - cm →
      ∃ found, findLoop ma fuel cm = .ok found ∧ cm ≤ found ∧
        (∀ k, cm ≤ k → k < found → lists k = []) ∧
        (ma.upper < found ∨ lists found ≠ []) := by
  induction fuel with
  | zero =>
      intro cm hfuel
      exact ⟨cm, rfl, le_rfl, fun k hk hlt => absurd hlt (by omega), Or.inl (by omega)⟩
  | succ fuel ih =>
      intro cm hfuel
      have hlt : cm < 32 := by
        have := hrep.free_lists.upper_le
        omega
      have hempty := hrep.freelist_eq_empty_iff hlt
      by_cases hlist : lists cm = []
      · obtain ⟨found, hfind, hle, hnone, hsome⟩ := ih (cm + 1) (by omega)
        refine ⟨found, ?_, by omega, ?_, hsome⟩
        · simp [findLoop, getFreelist, hlt, hempty.mpr hlist, hfind]
        · intro k hk hk'
          rcases hk.eq_or_lt with rfl | hk
          · exact hlist
          · exact hnone k hk hk'
      · refine ⟨cm, ?_, le_rfl, fun k hk hlt => absurd hlt (by omega), Or.inr hlist⟩
        have hne : ma.freelist cm ≠ empty := fun h => hlist (hempty.mp h)
        simp [findLoop, getFreelist, hlt, hne]

/-! ## `buddy_alloc` -/

/-- The order `buddy_alloc` uses for a request. -/
def requestOrder (nbytes : ℕ) : ℕ := max 8 (Nat.size nbytes)

/-- What a successful allocation does: the block at `base` is the low end of the
first free block of the smallest sufficient order `cm`, and the rest of that
block is on the free lists. -/
structure Allocated (ma : MemArea) (live : Set Block) (lists : ℕ → List ℕ)
    (m cm base : ℕ) (ma' : MemArea) : Prop where
  order_le : m ≤ cm
  smallest : ∀ k, m ≤ k → k < cm → lists k = []
  first : ∃ rest, lists cm = base :: rest
  rep : Rep ma' (insert ⟨base, m⟩ live) ∅ (Function.update (splitDown m (cm - m) lists) m
    (splitDown m (cm - m) lists m).tail)
  noBuddies : NoBuddies (freeBlocks (Function.update (splitDown m (cm - m) lists) m
    (splitDown m (cm - m) lists m).tail))
  keeps : Keeps ma ma' live

theorem Rep.lists_eq_nil {ma : MemArea} {live hand : Set Block} {lists : ℕ → List ℕ}
    (hrep : Rep ma live hand lists) {m : ℕ} (hm : ma.upper < m) : lists m = [] := by
  cases hlist : lists m with
  | nil => rfl
  | cons base rest =>
      have hfree : (⟨base, m⟩ : Block) ∈ freeBlocks lists := by simp [hlist]
      have : m ≤ ma.upper := hrep.order_le (Rep.free_mem hfree)
      omega

/-- Splitting down from order `cm` and taking the block. -/
theorem splitAndTake_spec {ma : MemArea} {live : Set Block} {lists : ℕ → List ℕ}
    (hrep : Rep ma live ∅ lists) (hbuddies : NoBuddies (freeBlocks lists)) {m cm base : ℕ}
    {rest : List ℕ} (hm : 8 ≤ m) (hle : m ≤ cm) (hlist : lists cm = base :: rest)
    (hsmallest : ∀ k, m ≤ k → k < cm → lists k = []) :
    ∃ ma', (splitLoop m (cm - m) ma >>= fun ma => takeBlock ma m) =
        .ok (ma.mem + base, ma') ∧ Allocated ma live lists m cm base ma' := by
  have hcm : m + (cm - m) = cm := by omega
  have hlist' : lists (m + (cm - m)) = base :: rest := by rw [hcm]; exact hlist
  have hbuddies' : NoBuddies (freeBlocks lists \ {⟨base, m + (cm - m)⟩}) :=
    fun block hblock hbuddy => hbuddies block hblock.1 hbuddy.1
  obtain ⟨ma₁, hloop, hrep₁, hkeeps₁, ⟨rest', hhead⟩, hbuddies₁⟩ :=
    splitLoop_spec hm (cm - m) hrep hlist' hbuddies'
  obtain ⟨ma₂, htake, hrep₂, hkeeps₂⟩ := takeBlock_spec hrep₁ hhead
  have htail : (splitDown m (cm - m) lists m).tail = rest' := by simp [hhead]
  refine ⟨ma₂, ?_, hle, hsmallest, ⟨rest, hlist⟩, ?_, ?_, hkeeps₁.trans hkeeps₂⟩
  · rw [hloop, ok_bind, htake, hkeeps₁.mem]
  · rw [htail]
    exact hrep₂
  · rw [htail]
    have herase : rest' = (splitDown m (cm - m) lists m).erase base := by simp [hhead]
    rw [herase]
    intro block hblock hbuddy
    rw [Rep.mem_freeBlocks_erase hrep₁.free_lists] at hblock hbuddy
    exact hbuddies₁ block hblock hbuddy

/-- Allocation succeeds when some free list of sufficient order has a block, and
otherwise leaves the area as it is. -/
theorem buddyAlloc_spec {ma : MemArea} {live : Set Block} {lists : ℕ → List ℕ}
    (userland : Bool) (hrep : Rep ma live ∅ lists)
    (hbuddies : NoBuddies (freeBlocks lists)) {nbytes : ℕ} (hnbytes : nbytes < 2 ^ 31) :
    (∃ cm base ma', buddyAlloc userland ma nbytes = .ok (ma.mem + base, ma') ∧
        Allocated ma live lists (requestOrder nbytes) cm base ma') ∨
      ((∀ k, requestOrder nbytes ≤ k → lists k = []) ∧
        buddyAlloc userland ma nbytes =
          if userland then .ok (0, ma) else .error .exhausted) := by
  set m := requestOrder nbytes with hmdef
  have hmforsize : mforsize ma nbytes = .ok m := by
    rw [mforsize_eq ma hnbytes, hrep.free_lists.lower_eq]
    rfl
  have hm8 : 8 ≤ m := le_max_left _ _
  have hm32 : m < 32 := by
    have : Nat.size nbytes ≤ 31 := Nat.size_le.mpr hnbytes
    simp only [hmdef, requestOrder]
    omega
  have hgetFreelist : getFreelist ma m = .ok (ma.freelist m) := by
    simp [getFreelist, hm32]
  have hempty := hrep.freelist_eq_empty_iff hm32
  by_cases hlist : lists m = []
  · obtain ⟨found, hfind, hle, hnone, hsome⟩ :=
      findLoop_eq hrep (ma.upper + 1 - (m + 1)) (m + 1) rfl
    have hhead : ma.freelist m = empty := hempty.mpr hlist
    have hsmallest : ∀ k, m ≤ k → k < found → lists k = [] := by
      intro k hk hlt
      rcases hk.eq_or_lt with rfl | hk
      · exact hlist
      · exact hnone k hk hlt
    by_cases hexhausted : ma.upper < found
    · right
      constructor
      · intro k hk
        by_cases hlt : k < found
        · exact hsmallest k hk hlt
        · exact hrep.lists_eq_nil (by omega)
      · simp only [buddyAlloc, hmforsize, hgetFreelist, ok_bind, hhead, if_true, hfind,
          hexhausted]
        cases userland <;> rfl
    · left
      obtain ⟨base, rest, hfound⟩ : ∃ base rest, lists found = base :: rest :=
        List.exists_cons_of_ne_nil (hsome.resolve_left hexhausted)
      obtain ⟨ma', htake, hallocated⟩ :=
        splitAndTake_spec hrep hbuddies hm8 (by omega) hfound hsmallest
      refine ⟨found, base, ma', ?_, hallocated⟩
      simp only [buddyAlloc, hmforsize, hgetFreelist, ok_bind, hhead, if_true, hfind,
        hexhausted, if_false]
      exact htake
  · left
    obtain ⟨base, rest, hcons⟩ : ∃ base rest, lists m = base :: rest :=
      List.exists_cons_of_ne_nil hlist
    have hhead : ma.freelist m ≠ empty := fun h => hlist (hempty.mp h)
    obtain ⟨ma', htake, hallocated⟩ :=
      splitAndTake_spec hrep hbuddies hm8 le_rfl hcons (fun k hk hlt => absurd hlt (by omega))
    refine ⟨m, base, ma', ?_, hallocated⟩
    rw [Nat.sub_self] at htake
    simp only [buddyAlloc, hmforsize, hgetFreelist, ok_bind, hhead, if_false]
    exact htake

end Rhythmos.Buddy
