import Rhythmos.Buddy.Alloc

/-!
# Release

Specification of `buddy_free`: the released block is merged with its buddy as
long as the buddy is free and of the same order, and the result is put on the
free lists.  When the loop stops, the buddy of the resulting block is not free.
-/

namespace Rhythmos.Buddy

open ByteMemory DyadicTiling LinkedChain Fallible

namespace Rep

variable {ma : MemArea} {live hand : Set Block} {lists : ℕ → List ℕ}

theorem getSizem_eq (hrep : Rep ma live hand lists) {block : ℕ}
    (hblock : block < 2 ^ ma.upper) :
    getSizem ma block = .ok (ma.blocks (block / 256)).sizem := by
  rw [getSizem, hrep.getInfo_eq hblock]
  rfl

theorem isUsed_eq (hrep : Rep ma live hand lists) {block : ℕ}
    (hblock : block < 2 ^ ma.upper) :
    isUsed ma block = .ok (ma.blocks (block / 256)).used := by
  rw [isUsed, hrep.getInfo_eq hblock]
  rfl

/-- `get_buddy` on a held block. -/
theorem getBuddy_eq (hrep : Rep ma live hand lists) {block : Block} (hblock : block ∈ hand) :
    getBuddy ma block.base = .ok block.buddy.base := by
  have hmem : block ∈ tiles live hand lists := hand_mem hblock
  have hlt := hrep.base_lt hmem
  have hword : block.base < wordCount := by
    have := hrep.free_lists.size_le
    simp only [wordCount]
    omega
  have hrange : ma.lower ≤ block.order ∧ block.order ≤ ma.upper :=
    ⟨hrep.free_lists.lower_eq ▸ hrep.order_ge block hmem, hrep.order_le hmem⟩
  rw [getBuddy, hrep.getSizem_eq hlt, ok_bind, hrep.hand_info block hblock,
    check_of hrange, ok_bind]
  exact congrArg Except.ok
    (flipBit_eq (hrep.tiling.aligned block hmem) hword (hrep.order_lt hmem))

end Rep

/-- The two header writes of a merge. -/
theorem mergeEntries_spec {ma : MemArea} {live hand : Set Block} {lists : ℕ → List ℕ}
    (hrep : Rep ma live hand lists) {base order : ℕ} (hdvd : 2 ^ (order + 1) ∣ base)
    (hlow : (⟨base, order⟩ : Block) ∈ hand)
    (hhigh : (⟨base + 2 ^ order, order⟩ : Block) ∈ hand) :
    ∃ ma₁ ma₂, setSizem ma base (order + 1) = .ok ma₁ ∧
      setSizem ma₁ (base + 2 ^ order) 0 = .ok ma₂ ∧
      Rep ma₂ live (insert ⟨base, order + 1⟩
        (hand \ {⟨base, order⟩, ⟨base + 2 ^ order, order⟩})) lists ∧
      Keeps ma ma₂ live := by
  have hlowMem : (⟨base, order⟩ : Block) ∈ tiles live hand lists := Rep.hand_mem hlow
  have hhighMem : (⟨base + 2 ^ order, order⟩ : Block) ∈ tiles live hand lists :=
    Rep.hand_mem hhigh
  have hlowLt : base < 2 ^ ma.upper := hrep.base_lt hlowMem
  have hhighLt : base + 2 ^ order < 2 ^ ma.upper := hrep.base_lt hhighMem
  have hlowInfo : ma.blocks (base / 256) = ⟨order, false⟩ := hrep.hand_info _ hlow
  have hhighInfo : ma.blocks ((base + 2 ^ order) / 256) = ⟨order, false⟩ :=
    hrep.hand_info _ hhigh
  have hpos : 0 < 2 ^ order := by positivity
  have hentries : (base + 2 ^ order) / 256 ≠ base / 256 := by
    refine hrep.entry_ne hhighMem hlowMem ?_
    intro heq
    have := congrArg Block.base heq
    simp at this
  set merged := Function.update ma.blocks (base / 256) ⟨order + 1, false⟩ with hmerged
  have hsetLow : setSizem ma base (order + 1) = .ok { ma with blocks := merged } := by
    rw [setSizem, hrep.getInfo_eq hlowLt, ok_bind, hlowInfo, hrep.setInfo_eq hlowLt]
  have hsetHigh : setSizem { ma with blocks := merged } (base + 2 ^ order) 0 =
      .ok { ma with
        blocks := Function.update merged ((base + 2 ^ order) / 256) ⟨0, false⟩ } := by
    have hhighInfo' : merged ((base + 2 ^ order) / 256) = ⟨order, false⟩ := by
      rw [hmerged, Function.update_of_ne hentries, hhighInfo]
    rw [setSizem, hrep.getInfo_withBlocks _ hhighLt, ok_bind, hhighInfo',
      hrep.setInfo_withBlocks _ hhighLt]
  exact ⟨_, _, hsetLow, hsetHigh, hrep.mergeHand hdvd hlow hhigh,
    Rep.keeps_withBlocks ma _ live⟩

/-- One iteration of the coalescing loop. -/
theorem mergeStep_spec {ma : MemArea} {live : Set Block} {lists : ℕ → List ℕ}
    {block : Block} (hrep : Rep ma live {block} lists)
    (hfree : block.buddy ∈ freeBlocks lists) :
    ∃ ma₁ ma₂ ma₃, removeFromFreelist ma block.order block.buddy.base = .ok ma₁ ∧
      setSizem ma₁ (min block.base block.buddy.base) (block.order + 1) = .ok ma₂ ∧
      setSizem ma₂ (max block.base block.buddy.base) 0 = .ok ma₃ ∧
      min block.base block.buddy.base = block.parent.base ∧
      Rep ma₃ live {block.parent} (Function.update lists block.order
        ((lists block.order).erase block.buddy.base)) ∧
      Keeps ma ma₃ live := by
  have hmem : block ∈ tiles live {block} lists := Rep.hand_mem rfl
  have haligned := hrep.tiling.aligned block hmem
  have hbuddyBase : block.buddy.base ∈ lists block.order := by
    have : block.buddy.base ∈ lists block.buddy.order := hfree
    simpa using this
  obtain ⟨ma₁, hremove, hblocks, hrep₁, hkeeps₁⟩ := hrep.unlink hbuddyBase
  obtain ⟨base, hparent, hdvd, hhalves⟩ := Block.exists_halves haligned
  set order := block.order with horder
  set low : Block := ⟨base, order⟩ with hlow
  set high : Block := ⟨base + 2 ^ order, order⟩ with hhigh
  have hbuddyEq : (⟨block.buddy.base, order⟩ : Block) = block.buddy :=
    Block.ext rfl (by simp [horder])
  rw [hbuddyEq] at hrep₁
  have hhand : insert block.buddy {block} = ({low, high} : Set Block) := by
    rcases hhalves with ⟨hblock, hbuddy⟩ | ⟨hblock, hbuddy⟩
    · rw [hbuddy, Set.pair_comm]
      exact congrArg (fun first => ({first, high} : Set Block)) hblock
    · rw [hbuddy]
      exact congrArg (fun second => ({low, second} : Set Block)) hblock
  rw [hhand] at hrep₁
  obtain ⟨ma₂, ma₃, hsetLow, hsetHigh, hrep₃, hkeeps₃⟩ :=
    mergeEntries_spec hrep₁ hdvd (Set.mem_insert _ _) (Set.mem_insert_of_mem _ rfl)
  have hminmax : min block.base block.buddy.base = base ∧
      max block.base block.buddy.base = base + 2 ^ order := by
    rcases hhalves with ⟨hblock, hbuddy⟩ | ⟨hblock, hbuddy⟩
    · have hbase : block.base = base := congrArg Block.base hblock
      rw [hbuddy, hbase]
      exact ⟨min_eq_left (Nat.le_add_right _ _), max_eq_right (Nat.le_add_right _ _)⟩
    · have hbase : block.base = base + 2 ^ order := congrArg Block.base hblock
      rw [hbuddy, hbase]
      exact ⟨min_eq_right (Nat.le_add_right _ _), max_eq_left (Nat.le_add_right _ _)⟩
  refine ⟨ma₁, ma₂, ma₃, hremove, ?_, ?_, ?_, ?_, hkeeps₁.trans hkeeps₃⟩
  · rw [hminmax.1]
    exact hsetLow
  · rw [hminmax.2]
    exact hsetHigh
  · rw [hminmax.1, hparent]
  · rw [hparent]
    rw [Set.sdiff_self] at hrep₃
    simpa using hrep₃

/-- The entry of a buddy inside the area shows whether the buddy is free. -/
theorem buddy_free_iff {ma : MemArea} {live : Set Block} {lists : ℕ → List ℕ} {block : Block}
    (hrep : Rep ma live {block} lists) (horder : block.order < ma.upper) :
    block.buddy.base < 2 ^ ma.upper ∧
      (ma.blocks (block.buddy.base / 256) = ⟨block.order, false⟩ ↔
        block.buddy ∈ freeBlocks lists) := by
  have hmem : block ∈ tiles live {block} lists := Rep.hand_mem rfl
  have haligned := hrep.tiling.aligned block hmem
  have hdvd : 256 ∣ block.buddy.base := by
    rw [show (256 : ℕ) = 2 ^ 8 by norm_num]
    refine (pow_dvd_pow 2 (hrep.order_ge block hmem)).trans ?_
    have haligned' : 2 ^ block.buddy.order ∣ block.buddy.base := Block.buddy_aligned haligned
    rwa [Block.buddy_order] at haligned'
  refine ⟨?_, fun hinfo => ?_, fun hfree => ?_⟩
  · have hpos : 0 < 2 ^ block.order := by positivity
    have := Block.buddy_inside haligned (hrep.tiling.inside block hmem) horder
    omega
  · have hbuddyEq : (⟨block.buddy.base, block.order⟩ : Block) = block.buddy :=
      Block.ext rfl (by simp)
    have horderPos : block.order ≠ 0 := by
      have := hrep.order_ge block hmem
      omega
    rcases hrep.free_or_hand_of_info hdvd horderPos hinfo with hhand | hfree
    · rw [hbuddyEq] at hhand
      exact absurd hhand (Block.buddy_ne haligned)
    · rwa [hbuddyEq] at hfree
  · have := hrep.free_info _ hfree
    rwa [Block.buddy_order] at this

/-- The coalescing loop stops at a block whose buddy is not free. -/
theorem mergeLoop_stop {ma : MemArea} {live : Set Block} {lists : ℕ → List ℕ} {block : Block}
    (hrep : Rep ma live {block} lists) (hnone : block.buddy ∉ freeBlocks lists) :
    mergeLoop (ma.upper - block.order) ma block.base block.buddy.base block.order =
      .ok (ma, block.base, block.order) := by
  cases hfuel : ma.upper - block.order with
  | zero => rfl
  | succ fuel =>
      obtain ⟨hlt, hiff⟩ := buddy_free_iff hrep (by omega)
      have hcond : ¬ ((ma.blocks (block.buddy.base / 256)).used = false ∧
          (ma.blocks (block.buddy.base / 256)).sizem = block.order) := by
        rintro ⟨hused, hsizem⟩
        apply hnone
        rw [← hiff, ← hused, ← hsizem]
      rw [mergeLoop, hrep.isUsed_eq hlt, ok_bind, hrep.getSizem_eq hlt, ok_bind, if_neg hcond]
      rfl

/-- The whole area has no free buddy. -/
theorem buddy_not_free_of_upper {ma : MemArea} {live : Set Block} {lists : ℕ → List ℕ}
    {block : Block} (hrep : Rep ma live {block} lists) (horder : ma.upper ≤ block.order) :
    block.buddy ∉ freeBlocks lists := by
  intro hfree
  have hmem : block ∈ tiles live {block} lists := Rep.hand_mem rfl
  have hinside := hrep.tiling.inside block hmem
  have hinside' := hrep.tiling.inside _ (Rep.free_mem hfree)
  have horder : block.order = ma.upper := le_antisymm (hrep.order_le hmem) horder
  rw [Block.buddy_order, horder] at hinside'
  rw [horder] at hinside
  exact Block.buddy_ne (hrep.tiling.aligned block hmem)
    (hrep.tiling.eq_of_base (Rep.free_mem hfree) hmem (by omega))

/-- One round of the coalescing loop, on a block whose buddy is free. -/
theorem mergeLoop_step {ma : MemArea} {live : Set Block} {lists : ℕ → List ℕ} {block : Block}
    (hrep : Rep ma live {block} lists) (hfree : block.buddy ∈ freeBlocks lists) :
    ∃ ma', mergeLoop (ma.upper - block.order) ma block.base block.buddy.base block.order =
        mergeLoop (ma'.upper - block.parent.order) ma' block.parent.base block.parent.buddy.base
          block.parent.order ∧
      Rep ma' live {block.parent} (Function.update lists block.order
        ((lists block.order).erase block.buddy.base)) ∧ Keeps ma ma' live := by
  have horder : block.order < ma.upper := by
    by_contra hle
    exact buddy_not_free_of_upper hrep (by omega) hfree
  obtain ⟨hlt, hiff⟩ := buddy_free_iff hrep horder
  have hused := hrep.isUsed_eq hlt
  have hsizem := hrep.getSizem_eq hlt
  rw [hiff.mpr hfree] at hused hsizem
  obtain ⟨ma₁, ma₂, ma₃, hremove, hsetLow, hsetHigh, hmin, hrep₃, hkeeps₃⟩ :=
    mergeStep_spec hrep hfree
  have hgetBuddy : getBuddy ma₃ block.parent.base = .ok block.parent.buddy.base :=
    hrep₃.getBuddy_eq rfl
  have hfuel : ma.upper - block.order = (ma₃.upper - block.parent.order) + 1 := by
    rw [hkeeps₃.upper, Block.parent_order]
    omega
  refine ⟨ma₃, ?_, hrep₃, hkeeps₃⟩
  rw [hfuel, mergeLoop, hused, ok_bind, hsizem, ok_bind, if_pos ⟨rfl, rfl⟩, Block.parent_order]
  rw [hmin] at hsetLow
  simp only [hremove, ok_bind, hmin, hsetLow, hsetHigh, hgetBuddy]

theorem mergeLoop_spec {live : Set Block} (fuel : ℕ) :
    ∀ {ma : MemArea} {block : Block} {lists : ℕ → List ℕ}, Rep ma live {block} lists →
      NoBuddies (freeBlocks lists) → fuel = ma.upper - block.order →
      ∃ ma' block' lists', mergeLoop fuel ma block.base block.buddy.base block.order =
          .ok (ma', block'.base, block'.order) ∧
        Rep ma' live {block'} lists' ∧ NoBuddies (freeBlocks lists') ∧
        block'.buddy ∉ freeBlocks lists' ∧ Keeps ma ma' live := by
  induction fuel with
  | zero =>
      intro ma block lists hrep hbuddies hfuel
      exact ⟨ma, block, lists, rfl, hrep, hbuddies,
        buddy_not_free_of_upper hrep (by omega), Keeps.refl ma live⟩
  | succ fuel ih =>
      intro ma block lists hrep hbuddies hfuel
      by_cases hfree : block.buddy ∈ freeBlocks lists
      · obtain ⟨ma₃, hstep, hrep₃, hkeeps₃⟩ := mergeLoop_step hrep hfree
        have hbuddies₃ : NoBuddies (freeBlocks (Function.update lists block.order
            ((lists block.order).erase block.buddy.base))) := by
          intro other hother hother'
          rw [Rep.mem_freeBlocks_erase hrep.free_lists] at hother hother'
          exact hbuddies other hother.1 hother'.1
        have hfuel₃ : fuel = ma₃.upper - block.parent.order := by
          rw [hkeeps₃.upper, Block.parent_order]
          omega
        obtain ⟨ma', block', lists', hloop, hrep', hbuddies', hnone, hkeeps'⟩ :=
          ih hrep₃ hbuddies₃ hfuel₃
        refine ⟨ma', block', lists', ?_, hrep', hbuddies', hnone, hkeeps₃.trans hkeeps'⟩
        rw [hfuel, hstep, ← hfuel₃]
        exact hloop
      · refine ⟨ma, block, lists, ?_, hrep, hbuddies, hfree, Keeps.refl ma live⟩
        rw [hfuel]
        exact mergeLoop_stop hrep hfree

/-- `buddy_free` marks the block as unused, coalesces and links the result. -/
theorem buddyFree_eq {ma : MemArea} {live : Set Block} {lists : ℕ → List ℕ}
    (hrep : Rep ma live ∅ lists) {block : Block} (hblock : block ∈ live) :
    ∃ ma₁, Rep ma₁ (live \ {block}) {block} lists ∧ Keeps ma ma₁ (live \ {block}) ∧
      buddyFree ma (ma.mem + block.base) =
        (mergeLoop (ma₁.upper - block.order) ma₁ block.base block.buddy.base block.order >>=
          fun merged => addToFreelist merged.1 merged.2.2 merged.2.1) := by
  have hmem : block ∈ tiles live ∅ lists := Rep.live_mem hblock
  have hlt := hrep.base_lt hmem
  have hinfo := hrep.live_info block hblock
  have hlive' : ∀ other, other ∈ live \ {block} ↔
      (other ∈ live ∧ other ≠ block) ∨ (false = true ∧ other = block) := by
    intro other
    simp
  have hhand' : ∀ other, other ∈ ({block} : Set Block) ↔
      (other ∈ (∅ : Set Block) ∧ other ≠ block) ∨ (false = false ∧ other = block) := by
    intro other
    simp
  have hrep₁ := hrep.mark false hmem (hrep.live_not_free hblock) hlive' hhand'
  set ma₁ : MemArea :=
    { ma with blocks := Function.update ma.blocks (block.base / 256) ⟨block.order, false⟩ }
  refine ⟨ma₁, hrep₁, Rep.keeps_withBlocks ma _ _, ?_⟩
  have hnull : ma.mem + block.base ≠ 0 := by
    have := hrep.mem_pos
    omega
  have hinArea : ma.mem ≤ ma.mem + block.base ∧
      ma.mem + block.base < ma.mem + 2 ^ ma.upper := by omega
  have hoffset : ma.mem + block.base - ma.mem = block.base := by omega
  have hrange : ma.lower ≤ block.order ∧ block.order ≤ ma.upper :=
    ⟨hrep.free_lists.lower_eq ▸ hrep.order_ge block hmem, hrep.order_le hmem⟩
  have hsizem := hrep.getSizem_eq hlt
  have hused := hrep.isUsed_eq hlt
  rw [hinfo] at hsizem hused
  have hsetUsed : setUsed ma block.base false = .ok ma₁ := by
    rw [setUsed, hrep.getInfo_eq hlt, ok_bind, hinfo, hrep.setInfo_eq hlt]
  have hgetBuddy : getBuddy ma₁ block.base = .ok block.buddy.base :=
    hrep₁.getBuddy_eq rfl
  simp only [buddyFree, hnull, if_false, check_of hinArea, ok_bind, hoffset, hsizem,
    check_of hrange, hused, check_of, hsetUsed, hgetBuddy]

/-- Releasing a live block makes it part of the free blocks; the other live
blocks keep their headers and contents. -/
theorem buddyFree_spec {ma : MemArea} {live : Set Block} {lists : ℕ → List ℕ}
    (hrep : Rep ma live ∅ lists) (hbuddies : NoBuddies (freeBlocks lists)) {block : Block}
    (hblock : block ∈ live) :
    ∃ ma' lists', buddyFree ma (ma.mem + block.base) = .ok ma' ∧
      Rep ma' (live \ {block}) ∅ lists' ∧ NoBuddies (freeBlocks lists') ∧
      Keeps ma ma' (live \ {block}) := by
  obtain ⟨ma₁, hrep₁, hkeeps₁, hfree⟩ := buddyFree_eq hrep hblock
  obtain ⟨ma₂, block', lists', hloop, hrep₂, hbuddies₂, hnone, hkeeps₂⟩ :=
    mergeLoop_spec (ma₁.upper - block.order) hrep₁ hbuddies rfl
  obtain ⟨ma₃, hadd, -, hrep₃, hkeeps₃⟩ := hrep₂.relink (Set.mem_singleton block')
  rw [Set.sdiff_self] at hrep₃
  refine ⟨ma₃, _, ?_, hrep₃, ?_, hkeeps₁.trans (hkeeps₂.trans hkeeps₃)⟩
  · rw [hfree, hloop, ok_bind]
    exact hadd
  · intro other hother hother'
    rw [Rep.mem_freeBlocks_push] at hother hother'
    have haligned' := hrep₂.tiling.aligned block' (Rep.hand_mem rfl)
    rcases hother with hother | rfl <;> rcases hother' with hother' | hother'
    · exact hbuddies₂ other hother hother'
    · have haligned := hrep₂.tiling.aligned other (Rep.free_mem hother)
      apply hnone
      have : block'.buddy = other := by
        rw [← Block.buddy_buddy haligned]
        exact congrArg Block.buddy hother'.symm
      exact this ▸ hother
    · exact hnone hother'
    · exact Block.buddy_ne haligned' hother'

end Rhythmos.Buddy
