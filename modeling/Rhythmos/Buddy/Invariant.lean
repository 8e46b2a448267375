import Rhythmos.Buddy.FreeLists

/-!
# The invariant of the buddy allocator

`Rep ma live hand lists` relates an area to its abstract contents: the live
blocks, the blocks a function of the allocator has taken off the free lists and
still holds, and the free lists.  Together these blocks tile the area, and the
`blocks` array records exactly their heads.  Every entry that is not the head of
a block is zero, so the entry of a buddy is never the interior of a larger block.

The elementary steps of allocation and release are moves between the three
parts: unlinking a free block, linking a held block, splitting a held block,
merging two held blocks.
-/

namespace Rhythmos.Buddy

open ByteMemory DyadicTiling LinkedChain Fallible

/-- The blocks on the free lists. -/
def freeBlocks (lists : ℕ → List ℕ) : Set Block :=
  {block | block.base ∈ lists block.order}

/-- All blocks of an area. -/
def tiles (live hand : Set Block) (lists : ℕ → List ℕ) : Set Block :=
  live ∪ hand ∪ freeBlocks lists

structure Rep (ma : MemArea) (live hand : Set Block) (lists : ℕ → List ℕ) : Prop where
  free_lists : Lists ma lists
  mem_pos : 0 < ma.mem
  mem_le : ma.mem + 2 ^ ma.upper ≤ wordCount
  tiling : Tiling (tiles live hand lists) ma.upper
  order_ge : ∀ block ∈ tiles live hand lists, 8 ≤ block.order
  hand_free : ∀ block ∈ hand, block ∉ freeBlocks lists
  live_info : ∀ block ∈ live, ma.blocks (block.base / 256) = ⟨block.order, true⟩
  hand_info : ∀ block ∈ hand, ma.blocks (block.base / 256) = ⟨block.order, false⟩
  free_info : ∀ block ∈ freeBlocks lists,
    ma.blocks (block.base / 256) = ⟨block.order, false⟩
  other_info : ∀ index, (∀ block ∈ tiles live hand lists, block.base ≠ 256 * index) →
    ma.blocks index = ⟨0, false⟩

/-- The parameters of the area and the contents of the live blocks are the
same. -/
structure Keeps (ma ma' : MemArea) (live : Set Block) : Prop where
  lower : ma'.lower = ma.lower
  upper : ma'.upper = ma.upper
  mem : ma'.mem = ma.mem
  contents : ∀ block ∈ live, ∀ address, ma.mem + block.base ≤ address →
    address < ma.mem + block.base + 2 ^ block.order →
    ma'.memory address = ma.memory address

namespace Keeps

variable {ma ma' ma'' : MemArea} {live : Set Block}

theorem refl (ma : MemArea) (live : Set Block) : Keeps ma ma live :=
  ⟨rfl, rfl, rfl, fun _ _ _ _ _ => rfl⟩

theorem trans (hfirst : Keeps ma ma' live) (hsecond : Keeps ma' ma'' live) :
    Keeps ma ma'' live where
  lower := hsecond.lower.trans hfirst.lower
  upper := hsecond.upper.trans hfirst.upper
  mem := hsecond.mem.trans hfirst.mem
  contents := by
    intro block hblock address hlow hhigh
    rw [hsecond.contents block hblock address (by rw [hfirst.mem]; exact hlow)
      (by rw [hfirst.mem]; exact hhigh)]
    exact hfirst.contents block hblock address hlow hhigh

end Keeps

@[simp]
theorem mem_freeBlocks (lists : ℕ → List ℕ) (base order : ℕ) :
    (⟨base, order⟩ : Block) ∈ freeBlocks lists ↔ base ∈ lists order := Iff.rfl

theorem mem_tiles {live hand : Set Block} {lists : ℕ → List ℕ} {block : Block} :
    block ∈ tiles live hand lists ↔
      block ∈ live ∨ block ∈ hand ∨ block ∈ freeBlocks lists := by
  simp [tiles, or_assoc]

/-! ## Buddies by bit operations -/

/-- On an aligned offset the source's bit operations compute the buddy. -/
theorem flipBit_eq {base order : ℕ} (haligned : 2 ^ order ∣ base)
    (hbase : base < wordCount) (horder : order < 32) :
    flipBit base order = (⟨base, order⟩ : Block).buddy.base := by
  obtain ⟨i, rfl⟩ := haligned
  have hbit : (2 ^ order * i).testBit order = i.testBit 0 := by
    simp [Nat.testBit_two_pow_mul]
  have hmask : ∀ n, (1 <<< order ^^^ 4294967295).testBit n =
      (decide (order = n) ^^ decide (n < 32)) := by
    intro n
    rw [Nat.testBit_xor, Nat.one_shiftLeft, Nat.testBit_two_pow,
      show (4294967295 : ℕ) = 2 ^ 32 - 1 by norm_num, Nat.testBit_two_pow_sub_one]
  by_cases hodd : i % 2 = 1
  · obtain ⟨j, rfl⟩ : ∃ j, i = 2 * j + 1 := ⟨i / 2, by omega⟩
    have hbase' : (⟨2 ^ order * (2 * j + 1), order⟩ : Block).buddy.base =
        2 ^ order * (2 * j) := by
      simp [Block.buddy, mul_add]
    have hset : 2 ^ order * (2 * j + 1) &&& 1 <<< order ≠ 0 := by
      rw [Nat.one_shiftLeft, Nat.and_two_pow, hbit]
      simp
    rw [hbase', flipBit, if_pos hset]
    apply Nat.eq_of_testBit_eq
    intro n
    rw [Nat.testBit_and, hmask, Nat.testBit_two_pow_mul, Nat.testBit_two_pow_mul]
    by_cases hn : order = n
    · subst hn
      simp [horder]
    · by_cases hlt : n < 32
      · by_cases hge : order ≤ n
        · obtain ⟨t, rfl⟩ : ∃ t, n = order + (t + 1) := ⟨n - order - 1, by omega⟩
          have hhalf : (2 * j + 1) / 2 = j := by omega
          simp [Nat.testBit_succ, hlt, hhalf]
        · simp [hge]
      · have hhigh : (2 ^ order * (2 * j)).testBit n = false := by
          apply Nat.testBit_lt_two_pow
          calc 2 ^ order * (2 * j) ≤ 2 ^ order * (2 * j + 1) :=
                Nat.mul_le_mul_left _ (Nat.le_succ _)
            _ < 2 ^ 32 := hbase
            _ ≤ 2 ^ n := Nat.pow_le_pow_right (by omega) (by omega)
        rw [Nat.testBit_two_pow_mul] at hhigh
        simp [hn, hlt, hhigh]
  · obtain ⟨j, rfl⟩ : ∃ j, i = 2 * j := ⟨i / 2, by omega⟩
    have hbase' : (⟨2 ^ order * (2 * j), order⟩ : Block).buddy.base =
        2 ^ order * (2 * j + 1) := by
      simp [Block.buddy, mul_add]
    have hclear : ¬ (2 ^ order * (2 * j) &&& 1 <<< order ≠ 0) := by
      rw [Nat.one_shiftLeft, Nat.and_two_pow, hbit]
      simp
    rw [hbase', flipBit, if_neg hclear]
    apply Nat.eq_of_testBit_eq
    intro n
    rw [Nat.testBit_or, Nat.one_shiftLeft, Nat.testBit_two_pow, Nat.testBit_two_pow_mul,
      Nat.testBit_two_pow_mul]
    by_cases hn : order = n
    · subst hn
      simp
    · by_cases hge : order ≤ n
      · obtain ⟨t, rfl⟩ : ∃ t, n = order + (t + 1) := ⟨n - order - 1, by omega⟩
        have hhalf : (2 * j + 1) / 2 = j := by omega
        simp [Nat.testBit_succ, hhalf]
      · simp [hge, hn]

namespace Rep

variable {ma : MemArea} {live hand : Set Block} {lists : ℕ → List ℕ}

/-! ## Blocks and their entries -/

theorem live_mem {block : Block} (hblock : block ∈ live) : block ∈ tiles live hand lists :=
  mem_tiles.mpr (Or.inl hblock)

theorem hand_mem {block : Block} (hblock : block ∈ hand) : block ∈ tiles live hand lists :=
  mem_tiles.mpr (Or.inr (Or.inl hblock))

theorem free_mem {block : Block} (hblock : block ∈ freeBlocks lists) :
    block ∈ tiles live hand lists :=
  mem_tiles.mpr (Or.inr (Or.inr hblock))

theorem base_dvd (hrep : Rep ma live hand lists) {block : Block}
    (hblock : block ∈ tiles live hand lists) : 256 ∣ block.base := by
  have h : (256 : ℕ) = 2 ^ 8 := by norm_num
  rw [h]
  exact (pow_dvd_pow 2 (hrep.order_ge block hblock)).trans
    (hrep.tiling.aligned block hblock)

theorem base_lt (hrep : Rep ma live hand lists) {block : Block}
    (hblock : block ∈ tiles live hand lists) : block.base < 2 ^ ma.upper := by
  have hpos : 0 < 2 ^ block.order := by positivity
  have hinside := hrep.tiling.inside block hblock
  omega

theorem order_le (hrep : Rep ma live hand lists) {block : Block}
    (hblock : block ∈ tiles live hand lists) : block.order ≤ ma.upper := by
  have hinside := hrep.tiling.inside block hblock
  have hle : 2 ^ block.order ≤ 2 ^ ma.upper := by omega
  exact (Nat.pow_le_pow_iff_right (by omega)).mp hle

theorem order_lt (hrep : Rep ma live hand lists) {block : Block}
    (hblock : block ∈ tiles live hand lists) : block.order < 32 := by
  have := hrep.order_le hblock
  have := hrep.free_lists.upper_le
  omega

theorem size_eq (hrep : Rep ma live hand lists) : 2 ^ ma.upper = 256 * ma.nblocks := by
  rw [MemArea.nblocks, hrep.free_lists.lower_eq, show (256 : ℕ) = 2 ^ 8 by norm_num, ← pow_add]
  congr 1
  have := hrep.free_lists.upper_ge
  omega

theorem index_eq (hrep : Rep ma live hand lists) (block : ℕ) :
    ma.index block = block / 256 := by
  simp [MemArea.index, hrep.free_lists.lower_eq]

theorem getInfo_eq (hrep : Rep ma live hand lists) {block : ℕ}
    (hblock : block < 2 ^ ma.upper) : getInfo ma block = .ok (ma.blocks (block / 256)) := by
  have hsize := hrep.size_eq
  rw [getInfo, hrep.index_eq, if_pos (by omega)]

theorem setInfo_eq (hrep : Rep ma live hand lists) {block : ℕ}
    (hblock : block < 2 ^ ma.upper) (info : BlockInfo) :
    setInfo ma block info =
      .ok { ma with blocks := Function.update ma.blocks (block / 256) info } := by
  have hsize := hrep.size_eq
  rw [setInfo, hrep.index_eq, if_pos (by omega)]

/-- The entry of a block tells whether it is live. -/
theorem live_not_free (hrep : Rep ma live hand lists) {block : Block}
    (hblock : block ∈ live) : block ∉ freeBlocks lists := by
  intro hfree
  have heq := (hrep.live_info block hblock).symm.trans (hrep.free_info block hfree)
  simp at heq

theorem live_not_hand (hrep : Rep ma live hand lists) {block : Block}
    (hblock : block ∈ live) : block ∉ hand := by
  intro hhand
  have heq := (hrep.live_info block hblock).symm.trans (hrep.hand_info block hhand)
  simp at heq

/-- A free entry of positive order belongs to a block that is not live. -/
theorem free_or_hand_of_info (hrep : Rep ma live hand lists) {base order : ℕ}
    (hbase : 256 ∣ base) (horder : order ≠ 0)
    (hinfo : ma.blocks (base / 256) = ⟨order, false⟩) :
    (⟨base, order⟩ : Block) ∈ hand ∨ (⟨base, order⟩ : Block) ∈ freeBlocks lists := by
  by_contra hnone
  push Not at hnone
  have hzero := hrep.other_info (base / 256)
  rw [hinfo] at hzero
  apply horder
  have := hzero (by
    intro block hblock heq
    have hbase' : block.base = base := by omega
    rcases mem_tiles.mp hblock with h | h | h
    · have := hrep.live_info block h
      rw [hbase', hinfo] at this
      simp at this
    · have hb := hrep.hand_info block h
      rw [hbase', hinfo] at hb
      refine hnone.1 ?_
      have : block = ⟨base, order⟩ := Block.ext hbase' (by simpa using hb.symm)
      exact this ▸ h
    · have hb := hrep.free_info block h
      rw [hbase', hinfo] at hb
      refine hnone.2 ?_
      have : block = ⟨base, order⟩ := Block.ext hbase' (by simpa using hb.symm)
      exact this ▸ h)
  simpa using this

/-- A live block contains no link word of another block. -/
theorem live_off_word (hrep : Rep ma live hand lists) {block : Block}
    (hblock : block ∈ live) {base order : ℕ}
    (hother : (⟨base, order⟩ : Block) ∈ tiles live hand lists)
    (hne : (⟨base, order⟩ : Block) ≠ block) {address : ℕ}
    (hlow : ma.mem + block.base ≤ address)
    (hhigh : address < ma.mem + block.base + 2 ^ block.order) :
    address < ma.mem + base ∨ ma.mem + base + 4 ≤ address := by
  by_contra hin
  have horder : 8 ≤ order := hrep.order_ge _ hother
  have hsize : 2 ^ 8 ≤ 2 ^ order := Nat.pow_le_pow_right (by omega) horder
  have hcovers : (⟨base, order⟩ : Block).Covers (address - ma.mem) := by
    change base ≤ address - ma.mem ∧ address - ma.mem < base + 2 ^ order
    omega
  have hcovers' : block.Covers (address - ma.mem) := by
    change block.base ≤ address - ma.mem ∧ address - ma.mem < block.base + 2 ^ block.order
    omega
  exact hne (hrep.tiling.unique _ hother block (live_mem hblock)
    ⟨address - ma.mem, hcovers, hcovers'⟩)

end Rep

end Rhythmos.Buddy
