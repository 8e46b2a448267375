import Mathlib

/-!
# Tilings of an interval by dyadic blocks

A dyadic block of order `k` covers `2^k` consecutive offsets starting at a
multiple of `2^k`.  Two such blocks are nested or disjoint.  A set of blocks
tiles `[0, 2^height)` when every offset lies in exactly one of them.  Splitting
a block into its halves and merging two halves keep a tiling.

When the tiles are divided into fixed and free ones and no two free tiles are
buddies, the free tiles are exactly the maximal dyadic blocks that avoid the
fixed ones.  So the free tiles are a function of the fixed tiles.
-/

namespace DyadicTiling

/-- A block of `2 ^ order` offsets from `base` on. -/
@[ext]
structure Block where
  base : ℕ
  order : ℕ
  deriving DecidableEq

namespace Block

/-- The offsets of a block. -/
def Covers (block : Block) (offset : ℕ) : Prop :=
  block.base ≤ offset ∧ offset < block.base + 2 ^ block.order

/-- The base is a multiple of the size. -/
def Aligned (block : Block) : Prop := 2 ^ block.order ∣ block.base

/-- Some offset lies in both blocks. -/
def Meets (left right : Block) : Prop :=
  ∃ offset, left.Covers offset ∧ right.Covers offset

/-- The other half of the block of the next order. -/
def buddy (block : Block) : Block :=
  if block.base / 2 ^ block.order % 2 = 1 then
    ⟨block.base - 2 ^ block.order, block.order⟩
  else ⟨block.base + 2 ^ block.order, block.order⟩

theorem covers_base (block : Block) : block.Covers block.base :=
  ⟨le_rfl, Nat.lt_add_of_pos_right (by positivity)⟩

theorem Meets.symm {left right : Block} (hmeets : left.Meets right) :
    right.Meets left := by
  obtain ⟨offset, hleft, hright⟩ := hmeets
  exact ⟨offset, hright, hleft⟩

@[simp]
theorem buddy_order (block : Block) : block.buddy.order = block.order := by
  unfold buddy
  split <;> rfl

/-- Of two meeting aligned blocks the one of larger order contains the other. -/
theorem covers_of_meets {small large : Block} (hsmall : small.Aligned)
    (hlarge : large.Aligned) (horder : small.order ≤ large.order)
    (hmeets : small.Meets large) {offset : ℕ} (hoffset : small.Covers offset) :
    large.Covers offset := by
  obtain ⟨common, ⟨hsmallLow, hsmallHigh⟩, hlargeLow, hlargeHigh⟩ := hmeets
  obtain ⟨hoffsetLow, hoffsetHigh⟩ := hoffset
  obtain ⟨i, hi⟩ := hsmall
  obtain ⟨j, hj⟩ := hlarge
  obtain ⟨gap, hgap⟩ : ∃ gap, large.order = small.order + gap :=
    ⟨large.order - small.order, by omega⟩
  have hpow : 2 ^ large.order = 2 ^ small.order * 2 ^ gap := by
    rw [hgap, pow_add]
  have hpos : 0 < 2 ^ small.order := by positivity
  -- both bases are multiples of the small size, so compare in its units
  have hlow : 2 ^ gap * j ≤ i := by
    have : 2 ^ small.order * (2 ^ gap * j) < 2 ^ small.order * (i + 1) := by
      calc 2 ^ small.order * (2 ^ gap * j) = large.base := by rw [hj, hpow, mul_assoc]
        _ ≤ common := hlargeLow
        _ < small.base + 2 ^ small.order := hsmallHigh
        _ = 2 ^ small.order * (i + 1) := by rw [hi]; ring
    exact Nat.lt_succ_iff.mp (Nat.lt_of_mul_lt_mul_left this)
  have hhigh : i + 1 ≤ 2 ^ gap * j + 2 ^ gap := by
    have : 2 ^ small.order * i < 2 ^ small.order * (2 ^ gap * j + 2 ^ gap) := by
      calc 2 ^ small.order * i = small.base := hi.symm
        _ ≤ common := hsmallLow
        _ < large.base + 2 ^ large.order := hlargeHigh
        _ = 2 ^ small.order * (2 ^ gap * j + 2 ^ gap) := by rw [hj, hpow]; ring
    exact Nat.lt_of_mul_lt_mul_left this
  constructor
  · calc large.base = 2 ^ small.order * (2 ^ gap * j) := by rw [hj, hpow, mul_assoc]
      _ ≤ 2 ^ small.order * i := Nat.mul_le_mul_left _ hlow
      _ = small.base := hi.symm
      _ ≤ offset := hoffsetLow
  · calc offset < small.base + 2 ^ small.order := hoffsetHigh
      _ = 2 ^ small.order * (i + 1) := by rw [hi]; ring
      _ ≤ 2 ^ small.order * (2 ^ gap * j + 2 ^ gap) := Nat.mul_le_mul_left _ hhigh
      _ = large.base + 2 ^ large.order := by rw [hj, hpow]; ring

/-- Meeting aligned blocks of one order are equal. -/
theorem eq_of_meets {left right : Block} (hleft : left.Aligned)
    (hright : right.Aligned) (horder : left.order = right.order)
    (hmeets : left.Meets right) : left = right := by
  have hlow := covers_of_meets hleft hright horder.le hmeets left.covers_base
  have hhigh := covers_of_meets hright hleft horder.ge hmeets.symm right.covers_base
  exact Block.ext (le_antisymm hhigh.1 hlow.1) horder

/-- The block of the next order that contains this one. -/
def parent (block : Block) : Block :=
  if block.base / 2 ^ block.order % 2 = 1 then
    ⟨block.base - 2 ^ block.order, block.order + 1⟩
  else ⟨block.base, block.order + 1⟩

@[simp]
theorem parent_order (block : Block) : block.parent.order = block.order + 1 := by
  unfold parent
  split <;> rfl

/-- An aligned block is the low or the high half of its parent. -/
theorem low_or_high {block : Block} (haligned : block.Aligned) :
    (block.parent = ⟨block.base, block.order + 1⟩ ∧
        block.buddy = ⟨block.base + 2 ^ block.order, block.order⟩ ∧
        block.parent.Aligned) ∨
      (block.parent = ⟨block.base - 2 ^ block.order, block.order + 1⟩ ∧
        block.buddy = ⟨block.base - 2 ^ block.order, block.order⟩ ∧
        2 ^ block.order ≤ block.base ∧ block.parent.Aligned) := by
  obtain ⟨i, hi⟩ := haligned
  have hdiv : block.base / 2 ^ block.order = i := by
    rw [hi]
    exact Nat.mul_div_cancel_left i (by positivity)
  by_cases hodd : i % 2 = 1
  · right
    have hparent : block.parent = ⟨block.base - 2 ^ block.order, block.order + 1⟩ := by
      simp [parent, hdiv, hodd]
    refine ⟨hparent, by simp [buddy, hdiv, hodd], ?_, ?_⟩
    · rw [hi]
      exact Nat.le_mul_of_pos_right _ (by omega)
    · rw [hparent]
      refine ⟨i / 2, ?_⟩
      change block.base - 2 ^ block.order = 2 ^ (block.order + 1) * (i / 2)
      obtain ⟨j, rfl⟩ : ∃ j, i = 2 * j + 1 := ⟨i / 2, by omega⟩
      rw [hi, pow_succ, show (2 * j + 1) / 2 = j by omega]
      rw [mul_add, mul_one, Nat.add_sub_cancel, mul_assoc]
  · left
    have hparent : block.parent = ⟨block.base, block.order + 1⟩ := by
      simp [parent, hdiv, hodd]
    refine ⟨hparent, by simp [buddy, hdiv, hodd], ?_⟩
    rw [hparent]
    refine ⟨i / 2, ?_⟩
    change block.base = 2 ^ (block.order + 1) * (i / 2)
    obtain ⟨j, rfl⟩ : ∃ j, i = 2 * j := ⟨i / 2, by omega⟩
    rw [hi, pow_succ, show 2 * j / 2 = j by omega, mul_assoc]

/-- A block and its buddy are the two halves of the parent, in some order. -/
theorem exists_halves {block : Block} (haligned : block.Aligned) :
    ∃ base, block.parent = ⟨base, block.order + 1⟩ ∧ 2 ^ (block.order + 1) ∣ base ∧
      ((block = ⟨base, block.order⟩ ∧ block.buddy = ⟨base + 2 ^ block.order, block.order⟩) ∨
        (block = ⟨base + 2 ^ block.order, block.order⟩ ∧
          block.buddy = ⟨base, block.order⟩)) := by
  rcases low_or_high haligned with ⟨hparent, hbuddy, hdvd⟩ | ⟨hparent, hbuddy, hle, hdvd⟩
  · rw [hparent] at hdvd
    exact ⟨block.base, hparent, hdvd, Or.inl ⟨rfl, hbuddy⟩⟩
  · rw [hparent] at hdvd
    refine ⟨block.base - 2 ^ block.order, hparent, hdvd, Or.inr ⟨?_, hbuddy⟩⟩
    rw [Nat.sub_add_cancel hle]

theorem parent_aligned {block : Block} (haligned : block.Aligned) :
    block.parent.Aligned := by
  rcases low_or_high haligned with ⟨-, -, h⟩ | ⟨-, -, -, h⟩ <;> exact h

theorem buddy_aligned {block : Block} (haligned : block.Aligned) :
    block.buddy.Aligned := by
  rcases low_or_high haligned with ⟨-, hbuddy, -⟩ | ⟨-, hbuddy, -, -⟩ <;> rw [hbuddy]
  · exact dvd_add haligned dvd_rfl
  · exact Nat.dvd_sub haligned dvd_rfl

/-- A parent covers its two halves and nothing else. -/
theorem parent_covers_iff {block : Block} (haligned : block.Aligned) (offset : ℕ) :
    block.parent.Covers offset ↔ block.Covers offset ∨ block.buddy.Covers offset := by
  rcases low_or_high haligned with ⟨hparent, hbuddy, -⟩ | ⟨hparent, hbuddy, hle, -⟩ <;>
    rw [hparent, hbuddy] <;> simp only [Covers, pow_succ] <;> omega

theorem not_meets_buddy {block : Block} (haligned : block.Aligned) :
    ¬ block.Meets block.buddy := by
  rintro ⟨offset, hblock, hbuddy⟩
  have hpos : 0 < 2 ^ block.order := by positivity
  rcases low_or_high haligned with ⟨-, heq, -⟩ | ⟨-, heq, hle, -⟩ <;>
    rw [heq] at hbuddy <;> simp only [Covers] at hblock hbuddy <;> omega

theorem buddy_ne {block : Block} (haligned : block.Aligned) : block.buddy ≠ block := by
  intro heq
  have hmeets : block.Meets block := ⟨block.base, block.covers_base, block.covers_base⟩
  exact not_meets_buddy haligned (heq.symm ▸ hmeets)

/-- The halves of one block are each other's buddies. -/
theorem buddy_low {base order : ℕ} (haligned : 2 ^ (order + 1) ∣ base) :
    (⟨base, order⟩ : Block).buddy = ⟨base + 2 ^ order, order⟩ := by
  obtain ⟨i, rfl⟩ := haligned
  have hdiv : 2 ^ (order + 1) * i / 2 ^ order = 2 * i := by
    rw [pow_succ, mul_assoc]
    exact Nat.mul_div_cancel_left _ (by positivity)
  simp [buddy, hdiv]

theorem parent_low {base order : ℕ} (haligned : 2 ^ (order + 1) ∣ base) :
    (⟨base, order⟩ : Block).parent = ⟨base, order + 1⟩ := by
  obtain ⟨i, rfl⟩ := haligned
  have hdiv : 2 ^ (order + 1) * i / 2 ^ order = 2 * i := by
    rw [pow_succ, mul_assoc]
    exact Nat.mul_div_cancel_left _ (by positivity)
  simp [parent, hdiv]

theorem buddy_buddy {block : Block} (haligned : block.Aligned) :
    block.buddy.buddy = block := by
  have hbuddy := buddy_aligned haligned
  have hpos : 0 < 2 ^ block.order := by positivity
  apply Block.ext _ (by simp)
  -- a buddy's buddy is the half of the same parent that the buddy is not
  obtain ⟨i, hi⟩ := haligned
  have hdiv : block.base / 2 ^ block.order = i := by
    rw [hi]
    exact Nat.mul_div_cancel_left i hpos
  by_cases hodd : i % 2 = 1
  · obtain ⟨j, rfl⟩ : ∃ j, i = 2 * j + 1 := ⟨i / 2, by omega⟩
    have hbase : block.base - 2 ^ block.order = 2 ^ block.order * (2 * j) := by
      rw [hi, mul_add, mul_one, Nat.add_sub_cancel]
    have heq : block.buddy = ⟨2 ^ block.order * (2 * j), block.order⟩ := by
      simp [buddy, hdiv, hbase]
    rw [heq]
    have hdiv' : 2 ^ block.order * (2 * j) / 2 ^ block.order = 2 * j :=
      Nat.mul_div_cancel_left _ hpos
    simp [buddy, hdiv', hi, mul_add]
  · obtain ⟨j, rfl⟩ : ∃ j, i = 2 * j := ⟨i / 2, by omega⟩
    have hbase : block.base + 2 ^ block.order = 2 ^ block.order * (2 * j + 1) := by
      rw [hi, mul_add, mul_one]
    have heq : block.buddy = ⟨2 ^ block.order * (2 * j + 1), block.order⟩ := by
      simp [buddy, hdiv, hbase]
    rw [heq]
    have hdiv' : 2 ^ block.order * (2 * j + 1) / 2 ^ block.order = 2 * j + 1 :=
      Nat.mul_div_cancel_left _ hpos
    simp [buddy, hi, mul_add]

/-- Below the top order a block and its buddy lie in the same interval. -/
theorem buddy_inside {block : Block} {height : ℕ} (haligned : block.Aligned)
    (hinside : block.base + 2 ^ block.order ≤ 2 ^ height)
    (horder : block.order < height) :
    block.buddy.base + 2 ^ block.order ≤ 2 ^ height := by
  rcases low_or_high haligned with ⟨hparent, hbuddy, hdvd⟩ | ⟨-, hbuddy, hle, -⟩
  · rw [hbuddy]
    rw [hparent] at hdvd
    obtain ⟨j, hj⟩ := hdvd
    obtain ⟨gap, hgap⟩ : ∃ gap, height = block.order + 1 + gap :=
      ⟨height - (block.order + 1), by omega⟩
    change block.base + 2 ^ block.order + 2 ^ block.order ≤ 2 ^ height
    change block.base = 2 ^ (block.order + 1) * j at hj
    have hpow : 2 ^ height = 2 ^ (block.order + 1) * 2 ^ gap := by rw [hgap, pow_add]
    have hlt : j < 2 ^ gap := by
      have hpos : 0 < 2 ^ block.order := by positivity
      have : 2 ^ (block.order + 1) * j < 2 ^ (block.order + 1) * 2 ^ gap := by
        rw [← hj, ← hpow]
        omega
      exact Nat.lt_of_mul_lt_mul_left this
    calc block.base + 2 ^ block.order + 2 ^ block.order =
          2 ^ (block.order + 1) * (j + 1) := by rw [hj, pow_succ]; ring
      _ ≤ 2 ^ (block.order + 1) * 2 ^ gap := Nat.mul_le_mul_left _ hlt
      _ = 2 ^ height := hpow.symm
  · rw [hbuddy]
    change block.base - 2 ^ block.order + 2 ^ block.order ≤ 2 ^ height
    rw [Nat.sub_add_cancel hle]
    exact (Nat.le_add_right _ _).trans hinside

end Block

/-- Every offset below `2 ^ height` lies in exactly one tile. -/
structure Tiling (tiles : Set Block) (height : ℕ) : Prop where
  aligned : ∀ tile ∈ tiles, tile.Aligned
  inside : ∀ tile ∈ tiles, tile.base + 2 ^ tile.order ≤ 2 ^ height
  covered : ∀ offset < 2 ^ height, ∃ tile ∈ tiles, tile.Covers offset
  unique : ∀ left ∈ tiles, ∀ right ∈ tiles, left.Meets right → left = right

namespace Tiling

variable {tiles tiles' old new : Set Block} {height : ℕ}

theorem single (height : ℕ) : Tiling {⟨0, height⟩} height where
  aligned := by
    rintro tile rfl
    exact dvd_zero _
  inside := by
    rintro tile rfl
    exact (Nat.zero_add _).le
  covered := fun offset hoffset => ⟨_, rfl, Nat.zero_le _, by simpa using hoffset⟩
  unique := by
    rintro left rfl right rfl -
    rfl

/-- Replace some tiles by others that cover the same offsets. -/
theorem replace (htiling : Tiling tiles height) (hold : old ⊆ tiles)
    (hmem : ∀ tile, tile ∈ tiles' ↔ (tile ∈ tiles ∧ tile ∉ old) ∨ tile ∈ new)
    (haligned : ∀ tile ∈ new, tile.Aligned)
    (hunique : ∀ left ∈ new, ∀ right ∈ new, left.Meets right → left = right)
    (hcovers : ∀ offset, (∃ tile ∈ old, tile.Covers offset) ↔
      ∃ tile ∈ new, tile.Covers offset) :
    Tiling tiles' height := by
  -- a new tile meets no tile that stays
  have hcross : ∀ left ∈ new, ∀ right ∈ tiles, right ∉ old → ¬ left.Meets right := by
    rintro left hleft right hright hnot ⟨offset, hl, hr⟩
    obtain ⟨tile, htile, ht⟩ := (hcovers offset).mpr ⟨left, hleft, hl⟩
    have heq := htiling.unique tile (hold htile) right hright ⟨offset, ht, hr⟩
    exact hnot (heq ▸ htile)
  refine ⟨?_, ?_, ?_, ?_⟩
  · intro tile htile
    rcases (hmem tile).mp htile with ⟨hkeep, -⟩ | hnew
    · exact htiling.aligned tile hkeep
    · exact haligned tile hnew
  · intro tile htile
    rcases (hmem tile).mp htile with ⟨hkeep, -⟩ | hnew
    · exact htiling.inside tile hkeep
    · -- the last offset of a new tile lies in some old tile
      have hpos : 0 < 2 ^ tile.order := by positivity
      obtain ⟨cover, hcover, -, hlast⟩ :=
        (hcovers (tile.base + 2 ^ tile.order - 1)).mpr
          ⟨tile, hnew, by omega, by omega⟩
      have := htiling.inside cover (hold hcover)
      omega
  · intro offset hoffset
    obtain ⟨tile, htile, hcover⟩ := htiling.covered offset hoffset
    by_cases hremoved : tile ∈ old
    · obtain ⟨other, hother, hcovers'⟩ := (hcovers offset).mp ⟨tile, hremoved, hcover⟩
      exact ⟨other, (hmem other).mpr (Or.inr hother), hcovers'⟩
    · exact ⟨tile, (hmem tile).mpr (Or.inl ⟨htile, hremoved⟩), hcover⟩
  · intro left hleft right hright hmeets
    rcases (hmem left).mp hleft with ⟨hl, hlold⟩ | hl <;>
      rcases (hmem right).mp hright with ⟨hr, hrold⟩ | hr
    · exact htiling.unique left hl right hr hmeets
    · exact absurd hmeets.symm (hcross right hr left hl hlold)
    · exact absurd hmeets (hcross left hl right hr hrold)
    · exact hunique left hl right hr hmeets

/-- Splitting a tile into its two halves. -/
theorem split (htiling : Tiling tiles height) {base order : ℕ}
    (htile : (⟨base, order + 1⟩ : Block) ∈ tiles)
    (hmem : ∀ tile, tile ∈ tiles' ↔ (tile ∈ tiles ∧ tile ≠ ⟨base, order + 1⟩) ∨
      tile = ⟨base, order⟩ ∨ tile = ⟨base + 2 ^ order, order⟩) :
    Tiling tiles' height := by
  have hdvd : 2 ^ (order + 1) ∣ base := htiling.aligned _ htile
  have hlow : 2 ^ order ∣ base := (pow_dvd_pow 2 (Nat.le_succ order)).trans hdvd
  have hpos : 0 < 2 ^ order := by positivity
  have hold : ({⟨base, order + 1⟩} : Set Block) ⊆ tiles := by simpa using htile
  have hmem' : ∀ tile, tile ∈ tiles' ↔
      (tile ∈ tiles ∧ tile ∉ ({⟨base, order + 1⟩} : Set Block)) ∨
        tile ∈ ({⟨base, order⟩, ⟨base + 2 ^ order, order⟩} : Set Block) := by
    simpa using hmem
  refine htiling.replace hold hmem' ?_ ?_ ?_
  · rintro tile (rfl | rfl)
    · exact hlow
    · exact dvd_add hlow dvd_rfl
  · rintro left (rfl | rfl) right (rfl | rfl) ⟨offset, hl, hr⟩ <;>
      simp only [Block.Covers] at hl hr <;> first | rfl | omega
  · intro offset
    simp [Block.Covers, pow_succ]
    omega

/-- Merging a tile with its buddy. -/
theorem merge (htiling : Tiling tiles height) {block : Block}
    (hblock : block ∈ tiles) (hbuddy : block.buddy ∈ tiles)
    (hmem : ∀ tile, tile ∈ tiles' ↔
      (tile ∈ tiles ∧ tile ≠ block ∧ tile ≠ block.buddy) ∨ tile = block.parent) :
    Tiling tiles' height := by
  have haligned := htiling.aligned block hblock
  have hold : ({block, block.buddy} : Set Block) ⊆ tiles := by
    rintro tile (rfl | rfl) <;> assumption
  have hmem' : ∀ tile, tile ∈ tiles' ↔
      (tile ∈ tiles ∧ tile ∉ ({block, block.buddy} : Set Block)) ∨
        tile ∈ ({block.parent} : Set Block) := by
    simpa using hmem
  refine htiling.replace hold hmem' ?_ ?_ ?_
  · rintro tile rfl
    exact Block.parent_aligned haligned
  · rintro left rfl right rfl -
    rfl
  · intro offset
    simp [Block.parent_covers_iff haligned]

/-- Tiles with one base are equal. -/
theorem eq_of_base (htiling : Tiling tiles height) {left right : Block}
    (hleft : left ∈ tiles) (hright : right ∈ tiles) (hbase : left.base = right.base) :
    left = right := by
  refine htiling.unique left hleft right hright ⟨left.base, left.covers_base, ?_⟩
  rw [hbase]
  exact right.covers_base

end Tiling

/-! ## Free tiles without buddies are maximal -/

namespace Block

/-- Every offset of `small` lies in `large`. -/
def Contains (large small : Block) : Prop :=
  ∀ offset, small.Covers offset → large.Covers offset

theorem Contains.order_le {large small : Block} (hcontains : large.Contains small) :
    small.order ≤ large.order := by
  have hpos : 0 < 2 ^ small.order := by positivity
  have hfirst := hcontains small.base small.covers_base
  have hlast := hcontains (small.base + 2 ^ small.order - 1) ⟨by omega, by omega⟩
  have hsize : 2 ^ small.order ≤ 2 ^ large.order := by
    have h1 := hfirst.1
    have h2 := hlast.2
    omega
  exact (Nat.pow_le_pow_iff_right (by omega)).mp hsize

theorem Contains.meets {large small : Block} (hcontains : large.Contains small) :
    large.Meets small :=
  ⟨small.base, hcontains _ small.covers_base, small.covers_base⟩

end Block

/-- No two of these blocks are halves of one block. -/
def NoBuddies (free : Set Block) : Prop := ∀ block ∈ free, block.buddy ∉ free

/-- An aligned block of order at least `low` inside `[0, 2 ^ height)` that
avoids every fixed block. -/
structure Candidate (fixed : Set Block) (low height : ℕ) (block : Block) : Prop where
  aligned : block.Aligned
  low_le : low ≤ block.order
  inside : block.base + 2 ^ block.order ≤ 2 ^ height
  avoids : ∀ tile ∈ fixed, ¬ block.Meets tile

/-- The candidates contained in no other candidate. -/
def maximalFree (fixed : Set Block) (low height : ℕ) : Set Block :=
  {block | Candidate fixed low height block ∧
    ∀ other, Candidate fixed low height other → other.Contains block → other = block}

section Canonical

variable {fixed free : Set Block} {low height : ℕ}

/-- A candidate lies in a single free tile.  Otherwise the smallest tile that
meets it would have its buddy inside the candidate, and the tile over the buddy
would be the buddy itself. -/
theorem exists_free_contains (htiling : Tiling (fixed ∪ free) height)
    (hbuddies : NoBuddies free) {block : Block}
    (hcandidate : Candidate fixed low height block) :
    ∃ tile ∈ free, tile.Contains block := by
  classical
  have hfree : ∀ tile ∈ fixed ∪ free, tile.Meets block → tile ∈ free := by
    rintro tile (htile | htile) hmeets
    · exact absurd hmeets.symm (hcandidate.avoids tile htile)
    · exact htile
  have hlt : ∀ offset, block.Covers offset → offset < 2 ^ height := fun offset hoffset =>
    hoffset.2.trans_le hcandidate.inside
  by_contra hnone
  push Not at hnone
  have hsmall : ∀ tile ∈ free, tile.Meets block → tile.order < block.order := by
    intro tile htile hmeets
    by_contra hle
    push Not at hle
    exact hnone tile htile fun offset hoffset =>
      Block.covers_of_meets hcandidate.aligned
        (htiling.aligned tile (Or.inr htile)) hle hmeets.symm hoffset
  -- the tile of least order that meets the candidate
  have hexists : ∃ order, ∃ tile ∈ free, tile.Meets block ∧ tile.order = order := by
    obtain ⟨tile, htile, hcover⟩ :=
      htiling.covered block.base (hlt _ block.covers_base)
    have hmeets : tile.Meets block := ⟨block.base, hcover, block.covers_base⟩
    exact ⟨tile.order, tile, hfree tile htile hmeets, hmeets, rfl⟩
  obtain ⟨tile, htile, hmeets, horder⟩ := Nat.find_spec hexists
  have hmin : ∀ other ∈ free, other.Meets block → tile.order ≤ other.order := by
    intro other hother hothermeets
    rw [horder]
    exact Nat.find_min' hexists ⟨other, hother, hothermeets, rfl⟩
  have haligned := htiling.aligned tile (Or.inr htile)
  have hparent : block.Contains tile.parent := by
    intro offset hoffset
    refine Block.covers_of_meets (Block.parent_aligned haligned) hcandidate.aligned ?_ ?_
      hoffset
    · simpa using hsmall tile htile hmeets
    · obtain ⟨common, ht, hb⟩ := hmeets
      exact ⟨common, (Block.parent_covers_iff haligned common).mpr (Or.inl ht), hb⟩
  -- the tile over the buddy's base
  have hbuddyBase : block.Covers tile.buddy.base :=
    hparent _ ((Block.parent_covers_iff haligned _).mpr (Or.inr tile.buddy.covers_base))
  obtain ⟨other, hotherTile, hother⟩ := htiling.covered _ (hlt _ hbuddyBase)
  have hotherMeets : other.Meets block := ⟨_, hother, hbuddyBase⟩
  have hotherFree := hfree other hotherTile hotherMeets
  have hotherAligned := htiling.aligned other hotherTile
  rcases (hmin other hotherFree hotherMeets).eq_or_lt with heq | hgt
  · have : other = tile.buddy :=
      Block.eq_of_meets hotherAligned (Block.buddy_aligned haligned) (by simp [heq])
        ⟨_, hother, tile.buddy.covers_base⟩
    exact hbuddies tile htile (this ▸ hotherFree)
  · have hcover : other.Covers tile.base := by
      refine Block.covers_of_meets (Block.parent_aligned haligned) hotherAligned
        (by simpa using hgt) ⟨tile.buddy.base, ?_, hother⟩ ?_
      · exact (Block.parent_covers_iff haligned _).mpr (Or.inr tile.buddy.covers_base)
      · exact (Block.parent_covers_iff haligned _).mpr (Or.inl tile.covers_base)
    have := htiling.unique other hotherTile tile (Or.inr htile)
      ⟨tile.base, hcover, tile.covers_base⟩
    rw [this] at hgt
    exact lt_irrefl _ hgt

/-- Free tiles without buddies are the maximal blocks that avoid the fixed
tiles. -/
theorem free_eq_maximalFree (htiling : Tiling (fixed ∪ free) height)
    (hbuddies : NoBuddies free) (hlow : ∀ tile ∈ free, low ≤ tile.order)
    (hdisjoint : Disjoint fixed free) : free = maximalFree fixed low height := by
  have hfree : ∀ tile ∈ free, Candidate fixed low height tile := by
    intro tile htile
    refine ⟨htiling.aligned tile (Or.inr htile), hlow tile htile,
      htiling.inside tile (Or.inr htile), ?_⟩
    intro other hother hmeets
    have heq := htiling.unique tile (Or.inr htile) other (Or.inl hother) hmeets
    exact Set.disjoint_left.mp hdisjoint hother (heq ▸ htile)
  ext block
  constructor
  · intro hblock
    refine ⟨hfree block hblock, ?_⟩
    intro other hother hcontains
    obtain ⟨tile, htile, htileContains⟩ := exists_free_contains htiling hbuddies hother
    have heq : tile = block := htiling.unique tile (Or.inr htile) block (Or.inr hblock)
      ⟨block.base, htileContains _ (hcontains _ block.covers_base), block.covers_base⟩
    subst heq
    exact Block.eq_of_meets hother.aligned (hfree tile hblock).aligned
      (le_antisymm htileContains.order_le hcontains.order_le) hcontains.meets
  · rintro ⟨hcandidate, hmaximal⟩
    obtain ⟨tile, htile, hcontains⟩ := exists_free_contains htiling hbuddies hcandidate
    exact hmaximal tile (hfree tile htile) hcontains ▸ htile

end Canonical

end DyadicTiling
