import Rhythmos.Buddy.Invariant

/-!
# Elementary moves of the buddy allocator

Each move of a block between the live blocks, the held blocks and the free lists
keeps the representation invariant and the contents of the live blocks.
-/

namespace Rhythmos.Buddy

open ByteMemory DyadicTiling LinkedChain Fallible

/-- Changing one list adds and removes blocks of its order only. -/
theorem mem_freeBlocks_update {lists : ℕ → List ℕ} {m : ℕ} {nodes : List ℕ}
    {block : Block} :
    block ∈ freeBlocks (Function.update lists m nodes) ↔
      (block.order = m ∧ block.base ∈ nodes) ∨
        (block.order ≠ m ∧ block ∈ freeBlocks lists) := by
  by_cases heq : block.order = m
  · simp [freeBlocks, heq]
  · simp [freeBlocks, heq]

namespace Rep

variable {ma : MemArea} {live hand : Set Block} {lists : ℕ → List ℕ}

/-- Erasing a block from its list takes exactly that block off the free lists. -/
theorem mem_freeBlocks_erase (hlists : Lists ma lists) {base m : ℕ} {block : Block} :
    block ∈ freeBlocks (Function.update lists m ((lists m).erase base)) ↔
      block ∈ freeBlocks lists ∧ block ≠ ⟨base, m⟩ := by
  rw [mem_freeBlocks_update]
  by_cases heq : block.order = m
  · subst heq
    have hmem : block.base ∈ (lists block.order).erase base ↔
        block.base ≠ base ∧ block.base ∈ lists block.order :=
      (hlists.nodup block.order).mem_erase_iff
    simp only [true_and, ne_eq, not_true_eq_false, false_and, or_false, hmem, Block.ext_iff]
    simp only [freeBlocks, Set.mem_ofPred_eq]
    tauto
  · simp only [heq, false_and, ne_eq, not_false_eq_true, true_and, false_or, Block.ext_iff]
    tauto

/-- Pushing a block on its list puts exactly that block on the free lists. -/
theorem mem_freeBlocks_push {base m : ℕ} {block : Block} :
    block ∈ freeBlocks (Function.update lists m (base :: lists m)) ↔
      block ∈ freeBlocks lists ∨ block = ⟨base, m⟩ := by
  rw [mem_freeBlocks_update]
  by_cases heq : block.order = m
  · subst heq
    simp [freeBlocks, Block.ext_iff, or_comm]
  · simp [heq, Block.ext_iff]

/-- Taking a block off its free list. -/
theorem unlink (hrep : Rep ma live hand lists) {base m : ℕ} (hbase : base ∈ lists m) :
    ∃ ma', removeFromFreelist ma m base = .ok ma' ∧ ma'.blocks = ma.blocks ∧
      Rep ma' live (insert ⟨base, m⟩ hand)
        (Function.update lists m ((lists m).erase base)) ∧ Keeps ma ma' live := by
  have hfree : (⟨base, m⟩ : Block) ∈ freeBlocks lists := hbase
  obtain ⟨ma', hremove, hshape, hlists, hmemory⟩ :=
    removeFromFreelist_spec hrep.free_lists (hrep.order_lt (free_mem hfree)) hbase
  have hfreeIff : ∀ block : Block,
      block ∈ freeBlocks (Function.update lists m ((lists m).erase base)) ↔
        block ∈ freeBlocks lists ∧ block ≠ ⟨base, m⟩ :=
    fun _ => mem_freeBlocks_erase hrep.free_lists
  have htiles : tiles live (insert ⟨base, m⟩ hand)
      (Function.update lists m ((lists m).erase base)) = tiles live hand lists := by
    ext block
    simp only [mem_tiles, hfreeIff, Set.mem_insert_iff]
    by_cases heq : block = ⟨base, m⟩
    · subst heq
      simp [hbase]
    · simp [heq]
  refine ⟨ma', hremove, hshape.blocks, ?_, ?_⟩
  · refine
      { free_lists := hlists
        mem_pos := hshape.mem ▸ hrep.mem_pos
        mem_le := by rw [hshape.mem, hshape.upper]; exact hrep.mem_le
        tiling := by rw [htiles, hshape.upper]; exact hrep.tiling
        order_ge := by rw [htiles]; exact hrep.order_ge
        hand_free := ?_
        live_info := by rw [hshape.blocks]; exact hrep.live_info
        hand_info := ?_
        free_info := ?_
        other_info := by rw [htiles, hshape.blocks]; exact hrep.other_info }
    · rintro block (rfl | hhand) hmem
      · exact ((hfreeIff _).mp hmem).2 rfl
      · exact hrep.hand_free block hhand ((hfreeIff _).mp hmem).1
    · rw [hshape.blocks]
      rintro block (rfl | hhand)
      · exact hrep.free_info _ hfree
      · exact hrep.hand_info block hhand
    · rw [hshape.blocks]
      intro block hmem
      exact hrep.free_info block ((hfreeIff _).mp hmem).1
  · refine ⟨hshape.lower, hshape.upper, hshape.mem, ?_⟩
    intro block hblock address hlow hhigh
    apply hmemory
    rintro ⟨order, node, hnode, hnodeLow, hnodeHigh⟩
    have hmem : (⟨node, order⟩ : Block) ∈ freeBlocks lists := hnode
    have hne : (⟨node, order⟩ : Block) ≠ block := fun heq =>
      hrep.live_not_free hblock (heq ▸ hmem)
    have := hrep.live_off_word hblock (free_mem hmem) hne hlow hhigh
    omega

/-- Putting a held block on its free list. -/
theorem relink (hrep : Rep ma live hand lists) {base m : ℕ}
    (hbase : (⟨base, m⟩ : Block) ∈ hand) :
    ∃ ma', addToFreelist ma m base = .ok ma' ∧ ma'.blocks = ma.blocks ∧
      Rep ma' live (hand \ {⟨base, m⟩}) (Function.update lists m (base :: lists m)) ∧
      Keeps ma ma' live := by
  have hnew : ∀ m', base ∉ lists m' := by
    intro m' hmem
    have hfree : (⟨base, m'⟩ : Block) ∈ freeBlocks lists := hmem
    have heq := hrep.tiling.eq_of_base (hand_mem hbase) (free_mem hfree) rfl
    exact hrep.hand_free _ hbase (heq ▸ hfree)
  have hinside : base + 2 ^ m ≤ 2 ^ ma.upper := hrep.tiling.inside _ (hand_mem hbase)
  have hdvd : 256 ∣ base := hrep.base_dvd (hand_mem hbase)
  have hm : m < 32 := hrep.order_lt (hand_mem hbase)
  obtain ⟨ma', hadd, hshape, hlists, hmemory⟩ :=
    addToFreelist_spec hrep.free_lists hm hinside hdvd hnew
  have htiles : tiles live (hand \ {⟨base, m⟩})
      (Function.update lists m (base :: lists m)) = tiles live hand lists := by
    ext block
    simp only [mem_tiles, mem_freeBlocks_push, Set.mem_sdiff, Set.mem_singleton_iff]
    by_cases heq : block = ⟨base, m⟩
    · subst heq
      simp [hbase]
    · simp [heq]
  refine ⟨ma', hadd, hshape.blocks, ?_, ?_⟩
  · refine
      { free_lists := hlists
        mem_pos := hshape.mem ▸ hrep.mem_pos
        mem_le := by rw [hshape.mem, hshape.upper]; exact hrep.mem_le
        tiling := by rw [htiles, hshape.upper]; exact hrep.tiling
        order_ge := by rw [htiles]; exact hrep.order_ge
        hand_free := ?_
        live_info := by rw [hshape.blocks]; exact hrep.live_info
        hand_info := by rw [hshape.blocks]; exact fun block hblock => hrep.hand_info block hblock.1
        free_info := ?_
        other_info := by rw [htiles, hshape.blocks]; exact hrep.other_info }
    · rintro block ⟨hhand, hne⟩ hmem
      rcases mem_freeBlocks_push.mp hmem with hfree | heq
      · exact hrep.hand_free block hhand hfree
      · exact hne heq
    · rw [hshape.blocks]
      intro block hmem
      rcases mem_freeBlocks_push.mp hmem with hfree | rfl
      · exact hrep.free_info block hfree
      · exact hrep.hand_info _ hbase
  · refine ⟨hshape.lower, hshape.upper, hshape.mem, ?_⟩
    intro block hblock address hlow hhigh
    have hne : (⟨base, m⟩ : Block) ≠ block := fun heq =>
      hrep.live_not_hand hblock (heq ▸ hbase)
    exact hmemory address (hrep.live_off_word hblock (hand_mem hbase) hne hlow hhigh)

/-! ## Moves that change entries of `blocks` -/

/-- The free lists do not depend on the `blocks` array. -/
theorem lists_withBlocks (hlists : Lists ma lists) (blocks : ℕ → BlockInfo) :
    Lists { ma with blocks := blocks } lists :=
  ⟨hlists.lower_eq, hlists.upper_ge, hlists.upper_le, hlists.chain, hlists.nodup,
    hlists.dvd, hlists.lt, hlists.separate⟩

/-- Distinct blocks have distinct entries. -/
theorem entry_ne (hrep : Rep ma live hand lists) {left right : Block}
    (hleft : left ∈ tiles live hand lists) (hright : right ∈ tiles live hand lists)
    (hne : left ≠ right) : left.base / 256 ≠ right.base / 256 := by
  intro heq
  have hl := hrep.base_dvd hleft
  have hr := hrep.base_dvd hright
  exact hne (hrep.tiling.eq_of_base hleft hright (by omega))

/-- No other block has its entry inside a block. -/
theorem entry_ne_inside (hrep : Rep ma live hand lists) {block other : Block}
    (hblock : block ∈ tiles live hand lists) (hother : other ∈ tiles live hand lists)
    (hne : other ≠ block) {offset : ℕ} (hdvd : 256 ∣ offset)
    (hcovers : block.Covers offset) : other.base / 256 ≠ offset / 256 := by
  intro heq
  have ho := hrep.base_dvd hother
  have hbase : other.base = offset := by omega
  refine hne (hrep.tiling.unique other hother block hblock ⟨offset, ?_, hcovers⟩)
  rw [← hbase]
  exact other.covers_base

/-- Marking a block used makes it live, marking it unused makes it held. -/
theorem mark (hrep : Rep ma live hand lists) {block : Block} (used : Bool)
    (hblock : block ∈ tiles live hand lists) (hfree : block ∉ freeBlocks lists)
    {live' hand' : Set Block}
    (hlive : ∀ other, other ∈ live' ↔
      (other ∈ live ∧ other ≠ block) ∨ (used = true ∧ other = block))
    (hhand : ∀ other, other ∈ hand' ↔
      (other ∈ hand ∧ other ≠ block) ∨ (used = false ∧ other = block)) :
    Rep { ma with blocks :=
      Function.update ma.blocks (block.base / 256) ⟨block.order, used⟩ }
      live' hand' lists := by
  have htiles : tiles live' hand' lists = tiles live hand lists := by
    ext other
    simp only [mem_tiles, hlive, hhand]
    by_cases heq : other = block
    · subst heq
      have := mem_tiles.mp hblock
      cases used <;> simp [this]
    · simp [heq]
  have hkeep : ∀ other ∈ tiles live hand lists, other ≠ block →
      Function.update ma.blocks (block.base / 256) ⟨block.order, used⟩ (other.base / 256) =
        ma.blocks (other.base / 256) := by
    intro other hother hne
    rw [Function.update_of_ne (hrep.entry_ne hother hblock hne)]
  refine
    { free_lists := lists_withBlocks hrep.free_lists _
      mem_pos := hrep.mem_pos
      mem_le := hrep.mem_le
      tiling := by rw [htiles]; exact hrep.tiling
      order_ge := by rw [htiles]; exact hrep.order_ge
      hand_free := ?_
      live_info := ?_
      hand_info := ?_
      free_info := ?_
      other_info := ?_ }
  · intro other hother
    rcases (hhand other).mp hother with ⟨hold, -⟩ | ⟨-, rfl⟩
    · exact hrep.hand_free other hold
    · exact hfree
  · intro other hother
    rcases (hlive other).mp hother with ⟨hold, hne⟩ | ⟨rfl, rfl⟩
    · exact (hkeep other (live_mem hold) hne).trans (hrep.live_info other hold)
    · simp
  · intro other hother
    rcases (hhand other).mp hother with ⟨hold, hne⟩ | ⟨rfl, rfl⟩
    · exact (hkeep other (hand_mem hold) hne).trans (hrep.hand_info other hold)
    · simp
  · intro other hother
    have hne : other ≠ block := fun heq => hfree (heq ▸ hother)
    exact (hkeep other (free_mem hother) hne).trans (hrep.free_info other hother)
  · intro index hindex
    rw [htiles] at hindex
    have hne : index ≠ block.base / 256 := by
      intro heq
      have := hrep.base_dvd hblock
      exact hindex block hblock (by omega)
    change Function.update ma.blocks (block.base / 256) ⟨block.order, used⟩ index = _
    rw [Function.update_of_ne hne]
    exact hrep.other_info index hindex

/-- Splitting a held block into its halves. -/
theorem splitHand (hrep : Rep ma live hand lists) {base order : ℕ} (horder : 8 ≤ order)
    (hblock : (⟨base, order + 1⟩ : Block) ∈ hand) :
    Rep
      { ma with
        blocks := Function.update (Function.update ma.blocks (base / 256) ⟨order, false⟩)
          ((base + 2 ^ order) / 256) ⟨order, false⟩ }
      live ((hand \ {⟨base, order + 1⟩}) ∪ {⟨base, order⟩, ⟨base + 2 ^ order, order⟩})
      lists := by
  set whole : Block := ⟨base, order + 1⟩ with hwhole
  set low : Block := ⟨base, order⟩ with hlow
  set high : Block := ⟨base + 2 ^ order, order⟩ with hhigh
  have hmem : whole ∈ tiles live hand lists := hand_mem hblock
  have hpow : 256 ∣ 2 ^ order := by
    rw [show (256 : ℕ) = 2 ^ 8 by norm_num]
    exact pow_dvd_pow 2 horder
  have hpos : 0 < 2 ^ order := by positivity
  have hbaseDvd : 256 ∣ base := hrep.base_dvd hmem
  have hwholeLive : whole ∉ live := fun h => hrep.live_not_hand h hblock
  have hwholeFree : whole ∉ freeBlocks lists := hrep.hand_free whole hblock
  have htilesIff : ∀ tile, tile ∈ tiles live ((hand \ {whole}) ∪ {low, high}) lists ↔
      (tile ∈ tiles live hand lists ∧ tile ≠ whole) ∨ tile = low ∨ tile = high := by
    intro tile
    simp only [mem_tiles, Set.mem_union, Set.mem_sdiff, Set.mem_singleton_iff,
      Set.mem_insert_iff]
    by_cases heq : tile = whole
    · subst heq
      simp [hwholeLive, hwholeFree]
    · simp only [heq, not_false_eq_true, and_true, ne_eq]
      tauto
  have htiling : Tiling (tiles live ((hand \ {whole}) ∪ {low, high}) lists) ma.upper :=
    hrep.tiling.split hmem htilesIff
  have hcovers : whole.Covers (base + 2 ^ order) := by
    constructor
    · exact Nat.le_add_right _ _
    · change base + 2 ^ order < base + 2 ^ (order + 1)
      rw [pow_succ]
      omega
  have hkeep : ∀ other ∈ tiles live hand lists, other ≠ whole →
      Function.update (Function.update ma.blocks (base / 256) ⟨order, false⟩)
        ((base + 2 ^ order) / 256) ⟨order, false⟩ (other.base / 256) =
        ma.blocks (other.base / 256) := by
    intro other hother hne
    have hfirst : other.base / 256 ≠ base / 256 := hrep.entry_ne hother hmem hne
    have hsecond : other.base / 256 ≠ (base + 2 ^ order) / 256 :=
      hrep.entry_ne_inside hmem hother hne (dvd_add hbaseDvd hpow) hcovers
    rw [Function.update_of_ne hsecond, Function.update_of_ne hfirst]
  have hentries : base / 256 ≠ (base + 2 ^ order) / 256 := by omega
  refine
    { free_lists := lists_withBlocks hrep.free_lists _
      mem_pos := hrep.mem_pos
      mem_le := hrep.mem_le
      tiling := htiling
      order_ge := ?_
      hand_free := ?_
      live_info := ?_
      hand_info := ?_
      free_info := ?_
      other_info := ?_ }
  · intro tile htile
    rcases (htilesIff tile).mp htile with ⟨hold, -⟩ | rfl | rfl
    · exact hrep.order_ge tile hold
    · exact horder
    · exact horder
  · rintro tile (⟨hold, -⟩ | rfl | rfl) hfree
    · exact hrep.hand_free tile hold hfree
    · have heq := hrep.tiling.eq_of_base (free_mem hfree) hmem rfl
      simp [hwhole, hlow] at heq
    · have heq := hrep.tiling.unique _ (free_mem hfree) whole hmem
        ⟨base + 2 ^ order, high.covers_base, hcovers⟩
      simp [hwhole, hhigh] at heq
  · intro tile htile
    have hne : tile ≠ whole := fun heq => hwholeLive (heq ▸ htile)
    exact (hkeep tile (live_mem htile) hne).trans (hrep.live_info tile htile)
  · rintro tile (⟨hold, hne⟩ | rfl | rfl)
    · exact (hkeep tile (hand_mem hold) hne).trans (hrep.hand_info tile hold)
    · change Function.update _ _ _ (base / 256) = _
      rw [Function.update_of_ne hentries, Function.update_self]
    · change Function.update _ _ _ ((base + 2 ^ order) / 256) = _
      rw [Function.update_self]
  · intro tile htile
    have hne : tile ≠ whole := fun heq => hwholeFree (heq ▸ htile)
    exact (hkeep tile (free_mem htile) hne).trans (hrep.free_info tile htile)
  · intro index hindex
    have hlowNe := hindex low ((htilesIff low).mpr (Or.inr (Or.inl rfl)))
    have hhighNe := hindex high ((htilesIff high).mpr (Or.inr (Or.inr rfl)))
    have hfirst : index ≠ base / 256 := by
      intro heq
      exact hlowNe (by change base = _; omega)
    have hsecond : index ≠ (base + 2 ^ order) / 256 := by
      intro heq
      exact hhighNe (by change base + 2 ^ order = _; omega)
    change Function.update _ _ _ index = _
    rw [Function.update_of_ne hsecond, Function.update_of_ne hfirst]
    apply hrep.other_info
    intro tile htile
    by_cases heq : tile = whole
    · rw [heq]
      exact hlowNe
    · exact hindex tile ((htilesIff tile).mpr (Or.inl ⟨htile, heq⟩))

/-- Merging two held halves. -/
theorem mergeHand (hrep : Rep ma live hand lists) {base order : ℕ}
    (hdvd : 2 ^ (order + 1) ∣ base) (hlowHand : (⟨base, order⟩ : Block) ∈ hand)
    (hhighHand : (⟨base + 2 ^ order, order⟩ : Block) ∈ hand) :
    Rep
      { ma with
        blocks := Function.update (Function.update ma.blocks (base / 256) ⟨order + 1, false⟩)
          ((base + 2 ^ order) / 256) ⟨0, false⟩ }
      live (insert ⟨base, order + 1⟩ (hand \ {⟨base, order⟩, ⟨base + 2 ^ order, order⟩}))
      lists := by
  set whole : Block := ⟨base, order + 1⟩ with hwhole
  set low : Block := ⟨base, order⟩ with hlow
  set high : Block := ⟨base + 2 ^ order, order⟩ with hhigh
  have hbuddy : low.buddy = high := Block.buddy_low hdvd
  have hparent : low.parent = whole := Block.parent_low hdvd
  have hlowMem : low ∈ tiles live hand lists := hand_mem hlowHand
  have hhighMem : high ∈ tiles live hand lists := hand_mem hhighHand
  have horder : 8 ≤ order := hrep.order_ge low hlowMem
  have hpow : 256 ∣ 2 ^ order := by
    rw [show (256 : ℕ) = 2 ^ 8 by norm_num]
    exact pow_dvd_pow 2 horder
  have hpos : 0 < 2 ^ order := by positivity
  have hbaseDvd : 256 ∣ base := hrep.base_dvd hlowMem
  have htilesIff : ∀ tile, tile ∈ tiles live (insert whole (hand \ {low, high})) lists ↔
      (tile ∈ tiles live hand lists ∧ tile ≠ low ∧ tile ≠ high) ∨ tile = whole := by
    intro tile
    simp only [mem_tiles, Set.mem_sdiff, Set.mem_singleton_iff, Set.mem_insert_iff]
    by_cases hl : tile = low
    · subst hl
      have h1 : low ∉ live := fun h => hrep.live_not_hand h hlowHand
      have h2 : low ∉ freeBlocks lists := hrep.hand_free low hlowHand
      simp [h1, h2]
    by_cases hh : tile = high
    · subst hh
      have h1 : high ∉ live := fun h => hrep.live_not_hand h hhighHand
      have h2 : high ∉ freeBlocks lists := hrep.hand_free high hhighHand
      simp [h1, h2]
    · simp only [hl, hh, or_self, not_false_eq_true, and_true, ne_eq]
      tauto
  have htiling : Tiling (tiles live (insert whole (hand \ {low, high})) lists) ma.upper := by
    refine hrep.tiling.merge hlowMem (hbuddy ▸ hhighMem) ?_
    rw [hbuddy, hparent]
    exact htilesIff
  have hkeep : ∀ other ∈ tiles live hand lists, other ≠ low → other ≠ high →
      Function.update (Function.update ma.blocks (base / 256) ⟨order + 1, false⟩)
        ((base + 2 ^ order) / 256) ⟨0, false⟩ (other.base / 256) =
        ma.blocks (other.base / 256) := by
    intro other hother hneLow hneHigh
    have hfirst : other.base / 256 ≠ base / 256 := hrep.entry_ne hother hlowMem hneLow
    have hsecond : other.base / 256 ≠ (base + 2 ^ order) / 256 :=
      hrep.entry_ne hother hhighMem hneHigh
    rw [Function.update_of_ne hsecond, Function.update_of_ne hfirst]
  have hentries : base / 256 ≠ (base + 2 ^ order) / 256 := by omega
  refine
    { free_lists := lists_withBlocks hrep.free_lists _
      mem_pos := hrep.mem_pos
      mem_le := hrep.mem_le
      tiling := htiling
      order_ge := ?_
      hand_free := ?_
      live_info := ?_
      hand_info := ?_
      free_info := ?_
      other_info := ?_ }
  · intro tile htile
    rcases (htilesIff tile).mp htile with ⟨hold, -⟩ | rfl
    · exact hrep.order_ge tile hold
    · change 8 ≤ order + 1
      omega
  · rintro tile (rfl | ⟨hold, -⟩) hfree
    · have heq := hrep.tiling.eq_of_base (free_mem hfree) hlowMem rfl
      simp [hwhole, hlow] at heq
    · exact hrep.hand_free tile hold hfree
  · intro tile htile
    have hneLow : tile ≠ low := fun heq => hrep.live_not_hand htile (heq ▸ hlowHand)
    have hneHigh : tile ≠ high := fun heq => hrep.live_not_hand htile (heq ▸ hhighHand)
    exact (hkeep tile (live_mem htile) hneLow hneHigh).trans (hrep.live_info tile htile)
  · rintro tile (rfl | ⟨hold, hne⟩)
    · change Function.update _ _ _ (base / 256) = _
      rw [Function.update_of_ne hentries, Function.update_self]
    · simp only [Set.mem_insert_iff, Set.mem_singleton_iff, not_or] at hne
      exact (hkeep tile (hand_mem hold) hne.1 hne.2).trans (hrep.hand_info tile hold)
  · intro tile htile
    have hneLow : tile ≠ low := fun heq => hrep.hand_free low hlowHand (heq ▸ htile)
    have hneHigh : tile ≠ high := fun heq => hrep.hand_free high hhighHand (heq ▸ htile)
    exact (hkeep tile (free_mem htile) hneLow hneHigh).trans (hrep.free_info tile htile)
  · intro index hindex
    have hwholeNe := hindex whole ((htilesIff whole).mpr (Or.inr rfl))
    have hfirst : index ≠ base / 256 := by
      intro heq
      exact hwholeNe (by change base = _; omega)
    change Function.update _ _ _ index = _
    by_cases hsecond : index = (base + 2 ^ order) / 256
    · rw [hsecond, Function.update_self]
    · rw [Function.update_of_ne hsecond, Function.update_of_ne hfirst]
      apply hrep.other_info
      intro tile htile
      by_cases hl : tile = low
      · rw [hl]
        exact hwholeNe
      by_cases hh : tile = high
      · rw [hh]
        change base + 2 ^ order ≠ 256 * index
        omega
      · exact hindex tile ((htilesIff tile).mpr (Or.inl ⟨htile, hl, hh⟩))

end Rep

end Rhythmos.Buddy
