import Rhythmos.Paging.Model

/-!
# Words of pages

A page is 1024 words at a multiple of 4096.  A store to one word leaves every
other word of every page alone, and the stores that only touch the bytes of one
page leave the words of all other pages alone.
-/

namespace Rhythmos.Paging

open ByteMemory Libc

/-- Word `index` of a page. -/
def word (phys : Memory) (page index : ℕ) : ℕ := load32 phys (page + 4 * index)

theorem word_lt (phys : Memory) (page index : ℕ) : word phys page index < wordCount :=
  load32_lt phys _

theorem word_store32 (phys : Memory) {page other index index' : ℕ} (value : ℕ)
    (hpage : page % pageSize = 0) (hother : other % pageSize = 0)
    (hindex : index < 1024) (hindex' : index' < 1024) :
    word (store32 phys (page + 4 * index) value) other index' =
      if other = page ∧ index' = index then value % wordCount else word phys other index' := by
  simp only [pageSize] at hpage hother
  simp only [word]
  split
  · next hsame =>
      obtain ⟨rfl, rfl⟩ := hsame
      exact load32_store32_mod phys _ value
  · next hdiff => exact load32_store32_off phys _ value (by omega)

/-- Memories that agree outside the bytes of one page have the same words on
every other page. -/
theorem word_congr {phys phys' : Memory} {page other index : ℕ}
    (hsame : ∀ x, x < page ∨ page + pageSize ≤ x → phys' x = phys x)
    (hpage : page % pageSize = 0) (hother : other % pageSize = 0) (hne : other ≠ page)
    (hindex : index < 1024) : word phys' other index = word phys other index := by
  simp only [pageSize] at hsame hpage hother
  apply load32_congr
  intro x hlow hhigh
  exact hsame x (by omega)

theorem word_zeroWords (phys : Memory) {page other index count : ℕ}
    (hpage : page % pageSize = 0) (hother : other % pageSize = 0)
    (hindex : index < 1024) (hcount : count ≤ 1024) :
    word (zeroWords phys page count) other index =
      if other = page ∧ index < count then 0 else word phys other index := by
  induction count with
  | zero => simp [zeroWords]
  | succ count ih =>
      rw [zeroWords, word_store32 _ _ hpage hother (by omega) hindex, ih (by omega)]
      by_cases hsame : other = page
      · by_cases hlast : index = count
        · simp [hsame, hlast]
        · simp only [hsame, hlast, and_false, if_false, true_and]
          congr 1
          simp only [eq_iff_iff]
          omega
      · simp [hsame]

/-! ## Entries -/

theorem frameAddress_eq {entry : ℕ} (hentry : entry < wordCount) :
    frameAddress entry = entry / pageSize * pageSize := by
  apply Nat.eq_of_testBit_eq
  intro i
  have hmask : pageAddressMask = (2 ^ 20 - 1) * 2 ^ 12 := by decide
  have hsize : pageSize = 2 ^ 12 := by decide
  rw [frameAddress, hmask, hsize, Nat.testBit_and, Nat.testBit_mul_two_pow,
    Nat.testBit_mul_two_pow, Nat.testBit_two_pow_sub_one, Nat.testBit_div_two_pow]
  by_cases hi : 12 ≤ i
  · by_cases hhigh : i < 32
    · simp [hi, show i - 12 < 20 by omega, Nat.sub_add_cancel hi]
    · have hfalse : entry.testBit i = false := by
        apply Nat.testBit_lt_two_pow
        calc entry < 2 ^ 32 := hentry
          _ ≤ 2 ^ i := Nat.pow_le_pow_right (by decide) (by omega)
      simp [hi, Nat.sub_add_cancel hi, hfalse]
  · simp [hi]

theorem frameAddress_aligned {entry : ℕ} (hentry : entry < wordCount) :
    frameAddress entry % pageSize = 0 := by
  rw [frameAddress_eq hentry]
  exact Nat.mul_mod_left _ _

theorem isPresent_iff (entry : ℕ) : isPresent entry = true ↔ entry % 2 = 1 := by
  simp only [isPresent, pagePresent, Nat.and_one_is_mod]
  simp

@[simp]
theorem isPresent_zero : isPresent 0 = false := by decide

/-- The value `map_page` stores: a page address with `PAGE_PRESENT` and further
flags below the address bits. -/
theorem entry_or_flags {page flags : ℕ} (haligned : page % pageSize = 0)
    (hflags : flags < pageSize) : page ||| flags = page + flags := by
  have hpage : page = 2 ^ 12 * (page / pageSize) := by
    have hdiv := Nat.div_add_mod page pageSize
    rw [haligned] at hdiv
    exact hdiv.symm
  rw [hpage]
  exact (Nat.two_pow_add_eq_or_of_lt hflags _).symm

/-- Reading back a stored entry: it is present and names its page. -/
theorem entry_flags {page flags : ℕ} (haligned : page % pageSize = 0)
    (hfits : page < wordCount) (hflags : flags < pageSize) (hpresent : flags % 2 = 1) :
    (page ||| flags) % wordCount = page ||| flags ∧ isPresent (page ||| flags) = true ∧
      frameAddress (page ||| flags) = page := by
  have hsum := entry_or_flags haligned hflags
  have hbound : page + flags < wordCount := by
    simp only [pageSize, wordCount] at *
    omega
  rw [hsum]
  refine ⟨Nat.mod_eq_of_lt hbound, ?_, ?_⟩
  · rw [isPresent_iff]
    simp only [pageSize] at haligned
    omega
  · rw [frameAddress_eq hbound]
    simp only [pageSize] at *
    omega

/-- The entries that the functions of `page.c` store. -/
theorem stored_flags {page access readwrite : ℕ} (haligned : page % pageSize = 0)
    (hfits : page < wordCount) (hflags : pagePresent ||| access ||| readwrite < pageSize)
    (hodd : (pagePresent ||| access ||| readwrite) % 2 = 1) :
    (page ||| pagePresent ||| access ||| readwrite) % wordCount =
        page ||| pagePresent ||| access ||| readwrite ∧
      isPresent (page ||| pagePresent ||| access ||| readwrite) = true ∧
      frameAddress (page ||| pagePresent ||| access ||| readwrite) = page := by
  have hvalue : page ||| pagePresent ||| access ||| readwrite =
      page ||| (pagePresent ||| access ||| readwrite) := by
    rw [Nat.or_assoc, Nat.or_assoc, Nat.or_assoc]
  rw [hvalue]
  exact entry_flags haligned hfits hflags hodd

/-- Whether user mode has access is decided by the flags. -/
theorem user_flag {page access readwrite : ℕ} (haligned : page % pageSize = 0) :
    (page ||| pagePresent ||| access ||| readwrite) &&& pageUser =
      (pagePresent ||| access ||| readwrite) &&& pageUser := by
  have hpage : page &&& pageUser = 0 := by
    rw [show pageUser = 2 ^ 2 from rfl, Nat.and_two_pow, Nat.testBit_eq_decide_div_mod_eq]
    have hbit : ¬ page / 2 ^ 2 % 2 = 1 := by
      simp only [pageSize] at haligned
      omega
    rw [decide_eq_false hbit]
    simp
  rw [Nat.or_assoc, Nat.or_assoc, Nat.and_or_distrib_right, hpage, Nat.zero_or, ← Nat.or_assoc]

/-! ## Reordering stores -/

theorem store32_comm (memory : Memory) {address other : ℕ} (value value' : ℕ)
    (hoff : address + 4 ≤ other ∨ other + 4 ≤ address) :
    store32 (store32 memory address value) other value' =
      store32 (store32 memory other value') address value := by
  funext x
  simp only [store32]
  split_ifs <;> first | rfl | omega

end Rhythmos.Paging
