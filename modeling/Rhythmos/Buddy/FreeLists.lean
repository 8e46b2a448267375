import Rhythmos.Buddy.Model
import Rhythmos.Library.Fallible
import Rhythmos.Library.LinkedChain

/-!
# The free lists of the buddy allocator

`Lists ma lists` says that the free lists of `ma`, followed through the links in
the managed memory, are the given lists of offsets.  The two list operations of
`buddy.c` are specified against it: insertion pushes a block in front of one
list, removal erases a block from one list, and both leave the `blocks` array
and every byte outside the link words of free blocks alone.
-/

namespace Rhythmos.Buddy

open ByteMemory LinkedChain Fallible

@[simp]
theorem check_of {condition : Prop} [Decidable condition] (h : condition) :
    check condition = .ok () := by
  simp [check, h]

/-- The free lists of an area as lists of offsets. -/
structure Lists (ma : MemArea) (lists : ℕ → List ℕ) : Prop where
  lower_eq : ma.lower = 8
  upper_ge : 8 ≤ ma.upper
  upper_le : ma.upper ≤ 30
  chain : ∀ m < 32, IsChain ma.link empty (ma.freelist m) (lists m)
  nodup : ∀ m, (lists m).Nodup
  dvd : ∀ m, ∀ block ∈ lists m, 256 ∣ block
  lt : ∀ m, ∀ block ∈ lists m, block < 2 ^ ma.upper
  separate : ∀ m m' block, block ∈ lists m → block ∈ lists m' → m = m'

/-- An area that differs from another one in free-list heads and links only. -/
structure SameShape (ma ma' : MemArea) : Prop where
  lower : ma'.lower = ma.lower
  upper : ma'.upper = ma.upper
  mem : ma'.mem = ma.mem
  blocks : ma'.blocks = ma.blocks

namespace Lists

variable {ma : MemArea} {lists : ℕ → List ℕ}

theorem dvd_size (hlists : Lists ma lists) : 256 ∣ 2 ^ ma.upper := by
  have h : (256 : ℕ) = 2 ^ 8 := by norm_num
  rw [h]
  exact pow_dvd_pow 2 hlists.upper_ge

theorem size_le (hlists : Lists ma lists) : 2 ^ ma.upper ≤ 2 ^ 30 :=
  Nat.pow_le_pow_right (by omega) hlists.upper_le

/-- A free block has room for its link. -/
theorem link_inside (hlists : Lists ma lists) {m block : ℕ} (hblock : block ∈ lists m) :
    block + 4 ≤ 2 ^ ma.upper := by
  have hdvd := hlists.dvd m block hblock
  have hlt := hlists.lt m block hblock
  have hsize := hlists.dvd_size
  omega

theorem ne_empty (hlists : Lists ma lists) {m block : ℕ} (hblock : block ∈ lists m) :
    block ≠ empty := by
  have hlt := hlists.lt m block hblock
  have hsize := hlists.size_le
  simp only [empty]
  omega

/-- Distinct free blocks of one order have distinct entries in `blocks`. -/
theorem length_le (hlists : Lists ma lists) (m : ℕ) :
    (lists m).length ≤ ma.nblocks := by
  have hcard : ((lists m).map fun block => block / 256).toFinset ⊆
      Finset.range ma.nblocks := by
    intro index hindex
    obtain ⟨block, hblock, rfl⟩ := by simpa using hindex
    have hlt := hlists.lt m block hblock
    have hsplit : 2 ^ ma.upper = 256 * ma.nblocks := by
      rw [MemArea.nblocks, hlists.lower_eq, show (256 : ℕ) = 2 ^ 8 by norm_num, ← pow_add]
      congr 1
      have := hlists.upper_ge
      omega
    rw [Finset.mem_range]
    omega
  have hnodup : ((lists m).map fun block => block / 256).Nodup := by
    refine (hlists.nodup m).map_on ?_
    intro left hleft right hright heq
    have := hlists.dvd m left hleft
    have := hlists.dvd m right hright
    omega
  have := Finset.card_le_card hcard
  rw [List.toFinset_card_of_nodup hnodup] at this
  simpa using this

end Lists

/-! ## Removal -/

/-- The slot that `remove_from_freelist` has reached after walking over `front`. -/
def lastSlot : Slot → List ℕ → Slot
  | slot, [] => slot
  | _, node :: front => lastSlot (.link node) front

@[simp]
theorem lastSlot_concat (slot : Slot) (front : List ℕ) (last : ℕ) :
    lastSlot slot (front ++ [last]) = .link last := by
  induction front generalizing slot with
  | nil => rfl
  | cons node front ih => exact ih _

/-- The walk stops at the slot that points to the block and makes it point to
the block's successor. -/
theorem removeLoop_eq {ma : MemArea} {block head fuel : ℕ} {slot : Slot}
    {front back : List ℕ} (hslot : getSlot ma slot = .ok head)
    (hchain : IsChain ma.link empty head (front ++ block :: back))
    (hfront : block ∉ front) (hroom : ∀ node ∈ front, node + 4 ≤ 2 ^ ma.upper)
    (hblock : block + 4 ≤ 2 ^ ma.upper) (hfuel : front.length < fuel) :
    removeLoop ma block fuel slot = setSlot ma (lastSlot slot front) (ma.link block) := by
  induction front generalizing slot head fuel with
  | nil =>
      obtain ⟨rfl, hstop, -⟩ := hchain
      cases fuel with
      | zero => exact absurd hfuel (Nat.not_lt_zero _)
      | succ fuel => simp [removeLoop, hslot, hstop, getLink, hblock, lastSlot]
  | cons node front ih =>
      obtain ⟨rfl, hstop, hrest⟩ := hchain
      have hne : head ≠ block := fun heq => hfront (by simp [heq])
      cases fuel with
      | zero => exact absurd hfuel (Nat.not_lt_zero _)
      | succ fuel =>
          have hnext : getSlot ma (.link head) = .ok (ma.link head) := by
            simp [getSlot, getLink, hroom head (by simp)]
          have hstep := ih hnext hrest (fun hmem => hfront (by simp [hmem]))
            (fun other hother => hroom other (by simp [hother]))
            (by simpa using hfuel)
          simpa [removeLoop, hslot, hstop, hne, lastSlot] using hstep

/-- The words in which free blocks keep their links. -/
def linkBytes (ma : MemArea) (lists : ℕ → List ℕ) : Set ℕ :=
  {address | ∃ m, ∃ block ∈ lists m,
    ma.mem + block ≤ address ∧ address < ma.mem + block + 4}

theorem link_store_same {ma : MemArea} {block value : ℕ} (hvalue : value < wordCount) :
    load32 (store32 ma.memory (ma.mem + block) value) (ma.mem + block) = value :=
  load32_store32_same _ _ hvalue

theorem link_store_off {ma : MemArea} {block other value : ℕ}
    (hblock : 256 ∣ block) (hother : 256 ∣ other) (hne : other ≠ block) :
    load32 (store32 ma.memory (ma.mem + block) value) (ma.mem + other) = ma.link other := by
  apply load32_store32_off
  omega

/-- Lists that differ in one order are free lists of an area that has the same
parameters and the right chains. -/
theorem Lists.update {ma ma' : MemArea} {lists : ℕ → List ℕ} (hlists : Lists ma lists)
    (hshape : SameShape ma ma') {m : ℕ} {nodes : List ℕ}
    (hchain : IsChain ma'.link empty (ma'.freelist m) nodes)
    (hother : ∀ m' < 32, m' ≠ m → IsChain ma'.link empty (ma'.freelist m') (lists m'))
    (hnodup : nodes.Nodup) (hdvd : ∀ block ∈ nodes, 256 ∣ block)
    (hlt : ∀ block ∈ nodes, block < 2 ^ ma.upper)
    (hseparate : ∀ m' block, block ∈ nodes → block ∈ lists m' → m' = m) :
    Lists ma' (Function.update lists m nodes) where
  lower_eq := hshape.lower.trans hlists.lower_eq
  upper_ge := hshape.upper ▸ hlists.upper_ge
  upper_le := hshape.upper ▸ hlists.upper_le
  chain := by
    intro m' hm'
    by_cases heq : m' = m
    · subst heq
      simpa using hchain
    · simpa [heq] using hother m' hm' heq
  nodup := by
    intro m'
    by_cases heq : m' = m
    · subst heq
      simpa using hnodup
    · simpa [heq] using hlists.nodup m'
  dvd := by
    intro m'
    by_cases heq : m' = m
    · subst heq
      simpa using hdvd
    · simpa [heq] using hlists.dvd m'
  lt := by
    intro m'
    rw [hshape.upper]
    by_cases heq : m' = m
    · subst heq
      simpa using hlt
    · simpa [heq] using hlists.lt m'
  separate := by
    intro left right block hleft hright
    by_cases hl : left = m <;> by_cases hr : right = m
    · exact hl.trans hr.symm
    · subst hl
      exact (hseparate right block (by simpa using hleft) (by simpa [hr] using hright)).symm
    · subst hr
      exact hseparate left block (by simpa using hright) (by simpa [hl] using hleft)
    · exact hlists.separate left right block (by simpa [hl] using hleft)
        (by simpa [hr] using hright)

/-- Removal erases the block from its list. -/
theorem removeFromFreelist_spec {ma : MemArea} {lists : ℕ → List ℕ}
    (hlists : Lists ma lists) {m block : ℕ} (hm : m < 32) (hblock : block ∈ lists m) :
    ∃ ma', removeFromFreelist ma m block = .ok ma' ∧ SameShape ma ma' ∧
      Lists ma' (Function.update lists m ((lists m).erase block)) ∧
      ∀ address, address ∉ linkBytes ma lists → ma'.memory address = ma.memory address := by
  obtain ⟨front, back, hsplit⟩ := List.append_of_mem hblock
  have hnodup := hlists.nodup m
  rw [hsplit] at hnodup
  have hfront : block ∉ front := by
    intro hmem
    exact (List.nodup_append.mp hnodup).2.2 block hmem block (by simp) rfl
  have herase : (lists m).erase block = front ++ back := by
    rw [hsplit, List.erase_append_right _ hfront, List.erase_cons_head]
  have hmem : ∀ node ∈ front ++ back, node ∈ lists m := by
    intro node hnode
    rw [hsplit]
    simp only [List.mem_append, List.mem_cons] at hnode ⊢
    tauto
  have hchain := hlists.chain m hm
  rw [hsplit] at hchain
  have hlength : front.length < ma.nblocks + 1 := by
    have := hlists.length_le m
    rw [hsplit, List.length_append] at this
    omega
  have hremove : removeFromFreelist ma m block =
      setSlot ma (lastSlot (.head m) front) (ma.link block) := by
    refine removeLoop_eq (by simp [getSlot, getFreelist, hm]) hchain hfront ?_
      (hlists.link_inside hblock) hlength
    intro node hnode
    exact hlists.link_inside (hmem node (by simp [hnode]))
  have hshrink : (front ++ back).Nodup := by
    rw [← herase]
    exact (hlists.nodup m).erase block
  rw [hremove, herase]
  rcases List.eq_nil_or_concat' front with rfl | ⟨front, last, rfl⟩
  · -- the block is the first of its list: the head moves to its successor
    obtain ⟨-, -, hback⟩ := hchain
    let ma' : MemArea :=
      { ma with freelist := Function.update ma.freelist m (ma.link block) }
    have hshape : SameShape ma ma' := ⟨rfl, rfl, rfl, rfl⟩
    have hlink : ma'.link = ma.link := rfl
    refine ⟨ma', by simp [lastSlot, setSlot, setFreelist, hm, ma'], hshape, ?_,
      fun _ _ => rfl⟩
    refine hlists.update hshape ?_ ?_ hshrink ?_ ?_ ?_
    · rw [hlink]
      simpa [ma'] using hback
    · intro m' hm' hne
      rw [hlink]
      simpa [ma', hne] using hlists.chain m' hm'
    · exact fun node hnode => hlists.dvd m node (hmem node hnode)
    · exact fun node hnode => hlists.lt m node (hmem node hnode)
    · exact fun m' node hnode hnode' => hlists.separate m' m node hnode' (hmem node hnode)
  · -- otherwise the link of the node before it changes
    have hlast : last ∈ lists m := hmem last (by simp)
    have hlastRoom := hlists.link_inside hlast
    let ma' : MemArea :=
      { ma with memory := store32 ma.memory (ma.mem + last) (ma.link block) }
    have hlink : ma'.link last = ma.link block := link_store_same (load32_lt _ _)
    have hlinkOff : ∀ m' node, node ∈ lists m' → node ≠ last →
        ma'.link node = ma.link node := by
      intro m' node hnode hne
      exact link_store_off (hlists.dvd m last hlast) (hlists.dvd m' node hnode) hne
    have hshape : SameShape ma ma' := ⟨rfl, rfl, rfl, rfl⟩
    refine ⟨ma', by simp [setSlot, setLink, hlastRoom, ma'], hshape, ?_, ?_⟩
    · refine hlists.update hshape ?_ ?_ hshrink ?_ ?_ ?_
      · have hchain' : IsChain ma.link empty (ma.freelist m)
            (front ++ last :: block :: back) := by simpa using hchain
        have hnodup' : (front ++ last :: block :: back).Nodup := by simpa using hnodup
        have hresult := isChain_unlink hchain' hnodup' hlink (by
          intro node hnode
          refine hlinkOff m node (by rw [hsplit]; simp at hnode ⊢; tauto) ?_
          rintro rfl
          have := List.nodup_middle.mp hnodup'
          exact (List.nodup_cons.mp this).1 hnode)
        simpa using hresult
      · intro m' hm' hne
        refine isChain_congr ?_ (hlists.chain m' hm')
        intro node hnode
        refine hlinkOff m' node hnode ?_
        rintro rfl
        exact hne (hlists.separate m' m node hnode hlast)
      · exact fun node hnode => hlists.dvd m node (hmem node hnode)
      · exact fun node hnode => hlists.lt m node (hmem node hnode)
      · exact fun m' node hnode hnode' => hlists.separate m' m node hnode' (hmem node hnode)
    · intro address haddress
      apply store32_off
      by_contra hin
      exact haddress ⟨m, last, hlast, by omega, by omega⟩

/-! ## Insertion -/

/-- Insertion pushes the block in front of its list. -/
theorem addToFreelist_spec {ma : MemArea} {lists : ℕ → List ℕ} (hlists : Lists ma lists)
    {m block : ℕ} (hm : m < 32) (hinside : block + 2 ^ m ≤ 2 ^ ma.upper)
    (hdvd : 256 ∣ block) (hnew : ∀ m', block ∉ lists m') :
    ∃ ma', addToFreelist ma m block = .ok ma' ∧ SameShape ma ma' ∧
      Lists ma' (Function.update lists m (block :: lists m)) ∧
      ∀ address, address < ma.mem + block ∨ ma.mem + block + 4 ≤ address →
        ma'.memory address = ma.memory address := by
  have hlt : block < 2 ^ ma.upper := by
    have hpos : 0 < 2 ^ m := by positivity
    omega
  have hroom : block + 4 ≤ 2 ^ ma.upper := by
    have := hlists.dvd_size
    omega
  have hheadLt : ma.freelist m < wordCount := by
    cases hnodes : lists m with
    | nil =>
        have hchain := hlists.chain m hm
        rw [hnodes, isChain_nil] at hchain
        simp [hchain, empty, wordCount]
    | cons node nodes =>
        have hchain := hlists.chain m hm
        rw [hnodes] at hchain
        have hnode : node < 2 ^ ma.upper := hlists.lt m node (by simp [hnodes])
        have := hlists.size_le
        rw [hchain.1]
        simp only [wordCount]
        omega
  let ma' : MemArea :=
    { ma with
      memory := store32 ma.memory (ma.mem + block) (ma.freelist m)
      freelist := Function.update ma.freelist m block }
  have hlinkOff : ∀ m' node, node ∈ lists m' → ma'.link node = ma.link node := by
    intro m' node hnode
    refine link_store_off hdvd (hlists.dvd m' node hnode) ?_
    rintro rfl
    exact hnew m' hnode
  have hshape : SameShape ma ma' := ⟨rfl, rfl, rfl, rfl⟩
  refine ⟨ma', ?_, hshape, ?_, ?_⟩
  · simp [addToFreelist, hinside, getFreelist, hm, setLink, hroom, setFreelist, ma']
  · refine hlists.update hshape ?_ ?_ ?_ ?_ ?_ ?_
    · have hempty : block ≠ empty := by
        have := hlists.size_le
        simp only [empty]
        omega
      have hhead : ma'.freelist m = block := by simp [ma']
      rw [hhead]
      exact isChain_push (hlists.chain m hm) hempty (link_store_same hheadLt) (hlinkOff m)
    · intro m' hm' hne
      have hhead : ma'.freelist m' = ma.freelist m' := by simp [ma', hne]
      rw [hhead]
      exact isChain_congr (hlinkOff m') (hlists.chain m' hm')
    · exact List.nodup_cons.mpr ⟨hnew m, hlists.nodup m⟩
    · intro node hnode
      rcases List.mem_cons.mp hnode with rfl | hnode
      · exact hdvd
      · exact hlists.dvd m node hnode
    · intro node hnode
      rcases List.mem_cons.mp hnode with rfl | hnode
      · exact hlt
      · exact hlists.lt m node hnode
    · intro m' node hnode hnode'
      rcases List.mem_cons.mp hnode with rfl | hnode
      · exact absurd hnode' (hnew m')
      · exact hlists.separate m' m node hnode' hnode
  · intro address haddress
    exact store32_off _ _ _ haddress

end Rhythmos.Buddy
