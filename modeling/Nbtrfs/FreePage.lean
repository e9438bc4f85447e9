import Nbtrfs.Alloc

/-!
# The next free page

What the page allocator needs of the volume (`BitmapArea`), and the block that it hands out next
(`FirstFree`).
-/

namespace Nbtrfs

open BlockProg

theorem addressable_le (disk : DiskInterface) : disk.addressable ≤ 524288 := min_le_right _ _

/-- Block 0 and the blocks of the bitmap are taken, and the latter carry their type. -/
structure BitmapArea (disk : DiskInterface) (m : Image) : Prop where
  type : ∀ b, 1 ≤ b → b ≤ blockBitmapBlocks disk.totalBlocks.toNat →
    blockType (m b) = BlockType.bitmap.code
  bit : ∀ b ≤ blockBitmapBlocks disk.totalBlocks.toNat, blockBit m b = true

/-- Block `f` is the first free block, and its byte offset fits an `int`. -/
structure FirstFree (disk : DiskInterface) (m : Image) (f : ℕ) : Prop where
  lt : f < disk.addressable
  clear : blockBit m f = false
  below : ∀ b < f, blockBit m b = true

variable {disk : DiskInterface} {m m' : Image} {f b : ℕ}

namespace BitmapArea

theorem lt_of_clear (A : BitmapArea disk m) (h : blockBit m f = false) :
    blockBitmapBlocks disk.totalBlocks.toNat < f := by
  by_contra hle
  have hset := A.bit f (by omega)
  rw [h] at hset
  cases hset

/-- The bitmap block of an addressable block behind the bitmap. -/
theorem bitmapTo (A : BitmapArea disk m) (hlt : f < disk.addressable)
    (hbehind : blockBitmapBlocks disk.totalBlocks.toNat < f) :
    BitmapTo disk.mapping disk m (1 + f / 4092) := by
  have hle : disk.addressable ≤ disk.totalBlocks.toNat := min_le_left _ _
  have hblocks := le_blockBitmapBlocks disk.totalBlocks.toNat
  exact {
    volume := disk.volume_mapping
    addr := fun b hb => DiskInterface.mapping_exactTo.ofNat (by omega)
      ((addressable_le disk).trans (by omega))
    lt := by omega
    type := fun b h1 hb => A.type b h1 (by omega) }

/-- All bitmap blocks, where they can be addressed. -/
theorem bitmapTo_all (A : BitmapArea disk m)
    (h : blockBitmapBlocks disk.totalBlocks.toNat < disk.addressable) :
    BitmapTo disk.mapping disk m (blockBitmapBlocks disk.totalBlocks.toNat) where
  volume := disk.volume_mapping
  addr b hb := DiskInterface.mapping_exactTo.ofNat (by omega) ((addressable_le disk).trans (by omega))
  lt := h.trans_le (min_le_left _ _)
  type := A.type

/-- Pages behind the bitmap may change. -/
theorem congr (A : BitmapArea disk m) (hpos : 0 < disk.totalBlocks.toNat)
    (h : ∀ c ≤ blockBitmapBlocks disk.totalBlocks.toNat, m' c = m c) : BitmapArea disk m' where
  type b h1 hb := by rw [h b hb, A.type b h1 hb]
  bit b hb := by
    have hblocks := le_blockBitmapBlocks disk.totalBlocks.toNat
    rw [← A.bit b hb]
    exact areaBit_congr (h _ (by omega))

/-- The bits of blocks of the volume are kept with the bitmap. -/
theorem bit_congr (h : ∀ c ≤ blockBitmapBlocks disk.totalBlocks.toNat, m' c = m c)
    (hb : b < disk.totalBlocks.toNat) : blockBit m' b = blockBit m b := by
  have hblocks := le_blockBitmapBlocks disk.totalBlocks.toNat
  exact areaBit_congr (h _ (by omega))

theorem takeBlock (A : BitmapArea disk m) (f : ℕ) : BitmapArea disk (takeBlock m f) where
  type b h1 hb := by rw [blockType_takeBlock, A.type b h1 hb]
  bit b hb := by rw [blockBit_takeBlock, A.bit b hb, ite_self]

theorem dropBlock (A : BitmapArea disk m) (h : blockBitmapBlocks disk.totalBlocks.toNat < f) :
    BitmapArea disk (dropBlock m f) where
  type b h1 hb := by rw [blockType_dropBlock, A.type b h1 hb]
  bit b hb := by rw [blockBit_dropBlock, A.bit b hb, if_neg (by omega)]

end BitmapArea

/-- The allocator changes pages of the bitmap and block 0 only. -/
theorem takeBlock_of_behind (hf : f < disk.totalBlocks.toNat)
    (hb : blockBitmapBlocks disk.totalBlocks.toNat < b) : takeBlock m f b = m b := by
  have hblocks := le_blockBitmapBlocks disk.totalBlocks.toNat
  exact takeBlock_of_ne (by omega) (by omega)

theorem dropBlock_of_behind (hf : f < disk.totalBlocks.toNat)
    (hb : blockBitmapBlocks disk.totalBlocks.toNat < b) : dropBlock m f b = m b := by
  have hblocks := le_blockBitmapBlocks disk.totalBlocks.toNat
  exact dropBlock_of_ne (by omega) (by omega)

/-- One more block is taken behind the first `k`. -/
theorem prefix_succ {k : ℕ}
    (h : ∀ b < disk.totalBlocks.toNat, blockBit m b = decide (b < k))
    (h' : ∀ b < disk.totalBlocks.toNat, blockBit m' b = if b = k then true else blockBit m b) :
    ∀ b < disk.totalBlocks.toNat, blockBit m' b = decide (b < k + 1) := by
  intro b hb
  rw [h' b hb, h b hb]
  by_cases hbk : b = k
  · rw [if_pos hbk, decide_eq_true (by omega)]
  · rw [if_neg hbk]
    exact decide_eq_decide.mpr (by omega)

/-- Taking a block below `n` leaves one clear bit less below `n`. -/
theorem card_clear_set {n : ℕ} (hf : f < n) (hclear : blockBit m f = false)
    (hbits : ∀ b < n, blockBit m' b = if b = f then true else blockBit m b) :
    ((Finset.range n).filter fun b => blockBit m b = false).card =
      ((Finset.range n).filter fun b => blockBit m' b = false).card + 1 := by
  have herase : (Finset.range n).filter (fun b => blockBit m' b = false) =
      ((Finset.range n).filter fun b => blockBit m b = false).erase f := by
    ext b
    rw [Finset.mem_erase, Finset.mem_filter, Finset.mem_filter, Finset.mem_range]
    by_cases hb : b < n
    · rw [hbits b hb]
      by_cases hbf : b = f <;> simp [hbf]
    · simp [hb]
  have hmem : f ∈ (Finset.range n).filter fun b => blockBit m b = false :=
    Finset.mem_filter.mpr ⟨Finset.mem_range.mpr hf, hclear⟩
  rw [herase, Finset.card_erase_add_one hmem]

namespace FirstFree

theorem lt_total (H : FirstFree disk m f) : f < disk.totalBlocks.toNat :=
  H.lt.trans_le (min_le_left _ _)

theorem addr (H : FirstFree disk m f) : disk.mapping.addr (UInt64.ofNat f) = some f :=
  DiskInterface.mapping_exactTo.ofNat H.lt ((addressable_le disk).trans (by omega))

theorem run_allocPage (H : FirstFree disk m f) (A : BitmapArea disk m) :
    run disk.mapping (allocPage disk) m = some (UInt64.ofNat f, Nbtrfs.takeBlock m f) :=
  Nbtrfs.run_allocPage (A.bitmapTo H.lt (A.lt_of_clear H.clear)) H.lt_total H.clear H.below

theorem number_ne_zero (H : FirstFree disk m f) (A : BitmapArea disk m) :
    UInt64.ofNat f ≠ 0 := by
  have hbehind := A.lt_of_clear H.clear
  have hlt := H.lt
  have hwrap := addressable_le disk
  exact ofNat_block_ne_zero (by omega) (by omega)

/-- When exactly the first `k` blocks are taken, block `k` is the first free one. -/
theorem of_prefix {k : ℕ} (hk : k < disk.addressable)
    (h : ∀ b < disk.totalBlocks.toNat, blockBit m b = decide (b < k)) : FirstFree disk m k where
  lt := hk
  clear := by
    rw [h k (hk.trans_le (min_le_left _ _))]
    exact decide_eq_false (lt_irrefl k)
  below b hb := by
    rw [h b (hb.trans (hk.trans_le (min_le_left _ _)))]
    exact decide_eq_true hb

end FirstFree

/-- The number of free blocks whose byte offset fits an `int`. -/
def nearFree (disk : DiskInterface) (m : Image) : ℕ :=
  ((Finset.range disk.addressable).filter fun b => blockBit m b = false).card

/-- If any free block is within reach, there is a first one. -/
theorem exists_firstFree (h : 0 < nearFree disk m) : ∃ f, FirstFree disk m f := by
  have hnot : ¬∀ b < disk.addressable, blockBit m b = true := by
    intro hall
    rw [nearFree, Finset.card_pos] at h
    obtain ⟨b, hb⟩ := h
    rw [Finset.mem_filter, Finset.mem_range] at hb
    rw [hall b hb.1] at hb
    cases hb.2
  obtain ⟨f, hf, hclear, hset⟩ := exists_first_of_not hnot
  exact ⟨f, hf, by simpa using hclear, hset⟩

theorem FirstFree.nearFree_eq (H : FirstFree disk m f)
    (hbits : ∀ b < disk.totalBlocks.toNat, blockBit m' b = if b = f then true else blockBit m b) :
    nearFree disk m = nearFree disk m' + 1 :=
  card_clear_set H.lt H.clear fun b hb => hbits b (hb.trans_le (min_le_left _ _))

theorem FirstFree.nearFree_pos (H : FirstFree disk m f) : 0 < nearFree disk m :=
  Finset.card_pos.mpr ⟨f, Finset.mem_filter.mpr ⟨Finset.mem_range.mpr H.lt, H.clear⟩⟩

/-- When exactly the first `k` blocks are taken, the others within reach are free. -/
theorem nearFree_of_taken {k : ℕ} (h : ∀ b < disk.totalBlocks.toNat, blockBit m b = decide (b < k)) :
    nearFree disk m = disk.addressable - k := by
  have hfilter : (Finset.range disk.addressable).filter (fun b => blockBit m b = false) =
      Finset.Ico k disk.addressable := by
    ext b
    rw [Finset.mem_filter, Finset.mem_range, Finset.mem_Ico]
    constructor
    · rintro ⟨hb, hclear⟩
      rw [h b (hb.trans_le (min_le_left _ _)), decide_eq_false_iff_not] at hclear
      exact ⟨Nat.le_of_not_lt hclear, hb⟩
    · rintro ⟨hk, hb⟩
      rw [h b (hb.trans_le (min_le_left _ _))]
      exact ⟨hb, decide_eq_false (Nat.not_lt.mpr hk)⟩
  rw [nearFree, hfilter, Nat.card_Ico]

/-- The bitmap once its first free block was taken. -/
theorem BitmapArea.taken (A : BitmapArea disk m) (H : FirstFree disk m f)
    (hlow : ∀ c ≤ blockBitmapBlocks disk.totalBlocks.toNat, m' c = Nbtrfs.takeBlock m f c) :
    BitmapArea disk m' ∧
      ∀ b < disk.totalBlocks.toNat, blockBit m' b = if b = f then true else blockBit m b := by
  refine ⟨(A.takeBlock f).congr ((Nat.zero_le f).trans_lt H.lt_total) hlow, fun b hb => ?_⟩
  rw [BitmapArea.bit_congr hlow hb, blockBit_takeBlock]

/-- Where `alloc_page` hands out a block that can be reached, there was a free block within reach. -/
theorem exists_firstFree_of_alloc {block : UInt64}
    (hto : BitmapTo disk.mapping disk m (blockBitmapBlocks disk.totalBlocks.toNat))
    (hnear : disk.totalBlocks.toNat ≤ 1048576)
    (halloc : run disk.mapping (allocPage disk) m = some (block, m')) (hne : block ≠ 0)
    (hreach : disk.mapping.addr block = some b) : ∃ f, FirstFree disk m f := by
  rcases allocPage_cases hto with ⟨f, hf, hclear, hmin, hfirst⟩ | ⟨-, hnone⟩
  · obtain ⟨rfl, -⟩ := Prod.mk.inj (Option.some.inj (halloc.symm.trans hfirst))
    have hnat : (UInt64.ofNat f).toNat = f := toNat_ofNat_block (by omega)
    have hlt := DiskInterface.lt_of_diskGetBlock hreach (by omega)
    exact ⟨f, lt_min hf (by omega), hclear, hmin⟩
  · exact absurd (Prod.mk.inj (Option.some.inj (halloc.symm.trans hnone))).1 hne

/-- More blocks are marked as taken, in order. -/
theorem exists_prefix {k : ℕ} (h : ∀ b < disk.totalBlocks.toNat, blockBit m b = decide (b < k))
    {n : ℕ} (hn : k + n ≤ disk.totalBlocks.toNat) :
    ∃ m', (∀ b < disk.totalBlocks.toNat, blockBit m' b = decide (b < k + n)) ∧
      (∀ b, blockType (m' b) = blockType (m b)) ∧
      ∀ b, b = 0 ∨ blockBitmapBlocks disk.totalBlocks.toNat < b → m' b = m b := by
  induction n with
  | zero => exact ⟨m, h, fun _ => rfl, fun _ _ => rfl⟩
  | succ n ih =>
      obtain ⟨m', hbits, htype, hother⟩ := ih (by omega)
      have hblocks := le_blockBitmapBlocks disk.totalBlocks.toNat
      refine ⟨putBlockBit m' (k + n) true, prefix_succ hbits fun b _ => areaBit_putAreaBit ..,
        fun b => ?_, fun b hb => ?_⟩
      · rw [← htype b]
        exact blockType_putAreaBit ..
      · rw [← hother b hb]
        exact putAreaBit_of_ne (by omega)

/-- The volume with every block marked as taken. -/
theorem exists_full (disk : DiskInterface) (m : Image) :
    ∃ m', (∀ b < disk.totalBlocks.toNat, blockBit m' b = true) ∧
      (∀ b, blockType (m' b) = blockType (m b)) ∧
      ∀ b, b = 0 ∨ blockBitmapBlocks disk.totalBlocks.toNat < b → m' b = m b := by
  have hprefix : ∀ k ≤ disk.totalBlocks.toNat, ∃ m' : Image, (∀ b < k, blockBit m' b = true) ∧
      (∀ b, blockType (m' b) = blockType (m b)) ∧
      ∀ b, b = 0 ∨ blockBitmapBlocks disk.totalBlocks.toNat < b → m' b = m b := by
    intro k hk
    induction k with
    | zero => exact ⟨m, fun b hb => absurd hb (Nat.not_lt_zero b), fun _ => rfl, fun _ _ => rfl⟩
    | succ k ih =>
        obtain ⟨m', hbits, htype, hother⟩ := ih (by omega)
        refine ⟨putBlockBit m' k true, fun b hb => ?_, fun b => ?_, fun b hb => ?_⟩
        · show areaBit (putAreaBit m' 1 k true) 1 b = true
          rw [areaBit_putAreaBit]
          split
          · rfl
          next hne => exact hbits b (by omega)
        · rw [← htype b]
          exact blockType_putAreaBit ..
        · have hblocks := le_blockBitmapBlocks disk.totalBlocks.toNat
          rw [← hother b hb]
          exact putAreaBit_of_ne (by omega)
  exact hprefix _ le_rfl

end Nbtrfs
