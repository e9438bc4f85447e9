import Nbtrfs.AllocRuns
import Nbtrfs.Format

/-!
# The free-block counter

`disk_format` stores a copy of the superblock that it read before its allocations, so right after it
the counter is the size of the volume although blocks are taken. `free_page` decrements the counter
like `alloc_page` does. The counter therefore disagrees with the bitmap after every formatting, and
from then on it drifts by two with every freed page.
-/

namespace Nbtrfs

open BlockProg Bytes

variable {M : Mapping} {disk : DiskInterface} {m : Image}

/-! ## What `inode_allocate` leaves alone -/

theorem ensures_superblockCopy : Ensures M superblockCopy m fun _ m' => m' = m := by
  refine ensures_bind ?_
  rw [superblockRead]
  refine ensures_fetch_bind (ensures_page_bind fun b _ => ?_)
  split
  · exact ensures_pure ensures_crash
  · exact ensures_pure (ensures_pure rfl)

theorem ensures_inodeRead (n : UInt64) : Ensures M (inodeRead n) m fun _ m' => m' = m := by
  refine ensures_bind (ensures_superblockCopy.mono ?_)
  rintro sb m' rfl
  refine ensures_fetch_bind (ensures_page_bind fun b _ => ?_)
  split
  · exact ensures_pure rfl
  · exact ensures_pure rfl

/-- `inode_write` changes an inode table block only. -/
theorem ensures_inodeWrite (node : Inode) : Ensures M (inodeWrite node) m fun _ m' =>
    ∀ c, blockType (m c) ≠ BlockType.inode.code → m' c = m c := by
  refine ensures_bind (ensures_superblockCopy.mono ?_)
  rintro sb m' rfl
  refine ensures_fetch_bind (ensures_page_bind fun b hb => ?_)
  split
  · exact ensures_pure fun _ _ => rfl
  · next htype =>
    split
    · exact ensures_crash
    · refine ensures_bind (ensures_modify fun b' hb' => ensures_writeBack_bind
        (ensures_pure fun c hc => Function.update_of_ne ?_ _ _))
      obtain rfl : b = b' := Option.some.inj (hb.symm.trans hb')
      rintro rfl
      exact htype hc

/-- Claiming an inode changes pages of the inode table only. -/
theorem ensures_inodeClaim (uid gid mode : UInt32) (ii : UInt64) (ibmn : ℤ) :
    Ensures M (inodeClaim uid gid mode ii ibmn) m fun _ m' =>
      ∀ c, blockType (m c) ≠ BlockType.inode.code → m' c = m c := by
  refine ensures_bind ((ensures_inodeRead ii).mono ?_)
  rintro node m' rfl
  cases node with
  | none => exact ensures_pure fun _ _ => rfl
  | some node =>
      refine ensures_bind ((ensures_inodeWrite _).mono fun rv m₁ hpages => ?_)
      split
      · exact ensures_pure hpages
      · exact ensures_writeBack_bind (ensures_pure hpages)

theorem ensures_bitmapGet (bm : UInt64) (ii : ℤ) :
    Ensures M (bitmapGet bm ii) m fun _ m' => m' = m ∧ ∃ b, M.addr bm = some b := by
  refine ensures_page_bind fun b hb => ?_
  split
  · exact ensures_pure ⟨rfl, b, hb⟩
  · exact ensures_peek_bind fun a _ => ensures_pure ⟨rfl, b, hb⟩

/-- Inside the block `bitmap_put` keeps the other pages and all types. -/
theorem ensures_bitmapPut (V : Volume M disk) {bm : UInt64} {i : ℕ} (hi : i < 32704) (vv : ℤ) :
    Ensures M (bitmapPut bm i vv) m fun _ m' =>
      ∀ b, M.addr bm = some b → (∀ c ≠ b, m' c = m c) ∧
        ∀ c, blockType (m' c) = blockType (m c) := by
  refine ensures_page_bind fun b hb => ?_
  split
  · exact ensures_pure fun _ _ => ⟨fun _ _ => rfl, fun _ => rfl⟩
  · refine ensures_peek_bind fun a _ => ensures_bind (ensures_poke fun a' ha' => ?_)
    obtain ⟨b', hb', haddr⟩ := Mapping.wordAddr_eq_some ha'
    have hoff : a' = M.blockSize * b' + (4 + 8 * (i / 64)) := by
      rw [Int.tdiv_eq_ediv_of_nonneg (by omega)] at haddr
      omega
    rw [hoff, Mapping.storeFlat_page _ (by rw [V.blockSize_eq, blockSize]; omega)]
    refine ensures_pure fun b'' hb'' => ?_
    obtain rfl : b' = b'' := Option.some.inj (hb'.symm.trans hb'')
    refine ⟨fun c hc => Function.update_of_ne hc _ _, fun c => ?_⟩
    by_cases hc : c = b'
    · subst hc
      rw [Function.update_self]
      exact blockType_congr fun o ho => store64_apply_ne (by omega)
    · rw [Function.update_of_ne hc]

/-- The scan of the inode bitmap changes bitmap blocks from its start on, and an inode table
block. -/
theorem ensures_inodeScan {sb : Superblock} {uid gid mode : UInt32} {start : ℕ}
    (hsb : sb.inodeBitmap = UInt64.ofNat start) {n ii : ℕ}
    (hlt : start + (ii - 1) / 4092 < 1048576) :
    Ensures disk.mapping (inodeScan sb uid gid mode n (UInt64.ofNat ii)
      ((start + (ii - 1) / 4092 : ℕ) : ℤ)) m fun _ m' =>
        ∀ c < start, blockType (m c) ≠ BlockType.inode.code → m' c = m c := by
  induction n generalizing ii with
  | zero => exact ensures_crash
  | succ n ih =>
      have hnat : ∀ k, k < 1048576 → (UInt64.ofNat k).toNat = k := fun k hk =>
        toNat_ofNat_block (by omega)
      rw [inodeScan, ofInt_natCast]
      refine ensures_page_bind fun b hb => ?_
      -- a scan that left the addressable blocks would have crashed
      have hwrap := DiskInterface.lt_of_diskGetBlock hb (by rwa [hnat _ hlt])
      rw [hnat _ hlt] at hwrap
      split
      · exact ensures_pure fun _ _ _ => rfl
      · refine ensures_bind (ensures_of_run (run_nextInodeBitmap (by omega)) ?_)
        rw [inodeBitIndex_eq hsb ii (by omega), ofInt_natCast]
        refine ensures_bind ((ensures_bitmapGet _ _).mono ?_)
        rintro bit m' ⟨rfl, b', hb'⟩
        have hb'eq := DiskInterface.eq_of_diskGetBlock hb' (by rw [hnat _ (by omega)]; omega)
        rw [hnat _ (by omega)] at hb'eq
        split
        · refine ensures_bind ((ensures_bitmapPut disk.volume_mapping (by omega) 1).mono
            fun rv m₁ hput => ?_)
          obtain ⟨hpages, htypes⟩ := hput b' hb'
          split
          · exact ensures_pure fun c hc _ => hpages c (by omega)
          · refine (ensures_inodeClaim _ _ _ _ _).mono fun r m₂ hclaim c hc htype => ?_
            rw [hclaim c (by rwa [htypes]), hpages c (by omega)]
        · have hrec := @ih (ii + 1) (by rw [Nat.add_sub_cancel]; omega)
          rwa [Nat.add_sub_cancel, UInt64.ofNat_add] at hrec

/-- `inode_allocate` leaves the superblock and the block bitmap alone. -/
theorem Described.ensures_inodeAllocate (D : Described disk.mapping disk m) {uid gid mode : UInt32}
    (hstart : inodeBitmapStart disk.totalBlocks.toNat < 1048576) :
    Ensures disk.mapping (inodeAllocate disk uid gid mode) m fun _ m' =>
      ∀ c < inodeBitmapStart disk.totalBlocks.toNat,
        blockType (m c) ≠ BlockType.inode.code → m' c = m c := by
  rw [inodeAllocate]
  refine ensures_bind (ensures_of_run D.run_superblockCopy (ensures_fetch_bind ?_))
  rw [D.inodeBitmap, toNat_ofNat_block (by omega), int32_of_lt (by omega)]
  exact @ensures_inodeScan _ _ _ _ _ _ _ D.inodeBitmap _ 0 (by omega)

/-! ## What `disk_format` leaves behind -/

/-- One allocation extends the run of set bits at the start of the bitmap. -/
theorem Layout.ensures_allocPage (L : Layout M disk m) {k : ℕ}
    (hset : ∀ b < k, blockBit m b = true) :
    Ensures M (allocPage disk) m fun page m' => Layout M disk m' ∧
      (page ≠ 0 → ∀ b < k + 1, blockBit m' b = true) := by
  rcases allocPage_cases L.bitmapTo with ⟨f, hf, hclear, hmin, hrun⟩ | ⟨-, hrun⟩
  · refine ensures_of_run hrun ⟨L.takeBlock f, fun _ b hb => ?_⟩
    have hkf : k ≤ f := by
      by_contra hlt
      rw [hset f (by omega)] at hclear
      cases hclear
    rw [blockBit_takeBlock]
    by_cases hbf : b = f
    · rw [if_pos hbf]
    · rw [if_neg hbf]
      exact hmin b (by omega)
  · exact ensures_of_run hrun ⟨L, fun h => absurd rfl h⟩

/-- Each of the allocations takes the first free block, so afterwards the blocks up to there are
taken. -/
theorem Layout.ensures_allocPages (L : Layout M disk m) {k n : ℕ}
    (hset : ∀ b < k, blockBit m b = true) :
    Ensures M (allocPages disk n) m fun done m' => Layout M disk m' ∧
      (done = true → ∀ b < k + n, blockBit m' b = true) := by
  induction n generalizing k m with
  | zero => exact ensures_pure ⟨L, fun _ => hset⟩
  | succ n ih =>
      refine ensures_bind ((L.ensures_allocPage hset).mono fun page m' ⟨L', hset'⟩ => ?_)
      split
      · exact ensures_pure ⟨L', fun h => absurd h (by decide)⟩
      · next hne =>
        refine (ih L' (hset' hne)).mono fun done m'' ⟨L'', hset''⟩ => ⟨L'', fun h b hb => ?_⟩
        exact hset'' h b (by omega)

/-- The root block comes after `k` taken blocks, and creating its node changes the block that its
number addresses. -/
theorem Layout.ensures_btreeNodeCreate (L : Layout M disk m) {k : ℕ} (leaf : Bool)
    (hset : ∀ b < k, blockBit m b = true) :
    Ensures M (btreeNodeCreate disk leaf) m fun root m' => root ≠ 0 →
      ∃ f m₁ a, k ≤ f ∧ f < disk.totalBlocks.toNat ∧ root = UInt64.ofNat f ∧
        M.addr root = some a ∧ Layout M disk m₁ ∧ (∀ b ≤ f, blockBit m₁ b = true) ∧
        blockType (m' a) = BlockType.btreeNode.code ∧ ∀ c ≠ a, m' c = m₁ c := by
  rcases allocPage_cases L.bitmapTo with ⟨f, hf, hclear, hmin, hrun⟩ | ⟨-, hrun⟩
  · refine ensures_bind (ensures_of_run hrun ?_)
    split
    · next h0 => exact ensures_pure fun hne => absurd rfl hne
    · refine ensures_fetch_bind (ensures_bind (ensures_modify fun a ha => ensures_bind
        (ensures_modify fun a' ha' => ensures_writeBack_bind (ensures_pure fun _ =>
          ⟨f, Nbtrfs.takeBlock m f, a, ?_, hf, rfl, ha, L.takeBlock f, fun b hb => ?_, ?_,
            fun c hc => ?_⟩))))
      · by_contra hlt
        rw [hset f (by omega)] at hclear
        cases hclear
      · rw [blockBit_takeBlock]
        by_cases hbf : b = f
        · rw [if_pos hbf]
        · rw [if_neg hbf]
          exact hmin b (by omega)
      · obtain rfl : a = a' := Option.some.inj (ha.symm.trans ha')
        rw [Function.update_self, BTreeNode.blockType_toPage, Function.update_self,
          blockType_setBlockType]
      · obtain rfl : a = a' := Option.some.inj (ha.symm.trans ha')
        rw [Function.update_of_ne hc, Function.update_of_ne hc]
  · refine ensures_bind (ensures_of_run hrun ?_)
    rw [if_pos rfl]
    exact ensures_pure fun hne => absurd rfl hne

/-- Formatting ends with the counter of the superblock it read at the start, and with a block that is
taken. -/
theorem Layout.ensures_formatAllocate (L : Layout disk.mapping disk m)
    (hfit : dataStart disk.totalBlocks.toNat ≤ disk.addressable) (uid gid : UInt32)
    (sb : Superblock) :
    Ensures disk.mapping (formatAllocate disk uid gid sb (dataStart disk.totalBlocks.toNat)) m
      fun rv m' => rv = 0 → (Superblock.ofPage (m' 0)).freeBlocks = sb.freeBlocks ∧
        ∃ b < disk.totalBlocks.toNat, blockBit m' b = true := by
  have hwrap : disk.addressable ≤ 524288 := min_le_right _ _
  have hpos := dataStart_pos disk.totalBlocks.toNat
  have hstart := inodeBitmapStart_le disk.totalBlocks.toNat
  have hend := inodeTableStart_le disk.totalBlocks.toNat
  have hblocks := le_blockBitmapBlocks disk.totalBlocks.toNat
  have hinodes := le_inodeBitmapBlocks disk.totalBlocks.toNat
  have htotal := L.le_total
  have hbitmapEnd : 1 + blockBitmapBlocks disk.totalBlocks.toNat =
    inodeBitmapStart disk.totalBlocks.toNat := rfl
  have hthree : 2 < dataStart disk.totalBlocks.toNat := by
    rw [dataStart, inodeTableStart, inodeBitmapStart]
    omega
  refine ensures_bind ((L.ensures_allocPage (k := 0) fun b hb => by omega).mono ?_)
  rintro _ m₁ ⟨L₁, -⟩
  refine ensures_bind ((L₁.ensures_allocPages (k := 0) fun b hb => by omega).mono ?_)
  rintro done m₂ ⟨L₂, hset₂⟩
  split
  · exact ensures_pure fun h => absurd h (by decide)
  · next hdone =>
    have hset₂ := hset₂ (by simpa using hdone)
    refine ensures_bind ((L₂.ensures_btreeNodeCreate false hset₂).mono fun root m₃ hroot => ?_)
    by_cases hzero : root = 0
    · simp only [if_pos hzero]
      exact ensures_bind fun _ _ _ => ensures_crash
    obtain ⟨f, m', a, hf, hfT, rfl, ha, L', hset', htype, hpages⟩ := hroot hzero
    simp only [if_neg hzero]
    by_cases ha0 : a = 0
    · -- the root block wrapped around to block 0: the next superblock read fails
      refine ensures_bind (ensures_of_none ?_)
      apply run_bind_of_none
      rw [superblockCopy, run_bind_of_eq (run_superblockRead_of_ne L'.addr_zero (by
        rw [← ha0, htype]
        decide))]
      rfl
    have h0 : m₃ 0 = m' 0 := hpages 0 (Ne.symm ha0)
    have D : Described disk.mapping disk m₃ :=
      L'.toDescribed.congr (by rw [h0]) (by rw [h0]) (by rw [h0])
    refine ensures_bind ((D.ensures_inodeAllocate (by omega)).mono fun value m₄ hlow => ?_)
    have h0₄ : m₄ 0 = m' 0 := by
      rw [hlow 0 (by omega) (by rw [D.super]; decide), h0]
    obtain ⟨m₅, hrun₅, -, hpages₅⟩ := exists_run_editNode (m := m₄)
      (fun node => { node with value := UInt64.ofInt value }) ha
    have h0₅ : m₅ 0 = m' 0 := (hpages₅ 0 (Ne.symm ha0)).trans h0₄
    obtain ⟨m₆, hrun₆, hsuper₆, hpages₆⟩ := exists_run_superblockWrite (m := m₅)
      { sb with btreeRoot := UInt64.ofNat f } L'.addr_zero (by rw [h0₅, L'.super])
    refine ensures_bind (ensures_of_run hrun₅ (ensures_bind (ensures_of_run hrun₆
      (ensures_pure fun _ => ⟨?_, ?_⟩))))
    · rw [hsuper₆, Superblock.ofPage_toPage]
    · -- a taken block whose bitmap block is not the root block
      have hkeep : ∀ b, b ≤ f → 1 + b / 4092 ≠ a → blockBit m₆ b = true := fun b hb hne => by
        have hmem : 1 + b / 4092 < inodeBitmapStart disk.totalBlocks.toNat := by omega
        have htypeB := L'.bitmap (1 + b / 4092) (by omega) (by omega)
        rw [← hset' b hb]
        refine areaBit_congr ?_
        rw [hpages₆ _ (by omega), hpages₅ _ hne, hlow _ hmem, hpages _ hne]
        rw [hpages _ hne, htypeB]
        decide
      by_cases ha1 : a = 1
      · have hfar : 4092 ≤ f := by
          by_contra hlt
          have hnat : (UInt64.ofNat f).toNat = f := toNat_ofNat_block (by omega)
          have hfa := DiskInterface.eq_of_diskGetBlock ha (by omega)
          omega
        exact ⟨4092, by omega, hkeep 4092 hfar (by omega)⟩
      · exact ⟨0, by omega, hkeep 0 (by omega) (by omega)⟩

/-- Right after a successful `disk_format` the counter is the size of the volume, and some block is
taken. -/
theorem ensures_diskFormat {now : UInt64} {uid gid : UInt32} {volumeName : List UInt8}
    (hname : volumeName.length ≤ 31) :
    Ensures disk.mapping (diskFormat disk now uid gid volumeName) m fun rv m' => rv = 0 →
      (Superblock.ofPage (m' 0)).freeBlocks = disk.totalBlocks ∧
        ∃ b < disk.totalBlocks.toNat, blockBit m' b = true := by
  by_cases hfit : dataStart disk.totalBlocks.toNat ≤ disk.addressable
  · obtain ⟨pg, hrun, L, hfree⟩ := run_diskFormat (m := m) disk.volume_mapping
      (DiskInterface.mapping_exactTo.mono hfit) (hfit.trans (min_le_left _ _)) now uid gid hname
    intro rv m' hrun' hrv
    rw [hrun] at hrun'
    have h := L.ensures_formatAllocate hfit uid gid _ rv m' hrun' hrv
    rwa [hfree] at h
  · exact ensures_of_none (run_diskFormat_unreachable hname (by omega))

/-! ## The counter and the bitmap -/

/-- The number of clear bits among the first `total_blocks` bits of the block bitmap. -/
def clearBlocks (disk : DiskInterface) (m : Image) : ℕ :=
  ((Finset.range disk.totalBlocks.toNat).filter fun b => blockBit m b = false).card

/-- The `free_blocks` field counts the clear bits. -/
def CountExact (disk : DiskInterface) (m : Image) : Prop :=
  (Superblock.ofPage (m 0)).freeBlocks.toNat = clearBlocks disk m

theorem clearBlocks_le (disk : DiskInterface) (m : Image) :
    clearBlocks disk m ≤ disk.totalBlocks.toNat := by
  have h := Finset.card_filter_le (Finset.range disk.totalBlocks.toNat)
    fun b => blockBit m b = false
  rwa [Finset.card_range] at h

theorem clearBlocks_lt {b : ℕ} (hb : b < disk.totalBlocks.toNat) (hset : blockBit m b = true) :
    clearBlocks disk m < disk.totalBlocks.toNat := by
  have h := Finset.card_lt_card (s := (Finset.range disk.totalBlocks.toNat).filter
    fun b => blockBit m b = false) (Finset.filter_ssubset.mpr
      ⟨b, Finset.mem_range.mpr hb, by simp [hset]⟩)
  rwa [Finset.card_range] at h

/-- Flipping one bit of the volume changes the number of clear bits by one. -/
theorem clearBlocks_set {m₁ : Image} {f : ℕ} (hf : f < disk.totalBlocks.toNat)
    (hclear : blockBit m f = false)
    (hbits : ∀ b, blockBit m₁ b = if b = f then true else blockBit m b) :
    clearBlocks disk m = clearBlocks disk m₁ + 1 :=
  card_clear_set hf hclear fun b _ => hbits b

/-! ## Drift -/

/-- How far the counter is ahead of the number of clear bits. -/
def drift (disk : DiskInterface) (m : Image) : ℤ :=
  (Superblock.ofPage (m 0)).freeBlocks.toNat - clearBlocks disk m

/-- The call is `free_page`. -/
def PageOp.isFree : PageOp → Bool
  | alloc => false
  | free _ => true

theorem toNat_sub_one_modEq (x : UInt64) : ((x - 1).toNat : ℤ) ≡ x.toNat - 1 [ZMOD 2 ^ 64] := by
  have hsub : x - 1 = UInt64.ofInt ((x.toNat : ℤ) - 1) := by
    rw [Int.sub_eq_add_neg, UInt64.ofInt_add, UInt64.ofInt_neg, ofInt_natCast x.toNat,
      UInt64.ofNat_toNat, UInt64.sub_eq_add_neg]
    rfl
  rw [hsub, UInt64.ofInt, UInt64.toNat_ofNat']
  rw [Int.ModEq]
  omega

/-- Allocating a block takes one from the counter and one from the clear bits. -/
theorem drift_takeBlock {f : ℕ} (hsuper : blockType (m 0) = BlockType.super.code)
    (hf : f < disk.totalBlocks.toNat) (hclear : blockBit m f = false) :
    drift disk (takeBlock m f) ≡ drift disk m [ZMOD 2 ^ 64] := by
  have hcount := clearBlocks_set hf hclear (blockBit_takeBlock m f)
  have hdec := toNat_sub_one_modEq (Superblock.ofPage (m 0)).freeBlocks
  rw [drift, drift, superblock_takeBlock hsuper, hcount]
  simp only [Int.ModEq] at hdec ⊢
  omega

/-- Freeing a block takes one from the counter and adds one to the clear bits. -/
theorem drift_dropBlock {b : ℕ} (hsuper : blockType (m 0) = BlockType.super.code)
    (hb : b < disk.totalBlocks.toNat) (hset : blockBit m b = true) :
    drift disk (dropBlock m b) ≡ drift disk m - 2 [ZMOD 2 ^ 64] := by
  have hcount : clearBlocks disk (dropBlock m b) = clearBlocks disk m + 1 := clearBlocks_set hb
    (by rw [blockBit_dropBlock, if_pos rfl]) fun c => by
      by_cases hc : c = b
      · rw [if_pos hc, hc, hset]
      · rw [if_neg hc, blockBit_dropBlock, if_neg hc]
  have hdec := toNat_sub_one_modEq (Superblock.ofPage (m 0)).freeBlocks
  rw [drift, drift, superblock_dropBlock hsuper, hcount]
  simp only [Int.ModEq] at hdec ⊢
  omega

/-- The held pages are marked. -/
structure CountInv (disk : DiskInterface) (s : PageState) : Prop where
  layout : Layout disk.mapping disk s.image
  held_lt : ∀ b ∈ s.held, b < disk.totalBlocks.toNat
  held_set : ∀ b ∈ s.held, blockBit s.image b = true

variable {s s' : PageState}

/-- `alloc_page` keeps the drift. -/
theorem CountInv.step_alloc (h : CountInv disk s) (hstep : PageOp.alloc.step disk s = some s') :
    CountInv disk s' ∧ drift disk s'.image ≡ drift disk s.image [ZMOD 2 ^ 64] := by
  obtain ⟨⟨page, m'⟩, hrun, rfl⟩ := Option.map_eq_some_iff.mp hstep
  rcases allocPage_cases h.layout.bitmapTo with ⟨f, hf, hclear, -, hrun'⟩ | ⟨-, hrun'⟩
  · rw [hrun'] at hrun
    obtain ⟨rfl, rfl⟩ := Prod.mk.inj (Option.some.inj hrun)
    have htotal := total_lt disk
    have hheld : ∀ b ∈ (if UInt64.ofNat f = 0 then s.held else insert (UInt64.ofNat f).toNat s.held),
        b = f ∨ b ∈ s.held := fun b hb => by
      split at hb
      · exact Or.inr hb
      · rwa [toNat_ofNat_block (by omega), Finset.mem_insert] at hb
    refine ⟨⟨h.layout.takeBlock f, fun b hb => ?_, fun b hb => ?_⟩,
      drift_takeBlock h.layout.super hf hclear⟩
    · rcases hheld b hb with rfl | hb
      · exact hf
      · exact h.held_lt b hb
    · rw [blockBit_takeBlock]
      rcases hheld b hb with rfl | hb
      · rw [if_pos rfl]
      · rw [h.held_set b hb, ite_self]
  · rw [hrun'] at hrun
    obtain ⟨rfl, rfl⟩ := Prod.mk.inj (Option.some.inj hrun)
    exact ⟨h, Int.ModEq.refl _⟩

/-- `free_page` takes two from the drift. -/
theorem CountInv.step_free (h : CountInv disk s) {page : UInt64} (hheld : page.toNat ∈ s.held)
    (hstep : (PageOp.free page).step disk s = some s') :
    CountInv disk s' ∧ drift disk s'.image ≡ drift disk s.image - 2 [ZMOD 2 ^ 64] := by
  have hlt := h.held_lt _ hheld
  have hblocks := le_blockBitmapBlocks disk.totalBlocks.toNat
  have hrun := run_freePage (hlt.trans h.layout.total_lt_int) (h.layout.bitmapTo.mono (by omega))
  rw [PageOp.step, hrun] at hstep
  obtain rfl := Option.some.inj hstep
  refine ⟨⟨h.layout.dropBlock _, fun b hb => h.held_lt b (Finset.mem_of_mem_erase hb),
    fun b hb => ?_⟩, drift_dropBlock h.layout.super hlt (h.held_set _ hheld)⟩
  obtain ⟨hne, hb⟩ := Finset.mem_erase.mp hb
  show blockBit (dropBlock s.image page.toNat) b = true
  rw [blockBit_dropBlock, if_neg hne]
  exact h.held_set b hb

/-- Over a run the drift decreases by two with every freed page. -/
theorem CountInv.drift_run (h : CountInv disk s) {ops : List PageOp}
    (hvalid : Admits (PageOp.step disk) PageOp.Valid ops s)
    (hrun : runAll (PageOp.step disk) ops s = some s') :
    drift disk s'.image ≡ drift disk s.image - 2 * ops.countP PageOp.isFree [ZMOD 2 ^ 64] := by
  induction ops generalizing s with
  | nil =>
      obtain rfl := Option.some.inj hrun
      simp [Int.ModEq]
  | cons op ops ih =>
      obtain ⟨hval, hrest⟩ := hvalid
      rw [runAll] at hrun
      obtain ⟨s₁, hs₁, hrest'⟩ := Option.bind_eq_some_iff.mp hrun
      cases op with
      | alloc =>
          obtain ⟨h₁, hdrift⟩ := h.step_alloc hs₁
          have hcount : (PageOp.alloc :: ops).countP PageOp.isFree = ops.countP PageOp.isFree :=
            List.countP_cons_of_neg (by decide)
          rw [hcount]
          exact (ih h₁ (hrest s₁ hs₁) hrest').trans (hdrift.sub_right _)
      | free page =>
          obtain ⟨h₁, hdrift⟩ := h.step_free hval hs₁
          have hcount : (PageOp.free page :: ops).countP PageOp.isFree =
              ops.countP PageOp.isFree + 1 := List.countP_cons_of_pos rfl
          have hrec := (ih h₁ (hrest s₁ hs₁) hrest').trans (hdrift.sub_right _)
          rw [hcount]
          simp only [Int.ModEq] at hrec ⊢
          push_cast
          omega

/-- On a freshly formatted volume the counter is ahead of the bitmap by the blocks that formatting
took. -/
theorem Fresh.drift {uid gid : UInt32} (h : Fresh disk uid gid m) :
    drift disk m = dataStart disk.totalBlocks.toNat + 1 := by
  have htotalLe : disk.addressable ≤ disk.totalBlocks.toNat := min_le_left _ _
  have hfits := h.fits
  have hclear : (Finset.range disk.totalBlocks.toNat).filter (fun b => Nbtrfs.blockBit m b = false) =
      Finset.Ico (dataStart disk.totalBlocks.toNat + 1) disk.totalBlocks.toNat := by
    ext b
    rw [Finset.mem_filter, Finset.mem_range, Finset.mem_Ico]
    constructor
    · rintro ⟨hb, hbit⟩
      rw [h.blockBit b (hb.trans_le (le_blockBitmapBlocks _)), decide_eq_false_iff_not] at hbit
      omega
    · rintro ⟨hlo, hb⟩
      refine ⟨hb, ?_⟩
      rw [h.blockBit b (hb.trans_le (le_blockBitmapBlocks _)), decide_eq_false_iff_not]
      omega
  rw [Nbtrfs.drift, h.freeBlocks, clearBlocks, hclear, Nat.card_Ico]
  omega

/-- After a run from a freshly formatted volume the counter is exact if and only if the number of
freed pages happens to be half of the number of blocks that formatting took. -/
theorem Fresh.countExact_iff {uid gid : UInt32} (h : Fresh disk uid gid m) {ops : List PageOp}
    (hvalid : Admits (PageOp.step disk) PageOp.Valid ops ⟨m, ∅⟩)
    (hrun : runAll (PageOp.step disk) ops ⟨m, ∅⟩ = some s) :
    CountExact disk s.image ↔
      2 * ops.countP PageOp.isFree ≡ dataStart disk.totalBlocks.toNat + 1 [MOD 2 ^ 64] := by
  have hinv : CountInv disk ⟨m, ∅⟩ :=
    ⟨h.layout, fun b hb => absurd hb (Finset.notMem_empty b),
      fun b hb => absurd hb (Finset.notMem_empty b)⟩
  have hdrift := hinv.drift_run hvalid hrun
  rw [h.drift] at hdrift
  have hfree : (Superblock.ofPage (s.image 0)).freeBlocks.toNat < 2 ^ 64 := UInt64.toNat_lt _
  have hclear := clearBlocks_le disk s.image
  have htotal := total_lt disk
  rw [CountExact]
  rw [Nbtrfs.drift] at hdrift
  simp only [Int.ModEq, Nat.ModEq] at hdrift ⊢
  omega

/-! ## Runs after a format -/

/-- Whatever the image was, after `disk_format` the counter is not exact, so no run that starts there
keeps it exact throughout. -/
theorem not_countExact_run {disk : DiskInterface} {m m₀ : Image} {now : UInt64} {uid gid : UInt32}
    {volumeName : List UInt8} (hname : volumeName.length ≤ 31)
    (hformat : run disk.mapping (diskFormat disk now uid gid volumeName) m = some (0, m₀))
    (ops : List PageOp) : ¬(CountExact disk m₀ ∧
      SafeRun (PageOp.step disk) (fun _ _ s' => CountExact disk s'.image) ops ⟨m₀, ∅⟩) := by
  rintro ⟨hexact, -⟩
  obtain ⟨hfree, b, hb, hset⟩ := ensures_diskFormat hname 0 m₀ hformat rfl
  have hlt := clearBlocks_lt hb hset
  rw [CountExact, hfree] at hexact
  omega

/-- Formatting a zero-filled image of 256 blocks leaves a counter that is not exact. -/
theorem not_countExact_run_256 : ∃ m₀, run (DiskInterface.mapping ⟨256, by decide⟩)
      (diskFormat ⟨256, by decide⟩ 0 0 0 []) (fun _ _ => 0) = some (0, m₀) ∧
    ¬(CountExact ⟨256, by decide⟩ m₀ ∧ SafeRun (PageOp.step ⟨256, by decide⟩)
      (fun _ _ s' => CountExact ⟨256, by decide⟩ s'.image) [PageOp.alloc] ⟨m₀, ∅⟩) := by
  obtain ⟨m₀, hrun, -⟩ := run_diskFormat_blank ⟨256, by decide⟩ 0 0 0
    (show ([] : List UInt8).length ≤ 31 by decide) (blank_zero _) (by decide) (by decide)
  exact ⟨m₀, hrun, not_countExact_run (by decide) hrun _⟩

/-- On that volume the counter is 256 with 250 blocks clear. -/
theorem countExact_fails_256 : ∃ m₀, run (DiskInterface.mapping ⟨256, by decide⟩)
      (diskFormat ⟨256, by decide⟩ 0 0 0 []) (fun _ _ => 0) = some (0, m₀) ∧
    ¬CountExact ⟨256, by decide⟩ m₀ := by
  obtain ⟨m₀, hrun, hfresh⟩ := run_diskFormat_blank ⟨256, by decide⟩ 0 0 0
    (show ([] : List UInt8).length ≤ 31 by decide) (blank_zero _) (by decide) (by decide)
  refine ⟨m₀, hrun, fun hexact => ?_⟩
  have hdrift := hfresh.drift
  rw [drift, hexact, sub_self] at hdrift
  omega

end Nbtrfs
