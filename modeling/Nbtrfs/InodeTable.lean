import Nbtrfs.Inode

/-!
# The inode functions on a laid out volume

`Layout` says that the metadata areas are where the superblock places them. On such a volume
`inode_read` and `inode_write` reach the slot of the inode, and `inode_allocate` claims the first
clear bit of the inode bitmap.
-/

namespace Nbtrfs

open BlockProg Bytes

/-- Block 0 is a superblock that describes the volume. -/
structure Described (M : Mapping) (disk : DiskInterface) (m : Image) : Prop where
  addr_zero : M.addr 0 = some 0
  super : blockType (m 0) = BlockType.super.code
  total : (Superblock.ofPage (m 0)).totalBlocks = disk.totalBlocks
  inodeBitmap : (Superblock.ofPage (m 0)).inodeBitmap =
    UInt64.ofNat (inodeBitmapStart disk.totalBlocks.toNat)

/-- The metadata of the volume is in place: the superblock describes the volume, and the bitmap and
inode table blocks carry their types and are on the device where their numbers say. -/
structure Layout (M : Mapping) (disk : DiskInterface) (m : Image) : Prop extends
    Described M disk m where
  volume : Volume M disk
  exact : M.ExactTo (dataStart disk.totalBlocks.toNat)
  le_total : dataStart disk.totalBlocks.toNat ≤ disk.totalBlocks.toNat
  bitmap : ∀ b, 1 ≤ b → b < inodeTableStart disk.totalBlocks.toNat →
    blockType (m b) = BlockType.bitmap.code
  table : ∀ b, inodeTableStart disk.totalBlocks.toNat ≤ b →
    b < dataStart disk.totalBlocks.toNat → blockType (m b) = BlockType.inode.code

/-- The number of slots of the inode table. -/
def inodeCapacity (total : ℕ) : ℕ := inodesPerPage * inodeTableBlocks total

/-- The bit of inode `n` in the inode bitmap. -/
abbrev inodeBit (disk : DiskInterface) (m : Image) (n : ℕ) : Bool :=
  areaBit m (inodeBitmapStart disk.totalBlocks.toNat) n

/-- The table block that holds the slot of inode `n`. -/
def slotBlock (disk : DiskInterface) (n : ℕ) : ℕ :=
  inodeTableStart disk.totalBlocks.toNat + n / inodesPerPage

/-- The inode stored in the slot of inode `n`. -/
def inodeAt (disk : DiskInterface) (m : Image) (n : ℕ) : Inode :=
  Inode.ofPage (m (slotBlock disk n)) (n % inodesPerPage)

/-- The image with `node` stored in the slot of inode `n`. -/
def putInode (disk : DiskInterface) (m : Image) (n : ℕ) (node : Inode) : Image :=
  Function.update m (slotBlock disk n) (node.toPage (n % inodesPerPage) (m (slotBlock disk n)))

variable {M : Mapping} {disk : DiskInterface} {m : Image}

theorem dataStart_lt (disk : DiskInterface) : dataStart disk.totalBlocks.toNat < 68719476736 := by
  have htotal := total_lt disk
  have hblocks := blockBitmapBlocks_le disk.totalBlocks.toNat
  have hinodes := inodeBitmapBlocks_le disk.totalBlocks.toNat
  rw [dataStart, inodeTableStart, inodeBitmapStart, inodeTableBlocks]
  omega

theorem dataStart_pos (total : ℕ) : 0 < dataStart total := by
  rw [dataStart, inodeTableStart, inodeBitmapStart]
  omega

theorem inodeTableStart_le (total : ℕ) : inodeTableStart total ≤ dataStart total :=
  Nat.le_add_right _ _

theorem inodeBitmapStart_le (total : ℕ) : inodeBitmapStart total ≤ inodeTableStart total :=
  Nat.le_add_right _ _

/-- The slots of the table lie between the inode bitmap and the data blocks. -/
theorem slotBlock_lt {n : ℕ} (hn : n < inodeCapacity disk.totalBlocks.toNat) :
    slotBlock disk n < dataStart disk.totalBlocks.toNat := by
  rw [slotBlock, dataStart]
  simp only [inodeCapacity, inodesPerPage, usableBlockSize, sizeofInode] at hn ⊢
  omega

namespace Described

/-- Anything that keeps the type and the two fields of the superblock keeps its description. -/
theorem congr {m' : Image} (D : Described M disk m) (htype : blockType (m' 0) = blockType (m 0))
    (htotal : (Superblock.ofPage (m' 0)).totalBlocks = (Superblock.ofPage (m 0)).totalBlocks)
    (hinode : (Superblock.ofPage (m' 0)).inodeBitmap = (Superblock.ofPage (m 0)).inodeBitmap) :
    Described M disk m' where
  addr_zero := D.addr_zero
  super := by rw [htype, D.super]
  total := by rw [htotal, D.total]
  inodeBitmap := by rw [hinode, D.inodeBitmap]

/-- The type check of `superblock_read` passes. -/
theorem run_superblockCopy (D : Described M disk m) :
    run M superblockCopy m = some (Superblock.ofPage (m 0), m) := by
  rw [superblockCopy, run_bind_of_eq (run_superblockRead D.addr_zero D.super)]
  rfl

/-- The table page of inode `n`. -/
theorem inodeTableBlock_eq (D : Described M disk m) (n : ℕ) :
    inodeTableBlock (Superblock.ofPage (m 0)) (UInt64.ofNat (n / inodesPerPage)) =
      UInt64.ofNat (slotBlock disk n) := by
  have hsize := calculateInodeBitmapSize_eq (congrArg UInt64.toNat D.total) (total_lt disk)
  rw [inodeTableBlock, D.inodeBitmap, hsize, ofInt_natCast, ← UInt64.ofNat_add, ← UInt64.ofNat_add,
    slotBlock, inodeTableStart]

end Described

namespace Layout

theorem addr (L : Layout M disk m) {b : ℕ} (hb : b < dataStart disk.totalBlocks.toNat) :
    M.addr (UInt64.ofNat b) = some b :=
  L.exact.ofNat hb (by
    have := dataStart_lt disk
    omega)

/-- Anything that keeps the types and the two fields of the superblock keeps the layout. -/
theorem congr {m' : Image} (L : Layout M disk m)
    (htotal : (Superblock.ofPage (m' 0)).totalBlocks = (Superblock.ofPage (m 0)).totalBlocks)
    (hinode : (Superblock.ofPage (m' 0)).inodeBitmap = (Superblock.ofPage (m 0)).inodeBitmap)
    (htype : ∀ b, b < dataStart disk.totalBlocks.toNat → blockType (m' b) = blockType (m b)) :
    Layout M disk m' where
  toDescribed := L.toDescribed.congr (htype 0 (dataStart_pos _)) htotal hinode
  volume := L.volume
  exact := L.exact
  le_total := L.le_total
  bitmap b h1 hb := by rw [htype b (hb.trans_le (inodeTableStart_le _)), L.bitmap b h1 hb]
  table b h1 hb := by rw [htype b hb, L.table b h1 hb]

/-- The block bitmap of a laid out volume is in place. -/
theorem bitmapTo (L : Layout M disk m) :
    BitmapTo M disk m (blockBitmapBlocks disk.totalBlocks.toNat) := by
  have hle := inodeTableStart_le disk.totalBlocks.toNat
  have hstart := inodeBitmapStart_le disk.totalBlocks.toNat
  have htotal := L.le_total
  rw [inodeBitmapStart] at hstart
  exact {
    volume := L.volume
    addr := fun b hb => L.addr (by omega)
    lt := by omega
    type := fun b h1 hb => L.bitmap b h1 (by omega) }

theorem takeBlock (L : Layout M disk m) (b : ℕ) : Layout M disk (takeBlock m b) :=
  L.congr (by rw [superblock_takeBlock L.super]) (by rw [superblock_takeBlock L.super])
    fun _ _ => blockType_takeBlock m b _

theorem dropBlock (L : Layout M disk m) (b : ℕ) : Layout M disk (dropBlock m b) :=
  L.congr (by rw [superblock_dropBlock L.super]) (by rw [superblock_dropBlock L.super])
    fun _ _ => blockType_dropBlock m b _

/-- The metadata of a volume that is laid out has block numbers below `2 ^ 19`. -/
theorem dataStart_le (L : Layout disk.mapping disk m) :
    dataStart disk.totalBlocks.toNat ≤ 524288 := by
  by_contra hgt
  have hsome : disk.mapping.addr (UInt64.ofNat 524288) = some 524288 := L.addr (by omega)
  have hnone : disk.mapping.addr (UInt64.ofNat 524288) = none :=
    DiskInterface.mapping_addr_eq_none (min_le_right _ _) (by omega)
  rw [hnone] at hsome
  cases hsome

theorem total_lt_int (L : Layout disk.mapping disk m) : disk.totalBlocks.toNat < 2147483648 := by
  have h := L.dataStart_le
  rw [dataStart, inodeTableBlocks] at h
  omega

theorem type_slotBlock (L : Layout M disk m) {n : ℕ}
    (hn : n < inodeCapacity disk.totalBlocks.toNat) :
    blockType (m (slotBlock disk n)) = BlockType.inode.code :=
  L.table _ (Nat.le_add_right _ _) (slotBlock_lt hn)

end Layout

theorem div_inodesPerPage (n : UInt64) :
    n / UInt64.ofNat inodesPerPage = UInt64.ofNat (n.toNat / inodesPerPage) := by
  apply UInt64.toNat_inj.mp
  have hlt : n.toNat < 2 ^ 64 := n.toNat_lt
  rw [UInt64.toNat_div, UInt64.toNat_ofNat_of_lt' (n := n.toNat / inodesPerPage)]
  · rfl
  · show n.toNat / inodesPerPage < 2 ^ 64
    simp only [inodesPerPage, usableBlockSize, sizeofInode]
    omega

/-! ## Reading and writing slots -/

/-- `inode_read` through a table page that is on the device. -/
theorem Described.run_inodeRead (D : Described M disk m) {n : UInt64} {b : ℕ}
    (haddr : M.addr (UInt64.ofNat (slotBlock disk n.toNat)) = some b) :
    run M (inodeRead n) m = some (if blockType (m b) = BlockType.inode.code then
      some (Inode.ofPage (m b) (n.toNat % inodesPerPage)) else none, m) := by
  rw [inodeRead, run_bind_of_eq D.run_superblockCopy]
  simp only [div_inodesPerPage, D.inodeTableBlock_eq]
  rw [run_bind_of_eq (run_fetch _ _), run_bind_of_eq (run_page haddr)]
  by_cases htype : blockType (m b) = BlockType.inode.code
  · rw [if_neg (not_not.mpr htype), if_pos htype, run_pure]
  · rw [if_pos htype, if_neg htype, run_pure]

theorem Described.run_inodeRead_unreachable (D : Described M disk m) {n : UInt64}
    (haddr : M.addr (UInt64.ofNat (slotBlock disk n.toNat)) = none) :
    run M (inodeRead n) m = none := by
  rw [inodeRead, run_bind_of_eq D.run_superblockCopy]
  simp only [div_inodesPerPage, D.inodeTableBlock_eq]
  rw [run_bind_of_eq (run_fetch _ _)]
  exact run_bind_of_none (run_page_of_none haddr)

/-- `inode_read` of a slot of the table. -/
theorem Layout.run_inodeRead_slot (L : Layout M disk m) {n : UInt64}
    (hn : n.toNat < inodeCapacity disk.totalBlocks.toNat) :
    run M (inodeRead n) m = some (some (inodeAt disk m n.toNat), m) := by
  rw [L.run_inodeRead (L.addr (slotBlock_lt hn)),
    if_pos (L.type_slotBlock hn), inodeAt]

/-- `inode_write` through a table page that is on the device. -/
theorem Described.run_inodeWrite (D : Described M disk m) (node : Inode) {b : ℕ}
    (hsign : node.inodeNumber.toNat < 9223372036854775808)
    (haddr : M.addr (UInt64.ofNat (slotBlock disk node.inodeNumber.toNat)) = some b)
    (htype : blockType (m b) = BlockType.inode.code) :
    run M (inodeWrite node) m = some (0, Function.update m b
      (node.toPage (node.inodeNumber.toNat % inodesPerPage) (m b))) := by
  have hint : node.inodeNumber.toBitVec.toInt = node.inodeNumber.toNat := by
    rw [BitVec.toInt_eq_toNat_cond, UInt64.toNat_toBitVec, if_pos (by omega)]
  have hpage : UInt64.ofInt ((node.inodeNumber.toNat : ℤ).tdiv ((inodesPerPage : ℕ) : ℤ)) =
      UInt64.ofNat (node.inodeNumber.toNat / inodesPerPage) := by
    rw [Int.tdiv_eq_ediv_of_nonneg (by omega), ← Int.natCast_ediv, ofInt_natCast]
  rw [inodeWrite, run_bind_of_eq D.run_superblockCopy]
  simp only [hint, hpage, D.inodeTableBlock_eq, Int.toNat_natCast]
  rw [run_bind_of_eq (run_fetch _ _), run_bind_of_eq (run_page haddr),
    if_neg (not_not.mpr htype), if_neg (by omega), run_bind_of_eq (run_modify _ haddr),
    run_bind_of_eq (run_writeBack _ _), run_pure]

/-- `inode_write` of a slot of the table. -/
theorem Layout.run_inodeWrite_slot (L : Layout M disk m) (node : Inode)
    (hn : node.inodeNumber.toNat < inodeCapacity disk.totalBlocks.toNat) :
    run M (inodeWrite node) m = some (0, putInode disk m node.inodeNumber.toNat node) := by
  have hcap : inodeCapacity disk.totalBlocks.toNat < 9223372036854775808 := by
    have := total_lt disk
    simp only [inodeCapacity, inodesPerPage, usableBlockSize, sizeofInode, inodeTableBlocks]
    omega
  exact L.run_inodeWrite node (hn.trans hcap) (L.addr (slotBlock_lt hn)) (L.type_slotBlock hn)

/-! ## The scan of the inode bitmap -/

/-- The bitmap block of inode `ii`, from that of the inode before it. -/
theorem run_nextInodeBitmap {start ii : ℕ} (hii : ii < 18446744073709551616) :
    run M (nextInodeBitmap (UInt64.ofNat ii) ((start + (ii - 1) / 4092 : ℕ) : ℤ)) m =
      some (((start + ii / 4092 : ℕ) : ℤ), m) := by
  have hnat : (UInt64.ofNat ii).toNat = ii := UInt64.toNat_ofNat_of_lt' hii
  have hne : UInt64.ofNat ii ≠ 0 ↔ ii ≠ 0 := by
    rw [ne_eq, ← UInt64.toNat_inj, hnat]
    rfl
  rw [nextInodeBitmap, hnat]
  split
  next hstep =>
    simp only [usableBlockSize, hne] at hstep
    rw [run_bind_of_eq (run_fetch _ _), run_pure]
    congr 2
    omega
  next hstep =>
    simp only [usableBlockSize, hne] at hstep
    rw [run_pure]
    congr 2
    omega

/-- The index that the scan passes to the bitmap functions is the position inside the block. -/
theorem inodeBitIndex_eq {sb : Superblock} {start : ℕ} (hsb : sb.inodeBitmap = UInt64.ofNat start)
    (ii : ℕ) (hii : ii < 1099511627776) :
    inodeBitIndex sb (UInt64.ofNat ii) ((start + ii / 4092 : ℕ) : ℤ) = ((ii % 4092 : ℕ) : ℤ) := by
  have hindex : UInt64.ofNat ii - (UInt64.ofNat (start + ii / 4092) - UInt64.ofNat start) *
      UInt64.ofNat usableBlockSize = UInt64.ofNat (ii % 4092) := by
    rw [← UInt64.ofNat_sub (by omega), Nat.add_sub_cancel_left, ← UInt64.ofNat_mul,
      ← UInt64.ofNat_sub (by simp only [usableBlockSize]; omega)]
    congr 1
    simp only [usableBlockSize]
    omega
  rw [inodeBitIndex, hsb, ofInt_natCast, hindex, toNat_ofNat_block (by omega),
    int32_of_lt (by omega)]

/-- A block of the inode bitmap as the scan sees it. -/
theorem Layout.bitmapBlock (L : Layout M disk m) {n : ℕ}
    (hn : n < 4092 * inodeBitmapBlocks disk.totalBlocks.toNat) :
    M.addr (UInt64.ofNat (inodeBitmapStart disk.totalBlocks.toNat + n / 4092)) =
        some (inodeBitmapStart disk.totalBlocks.toNat + n / 4092) ∧
      inodeBitmapStart disk.totalBlocks.toNat + n / 4092 < disk.totalBlocks.toNat ∧
      blockType (m (inodeBitmapStart disk.totalBlocks.toNat + n / 4092)) =
        BlockType.bitmap.code := by
  have hlt : inodeBitmapStart disk.totalBlocks.toNat + n / 4092 <
      inodeTableStart disk.totalBlocks.toNat := by
    rw [inodeTableStart]
    omega
  have hle := inodeTableStart_le disk.totalBlocks.toNat
  have htotal := L.le_total
  refine ⟨L.addr (by omega), by omega, L.bitmap _ ?_ hlt⟩
  rw [inodeBitmapStart]
  omega

/-- The scan passes over set bits and claims the first clear one. -/
theorem Layout.run_inodeScan (L : Layout M disk m) {sb : Superblock} (uid gid mode : UInt32)
    (hsb : sb = Superblock.ofPage (m 0)) {f : ℕ}
    (hf : f < 4092 * inodeBitmapBlocks disk.totalBlocks.toNat) (hclear : inodeBit disk m f = false)
    {n ii : ℕ} (hii : ii ≤ f) (hn : f < ii + n)
    (hset : ∀ i, ii ≤ i → i < f → inodeBit disk m i = true) :
    run M (inodeScan sb uid gid mode n (UInt64.ofNat ii)
        ((inodeBitmapStart disk.totalBlocks.toNat + (ii - 1) / 4092 : ℕ) : ℤ)) m =
      run M (inodeClaim uid gid mode (UInt64.ofNat f)
        ((inodeBitmapStart disk.totalBlocks.toNat + f / 4092 : ℕ) : ℤ))
        (putAreaBit m (inodeBitmapStart disk.totalBlocks.toNat) f true) := by
  have hbound : 4092 * inodeBitmapBlocks disk.totalBlocks.toNat < 1099511627776 := by
    have := inodeBitmapBlocks_le disk.totalBlocks.toNat
    have := total_lt disk
    omega
  induction n generalizing ii with
  | zero => omega
  | succ n ih =>
      obtain ⟨hprev, -, hprevType⟩ := L.bitmapBlock (n := ii - 1) (by omega)
      obtain ⟨haddr, hlt, htype⟩ := L.bitmapBlock (n := ii) (by omega)
      have hindex := inodeBitIndex_eq (hsb.symm ▸ L.inodeBitmap) ii (by omega)
      rw [inodeScan, ofInt_natCast, run_bind_of_eq (run_page hprev),
        if_neg (not_not.mpr hprevType), run_bind_of_eq (run_nextInodeBitmap (by omega)), hindex,
        ofInt_natCast, run_bind_of_eq (run_bitmapGet L.volume haddr hlt htype (by omega)), ← areaBit]
      by_cases hfound : ii = f
      · subst hfound
        have hput := run_bitmapPut (m := m) L.volume haddr hlt htype (i := ii % 4092) (by omega) 1
        rw [if_pos (by simp [hclear]), run_bind_of_eq hput]
        rfl
      · rw [if_neg (by simp [hset ii le_rfl (by omega)]), ← UInt64.ofNat_one, ← UInt64.ofNat_add]
        have hrec := @ih (ii + 1) (by omega) (by omega) (fun i hi => hset i (by omega))
        rwa [Nat.add_sub_cancel] at hrec

/-- With every bit set the scan ends at the first block that is no bitmap. -/
theorem Layout.run_inodeScan_full (L : Layout M disk m) {sb : Superblock} (uid gid mode : UInt32)
    (hsb : sb = Superblock.ofPage (m 0))
    (hend : M.addr (UInt64.ofNat (inodeTableStart disk.totalBlocks.toNat)) =
      some (inodeTableStart disk.totalBlocks.toNat))
    (htypeEnd : blockType (m (inodeTableStart disk.totalBlocks.toNat)) ≠ BlockType.bitmap.code)
    {n ii : ℕ} (hii : ii ≤ 4092 * inodeBitmapBlocks disk.totalBlocks.toNat)
    (hn : 4092 * inodeBitmapBlocks disk.totalBlocks.toNat + 1 < ii + n)
    (hset : ∀ i, ii ≤ i → i < 4092 * inodeBitmapBlocks disk.totalBlocks.toNat →
      inodeBit disk m i = true) :
    run M (inodeScan sb uid gid mode n (UInt64.ofNat ii)
        ((inodeBitmapStart disk.totalBlocks.toNat + (ii - 1) / 4092 : ℕ) : ℤ)) m =
      some (-1, m) := by
  have hpos : 0 < inodeBitmapBlocks disk.totalBlocks.toNat := by
    have := le_inodeBitmapBlocks disk.totalBlocks.toNat
    have htotal := L.le_total
    rw [dataStart, inodeTableStart, inodeBitmapStart] at htotal
    omega
  have hbound : 4092 * inodeBitmapBlocks disk.totalBlocks.toNat < 1099511627776 := by
    have := inodeBitmapBlocks_le disk.totalBlocks.toNat
    have := total_lt disk
    omega
  induction n generalizing ii with
  | zero => omega
  | succ n ih =>
      obtain ⟨hprev, -, hprevType⟩ := L.bitmapBlock (n := ii - 1) (by omega)
      rw [inodeScan, ofInt_natCast, run_bind_of_eq (run_page hprev),
        if_neg (not_not.mpr hprevType), run_bind_of_eq (run_nextInodeBitmap (by omega))]
      by_cases hlast : ii = 4092 * inodeBitmapBlocks disk.totalBlocks.toNat
      · -- the next block ends the scan: its bits read as `-1`, and the loop condition fails
        subst hlast
        rw [Nat.mul_div_cancel_left _ (by decide), ← inodeTableStart, ofInt_natCast,
          run_bind_of_eq (run_bitmapGet_of_ne hend htypeEnd _), if_neg (by decide)]
        obtain ⟨n, rfl⟩ : ∃ n', n = n' + 1 := ⟨n - 1, by omega⟩
        rw [inodeScan, ofInt_natCast, run_bind_of_eq (run_page hend), if_pos htypeEnd, run_pure]
      · obtain ⟨haddr, hlt, htype⟩ := L.bitmapBlock (n := ii) (by omega)
        have hindex := inodeBitIndex_eq (hsb.symm ▸ L.inodeBitmap) ii (by omega)
        rw [hindex, ofInt_natCast,
          run_bind_of_eq (run_bitmapGet L.volume haddr hlt htype (by omega)), ← areaBit,
          if_neg (by simp [hset ii le_rfl (by omega)]), ← UInt64.ofNat_one, ← UInt64.ofNat_add]
        have hrec := @ih (ii + 1) (by omega) (by omega) (fun i hi => hset i (by omega))
        rwa [Nat.add_sub_cancel] at hrec

/-! ## `inode_allocate` -/

/-- Bits of the inode bitmap do not touch the layout. -/
theorem Layout.putInodeBit (L : Layout M disk m) (n : ℕ) (v : Bool) :
    Layout M disk (putAreaBit m (inodeBitmapStart disk.totalBlocks.toNat) n v) := by
  have h0 : putAreaBit m (inodeBitmapStart disk.totalBlocks.toNat) n v 0 = m 0 :=
    putAreaBit_of_ne (by
      rw [inodeBitmapStart]
      omega)
  exact L.congr (by rw [h0]) (by rw [h0]) fun b _ => blockType_putAreaBit _ _ _ _ _

/-- The start of `inode_allocate`. -/
theorem Layout.run_inodeAllocate_start (L : Layout M disk m) (uid gid mode : UInt32)
    (hstart : inodeBitmapStart disk.totalBlocks.toNat < 2147483648) :
    run M (inodeAllocate disk uid gid mode) m = run M (inodeScan (Superblock.ofPage (m 0)) uid gid
      mode (usableBlockSize * (disk.totalBlocks.toNat + 1)) (UInt64.ofNat 0)
      ((inodeBitmapStart disk.totalBlocks.toNat + (0 - 1) / 4092 : ℕ) : ℤ)) m := by
  rw [inodeAllocate, run_bind_of_eq L.run_superblockCopy, L.inodeBitmap,
    toNat_ofNat_block (by omega), int32_of_lt hstart]
  exact run_bind_of_eq (run_fetch _ _)

/-- `inode_allocate` sets the first clear bit of the inode bitmap and goes on to claim the slot. -/
theorem Layout.run_inodeAllocate_scan (L : Layout M disk m) (uid gid mode : UInt32)
    (hstart : inodeBitmapStart disk.totalBlocks.toNat < 2147483648) {f : ℕ}
    (hf : f < 4092 * inodeBitmapBlocks disk.totalBlocks.toNat) (hclear : inodeBit disk m f = false)
    (hset : ∀ i < f, inodeBit disk m i = true) :
    run M (inodeAllocate disk uid gid mode) m =
      run M (inodeClaim uid gid mode (UInt64.ofNat f)
        ((inodeBitmapStart disk.totalBlocks.toNat + f / 4092 : ℕ) : ℤ))
        (putAreaBit m (inodeBitmapStart disk.totalBlocks.toNat) f true) := by
  have hblocks := inodeBitmapBlocks_le disk.totalBlocks.toNat
  rw [L.run_inodeAllocate_start uid gid mode hstart]
  exact L.run_inodeScan uid gid mode rfl hf hclear (Nat.zero_le f) (by
    simp only [usableBlockSize]
    omega) fun i _ hi => hset i hi

/-- `inode_allocate` fails when every bit of the inode bitmap is set, and changes nothing. -/
theorem Layout.run_inodeAllocate_full (L : Layout M disk m) (uid gid mode : UInt32)
    (hstart : inodeBitmapStart disk.totalBlocks.toNat < 2147483648)
    (hend : M.addr (UInt64.ofNat (inodeTableStart disk.totalBlocks.toNat)) =
      some (inodeTableStart disk.totalBlocks.toNat))
    (htypeEnd : blockType (m (inodeTableStart disk.totalBlocks.toNat)) ≠ BlockType.bitmap.code)
    (hset : ∀ i < 4092 * inodeBitmapBlocks disk.totalBlocks.toNat, inodeBit disk m i = true) :
    run M (inodeAllocate disk uid gid mode) m = some (-1, m) := by
  have hblocks := inodeBitmapBlocks_le disk.totalBlocks.toNat
  rw [L.run_inodeAllocate_start uid gid mode hstart]
  exact L.run_inodeScan_full uid gid mode rfl hend htypeEnd (Nat.zero_le _) (by
    simp only [usableBlockSize]
    omega) fun i _ hi => hset i hi

/-- What `inode_allocate` stores in the slot it claims. -/
def claimedInode (uid gid mode : UInt32) (n : ℕ) (node : Inode) : Inode :=
  { node with
    inodeNumber := UInt64.ofNat n
    mode := mode
    ownerId := uid
    groupId := gid
    referenceCount := 1 }

theorem claimedInode_claimedInode (uid gid mode : UInt32) (n : ℕ) (node : Inode) :
    claimedInode uid gid mode n (claimedInode uid gid mode n node) =
      claimedInode uid gid mode n node := rfl

/-- The image after `inode_allocate` claimed inode `n`. -/
def claimInode (disk : DiskInterface) (m : Image) (uid gid mode : UInt32) (n : ℕ) : Image :=
  putInode disk (putAreaBit m (inodeBitmapStart disk.totalBlocks.toNat) n true) n
    (claimedInode uid gid mode n (inodeAt disk m n))

theorem capacity_le (total : ℕ) : inodeCapacity total ≤ 4092 * inodeBitmapBlocks total :=
  inodeTable_le_inodeBitmap total

theorem capacity_lt (disk : DiskInterface) :
    inodeCapacity disk.totalBlocks.toNat < 1099511627776 := by
  have := total_lt disk
  simp only [inodeCapacity, inodesPerPage, usableBlockSize, sizeofInode, inodeTableBlocks]
  omega

/-- The slots lie behind the inode bitmap. -/
theorem putInodeBit_slotBlock (n k : ℕ) (v : Bool)
    (hn : n < 4092 * inodeBitmapBlocks disk.totalBlocks.toNat) :
    putAreaBit m (inodeBitmapStart disk.totalBlocks.toNat) n v (slotBlock disk k) =
      m (slotBlock disk k) :=
  putAreaBit_of_ne (by
    rw [slotBlock, inodeTableStart]
    generalize k / inodesPerPage = page
    omega)

/-- `inode_allocate` claims the first clear bit that has a slot in the table. -/
theorem Layout.run_inodeAllocate (L : Layout M disk m) (uid gid mode : UInt32)
    (hstart : inodeBitmapStart disk.totalBlocks.toNat < 2147483648) {f : ℕ}
    (hf : f < inodeCapacity disk.totalBlocks.toNat) (hclear : inodeBit disk m f = false)
    (hset : ∀ i < f, inodeBit disk m i = true) :
    run M (inodeAllocate disk uid gid mode) m =
      some ((f : ℤ), claimInode disk m uid gid mode f) := by
  have hbits := capacity_le disk.totalBlocks.toNat
  have hnat : (UInt64.ofNat f).toNat = f := toNat_ofNat_block (by
    have := capacity_lt disk
    omega)
  have hread := (L.putInodeBit f true).run_inodeRead_slot (n := UInt64.ofNat f) (by rwa [hnat])
  rw [hnat, inodeAt, putInodeBit_slotBlock f f true (by omega), ← inodeAt] at hread
  have hwrite := (L.putInodeBit f true).run_inodeWrite_slot (claimedInode uid gid mode f
    (inodeAt disk m f)) (by
      rw [claimedInode, hnat]
      exact hf)
  rw [L.run_inodeAllocate_scan uid gid mode hstart (by omega) hclear hset, inodeClaim,
    run_bind_of_eq hread]
  simp only [claimedInode] at hwrite
  simp only [run_bind_of_eq hwrite, hnat]
  rw [if_neg (by decide), run_bind_of_eq (run_writeBack _ _), run_pure, claimInode, claimedInode]

/-! ## What a claimed inode changes -/

section Claim

variable {uid gid mode : UInt32} {n k : ℕ} {node : Inode}

theorem inodeAt_putInode_self : inodeAt disk (putInode disk m n node) n = node := by
  rw [inodeAt, putInode, Function.update_self, Inode.ofPage_toPage]

theorem inodeAt_putInode_ne (hk : k ≠ n) : inodeAt disk (putInode disk m n node) k =
    inodeAt disk m k := by
  by_cases hpage : slotBlock disk k = slotBlock disk n
  · rw [inodeAt, inodeAt, hpage, putInode, Function.update_self]
    refine Inode.ofPage_congr fun o ho => Inode.toPage_apply ?_
    simp only [slotBlock, slotOffset, inodesPerPage, usableBlockSize, sizeofInode] at hpage ho ⊢
    omega
  · rw [inodeAt, inodeAt, putInode, Function.update_of_ne hpage]

theorem blockType_putInode (b : ℕ) : blockType (putInode disk m n node b) = blockType (m b) := by
  by_cases hb : b = slotBlock disk n
  · subst hb
    rw [putInode, Function.update_self, Inode.blockType_toPage]
  · rw [putInode, Function.update_of_ne hb]

theorem slotBlock_ge (disk : DiskInterface) (n : ℕ) :
    inodeTableStart disk.totalBlocks.toNat ≤ slotBlock disk n :=
  Nat.le_add_right _ _

theorem inodeTableStart_pos (total : ℕ) : 0 < inodeTableStart total := by
  rw [inodeTableStart, inodeBitmapStart]
  omega

theorem Layout.putInode (L : Layout M disk m) (n : ℕ) (node : Inode) :
    Layout M disk (putInode disk m n node) := by
  have hslot := slotBlock_ge disk n
  have hpos := inodeTableStart_pos disk.totalBlocks.toNat
  have h0 : Nbtrfs.putInode disk m n node 0 = m 0 := Function.update_of_ne (by omega) _ _
  exact L.congr (by rw [h0]) (by rw [h0]) fun b _ => blockType_putInode b

variable (uid gid mode n) in
theorem Layout.claimInode (L : Layout M disk m) : Layout M disk (claimInode disk m uid gid mode n) :=
  (L.putInodeBit n true).putInode n _

theorem claimInode_of_ne {c : ℕ} (hbit : c ≠ inodeBitmapStart disk.totalBlocks.toNat + n / 4092)
    (hslot : c ≠ slotBlock disk n) : claimInode disk m uid gid mode n c = m c := by
  rw [Nbtrfs.claimInode, Nbtrfs.putInode, Function.update_of_ne hslot, putAreaBit_of_ne hbit]

/-- The bits of the inode bitmap after a claim. -/
theorem inodeBit_claimInode (hk : k < 4092 * inodeBitmapBlocks disk.totalBlocks.toNat) :
    inodeBit disk (claimInode disk m uid gid mode n) k =
      if k = n then true else inodeBit disk m k := by
  have hne : inodeBitmapStart disk.totalBlocks.toNat + k / 4092 ≠ slotBlock disk n := by
    have hslot := slotBlock_ge disk n
    rw [inodeTableStart] at hslot
    omega
  rw [← areaBit_putAreaBit]
  exact areaBit_congr (Function.update_of_ne hne _ _)

theorem inodeAt_claimInode_self : inodeAt disk (claimInode disk m uid gid mode n) n =
    claimedInode uid gid mode n (inodeAt disk m n) :=
  inodeAt_putInode_self

theorem inodeAt_claimInode_ne (hn : n < 4092 * inodeBitmapBlocks disk.totalBlocks.toNat)
    (hk : k ≠ n) : inodeAt disk (claimInode disk m uid gid mode n) k = inodeAt disk m k := by
  rw [Nbtrfs.claimInode, inodeAt_putInode_ne hk, inodeAt, putInodeBit_slotBlock n k true hn, inodeAt]

end Claim

/-! ## `inode_free` -/

/-- The index that `inode_free` passes to `bitmap_put`: the bit lies as many bitmap blocks before its
own as the block bitmap is long. -/
theorem freeIndex_eq (disk : DiskInterface) {n : UInt64} {b : ℕ} (hb : b < 524288)
    (hstart : inodeBitmapStart disk.totalBlocks.toNat + n.toNat / 4092 = 1 + b) :
    int32 (n - UInt64.ofInt (int32 ((((1 + b : ℕ) : ℤ) - 1) * ((usableBlockSize : ℕ) : ℤ)))).toNat =
      (n.toNat % 4092 : ℕ) - (4092 * blockBitmapBlocks disk.totalBlocks.toNat : ℕ) := by
  have hproduct : (((1 + b : ℕ) : ℤ) - 1) * ((usableBlockSize : ℕ) : ℤ) = ((4092 * b : ℕ) : ℤ) := by
    simp only [usableBlockSize]
    omega
  have hdiff : n - UInt64.ofInt ((4092 * b : ℕ) : ℤ) =
      UInt64.ofInt ((n.toNat : ℤ) - ((4092 * b : ℕ) : ℤ)) := by
    rw [Int.sub_eq_add_neg, UInt64.ofInt_add, UInt64.ofInt_neg, ofInt_natCast n.toNat,
      UInt64.ofNat_toNat, UInt64.sub_eq_add_neg]
  rw [inodeBitmapStart] at hstart
  rw [hproduct, int32_of_lt (n := 4092 * b) (by omega), hdiff, int32_toNat_ofInt,
    int32_of_mem (by omega) (by omega)]
  omega

/-- A negative index of `bitmap_put` leaves the bits of its block alone, unless it comes close enough
to the first word and the bit is in that word. -/
theorem ensures_bitmapPut_before (V : Volume M disk) {bm : UInt64} {b : ℕ} {ii : ℤ} (vv : ℤ)
    (haddr : M.addr bm = some b) (hneg : ii < 0) {j : ℕ} (hj : j < 4092)
    (hfar : ii ≤ -64 ∨ 64 ≤ j) :
    Ensures M (bitmapPut bm ii vv) m fun _ m' => bitOf (m' b) j = bitOf (m b) j := by
  rw [bitmapPut]
  refine ensures_page_bind fun b' hb' => ?_
  split
  · exact ensures_pure rfl
  · refine ensures_peek_bind fun a ha => ensures_bind (ensures_poke fun a' ha' => ?_)
    obtain ⟨b'', hb'', haddr'⟩ := Mapping.wordAddr_eq_some ha'
    obtain rfl : b = b'' := Option.some.inj (haddr.symm.trans hb'')
    have htdiv : ii.tdiv 64 = -(-ii / 64) := by
      rw [← Int.tdiv_eq_ediv_of_nonneg (by omega), Int.neg_tdiv, neg_neg]
    rw [V.blockSize_eq, blockSize] at haddr'
    refine ensures_pure (bitOf_congr fun o ho => Mapping.storeFlat_apply_ne ?_)
    rw [V.blockSize_eq, blockSize]
    omega

/-- The part of `inode_free` behind the computation of its block numbers and its index. -/
def inodeFreeAt (bm : UInt64) (index : ℤ) (blk : UInt64) (slot : ℕ) : BlockProg ℤ := do
  let rv ← bitmapPut bm index 0
  if rv ≠ 0 then
    pure 0
  else do
    fetch 0 blk
    let pg ← page blk
    if blockType pg ≠ BlockType.inode.code then
      pure 0
    else do
      modify blk fun pg => copyIn pg (slotOffset slot) sizeofInode fun _ => 0
      writeBack 0 blk
      writeBack 0 bm
      pure 0

/-- The block of the inode bitmap that holds the bit of inode `n`. -/
theorem Layout.inodeBitmapBlock_lt (L : Layout M disk m) {n : ℕ}
    (hn : n < inodeCapacity disk.totalBlocks.toNat) :
    inodeBitmapStart disk.totalBlocks.toNat + n / 4092 < inodeTableStart disk.totalBlocks.toNat ∧
      1 < inodeBitmapStart disk.totalBlocks.toNat := by
  have hcap := capacity_le disk.totalBlocks.toNat
  have hblocks := le_blockBitmapBlocks disk.totalBlocks.toNat
  have hle := L.le_total
  have := dataStart_pos disk.totalBlocks.toNat
  rw [inodeTableStart, inodeBitmapStart]
  omega

/-- The block numbers of `inode_free` are those of the bit and the slot, and its index is off by the
length of the block bitmap. -/
theorem Layout.run_inodeFree (L : Layout M disk m) {n : UInt64}
    (hn : n.toNat < inodeCapacity disk.totalBlocks.toNat)
    (hstart : inodeTableStart disk.totalBlocks.toNat ≤ 524288) :
    run M (inodeFree n) m = run M (inodeFreeAt
      (UInt64.ofNat (inodeBitmapStart disk.totalBlocks.toNat + n.toNat / 4092))
      ((n.toNat % 4092 : ℕ) - (4092 * blockBitmapBlocks disk.totalBlocks.toNat : ℕ))
      (UInt64.ofNat (slotBlock disk n.toNat)) (n.toNat % inodesPerPage)) m := by
  obtain ⟨hlt, hone⟩ := L.inodeBitmapBlock_lt hn
  obtain ⟨b, hb⟩ : ∃ b, inodeBitmapStart disk.totalBlocks.toNat + n.toNat / 4092 = 1 + b :=
    ⟨inodeBitmapStart disk.totalBlocks.toNat + n.toNat / 4092 - 1, by omega⟩
  have hdiv : n / UInt64.ofNat usableBlockSize = UInt64.ofNat (n.toNat / 4092) := by
    apply UInt64.toNat_inj.mp
    have hn64 := n.toNat_lt
    rw [UInt64.toNat_div, UInt64.toNat_ofNat_of_lt' (n := n.toNat / 4092)
      (show n.toNat / 4092 < 2 ^ 64 by omega)]
    rfl
  have hpage : UInt64.ofInt (int32 (n / UInt64.ofNat inodesPerPage).toNat) =
      UInt64.ofNat (n.toNat / inodesPerPage) := by
    have htotal := total_lt disk
    have hlt : n.toNat / inodesPerPage < 2147483648 := by
      simp only [inodeCapacity, inodeTableBlocks, inodesPerPage, usableBlockSize,
        sizeofInode] at hn ⊢
      omega
    rw [div_inodesPerPage, toNat_ofNat_block (by omega), int32_of_lt hlt, ofInt_natCast]
  have hindex := freeIndex_eq disk (show b < 524288 by omega) hb
  rw [inodeFree, run_bind_of_eq L.run_superblockCopy]
  simp only [hpage, L.inodeTableBlock_eq]
  simp only [L.inodeBitmap, hdiv, ← UInt64.ofNat_add, hb]
  rw [toNat_ofNat_block (by omega), int32_of_lt (by omega), hindex, ofInt_natCast, inodeFreeAt]
  exact run_bind_of_eq (run_fetch _ _)

/-- `inode_free` leaves the bit of its inode as it is. -/
theorem Layout.ensures_inodeFree (L : Layout M disk m) {n : UInt64}
    (hn : n.toNat < inodeCapacity disk.totalBlocks.toNat)
    (hstart : inodeTableStart disk.totalBlocks.toNat ≤ 524288) :
    Ensures M (inodeFree n) m fun _ m' => inodeBit disk m' n.toNat = inodeBit disk m n.toNat := by
  obtain ⟨hlt, hone⟩ := L.inodeBitmapBlock_lt hn
  have hpos : 1 < 1 + blockBitmapBlocks disk.totalBlocks.toNat := hone
  have haddr := L.addr (hlt.trans_le (inodeTableStart_le _))
  intro rv m' hrun
  rw [L.run_inodeFree hn hstart] at hrun
  revert rv m'
  show Ensures M (inodeFreeAt _ _ _ _) m _
  rw [inodeFreeAt]
  refine ensures_bind ?_
  refine (ensures_bitmapPut_before L.volume 0 haddr (by omega) (j := n.toNat % 4092) (by omega)
    (by omega)).mono fun rv m₁ hbit => ?_
  split
  · exact ensures_pure hbit
  · refine ensures_fetch_bind (ensures_page_bind fun c hc => ?_)
    split
    · exact ensures_pure hbit
    · refine ensures_bind (ensures_modify fun c' hc' => ensures_writeBack_bind
        (ensures_writeBack_bind (ensures_pure ?_)))
      obtain rfl : slotBlock disk n.toNat = c' :=
        Option.some.inj ((L.addr (slotBlock_lt hn)).symm.trans hc')
      have hslot := slotBlock_ge disk n.toNat
      exact (areaBit_congr (Function.update_of_ne (by omega) _ _)).trans hbit

end Nbtrfs
