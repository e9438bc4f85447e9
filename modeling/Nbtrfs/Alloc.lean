import Nbtrfs.Superblock

/-!
# The page allocator

Reference: `disk.c::alloc_page`, `disk.c::free_page`.

`alloc_page` scans the block bitmap from block 0 on, stepping to the next bitmap block at every
multiple of `USABLE_BLOCK_SIZE`; `free_page` computes the bitmap block and the bit directly. Both
are shown to act on the same bit, `blockBit`, and to keep the counter of block 0 in step
(`takeBlock`, `dropBlock`).
-/

namespace Nbtrfs

open BlockProg Bytes

/-- The first statement of the loop of `alloc_page`: fetch the next bitmap block at every multiple of
`USABLE_BLOCK_SIZE`. -/
def nextBitmap (ii pbmn : ℕ) : BlockProg ℕ :=
  if ii % usableBlockSize = 0 ∧ ii ≠ 0 then do
    fetch 0 (UInt64.ofNat (pbmn + 1))
    pure (pbmn + 1)
  else pure pbmn

/-- The scan of `alloc_page`: `n` blocks are left, `ii` is the next one and `pbmn` the bitmap block
of the one before. -/
def allocScan (sb : Superblock) : ℕ → ℕ → ℕ → BlockProg UInt64
  | 0, _, _ => pure 0
  | n + 1, ii, pbmn => do
      let pbmn ← nextBitmap ii pbmn
      let bit ← bitmapGet (UInt64.ofNat pbmn) (ii - (pbmn - 1) * usableBlockSize)
      if bit = 0 then do
        let rv ← bitmapPut (UInt64.ofNat pbmn) (ii - (pbmn - 1) * usableBlockSize) 1
        if rv ≠ 0 then
          pure 0
        else do
          let _ ← superblockWrite { sb with freeBlocks := sb.freeBlocks - 1 }
          writeBack 0 (UInt64.ofNat pbmn)
          pure (UInt64.ofNat ii)
      else allocScan sb n (ii + 1) pbmn

/-- `alloc_page`. When block 0 is no superblock the local copy keeps its stack bytes, which no one
sees: `superblock_write` then refuses to store them. -/
def allocPage (disk : DiskInterface) : BlockProg UInt64 := do
  fetch 0 1
  let sb ← superblockRead
  allocScan (sb.getD default) disk.totalBlocks.toNat 0 1

/-- `free_page`; the block number arrives as an `int`. -/
def freePage (page : UInt64) : BlockProg Unit := do
  let pnum := int32 page.toNat
  let pbmn := 1 + pnum.tdiv usableBlockSize
  fetch 0 (UInt64.ofInt pbmn)
  let sb := (← superblockRead).getD default
  let _ ← bitmapPut (UInt64.ofInt pbmn) (pnum - (pbmn - 1) * usableBlockSize) 0
  let _ ← superblockWrite { sb with freeBlocks := sb.freeBlocks - 1 }
  writeBack 0 (UInt64.ofInt pbmn)

/-! ## The block bitmap as a set of bits -/

/-- The bit of block `b` in the block bitmap, which starts at block 1. -/
abbrev blockBit (m : Image) (b : ℕ) : Bool := areaBit m 1 b

/-- The image with the bit of block `b` set to `v`. -/
abbrev putBlockBit (m : Image) (b : ℕ) (v : Bool) : Image := putAreaBit m 1 b v

/-- The free-block counter of block 0 decremented, as both allocator functions do. -/
def decFreeBlocks (m : Image) : Image :=
  if blockType (m 0) = BlockType.super.code then
    Function.update m 0 ({ Superblock.ofPage (m 0) with
      freeBlocks := (Superblock.ofPage (m 0)).freeBlocks - 1 }.toPage (m 0))
  else m

theorem decFreeBlocks_of_ne {m : Image} {c : ℕ} (hc : c ≠ 0) : decFreeBlocks m c = m c := by
  rw [decFreeBlocks]
  split
  · exact Function.update_of_ne hc _ _
  · rfl

theorem blockType_decFreeBlocks (m : Image) (c : ℕ) :
    blockType (decFreeBlocks m c) = blockType (m c) := by
  rw [decFreeBlocks]
  split
  · by_cases hc : c = 0
    · subst hc
      rw [Function.update_self, Superblock.blockType_toPage]
    · rw [Function.update_of_ne hc]
  · rfl

@[simp] theorem blockBit_decFreeBlocks (m : Image) (b : ℕ) :
    blockBit (decFreeBlocks m) b = blockBit m b := by
  exact areaBit_congr (decFreeBlocks_of_ne (by omega))

/-- The image after block `b` was allocated. -/
def takeBlock (m : Image) (b : ℕ) : Image := decFreeBlocks (putBlockBit m b true)

/-- The image after block `b` was freed. -/
def dropBlock (m : Image) (b : ℕ) : Image := decFreeBlocks (putBlockBit m b false)

theorem blockBit_takeBlock (m : Image) (b c : ℕ) :
    blockBit (takeBlock m b) c = if c = b then true else blockBit m c := by
  rw [takeBlock, blockBit_decFreeBlocks]
  exact areaBit_putAreaBit m 1 b c true

theorem blockBit_dropBlock (m : Image) (b c : ℕ) :
    blockBit (dropBlock m b) c = if c = b then false else blockBit m c := by
  rw [dropBlock, blockBit_decFreeBlocks]
  exact areaBit_putAreaBit m 1 b c false

theorem takeBlock_of_ne {m : Image} {b c : ℕ} (h0 : c ≠ 0) (hc : c ≠ 1 + b / 4092) :
    takeBlock m b c = m c := by
  rw [takeBlock, decFreeBlocks_of_ne h0]
  exact putAreaBit_of_ne hc

theorem dropBlock_of_ne {m : Image} {b c : ℕ} (h0 : c ≠ 0) (hc : c ≠ 1 + b / 4092) :
    dropBlock m b c = m c := by
  rw [dropBlock, decFreeBlocks_of_ne h0]
  exact putAreaBit_of_ne hc

@[simp] theorem blockType_takeBlock (m : Image) (b c : ℕ) :
    blockType (takeBlock m b c) = blockType (m c) := by
  rw [takeBlock, blockType_decFreeBlocks, blockType_putAreaBit]

@[simp] theorem blockType_dropBlock (m : Image) (b c : ℕ) :
    blockType (dropBlock m b c) = blockType (m c) := by
  rw [dropBlock, blockType_decFreeBlocks, blockType_putAreaBit]

/-- The allocator changes one field of the superblock. -/
theorem superblock_takeBlock {m : Image} {b : ℕ} (h : blockType (m 0) = BlockType.super.code) :
    Superblock.ofPage (takeBlock m b 0) = { Superblock.ofPage (m 0) with
      freeBlocks := (Superblock.ofPage (m 0)).freeBlocks - 1 } := by
  have h0 : putBlockBit m b true 0 = m 0 := putAreaBit_of_ne (by omega)
  rw [takeBlock, decFreeBlocks, h0, if_pos h, Function.update_self, Superblock.ofPage_toPage]

theorem superblock_dropBlock {m : Image} {b : ℕ} (h : blockType (m 0) = BlockType.super.code) :
    Superblock.ofPage (dropBlock m b 0) = { Superblock.ofPage (m 0) with
      freeBlocks := (Superblock.ofPage (m 0)).freeBlocks - 1 } := by
  have h0 : putBlockBit m b false 0 = m 0 := putAreaBit_of_ne (by omega)
  rw [dropBlock, decFreeBlocks, h0, if_pos h, Function.update_self, Superblock.ofPage_toPage]

/-! ## The allocator on the bitmap -/

/-- Block 0 and the first `k` bitmap blocks are on the device where their numbers say, and the
bitmap blocks carry their type. -/
structure BitmapTo (M : Mapping) (disk : DiskInterface) (m : Image) (k : ℕ) : Prop where
  volume : Volume M disk
  addr : ∀ b ≤ k, M.addr (UInt64.ofNat b) = some b
  lt : k < disk.totalBlocks.toNat
  type : ∀ b, 1 ≤ b → b ≤ k → blockType (m b) = BlockType.bitmap.code

variable {M : Mapping} {disk : DiskInterface} {m : Image}

theorem BitmapTo.mono {k k' : ℕ} (h : BitmapTo M disk m k) (hle : k' ≤ k) :
    BitmapTo M disk m k' where
  volume := h.volume
  addr b hb := h.addr b (hb.trans hle)
  lt := hle.trans_lt h.lt
  type b h1 hb := h.type b h1 (hb.trans hle)

theorem BitmapTo.addr_zero {k : ℕ} (h : BitmapTo M disk m k) : M.addr 0 = some 0 :=
  h.addr 0 (Nat.zero_le k)

/-- The counter update of the two allocator functions, whatever block 0 holds. -/
private theorem run_countDown {α : Type} (haddr : M.addr 0 = some 0) {sb : Superblock}
    (hsb : blockType (m 0) = BlockType.super.code → sb = Superblock.ofPage (m 0))
    (f : ℤ → BlockProg α) :
    run M (superblockWrite { sb with freeBlocks := sb.freeBlocks - 1 } >>= f) m =
      run M (f (if blockType (m 0) = BlockType.super.code then 0 else -1)) (decFreeBlocks m) := by
  by_cases htype : blockType (m 0) = BlockType.super.code
  · rw [run_bind_of_eq (run_superblockWrite _ haddr htype), decFreeBlocks, if_pos htype,
      if_pos htype, hsb htype]
  · rw [run_bind_of_eq (run_superblockWrite_of_ne _ haddr htype), decFreeBlocks, if_neg htype,
      if_neg htype]

private theorem run_readCopy {α : Type} (haddr : M.addr 0 = some 0)
    (f : Option Superblock → BlockProg α) :
    ∃ sb, run M (superblockRead >>= f) m = run M (f sb) m ∧
      (blockType (m 0) = BlockType.super.code → sb.getD default = Superblock.ofPage (m 0)) := by
  by_cases htype : blockType (m 0) = BlockType.super.code
  · exact ⟨some (Superblock.ofPage (m 0)), run_bind_of_eq (run_superblockRead haddr htype),
      fun _ => rfl⟩
  · exact ⟨none, run_bind_of_eq (run_superblockRead_of_ne haddr htype), fun h => absurd h htype⟩

/-- The bitmap block of `ii`, from that of the block before it. -/
theorem run_nextBitmap (ii : ℕ) :
    run M (nextBitmap ii (1 + (ii - 1) / 4092)) m = some (1 + ii / 4092, m) := by
  rw [nextBitmap]
  split
  next hstep =>
    simp only [usableBlockSize] at hstep
    rw [run_bind_of_eq (run_fetch _ _), run_pure,
      show 1 + (ii - 1) / 4092 + 1 = 1 + ii / 4092 by omega]
  next hstep =>
    simp only [usableBlockSize] at hstep
    rw [run_pure, show 1 + (ii - 1) / 4092 = 1 + ii / 4092 by omega]

/-- The index that the scan passes to the bitmap functions is the position inside the block. -/
private theorem scan_index (ii : ℕ) :
    (ii : ℤ) - (((1 + ii / 4092 : ℕ) : ℤ) - 1) * ((usableBlockSize : ℕ) : ℤ) =
      ((ii % 4092 : ℕ) : ℤ) := by
  simp only [usableBlockSize]
  omega

private theorem run_scanGet {ii : ℕ} (h : BitmapTo M disk m (1 + ii / 4092)) :
    run M (bitmapGet (UInt64.ofNat (1 + ii / 4092))
      (ii - ((1 + ii / 4092 : ℕ) - 1) * (usableBlockSize : ℕ))) m =
      some (((blockBit m ii).toNat : ℤ), m) := by
  rw [scan_index, run_bitmapGet h.volume (h.addr _ le_rfl) h.lt (h.type _ (by omega) le_rfl)
    (by omega), blockBit, areaBit]

/-- The scan passes over set bits and takes the first clear one. -/
theorem run_allocScan {sb : Superblock} {f : ℕ} (h : BitmapTo M disk m (1 + f / 4092))
    (hsb : blockType (m 0) = BlockType.super.code → sb = Superblock.ofPage (m 0))
    (hclear : blockBit m f = false) {n ii : ℕ} (hii : ii ≤ f) (hn : f < ii + n)
    (hset : ∀ b, ii ≤ b → b < f → blockBit m b = true) :
    run M (allocScan sb n ii (1 + (ii - 1) / 4092)) m = some (UInt64.ofNat f, takeBlock m f) := by
  induction n generalizing ii with
  | zero => omega
  | succ n ih =>
      have hto : BitmapTo M disk m (1 + ii / 4092) := h.mono (by
        have := Nat.div_le_div_right (c := 4092) hii
        omega)
      rw [allocScan, run_bind_of_eq (run_nextBitmap ii), run_bind_of_eq (run_scanGet hto)]
      by_cases hfound : ii = f
      · subst hfound
        have hput := run_bitmapPut (m := m) h.volume (h.addr _ le_rfl) h.lt
          (h.type _ (by omega) le_rfl) (i := ii % 4092) (by omega) 1
        have h0 : putBlockBit m ii true 0 = m 0 := putAreaBit_of_ne (by omega)
        rw [if_pos (by simp [hclear]), scan_index, run_bind_of_eq hput]
        show run M (_ >>= _) (putBlockBit m ii true) = _
        rw [run_countDown h.addr_zero (by rwa [h0]), run_bind_of_eq (run_writeBack _ _), run_pure,
          takeBlock]
      · rw [if_neg (by simp [hset ii le_rfl (by omega)])]
        have hrec := @ih (ii + 1) (by omega) (by omega) (fun b hb => hset b (by omega))
        rwa [Nat.add_sub_cancel] at hrec

/-- With every bit set the scan ends without a block. -/
theorem run_allocScan_full {sb : Superblock} {n ii : ℕ}
    (h : BitmapTo M disk m (1 + (ii + n - 1) / 4092))
    (hset : ∀ b, ii ≤ b → b < ii + n → blockBit m b = true) :
    run M (allocScan sb n ii (1 + (ii - 1) / 4092)) m = some (0, m) := by
  induction n generalizing ii with
  | zero => rfl
  | succ n ih =>
      have hto : BitmapTo M disk m (1 + ii / 4092) := h.mono (by
        have := Nat.div_le_div_right (c := 4092) (show ii ≤ ii + (n + 1) - 1 by omega)
        omega)
      rw [allocScan, run_bind_of_eq (run_nextBitmap ii), run_bind_of_eq (run_scanGet hto),
        if_neg (by simp [hset ii le_rfl (by omega)])]
      have hrec := @ih (ii + 1) (by rwa [show ii + 1 + n - 1 = ii + (n + 1) - 1 by omega])
        (fun b hb hlt => hset b (by omega) (by omega))
      rwa [Nat.add_sub_cancel] at hrec

/-- The scan crashes on a bitmap block that its number does not reach. -/
theorem run_allocScan_unreachable {sb : Superblock} {k : ℕ} (h : BitmapTo M disk m k)
    (haddr : M.addr (UInt64.ofNat (1 + k)) = none) {n ii : ℕ} (hii : ii ≤ 4092 * k)
    (hn : 4092 * k < ii + n) (hset : ∀ b, ii ≤ b → b < 4092 * k → blockBit m b = true) :
    run M (allocScan sb n ii (1 + (ii - 1) / 4092)) m = none := by
  induction n generalizing ii with
  | zero => omega
  | succ n ih =>
      rw [allocScan, run_bind_of_eq (run_nextBitmap ii)]
      by_cases hlast : ii = 4092 * k
      · subst hlast
        rw [Nat.mul_div_cancel_left k (by decide)]
        apply run_bind_of_none
        rw [bitmapGet]
        exact run_bind_of_none (run_page_of_none haddr)
      · have hto : BitmapTo M disk m (1 + ii / 4092) := h.mono (by omega)
        rw [run_bind_of_eq (run_scanGet hto), if_neg (by simp [hset ii le_rfl (by omega)])]
        have hrec := @ih (ii + 1) (by omega) (by omega) (fun b hb => hset b (by omega))
        rwa [Nat.add_sub_cancel] at hrec

/-- `alloc_page` hands out the first block whose bit is clear. -/
theorem run_allocPage {f : ℕ} (h : BitmapTo M disk m (1 + f / 4092))
    (hf : f < disk.totalBlocks.toNat) (hclear : blockBit m f = false)
    (hset : ∀ b < f, blockBit m b = true) :
    run M (allocPage disk) m = some (UInt64.ofNat f, takeBlock m f) := by
  rw [allocPage, run_bind_of_eq (run_fetch _ _)]
  obtain ⟨sb, hrun, hsb⟩ := run_readCopy (m := m) h.addr_zero
    fun sb => allocScan (sb.getD default) disk.totalBlocks.toNat 0 1
  rw [hrun]
  exact run_allocScan h hsb hclear (Nat.zero_le f) (by omega) (fun b _ => hset b)

/-- `alloc_page` returns 0 when every bit is set, and changes nothing. -/
theorem run_allocPage_full (h : BitmapTo M disk m (1 + (disk.totalBlocks.toNat - 1) / 4092))
    (hset : ∀ b < disk.totalBlocks.toNat, blockBit m b = true) :
    run M (allocPage disk) m = some (0, m) := by
  rw [allocPage, run_bind_of_eq (run_fetch _ _)]
  obtain ⟨sb, hrun, -⟩ := run_readCopy (m := m) h.addr_zero
    fun sb => allocScan (sb.getD default) disk.totalBlocks.toNat 0 1
  rw [hrun]
  exact run_allocScan_full (by simpa using h) (fun b _ hb => hset b (by omega))

/-- With the whole bitmap in place `alloc_page` returns: the first clear block, or 0 on a full
volume. -/
theorem allocPage_cases (h : BitmapTo M disk m (blockBitmapBlocks disk.totalBlocks.toNat)) :
    (∃ f < disk.totalBlocks.toNat, blockBit m f = false ∧ (∀ b < f, blockBit m b = true) ∧
        run M (allocPage disk) m = some (UInt64.ofNat f, takeBlock m f)) ∨
      ((∀ b < disk.totalBlocks.toNat, blockBit m b = true) ∧
        run M (allocPage disk) m = some (0, m)) := by
  have hblocks := le_blockBitmapBlocks disk.totalBlocks.toNat
  have hpos := h.lt
  by_cases hfull : ∀ b < disk.totalBlocks.toNat, blockBit m b = true
  · exact Or.inr ⟨hfull, run_allocPage_full (h.mono (by omega)) hfull⟩
  · obtain ⟨f, hf, hclear, hset⟩ := exists_first_of_not hfull
    have hclear : blockBit m f = false := by simpa using hclear
    exact Or.inl ⟨f, hf, hclear, hset, run_allocPage (h.mono (by omega)) hf hclear hset⟩

/-- `alloc_page` crashes when it has to look past a bitmap block it cannot reach. -/
theorem run_allocPage_unreachable {k : ℕ} (h : BitmapTo M disk m k)
    (haddr : M.addr (UInt64.ofNat (1 + k)) = none) (hk : 4092 * k < disk.totalBlocks.toNat)
    (hset : ∀ b < 4092 * k, blockBit m b = true) :
    run M (allocPage disk) m = none := by
  rw [allocPage, run_bind_of_eq (run_fetch _ _)]
  obtain ⟨sb, hrun, -⟩ := run_readCopy (m := m) h.addr_zero
    fun sb => allocScan (sb.getD default) disk.totalBlocks.toNat 0 1
  rw [hrun]
  exact run_allocScan_unreachable h haddr (Nat.zero_le _) (by omega)
    (fun b _ => hset b)

section Free

variable {p : UInt64}

private theorem free_block (hp : p.toNat < 2147483648) :
    1 + (int32 p.toNat).tdiv ((usableBlockSize : ℕ) : ℤ) = ((1 + p.toNat / 4092 : ℕ) : ℤ) := by
  rw [int32_of_lt hp, Int.tdiv_eq_ediv_of_nonneg (by omega)]
  simp only [usableBlockSize]
  omega

private theorem free_index (hp : p.toNat < 2147483648) :
    int32 p.toNat - (((1 + p.toNat / 4092 : ℕ) : ℤ) - 1) * ((usableBlockSize : ℕ) : ℤ) =
      ((p.toNat % 4092 : ℕ) : ℤ) := by
  rw [int32_of_lt hp]
  exact scan_index p.toNat

/-- `free_page` clears the bit of its block. -/
theorem run_freePage (hp : p.toNat < 2147483648) (h : BitmapTo M disk m (1 + p.toNat / 4092)) :
    run M (freePage p) m = some ((), dropBlock m p.toNat) := by
  have hput := run_bitmapPut (m := m) h.volume (h.addr _ le_rfl) h.lt
    (h.type _ (by omega) le_rfl) (i := p.toNat % 4092) (by omega) 0
  have h0 : putBlockBit m p.toNat false 0 = m 0 := putAreaBit_of_ne (by omega)
  simp only [freePage, free_block hp, free_index hp, ofInt_natCast]
  rw [run_bind_of_eq (run_fetch _ _)]
  obtain ⟨sb, hrun, hsb⟩ := run_readCopy (m := m) h.addr_zero _
  rw [hrun, run_bind_of_eq hput]
  show run M (_ >>= _) (putBlockBit m p.toNat false) = _
  rw [run_countDown h.addr_zero (by rwa [h0]), run_writeBack, dropBlock]

/-- `free_page` crashes on a bitmap block that its number does not reach. -/
theorem run_freePage_unreachable (hp : p.toNat < 2147483648) (h0 : M.addr 0 = some 0)
    (haddr : M.addr (UInt64.ofNat (1 + p.toNat / 4092)) = none) :
    run M (freePage p) m = none := by
  simp only [freePage, free_block hp, free_index hp, ofInt_natCast]
  rw [run_bind_of_eq (run_fetch _ _)]
  obtain ⟨sb, hrun, -⟩ := run_readCopy (m := m) h0 _
  rw [hrun]
  apply run_bind_of_none
  rw [bitmapPut]
  exact run_bind_of_none (run_page_of_none haddr)

end Free

end Nbtrfs
