import Nbtrfs.Bitmap

/-!
# The superblock

Reference: `superblock.h`, `superblock.c`.

`Superblock.ofPage` and `Superblock.toPage` are the two directions of the `memcpy` between the
structure and block 0; the offsets are those of the C layout behind the four-byte type header.
-/

namespace Nbtrfs

open BlockProg Bytes

/-- Conversion of an integer to a C `int`. -/
def int32 (n : ℤ) : ℤ := (BitVec.ofInt 32 n).toInt

theorem int32_of_mem {n : ℤ} (hlo : -2147483648 ≤ n) (hhi : n < 2147483648) : int32 n = n := by
  rw [int32, BitVec.toInt_ofInt]
  exact Int.bmod_eq_of_le_mul_two (by omega) (by omega)

theorem int32_of_lt {n : ℕ} (hn : n < 2147483648) : int32 n = n :=
  int32_of_mem (by omega) (by omega)

theorem ofInt_natCast (n : ℕ) : UInt64.ofInt n = UInt64.ofNat n := by
  apply UInt64.toNat_inj.mp
  rw [UInt64.ofInt, UInt64.toNat_ofNat', UInt64.toNat_ofNat']
  omega

theorem int32_add_mul (n k : ℤ) : int32 (n + 4294967296 * k) = int32 n := by
  rw [int32, int32, BitVec.toInt_ofInt, BitVec.toInt_ofInt]
  exact Int.add_mul_bmod_self_left n (2 ^ 32) k

/-- An `int` gets the low 32 bits of a 64-bit number, whatever its sign was. -/
theorem int32_toNat_ofInt (z : ℤ) : int32 (UInt64.ofInt z).toNat = int32 z := by
  have hcast : (((UInt64.ofInt z).toNat : ℕ) : ℤ) = z % 2 ^ 64 := by
    rw [UInt64.ofInt, UInt64.toNat_ofNat']
    omega
  rw [hcast, Int.emod_def, show z - 2 ^ 64 * (z / 2 ^ 64) =
    z + 4294967296 * (-4294967296 * (z / 2 ^ 64)) by ring, int32_add_mul]

/-- `sizeof(Inode)` -/
abbrev sizeofInode : ℕ := 184

/-- `USABLE_BLOCK_SIZE / sizeof(Inode)` -/
abbrev inodesPerPage : ℕ := usableBlockSize / sizeofInode

/-- `Superblock` -/
structure Superblock where
  magicNumber : UInt64
  blockSize : UInt64
  totalBlocks : UInt64
  freeBlocks : UInt64
  inodeBitmap : UInt64
  rootInode : UInt64
  btreeRoot : UInt64
  volumeName : Vector UInt8 32
  creationTime : UInt64
  lastMountTime : UInt64
deriving Inhabited, DecidableEq

namespace Superblock

/-- The superblock stored in a page. -/
def ofPage (pg : Bytes) : Superblock where
  magicNumber := load64 pg 4
  blockSize := load64 pg 12
  totalBlocks := load64 pg 20
  freeBlocks := load64 pg 28
  inodeBitmap := load64 pg 36
  rootInode := load64 pg 44
  btreeRoot := load64 pg 52
  volumeName := Vector.ofFn fun i : Fin 32 => pg (60 + i)
  creationTime := load64 pg 92
  lastMountTime := load64 pg 100

/-- Store the superblock in a page. -/
def toPage (sb : Superblock) (pg : Bytes) : Bytes :=
  let pg := store64 pg 4 sb.magicNumber
  let pg := store64 pg 12 sb.blockSize
  let pg := store64 pg 20 sb.totalBlocks
  let pg := store64 pg 28 sb.freeBlocks
  let pg := store64 pg 36 sb.inodeBitmap
  let pg := store64 pg 44 sb.rootInode
  let pg := store64 pg 52 sb.btreeRoot
  let pg := copyIn pg 60 32 fun i => sb.volumeName.toArray.getD i 0
  let pg := store64 pg 92 sb.creationTime
  store64 pg 100 sb.lastMountTime

/-- What is stored is read back. -/
@[simp] theorem ofPage_toPage (sb : Superblock) (pg : Bytes) : ofPage (toPage sb pg) = sb := by
  obtain ⟨magic, bsize, total, free, ibitmap, rootInode, btreeRoot, name, ctime, mtime⟩ := sb
  have hname : (Vector.ofFn fun i : Fin 32 => (toPage ⟨magic, bsize, total, free, ibitmap, rootInode,
      btreeRoot, name, ctime, mtime⟩ pg) (60 + i)) = name := by
    apply Vector.ext
    intro i hi
    simp (disch := omega) only [Vector.getElem_ofFn, toPage, store64_apply_ne, copyIn_apply]
    simp [hi]
  rw [ofPage, hname]
  simp (disch := omega) only [toPage, load64_store64_same, load64_store64_ne, load64_copyIn_ne]

theorem toPage_apply {sb : Superblock} {pg : Bytes} {o : ℕ} (ho : o < 4 ∨ 108 ≤ o) :
    toPage sb pg o = pg o := by
  simp (disch := omega) only [toPage, store64_apply_ne, copyIn_apply_ne]

@[simp] theorem blockType_toPage (sb : Superblock) (pg : Bytes) :
    blockType (toPage sb pg) = blockType pg :=
  blockType_congr fun _ ho => toPage_apply (Or.inl ho)

end Superblock

/-! ## Reading and writing block 0 -/

/-- `superblock_read`; `none` is the return value `-1`, which leaves the caller's copy as it was. -/
def superblockRead : BlockProg (Option Superblock) := do
  fetch 0 0
  let pg ← page 0
  if blockType pg ≠ BlockType.super.code then pure none
  else pure (some (Superblock.ofPage pg))

/-- `superblock_write` -/
def superblockWrite (sb : Superblock) : BlockProg ℤ := do
  fetch 0 0
  let pg ← page 0
  if blockType pg ≠ BlockType.super.code then
    pure (-1)
  else do
    modify 0 sb.toPage
    writeBack 0 0
    pure 0

/-! ## The sizes of the metadata areas -/

/-- `calculate_inode_bitmap_size` -/
def calculateInodeBitmapSize (sb : Superblock) : ℤ :=
  let total := sb.totalBlocks.toNat
  int32 (if total % (4 * usableBlockSize) ≠ 0 then total / (4 * usableBlockSize) + 1
    else total / (4 * usableBlockSize) : ℕ)

/-- `calculate_inode_table_size` -/
def calculateInodeTableSize (sb : Superblock) : ℤ :=
  int32 (sb.totalBlocks.toNat / 4 / inodesPerPage : ℕ)

/-- `superblock_initialize`; `now` is the time it reads from the clock. -/
def superblockInitialize (disk : DiskInterface) (now : UInt64) (volumeName : List UInt8) :
    BlockProg ℤ :=
  if volumeName.length > 31 then
    pure (-1)
  else do
    fetch 0 0
    modify 0 (setBlockType BlockType.super)
    modify 0 fun pg => { Superblock.ofPage pg with
      magicNumber := 0x53465452424e
      blockSize := UInt64.ofNat blockSize
      totalBlocks := disk.totalBlocks
      freeBlocks := disk.totalBlocks }.toPage pg
    let pg ← page 0
    let total := (Superblock.ofPage pg).totalBlocks.toNat
    let blockBitmapSpace := UInt32.ofNat (if total % usableBlockSize ≠ 0 then
      total / usableBlockSize + 1 else total / usableBlockSize)
    modify 0 fun pg => { Superblock.ofPage pg with
      inodeBitmap := 1 + blockBitmapSpace.toUInt64 }.toPage pg
    -- `strcpy` copies the terminating zero too and leaves the bytes behind it
    modify 0 fun pg => copyIn pg 60 (volumeName.length + 1) fun i => volumeName.getD i 0
    modify 0 fun pg => { Superblock.ofPage pg with creationTime := now }.toPage pg
    pure 0

/-! ## The layout as numbers of blocks -/

section Layout

/-- Number of blocks of the block bitmap of a volume of `total` blocks. -/
def blockBitmapBlocks (total : ℕ) : ℕ :=
  if total % 4092 ≠ 0 then total / 4092 + 1 else total / 4092

/-- Number of blocks of the inode bitmap. -/
def inodeBitmapBlocks (total : ℕ) : ℕ :=
  if total % 16368 ≠ 0 then total / 16368 + 1 else total / 16368

/-- Number of blocks of the inode table. -/
def inodeTableBlocks (total : ℕ) : ℕ := total / 4 / 22

/-- First block of the inode bitmap. -/
def inodeBitmapStart (total : ℕ) : ℕ := 1 + blockBitmapBlocks total

/-- First block of the inode table. -/
def inodeTableStart (total : ℕ) : ℕ := inodeBitmapStart total + inodeBitmapBlocks total

/-- First block after the metadata. -/
def dataStart (total : ℕ) : ℕ := inodeTableStart total + inodeTableBlocks total

theorem le_blockBitmapBlocks (total : ℕ) : total ≤ 4092 * blockBitmapBlocks total := by
  rw [blockBitmapBlocks]
  split <;> omega

theorem blockBitmapBlocks_le (total : ℕ) : 4092 * blockBitmapBlocks total < total + 4092 := by
  rw [blockBitmapBlocks]
  split <;> omega

theorem le_inodeBitmapBlocks (total : ℕ) : total ≤ 16368 * inodeBitmapBlocks total := by
  rw [inodeBitmapBlocks]
  split <;> omega

theorem inodeBitmapBlocks_le (total : ℕ) : 16368 * inodeBitmapBlocks total < total + 16368 := by
  rw [inodeBitmapBlocks]
  split <;> omega

/-- The inode bitmap has a bit for every slot of the table. -/
theorem inodeTable_le_inodeBitmap (total : ℕ) :
    22 * inodeTableBlocks total ≤ 4092 * inodeBitmapBlocks total := by
  have h := le_inodeBitmapBlocks total
  rw [inodeTableBlocks]
  omega

end Layout

section LayoutOf

variable {sb : Superblock} {total : ℕ}

theorem calculateInodeBitmapSize_eq (htotal : sb.totalBlocks.toNat = total)
    (hlt : total < 34359738368) : calculateInodeBitmapSize sb = inodeBitmapBlocks total := by
  have h := inodeBitmapBlocks_le total
  simp only [calculateInodeBitmapSize, htotal, usableBlockSize]
  exact int32_of_lt (n := inodeBitmapBlocks total) (by omega)

theorem calculateInodeTableSize_eq (htotal : sb.totalBlocks.toNat = total)
    (hlt : total < 34359738368) : calculateInodeTableSize sb = inodeTableBlocks total := by
  simp only [calculateInodeTableSize, htotal, inodesPerPage, usableBlockSize, sizeofInode]
  exact int32_of_lt (n := inodeTableBlocks total) (by rw [inodeTableBlocks]; omega)

end LayoutOf

/-! ## What the accessors do on a superblock page -/

variable {M : Mapping} {m : Image}

theorem run_superblockRead (haddr : M.addr 0 = some 0)
    (htype : blockType (m 0) = BlockType.super.code) :
    run M superblockRead m = some (some (Superblock.ofPage (m 0)), m) := by
  rw [superblockRead, run_bind_of_eq (run_fetch 0 0), run_bind_of_eq (run_page haddr),
    if_neg (not_not.mpr htype), run_pure]

theorem run_superblockRead_of_ne (haddr : M.addr 0 = some 0)
    (htype : blockType (m 0) ≠ BlockType.super.code) :
    run M superblockRead m = some (none, m) := by
  rw [superblockRead, run_bind_of_eq (run_fetch 0 0), run_bind_of_eq (run_page haddr),
    if_pos htype, run_pure]

theorem run_superblockWrite (sb : Superblock) (haddr : M.addr 0 = some 0)
    (htype : blockType (m 0) = BlockType.super.code) :
    run M (superblockWrite sb) m = some (0, Function.update m 0 (sb.toPage (m 0))) := by
  rw [superblockWrite, run_bind_of_eq (run_fetch 0 0), run_bind_of_eq (run_page haddr),
    if_neg (not_not.mpr htype), run_bind_of_eq (run_modify _ haddr),
    run_bind_of_eq (run_writeBack 0 0), run_pure]

theorem exists_run_superblockWrite (sb : Superblock) (haddr : M.addr 0 = some 0)
    (htype : blockType (m 0) = BlockType.super.code) :
    ∃ m', run M (superblockWrite sb) m = some (0, m') ∧ m' 0 = sb.toPage (m 0) ∧
      ∀ c ≠ 0, m' c = m c :=
  ⟨_, run_superblockWrite sb haddr htype, Function.update_self _ _ _,
    fun _ hc => Function.update_of_ne hc _ _⟩

theorem run_superblockWrite_of_ne (sb : Superblock) (haddr : M.addr 0 = some 0)
    (htype : blockType (m 0) ≠ BlockType.super.code) :
    run M (superblockWrite sb) m = some (-1, m) := by
  rw [superblockWrite, run_bind_of_eq (run_fetch 0 0), run_bind_of_eq (run_page haddr),
    if_pos htype, run_pure]

variable {disk : DiskInterface}

/-- Number of blocks of the block bitmap, as the `uint32_t` that `superblock_initialize` computes. -/
theorem ofNat32_blockBitmapBlocks (disk : DiskInterface) :
    (UInt32.ofNat (blockBitmapBlocks disk.totalBlocks.toNat)).toUInt64 =
      UInt64.ofNat (blockBitmapBlocks disk.totalBlocks.toNat) := by
  have h := blockBitmapBlocks_le disk.totalBlocks.toNat
  have := disk.mapped
  apply UInt64.toNat_inj.mp
  rw [UInt32.toNat_toUInt64, UInt32.toNat_ofNat_of_lt', UInt64.toNat_ofNat_of_lt']
  · show _ < 2 ^ 64
    omega
  · show _ < 2 ^ 32
    omega

/-- With a name that fits, `superblock_initialize` describes the volume in block 0. -/
theorem run_superblockInitialize (disk : DiskInterface) (now : UInt64) {volumeName : List UInt8}
    (hname : volumeName.length ≤ 31) (haddr : M.addr 0 = some 0) :
    ∃ pg, run M (superblockInitialize disk now volumeName) m = some (0, Function.update m 0 pg) ∧
      blockType pg = BlockType.super.code ∧
      (Superblock.ofPage pg).totalBlocks = disk.totalBlocks ∧
      (Superblock.ofPage pg).freeBlocks = disk.totalBlocks ∧
      (Superblock.ofPage pg).inodeBitmap =
        UInt64.ofNat (inodeBitmapStart disk.totalBlocks.toNat) := by
  have hcopy : ∀ pg src,
      (Superblock.ofPage (copyIn pg 60 (volumeName.length + 1) src)).totalBlocks =
          (Superblock.ofPage pg).totalBlocks ∧
        (Superblock.ofPage (copyIn pg 60 (volumeName.length + 1) src)).freeBlocks =
          (Superblock.ofPage pg).freeBlocks ∧
        (Superblock.ofPage (copyIn pg 60 (volumeName.length + 1) src)).inodeBitmap =
          (Superblock.ofPage pg).inodeBitmap := by
    intro pg src
    simp (disch := omega) only [Superblock.ofPage, load64_copyIn_ne, and_self]
  have hcopyType : ∀ pg src,
      blockType (copyIn pg 60 (volumeName.length + 1) src) = blockType pg := fun pg src =>
    blockType_congr fun o ho => copyIn_apply_ne (by omega)
  have hbits : (if disk.totalBlocks.toNat % usableBlockSize ≠ 0 then
      disk.totalBlocks.toNat / usableBlockSize + 1 else disk.totalBlocks.toNat / usableBlockSize) =
      blockBitmapBlocks disk.totalBlocks.toNat := rfl
  rw [superblockInitialize, if_neg (by omega), run_bind_of_eq (run_fetch _ _),
    run_bind_of_eq (run_modify _ haddr), run_bind_of_eq (run_modify _ haddr),
    run_bind_of_eq (run_page haddr), run_bind_of_eq (run_modify _ haddr),
    run_bind_of_eq (run_modify _ haddr), run_bind_of_eq (run_modify _ haddr), run_pure]
  simp only [Function.update_self, Function.update_idem]
  refine ⟨_, rfl, ?_, ?_, ?_, ?_⟩
  · simp only [Superblock.blockType_toPage, hcopyType, blockType_setBlockType]
  · rw [Superblock.ofPage_toPage]
    simp only [hcopy, Superblock.ofPage_toPage]
  · rw [Superblock.ofPage_toPage]
    simp only [hcopy, Superblock.ofPage_toPage]
  · rw [Superblock.ofPage_toPage]
    simp only [hcopy, Superblock.ofPage_toPage]
    rw [hbits, ofNat32_blockBitmapBlocks, inodeBitmapStart, UInt64.ofNat_add]
    rfl
end Nbtrfs
