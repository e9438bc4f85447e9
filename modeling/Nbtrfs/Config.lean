import Nbtrfs.Lib.BlockProg

/-!
# Volume configuration and block addressing

Reference: `config.h`, `types.h`, `disk.c::disk_get_block`.
-/

namespace Nbtrfs

/-- `BLOCK_SIZE` -/
abbrev blockSize : ℕ := 4096

/-- `USABLE_BLOCK_SIZE`: what is left of a block after its type header. It is also the number of
bits that one bitmap block contributes. -/
abbrev usableBlockSize : ℕ := 4092

/-- `MAX_KEYS` -/
abbrev maxKeys : ℕ := 250

/-- `MIN_KEYS` -/
abbrev minKeys : ℕ := maxKeys / 2

/-- `HASHMAP_SIZE` -/
abbrev hashmapSize : ℕ := 32

/-- `block_type_t`: what a block holds, stored in its first four bytes. -/
inductive BlockType where
  | data
  | btreeNode
  | bitmap
  | inode
  | super
  | journal
deriving DecidableEq, Repr

/-- The stored value of a block type. -/
def BlockType.code : BlockType → UInt32
  | data => 0
  | btreeNode => 1
  | bitmap => 2
  | inode => 3
  | super => 4
  | journal => 5

theorem BlockType.code_injective : Function.Injective BlockType.code := by
  intro s t h
  cases s <;> cases t <;> first | rfl | exact absurd h (by decide)

/-- `*block_type` for a page. -/
def blockType (pg : Bytes) : UInt32 := Bytes.load32 pg 0

/-- `*block_type = t` on a page. -/
def setBlockType (t : BlockType) (pg : Bytes) : Bytes := Bytes.store32 pg 0 t.code

@[simp] theorem blockType_setBlockType (t : BlockType) (pg : Bytes) :
    blockType (setBlockType t pg) = t.code :=
  Bytes.load32_store32_same pg 0 t.code

/-- The type header depends on the first four bytes only. -/
theorem blockType_congr {pg pg' : Bytes} (h : ∀ o < 4, pg' o = pg o) :
    blockType pg' = blockType pg :=
  Bytes.load32_congr (by simpa using h)

theorem setBlockType_apply {t : BlockType} {pg : Bytes} {o : ℕ} (ho : 4 ≤ o) :
    setBlockType t pg o = pg o :=
  Bytes.leStore_apply_of_not_mem (Or.inr ho)

/-- The byte offset `BLOCK_SIZE * pnum`, computed in `int`: the block number arrives as an `int` and
the product wraps at 32 bits. -/
def byteOffset (pnum : ℕ) : ℤ := (BitVec.ofNat 32 (4096 * pnum)).toInt

theorem byteOffset_of_lt {p : ℕ} (hp : p < 524288) : byteOffset p = 4096 * p := by
  rw [byteOffset, BitVec.toInt_eq_toNat_cond, BitVec.toNat_ofNat, Nat.mod_eq_of_lt (by omega),
    if_pos (by omega)]
  omega

/-- From block `2 ^ 19 = 524288` on the product overflows into the sign bit. -/
theorem byteOffset_neg {p : ℕ} (hlo : 524288 ≤ p) (hhi : p < 1048576) : byteOffset p < 0 := by
  rw [byteOffset, BitVec.toInt_eq_toNat_cond, BitVec.toNat_ofNat, Nat.mod_eq_of_lt (by omega),
    if_neg (by omega)]
  omega

/-- `DiskInterface`, less the file handle: the mapped bytes are the `Image` a program runs on.
`disk_open` asserts that the whole file could be mapped, and a mapping is smaller than the 47-bit
user address space. -/
structure DiskInterface where
  totalBlocks : UInt64
  mapped : 4096 * totalBlocks.toNat < 2 ^ 47

namespace DiskInterface

variable (disk : DiskInterface)

/-- `disk_get_block`: the block that `disk_base + BLOCK_SIZE * pnum` points to. An address outside
the mapped file faults. -/
def diskGetBlock (pnum : UInt64) : Option ℕ :=
  if 0 ≤ byteOffset pnum.toNat ∧ byteOffset pnum.toNat < 4096 * (disk.totalBlocks.toNat : ℤ) then
    some ((byteOffset pnum.toNat).toNat / 4096)
  else none

/-- The volume with `get_block` as compiled under `CACHE_DISABLED`. -/
def mapping : Mapping where
  blockSize := blockSize
  blocks := disk.totalBlocks.toNat
  addr := disk.diskGetBlock

/-- The same volume with the address arithmetic taken as exact. -/
def exactMapping : Mapping where
  blockSize := blockSize
  blocks := disk.totalBlocks.toNat
  addr p := if p.toNat < disk.totalBlocks.toNat then some p.toNat else none

variable {disk}

theorem diskGetBlock_of_lt {p : UInt64} (hp : p.toNat < disk.totalBlocks.toNat)
    (hwrap : p.toNat < 524288) : disk.diskGetBlock p = some p.toNat := by
  rw [diskGetBlock, byteOffset_of_lt hwrap, if_pos (by omega)]
  simp only [Option.some.injEq]
  omega

theorem diskGetBlock_eq_none {p : UInt64} (hlo : 524288 ≤ p.toNat) (hhi : p.toNat < 1048576) :
    disk.diskGetBlock p = none := by
  have hneg := byteOffset_neg hlo hhi
  rw [diskGetBlock, if_neg (by omega)]

theorem diskGetBlock_of_le {p : UInt64} (htotal : disk.totalBlocks.toNat ≤ p.toNat)
    (hwrap : p.toNat < 524288) : disk.diskGetBlock p = none := by
  rw [diskGetBlock, byteOffset_of_lt hwrap, if_neg (by omega)]

/-- Below `2 ^ 20` a block number that reaches the device at all reaches the block of that number. -/
theorem eq_of_diskGetBlock {p : UInt64} {b : ℕ} (h : disk.diskGetBlock p = some b)
    (hp : p.toNat < 1048576) : b = p.toNat := by
  by_cases hwrap : p.toNat < 524288
  · by_cases htotal : p.toNat < disk.totalBlocks.toNat
    · exact (Option.some.inj ((diskGetBlock_of_lt htotal hwrap).symm.trans h)).symm
    · rw [diskGetBlock_of_le (by omega) hwrap] at h
      cases h
  · rw [diskGetBlock_eq_none (by omega) hp] at h
    cases h

theorem lt_of_diskGetBlock {p : UInt64} {b : ℕ} (h : disk.diskGetBlock p = some b)
    (hp : p.toNat < 1048576) : p.toNat < 524288 := by
  by_contra hge
  rw [diskGetBlock_eq_none (by omega) hp] at h
  cases h

/-- The block numbers that exist and whose byte offset fits an `int`. -/
abbrev addressable (disk : DiskInterface) : ℕ := min disk.totalBlocks.toNat 524288

/-- A block number just past the addressable ones does not reach the device. -/
theorem mapping_addr_eq_none {b : ℕ} (hlo : disk.addressable ≤ b) (hhi : b < 1048576) :
    disk.mapping.addr (UInt64.ofNat b) = none := by
  have hb : (UInt64.ofNat b).toNat = b := UInt64.toNat_ofNat_of_lt' (by
    show b < 2 ^ 64
    omega)
  by_cases hwrap : b < 524288
  · have htotal : disk.totalBlocks.toNat ≤ b := by
      simp only [addressable] at hlo
      omega
    exact diskGetBlock_of_le (by omega) (by omega)
  · exact diskGetBlock_eq_none (by omega) (by omega)

theorem mapping_exactTo : disk.mapping.ExactTo disk.addressable := by
  intro p hp
  obtain ⟨htotal, hwrap⟩ := lt_min_iff.mp hp
  exact diskGetBlock_of_lt htotal hwrap

theorem exactMapping_exactTo : disk.exactMapping.ExactTo disk.totalBlocks.toNat :=
  fun _ hp => if_pos hp

end DiskInterface

/-- What every mapping of this file system has: 4096-byte blocks. -/
structure Volume (M : Mapping) (disk : DiskInterface) : Prop where
  blockSize_eq : M.blockSize = blockSize
  blocks_eq : M.blocks = disk.totalBlocks.toNat

theorem DiskInterface.volume_mapping (disk : DiskInterface) : Volume disk.mapping disk :=
  ⟨rfl, rfl⟩

theorem DiskInterface.volume_exactMapping (disk : DiskInterface) : Volume disk.exactMapping disk :=
  ⟨rfl, rfl⟩

theorem total_lt (disk : DiskInterface) : disk.totalBlocks.toNat < 34359738368 := by
  have := disk.mapped
  omega

theorem toNat_ofNat_block {b : ℕ} (hb : b < 1099511627776) : (UInt64.ofNat b).toNat = b :=
  UInt64.toNat_ofNat_of_lt' (by
    show b < 2 ^ 64
    omega)

theorem ofNat_block_ne_zero {b : ℕ} (hpos : 0 < b) (hb : b < 1099511627776) :
    UInt64.ofNat b ≠ 0 := by
  intro h
  have hnat := toNat_ofNat_block hb
  rw [h, UInt64.toNat_zero] at hnat
  omega

end Nbtrfs
