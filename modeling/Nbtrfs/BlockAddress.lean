import Nbtrfs.Cache.Ops

/-!
# The bytes behind a block number

Reference: `disk.c`, `disk_get_block`, `disk_read_block` and `disk_write_block`.

The address of a block is `disk_base + BLOCK_SIZE * pnum` with the product taken in `int`. It is the
address of the block as long as the product does not wrap, which is up to block `2 ^ 19`, the end of the
first 2 GiB of the image.
-/

namespace Nbtrfs

variable {disk : DiskInterface} {p q : UInt64}

/-- The bytes of the mapping behind the pointer that `disk_get_block` returns, as many as
`disk_read_block` and `disk_write_block` copy. -/
def blockBytes (pnum : UInt64) : Set ℤ :=
  Set.Ico (byteOffset pnum.toNat) (byteOffset pnum.toNat + blockSize)

/-- All three functions access the bytes of block `p` in the mapping, and no others. -/
structure AccessesBlock (disk : DiskInterface) (p : UInt64) : Prop where
  get : blockBytes p = Set.Ico (4096 * p.toNat : ℤ) (4096 * p.toNat + 4096)
  read : ∀ m, ∃ buf, diskReadBlock disk m p = some buf ∧
    ∀ o < 4096, buf o = disk.mapping.flat m (4096 * p.toNat + o)
  write : ∀ m buf, ∃ m', diskWriteBlock disk m p buf = some m' ∧
    ∀ a, disk.mapping.flat m' a =
      if 4096 * p.toNat ≤ a ∧ a < 4096 * p.toNat + 4096 then buf (a - 4096 * p.toNat)
      else disk.mapping.flat m a

/-- The blocks of the image are told apart: each has its own bytes, and a write to one block is not
seen by a read of another. -/
structure BlocksApart (disk : DiskInterface) : Prop where
  accesses : ∀ p : UInt64, p.toNat < disk.totalBlocks.toNat → AccessesBlock disk p
  disjoint : ∀ p q : UInt64, p.toNat < disk.totalBlocks.toNat →
    q.toNat < disk.totalBlocks.toNat → p ≠ q → ∀ a ∈ blockBytes p, a ∉ blockBytes q
  unaffected : ∀ p q : UInt64, p.toNat < disk.totalBlocks.toNat →
    q.toNat < disk.totalBlocks.toNat → p ≠ q → ∀ m buf m',
      diskWriteBlock disk m p buf = some m' → diskReadBlock disk m' q = diskReadBlock disk m q

/-- The product is exact below `2 ^ 19` only. -/
theorem byteOffset_eq_iff {b : ℕ} : byteOffset b = 4096 * b ↔ b < 524288 := by
  refine ⟨fun h => ?_, byteOffset_of_lt⟩
  have hlt : byteOffset b < 2 ^ 31 := BitVec.toInt_lt
  omega

theorem blockBytes_eq (hp : p.toNat < 524288) :
    blockBytes p = Set.Ico (4096 * p.toNat : ℤ) (4096 * p.toNat + 4096) := by
  rw [blockBytes, byteOffset_of_lt hp]
  rfl

/-- The page of a block, byte by byte. -/
theorem flat_mapping_apply {m : Image} {b o : ℕ} (ho : o < 4096) :
    disk.mapping.flat m (4096 * b + o) = m b o :=
  Mapping.flat_apply ho

/-- Replacing one page changes the bytes of the mapping at this page and no others. -/
theorem flat_mapping_update {m : Image} {b a : ℕ} {buf : Bytes} :
    disk.mapping.flat (Function.update m b buf) a =
      if 4096 * b ≤ a ∧ a < 4096 * b + 4096 then buf (a - 4096 * b) else disk.mapping.flat m a := by
  show Function.update m b buf (a / 4096) (a % 4096) = _
  by_cases hin : 4096 * b ≤ a ∧ a < 4096 * b + 4096
  · have hdiv : a / 4096 = b := by omega
    have hmod : a % 4096 = a - 4096 * b := by omega
    rw [if_pos hin, hdiv, Function.update_self, hmod]
  · rw [if_neg hin, Function.update_of_ne (by omega)]
    rfl

/-- A block number below `2 ^ 19` is addressed exactly. -/
theorem accessesBlock_of_lt (hp : p.toNat < disk.totalBlocks.toNat) (hwrap : p.toNat < 524288) :
    AccessesBlock disk p where
  get := blockBytes_eq hwrap
  read m := by
    refine ⟨m p.toNat, ?_, fun o ho => (flat_mapping_apply ho).symm⟩
    rw [diskReadBlock, DiskInterface.diskGetBlock_of_lt hp hwrap, Option.map_some]
  write m buf := by
    refine ⟨Function.update m p.toNat buf, ?_, fun a => flat_mapping_update⟩
    rw [diskWriteBlock, DiskInterface.diskGetBlock_of_lt hp hwrap, Option.map_some]

theorem AccessesBlock.lt (h : AccessesBlock disk p) : p.toNat < 524288 := by
  have hmem : byteOffset p.toNat ∈ blockBytes p := ⟨le_rfl, by simp only [blockSize]; omega⟩
  have hfirst : (4096 * p.toNat : ℤ) ∈ blockBytes p := by
    rw [h.get]
    exact ⟨le_rfl, by omega⟩
  rw [h.get] at hmem
  exact byteOffset_eq_iff.mp (le_antisymm hfirst.1 hmem.1)

/-- Different blocks have different bytes. -/
theorem disjoint_blockBytes (hp : p.toNat < 524288) (hq : q.toNat < 524288) (hne : p ≠ q) :
    ∀ a ∈ blockBytes p, a ∉ blockBytes q := by
  have hnat : p.toNat ≠ q.toNat := fun h => hne (UInt64.toNat_inj.mp h)
  rw [blockBytes_eq hp, blockBytes_eq hq]
  rintro a ⟨hlo, hhi⟩ ⟨hlo', hhi'⟩
  omega

/-- The address of a block is that of its bytes exactly below block `2 ^ 19`: the blocks of an image are
told apart if and only if it has no more blocks than that. -/
theorem accessesBlock_iff (disk : DiskInterface) :
    (∀ p : UInt64, p.toNat < disk.totalBlocks.toNat →
      (AccessesBlock disk p ↔ p.toNat < 524288)) ∧
    (BlocksApart disk ↔ disk.totalBlocks.toNat ≤ 524288) := by
  refine ⟨fun p hp => ⟨AccessesBlock.lt, accessesBlock_of_lt hp⟩, fun h => ?_, fun hle => ?_⟩
  · by_contra hgt
    have hblock : (524288 : UInt64).toNat = 524288 := rfl
    have hlt := (h.accesses 524288 (by omega)).lt
    omega
  · refine ⟨fun p hp => accessesBlock_of_lt hp (by omega), fun p q hp hq hne =>
      disjoint_blockBytes (by omega) (by omega) hne, fun p q hp hq hne m buf m' hwrite => ?_⟩
    have hnat : q.toNat ≠ p.toNat := fun h => hne (UInt64.toNat_inj.mp h).symm
    rw [diskWriteBlock, DiskInterface.diskGetBlock_of_lt hp (by omega), Option.map_some] at hwrite
    obtain rfl := Option.some.inj hwrite
    rw [diskReadBlock, diskReadBlock, DiskInterface.diskGetBlock_of_lt hq (by omega),
      Option.map_some, Option.map_some, Function.update_of_ne hnat]

/-- An image of 2 GiB and one block more: its last block lies before the mapping. -/
theorem not_blocksApart_524289 : ¬∀ disk : DiskInterface, disk.totalBlocks.toNat < 2 ^ 31 →
    ∀ p : UInt64, p.toNat < disk.totalBlocks.toNat → AccessesBlock disk p := by
  intro h
  have hlt := (h ⟨524289, by decide⟩ (by decide) 524288 (by decide)).lt
  exact absurd hlt (by decide)

end Nbtrfs
