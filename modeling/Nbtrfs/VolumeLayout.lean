import Nbtrfs.Format

/-!
# The volume that formatting leaves

What `disk_format` writes is read back here the way the rest of the code finds it: the areas are
computed from the fields of the stored superblock.
-/

namespace Nbtrfs

open BlockProg

/-- First block of the inode bitmap, as the stored superblock has it. -/
def storedBitmapStart (m : Image) : ℕ := (Superblock.ofPage (m 0)).inodeBitmap.toNat

/-- First block of the inode table. -/
def storedTableStart (m : Image) : ℕ :=
  storedBitmapStart m + (calculateInodeBitmapSize (Superblock.ofPage (m 0))).toNat

/-- First block behind the inode table. -/
def storedTableEnd (m : Image) : ℕ :=
  storedTableStart m + (calculateInodeTableSize (Superblock.ofPage (m 0))).toNat

/-- A sound volume: four areas one behind the other, with their types, large enough for each other;
exactly the blocks up to the root node behind them are taken, and inode 0; the root node is empty. -/
structure SoundVolume (disk : DiskInterface) (m : Image) : Prop where
  blockBitmap_lt : 1 < storedBitmapStart m
  inodeBitmap_lt : storedBitmapStart m < storedTableStart m
  inodeTable_lt : storedTableStart m < storedTableEnd m
  inside : storedTableEnd m < disk.totalBlocks.toNat
  superType : blockType (m 0) = BlockType.super.code
  blockBitmapType : ∀ b, 1 ≤ b → b < storedBitmapStart m → blockType (m b) = BlockType.bitmap.code
  inodeBitmapType : ∀ b, storedBitmapStart m ≤ b → b < storedTableStart m →
    blockType (m b) = BlockType.bitmap.code
  inodeTableType : ∀ b, storedTableStart m ≤ b → b < storedTableEnd m →
    blockType (m b) = BlockType.inode.code
  blockCapacity : disk.totalBlocks.toNat ≤ usableBlockSize * (storedBitmapStart m - 1)
  inodeCapacity : inodesPerPage * (storedTableEnd m - storedTableStart m) ≤
    usableBlockSize * (storedTableStart m - storedBitmapStart m)
  blockBits : ∀ b < usableBlockSize * (storedBitmapStart m - 1),
    blockBit m b = true ↔ b ≤ storedTableEnd m
  inodeBits : ∀ n < usableBlockSize * (storedTableStart m - storedBitmapStart m),
    areaBit m (storedBitmapStart m) n = true ↔ n = 0
  btreeRoot : (Superblock.ofPage (m 0)).btreeRoot.toNat = storedTableEnd m
  rootType : blockType (m (storedTableEnd m)) = BlockType.btreeNode.code
  rootNode : ∃ node : BTreeNode, BTreeNode.ofPage (m (storedTableEnd m)) =
    node.init (UInt64.ofNat (storedTableEnd m)) false

/-- The root node of a sound volume is internal, without keys and children, and its value is 0. -/
theorem SoundVolume.root_empty {disk : DiskInterface} {m : Image} (h : SoundVolume disk m) :
    (BTreeNode.ofPage (m (storedTableEnd m))).isLeaf = 0 ∧
      (BTreeNode.ofPage (m (storedTableEnd m))).numKeys = 0 ∧
      (∀ i, (BTreeNode.ofPage (m (storedTableEnd m))).childAt i = 0) ∧
      (BTreeNode.ofPage (m (storedTableEnd m))).value = 0 := by
  obtain ⟨node, hnode⟩ := h.rootNode
  rw [hnode]
  exact ⟨rfl, rfl, fun i => BTreeNode.word_init .., rfl⟩

variable {M : Mapping} {disk : DiskInterface} {m : Image} {uid gid : UInt32}

/-! ## The stored numbers -/

theorem Described.storedBitmapStart (D : Described M disk m) :
    storedBitmapStart m = inodeBitmapStart disk.totalBlocks.toNat := by
  have hlt := inodeBitmapStart_lt disk
  rw [Nbtrfs.storedBitmapStart, D.inodeBitmap, toNat_ofNat_block (by omega)]

theorem Described.storedTableStart (D : Described M disk m) :
    storedTableStart m = inodeTableStart disk.totalBlocks.toNat := by
  rw [Nbtrfs.storedTableStart, D.storedBitmapStart, calculateInodeBitmapSize_eq (by rw [D.total])
    (total_lt disk), Int.toNat_natCast, inodeTableStart]

theorem Described.storedTableEnd (D : Described M disk m) :
    storedTableEnd m = dataStart disk.totalBlocks.toNat := by
  rw [Nbtrfs.storedTableEnd, D.storedTableStart, calculateInodeTableSize_eq (by rw [D.total])
    (total_lt disk), Int.toNat_natCast, dataStart]

/-- Formatting leaves a sound volume if the table has a block and the root node fits. -/
theorem Formatted.soundVolume (F : Formatted M disk uid gid m)
    (hfit : dataStart disk.totalBlocks.toNat < disk.totalBlocks.toNat)
    (hslots : 0 < inodeTableBlocks disk.totalBlocks.toNat) : SoundVolume disk m := by
  have L := F.layout
  have hlt := dataStart_lt disk
  have hblocks := le_blockBitmapBlocks disk.totalBlocks.toNat
  have hinodes := le_inodeBitmapBlocks disk.totalBlocks.toNat
  have hcap := inodeTable_le_inodeBitmap disk.totalBlocks.toNat
  have hstart : inodeBitmapStart disk.totalBlocks.toNat =
    1 + blockBitmapBlocks disk.totalBlocks.toNat := rfl
  have htable : inodeTableStart disk.totalBlocks.toNat = inodeBitmapStart disk.totalBlocks.toNat +
    inodeBitmapBlocks disk.totalBlocks.toNat := rfl
  have hend : dataStart disk.totalBlocks.toNat = inodeTableStart disk.totalBlocks.toNat +
    inodeTableBlocks disk.totalBlocks.toNat := rfl
  have hpage : inodesPerPage = 22 := rfl
  have hbits : usableBlockSize = 4092 := rfl
  have s := L.storedBitmapStart
  have t := L.storedTableStart
  have e := L.storedTableEnd
  exact {
    blockBitmap_lt := by omega
    inodeBitmap_lt := by omega
    inodeTable_lt := by omega
    inside := by omega
    superType := L.super
    blockBitmapType := fun b h1 hb => L.bitmap b h1 (by omega)
    inodeBitmapType := fun b hlo hhi => L.bitmap b (by omega) (by omega)
    inodeTableType := fun b hlo hhi => L.table b (by omega) (by omega)
    blockCapacity := by
      rw [s, hbits]
      omega
    inodeCapacity := by
      rw [s, t, e, hbits, hpage]
      omega
    blockBits := fun b hb => by
      rw [s, hbits] at hb
      rw [F.blockBit b (by omega), e, decide_eq_true_iff]
    inodeBits := fun n hn => by
      rw [s, t, hbits] at hn
      have hbit := F.inodeBit n (by omega)
      rw [Nbtrfs.inodeBit] at hbit
      rw [s, hbit, decide_eq_true_iff]
    btreeRoot := by rw [F.btreeRoot, e, toNat_ofNat_block (by omega)]
    rootType := by rw [e, F.rootType]
    rootNode := ⟨_, by rw [e, F.rootNode]⟩ }

/-! ## Small and large volumes -/

/-- A volume of 88 blocks or more has an inode table, and room behind it. -/
theorem dataStart_lt_total {total : ℕ} (h : 88 ≤ total) :
    dataStart total < total ∧ 0 < inodeTableBlocks total := by
  have hblocks := blockBitmapBlocks_le total
  have hinodes := inodeBitmapBlocks_le total
  rw [dataStart, inodeTableStart, inodeBitmapStart, inodeTableBlocks]
  omega

/-- An image whose blocks are filled with zeros is blank. -/
theorem blank_of_zero (hfit : dataStart disk.totalBlocks.toNat ≤ disk.totalBlocks.toNat)
    (hzero : ∀ b < disk.totalBlocks.toNat, m b = fun _ => 0) : Blank disk m where
  blockBit b hb := by
    have hend := inodeTableStart_le disk.totalBlocks.toNat
    have hbitmap := inodeBitmapStart_le disk.totalBlocks.toNat
    have hstart : inodeBitmapStart disk.totalBlocks.toNat =
      1 + blockBitmapBlocks disk.totalBlocks.toNat := rfl
    rw [blockBit, areaBit, hzero _ (by omega), bitOf_zero]
  inodeBit n hn := by
    have hend := inodeTableStart_le disk.totalBlocks.toNat
    have htable : inodeTableStart disk.totalBlocks.toNat =
      inodeBitmapStart disk.totalBlocks.toNat + inodeBitmapBlocks disk.totalBlocks.toNat := rfl
    rw [inodeBit, areaBit, hzero _ (by omega), bitOf_zero]

/-- With exact addresses, `disk_format` makes a sound volume of every zero-filled image of at least 88
blocks. -/
theorem diskFormat_soundVolume (htotal : 88 ≤ disk.totalBlocks.toNat)
    (hzero : ∀ b < disk.totalBlocks.toNat, m b = fun _ => 0) (now : UInt64) (uid gid : UInt32)
    {volumeName : List UInt8} (hname : volumeName.length ≤ 31) :
    ∃ m', run disk.exactMapping (diskFormat disk now uid gid volumeName) m = some (0, m') ∧
      SoundVolume disk m' := by
  obtain ⟨hfit, hslots⟩ := dataStart_lt_total htotal
  obtain ⟨m', hrun, F⟩ := run_diskFormat_formatted disk disk.volume_exactMapping
    (DiskInterface.exactMapping_exactTo.mono hfit) hfit hslots (blank_of_zero hfit.le hzero) now uid
    gid hname
  exact ⟨m', hrun, F.soundVolume hfit hslots⟩

/-- A zero-filled image of 88 blocks. -/
theorem diskFormat_soundVolume_88 : ∃ m',
    run (DiskInterface.exactMapping ⟨88, by decide⟩) (diskFormat ⟨88, by decide⟩ 0 0 0 [])
      (fun _ _ => 0) = some (0, m') ∧ SoundVolume ⟨88, by decide⟩ m' :=
  diskFormat_soundVolume (by decide) (fun _ _ => rfl) 0 0 0 (by decide)

end Nbtrfs
