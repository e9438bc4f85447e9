import Nbtrfs.VolumeLayout

/-!
# The slots of the inode table

Reference: `inode.c::inode_read`, `inode.c::inode_write`, `superblock.c`.

The address of a slot is put together from the superblock, the sizes that are computed from it, a quotient
and a remainder. On a volume that is laid out the slots of the table do not overlap and lie behind the block
types of the table blocks, so the table is an array of inodes.
-/

namespace Nbtrfs

open BlockProg

/-- The number of inodes that the table of the stored superblock has room for. -/
def storedCapacity (m : Image) : ℕ :=
  inodesPerPage * (calculateInodeTableSize (Superblock.ofPage (m 0))).toNat

/-- The bytes of the slot of inode `n`: block and offset. -/
def InSlot (m : Image) (n b o : ℕ) : Prop :=
  b = storedTableStart m + n / inodesPerPage ∧ slotOffset (n % inodesPerPage) ≤ o ∧
    o < slotOffset (n % inodesPerPage) + sizeofInode

/-- From `m` to `m'` the slot of `node` took the inode, and nothing else happened. -/
structure SlotWritten (M : Mapping) (m m' : Image) (node : Inode) : Prop where
  read : run M (inodeRead node.inodeNumber) m' = some (some node, m')
  other : ∀ n : UInt64, n ≠ node.inodeNumber → n.toNat < storedCapacity m → ∃ inode,
    run M (inodeRead n) m = some (some inode, m) ∧ run M (inodeRead n) m' = some (some inode, m')
  outside : ∀ b, b < storedTableStart m ∨ storedTableEnd m ≤ b → m' b = m b
  type : ∀ b, blockType (m' b) = blockType (m b)
  bytes : ∀ b o, ¬InSlot m node.inodeNumber.toNat b o → m' b o = m b o
  slots : ∀ n < storedCapacity m, n ≠ node.inodeNumber.toNat → ∀ b o, InSlot m n b o →
    m' b o = m b o

/-- `inode_write` of every inode that the table has room for stores it in its slot. -/
def SlotsIndependent (M : Mapping) (m : Image) : Prop :=
  ∀ node : Inode, node.inodeNumber.toNat < storedCapacity m →
    ∃ m', run M (inodeWrite node) m = some (0, m') ∧ SlotWritten M m m' node

variable {M : Mapping} {disk : DiskInterface} {m : Image} {n k b o : ℕ}

theorem Described.storedCapacity (D : Described M disk m) :
    storedCapacity m = inodeCapacity disk.totalBlocks.toNat := by
  rw [Nbtrfs.storedCapacity, calculateInodeTableSize_eq (by rw [D.total]) (total_lt disk),
    Int.toNat_natCast, inodeCapacity]

/-- Two slots share no byte. -/
theorem InSlot.eq (hn : InSlot m n b o) (hk : InSlot m k b o) : n = k := by
  obtain ⟨hblock, hlo, hhi⟩ := hn
  obtain ⟨hblock', hlo', hhi'⟩ := hk
  simp only [slotOffset, inodesPerPage, usableBlockSize, sizeofInode] at *
  omega

/-- Storing an inode changes the bytes of its slot only. -/
theorem putInode_apply (D : Described M disk m) {node : Inode} (h : ¬InSlot m n b o) :
    putInode disk m n node b o = m b o := by
  by_cases hb : b = slotBlock disk n
  · subst hb
    rw [putInode, Function.update_self]
    refine Inode.toPage_apply ?_
    by_contra hin
    obtain ⟨hlo, hhi⟩ := not_or.mp hin
    refine h ⟨?_, not_lt.mp hlo, not_le.mp hhi⟩
    rw [D.storedTableStart, slotBlock]
  · rw [putInode, Function.update_of_ne hb]

/-- On a volume that is laid out the slots are independent. -/
theorem Layout.slotsIndependent (L : Layout M disk m) : SlotsIndependent M m := by
  intro node hnode
  rw [L.storedCapacity] at hnode
  have L' := L.putInode node.inodeNumber.toNat node
  refine ⟨_, L.run_inodeWrite_slot node hnode, ?_⟩
  exact {
    read := by rw [L'.run_inodeRead_slot hnode, inodeAt_putInode_self]
    other := fun n hn hlt => by
      rw [L.storedCapacity] at hlt
      have hne : n.toNat ≠ node.inodeNumber.toNat := fun h => hn (UInt64.toNat_inj.mp h)
      refine ⟨inodeAt disk m n.toNat, L.run_inodeRead_slot hlt, ?_⟩
      rw [L'.run_inodeRead_slot hlt, inodeAt_putInode_ne hne]
    outside := fun b hb => by
      rw [L.storedTableStart, L.storedTableEnd] at hb
      have hslot : slotBlock disk node.inodeNumber.toNat < _ := slotBlock_lt hnode
      have hge := slotBlock_ge disk node.inodeNumber.toNat
      exact Function.update_of_ne (by omega) _ _
    type := fun b => blockType_putInode b
    bytes := fun b o h => putInode_apply L.toDescribed h
    slots := fun n _ hne b o hn => putInode_apply L.toDescribed fun h => hne (hn.eq h) }

/-- `disk_format` lays out a blank image of any size that it fits on. From there on, as long as the metadata
is in place, `inode_write` and `inode_read` treat the table as an array, and `inode_write` keeps the metadata
in place. -/
theorem inodeSlots_independent (disk : DiskInterface) :
    (∀ m₀ now uid gid volumeName, Blank disk m₀ → volumeName.length ≤ 31 →
      dataStart disk.totalBlocks.toNat < disk.addressable →
      0 < inodeTableBlocks disk.totalBlocks.toNat →
      ∃ m, run disk.mapping (diskFormat disk now uid gid volumeName) m₀ = some (0, m) ∧
        Layout disk.mapping disk m) ∧
    ∀ m, Layout disk.mapping disk m → SlotsIndependent disk.mapping m ∧
      ∀ node m', node.inodeNumber.toNat < storedCapacity m →
        run disk.mapping (inodeWrite node) m = some (0, m') → Layout disk.mapping disk m' := by
  refine ⟨fun m₀ now uid gid volumeName hblank hname hfit hslots => ?_, fun m L =>
    ⟨L.slotsIndependent, fun node m' hnode hrun => ?_⟩⟩
  · obtain ⟨m, hrun, F⟩ := run_diskFormat_blank disk now uid gid hname hblank hfit hslots
    exact ⟨m, hrun, F.layout⟩
  · rw [L.storedCapacity] at hnode
    rw [L.run_inodeWrite_slot node hnode] at hrun
    obtain ⟨-, rfl⟩ := Prod.mk.inj (Option.some.inj hrun)
    exact L.putInode _ node

/-- A zero-filled image of 256 blocks has slots for 44 inodes after formatting. -/
theorem inodeSlots_independent_256 : ∃ m,
    run (DiskInterface.mapping ⟨256, by decide⟩) (diskFormat ⟨256, by decide⟩ 0 0 0 [])
      (fun _ _ => 0) = some (0, m) ∧ storedCapacity m = 44 ∧
      SlotsIndependent (DiskInterface.mapping ⟨256, by decide⟩) m := by
  obtain ⟨m, hrun, L⟩ := (inodeSlots_independent ⟨256, by decide⟩).1 (fun _ _ => 0) 0 0 0 []
    (blank_zero _) (by decide) (by decide) (by decide)
  exact ⟨m, hrun, L.storedCapacity, ((inodeSlots_independent ⟨256, by decide⟩).2 m L).1⟩

end Nbtrfs
