import Nbtrfs.Format
import Nbtrfs.Lib.Runs

/-!
# The blocks of a file

Reference: `inode.c::inode_get_block`, `inode.c::inode_set_block`.

The first 12 entries of the block map are fields of the inode, the others are words of its indirect
block. `inode_set_block` stores an entry of the indirect block only when it creates that block, and it
takes the page as the allocator returns it; both show up as conditions on a run of assignments.
-/

namespace Nbtrfs

open BlockProg Bytes

/-- The largest index that both functions accept. -/
abbrev maxIndex : ℕ := usableBlockSize / 8

/-- Where entry `i` of an indirect block is stored. -/
abbrev entryOffset (i : ℕ) : ℕ := 4 + 8 * (i - 12)

variable {disk : DiskInterface} {m m' : Image} {node : Inode} {index block : UInt64} {f : ℕ}

theorem DiskInterface.lt_of_mapping_addr {p : UInt64} {b : ℕ} (h : disk.mapping.addr p = some b) :
    b < disk.mapping.blocks := by
  have hget : disk.diskGetBlock p = some b := h
  rw [DiskInterface.diskGetBlock] at hget
  split at hget
  · have hb := Option.some.inj hget
    show b < disk.totalBlocks.toNat
    omega
  · cases hget

/-! ## One call -/

theorem run_inodeGetBlock_direct {M : Mapping} (h : index.toNat < 12) :
    run M (inodeGetBlock node index) m =
      some ((if node.directBlocks[index.toNat] ≠ 0 then 0 else -1,
        some node.directBlocks[index.toNat]), m) := by
  rw [inodeGetBlock, dif_pos h, run_pure]

theorem run_inodeGetBlock_none {M : Mapping} (h : ¬index.toNat < 12)
    (hzero : node.indirectBlock = 0) :
    run M (inodeGetBlock node index) m = some ((-1, none), m) := by
  rw [inodeGetBlock, dif_neg h, if_pos hzero, ite_self, run_pure]

theorem run_inodeGetBlock_past {M : Mapping} (h : maxIndex < index.toNat) :
    run M (inodeGetBlock node index) m = some ((-1, none), m) := by
  have hmax : maxIndex = 511 := rfl
  rw [inodeGetBlock, dif_neg (by omega), if_neg (Nat.not_le_of_lt h), run_pure]

/-- An entry of the indirect block is read from its page. -/
theorem run_inodeGetBlock_indirect {b : ℕ} (hlo : ¬index.toNat < 12) (hhi : index.toNat ≤ maxIndex)
    (hne : node.indirectBlock ≠ 0) (haddr : disk.mapping.addr node.indirectBlock = some b)
    (htype : blockType (m b) = BlockType.data.code) :
    run disk.mapping (inodeGetBlock node index) m =
      some ((0, some (load64 (m b) (entryOffset index.toNat))), m) := by
  have hmax : maxIndex = 511 := rfl
  have hin : entryOffset index.toNat + 8 ≤ disk.mapping.blockSize := by
    show 4 + 8 * (index.toNat - 12) + 8 ≤ 4096
    omega
  have hword := Mapping.wordAddr_of_lt haddr (DiskInterface.lt_of_mapping_addr haddr) hin
  have hpeek := run_peek (m := m) hword
  rw [Mapping.load64_flat hin] at hpeek
  have hcast : (4 + 8 * (index.toNat - 12 : ℕ) : ℤ) = (entryOffset index.toNat : ℕ) := by
    push_cast
    rfl
  rw [inodeGetBlock, dif_neg hlo, if_pos hhi, if_neg hne, run_bind_of_eq (run_fetch _ _),
    run_bind_of_eq (run_page haddr), if_neg (not_not.mpr htype), hcast, run_bind_of_eq hpeek,
    run_pure]

theorem run_inodeSetBlock_direct {M : Mapping} (h : index.toNat < 12) :
    run M (inodeSetBlock disk node index block) m =
      some ((0, { node with directBlocks := node.directBlocks.set index.toNat block }), m) := by
  rw [inodeSetBlock, dif_pos h, run_pure]

/-- With an indirect block, an index behind the first 12 is refused. -/
theorem run_inodeSetBlock_refused {M : Mapping} (h : ¬index.toNat < 12)
    (hne : node.indirectBlock ≠ 0) :
    run M (inodeSetBlock disk node index block) m = some ((-1, node), m) := by
  rw [inodeSetBlock, dif_neg h, if_neg hne, ite_self, run_pure]

/-- The page of a new indirect block: what the page held before, with a type and one entry. -/
def indirectPage (pg : Bytes) (i : ℕ) (block : UInt64) : Bytes :=
  store64 (setBlockType BlockType.data pg) (entryOffset i) block

theorem blockType_indirectPage {pg : Bytes} {i : ℕ} :
    blockType (indirectPage pg i block) = BlockType.data.code := by
  have htype : blockType (indirectPage pg i block) = blockType (setBlockType BlockType.data pg) :=
    blockType_congr fun o ho => store64_apply_ne (by
      simp only [entryOffset]
      omega)
  rw [htype, blockType_setBlockType]

/-- Storing an entry of an indirect block changes this entry only. -/
theorem load64_indirectPage {pg : Bytes} {i j : ℕ} (hi : 12 ≤ i) (hj : 12 ≤ j) :
    load64 (indirectPage pg i block) (entryOffset j) =
      if j = i then block else load64 pg (entryOffset j) := by
  rw [indirectPage]
  split
  next h => rw [h, load64_store64_same]
  next h =>
    rw [load64_store64_ne (by simp only [entryOffset]; omega)]
    exact load64_congr fun o _ => setBlockType_apply (by
      simp only [entryOffset]
      omega)

/-- Without an indirect block, the next free page becomes it. -/
theorem run_inodeSetBlock_create (A : BitmapArea disk m) (H : FirstFree disk m f)
    (hlo : ¬index.toNat < 12) (hhi : index.toNat ≤ maxIndex) (hzero : node.indirectBlock = 0) :
    run disk.mapping (inodeSetBlock disk node index block) m =
      some ((0, { node with indirectBlock := UInt64.ofNat f }),
        Function.update (takeBlock m f) f (indirectPage (m f) index.toNat block)) := by
  have hmax : maxIndex = 511 := rfl
  have hin : entryOffset index.toNat + 8 ≤ disk.mapping.blockSize := by
    show 4 + 8 * (index.toNat - 12) + 8 ≤ 4096
    omega
  have hword := Mapping.wordAddr_of_lt H.addr (DiskInterface.lt_of_mapping_addr H.addr) hin
  have hpage : takeBlock m f f = m f := takeBlock_of_behind H.lt_total (A.lt_of_clear H.clear)
  have hcast : (4 + 8 * (index.toNat - 12 : ℕ) : ℤ) = (entryOffset index.toNat : ℕ) := by
    push_cast
    rfl
  rw [inodeSetBlock, dif_neg hlo, if_pos hhi, if_pos hzero, run_bind_of_eq (H.run_allocPage A)]
  simp only [if_neg (H.number_ne_zero A)]
  rw [run_bind_of_eq (run_fetch _ _), run_bind_of_eq (run_modify _ H.addr), hcast,
    run_bind_of_eq (run_poke _ hword), run_pure, Mapping.storeFlat_page _ hin,
    Function.update_self, Function.update_idem, hpage]
  rfl

end Nbtrfs
