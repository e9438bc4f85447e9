import Nbtrfs.EntryRoundTrip

/-!
# What adding an entry leaves of the others

Reference: `directory.c::directory_add_entry`.

A directory with a free slot in its blocks gets the entry and keeps the others, if there are the pages for
the B-tree. A new block is read as it was found: what it holds in the place of active flags and of the
header counts as entries. A directory of twelve full blocks is not full for the function: the last block is
looked at again, behind as many active slots as the header counts, and its first entry is overwritten.
-/

namespace Nbtrfs

open BlockProg Bytes

variable {disk : DiskInterface} {m m' m₁ : Image} {path name : CString} {pair : InodeBtreePair}
  {host : Host} {inum target : UInt64} {type : UInt32} {blocks blocks₁ : List ℕ}
  {b c e f first i j k n t : ℕ} {pg pg' new : Bytes} {header : Bool} {count number : UInt16} {rv : ℤ}

/-! ## What the function is for -/

/-- The block bitmap, the blocks and the inode of the directory, and the nodes are as they were. -/
structure DirectoryUnchanged (disk : DiskInterface) (m m' : Image) (inum : UInt64)
    (blocks : List ℕ) : Prop where
  bits : ∀ b < disk.totalBlocks.toNat, blockBit m' b = blockBit m b
  pages : ∀ b ∈ blocks, m' b = m b
  node : inodeAt disk m' inum.toNat = inodeAt disk m inum.toNat
  tree : ∀ b, blockType (m b) = BlockType.btreeNode.code → m' b = m b

/-- The page can become the next block of a full directory: what it holds is read as a slot that is
taken first and other slots that are free, and, if it becomes the first block, as a header of zero. -/
structure CleanPage (pg : Bytes) (blocks : List ℕ) : Prop where
  header : blocks = [] → entryCount pg = 0
  slot : entryActive pg (entryAt (blocks.length = 0) 0) = false ∨
    (entryCount pg).toNat = entriesPerBlock * blocks.length
  others : ∀ k < entriesPerBlock, k ≠ 0 → entryActive pg (entryAt (blocks.length = 0) k) = false

theorem ofPage_congr (h : ∀ o < sizeofDirEntry, pg' (e + o) = pg (e + o)) :
    DirEntry.ofPage pg' e = DirEntry.ofPage pg e := by
  have hsize : sizeofDirEntry = 272 := rfl
  have hmax : nameMax = 255 := rfl
  have h64 : ∀ o, o + 8 ≤ sizeofDirEntry → load64 pg' (e + o) = load64 pg (e + o) := fun o ho =>
    load64_congr fun i hi => by
      rw [Nat.add_assoc]
      exact h _ (by omega)
  have h0 : load64 pg' e = load64 pg e := h64 0 (by omega)
  have hname : (List.range nameMax).map (fun i => pg' (e + 16 + i)) =
      (List.range nameMax).map fun i => pg (e + 16 + i) := by
    apply List.map_congr_left
    intro i hi
    have hi := List.mem_range.mp hi
    rw [Nat.add_assoc, h _ (by omega)]
  rw [DirEntry.ofPage, DirEntry.ofPage, h0, h64 8 (by omega), hname, entryActive, entryActive,
    h 271 (by omega)]

/-- There are at least as many entries as active slots in front. -/
theorem ActiveTo.lt_length (A : ActiveTo m blocks t j) (hb : blocks[t]? = some b)
    (hj : j < entriesPerBlock) : entriesPerBlock * t + j < (entriesOf m blocks).length :=
  (List.getElem?_eq_some_iff.mp (A.getElem?_entriesOf hb hj)).1

/-! ## The blocks that are there -/

theorem FullBefore.activeTo (A : FullBefore m blocks i) (hb : blocks[i]? = some b)
    (h : ∀ k, 0 ≤ k → k < j + 1 → entryActive (m b) (entryAt (i = 0) k) = true) :
    ActiveTo m blocks i j := by
  intro i' b' hb' k hk
  rcases hk with ⟨hi, hk⟩ | ⟨rfl, hk⟩
  · exact A i' b' hb' hi k hk
  · obtain rfl := Option.some.inj (hb.symm.trans hb')
    exact h k (Nat.zero_le k) (by omega)

/-- A full directory has an entry in every slot. -/
theorem FullBefore.length_le (A : FullBefore m blocks blocks.length) :
    entriesPerBlock * blocks.length ≤ (entriesOf m blocks).length := by
  rcases Nat.eq_zero_or_pos blocks.length with hzero | hpos
  · rw [hzero]
    exact Nat.zero_le _
  · have hlast : blocks[blocks.length - 1]? = some blocks[blocks.length - 1] :=
      List.getElem?_eq_getElem (by omega)
    have hactive : ActiveTo m blocks (blocks.length - 1) 14 := by
      intro i b hb k hk
      have hepb : entriesPerBlock = 15 := rfl
      exact A i b hb (by omega) k (by omega)
    have hlt := hactive.lt_length hlast (by decide)
    have hmul : entriesPerBlock * blocks.length =
        entriesPerBlock * (blocks.length - 1) + entriesPerBlock := by
      rw [← Nat.mul_succ, Nat.succ_eq_add_one, Nat.sub_add_cancel hpos]
    have hepb : entriesPerBlock = 15 := rfl
    omega

namespace EntryBlocks

variable (E : EntryBlocks disk m pair.inodeNumber blocks)
include E

/-- Behind the direct blocks the last one is looked at again. -/
theorem run_lastBlock (hi : 12 ≤ i) (hlt : i < 1099511627776) (hb : b ∈ blocks) (hc : c ∈ blocks) :
    run disk.mapping (addEntryFrom disk host pair name target type (n + 1) i
        (inodeAt disk m pair.inodeNumber.toNat) (UInt64.ofNat b) (UInt64.ofNat c) count number) m =
      run disk.mapping (atBlock disk host pair name target type n i
        (inodeAt disk m pair.inodeNumber.toNat) (UInt64.ofNat b) (UInt64.ofNat c) number
        (freeSlot (m b) false (entryCount (m c)) entriesPerBlock 0 count)) m := by
  have hne : i ≠ 0 := by omega
  have hentry : run disk.mapping (entryBlock disk pair (inodeAt disk m pair.inodeNumber.toNat) i
      (UInt64.ofNat b) (UInt64.ofNat c)) m = some (some (inodeAt disk m pair.inodeNumber.toNat,
        UInt64.ofNat b, UInt64.ofNat c), m) := by
    rw [entryBlock, if_neg (E.number_ne_zero hb), run_bind_of_eq (run_fetch _ _), run_pure, if_neg hne]
  rw [addEntryFrom, run_bind_of_eq (E.run_getBlock_past hi hlt)]
  simp only [Option.getD_none]
  rw [run_bind_of_eq hentry]
  simp only
  rw [run_bind_of_eq (run_page (E.addr hb)), if_neg (not_not.mpr (E.type b hb)),
    run_bind_of_eq (run_page (E.addr hc)), if_neg hne, decide_eq_false hne]
  rcases freeSlot (m b) false (entryCount (m c)) entriesPerBlock 0 count with ⟨_ | j, d⟩
  · rfl
  · rw [atBlock, decide_eq_false hne]
    rfl

end EntryBlocks

/-! ## Behind the blocks that were there -/

/-- The direct pointers of the inode determine the blocks. -/
theorem DataBlocks.unique (D : DataBlocks disk m inum blocks) (D₁ : DataBlocks disk m inum blocks₁) :
    blocks = blocks₁ := by
  have hnumber : ∀ (bs : List ℕ), DataBlocks disk m inum bs → ∀ i < 12, ∀ b,
      bs[i]? = some b ↔ 0 < b ∧ ((inodeAt disk m inum.toNat).directBlocks[i]?.getD 0).toNat = b := by
    intro bs D i hi b
    have hwrap := addressable_le disk
    rw [Vector.getElem?_eq_getElem hi, Option.getD_some, D.direct i hi]
    rcases hb : bs[i]? with _ | c
    · rw [Option.map_none, Option.getD_none, UInt64.toNat_zero]
      exact iff_of_false (by simp) fun h => absurd h.2 h.1.ne
    · have hmem := List.mem_of_getElem? hb
      have hlt := D.lt c hmem
      have hnat : (UInt64.ofNat c).toNat = c := toNat_ofNat_block (by omega)
      rw [Option.map_some, Option.getD_some, hnat, Option.some.injEq]
      exact ⟨fun h => ⟨h ▸ D.pos c hmem, h⟩, fun h => h.2⟩
  apply List.ext_getElem?
  intro i
  by_cases hi : i < 12
  · ext b
    rw [hnumber blocks D i hi b, hnumber blocks₁ D₁ i hi b]
  · have hle := D.le
    have hle₁ := D₁.le
    rw [List.getElem?_eq_none (by omega), List.getElem?_eq_none (by omega)]

/-! ## When it adds exactly the entry -/

namespace Stored

variable {stored : DirEntry} (S : Stored disk m₁ m' inum blocks₁ t j count (newFile host name target))
include S

end Stored

theorem DirectoryUnchanged.refl : DirectoryUnchanged disk m m inum blocks :=
  ⟨fun _ _ => rfl, fun _ _ => rfl, rfl, fun _ _ => rfl⟩

/-- The first slot of a clean page takes the entry. -/
theorem CleanPage.freeSlot_eq (h : CleanPage pg blocks) (hroom : blocks.length < 12) :
    freeSlot pg (blocks.length = 0) (entryCount pg) entriesPerBlock 0
      (UInt16.ofNat (entriesPerBlock * blocks.length)) =
        (some 0, UInt16.ofNat (entriesPerBlock * blocks.length)) := by
  have hlast : entriesPerBlock * blocks.length ≤ 180 := Nat.mul_le_mul_left entriesPerBlock hroom.le
  refine if_pos (h.slot.imp_right fun h => ?_)
  rw [← UInt16.toNat_inj, h, UInt16.toNat_ofNat']
  exact Nat.mod_eq_of_lt (by omega)

namespace EntryBlocks

variable (E : EntryBlocks disk m pair.inodeNumber blocks) (A : FullBefore m blocks blocks.length)
include E A

omit A in
/-- A clean page becomes a block, and its first slot takes the entry. -/
theorem exists_newEntry (H : FirstFree disk m f) (hclean : CleanPage (m f) blocks)
    (hroom : blocks.length < 12) {r : ℕ} {leaves : List Leaf} (T : HoldsTree disk m r leaves)
    (hr : pair.btreeBlock = UInt64.ofNat r) (hleaves : leaves.length < maxKeys)
    (hfree : treePages type + 1 ≤ nearFree disk m) {block db : UInt64} :
    ∃ m', run disk.mapping (addEntryFrom disk host pair name target type (n + 1) blocks.length
        (inodeAt disk m pair.inodeNumber.toNat) block db
        (UInt16.ofNat (entriesPerBlock * blocks.length)) number) m = some (0, m') ∧
      Stored disk (newBlock disk m pair.inodeNumber blocks.length f) m' pair.inodeNumber
        (blocks ++ [f]) blocks.length 0 ((if blocks.length = 0 then entryCount (m f) else number) + 1)
        (newFile host name target) := by
  have E₁ := E.withNewBlock H hroom
  have hcount := H.nearFree_eq fun b hb => E.blockBit_newBlock H hb
  have hget : (blocks ++ [f])[blocks.length]? = some f := List.getElem?_concat_length
  obtain ⟨⟨rv, m'⟩, hstore⟩ := (E₁.exists_storeEntry_iff hget (E.holdsTree_newBlock H T) hr hleaves).mpr
    (show treePages type ≤ nearFree disk (newBlock disk m pair.inodeNumber blocks.length f) by omega)
  obtain rfl := storeEntry_zero hstore
  refine ⟨m', ?_, E₁.stored hget hstore⟩
  rw [E.run_newBlock H hroom, ← inodeAt_newBlock, hclean.freeSlot_eq hroom]
  exact hstore

end EntryBlocks

/-- The run on a directory without a block. -/
theorem EntryBlocks.exists_add_first (E : EntryBlocks disk m pair.inodeNumber [])
    (hpath : LeadsTo disk m path pair) (H : FirstFree disk m f) (hclean : CleanPage (m f) [])
    {r : ℕ} {leaves : List Leaf} (T : HoldsTree disk m r leaves)
    (hr : pair.btreeBlock = UInt64.ofNat r) (hleaves : leaves.length < maxKeys)
    (hfree : treePages type + 1 ≤ nearFree disk m) :
    ∃ m', run disk.mapping (directoryAddEntry disk host path name target type) m = some (0, m') := by
  have hfuel : directoryBlocks = 4355 + 1 := rfl
  obtain ⟨m', hadd, -⟩ := E.exists_newEntry H hclean (by decide) T hr hleaves hfree
  refine ⟨m', ?_⟩
  rw [directoryAddEntry, run_bind_of_eq hpath.1, if_pos hpath.2,
    run_bind_of_eq (E.sound.layout.run_inodeRead_slot E.capacity), Option.getD_some, hfuel]
  exact hadd

end Nbtrfs
