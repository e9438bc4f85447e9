import Nbtrfs.Attributes
import Nbtrfs.FirstEntry
import Nbtrfs.Ownership
import Nbtrfs.WriteHonest

/-!
# The first file of a volume

Reference: `fuse.c::nbtrfs_mknod`, `fuse.c::nbtrfs_write`.

A fresh volume takes the file `/a`, and then a byte of it at any offset that the block map can hold. Both
calls return what they should, and both ask the cache for pages within reach only, and announce few.
-/

namespace Nbtrfs

open BlockProg Bytes

variable {disk : DiskInterface} {m m' m₁ : Image} {path : CString} {host : Host} {inum p : UInt64}
  {node node' : Inode} {index : UInt64} {buf : Bytes} {f i o r : ℕ} {leaves : List Leaf}

/-! ## The block map -/

/-- Without an indirect block `inode_get_block` looks into the inode only. -/
theorem demands_inodeGetBlock (hindirect : node.indirectBlock = 0) :
    Demands disk 0 (inodeGetBlock node index) m := by
  by_cases hlo : index.toNat < 12
  · exact demands_inodeGetBlock_direct hlo
  · rw [inodeGetBlock, dif_neg hlo, if_pos hindirect]
    exact Asks.ite (fun _ => Asks.pure) fun _ => Asks.pure

section SetBlock

variable (L : Layout disk.mapping disk m)
  (hmarked : ∀ b < dataStart disk.totalBlocks.toNat, blockBit m b = true)
  (hindirect : node.indirectBlock = 0) (hfree : 0 < nearFree disk m) (hhi : index.toNat ≤ maxIndex)
include L hmarked hindirect hfree hhi

/-- The inode takes the page itself, or an indirect block for it. -/
theorem exists_inodeSetBlock : ∃ node' m', run disk.mapping (inodeSetBlock disk node index p) m =
      some ((0, node'), m') ∧ Takes disk m m' ∧ node'.inodeNumber = node.inodeNumber := by
  by_cases hlo : index.toNat < 12
  · exact ⟨_, _, run_inodeSetBlock_direct hlo, Takes.refl disk m, rfl⟩
  · obtain ⟨g, G⟩ := exists_firstFree hfree
    exact ⟨_, _, run_inodeSetBlock_create (L.bitmapArea_of_marked hmarked) G hlo hhi hindirect,
      G.takes hmarked L, rfl⟩

/-- Setting a pointer may take an indirect block and then writes the inode. -/
theorem demands_inodeSetBlock (hfits : dataStart disk.totalBlocks.toNat < disk.addressable) :
    Demands disk 2 (inodeSetBlock disk node index p) m := by
  have A := L.bitmapArea_of_marked hmarked
  have hbitmap := bitmapBlocks_lt_dataStart disk.totalBlocks.toNat
  by_cases hlo : index.toNat < 12
  · rw [inodeSetBlock, dif_pos hlo]
    exact Asks.pure
  · obtain ⟨g, G⟩ := exists_firstFree hfree
    have hlt : (UInt64.ofNat g).toNat < disk.addressable := by
      rw [G.toNat_number]
      exact G.lt
    rw [inodeSetBlock, dif_neg hlo, if_pos hhi, if_pos hindirect]
    refine (demands_allocPage (hbitmap.trans hfits)).bind_of_run (G.run_allocPage A) ?_
    rw [if_neg (G.number_ne_zero A)]
    exact Asks.fetch_bind hlt (Asks.modify.quiet_bind fun _ _ _ =>
      Asks.poke.quiet_bind fun _ _ _ => Asks.pure)

end SetBlock

namespace OpenFile

variable (O : OpenFile disk inum m node fun _ => 0) (E : Entries disk node m fun _ => 0)
  (hfits : dataStart disk.totalBlocks.toNat < disk.addressable)
  (hindirect : node.indirectBlock = 0) (hfree : 2 ≤ nearFree disk m)
include O E hfits hindirect hfree

/-- Taking a page for the file takes one or two blocks. -/
theorem demands_writablePage (hhi : i ≤ maxIndex) :
    Demands disk 5 (writablePage disk node (UInt64.ofNat i)) m := by
  have hmax : maxIndex = 511 := rfl
  have hnat : (UInt64.ofNat i).toNat = i := toNat_ofNat_block (by omega)
  have hbitmap := bitmapBlocks_lt_dataStart disk.totalBlocks.toNat
  obtain ⟨f, F⟩ := exists_firstFree (show 0 < nearFree disk m by omega)
  have hlt : (UInt64.ofNat f).toNat < disk.addressable := by
    rw [F.toNat_number]
    exact F.lt
  obtain ⟨m₁, hm₁⟩ : ∃ m₁, m₁ = tookPage m f (clearDataPage (m f)) := ⟨_, rfl⟩
  have T : Takes disk m m₁ := hm₁ ▸ F.takes O.marked O.layout
  have hcount : nearFree disk m = nearFree disk m₁ + 1 :=
    hm₁ ▸ F.nearFree_eq fun b hb => F.blockBit_filled O.marked hb
  have hmodify : run disk.mapping (BlockProg.modify (UInt64.ofNat f) clearDataPage) (takeBlock m f) =
      some ((), m₁) := by
    rw [run_modify _ F.addr, takeBlock_of_behind F.lt_total (O.bitmapArea.lt_of_clear F.clear), hm₁,
      tookPage]
  obtain ⟨rv, q, hget, hq⟩ := E i hhi
  rw [writablePage]
  refine (demands_inodeGetBlock hindirect).quiet_bind_of_run hget ?_
  simp only [hq]
  rw [if_neg (not_not.mpr rfl)]
  refine (demands_allocPage (hbitmap.trans hfits)).bind_of_run (F.run_allocPage O.bitmapArea) ?_
  rw [if_neg (F.number_ne_zero O.bitmapArea)]
  refine Asks.fetch_bind hlt (Asks.modify.quiet_bind_of_run hmodify ?_)
  have hmarked := O.marked_of_takes T
  have L₁ := T.layout O.layout
  have hexists : ∃ node' m₂, run disk.mapping (inodeSetBlock disk node (UInt64.ofNat i) (UInt64.ofNat f))
        m₁ = some ((0, node'), m₂) ∧ Takes disk m₁ m₂ ∧ node'.inodeNumber = node.inodeNumber :=
    exists_inodeSetBlock L₁ hmarked hindirect (by omega) (by rwa [hnat])
  obtain ⟨node', m₂, hset, T₂, hown⟩ := hexists
  refine (demands_inodeSetBlock L₁ hmarked hindirect (by omega) (by rwa [hnat]) hfits).bind_of_run
    hset ?_
  refine (demands_inodeWrite (T₂.layout L₁) hfits _ ?_).bind fun _ _ _ => Asks.pure
  rw [hown, O.own]
  exact O.capacity

/-- Writing one byte to a page that is not mapped. -/
theorem demands_writeInode (hhi : o / usableBlockSize ≤ maxIndex) :
    Demands disk 7 (writeInode disk node buf 1 o) m := by
  have hone : (int32 (UInt64.toNat 1)).toNat = 0 + 1 := by decide
  have hfit : PagesFit (fun _ => 0) node.indirectBlock False o 0 (0 + 1) (o / usableBlockSize)
      (nearFree disk m) := by
    rw [PagesFit, if_neg (not_not.mpr rfl), if_neg (by omega)]
    split
    next => trivial
    next => exact ⟨rfl, hhi, hindirect, hfree⟩
  obtain ⟨m₁, node₁, blocks₁, hrun, O₁, -, -, hne, hnear, -⟩ :=
    O.exists_writable E (Wrote.refl disk m (fun _ => 0) o buf) le_rfl False.elim hfit (by omega)
  have hmapped : (blocks₁ (o / usableBlockSize)).toNat < disk.addressable :=
    lt_min (O₁.mapped.lt_total _ hne) hnear
  have haddr : disk.mapping.addr (blocks₁ (o / usableBlockSize)) =
      some (blocks₁ (o / usableBlockSize)).toNat :=
    DiskInterface.diskGetBlock_of_lt (O₁.mapped.lt_total _ hne) hnear
  -- the copy into the page
  have hpatch := (Patched.refl m₁ blocks₁ {i | blocks₁ i ≠ 0} o buf).step O₁.mapped
    (c := chunk o 1) hne (mod_add_chunk_le o 1)
  have hmodify := run_modify (m := m₁) (fun pg : Bytes => copyIn pg (4 + o % usableBlockSize)
    (chunk o 1) fun k => buf (0 + k)) haddr
  obtain ⟨m₂, hm₂⟩ : ∃ m₂, m₂ = Function.update m₁ (blocks₁ (o / usableBlockSize)).toNat
    (copyIn (m₁ (blocks₁ (o / usableBlockSize)).toNat) (4 + o % usableBlockSize) (chunk o 1)
      fun k => buf (0 + k)) := ⟨_, rfl⟩
  have O₂ : OpenFile disk inum m₂ node₁ blocks₁ := O₁.patched (hm₂ ▸ hpatch)
  have hpages : run disk.mapping (writePages disk buf (0 + 1) node o 1 0) m =
      some ((some node₁, 0 + chunk o 1), m₂) := by
    rw [writePages, if_neg (by decide), pageIndex_eq hhi, run_bind_of_eq hrun]
    show run _ (_ >>= _) _ = _
    rw [run_bind_of_eq (run_fetch _ _), run_bind_of_eq hmodify, run_bind_of_eq (run_writeBack _ _),
      writePages, run_pure, hm₂]
  have hasks : Demands disk 6 (writePages disk buf (0 + 1) node o 1 0) m := by
    rw [writePages, if_neg (by decide), pageIndex_eq hhi]
    refine (O.demands_writablePage E hfits hindirect hfree hhi).bind_of_run hrun ?_
    exact Asks.fetch_bind hmapped (Asks.modify.quiet_bind fun _ _ _ => Asks.writeBack_bind Asks.pure)
  rw [writeInode, hone]
  refine hasks.bind_of_run hpages (Asks.ite (fun _ => ?_) fun _ => Asks.pure)
  refine (demands_inodeWrite O₂.layout hfits _ ?_).bind fun _ _ _ => Asks.pure
  show node₁.inodeNumber.toNat < _
  rw [O₁.own]
  exact O.capacity

end OpenFile

/-! ## A file without pages -/

/-- The block map of `OpenFile` gives what the pointers of the inode say. -/
theorem OpenFile.blockAt_eq {blocks : ℕ → UInt64} (O : OpenFile disk inum m node blocks)
    (hne : blocks i ≠ 0) : blockAt m node i = blocks i := by
  have hmax : maxIndex = 511 := rfl
  have hle := O.mapped.le i hne
  have hy := O.mapped.yields i hne
  have hnat : (UInt64.ofNat i).toNat = i := toNat_ofNat_block (by omega)
  by_cases hlo : i < 12
  · have hdirect := hy.eq (Yields.direct (by omega))
    simp only [hnat] at hdirect
    rw [blockAt_of_lt hlo, hdirect]
  · obtain ⟨-, hindirect, b, haddr, -, hload⟩ := hy.exists_entry hne (by omega)
    have hnear := O.near
    obtain rfl : b = node.indirectBlock.toNat := DiskInterface.eq_of_diskGetBlock haddr (by omega)
    rw [blockAt_of_ne hlo hindirect, hload, hnat]

/-- An inode without pointers has no pages. -/
theorem entries_of_unmapped (hdirect : ∀ i (hi : i < 12), node.directBlocks[i] = 0)
    (hindirect : node.indirectBlock = 0) : Entries disk node m fun _ => 0 := by
  have hmax : maxIndex = 511 := rfl
  intro i hi
  have hnat : (UInt64.ofNat i).toNat = i := toNat_ofNat_block (by omega)
  by_cases hlo : i < 12
  · have hy : Yields disk node m (UInt64.ofNat i) node.directBlocks[(UInt64.ofNat i).toNat] :=
      Yields.direct (by omega)
    simp only [hnat, hdirect i hlo] at hy
    exact hy
  · exact Yields.none (by omega) hindirect

/-- A file without pages can be opened for writing. -/
theorem openFile_of_unmapped (S : Sound disk m) {k : UInt64}
    (hcap : k.toNat < inodeCapacity disk.totalBlocks.toNat)
    (hown : (inodeAt disk m k.toNat).inodeNumber = k)
    (hindirect : (inodeAt disk m k.toNat).indirectBlock = 0) :
    OpenFile disk k m (inodeAt disk m k.toNat) fun _ => 0 where
  layout := S.layout
  marked := S.metadata
  capacity := hcap
  own := hown
  stored := rfl
  mapped := {
    le := fun i hi => absurd rfl hi
    yields := fun i hi => absurd rfl hi
    ne_zero := fun i hi => absurd rfl hi
    lt_total := fun i hi => absurd rfl hi
    behind := fun i hi => absurd rfl hi
    type := fun i hi => absurd rfl hi
    ne_indirect := fun i hi => absurd rfl hi
    indirect_lt := fun i hi => absurd rfl hi
    inj := fun i hi => absurd rfl hi }
  used i hi := absurd rfl hi
  near := by
    rw [hindirect]
    decide
  indirect_lt := by
    rw [hindirect]
    exact (dataStart_pos _).trans_le S.layout.le_total
  indirect hne := absurd hindirect hne

/-- The file `/a` has no pages yet, it is the only one, and two pages are free. -/
structure EmptyFile (disk : DiskInterface) (m : Image) (r : ℕ) (l : Leaf) : Prop where
  sound : Sound disk m
  fits : dataStart disk.totalBlocks.toNat < disk.addressable
  root : RootTree disk m r [l]
  tree : FlatTree disk m r [l]
  file : RegularFile disk m [slash, 97] 1
  direct : ∀ i (hi : i < 12), (inodeAt disk m 1).directBlocks[i] = 0
  indirect : (inodeAt disk m 1).indirectBlock = 0
  free : 2 ≤ nearFree disk m

namespace EmptyFile

variable {l : Leaf} (F : EmptyFile disk m r l)
include F

theorem entries : Entries disk (inodeAt disk m 1) m fun _ => 0 := entries_of_unmapped F.direct F.indirect

theorem openFile : OpenFile disk 1 m (inodeAt disk m 1) fun _ => 0 :=
  openFile_of_unmapped F.sound F.file.capacity F.file.own F.indirect

theorem demands_itemSearch : Demands disk 0 (itemSearch disk [slash, 97]) m :=
  F.root.demands_itemSearch (c := [97]) ⟨by decide, by decide⟩

/-- The lookup announces nothing, so the write announces what `write_inode` does. -/
theorem demands_nbtrfsWrite (host : Host) (buf : Bytes) (hhi : o / usableBlockSize ≤ maxIndex) :
    Demands disk 7 (nbtrfsWrite disk host [slash, 97] buf 1 o) m := by
  have hread : Demands disk 0 (inodeCopy 1) m := by
    rw [inodeCopy]
    refine (demands_inodeRead F.file.layout F.fits F.file.capacity).quiet_bind_of_run
      (F.file.layout.run_inodeRead_slot F.file.capacity) ?_
    exact Asks.pure
  rw [nbtrfsWrite]
  refine F.demands_itemSearch.quiet_bind_of_run F.file.lookup ?_
  rw [if_neg (by decide), if_neg (by decide), writeItem]
  refine hread.quiet_bind_of_run (F.file.layout.run_inodeCopy_slot F.file.capacity) ?_
  exact F.openFile.demands_writeInode F.entries F.fits F.indirect F.free hhi

/-- What a write of one byte leaves. -/
theorem exists_write (host : Host) (buf : Bytes) (hhi : o / usableBlockSize ≤ maxIndex) :
    ∃ m', run disk.mapping (nbtrfsWrite disk host [slash, 97] buf 1 o) m = some (1, m') ∧
      RootTree disk m' r [l] ∧ RegularFile disk m' [slash, 97] 1 ∧
      blockAt m' (inodeAt disk m' 1) (o / usableBlockSize) ≠ 0 ∧
      run disk.mapping (nbtrfsRead disk [slash, 97] 1 o) m' = some ((1, [buf 0]), m') := by
  have hlast : o < 2095104 := by
    rw [Nat.div_le_iff_le_mul_add_pred (by decide)] at hhi
    simp only [maxIndex, usableBlockSize] at hhi
    omega
  have htotal : disk.addressable ≤ disk.totalBlocks.toNat := min_le_left _ _
  have hfit : PagesFit (fun _ => 0) (inodeAt disk m (UInt64.toNat 1)).indirectBlock False o 0
      (pageCount o (UInt64.toNat 1)) (o / usableBlockSize) (nearFree disk m) := by
    have hcount : pageCount o (UInt64.toNat 1) = 0 + 1 := by
      rw [show UInt64.toNat 1 = 1 from rfl, pageCount, if_neg (by decide), Nat.add_sub_cancel,
        Nat.sub_self]
    have hfree := F.free
    rw [hcount, PagesFit, if_neg (not_not.mpr rfl), if_neg (by omega)]
    split
    next => trivial
    next => exact ⟨rfl, hhi, F.indirect, F.free⟩
  obtain ⟨w, m₁, node₁, blocks₁, m', hrun, O₁, W₁, -, hend, -⟩ :=
    F.file.run_nbtrfsWrite_fit F.openFile F.entries (by decide) False.elim hfit host buf
  obtain ⟨rfl, hgrow⟩ : w = 1 ∧ m' = growInode disk m₁ 1 (o + w) := by
    rcases hend with ⟨hw, hgrow⟩ | ⟨-, hfalse, -⟩
    · exact ⟨hw, hgrow⟩
    · exact hfalse.elim
  obtain ⟨node', O', W', hsize', -⟩ := O₁.exists_grown W₁ (by omega) (Or.inl hgrow)
  obtain rfl : inodeAt disk m' 1 = node' := O'.stored
  have hne := (W'.new o le_rfl (Nat.lt_succ_self o)).1
  -- the pages of the lookup are in use
  have hlike : ∀ b, (b = 0 ∨ b = r ∨ ∃ x ∈ [l], b = x.block) → LooksAlike (m b) (m' b) := by
    rintro b (rfl | rfl | ⟨x, hx, rfl⟩)
    · exact W'.look 0 ((dataStart_pos _).trans_le F.file.layout.le_total)
        (F.openFile.marked 0 (dataStart_pos _))
    · exact W'.look b (F.tree.root_lt.trans_le htotal) F.tree.root_used.2
    · exact W'.look _ ((F.tree.leaf x hx).lt.trans_le htotal) (F.tree.leaf_used x hx).2
  have hclosed := F.root.tree.lookupClosed F.root.layout F.root.root F.root.file
  have F' : RegularFile disk m' [slash, 97] 1 :=
    ⟨⟨O'.layout, F.file.ne_zero, F.file.capacity, O'.own⟩,
      (blind_itemSearch disk _).run_eq hlike (hclosed.within_itemSearch _) F.file.lookup⟩
  refine ⟨m', hrun, F.root.congr O'.layout hlike, F', by rwa [O'.blockAt_eq hne], ?_⟩
  have hread := F'.run_nbtrfsRead_wrote O' W' (by
    show o + 1 ≤ (inodeAt disk m' 1).size.toNat
    omega) (by omega)
  exact hread

end EmptyFile

/-! ## The file on a fresh volume -/

/-- The entry of `/a` makes the file. -/
theorem FirstEntry.emptyFile {f g : ℕ}
    (D : FirstEntry disk m m' 0 r f ⟨g, pathHash [97], 1, fileTypeRegular⟩) (R : RootTree disk m r [])
    (hfits : dataStart disk.totalBlocks.toNat < disk.addressable)
    (hcap : 1 < inodeCapacity disk.totalBlocks.toNat) (hown : (inodeAt disk m 1).inodeNumber = 1)
    (hdirect : ∀ i (hi : i < 12), (inodeAt disk m 1).directBlocks[i] = 0)
    (hindirect : (inodeAt disk m 1).indirectBlock = 0) (hfree : 4 ≤ Nbtrfs.nearFree disk m) :
    EmptyFile disk m' r ⟨g, pathHash [97], 1, fileTypeRegular⟩ := by
  have hnode : inodeAt disk m' 1 = inodeAt disk m 1 := D.inode 1 hcap (show 1 ≠ 0 by decide)
  have hcount := D.nearFree
  have R' : RootTree disk m' r [⟨g, pathHash [97], 1, fileTypeRegular⟩] := {
    layout := D.dir.sound.layout
    root := by rw [D.root, R.root]
    tree := D.tree.toFlatShape
    value := by rw [D.value, R.value]
    file := fun l hl => by
      rw [List.mem_singleton.mp hl]
      show fileTypeRegular ≠ fileTypeDirectory
      decide }
  exact {
    sound := D.dir.sound
    fits := hfits
    root := R'
    tree := D.tree
    file := ⟨⟨D.dir.sound.layout, by decide, hcap, (congrArg Inode.inodeNumber hnode).trans hown⟩,
      R'.run_itemSearch_file (c := [97]) ⟨by decide, by decide⟩ (by decide) rfl⟩
    direct := fun i hi => by
      simp only [hnode]
      exact hdirect i hi
    indirect := by rw [hnode, hindirect]
    free := by omega }

/-- A slot of zeros is not active. -/
theorem entryActive_of_blank {pg : Bytes} (hzero : ∀ k < blockSize, pg k = 0) {e : ℕ}
    (he : e + 271 < blockSize) : entryActive pg e = false := by
  rw [entryActive, hzero _ he]
  rfl

/-- A page of zeros can become the first block of a directory. -/
theorem cleanPage_of_blank {pg : Bytes} (hzero : ∀ k < blockSize, pg k = 0) : CleanPage pg [] where
  header _ := by
    have hsame : leLoad pg 4 2 = leLoad (fun _ => 0) 4 2 :=
      leLoad_congr fun k hk => hzero _ (show 4 + k < 4096 by omega)
    rw [entryCount, load16, hsame]
    rfl
  slot := Or.inl (entryActive_of_blank hzero (by decide))
  others k hk _ := entryActive_of_blank hzero (by
    have hper : entriesPerBlock = 15 := rfl
    show 6 + 272 * k + 271 < 4096
    omega)

section Unowned

variable (C : Consistent disk (fun _ => none) m) {n : ℕ} (hn : n < inodeCapacity disk.totalBlocks.toNat)
include C hn

/-- With no block taken for an inode, every pointer of every inode is null. -/
theorem Consistent.blockAt_of_unowned (hi : i ≤ maxIndex) : blockAt m (inodeAt disk m n) i = 0 := by
  by_contra hne
  cases (C.inodes n hn).2.entry i hi hne

theorem Consistent.indirectBlock_of_unowned : (inodeAt disk m n).indirectBlock = 0 := by
  by_contra hne
  cases (C.inodes n hn).2.indirect hne

end Unowned

namespace Fresh

variable {uid gid : UInt32} (F : Fresh disk uid gid m) (C : Consistent disk (fun _ => none) m)
include F C

omit C in
/-- The root node stands for inode 0. -/
theorem rootValue : (BTreeNode.ofPage (m (dataStart disk.totalBlocks.toNat))).value = 0 := by
  rw [F.rootNode]
  rfl

/-- The root directory has no blocks. -/
theorem entryBlocks_root : EntryBlocks disk m 0 [] where
  le := Nat.zero_le 12
  direct i hi := by
    have hnone := C.blockAt_of_unowned (n := 0) (Nat.mul_pos (by decide) C.slots) (i := i)
      (hi.le.trans (by decide))
    rwa [blockAt_of_lt hi] at hnone
  indirect := C.indirectBlock_of_unowned (Nat.mul_pos (by decide) C.slots)
  pos b hb := absurd hb List.not_mem_nil
  lt b hb := absurd hb List.not_mem_nil
  type b hb := absurd hb List.not_mem_nil
  sound := C.sound
  capacity := Nat.mul_pos (by decide) C.slots
  own := F.self_root
  nodup := List.nodup_nil
  behind b hb := absurd hb List.not_mem_nil
  taken b hb := absurd hb List.not_mem_nil

omit C in
/-- Changes of inodes leave the tree of the root directory empty. -/
theorem rootTree_onlyInodes (h : OnlyInodes disk m m') :
    RootTree disk m' (dataStart disk.totalBlocks.toNat) [] :=
  RootTree.congr ⟨F.layout, F.btreeRoot, F.rootTree.toFlatShape, F.rootValue,
    fun _ hl => absurd hl List.not_mem_nil⟩ (h.layout F.layout) fun b _ => h.looksAlike F.layout b

/-- `mknod` of `/a` on a fresh volume with room for it. -/
theorem exists_emptyFile (hroom : dataStart disk.totalBlocks.toNat + 5 ≤ disk.addressable)
    (hcap : 1 < inodeCapacity disk.totalBlocks.toNat) (host : Host) :
    ∃ g m', run disk.mapping (nbtrfsMknod disk host [slash, 97] 0o100644) m = some (0, m') ∧
      Demands disk 14 (nbtrfsMknod disk host [slash, 97] 0o100644) m ∧
      EmptyFile disk m' (dataStart disk.totalBlocks.toNat) ⟨g, pathHash [97], 1, fileTypeRegular⟩ ∧
      EntryBlocks disk m' 0 [dataStart disk.totalBlocks.toNat + 1] := by
  have L := F.layout
  have hbits := capacity_le disk.totalBlocks.toNat
  have hparent : parentOf [slash, 97] = [slash] := by decide
  have hname : getName [slash, 97] = [97] := by decide
  have htype : (0o100644 &&& fileTypeMask : UInt32) = fileTypeRegular := by decide
  -- the inode
  have I := (F.formattedInodes C.slots).marked
  have hclear : inodeBit disk m 1 = false := by
    rw [F.inodeBit 1 (by omega)]
    rfl
  have hset : ∀ i < 1, inodeBit disk m i = true := fun i hi => by
    obtain rfl : i = 0 := by omega
    rw [F.inodeBit 0 (by omega)]
    rfl
  obtain ⟨m₁, hm₁⟩ : ∃ m₁, m₁ = mknodImage disk host 0o100644 m 1 := ⟨_, rfl⟩
  have h : OnlyInodes disk m m₁ := hm₁ ▸ onlyInodes_mknodImage hcap
  have hinode : inodeAt disk m₁ 1 = { claimedInode host.uid host.gid 0o100644 1 (inodeAt disk m 1) with
      creationTime := host.now } := by rw [hm₁, mknodImage, inodeAt_putInode_self]
  -- the root directory
  have E₁ : EntryBlocks disk m₁ 0 [] := h.entryBlocks (F.entryBlocks_root C) (by
    rw [hm₁]
    exact inodeAt_mknodImage hcap (by decide))
  have A₁ := E₁.sound.layout.bitmapArea_of_marked E₁.sound.metadata
  have H := F.firstFree (show dataStart disk.totalBlocks.toNat + 1 < disk.addressable by omega)
  have hclean : CleanPage (m₁ (dataStart disk.totalBlocks.toNat + 1)) [] := by
    rw [h.other _ (Or.inr (Nat.le_succ _))]
    exact cleanPage_of_blank (C.free _ (Nat.le_succ _) H.lt_total H.clear)
  have hlead : LeadsTo disk m₁ [slash] ⟨0, UInt64.ofNat (dataStart disk.totalBlocks.toNat)⟩ :=
    (h.leadsTo_iff L).mpr ⟨(F.pathTo_root C.slots).lookup, Or.inr rfl⟩
  have R₁ := F.rootTree_onlyInodes h
  have T₁ : FlatTree disk m₁ (dataStart disk.totalBlocks.toNat) [] :=
    F.rootTree.congr A₁ ((h.looksAlike L _).node F.rootTree.root_type)
      (fun l hl => absurd hl List.not_mem_nil) fun b hb hset => by rw [h.blockBit hb, hset]
  have hcount : nearFree disk m₁ = disk.addressable - (dataStart disk.totalBlocks.toNat + 1) := by
    rw [h.nearFree_eq, nearFree_of_taken fun b hb => F.blockBit_lt hb]
  have hentry : ∃ g m', run disk.mapping (directoryAddEntry disk host [slash] [97] 1 fileTypeRegular) m₁ =
        some (0, m') ∧ Demands disk 11 (directoryAddEntry disk host [slash] [97] 1 fileTypeRegular) m₁ ∧
      FirstEntry disk m₁ m' 0 (dataStart disk.totalBlocks.toNat) (dataStart disk.totalBlocks.toNat + 1)
        ⟨g, pathHash [97], 1, fileTypeRegular⟩ :=
    E₁.exists_firstEntry (h.firstFree H) F.fits hclean hlead R₁ T₁ rfl (by decide) (by omega)
  obtain ⟨g, m', hadd, hasks, D⟩ := hentry
  -- the inode points nowhere
  have hown : (inodeAt disk m₁ 1).inodeNumber = 1 := by
    rw [hinode, claimedInode]
    rfl
  have hdirect : ∀ i (hi : i < 12), (inodeAt disk m₁ 1).directBlocks[i] = 0 := fun i hi => by
    have hnone := C.blockAt_of_unowned hcap (i := i) (hi.le.trans (by decide))
    rw [blockAt_of_lt hi] at hnone
    simp only [hinode, claimedInode]
    exact hnone
  have hindirect : (inodeAt disk m₁ 1).indirectBlock = 0 := by
    rw [hinode, claimedInode]
    exact C.indirectBlock_of_unowned (n := 1) hcap
  have hempty := D.emptyFile R₁ F.fits hcap hown hdirect hindirect (by omega)
  refine ⟨g, m', ?_, ?_, hempty, D.dir⟩
  · rw [I.run_mknod hcap hclear hset, hparent, hname, ← hm₁, htype]
    exact hadd
  · refine I.demands_mknod hcap hclear hset ?_
    rw [hparent, hname, ← hm₁, htype]
    exact hasks

end Fresh

end Nbtrfs
