import Nbtrfs.OwnedFiles

/-!
# What readers can tell apart

Reference: `hash.c::item_search`, `inode.c`, `directory.c::directory_list`, `fuse.c`.

Two images with the same nodes and types answer a lookup alike. If they also agree in an inode, they
answer `getattr` alike, and if they agree in the pages that its pointers lead to, `read` and
`directory_list`.
-/

namespace Nbtrfs

open BlockProg Bytes

variable {disk : DiskInterface} {own own' : Owners} {m m' : Image} {node : Inode}
  {number index : UInt64} {I : Prop} {k : ℕ}

/-! ## What has to agree -/

/-- `inode_read` of a number finds the same on both images. -/
def SameInode (disk : DiskInterface) (m m' : Image) (number : UInt64) : Prop :=
  ∀ b, disk.mapping.addr (UInt64.ofNat (slotBlock disk number.toNat)) = some b →
    blockType (m b) = BlockType.inode.code →
    Inode.ofPage (m' b) (number.toNat % inodesPerPage) =
      Inode.ofPage (m b) (number.toNat % inodesPerPage)

/-- The pages that an inode leads to are the same: those of its direct blocks and, if `I` holds, the
indirect block and those listed there. -/
structure SameData (I : Prop) (m m' : Image) (node : Inode) : Prop where
  entry : ∀ i ≤ maxIndex, i < 12 ∨ I → blockAt m node i ≠ 0 →
    m' (blockAt m node i).toNat = m (blockAt m node i).toNat
  indirect : I → node.indirectBlock ≠ 0 → m' node.indirectBlock.toNat = m node.indirectBlock.toNat

theorem sameData_zeroInode : SameData I m m' zeroInode where
  entry i _ _ hne := by
    refine absurd ?_ hne
    by_cases hi : i < 12
    · rw [blockAt_of_lt hi]
      simp [zeroInode]
    · exact blockAt_of_zero hi rfl
  indirect _ hne := absurd rfl hne

/-- Both images hold the same table. -/
theorem Consistent.sameInode_of_table (C : Consistent disk own m)
    (h : ∀ b, inodeTableStart disk.totalBlocks.toNat ≤ b → b < dataStart disk.totalBlocks.toNat →
      m' b = m b) (number : UInt64) : SameInode disk m m' number := by
  intro b haddr htype
  obtain ⟨hlo, hhi⟩ := C.table_of_type (DiskInterface.lt_of_mapping_addr haddr) htype
  rw [h b hlo hhi]

/-- Both images hold the same inode in a slot. -/
theorem Consistent.sameInode_of_slot (C : Consistent disk own m)
    (hn : number.toNat < inodeCapacity disk.totalBlocks.toNat)
    (h : inodeAt disk m' number.toNat = inodeAt disk m number.toNat) :
    SameInode disk m m' number := by
  intro b haddr _
  rw [C.sound.layout.addr (slotBlock_lt hn)] at haddr
  obtain rfl := Option.some.inj haddr
  exact h

/-! ## Lookup and attributes -/

theorem twin_nbtrfsAccess (hlike : ∀ b, LooksAlike (m b) (m' b)) (path : CString) :
    Twin disk.mapping m m' (nbtrfsAccess disk path) :=
  (twin_itemSearch hlike path).bind fun _ _ => Twin.ite (fun _ => Twin.pure _) fun _ => Twin.pure _

section Attributes

variable (C : Consistent disk own m) (C' : Consistent disk own' m')
  (hlike : ∀ b, LooksAlike (m b) (m' b))
include C C' hlike

/-- Reading an inode gives the same on images that agree on its slot. -/
theorem twin_inodeRead (hsame : SameInode disk m m' number) :
    Twin disk.mapping m m' (inodeRead number) := by
  have D := C.sound.layout.toDescribed
  have D' := C'.sound.layout.toDescribed
  cases haddr : disk.mapping.addr (UInt64.ofNat (slotBlock disk number.toNat)) with
  | none => exact Or.inr ⟨D.run_inodeRead_unreachable haddr, D'.run_inodeRead_unreachable haddr⟩
  | some b =>
      refine Or.inl ⟨_, D.run_inodeRead haddr, ?_⟩
      rw [D'.run_inodeRead haddr, (hlike b).type]
      by_cases htype : blockType (m b) = BlockType.inode.code
      · rw [if_pos htype, if_pos htype, hsame b haddr htype]
      · rw [if_neg htype, if_neg htype]

theorem twin_inodeCopy (hsame : SameInode disk m m' number) :
    Twin disk.mapping m m' (inodeCopy number) :=
  (twin_inodeRead C C' hlike hsame).bind fun read _ => by
    cases read with
    | none => exact Twin.crash
    | some node => exact Twin.pure node

theorem twin_nbtrfsGetattr (path : CString)
    (hsame : ∀ pair, run disk.mapping (itemSearch disk path) m = some (pair, m) →
      SameInode disk m m' pair.inodeNumber) :
    Twin disk.mapping m m' (nbtrfsGetattr disk path) := by
  refine (twin_itemSearch hlike path).bind fun pair hpair => Twin.ite (fun _ => ?_) fun _ =>
    Twin.pure _
  exact (twin_inodeCopy C C' hlike (hsame pair hpair)).bind fun _ _ => Twin.pure _

end Attributes

/-! ## The block map -/

section Data

variable (C : Consistent disk own m)
include C

/-- What `inode_read` found owns what it points to. -/
theorem Consistent.owns_of_run (hrun : run disk.mapping (inodeRead number) m = some (some node, m)) :
    ∃ k < inodeCapacity disk.totalBlocks.toNat, node = inodeAt disk m k ∧ Owns own m k node := by
  obtain ⟨k, hk, rfl⟩ := ensures_inodeRead_slot C number _ _ hrun node rfl
  exact ⟨k, hk, rfl, (C.inodes k hk).2⟩

/-- Looking up a page gives the same on images that agree on the data of the inode; the indirect
block matters from the thirteenth page on only. -/
theorem twin_inodeGetBlock (hnode : Owns own m k node) (hsame : SameData I m m' node)
    (hindex : index.toNat < 12 ∨ I) : Twin disk.mapping m m' (inodeGetBlock node index) := by
  by_cases hdirect : index.toNat < 12
  · exact Or.inl ⟨_, run_inodeGetBlock_direct hdirect, run_inodeGetBlock_direct hdirect⟩
  · have hI := hindex.resolve_left hdirect
    have hmax : usableBlockSize / 8 = 511 := rfl
    rw [inodeGetBlock, dif_neg hdirect]
    refine Twin.ite (fun hle => Twin.ite (fun _ => Twin.pure _) fun hzero => ?_) fun _ => Twin.pure _
    have hpage : ∀ b, disk.mapping.addr node.indirectBlock = some b → m' b = m b := by
      intro b haddr
      obtain rfl := C.sound.eq_toNat (C.owned (hnode.indirect hzero)).lt haddr
      exact hsame.indirect hI hzero
    refine Twin.fetch_bind (Twin.page_bind fun b haddr => ?_)
    rw [hpage b haddr]
    refine ⟨rfl, Twin.ite (fun _ => Twin.pure _) fun _ => ?_⟩
    have hoff : (4 + 8 * (index.toNat - 12 : ℕ) : ℤ) = (4 + 8 * (index.toNat - 12) : ℕ) := by
      omega
    rw [hoff]
    refine (Twin.peek ?_ hpage).bind fun _ _ => Twin.pure _
    show 4 + 8 * (index.toNat - 12) + 8 ≤ 4096
    omega

/-- The page behind a pointer that `inode_get_block` finds is the same. -/
theorem page_of_getBlock (hnode : Owns own m k node) (hsame : SameData I m m' node)
    (hindex : index.toNat < 12 ∨ I) {rv : ℤ} {block : UInt64}
    (hrun : run disk.mapping (inodeGetBlock node index) m = some ((rv, some block), m))
    (hne : block ≠ 0) (b : ℕ) (haddr : disk.mapping.addr block = some b) : m' b = m b := by
  obtain ⟨hi, rfl⟩ := ensures_inodeGetBlock C hnode _ _ hrun block rfl hne
  obtain rfl := C.sound.eq_toNat (C.owned (hnode.entry _ hi hne)).lt haddr
  exact hsame.entry _ hi hindex hne

/-! ## Reading a file -/

/-- The loop of `nbtrfs_read` gives the same on both images. -/
theorem twin_readPages (hnode : Owns own m k node) (hsame : SameData I m m' node)
    (n offset remaining : ℕ) (buf : List UInt8)
    (hend : offset + remaining ≤ 12 * usableBlockSize ∨ I) :
    Twin disk.mapping m m' (readPages node n offset remaining buf) := by
  induction n generalizing offset remaining buf with
  | zero => exact Twin.pure _
  | succ n ih =>
      rw [readPages]
      refine Twin.ite (fun _ => Twin.pure _) fun hremaining => ?_
      have hindex : (pageIndex offset).toNat < 12 ∨ I := by
        refine hend.imp_left fun hend => ?_
        have hdiv : offset / usableBlockSize < 12 := by
          simp only [usableBlockSize] at hend ⊢
          omega
        have hmax : maxIndex = 511 := rfl
        rw [pageIndex_eq (by omega), toNat_ofNat_block (by omega)]
        exact hdiv
      refine (twin_inodeGetBlock C hnode hsame hindex).bind fun r hrun => ?_
      obtain ⟨rv, block⟩ := r
      refine Twin.ite (fun _ => Twin.pure _) fun _ => Twin.ite (fun _ => Twin.pure _) fun hne => ?_
      cases block with
      | none => exact absurd rfl hne
      | some block =>
          refine Twin.fetch_bind (Twin.page_bind fun b haddr => ?_)
          rw [page_of_getBlock C hnode hsame hindex hrun hne b haddr]
          refine ⟨rfl, ih _ _ _ (hend.imp_left fun hend => ?_)⟩
          have hchunk := chunk_le offset remaining
          omega

/-- A read gives the same on both images, once the inode is read. -/
theorem twin_readInode (hnode : Owns own m k node) (hsame : SameData I m m' node) (size : UInt64)
    (offset : ℕ) (hend : offset + size.toNat ≤ 12 * usableBlockSize ∨ I) :
    Twin disk.mapping m m' (readInode node size offset) := by
  refine Twin.ite (fun _ => Twin.pure _) fun hlt => Twin.ite (fun _ => Twin.pure _) fun _ => ?_
  refine twin_readPages C hnode hsame _ _ _ _ (hend.imp_left fun hend => ?_)
  have husable : usableBlockSize = 4092 := rfl
  have hsize := size.toNat_lt
  have hoffset : (UInt64.ofNat offset).toNat = offset := toNat_ofNat_block (by omega)
  have hadd : (UInt64.ofNat offset + size).toNat = offset + size.toNat := by
    rw [UInt64.toNat_add, hoffset]
    omega
  have hcut : ∀ s : UInt64, s.toNat ≤ size.toNat → (int32 s.toNat).toNat ≤ size.toNat := by
    intro s hs
    rw [int32_of_lt (by omega)]
    omega
  split
  next hcase =>
    have hle : UInt64.ofNat offset ≤ node.size := by
      rw [UInt64.le_iff_toNat_le] at hlt ⊢
      omega
    have hsub : (node.size - UInt64.ofNat offset).toNat ≤ size.toNat := by
      rw [UInt64.toNat_sub_of_le _ _ hle, hoffset]
      rw [UInt64.lt_iff_toNat_lt, hadd] at hcase
      omega
    have := hcut _ hsub
    omega
  next =>
    have := hcut size le_rfl
    omega

end Data

/-- `nbtrfs_read` of a file with the same inode and the same pages. -/
theorem twin_nbtrfsRead (C : Consistent disk own m) (C' : Consistent disk own' m')
    (hlike : ∀ b, LooksAlike (m b) (m' b)) (path : CString) (size : UInt64) (offset : ℕ)
    (hend : offset + size.toNat ≤ 12 * usableBlockSize ∨ I)
    (hsame : ∀ pair, run disk.mapping (itemSearch disk path) m = some (pair, m) →
      SameInode disk m m' pair.inodeNumber ∧ ∀ node,
        run disk.mapping (inodeRead pair.inodeNumber) m = some (some node, m) →
          SameData I m m' node) :
    Twin disk.mapping m m' (nbtrfsRead disk path size offset) := by
  refine (twin_itemSearch hlike path).bind fun pair hpair => Twin.ite (fun _ => Twin.pure _) fun _ =>
    Twin.ite (fun _ => Twin.pure _) fun _ => ?_
  obtain ⟨hinode, hdata⟩ := hsame pair hpair
  refine (twin_inodeRead C C' hlike hinode).bind fun read hread => ?_
  cases read with
  | none => exact Twin.pure _
  | some node =>
      obtain ⟨k, -, -, hnode⟩ := C.owns_of_run hread
      exact twin_readInode C hnode (hdata node hread) size offset hend

/-! ## Listing a directory -/

/-- The loop of `directory_list` gives the same on both images. The first block and the one at hand
are each either missing or the same on both. -/
theorem twin_directoryListFrom (C : Consistent disk own m) (hnode : Owns own m k node)
    (hsame : SameData True m m' node) (pair : InodeBtreePair) (n i : ℕ) (block db : UInt64)
    (entries : List DirEntry)
    (hblock : block ≠ 0 → ∀ b, disk.mapping.addr block = some b → m' b = m b)
    (hdb : entries ≠ [] → ∀ b, disk.mapping.addr db = some b → m' b = m b) :
    Twin disk.mapping m m' (directoryListFrom pair node n i block db entries) := by
  induction n generalizing i block db entries with
  | zero => exact Twin.pure _
  | succ n ih =>
      rw [directoryListFrom]
      refine (twin_inodeGetBlock C hnode hsame (Or.inr trivial)).bind fun r hrun => ?_
      obtain ⟨rv, mapped⟩ := r
      refine Twin.ite (fun _ => Twin.pure _) fun hne => ?_
      have hpage : ∀ b, disk.mapping.addr (mapped.getD block) = some b → m' b = m b := by
        cases mapped with
        | none => exact hblock hne
        | some q => exact page_of_getBlock C hnode hsame (Or.inr trivial) hrun hne
      refine Twin.fetch_bind (Twin.page_bind fun b haddr => ?_)
      rw [hpage b haddr]
      refine ⟨rfl, Twin.ite (fun _ => Twin.pure _) fun _ => ?_⟩
      -- the first block with entries is the one whose header is read from then on
      have hheader : ∀ b, disk.mapping.addr (if decide (entries.length = 0) = true then
          mapped.getD block else db) = some b → m' b = m b := by
        intro b hb
        split at hb
        next => exact hpage b hb
        next hcount =>
          refine hdb ?_ b hb
          rintro rfl
          exact hcount rfl
      refine Twin.page_bind fun b hb => ?_
      rw [hheader b hb]
      exact ⟨rfl, Twin.ite (fun _ => Twin.pure _) fun _ =>
        ih _ _ _ _ (fun _ => hpage) fun _ => hheader⟩

/-- A listing gives the same on both images. -/
theorem twin_directoryList (C : Consistent disk own m) (C' : Consistent disk own' m')
    (hlike : ∀ b, LooksAlike (m b) (m' b)) (path : CString)
    (hsame : ∀ pair, run disk.mapping (itemSearch disk path) m = some (pair, m) →
      SameInode disk m m' pair.inodeNumber ∧ ∀ node,
        run disk.mapping (inodeRead pair.inodeNumber) m = some (some node, m) →
          SameData True m m' node) :
    Twin disk.mapping m m' (directoryList disk path) := by
  refine (twin_itemSearch hlike path).bind fun pair hpair => Twin.ite (fun _ => ?_) fun _ =>
    Twin.pure _
  obtain ⟨hinode, hdata⟩ := hsame pair hpair
  refine (twin_inodeRead C C' hlike hinode).bind fun read hread => ?_
  have hnode : ∃ k, Owns own m k (read.getD zeroInode) ∧
      SameData True m m' (read.getD zeroInode) := by
    cases read with
    | none => exact ⟨_, C.carries_zeroInode.owns, sameData_zeroInode⟩
    | some node =>
        obtain ⟨k, -, -, hnode⟩ := C.owns_of_run hread
        exact ⟨k, hnode, hdata node hread⟩
  obtain ⟨k, howns, hpages⟩ := hnode
  refine (twin_directoryListFrom C howns hpages pair _ _ _ _ [] ?_ ?_).bind fun _ _ => Twin.pure _
  · exact fun h => absurd rfl h
  · exact fun h => absurd rfl h

/-! ## Listing with attributes -/

section Readdir

variable (C : Consistent disk own m) (C' : Consistent disk own' m')
  (hlike : ∀ b, LooksAlike (m b) (m' b)) (hinodes : ∀ number, SameInode disk m m' number)
include C C' hlike hinodes

theorem twin_assertedStat (path : CString) : Twin disk.mapping m m' (assertedStat disk path) := by
  refine (twin_nbtrfsGetattr C C' hlike path fun pair _ => hinodes _).bind fun r _ => ?_
  obtain ⟨rv, st⟩ := r
  cases st with
  | none => exact Twin.crash
  | some st => exact Twin.pure st

/-- `readdir` looks up every entry of the listing, and no lookup can tell the images apart. -/
theorem twin_fillEntries (path : CString) (entries : List DirEntry) :
    Twin disk.mapping m m' (fillEntries disk path entries) := by
  induction entries with
  | nil => exact Twin.pure _
  | cons entry entries ih =>
      rw [fillEntries]
      cases entry.cName with
      | none => exact Twin.crash
      | some name =>
          refine (twin_assertedStat C C' hlike hinodes _).bind fun _ _ => ?_
          exact ih.bind fun _ _ => Twin.pure _

/-- `nbtrfs_readdir`, where all inodes agree and the pages of the directory do. -/
theorem twin_nbtrfsReaddir (path : CString)
    (hsame : ∀ pair, run disk.mapping (itemSearch disk path) m = some (pair, m) → ∀ node,
      run disk.mapping (inodeRead pair.inodeNumber) m = some (some node, m) →
        SameData True m m' node) :
    Twin disk.mapping m m' (nbtrfsReaddir disk path) := by
  have hrest : ∀ self parent, Twin disk.mapping m m' (directoryList disk path >>= fun r =>
      fillEntries disk path r.2 >>= fun filled => pure ((0 : ℤ), ([46], self) :: parent ++ filled)) := by
    intro self parent
    refine (twin_directoryList C C' hlike path fun pair hpair =>
      ⟨hinodes _, hsame pair hpair⟩).bind fun r _ => ?_
    exact (twin_fillEntries C C' hlike hinodes path r.2).bind fun _ _ => Twin.pure _
  refine (twin_assertedStat C C' hlike hinodes path).bind fun self _ => Twin.ite (fun _ => ?_)
    fun _ => hrest self _
  exact (twin_assertedStat C C' hlike hinodes _).bind fun st _ => hrest self _

end Readdir

end Nbtrfs
