import Nbtrfs.Fuse
import Nbtrfs.FileMapRuns
import Nbtrfs.Lib.Paged

/-!
# The bytes of a file

Reference: `fuse.c::nbtrfs_read`, `fuse.c::nbtrfs_write`.

`MappedPages` describes the pages of a file that the block map knows. On such pages the loops of
`nbtrfs_read` and `nbtrfs_write` are a copy out of and into the byte array that the pages hold
together. The addresses of the pages are computed in `int`, so the blocks have to lie below `2 ^ 19`.
-/

namespace Nbtrfs

open BlockProg Bytes

/-- The pages `S` of a file are mapped to data blocks of the volume: behind the metadata, one block
for each page, and none of them the indirect block, which is on the volume too. -/
structure MappedPages (disk : DiskInterface) (m : Image) (node : Inode) (blocks : ℕ → UInt64)
    (S : Set ℕ) : Prop where
  le : ∀ i ∈ S, i ≤ maxIndex
  yields : ∀ i ∈ S, Yields disk node m (UInt64.ofNat i) (blocks i)
  ne_zero : ∀ i ∈ S, blocks i ≠ 0
  lt_total : ∀ i ∈ S, (blocks i).toNat < disk.totalBlocks.toNat
  behind : ∀ i ∈ S, dataStart disk.totalBlocks.toNat ≤ (blocks i).toNat
  type : ∀ i ∈ S, blockType (m (blocks i).toNat) = BlockType.data.code
  ne_indirect : ∀ i ∈ S, blocks i ≠ node.indirectBlock
  indirect_lt : ∀ i ∈ S, 12 ≤ i → node.indirectBlock.toNat < disk.totalBlocks.toNat
  inj : ∀ i ∈ S, ∀ j ∈ S, blocks i = blocks j → i = j

/-- The byte offsets of the blocks that the pages `S` are reached through fit an `int`. -/
def NearPages (node : Inode) (blocks : ℕ → UInt64) (S : Set ℕ) : Prop :=
  ∀ i ∈ S, (blocks i).toNat < 524288 ∧ (12 ≤ i → node.indirectBlock.toNat < 524288)

/-- Byte `x` of a file whose page `i` is block `blocks i`. -/
def fileByte (m : Image) (blocks : ℕ → UInt64) (x : ℕ) : UInt8 :=
  Paged.byteAt usableBlockSize 4 m (fun i => (blocks i).toNat) x

/-- The pages of the `n` bytes of a file from `o` on. -/
abbrev filePages (o n : ℕ) : Set ℕ := Paged.pagesOf usableBlockSize o n

/-- `inum` is an inode, not that of the root directory, on a volume that is laid out. -/
structure FileInode (disk : DiskInterface) (m : Image) (inum : UInt64) : Prop where
  layout : Layout disk.mapping disk m
  ne_zero : inum ≠ 0
  capacity : inum.toNat < inodeCapacity disk.totalBlocks.toNat
  own : (inodeAt disk m inum.toNat).inodeNumber = inum

/-- `item_search` finds the file with inode `inum` under the path. -/
def Finds (disk : DiskInterface) (m : Image) (path : CString) (inum : UInt64) : Prop :=
  run disk.mapping (itemSearch disk path) m = some (⟨inum, 0⟩, m)

/-- The regular file with inode `inum`, which is found under the path. -/
structure RegularFile (disk : DiskInterface) (m : Image) (path : CString) (inum : UInt64) : Prop
    extends FileInode disk m inum where
  lookup : Finds disk m path inum

variable {disk : DiskInterface} {m m' : Image} {node node' : Inode} {blocks : ℕ → UInt64} {S : Set ℕ}
  {index p inum : UInt64} {path : CString} {o n : ℕ}

/-! ## Paths that are never found -/

/-- The file that such a path should name cannot be read. -/
theorem run_nbtrfsRead_nested {M : Mapping} {size : UInt64} {r : ℤ × List UInt8}
    (hslashes : 2 ≤ path.count slash)
    (hrun : run M (nbtrfsRead disk path size o) m = some (r, m')) : r = (enoent, []) := by
  rw [nbtrfsRead] at hrun
  obtain ⟨pair, m₁, hsearch, hrest⟩ := run_bind_eq_some.mp hrun
  obtain rfl := eq_zero_of_run_itemSearch hslashes hsearch
  rw [if_pos ⟨rfl, rfl⟩, run_pure] at hrest
  exact (Prod.mk.inj (Option.some.inj hrest)).1.symm

/-! ## Entries of the block map -/

theorem run_inodeGetBlock_unreachable {M : Mapping} (hlo : ¬index.toNat < 12)
    (hhi : index.toNat ≤ maxIndex) (hne : node.indirectBlock ≠ 0)
    (haddr : M.addr node.indirectBlock = none) : run M (inodeGetBlock node index) m = none := by
  rw [inodeGetBlock, dif_neg hlo, if_pos hhi, if_neg hne, run_bind_of_eq (run_fetch _ _)]
  exact run_bind_of_none (run_page_of_none haddr)

theorem run_inodeGetBlock_untyped {M : Mapping} {b : ℕ} (hlo : ¬index.toNat < 12)
    (hhi : index.toNat ≤ maxIndex) (hne : node.indirectBlock ≠ 0)
    (haddr : M.addr node.indirectBlock = some b)
    (htype : blockType (m b) ≠ BlockType.data.code) :
    run M (inodeGetBlock node index) m = some ((-1, none), m) := by
  rw [inodeGetBlock, dif_neg hlo, if_pos hhi, if_neg hne, run_bind_of_eq (run_fetch _ _),
    run_bind_of_eq (run_page haddr), if_pos htype, run_pure]

namespace Yields

/-- A block found behind the first 12 is an entry of the indirect block. -/
theorem exists_entry (hy : Yields disk node m index p) (hne : p ≠ 0) (hlo : ¬index.toNat < 12) :
    index.toNat ≤ maxIndex ∧ node.indirectBlock ≠ 0 ∧ ∃ b,
      disk.mapping.addr node.indirectBlock = some b ∧ blockType (m b) = BlockType.data.code ∧
      p = load64 (m b) (entryOffset index.toNat) := by
  have hhi : index.toNat ≤ maxIndex := by
    by_contra hgt
    exact hne (hy.eq ⟨_, _, run_inodeGetBlock_past (by omega), rfl⟩)
  have hindirect : node.indirectBlock ≠ 0 := by
    intro hzero
    exact hne (hy.eq (Yields.none hlo hzero))
  refine ⟨hhi, hindirect, ?_⟩
  cases haddr : disk.mapping.addr node.indirectBlock with
  | none =>
      obtain ⟨rv, q, hrun, -⟩ := hy
      rw [run_inodeGetBlock_unreachable hlo hhi hindirect haddr] at hrun
      cases hrun
  | some b =>
      by_cases htype : blockType (m b) = BlockType.data.code
      · exact ⟨b, rfl, htype, hy.eq ⟨_, _,
          run_inodeGetBlock_indirect hlo hhi hindirect haddr htype, rfl⟩⟩
      · exact absurd (hy.eq ⟨_, _, run_inodeGetBlock_untyped hlo hhi hindirect haddr htype, rfl⟩) hne

/-- An entry that is found stays when its pointers stay and the indirect block does. -/
theorem congr (hy : Yields disk node m index p) (hne : p ≠ 0)
    (hdirect : node'.directBlocks = node.directBlocks)
    (hindirect : node'.indirectBlock = node.indirectBlock)
    (hpage : ¬index.toNat < 12 → ∀ b, disk.mapping.addr node.indirectBlock = some b →
      blockType (m b) = BlockType.data.code → m' b = m b) :
    Yields disk node' m' index p := by
  by_cases hlo : index.toNat < 12
  · rw [hy.eq (Yields.direct hlo)]
    have hnew : Yields disk node' m' index node'.directBlocks[index.toNat] := Yields.direct hlo
    simp only [hdirect] at hnew
    exact hnew
  · obtain ⟨hhi, hzero, b, haddr, htype, rfl⟩ := hy.exists_entry hne hlo
    have hsame := hpage hlo b haddr htype
    refine ⟨_, _, run_inodeGetBlock_indirect hlo hhi (by rwa [hindirect]) (by rw [hindirect, haddr])
      (by rw [hsame, htype]), ?_⟩
    rw [hsame]
    rfl

/-- `inode_get_block` returns 0 with the block that it finds. -/
theorem run (hy : Yields disk node m index p) (hne : p ≠ 0) :
    run disk.mapping (inodeGetBlock node index) m = some ((0, some p), m) := by
  by_cases hlo : index.toNat < 12
  · obtain rfl := hy.eq (Yields.direct hlo)
    rw [run_inodeGetBlock_direct hlo, if_pos hne]
  · obtain ⟨hhi, hzero, b, haddr, htype, rfl⟩ := hy.exists_entry hne hlo
    exact run_inodeGetBlock_indirect hlo hhi hzero haddr htype

end Yields

/-! ## Mapped pages -/

theorem pageIndex_eq {x : ℕ} (hx : x / usableBlockSize ≤ maxIndex) :
    pageIndex x = UInt64.ofNat (x / usableBlockSize) := by
  have hmax : maxIndex = 511 := rfl
  rw [pageIndex, int32_of_lt (by omega), ofInt_natCast]

theorem chunk_le (x r : ℕ) : chunk x r ≤ r := min_le_right _ _

theorem chunk_pos {x r : ℕ} (hr : r ≠ 0) : 0 < chunk x r := by
  have hmod : x % usableBlockSize < usableBlockSize := Nat.mod_lt _ (by decide)
  rw [chunk]
  omega

theorem mod_add_chunk_le (x r : ℕ) : x % usableBlockSize + chunk x r ≤ usableBlockSize := by
  have hmod : x % usableBlockSize < usableBlockSize := Nat.mod_lt _ (by decide)
  rw [chunk]
  omega

theorem NearPages.mono {T : Set ℕ} (hnear : NearPages node blocks S) (hT : T ⊆ S) :
    NearPages node blocks T := fun i hi => hnear i (hT hi)

namespace MappedPages

theorem mono {T : Set ℕ} (h : MappedPages disk m node blocks S) (hT : T ⊆ S) :
    MappedPages disk m node blocks T where
  le i hi := h.le i (hT hi)
  yields i hi := h.yields i (hT hi)
  ne_zero i hi := h.ne_zero i (hT hi)
  lt_total i hi := h.lt_total i (hT hi)
  behind i hi := h.behind i (hT hi)
  type i hi := h.type i (hT hi)
  ne_indirect i hi := h.ne_indirect i (hT hi)
  indirect_lt i hi := h.indirect_lt i (hT hi)
  inj i hi j hj := h.inj i (hT hi) j (hT hj)

theorem addr (h : MappedPages disk m node blocks S) (hnear : NearPages node blocks S) {i : ℕ}
    (hi : i ∈ S) : disk.mapping.addr (blocks i) = some (blocks i).toNat :=
  DiskInterface.diskGetBlock_of_lt (h.lt_total i hi) (hnear i hi).1

theorem inj_toNat (h : MappedPages disk m node blocks S) {i j : ℕ} (hi : i ∈ S) (hj : j ∈ S)
    (heq : (blocks i).toNat = (blocks j).toNat) : i = j :=
  h.inj i hi j hj (UInt64.toNat_inj.mp heq)

/-- The indirect block that a page is found through is no data block of the file. -/
theorem indirect_ne (h : MappedPages disk m node blocks S)
    (hnear : ∀ i ∈ S, 12 ≤ i → node.indirectBlock.toNat < 524288) {i j b : ℕ} (hi : i ∈ S)
    (hj : j ∈ S) (hlo : 12 ≤ i) (haddr : disk.mapping.addr node.indirectBlock = some b) :
    b ≠ (blocks j).toNat := by
  have hlt := hnear i hi hlo
  obtain rfl : b = node.indirectBlock.toNat := DiskInterface.eq_of_diskGetBlock haddr (by omega)
  intro heq
  exact h.ne_indirect j hj (UInt64.toNat_inj.mp heq.symm)

theorem index_lt (h : MappedPages disk m node blocks S) {i : ℕ} (hi : i ∈ S) :
    (UInt64.ofNat i).toNat = i := by
  have hmax : maxIndex = 511 := rfl
  have hle := h.le i hi
  exact toNat_ofNat_block (by omega)

theorem run_get (h : MappedPages disk m node blocks S) {x : ℕ} (hx : x / usableBlockSize ∈ S) :
    run disk.mapping (inodeGetBlock node (pageIndex x)) m =
      some ((0, some (blocks (x / usableBlockSize))), m) := by
  rw [pageIndex_eq (h.le _ hx)]
  exact (h.yields _ hx).run (h.ne_zero _ hx)

end MappedPages

/-! ## Writing -/

/-- `w` bytes of `buf` were copied to the file from offset `o` on. -/
structure Patched (m m' : Image) (blocks : ℕ → UInt64) (S : Set ℕ) (o w : ℕ) (buf : Bytes) :
    Prop where
  byte : ∀ x, x / usableBlockSize ∈ S → fileByte m' blocks x =
    if o ≤ x ∧ x < o + w then buf (x - o) else fileByte m blocks x
  type : ∀ b, blockType (m' b) = blockType (m b)
  other : ∀ b, (∀ i ∈ S, b ≠ (blocks i).toNat) → m' b = m b

theorem Patched.refl (m : Image) (blocks : ℕ → UInt64) (S : Set ℕ) (o : ℕ) (buf : Bytes) :
    Patched m m blocks S o 0 buf where
  byte x _ := by rw [if_neg (by omega)]
  type _ := rfl
  other _ _ := rfl

variable {m₁ : Image} {w : ℕ} {buf : Bytes}

/-- Writing into the pages of a file leaves its map of blocks as it is. -/
theorem MappedPages.patched (h : MappedPages disk m node blocks S)
    (hnear : ∀ i ∈ S, 12 ≤ i → node.indirectBlock.toNat < 524288)
    (hp : Patched m m₁ blocks S o w buf) : MappedPages disk m₁ node blocks S where
  le := h.le
  yields i hi := (h.yields i hi).congr (h.ne_zero i hi) rfl rfl fun hlo b haddr _ => by
    rw [h.index_lt hi] at hlo
    exact hp.other b fun j hj => h.indirect_ne hnear hi hj (by omega) haddr
  ne_zero := h.ne_zero
  lt_total := h.lt_total
  behind := h.behind
  type i hi := by rw [hp.type, h.type i hi]
  ne_indirect := h.ne_indirect
  indirect_lt := h.indirect_lt
  inj := h.inj

/-- One more copy, into one page. -/
theorem Patched.step (h : MappedPages disk m node blocks S) (hp : Patched m m₁ blocks S o w buf)
    {c : ℕ} (hi : (o + w) / usableBlockSize ∈ S)
    (hc : (o + w) % usableBlockSize + c ≤ usableBlockSize) :
    Patched m (Function.update m₁ (blocks ((o + w) / usableBlockSize)).toNat
      (copyIn (m₁ (blocks ((o + w) / usableBlockSize)).toNat) (4 + (o + w) % usableBlockSize) c
        fun k => buf (w + k))) blocks S o (w + c) buf where
  byte x hx := by
    have hcopy : Paged.byteAt usableBlockSize 4 _ (fun i => (blocks i).toNat) x =
        if o + w ≤ x ∧ x < o + w + c then buf (w + (x - (o + w)))
        else Paged.byteAt usableBlockSize 4 m₁ (fun i => (blocks i).toNat) x :=
      Paged.byteAt_copyIn (by decide) hc (fun k => buf (w + k)) (h.inj_toNat hx hi)
    rw [fileByte, hcopy]
    by_cases hnew : o + w ≤ x ∧ x < o + w + c
    · rw [if_pos hnew, if_pos (by omega)]
      congr 1
      omega
    · rw [if_neg hnew, ← fileByte, hp.byte x hx]
      by_cases hold : o ≤ x ∧ x < o + w
      · rw [if_pos hold, if_pos (by omega)]
      · rw [if_neg hold, if_neg (by omega)]
  type b := by
    by_cases hb : b = (blocks ((o + w) / usableBlockSize)).toNat
    · subst hb
      rw [Function.update_self, blockType_congr fun k hk => copyIn_apply_ne (by omega), hp.type]
    · rw [Function.update_of_ne hb, hp.type]
  other b hb := by rw [Function.update_of_ne (hb _ hi), hp.other b hb]

theorem run_writablePage_mapped (h : MappedPages disk m node blocks S) {x : ℕ}
    (hx : x / usableBlockSize ∈ S) : run disk.mapping (writablePage disk node (pageIndex x)) m =
      some (some (node, blocks (x / usableBlockSize)), m) := by
  rw [writablePage, run_bind_of_eq (h.run_get hx)]
  simp only [Option.getD_some]
  rw [if_pos (h.ne_zero _ hx), run_pure]

/-- On mapped pages the loop of `nbtrfs_write` copies everything. -/
theorem run_writePages (h : MappedPages disk m node blocks S) (hnear : NearPages node blocks S)
    {fuel r : ℕ} (hr : r ≤ fuel) (hS : filePages (o + w) r ⊆ S)
    (hp : Patched m m₁ blocks S o w buf) :
    ∃ m₂, run disk.mapping (writePages disk buf fuel node (o + w) r w) m₁ =
      some ((some node, w + r), m₂) ∧ Patched m m₂ blocks S o (w + r) buf := by
  induction fuel generalizing w r m₁ with
  | zero =>
      obtain rfl : r = 0 := by omega
      exact ⟨m₁, rfl, hp⟩
  | succ fuel ih =>
      by_cases hzero : r = 0
      · subst hzero
        exact ⟨m₁, by rw [writePages, if_pos rfl, run_pure, Nat.add_zero], hp⟩
      · have hi : (o + w) / usableBlockSize ∈ S := hS (Paged.mem_pagesOf le_rfl (by omega))
        have hle := chunk_le (o + w) r
        have hpos := chunk_pos (x := o + w) hzero
        have h₁ := h.patched (fun i hi => (hnear i hi).2) hp
        have hstep := hp.step h hi (mod_add_chunk_le (o + w) r)
        obtain ⟨m₂, hrun, hp₂⟩ := ih (w := w + chunk (o + w) r) (r := r - chunk (o + w) r) (by omega)
          ((Nat.add_assoc o w _ ▸ Paged.pagesOf_drop hle).trans hS) hstep
        refine ⟨m₂, ?_, by rwa [show w + chunk (o + w) r + (r - chunk (o + w) r) = w + r by omega]
          at hp₂⟩
        rw [writePages, if_neg hzero, run_bind_of_eq (run_writablePage_mapped h₁ hi)]
        show run _ (_ >>= _) _ = _
        rw [run_bind_of_eq (run_fetch _ _), run_bind_of_eq (run_modify _ (h.addr hnear hi)),
          run_bind_of_eq (run_writeBack _ _), Nat.add_assoc o w, hrun]
        congr 3
        omega

/-! ## Reading -/

/-- On mapped pages the loop of `nbtrfs_read` copies everything. -/
theorem run_readPages (h : MappedPages disk m node blocks S) (hnear : NearPages node blocks S)
    {fuel r : ℕ} (hr : r ≤ fuel) (hS : filePages o r ⊆ S) (done : List UInt8) :
    run disk.mapping (readPages node fuel o r done) m = some ((((done.length + r : ℕ) : ℤ),
      done ++ (List.range r).map fun i => fileByte m blocks (o + i)), m) := by
  induction fuel generalizing o r done with
  | zero =>
      obtain rfl : r = 0 := by omega
      rw [readPages, run_pure, List.range_zero, List.map_nil, List.append_nil, Nat.add_zero]
  | succ fuel ih =>
      by_cases hzero : r = 0
      · subst hzero
        rw [readPages, if_pos rfl, run_pure, List.range_zero, List.map_nil, List.append_nil,
          Nat.add_zero]
      · have hi : o / usableBlockSize ∈ S := hS (Paged.mem_pagesOf le_rfl (by omega))
        have hle := chunk_le o r
        have hpos := chunk_pos (x := o) hzero
        have hrec := ih (o := o + chunk o r) (r := r - chunk o r) (by omega)
          ((Paged.pagesOf_drop hle).trans hS)
        have hbytes : ((List.range (chunk o r)).map fun i =>
            m (blocks (o / usableBlockSize)).toNat (4 + o % usableBlockSize + i)) =
            (List.range (chunk o r)).map fun i => fileByte m blocks (o + i) := by
          apply List.map_congr_left
          intro i hmem
          obtain ⟨hdiv, hmod⟩ := Paged.div_mod_of_chunk (by decide) (mod_add_chunk_le o r)
            (Nat.le_add_right o i) (Nat.add_lt_add_left (List.mem_range.mp hmem) o)
          rw [fileByte, Paged.byteAt, hdiv, hmod, Nat.add_sub_cancel_left, Nat.add_assoc]
        rw [readPages, if_neg hzero, run_bind_of_eq (h.run_get hi)]
        simp only [Option.getD_some]
        rw [if_neg (not_not.mpr rfl), if_neg (h.ne_zero _ hi), run_bind_of_eq (run_fetch _ _),
          run_bind_of_eq (run_page (h.addr hnear hi)), hrec, hbytes, List.append_assoc,
          Paged.map_range_append _ hle, List.length_append, List.length_map, List.length_range,
          Nat.add_assoc, Nat.add_sub_cancel' hle]
        simp only [Nat.add_assoc]

/-! ## Pages that are out of reach -/

/-- Below `2 ^ 20` blocks, a page that is reached is reached at its own block. -/
theorem MappedPages.addr_eq (h : MappedPages disk m node blocks S)
    (hsmall : disk.totalBlocks.toNat ≤ 1048576) {i b : ℕ} (hi : i ∈ S)
    (haddr : disk.mapping.addr (blocks i) = some b) : b = (blocks i).toNat :=
  DiskInterface.eq_of_diskGetBlock haddr ((h.lt_total i hi).trans_le hsmall)

/-- Behind the page of `x`, the pages of a range are those of the rest of the range. -/
theorem mem_filePages_rest {x r i : ℕ} (hi : i ∈ filePages x r)
    (hne : i ≠ x / usableBlockSize) : i ∈ filePages (x + chunk x r) (r - chunk x r) := by
  obtain ⟨y, hlo, hhi, rfl⟩ := hi
  have hrest : x + chunk x r ≤ y := by
    by_contra hlt
    exact hne (Paged.div_mod_of_chunk (by decide) (mod_add_chunk_le x r) hlo (by omega)).1
  exact Paged.mem_pagesOf hrest (by omega)

/-- The loop of `nbtrfs_write` crashes at a page whose block is out of reach. -/
theorem run_writePages_unreachable (h : MappedPages disk m node blocks S)
    (hnear : ∀ i ∈ S, 12 ≤ i → node.indirectBlock.toNat < 524288)
    (hsmall : disk.totalBlocks.toNat ≤ 1048576) {fuel r i : ℕ} (hr : r ≤ fuel)
    (hS : filePages (o + w) r ⊆ S) (hp : Patched m m₁ blocks S o w buf)
    (hi : i ∈ filePages (o + w) r) (hbad : disk.mapping.addr (blocks i) = none) :
    run disk.mapping (writePages disk buf fuel node (o + w) r w) m₁ = none := by
  induction fuel generalizing w r m₁ with
  | zero =>
      obtain ⟨x, hlo, hhi, -⟩ := hi
      omega
  | succ fuel ih =>
      have hzero : r ≠ 0 := by
        obtain ⟨x, hlo, hhi, -⟩ := hi
        omega
      have hj : (o + w) / usableBlockSize ∈ S := hS (Paged.mem_pagesOf le_rfl (by omega))
      have hle := chunk_le (o + w) r
      have hpos := chunk_pos (x := o + w) hzero
      rw [writePages, if_neg hzero,
        run_bind_of_eq (run_writablePage_mapped (h.patched hnear hp) hj)]
      show run _ (_ >>= _) _ = _
      rw [run_bind_of_eq (run_fetch _ _)]
      cases haddr : disk.mapping.addr (blocks ((o + w) / usableBlockSize)) with
      | none => exact run_bind_of_none (by rw [BlockProg.modify, BlockProg.run, haddr])
      | some b =>
          obtain rfl := h.addr_eq hsmall hj haddr
          have hne : i ≠ (o + w) / usableBlockSize := by
            rintro rfl
            rw [hbad] at haddr
            cases haddr
          have hstep := hp.step h hj (mod_add_chunk_le (o + w) r)
          rw [run_bind_of_eq (run_modify _ haddr), run_bind_of_eq (run_writeBack _ _),
            Nat.add_assoc o w]
          exact ih (by omega) ((Nat.add_assoc o w _ ▸ Paged.pagesOf_drop hle).trans hS) hstep
            (Nat.add_assoc o w _ ▸ mem_filePages_rest hi hne)

/-- So does the loop of `nbtrfs_read`. -/
theorem run_readPages_unreachable (h : MappedPages disk m node blocks S) {fuel r i : ℕ}
    (hr : r ≤ fuel) (hS : filePages o r ⊆ S) (hi : i ∈ filePages o r)
    (hbad : disk.mapping.addr (blocks i) = none) (done : List UInt8) :
    run disk.mapping (readPages node fuel o r done) m = none := by
  induction fuel generalizing o r done with
  | zero =>
      obtain ⟨x, hlo, hhi, -⟩ := hi
      omega
  | succ fuel ih =>
      have hzero : r ≠ 0 := by
        obtain ⟨x, hlo, hhi, -⟩ := hi
        omega
      have hj : o / usableBlockSize ∈ S := hS (Paged.mem_pagesOf le_rfl (by omega))
      have hle := chunk_le o r
      have hpos := chunk_pos (x := o) hzero
      rw [readPages, if_neg hzero, run_bind_of_eq (h.run_get hj)]
      simp only [Option.getD_some]
      rw [if_neg (not_not.mpr rfl), if_neg (h.ne_zero _ hj), run_bind_of_eq (run_fetch _ _)]
      cases haddr : disk.mapping.addr (blocks (o / usableBlockSize)) with
      | none => exact run_bind_of_none (run_page_of_none haddr)
      | some b =>
          have hne : i ≠ o / usableBlockSize := by
            rintro rfl
            rw [hbad] at haddr
            cases haddr
          rw [run_bind_of_eq (run_page haddr)]
          exact ih (by omega) ((Paged.pagesOf_drop hle).trans hS) (mem_filePages_rest hi hne) _

end Nbtrfs
