import Nbtrfs.ReadBack

/-!
# Taking pages for a file

Reference: `fuse.c::nbtrfs_write`, `inode.c::inode_set_block`.

A write takes a free block for each page of the range that the block map does not know. `Takes` is what
every such step leaves alone, and `OpenFile` what holds of the file between two iterations.
-/

namespace Nbtrfs

open BlockProg Bytes

variable {disk : DiskInterface} {m m' m₁ m₂ : Image} {node node' : Inode} {blocks : ℕ → UInt64}
  {inum p : UInt64} {o w : ℕ} {buf : Bytes} {f i : ℕ} {pg : Bytes}

/-- No block from `2 ^ 19` on is free. -/
def FarTaken (disk : DiskInterface) (m : Image) : Prop :=
  ∀ b, 524288 ≤ b → b < disk.totalBlocks.toNat → blockBit m b = true

/-! ## Free pages -/

theorem FarTaken.mono (h : FarTaken disk m)
    (hbits : ∀ b < disk.totalBlocks.toNat, blockBit m b = true → blockBit m' b = true) :
    FarTaken disk m' := fun b hlo hhi => hbits b hhi (h b hlo hhi)

/-- Without a free page `alloc_page` returns 0. -/
theorem run_allocPage_none (L : Layout disk.mapping disk m) (hnear : nearFree disk m = 0)
    (hfar : FarTaken disk m) : run disk.mapping (allocPage disk) m = some (0, m) := by
  have hblocks := le_blockBitmapBlocks disk.totalBlocks.toNat
  have hpos : 0 < disk.totalBlocks.toNat := by
    have := L.le_total
    have := dataStart_pos disk.totalBlocks.toNat
    omega
  refine run_allocPage_full (L.bitmapTo.mono (by omega)) fun b hb => ?_
  by_cases hlt : b < 524288
  · rw [nearFree, Finset.card_eq_zero, Finset.filter_eq_empty_iff] at hnear
    have hbit := hnear (Finset.mem_range.mpr (lt_min hb hlt))
    simpa using hbit
  · exact hfar b (by omega) hb

/-! ## What taking a page leaves alone -/

/-- Free blocks were taken: the blocks in use behind the metadata are the same, and a lookup cannot
tell the metadata apart. -/
structure Takes (disk : DiskInterface) (m m' : Image) : Prop where
  bit : ∀ b < disk.totalBlocks.toNat, blockBit m b = true → blockBit m' b = true
  page : ∀ b, dataStart disk.totalBlocks.toNat ≤ b → b < disk.totalBlocks.toNat →
    blockBit m b = true → m' b = m b
  look : ∀ b < dataStart disk.totalBlocks.toNat, LooksAlike (m b) (m' b)
  layout : Layout disk.mapping disk m → Layout disk.mapping disk m'

theorem Takes.refl (disk : DiskInterface) (m : Image) : Takes disk m m where
  bit _ _ h := h
  page _ _ _ _ := rfl
  look _ _ := LooksAlike.refl _
  layout L := L

theorem Takes.trans (h : Takes disk m m₁) (h' : Takes disk m₁ m₂) : Takes disk m m₂ where
  bit b hb hset := h'.bit b hb (h.bit b hb hset)
  page b hlo hb hset := by rw [h'.page b hlo hb (h.bit b hb hset), h.page b hlo hb hset]
  look b hb := (h.look b hb).trans (h'.look b hb)
  layout L := h'.layout (h.layout L)

/-- A block in use looks the same. -/
theorem Takes.looksAlike (h : Takes disk m m') {b : ℕ} (hb : b < disk.totalBlocks.toNat)
    (hset : blockBit m b = true) : LooksAlike (m b) (m' b) := by
  by_cases hlow : b < dataStart disk.totalBlocks.toNat
  · exact h.look b hlow
  · rw [h.page b (by omega) hb hset]
    exact LooksAlike.refl _

/-- The metadata blocks are taken, those of the bitmap among them. -/
theorem Layout.bitmapArea_of_marked (L : Layout disk.mapping disk m)
    (hmarked : ∀ b < dataStart disk.totalBlocks.toNat, blockBit m b = true) : BitmapArea disk m where
  type b h1 hb := L.bitmap b h1 (by rw [inodeTableStart, inodeBitmapStart]; omega)
  bit b hb := hmarked b (by rw [dataStart, inodeTableStart, inodeBitmapStart]; omega)

theorem bitmapBlocks_lt_dataStart (total : ℕ) : blockBitmapBlocks total < dataStart total := by
  rw [dataStart, inodeTableStart, inodeBitmapStart]
  omega

/-- No lookup can tell a block that was taken from a free one. -/
theorem looksAlike_takeBlock (L : Layout disk.mapping disk m)
    (hf : f < disk.totalBlocks.toNat) (b : ℕ) : LooksAlike (m b) (takeBlock m f b) := by
  have hblocks := le_blockBitmapBlocks disk.totalBlocks.toNat
  rcases Nat.eq_zero_or_pos b with rfl | hpos
  · refine ⟨blockType_takeBlock m f 0, fun htype => ?_, fun _ => ?_⟩
    · rw [L.super] at htype
      exact absurd htype (by decide)
    · rw [superblock_takeBlock L.super]
  · by_cases hb : b = 1 + f / 4092
    · subst hb
      have htype := L.bitmap (1 + f / 4092) hpos (by rw [inodeTableStart, inodeBitmapStart]; omega)
      exact LooksAlike.of_type htype (by rw [blockType_takeBlock, htype]) (by decide) (by decide)
    · rw [takeBlock_of_ne (by omega) hb]
      exact LooksAlike.refl _

/-- The image with block `f` taken and filled with `pg`. -/
def tookPage (m : Image) (f : ℕ) (pg : Bytes) : Image := Function.update (takeBlock m f) f pg

theorem tookPage_self : tookPage m f pg f = pg := Function.update_self _ _ _

section Take

variable (hmarked : ∀ b < dataStart disk.totalBlocks.toNat, blockBit m b = true)
  (H : FirstFree disk m f)
include hmarked H

theorem FirstFree.behind_of_marked : dataStart disk.totalBlocks.toNat ≤ f := by
  by_contra hlt
  have hset := hmarked f (by omega)
  rw [H.clear] at hset
  cases hset

/-- The bits after block `f` was taken and filled. -/
theorem FirstFree.blockBit_filled {b : ℕ} (hb : b < disk.totalBlocks.toNat) :
    blockBit (tookPage m f pg) b = if b = f then true else blockBit m b := by
  have hlt := bitmapBlocks_lt_dataStart disk.totalBlocks.toNat
  have hbehind := H.behind_of_marked hmarked
  rw [← blockBit_takeBlock]
  exact BitmapArea.bit_congr (fun c hc => Function.update_of_ne (by omega) _ _) hb

/-- Block `f` is taken and filled. -/
theorem FirstFree.takes (L : Layout disk.mapping disk m) :
    Takes disk m (tookPage m f pg) := by
  have hlt := bitmapBlocks_lt_dataStart disk.totalBlocks.toNat
  have hbehind := H.behind_of_marked hmarked
  have hother : ∀ b, b ≠ f → tookPage m f pg b = takeBlock m f b :=
    fun b hb => Function.update_of_ne hb _ _
  refine ⟨fun b hb hset => ?_, fun b hlo hb hset => ?_, fun b hb => ?_, fun _ => ?_⟩
  · rw [H.blockBit_filled hmarked hb, hset, ite_self]
  · have hne : b ≠ f := by
      rintro rfl
      rw [H.clear] at hset
      cases hset
    rw [hother b hne, takeBlock_of_behind H.lt_total (by omega)]
  · rw [hother b (by omega)]
    exact looksAlike_takeBlock L H.lt_total b
  · have hpos := dataStart_pos disk.totalBlocks.toNat
    exact (L.takeBlock f).congr (by rw [hother 0 (by omega)]) (by rw [hother 0 (by omega)])
      fun b hb => by rw [hother b (by omega)]

end Take

/-- The inode is stored. -/
theorem takes_putInode (L : Layout disk.mapping disk m) {k : ℕ}
    (hk : k < inodeCapacity disk.totalBlocks.toNat) : Takes disk m (putInode disk m k node) := by
  have hslot : slotBlock disk k < _ := slotBlock_lt hk
  refine ⟨fun b hb hset => ?_, fun b hlo _ _ => Function.update_of_ne (by omega) _ _,
    fun b _ => looksAlike_putInode L hk b, fun L => L.putInode k node⟩
  rw [blockBit_putInode hb, hset]

/-! ## Entries that are not there -/

/-- The entry of an index stays when its pointers stay and the indirect block does. -/
theorem Yields.congr_page (hy : Yields disk node m (UInt64.ofNat i) p) (hi : i ≤ maxIndex)
    {node' : Inode} (hdirect : node'.directBlocks[i]? = node.directBlocks[i]?)
    (hindirect : node'.indirectBlock = node.indirectBlock)
    (hpage : 12 ≤ i → ∀ b, disk.mapping.addr node.indirectBlock = some b → m' b = m b) :
    Yields disk node' m' (UInt64.ofNat i) p := by
  have hmax : maxIndex = 511 := rfl
  have hnat : (UInt64.ofNat i).toNat = i := toNat_ofNat_block (by omega)
  by_cases hlo : (UInt64.ofNat i).toNat < 12
  · rw [hy.eq (Yields.direct hlo)]
    have hnew : Yields disk node' m' (UInt64.ofNat i) node'.directBlocks[(UInt64.ofNat i).toNat] :=
      Yields.direct hlo
    simp only [hnat] at hnew hlo ⊢
    rw [Vector.getElem?_eq_getElem hlo, Vector.getElem?_eq_getElem hlo, Option.some.injEq] at hdirect
    rwa [hdirect] at hnew
  · by_cases hzero : node.indirectBlock = 0
    · rw [hy.eq (Yields.none hlo hzero)]
      exact Yields.none hlo (by rw [hindirect, hzero])
    · cases haddr : disk.mapping.addr node.indirectBlock with
      | none =>
          obtain ⟨rv, q, hrun, -⟩ := hy
          rw [run_inodeGetBlock_unreachable hlo (by omega) hzero haddr] at hrun
          cases hrun
      | some b =>
          have hsame := hpage (by omega) b haddr
          have hzero' : node'.indirectBlock ≠ 0 := by rwa [hindirect]
          have haddr' : disk.mapping.addr node'.indirectBlock = some b := by rw [hindirect, haddr]
          by_cases htype : blockType (m b) = BlockType.data.code
          · rw [hy.eq ⟨_, _, run_inodeGetBlock_indirect hlo (by omega) hzero haddr htype, rfl⟩]
            refine ⟨_, _, run_inodeGetBlock_indirect hlo (by omega) hzero' haddr'
              (by rw [hsame, htype]), ?_⟩
            rw [hsame]
          · rw [hy.eq ⟨_, _, run_inodeGetBlock_untyped hlo (by omega) hzero haddr htype, rfl⟩]
            exact ⟨_, _, run_inodeGetBlock_untyped hlo (by omega) hzero' haddr'
              (by rwa [hsame]), rfl⟩

theorem takes_growInode (L : Layout disk.mapping disk m) {k : ℕ}
    (hk : k < inodeCapacity disk.totalBlocks.toNat) (size : ℕ) :
    Takes disk m (growInode disk m k size) := by
  rw [growInode]
  split
  · exact takes_putInode L hk
  · exact Takes.refl disk m

/-! ## The file between two iterations -/

/-- An iteration that finds no entry takes a page and goes on with what `inode_set_block` leaves. -/
theorem run_writablePage_take {index : UInt64} {rv rv' : ℤ} (hy : Yields disk node m index 0)
    (A : BitmapArea disk m) (H : FirstFree disk m f)
    (hset : run disk.mapping (inodeSetBlock disk node index (UInt64.ofNat f))
      (tookPage m f (clearDataPage (m f))) =
      some ((rv, node'), m₁))
    (hwrite : run disk.mapping (inodeWrite node') m₁ = some (rv', m')) :
    run disk.mapping (writablePage disk node index) m =
      some (some (node', UInt64.ofNat f), m') := by
  have hpage : takeBlock m f f = m f := takeBlock_of_behind H.lt_total (A.lt_of_clear H.clear)
  have hmod : run disk.mapping (BlockProg.modify (UInt64.ofNat f) clearDataPage) (takeBlock m f) =
      some ((), tookPage m f (clearDataPage (m f))) := by rw [run_modify _ H.addr, hpage, tookPage]
  obtain ⟨rv, q, hget, hq⟩ := hy
  rw [writablePage, run_bind_of_eq hget]
  simp only [hq]
  rw [if_neg (not_not.mpr rfl), run_bind_of_eq (H.run_allocPage A)]
  simp only [if_neg (H.number_ne_zero A)]
  rw [run_bind_of_eq (run_fetch _ _), run_bind_of_eq hmod, run_bind_of_eq hset]
  show run _ (_ >>= _) _ = _
  rw [run_bind_of_eq hwrite, run_pure]

theorem blockType_clearDataPage : blockType (clearDataPage pg) = BlockType.data.code := by
  rw [clearDataPage, blockType_congr fun k hk => copyIn_apply_ne (by omega), blockType_setBlockType]

theorem clearDataPage_apply {k : ℕ} (hk : k < usableBlockSize) : clearDataPage pg (4 + k) = 0 := by
  rw [clearDataPage, copyIn_apply hk]

/-- The inode that the loop holds is the stored one, and its block map gives `blocks`: data blocks that
are marked as taken, each with one place in the map. -/
structure OpenFile (disk : DiskInterface) (inum : UInt64) (m : Image) (node : Inode)
    (blocks : ℕ → UInt64) : Prop where
  layout : Layout disk.mapping disk m
  marked : ∀ b < dataStart disk.totalBlocks.toNat, blockBit m b = true
  capacity : inum.toNat < inodeCapacity disk.totalBlocks.toNat
  own : node.inodeNumber = inum
  stored : inodeAt disk m inum.toNat = node
  mapped : MappedPages disk m node blocks {i | blocks i ≠ 0}
  used : ∀ i, blocks i ≠ 0 → blockBit m (blocks i).toNat = true
  near : node.indirectBlock.toNat < 524288
  indirect_lt : node.indirectBlock.toNat < disk.totalBlocks.toNat
  indirect : node.indirectBlock ≠ 0 → dataStart disk.totalBlocks.toNat ≤ node.indirectBlock.toNat ∧
    blockBit m node.indirectBlock.toNat = true

/-- Every entry of the block map is known, the empty ones too. -/
def Entries (disk : DiskInterface) (node : Inode) (m : Image) (blocks : ℕ → UInt64) : Prop :=
  ∀ i ≤ maxIndex, Yields disk node m (UInt64.ofNat i) (blocks i)

/-- `p` was free on `m` and is taken on `m'`. -/
structure NewPage (disk : DiskInterface) (m m' : Image) (p : UInt64) : Prop where
  ne_zero : p ≠ 0
  near : p.toNat < 524288
  lt_total : p.toNat < disk.totalBlocks.toNat
  behind : dataStart disk.totalBlocks.toNat ≤ p.toNat
  clear : blockBit m p.toNat = false
  set : blockBit m' p.toNat = true

theorem FirstFree.toNat_number (H : FirstFree disk m f) : (UInt64.ofNat f).toNat = f := by
  have hnear := H.lt.trans_le (addressable_le disk)
  exact toNat_ofNat_block (by omega)

/-- The first free block, taken in the course of a run, is a new page of that run. -/
theorem FirstFree.newPage (hmarked : ∀ b < dataStart disk.totalBlocks.toNat, blockBit m₁ b = true)
    (H : FirstFree disk m₁ f) (T : Takes disk m m₁)
    (hm : m₂ = tookPage m₁ f pg)
    (T' : Takes disk m₂ m') :
    NewPage disk m m' (UInt64.ofNat f) := by
  have hbehind := H.behind_of_marked hmarked
  have hpos := dataStart_pos disk.totalBlocks.toNat
  have hlt := H.lt_total
  have hnear := H.lt.trans_le (addressable_le disk)
  refine ⟨ofNat_block_ne_zero (by omega) (by omega), ?_, ?_, ?_, ?_, ?_⟩ <;> rw [H.toNat_number]
  · exact hnear
  · exact hlt
  · exact hbehind
  · by_contra hset
    have hbit := T.bit f hlt (by simpa using hset)
    rw [H.clear] at hbit
    cases hbit
  · exact T'.bit f hlt (by rw [hm, H.blockBit_filled hmarked hlt, if_pos rfl])

namespace OpenFile

variable (O : OpenFile disk inum m node blocks)
include O

theorem bitmapArea : BitmapArea disk m := O.layout.bitmapArea_of_marked O.marked

theorem marked_of_takes (T : Takes disk m m') :
    ∀ b < dataStart disk.totalBlocks.toNat, blockBit m' b = true :=
  fun b hb => T.bit b (hb.trans_le O.layout.le_total) (O.marked b hb)

/-- The page of an entry stays when blocks are taken. -/
theorem page_of_takes (T : Takes disk m m') (hne : blocks i ≠ 0) :
    m' (blocks i).toNat = m (blocks i).toNat :=
  T.page _ (O.mapped.behind i hne) (O.mapped.lt_total i hne) (O.used i hne)

/-- So does the indirect block. -/
theorem indirect_of_takes (T : Takes disk m m') {b : ℕ}
    (haddr : disk.mapping.addr node.indirectBlock = some b) (hne : node.indirectBlock ≠ 0) :
    m' b = m b := by
  have hnear := O.near
  obtain ⟨hbehind, hset⟩ := O.indirect hne
  obtain rfl : b = node.indirectBlock.toNat := DiskInterface.eq_of_diskGetBlock haddr (by omega)
  exact T.page _ hbehind O.indirect_lt hset

/-- An entry stays when blocks are taken, the indirect block is kept, and its pointer is. -/
theorem yields_of_takes (T : Takes disk m m') (hi : i ≤ maxIndex)
    (hdirect : node'.directBlocks[i]? = node.directBlocks[i]?)
    (hindirect : node'.indirectBlock = node.indirectBlock)
    (hy : Yields disk node m (UInt64.ofNat i) p) : Yields disk node' m' (UInt64.ofNat i) p := by
  have hmax : maxIndex = 511 := rfl
  by_cases hzero : node.indirectBlock = 0
  · by_cases hlo : i < 12
    · exact hy.congr_page hi hdirect hindirect fun h12 => absurd hlo (by omega)
    · have hnat : (UInt64.ofNat i).toNat = i := toNat_ofNat_block (by omega)
      rw [hy.eq (Yields.none (by omega) hzero)]
      exact Yields.none (by omega) (by rw [hindirect, hzero])
  · exact hy.congr_page hi hdirect hindirect fun _ b haddr => O.indirect_of_takes T haddr hzero

/-- The map takes a new page, and perhaps a new indirect block. -/
theorem extend (T : Takes disk m m') (hi : i ≤ maxIndex) (hfree : blocks i = 0)
    (hown : node'.inodeNumber = inum) (hstored : inodeAt disk m' inum.toNat = node')
    (hp : NewPage disk m m' p) (htype : blockType (m' p.toNat) = BlockType.data.code)
    (hentry : Yields disk node' m' (UInt64.ofNat i) p)
    (hkeep : ∀ j, blocks j ≠ 0 → Yields disk node' m' (UInt64.ofNat j) (blocks j))
    (hindirect : node'.indirectBlock = node.indirectBlock ∨
      NewPage disk m m' node'.indirectBlock ∧ p ≠ node'.indirectBlock) :
    OpenFile disk inum m' node' (Function.update blocks i p) := by
  have hsame : ∀ j, j ≠ i → Function.update blocks i p j = blocks j :=
    fun j hj => Function.update_of_ne hj _ _
  have hcases : ∀ j, Function.update blocks i p j ≠ 0 → j = i ∨ j ≠ i ∧ blocks j ≠ 0 := by
    intro j hj
    by_cases hji : j = i
    · exact Or.inl hji
    · rw [hsame j hji] at hj
      exact Or.inr ⟨hji, hj⟩
  have hold : ∀ j, blocks j ≠ 0 → ∀ q, NewPage disk m m' q → blocks j ≠ q := by
    intro j hj q hq heq
    have hset := O.used j hj
    rw [heq, hq.clear] at hset
    cases hset
  have hself : Function.update blocks i p i = p := Function.update_self _ _ _
  have hzero : node'.indirectBlock = node.indirectBlock → p ≠ node.indirectBlock := by
    intro _ heq
    obtain ⟨-, hset⟩ := O.indirect (heq ▸ hp.ne_zero)
    rw [← heq, hp.clear] at hset
    cases hset
  have hlt : node'.indirectBlock.toNat < disk.totalBlocks.toNat := by
    rcases hindirect with heq | ⟨hnew, -⟩
    · rw [heq]
      exact O.indirect_lt
    · exact hnew.lt_total
  refine ⟨T.layout O.layout, O.marked_of_takes T, O.capacity, hown, hstored, ?_, ?_, ?_, hlt, ?_⟩
  · refine ⟨?_, ?_, fun _ hj => hj, ?_, ?_, ?_, ?_, fun _ _ _ => hlt, ?_⟩
    · intro j hj
      rcases hcases j hj with rfl | ⟨-, hj⟩
      · exact hi
      · exact O.mapped.le j hj
    · intro j hj
      rcases hcases j hj with rfl | ⟨hji, hj⟩
      · rwa [hself]
      · rw [hsame j hji]
        exact hkeep j hj
    · intro j hj
      rcases hcases j hj with rfl | ⟨hji, hj⟩
      · rw [hself]
        exact hp.lt_total
      · rw [hsame j hji]
        exact O.mapped.lt_total j hj
    · intro j hj
      rcases hcases j hj with rfl | ⟨hji, hj⟩
      · rw [hself]
        exact hp.behind
      · rw [hsame j hji]
        exact O.mapped.behind j hj
    · intro j hj
      rcases hcases j hj with rfl | ⟨hji, hj⟩
      · rwa [hself]
      · rw [hsame j hji, O.page_of_takes T hj]
        exact O.mapped.type j hj
    · intro j hj
      rcases hcases j hj with rfl | ⟨hji, hj⟩
      · rw [hself]
        rcases hindirect with heq | ⟨-, hne⟩
        · rw [heq]
          exact hzero heq
        · exact hne
      · rw [hsame j hji]
        rcases hindirect with heq | ⟨hnew, -⟩
        · rw [heq]
          exact O.mapped.ne_indirect j hj
        · exact hold j hj _ hnew
    · intro j hj k hk heq
      rcases hcases j hj with rfl | ⟨hji, hj'⟩ <;> rcases hcases k hk with rfl | ⟨hki, hk'⟩
      · rfl
      · rw [hself, hsame k hki] at heq
        exact absurd heq.symm (hold k hk' p hp)
      · rw [hself, hsame j hji] at heq
        exact absurd heq (hold j hj' p hp)
      · rw [hsame j hji, hsame k hki] at heq
        exact O.mapped.inj j hj' k hk' heq
  · intro j hj
    rcases hcases j hj with rfl | ⟨hji, hj⟩
    · rw [hself]
      exact hp.set
    · rw [hsame j hji]
      exact T.bit _ (O.mapped.lt_total j hj) (O.used j hj)
  · rcases hindirect with heq | ⟨hnew, -⟩
    · rw [heq]
      exact O.near
    · exact hnew.near
  · intro hne
    rcases hindirect with heq | ⟨hnew, -⟩
    · rw [heq] at hne ⊢
      exact ⟨(O.indirect hne).1, T.bit _ O.indirect_lt (O.indirect hne).2⟩
    · exact ⟨hnew.behind, hnew.set⟩

/-- The inode with an entry of its own is stored. -/
theorem run_inodeWrite (O₁ : Takes disk m m₁) (hown : node'.inodeNumber = inum) :
    run disk.mapping (inodeWrite node') m₁ = some (0, putInode disk m₁ inum.toNat node') ∧
      Takes disk m₁ (putInode disk m₁ inum.toNat node') ∧
      Takes disk m (putInode disk m₁ inum.toNat node') := by
  have L₁ := O₁.layout O.layout
  have hput : Takes disk m₁ (putInode disk m₁ inum.toNat node') := takes_putInode L₁ O.capacity
  refine ⟨?_, hput, O₁.trans hput⟩
  rw [L₁.run_inodeWrite_slot node' (by rw [hown]; exact O.capacity), hown]

/-- An index in the inode takes the first free block. -/
theorem run_writablePage_direct (E : Entries disk node m blocks) (H : FirstFree disk m f)
    (hi : i < 12) (hfree : blocks i = 0) :
    ∃ m' node', run disk.mapping (writablePage disk node (UInt64.ofNat i)) m =
        some (some (node', UInt64.ofNat f), m') ∧ Takes disk m m' ∧
      OpenFile disk inum m' node' (Function.update blocks i (UInt64.ofNat f)) ∧
      Entries disk node' m' (Function.update blocks i (UInt64.ofNat f)) ∧
      node'.size = node.size ∧ node'.indirectBlock = node.indirectBlock ∧
      nearFree disk m = nearFree disk m' + 1 ∧
      ∀ k < usableBlockSize, m' (UInt64.ofNat f).toNat (4 + k) = 0 := by
  have hmax : maxIndex = 511 := rfl
  have hnat : (UInt64.ofNat i).toNat = i := toNat_ofNat_block (by omega)
  obtain ⟨m₁, hm₁⟩ : ∃ m₁, m₁ = tookPage m f (clearDataPage (m f)) := ⟨_, rfl⟩
  obtain ⟨node', hnode⟩ : ∃ node' : Inode, node' =
      { node with directBlocks := node.directBlocks.set i (UInt64.ofNat f) } := ⟨_, rfl⟩
  have T : Takes disk m m₁ := hm₁ ▸ H.takes O.marked O.layout
  have hset : run disk.mapping (inodeSetBlock disk node (UInt64.ofNat i) (UInt64.ofNat f)) m₁ =
      some ((0, node'), m₁) := by
    rw [run_inodeSetBlock_direct (by omega), hnode]
    simp only [hnat]
  have hown : node'.inodeNumber = inum := by rw [hnode, ← O.own]
  obtain ⟨hwrite, hput, T'⟩ := O.run_inodeWrite T hown
  have hP : NewPage disk m (putInode disk m₁ inum.toNat node') (UInt64.ofNat f) :=
    H.newPage O.marked (Takes.refl disk m) hm₁ hput
  have hkeep : ∀ j ≤ maxIndex, j ≠ i → Yields disk node' (putInode disk m₁ inum.toNat node')
      (UInt64.ofNat j) (blocks j) := by
    intro j hj hji
    refine O.yields_of_takes T' hj ?_ (by rw [hnode]) (E j hj)
    rw [hnode, Vector.getElem?_set_ne _ (Ne.symm hji)]
  have hentry : Yields disk node' (putInode disk m₁ inum.toNat node') (UInt64.ofNat i)
      (UInt64.ofNat f) := by
    have hy : Yields disk node' (putInode disk m₁ inum.toNat node') (UInt64.ofNat i)
      node'.directBlocks[(UInt64.ofNat i).toNat] := Yields.direct (by omega)
    simp only [hnode, hnat, Vector.getElem_set_self] at hy
    rwa [hnode]
  have htype : blockType (putInode disk m₁ inum.toNat node' f) = BlockType.data.code := by
    rw [blockType_putInode, hm₁, tookPage_self, blockType_clearDataPage]
  rw [hm₁] at hset hwrite
  refine ⟨_, node', run_writablePage_take (hfree ▸ E i (by omega)) O.bitmapArea H hset hwrite,
    hm₁ ▸ T', hm₁ ▸ ?_, hm₁ ▸ ?_, by rw [hnode], by rw [hnode], hm₁ ▸ ?_, hm₁ ▸ fun k hk => ?_⟩
  · refine O.extend T' (by omega) hfree hown inodeAt_putInode_self hP
      (by rwa [H.toNat_number]) hentry (fun j hj => hkeep j (O.mapped.le j hj) ?_)
      (Or.inl (by rw [hnode]))
    rintro rfl
    exact hj hfree
  · intro j hj
    by_cases hji : j = i
    · subst hji
      rwa [Function.update_self]
    · rw [Function.update_of_ne hji]
      exact hkeep j hj hji
  · refine H.nearFree_eq fun b hb => ?_
    rw [blockBit_putInode hb, hm₁, H.blockBit_filled O.marked hb]
  · have hbehind := H.behind_of_marked O.marked
    have hslot : slotBlock disk inum.toNat < _ := slotBlock_lt O.capacity
    rw [H.toNat_number, putInode, Function.update_of_ne (by omega), hm₁, tookPage_self,
      clearDataPage_apply hk]

/-- The first index behind the inode takes two free blocks, one of them for the indirect block. -/
theorem run_writablePage_indirect (E : Entries disk node m blocks) (hfree : 2 ≤ nearFree disk m)
    (hlo : 12 ≤ i) (hhi : i ≤ maxIndex) (hzero : node.indirectBlock = 0) :
    ∃ m' node' p, run disk.mapping (writablePage disk node (UInt64.ofNat i)) m =
        some (some (node', p), m') ∧ Takes disk m m' ∧
      OpenFile disk inum m' node' (Function.update blocks i p) ∧ node'.size = node.size ∧
      p ≠ 0 ∧ p.toNat < 524288 ∧ ∀ k < usableBlockSize, m' p.toNat (4 + k) = 0 := by
  have hmax : maxIndex = 511 := rfl
  have hnat : (UInt64.ofNat i).toNat = i := toNat_ofNat_block (by omega)
  have hempty : ∀ j, 12 ≤ j → blocks j = 0 := by
    intro j hj
    by_contra hne
    have hle := O.mapped.le j hne
    have hnatj : (UInt64.ofNat j).toNat = j := toNat_ofNat_block (by omega)
    exact hne ((E j hle).eq (Yields.none (by omega) hzero))
  -- the page of the index
  obtain ⟨f, H⟩ : ∃ f, FirstFree disk m f := exists_firstFree (by omega)
  obtain ⟨m₁, hm₁⟩ : ∃ m₁, m₁ = tookPage m f (clearDataPage (m f)) := ⟨_, rfl⟩
  have T : Takes disk m m₁ := hm₁ ▸ H.takes O.marked O.layout
  have hcount : nearFree disk m = nearFree disk m₁ + 1 :=
    hm₁ ▸ H.nearFree_eq fun b hb => H.blockBit_filled O.marked hb
  -- the indirect block
  obtain ⟨g, K⟩ : ∃ g, FirstFree disk m₁ g := exists_firstFree (by omega)
  obtain ⟨m₂, hm₂⟩ : ∃ m₂, m₂ = tookPage m₁ g (indirectPage (m₁ g) i (UInt64.ofNat f)) := ⟨_, rfl⟩
  obtain ⟨node', hnode⟩ : ∃ node' : Inode, node' = { node with indirectBlock := UInt64.ofNat g } :=
    ⟨_, rfl⟩
  have hmarked := O.marked_of_takes T
  have L₁ := T.layout O.layout
  have A₁ := L₁.bitmapArea_of_marked hmarked
  have T₂ : Takes disk m₁ m₂ := hm₂ ▸ K.takes hmarked L₁
  have hset : run disk.mapping (inodeSetBlock disk node (UInt64.ofNat i) (UInt64.ofNat f)) m₁ =
      some ((0, node'), m₂) := by
    rw [run_inodeSetBlock_create A₁ K (by omega) (by omega) hzero, hnat, hnode, hm₂, tookPage]
  have hown : node'.inodeNumber = inum := by rw [hnode, ← O.own]
  obtain ⟨hwrite, hput, T'⟩ := O.run_inodeWrite (T.trans T₂) hown
  have hP : NewPage disk m (putInode disk m₂ inum.toNat node') (UInt64.ofNat f) :=
    H.newPage O.marked (Takes.refl disk m) hm₁ (T₂.trans hput)
  have hindirect : node'.indirectBlock = UInt64.ofNat g := by rw [hnode]
  have hG : NewPage disk m (putInode disk m₂ inum.toNat node') (UInt64.ofNat g) :=
    K.newPage hmarked T hm₂ hput
  have hne : f ≠ g := by
    rintro rfl
    have hbit : blockBit (tookPage m f (clearDataPage (m f))) f = _ :=
      H.blockBit_filled O.marked H.lt_total
    rw [if_pos rfl, ← hm₁, K.clear] at hbit
    cases hbit
  have hpagef : putInode disk m₂ inum.toNat node' f = clearDataPage (m f) := by
    have hbehind := H.behind_of_marked O.marked
    have hslot : slotBlock disk inum.toNat < _ := slotBlock_lt O.capacity
    rw [putInode, Function.update_of_ne (by omega), hm₂, tookPage, Function.update_of_ne hne,
      takeBlock_of_behind K.lt_total (O.bitmapArea.lt_of_clear H.clear), hm₁, tookPage_self]
  have hpageg : putInode disk m₂ inum.toNat node' g = indirectPage (m₁ g) i (UInt64.ofNat f) := by
    have hbehind := K.behind_of_marked hmarked
    have hslot : slotBlock disk inum.toNat < _ := slotBlock_lt O.capacity
    rw [putInode, Function.update_of_ne (by omega), hm₂, tookPage_self]
  rw [hm₁] at hset
  refine ⟨_, node', UInt64.ofNat f, run_writablePage_take (hempty i hlo ▸ E i hhi) O.bitmapArea H hset
    hwrite, T', ?_, by rw [hnode], hP.ne_zero, hP.near, fun k hk => by
      rw [H.toNat_number, hpagef, clearDataPage_apply hk]⟩
  refine O.extend T' hhi (hempty i hlo) hown inodeAt_putInode_self hP ?_ ?_ ?_
    (Or.inr ⟨by rwa [hindirect], ?_⟩)
  · rw [H.toNat_number, hpagef, blockType_clearDataPage]
  · have hrun : run disk.mapping (inodeGetBlock node' (UInt64.ofNat i))
        (putInode disk m₂ inum.toNat node') = some _ :=
      run_inodeGetBlock_indirect (b := g) (by omega) (by omega) (by rw [hindirect]; exact hG.ne_zero)
        (by rw [hindirect]; exact K.addr) (by rw [hpageg, blockType_indirectPage])
    refine ⟨_, _, hrun, ?_⟩
    rw [Option.getD_some, hnat, hpageg, load64_indirectPage hlo hlo, if_pos rfl]
  · intro j hj
    have hj12 : j < 12 := by
      by_contra hge
      exact hj (hempty j (by omega))
    have hlo : (UInt64.ofNat j).toNat < 12 := by rwa [toNat_ofNat_block (by omega)]
    have hdirect : node'.directBlocks = node.directBlocks := by rw [hnode]
    have hy : Yields disk node' (putInode disk m₂ inum.toNat node') (UInt64.ofNat j)
      node'.directBlocks[(UInt64.ofNat j).toNat] := Yields.direct hlo
    simp only [hdirect] at hy
    rwa [(O.mapped.yields j hj).eq (Yields.direct hlo)]
  · rw [hindirect]
    intro heq
    exact hne (by rw [← H.toNat_number, ← K.toNat_number, heq])

/-- Without a free page an iteration that finds no entry leaves the loop. -/
theorem run_writablePage_full {index : UInt64} (hnear : nearFree disk m = 0) (hfar : FarTaken disk m)
    (hy : Yields disk node m index 0) :
    run disk.mapping (writablePage disk node index) m = some (none, m) := by
  obtain ⟨rv, q, hget, hq⟩ := hy
  rw [writablePage, run_bind_of_eq hget]
  simp only [hq]
  rw [if_neg (not_not.mpr rfl), run_bind_of_eq (run_allocPage_none O.layout hnear hfar)]
  rfl

/-- A copy into mapped pages keeps the file open. -/
theorem patched (hp : Patched m m₁ blocks {i | blocks i ≠ 0} o w buf) :
    OpenFile disk inum m₁ node blocks := by
  have hbit : ∀ b < disk.totalBlocks.toNat, blockBit m₁ b = blockBit m b := fun b hb =>
    BitmapArea.bit_congr (fun c hc =>
      hp.of_lt O.mapped (hc.trans_lt (bitmapBlocks_lt_dataStart _))) hb
  refine ⟨hp.layout O.mapped O.layout, fun b hb => ?_, O.capacity, O.own, ?_,
    O.mapped.patched (fun _ _ _ => O.near) hp, fun i hi => ?_, O.near, O.indirect_lt, fun hne => ?_⟩
  · rw [hbit b (hb.trans_le O.layout.le_total), O.marked b hb]
  · rw [hp.inodeAt O.mapped O.capacity, O.stored]
  · rw [hbit _ (O.mapped.lt_total i hi), O.used i hi]
  · rw [hbit _ O.indirect_lt]
    exact O.indirect hne

/-- So does the number of free pages, and every entry. -/
theorem nearFree_patched (hp : Patched m m₁ blocks {i | blocks i ≠ 0} o w buf) :
    nearFree disk m₁ = nearFree disk m := by
  have hsame : (Finset.range disk.addressable).filter (fun b => blockBit m₁ b = false) =
      (Finset.range disk.addressable).filter fun b => blockBit m b = false := by
    apply Finset.filter_congr
    intro b hb
    have hlt : b < disk.totalBlocks.toNat := (Finset.mem_range.mp hb).trans_le (min_le_left _ _)
    have hbit : blockBit m₁ b = blockBit m b := BitmapArea.bit_congr (fun c hc =>
      hp.of_lt O.mapped (hc.trans_lt (bitmapBlocks_lt_dataStart _))) hlt
    rw [hbit]
  rw [nearFree, nearFree, hsame]

/-- Writing into the pages of a file leaves the entries of its inode as they are. -/
theorem entries_patched (E : Entries disk node m blocks)
    (hp : Patched m m₁ blocks {i | blocks i ≠ 0} o w buf) : Entries disk node m₁ blocks := by
  intro i hi
  have hmax : maxIndex = 511 := rfl
  by_cases hzero : node.indirectBlock = 0
  · by_cases hlo : i < 12
    · exact (E i hi).congr_page hi rfl rfl fun h12 => absurd hlo (by omega)
    · have hnat : (UInt64.ofNat i).toNat = i := toNat_ofNat_block (by omega)
      rw [(E i hi).eq (Yields.none (by omega) hzero)]
      exact Yields.none (by omega) hzero
  · refine (E i hi).congr_page hi rfl rfl fun _ b haddr => hp.other b fun j hj heq => ?_
    have hnear := O.near
    obtain rfl : b = node.indirectBlock.toNat := DiskInterface.eq_of_diskGetBlock haddr (by omega)
    exact O.mapped.ne_indirect j hj (UInt64.toNat_inj.mp heq.symm)

/-- The file stays open when only the image changes, or the size in the inode. -/
theorem of_takes (T : Takes disk m m') (hown : node'.inodeNumber = inum)
    (hstored : inodeAt disk m' inum.toNat = node') (hdirect : node'.directBlocks = node.directBlocks)
    (hindirect : node'.indirectBlock = node.indirectBlock) :
    OpenFile disk inum m' node' blocks := by
  refine ⟨T.layout O.layout, O.marked_of_takes T, O.capacity, hown, hstored, ?_, fun i hi => ?_, ?_, ?_,
    fun hne => ?_⟩
  · exact {
      le := O.mapped.le
      yields := fun i hi => O.yields_of_takes T (O.mapped.le i hi) (by rw [hdirect]) hindirect
        (O.mapped.yields i hi)
      ne_zero := fun i hi => hi
      lt_total := O.mapped.lt_total
      behind := O.mapped.behind
      type := fun i hi => by rw [O.page_of_takes T hi, O.mapped.type i hi]
      ne_indirect := fun i hi => by
        rw [hindirect]
        exact O.mapped.ne_indirect i hi
      indirect_lt := fun _ _ _ => by
        rw [hindirect]
        exact O.indirect_lt
      inj := O.mapped.inj }
  · exact T.bit _ (O.mapped.lt_total i hi) (O.used i hi)
  · rw [hindirect]
    exact O.near
  · rw [hindirect]
    exact O.indirect_lt
  · rw [hindirect] at hne ⊢
    exact ⟨(O.indirect hne).1, T.bit _ O.indirect_lt (O.indirect hne).2⟩

theorem entries_of_takes (T : Takes disk m m') (E : Entries disk node m blocks)
    (hdirect : node'.directBlocks = node.directBlocks)
    (hindirect : node'.indirectBlock = node.indirectBlock) : Entries disk node' m' blocks :=
  fun i hi => O.yields_of_takes T hi (by rw [hdirect]) hindirect (E i hi)

end OpenFile

end Nbtrfs
