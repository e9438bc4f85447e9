import Nbtrfs.Btr.Node
import Nbtrfs.FreePage
import Nbtrfs.InodeTable

/-!
# Formatting

Reference: `disk.c::disk_format`.

`disk_format` lays out the metadata areas, allocates their blocks and the root of the B-tree, and
ends by storing the copy of the superblock that it read before the allocations.
-/

namespace Nbtrfs

open BlockProg Bytes

/-- `S_IFDIR | 0755` -/
def rootMode : UInt32 := 0o40755

/-- One of the two type loops of `disk_format`: `n` blocks from `start` on get the type `t`. -/
def setTypes (t : BlockType) (n start : ℕ) : BlockProg Unit :=
  forUp (fun i _ => do
    fetch 0 (UInt64.ofNat i)
    modify (UInt64.ofNat i) (setBlockType t)) n start ()

/-- `for (i = 1; …; i++) if (!alloc_page(disk, cache)) return -1;`, as whether it ran to its end. -/
def allocPages (disk : DiskInterface) : ℕ → BlockProg Bool
  | 0 => pure true
  | n + 1 => do
      let page ← allocPage disk
      if page = 0 then pure false
      else allocPages disk n

/-- `disk_format` after the type loops: allocate the `metaBlocks` metadata blocks and the root, and
write the superblock. -/
def formatAllocate (disk : DiskInterface) (uid gid : UInt32) (superblock : Superblock)
    (metaBlocks : ℕ) : BlockProg ℤ := do
  let _ ← allocPage disk
  let done ← allocPages disk (metaBlocks - 1)
  if done = false then pure (-1)
  else do
    let root ← btreeNodeCreate disk false
    let value ← inodeAllocate disk uid gid rootMode
    -- `root` is the null pointer if the volume was full
    if root = 0 then crash
    else do
      editNode root fun node => { node with value := UInt64.ofInt value }
      let _ ← superblockWrite { superblock with btreeRoot := root }
      pure 0

/-- `disk_format`. A volume name that is too long is reported and formatting goes on with what block
0 held before. -/
def diskFormat (disk : DiskInterface) (now : UInt64) (uid gid : UInt32) (volumeName : List UInt8) :
    BlockProg ℤ := do
  let _ ← superblockInitialize disk now volumeName
  let superblock ← superblockCopy
  let bitmapEnd := superblock.inodeBitmap + UInt64.ofInt (calculateInodeBitmapSize superblock)
  let tableEnd := bitmapEnd + UInt64.ofInt (calculateInodeTableSize superblock)
  setTypes BlockType.bitmap (bitmapEnd.toNat - 1) 1
  setTypes BlockType.inode (tableEnd.toNat - bitmapEnd.toNat) bitmapEnd.toNat
  formatAllocate disk uid gid superblock tableEnd.toNat

variable {M : Mapping} {disk : DiskInterface} {m : Image}

/-! ## The type loops -/

/-- The image after a type loop. -/
def typed (m : Image) (t : BlockType) (start n : ℕ) : Image :=
  fun b => if start ≤ b ∧ b < start + n then setBlockType t (m b) else m b

/-- The loops of `disk_format` give every page of an area its type. -/
theorem run_setTypes (t : BlockType) {n start : ℕ}
    (haddr : ∀ b, start ≤ b → b < start + n → M.addr (UInt64.ofNat b) = some b) :
    run M (setTypes t n start) m = some ((), typed m t start n) := by
  obtain ⟨⟨⟩, m', hrun, hm'⟩ : ∃ s' m', run M (setTypes t n start) m = some (s', m') ∧
      m' = typed m t start (start + n - start) := run_forUp
    (fun i _ m' => m' = typed m t start (i - start))
    (by
      funext b
      rw [typed, if_neg (by omega)])
    (by
      rintro i - m' hlo hhi rfl
      refine ⟨(), _, ?_, rfl⟩
      rw [run_bind_of_eq (run_fetch _ _), run_modify _ (haddr i hlo hhi)]
      congr 2
      funext b
      by_cases hb : b = i
      · subst hb
        rw [Function.update_self, typed, typed, if_neg (by omega), if_pos (by omega)]
      · rw [Function.update_of_ne hb, typed, typed]
        split
        next h => rw [if_pos (by omega)]
        next h => rw [if_neg (by omega)])
  rw [hrun, hm', Nat.add_sub_cancel_left]

/-- A type loop crashes on the first block that is not on the device. -/
theorem run_setTypes_unreachable (t : BlockType) {n start b : ℕ} (hlo : start ≤ b)
    (hhi : b < start + n) (haddr : M.addr (UInt64.ofNat b) = none) :
    run M (setTypes t n start) m = none := by
  induction n generalizing start m with
  | zero => omega
  | succ n ih =>
      rw [setTypes, forUp, run_bind]
      cases hbody : run M (do
          fetch 0 (UInt64.ofNat start)
          modify (UInt64.ofNat start) (setBlockType t)) m with
      | none => rfl
      | some r =>
          by_cases hb : b = start
          · subst hb
            rw [run_bind_of_eq (run_fetch _ _), BlockProg.modify, run, haddr] at hbody
            cases hbody
          · exact ih (by omega) (by omega)

theorem typed_of_not_mem {t : BlockType} {start n b : ℕ} (h : b < start ∨ start + n ≤ b) :
    typed m t start n b = m b := by
  rw [typed, if_neg (by omega)]

theorem blockType_typed {t : BlockType} {start n b : ℕ} (hlo : start ≤ b) (hhi : b < start + n) :
    blockType (typed m t start n b) = t.code := by
  rw [typed, if_pos ⟨hlo, hhi⟩, blockType_setBlockType]

theorem typed_apply {t : BlockType} {start n b o : ℕ} (ho : 4 ≤ o) :
    typed m t start n b o = m b o := by
  rw [typed]
  split
  · exact setBlockType_apply ho
  · rfl

/-- The image before the allocations: block 0 is `pg` and the metadata blocks have their types. -/
def laidOut (disk : DiskInterface) (m : Image) (pg : Bytes) : Image :=
  let m₁ := typed (Function.update m 0 pg) BlockType.bitmap 1
    (inodeTableStart disk.totalBlocks.toNat - 1)
  typed m₁ BlockType.inode (inodeTableStart disk.totalBlocks.toNat)
    (dataStart disk.totalBlocks.toNat - inodeTableStart disk.totalBlocks.toNat)

private theorem one_le_inodeTableStart (total : ℕ) : 1 ≤ inodeTableStart total := by
  rw [inodeTableStart, inodeBitmapStart]
  omega

theorem laidOut_zero (pg : Bytes) : laidOut disk m pg 0 = pg := by
  have hpos := one_le_inodeTableStart disk.totalBlocks.toNat
  rw [laidOut, typed_of_not_mem (by omega), typed_of_not_mem (by omega), Function.update_self]

/-- Nothing but the type headers changes outside block 0. -/
theorem laidOut_apply {pg : Bytes} {b o : ℕ} (hb : b ≠ 0) (ho : 4 ≤ o) :
    laidOut disk m pg b o = m b o := by
  rw [laidOut, typed_apply ho, typed_apply ho, Function.update_of_ne hb]

theorem laidOut_of_le {pg : Bytes} {b : ℕ} (hb : dataStart disk.totalBlocks.toNat ≤ b) :
    laidOut disk m pg b = m b := by
  have hpos := dataStart_pos disk.totalBlocks.toNat
  have hend := inodeTableStart_le disk.totalBlocks.toNat
  rw [laidOut, typed_of_not_mem (by omega), typed_of_not_mem (by omega),
    Function.update_of_ne (by omega)]

/-- The areas that `disk_format` writes make up the layout of the volume. -/
theorem layout_laidOut {pg : Bytes} (V : Volume M disk)
    (hexact : M.ExactTo (dataStart disk.totalBlocks.toNat))
    (hfit : dataStart disk.totalBlocks.toNat ≤ disk.totalBlocks.toNat)
    (hsuper : blockType pg = BlockType.super.code)
    (htotal : (Superblock.ofPage pg).totalBlocks = disk.totalBlocks)
    (hbitmap : (Superblock.ofPage pg).inodeBitmap =
      UInt64.ofNat (inodeBitmapStart disk.totalBlocks.toNat)) :
    Layout M disk (laidOut disk m pg) where
  volume := V
  exact := hexact
  le_total := hfit
  addr_zero := hexact.ofNat (dataStart_pos _) (by
    have := dataStart_lt disk
    omega)
  super := by rw [laidOut_zero, hsuper]
  total := by rw [laidOut_zero, htotal]
  inodeBitmap := by rw [laidOut_zero, hbitmap]
  bitmap b h1 hb := by
    rw [laidOut, typed_of_not_mem (by omega), blockType_typed h1 (by omega)]
  table b h1 hb := blockType_typed h1 (by omega)

/-- `disk_format` describes the volume in block 0, then runs the two type loops. -/
private theorem run_diskFormat_start (now : UInt64) (uid gid : UInt32) {volumeName : List UInt8}
    (hname : volumeName.length ≤ 31) (haddr : M.addr 0 = some 0) :
    ∃ pg, run M (diskFormat disk now uid gid volumeName) m = run M (do
          setTypes BlockType.bitmap (inodeTableStart disk.totalBlocks.toNat - 1) 1
          setTypes BlockType.inode
            (dataStart disk.totalBlocks.toNat - inodeTableStart disk.totalBlocks.toNat)
            (inodeTableStart disk.totalBlocks.toNat)
          formatAllocate disk uid gid (Superblock.ofPage pg) (dataStart disk.totalBlocks.toNat))
        (Function.update m 0 pg) ∧
      blockType pg = BlockType.super.code ∧
      (Superblock.ofPage pg).totalBlocks = disk.totalBlocks ∧
      (Superblock.ofPage pg).freeBlocks = disk.totalBlocks ∧
      (Superblock.ofPage pg).inodeBitmap =
        UInt64.ofNat (inodeBitmapStart disk.totalBlocks.toNat) := by
  have hend := inodeTableStart_le disk.totalBlocks.toNat
  have hlt := dataStart_lt disk
  obtain ⟨pg, hinit, hsuper, htotal, hfree, hbitmap⟩ := run_superblockInitialize (m := m)
    disk now hname haddr
  have hcopy : run M superblockCopy (Function.update m 0 pg) =
      some (Superblock.ofPage pg, Function.update m 0 pg) := by
    have hread := run_superblockRead (m := Function.update m 0 pg) haddr
      (by rwa [Function.update_self])
    rw [superblockCopy, run_bind_of_eq hread, Function.update_self]
    rfl
  have hbitmapEnd : (Superblock.ofPage pg).inodeBitmap +
      UInt64.ofInt (calculateInodeBitmapSize (Superblock.ofPage pg)) =
      UInt64.ofNat (inodeTableStart disk.totalBlocks.toNat) := by
    rw [hbitmap, calculateInodeBitmapSize_eq (by rw [htotal]) (total_lt disk), ofInt_natCast,
      ← UInt64.ofNat_add, inodeTableStart]
  have htableEnd : UInt64.ofNat (inodeTableStart disk.totalBlocks.toNat) +
      UInt64.ofInt (calculateInodeTableSize (Superblock.ofPage pg)) =
      UInt64.ofNat (dataStart disk.totalBlocks.toNat) := by
    rw [calculateInodeTableSize_eq (by rw [htotal]) (total_lt disk), ofInt_natCast,
      ← UInt64.ofNat_add, dataStart]
  refine ⟨pg, ?_, hsuper, htotal, hfree, hbitmap⟩
  rw [diskFormat, run_bind_of_eq hinit, run_bind_of_eq hcopy]
  simp only [hbitmapEnd, htableEnd]
  rw [toNat_ofNat_block (by omega), toNat_ofNat_block (by omega)]

/-- Up to the allocations `disk_format` lays out the volume, if its metadata is addressable. The
bitmaps are not cleared. -/
theorem run_diskFormat (V : Volume M disk) (hexact : M.ExactTo (dataStart disk.totalBlocks.toNat))
    (hfit : dataStart disk.totalBlocks.toNat ≤ disk.totalBlocks.toNat) (now : UInt64)
    (uid gid : UInt32) {volumeName : List UInt8} (hname : volumeName.length ≤ 31) :
    ∃ pg, run M (diskFormat disk now uid gid volumeName) m =
        run M (formatAllocate disk uid gid (Superblock.ofPage pg)
          (dataStart disk.totalBlocks.toNat)) (laidOut disk m pg) ∧
      Layout M disk (laidOut disk m pg) ∧
      (Superblock.ofPage pg).freeBlocks = disk.totalBlocks := by
  have hone := one_le_inodeTableStart disk.totalBlocks.toNat
  have hend := inodeTableStart_le disk.totalBlocks.toNat
  have hlt := dataStart_lt disk
  have haddr : ∀ b < dataStart disk.totalBlocks.toNat,
      M.addr (UInt64.ofNat b) = some b := fun b hb => hexact.ofNat hb (by omega)
  obtain ⟨pg, hrun, hsuper, htotal, hfree, hbitmap⟩ := run_diskFormat_start (m := m) now
    uid gid hname (haddr 0 (dataStart_pos _))
  refine ⟨pg, ?_, layout_laidOut V hexact hfit hsuper htotal hbitmap, hfree⟩
  rw [hrun, run_bind_of_eq (run_setTypes _ fun b _ hb => haddr b (by omega)),
    run_bind_of_eq (run_setTypes _ fun b _ hb => haddr b (by omega)), laidOut]

/-- A volume whose metadata is not addressable cannot be formatted. -/
theorem run_diskFormat_unreachable {now : UInt64} {uid gid : UInt32} {volumeName : List UInt8}
    (hname : volumeName.length ≤ 31) (hfit : disk.addressable < dataStart disk.totalBlocks.toNat) :
    run disk.mapping (diskFormat disk now uid gid volumeName) m = none := by
  have hnone : disk.mapping.addr (UInt64.ofNat disk.addressable) = none :=
    DiskInterface.mapping_addr_eq_none le_rfl (lt_of_le_of_lt (min_le_right _ _) (by decide))
  by_cases hzero : disk.addressable = 0
  · -- the device is empty
    rw [hzero] at hnone
    have hmodify : ∀ f, run disk.mapping (BlockProg.modify 0 f) m = none := fun f => by
      rw [BlockProg.modify, run, show disk.mapping.addr 0 = none from hnone]
    rw [diskFormat, superblockInitialize, if_neg (by omega)]
    apply run_bind_of_none
    rw [run_bind_of_eq (run_fetch _ _)]
    exact run_bind_of_none (hmodify _)
  · obtain ⟨pg, hrun, -⟩ := run_diskFormat_start (m := m) now uid gid
      hname (DiskInterface.mapping_exactTo.ofNat (Nat.pos_of_ne_zero hzero)
        ((min_le_right _ _).trans (by decide)))
    rw [hrun]
    by_cases hbitmap : disk.addressable < inodeTableStart disk.totalBlocks.toNat
    · exact run_bind_of_none (run_setTypes_unreachable _ (by omega) (by omega) hnone)
    · rw [run_bind]
      cases run disk.mapping (setTypes BlockType.bitmap
        (inodeTableStart disk.totalBlocks.toNat - 1) 1) (Function.update m 0 pg) with
      | none => rfl
      | some r =>
          exact run_bind_of_none (run_setTypes_unreachable _ (by omega) (by omega) hnone)

/-! ## Formatting a blank image -/

/-- No bit of the two bitmaps is set, as on a zero-filled image. -/
structure Blank (disk : DiskInterface) (m : Image) : Prop where
  blockBit : ∀ b < 4092 * blockBitmapBlocks disk.totalBlocks.toNat, blockBit m b = false
  inodeBit : ∀ n < 4092 * inodeBitmapBlocks disk.totalBlocks.toNat, inodeBit disk m n = false

/-- The bits of a zero-filled page are clear. -/
theorem bitOf_zero (i : ℕ) : bitOf (fun _ => 0) i = false := by
  have hzero : load64 (fun _ => 0) (4 + 8 * (i / 64)) = 0 := by
    simp [load64, leLoad]
  rw [bitOf, hzero, UInt64.toNat_zero, Nat.zero_testBit]

theorem blank_zero (disk : DiskInterface) : Blank disk fun _ _ => 0 where
  blockBit _ _ := bitOf_zero _
  inodeBit _ _ := bitOf_zero _

/-- A freshly formatted volume: the metadata blocks and the root node are allocated, inode 0 is the
root directory, and the superblock counts all blocks as free. -/
structure Formatted (M : Mapping) (disk : DiskInterface) (uid gid : UInt32) (m : Image) : Prop
    where
  layout : Layout M disk m
  freeBlocks : (Superblock.ofPage (m 0)).freeBlocks = disk.totalBlocks
  btreeRoot : (Superblock.ofPage (m 0)).btreeRoot = UInt64.ofNat (dataStart disk.totalBlocks.toNat)
  blockBit : ∀ b < 4092 * blockBitmapBlocks disk.totalBlocks.toNat,
    blockBit m b = decide (b ≤ dataStart disk.totalBlocks.toNat)
  inodeBit : ∀ n < 4092 * inodeBitmapBlocks disk.totalBlocks.toNat,
    inodeBit disk m n = decide (n = 0)
  rootType : blockType (m (dataStart disk.totalBlocks.toNat)) = BlockType.btreeNode.code
  rootNode : BTreeNode.ofPage (m (dataStart disk.totalBlocks.toNat)) =
    (BTreeNode.ofPage (m (dataStart disk.totalBlocks.toNat))).init
      (UInt64.ofNat (dataStart disk.totalBlocks.toNat)) false
  rootInode : inodeAt disk m 0 = claimedInode uid gid rootMode 0 (inodeAt disk m 0)

/-- A freshly formatted volume whose metadata and root node are addressable. -/
structure Fresh (disk : DiskInterface) (uid gid : UInt32) (m : Image) : Prop extends
    Formatted disk.mapping disk uid gid m where
  fits : dataStart disk.totalBlocks.toNat < disk.addressable

/-- `alloc_page` when exactly the first `k` blocks are taken. -/
theorem Layout.run_allocPage_prefix (L : Layout M disk m) {k : ℕ} (hk : k < disk.totalBlocks.toNat)
    (hbits : ∀ b < 4092 * blockBitmapBlocks disk.totalBlocks.toNat, blockBit m b = decide (b < k)) :
    run M (allocPage disk) m = some (UInt64.ofNat k, Nbtrfs.takeBlock m k) ∧
      ∀ b < 4092 * blockBitmapBlocks disk.totalBlocks.toNat,
        blockBit (Nbtrfs.takeBlock m k) b = decide (b < k + 1) := by
  have hblocks := le_blockBitmapBlocks disk.totalBlocks.toNat
  refine ⟨run_allocPage (L.bitmapTo.mono (by omega)) hk ?_ fun b hb => ?_, fun b hb => ?_⟩
  · rw [hbits k (by omega)]
    simp
  · rw [hbits b (by omega)]
    simpa using hb
  · rw [blockBit_takeBlock, hbits b hb]
    by_cases hbk : b = k
    · simp [hbk]
    · have hiff : b < k + 1 ↔ b < k := by omega
      simp [hbk, hiff]

/-- The allocation loop takes the next `n` blocks. -/
theorem Layout.run_allocPages (L : Layout M disk m) {k n : ℕ} (hk : 0 < k)
    (hn : k + n ≤ disk.totalBlocks.toNat)
    (hbits : ∀ b < 4092 * blockBitmapBlocks disk.totalBlocks.toNat, blockBit m b = decide (b < k)) :
    ∃ m', run M (allocPages disk n) m = some (true, m') ∧ Layout M disk m' ∧
      (∀ b < 4092 * blockBitmapBlocks disk.totalBlocks.toNat,
        blockBit m' b = decide (b < k + n)) ∧
      ∀ c, inodeBitmapStart disk.totalBlocks.toNat ≤ c → m' c = m c := by
  induction n generalizing k m with
  | zero => exact ⟨m, rfl, L, hbits, fun _ _ => rfl⟩
  | succ n ih =>
      have hblocks := le_blockBitmapBlocks disk.totalBlocks.toNat
      have htotal := total_lt disk
      obtain ⟨hrun, hbits'⟩ := L.run_allocPage_prefix (by omega) hbits
      have hne : UInt64.ofNat k ≠ 0 := fun h => by
        have := toNat_ofNat_block (b := k) (by omega)
        rw [h] at this
        simp only [UInt64.toNat_zero] at this
        omega
      obtain ⟨m', hrun', L', hbits'', hpages⟩ := ih (L.takeBlock k) (k := k + 1) (by omega)
        (by omega) hbits'
      refine ⟨m', ?_, L', fun b hb => ?_, fun c hc => ?_⟩
      · rw [allocPages, run_bind_of_eq hrun, if_neg hne, hrun']
      · rw [hbits'' b hb, Nat.add_right_comm, Nat.add_assoc]
      · rw [inodeBitmapStart] at hc
        rw [hpages c hc]
        exact takeBlock_of_ne (by omega) (by omega)

/-- Laying out a blank image leaves its bitmaps blank. -/
theorem Blank.laidOut {pg : Bytes} (hblank : Blank disk m) : Blank disk (laidOut disk m pg) where
  blockBit b hb := by
    rw [← hblank.blockBit b hb]
    exact bitOf_congr fun o _ => laidOut_apply (by omega) (by omega)
  inodeBit n hn := by
    rw [← hblank.inodeBit n hn]
    refine bitOf_congr fun o _ => laidOut_apply ?_ (by omega)
    rw [inodeBitmapStart]
    omega

/-- The allocations of `disk_format` on a volume with blank bitmaps, up to the root node. -/
private theorem Layout.run_formatBlocks (L : Layout M disk m) (hblank : Blank disk m)
    (haddr : M.addr (UInt64.ofNat (dataStart disk.totalBlocks.toNat)) =
      some (dataStart disk.totalBlocks.toNat))
    (hfit : dataStart disk.totalBlocks.toNat < disk.totalBlocks.toNat) (uid gid : UInt32)
    (sb : Superblock) :
    ∃ m', run M (formatAllocate disk uid gid sb (dataStart disk.totalBlocks.toNat)) m =
        run M (do
          let value ← inodeAllocate disk uid gid rootMode
          editNode (UInt64.ofNat (dataStart disk.totalBlocks.toNat)) fun node =>
            { node with value := UInt64.ofInt value }
          let _ ← superblockWrite
            { sb with btreeRoot := UInt64.ofNat (dataStart disk.totalBlocks.toNat) }
          pure 0) m' ∧
      Layout M disk m' ∧
      (∀ b < 4092 * blockBitmapBlocks disk.totalBlocks.toNat,
        blockBit m' b = decide (b ≤ dataStart disk.totalBlocks.toNat)) ∧
      (∀ n < 4092 * inodeBitmapBlocks disk.totalBlocks.toNat, inodeBit disk m' n = false) ∧
      (∀ c, inodeBitmapStart disk.totalBlocks.toNat ≤ c → c ≠ dataStart disk.totalBlocks.toNat →
        m' c = m c) ∧
      ∃ pg, m' (dataStart disk.totalBlocks.toNat) = BTreeNode.createdPage
        (UInt64.ofNat (dataStart disk.totalBlocks.toNat)) false pg := by
  have hpos := dataStart_pos disk.totalBlocks.toNat
  have hlt := dataStart_lt disk
  have hbitmap := le_blockBitmapBlocks disk.totalBlocks.toNat
  have hstart : 1 + blockBitmapBlocks disk.totalBlocks.toNat =
    inodeBitmapStart disk.totalBlocks.toNat := rfl
  have htable := inodeBitmapStart_le disk.totalBlocks.toNat
  have hdata := inodeTableStart_le disk.totalBlocks.toNat
  have hne : UInt64.ofNat (dataStart disk.totalBlocks.toNat) ≠ 0 := fun h => by
    have hnat := toNat_ofNat_block (b := dataStart disk.totalBlocks.toNat) (by omega)
    rw [h, UInt64.toNat_zero] at hnat
    omega
  -- the metadata blocks
  obtain ⟨hrun₁, hbits₁⟩ := L.run_allocPage_prefix (k := 0) (by omega) (fun b hb => by
    rw [hblank.blockBit b hb]
    simp)
  obtain ⟨m₂, hrun₂, L₂, hbits₂, hpages₂⟩ := (L.takeBlock 0).run_allocPages
    (n := dataStart disk.totalBlocks.toNat - 1) (k := 0 + 1) (by omega) (by omega) hbits₁
  rw [show 0 + 1 + (dataStart disk.totalBlocks.toNat - 1) = dataStart disk.totalBlocks.toNat by
    omega] at hbits₂
  -- the root node
  obtain ⟨halloc, hbits₃⟩ := L₂.run_allocPage_prefix (by omega) hbits₂
  have hrun₃ := run_btreeNodeCreate false halloc hne haddr
  have L₃ := L₂.takeBlock (dataStart disk.totalBlocks.toNat)
  have hpages₃ : ∀ c, inodeBitmapStart disk.totalBlocks.toNat ≤ c →
      Nbtrfs.takeBlock m₂ (dataStart disk.totalBlocks.toNat) c = m c := fun c hc => by
    rw [takeBlock_of_ne (by omega) (by omega), hpages₂ c hc, takeBlock_of_ne (by omega) (by omega)]
  generalize Nbtrfs.takeBlock m₂ (dataStart disk.totalBlocks.toNat) = m₃ at *
  refine ⟨Function.update m₃ (dataStart disk.totalBlocks.toNat) (BTreeNode.createdPage
    (UInt64.ofNat (dataStart disk.totalBlocks.toNat)) false (m₃ (dataStart disk.totalBlocks.toNat))),
    ?_, ?_, fun b hb => ?_, fun n hn => ?_, fun c hc hne => ?_, _, Function.update_self _ _ _⟩
  · rw [formatAllocate, run_bind_of_eq hrun₁, run_bind_of_eq hrun₂, if_neg (by decide),
      run_bind_of_eq hrun₃]
    simp only [if_neg hne]
  · refine L₃.congr ?_ ?_ fun b hb => ?_
    · rw [Function.update_of_ne (by omega)]
    · rw [Function.update_of_ne (by omega)]
    · rw [Function.update_of_ne (by omega)]
  · have hiff : b < dataStart disk.totalBlocks.toNat + 1 ↔ b ≤ dataStart disk.totalBlocks.toNat := by
      omega
    rw [← decide_eq_decide.mpr hiff, ← hbits₃ b hb]
    exact areaBit_congr (Function.update_of_ne (by omega) _ _)
  · have hlt : inodeBitmapStart disk.totalBlocks.toNat + n / 4092 <
        inodeTableStart disk.totalBlocks.toNat := by
      rw [inodeTableStart]
      omega
    rw [← hblank.inodeBit n hn]
    refine areaBit_congr ?_
    rw [Function.update_of_ne (by omega), hpages₃ _ (by omega)]
  · rw [Function.update_of_ne hne, hpages₃ c hc]

theorem inodeBitmapStart_lt (disk : DiskInterface) :
    inodeBitmapStart disk.totalBlocks.toNat < 2147483648 := by
  have htotal := total_lt disk
  rw [inodeBitmapStart, blockBitmapBlocks]
  split <;> omega

/-- The allocations of `disk_format` on a volume with blank bitmaps, and what they leave alone. -/
theorem Layout.run_formatAllocate_frame (L : Layout M disk m) (hblank : Blank disk m)
    (haddr : M.addr (UInt64.ofNat (dataStart disk.totalBlocks.toNat)) =
      some (dataStart disk.totalBlocks.toNat))
    (hfit : dataStart disk.totalBlocks.toNat < disk.totalBlocks.toNat)
    (hslots : 0 < inodeTableBlocks disk.totalBlocks.toNat) (uid gid : UInt32)
    (hfree : (Superblock.ofPage (m 0)).freeBlocks = disk.totalBlocks) :
    ∃ m', run M (formatAllocate disk uid gid (Superblock.ofPage (m 0))
        (dataStart disk.totalBlocks.toNat)) m = some (0, m') ∧ Formatted M disk uid gid m' ∧
      (∀ c, dataStart disk.totalBlocks.toNat < c → m' c = m c) ∧
      ∀ n < inodeCapacity disk.totalBlocks.toNat, inodeAt disk m' n =
        if n = 0 then claimedInode uid gid rootMode 0 (inodeAt disk m 0) else inodeAt disk m n := by
  have hpos := dataStart_pos disk.totalBlocks.toNat
  have hstart : 1 + blockBitmapBlocks disk.totalBlocks.toNat =
    inodeBitmapStart disk.totalBlocks.toNat := rfl
  have htable := inodeBitmapStart_le disk.totalBlocks.toNat
  have hdata := inodeTableStart_le disk.totalBlocks.toNat
  have hblocks := le_blockBitmapBlocks disk.totalBlocks.toNat
  have hcap : 0 < inodeCapacity disk.totalBlocks.toNat := Nat.mul_pos (by decide) hslots
  have hcapLe := capacity_le disk.totalBlocks.toNat
  have hslot0 : slotBlock disk 0 < dataStart disk.totalBlocks.toNat := slotBlock_lt hcap
  have hslotGe := slotBlock_ge disk 0
  obtain ⟨m₁, hrun₁, L₁, hbits₁, hinodes₁, hpages₁, pg, hroot₁⟩ := L.run_formatBlocks hblank haddr hfit
    uid gid (Superblock.ofPage (m 0))
  have hslots₁ : ∀ n < inodeCapacity disk.totalBlocks.toNat, inodeAt disk m₁ n = inodeAt disk m n := by
    intro n hn
    have hslot := slotBlock_lt hn
    rw [inodeAt, hpages₁ _ (htable.trans (slotBlock_ge disk n)) (by omega), inodeAt]
  -- the root inode
  have hrun₂ := L₁.run_inodeAllocate uid gid rootMode (inodeBitmapStart_lt disk) hcap
    (hinodes₁ 0 (by omega)) fun i hi => by omega
  have L₂ := L₁.claimInode uid gid rootMode 0
  have hpages₂ : ∀ c, c ≠ inodeBitmapStart disk.totalBlocks.toNat → c ≠ slotBlock disk 0 →
      Nbtrfs.claimInode disk m₁ uid gid rootMode 0 c = m₁ c := fun c hc hs =>
    claimInode_of_ne (by omega) hs
  have hinodes₂ : ∀ n < 4092 * inodeBitmapBlocks disk.totalBlocks.toNat,
      inodeBit disk (Nbtrfs.claimInode disk m₁ uid gid rootMode 0) n = decide (n = 0) :=
    fun n hn => by
    rw [inodeBit_claimInode hn, hinodes₁ n hn]
    by_cases h0 : n = 0 <;> simp [h0]
  have hinode₂ : inodeAt disk (Nbtrfs.claimInode disk m₁ uid gid rootMode 0) 0 = _ :=
    inodeAt_claimInode_self
  have hothers₂ : ∀ n, n ≠ 0 → inodeAt disk (Nbtrfs.claimInode disk m₁ uid gid rootMode 0) n =
      inodeAt disk m₁ n := fun n => inodeAt_claimInode_ne (by omega)
  generalize Nbtrfs.claimInode disk m₁ uid gid rootMode 0 = m₂ at *
  have hroot₂ : m₂ (dataStart disk.totalBlocks.toNat) = m₁ (dataStart disk.totalBlocks.toNat) :=
    hpages₂ _ (by omega) (by omega)
  -- the value of the root node, and the superblock
  obtain ⟨m₃, hrun₃, hroot₃, hpages₃⟩ := exists_run_editNode (m := m₂)
    (fun node => { node with value := UInt64.ofInt ((0 : ℕ) : ℤ) }) haddr
  have h0₃ : m₃ 0 = m₂ 0 := hpages₃ 0 (by omega)
  obtain ⟨m₄, hrun₄, hsuper₄, hpages₄⟩ := exists_run_superblockWrite (m := m₃)
    { Superblock.ofPage (m 0) with
      btreeRoot := UInt64.ofNat (dataStart disk.totalBlocks.toNat) } L₂.addr_zero
    (by rw [h0₃, L₂.super])
  have hlow₄ : ∀ c, c ≠ 0 → c < dataStart disk.totalBlocks.toNat → m₄ c = m₂ c := fun c hc hlt => by
    rw [hpages₄ c hc, hpages₃ c (by omega)]
  have hroot₄ : m₄ (dataStart disk.totalBlocks.toNat) = m₃ (dataStart disk.totalBlocks.toNat) :=
    hpages₄ _ (by omega)
  have hzero : UInt64.ofInt ((0 : ℕ) : ℤ) = 0 := ofInt_natCast 0
  have hslots₄ : ∀ n < inodeCapacity disk.totalBlocks.toNat, inodeAt disk m₄ n = inodeAt disk m₂ n := by
    intro n hn
    have hge := slotBlock_ge disk n
    rw [inodeAt, hlow₄ _ (by omega) (slotBlock_lt hn), inodeAt]
  refine ⟨m₄, ?_, ?_, fun c hc => ?_, fun n hn => ?_⟩
  · rw [hrun₁, run_bind_of_eq hrun₂, run_bind_of_eq hrun₃, run_bind_of_eq hrun₄, run_pure]
  · exact {
      layout := by
        refine L₂.congr ?_ ?_ fun b hb => ?_
        · rw [hsuper₄, Superblock.ofPage_toPage, L₂.total]
          exact L.total
        · rw [hsuper₄, Superblock.ofPage_toPage, L₂.inodeBitmap]
          exact L.inodeBitmap
        · by_cases hb0 : b = 0
          · rw [hb0, hsuper₄, Superblock.blockType_toPage, h0₃]
          · rw [hlow₄ b hb0 hb]
      freeBlocks := by rw [hsuper₄, Superblock.ofPage_toPage, hfree]
      btreeRoot := by rw [hsuper₄, Superblock.ofPage_toPage]
      blockBit := fun b hb => by
        rw [← hbits₁ b hb]
        refine areaBit_congr ?_
        rw [hlow₄ _ (by omega) (by omega), hpages₂ _ (by omega) (by omega)]
      inodeBit := fun n hn => by
        have hlt : inodeBitmapStart disk.totalBlocks.toNat + n / 4092 <
            inodeTableStart disk.totalBlocks.toNat := by
          rw [inodeTableStart]
          omega
        rw [← hinodes₂ n hn]
        exact areaBit_congr (hlow₄ _ (by omega) (by omega))
      rootType := by
        rw [hroot₄, hroot₃, BTreeNode.blockType_toPage, hroot₂, hroot₁,
          BTreeNode.blockType_createdPage]
      rootNode := by
        rw [hroot₄, hroot₃, BTreeNode.ofPage_toPage, hroot₂, hroot₁, BTreeNode.ofPage_createdPage,
          hzero, BTreeNode.init_value, BTreeNode.init_init]
      rootInode := by
        rw [hslots₄ 0 hcap, hinode₂, claimedInode_claimedInode] }
  · rw [hpages₄ c (by omega), hpages₃ c (by omega), hpages₂ c (by omega) (by omega),
      hpages₁ c (by omega) (by omega)]
  · rw [hslots₄ n hn]
    split
    next h0 => rw [h0, hinode₂, hslots₁ 0 hcap]
    next h0 => rw [hothers₂ n h0, hslots₁ n hn]

/-- The allocations of `disk_format` on a volume with blank bitmaps. -/
theorem Layout.run_formatAllocate (L : Layout M disk m) (hblank : Blank disk m)
    (haddr : M.addr (UInt64.ofNat (dataStart disk.totalBlocks.toNat)) =
      some (dataStart disk.totalBlocks.toNat))
    (hfit : dataStart disk.totalBlocks.toNat < disk.totalBlocks.toNat)
    (hslots : 0 < inodeTableBlocks disk.totalBlocks.toNat) (uid gid : UInt32)
    (hfree : (Superblock.ofPage (m 0)).freeBlocks = disk.totalBlocks) :
    ∃ m', run M (formatAllocate disk uid gid (Superblock.ofPage (m 0))
        (dataStart disk.totalBlocks.toNat)) m = some (0, m') ∧ Formatted M disk uid gid m' := by
  obtain ⟨m', hrun, hformatted, -⟩ := L.run_formatAllocate_frame hblank haddr hfit hslots uid gid hfree
  exact ⟨m', hrun, hformatted⟩

variable (disk) in
/-- Formatting a blank image whose metadata fits succeeds, however block numbers reach the device, as
long as the metadata blocks and the block behind them are reached. -/
theorem run_diskFormat_formatted (V : Volume M disk)
    (hexact : M.ExactTo (dataStart disk.totalBlocks.toNat + 1))
    (hfit : dataStart disk.totalBlocks.toNat < disk.totalBlocks.toNat)
    (hslots : 0 < inodeTableBlocks disk.totalBlocks.toNat) (hblank : Blank disk m) (now : UInt64)
    (uid gid : UInt32) {volumeName : List UInt8} (hname : volumeName.length ≤ 31) :
    ∃ m', run M (diskFormat disk now uid gid volumeName) m = some (0, m') ∧
      Formatted M disk uid gid m' := by
  have hlt := dataStart_lt disk
  obtain ⟨pg, hrun, L, hfree⟩ := run_diskFormat (m := m) V (hexact.mono (Nat.le_succ _)) hfit.le now
    uid gid hname
  have h0 : laidOut disk m pg 0 = pg := laidOut_zero pg
  obtain ⟨m', hrun', hformatted⟩ := L.run_formatAllocate hblank.laidOut
    (hexact.ofNat (Nat.lt_succ_self _) (by omega)) hfit hslots uid gid (by rwa [h0])
  rw [h0] at hrun'
  exact ⟨m', hrun.trans hrun', hformatted⟩

variable (disk) in
/-- Formatting a blank image whose metadata fits succeeds. -/
theorem run_diskFormat_blank (now : UInt64) (uid gid : UInt32) {volumeName : List UInt8}
    (hname : volumeName.length ≤ 31) (hblank : Blank disk m)
    (hfit : dataStart disk.totalBlocks.toNat < disk.addressable)
    (hslots : 0 < inodeTableBlocks disk.totalBlocks.toNat) :
    ∃ m', run disk.mapping (diskFormat disk now uid gid volumeName) m = some (0, m') ∧
      Fresh disk uid gid m' := by
  obtain ⟨m', hrun, hformatted⟩ := run_diskFormat_formatted disk disk.volume_mapping
    (DiskInterface.mapping_exactTo.mono hfit) (hfit.trans_le (min_le_left _ _)) hslots hblank now
    uid gid hname
  exact ⟨m', hrun, { toFormatted := hformatted, fits := hfit }⟩

/-! ## The free blocks of a fresh volume -/

namespace Fresh

variable {uid gid : UInt32}

/-- Exactly the blocks up to the root node are taken. -/
theorem blockBit_lt (F : Fresh disk uid gid m) {b : ℕ} (hb : b < disk.totalBlocks.toNat) :
    Nbtrfs.blockBit m b = decide (b < dataStart disk.totalBlocks.toNat + 1) := by
  rw [F.blockBit b (hb.trans_le (le_blockBitmapBlocks _))]
  exact decide_eq_decide.mpr (by omega)

/-- The block bitmap of a fresh volume covers all of its blocks. -/
theorem bitmapArea (F : Fresh disk uid gid m) : BitmapArea disk m where
  type b h1 hb := by
    have htable := inodeBitmapStart_le disk.totalBlocks.toNat
    have hstart : inodeBitmapStart disk.totalBlocks.toNat =
      1 + blockBitmapBlocks disk.totalBlocks.toNat := rfl
    exact F.layout.bitmap b h1 (by omega)
  bit b hb := by
    have htable := inodeBitmapStart_le disk.totalBlocks.toNat
    have hdata := inodeTableStart_le disk.totalBlocks.toNat
    have hstart : inodeBitmapStart disk.totalBlocks.toNat =
      1 + blockBitmapBlocks disk.totalBlocks.toNat := rfl
    have htotal : disk.addressable ≤ disk.totalBlocks.toNat := min_le_left _ _
    have hfits := F.fits
    rw [F.blockBit_lt (by omega)]
    exact decide_eq_true (by omega)

theorem firstFree (F : Fresh disk uid gid m)
    (hroom : dataStart disk.totalBlocks.toNat + 1 < disk.addressable) :
    FirstFree disk m (dataStart disk.totalBlocks.toNat + 1) :=
  FirstFree.of_prefix hroom fun _ hb => F.blockBit_lt hb

end Fresh

end Nbtrfs
