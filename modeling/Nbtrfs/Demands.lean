import Nbtrfs.Cache.Mount
import Nbtrfs.FreePage
import Nbtrfs.InodeTable
import Nbtrfs.Lib.PageDemand

/-!
# What the allocators ask of the cache

Reference: `superblock.c`, `disk.c::alloc_page`, `inode.c`.

A call that obtains only pages that the address arithmetic of `get_block` reaches, and that announces
few of them, has room in a cache with a slot for every block (`Demands.roomy`). Shown here of the
functions that read and take the metadata.
-/

namespace Nbtrfs

open BlockProg Bytes

/-- The run obtains only pages within reach and announces at most `n`. -/
abbrev Demands (disk : DiskInterface) (n : ℕ) {α : Type} (p : BlockProg α) (m : Image) : Prop :=
  Asks disk.mapping disk.addressable n p m

variable {disk : DiskInterface} {m : Image} {n : ℕ}

/-- A cache with a slot for every block has room for it. -/
theorem Demands.roomy {α : Type} {p : BlockProg α} (h : Demands disk n p m) {cacheSize : ℕ}
    (hslots : disk.addressable ≤ cacheSize) (hnumbers : (cacheSize : ℤ) ≤ intMax)
    (hcount : (n : ℤ) ≤ intMax) : Roomy disk (fun _ => .null) cacheSize p m where
  reach := h.below
  slots := by
    have hinj : Set.InjOn UInt64.toNat (PageEvent.pages (events disk.mapping p m) : Set UInt64) :=
      fun _ _ _ _ heq => UInt64.toNat_inj.mp heq
    have hsub : (PageEvent.pages (events disk.mapping p m)).image UInt64.toNat ⊆
        Finset.range disk.addressable := by
      intro b hb
      obtain ⟨q, hq, rfl⟩ := Finset.mem_image.mp hb
      exact Finset.mem_range.mpr (h.below q (PageEvent.mem_pages_iff.mp hq))
    have hcard := Finset.card_le_card hsub
    rw [Finset.card_image_of_injOn hinj, Finset.card_range] at hcard
    exact hcard.trans hslots
  slotNumbers := hnumbers
  count := by
    have hle := h.count
    omega
  zeroed _ := rfl

/-! ## The superblock and the block bitmap -/

section Alloc

variable (hpos : 0 < disk.addressable)
include hpos

/-- The superblock is on page 0. -/
theorem demands_superblockRead : Demands disk 0 superblockRead m := by
  rw [superblockRead]
  exact Asks.fetch_bind hpos (Asks.page_bind fun _ _ => Asks.ite (fun _ => Asks.pure) fun _ => Asks.pure)

theorem demands_superblockCopy : Demands disk 0 superblockCopy m := by
  rw [superblockCopy]
  refine (demands_superblockRead hpos).quiet_bind fun sb _ _ => ?_
  cases sb with
  | none => exact Asks.crash
  | some sb => exact Asks.pure

/-- It is announced when it is written. -/
theorem demands_superblockWrite (sb : Superblock) : Demands disk 1 (superblockWrite sb) m := by
  rw [superblockWrite]
  refine Asks.fetch_bind hpos (Asks.page_bind fun _ _ => Asks.ite (fun _ => Asks.pure) fun _ => ?_)
  exact Asks.modify.quiet_bind fun _ _ _ => Asks.writeBack_bind Asks.pure

end Alloc

/-- A bit is read from the page that was obtained for it. -/
theorem demands_bitmapGet (bm : UInt64) (ii : ℤ) : Demands disk 0 (bitmapGet bm ii) m := by
  rw [bitmapGet]
  exact Asks.page_bind fun _ _ => Asks.ite (fun _ => Asks.pure) fun _ =>
    Asks.peek.quiet_bind fun _ _ _ => Asks.pure

theorem demands_bitmapPut (bm : UInt64) (ii vv : ℤ) : Demands disk 0 (bitmapPut bm ii vv) m := by
  rw [bitmapPut]
  exact Asks.page_bind fun _ _ => Asks.ite (fun _ => Asks.pure) fun _ =>
    Asks.peek.quiet_bind fun _ _ _ => Asks.poke.quiet_bind fun _ _ _ => Asks.pure

section Alloc

variable (hbitmap : blockBitmapBlocks disk.totalBlocks.toNat < disk.addressable)
include hbitmap

/-- The scan moves to the bitmap page of the next bit, which is before the data. -/
theorem demands_nextBitmap {ii : ℕ} (hii : ii < disk.totalBlocks.toNat) :
    Demands disk 0 (nextBitmap ii (1 + (ii - 1) / 4092)) m := by
  have hblocks := le_blockBitmapBlocks disk.totalBlocks.toNat
  rw [nextBitmap]
  refine Asks.ite (fun hstep => Asks.fetch_bind ?_ Asks.pure) fun _ => Asks.pure
  simp only [usableBlockSize] at hstep
  rw [UInt64.toNat_ofNat']
  exact (Nat.mod_le _ _).trans_lt (by omega)

/-- The search for a free block obtains the pages of the block bitmap, one after the other. -/
theorem demands_allocScan (sb : Superblock) (n ii : ℕ) (hii : ii + n ≤ disk.totalBlocks.toNat) :
    Demands disk 2 (allocScan sb n ii (1 + (ii - 1) / 4092)) m := by
  induction n generalizing ii m with
  | zero => exact Asks.pure
  | succ n ih =>
      rw [allocScan]
      refine (demands_nextBitmap hbitmap (by omega)).quiet_bind_of_run (run_nextBitmap ii) ?_
      refine (demands_bitmapGet _ _).quiet_bind fun bit m' _ => ?_
      refine Asks.ite (fun _ => ?_) fun _ => ?_
      · refine (demands_bitmapPut _ _ _).quiet_bind fun rv _ _ => ?_
        refine Asks.ite (fun _ => Asks.pure) fun _ => ?_
        exact (demands_superblockWrite (Nat.zero_lt_of_lt hbitmap) _).bind fun _ _ _ =>
          Asks.writeBack_bind Asks.pure
      · have hrec : Demands disk 2 (allocScan sb n (ii + 1) (1 + (ii + 1 - 1) / 4092)) m' :=
          ih (ii + 1) (by omega)
        rwa [Nat.add_sub_cancel] at hrec

/-- `alloc_page` announces the bitmap page and the superblock. -/
theorem demands_allocPage : Demands disk 2 (allocPage disk) m := by
  have hone : (1 : UInt64).toNat < disk.addressable := by
    have hbits := le_blockBitmapBlocks disk.totalBlocks.toNat
    have hle : disk.addressable ≤ disk.totalBlocks.toNat := min_le_left _ _
    show 1 < _
    omega
  rw [allocPage]
  refine Asks.fetch_bind hone ?_
  exact (demands_superblockRead (Nat.zero_lt_of_lt hbitmap)).quiet_bind fun sb _ _ =>
    demands_allocScan hbitmap _ _ 0 (by omega)

end Alloc

/-! ## Inodes -/

section Inodes

variable (L : Layout disk.mapping disk m)
  (hfits : dataStart disk.totalBlocks.toNat < disk.addressable)
include L hfits

/-- An inode is on a page of the table. -/
theorem demands_inodeRead {number : UInt64}
    (hn : number.toNat < inodeCapacity disk.totalBlocks.toNat) :
    Demands disk 0 (inodeRead number) m := by
  have hslot : slotBlock disk number.toNat < _ := slotBlock_lt hn
  have hwrap := addressable_le disk
  have hpos : 0 < disk.addressable := Nat.zero_lt_of_lt hfits
  rw [inodeRead]
  refine (demands_superblockCopy hpos).quiet_bind_of_run L.run_superblockCopy ?_
  simp only [div_inodesPerPage, L.inodeTableBlock_eq]
  refine Asks.fetch_bind ?_ (Asks.page_bind fun _ _ =>
    Asks.ite (fun _ => Asks.pure) fun _ => Asks.pure)
  show (UInt64.ofNat (slotBlock disk number.toNat)).toNat < _
  rw [toNat_ofNat_block (by omega)]
  omega

/-- Writing it announces that page. -/
theorem demands_inodeWrite (node : Inode)
    (hn : node.inodeNumber.toNat < inodeCapacity disk.totalBlocks.toNat) :
    Demands disk 1 (inodeWrite node) m := by
  have hslot : slotBlock disk node.inodeNumber.toNat < _ := slotBlock_lt hn
  have hwrap := addressable_le disk
  have hcap := capacity_lt disk
  have hpos : 0 < disk.addressable := Nat.zero_lt_of_lt hfits
  have hint : node.inodeNumber.toBitVec.toInt = node.inodeNumber.toNat := by
    rw [BitVec.toInt_eq_toNat_cond, UInt64.toNat_toBitVec, if_pos (by omega)]
  have hpage : UInt64.ofInt ((node.inodeNumber.toNat : ℤ).tdiv ((inodesPerPage : ℕ) : ℤ)) =
      UInt64.ofNat (node.inodeNumber.toNat / inodesPerPage) := by
    rw [Int.tdiv_eq_ediv_of_nonneg (by omega), ← Int.natCast_ediv, ofInt_natCast]
  rw [inodeWrite]
  refine (demands_superblockCopy hpos).quiet_bind_of_run L.run_superblockCopy ?_
  simp only [hint, hpage, L.inodeTableBlock_eq]
  refine Asks.fetch_bind ?_ (Asks.page_bind fun _ _ => Asks.ite (fun _ => Asks.pure) fun _ =>
    Asks.ite (fun _ => Asks.crash) fun _ => Asks.modify.quiet_bind fun _ _ _ =>
      Asks.writeBack_bind Asks.pure)
  show (UInt64.ofNat (slotBlock disk node.inodeNumber.toNat)).toNat < _
  rw [toNat_ofNat_block (by omega)]
  omega

/-- A claimed inode announces its bitmap page and its table page. -/
theorem demands_inodeClaim (uid gid mode : UInt32) {number : UInt64} (ibmn : ℤ)
    (hn : number.toNat < inodeCapacity disk.totalBlocks.toNat) :
    Demands disk 2 (inodeClaim uid gid mode number ibmn) m := by
  rw [inodeClaim]
  refine (demands_inodeRead L hfits hn).quiet_bind_of_run (L.run_inodeRead_slot hn) ?_
  exact (demands_inodeWrite L hfits _ hn).bind fun rv _ _ =>
    Asks.ite (fun _ => Asks.pure) fun _ => Asks.writeBack_bind Asks.pure

/-- The search for a free inode obtains the pages of the inode bitmap up to the first clear bit. -/
theorem demands_inodeScan {uid gid mode : UInt32} {f : ℕ}
    (hf : f < inodeCapacity disk.totalBlocks.toNat) (hclear : inodeBit disk m f = false)
    {n ii : ℕ} (hii : ii ≤ f) :
    Demands disk 2 (inodeScan (Superblock.ofPage (m 0)) uid gid mode n (UInt64.ofNat ii)
      ((inodeBitmapStart disk.totalBlocks.toNat + (ii - 1) / 4092 : ℕ) : ℤ)) m := by
  have hbits := capacity_le disk.totalBlocks.toNat
  have hcap := capacity_lt disk
  have hwrap := addressable_le disk
  have htable := inodeTableStart_le disk.totalBlocks.toNat
  induction n generalizing ii with
  | zero => exact Asks.crash
  | succ n ih =>
      have hbit : ii < 4092 * inodeBitmapBlocks disk.totalBlocks.toNat := by omega
      obtain ⟨haddr, hlt, htype⟩ := L.bitmapBlock hbit
      have hpage : (inodeBitmapStart disk.totalBlocks.toNat + ii / 4092) <
          inodeTableStart disk.totalBlocks.toNat := by
        rw [inodeTableStart]
        omega
      have hindex := inodeBitIndex_eq L.inodeBitmap ii (by omega)
      have hnext : Demands disk 0 (nextInodeBitmap (UInt64.ofNat ii)
          ((inodeBitmapStart disk.totalBlocks.toNat + (ii - 1) / 4092 : ℕ) : ℤ)) m := by
        rw [nextInodeBitmap]
        refine Asks.ite (fun _ => Asks.fetch_bind ?_ Asks.pure) fun _ => Asks.pure
        rw [← Int.natCast_succ, ofInt_natCast, toNat_ofNat_block (by omega)]
        omega
      rw [inodeScan]
      refine Asks.page_bind fun _ _ => Asks.ite (fun _ => Asks.pure) fun _ => ?_
      refine hnext.quiet_bind_of_run (run_nextInodeBitmap (by omega)) ?_
      rw [hindex, ofInt_natCast]
      refine (demands_bitmapGet _ _).quiet_bind_of_run
        (run_bitmapGet L.volume haddr hlt htype (by omega)) ?_
      have hin : ii % 4092 < 32704 := by omega
      refine Asks.ite (fun _ => ?_) fun hset => ?_
      · -- the inode is claimed
        refine (demands_bitmapPut _ _ _).quiet_bind_of_run
          (run_bitmapPut L.volume haddr hlt htype hin 1) ?_
        refine Asks.ite (fun _ => Asks.pure) fun _ => ?_
        have hnat : (UInt64.ofNat ii).toNat = ii := toNat_ofNat_block (by omega)
        exact demands_inodeClaim (L.putInodeBit ii true) hfits _ _ _ _ (by
          rw [hnat]
          omega)
      · have hne : ii ≠ f := by
          rintro rfl
          refine hset ?_
          have hbit : bitOf (m (inodeBitmapStart disk.totalBlocks.toNat + ii / 4092)) (ii % 4092) =
            false := hclear
          rw [hbit]
          rfl
        have hrec : Demands disk 2 (inodeScan (Superblock.ofPage (m 0)) uid gid mode n
            (UInt64.ofNat (ii + 1))
            ((inodeBitmapStart disk.totalBlocks.toNat + (ii + 1 - 1) / 4092 : ℕ) : ℤ)) m :=
          ih (by omega)
        rwa [Nat.add_sub_cancel, UInt64.ofNat_add, UInt64.ofNat_one] at hrec

/-- `inode_allocate`, with a free slot in the table. -/
theorem demands_inodeAllocate (uid gid mode : UInt32) {f : ℕ}
    (hf : f < inodeCapacity disk.totalBlocks.toNat) (hclear : inodeBit disk m f = false) :
    Demands disk 2 (inodeAllocate disk uid gid mode) m := by
  have hwrap := addressable_le disk
  have htable := inodeTableStart_le disk.totalBlocks.toNat
  have hbitmap := inodeBitmapStart_le disk.totalBlocks.toNat
  have hpos : 0 < disk.addressable := Nat.zero_lt_of_lt hfits
  have hscan : ∀ n, Demands disk 2 (inodeScan (Superblock.ofPage (m 0)) uid gid mode n (UInt64.ofNat 0)
      ((inodeBitmapStart disk.totalBlocks.toNat + (0 - 1) / 4092 : ℕ) : ℤ)) m := fun n =>
    demands_inodeScan L hfits hf hclear (Nat.zero_le f)
  rw [inodeAllocate]
  refine (demands_superblockCopy hpos).quiet_bind_of_run L.run_superblockCopy ?_
  rw [L.inodeBitmap, toNat_ofNat_block (by omega), int32_of_lt (by omega)]
  refine Asks.fetch_bind ?_ (hscan _)
  rw [ofInt_natCast, toNat_ofNat_block (by omega)]
  omega

end Inodes

end Nbtrfs
