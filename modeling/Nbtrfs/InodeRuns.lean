import Nbtrfs.Format
import Nbtrfs.Lib.Runs

/-!
# Runs of the inode allocator

A run interleaves `inode_allocate` and `inode_free`, freeing only numbers that are allocated. As long
as the run only allocates, the numbers are distinct and the bitmap follows them. `inode_free` clears
a bit of a word before the one it should: the number it was called for stays marked on every volume.
-/

namespace Nbtrfs

open BlockProg Bytes

/-- One call of the inode allocator. -/
inductive InodeOp where
  | alloc (mode : UInt32)
  | free (inodeNumber : UInt64)
deriving DecidableEq

/-- The volume and the numbers that are allocated. -/
structure InodeState where
  image : Image
  allocated : Finset ℕ

/-- One call on the volume. -/
def InodeOp.step (disk : DiskInterface) (uid gid : UInt32) : InodeOp → InodeState → Option InodeState
  | alloc mode, s => (run disk.mapping (inodeAllocate disk uid gid mode) s.image).map fun r =>
      ⟨r.2, if r.1 < 0 then s.allocated else insert r.1.toNat s.allocated⟩
  | free inodeNumber, s => (run disk.mapping (inodeFree inodeNumber) s.image).map fun r =>
      ⟨r.2, s.allocated.erase inodeNumber.toNat⟩

/-- A formatted volume in which the inodes of `allocated` are in use: the areas are in place, the
block behind them holds the root node, and the bits of the slots are those of `allocated`. -/
structure FormattedInodes (disk : DiskInterface) (s : InodeState) : Prop where
  layout : Layout disk.mapping disk s.image
  fits : dataStart disk.totalBlocks.toNat < disk.addressable
  rootType : blockType (s.image (dataStart disk.totalBlocks.toNat)) = BlockType.btreeNode.code
  bit : ∀ n < inodeCapacity disk.totalBlocks.toNat,
    (inodeBit disk s.image n = true ↔ n ∈ s.allocated)
  allocated_lt : ∀ n ∈ s.allocated, n < inodeCapacity disk.totalBlocks.toNat

/-- Between `m` and `m'` the bit of inode `n` changed to `v`, its slot may have changed, and nothing
else did. -/
structure OnlyInode (disk : DiskInterface) (m m' : Image) (n : ℕ) (v : Bool) : Prop where
  before : inodeBit disk m n = !v
  after : inodeBit disk m' n = v
  bits : ∀ i, i ≠ n % 4092 → bitOf (m' (inodeBitmapStart disk.totalBlocks.toNat + n / 4092)) i =
    bitOf (m (inodeBitmapStart disk.totalBlocks.toNat + n / 4092)) i
  slots : ∀ k, k ≠ n → inodeAt disk m' k = inodeAt disk m k
  pages : ∀ c, c ≠ inodeBitmapStart disk.totalBlocks.toNat + n / 4092 → c ≠ slotBlock disk n →
    m' c = m c

/-- What a call of the allocator owes its callers. A number that was freed is not allocated, so it
can be returned again as long as `inode_allocate` fails only on a full table. -/
def InodeOp.Safe (disk : DiskInterface) (uid gid : UInt32) :
    InodeOp → InodeState → InodeState → Prop
  | alloc mode, s, s' => ∃ r, run disk.mapping (inodeAllocate disk uid gid mode) s.image =
        some (r, s'.image) ∧
      ((∃ n : ℕ, r = n ∧ n < inodeCapacity disk.totalBlocks.toNat ∧ n ∉ s.allocated ∧
          OnlyInode disk s.image s'.image n true) ∨
        (r = -1 ∧ ∀ n < inodeCapacity disk.totalBlocks.toNat, n ∈ s.allocated))
  | free inodeNumber, s, s' => OnlyInode disk s.image s'.image inodeNumber.toNat false

/-- Only allocated numbers are freed. -/
def InodeOp.Valid : InodeOp → InodeState → Prop
  | alloc _, _ => True
  | free inodeNumber, s => inodeNumber.toNat ∈ s.allocated

/-- The call is `inode_allocate`, and on a full table the first clear bit of the inode bitmap, which
has no slot any more, leads to a block of the volume that is no inode table block. -/
def InodeOp.Sound (disk : DiskInterface) : InodeOp → InodeState → Prop
  | alloc _, s => (∃ n < inodeCapacity disk.totalBlocks.toNat, n ∉ s.allocated) ∨
      ∀ f < 4092 * inodeBitmapBlocks disk.totalBlocks.toNat, inodeBit disk s.image f = false →
        (∀ i < f, inodeBit disk s.image i = true) →
        slotBlock disk f < disk.addressable ∧
          blockType (s.image (slotBlock disk f)) ≠ BlockType.inode.code
  | free _, _ => False

variable {disk : DiskInterface} {uid gid : UInt32} {s : InodeState} {m : Image}

/-- A freshly formatted volume has inode 0 in use. -/
theorem Fresh.formattedInodes (h : Fresh disk uid gid m)
    (hslots : 0 < inodeTableBlocks disk.totalBlocks.toNat) : FormattedInodes disk ⟨m, {0}⟩ where
  layout := h.layout
  fits := h.fits
  rootType := h.rootType
  bit n hn := by
    rw [h.inodeBit n (hn.trans_le (capacity_le _)), decide_eq_true_iff, Finset.mem_singleton]
  allocated_lt n hn := by
    rw [Finset.mem_singleton.mp hn]
    exact Nat.mul_pos (by decide) hslots

namespace FormattedInodes

theorem start_lt (h : FormattedInodes disk s) :
    inodeBitmapStart disk.totalBlocks.toNat < 2147483648 := by
  have hwrap : disk.addressable ≤ 524288 := min_le_right _ _
  have hfits := h.fits
  have htable := inodeBitmapStart_le disk.totalBlocks.toNat
  have hdata := inodeTableStart_le disk.totalBlocks.toNat
  omega

/-- The table page of any bit of the inode bitmap has a number below `2 ^ 20`. -/
theorem slotBlock_lt (h : FormattedInodes disk s) {f : ℕ}
    (hf : f < 4092 * inodeBitmapBlocks disk.totalBlocks.toNat) : slotBlock disk f < 1048576 := by
  have hwrap : disk.addressable ≤ 524288 := min_le_right _ _
  have hfits := h.fits
  have hblocks := inodeBitmapBlocks_le disk.totalBlocks.toNat
  rw [dataStart, inodeTableBlocks] at hfits
  rw [slotBlock]
  simp only [inodesPerPage, usableBlockSize, sizeofInode]
  omega

/-- A claim changes the bit and the slot of its inode only. -/
theorem onlyInode_claimInode {mode : UInt32} {f : ℕ}
    (hf : f < inodeCapacity disk.totalBlocks.toNat) (hclear : inodeBit disk m f = false) :
    OnlyInode disk m (claimInode disk m uid gid mode f) f true where
  before := hclear
  after := by rw [inodeBit_claimInode (hf.trans_le (capacity_le _)), if_pos rfl]
  bits i hi := by
    have hbits := capacity_le disk.totalBlocks.toNat
    have hslot := slotBlock_ge disk f
    rw [inodeTableStart] at hslot
    rw [claimInode, putInode, Function.update_of_ne (by omega), putAreaBit, Function.update_self,
      bitOf_setBit, if_neg hi]
  slots _ hk := inodeAt_claimInode_ne (hf.trans_le (capacity_le _)) hk
  pages _ hbit hslot := claimInode_of_ne hbit hslot

/-- A clear bit below the capacity is claimed. -/
theorem alloc_first (h : FormattedInodes disk s) (mode : UInt32) {f : ℕ}
    (hf : f < inodeCapacity disk.totalBlocks.toNat) (hfree : f ∉ s.allocated)
    (hmin : ∀ i < f, i ∈ s.allocated) :
    ∃ s', (InodeOp.alloc mode).step disk uid gid s = some s' ∧
      (InodeOp.alloc mode).Safe disk uid gid s s' ∧ FormattedInodes disk s' := by
  have hbits := capacity_le disk.totalBlocks.toNat
  have hclear : inodeBit disk s.image f = false := by
    simpa using (h.bit f hf).not.mpr hfree
  have hset : ∀ i < f, inodeBit disk s.image i = true := fun i hi =>
    (h.bit i (by omega)).mpr (hmin i hi)
  have hrun := h.layout.run_inodeAllocate uid gid mode h.start_lt hf hclear hset
  have hroot : claimInode disk s.image uid gid mode f (dataStart disk.totalBlocks.toNat) =
      s.image (dataStart disk.totalBlocks.toNat) := by
    have hslot := Nbtrfs.slotBlock_lt hf
    have hdata := inodeTableStart_le disk.totalBlocks.toNat
    rw [inodeTableStart] at hdata
    exact claimInode_of_ne (by omega) (by omega)
  refine ⟨⟨claimInode disk s.image uid gid mode f, insert f s.allocated⟩, ?_,
    ⟨f, hrun, Or.inl ⟨f, rfl, hf, hfree, onlyInode_claimInode hf hclear⟩⟩, ?_⟩
  · rw [InodeOp.step, hrun, Option.map_some, if_neg (by omega), Int.toNat_natCast]
  · exact {
      layout := h.layout.claimInode uid gid mode f
      fits := h.fits
      rootType := (congrArg blockType hroot).trans h.rootType
      bit := fun n hn => by
        rw [inodeBit_claimInode (by omega), Finset.mem_insert]
        by_cases hnf : n = f
        · simp [hnf]
        · rw [if_neg hnf, h.bit n hn]
          simp [hnf]
      allocated_lt := fun n hn => by
        rcases Finset.mem_insert.mp hn with rfl | hn
        · exact hf
        · exact h.allocated_lt n hn }

/-- Setting a bit that has no slot keeps the volume formatted. -/
theorem putInodeBit (h : FormattedInodes disk s) {f : ℕ}
    (hcap : inodeCapacity disk.totalBlocks.toNat ≤ f) : FormattedInodes disk
      ⟨putAreaBit s.image (inodeBitmapStart disk.totalBlocks.toNat) f true, s.allocated⟩ where
  layout := h.layout.putInodeBit f true
  fits := h.fits
  rootType := (blockType_putAreaBit _ _ _ _ _).trans h.rootType
  bit n hn := by
    have hput := areaBit_putAreaBit s.image (inodeBitmapStart disk.totalBlocks.toNat) f n true
    rw [if_neg (by omega)] at hput
    rw [← h.bit n hn, inodeBit, inodeBit, hput]
  allocated_lt := h.allocated_lt

/-- What `inode_allocate` does with a first clear bit that has no slot: it crashes, fails, or claims
a slot behind the table, as the block that the number leads to is. -/
theorem run_alloc_past (h : FormattedInodes disk s) (uid gid mode : UInt32) {f : ℕ}
    (hf : f < 4092 * inodeBitmapBlocks disk.totalBlocks.toNat)
    (hclear : inodeBit disk s.image f = false) (hset : ∀ i < f, inodeBit disk s.image i = true) :
    (disk.addressable ≤ slotBlock disk f →
        run disk.mapping (inodeAllocate disk uid gid mode) s.image = none) ∧
      (slotBlock disk f < disk.addressable →
        blockType (s.image (slotBlock disk f)) ≠ BlockType.inode.code →
        run disk.mapping (inodeAllocate disk uid gid mode) s.image =
          some (-1, putAreaBit s.image (inodeBitmapStart disk.totalBlocks.toNat) f true)) ∧
      (slotBlock disk f < disk.addressable →
        blockType (s.image (slotBlock disk f)) = BlockType.inode.code →
        ∃ m', run disk.mapping (inodeAllocate disk uid gid mode) s.image = some ((f : ℤ), m')) := by
  have hwrap : disk.addressable ≤ 524288 := min_le_right _ _
  have hblocks := inodeBitmapBlocks_le disk.totalBlocks.toNat
  have htotal := total_lt disk
  have hnat : (UInt64.ofNat f).toNat = f := toNat_ofNat_block (by omega)
  have L := h.layout.putInodeBit f true
  have htype : blockType (putAreaBit s.image (inodeBitmapStart disk.totalBlocks.toNat) f true
      (slotBlock disk f)) = blockType (s.image (slotBlock disk f)) := blockType_putAreaBit _ _ _ _ _
  rw [h.layout.run_inodeAllocate_scan uid gid mode h.start_lt hf hclear hset, inodeClaim]
  refine ⟨fun hout => ?_, fun hin hne => ?_, fun hin heq => ?_⟩
  · apply run_bind_of_none
    apply L.run_inodeRead_unreachable
    rw [hnat]
    exact DiskInterface.mapping_addr_eq_none hout (h.slotBlock_lt hf)
  · have haddr := DiskInterface.mapping_exactTo.ofNat hin (hwrap.trans (by decide))
    have hread := L.run_inodeRead (n := UInt64.ofNat f) (by rwa [hnat])
    rw [htype, if_neg hne] at hread
    rw [run_bind_of_eq hread]
    rfl
  · have haddr := DiskInterface.mapping_exactTo.ofNat hin (hwrap.trans (by decide))
    have hread := L.run_inodeRead (n := UInt64.ofNat f) (by rwa [hnat])
    rw [htype, if_pos heq] at hread
    rw [run_bind_of_eq hread]
    generalize Inode.ofPage _ _ = node
    have hwrite := L.run_inodeWrite { node with
      inodeNumber := UInt64.ofNat f
      mode := mode
      ownerId := uid
      groupId := gid
      referenceCount := 1 } (by rw [hnat]; omega) (by rwa [hnat]) (by rwa [htype])
    simp only [run_bind_of_eq hwrite]
    rw [if_neg (by decide), run_bind_of_eq (run_writeBack _ _), run_pure, hnat]
    exact ⟨_, rfl⟩

/-- The scan ends behind the inode bitmap when all its bits are set. -/
theorem run_alloc_full (h : FormattedInodes disk s) (uid gid mode : UInt32)
    (hset : ∀ i < 4092 * inodeBitmapBlocks disk.totalBlocks.toNat, inodeBit disk s.image i = true) :
    run disk.mapping (inodeAllocate disk uid gid mode) s.image = some (-1, s.image) := by
  have hwrap : disk.addressable ≤ 524288 := min_le_right _ _
  have hdata := inodeTableStart_le disk.totalBlocks.toNat
  have hfits := h.fits
  refine h.layout.run_inodeAllocate_full uid gid mode h.start_lt
    (DiskInterface.mapping_exactTo.ofNat (by omega) (hwrap.trans (by decide))) ?_ hset
  -- behind the bitmap comes the inode table, or the root node when the table is empty
  by_cases hempty : inodeTableStart disk.totalBlocks.toNat = dataStart disk.totalBlocks.toNat
  · rw [hempty, h.rootType]
    decide
  · rw [h.layout.table _ le_rfl (by omega)]
    decide

end FormattedInodes

/-! ## Steps -/

/-- A sound call goes through, is safe, and keeps the volume formatted. -/
theorem InodeOp.step_of_sound (op : InodeOp) (h : FormattedInodes disk s)
    (hsound : op.Sound disk s) : ∃ s', op.step disk uid gid s = some s' ∧
      op.Safe disk uid gid s s' ∧ FormattedInodes disk s' := by
  cases op with
  | free inodeNumber => exact hsound.elim
  | alloc mode =>
      by_cases hfull : ∀ n < inodeCapacity disk.totalBlocks.toNat, n ∈ s.allocated
      · have hpast : ∀ f < 4092 * inodeBitmapBlocks disk.totalBlocks.toNat,
            inodeBit disk s.image f = false → (∀ i < f, inodeBit disk s.image i = true) →
            slotBlock disk f < disk.addressable ∧
              blockType (s.image (slotBlock disk f)) ≠ BlockType.inode.code := by
          rcases hsound with ⟨n, hn, hfree⟩ | hpast
          · exact absurd (hfull n hn) hfree
          · exact hpast
        by_cases hbits : ∀ i < 4092 * inodeBitmapBlocks disk.totalBlocks.toNat,
            inodeBit disk s.image i = true
        · have hrun := h.run_alloc_full uid gid mode hbits
          exact ⟨s, by rw [step, hrun]; rfl, ⟨-1, hrun, Or.inr ⟨rfl, hfull⟩⟩, h⟩
        · obtain ⟨f, hf, hclear, hset⟩ := exists_first_of_not hbits
          have hclear : inodeBit disk s.image f = false := by simpa using hclear
          have hcap : inodeCapacity disk.totalBlocks.toNat ≤ f := by
            by_contra hlt
            have := (h.bit f (by omega)).mpr (hfull f (by omega))
            rw [hclear] at this
            cases this
          obtain ⟨hin, hne⟩ := hpast f hf hclear hset
          have hrun := (h.run_alloc_past uid gid mode hf hclear hset).2.1 hin hne
          exact ⟨_, by rw [step, hrun]; rfl, ⟨-1, hrun, Or.inr ⟨rfl, hfull⟩⟩, h.putInodeBit hcap⟩
      · obtain ⟨f, hf, hfree, hmin⟩ := exists_first_of_not hfull
        exact h.alloc_first mode hf hfree hmin

/-- A call that is not sound crashes or is not safe. -/
theorem InodeOp.not_safe_of_not_sound (op : InodeOp) (h : FormattedInodes disk s)
    (hvalid : op.Valid s) (hnot : ¬op.Sound disk s) (s' : InodeState)
    (hstep : op.step disk uid gid s = some s') : ¬op.Safe disk uid gid s s' := by
  cases op with
  | free inodeNumber =>
      intro hsafe
      have hn := h.allocated_lt _ hvalid
      have hwrap : disk.addressable ≤ 524288 := min_le_right _ _
      have hfits := h.fits
      have hdata := inodeTableStart_le disk.totalBlocks.toNat
      obtain ⟨⟨rv, m'⟩, hrun, rfl⟩ := Option.map_eq_some_iff.mp hstep
      have hkeep := h.layout.ensures_inodeFree hn (by omega) _ _ hrun
      have hset := (h.bit _ hn).mpr hvalid
      have hclear : inodeBit disk m' inodeNumber.toNat = false := hsafe.after
      rw [hkeep, hset] at hclear
      cases hclear
  | alloc mode =>
      rintro ⟨r, hrun, hclaim⟩
      rw [Sound] at hnot
      push Not at hnot
      obtain ⟨hfull, f, hf, hclear, hset, hpast⟩ := hnot
      have hcap : inodeCapacity disk.totalBlocks.toNat ≤ f := by
        by_contra hlt
        have := (h.bit f (by omega)).mpr (hfull f (by omega))
        rw [hclear] at this
        cases this
      obtain ⟨hcrash, -, htaken⟩ := h.run_alloc_past uid gid mode hf hclear hset
      by_cases hin : slotBlock disk f < disk.addressable
      · obtain ⟨m', hrun'⟩ := htaken hin (hpast hin)
        rw [hrun'] at hrun
        obtain ⟨rfl, -⟩ := Prod.mk.inj (Option.some.inj hrun)
        rcases hclaim with ⟨n, hn, hlt, -⟩ | ⟨hneg, -⟩
        · omega
        · omega
      · rw [hcrash (by omega)] at hrun
        cases hrun

/-- From a formatted volume, a run that frees only allocated numbers is safe exactly when all its
calls are sound; in particular it must not free any inode. -/
theorem inodeRun_safe_iff {disk : DiskInterface} {uid gid : UInt32} {s : InodeState}
    (hfmt : FormattedInodes disk s) (ops : List InodeOp)
    (hvalid : Admits (InodeOp.step disk uid gid) InodeOp.Valid ops s) :
    SafeRun (InodeOp.step disk uid gid) (InodeOp.Safe disk uid gid) ops s ↔
      Admits (InodeOp.step disk uid gid) (InodeOp.Sound disk) ops s :=
  safeRun_iff_admits (FormattedInodes disk) (fun op _ hinv _ hsound => op.step_of_sound hinv hsound)
    (fun op _ hinv hval hnot => op.not_safe_of_not_sound hinv hval hnot) hfmt hvalid

/-- A 256-block volume, formatted from zeros. -/
theorem exists_formattedInodes_256 : ∃ m, run (DiskInterface.mapping ⟨256, by decide⟩)
      (diskFormat ⟨256, by decide⟩ 0 0 0 []) (fun _ _ => 0) = some (0, m) ∧
    FormattedInodes ⟨256, by decide⟩ ⟨m, {0}⟩ := by
  obtain ⟨m, hrun, hfresh⟩ := run_diskFormat_blank ⟨256, by decide⟩ 0 0 0
    (show ([] : List UInt8).length ≤ 31 by decide) (blank_zero _) (by decide) (by decide)
  exact ⟨m, hrun, hfresh.formattedInodes (by decide)⟩

/-- On a freshly formatted volume of 256 blocks, an allocation is safe. -/
theorem inodeRun_safe_256 : ∃ m, SafeRun (InodeOp.step ⟨256, by decide⟩ 0 0)
    (InodeOp.Safe ⟨256, by decide⟩ 0 0) [InodeOp.alloc 0] ⟨m, {0}⟩ := by
  obtain ⟨m, -, hfmt⟩ := exists_formattedInodes_256
  have hvalid : Admits (InodeOp.step ⟨256, by decide⟩ 0 0) InodeOp.Valid [InodeOp.alloc 0]
    ⟨m, {0}⟩ := ⟨trivial, fun _ _ => trivial⟩
  refine ⟨m, (inodeRun_safe_iff hfmt _ hvalid).mpr ⟨Or.inl ⟨1, by decide, ?_⟩, fun _ _ => trivial⟩⟩
  show 1 ∉ ({0} : Finset ℕ)
  decide

/-- On that volume, freeing inode 0, which is allocated, is not. -/
theorem inodeRun_unsafe_256 : ∃ m, run (DiskInterface.mapping ⟨256, by decide⟩)
      (diskFormat ⟨256, by decide⟩ 0 0 0 []) (fun _ _ => 0) = some (0, m) ∧
    (InodeOp.free 0).Valid ⟨m, {0}⟩ ∧ ¬SafeRun (InodeOp.step ⟨256, by decide⟩ 0 0)
      (InodeOp.Safe ⟨256, by decide⟩ 0 0) [InodeOp.free 0] ⟨m, {0}⟩ := by
  obtain ⟨m, hrun, hfmt⟩ := exists_formattedInodes_256
  have hvalid : (InodeOp.free 0).Valid ⟨m, {0}⟩ := Finset.mem_singleton.mpr rfl
  refine ⟨m, hrun, hvalid, ?_⟩
  rintro ⟨s', hs', hsafe, -⟩
  exact (InodeOp.free 0).not_safe_of_not_sound hfmt hvalid not_false s' hs' hsafe

end Nbtrfs
