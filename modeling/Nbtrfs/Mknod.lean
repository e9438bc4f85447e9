import Nbtrfs.Components
import Nbtrfs.DirectoryRoom
import Nbtrfs.InodeExhaustion

/-!
# A call of mknod that fails

Reference: `fuse.c::nbtrfs_mknod`, with `create` and `mkdir` on top of it.

The inode is allocated first and the entry is added last. Nothing takes the inode back when the parent
is missing or has no place for the entry: the bit stays set. So a call that fails leaves the volume as
it was only where no bit of the inode bitmap is clear.
-/

namespace Nbtrfs

open BlockProg Bytes

variable {disk : DiskInterface} {m m' : Image} {path : CString} {pair : InodeBtreePair}
  {host : Host} {mode : UInt32} {inum : UInt64} {blocks : List ℕ} {b f k n : ℕ} {rv : ℤ}

/-! ## What a failing call owes -/

/-- The bitmaps, the inode table, the pages with data or entries, and the nodes are as they were. -/
structure VolumeUnchanged (disk : DiskInterface) (m m' : Image) : Prop where
  blocks : ∀ b < disk.totalBlocks.toNat, blockBit m' b = blockBit m b
  inodes : ∀ n < 4092 * inodeBitmapBlocks disk.totalBlocks.toNat,
    inodeBit disk m' n = inodeBit disk m n
  table : ∀ n < inodeCapacity disk.totalBlocks.toNat, inodeAt disk m' n = inodeAt disk m n
  pages : ∀ b, blockType (m b) = BlockType.data.code ∨ blockType (m b) = BlockType.btreeNode.code →
    m' b = m b

/-- A call that does not return 0 changed nothing. -/
def Atomic (disk : DiskInterface) (m m' : Image) (rv : ℤ) : Prop :=
  rv ≠ 0 → VolumeUnchanged disk m m'

/-- What `nbtrfs_mknod` relies on: a formatted volume that is sound, on which only the inode table has
blocks of its type, and a directory with an inode of its own where the path of the parent leads. -/
structure MknodVolume (disk : DiskInterface) (m : Image) (path : CString) : Prop where
  sound : Sound disk m
  formatted : FormattedInodes disk ⟨m, markedInodes disk m⟩
  data : ∀ b, dataStart disk.totalBlocks.toNat ≤ b → blockType (m b) ≠ BlockType.inode.code
  parent : ∀ pair, LeadsTo disk m (parentOf path) pair →
    inodeBit disk m pair.inodeNumber.toNat = true ∧ ∃ blocks, EntryBlocks disk m pair.inodeNumber blocks

/-- No inode bit is clear; or one of the slots is free, and the parent is there and has a place. -/
def MknodClean (disk : DiskInterface) (m : Image) (path : CString) : Prop :=
  (∀ n < 4092 * inodeBitmapBlocks disk.totalBlocks.toNat, inodeBit disk m n = true) ∨
    (∃ n < inodeCapacity disk.totalBlocks.toNat, inodeBit disk m n = false) ∧
      ∃ pair blocks, LeadsTo disk m (parentOf path) pair ∧
        EntryBlocks disk m pair.inodeNumber blocks ∧ HasPlace disk m blocks

/-! ## Changes of the inode areas -/

/-- Only the inode bitmap and the inode table changed, behind the types of their blocks. -/
structure OnlyInodes (disk : DiskInterface) (m m' : Image) : Prop where
  other : ∀ b, b < inodeBitmapStart disk.totalBlocks.toNat ∨ dataStart disk.totalBlocks.toNat ≤ b →
    m' b = m b
  type : ∀ b, blockType (m' b) = blockType (m b)

namespace OnlyInodes

theorem trans {m₁ : Image} (h : OnlyInodes disk m m₁) (h' : OnlyInodes disk m₁ m') :
    OnlyInodes disk m m' where
  other b hb := by rw [h'.other b hb, h.other b hb]
  type b := by rw [h'.type b, h.type b]

theorem putAreaBit (hn : n < 4092 * inodeBitmapBlocks disk.totalBlocks.toNat) (v : Bool) :
    OnlyInodes disk m (putAreaBit m (inodeBitmapStart disk.totalBlocks.toNat) n v) where
  other b hb := putAreaBit_of_ne (by
    have htable : inodeTableStart disk.totalBlocks.toNat = inodeBitmapStart disk.totalBlocks.toNat +
      inodeBitmapBlocks disk.totalBlocks.toNat := rfl
    have hdata := inodeTableStart_le disk.totalBlocks.toNat
    omega)
  type b := blockType_putAreaBit _ _ _ _ _

theorem putInode (hn : n < inodeCapacity disk.totalBlocks.toNat) (node : Inode) :
    OnlyInodes disk m (putInode disk m n node) where
  other b hb := Function.update_of_ne (by
    have hlo := slotBlock_ge disk n
    have hstart := inodeBitmapStart_le disk.totalBlocks.toNat
    have hhi : slotBlock disk n < dataStart disk.totalBlocks.toNat := slotBlock_lt hn
    omega) _ _
  type := blockType_putInode

variable (h : OnlyInodes disk m m')
include h

theorem blockBit (hb : b < disk.totalBlocks.toNat) : blockBit m' b = blockBit m b :=
  BitmapArea.bit_congr (fun c hc => h.other c (Or.inl (by
    have hstart : inodeBitmapStart disk.totalBlocks.toNat =
      1 + blockBitmapBlocks disk.totalBlocks.toNat := rfl
    omega))) hb

theorem layout (L : Layout disk.mapping disk m) : Layout disk.mapping disk m' := by
  have h0 : m' 0 = m 0 := h.other 0 (Or.inl (by
    rw [inodeBitmapStart]
    omega))
  exact L.congr (by rw [h0]) (by rw [h0]) fun b _ => h.type b

theorem sound (S : Sound disk m) : Sound disk m' where
  layout := h.layout S.layout
  metadata b hb := by rw [h.blockBit (hb.trans_le S.layout.le_total), S.metadata b hb]
  near := S.near

/-- A lookup does not tell the volumes apart. -/
theorem looksAlike (L : Layout disk.mapping disk m) (b : ℕ) : LooksAlike (m b) (m' b) := by
  by_cases hb : b < inodeBitmapStart disk.totalBlocks.toNat ∨ dataStart disk.totalBlocks.toNat ≤ b
  · rw [h.other b hb]
    exact LooksAlike.refl _
  · by_cases hbitmap : b < inodeTableStart disk.totalBlocks.toNat
    · have hpos : 1 ≤ inodeBitmapStart disk.totalBlocks.toNat := Nat.le_add_right _ _
      have htype := L.bitmap b (by omega) hbitmap
      exact LooksAlike.of_type htype (by rw [h.type, htype]) (by decide) (by decide)
    · have htype := L.table b (by omega) (by omega)
      exact LooksAlike.of_type htype (by rw [h.type, htype]) (by decide) (by decide)

theorem run_itemSearch (L : Layout disk.mapping disk m) (path : CString) :
    run disk.mapping (itemSearch disk path) m' =
      (run disk.mapping (itemSearch disk path) m).map fun r => (r.1, m') :=
  blind_itemSearch disk path (fun _ => True) m m' (fun b _ => h.looksAlike L b)
    (within_all (fun _ => trivial) _)

theorem leadsTo_iff (L : Layout disk.mapping disk m) {path : CString} :
    LeadsTo disk m' path pair ↔ LeadsTo disk m path pair := by
  refine and_congr_left fun _ => ?_
  rw [h.run_itemSearch L, Option.map_eq_some_iff]
  constructor
  · rintro ⟨⟨pair', m₁⟩, hlookup, heq⟩
    obtain rfl : pair' = pair := (Prod.mk.inj heq).1
    rw [hlookup, (blind_itemSearch disk _).image_eq LooksAlike.refl hlookup]
  · exact fun hlookup => ⟨_, hlookup, rfl⟩

/-- The parent keeps its blocks if its inode is kept. -/
theorem entryBlocks (E : EntryBlocks disk m inum blocks)
    (hnode : inodeAt disk m' inum.toNat = inodeAt disk m inum.toNat) :
    EntryBlocks disk m' inum blocks := by
  have htotal : disk.addressable ≤ disk.totalBlocks.toNat := min_le_left _ _
  exact {
    sound := h.sound E.sound
    capacity := E.capacity
    own := by rw [hnode, E.own]
    le := E.le
    direct := fun i hi => by rw [hnode, E.direct i hi]
    indirect := by rw [hnode, E.indirect]
    pos := E.pos
    nodup := E.nodup
    lt := E.lt
    behind := E.behind
    taken := fun b hb => by rw [h.blockBit ((E.lt b hb).trans_le htotal), E.taken b hb]
    type := fun b hb => by rw [h.type, E.type b hb] }

/-- The volume stays one on which `nbtrfs_mknod` can be called, if no inode bit was cleared. -/
theorem mknodVolume (V : MknodVolume disk m path)
    (hbit : ∀ n, inodeBit disk m n = true → inodeBit disk m' n = true)
    (hnode : ∀ n < inodeCapacity disk.totalBlocks.toNat, inodeAt disk m' n = inodeAt disk m n) :
    MknodVolume disk m' path where
  sound := h.sound V.sound
  formatted := V.formatted.congr (h.other 0 (Or.inl (by
    rw [inodeBitmapStart]
    omega))) h.type
  data b hb := by
    rw [h.type]
    exact V.data b hb
  parent pair hpath := by
    obtain ⟨hset, blocks, E⟩ := V.parent pair ((h.leadsTo_iff V.sound.layout).mp hpath)
    exact ⟨hbit _ hset, blocks, h.entryBlocks E (hnode _ E.capacity)⟩

theorem firstFree (H : FirstFree disk m f) : FirstFree disk m' f where
  lt := H.lt
  clear := by rw [h.blockBit H.lt_total, H.clear]
  below b hb := by rw [h.blockBit (hb.trans H.lt_total), H.below b hb]

theorem nearFree_eq : nearFree disk m' = nearFree disk m := by
  have hle : disk.addressable ≤ disk.totalBlocks.toNat := min_le_left _ _
  rw [nearFree, nearFree, Finset.filter_congr fun b hb => by
    rw [h.blockBit ((Finset.mem_range.mp hb).trans_le hle)]]

/-- The nodes stay, since the inode areas hold none. -/
theorem holdsTree (S : Sound disk m) {r : ℕ} {leaves : List Leaf} (T : HoldsTree disk m r leaves) :
    HoldsTree disk m' r leaves := by
  have S' := h.sound S
  exact T.congr (S'.layout.bitmapArea_of_marked S'.metadata)
    (fun c _ _ htype _ => (h.looksAlike S.layout c).node htype)
    fun c hc hset => by rw [h.blockBit hc, hset]

/-- Claiming an inode neither takes nor makes room for an entry. -/
theorem hasPlace_iff (E : EntryBlocks disk m inum blocks) :
    HasPlace disk m' blocks ↔ HasPlace disk m blocks := by
  have hfree : freeBlocks disk m' = freeBlocks disk m := by
    rw [freeBlocks, freeBlocks]
    exact List.filter_congr fun b hb => by rw [h.blockBit (List.mem_range.mp hb)]
  have hnew : ∀ b ∈ freeBlocks disk m, m' b = m b := fun b hb => h.other b (Or.inr (by
    by_contra hlow
    obtain ⟨-, hclear⟩ := mem_freeBlocks.mp hb
    rw [E.sound.metadata b (by omega)] at hclear
    cases hclear))
  have hold : ∀ b ∈ blocks, m' b = m b := fun b hb => h.other b (Or.inr (E.behind b hb))
  have hpages : entryPages disk m' blocks = entryPages disk m blocks := by
    rw [entryPages, entryPages, hfree]
    congr 1
    · refine List.map_congr_left fun b hb => ?_
      have hhead : blocks.headD b ∈ blocks := by
        cases blocks with
        | nil => cases hb
        | cons c rest => exact List.mem_cons_self
      rw [hold b hb, hold _ hhead]
    · refine List.map_congr_left fun b hb => ?_
      rw [hnew b (List.mem_of_mem_take hb)]
  rw [HasPlace, HasPlace, hpages]

end OnlyInodes

/-! ## The call -/

/-- The volume when the entry is added: the inode is claimed and has its time. -/
def mknodImage (disk : DiskInterface) (host : Host) (mode : UInt32) (m : Image) (n : ℕ) : Image :=
  putInode disk (claimInode disk m host.uid host.gid mode n) n
    { claimedInode host.uid host.gid mode n (inodeAt disk m n) with creationTime := host.now }

theorem onlyInodes_mknodImage (hn : n < inodeCapacity disk.totalBlocks.toNat) :
    OnlyInodes disk m (mknodImage disk host mode m n) :=
  ((OnlyInodes.putAreaBit (hn.trans_le (capacity_le _)) true).trans (OnlyInodes.putInode hn _)).trans
    (OnlyInodes.putInode hn _)

theorem inodeBit_mknodImage (hk : k < 4092 * inodeBitmapBlocks disk.totalBlocks.toNat) :
    inodeBit disk (mknodImage disk host mode m n) k = if k = n then true else inodeBit disk m k := by
  have hne : inodeBitmapStart disk.totalBlocks.toNat + k / 4092 ≠ slotBlock disk n := by
    have hslot := slotBlock_ge disk n
    rw [inodeTableStart] at hslot
    omega
  rw [← inodeBit_claimInode hk]
  exact areaBit_congr (Function.update_of_ne hne _ _)

theorem inodeAt_mknodImage (hn : n < inodeCapacity disk.totalBlocks.toNat) (hk : k ≠ n) :
    inodeAt disk (mknodImage disk host mode m n) k = inodeAt disk m k := by
  rw [mknodImage, inodeAt_putInode_ne hk, inodeAt_claimInode_ne (hn.trans_le (capacity_le _)) hk]

/-- The inodes of a volume that ends within reach of `get_block` are numbered by an `int`. -/
theorem FormattedInodes.number_lt {s : InodeState} (h : FormattedInodes disk s)
    (hn : n < inodeCapacity disk.totalBlocks.toNat) : n < 2147483648 := by
  have hwrap := addressable_le disk
  have hfits := h.fits
  have hslot := Nbtrfs.slotBlock_lt hn
  rw [slotBlock] at hslot
  simp only [inodesPerPage, usableBlockSize, sizeofInode] at hslot
  omega

/-- Everything before the entry is added. -/
theorem FormattedInodes.run_mknod (h : FormattedInodes disk ⟨m, markedInodes disk m⟩)
    (hn : n < inodeCapacity disk.totalBlocks.toNat) (hclear : inodeBit disk m n = false)
    (hset : ∀ i < n, inodeBit disk m i = true) :
    run disk.mapping (nbtrfsMknod disk host path mode) m =
      run disk.mapping (directoryAddEntry disk host (parentOf path) (getName path) (UInt64.ofNat n)
        (mode &&& fileTypeMask)) (mknodImage disk host mode m n) := by
  have hsmall := h.number_lt hn
  have hnat : (UInt64.ofNat n).toNat = n := toNat_ofNat_block (by omega)
  have hint : int32 (n : ℤ) = n := int32_of_lt hsmall
  have L := h.layout.claimInode host.uid host.gid mode n
  have hread := L.run_inodeRead_slot (n := UInt64.ofNat n) (by rwa [hnat])
  rw [hnat, inodeAt_claimInode_self] at hread
  have hwrite := L.run_inodeWrite_slot
    { claimedInode host.uid host.gid mode n (inodeAt disk m n) with creationTime := host.now }
    (show (UInt64.ofNat n).toNat < _ by rwa [hnat])
  rw [nbtrfsMknod, run_bind_of_eq (h.layout.run_inodeAllocate host.uid host.gid mode h.start_lt hn hclear
    hset), hint, if_neg (by omega), ofInt_natCast, run_bind_of_eq hread]
  simp only
  rw [run_bind_of_eq hwrite, if_neg (by decide)]
  simp only [claimedInode, hnat]
  rfl

theorem not_atomic (hk : k < 4092 * inodeBitmapBlocks disk.totalBlocks.toNat)
    (hclear : inodeBit disk m k = false) (hset : inodeBit disk m' k = true) :
    ¬Atomic disk m m' (-1) := by
  intro h
  have hsame := (h (by decide)).inodes k hk
  rw [hset, hclear] at hsame
  cases hsame

/-- What `directory_add_entry` does behind a claimed inode. -/
theorem MknodVolume.add_cases (V : MknodVolume disk m path)
    (hn : n < inodeCapacity disk.totalBlocks.toNat) (hclear : inodeBit disk m n = false)
    {name : CString} {target : UInt64} {type : UInt32}
    (hrun : run disk.mapping (directoryAddEntry disk host (parentOf path) name target type)
      (mknodImage disk host mode m n) = some (rv, m')) :
    rv = 0 ∧ (∃ pair blocks, LeadsTo disk m (parentOf path) pair ∧
        EntryBlocks disk m pair.inodeNumber blocks ∧ HasPlace disk m blocks) ∨
      rv = -1 ∧ KeepsInodeBitmap disk (mknodImage disk host mode m n) m' ∧
        ¬∃ pair blocks, LeadsTo disk m (parentOf path) pair ∧
          EntryBlocks disk m pair.inodeNumber blocks ∧ HasPlace disk m blocks := by
  have h : OnlyInodes disk m (mknodImage disk host mode m n) := onlyInodes_mknodImage hn
  have hrun' := hrun
  rw [directoryAddEntry] at hrun'
  obtain ⟨pair, m₂, hsearch, hrest⟩ := run_bind_eq_some.mp hrun'
  obtain rfl := (blind_itemSearch disk _).image_eq LooksAlike.refl hsearch
  rw [h.run_itemSearch V.sound.layout, Option.map_eq_some_iff] at hsearch
  obtain ⟨⟨pair', m₃⟩, hlookup, heq⟩ := hsearch
  obtain rfl : pair' = pair := (Prod.mk.inj heq).1
  obtain rfl : m₃ = m := (blind_itemSearch disk _).image_eq LooksAlike.refl hlookup
  by_cases hfound : pair'.inodeNumber ≠ 0 ∨ parentOf path = [slash]
  · -- the parent is there
    have hpath : LeadsTo disk m₃ (parentOf path) pair' := ⟨hlookup, hfound⟩
    obtain ⟨hbit, blocks, E⟩ := V.parent pair' hpath
    have hne : pair'.inodeNumber.toNat ≠ n := by
      intro heq
      rw [heq, hclear] at hbit
      cases hbit
    have E₁ := h.entryBlocks E (inodeAt_mknodImage hn hne)
    rcases E₁.directoryAddEntry_cases ((h.leadsTo_iff V.sound.layout).mpr hpath) hrun with
      ⟨hrv, hplace⟩ | ⟨hrv, hkeep, hplace⟩
    · exact Or.inl ⟨hrv, pair', blocks, hpath, E, (h.hasPlace_iff E).mp hplace⟩
    · refine Or.inr ⟨hrv, hkeep, ?_⟩
      rintro ⟨pair₁, blocks₁, hpath₁, E₁, hplace₁⟩
      obtain rfl := (Prod.mk.inj (Option.some.inj (hlookup.symm.trans hpath₁.1))).1
      obtain rfl := E.toDataBlocks.unique E₁.toDataBlocks
      exact hplace ((h.hasPlace_iff E).mpr hplace₁)
  · rw [if_neg hfound, run_pure] at hrest
    cases hrest
    refine Or.inr ⟨rfl, fun _ _ _ => rfl, ?_⟩
    rintro ⟨pair₁, blocks₁, hpath₁, -, -⟩
    obtain rfl := (Prod.mk.inj (Option.some.inj (hlookup.symm.trans hpath₁.1))).1
    exact hfound hpath₁.2

/-- A call of `nbtrfs_mknod` is atomic if and only if no bit of the inode bitmap is clear, or there is
a free slot and a place in the parent. -/
theorem mknod_atomic_iff (V : MknodVolume disk m path)
    (hrun : run disk.mapping (nbtrfsMknod disk host path mode) m = some (rv, m')) :
    Atomic disk m m' rv ↔ MknodClean disk m path := by
  have h := V.formatted
  by_cases hfull : ∀ n < 4092 * inodeBitmapBlocks disk.totalBlocks.toNat, inodeBit disk m n = true
  · have hall : run disk.mapping (nbtrfsMknod disk host path mode) m = some (-1, m) := by
      rw [nbtrfsMknod, run_bind_of_eq (h.run_alloc_full host.uid host.gid mode hfull)]
      rfl
    obtain ⟨rfl, rfl⟩ := Prod.mk.inj (Option.some.inj (hall.symm.trans hrun))
    exact iff_of_true (fun _ => ⟨fun _ _ => rfl, fun _ _ => rfl, fun _ _ => rfl, fun _ _ => rfl⟩)
      (Or.inl hfull)
  · obtain ⟨f, hf, hclear, hset⟩ := exists_first_of_not hfull
    have hclear : inodeBit disk m f = false := by simpa using hclear
    rw [MknodClean, or_iff_right hfull]
    by_cases hcap : f < inodeCapacity disk.totalBlocks.toNat
    · rw [h.run_mknod hcap hclear hset] at hrun
      rcases V.add_cases hcap hclear hrun with ⟨rfl, hplace⟩ | ⟨rfl, hkeep, hplace⟩
      · exact iff_of_true (fun hne => absurd rfl hne) ⟨⟨f, hcap, hclear⟩, hplace⟩
      · refine iff_of_false (not_atomic hf hclear ?_) fun hclean => hplace hclean.2
        have htable : inodeTableStart disk.totalBlocks.toNat = inodeBitmapStart disk.totalBlocks.toNat +
          inodeBitmapBlocks disk.totalBlocks.toNat := rfl
        have hbit : inodeBit disk m' f = inodeBit disk (mknodImage disk host mode m f) f :=
          areaBit_congr (hkeep _ (by omega) (by omega))
        rw [hbit, inodeBit_mknodImage hf, if_pos rfl]
    · -- a bit without a slot is set and stays set
      have hnone : ¬∃ n < inodeCapacity disk.totalBlocks.toNat, inodeBit disk m n = false := by
        rintro ⟨n, hn, hfree⟩
        rw [hset n (by omega)] at hfree
        cases hfree
      obtain ⟨hout, hin, -⟩ := h.run_alloc_past host.uid host.gid mode hf hclear hset
      have hreach : slotBlock disk f < disk.addressable := by
        by_contra hfar
        rw [nbtrfsMknod, run_bind_of_none (hout (by omega))] at hrun
        cases hrun
      have hdata : dataStart disk.totalBlocks.toNat ≤ slotBlock disk f := by
        have hcapacity : inodeCapacity disk.totalBlocks.toNat =
          inodesPerPage * inodeTableBlocks disk.totalBlocks.toNat := rfl
        have hstart : dataStart disk.totalBlocks.toNat = inodeTableStart disk.totalBlocks.toNat +
          inodeTableBlocks disk.totalBlocks.toNat := rfl
        have hdiv := (Nat.le_div_iff_mul_le (show 0 < inodesPerPage by decide)).mpr
          (show inodeTableBlocks disk.totalBlocks.toNat * inodesPerPage ≤ f by
            rw [Nat.mul_comm]
            omega)
        rw [slotBlock]
        omega
      have halloc := hin hreach (V.data _ hdata)
      have hall : run disk.mapping (nbtrfsMknod disk host path mode) m =
          some (-1, putAreaBit m (inodeBitmapStart disk.totalBlocks.toNat) f true) := by
        rw [nbtrfsMknod, run_bind_of_eq halloc]
        rfl
      obtain ⟨rfl, rfl⟩ := Prod.mk.inj (Option.some.inj (hall.symm.trans hrun))
      refine iff_of_false (not_atomic hf hclear ?_) fun hclean => hnone hclean.1
      exact (areaBit_putAreaBit ..).trans (if_pos rfl)

/-! ## A full volume -/

theorem EntryBlocks.run_directoryAddEntry_noPage (E : EntryBlocks disk m pair.inodeNumber [])
    (hpath : LeadsTo disk m path pair) (hfull : ∀ b < disk.totalBlocks.toNat, blockBit m b = true)
    {name : CString} {target : UInt64} {type : UInt32} :
    run disk.mapping (directoryAddEntry disk host path name target type) m = some (-1, m) := by
  have hfuel : directoryBlocks = 4355 + 1 := rfl
  rw [directoryAddEntry, run_bind_of_eq hpath.1, if_pos hpath.2,
    run_bind_of_eq (E.sound.layout.run_inodeRead_slot E.capacity), Option.getD_some, hfuel]
  exact E.run_noPage hfull (by decide)

/-- A volume of 256 blocks with an empty root directory and the inode of the root only is one for
`nbtrfs_mknod`. -/
theorem mknodVolume_256 (E : EntryBlocks ⟨256, by decide⟩ m 0 [])
    (hlead : LeadsTo ⟨256, by decide⟩ m [slash] ⟨0, UInt64.ofNat (dataStart 256)⟩)
    (hroot : blockType (m (dataStart 256)) = BlockType.btreeNode.code)
    (hdata : ∀ b, dataStart 256 < b → blockType (m b) ≠ BlockType.inode.code)
    (hinode : ∀ n < 4092, inodeBit ⟨256, by decide⟩ m n = decide (n = 0)) :
    MknodVolume ⟨256, by decide⟩ m [slash, 97] where
  sound := E.sound
  formatted := {
    layout := E.sound.layout
    fits := by decide
    rootType := hroot
    bit := fun n hn => by rw [mem_markedInodes, and_iff_right hn]
    allocated_lt := fun n hn => (mem_markedInodes.mp hn).1 }
  data b hb := by
    have hstart : dataStart 256 ≤ b := hb
    rcases Nat.eq_or_lt_of_le hstart with rfl | hlt
    · rw [hroot]
      decide
    · exact hdata b hlt
  parent pair hpair := by
    have hparent : parentOf [slash, 97] = [slash] := by decide
    rw [hparent] at hpair
    obtain rfl := (Prod.mk.inj (Option.some.inj (hlead.1.symm.trans hpair.1))).1
    exact ⟨hinode 0 (by decide), [], E⟩

/-- A volume of 256 blocks, all of them taken, with an empty root directory and the inode of the root
only. -/
theorem exists_noPage_256 : ∃ m, MknodVolume ⟨256, by decide⟩ m [slash, 97] ∧
    LeadsTo ⟨256, by decide⟩ m [slash] ⟨0, UInt64.ofNat (dataStart 256)⟩ ∧
    EntryBlocks ⟨256, by decide⟩ m 0 [] ∧ (∀ b < 256, blockBit m b = true) ∧
    ∀ n < 4092, inodeBit ⟨256, by decide⟩ m n = decide (n = 0) := by
  obtain ⟨m₀, E, hlead, -, T, -, -, hinodes, hzero⟩ := exists_entryBlocks_256 [] (by decide)
  obtain ⟨m, hbits, htype, hother⟩ := exists_full ⟨256, by decide⟩ m₀
  have L₀ : Layout _ ⟨256, by decide⟩ m₀ := E.sound.layout
  have h0 : m 0 = m₀ 0 := hother 0 (Or.inl rfl)
  have L : Layout (DiskInterface.mapping ⟨256, by decide⟩) ⟨256, by decide⟩ m :=
    L₀.congr (by rw [h0]) (by rw [h0]) fun b _ => htype b
  have hlike : ∀ b, LooksAlike (m₀ b) (m b) := by
    intro b
    by_cases hb : b = 0 ∨ blockBitmapBlocks 256 < b
    · rw [hother b hb]
      exact LooksAlike.refl _
    · have hbitmap := L₀.bitmap b (by omega) (by
        have hlt : blockBitmapBlocks 256 < inodeTableStart 256 := by decide
        show b < inodeTableStart 256
        omega)
      exact LooksAlike.of_type hbitmap (by rw [htype, hbitmap]) (by decide) (by decide)
  have hnode : inodeAt ⟨256, by decide⟩ m 0 = inodeAt ⟨256, by decide⟩ m₀ 0 := by
    rw [inodeAt, hother _ (Or.inr (by decide)), ← inodeAt]
  have hroot : blockType (m₀ (dataStart 256)) = BlockType.btreeNode.code := T.root_type
  have hpath : LeadsTo ⟨256, by decide⟩ m [slash] ⟨0, UInt64.ofNat (dataStart 256)⟩ :=
    ⟨(blind_itemSearch _ _).run_eq (fun b _ => hlike b) (within_all (fun _ => trivial) _) hlead.1,
      hlead.2⟩
  have S : Sound ⟨256, by decide⟩ m := ⟨L, fun b hb => hbits b (hb.trans_le L.le_total), by decide⟩
  have E' : EntryBlocks ⟨256, by decide⟩ m 0 [] := {
    sound := S
    capacity := E.capacity
    own := (congrArg Inode.inodeNumber hnode).trans E.own
    le := E.le
    direct := fun i hi => by
      show (inodeAt ⟨256, by decide⟩ m 0).directBlocks[i] = _
      rw [hnode]
      exact E.direct i hi
    indirect := (congrArg Inode.indirectBlock hnode).trans E.indirect
    pos := E.pos
    nodup := E.nodup
    lt := E.lt
    behind := E.behind
    taken := fun b hb => absurd hb List.not_mem_nil
    type := fun b hb => absurd hb List.not_mem_nil }
  have hinode : ∀ n < 4092, inodeBit ⟨256, by decide⟩ m n = decide (n = 0) := by
    intro n hn
    rw [← hinodes n hn]
    refine areaBit_congr (hother _ (Or.inr ?_))
    have hlt : blockBitmapBlocks 256 < inodeBitmapStart 256 := by decide
    show blockBitmapBlocks 256 < inodeBitmapStart 256 + n / 4092
    omega
  refine ⟨m, mknodVolume_256 E' hpath ((htype _).trans hroot) (fun b hb => ?_) hinode, hpath, E', hbits,
    hinode⟩
  rw [htype, hzero b hb]
  decide

theorem bitOf_ones (t : BlockType) (i : ℕ) : bitOf (setBlockType t fun _ => 255) i = true := by
  have hword : load64 (setBlockType t fun _ => 255) (4 + 8 * (i / 64)) = load64 (fun _ => 255) 0 := by
    refine load64_congr fun o _ => ?_
    rw [setBlockType_apply (by omega)]
  have hones : (load64 (fun _ => 255) 0).toNat = 2 ^ 64 - 1 := by decide
  rw [bitOf, hword, hones, Nat.testBit_two_pow_sub_one]
  exact decide_eq_true (Nat.mod_lt _ (by decide))

/-- On such a volume with every inode bit set the call fails at once. -/
theorem exists_noInode_256 : ∃ m, MknodVolume ⟨256, by decide⟩ m [slash, 97] ∧
    (∀ n < 4092, inodeBit ⟨256, by decide⟩ m n = true) ∧
    run (DiskInterface.mapping ⟨256, by decide⟩) (nbtrfsMknod ⟨256, by decide⟩ ⟨0, 0, 0, fun _ => 0⟩
      [slash, 97] 0o100644) m = some (-1, m) := by
  obtain ⟨m₀, V₀, -⟩ := exists_noPage_256
  obtain ⟨m, hm⟩ : ∃ m, m = Function.update m₀ (inodeBitmapStart 256)
    (setBlockType BlockType.bitmap fun _ => 255) := ⟨_, rfl⟩
  have hself : m (inodeBitmapStart 256) = setBlockType BlockType.bitmap fun _ => 255 := by
    rw [hm, Function.update_self]
  have hne : ∀ b, b ≠ inodeBitmapStart 256 → m b = m₀ b := fun b hb => by
    rw [hm, Function.update_of_ne hb]
  have hlo : inodeBitmapStart 256 < inodeTableStart 256 := by decide
  have hhi : inodeTableStart 256 ≤ dataStart 256 := by decide
  have h : OnlyInodes ⟨256, by decide⟩ m₀ m := {
    other := fun b hb => hne b (by
      have hb : b < inodeBitmapStart 256 ∨ dataStart 256 ≤ b := hb
      omega)
    type := fun b => by
      by_cases hb : b = inodeBitmapStart 256
      · rw [hb, hself, blockType_setBlockType]
        exact (V₀.sound.layout.bitmap _ (by decide) hlo).symm
      · rw [hne b hb] }
  have hbits : ∀ n < 4092, inodeBit ⟨256, by decide⟩ m n = true := fun n hn => by
    have hpage : inodeBitmapStart 256 + n / 4092 = inodeBitmapStart 256 := by omega
    show bitOf (m (inodeBitmapStart 256 + n / 4092)) (n % 4092) = true
    rw [hpage, hself]
    exact bitOf_ones _ _
  have V := h.mknodVolume V₀ (fun n hset => by
    by_cases hn : n < 4092
    · exact hbits n hn
    · refine (areaBit_congr (hne _ ?_)).trans hset
      show inodeBitmapStart 256 + n / 4092 ≠ inodeBitmapStart 256
      omega) fun n hn => by
    have hslot : inodeTableStart 256 ≤ slotBlock ⟨256, by decide⟩ n := Nat.le_add_right _ _
    rw [inodeAt, hne _ (by omega), ← inodeAt]
  have hrun : run (DiskInterface.mapping ⟨256, by decide⟩) (nbtrfsMknod ⟨256, by decide⟩
      ⟨0, 0, 0, fun _ => 0⟩ [slash, 97] 0o100644) m = some (-1, m) := by
    rw [nbtrfsMknod, run_bind_of_eq (V.formatted.run_alloc_full _ _ _ hbits)]
    rfl
  exact ⟨m, V, hbits, hrun⟩

/-- A volume of 256 blocks with free pages and a free slot in the inode table: the file is created, with
its entry in a new block. -/
theorem exists_mknod_256 : ∃ m m', MknodVolume ⟨256, by decide⟩ m [slash, 97] ∧
    (inodeBit ⟨256, by decide⟩ m 1 = false) ∧
    (∃ pair blocks, LeadsTo ⟨256, by decide⟩ m (parentOf [slash, 97]) pair ∧
      EntryBlocks ⟨256, by decide⟩ m pair.inodeNumber blocks ∧ HasPlace ⟨256, by decide⟩ m blocks) ∧
    run (DiskInterface.mapping ⟨256, by decide⟩) (nbtrfsMknod ⟨256, by decide⟩ ⟨0, 0, 0, fun _ => 0⟩
      [slash, 97] 0o100644) m = some (0, m') := by
  obtain ⟨m, E, hlead, -, T, H, hcount, hinode, hzero⟩ := exists_entryBlocks_256 [] (by decide)
  have hpage : m (dataStart 256 + 1) = fun _ => 0 := hzero _ le_rfl
  have V : MknodVolume ⟨256, by decide⟩ m [slash, 97] :=
    mknodVolume_256 E hlead T.root_type (fun b hb => by
      rw [hzero b hb]
      decide) hinode
  have hcapacity : 1 < inodeCapacity 256 := by decide
  have hbelow : ∀ i < 1, inodeBit ⟨256, by decide⟩ m i = true := fun i hi => by
    obtain rfl : i = 0 := by omega
    exact hinode 0 (by decide)
  obtain ⟨m₁, hm₁⟩ : ∃ m₁, m₁ = mknodImage ⟨256, by decide⟩ ⟨0, 0, 0, fun _ => 0⟩ 0o100644 m 1 :=
    ⟨_, rfl⟩
  have h : OnlyInodes ⟨256, by decide⟩ m m₁ := by
    rw [hm₁]
    exact onlyInodes_mknodImage hcapacity
  have E₁ : EntryBlocks ⟨256, by decide⟩ m₁ 0 [] := h.entryBlocks E (by
    rw [hm₁]
    exact inodeAt_mknodImage hcapacity (by decide))
  have hparent : parentOf [slash, 97] = [slash] := by decide
  have hname : getName [slash, 97] = [97] := by decide
  have hlead₁ := (h.leadsTo_iff V.sound.layout).mpr hlead
  -- the parent takes the entry
  have hclean : CleanPage (m₁ (dataStart 256 + 1)) [] := by
    have hsame : m₁ (dataStart 256 + 1) = m (dataStart 256 + 1) := h.other _ (Or.inr (Nat.le_succ _))
    rw [hsame, hpage]
    exact ⟨fun _ => by decide, Or.inl (by decide), by decide⟩
  have hfree : 2 ≤ nearFree ⟨256, by decide⟩ m₁ := by
    rw [h.nearFree_eq, hcount]
    decide
  obtain ⟨m', hadd⟩ : ∃ m', run (DiskInterface.mapping ⟨256, by decide⟩) (directoryAddEntry
      ⟨256, by decide⟩ ⟨0, 0, 0, fun _ => 0⟩ [slash] [97] 1 (0o100644 &&& fileTypeMask)) m₁ =
        some (0, m') :=
    E₁.exists_add_first hlead₁ (h.firstFree H) hclean (h.holdsTree E.sound T.holdsTree) rfl (by decide)
      hfree
  have hplace : HasPlace ⟨256, by decide⟩ m [] := by
    rcases E₁.directoryAddEntry_cases hlead₁ hadd with ⟨-, hplace⟩ | ⟨hfail, -⟩
    · exact (h.hasPlace_iff E).mp hplace
    · exact absurd hfail (by decide)
  refine ⟨m, m', V, hinode 1 (by decide), ⟨_, [], hlead, E, hplace⟩, ?_⟩
  rw [V.formatted.run_mknod hcapacity (hinode 1 (by decide)) hbelow, hparent, hname, ← hm₁]
  exact hadd

/-- A call that fails without an inode, and one that succeeds. -/
theorem mknod_atomic_iff_256 :
    (∃ m, run (DiskInterface.mapping ⟨256, by decide⟩) (nbtrfsMknod ⟨256, by decide⟩
      ⟨0, 0, 0, fun _ => 0⟩ [slash, 97] 0o100644) m = some (-1, m) ∧
        Atomic ⟨256, by decide⟩ m m (-1)) ∧
      ∃ m m', run (DiskInterface.mapping ⟨256, by decide⟩) (nbtrfsMknod ⟨256, by decide⟩
        ⟨0, 0, 0, fun _ => 0⟩ [slash, 97] 0o100644) m = some (0, m') ∧
          Atomic ⟨256, by decide⟩ m m' 0 := by
  obtain ⟨m, V, hbits, hrun⟩ := exists_noInode_256
  obtain ⟨m₁, m', V₁, hclear, hplace, hrun₁⟩ := exists_mknod_256
  exact ⟨⟨m, hrun, (mknod_atomic_iff V hrun).mpr (Or.inl hbits)⟩,
    m₁, m', hrun₁, (mknod_atomic_iff V₁ hrun₁).mpr (Or.inr ⟨⟨1, by decide, hclear⟩, hplace⟩)⟩

/-- With a free slot in the inode table and no page the call fails and keeps the inode. -/
theorem not_atomic_256 : ∃ m m', MknodVolume ⟨256, by decide⟩ m [slash, 97] ∧
    (∀ b < 256, blockBit m b = true) ∧
    run (DiskInterface.mapping ⟨256, by decide⟩) (nbtrfsMknod ⟨256, by decide⟩ ⟨0, 0, 0, fun _ => 0⟩
      [slash, 97] 0o100644) m = some (-1, m') ∧
    inodeBit ⟨256, by decide⟩ m 1 = false ∧ inodeBit ⟨256, by decide⟩ m' 1 = true ∧
    ¬Atomic ⟨256, by decide⟩ m m' (-1) := by
  obtain ⟨m, V, hlead, E, hfull, hinode⟩ := exists_noPage_256
  have hclear : inodeBit ⟨256, by decide⟩ m 1 = false := hinode 1 (by decide)
  have hcapacity : 1 < inodeCapacity 256 := by decide
  obtain ⟨m₁, hm₁⟩ : ∃ m₁, m₁ = mknodImage ⟨256, by decide⟩ ⟨0, 0, 0, fun _ => 0⟩ 0o100644 m 1 :=
    ⟨_, rfl⟩
  have h : OnlyInodes ⟨256, by decide⟩ m m₁ := by
    rw [hm₁]
    exact onlyInodes_mknodImage hcapacity
  have E₁ : EntryBlocks ⟨256, by decide⟩ m₁ 0 [] := h.entryBlocks E (by
    rw [hm₁]
    exact inodeAt_mknodImage hcapacity (by decide))
  have hlead₁ := (h.leadsTo_iff V.sound.layout).mpr hlead
  have hparent : parentOf [slash, 97] = [slash] := by decide
  have hset : inodeBit ⟨256, by decide⟩ m₁ 1 = true := by
    rw [hm₁]
    exact (inodeBit_mknodImage (by decide)).trans (if_pos rfl)
  have hbelow : ∀ i < 1, inodeBit ⟨256, by decide⟩ m i = true := fun i hi => by
    obtain rfl : i = 0 := by omega
    exact hinode 0 (by decide)
  have hrun : run (DiskInterface.mapping ⟨256, by decide⟩) (nbtrfsMknod ⟨256, by decide⟩
      ⟨0, 0, 0, fun _ => 0⟩ [slash, 97] 0o100644) m = some (-1, m₁) := by
    rw [V.formatted.run_mknod hcapacity hclear hbelow, hparent, ← hm₁]
    exact E₁.run_directoryAddEntry_noPage hlead₁ fun b hb => (h.blockBit hb).trans (hfull b hb)
  exact ⟨m, m₁, V, hfull, hrun, hclear, hset, not_atomic (by decide) hclear hset⟩

end Nbtrfs
