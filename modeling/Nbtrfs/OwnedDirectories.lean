import Nbtrfs.OwnedFiles

/-!
# Inodes and directory entries on a consistent volume

Reference: `inode.c::inode_allocate`, `directory.c::directory_add_entry`, `fuse.c`.

Claiming an inode, and entering an object in a directory with its block map, its entry pages and its
B-tree, keep to the protocol of `Ownership`. Once `inode_allocate` marked an inode that has no slot, it
returns without announcing the block of the inode bitmap: these blocks may stay owed.
-/

namespace Nbtrfs

open BlockProg Bytes

variable {disk : DiskInterface} {T : Scope} {D : Allowance} {E : Set UInt64} {own : Owners}
  {m m' : Image} {g : PageLedger} {node : Inode} {block db p : UInt64} {n i b f : ℕ} {α β : Type}
  {uid gid mode : UInt32}

/-! ## Claiming an inode -/

/-- The numbers of the blocks of the inode bitmap. -/
def inodeBitmapNumbers (disk : DiskInterface) : Set UInt64 :=
  {q | inodeBitmapStart disk.totalBlocks.toNat ≤ q.toNat ∧
    q.toNat < inodeTableStart disk.totalBlocks.toNat}

/-- A bit is stored in the page at hand, which may be owed. -/
theorem tidy_bitmapPut {bm : UInt64} {ii vv : ℤ} (hb : bm ∈ g.held) (h0 : 0 ≤ ii)
    (hlt : ii < usableBlockSize) (hD : bm ∈ D.owed) :
    Tidy disk.mapping D (bitmapPut bm ii vv) m g fun _ _ g' => bm ∈ g'.held := by
  obtain ⟨hlo, hhi⟩ := wordOffset_bounds disk h0 hlt
  refine (Tidy.page hb).bind fun pg m₁ g₁ _ ⟨hm, hg⟩ => ?_
  subst hm hg
  refine Tidy.ite (fun _ => Tidy.pure hb) fun _ => ?_
  refine (Tidy.peek hb hlo hhi).bind fun word m₂ g₂ _ ⟨hm, hg⟩ => ?_
  subst hm hg
  exact (Tidy.poke hb hlo hhi (Or.inl hD)).bind fun _ _ _ _ hb => Tidy.pure hb

/-- A bit that reads as clear is one of a bitmap page. -/
theorem ensures_bitmapGet_zero {M : Mapping} {bm : UInt64} {ii : ℤ} :
    Ensures M (bitmapGet bm ii) m fun bit _ => bit = 0 → ∀ b, M.addr bm = some b →
      blockType (m b) = BlockType.bitmap.code := by
  refine ensures_page_bind fun c hc => ?_
  split
  next => exact ensures_pure fun h => absurd h (by decide)
  next htype =>
    refine ensures_peek_bind fun a _ => ensures_pure fun _ b hb => ?_
    rw [hc] at hb
    rw [← Option.some.inj hb]
    exact not_not.mp htype

/-- At the first bit of a page of the inode bitmap this page is obtained; before, the page at hand
is the right one. -/
private theorem tidy_nextInodeBitmap {start ii : ℕ} (hii : ii < 18446744073709551616)
    (hb : UInt64.ofNat (start + (ii - 1) / 4092) ∈ g.held) :
    Tidy disk.mapping D (nextInodeBitmap (UInt64.ofNat ii) ((start + (ii - 1) / 4092 : ℕ) : ℤ)) m g
      fun ibmn m' g' => ibmn = ((start + ii / 4092 : ℕ) : ℤ) ∧ m' = m ∧
        UInt64.ofNat (start + ii / 4092) ∈ g'.held := by
  have hnat : (UInt64.ofNat ii).toNat = ii := UInt64.toNat_ofNat_of_lt' hii
  have hresult : Ensures disk.mapping
      (nextInodeBitmap (UInt64.ofNat ii) ((start + (ii - 1) / 4092 : ℕ) : ℤ)) m
      fun ibmn m' => ibmn = ((start + ii / 4092 : ℕ) : ℤ) ∧ m' = m :=
    ensures_of_run (run_nextInodeBitmap hii) ⟨rfl, rfl⟩
  have hheld : Tidy disk.mapping D
      (nextInodeBitmap (UInt64.ofNat ii) ((start + (ii - 1) / 4092 : ℕ) : ℤ)) m g
      fun _ _ g' => UInt64.ofNat (start + ii / 4092) ∈ g'.held := by
    rw [nextInodeBitmap, hnat]
    refine Tidy.ite (fun hstep => ?_) fun hstep => Tidy.pure ?_
    · have hnext : (((start + (ii - 1) / 4092 : ℕ) : ℤ) + 1) = ((start + ii / 4092 : ℕ) : ℤ) := by
        have hne : ii ≠ 0 := fun h => hstep.2 (by rw [h]; rfl)
        have hmod := hstep.1
        simp only [usableBlockSize] at hmod
        omega
      rw [hnext, ofInt_natCast]
      exact Tidy.fetch.bind fun _ _ _ _ hb => Tidy.pure hb.2
    · have hsame : start + (ii - 1) / 4092 = start + ii / 4092 := by
        by_cases hzero : ii = 0
        · rw [hzero]
        · have hmod : ¬ii % 4092 = 0 := fun h => hstep ⟨h, fun h0 => hzero (by
            rw [← hnat, h0]
            rfl)⟩
          omega
      rwa [← hsame]
  exact (hheld.ensures hresult).mono fun _ _ _ _ h => ⟨h.1.1, h.1.2, h.2⟩

/-- What `inode_read` finds under a number with a bit in the inode bitmap is an inode with a slot. -/
theorem ensures_inodeRead_lt (C : Consistent disk own m)
    (hn : n < 4092 * inodeBitmapBlocks disk.totalBlocks.toNat) :
    Ensures disk.mapping (inodeRead (UInt64.ofNat n)) m fun read m' => m' = m ∧
      ∀ node, read = some node → n < inodeCapacity disk.totalBlocks.toNat ∧ node = inodeAt disk m n := by
  have D := C.sound.layout.toDescribed
  have hnear := C.sound.near
  have hle := C.sound.layout.le_total
  have hinodes := inodeBitmapBlocks_le disk.totalBlocks.toNat
  have hnat : (UInt64.ofNat n).toNat = n := toNat_ofNat_block (by omega)
  have hslot : slotBlock disk n < 1048576 := by
    have hblocks := blockBitmapBlocks_le disk.totalBlocks.toNat
    simp only [slotBlock, inodeTableStart, inodeBitmapStart, inodesPerPage, usableBlockSize,
      sizeofInode]
    omega
  have hslotNat : (UInt64.ofNat (slotBlock disk n)).toNat = slotBlock disk n :=
    toNat_ofNat_block (by omega)
  cases haddr : disk.mapping.addr (UInt64.ofNat (slotBlock disk (UInt64.ofNat n).toNat)) with
  | none => exact ensures_of_none (D.run_inodeRead_unreachable haddr)
  | some b =>
      refine ensures_of_run (D.run_inodeRead haddr) ⟨rfl, fun node hread => ?_⟩
      rw [hnat] at haddr hread
      have hb : b = slotBlock disk n := by
        have h := DiskInterface.eq_of_diskGetBlock haddr (by omega)
        rwa [hslotNat] at h
      subst hb
      split at hread
      next htype =>
        obtain ⟨-, hhi⟩ := C.table_of_type (DiskInterface.lt_of_mapping_addr haddr) htype
        refine ⟨?_, by rw [inodeAt]; exact (Option.some.inj hread).symm⟩
        rw [slotBlock, dataStart] at hhi
        rw [inodeCapacity]
        simp only [inodesPerPage, usableBlockSize, sizeofInode] at hhi ⊢
        omega
      next => cases hread

/-- The page of a bit of the inode bitmap. -/
theorem Consistent.inodeBitmapPage (C : Consistent disk own m)
    (hn : inodeBitmapStart disk.totalBlocks.toNat + n / 4092 ≤ inodeTableStart disk.totalBlocks.toNat)
    (haddr : disk.mapping.addr
      (UInt64.ofNat (inodeBitmapStart disk.totalBlocks.toNat + n / 4092)) = some b) :
    b = inodeBitmapStart disk.totalBlocks.toNat + n / 4092 ∧
      (blockType (m b) = BlockType.bitmap.code → n < 4092 * inodeBitmapBlocks disk.totalBlocks.toNat) := by
  have hslots := C.slots
  have htotal := C.sound.layout.le_total
  have hdata : dataStart disk.totalBlocks.toNat = inodeTableStart disk.totalBlocks.toNat +
    inodeTableBlocks disk.totalBlocks.toNat := rfl
  have htable : inodeTableStart disk.totalBlocks.toNat = inodeBitmapStart disk.totalBlocks.toNat +
    inodeBitmapBlocks disk.totalBlocks.toNat := rfl
  obtain rfl := C.sound.addr_eq (by omega) haddr
  refine ⟨rfl, fun htype => ?_⟩
  have := C.lt_of_type (by omega) htype
  omega

/-- Claiming the slot of an inode. -/
theorem Consistent.claimInode (C : Consistent disk own m) (uid gid mode : UInt32)
    (hn : n < inodeCapacity disk.totalBlocks.toNat) (hT : n ∈ T.inodes) :
    Consistent disk own (claimInode disk m uid gid mode n) ∧
      Keeps disk T own m own (Nbtrfs.claimInode disk m uid gid mode n) := by
  have hbits := hn.trans_le (capacity_le disk.totalBlocks.toNat)
  have hnat : (UInt64.ofNat n).toNat = n := toNat_ofNat_block (hn.trans (capacity_lt disk))
  obtain ⟨C₁, hkeeps₁⟩ := C.putInodeBit (T := T) hbits true
  have hslot : inodeAt disk (putAreaBit m (inodeBitmapStart disk.totalBlocks.toNat) n true) n =
      inodeAt disk m n := by
    rw [inodeAt, putInodeBit_slotBlock n n true hbits, ← inodeAt]
  have howns := (C₁.inodes n hn).2
  rw [hslot] at howns
  have hnumber : (claimedInode uid gid mode n (inodeAt disk m n)).inodeNumber.toNat = n := hnat
  have hcarries : Carries disk own (putAreaBit m (inodeBitmapStart disk.totalBlocks.toNat) n true)
      (claimedInode uid gid mode n (inodeAt disk m n)) :=
    ⟨by rwa [hnumber], by rw [hnumber]; exact howns.congr_node rfl rfl⟩
  have hput := C₁.putInode (T := T) hcarries (by rwa [hnumber])
  rw [hnumber] at hput
  exact ⟨hput.1, hkeeps₁.trans hput.2⟩

/-- Every outcome of `inode_allocate`. -/
theorem ensures_inodeAllocate (C : Consistent disk own m) (hT : ∀ n, n ∈ T.inodes) :
    Ensures disk.mapping (inodeAllocate disk uid gid mode) m fun _ m' =>
      Consistent disk own m' ∧ Keeps disk T own m own m' := by
  have L := C.sound.layout
  have hstart := inodeBitmapStart_lt disk
  have hdata : dataStart disk.totalBlocks.toNat = inodeTableStart disk.totalBlocks.toNat +
    inodeTableBlocks disk.totalBlocks.toNat := rfl
  have hslots := C.slots
  by_cases hfull : ∀ i < 4092 * inodeBitmapBlocks disk.totalBlocks.toNat, inodeBit disk m i = true
  · have htype := L.table _ le_rfl (show _ < dataStart disk.totalBlocks.toNat by omega)
    refine ensures_of_run (L.run_inodeAllocate_full uid gid mode hstart (L.addr (by omega)) ?_ hfull)
      ⟨C, Keeps.refl own m⟩
    rw [htype]
    decide
  · obtain ⟨f, hf, hclear, hset⟩ := exists_first_of_not hfull
    have hclear : inodeBit disk m f = false := by simpa using hclear
    by_cases hcap : f < inodeCapacity disk.totalBlocks.toNat
    · exact ensures_of_run (L.run_inodeAllocate uid gid mode hstart hcap hclear hset)
        (C.claimInode uid gid mode hcap (hT f))
    · -- the bit is set, but no inode is found under the number
      obtain ⟨C', hkeeps⟩ := C.putInodeBit (T := T) hf true
      intro rv m' hrun
      rw [L.run_inodeAllocate_scan uid gid mode hstart hf hclear hset] at hrun
      have hclaim : Ensures disk.mapping (inodeClaim uid gid mode (UInt64.ofNat f)
          ((inodeBitmapStart disk.totalBlocks.toNat + f / 4092 : ℕ) : ℤ))
          (putAreaBit m (inodeBitmapStart disk.totalBlocks.toNat) f true) fun _ m' =>
            Consistent disk own m' ∧ Keeps disk T own m own m' := by
        refine ensures_bind ((ensures_inodeRead_lt C' hf).mono fun read m₁ ⟨hm, hread⟩ => ?_)
        subst hm
        cases read with
        | none => exact ensures_pure ⟨C', hkeeps⟩
        | some node => exact absurd (hread node rfl).1 hcap
      exact hclaim rv m' hrun

/-- Numbers of metadata blocks. -/
def metadataNumbers (disk : DiskInterface) : Set UInt64 :=
  {q | q.toNat < dataStart disk.totalBlocks.toNat}

/-- Claiming the inode `n` holds what it touches: the page of the bitmap is at hand, and the page of
the table is obtained and announced. -/
private theorem tidy_inodeClaim (C : Consistent disk own m)
    (hn : n < 4092 * inodeBitmapBlocks disk.totalBlocks.toNat)
    (hheld : UInt64.ofNat (inodeBitmapStart disk.totalBlocks.toNat + n / 4092) ∈ g.held)
    (hD : metadataNumbers disk ⊆ D.announced) :
    Tidy disk.mapping D (inodeClaim uid gid mode (UInt64.ofNat n)
      ((inodeBitmapStart disk.totalBlocks.toNat + n / 4092 : ℕ) : ℤ)) m g fun _ _ _ => True := by
  have hstart := inodeBitmapStart_lt disk
  have hle := C.sound.layout.le_total
  have htotal := total_lt disk
  have htable : inodeTableStart disk.totalBlocks.toNat = inodeBitmapStart disk.totalBlocks.toNat +
    inodeBitmapBlocks disk.totalBlocks.toNat := rfl
  have hdata := inodeTableStart_le disk.totalBlocks.toNat
  refine ((reads_inodeRead _).tidy.ensures (ensures_inodeRead_lt C hn)).bind ?_
  intro read m₁ g₁ hgrow ⟨⟨_, hread⟩, hm⟩
  subst hm
  cases read with
  | none => exact Tidy.pure trivial
  | some node =>
      obtain ⟨hcap, -⟩ := hread node rfl
      have hnat : (UInt64.ofNat n).toNat = n := toNat_ofNat_block (hcap.trans (capacity_lt disk))
      refine (tidy_inodeWrite C.sound.layout { node with
        inodeNumber := UInt64.ofNat n
        mode := mode
        ownerId := uid
        groupId := gid
        referenceCount := 1 } (by rwa [hnat]) fun q hq => hD hq.1).bind ?_
      intro rv m₂ g₂ hgrow' _
      refine Tidy.ite (fun _ => Tidy.pure trivial) fun _ => ?_
      rw [ofInt_natCast]
      refine (Tidy.writeBack (D := D) (hgrow'.held (hgrow.held hheld)) (hD ?_)).bind
        fun _ _ _ _ _ => Tidy.pure trivial
      show (UInt64.ofNat _).toNat < _
      rw [toNat_ofNat_block (by omega)]
      omega

/-- The search for a free inode, from the bit `ii` on. It is by induction on the number of bits that
are left; the page of the bit before is at hand, and the bitmap is never announced, so its pages are
owed. -/
private theorem tidy_inodeScan (C : Consistent disk own m) (k ii : ℕ) (hii : ii + k < 1099511627776)
    (hprev : inodeBitmapStart disk.totalBlocks.toNat + (ii - 1) / 4092 ≤
      inodeTableStart disk.totalBlocks.toNat)
    (hheld : UInt64.ofNat (inodeBitmapStart disk.totalBlocks.toNat + (ii - 1) / 4092) ∈ g.held)
    (howed : inodeBitmapNumbers disk ⊆ D.owed) (hD : metadataNumbers disk ⊆ D.announced) :
    Tidy disk.mapping D (inodeScan (Superblock.ofPage (m 0)) uid gid mode k (UInt64.ofNat ii)
      ((inodeBitmapStart disk.totalBlocks.toNat + (ii - 1) / 4092 : ℕ) : ℤ)) m g
      fun _ _ _ => True := by
  have htotal := total_lt disk
  have hstart := inodeBitmapStart_lt disk
  have htable : inodeTableStart disk.totalBlocks.toNat = inodeBitmapStart disk.totalBlocks.toNat +
    inodeBitmapBlocks disk.totalBlocks.toNat := rfl
  have hinodes := inodeBitmapBlocks_le disk.totalBlocks.toNat
  induction k generalizing g ii with
  | zero => exact Tidy.crash
  | succ k ih =>
      rw [inodeScan, ofInt_natCast]
      refine Disciplined.bind_iff.mpr ⟨hheld, fun c hc => ?_⟩
      -- past its last page the bitmap meets the inode table, where the scan stops
      obtain ⟨-, hbound⟩ := C.inodeBitmapPage hprev hc
      show Tidy disk.mapping D (if _ then _ else _) m g _
      refine Tidy.ite (fun _ => Tidy.pure trivial) fun htype => ?_
      have hprevBit := hbound (not_not.mp htype)
      have hnext : inodeBitmapStart disk.totalBlocks.toNat + ii / 4092 ≤
          inodeTableStart disk.totalBlocks.toNat := by omega
      refine (tidy_nextInodeBitmap (by omega) hheld).bind ?_
      rintro ibmn m₁ g₁ _ ⟨rfl, rfl, hheld₁⟩
      have hindex := inodeBitIndex_eq C.sound.layout.inodeBitmap ii (by omega)
      rw [hindex, ofInt_natCast]
      have h0 : (0 : ℤ) ≤ (ii % 4092 : ℕ) := Int.natCast_nonneg _
      have hlt : ((ii % 4092 : ℕ) : ℤ) < (usableBlockSize : ℕ) := by
        simp only [usableBlockSize]
        omega
      refine ((tidy_bitmapGet hheld₁ h0 hlt).ensures ensures_bitmapGet_zero).bind ?_
      rintro bit m₂ g₂ _ ⟨hbit, rfl, rfl⟩
      refine Tidy.ite (fun hzero => ?_) fun _ => ?_
      · -- a clear bit: it is set without an announcement, and the slot is claimed
        cases haddr : disk.mapping.addr
            (UInt64.ofNat (inodeBitmapStart disk.totalBlocks.toNat + ii / 4092)) with
        | none =>
            refine Disciplined.bind_iff.mpr (Disciplined.bind_iff.mpr ⟨hheld₁, fun c hc => ?_⟩)
            rw [haddr] at hc
            cases hc
        | some c =>
            have hpage := hbit hzero c haddr
            obtain ⟨rfl, hbits⟩ := C.inodeBitmapPage hnext haddr
            have hbits := hbits hpage
            have hin : UInt64.ofNat (inodeBitmapStart disk.totalBlocks.toNat + ii / 4092) ∈
                D.owed := howed (by
              show _ ≤ (UInt64.ofNat _).toNat ∧ (UInt64.ofNat _).toNat < _
              rw [toNat_ofNat_block (by omega)]
              omega)
            have hrun := run_bitmapPut (m := m₂) disk.volume_mapping haddr
              (DiskInterface.lt_of_mapping_addr haddr) hpage (i := ii % 4092) (by omega) 1
            refine ((tidy_bitmapPut hheld₁ h0 hlt hin).ensures (ensures_of_run hrun
              (Q := fun rv m' => m' = putAreaBit m₂ (inodeBitmapStart disk.totalBlocks.toNat) ii true)
              rfl)).bind ?_
            rintro rv m₃ g₃ _ ⟨rfl, hheld₃⟩
            refine Tidy.ite (fun _ => Tidy.pure trivial) fun _ => ?_
            exact tidy_inodeClaim (C.putInodeBit (T := ⟨Set.univ, True⟩) hbits true).1 hbits hheld₃ hD
      · -- a set bit: on to the next, with the page of this one at hand
        rw [← UInt64.ofNat_one, ← UInt64.ofNat_add]
        have hrec := ih (g := g₂) (ii + 1) (by omega) (by rwa [Nat.add_sub_cancel])
          (by rwa [Nat.add_sub_cancel])
        rwa [Nat.add_sub_cancel] at hrec

/-- `inode_allocate` holds what it touches and owes pages of the inode bitmap only. -/
theorem tidy_inodeAllocate (C : Consistent disk own m) (howed : inodeBitmapNumbers disk ⊆ D.owed)
    (hD : metadataNumbers disk ⊆ D.announced) :
    Tidy disk.mapping D (inodeAllocate disk uid gid mode) m g fun _ _ _ => True := by
  have L := C.sound.layout
  have hstart := inodeBitmapStart_lt disk
  have hnear := C.sound.near
  refine reads_superblockCopy.tidy_bind_of_run L.run_superblockCopy fun _ _ => ?_
  dsimp only
  rw [L.inodeBitmap, toNat_ofNat_block (by omega), int32_of_lt hstart]
  refine Tidy.fetch.bind ?_
  rintro _ m₁ _ _ ⟨rfl, hb⟩
  rw [ofInt_natCast] at hb
  exact tidy_inodeScan C
    (usableBlockSize * (disk.totalBlocks.toNat + 1)) 0 (by
      simp only [usableBlockSize]
      omega) (by
      have := inodeBitmapStart_le disk.totalBlocks.toNat
      omega) hb howed hD

theorem upholds_inodeAllocate (hT : ∀ n, n ∈ T.inodes) (hE : inodeBitmapNumbers disk ⊆ E) :
    Abides disk (ownership disk T E) (inodeAllocate disk uid gid mode) own m g := by
  refine Upholds.of_tidy (D := ⟨E, metadataNumbers disk⟩) fun C => ?_
  refine ((tidy_inodeAllocate C hE subset_rfl).ensures (ensures_inodeAllocate C hT)).mono ?_
  rintro rv m' g' _ ⟨⟨C', hkeeps⟩, -⟩
  exact ⟨own, C', hkeeps, ⟨Set.subset_union_right, fun q hq => Or.inl hq⟩, trivial⟩

/-! ## Entering an object -/

/-- The root node of a new directory is one more node. -/
theorem NodeClosed.newDirectoryRoot {γ : Type} {R : Protocol γ} {x : γ} (hR : NodeClosed disk R)
    (targetInode : UInt64) : Abides disk R (newDirectoryRoot disk targetInode) x m g := by
  refine (hR.btreeNodeCreate false).bind fun p _ _ _ _ _ hp => ?_
  refine Upholds.ite (fun _ => Upholds.crash) fun hne => ?_
  have hp := hp hne
  refine hR.bind (hR.editNode _ hp) hp hp fun _ _ _ _ hp _ => ?_
  refine nodeAt_bind hp.held fun _ => ?_
  exact (hR.btreeNodeWrite _).bind fun _ _ _ _ _ _ _ => Upholds.pure trivial

theorem NodeClosed.enterTree {γ : Type} {R : Protocol γ} {x : γ} (hR : NodeClosed disk R)
    (pair : InodeBtreePair) (name : CString) (targetInode : UInt64) (type : UInt32) (new : Bytes) :
    Abides disk R (enterTree disk pair name targetInode type new) x m g := by
  refine Upholds.ite (fun _ => ?_) fun _ => ?_
  · refine (hR.newDirectoryRoot targetInode).bind fun _ _ _ _ _ _ _ => ?_
    exact (hR.btreeInsert _ _ _ _).bind fun _ _ _ _ _ _ _ => Upholds.pure trivial
  · exact (hR.btreeInsert _ _ _ _).bind fun _ _ _ _ _ _ _ => Upholds.pure trivial

/-- The entry count is stored in the first block of the directory. -/
theorem upholds_writeEntryCount (pair : InodeBtreePair) (hnode : Carries disk own m node)
    (hT : node.inodeNumber.toNat ∈ T.inodes) (hfirst : node.firstBlock ≠ 0) (block : UInt64)
    (numberOfEntries : UInt16) : Abides disk (ownership disk T E)
      (writeEntryCount pair node block numberOfEntries) own m g := by
  have hown := hnode.owns.entry 0 (Nat.zero_le _)
  rw [blockAt_of_lt (by decide)] at hown
  rw [writeEntryCount, inodeGetBlock_zero]
  refine Upholds.fetch_bind fun _ _ hheld => ?_
  refine upholds_modify_writeBack (hown hfirst) hT (fun pg hpg => ?_) hheld fun _ _ _ _ _ =>
    Upholds.pure trivial
  rw [blockType_congr fun o ho => setEntryCount_apply (by omega), hpg]

/-- Once there is room for the entry its block is announced. -/
theorem upholds_storeEntry (host : Host) (pair : InodeBtreePair) (name : CString) (targetInode : UInt64)
    (type : UInt32) (hC : T.tree) (hnode : Carries disk own m node)
    (hT : node.inodeNumber.toNat ∈ T.inodes) (hfirst : node.firstBlock ≠ 0)
    (hn : n ∈ T.inodes) (hblock : own block.toNat = some (n, .entry i)) (hheld : block ∈ g.held)
    (header : Bool) (j : ℕ) (count : UInt16) :
    Upholds disk.mapping (ownership disk T E) (do
      let new ← enterTree disk pair name targetInode type (newFile host name targetInode)
      modify block fun pg => copyIn pg (entryAt header j) sizeofDirEntry new
      writeBack 0 block
      let _ ← writeEntryCount pair node block count
      pure (0 : ℤ)) own m g fun _ _ _ g' => block ∈ g'.announced := by
  refine ((nodeClosed_ownership E hC).enterTree pair name targetInode type _).bind ?_
  intro new own₁ m₁ g₁ hgrow hkeeps _
  refine upholds_modify_writeBack (hkeeps.owner _ _ hblock) hn (fun pg hpg => ?_) (hgrow.held hheld)
    fun m₂ g₂ hkeeps₂ _ hann => ?_
  · rw [blockType_congr fun o ho => copyIn_apply_ne (Or.inl (by
      rw [entryAt]
      omega)), hpg]
  · refine (upholds_writeEntryCount pair ((hnode.keep hkeeps).keep hkeeps₂) hT hfirst block
      count).bind fun _ _ _ _ hgrow₃ _ _ => Upholds.pure (hgrow₃.announced hann)

/-- What comes after `entryBlock` has a block of the directory in hand. A new one is blank, and may be
unannounced so far. -/
theorem entryBlock_bind {pair : InodeBtreePair}
    {k : Option (Inode × UInt64 × UInt64) → BlockProg β} {S : β → Owners → Image → PageLedger → Prop}
    (hnode : Carries disk own m node) (hT : node.inodeNumber.toNat ∈ T.inodes)
    (hi : i < 18446744073709551616) (hstart : i = 0 → block = node.firstBlock)
    (hdb : i ≠ 0 → db ∈ g.held ∧ node.firstBlock ≠ 0)
    (hnone : ∀ own' m' g', Upholds disk.mapping (ownership disk T E) (k none) own' m' g' S)
    (hold : ∀ g' db', block ≠ 0 → block ∈ g'.held → db' ∈ g'.held → node.firstBlock ≠ 0 →
      Upholds disk.mapping (ownership disk T E) (k (some (node, block, db'))) own m g' S)
    (hnew : ∀ node' p own' m' g', Carries disk own' m' node' →
      node'.inodeNumber = node.inodeNumber → node'.firstBlock ≠ 0 →
      own' p.toNat = some (node.inodeNumber.toNat, .entry i) → p ∈ g'.held →
      (∀ o, 4 ≤ o → o < blockSize → m' p.toNat o = 0) →
      Upholds disk.mapping (ownership disk T (insert p E)) (k (some (node', p, p))) own' m' g'
        fun a own'' m'' g'' => p ∈ g''.announced ∧ S a own'' m'' g'') :
    Upholds disk.mapping (ownership disk T E) (entryBlock disk pair node i block db >>= k) own m g S := by
  have hnat : (UInt64.ofNat i).toNat = i := UInt64.toNat_ofNat_of_lt' hi
  rw [entryBlock]
  split
  next hzero =>
    refine Upholds.assoc ((upholds_allocPage node.inodeNumber.toNat i).bind ?_)
    rintro p own₁ m₁ g₁ - hkeeps₁ ⟨hpage, -⟩
    split
    next => exact hnone own₁ m₁ g₁
    next hne =>
      obtain ⟨hown, hblank⟩ := hpage hne
      -- from here on the page is owed, until `k` announces it
      refine Upholds.settlePage (p := p) ?_
      refine Upholds.assoc ((upholds_inodeSetBlock (hnode.keep hkeeps₁) (by rwa [hnat])).bind ?_)
      rintro ⟨rv, node'⟩ own₂ m₂ g₂ - hkeeps₂ ⟨hcarries, hnumber, hfirst, hsame⟩
      refine Upholds.assoc (Upholds.fetch_bind fun g₃ _ hheld => ?_)
      have hown₂ := hkeeps₂.owner _ _ hown
      refine Upholds.assoc ((upholds_modify hown₂ hT (fun _ _ => blockType_setBlockType _ _) hheld
        (Or.inl (Set.mem_insert p E))).bind ?_)
      rintro - own₄ m₄ g₄ hgrow₄ hkeeps₄ ⟨rfl, hm₄⟩
      refine Upholds.assoc ((upholds_inodeWrite (hcarries.keep hkeeps₄) (by
        rw [hnumber]
        exact hT)).inv.bind ?_)
      rintro - own₅ m₅ g₅ hgrow₅ hkeeps₅ ⟨C₅, -, rfl, hpages⟩
      have hown₅ := hkeeps₅.owner _ _ hown₂
      refine hnew node' p own₅ m₅ g₅ ((hcarries.keep hkeeps₄).keep hkeeps₅) hnumber ?_ hown₅
        (hgrow₅.held (hgrow₄.held hheld)) fun o hlo ho => ?_
      · simp only [hfirst]
        split
        next => exact hne
        next hindex =>
          refine (hdb fun h => hindex ?_).2
          rw [h]
          rfl
      · -- `inode_set_block` leaves pages that have an owner, `inode_write` those behind the table
        have hpg : m₂ p.toNat = m₁ p.toNat := hsame _ (by
          rw [hown]
          exact Option.some_ne_none _)
        rw [hpages _ (Consistent.owned C₅ hown₅).behind, hm₄, Function.update_self, hpg,
          setBlockType_apply hlo]
        exact hblank o ho
  next hne =>
    refine Upholds.assoc (Upholds.fetch_bind fun g₁ hgrow hheld => ?_)
    refine hold g₁ _ hne hheld ?_ ?_
    · split
      next => exact hheld
      next h0 => exact hgrow.held (hdb h0).1
    · by_cases h0 : i = 0
      · rw [← hstart h0]
        exact hne
      · exact (hdb h0).2

/-- The first slot of a blank block is free. -/
theorem freeSlot_blank {pg : Bytes} (h : ∀ o, 4 ≤ o → o < blockSize → pg o = 0) (header : Bool)
    (limit count : UInt16) : freeSlot pg header limit entriesPerBlock 0 count = (some 0, count) := by
  have hactive : entryActive pg (entryAt header 0) = false := by
    have hzero : pg (entryAt header 0 + 271) = 0 := h _ (by
      rw [entryAt]
      omega) (by
      cases header <;> decide)
    rw [entryActive, hzero]
    rfl
  have hper : entriesPerBlock = 14 + 1 := rfl
  rw [hper, freeSlot, if_pos (Or.inl hactive)]

/-- The loop of `directory_add_entry`. -/
theorem upholds_addEntryFrom (host : Host) (pair : InodeBtreePair) (name : CString)
    (targetInode : UInt64) (type : UInt32) (hC : T.tree) (hall : ∀ n, n ∈ T.inodes) (k i : ℕ)
    (hi : i + k < 18446744073709551616) (hnode : Carries disk own m node)
    (hblock : block ≠ 0 → ∃ n ∈ T.inodes, ∃ j, own block.toNat = some (n, .entry j))
    (hdb : i ≠ 0 → db ∈ g.held ∧ node.firstBlock ≠ 0) (count numberOfEntries : UInt16) :
    Abides disk (ownership disk T E)
      (addEntryFrom disk host pair name targetInode type k i node block db count numberOfEntries)
      own m g := by
  induction k generalizing i own m g node block db count numberOfEntries with
  | zero => exact Upholds.pure trivial
  | succ k ih =>
      have hnat : (UInt64.ofNat i).toNat = i := UInt64.toNat_ofNat_of_lt' (by
        show i < 2 ^ 64
        omega)
      rw [addEntryFrom]
      refine (upholds_inodeGetBlock hnode (UInt64.ofNat i)).bind ?_
      rintro ⟨rv, mapped⟩ own₁ m₁ g₁ - - ⟨rfl, rfl, hgrow, hmapped, hfirst⟩
      dsimp only
      have hcurrent : mapped.getD block ≠ 0 →
          ∃ n ∈ T.inodes, ∃ j, own₁ (mapped.getD block).toNat = some (n, .entry j) := by
        cases mapped with
        | none => exact hblock
        | some q => exact fun hne => ⟨_, hall _, _, hmapped q rfl hne⟩
      refine entryBlock_bind hnode (hall _) (by omega) (fun h0 => ?_)
        (fun h0 => ⟨hgrow.held (hdb h0).1, (hdb h0).2⟩) (fun _ _ _ => Upholds.pure trivial) ?_ ?_
      · subst h0
        simp only [show mapped = some _ from hfirst rfl, Option.getD_some]
      · -- a block that the directory had before
        intro g₂ db' hne hheld hdbheld hdirect
        obtain ⟨n, hn, j, hown⟩ := hcurrent hne
        refine Upholds.page_bind hheld fun c _ => ?_
        refine Upholds.ite (fun _ => Upholds.pure trivial) fun _ => ?_
        refine Upholds.page_bind hdbheld fun c' _ => ?_
        split
        next count' _ =>
          exact ih (i + 1) (by omega) hnode (fun _ => ⟨n, hn, j, hown⟩)
            (fun _ => ⟨hdbheld, hdirect⟩) _ _
        next slot _ _ =>
          exact (upholds_storeEntry host pair name targetInode type hC hnode (hall _) hdirect hn hown
            hheld _ slot _).mono fun _ _ _ _ _ _ _ => trivial
      · -- a new block, with room in its first slot
        intro node' p own₂ m₂ g₂ hcarries hnumber hdirect hown hheld hblank
        refine Upholds.of_inv fun C => Upholds.page_bind hheld fun c hc => ?_
        obtain rfl := C.sound.eq_toNat (C.owned hown).lt hc
        refine Upholds.ite (fun htype => absurd (C.owned hown).type htype) fun _ => ?_
        refine Upholds.page_bind hheld fun c' hc' => ?_
        rw [freeSlot_blank hblank]
        exact (upholds_storeEntry host pair name targetInode type hC hcarries (hall _) hdirect (hall _)
          hown hheld _ 0 _).mono fun _ _ _ _ _ _ h => ⟨h, trivial⟩

/-- `directory_add_entry` keeps the bookkeeping, whether it finds a place or not. -/
theorem upholds_directoryAddEntry (host : Host) (path name : CString) (targetInode : UInt64)
    (type : UInt32) (hC : T.tree) (hall : ∀ n, n ∈ T.inodes) :
    Abides disk (ownership disk T E) (directoryAddEntry disk host path name targetInode type) own m
      g := by
  refine Upholds.read_bind (reads_itemSearch path) fun pair _ _ => ?_
  refine Upholds.ite (fun _ => ?_) fun _ => Upholds.pure trivial
  refine Upholds.of_inv fun C => (upholds_inodeRead _).bind ?_
  rintro read own₁ m₁ g₁ - - ⟨rfl, rfl, -, hread⟩
  have hnode : Carries disk own₁ m₁ (read.getD zeroInode) := by
    cases read with
    | none => exact C.carries_zeroInode
    | some node => exact hread node rfl
  exact upholds_addEntryFrom host pair name targetInode type hC hall _ 0 (by decide) hnode
    (fun h => absurd rfl h) (fun h => absurd rfl h) 0 0

end Nbtrfs
