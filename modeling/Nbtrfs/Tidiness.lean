import Nbtrfs.FileMap
import Nbtrfs.Lib.PageLog

/-!
# What the allocators announce

Reference: `superblock.c`, `bitmap.c`, `disk.c::alloc_page`, `inode.c`.

On any image, whatever its pages hold, `alloc_page` and the functions that read touch pages they
obtained only, stay inside them, and announce what they changed; what `alloc_page` announces is the
superblock and blocks of the bitmap. `inode_write` announces a table block, if the inode has a slot.
-/

namespace Nbtrfs

open BlockProg Bytes

variable {disk : DiskInterface} {m : Image} {g : PageLedger} {D : Allowance} {α : Type}

/-! ## Superblock and bitmaps -/

theorem reads_superblockRead : Reads disk.mapping superblockRead :=
  Reads.fetch_page fun _ => Reads.ite (fun _ => Reads.pure) fun _ => Reads.pure

theorem reads_superblockCopy : Reads disk.mapping superblockCopy :=
  reads_superblockRead.bind fun sb => by
    cases sb with
    | none => exact Reads.crash
    | some sb => exact Reads.pure

/-- A page in hand is changed and announced. -/
theorem tidy_modify_writeBack {b i : UInt64} {f : Bytes → Bytes} (hb : b ∈ g.held)
    (hD : b ∈ D.announced) {a : α} :
    Tidy disk.mapping D (do
      modify b f
      writeBack i b
      pure a) m g fun x _ _ => x = a := by
  refine Tidy.settle ((Tidy.modify hb (Or.inl (Set.mem_insert b D.owed))).bind fun _ _ _ _ hb => ?_)
  exact (Tidy.writeBack (D := D.owing b) hb hD).bind fun _ _ _ _ ⟨_, hann, _⟩ => Tidy.pure ⟨hann, rfl⟩

theorem neat_superblockWrite (sb : Superblock) : Neat disk.mapping {0} (superblockWrite sb) :=
  fun _ _ => Tidy.fetch_page_bind fun _ _ _ hb => Tidy.ite (fun _ => Tidy.pure trivial) fun _ =>
    (tidy_modify_writeBack hb (Set.mem_singleton 0)).mono fun _ _ _ _ _ => trivial

/-- The word of a bit that lies in a bitmap block. -/
theorem wordOffset_bounds (disk : DiskInterface) {ii : ℤ} (h0 : 0 ≤ ii) (hlt : ii < usableBlockSize) :
    0 ≤ 4 + 8 * ii.tdiv 64 ∧ 4 + 8 * ii.tdiv 64 + 8 ≤ disk.mapping.blockSize := by
  obtain ⟨n, rfl⟩ := Int.eq_ofNat_of_zero_le h0
  have hdiv : (n : ℤ).tdiv 64 = (n / 64 : ℕ) := (Int.ofNat_tdiv n 64).symm
  have hn : n < 4092 := by
    simp only [usableBlockSize] at hlt
    omega
  show 0 ≤ 4 + 8 * (n : ℤ).tdiv 64 ∧ 4 + 8 * (n : ℤ).tdiv 64 + 8 ≤ (4096 : ℕ)
  rw [hdiv]
  omega

theorem tidy_bitmapGet {bm : UInt64} {ii : ℤ} (hb : bm ∈ g.held) (h0 : 0 ≤ ii)
    (hlt : ii < usableBlockSize) :
    Tidy disk.mapping D (bitmapGet bm ii) m g fun _ m' g' => m' = m ∧ g' = g := by
  obtain ⟨hlo, hhi⟩ := wordOffset_bounds disk h0 hlt
  refine (Tidy.page hb).bind fun pg _ _ _ ⟨hm, hg⟩ => ?_
  rw [hm, hg]
  refine Tidy.ite (fun _ => Tidy.pure ⟨rfl, rfl⟩) fun _ => ?_
  exact (Tidy.peek hb hlo hhi).bind fun _ _ _ _ h => Tidy.pure h

/-- `bitmap_put` either changes nothing, or the page of the bitmap, which is then owed. -/
theorem tidy_bitmapPut_bind {bm : UInt64} {ii vv : ℤ} {k : ℤ → BlockProg α}
    {S : α → Image → PageLedger → Prop} (hb : bm ∈ g.held) (h0 : 0 ≤ ii)
    (hlt : ii < usableBlockSize) (hfail : Tidy disk.mapping D (k (-1)) m g S)
    (hput : ∀ m' g', bm ∈ g'.held → Tidy disk.mapping (D.owing bm) (k 0) m' g'
      fun a m'' g'' => bm ∈ g''.announced ∧ S a m'' g'') :
    Tidy disk.mapping D (bitmapPut bm ii vv >>= k) m g S := by
  obtain ⟨hlo, hhi⟩ := wordOffset_bounds disk h0 hlt
  refine Disciplined.bind_iff.mpr ⟨hb, fun _ _ => ?_⟩
  show Disciplined disk.mapping (if _ then _ else _) m g _
  split
  next => exact hfail
  next =>
    have hrest : ∀ m', Disciplined disk.mapping (k 0) m' (g.change bm) fun a m'' g'' =>
        PageLedger.Grows D g g'' ∧ S a m'' g'' := fun m' =>
      Disciplined.mono (hput m' (g.change bm) hb) fun _ _ _ ⟨hgrow, hann, hS⟩ =>
        ⟨hgrow.settle hann, hS⟩
    exact ⟨⟨hb, hlo, hhi⟩, fun _ _ => ⟨⟨hb, hlo, hhi⟩, fun _ _ => hrest _⟩⟩

/-! ## Blocks -/

/-- The numbers of the superblock and the blocks of the block bitmap. -/
def bitmapNumbers (disk : DiskInterface) : Set UInt64 :=
  {q | q.toNat < inodeBitmapStart disk.totalBlocks.toNat}

theorem zero_mem_bitmapNumbers : 0 ∈ bitmapNumbers disk := by
  show (0 : UInt64).toNat < inodeBitmapStart disk.totalBlocks.toNat
  rw [UInt64.toNat_zero, inodeBitmapStart]
  omega

/-- The bitmap block of a block of the device. -/
theorem mem_bitmapNumbers {ii : ℕ} (h : ii < disk.totalBlocks.toNat) :
    UInt64.ofNat (1 + ii / 4092) ∈ bitmapNumbers disk := by
  have hblocks := le_blockBitmapBlocks disk.totalBlocks.toNat
  have htotal := total_lt disk
  show (UInt64.ofNat (1 + ii / 4092)).toNat < inodeBitmapStart disk.totalBlocks.toNat
  rw [toNat_ofNat_block (by omega), inodeBitmapStart]
  omega

/-- The block bitmap block of block `ii`, from that of the block before it. -/
private theorem tidy_nextBitmap {ii : ℕ} (hb : UInt64.ofNat (1 + (ii - 1) / 4092) ∈ g.held) :
    Tidy disk.mapping D (nextBitmap ii (1 + (ii - 1) / 4092)) m g fun p _ g' =>
      p = 1 + ii / 4092 ∧ UInt64.ofNat p ∈ g'.held := by
  refine Tidy.ite (fun hnext => ?_) fun hsame => Tidy.pure ?_
  · have hp : 1 + (ii - 1) / 4092 + 1 = 1 + ii / 4092 := by
      simp only [usableBlockSize] at hnext
      omega
    exact Tidy.fetch.bind fun _ _ _ _ ⟨_, hb⟩ => Tidy.pure ⟨hp, hb⟩
  · have hp : 1 + (ii - 1) / 4092 = 1 + ii / 4092 := by
      simp only [usableBlockSize] at hsame
      omega
    exact ⟨hp, hb⟩

/-- The search for a free block, from the block `ii` on. It is by induction on the number of blocks
that are left; the page of the bit before is at hand. -/
private theorem tidy_allocScan (sb : Superblock) (n ii : ℕ) (hii : ii + n ≤ disk.totalBlocks.toNat)
    (hb : UInt64.ofNat (1 + (ii - 1) / 4092) ∈ g.held) (hD : bitmapNumbers disk ⊆ D.announced) :
    Tidy disk.mapping D (allocScan sb n ii (1 + (ii - 1) / 4092)) m g fun _ _ _ => True := by
  induction n generalizing m g ii with
  | zero => exact Tidy.pure trivial
  | succ n ih =>
      rw [allocScan]
      refine (tidy_nextBitmap hb).bind ?_
      rintro p _ g₁ _ ⟨rfl, hb⟩
      have h0 : (0 : ℤ) ≤ ii - ((1 + ii / 4092 : ℕ) - 1) * usableBlockSize := by
        simp only [usableBlockSize]
        omega
      have hlt : (ii : ℤ) - ((1 + ii / 4092 : ℕ) - 1) * usableBlockSize < usableBlockSize := by
        simp only [usableBlockSize]
        omega
      refine (tidy_bitmapGet hb h0 hlt).bind fun bit _ _ _ hg => ?_
      rw [hg.2]
      refine Tidy.ite (fun _ => ?_) fun _ => ih (ii + 1) (by omega) hb
      refine tidy_bitmapPut_bind hb h0 hlt (Tidy.pure trivial) fun _ _ hb => ?_
      refine Tidy.ite (fun h => absurd rfl h) fun _ => ?_
      refine (neat_superblockWrite _).tidy_bind
        (Set.singleton_subset_iff.mpr (hD zero_mem_bitmapNumbers)) fun _ _ _ hgrow => ?_
      exact (Tidy.writeBack (D := D.owing _) (hgrow.held hb) (hD (mem_bitmapNumbers (by omega)))).bind
        fun _ _ _ _ hann => Tidy.pure ⟨hann.2.1, trivial⟩

/-- `alloc_page` announces the bitmap block and the superblock that it changes. -/
theorem neat_allocPage : Neat disk.mapping (bitmapNumbers disk) (allocPage disk) := fun _ _ =>
  Tidy.fetch.bind fun _ _ _ _ hb => reads_superblockRead.tidy_bind fun _ _ hgrow =>
    tidy_allocScan _ _ 0 (by omega) (hgrow.held hb.2) subset_rfl

/-! ## Inodes -/

theorem reads_inodeRead (n : UInt64) : Reads disk.mapping (inodeRead n) :=
  reads_superblockCopy.bind fun _ => Reads.fetch_page fun _ =>
    Reads.ite (fun _ => Reads.pure) fun _ => Reads.pure

/-- The numbers of the blocks of the inode table. -/
def tableNumbers (disk : DiskInterface) : Set UInt64 :=
  {q | q.toNat < dataStart disk.totalBlocks.toNat ∧
    inodeTableStart disk.totalBlocks.toNat ≤ q.toNat}

/-- `inode_write` announces the table block of an inode that has a slot. -/
theorem tidy_inodeWrite (L : Layout disk.mapping disk m) (node : Inode)
    (hn : node.inodeNumber.toNat < inodeCapacity disk.totalBlocks.toNat)
    (hD : tableNumbers disk ⊆ D.announced) :
    Tidy disk.mapping D (inodeWrite node) m g fun rv m' _ =>
      rv = 0 ∧ m' = putInode disk m node.inodeNumber.toNat node := by
  have hcap := capacity_lt disk
  have hint : node.inodeNumber.toBitVec.toInt = node.inodeNumber.toNat := by
    rw [BitVec.toInt_eq_toNat_cond, UInt64.toNat_toBitVec, if_pos (by omega)]
  have hpage : UInt64.ofInt ((node.inodeNumber.toNat : ℤ).tdiv ((inodesPerPage : ℕ) : ℤ)) =
      UInt64.ofNat (node.inodeNumber.toNat / inodesPerPage) := by
    rw [Int.tdiv_eq_ediv_of_nonneg (by omega), ← Int.natCast_ediv, ofInt_natCast]
  have htable : UInt64.ofNat (slotBlock disk node.inodeNumber.toNat) ∈ D.announced := by
    refine hD ?_
    have hlt := dataStart_lt disk
    have hslot := slotBlock_lt hn
    show _ < _ ∧ _
    rw [toNat_ofNat_block (by omega)]
    exact ⟨hslot, slotBlock_ge disk _⟩
  have hresult : Ensures disk.mapping (inodeWrite node) m fun rv m' =>
      rv = 0 ∧ m' = putInode disk m node.inodeNumber.toNat node :=
    ensures_of_run (L.run_inodeWrite_slot node hn) ⟨rfl, rfl⟩
  have htidy : Tidy disk.mapping D (inodeWrite node) m g fun _ _ _ => True := by
    refine reads_superblockCopy.tidy_bind_of_run L.run_superblockCopy fun _ _ => ?_
    simp only [hint, hpage, L.inodeTableBlock_eq]
    refine Tidy.fetch_page_bind fun _ _ _ hb => ?_
    refine Tidy.ite (fun _ => Tidy.pure trivial) fun _ => Tidy.ite (fun _ => Tidy.crash) fun _ => ?_
    exact (tidy_modify_writeBack hb htable).mono fun _ _ _ _ _ => trivial
  exact (htidy.ensures hresult).mono fun _ _ _ _ h => h.1

/-- The entries of an indirect block that the functions reach lie inside its page. -/
theorem entry_bounds (disk : DiskInterface) {i : ℕ} (h : i ≤ maxIndex) :
    (0 : ℤ) ≤ 4 + 8 * (i - 12 : ℕ) ∧ (4 + 8 * (i - 12 : ℕ) + 8 : ℤ) ≤ disk.mapping.blockSize := by
  have hmax : maxIndex = 511 := rfl
  show (0 : ℤ) ≤ 4 + 8 * (i - 12 : ℕ) ∧ (4 + 8 * (i - 12 : ℕ) + 8 : ℤ) ≤ (4096 : ℕ)
  omega

/-- `inode_get_block` holds the page of the indirect block that it reads. -/
theorem reads_inodeGetBlock (node : Inode) (index : UInt64) :
    Reads disk.mapping (inodeGetBlock node index) := by
  rw [inodeGetBlock]
  split
  next => exact Reads.pure
  next =>
    refine Reads.ite (fun hmax => Reads.ite (fun _ => Reads.pure) fun _ m g => ?_) fun _ => Reads.pure
    refine Tidy.fetch_page_bind fun pg _ _ hb => Tidy.ite (fun _ => Tidy.pure rfl) fun _ => ?_
    obtain ⟨hlo, hhi⟩ := entry_bounds disk hmax
    exact (Tidy.peek hb hlo hhi).bind fun _ _ _ _ hm => Tidy.pure hm.1

end Nbtrfs
