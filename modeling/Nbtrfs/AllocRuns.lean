import Nbtrfs.Alloc
import Nbtrfs.Lib.Runs

/-!
# Runs of the page allocator

A run interleaves `alloc_page` and `free_page` in any order, freeing only pages that are held. On a
formatted bitmap every step is safe as long as the bitmap blocks it reads have numbers whose byte
offset fits an `int`; the first step that needs bitmap block `2 ^ 19` faults.
-/

namespace Nbtrfs

open BlockProg

/-- One call of the page allocator. -/
inductive PageOp where
  | alloc
  | free (page : UInt64)
deriving DecidableEq

/-- The volume and the pages that were handed out and not freed since. -/
structure PageState where
  image : Image
  held : Finset ℕ

/-- One call on the volume; a page returned by `alloc_page` becomes held. -/
def PageOp.step (disk : DiskInterface) : PageOp → PageState → Option PageState
  | alloc, s => (run disk.mapping (allocPage disk) s.image).map fun r =>
      ⟨r.2, if r.1 = 0 then s.held else insert r.1.toNat s.held⟩
  | free page, s => (run disk.mapping (freePage page) s.image).map fun r =>
      ⟨r.2, s.held.erase page.toNat⟩

/-- A formatted block bitmap: the bitmap blocks have their type, block 0 and the bitmap blocks are
metadata, and the bits below `total_blocks` are those of the metadata. -/
structure FormattedBitmap (disk : DiskInterface) (metaBlocks : Finset ℕ) (m : Image) : Prop where
  total_lt : disk.totalBlocks.toNat < 2147483648
  meta_lt : ∀ b ∈ metaBlocks, b < disk.totalBlocks.toNat
  bitmap_mem : ∀ b ≤ blockBitmapBlocks disk.totalBlocks.toNat, b ∈ metaBlocks
  type : ∀ b, 1 ≤ b → b ≤ blockBitmapBlocks disk.totalBlocks.toNat →
    blockType (m b) = BlockType.bitmap.code
  bit : ∀ b < disk.totalBlocks.toNat, (blockBit m b = true ↔ b ∈ metaBlocks)

/-- Between `m` and `m'` the bit of block `b` changed to `v`, and outside block 0 nothing else. -/
structure OnlyBit (m m' : Image) (b : ℕ) (v : Bool) : Prop where
  before : blockBit m b = !v
  after : blockBit m' b = v
  bits : ∀ i, i ≠ b % 4092 → bitOf (m' (1 + b / 4092)) i = bitOf (m (1 + b / 4092)) i
  pages : ∀ c, c ≠ 0 → c ≠ 1 + b / 4092 → m' c = m c

/-- What a step of the allocator owes its callers. -/
def PageOp.Safe (disk : DiskInterface) (metaBlocks : Finset ℕ) :
    PageOp → PageState → PageState → Prop
  | alloc, s, s' => ∃ p, run disk.mapping (allocPage disk) s.image = some (p, s'.image) ∧
      (p ≠ 0 → p.toNat < disk.totalBlocks.toNat ∧ p.toNat ∉ metaBlocks ∧ p.toNat ∉ s.held ∧
        OnlyBit s.image s'.image p.toNat true) ∧
      (p = 0 ↔ ∀ b < disk.totalBlocks.toNat, b ∈ s.held ∨ b ∈ metaBlocks)
  | free page, s, s' => OnlyBit s.image s'.image page.toNat false

/-- Only held pages are freed. -/
def PageOp.Valid : PageOp → PageState → Prop
  | alloc, _ => True
  | free page, s => page.toNat ∈ s.held

/-- The number of blocks that the bitmap blocks with numbers below `2 ^ 19` describe. -/
def addressedBlocks : ℕ := 4092 * 524287

/-- Every bitmap block that the step reads has a number below `2 ^ 19`: the first free block is below
`addressedBlocks`, or there is no block from there on. -/
def PageOp.Addressed (disk : DiskInterface) (metaBlocks : Finset ℕ) : PageOp → PageState → Prop
  | alloc, s => disk.totalBlocks.toNat ≤ addressedBlocks ∨
      ∃ b < addressedBlocks, b ∉ s.held ∧ b ∉ metaBlocks
  | free page, _ => page.toNat < addressedBlocks

/-- What holds between the calls: the set bits are those of the metadata and of the held pages. -/
structure PageInv (disk : DiskInterface) (metaBlocks : Finset ℕ) (s : PageState) : Prop where
  type : ∀ b, 1 ≤ b → b ≤ blockBitmapBlocks disk.totalBlocks.toNat →
    blockType (s.image b) = BlockType.bitmap.code
  bit : ∀ b < disk.totalBlocks.toNat, (blockBit s.image b = true ↔ b ∈ s.held ∨ b ∈ metaBlocks)
  held_lt : ∀ b ∈ s.held, b < disk.totalBlocks.toNat
  held_not_meta : ∀ b ∈ s.held, b ∉ metaBlocks

section Steps

variable {disk : DiskInterface} {metaBlocks : Finset ℕ} {m : Image} {s : PageState}

theorem FormattedBitmap.inv (h : FormattedBitmap disk metaBlocks m) :
    PageInv disk metaBlocks ⟨m, ∅⟩ where
  type := h.type
  bit b hb := by simpa using h.bit b hb
  held_lt b hb := absurd hb (Finset.notMem_empty b)
  held_not_meta b hb := absurd hb (Finset.notMem_empty b)

theorem onlyBit_takeBlock {b : ℕ} (hclear : blockBit m b = false) :
    OnlyBit m (takeBlock m b) b true where
  before := hclear
  after := by rw [blockBit_takeBlock, if_pos rfl]
  bits i hi := by
    rw [takeBlock, decFreeBlocks_of_ne (by omega), putBlockBit, putAreaBit,
      Function.update_self, bitOf_setBit, if_neg hi]
  pages c h0 hc := takeBlock_of_ne h0 hc

theorem onlyBit_dropBlock {b : ℕ} (hset : blockBit m b = true) :
    OnlyBit m (dropBlock m b) b false where
  before := hset
  after := by rw [blockBit_dropBlock, if_pos rfl]
  bits i hi := by
    rw [dropBlock, decFreeBlocks_of_ne (by omega), putBlockBit, putAreaBit,
      Function.update_self, bitOf_setBit, if_neg hi]
  pages c h0 hc := dropBlock_of_ne h0 hc

/-- The bitmap blocks with numbers up to `k < 2 ^ 19` are in place. -/
theorem PageInv.bitmapTo (hinv : PageInv disk metaBlocks s)
    (hfmt : FormattedBitmap disk metaBlocks m) {k : ℕ}
    (hk : k ≤ blockBitmapBlocks disk.totalBlocks.toNat) (hwrap : k < 524288) :
    BitmapTo disk.mapping disk s.image k where
  volume := disk.volume_mapping
  addr b hb := DiskInterface.mapping_exactTo.ofNat
    (lt_min (hfmt.meta_lt b (hfmt.bitmap_mem b (hb.trans hk))) (by omega))
    (le_trans (min_le_right _ _) (by decide))
  lt := hfmt.meta_lt k (hfmt.bitmap_mem k hk)
  type b h1 hb := hinv.type b h1 (hb.trans hk)

/-- The bitmap block of a block of the volume is one of the bitmap blocks. -/
theorem bitmapBlock_le {b : ℕ} (hb : b < disk.totalBlocks.toNat) :
    1 + b / 4092 ≤ blockBitmapBlocks disk.totalBlocks.toNat := by
  have := le_blockBitmapBlocks disk.totalBlocks.toNat
  omega

theorem diskGetBlock_bitmap_eq_none {k : ℕ} (hlo : 524288 ≤ k) (hhi : k < 1048576) :
    disk.mapping.addr (UInt64.ofNat k) = none := by
  have hk : (UInt64.ofNat k).toNat = k := UInt64.toNat_ofNat_of_lt' (by
    show k < 2 ^ 64
    omega)
  exact DiskInterface.diskGetBlock_eq_none (by omega) (by omega)

/-- `alloc_page` hands out the first block that is neither held nor metadata. -/
theorem PageInv.alloc_first (hfmt : FormattedBitmap disk metaBlocks m)
    (hinv : PageInv disk metaBlocks s) {f : ℕ} (hf : f < disk.totalBlocks.toNat)
    (hflt : f < addressedBlocks) (hfree : f ∉ s.held ∧ f ∉ metaBlocks)
    (hmin : ∀ b < f, b ∈ s.held ∨ b ∈ metaBlocks) :
    run disk.mapping (allocPage disk) s.image = some (UInt64.ofNat f, takeBlock s.image f) ∧
      PageOp.alloc.step disk s = some ⟨takeBlock s.image f, insert f s.held⟩ ∧
      PageOp.alloc.Safe disk metaBlocks s ⟨takeBlock s.image f, insert f s.held⟩ ∧
      PageInv disk metaBlocks ⟨takeBlock s.image f, insert f s.held⟩ := by
  have htotal := hfmt.total_lt
  have hset : ∀ b < f, blockBit s.image b = true := fun b hb =>
    (hinv.bit b (by omega)).mpr (hmin b hb)
  have hclear : blockBit s.image f = false := by
    have hnot : ¬blockBit s.image f = true := (hinv.bit f hf).not.mpr (not_or.mpr hfree)
    simpa using hnot
  have hf0 : f ≠ 0 := fun h => hfree.2 (h ▸ hfmt.bitmap_mem 0 (Nat.zero_le _))
  have hfnat : (UInt64.ofNat f).toNat = f := UInt64.toNat_ofNat_of_lt' (by
    show f < 2 ^ 64
    omega)
  have hne : UInt64.ofNat f ≠ 0 := fun h => hf0 (by
    rw [← hfnat, h]
    rfl)
  have hto : BitmapTo disk.mapping disk s.image (1 + f / 4092) :=
    hinv.bitmapTo hfmt (bitmapBlock_le hf) (by
      simp only [addressedBlocks] at hflt
      omega)
  have hrun := run_allocPage hto hf hclear hset
  refine ⟨hrun, ?_, ⟨UInt64.ofNat f, hrun, fun _ => ?_, ?_⟩, ?_⟩
  · rw [PageOp.step, hrun, Option.map_some, if_neg hne, hfnat]
  · rw [hfnat]
    exact ⟨hf, hfree.2, hfree.1, onlyBit_takeBlock hclear⟩
  · exact iff_of_false hne fun hall => (hall f hf).elim hfree.1 hfree.2
  · exact {
      type := fun b h1 hb => by rw [blockType_takeBlock, hinv.type b h1 hb]
      bit := fun b hb => by
        rw [blockBit_takeBlock, Finset.mem_insert]
        by_cases hbf : b = f
        · simp [hbf]
        · rw [if_neg hbf, hinv.bit b hb]
          simp [hbf]
      held_lt := fun b hb => by
        rcases Finset.mem_insert.mp hb with rfl | hb
        · exact hf
        · exact hinv.held_lt b hb
      held_not_meta := fun b hb => by
        rcases Finset.mem_insert.mp hb with rfl | hb
        · exact hfree.2
        · exact hinv.held_not_meta b hb }

/-- With every block held or metadata, `alloc_page` returns 0 and changes nothing. -/
theorem PageInv.alloc_full (hfmt : FormattedBitmap disk metaBlocks m)
    (hinv : PageInv disk metaBlocks s) (hle : disk.totalBlocks.toNat ≤ addressedBlocks)
    (hfull : ∀ b < disk.totalBlocks.toNat, b ∈ s.held ∨ b ∈ metaBlocks) :
    PageOp.alloc.step disk s = some s ∧ PageOp.alloc.Safe disk metaBlocks s s := by
  have hpos := hfmt.meta_lt 0 (hfmt.bitmap_mem 0 (Nat.zero_le _))
  have hto : BitmapTo disk.mapping disk s.image (1 + (disk.totalBlocks.toNat - 1) / 4092) :=
    hinv.bitmapTo hfmt (bitmapBlock_le (by omega)) (by
      simp only [addressedBlocks] at hle
      omega)
  have hrun := run_allocPage_full hto fun b hb => (hinv.bit b hb).mpr (hfull b hb)
  refine ⟨?_, 0, hrun, fun h => absurd rfl h, iff_of_true rfl hfull⟩
  rw [PageOp.step, hrun]
  rfl

/-- `free_page` gives back a held page. -/
theorem PageInv.free_held (hfmt : FormattedBitmap disk metaBlocks m)
    (hinv : PageInv disk metaBlocks s) {page : UInt64} (hheld : page.toNat ∈ s.held)
    (haddr : page.toNat < addressedBlocks) :
    (PageOp.free page).step disk s =
        some ⟨dropBlock s.image page.toNat, s.held.erase page.toNat⟩ ∧
      (PageOp.free page).Safe disk metaBlocks s
        ⟨dropBlock s.image page.toNat, s.held.erase page.toNat⟩ ∧
      PageInv disk metaBlocks ⟨dropBlock s.image page.toNat, s.held.erase page.toNat⟩ := by
  have htotal := hfmt.total_lt
  have hlt := hinv.held_lt _ hheld
  have hset : blockBit s.image page.toNat = true := (hinv.bit _ hlt).mpr (Or.inl hheld)
  have hto : BitmapTo disk.mapping disk s.image (1 + page.toNat / 4092) :=
    hinv.bitmapTo hfmt (bitmapBlock_le hlt) (by
      simp only [addressedBlocks] at haddr
      omega)
  have hrun := run_freePage (by omega) hto
  refine ⟨?_, onlyBit_dropBlock hset, ?_⟩
  · rw [PageOp.step, hrun]
    rfl
  · exact {
      type := fun b h1 hb => by rw [blockType_dropBlock, hinv.type b h1 hb]
      bit := fun b hb => by
        rw [blockBit_dropBlock, Finset.mem_erase]
        by_cases hbp : b = page.toNat
        · subst hbp
          simp [hinv.held_not_meta _ hheld]
        · rw [if_neg hbp, hinv.bit b hb]
          simp [hbp]
      held_lt := fun b hb => hinv.held_lt b (Finset.mem_of_mem_erase hb)
      held_not_meta := fun b hb => hinv.held_not_meta b (Finset.mem_of_mem_erase hb) }

/-- An addressed step goes through, is safe, and keeps the invariant. -/
theorem PageOp.step_of_addressed (hfmt : FormattedBitmap disk metaBlocks m) (op : PageOp)
    (hinv : PageInv disk metaBlocks s) (hvalid : op.Valid s)
    (haddr : op.Addressed disk metaBlocks s) :
    ∃ s', op.step disk s = some s' ∧ op.Safe disk metaBlocks s s' ∧ PageInv disk metaBlocks s' := by
  cases op with
  | alloc =>
      by_cases hfull : ∀ b < disk.totalBlocks.toNat, b ∈ s.held ∨ b ∈ metaBlocks
      · have hle : disk.totalBlocks.toNat ≤ addressedBlocks := by
          rcases haddr with hle | ⟨b, hb, hheld, hmeta⟩
          · exact hle
          · by_contra hgt
            exact (hfull b (by omega)).elim hheld hmeta
        obtain ⟨hstep, hsafe⟩ := hinv.alloc_full hfmt hle hfull
        exact ⟨s, hstep, hsafe, hinv⟩
      · -- the scan stops at the first free block, which the condition puts in reach
        obtain ⟨f, hf, hfree, hbelow⟩ := exists_first_of_not hfull
        have hfree := not_or.mp hfree
        have hflt : f < addressedBlocks := by
          rcases haddr with hle | ⟨b, hb, hheld, hmeta⟩
          · omega
          · by_contra hge
            exact (hbelow b (by omega)).elim hheld hmeta
        obtain ⟨-, hstep, hsafe, hinv'⟩ := hinv.alloc_first hfmt hf hflt hfree hbelow
        exact ⟨_, hstep, hsafe, hinv'⟩
  | free page =>
      obtain ⟨hstep, hsafe, hinv'⟩ := hinv.free_held hfmt hvalid haddr
      exact ⟨_, hstep, hsafe, hinv'⟩

/-- A step that is not addressed crashes. -/
theorem PageOp.step_of_not_addressed (hfmt : FormattedBitmap disk metaBlocks m) (op : PageOp)
    (hinv : PageInv disk metaBlocks s) (hvalid : op.Valid s)
    (haddr : ¬op.Addressed disk metaBlocks s) : op.step disk s = none := by
  have htotal := hfmt.total_lt
  cases op with
  | alloc =>
      simp only [Addressed, addressedBlocks, not_or, not_le, not_exists, not_and,
        Decidable.not_not] at haddr
      obtain ⟨hgt, hall⟩ := haddr
      have hset : ∀ b < 4092 * 524287, blockBit s.image b = true := fun b hb => by
        refine (hinv.bit b (by omega)).mpr ?_
        by_cases hheld : b ∈ s.held
        · exact Or.inl hheld
        · exact Or.inr (hall b hb hheld)
      have hto : BitmapTo disk.mapping disk s.image 524287 :=
        hinv.bitmapTo hfmt ((bitmapBlock_le hgt).trans' (by decide)) (by decide)
      rw [step, run_allocPage_unreachable hto
        (diskGetBlock_bitmap_eq_none (by decide) (by decide)) hgt hset]
      rfl
  | free page =>
      have hlt := hinv.held_lt _ hvalid
      simp only [Addressed, addressedBlocks, not_lt] at haddr
      have hto : BitmapTo disk.mapping disk s.image 0 :=
        hinv.bitmapTo hfmt (Nat.zero_le _) (by decide)
      rw [step, run_freePage_unreachable (by omega) hto.addr_zero
        (diskGetBlock_bitmap_eq_none (by omega) (by omega))]
      rfl

/-- Formatted bitmaps exist for every range of metadata that covers the bitmap blocks. -/
theorem exists_formattedBitmap (disk : DiskInterface) (n : ℕ)
    (htotal : disk.totalBlocks.toNat < 2147483648)
    (hbitmap : blockBitmapBlocks disk.totalBlocks.toNat < n) (hn : n ≤ disk.totalBlocks.toNat) :
    ∃ m, FormattedBitmap disk (Finset.range n) m := by
  have hfill : ∀ k, ∃ m : Image, (∀ b, blockType (m b) = BlockType.bitmap.code) ∧
      ∀ b, blockBit m b = decide (b < k) := by
    intro k
    induction k with
    | zero =>
        refine ⟨fun _ => setBlockType BlockType.bitmap fun _ => 0,
          fun b => blockType_setBlockType _ _, fun b => ?_⟩
        have hzero : Bytes.load64 (fun _ => 0) (4 + 8 * (b % 4092 / 64)) = 0 := by
          simp [Bytes.load64, Bytes.leLoad]
        rw [blockBit, areaBit, bitOf, setBlockType, Bytes.load64, Bytes.store32,
          Bytes.leLoad_leStore_ne (by omega), ← Bytes.load64, hzero]
        simp
    | succ k ih =>
        obtain ⟨m, htype, hbit⟩ := ih
        refine ⟨putBlockBit m k true, fun b => ?_, fun b => ?_⟩
        · rw [blockType_putAreaBit, htype]
        · rw [blockBit, putBlockBit, areaBit_putAreaBit, ← blockBit, hbit]
          by_cases hb : b = k
          · simp [hb]
          · have hiff : b < k + 1 ↔ b < k := by omega
            simp [hb, hiff]
  obtain ⟨m, htype, hbit⟩ := hfill n
  refine ⟨m, htotal, fun b hb => ?_, fun b hb => ?_, fun b _ _ => htype b, fun b _ => ?_⟩
  · exact (Finset.mem_range.mp hb).trans_le hn
  · exact Finset.mem_range.mpr (by omega)
  · rw [hbit, Finset.mem_range, decide_eq_true_iff]

/-- Allocating until every block below `addressedBlocks` is taken, and once more, is not a safe run
of a larger volume. -/
theorem not_safeRun_alloc_past (hfmt : FormattedBitmap disk metaBlocks m)
    (htotal : addressedBlocks < disk.totalBlocks.toNat) {d k : ℕ} (hk : k + d = addressedBlocks)
    (hinv : PageInv disk metaBlocks s)
    (hused : ∀ b < disk.totalBlocks.toNat, (b ∈ s.held ∨ b ∈ metaBlocks) ↔ b < k) :
    ¬SafeRun (PageOp.step disk) (PageOp.Safe disk metaBlocks) (List.replicate (d + 1) PageOp.alloc)
      s := by
  induction d generalizing k s with
  | zero =>
      rintro ⟨s', hs', -⟩
      have hnot : ¬PageOp.alloc.Addressed disk metaBlocks s := by
        rintro (hle | ⟨b, hb, hheld, hmeta⟩)
        · omega
        · exact ((hused b (by omega)).mpr (by omega)).elim hheld hmeta
      rw [PageOp.alloc.step_of_not_addressed hfmt hinv trivial hnot] at hs'
      cases hs'
  | succ d ih =>
      have hfree : k ∉ s.held ∧ k ∉ metaBlocks :=
        not_or.mp ((hused k (by omega)).not.mpr (lt_irrefl k))
      obtain ⟨-, hstep, -, hinv'⟩ := hinv.alloc_first hfmt (f := k) (by omega) (by omega) hfree
        fun b hb => (hused b (by omega)).mpr hb
      rintro ⟨s', hs', -, hrest⟩
      rw [hstep] at hs'
      obtain rfl := Option.some.inj hs'
      refine ih (k := k + 1) (by omega) hinv' (fun b hb => ?_) hrest
      show b ∈ insert k s.held ∨ b ∈ metaBlocks ↔ b < k + 1
      rw [Finset.mem_insert, or_assoc, hused b hb]
      omega

end Steps

/-- From a formatted bitmap, a run that frees only held pages is safe exactly when it only reads
bitmap blocks with numbers below `2 ^ 19`. -/
theorem pageRun_safe_iff {disk : DiskInterface} {metaBlocks : Finset ℕ} {m : Image}
    (hfmt : FormattedBitmap disk metaBlocks m) (ops : List PageOp)
    (hvalid : Admits (PageOp.step disk) PageOp.Valid ops ⟨m, ∅⟩) :
    SafeRun (PageOp.step disk) (PageOp.Safe disk metaBlocks) ops ⟨m, ∅⟩ ↔
      Admits (PageOp.step disk) (PageOp.Addressed disk metaBlocks) ops ⟨m, ∅⟩ := by
  refine safeRun_iff_admits (PageInv disk metaBlocks) ?_ ?_ hfmt.inv hvalid
  · intro op s hinv hval haddr
    exact op.step_of_addressed hfmt hinv hval haddr
  · intro op s hinv hval hnot s' hs'
    rw [op.step_of_not_addressed hfmt hinv hval hnot] at hs'
    cases hs'

/-- On three blocks, of which the first two are metadata, the first `alloc_page` hands out block 2
and the second returns 0. -/
theorem pageRun_safe_three_blocks : ∃ m, SafeRun (PageOp.step ⟨3, by decide⟩)
    (PageOp.Safe ⟨3, by decide⟩ (Finset.range 2)) [PageOp.alloc, PageOp.alloc] ⟨m, ∅⟩ := by
  obtain ⟨m, hfmt⟩ := exists_formattedBitmap ⟨3, by decide⟩ 2 (by decide)
    (by decide) (by decide)
  refine ⟨m, (pageRun_safe_iff hfmt _ ?_).mpr ?_⟩
  · exact ⟨trivial, fun _ _ => ⟨trivial, fun _ _ => trivial⟩⟩
  · exact ⟨Or.inl (by decide), fun _ _ => ⟨Or.inl (by decide), fun _ _ => trivial⟩⟩

/-- A volume of `2 ^ 31 - 1` blocks has a run of `alloc_page` calls that is not safe: once every
block below `addressedBlocks` is taken, the next call faults at bitmap block `2 ^ 19`. -/
theorem pageRun_unsafe_large_volume : ∃ m ops,
    FormattedBitmap ⟨2147483647, by decide⟩ (Finset.range (dataStart 2147483647 + 1)) m ∧
      Admits (PageOp.step ⟨2147483647, by decide⟩) PageOp.Valid ops ⟨m, ∅⟩ ∧
      ¬SafeRun (PageOp.step ⟨2147483647, by decide⟩)
        (PageOp.Safe ⟨2147483647, by decide⟩ (Finset.range (dataStart 2147483647 + 1))) ops
        ⟨m, ∅⟩ := by
  obtain ⟨m, hfmt⟩ := exists_formattedBitmap ⟨2147483647, by decide⟩
    (dataStart 2147483647 + 1) (by decide) (by decide) (by decide)
  refine ⟨m, List.replicate (addressedBlocks - (dataStart 2147483647 + 1) + 1) PageOp.alloc, hfmt,
    ?_, ?_⟩
  · generalize addressedBlocks - (dataStart 2147483647 + 1) + 1 = n
    generalize PageState.mk m ∅ = s
    induction n generalizing s with
    | zero => trivial
    | succ n ih => exact ⟨trivial, fun s' _ => ih s'⟩
  · refine not_safeRun_alloc_past hfmt (by decide) (k := dataStart 2147483647 + 1) ?_ hfmt.inv ?_
    · exact Nat.add_sub_cancel' (by decide)
    · intro b _
      simp

end Nbtrfs
