import Nbtrfs.WriteHonest

/-!
# Files with holes

Reference: `fuse.c::nbtrfs_read`, `inode.c::inode_get_block`.

Writes at any offsets leave pages below the file size without a block. For such a page
`inode_get_block` stores 0 and returns -1, and the loop of `nbtrfs_read` returns that before it looks
at the 0. So a read is right exactly when all of its pages have a block.
-/

namespace Nbtrfs

open BlockProg Bytes

/-- One call of `nbtrfs_write`. -/
structure WriteCall where
  buf : Bytes
  size : UInt64
  offset : ℕ

/-- The volume, and the bytes that were written to the file. -/
structure WriteState where
  image : Image
  written : ℕ → Option UInt8

/-- The number of bytes that the 12 direct blocks hold. -/
abbrev directBytes : ℕ := 12 * usableBlockSize

/-- Entry `i` of an inode itself; 0 behind the first 12. -/
def directEntry (node : Inode) (i : ℕ) : UInt64 :=
  if h : i < 12 then node.directBlocks[i] else 0

namespace WriteCall

/-- A call, with the bytes that it reports as written. -/
def step (disk : DiskInterface) (host : Host) (path : CString) (op : WriteCall) (s : WriteState) :
    Option WriteState :=
  (run disk.mapping (nbtrfsWrite disk host path op.buf op.size op.offset) s.image).map fun r =>
    ⟨r.2, fun x => if op.offset ≤ x ∧ x < op.offset + r.1.toNat then some (op.buf (x - op.offset))
      else s.written x⟩

/-- Some bytes, within the range of the direct blocks. -/
def Valid (op : WriteCall) : Prop := 0 < op.size.toNat ∧ op.offset + op.size.toNat ≤ directBytes

/-- No block from `2 ^ 19` on is taken. -/
def Fits (disk : DiskInterface) (inum : UInt64) (op : WriteCall) (s : WriteState) : Prop :=
  PagesFit (directEntry (inodeAt disk s.image inum.toNat))
    (inodeAt disk s.image inum.toNat).indirectBlock (FarTaken disk s.image) op.offset directBytes
    (pageCount op.offset op.size.toNat) (op.offset / usableBlockSize) (nearFree disk s.image)

end WriteCall

/-- The number of bytes that a read of `n` bytes at `o` finds. -/
def bytesFound (disk : DiskInterface) (inum : UInt64) (s : WriteState) (o : ℕ) (n : UInt64) : ℕ :=
  min n.toNat ((inodeAt disk s.image inum.toNat).size.toNat - o)

/-- A read returns all bytes up to the end of the file, with 0 for those never written. -/
def ReadsZeros (disk : DiskInterface) (path : CString) (inum : UInt64) (s : WriteState) (o : ℕ)
    (n : UInt64) : Prop :=
  run disk.mapping (nbtrfsRead disk path n o) s.image =
    some (((bytesFound disk inum s o n : ℤ), (List.range (bytesFound disk inum s o n)).map fun i =>
      (s.written (o + i)).getD 0), s.image)

/-- Every page of the read has a block, and the end of the range fits a `size_t`. -/
def NoHole (disk : DiskInterface) (inum : UInt64) (s : WriteState) (o : ℕ) (n : UInt64) : Prop :=
  o + n.toNat < 18446744073709551616 ∧ ∀ i ∈ filePages o (bytesFound disk inum s o n),
    directEntry (inodeAt disk s.image inum.toNat) i ≠ 0

variable {disk : DiskInterface} {m m₀ : Image} {node : Inode} {blocks : ℕ → UInt64} {inum : UInt64}
  {path : CString} {host : Host} {o i : ℕ} {n : UInt64} {s : WriteState}

/-! ## Reading -/

theorem Entries.eq_directEntry (E : Entries disk node m blocks) (hi : i < 12) :
    blocks i = directEntry node i := by
  have hmax : maxIndex = 511 := rfl
  have hnat : (UInt64.ofNat i).toNat = i := toNat_ofNat_block (by omega)
  rw [directEntry, dif_pos hi, (E i (by omega)).eq (Yields.direct (by omega))]
  simp only [hnat]

/-- A page without a block: `inode_get_block` fails. -/
theorem Entries.run_get_hole (E : Entries disk node m blocks) {x : ℕ} (hx : x / usableBlockSize < 12)
    (hfree : blocks (x / usableBlockSize) = 0) :
    run disk.mapping (inodeGetBlock node (pageIndex x)) m = some ((-1, some 0), m) := by
  have hmax : maxIndex = 511 := rfl
  have hnat : (UInt64.ofNat (x / usableBlockSize)).toNat = x / usableBlockSize :=
    toNat_ofNat_block (by omega)
  have hzero : node.directBlocks[x / usableBlockSize] = 0 := by
    rw [← hfree, E.eq_directEntry hx, directEntry, dif_pos hx]
  rw [pageIndex_eq (by omega), run_inodeGetBlock_direct (by omega)]
  simp only [hnat, hzero]
  rw [if_neg (not_not.mpr rfl)]

/-- The loop of `nbtrfs_read` returns -1 at a hole. -/
theorem run_readPages_hole (h : MappedPages disk m node blocks {i | blocks i ≠ 0})
    (E : Entries disk node m blocks) (hnear : ∀ i < 12, (blocks i).toNat < 524288) {fuel r : ℕ}
    (hr : r ≤ fuel) (hdirect : filePages o r ⊆ {i | i < 12}) (hi : i ∈ filePages o r)
    (hfree : blocks i = 0) (done : List UInt8) :
    ∃ buf, run disk.mapping (readPages node fuel o r done) m = some ((-1, buf), m) := by
  induction fuel generalizing o r done with
  | zero =>
      obtain ⟨x, hlo, hhi, -⟩ := hi
      omega
  | succ fuel ih =>
      have hzero : r ≠ 0 := by
        obtain ⟨x, hlo, hhi, -⟩ := hi
        omega
      have hj : o / usableBlockSize < 12 := hdirect (Paged.mem_pagesOf le_rfl (by omega))
      have hle := chunk_le o r
      have hpos := chunk_pos (x := o) hzero
      rw [readPages, if_neg hzero]
      by_cases hfirst : blocks (o / usableBlockSize) = 0
      · refine ⟨done, ?_⟩
        rw [run_bind_of_eq (E.run_get_hole hj hfirst)]
        rfl
      · have haddr : disk.mapping.addr (blocks (o / usableBlockSize)) =
            some (blocks (o / usableBlockSize)).toNat :=
          DiskInterface.diskGetBlock_of_lt (h.lt_total _ hfirst) (hnear _ hj)
        have hrest : i ∈ filePages (o + chunk o r) (r - chunk o r) := by
          refine mem_filePages_rest hi ?_
          rintro rfl
          exact hfirst hfree
        obtain ⟨buf, hrun⟩ := ih (by omega) ((Paged.pagesOf_drop hle).trans hdirect) hrest
          (done ++ (List.range (chunk o r)).map fun i =>
            m (blocks (o / usableBlockSize)).toNat (4 + o % usableBlockSize + i))
        refine ⟨buf, ?_⟩
        rw [run_bind_of_eq (h.run_get hfirst)]
        simp only [Option.getD_some]
        rw [if_neg (not_not.mpr rfl), if_neg hfirst, run_bind_of_eq (run_fetch _ _),
          run_bind_of_eq (run_page haddr), hrun]

/-- A read that starts in the file and whose end fits a `size_t` runs the loop up to the end of the
file. -/
theorem readInode_clip {k : ℕ} (hk : k = min n.toNat (node.size.toNat - o)) (hk0 : k ≠ 0)
    (hsmall : node.size.toNat ≤ directBytes) (hsum : o + n.toNat < 18446744073709551616) :
    readInode node n o = readPages node k o k [] := by
  have hbytes : directBytes = 49104 := rfl
  have ho : (UInt64.ofNat o).toNat = o := UInt64.toNat_ofNat_of_lt' (by
    show o < 18446744073709551616
    omega)
  have hadd : (UInt64.ofNat o + n).toNat = o + n.toNat := by
    rw [UInt64.toNat_add, ho]
    exact Nat.mod_eq_of_lt hsum
  have hsize : (if node.size < UInt64.ofNat o + n then node.size - UInt64.ofNat o else n).toNat =
      k := by
    simp only [UInt64.lt_iff_toNat_lt, hadd]
    split
    next hlt =>
      rw [UInt64.toNat_sub_of_le _ _ (by rw [UInt64.le_iff_toNat_le, ho]; omega), ho]
      omega
    next hge => omega
  have hin : ¬node.size ≤ UInt64.ofNat o := by
    rw [UInt64.le_iff_toNat_le, ho]
    omega
  rw [readInode, if_neg hin]
  generalize (if node.size < UInt64.ofNat o + n then node.size - UInt64.ofNat o else n) = s at *
  have hne : s ≠ 0 := by
    rintro rfl
    rw [UInt64.toNat_zero] at hsize
    omega
  simp only
  rw [if_neg hne, hsize, int32_of_lt (by omega), Int.toNat_natCast]

/-- The end of the range wraps: the count is negative as an `int`, and nothing is read. -/
theorem readInode_wrap (ho : o < node.size.toNat) (hsmall : node.size.toNat ≤ directBytes)
    (hsum : 18446744073709551616 ≤ o + n.toNat) : readInode node n o = pure (0, []) := by
  have hbytes : directBytes = 49104 := rfl
  have hn := n.toNat_lt
  have hon : (UInt64.ofNat o).toNat = o := toNat_ofNat_block (by omega)
  have hadd : (UInt64.ofNat o + n).toNat = o + n.toNat - 18446744073709551616 := by
    rw [UInt64.toNat_add, hon]
    omega
  have hcount : (int32 (n.toNat : ℕ)).toNat = 0 := by
    have hshift := int32_add_mul ((n.toNat : ℤ) - 18446744073709551616) 4294967296
    rw [show (n.toNat : ℤ) - 18446744073709551616 + 4294967296 * 4294967296 = n.toNat by ring]
      at hshift
    rw [hshift, int32_of_mem (by omega) (by omega)]
    omega
  have hne : n ≠ 0 := by
    rintro rfl
    rw [UInt64.toNat_zero] at hsum
    omega
  have hin : ¬node.size ≤ UInt64.ofNat o := by
    rw [UInt64.le_iff_toNat_le, hon]
    omega
  have hwrap : ¬node.size < UInt64.ofNat o + n := by
    rw [UInt64.lt_iff_toNat_lt, hadd]
    omega
  rw [readInode, if_neg hin, if_neg hwrap]
  simp only
  rw [if_neg hne, hcount]
  rfl

/-! ## The file between two calls -/

/-- What holds between the calls: the file is open, its bytes are the written ones, with zeros for the
others on the same page, and lookups see what they saw at the start. -/
structure HoleInv (disk : DiskInterface) (inum : UInt64) (m₀ : Image) (s : WriteState)
    (blocks : ℕ → UInt64) : Prop where
  file : OpenFile disk inum s.image (inodeAt disk s.image inum.toNat) blocks
  entries : Entries disk (inodeAt disk s.image inum.toNat) s.image blocks
  near : ∀ i < 12, (blocks i).toNat < 524288
  size : (inodeAt disk s.image inum.toNat).size.toNat ≤ directBytes
  bytes : ∀ x, blocks (x / usableBlockSize) ≠ 0 →
    fileByte s.image blocks x = (s.written x).getD 0
  unwritten : ∀ x, blocks (x / usableBlockSize) = 0 → s.written x = none
  look : ∀ b < disk.totalBlocks.toNat, blockBit m₀ b = true → LooksAlike (m₀ b) (s.image b)
  bit : ∀ b < disk.totalBlocks.toNat, blockBit m₀ b = true → blockBit s.image b = true

/-- The pages of the direct range. -/
theorem filePages_direct {k : ℕ} (hk : o + k ≤ directBytes) : filePages o k ⊆ {i | i < 12} := by
  have hpage : usableBlockSize = 4092 := rfl
  have hbytes : directBytes = 49104 := rfl
  rintro i ⟨x, hlo, hhi, rfl⟩
  show x / usableBlockSize < 12
  rw [hpage]
  omega

theorem pageCount_direct {k : ℕ} (hk : o + k ≤ directBytes) (hpos : 0 < k) :
    o / usableBlockSize + pageCount o k ≤ 12 := by
  have hpage : usableBlockSize = 4092 := rfl
  have hbytes : directBytes = 49104 := rfl
  rw [pageCount, if_neg (by omega), hpage]
  omega

namespace HoleInv

variable (H : HoleInv disk inum m₀ s blocks)
include H

/-- The file is found. -/
theorem regular (F : RegularFile disk m₀ path inum)
    (hlookup : Within disk.mapping (fun b => b < disk.totalBlocks.toNat ∧ blockBit m₀ b = true)
      (itemSearch disk path) m₀) : RegularFile disk s.image path inum :=
  ⟨⟨H.file.layout, F.ne_zero, F.capacity, H.file.own⟩,
    (blind_itemSearch disk path).run_eq (fun b hb => H.look b hb.1 hb.2) hlookup F.lookup⟩

/-- A read is right exactly when it has no hole. -/
theorem readsZeros_iff (F : RegularFile disk s.image path inum) (hn : 0 < n.toNat)
    (ho : o < (inodeAt disk s.image inum.toNat).size.toNat) :
    ReadsZeros disk path inum s o n ↔ NoHole disk inum s o n := by
  obtain ⟨k, hk⟩ : ∃ k, k = bytesFound disk inum s o n := ⟨_, rfl⟩
  have hk' := hk
  rw [bytesFound] at hk'
  have hsize := H.size
  have hk0 : k ≠ 0 := by omega
  have hdirect : filePages o k ⊆ {i | i < 12} := filePages_direct (by omega)
  rw [ReadsZeros, NoHole, ← hk, F.run_nbtrfsRead_eq]
  by_cases hsum : o + n.toNat < 18446744073709551616
  · rw [readInode_clip hk' hk0 hsize hsum]
    by_cases hhole : ∃ i ∈ filePages o k, blocks i = 0
    · obtain ⟨i, hi, hfree⟩ := hhole
      obtain ⟨buf, hrun⟩ := run_readPages_hole H.file.mapped H.entries H.near le_rfl hdirect hi
        hfree []
      constructor
      · intro hread
        rw [hrun] at hread
        obtain ⟨hpair, -⟩ := Prod.mk.inj (Option.some.inj hread)
        have hrv := (Prod.mk.inj hpair).1
        omega
      · rintro ⟨-, hmapped⟩
        have hne := hmapped i hi
        rw [← H.entries.eq_directEntry (hdirect hi)] at hne
        exact absurd hfree hne
    · push Not at hhole
      have hread := run_readPages (H.file.mapped.mono hhole)
        (fun i hi => ⟨H.near i (hdirect hi), fun _ => H.file.near⟩) (le_refl k) subset_rfl []
      rw [List.length_nil, Nat.zero_add, List.nil_append] at hread
      have hbytes : ((List.range k).map fun i => fileByte s.image blocks (o + i)) =
          (List.range k).map fun i => (s.written (o + i)).getD 0 := by
        apply List.map_congr_left
        intro i hi
        have hlt := List.mem_range.mp hi
        exact H.bytes _ (hhole _ (Paged.mem_pagesOf (Nat.le_add_right o i) (by omega)))
      rw [hbytes] at hread
      refine ⟨fun _ => ⟨hsum, fun i hi => ?_⟩, fun _ => hread⟩
      rw [← H.entries.eq_directEntry (hdirect hi)]
      exact hhole i hi
  · rw [readInode_wrap ho hsize (by omega), run_pure]
    constructor
    · intro hread
      obtain ⟨hpair, -⟩ := Prod.mk.inj (Option.some.inj hread)
      have hrv := (Prod.mk.inj hpair).1
      omega
    · rintro ⟨hlt, -⟩
      exact absurd hlt hsum

end HoleInv

/-- Under a path of two components or more nothing is read, holes or not. -/
theorem not_readsZeros_of_nested (hslashes : 2 ≤ path.count slash) :
    ¬ReadsZeros disk path inum s o n := by
  intro hread
  have hrv : (bytesFound disk inum s o n : ℤ) = -2 :=
    congrArg Prod.fst (run_nbtrfsRead_nested hslashes hread)
  omega

/-- A call that fits goes through. It takes blocks for its own pages only, and the file reaches to its
end unless the loop was left for lack of space. -/
theorem HoleInv.exists_write (H : HoleInv disk inum m₀ s blocks)
    (F : RegularFile disk s.image path inum) (op : WriteCall) (hvalid : op.Valid) {far : Prop}
    (hfar : far → FarTaken disk s.image)
    (hfits : PagesFit (directEntry (inodeAt disk s.image inum.toNat))
      (inodeAt disk s.image inum.toNat).indirectBlock far op.offset directBytes
      (pageCount op.offset op.size.toNat) (op.offset / usableBlockSize) (nearFree disk s.image))
    (host : Host) :
    ∃ (w : ℕ) (m' : Image) (blocks' : ℕ → UInt64),
      run disk.mapping (nbtrfsWrite disk host path op.buf op.size op.offset) s.image =
        some ((w : ℤ), m') ∧
      OpenFile disk inum m' (inodeAt disk m' inum.toNat) blocks' ∧
      Wrote disk s.image blocks m' blocks' op.offset w op.buf ∧
      Entries disk (inodeAt disk m' inum.toNat) m' blocks' ∧
      (inodeAt disk m' inum.toNat).size.toNat ≤ directBytes ∧
      (¬far → op.offset + op.size.toNat ≤ (inodeAt disk m' inum.toNat).size.toNat) := by
  obtain ⟨hpos, hend⟩ := hvalid
  have hbytes : directBytes = 49104 := rfl
  have hcount := pageCount_direct hend hpos
  have hfit : PagesFit blocks (inodeAt disk s.image inum.toNat).indirectBlock far op.offset
      directBytes (pageCount op.offset op.size.toNat) (op.offset / usableBlockSize)
      (nearFree disk s.image) :=
    PagesFit.congr hfits fun j _ hj => H.entries.eq_directEntry (by omega)
  obtain ⟨w, m₁, node₁, blocks₁, m', hrun, O₁, W₁, hsize₁, hcase, E₁⟩ :=
    F.run_nbtrfsWrite_fit H.file H.entries (by omega) hfar hfit host op.buf
  have E₁ := E₁ (filePages_direct hend)
  have hold := H.size
  refine ⟨w, m', blocks₁, hrun, ?_⟩
  rcases hcase with ⟨hw, hgrow⟩ | ⟨hsame, hf, hw, -⟩
  · -- the size is updated
    obtain ⟨node', O', W', hsize', E'⟩ := O₁.exists_grown W₁ (by omega) (Or.inl hgrow)
    rw [hsize₁] at hsize'
    obtain rfl := O'.stored
    exact ⟨O', W', E' E₁, by omega, fun _ => by omega⟩
  · -- the loop was left
    obtain rfl := O₁.stored
    rw [hsame]
    exact ⟨O₁, W₁, E₁, by rw [hsize₁]; exact hold, fun hnot => absurd hf hnot⟩

/-- The invariant after a call. -/
theorem HoleInv.after {op : WriteCall} {w : ℕ} {m' : Image} {blocks₁ : ℕ → UInt64}
    (H : HoleInv disk inum m₀ s blocks)
    (O' : OpenFile disk inum m' (inodeAt disk m' inum.toNat) blocks₁)
    (W' : Wrote disk s.image blocks m' blocks₁ op.offset w op.buf)
    (E' : Entries disk (inodeAt disk m' inum.toNat) m' blocks₁)
    (hsize' : (inodeAt disk m' inum.toNat).size.toNat ≤ directBytes) :
    HoleInv disk inum m₀ ⟨m', fun x =>
      if op.offset ≤ x ∧ x < op.offset + ((w : ℕ) : ℤ).toNat then some (op.buf (x - op.offset))
      else s.written x⟩ blocks₁ := by
  refine ⟨O', E', fun i hi => ?_, hsize', fun x hx => ?_, fun x hx => ?_, fun b hb hset => ?_,
    fun b hb hset => W'.bit b hb (H.bit b hb hset)⟩
  · by_cases hne : blocks₁ i = 0
    · rw [hne]
      decide
    · rcases W'.taken i hne with hold | ⟨-, hnear⟩
      · rw [W'.kept i hold]
        exact H.near i hi
      · exact hnear
  · show _ = Option.getD (if op.offset ≤ x ∧ x < op.offset + ((w : ℕ) : ℤ).toNat then _ else _) 0
    rw [Int.toNat_natCast]
    by_cases hin : op.offset ≤ x ∧ x < op.offset + w
    · rw [if_pos hin]
      exact (W'.new x hin.1 hin.2).2.2
    · rw [if_neg hin, W'.old x (by omega) hx]
      by_cases hold : blocks (x / usableBlockSize) = 0
      · rw [if_neg (not_not.mpr hold), H.unwritten x hold]
        rfl
      · rw [if_pos hold, H.bytes x hold]
  · show (if op.offset ≤ x ∧ x < op.offset + ((w : ℕ) : ℤ).toNat then _ else _) = none
    rw [Int.toNat_natCast]
    by_cases hin : op.offset ≤ x ∧ x < op.offset + w
    · exact absurd hx (W'.new x hin.1 hin.2).1
    · rw [if_neg hin]
      refine H.unwritten x ?_
      by_contra hold
      rw [W'.kept _ hold] at hx
      exact hold hx
  · exact (H.look b hb hset).trans (W'.look b hb (H.bit b hb hset))

/-- A call that fits keeps the invariant. -/
theorem WriteCall.step_of_fits {op : WriteCall} (H : HoleInv disk inum m₀ s blocks)
    (F : RegularFile disk s.image path inum) (hvalid : op.Valid) (hfits : op.Fits disk inum s) :
    ∃ s' blocks', op.step disk host path s = some s' ∧ HoleInv disk inum m₀ s' blocks' := by
  obtain ⟨w, m', blocks', hrun, O', W', E', hsize', -⟩ := H.exists_write F op hvalid id hfits host
  refine ⟨_, blocks', ?_, H.after O' W' E' hsize'⟩
  rw [step, hrun]
  rfl

/-! ## Reads after any calls -/

/-- An inode without blocks and bytes. -/
structure EmptyInode (node : Inode) : Prop where
  size : node.size = 0
  direct : ∀ i : Fin 12, node.directBlocks[i] = 0
  indirect : node.indirectBlock = 0

theorem EmptyInode.directEntry_eq (h : EmptyInode node) (i : ℕ) : directEntry node i = 0 := by
  rw [directEntry]
  split
  · next hi => exact h.direct ⟨i, hi⟩
  · rfl

/-- An empty file before the first call. -/
theorem HoleInv.init (F : RegularFile disk m path inum)
    (hmarked : ∀ b < dataStart disk.totalBlocks.toNat, blockBit m b = true)
    (hempty : EmptyInode (inodeAt disk m inum.toNat)) :
    HoleInv disk inum m ⟨m, fun _ => none⟩ fun _ => 0 := by
  have hmax : maxIndex = 511 := rfl
  have hentries : Entries disk (inodeAt disk m inum.toNat) m fun _ => 0 := by
    intro i hi
    have hnat : (UInt64.ofNat i).toNat = i := toNat_ofNat_block (by omega)
    by_cases hlo : i < 12
    · have hy : Yields disk (inodeAt disk m inum.toNat) m (UInt64.ofNat i)
        (inodeAt disk m inum.toNat).directBlocks[(UInt64.ofNat i).toNat] :=
        Yields.direct (by omega)
      have hdirect := hempty.direct ⟨i, hlo⟩
      simp only [hnat] at hy
      rwa [show (inodeAt disk m inum.toNat).directBlocks[i] = 0 from hdirect] at hy
    · exact Yields.none (by omega) hempty.indirect
  have hpos : 0 < disk.totalBlocks.toNat :=
    (dataStart_pos disk.totalBlocks.toNat).trans_le F.layout.le_total
  exact {
    file := {
      layout := F.layout
      marked := hmarked
      capacity := F.capacity
      own := F.own
      stored := rfl
      mapped := {
        le := fun i hi => absurd rfl hi
        yields := fun i hi => absurd rfl hi
        ne_zero := fun i hi => absurd rfl hi
        lt_total := fun i hi => absurd rfl hi
        behind := fun i hi => absurd rfl hi
        type := fun i hi => absurd rfl hi
        ne_indirect := fun i hi => absurd rfl hi
        indirect_lt := fun i hi => absurd rfl hi
        inj := fun i hi => absurd rfl hi }
      used := fun i hi => absurd rfl hi
      near := by
        show (inodeAt disk m inum.toNat).indirectBlock.toNat < 524288
        rw [hempty.indirect]
        decide
      indirect_lt := by
        show (inodeAt disk m inum.toNat).indirectBlock.toNat < disk.totalBlocks.toNat
        rwa [hempty.indirect]
      indirect := fun hne => absurd hempty.indirect hne }
    entries := hentries
    near := fun _ _ => by
      show (0 : UInt64).toNat < 524288
      decide
    size := by
      show (inodeAt disk m inum.toNat).size.toNat ≤ directBytes
      rw [hempty.size]
      exact Nat.zero_le _
    bytes := fun _ hx => absurd rfl hx
    unwritten := fun _ _ => rfl
    look := fun b _ _ => LooksAlike.refl _
    bit := fun _ _ h => h }

/-- From an empty file, in every state that calls reach which take no block from `2 ^ 19` on, a read of
bytes of the file is right exactly when it has no hole. -/
theorem writeRun_readsZeros (F : RegularFile disk m path inum)
    (hmarked : ∀ b < dataStart disk.totalBlocks.toNat, blockBit m b = true)
    (hlookup : Within disk.mapping (fun b => b < disk.totalBlocks.toNat ∧ blockBit m b = true)
      (itemSearch disk path) m)
    (hempty : EmptyInode (inodeAt disk m inum.toNat)) {ops : List WriteCall}
    (hvalid : Admits (WriteCall.step disk host path) (fun op _ => op.Valid) ops ⟨m, fun _ => none⟩)
    (hfits : Admits (WriteCall.step disk host path) (WriteCall.Fits disk inum) ops
      ⟨m, fun _ => none⟩) :
    SafeRun (WriteCall.step disk host path) (fun _ _ s' => ∀ o n, 0 < n.toNat →
      o < (inodeAt disk s'.image inum.toNat).size.toNat →
      (ReadsZeros disk path inum s' o n ↔ NoHole disk inum s' o n)) ops ⟨m, fun _ => none⟩ := by
  have hinit := HoleInv.init F hmarked hempty
  refine SafeRun.of_invariant (fun s => ∃ blocks, HoleInv disk inum m s blocks) ?_ ⟨_, hinit⟩
    (hvalid.and hfits)
  rintro op s ⟨blocks, H⟩ ⟨hv, hf⟩
  obtain ⟨s', blocks', hstep, H'⟩ := WriteCall.step_of_fits H (H.regular F hlookup) hv hf
  exact ⟨s', hstep, fun o n hn ho => H'.readsZeros_iff (H'.regular F hlookup) hn ho, blocks', H'⟩

/-! ## A volume of 256 blocks -/

/-- On a fresh volume of 256 blocks, the empty file `/a`. -/
theorem exists_emptyFile : ∃ m, RegularFile ⟨256, by decide⟩ m [slash, 97] 1 ∧
    (∀ b < dataStart 256, blockBit m b = true) ∧
    Within (DiskInterface.mapping ⟨256, by decide⟩) (fun b => b < 256 ∧ blockBit m b = true)
      (itemSearch ⟨256, by decide⟩ [slash, 97]) m ∧
    EmptyInode (inodeAt ⟨256, by decide⟩ m (UInt64.toNat 1)) ∧
    3 ≤ nearFree ⟨256, by decide⟩ m := by
  obtain ⟨m₀, -, F⟩ := run_diskFormat_blank ⟨256, by decide⟩ 0 0 0
    (show ([] : List UInt8).length ≤ 31 by decide) (blank_zero _) (by decide) (by decide)
  obtain ⟨m, hfile, hnode, -, hbits, hlookup⟩ := F.exists_found
    { zeroInode with inodeNumber := 1 } (by decide) (by decide) rfl
  have hstart : dataStart 256 + 2 ≤ 255 := by decide
  refine ⟨m, hfile, fun b hb => ?_, hlookup, ?_, ?_⟩
  · rw [hbits b (by show b < 256; omega)]
    exact decide_eq_true (by show b < dataStart 256 + 2; omega)
  · show EmptyInode (inodeAt _ m 1)
    rw [hnode]
    exact ⟨rfl, by decide, rfl⟩
  · rw [nearFree_of_taken hbits]
    decide

/-- There 5000 bytes are written from offset 4000 on, into three pages. -/
theorem writeRun_readsZeros_256 : ∃ m, RegularFile ⟨256, by decide⟩ m [slash, 97] 1 ∧
    SafeRun (WriteCall.step ⟨256, by decide⟩ ⟨0, 0, 0, fun _ => 0⟩ [slash, 97])
      (fun _ _ s' => ∀ o n, 0 < n.toNat →
        o < (inodeAt ⟨256, by decide⟩ s'.image (UInt64.toNat 1)).size.toNat →
        (ReadsZeros ⟨256, by decide⟩ [slash, 97] 1 s' o n ↔ NoHole ⟨256, by decide⟩ 1 s' o n))
      [⟨fun _ => 7, 5000, 4000⟩] ⟨m, fun _ => none⟩ := by
  obtain ⟨m, F, hmarked, hlookup, hempty, hroom⟩ := exists_emptyFile
  refine ⟨m, F, writeRun_readsZeros F hmarked hlookup hempty
    ⟨⟨by decide, by decide⟩, fun _ _ => trivial⟩ ⟨?_, fun _ _ => trivial⟩⟩
  show PagesFit _ _ _ 4000 directBytes 3 0 _
  exact pagesFit_of_unmapped (fun i _ _ => hempty.directEntry_eq i) (by decide) hroom

/-- There, after one byte was written behind the first page, a read of the first byte fails. -/
theorem not_writeRun_readsZeros_256 : ∃ m s', RegularFile ⟨256, by decide⟩ m [slash, 97] 1 ∧
    EmptyInode (inodeAt ⟨256, by decide⟩ m (UInt64.toNat 1)) ∧
    WriteCall.step ⟨256, by decide⟩ ⟨0, 0, 0, fun _ => 0⟩ [slash, 97] ⟨fun _ => 7, 1, 4092⟩
      ⟨m, fun _ => none⟩ = some s' ∧
    0 < (inodeAt ⟨256, by decide⟩ s'.image (UInt64.toNat 1)).size.toNat ∧
    ¬ReadsZeros ⟨256, by decide⟩ [slash, 97] 1 s' 0 1 := by
  obtain ⟨m, F, hmarked, hlookup, hempty, hroom⟩ := exists_emptyFile
  have H := HoleInv.init F hmarked hempty
  obtain ⟨w, m', blocks', hrun, O', W', E', hsize', hreach⟩ :=
    H.exists_write F ⟨fun _ => 7, 1, 4092⟩ ⟨by decide, by decide⟩ False.elim (by
      have hcount : pageCount 4092 (UInt64.toNat 1) = 1 := by decide
      have hpage : 4092 / usableBlockSize = 1 := rfl
      simp only [hcount, hpage]
      exact pagesFit_of_unmapped (fun i _ _ => hempty.directEntry_eq i) (by decide) (by omega))
      ⟨0, 0, 0, fun _ => 0⟩
  have H' := H.after O' W' E' hsize'
  obtain ⟨s', hs'⟩ : ∃ s' : WriteState, s' = ⟨m', fun x =>
      if 4092 ≤ x ∧ x < 4092 + ((w : ℕ) : ℤ).toNat then some 7 else none⟩ := ⟨_, rfl⟩
  have himage : s'.image = m' := by rw [hs']
  rw [← hs'] at H'
  have hpos : 4092 + 1 ≤ (inodeAt ⟨256, by decide⟩ s'.image (UInt64.toNat 1)).size.toNat := by
    rw [himage]
    exact hreach not_false
  refine ⟨m, s', F, hempty, ?_, by omega, fun hreads => ?_⟩
  · rw [WriteCall.step, hrun, hs']
    rfl
  -- the first page has no block
  have hhole : blocks' 0 = 0 := by
    by_contra hne
    rcases W'.taken 0 hne with hold | ⟨hle, -⟩
    · exact hold rfl
    · exact absurd hle (by decide)
  obtain ⟨-, hmapped⟩ := (H'.readsZeros_iff (H'.regular F hlookup) (by decide)
    (by omega)).mp hreads
  refine hmapped 0 ⟨0, le_rfl, ?_, by decide⟩ ?_
  · rw [bytesFound]
    show 0 < 0 + min 1 _
    omega
  · rw [← H'.entries.eq_directEntry (by decide)]
    exact hhole

end Nbtrfs
