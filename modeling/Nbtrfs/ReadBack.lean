import Nbtrfs.FileData
import Nbtrfs.Lookup

/-!
# Writing a file and reading it back

Reference: `fuse.c::nbtrfs_read`, `fuse.c::nbtrfs_write`.

On mapped pages `nbtrfs_write` and `nbtrfs_read` work on one flat array of bytes, as long as the blocks
that they touch lie below `2 ^ 19`. From there on `disk_get_block` computes an address in front of the
mapping.
-/

namespace Nbtrfs

open BlockProg Bytes

variable {disk : DiskInterface} {m m' m₁ : Image} {node : Inode} {blocks : ℕ → UInt64} {S T : Set ℕ}
  {inum : UInt64} {path : CString} {o w : ℕ} {n : UInt64} {buf : Bytes} {host : Host}

/-! ## What a write keeps -/

theorem LooksAlike.trans {a b c : Bytes} (h : LooksAlike a b) (h' : LooksAlike b c) :
    LooksAlike a c where
  type := h'.type.trans h.type
  node ht := (h'.node (h.type.trans ht)).trans (h.node ht)
  root ht := (h'.root (h.type.trans ht)).trans (h.root ht)

theorem looksAlike_putInode (L : Layout disk.mapping disk m) {k : ℕ}
    (hk : k < inodeCapacity disk.totalBlocks.toNat) (b : ℕ) :
    LooksAlike (m b) (putInode disk m k node b) := by
  by_cases hb : b = slotBlock disk k
  · subst hb
    have htype := L.type_slotBlock hk
    exact LooksAlike.of_type htype (by rw [blockType_putInode, htype]) (by decide) (by decide)
  · rw [putInode, Function.update_of_ne hb]
    exact LooksAlike.refl _

namespace Patched

theorem of_lt (h : MappedPages disk m node blocks S) (hp : Patched m m₁ blocks S o w buf) {b : ℕ}
    (hb : b < dataStart disk.totalBlocks.toNat) : m₁ b = m b :=
  hp.other b fun i hi => by
    have := h.behind i hi
    omega

theorem looksAlike (h : MappedPages disk m node blocks S) (hp : Patched m m₁ blocks S o w buf)
    (b : ℕ) : LooksAlike (m b) (m₁ b) := by
  by_cases hb : ∃ i ∈ S, b = (blocks i).toNat
  · obtain ⟨i, hi, rfl⟩ := hb
    have htype := h.type i hi
    exact LooksAlike.of_type htype (by rw [hp.type, htype]) (by decide) (by decide)
  · push Not at hb
    rw [hp.other b hb]
    exact LooksAlike.refl _

theorem layout (h : MappedPages disk m node blocks S) (hp : Patched m m₁ blocks S o w buf)
    (L : Layout disk.mapping disk m) : Layout disk.mapping disk m₁ := by
  have h0 := hp.of_lt h (dataStart_pos disk.totalBlocks.toNat)
  exact L.congr (by rw [h0]) (by rw [h0]) fun b _ => hp.type b

theorem inodeAt (h : MappedPages disk m node blocks S) (hp : Patched m m₁ blocks S o w buf) {k : ℕ}
    (hk : k < inodeCapacity disk.totalBlocks.toNat) : inodeAt disk m₁ k = inodeAt disk m k := by
  rw [Nbtrfs.inodeAt, Nbtrfs.inodeAt, hp.of_lt h (slotBlock_lt hk)]

/-- What was written, seen on more pages of the file. -/
theorem extend (h : MappedPages disk m node blocks T) (hST : S ⊆ T)
    (hS : ∀ x, o ≤ x → x < o + w → x / usableBlockSize ∈ S) (hp : Patched m m₁ blocks S o w buf) :
    Patched m m₁ blocks T o w buf where
  byte x hx := by
    by_cases hin : x / usableBlockSize ∈ S
    · exact hp.byte x hin
    · have hpage : m₁ (blocks (x / usableBlockSize)).toNat = m (blocks (x / usableBlockSize)).toNat :=
        hp.other _ fun i hi heq => hin (h.inj_toNat hx (hST hi) heq ▸ hi)
      have hold : ¬(o ≤ x ∧ x < o + w) := by
        rintro ⟨hlo, hhi⟩
        exact hin (hS x hlo hhi)
      rw [if_neg hold, fileByte, fileByte, Paged.byteAt, Paged.byteAt, hpage]
  type := hp.type
  other b hb := hp.other b fun i hi => hb i (hST hi)

end Patched

/-! ## The size -/

/-- The image after the size update at the end of `nbtrfs_write`. -/
def growInode (disk : DiskInterface) (m : Image) (k : ℕ) (size : ℕ) : Image :=
  if (inodeAt disk m k).size < UInt64.ofNat size then
    putInode disk m k { inodeAt disk m k with size := UInt64.ofNat size }
  else m

theorem growInode_of_ne {k size b : ℕ} (hb : b ≠ slotBlock disk k) :
    growInode disk m k size b = m b := by
  rw [growInode]
  split
  · rw [putInode, Function.update_of_ne hb]
  · rfl

theorem Layout.growInode (L : Layout disk.mapping disk m) (k size : ℕ) :
    Layout disk.mapping disk (growInode disk m k size) := by
  rw [Nbtrfs.growInode]
  split
  · exact L.putInode _ _
  · exact L

theorem looksAlike_growInode (L : Layout disk.mapping disk m) {k : ℕ}
    (hk : k < inodeCapacity disk.totalBlocks.toNat) (size b : ℕ) :
    LooksAlike (m b) (growInode disk m k size b) := by
  rw [growInode]
  split
  · exact looksAlike_putInode L hk b
  · exact LooksAlike.refl _

/-- Only the size changes, to the larger one. -/
theorem inodeAt_growInode (disk : DiskInterface) (m : Image) (k : ℕ) {size : ℕ}
    (hsize : size < 18446744073709551616) :
    ∃ s : UInt64, inodeAt disk (growInode disk m k size) k = { inodeAt disk m k with size := s } ∧
      s.toNat = max (inodeAt disk m k).size.toNat size := by
  have hnat : (UInt64.ofNat size).toNat = size := UInt64.toNat_ofNat_of_lt' hsize
  rw [growInode]
  split
  next hlt =>
    rw [UInt64.lt_iff_toNat_lt, hnat] at hlt
    exact ⟨UInt64.ofNat size, inodeAt_putInode_self, by rw [hnat, max_eq_right hlt.le]⟩
  next hle =>
    rw [UInt64.lt_iff_toNat_lt, hnat] at hle
    exact ⟨(inodeAt disk m k).size, rfl, (max_eq_left (Nat.le_of_not_lt hle)).symm⟩

/-! ## The two operations -/

namespace RegularFile

variable (F : RegularFile disk m path inum)
include F

theorem run_inodeRead : run disk.mapping (inodeRead inum) m =
    some (some (Nbtrfs.inodeAt disk m inum.toNat), m) := F.layout.run_inodeRead_slot F.capacity

/-- `nbtrfs_write` of an existing file goes on with its inode. -/
theorem run_nbtrfsWrite_eq (host : Host) (buf : Bytes) (n : UInt64) (o : ℕ) :
    run disk.mapping (nbtrfsWrite disk host path buf n o) m =
      run disk.mapping (writeInode disk (Nbtrfs.inodeAt disk m inum.toNat) buf n o) m := by
  have hcopy : run disk.mapping (inodeCopy inum) m =
      some (Nbtrfs.inodeAt disk m inum.toNat, m) := by
    rw [inodeCopy, run_bind_of_eq F.run_inodeRead]
    rfl
  rw [nbtrfsWrite, run_bind_of_eq F.lookup]
  simp only
  rw [if_neg fun h => F.ne_zero h.1, if_neg (not_not.mpr rfl), writeItem, run_bind_of_eq hcopy]

/-- `nbtrfs_read` of an existing file goes on with its inode. -/
theorem run_nbtrfsRead_eq (n : UInt64) (o : ℕ) :
    run disk.mapping (nbtrfsRead disk path n o) m =
      run disk.mapping (readInode (Nbtrfs.inodeAt disk m inum.toNat) n o) m := by
  rw [nbtrfsRead, run_bind_of_eq F.lookup]
  simp only
  rw [if_neg fun h => F.ne_zero h.1, if_neg (not_not.mpr rfl), run_bind_of_eq F.run_inodeRead]

/-- The file is found on every image that a lookup cannot tell apart. -/
theorem congr (L : Layout disk.mapping disk m') (hlike : ∀ b, LooksAlike (m b) (m' b))
    (hown : (Nbtrfs.inodeAt disk m' inum.toNat).inodeNumber = inum) :
    RegularFile disk m' path inum where
  layout := L
  ne_zero := F.ne_zero
  capacity := F.capacity
  own := hown
  lookup := (blind_itemSearch disk path).run_eq (fun b _ => hlike b)
    (within_all (fun _ => trivial) _) F.lookup

/-- On mapped pages `nbtrfs_write` copies everything and updates the size. -/
theorem run_nbtrfsWrite (h : MappedPages disk m (Nbtrfs.inodeAt disk m inum.toNat) blocks
      (filePages o n.toNat))
    (hnear : NearPages (Nbtrfs.inodeAt disk m inum.toNat) blocks (filePages o n.toNat))
    (hn : n.toNat < 2147483648) (host : Host) (buf : Bytes) :
    ∃ m₁, run disk.mapping (nbtrfsWrite disk host path buf n o) m =
        some ((n.toNat : ℤ), growInode disk m₁ inum.toNat (o + n.toNat)) ∧
      Patched m m₁ blocks (filePages o n.toNat) o n.toNat buf := by
  obtain ⟨m₁, hrun, hp⟩ := run_writePages (w := 0) h hnear (le_refl n.toNat) subset_rfl
    (Patched.refl m blocks _ o buf)
  rw [Nat.add_zero, Nat.zero_add] at hrun
  rw [Nat.zero_add] at hp
  refine ⟨m₁, ?_, hp⟩
  have hnode := hp.inodeAt h F.capacity
  have hwrite := (hp.layout h F.layout).run_inodeWrite_slot
    { Nbtrfs.inodeAt disk m inum.toNat with size := UInt64.ofNat (o + n.toNat) }
    (by rw [F.own]; exact F.capacity)
  rw [F.run_nbtrfsWrite_eq, writeInode]
  simp only [int32_of_lt hn, Int.toNat_natCast]
  rw [run_bind_of_eq hrun]
  simp only
  rw [growInode, hnode]
  by_cases hlt : (Nbtrfs.inodeAt disk m inum.toNat).size < UInt64.ofNat (o + n.toNat)
  · rw [if_pos hlt, if_pos hlt, run_bind_of_eq hwrite, run_pure]
    simp only [F.own]
  · rw [if_neg hlt, if_neg hlt, run_pure]

end RegularFile

theorem MappedPages.lt_end (h : MappedPages disk m node blocks S) {x : ℕ}
    (hx : x / usableBlockSize ∈ S) : x < 2095104 := by
  have hle := h.le _ hx
  simp only [maxIndex, usableBlockSize] at hle
  omega

/-- The size of an inode has no part in where its pages are. -/
theorem nearPages_resize (s : UInt64) :
    NearPages { node with size := s } blocks S ↔ NearPages node blocks S := Iff.rfl

/-- The size update leaves the pages as they are. -/
theorem MappedPages.grow (h : MappedPages disk m node blocks S) (L : Layout disk.mapping disk m)
    {k : ℕ} (hk : k < inodeCapacity disk.totalBlocks.toNat) (size : ℕ) (s : UInt64) :
    MappedPages disk (growInode disk m k size) { node with size := s } blocks S where
  le := h.le
  yields i hi := (h.yields i hi).congr (h.ne_zero i hi) rfl rfl fun _ b _ htype => by
    refine growInode_of_ne ?_
    rintro rfl
    rw [L.type_slotBlock hk] at htype
    exact absurd htype (by decide)
  ne_zero := h.ne_zero
  lt_total := h.lt_total
  behind := h.behind
  type i hi := by
    have hbehind := h.behind i hi
    have hslot := slotBlock_lt hk
    rw [growInode_of_ne (by omega), h.type i hi]
  ne_indirect := h.ne_indirect
  indirect_lt := h.indirect_lt
  inj := h.inj

/-- What `nbtrfs_write` on mapped pages leaves: the file with its size, the bytes, and the pages of the
file where they were. -/
theorem RegularFile.write_mapped (F : RegularFile disk m path inum)
    (h : MappedPages disk m (inodeAt disk m inum.toNat) blocks (filePages o n.toNat))
    (hnear : NearPages (inodeAt disk m inum.toNat) blocks (filePages o n.toNat))
    (hpos : 0 < n.toNat) (hn : n.toNat < 2147483648) (host : Host) (buf : Bytes) :
    ∃ m' s, run disk.mapping (nbtrfsWrite disk host path buf n o) m = some ((n.toNat : ℤ), m') ∧
      RegularFile disk m' path inum ∧
      inodeAt disk m' inum.toNat = { inodeAt disk m inum.toNat with size := s } ∧
      s.toNat = max (inodeAt disk m inum.toNat).size.toNat (o + n.toNat) ∧
      ∀ T, filePages o n.toNat ⊆ T → MappedPages disk m (inodeAt disk m inum.toNat) blocks T →
        (∀ i ∈ T, 12 ≤ i → (inodeAt disk m inum.toNat).indirectBlock.toNat < 524288) →
        MappedPages disk m' { inodeAt disk m inum.toNat with size := s } blocks T ∧
        ∀ x, x / usableBlockSize ∈ T → fileByte m' blocks x =
          if o ≤ x ∧ x < o + n.toNat then buf (x - o) else fileByte m blocks x := by
  obtain ⟨m₁, hrun, hp⟩ := F.run_nbtrfsWrite h hnear hn host buf
  have L₁ := hp.layout h F.layout
  have hnode := hp.inodeAt h F.capacity
  have hlast := h.lt_end (Paged.mem_pagesOf (x := o + n.toNat - 1) (by omega) (by omega))
  obtain ⟨s, hs, hsize⟩ := inodeAt_growInode disk m₁ inum.toNat
    (show o + n.toNat < 18446744073709551616 by omega)
  rw [hnode] at hs hsize
  refine ⟨_, s, hrun, ?_, hs, hsize, ?_⟩
  · refine F.congr (L₁.growInode _ _) (fun b => (hp.looksAlike h b).trans
      (looksAlike_growInode L₁ F.capacity _ b)) ?_
    rw [hs]
    exact F.own
  · intro T hT hmapped hindirect
    have hpT := hp.extend hmapped hT fun x hlo hhi => Paged.mem_pagesOf hlo hhi
    have hT₁ := hmapped.patched hindirect hpT
    refine ⟨hT₁.grow L₁ F.capacity _ s, fun x hx => ?_⟩
    have hbehind := hmapped.behind _ hx
    have hslot := slotBlock_lt F.capacity
    rw [← hpT.byte x hx, fileByte, fileByte, Paged.byteAt, Paged.byteAt,
      growInode_of_ne (by omega)]

/-- How many bytes a read finds, and the arguments of the loop. -/
theorem readInode_eq {k : ℕ} (hk : k = min n.toNat (node.size.toNat - o))
    (hend : n.toNat ≠ 0 → o + n.toNat ≤ 2095104) :
    readInode node n o = if k = 0 then pure (0, []) else readPages node k o k [] := by
  rw [readInode]
  by_cases hzero : n.toNat = 0
  · obtain rfl : n = 0 := UInt64.toNat_inj.mp hzero
    obtain rfl : k = 0 := by simpa using hk
    rw [if_pos rfl]
    split
    · rfl
    next hlt =>
      have hge : ¬node.size < UInt64.ofNat o := fun h => hlt (UInt64.le_of_lt h)
      simp [hge]
  · have hend := hend hzero
    have ho : (UInt64.ofNat o).toNat = o := toNat_ofNat_block (by omega)
    have hsum : (UInt64.ofNat o + n).toNat = o + n.toNat := by
      rw [UInt64.toNat_add, ho, Nat.mod_eq_of_lt (by omega)]
    simp only [UInt64.le_iff_toNat_le, UInt64.lt_iff_toNat_lt, ho, hsum]
    by_cases hpast : node.size.toNat ≤ o
    · rw [if_pos hpast, if_pos (by omega)]
    · have hk0 : k ≠ 0 := by omega
      rw [if_neg hpast, if_neg hk0]
      have hsize : (if node.size.toNat < o + n.toNat then node.size - UInt64.ofNat o else n).toNat =
          k := by
        split
        next hlt =>
          rw [UInt64.toNat_sub_of_le _ _ (by rw [UInt64.le_iff_toNat_le, ho]; omega), ho]
          omega
        next hge => omega
      generalize (if node.size.toNat < o + n.toNat then node.size - UInt64.ofNat o else n) = s at *
      have hne : s ≠ 0 := by
        rintro rfl
        rw [UInt64.toNat_zero] at hsize
        omega
      rw [if_neg hne, hsize, int32_of_lt (by omega), Int.toNat_natCast]

/-- On mapped pages `nbtrfs_read` returns the bytes up to the end of the file. -/
theorem RegularFile.run_nbtrfsRead (F : RegularFile disk m path inum) {k : ℕ}
    (hk : k = min n.toNat ((inodeAt disk m inum.toNat).size.toNat - o))
    (hend : n.toNat ≠ 0 → o + n.toNat ≤ 2095104)
    (h : MappedPages disk m (inodeAt disk m inum.toNat) blocks (filePages o k))
    (hnear : NearPages (inodeAt disk m inum.toNat) blocks (filePages o k)) :
    run disk.mapping (nbtrfsRead disk path n o) m =
      some (((k : ℤ), (List.range k).map fun i => fileByte m blocks (o + i)), m) := by
  rw [F.run_nbtrfsRead_eq, readInode_eq hk hend]
  by_cases hzero : k = 0
  · subst hzero
    rw [if_pos rfl, run_pure]
    rfl
  · rw [if_neg hzero, run_readPages h hnear le_rfl subset_rfl, List.length_nil, Nat.zero_add,
      List.nil_append]

/-! ## Pages that are out of reach -/

/-- On a volume of at most `2 ^ 20` blocks the indirect block of a mapped page is within reach. -/
theorem MappedPages.indirect_near (h : MappedPages disk m node blocks S)
    (hsmall : disk.totalBlocks.toNat ≤ 1048576) {i : ℕ} (hi : i ∈ S) (hlo : 12 ≤ i) :
    node.indirectBlock.toNat < 524288 := by
  have hindex := h.index_lt hi
  obtain ⟨-, -, b, haddr, -⟩ := (h.yields i hi).exists_entry (h.ne_zero i hi) (by omega)
  exact DiskInterface.lt_of_diskGetBlock haddr ((h.indirect_lt i hi hlo).trans_le hsmall)

/-- There, a page that is not near has a block out of reach. -/
theorem MappedPages.exists_unreachable (h : MappedPages disk m node blocks S)
    (hsmall : disk.totalBlocks.toNat ≤ 1048576) (hnot : ¬NearPages node blocks S) :
    ∃ i ∈ S, disk.mapping.addr (blocks i) = none := by
  rw [NearPages] at hnot
  push Not at hnot
  obtain ⟨i, hi, hfar⟩ := hnot
  refine ⟨i, hi, DiskInterface.diskGetBlock_eq_none ?_ ((h.lt_total i hi).trans_le hsmall)⟩
  by_contra hlt
  obtain ⟨hlo, hindirect⟩ := hfar (by omega)
  have := h.indirect_near hsmall hi hlo
  omega

/-- A write to pages that the address arithmetic of `get_block` cannot reach crashes. -/
theorem RegularFile.run_nbtrfsWrite_unreachable (F : RegularFile disk m path inum)
    (h : MappedPages disk m (inodeAt disk m inum.toNat) blocks (filePages o n.toNat))
    (hsmall : disk.totalBlocks.toNat ≤ 1048576) (hn : n.toNat < 2147483648)
    (hnot : ¬NearPages (inodeAt disk m inum.toNat) blocks (filePages o n.toNat)) (host : Host)
    (buf : Bytes) : run disk.mapping (nbtrfsWrite disk host path buf n o) m = none := by
  obtain ⟨i, hi, hbad⟩ := h.exists_unreachable hsmall hnot
  have hrun := run_writePages_unreachable (w := 0) h (fun i => h.indirect_near hsmall) hsmall
    (le_refl n.toNat) subset_rfl (Patched.refl m blocks _ o buf) hi hbad
  rw [F.run_nbtrfsWrite_eq, writeInode]
  simp only [int32_of_lt hn, Int.toNat_natCast]
  exact run_bind_of_none hrun

/-- A read of pages that the address arithmetic of `get_block` cannot reach crashes. -/
theorem RegularFile.run_nbtrfsRead_unreachable (F : RegularFile disk m path inum) {k : ℕ}
    (hk : k = min n.toNat ((inodeAt disk m inum.toNat).size.toNat - o))
    (hend : n.toNat ≠ 0 → o + n.toNat ≤ 2095104)
    (h : MappedPages disk m (inodeAt disk m inum.toNat) blocks (filePages o k))
    (hsmall : disk.totalBlocks.toNat ≤ 1048576)
    (hnot : ¬NearPages (inodeAt disk m inum.toNat) blocks (filePages o k)) :
    run disk.mapping (nbtrfsRead disk path n o) m = none := by
  obtain ⟨i, hi, hbad⟩ := h.exists_unreachable hsmall hnot
  have hzero : k ≠ 0 := by
    obtain ⟨x, hlo, hhi, -⟩ := hi
    omega
  rw [F.run_nbtrfsRead_eq, readInode_eq hk hend, if_neg hzero]
  exact run_readPages_unreachable h le_rfl subset_rfl hi hbad []

/-! ## Reading back -/

/-- A write of `n` bytes at `o`, then a read of `n'` bytes at `o'`, work on the array of the bytes of
the file: the write returns `n` and extends the file, and the read returns what there is up to the end
of the file, the written bytes in place of the old ones. -/
def ReadsBack (disk : DiskInterface) (host : Host) (m : Image) (path : CString) (inum : UInt64)
    (blocks : ℕ → UInt64) (buf : Bytes) (o : ℕ) (n : UInt64) (o' : ℕ) (n' : UInt64) : Prop :=
  ∃ m' k, run disk.mapping (nbtrfsWrite disk host path buf n o) m = some ((n.toNat : ℤ), m') ∧
    (inodeAt disk m' inum.toNat).size.toNat =
      max (inodeAt disk m inum.toNat).size.toNat (o + n.toNat) ∧
    k = min n'.toNat ((inodeAt disk m' inum.toNat).size.toNat - o') ∧
    run disk.mapping (nbtrfsRead disk path n' o') m' = some (((k : ℤ), (List.range k).map fun i =>
      if o ≤ o' + i ∧ o' + i < o + n.toNat then buf (o' + i - o) else fileByte m blocks (o' + i)), m')

/-- The pages that the two calls touch. -/
def touchedPages (node : Inode) (o : ℕ) (n : UInt64) (o' : ℕ) (n' : UInt64) : Set ℕ :=
  filePages o n.toNat ∪ filePages o' (min n'.toNat (max node.size.toNat (o + n.toNat) - o'))

theorem filePages_mono {k l : ℕ} (h : k ≤ l) : filePages o k ⊆ filePages o l := by
  rintro i ⟨x, hlo, hhi, rfl⟩
  exact Paged.mem_pagesOf hlo (by omega)

/-- The two calls on a file that is found, and whose pages are mapped. -/
theorem RegularFile.readsBack (F : RegularFile disk m path inum) {o' : ℕ} {n' : UInt64}
    (hpos : 0 < n.toNat) (hn : n.toNat < 2147483648) (host : Host) (buf : Bytes)
    (h : MappedPages disk m (inodeAt disk m inum.toNat) blocks
      (filePages o n.toNat ∪ filePages o' n'.toNat)) :
    (NearPages (inodeAt disk m inum.toNat) blocks
        (touchedPages (inodeAt disk m inum.toNat) o n o' n') →
      ReadsBack disk host m path inum blocks buf o n o' n') ∧
    (disk.totalBlocks.toNat ≤ 1048576 → ReadsBack disk host m path inum blocks buf o n o' n' →
      NearPages (inodeAt disk m inum.toNat) blocks
        (touchedPages (inodeAt disk m inum.toNat) o n o' n')) := by
  have hT : touchedPages (inodeAt disk m inum.toNat) o n o' n' ⊆
      filePages o n.toNat ∪ filePages o' n'.toNat :=
    Set.union_subset_union_right _ (filePages_mono (min_le_left _ _))
  have hW : filePages o n.toNat ⊆ touchedPages (inodeAt disk m inum.toNat) o n o' n' :=
    Set.subset_union_left
  have hR : filePages o' (min n'.toNat (max (inodeAt disk m inum.toNat).size.toNat (o + n.toNat) -
      o')) ⊆ touchedPages (inodeAt disk m inum.toNat) o n o' n' := Set.subset_union_right
  have hend : n'.toNat ≠ 0 → o' + n'.toNat ≤ 2095104 := by
    intro hne
    have := h.lt_end (x := o' + n'.toNat - 1)
      (Set.mem_union_right _ (Paged.mem_pagesOf (by omega) (by omega)))
    omega
  have hmapped := h.mono hT
  constructor
  · intro hnear
    obtain ⟨m', s, hwrite, F', hnode, hsize, hafter⟩ :=
      F.write_mapped (hmapped.mono hW) (hnear.mono hW) hpos hn host buf
    obtain ⟨h', hbytes⟩ := hafter _ hW hmapped fun i hi => (hnear i hi).2
    rw [← hnode] at h'
    have hk : (inodeAt disk m' inum.toNat).size.toNat =
        max (inodeAt disk m inum.toNat).size.toNat (o + n.toNat) := by rw [hnode, hsize]
    rw [← hk] at hR
    have hnear' : NearPages (inodeAt disk m' inum.toNat) blocks
        (touchedPages (inodeAt disk m inum.toNat) o n o' n') := by rwa [hnode, nearPages_resize]
    obtain ⟨k, hmin⟩ : ∃ k, k = min n'.toNat ((inodeAt disk m' inum.toNat).size.toNat - o') :=
      ⟨_, rfl⟩
    rw [← hmin] at hR
    have hread := F'.run_nbtrfsRead hmin hend (h'.mono hR) (hnear'.mono hR)
    have hmap : ((List.range k).map fun i => fileByte m' blocks (o' + i)) =
        (List.range k).map fun i => if o ≤ o' + i ∧ o' + i < o + n.toNat then buf (o' + i - o)
          else fileByte m blocks (o' + i) := by
      apply List.map_congr_left
      intro i hi
      have hlt := List.mem_range.mp hi
      exact hbytes _ (hR (Paged.mem_pagesOf (Nat.le_add_right _ _) (by omega)))
    rw [hmap] at hread
    exact ⟨m', k, hwrite, hk, hmin, hread⟩
  · rintro hsmall ⟨m', k, hwrite, hsize, hk, hread⟩
    have hnearW : NearPages (inodeAt disk m inum.toNat) blocks (filePages o n.toNat) := by
      by_contra hnot
      rw [F.run_nbtrfsWrite_unreachable (hmapped.mono hW) hsmall hn hnot] at hwrite
      cases hwrite
    obtain ⟨m₂, s, hwrite₂, F', hnode, -, hafter⟩ :=
      F.write_mapped (hmapped.mono hW) hnearW hpos hn host buf
    obtain rfl : m₂ = m' := by
      rw [hwrite₂] at hwrite
      exact (Prod.mk.inj (Option.some.inj hwrite)).2
    obtain ⟨h', -⟩ := hafter _ hW hmapped fun i hi => hmapped.indirect_near hsmall hi
    rw [← hnode] at h'
    rw [← hsize, ← hk] at hR
    have hnearR : NearPages (inodeAt disk m inum.toNat) blocks (filePages o' k) := by
      by_contra hnot
      have hnot' : ¬NearPages (inodeAt disk m₂ inum.toNat) blocks (filePages o' k) := by
        rwa [hnode, nearPages_resize]
      rw [F'.run_nbtrfsRead_unreachable hk hend (h'.mono hR) hsmall hnot'] at hread
      cases hread
    rw [hk, hsize] at hnearR
    intro i hi
    rcases hi with hi | hi
    · exact hnearW i hi
    · exact hnearR i hi

/-- Under a path of two components or more nothing is read back. -/
theorem not_readsBack_of_nested {o' : ℕ} {n' : UInt64} (hslashes : 2 ≤ path.count slash) :
    ¬ReadsBack disk host m path inum blocks buf o n o' n' := by
  rintro ⟨m', k, -, -, -, hread⟩
  have hrv := congrArg Prod.fst (run_nbtrfsRead_nested hslashes hread)
  have hneg : (k : ℤ) = -2 := hrv
  omega

/-- On mapped pages the two calls work on the array of bytes if the file is found and the blocks of the
pages they touch lie below `2 ^ 19`; on a volume of at most `2 ^ 20` blocks, only if so. A path is one
that `item_search` finds, or one of two components or more, which it never does. -/
theorem nbtrfsWrite_readsBack (F : FileInode disk m inum)
    (hpath : Finds disk m path inum ∨ 2 ≤ path.count slash) {o' : ℕ} {n' : UInt64}
    (hpos : 0 < n.toNat) (hn : n.toNat < 2147483648) (host : Host) (buf : Bytes)
    (h : MappedPages disk m (inodeAt disk m inum.toNat) blocks
      (filePages o n.toNat ∪ filePages o' n'.toNat)) :
    (Finds disk m path inum ∧ NearPages (inodeAt disk m inum.toNat) blocks
        (touchedPages (inodeAt disk m inum.toNat) o n o' n') →
      ReadsBack disk host m path inum blocks buf o n o' n') ∧
    (disk.totalBlocks.toNat ≤ 1048576 → ReadsBack disk host m path inum blocks buf o n o' n' →
      Finds disk m path inum ∧ NearPages (inodeAt disk m inum.toNat) blocks
        (touchedPages (inodeAt disk m inum.toNat) o n o' n')) := by
  refine ⟨fun hcond => ?_, fun hsmall hback => ?_⟩
  · exact (RegularFile.readsBack ⟨F, hcond.1⟩ hpos hn host buf h).1 hcond.2
  · rcases hpath with hfinds | hslashes
    · exact ⟨hfinds, (RegularFile.readsBack ⟨F, hfinds⟩ hpos hn host buf h).2 hsmall hback⟩
    · exact absurd hback (not_readsBack_of_nested hslashes)

/-! ## A file on a fresh volume -/

theorem blockBit_putInode {node : Inode} {k b : ℕ} (hb : b < disk.totalBlocks.toNat) :
    blockBit (putInode disk m k node) b = blockBit m b := by
  have hge := slotBlock_ge disk k
  rw [inodeTableStart, inodeBitmapStart] at hge
  exact BitmapArea.bit_congr (fun c hc => Function.update_of_ne (by omega) _ _) hb

/-- On a fresh volume with room for one more node, the tree of the root directory takes a leaf. -/
theorem Fresh.exists_leaf {uid gid : UInt32} {m₀ : Image} (F : Fresh disk uid gid m₀)
    (hroom : dataStart disk.totalBlocks.toNat + 1 < disk.addressable) (key value : UInt64)
    (type : UInt32) :
    ∃ m, FlatTree disk m (dataStart disk.totalBlocks.toNat)
        (insertLeaf [] ⟨dataStart disk.totalBlocks.toNat + 1, key, value, type⟩) ∧
      Layout disk.mapping disk m ∧
      (Superblock.ofPage (m 0)).btreeRoot = UInt64.ofNat (dataStart disk.totalBlocks.toNat) ∧
      (∀ b < disk.totalBlocks.toNat, blockBit m b =
        if b = dataStart disk.totalBlocks.toNat + 1 then true else blockBit m₀ b) ∧
      ∀ c, dataStart disk.totalBlocks.toNat + 1 < c → m c = m₀ c := by
  have H := F.firstFree hroom
  obtain ⟨m, -, T, hbits, -, hother⟩ := F.rootTree.exists_insert H (by decide) key value type
  have hlow : ∀ b < dataStart disk.totalBlocks.toNat, m b =
      takeBlock m₀ (dataStart disk.totalBlocks.toNat + 1) b :=
    fun b hb => hother b (by omega) (by omega)
  have hpos := dataStart_pos disk.totalBlocks.toNat
  refine ⟨m, T, ?_, ?_, hbits, fun c hc => ?_⟩
  · exact (F.layout.takeBlock _).congr (by rw [hlow 0 hpos]) (by rw [hlow 0 hpos])
      fun b hb => by rw [hlow b hb]
  · rw [hlow 0 hpos, superblock_takeBlock F.layout.super]
    exact F.btreeRoot
  · have hbehind := F.rootTree.root_used.1
    rw [hother c (by omega) (by omega), takeBlock_of_behind H.lt_total (by omega)]

/-- On a fresh volume with room for one more node, a leaf for the file `/a` and an inode for it. The
lookup looks at taken blocks only. -/
theorem Fresh.exists_found {uid gid : UInt32} {m₀ : Image} (F : Fresh disk uid gid m₀) (node : Inode)
    (hroom : dataStart disk.totalBlocks.toNat + 1 < disk.addressable)
    (hslots : 1 < inodeCapacity disk.totalBlocks.toNat) (hnode : node.inodeNumber = 1) :
    ∃ m, RegularFile disk m [slash, 97] 1 ∧ inodeAt disk m 1 = node ∧
      (∀ c, dataStart disk.totalBlocks.toNat + 1 < c → m c = m₀ c) ∧
      (∀ b < disk.totalBlocks.toNat,
        blockBit m b = decide (b < dataStart disk.totalBlocks.toNat + 2)) ∧
      Within disk.mapping (fun b => b < disk.totalBlocks.toNat ∧ blockBit m b = true)
        (itemSearch disk [slash, 97]) m := by
  obtain ⟨m₁, T, L₁, hsuper, hbits, hother⟩ := F.exists_leaf hroom (pathHash [97]) 1 fileTypeRegular
  have hpos := dataStart_pos disk.totalBlocks.toNat
  have hslot : slotBlock disk 1 < _ := slotBlock_lt hslots
  have hzero := slotBlock_ge disk 1
  have htable := inodeTableStart_pos disk.totalBlocks.toNat
  have hkeep : ∀ b, b ≠ slotBlock disk 1 → putInode disk m₁ 1 node b = m₁ b :=
    fun b hb => Function.update_of_ne hb _ _
  have P : FlatPages disk (putInode disk m₁ 1 node) (dataStart disk.totalBlocks.toNat) _ :=
    T.toFlatPages.congr (hkeep _ (by omega)) fun x hx => by
      have hx := (mem_insertLeaf.mp hx).resolve_right List.not_mem_nil
      rw [hx]
      exact hkeep _ (by show dataStart disk.totalBlocks.toNat + 1 ≠ _; omega)
  have hroot : (Superblock.ofPage (putInode disk m₁ 1 node 0)).btreeRoot =
      UInt64.ofNat (dataStart disk.totalBlocks.toNat) := by
    rw [hkeep 0 (by omega), hsuper]
  have hcomp : ∀ c ∈ [[(97 : UInt8)]], IsComponent c := by
    intro c hc
    rw [List.mem_singleton.mp hc]
    exact ⟨by decide, by decide⟩
  have hmarked : ∀ b < disk.totalBlocks.toNat, blockBit (putInode disk m₁ 1 node) b =
      decide (b < dataStart disk.totalBlocks.toNat + 2) := by
    intro b hb
    rw [blockBit_putInode hb]
    exact prefix_succ (fun c hc => F.blockBit_lt hc) hbits b hb
  refine ⟨putInode disk m₁ 1 node, ?_, inodeAt_putInode_self, fun c hc => ?_, hmarked, ?_⟩
  · refine ⟨⟨L₁.putInode 1 node, by decide, hslots, ?_⟩, ?_⟩
    · show (inodeAt disk (putInode disk m₁ 1 node) 1).inodeNumber = 1
      rw [inodeAt_putInode_self, hnode]
    · have hpath : joined [[(97 : UInt8)]] = [slash, 97] := rfl
      rw [Finds, ← hpath, run_itemSearch_joined (L₁.putInode 1 node) hroot P.isNode.addr P.isNode.type hcomp
        (by decide)]
      exact run_searchPath_file P.toFlatShape (hcomp _ (List.mem_singleton_self _)) (by decide)
        P.root.blockNumber (mem_insertLeaf.mpr (Or.inl rfl)) (Leaf.found_singleton _ _)
        (show fileTypeRegular ≠ fileTypeDirectory by decide) []
  · rw [hkeep c (by omega), hother c hc]
  · have hclosed := P.toFlatShape.lookupClosed (L₁.putInode 1 node) hroot fun l hl => by
      rw [(mem_insertLeaf.mp hl).resolve_right List.not_mem_nil]
      show fileTypeRegular ≠ fileTypeDirectory
      decide
    have htotal := (F.firstFree hroom).lt_total
    refine within_mono (fun b hb => ?_) (hclosed.within_itemSearch _)
    have hlt : b < dataStart disk.totalBlocks.toNat + 2 := by
      rcases hb with rfl | rfl | ⟨l, hl, rfl⟩
      · omega
      · omega
      · rw [(mem_insertLeaf.mp hl).resolve_right List.not_mem_nil]
        exact Nat.lt_succ_self _
    refine ⟨by omega, ?_⟩
    rw [hmarked b (by omega)]
    exact decide_eq_true hlt

/-- The same, without the blocks of the lookup. -/
theorem Fresh.exists_file {uid gid : UInt32} {m₀ : Image} (F : Fresh disk uid gid m₀) (node : Inode)
    (hroom : dataStart disk.totalBlocks.toNat + 1 < disk.addressable)
    (hslots : 1 < inodeCapacity disk.totalBlocks.toNat) (hnode : node.inodeNumber = 1) :
    ∃ m, RegularFile disk m [slash, 97] 1 ∧ inodeAt disk m 1 = node ∧
      ∀ c, dataStart disk.totalBlocks.toNat + 1 < c → m c = m₀ c := by
  obtain ⟨m, hfile, hinode, hother, -⟩ := F.exists_found node hroom hslots hnode
  exact ⟨m, hfile, hinode, hother⟩

/-- Page 0 of the file is block `block`. -/
def onePage (block : UInt64) : Inode :=
  { zeroInode with inodeNumber := 1, directBlocks := (Vector.replicate 12 0).set 0 block }

/-- The example: an inode whose first pages all lead to one block. -/
theorem mappedPages_onePage {block : UInt64} (hne : block ≠ 0)
    (hlt : block.toNat < disk.totalBlocks.toNat)
    (hbehind : dataStart disk.totalBlocks.toNat ≤ block.toNat)
    (htype : blockType (m block.toNat) = BlockType.data.code) :
    MappedPages disk m (onePage block) (fun _ => block) (filePages 0 1 ∪ filePages 0 1) := by
  have hpage : ∀ i ∈ filePages 0 1 ∪ filePages 0 1, i = 0 := by
    intro i hi
    rw [Set.union_self] at hi
    obtain ⟨x, -, hx, rfl⟩ := hi
    obtain rfl : x = 0 := by omega
    rfl
  exact {
    le := fun i hi => by
      rw [hpage i hi]
      exact Nat.zero_le _
    yields := fun i hi => by
      rw [hpage i hi]
      have hy : Yields disk (onePage block) m (UInt64.ofNat 0) (onePage block).directBlocks[0] :=
        Yields.direct (by decide)
      exact hy
    ne_zero := fun _ _ => hne
    lt_total := fun _ _ => hlt
    behind := fun _ _ => hbehind
    type := fun _ _ => htype
    ne_indirect := fun _ _ => hne
    indirect_lt := fun i hi h12 => by
      rw [hpage i hi] at h12
      omega
    inj := fun i hi j hj _ => by rw [hpage i hi, hpage j hj] }

/-- On a volume that can be formatted and has room, the file `/a` with one page, in a given block. -/
theorem exists_onePage (disk : DiskInterface) (block : ℕ)
    (hroom : dataStart disk.totalBlocks.toNat + 1 < disk.addressable)
    (hslots : 0 < inodeTableBlocks disk.totalBlocks.toNat)
    (hbehind : dataStart disk.totalBlocks.toNat + 1 < block)
    (hlt : block < disk.totalBlocks.toNat) :
    ∃ m, RegularFile disk m [slash, 97] 1 ∧
      inodeAt disk m (UInt64.toNat 1) = onePage (UInt64.ofNat block) ∧
      MappedPages disk m (onePage (UInt64.ofNat block)) (fun _ => UInt64.ofNat block)
        (filePages 0 1 ∪ filePages 0 1) := by
  have htotal := total_lt disk
  have hnat : (UInt64.ofNat block).toNat = block := toNat_ofNat_block (by omega)
  obtain ⟨m₀, -, F⟩ := run_diskFormat_blank disk 0 0 0
    (show ([] : List UInt8).length ≤ 31 by decide) (blank_zero _) (by omega) hslots
  have F₁ : Fresh disk 0 0 (Function.update m₀ block fun _ => 0) :=
    F.congr fun b hb => Function.update_of_ne (by omega) _ _
  obtain ⟨m, hfile, hnode, hother⟩ := F₁.exists_file (onePage (UInt64.ofNat block)) hroom
    (by simp only [inodeCapacity, inodesPerPage, usableBlockSize, sizeofInode]; omega) rfl
  refine ⟨m, hfile, hnode, mappedPages_onePage (ofNat_block_ne_zero (by omega) (by omega))
    (by omega) (by omega) ?_⟩
  rw [hnat, hother _ hbehind, Function.update_self]
  rfl

/-- On a volume of 256 blocks, one byte of a file is written and read back. -/
theorem nbtrfsWrite_readsBack_256 : ∃ m, RegularFile ⟨256, by decide⟩ m [slash, 97] 1 ∧
    ReadsBack ⟨256, by decide⟩ ⟨0, 0, 0, fun _ => 0⟩ m [slash, 97] 1 (fun _ => 200)
      (fun _ => 7) 0 1 0 1 := by
  obtain ⟨m, F, hnode, h⟩ := exists_onePage ⟨256, by decide⟩ 200 (by decide) (by decide)
    (by decide) (by decide)
  rw [← hnode] at h
  have hback : Finds _ _ _ _ ∧ NearPages _ _ _ →
      ReadsBack ⟨256, by decide⟩ ⟨0, 0, 0, fun _ => 0⟩ m [slash, 97] 1 (fun _ => 200) (fun _ => 7)
        0 1 0 1 :=
    And.left (nbtrfsWrite_readsBack F.toFileInode (Or.inl F.lookup) (by decide) (by decide)
      ⟨0, 0, 0, fun _ => 0⟩ (fun _ => 7) h)
  refine ⟨m, F, hback ⟨F.lookup, ?_⟩⟩
  intro i hi
  refine ⟨show (UInt64.ofNat 200).toNat < 524288 by decide, fun h12 => ?_⟩
  have hle := Set.union_subset_union_right (filePages 0 1) (filePages_mono (min_le_left _ _)) hi
  have hone : UInt64.toNat 1 = 1 := rfl
  have hpage : usableBlockSize = 4092 := rfl
  rcases hle with ⟨x, -, hx, rfl⟩ | ⟨x, -, hx, rfl⟩
  · rw [hpage] at h12
    omega
  · rw [hpage] at h12
    omega

/-- On a volume of 524289 blocks, the file `/a` whose page is the last block cannot be written. -/
theorem not_nbtrfsWrite_readsBack_524289 : ∃ m,
    RegularFile ⟨524289, by decide⟩ m [slash, 97] 1 ∧
    MappedPages ⟨524289, by decide⟩ m (inodeAt ⟨524289, by decide⟩ m (UInt64.toNat 1))
      (fun _ => 524288) (filePages 0 1 ∪ filePages 0 1) ∧
    ¬ReadsBack ⟨524289, by decide⟩ ⟨0, 0, 0, fun _ => 0⟩ m [slash, 97] 1 (fun _ => 524288)
      (fun _ => 7) 0 1 0 1 := by
  obtain ⟨m, F, hnode, h⟩ := exists_onePage ⟨524289, by decide⟩ 524288 (by decide)
    (by decide) (by decide) (by decide)
  rw [← hnode] at h
  refine ⟨m, F, h, ?_⟩
  rintro ⟨m', k, hwrite, -⟩
  have hnone := F.run_nbtrfsWrite_unreachable (o := 0) (n := 1) (h.mono Set.subset_union_left)
    (by decide) (by decide) (fun hnear => absurd (hnear 0 ⟨0, le_rfl, by decide, rfl⟩).1 (by decide))
    ⟨0, 0, 0, fun _ => 0⟩ (fun _ => 7)
  rw [hnone] at hwrite
  cases hwrite

end Nbtrfs
