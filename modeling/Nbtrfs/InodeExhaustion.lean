import Nbtrfs.InodeRuns

/-!
# Running out of inodes

The inode bitmap is longer than the inode table has slots. When the slots are used up, the scan of
`inode_allocate` finds a bit behind them, sets it, and only then learns from the block type that there
is no slot; the bit stays set. The call leaves no trace only when the bitmap is used up as well.

Here a slot is allocated when its bit is set, as `inode_allocate` sees it. `inode_free` does not clear
the bit of its inode; what it clears is a bit of an earlier word, which must not be the one that holds
the type of a block.
-/

namespace Nbtrfs

open BlockProg Bytes

/-- The slots whose bit is set. -/
def markedInodes (disk : DiskInterface) (m : Image) : Finset ℕ :=
  (Finset.range (inodeCapacity disk.totalBlocks.toNat)).filter fun n => inodeBit disk m n = true

/-- One call on the volume alone. -/
def InodeOp.exec (disk : DiskInterface) (uid gid : UInt32) : InodeOp → Image → Option Image
  | alloc mode, m => (run disk.mapping (inodeAllocate disk uid gid mode) m).map Prod.snd
  | free inodeNumber, m => (run disk.mapping (inodeFree inodeNumber) m).map Prod.snd

/-- `inode_allocate` returns the number of a slot, or `-1` exactly when all slots are allocated, and
then the inode bitmap and the inode table are as before. -/
def InodeOp.Clean (disk : DiskInterface) (uid gid : UInt32) : InodeOp → Image → Image → Prop
  | alloc mode, m, m' => ∃ r, run disk.mapping (inodeAllocate disk uid gid mode) m = some (r, m') ∧
      r < inodeCapacity disk.totalBlocks.toNat ∧
      (r = -1 ↔ ∀ n < inodeCapacity disk.totalBlocks.toNat, inodeBit disk m n = true) ∧
      (r = -1 → ∀ b, inodeBitmapStart disk.totalBlocks.toNat ≤ b →
        b < dataStart disk.totalBlocks.toNat → m' b = m b)
  | free _, _, _ => True

/-- An `inode_allocate` finds a clear bit below the number of slots, or none in the whole bitmap. -/
def InodeOp.Room (disk : DiskInterface) : InodeOp → Image → Prop
  | alloc _, m => (∃ n < inodeCapacity disk.totalBlocks.toNat, inodeBit disk m n = false) ∨
      ∀ n < 4092 * inodeBitmapBlocks disk.totalBlocks.toNat, inodeBit disk m n = true
  | free _, _ => True

/-- Offset of the word that `inode_free` changes, from the block with the bit of the inode. -/
def freedWord (disk : DiskInterface) (n : ℕ) : ℤ :=
  4 + 8 * ((n % 4092 : ℕ) - (4092 * blockBitmapBlocks disk.totalBlocks.toNat : ℕ) : ℤ).tdiv 64

/-- An `inode_free` is called for a slot, and the word it changes does not reach into the type of a
block. -/
def InodeOp.Harmless (disk : DiskInterface) : InodeOp → Image → Prop
  | alloc _, _ => True
  | free inodeNumber, _ => inodeNumber.toNat < inodeCapacity disk.totalBlocks.toNat ∧
      freedWord disk inodeNumber.toNat % 4096 ≠ 4092

variable {disk : DiskInterface} {uid gid : UInt32} {s : InodeState} {m : Image}

theorem mem_markedInodes {n : ℕ} : n ∈ markedInodes disk m ↔
    n < inodeCapacity disk.totalBlocks.toNat ∧ inodeBit disk m n = true := by
  rw [markedInodes, Finset.mem_filter, Finset.mem_range]

/-- A formatted volume stays formatted, with the slots allocated that the bitmap says, as long as the
superblock and the types of the blocks are kept. -/
theorem FormattedInodes.congr {m' : Image} (h : FormattedInodes disk s)
    (hzero : m' 0 = s.image 0) (htype : ∀ b, blockType (m' b) = blockType (s.image b)) :
    FormattedInodes disk ⟨m', markedInodes disk m'⟩ where
  layout := h.layout.congr (by simp only [hzero]) (by simp only [hzero]) fun b _ => htype b
  fits := h.fits
  rootType := (htype _).trans h.rootType
  bit n hn := by rw [mem_markedInodes, and_iff_right hn]
  allocated_lt n hn := (mem_markedInodes.mp hn).1

theorem FormattedInodes.marked (h : FormattedInodes disk s) :
    FormattedInodes disk ⟨s.image, markedInodes disk s.image⟩ :=
  h.congr rfl fun _ => rfl

/-! ## `inode_free` -/

/-- The word lies before the block, by less than the length of the block bitmap. -/
theorem freedWord_eq {n : ℕ} (hpos : 1 < inodeBitmapStart disk.totalBlocks.toNat) :
    freedWord disk n = 4 - (8 * ((4092 * blockBitmapBlocks disk.totalBlocks.toNat - n % 4092) / 64) : ℕ) := by
  rw [inodeBitmapStart] at hpos
  have hneg : ((n % 4092 : ℕ) - (4092 * blockBitmapBlocks disk.totalBlocks.toNat : ℕ) : ℤ) =
      -((4092 * blockBitmapBlocks disk.totalBlocks.toNat - n % 4092 : ℕ) : ℤ) := by omega
  rw [freedWord, hneg, Int.neg_tdiv, Int.tdiv_eq_ediv_of_nonneg (by omega)]
  omega

/-- The word that `inode_free` changes lies behind the first block and on the device. -/
theorem wordAddr_freedWord (L : Layout disk.mapping disk m) {n : ℕ}
    (hn : n < inodeCapacity disk.totalBlocks.toNat) : ∃ a : ℕ, 4096 < a ∧
      (a : ℤ) = (4096 * (inodeBitmapStart disk.totalBlocks.toNat + n / 4092) : ℕ) + freedWord disk n ∧
      disk.mapping.wordAddr (UInt64.ofNat (inodeBitmapStart disk.totalBlocks.toNat + n / 4092))
        (freedWord disk n) = some a := by
  obtain ⟨hlt, hone⟩ := L.inodeBitmapBlock_lt hn
  have hle := L.le_total
  have htable := inodeTableStart_le disk.totalBlocks.toNat
  have haddr := L.addr (b := inodeBitmapStart disk.totalBlocks.toNat + n / 4092) (by omega)
  have hstart : inodeBitmapStart disk.totalBlocks.toNat =
    1 + blockBitmapBlocks disk.totalBlocks.toNat := rfl
  have hblocks : disk.mapping.blocks = disk.totalBlocks.toNat := rfl
  have hsize : disk.mapping.blockSize = 4096 := rfl
  generalize hb : inodeBitmapStart disk.totalBlocks.toNat + n / 4092 = b at *
  have hoff := freedWord_eq (n := n) hone
  refine ⟨((4096 * b : ℕ) + freedWord disk n).toNat, by omega, by omega, ?_⟩
  simp only [Mapping.wordAddr, haddr, hsize, hblocks]
  rw [if_pos (by omega)]

/-- A word that does not reach into the type of a block can be stored without changing a type. -/
theorem blockType_storeFlat {a : ℕ} (v : UInt64) (hmod : a % 8 = 4) (htype : a % 4096 ≠ 4092)
    (b : ℕ) : blockType (disk.mapping.storeFlat m a v b) = blockType (m b) :=
  blockType_congr fun o ho => Mapping.storeFlat_apply_ne (by
    have hsize : disk.mapping.blockSize = 4096 := rfl
    rw [hsize]
    omega)

/-- A word behind the first block can be stored without changing that block. -/
theorem storeFlat_zero {a : ℕ} (v : UInt64) (ha : 4096 < a) :
    disk.mapping.storeFlat m a v 0 = m 0 := by
  funext o
  have hsize : disk.mapping.blockSize = 4096 := rfl
  by_cases ho : o < 4096
  · exact Mapping.storeFlat_apply_ne (by omega)
  · rw [Mapping.storeFlat, if_neg (by omega)]

namespace FormattedInodes

/-- A harmless `inode_free` goes through and keeps the volume formatted. -/
theorem exists_inodeFree (h : FormattedInodes disk s) {n : UInt64}
    (hn : n.toNat < inodeCapacity disk.totalBlocks.toNat)
    (hword : freedWord disk n.toNat % 4096 ≠ 4092) : ∃ rv m',
      run disk.mapping (inodeFree n) s.image = some (rv, m') ∧
      FormattedInodes disk ⟨m', markedInodes disk m'⟩ := by
  have L := h.layout
  have hwrap : disk.addressable ≤ 524288 := min_le_right _ _
  have hfits := h.fits
  have htable := inodeTableStart_le disk.totalBlocks.toNat
  have hpos := inodeTableStart_pos disk.totalBlocks.toNat
  have hslot := slotBlock_ge disk n.toNat
  have hslotAddr := L.addr (Nbtrfs.slotBlock_lt hn)
  obtain ⟨hlt, hone⟩ := L.inodeBitmapBlock_lt hn
  have haddr := L.addr (hlt.trans_le htable)
  obtain ⟨a, hfar, ha, hwordAddr⟩ := wordAddr_freedWord L hn
  have hoff := freedWord_eq (n := n.toNat) hone
  -- the word that `bitmap_put` stores: no type and nothing of the superblock is in it
  set m₁ := fun v => disk.mapping.storeFlat s.image a v
  have htype : ∀ v b, blockType (m₁ v b) = blockType (s.image b) := fun v b =>
    blockType_storeFlat v (by omega) (by omega) b
  have hzero : ∀ v, m₁ v 0 = s.image 0 := fun v => storeFlat_zero v hfar
  rw [L.run_inodeFree hn (by omega), inodeFreeAt]
  rw [freedWord] at hwordAddr
  have hput : ∃ v, run disk.mapping (bitmapPut
      (UInt64.ofNat (inodeBitmapStart disk.totalBlocks.toNat + n.toNat / 4092))
      ((n.toNat % 4092 : ℕ) - (4092 * blockBitmapBlocks disk.totalBlocks.toNat : ℕ)) 0) s.image =
        some (0, m₁ v) := by
    rw [bitmapPut, run_bind_of_eq (run_page haddr),
      if_neg (not_not.mpr (L.bitmap _ (by omega) hlt)), run_bind_of_eq (run_peek hwordAddr)]
    exact ⟨_, run_bind_of_eq (run_poke _ hwordAddr)⟩
  obtain ⟨v, hput⟩ := hput
  rw [run_bind_of_eq hput, if_neg (by decide), run_bind_of_eq (run_fetch _ _),
    run_bind_of_eq (run_page hslotAddr), htype, if_neg (not_not.mpr (L.type_slotBlock hn)),
    run_bind_of_eq (run_modify _ hslotAddr), run_bind_of_eq (run_writeBack _ _),
    run_bind_of_eq (run_writeBack _ _), run_pure]
  refine ⟨_, _, rfl, h.congr ?_ fun b => (?_ : _ = blockType (m₁ v b)).trans (htype v b)⟩
  · exact (Function.update_of_ne (by omega) _ _).trans (hzero v)
  · by_cases hb : b = slotBlock disk n.toNat
    · subst hb
      rw [Function.update_self]
      exact blockType_congr fun o ho => copyIn_apply_ne (by
        simp only [slotOffset]
        omega)
    · rw [Function.update_of_ne hb]

/-! ## `inode_allocate` -/

/-- With a clear bit below the number of slots the call is clean. -/
theorem clean_of_free (h : FormattedInodes disk ⟨m, markedInodes disk m⟩) (mode : UInt32) {n : ℕ}
    (hn : n < inodeCapacity disk.totalBlocks.toNat) (hclear : inodeBit disk m n = false) :
    ∃ m', (InodeOp.alloc mode).exec disk uid gid m = some m' ∧
      (InodeOp.alloc mode).Clean disk uid gid m m' ∧
      FormattedInodes disk ⟨m', markedInodes disk m'⟩ := by
  have hnot : ¬∀ k < inodeCapacity disk.totalBlocks.toNat, k ∈ markedInodes disk m := by
    intro hall
    have hset := (mem_markedInodes.mp (hall n hn)).2
    rw [hclear] at hset
    cases hset
  obtain ⟨f, hf, hfree, hmin⟩ := exists_first_of_not hnot
  obtain ⟨s', -, ⟨r, hrun, hr⟩, h'⟩ : ∃ s',
      (InodeOp.alloc mode).step disk uid gid ⟨m, markedInodes disk m⟩ = some s' ∧
      (InodeOp.alloc mode).Safe disk uid gid ⟨m, markedInodes disk m⟩ s' ∧ FormattedInodes disk s' :=
    h.alloc_first mode hf hfree hmin
  have hr : ∃ k : ℕ, r = k ∧ k < inodeCapacity disk.totalBlocks.toNat := by
    rcases hr with ⟨k, hrk, hk, -⟩ | ⟨-, hall⟩
    · exact ⟨k, hrk, hk⟩
    · exact absurd hall hnot
  obtain ⟨k, rfl, hk⟩ := hr
  refine ⟨s'.image, by rw [InodeOp.exec, hrun]; rfl, ⟨k, hrun, by omega, ?_, by omega⟩, h'.marked⟩
  refine ⟨fun hneg => by omega, fun hall => ?_⟩
  rw [hall n hn] at hclear
  cases hclear

/-- With the whole bitmap used up the call is clean. -/
theorem clean_of_full (h : FormattedInodes disk ⟨m, markedInodes disk m⟩) (mode : UInt32)
    (hset : ∀ n < 4092 * inodeBitmapBlocks disk.totalBlocks.toNat, inodeBit disk m n = true) :
    (InodeOp.alloc mode).exec disk uid gid m = some m ∧
      (InodeOp.alloc mode).Clean disk uid gid m m := by
  have hrun := h.run_alloc_full uid gid mode hset
  have hcap := capacity_le disk.totalBlocks.toNat
  refine ⟨by rw [InodeOp.exec, hrun]; rfl, -1, hrun, by omega, ?_, fun _ _ _ _ => rfl⟩
  exact iff_of_true rfl fun n hn => hset n (by omega)

/-- With the slots used up and the bitmap not, the call is not clean. -/
theorem not_clean (h : FormattedInodes disk ⟨m, markedInodes disk m⟩) (mode : UInt32)
    (hslots : ∀ n < inodeCapacity disk.totalBlocks.toNat, inodeBit disk m n = true) {n : ℕ}
    (hn : n < 4092 * inodeBitmapBlocks disk.totalBlocks.toNat) (hclear : inodeBit disk m n = false)
    (m' : Image) : ¬(InodeOp.alloc mode).Clean disk uid gid m m' := by
  rintro ⟨r, hrun, -, hfull, hsame⟩
  obtain rfl := hfull.mpr hslots
  have hnot : ¬∀ k < 4092 * inodeBitmapBlocks disk.totalBlocks.toNat, inodeBit disk m k = true := by
    intro hall
    rw [hall n hn] at hclear
    cases hclear
  obtain ⟨f, hf, hfree, hmin⟩ := exists_first_of_not hnot
  have hfree : inodeBit disk m f = false := by simpa using hfree
  obtain ⟨hcrash, hfail, hclaim⟩ := h.run_alloc_past uid gid mode hf hfree hmin
  by_cases hin : slotBlock disk f < disk.addressable
  · by_cases htype : blockType (m (slotBlock disk f)) = BlockType.inode.code
    · obtain ⟨m'', hrun'⟩ := hclaim hin htype
      rw [hrun'] at hrun
      obtain ⟨hr, -⟩ := Prod.mk.inj (Option.some.inj hrun)
      omega
    · -- the bit that was set is the trace that the call leaves
      rw [hfail hin htype] at hrun
      obtain ⟨-, rfl⟩ := Prod.mk.inj (Option.some.inj hrun)
      have hdata := inodeTableStart_le disk.totalBlocks.toNat
      rw [inodeTableStart] at hdata
      have hblock := hsame rfl (inodeBitmapStart disk.totalBlocks.toNat + f / 4092) (by omega)
        (by omega)
      have hbit := areaBit_putAreaBit m (inodeBitmapStart disk.totalBlocks.toNat) f f true
      rw [if_pos rfl, areaBit_congr hblock] at hbit
      rw [inodeBit, hbit] at hfree
      cases hfree
  · rw [hcrash (by omega)] at hrun
    cases hrun

end FormattedInodes

/-- With `k` slots left and the bits behind the slots clear, one call more than that is not clean. -/
theorem not_clean_replicate (mode : UInt32) (hspare : inodeCapacity disk.totalBlocks.toNat <
      4092 * inodeBitmapBlocks disk.totalBlocks.toNat) {k : ℕ}
    (hk : k ≤ inodeCapacity disk.totalBlocks.toNat)
    (h : FormattedInodes disk ⟨m, markedInodes disk m⟩)
    (hbit : ∀ n < 4092 * inodeBitmapBlocks disk.totalBlocks.toNat,
      inodeBit disk m n = decide (n + k < inodeCapacity disk.totalBlocks.toNat)) :
    ¬SafeRun (InodeOp.exec disk uid gid) (InodeOp.Clean disk uid gid)
      (List.replicate (k + 1) (InodeOp.alloc mode)) m := by
  induction k generalizing m with
  | zero =>
      rintro ⟨m', -, hclean, -⟩
      refine h.not_clean mode (fun n hn => ?_) hspare ?_ m' hclean
      · rw [hbit n (by omega), decide_eq_true (by omega)]
      · rw [hbit _ hspare, decide_eq_false (by omega)]
  | succ k ih =>
      rintro ⟨m', hstep, -, hrest⟩
      obtain ⟨f, hf⟩ : ∃ f, f + k + 1 = inodeCapacity disk.totalBlocks.toNat :=
        ⟨inodeCapacity disk.totalBlocks.toNat - (k + 1), by omega⟩
      have hset : ∀ i < f, inodeBit disk m i = true := fun i hi => by
        rw [hbit i (by omega), decide_eq_true (by omega)]
      have hclear : inodeBit disk m f = false := by
        rw [hbit f (by omega), decide_eq_false (by omega)]
      have hrun := h.layout.run_inodeAllocate uid gid mode h.start_lt (by omega) hclear hset
      rw [InodeOp.exec, hrun] at hstep
      obtain rfl := Option.some.inj hstep
      refine ih (by omega) ?_ (fun n hn => ?_) hrest
      · have hslot := Nbtrfs.slotBlock_ge disk f
        have hpos := inodeTableStart_pos disk.totalBlocks.toNat
        have hstart : inodeBitmapStart disk.totalBlocks.toNat =
          1 + blockBitmapBlocks disk.totalBlocks.toNat := rfl
        exact h.congr (claimInode_of_ne (by omega) (by omega)) fun b =>
          (blockType_putInode b).trans (blockType_putAreaBit _ _ _ _ _)
      · rw [inodeBit_claimInode hn, hbit n hn]
        split
        next heq => rw [decide_eq_true (by omega)]
        next hne => exact decide_eq_decide.mpr (by omega)

/-- From a formatted volume, a run is clean if every `inode_free` in it is harmless and every
`inode_allocate` finds a slot or a bitmap without clear bits. When the calls of `inode_free` are
harmless, it is clean in no other case. -/
theorem inodeRun_clean (h : FormattedInodes disk ⟨m, markedInodes disk m⟩) (ops : List InodeOp) :
    (Admits (InodeOp.exec disk uid gid) (fun op m => op.Harmless disk m ∧ op.Room disk m) ops m →
      SafeRun (InodeOp.exec disk uid gid) (InodeOp.Clean disk uid gid) ops m) ∧
    (Admits (InodeOp.exec disk uid gid) (InodeOp.Harmless disk) ops m →
      SafeRun (InodeOp.exec disk uid gid) (InodeOp.Clean disk uid gid) ops m →
      Admits (InodeOp.exec disk uid gid) (InodeOp.Room disk) ops m) := by
  have hiff (hadm : Admits (InodeOp.exec disk uid gid) (InodeOp.Harmless disk) ops m) :
      SafeRun (InodeOp.exec disk uid gid) (InodeOp.Clean disk uid gid) ops m ↔
        Admits (InodeOp.exec disk uid gid) (InodeOp.Room disk) ops m := by
    refine safeRun_iff_admits (fun m => FormattedInodes disk ⟨m, markedInodes disk m⟩) ?_ ?_ h hadm
    · intro op m hm hharm hroom
      cases op with
      | free inodeNumber =>
          obtain ⟨rv, m', hrun, hm'⟩ := hm.exists_inodeFree hharm.1 hharm.2
          exact ⟨m', by rw [InodeOp.exec, hrun]; rfl, trivial, hm'⟩
      | alloc mode =>
          rcases hroom with ⟨n, hn, hclear⟩ | hset
          · exact hm.clean_of_free mode hn hclear
          · obtain ⟨hstep, hclean⟩ := hm.clean_of_full mode hset
            exact ⟨m, hstep, hclean, hm⟩
    · intro op m hm _ hnot m' _
      cases op with
      | free inodeNumber => exact absurd trivial hnot
      | alloc mode =>
          rw [InodeOp.Room] at hnot
          push Not at hnot
          obtain ⟨hslots, n, hn, hclear⟩ := hnot
          exact hm.not_clean mode (fun k hk => by simpa using hslots k hk) hn (by simpa using hclear) m'
  refine ⟨fun hadm => (hiff ?_).mpr ?_, fun hadm => (hiff hadm).mp⟩
  · exact hadm.mono fun _ _ hcond => hcond.1
  · exact hadm.mono fun _ _ hcond => hcond.2

/-- On a freshly formatted volume of 256 blocks, an inode can be allocated and freed. -/
theorem inodeRun_clean_256 : ∃ m, run (DiskInterface.mapping ⟨256, by decide⟩)
      (diskFormat ⟨256, by decide⟩ 0 0 0 []) (fun _ _ => 0) = some (0, m) ∧
    SafeRun (InodeOp.exec ⟨256, by decide⟩ 0 0) (InodeOp.Clean ⟨256, by decide⟩ 0 0)
      [InodeOp.alloc 0, InodeOp.free 1] m := by
  obtain ⟨m, hrun, hfmt⟩ := exists_formattedInodes_256
  refine ⟨m, hrun, (inodeRun_clean hfmt.marked _).1 ⟨⟨trivial, Or.inl ⟨1, by decide, ?_⟩⟩,
    fun m' _ => ⟨⟨?_, trivial⟩, fun _ _ => trivial⟩⟩⟩
  · have hfree : 1 ∉ ({0} : Finset ℕ) := by decide
    have hbit := (hfmt.bit 1 (by decide)).not.mpr hfree
    simpa using hbit
  · exact ⟨by decide, by decide⟩

/-- It has 44 slots, of which formatting takes one: the 44th allocation fails and sets bit 44. -/
theorem not_inodeRun_clean_256 : ∃ m, run (DiskInterface.mapping ⟨256, by decide⟩)
      (diskFormat ⟨256, by decide⟩ 0 0 0 []) (fun _ _ => 0) = some (0, m) ∧
    ¬SafeRun (InodeOp.exec ⟨256, by decide⟩ 0 0) (InodeOp.Clean ⟨256, by decide⟩ 0 0)
      (List.replicate 44 (InodeOp.alloc 0)) m := by
  obtain ⟨m, hrun, hfresh⟩ := run_diskFormat_blank ⟨256, by decide⟩ 0 0 0
    (show ([] : List UInt8).length ≤ 31 by decide) (blank_zero _) (by decide) (by decide)
  have hfmt := (hfresh.formattedInodes (by decide)).marked
  refine ⟨m, hrun, not_clean_replicate (k := 43) 0 (by decide) (by decide) hfmt fun n hn => ?_⟩
  rw [hfresh.inodeBit n hn]
  have hcap : inodeCapacity (256 : ℕ) = 44 := by decide
  have hnat : (DiskInterface.mk 256 (by decide)).totalBlocks.toNat = 256 := rfl
  rw [hnat, hcap]
  exact decide_eq_decide.mpr (by omega)

end Nbtrfs
