import Nbtrfs.FileMap

/-!
# The block map of a file over a run

A run assigns blocks to indices of one inode; `blocks` starts as the map of the inode and records the
assignments. The map agrees with it as long as entries of the indirect block are only assigned by the
call that creates that block, and the page it takes has zeros in the place of all other entries.
-/

namespace Nbtrfs

open BlockProg Bytes

/-- One call of `inode_set_block`. -/
structure SetBlock where
  index : UInt64
  block : UInt64
deriving DecidableEq

/-- The volume, the inode as the caller holds it, what the last call returned, and the map as it
should be. -/
structure FileState where
  image : Image
  node : Inode
  returned : ℤ
  blocks : ℕ → UInt64

namespace SetBlock

/-- One call of `inode_set_block`. -/
def step (disk : DiskInterface) (op : SetBlock) (s : FileState) : Option FileState :=
  (run disk.mapping (inodeSetBlock disk s.node op.index op.block) s.image).map fun r =>
    ⟨r.2, r.1.2, r.1.1, Function.update s.blocks op.index.toNat op.block⟩

/-- The block is not 0, the index is one that the functions accept, and there is a free page. -/
def Valid (disk : DiskInterface) (op : SetBlock) (s : FileState) : Prop :=
  op.block ≠ 0 ∧ op.index.toNat ≤ maxIndex ∧
    ∃ b < disk.totalBlocks.toNat, blockBit s.image b = false

/-- The entry is in the inode; or there is no indirect block yet, and the first free block has a number
below `2 ^ 19` and zeros in the place of all other entries. -/
def Fits (disk : DiskInterface) (op : SetBlock) (s : FileState) : Prop :=
  op.index.toNat < 12 ∨ s.node.indirectBlock = 0 ∧ ∃ f, FirstFree disk s.image f ∧
    ∀ j, 12 ≤ j → j ≤ maxIndex → j ≠ op.index.toNat → load64 (s.image f) (entryOffset j) = 0

end SetBlock

/-- With `*physical_block` 0 before, `inode_get_block` leaves `p` in it. -/
def Yields (disk : DiskInterface) (node : Inode) (m : Image) (index p : UInt64) : Prop :=
  ∃ rv q, run disk.mapping (inodeGetBlock node index) m = some ((rv, q), m) ∧ q.getD 0 = p

/-- Every index yields the block that was assigned to it last. -/
def MapExact (disk : DiskInterface) (s : FileState) : Prop :=
  ∀ index : UInt64, index.toNat ≤ maxIndex → Yields disk s.node s.image index (s.blocks index.toNat)

variable {disk : DiskInterface} {m m' : Image} {node : Inode} {index block p : UInt64} {f : ℕ}
  {s : FileState}

namespace Yields

theorem eq {q : UInt64} (h : Yields disk node m index p) (h' : Yields disk node m index q) :
    p = q := by
  obtain ⟨rv, r, hrun, rfl⟩ := h
  obtain ⟨rv', r', hrun', rfl⟩ := h'
  rw [hrun] at hrun'
  obtain ⟨hpair, -⟩ := Prod.mk.inj (Option.some.inj hrun')
  rw [(Prod.mk.inj hpair).2]

theorem direct (h : index.toNat < 12) :
    Yields disk node m index node.directBlocks[index.toNat] :=
  ⟨_, _, run_inodeGetBlock_direct h, rfl⟩

theorem none (h : ¬index.toNat < 12) (hzero : node.indirectBlock = 0) :
    Yields disk node m index 0 :=
  ⟨_, _, run_inodeGetBlock_none h hzero, rfl⟩

/-- An index behind the first 12 does not depend on the entries in the inode. -/
theorem setDirect (h : ¬index.toNat < 12) (d : Vector UInt64 12) (hy : Yields disk node m index p) :
    Yields disk { node with directBlocks := d } m index p := by
  obtain ⟨rv, q, hrun, hq⟩ := hy
  refine ⟨rv, q, ?_, hq⟩
  rw [← hrun, inodeGetBlock, inodeGetBlock, dif_neg h, dif_neg h]

end Yields

/-- An assignment to an entry in the inode. -/
theorem MapExact.set_direct (h : MapExact disk s) (hindex : index.toNat < 12) (rv : ℤ) :
    MapExact disk ⟨s.image,
      { s.node with directBlocks := s.node.directBlocks.set index.toNat block }, rv,
      Function.update s.blocks index.toNat block⟩ := by
  intro j hj
  by_cases hdirect : j.toNat < 12
  · have hnew : Yields disk
        { s.node with directBlocks := s.node.directBlocks.set index.toNat block } s.image j
        (s.node.directBlocks.set index.toNat block)[j.toNat] := Yields.direct hdirect
    rw [Vector.getElem_set] at hnew
    show Yields disk _ s.image j (Function.update s.blocks index.toNat block j.toNat)
    by_cases heq : index.toNat = j.toNat
    · rw [if_pos heq] at hnew
      rwa [← heq, Function.update_self]
    · rw [if_neg heq] at hnew
      rwa [Function.update_of_ne (Ne.symm heq), (h j hj).eq (Yields.direct hdirect)]
  · have hne : j.toNat ≠ index.toNat := by omega
    show Yields disk _ s.image j (Function.update s.blocks index.toNat block j.toNat)
    rw [Function.update_of_ne hne]
    exact (h j hj).setDirect hdirect _

/-- The first assignment behind the first 12 entries, to a page with zeros in it. -/
theorem MapExact.create (h : MapExact disk s) (H : FirstFree disk s.image f)
    (A : BitmapArea disk s.image) (hlo : ¬index.toNat < 12)
    (hzero : s.node.indirectBlock = 0) (hclear : ∀ j, 12 ≤ j → j ≤ maxIndex → j ≠ index.toNat →
      load64 (s.image f) (entryOffset j) = 0) (rv : ℤ) :
    MapExact disk ⟨Function.update (takeBlock s.image f) f
        (indirectPage (s.image f) index.toNat block),
      { s.node with indirectBlock := UInt64.ofNat f }, rv,
      Function.update s.blocks index.toNat block⟩ := by
  intro j hj
  show Yields disk _ _ j (Function.update s.blocks index.toNat block j.toNat)
  by_cases hdirect : j.toNat < 12
  · rw [Function.update_of_ne (by omega), (h j hj).eq (Yields.direct hdirect)]
    exact Yields.direct hdirect
  · have hpage : Function.update (takeBlock s.image f) f
        (indirectPage (s.image f) index.toNat block) f = indirectPage (s.image f) index.toNat block :=
      Function.update_self _ _ _
    generalize Function.update (takeBlock s.image f) f
      (indirectPage (s.image f) index.toNat block) = m' at hpage ⊢
    have hrun : run disk.mapping (inodeGetBlock { s.node with indirectBlock := UInt64.ofNat f } j)
        m' = some _ := run_inodeGetBlock_indirect hdirect hj (H.number_ne_zero A) H.addr
      (by rw [hpage, blockType_indirectPage])
    rw [hpage, load64_indirectPage (by omega) (by omega)] at hrun
    refine ⟨_, _, hrun, ?_⟩
    rw [Option.getD_some]
    by_cases heq : j.toNat = index.toNat
    · rw [if_pos heq, heq, Function.update_self]
    · rw [if_neg heq, Function.update_of_ne heq, hclear _ (by omega) hj heq,
        (h j hj).eq (Yields.none hdirect hzero)]

/-- What holds between the calls. -/
structure FileInv (disk : DiskInterface) (s : FileState) : Prop where
  area : BitmapArea disk s.image
  exact : MapExact disk s

/-- A call that fits returns 0 and keeps the map exact. -/
theorem SetBlock.step_of_fits {op : SetBlock} (h : FileInv disk s) (hvalid : op.Valid disk s)
    (hfits : op.Fits disk s) :
    ∃ s', op.step disk s = some s' ∧ (s'.returned = 0 ∧ MapExact disk s') ∧ FileInv disk s' := by
  by_cases hdirect : op.index.toNat < 12
  · have hexact : MapExact disk ⟨s.image,
        { s.node with directBlocks := s.node.directBlocks.set op.index.toNat op.block }, 0,
        Function.update s.blocks op.index.toNat op.block⟩ := h.exact.set_direct hdirect 0
    refine ⟨_, by rw [step, run_inodeSetBlock_direct hdirect]; rfl, ⟨rfl, hexact⟩, h.area, hexact⟩
  · obtain ⟨hzero, f, H, hclear⟩ := hfits.resolve_left hdirect
    have hexact : MapExact disk ⟨Function.update (takeBlock s.image f) f
        (indirectPage (s.image f) op.index.toNat op.block),
        { s.node with indirectBlock := UInt64.ofNat f }, 0,
        Function.update s.blocks op.index.toNat op.block⟩ :=
      h.exact.create H h.area hdirect hzero hclear 0
    have hbehind := h.area.lt_of_clear H.clear
    refine ⟨_, by
      rw [step, run_inodeSetBlock_create h.area H hdirect hvalid.2.1 hzero]
      rfl, ⟨rfl, hexact⟩, ?_, hexact⟩
    refine (h.area.takeBlock f).congr ?_ fun c hc => Function.update_of_ne (by omega) _ _
    exact Nat.lt_of_le_of_lt (Nat.zero_le f) H.lt_total

/-- A second entry for the indirect block is refused. -/
theorem SetBlock.step_refused (disk : DiskInterface) (op : SetBlock) (s : FileState)
    (hindex : ¬op.index.toNat < 12)
    (hne : s.node.indirectBlock ≠ 0) :
    ∃ s', op.step disk s = some s' ∧ s'.returned = -1 :=
  ⟨_, by rw [step, run_inodeSetBlock_refused hindex hne]; rfl, rfl⟩

/-- From any inode, the map agrees with the assignments in every state of a run whose calls all fit. -/
theorem setBlockRun_mapExact {blocks : ℕ → UInt64} (harea : BitmapArea disk m)
    (hinit : MapExact disk ⟨m, node, 0, blocks⟩) {ops : List SetBlock}
    (hvalid : Admits (SetBlock.step disk) (SetBlock.Valid disk) ops ⟨m, node, 0, blocks⟩)
    (hfits : Admits (SetBlock.step disk) (SetBlock.Fits disk) ops ⟨m, node, 0, blocks⟩) :
    SafeRun (SetBlock.step disk) (fun _ _ s' => s'.returned = 0 ∧ MapExact disk s') ops
      ⟨m, node, 0, blocks⟩ := by
  refine SafeRun.of_invariant (FileInv disk) ?_ ⟨harea, hinit⟩ (hvalid.and hfits)
  rintro op s hs ⟨hv, hf⟩
  exact op.step_of_fits hs hv hf

/-- An inode without blocks. -/
def emptyFile : Inode :=
  { (default : Inode) with directBlocks := Vector.replicate 12 0, indirectBlock := 0 }

theorem mapExact_emptyFile (disk : DiskInterface) (m : Image) :
    MapExact disk ⟨m, emptyFile, 0, fun _ => 0⟩ := by
  intro index _
  by_cases h : index.toNat < 12
  · have hy : Yields disk emptyFile m index emptyFile.directBlocks[index.toNat] := Yields.direct h
    have hget : emptyFile.directBlocks[index.toNat] = 0 := Vector.getElem_replicate h
    rwa [hget] at hy
  · exact Yields.none h rfl

/-- A free block behind the new indirect block stays free. -/
theorem blockBit_create {b : ℕ} {pg : Bytes} (A : BitmapArea disk m) (H : FirstFree disk m f)
    (hb : b < disk.totalBlocks.toNat) (hne : b ≠ f) :
    blockBit (Function.update (takeBlock m f) f pg) b = blockBit m b := by
  have hbehind := A.lt_of_clear H.clear
  have hlow : ∀ c ≤ blockBitmapBlocks disk.totalBlocks.toNat,
      Function.update (takeBlock m f) f pg c = takeBlock m f c := fun c hc =>
    Function.update_of_ne (by omega) _ _
  obtain ⟨-, hbits⟩ := A.taken H hlow
  rw [hbits b hb, if_neg hne]

/-- A volume of 256 blocks whose first free page holds zeros. -/
theorem exists_zeroPage_256 : ∃ m, BitmapArea ⟨256, by decide⟩ m ∧
    FirstFree ⟨256, by decide⟩ m (dataStart 256 + 1) ∧ m (dataStart 256 + 1) = (fun _ => 0) ∧
    blockBit m 255 = false := by
  obtain ⟨m₀, -, F⟩ := run_diskFormat_blank ⟨256, by decide⟩ 0 0 0
    (show ([] : List UInt8).length ≤ 31 by decide) (blank_zero _) (by decide) (by decide)
  have A := F.bitmapArea
  have H := F.firstFree (by decide)
  have hbehind : blockBitmapBlocks 256 < dataStart 256 + 1 := A.lt_of_clear H.clear
  obtain ⟨m, hm⟩ : ∃ m, m = Function.update m₀ (dataStart 256 + 1) (fun _ => 0) := ⟨_, rfl⟩
  have hlow : ∀ c ≤ blockBitmapBlocks 256, m c = m₀ c := fun c hc => by
    rw [hm, Function.update_of_ne (by omega)]
  have hbit : ∀ b < 256, blockBit m b = decide (b < dataStart 256 + 1) := fun b hb => by
    have hsame : blockBit m b = blockBit m₀ b :=
      @BitmapArea.bit_congr ⟨256, by decide⟩ m₀ m b hlow hb
    exact hsame.trans (F.blockBit_lt hb)
  refine ⟨m, A.congr (by decide) hlow, FirstFree.of_prefix (by decide) hbit, ?_, ?_⟩
  · rw [hm, Function.update_self]
  · rw [hbit 255 (by decide)]
    decide

/-- There, three indices of an empty file are assigned blocks, one of them the first behind the inode. -/
theorem setBlockRun_mapExact_256 : ∃ m, SafeRun (SetBlock.step ⟨256, by decide⟩)
    (fun _ _ s' => s'.returned = 0 ∧ MapExact ⟨256, by decide⟩ s') [⟨3, 100⟩, ⟨12, 101⟩, ⟨5, 102⟩]
    ⟨m, emptyFile, 0, fun _ => 0⟩ := by
  obtain ⟨m, A, H, hzero, hclear⟩ := exists_zeroPage_256
  obtain ⟨s₁, hs₁, himage, hnode⟩ : ∃ s₁, SetBlock.step ⟨256, by decide⟩ ⟨3, 100⟩
      ⟨m, emptyFile, 0, fun _ => 0⟩ = some s₁ ∧ s₁.image = m ∧ s₁.node.indirectBlock = 0 :=
    ⟨_, by rw [SetBlock.step, run_inodeSetBlock_direct (by decide)]; rfl, rfl, rfl⟩
  obtain ⟨s₂, hs₂, hclear₂⟩ : ∃ s₂, SetBlock.step ⟨256, by decide⟩ ⟨12, 101⟩ s₁ = some s₂ ∧
      blockBit s₂.image 255 = false := by
    subst himage
    refine ⟨_, by rw [SetBlock.step, run_inodeSetBlock_create A H (by decide) (by decide) hnode]; rfl, ?_⟩
    rw [← hclear]
    exact blockBit_create A H (show 255 < 256 by decide) (by decide)
  have H₁ : FirstFree ⟨256, by decide⟩ s₁.image (dataStart 256 + 1) := by rwa [himage]
  refine ⟨m, setBlockRun_mapExact A (mapExact_emptyFile _ m) ?_ ?_⟩
  · refine Admits.cons hs₁ ⟨by decide, by decide, _, H.lt_total, H.clear⟩ ?_
    refine Admits.cons hs₂ ⟨by decide, by decide, _, H₁.lt_total, H₁.clear⟩ ?_
    exact ⟨⟨by decide, by decide, 255, by decide, hclear₂⟩, fun _ _ => trivial⟩
  · refine Admits.cons hs₁ (Or.inl (by decide)) ?_
    refine Admits.cons hs₂ (Or.inr ⟨hnode, _, H₁, fun j _ _ _ => ?_⟩) ?_
    · rw [himage, hzero]
      rfl
    · exact ⟨Or.inl (by decide), fun _ _ => trivial⟩

/-- On the same volume, the assignment to index 13 fails after the one to index 12. -/
theorem not_setBlockRun_mapExact_256 : ∃ m, BitmapArea ⟨256, by decide⟩ m ∧
    MapExact ⟨256, by decide⟩ ⟨m, emptyFile, 0, fun _ => 0⟩ ∧
    Admits (SetBlock.step ⟨256, by decide⟩) (SetBlock.Valid ⟨256, by decide⟩)
      [⟨12, 100⟩, ⟨13, 101⟩] ⟨m, emptyFile, 0, fun _ => 0⟩ ∧
    ¬SafeRun (SetBlock.step ⟨256, by decide⟩)
      (fun _ _ s' => s'.returned = 0 ∧ MapExact ⟨256, by decide⟩ s') [⟨12, 100⟩, ⟨13, 101⟩]
      ⟨m, emptyFile, 0, fun _ => 0⟩ := by
  obtain ⟨m, A, H, -, hclear⟩ := exists_zeroPage_256
  have hrun : run (DiskInterface.mapping ⟨256, by decide⟩)
      (inodeSetBlock ⟨256, by decide⟩ emptyFile 12 100) m = some _ :=
    run_inodeSetBlock_create A H (by decide) (by decide) rfl
  have hafter : blockBit (Function.update (takeBlock m (dataStart 256 + 1)) (dataStart 256 + 1)
      (indirectPage (m (dataStart 256 + 1)) 12 100)) 255 = blockBit m 255 :=
    blockBit_create A H (show 255 < 256 by decide) (by decide)
  rw [hclear] at hafter
  refine ⟨m, A, mapExact_emptyFile _ m, ?_, ?_⟩
  · refine Admits.cons (by rw [SetBlock.step, hrun]; rfl)
      ⟨by decide, by decide, _, H.lt_total, H.clear⟩ ?_
    exact ⟨⟨by decide, by decide, 255, by decide, hafter⟩, fun _ _ => trivial⟩
  · rintro ⟨s₁, hs₁, -, s₂, hs₂, ⟨hreturned, -⟩, -⟩
    rw [SetBlock.step, hrun] at hs₁
    obtain rfl := Option.some.inj hs₁
    obtain ⟨s₂', hs₂', hfail⟩ := SetBlock.step_refused ⟨256, by decide⟩ ⟨13, 101⟩
      ⟨_, { emptyFile with indirectBlock := UInt64.ofNat _ }, _, _⟩ (by decide) (H.number_ne_zero A)
    obtain rfl := Option.some.inj (hs₂.symm.trans hs₂')
    rw [hfail] at hreturned
    cases hreturned

end Nbtrfs
