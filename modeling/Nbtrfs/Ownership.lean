import Nbtrfs.Mknod
import Nbtrfs.Btr.Tidiness

/-!
# Who holds a block

`Owners` is bookkeeping that no program sees: for a block behind the metadata, the inode that it was
taken for, and whether it was to hold data or the indirect entries of the block map. On a `Consistent`
volume every pointer of every inode leads to a block that was taken for it. So no two pointers lead to
the same block, and none to metadata, to a node or to a free page.

Blocks are never given back here: of the functions that the file system calls only those that remove
entries call `free_page`. That is why the free blocks can stay as blank as they were made.
-/

namespace Nbtrfs

open BlockProg Bytes

/-- What a block was taken for: an entry of the block map of an inode, or its indirect block. -/
inductive Place where
  | entry (i : ℕ)
  | indirect
deriving DecidableEq

/-- For every block, the inode that it was taken for and its place there. -/
abbrev Owners := ℕ → Option (ℕ × Place)

/-- Entry `i` of the block map of an inode. -/
def blockAt (m : Image) (node : Inode) (i : ℕ) : UInt64 :=
  if h : i < 12 then node.directBlocks[i]
  else if node.indirectBlock = 0 then 0
  else load64 (m node.indirectBlock.toNat) (entryOffset i)

/-- The pointers of an inode lead to blocks that were taken for inode `n`. -/
structure Owns (own : Owners) (m : Image) (n : ℕ) (node : Inode) : Prop where
  entry : ∀ i ≤ maxIndex, blockAt m node i ≠ 0 → own (blockAt m node i).toNat = some (n, .entry i)
  indirect : node.indirectBlock ≠ 0 → own node.indirectBlock.toNat = some (n, .indirect)

/-- An inode, stored or in hand, that may be written to the slot it names. -/
structure Carries (disk : DiskInterface) (own : Owners) (m : Image) (node : Inode) : Prop where
  number : node.inodeNumber.toNat < inodeCapacity disk.totalBlocks.toNat
  owns : Owns own m node.inodeNumber.toNat node

/-- A block behind the metadata that is in use for data. -/
structure DataBlock (disk : DiskInterface) (m : Image) (b : ℕ) : Prop where
  behind : dataStart disk.totalBlocks.toNat ≤ b
  lt : b < disk.totalBlocks.toNat
  taken : blockBit m b = true
  type : blockType (m b) = BlockType.data.code

/-- Every pointer of every inode leads to a block that was taken for it. -/
structure Consistent (disk : DiskInterface) (own : Owners) (m : Image) : Prop where
  sound : Sound disk m
  slots : 0 < inodeTableBlocks disk.totalBlocks.toNat
  owned : ∀ {b p}, own b = some p → DataBlock disk m b
  pages : ∀ b, dataStart disk.totalBlocks.toNat ≤ b → b < disk.totalBlocks.toNat →
    blockType (m b) = BlockType.data.code ∨ blockType (m b) = BlockType.btreeNode.code
  free : ∀ b, dataStart disk.totalBlocks.toNat ≤ b → b < disk.totalBlocks.toNat →
    blockBit m b = false → ∀ o < blockSize, m b o = 0
  inodes : ∀ n < inodeCapacity disk.totalBlocks.toNat,
    Carries disk own m (inodeAt disk m n) ∧ Owns own m n (inodeAt disk m n)

/-- What an operation may change: the inodes with their data blocks, and whether it may change nodes. -/
structure Scope where
  inodes : Set ℕ
  tree : Prop

/-- From `m` to `m'` blocks stay taken, for what they were taken for, and only free blocks are taken;
nodes stay nodes, indirect blocks keep their entries, and what lies outside the scope stays as it is. -/
structure Keeps (disk : DiskInterface) (T : Scope) (own : Owners) (m : Image) (own' : Owners)
    (m' : Image) : Prop where
  owner : ∀ b p, own b = some p → own' b = some p
  new : ∀ b < disk.totalBlocks.toNat, ∀ p, own' b = some p → own b = some p ∨ blockBit m b = false
  taken : ∀ b < disk.totalBlocks.toNat, blockBit m b = true → blockBit m' b = true
  node : ∀ b, blockType (m b) = BlockType.btreeNode.code → blockType (m' b) = BlockType.btreeNode.code
  tree : ¬T.tree → ∀ b, LooksAlike (m b) (m' b)
  indirect : ∀ b n, own b = some (n, .indirect) → m' b = m b
  entry : ∀ b n i, own b = some (n, .entry i) → n ∉ T.inodes → m' b = m b
  inode : ∀ n < inodeCapacity disk.totalBlocks.toNat, n ∉ T.inodes →
    inodeAt disk m' n = inodeAt disk m n

variable {disk : DiskInterface} {T : Scope} {own own' own'' : Owners} {m m' m'' : Image}
  {node : Inode} {n i b f : ℕ} {pg : Bytes}

namespace Keeps

theorem refl (own : Owners) (m : Image) : Keeps disk T own m own m where
  owner _ _ h := h
  new _ _ _ h := Or.inl h
  taken _ _ h := h
  node _ h := h
  tree _ _ := LooksAlike.refl _
  indirect _ _ _ := rfl
  entry _ _ _ _ _ := rfl
  inode _ _ _ := rfl

/-- What two parts keep in turn is kept by both together. -/
theorem trans (h : Keeps disk T own m own' m') (h' : Keeps disk T own' m' own'' m'') :
    Keeps disk T own m own'' m'' where
  owner b p hb := h'.owner b p (h.owner b p hb)
  new b hb p hp := by
    rcases h'.new b hb p hp with hp | hclear
    · exact h.new b hb p hp
    · refine Or.inr (Bool.eq_false_iff.mpr fun hset => ?_)
      rw [h.taken b hb hset] at hclear
      cases hclear
  taken b hb hset := h'.taken b hb (h.taken b hb hset)
  node b hb := h'.node b (h.node b hb)
  tree hT b := (h.tree hT b).trans (h'.tree hT b)
  indirect b n hb := (h'.indirect b n (h.owner b _ hb)).trans (h.indirect b n hb)
  entry b n i hb hn := (h'.entry b n i (h.owner b _ hb) hn).trans (h.entry b n i hb hn)
  inode n hn hT := (h'.inode n hn hT).trans (h.inode n hn hT)

/-- The bookkeeping of a block that was free. -/
theorem owner_update {p : ℕ × Place} (hfree : own f = none) (b : ℕ) (q : ℕ × Place)
    (hb : own b = some q) : Function.update own f (some p) b = some q := by
  rw [Function.update_of_ne, hb]
  rintro rfl
  rw [hfree] at hb
  cases hb

/-- A block that was free may be taken for a pointer. -/
theorem claim {p : ℕ × Place} (h : Keeps disk T own m own m') (hfree : own f = none)
    (hclear : blockBit m f = false) : Keeps disk T own m (Function.update own f (some p)) m' where
  owner := owner_update hfree
  new b _ q hq := by
    by_cases hbf : b = f
    · rw [hbf]
      exact Or.inr hclear
    · rw [Function.update_of_ne hbf] at hq
      exact Or.inl hq
  taken := h.taken
  node := h.node
  tree := h.tree
  indirect := h.indirect
  entry := h.entry
  inode := h.inode

end Keeps

/-! ## Pointers -/

theorem blockAt_of_lt (h : i < 12) : blockAt m node i = node.directBlocks[i] := dif_pos h

theorem blockAt_of_zero (h : ¬i < 12) (hzero : node.indirectBlock = 0) : blockAt m node i = 0 := by
  rw [blockAt, dif_neg h, if_pos hzero]

theorem blockAt_of_ne (h : ¬i < 12) (hne : node.indirectBlock ≠ 0) :
    blockAt m node i = load64 (m node.indirectBlock.toNat) (entryOffset i) := by
  rw [blockAt, dif_neg h, if_neg hne]

/-- Pointers depend on the page of the indirect block. -/
theorem blockAt_congr (h : node.indirectBlock ≠ 0 → m' node.indirectBlock.toNat =
    m node.indirectBlock.toNat) : blockAt m' node i = blockAt m node i := by
  by_cases hi : i < 12
  · rw [blockAt_of_lt hi, blockAt_of_lt hi]
  · by_cases hzero : node.indirectBlock = 0
    · rw [blockAt_of_zero hi hzero, blockAt_of_zero hi hzero]
    · rw [blockAt_of_ne hi hzero, blockAt_of_ne hi hzero, h hzero]

/-- What an inode owns stays owned. -/
theorem Owns.congr (h : Owns own m n node) (howner : ∀ b p, own b = some p → own' b = some p)
    (hindirect : ∀ b n, own b = some (n, .indirect) → m' b = m b) : Owns own' m' n node := by
  have hsame : ∀ i, blockAt m' node i = blockAt m node i := fun i =>
    blockAt_congr fun hne => hindirect _ _ (h.indirect hne)
  refine ⟨fun i hi hne => ?_, fun hne => howner _ _ (h.indirect hne)⟩
  rw [hsame] at hne ⊢
  exact howner _ _ (h.entry i hi hne)

theorem Carries.keep (h : Carries disk own m node) (hk : Keeps disk T own m own' m') :
    Carries disk own' m' node :=
  ⟨h.number, h.owns.congr hk.owner hk.indirect⟩

/-- What is owned depends on the pointers of the inode only. -/
theorem Owns.congr_node {node' : Inode} (h : Owns own m n node)
    (hdirect : node'.directBlocks = node.directBlocks)
    (hindirect : node'.indirectBlock = node.indirectBlock) : Owns own m n node' := by
  have hsame : ∀ i, blockAt m node' i = blockAt m node i := fun i => by
    simp only [blockAt, hdirect, hindirect]
  refine ⟨fun i hi hne => ?_, fun hne => ?_⟩
  · rw [hsame] at hne ⊢
    exact h.entry i hi hne
  · rw [hindirect] at hne ⊢
    exact h.indirect hne

/-- The copy of an inode in hand may get other fields. -/
theorem Carries.congr {node' : Inode} (h : Carries disk own m node)
    (hnumber : node'.inodeNumber = node.inodeNumber) (hdirect : node'.directBlocks = node.directBlocks)
    (hindirect : node'.indirectBlock = node.indirectBlock) : Carries disk own m node' := by
  refine ⟨by rw [hnumber]; exact h.number, ?_⟩
  rw [hnumber]
  exact h.owns.congr_node hdirect hindirect

/-- An inode without pointers. -/
theorem owns_of_zero (hdirect : ∀ i (h : i < 12), node.directBlocks[i] = 0)
    (hindirect : node.indirectBlock = 0) : Owns own m n node := by
  refine ⟨fun i _ hne => absurd ?_ hne, fun hne => absurd hindirect hne⟩
  by_cases hi : i < 12
  · rw [blockAt_of_lt hi, hdirect i hi]
  · exact blockAt_of_zero hi hindirect

namespace Consistent

variable (C : Consistent disk own m)
include C

theorem capacity_pos : 0 < inodeCapacity disk.totalBlocks.toNat :=
  Nat.mul_pos (by decide) C.slots

theorem carries_zeroInode : Carries disk own m zeroInode where
  number := C.capacity_pos
  owns := owns_of_zero (fun i hi => by simp [zeroInode]) rfl

/-- A free block lies behind the metadata. -/
theorem behind_of_clear (hclear : blockBit m b = false) : dataStart disk.totalBlocks.toNat ≤ b := by
  by_contra hlt
  rw [C.sound.metadata b (by omega)] at hclear
  cases hclear

/-- A free block is blank, and so has the type of data. -/
theorem type_of_clear (hb : b < disk.totalBlocks.toNat) (hclear : blockBit m b = false) :
    blockType (m b) = BlockType.data.code := by
  have hzero := C.free b (C.behind_of_clear hclear) hb hclear
  have hsame : blockType (m b) = blockType fun _ => 0 := blockType_congr fun o ho =>
    hzero o (ho.trans (by decide))
  rw [hsame]
  decide

theorem own_of_clear (hclear : blockBit m b = false) : own b = none := by
  cases h : own b with
  | none => rfl
  | some p =>
      rw [(C.owned h).taken] at hclear
      cases hclear

theorem own_of_node (hnode : blockType (m b) = BlockType.btreeNode.code) : own b = none := by
  cases h : own b with
  | none => rfl
  | some p => exact absurd (BlockType.code_injective ((C.owned h).type.symm.trans hnode)) (by decide)

/-- A node that has a number lies behind the metadata, on a block that is taken. -/
theorem node_block (hnode : blockType (m b) = BlockType.btreeNode.code) :
    dataStart disk.totalBlocks.toNat ≤ b ∧ (b < disk.totalBlocks.toNat → blockBit m b = true) := by
  have hother : ∀ t : BlockType, t ≠ .btreeNode → blockType (m b) ≠ t.code := fun t ht h =>
    ht (BlockType.code_injective (h.symm.trans hnode))
  constructor
  · by_contra hlt
    by_cases hzero : b = 0
    · rw [hzero] at hother
      exact hother .super (by decide) C.sound.layout.super
    · by_cases htable : b < inodeTableStart disk.totalBlocks.toNat
      · exact hother .bitmap (by decide) (C.sound.layout.bitmap b (by omega) htable)
      · exact hother .inode (by decide) (C.sound.layout.table b (by omega) (by omega))
  · intro hb
    by_contra hclear
    exact hother .data (by decide) (C.type_of_clear hb (by simpa using hclear))

/-! ## Single changes -/

/-- The inodes, and what they own, stay as they are. -/
theorem frame (S' : Sound disk m')
    (hslot : ∀ n < inodeCapacity disk.totalBlocks.toNat, inodeAt disk m' n = inodeAt disk m n)
    (hindirect : ∀ b n, own b = some (n, .indirect) → m' b = m b)
    (howned : ∀ b p, own b = some p → DataBlock disk m' b)
    (hpages : ∀ b, dataStart disk.totalBlocks.toNat ≤ b → b < disk.totalBlocks.toNat →
      blockType (m' b) = BlockType.data.code ∨ blockType (m' b) = BlockType.btreeNode.code)
    (hfree : ∀ b, dataStart disk.totalBlocks.toNat ≤ b → b < disk.totalBlocks.toNat →
      blockBit m' b = false → ∀ o < blockSize, m' b o = 0) : Consistent disk own m' where
  sound := S'
  slots := C.slots
  owned h := howned _ _ h
  pages := hpages
  free := hfree
  inodes n hn := by
    obtain ⟨hcarries, howns⟩ := C.inodes n hn
    rw [hslot n hn]
    exact ⟨⟨hcarries.number, hcarries.owns.congr (fun _ _ h => h) hindirect⟩,
      howns.congr (fun _ _ h => h) hindirect⟩

/-- Taking a block changes neither inodes nor pages behind the metadata. -/
theorem takeBlock (hf : f < disk.totalBlocks.toNat) : Consistent disk own (takeBlock m f) ∧
    Keeps disk T own m own (Nbtrfs.takeBlock m f) := by
  obtain ⟨S', hrel⟩ := C.sound.takeBlock hf
  have hstart : inodeBitmapStart disk.totalBlocks.toNat =
    1 + blockBitmapBlocks disk.totalBlocks.toNat := rfl
  have hbitmap := inodeBitmapStart_le disk.totalBlocks.toNat
  have htable := inodeTableStart_le disk.totalBlocks.toNat
  have hsame : ∀ c, inodeBitmapStart disk.totalBlocks.toNat ≤ c →
      Nbtrfs.takeBlock m f c = m c := fun c hc => takeBlock_of_behind hf (by omega)
  have hslot : ∀ n, inodeAt disk (Nbtrfs.takeBlock m f) n = inodeAt disk m n := fun n => by
    rw [inodeAt, hsame _ (hbitmap.trans (slotBlock_ge disk n)), inodeAt]
  have hdata : ∀ c, dataStart disk.totalBlocks.toNat ≤ c → Nbtrfs.takeBlock m f c = m c :=
    fun c hc => hsame c (by omega)
  refine ⟨C.frame S' (fun n _ => hslot n) (fun c k hc => hdata c (C.owned hc).behind)
    (fun c p hc => ?_) (fun c hlo hhi => ?_) (fun c hlo hhi hclear => ?_), ?_⟩
  · have h := C.owned hc
    exact ⟨h.behind, h.lt, hrel.taken c h.lt h.taken, by rw [hdata c h.behind, h.type]⟩
  · rw [hdata c hlo]
    exact C.pages c hlo hhi
  · rw [hdata c hlo]
    refine C.free c hlo hhi ?_
    rw [blockBit_takeBlock] at hclear
    split at hclear
    · cases hclear
    · exact hclear
  · exact {
      owner := fun _ _ h => h
      new := fun _ _ _ h => Or.inl h
      taken := hrel.taken
      node := hrel.node
      tree := fun _ c => looksAlike_takeBlock C.sound.layout hf c
      indirect := fun c k hc => hdata c (C.owned hc).behind
      entry := fun c k i hc _ => hdata c (C.owned hc).behind
      inode := fun k _ _ => hslot k }

omit C in
/-- Bits of the block bitmap do not change with a page behind the metadata. -/
theorem blockBit_updatePage (hlo : dataStart disk.totalBlocks.toNat ≤ b) (pg : Bytes) {c : ℕ}
    (hc : c < disk.totalBlocks.toNat) : blockBit (Function.update m b pg) c = blockBit m c := by
  have hbitmap := inodeBitmapStart_le disk.totalBlocks.toNat
  have htable := inodeTableStart_le disk.totalBlocks.toNat
  have hstart : inodeBitmapStart disk.totalBlocks.toNat =
    1 + blockBitmapBlocks disk.totalBlocks.toNat := rfl
  exact BitmapArea.bit_congr (fun c hc => Function.update_of_ne (by omega) _ _) hc

omit C in
/-- Nor do the inodes. -/
theorem inodeAt_updatePage (hlo : dataStart disk.totalBlocks.toNat ≤ b) (pg : Bytes)
    (hn : n < inodeCapacity disk.totalBlocks.toNat) :
    inodeAt disk (Function.update m b pg) n = inodeAt disk m n := by
  have hslot := slotBlock_lt hn
  rw [inodeAt, Function.update_of_ne (by omega), inodeAt]

/-- The metadata stays sound. -/
theorem sound_updatePage (pg : Bytes) (hlo : dataStart disk.totalBlocks.toNat ≤ b) :
    Sound disk (Function.update m b pg) := by
  have hpos := inodeTableStart_pos disk.totalBlocks.toNat
  have htable := inodeTableStart_le disk.totalBlocks.toNat
  have hlow : ∀ c < dataStart disk.totalBlocks.toNat, Function.update m b pg c = m c :=
    fun c hc => Function.update_of_ne (by omega) _ _
  have htotal := C.sound.layout.le_total
  refine ⟨C.sound.layout.congr ?_ ?_ fun c hc => ?_, fun c hc => ?_, C.sound.near⟩
  · rw [hlow 0 (by omega)]
  · rw [hlow 0 (by omega)]
  · rw [hlow c hc]
  · rw [blockBit_updatePage hlo pg (by omega), C.sound.metadata c hc]

/-- A page behind the metadata may change, unless it holds the entries of an indirect block. -/
theorem updatePage (pg : Bytes) (hlo : dataStart disk.totalBlocks.toNat ≤ b)
    (htaken : b < disk.totalBlocks.toNat → blockBit m b = true)
    (hnode : blockType (m b) = BlockType.btreeNode.code → blockType pg = BlockType.btreeNode.code)
    (hpage : b < disk.totalBlocks.toNat ∧ blockType pg = BlockType.data.code ∨
      T.tree ∧ own b = none ∧ blockType pg = BlockType.btreeNode.code)
    (hown : ∀ p, own b = some p → ∃ n ∈ T.inodes, ∃ i, p = (n, .entry i)) :
    Consistent disk own (Function.update m b pg) ∧
      Keeps disk T own m own (Function.update m b pg) := by
  have hbit : ∀ c < disk.totalBlocks.toNat, blockBit (Function.update m b pg) c = blockBit m c :=
    fun c hc => blockBit_updatePage hlo pg hc
  have hindirect : ∀ c k, own c = some (k, .indirect) → Function.update m b pg c = m c := by
    intro c k hc
    refine Function.update_of_ne ?_ _ _
    rintro rfl
    obtain ⟨n, -, i, hp⟩ := hown _ hc
    cases hp
  refine ⟨C.frame (C.sound_updatePage pg hlo) (fun n hn => inodeAt_updatePage hlo pg hn) hindirect
    (fun c p hc => ?_) (fun c hlo' hhi => ?_) (fun c hlo' hhi hclear => ?_), ?_⟩
  · -- a page that belongs to an inode becomes another page of data
    have h := C.owned hc
    refine ⟨h.behind, h.lt, by rw [hbit c h.lt, h.taken], ?_⟩
    by_cases hcb : c = b
    · subst hcb
      rw [Function.update_self]
      rcases hpage with ⟨-, hpage⟩ | ⟨-, hnone, -⟩
      · exact hpage
      · rw [hnone] at hc
        cases hc
    · rw [Function.update_of_ne hcb, h.type]
  · by_cases hcb : c = b
    · rw [hcb, Function.update_self]
      exact hpage.imp And.right fun h => h.2.2
    · rw [Function.update_of_ne hcb]
      exact C.pages c hlo' hhi
  · -- the page itself is taken
    rw [hbit c hhi] at hclear
    have hcb : c ≠ b := by
      rintro rfl
      rw [htaken hhi] at hclear
      cases hclear
    rw [Function.update_of_ne hcb]
    exact C.free c hlo' hhi hclear
  · exact {
      owner := fun _ _ h => h
      new := fun _ _ _ h => Or.inl h
      taken := fun c hc hset => by rw [hbit c hc, hset]
      node := fun c hc => by
        by_cases hcb : c = b
        · rw [hcb] at hc ⊢
          rw [Function.update_self, hnode hc]
        · rw [Function.update_of_ne hcb, hc]
      tree := fun hT c => by
        by_cases hcb : c = b
        · subst hcb
          rw [Function.update_self]
          obtain ⟨hb, htype⟩ := hpage.resolve_right fun h => hT h.1
          have hdata := (C.pages c hlo hb).resolve_right fun h =>
            absurd (BlockType.code_injective ((hnode h).symm.trans htype)) (by decide)
          exact LooksAlike.of_type hdata htype (by decide) (by decide)
        · rw [Function.update_of_ne hcb]
          exact LooksAlike.refl _
      indirect := hindirect
      entry := fun c k i hc hk => by
        refine Function.update_of_ne ?_ _ _
        rintro rfl
        obtain ⟨n, hn, j, hp⟩ := hown _ hc
        cases hp
        exact hk hn
      inode := fun k hk _ => inodeAt_updatePage hlo pg hk }

/-- A data block that was taken for nothing so far may be taken for a pointer. -/
theorem claim {p : ℕ × Place} (hfree : own f = none) (hdata : DataBlock disk m f) :
    Consistent disk (Function.update own f (some p)) m := by
  have howner := Keeps.owner_update (p := p) hfree
  refine ⟨C.sound, C.slots, fun {b} p' hb => ?_, C.pages, C.free, fun n hn => ?_⟩
  · by_cases hbf : b = f
    · rwa [hbf]
    · rw [Function.update_of_ne hbf] at hb
      exact C.owned hb
  · obtain ⟨hcarries, howns⟩ := C.inodes n hn
    exact ⟨⟨hcarries.number, hcarries.owns.congr howner fun _ _ _ => rfl⟩,
      howns.congr howner fun _ _ _ => rfl⟩

/-- The inode area changes; the inodes that do are ones that may be stored there. -/
theorem onlyInodes (h : OnlyInodes disk m m')
    (hslot : ∀ n < inodeCapacity disk.totalBlocks.toNat, inodeAt disk m' n ≠ inodeAt disk m n →
      n ∈ T.inodes ∧ Carries disk own m (inodeAt disk m' n) ∧ Owns own m n (inodeAt disk m' n)) :
    Consistent disk own m' ∧ Keeps disk T own m own m' := by
  have hdata : ∀ b, dataStart disk.totalBlocks.toNat ≤ b → m' b = m b := fun b hb =>
    h.other b (Or.inr hb)
  have hindirect : ∀ b n, own b = some (n, .indirect) → m' b = m b := fun b _ hb =>
    hdata b (C.owned hb).behind
  refine ⟨⟨h.sound C.sound, C.slots, fun {b} p hb => ?_, fun b hlo hhi => ?_,
    fun b hlo hhi hclear => ?_, fun n hn => ?_⟩, ?_⟩
  · have hblock := C.owned hb
    exact ⟨hblock.behind, hblock.lt, by rw [h.blockBit hblock.lt, hblock.taken],
      by rw [h.type, hblock.type]⟩
  · rw [h.type]
    exact C.pages b hlo hhi
  · rw [h.blockBit hhi] at hclear
    rw [hdata b hlo]
    exact C.free b hlo hhi hclear
  · have hnew : Carries disk own m (inodeAt disk m' n) ∧ Owns own m n (inodeAt disk m' n) := by
      by_cases hsame : inodeAt disk m' n = inodeAt disk m n
      · rw [hsame]
        exact C.inodes n hn
      · exact (hslot n hn hsame).2
    exact ⟨⟨hnew.1.number, hnew.1.owns.congr (fun _ _ h => h) hindirect⟩,
      hnew.2.congr (fun _ _ h => h) hindirect⟩
  · exact {
      owner := fun _ _ h => h
      new := fun _ _ _ h => Or.inl h
      taken := fun b hb hset => by rw [h.blockBit hb, hset]
      node := fun b hb => by rw [h.type, hb]
      tree := fun _ => h.looksAlike C.sound.layout
      indirect := hindirect
      entry := fun b _ _ hb _ => hdata b (C.owned hb).behind
      inode := fun n hn hT => by
        by_contra hne
        exact hT (hslot n hn hne).1 }

/-- An inode may be stored in its slot. -/
theorem putInode (hnode : Carries disk own m node) (hT : node.inodeNumber.toNat ∈ T.inodes) :
    Consistent disk own (putInode disk m node.inodeNumber.toNat node) ∧
      Keeps disk T own m own (Nbtrfs.putInode disk m node.inodeNumber.toNat node) := by
  refine C.onlyInodes (OnlyInodes.putInode hnode.number node) fun n _ hne => ?_
  by_cases hn : n = node.inodeNumber.toNat
  · rw [hn, inodeAt_putInode_self]
    exact ⟨hT, hnode, hnode.owns⟩
  · exact absurd (inodeAt_putInode_ne hn) hne

/-- A bit of the inode bitmap may change. -/
theorem putInodeBit (hn : n < 4092 * inodeBitmapBlocks disk.totalBlocks.toNat) (v : Bool) :
    Consistent disk own (putAreaBit m (inodeBitmapStart disk.totalBlocks.toNat) n v) ∧
      Keeps disk T own m own (putAreaBit m (inodeBitmapStart disk.totalBlocks.toNat) n v) := by
  refine C.onlyInodes (OnlyInodes.putAreaBit hn v) fun k _ hne => ?_
  rw [inodeAt, putInodeBit_slotBlock n k v hn, ← inodeAt] at hne
  exact absurd rfl hne

end Consistent

/-! ## The protocol -/

/-- Pages that may be announced: metadata, nodes, and blocks that hold data. -/
def stored (disk : DiskInterface) (own : Owners) (m : Image) : Set UInt64 :=
  {q | q.toNat < dataStart disk.totalBlocks.toNat ∨ ∃ b, disk.mapping.addr q = some b ∧
    (blockType (m b) = BlockType.btreeNode.code ∨ ∃ n i, own b = some (n, .entry i))}

/-- Indirect blocks. -/
def indirectBlocks (own : Owners) : Set UInt64 := {q | ∃ n, own q.toNat = some (n, .indirect)}

/-- Consistent volumes, changed within a scope: only indirect blocks and pages of `E` stay
unannounced, and indirect blocks are never announced. -/
def ownership (disk : DiskInterface) (T : Scope) (E : Set UInt64) : Protocol Owners where
  inv := Consistent disk
  rel := Keeps disk T
  refl := Keeps.refl
  trans := Keeps.trans
  allowance own m := ⟨indirectBlocks own ∪ E, stored disk own m⟩
  grow := by
    intro own m own' m' h
    refine ⟨Set.union_subset_union_left _ ?_, ?_⟩
    · rintro q ⟨n, hq⟩
      exact ⟨n, h.owner _ _ hq⟩
    · rintro q (hq | ⟨b, haddr, hnode | ⟨n, i, hb⟩⟩)
      · exact Or.inl hq
      · exact Or.inr ⟨b, haddr, Or.inl (h.node b hnode)⟩
      · exact Or.inr ⟨b, haddr, Or.inr ⟨n, i, h.owner _ _ hb⟩⟩

/-- The tree functions keep to it, where they may change nodes. -/
theorem nodeClosed_ownership (E : Set UInt64) (hT : T.tree) : NodeClosed disk (ownership disk T E) where
  sound h := h.sound
  keep h := h.node
  take h hb _ := h.takeBlock hb
  fresh {own m b pg} h hb hclear hpage := by
    have hbehind := Consistent.behind_of_clear h hclear
    have hstart : inodeBitmapStart disk.totalBlocks.toNat =
      1 + blockBitmapBlocks disk.totalBlocks.toNat := rfl
    have hbitmap := inodeBitmapStart_le disk.totalBlocks.toNat
    have htable := inodeTableStart_le disk.totalBlocks.toNat
    have hown := Consistent.own_of_clear h hclear
    obtain ⟨C', hkeeps⟩ := h.takeBlock (T := T) hb
    obtain ⟨C'', hkeeps'⟩ := C'.updatePage (T := T) pg hbehind
      (fun _ => by rw [blockBit_takeBlock, if_pos rfl]) (fun _ => hpage) (Or.inr ⟨hT, hown, hpage⟩)
      fun p hp => by
        rw [hown] at hp
        cases hp
    exact ⟨C'', hkeeps.trans hkeeps'⟩
  node {own m b pg} h hb hpage := by
    have hown := Consistent.own_of_node h hb
    obtain ⟨hlo, htaken⟩ := Consistent.node_block h hb
    exact h.updatePage _ hlo htaken (fun _ => hpage) (Or.inr ⟨hT, hown, hpage⟩) fun p hp => by
      rw [hown] at hp
      cases hp
  bitmaps own m q hq := Or.inl (lt_of_lt_of_le hq
    ((inodeBitmapStart_le _).trans (inodeTableStart_le _)))
  nodes _ h := by
    obtain ⟨b, haddr, hnode⟩ := h
    exact Or.inr ⟨b, haddr, Or.inl hnode⟩

end Nbtrfs
