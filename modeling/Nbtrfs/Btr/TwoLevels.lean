import Nbtrfs.Btr.SplitRuns
import Nbtrfs.Btr.Shape
import Nbtrfs.Btr.NodeImage

/-!
# A full tree of two levels

`putTwoLevels m r` stores a tree of two levels from block `r` on: the root, its nodes, and the leaves
with the keys 1, 2, .... The root and all nodes below it are full.
-/

namespace Nbtrfs

open BlockProg

/-- A full node, with its keys and children. -/
def fullNode (block parent : UInt64) (key child : ℕ → UInt64) : BTreeNode where
  blockNumber := block
  isLeaf := 0
  type := 0
  key := 0
  value := 0
  numKeys := UInt16.ofNat maxKeys
  words := Vector.ofFn fun i : Fin nodeWords =>
    if i.val < maxKeys then key i.val else if i.val < maxKeys + maxKeys then child (i.val - maxKeys)
    else if i.val = 501 then parent else 0

/-- The number of blocks of the tree. -/
def twoLevelBlocks : ℕ := 1 + maxKeys + maxKeys * maxKeys

/-- The node on block `b` of the tree. -/
def twoLevels (r b : ℕ) : BTreeNode :=
  if b = r then
    fullNode (UInt64.ofNat r) 0 (fun i => UInt64.ofNat (maxKeys * (i + 1)))
      fun i => UInt64.ofNat (r + 1 + i)
  else if b < r + 1 + maxKeys then
    fullNode (UInt64.ofNat b) (UInt64.ofNat r)
      (fun j => UInt64.ofNat (maxKeys * (b - (r + 1)) + j + 1))
      fun j => UInt64.ofNat (r + 1 + maxKeys + (maxKeys * (b - (r + 1)) + j))
  else
    leafNode (UInt64.ofNat b) (UInt64.ofNat (r + 1 + (b - (r + 1 + maxKeys)) / maxKeys))
      (UInt64.ofNat (b - (r + maxKeys)))

/-- The image with the tree from block `r` on. -/
def putTwoLevels (m : Image) (r : ℕ) : Image := fun b =>
  if r ≤ b ∧ b < r + twoLevelBlocks then
    (twoLevels r b).toPage (setBlockType BlockType.btreeNode (m b))
  else m b

variable {disk : DiskInterface} {m : Image} {r b i j : ℕ}

/-! ## Its pages -/

theorem word_fullNode {block parent : UInt64} {key child : ℕ → UInt64} {w : ℕ} (hw : w < nodeWords) :
    (fullNode block parent key child).word w =
      if w < maxKeys then key w else if w < maxKeys + maxKeys then child (w - maxKeys)
      else if w = 501 then parent else 0 := by
  rw [BTreeNode.word, fullNode]
  simp [Array.getD, hw]

section FullNode

variable {block parent : UInt64} {key child : ℕ → UInt64}

theorem keyAt_fullNode (hi : i < maxKeys) : (fullNode block parent key child).keyAt i = key i := by
  have hmax : maxKeys = 250 := rfl
  have hwords : nodeWords = 504 := rfl
  rw [BTreeNode.keyAt, word_fullNode (by omega), if_pos hi]

theorem childAt_fullNode (hi : i < maxKeys) :
    (fullNode block parent key child).childAt i = child i := by
  have hmax : maxKeys = 250 := rfl
  have hwords : nodeWords = 504 := rfl
  rw [BTreeNode.childAt, word_fullNode (by omega), if_neg (by omega), if_pos (by omega),
    Nat.add_sub_cancel_left]

theorem childAt_fullNode_last : (fullNode block parent key child).childAt maxKeys = 0 := by
  have hmax : maxKeys = 250 := rfl
  have hwords : nodeWords = 504 := rfl
  rw [BTreeNode.childAt, word_fullNode (by omega), if_neg (by omega), if_neg (by omega),
    if_neg (by omega)]

theorem parent_fullNode : (fullNode block parent key child).parent = parent := by
  have hmax : maxKeys = 250 := rfl
  have hwords : nodeWords = 504 := rfl
  rw [BTreeNode.parent, word_fullNode (by omega), if_neg (by omega), if_neg (by omega), if_pos rfl]

theorem numKeys_fullNode : (fullNode block parent key child).numKeys.toNat = maxKeys := rfl

theorem occupied_fullNode (h : ∀ i < maxKeys, child i ≠ 0) :
    (fullNode block parent key child).Occupied maxKeys where
  le := Nat.le_succ _
  ne_zero i hi := by
    rw [childAt_fullNode hi]
    exact h i hi
  past i hlo hi := by
    obtain rfl := le_antisymm hi hlo
    exact childAt_fullNode_last

end FullNode

theorem ofPage_putTwoLevels (hlo : r ≤ b) (hhi : b < r + twoLevelBlocks) :
    BTreeNode.ofPage (putTwoLevels m r b) = twoLevels r b := by
  rw [putTwoLevels, if_pos ⟨hlo, hhi⟩, BTreeNode.ofPage_toPage]

theorem isNode_putTwoLevels (hfit : r + twoLevelBlocks ≤ disk.addressable) (hlo : r ≤ b)
    (hhi : b < r + twoLevelBlocks) : IsNode disk.mapping (putTwoLevels m r) b where
  addr := DiskInterface.mapping_exactTo.ofNat (by omega) ((addressable_le disk).trans (by omega))
  type := by rw [putTwoLevels, if_pos ⟨hlo, hhi⟩, BTreeNode.blockType_toPage, blockType_setBlockType]

theorem putTwoLevels_of_lt (h : b < r) : putTwoLevels m r b = m b := by
  rw [putTwoLevels, if_neg (by omega)]

theorem blockBit_putTwoLevels (hbehind : blockBitmapBlocks disk.totalBlocks.toNat < r)
    (hb : b < disk.totalBlocks.toNat) : blockBit (putTwoLevels m r) b = blockBit m b :=
  BitmapArea.bit_congr (fun _ hc => putTwoLevels_of_lt (lt_of_le_of_lt hc hbehind)) hb

/-! ## Its shape -/

/-- The leaf with the number `k`. -/
def twoLevelLeaf (r k : ℕ) : Leaf := ⟨r + 1 + maxKeys + k, UInt64.ofNat (k + 1), 0, 0⟩

theorem leafNumber_lt (hi : i < maxKeys) (hj : j < maxKeys) :
    maxKeys * i + j < maxKeys * maxKeys := by
  simp only [maxKeys] at *
  omega

theorem twoLevelKey_le {k k' : ℕ} (hk' : k' < maxKeys * maxKeys) (h : k ≤ k') :
    UInt64.ofNat (k + 1) ≤ UInt64.ofNat (k' + 1) := by
  simp only [maxKeys] at *
  rw [UInt64.le_iff_toNat_le, toNat_ofNat_block (by omega), toNat_ofNat_block (by omega)]
  omega

theorem page_root (m : Image) (r : ℕ) : BTreeNode.ofPage (putTwoLevels m r r) =
    fullNode (UInt64.ofNat r) 0 (fun i => UInt64.ofNat (maxKeys * (i + 1)))
      fun i => UInt64.ofNat (r + 1 + i) := by
  have hblocks : twoLevelBlocks = 62751 := rfl
  rw [ofPage_putTwoLevels le_rfl (by omega), twoLevels, if_pos rfl]

theorem page_node (m : Image) (r : ℕ) (hi : i < maxKeys) :
    BTreeNode.ofPage (putTwoLevels m r (r + 1 + i)) =
      fullNode (UInt64.ofNat (r + 1 + i)) (UInt64.ofNat r)
        (fun j => UInt64.ofNat (maxKeys * i + j + 1))
        fun j => UInt64.ofNat (r + 1 + maxKeys + (maxKeys * i + j)) := by
  have hblocks : twoLevelBlocks = 1 + maxKeys + maxKeys * maxKeys := rfl
  rw [ofPage_putTwoLevels (by omega) (by omega), twoLevels, if_neg (by omega), if_pos (by omega),
    Nat.add_sub_cancel_left]

theorem page_leaf (m : Image) (r : ℕ) {k : ℕ} (hk : k < maxKeys * maxKeys) :
    BTreeNode.ofPage (putTwoLevels m r (r + 1 + maxKeys + k)) =
      leafNode (UInt64.ofNat (r + 1 + maxKeys + k)) (UInt64.ofNat (r + 1 + k / maxKeys))
        (UInt64.ofNat (k + 1)) := by
  have hblocks : twoLevelBlocks = 1 + maxKeys + maxKeys * maxKeys := rfl
  have hkey : r + 1 + maxKeys + k - (r + maxKeys) = k + 1 := by omega
  rw [ofPage_putTwoLevels (by omega) (by omega), twoLevels, if_neg (by omega), if_neg (by omega),
    Nat.add_sub_cancel_left, hkey]

section Shape

variable (hfit : r + twoLevelBlocks ≤ disk.addressable)
include hfit

theorem nodeBlock_toNat (hi : i < maxKeys) : (UInt64.ofNat (r + 1 + i)).toNat = r + 1 + i := by
  have hblocks : twoLevelBlocks = 62751 := rfl
  have hmax : maxKeys = 250 := rfl
  have hwrap := addressable_le disk
  exact toNat_ofNat_block (by omega)

theorem leafBlock_toNat {k : ℕ} (hk : k < maxKeys * maxKeys) :
    (UInt64.ofNat (r + 1 + maxKeys + k)).toNat = r + 1 + maxKeys + k := by
  have hblocks : twoLevelBlocks = 1 + maxKeys + maxKeys * maxKeys := rfl
  have hwrap := addressable_le disk
  exact toNat_ofNat_block (by omega)

theorem leafBlock_ne_zero {k : ℕ} (hk : k < maxKeys * maxKeys) :
    UInt64.ofNat (r + 1 + maxKeys + k) ≠ 0 := by
  have hblocks : twoLevelBlocks = 1 + maxKeys + maxKeys * maxKeys := rfl
  have hwrap := addressable_le disk
  exact ofNat_block_ne_zero (by omega) (by omega)

theorem nodeBlock_ne_zero (hi : i < maxKeys) : UInt64.ofNat (r + 1 + i) ≠ 0 := by
  have hblocks : twoLevelBlocks = 62751 := rfl
  have hmax : maxKeys = 250 := rfl
  have hwrap := addressable_le disk
  exact ofNat_block_ne_zero (by omega) (by omega)

/-- A leaf below a node. -/
theorem shaped_twoLevelLeaf {k : ℕ} (hk : k < maxKeys * maxKeys) :
    Shaped disk.mapping (putTwoLevels m r) false 0 (r + 1 + maxKeys + k) [twoLevelLeaf r k] := by
  have hblocks : twoLevelBlocks = 1 + maxKeys + maxKeys * maxKeys := rfl
  have hpage := page_leaf m r hk
  have hleaf : Leaf.onPage (putTwoLevels m r) (r + 1 + maxKeys + k) = twoLevelLeaf r k := by
    rw [Leaf.onPage, hpage]
    rfl
  rw [← hleaf]
  refine Shaped.leaf (isNode_putTwoLevels hfit (by omega) (by omega)) ?_ ?_
  · rw [hpage]
    rfl
  · rw [hpage]
    exact (by decide : (1 : UInt8) ≠ 0)

/-- A node below the root. -/
theorem shaped_twoLevelNode (hi : i < maxKeys) :
    Shaped disk.mapping (putTwoLevels m r) false 1 (r + 1 + i)
      ((List.range maxKeys).flatMap fun j => [twoLevelLeaf r (maxKeys * i + j)]) := by
  have hblocks : twoLevelBlocks = 1 + maxKeys + maxKeys * maxKeys := rfl
  have hpage := page_node m r hi
  have hnat : ∀ j < maxKeys, (UInt64.ofNat (r + 1 + maxKeys + (maxKeys * i + j))).toNat =
      r + 1 + maxKeys + (maxKeys * i + j) := fun j hj =>
    leafBlock_toNat hfit (leafNumber_lt hi hj)
  refine Shaped.node maxKeys (fun j => [twoLevelLeaf r (maxKeys * i + j)])
    (isNode_putTwoLevels hfit (by omega) (by omega)) ?_ ?_ ?_ ?_ ?_ ?_ ?_ ?_ ?_ ?_ <;> rw [hpage]
  · rfl
  · rfl
  · rw [numKeys_fullNode]
  · intro _
    rw [numKeys_fullNode]
    decide
  · exact fun j hj => by
      rw [childAt_fullNode hj]
      exact leafBlock_ne_zero hfit (leafNumber_lt hi hj)
  · exact fun j hlo hj => by
      obtain rfl := le_antisymm hj hlo
      exact childAt_fullNode_last
  · rw [numKeys_fullNode]
    omega
  · intro j hj
    have hdiv : (maxKeys * i + j) / maxKeys = i := by
      simp only [maxKeys] at *
      omega
    rw [childAt_fullNode hj, hnat j hj, page_leaf m r (leafNumber_lt hi hj),
      parent_leafNode, hdiv]
  · intro j hj _
    rw [keyAt_fullNode hj]
    refine ⟨⟨_, List.mem_singleton_self _, rfl⟩, ?_⟩
    rintro k ⟨l, hl, rfl⟩
    rw [List.mem_singleton.mp hl]
    exact UInt64.le_refl _
  · intro j hj
    rw [childAt_fullNode hj, hnat j hj]
    exact shaped_twoLevelLeaf hfit (leafNumber_lt hi hj)

/-- The root with its two levels. -/
theorem treeShaped_putTwoLevels : TreeShaped disk.mapping (putTwoLevels m r) r := by
  have hblocks : twoLevelBlocks = 1 + maxKeys + maxKeys * maxKeys := rfl
  have hpage := page_root m r
  refine ⟨2, (List.range maxKeys).flatMap fun i => (List.range maxKeys).flatMap fun j =>
    [twoLevelLeaf r (maxKeys * i + j)], ?_, ?_⟩
  · refine Shaped.node maxKeys (fun i => (List.range maxKeys).flatMap fun j =>
      [twoLevelLeaf r (maxKeys * i + j)])
      (isNode_putTwoLevels hfit le_rfl (by omega)) ?_ ?_ ?_ ?_ ?_ ?_ ?_ ?_ ?_ ?_ <;> rw [hpage]
    · rfl
    · rfl
    · rw [numKeys_fullNode]
    · intro htop
      cases htop
    · exact fun i hi => by
        rw [childAt_fullNode hi]
        exact nodeBlock_ne_zero hfit hi
    · exact fun i hlo hi => by
        obtain rfl := le_antisymm hi hlo
        exact childAt_fullNode_last
    · rw [numKeys_fullNode]
      omega
    · intro i hi
      rw [childAt_fullNode hi, nodeBlock_toNat hfit hi, page_node m r hi,
        parent_fullNode]
    · intro i hi _
      rw [keyAt_fullNode hi]
      have hlast : maxKeys * (i + 1) = maxKeys * i + (maxKeys - 1) + 1 := by
        simp only [maxKeys]
        omega
      rw [hlast]
      refine ⟨⟨_, List.mem_flatMap.mpr ⟨maxKeys - 1, List.mem_range.mpr (by decide),
        List.mem_singleton_self _⟩, rfl⟩, ?_⟩
      rintro k ⟨l, hl, rfl⟩
      obtain ⟨j, hj, hl⟩ := List.mem_flatMap.mp hl
      rw [List.mem_singleton.mp hl]
      have hj := List.mem_range.mp hj
      exact twoLevelKey_le (leafNumber_lt hi (by decide)) (by omega)
    · intro i hi
      rw [childAt_fullNode hi, nodeBlock_toNat hfit hi]
      exact shaped_twoLevelNode hfit hi
  · -- the leaves are in the order of their numbers
    have hkey : ∀ i j i' j', i < maxKeys → j < maxKeys → i' < maxKeys → j' < maxKeys →
        maxKeys * i + j ≤ maxKeys * i' + j' →
        (twoLevelLeaf r (maxKeys * i + j)).key ≤ (twoLevelLeaf r (maxKeys * i' + j')).key :=
      fun i j i' j' _ _ hi' hj' h => twoLevelKey_le (leafNumber_lt hi' hj') h
    refine List.pairwise_flatMap.mpr ⟨fun i hi => List.pairwise_flatMap.mpr
      ⟨fun j _ => List.pairwise_singleton _ _, ?_⟩, ?_⟩
    · refine List.pairwise_lt_range.imp_of_mem fun {j j'} hj hj' hlt l hl l' hl' => ?_
      rw [List.mem_singleton.mp hl, List.mem_singleton.mp hl']
      rw [List.mem_range] at hi hj hj'
      exact hkey i j i j' hi hj hi hj' (by omega)
    · refine List.pairwise_lt_range.imp_of_mem fun {i i'} hi hi' hlt l hl l' hl' => ?_
      obtain ⟨j, hj, hl⟩ := List.mem_flatMap.mp hl
      obtain ⟨j', hj', hl'⟩ := List.mem_flatMap.mp hl'
      rw [List.mem_singleton.mp hl, List.mem_singleton.mp hl']
      rw [List.mem_range] at hi hi' hj hj'
      refine hkey i j i' j' hi hj hi' hj' ?_
      simp only [maxKeys] at *
      omega

/-- A leaf is a tree in every set of blocks that has its block. -/
theorem nodeTree_twoLevelLeaf {k : ℕ} (hk : k < maxKeys * maxKeys) {K : Finset ℕ}
    (hmem : r + 1 + maxKeys + k ∈ K) :
    NodeTree disk.mapping (putTwoLevels m r) K (r + 1 + maxKeys + k) := by
  have hblocks : twoLevelBlocks = 1 + maxKeys + maxKeys * maxKeys := rfl
  have hpage := page_leaf m r hk
  refine NodeTree.leaf hmem (isNode_putTwoLevels hfit (by omega) (by omega)) ?_ ?_
  · rw [hpage]
    rfl
  · rw [hpage]
    exact (by decide : (1 : UInt8) ≠ 0)

/-- The blocks of the tree. -/
def twoLevelSet (r : ℕ) : Finset ℕ := Finset.Ico r (r + twoLevelBlocks)

/-- Each of the full nodes below the root is a tree of nodes of its own. -/
theorem nodeTree_twoLevelNode (hi : i < maxKeys) :
    NodeTree disk.mapping (putTwoLevels m r) ((twoLevelSet r).erase r) (r + 1 + i) := by
  have hblocks : twoLevelBlocks = 1 + maxKeys + maxKeys * maxKeys := rfl
  have hpage := page_node m r hi
  refine NodeTree.node (Finset.mem_erase.mpr ⟨by omega, Finset.mem_Ico.mpr ⟨by omega, by omega⟩⟩)
    (isNode_putTwoLevels hfit (by omega) (by omega)) ?_ ?_ ?_ ?_ <;> rw [hpage]
  · rfl
  · rfl
  · rw [numKeys_fullNode]
  · intro j hj hne
    rw [numKeys_fullNode] at hj
    rcases Nat.lt_or_eq_of_le hj with hj | rfl
    · have hk := leafNumber_lt hi hj
      rw [childAt_fullNode hj, leafBlock_toNat hfit hk]
      refine nodeTree_twoLevelLeaf hfit hk (Finset.mem_erase.mpr ⟨by omega,
        Finset.mem_erase.mpr ⟨by omega, Finset.mem_Ico.mpr ⟨by omega, by omega⟩⟩⟩)
    · exact absurd childAt_fullNode_last hne

/-- The root is a full node of trees. -/
theorem full_twoLevelRoot : Full disk (putTwoLevels m r) ((twoLevelSet r).erase r)
    (BTreeNode.ofPage (putTwoLevels m r r)) maxKeys := by
  rw [page_root]
  refine ⟨numKeys_fullNode, occupied_fullNode fun i hi => nodeBlock_ne_zero hfit hi, le_rfl,
    fun i hi => ?_, fun i hi j hj h => ?_⟩
  · rw [childAt_fullNode hi, nodeBlock_toNat hfit hi]
    exact nodeTree_twoLevelNode hfit hi
  · rw [childAt_fullNode hi, childAt_fullNode hj] at h
    have hnat := congrArg UInt64.toNat h
    rw [nodeBlock_toNat hfit hi, nodeBlock_toNat hfit hj] at hnat
    omega

/-- So is a node below it. -/
theorem full_twoLevelNode (hi : i < maxKeys) :
    Full disk (putTwoLevels m r) ((twoLevelSet r).erase r)
      (BTreeNode.ofPage (putTwoLevels m r (r + 1 + i))) maxKeys := by
  have hblocks : twoLevelBlocks = 1 + maxKeys + maxKeys * maxKeys := rfl
  have hk : ∀ j < maxKeys, maxKeys * i + j < maxKeys * maxKeys := fun j hj => leafNumber_lt hi hj
  rw [page_node m r hi]
  refine ⟨numKeys_fullNode, occupied_fullNode fun j hj => leafBlock_ne_zero hfit (hk j hj), le_rfl,
    fun j hj => ?_, fun j hj j' hj' h => ?_⟩
  · have hlt := hk j hj
    rw [childAt_fullNode hj, leafBlock_toNat hfit hlt]
    exact nodeTree_twoLevelLeaf hfit hlt (Finset.mem_erase.mpr ⟨by omega,
      Finset.mem_Ico.mpr ⟨by omega, by omega⟩⟩)
  · rw [childAt_fullNode hj, childAt_fullNode hj'] at h
    have hnat := congrArg UInt64.toNat h
    rw [leafBlock_toNat hfit (hk j hj), leafBlock_toNat hfit (hk j' hj')] at hnat
    omega

/-- The blocks of the tree are in use when their bits are set. -/
theorem inUse_putTwoLevels (A : BitmapArea disk m)
    (hbehind : blockBitmapBlocks disk.totalBlocks.toNat < r)
    (hset : ∀ b < r + twoLevelBlocks, blockBit m b = true) :
    InUse disk (putTwoLevels m r) (twoLevelSet r) := by
  have hle : disk.addressable ≤ disk.totalBlocks.toNat := min_le_left _ _
  have hlow : ∀ c ≤ blockBitmapBlocks disk.totalBlocks.toNat, putTwoLevels m r c = m c :=
    fun c hc => putTwoLevels_of_lt (by omega)
  refine ⟨A.congr (by omega) hlow, fun b hb => ?_, fun b hb => ?_, fun b hb => ?_⟩
  · have hb := Finset.mem_Ico.mp hb
    omega
  · have hb := Finset.mem_Ico.mp hb
    omega
  · have hb := Finset.mem_Ico.mp hb
    rw [blockBit_putTwoLevels hbehind (by omega), hset b (by omega)]

end Shape

end Nbtrfs
