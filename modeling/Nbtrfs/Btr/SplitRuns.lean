import Nbtrfs.Btr.SplitChild
import Nbtrfs.Btr.MapRuns

/-!
# Splits keep the children

The results on both splits for a full node and its pages, and a full tree on a formatted volume to run
them on.
-/

namespace Nbtrfs

open BlockProg

variable {disk : DiskInterface} {m m' : Image} {K : Finset ℕ} {r n : ℕ} {leaves : List Leaf}
  {node child : BTreeNode}

/-- Both splits of a full node with free pages keep the sequence of its children. -/
theorem split_children {p index : ℕ} (U : InUse disk m K) (R : Full disk m K child n)
    (hroom : node.numKeys.toNat < maxKeys) (hocc : node.Occupied p)
    (hp : p ≤ node.numKeys.toNat + 1) (hindex : index < p)
    (hbelow : ∀ i < p, NodeTree disk.mapping m K (node.childAt i).toNat) :
    (2 ≤ nearFree disk m → ∃ m' root' a b,
      run disk.mapping (btreeSplitRoot disk child) m = some (root', m') ∧
        RootSplit m m' child root' a b) ∧
    (0 < nearFree disk m → ∃ m' node' child' b,
      run disk.mapping (btreeSplitChild disk node index child) m = some ((node', child'), m') ∧
        ChildSplit m m' node child node' child' index b ∧ node'.Occupied (p + 1)) :=
  ⟨fun hfree => by
      obtain ⟨m', root', a, b, hrun, hsplit, -⟩ := btreeSplitRoot_children U hfree R
      exact ⟨m', root', a, b, hrun, hsplit⟩,
    fun hfree => btreeSplitChild_children U hfree R hroom hocc hp hindex hbelow⟩

/-! ## A full flat tree -/

namespace FlatTree

/-- The blocks of a flat tree. -/
def blocks (r : ℕ) (leaves : List Leaf) : Finset ℕ := Insert.insert r (leaves.map Leaf.block).toFinset

theorem mem_blocks {b : ℕ} : b ∈ blocks r leaves ↔ b = r ∨ ∃ l ∈ leaves, l.block = b := by
  rw [blocks, Finset.mem_insert, List.mem_toFinset, List.mem_map]

/-- The pages of a flat tree are in use. -/
theorem inUse (T : FlatTree disk m r leaves) : InUse disk m (blocks r leaves) where
  area := T.area
  lt b hb := by
    have hle : disk.addressable ≤ disk.totalBlocks.toNat := min_le_left _ _
    rcases mem_blocks.mp hb with rfl | ⟨l, hl, rfl⟩
    · exact T.root_lt.trans_le hle
    · exact (T.leaf l hl).lt.trans_le hle
  behind b hb := by
    rcases mem_blocks.mp hb with rfl | ⟨l, hl, rfl⟩
    · exact T.root_used.1
    · exact (T.leaf_used l hl).1
  bit b hb := by
    rcases mem_blocks.mp hb with rfl | ⟨l, hl, rfl⟩
    · exact T.root_used.2
    · exact (T.leaf_used l hl).2

/-- The child at position `i` is the leaf with that number. -/
theorem exists_child (T : FlatTree disk m r leaves) {i : ℕ} (hi : i < leaves.length) :
    ((BTreeNode.ofPage (m r)).childAt i).toNat = leaves[i].block ∧
      (BTreeNode.ofPage (m r)).childAt i ≠ 0 := by
  have hle := T.root.le
  have L := T.leaf _ (List.getElem_mem hi)
  have hlt := L.lt
  have hwrap := addressable_le disk
  rw [T.root.child i (by omega), blockOf_of_getElem? (List.getElem?_eq_getElem hi)]
  exact ⟨toNat_ofNat_block (by omega), L.number_ne_zero⟩

theorem occupied (T : FlatTree disk m r leaves) :
    (BTreeNode.ofPage (m r)).Occupied leaves.length where
  le := T.root.le.trans (Nat.le_succ _)
  ne_zero _ hi := (T.exists_child hi).2
  past _ hlo hi := (T.root.child _ hi).trans (blockOf_of_le hlo)

theorem nodeTree_leaf (T : FlatTree disk m r leaves) {l : Leaf} (hl : l ∈ leaves) {K : Finset ℕ}
    (hK : l.block ∈ K) : NodeTree disk.mapping m K l.block :=
  .leaf hK (T.leaf l hl).isNode (T.leaf l hl).blockNumber (T.leaf l hl).isLeaf

/-- The root of a full flat tree is a full node. -/
theorem full (T : FlatTree disk m r leaves) (hfull : leaves.length = maxKeys) :
    Full disk m (blocks r leaves) (BTreeNode.ofPage (m r)) maxKeys where
  numKeys := T.root.numKeys.trans hfull
  occupied := hfull ▸ T.occupied
  count := le_rfl
  tree i hi := by
    have hi : i < leaves.length := by omega
    have hmem := List.getElem_mem hi
    rw [(T.exists_child hi).1]
    exact T.nodeTree_leaf hmem (mem_blocks.mpr (Or.inr ⟨_, hmem, rfl⟩))
  inj i hi j hj h := by
    have hi : i < leaves.length := by omega
    have hj : j < leaves.length := by omega
    have hblock := congrArg UInt64.toNat h
    rw [(T.exists_child hi).1, (T.exists_child hj).1] at hblock
    have hleaf := List.inj_on_of_nodup_map T.distinct (List.getElem_mem hi) (List.getElem_mem hj) hblock
    exact (T.distinct.of_map _).getElem_inj_iff.mp hleaf

/-- A flat tree is a tree of nodes. -/
theorem nodeTree (T : FlatTree disk m r leaves) : NodeTree disk.mapping m (blocks r leaves) r := by
  refine .node (mem_blocks.mpr (Or.inl rfl)) T.isNode T.root.blockNumber T.root.isLeaf
    (T.root.numKeys.trans_le T.root.le) fun i hi hne => ?_
  have hle := T.root.le
  rw [T.root.numKeys] at hi
  have hlt : i < leaves.length := by
    by_contra hge
    exact hne (T.occupied.past i (by omega) (by omega))
  have hmem := List.getElem_mem hlt
  rw [(T.exists_child hlt).1]
  exact T.nodeTree_leaf hmem (Finset.mem_erase.mpr
    ⟨T.toFlatShape.block_ne hmem, mem_blocks.mpr (Or.inr ⟨_, hmem, rfl⟩)⟩)

end FlatTree

/-- On a fresh volume a flat tree can be filled. -/
theorem Fresh.exists_flatTree {uid gid : UInt32} {m₀ : Image} (F : Fresh disk uid gid m₀) {k : ℕ}
    (hk : k ≤ maxKeys) (hroom : dataStart disk.totalBlocks.toNat + 1 + k < disk.addressable) :
    ∃ m leaves, FlatTree disk m (dataStart disk.totalBlocks.toNat + 1) leaves ∧
      leaves.length = k ∧ ∀ b < disk.totalBlocks.toNat,
        Nbtrfs.blockBit m b = decide (b < dataStart disk.totalBlocks.toNat + 1 + 1 + k) := by
  induction k with
  | zero =>
      obtain ⟨-, -, m, -, T, hbits⟩ := F.exists_tree (by omega)
      exact ⟨m, [], T, rfl, hbits⟩
  | succ k ih =>
      obtain ⟨m, leaves, T, hlen, hbits⟩ := ih (by omega) (by omega)
      have H : FirstFree disk m (dataStart disk.totalBlocks.toNat + 1 + 1 + k) :=
        FirstFree.of_prefix (by omega) hbits
      obtain ⟨m', -, T', hbits'⟩ := T.insert H (by omega) 0 0 0
      refine ⟨m', _, T', ?_, prefix_succ hbits hbits'⟩
      rw [insertLeaf, List.length_insertIdx_of_le_length (leafPosition_le _ _ _), hlen]

/-- A node whose one child is the tree. -/
theorem FlatTree.exists_parent (T : FlatTree disk m r leaves) : ∃ node : BTreeNode,
    node.numKeys.toNat = 0 ∧ node.Occupied 1 ∧
      ∀ i < 1, NodeTree disk.mapping m (blocks r leaves) (node.childAt i).toNat := by
  have hmax : maxKeys = 250 := rfl
  have hwords : nodeWords = 504 := rfl
  have hlt := T.root_lt
  have hwrap := addressable_le disk
  have hself : (((BTreeNode.ofPage (m r)).init 0 false).setChildAt 0 (UInt64.ofNat r)).childAt 0 =
      UInt64.ofNat r := by
    rw [BTreeNode.childAt, BTreeNode.setChildAt, BTreeNode.word_setWord, if_pos (by omega)]
  refine ⟨((BTreeNode.ofPage (m r)).init 0 false).setChildAt 0 (UInt64.ofNat r), rfl,
    ⟨by omega, fun i hi => ?_, fun i hlo hi => ?_⟩, fun i hi => ?_⟩
  · obtain rfl : i = 0 := by omega
    rw [hself]
    exact T.toFlatShape.number_ne_zero
  · rw [BTreeNode.childAt, BTreeNode.setChildAt, BTreeNode.word_setWord, if_neg (by omega),
      BTreeNode.word_init]
  · obtain rfl : i = 0 := by omega
    rw [hself, toNat_ofNat_block (by omega)]
    exact T.nodeTree

/-- The root of a full flat tree on a volume of 512 blocks is split, also as the one child of a new
node. -/
theorem split_children_512 : ∃ m leaves r node,
    FlatTree ⟨512, by decide⟩ m r leaves ∧ leaves.length = maxKeys ∧
    (∃ m' root' a b, run (DiskInterface.mapping ⟨512, by decide⟩)
        (btreeSplitRoot ⟨512, by decide⟩ (BTreeNode.ofPage (m r))) m = some (root', m') ∧
      RootSplit m m' (BTreeNode.ofPage (m r)) root' a b) ∧
    ∃ m' node' child' b, run (DiskInterface.mapping ⟨512, by decide⟩)
        (btreeSplitChild ⟨512, by decide⟩ node 0 (BTreeNode.ofPage (m r))) m =
          some ((node', child'), m') ∧
      ChildSplit m m' node (BTreeNode.ofPage (m r)) node' child' 0 b ∧ node'.Occupied 2 := by
  obtain ⟨m₀, -, F⟩ := run_diskFormat_blank ⟨512, by decide⟩ 0 0 0
    (show ([] : List UInt8).length ≤ 31 by decide) (blank_zero _) (by decide) (by decide)
  obtain ⟨m, leaves, T, hlen, hbits⟩ := F.exists_flatTree (k := maxKeys) le_rfl (by decide)
  have hfree : 1 < nearFree ⟨512, by decide⟩ m := by
    rw [nearFree_of_taken hbits]
    decide
  obtain ⟨node, hkeys, hocc, hbelow⟩ := T.exists_parent
  obtain ⟨hsplit, hchild⟩ := split_children T.inUse (T.full hlen) (by rw [hkeys]; decide) hocc
    (by rw [hkeys]) Nat.zero_lt_one hbelow
  exact ⟨m, leaves, _, node, T, hlen, hsplit hfree, hchild (by omega)⟩

end Nbtrfs
