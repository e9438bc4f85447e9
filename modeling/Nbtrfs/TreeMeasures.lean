import Nbtrfs.Attributes
import Nbtrfs.Btr.Descent

/-!
# Height and minimum of a tree

Reference: `btr.c::btree_find_height`, `btr.c::btree_find_minimum`.

The height counts levels along the first children like the depth, and is the same on an even tree. The
two part where a node has no first child, as the root of a fresh volume: `btree_find_depth` reports an
error, while `btree_find_height` takes a node without parent for a tree of height zero, and goes on
forever from any other. The minimum is computed as an `int`, so it is the smallest key only as far as
keys are below `2 ^ 31`.
-/

namespace Nbtrfs

open BlockProg

/-- The loop of `btree_find_height`; one that does not end is a crash. -/
def heightFrom : ℕ → BTreeNode → ℤ → BlockProg ℤ
  | 0, _, _ => crash
  | fuel + 1, node, height =>
      if node.isLeaf ≠ 0 then pure height
      else do
        let child ← btreeNodeRead (node.childAt 0)
        heightFrom fuel (child.getD node) (height + 1)

/-- `btree_find_height` -/
def btreeFindHeight (disk : DiskInterface) (nodeBlock : UInt64) : BlockProg ℤ := do
  let node ← btreeNodeCopy nodeBlock
  if node.parent = 0 ∧ node.childAt 0 = 0 then pure 0
  else heightFrom (callDepth disk) node 0

/-- `btree_find_minimum` with room for `fuel` nested calls. The key goes through an `int`. -/
def minimumFrom : ℕ → UInt64 → BlockProg ℤ
  | 0, _ => crash
  | fuel + 1, rootBlock => do
      let root ← btreeNodeCopy rootBlock
      let firstChild ← btreeNodeCopy (root.childAt 0)
      if firstChild.isLeaf ≠ 0 then pure (int32 firstChild.key.toNat)
      else minimumFrom fuel firstChild.blockNumber

/-- `btree_find_minimum` -/
def btreeFindMinimum (disk : DiskInterface) (rootBlock : UInt64) : BlockProg ℤ :=
  minimumFrom (callDepth disk) rootBlock

variable {M : Mapping} {disk : DiskInterface} {m : Image} {d b : ℕ} {leaves : List Leaf}

/-! ## Height -/

namespace EvenTree

/-- The first child of an inner node, as the walk reads it. -/
theorem run_readFirst {c : ℕ} {below : ℕ → List Leaf} (N : InnerNode M m b c)
    (hbelow : ∀ i < c, EvenTree M m d (childBlock m b i) (below i)) :
    run M (btreeNodeRead ((BTreeNode.ofPage (m b)).childAt 0)) m =
      some (some (BTreeNode.ofPage (m (childBlock m b 0))), m) := by
  have hread := (hbelow 0 N.pos).run_read
  rwa [childBlock, UInt64.ofNat_toNat] at hread

/-- `btree_find_height` counts one for every level down to the leaves. -/
theorem run_heightFrom (T : EvenTree M m d b leaves) {fuel : ℕ} (hfuel : d < fuel) (z : ℤ) :
    run M (heightFrom fuel (BTreeNode.ofPage (m b)) z) m = some (z + d, m) := by
  induction T generalizing fuel z with
  | leaf hnode hblock hleaf =>
      obtain ⟨fuel, rfl⟩ := Nat.exists_eq_succ_of_ne_zero (by omega : fuel ≠ 0)
      rw [heightFrom, if_pos hleaf, run_pure, Nat.cast_zero, Int.add_zero]
  | @node d b c below N hbelow ih =>
      obtain ⟨fuel, rfl⟩ := Nat.exists_eq_succ_of_ne_zero (by omega : fuel ≠ 0)
      rw [heightFrom, if_neg (not_not.mpr N.isLeaf), run_bind_of_eq (run_readFirst N hbelow),
        Option.getD_some, ih 0 N.pos (by omega)]
      push_cast
      rw [Int.add_assoc, Int.add_comm 1]

/-- The height of an even tree is its depth. -/
theorem run_btreeFindHeight (T : EvenTree disk.mapping m d b leaves) :
    run disk.mapping (btreeFindHeight disk (UInt64.ofNat b)) m = some ((d : ℤ), m) := by
  have hfuel : d < callDepth disk := Nat.lt_succ_of_le T.le
  have hwalk := T.run_heightFrom hfuel 0
  rw [Int.zero_add] at hwalk
  rw [btreeFindHeight, run_bind_of_eq T.isNode.run_copy]
  split
  next halone =>
    -- a node without a first child is a leaf here
    cases T with
    | leaf => rfl
    | node below N hbelow => exact absurd halone.2 (N.child 0 N.pos)
  next => exact hwalk

end EvenTree

/-- Block 0 is no node. -/
theorem Layout.run_btreeNodeRead_zero (L : Layout disk.mapping disk m) :
    run disk.mapping (btreeNodeRead 0) m = some (none, m) := by
  have hpage := run_page (m := m) L.addr_zero
  have htype : blockType (m 0) ≠ BlockType.btreeNode.code := by
    rw [L.super]
    decide
  simp [btreeNodeRead, run_bind, hpage, htype]

/-- Without a first child the loop stays at the same node. -/
theorem Layout.run_heightFrom_none (L : Layout disk.mapping disk m) {node : BTreeNode}
    (hleaf : node.isLeaf = 0) (hchild : node.childAt 0 = 0) (fuel : ℕ) (z : ℤ) :
    run disk.mapping (heightFrom fuel node z) m = none := by
  induction fuel generalizing z with
  | zero => rfl
  | succ fuel ih =>
      rw [heightFrom, if_neg (not_not.mpr hleaf), hchild, run_bind_of_eq L.run_btreeNodeRead_zero,
        Option.getD_none]
      exact ih (z + 1)

/-- An inner node without a first child is an error for `btree_find_depth`, and for
`btree_find_height` a tree of height zero if it has no parent. Else it enters its loop, which does not
end there for any number of turns. -/
theorem btreeFindHeight_childless (L : Layout disk.mapping disk m) (N : IsNode disk.mapping m b)
    (hleaf : (BTreeNode.ofPage (m b)).isLeaf = 0) (hchild : (BTreeNode.ofPage (m b)).childAt 0 = 0) :
    run disk.mapping (btreeFindDepth disk (UInt64.ofNat b)) m = some (-1, m) ∧
      run disk.mapping (btreeFindHeight disk (UInt64.ofNat b)) m =
        (if (BTreeNode.ofPage (m b)).parent = 0 then some (0, m) else none) ∧
      ∀ turns, run disk.mapping (heightFrom turns (BTreeNode.ofPage (m b)) 0) m = none := by
  refine ⟨?_, ?_, fun turns => L.run_heightFrom_none hleaf hchild turns 0⟩
  · rw [btreeFindDepth, run_bind_of_eq N.run_copy, callDepth, depthFrom, if_neg (not_not.mpr hleaf),
      if_neg (not_not.mpr hchild), run_pure]
  · rw [btreeFindHeight, run_bind_of_eq N.run_copy]
    by_cases hparent : (BTreeNode.ofPage (m b)).parent = 0
    · rw [if_pos ⟨hparent, hchild⟩, if_pos hparent, run_pure]
    · rw [if_neg fun h => hparent h.1, if_neg hparent, L.run_heightFrom_none hleaf hchild]

/-- The root node of a fresh volume has neither parent nor children. -/
theorem Fresh.rootNode_childless {uid gid : UInt32} (F : Fresh disk uid gid m) :
    (BTreeNode.ofPage (m (dataStart disk.totalBlocks.toNat))).isLeaf = 0 ∧
      (BTreeNode.ofPage (m (dataStart disk.totalBlocks.toNat))).parent = 0 ∧
      (BTreeNode.ofPage (m (dataStart disk.totalBlocks.toNat))).childAt 0 = 0 := by
  rw [F.rootNode]
  exact ⟨rfl, BTreeNode.word_init .., BTreeNode.word_init ..⟩

/-- The root of a fresh volume, which has no children and no parent. -/
theorem btreeFindHeight_childless_88 : ∃ m,
    run (DiskInterface.mapping ⟨88, by decide⟩)
        (btreeFindDepth ⟨88, by decide⟩ (UInt64.ofNat (dataStart 88))) m = some (-1, m) ∧
      run (DiskInterface.mapping ⟨88, by decide⟩)
        (btreeFindHeight ⟨88, by decide⟩ (UInt64.ofNat (dataStart 88))) m = some (0, m) := by
  obtain ⟨m, F⟩ := exists_fresh
  have hnode : IsNode (DiskInterface.mapping ⟨88, by decide⟩) m (dataStart 88) :=
    ⟨F.addr_root, F.rootType⟩
  obtain ⟨hleaf, hparent, hchild⟩ := F.rootNode_childless
  obtain ⟨hdepth, hheight, -⟩ := btreeFindHeight_childless F.layout hnode hleaf hchild
  exact ⟨m, hdepth, hheight.trans (if_pos hparent)⟩

/-! ## Minimum -/

namespace EvenTree

theorem blockNumber (T : EvenTree M m d b leaves) :
    (BTreeNode.ofPage (m b)).blockNumber = UInt64.ofNat b := by
  cases T with
  | leaf hnode hblock hleaf => exact hblock
  | node below N hbelow => exact N.blockNumber

theorem of_zero (T : EvenTree M m 0 b leaves) :
    (BTreeNode.ofPage (m b)).isLeaf ≠ 0 ∧ leaves = [Leaf.onPage m b] := by
  cases T with
  | leaf hnode hblock hleaf => exact ⟨hleaf, rfl⟩

theorem isLeaf_of_pos (T : EvenTree M m d b leaves) (hd : 1 ≤ d) :
    (BTreeNode.ofPage (m b)).isLeaf = 0 := by
  cases T with
  | leaf => cases hd
  | node below N hbelow => exact N.isLeaf

theorem ne_nil (T : EvenTree M m d b leaves) : leaves ≠ [] := by
  obtain ⟨l, hl, -⟩ := T.exists_rightmost
  rintro rfl
  cases hl

/-- The leaves below the first child come first. -/
theorem head_flatMap_range {c : ℕ} {below : ℕ → List Leaf} (hc : 1 ≤ c) (hne : below 0 ≠ []) :
    ((List.range c).flatMap below).head? = (below 0).head? := by
  obtain ⟨c, rfl⟩ := Nat.exists_eq_succ_of_ne_zero (by omega : c ≠ 0)
  obtain ⟨l, rest, hl⟩ := List.exists_cons_of_ne_nil hne
  rw [Nat.succ_eq_add_one, List.range_succ_eq_map, List.flatMap_cons, hl]
  rfl

/-- `btree_find_minimum` follows the first child of every node to the first leaf. -/
theorem exists_run_minimumFrom (T : EvenTree M m d b leaves) (hd : 1 ≤ d) {fuel : ℕ} (hfuel : d ≤ fuel) :
    ∃ l, leaves.head? = some l ∧
      run M (minimumFrom fuel (UInt64.ofNat b)) m = some (int32 l.key.toNat, m) := by
  induction T generalizing fuel with
  | leaf => exact absurd hd (by decide)
  | @node d b c below N hbelow ih =>
      obtain ⟨fuel, rfl⟩ := Nat.exists_eq_succ_of_ne_zero (by omega : fuel ≠ 0)
      have T₀ := hbelow 0 N.pos
      have hcopy : run M (btreeNodeCopy ((BTreeNode.ofPage (m b)).childAt 0)) m =
          some (BTreeNode.ofPage (m (childBlock m b 0)), m) := by
        rw [btreeNodeCopy, run_bind_of_eq (run_readFirst N hbelow)]
        rfl
      rw [head_flatMap_range N.pos T₀.ne_nil, minimumFrom, run_bind_of_eq N.isNode.run_copy,
        run_bind_of_eq hcopy, T₀.blockNumber]
      rcases Nat.eq_zero_or_pos d with rfl | hd
      · obtain ⟨hleaf, hfirst⟩ := T₀.of_zero
        rw [if_pos hleaf, run_pure, hfirst]
        exact ⟨_, rfl, rfl⟩
      · obtain ⟨l, hl, hrun⟩ := ih 0 N.pos hd (show d ≤ fuel by omega)
        refine ⟨l, hl, ?_⟩
        rw [if_neg (not_not.mpr (T₀.isLeaf_of_pos hd)), hrun]

/-- `btree_find_minimum` finds the smallest key of an ordered tree, as an `int`. -/
theorem exists_minimum (T : EvenTree disk.mapping m d b leaves) (hd : 1 ≤ d)
    (hsorted : leaves.Pairwise fun a b => a.key ≤ b.key) :
    ∃ l ∈ leaves, (∀ l' ∈ leaves, l.key ≤ l'.key) ∧
      run disk.mapping (btreeFindMinimum disk (UInt64.ofNat b)) m = some (int32 l.key.toNat, m) := by
  have hfuel : d ≤ callDepth disk := T.le.trans (Nat.le_succ _)
  obtain ⟨l, hl, hrun⟩ := T.exists_run_minimumFrom hd hfuel
  obtain ⟨rest, rfl⟩ := List.head?_eq_some_iff.mp hl
  refine ⟨l, List.mem_cons_self, fun l' hl' => ?_, hrun⟩
  rcases List.mem_cons.mp hl' with rfl | hl'
  · exact UInt64.le_refl _
  · exact (List.pairwise_cons.mp hsorted).1 l' hl'

/-- All that the tree functions measure on an even ordered tree. -/
theorem measures (T : EvenTree disk.mapping m d b leaves) (hd : 1 ≤ d)
    (hsorted : leaves.Pairwise fun a b => a.key ≤ b.key) :
    run disk.mapping (btreeFindDepth disk (UInt64.ofNat b)) m = some ((d : ℤ), m) ∧
      run disk.mapping (btreeFindHeight disk (UInt64.ofNat b)) m = some ((d : ℤ), m) ∧
      (∃ l ∈ leaves, (∀ l' ∈ leaves, l.key ≤ l'.key) ∧
        run disk.mapping (btreeFindMinimum disk (UInt64.ofNat b)) m =
          some (int32 l.key.toNat, m)) ∧
      ∃ l ∈ leaves, (∀ l' ∈ leaves, l'.key ≤ l.key) ∧
        run disk.mapping (btreeFindMaximum disk (UInt64.ofNat b)) m = some (l.key, m) := by
  obtain ⟨l, hl, hrun, hmax⟩ := T.exists_maximum hsorted
  exact ⟨T.run_btreeFindDepth, T.run_btreeFindHeight, T.exists_minimum hd hsorted, l, hl, hmax, hrun⟩

end EvenTree

theorem evenTree_measures_10 :
    run (DiskInterface.mapping ⟨64, by decide⟩) (btreeFindHeight ⟨64, by decide⟩ 10)
        (nodeImage evenNodes) = some (2, nodeImage evenNodes) ∧
      ∃ l ∈ ([⟨13, 3, 0, 0⟩, ⟨14, 5, 0, 0⟩, ⟨15, 8, 0, 0⟩] : List Leaf),
        run (DiskInterface.mapping ⟨64, by decide⟩) (btreeFindMinimum ⟨64, by decide⟩ 10)
          (nodeImage evenNodes) = some (int32 l.key.toNat, nodeImage evenNodes) := by
  obtain ⟨-, hheight, ⟨l, hl, -, hmin⟩, -⟩ := evenTree_evenNodes.measures (by decide) (by decide)
  exact ⟨hheight, l, hl, hmin⟩

end Nbtrfs
