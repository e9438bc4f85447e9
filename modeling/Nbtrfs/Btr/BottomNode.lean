import Nbtrfs.Btr.InsertNonfull
import Nbtrfs.Btr.Shape

/-!
# Nodes above the leaves

A `BottomNode` lists leaves, one for each of its keys or one more, in any order; a root without
children is one. `btree_insert` enters its leaf in such a node, which is all that changes of the tree.
-/

namespace Nbtrfs

open BlockProg

/-- The node lists the leaves as its children. -/
structure ListsLeaves (node : BTreeNode) (x : ℕ) (leaves : List Leaf) : Prop where
  blockNumber : node.blockNumber = UInt64.ofNat x
  isLeaf : node.isLeaf = 0
  keys : node.numKeys.toNat ≤ maxKeys
  count : leaves.length = node.numKeys.toNat ∨ leaves.length = node.numKeys.toNat + 1
  child : ∀ i ≤ node.numKeys.toNat, node.childAt i = blockOf leaves i

/-- Block `x` is a node that lists the leaves, and these are in place. -/
structure BottomNode (disk : DiskInterface) (m : Image) (x : ℕ) (leaves : List Leaf) : Prop where
  pos : 0 < x
  lt : x < disk.addressable
  type : blockType (m x) = BlockType.btreeNode.code
  node : ListsLeaves (BTreeNode.ofPage (m x)) x leaves
  leaf : ∀ l ∈ leaves, LeafPage disk m l

variable {disk : DiskInterface} {m m' : Image} {x : ℕ} {leaves leaves' : List Leaf} {l : Leaf}
  {node : BTreeNode} {key : UInt64}

@[simp] theorem Leaf.block_onPage (m : Image) (b : ℕ) : (Leaf.onPage m b).block = b := rfl

namespace ListsLeaves

/-- Inserting a child makes room in the list of leaves. -/
theorem insertedRoot (N : ListsLeaves node x leaves) (hroom : node.numKeys.toNat < maxKeys) {p : ℕ}
    (hp : p ≤ leaves.length) (hkeys : p ≤ node.numKeys.toNat) (l : Leaf) :
    ListsLeaves (insertedRoot node p (UInt64.ofNat l.block)) x (leaves.insertIdx p l) := by
  have hlen : (leaves.insertIdx p l).length = leaves.length + 1 :=
    List.length_insertIdx_of_le_length hp l
  have hnum := numKeys_insertedRoot (p := p) (b := UInt64.ofNat l.block) hroom
  have hcount := N.count
  have hmax : maxKeys = 250 := rfl
  exact {
    blockNumber := (sameFields_insertedRoot node p _).1.trans N.blockNumber
    isLeaf := (sameFields_insertedRoot node p _).2.trans N.isLeaf
    keys := by omega
    count := by omega
    child := fun i hi => by
      rw [BTreeNode.childAt, word_insertedRoot hkeys hroom, blockOf, List.getElem?_insertIdx]
      by_cases hip : i = p
      · rw [if_pos (by omega), if_neg (by omega), if_pos hip, if_pos (by omega)]
        rfl
      · rw [if_neg (by omega)]
        by_cases hlo : i < p
        · rw [if_neg (by omega), if_neg (by omega), if_pos hlo]
          exact N.child i (by omega)
        · rw [if_neg hlo, if_neg hip, if_pos (by omega), ← blockOf, ← N.child (i - 1) (by omega),
            BTreeNode.childAt]
          congr 1
          omega }

/-- Only the keys of the node and its links may change. -/
theorem congr {node' : BTreeNode} (N : ListsLeaves node x leaves)
    (hfields : BTreeNode.SameFields node' node)
    (hchild : ∀ i ≤ maxKeys, node'.childAt i = node.childAt i) : ListsLeaves node' x leaves where
  blockNumber := hfields.blockNumber.trans N.blockNumber
  isLeaf := hfields.isLeaf.trans N.isLeaf
  keys := by rw [hfields.numKeys]; exact N.keys
  count := by rw [hfields.numKeys]; exact N.count
  child i hi := by
    have hkeys := N.keys
    rw [hfields.numKeys] at hi
    rw [hchild i (by omega), N.child i hi]

/-- `btree_insert_nonfull` enters the leaf somewhere among the others. -/
theorem exists_run_btreeInsertNonfull (N : ListsLeaves node x leaves)
    (hleaf : ∀ l ∈ leaves, LeafPage disk m l) (hroom : node.numKeys.toNat < maxKeys)
    {new : BTreeNode} (hblock : new.blockNumber = UInt64.ofNat l.block) :
    ∃ p ≤ leaves.length, ∃ root,
      run disk.mapping (btreeInsertNonfull disk node new) m =
        some ((0, root, new.setParent (UInt64.ofNat x)), m) ∧
      ListsLeaves root x (leaves.insertIdx p l) := by
  have hmax : maxKeys = 250 := rfl
  have hwords : nodeWords = 504 := rfl
  have hcount := N.count
  have hpos := leafPosition_le leaves new.key leaves.length
  have hend : leafPosition leaves new.key (0 + (node.numKeys.toNat + 1)) =
      leafPosition leaves new.key leaves.length := by
    rw [Nat.zero_add]
    rcases hcount with heq | heq
    · rw [← heq, leafPosition_succ_length]
    · rw [heq]
  have hscan : run disk.mapping (childPosition disk node new.key (node.numKeys.toNat + 1) 0 0) m =
      some (leafPosition leaves new.key leaves.length, m) := by
    rw [← hend]
    exact run_childPosition_leaves hleaf new.key (by omega) fun i hi => N.child i (by omega)
  refine ⟨min (leafPosition leaves new.key leaves.length) node.numKeys.toNat, by omega, _, ?_,
    N.insertedRoot hroom (by omega) (by omega) l⟩
  rw [btreeInsertNonfull, if_neg (not_not.mpr N.isLeaf), run_bind_of_eq hscan,
    run_bind_of_eq (inNode_of_lt (by omega)), run_pure, hblock, N.blockNumber]

end ListsLeaves

namespace BottomNode

theorem isNode (B : BottomNode disk m x leaves) : IsNode disk.mapping m x where
  addr := DiskInterface.mapping_exactTo.ofNat B.lt ((addressable_le disk).trans (by omega))
  type := B.type

theorem number_ne_zero (B : BottomNode disk m x leaves) : UInt64.ofNat x ≠ 0 := by
  have hlt := B.lt
  have hwrap := addressable_le disk
  exact ofNat_block_ne_zero B.pos (by omega)

theorem leaf_ne (B : BottomNode disk m x leaves) (L : LeafPage disk m l) : l.block ≠ x := by
  intro h
  have hleaf := L.isLeaf
  rw [h, B.node.isLeaf] at hleaf
  exact hleaf rfl

/-- A new page of the node that lists leaves which are in place. -/
theorem setNode (B : BottomNode disk m x leaves)
    (htype : blockType (m' x) = BlockType.btreeNode.code)
    (hnode : ListsLeaves (BTreeNode.ofPage (m' x)) x leaves') (hother : ∀ c ≠ x, m' c = m c)
    (hleaf : ∀ l ∈ leaves', LeafPage disk m l) : BottomNode disk m' x leaves' where
  pos := B.pos
  lt := B.lt
  type := htype
  node := hnode
  leaf l hl := (hleaf l hl).congr (hother _ (B.leaf_ne (hleaf l hl)))

/-- Setting the parent of a leaf page keeps the node. -/
theorem setParent (B : BottomNode disk m x leaves) {b : ℕ} {p : UInt64} (hb : b ≠ x)
    (hpage : BTreeNode.ofPage (m' b) = (BTreeNode.ofPage (m b)).setParent p)
    (htype : blockType (m' b) = BlockType.btreeNode.code) (hother : ∀ c ≠ b, m' c = m c) :
    BottomNode disk m' x leaves where
  pos := B.pos
  lt := B.lt
  type := by rw [hother x (Ne.symm hb), B.type]
  node := by rw [hother x (Ne.symm hb)]; exact B.node
  leaf l hl := (B.leaf l hl).setParent hpage htype hother

/-- `btree_update_parent_keys` for a leaf that names the node as its parent. -/
theorem exists_run_btreeUpdateParentKeys (B : BottomNode disk m x leaves)
    (hparent : node.parent = UInt64.ofNat x) :
    ∃ m', run disk.mapping (btreeUpdateParentKeys disk node) m = some ((), m') ∧
      BottomNode disk m' x leaves ∧ ∀ c ≠ x, m' c = m c := by
  have hmaximum : ∀ i < (BTreeNode.ofPage (m x)).numKeys.toNat,
      (BTreeNode.ofPage (m x)).childAt i ≠ 0 →
        ∃ k, run disk.mapping (btreeFindMaximum disk ((BTreeNode.ofPage (m x)).childAt i)) m =
          some (k, m) := by
    intro i hi hne
    rw [B.node.child i hi.le] at hne ⊢
    cases h : leaves[i]? with
    | none => exact absurd (blockOf_of_le (by simpa using h)) hne
    | some l =>
        rw [blockOf_of_getElem? h]
        exact ⟨l.key, (B.leaf l (List.mem_of_getElem? h)).run_btreeFindMaximum⟩
  obtain ⟨parent, hrefresh, hfields, hwords⟩ := exists_run_refreshKeys B.node.keys hmaximum
  have N := B.node.congr hfields fun i _ => hwords _ (Nat.le_add_right _ _)
  obtain ⟨m', hwrite, hpage, htype, hother⟩ := B.isNode.exists_write N.blockNumber
  refine ⟨m', ?_, B.setNode htype (by rwa [hpage]) hother B.leaf, hother⟩
  rw [btreeUpdateParentKeys, hparent, if_neg B.number_ne_zero, run_bind_of_eq B.isNode.run_copy,
    run_bind_of_eq hrefresh, run_bind_of_eq hwrite, run_pure]

/-- The end of `btree_insert`, when the leaf names the node as its parent. -/
theorem exists_run_finishInsert (B : BottomNode disk m x leaves) (L : LeafPage disk m l)
    (hparent : (BTreeNode.ofPage (m l.block)).parent = UInt64.ofNat x) :
    ∃ m', run disk.mapping (do
        btreeUpdateParentKeys disk (← nodeAt (UInt64.ofNat l.block))
        pure (0 : ℤ)) m = some (0, m') ∧
      BottomNode disk m' x leaves ∧ ∀ c ≠ x, m' c = m c := by
  obtain ⟨m', hrun, B', hother⟩ := B.exists_run_btreeUpdateParentKeys hparent
  refine ⟨m', ?_, B', hother⟩
  rw [run_bind_of_eq L.isNode.run_nodeAt, run_bind_of_eq hrun, run_pure]

/-- The part of `btree_insert` that enters a leaf in a node with room. -/
theorem exists_run_insertInto (B : BottomNode disk m x leaves)
    (hroom : (BTreeNode.ofPage (m x)).numKeys.toNat < maxKeys) (L : LeafPage disk m l) :
    ∃ m', ∃ p ≤ leaves.length,
      run disk.mapping (insertInto disk (BTreeNode.ofPage (m x)) (UInt64.ofNat l.block)) m =
        some ((), m') ∧
      BottomNode disk m' x (leaves.insertIdx p l) ∧ LeafPage disk m' l ∧
      (BTreeNode.ofPage (m' l.block)).parent = UInt64.ofNat x ∧
      ∀ c, c ≠ x → c ≠ l.block → m' c = m c := by
  have hne := B.leaf_ne L
  obtain ⟨p, hp, root, hinsert, N⟩ := B.node.exists_run_btreeInsertNonfull B.leaf hroom L.blockNumber
  obtain ⟨m₁, hedit, hpage₁, htype₁, hother₁⟩ := L.isNode.exists_edit fun page =>
    page.setParent (UInt64.ofNat x)
  have B₁ := B.setParent hne hpage₁ htype₁ hother₁
  have L₁ := L.setParent hpage₁ htype₁ hother₁
  obtain ⟨m₂, hwrite, hpage₂, htype₂, hother₂⟩ := B₁.isNode.exists_write N.blockNumber
  refine ⟨m₂, p, hp, ?_, B₁.setNode htype₂ (by rwa [hpage₂]) hother₂ fun y hy => ?_,
    L₁.congr (hother₂ _ hne), ?_, fun c hx hc => by rw [hother₂ c hx, hother₁ c hc]⟩
  · rw [insertInto, run_bind_of_eq L.isNode.run_nodeAt, run_bind_of_eq hinsert]
    simp only [parent_setParent]
    rw [run_bind_of_eq hedit, run_bind_of_eq hwrite, run_pure]
  · rcases (List.mem_insertIdx hp).mp hy with rfl | hy
    · exact L₁
    · exact B₁.leaf y hy
  · rw [hother₂ _ hne, hpage₁, parent_setParent]

/-- `btree_insert` once it is at a node with room. -/
theorem exists_run_enterLeaf (B : BottomNode disk m x leaves)
    (hroom : (BTreeNode.ofPage (m x)).numKeys.toNat < maxKeys) (L : LeafPage disk m l) :
    ∃ m', ∃ p ≤ leaves.length,
      run disk.mapping (do
        insertInto disk (BTreeNode.ofPage (m x)) (UInt64.ofNat l.block)
        btreeUpdateParentKeys disk (← nodeAt (UInt64.ofNat l.block))
        pure (0 : ℤ)) m = some (0, m') ∧
      BottomNode disk m' x (leaves.insertIdx p l) ∧ ∀ c, c ≠ x → c ≠ l.block → m' c = m c := by
  obtain ⟨m₁, p, hp, hinto, B₁, L₁, hparent, hother₁⟩ := B.exists_run_insertInto hroom L
  obtain ⟨m', hfinish, B', hother'⟩ := B₁.exists_run_finishInsert L₁ hparent
  refine ⟨m', p, hp, ?_, B', fun c hx hc => by rw [hother' c hx, hother₁ c hx hc]⟩
  rw [run_bind_of_eq hinto, hfinish]

/-- `btree_insert` at a full node that lacks its last child: the leaf is entered in a copy of the node
that is not written. -/
theorem exists_run_appendLost (B : BottomNode disk m x leaves) (L : LeafPage disk m l) :
    ∃ m', run disk.mapping (do
        editNode (UInt64.ofNat l.block) fun node =>
          node.setParent (BTreeNode.ofPage (m x)).blockNumber
        btreeUpdateParentKeys disk (← nodeAt (UInt64.ofNat l.block))
        pure (0 : ℤ)) m = some (0, m') ∧
      BottomNode disk m' x leaves ∧ ∀ c, c ≠ x → c ≠ l.block → m' c = m c := by
  obtain ⟨m₁, hedit, hpage₁, htype₁, hother₁⟩ := L.isNode.exists_edit fun page =>
    page.setParent (BTreeNode.ofPage (m x)).blockNumber
  have B₁ := B.setParent (B.leaf_ne L) hpage₁ htype₁ hother₁
  obtain ⟨m', hfinish, B', hother'⟩ := B₁.exists_run_finishInsert
    (L.setParent hpage₁ htype₁ hother₁) (by rw [hpage₁, parent_setParent, B.node.blockNumber])
  refine ⟨m', ?_, B', fun c hx hc => by rw [hother' c hx, hother₁ c hc]⟩
  rw [run_bind_of_eq hedit, hfinish]

/-! ## Trees of depth one -/

/-- A bottom node with a child is an even tree of depth one. -/
theorem evenTree (B : BottomNode disk m x leaves) (hne : leaves ≠ []) :
    EvenTree disk.mapping m 1 x leaves := by
  have hlt := B.lt
  have hwrap := addressable_le disk
  have hcount := B.node.count
  have hpos := List.length_pos_iff.mpr hne
  have hget : ∀ i (hi : i < leaves.length),
      (BTreeNode.ofPage (m x)).childAt i = UInt64.ofNat leaves[i].block ∧
        LeafPage disk m leaves[i] := fun i hi =>
    ⟨by rw [B.node.child i (by omega), blockOf_of_getElem? (List.getElem?_eq_getElem hi)],
      B.leaf _ (List.getElem_mem hi)⟩
  have N : InnerNode disk.mapping m x leaves.length := {
    isNode := B.isNode
    blockNumber := B.node.blockNumber
    lt := by omega
    isLeaf := B.node.isLeaf
    keys := B.node.keys
    pos := hpos
    count := B.node.count
    child := fun i hi => by
      rw [(hget i hi).1]
      exact (hget i hi).2.number_ne_zero
    past := fun i hlo hi => by rw [B.node.child i hi, blockOf_of_le hlo] }
  have T := EvenTree.node (fun i => leaves[i]?.toList) N fun i hi => by
    obtain ⟨hchild, L⟩ := hget i hi
    have hblock := L.lt
    rw [childBlock, hchild, toNat_ofNat_block (by omega), List.getElem?_eq_getElem hi,
      Option.toList_some]
    have hleaf : EvenTree disk.mapping m 0 leaves[i].block [Leaf.onPage m leaves[i].block] :=
      .leaf L.isNode L.blockNumber L.isLeaf
    rwa [L.onPage] at hleaf
  rwa [flatMap_getElem?_toList] at T

end BottomNode

/-- A leaf node that carries its own number holds the leaf that is read from its page. -/
theorem IsNode.leafPage {b : ℕ} (N : IsNode disk.mapping m b) (hpos : 0 < b)
    (hleaf : (BTreeNode.ofPage (m b)).isLeaf ≠ 0)
    (hblock : (BTreeNode.ofPage (m b)).blockNumber = UInt64.ofNat b) :
    LeafPage disk m (Leaf.onPage m b) where
  pos := hpos
  lt := N.lt_addressable
  type := N.type
  isLeaf := hleaf
  blockNumber := hblock
  onPage := rfl

/-- The root of an even tree of depth one is a bottom node. -/
theorem EvenTree.bottomNode (T : EvenTree disk.mapping m 1 x leaves) (hx : 0 < x)
    (hpos : ∀ l ∈ leaves, 0 < l.block) : BottomNode disk m x leaves := by
  cases T with
  | @node _ _ c below N hbelow =>
      have hleaf : ∀ i < c, below i = [Leaf.onPage m (childBlock m x i)] := by
        intro i hi
        have T := hbelow i hi
        generalize below i = leaves at T
        cases T with
        | leaf => rfl
      have hmap : (List.range c).flatMap below =
          (List.range c).map fun i => Leaf.onPage m (childBlock m x i) := by
        rw [List.flatMap_congr fun i hi => hleaf i (List.mem_range.mp hi)]
        exact List.flatMap_pure_eq_map _ _
      rw [hmap] at hpos ⊢
      have hcount := N.count
      have hat : ∀ i < c, ((List.range c).map fun i => Leaf.onPage m (childBlock m x i))[i]? =
          some (Leaf.onPage m (childBlock m x i)) := by
        intro i hi
        rw [List.getElem?_map, List.getElem?_range hi, Option.map_some]
      exact {
        pos := hx
        lt := N.isNode.lt_addressable
        type := N.isNode.type
        node := {
          blockNumber := N.blockNumber
          isLeaf := N.isLeaf
          keys := N.keys
          count := by rwa [List.length_map, List.length_range]
          child := fun i hi => by
            by_cases hic : i < c
            · rw [blockOf_of_getElem? (hat i hic), Leaf.block_onPage, childBlock, UInt64.ofNat_toNat]
            · rw [blockOf_of_le (by rw [List.length_map, List.length_range]; omega)]
              exact N.past i (by omega) hi }
        leaf := fun l hl => by
          have hblock := hpos l hl
          obtain ⟨i, hi, rfl⟩ := List.mem_map.mp hl
          have T := hbelow i (List.mem_range.mp hi)
          rw [hleaf i (List.mem_range.mp hi)] at T
          generalize childBlock m x i = b at T hblock
          cases T with
          | leaf hnode hnumber hinner => exact hnode.leafPage hblock hinner hnumber }

end Nbtrfs
