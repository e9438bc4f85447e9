import Nbtrfs.Btr.Flat

/-!
# The B-tree functions on a flat tree

One lemma for each function of `btr.c` that a flat tree reaches. The image changes on the page of
the root, on that of the new leaf, and through the page allocator.
-/

namespace Nbtrfs

open BlockProg

variable {disk : DiskInterface} {m m' : Image} {r : ℕ} {leaves : List Leaf} {node : BTreeNode}
  {l : Leaf}

/-! ## Pages of a flat tree -/

theorem LeafPage.isNode (L : LeafPage disk m l) : IsNode disk.mapping m l.block where
  addr := DiskInterface.mapping_exactTo.ofNat L.lt ((addressable_le disk).trans (by omega))
  type := L.type

theorem LeafPage.number_ne_zero (L : LeafPage disk m l) : UInt64.ofNat l.block ≠ 0 := by
  have hlt := L.lt
  have hwrap := addressable_le disk
  exact ofNat_block_ne_zero L.pos (by omega)

theorem LeafPage.congr (L : LeafPage disk m l) (h : m' l.block = m l.block) :
    LeafPage disk m' l where
  pos := L.pos
  lt := L.lt
  type := by rw [h, L.type]
  isLeaf := by rw [h]; exact L.isLeaf
  blockNumber := by rw [h, L.blockNumber]
  onPage := by rw [Leaf.onPage, h]; exact L.onPage

theorem LeafPage.key (L : LeafPage disk m l) : (BTreeNode.ofPage (m l.block)).key = l.key :=
  congrArg Leaf.key L.onPage

namespace FlatShape

theorem isNode (F : FlatShape disk m r leaves) : IsNode disk.mapping m r where
  addr := DiskInterface.mapping_exactTo.ofNat F.root_lt ((addressable_le disk).trans (by omega))
  type := F.root_type

theorem number_ne_zero (F : FlatShape disk m r leaves) : UInt64.ofNat r ≠ 0 := by
  have hlt := F.root_lt
  have hwrap := addressable_le disk
  exact ofNat_block_ne_zero F.root_pos (by omega)

/-- The root is no leaf. -/
theorem block_ne (F : FlatShape disk m r leaves) (hl : l ∈ leaves) : l.block ≠ r := by
  intro h
  have hleaf := (F.leaf l hl).isLeaf
  rw [h, F.root.isLeaf] at hleaf
  exact hleaf rfl

theorem callDepth_pos (F : FlatShape disk m r leaves) : 1 < callDepth disk := by
  have hlt := F.root_lt
  have hle : disk.addressable ≤ disk.totalBlocks.toNat := min_le_left _ _
  rw [callDepth]
  omega

/-- A child of the root, and its leaf. -/
theorem child_of_getElem? (F : FlatShape disk m r leaves) (N : FlatNode node r leaves) {i : ℕ}
    (h : leaves[i]? = some l) : node.childAt i = UInt64.ofNat l.block ∧ LeafPage disk m l := by
  have hi := (List.getElem?_eq_some_iff.mp h).1
  have hle := N.le
  exact ⟨by rw [N.child i (by omega), blockOf_of_getElem? h], F.leaf l (List.mem_of_getElem? h)⟩

theorem child_eq_zero (N : FlatNode node r leaves) {i : ℕ} (h : leaves.length ≤ i)
    (hi : i ≤ maxKeys) : node.childAt i = 0 := by
  rw [N.child i hi, blockOf_of_le h]

end FlatShape

/-! ## Searching -/

/-- Picking out a range of indices gives the corresponding part of the list. -/
theorem flatMap_getElem? {α : Type} (xs : List α) (n s : ℕ) :
    (List.range' s n).flatMap (fun i => xs[i]?.toList) = (xs.drop s).take n := by
  induction n generalizing s with
  | zero => rfl
  | succ n ih =>
      rw [List.range'_succ, List.flatMap_cons, ih,
        List.drop_eq_getElem?_toList_append (l := xs) (i := s)]
      cases h : xs[s]? with
      | none =>
          have hlen := List.getElem?_eq_none_iff.mp h
          rw [Option.toList_none, List.nil_append, List.nil_append,
            List.drop_eq_nil_of_le (by omega), List.take_nil, List.take_nil]
      | some x => rfl

theorem LeafPage.subtree (L : LeafPage disk m l) {h : ℕ} :
    Subtree disk.mapping m h l.block [l] := by
  have T := Subtree.leaf (h := h) L.isNode L.number_ne_zero L.isLeaf L.blockNumber
  rwa [L.onPage] at T

/-- A flat tree is a tree of height one. -/
theorem FlatShape.subtree (F : FlatShape disk m r leaves) :
    Subtree disk.mapping m 1 r leaves := by
  have hleaves : leaves = (List.range' 0 ((BTreeNode.ofPage (m r)).numKeys.toNat + 1)).flatMap
      fun i => leaves[i]?.toList := by
    rw [flatMap_getElem?, F.root.numKeys, List.drop_zero, List.take_of_length_le (by omega)]
  have hle := F.root.le
  have hnum := F.root.numKeys
  rw [hleaves]
  refine Subtree.node _ F.isNode F.root.isLeaf (by omega) (fun i hi hzero => ?_)
    fun i hi hchild => ?_
  · cases h : leaves[i]? with
    | none => rfl
    | some l =>
        obtain ⟨hchild, L⟩ := F.child_of_getElem? F.root h
        exact absurd (hchild.symm.trans hzero) L.number_ne_zero
  · cases h : leaves[i]? with
    | none => exact absurd (FlatShape.child_eq_zero F.root (by simpa using h) (by omega)) hchild
    | some l =>
        obtain ⟨hnumber, L⟩ := F.child_of_getElem? F.root h
        have hlt := L.lt
        have hwrap := addressable_le disk
        rw [hnumber, toNat_ofNat_block (by omega), Option.toList_some]
        exact L.subtree

/-- `btree_search` on a flat tree. -/
theorem FlatShape.run_btreeSearch (F : FlatShape disk m r leaves) (key : UInt64) :
    run disk.mapping (btreeSearch disk (UInt64.ofNat r) key) m =
      some (Leaf.found leaves key, m) := by
  rw [btreeSearch]
  exact F.subtree.run_searchFrom key F.callDepth_pos

/-- `btree_find_maximum` of a leaf is its key. -/
theorem LeafPage.run_btreeFindMaximum (L : LeafPage disk m l) :
    run disk.mapping (btreeFindMaximum disk (UInt64.ofNat l.block)) m = some (l.key, m) := by
  rw [btreeFindMaximum, callDepth, maximumFrom, run_bind_of_eq L.isNode.run_copy, if_pos L.isLeaf,
    run_pure, L.key]

/-- `btree_find_depth` on a flat tree with a leaf. -/
theorem FlatShape.run_btreeFindDepth (F : FlatShape disk m r leaves)
    (hchild : (BTreeNode.ofPage (m r)).childAt 0 ≠ 0) :
    run disk.mapping (btreeFindDepth disk (UInt64.ofNat r)) m = some (1, m) := by
  cases h : leaves[0]? with
  | none => exact absurd (FlatShape.child_eq_zero F.root (by simpa using h) (by omega)) hchild
  | some l =>
      obtain ⟨hblock, L⟩ := F.child_of_getElem? F.root h
      obtain ⟨n, hdepth⟩ : ∃ n, callDepth disk = n + 2 := ⟨callDepth disk - 2, by
        have := F.callDepth_pos
        omega⟩
      rw [btreeFindDepth, run_bind_of_eq F.isNode.run_copy, hdepth, depthFrom,
        if_neg (not_not.mpr F.root.isLeaf), if_pos hchild, hblock,
        run_bind_of_eq (run_btreeNodeRead L.isNode.addr L.type), depthFrom, Option.getD_some,
        if_pos L.isLeaf, run_pure]
      rfl

/-- `btree_insertion_search` on a flat tree is the root. -/
theorem FlatShape.run_btreeInsertionSearch (F : FlatShape disk m r leaves) (key : UInt64) :
    run disk.mapping (btreeInsertionSearch disk (UInt64.ofNat r) key) m = some ((r : ℤ), m) := by
  have hlt := F.root_lt
  have hwrap := addressable_le disk
  have hroot : int32 (BTreeNode.ofPage (m r)).blockNumber.toNat = r := by
    rw [F.root.blockNumber, toNat_ofNat_block (by omega), int32_of_lt (by omega)]
  rw [btreeInsertionSearch, run_bind_of_eq F.isNode.run_copy, hroot]
  by_cases hzero : (BTreeNode.ofPage (m r)).childAt 0 = 0
  · rw [if_pos hzero, run_pure]
  · rw [if_neg hzero, run_bind_of_eq (F.run_btreeFindDepth hzero), if_pos (by decide), run_pure]

/-! ## Insertion -/

/-- Position at which `btree_insert_nonfull` enters a key among the first `n` leaves: behind the last
smaller one. -/
def leafPosition (leaves : List Leaf) (key : UInt64) : ℕ → ℕ
  | 0 => 0
  | n + 1 =>
      match leaves[n]? with
      | some l => if l.key < key then n + 1 else leafPosition leaves key n
      | none => leafPosition leaves key n

theorem leafPosition_le (leaves : List Leaf) (key : UInt64) (n : ℕ) :
    leafPosition leaves key n ≤ n := by
  induction n with
  | zero => exact le_rfl
  | succ n ih =>
      rw [leafPosition]
      split
      · split
        · exact le_rfl
        · omega
      · omega

/-- From the position on no key is smaller. -/
theorem le_key_of_leafPosition_le {key : UInt64} {n i : ℕ} (hi : leafPosition leaves key n ≤ i)
    (hn : i < n) (hl : leaves[i]? = some l) : key ≤ l.key := by
  induction n with
  | zero => omega
  | succ n ih =>
      rw [leafPosition] at hi
      by_cases hlast : i = n
      · subst hlast
        rw [hl] at hi
        simp only at hi
        split at hi
        · omega
        next hge => exact UInt64.not_lt.mp hge
      · refine ih ?_ (by omega)
        split at hi
        · split at hi
          · omega
          · exact hi
        · exact hi

/-- Just before the position stands a smaller key. -/
theorem lt_key_of_leafPosition_pos {key : UInt64} {n : ℕ} (hpos : 0 < leafPosition leaves key n) :
    ∃ l, leaves[leafPosition leaves key n - 1]? = some l ∧ l.key < key := by
  induction n with
  | zero => exact absurd hpos (lt_irrefl 0)
  | succ n ih =>
      rw [leafPosition] at hpos ⊢
      cases h : leaves[n]? with
      | none =>
          rw [h] at hpos
          exact ih hpos
      | some l =>
          rw [h] at hpos
          simp only at hpos ⊢
          by_cases hlt : l.key < key
          · rw [if_pos hlt, Nat.add_sub_cancel]
            exact ⟨l, h, hlt⟩
          · rw [if_neg hlt] at hpos ⊢
            exact ih hpos

/-- The loop of `btree_insert_nonfull` finds that position among the leaves that a node lists. -/
theorem run_childPosition_leaves (hleaf : ∀ l ∈ leaves, LeafPage disk m l) (key : UInt64) {n j : ℕ}
    (hn : j + n ≤ maxKeys + 1) (hchild : ∀ i < j + n, node.childAt i = blockOf leaves i) :
    run disk.mapping (childPosition disk node key n j (leafPosition leaves key j)) m =
      some (leafPosition leaves key (j + n), m) := by
  induction n generalizing j with
  | zero => rfl
  | succ n ih =>
      have hin : maxKeys + j < nodeWords := by
        simp only [maxKeys, nodeWords] at *
        omega
      have hrec := @ih (j + 1) (by omega) fun i hi => hchild i (by omega)
      rw [childPosition, run_bind_of_eq (inNode_of_lt hin), hchild j (by omega),
        show j + (n + 1) = j + 1 + n by omega]
      cases h : leaves[j]? with
      | none =>
          rw [blockOf_of_le (by simpa using h), if_neg (not_not.mpr rfl)]
          rw [leafPosition, h] at hrec
          exact hrec
      | some l =>
          have L := hleaf l (List.mem_of_getElem? h)
          rw [blockOf_of_getElem? h, if_pos L.number_ne_zero, run_bind_of_eq L.isNode.run_copy,
            if_pos L.isLeaf, L.key]
          rw [leafPosition, h] at hrec
          exact hrec

theorem FlatShape.run_childPosition (F : FlatShape disk m r leaves) (N : FlatNode node r leaves)
    (key : UInt64) {n j : ℕ} (hn : j + n ≤ maxKeys + 1) :
    run disk.mapping (childPosition disk node key n j (leafPosition leaves key j)) m =
      some (leafPosition leaves key (j + n), m) :=
  run_childPosition_leaves F.leaf key hn fun i hi => N.child i (by omega)

theorem leafPosition_succ_length (leaves : List Leaf) (key : UInt64) :
    leafPosition leaves key (leaves.length + 1) = leafPosition leaves key leaves.length := by
  rw [leafPosition, List.getElem?_eq_none le_rfl]

/-- The leaves with a new one entered. -/
def insertLeaf (leaves : List Leaf) (l : Leaf) : List Leaf :=
  leaves.insertIdx (leafPosition leaves l.key leaves.length) l

theorem mem_insertLeaf {x : Leaf} : x ∈ insertLeaf leaves l ↔ x = l ∨ x ∈ leaves :=
  List.mem_insertIdx (leafPosition_le _ _ _)

/-- `btree_insert_nonfull` on the copy of a flat root with room. -/
theorem FlatShape.run_btreeInsertNonfull (F : FlatShape disk m r leaves)
    (N : FlatNode node r leaves) (hroom : leaves.length < maxKeys) {child : BTreeNode}
    (hblock : child.blockNumber = UInt64.ofNat l.block) (hkey : child.key = l.key) :
    ∃ root, run disk.mapping (btreeInsertNonfull disk node child) m =
        some ((0, root, child.setParent (UInt64.ofNat r)), m) ∧
      FlatNode root r (insertLeaf leaves l) ∧ root.value = node.value := by
  have hpos := leafPosition_le leaves l.key leaves.length
  have hrun := F.run_childPosition N l.key (n := leaves.length + 1) (j := 0) (by omega)
  rw [Nat.zero_add, leafPosition_succ_length, show leafPosition leaves l.key 0 = 0 from rfl] at hrun
  refine ⟨_, ?_, N.insertedRoot hroom hpos l, value_insertedRoot _ _ _⟩
  rw [btreeInsertNonfull, if_neg (not_not.mpr N.isLeaf), N.numKeys, hkey, run_bind_of_eq hrun,
    min_eq_left hpos, run_bind_of_eq (inNode_of_lt (by
      simp only [maxKeys, nodeWords] at *
      omega)), run_pure, hblock, N.blockNumber]

/-! ## Separators -/

/-- A key change leaves the children in place. -/
theorem FlatNode.setKeyAt (N : FlatNode node r leaves) {i : ℕ} (hi : i < leaves.length)
    (v : UInt64) : FlatNode (node.setKeyAt i v) r leaves := by
  have hle := N.le
  have hmax : maxKeys = 250 := rfl
  exact {
    blockNumber := N.blockNumber
    isLeaf := N.isLeaf
    numKeys := N.numKeys
    le := N.le
    child := fun j hj => by
      rw [BTreeNode.setKeyAt, childAt_setWord, if_neg (by omega)]
      exact N.child j hj
    parent := by
      rw [BTreeNode.setKeyAt, parent_setWord, if_neg (by omega)]
      exact N.parent
    past := fun j hlo hj => by
      rw [BTreeNode.setKeyAt, keyAt_setWord, if_neg (by omega)]
      exact N.past j hlo hj }

/-- The loop of `btree_update_parent_keys` makes the keys those of the leaves. -/
theorem FlatShape.run_refreshKeys (F : FlatShape disk m r leaves) (N : FlatNode node r leaves) :
    ∃ parent, run disk.mapping (refreshKeys disk node) m = some (parent, m) ∧
      FlatNode parent r leaves ∧ KeysMatch parent leaves ∧ parent.value = node.value := by
  have hle := N.le
  have hmax : maxKeys = 250 := rfl
  have hwords : nodeWords = 504 := rfl
  have hloop : ∃ parent m', run disk.mapping (refreshKeys disk node) m = some (parent, m') ∧
      m' = m ∧ FlatNode parent r leaves ∧ parent.value = node.value ∧
      ∀ j < 0 + node.numKeys.toNat, parent.keyAt j = keyOf leaves j := by
    refine run_forUp (fun i parent m' => m' = m ∧ FlatNode parent r leaves ∧
      parent.value = node.value ∧ ∀ j < i, parent.keyAt j = keyOf leaves j) ⟨rfl, N, rfl, by omega⟩ ?_
    rintro i parent m' - hi ⟨rfl, P, hvalue, hkeys⟩
    rw [N.numKeys, Nat.zero_add] at hi
    obtain ⟨hchild, L⟩ := F.child_of_getElem? P (List.getElem?_eq_getElem hi)
    refine ⟨_, _, ?_, rfl, P.setKeyAt hi (leaves.get ⟨i, hi⟩).key, hvalue, fun j hj => ?_⟩
    · rw [run_bind_of_eq (inNode_of_lt (by omega)), hchild, if_pos L.number_ne_zero,
        run_bind_of_eq L.run_btreeFindMaximum, run_pure]
      rfl
    · rw [BTreeNode.setKeyAt, keyAt_setWord]
      by_cases hji : j = i
      · rw [if_pos (by omega), hji, keyOf, List.getElem?_eq_getElem hi]
        rfl
      · rw [if_neg (by omega)]
        exact hkeys j (by omega)
  obtain ⟨parent, m', hrun, rfl, hnode, hvalue, hkeys⟩ := hloop
  rw [Nat.zero_add, N.numKeys] at hkeys
  exact ⟨parent, hrun, hnode, hkeys, hvalue⟩

/-- A new root page that lists leaves which are in place. -/
theorem FlatShape.setRoot {leaves' : List Leaf} (F : FlatShape disk m r leaves)
    (htype : blockType (m' r) = BlockType.btreeNode.code)
    (hnode : FlatNode (BTreeNode.ofPage (m' r)) r leaves') (hother : ∀ c ≠ r, m' c = m c)
    (hleaf : ∀ l ∈ leaves', LeafPage disk m l) : FlatShape disk m' r leaves' where
  root_pos := F.root_pos
  root_lt := F.root_lt
  root_type := htype
  root := hnode
  leaf l hl := (hleaf l hl).congr (hother _ (by
    intro h
    have hnot := (hleaf l hl).isLeaf
    rw [h, F.root.isLeaf] at hnot
    exact hnot rfl))

/-- Pages of a flat tree that are the same hold the same tree. -/
theorem FlatPages.congr (P : FlatPages disk m r leaves) (hroot : m' r = m r)
    (hleaf : ∀ l ∈ leaves, m' l.block = m l.block) : FlatPages disk m' r leaves where
  root_pos := P.root_pos
  root_lt := P.root_lt
  root_type := by rw [hroot, P.root_type]
  root := by rw [hroot]; exact P.root
  leaf l hl := (P.leaf l hl).congr (hleaf l hl)
  keys := by rw [hroot]; exact P.keys
  parent l hl := by rw [hleaf l hl, P.parent l hl]

/-- `btree_update_parent_keys` for a child of a flat root. -/
theorem FlatShape.run_btreeUpdateParentKeys (F : FlatShape disk m r leaves)
    (hparent : node.parent = UInt64.ofNat r)
    (hlinked : ∀ l ∈ leaves, (BTreeNode.ofPage (m l.block)).parent = UInt64.ofNat r) :
    ∃ m', run disk.mapping (btreeUpdateParentKeys disk node) m = some ((), m') ∧
      FlatPages disk m' r leaves ∧
      (BTreeNode.ofPage (m' r)).value = (BTreeNode.ofPage (m r)).value ∧ ∀ c ≠ r, m' c = m c := by
  obtain ⟨parent, hrefresh, N, K, hvalue⟩ := F.run_refreshKeys F.root
  obtain ⟨m', hwrite, hpage, htype, hother⟩ := F.isNode.exists_write N.blockNumber
  refine ⟨m', ?_, ?_, by rw [hpage, hvalue], hother⟩
  · rw [btreeUpdateParentKeys, hparent, if_neg F.number_ne_zero, run_bind_of_eq F.isNode.run_copy,
      run_bind_of_eq hrefresh, run_bind_of_eq hwrite, run_pure]
  · exact {
      toFlatShape := F.setRoot htype (by rwa [hpage]) hother F.leaf
      keys := by rwa [hpage]
      parent := fun l hl => by rw [hother _ (F.block_ne hl), hlinked l hl] }

/-! ## Insertion of a leaf that was created -/

/-- The page of a leaf stays one when only its parent is set. -/
theorem LeafPage.setParent (L : LeafPage disk m l) {b : ℕ} {p : UInt64}
    (hpage : BTreeNode.ofPage (m' b) = (BTreeNode.ofPage (m b)).setParent p)
    (htype : blockType (m' b) = BlockType.btreeNode.code) (hother : ∀ c ≠ b, m' c = m c) :
    LeafPage disk m' l := by
  by_cases hb : l.block = b
  · subst hb
    exact {
      pos := L.pos
      lt := L.lt
      type := htype
      isLeaf := by rw [hpage]; exact L.isLeaf
      blockNumber := by rw [hpage]; exact L.blockNumber
      onPage := by
        rw [Leaf.onPage, hpage]
        exact L.onPage }
  · exact L.congr (hother _ hb)

theorem parent_setParent (node : BTreeNode) (p : UInt64) : (node.setParent p).parent = p := by
  rw [BTreeNode.setParent, parent_setWord, if_pos ⟨rfl, by decide⟩]

/-- Setting the parent of a leaf keeps the shape of the tree. -/
theorem FlatShape.setParent (F : FlatShape disk m r leaves) {b : ℕ} {p : UInt64} (hb : b ≠ r)
    (hpage : BTreeNode.ofPage (m' b) = (BTreeNode.ofPage (m b)).setParent p)
    (htype : blockType (m' b) = BlockType.btreeNode.code) (hother : ∀ c ≠ b, m' c = m c) :
    FlatShape disk m' r leaves where
  root_pos := F.root_pos
  root_lt := F.root_lt
  root_type := by rw [hother r (Ne.symm hb), F.root_type]
  root := by rw [hother r (Ne.symm hb)]; exact F.root
  leaf l hl := (F.leaf l hl).setParent hpage htype hother

theorem FlatShape.leaf_ne (F : FlatShape disk m r leaves) (L : LeafPage disk m l) :
    l.block ≠ r := by
  intro h
  have hleaf := L.isLeaf
  rw [h, F.root.isLeaf] at hleaf
  exact hleaf rfl

/-- The end of `btree_insert`: the leaf was linked to the root, and the keys are recomputed. -/
theorem FlatShape.run_finishInsert (F : FlatShape disk m r leaves) (L : LeafPage disk m l)
    (hparent : (BTreeNode.ofPage (m l.block)).parent = UInt64.ofNat r)
    (hlinked : ∀ x ∈ leaves, (BTreeNode.ofPage (m x.block)).parent = UInt64.ofNat r) :
    ∃ m', run disk.mapping (do
        btreeUpdateParentKeys disk (← nodeAt (UInt64.ofNat l.block))
        pure (0 : ℤ)) m = some (0, m') ∧
      FlatPages disk m' r leaves ∧
      (BTreeNode.ofPage (m' r)).value = (BTreeNode.ofPage (m r)).value ∧ ∀ c ≠ r, m' c = m c := by
  obtain ⟨m', hrun, hpages, hvalue, hother⟩ := F.run_btreeUpdateParentKeys hparent hlinked
  refine ⟨m', ?_, hpages, hvalue, hother⟩
  rw [run_bind_of_eq L.isNode.run_nodeAt, run_bind_of_eq hrun, run_pure]

/-- The part of `btree_insert` that enters a leaf in a flat root with room. -/
theorem FlatShape.run_insertInto (F : FlatShape disk m r leaves) (hroom : leaves.length < maxKeys)
    (L : LeafPage disk m l) :
    ∃ m', run disk.mapping (insertInto disk (BTreeNode.ofPage (m r)) (UInt64.ofNat l.block)) m =
        some ((), m') ∧
      FlatShape disk m' r (insertLeaf leaves l) ∧ LeafPage disk m' l ∧
      (BTreeNode.ofPage (m' l.block)).parent = UInt64.ofNat r ∧
      (BTreeNode.ofPage (m' r)).value = (BTreeNode.ofPage (m r)).value ∧
      ∀ c, c ≠ r → c ≠ l.block → m' c = m c := by
  have hne := F.leaf_ne L
  obtain ⟨root, hinsert, N, hvalue⟩ := F.run_btreeInsertNonfull F.root hroom L.blockNumber L.key
  obtain ⟨m₁, hedit, hpage₁, htype₁, hother₁⟩ := L.isNode.exists_edit fun page =>
    page.setParent (UInt64.ofNat r)
  have F₁ := F.setParent hne hpage₁ htype₁ hother₁
  have L₁ := L.setParent hpage₁ htype₁ hother₁
  obtain ⟨m₂, hwrite, hpage₂, htype₂, hother₂⟩ := F₁.isNode.exists_write N.blockNumber
  refine ⟨m₂, ?_, F₁.setRoot htype₂ (by rwa [hpage₂]) hother₂ fun x hx => ?_,
    L₁.congr (hother₂ _ hne), ?_, by rw [hpage₂, hvalue],
    fun c hr hc => by rw [hother₂ c hr, hother₁ c hc]⟩
  · rw [insertInto, run_bind_of_eq L.isNode.run_nodeAt, run_bind_of_eq hinsert]
    simp only [parent_setParent]
    rw [run_bind_of_eq hedit, run_bind_of_eq hwrite, run_pure]
  · rcases mem_insertLeaf.mp hx with rfl | hx
    · exact L₁
    · exact F₁.leaf x hx
  · rw [hother₂ _ hne, hpage₁, parent_setParent]

/-- `btree_insert` into a flat tree with room, from the image in which its leaf was created. -/
theorem FlatShape.run_btreeInsert {m₁ : Image} {key value : UInt64} {type : UInt32}
    (hnew : run disk.mapping (newLeaf disk key value type) m = some (UInt64.ofNat l.block, m₁))
    (F : FlatShape disk m₁ r leaves) (L : LeafPage disk m₁ l) (hroom : leaves.length < maxKeys)
    (hlinked : ∀ x ∈ leaves, x.block ≠ l.block →
      (BTreeNode.ofPage (m₁ x.block)).parent = UInt64.ofNat r) :
    ∃ m', run disk.mapping (btreeInsert disk (UInt64.ofNat r) key value type) m = some (0, m') ∧
      FlatPages disk m' r (insertLeaf leaves l) ∧
      (BTreeNode.ofPage (m' r)).value = (BTreeNode.ofPage (m₁ r)).value ∧
      ∀ c, c ≠ r → c ≠ l.block → m' c = m₁ c := by
  obtain ⟨m₂, hinto, F₂, L₂, hparent, hvalue₂, hother₂⟩ := F.run_insertInto hroom L
  have hlinked₂ : ∀ x ∈ insertLeaf leaves l,
      (BTreeNode.ofPage (m₂ x.block)).parent = UInt64.ofNat r := by
    intro x hx
    by_cases hxl : x.block = l.block
    · rw [hxl, hparent]
    · rcases mem_insertLeaf.mp hx with rfl | hmem
      · exact absurd rfl hxl
      · rw [hother₂ _ (F.block_ne hmem) hxl, hlinked x hmem hxl]
  obtain ⟨m', hfinish, hpages, hvalue', hother'⟩ := F₂.run_finishInsert L₂ hparent hlinked₂
  refine ⟨m', ?_, hpages, hvalue'.trans hvalue₂, fun c hr hc => by rw [hother' c hr, hother₂ c hr hc]⟩
  rw [btreeInsert, run_bind_of_eq hnew, run_bind_of_eq (F.run_btreeInsertionSearch key),
    ofInt_natCast, run_bind_of_eq F.isNode.run_copy, if_neg (by rw [F.root.numKeys]; omega),
    run_bind_of_eq hinto, hfinish]

/-- `btree_insert` of a larger key into a full flat tree: the leaf is not entered. -/
theorem FlatPages.run_btreeInsert_full {m₁ : Image} {key value : UInt64} {type : UInt32}
    (hnew : run disk.mapping (newLeaf disk key value type) m = some (UInt64.ofNat l.block, m₁))
    (P : FlatPages disk m₁ r leaves) (L : LeafPage disk m₁ l) (hfull : leaves.length = maxKeys)
    (hkey : keyOf leaves (maxKeys - 1) < key) (hfresh : ∀ x ∈ leaves, x.block ≠ l.block) :
    ∃ m', run disk.mapping (btreeInsert disk (UInt64.ofNat r) key value type) m = some (0, m') ∧
      FlatPages disk m' r leaves ∧ ∀ c, c ≠ r → c ≠ l.block → m' c = m₁ c := by
  have hmax : maxKeys = 250 := rfl
  have hne := P.leaf_ne L
  obtain ⟨m₂, hedit, hpage₂, htype₂, hother₂⟩ := L.isNode.exists_edit fun page =>
    page.setParent (BTreeNode.ofPage (m₁ r)).blockNumber
  have F₂ := P.toFlatShape.setParent hne hpage₂ htype₂ hother₂
  have hparent : (BTreeNode.ofPage (m₂ l.block)).parent = UInt64.ofNat r := by
    rw [hpage₂, parent_setParent, P.root.blockNumber]
  obtain ⟨m', hfinish, hpages, -, hother'⟩ := F₂.run_finishInsert
    (L.setParent hpage₂ htype₂ hother₂) hparent
    (fun x hx => by rw [hother₂ _ (hfresh x hx), P.parent x hx])
  refine ⟨m', ?_, hpages, fun c hr hc => by rw [hother' c hr, hother₂ c hc]⟩
  rw [btreeInsert, run_bind_of_eq hnew, run_bind_of_eq (P.run_btreeInsertionSearch key),
    ofInt_natCast, run_bind_of_eq P.isNode.run_copy, if_pos (by rw [P.root.numKeys, hfull]),
    if_pos ⟨by rwa [P.keys _ (by omega)], FlatShape.child_eq_zero P.root hfull.le le_rfl⟩,
    run_bind_of_eq hedit, hfinish]

/-! ## Deletion -/

/-- The loop that finds the slot of a key stops at the first key that is not smaller, or zero. -/
theorem run_keySlot {M : Mapping} {key : UInt64} {n s i : ℕ} (hs : s ≤ i) (hi : i < s + n)
    (hbefore : ∀ j, s ≤ j → j < i → node.keyAt j < key ∧ node.keyAt j ≠ 0)
    (hstop : ¬(node.keyAt i < key ∧ node.keyAt i ≠ 0)) :
    run M (keySlot node (pure key) n s) m = some (i, m) := by
  induction n generalizing s with
  | zero => omega
  | succ n ih =>
      rw [keySlot, run_bind_of_eq (run_pure key)]
      by_cases hlast : s = i
      · rw [hlast, if_neg hstop, run_pure]
      · rw [if_pos (hbefore s le_rfl (by omega))]
        exact ih (by omega) (by omega) fun j hlo hj => hbefore j (by omega) hj

/-- A key that is not there is not deleted. -/
theorem FlatShape.run_btreeDelete_absent (F : FlatShape disk m r leaves)
    {key : UInt64} (habsent : Leaf.found leaves key = 0) :
    run disk.mapping (btreeDelete disk (UInt64.ofNat r) key) m = some (0, m) := by
  rw [btreeDelete, run_bind_of_eq (F.run_btreeSearch key), habsent, if_neg (not_not.mpr rfl),
    run_pure]

/-- `btree_remove_key` on a flat tree takes the leaf out at which the search for the slot stops. -/
theorem FlatPages.run_btreeRemoveKey (P : FlatPages disk m r leaves) {key : UInt64} {i : ℕ}
    (hi : i < leaves.length) (hbefore : ∀ j < i, keyOf leaves j < key ∧ keyOf leaves j ≠ 0)
    (hstop : ¬(keyOf leaves i < key ∧ keyOf leaves i ≠ 0)) :
    ∃ m', run disk.mapping (btreeRemoveKey disk (UInt64.ofNat r) key) m = some ((), m') ∧
      FlatPages disk m' r (leaves.eraseIdx i) ∧ ∀ c ≠ r, m' c = m c := by
  have hle := P.root.le
  have hmax : maxKeys = 250 := rfl
  have hwords : nodeWords = 504 := rfl
  have hslot : run disk.mapping (keySlot (BTreeNode.ofPage (m r)) (pure key) maxKeys 0) m =
      some (i, m) := by
    refine run_keySlot (Nat.zero_le i) (by omega) (fun j _ hj => ?_) ?_
    · rw [P.keys j (by omega)]
      exact hbefore j hj
    · rwa [P.keys i hi]
  obtain ⟨hchild, L⟩ := P.child_of_getElem? P.root (List.getElem?_eq_getElem hi)
  have hmem : leaves[i] ∈ leaves := List.getElem_mem hi
  have N := P.root.dropChild hi
  have K := P.keys.dropChild P.root hi
  have hmemErase : ∀ x ∈ leaves.eraseIdx i, x ∈ leaves := fun x hx => List.mem_of_mem_eraseIdx hx
  obtain ⟨m₁, hwrite₁, hpage₁, htype₁, hother₁⟩ := P.isNode.exists_write N.blockNumber
  have F₁ := P.toFlatShape.setRoot htype₁ (by rwa [hpage₁]) hother₁
    fun x hx => P.leaf x (hmemErase x hx)
  obtain ⟨m₂, hupdate, P₂, -, hother₂⟩ := F₁.run_btreeUpdateParentKeys (P.parent _ hmem)
    (fun x hx => by rw [hother₁ _ (P.block_ne (hmemErase x hx)), P.parent x (hmemErase x hx)])
  obtain ⟨m₃, hwrite₃, hpage₃, htype₃, hother₃⟩ := P₂.isNode.exists_write N.blockNumber
  refine ⟨m₃, ?_, ?_, fun c hc => by rw [hother₃ c hc, hother₂ c hc, hother₁ c hc]⟩
  · have hempty : ¬((dropChild (BTreeNode.ofPage (m r)) i).numKeys = 0 ∧
        (dropChild (BTreeNode.ofPage (m r)) i).childAt 0 ≠ 0) := by
      rintro ⟨hnum, hne⟩
      have hlen := N.numKeys
      rw [hnum] at hlen
      exact hne (FlatShape.child_eq_zero N hlen.symm.le (by omega))
    have hrestore : run disk.mapping (restoreKey disk (UInt64.ofNat r)
        (dropChild (BTreeNode.ofPage (m r)) i)) m₁ =
        some (dropChild (BTreeNode.ofPage (m r)) i, m₁) := by
      rw [restoreKey, if_neg hempty, run_pure]
    have henter : run disk.mapping (enterBorrowed disk (dropChild (BTreeNode.ofPage (m r)) i) (-1))
        m₁ = some (dropChild (BTreeNode.ofPage (m r)) i, m₁) := by
      rw [enterBorrowed, if_neg (not_not.mpr rfl), run_pure]
    have hrefill : run disk.mapping (refill disk (BTreeNode.ofPage (m r)) key) m =
        some (-1, m) := by
      rw [refill, if_neg (fun h => h.2 P.root.parent), run_pure]
    rw [btreeRemoveKey, run_bind_of_eq P.isNode.run_copy, run_bind_of_eq hslot, hchild,
      run_bind_of_eq L.isNode.run_copy, run_bind_of_eq hrefill, run_bind_of_eq hslot,
      run_bind_of_eq (inNode_of_lt (by rw [P.root.numKeys]; omega)), run_bind_of_eq hwrite₁,
      run_bind_of_eq hrestore, run_bind_of_eq henter, run_bind_of_eq hupdate,
      run_bind_of_eq hwrite₃, run_pure]
  · exact {
      toFlatShape := P₂.toFlatShape.setRoot htype₃ (by rwa [hpage₃]) hother₃ P₂.leaf
      keys := by rwa [hpage₃]
      parent := fun x hx => by rw [hother₃ _ (P₂.block_ne hx), P₂.parent x hx] }

end Nbtrfs
