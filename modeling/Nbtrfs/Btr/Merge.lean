import Nbtrfs.Btr.InsertNonfull

/-!
# Merging two nodes

Reference: `btr.c::btree_merge_children`.

The node in front takes the keys and children of its sibling. The loops copy a fixed number of them
whatever the nodes hold, and the one for the children stores them among the keys: the last of them lands
on the first child. No merge leaves the children and the number of keys that it should.
-/

namespace Nbtrfs

open BlockProg

variable {disk : DiskInterface} {m m' : Image} {parent node sibling : BTreeNode} {index p a b w : ℕ}

/-! ## What is copied -/

/-- The words after a loop of assignments to consecutive keys. -/
theorem word_foldl_setKeyAt (f : ℕ → UInt64) (node : BTreeNode) {lo n : ℕ} (h : lo + n ≤ nodeWords) :
    ((List.range n).foldl (fun node i => node.setKeyAt (lo + i) (f i)) node).word w =
      if lo ≤ w ∧ w < lo + n then f (w - lo) else node.word w := by
  induction n with
  | zero => rw [List.range_zero, List.foldl_nil, if_neg (by omega)]
  | succ n ih =>
      rw [List.range_succ, List.foldl_append, List.foldl_cons, List.foldl_nil, BTreeNode.setKeyAt,
        BTreeNode.word_setWord, ih (by omega)]
      by_cases hlast : w = lo + n
      · rw [if_pos ⟨hlast, by omega⟩, if_pos (by omega), hlast, Nat.add_sub_cancel_left]
      · rw [if_neg (fun h => hlast h.1)]
        by_cases hin : lo ≤ w ∧ w < lo + n
        · rw [if_pos hin, if_pos (by omega)]
        · rw [if_neg hin, if_neg (by omega)]

/-- The node after the loop that copies keys and counts them. -/
def withKeys (node : BTreeNode) (f : ℕ → UInt64) (n : ℕ) : BTreeNode :=
  (List.range n).foldl (fun node i =>
    { node.setKeyAt (minKeys + 1 + i) (f i) with numKeys := node.numKeys + 1 }) node

/-- `btree_merge_children` writes the keys of the sibling from key 126 on, wherever those of the node
end. -/
theorem word_withKeys (f : ℕ → UInt64) (node : BTreeNode) {n : ℕ} (h : minKeys + 1 + n ≤ nodeWords) :
    (withKeys node f n).word w =
      if minKeys + 1 ≤ w ∧ w < minKeys + 1 + n then f (w - (minKeys + 1)) else node.word w := by
  rw [← word_foldl_setKeyAt f node h]
  induction n generalizing w with
  | zero => rfl
  | succ n ih =>
      rw [withKeys, List.range_succ, List.foldl_append, List.foldl_append]
      show BTreeNode.word (BTreeNode.setKeyAt _ _ _) w = BTreeNode.word (BTreeNode.setKeyAt _ _ _) w
      rw [BTreeNode.setKeyAt, BTreeNode.setKeyAt, BTreeNode.word_setWord, BTreeNode.word_setWord,
        ← ih (by omega), withKeys]

/-- It counts every one of them. -/
theorem numKeys_withKeys (f : ℕ → UInt64) (node : BTreeNode) {n : ℕ}
    (h : node.numKeys.toNat + n < 65536) : (withKeys node f n).numKeys.toNat = node.numKeys.toNat + n := by
  induction n with
  | zero => rfl
  | succ n ih =>
      rw [withKeys, List.range_succ, List.foldl_append]
      show ((withKeys node f n).numKeys + 1).toNat = _
      rw [UInt16.toNat_add, ih (by omega)]
      exact Nat.mod_eq_of_lt (by
        show node.numKeys.toNat + n + 1 < 65536
        omega)

/-- A field that no turn of a loop changes is the same after the loop. -/
theorem foldl_field {β : Type} (field : BTreeNode → β) {turn : BTreeNode → ℕ → BTreeNode}
    (h : ∀ node i, field (turn node i) = field node) (node : BTreeNode) (is : List ℕ) :
    field (is.foldl turn node) = field node := by
  induction is generalizing node with
  | nil => rfl
  | cons i is ih => rw [List.foldl_cons, ih, h]

theorem mergedChild_eq (a b : BTreeNode) : mergedChild a b =
    (List.range (maxKeys + 1 - (minKeys + 1))).foldl
      (fun node i => node.setKeyAt (minKeys + 1 + i) (b.childAt i))
      (withKeys (a.setRightSibling b.rightSibling) b.keyAt (maxKeys - (minKeys + 1))) := rfl

/-- The number of keys grows by a constant. -/
theorem numKeys_mergedChild (hkeys : node.numKeys.toNat ≤ minKeys) :
    (mergedChild node sibling).numKeys.toNat = node.numKeys.toNat + (maxKeys - (minKeys + 1)) := by
  have hmax : maxKeys = 250 := rfl
  have hmin : minKeys = 125 := rfl
  rw [mergedChild_eq, foldl_field BTreeNode.numKeys, numKeys_withKeys]
  · rfl
  · show node.numKeys.toNat + (maxKeys - (minKeys + 1)) < 65536
    omega
  · exact fun _ _ => rfl

theorem blockNumber_mergedChild : (mergedChild node sibling).blockNumber = node.blockNumber := by
  rw [mergedChild_eq, foldl_field BTreeNode.blockNumber, withKeys, foldl_field BTreeNode.blockNumber]
  · rfl
  · exact fun _ _ => rfl
  · exact fun _ _ => rfl

/-- Of the children of the sibling only one arrives, in place of the first child. -/
theorem childAt_mergedChild {i : ℕ} (hi : i ≤ maxKeys) :
    (mergedChild node sibling).childAt i =
      if i = 0 then sibling.childAt (maxKeys - (minKeys + 1)) else node.childAt i := by
  have hmax : maxKeys = 250 := rfl
  have hmin : minKeys = 125 := rfl
  have hwords : nodeWords = 504 := rfl
  rw [mergedChild_eq, BTreeNode.childAt, word_foldl_setKeyAt _ _ (by omega)]
  by_cases hi0 : i = 0
  · rw [if_pos (by omega), if_pos hi0,
      show maxKeys + i - (minKeys + 1) = maxKeys - (minKeys + 1) by omega]
  · rw [if_neg (by omega), if_neg hi0, word_withKeys _ _ (by omega), if_neg (by omega),
      BTreeNode.setRightSibling, BTreeNode.word_setWord, if_neg (by omega), BTreeNode.childAt]

/-- The merged node has at most one child more than the node had, and none if that one is missing. -/
theorem length_children_mergedChild :
    (mergedChild node sibling).children.length ≤ node.children.length +
      if sibling.childAt (maxKeys - (minKeys + 1)) = 0 then 0 else 1 := by
  have hrest : ((List.range maxKeys).map fun i => (mergedChild node sibling).childAt (i + 1)) =
      (List.range maxKeys).map fun i => node.childAt (i + 1) := by
    apply List.map_congr_left
    intro i hi
    rw [childAt_mergedChild (List.mem_range.mp hi), if_neg (Nat.succ_ne_zero i)]
  have hsplit (node : BTreeNode) : node.children =
      (node.childAt 0 :: (List.range maxKeys).map fun i => node.childAt (i + 1)).filter (· ≠ 0) := by
    rw [BTreeNode.children, List.range_succ_eq_map, List.map_cons, List.map_map]
    rfl
  rw [hsplit, hsplit node, hrest, childAt_mergedChild (Nat.zero_le _), if_pos rfl]
  by_cases hzero : sibling.childAt (maxKeys - (minKeys + 1)) = 0
  · rw [if_pos hzero, List.filter_cons_of_neg (by simpa using hzero), List.filter_cons]
    split <;> (try simp only [List.length_cons]) <;> omega
  · rw [if_neg hzero, List.filter_cons_of_pos (by simpa using hzero), List.filter_cons]
    split <;> simp only [List.length_cons] <;> omega

/-- The children of a sibling that has any do not follow those of the node. -/
theorem children_mergedChild_ne {c : ℕ} (hocc : sibling.Occupied c) (hpos : 0 < c) :
    (mergedChild node sibling).children ≠ node.children ++ sibling.children := by
  have hmax : maxKeys = 250 := rfl
  have hmin : minKeys = 125 := rfl
  intro heq
  have hlen := congrArg List.length heq
  have hle : (mergedChild node sibling).children.length ≤ node.children.length +
    if sibling.childAt (maxKeys - (minKeys + 1)) = 0 then 0 else 1 := length_children_mergedChild
  rw [List.length_append, length_children hocc] at hlen
  split at hle
  · omega
  next hne =>
    -- a child at that position is one of many
    refine hne (hocc.past _ ?_ (by omega))
    omega

/-- The parent after its key and its child behind `index` were taken out. -/
def withoutSibling (parent : BTreeNode) (index : ℕ) : BTreeNode :=
  let parent := parent.shiftDown (index + 1) (maxKeys - 1 - (index + 1))
  let parent := parent.setKeyAt (maxKeys - 1) 0
  let parent := parent.shiftDown (maxKeys + index + 1) (maxKeys - (index + 1))
  { parent with numKeys := parent.numKeys - 1 }

theorem blockNumber_withoutSibling (parent : BTreeNode) (index : ℕ) :
    (withoutSibling parent index).blockNumber = parent.blockNumber :=
  (BTreeNode.sameFields_shiftDown _ _ _).blockNumber.trans
    (BTreeNode.sameFields_shiftDown parent _ _).blockNumber

theorem numKeys_withoutSibling (hpos : 0 < parent.numKeys.toNat) :
    (withoutSibling parent index).numKeys.toNat = parent.numKeys.toNat - 1 := by
  have hsame : (withoutSibling parent index).numKeys = parent.numKeys - 1 := by
    rw [← (BTreeNode.sameFields_shiftDown parent (index + 1) (maxKeys - 1 - (index + 1))).numKeys]
    exact congrArg (· - 1) (BTreeNode.sameFields_shiftDown _ _ _).numKeys
  have hle : (1 : UInt16) ≤ parent.numKeys := UInt16.le_iff_toNat_le.mpr hpos
  rw [hsame, UInt16.toNat_sub_of_le _ _ hle]
  rfl

/-! ## The merge -/

/-- Children `index` and `index + 1` of the parent on page `p` are inner nodes, on pages `a` and `b`. The
keys of both fit into one node, and the parent has keys enough without the second one. -/
structure Mergeable (disk : DiskInterface) (m : Image) (parent : BTreeNode) (index p a b : ℕ) : Prop
    where
  used : InUse disk m {p, a, b}
  distinct : p ≠ a ∧ p ≠ b ∧ a ≠ b
  node_p : IsNode disk.mapping m p
  node_a : IsNode disk.mapping m a
  node_b : IsNode disk.mapping m b
  parentNumber : parent.blockNumber = UInt64.ofNat p
  number_a : (BTreeNode.ofPage (m a)).blockNumber = UInt64.ofNat a
  number_b : (BTreeNode.ofPage (m b)).blockNumber = UInt64.ofNat b
  index_lt : index < maxKeys
  child_a : parent.childAt index = UInt64.ofNat a
  child_b : parent.childAt (index + 1) = UInt64.ofNat b
  inner_a : (BTreeNode.ofPage (m a)).isLeaf = 0
  inner_b : (BTreeNode.ofPage (m b)).isLeaf = 0
  keys_a : (BTreeNode.ofPage (m a)).numKeys.toNat ≤ minKeys
  keys_b : (BTreeNode.ofPage (m b)).numKeys.toNat ≤ minKeys
  count_a : (BTreeNode.ofPage (m a)).children.length ≤ (BTreeNode.ofPage (m a)).numKeys.toNat + 1
  keeps : minKeys < parent.numKeys.toNat

/-- What a merge should do: node `a` has the children of both and as many keys as fit to them, the
children that moved name it as their parent, the parent on page `p` lost `b`, only the page of `b` is
free, and node `a` has the right sibling of `b`. -/
structure Merged (disk : DiskInterface) (m m' : Image) (parent : BTreeNode) (p a b : ℕ) : Prop where
  children : (BTreeNode.ofPage (m' a)).children =
    (BTreeNode.ofPage (m a)).children ++ (BTreeNode.ofPage (m b)).children
  numKeys : (BTreeNode.ofPage (m' a)).numKeys.toNat = (BTreeNode.ofPage (m' a)).children.length ∨
    (BTreeNode.ofPage (m' a)).numKeys.toNat + 1 = (BTreeNode.ofPage (m' a)).children.length
  adopted : ∀ c ∈ (BTreeNode.ofPage (m b)).children,
    (BTreeNode.ofPage (m' c.toNat)).parent = UInt64.ofNat a
  parent : (BTreeNode.ofPage (m' p)).children = parent.children.erase (UInt64.ofNat b)
  freed : ∀ x < disk.totalBlocks.toNat, blockBit m' x = if x = b then false else blockBit m x
  sibling : (BTreeNode.ofPage (m' a)).rightSibling = (BTreeNode.ofPage (m b)).rightSibling

/-- `btree_merge_children` returns, its parent is written, and the merge is done. -/
def MergeKeeps (disk : DiskInterface) (m : Image) (parent : BTreeNode) (index p a b : ℕ) : Prop :=
  ∃ parent' m₁ m', run disk.mapping (btreeMergeChildren disk parent index) m = some (parent', m₁) ∧
    run disk.mapping (btreeNodeWrite parent') m₁ = some (0, m') ∧ Merged disk m m' parent p a b

namespace Mergeable

/-- The merge returns, and what is on page `a` is the copy of `mergedChild`. -/
theorem exists_run (G : Mergeable disk m parent index p a b) : ∃ parent' m₁ m',
    run disk.mapping (btreeMergeChildren disk parent index) m = some (parent', m₁) ∧
      run disk.mapping (btreeNodeWrite parent') m₁ = some (0, m') ∧
      BTreeNode.ofPage (m' a) = mergedChild (BTreeNode.ofPage (m a)) (BTreeNode.ofPage (m b)) := by
  obtain ⟨hpa, hpb, hab⟩ := G.distinct
  have hindex := G.index_lt
  have hkeeps := G.keeps
  have hwrap := addressable_le disk
  have hltb := G.node_b.lt_addressable
  have htotal := G.node_b.lt
  have hbehind (x : ℕ) (hx : x ∈ ({p, a, b} : Finset ℕ)) := G.used.behind x hx
  obtain ⟨hbehind_p, hbehind_a, hbehind_b⟩ : blockBitmapBlocks disk.totalBlocks.toNat < p ∧
      blockBitmapBlocks disk.totalBlocks.toNat < a ∧ blockBitmapBlocks disk.totalBlocks.toNat < b :=
    ⟨hbehind p (by simp), hbehind a (by simp), hbehind b (by simp)⟩
  have hnumber_a := ofNat_block_ne_zero (Nat.zero_lt_of_lt hbehind_a)
    (G.node_a.lt_addressable.trans_le (hwrap.trans (by decide)))
  have hnumber_b := ofNat_block_ne_zero (Nat.zero_lt_of_lt hbehind_b) (hltb.trans_le
    (hwrap.trans (by decide)))
  -- the merged node on its page
  have hnumber : (mergedChild (BTreeNode.ofPage (m a)) (BTreeNode.ofPage (m b))).blockNumber =
    UInt64.ofNat a := blockNumber_mergedChild.trans G.number_a
  obtain ⟨m₁, hwrite, hpage, htype, hother⟩ := G.node_a.exists_write hnumber
  have A₁ : BitmapArea disk m₁ := G.used.area.congr (by omega) fun c hc => hother c (by omega)
  -- the page of the sibling
  have hnat : (UInt64.ofNat b).toNat = b := toNat_ofNat_block (by omega)
  have hfree := run_freePage (p := UInt64.ofNat b) (by omega) (hnat.symm ▸ A₁.bitmapTo hltb hbehind_b)
  rw [hnat] at hfree
  have hkeep (x : ℕ) (hx : blockBitmapBlocks disk.totalBlocks.toNat < x) :
      dropBlock m₁ b x = m₁ x := dropBlock_of_behind htotal hx
  have hnode_p : IsNode disk.mapping (dropBlock m₁ b) p := by
    refine ⟨G.node_p.addr, ?_⟩
    rw [hkeep p hbehind_p, hother p hpa, G.node_p.type]
  -- the parent without the sibling
  have hrun : run disk.mapping (btreeMergeChildren disk parent index) m =
      some (withoutSibling parent index, dropBlock m₁ b) := by
    rw [btreeMergeChildren, callDepth, mergeChildrenFrom, if_neg hindex.ne, G.child_a, G.child_b,
      if_neg (by simp only [hnumber_a, hnumber_b, or_self, not_false_eq_true]),
      run_bind_of_eq G.node_a.run_copy, run_bind_of_eq G.node_b.run_copy, run_bind_of_eq hwrite,
      G.number_b, btreeNodeFree, run_bind_of_eq hfree]
    show run _ (if (withoutSibling parent index).numKeys.toNat < minKeys then _
      else pure (withoutSibling parent index)) _ = _
    rw [if_neg (by rw [numKeys_withoutSibling (by omega)]; omega), run_pure]
  have hparent := (blockNumber_withoutSibling parent index).trans G.parentNumber
  obtain ⟨m', hwrite', -, -, hother'⟩ := hnode_p.exists_write hparent
  refine ⟨_, _, m', hrun, hwrite', ?_⟩
  rw [hother' a (Ne.symm hpa), hkeep a hbehind_a, hpage]

/-- The page of the merged node cannot be that of a merge: it has too many keys for its children. -/
theorem not_merged (G : Mergeable disk m parent index p a b)
    (hpage : BTreeNode.ofPage (m' a) = mergedChild (BTreeNode.ofPage (m a)) (BTreeNode.ofPage (m b))) :
    ¬Merged disk m m' parent p a b := by
  intro M
  have hmax : maxKeys = 250 := rfl
  have hmin : minKeys = 125 := rfl
  have hnum := M.numKeys
  have hcount := G.count_a
  have hlen : (mergedChild (BTreeNode.ofPage (m a)) (BTreeNode.ofPage (m b))).children.length ≤
      (BTreeNode.ofPage (m a)).children.length + 1 :=
    length_children_mergedChild.trans (Nat.add_le_add_left (by split <;> omega) _)
  rw [hpage, numKeys_mergedChild G.keys_a] at hnum
  omega

end Mergeable

/-- A merge never keeps the children: the merged node counts more keys than it has children. -/
theorem not_mergeKeeps (G : Mergeable disk m parent index p a b) :
    ¬MergeKeeps disk m parent index p a b := by
  rintro ⟨parent', m₁, m', hrun, hwrite, M⟩
  obtain ⟨parent'', m₁', m'', hrun', hwrite', hpage⟩ := G.exists_run
  obtain ⟨rfl, rfl⟩ := Prod.mk.inj (Option.some.inj (hrun'.symm.trans hrun))
  obtain ⟨-, rfl⟩ := Prod.mk.inj (Option.some.inj (hwrite'.symm.trans hwrite))
  exact G.not_merged hpage M

/-! ## Two nodes below a root -/

/-- A root on block 9 with 127 children. The first two, on blocks 10 and 11, have two leaves each; the
others are leaves. -/
def mergeNodes : List BTreeNode :=
  [innerNode 9 126 ((List.range' 10 127).map UInt64.ofNat), innerNode 10 2 [137, 138],
    innerNode 11 2 [139, 140]] ++
  (List.range' 12 129).map fun b => leafNode (UInt64.ofNat b)
    (if b < 137 then 9 else if b < 139 then 10 else 11)
    (UInt64.ofNat (if b < 137 then b - 7 else b - 136))

/-- On a formatted volume of 512 blocks there is room for these nodes. -/
theorem exists_mergeNodes : ∃ m, Mergeable ⟨512, by decide⟩ m
    (innerNode 9 126 ((List.range' 10 127).map UInt64.ofNat)) 0 9 10 11 := by
  obtain ⟨m₀, -, F⟩ := run_diskFormat_blank ⟨512, by decide⟩ 0 0 0
    (show ([] : List UInt8).length ≤ 31 by decide) (blank_zero _) (by decide) (by decide)
  obtain ⟨m, hbits, htype, -⟩ := exists_prefix (fun _ hb => F.blockBit_lt hb) (n := 132) (by decide)
  have hstart : dataStart 512 = 8 := by decide
  have hblocks : blockBitmapBlocks 512 = 1 := by decide
  have haddr : DiskInterface.addressable ⟨512, by decide⟩ = 512 := rfl
  have hset (b : ℕ) (hb : b < 141) : blockBit m b = true := by
    rw [hbits b (show b < 512 by omega)]
    exact decide_eq_true (show b < dataStart 512 + 1 + 132 by omega)
  have A : BitmapArea ⟨512, by decide⟩ m := {
    type := fun b h1 hb => (htype b).trans (F.bitmapArea.type b h1 hb)
    bit := fun b (hb : b ≤ blockBitmapBlocks 512) => hset b (by omega) }
  have hlow : ∀ c ≤ blockBitmapBlocks (DiskInterface.totalBlocks ⟨512, by decide⟩).toNat,
      putNodes m mergeNodes c = m c := by
    intro c hc
    have hc : c ≤ 1 := hc
    interval_cases c <;> rfl
  have isNode (b : ℕ) (node : BTreeNode) (hb : b < 512)
      (h : (mergeNodes.find? fun node => node.blockNumber = UInt64.ofNat b) = some node) :
      IsNode (DiskInterface.mapping ⟨512, by decide⟩) (putNodes m mergeNodes) b :=
    isNode_putNodes h (haddr ▸ hb)
  have page (b : ℕ) (node : BTreeNode)
      (h : (mergeNodes.find? fun node => node.blockNumber = UInt64.ofNat b) = some node) :
      BTreeNode.ofPage (putNodes m mergeNodes b) = node := ofPage_putNodes h
  have hused : InUse ⟨512, by decide⟩ (putNodes m mergeNodes) {9, 10, 11} := by
    have hmem (b : ℕ) (hb : b ∈ ({9, 10, 11} : Finset ℕ)) : 9 ≤ b ∧ b < 12 := by
      simp only [Finset.mem_insert, Finset.mem_singleton] at hb
      omega
    refine ⟨A.congr (by decide) hlow, fun b hb => ?_, fun b hb => ?_, fun b hb => ?_⟩
    · have hb := hmem b hb
      show b < 512
      omega
    · have hb := hmem b hb
      show blockBitmapBlocks 512 < b
      omega
    · have hb := hmem b hb
      have hsame : blockBit (putNodes m mergeNodes) b = blockBit m b :=
        BitmapArea.bit_congr hlow (show b < 512 by omega)
      rw [hsame, hset b (by omega)]
  have page_a := page 10 _ rfl
  have page_b := page 11 _ rfl
  exact ⟨putNodes m mergeNodes, {
    used := hused
    distinct := by decide
    node_p := isNode 9 _ (by decide) rfl
    node_a := isNode 10 _ (by decide) rfl
    node_b := isNode 11 _ (by decide) rfl
    parentNumber := rfl
    number_a := by
      rw [page_a]
      rfl
    number_b := by
      rw [page_b]
      rfl
    index_lt := by decide
    child_a := by
      rw [childAt_innerNode (by decide)]
      rfl
    child_b := by
      rw [childAt_innerNode (by decide)]
      rfl
    inner_a := by
      rw [page_a]
      rfl
    inner_b := by
      rw [page_b]
      rfl
    keys_a := by
      rw [page_a]
      decide
    keys_b := by
      rw [page_b]
      decide
    count_a := by
      rw [page_a, length_children (occupied_innerNode (by decide) (by decide))]
      decide
    keeps := by decide }⟩

/-- The merge of the two nodes is no merge. -/
theorem not_mergeKeeps_512 : ∃ m, Mergeable ⟨512, by decide⟩ m
      (innerNode 9 126 ((List.range' 10 127).map UInt64.ofNat)) 0 9 10 11 ∧
    ¬MergeKeeps ⟨512, by decide⟩ m (innerNode 9 126 ((List.range' 10 127).map UInt64.ofNat)) 0 9 10
      11 := by
  obtain ⟨m, G⟩ := exists_mergeNodes
  exact ⟨m, G, not_mergeKeeps G⟩

/-- It returns, and node 10 then counts 126 keys for at most three children. -/
theorem mergeKeeps_fails_512 : ¬∀ (disk : DiskInterface) (m : Image) (parent : BTreeNode)
    (index p a b : ℕ), Mergeable disk m parent index p a b → MergeKeeps disk m parent index p a b := by
  intro h
  obtain ⟨m, G⟩ := exists_mergeNodes
  obtain ⟨parent', m₁, m', hrun, hwrite, M⟩ := h _ _ _ _ _ _ _ G
  obtain ⟨parent'', m₁', m'', hrun', hwrite', hpage⟩ := G.exists_run
  obtain ⟨rfl, rfl⟩ := Prod.mk.inj (Option.some.inj (hrun'.symm.trans hrun))
  obtain ⟨-, rfl⟩ := Prod.mk.inj (Option.some.inj (hwrite'.symm.trans hwrite))
  exact G.not_merged hpage M

end Nbtrfs
