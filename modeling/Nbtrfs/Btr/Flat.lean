import Nbtrfs.Btr.Tree
import Nbtrfs.Btr.Delete
import Nbtrfs.FreePage

/-!
# Trees of one level

A tree that starts empty and takes no split is flat: its root lists the leaves. `FlatPages` says
that the pages hold such a tree, for a list of leaves in any order; `FlatShape` leaves the keys of
the root open, as they are in the middle of an insertion.
-/

namespace Nbtrfs

open BlockProg

/-- Key of the `i`th leaf. -/
def keyOf (leaves : List Leaf) (i : ℕ) : UInt64 := (leaves[i]?.map Leaf.key).getD 0

/-- Block number of the `i`th leaf. -/
def blockOf (leaves : List Leaf) (i : ℕ) : UInt64 :=
  (leaves[i]?.map fun l => UInt64.ofNat l.block).getD 0

/-- A node that lists the leaves as its children. -/
structure FlatNode (node : BTreeNode) (r : ℕ) (leaves : List Leaf) : Prop where
  blockNumber : node.blockNumber = UInt64.ofNat r
  isLeaf : node.isLeaf = 0
  numKeys : node.numKeys.toNat = leaves.length
  le : leaves.length ≤ maxKeys
  child : ∀ i ≤ maxKeys, node.childAt i = blockOf leaves i
  parent : node.parent = 0
  past : ∀ i, leaves.length ≤ i → i < maxKeys → node.keyAt i = 0

/-- The keys of the node are those of the leaves. -/
def KeysMatch (node : BTreeNode) (leaves : List Leaf) : Prop :=
  ∀ i < leaves.length, node.keyAt i = keyOf leaves i

/-- The page of a leaf. -/
structure LeafPage (disk : DiskInterface) (m : Image) (l : Leaf) : Prop where
  pos : 0 < l.block
  lt : l.block < disk.addressable
  type : blockType (m l.block) = BlockType.btreeNode.code
  isLeaf : (BTreeNode.ofPage (m l.block)).isLeaf ≠ 0
  blockNumber : (BTreeNode.ofPage (m l.block)).blockNumber = UInt64.ofNat l.block
  onPage : Leaf.onPage m l.block = l

/-- The pages of a flat tree; the keys of the root are left open. -/
structure FlatShape (disk : DiskInterface) (m : Image) (r : ℕ) (leaves : List Leaf) : Prop where
  root_pos : 0 < r
  root_lt : r < disk.addressable
  root_type : blockType (m r) = BlockType.btreeNode.code
  root : FlatNode (BTreeNode.ofPage (m r)) r leaves
  leaf : ∀ l ∈ leaves, LeafPage disk m l

/-- The pages of a flat tree. -/
structure FlatPages (disk : DiskInterface) (m : Image) (r : ℕ) (leaves : List Leaf) : Prop
    extends FlatShape disk m r leaves where
  keys : KeysMatch (BTreeNode.ofPage (m r)) leaves
  parent : ∀ l ∈ leaves, (BTreeNode.ofPage (m l.block)).parent = UInt64.ofNat r

theorem keyOf_of_getElem? {leaves : List Leaf} {i : ℕ} {l : Leaf} (h : leaves[i]? = some l) :
    keyOf leaves i = l.key := by
  rw [keyOf, h]
  rfl

theorem blockOf_of_getElem? {leaves : List Leaf} {i : ℕ} {l : Leaf} (h : leaves[i]? = some l) :
    blockOf leaves i = UInt64.ofNat l.block := by
  rw [blockOf, h]
  rfl

theorem blockOf_of_le {leaves : List Leaf} {i : ℕ} (h : leaves.length ≤ i) :
    blockOf leaves i = 0 := by
  rw [blockOf, List.getElem?_eq_none h]
  rfl

variable {disk : DiskInterface} {m m' : Image} {r : ℕ} {leaves : List Leaf} {node : BTreeNode}
  {l : Leaf}

/-! ## Moving the words of the root -/

theorem keyAt_setWord {i j : ℕ} {v : UInt64} :
    (node.setWord j v).keyAt i = if i = j ∧ j < nodeWords then v else node.keyAt i :=
  BTreeNode.word_setWord i j v

theorem childAt_setWord {i j : ℕ} {v : UInt64} :
    (node.setWord j v).childAt i = if maxKeys + i = j ∧ j < nodeWords then v else node.childAt i :=
  BTreeNode.word_setWord (maxKeys + i) j v

theorem parent_setWord {j : ℕ} {v : UInt64} :
    (node.setWord j v).parent = if 501 = j ∧ j < nodeWords then v else node.parent :=
  BTreeNode.word_setWord 501 j v

/-- `btree_insert_nonfull` shifts the keys and the children behind the place of the new one and
stores it there. -/
theorem word_insertedRoot {root : BTreeNode} {p : ℕ} {block : UInt64} (hp : p ≤ root.numKeys.toNat)
    (hroom : root.numKeys.toNat < maxKeys) {i : ℕ} :
    (insertedRoot root p block).word i =
      if i = maxKeys + p then block
      else if maxKeys + p < i ∧ i ≤ maxKeys + root.numKeys.toNat + 1 then root.word (i - 1)
      else if p < i ∧ i ≤ root.numKeys.toNat then root.word (i - 1) else root.word i := by
  show (BTreeNode.setWord _ (maxKeys + p) block).word i = _
  simp only [maxKeys] at *
  rw [BTreeNode.word_setWord, BTreeNode.word_shiftUp _ (by simp only [nodeWords, maxKeys]; omega),
    BTreeNode.word_shiftUp _ (by simp only [nodeWords, maxKeys]; omega),
    BTreeNode.word_shiftUp _ (by simp only [nodeWords, maxKeys]; omega)]
  by_cases hchild : i = 250 + p
  · rw [if_pos ⟨hchild, by simp only [nodeWords, maxKeys]; omega⟩, if_pos hchild]
  · rw [if_neg (fun h => hchild h.1), if_neg hchild]
    by_cases hkey : p < i ∧ i ≤ root.numKeys.toNat
    · rw [if_pos (by omega), if_neg (by omega), if_neg (by omega), if_pos hkey]
    · rw [if_neg (by omega)]
      by_cases hmoved : 250 + p < i ∧ i ≤ 250 + root.numKeys.toNat + 1
      · rw [if_pos (by omega), if_pos hmoved]
      · rw [if_neg (by omega), if_neg hmoved, if_neg hkey]

theorem sameFields_insertedRoot (root : BTreeNode) (p : ℕ) (block : UInt64) :
    (insertedRoot root p block).blockNumber = root.blockNumber ∧
      (insertedRoot root p block).isLeaf = root.isLeaf := by
  have h₁ := BTreeNode.sameFields_shiftUp root (maxKeys + p) (root.numKeys.toNat + 1 - p)
  have h₂ := BTreeNode.sameFields_shiftUp (root.shiftUp (maxKeys + p) (root.numKeys.toNat + 1 - p)) p
    (root.numKeys.toNat - p)
  exact ⟨h₂.blockNumber.trans h₁.blockNumber, h₂.isLeaf.trans h₁.isLeaf⟩

theorem value_shiftUp (root : BTreeNode) (lo n : ℕ) : (root.shiftUp lo n).value = root.value := by
  induction n generalizing root with
  | zero => rfl
  | succ n ih => exact ih _

/-- What the node stands for, such as the inode of a directory, stays. -/
theorem value_insertedRoot (root : BTreeNode) (p : ℕ) (block : UInt64) :
    (insertedRoot root p block).value = root.value :=
  (value_shiftUp _ _ _).trans (value_shiftUp _ _ _)

/-- Inserting a child makes room in the list of leaves. -/
theorem FlatNode.insertedRoot (F : FlatNode node r leaves) (hroom : leaves.length < maxKeys)
    {p : ℕ} (hp : p ≤ leaves.length) (l : Leaf) :
    FlatNode (insertedRoot node p (UInt64.ofNat l.block)) r (leaves.insertIdx p l) := by
  have hlen : (leaves.insertIdx p l).length = leaves.length + 1 :=
    List.length_insertIdx_of_le_length hp l
  have hnum := F.numKeys
  have hmax : maxKeys = 250 := rfl
  have hword : ∀ i, (Nbtrfs.insertedRoot node p (UInt64.ofNat l.block)).word i = _ := fun i =>
    word_insertedRoot (by omega) (by omega)
  exact {
    blockNumber := (sameFields_insertedRoot node p _).1.trans F.blockNumber
    isLeaf := (sameFields_insertedRoot node p _).2.trans F.isLeaf
    numKeys := by
      show (node.numKeys + 1).toNat = _
      rw [hlen, UInt16.toNat_add, hnum]
      exact Nat.mod_eq_of_lt (by
        show leaves.length + 1 < 65536
        omega)
    le := by omega
    child := fun i hi => by
      have hold := F.child (i - 1) (by omega)
      have hkeep := F.child i hi
      rw [BTreeNode.childAt] at hold hkeep ⊢
      rw [hword, blockOf, List.getElem?_insertIdx]
      by_cases hip : i = p
      · rw [if_pos (by omega), if_neg (by omega), if_pos hip, if_pos (by omega)]
        rfl
      · rw [if_neg (by omega)]
        by_cases hlo : i < p
        · rw [if_neg (by omega), if_neg (by omega), if_pos hlo, hkeep, blockOf]
        · rw [if_neg hlo, if_neg hip]
          by_cases hhi : i ≤ leaves.length + 1
          · rw [if_pos (by omega), ← blockOf, ← hold]
            congr 1
            omega
          · rw [if_neg (by omega), if_neg (by omega), hkeep, blockOf_of_le (by omega), ← blockOf,
              blockOf_of_le (by omega)]
    parent := by
      rw [BTreeNode.parent, hword, if_neg (by omega), if_neg (by omega), if_neg (by omega)]
      exact F.parent
    past := fun i hlo hi => by
      rw [BTreeNode.keyAt, hword, if_neg (by omega), if_neg (by omega), if_neg (by omega)]
      exact F.past i (by omega) hi }

/-- `btree_delete` shifts the keys and the children behind the dropped one and clears the last of
both. -/
theorem word_dropChild {root : BTreeNode} {i : ℕ} (hi : i < root.numKeys.toNat)
    (hroom : root.numKeys.toNat ≤ maxKeys) {w : ℕ} :
    (dropChild root i).word w =
      if w = maxKeys + root.numKeys.toNat ∨ w = root.numKeys.toNat - 1 then 0
      else if (i ≤ w ∧ w < root.numKeys.toNat) ∨
        (maxKeys + i ≤ w ∧ w < maxKeys + root.numKeys.toNat + 1) then root.word (w + 1)
      else root.word w := by
  have hmax : maxKeys = 250 := rfl
  have hwords : nodeWords = 504 := rfl
  rw [dropChild, if_neg (by omega)]
  show (BTreeNode.setWord (BTreeNode.setWord _ _ _) _ _).word w = _
  rw [BTreeNode.word_setWord, BTreeNode.word_setWord, BTreeNode.word_shiftDown _ (by omega),
    BTreeNode.word_shiftDown _ (by omega), BTreeNode.word_shiftDown _ (by omega)]
  by_cases hzero : w = maxKeys + root.numKeys.toNat ∨ w = root.numKeys.toNat - 1
  · rw [if_pos hzero]
    split
    · rfl
    · rw [if_pos (by omega)]
  · rw [if_neg hzero, if_neg (by omega), if_neg (by omega)]
    by_cases hchild : maxKeys + i ≤ w ∧ w < maxKeys + root.numKeys.toNat + 1
    · rw [if_pos (by omega), if_neg (by omega), if_pos (Or.inr hchild)]
    · rw [if_neg (by omega)]
      by_cases hkey : i ≤ w ∧ w < root.numKeys.toNat
      · rw [if_pos (by omega), if_pos (Or.inl hkey)]
      · rw [if_neg (by omega), if_neg (by omega)]

/-- Closing the gap takes the leaf out of the list. -/
theorem FlatNode.dropChild (F : FlatNode node r leaves) {i : ℕ} (hi : i < leaves.length) :
    FlatNode (dropChild node i) r (leaves.eraseIdx i) := by
  have hlen : (leaves.eraseIdx i).length = leaves.length - 1 := List.length_eraseIdx_of_lt hi
  have hnum := F.numKeys
  have hle := F.le
  have hmax : maxKeys = 250 := rfl
  have hword : ∀ w, (Nbtrfs.dropChild node i).word w = _ := fun w =>
    word_dropChild (by omega) (by omega)
  have hfields : BTreeNode.SameFields ((node.shiftDown i (node.numKeys.toNat - i)).shiftDown
      (maxKeys + i) (node.numKeys.toNat + 1 - i)) node := by
    have h1 := BTreeNode.sameFields_shiftDown node i (node.numKeys.toNat - i)
    have h2 := BTreeNode.sameFields_shiftDown (node.shiftDown i (node.numKeys.toNat - i))
      (maxKeys + i) (node.numKeys.toNat + 1 - i)
    exact ⟨h2.blockNumber.trans h1.blockNumber, h2.isLeaf.trans h1.isLeaf,
      h2.numKeys.trans h1.numKeys⟩
  have hne : ¬node.numKeys.toNat = 0 := by omega
  exact {
    blockNumber := by
      rw [Nbtrfs.dropChild, if_neg hne]
      exact hfields.blockNumber.trans F.blockNumber
    isLeaf := by
      rw [Nbtrfs.dropChild, if_neg hne]
      exact hfields.isLeaf.trans F.isLeaf
    numKeys := by
      have hone : (1 : UInt16) ≤ node.numKeys := by
        rw [UInt16.le_iff_toNat_le, hnum]
        exact Nat.one_le_iff_ne_zero.mpr (by omega)
      rw [Nbtrfs.dropChild, if_neg hne, hlen]
      show (BTreeNode.numKeys ((node.shiftDown i (node.numKeys.toNat - i)).shiftDown (maxKeys + i)
        (node.numKeys.toNat + 1 - i)) - 1).toNat = _
      rw [hfields.numKeys, UInt16.toNat_sub_of_le _ _ hone, hnum]
      rfl
    le := by omega
    child := fun j hj => by
      rw [BTreeNode.childAt, hword, blockOf, List.getElem?_eraseIdx]
      by_cases hlast : j = node.numKeys.toNat
      · rw [if_pos (by omega), if_neg (by omega), ← blockOf, blockOf_of_le (by omega)]
      · rw [if_neg (by omega)]
        by_cases hlo : j < i
        · rw [if_neg (by omega), if_pos hlo]
          exact F.child j hj
        · rw [if_neg hlo]
          by_cases hhi : j < node.numKeys.toNat
          · rw [if_pos (by omega)]
            exact F.child (j + 1) (by omega)
          · rw [if_neg (by omega), ← blockOf, blockOf_of_le (by omega)]
            exact (F.child j hj).trans (blockOf_of_le (by omega))
    parent := by
      rw [BTreeNode.parent, hword, if_neg (by omega), if_neg (by omega)]
      exact F.parent
    past := fun j hlo hj => by
      rw [BTreeNode.keyAt, hword]
      by_cases hlast : j = node.numKeys.toNat - 1
      · rw [if_pos (by omega)]
      · rw [if_neg (by omega), if_neg (by omega)]
        exact F.past j (by omega) hj }

/-- Dropping a child drops its key from the keys. -/
theorem KeysMatch.dropChild (F : FlatNode node r leaves) (K : KeysMatch node leaves) {i : ℕ}
    (hi : i < leaves.length) : KeysMatch (Nbtrfs.dropChild node i) (leaves.eraseIdx i) := by
  have hlen : (leaves.eraseIdx i).length = leaves.length - 1 := List.length_eraseIdx_of_lt hi
  have hnum := F.numKeys
  have hle := F.le
  have hmax : maxKeys = 250 := rfl
  intro j hj
  rw [BTreeNode.keyAt, word_dropChild (by omega) (by omega), if_neg (by omega), keyOf,
    List.getElem?_eraseIdx]
  by_cases hlo : j < i
  · rw [if_neg (by omega), if_pos hlo]
    exact K j (by omega)
  · rw [if_pos (by omega), if_neg hlo]
    exact K (j + 1) (by omega)

end Nbtrfs
