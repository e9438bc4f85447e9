import Nbtrfs.Btr.Insert

/-!
# Deletion from a B-tree

Reference: `btr.c`, `btree_borrow_left` to `btree_delete`, `btree_promote_root` and
`btree_merge_children`.
-/

namespace Nbtrfs

open BlockProg

/-! ## Borrowing -/

/-- The loop of `btree_borrow_left`: the last child among the first `n` is taken out of the
sibling. -/
def takeLastChild (sibling : BTreeNode) : ℕ → BlockProg (ℤ × BTreeNode)
  | 0 => pure (-1, sibling)
  | i + 1 => do
      inNode (maxKeys + i)
      if sibling.childAt i ≠ 0 then
        let taken := if i < sibling.numKeys.toNat then sibling.setKeyAt i 0 else sibling
        pure (int32 (taken.childAt i).toNat,
          { taken.setChildAt i 0 with numKeys := sibling.numKeys - 1 })
      else takeLastChild sibling i

/-- `btree_borrow_left`: the block of the borrowed child as an `int`, or `-1`. -/
def btreeBorrowLeft (node : BTreeNode) : BlockProg ℤ := do
  if node.leftSibling = 0 then pure (-1)
  else do
    let sibling ← btreeNodeCopy node.leftSibling
    if sibling.numKeys.toNat = minKeys then pure (-1)
    else do
      let (rv, sibling) ← takeLastChild sibling (sibling.numKeys.toNat + 1)
      let _ ← btreeNodeWrite sibling
      pure rv

/-- `btree_borrow_right` -/
def btreeBorrowRight (node : BTreeNode) : BlockProg ℤ := do
  if node.rightSibling = 0 then pure (-1)
  else do
    let sibling ← btreeNodeCopy node.rightSibling
    if sibling.numKeys.toNat = minKeys then pure (-1)
    else do
      let rv := int32 (sibling.childAt 0).toNat
      -- both loops read one element past their array
      let sibling := sibling.shiftDown 0 maxKeys
      let sibling := sibling.shiftDown maxKeys (maxKeys + 1)
      let sibling := (sibling.setKeyAt (maxKeys - 1) 0).setChildAt maxKeys 0
      let _ ← btreeNodeWrite { sibling with numKeys := sibling.numKeys - 1 }
      pure rv

/-- Borrow from the left, else from the right. -/
def btreeBorrow (node : BTreeNode) : BlockProg ℤ := do
  let rv ← btreeBorrowLeft node
  if rv = -1 then btreeBorrowRight node else pure rv

/-! ## Merging -/

/-- `btree_promote_root` on a local copy of the root: its only child takes its place. -/
def btreePromoteRoot (root : BTreeNode) : BlockProg BTreeNode := do
  let child ← btreeNodeCopy (root.childAt 0)
  let block := UInt64.ofInt (int32 root.blockNumber.toNat)
  let root := { child with blockNumber := block }.setParent 0
  btreeNodeFree child.blockNumber
  let _ ← forUp (fun i old => do
    inNode (maxKeys + i)
    if root.childAt i ≠ 0 then
      -- the variable still holds the promoted child in the first round, and is wiped after it
      match (← btreeNodeRead (root.childAt i)).or old with
      | none => crash
      | some node => do
          let _ ← btreeNodeWrite (node.setParent root.blockNumber)
          pure none
    else pure old) (root.numKeys.toNat + 1) 0 (some child)
  pure root

/-- What `btree_merge_children` copies from `b` to `a`: the second loop stores the children of `b`
among the keys of `a`. -/
def mergedChild (a b : BTreeNode) : BTreeNode :=
  let a := a.setRightSibling b.rightSibling
  let a := (List.range (maxKeys - (minKeys + 1))).foldl (fun a i =>
    { a.setKeyAt (minKeys + 1 + i) (b.keyAt i) with numKeys := a.numKeys + 1 }) a
  (List.range (maxKeys + 1 - (minKeys + 1))).foldl (fun a i =>
    a.setKeyAt (minKeys + 1 + i) (b.childAt i)) a

/-- `btree_merge_children` on a local copy of the parent, with room for `fuel` nested calls. -/
def mergeChildrenFrom (disk : DiskInterface) : ℕ → BTreeNode → ℕ → BlockProg BTreeNode
  | 0, _, _ => crash
  | fuel + 1, parent, index =>
      if index = maxKeys then mergeChildrenFrom disk fuel parent (index - 1)
      else if parent.childAt index = 0 ∨ parent.childAt (index + 1) = 0 then pure parent
      else do
        let childA ← btreeNodeCopy (parent.childAt index)
        let childB ← btreeNodeCopy (parent.childAt (index + 1))
        let _ ← btreeNodeWrite (mergedChild childA childB)
        let parent := parent.shiftDown (index + 1) (maxKeys - 1 - (index + 1))
        let parent := parent.setKeyAt (maxKeys - 1) 0
        let parent := parent.shiftDown (maxKeys + index + 1) (maxKeys - (index + 1))
        btreeNodeFree childB.blockNumber
        let parent := { parent with numKeys := parent.numKeys - 1 }
        if parent.numKeys.toNat < minKeys then
          if parent.parent = 0 then
            if parent.childAt 1 = 0 then btreePromoteRoot parent else pure parent
          else do
            let rv ← btreeBorrow parent
            if rv = -1 then
              let grandparent ← btreeNodeCopy parent.parent
              let j ← keySlot grandparent (btreeFindMaximum disk parent.blockNumber) maxKeys 0
              let grandparent ← mergeChildrenFrom disk fuel grandparent j
              let _ ← btreeNodeWrite grandparent
              pure parent
            else pure parent
        else pure parent

/-- `btree_merge_children` -/
def btreeMergeChildren (disk : DiskInterface) (parent : BTreeNode) (index : ℕ) :
    BlockProg BTreeNode :=
  mergeChildrenFrom disk (callDepth disk) parent index

/-! ## Deletion -/

/-- The two loops of `btree_remove_key` that close the gap at index `i`, and the cleared ends. With
no keys left `keys[num_keys - 1]` is `num_keys` itself and its padding, which are zero already. -/
def dropChild (root : BTreeNode) (i : ℕ) : BTreeNode :=
  let n := root.numKeys.toNat
  let root := root.shiftDown i (n - i)
  let root := root.shiftDown (maxKeys + i) (n + 1 - i)
  let root := if n = 0 then root else root.setKeyAt (n - 1) 0
  { root.setChildAt n 0 with numKeys := root.numKeys - 1 }

/-- A node with too few keys borrows a child, or is merged into its sibling: the block of the
borrowed child, or `-1`. -/
def refill (disk : DiskInterface) (root : BTreeNode) (key : UInt64) : BlockProg ℤ := do
  if root.numKeys.toNat = minKeys ∧ root.parent ≠ 0 then
    let rv ← btreeBorrow root
    if rv = -1 then
      let grandparent ← btreeNodeCopy root.parent
      let j ← keySlot grandparent (pure key) maxKeys 0
      let grandparent ← btreeMergeChildren disk grandparent j
      let _ ← btreeNodeWrite grandparent
      pure rv
    else pure rv
  else pure (-1)

/-- A node that lost its last key but still has a child gets a key again. -/
def restoreKey (disk : DiskInterface) (rootBlock : UInt64) (root : BTreeNode) :
    BlockProg BTreeNode :=
  if root.numKeys = 0 ∧ root.childAt 0 ≠ 0 then do
    let max ← btreeFindMaximum disk rootBlock
    pure { root.setKeyAt 0 max with numKeys := root.numKeys + 1 }
  else pure root

/-- The borrowed child, if there is one, is entered in the node. -/
def enterBorrowed (disk : DiskInterface) (root : BTreeNode) (rv : ℤ) : BlockProg BTreeNode :=
  if rv ≠ -1 then do
    let borrowed ← btreeNodeCopy (UInt64.ofInt rv)
    let (_, root, _) ← btreeInsertNonfull disk root borrowed
    pure root
  else pure root

/-- `btree_remove_key` -/
def btreeRemoveKey (disk : DiskInterface) (rootBlock key : UInt64) : BlockProg Unit := do
  let root ← btreeNodeCopy rootBlock
  let i ← keySlot root (pure key) maxKeys 0
  let node ← btreeNodeCopy (root.childAt i)
  let rv ← refill disk root key
  let i ← keySlot root (pure key) maxKeys 0
  inNode (maxKeys + root.numKeys.toNat + 1)
  let root := dropChild root i
  let _ ← btreeNodeWrite root
  let root ← restoreKey disk rootBlock root
  let root ← enterBorrowed disk root rv
  btreeUpdateParentKeys disk node
  let _ ← btreeNodeWrite root
  pure ()

/-- `btree_delete`: the block of the deleted leaf, `0` if there is none. -/
def btreeDelete (disk : DiskInterface) (rootBlock key : UInt64) : BlockProg UInt64 := do
  let rv ← btreeSearch disk rootBlock key
  if rv ≠ 0 then
    btreeRemoveKey disk rootBlock key
    btreeNodeFree rv
    pure rv
  else pure rv

end Nbtrfs
