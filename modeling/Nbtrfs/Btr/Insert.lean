import Nbtrfs.Btr.Search

/-!
# Insertion into a B-tree

Reference: `btr.c`, from `btree_insert_nonfull` to `btree_insert`, and the two splits.

Functions that get a pointer to a local copy take the copy and return what became of it; writing it
to its page is left to the caller, as in the source. A node that lives on its page is edited there.
-/

namespace Nbtrfs

open BlockProg

/-! ## Insertion into a node with room -/

/-- The loop of `btree_insert_nonfull` that finds the position of a key, at index `j` with `n`
left. -/
def childPosition (disk : DiskInterface) (root : BTreeNode) (key : UInt64) :
    ℕ → ℕ → ℕ → BlockProg ℕ
  | 0, _, position => pure position
  | n + 1, j, position => do
      inNode (maxKeys + j)
      if root.childAt j ≠ 0 then
        let child ← btreeNodeCopy (root.childAt j)
        if child.isLeaf ≠ 0 then
          childPosition disk root key n (j + 1) (if child.key < key then j + 1 else position)
        else
          let maxKey ← btreeFindMaximum disk child.blockNumber
          childPosition disk root key n (j + 1) (if maxKey < key then j + 1 else position)
      else childPosition disk root key n (j + 1) position

/-- What `btree_insert_nonfull` makes of its root: children and keys move up to make room at
position `p`. -/
def insertedRoot (root : BTreeNode) (p : ℕ) (block : UInt64) : BTreeNode :=
  let moved := (root.shiftUp (maxKeys + p) (root.numKeys.toNat + 1 - p)).shiftUp p
    (root.numKeys.toNat - p)
  { moved.setChildAt p block with numKeys := root.numKeys + 1 }

/-- `btree_insert_nonfull`: the return value, the root and the node. -/
def btreeInsertNonfull (disk : DiskInterface) (root node : BTreeNode) :
    BlockProg (ℤ × BTreeNode × BTreeNode) := do
  if root.isLeaf ≠ 0 then pure (-1, root, node)
  else do
    let position ← childPosition disk root node.key (root.numKeys.toNat + 1) 0 0
    let position := min position root.numKeys.toNat
    inNode (maxKeys + root.numKeys.toNat + 1)
    pure (0, insertedRoot root position node.blockNumber, node.setParent root.blockNumber)

/-! ## Separators -/

/-- The loop of `btree_update_parent_keys`: every key becomes the maximum below its child. -/
def refreshKeys (disk : DiskInterface) (parent : BTreeNode) : BlockProg BTreeNode :=
  forUp (fun i parent => do
    inNode (maxKeys + i)
    if parent.childAt i ≠ 0 then
      let max ← btreeFindMaximum disk (parent.childAt i)
      pure (parent.setKeyAt i max)
    else pure parent) parent.numKeys.toNat 0 parent

/-- `btree_update_parent_keys` -/
def btreeUpdateParentKeys (disk : DiskInterface) (node : BTreeNode) : BlockProg Unit := do
  if node.parent = 0 then pure ()
  else do
    let parent ← btreeNodeCopy node.parent
    let parent ← refreshKeys disk parent
    let _ ← btreeNodeWrite parent
    pure ()

/-! ## Splits -/

/-- A child that was moved gets its new parent. -/
def adopt (child parent : UInt64) : BlockProg Unit := do
  if child ≠ 0 then
    let node ← btreeNodeCopy child
    let _ ← btreeNodeWrite (node.setParent parent)
    pure ()
  else pure ()

/-- `btree_split_root` on a local copy of the root. Only the two new nodes and the children are
written; what becomes of the copy is the result. -/
def btreeSplitRoot (disk : DiskInterface) (root : BTreeNode) : BlockProg BTreeNode := do
  let childA ← btreeNodeCreate disk false
  let childB ← btreeNodeCreate disk false
  if childA = 0 ∨ childB = 0 then crash
  else do
    let blockB := (← nodeAt childB).blockNumber
    editNode childA fun a => a.setRightSibling blockB
    let blockA := (← nodeAt childA).blockNumber
    editNode childB fun b => b.setLeftSibling blockA
    forUp (fun i _ => do
      editNode childA fun a => (a.setKeyAt i (root.keyAt i)).setChildAt i (root.childAt i)
      let a ← nodeAt childA
      adopt (root.childAt i) a.blockNumber
      editNode childA fun a => { a with numKeys := a.numKeys + 1 }) minKeys 0 ()
    editNode childA fun a => a.setChildAt minKeys (root.childAt minKeys)
    adopt (root.childAt minKeys) (← nodeAt childA).blockNumber
    inNode (maxKeys + root.numKeys.toNat)
    forUp (fun i _ =>
      editNode childB fun b =>
        { b.setKeyAt (i - minKeys - 1) (root.keyAt i) with numKeys := b.numKeys + 1 })
      (root.numKeys.toNat - (minKeys + 1)) (minKeys + 1) ()
    forUp (fun i _ => do
      editNode childB fun b => b.setChildAt (i - minKeys - 1) (root.childAt i)
      adopt (root.childAt i) (← nodeAt childB).blockNumber)
      (root.numKeys.toNat + 1 - (minKeys + 1)) (minKeys + 1) ()
    if root.childAt maxKeys ≠ 0 then
      editNode childB fun b => b.setChildAt b.numKeys.toNat (root.childAt maxKeys)
      adopt (root.childAt maxKeys) (← nodeAt childB).blockNumber
    let root := { root with isLeaf := 0, numKeys := 1 }
    let root := root.setChildAt 0 (← nodeAt childA).blockNumber
    let root := root.setChildAt 1 (← nodeAt childB).blockNumber
    let root := root.clearWords 1 (maxKeys - 1)
    let root := root.clearWords (maxKeys + 2) (maxKeys - 1)
    editNode childA fun a => a.setParent root.blockNumber
    editNode childB fun b => b.setParent root.blockNumber
    let max ← btreeFindMaximum disk (← nodeAt childA).blockNumber
    pure (root.setKeyAt 0 max)

/-- The position after which a sibling is listed: the first index up to `num_keys` with the child,
or the one after. -/
def childSlot (node : BTreeNode) (block : UInt64) : ℕ → ℕ → BlockProg ℕ
  | 0, i => pure i
  | n + 1, i => do
      inNode (maxKeys + i)
      if node.childAt i = block then pure i else childSlot node block n (i + 1)

/-- A node with room takes a new child behind position `index`. -/
def addSibling (node : BTreeNode) (index : ℕ) (childB : UInt64) : BlockProg BTreeNode := do
  let node := node.shiftUp (maxKeys + index + 1) (node.numKeys.toNat - index)
  inNode (maxKeys + index + 1)
  let node := node.setChildAt (index + 1) (← nodeAt childB).blockNumber
  pure { node with numKeys := node.numKeys + 1 }

/-- The first half of `btree_split_child`: the upper half of `child` moves to a new sibling. -/
def splitOff (disk : DiskInterface) (node child : BTreeNode) : BlockProg (UInt64 × BTreeNode) := do
  let childB ← btreeNodeCreate disk false
  if childB = 0 then crash
  else do
    editNode childB fun b => b.setParent node.blockNumber
    let child := child.setRightSibling (← nodeAt childB).blockNumber
    editNode childB fun b => b.setLeftSibling child.blockNumber
    inNode (maxKeys + child.numKeys.toNat)
    let child ← forUp (fun i child => do
      editNode childB fun b =>
        { b.setKeyAt (i - minKeys - 1) (child.keyAt i) with numKeys := b.numKeys + 1 }
      pure (child.setKeyAt i 0)) (child.numKeys.toNat - (minKeys + 1)) (minKeys + 1) child
    let child ← forUp (fun i child => do
      editNode childB fun b => b.setChildAt (i - minKeys - 1) (child.childAt i)
      let b ← nodeAt childB
      adopt (b.childAt (i - minKeys - 1)) b.blockNumber
      pure (child.setChildAt i 0)) (child.numKeys.toNat + 1 - (minKeys + 1)) (minKeys + 1) child
    pure (childB, { child.setKeyAt minKeys 0 with numKeys := UInt16.ofNat minKeys })

/-- `btree_split_child` on local copies of the parent and the child, with room for `fuel` nested
calls: what becomes of the two copies. -/
def splitChildFrom (disk : DiskInterface) :
    ℕ → BTreeNode → ℕ → BTreeNode → BlockProg (BTreeNode × BTreeNode)
  | 0, _, _, _ => crash
  | fuel + 1, node, index, child => do
      let (childB, child) ← splitOff disk node child
      if node.numKeys.toNat < maxKeys then do
        let node' ← addSibling node index childB
        -- the key is set from the sibling before all keys are recomputed
        let max ← btreeFindMaximum disk (← nodeAt childB).blockNumber
        let node' := node'.setKeyAt index max
        editNode childB fun b => b.setParent node.blockNumber
        let node' ← refreshKeys disk node'
        pure (node', child)
      else do
        let node ← if node.parent ≠ 0 then do
            let grandparent ← btreeNodeCopy node.parent
            let index ← childSlot grandparent node.blockNumber (grandparent.numKeys.toNat + 1) 0
            let (grandparent, node) ← splitChildFrom disk fuel grandparent index node
            let _ ← btreeNodeWrite grandparent
            pure node
          else btreeSplitRoot disk node
        let parent ← btreeNodeCopy child.parent
        let index ← childSlot parent child.blockNumber (parent.numKeys.toNat + 1) 0
        let parent ← if parent.numKeys.toNat < maxKeys then do
            let parent ← addSibling parent index childB
            refreshKeys disk parent
          else pure parent
        let _ ← btreeNodeWrite parent
        pure (node, child)

/-- `btree_split_child` -/
def btreeSplitChild (disk : DiskInterface) (node : BTreeNode) (index : ℕ) (child : BTreeNode) :
    BlockProg (BTreeNode × BTreeNode) :=
  splitChildFrom disk (callDepth disk) node index child

/-! ## Insertion -/

/-- `for (i = 0; i < MAX_KEYS && keys[i] < limit && keys[i] != 0; i++);` where `limit` is evaluated
in every round. -/
def keySlot (node : BTreeNode) (limit : BlockProg UInt64) : ℕ → ℕ → BlockProg ℕ
  | 0, i => pure i
  | n + 1, i => do
      let max ← limit
      if node.keyAt i < max ∧ node.keyAt i ≠ 0 then keySlot node limit n (i + 1) else pure i

/-- The full bottom node is split, and the descent is made again. -/
def insertSplit (disk : DiskInterface) (rootBlock key : UInt64) (target : BTreeNode) :
    BlockProg BTreeNode := do
  let target ← if target.parent ≠ 0 then do
      let parent ← btreeNodeCopy target.parent
      let i ← keySlot parent (btreeFindMaximum disk target.blockNumber) maxKeys 0
      -- the parent was changed in the copy only, and is not written
      let (_, target) ← btreeSplitChild disk parent i target
      pure target
    else btreeSplitRoot disk target
  let targetBlock ← btreeInsertionSearch disk rootBlock key
  let again ← btreeNodeRead (UInt64.ofInt targetBlock)
  pure (again.getD target)

/-- `btree_insert_nonfull` with the node on its page, and the target written. -/
def insertInto (disk : DiskInterface) (target : BTreeNode) (block : UInt64) : BlockProg Unit := do
  let (_, target, node) ← btreeInsertNonfull disk target (← nodeAt block)
  editNode block fun page => page.setParent node.parent
  let _ ← btreeNodeWrite target
  pure ()

/-- The leaf that `btree_insert` creates for the key. -/
def newLeaf (disk : DiskInterface) (key value : UInt64) (type : UInt32) : BlockProg UInt64 := do
  let block ← btreeNodeCreate disk true
  if block = 0 then crash
  else do
    editNode block fun node => { node with key := key, value := value, type := type }
    let _ ← btreeNodeWrite (← nodeAt block)
    pure block

/-- `btree_insert` -/
def btreeInsert (disk : DiskInterface) (rootBlock key value : UInt64) (type : UInt32) :
    BlockProg ℤ := do
  let block ← newLeaf disk key value type
  let targetBlock ← btreeInsertionSearch disk rootBlock key
  let target ← btreeNodeCopy (UInt64.ofInt targetBlock)
  if target.numKeys.toNat = maxKeys then
    if target.keyAt (maxKeys - 1) < key ∧ target.childAt maxKeys = 0 then
      -- the leaf is entered in the copy only, which is not written
      editNode block fun node => node.setParent target.blockNumber
    else do
      let target ← insertSplit disk rootBlock key target
      insertInto disk target block
  else insertInto disk target block
  btreeUpdateParentKeys disk (← nodeAt block)
  pure 0

end Nbtrfs
