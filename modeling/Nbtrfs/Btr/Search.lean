import Nbtrfs.Btr.Node

/-!
# Searching a B-tree

Reference: the search functions of `btr.c`.

A local `BTreeNode` is a value here; a first `btree_node_read` into it is `btreeNodeCopy`, a later
one keeps the old value when it fails. The recursions carry the number of calls the stack still
holds, `callDepth` at the start: no path without a repeated node is longer than the device, and on a
repeated node the C code recurses for ever.
-/

namespace Nbtrfs

open BlockProg

/-- How deep calls nest before the stack overflows. -/
def callDepth (disk : DiskInterface) : ℕ := disk.totalBlocks.toNat + 1

/-- Word `i` of the arrays is accessed; past the last word lies other memory. -/
def inNode (i : ℕ) : BlockProg Unit := if i < nodeWords then pure () else crash

/-- The loop of `btree_search` over the children from `i` on, `n` of them. -/
def searchChildren (search : UInt64 → BlockProg UInt64) (node : BTreeNode) :
    ℕ → ℕ → BlockProg UInt64
  | 0, _ => pure 0
  | n + 1, i => do
      inNode (maxKeys + i)
      if node.childAt i ≠ 0 then
        let rv ← search (node.childAt i)
        if rv ≠ 0 then pure rv else searchChildren search node n (i + 1)
      else searchChildren search node n (i + 1)

/-- `btree_search` with room for `fuel` nested calls. -/
def searchFrom : ℕ → UInt64 → UInt64 → BlockProg UInt64
  | 0, _, _ => crash
  | fuel + 1, nodeBlock, key => do
      let node ← btreeNodeCopy nodeBlock
      if node.isLeaf ≠ 0 then
        if node.key = key then pure node.blockNumber else pure 0
      else
        searchChildren (fun child => searchFrom fuel child key) node (node.numKeys.toNat + 1) 0

/-- `btree_search`: the block of a leaf with the key, `0` if there is none. -/
def btreeSearch (disk : DiskInterface) (nodeBlock key : UInt64) : BlockProg UInt64 :=
  searchFrom (callDepth disk) nodeBlock key

/-- The loop of `btree_find_depth`; one that does not end is a crash. -/
def depthFrom : ℕ → BTreeNode → ℤ → BlockProg ℤ
  | 0, _, _ => crash
  | fuel + 1, node, depth =>
      if node.isLeaf ≠ 0 then pure depth
      else if node.childAt 0 ≠ 0 then do
        let child ← btreeNodeRead (node.childAt 0)
        depthFrom fuel (child.getD node) (depth + 1)
      else pure (-1)

/-- `btree_find_depth` -/
def btreeFindDepth (disk : DiskInterface) (nodeBlock : UInt64) : BlockProg ℤ := do
  let node ← btreeNodeCopy nodeBlock
  depthFrom (callDepth disk) node 0

/-- The loop of `btree_find_maximum` over the children below `n`, the last one first. -/
def maximumChild (findMaximum : UInt64 → BlockProg UInt64) (root : BTreeNode) :
    ℕ → BlockProg UInt64
  | 0 => pure 0
  | i + 1 => do
      inNode (maxKeys + i)
      if root.childAt i ≠ 0 then findMaximum (root.childAt i)
      else maximumChild findMaximum root i

/-- `btree_find_maximum` with room for `fuel` nested calls. -/
def maximumFrom : ℕ → UInt64 → BlockProg UInt64
  | 0, _ => crash
  | fuel + 1, rootBlock => do
      let root ← btreeNodeCopy rootBlock
      if root.isLeaf ≠ 0 then pure root.key
      else maximumChild (maximumFrom fuel) root (root.numKeys.toNat + 1)

/-- `btree_find_maximum` -/
def btreeFindMaximum (disk : DiskInterface) (rootBlock : UInt64) : BlockProg UInt64 :=
  maximumFrom (callDepth disk) rootBlock

/-! ## The descent to the node above the leaves -/

/-- The loop of `btree_insertion_search` that picks a child of `node`, at index `i` with `n` left. -/
def childIndex (disk : DiskInterface) (node : BTreeNode) (key : UInt64) : ℕ → ℕ → ℕ → BlockProg ℕ
  | 0, _, index => pure index
  | n + 1, i, index => do
      inNode (maxKeys + i)
      if node.childAt i ≠ 0 then
        let childMax ← btreeFindMaximum disk (node.childAt i)
        if key ≤ childMax then pure i
        else childIndex disk node key n (i + 1) (i + 1)
      else childIndex disk node key n (i + 1) index

/-- The last child among the first `n`, where the picked one is missing. -/
def lastChild (node : BTreeNode) : ℕ → BlockProg UInt64
  | 0 => pure 0
  | i + 1 => do
      inNode (maxKeys + i)
      if node.childAt i ≠ 0 then pure (node.childAt i) else lastChild node i

/-- The loop of `btree_insertion_search`; the result is an `int`. -/
def descend (disk : DiskInterface) (rootBlock key : UInt64) : ℕ → BTreeNode → ℤ → BlockProg ℤ
  | 0, _, _ => crash
  | fuel + 1, node, currentDepth => do
      let depth ← btreeFindDepth disk rootBlock
      if currentDepth < depth - 1 then
        let index ← childIndex disk node key node.numKeys.toNat 0 0
        let index := min index node.numKeys.toNat
        inNode (maxKeys + index)
        let next ← if node.childAt index ≠ 0 then pure (node.childAt index)
          else lastChild node (node.numKeys.toNat + 1)
        if next ≠ 0 then
          let child ← btreeNodeRead next
          descend disk rootBlock key fuel (child.getD node) (currentDepth + 1)
        else pure (int32 node.blockNumber.toNat)
      else pure (int32 node.blockNumber.toNat)

/-- `btree_insertion_search` -/
def btreeInsertionSearch (disk : DiskInterface) (rootBlock key : UInt64) : BlockProg ℤ := do
  let root ← btreeNodeCopy rootBlock
  if root.childAt 0 = 0 then pure (int32 root.blockNumber.toNat)
  else do
    let depth ← btreeFindDepth disk rootBlock
    if depth - 1 ≤ 0 then pure (int32 root.blockNumber.toNat)
    else descend disk rootBlock key (callDepth disk) root 0

end Nbtrfs
