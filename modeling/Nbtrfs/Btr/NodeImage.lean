import Nbtrfs.Btr.Tree
import Nbtrfs.FileMap

/-!
# Images that hold given nodes

`putNodes m nodes` stores every node of a list on the block it names. Trees of any shape can be written
down this way; the results on trees are run on them.
-/

namespace Nbtrfs

open BlockProg

/-- An inner node with its number of keys and its first children; the keys themselves are zero. -/
def innerNode (block : UInt64) (numKeys : UInt16) (children : List UInt64) : BTreeNode where
  blockNumber := block
  isLeaf := 0
  type := 0
  key := 0
  value := 0
  numKeys := numKeys
  words := Vector.ofFn fun i : Fin nodeWords =>
    if i.val < maxKeys then 0 else children.getD (i.val - maxKeys) 0

/-- A leaf with its key. -/
def leafNode (block parent key : UInt64) : BTreeNode where
  blockNumber := block
  isLeaf := 1
  type := 0
  key := key
  value := 0
  numKeys := 0
  words := Vector.ofFn fun i : Fin nodeWords => if i.val = 501 then parent else 0

/-- The image with every node on its block. -/
def putNodes (m : Image) (nodes : List BTreeNode) : Image := fun b =>
  match nodes.find? fun node => node.blockNumber = UInt64.ofNat b with
  | some node => node.toPage (setBlockType BlockType.btreeNode (m b))
  | none => m b

/-- The nodes on a device of zeros. -/
abbrev nodeImage (nodes : List BTreeNode) : Image := putNodes (fun _ _ => 0) nodes

variable {disk : DiskInterface} {m : Image} {nodes : List BTreeNode} {node : BTreeNode} {b i : ℕ}

theorem childAt_innerNode {block : UInt64} {numKeys : UInt16} {children : List UInt64}
    (hi : i ≤ maxKeys) : (innerNode block numKeys children).childAt i = children.getD i 0 := by
  have hmax : maxKeys = 250 := rfl
  have hwords : nodeWords = 504 := rfl
  rw [BTreeNode.childAt, BTreeNode.word, innerNode, Vector.toArray_ofFn, Array.getD_eq_getD_getElem?,
    Array.getElem?_ofFn, dif_pos (by omega), Option.getD_some, if_neg (by simp),
    Nat.add_sub_cancel_left]

theorem keyAt_innerNode {block : UInt64} {numKeys : UInt16} {children : List UInt64}
    (hi : i < maxKeys) : (innerNode block numKeys children).keyAt i = 0 := by
  have hmax : maxKeys = 250 := rfl
  have hwords : nodeWords = 504 := rfl
  rw [BTreeNode.keyAt, BTreeNode.word, innerNode, Vector.toArray_ofFn, Array.getD_eq_getD_getElem?,
    Array.getElem?_ofFn, dif_pos (by omega), Option.getD_some, if_pos hi]

/-- The parent follows the children. -/
theorem parent_innerNode {block : UInt64} {numKeys : UInt16} {children : List UInt64}
    (hlen : children.length ≤ maxKeys + 1) : (innerNode block numKeys children).parent = 0 := by
  have hwords : nodeWords = 504 := rfl
  rw [BTreeNode.parent, BTreeNode.word, innerNode, Vector.toArray_ofFn,
    Array.getD_eq_getD_getElem?, Array.getElem?_ofFn, dif_pos (by decide), Option.getD_some,
    if_neg (by decide), List.getD_eq_getElem?_getD, List.getElem?_eq_none (hlen.trans (by decide))]
  rfl

theorem parent_leafNode {block parent key : UInt64} : (leafNode block parent key).parent = parent := by
  have hwords : nodeWords = 504 := rfl
  rw [BTreeNode.parent, BTreeNode.word, leafNode]
  simp [Array.getD, hwords]

theorem ofPage_putNodes (h : (nodes.find? fun node => node.blockNumber = UInt64.ofNat b) = some node) :
    BTreeNode.ofPage (putNodes m nodes b) = node := by
  simp only [putNodes, h, BTreeNode.ofPage_toPage]

/-- The other blocks are as they were. -/
theorem putNodes_of_ne (h : ∀ node ∈ nodes, node.blockNumber ≠ UInt64.ofNat b) :
    putNodes m nodes b = m b := by
  have hnone : (nodes.find? fun node => node.blockNumber = UInt64.ofNat b) = none :=
    List.find?_eq_none.mpr fun node hnode => by simpa using h node hnode
  simp only [putNodes, hnone]

theorem isNode_putNodes
    (h : (nodes.find? fun node => node.blockNumber = UInt64.ofNat b) = some node)
    (hb : b < disk.addressable) : IsNode disk.mapping (putNodes m nodes) b where
  addr := DiskInterface.mapping_exactTo.ofNat hb ((addressable_le disk).trans (by decide))
  type := by simp only [putNodes, h, BTreeNode.blockType_toPage, blockType_setBlockType]

/-- A leaf node that was put on the image is a subtree with one leaf. -/
theorem subtree_leafNode {h : ℕ} {parent key : UInt64}
    (hnode : (nodes.find? fun node => node.blockNumber = UInt64.ofNat b) =
      some (leafNode (UInt64.ofNat b) parent key))
    (hpos : 0 < b) (hb : b < disk.addressable) :
    Subtree disk.mapping (putNodes m nodes) h b [⟨b, key, 0, 0⟩] := by
  have hwrap := addressable_le disk
  have hpage := ofPage_putNodes (m := m) hnode
  have T := Subtree.leaf (h := h) (isNode_putNodes hnode hb) (ofNat_block_ne_zero hpos (by omega))
    (by rw [hpage]; exact (by decide : (1 : UInt8) ≠ 0)) (by rw [hpage]; rfl)
  rwa [Leaf.onPage, hpage] at T

/-- A node that was put on the image, over the subtrees of its children, is a subtree with their
leaves. -/
theorem subtree_innerNode {h : ℕ} {block : UInt64} {numKeys : UInt16} {children : List UInt64}
    (below : ℕ → List Leaf)
    (hnode : (nodes.find? fun node => node.blockNumber = UInt64.ofNat b) =
      some (innerNode block numKeys children))
    (hb : b < disk.addressable) (hkeys : numKeys.toNat ≤ maxKeys)
    (hnone : ∀ i ≤ numKeys.toNat, children.getD i 0 = 0 → below i = [])
    (hbelow : ∀ i ≤ numKeys.toNat, children.getD i 0 ≠ 0 →
      Subtree disk.mapping (putNodes m nodes) h (children.getD i 0).toNat (below i))
    {leaves : List Leaf} (hleaves : (List.range' 0 (numKeys.toNat + 1)).flatMap below = leaves) :
    Subtree disk.mapping (putNodes m nodes) (h + 1) b leaves := by
  have hpage := ofPage_putNodes (m := m) hnode
  have hnum : (BTreeNode.ofPage (putNodes m nodes b)).numKeys = numKeys := by
    rw [hpage]
    rfl
  have hchild (i : ℕ) (hi : i ≤ numKeys.toNat) :
      (BTreeNode.ofPage (putNodes m nodes b)).childAt i = children.getD i 0 := by
    rw [hpage, childAt_innerNode (by omega)]
  have T := Subtree.node (h := h) below (isNode_putNodes hnode hb) (by rw [hpage]; rfl)
    (by rwa [hnum]) (fun i hi hzero => by
      rw [hnum] at hi
      rw [hchild i hi] at hzero
      exact hnone i hi hzero)
    fun i hi hne => by
      rw [hnum] at hi
      rw [hchild i hi] at hne ⊢
      exact hbelow i hi hne
  rwa [hnum, hleaves] at T

end Nbtrfs
