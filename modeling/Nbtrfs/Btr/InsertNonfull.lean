import Nbtrfs.Btr.Descent
import Nbtrfs.Btr.SplitChild

/-!
# Insertion into a node with room

Reference: `btr.c::btree_insert_nonfull`.

The position of a new leaf is found by a scan that compares its key with the maximum below every child.
It is then limited to the number of keys, which is one too few in a node that has a child more than keys,
as the splits leave them: a leaf behind all others goes in front of the last child there.
-/

namespace Nbtrfs

open BlockProg

variable {disk : DiskInterface} {m : Image} {root node : BTreeNode} {c i j n p : ℕ}
  {max : ℕ → UInt64} {key : UInt64}

/-! ## The position of a key -/

/-- The first of `c` children with a maximum that is not less than the key, `c` if there is none. -/
def firstNotLess (max : ℕ → UInt64) (key : UInt64) (c : ℕ) : ℕ :=
  (List.range c).findIdx fun i => key ≤ max i

theorem firstNotLess_le (max : ℕ → UInt64) (key : UInt64) (c : ℕ) : firstNotLess max key c ≤ c := by
  have h : (List.range c).findIdx (fun i => key ≤ max i) ≤ (List.range c).length :=
    List.findIdx_le_length
  rwa [List.length_range] at h

/-- There is no such child if all maxima are less than the key. -/
theorem firstNotLess_eq_iff : firstNotLess max key c = c ↔ ∀ i < c, max i < key := by
  have h : (List.range c).findIdx (fun i => key ≤ max i) = (List.range c).length ↔
    ∀ i ∈ List.range c, decide (key ≤ max i) = false := List.findIdx_eq_length
  rw [List.length_range] at h
  rw [firstNotLess, h]
  simp only [List.mem_range, decide_eq_false_iff_not, UInt64.not_le]

/-- With one more child the position moves only if its maximum is less than the key. -/
theorem firstNotLess_succ (hmono : ∀ i j, i ≤ j → j ≤ c → max i ≤ max j) :
    firstNotLess max key (c + 1) = if max c < key then c + 1 else firstNotLess max key c := by
  by_cases hlt : max c < key
  · rw [if_pos hlt]
    refine firstNotLess_eq_iff.mpr fun i hi => ?_
    exact UInt64.lt_of_le_of_lt (hmono i c (by omega) le_rfl) hlt
  · rw [if_neg hlt]
    have hle := UInt64.not_lt.mp hlt
    rw [firstNotLess, List.range_succ, List.findIdx_append]
    split
    · rfl
    next hnone =>
      have hall : firstNotLess max key c = c := by
        rw [List.length_range] at hnone
        exact le_antisymm (firstNotLess_le max key c) (Nat.le_of_not_lt hnone)
      rw [hall, List.findIdx_cons, decide_eq_true hle, List.length_range]
      simp

/-- A node that `btree_insert_nonfull` accepts: its `c` children stand at the first positions, one for
each key or one more, and the maxima below them do not descend. -/
structure HasOrder (disk : DiskInterface) (m : Image) (root : BTreeNode) (c : ℕ) (max : ℕ → UInt64) :
    Prop where
  isLeaf : root.isLeaf = 0
  room : root.numKeys.toNat < maxKeys
  occupied : root.Occupied c
  count : c = root.numKeys.toNat ∨ c = root.numKeys.toNat + 1
  le : c ≤ maxKeys
  maximum : ∀ i < c, ∃ h, Rightmost disk.mapping m h (root.childAt i).toNat (max i)
  mono : ∀ i j, i ≤ j → j < c → max i ≤ max j

/-! ## The scan -/

/-- One child is compared by its key if it is a leaf and by the maximum below it otherwise, which is the
same. -/
theorem Rightmost.run_childPosition {h b : ℕ} (R : Rightmost disk.mapping m h b key)
    (hb : root.childAt j = UInt64.ofNat b) (hne : root.childAt j ≠ 0) (hj : j ≤ maxKeys)
    (k : UInt64) (position : ℕ) :
    run disk.mapping (childPosition disk root k (n + 1) j position) m =
      run disk.mapping (childPosition disk root k n (j + 1) (if key < k then j + 1 else position))
        m := by
  have hmax : maxKeys = 250 := rfl
  have hwords : nodeWords = 504 := rfl
  have hcopy := R.isNode.run_copy
  rw [childPosition, run_bind_of_eq (inNode_of_lt (by omega)), if_pos hne, hb, run_bind_of_eq hcopy]
  cases R with
  | leaf hnode hblock hleaf => rw [if_pos hleaf]
  | node hnode hblock hleaf hkeys hi hchild hlast hbelow =>
      have R := Rightmost.node hnode hblock hleaf hkeys hi hchild hlast hbelow
      rw [if_neg (not_not.mpr hleaf), hblock, run_bind_of_eq R.run_btreeFindMaximum]

namespace HasOrder

/-- After `j` children the scan is at the position of the key among them. -/
theorem run_childPosition (H : HasOrder disk m root c max) (key : UInt64)
    (hn : j + n = root.numKeys.toNat + 1) :
    run disk.mapping (childPosition disk root key n j (firstNotLess max key (min j c))) m =
      some (firstNotLess max key c, m) := by
  have hcount := H.count
  have hroom := H.room
  induction n generalizing j with
  | zero => rw [childPosition, run_pure, min_eq_right (by omega)]
  | succ n ih =>
      have hrec := ih (j := j + 1) (by omega)
      by_cases hj : j < c
      · obtain ⟨h, R⟩ := H.maximum j hj
        rw [R.run_childPosition (by rw [UInt64.ofNat_toNat]) (H.occupied.ne_zero j hj) (by omega),
          min_eq_left hj.le, ← firstNotLess_succ fun i i' hle hlt => H.mono i i' hle (by omega)]
        rwa [min_eq_left (show j + 1 ≤ c from hj)] at hrec
      · have hmax : maxKeys = 250 := rfl
        have hwords : nodeWords = 504 := rfl
        rw [childPosition, run_bind_of_eq (inNode_of_lt (by omega)),
          if_neg (not_not.mpr (H.occupied.past j (by omega) (by omega))), min_eq_right (by omega)]
        rwa [min_eq_right (by omega)] at hrec

/-- The leaf goes to the position of its key, but not behind position `num_keys`. -/
theorem run_btreeInsertNonfull (H : HasOrder disk m root c max) (node : BTreeNode) :
    run disk.mapping (btreeInsertNonfull disk root node) m =
      some ((0, insertedRoot root (min (firstNotLess max node.key c) root.numKeys.toNat)
        node.blockNumber, node.setParent root.blockNumber), m) := by
  have hmax : maxKeys = 250 := rfl
  have hwords : nodeWords = 504 := rfl
  have hroom := H.room
  have hscan := H.run_childPosition node.key (n := root.numKeys.toNat + 1) (j := 0) (by omega)
  rw [Nat.zero_min, show firstNotLess max node.key 0 = 0 from rfl] at hscan
  rw [btreeInsertNonfull, if_neg (not_not.mpr H.isLeaf), run_bind_of_eq hscan,
    run_bind_of_eq (inNode_of_lt (by omega)), run_pure]

/-- The children with a new one at a position up to both counts. -/
theorem children_insertedRoot (H : HasOrder disk m root c max) {b : UInt64} (hb : b ≠ 0) (hp : p ≤ c)
    (hkeys : p ≤ root.numKeys.toNat) :
    (insertedRoot root p b).children = root.children.insertIdx p b := by
  have hmax : maxKeys = 250 := rfl
  have hcount := H.count
  have hroom := H.room
  refine (H.occupied.insert hp H.le hb fun i hi => ?_).2
  rw [BTreeNode.childAt, word_insertedRoot hkeys H.room]
  by_cases hip : i = p
  · rw [if_pos (by omega), if_neg (by omega), if_pos hip]
  · rw [if_neg (by omega), if_neg hip]
    by_cases hlt : i < p
    · rw [if_neg (by omega), if_neg (by omega), if_pos hlt, BTreeNode.childAt]
    · rw [if_neg hlt]
      by_cases hmoved : i ≤ root.numKeys.toNat + 1
      · rw [if_pos (by omega), BTreeNode.childAt]
        congr 1
        omega
      · rw [if_neg (by omega), if_neg (by omega)]
        exact (H.occupied.past i (by omega) hi).trans (H.occupied.past (i - 1) (by omega) (by omega)).symm

end HasOrder

theorem numKeys_insertedRoot {b : UInt64} (hroom : root.numKeys.toNat < maxKeys) :
    (insertedRoot root p b).numKeys.toNat = root.numKeys.toNat + 1 := by
  have hmax : maxKeys = 250 := rfl
  show (root.numKeys + 1).toNat = _
  rw [UInt16.toNat_add]
  exact Nat.mod_eq_of_lt (by
    show root.numKeys.toNat + 1 < 65536
    omega)

theorem length_children (h : root.Occupied c) : root.children.length = c := by
  rw [h.children_eq, List.length_map, List.length_range]

/-- The leaf is entered in front of the first child with a maximum that is not less than its key, or at
the end, and the other children stay. -/
def InsertsInOrder (disk : DiskInterface) (m : Image) (root node : BTreeNode) (c : ℕ)
    (max : ℕ → UInt64) : Prop :=
  ∃ root' node',
    run disk.mapping (btreeInsertNonfull disk root node) m = some ((0, root', node'), m) ∧
      root'.children = root.children.insertIdx (firstNotLess max node.key c) node.blockNumber ∧
      root'.numKeys.toNat = root.numKeys.toNat + 1 ∧ node'.parent = root.blockNumber ∧
      ∀ x ∈ root.children, x ∈ root'.children

/-- Entering a thing in front of itself or behind it is the same. -/
theorem insertIdx_length_append {α : Type} (xs : List α) (x : α) :
    (xs ++ [x]).insertIdx xs.length x = (xs ++ [x]).insertIdx (xs.length + 1) x := by
  induction xs with
  | nil => rfl
  | cons y xs ih =>
      rw [List.cons_append, List.length_cons, List.insertIdx_succ_cons, List.insertIdx_succ_cons, ih]

/-- The child at the last position is the one that the two positions differ in. -/
theorem insertIdx_children_iff (hocc : root.Occupied (n + 1)) (b : UInt64) :
    root.children.insertIdx n b = root.children.insertIdx (n + 1) b ↔ root.childAt n = b := by
  have hsplit : root.children = (List.range n).map root.childAt ++ [root.childAt n] := by
    rw [hocc.children_eq, List.range_succ, List.map_append, List.map_singleton]
  have hlen : ((List.range n).map root.childAt).length = n := by
    rw [List.length_map, List.length_range]
  rw [hsplit]
  constructor
  · intro heq
    have hat := congrArg (fun xs => xs[n + 1]?) heq
    simp only [List.getElem?_insertIdx] at hat
    rw [if_neg (by omega), if_neg (by omega), if_neg (by omega), if_pos trivial, if_pos (by simp),
      Nat.add_sub_cancel, List.getElem?_append_right (by omega), hlen, Nat.sub_self] at hat
    exact Option.some.inj hat
  · rintro rfl
    have hsame := insertIdx_length_append ((List.range n).map root.childAt) (root.childAt n)
    rwa [hlen] at hsame

/-- `btree_insert_nonfull` keeps the order of a node with room, unless the node has a child more than
keys and the leaf belongs behind all of them. -/
theorem btreeInsertNonfull_inOrder_iff (H : HasOrder disk m root c max) (hnode : node.blockNumber ≠ 0) :
    InsertsInOrder disk m root node c max ↔
      ¬(c = root.numKeys.toNat + 1 ∧ (∀ i < c, max i < node.key) ∧
        root.childAt (c - 1) ≠ node.blockNumber) := by
  have hcount := H.count
  have hpos := firstNotLess_le max node.key c
  have hrun := H.run_btreeInsertNonfull node
  have hchildren := H.children_insertedRoot hnode
    (p := min (firstNotLess max node.key c) root.numKeys.toNat) (by omega) (by omega)
  have hsame : InsertsInOrder disk m root node c max ↔
      root.children.insertIdx (min (firstNotLess max node.key c) root.numKeys.toNat) node.blockNumber =
        root.children.insertIdx (firstNotLess max node.key c) node.blockNumber := by
    constructor
    · rintro ⟨root', node', hrun', heq, -⟩
      rw [hrun, Option.some.injEq, Prod.mk.injEq, Prod.mk.injEq, Prod.mk.injEq] at hrun'
      obtain ⟨⟨-, rfl, -⟩, -⟩ := hrun'
      exact hchildren.symm.trans heq
    · intro heq
      refine ⟨_, _, hrun, hchildren.trans heq, numKeys_insertedRoot H.room,
        BTreeNode.parent_setParent, fun x hx => ?_⟩
      rw [hchildren]
      exact List.subset_insertIdx _ _ _ hx
  rw [hsame]
  by_cases hlast : c = root.numKeys.toNat + 1 ∧ ∀ i < c, max i < node.key
  · obtain ⟨hc, hall⟩ := hlast
    have hocc := H.occupied
    rw [firstNotLess_eq_iff.mpr hall, min_eq_right (by omega)]
    subst hc
    rw [insertIdx_children_iff hocc, Nat.add_sub_cancel]
    constructor
    · rintro heq ⟨-, -, hne⟩
      exact hne heq
    · intro hnot
      by_contra hne
      exact hnot ⟨rfl, hall, hne⟩
  · have hle : firstNotLess max node.key c ≤ root.numKeys.toNat := by
      by_contra hgt
      exact hlast ⟨by omega, firstNotLess_eq_iff.mp (by omega)⟩
    rw [min_eq_left hle]
    refine iff_of_true rfl fun h => hlast ⟨h.1, h.2.1⟩

/-! ## A node with a child more than keys -/

theorem occupied_innerNode {block : UInt64} {numKeys : UInt16} {children : List UInt64}
    (hlen : children.length ≤ maxKeys + 1) (hne : ∀ i < children.length, children.getD i 0 ≠ 0) :
    (innerNode block numKeys children).Occupied children.length := by
  refine ⟨hlen, fun i hi => ?_, fun i hlo hi => ?_⟩
  · rw [childAt_innerNode (by omega)]
    exact hne i hi
  · rw [childAt_innerNode hi, List.getD_eq_getElem?_getD, List.getElem?_eq_none hlo, Option.getD_none]

theorem rightmost_leafNode {nodes : List BTreeNode} {b : ℕ} {parent : UInt64}
    (hnode : (nodes.find? fun node => node.blockNumber = UInt64.ofNat b) =
      some (leafNode (UInt64.ofNat b) parent key)) (hb : b < disk.addressable) :
    Rightmost disk.mapping (putNodes m nodes) 0 b key := by
  have hpage := ofPage_putNodes (m := m) hnode
  have R := Rightmost.leaf (isNode_putNodes hnode hb) (by rw [hpage]; rfl)
    (by rw [hpage]; exact (by decide : (1 : UInt8) ≠ 0))
  rwa [hpage] at R

/-- A node with one key over two leaves. -/
theorem hasOrder_evenNodes : HasOrder ⟨64, by decide⟩ (nodeImage evenNodes) (innerNode 11 1 [13, 14]) 2
    fun i => if i = 0 then 3 else 5 := by
  have haddr : DiskInterface.addressable ⟨64, by decide⟩ = 64 := rfl
  refine ⟨rfl, by decide, occupied_innerNode (by decide) (by decide), Or.inr rfl, by decide,
    fun i hi => ?_, fun i j hle hj => ?_⟩
  · rw [childAt_innerNode (by simp only [maxKeys]; omega)]
    interval_cases i
    · exact ⟨0, rightmost_leafNode rfl (by rw [haddr]; decide)⟩
    · exact ⟨0, rightmost_leafNode rfl (by rw [haddr]; decide)⟩
  · interval_cases j <;> interval_cases i <;> decide

theorem btreeInsertNonfull_inOrder_4 : InsertsInOrder ⟨64, by decide⟩ (nodeImage evenNodes)
    (innerNode 11 1 [13, 14]) (leafNode 16 0 4) 2 fun i => if i = 0 then 3 else 5 := by
  refine (btreeInsertNonfull_inOrder_iff hasOrder_evenNodes (by decide)).mpr ?_
  rintro ⟨-, hall, -⟩
  exact absurd (hall 1 (by decide)) (by decide)

/-- A leaf with key 9 goes between the leaves with keys 3 and 5. -/
theorem not_btreeInsertNonfull_inOrder_9 : ¬∀ (disk : DiskInterface) (m : Image) (root node : BTreeNode)
    (c : ℕ) (max : ℕ → UInt64), HasOrder disk m root c max → node.isLeaf ≠ 0 → node.blockNumber ≠ 0 →
      InsertsInOrder disk m root node c max := by
  intro h
  obtain ⟨root', node', hrun, hchildren, -⟩ := h _ _ _ (leafNode 16 0 9) _ _ hasOrder_evenNodes
    (by decide) (by decide)
  have H := hasOrder_evenNodes
  have hposition : firstNotLess (fun i => if i = 0 then 3 else 5) 9 2 = 2 := by decide
  have hrun' := H.run_btreeInsertNonfull (leafNode 16 0 9)
  rw [show (leafNode 16 0 9).key = 9 from rfl, hposition] at hrun' hchildren
  rw [hrun', Option.some.injEq, Prod.mk.injEq, Prod.mk.injEq, Prod.mk.injEq] at hrun
  obtain ⟨⟨-, rfl, -⟩, -⟩ := hrun
  rw [H.children_insertedRoot (by decide) (by decide) (by decide)] at hchildren
  have hlast := (insertIdx_children_iff H.occupied _).mp hchildren
  rw [childAt_innerNode (by decide)] at hlast
  exact absurd hlast (by decide)

end Nbtrfs
