import Nbtrfs.Btr.FlatTree
import Nbtrfs.Demands

/-!
# What a flat tree asks of the cache

Reference: `btr.c`.

Searching a flat tree and inserting into it obtains the pages of the tree and those of the allocator
only, all within reach.
-/

namespace Nbtrfs

open BlockProg

variable {disk : DiskInterface} {m : Image} {r f : ℕ} {leaves : List Leaf} {l : Leaf}
  {block key value : UInt64} {type : UInt32} {node : BTreeNode}

/-! ## Nodes -/

/-- A node is read from its own page. -/
theorem demands_btreeNodeRead (hb : block.toNat < disk.addressable) :
    Demands disk 0 (btreeNodeRead block) m := by
  rw [btreeNodeRead]
  exact Asks.fetch_bind hb (Asks.page_bind fun _ _ => Asks.ite (fun _ => Asks.pure) fun _ => Asks.pure)

theorem demands_btreeNodeCopy (hb : block.toNat < disk.addressable) :
    Demands disk 0 (btreeNodeCopy block) m := by
  rw [btreeNodeCopy]
  refine (demands_btreeNodeRead hb).quiet_bind fun node _ _ => ?_
  cases node with
  | none => exact Asks.crash
  | some node => exact Asks.pure

theorem demands_btreeNodeWrite (hb : node.blockNumber.toNat < disk.addressable) :
    Demands disk 1 (btreeNodeWrite node) m := by
  rw [btreeNodeWrite]
  exact Asks.fetch_bind hb (Asks.page_bind fun _ _ => Asks.ite (fun _ => Asks.pure) fun _ =>
    Asks.modify.quiet_bind fun _ _ _ => Asks.writeBack_bind Asks.pure)

theorem demands_nodeAt (block : UInt64) : Demands disk 0 (nodeAt block) m := by
  rw [nodeAt]
  exact Asks.page_bind fun _ _ => Asks.pure

theorem demands_inNode (i : ℕ) : Demands disk 0 (inNode i) m :=
  Asks.ite (fun _ => Asks.pure) fun _ => Asks.crash

theorem LeafPage.number_lt (L : LeafPage disk m l) :
    (UInt64.ofNat l.block).toNat < disk.addressable := by
  have hlt := L.lt
  have hwrap := addressable_le disk
  rwa [toNat_ofNat_block (by omega)]

theorem FlatShape.number_lt (F : FlatShape disk m r leaves) :
    (UInt64.ofNat r).toNat < disk.addressable := by
  have hlt := F.root_lt
  have hwrap := addressable_le disk
  rwa [toNat_ofNat_block (by omega)]

/-! ## The leaf that an insertion creates -/

namespace FirstFree

variable (H : FirstFree disk m f) (A : BitmapArea disk m)
  (hbitmap : blockBitmapBlocks disk.totalBlocks.toNat < disk.addressable)
include H A hbitmap

/-- A new node announces three pages: two of the allocator, and its own. -/
theorem demands_btreeNodeCreate (leaf : Bool) : Demands disk 3 (btreeNodeCreate disk leaf) m := by
  have hlt := H.lt
  have hwrap := addressable_le disk
  rw [btreeNodeCreate]
  refine (demands_allocPage hbitmap).bind_of_run (H.run_allocPage A) ?_
  refine Asks.ite (fun _ => Asks.pure) fun _ => Asks.fetch_bind ?_ ?_
  · rwa [toNat_ofNat_block (by omega)]
  · exact Asks.modify.quiet_bind fun _ _ _ => Asks.modify.quiet_bind fun _ _ _ =>
      Asks.writeBack_bind Asks.pure

/-- A new leaf is written once more. -/
theorem demands_newLeaf : Demands disk 4 (newLeaf disk key value type) m := by
  obtain ⟨m₁, hcreate, hnode₁, -, node, hpage₁⟩ := H.exists_create A true
  obtain ⟨m₂, hedit, hpage₂, htype₂, -⟩ := hnode₁.exists_edit fun node =>
    { node with key := key, value := value, type := type }
  have hnode₂ : IsNode disk.mapping m₂ f := ⟨H.addr, htype₂⟩
  have hlt := H.lt
  have hwrap := addressable_le disk
  rw [newLeaf]
  refine (H.demands_btreeNodeCreate A hbitmap true).bind_of_run hcreate ?_
  refine Asks.ite (fun _ => Asks.crash) fun _ => Asks.modify.quiet_bind_of_run hedit ?_
  refine (demands_nodeAt _).quiet_bind_of_run hnode₂.run_nodeAt ?_
  refine (demands_btreeNodeWrite ?_).bind fun _ _ _ => Asks.pure
  rw [hpage₂, hpage₁]
  show (UInt64.ofNat f).toNat < _
  rwa [toNat_ofNat_block (by omega)]

end FirstFree

/-! ## Searching -/

/-- The maximum of a leaf is its key. -/
theorem LeafPage.demands_btreeFindMaximum (L : LeafPage disk m l) :
    Demands disk 0 (btreeFindMaximum disk (UInt64.ofNat l.block)) m := by
  rw [btreeFindMaximum, callDepth, maximumFrom]
  refine (demands_btreeNodeCopy L.number_lt).quiet_bind_of_run L.isNode.run_copy ?_
  rw [if_pos L.isLeaf]
  exact Asks.pure

theorem LeafPage.demands_searchFrom (L : LeafPage disk m l) (fuel : ℕ) :
    Demands disk 0 (searchFrom (fuel + 1) (UInt64.ofNat l.block) key) m := by
  rw [searchFrom]
  refine (demands_btreeNodeCopy L.number_lt).quiet_bind_of_run L.isNode.run_copy ?_
  rw [if_pos L.isLeaf]
  exact Asks.ite (fun _ => Asks.pure) fun _ => Asks.pure

/-- The search through the children looks at the leaves one after the other. -/
theorem demands_searchChildren (hleaf : ∀ l ∈ leaves, LeafPage disk m l) (fuel : ℕ) {n j : ℕ}
    (hn : j + n ≤ maxKeys + 1) (hchild : ∀ i < j + n, node.childAt i = blockOf leaves i) :
    Demands disk 0 (searchChildren (fun child => searchFrom (fuel + 1) child key) node n j) m := by
  induction n generalizing j with
  | zero => exact Asks.pure
  | succ n ih =>
      have hin : maxKeys + j < nodeWords := by
        simp only [maxKeys, nodeWords] at *
        omega
      have hrec : Demands disk 0 (searchChildren (fun child => searchFrom (fuel + 1) child key) node n
          (j + 1)) m := ih (by omega) fun i hi => hchild i (by omega)
      rw [searchChildren]
      refine (demands_inNode _).quiet_bind_of_run (inNode_of_lt hin) ?_
      rw [hchild j (by omega)]
      cases h : leaves[j]? with
      | none =>
          rw [blockOf_of_le (by simpa using h), if_neg (not_not.mpr rfl)]
          exact hrec
      | some l =>
          have L := hleaf l (List.mem_of_getElem? h)
          rw [blockOf_of_getElem? h, if_pos L.number_ne_zero]
          refine (L.demands_searchFrom fuel).quiet_bind_of_run (L.subtree.run_searchFrom key (Nat.succ_pos _))
            (Asks.ite (fun _ => Asks.pure) fun _ => hrec)

namespace FlatShape

variable (F : FlatShape disk m r leaves)
include F

/-- A search looks at the root and at the leaves. -/
theorem demands_btreeSearch : Demands disk 0 (btreeSearch disk (UInt64.ofNat r) key) m := by
  have hle := F.root.le
  obtain ⟨n, hdepth⟩ : ∃ n, callDepth disk = n + 2 := ⟨callDepth disk - 2, by
    have := F.callDepth_pos
    omega⟩
  rw [btreeSearch, hdepth, searchFrom]
  refine (demands_btreeNodeCopy F.number_lt).quiet_bind_of_run F.isNode.run_copy ?_
  rw [if_neg (not_not.mpr F.root.isLeaf), F.root.numKeys]
  exact demands_searchChildren F.leaf n (by omega) fun i hi => F.root.child i (by omega)

/-- The depth is found at the first child. -/
theorem demands_btreeFindDepth : Demands disk 0 (btreeFindDepth disk (UInt64.ofNat r)) m := by
  obtain ⟨n, hdepth⟩ : ∃ n, callDepth disk = n + 2 := ⟨callDepth disk - 2, by
    have := F.callDepth_pos
    omega⟩
  rw [btreeFindDepth]
  refine (demands_btreeNodeCopy F.number_lt).quiet_bind_of_run F.isNode.run_copy ?_
  rw [hdepth, depthFrom, if_neg (not_not.mpr F.root.isLeaf)]
  refine Asks.ite (fun hchild => ?_) fun _ => Asks.pure
  cases h : leaves[0]? with
  | none => exact absurd (FlatShape.child_eq_zero F.root (by simpa using h) (by omega)) hchild
  | some l =>
      obtain ⟨hblock, L⟩ := F.child_of_getElem? F.root h
      rw [hblock]
      refine (demands_btreeNodeRead L.number_lt).quiet_bind_of_run
        (run_btreeNodeRead L.isNode.addr L.type) ?_
      rw [depthFrom, Option.getD_some, if_pos L.isLeaf]
      exact Asks.pure

theorem demands_btreeInsertionSearch :
    Demands disk 0 (btreeInsertionSearch disk (UInt64.ofNat r) key) m := by
  rw [btreeInsertionSearch]
  refine (demands_btreeNodeCopy F.number_lt).quiet_bind_of_run F.isNode.run_copy ?_
  refine Asks.ite (fun _ => Asks.pure) fun hchild => ?_
  refine F.demands_btreeFindDepth.quiet_bind_of_run (F.run_btreeFindDepth hchild) ?_
  rw [if_pos (by decide)]
  exact Asks.pure

end FlatShape

/-! ## Insertion -/

/-- The search for the position of a key looks at the leaves one after the other. -/
theorem demands_childPosition (hleaf : ∀ l ∈ leaves, LeafPage disk m l) {n j position : ℕ}
    (hn : j + n ≤ maxKeys + 1) (hchild : ∀ i < j + n, node.childAt i = blockOf leaves i) :
    Demands disk 0 (childPosition disk node key n j position) m := by
  induction n generalizing j position with
  | zero => exact Asks.pure
  | succ n ih =>
      have hin : maxKeys + j < nodeWords := by
        simp only [maxKeys, nodeWords] at *
        omega
      have hrec : ∀ position, Demands disk 0 (childPosition disk node key n (j + 1) position) m :=
        fun _ => ih (by omega) fun i hi => hchild i (by omega)
      rw [childPosition]
      refine (demands_inNode _).quiet_bind_of_run (inNode_of_lt hin) ?_
      rw [hchild j (by omega)]
      cases h : leaves[j]? with
      | none =>
          rw [blockOf_of_le (by simpa using h), if_neg (not_not.mpr rfl)]
          exact hrec _
      | some l =>
          have L := hleaf l (List.mem_of_getElem? h)
          rw [blockOf_of_getElem? h, if_pos L.number_ne_zero]
          refine (demands_btreeNodeCopy L.number_lt).quiet_bind_of_run L.isNode.run_copy ?_
          rw [if_pos L.isLeaf]
          exact hrec _

namespace FlatShape

variable (F : FlatShape disk m r leaves)
include F

/-- The root is changed in the copy, so nothing is announced. -/
theorem demands_btreeInsertNonfull (child : BTreeNode) (hroom : leaves.length < maxKeys) :
    Demands disk 0 (btreeInsertNonfull disk (BTreeNode.ofPage (m r)) child) m := by
  rw [btreeInsertNonfull, if_neg (not_not.mpr F.root.isLeaf), F.root.numKeys]
  refine (demands_childPosition F.leaf (by omega) fun i hi => F.root.child i (by omega)).quiet_bind
    fun _ _ _ => (demands_inNode _).quiet_bind fun _ _ _ => Asks.pure

/-- The keys are recomputed from the leaves. -/
theorem demands_refreshKeys (N : FlatNode node r leaves) : Demands disk 0 (refreshKeys disk node) m := by
  have hle := N.le
  have hmax : maxKeys = 250 := rfl
  have hwords : nodeWords = 504 := rfl
  refine Asks.forUp (fun _ parent m' => m' = m ∧ FlatNode parent r leaves) ⟨rfl, N⟩ ?_
  rintro i parent m' - hi ⟨rfl, P⟩
  rw [N.numKeys, Nat.zero_add] at hi
  obtain ⟨hchild, L⟩ := F.child_of_getElem? P (List.getElem?_eq_getElem hi)
  have hin : maxKeys + i < nodeWords := by omega
  rw [hchild, if_pos L.number_ne_zero]
  constructor
  · exact (demands_inNode _).quiet_bind_of_run (inNode_of_lt hin)
      (L.demands_btreeFindMaximum.quiet_bind fun _ _ _ => Asks.pure)
  · intro parent' m'' hrun
    rw [run_bind_of_eq (inNode_of_lt hin), run_bind_of_eq L.run_btreeFindMaximum, run_pure] at hrun
    obtain ⟨rfl, rfl⟩ := Prod.mk.inj (Option.some.inj hrun)
    exact ⟨rfl, P.setKeyAt hi _⟩

/-- The keys of the root are recomputed and it is announced. -/
theorem demands_btreeUpdateParentKeys (hparent : node.parent = UInt64.ofNat r) :
    Demands disk 1 (btreeUpdateParentKeys disk node) m := by
  obtain ⟨parent, hrefresh, N, -⟩ := F.run_refreshKeys F.root
  rw [btreeUpdateParentKeys, hparent, if_neg F.number_ne_zero]
  refine (demands_btreeNodeCopy F.number_lt).quiet_bind_of_run F.isNode.run_copy ?_
  refine (F.demands_refreshKeys F.root).quiet_bind_of_run hrefresh ?_
  refine (demands_btreeNodeWrite ?_).bind fun _ _ _ => Asks.pure
  rw [N.blockNumber]
  exact F.number_lt

/-- A leaf is entered by announcing the root. -/
theorem demands_insertInto (hroom : leaves.length < maxKeys) (L : LeafPage disk m l) :
    Demands disk 1 (insertInto disk (BTreeNode.ofPage (m r)) (UInt64.ofNat l.block)) m := by
  obtain ⟨root, hinsert, N, -⟩ := F.run_btreeInsertNonfull F.root hroom L.blockNumber L.key
  rw [insertInto]
  refine (demands_nodeAt _).quiet_bind_of_run L.isNode.run_nodeAt ?_
  refine (F.demands_btreeInsertNonfull _ hroom).quiet_bind_of_run hinsert ?_
  refine Asks.modify.quiet_bind fun _ _ _ => (demands_btreeNodeWrite ?_).bind fun _ _ _ => Asks.pure
  rw [N.blockNumber]
  exact F.number_lt

end FlatShape

/-- An insertion into a flat tree with room obtains the pages of the tree, the new leaf, and those of the
allocator, and announces six pages. -/
theorem FlatTree.demands_btreeInsert (T : FlatTree disk m r leaves) (H : FirstFree disk m f)
    (hbitmap : blockBitmapBlocks disk.totalBlocks.toNat < disk.addressable)
    (hroom : leaves.length < maxKeys) :
    Demands disk 6 (btreeInsert disk (UInt64.ofNat r) key value type) m := by
  obtain ⟨m₁, hnew, L, hother⟩ := H.exists_newLeaf T.area key value type
  have F : FlatShape disk m₁ r leaves := (T.pages_newLeaf H hother).toFlatShape
  obtain ⟨m₂, hinto, F₂, L₂, hparent, -⟩ := F.run_insertInto hroom L
  rw [btreeInsert]
  refine (H.demands_newLeaf T.area hbitmap).bind_of_run hnew ?_
  refine F.demands_btreeInsertionSearch.quiet_bind_of_run (F.run_btreeInsertionSearch key) ?_
  rw [ofInt_natCast]
  refine (demands_btreeNodeCopy F.number_lt).quiet_bind_of_run F.isNode.run_copy ?_
  rw [if_neg (by
    rw [F.root.numKeys]
    omega)]
  refine (F.demands_insertInto hroom L).bind_of_run hinto ?_
  refine (demands_nodeAt _).quiet_bind_of_run L₂.isNode.run_nodeAt ?_
  exact (F₂.demands_btreeUpdateParentKeys hparent).bind fun _ _ _ => Asks.pure

end Nbtrfs
