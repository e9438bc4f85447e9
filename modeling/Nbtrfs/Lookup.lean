import Nbtrfs.Directory
import Nbtrfs.Btr.FlatTree
import Nbtrfs.Format

/-!
# Lookups in flat trees

Reference: `hash.c::item_search`.

The one step of `item_search` that can succeed, in a root directory with a flat B-tree, and the tree of
the root directory on a formatted volume, which is flat.
-/

namespace Nbtrfs

open BlockProg Bytes

variable {disk : DiskInterface} {m m' : Image} {r f : ℕ} {leaves : List Leaf} {l : Leaf}
  {node : BTreeNode} {c : CString} {cs : List CString} {n : ℕ}

/-! ## What a lookup finds -/

/-- The functions that take a path work on the directory. -/
def LeadsTo (disk : DiskInterface) (m : Image) (path : CString) (pair : InodeBtreePair) : Prop :=
  run disk.mapping (itemSearch disk path) m = some (pair, m) ∧ (pair.inodeNumber ≠ 0 ∨ path = [slash])

/-- `item_search` does not find the path, and it is not that of the root directory, so that these
functions return at once. -/
def Misses (disk : DiskInterface) (m : Image) (path : CString) : Prop :=
  run disk.mapping (itemSearch disk path) m = some (⟨0, 0⟩, m) ∧ path ≠ [slash]

theorem LeafPage.run_btreeNodeRead (L : LeafPage disk m l) :
    run disk.mapping (btreeNodeRead (UInt64.ofNat l.block)) m =
      some (some (BTreeNode.ofPage (m l.block)), m) :=
  Nbtrfs.run_btreeNodeRead L.isNode.addr L.type

/-- A component that names a file. -/
theorem run_searchPath_file (F : FlatShape disk m r leaves) (hc : IsComponent c)
    (hshort : (joined [c]).length < pathMax) (hblock : node.blockNumber = UInt64.ofNat r)
    (hl : l ∈ leaves) (hfound : Leaf.found leaves (pathHash c) = UInt64.ofNat l.block)
    (htype : l.type ≠ fileTypeDirectory) (currPath : CString) :
    run disk.mapping (searchPath disk (joined [c]) (n + 1) 1 node currPath) m =
      some (⟨l.value, 0⟩, m) := by
  have L := F.leaf l hl
  have hvalue : (BTreeNode.ofPage (m l.block)).value = l.value := congrArg Leaf.value L.onPage
  have hnode : (BTreeNode.ofPage (m l.block)).type ≠ fileTypeDirectory := by
    rwa [show (BTreeNode.ofPage (m l.block)).type = l.type from congrArg Leaf.type L.onPage]
  have hsplit : split (joined [c]) 1 = some c :=
    split_joined (fun d hd => (List.mem_singleton.mp hd) ▸ hc) 0
  rw [searchPath, hsplit]
  simp only [hblock]
  rw [run_bind_of_eq (F.run_btreeSearch _), hfound, if_neg L.number_ne_zero,
    run_bind_of_eq L.run_btreeNodeRead, Option.getD_some, enterNode, if_neg hnode,
    run_bind_of_eq (run_pure _), printCurrPath_component hshort]
  simp only
  rw [if_pos trivial, run_pure, BTreeNode.pair, if_neg hnode, hvalue]

/-- `item_search` of a path with components goes on from the root that the superblock names. -/
theorem run_itemSearch_joined {sbRoot : UInt64} {b : ℕ} (L : Layout disk.mapping disk m)
    (hroot : (Superblock.ofPage (m 0)).btreeRoot = sbRoot)
    (haddr : disk.mapping.addr sbRoot = some b) (htype : blockType (m b) = BlockType.btreeNode.code)
    (h : ∀ c ∈ cs, IsComponent c) (hne : cs ≠ []) :
    run disk.mapping (itemSearch disk (joined cs)) m =
      run disk.mapping (searchPath disk (joined cs) cs.length 1 (BTreeNode.ofPage (m b)) []) m := by
  have hpath : joined cs ≠ [slash] := by
    intro heq
    cases cs with
    | nil => exact hne rfl
    | cons c cs =>
        rw [joined_cons, List.cons_append, List.cons.injEq] at heq
        exact (h c List.mem_cons_self).1 (List.append_eq_nil_iff.mp heq.2).1
  rw [itemSearch, run_bind_of_eq L.run_superblockCopy, hroot,
    run_bind_of_eq (run_btreeNodeCopy haddr htype), if_neg hpath, countL_joined h]

/-! ## The blocks of a lookup -/

/-- Blocks that a lookup does not leave: the superblock, the root that it names, the children of the
nodes among them, and the trees of directories. The nodes carry their own numbers. -/
structure LookupClosed (M : Mapping) (K : ℕ → Prop) (m : Image) : Prop where
  super : ∀ b, M.addr 0 = some b → K b
  root : ∀ b c, M.addr 0 = some b → M.addr (Superblock.ofPage (m b)).btreeRoot = some c → K c
  number : ∀ b, K b → blockType (m b) = BlockType.btreeNode.code →
    M.addr (BTreeNode.ofPage (m b)).blockNumber = some b
  child : ∀ b c, K b → blockType (m b) = BlockType.btreeNode.code →
    (BTreeNode.ofPage (m b)).isLeaf = 0 → ∀ i ≤ (BTreeNode.ofPage (m b)).numKeys.toNat,
    (BTreeNode.ofPage (m b)).childAt i ≠ 0 →
    M.addr ((BTreeNode.ofPage (m b)).childAt i) = some c → K c
  value : ∀ b c, K b → blockType (m b) = BlockType.btreeNode.code →
    (BTreeNode.ofPage (m b)).isLeaf ≠ 0 → (BTreeNode.ofPage (m b)).type = fileTypeDirectory →
    M.addr (BTreeNode.ofPage (m b)).value = some c → K c

/-- A node that lies in one of the blocks. -/
def NodeIn (K : ℕ → Prop) (m : Image) (node : BTreeNode) : Prop :=
  ∃ b, K b ∧ blockType (m b) = BlockType.btreeNode.code ∧ BTreeNode.ofPage (m b) = node

section Looks

variable {M : Mapping} {K : ℕ → Prop} {p : UInt64}

theorem looks_btreeNodeRead (h : ∀ b, M.addr p = some b → K b) :
    Looks M K m (fun read => ∀ node ∈ read, NodeIn K m node) (btreeNodeRead p) := by
  refine Looks.fetch_bind (Looks.page_bind fun b haddr => ⟨h b haddr, ?_⟩)
  refine Looks.ite (fun _ => Looks.pure fun node hnode => ?_) fun htype =>
    Looks.pure fun node hnode => ?_
  · cases hnode
  · exact ⟨b, h b haddr, not_not.mp htype, Option.some.inj hnode⟩

theorem looks_btreeNodeCopy (h : ∀ b, M.addr p = some b → K b) :
    Looks M K m (NodeIn K m) (btreeNodeCopy p) := by
  refine (looks_btreeNodeRead h).bind fun read hread => ?_
  cases read with
  | none => exact Looks.crash
  | some node => exact Looks.pure (hread node rfl)

/-- What `btree_search` returns is 0 or the number of a leaf in the blocks. -/
def FoundIn (K : ℕ → Prop) (m : Image) (rv : UInt64) : Prop :=
  rv ≠ 0 → ∃ node, NodeIn K m node ∧ node.isLeaf ≠ 0 ∧ rv = node.blockNumber

/-- The search through the children of a node stays on pages of `K` if the search below each of them
does. -/
theorem looks_searchChildren {search : UInt64 → BlockProg UInt64} {node : BTreeNode}
    (hsearch : ∀ i ≤ node.numKeys.toNat, node.childAt i ≠ 0 →
      Looks M K m (FoundIn K m) (search (node.childAt i))) {n i : ℕ}
    (hi : i + n = node.numKeys.toNat + 1) :
    Looks M K m (FoundIn K m) (searchChildren search node n i) := by
  induction n generalizing i with
  | zero => exact Looks.pure fun h => absurd rfl h
  | succ n ih =>
      rw [searchChildren]
      have hrest := ih (i := i + 1) (by omega)
      refine Looks.bind (Q := fun _ => True) (Looks.ite (fun _ => Looks.pure trivial) fun _ =>
        Looks.crash) fun _ _ => Looks.ite (fun hchild => ?_) fun _ => hrest
      refine (hsearch i (by omega) hchild).bind fun rv hrv => ?_
      exact Looks.ite (fun _ => Looks.pure hrv) fun _ => hrest

namespace LookupClosed

variable (C : LookupClosed M K m)
include C

theorem number_mem {node : BTreeNode} (h : NodeIn K m node) :
    ∀ b, M.addr node.blockNumber = some b → K b := by
  obtain ⟨b, hb, htype, rfl⟩ := h
  intro c haddr
  rw [C.number b hb htype] at haddr
  rwa [← Option.some.inj haddr]

/-- A node is read through its own number. -/
theorem looks_ownNode {node : BTreeNode} (h : NodeIn K m node) :
    Looks M K m (fun read => read = some node) (btreeNodeRead node.blockNumber) := by
  refine Looks.fetch_bind (Looks.page_bind fun c haddr => ⟨C.number_mem h c haddr, ?_⟩)
  obtain ⟨b, hb, htype, rfl⟩ := h
  rw [C.number b hb htype] at haddr
  obtain rfl := Option.some.inj haddr
  exact Looks.ite (fun hother => absurd htype hother) fun _ => Looks.pure rfl

/-- The search for a key stays on pages of `K`: those that the nodes on the way name. -/
theorem looks_searchFrom {fuel : ℕ} {block : UInt64} (hblock : ∀ b, M.addr block = some b → K b)
    (key : UInt64) : Looks M K m (FoundIn K m) (searchFrom fuel block key) := by
  induction fuel generalizing block with
  | zero => exact Looks.crash
  | succ fuel ih =>
      rw [searchFrom]
      refine (looks_btreeNodeCopy hblock).bind fun node hnode => ?_
      refine Looks.ite (fun hleaf => ?_) fun hinner => ?_
      · exact Looks.ite (fun _ => Looks.pure fun _ => ⟨node, hnode, hleaf, rfl⟩) fun _ =>
          Looks.pure fun h => absurd rfl h
      · obtain ⟨b, hb, htype, rfl⟩ := hnode
        refine looks_searchChildren (fun i hi hchild => ih ?_) (by omega)
        exact fun c => C.child b c hb htype (not_not.mp hinner) i hi hchild

theorem looks_enterNode {node : BTreeNode} (hnode : NodeIn K m node) (hleaf : node.isLeaf ≠ 0) :
    Looks M K m (fun entered => ∀ next ∈ entered, NodeIn K m next) (enterNode node) := by
  refine Looks.ite (fun hdir => looks_btreeNodeRead ?_) fun _ => Looks.pure fun next hnext => ?_
  · obtain ⟨b, hb, htype, rfl⟩ := hnode
    exact fun c => C.value b c hb htype hleaf hdir
  · rwa [← Option.some.inj hnext]

/-- The lookup of a path stays on pages of `K` and reads only. -/
theorem looks_searchPath (path : CString) {n i : ℕ} {node : BTreeNode} (hnode : NodeIn K m node)
    (currPath : CString) :
    Looks M K m (fun _ => True) (searchPath disk path n i node currPath) := by
  induction n generalizing i node currPath with
  | zero => exact Looks.pure trivial
  | succ n ih =>
      rw [searchPath]
      cases split path i with
      | none => exact Looks.crash
      | some token =>
          refine (C.looks_searchFrom (C.number_mem hnode) _).bind fun nodeBlock hfound => ?_
          refine Looks.ite (fun _ => Looks.pure trivial) fun hne => ?_
          obtain ⟨found, hin, hleaf, rfl⟩ := hfound hne
          refine (C.looks_ownNode hin).bind fun leaf hsame => ?_
          obtain rfl : leaf = some found := hsame
          refine (C.looks_enterNode hin hleaf).bind fun entered hentered => ?_
          cases entered with
          | none => exact Looks.pure trivial
          | some next =>
              exact Looks.ite (fun _ => Looks.pure trivial) fun _ => ih (hentered next rfl) _

/-- `item_search` stays in the blocks. -/
theorem within_itemSearch (path : CString) : Within M K (itemSearch disk path) m := by
  have hcopy : Looks M K m (fun sb => ∀ c, M.addr sb.btreeRoot = some c → K c) superblockCopy := by
    refine Looks.bind (Q := fun read => ∀ sb ∈ read, ∀ c, M.addr sb.btreeRoot = some c → K c)
      (Looks.fetch_bind (Looks.page_bind fun b haddr => ⟨C.super b haddr, ?_⟩)) fun read hread => ?_
    · refine Looks.ite (fun _ => Looks.pure fun sb hsb => ?_) fun _ => Looks.pure fun sb hsb => ?_
      · cases hsb
      · rw [← Option.some.inj hsb]
        exact fun c => C.root b c haddr
    · cases read with
      | none => exact Looks.crash
      | some sb => exact Looks.pure (hread sb rfl)
  have hsearch : Looks M K m (fun _ => True) (itemSearch disk path) := by
    refine hcopy.bind fun sb hroot => (looks_btreeNodeCopy hroot).bind fun node hnode => ?_
    exact Looks.ite (fun _ => Looks.pure trivial) fun _ => C.looks_searchPath path hnode []
  exact hsearch.1

end LookupClosed

end Looks

/-- A lookup in a flat root directory without directories reads the superblock and the nodes of the
tree. -/
theorem FlatShape.lookupClosed (F : FlatShape disk m r leaves) (L : Layout disk.mapping disk m)
    (hroot : (Superblock.ofPage (m 0)).btreeRoot = UInt64.ofNat r)
    (hfiles : ∀ l ∈ leaves, l.type ≠ fileTypeDirectory) :
    LookupClosed disk.mapping (fun b => b = 0 ∨ b = r ∨ ∃ l ∈ leaves, b = l.block) m := by
  have hzero : ∀ b, disk.mapping.addr 0 = some b → b = 0 := fun b haddr => by
    rw [L.addr_zero] at haddr
    exact (Option.some.inj haddr).symm
  have hsuper : blockType (m 0) ≠ BlockType.btreeNode.code := by
    rw [L.super]
    decide
  refine ⟨fun b haddr => Or.inl (hzero b haddr), fun b c haddr hc => ?_, fun b hb htype => ?_,
    fun b c hb htype hinner i hi hchild hc => ?_, fun b c hb htype hleaf hdir hc => ?_⟩
  · obtain rfl := hzero b haddr
    rw [hroot, F.isNode.addr] at hc
    exact Or.inr (Or.inl (Option.some.inj hc).symm)
  · rcases hb with rfl | rfl | ⟨l, hl, rfl⟩
    · exact absurd htype hsuper
    · rw [F.root.blockNumber]
      exact F.isNode.addr
    · rw [(F.leaf l hl).blockNumber]
      exact (F.leaf l hl).isNode.addr
  · rcases hb with rfl | rfl | ⟨l, hl, rfl⟩
    · exact absurd htype hsuper
    · have hle := F.root.le
      rw [F.root.numKeys] at hi
      rw [F.root.child i (by omega)] at hchild hc
      cases hget : leaves[i]? with
      | none =>
          rw [blockOf, hget] at hchild
          exact absurd rfl hchild
      | some l =>
          have hl := List.mem_of_getElem? hget
          rw [blockOf_of_getElem? hget, (F.leaf l hl).isNode.addr] at hc
          exact Or.inr (Or.inr ⟨l, hl, (Option.some.inj hc).symm⟩)
    · exact absurd hinner (F.leaf l hl).isLeaf
  · rcases hb with rfl | rfl | ⟨l, hl, rfl⟩
    · exact absurd htype hsuper
    · exact absurd F.root.isLeaf hleaf
    · have hsame : (BTreeNode.ofPage (m l.block)).type = l.type :=
        congrArg Leaf.type (F.leaf l hl).onPage
      exact absurd (hsame ▸ hdir) (hfiles l hl)

/-! ## The root directory of a fresh volume -/

/-- The blocks behind the root node have no part in it. -/
theorem Fresh.congr {uid gid : UInt32} (F : Fresh disk uid gid m)
    (h : ∀ b ≤ dataStart disk.totalBlocks.toNat, m' b = m b) : Fresh disk uid gid m' := by
  have hstart : inodeBitmapStart disk.totalBlocks.toNat =
    1 + blockBitmapBlocks disk.totalBlocks.toNat := rfl
  have htable : inodeTableStart disk.totalBlocks.toNat =
    inodeBitmapStart disk.totalBlocks.toNat + inodeBitmapBlocks disk.totalBlocks.toNat := rfl
  have hdata := inodeTableStart_le disk.totalBlocks.toNat
  have h0 := h 0 (Nat.zero_le _)
  have hroot := h _ le_rfl
  have hinode : inodeAt disk m' 0 = inodeAt disk m 0 := by
    rw [inodeAt, inodeAt, h _ (by rw [slotBlock, Nat.zero_div]; omega)]
  exact {
    layout := F.layout.congr (by rw [h0]) (by rw [h0]) fun b hb => by rw [h b hb.le]
    freeBlocks := by rw [h0, F.freeBlocks]
    btreeRoot := by rw [h0, F.btreeRoot]
    blockBit := fun b hb => by
      rw [← F.blockBit b hb]
      exact areaBit_congr (h _ (by omega))
    inodeBit := fun n hn => by
      rw [← F.inodeBit n hn]
      exact areaBit_congr (h _ (by omega))
    rootType := by rw [hroot, F.rootType]
    rootNode := by rw [hroot, F.rootNode, BTreeNode.init_init]
    rootInode := by rw [hinode, ← F.rootInode]
    fits := F.fits }

/-- The tree of the root directory is empty. -/
theorem Fresh.rootTree {uid gid : UInt32} (F : Fresh disk uid gid m) :
    FlatTree disk m (dataStart disk.totalBlocks.toNat) [] := by
  have A := F.bitmapArea
  have hfits := F.fits
  have hstart : inodeBitmapStart disk.totalBlocks.toNat =
    1 + blockBitmapBlocks disk.totalBlocks.toNat := rfl
  have htable := inodeBitmapStart_le disk.totalBlocks.toNat
  have hdata := inodeTableStart_le disk.totalBlocks.toNat
  have hnode := F.rootNode
  exact {
    root_pos := dataStart_pos _
    root_lt := F.fits
    root_type := F.rootType
    root := {
      blockNumber := by rw [hnode]; rfl
      isLeaf := by rw [hnode]; rfl
      numKeys := by rw [hnode]; rfl
      le := Nat.zero_le _
      child := fun i _ => by rw [hnode, BTreeNode.childAt, BTreeNode.word_init]; rfl
      parent := by rw [hnode, BTreeNode.parent, BTreeNode.word_init]
      past := fun i _ _ => by rw [hnode, BTreeNode.keyAt, BTreeNode.word_init] }
    leaf := fun l hl => absurd hl List.not_mem_nil
    keys := fun i hi => absurd hi (Nat.not_lt_zero i)
    parent := fun l hl => absurd hl List.not_mem_nil
    area := A
    root_used := ⟨by omega, by
      rw [F.blockBit_lt (hfits.trans_le (min_le_left _ _))]
      exact decide_eq_true (Nat.lt_succ_self _)⟩
    leaf_used := fun l hl => absurd hl List.not_mem_nil
    distinct := List.nodup_nil
    sorted := List.Pairwise.nil }

end Nbtrfs
