import Nbtrfs.Btr.Cascade
import Nbtrfs.InodeTable
import Nbtrfs.Lib.Guarantee

/-!
# What the B-tree functions leave alone

Reference: `btr.c`.

A page is edited through a node pointer only after `btree_node_create` made it a node, and
`btree_node_write` looks at the type of the page first. So whatever the nodes say, an insertion changes
nodes, the pages that it takes, and the bookkeeping of the allocator: every other page that is taken
stays as it is.
-/

namespace Nbtrfs

open BlockProg

variable {disk : DiskInterface} {m m' : Image} {p key value : UInt64} {type : UInt32} {b f : ℕ}
  {node root child parent : BTreeNode} {leaf : Bool}

/-- A volume that is laid out, with its metadata marked as taken, on which no two blocks share an
address. -/
structure Sound (disk : DiskInterface) (m : Image) : Prop where
  layout : Layout disk.mapping disk m
  metadata : ∀ b < dataStart disk.totalBlocks.toNat, blockBit m b = true
  near : disk.totalBlocks.toNat ≤ 1048576

/-- From `m` to `m'` nodes stay nodes and taken blocks stay taken, and taken blocks behind the bitmaps
that are no nodes keep their pages. -/
structure NodesOnly (disk : DiskInterface) (m m' : Image) : Prop where
  node : ∀ b, blockType (m b) = BlockType.btreeNode.code → blockType (m' b) = BlockType.btreeNode.code
  taken : ∀ b < disk.totalBlocks.toNat, blockBit m b = true → blockBit m' b = true
  page : ∀ b, inodeTableStart disk.totalBlocks.toNat ≤ b → b < disk.totalBlocks.toNat →
    blockBit m b = true → blockType (m b) ≠ BlockType.btreeNode.code → m' b = m b

theorem NodesOnly.refl (m : Image) : NodesOnly disk m m :=
  ⟨fun _ h => h, fun _ _ h => h, fun _ _ _ _ _ => rfl⟩

theorem NodesOnly.trans {m'' : Image} (h : NodesOnly disk m m') (h' : NodesOnly disk m' m'') :
    NodesOnly disk m m'' where
  node b hb := h'.node b (h.node b hb)
  taken b hb hset := h'.taken b hb (h.taken b hb hset)
  page b hlo hhi hset htype := by
    have hsame := h.page b hlo hhi hset htype
    rw [h'.page b hlo hhi (h.taken b hhi hset) (by rwa [hsame]), hsame]

/-- What the B-tree functions may change. -/
def nodesOnly (disk : DiskInterface) : Change where
  inv := Sound disk
  rel := NodesOnly disk
  refl := NodesOnly.refl
  trans := NodesOnly.trans

/-- Block number `p` leads to the page of a node. -/
def AtNode (disk : DiskInterface) (m : Image) (p : UInt64) : Prop :=
  ∃ b, disk.mapping.addr p = some b ∧ blockType (m b) = BlockType.btreeNode.code

theorem AtNode.keep (h : AtNode disk m p) (hrel : (nodesOnly disk).rel m m') : AtNode disk m' p := by
  obtain ⟨b, haddr, htype⟩ := h
  exact ⟨b, haddr, NodesOnly.node hrel b htype⟩

/-- The program leaves everything but nodes alone. -/
abbrev KeepsRest (disk : DiskInterface) {α : Type} (p : BlockProg α) (m : Image)
    (Q : α → Image → Prop) : Prop :=
  Guarantees disk.mapping (nodesOnly disk) p m Q

/-! ## Primitive writes -/

/-- The page of a node may become that of another node. -/
theorem Sound.update_node (S : Sound disk m) {pg : Bytes}
    (htype : blockType (m b) = BlockType.btreeNode.code)
    (hpage : blockType pg = BlockType.btreeNode.code) :
    Sound disk (Function.update m b pg) ∧ NodesOnly disk m (Function.update m b pg) := by
  have hkeep : ∀ c, blockType (m c) ≠ BlockType.btreeNode.code →
      Function.update m b pg c = m c := by
    intro c hc
    apply Function.update_of_ne
    rintro rfl
    exact hc htype
  have hother : ∀ t : BlockType, t ≠ .btreeNode → t.code ≠ BlockType.btreeNode.code :=
    fun t ht h => ht (BlockType.code_injective h)
  have hbitmap : ∀ c ≤ blockBitmapBlocks disk.totalBlocks.toNat,
      Function.update m b pg c = m c := by
    intro c hc
    apply hkeep
    rcases Nat.eq_zero_or_pos c with rfl | hpos
    · rw [S.layout.super]
      exact hother _ (by decide)
    · have hstart := inodeBitmapStart_le disk.totalBlocks.toNat
      rw [inodeBitmapStart] at hstart
      rw [S.layout.bitmap c hpos (by omega)]
      exact hother _ (by decide)
  have hbit : ∀ c < disk.totalBlocks.toNat, blockBit (Function.update m b pg) c = blockBit m c :=
    fun c hc => BitmapArea.bit_congr hbitmap hc
  refine ⟨⟨S.layout.congr ?_ ?_ fun c _ => ?_, fun c hc => ?_, S.near⟩, fun c hc => ?_,
    fun c hc hset => ?_, fun c _ _ _ hc => hkeep c hc⟩
  · rw [hbitmap 0 (Nat.zero_le _)]
  · rw [hbitmap 0 (Nat.zero_le _)]
  · by_cases hcb : c = b
    · rw [hcb, Function.update_self, hpage, htype]
    · rw [Function.update_of_ne hcb]
  · have htotal := S.layout.le_total
    rw [hbit c (by omega), S.metadata c hc]
  · by_cases hcb : c = b
    · rw [hcb, Function.update_self, hpage]
    · rw [Function.update_of_ne hcb, hc]
  · rw [hbit c hc, hset]

theorem keepsRest_editNode (g : BTreeNode → BTreeNode) (h : AtNode disk m p) :
    KeepsRest disk (editNode p g) m fun _ _ => True := by
  intro S
  obtain ⟨b, haddr, htype⟩ := h
  refine ensures_of_run (run_editNode g haddr) ?_
  have hpage : blockType ((g (BTreeNode.ofPage (m b))).toPage (m b)) = BlockType.btreeNode.code := by
    rw [BTreeNode.blockType_toPage, htype]
  obtain ⟨S', hrel⟩ := Sound.update_node S htype hpage
  exact ⟨S', hrel, trivial⟩

/-- `btree_node_write` changes node pages only: it checks the type of the page before it writes. -/
theorem keepsRest_btreeNodeWrite (node : BTreeNode) :
    KeepsRest disk (btreeNodeWrite node) m fun _ _ => True := by
  refine Guarantees.fetch_bind (Guarantees.page_bind fun b haddr => ?_)
  refine Guarantees.ite (fun _ => Guarantees.pure trivial) fun htype => ?_
  have htype := not_not.mp htype
  have hwrite : KeepsRest disk (modify node.blockNumber node.toPage) m fun _ _ => True := by
    intro S
    refine ensures_of_run (run_modify _ haddr) ?_
    have hpage : blockType (node.toPage (m b)) = BlockType.btreeNode.code := by
      rw [BTreeNode.blockType_toPage, htype]
    obtain ⟨S', hrel⟩ := Sound.update_node S htype hpage
    exact ⟨S', hrel, trivial⟩
  exact hwrite.bind fun _ _ _ _ => Guarantees.writeBack_bind (Guarantees.pure trivial)

/-- Taking a block keeps the bookkeeping in order and touches no page behind the bitmaps. -/
theorem Sound.takeBlock (S : Sound disk m) (hf : f < disk.totalBlocks.toNat) :
    Sound disk (takeBlock m f) ∧ NodesOnly disk m (takeBlock m f) := by
  have hbit : ∀ c, blockBit m c = true → blockBit (Nbtrfs.takeBlock m f) c = true := by
    intro c hset
    rw [blockBit_takeBlock, hset, ite_self]
  have hstart := inodeBitmapStart_le disk.totalBlocks.toNat
  rw [inodeBitmapStart] at hstart
  refine ⟨⟨S.layout.takeBlock f, fun c hc => hbit c (S.metadata c hc), S.near⟩, fun c hc => ?_,
    fun c _ => hbit c, fun c hc _ _ _ => takeBlock_of_behind hf (by omega)⟩
  rw [blockType_takeBlock, hc]

/-- A free page may become a node. -/
theorem Sound.update_free (S : Sound disk m) {pg : Bytes} (hb : b < disk.totalBlocks.toNat)
    (hclear : blockBit m b = false) (hpage : blockType pg = BlockType.btreeNode.code) :
    Sound disk (Function.update (Nbtrfs.takeBlock m b) b pg) ∧
      NodesOnly disk m (Function.update (Nbtrfs.takeBlock m b) b pg) := by
  obtain ⟨S', hrel⟩ := S.takeBlock hb
  have hbehind : dataStart disk.totalBlocks.toNat ≤ b := by
    by_contra hlt
    rw [S.metadata b (by omega)] at hclear
    cases hclear
  have htable := inodeTableStart_le disk.totalBlocks.toNat
  have hpos := inodeTableStart_pos disk.totalBlocks.toNat
  have hlow : ∀ c < dataStart disk.totalBlocks.toNat,
      Function.update (Nbtrfs.takeBlock m b) b pg c = Nbtrfs.takeBlock m b c :=
    fun c hc => Function.update_of_ne (by omega) _ _
  have hstart := inodeBitmapStart_le disk.totalBlocks.toNat
  rw [inodeBitmapStart] at hstart
  have htotal := S.layout.le_total
  have hbit : ∀ c < disk.totalBlocks.toNat,
      blockBit (Function.update (Nbtrfs.takeBlock m b) b pg) c =
        blockBit (Nbtrfs.takeBlock m b) c :=
    fun c hc => BitmapArea.bit_congr (fun c hc => hlow c (by omega)) hc
  refine ⟨⟨S'.layout.congr ?_ ?_ fun c hc => ?_, fun c hc => ?_, S.near⟩, fun c hc => ?_,
    fun c hc hset => ?_, fun c hlo hhi hset hc => ?_⟩
  · rw [hlow 0 (by omega)]
  · rw [hlow 0 (by omega)]
  · rw [hlow c hc]
  · rw [hbit c (by omega), S'.metadata c hc]
  · by_cases hcb : c = b
    · rw [hcb, Function.update_self, hpage]
    · rw [Function.update_of_ne hcb, hrel.node c hc]
  · rw [hbit c hc, hrel.taken c hc hset]
  · have hcb : c ≠ b := by
      rintro rfl
      rw [hset] at hclear
      cases hclear
    rw [Function.update_of_ne hcb, hrel.page c hlo hhi hset hc]

/-- The page behind the number of a block is that block. -/
theorem Sound.addr_eq (S : Sound disk m) (hf : f < disk.totalBlocks.toNat)
    (haddr : disk.mapping.addr (UInt64.ofNat f) = some b) : b = f := by
  have hnear := S.near
  have hnat : (UInt64.ofNat f).toNat = f := toNat_ofNat_block (by omega)
  have hb := DiskInterface.eq_of_diskGetBlock haddr (by omega)
  rwa [hnat] at hb

/-- A new node lies on a page that was free. -/
theorem keepsRest_btreeNodeCreate (leaf : Bool) :
    KeepsRest disk (btreeNodeCreate disk leaf) m fun p m' => p ≠ 0 → AtNode disk m' p := by
  intro S
  rcases allocPage_cases S.layout.bitmapTo with ⟨f, hf, hclear, hmin, hrun⟩ | ⟨-, hrun⟩
  · by_cases hzero : UInt64.ofNat f = 0
    · refine ensures_bind (ensures_of_run hrun ?_)
      obtain ⟨S', hrel⟩ := S.takeBlock hf
      rw [if_pos hzero]
      exact ensures_pure ⟨S', hrel, fun hne => absurd rfl hne⟩
    · cases haddr : disk.mapping.addr (UInt64.ofNat f) with
      | none =>
          refine ensures_bind (ensures_of_run hrun ?_)
          rw [if_neg hzero]
          refine ensures_fetch_bind (ensures_bind (ensures_modify fun b hb => ?_))
          rw [haddr] at hb
          cases hb
      | some b =>
          obtain rfl := S.addr_eq hf haddr
          refine ensures_of_run (run_btreeNodeCreate leaf hrun hzero haddr) ?_
          have hpage := BTreeNode.blockType_createdPage (UInt64.ofNat b) leaf
            (Nbtrfs.takeBlock m b b)
          obtain ⟨S', hrel⟩ := S.update_free hf hclear hpage
          refine ⟨S', hrel, fun _ => ⟨b, haddr, ?_⟩⟩
          rw [Function.update_self, hpage]
  · refine ensures_bind (ensures_of_run hrun ?_)
    rw [if_pos rfl]
    exact ensures_pure ⟨S, NodesOnly.refl m, fun hne => absurd rfl hne⟩

/-! ## Functions that only read -/

/-- The program changes nothing. -/
abbrev ReadsOnly (disk : DiskInterface) {α : Type} (q : BlockProg α) (m : Image) : Prop :=
  KeepsRest disk q m fun _ m' => m' = m

theorem readsOnly_btreeNodeRead (p : UInt64) : ReadsOnly disk (btreeNodeRead p) m := by
  refine Guarantees.fetch_bind (Guarantees.page_bind fun b _ => ?_)
  exact Guarantees.ite (fun _ => Guarantees.pure rfl) fun _ => Guarantees.pure rfl

/-- What comes after reading starts from the same image. -/
theorem ReadsOnly.bind {α β : Type} {q : BlockProg α} {g : α → BlockProg β} {Q : β → Image → Prop}
    (hq : ReadsOnly disk q m) (hg : ∀ a, KeepsRest disk (g a) m Q) :
    KeepsRest disk (q >>= g) m Q := by
  refine Guarantees.bind hq fun a m' _ hsame => ?_
  rw [hsame]
  exact hg a

theorem readsOnly_btreeNodeCopy (p : UInt64) : ReadsOnly disk (btreeNodeCopy p) m := by
  refine (readsOnly_btreeNodeRead p).bind fun read => ?_
  cases read with
  | none => exact Guarantees.crash
  | some node => exact Guarantees.pure rfl

theorem readsOnly_nodeAt (p : UInt64) : ReadsOnly disk (nodeAt p) m :=
  Guarantees.page_bind fun _ _ => Guarantees.pure rfl

theorem readsOnly_inNode (i : ℕ) : ReadsOnly disk (inNode i) m :=
  Guarantees.ite (fun _ => Guarantees.pure rfl) fun _ => Guarantees.crash

theorem readsOnly_maximumChild {findMaximum : UInt64 → BlockProg UInt64}
    (hfind : ∀ c, ReadsOnly disk (findMaximum c) m) (root : BTreeNode) (n : ℕ) :
    ReadsOnly disk (maximumChild findMaximum root n) m := by
  induction n with
  | zero => exact Guarantees.pure rfl
  | succ n ih =>
      rw [maximumChild]
      exact (readsOnly_inNode _).bind fun _ => Guarantees.ite (fun _ => hfind _) fun _ => ih

theorem readsOnly_maximumFrom (fuel : ℕ) (p : UInt64) : ReadsOnly disk (maximumFrom fuel p) m := by
  induction fuel generalizing p with
  | zero => exact Guarantees.crash
  | succ fuel ih =>
      rw [maximumFrom]
      refine (readsOnly_btreeNodeCopy p).bind fun root => ?_
      exact Guarantees.ite (fun _ => Guarantees.pure rfl) fun _ => readsOnly_maximumChild ih _ _

theorem readsOnly_btreeFindMaximum (p : UInt64) : ReadsOnly disk (btreeFindMaximum disk p) m :=
  readsOnly_maximumFrom _ p

theorem readsOnly_depthFrom (fuel : ℕ) (node : BTreeNode) (depth : ℤ) :
    ReadsOnly disk (depthFrom fuel node depth) m := by
  induction fuel generalizing node depth with
  | zero => exact Guarantees.crash
  | succ fuel ih =>
      rw [depthFrom]
      refine Guarantees.ite (fun _ => Guarantees.pure rfl) fun _ => Guarantees.ite (fun _ => ?_)
        fun _ => Guarantees.pure rfl
      exact (readsOnly_btreeNodeRead _).bind fun child => ih _ _

theorem readsOnly_btreeFindDepth (p : UInt64) : ReadsOnly disk (btreeFindDepth disk p) m :=
  (readsOnly_btreeNodeCopy p).bind fun node => readsOnly_depthFrom _ node 0

theorem readsOnly_childIndex (node : BTreeNode) (key : UInt64) (n i index : ℕ) :
    ReadsOnly disk (childIndex disk node key n i index) m := by
  induction n generalizing i index with
  | zero => exact Guarantees.pure rfl
  | succ n ih =>
      rw [childIndex]
      refine (readsOnly_inNode _).bind fun _ => Guarantees.ite (fun _ => ?_) fun _ => ih _ _
      refine (readsOnly_btreeFindMaximum _).bind fun max => ?_
      exact Guarantees.ite (fun _ => Guarantees.pure rfl) fun _ => ih _ _

theorem readsOnly_lastChild (node : BTreeNode) (n : ℕ) : ReadsOnly disk (lastChild node n) m := by
  induction n with
  | zero => exact Guarantees.pure rfl
  | succ n ih =>
      rw [lastChild]
      refine (readsOnly_inNode _).bind fun _ => ?_
      exact Guarantees.ite (fun _ => Guarantees.pure rfl) fun _ => ih

/-- The descent to the node that takes a new child reads only. -/
theorem readsOnly_descend (p key : UInt64) (fuel : ℕ) (node : BTreeNode) (depth : ℤ) :
    ReadsOnly disk (descend disk p key fuel node depth) m := by
  induction fuel generalizing node depth with
  | zero => exact Guarantees.crash
  | succ fuel ih =>
      rw [descend]
      refine (readsOnly_btreeFindDepth p).bind fun d => Guarantees.ite (fun _ => ?_)
        fun _ => Guarantees.pure rfl
      have hnext : ∀ next, ReadsOnly disk (if next ≠ 0 then do
            let child ← btreeNodeRead next
            descend disk p key fuel (child.getD node) (depth + 1)
          else pure (int32 node.blockNumber.toNat)) m := fun next =>
        Guarantees.ite (fun _ => (readsOnly_btreeNodeRead next).bind fun child => ih _ _)
          fun _ => Guarantees.pure rfl
      refine (readsOnly_childIndex node key _ _ _).bind fun index =>
        (readsOnly_inNode _).bind fun _ => Guarantees.ite (fun _ => hnext _) fun _ => ?_
      exact (readsOnly_lastChild node _).bind hnext

theorem readsOnly_btreeInsertionSearch (p key : UInt64) :
    ReadsOnly disk (btreeInsertionSearch disk p key) m := by
  refine (readsOnly_btreeNodeCopy p).bind fun root => Guarantees.ite (fun _ => Guarantees.pure rfl)
    fun _ => (readsOnly_btreeFindDepth p).bind fun depth => ?_
  exact Guarantees.ite (fun _ => Guarantees.pure rfl) fun _ => readsOnly_descend p key _ _ _

theorem readsOnly_childPosition (root : BTreeNode) (key : UInt64) (n j position : ℕ) :
    ReadsOnly disk (childPosition disk root key n j position) m := by
  induction n generalizing j position with
  | zero => exact Guarantees.pure rfl
  | succ n ih =>
      rw [childPosition]
      refine (readsOnly_inNode _).bind fun _ => Guarantees.ite (fun _ => ?_) fun _ => ih _ _
      refine (readsOnly_btreeNodeCopy _).bind fun child => Guarantees.ite (fun _ => ih _ _)
        fun _ => (readsOnly_btreeFindMaximum _).bind fun max => ih _ _

theorem readsOnly_btreeInsertNonfull (root node : BTreeNode) :
    ReadsOnly disk (btreeInsertNonfull disk root node) m := by
  refine Guarantees.ite (fun _ => Guarantees.pure rfl) fun _ => ?_
  refine (readsOnly_childPosition root node.key _ _ _).bind fun position => ?_
  exact (readsOnly_inNode _).bind fun _ => Guarantees.pure rfl

theorem readsOnly_forUp {σ : Type} {body : ℕ → σ → BlockProg σ} {n start : ℕ} {s : σ}
    (h : ∀ i s, ReadsOnly disk (body i s) m) : ReadsOnly disk (forUp body n start s) m := by
  refine Guarantees.forUp (fun _ m' => m' = m) rfl fun i s m' hsame => ?_
  rw [hsame]
  exact h i s

theorem readsOnly_refreshKeys (parent : BTreeNode) : ReadsOnly disk (refreshKeys disk parent) m := by
  refine readsOnly_forUp fun i parent => (readsOnly_inNode _).bind fun _ => ?_
  refine Guarantees.ite (fun _ => ?_) fun _ => Guarantees.pure rfl
  exact (readsOnly_btreeFindMaximum _).bind fun max => Guarantees.pure rfl

theorem readsOnly_childSlot (node : BTreeNode) (p : UInt64) (n i : ℕ) :
    ReadsOnly disk (childSlot node p n i) m := by
  induction n generalizing i with
  | zero => exact Guarantees.pure rfl
  | succ n ih =>
      rw [childSlot]
      refine (readsOnly_inNode _).bind fun _ => ?_
      exact Guarantees.ite (fun _ => Guarantees.pure rfl) fun _ => ih _

theorem readsOnly_keySlot {limit : BlockProg UInt64} (h : ReadsOnly disk limit m) (node : BTreeNode)
    (n i : ℕ) : ReadsOnly disk (keySlot node limit n i) m := by
  induction n generalizing i with
  | zero => exact Guarantees.pure rfl
  | succ n ih =>
      rw [keySlot]
      exact h.bind fun max => Guarantees.ite (fun _ => ih _) fun _ => Guarantees.pure rfl

/-! ## Splits -/

/-- The program leaves everything but nodes alone, and what nodes it has in hand stay nodes. -/
theorem keepsRest_bind {α β : Type} {q : BlockProg α} {g : α → BlockProg β} {Q : β → Image → Prop}
    {a c : UInt64} (hq : KeepsRest disk q m fun _ _ => True) (ha : AtNode disk m a)
    (hc : AtNode disk m c)
    (hg : ∀ x m', AtNode disk m' a → AtNode disk m' c → KeepsRest disk (g x) m' Q) :
    KeepsRest disk (q >>= g) m Q :=
  Guarantees.bind hq fun x m' hrel _ => hg x m' (ha.keep hrel) (hc.keep hrel)

theorem keepsRest_adopt (child parent : UInt64) :
    KeepsRest disk (adopt child parent) m fun _ _ => True := by
  refine Guarantees.ite (fun _ => ?_) fun _ => Guarantees.pure trivial
  refine (readsOnly_btreeNodeCopy child).bind fun node => ?_
  exact (keepsRest_btreeNodeWrite _).bind fun _ _ _ _ => Guarantees.pure trivial

/-- A loop over nodes in hand. -/
theorem keepsRest_forUp {σ : Type} {body : ℕ → σ → BlockProg σ} {n start : ℕ} {s : σ} {a c : UInt64}
    (ha : AtNode disk m a) (hc : AtNode disk m c)
    (hbody : ∀ i s m', AtNode disk m' a → AtNode disk m' c →
      KeepsRest disk (body i s) m' fun _ _ => True) :
    KeepsRest disk (forUp body n start s) m fun _ _ => True := by
  refine (Guarantees.forUp (fun _ m' => AtNode disk m' a ∧ AtNode disk m' c) ⟨ha, hc⟩
    fun i s m' h => ?_).mono fun _ _ _ _ => trivial
  exact (hbody i s m' h.1 h.2).mono fun _ _ hrel _ => ⟨h.1.keep hrel, h.2.keep hrel⟩

/-- The last statements of `btree_split_root`. -/
private theorem keepsRest_splitRootEnd {a c : UInt64} (ha : AtNode disk m a) (hc : AtNode disk m c)
    (root : BTreeNode) : KeepsRest disk (do
      let root := { root with isLeaf := 0, numKeys := 1 }
      let root := root.setChildAt 0 (← nodeAt a).blockNumber
      let root := root.setChildAt 1 (← nodeAt c).blockNumber
      let root := root.clearWords 1 (maxKeys - 1)
      let root := root.clearWords (maxKeys + 2) (maxKeys - 1)
      editNode a fun a => a.setParent root.blockNumber
      editNode c fun b => b.setParent root.blockNumber
      let max ← btreeFindMaximum disk (← nodeAt a).blockNumber
      pure (root.setKeyAt 0 max)) m fun _ _ => True := by
  refine (readsOnly_nodeAt a).bind fun _ => (readsOnly_nodeAt c).bind fun _ => ?_
  refine keepsRest_bind (keepsRest_editNode _ ha) ha hc fun _ _ ha hc => ?_
  refine keepsRest_bind (keepsRest_editNode _ hc) ha hc fun _ _ ha hc => ?_
  refine (readsOnly_nodeAt a).bind fun _ => ?_
  exact (readsOnly_btreeFindMaximum _).bind fun _ => Guarantees.pure trivial

/-- `btree_split_root` changes node pages and pages that it takes itself. -/
theorem keepsRest_btreeSplitRoot (root : BTreeNode) :
    KeepsRest disk (btreeSplitRoot disk root) m fun _ _ => True := by
  refine Guarantees.bind (keepsRest_btreeNodeCreate false) fun a m₁ _ ha => ?_
  refine Guarantees.bind (keepsRest_btreeNodeCreate false) fun c m₂ hrel hc => ?_
  refine Guarantees.ite (fun _ => Guarantees.crash) fun hne => ?_
  have ha := (ha fun h => hne (Or.inl h)).keep hrel
  have hc := hc fun h => hne (Or.inr h)
  refine (readsOnly_nodeAt c).bind fun _ => ?_
  refine keepsRest_bind (keepsRest_editNode _ ha) ha hc fun _ _ ha hc => ?_
  refine (readsOnly_nodeAt a).bind fun _ => ?_
  refine keepsRest_bind (keepsRest_editNode _ hc) ha hc fun _ _ ha hc => ?_
  -- the lower half of the children
  refine keepsRest_bind (keepsRest_forUp ha hc fun i _ _ ha hc => ?_) ha hc fun _ _ ha hc => ?_
  · refine keepsRest_bind (keepsRest_editNode _ ha) ha hc fun _ _ ha hc => ?_
    refine (readsOnly_nodeAt a).bind fun _ => ?_
    exact keepsRest_bind (keepsRest_adopt _ _) ha hc fun _ _ ha _ => keepsRest_editNode _ ha
  refine keepsRest_bind (keepsRest_editNode _ ha) ha hc fun _ _ ha hc => ?_
  refine (readsOnly_nodeAt a).bind fun _ => ?_
  refine keepsRest_bind (keepsRest_adopt _ _) ha hc fun _ _ ha hc => ?_
  refine (readsOnly_inNode _).bind fun _ => ?_
  -- the upper half: keys, then children
  refine keepsRest_bind (keepsRest_forUp ha hc fun i _ _ _ hc => keepsRest_editNode _ hc) ha hc
    fun _ _ ha hc => ?_
  refine keepsRest_bind (keepsRest_forUp ha hc fun i _ _ ha hc => ?_) ha hc fun _ _ ha hc => ?_
  · refine keepsRest_bind (keepsRest_editNode _ hc) ha hc fun _ _ ha hc => ?_
    exact (readsOnly_nodeAt c).bind fun _ => keepsRest_adopt _ _
  refine Guarantees.ite (fun _ => ?_) fun _ => keepsRest_splitRootEnd ha hc root
  refine keepsRest_bind (keepsRest_editNode _ hc) ha hc fun _ _ ha hc => ?_
  refine (readsOnly_nodeAt c).bind fun _ => ?_
  exact keepsRest_bind (keepsRest_adopt _ _) ha hc fun _ _ ha hc => keepsRest_splitRootEnd ha hc root

/-- The new sibling is a node. -/
theorem keepsRest_splitOff (node child : BTreeNode) :
    KeepsRest disk (splitOff disk node child) m fun s m' => AtNode disk m' s.1 := by
  refine Guarantees.bind (keepsRest_btreeNodeCreate false) fun c m₁ _ hc => ?_
  refine Guarantees.ite (fun _ => Guarantees.crash) fun hne => ?_
  have hc := hc hne
  refine keepsRest_bind (keepsRest_editNode _ hc) hc hc fun _ _ hc _ => ?_
  refine (readsOnly_nodeAt c).bind fun _ => ?_
  refine keepsRest_bind (keepsRest_editNode _ hc) hc hc fun _ _ hc _ => ?_
  refine (readsOnly_inNode _).bind fun _ => ?_
  refine keepsRest_bind (keepsRest_forUp hc hc fun i _ _ hc _ => ?_) hc hc fun _ _ hc _ => ?_
  · exact keepsRest_bind (keepsRest_editNode _ hc) hc hc fun _ _ _ _ => Guarantees.pure trivial
  refine keepsRest_bind (keepsRest_forUp hc hc fun i _ _ hc _ => ?_) hc hc fun _ _ hc _ =>
    Guarantees.pure hc
  refine keepsRest_bind (keepsRest_editNode _ hc) hc hc fun _ _ hc _ => ?_
  refine (readsOnly_nodeAt c).bind fun _ => ?_
  exact keepsRest_bind (keepsRest_adopt _ _) hc hc fun _ _ _ _ => Guarantees.pure trivial

theorem readsOnly_addSibling (node : BTreeNode) (index : ℕ) (p : UInt64) :
    ReadsOnly disk (addSibling node index p) m :=
  (readsOnly_inNode _).bind fun _ => (readsOnly_nodeAt p).bind fun _ => Guarantees.pure rfl

theorem keepsRest_enterSibling (p : UInt64) (child node : BTreeNode) :
    KeepsRest disk (enterSibling disk p child node) m fun _ _ => True := by
  have hwrite : ∀ parent, KeepsRest disk (do
      let _ ← btreeNodeWrite parent
      pure (node, child)) m fun _ _ => True := fun parent =>
    Guarantees.bind (keepsRest_btreeNodeWrite parent) fun _ _ _ _ => Guarantees.pure trivial
  refine (readsOnly_btreeNodeCopy _).bind fun parent => (readsOnly_childSlot _ _ _ _).bind
    fun index => Guarantees.ite (fun _ => ?_) fun _ => hwrite parent
  exact (readsOnly_addSibling _ _ _).bind fun parent => (readsOnly_refreshKeys parent).bind hwrite

/-- So does `btree_split_child`, with every split of a parent that it asks for. -/
theorem keepsRest_splitChildFrom (fuel : ℕ) (node : BTreeNode) (index : ℕ) (child : BTreeNode) :
    KeepsRest disk (splitChildFrom disk fuel node index child) m fun _ _ => True := by
  induction fuel generalizing m node index child with
  | zero => exact Guarantees.crash
  | succ fuel ih =>
      rw [splitChildFrom]
      refine Guarantees.bind (keepsRest_splitOff node child) fun s _ _ hc => ?_
      obtain ⟨c, child'⟩ := s
      refine Guarantees.ite (fun _ => ?_) fun _ => ?_
      · refine (readsOnly_addSibling _ _ _).bind fun node' => (readsOnly_nodeAt _).bind fun _ =>
          (readsOnly_btreeFindMaximum _).bind fun max => ?_
        refine Guarantees.bind (keepsRest_editNode _ hc) fun _ _ _ _ => ?_
        exact (readsOnly_refreshKeys _).bind fun _ => Guarantees.pure trivial
      · refine Guarantees.ite (fun _ => ?_) fun _ => ?_
        · refine (readsOnly_btreeNodeCopy _).bind fun grandparent =>
            (readsOnly_childSlot _ _ _ _).bind fun index => ?_
          refine Guarantees.bind (ih grandparent index node) fun s _ _ _ => ?_
          refine Guarantees.bind (keepsRest_btreeNodeWrite _) fun _ _ _ _ => ?_
          exact keepsRest_enterSibling c child' s.2
        · exact Guarantees.bind (keepsRest_btreeSplitRoot node) fun node _ _ _ =>
            keepsRest_enterSibling c child' node

/-! ## Insertion -/

/-- And so does the part of `btree_insert` that splits on the way down. -/
theorem keepsRest_insertSplit (p key : UInt64) (target : BTreeNode) :
    KeepsRest disk (insertSplit disk p key target) m fun _ _ => True := by
  have hagain : ∀ (target : BTreeNode) {m : Image}, KeepsRest disk (do
      let targetBlock ← btreeInsertionSearch disk p key
      let again ← btreeNodeRead (UInt64.ofInt targetBlock)
      pure (again.getD target)) m fun _ _ => True := fun target m =>
    (readsOnly_btreeInsertionSearch p key).bind fun _ => (readsOnly_btreeNodeRead _).bind fun _ =>
      Guarantees.pure trivial
  refine Guarantees.ite (fun _ => ?_) fun _ => ?_
  · refine (readsOnly_btreeNodeCopy _).bind fun parent =>
      (readsOnly_keySlot (readsOnly_btreeFindMaximum _) _ _ _).bind fun i => ?_
    exact Guarantees.bind (keepsRest_splitChildFrom _ _ _ _) fun s _ _ _ => hagain s.2
  · exact Guarantees.bind (keepsRest_btreeSplitRoot target) fun target _ _ _ => hagain target

theorem keepsRest_insertInto (target : BTreeNode) (h : AtNode disk m p) :
    KeepsRest disk (insertInto disk target p) m fun _ _ => True := by
  refine (readsOnly_nodeAt p).bind fun _ => (readsOnly_btreeInsertNonfull _ _).bind fun s => ?_
  refine Guarantees.bind (keepsRest_editNode _ h) fun _ _ _ _ => ?_
  exact (keepsRest_btreeNodeWrite _).bind fun _ _ _ _ => Guarantees.pure trivial

theorem keepsRest_newLeaf (key value : UInt64) (type : UInt32) :
    KeepsRest disk (newLeaf disk key value type) m fun p m' => AtNode disk m' p := by
  refine Guarantees.bind (keepsRest_btreeNodeCreate true) fun p _ _ hp => ?_
  refine Guarantees.ite (fun _ => Guarantees.crash) fun hne => ?_
  have hp := hp hne
  refine keepsRest_bind (keepsRest_editNode _ hp) hp hp fun _ _ hp _ => ?_
  refine (readsOnly_nodeAt p).bind fun _ => ?_
  exact keepsRest_bind (keepsRest_btreeNodeWrite _) hp hp fun _ _ hp _ => Guarantees.pure hp

theorem keepsRest_btreeUpdateParentKeys (node : BTreeNode) :
    KeepsRest disk (btreeUpdateParentKeys disk node) m fun _ _ => True := by
  refine Guarantees.ite (fun _ => Guarantees.pure trivial) fun _ => ?_
  refine (readsOnly_btreeNodeCopy _).bind fun parent => (readsOnly_refreshKeys parent).bind
    fun parent => ?_
  exact (keepsRest_btreeNodeWrite parent).bind fun _ _ _ _ => Guarantees.pure trivial

/-- An insertion changes nodes, free pages and the bookkeeping of the allocator only. -/
theorem keepsRest_btreeInsert (root key value : UInt64) (type : UInt32) :
    KeepsRest disk (btreeInsert disk root key value type) m fun _ _ => True := by
  refine Guarantees.bind (keepsRest_newLeaf key value type) fun p _ _ hp => ?_
  have hend : ∀ {m : Image}, KeepsRest disk (do
      btreeUpdateParentKeys disk (← nodeAt p)
      pure (0 : ℤ)) m fun _ _ => True := fun {m} =>
    (readsOnly_nodeAt p).bind fun _ => Guarantees.bind (keepsRest_btreeUpdateParentKeys _)
      fun _ _ _ _ => Guarantees.pure trivial
  refine (readsOnly_btreeInsertionSearch _ _).bind fun block => (readsOnly_btreeNodeCopy _).bind
    fun target => Guarantees.ite (fun _ => Guarantees.ite (fun _ => ?_) fun _ => ?_) fun _ => ?_
  · exact Guarantees.bind (keepsRest_editNode _ hp) fun _ _ _ _ => hend
  · refine Guarantees.bind (keepsRest_insertSplit _ _ _) fun target _ hrel _ => ?_
    exact Guarantees.bind (keepsRest_insertInto target (hp.keep hrel)) fun _ _ _ _ => hend
  · exact Guarantees.bind (keepsRest_insertInto target hp) fun _ _ _ _ => hend

end Nbtrfs
