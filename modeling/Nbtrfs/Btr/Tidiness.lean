import Nbtrfs.Btr.NodesOnly
import Nbtrfs.Tidiness
import Nbtrfs.Lib.Protocol

/-!
# B-tree functions under a protocol

Reference: `btr.c`.

The functions that search only read, on any image. The ones that insert take free pages for new nodes
and write to pages of nodes; a protocol that allows these three changes is upheld by all of them, and
none of them owes an announcement: `btree_node_create` announces a new page before it is filled in.
-/

namespace Nbtrfs

open BlockProg

variable {disk : DiskInterface} {m m' : Image} {g g' : PageLedger} {p key value : UInt64} {b : ℕ}

/-! ## Searching -/

theorem reads_btreeNodeRead (p : UInt64) : Reads disk.mapping (btreeNodeRead p) :=
  Reads.fetch_page fun _ => Reads.ite (fun _ => Reads.pure) fun _ => Reads.pure

theorem reads_btreeNodeCopy (p : UInt64) : Reads disk.mapping (btreeNodeCopy p) :=
  (reads_btreeNodeRead p).bind fun node => by
    cases node with
    | none => exact Reads.crash
    | some node => exact Reads.pure

theorem reads_inNode (i : ℕ) : Reads disk.mapping (inNode i) :=
  Reads.ite (fun _ => Reads.pure) fun _ => Reads.crash

theorem reads_searchChildren {search : UInt64 → BlockProg UInt64}
    (hsearch : ∀ c, Reads disk.mapping (search c)) (node : BTreeNode) (n i : ℕ) :
    Reads disk.mapping (searchChildren search node n i) := by
  induction n generalizing i with
  | zero => exact Reads.pure
  | succ n ih =>
      rw [searchChildren]
      refine (reads_inNode _).bind fun _ => Reads.ite (fun _ => ?_) fun _ => ih _
      exact (hsearch _).bind fun _ => Reads.ite (fun _ => Reads.pure) fun _ => ih _

theorem reads_searchFrom (fuel : ℕ) (p key : UInt64) : Reads disk.mapping (searchFrom fuel p key) := by
  induction fuel generalizing p with
  | zero => exact Reads.crash
  | succ fuel ih =>
      rw [searchFrom]
      refine (reads_btreeNodeCopy p).bind fun node => Reads.ite (fun _ => ?_) fun _ => ?_
      · exact Reads.ite (fun _ => Reads.pure) fun _ => Reads.pure
      · exact reads_searchChildren (fun c => ih c) node _ _

theorem reads_btreeSearch (p key : UInt64) : Reads disk.mapping (btreeSearch disk p key) :=
  reads_searchFrom _ p key

theorem reads_maximumChild {findMaximum : UInt64 → BlockProg UInt64}
    (hfind : ∀ c, Reads disk.mapping (findMaximum c)) (root : BTreeNode) (n : ℕ) :
    Reads disk.mapping (maximumChild findMaximum root n) := by
  induction n with
  | zero => exact Reads.pure
  | succ n ih =>
      rw [maximumChild]
      exact (reads_inNode _).bind fun _ => Reads.ite (fun _ => hfind _) fun _ => ih

theorem reads_maximumFrom (fuel : ℕ) (p : UInt64) : Reads disk.mapping (maximumFrom fuel p) := by
  induction fuel generalizing p with
  | zero => exact Reads.crash
  | succ fuel ih =>
      rw [maximumFrom]
      refine (reads_btreeNodeCopy p).bind fun root => ?_
      exact Reads.ite (fun _ => Reads.pure) fun _ => reads_maximumChild ih _ _

theorem reads_btreeFindMaximum (p : UInt64) : Reads disk.mapping (btreeFindMaximum disk p) :=
  reads_maximumFrom _ p

theorem reads_depthFrom (fuel : ℕ) (node : BTreeNode) (depth : ℤ) :
    Reads disk.mapping (depthFrom fuel node depth) := by
  induction fuel generalizing node depth with
  | zero => exact Reads.crash
  | succ fuel ih =>
      rw [depthFrom]
      refine Reads.ite (fun _ => Reads.pure) fun _ => Reads.ite (fun _ => ?_) fun _ => Reads.pure
      exact (reads_btreeNodeRead _).bind fun _ => ih _ _

theorem reads_btreeFindDepth (p : UInt64) : Reads disk.mapping (btreeFindDepth disk p) :=
  (reads_btreeNodeCopy p).bind fun node => reads_depthFrom _ node 0

theorem reads_childIndex (node : BTreeNode) (key : UInt64) (n i index : ℕ) :
    Reads disk.mapping (childIndex disk node key n i index) := by
  induction n generalizing i index with
  | zero => exact Reads.pure
  | succ n ih =>
      rw [childIndex]
      refine (reads_inNode _).bind fun _ => Reads.ite (fun _ => ?_) fun _ => ih _ _
      refine (reads_btreeFindMaximum _).bind fun _ => ?_
      exact Reads.ite (fun _ => Reads.pure) fun _ => ih _ _

theorem reads_lastChild (node : BTreeNode) (n : ℕ) : Reads disk.mapping (lastChild node n) := by
  induction n with
  | zero => exact Reads.pure
  | succ n ih =>
      rw [lastChild]
      refine (reads_inNode _).bind fun _ => ?_
      exact Reads.ite (fun _ => Reads.pure) fun _ => ih

/-- The descent to the node that takes a new child holds the pages that it reads. -/
theorem reads_descend (p key : UInt64) (fuel : ℕ) (node : BTreeNode) (depth : ℤ) :
    Reads disk.mapping (descend disk p key fuel node depth) := by
  induction fuel generalizing node depth with
  | zero => exact Reads.crash
  | succ fuel ih =>
      rw [descend]
      refine (reads_btreeFindDepth p).bind fun _ => Reads.ite (fun _ => ?_) fun _ => Reads.pure
      have hnext : ∀ next, Reads disk.mapping (if next ≠ 0 then do
            let child ← btreeNodeRead next
            descend disk p key fuel (child.getD node) (depth + 1)
          else pure (int32 node.blockNumber.toNat)) := fun next =>
        Reads.ite (fun _ => (reads_btreeNodeRead next).bind fun _ => ih _ _) fun _ => Reads.pure
      refine (reads_childIndex node key _ _ _).bind fun _ =>
        (reads_inNode _).bind fun _ => Reads.ite (fun _ => hnext _) fun _ => ?_
      exact (reads_lastChild node _).bind hnext

theorem reads_btreeInsertionSearch (p key : UInt64) :
    Reads disk.mapping (btreeInsertionSearch disk p key) := by
  refine (reads_btreeNodeCopy p).bind fun root => Reads.ite (fun _ => Reads.pure)
    fun _ => (reads_btreeFindDepth p).bind fun _ => ?_
  exact Reads.ite (fun _ => Reads.pure) fun _ => reads_descend p key _ _ _

theorem reads_childPosition (root : BTreeNode) (key : UInt64) (n j position : ℕ) :
    Reads disk.mapping (childPosition disk root key n j position) := by
  induction n generalizing j position with
  | zero => exact Reads.pure
  | succ n ih =>
      rw [childPosition]
      refine (reads_inNode _).bind fun _ => Reads.ite (fun _ => ?_) fun _ => ih _ _
      refine (reads_btreeNodeCopy _).bind fun child => Reads.ite (fun _ => ih _ _)
        fun _ => (reads_btreeFindMaximum _).bind fun _ => ih _ _

theorem reads_btreeInsertNonfull (root node : BTreeNode) :
    Reads disk.mapping (btreeInsertNonfull disk root node) := by
  refine Reads.ite (fun _ => Reads.pure) fun _ => ?_
  refine (reads_childPosition root node.key _ _ _).bind fun _ => ?_
  exact (reads_inNode _).bind fun _ => Reads.pure

theorem reads_refreshKeys (parent : BTreeNode) : Reads disk.mapping (refreshKeys disk parent) := by
  refine Reads.forUp fun i parent => (reads_inNode _).bind fun _ => ?_
  refine Reads.ite (fun _ => ?_) fun _ => Reads.pure
  exact (reads_btreeFindMaximum _).bind fun _ => Reads.pure

theorem reads_childSlot (node : BTreeNode) (p : UInt64) (n i : ℕ) :
    Reads disk.mapping (childSlot node p n i) := by
  induction n generalizing i with
  | zero => exact Reads.pure
  | succ n ih =>
      rw [childSlot]
      refine (reads_inNode _).bind fun _ => ?_
      exact Reads.ite (fun _ => Reads.pure) fun _ => ih _

theorem reads_keySlot {limit : BlockProg UInt64} (h : Reads disk.mapping limit) (node : BTreeNode)
    (n i : ℕ) : Reads disk.mapping (keySlot node limit n i) := by
  induction n generalizing i with
  | zero => exact Reads.pure
  | succ n ih =>
      rw [keySlot]
      exact h.bind fun _ => Reads.ite (fun _ => ih _) fun _ => Reads.pure

/-! ## Protocols that allow what insertions do -/

/-- The protocol lets a free page be taken, become a node, and nodes be written to. -/
structure NodeClosed {γ : Type} (disk : DiskInterface) (R : Protocol γ) : Prop where
  sound : ∀ {x m}, R.inv x m → Sound disk m
  keep : ∀ {x m x' m'}, R.rel x m x' m' → ∀ b, blockType (m b) = BlockType.btreeNode.code →
    blockType (m' b) = BlockType.btreeNode.code
  take : ∀ {x m b}, R.inv x m → b < disk.totalBlocks.toNat → blockBit m b = false →
    R.inv x (takeBlock m b) ∧ R.rel x m x (takeBlock m b)
  fresh : ∀ {x m b pg}, R.inv x m → b < disk.totalBlocks.toNat → blockBit m b = false →
    blockType pg = BlockType.btreeNode.code →
    R.inv x (Function.update (takeBlock m b) b pg) ∧ R.rel x m x (Function.update (takeBlock m b) b pg)
  node : ∀ {x m b pg}, R.inv x m → blockType (m b) = BlockType.btreeNode.code →
    blockType pg = BlockType.btreeNode.code →
    R.inv x (Function.update m b pg) ∧ R.rel x m x (Function.update m b pg)
  bitmaps : ∀ x m, bitmapNumbers disk ⊆ (R.allowance x m).announced
  nodes : ∀ {x m p}, R.inv x m → AtNode disk m p → p ∈ (R.allowance x m).announced

/-- A node in hand: its page is one of a node, was obtained, and will be written. -/
structure InHand (disk : DiskInterface) (m : Image) (g : PageLedger) (p : UInt64) : Prop where
  node : AtNode disk m p
  held : p ∈ g.held
  announced : p ∈ g.announced

section Protocols

variable {γ α β : Type} {R : Protocol γ} {x x' : γ} {D : Allowance}

theorem InHand.keep (h : InHand disk m g p) (hR : NodeClosed disk R) (hrel : R.rel x m x' m')
    (hgrow : PageLedger.Grows D g g') : InHand disk m' g' p where
  node := by
    obtain ⟨b, haddr, htype⟩ := h.node
    exact ⟨b, haddr, hR.keep hrel b htype⟩
  held := hgrow.held h.held
  announced := hgrow.announced h.announced

theorem InHand.grow (h : InHand disk m g p) (hgrow : PageLedger.Grows D g g') :
    InHand disk m g' p :=
  ⟨h.node, hgrow.held h.held, hgrow.announced h.announced⟩

/-- The program keeps to the protocol; nothing else is said of it. -/
abbrev Abides (disk : DiskInterface) (R : Protocol γ) (q : BlockProg α) (x : γ) (m : Image)
    (g : PageLedger) : Prop :=
  Upholds disk.mapping R q x m g fun _ _ _ _ => True

theorem abides_read {q : BlockProg α} (h : Reads disk.mapping q) : Abides disk R q x m g :=
  (Upholds.read (E := fun _ => True) h fun _ _ _ _ => trivial).mono fun _ _ _ _ _ _ _ => trivial

theorem nodeAt_bind {f : BTreeNode → BlockProg β} {S : β → γ → Image → PageLedger → Prop}
    (hp : p ∈ g.held) (hf : ∀ node, Upholds disk.mapping R (f node) x m g S) :
    Upholds disk.mapping R (nodeAt p >>= f) x m g S :=
  Upholds.page_bind hp fun c _ => hf (BTreeNode.ofPage (m c))

namespace NodeClosed

/-- What comes next goes on with two nodes in hand. -/
theorem bind {q : BlockProg α} {f : α → BlockProg β} {S : β → γ → Image → PageLedger → Prop}
    {a c : UInt64} (hR : NodeClosed disk R) (hq : Abides disk R q x m g) (ha : InHand disk m g a)
    (hc : InHand disk m g c) (hf : ∀ y x' m' g', InHand disk m' g' a → InHand disk m' g' c →
      Upholds disk.mapping R (f y) x' m' g' S) : Upholds disk.mapping R (q >>= f) x m g S :=
  Upholds.bind hq fun y x' m' g' hgrow hrel _ =>
    hf y x' m' g' (ha.keep hR hrel hgrow) (hc.keep hR hrel hgrow)

theorem editNode (hR : NodeClosed disk R) (f : BTreeNode → BTreeNode) (h : InHand disk m g p) :
    Abides disk R (editNode p f) x m g := by
  refine Upholds.modify h.held (Or.inr h.announced) fun c hc hinv => ?_
  obtain ⟨b, haddr, htype⟩ := h.node
  obtain rfl : b = c := Option.some.inj (haddr.symm.trans hc)
  have hpage : blockType ((f (BTreeNode.ofPage (m b))).toPage (m b)) = BlockType.btreeNode.code := by
    rw [BTreeNode.blockType_toPage, htype]
  obtain ⟨hinv', hrel⟩ := hR.node hinv htype hpage
  exact ⟨x, hinv', hrel, trivial⟩

/-- `btree_node_write` obtains the page of the node, changes it and announces it. -/
theorem btreeNodeWrite (hR : NodeClosed disk R) (node : BTreeNode) :
    Abides disk R (btreeNodeWrite node) x m g := by
  refine Upholds.fetch_bind fun _ _ hb => Upholds.page_bind hb fun c hc => ?_
  refine Upholds.ite (fun _ => Upholds.pure trivial) fun htype => ?_
  refine Upholds.modify_writeBack_bind (E := fun _ _ => True) hb (fun c' hc' hinv => ?_)
    fun _ _ _ _ _ _ _ _ => Upholds.pure trivial
  obtain rfl : c = c' := Option.some.inj (hc.symm.trans hc')
  have hpage : blockType (node.toPage (m c)) = BlockType.btreeNode.code := by
    rw [BTreeNode.blockType_toPage, not_not.mp htype]
  obtain ⟨hinv', hrel⟩ := hR.node hinv (not_not.mp htype) hpage
  exact ⟨x, hinv', hrel, hR.nodes hinv' ⟨c, hc, hR.keep hrel c (not_not.mp htype)⟩, trivial⟩

/-- The page that `btree_node_create` announces besides those of the bitmap is the one it returns. -/
private theorem disciplined_btreeNodeCreate (leaf : Bool) :
    Disciplined disk.mapping (Nbtrfs.btreeNodeCreate disk leaf) m g fun p _ g' =>
      PageLedger.Grows (Allowance.only (insert p (bitmapNumbers disk))) g g' ∧
        (p ≠ 0 → p ∈ g'.held ∧ p ∈ g'.announced) := by
  refine Disciplined.bind_iff.mpr (Disciplined.mono (neat_allocPage m g) ?_)
  intro p m₁ g₁ ⟨hgrow, _⟩
  have hgrow : PageLedger.Grows (Allowance.only (insert p (bitmapNumbers disk))) g g₁ :=
    hgrow.mono ⟨subset_rfl, Set.subset_insert p _⟩
  split
  next hzero =>
    subst hzero
    exact ⟨hgrow, fun h => absurd rfl h⟩
  next =>
    have hrest : Tidy disk.mapping (Allowance.only (insert p (bitmapNumbers disk))) (do
        fetch 0 p
        modify p (setBlockType BlockType.btreeNode)
        Nbtrfs.editNode p (BTreeNode.init p leaf)
        writeBack 0 p
        pure p) m₁ g₁ fun q _ g' => q = p ∧ p ∈ g'.held ∧ p ∈ g'.announced := by
      refine Tidy.fetch.bind fun _ _ _ _ ⟨_, hb⟩ => Tidy.settle (b := p) ?_
      refine (Tidy.modify hb (Or.inl (Set.mem_insert p _))).bind fun _ _ _ _ hb => ?_
      refine (Tidy.modify hb (Or.inl (Set.mem_insert p _))).bind fun _ _ _ _ hb => ?_
      refine (Tidy.writeBack hb (Set.mem_insert p (bitmapNumbers disk))).bind ?_
      exact fun _ _ _ _ ⟨_, hann, hb⟩ => Tidy.pure ⟨hann, rfl, hb, hann⟩
    refine Disciplined.mono hrest fun q _ g' ⟨hgrow', hq, hheld, hann⟩ => ?_
    subst hq
    exact ⟨hgrow.trans hgrow', fun _ => ⟨hheld, hann⟩⟩

/-- A new node lies on a page that was free, and is announced before it is handed out. -/
theorem btreeNodeCreate (hR : NodeClosed disk R) (leaf : Bool) :
    Upholds disk.mapping R (btreeNodeCreate disk leaf) x m g fun p _ m' g' =>
      p ≠ 0 → InHand disk m' g' p := by
  refine ⟨fun hinv => ?_⟩
  have S := hR.sound hinv
  have hpage : Ensures disk.mapping (Nbtrfs.btreeNodeCreate disk leaf) m fun p m' =>
      R.inv x m' ∧ R.rel x m x m' ∧ (p ≠ 0 → AtNode disk m' p) := by
    rcases allocPage_cases S.layout.bitmapTo with ⟨f, hf, hclear, -, hrun⟩ | ⟨-, hrun⟩
    · by_cases hzero : UInt64.ofNat f = 0
      · -- the page is taken, but its number is the null pointer
        refine ensures_bind (ensures_of_run hrun ?_)
        obtain ⟨hinv', hrel⟩ := hR.take hinv hf hclear
        rw [if_pos hzero]
        exact ensures_pure ⟨hinv', hrel, fun hne => absurd rfl hne⟩
      · cases haddr : disk.mapping.addr (UInt64.ofNat f) with
        | none =>
            -- out of reach: setting the type is a crash
            refine ensures_bind (ensures_of_run hrun ?_)
            rw [if_neg hzero]
            refine ensures_fetch_bind (ensures_bind (ensures_modify fun b hb => ?_))
            rw [haddr] at hb
            cases hb
        | some b =>
            obtain rfl := S.addr_eq hf haddr
            refine ensures_of_run (run_btreeNodeCreate leaf hrun hzero haddr) ?_
            have htype := BTreeNode.blockType_createdPage (UInt64.ofNat b) leaf (takeBlock m b b)
            obtain ⟨hinv', hrel⟩ := hR.fresh hinv hf hclear htype
            refine ⟨hinv', hrel, fun _ => ⟨b, haddr, ?_⟩⟩
            rw [Function.update_self, htype]
    · -- no page is free
      refine ensures_bind (ensures_of_run hrun ?_)
      rw [if_pos rfl]
      exact ensures_pure ⟨hinv, R.refl x m, fun hne => absurd rfl hne⟩
  refine (disciplined_btreeNodeCreate leaf).mono_ensures fun p m' hrun g' ⟨hgrow, hheld⟩ => ?_
  obtain ⟨hinv', hrel, hnode⟩ := hpage p m' hrun
  refine ⟨x, hinv', hrel, hgrow.mono (Allowance.only_le ?_), fun hne =>
    ⟨hnode hne, (hheld hne).1, (hheld hne).2⟩⟩
  refine Set.insert_subset ?_ (hR.bitmaps x m')
  by_cases hzero : p = 0
  · rw [hzero]
    exact hR.bitmaps x m' zero_mem_bitmapNumbers
  · exact hR.nodes hinv' (hnode hzero)

theorem adopt (hR : NodeClosed disk R) (child parent : UInt64) :
    Abides disk R (adopt child parent) x m g := by
  refine Upholds.ite (fun _ => ?_) fun _ => Upholds.pure trivial
  refine Upholds.read_bind (reads_btreeNodeCopy child) fun node _ _ => ?_
  exact (hR.btreeNodeWrite _).bind fun _ _ _ _ _ _ _ => Upholds.pure trivial

/-- A loop over nodes in hand. -/
theorem forUp {σ : Type} {body : ℕ → σ → BlockProg σ} {n start : ℕ} {s : σ} {a c : UInt64}
    (hR : NodeClosed disk R) (ha : InHand disk m g a) (hc : InHand disk m g c)
    (hbody : ∀ i s x' m' g', InHand disk m' g' a → InHand disk m' g' c →
      Abides disk R (body i s) x' m' g') : Abides disk R (forUp body n start s) x m g := by
  refine (Upholds.forUp (fun _ _ m' g' => InHand disk m' g' a ∧ InHand disk m' g' c) ⟨ha, hc⟩
    fun i s x' m' g' h => ?_).mono fun _ _ _ _ _ _ _ => trivial
  exact (hbody i s x' m' g' h.1 h.2).mono fun _ _ _ _ hgrow hrel _ =>
    ⟨h.1.keep hR hrel hgrow, h.2.keep hR hrel hgrow⟩

/-- The last statements of `btree_split_root`. -/
private theorem splitRootEnd (hR : NodeClosed disk R) {a c : UInt64} (ha : InHand disk m g a)
    (hc : InHand disk m g c) (root : BTreeNode) : Abides disk R (do
      let root := { root with isLeaf := 0, numKeys := 1 }
      let root := root.setChildAt 0 (← nodeAt a).blockNumber
      let root := root.setChildAt 1 (← nodeAt c).blockNumber
      let root := root.clearWords 1 (maxKeys - 1)
      let root := root.clearWords (maxKeys + 2) (maxKeys - 1)
      Nbtrfs.editNode a fun a => a.setParent root.blockNumber
      Nbtrfs.editNode c fun b => b.setParent root.blockNumber
      let max ← btreeFindMaximum disk (← nodeAt a).blockNumber
      pure (root.setKeyAt 0 max)) x m g := by
  refine nodeAt_bind ha.held fun _ => nodeAt_bind hc.held fun _ => ?_
  refine hR.bind (hR.editNode _ ha) ha hc fun _ _ _ _ ha hc => ?_
  refine hR.bind (hR.editNode _ hc) ha hc fun _ _ _ _ ha hc => ?_
  refine nodeAt_bind ha.held fun _ => ?_
  exact Upholds.read_bind (reads_btreeFindMaximum _) fun _ _ _ => Upholds.pure trivial

/-- `btree_split_root` holds and announces every page that it writes: the new nodes, the moved
children and the root. -/
theorem btreeSplitRoot (hR : NodeClosed disk R) (root : BTreeNode) :
    Abides disk R (btreeSplitRoot disk root) x m g := by
  refine (hR.btreeNodeCreate false).bind fun a _ _ _ _ _ ha => ?_
  refine (hR.btreeNodeCreate false).bind fun c _ _ _ hgrow hrel hc => ?_
  refine Upholds.ite (fun _ => Upholds.crash) fun hne => ?_
  have ha := (ha fun h => hne (Or.inl h)).keep hR hrel hgrow
  have hc := hc fun h => hne (Or.inr h)
  refine nodeAt_bind hc.held fun _ => ?_
  refine hR.bind (hR.editNode _ ha) ha hc fun _ _ _ _ ha hc => ?_
  refine nodeAt_bind ha.held fun _ => ?_
  refine hR.bind (hR.editNode _ hc) ha hc fun _ _ _ _ ha hc => ?_
  -- the lower half of the children
  refine hR.bind (hR.forUp ha hc fun i _ _ _ _ ha hc => ?_) ha hc fun _ _ _ _ ha hc => ?_
  · refine hR.bind (hR.editNode _ ha) ha hc fun _ _ _ _ ha hc => ?_
    refine nodeAt_bind ha.held fun _ => ?_
    exact hR.bind (hR.adopt _ _) ha hc fun _ _ _ _ ha _ => hR.editNode _ ha
  refine hR.bind (hR.editNode _ ha) ha hc fun _ _ _ _ ha hc => ?_
  refine nodeAt_bind ha.held fun _ => ?_
  refine hR.bind (hR.adopt _ _) ha hc fun _ _ _ _ ha hc => ?_
  refine Upholds.read_bind (reads_inNode _) fun _ _ hgrow => ?_
  replace ha := ha.grow hgrow
  replace hc := hc.grow hgrow
  -- the upper half: keys, then children
  refine hR.bind (hR.forUp ha hc fun i _ _ _ _ _ hc => ?_) ha hc fun _ _ _ _ ha hc => ?_
  · exact hR.editNode _ hc
  refine hR.bind (hR.forUp ha hc fun i _ _ _ _ ha hc => ?_) ha hc fun _ _ _ _ ha hc => ?_
  · refine hR.bind (hR.editNode _ hc) ha hc fun _ _ _ _ ha hc => ?_
    exact nodeAt_bind hc.held fun _ => hR.adopt _ _
  refine Upholds.ite (fun _ => ?_) fun _ => hR.splitRootEnd ha hc root
  refine hR.bind (hR.editNode _ hc) ha hc fun _ _ _ _ ha hc => ?_
  refine nodeAt_bind hc.held fun _ => ?_
  exact hR.bind (hR.adopt _ _) ha hc fun _ _ _ _ ha hc => hR.splitRootEnd ha hc root

/-- The new sibling is in hand. -/
theorem splitOff (hR : NodeClosed disk R) (node child : BTreeNode) :
    Upholds disk.mapping R (splitOff disk node child) x m g fun s _ m' g' =>
      InHand disk m' g' s.1 := by
  refine (hR.btreeNodeCreate false).bind fun c _ _ _ _ _ hc => ?_
  refine Upholds.ite (fun _ => Upholds.crash) fun hne => ?_
  have hc := hc hne
  refine hR.bind (hR.editNode _ hc) hc hc fun _ _ _ _ hc _ => ?_
  refine nodeAt_bind hc.held fun _ => ?_
  refine hR.bind (hR.editNode _ hc) hc hc fun _ _ _ _ hc _ => ?_
  refine Upholds.read_bind (reads_inNode _) fun _ _ hgrow => ?_
  replace hc := hc.grow hgrow
  refine hR.bind (hR.forUp hc hc fun i _ _ _ _ hc _ => ?_) hc hc fun _ _ _ _ hc _ => ?_
  · exact hR.bind (hR.editNode _ hc) hc hc fun _ _ _ _ _ _ => Upholds.pure trivial
  refine hR.bind (hR.forUp hc hc fun i _ _ _ _ hc _ => ?_) hc hc fun _ _ _ _ hc _ =>
    Upholds.pure hc
  refine hR.bind (hR.editNode _ hc) hc hc fun _ _ _ _ hc _ => ?_
  refine nodeAt_bind hc.held fun _ => ?_
  exact hR.bind (hR.adopt _ _) hc hc fun _ _ _ _ _ _ => Upholds.pure trivial

/-- Making room for a sibling in hand only reads. -/
private theorem addSibling_bind {f : BTreeNode → BlockProg β} {S : β → γ → Image → PageLedger → Prop}
    (hp : InHand disk m g p) (node : BTreeNode) (index : ℕ)
    (hf : ∀ node g', InHand disk m g' p → Upholds disk.mapping R (f node) x m g' S) :
    Upholds disk.mapping R (addSibling node index p >>= f) x m g S := by
  refine Upholds.bind (Q := fun _ x' m' g' => x' = x ∧ m' = m ∧ InHand disk m g' p) ?_ ?_
  · refine Upholds.read_bind (reads_inNode _) fun _ _ hgrow => ?_
    have hp := hp.grow hgrow
    exact nodeAt_bind hp.held fun _ => Upholds.pure ⟨rfl, rfl, hp⟩
  · rintro node x' m' g' - - ⟨rfl, rfl, hp⟩
    exact hf node g' hp

/-- The new sibling enters its parent, which is at hand. -/
private theorem enterSibling (hR : NodeClosed disk R) (hp : InHand disk m g p)
    (child node : BTreeNode) : Abides disk R (enterSibling disk p child node) x m g := by
  have hwrite : ∀ parent x' m' g', Abides disk R (do
      let _ ← Nbtrfs.btreeNodeWrite parent
      pure (node, child)) x' m' g' := fun parent _ _ _ =>
    (hR.btreeNodeWrite parent).bind fun _ _ _ _ _ _ _ => Upholds.pure trivial
  refine Upholds.read_bind (reads_btreeNodeCopy _) fun parent _ hgrow => ?_
  replace hp := hp.grow hgrow
  refine Upholds.read_bind (reads_childSlot _ _ _ _) fun index _ hgrow => ?_
  replace hp := hp.grow hgrow
  refine Upholds.ite (fun _ => ?_) fun _ => hwrite parent _ _ _
  refine addSibling_bind hp _ _ fun parent _ _ => ?_
  exact Upholds.read_bind (reads_refreshKeys parent) fun parent _ _ => hwrite parent _ _ _

/-- `btree_split_child` holds and announces what it writes, at every level that it splits. -/
theorem splitChildFrom (hR : NodeClosed disk R) (fuel : ℕ) (node : BTreeNode) (index : ℕ)
    (child : BTreeNode) : Abides disk R (splitChildFrom disk fuel node index child) x m g := by
  induction fuel generalizing x m g node index child with
  | zero => exact Upholds.crash
  | succ fuel ih =>
      rw [Nbtrfs.splitChildFrom]
      refine (hR.splitOff node child).bind fun s _ _ _ _ _ hc => ?_
      obtain ⟨c, child'⟩ := s
      replace hc : InHand disk _ _ c := hc
      refine Upholds.ite (fun _ => ?_) fun _ => ?_
      · refine addSibling_bind hc _ _ fun node' _ hc => nodeAt_bind hc.held fun _ => ?_
        refine Upholds.read_bind (reads_btreeFindMaximum _) fun max _ hgrow => ?_
        replace hc := hc.grow hgrow
        refine (hR.editNode _ hc).bind fun _ _ _ _ _ _ _ => ?_
        exact Upholds.read_bind (reads_refreshKeys _) fun _ _ _ => Upholds.pure trivial
      · refine Upholds.ite (fun _ => ?_) fun _ => ?_
        · refine Upholds.read_bind (reads_btreeNodeCopy _) fun grandparent _ hgrow => ?_
          replace hc := hc.grow hgrow
          refine Upholds.read_bind (reads_childSlot _ _ _ _) fun index _ hgrow => ?_
          replace hc := hc.grow hgrow
          refine hR.bind (ih grandparent index node) hc hc fun s _ _ _ hc _ => ?_
          refine hR.bind (hR.btreeNodeWrite _) hc hc fun _ _ _ _ hc _ => ?_
          exact hR.enterSibling hc child' s.2
        · exact hR.bind (hR.btreeSplitRoot node) hc hc fun node _ _ _ hc _ =>
            hR.enterSibling hc child' node

/-! ## Insertion -/

/-- So does `btree_insert` on its way down. -/
theorem insertSplit (hR : NodeClosed disk R) (p key : UInt64) (target : BTreeNode) :
    Abides disk R (insertSplit disk p key target) x m g := by
  have hagain : ∀ (target : BTreeNode) {x' m' g'}, Abides disk R (do
      let targetBlock ← btreeInsertionSearch disk p key
      let again ← btreeNodeRead (UInt64.ofInt targetBlock)
      pure (again.getD target)) x' m' g' := fun target _ _ _ =>
    Upholds.read_bind (reads_btreeInsertionSearch p key) fun _ _ _ =>
      Upholds.read_bind (reads_btreeNodeRead _) fun _ _ _ => Upholds.pure trivial
  refine Upholds.ite (fun _ => ?_) fun _ => ?_
  · refine Upholds.read_bind (reads_btreeNodeCopy _) fun parent _ _ => ?_
    refine Upholds.read_bind (reads_keySlot (reads_btreeFindMaximum _) _ _ _) fun i _ _ => ?_
    exact (hR.splitChildFrom _ _ _ _).bind fun s _ _ _ _ _ _ => hagain s.2
  · exact (hR.btreeSplitRoot target).bind fun target _ _ _ _ _ _ => hagain target

theorem insertInto (hR : NodeClosed disk R) (target : BTreeNode) (h : InHand disk m g p) :
    Abides disk R (insertInto disk target p) x m g := by
  refine nodeAt_bind h.held fun _ => ?_
  refine Upholds.read_bind (reads_btreeInsertNonfull _ _) fun s _ hgrow => ?_
  refine (hR.editNode _ (h.grow hgrow)).bind fun _ _ _ _ _ _ _ => ?_
  exact (hR.btreeNodeWrite _).bind fun _ _ _ _ _ _ _ => Upholds.pure trivial

theorem newLeaf (hR : NodeClosed disk R) (key value : UInt64) (type : UInt32) :
    Upholds disk.mapping R (newLeaf disk key value type) x m g fun p _ m' g' =>
      InHand disk m' g' p := by
  refine (hR.btreeNodeCreate true).bind fun p _ _ _ _ _ hp => ?_
  refine Upholds.ite (fun _ => Upholds.crash) fun hne => ?_
  have hp := hp hne
  refine hR.bind (hR.editNode _ hp) hp hp fun _ _ _ _ hp _ => ?_
  refine nodeAt_bind hp.held fun _ => ?_
  exact hR.bind (hR.btreeNodeWrite _) hp hp fun _ _ _ _ hp _ => Upholds.pure hp

theorem btreeUpdateParentKeys (hR : NodeClosed disk R) (node : BTreeNode) :
    Abides disk R (btreeUpdateParentKeys disk node) x m g := by
  refine Upholds.ite (fun _ => Upholds.pure trivial) fun _ => ?_
  refine Upholds.read_bind (reads_btreeNodeCopy _) fun parent _ _ => ?_
  refine Upholds.read_bind (reads_refreshKeys parent) fun parent _ _ => ?_
  exact (hR.btreeNodeWrite parent).bind fun _ _ _ _ _ _ _ => Upholds.pure trivial

/-- `btree_insert`, on any tree and any image that the protocol allows, upholds it. -/
theorem btreeInsert (hR : NodeClosed disk R) (root key value : UInt64) (type : UInt32) :
    Abides disk R (btreeInsert disk root key value type) x m g := by
  refine (hR.newLeaf key value type).bind fun p _ _ _ _ _ hp => ?_
  have hend : ∀ {x' m' g'}, InHand disk m' g' p → Abides disk R (do
      Nbtrfs.btreeUpdateParentKeys disk (← nodeAt p)
      pure (0 : ℤ)) x' m' g' := fun hp =>
    nodeAt_bind hp.held fun _ => (hR.btreeUpdateParentKeys _).bind
      fun _ _ _ _ _ _ _ => Upholds.pure trivial
  refine Upholds.read_bind (reads_btreeInsertionSearch _ _) fun block _ hgrow => ?_
  replace hp := hp.grow hgrow
  refine Upholds.read_bind (reads_btreeNodeCopy _) fun target _ hgrow => ?_
  replace hp := hp.grow hgrow
  refine Upholds.ite (fun _ => Upholds.ite (fun _ => ?_) fun _ => ?_) fun _ => ?_
  · exact hR.bind (hR.editNode _ hp) hp hp fun _ _ _ _ hp _ => hend hp
  · refine hR.bind (hR.insertSplit _ _ _) hp hp fun target _ _ _ hp _ => ?_
    exact hR.bind (hR.insertInto target hp) hp hp fun _ _ _ _ hp _ => hend hp
  · exact hR.bind (hR.insertInto target hp) hp hp fun _ _ _ _ hp _ => hend hp

end NodeClosed

end Protocols

end Nbtrfs
