import Nbtrfs.Btr.TwoLevels

/-!
# Splitting below a full parent

Reference: `btr.c::btree_split_child`.

When the parent has no room it is split first, in the caller's copy. The new sibling is then entered in
the parent as it is on its page, which is full as before, so it is listed nowhere; and the copy, which
lists half of the children or the two halves of the root, is written over that page.
-/

namespace Nbtrfs

open BlockProg

variable {disk : DiskInterface} {m m' : Image} {K : Finset ℕ} {r n b index : ℕ}
  {node child child' : BTreeNode}

/-- On the volume, the right sibling of the child follows it in the node that is its parent. -/
def SiblingListed (m : Image) (child : BTreeNode) : Prop :=
  ∃ i < maxKeys,
    (BTreeNode.ofPage (m (BTreeNode.ofPage (m child.blockNumber.toNat)).parent.toNat)).childAt i =
      child.blockNumber ∧
    (BTreeNode.ofPage (m (BTreeNode.ofPage (m child.blockNumber.toNat)).parent.toNat)).childAt
      (i + 1) = child.rightSibling

/-- `btree_split_child` returns and its copies are written. Then the new sibling is listed, and below
`top` are the same leaves in the same order, in nodes of at most `maxKeys` keys. -/
def SplitKeeps (disk : DiskInterface) (m : Image) (top : ℕ) (node : BTreeNode) (index : ℕ)
    (child : BTreeNode) : Prop :=
  ∃ node' child' m₁ m₂ m₃,
    run disk.mapping (btreeSplitChild disk node index child) m = some ((node', child'), m₁) ∧
    run disk.mapping (btreeNodeWrite node') m₁ = some (0, m₂) ∧
    run disk.mapping (btreeNodeWrite child') m₂ = some (0, m₃) ∧ SiblingListed m₃ child' ∧
    ∀ h leaves, Subtree disk.mapping m h top leaves →
      ∃ h', Subtree disk.mapping m₃ h' top leaves

/-- The full node on page `r` and its child at position `index`, which is full as well, in a tree of
pages in `K`. -/
structure FullParent (disk : DiskInterface) (m : Image) (K : Finset ℕ) (r : ℕ) (node : BTreeNode)
    (index : ℕ) (child : BTreeNode) : Prop where
  used : InUse disk m K
  mem : r ∈ K
  isNode : IsNode disk.mapping m r
  page : BTreeNode.ofPage (m r) = node
  number : node.blockNumber = UInt64.ofNat r
  full : ∃ p, index < p ∧ Full disk m (K.erase r) node p
  childPage : BTreeNode.ofPage (m (node.childAt index).toNat) = child
  childFull : ∃ n, Full disk m (K.erase r) child n
  parent : child.parent = node.blockNumber

/-- There are free pages for the new nodes, or every block of the volume can be addressed. -/
def HasPages (disk : DiskInterface) (m : Image) (node : BTreeNode) : Prop :=
  (if node.parent = 0 then 3 else 2) ≤ nearFree disk m ∨
    disk.addressable = disk.totalBlocks.toNat

/-! ## The copy of the child -/

/-- The end of `btree_split_child` below a full parent, of which `node` is the caller's copy. -/
def enterSibling (disk : DiskInterface) (childB : UInt64) (child node : BTreeNode) :
    BlockProg (BTreeNode × BTreeNode) := do
  let parent ← btreeNodeCopy child.parent
  let index ← childSlot parent child.blockNumber (parent.numKeys.toNat + 1) 0
  let parent ← if parent.numKeys.toNat < maxKeys then do
      let parent ← addSibling parent index childB
      refreshKeys disk parent
    else pure parent
  let _ ← btreeNodeWrite parent
  pure (node, child)

/-- The copies of the parent and the child are not touched any more. -/
theorem ensures_enterSibling (childB : UInt64) :
    Ensures disk.mapping (enterSibling disk childB child node) m fun s _ => s = (node, child) := by
  refine ensures_bind fun _ _ _ => ensures_bind fun _ _ _ => ?_
  split
  · exact ensures_bind fun _ _ _ => ensures_bind fun _ _ _ => ensures_bind fun _ _ _ =>
      ensures_pure rfl
  · exact ensures_bind fun _ _ _ => ensures_bind fun _ _ _ => ensures_pure rfl

/-- How `btree_split_child` goes on below a full parent. -/
theorem run_splitChildFrom_full {fuel : ℕ} {childB : UInt64} {m₁ : Image}
    (hsplit : run disk.mapping (splitOff disk node child) m = some ((childB, child'), m₁))
    (hfull : ¬node.numKeys.toNat < maxKeys) :
    run disk.mapping (splitChildFrom disk (fuel + 1) node index child) m =
      if node.parent ≠ 0 then run disk.mapping (do
          let grandparent ← btreeNodeCopy node.parent
          let index ← childSlot grandparent node.blockNumber (grandparent.numKeys.toNat + 1) 0
          let s ← splitChildFrom disk fuel grandparent index node
          let _ ← btreeNodeWrite s.1
          enterSibling disk childB child' s.2) m₁
      else run disk.mapping (do
          let node ← btreeSplitRoot disk node
          enterSibling disk childB child' node) m₁ := by
  rw [splitChildFrom, run_bind_of_eq hsplit]
  simp only
  rw [if_neg hfull]
  split
  · rfl
  · rfl

/-- What becomes of the child is settled in the first half of `btree_split_child`. -/
theorem ensures_splitChildFrom (fuel : ℕ) :
    Ensures disk.mapping (splitChildFrom disk fuel node index child) m fun s _ =>
      ∃ b m', run disk.mapping (splitOff disk node child) m = some ((b, s.2), m') := by
  cases fuel with
  | zero => exact ensures_crash
  | succ fuel =>
      intro s m' hrun
      have hrun' := hrun
      rw [splitChildFrom] at hrun'
      obtain ⟨⟨b, child'⟩, m₁, hsplit, hrest⟩ := run_bind_eq_some.mp hrun'
      refine ⟨b, m₁, ?_⟩
      suffices s.2 = child' by rw [this, hsplit]
      by_cases hroom : node.numKeys.toNat < maxKeys
      · simp only at hrest
        rw [if_pos hroom] at hrest
        obtain ⟨_, _, -, hrest⟩ := run_bind_eq_some.mp hrest
        obtain ⟨_, _, -, hrest⟩ := run_bind_eq_some.mp hrest
        obtain ⟨_, _, -, hrest⟩ := run_bind_eq_some.mp hrest
        obtain ⟨_, _, -, hrest⟩ := run_bind_eq_some.mp hrest
        obtain ⟨_, _, -, hrest⟩ := run_bind_eq_some.mp hrest
        rw [run_pure] at hrest
        exact (congrArg (fun t => t.1.2) (Option.some.inj hrest)).symm
      · rw [run_splitChildFrom_full hsplit hroom] at hrun
        split at hrun
        · obtain ⟨_, _, -, hrun⟩ := run_bind_eq_some.mp hrun
          obtain ⟨_, _, -, hrun⟩ := run_bind_eq_some.mp hrun
          obtain ⟨_, _, -, hrun⟩ := run_bind_eq_some.mp hrun
          obtain ⟨_, _, -, hrun⟩ := run_bind_eq_some.mp hrun
          exact congrArg Prod.snd (ensures_enterSibling b _ _ hrun)
        · obtain ⟨_, _, -, hrun⟩ := run_bind_eq_some.mp hrun
          exact congrArg Prod.snd (ensures_enterSibling b _ _ hrun)

/-- A write that succeeds stores the node on its page. -/
theorem ensures_btreeNodeWrite (h : disk.mapping.addr node.blockNumber = some b) :
    Ensures disk.mapping (btreeNodeWrite node) m fun rv m' => rv = 0 →
      BTreeNode.ofPage (m' b) = node ∧ ∀ c ≠ b, m' c = m c := by
  by_cases htype : blockType (m b) = BlockType.btreeNode.code
  · refine ensures_of_run (run_btreeNodeWrite h htype) fun _ => ⟨?_, fun c hc => ?_⟩
    · rw [Function.update_self, BTreeNode.ofPage_toPage]
    · exact Function.update_of_ne hc _ _
  · have hrun : run disk.mapping (btreeNodeWrite node) m = some (-1, m) := by
      rw [btreeNodeWrite, run_bind_of_eq (run_fetch _ _), run_bind_of_eq (run_page h),
        if_pos htype, run_pure]
    exact ensures_of_run hrun fun hzero => absurd hzero (by decide)

theorem ensures_btreeNodeCopy (block : UInt64) :
    Ensures disk.mapping (btreeNodeCopy block) m fun _ m' => m' = m := by
  refine ensures_bind (ensures_fetch_bind (ensures_page_bind fun b _ => ?_))
  split
  · exact ensures_pure ensures_crash
  · exact ensures_pure (ensures_pure rfl)

theorem ensures_childSlot (block : UInt64) {n i : ℕ} :
    Ensures disk.mapping (childSlot node block n i) m fun _ m' => m' = m := by
  induction n generalizing i with
  | zero => exact ensures_pure rfl
  | succ n ih =>
      refine ensures_bind ?_
      rw [inNode]
      split
      · refine ensures_pure ?_
        split
        · exact ensures_pure rfl
        · exact ih
      · exact ensures_crash

/-- The search for a child of its parent ends within the words of the node and reads only. -/
theorem exists_run_childSlot (block : UInt64) {n i : ℕ} (h : i + n ≤ maxKeys + 1) :
    ∃ slot, run disk.mapping (childSlot node block n i) m = some (slot, m) := by
  induction n generalizing i with
  | zero => exact ⟨i, rfl⟩
  | succ n ih =>
      have hin : maxKeys + i < nodeWords := by
        simp only [nodeWords, maxKeys] at *
        omega
      rw [childSlot, run_bind_of_eq (inNode_of_lt hin)]
      split
      · exact ⟨i, rfl⟩
      · exact ih (by omega)

/-- What is left of a split child lists children that it had before. -/
theorem Moved.childAt_low {m₁ : Image} (W : Moved disk m m₁ m' K child child' b) {i : ℕ}
    (hi : i ≤ maxKeys) (hne : child'.childAt i ≠ 0) : child'.childAt i = child.childAt i := by
  by_cases hlt : i < minKeys + 1
  · rw [W.low.child i hlt, Nat.add_zero, childAt_setRightSibling hi]
  · exact absurd (W.low.childPast i (by omega) hi) hne

/-- The two nodes that a split root lists were free before. -/
theorem RootSplit.clear_of_child {root root' : BTreeNode} {a b : ℕ}
    (h : RootSplit m m' root root' a b) {i : ℕ} (hi : i ≤ maxKeys) (hne : root'.childAt i ≠ 0) :
    root'.childAt i = UInt64.ofNat a ∨ root'.childAt i = UInt64.ofNat b := by
  have hmem : root'.childAt i ∈ root'.children := by
    refine List.mem_filter.mpr ⟨List.mem_map_of_mem (List.mem_range.mpr (by omega)), ?_⟩
    exact decide_eq_true hne
  rw [h.listed] at hmem
  simpa using hmem

namespace FullParent

variable (P : FullParent disk m K r node index child)
include P

theorem erase : InUse disk m (K.erase r) := P.used.mono (Finset.erase_subset r K)

theorem toNat_number : node.blockNumber.toNat = r := by
  rw [P.number, UInt64.toNat_ofNat_of_lt' (lt_trans (P.used.lt r P.mem) disk.totalBlocks.toNat_lt)]

theorem behind_lt : blockBitmapBlocks disk.totalBlocks.toNat < disk.totalBlocks.toNat :=
  (P.used.behind r P.mem).trans (P.used.lt r P.mem)

/-- The copies that a split below a full parent leaves: the new sibling is none of the children that the
copy of the parent lists. -/
theorem ensures_split (hfree : HasPages disk m node) :
    Ensures disk.mapping (btreeSplitChild disk node index child) m fun s _ =>
      s.1.blockNumber = node.blockNumber ∧ s.2.blockNumber = child.blockNumber ∧
      s.2.parent = child.parent ∧ s.2.rightSibling ≠ 0 ∧
      ∀ i ≤ maxKeys, s.1.childAt i ≠ s.2.rightSibling := by
  intro s m' hrun
  obtain ⟨p, -, R⟩ := P.full
  obtain ⟨n, Rc⟩ := P.childFull
  -- without a page for it the sibling is a null pointer
  have hpos : 0 < nearFree disk m := by
    rcases hfree with hfree | hnear
    · split at hfree <;> omega
    · by_contra hzero
      have hnone : run disk.mapping (splitOff disk node child) m = none :=
        run_splitOff_none P.erase.area P.behind_lt hnear (by omega)
      rw [btreeSplitChild, callDepth, splitChildFrom, run_bind_of_none hnone] at hrun
      cases hrun
  obtain ⟨b, child', m₁, m₂, hsplit, W⟩ := Rc.exists_splitOff P.erase hpos node
  have hcount := W.free
  have hbit := W.used.bit b (Finset.mem_insert_self b _)
  have R₂ : Full disk m₂ (insert b (K.erase r)) node p := {
    numKeys := R.numKeys
    occupied := R.occupied
    count := R.count
    tree := fun i hi => (W.tree (R.tree i hi)).mono (Finset.subset_insert b _)
    inj := R.inj }
  have hfull : ¬node.numKeys.toNat < maxKeys := by
    rw [R.numKeys]
    exact lt_irrefl _
  rw [btreeSplitChild, callDepth, run_splitChildFrom_full hsplit hfull] at hrun
  -- it is enough to look at the copy of the parent
  suffices h : ∃ node' m₃, run disk.mapping (enterSibling disk (UInt64.ofNat b) child' node') m₃ =
      some (s, m') ∧ node'.blockNumber = node.blockNumber ∧
      ∀ i ≤ maxKeys, node'.childAt i ≠ UInt64.ofNat b by
    obtain ⟨node', m₃, henter, hnumber, hchild⟩ := h
    obtain rfl := ensures_enterSibling _ _ _ henter
    refine ⟨hnumber, W.blockNumber, W.parent, ?_, ?_⟩
    · rw [W.right]
      exact W.number
    · simp only [W.right]
      exact hchild
  by_cases hroot : node.parent = 0
  swap
  · -- the parent's parent takes half of the children of the parent away
    rw [if_pos hroot] at hrun
    rw [HasPages, if_neg hroot] at hfree
    obtain ⟨grandparent, m₃, hcopy, hrest⟩ := run_bind_eq_some.mp hrun
    obtain ⟨slot, m₄, hslot, hrest⟩ := run_bind_eq_some.mp hrest
    obtain ⟨t, m₅, hrec, hrest⟩ := run_bind_eq_some.mp hrest
    obtain ⟨_, m₆, -, henter⟩ := run_bind_eq_some.mp hrest
    obtain rfl := ensures_btreeNodeCopy _ _ _ hcopy
    obtain rfl := ensures_childSlot _ _ _ hslot
    obtain ⟨b', m₇, hsplit'⟩ := ensures_splitChildFrom _ _ _ hrec
    have hpos' : 0 < nearFree disk m₄ := by
      rcases hfree with hfree | hnear
      · omega
      · by_contra hzero
        rw [run_splitOff_none W.used.area P.behind_lt hnear (by omega)] at hsplit'
        cases hsplit'
    obtain ⟨b'', node', m₈, m₉, hsplit'', W'⟩ := R₂.exists_splitOff W.used hpos' grandparent
    obtain ⟨hpair, -⟩ := Prod.mk.inj (Option.some.inj (hsplit'.symm.trans hsplit''))
    obtain ⟨-, rfl⟩ := Prod.mk.inj hpair
    refine ⟨t.2, m₆, henter, W'.blockNumber, fun i hi heq => ?_⟩
    have hne : t.2.childAt i ≠ 0 := by
      rw [heq]
      exact W.number
    have hold := W'.childAt_low hi hne
    rw [heq] at hold
    have hmem := (R.trees hi (hold ▸ W.number)).mem
    rw [← hold, UInt64.toNat_ofNat_of_lt' (lt_trans W.lt disk.totalBlocks.toNat_lt)] at hmem
    exact W.not_mem hmem
  · -- the root lists two nodes that were created after the sibling
    rw [if_neg (not_not.mpr hroot)] at hrun
    rw [HasPages, if_pos hroot] at hfree
    obtain ⟨node', m₃, hroot', henter⟩ := run_bind_eq_some.mp hrun
    have htwo : 2 ≤ nearFree disk m₂ := by
      rcases hfree with hfree | hnear
      · omega
      · by_contra hless
        rw [run_btreeSplitRoot_none W.used.area P.behind_lt hnear (by omega)] at hroot'
        cases hroot'
    obtain ⟨m₃', root', a, a', hsplitRoot, S, hnumber, ⟨hlt, hlt'⟩, -, -⟩ :=
      btreeSplitRoot_children W.used htwo R₂
    obtain ⟨rfl, rfl⟩ := Prod.mk.inj (Option.some.inj (hroot'.symm.trans hsplitRoot))
    refine ⟨node', m₃, henter, hnumber, fun i hi heq => ?_⟩
    have hne : node'.childAt i ≠ 0 := by
      rw [heq]
      exact W.number
    obtain ⟨hclear, hclear', -⟩ := S.fresh
    have hwrap : ∀ x < disk.totalBlocks.toNat, (UInt64.ofNat x).toNat = x := fun x hx =>
      UInt64.toNat_ofNat_of_lt' (lt_trans hx disk.totalBlocks.toNat_lt)
    rcases S.clear_of_child hi hne with h | h
    · have hab := congrArg UInt64.toNat (heq.symm.trans h)
      rw [hwrap b W.lt, hwrap a hlt] at hab
      rw [← hab, hbit] at hclear
      cases hclear
    · have hab := congrArg UInt64.toNat (heq.symm.trans h)
      rw [hwrap b W.lt, hwrap a' hlt'] at hab
      rw [← hab, hbit] at hclear'
      cases hclear'

/-- Below a full root the calls return. -/
theorem exists_run_root (hroot : node.parent = 0) (hfree : 3 ≤ nearFree disk m) :
    ∃ node' child' m₁ m₂ m₃,
      run disk.mapping (btreeSplitChild disk node index child) m = some ((node', child'), m₁) ∧
      run disk.mapping (btreeNodeWrite node') m₁ = some (0, m₂) ∧
      run disk.mapping (btreeNodeWrite child') m₂ = some (0, m₃) := by
  have hmax : maxKeys = 250 := rfl
  obtain ⟨p, hindex, R⟩ := P.full
  obtain ⟨n, Rc⟩ := P.childFull
  obtain ⟨b, child', m₁, m₂, hsplit, W⟩ := Rc.exists_splitOff P.erase (by omega) node
  -- the same step, with the page of the parent counted in
  obtain ⟨b', _, _, m₂', hsplit', W'⟩ :=
    (Rc.mono (Finset.erase_subset r K)).exists_splitOff P.used (by omega) node
  obtain ⟨-, rfl⟩ := Prod.mk.inj (Option.some.inj (hsplit.symm.trans hsplit'))
  have hbit := W'.used.bit r (Finset.mem_insert_of_mem P.mem)
  have hbr : r ≠ b := fun h => by
    have hset := P.used.bit r P.mem
    rw [h, W.clear] at hset
    cases hset
  have hpage₂ : m₂ r = m r := W.other r (P.used.behind r P.mem) (Finset.notMem_erase r K) hbr
  have hcount := W.free
  have R₂ : Full disk m₂ (insert b (K.erase r)) node p := {
    numKeys := R.numKeys
    occupied := R.occupied
    count := R.count
    tree := fun i hi => (W.tree (R.tree i hi)).mono (Finset.subset_insert b _)
    inj := R.inj }
  obtain ⟨m₃, node', a, a', hsplitRoot, S, E⟩ := btreeSplitRoot_children W.used (by omega) R₂
  have hmem : r ∉ insert b (K.erase r) := fun h => by
    rcases Finset.mem_insert.mp h with h | h
    · exact hbr h
    · exact Finset.notMem_erase r K h
  have hpage₃ : m₃ r = m r := by
    rw [E.other r (P.used.behind r P.mem) hmem (fun h => ?_) fun h => ?_, hpage₂]
    · rw [h, S.fresh.1] at hbit
      cases hbit
    · rw [h, S.fresh.2.1] at hbit
      cases hbit
  -- the parent is read from its page, and written back as it is
  have hnode₃ : IsNode disk.mapping m₃ r := ⟨P.isNode.addr, by rw [hpage₃]; exact P.isNode.type⟩
  have hread : run disk.mapping (btreeNodeCopy child'.parent) m₃ = some (node, m₃) := by
    have hcopy := hnode₃.run_copy
    rwa [hpage₃, P.page, ← P.number, ← P.parent, ← W.parent] at hcopy
  obtain ⟨slot, hslot⟩ : ∃ slot, run disk.mapping
      (childSlot node child'.blockNumber (node.numKeys.toNat + 1) 0) m₃ = some (slot, m₃) :=
    exists_run_childSlot _ (by rw [R.numKeys]; omega)
  obtain ⟨m₄, hwrite₄, -, htype₄, hother₄⟩ := hnode₃.exists_write P.number
  have hnode₄ : IsNode disk.mapping m₄ r := ⟨P.isNode.addr, htype₄⟩
  obtain ⟨m₅, hwrite₅, -, -, hother₅⟩ := hnode₄.exists_write (E.blockNumber.trans P.number)
  -- the page of the child
  have T := W.tree (R.tree index hindex)
  have hne : (node.childAt index).toNat ≠ r := Finset.ne_of_mem_erase T.mem
  have htype := (E.same _ (Finset.mem_insert_of_mem T.mem)).type
  have hnode₅ : IsNode disk.mapping m₅ (node.childAt index).toNat := by
    refine ⟨T.isNode.addr, ?_⟩
    rw [hother₅ _ hne, hother₄ _ hne, htype]
    exact T.isNode.type
  have hnumber : child'.blockNumber = UInt64.ofNat (node.childAt index).toNat := by
    rw [W.blockNumber, ← P.childPage]
    exact (R.tree index hindex).blockNumber
  obtain ⟨m₆, hwrite₆, -⟩ := hnode₅.exists_write hnumber
  refine ⟨node', child', m₄, m₅, m₆, ?_, hwrite₅, hwrite₆⟩
  have hfull : ¬node.numKeys.toNat < maxKeys := by
    rw [R.numKeys]
    exact lt_irrefl _
  rw [btreeSplitChild, callDepth, run_splitChildFrom_full hsplit hfull,
    if_neg (not_not.mpr hroot), run_bind_of_eq hsplitRoot, enterSibling, run_bind_of_eq hread,
    run_bind_of_eq hslot, if_neg hfull]
  exact run_bind_of_eq hwrite₄

/-- When the copies were written, the new sibling is not listed. -/
theorem not_siblingListed (hfree : HasPages disk m node)
    {node' child' : BTreeNode} {m₁ m₂ m₃ : Image}
    (hrun : run disk.mapping (btreeSplitChild disk node index child) m = some ((node', child'), m₁))
    (hwrite : run disk.mapping (btreeNodeWrite node') m₁ = some (0, m₂))
    (hwrite' : run disk.mapping (btreeNodeWrite child') m₂ = some (0, m₃)) :
    ¬SiblingListed m₃ child' := by
  rintro ⟨i, hi, -, hlisted⟩
  obtain ⟨hnumber, hnumber', hparent, -, hnone⟩ := P.ensures_split hfree _ _ hrun
  obtain ⟨p, hindex, R⟩ := P.full
  have T := R.tree index hindex
  have hc : child.blockNumber.toNat = (node.childAt index).toNat := by
    rw [← P.childPage, T.blockNumber, UInt64.ofNat_toNat]
  have hne : (node.childAt index).toNat ≠ r := Finset.ne_of_mem_erase T.mem
  have haddr : disk.mapping.addr child.blockNumber = some (node.childAt index).toNat := by
    rw [← P.childPage, T.blockNumber]
    exact T.isNode.addr
  -- the pages of the child and of its parent
  obtain ⟨hpage, -⟩ := ensures_btreeNodeWrite (hnumber ▸ P.number ▸ P.isNode.addr) _ _ hwrite rfl
  obtain ⟨hpage', hother'⟩ := ensures_btreeNodeWrite (hnumber' ▸ haddr) _ _ hwrite' rfl
  rw [hnumber', hc, hpage', hparent, P.parent, P.toNat_number, hother' r hne.symm, hpage]
    at hlisted
  exact hnone (i + 1) hi hlisted

end FullParent

/-- A split below a full parent never keeps the tree: the new sibling is not listed. -/
theorem not_splitKeeps (P : FullParent disk m K r node index child)
    (hfree : HasPages disk m node) (top : ℕ) :
    ¬SplitKeeps disk m top node index child := by
  rintro ⟨node', child', m₁, m₂, m₃, hrun, hwrite, hwrite', hlisted, -⟩
  exact P.not_siblingListed hfree hrun hwrite hwrite' hlisted

/-! ## On a full tree of two levels -/

/-- The root of a full tree of two levels and one of its nodes. -/
theorem fullParent_putTwoLevels {i : ℕ} (hfit : r + twoLevelBlocks ≤ disk.addressable)
    (U : InUse disk (putTwoLevels m r) (twoLevelSet r)) (hi : i < maxKeys) :
    FullParent disk (putTwoLevels m r) (twoLevelSet r) r (BTreeNode.ofPage (putTwoLevels m r r)) i
      (BTreeNode.ofPage (putTwoLevels m r (r + 1 + i))) := by
  have hblocks : twoLevelBlocks = 62751 := rfl
  refine ⟨U, Finset.mem_Ico.mpr ⟨le_rfl, by omega⟩, isNode_putTwoLevels hfit le_rfl (by omega), rfl,
    ?_, ⟨maxKeys, hi, full_twoLevelRoot hfit⟩, ?_, ⟨maxKeys, full_twoLevelNode hfit hi⟩, ?_⟩
  · rw [page_root]
    rfl
  · rw [page_root, childAt_fullNode hi, nodeBlock_toNat hfit hi]
  · rw [page_root, page_node m r hi, parent_fullNode]
    rfl

/-- On a formatted volume of 131072 blocks there is room for such a tree. -/
theorem exists_twoLevels : ∃ m r, TreeShaped (DiskInterface.mapping ⟨131072, by decide⟩) m r ∧
    3 ≤ nearFree ⟨131072, by decide⟩ m ∧ (BTreeNode.ofPage (m r)).parent = 0 ∧
    ∃ K c, FullParent ⟨131072, by decide⟩ m K r (BTreeNode.ofPage (m r)) 0
      (BTreeNode.ofPage (m c)) := by
  obtain ⟨m₀, -, F⟩ := run_diskFormat_blank ⟨131072, by decide⟩ 0 0 0
    (show ([] : List UInt8).length ≤ 31 by decide) (blank_zero _) (by decide) (by decide)
  have hblocks : twoLevelBlocks = 62751 := rfl
  obtain ⟨m, hbits, htype, -⟩ := exists_prefix (fun _ hb => F.blockBit_lt hb)
    (n := twoLevelBlocks) (by decide)
  have hfit : dataStart 131072 + 1 + twoLevelBlocks ≤
      DiskInterface.addressable ⟨131072, by decide⟩ := by decide
  have hbehind : blockBitmapBlocks 131072 < dataStart 131072 + 1 := by decide
  have A : BitmapArea ⟨131072, by decide⟩ m := {
    type := fun b h1 hb => (htype b).trans (F.bitmapArea.type b h1 hb)
    bit := fun b (hb : b ≤ blockBitmapBlocks 131072) => by
      have hlt : b < 131072 := lt_of_le_of_lt hb (by decide)
      rw [hbits b hlt]
      exact decide_eq_true (show b < dataStart 131072 + 1 + twoLevelBlocks by omega) }
  have U := inUse_putTwoLevels hfit A hbehind fun b hb => by
    have hlt : b < 131072 := lt_of_lt_of_le hb (by decide)
    rw [hbits b hlt]
    exact decide_eq_true hb
  refine ⟨putTwoLevels m (dataStart 131072 + 1), dataStart 131072 + 1,
    treeShaped_putTwoLevels hfit, ?_, ?_, _, _, fullParent_putTwoLevels hfit U (by decide)⟩
  · have hclear : ∀ b, dataStart 131072 + 1 + twoLevelBlocks ≤ b → b < 131072 →
        b ∈ (Finset.range (DiskInterface.addressable ⟨131072, by decide⟩)).filter fun b =>
          blockBit (putTwoLevels m (dataStart 131072 + 1)) b = false := fun b hlo hb => by
      refine Finset.mem_filter.mpr ⟨Finset.mem_range.mpr (lt_of_lt_of_le hb (by decide)), ?_⟩
      have hsame : blockBit (putTwoLevels m (dataStart 131072 + 1)) b = blockBit m b :=
        blockBit_putTwoLevels (show blockBitmapBlocks (DiskInterface.totalBlocks
          ⟨131072, by decide⟩).toNat < dataStart 131072 + 1 from hbehind) hb
      rw [hsame, hbits b hb]
      exact decide_eq_false (by show ¬b < dataStart 131072 + 1 + twoLevelBlocks; omega)
    exact Finset.two_lt_card.mpr ⟨131069, hclear _ (by decide) (by decide), 131070,
      hclear _ (by decide) (by decide), 131071, hclear _ (by decide) (by decide), by decide,
      by decide, by decide⟩
  · rw [page_root, parent_fullNode]

/-- There the split of the first child below the full root does not keep the tree. -/
theorem not_splitKeeps_131072 : ∃ m r K c,
    TreeShaped (DiskInterface.mapping ⟨131072, by decide⟩) m r ∧
    FullParent ⟨131072, by decide⟩ m K r (BTreeNode.ofPage (m r)) 0 (BTreeNode.ofPage (m c)) ∧
    ¬SplitKeeps ⟨131072, by decide⟩ m r (BTreeNode.ofPage (m r)) 0 (BTreeNode.ofPage (m c)) := by
  obtain ⟨m, r, hshaped, hfree, hroot, K, c, P⟩ := exists_twoLevels
  exact ⟨m, r, K, c, hshaped, P, not_splitKeeps P (Or.inr (by decide)) r⟩

/-- There the split returns and its copies are written, and the new sibling is not listed. -/
theorem splitKeeps_fails_131072 : ∃ m r K c node' child' m₁ m₂ m₃,
    TreeShaped (DiskInterface.mapping ⟨131072, by decide⟩) m r ∧
    FullParent ⟨131072, by decide⟩ m K r (BTreeNode.ofPage (m r)) 0 (BTreeNode.ofPage (m c)) ∧
    run (DiskInterface.mapping ⟨131072, by decide⟩) (btreeSplitChild ⟨131072, by decide⟩
      (BTreeNode.ofPage (m r)) 0 (BTreeNode.ofPage (m c))) m = some ((node', child'), m₁) ∧
    run (DiskInterface.mapping ⟨131072, by decide⟩) (btreeNodeWrite node') m₁ = some (0, m₂) ∧
    run (DiskInterface.mapping ⟨131072, by decide⟩) (btreeNodeWrite child') m₂ = some (0, m₃) ∧
    ¬SiblingListed m₃ child' ∧
    ¬SplitKeeps ⟨131072, by decide⟩ m r (BTreeNode.ofPage (m r)) 0 (BTreeNode.ofPage (m c)) := by
  obtain ⟨m, r, hshaped, hfree, hroot, K, c, P⟩ := exists_twoLevels
  have hfree' : HasPages ⟨131072, by decide⟩ m (BTreeNode.ofPage (m r)) := Or.inr (by decide)
  obtain ⟨node', child', m₁, m₂, m₃, hrun, hwrite, hwrite'⟩ := P.exists_run_root hroot hfree
  refine ⟨m, r, K, c, node', child', m₁, m₂, m₃, hshaped, P, hrun, hwrite, hwrite',
    P.not_siblingListed hfree' hrun hwrite hwrite', ?_⟩
  rintro ⟨_, _, _, _, _, hrun, hwrite, hwrite', hlisted, -⟩
  exact P.not_siblingListed hfree' hrun hwrite hwrite' hlisted

end Nbtrfs
