import Nbtrfs.Btr.MapRuns
import Nbtrfs.Btr.Shape

/-!
# The shape of a B-tree over a run

From an empty root, insertions and deletions keep the shape of the tree as long as a full root is only
given a larger key than it has, and no deletion of another key passes a leaf with key 0: that one frees
the page of a leaf which stays in the tree.
-/

namespace Nbtrfs

open BlockProg

/-- One call on the tree at block `root`, on the volume alone. -/
def TreeOp.call (disk : DiskInterface) (root : UInt64) : TreeOp → Image → Option Image
  | insert key value type, m =>
      (run disk.mapping (btreeInsert disk root key value type) m).map Prod.snd
  | delete key, m => (run disk.mapping (btreeDelete disk root key) m).map Prod.snd

/-- There is a free page for a new leaf. -/
def TreeOp.HasPage (disk : DiskInterface) : TreeOp → Image → Prop
  | insert _ _ _, m => ∃ b < disk.totalBlocks.toNat, blockBit m b = false
  | delete _, _ => True

/-- The first free block has a number below `2 ^ 19`, and a full root is only given a larger key. A
deletion is of key 0, or of a key that the root has not, or of a tree without key 0. -/
def TreeOp.KeepsShape (disk : DiskInterface) (root : UInt64) : TreeOp → Image → Prop
  | insert key _ _, m => (∃ f, FirstFree disk m f) ∧
      ((BTreeNode.ofPage (m root.toNat)).numKeys.toNat < maxKeys ∨
        (BTreeNode.ofPage (m root.toNat)).keyAt (maxKeys - 1) < key)
  | delete key, m => key = 0 ∨ (BTreeNode.ofPage (m root.toNat)).keyAt 0 ≠ 0 ∨
      ∀ i < (BTreeNode.ofPage (m root.toNat)).numKeys.toNat,
        (BTreeNode.ofPage (m root.toNat)).keyAt i ≠ key

variable {disk : DiskInterface} {r : ℕ} {m : Image} {leaves : List Leaf}

theorem FlatTree.toNat_root (T : FlatTree disk m r leaves) : (UInt64.ofNat r).toNat = r := by
  have hlt := T.root_lt
  have hwrap := addressable_le disk
  exact toNat_ofNat_block (by omega)

theorem FlatTree.treeShaped (T : FlatTree disk m r leaves) : TreeShaped disk.mapping m r :=
  ⟨1, leaves, T.shaped, T.sorted⟩

/-- In a tree without key 0 among the keys of its root no leaf has key 0. -/
theorem FlatTree.key_ne_zero (T : FlatTree disk m r leaves)
    (h : (BTreeNode.ofPage (m r)).keyAt 0 ≠ 0) : ∀ l ∈ leaves, l.key ≠ 0 := by
  cases leaves with
  | nil => exact fun l hl => absurd hl List.not_mem_nil
  | cons head rest =>
      have hhead : head.key ≠ 0 := by
        have hkey := T.keys 0 (Nat.succ_pos _)
        rwa [hkey] at h
      intro l hl hzero
      rcases List.mem_cons.mp hl with rfl | hl
      · exact hhead hzero
      · have hle := (List.pairwise_cons.mp T.sorted).1 l hl
        rw [hzero] at hle
        exact hhead (UInt64.le_antisymm hle UInt64.zero_le)

/-- A key that no leaf has is not found. -/
theorem FlatTree.found_eq_zero (T : FlatTree disk m r leaves) {key : UInt64}
    (h : ∀ i < (BTreeNode.ofPage (m r)).numKeys.toNat, (BTreeNode.ofPage (m r)).keyAt i ≠ key) :
    Leaf.found leaves key = 0 := by
  refine (Leaf.found_eq_zero_iff fun l hl => (T.leaf l hl).number_ne_zero).mpr fun l hl hkey => ?_
  obtain ⟨i, hi, rfl⟩ := List.mem_iff_getElem.mp hl
  refine h i (by rwa [T.root.numKeys]) ?_
  rw [T.keys i hi, keyOf_of_getElem? (List.getElem?_eq_getElem hi), hkey]

/-- A call that meets the condition leaves a flat tree. -/
theorem TreeOp.call_of_keepsShape (op : TreeOp) (h : ∃ leaves, FlatTree disk m r leaves)
    (hop : op.KeepsShape disk (UInt64.ofNat r) m) :
    ∃ m', op.call disk (UInt64.ofNat r) m = some m' ∧ ∃ leaves, FlatTree disk m' r leaves := by
  obtain ⟨leaves, T⟩ := h
  cases op with
  | insert key value type =>
      obtain ⟨⟨f, H⟩, hroom⟩ := hop
      rw [T.toNat_root, T.root.numKeys] at hroom
      by_cases hlt : leaves.length < maxKeys
      · obtain ⟨m', hrun, T', -⟩ := T.insert H hlt key value type
        exact ⟨m', by rw [call, hrun]; rfl, _, T'⟩
      · have hfull : leaves.length = maxKeys := le_antisymm T.root.le (not_lt.mp hlt)
        have hkey := hroom.resolve_left hlt
        rw [T.keys _ (by rw [hfull]; decide)] at hkey
        obtain ⟨m', hrun, T'⟩ := T.insert_full H hfull hkey value type
        exact ⟨m', by rw [call, hrun]; rfl, _, T'⟩
  | delete key =>
      by_cases hfound : Leaf.found leaves key = 0
      · exact ⟨m, by rw [call, T.run_btreeDelete_absent hfound]; rfl, _, T⟩
      · have hzero : key = 0 ∨ ∀ l ∈ leaves, l.key ≠ 0 := by
          rcases hop with h0 | hne | habsent
          · exact Or.inl h0
          · rw [T.toNat_root] at hne
            exact Or.inr (T.key_ne_zero hne)
          · rw [T.toNat_root] at habsent
            exact absurd (T.found_eq_zero habsent) hfound
        obtain ⟨m', front, l, back, -, -, hrun, T'⟩ := T.delete hzero hfound
        exact ⟨m', by rw [call, hrun]; rfl, _, T'⟩

/-! ## A page that is freed while its leaf stays in the tree -/

/-- The root lists blocks: it does not depend on what the leaves say. -/
theorem FlatNode.congr {node : BTreeNode} {leaves' : List Leaf} (N : FlatNode node r leaves)
    (h : leaves'.map Leaf.block = leaves.map Leaf.block) : FlatNode node r leaves' := by
  have hlen : leaves'.length = leaves.length := by
    have hmap := congrArg List.length h
    rwa [List.length_map, List.length_map] at hmap
  have hblock : ∀ i, blockOf leaves' i = blockOf leaves i := fun i => by
    have hget : leaves'[i]?.map Leaf.block = leaves[i]?.map Leaf.block := by
      rw [← List.getElem?_map, h, List.getElem?_map]
    have hsplit : ∀ o : Option Leaf, (o.map fun l => UInt64.ofNat l.block) =
        (o.map Leaf.block).map UInt64.ofNat := fun o => by
      rw [Option.map_map]
      rfl
    rw [blockOf, blockOf, hsplit, hsplit, hget]
  exact {
    blockNumber := N.blockNumber
    isLeaf := N.isLeaf
    numKeys := by rw [hlen, N.numKeys]
    le := by rw [hlen]; exact N.le
    child := fun i hi => by rw [hblock, N.child i hi]
    parent := N.parent
    past := fun i hlo hhi => N.past i (by omega) hhi }

/-- When the first free page is the page of a leaf, the next leaf overwrites that leaf: the root lists
the page twice. -/
theorem FlatPages.insert_reused {front back : List Leaf} {l : Leaf} {f : ℕ}
    (P : FlatPages disk m r (front ++ l :: back)) (A : BitmapArea disk m)
    (H : FirstFree disk m f) (hblock : l.block = f)
    (hbehind : blockBitmapBlocks disk.totalBlocks.toNat < r ∧
      ∀ x ∈ front ++ back, blockBitmapBlocks disk.totalBlocks.toNat < x.block ∧ x.block ≠ f)
    (hroom : (front ++ l :: back).length < maxKeys) (key value : UInt64) (type : UInt32) :
    ∃ m', run disk.mapping (btreeInsert disk (UInt64.ofNat r) key value type) m = some (0, m') ∧
      FlatPages disk m' r (insertLeaf (front ++ ⟨f, key, value, type⟩ :: back)
        ⟨f, key, value, type⟩) := by
  obtain ⟨m₁, hnew, L, hother⟩ := H.exists_newLeaf A key value type
  have hmem : l ∈ front ++ l :: back := List.mem_append_right _ (List.mem_cons_self ..)
  have hroot : m₁ r = m r := by
    rw [hother r (hblock ▸ (P.block_ne hmem).symm), takeBlock_of_behind H.lt_total hbehind.1]
  have hold : ∀ x ∈ front ++ back, m₁ x.block = m x.block := fun x hx => by
    rw [hother _ (hbehind.2 x hx).2, takeBlock_of_behind H.lt_total (hbehind.2 x hx).1]
  have hsub : ∀ x ∈ front ++ back, x ∈ front ++ l :: back := fun x hx =>
    (List.Sublist.append_left (List.sublist_cons_self l back) front).subset hx
  have hcases : ∀ x ∈ front ++ (⟨f, key, value, type⟩ : Leaf) :: back,
      x = ⟨f, key, value, type⟩ ∨ x ∈ front ++ back := fun x hx => by
    rcases List.mem_append.mp hx with hx | hx
    · exact Or.inr (List.mem_append_left _ hx)
    · exact (List.mem_cons.mp hx).imp_right fun hx => List.mem_append_right _ hx
  have F : FlatShape disk m₁ r (front ++ (⟨f, key, value, type⟩ : Leaf) :: back) := {
    root_pos := P.root_pos
    root_lt := P.root_lt
    root_type := by rw [hroot, P.root_type]
    root := by
      rw [hroot]
      refine P.root.congr ?_
      rw [List.map_append, List.map_append, List.map_cons, List.map_cons, hblock]
    leaf := fun x hx => by
      rcases hcases x hx with rfl | hx
      · exact L
      · exact (P.leaf x (hsub x hx)).congr (hold x hx) }
  obtain ⟨m', hrun, P', -⟩ := F.run_btreeInsert hnew L (by
      simpa only [List.length_append, List.length_cons] using hroom) fun x hx hne => by
    rcases hcases x hx with rfl | hx
    · exact absurd rfl hne
    · rw [hold x hx, P.parent x (hsub x hx)]
  exact ⟨m', hrun, P'⟩

/-! ## Runs from an empty tree -/

/-- A tree that starts empty keeps its shape in every run whose calls meet the condition. -/
theorem treeRun_treeShaped {m₀ : Image} {root : UInt64} (harea : BitmapArea disk m₀)
    (hfree : ∃ f, FirstFree disk m₀ f)
    (hroot : run disk.mapping (btreeNodeCreate disk false) m₀ = some (root, m))
    {ops : List TreeOp} (hpage : Admits (TreeOp.call disk root) (TreeOp.HasPage disk) ops m)
    (hkeep : Admits (TreeOp.call disk root) (TreeOp.KeepsShape disk root) ops m) :
    TreeShaped disk.mapping m root.toNat ∧
      SafeRun (TreeOp.call disk root) (fun _ _ m' => TreeShaped disk.mapping m' root.toNat) ops
        m := by
  obtain ⟨r, H⟩ := hfree
  obtain ⟨m', hrun, T, -⟩ := H.exists_root harea
  obtain ⟨rfl, rfl⟩ := Prod.mk.inj (Option.some.inj (hroot.symm.trans hrun))
  rw [T.toNat_root]
  refine ⟨T.treeShaped, ?_⟩
  refine SafeRun.of_invariant (fun m => ∃ leaves, FlatTree disk m r leaves) ?_ ⟨[], T⟩
    (hpage.and hkeep)
  rintro op m h ⟨-, hop⟩
  obtain ⟨m', hcall, leaves, T'⟩ := op.call_of_keepsShape h hop
  exact ⟨m', hcall, T'.treeShaped, leaves, T'⟩

/-- On a formatted volume of 256 blocks a new tree takes three keys, and loses the one in the middle. -/
theorem treeRun_treeShaped_256 : ∃ m root,
    SafeRun (TreeOp.call ⟨256, by decide⟩ root)
      (fun _ _ m' => TreeShaped (DiskInterface.mapping ⟨256, by decide⟩) m' root.toNat)
      [.insert 9 1 2, .insert 5 3 4, .insert 7 5 4, .delete 7] m := by
  obtain ⟨m₀, -, F⟩ := run_diskFormat_blank ⟨256, by decide⟩ 0 0 0
    (show ([] : List UInt8).length ≤ 31 by decide) (blank_zero _) (by decide) (by decide)
  obtain ⟨A, H, m, hroot, T, hbits⟩ := F.exists_tree (by decide)
  have H₁ : FirstFree ⟨256, by decide⟩ m _ := FirstFree.of_prefix (by decide) hbits
  obtain ⟨m₁, hrun₁, T₁, hset₁⟩ := T.insert H₁ (by decide) 9 1 2
  have hbits₁ := prefix_succ hbits hset₁
  have H₂ : FirstFree ⟨256, by decide⟩ m₁ _ := FirstFree.of_prefix (by decide) hbits₁
  obtain ⟨m₂, hrun₂, T₂, hset₂⟩ := T₁.insert H₂ (by decide) 5 3 4
  have H₃ : FirstFree ⟨256, by decide⟩ m₂ _ :=
    FirstFree.of_prefix (by decide) (prefix_succ hbits₁ hset₂)
  obtain ⟨m₃, hrun₃, T₃, -⟩ := T₂.insert H₃ (by decide) 7 5 4
  have hroom : ∀ {n leaves}, FlatTree ⟨256, by decide⟩ n (dataStart 256 + 1) leaves →
      leaves.length < maxKeys →
      (BTreeNode.ofPage (n (UInt64.ofNat (dataStart 256 + 1)).toNat)).numKeys.toNat < maxKeys :=
    fun T hlen => by rwa [T.toNat_root, T.root.numKeys]
  refine ⟨m, _, And.right (treeRun_treeShaped A ⟨_, H⟩ hroot ?_ ?_)⟩
  · refine Admits.cons (by rw [TreeOp.call, hrun₁]; rfl) ⟨_, H₁.lt_total, H₁.clear⟩ ?_
    refine Admits.cons (by rw [TreeOp.call, hrun₂]; rfl) ⟨_, H₂.lt_total, H₂.clear⟩ ?_
    refine Admits.cons (by rw [TreeOp.call, hrun₃]; rfl) ⟨_, H₃.lt_total, H₃.clear⟩ ?_
    exact ⟨trivial, fun _ _ => trivial⟩
  · refine Admits.cons (by rw [TreeOp.call, hrun₁]; rfl)
      ⟨⟨_, H₁⟩, Or.inl (hroom T (by decide))⟩ ?_
    refine Admits.cons (by rw [TreeOp.call, hrun₂]; rfl)
      ⟨⟨_, H₂⟩, Or.inl (hroom T₁ (by decide))⟩ ?_
    refine Admits.cons (by rw [TreeOp.call, hrun₃]; rfl)
      ⟨⟨_, H₃⟩, Or.inl (hroom T₂ (by decide))⟩ ?_
    -- key 0 is not in the tree
    refine ⟨Or.inr (Or.inl ?_), fun _ _ => trivial⟩
    rw [T₃.toNat_root, T₃.keys 0 (by decide)]
    decide

/-- On the same volume keys 0, 5 and 9 are inserted, 5 is deleted and 100 is inserted: the leaves of
the tree are then 100, 9 and 100. -/
theorem not_treeRun_treeShaped_256 : ∃ m₀ m root,
    BitmapArea ⟨256, by decide⟩ m₀ ∧
    run (DiskInterface.mapping ⟨256, by decide⟩) (btreeNodeCreate ⟨256, by decide⟩ false) m₀ =
      some (root, m) ∧
    Admits (TreeOp.call ⟨256, by decide⟩ root) (TreeOp.HasPage ⟨256, by decide⟩)
      [.insert 0 1 2, .insert 5 1 2, .insert 9 1 2, .delete 5, .insert 100 1 2] m ∧
    ¬SafeRun (TreeOp.call ⟨256, by decide⟩ root)
      (fun _ _ m' => TreeShaped (DiskInterface.mapping ⟨256, by decide⟩) m' root.toNat)
      [.insert 0 1 2, .insert 5 1 2, .insert 9 1 2, .delete 5, .insert 100 1 2] m := by
  obtain ⟨m₀, -, F⟩ := run_diskFormat_blank ⟨256, by decide⟩ 0 0 0
    (show ([] : List UInt8).length ≤ 31 by decide) (blank_zero _) (by decide) (by decide)
  obtain ⟨A, -, m, hroot, T, hbits⟩ := F.exists_tree (by decide)
  have H₁ : FirstFree ⟨256, by decide⟩ m _ := FirstFree.of_prefix (by decide) hbits
  obtain ⟨m₁, hrun₁, T₁, hset₁⟩ := T.insert H₁ (by decide) 0 1 2
  have hbits₁ := prefix_succ hbits hset₁
  have H₂ : FirstFree ⟨256, by decide⟩ m₁ _ := FirstFree.of_prefix (by decide) hbits₁
  obtain ⟨m₂, hrun₂, T₂, hset₂⟩ := T₁.insert H₂ (by decide) 5 1 2
  have hbits₂ := prefix_succ hbits₁ hset₂
  have H₃ : FirstFree ⟨256, by decide⟩ m₂ _ := FirstFree.of_prefix (by decide) hbits₂
  obtain ⟨m₃, hrun₃, T₃, hset₃⟩ := T₂.insert H₃ (by decide) 9 1 2
  have hbits₃ := prefix_succ hbits₂ hset₃
  have htotal : (DiskInterface.totalBlocks ⟨256, by decide⟩).toNat = 256 := rfl
  have haddr : DiskInterface.addressable ⟨256, by decide⟩ = 256 := rfl
  have hlow : dataStart (DiskInterface.totalBlocks ⟨256, by decide⟩).toNat + 1 < 100 := by decide
  generalize dataStart (DiskInterface.totalBlocks ⟨256, by decide⟩).toNat + 1 = r at *
  -- the deletion of key 5 takes the leaf of key 0 out of the tree and frees the page of key 5
  have hleaves : insertLeaf (insertLeaf (insertLeaf [] ⟨r + 1, 0, 1, 2⟩) ⟨r + 1 + 1, 5, 1, 2⟩)
      ⟨r + 1 + 1 + 1, 9, 1, 2⟩ =
      [⟨r + 1, 0, 1, 2⟩, ⟨r + 1 + 1, 5, 1, 2⟩, ⟨r + 1 + 1 + 1, 9, 1, 2⟩] := rfl
  rw [hleaves] at T₃
  have hmem : (⟨r + 1 + 1, 5, 1, 2⟩ : Leaf) ∈
      [⟨r + 1, 0, 1, 2⟩, ⟨r + 1 + 1, 5, 1, 2⟩, ⟨r + 1 + 1 + 1, 9, 1, 2⟩] :=
    List.mem_cons_of_mem _ (List.mem_cons_self ..)
  have hfound : Leaf.found [⟨r + 1, 0, 1, 2⟩, ⟨r + 1 + 1, 5, 1, 2⟩, ⟨r + 1 + 1 + 1, 9, 1, 2⟩] 5 =
      UInt64.ofNat (r + 1 + 1) := rfl
  obtain ⟨m₄, hrun₄, P₄, A₄, hset₄⟩ := T₃.exists_delete hmem hfound (Nat.succ_pos _)
    (fun j hj => absurd hj (Nat.not_lt_zero j)) (fun h => h.2 rfl)
  have H₅ : FirstFree ⟨256, by decide⟩ m₄ (r + 1 + 1) := {
    lt := by omega
    clear := by
      rw [hset₄ _ (by omega)]
      exact if_pos rfl
    below := fun b hb => by
      rw [hset₄ b (by omega), if_neg (Nat.ne_of_lt hb), hbits₃ b (by omega)]
      exact decide_eq_true (by omega) }
  -- the next leaf is written to that page
  have hbehind : ∀ x ∈ [] ++ [(⟨r + 1 + 1 + 1, 9, 1, 2⟩ : Leaf)],
      blockBitmapBlocks (DiskInterface.totalBlocks ⟨256, by decide⟩).toNat < x.block ∧
        x.block ≠ r + 1 + 1 := by
    intro x hx
    rw [List.nil_append, List.mem_singleton] at hx
    subst hx
    refine ⟨(T₃.leaf_used _ ?_).1, by simp⟩
    exact List.mem_cons_of_mem _ (List.mem_cons_of_mem _ (List.mem_cons_self ..))
  have P₄' : FlatPages ⟨256, by decide⟩ m₄ r ([] ++ ⟨r + 1 + 1, 5, 1, 2⟩ ::
      [⟨r + 1 + 1 + 1, 9, 1, 2⟩]) := P₄
  obtain ⟨m₅, hrun₅, P₅⟩ := P₄'.insert_reused A₄ H₅ rfl ⟨T₃.root_used.1, hbehind⟩
    (show 2 < maxKeys by decide) 100 1 2
  refine ⟨m₀, m, _, A, hroot, ?_, ?_⟩
  · refine Admits.cons (by rw [TreeOp.call, hrun₁]; rfl) ⟨_, H₁.lt_total, H₁.clear⟩ ?_
    refine Admits.cons (by rw [TreeOp.call, hrun₂]; rfl) ⟨_, H₂.lt_total, H₂.clear⟩ ?_
    refine Admits.cons (by rw [TreeOp.call, hrun₃]; rfl) ⟨_, H₃.lt_total, H₃.clear⟩ ?_
    refine Admits.cons (by rw [TreeOp.call, hrun₄]; rfl) trivial ?_
    exact ⟨⟨_, H₅.lt_total, H₅.clear⟩, fun _ _ => trivial⟩
  · rintro ⟨s₁, hs₁, -, s₂, hs₂, -, s₃, hs₃, -, s₄, hs₄, -, s₅, hs₅, ⟨h, leaves, hshape, hsorted⟩, -⟩
    rw [TreeOp.call, hrun₁] at hs₁
    obtain rfl := Option.some.inj hs₁
    rw [TreeOp.call, hrun₂] at hs₂
    obtain rfl := Option.some.inj hs₂
    rw [TreeOp.call, hrun₃] at hs₃
    obtain rfl := Option.some.inj hs₃
    rw [TreeOp.call, hrun₄] at hs₄
    obtain rfl := Option.some.inj hs₄
    rw [TreeOp.call, hrun₅] at hs₅
    obtain rfl := Option.some.inj hs₅
    rw [T₃.toNat_root] at hshape
    have hins : leaves = [⟨r + 1 + 1, 100, 1, 2⟩, ⟨r + 1 + 1 + 1, 9, 1, 2⟩,
        ⟨r + 1 + 1, 100, 1, 2⟩] := P₅.eq_of_shaped hshape
    rw [hins] at hsorted
    have hle := (List.pairwise_cons.mp hsorted).1 _ (List.mem_cons_self ..)
    exact absurd hle (show ¬(100 : UInt64) ≤ 9 by decide)

end Nbtrfs
