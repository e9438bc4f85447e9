import Nbtrfs.Btr.Search

/-!
# Trees of nodes

`Subtree M m h b leaves` says that block `b` is the root of a tree of nodes of height at most `h`
whose leaves are `leaves`, from left to right. It asks nothing of the keys, of the depth of the
leaves or of the positions of the children: this is all that a search depends on.
-/

namespace Nbtrfs

open BlockProg

/-- What a leaf node says, and its block. -/
structure Leaf where
  block : ℕ
  key : UInt64
  value : UInt64
  type : UInt32
deriving DecidableEq

namespace Leaf

/-- The leaf on a page. -/
def onPage (m : Image) (b : ℕ) : Leaf where
  block := b
  key := (BTreeNode.ofPage (m b)).key
  value := (BTreeNode.ofPage (m b)).value
  type := (BTreeNode.ofPage (m b)).type

/-- The block of the first leaf with the key, `0` if there is none. -/
def found (leaves : List Leaf) (key : UInt64) : UInt64 :=
  match leaves.find? fun l => l.key = key with
  | some l => UInt64.ofNat l.block
  | none => 0

@[simp] theorem found_nil (key : UInt64) : found [] key = 0 := rfl

theorem found_singleton (l : Leaf) (key : UInt64) :
    found [l] key = if l.key = key then UInt64.ofNat l.block else 0 := by
  unfold found
  by_cases h : l.key = key <;> simp [h]

/-- A search through two lists of leaves takes the second one only if the first has no such key. -/
theorem found_append {left right : List Leaf} {key : UInt64}
    (hne : ∀ l ∈ left, UInt64.ofNat l.block ≠ 0) :
    found (left ++ right) key =
      if found left key ≠ 0 then found left key else found right key := by
  unfold found
  rw [List.find?_append]
  cases h : left.find? fun l => l.key = key with
  | none => rfl
  | some l =>
      rw [Option.some_or]
      exact (if_pos (hne l (List.mem_of_find?_eq_some h))).symm

/-- The search returns 0 exactly for the keys that no leaf carries. -/
theorem found_eq_zero_iff {leaves : List Leaf} {key : UInt64}
    (hne : ∀ l ∈ leaves, UInt64.ofNat l.block ≠ 0) :
    found leaves key = 0 ↔ ∀ l ∈ leaves, l.key ≠ key := by
  unfold found
  cases h : leaves.find? fun l => l.key = key with
  | none => simpa using h
  | some l =>
      have hmem := List.mem_of_find?_eq_some h
      have hkey : l.key = key := by simpa using List.find?_some h
      exact ⟨fun h0 => absurd h0 (hne l hmem), fun hall => absurd hkey (hall l hmem)⟩

/-- A search that succeeds found a leaf with the key. -/
theorem exists_of_found_ne_zero {leaves : List Leaf} {key : UInt64} (h : found leaves key ≠ 0) :
    ∃ l ∈ leaves, l.key = key ∧ found leaves key = UInt64.ofNat l.block := by
  unfold found at *
  cases hfind : leaves.find? fun l => l.key = key with
  | none =>
      rw [hfind] at h
      exact absurd rfl h
  | some l => exact ⟨l, List.mem_of_find?_eq_some hfind, by simpa using List.find?_some hfind, rfl⟩

end Leaf

/-- Block `b` is a node of the device. -/
structure IsNode (M : Mapping) (m : Image) (b : ℕ) : Prop where
  addr : M.addr (UInt64.ofNat b) = some b
  type : blockType (m b) = BlockType.btreeNode.code

variable {M : Mapping} {m : Image} {b : ℕ}

theorem IsNode.run_copy (h : IsNode M m b) :
    run M (btreeNodeCopy (UInt64.ofNat b)) m = some (BTreeNode.ofPage (m b), m) :=
  run_btreeNodeCopy h.addr h.type

theorem IsNode.exists_write (h : IsNode M m b) {node : BTreeNode}
    (hblock : node.blockNumber = UInt64.ofNat b) :
    ∃ m', run M (btreeNodeWrite node) m = some (0, m') ∧ BTreeNode.ofPage (m' b) = node ∧
      blockType (m' b) = BlockType.btreeNode.code ∧ ∀ c ≠ b, m' c = m c := by
  refine ⟨_, run_btreeNodeWrite (hblock ▸ h.addr) h.type, ?_, ?_, fun c hc => ?_⟩
  · rw [Function.update_self, BTreeNode.ofPage_toPage]
  · rw [Function.update_self, BTreeNode.blockType_toPage, h.type]
  · exact Function.update_of_ne hc _ _

theorem IsNode.exists_edit (h : IsNode M m b) (f : BTreeNode → BTreeNode) :
    ∃ m', run M (editNode (UInt64.ofNat b) f) m = some ((), m') ∧
      BTreeNode.ofPage (m' b) = f (BTreeNode.ofPage (m b)) ∧
      blockType (m' b) = BlockType.btreeNode.code ∧ ∀ c ≠ b, m' c = m c := by
  obtain ⟨m', hrun, hpage, hother⟩ := exists_run_editNode f h.addr
  refine ⟨m', hrun, ?_, ?_, hother⟩
  · rw [hpage, BTreeNode.ofPage_toPage]
  · rw [hpage, BTreeNode.blockType_toPage, h.type]

theorem IsNode.run_nodeAt (h : IsNode M m b) :
    run M (nodeAt (UInt64.ofNat b)) m = some (BTreeNode.ofPage (m b), m) := by
  rw [nodeAt, run_bind_of_eq (run_page h.addr), run_pure]

/-- Block `b` is a tree of height at most `h` with the given leaves. -/
inductive Subtree (M : Mapping) (m : Image) : ℕ → ℕ → List Leaf → Prop
  | leaf {h b : ℕ} (hnode : IsNode M m b) (hne : UInt64.ofNat b ≠ 0)
      (hleaf : (BTreeNode.ofPage (m b)).isLeaf ≠ 0)
      (hblock : (BTreeNode.ofPage (m b)).blockNumber = UInt64.ofNat b) :
      Subtree M m h b [Leaf.onPage m b]
  | node {h b : ℕ} (below : ℕ → List Leaf) (hnode : IsNode M m b)
      (hleaf : (BTreeNode.ofPage (m b)).isLeaf = 0)
      (hkeys : (BTreeNode.ofPage (m b)).numKeys.toNat ≤ maxKeys)
      (hnone : ∀ i ≤ (BTreeNode.ofPage (m b)).numKeys.toNat,
        (BTreeNode.ofPage (m b)).childAt i = 0 → below i = [])
      (hbelow : ∀ i ≤ (BTreeNode.ofPage (m b)).numKeys.toNat,
        (BTreeNode.ofPage (m b)).childAt i ≠ 0 →
          Subtree M m h ((BTreeNode.ofPage (m b)).childAt i).toNat (below i)) :
      Subtree M m (h + 1) b
        ((List.range' 0 ((BTreeNode.ofPage (m b)).numKeys.toNat + 1)).flatMap below)

/-- No leaf of a tree is the superblock, whose number stands for a missing child. -/
theorem Subtree.block_ne_zero {h : ℕ} {leaves : List Leaf} (T : Subtree M m h b leaves) :
    ∀ l ∈ leaves, UInt64.ofNat l.block ≠ 0 := by
  induction T with
  | leaf hnode hne hleaf hblock =>
      intro l hl
      rw [List.mem_singleton] at hl
      rw [hl]
      exact hne
  | @node h b below hnode hleaf hkeys hnone hbelow ih =>
      intro l hl
      obtain ⟨i, hi, hl⟩ := List.mem_flatMap.mp hl
      rw [List.mem_range'_1] at hi
      by_cases hchild : (BTreeNode.ofPage (m b)).childAt i = 0
      · rw [hnone i (by omega) hchild] at hl
        cases hl
      · exact ih i (by omega) hchild l hl

theorem inNode_of_lt {i : ℕ} (hi : i < nodeWords) : run M (inNode i) m = some ((), m) := by
  rw [inNode, if_pos hi, run_pure]

/-- The loop over the children finds the first leaf below them. -/
theorem run_searchChildren {search : UInt64 → BlockProg UInt64} {node : BTreeNode}
    {below : ℕ → List Leaf} {key : UInt64} {n i : ℕ} (hn : i + n ≤ maxKeys + 1)
    (hnone : ∀ j, i ≤ j → j < i + n → node.childAt j = 0 → below j = [])
    (hne : ∀ j, i ≤ j → j < i + n → ∀ l ∈ below j, UInt64.ofNat l.block ≠ 0)
    (hsearch : ∀ j, i ≤ j → j < i + n → node.childAt j ≠ 0 →
      run M (search (node.childAt j)) m = some (Leaf.found (below j) key, m)) :
    run M (searchChildren search node n i) m =
      some (Leaf.found ((List.range' i n).flatMap below) key, m) := by
  induction n generalizing i with
  | zero => rfl
  | succ n ih =>
      have hrec := @ih (i + 1) (by omega) (fun j hlo hhi => hnone j (by omega) (by omega))
        (fun j hlo hhi => hne j (by omega) (by omega))
        (fun j hlo hhi => hsearch j (by omega) (by omega))
      have hin : maxKeys + i < nodeWords := by
        simp only [nodeWords, maxKeys] at *
        omega
      rw [searchChildren, run_bind_of_eq (inNode_of_lt hin), List.range'_succ, List.flatMap_cons,
        Leaf.found_append (hne i le_rfl (by omega))]
      by_cases hchild : node.childAt i = 0
      · rw [if_neg (not_not.mpr hchild), hnone i le_rfl (by omega) hchild, Leaf.found_nil,
          if_neg (not_not.mpr rfl)]
        exact hrec
      · rw [if_pos hchild, run_bind_of_eq (hsearch i le_rfl (by omega) hchild)]
        by_cases hzero : Leaf.found (below i) key = 0
        · rw [if_neg (not_not.mpr hzero), if_neg (not_not.mpr hzero)]
          exact hrec
        · rw [if_pos hzero, if_pos hzero, run_pure]

/-- `btree_search` returns the block of the first leaf with the key. -/
theorem Subtree.run_searchFrom {h : ℕ} {leaves : List Leaf} (T : Subtree M m h b leaves)
    (key : UInt64) {fuel : ℕ} (hfuel : h < fuel) :
    run M (searchFrom fuel (UInt64.ofNat b) key) m = some (Leaf.found leaves key, m) := by
  induction T generalizing fuel with
  | @leaf h b hnode hne hleaf hblock =>
      obtain ⟨fuel, rfl⟩ := Nat.exists_eq_succ_of_ne_zero (by omega : fuel ≠ 0)
      rw [searchFrom, run_bind_of_eq hnode.run_copy, if_pos hleaf, Leaf.found_singleton,
        Leaf.onPage, hblock]
      split <;> rw [run_pure]
  | @node h b below hnode hleaf hkeys hnone hbelow ih =>
      obtain ⟨fuel, rfl⟩ := Nat.exists_eq_succ_of_ne_zero (by omega : fuel ≠ 0)
      rw [searchFrom, run_bind_of_eq hnode.run_copy, if_neg (not_not.mpr hleaf)]
      refine run_searchChildren (by omega) (fun j _ hj => hnone j (by omega)) ?_ ?_
      · intro j _ hj l hl
        by_cases hchild : (BTreeNode.ofPage (m b)).childAt j = 0
        · rw [hnone j (by omega) hchild] at hl
          cases hl
        · exact (hbelow j (by omega) hchild).block_ne_zero l hl
      · intro j _ hj hchild
        have hrun := ih j (by omega) hchild (show h < fuel by omega)
        rwa [UInt64.ofNat_toNat] at hrun

end Nbtrfs
