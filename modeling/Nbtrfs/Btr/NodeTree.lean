import Nbtrfs.Btr.Insert
import Nbtrfs.Btr.FlatTree

/-!
# The pages of a tree of nodes

`NodeTree M m K b` says that block `b` is the root of a tree of nodes that lie in `K`, none of them
below itself. That is all that `btree_find_maximum` needs to return. The links between the nodes have
no part in it, so it is kept when a child is given to another parent.
-/

namespace Nbtrfs

open BlockProg

/-- Two pages that agree in what a descent reads: only the keys and the links may differ. -/
structure SameNode (pg pg' : Bytes) : Prop where
  type : blockType pg' = blockType pg
  blockNumber : (BTreeNode.ofPage pg').blockNumber = (BTreeNode.ofPage pg).blockNumber
  isLeaf : (BTreeNode.ofPage pg').isLeaf = (BTreeNode.ofPage pg).isLeaf
  numKeys : (BTreeNode.ofPage pg').numKeys = (BTreeNode.ofPage pg).numKeys
  child : ∀ i ≤ maxKeys, (BTreeNode.ofPage pg').childAt i = (BTreeNode.ofPage pg).childAt i

theorem SameNode.refl (pg : Bytes) : SameNode pg pg := ⟨rfl, rfl, rfl, rfl, fun _ _ => rfl⟩

theorem SameNode.trans {a b c : Bytes} (h : SameNode a b) (h' : SameNode b c) : SameNode a c where
  type := h'.type.trans h.type
  blockNumber := h'.blockNumber.trans h.blockNumber
  isLeaf := h'.isLeaf.trans h.isLeaf
  numKeys := h'.numKeys.trans h.numKeys
  child i hi := (h'.child i hi).trans (h.child i hi)

/-- Block `b` is a tree of nodes in `K`, without a node below itself. -/
inductive NodeTree (M : Mapping) (m : Image) : Finset ℕ → ℕ → Prop
  | leaf {K : Finset ℕ} {b : ℕ} (hmem : b ∈ K) (hnode : IsNode M m b)
      (hblock : (BTreeNode.ofPage (m b)).blockNumber = UInt64.ofNat b)
      (hleaf : (BTreeNode.ofPage (m b)).isLeaf ≠ 0) : NodeTree M m K b
  | node {K : Finset ℕ} {b : ℕ} (hmem : b ∈ K) (hnode : IsNode M m b)
      (hblock : (BTreeNode.ofPage (m b)).blockNumber = UInt64.ofNat b)
      (hleaf : (BTreeNode.ofPage (m b)).isLeaf = 0)
      (hkeys : (BTreeNode.ofPage (m b)).numKeys.toNat ≤ maxKeys)
      (hbelow : ∀ i ≤ (BTreeNode.ofPage (m b)).numKeys.toNat,
        (BTreeNode.ofPage (m b)).childAt i ≠ 0 →
          NodeTree M m (K.erase b) ((BTreeNode.ofPage (m b)).childAt i).toNat) : NodeTree M m K b

variable {M : Mapping} {m m' : Image} {K : Finset ℕ} {b : ℕ}

/-- The loop of `btree_find_maximum` returns if the calls for the children do. -/
theorem exists_run_maximumChild {findMaximum : UInt64 → BlockProg UInt64} {root : BTreeNode} {n : ℕ}
    (hn : n ≤ maxKeys + 1) (hchild : ∀ i < n, root.childAt i ≠ 0 →
      ∃ k, run M (findMaximum (root.childAt i)) m = some (k, m)) :
    ∃ k, run M (maximumChild findMaximum root n) m = some (k, m) := by
  induction n with
  | zero => exact ⟨0, rfl⟩
  | succ n ih =>
      have hin : maxKeys + n < nodeWords := by
        simp only [nodeWords, maxKeys] at *
        omega
      rw [maximumChild, run_bind_of_eq (inNode_of_lt hin)]
      by_cases hzero : root.childAt n = 0
      · rw [if_neg (not_not.mpr hzero)]
        exact ih (by omega) fun i hi => hchild i (by omega)
      · rw [if_pos hzero]
        exact hchild n (Nat.lt_succ_self n) hzero

namespace NodeTree

theorem mem (T : NodeTree M m K b) : b ∈ K := by
  cases T with
  | leaf hmem => exact hmem
  | node hmem => exact hmem

theorem isNode (T : NodeTree M m K b) : IsNode M m b := by
  cases T with
  | leaf _ hnode => exact hnode
  | node _ hnode => exact hnode

theorem blockNumber (T : NodeTree M m K b) :
    (BTreeNode.ofPage (m b)).blockNumber = UInt64.ofNat b := by
  cases T with
  | leaf _ _ hblock => exact hblock
  | node _ _ hblock => exact hblock

/-- `btree_find_maximum` returns and changes nothing. -/
theorem exists_run_maximumFrom (T : NodeTree M m K b) {fuel : ℕ} (hfuel : K.card ≤ fuel) :
    ∃ k, run M (maximumFrom fuel (UInt64.ofNat b)) m = some (k, m) := by
  induction T generalizing fuel with
  | @leaf K b hmem hnode hblock hleaf =>
      have hpos := Finset.card_pos.mpr ⟨b, hmem⟩
      obtain ⟨fuel, rfl⟩ := Nat.exists_eq_succ_of_ne_zero (by omega : fuel ≠ 0)
      rw [maximumFrom, run_bind_of_eq hnode.run_copy, if_pos hleaf]
      exact ⟨_, rfl⟩
  | @node K b hmem hnode hblock hleaf hkeys hbelow ih =>
      have hpos := Finset.card_pos.mpr ⟨b, hmem⟩
      have herase := Finset.card_erase_of_mem hmem
      obtain ⟨fuel, rfl⟩ := Nat.exists_eq_succ_of_ne_zero (by omega : fuel ≠ 0)
      rw [maximumFrom, run_bind_of_eq hnode.run_copy, if_neg (not_not.mpr hleaf)]
      refine exists_run_maximumChild (by omega) fun i hi hchild => ?_
      obtain ⟨k, hrun⟩ := ih i (by omega) hchild (show (K.erase b).card ≤ fuel by omega)
      rw [UInt64.ofNat_toNat] at hrun
      exact ⟨k, hrun⟩

/-- The tree is kept by what does not change its nodes. -/
theorem congr (T : NodeTree M m K b) (h : ∀ b ∈ K, SameNode (m b) (m' b)) : NodeTree M m' K b := by
  induction T with
  | @leaf K b hmem hnode hblock hleaf =>
      have hb := h b hmem
      exact leaf hmem ⟨hnode.addr, hb.type.trans hnode.type⟩ (hb.blockNumber.trans hblock)
        (by rwa [hb.isLeaf])
  | @node K b hmem hnode hblock hleaf hkeys hbelow ih =>
      have hb := h b hmem
      refine node hmem ⟨hnode.addr, hb.type.trans hnode.type⟩ (hb.blockNumber.trans hblock)
        (hb.isLeaf.trans hleaf) (by rwa [hb.numKeys]) fun i hi hchild => ?_
      rw [hb.numKeys] at hi
      rw [hb.child i (by omega)] at hchild ⊢
      exact ih i hi hchild fun c hc => h c (Finset.mem_of_mem_erase hc)

/-- More blocks may be allowed. -/
theorem mono {K' : Finset ℕ} (T : NodeTree M m K b) (h : K ⊆ K') : NodeTree M m K' b := by
  induction T generalizing K' with
  | leaf hmem hnode hblock hleaf => exact leaf (h hmem) hnode hblock hleaf
  | node hmem hnode hblock hleaf hkeys hbelow ih =>
      exact node (h hmem) hnode hblock hleaf hkeys fun i hi hchild =>
        ih i hi hchild (Finset.erase_subset_erase _ h)

end NodeTree

/-! ## Giving a child to another parent -/

theorem BTreeNode.childAt_setParent {node : BTreeNode} {p : UInt64} {i : ℕ} (hi : i ≤ maxKeys) :
    (node.setParent p).childAt i = node.childAt i := by
  have hmax : maxKeys = 250 := rfl
  rw [childAt, setParent, word_setWord, if_neg (by omega), childAt]

theorem BTreeNode.parent_setParent {node : BTreeNode} {p : UInt64} :
    (node.setParent p).parent = p := by
  rw [parent, setParent, word_setWord, if_pos (by decide)]

theorem adopt_zero (p : UInt64) : run M (adopt 0 p) m = some ((), m) := by
  rw [adopt, if_neg (not_not.mpr rfl), run_pure]

/-- Only the parent of the child changes. -/
theorem NodeTree.exists_adopt {c : UInt64} (T : NodeTree M m K c.toNat) (hc : c ≠ 0) (p : UInt64) :
    ∃ m', run M (adopt c p) m = some ((), m') ∧ (BTreeNode.ofPage (m' c.toNat)).parent = p ∧
      SameNode (m c.toNat) (m' c.toNat) ∧ ∀ b ≠ c.toNat, m' b = m b := by
  have hblock : ((BTreeNode.ofPage (m c.toNat)).setParent p).blockNumber = UInt64.ofNat c.toNat :=
    T.blockNumber
  obtain ⟨m', hwrite, hpage, htype, hother⟩ := T.isNode.exists_write hblock
  have hcopy := T.isNode.run_copy
  rw [UInt64.ofNat_toNat] at hcopy
  refine ⟨m', ?_, ?_, ⟨?_, ?_, ?_, ?_, fun i hi => ?_⟩, hother⟩
  · rw [adopt, if_pos hc, run_bind_of_eq hcopy, run_bind_of_eq hwrite, run_pure]
  · rw [hpage, BTreeNode.parent_setParent]
  · rw [htype, T.isNode.type]
  · rw [hpage]
    rfl
  · rw [hpage]
    rfl
  · rw [hpage]
    rfl
  · rw [hpage, BTreeNode.childAt_setParent hi]

end Nbtrfs
