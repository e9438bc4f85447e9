import Nbtrfs.Btr.Height

/-!
# The end of the rightmost path

`btree_find_maximum` follows the last child of every node. `Rightmost M m h b key` says that this path
leads from block `b` over `h` nodes to a leaf with the key. It is all the function depends on: nothing is
asked of the order of the keys, or of the other children.
-/

namespace Nbtrfs

open BlockProg

/-- The rightmost path from block `b` passes `h` nodes and ends at a leaf with the key. -/
inductive Rightmost (M : Mapping) (m : Image) : ℕ → ℕ → UInt64 → Prop
  | leaf {b : ℕ} (hnode : IsNode M m b)
      (hblock : (BTreeNode.ofPage (m b)).blockNumber = UInt64.ofNat b)
      (hleaf : (BTreeNode.ofPage (m b)).isLeaf ≠ 0) :
      Rightmost M m 0 b (BTreeNode.ofPage (m b)).key
  | node {h b i : ℕ} {key : UInt64} (hnode : IsNode M m b)
      (hblock : (BTreeNode.ofPage (m b)).blockNumber = UInt64.ofNat b)
      (hleaf : (BTreeNode.ofPage (m b)).isLeaf = 0)
      (hkeys : (BTreeNode.ofPage (m b)).numKeys.toNat ≤ maxKeys)
      (hi : i ≤ (BTreeNode.ofPage (m b)).numKeys.toNat)
      (hchild : (BTreeNode.ofPage (m b)).childAt i ≠ 0)
      (hlast : ∀ j, i < j → j ≤ (BTreeNode.ofPage (m b)).numKeys.toNat →
        (BTreeNode.ofPage (m b)).childAt j = 0)
      (hbelow : Rightmost M m h ((BTreeNode.ofPage (m b)).childAt i).toNat key) :
      Rightmost M m (h + 1) b key

variable {M : Mapping} {disk : DiskInterface} {m : Image} {h h' b : ℕ} {key key' : UInt64}

/-- The loop of `btree_find_maximum` goes to the last child. -/
theorem run_maximumChild_last {findMaximum : UInt64 → BlockProg UInt64} {root : BTreeNode} {i n : ℕ}
    (hn : n ≤ maxKeys + 1) (hi : i < n) (hchild : root.childAt i ≠ 0)
    (hlast : ∀ j, i < j → j < n → root.childAt j = 0) :
    run M (maximumChild findMaximum root n) m = run M (findMaximum (root.childAt i)) m := by
  induction n with
  | zero => omega
  | succ n ih =>
      have hmax : maxKeys = 250 := rfl
      have hwords : nodeWords = 504 := rfl
      rw [maximumChild, run_bind_of_eq (inNode_of_lt (by omega))]
      by_cases hin : i = n
      · rw [← hin, if_pos hchild]
      · rw [if_neg (not_not.mpr (hlast n (by omega) (Nat.lt_succ_self n)))]
        exact ih (by omega) (by omega) fun j hj hlt => hlast j hj (by omega)

namespace Rightmost

theorem isNode (R : Rightmost M m h b key) : IsNode M m b := by
  cases R with
  | leaf hnode => exact hnode
  | node hnode => exact hnode

theorem blockNumber (R : Rightmost M m h b key) :
    (BTreeNode.ofPage (m b)).blockNumber = UInt64.ofNat b := by
  cases R with
  | leaf _ hblock => exact hblock
  | node _ hblock => exact hblock

/-- There is one rightmost path. -/
theorem unique (R : Rightmost M m h b key) (R' : Rightmost M m h' b key') : h = h' ∧ key = key' := by
  induction R generalizing h' with
  | leaf hnode hblock hleaf =>
      cases R' with
      | leaf => exact ⟨rfl, rfl⟩
      | node _ _ hinner => exact absurd hinner hleaf
  | @node h b i key hnode hblock hleaf hkeys hi hchild hlast hbelow ih =>
      cases R' with
      | leaf _ _ hinner => exact absurd hleaf hinner
      | @node _ _ i' _ _ _ _ _ hi' hchild' hlast' hbelow' =>
          obtain rfl : i = i' := by
            rcases Nat.lt_trichotomy i i' with hlt | heq | hgt
            · exact absurd (hlast i' hlt hi') hchild'
            · exact heq
            · exact absurd (hlast' i hgt hi) hchild
          obtain ⟨rfl, rfl⟩ := ih hbelow'
          exact ⟨rfl, rfl⟩

/-- The path is not longer than the device has blocks. -/
theorem le (R : Rightmost disk.mapping m h b key) : h ≤ disk.totalBlocks.toNat := by
  have hcard := le_card_of_levels (R := fun n a => ∃ k, Rightmost disk.mapping m n a k)
    (S := Finset.range disk.totalBlocks.toNat) ?_ ?_ ?_ ⟨key, R⟩
  · rwa [Finset.card_range] at hcard
  · rintro n a ⟨k, R⟩
    exact Finset.mem_range.mpr R.isNode.lt
  · rintro n n' a ⟨k, R⟩ ⟨k', R'⟩
    exact (R.unique R').1
  · rintro n a - ⟨k, R⟩
    cases R with
    | node _ _ _ _ _ _ _ hbelow => exact ⟨_, k, hbelow⟩

/-- `btree_find_maximum` follows the last child of every node and returns the key of the leaf that
it reaches. -/
theorem run_maximumFrom (R : Rightmost M m h b key) {fuel : ℕ} (hfuel : h < fuel) :
    run M (maximumFrom fuel (UInt64.ofNat b)) m = some (key, m) := by
  induction R generalizing fuel with
  | leaf hnode hblock hleaf =>
      obtain ⟨fuel, rfl⟩ := Nat.exists_eq_succ_of_ne_zero (by omega : fuel ≠ 0)
      rw [maximumFrom, run_bind_of_eq hnode.run_copy, if_pos hleaf, run_pure]
  | node hnode hblock hleaf hkeys hi hchild hlast hbelow ih =>
      obtain ⟨fuel, rfl⟩ := Nat.exists_eq_succ_of_ne_zero (by omega : fuel ≠ 0)
      rw [maximumFrom, run_bind_of_eq hnode.run_copy, if_neg (not_not.mpr hleaf),
        run_maximumChild_last (by omega) (Nat.lt_succ_of_le hi) hchild fun j hj hlt =>
          hlast j hj (by omega)]
      have hrun := ih (show _ < fuel by omega)
      rwa [UInt64.ofNat_toNat] at hrun

/-- `btree_find_maximum` returns the key at the end of the rightmost path. -/
theorem run_btreeFindMaximum (R : Rightmost disk.mapping m h b key) :
    run disk.mapping (btreeFindMaximum disk (UInt64.ofNat b)) m = some (key, m) :=
  R.run_maximumFrom (Nat.lt_succ_of_le R.le)

end Rightmost

end Nbtrfs
