import Nbtrfs.Btr.NodeImage

/-!
# The height of a tree of nodes

The functions that walk down a tree call themselves once a level. A tree is never higher than the
device has blocks, because the nodes of a path from the root are different, so the calls fit on the
stack of `callDepth` frames. `btreeSearch_finds` is what follows for `btree_search`.
-/

namespace Nbtrfs

open BlockProg

/-- Things that have one level each, with something on every level below them, are as many as there
are levels. -/
theorem le_card_of_levels {α : Type} {R : ℕ → α → Prop} {S : Finset α}
    (hmem : ∀ n a, R n a → a ∈ S) (huniq : ∀ n n' a, R n a → R n' a → n = n')
    (hdown : ∀ n a, 1 ≤ n → R (n + 1) a → ∃ c, R n c) {n : ℕ} {a : α} (h : R n a) :
    n ≤ S.card := by
  have hlevel : ∀ k < n, ∃ c, R (n - k) c := by
    intro k hk
    induction k with
    | zero => exact ⟨a, h⟩
    | succ k ih =>
        obtain ⟨c, hc⟩ := ih (by omega)
        rw [show n - k = n - (k + 1) + 1 by omega] at hc
        exact hdown _ c (by omega) hc
  have : Nonempty α := ⟨a⟩
  choose! f hf using hlevel
  have hinj : Set.InjOn f (Finset.range n : Set ℕ) := by
    intro i hi j hj hij
    rw [Finset.coe_range, Set.mem_Iio] at hi hj
    have hlevels := huniq _ _ _ (hf i hi) (hij ▸ hf j hj)
    omega
  calc n = (Finset.range n).card := (Finset.card_range n).symm
    _ ≤ S.card := Finset.card_le_card_of_injOn f
        (fun i hi => hmem _ _ (hf i (Finset.mem_range.mp hi))) hinj

variable {M : Mapping} {disk : DiskInterface} {m : Image} {h h' b : ℕ} {leaves leaves' : List Leaf}

theorem IsNode.lt (N : IsNode disk.mapping m b) : b < disk.totalBlocks.toNat :=
  DiskInterface.lt_of_mapping_addr N.addr

theorem IsNode.lt_addressable (N : IsNode disk.mapping m b) : b < disk.addressable := by
  have hlt := N.lt
  have htotal := total_lt disk
  have haddr : disk.diskGetBlock (UInt64.ofNat b) = some b := N.addr
  rw [DiskInterface.diskGetBlock, toNat_ofNat_block (by omega)] at haddr
  split at haddr
  · have hb := Option.some.inj haddr
    have hint : byteOffset b < 2 ^ 31 := BitVec.toInt_lt
    exact lt_min hlt (by omega)
  · cases haddr

namespace Subtree

theorem isNode (T : Subtree M m h b leaves) : IsNode M m b := by
  cases T with
  | leaf hnode => exact hnode
  | node _ hnode => exact hnode

theorem mono (T : Subtree M m h b leaves) (hle : h ≤ h') : Subtree M m h' b leaves := by
  induction T generalizing h' with
  | leaf hnode hne hleaf hblock => exact .leaf hnode hne hleaf hblock
  | @node h b below hnode hleaf hkeys hnone hbelow ih =>
      obtain ⟨h', rfl⟩ := Nat.exists_eq_succ_of_ne_zero (by omega : h' ≠ 0)
      exact .node below hnode hleaf hkeys hnone fun i hi hchild => ih i hi hchild (by omega)

/-- The pages say what the leaves of a tree are. -/
theorem unique (T : Subtree M m h b leaves) (T' : Subtree M m h' b leaves') :
    leaves = leaves' := by
  induction T generalizing h' leaves' with
  | leaf hnode hne hleaf hblock =>
      cases T' with
      | leaf => rfl
      | node _ _ hinner => exact absurd hinner hleaf
  | @node h b below hnode hleaf hkeys hnone hbelow ih =>
      cases T' with
      | leaf _ _ hinner => exact absurd hleaf hinner
      | node below' _ _ _ hnone' hbelow' =>
          apply List.flatMap_congr
          intro i hi
          rw [List.mem_range'_1] at hi
          by_cases hchild : (BTreeNode.ofPage (m b)).childAt i = 0
          · rw [hnone i (by omega) hchild, hnone' i (by omega) hchild]
          · exact ih i (by omega) hchild (hbelow' i (by omega) hchild)

/-- Block `b` is a tree of height `h` and of no smaller one. -/
def Exactly (M : Mapping) (m : Image) (h b : ℕ) : Prop :=
  (∃ leaves, Subtree M m h b leaves) ∧ ∀ h' < h, ¬∃ leaves, Subtree M m h' b leaves

/-- Below a tree there is one that is lower by one. -/
theorem Exactly.down (E : Exactly M m (h + 1) b) (hpos : 1 ≤ h) : ∃ c, Exactly M m h c := by
  obtain ⟨⟨leaves, T⟩, hmin⟩ := E
  cases T with
  | leaf hnode hne hleaf hblock =>
      exact absurd ⟨_, .leaf hnode hne hleaf hblock⟩ (hmin 0 (Nat.succ_pos h))
  | node below hnode hleaf hkeys hnone hbelow =>
      by_contra hno
      obtain ⟨h, rfl⟩ := Nat.exists_eq_succ_of_ne_zero (by omega : h ≠ 0)
      -- if every child were lower, so would the node be
      have hlower : ∀ i ≤ (BTreeNode.ofPage (m b)).numKeys.toNat,
          (BTreeNode.ofPage (m b)).childAt i ≠ 0 →
            Subtree M m h ((BTreeNode.ofPage (m b)).childAt i).toNat (below i) := by
        intro i hi hchild
        have T := hbelow i hi hchild
        by_contra hhigh
        refine hno ⟨_, ⟨_, T⟩, fun h' hlt hlow => hhigh ?_⟩
        obtain ⟨leaves', T'⟩ := hlow
        rw [T.unique T']
        exact T'.mono (by omega)
      exact hmin (h + 1) (Nat.lt_succ_self _) ⟨_, .node below hnode hleaf hkeys hnone hlower⟩

/-- A tree is not higher than the device has blocks. -/
theorem Exactly.le (E : Exactly disk.mapping m h b) : h ≤ disk.totalBlocks.toNat := by
  have hcard := le_card_of_levels (R := Exactly disk.mapping m)
    (S := Finset.range disk.totalBlocks.toNat) ?_ ?_ (fun n a hpos E => E.down hpos) E
  · rwa [Finset.card_range] at hcard
  · rintro n a ⟨⟨leaves, T⟩, -⟩
    exact Finset.mem_range.mpr T.isNode.lt
  · intro n n' a E E'
    rcases Nat.lt_trichotomy n n' with hlt | heq | hgt
    · exact absurd E.1 (E'.2 n hlt)
    · exact heq
    · exact absurd E'.1 (E.2 n' hgt)

/-- On every tree the calls of the descending functions fit on the stack. -/
theorem exists_le (T : Subtree disk.mapping m h b leaves) :
    ∃ h' < callDepth disk, Subtree disk.mapping m h' b leaves := by
  classical
  have hex : ∃ h, ∃ leaves, Subtree disk.mapping m h b leaves := ⟨h, leaves, T⟩
  have hleast : Exactly disk.mapping m (Nat.find hex) b :=
    ⟨Nat.find_spec hex, fun h' hlt => Nat.find_min hex hlt⟩
  obtain ⟨leaves', T'⟩ := hleast.1
  refine ⟨Nat.find hex, Nat.lt_succ_of_le hleast.le, ?_⟩
  rw [T.unique T']
  exact T'

/-- `btree_search` finds the first leaf with the key. -/
theorem run_btreeSearch (T : Subtree disk.mapping m h b leaves) (key : UInt64) :
    run disk.mapping (btreeSearch disk (UInt64.ofNat b) key) m =
      some (Leaf.found leaves key, m) := by
  obtain ⟨h', hlt, T'⟩ := T.exists_le
  exact T'.run_searchFrom key hlt

end Subtree

/-- On every finite tree of nodes `btree_search` returns, and what it returns is the block of the first
leaf with the key from left to right, or `0` exactly when no leaf has the key. -/
theorem btreeSearch_finds (T : Subtree disk.mapping m h b leaves) (key : UInt64) :
    run disk.mapping (btreeSearch disk (UInt64.ofNat b) key) m =
        some (Leaf.found leaves key, m) ∧
      (Leaf.found leaves key = 0 ↔ ∀ l ∈ leaves, l.key ≠ key) :=
  ⟨T.run_btreeSearch key, Leaf.found_eq_zero_iff T.block_ne_zero⟩

/-- A tree with gaps between the children and leaves at two depths. -/
def gappedNodes : List BTreeNode :=
  [innerNode 10 2 [11, 0, 12], leafNode 11 10 7, innerNode 12 1 [0, 13], leafNode 13 12 7]

/-- The example: a tree whose nodes have null children between the others. -/
theorem subtree_gapped : Subtree (DiskInterface.mapping ⟨64, by decide⟩) (nodeImage gappedNodes) 2 10
    [⟨11, 7, 0, 0⟩, ⟨13, 7, 0, 0⟩] := by
  have haddr : DiskInterface.addressable ⟨64, by decide⟩ = 64 := rfl
  have inner : Subtree (DiskInterface.mapping ⟨64, by decide⟩) (nodeImage gappedNodes) 1 12
      [⟨13, 7, 0, 0⟩] := by
    refine subtree_innerNode (fun i => if i = 1 then [⟨13, 7, 0, 0⟩] else []) rfl (by omega)
      (by decide) (fun i hi hzero => ?_) (fun i hi hne => ?_) rfl
    · have hi : i ≤ 1 := hi
      interval_cases i
      · rfl
      · exact absurd hzero (by decide)
    · have hi : i ≤ 1 := hi
      interval_cases i
      · exact absurd rfl hne
      · exact subtree_leafNode rfl (by decide) (by rw [haddr]; decide)
  refine subtree_innerNode
    (fun i => if i = 0 then [⟨11, 7, 0, 0⟩] else if i = 2 then [⟨13, 7, 0, 0⟩] else []) rfl (by omega)
    (by decide) (fun i hi hzero => ?_) (fun i hi hne => ?_) rfl
  · have hi : i ≤ 2 := hi
    interval_cases i
    · exact absurd hzero (by decide)
    · rfl
    · exact absurd hzero (by decide)
  · have hi : i ≤ 2 := hi
    interval_cases i
    · exact subtree_leafNode rfl (by decide) (by rw [haddr]; decide)
    · exact absurd rfl hne
    · exact inner

theorem btreeSearch_finds_gapped :
    run (DiskInterface.mapping ⟨64, by decide⟩) (btreeSearch ⟨64, by decide⟩ 10 7)
      (nodeImage gappedNodes) = some (11, nodeImage gappedNodes) :=
  (btreeSearch_finds subtree_gapped 7).1

end Nbtrfs
