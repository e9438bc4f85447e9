import Nbtrfs.Btr.FlatTree

/-!
# The shape of a B-tree

`Shaped M m top h b leaves` says that block `b` is the root of a tree all of whose leaves are at
depth `h`: its nodes are not overfull, their children stand at the first positions, one for each key
or one more, and name the node as their parent, the keys are the largest leaf keys below, and no node
but the topmost is underfull.
-/

namespace Nbtrfs

open BlockProg

/-- Block `b` is a tree of height `h` with the given leaves; `top` says that it is the root. -/
inductive Shaped (M : Mapping) (m : Image) : Bool → ℕ → ℕ → List Leaf → Prop
  | leaf {top : Bool} {b : ℕ} (hnode : IsNode M m b)
      (hblock : (BTreeNode.ofPage (m b)).blockNumber = UInt64.ofNat b)
      (hleaf : (BTreeNode.ofPage (m b)).isLeaf ≠ 0) : Shaped M m top 0 b [Leaf.onPage m b]
  | node {top : Bool} {h b : ℕ} (n : ℕ) (below : ℕ → List Leaf) (hnode : IsNode M m b)
      (hblock : (BTreeNode.ofPage (m b)).blockNumber = UInt64.ofNat b)
      (hleaf : (BTreeNode.ofPage (m b)).isLeaf = 0)
      (hkeys : (BTreeNode.ofPage (m b)).numKeys.toNat ≤ maxKeys)
      (hmin : top = false → minKeys ≤ (BTreeNode.ofPage (m b)).numKeys.toNat)
      (hchild : ∀ i < n, (BTreeNode.ofPage (m b)).childAt i ≠ 0)
      (hpast : ∀ i, n ≤ i → i ≤ maxKeys → (BTreeNode.ofPage (m b)).childAt i = 0)
      (hcount : (BTreeNode.ofPage (m b)).numKeys.toNat ≤ n ∧
        n ≤ (BTreeNode.ofPage (m b)).numKeys.toNat + 1)
      (hparent : ∀ i < n, (BTreeNode.ofPage
        (m ((BTreeNode.ofPage (m b)).childAt i).toNat)).parent = UInt64.ofNat b)
      (hmax : ∀ i < n, i < (BTreeNode.ofPage (m b)).numKeys.toNat →
        IsGreatest {k | ∃ l ∈ below i, l.key = k} ((BTreeNode.ofPage (m b)).keyAt i))
      (hbelow : ∀ i < n,
        Shaped M m false h ((BTreeNode.ofPage (m b)).childAt i).toNat (below i)) :
      Shaped M m top (h + 1) b ((List.range n).flatMap below)

/-- Block `r` is the root of a B-tree whose leaf keys do not descend. -/
def TreeShaped (M : Mapping) (m : Image) (r : ℕ) : Prop :=
  ∃ h leaves, Shaped M m true h r leaves ∧ leaves.Pairwise fun a b => a.key ≤ b.key

variable {disk : DiskInterface} {m : Image} {r h : ℕ} {leaves leaves' : List Leaf}

/-- The leaves below the children of a flat tree, one below each. -/
theorem flatMap_getElem?_toList {α : Type} (xs : List α) :
    (List.range xs.length).flatMap (fun i => xs[i]?.toList) = xs := by
  have h := flatMap_getElem? xs xs.length 0
  rwa [List.drop_zero, List.take_length, ← List.range_eq_range'] at h

/-- A flat tree is a B-tree of height one. -/
theorem FlatPages.shaped (P : FlatPages disk m r leaves) :
    Shaped disk.mapping m true 1 r leaves := by
  have hle := P.root.le
  have hwrap := addressable_le disk
  have hget : ∀ i (hi : i < leaves.length),
      (BTreeNode.ofPage (m r)).childAt i = UInt64.ofNat leaves[i].block ∧
        LeafPage disk m leaves[i] := fun i hi =>
    P.child_of_getElem? P.root (List.getElem?_eq_getElem hi)
  have hnat : ∀ i (hi : i < leaves.length),
      ((BTreeNode.ofPage (m r)).childAt i).toNat = leaves[i].block := fun i hi => by
    have L := (hget i hi).2
    have hlt := L.lt
    rw [(hget i hi).1, toNat_ofNat_block (by omega)]
  have hnode : Shaped disk.mapping m true 1 r
      ((List.range leaves.length).flatMap fun i => leaves[i]?.toList) :=
    Shaped.node leaves.length (fun i => leaves[i]?.toList)
    P.isNode P.root.blockNumber P.root.isLeaf
    (by rw [P.root.numKeys]; exact hle)
    (fun h => by cases h)
    (fun i hi => by rw [(hget i hi).1]; exact (hget i hi).2.number_ne_zero)
    (fun i hlo hhi => FlatShape.child_eq_zero P.root hlo hhi)
    (by rw [P.root.numKeys]; omega)
    (fun i hi => by rw [hnat i hi]; exact P.parent _ (List.getElem_mem hi))
    (fun i hi _ => by
      have hkey : (BTreeNode.ofPage (m r)).keyAt i = leaves[i].key := by
        rw [P.keys i hi, keyOf_of_getElem? (List.getElem?_eq_getElem hi)]
      rw [hkey, List.getElem?_eq_getElem hi, Option.toList_some]
      refine ⟨⟨_, List.mem_singleton_self _, rfl⟩, ?_⟩
      rintro k ⟨l, hl, rfl⟩
      rw [List.mem_singleton.mp hl]
      exact UInt64.le_refl _)
    (fun i hi => by
      have L := (hget i hi).2
      rw [hnat i hi, List.getElem?_eq_getElem hi, Option.toList_some]
      have hleaf : Shaped disk.mapping m false 0 leaves[i].block
          [Leaf.onPage m leaves[i].block] := Shaped.leaf L.isNode L.blockNumber L.isLeaf
      rwa [L.onPage] at hleaf)
  rwa [flatMap_getElem?_toList] at hnode

/-- A flat tree has no other leaves. -/
theorem FlatPages.eq_of_shaped (P : FlatPages disk m r leaves)
    (h : Shaped disk.mapping m true h r leaves') : leaves' = leaves := by
  cases h with
  | leaf hnode hblock hleaf => exact absurd P.root.isLeaf hleaf
  | @node _ h b n below hnode hblock hleaf hkeys hmin hchild hpast hcount hparent hmax
      hbelow =>
      have hroot := P.root.le
      have hwrap := addressable_le disk
      have hmax : maxKeys = 250 := rfl
      -- the nonzero children end where the leaves end
      have hn : n = leaves.length := by
        rcases Nat.lt_trichotomy n leaves.length with hlt | heq | hgt
        · obtain ⟨hnum, L⟩ := P.child_of_getElem? P.root (List.getElem?_eq_getElem hlt)
          exact absurd (hnum.symm.trans (hpast n le_rfl (by omega))) L.number_ne_zero
        · exact heq
        · exact absurd (FlatShape.child_eq_zero P.root le_rfl (by omega)) (hchild _ hgt)
      subst hn
      have hone : ∀ i ∈ List.range leaves.length, below i = leaves[i]?.toList := by
        intro i hi
        have hlt := List.mem_range.mp hi
        obtain ⟨hnum, L⟩ := P.child_of_getElem? P.root (List.getElem?_eq_getElem hlt)
        have hsub := hbelow i hlt
        have hlt' := L.lt
        rw [hnum, toNat_ofNat_block (by omega)] at hsub
        rw [List.getElem?_eq_getElem hlt, Option.toList_some]
        generalize below i = ls at hsub
        cases hsub with
        | leaf => rw [L.onPage]
        | node _ _ _ _ hleaf' => exact absurd hleaf' L.isLeaf
      rw [List.flatMap_congr hone, flatMap_getElem?_toList]

end Nbtrfs
