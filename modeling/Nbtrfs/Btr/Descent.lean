import Nbtrfs.Btr.Rightmost
import Nbtrfs.Btr.NodeImage

/-!
# Even trees and the descent of an insertion

Reference: `btr.c`, `btree_find_depth` and `btree_insertion_search`.

In an `EvenTree` all leaves are at the same depth and the children stand at the first positions, one for
each key or one more. `btree_insertion_search` does not look at the keys of the nodes: it compares with
the maxima below the children, computed anew, and counts the levels against the depth of the leftmost
leaf.
-/

namespace Nbtrfs

open BlockProg

/-- Block `b` is an inner node that lists `c` children. -/
structure InnerNode (M : Mapping) (m : Image) (b c : ℕ) : Prop where
  isNode : IsNode M m b
  blockNumber : (BTreeNode.ofPage (m b)).blockNumber = UInt64.ofNat b
  lt : b < 2 ^ 31
  isLeaf : (BTreeNode.ofPage (m b)).isLeaf = 0
  keys : (BTreeNode.ofPage (m b)).numKeys.toNat ≤ maxKeys
  pos : 1 ≤ c
  count : c = (BTreeNode.ofPage (m b)).numKeys.toNat ∨
    c = (BTreeNode.ofPage (m b)).numKeys.toNat + 1
  child : ∀ i < c, (BTreeNode.ofPage (m b)).childAt i ≠ 0
  past : ∀ i, c ≤ i → i ≤ (BTreeNode.ofPage (m b)).numKeys.toNat →
    (BTreeNode.ofPage (m b)).childAt i = 0

/-- The block of child `i` of the node on block `b`. -/
def childBlock (m : Image) (b i : ℕ) : ℕ := ((BTreeNode.ofPage (m b)).childAt i).toNat

/-- Block `b` is a tree all of whose leaves are at depth `d`, with the leaves from left to right. -/
inductive EvenTree (M : Mapping) (m : Image) : ℕ → ℕ → List Leaf → Prop
  | leaf {b : ℕ} (hnode : IsNode M m b)
      (hblock : (BTreeNode.ofPage (m b)).blockNumber = UInt64.ofNat b)
      (hleaf : (BTreeNode.ofPage (m b)).isLeaf ≠ 0) : EvenTree M m 0 b [Leaf.onPage m b]
  | node {d b c : ℕ} (below : ℕ → List Leaf) (N : InnerNode M m b c)
      (hbelow : ∀ i < c, EvenTree M m d (childBlock m b i) (below i)) :
      EvenTree M m (d + 1) b ((List.range c).flatMap below)

/-- The tree of depth `d` on block `b` has a subtree of depth `d'` on block `x` with the leaves `mid`,
between the leaves `left` and `right`. -/
inductive InTree (M : Mapping) (m : Image) :
    ℕ → ℕ → ℕ → ℕ → List Leaf → List Leaf → List Leaf → Prop
  | root {d b : ℕ} {leaves : List Leaf} (T : EvenTree M m d b leaves) :
      InTree M m d b d b [] leaves []
  | child {d b c i d' x : ℕ} {left mid right : List Leaf} (below : ℕ → List Leaf)
      (N : InnerNode M m b c) (hbelow : ∀ i < c, EvenTree M m d (childBlock m b i) (below i))
      (hi : i < c) (W : InTree M m d (childBlock m b i) d' x left mid right) :
      InTree M m (d + 1) b d' x ((List.range i).flatMap below ++ left) mid
        (right ++ (List.range' (i + 1) (c - (i + 1))).flatMap below)

variable {M : Mapping} {disk : DiskInterface} {m : Image} {d d' d'' b c x y i : ℕ}
  {leaves left mid right left' mid' right' : List Leaf} {below : ℕ → List Leaf} {key : UInt64}

/-- The leaves of a node, split at one of its children. -/
theorem flatMap_range_split (below : ℕ → List Leaf) (hi : i < c) :
    (List.range c).flatMap below = (List.range i).flatMap below ++ below i ++
      (List.range' (i + 1) (c - (i + 1))).flatMap below := by
  have hrange : List.range c = List.range i ++ i :: List.range' (i + 1) (c - (i + 1)) := by
    rw [List.range_eq_range', List.range_eq_range', ← List.range'_succ,
      show c = i + (c - (i + 1) + 1) by omega]
    have happ := List.range'_append_1 (s := 0) (m := i) (n := c - (i + 1) + 1)
    rw [Nat.zero_add] at happ
    rw [show i + (c - (i + 1) + 1) - (i + 1) + 1 = c - (i + 1) + 1 by omega, happ]
  rw [hrange, List.flatMap_append, List.flatMap_cons, List.append_assoc]

/-- The leaves of a node, with others below one of its children. -/
theorem flatMap_range_replace (below : ℕ → List Leaf) (mid : List Leaf) (hi : i < c) :
    (List.range c).flatMap (fun j => if j = i then mid else below j) =
      (List.range i).flatMap below ++ mid ++
        (List.range' (i + 1) (c - (i + 1))).flatMap below := by
  have hleft : (List.range i).flatMap (fun j => if j = i then mid else below j) =
      (List.range i).flatMap below := by
    apply List.flatMap_congr
    intro j hj
    exact if_neg (List.mem_range.mp hj).ne
  have hright : (List.range' (i + 1) (c - (i + 1))).flatMap (fun j => if j = i then mid else below j) =
      (List.range' (i + 1) (c - (i + 1))).flatMap below := by
    apply List.flatMap_congr
    intro j hj
    rw [List.mem_range'_1] at hj
    exact if_neg (by omega)
  rw [flatMap_range_split _ hi, hleft, hright, if_pos rfl]

namespace InTree

theorem tree (W : InTree M m d b d' x left mid right) : EvenTree M m d' x mid := by
  induction W with
  | root T => exact T
  | child below N hbelow hi W ih => exact ih

/-- The tree around a subtree. -/
theorem around (W : InTree M m d b d' x left mid right) :
    EvenTree M m d b (left ++ mid ++ right) := by
  induction W with
  | root T => rwa [List.nil_append, List.append_nil]
  | @child d b c i d' x left mid right below N hbelow hi W ih =>
      have T := EvenTree.node (fun j => if j = i then left ++ mid ++ right else below j) N fun j hj => by
        by_cases hji : j = i
        · rw [if_pos hji, hji]
          exact ih
        · rw [if_neg hji]
          exact hbelow j hj
      rw [flatMap_range_replace _ _ hi] at T
      simpa only [List.append_assoc] using T

theorem trans (W : InTree M m d b d' x left mid right)
    (W' : InTree M m d' x d'' y left' mid' right') :
    InTree M m d b d'' y (left ++ left') mid' (right' ++ right) := by
  induction W with
  | root T => rwa [List.nil_append, List.append_nil]
  | child below N hbelow hi W ih =>
      have hchild := child below N hbelow hi (ih W')
      rwa [← List.append_assoc, List.append_assoc right'] at hchild

end InTree

/-! ## The leaves and the depth of an even tree -/

theorem InnerNode.unique {c' : ℕ} (N : InnerNode M m b c) (N' : InnerNode M m b c') : c = c' := by
  by_contra hne
  have hcount := N.count
  have hcount' := N'.count
  rcases Nat.lt_or_gt_of_ne hne with hlt | hgt
  · exact N'.child c hlt (N.past c le_rfl (by omega))
  · exact N.child c' hgt (N'.past c' le_rfl (by omega))

/-- A child of an inner node has a position that the loops over the children reach. -/
theorem InnerNode.le_keys (N : InnerNode M m b c) (hi : i < c) :
    i ≤ (BTreeNode.ofPage (m b)).numKeys.toNat := by
  have hcount := N.count
  omega

theorem InnerNode.word_lt (N : InnerNode M m b c)
    (hi : i ≤ (BTreeNode.ofPage (m b)).numKeys.toNat) : maxKeys + i < nodeWords := by
  have hmax : maxKeys = 250 := rfl
  have hwords : nodeWords = 504 := rfl
  have hkeys := N.keys
  omega

namespace EvenTree

theorem isNode (T : EvenTree M m d b leaves) : IsNode M m b := by
  cases T with
  | leaf hnode => exact hnode
  | node _ N => exact N.isNode

/-- A node has one list of leaves of a given depth. -/
theorem unique (T : EvenTree M m d b leaves) (T' : EvenTree M m d b left) : leaves = left := by
  induction T generalizing left with
  | leaf => cases T' with | leaf => rfl
  | @node d b c below N hbelow ih =>
      cases T' with
      | @node _ _ c' below' N' hbelow' =>
          obtain rfl := N.unique N'
          apply List.flatMap_congr
          intro i hi
          exact ih i (List.mem_range.mp hi) (hbelow' i (List.mem_range.mp hi))

theorem run_read (T : EvenTree M m d b leaves) :
    run M (btreeNodeRead (UInt64.ofNat b)) m = some (some (BTreeNode.ofPage (m b)), m) :=
  run_btreeNodeRead T.isNode.addr T.isNode.type

/-- The rightmost path ends at the last leaf. -/
theorem exists_rightmost (T : EvenTree M m d b leaves) :
    ∃ l, leaves.getLast? = some l ∧ Rightmost M m d b l.key := by
  induction T with
  | leaf hnode hblock hleaf => exact ⟨_, rfl, .leaf hnode hblock hleaf⟩
  | @node d b c below N hbelow ih =>
      have hpos := N.pos
      obtain ⟨l, hl, R⟩ := ih (c - 1) (by omega)
      have hrange : List.range c = List.range (c - 1) ++ [c - 1] := by
        rw [← List.range_succ]
        congr 1
        omega
      refine ⟨l, ?_, .node N.isNode N.blockNumber N.isLeaf N.keys (N.le_keys (by omega))
        (N.child _ (by omega)) (fun j hj hle => N.past j (by omega) hle) R⟩
      rw [hrange, List.flatMap_append, List.flatMap_singleton, List.getLast?_append, hl,
        Option.some_or]

/-- In an ordered tree `btree_find_maximum` returns the largest leaf key. -/
theorem exists_maximum (T : EvenTree disk.mapping m d b leaves)
    (hsorted : leaves.Pairwise fun a b => a.key ≤ b.key) :
    ∃ l ∈ leaves, run disk.mapping (btreeFindMaximum disk (UInt64.ofNat b)) m = some (l.key, m) ∧
      ∀ l' ∈ leaves, l'.key ≤ l.key := by
  obtain ⟨l, hl, R⟩ := T.exists_rightmost
  obtain ⟨init, rfl⟩ := List.getLast?_eq_some_iff.mp hl
  refine ⟨l, List.mem_append_right _ (List.mem_singleton_self l), R.run_btreeFindMaximum,
    fun l' hl' => ?_⟩
  rcases List.mem_append.mp hl' with hinit | hlast
  · exact (List.pairwise_append.mp hsorted).2.2 l' hinit l (List.mem_singleton_self l)
  · rw [List.mem_singleton.mp hlast]
    exact UInt64.le_refl _

/-- The leftmost path has the depth of the tree. -/
theorem run_depthFrom (T : EvenTree M m d b leaves) {fuel : ℕ} (hfuel : d < fuel) (z : ℤ) :
    run M (depthFrom fuel (BTreeNode.ofPage (m b)) z) m = some (z + d, m) := by
  induction T generalizing fuel z with
  | leaf hnode hblock hleaf =>
      obtain ⟨fuel, rfl⟩ := Nat.exists_eq_succ_of_ne_zero (by omega : fuel ≠ 0)
      rw [depthFrom, if_pos hleaf, run_pure, Nat.cast_zero, Int.add_zero]
  | @node d b c below N hbelow ih =>
      obtain ⟨fuel, rfl⟩ := Nat.exists_eq_succ_of_ne_zero (by omega : fuel ≠ 0)
      have hread := (hbelow 0 N.pos).run_read
      rw [childBlock, UInt64.ofNat_toNat] at hread
      rw [depthFrom, if_neg (not_not.mpr N.isLeaf), if_pos (N.child 0 N.pos),
        run_bind_of_eq hread, Option.getD_some, ← childBlock, ih 0 N.pos (by omega)]
      push_cast
      rw [Int.add_assoc, Int.add_comm 1]

theorem le (T : EvenTree disk.mapping m d b leaves) : d ≤ disk.totalBlocks.toNat := by
  obtain ⟨l, -, R⟩ := T.exists_rightmost
  exact R.le

theorem run_btreeFindDepth (T : EvenTree disk.mapping m d b leaves) :
    run disk.mapping (btreeFindDepth disk (UInt64.ofNat b)) m = some ((d : ℤ), m) := by
  have hfuel : d < callDepth disk := Nat.lt_succ_of_le T.le
  rw [btreeFindDepth, run_bind_of_eq T.isNode.run_copy, T.run_depthFrom hfuel, Int.zero_add]

end EvenTree

/-! ## One level of the descent -/

/-- The loop that picks a child stops at the first one with a maximum that is not less than the key, or
behind the children that have a key. -/
theorem exists_run_childIndex {node : BTreeNode} (max : ℕ → UInt64) (key : UInt64) {n : ℕ}
    (hkeys : i + n ≤ maxKeys) (hchild : ∀ j, i ≤ j → j < i + n → node.childAt j ≠ 0 ∧
      run disk.mapping (btreeFindMaximum disk (node.childAt j)) m = some (max j, m)) :
    ∃ j, run disk.mapping (childIndex disk node key n i i) m = some (j, m) ∧ i ≤ j ∧ j ≤ i + n ∧
      (∀ t, i ≤ t → t < j → max t < key) ∧ (j < i + n → key ≤ max j) := by
  induction n generalizing i with
  | zero => exact ⟨i, rfl, le_rfl, le_rfl, fun t hlo hhi => by omega, fun h => by omega⟩
  | succ n ih =>
      have hmax : maxKeys = 250 := rfl
      have hwords : nodeWords = 504 := rfl
      obtain ⟨hne, hrun⟩ := hchild i le_rfl (by omega)
      rw [childIndex, run_bind_of_eq (inNode_of_lt (by omega)), if_pos hne, run_bind_of_eq hrun]
      by_cases hle : key ≤ max i
      · rw [if_pos hle, run_pure]
        exact ⟨i, rfl, le_rfl, by omega, fun t hlo hhi => by omega, fun _ => hle⟩
      · rw [if_neg hle]
        obtain ⟨j, hj, hlo, hhi, hbefore, hstop⟩ := ih (i := i + 1) (by omega)
          fun j hlo hhi => hchild j (by omega) (by omega)
        refine ⟨j, hj, by omega, by omega, fun t ht htj => ?_, fun h => hstop (by omega)⟩
        by_cases hti : t = i
        · rw [hti]
          exact UInt64.not_le.mp hle
        · exact hbefore t (by omega) htj

/-- Where the child with the number of the keys is missing, the last one is taken. -/
theorem run_lastChild {node : BTreeNode} {n : ℕ} (hn : n ≤ maxKeys + 1) (hi : i < n)
    (hchild : node.childAt i ≠ 0) (hlast : ∀ j, i < j → j < n → node.childAt j = 0) :
    run M (lastChild node n) m = some (node.childAt i, m) := by
  induction n with
  | zero => omega
  | succ n ih =>
      have hmax : maxKeys = 250 := rfl
      have hwords : nodeWords = 504 := rfl
      rw [lastChild, run_bind_of_eq (inNode_of_lt (by omega))]
      by_cases hin : i = n
      · rw [← hin, if_pos hchild, run_pure]
      · rw [if_neg (not_not.mpr (hlast n (by omega) (Nat.lt_succ_self n)))]
        exact ih (by omega) (by omega) fun j hj hlt => hlast j hj (by omega)

/-- A choice between two first parts of a sequence is a first part itself. -/
theorem bind_ite {α β : Type} (P : Prop) [Decidable P] (p q : BlockProg α) (f : α → BlockProg β) :
    (if P then p >>= f else q >>= f) = (if P then p else q) >>= f := by
  split <;> rfl

/-- The leaves below the children before `i` have smaller keys if the maxima below those children are
smaller. -/
theorem keys_lt_of_maxima {max : ℕ → UInt64} (hmax : ∀ j < c, ∀ l ∈ below j, l.key ≤ max j) (hi : i ≤ c)
    (hlt : ∀ j < i, max j < key) : ∀ l ∈ (List.range i).flatMap below, l.key < key := by
  intro l hl
  obtain ⟨j, hj, hl⟩ := List.mem_flatMap.mp hl
  have hji := List.mem_range.mp hj
  exact UInt64.lt_of_le_of_lt (hmax j (by omega) l hl) (hlt j hji)

/-- One turn of the loop: the descent enters a child that separates smaller keys from the others. -/
theorem EvenTree.exists_turn {leaves : List Leaf} (T : EvenTree disk.mapping m (d + 1) x leaves)
    (hsorted : leaves.Pairwise fun a b => a.key ≤ b.key) (key : UInt64) :
    ∃ y left mid right, InTree disk.mapping m (d + 1) x d y left mid right ∧
      (∀ l ∈ left, l.key < key) ∧ (∀ l ∈ right, key ≤ l.key) ∧
      ((∃ l ∈ mid, key ≤ l.key) ∨ right = []) ∧
      ∀ rootBlock fuel (currentDepth depth : ℤ), currentDepth < depth - 1 →
        run disk.mapping (btreeFindDepth disk rootBlock) m = some (depth, m) →
        run disk.mapping (descend disk rootBlock key (fuel + 1) (BTreeNode.ofPage (m x)) currentDepth)
            m =
          run disk.mapping (descend disk rootBlock key fuel (BTreeNode.ofPage (m y))
            (currentDepth + 1)) m := by
  cases T with
  | @node _ _ c below N hbelow =>
      have hcount := N.count
      have hpos := N.pos
      have hkeys := N.keys
      -- the maxima below the children
      have hmaximum : ∀ j < c, ∃ l ∈ below j,
          run disk.mapping (btreeFindMaximum disk ((BTreeNode.ofPage (m x)).childAt j)) m =
            some (l.key, m) ∧ ∀ l' ∈ below j, l'.key ≤ l.key := by
        intro j hj
        rw [flatMap_range_split below hj, List.pairwise_append, List.pairwise_append] at hsorted
        have hmax := (hbelow j hj).exists_maximum hsorted.1.2.1
        rwa [childBlock, UInt64.ofNat_toNat] at hmax
      have : Nonempty Leaf := ⟨⟨0, 0, 0, 0⟩⟩
      choose! last hlast hrun hle using hmaximum
      obtain ⟨j, hindex, -, hj, hbefore, hstop⟩ := exists_run_childIndex (fun j => (last j).key) key
        (i := 0) (n := (BTreeNode.ofPage (m x)).numKeys.toNat) (by omega) fun j _ hj =>
          ⟨N.child j (by omega), hrun j (by omega)⟩
      -- the child that is entered
      obtain ⟨i, hi, hij, hstopped, hnext⟩ : ∃ i < c, i ≤ j ∧
          (i < j ∨ j = (BTreeNode.ofPage (m x)).numKeys.toNat → i + 1 = c) ∧
          run disk.mapping (if (BTreeNode.ofPage (m x)).childAt j ≠ 0 then
              pure ((BTreeNode.ofPage (m x)).childAt j)
            else lastChild (BTreeNode.ofPage (m x)) ((BTreeNode.ofPage (m x)).numKeys.toNat + 1)) m =
            some ((BTreeNode.ofPage (m x)).childAt i, m) := by
        by_cases hjc : j < c
        · refine ⟨j, hjc, le_rfl, fun h => by omega, ?_⟩
          rw [if_pos (N.child j hjc), run_pure]
        · refine ⟨c - 1, by omega, by omega, fun _ => by omega, ?_⟩
          rw [if_neg (not_not.mpr (N.past j (by omega) (by omega))),
            run_lastChild (by omega) (by omega) (N.child (c - 1) (by omega)) fun t ht hlt =>
              N.past t (by omega) (by omega)]
      -- where there is a child further right, the loop stopped at this one
      have hstopAt : i + 1 = c ∨ key ≤ (last i).key := by
        by_cases hend : i + 1 = c
        · exact Or.inl hend
        · have hji : j = i := by
            by_contra hne
            exact hend (hstopped (Or.inl (by omega)))
          have hjk : j < 0 + (BTreeNode.ofPage (m x)).numKeys.toNat := by
            by_contra hge
            exact hend (hstopped (Or.inr (by omega)))
          exact Or.inr (hji ▸ hstop hjk)
      have W := InTree.child below N hbelow hi (InTree.root (hbelow i hi))
      rw [List.append_nil, List.nil_append] at W
      refine ⟨_, _, _, _, W, ?_, ?_, ?_, fun rootBlock fuel currentDepth depth hlt hdepth => ?_⟩
      · exact keys_lt_of_maxima hle hi.le fun t ht => hbefore t (Nat.zero_le t) (by omega)
      · intro l hl
        obtain ⟨t, ht, hmem⟩ := List.mem_flatMap.mp hl
        rw [List.mem_range'_1] at ht
        rw [flatMap_range_split below hi, List.pairwise_append] at hsorted
        refine UInt64.le_trans (hstopAt.resolve_left (by omega)) (hsorted.2.2 _ ?_ l hl)
        exact List.mem_append_right _ (hlast i hi)
      · rcases hstopAt with hend | hkey
        · right
          rw [show c - (i + 1) = 0 by omega, List.range'_zero, List.flatMap_nil]
        · exact Or.inl ⟨last i, hlast i hi, hkey⟩
      · have hread := (hbelow i hi).run_read
        rw [childBlock, UInt64.ofNat_toNat] at hread
        rw [descend, run_bind_of_eq hdepth, if_pos hlt, run_bind_of_eq hindex]
        simp only [min_eq_left (show j ≤ (BTreeNode.ofPage (m x)).numKeys.toNat by omega)]
        rw [run_bind_of_eq (inNode_of_lt (N.word_lt (by omega))), bind_ite, run_bind_of_eq hnext,
          if_pos (N.child i hi), run_bind_of_eq hread, Option.getD_some, childBlock]

/-! ## A tree of depth two -/

section Image

variable {nodes : List BTreeNode} {numKeys : UInt16} {children : List UInt64}

/-- A node that was put on the image with children, none of them null, is an inner node there. -/
theorem innerNode_putNodes
    (hnode : (nodes.find? fun node => node.blockNumber = UInt64.ofNat b) =
      some (innerNode (UInt64.ofNat b) numKeys children))
    (hb : b < disk.addressable) (hkeys : numKeys.toNat ≤ maxKeys) (hpos : 1 ≤ children.length)
    (hcount : children.length = numKeys.toNat ∨ children.length = numKeys.toNat + 1)
    (hne : ∀ i < children.length, children.getD i 0 ≠ 0) :
    InnerNode disk.mapping (putNodes m nodes) b children.length := by
  have hpage := ofPage_putNodes (m := m) hnode
  have hwrap := addressable_le disk
  have hmax : maxKeys = 250 := rfl
  have hnum : (BTreeNode.ofPage (putNodes m nodes b)).numKeys = numKeys := by
    rw [hpage]
    rfl
  have hchild (i : ℕ) (hi : i ≤ maxKeys) :
      (BTreeNode.ofPage (putNodes m nodes b)).childAt i = children.getD i 0 := by
    rw [hpage, childAt_innerNode hi]
  refine ⟨isNode_putNodes hnode hb, ?_, by omega, ?_, ?_, hpos, ?_, fun i hi => ?_, fun i hi hle => ?_⟩
  · rw [hpage]
    rfl
  · rw [hpage]
    rfl
  · rwa [hnum]
  · rwa [hnum]
  · rw [hchild i (by omega)]
    exact hne i hi
  · rw [hnum] at hle
    rw [hchild i (by omega), List.getD_eq_getElem?_getD, List.getElem?_eq_none hi, Option.getD_none]

/-- An inner node over even trees of depth `d` is an even tree of depth `d + 1`. -/
theorem evenTree_innerNode (below : ℕ → List Leaf)
    (hnode : (nodes.find? fun node => node.blockNumber = UInt64.ofNat b) =
      some (innerNode (UInt64.ofNat b) numKeys children))
    (hb : b < disk.addressable) (hkeys : numKeys.toNat ≤ maxKeys) (hpos : 1 ≤ children.length)
    (hcount : children.length = numKeys.toNat ∨ children.length = numKeys.toNat + 1)
    (hne : ∀ i < children.length, children.getD i 0 ≠ 0)
    (hbelow : ∀ i < children.length,
      EvenTree disk.mapping (putNodes m nodes) d (children.getD i 0).toNat (below i))
    (hleaves : (List.range children.length).flatMap below = leaves) :
    EvenTree disk.mapping (putNodes m nodes) (d + 1) b leaves := by
  rw [← hleaves]
  refine .node below (innerNode_putNodes hnode hb hkeys hpos hcount hne) fun i hi => ?_
  rw [childBlock, ofPage_putNodes hnode, childAt_innerNode (by omega)]
  exact hbelow i hi

theorem evenTree_leafNode {parent : UInt64}
    (hnode : (nodes.find? fun node => node.blockNumber = UInt64.ofNat b) =
      some (leafNode (UInt64.ofNat b) parent key)) (hb : b < disk.addressable) :
    EvenTree disk.mapping (putNodes m nodes) 0 b [⟨b, key, 0, 0⟩] := by
  have hpage := ofPage_putNodes (m := m) hnode
  have T := EvenTree.leaf (isNode_putNodes hnode hb) (by rw [hpage]; rfl)
    (by rw [hpage]; exact (by decide : (1 : UInt8) ≠ 0))
  rwa [Leaf.onPage, hpage] at T

end Image

/-- A root over a node with two children for one key and a node with one. -/
def evenNodes : List BTreeNode :=
  [innerNode 10 2 [11, 12], innerNode 11 1 [13, 14], innerNode 12 1 [15], leafNode 13 11 3,
    leafNode 14 11 5, leafNode 15 12 8]

/-- The example: a root with two inner nodes and three leaves, all at depth 2. -/
theorem evenTree_evenNodes : EvenTree (DiskInterface.mapping ⟨64, by decide⟩) (nodeImage evenNodes) 2
    10 [⟨13, 3, 0, 0⟩, ⟨14, 5, 0, 0⟩, ⟨15, 8, 0, 0⟩] := by
  have haddr : DiskInterface.addressable ⟨64, by decide⟩ = 64 := rfl
  have hfirst : EvenTree (DiskInterface.mapping ⟨64, by decide⟩) (nodeImage evenNodes) 1 11
      [⟨13, 3, 0, 0⟩, ⟨14, 5, 0, 0⟩] := by
    refine evenTree_innerNode (fun i => if i = 0 then [⟨13, 3, 0, 0⟩] else [⟨14, 5, 0, 0⟩]) rfl
      (by rw [haddr]; decide) (by decide) (by decide) (Or.inr rfl) (by decide) (fun i hi => ?_) rfl
    have hi : i < 2 := hi
    interval_cases i
    · exact evenTree_leafNode rfl (by rw [haddr]; decide)
    · exact evenTree_leafNode rfl (by rw [haddr]; decide)
  have hsecond : EvenTree (DiskInterface.mapping ⟨64, by decide⟩) (nodeImage evenNodes) 1 12
      [⟨15, 8, 0, 0⟩] := by
    refine evenTree_innerNode (fun _ => [⟨15, 8, 0, 0⟩]) rfl (by rw [haddr]; decide) (by decide)
      (by decide) (Or.inl rfl) (by decide) (fun i hi => ?_) rfl
    have hi : i < 1 := hi
    interval_cases i
    exact evenTree_leafNode rfl (by rw [haddr]; decide)
  refine evenTree_innerNode
    (fun i => if i = 0 then [⟨13, 3, 0, 0⟩, ⟨14, 5, 0, 0⟩] else [⟨15, 8, 0, 0⟩]) rfl
    (by rw [haddr]; decide) (by decide) (by decide) (Or.inl rfl) (by decide) (fun i hi => ?_) rfl
  have hi : i < 2 := hi
  interval_cases i
  · exact hfirst
  · exact hsecond

/-! ## The whole descent -/

/-- The descent goes on from a subtree until it is at a node above the leaves. -/
theorem InTree.exists_descend {e : ℕ} (W : InTree disk.mapping m d b (e + 1) x left mid right)
    (hsorted : (left ++ mid ++ right).Pairwise fun a b => a.key ≤ b.key)
    (hleft : ∀ l ∈ left, l.key < key) (hright : ∀ l ∈ right, key ≤ l.key)
    (hmid : (∃ l ∈ mid, key ≤ l.key) ∨ right = []) {fuel : ℕ} (hfuel : e < fuel) :
    ∃ (y : ℕ) (left' mid' right' : List Leaf),
      run disk.mapping (descend disk (UInt64.ofNat b) key fuel (BTreeNode.ofPage (m x)) (d - (e + 1)))
          m = some ((y : ℤ), m) ∧
        InTree disk.mapping m d b 1 y left' mid' right' ∧ (∀ l ∈ left', l.key < key) ∧
        (∀ l ∈ right', key ≤ l.key) ∧ ((∃ l ∈ mid', key ≤ l.key) ∨ right' = []) := by
  have hdepth := W.around.run_btreeFindDepth
  induction e generalizing x left mid right fuel with
  | zero =>
      obtain ⟨fuel, rfl⟩ := Nat.exists_eq_succ_of_ne_zero (by omega : fuel ≠ 0)
      refine ⟨x, left, mid, right, ?_, W, hleft, hright, hmid⟩
      rw [descend, run_bind_of_eq hdepth, if_neg (by push_cast; omega), run_pure]
      have T := W.tree
      cases T with
      | node below N hbelow =>
          have hx := N.lt
          rw [N.blockNumber, toNat_ofNat_block (by omega), int32_of_lt (by omega)]
  | succ e ih =>
      obtain ⟨fuel, rfl⟩ := Nat.exists_eq_succ_of_ne_zero (by omega : fuel ≠ 0)
      have hbelow : mid.Pairwise fun a b => a.key ≤ b.key :=
        (List.pairwise_append.mp (List.pairwise_append.mp hsorted).1).2.1
      obtain ⟨y, l, c, r, W', hl, hr, hc, hturn⟩ := W.tree.exists_turn hbelow key
      have W₂ := W.trans W'
      have hleaves := W.around.unique W₂.around
      have hparts := W.tree.unique W'.around
      have hnext : (∃ l ∈ c, key ≤ l.key) ∨ r ++ right = [] := by
        rcases hc with hfound | rfl
        · exact Or.inl hfound
        · refine hmid.imp (fun ⟨x, hx, hle⟩ => ⟨x, ?_, hle⟩) fun h => by rw [h, List.append_nil]
          rw [hparts, List.append_nil] at hx
          exact (List.mem_append.mp hx).resolve_left fun hxl => UInt64.not_lt.mpr hle (hl x hxl)
      obtain ⟨z, left', mid', right', hrun, hrest⟩ := ih W₂ (hleaves ▸ hsorted)
        (fun x hx => (List.mem_append.mp hx).elim (hleft x) (hl x))
        (fun x hx => (List.mem_append.mp hx).elim (hr x) (hright x)) hnext (show e < fuel by omega)
      refine ⟨z, left', mid', right', ?_, hrest⟩
      have hnext : (d : ℤ) - ((e + 1 : ℕ) + 1) + 1 = d - (e + 1) := by
        push_cast
        omega
      rw [hturn _ _ _ d (by omega) hdepth, hnext]
      exact hrun

/-- `btree_insertion_search` returns the first node above the leaves with a leaf key that is not less, or
the last one. -/
theorem EvenTree.exists_insertionSearch (T : EvenTree disk.mapping m d b leaves) (hd : 1 ≤ d)
    (hsorted : leaves.Pairwise fun a b => a.key ≤ b.key) (key : UInt64) :
    ∃ (x : ℕ) (left mid right : List Leaf),
      run disk.mapping (btreeInsertionSearch disk (UInt64.ofNat b) key) m = some ((x : ℤ), m) ∧
        InTree disk.mapping m d b 1 x left mid right ∧ (∀ l ∈ left, l.key < key) ∧
        (∀ l ∈ right, key ≤ l.key) ∧ ((∃ l ∈ mid, key ≤ l.key) ∨ right = []) := by
  have hle := T.le
  have hdepth := T.run_btreeFindDepth
  have W := InTree.root T
  have hnone : ∀ l ∈ ([] : List Leaf), l.key < key := fun _ h => absurd h List.not_mem_nil
  have hnone' : ∀ l ∈ ([] : List Leaf), key ≤ l.key := fun _ h => absurd h List.not_mem_nil
  obtain ⟨e, rfl⟩ := Nat.exists_eq_succ_of_ne_zero (by omega : d ≠ 0)
  obtain ⟨N, hfirst, hblock⟩ : ∃ N : IsNode disk.mapping m b,
      (BTreeNode.ofPage (m b)).childAt 0 ≠ 0 ∧
      int32 (BTreeNode.ofPage (m b)).blockNumber.toNat = b := by
    cases T with
    | node below N hbelow =>
        have hb := N.lt
        refine ⟨N.isNode, N.child 0 N.pos, ?_⟩
        rw [N.blockNumber, toNat_ofNat_block (by omega), int32_of_lt (by omega)]
  by_cases hone : e = 0
  · subst hone
    refine ⟨b, [], leaves, [], ?_, W, hnone, hnone', Or.inr rfl⟩
    rw [btreeInsertionSearch, run_bind_of_eq N.run_copy, if_neg hfirst, run_bind_of_eq hdepth,
      if_pos (by simp), run_pure, hblock]
  · have hfuel : e < callDepth disk := by
      rw [callDepth]
      omega
    obtain ⟨x, left, mid, right, hrun, hrest⟩ := W.exists_descend (by
      rwa [List.nil_append, List.append_nil]) hnone hnone' (Or.inr rfl) hfuel
    refine ⟨x, left, mid, right, ?_, hrest⟩
    rw [btreeInsertionSearch, run_bind_of_eq N.run_copy, if_neg hfirst, run_bind_of_eq hdepth,
      if_neg (by push_cast; omega)]
    rwa [Nat.succ_eq_add_one, Nat.cast_succ, sub_self] at hrun

/-- On an ordered tree with all leaves at depth `d`, `btree_find_maximum` of every subtree is its largest
leaf key, and `btree_insertion_search` returns a node above the leaves with the smaller keys to its left
and no smaller key to its right. -/
theorem btreeInsertionSearch_finds (T : EvenTree disk.mapping m d b leaves) (hd : 1 ≤ d)
    (hsorted : leaves.Pairwise fun a b => a.key ≤ b.key) :
    (∀ d' x left mid right, InTree disk.mapping m d b d' x left mid right →
      leaves = left ++ mid ++ right ∧ ∃ l ∈ mid,
        run disk.mapping (btreeFindMaximum disk (UInt64.ofNat x)) m = some (l.key, m) ∧
        ∀ l' ∈ mid, l'.key ≤ l.key) ∧
      ∀ key, ∃ (x : ℕ) (left mid right : List Leaf),
        run disk.mapping (btreeInsertionSearch disk (UInt64.ofNat b) key) m = some ((x : ℤ), m) ∧
          InTree disk.mapping m d b 1 x left mid right ∧ leaves = left ++ mid ++ right ∧
          (∀ l ∈ left, l.key < key) ∧ ∀ l ∈ right, key ≤ l.key := by
  have hparts : ∀ {d' x left mid right}, InTree disk.mapping m d b d' x left mid right →
      leaves = left ++ mid ++ right := fun W => T.unique W.around
  refine ⟨fun d' x left mid right W => ⟨hparts W, ?_⟩, fun key => ?_⟩
  · have hall := hsorted
    rw [hparts W, List.pairwise_append, List.pairwise_append] at hall
    exact W.tree.exists_maximum hall.1.2.1
  · obtain ⟨x, left, mid, right, hrun, W, hleft, hright, -⟩ := T.exists_insertionSearch hd hsorted key
    exact ⟨x, left, mid, right, hrun, W, hparts W, hleft, hright⟩

/-- The descent for key 4 in the tree of depth two. -/
theorem btreeInsertionSearch_finds_4 : ∃ (x : ℕ) (left mid right : List Leaf),
    run (DiskInterface.mapping ⟨64, by decide⟩) (btreeInsertionSearch ⟨64, by decide⟩ 10 4)
      (nodeImage evenNodes) = some ((x : ℤ), nodeImage evenNodes) ∧
    [⟨13, 3, 0, 0⟩, ⟨14, 5, 0, 0⟩, ⟨15, 8, 0, 0⟩] = left ++ mid ++ right ∧
    (∀ l ∈ left, l.key < 4) ∧ ∀ l ∈ right, 4 ≤ l.key := by
  obtain ⟨x, left, mid, right, hrun, -, hrest⟩ :=
    (btreeInsertionSearch_finds evenTree_evenNodes (by decide) (by decide)).2 4
  exact ⟨x, left, mid, right, hrun, hrest⟩

end Nbtrfs
