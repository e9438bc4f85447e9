import Nbtrfs.Btr.BottomNode

/-!
# Even trees that change

A tree depends on the pages of its nodes only. `InTree.replace` puts another tree in the place of a
subtree; a subtree has one place as long as no leaf stands in the tree twice. `TakesKey` says which node
above the leaves an insertion goes to.
-/

namespace Nbtrfs

open BlockProg

variable {M : Mapping} {m m' : Image} {d d' b c x y i : ℕ}
  {leaves left mid right left' mid' right' : List Leaf} {below : ℕ → List Leaf} {l : Leaf}
  {key : UInt64}

/-! ## Trees on changed images -/

theorem IsNode.congr (N : IsNode M m b) (h : m' b = m b) : IsNode M m' b := ⟨N.addr, by rw [h, N.type]⟩

/-- Being an inner node depends on the page of the node alone. -/
theorem InnerNode.congr (N : InnerNode M m b c) (h : m' b = m b) : InnerNode M m' b c where
  isNode := N.isNode.congr h
  blockNumber := by rw [h, N.blockNumber]
  lt := N.lt
  isLeaf := by rw [h, N.isLeaf]
  keys := by rw [h]; exact N.keys
  pos := N.pos
  count := by rw [h]; exact N.count
  child := by rw [h]; exact N.child
  past := by rw [h]; exact N.past

theorem InTree.le (W : InTree M m d b d' x left mid right) : d' ≤ d := by
  induction W with
  | root T => exact le_rfl
  | child below N hbelow hi W ih => omega

/-- Nothing stands behind the first `c` children. -/
theorem flatMap_range_guard (below : ℕ → List Leaf) {n : ℕ} (h : c ≤ n) :
    (List.range n).flatMap (fun i => if i < c then below i else []) =
      (List.range c).flatMap below := by
  obtain ⟨k, rfl⟩ := Nat.exists_eq_add_of_le h
  have hfront : (List.range c).flatMap (fun i => if i < c then below i else []) =
      (List.range c).flatMap below :=
    List.flatMap_congr fun i hi => if_pos (List.mem_range.mp hi)
  have hback : ((List.range k).map (c + ·)).flatMap (fun i => if i < c then below i else []) = [] := by
    refine List.flatMap_eq_nil_iff.mpr fun i hi => ?_
    obtain ⟨j, -, rfl⟩ := List.mem_map.mp hi
    exact if_neg (by omega)
  rw [List.range_add, List.flatMap_append, hfront, hback, List.append_nil]

namespace EvenTree

theorem leaves_ne_nil (T : EvenTree M m d b leaves) : leaves ≠ [] := by
  obtain ⟨l, hl, -⟩ := T.exists_rightmost
  rintro rfl
  cases hl

/-- A block is the root of one tree. -/
theorem unique_all (T : EvenTree M m d b leaves) (T' : EvenTree M m d' b left) :
    d = d' ∧ leaves = left := by
  obtain ⟨l, -, R⟩ := T.exists_rightmost
  obtain ⟨l', -, R'⟩ := T'.exists_rightmost
  obtain rfl := (R.unique R').1
  exact ⟨rfl, T.unique T'⟩

/-- Pages of the nodes that are the same hold the same tree. -/
theorem congr (T : EvenTree M m d b leaves)
    (h : ∀ d' x left mid right, InTree M m d b d' x left mid right → m' x = m x) :
    EvenTree M m' d b leaves := by
  induction T with
  | @leaf b hnode hblock hleaf =>
      have hpage := h _ _ _ _ _ (.root (.leaf hnode hblock hleaf))
      have hsame : Leaf.onPage m b = Leaf.onPage m' b := by rw [Leaf.onPage, Leaf.onPage, hpage]
      rw [hsame]
      exact .leaf (hnode.congr hpage) (by rw [hpage, hblock]) (by rwa [hpage])
  | @node d b c below N hbelow ih =>
      have hpage := h _ _ _ _ _ (.root (.node below N hbelow))
      refine .node below (N.congr hpage) fun i hi => ?_
      rw [childBlock, hpage, ← childBlock]
      exact ih i hi fun _ _ _ _ _ W => h _ _ _ _ _ (.child below N hbelow hi W)

/-- Every leaf stands somewhere in the tree. -/
theorem exists_inTree (T : EvenTree M m d b leaves) (hl : l ∈ leaves) :
    ∃ left right, InTree M m d b 0 l.block left [l] right := by
  induction T with
  | leaf hnode hblock hleaf =>
      rw [List.mem_singleton] at hl
      subst hl
      exact ⟨[], [], .root (.leaf hnode hblock hleaf)⟩
  | node below N hbelow ih =>
      obtain ⟨i, hi, hl⟩ := List.mem_flatMap.mp hl
      have hi := List.mem_range.mp hi
      obtain ⟨left, right, W⟩ := ih i hi hl
      exact ⟨_, _, .child below N hbelow hi W⟩

/-- An even tree is a tree of nodes. -/
theorem subtree (T : EvenTree M m d b leaves) (hne : ∀ l ∈ leaves, UInt64.ofNat l.block ≠ 0) :
    Subtree M m d b leaves := by
  induction T with
  | leaf hnode hblock hleaf => exact .leaf hnode (hne _ (List.mem_singleton_self _)) hleaf hblock
  | @node d b c below N hbelow ih =>
      have hcount := N.count
      have T := Subtree.node (fun i => if i < c then below i else []) N.isNode N.isLeaf N.keys
        (fun i hi hzero => if_neg fun hic => N.child i hic hzero) (h := d) fun i hi hchild => by
          have hic : i < c := by
            by_contra hge
            exact hchild (N.past i (by omega) hi)
          rw [if_pos hic]
          exact ih i hic fun l hl => hne l (List.mem_flatMap.mpr ⟨i, List.mem_range.mpr hic, hl⟩)
      rwa [← List.range_eq_range', flatMap_range_guard below (by omega)] at T

end EvenTree

/-! ## Changing a subtree -/

/-- A leaf stands below one child only. -/
theorem not_mem_below (hdistinct : (((List.range c).flatMap below).map Leaf.block).Nodup) (hi : i < c)
    {j : ℕ} (hj : j < c) (hne : j ≠ i) (hl : l ∈ below i) : l ∉ below j := by
  intro hlj
  rw [List.map_flatMap, List.nodup_flatMap] at hdistinct
  have hsymm : Std.Symm (Function.onFun List.Disjoint fun i => (below i).map Leaf.block) :=
    ⟨fun _ _ h => List.Disjoint.symm h⟩
  have hdisjoint := hdistinct.2.forall (List.mem_range.mpr hi) (List.mem_range.mpr hj) hne.symm
  exact hdisjoint (List.mem_map_of_mem hl) (List.mem_map_of_mem hlj)

namespace InTree

/-- Pages of the nodes that are the same hold the same subtree. -/
theorem congr (W : InTree M m d b d' x left mid right)
    (h : ∀ d' x left mid right, InTree M m d b d' x left mid right → m' x = m x) :
    InTree M m' d b d' x left mid right := by
  induction W with
  | root T => exact .root (T.congr h)
  | @child d b c i d' x left mid right below N hbelow hi W ih =>
      have hpage := h _ _ _ _ _ (.root (.node below N hbelow))
      have hchild : ∀ j, childBlock m' b j = childBlock m b j := fun j => by
        rw [childBlock, hpage, ← childBlock]
      refine .child below (N.congr hpage) (fun j hj => ?_) hi ?_
      · rw [hchild]
        exact (hbelow j hj).congr fun _ _ _ _ _ V => h _ _ _ _ _ (.child below N hbelow hj V)
      · rw [hchild]
        exact ih fun _ _ _ _ _ V => h _ _ _ _ _ (.child below N hbelow hi V)

/-- Such pages hold no other subtree. -/
theorem of_congr (W : InTree M m' d b d' x left mid right) (T : EvenTree M m d b leaves)
    (h : ∀ d' x left mid right, InTree M m d b d' x left mid right → m' x = m x) :
    InTree M m d b d' x left mid right := by
  induction W generalizing leaves with
  | root T' =>
      obtain rfl := T'.unique (T.congr h)
      exact .root T
  | @child d b c' i d' x left mid right below' N' hbelow' hi W ih =>
      cases T with
      | @node _ _ c below N hbelow =>
          have hpage := h _ _ _ _ _ (.root (.node below N hbelow))
          obtain rfl := N'.unique (N.congr hpage)
          have hchild : ∀ j, childBlock m' b j = childBlock m b j := fun j => by
            rw [childBlock, hpage, ← childBlock]
          have hsame : ∀ j < c', below' j = below j := fun j hj => by
            have T' := hbelow' j hj
            rw [hchild] at T'
            exact T'.unique ((hbelow j hj).congr fun _ _ _ _ _ V => h _ _ _ _ _ (.child below N hbelow hj V))
          refine .child below' N (fun j hj => by rw [hsame j hj]; exact hbelow j hj) hi ?_
          rw [hchild] at ih
          exact ih (hbelow i hi) fun _ _ _ _ _ V => h _ _ _ _ _ (.child below N hbelow hi V)

/-- The tree after one of its subtrees was changed, and no other node. -/
theorem replace (W : InTree M m d b d' x left mid right)
    (hdistinct : ((left ++ mid ++ right).map Leaf.block).Nodup)
    (hother : ∀ d'' y l c r, InTree M m d b d'' y l c r → y ≠ x → m' y = m y)
    (T' : EvenTree M m' d' x mid') : EvenTree M m' d b (left ++ mid' ++ right) := by
  induction W with
  | root T => rwa [List.nil_append, List.append_nil]
  | @child d b c i d' x left mid right below N hbelow hi W ih =>
      have hbx : b ≠ x := by
        rintro rfl
        have hdepth := ((EvenTree.node below N hbelow).unique_all W.tree).1
        have hle := W.le
        omega
      have hpage := hother _ _ _ _ _ (.root (.node below N hbelow)) hbx
      have hchild : ∀ j, childBlock m' b j = childBlock m b j := fun j => by
        rw [childBlock, hpage, ← childBlock]
      have hparts := (hbelow i hi).unique W.around
      have hall : (List.range i).flatMap below ++ left ++ mid ++
          (right ++ (List.range' (i + 1) (c - (i + 1))).flatMap below) =
          (List.range c).flatMap below := by
        rw [flatMap_range_split below hi, hparts]
        simp only [List.append_assoc]
      rw [hall] at hdistinct
      have hinner : ((left ++ mid ++ right).map Leaf.block).Nodup := by
        rw [List.map_flatMap, List.nodup_flatMap] at hdistinct
        rw [← hparts]
        exact hdistinct.1 i (List.mem_range.mpr hi)
      have hdeeper := ih hinner fun _ _ _ _ _ V => hother _ _ _ _ _ (.child below N hbelow hi V)
      have T := EvenTree.node (fun j => if j = i then left ++ mid' ++ right else below j)
        (N.congr hpage) fun j hj => by
          rw [hchild]
          by_cases hji : j = i
          · rw [if_pos hji, hji]
            exact hdeeper T'
          · rw [if_neg hji]
            refine (hbelow j hj).congr fun _ y _ _ _ V =>
              hother _ _ _ _ _ (.child below N hbelow hj V) ?_
            -- the leaves of the changed subtree are not below this child
            rintro rfl
            obtain ⟨-, rfl⟩ := V.tree.unique_all W.tree
            obtain ⟨l, hl⟩ := List.exists_mem_of_ne_nil _ W.tree.leaves_ne_nil
            refine not_mem_below hdistinct hi hj hji (l := l) ?_ ?_
            · rw [hparts]
              exact List.mem_append_left _ (List.mem_append_right _ hl)
            · rw [(hbelow j hj).unique V.around]
              exact List.mem_append_left _ (List.mem_append_right _ hl)
      rw [flatMap_range_replace _ _ hi] at T
      simpa only [List.append_assoc] using T

end InTree

/-! ## The node that takes a key -/

/-- Block `x` is the first node above the leaves with a leaf key that is not less than the key, or the
last one. -/
def TakesKey (M : Mapping) (m : Image) (d b : ℕ) (key : UInt64) (x : ℕ) (left mid right : List Leaf) :
    Prop :=
  InTree M m d b 1 x left mid right ∧ (∀ l ∈ left, l.key < key) ∧
    ((∃ l ∈ mid, key ≤ l.key) ∨ right = [])

/-- A node in front of child `j` does not take the key if all leaves there have smaller keys. -/
theorem not_takes_before {j : ℕ} (hij : i < j) (hj : j < c) (hmid : ∀ l ∈ mid, l ∈ below i)
    (hlt : ∀ l ∈ (List.range j).flatMap below, l.key < key) (hne : below j ≠ []) :
    ¬((∃ l ∈ mid, key ≤ l.key) ∨
      right ++ (List.range' (i + 1) (c - (i + 1))).flatMap below = []) := by
  rintro (⟨l, hl, hle⟩ | hnil)
  · have hmem := List.mem_flatMap.mpr ⟨i, List.mem_range.mpr hij, hmid l hl⟩
    exact UInt64.not_lt.mpr hle (hlt l hmem)
  · have hback := (List.append_eq_nil_iff.mp hnil).2
    exact hne (List.flatMap_eq_nil_iff.mp hback j (by
      rw [List.mem_range'_1]
      omega))

/-- There is one such node. -/
theorem InTree.takesKey_unique (W : InTree M m d b d' x left mid right) (hd : d' = 1)
    (hleft : ∀ l ∈ left, l.key < key) (hmid : (∃ l ∈ mid, key ≤ l.key) ∨ right = [])
    (h' : TakesKey M m d b key y left' mid' right') : x = y := by
  induction W generalizing left' mid' right' with
  | root T =>
      subst hd
      obtain ⟨W', -, -⟩ := h'
      cases W' with
      | root => rfl
      | child below N hbelow hi V => exact absurd V.le (by omega)
  | @child d b c i d' x left mid right below N hbelow hi W ih =>
      obtain ⟨W', hleft', hmid'⟩ := h'
      cases W' with
      | root => exact absurd W.le (by omega)
      | @child _ _ c' j _ _ left' mid' right' below' N' hbelow' hj V =>
          obtain rfl := N.unique N'
          have hsame : ∀ t < c, below' t = below t := fun t ht => (hbelow' t ht).unique (hbelow t ht)
          have hfront : (List.range j).flatMap below' = (List.range j).flatMap below :=
            List.flatMap_congr fun t ht => hsame t (by
              have := List.mem_range.mp ht
              omega)
          have hback : (List.range' (j + 1) (c - (j + 1))).flatMap below' =
              (List.range' (j + 1) (c - (j + 1))).flatMap below :=
            List.flatMap_congr fun t ht => hsame t (by
              rw [List.mem_range'_1] at ht
              omega)
          rw [hfront] at hleft'
          rw [hback] at hmid'
          have hinW : ∀ l ∈ mid, l ∈ below i := fun l hl => by
            rw [(hbelow i hi).unique W.around]
            exact List.mem_append_left _ (List.mem_append_right _ hl)
          have hinV : ∀ l ∈ mid', l ∈ below j := fun l hl => by
            rw [(hbelow j hj).unique V.around]
            exact List.mem_append_left _ (List.mem_append_right _ hl)
          rcases Nat.lt_trichotomy i j with hlt | rfl | hgt
          · exact absurd hmid (not_takes_before hlt hj hinW
              (fun l hl => hleft' l (List.mem_append_left _ hl)) (hbelow j hj).leaves_ne_nil)
          · exact ih hd (fun l hl => hleft l (List.mem_append_right _ hl))
              (hmid.imp_right fun h => (List.append_eq_nil_iff.mp h).1)
              ⟨V, fun l hl => hleft' l (List.mem_append_right _ hl),
                hmid'.imp_right fun h => (List.append_eq_nil_iff.mp h).1⟩
          · exact absurd hmid' (not_takes_before hgt hi hinV
              (fun l hl => hleft l (List.mem_append_left _ hl)) (hbelow i hi).leaves_ne_nil)

end Nbtrfs
