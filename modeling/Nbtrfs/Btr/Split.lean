import Nbtrfs.Btr.NodeTree

/-!
# Splitting a node

Reference: `btr.c::btree_split_root`, `btr.c::btree_split_child`.

Both splits copy keys and children of a full node into new nodes, position by position, and give each
child that is moved its new parent. `Filling` is what holds of a new node while that goes on.
-/

namespace Nbtrfs

open BlockProg

/-! ## Children -/

namespace BTreeNode

/-- The children of a node, in order. -/
def children (node : BTreeNode) : List UInt64 :=
  ((List.range (maxKeys + 1)).map node.childAt).filter (· ≠ 0)

/-- The children of the node stand at the first `n` positions. -/
structure Occupied (node : BTreeNode) (n : ℕ) : Prop where
  le : n ≤ maxKeys + 1
  ne_zero : ∀ i < n, node.childAt i ≠ 0
  past : ∀ i, n ≤ i → i ≤ maxKeys → node.childAt i = 0

/-- The children of a node with `n` of them are its first `n` child words. -/
theorem Occupied.children_eq {node : BTreeNode} {n : ℕ} (h : node.Occupied n) :
    node.children = (List.range n).map node.childAt := by
  have hsplit : List.range (maxKeys + 1) =
      List.range n ++ (List.range (maxKeys + 1 - n)).map (n + ·) := by
    rw [← List.range_add]
    congr 1
    have := h.le
    omega
  rw [children, hsplit, List.map_append, List.filter_append, List.filter_eq_self.mpr,
    List.filter_eq_nil_iff.mpr, List.append_nil]
  · intro c hc
    simp only [List.mem_map, List.mem_range, exists_exists_and_eq_and] at hc
    obtain ⟨i, hi, rfl⟩ := hc
    rw [h.past (n + i) (Nat.le_add_right n i) (by omega)]
    decide
  · intro c hc
    obtain ⟨i, hi, rfl⟩ := List.mem_map.mp hc
    exact decide_eq_true (h.ne_zero i (List.mem_range.mp hi))

/-- A node that takes a new child at position `p`, with the children from there on moved up. -/
theorem Occupied.insert {node node' : BTreeNode} {p n : ℕ} {b : UInt64} (h : node.Occupied n)
    (hp : p ≤ n) (hroom : n ≤ maxKeys) (hb : b ≠ 0)
    (hchild : ∀ i ≤ maxKeys, node'.childAt i =
      if i < p then node.childAt i else if i = p then b else node.childAt (i - 1)) :
    node'.Occupied (n + 1) ∧ node'.children = node.children.insertIdx p b := by
  have hocc : node'.Occupied (n + 1) := by
    refine ⟨by omega, fun i hi => ?_, fun i hlo hi => ?_⟩
    · rw [hchild i (by omega)]
      split_ifs with hlt hnew
      · exact h.ne_zero i (by omega)
      · exact hb
      · exact h.ne_zero (i - 1) (by omega)
    · rw [hchild i hi, if_neg (by omega), if_neg (by omega)]
      exact h.past (i - 1) (by omega) (by omega)
  refine ⟨hocc, ?_⟩
  rw [hocc.children_eq, h.children_eq]
  apply List.ext_getElem
  · rw [List.length_insertIdx_of_le_length (by simpa using hp), List.length_map,
      List.length_map, List.length_range, List.length_range]
  · intro i hi hi'
    rw [List.length_map, List.length_range] at hi
    rw [List.getElem_map, List.getElem_range, hchild i (by omega), List.getElem_insertIdx]
    by_cases hlt : i < p
    · rw [if_pos hlt, dif_pos hlt, List.getElem_map, List.getElem_range]
    · by_cases hnew : i = p
      · rw [if_neg hlt, if_pos hnew, dif_neg hlt, dif_pos hnew]
      · rw [if_neg hlt, if_neg hnew, dif_neg hlt, dif_neg hnew, List.getElem_map,
          List.getElem_range]

/-- No key from `num_keys` on and no child behind `num_keys` is left. -/
structure Clean (node : BTreeNode) : Prop where
  key : ∀ i, node.numKeys.toNat ≤ i → i < maxKeys → node.keyAt i = 0
  child : ∀ i, node.numKeys.toNat < i → i ≤ maxKeys → node.childAt i = 0

/-- `node` holds `nk` keys and `nc` children of `src`, from position `d` of it on, and no others. -/
structure Holds (node src : BTreeNode) (d nk nc : ℕ) : Prop where
  keys_le : nk ≤ maxKeys
  children_le : nc ≤ maxKeys + 1
  key : ∀ i < nk, node.keyAt i = src.keyAt (i + d)
  keyPast : ∀ i, nk ≤ i → i < maxKeys → node.keyAt i = 0
  child : ∀ i < nc, node.childAt i = src.childAt (i + d)
  childPast : ∀ i, nc ≤ i → i ≤ maxKeys → node.childAt i = 0

variable {node node' src : BTreeNode} {d nk nc : ℕ}

theorem numKeys_setKeyAt (node : BTreeNode) (i : ℕ) (v : UInt64) :
    (node.setKeyAt i v).numKeys = node.numKeys := rfl

theorem numKeys_setChildAt (node : BTreeNode) (i : ℕ) (v : UInt64) :
    (node.setChildAt i v).numKeys = node.numKeys := rfl

theorem holds_init (block : UInt64) (leaf : Bool) (node src : BTreeNode) (d : ℕ) :
    Holds (node.init block leaf) src d 0 0 where
  keys_le := Nat.zero_le _
  children_le := Nat.zero_le _
  key i hi := absurd hi (Nat.not_lt_zero i)
  keyPast _ _ _ := word_init _ _ _ _
  child i hi := absurd hi (Nat.not_lt_zero i)
  childPast _ _ _ := word_init _ _ _ _

namespace Holds

variable (h : Holds node src d nk nc)
include h

/-- Only the arrays count. -/
theorem congr (hword : ∀ w < 501, node'.word w = node.word w) : Holds node' src d nk nc := by
  have hmax : maxKeys = 250 := rfl
  have hkeys := h.keys_le
  have hchildren := h.children_le
  refine ⟨hkeys, hchildren, fun i hi => ?_, fun i hlo hi => ?_, fun i hi => ?_, fun i hlo hi => ?_⟩
  · rw [← h.key i hi, keyAt, keyAt, hword i (by omega)]
  · rw [← h.keyPast i hlo hi, keyAt, keyAt, hword i (by omega)]
  · rw [← h.child i hi, childAt, childAt, hword _ (by omega)]
  · rw [← h.childPast i hlo hi, childAt, childAt, hword _ (by omega)]

/-- The next key is copied. -/
theorem setKeyAt (hroom : nk < maxKeys) :
    Holds (node.setKeyAt nk (src.keyAt (nk + d))) src d (nk + 1) nc := by
  have hmax : maxKeys = 250 := rfl
  have hwords : nodeWords = 504 := rfl
  have hchildren := h.children_le
  refine ⟨hroom, hchildren, fun i hi => ?_, fun i hlo hi => ?_, fun i hi => ?_, fun i hlo hi => ?_⟩
  · rw [keyAt, BTreeNode.setKeyAt, word_setWord]
    by_cases hlast : i = nk
    · rw [if_pos ⟨hlast, by omega⟩, hlast]
    · rw [if_neg (by omega)]
      exact h.key i (by omega)
  · rw [keyAt, BTreeNode.setKeyAt, word_setWord, if_neg (by omega)]
    exact h.keyPast i (by omega) hi
  · rw [childAt, BTreeNode.setKeyAt, word_setWord, if_neg (by omega)]
    exact h.child i hi
  · rw [childAt, BTreeNode.setKeyAt, word_setWord, if_neg (by omega)]
    exact h.childPast i hlo hi

/-- A child is copied, the next one or one that is there. -/
theorem setChildAt {j nc' : ℕ} (hj : j < nc') (hnc : nc ≤ nc') (hle : nc' ≤ maxKeys + 1)
    (hnext : ∀ i < nc', i < nc ∨ i = j) :
    Holds (node.setChildAt j (src.childAt (j + d))) src d nk nc' := by
  have hmax : maxKeys = 250 := rfl
  have hwords : nodeWords = 504 := rfl
  have hkeys := h.keys_le
  refine ⟨hkeys, hle, fun i hi => ?_, fun i hlo hi => ?_, fun i hi => ?_, fun i hlo hi => ?_⟩
  · rw [keyAt, BTreeNode.setChildAt, word_setWord, if_neg (by omega)]
    exact h.key i hi
  · rw [keyAt, BTreeNode.setChildAt, word_setWord, if_neg (by omega)]
    exact h.keyPast i hlo hi
  · rw [childAt, BTreeNode.setChildAt, word_setWord]
    by_cases hlast : i = j
    · rw [if_pos ⟨by omega, by omega⟩, hlast]
    · rw [if_neg (by omega)]
      exact h.child i ((hnext i hi).resolve_right hlast)
  · rw [childAt, BTreeNode.setChildAt, word_setWord, if_neg (by omega)]
    exact h.childPast i (by omega) hi

end Holds

end BTreeNode

/-! ## New nodes -/

variable {disk : DiskInterface} {m m' m₀ : Image} {K : Finset ℕ} {f x : ℕ}

/-- `btree_node_create` on the first free block: a node that holds nothing. -/
theorem FirstFree.exists_node (H : FirstFree disk m f) (A : BitmapArea disk m) (leaf : Bool) :
    ∃ m', run disk.mapping (btreeNodeCreate disk leaf) m = some (UInt64.ofNat f, m') ∧
      IsNode disk.mapping m' f ∧
      (∃ node, BTreeNode.ofPage (m' f) = BTreeNode.init (UInt64.ofNat f) leaf node) ∧
      BitmapArea disk m' ∧
      (∀ b < disk.totalBlocks.toNat, blockBit m' b = if b = f then true else blockBit m b) ∧
      ∀ b, blockBitmapBlocks disk.totalBlocks.toNat < b → b ≠ f → m' b = m b := by
  have hbehind := A.lt_of_clear H.clear
  have hlt := H.lt_total
  obtain ⟨m', hrun, hnode, hother, hpage⟩ := H.exists_create A leaf
  have hlow : ∀ c ≤ blockBitmapBlocks disk.totalBlocks.toNat, m' c = Nbtrfs.takeBlock m f c :=
    fun c hc => hother c (by omega)
  refine ⟨m', hrun, hnode, hpage, (A.takeBlock f).congr (by omega) hlow, fun b hb => ?_,
    fun b hb hne => ?_⟩
  · rw [BitmapArea.bit_congr hlow hb, blockBit_takeBlock]
  · rw [hother b hne, takeBlock_of_behind hlt hb]

/-- `btree_node_create` on a full volume, all of whose blocks can be addressed: the null pointer. -/
theorem BitmapArea.run_btreeNodeCreate_full (A : BitmapArea disk m)
    (hbehind : blockBitmapBlocks disk.totalBlocks.toNat < disk.totalBlocks.toNat)
    (hnear : disk.addressable = disk.totalBlocks.toNat) (hfull : nearFree disk m = 0) (leaf : Bool) :
    run disk.mapping (btreeNodeCreate disk leaf) m = some (0, m) := by
  have hset : ∀ b < disk.totalBlocks.toNat, blockBit m b = true := by
    intro b hb
    by_contra hclear
    refine absurd hfull (Finset.card_pos.mpr ⟨b, Finset.mem_filter.mpr ⟨?_, ?_⟩⟩).ne'
    · rw [hnear]
      exact Finset.mem_range.mpr hb
    · simpa using hclear
  rcases allocPage_cases (A.bitmapTo_all (by omega)) with ⟨f, hf, hclear, -⟩ | ⟨-, hrun⟩
  · rw [hset f hf] at hclear
    cases hclear
  · rw [btreeNodeCreate, run_bind_of_eq hrun, if_pos rfl, run_pure]

/-- The blocks of `K` are in use, behind the bitmap. -/
structure InUse (disk : DiskInterface) (m : Image) (K : Finset ℕ) : Prop where
  area : BitmapArea disk m
  lt : ∀ b ∈ K, b < disk.totalBlocks.toNat
  behind : ∀ b ∈ K, blockBitmapBlocks disk.totalBlocks.toNat < b
  bit : ∀ b ∈ K, blockBit m b = true

theorem InUse.mono {K' : Finset ℕ} (U : InUse disk m K) (h : K' ⊆ K) : InUse disk m K' where
  area := U.area
  lt b hb := U.lt b (h hb)
  behind b hb := U.behind b (h hb)
  bit b hb := U.bit b (h hb)

theorem InUse.not_mem (U : InUse disk m K) (H : FirstFree disk m f) : f ∉ K := by
  intro hmem
  have hset := U.bit f hmem
  rw [H.clear] at hset
  cases hset

/-- The calls that may be nested suffice for a descent through `K`. -/
theorem InUse.card_le (U : InUse disk m K) : K.card ≤ callDepth disk := by
  have hsub : K ⊆ Finset.range disk.totalBlocks.toNat :=
    fun b hb => Finset.mem_range.mpr (U.lt b hb)
  have hcard := Finset.card_le_card hsub
  rw [Finset.card_range] at hcard
  rw [callDepth]
  omega

/-! ## Moving children -/

/-- From `m` to `m'` the children `lo`, ..., `i - 1` of `src` were given the parent `p`, and besides
theirs only page `x` changed. -/
structure Adopted (m m' : Image) (K : Finset ℕ) (src : BTreeNode) (x lo i : ℕ) (p : UInt64) : Prop
    where
  parent : ∀ j, lo ≤ j → j < i → src.childAt j ≠ 0 →
    (BTreeNode.ofPage (m' (src.childAt j).toNat)).parent = p
  tree : ∀ b ∈ K, SameNode (m b) (m' b)
  other : ∀ b, b ≠ x → (∀ j, lo ≤ j → j < i → src.childAt j ≠ 0 → b ≠ (src.childAt j).toNat) →
    m' b = m b

/-- The new node `x` while keys and children of `src` from position `d` on are moved to it: it holds
`nk` and `nc` of them, counts `c` keys, and the children from `lo` up to `i` are its own. -/
structure Filling (disk : DiskInterface) (m₀ m : Image) (K : Finset ℕ) (src : BTreeNode)
    (x lo d : ℕ) (nk nc c i : ℕ) : Prop where
  node : IsNode disk.mapping m x
  blockNumber : (BTreeNode.ofPage (m x)).blockNumber = UInt64.ofNat x
  isLeaf : (BTreeNode.ofPage (m x)).isLeaf = 0
  numKeys : (BTreeNode.ofPage (m x)).numKeys.toNat = c
  links : ∀ w, 501 ≤ w → (BTreeNode.ofPage (m x)).word w = (BTreeNode.ofPage (m₀ x)).word w
  holds : (BTreeNode.ofPage (m x)).Holds src d nk nc
  adopted : Adopted m₀ m K src x lo i (UInt64.ofNat x)

namespace Filling

variable {src : BTreeNode} {lo d nk nc nk' nc' c c' i i' : ℕ}

/-- The node itself is edited. -/
theorem exists_edit (F : Filling disk m₀ m K src x lo d nk nc c i) (hx : x ∉ K)
    (hchild : ∀ j, lo ≤ j → j < i → src.childAt j ≠ 0 → (src.childAt j).toNat ∈ K)
    {g : BTreeNode → BTreeNode} {node : BTreeNode} (hnode : BTreeNode.ofPage (m x) = node)
    (hblock : (g node).blockNumber = node.blockNumber) (hleaf : (g node).isLeaf = node.isLeaf)
    (hlinks : ∀ w, 501 ≤ w → (g node).word w = node.word w) (hcount : (g node).numKeys.toNat = c')
    (hholds : (g node).Holds src d nk' nc') :
    ∃ m', run disk.mapping (editNode (UInt64.ofNat x) g) m = some ((), m') ∧
      Filling disk m₀ m' K src x lo d nk' nc' c' i := by
  obtain ⟨m', hrun, hpage, htype, hother⟩ := F.node.exists_edit g
  rw [hnode] at hpage
  refine ⟨m', hrun, ⟨F.node.addr, htype⟩, ?_, ?_, ?_, fun w hw => ?_, ?_, ?_⟩
  · rw [hpage, hblock, ← hnode, F.blockNumber]
  · rw [hpage, hleaf, ← hnode, F.isLeaf]
  · rw [hpage, hcount]
  · rw [hpage, hlinks w hw, ← hnode, F.links w hw]
  · rwa [hpage]
  · refine ⟨fun j hlo hj hne => ?_, fun b hb => ?_, fun b hbx hb => ?_⟩
    · rw [hother _ fun h => hx (h ▸ hchild j hlo hj hne)]
      exact F.adopted.parent j hlo hj hne
    · rw [hother b fun h => hx (h ▸ hb)]
      exact F.adopted.tree b hb
    · rw [hother b hbx]
      exact F.adopted.other b hbx hb

/-- A child is given to the new node. -/
theorem exists_adopt (F : Filling disk m₀ m K src x lo d nk nc c i) (hx : x ∉ K) {j : ℕ}
    (hlo : lo ≤ j) (hj : j < i') (hi : i ≤ i') (hnext : ∀ k, lo ≤ k → k < i' → k < i ∨ k = j)
    (T : src.childAt j ≠ 0 → NodeTree disk.mapping m₀ K (src.childAt j).toNat) :
    ∃ m', run disk.mapping (adopt (src.childAt j) (UInt64.ofNat x)) m = some ((), m') ∧
      Filling disk m₀ m' K src x lo d nk nc c i' := by
  by_cases hzero : src.childAt j = 0
  · refine ⟨m, by rw [hzero]; exact adopt_zero _, F.node, F.blockNumber, F.isLeaf, F.numKeys, F.links,
      F.holds, fun k hk hki hne => ?_, F.adopted.tree, fun b hbx hb => ?_⟩
    · rcases hnext k hk hki with h | rfl
      · exact F.adopted.parent k hk h hne
      · exact absurd hzero hne
    · exact F.adopted.other b hbx fun k hk hki hne => hb k hk (by omega) hne
  · have T' : NodeTree disk.mapping m K (src.childAt j).toNat := (T hzero).congr F.adopted.tree
    obtain ⟨m', hrun, hparent, hsame, hother⟩ := T'.exists_adopt hzero (UInt64.ofNat x)
    have hself : m' x = m x := hother x fun h => hx (h ▸ T'.mem)
    refine ⟨m', hrun, ⟨F.node.addr, by rw [hself]; exact F.node.type⟩, by rw [hself]; exact F.blockNumber,
      by rw [hself]; exact F.isLeaf, by rw [hself]; exact F.numKeys,
      fun w hw => by rw [hself]; exact F.links w hw, by rw [hself]; exact F.holds,
      fun k hk hki hne => ?_, fun b hb => ?_, fun b hbx hb => ?_⟩
    · by_cases hsamePage : (src.childAt k).toNat = (src.childAt j).toNat
      · rw [hsamePage, hparent]
      · rw [hother _ hsamePage]
        refine F.adopted.parent k hk ((hnext k hk hki).resolve_right ?_) hne
        rintro rfl
        exact hsamePage rfl
    · by_cases hbj : b = (src.childAt j).toNat
      · rw [hbj] at hb ⊢
        exact (F.adopted.tree _ hb).trans hsame
      · rw [hother b hbj]
        exact F.adopted.tree b hb
    · rw [hother b (hb j hlo hj hzero)]
      exact F.adopted.other b hbx fun k hk hki hne => hb k hk (by omega) hne

/-- The next key is copied and counted. -/
theorem exists_pushKey (F : Filling disk m₀ m K src x lo d nk nc nk i) (hx : x ∉ K)
    (hchild : ∀ j, lo ≤ j → j < i → src.childAt j ≠ 0 → (src.childAt j).toNat ∈ K)
    (hroom : nk < maxKeys) :
    ∃ m', run disk.mapping (editNode (UInt64.ofNat x) fun node =>
        { node.setKeyAt nk (src.keyAt (nk + d)) with numKeys := node.numKeys + 1 }) m =
        some ((), m') ∧ Filling disk m₀ m' K src x lo d (nk + 1) nc (nk + 1) i := by
  have hmax : maxKeys = 250 := rfl
  have hcount := F.numKeys
  refine F.exists_edit hx hchild rfl rfl rfl (fun w hw => ?_) ?_ ?_
  · show (BTreeNode.setWord _ _ _).word w = _
    rw [BTreeNode.word_setWord, if_neg (by omega)]
  · show ((BTreeNode.ofPage (m x)).numKeys + 1).toNat = nk + 1
    rw [UInt16.toNat_add, hcount]
    show (nk + 1) % 65536 = nk + 1
    omega
  · exact (F.holds.setKeyAt hroom).congr fun _ _ => rfl

/-- A child is copied. -/
theorem exists_setChild (F : Filling disk m₀ m K src x lo d nk nc c i) (hx : x ∉ K)
    (hchild : ∀ j, lo ≤ j → j < i → src.childAt j ≠ 0 → (src.childAt j).toNat ∈ K) {j : ℕ}
    (hj : j < nc') (hnc : nc ≤ nc') (hle : nc' ≤ maxKeys + 1) (hnext : ∀ k < nc', k < nc ∨ k = j) :
    ∃ m', run disk.mapping (editNode (UInt64.ofNat x) fun node =>
        node.setChildAt j (src.childAt (j + d))) m = some ((), m') ∧
      Filling disk m₀ m' K src x lo d nk nc' c i := by
  have hmax : maxKeys = 250 := rfl
  refine F.exists_edit hx hchild rfl rfl rfl (fun w hw => ?_) ?_
    (F.holds.setChildAt hj hnc hle hnext)
  · rw [BTreeNode.setChildAt, BTreeNode.word_setWord, if_neg (by omega)]
  · rw [BTreeNode.numKeys_setChildAt, F.numKeys]

theorem run_number (F : Filling disk m₀ m K src x lo d nk nc c i) :
    run disk.mapping (nodeAt (UInt64.ofNat x)) m = some (BTreeNode.ofPage (m x), m) :=
  F.node.run_nodeAt

end Filling

/-- A node that was just created is filled from position `d` on. -/
theorem filling_refl {src : BTreeNode} {d : ℕ} (hnode : IsNode disk.mapping m x)
    (hblock : (BTreeNode.ofPage (m x)).blockNumber = UInt64.ofNat x)
    (hleaf : (BTreeNode.ofPage (m x)).isLeaf = 0) (hcount : (BTreeNode.ofPage (m x)).numKeys = 0)
    (hwords : ∀ w < 501, (BTreeNode.ofPage (m x)).word w = 0) :
    Filling disk m m K src x d d 0 0 0 d where
  node := hnode
  blockNumber := hblock
  isLeaf := hleaf
  numKeys := by
    rw [hcount]
    rfl
  links _ _ := rfl
  holds := (BTreeNode.holds_init 0 false src src d).congr fun w hw => by
    rw [hwords w hw, BTreeNode.word_init]
  adopted := ⟨fun j hlo hj => absurd hj (by omega), fun b _ => SameNode.refl _, fun _ _ _ => rfl⟩

/-! ## Splitting the root -/

section Root

variable {root : BTreeNode} {g : ℕ}

/-- The loop that moves the first `minKeys` keys and children. -/
theorem Filling.run_moveLow (F : Filling disk m₀ m K root x 0 0 0 0 0 0) (hx : x ∉ K)
    (T : ∀ i ≤ maxKeys, root.childAt i ≠ 0 → NodeTree disk.mapping m₀ K (root.childAt i).toNat) :
    ∃ s m', run disk.mapping (forUp (fun i (_ : Unit) => do
        editNode (UInt64.ofNat x) fun a => (a.setKeyAt i (root.keyAt i)).setChildAt i (root.childAt i)
        let a ← nodeAt (UInt64.ofNat x)
        adopt (root.childAt i) a.blockNumber
        editNode (UInt64.ofNat x) fun a => { a with numKeys := a.numKeys + 1 }) minKeys 0 ()) m =
        some (s, m') ∧
      Filling disk m₀ m' K root x 0 0 minKeys minKeys minKeys minKeys := by
  have hmax : maxKeys = 250 := rfl
  have hmin : minKeys = 125 := rfl
  have hmem : ∀ j ≤ maxKeys, root.childAt j ≠ 0 → (root.childAt j).toNat ∈ K :=
    fun j hj hne => (T j hj hne).mem
  refine run_forUp (fun i _ m => Filling disk m₀ m K root x 0 0 i i i i) F fun i _ m _ hi F => ?_
  -- the key and the child are copied
  have hcopy := (F.holds.setKeyAt (by omega)).setChildAt (j := i) (Nat.lt_succ_self i)
    (Nat.le_succ i) (by omega) fun k hk => by omega
  obtain ⟨m₁, hrun₁, F₁⟩ := F.exists_edit hx (fun j _ hj => hmem j (by omega))
    (g := fun a => (a.setKeyAt i (root.keyAt i)).setChildAt i (root.childAt i)) rfl rfl rfl
    (fun w hw => by
      rw [BTreeNode.setChildAt, BTreeNode.setKeyAt, BTreeNode.word_setWord,
        BTreeNode.word_setWord, if_neg (by omega), if_neg (by omega)])
    (by rw [BTreeNode.numKeys_setChildAt, BTreeNode.numKeys_setKeyAt, F.numKeys]) hcopy
  obtain ⟨m₂, hrun₂, F₂⟩ := F₁.exists_adopt hx (j := i) (Nat.zero_le i) (Nat.lt_succ_self i)
    (Nat.le_succ i) (fun k _ hk => by omega) (T i (by omega))
  -- the key is counted
  have hcount : ((BTreeNode.ofPage (m₂ x)).numKeys + 1).toNat = i + 1 := by
    rw [UInt16.toNat_add, F₂.numKeys]
    show (i + 1) % 65536 = i + 1
    omega
  obtain ⟨m₃, hrun₃, F₃⟩ := F₂.exists_edit hx (fun j _ hj => hmem j (by omega))
    (g := fun a => { a with numKeys := a.numKeys + 1 }) rfl rfl rfl (fun _ _ => rfl) hcount
    (F₂.holds.congr fun _ _ => rfl)
  refine ⟨(), m₃, ?_, F₃⟩
  rw [run_bind_of_eq hrun₁, run_bind_of_eq F₁.run_number, F₁.blockNumber, run_bind_of_eq hrun₂,
    hrun₃]

/-- The loop that copies the keys from position `d` on. -/
theorem Filling.run_copyKeys (F : Filling disk m₀ m K root x (minKeys + 1) (minKeys + 1) 0 0 0
      (minKeys + 1)) (hx : x ∉ K) {n : ℕ} (hn : minKeys + 1 + n ≤ maxKeys) :
    ∃ s m', run disk.mapping (forUp (fun i (_ : Unit) =>
        editNode (UInt64.ofNat x) fun b =>
          { b.setKeyAt (i - minKeys - 1) (root.keyAt i) with numKeys := b.numKeys + 1 })
        n (minKeys + 1) ()) m = some (s, m') ∧
      Filling disk m₀ m' K root x (minKeys + 1) (minKeys + 1) n 0 n (minKeys + 1) := by
  have hmax : maxKeys = 250 := rfl
  have hmin : minKeys = 125 := rfl
  obtain ⟨s, m', hrun, F'⟩ : ∃ s m', run disk.mapping (forUp (fun i (_ : Unit) =>
        editNode (UInt64.ofNat x) fun b =>
          { b.setKeyAt (i - minKeys - 1) (root.keyAt i) with numKeys := b.numKeys + 1 })
        n (minKeys + 1) ()) m = some (s, m') ∧
      Filling disk m₀ m' K root x (minKeys + 1) (minKeys + 1) (minKeys + 1 + n - (minKeys + 1)) 0
        (minKeys + 1 + n - (minKeys + 1)) (minKeys + 1) := by
    refine run_forUp (fun i _ m => Filling disk m₀ m K root x (minKeys + 1) (minKeys + 1)
      (i - (minKeys + 1)) 0 (i - (minKeys + 1)) (minKeys + 1)) (by rwa [Nat.sub_self])
      fun i _ m hlo hi F => ?_
    obtain ⟨m₁, hrun₁, F₁⟩ := F.exists_pushKey hx (fun j _ hj => absurd hj (by omega)) (by omega)
    have hpos : i - (minKeys + 1) + (minKeys + 1) = i := by omega
    have hnext : i - (minKeys + 1) + 1 = i + 1 - (minKeys + 1) := by omega
    rw [hpos, ← Nat.sub_sub] at hrun₁
    rw [hnext] at F₁
    exact ⟨(), m₁, hrun₁, F₁⟩
  rw [Nat.add_sub_cancel_left] at F'
  exact ⟨s, m', hrun, F'⟩

/-- The loop that moves the children from position `d` on. -/
theorem Filling.run_moveHigh {nk n : ℕ} (F : Filling disk m₀ m K root x (minKeys + 1) (minKeys + 1)
      nk 0 nk (minKeys + 1)) (hx : x ∉ K) (hn : minKeys + n ≤ maxKeys)
    (T : ∀ i ≤ maxKeys, root.childAt i ≠ 0 → NodeTree disk.mapping m₀ K (root.childAt i).toNat) :
    ∃ s m', run disk.mapping (forUp (fun i (_ : Unit) => do
        editNode (UInt64.ofNat x) fun b => b.setChildAt (i - minKeys - 1) (root.childAt i)
        adopt (root.childAt i) (← nodeAt (UInt64.ofNat x)).blockNumber)
        n (minKeys + 1) ()) m = some (s, m') ∧
      Filling disk m₀ m' K root x (minKeys + 1) (minKeys + 1) nk n nk (minKeys + 1 + n) := by
  have hmax : maxKeys = 250 := rfl
  have hmin : minKeys = 125 := rfl
  obtain ⟨s, m', hrun, F'⟩ : ∃ s m', run disk.mapping (forUp (fun i (_ : Unit) => do
        editNode (UInt64.ofNat x) fun b => b.setChildAt (i - minKeys - 1) (root.childAt i)
        adopt (root.childAt i) (← nodeAt (UInt64.ofNat x)).blockNumber)
        n (minKeys + 1) ()) m = some (s, m') ∧
      Filling disk m₀ m' K root x (minKeys + 1) (minKeys + 1) nk
        (minKeys + 1 + n - (minKeys + 1)) nk (minKeys + 1 + n) := by
    refine run_forUp (fun i _ m => Filling disk m₀ m K root x (minKeys + 1) (minKeys + 1) nk
      (i - (minKeys + 1)) nk i) (by rwa [Nat.sub_self]) fun i _ m hlo hi F => ?_
    obtain ⟨m₁, hrun₁, F₁⟩ := F.exists_setChild hx (fun j _ hj hne => (T j (by omega) hne).mem)
      (show i - (minKeys + 1) < i + 1 - (minKeys + 1) by omega) (by omega) (by omega)
      fun k hk => by omega
    have hpos : i - (minKeys + 1) + (minKeys + 1) = i := by omega
    rw [hpos] at hrun₁
    obtain ⟨m₂, hrun₂, F₂⟩ := F₁.exists_adopt hx (j := i) hlo (Nat.lt_succ_self i) (Nat.le_succ i)
      (fun k _ hk => by omega) (T i (by omega))
    refine ⟨(), m₂, ?_, F₂⟩
    rw [Nat.sub_sub, run_bind_of_eq hrun₁, run_bind_of_eq F₁.run_number, F₁.blockNumber, hrun₂]
  rw [Nat.add_sub_cancel_left] at F'
  exact ⟨s, m', hrun, F'⟩

end Root

/-- The children of `root` are those of the two new nodes `a` and `b`, which `root'` lists. -/
structure RootSplit (m m' : Image) (root root' : BTreeNode) (a b : ℕ) : Prop where
  fresh : blockBit m a = false ∧ blockBit m b = false ∧ a ≠ b
  children : (BTreeNode.ofPage (m' a)).children ++ (BTreeNode.ofPage (m' b)).children =
    root.children
  listed : root'.children = [UInt64.ofNat a, UInt64.ofNat b]
  siblings : (BTreeNode.ofPage (m' a)).rightSibling = UInt64.ofNat b ∧
    (BTreeNode.ofPage (m' b)).leftSibling = UInt64.ofNat a
  parent_a : ∀ c ∈ (BTreeNode.ofPage (m' a)).children,
    (BTreeNode.ofPage (m' c.toNat)).parent = UInt64.ofNat a
  parent_b : ∀ c ∈ (BTreeNode.ofPage (m' b)).children,
    (BTreeNode.ofPage (m' c.toNat)).parent = UInt64.ofNat b
  clean : (BTreeNode.ofPage (m' a)).Clean ∧ (BTreeNode.ofPage (m' b)).Clean ∧ root'.Clean

/-- Two new nodes, linked to each other. -/
structure Twins (disk : DiskInterface) (m m' : Image) (K : Finset ℕ) (a b : ℕ) : Prop where
  fresh : blockBit m a = false ∧ blockBit m b = false ∧ a ≠ b
  lt : a < disk.totalBlocks.toNat ∧ b < disk.totalBlocks.toNat
  number : UInt64.ofNat a ≠ 0 ∧ UInt64.ofNat b ≠ 0
  not_mem : a ∉ K ∧ b ∉ K
  node_a : IsNode disk.mapping m' a
  node_b : IsNode disk.mapping m' b
  page_a : ∃ node, BTreeNode.ofPage (m' a) =
    (BTreeNode.init (UInt64.ofNat a) false node).setRightSibling (UInt64.ofNat b)
  page_b : ∃ node, BTreeNode.ofPage (m' b) =
    (BTreeNode.init (UInt64.ofNat b) false node).setLeftSibling (UInt64.ofNat a)
  same : ∀ c ∈ K, m' c = m c
  other : ∀ c, blockBitmapBlocks disk.totalBlocks.toNat < c → c ≠ a → c ≠ b → m' c = m c

/-- How `btree_split_root` begins. -/
theorem InUse.exists_twins (U : InUse disk m K) (hfree : 2 ≤ nearFree disk m) :
    ∃ a b m₁ m₂ m₃ m' nodeA nodeB,
      run disk.mapping (btreeNodeCreate disk false) m = some (UInt64.ofNat a, m₁) ∧
      run disk.mapping (btreeNodeCreate disk false) m₁ = some (UInt64.ofNat b, m₂) ∧
      run disk.mapping (nodeAt (UInt64.ofNat b)) m₂ = some (nodeB, m₂) ∧
      nodeB.blockNumber = UInt64.ofNat b ∧
      run disk.mapping (editNode (UInt64.ofNat a) fun node =>
        node.setRightSibling (UInt64.ofNat b)) m₂ = some ((), m₃) ∧
      run disk.mapping (nodeAt (UInt64.ofNat a)) m₃ = some (nodeA, m₃) ∧
      nodeA.blockNumber = UInt64.ofNat a ∧
      run disk.mapping (editNode (UInt64.ofNat b) fun node =>
        node.setLeftSibling (UInt64.ofNat a)) m₃ = some ((), m') ∧ Twins disk m m' K a b := by
  obtain ⟨a, Ha⟩ := exists_firstFree (by omega : 0 < nearFree disk m)
  obtain ⟨m₁, hrun₁, hnode₁, ⟨na, hpage₁⟩, A₁, hbits₁, hother₁⟩ := Ha.exists_node U.area false
  have hcount := Ha.nearFree_eq hbits₁
  obtain ⟨b, Hb⟩ := exists_firstFree (by omega : 0 < nearFree disk m₁)
  obtain ⟨m₂, hrun₂, hnode₂, ⟨nb, hpage₂⟩, A₂, hbits₂, hother₂⟩ := Hb.exists_node A₁ false
  -- the second block was free before as well
  have hclear := Hb.clear
  rw [hbits₁ b Hb.lt_total] at hclear
  have hne : a ≠ b := by
    rintro rfl
    rw [if_pos rfl] at hclear
    cases hclear
  rw [if_neg hne.symm] at hclear
  have ha := U.not_mem Ha
  have hb : b ∉ K := by
    intro hmem
    rw [U.bit b hmem] at hclear
    cases hclear
  have hself : m₂ a = m₁ a := hother₂ a (U.area.lt_of_clear Ha.clear) hne
  have hnodeA : IsNode disk.mapping m₂ a := ⟨hnode₁.addr, by rw [hself]; exact hnode₁.type⟩
  obtain ⟨m₃, hrun₃, hpage₃, htype₃, hother₃⟩ := hnodeA.exists_edit fun node =>
    node.setRightSibling (UInt64.ofNat b)
  rw [hself, hpage₁] at hpage₃
  have hnodeB : IsNode disk.mapping m₃ b := ⟨hnode₂.addr, by rw [hother₃ b hne.symm]; exact hnode₂.type⟩
  obtain ⟨m₄, hrun₄, hpage₄, htype₄, hother₄⟩ := hnodeB.exists_edit fun node =>
    node.setLeftSibling (UInt64.ofNat a)
  rw [hother₃ b hne.symm, hpage₂] at hpage₄
  have hnodeA₃ : IsNode disk.mapping m₃ a := ⟨hnode₁.addr, htype₃⟩
  have hother : ∀ c, blockBitmapBlocks disk.totalBlocks.toNat < c → c ≠ a → c ≠ b →
      m₄ c = m c := fun c hc hca hcb => by
    rw [hother₄ c hcb, hother₃ c hca, hother₂ c hc hcb, hother₁ c hc hca]
  refine ⟨a, b, m₁, m₂, m₃, m₄, BTreeNode.ofPage (m₃ a), BTreeNode.ofPage (m₂ b), hrun₁, hrun₂,
    hnode₂.run_nodeAt, by rw [hpage₂]; rfl, hrun₃,
    hnodeA₃.run_nodeAt, by rw [hpage₃]; rfl, hrun₄, ⟨Ha.clear, hclear, hne⟩,
    ⟨Ha.lt_total, Hb.lt_total⟩,
    ⟨Ha.number_ne_zero U.area, Hb.number_ne_zero A₁⟩, ⟨ha, hb⟩,
    ⟨hnode₁.addr, by rw [hother₄ a hne]; exact htype₃⟩, ⟨hnode₂.addr, htype₄⟩,
    ⟨na, by rw [hother₄ a hne, hpage₃]⟩, ⟨nb, hpage₄⟩, fun c hc => ?_, hother⟩
  exact hother c (U.behind c hc) (fun h => ha (h ▸ hc)) fun h => hb (h ▸ hc)

/-- The copy of the root in `btree_split_root`, with the two new children. -/
def twoChildren (root : BTreeNode) (a b : UInt64) : BTreeNode :=
  (((({ root with isLeaf := 0, numKeys := 1 } : BTreeNode).setChildAt 0 a).setChildAt 1
    b).clearWords 1 (maxKeys - 1)).clearWords (maxKeys + 2) (maxKeys - 1)

/-- What `btree_split_root` makes of the copy of the root. -/
def splitRootCopy (root : BTreeNode) (a b max : UInt64) : BTreeNode :=
  (twoChildren root a b).setKeyAt 0 max

theorem sameFields_twoChildren (root : BTreeNode) (a b : UInt64) :
    BTreeNode.SameFields (twoChildren root a b) { root with isLeaf := 0, numKeys := 1 } := by
  have h1 := BTreeNode.sameFields_clearWords ((({ root with isLeaf := 0, numKeys := 1 } :
    BTreeNode).setChildAt 0 a).setChildAt 1 b) 1 (maxKeys - 1)
  have h2 := BTreeNode.sameFields_clearWords (((({ root with isLeaf := 0, numKeys := 1 } :
    BTreeNode).setChildAt 0 a).setChildAt 1 b).clearWords 1 (maxKeys - 1)) (maxKeys + 2)
    (maxKeys - 1)
  exact ⟨h2.blockNumber.trans h1.blockNumber, h2.isLeaf.trans h1.isLeaf,
    h2.numKeys.trans h1.numKeys⟩

/-- After a split the root holds the largest key of the lower part, the two halves, and zeros. -/
theorem word_splitRootCopy (root : BTreeNode) (a b max : UInt64) {w : ℕ} (hw : w < 501) :
    (splitRootCopy root a b max).word w =
      if w = 0 then max else if w = maxKeys then a else if w = maxKeys + 1 then b else 0 := by
  have hmax : maxKeys = 250 := rfl
  have hwords : nodeWords = 504 := rfl
  rw [splitRootCopy, twoChildren, BTreeNode.setKeyAt, BTreeNode.word_setWord,
    BTreeNode.word_clearWords _ (by omega), BTreeNode.word_clearWords _ (by omega),
    BTreeNode.setChildAt, BTreeNode.setChildAt, BTreeNode.word_setWord, BTreeNode.word_setWord]
  by_cases h0 : w = 0
  · rw [if_pos ⟨h0, by omega⟩, if_pos h0]
  · rw [if_neg (by omega), if_neg h0]
    by_cases hclear : maxKeys + 2 ≤ w ∨ w < maxKeys
    · rw [if_neg (by omega : ¬w = maxKeys), if_neg (by omega : ¬w = maxKeys + 1)]
      by_cases hhigh : maxKeys + 2 ≤ w
      · rw [if_pos (by omega)]
      · rw [if_neg (by omega), if_pos (by omega)]
    · rw [if_neg (by omega), if_neg (by omega)]
      by_cases ha : w = maxKeys
      · rw [if_neg (by omega), if_pos (by omega), if_pos ha]
      · rw [if_pos (by omega), if_neg ha, if_pos (by omega)]

theorem numKeys_splitRootCopy (root : BTreeNode) (a b max : UInt64) :
    (splitRootCopy root a b max).numKeys = 1 := by
  rw [splitRootCopy, BTreeNode.numKeys_setKeyAt]
  exact (sameFields_twoChildren root a b).numKeys

theorem blockNumber_setKeyAt (node : BTreeNode) (i : ℕ) (v : UInt64) :
    (node.setKeyAt i v).blockNumber = node.blockNumber := rfl

theorem blockNumber_splitRootCopy (root : BTreeNode) (a b max : UInt64) :
    (splitRootCopy root a b max).blockNumber = root.blockNumber := by
  rw [splitRootCopy, blockNumber_setKeyAt]
  exact (sameFields_twoChildren root a b).blockNumber

/-- So behind its keys and children there is nothing left. -/
theorem clean_splitRootCopy (root : BTreeNode) (a b max : UInt64) :
    (splitRootCopy root a b max).Clean := by
  have hmax : maxKeys = 250 := rfl
  have hone : (splitRootCopy root a b max).numKeys.toNat = 1 := by
    rw [numKeys_splitRootCopy]
    rfl
  refine ⟨fun i hlo hi => ?_, fun i hlo hi => ?_⟩
  · rw [BTreeNode.keyAt, word_splitRootCopy _ _ _ _ (by omega), if_neg (by omega),
      if_neg (by omega), if_neg (by omega)]
  · rw [BTreeNode.childAt, word_splitRootCopy _ _ _ _ (by omega), if_neg (by omega),
      if_neg (by omega), if_neg (by omega)]

/-- And its children are the two halves. -/
theorem children_splitRootCopy (root : BTreeNode) {a b : UInt64} (ha : a ≠ 0) (hb : b ≠ 0)
    (max : UInt64) : (splitRootCopy root a b max).children = [a, b] := by
  have hmax : maxKeys = 250 := rfl
  have hchild : ∀ i ≤ maxKeys, (splitRootCopy root a b max).childAt i =
      if i = 0 then a else if i = 1 then b else 0 := by
    intro i hi
    rw [BTreeNode.childAt, word_splitRootCopy _ _ _ _ (by omega), if_neg (by omega)]
    by_cases h0 : i = 0
    · rw [if_pos (by omega), if_pos h0]
    · rw [if_neg (by omega), if_neg h0]
      by_cases h1 : i = 1
      · rw [if_pos (by omega), if_pos h1]
      · rw [if_neg (by omega), if_neg h1]
  have hocc : (splitRootCopy root a b max).Occupied 2 := by
    refine ⟨by omega, fun i hi => ?_, fun i hlo hi => ?_⟩
    · rw [hchild i (by omega)]
      by_cases h0 : i = 0
      · rwa [if_pos h0]
      · rwa [if_neg h0, if_pos (by omega)]
    · rw [hchild i hi, if_neg (by omega), if_neg (by omega)]
  rw [hocc.children_eq]
  show [(splitRootCopy root a b max).childAt 0, (splitRootCopy root a b max).childAt 1] = [a, b]
  rw [hchild 0 (by omega), hchild 1 (by omega)]
  rfl

/-- A full node: it has `n` children, one for each key or one more, each a tree in `K`. -/
structure Full (disk : DiskInterface) (m : Image) (K : Finset ℕ) (node : BTreeNode) (n : ℕ) : Prop
    where
  numKeys : node.numKeys.toNat = maxKeys
  occupied : node.Occupied n
  count : maxKeys ≤ n
  tree : ∀ i < n, NodeTree disk.mapping m K (node.childAt i).toNat
  inj : ∀ i < n, ∀ j < n, node.childAt i = node.childAt j → i = j

namespace Full

variable {root : BTreeNode} {n : ℕ}

theorem lt_of_ne_zero (R : Full disk m K root n) {i : ℕ} (hi : i ≤ maxKeys)
    (hne : root.childAt i ≠ 0) : i < n := by
  by_contra hge
  exact hne (R.occupied.past i (by omega) hi)

theorem mono {K' : Finset ℕ} (R : Full disk m K root n) (h : K ⊆ K') : Full disk m K' root n where
  numKeys := R.numKeys
  occupied := R.occupied
  count := R.count
  tree i hi := (R.tree i hi).mono h
  inj := R.inj

theorem trees (R : Full disk m K root n) {i : ℕ} (hi : i ≤ maxKeys) (hne : root.childAt i ≠ 0) :
    NodeTree disk.mapping m K (root.childAt i).toNat := R.tree i (R.lt_of_ne_zero hi hne)

end Full

namespace BTreeNode.Holds

variable {node src : BTreeNode} {d nk nc n : ℕ}

/-- The children that are there. -/
theorem occupied (h : node.Holds src d nk nc) (hsrc : src.Occupied n) (hend : d + nc ≤ maxKeys + 1) :
    node.Occupied (min nc (n - d)) := by
  refine ⟨by omega, fun i hi => ?_, fun i hlo hi => ?_⟩
  · rw [h.child i (by omega)]
    exact hsrc.ne_zero _ (by omega)
  · by_cases hin : i < nc
    · rw [h.child i hin]
      exact hsrc.past _ (by omega) (by omega)
    · exact h.childPast i (by omega) hi

theorem children_eq (h : node.Holds src d nk nc) (hsrc : src.Occupied n)
    (hend : d + nc ≤ maxKeys + 1) :
    node.children = (List.range (min nc (n - d))).map fun i => src.childAt (d + i) := by
  rw [(h.occupied hsrc hend).children_eq]
  apply List.map_congr_left
  intro i hi
  have hlt := List.mem_range.mp hi
  rw [h.child i (by omega), Nat.add_comm]

theorem clean (h : node.Holds src d nk nc) (hcount : node.numKeys.toNat = nk)
    (hle : nc ≤ nk + 1) : node.Clean where
  key i hlo hi := h.keyPast i (by omega) hi
  child i hlo hi := h.childPast i (by omega) hi

end BTreeNode.Holds

namespace Full

variable {root low high : BTreeNode} {n : ℕ}

/-- A node with the first children and one with the others have the children of the full node. -/
theorem children_append (R : Full disk m K root n)
    (hlow : low.Holds root 0 minKeys (minKeys + 1))
    (hhigh : high.Holds root (minKeys + 1) (maxKeys - (minKeys + 1)) (maxKeys - minKeys)) :
    low.children ++ high.children = root.children := by
  have hmax : maxKeys = 250 := rfl
  have hmin : minKeys = 125 := rfl
  have hle := R.occupied.le
  have hcount := R.count
  have hsplit : List.range n = List.range (minKeys + 1) ++
      (List.range (n - (minKeys + 1))).map (minKeys + 1 + ·) := by
    have htotal : minKeys + 1 + (n - (minKeys + 1)) = n := by omega
    rw [← List.range_add, htotal]
  rw [hlow.children_eq R.occupied (by omega), hhigh.children_eq R.occupied (by omega),
    R.occupied.children_eq, hsplit, List.map_append, List.map_map, min_eq_left (by omega),
    min_eq_right (by omega)]
  simp only [Nat.zero_add]
  rfl

theorem mem_low (R : Full disk m K root n) (hlow : low.Holds root 0 minKeys (minKeys + 1))
    {c : UInt64} (hc : c ∈ low.children) : ∃ i ≤ minKeys, root.childAt i = c := by
  have hmax : maxKeys = 250 := rfl
  have hmin : minKeys = 125 := rfl
  rw [hlow.children_eq R.occupied (by omega)] at hc
  obtain ⟨i, hi, rfl⟩ := List.mem_map.mp hc
  have hlt := List.mem_range.mp hi
  exact ⟨0 + i, by omega, rfl⟩

/-- Every child of the upper half is a child that the root had. -/
theorem mem_high (R : Full disk m K root n)
    (hhigh : high.Holds root (minKeys + 1) (maxKeys - (minKeys + 1)) (maxKeys - minKeys))
    {c : UInt64} (hc : c ∈ high.children) :
    ∃ i, minKeys + 1 ≤ i ∧ i < n ∧ root.childAt i = c := by
  have hmax : maxKeys = 250 := rfl
  have hmin : minKeys = 125 := rfl
  rw [hhigh.children_eq R.occupied (by omega)] at hc
  obtain ⟨i, hi, rfl⟩ := List.mem_map.mp hc
  have hlt := List.mem_range.mp hi
  exact ⟨minKeys + 1 + i, Nat.le_add_right _ i, by omega, rfl⟩

end Full

/-- The last child of `btree_split_root` is copied and given to its node once more. -/
theorem Filling.exists_lastChild {root : BTreeNode} (F : Filling disk m₀ m K root x (minKeys + 1)
      (minKeys + 1) (maxKeys - (minKeys + 1)) (maxKeys - minKeys) (maxKeys - (minKeys + 1))
      (maxKeys + 1)) (hx : x ∉ K)
    (T : ∀ i ≤ maxKeys, root.childAt i ≠ 0 → NodeTree disk.mapping m₀ K (root.childAt i).toNat) :
    ∃ m', (∀ {α : Type} (rest : Unit → BlockProg α), run disk.mapping (if root.childAt maxKeys ≠ 0
        then do
          editNode (UInt64.ofNat x) fun b => b.setChildAt b.numKeys.toNat (root.childAt maxKeys)
          let b ← nodeAt (UInt64.ofNat x)
          let r ← adopt (root.childAt maxKeys) b.blockNumber
          rest r
        else rest ()) m = run disk.mapping (rest ()) m') ∧
      Filling disk m₀ m' K root x (minKeys + 1) (minKeys + 1) (maxKeys - (minKeys + 1))
        (maxKeys - minKeys) (maxKeys - (minKeys + 1)) (maxKeys + 1) := by
  have hmax : maxKeys = 250 := rfl
  have hmin : minKeys = 125 := rfl
  by_cases hzero : root.childAt maxKeys = 0
  · exact ⟨m, fun rest => by rw [if_neg (not_not.mpr hzero)], F⟩
  · have hlast : (BTreeNode.ofPage (m x)).numKeys.toNat = maxKeys - (minKeys + 1) := F.numKeys
    have hpos : maxKeys - (minKeys + 1) + (minKeys + 1) = maxKeys := by omega
    have hcopy := F.holds.setChildAt (show maxKeys - (minKeys + 1) < maxKeys - minKeys by omega)
      le_rfl (by omega) fun k hk => Or.inl hk
    rw [hpos, ← hlast] at hcopy
    obtain ⟨m₁, hrun₁, F₁⟩ := F.exists_edit hx (fun j _ hj hne => (T j (by omega) hne).mem)
      (g := fun b => b.setChildAt b.numKeys.toNat (root.childAt maxKeys)) rfl rfl rfl
      (fun w hw => by
        rw [hlast, BTreeNode.setChildAt, BTreeNode.word_setWord, if_neg (by omega)])
      (by rw [BTreeNode.numKeys_setChildAt, F.numKeys]) hcopy
    rw [hlast] at F₁
    obtain ⟨m₂, hrun₂, F₂⟩ := F₁.exists_adopt hx (show minKeys + 1 ≤ maxKeys by omega)
      (Nat.lt_succ_self _) le_rfl (fun k _ hk => Or.inl hk) (T maxKeys le_rfl)
    refine ⟨m₂, fun rest => ?_, F₂⟩
    rw [if_pos hzero, run_bind_of_eq hrun₁, run_bind_of_eq F₁.run_number, F₁.blockNumber,
      run_bind_of_eq hrun₂]

namespace Twins

variable {a b : ℕ} {root : BTreeNode} {n : ℕ}

/-- At the start of the copying loops the first new node is empty. -/
theorem fills_a (W : Twins disk m m' K a b) (root : BTreeNode) :
    Filling disk m' m' K root a 0 0 0 0 0 0 := by
  obtain ⟨node, hpage⟩ := W.page_a
  refine filling_refl W.node_a ?_ ?_ ?_ fun w hw => ?_
  · rw [hpage]
    rfl
  · rw [hpage]
    rfl
  · rw [hpage]
    rfl
  · rw [hpage, BTreeNode.setRightSibling, BTreeNode.word_setWord, if_neg (by omega),
      BTreeNode.word_init]

/-- The second node is as it was after the first one was filled. -/
theorem page_b_of_filling (W : Twins disk m m' K a b) {m₁ : Image} {lo d nk nc c i : ℕ}
    (F : Filling disk m' m₁ K root a lo d nk nc c i)
    (hmem : ∀ j, lo ≤ j → j < i → root.childAt j ≠ 0 → (root.childAt j).toNat ∈ K) :
    m₁ b = m' b := by
  refine F.adopted.other b W.fresh.2.2.symm fun j hlo hj hne h => W.not_mem.2 ?_
  rw [h]
  exact hmem j hlo hj hne

/-- At the start of its loop the second new node is empty, whatever the first one holds. -/
theorem fills_b (W : Twins disk m m' K a b) {m₁ : Image} (hb : m₁ b = m' b) (root : BTreeNode)
    (d : ℕ) : Filling disk m₁ m₁ K root b d d 0 0 0 d := by
  obtain ⟨node, hpage⟩ := W.page_b
  refine filling_refl ⟨W.node_b.addr, by rw [hb]; exact W.node_b.type⟩ ?_ ?_ ?_
    fun w hw => ?_
  · rw [hb, hpage]
    rfl
  · rw [hb, hpage]
    rfl
  · rw [hb, hpage]
    rfl
  · rw [hb, hpage, BTreeNode.setLeftSibling, BTreeNode.word_setWord, if_neg (by omega),
      BTreeNode.word_init]

theorem tree (W : Twins disk m m' K a b) (R : Full disk m K root n) {i : ℕ} (hi : i ≤ maxKeys)
    (hne : root.childAt i ≠ 0) : NodeTree disk.mapping m' K (root.childAt i).toNat :=
  (R.trees hi hne).congr fun c hc => by
    rw [W.same c hc]
    exact SameNode.refl _

end Twins

/-- A new node of children in `K` is a tree, so `btree_find_maximum` returns on it. -/
theorem exists_run_findMaximum (U : InUse disk m K) {x : ℕ} (hx : x ∉ K)
    (hlt : x < disk.totalBlocks.toNat) (hnode : IsNode disk.mapping m' x)
    (hblock : (BTreeNode.ofPage (m' x)).blockNumber = UInt64.ofNat x)
    (hleaf : (BTreeNode.ofPage (m' x)).isLeaf = 0)
    (hkeys : (BTreeNode.ofPage (m' x)).numKeys.toNat ≤ maxKeys)
    (T : ∀ i ≤ maxKeys, (BTreeNode.ofPage (m' x)).childAt i ≠ 0 →
      NodeTree disk.mapping m' K ((BTreeNode.ofPage (m' x)).childAt i).toNat) :
    ∃ k, run disk.mapping (btreeFindMaximum disk (UInt64.ofNat x)) m' = some (k, m') := by
  have hsub : insert x K ⊆ Finset.range disk.totalBlocks.toNat := by
    intro b hb
    rcases Finset.mem_insert.mp hb with rfl | hb
    · exact Finset.mem_range.mpr hlt
    · exact Finset.mem_range.mpr (U.lt b hb)
  have hcard := Finset.card_le_card hsub
  rw [Finset.card_range] at hcard
  have htree : NodeTree disk.mapping m' (insert x K) x :=
    NodeTree.node (Finset.mem_insert_self x K) hnode hblock hleaf hkeys fun i hi hne => by
      rw [Finset.erase_insert hx]
      exact T i (by omega) hne
  refine htree.exists_run_maximumFrom ?_
  rw [callDepth]
  omega

namespace Full

variable {root : BTreeNode} {n a b : ℕ} {m₁ m₂ m₃ m₄ : Image}

/-- The two new nodes after the children were moved and the nodes were given their parent. -/
theorem rootSplit (R : Full disk m K root n) (W : Twins disk m m₁ K a b)
    (low : Filling disk m₁ m₂ K root a 0 0 minKeys (minKeys + 1) minKeys (minKeys + 1))
    (high : Filling disk m₂ m₃ K root b (minKeys + 1) (minKeys + 1) (maxKeys - (minKeys + 1))
      (maxKeys - minKeys) (maxKeys - (minKeys + 1)) (maxKeys + 1))
    {p max : UInt64}
    (ha : BTreeNode.ofPage (m₄ a) = (BTreeNode.ofPage (m₂ a)).setParent p)
    (hb : BTreeNode.ofPage (m₄ b) = (BTreeNode.ofPage (m₃ b)).setParent p)
    (hother : ∀ c, c ≠ a → c ≠ b → m₄ c = m₃ c) :
    RootSplit m m₄ root (splitRootCopy root (UInt64.ofNat a) (UInt64.ofNat b) max) a b := by
  have hmax : maxKeys = 250 := rfl
  have hmin : minKeys = 125 := rfl
  have hle := R.occupied.le
  have hcount := R.count
  have hA : (BTreeNode.ofPage (m₄ a)).Holds root 0 minKeys (minKeys + 1) := low.holds.congr
    fun w hw => by rw [ha, BTreeNode.setParent, BTreeNode.word_setWord, if_neg (by omega)]
  have hB : (BTreeNode.ofPage (m₄ b)).Holds root (minKeys + 1) (maxKeys - (minKeys + 1))
      (maxKeys - minKeys) := high.holds.congr
    fun w hw => by rw [hb, BTreeNode.setParent, BTreeNode.word_setWord, if_neg (by omega)]
  have hmem : ∀ i < n, (root.childAt i).toNat ∈ K := fun i hi => (R.tree i hi).mem
  have hne : ∀ i < n, (root.childAt i).toNat ≠ a ∧ (root.childAt i).toNat ≠ b := fun i hi =>
    ⟨fun h => W.not_mem.1 (h ▸ hmem i hi), fun h => W.not_mem.2 (h ▸ hmem i hi)⟩
  obtain ⟨nodeA, hpageA⟩ := W.page_a
  obtain ⟨nodeB, hpageB⟩ := W.page_b
  refine ⟨W.fresh, R.children_append hA hB, ?_, ⟨?_, ?_⟩, fun c hc => ?_, fun c hc => ?_,
    hA.clean ?_ le_rfl, hB.clean ?_ (by omega), clean_splitRootCopy _ _ _ _⟩
  · exact children_splitRootCopy root W.number.1 W.number.2 max
  · rw [ha, BTreeNode.rightSibling, BTreeNode.setParent, BTreeNode.word_setWord,
      if_neg (by omega), low.links _ (by omega), hpageA, BTreeNode.setRightSibling,
      BTreeNode.word_setWord, if_pos (by decide)]
  · rw [hb, BTreeNode.leftSibling, BTreeNode.setParent, BTreeNode.word_setWord,
      if_neg (by omega), high.links _ (by omega), W.page_b_of_filling low fun j _ hj hzero =>
        (W.tree R (by omega) hzero).mem, hpageB, BTreeNode.setLeftSibling,
      BTreeNode.word_setWord, if_pos (by decide)]
  · obtain ⟨i, hi, rfl⟩ := R.mem_low hA hc
    have hin : i < n := by omega
    have hsame := high.adopted.other _ (hne i hin).2 fun j hlo hj hzero h => by
      have hij := R.inj i hin j (R.lt_of_ne_zero (by omega) hzero) (UInt64.toNat_inj.mp h)
      omega
    rw [hother _ (hne i hin).1 (hne i hin).2, hsame]
    exact low.adopted.parent i (Nat.zero_le i) (by omega) (R.occupied.ne_zero i hin)
  · obtain ⟨i, hlo, hin, rfl⟩ := R.mem_high hB hc
    rw [hother _ (hne i hin).1 (hne i hin).2]
    exact high.adopted.parent i hlo (by omega) (R.occupied.ne_zero i hin)
  · rw [ha]
    exact low.numKeys
  · rw [hb]
    exact high.numKeys

end Full

/-- `btree_split_root` follows a null pointer when there is no page for both nodes. -/
theorem run_btreeSplitRoot_none {root : BTreeNode} (A : BitmapArea disk m)
    (hbehind : blockBitmapBlocks disk.totalBlocks.toNat < disk.totalBlocks.toNat)
    (hnear : disk.addressable = disk.totalBlocks.toNat) (hfree : nearFree disk m < 2) :
    run disk.mapping (btreeSplitRoot disk root) m = none := by
  rcases Nat.eq_zero_or_pos (nearFree disk m) with hzero | hpos
  · have hrun := A.run_btreeNodeCreate_full hbehind hnear hzero false
    rw [btreeSplitRoot, run_bind_of_eq hrun, run_bind_of_eq hrun, if_pos (Or.inl rfl), run_crash]
  · obtain ⟨a, H⟩ := exists_firstFree hpos
    obtain ⟨m₁, hrun₁, -, -, A₁, hbits₁, -⟩ := H.exists_node A false
    have hcount := H.nearFree_eq hbits₁
    have hrun₂ := A₁.run_btreeNodeCreate_full hbehind hnear (by omega) false
    rw [btreeSplitRoot, run_bind_of_eq hrun₁, run_bind_of_eq hrun₂, if_pos (Or.inr rfl), run_crash]

/-- What `btree_split_root` leaves alone besides that. -/
structure RootFrame (disk : DiskInterface) (m m' : Image) (K : Finset ℕ) (root root' : BTreeNode)
    (a b : ℕ) : Prop where
  blockNumber : root'.blockNumber = root.blockNumber
  lt : a < disk.totalBlocks.toNat ∧ b < disk.totalBlocks.toNat
  same : ∀ c ∈ K, SameNode (m c) (m' c)
  other : ∀ c, blockBitmapBlocks disk.totalBlocks.toNat < c → c ∉ K → c ≠ a → c ≠ b → m' c = m c

/-- `btree_split_root` keeps the sequence of the children. -/
theorem btreeSplitRoot_children {root : BTreeNode} {n : ℕ} (U : InUse disk m K)
    (hfree : 2 ≤ nearFree disk m) (R : Full disk m K root n) :
    ∃ m' root' a b, run disk.mapping (btreeSplitRoot disk root) m = some (root', m') ∧
      RootSplit m m' root root' a b ∧ RootFrame disk m m' K root root' a b := by
  have hmax : maxKeys = 250 := rfl
  have hmin : minKeys = 125 := rfl
  obtain ⟨a, b, m₁, m₂, m₃, m₄, nodeA, nodeB, hrun₁, hrun₂, hread₂, hnumB, hrun₃, hread₃,
    hnumA, hrun₄, W⟩ := U.exists_twins hfree
  have T₄ := fun i hi => W.tree R (i := i) hi
  have hmem : ∀ j ≤ maxKeys, root.childAt j ≠ 0 → (root.childAt j).toNat ∈ K :=
    fun j hj hne => (T₄ j hj hne).mem
  -- the first half
  obtain ⟨s₅, m₅, hrun₅, F₅⟩ := (W.fills_a root).run_moveLow W.not_mem.1 T₄
  obtain ⟨m₆, hrun₆, F₆⟩ := F₅.exists_setChild W.not_mem.1 (fun j _ hj => hmem j (by omega))
    (Nat.lt_succ_self minKeys) (Nat.le_succ _) (by omega) fun k hk => by omega
  obtain ⟨m₇, hrun₇, F₇⟩ := F₆.exists_adopt W.not_mem.1 (Nat.zero_le minKeys)
    (Nat.lt_succ_self minKeys) (Nat.le_succ _) (fun k _ hk => by omega) (T₄ minKeys (by omega))
  -- the second half
  have hb₇ := W.page_b_of_filling F₇ fun j _ hj => hmem j (by omega)
  have T₇ : ∀ i ≤ maxKeys, root.childAt i ≠ 0 →
      NodeTree disk.mapping m₇ K (root.childAt i).toNat :=
    fun i hi hne => (T₄ i hi hne).congr F₇.adopted.tree
  obtain ⟨s₈, m₈, hrun₈, F₈⟩ := (W.fills_b hb₇ root (minKeys + 1)).run_copyKeys
    (n := maxKeys - (minKeys + 1)) W.not_mem.2 (by omega)
  obtain ⟨s₉, m₉, hrun₉, F₉⟩ := F₈.run_moveHigh (n := maxKeys - minKeys) W.not_mem.2 (by omega) T₇
  obtain ⟨m₁₀, hrun₁₀, F₁₀⟩ := F₉.exists_lastChild W.not_mem.2 T₇
  -- the two nodes are given the root as their parent
  have hab := W.fresh.2.2
  have ha₁₀ : m₁₀ a = m₇ a := F₁₀.adopted.other a hab fun j _ hj hzero h => W.not_mem.1 (by
    rw [h]
    exact hmem j (by omega) hzero)
  have hnodeA₁₀ : IsNode disk.mapping m₁₀ a := ⟨W.node_a.addr, by rw [ha₁₀]; exact F₇.node.type⟩
  obtain ⟨m₁₁, hrun₁₁, hpage₁₁, htype₁₁, hother₁₁⟩ := hnodeA₁₀.exists_edit fun node =>
    node.setParent root.blockNumber
  have hnodeB₁₁ : IsNode disk.mapping m₁₁ b :=
    ⟨W.node_b.addr, by rw [hother₁₁ b hab.symm]; exact F₁₀.node.type⟩
  obtain ⟨m₁₂, hrun₁₂, hpage₁₂, htype₁₂, hother₁₂⟩ := hnodeB₁₁.exists_edit fun node =>
    node.setParent root.blockNumber
  have ha : BTreeNode.ofPage (m₁₂ a) = (BTreeNode.ofPage (m₇ a)).setParent root.blockNumber := by
    rw [hother₁₂ a hab, hpage₁₁, ha₁₀]
  have hb : BTreeNode.ofPage (m₁₂ b) = (BTreeNode.ofPage (m₁₀ b)).setParent root.blockNumber := by
    rw [hpage₁₂, hother₁₁ b hab.symm]
  have hother : ∀ c, c ≠ a → c ≠ b → m₁₂ c = m₁₀ c := fun c hca hcb => by
    rw [hother₁₂ c hcb, hother₁₁ c hca]
  have hnodeA₁₂ : IsNode disk.mapping m₁₂ a := ⟨W.node_a.addr, by rw [hother₁₂ a hab]; exact htype₁₁⟩
  have hblockA : (BTreeNode.ofPage (m₁₂ a)).blockNumber = UInt64.ofNat a := by
    rw [ha]
    exact F₇.blockNumber
  -- the maximum below the first one
  obtain ⟨max, hmaximum⟩ := exists_run_findMaximum U W.not_mem.1 W.lt.1 hnodeA₁₂ hblockA
    (by rw [ha]; exact F₇.isLeaf)
    (by
      rw [ha]
      show (BTreeNode.ofPage (m₇ a)).numKeys.toNat ≤ maxKeys
      rw [F₇.numKeys]
      omega)
    fun i hi hne => by
      rw [ha, BTreeNode.childAt_setParent hi] at hne ⊢
      by_cases hlt : i < minKeys + 1
      · rw [F₇.holds.child i hlt, Nat.add_zero] at hne ⊢
        refine ((T₇ i hi hne).congr F₁₀.adopted.tree).congr fun c hc => ?_
        rw [hother c (fun h => W.not_mem.1 (h ▸ hc)) fun h => W.not_mem.2 (h ▸ hc)]
        exact SameNode.refl _
      · exact absurd (F₇.holds.childPast i (by omega) hi) hne
  have hkeep : ∀ c, blockBitmapBlocks disk.totalBlocks.toNat < c → c ∉ K → c ≠ a → c ≠ b →
      m₁₂ c = m c := fun c hc hK hca hcb => by
    have hnone : ∀ j ≤ maxKeys, root.childAt j ≠ 0 → c ≠ (root.childAt j).toNat :=
      fun j hj hne h => hK (h ▸ hmem j hj hne)
    rw [hother c hca hcb, F₁₀.adopted.other c hcb fun j _ hj => hnone j (by omega),
      F₇.adopted.other c hca fun j _ hj => hnone j (by omega), W.other c hc hca hcb]
  have hsame : ∀ c ∈ K, SameNode (m c) (m₁₂ c) := fun c hc => by
    have hca : c ≠ a := fun h => W.not_mem.1 (h ▸ hc)
    have hcb : c ≠ b := fun h => W.not_mem.2 (h ▸ hc)
    rw [hother c hca hcb, ← W.same c hc]
    exact (F₇.adopted.tree c hc).trans (F₁₀.adopted.tree c hc)
  refine ⟨m₁₂, splitRootCopy root (UInt64.ofNat a) (UInt64.ofNat b) max, a, b, ?_,
    R.rootSplit W F₇ F₁₀ ha hb hother, blockNumber_splitRootCopy root _ _ _, W.lt, hsame, hkeep⟩
  have hnull : ¬(UInt64.ofNat a = 0 ∨ UInt64.ofNat b = 0) :=
    fun h => h.elim W.number.1 W.number.2
  have hin : maxKeys + root.numKeys.toNat < nodeWords := by
    rw [R.numKeys]
    decide
  have hcount : root.numKeys.toNat + 1 - (minKeys + 1) = maxKeys - minKeys := by
    rw [R.numKeys, Nat.add_sub_add_right]
  rw [Nat.add_zero] at hrun₆
  rw [btreeSplitRoot, run_bind_of_eq hrun₁, run_bind_of_eq hrun₂, if_neg hnull,
    run_bind_of_eq hread₂]
  rw [hnumB]
  refine (run_bind_of_eq hrun₃).trans ((run_bind_of_eq hread₃).trans ?_)
  rw [hnumA]
  refine (run_bind_of_eq hrun₄).trans ?_
  rw [run_bind_of_eq hrun₅, run_bind_of_eq hrun₆, run_bind_of_eq F₆.run_number, F₆.blockNumber,
    run_bind_of_eq hrun₇, run_bind_of_eq (inNode_of_lt hin), hcount, R.numKeys,
    run_bind_of_eq hrun₈, run_bind_of_eq hrun₉]
  refine (hrun₁₀ _).trans ?_
  refine (run_bind_of_eq hnodeA₁₀.run_nodeAt).trans ((run_bind_of_eq F₁₀.run_number).trans ?_)
  rw [ha₁₀, F₇.blockNumber, F₁₀.blockNumber]
  show run disk.mapping (do
      editNode (UInt64.ofNat a) fun node =>
        node.setParent (twoChildren root (UInt64.ofNat a) (UInt64.ofNat b)).blockNumber
      editNode (UInt64.ofNat b) fun node =>
        node.setParent (twoChildren root (UInt64.ofNat a) (UInt64.ofNat b)).blockNumber
      let node ← nodeAt (UInt64.ofNat a)
      let max ← btreeFindMaximum disk node.blockNumber
      pure (splitRootCopy root (UInt64.ofNat a) (UInt64.ofNat b) max)) m₁₀ = _
  have hnumber : (twoChildren root (UInt64.ofNat a) (UInt64.ofNat b)).blockNumber =
      root.blockNumber := (sameFields_twoChildren root _ _).blockNumber
  rw [hnumber, run_bind_of_eq hrun₁₁, run_bind_of_eq hrun₁₂,
    run_bind_of_eq hnodeA₁₂.run_nodeAt, hblockA, run_bind_of_eq hmaximum, run_pure]

end Nbtrfs
