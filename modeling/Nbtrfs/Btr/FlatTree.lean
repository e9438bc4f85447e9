import Nbtrfs.Btr.FlatOps
import Nbtrfs.FreePage

/-!
# Flat trees and the block bitmap

The pages of the tree are taken from the page allocator and returned to it: in a `FlatTree` they are
marked as taken, and they are distinct and in order.
-/

namespace Nbtrfs

open BlockProg

variable {disk : DiskInterface} {m m' : Image} {r f b : ℕ} {leaves : List Leaf} {l : Leaf}

namespace FirstFree

/-- `btree_node_create` on the first free block. -/
theorem exists_create (H : FirstFree disk m f) (A : BitmapArea disk m) (leaf : Bool) :
    ∃ m', run disk.mapping (btreeNodeCreate disk leaf) m = some (UInt64.ofNat f, m') ∧
      IsNode disk.mapping m' f ∧ (∀ c ≠ f, m' c = Nbtrfs.takeBlock m f c) ∧
      ∃ node, BTreeNode.ofPage (m' f) = BTreeNode.init (UInt64.ofNat f) leaf node := by
  refine ⟨_, run_btreeNodeCreate leaf (H.run_allocPage A) (H.number_ne_zero A) H.addr,
    ⟨H.addr, ?_⟩, fun c hc => Function.update_of_ne hc _ _,
    BTreeNode.ofPage (setBlockType BlockType.btreeNode (Nbtrfs.takeBlock m f f)), ?_⟩
  · rw [Function.update_self, BTreeNode.blockType_createdPage]
  · rw [Function.update_self, BTreeNode.ofPage_createdPage]

/-- The leaf that `btree_insert` creates. -/
theorem exists_newLeaf (H : FirstFree disk m f) (A : BitmapArea disk m) (key value : UInt64)
    (type : UInt32) :
    ∃ m', run disk.mapping (newLeaf disk key value type) m = some (UInt64.ofNat f, m') ∧
      LeafPage disk m' ⟨f, key, value, type⟩ ∧ ∀ c ≠ f, m' c = Nbtrfs.takeBlock m f c := by
  have hbehind := A.lt_of_clear H.clear
  obtain ⟨m₁, hcreate, hnode₁, hother₁, node, hpage₁⟩ := H.exists_create A true
  obtain ⟨m₂, hedit, hpage₂, htype₂, hother₂⟩ := hnode₁.exists_edit fun node =>
    { node with key := key, value := value, type := type }
  rw [hpage₁] at hpage₂
  have hnode₂ : IsNode disk.mapping m₂ f := ⟨H.addr, htype₂⟩
  have hblock₂ : (BTreeNode.ofPage (m₂ f)).blockNumber = UInt64.ofNat f := by
    rw [hpage₂]
    rfl
  obtain ⟨m₃, hwrite, hpage₃, htype₃, hother₃⟩ := hnode₂.exists_write hblock₂
  rw [hpage₂] at hpage₃
  refine ⟨m₃, ?_, ?_, fun c hc => by rw [hother₃ c hc, hother₂ c hc, hother₁ c hc]⟩
  · rw [newLeaf, run_bind_of_eq hcreate, if_neg (H.number_ne_zero A), run_bind_of_eq hedit,
      run_bind_of_eq hnode₂.run_nodeAt, run_bind_of_eq hwrite, run_pure]
  · exact {
      pos := by
        show 0 < f
        omega
      lt := H.lt
      type := htype₃
      isLeaf := by
        rw [hpage₃]
        exact (by decide : (1 : UInt8) ≠ 0)
      blockNumber := by
        rw [hpage₃]
        rfl
      onPage := by
        rw [Leaf.onPage, hpage₃] }

end FirstFree

/-- The volume holds a flat tree: its pages are taken and distinct, its keys ascend. -/
structure FlatTree (disk : DiskInterface) (m : Image) (r : ℕ) (leaves : List Leaf) : Prop
    extends FlatPages disk m r leaves where
  area : BitmapArea disk m
  root_used : blockBitmapBlocks disk.totalBlocks.toNat < r ∧ blockBit m r = true
  leaf_used : ∀ l ∈ leaves, blockBitmapBlocks disk.totalBlocks.toNat < l.block ∧
    blockBit m l.block = true
  distinct : (leaves.map Leaf.block).Nodup
  sorted : leaves.Pairwise fun a b => a.key ≤ b.key

namespace FlatTree

theorem total_pos (T : FlatTree disk m r leaves) : 0 < disk.totalBlocks.toNat := by
  have hlt := T.root_lt
  have hle : disk.addressable ≤ disk.totalBlocks.toNat := min_le_left _ _
  omega

/-- The tree is kept with its pages, as long as these stay marked. -/
theorem congr (T : FlatTree disk m r leaves) (A : BitmapArea disk m') (hroot : m' r = m r)
    (hleaf : ∀ l ∈ leaves, m' l.block = m l.block)
    (hbit : ∀ b < disk.totalBlocks.toNat, blockBit m b = true → blockBit m' b = true) :
    FlatTree disk m' r leaves where
  toFlatPages := T.toFlatPages.congr hroot hleaf
  area := A
  root_used := ⟨T.root_used.1, hbit r (T.root_lt.trans_le (min_le_left _ _)) T.root_used.2⟩
  leaf_used l hl := ⟨(T.leaf_used l hl).1,
    hbit _ ((T.leaf l hl).lt.trans_le (min_le_left _ _)) (T.leaf_used l hl).2⟩
  distinct := T.distinct
  sorted := T.sorted

/-- The first free block is no page of the tree. -/
theorem root_ne (T : FlatTree disk m r leaves) (H : FirstFree disk m f) : f ≠ r := by
  intro h
  have hset := T.root_used.2
  rw [← h, H.clear] at hset
  cases hset

theorem block_ne (T : FlatTree disk m r leaves) (H : FirstFree disk m f) (hl : l ∈ leaves) :
    l.block ≠ f := by
  intro h
  have hset := (T.leaf_used l hl).2
  rw [h, H.clear] at hset
  cases hset

/-- The tree after its next leaf was created. -/
theorem pages_newLeaf (T : FlatTree disk m r leaves) (H : FirstFree disk m f)
    (hother : ∀ c ≠ f, m' c = takeBlock m f c) : FlatPages disk m' r leaves := by
  refine T.toFlatPages.congr ?_ fun l hl => ?_
  · rw [hother r (T.root_ne H).symm, takeBlock_of_behind H.lt_total T.root_used.1]
  · rw [hother _ (T.block_ne H hl), takeBlock_of_behind H.lt_total (T.leaf_used l hl).1]

end FlatTree

/-! ## The order of the leaves -/

/-- Insertion at an index, as a split of the list. -/
theorem insertIdx_eq_append {α : Type} (xs : List α) {p : ℕ} (hp : p ≤ xs.length) (x : α) :
    xs.insertIdx p x = xs.take p ++ x :: xs.drop p := by
  induction p generalizing xs with
  | zero => rfl
  | succ p ih =>
      cases xs with
      | nil => exact absurd hp (Nat.not_succ_le_zero p)
      | cons y xs =>
          rw [List.insertIdx_succ_cons, ih xs (Nat.le_of_succ_le_succ hp), List.take_succ_cons,
            List.drop_succ_cons, List.cons_append]

/-- A new leaf is entered behind all smaller keys and before all others. -/
theorem sorted_insertLeaf (h : leaves.Pairwise fun a b => a.key ≤ b.key) (l : Leaf) :
    (insertLeaf leaves l).Pairwise fun a b => a.key ≤ b.key := by
  have hle := leafPosition_le leaves l.key leaves.length
  have hsplit := h
  rw [← List.take_append_drop (leafPosition leaves l.key leaves.length) leaves,
    List.pairwise_append] at hsplit
  obtain ⟨htake, hdrop, hacross⟩ := hsplit
  rw [insertLeaf, insertIdx_eq_append _ hle, List.pairwise_append, List.pairwise_cons]
  have hbelow : ∀ a ∈ leaves.take (leafPosition leaves l.key leaves.length), a.key ≤ l.key := by
    intro a ha
    obtain ⟨i, hi, rfl⟩ := List.mem_iff_getElem.mp ha
    rw [List.length_take] at hi
    have hpos : 0 < leafPosition leaves l.key leaves.length := by omega
    obtain ⟨x, hx, hlt⟩ := lt_key_of_leafPosition_pos hpos
    obtain ⟨hlast, rfl⟩ := List.getElem?_eq_some_iff.mp hx
    rw [List.getElem_take]
    by_cases hil : i = leafPosition leaves l.key leaves.length - 1
    · subst hil
      exact UInt64.le_of_lt hlt
    · exact UInt64.le_trans (List.pairwise_iff_getElem.mp h i _ (by omega) hlast (by omega))
        (UInt64.le_of_lt hlt)
  have habove : ∀ b ∈ leaves.drop (leafPosition leaves l.key leaves.length), l.key ≤ b.key := by
    intro b hb
    obtain ⟨i, hi, rfl⟩ := List.mem_iff_getElem.mp hb
    rw [List.length_drop] at hi
    rw [List.getElem_drop]
    exact le_key_of_leafPosition_le (Nat.le_add_right _ _) (by omega)
      (List.getElem?_eq_getElem (by omega))
  refine ⟨htake, ⟨habove, hdrop⟩, fun a ha b hb => ?_⟩
  rcases List.mem_cons.mp hb with rfl | hb
  · exact hbelow a ha
  · exact hacross a ha b hb

theorem distinct_insertLeaf (h : (leaves.map Leaf.block).Nodup)
    (hne : ∀ x ∈ leaves, x.block ≠ l.block) : ((insertLeaf leaves l).map Leaf.block).Nodup := by
  have hperm : (insertLeaf leaves l).Perm (l :: leaves) :=
    List.perm_insertIdx _ _ (leafPosition_le _ _ _)
  rw [(hperm.map Leaf.block).nodup_iff, List.map_cons, List.nodup_cons]
  refine ⟨fun hmem => ?_, h⟩
  obtain ⟨x, hx, hblock⟩ := List.mem_map.mp hmem
  exact hne x hx hblock

/-! ## Operations -/

namespace FlatTree

/-- The bits and the bitmap after the leaf was created and pages of the tree were written. -/
private theorem area_newLeaf {m₁ : Image} (T : FlatTree disk m r leaves) (H : FirstFree disk m f)
    (hnew : ∀ c ≠ f, m₁ c = takeBlock m f c) (hother : ∀ c, c ≠ r → c ≠ f → m' c = m₁ c) :
    BitmapArea disk m' ∧
      ∀ b < disk.totalBlocks.toNat, blockBit m' b = if b = f then true else blockBit m b := by
  have hbehind := T.area.lt_of_clear H.clear
  have hr := T.root_used.1
  exact T.area.taken H fun c hc => by rw [hother c (by omega) (by omega), hnew c (by omega)]

/-- `btree_insert` into a flat tree with room: only the root and the new leaf change, besides what the
allocator does. -/
theorem exists_insert (T : FlatTree disk m r leaves) (H : FirstFree disk m f)
    (hroom : leaves.length < maxKeys) (key value : UInt64) (type : UInt32) :
    ∃ m', run disk.mapping (btreeInsert disk (UInt64.ofNat r) key value type) m = some (0, m') ∧
      FlatTree disk m' r (insertLeaf leaves ⟨f, key, value, type⟩) ∧
      (∀ b < disk.totalBlocks.toNat, blockBit m' b = if b = f then true else blockBit m b) ∧
      (BTreeNode.ofPage (m' r)).value = (BTreeNode.ofPage (m r)).value ∧
      ∀ c, c ≠ r → c ≠ f → m' c = takeBlock m f c := by
  obtain ⟨m₁, hnew, L, hother₁⟩ := H.exists_newLeaf T.area key value type
  have P := T.pages_newLeaf H hother₁
  obtain ⟨m', hrun, P', hvalue, hother'⟩ :=
    P.run_btreeInsert hnew L hroom fun x hx _ => P.parent x hx
  obtain ⟨A', hbits⟩ := T.area_newLeaf H hother₁ hother'
  have hroot : m₁ r = m r := by
    rw [hother₁ r (T.root_ne H).symm, takeBlock_of_behind H.lt_total T.root_used.1]
  refine ⟨m', hrun, ?_, hbits, by rw [hvalue, hroot],
    fun c hr hf => (hother' c hr hf).trans (hother₁ c hf)⟩
  exact {
    toFlatPages := P'
    area := A'
    root_used := ⟨T.root_used.1, by
      rw [hbits r (T.root_lt.trans_le (min_le_left _ _)), T.root_used.2, ite_self]⟩
    leaf_used := fun x hx => by
      rcases mem_insertLeaf.mp hx with rfl | hx
      · exact ⟨T.area.lt_of_clear H.clear, by rw [hbits f H.lt_total, if_pos rfl]⟩
      · obtain ⟨hbehind, hset⟩ := T.leaf_used x hx
        exact ⟨hbehind, by
          rw [hbits _ ((T.leaf x hx).lt.trans_le (min_le_left _ _)), hset, ite_self]⟩
    distinct := distinct_insertLeaf T.distinct fun x hx => T.block_ne H hx
    sorted := sorted_insertLeaf T.sorted _ }

theorem insert (T : FlatTree disk m r leaves) (H : FirstFree disk m f)
    (hroom : leaves.length < maxKeys) (key value : UInt64) (type : UInt32) :
    ∃ m', run disk.mapping (btreeInsert disk (UInt64.ofNat r) key value type) m = some (0, m') ∧
      FlatTree disk m' r (insertLeaf leaves ⟨f, key, value, type⟩) ∧
      ∀ b < disk.totalBlocks.toNat, blockBit m' b = if b = f then true else blockBit m b := by
  obtain ⟨m', hrun, T', hbits, -⟩ := T.exists_insert H hroom key value type
  exact ⟨m', hrun, T', hbits⟩

/-- `btree_insert` of a larger key into a full flat tree takes a page and leaves the tree alone. -/
theorem insert_full (T : FlatTree disk m r leaves) (H : FirstFree disk m f)
    (hfull : leaves.length = maxKeys) {key : UInt64} (hkey : keyOf leaves (maxKeys - 1) < key)
    (value : UInt64) (type : UInt32) :
    ∃ m', run disk.mapping (btreeInsert disk (UInt64.ofNat r) key value type) m = some (0, m') ∧
      FlatTree disk m' r leaves := by
  obtain ⟨m₁, hnew, L, hother₁⟩ := H.exists_newLeaf T.area key value type
  have P := T.pages_newLeaf H hother₁
  obtain ⟨m', hrun, P', hother'⟩ := P.run_btreeInsert_full hnew L hfull hkey
    fun x hx => T.block_ne H hx
  obtain ⟨A', hbits⟩ := T.area_newLeaf H hother₁ hother'
  refine ⟨m', hrun, ?_⟩
  exact {
    toFlatPages := P'
    area := A'
    root_used := ⟨T.root_used.1, by
      rw [hbits r (T.root_lt.trans_le (min_le_left _ _)), T.root_used.2, ite_self]⟩
    leaf_used := fun x hx => by
      obtain ⟨hbehind, hset⟩ := T.leaf_used x hx
      exact ⟨hbehind, by
        rw [hbits _ ((T.leaf x hx).lt.trans_le (min_le_left _ _)), hset, ite_self]⟩
    distinct := T.distinct
    sorted := T.sorted }

/-- `btree_delete` frees the page of the leaf that the search finds, and takes the leaf out of the
tree at which the search for the slot stops. -/
theorem exists_delete (T : FlatTree disk m r leaves) {key : UInt64} {i : ℕ} (hl : l ∈ leaves)
    (hfound : Leaf.found leaves key = UInt64.ofNat l.block) (hi : i < leaves.length)
    (hbefore : ∀ j < i, keyOf leaves j < key ∧ keyOf leaves j ≠ 0)
    (hstop : ¬(keyOf leaves i < key ∧ keyOf leaves i ≠ 0)) :
    ∃ m', run disk.mapping (btreeDelete disk (UInt64.ofNat r) key) m =
        some (UInt64.ofNat l.block, m') ∧
      FlatPages disk m' r (leaves.eraseIdx i) ∧ BitmapArea disk m' ∧
      ∀ b < disk.totalBlocks.toNat, blockBit m' b = if b = l.block then false else blockBit m b := by
  obtain ⟨m₁, hremove, P₁, hother₁⟩ := T.run_btreeRemoveKey hi hbefore hstop
  have L := T.leaf l hl
  have hlt := L.lt
  have hwrap := addressable_le disk
  have hbehind := (T.leaf_used l hl).1
  have hlow : ∀ c ≤ blockBitmapBlocks disk.totalBlocks.toNat, m₁ c = m c := fun c hc => by
    have hr := T.root_used.1
    exact hother₁ c (by omega)
  have A₁ := T.area.congr T.total_pos hlow
  have hnat : (UInt64.ofNat l.block).toNat = l.block := toNat_ofNat_block (by omega)
  have hfree := run_freePage (p := UInt64.ofNat l.block) (by omega)
    (hnat.symm ▸ A₁.bitmapTo hlt hbehind)
  rw [hnat] at hfree
  have hkeep : ∀ b, blockBitmapBlocks disk.totalBlocks.toNat < b →
      Nbtrfs.dropBlock m₁ l.block b = m₁ b := fun b hb =>
    dropBlock_of_behind (hlt.trans_le (min_le_left _ _)) hb
  refine ⟨_, ?_, P₁.congr (hkeep r T.root_used.1) fun x hx =>
    hkeep _ (T.leaf_used x (List.mem_of_mem_eraseIdx hx)).1, A₁.dropBlock hbehind, fun b hb => ?_⟩
  · rw [btreeDelete, run_bind_of_eq (T.run_btreeSearch key), hfound, if_pos L.number_ne_zero,
      run_bind_of_eq hremove, btreeNodeFree, run_bind_of_eq hfree, run_pure]
  · rw [blockBit_dropBlock, BitmapArea.bit_congr hlow hb]

/-- Where the search for the slot stops, unless a key 0 stops it before. -/
theorem slot_of_split {front back : List Leaf} (hsorted : (front ++ l :: back).Pairwise
      fun a b => a.key ≤ b.key) (hfirst : ∀ a ∈ front, a.key ≠ l.key)
    (hzero : l.key = 0 ∨ ∀ a ∈ front, a.key ≠ 0) :
    (∀ j < front.length, keyOf (front ++ l :: back) j < l.key ∧
        keyOf (front ++ l :: back) j ≠ 0) ∧ keyOf (front ++ l :: back) front.length = l.key := by
  refine ⟨fun j hj => ?_, ?_⟩
  · have hget : (front ++ l :: back)[j]? = some front[j] := by
      rw [List.getElem?_append_left hj, List.getElem?_eq_getElem hj]
    have hmem : front[j] ∈ front := List.getElem_mem hj
    have hle : front[j].key ≤ l.key :=
      (List.pairwise_append.mp hsorted).2.2 _ hmem l (List.mem_cons_self ..)
    have hlt : front[j].key < l.key := UInt64.lt_of_le_of_ne hle (hfirst _ hmem)
    rw [keyOf_of_getElem? hget]
    refine ⟨hlt, ?_⟩
    rcases hzero with h0 | hall
    · rw [h0] at hlt
      exact absurd hlt UInt64.not_lt_zero
    · exact hall _ hmem
  · refine keyOf_of_getElem? ?_
    rw [List.getElem?_append_right le_rfl, Nat.sub_self]
    rfl

/-- `btree_delete` of a key that is there, unless it stops at a key 0: the leaf is taken out. -/
theorem delete (T : FlatTree disk m r leaves) {key : UInt64}
    (hzero : key = 0 ∨ ∀ x ∈ leaves, x.key ≠ 0) (hfound : Leaf.found leaves key ≠ 0) :
    ∃ m' front l back, leaves = front ++ l :: back ∧ l.key = key ∧
      run disk.mapping (btreeDelete disk (UInt64.ofNat r) key) m =
        some (UInt64.ofNat l.block, m') ∧
      FlatTree disk m' r (front ++ back) := by
  unfold Leaf.found at hfound
  cases hfind : leaves.find? fun l => l.key = key with
  | none =>
      rw [hfind] at hfound
      exact absurd rfl hfound
  | some l =>
      obtain ⟨hkey, front, back, rfl, hfirst⟩ := List.find?_eq_some_iff_append.mp hfind
      have hkey : l.key = key := by simpa using hkey
      subst hkey
      have hmem : l ∈ front ++ l :: back := List.mem_append_right _ (List.mem_cons_self ..)
      have hslot := slot_of_split T.sorted (fun a ha => by simpa using hfirst a ha)
        (hzero.imp_right fun h a ha => h a (List.mem_append_left _ ha))
      obtain ⟨m', hrun, P', A', hbits⟩ := T.exists_delete hmem (by
          unfold Leaf.found
          rw [hfind]) (i := front.length) (by simp) hslot.1 (by
        rw [hslot.2]
        exact fun h => UInt64.lt_irrefl _ h.1)
      have herase : (front ++ l :: back).eraseIdx front.length = front ++ back := by
        rw [List.eraseIdx_append_of_length_le le_rfl, Nat.sub_self, List.eraseIdx_cons_zero]
      have hsub : (front ++ back).Sublist (front ++ l :: back) :=
        List.Sublist.append_left (List.sublist_cons_self _ _) _
      have hother : ∀ x ∈ front ++ back, x.block ≠ l.block := by
        intro x hx hblock
        have hnodup := T.distinct
        rw [List.map_append, List.map_cons, List.nodup_middle, List.nodup_cons, ← List.map_append]
          at hnodup
        exact hnodup.1 (hblock ▸ List.mem_map_of_mem hx)
      rw [herase] at P'
      refine ⟨m', front, l, back, rfl, rfl, hrun, ?_⟩
      exact {
        toFlatPages := P'
        area := A'
        root_used := ⟨T.root_used.1, by
          rw [hbits r (T.root_lt.trans_le (min_le_left _ _)),
            if_neg (T.toFlatShape.block_ne hmem).symm, T.root_used.2]⟩
        leaf_used := fun x hx => by
          obtain ⟨hbehind, hset⟩ := T.leaf_used x (hsub.subset hx)
          exact ⟨hbehind, by
            rw [hbits _ ((T.leaf x (hsub.subset hx)).lt.trans_le (min_le_left _ _)),
              if_neg (hother x hx), hset]⟩
        distinct := T.distinct.sublist (hsub.map _)
        sorted := T.sorted.sublist hsub }

end FlatTree

end Nbtrfs
