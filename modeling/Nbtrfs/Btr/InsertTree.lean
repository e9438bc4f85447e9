import Nbtrfs.Btr.EvenEdit
import Nbtrfs.Btr.MapRuns

/-!
# Insertion into a tree of any depth

Reference: `btr.c::btree_insert`.

`btree_insert` changes one node of an even tree, the one that `btree_insertion_search` finds, and adds a
leaf page. It goes well when there is a page for the leaf and the node has room. Without a page it follows
the null pointer that `btree_node_create` returns.
-/

namespace Nbtrfs

open BlockProg

variable {disk : DiskInterface} {m m' : Image} {d d' b x f : ℕ}
  {leaves leaves' left mid right mid' : List Leaf} {l : Leaf} {key value : UInt64} {type : UInt32}

/-! ## Trees on the volume -/

/-- The volume holds an ordered tree of depth `d`: its pages are marked as taken, and no leaf stands in it
twice. -/
structure StoredTree (disk : DiskInterface) (m : Image) (d b : ℕ) (leaves : List Leaf) : Prop where
  area : BitmapArea disk m
  tree : EvenTree disk.mapping m d b leaves
  used : ∀ d' x left mid right, InTree disk.mapping m d b d' x left mid right →
    blockBitmapBlocks disk.totalBlocks.toNat < x ∧ blockBit m x = true
  distinct : (leaves.map Leaf.block).Nodup
  sorted : leaves.Pairwise fun a b => a.key ≤ b.key

/-- Block `b` is the root of a tree with the given leaves: an empty root, or an ordered tree with all
leaves at one depth. -/
def HoldsTree (disk : DiskInterface) (m : Image) (b : ℕ) (leaves : List Leaf) : Prop :=
  (leaves = [] ∧ FlatTree disk m b []) ∨ ∃ d, StoredTree disk m (d + 1) b leaves

/-- The leaf was created on the first free block, and `btree_insertion_search` has found the node that
takes it. -/
structure AtTarget (disk : DiskInterface) (m m₁ : Image) (b : ℕ) (x : ℕ) (mid : List Leaf) (l : Leaf) :
    Prop where
  created : run disk.mapping (newLeaf disk l.key l.value l.type) m = some (UInt64.ofNat l.block, m₁)
  leaf : LeafPage disk m₁ l
  search : run disk.mapping (btreeInsertionSearch disk (UInt64.ofNat b) l.key) m = some ((x : ℤ), m)
  search₁ : run disk.mapping (btreeInsertionSearch disk (UInt64.ofNat b) l.key) m₁ =
    some ((x : ℤ), m₁)
  node : BottomNode disk m₁ x mid
  node_same : m₁ x = m x

namespace StoredTree

theorem pos (T : StoredTree disk m d b leaves) (W : InTree disk.mapping m d b d' x left mid right) :
    0 < x := (Nat.zero_le _).trans_lt (T.used _ _ _ _ _ W).1

theorem leaf_pos (T : StoredTree disk m d b leaves) (hl : l ∈ leaves) : 0 < l.block := by
  obtain ⟨_, _, W⟩ := T.tree.exists_inTree hl
  exact T.pos W

/-- The first free block is no page of the tree. -/
theorem ne_free (T : StoredTree disk m d b leaves) (H : FirstFree disk m f)
    (W : InTree disk.mapping m d b d' x left mid right) : x ≠ f := by
  rintro rfl
  have hset := (T.used _ _ _ _ _ W).2
  rw [H.clear] at hset
  cases hset

/-- After its next leaf was created the tree is at the node that takes it. -/
theorem exists_target (T : StoredTree disk m d b leaves) (hd : 1 ≤ d) (H : FirstFree disk m f)
    (key value : UInt64) (type : UInt32) :
    ∃ (m₁ : Image) (x : ℕ) (left mid right : List Leaf),
      AtTarget disk m m₁ b x mid ⟨f, key, value, type⟩ ∧
      InTree disk.mapping m d b 1 x left mid right ∧ leaves = left ++ mid ++ right ∧
      ∀ d' y l c r, InTree disk.mapping m d b d' y l c r → y ≠ f ∧ m₁ y = m y := by
  obtain ⟨m₁, hnew, L, hother⟩ := H.exists_newLeaf T.area key value type
  have hsame : ∀ d' y l c r, InTree disk.mapping m d b d' y l c r → y ≠ f ∧ m₁ y = m y := by
    intro d' y l c r W
    have hne := T.ne_free H W
    exact ⟨hne, by rw [hother y hne, takeBlock_of_behind H.lt_total (T.used _ _ _ _ _ W).1]⟩
  have hpages : ∀ d' y l c r, InTree disk.mapping m d b d' y l c r → m₁ y = m y :=
    fun d' y l c r W => (hsame d' y l c r W).2
  obtain ⟨x, left, mid, right, hrun, W, hleft, -, hmid⟩ := T.tree.exists_insertionSearch hd T.sorted key
  have T₁ := T.tree.congr hpages
  obtain ⟨x₁, left₁, mid₁, right₁, hrun₁, W₁, hleft₁, -, hmid₁⟩ :=
    T₁.exists_insertionSearch hd T.sorted key
  obtain rfl : x = x₁ := (W.congr hpages).takesKey_unique rfl hleft hmid ⟨W₁, hleft₁, hmid₁⟩
  have hparts := T.tree.unique W.around
  have hnode : BottomNode disk m₁ x mid := (W.congr hpages).tree.bottomNode (T.pos W) fun l hl => by
    refine T.leaf_pos ?_
    rw [hparts]
    exact List.mem_append_left _ (List.mem_append_right _ hl)
  exact ⟨m₁, x, left, mid, right, ⟨hnew, L, hrun, hrun₁, hnode, hpages _ _ _ _ _ W⟩, W, hparts, hsame⟩

/-- The tree with other leaves below the node that takes the new one. -/
theorem evenTree_of_target {m₁ : Image} (T : StoredTree disk m d b leaves)
    (W : InTree disk.mapping m d b 1 x left mid right) (hparts : leaves = left ++ mid ++ right)
    (hsame : ∀ d' y l c r, InTree disk.mapping m d b d' y l c r → y ≠ f ∧ m₁ y = m y)
    (hother : ∀ c, c ≠ x → c ≠ f → m' c = m₁ c) (B' : BottomNode disk m' x mid') (hne : mid' ≠ []) :
    EvenTree disk.mapping m' d b (left ++ mid' ++ right) := by
  refine W.replace (hparts ▸ T.distinct) (fun d' y l c r V hyx => ?_) (B'.evenTree hne)
  obtain ⟨hyf, hpage⟩ := hsame d' y l c r V
  rw [hother y hyx hyf, hpage]

end StoredTree

/-! ## The outcome of an insertion -/

/-- The insertion returns 0, the tree has kept its leaves and the key is found; or it returns another
code, and the leaves and the bitmap are what they were. -/
def InsertsOrFails (disk : DiskInterface) (m : Image) (b : ℕ) (leaves : List Leaf) (key value : UInt64)
    (type : UInt32) : Prop :=
  (∃ m' leaves' h,
      run disk.mapping (btreeInsert disk (UInt64.ofNat b) key value type) m = some (0, m') ∧
      Subtree disk.mapping m' h b leaves' ∧ (∀ l ∈ leaves, l ∈ leaves') ∧
      ∃ p ≠ 0, run disk.mapping (btreeSearch disk (UInt64.ofNat b) key) m' = some (p, m')) ∨
    ∃ rv m' h, rv ≠ 0 ∧
      run disk.mapping (btreeInsert disk (UInt64.ofNat b) key value type) m = some (rv, m') ∧
      Subtree disk.mapping m' h b leaves ∧
      ∀ c < disk.totalBlocks.toNat, blockBit m' c = blockBit m c

/-- An insertion that returns 0 is judged by the tree that it leaves. -/
theorem insertsOrFails_iff {h : ℕ}
    (hrun : run disk.mapping (btreeInsert disk (UInt64.ofNat b) key value type) m = some (0, m'))
    (T' : Subtree disk.mapping m' h b leaves') :
    InsertsOrFails disk m b leaves key value type ↔
      (∀ l ∈ leaves, l ∈ leaves') ∧ ∃ l ∈ leaves', l.key = key := by
  have hsearch := T'.run_btreeSearch key
  have hfound : Leaf.found leaves' key = 0 ↔ ∀ l ∈ leaves', l.key ≠ key :=
    Leaf.found_eq_zero_iff T'.block_ne_zero
  constructor
  · rintro (⟨m₂, leaves₂, h₂, hrun₂, T₂, hkeep, p, hp, hsearch₂⟩ | ⟨rv, m₂, h₂, hrv, hrun₂, -⟩)
    · obtain ⟨-, rfl⟩ := Prod.mk.inj (Option.some.inj (hrun.symm.trans hrun₂))
      obtain rfl := T'.unique T₂
      refine ⟨hkeep, ?_⟩
      obtain ⟨rfl, -⟩ := Prod.mk.inj (Option.some.inj (hsearch.symm.trans hsearch₂))
      obtain ⟨l, hl, hkey, -⟩ := Leaf.exists_of_found_ne_zero hp
      exact ⟨l, hl, hkey⟩
    · obtain ⟨rfl, -⟩ := Prod.mk.inj (Option.some.inj (hrun.symm.trans hrun₂))
      exact absurd rfl hrv
  · rintro ⟨hkeep, l, hl, hkey⟩
    exact Or.inl ⟨m', leaves', h, hrun, T', hkeep, _, fun hzero => hfound.mp hzero l hl hkey, hsearch⟩

/-- What an insertion at a node with room does. -/
theorem StoredTree.insertsOrFails (T : StoredTree disk m d b leaves) (hd : 1 ≤ d)
    (H : FirstFree disk m f) (key value : UInt64) (type : UInt32) :
    ∃ x : ℕ, run disk.mapping (btreeInsertionSearch disk (UInt64.ofNat b) key) m = some ((x : ℤ), m) ∧
      ((BTreeNode.ofPage (m x)).numKeys.toNat < maxKeys →
        InsertsOrFails disk m b leaves key value type) ∧
      ((BTreeNode.ofPage (m x)).numKeys.toNat = maxKeys →
        (BTreeNode.ofPage (m x)).keyAt (maxKeys - 1) < key → (BTreeNode.ofPage (m x)).childAt maxKeys = 0 →
        (InsertsOrFails disk m b leaves key value type ↔ ∃ l ∈ leaves, l.key = key)) := by
  obtain ⟨m₁, x, left, mid, right, A, W, hparts, hsame⟩ := T.exists_target hd H key value type
  have hkept : ∀ l ∈ leaves, UInt64.ofNat l.block ≠ 0 := fun l hl => by
    obtain ⟨_, _, V⟩ := T.tree.exists_inTree hl
    have hlt := V.tree.isNode.lt_addressable
    have hwrap := addressable_le disk
    exact ofNat_block_ne_zero (T.pos V) (by omega)
  refine ⟨x, A.search, fun hroom => ?_, fun hfull hkey hlast => ?_⟩
  · obtain ⟨m', p, hp, henter, B', hother⟩ := A.node.exists_run_enterLeaf (by rwa [A.node_same]) A.leaf
    have T' := T.evenTree_of_target W hparts hsame hother B' (List.ne_nil_of_mem
      ((List.mem_insertIdx hp).mpr (Or.inl rfl)))
    have hsub : ∀ l ∈ leaves, l ∈ left ++ mid.insertIdx p ⟨f, key, value, type⟩ ++ right := by
      intro l hl
      rw [hparts] at hl
      simp only [List.mem_append] at hl ⊢
      exact hl.imp_left fun h => h.imp_right fun h => (List.mem_insertIdx hp).mpr (Or.inr h)
    have hnew : (⟨f, key, value, type⟩ : Leaf) ∈
        left ++ mid.insertIdx p ⟨f, key, value, type⟩ ++ right :=
      List.mem_append_left _ (List.mem_append_right _ ((List.mem_insertIdx hp).mpr (Or.inl rfl)))
    have hrun : run disk.mapping (btreeInsert disk (UInt64.ofNat b) key value type) m = some (0, m') := by
      rw [btreeInsert, run_bind_of_eq A.created, run_bind_of_eq A.search₁, ofInt_natCast,
        run_bind_of_eq A.node.isNode.run_copy, if_neg (by rw [A.node_same]; omega), henter]
    have hblock : ∀ l ∈ left ++ mid.insertIdx p ⟨f, key, value, type⟩ ++ right,
        UInt64.ofNat l.block ≠ 0 := by
      intro l hl
      simp only [List.mem_append, List.mem_insertIdx hp] at hl
      rcases hl with (hl | rfl | hl) | hl
      · exact hkept l (by rw [hparts]; simp [hl])
      · exact A.leaf.number_ne_zero
      · exact hkept l (by rw [hparts]; simp [hl])
      · exact hkept l (by rw [hparts]; simp [hl])
    exact (insertsOrFails_iff hrun (T'.subtree hblock)).mpr ⟨hsub, _, hnew, rfl⟩
  · obtain ⟨m', hlost, B', hother⟩ := A.node.exists_run_appendLost A.leaf
    have T' := T.evenTree_of_target W hparts hsame hother B' W.tree.leaves_ne_nil
    rw [← hparts] at T'
    have hrun : run disk.mapping (btreeInsert disk (UInt64.ofNat b) key value type) m = some (0, m') := by
      rw [btreeInsert, run_bind_of_eq A.created, run_bind_of_eq A.search₁, ofInt_natCast,
        run_bind_of_eq A.node.isNode.run_copy, if_pos (by rw [A.node_same, hfull]),
        if_pos (by rw [A.node_same]; exact ⟨hkey, hlast⟩), hlost]
    rw [insertsOrFails_iff hrun (T'.subtree hkept)]
    exact ⟨fun h => h.2, fun h => ⟨fun _ hl => hl, h⟩⟩

/-- An insertion into an empty root. -/
theorem FlatTree.insertsOrFails (T : FlatTree disk m b []) (H : FirstFree disk m f)
    (key value : UInt64) (type : UInt32) : InsertsOrFails disk m b [] key value type := by
  obtain ⟨m', hrun, T', -⟩ := T.insert H (show 0 < maxKeys by decide) key value type
  exact (insertsOrFails_iff hrun T'.toFlatShape.subtree).mpr ⟨fun _ hl => absurd hl List.not_mem_nil,
    ⟨f, key, value, type⟩, mem_insertLeaf.mpr (Or.inl rfl), rfl⟩

/-- A node that was created stands on a block that was free. -/
theorem exists_firstFree_of_create {leaf : Bool} {block : UInt64}
    (hto : BitmapTo disk.mapping disk m (blockBitmapBlocks disk.totalBlocks.toNat))
    (hnear : disk.totalBlocks.toNat ≤ 1048576)
    (hrun : run disk.mapping (btreeNodeCreate disk leaf) m = some (block, m')) (hne : block ≠ 0) :
    ∃ f, FirstFree disk m f := by
  rw [btreeNodeCreate] at hrun
  obtain ⟨page, m₁, halloc, hrest⟩ := run_bind_eq_some.mp hrun
  by_cases hzero : page = 0
  · rw [if_pos hzero, run_pure] at hrest
    exact absurd (Prod.mk.inj (Option.some.inj hrest)).1.symm hne
  · rw [if_neg hzero, run_bind_of_eq (run_fetch _ _)] at hrest
    obtain ⟨_, m₂, hmodify, -⟩ := run_bind_eq_some.mp hrest
    have hreach : ∃ c, disk.mapping.addr page = some c := by
      have h : Ensures disk.mapping (modify page (setBlockType BlockType.btreeNode)) m₁
          fun _ _ => ∃ c, disk.mapping.addr page = some c :=
        ensures_modify fun c hc => ⟨c, hc⟩
      exact h _ _ hmodify
    obtain ⟨c, hc⟩ := hreach
    exact exists_firstFree_of_alloc hto hnear halloc hzero hc

/-- Without a page for the leaf the insertion does not return. -/
theorem exists_firstFree_of_insert {root : UInt64} {r : ℤ × Image}
    (hto : BitmapTo disk.mapping disk m (blockBitmapBlocks disk.totalBlocks.toNat))
    (hnear : disk.totalBlocks.toNat ≤ 1048576)
    (hrun : run disk.mapping (btreeInsert disk root key value type) m = some r) :
    ∃ f, FirstFree disk m f := by
  rw [btreeInsert] at hrun
  obtain ⟨block, m₁, hnew, -⟩ := run_bind_eq_some.mp hrun
  rw [newLeaf] at hnew
  obtain ⟨page, m₂, hcreate, hrest⟩ := run_bind_eq_some.mp hnew
  by_cases hzero : page = 0
  · rw [if_pos hzero, run_crash] at hrest
    cases hrest
  · exact exists_firstFree_of_create hto hnear hcreate hzero

theorem InsertsOrFails.exists_run (h : InsertsOrFails disk m b leaves key value type) :
    ∃ r, run disk.mapping (btreeInsert disk (UInt64.ofNat b) key value type) m = some r := by
  rcases h with ⟨m', _, _, hrun, -⟩ | ⟨rv, m', _, -, hrun, -⟩
  · exact ⟨_, hrun⟩
  · exact ⟨_, hrun⟩

theorem InsertsOrFails.exists_firstFree
    (hto : BitmapTo disk.mapping disk m (blockBitmapBlocks disk.totalBlocks.toNat))
    (hnear : disk.totalBlocks.toNat ≤ 1048576) (h : InsertsOrFails disk m b leaves key value type) :
    ∃ f, FirstFree disk m f := by
  obtain ⟨r, hrun⟩ := h.exists_run
  exact exists_firstFree_of_insert hto hnear hrun

theorem HoldsTree.bitmapTo (T : HoldsTree disk m b leaves) :
    BitmapTo disk.mapping disk m (blockBitmapBlocks disk.totalBlocks.toNat) := by
  rcases T with ⟨-, T⟩ | ⟨d, T⟩
  · exact T.area.bitmapTo_all (T.root_used.1.trans T.root_lt)
  · have hroot := T.used _ _ _ _ _ (.root T.tree)
    exact T.area.bitmapTo_all (hroot.1.trans T.tree.isNode.lt_addressable)

/-- With fewer keys than a node takes, every node has room. -/
theorem HoldsTree.insertsOrFails (T : HoldsTree disk m b leaves) (hroom : leaves.length < maxKeys)
    (H : FirstFree disk m f) (key value : UInt64) (type : UInt32) :
    InsertsOrFails disk m b leaves key value type := by
  rcases T with ⟨rfl, T⟩ | ⟨d, T⟩
  · exact T.insertsOrFails H key value type
  · obtain ⟨x, left, mid, right, hsearch, W, -⟩ :=
      T.tree.exists_insertionSearch (Nat.succ_pos d) T.sorted key
    obtain ⟨y, hsearch', hinsert, -⟩ := T.insertsOrFails (Nat.succ_pos d) H key value type
    obtain rfl : x = y :=
      Nat.cast_inj.mp (Prod.mk.inj (Option.some.inj (hsearch.symm.trans hsearch'))).1
    have hparts := T.tree.unique W.around
    have hnode : BottomNode disk m x mid := W.tree.bottomNode (T.pos W) fun l hl => T.leaf_pos (by
      rw [hparts]
      exact List.mem_append_left _ (List.mem_append_right _ hl))
    have hcount := hnode.node.count
    have hlen := congrArg List.length hparts
    rw [List.length_append, List.length_append] at hlen
    exact hinsert (by omega)

/-- The tree stays with the pages of its nodes, as long as these are marked. -/
theorem HoldsTree.congr (T : HoldsTree disk m b leaves) (A : BitmapArea disk m')
    (hpage : ∀ c, blockBitmapBlocks disk.totalBlocks.toNat < c → c < disk.addressable →
      blockType (m c) = BlockType.btreeNode.code → blockBit m c = true → m' c = m c)
    (hbit : ∀ c < disk.totalBlocks.toNat, blockBit m c = true → blockBit m' c = true) :
    HoldsTree disk m' b leaves := by
  have htotal : disk.addressable ≤ disk.totalBlocks.toNat := min_le_left _ _
  rcases T with ⟨rfl, T⟩ | ⟨d, T⟩
  · exact Or.inl ⟨rfl, T.congr A (hpage b T.root_used.1 T.root_lt T.root_type T.root_used.2)
      (fun l hl => absurd hl List.not_mem_nil) hbit⟩
  · have hsame : ∀ d' x left mid right, InTree disk.mapping m (d + 1) b d' x left mid right →
        m' x = m x := fun d' x left mid right W => by
      obtain ⟨hbehind, hset⟩ := T.used _ _ _ _ _ W
      exact hpage x hbehind W.tree.isNode.lt_addressable W.tree.isNode.type hset
    refine Or.inr ⟨d, A, T.tree.congr hsame, fun d' x left mid right W' => ?_, T.distinct, T.sorted⟩
    have W := W'.of_congr T.tree hsame
    obtain ⟨hbehind, hset⟩ := T.used _ _ _ _ _ W
    exact ⟨hbehind, hbit x (W.tree.isNode.lt_addressable.trans_le htotal) hset⟩

/-- `btree_insert` on a well-formed tree goes well when there is a page for the leaf and the node that
`btree_insertion_search` finds has room. It does not without a page, and it loses a new largest key where
that node is full and lacks its last child. -/
theorem btreeInsert_insertsOrFails (T : HoldsTree disk m b leaves) (key value : UInt64)
    (type : UInt32) :
    ∃ x : ℕ, run disk.mapping (btreeInsertionSearch disk (UInt64.ofNat b) key) m = some ((x : ℤ), m) ∧
      ((∃ f, FirstFree disk m f) → (BTreeNode.ofPage (m x)).numKeys.toNat < maxKeys →
        InsertsOrFails disk m b leaves key value type) ∧
      (disk.totalBlocks.toNat ≤ 1048576 → InsertsOrFails disk m b leaves key value type →
        (∃ f, FirstFree disk m f) ∧
          ¬((BTreeNode.ofPage (m x)).numKeys.toNat = maxKeys ∧
            (BTreeNode.ofPage (m x)).keyAt (maxKeys - 1) < key ∧
            (BTreeNode.ofPage (m x)).childAt maxKeys = 0 ∧ ∀ l ∈ leaves, l.key ≠ key)) := by
  have hto := T.bitmapTo
  rcases T with ⟨rfl, T⟩ | ⟨d, T⟩
  · refine ⟨b, T.run_btreeInsertionSearch key, fun ⟨f, H⟩ _ => T.insertsOrFails H key value type,
      fun hnear h => ⟨h.exists_firstFree hto hnear, fun ⟨hfull, _⟩ => ?_⟩⟩
    rw [T.root.numKeys] at hfull
    exact absurd hfull (by decide)
  · obtain ⟨x, left, mid, right, hsearch, -⟩ :=
      T.tree.exists_insertionSearch (Nat.succ_pos d) T.sorted key
    have hat : ∀ f, FirstFree disk m f →
        ((BTreeNode.ofPage (m x)).numKeys.toNat < maxKeys →
          InsertsOrFails disk m b leaves key value type) ∧
        ((BTreeNode.ofPage (m x)).numKeys.toNat = maxKeys →
          (BTreeNode.ofPage (m x)).keyAt (maxKeys - 1) < key →
          (BTreeNode.ofPage (m x)).childAt maxKeys = 0 →
          (InsertsOrFails disk m b leaves key value type ↔ ∃ l ∈ leaves, l.key = key)) := by
      intro f H
      obtain ⟨y, hsearch', hy⟩ := T.insertsOrFails (Nat.succ_pos d) H key value type
      obtain rfl : x = y :=
        Nat.cast_inj.mp (Prod.mk.inj (Option.some.inj (hsearch.symm.trans hsearch'))).1
      exact hy
    refine ⟨x, hsearch, fun ⟨f, H⟩ hroom => (hat f H).1 hroom, fun hnear h => ?_⟩
    obtain ⟨f, H⟩ := h.exists_firstFree hto hnear
    refine ⟨⟨f, H⟩, fun ⟨hfull, hkey, hlast, habsent⟩ => ?_⟩
    obtain ⟨l, hl, heq⟩ := ((hat f H).2 hfull hkey hlast).mp h
    exact habsent l hl heq

/-! ## A volume of 256 blocks -/

/-- A flat tree is a tree of depth one, or an empty root. -/
theorem FlatTree.holdsTree (T : FlatTree disk m b leaves) : HoldsTree disk m b leaves := by
  by_cases hne : leaves = []
  · subst hne
    exact Or.inl ⟨rfl, T⟩
  · have hle := T.root.le
    have hnum := T.root.numKeys
    have hwrap := addressable_le disk
    have B : BottomNode disk m b leaves := {
      pos := T.root_pos
      lt := T.root_lt
      type := T.root_type
      node := ⟨T.root.blockNumber, T.root.isLeaf, by omega, Or.inl hnum.symm,
        fun i hi => T.root.child i (by omega)⟩
      leaf := T.leaf }
    refine Or.inr ⟨0, T.area, B.evenTree hne, fun d' x left mid right W => ?_, T.distinct, T.sorted⟩
    cases W with
    | root => exact T.root_used
    | @child _ _ c i _ _ _ _ _ below N hbelow hi W =>
        cases W with
        | root =>
            have hcount := N.count
            have hchild := T.root.child i (by omega)
            cases hget : leaves[i]? with
            | none =>
                rw [blockOf_of_le (by simpa using hget)] at hchild
                exact absurd hchild (N.child i hi)
            | some l =>
                have hl := List.mem_of_getElem? hget
                have hlt := (T.leaf l hl).lt
                rw [childBlock, hchild, blockOf_of_getElem? hget, toNat_ofNat_block (by omega)]
                exact T.leaf_used l hl

/-- On a formatted volume of 256 blocks a tree with key 5 takes key 7. -/
theorem btreeInsert_insertsOrFails_256 : ∃ m r l, HoldsTree ⟨256, by decide⟩ m r [l] ∧ l.key = 5 ∧
    InsertsOrFails ⟨256, by decide⟩ m r [l] 7 1 2 := by
  obtain ⟨m₀, -, F⟩ := run_diskFormat_blank ⟨256, by decide⟩ 0 0 0
    (show ([] : List UInt8).length ≤ 31 by decide) (blank_zero _) (by decide) (by decide)
  obtain ⟨A, -, m, hroot, T, hbits⟩ := F.exists_tree (by decide)
  have H : FirstFree ⟨256, by decide⟩ m _ := FirstFree.of_prefix (by decide) hbits
  obtain ⟨m₁, hrun, T₁, hset⟩ := T.insert H (by decide) 5 1 2
  have H₁ : FirstFree ⟨256, by decide⟩ m₁ _ := FirstFree.of_prefix (by decide) (prefix_succ hbits hset)
  have hsearch := T₁.run_btreeInsertionSearch 7
  obtain ⟨x, hx, hinsert, -⟩ := btreeInsert_insertsOrFails T₁.holdsTree 7 1 2
  refine ⟨m₁, _, _, T₁.holdsTree, rfl, hinsert ⟨_, H₁⟩ ?_⟩
  rw [hsearch] at hx
  rw [← Nat.cast_inj.mp (Prod.mk.inj (Option.some.inj hx)).1, T₁.root.numKeys]
  decide

/-- On a volume with every block taken the insertion into an empty tree follows a null pointer. -/
theorem not_insertsOrFails_256 : ¬∀ (disk : DiskInterface) (m : Image) (b : ℕ) (leaves : List Leaf)
    (key value : UInt64) (type : UInt32), HoldsTree disk m b leaves →
      InsertsOrFails disk m b leaves key value type := by
  intro h
  obtain ⟨m₀, -, F⟩ := run_diskFormat_blank ⟨256, by decide⟩ 0 0 0
    (show ([] : List UInt8).length ≤ 31 by decide) (blank_zero _) (by decide) (by decide)
  obtain ⟨-, -, m, -, T, -⟩ := F.exists_tree (by decide)
  obtain ⟨m', hfull, htype, hother⟩ := exists_full ⟨256, by decide⟩ m
  have hblocks : blockBitmapBlocks (DiskInterface.totalBlocks ⟨256, by decide⟩).toNat <
      (DiskInterface.totalBlocks ⟨256, by decide⟩).toNat := by decide
  have A' : BitmapArea ⟨256, by decide⟩ m' :=
    ⟨fun b h1 hb => by rw [htype, T.area.type b h1 hb], fun b hb => hfull b (by omega)⟩
  have T' := T.congr A' (hother _ (Or.inr T.root_used.1)) (fun l hl => absurd hl List.not_mem_nil)
    fun b hb _ => hfull b hb
  obtain ⟨f, H⟩ := (h _ _ _ _ 5 1 2 T'.holdsTree).exists_firstFree T'.holdsTree.bitmapTo (by decide)
  have hclear := H.clear
  rw [hfull f H.lt_total] at hclear
  cases hclear

end Nbtrfs
