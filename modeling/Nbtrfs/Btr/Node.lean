import Nbtrfs.Alloc

/-!
# B-tree nodes

Reference: `btr.h`, and the node management part of `btr.c`.

`keys`, `children` and the three links follow each other in the structure and the code runs over the
ends of the arrays, so all of them are kept as one block of words: `keys[250]` is `children[0]` and
`children[251]` is `parent`. `BTreeNode.ofPage` and `BTreeNode.toPage` are the two directions of the
`memcpy` between the structure and a page.
-/

namespace Nbtrfs

open BlockProg Bytes

/-- The number of words of `keys`, `children` and the links. -/
abbrev nodeWords : ℕ := maxKeys + (maxKeys + 1) + 3

/-- `BTreeNode`; `is_leaf` is kept as its byte. -/
structure BTreeNode where
  blockNumber : UInt64
  isLeaf : UInt8
  type : UInt32
  key : UInt64
  value : UInt64
  numKeys : UInt16
  words : Vector UInt64 nodeWords
deriving Inhabited, DecidableEq

namespace BTreeNode

variable (node : BTreeNode)

/-- Word `i` of the arrays and links. -/
def word (i : ℕ) : UInt64 := node.words.toArray.getD i 0

/-- The node with word `i` set. -/
def setWord (i : ℕ) (v : UInt64) : BTreeNode :=
  { node with words := node.words.setIfInBounds i v }

/-- `keys[i]` -/
def keyAt (i : ℕ) : UInt64 := node.word i
/-- `children[i]` -/
def childAt (i : ℕ) : UInt64 := node.word (maxKeys + i)
/-- `parent` -/
def parent : UInt64 := node.word 501
/-- `left_sibling` -/
def leftSibling : UInt64 := node.word 502
/-- `right_sibling` -/
def rightSibling : UInt64 := node.word 503

/-- `keys[i] = v` -/
def setKeyAt (i : ℕ) (v : UInt64) : BTreeNode := node.setWord i v
/-- `children[i] = v` -/
def setChildAt (i : ℕ) (v : UInt64) : BTreeNode := node.setWord (maxKeys + i) v
/-- `parent = v` -/
def setParent (v : UInt64) : BTreeNode := node.setWord 501 v
/-- `left_sibling = v` -/
def setLeftSibling (v : UInt64) : BTreeNode := node.setWord 502 v
/-- `right_sibling = v` -/
def setRightSibling (v : UInt64) : BTreeNode := node.setWord 503 v

variable {node}

/-- Storing a word of a node changes that word only. -/
theorem word_setWord (i j : ℕ) (v : UInt64) :
    (node.setWord j v).word i = if i = j ∧ j < nodeWords then v else node.word i := by
  simp only [word, setWord, Vector.toArray_setIfInBounds, Array.getD_eq_getD_getElem?,
    Array.getElem?_setIfInBounds, Vector.size_toArray]
  by_cases hij : i = j
  · subst hij
    by_cases hi : i < nodeWords
    · simp [hi]
    · simp [hi]
  · have hji : ¬j = i := fun h => hij h.symm
    simp [hij, hji]

/-- Two nodes are equal when their fields and words are. -/
theorem ext_words {a b : BTreeNode} (hblock : a.blockNumber = b.blockNumber)
    (hleaf : a.isLeaf = b.isLeaf) (htype : a.type = b.type) (hkey : a.key = b.key)
    (hvalue : a.value = b.value) (hnum : a.numKeys = b.numKeys)
    (hwords : ∀ i < nodeWords, a.word i = b.word i) : a = b := by
  obtain ⟨a1, a2, a3, a4, a5, a6, aw⟩ := a
  obtain ⟨b1, b2, b3, b4, b5, b6, bw⟩ := b
  have hw : aw = bw := by
    apply Vector.ext
    intro i hi
    have h := hwords i hi
    simpa [word, Array.getD, hi] using h
  simp only at hblock hleaf htype hkey hvalue hnum
  rw [hblock, hleaf, htype, hkey, hvalue, hnum, hw]

/-! ## Loops over the words -/

/-- `for (j = lo + n - 1; j >= lo; j--) words[j + 1] = words[j];` -/
def shiftUp (node : BTreeNode) (lo : ℕ) : ℕ → BTreeNode
  | 0 => node
  | n + 1 => (node.setWord (lo + n + 1) (node.word (lo + n))).shiftUp lo n

/-- `for (j = lo; j < lo + n; j++) words[j] = words[j + 1];` -/
def shiftDown (node : BTreeNode) (lo : ℕ) : ℕ → BTreeNode
  | 0 => node
  | n + 1 => (node.setWord lo (node.word (lo + 1))).shiftDown (lo + 1) n

/-- `for (j = lo; j < lo + n; j++) words[j] = 0;` -/
def clearWords (node : BTreeNode) (lo : ℕ) : ℕ → BTreeNode
  | 0 => node
  | n + 1 => (node.setWord lo 0).clearWords (lo + 1) n

/-- The loops that make room move the words `lo` to `lo + n - 1` up by one. -/
theorem word_shiftUp (node : BTreeNode) {lo n : ℕ} (h : lo + n < nodeWords) (i : ℕ) :
    (node.shiftUp lo n).word i =
      if lo < i ∧ i ≤ lo + n then node.word (i - 1) else node.word i := by
  induction n generalizing node with
  | zero => rw [shiftUp, if_neg (by omega)]
  | succ n ih =>
      rw [shiftUp, ih _ (by omega)]
      simp only [word_setWord]
      by_cases hin : lo < i ∧ i ≤ lo + n
      · rw [if_pos hin, if_neg (by omega), if_pos (by omega)]
      · rw [if_neg hin]
        by_cases hlast : i = lo + n + 1
        · subst hlast
          rw [if_pos ⟨rfl, h⟩, if_pos (by omega)]
          rfl
        · rw [if_neg (by omega), if_neg (by omega)]

/-- The loops that close a gap move the words behind it down by one. -/
theorem word_shiftDown (node : BTreeNode) {lo n : ℕ} (h : lo + n ≤ nodeWords) (i : ℕ) :
    (node.shiftDown lo n).word i =
      if lo ≤ i ∧ i < lo + n then node.word (i + 1) else node.word i := by
  induction n generalizing node lo with
  | zero => rw [shiftDown, if_neg (by omega)]
  | succ n ih =>
      rw [shiftDown, ih _ (by omega)]
      simp only [word_setWord]
      by_cases hin : lo + 1 ≤ i ∧ i < lo + 1 + n
      · rw [if_pos hin, if_neg (by omega), if_pos (by omega)]
      · rw [if_neg hin]
        by_cases hfirst : i = lo
        · subst hfirst
          rw [if_pos ⟨rfl, by omega⟩, if_pos (by omega)]
        · rw [if_neg (by omega), if_neg (by omega)]

/-- The loops that clear what a split has moved out set the words from `lo` on to zero. -/
theorem word_clearWords (node : BTreeNode) {lo n : ℕ} (h : lo + n ≤ nodeWords) (i : ℕ) :
    (node.clearWords lo n).word i = if lo ≤ i ∧ i < lo + n then 0 else node.word i := by
  induction n generalizing node lo with
  | zero => rw [clearWords, if_neg (by omega)]
  | succ n ih =>
      rw [clearWords, ih _ (by omega), word_setWord]
      by_cases hin : lo + 1 ≤ i ∧ i < lo + 1 + n
      · rw [if_pos hin, if_pos (by omega)]
      · rw [if_neg hin]
        by_cases hfirst : i = lo
        · rw [if_pos ⟨hfirst, by omega⟩, if_pos (by omega)]
        · rw [if_neg (by omega), if_neg (by omega)]

/-- Two nodes that agree in the fields that the loops over the words leave alone. -/
structure SameFields (a b : BTreeNode) : Prop where
  blockNumber : a.blockNumber = b.blockNumber
  isLeaf : a.isLeaf = b.isLeaf
  numKeys : a.numKeys = b.numKeys

theorem sameFields_shiftUp (node : BTreeNode) (lo n : ℕ) : SameFields (node.shiftUp lo n) node := by
  induction n generalizing node with
  | zero => exact ⟨rfl, rfl, rfl⟩
  | succ n ih =>
      obtain ⟨hblock, hleaf, hnum⟩ := ih (node.setWord (lo + n + 1) (node.word (lo + n)))
      exact ⟨hblock, hleaf, hnum⟩

theorem sameFields_shiftDown (node : BTreeNode) (lo n : ℕ) :
    SameFields (node.shiftDown lo n) node := by
  induction n generalizing node lo with
  | zero => exact ⟨rfl, rfl, rfl⟩
  | succ n ih =>
      obtain ⟨hblock, hleaf, hnum⟩ := ih (node.setWord lo (node.word (lo + 1))) (lo + 1)
      exact ⟨hblock, hleaf, hnum⟩

theorem sameFields_clearWords (node : BTreeNode) (lo n : ℕ) :
    SameFields (node.clearWords lo n) node := by
  induction n generalizing node lo with
  | zero => exact ⟨rfl, rfl, rfl⟩
  | succ n ih =>
      obtain ⟨hblock, hleaf, hnum⟩ := ih (node.setWord lo 0) (lo + 1)
      exact ⟨hblock, hleaf, hnum⟩

/-! ## Nodes on pages -/

/-- The node stored in a page. -/
def ofPage (pg : Bytes) : BTreeNode where
  blockNumber := load64 pg 4
  isLeaf := pg 12
  type := load32 pg 16
  key := load64 pg 20
  value := load64 pg 28
  numKeys := load16 pg 36
  words := Vector.ofFn fun i : Fin nodeWords => load64 pg (44 + 8 * i)

/-- Store the node in a page. -/
def toPage (node : BTreeNode) (pg : Bytes) : Bytes :=
  let pg := store64 pg 4 node.blockNumber
  let pg := store8 pg 12 node.isLeaf
  let pg := store32 pg 16 node.type
  let pg := store64 pg 20 node.key
  let pg := store64 pg 28 node.value
  let pg := store16 pg 36 node.numKeys
  storeArr pg 44 nodeWords node.word

theorem word_ofPage {pg : Bytes} {i : ℕ} (hi : i < nodeWords) :
    (ofPage pg).word i = load64 pg (44 + 8 * i) := by
  rw [word, ofPage]
  simp [Array.getD, hi]

theorem toPage_apply {pg : Bytes} {o : ℕ} (ho : o < 4 ∨ 4076 ≤ o) : toPage node pg o = pg o := by
  have hw : nodeWords = 504 := rfl
  simp only [toPage]
  simp (disch := omega) only [storeArr_apply_of_not_mem, store16_apply_ne, store64_apply_ne,
    store32_apply_ne, store8_apply_ne]

/-- What is stored is read back. -/
@[simp] theorem ofPage_toPage (node : BTreeNode) (pg : Bytes) : ofPage (toPage node pg) = node := by
  have hw : nodeWords = 504 := rfl
  refine ext_words ?_ ?_ ?_ ?_ ?_ ?_ fun i hi => ?_
  · simp (disch := omega) only [ofPage, toPage, load64_storeArr_ne, load64_store16_ne,
      load64_store64_ne, load64_store32_ne, load64_store8_ne, load64_store64_same]
  · simp (disch := omega) only [ofPage, toPage, storeArr_apply_of_not_mem, store16_apply_ne,
      store64_apply_ne, store32_apply_ne, store8_same]
  · simp (disch := omega) only [ofPage, toPage, load32_storeArr_ne, load32_store16_ne,
      load32_store64_ne, load32_store32_same]
  · simp (disch := omega) only [ofPage, toPage, load64_storeArr_ne, load64_store16_ne,
      load64_store64_ne, load64_store64_same]
  · simp (disch := omega) only [ofPage, toPage, load64_storeArr_ne, load64_store16_ne,
      load64_store64_same]
  · simp (disch := omega) only [ofPage, toPage, load16_storeArr_ne, load16_store16_same]
  · rw [word_ofPage hi, toPage]
    exact load64_storeArr_elem hi

@[simp] theorem blockType_toPage (node : BTreeNode) (pg : Bytes) :
    blockType (toPage node pg) = blockType pg :=
  blockType_congr fun _ ho => toPage_apply (Or.inl ho)

/-- The fields and arrays that `btree_node_create` sets. -/
def init (block : UInt64) (leaf : Bool) (node : BTreeNode) : BTreeNode :=
  { node with
    blockNumber := block
    isLeaf := if leaf then 1 else 0
    key := 0
    value := 0
    numKeys := 0
    words := Vector.replicate nodeWords 0 }

theorem init_init (block : UInt64) (leaf : Bool) (node : BTreeNode) :
    (node.init block leaf).init block leaf = node.init block leaf := rfl

theorem init_value (block : UInt64) (leaf : Bool) (node : BTreeNode) :
    { node.init block leaf with value := 0 } = node.init block leaf := rfl

@[simp] theorem word_init (block : UInt64) (leaf : Bool) (node : BTreeNode) (i : ℕ) :
    (node.init block leaf).word i = 0 := by
  rw [word, init, Vector.toArray_replicate, Array.getD_eq_getD_getElem?, Array.getElem?_replicate]
  split <;> rfl

/-- The page of a node that was just created. -/
def createdPage (block : UInt64) (leaf : Bool) (pg : Bytes) : Bytes :=
  ((ofPage (setBlockType BlockType.btreeNode pg)).init block leaf).toPage
    (setBlockType BlockType.btreeNode pg)

@[simp] theorem blockType_createdPage (block : UInt64) (leaf : Bool) (pg : Bytes) :
    blockType (createdPage block leaf pg) = BlockType.btreeNode.code := by
  rw [createdPage, blockType_toPage, blockType_setBlockType]

theorem ofPage_createdPage (block : UInt64) (leaf : Bool) (pg : Bytes) :
    ofPage (createdPage block leaf pg) =
      (ofPage (setBlockType BlockType.btreeNode pg)).init block leaf := by
  rw [createdPage, ofPage_toPage]

end BTreeNode

/-! ## Node management -/

/-- Assignments through a node pointer into the page of a block. -/
def editNode (block : UInt64) (f : BTreeNode → BTreeNode) : BlockProg Unit :=
  modify block fun pg => (f (BTreeNode.ofPage pg)).toPage pg

/-- The node on a page that was obtained before. -/
def nodeAt (block : UInt64) : BlockProg BTreeNode := do
  let pg ← page block
  pure (BTreeNode.ofPage pg)

/-- `btree_node_create`: the block of the new node. `0` is the null pointer it returns when no page
is free. -/
def btreeNodeCreate (disk : DiskInterface) (isLeaf : Bool) : BlockProg UInt64 := do
  let block ← allocPage disk
  if block = 0 then pure 0
  else do
    fetch 0 block
    modify block (setBlockType BlockType.btreeNode)
    editNode block (BTreeNode.init block isLeaf)
    writeBack 0 block
    pure block

/-- `btree_node_free` -/
def btreeNodeFree (block : UInt64) : BlockProg Unit := freePage block

/-- `btree_node_read`; `none` is the return value `-1`, which leaves the caller's copy as it was. -/
def btreeNodeRead (block : UInt64) : BlockProg (Option BTreeNode) := do
  fetch 0 block
  let pg ← page block
  if blockType pg ≠ BlockType.btreeNode.code then pure none
  else pure (some (BTreeNode.ofPage pg))

/-- `btree_node_read` into a fresh variable with its result ignored. On a block that is no node the
caller would go on with uninitialised memory. -/
def btreeNodeCopy (block : UInt64) : BlockProg BTreeNode := do
  let node ← btreeNodeRead block
  match node with
  | some node => pure node
  | none => crash

/-- `btree_node_write` -/
def btreeNodeWrite (node : BTreeNode) : BlockProg ℤ := do
  fetch 0 node.blockNumber
  let pg ← page node.blockNumber
  if blockType pg ≠ BlockType.btreeNode.code then pure (-1)
  else do
    modify node.blockNumber node.toPage
    writeBack 0 node.blockNumber
    pure 0

variable {M : Mapping} {m : Image} {block : UInt64} {b : ℕ}

theorem run_editNode (f : BTreeNode → BTreeNode) (haddr : M.addr block = some b) :
    run M (editNode block f) m =
      some ((), Function.update m b ((f (BTreeNode.ofPage (m b))).toPage (m b))) :=
  run_modify _ haddr

theorem exists_run_editNode (f : BTreeNode → BTreeNode) (haddr : M.addr block = some b) :
    ∃ m', run M (editNode block f) m = some ((), m') ∧
      m' b = (f (BTreeNode.ofPage (m b))).toPage (m b) ∧ ∀ c ≠ b, m' c = m c :=
  ⟨_, run_editNode f haddr, Function.update_self _ _ _, fun _ hc => Function.update_of_ne hc _ _⟩

/-- `btree_node_create` on the page that `alloc_page` returns. -/
theorem run_btreeNodeCreate {disk : DiskInterface} {m₁ : Image} (leaf : Bool)
    (halloc : run M (allocPage disk) m = some (block, m₁)) (hne : block ≠ 0)
    (haddr : M.addr block = some b) :
    run M (btreeNodeCreate disk leaf) m =
      some (block, Function.update m₁ b (BTreeNode.createdPage block leaf (m₁ b))) := by
  rw [btreeNodeCreate, run_bind_of_eq halloc, if_neg hne, run_bind_of_eq (run_fetch _ _),
    run_bind_of_eq (run_modify _ haddr), run_bind_of_eq (run_editNode _ haddr),
    run_bind_of_eq (run_writeBack _ _), run_pure, Function.update_self, Function.update_idem,
    BTreeNode.createdPage]

theorem run_btreeNodeRead (haddr : M.addr block = some b)
    (htype : blockType (m b) = BlockType.btreeNode.code) :
    run M (btreeNodeRead block) m = some (some (BTreeNode.ofPage (m b)), m) := by
  rw [btreeNodeRead, run_bind_of_eq (run_fetch _ _), run_bind_of_eq (run_page haddr),
    if_neg (not_not.mpr htype), run_pure]

theorem run_btreeNodeCopy (haddr : M.addr block = some b)
    (htype : blockType (m b) = BlockType.btreeNode.code) :
    run M (btreeNodeCopy block) m = some (BTreeNode.ofPage (m b), m) := by
  rw [btreeNodeCopy, run_bind_of_eq (run_btreeNodeRead haddr htype)]
  rfl

theorem run_btreeNodeWrite {node : BTreeNode} (haddr : M.addr node.blockNumber = some b)
    (htype : blockType (m b) = BlockType.btreeNode.code) :
    run M (btreeNodeWrite node) m = some (0, Function.update m b (node.toPage (m b))) := by
  rw [btreeNodeWrite, run_bind_of_eq (run_fetch _ _), run_bind_of_eq (run_page haddr),
    if_neg (not_not.mpr htype), run_bind_of_eq (run_modify _ haddr),
    run_bind_of_eq (run_writeBack _ _), run_pure]

end Nbtrfs
