import Nbtrfs.Btr.Split

/-!
# Splitting a child

Reference: `btr.c::btree_split_child`.

The upper half of a full child moves to a new sibling. When the parent has room, it lists the sibling
behind the child.
-/

namespace Nbtrfs

open BlockProg

variable {disk : DiskInterface} {m m' m₀ m₁ : Image} {K : Finset ℕ} {x n : ℕ}
  {node node' child child' : BTreeNode}

/-! ## The upper half moves -/

/-- From `node` to `node'` the keys up to `ik` and the children up to `ic` were cleared, from the middle
on. -/
structure Cut (node node' : BTreeNode) (ik ic : ℕ) : Prop where
  fields : BTreeNode.SameFields node' node
  word : ∀ w, node'.word w = if (minKeys + 1 ≤ w ∧ w < ik) ∨
    (maxKeys + (minKeys + 1) ≤ w ∧ w < maxKeys + ic) then 0 else node.word w

namespace Cut

theorem refl (node : BTreeNode) : Cut node node (minKeys + 1) (minKeys + 1) :=
  ⟨⟨rfl, rfl, rfl⟩, fun w => by rw [if_neg (by omega)]⟩

/-- One turn of the loop that clears the keys that moved to the sibling. -/
theorem clearKey {ik : ℕ} (h : Cut node node' ik (minKeys + 1)) (hlo : minKeys + 1 ≤ ik)
    (hik : ik < maxKeys) : Cut node (node'.setKeyAt ik 0) (ik + 1) (minKeys + 1) := by
  have hmax : maxKeys = 250 := rfl
  have hwords : nodeWords = 504 := rfl
  refine ⟨⟨h.fields.blockNumber, h.fields.isLeaf, h.fields.numKeys⟩, fun w => ?_⟩
  rw [BTreeNode.setKeyAt, BTreeNode.word_setWord, h.word]
  by_cases hw : w = ik
  · rw [if_pos (by omega), if_pos (by omega)]
  · rw [if_neg (by omega)]
    congr 1
    exact propext (by omega)

/-- One turn of the loop that clears the children that moved to the sibling. -/
theorem clearChild {ik ic : ℕ} (h : Cut node node' ik ic) (hik : ik ≤ maxKeys)
    (hlo : minKeys + 1 ≤ ic) (hic : ic ≤ maxKeys) : Cut node (node'.setChildAt ic 0) ik (ic + 1) := by
  have hmax : maxKeys = 250 := rfl
  have hwords : nodeWords = 504 := rfl
  refine ⟨⟨h.fields.blockNumber, h.fields.isLeaf, h.fields.numKeys⟩, fun w => ?_⟩
  rw [BTreeNode.setChildAt, BTreeNode.word_setWord, h.word]
  by_cases hw : w = maxKeys + ic
  · rw [if_pos (by omega), if_pos (by omega)]
  · rw [if_neg (by omega)]
    congr 1
    exact propext (by omega)

theorem keyAt {ik ic i : ℕ} (h : Cut node node' ik ic) (hik : ik ≤ i) (hi : i < maxKeys) :
    node'.keyAt i = node.keyAt i := by
  rw [BTreeNode.keyAt, BTreeNode.keyAt, h.word, if_neg (by omega)]

theorem childAt {ik ic i : ℕ} (h : Cut node node' ik ic) (hik : ik ≤ maxKeys) (hic : ic ≤ i) :
    node'.childAt i = node.childAt i := by
  rw [BTreeNode.childAt, BTreeNode.childAt, h.word, if_neg (by omega)]

end Cut

/-- The loop that moves the keys. -/
theorem Filling.run_cutKeys (F : Filling disk m₀ m K child x (minKeys + 1) (minKeys + 1) 0 0 0
      (minKeys + 1)) (hx : x ∉ K) (hn : minKeys + 1 + n ≤ maxKeys) :
    ∃ child' m', run disk.mapping (forUp (fun i child => do
        editNode (UInt64.ofNat x) fun b =>
          { b.setKeyAt (i - minKeys - 1) (child.keyAt i) with numKeys := b.numKeys + 1 }
        pure (child.setKeyAt i 0)) n (minKeys + 1) child) m = some (child', m') ∧
      Filling disk m₀ m' K child x (minKeys + 1) (minKeys + 1) n 0 n (minKeys + 1) ∧
      Cut child child' (minKeys + 1 + n) (minKeys + 1) := by
  have hmax : maxKeys = 250 := rfl
  have hmin : minKeys = 125 := rfl
  obtain ⟨child', m', hrun, F', C'⟩ : ∃ child' m', run disk.mapping (forUp (fun i child => do
        editNode (UInt64.ofNat x) fun b =>
          { b.setKeyAt (i - minKeys - 1) (child.keyAt i) with numKeys := b.numKeys + 1 }
        pure (child.setKeyAt i 0)) n (minKeys + 1) child) m = some (child', m') ∧
      Filling disk m₀ m' K child x (minKeys + 1) (minKeys + 1) (minKeys + 1 + n - (minKeys + 1)) 0
        (minKeys + 1 + n - (minKeys + 1)) (minKeys + 1) ∧
      Cut child child' (minKeys + 1 + n) (minKeys + 1) := by
    refine run_forUp (fun i child' m => Filling disk m₀ m K child x (minKeys + 1) (minKeys + 1)
      (i - (minKeys + 1)) 0 (i - (minKeys + 1)) (minKeys + 1) ∧ Cut child child' i (minKeys + 1))
      ⟨by rwa [Nat.sub_self], Cut.refl child⟩ ?_
    rintro i child' m hlo hi ⟨F, C⟩
    obtain ⟨m₁, hrun₁, F₁⟩ := F.exists_pushKey hx (fun j _ hj => absurd hj (by omega)) (by omega)
    have hpos : i - (minKeys + 1) + (minKeys + 1) = i := by omega
    have hnext : i - (minKeys + 1) + 1 = i + 1 - (minKeys + 1) := by omega
    rw [hpos, ← Nat.sub_sub, ← C.keyAt le_rfl (by omega)] at hrun₁
    rw [hnext] at F₁
    exact ⟨_, m₁, run_bind_of_eq hrun₁, F₁, C.clearKey hlo (by omega)⟩
  rw [Nat.add_sub_cancel_left] at F'
  exact ⟨child', m', hrun, F', C'⟩

/-- The loop that moves the children. -/
theorem Filling.run_cutChildren {nk : ℕ} (F : Filling disk m₀ m K child x (minKeys + 1)
      (minKeys + 1) nk 0 nk (minKeys + 1)) (hx : x ∉ K) (hn : minKeys + n ≤ maxKeys)
    (C : Cut child node maxKeys (minKeys + 1))
    (T : ∀ i ≤ maxKeys, child.childAt i ≠ 0 → NodeTree disk.mapping m₀ K (child.childAt i).toNat) :
    ∃ child' m', run disk.mapping (forUp (fun i child => do
        editNode (UInt64.ofNat x) fun b => b.setChildAt (i - minKeys - 1) (child.childAt i)
        let b ← nodeAt (UInt64.ofNat x)
        adopt (b.childAt (i - minKeys - 1)) b.blockNumber
        pure (child.setChildAt i 0)) n (minKeys + 1) node) m = some (child', m') ∧
      Filling disk m₀ m' K child x (minKeys + 1) (minKeys + 1) nk n nk (minKeys + 1 + n) ∧
      Cut child child' maxKeys (minKeys + 1 + n) := by
  have hmax : maxKeys = 250 := rfl
  have hmin : minKeys = 125 := rfl
  obtain ⟨child', m', hrun, F', C'⟩ : ∃ child' m', run disk.mapping (forUp (fun i child => do
        editNode (UInt64.ofNat x) fun b => b.setChildAt (i - minKeys - 1) (child.childAt i)
        let b ← nodeAt (UInt64.ofNat x)
        adopt (b.childAt (i - minKeys - 1)) b.blockNumber
        pure (child.setChildAt i 0)) n (minKeys + 1) node) m = some (child', m') ∧
      Filling disk m₀ m' K child x (minKeys + 1) (minKeys + 1) nk
        (minKeys + 1 + n - (minKeys + 1)) nk (minKeys + 1 + n) ∧
      Cut child child' maxKeys (minKeys + 1 + n) := by
    refine run_forUp (fun i child' m => Filling disk m₀ m K child x (minKeys + 1) (minKeys + 1) nk
      (i - (minKeys + 1)) nk i ∧ Cut child child' maxKeys i) ⟨by rwa [Nat.sub_self], C⟩ ?_
    rintro i child' m hlo hi ⟨F, C⟩
    obtain ⟨m₁, hrun₁, F₁⟩ := F.exists_setChild hx (fun j _ hj hne => (T j (by omega) hne).mem)
      (show i - (minKeys + 1) < i + 1 - (minKeys + 1) by omega) (by omega) (by omega)
      fun k hk => by omega
    have hpos : i - (minKeys + 1) + (minKeys + 1) = i := by omega
    have hmoved := F₁.holds.child (i - (minKeys + 1)) (by omega)
    rw [hpos] at hmoved
    rw [hpos, ← Nat.sub_sub, ← C.childAt le_rfl le_rfl] at hrun₁
    obtain ⟨m₂, hrun₂, F₂⟩ := F₁.exists_adopt hx (j := i) hlo (Nat.lt_succ_self i) (Nat.le_succ i)
      (fun k _ hk => by omega) (T i (by omega))
    refine ⟨child'.setChildAt i 0, m₂, ?_, F₂, C.clearChild le_rfl hlo (by omega)⟩
    rw [run_bind_of_eq hrun₁, run_bind_of_eq F₁.run_number, Nat.sub_sub, hmoved, F₁.blockNumber,
      run_bind_of_eq hrun₂, run_pure]
  rw [Nat.add_sub_cancel_left] at F'
  exact ⟨child', m', hrun, F', C'⟩

/-- What is left of a child whose upper half was moved. -/
theorem Cut.holds (C : Cut child node maxKeys (maxKeys + 1)) :
    BTreeNode.Holds { node.setKeyAt minKeys 0 with numKeys := UInt16.ofNat minKeys } child 0 minKeys
      (minKeys + 1) := by
  have hmax : maxKeys = 250 := rfl
  have hmin : minKeys = 125 := rfl
  have hwords : nodeWords = 504 := rfl
  have hword : ∀ w, BTreeNode.word
      { node.setKeyAt minKeys 0 with numKeys := UInt16.ofNat minKeys } w =
      if (minKeys ≤ w ∧ w < maxKeys) ∨ (maxKeys + (minKeys + 1) ≤ w ∧ w < maxKeys + (maxKeys + 1))
      then 0 else child.word w := by
    intro w
    show (BTreeNode.setWord node minKeys 0).word w = _
    rw [BTreeNode.word_setWord, C.word]
    by_cases hw : w = minKeys
    · rw [if_pos (by omega), if_pos (by omega)]
    · rw [if_neg (by omega)]
      congr 1
      exact propext (by omega)
  refine ⟨by omega, by omega, fun i hi => ?_, fun i hlo hi => ?_, fun i hi => ?_, fun i hlo hi => ?_⟩
  · rw [BTreeNode.keyAt, BTreeNode.keyAt, hword, if_neg (by omega), Nat.add_zero]
  · rw [BTreeNode.keyAt, hword, if_pos (by omega)]
  · rw [BTreeNode.childAt, BTreeNode.childAt, hword, if_neg (by omega), Nat.add_zero]
  · rw [BTreeNode.childAt, hword, if_pos (by omega)]

theorem childAt_setRightSibling {v : UInt64} {i : ℕ} (hi : i ≤ maxKeys) :
    (node.setRightSibling v).childAt i = node.childAt i := by
  have hmax : maxKeys = 250 := rfl
  rw [BTreeNode.childAt, BTreeNode.setRightSibling, BTreeNode.word_setWord, if_neg (by omega),
    BTreeNode.childAt]

theorem children_setRightSibling (node : BTreeNode) (v : UInt64) :
    (node.setRightSibling v).children = node.children := by
  rw [BTreeNode.children, BTreeNode.children]
  congr 1
  apply List.map_congr_left
  intro i hi
  exact childAt_setRightSibling (Nat.le_of_lt_succ (List.mem_range.mp hi))

/-- A new right sibling does not change what is in the node. -/
theorem Full.setRightSibling (R : Full disk m K child n) (v : UInt64) :
    Full disk m K (child.setRightSibling v) n := by
  have hle := R.occupied.le
  have hsame : ∀ i < n, (child.setRightSibling v).childAt i = child.childAt i := fun i hi =>
    childAt_setRightSibling (by omega)
  refine ⟨R.numKeys, ⟨hle, fun i hi => ?_, fun i hlo hi => ?_⟩, R.count, fun i hi => ?_,
    fun i hi j hj h => ?_⟩
  · rw [hsame i hi]
    exact R.occupied.ne_zero i hi
  · rw [childAt_setRightSibling hi]
    exact R.occupied.past i hlo hi
  · rw [hsame i hi]
    exact R.tree i hi
  · rw [hsame i hi, hsame j hj] at h
    exact R.inj i hi j hj h

/-- The upper half of `child` was moved to the new node `b`; `child'` is what is left, and `m₁` the
image before the first child was moved. -/
structure Moved (disk : DiskInterface) (m m₁ m' : Image) (K : Finset ℕ) (child child' : BTreeNode)
    (b : ℕ) : Prop where
  clear : blockBit m b = false
  lt : b < disk.totalBlocks.toNat
  number : UInt64.ofNat b ≠ 0
  not_mem : b ∉ K
  same : ∀ c ∈ K, m₁ c = m c
  used : InUse disk m' (insert b K)
  free : nearFree disk m = nearFree disk m' + 1
  other : ∀ c, blockBitmapBlocks disk.totalBlocks.toNat < c → c ∉ K → c ≠ b → m' c = m c
  high : Filling disk m₁ m' K (child.setRightSibling (UInt64.ofNat b)) b (minKeys + 1)
    (minKeys + 1) (maxKeys - (minKeys + 1)) (maxKeys - minKeys) (maxKeys - (minKeys + 1))
    (maxKeys + 1)
  low : child'.Holds (child.setRightSibling (UInt64.ofNat b)) 0 minKeys (minKeys + 1)
  numKeys : child'.numKeys.toNat = minKeys
  left : (BTreeNode.ofPage (m' b)).leftSibling = child.blockNumber
  right : child'.rightSibling = UInt64.ofNat b
  blockNumber : child'.blockNumber = child.blockNumber
  parent : child'.parent = child.parent

/-- The first half of `btree_split_child`. -/
theorem Full.exists_splitOff (R : Full disk m K child n) (U : InUse disk m K)
    (hfree : 0 < nearFree disk m) (node : BTreeNode) :
    ∃ b child' m₁ m', run disk.mapping (splitOff disk node child) m =
        some ((UInt64.ofNat b, child'), m') ∧ Moved disk m m₁ m' K child child' b := by
  have hmax : maxKeys = 250 := rfl
  have hmin : minKeys = 125 := rfl
  obtain ⟨b, H⟩ := exists_firstFree hfree
  have hb := U.not_mem H
  obtain ⟨m₁, hrun₁, hnode₁, ⟨new, hpage₁⟩, A₁, hbits₁, hother₁⟩ := H.exists_node U.area false
  -- the links of the new node
  obtain ⟨m₂, hrun₂, hpage₂, htype₂, hother₂⟩ := hnode₁.exists_edit fun b =>
    b.setParent node.blockNumber
  have hnode₂ : IsNode disk.mapping m₂ b := ⟨hnode₁.addr, htype₂⟩
  have hnumber₂ : (BTreeNode.ofPage (m₂ b)).blockNumber = UInt64.ofNat b := by
    rw [hpage₂, hpage₁]
    rfl
  obtain ⟨m₃, hrun₃, hpage₃, htype₃, hother₃⟩ := hnode₂.exists_edit fun b =>
    b.setLeftSibling child.blockNumber
  rw [hpage₂, hpage₁] at hpage₃
  have hsame : ∀ c ∈ K, m₃ c = m c := fun c hc => by
    have hcb : c ≠ b := fun h => hb (h ▸ hc)
    rw [hother₃ c hcb, hother₂ c hcb, hother₁ c (U.behind c hc) hcb]
  have R₁ := R.setRightSibling (UInt64.ofNat b)
  have T₁ : ∀ i ≤ maxKeys, (child.setRightSibling (UInt64.ofNat b)).childAt i ≠ 0 →
      NodeTree disk.mapping m₃ K ((child.setRightSibling (UInt64.ofNat b)).childAt i).toNat :=
    fun i hi hne => (R₁.trees hi hne).congr fun c hc => by
      rw [hsame c hc]
      exact SameNode.refl _
  -- the keys and the children
  have F₃ : Filling disk m₃ m₃ K (child.setRightSibling (UInt64.ofNat b)) b (minKeys + 1)
      (minKeys + 1) 0 0 0 (minKeys + 1) := by
    refine filling_refl ⟨hnode₁.addr, htype₃⟩ ?_ ?_ ?_ fun w hw => ?_
    · rw [hpage₃]
      rfl
    · rw [hpage₃]
      rfl
    · rw [hpage₃]
      rfl
    · rw [hpage₃, BTreeNode.setLeftSibling, BTreeNode.word_setWord, if_neg (by omega),
        BTreeNode.setParent, BTreeNode.word_setWord, if_neg (by omega), BTreeNode.word_init]
  obtain ⟨child₄, m₄, hrun₄, F₄, C₄⟩ := F₃.run_cutKeys (n := maxKeys - (minKeys + 1)) hb (by omega)
  obtain ⟨child₅, m₅, hrun₅, F₅, C₅⟩ := F₄.run_cutChildren (n := maxKeys - minKeys) hb (by omega)
    C₄ T₁
  -- the pages that are no nodes of the tree
  have hkeep : ∀ c, c ∉ K → c ≠ b → m₅ c = m₁ c := fun c hK hcb => by
    rw [F₅.adopted.other c hcb fun j _ hj hne h => hK (h ▸ (T₁ j (by omega) hne).mem),
      hother₃ c hcb, hother₂ c hcb]
  have hlow : ∀ c ≤ blockBitmapBlocks disk.totalBlocks.toNat, m₅ c = m₁ c := fun c hc => by
    have hbehind := U.area.lt_of_clear H.clear
    exact hkeep c (fun h => absurd (U.behind c h) (by omega)) (by omega)
  have hbits : ∀ c < disk.totalBlocks.toNat,
      blockBit m₅ c = if c = b then true else blockBit m c := fun c hc => by
    rw [BitmapArea.bit_congr hlow hc, hbits₁ c hc]
  have hword : ∀ w, 501 ≤ w → child₅.word w = (child.setRightSibling (UInt64.ofNat b)).word w := by
    intro w hw
    rw [C₅.word, if_neg (by omega)]
  refine ⟨b, { child₅.setKeyAt minKeys 0 with numKeys := UInt16.ofNat minKeys }, m₃, m₅, ?_, {
    clear := H.clear
    lt := H.lt_total
    number := H.number_ne_zero U.area
    not_mem := hb
    same := hsame
    used := {
      area := A₁.congr (by have := H.lt_total; omega) hlow
      lt := fun c hc => (Finset.mem_insert.mp hc).elim (fun h => h ▸ H.lt_total) (U.lt c)
      behind := fun c hc => (Finset.mem_insert.mp hc).elim
        (fun h => h ▸ U.area.lt_of_clear H.clear) (U.behind c)
      bit := fun c hc => by
        rcases Finset.mem_insert.mp hc with rfl | hc
        · rw [hbits c H.lt_total, if_pos rfl]
        · rw [hbits c (U.lt c hc), U.bit c hc, ite_self] }
    free := H.nearFree_eq hbits
    other := fun c hc hK hcb => by rw [hkeep c hK hcb, hother₁ c hc hcb]
    high := F₅
    low := C₅.holds
    numKeys := rfl
    left := by
      rw [BTreeNode.leftSibling, F₅.links _ (by omega), hpage₃, BTreeNode.setLeftSibling,
        BTreeNode.word_setWord, if_pos (by decide)]
    right := by
      show (child₅.setKeyAt minKeys 0).word 503 = _
      rw [BTreeNode.setKeyAt, BTreeNode.word_setWord, if_neg (by decide), hword _ (by omega),
        BTreeNode.setRightSibling, BTreeNode.word_setWord, if_pos (by decide)]
    blockNumber := C₅.fields.blockNumber
    parent := by
      show (child₅.setKeyAt minKeys 0).word 501 = child.word 501
      rw [BTreeNode.setKeyAt, BTreeNode.word_setWord, if_neg (by decide), hword _ (by omega),
        BTreeNode.setRightSibling, BTreeNode.word_setWord, if_neg (by decide)] }⟩
  have hin : maxKeys + (child.setRightSibling (UInt64.ofNat b)).numKeys.toNat < nodeWords := by
    rw [R₁.numKeys]
    decide
  have hcount : (child.setRightSibling (UInt64.ofNat b)).numKeys.toNat - (minKeys + 1) =
      maxKeys - (minKeys + 1) := by rw [R₁.numKeys]
  rw [splitOff, run_bind_of_eq hrun₁, if_neg (H.number_ne_zero U.area), run_bind_of_eq hrun₂,
    run_bind_of_eq hnode₂.run_nodeAt, hnumber₂]
  refine (run_bind_of_eq hrun₃).trans ((run_bind_of_eq (inNode_of_lt hin)).trans ?_)
  have hcount₄ : child₄.numKeys.toNat + 1 - (minKeys + 1) = maxKeys - minKeys := by
    rw [C₄.fields.numKeys, R₁.numKeys, Nat.add_sub_add_right]
  rw [hcount, run_bind_of_eq hrun₄, hcount₄, run_bind_of_eq hrun₅, run_pure]

/-- It follows a null pointer when there is no page for the new node. -/
theorem run_splitOff_none (A : BitmapArea disk m)
    (hbehind : blockBitmapBlocks disk.totalBlocks.toNat < disk.totalBlocks.toNat)
    (hnear : disk.addressable = disk.totalBlocks.toNat) (hfree : nearFree disk m = 0) :
    run disk.mapping (splitOff disk node child) m = none := by
  rw [splitOff, run_bind_of_eq (A.run_btreeNodeCreate_full hbehind hnear hfree false), if_pos rfl,
    run_crash]

/-! ## A parent with room -/

/-- `btree_update_parent_keys`'s loop, and that of `btree_split_child`: only keys change. -/
theorem exists_run_refreshKeys {parent : BTreeNode} (hroom : parent.numKeys.toNat ≤ maxKeys)
    (hmaximum : ∀ i < parent.numKeys.toNat, parent.childAt i ≠ 0 →
      ∃ k, run disk.mapping (btreeFindMaximum disk (parent.childAt i)) m = some (k, m)) :
    ∃ parent', run disk.mapping (refreshKeys disk parent) m = some (parent', m) ∧
      BTreeNode.SameFields parent' parent ∧ ∀ w, maxKeys ≤ w → parent'.word w = parent.word w := by
  have hmax : maxKeys = 250 := rfl
  obtain ⟨parent', m', hrun, rfl, hfields, hwords⟩ : ∃ parent' m',
      run disk.mapping (refreshKeys disk parent) m = some (parent', m') ∧ m' = m ∧
      BTreeNode.SameFields parent' parent ∧ ∀ w, maxKeys ≤ w → parent'.word w = parent.word w := by
    refine run_forUp (fun _ parent' m' => m' = m ∧ BTreeNode.SameFields parent' parent ∧
      ∀ w, maxKeys ≤ w → parent'.word w = parent.word w) ⟨rfl, ⟨rfl, rfl, rfl⟩, fun _ _ => rfl⟩ ?_
    rintro i parent' m' - hi ⟨rfl, hfields, hwords⟩
    have hin : maxKeys + i < nodeWords := by
      simp only [nodeWords, maxKeys] at *
      omega
    have hsame : parent'.childAt i = parent.childAt i := hwords _ (Nat.le_add_right _ _)
    by_cases hzero : parent.childAt i = 0
    · refine ⟨parent', m', ?_, rfl, hfields, hwords⟩
      rw [run_bind_of_eq (inNode_of_lt hin), hsame, if_neg (not_not.mpr hzero), run_pure]
    · obtain ⟨k, hk⟩ := hmaximum i (by omega) hzero
      refine ⟨parent'.setKeyAt i k, m', ?_, rfl, ⟨hfields.blockNumber, hfields.isLeaf,
        hfields.numKeys⟩, fun w hw => ?_⟩
      · rw [run_bind_of_eq (inNode_of_lt hin), hsame, if_pos hzero, run_bind_of_eq hk, run_pure]
      · rw [BTreeNode.setKeyAt, BTreeNode.word_setWord, if_neg (by omega), hwords w hw]
  exact ⟨parent', hrun, hfields, hwords⟩

/-- From `node` to `node'` block `b` was entered as a child behind position `index`. -/
structure Listed (node node' : BTreeNode) (index : ℕ) (b : UInt64) : Prop where
  blockNumber : node'.blockNumber = node.blockNumber
  numKeys : node'.numKeys.toNat = node.numKeys.toNat + 1
  child : ∀ i ≤ maxKeys, node'.childAt i =
    if i ≤ index then node.childAt i else if i = index + 1 then b else node.childAt (i - 1)

namespace Listed

variable {index p : ℕ} {b : UInt64} {node'' : BTreeNode}

theorem congr (h : Listed node node' index b) (hfields : BTreeNode.SameFields node'' node')
    (hchild : ∀ i ≤ maxKeys, node''.childAt i = node'.childAt i) : Listed node node'' index b where
  blockNumber := hfields.blockNumber.trans h.blockNumber
  numKeys := by rw [hfields.numKeys, h.numKeys]
  child i hi := (hchild i hi).trans (h.child i hi)

theorem insert (h : Listed node node' index b) (hocc : node.Occupied p) (hindex : index < p)
    (hroom : p ≤ maxKeys) (hb : b ≠ 0) :
    node'.Occupied (p + 1) ∧ node'.children = node.children.insertIdx (index + 1) b := by
  refine hocc.insert (by omega) hroom hb fun i hi => ?_
  rw [h.child i hi]
  simp only [Nat.lt_succ_iff]

theorem occupied (h : Listed node node' index b) (hocc : node.Occupied p) (hindex : index < p)
    (hroom : p ≤ maxKeys) (hb : b ≠ 0) : node'.Occupied (p + 1) :=
  (h.insert hocc hindex hroom hb).1

/-- The new child follows the one at position `index`. -/
theorem children_eq (h : Listed node node' index b) (hocc : node.Occupied p) (hindex : index < p)
    (hroom : p ≤ maxKeys) (hb : b ≠ 0) :
    node'.children = node.children.insertIdx (index + 1) b :=
  (h.insert hocc hindex hroom hb).2

end Listed

/-- A node with room lists the new sibling. -/
theorem exists_run_addSibling {index p b : ℕ} (hroom : node.numKeys.toNat < maxKeys)
    (hocc : node.Occupied p) (hp : p ≤ node.numKeys.toNat + 1) (hindex : index < p)
    (hnode : IsNode disk.mapping m b)
    (hblock : (BTreeNode.ofPage (m b)).blockNumber = UInt64.ofNat b) :
    ∃ node', run disk.mapping (addSibling node index (UInt64.ofNat b)) m = some (node', m) ∧
      Listed node node' index (UInt64.ofNat b) := by
  have hmax : maxKeys = 250 := rfl
  have hwords : nodeWords = 504 := rfl
  have hin : maxKeys + index + 1 < nodeWords := by omega
  obtain ⟨hnumber, -, hcount⟩ := BTreeNode.sameFields_shiftUp node (maxKeys + index + 1)
    (node.numKeys.toNat - index)
  refine ⟨{ (node.shiftUp (maxKeys + index + 1) (node.numKeys.toNat - index)).setChildAt (index + 1)
      (UInt64.ofNat b) with numKeys := (node.shiftUp (maxKeys + index + 1)
      (node.numKeys.toNat - index)).numKeys + 1 }, ?_, hnumber, ?_, fun i hi => ?_⟩
  · rw [addSibling, run_bind_of_eq (inNode_of_lt hin), run_bind_of_eq hnode.run_nodeAt, hblock]
    rfl
  · show ((node.shiftUp (maxKeys + index + 1) (node.numKeys.toNat - index)).numKeys + 1).toNat = _
    rw [hcount, UInt16.toNat_add]
    show (node.numKeys.toNat + 1) % 65536 = _
    omega
  · show (BTreeNode.setWord _ _ _).word (maxKeys + i) = _
    rw [BTreeNode.word_setWord, BTreeNode.word_shiftUp _ (by omega)]
    by_cases hle : i ≤ index
    · rw [if_neg (by omega), if_neg (by omega), if_pos hle, BTreeNode.childAt]
    · rw [if_neg hle]
      by_cases hnew : i = index + 1
      · rw [if_pos ⟨by omega, by omega⟩, if_pos hnew]
      · rw [if_neg (by omega), if_neg hnew]
        by_cases hend : i ≤ node.numKeys.toNat + 1
        · rw [if_pos (by omega), BTreeNode.childAt]
          congr 1
          omega
        · rw [if_neg (by omega), hocc.past (i - 1) (by omega) (by omega)]
          exact hocc.past i (by omega) hi

/-- The children of `child` are those of `child'` and the new node `b`, which `node'` lists behind
position `index`. -/
structure ChildSplit (m m' : Image) (node child node' child' : BTreeNode) (index b : ℕ) : Prop where
  fresh : blockBit m b = false
  children : child'.children ++ (BTreeNode.ofPage (m' b)).children = child.children
  listed : node'.children = node.children.insertIdx (index + 1) (UInt64.ofNat b)
  siblings : child'.rightSibling = UInt64.ofNat b ∧
    (BTreeNode.ofPage (m' b)).leftSibling = child.blockNumber
  parent : ∀ c ∈ (BTreeNode.ofPage (m' b)).children,
    (BTreeNode.ofPage (m' c.toNat)).parent = UInt64.ofNat b
  clean : child'.Clean ∧ (BTreeNode.ofPage (m' b)).Clean

namespace Moved

variable {b : ℕ}

/-- The trees of `K` are still there. -/
theorem tree (W : Moved disk m m₁ m' K child child' b) {c : ℕ} (T : NodeTree disk.mapping m K c) :
    NodeTree disk.mapping m' K c :=
  (T.congr fun d hd => by
    rw [W.same d hd]
    exact SameNode.refl _).congr W.high.adopted.tree

/-- `btree_find_maximum` returns on the new node, also after its links were set. -/
theorem exists_run_findMaximum (W : Moved disk m m₁ m' K child child' b) (U : InUse disk m K)
    (R : Full disk m K child n) {m'' : Image} (h : ∀ c, SameNode (m' c) (m'' c)) :
    ∃ k, run disk.mapping (btreeFindMaximum disk (UInt64.ofNat b)) m'' = some (k, m'') := by
  have hmax : maxKeys = 250 := rfl
  have hmin : minKeys = 125 := rfl
  have hb := h b
  refine Nbtrfs.exists_run_findMaximum U W.not_mem W.lt
    ⟨W.high.node.addr, hb.type.trans W.high.node.type⟩ (hb.blockNumber.trans W.high.blockNumber)
    (hb.isLeaf.trans W.high.isLeaf) ?_ fun i hi hne => ?_
  · rw [hb.numKeys, W.high.numKeys]
    omega
  · rw [hb.child i hi] at hne ⊢
    by_cases hlt : i < maxKeys - minKeys
    · rw [W.high.holds.child i hlt, childAt_setRightSibling (by omega)] at hne ⊢
      exact (W.tree (R.trees (by omega) hne)).congr fun c _ => h c
    · exact absurd (W.high.holds.childPast i (by omega) hi) hne

/-- The halves, however the links of the new node are set. -/
theorem childSplit (W : Moved disk m m₁ m' K child child' b) (R : Full disk m K child n)
    {m'' : Image} {index : ℕ} (hother : ∀ c ≠ b, m'' c = m' c)
    (hb : BTreeNode.ofPage (m'' b) = (BTreeNode.ofPage (m' b)).setParent node.blockNumber)
    (hlisted : node'.children = node.children.insertIdx (index + 1) (UInt64.ofNat b)) :
    ChildSplit m m'' node child node' child' index b := by
  have hmax : maxKeys = 250 := rfl
  have hmin : minKeys = 125 := rfl
  have R₁ := R.setRightSibling (UInt64.ofNat b)
  have hle := R₁.occupied.le
  have hB : (BTreeNode.ofPage (m'' b)).Holds (child.setRightSibling (UInt64.ofNat b)) (minKeys + 1)
      (maxKeys - (minKeys + 1)) (maxKeys - minKeys) := W.high.holds.congr
    fun w hw => by rw [hb, BTreeNode.setParent, BTreeNode.word_setWord, if_neg (by omega)]
  refine ⟨W.clear, ?_, hlisted, ⟨W.right, ?_⟩, fun c hc => ?_, W.low.clean W.numKeys le_rfl,
    hB.clean ?_ (by omega)⟩
  · rw [R₁.children_append W.low hB, children_setRightSibling]
  · rw [hb, BTreeNode.leftSibling, BTreeNode.setParent, BTreeNode.word_setWord,
      if_neg (by decide)]
    exact W.left
  · obtain ⟨i, hlo, hin, rfl⟩ := R₁.mem_high hB hc
    have hne : ((child.setRightSibling (UInt64.ofNat b)).childAt i).toNat ≠ b := fun h =>
      W.not_mem (h ▸ (R₁.tree i hin).mem)
    rw [hother _ hne]
    exact W.high.adopted.parent i hlo (by omega) (R₁.occupied.ne_zero i hin)
  · rw [hb]
    exact W.high.numKeys

end Moved

/-- `btree_split_child` keeps the sequence of the children, if the parent has room. -/
theorem btreeSplitChild_children {p index : ℕ} (U : InUse disk m K) (hfree : 0 < nearFree disk m)
    (R : Full disk m K child n) (hroom : node.numKeys.toNat < maxKeys) (hocc : node.Occupied p)
    (hp : p ≤ node.numKeys.toNat + 1) (hindex : index < p)
    (hbelow : ∀ i < p, NodeTree disk.mapping m K (node.childAt i).toNat) :
    ∃ m' node' child' b, run disk.mapping (btreeSplitChild disk node index child) m =
        some ((node', child'), m') ∧ ChildSplit m m' node child node' child' index b ∧
      node'.Occupied (p + 1) := by
  have hmax : maxKeys = 250 := rfl
  obtain ⟨b, child', m₁, m₂, hsplit, W⟩ := R.exists_splitOff U hfree node
  obtain ⟨node₁, hadd, L⟩ := exists_run_addSibling hroom hocc hp hindex W.high.node
    W.high.blockNumber
  obtain ⟨k, hk⟩ := W.exists_run_findMaximum U R fun _ => SameNode.refl _
  -- the new node gets its parent
  obtain ⟨m₃, hedit, hpage₃, htype₃, hother₃⟩ := W.high.node.exists_edit fun b =>
    b.setParent node.blockNumber
  have hsame : ∀ c, SameNode (m₂ c) (m₃ c) := by
    intro c
    by_cases hc : c = b
    · rw [hc]
      exact ⟨htype₃.trans W.high.node.type.symm, by rw [hpage₃]; rfl, by rw [hpage₃]; rfl,
        by rw [hpage₃]; rfl, fun i hi => by rw [hpage₃, BTreeNode.childAt_setParent hi]⟩
    · rw [hother₃ c hc]
      exact SameNode.refl _
  -- all keys are recomputed
  have hkey : ∀ i, (node₁.setKeyAt index k).childAt i = node₁.childAt i := by
    intro i
    rw [BTreeNode.childAt, BTreeNode.setKeyAt, BTreeNode.word_setWord, if_neg (by omega),
      BTreeNode.childAt]
  have L₂ : Listed node (node₁.setKeyAt index k) index (UInt64.ofNat b) :=
    L.congr ⟨rfl, rfl, rfl⟩ fun i _ => hkey i
  have hcount : (node₁.setKeyAt index k).numKeys.toNat ≤ maxKeys := by
    rw [L₂.numKeys]
    omega
  obtain ⟨node', hrefresh, hfields, hwords⟩ := exists_run_refreshKeys (m := m₃) hcount
    fun i hi hne => by
    rw [L₂.numKeys] at hi
    rw [L₂.child i (by omega)] at hne ⊢
    have hold : ∀ j ≤ maxKeys, node.childAt j ≠ 0 →
        ∃ k, run disk.mapping (btreeFindMaximum disk (node.childAt j)) m₃ = some (k, m₃) := by
      intro j hj hzero
      have hjp : j < p := by
        by_contra hge
        exact hzero (hocc.past j (by omega) hj)
      have T := (W.tree (hbelow j hjp)).congr fun c _ => hsame c
      obtain ⟨k, hk⟩ := T.exists_run_maximumFrom U.card_le
      rw [UInt64.ofNat_toNat] at hk
      exact ⟨k, hk⟩
    split_ifs at hne ⊢
    · exact hold i (by omega) hne
    · exact W.exists_run_findMaximum U R hsame
    · exact hold (i - 1) (by omega) hne
  have L' : Listed node node' index (UInt64.ofNat b) :=
    L₂.congr hfields fun i _ => hwords _ (Nat.le_add_right _ _)
  refine ⟨m₃, node', child', b, ?_, W.childSplit R hother₃ hpage₃
    (L'.children_eq hocc hindex (by omega) W.number), L'.occupied hocc hindex (by omega) W.number⟩
  rw [btreeSplitChild, callDepth, splitChildFrom, run_bind_of_eq hsplit]
  simp only
  rw [if_pos hroom, run_bind_of_eq hadd, run_bind_of_eq W.high.run_number, W.high.blockNumber,
    run_bind_of_eq hk, run_bind_of_eq hedit, run_bind_of_eq hrefresh, run_pure]

end Nbtrfs
