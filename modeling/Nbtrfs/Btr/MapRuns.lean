import Nbtrfs.Btr.FlatTree
import Nbtrfs.Format
import Nbtrfs.Lib.Runs

/-!
# The B-tree as a finite map

A run inserts and deletes keys in a tree that starts empty; `live` records what was inserted and not
deleted since. Searching agrees with it as long as the root has room for every new leaf and no
deletion passes a key 0: a full root loses leaves, and the loop of `btree_remove_key` takes a key 0
for the end of the keys.
-/

namespace Nbtrfs

open BlockProg

/-- One call on the tree. -/
inductive TreeOp where
  | insert (key value : UInt64) (type : UInt32)
  | delete (key : UInt64)
deriving DecidableEq

/-- The volume, and value and type of the keys that were inserted and not deleted since. -/
structure TreeState where
  image : Image
  live : UInt64 → Option (UInt64 × UInt32)

/-- One call on the tree at block `root`. -/
def TreeOp.step (disk : DiskInterface) (root : UInt64) : TreeOp → TreeState → Option TreeState
  | insert key value type, s =>
      (run disk.mapping (btreeInsert disk root key value type) s.image).map fun r =>
        ⟨r.2, Function.update s.live key (some (value, type))⟩
  | delete key, s => (run disk.mapping (btreeDelete disk root key) s.image).map fun r =>
      ⟨r.2, Function.update s.live key none⟩

/-- A key that is live is not inserted again, and there is a free page for a new one. -/
def TreeOp.Valid (disk : DiskInterface) : TreeOp → TreeState → Prop
  | insert key _ _, s => s.live key = none ∧ ∃ b < disk.totalBlocks.toNat, blockBit s.image b = false
  | delete _, _ => True

/-- A search returns a nonzero block exactly for the live keys, and that is a leaf with the key and
with the value and type of its insertion. -/
def MatchesLive (disk : DiskInterface) (root : UInt64) (s : TreeState) : Prop :=
  ∀ key, ∃ rv, run disk.mapping (btreeSearch disk root key) s.image = some (rv, s.image) ∧
    (rv ≠ 0 ↔ s.live key ≠ none) ∧
    ∀ value type, s.live key = some (value, type) → ∃ b, disk.mapping.addr rv = some b ∧
      (BTreeNode.ofPage (s.image b)).isLeaf ≠ 0 ∧ (BTreeNode.ofPage (s.image b)).key = key ∧
      (BTreeNode.ofPage (s.image b)).value = value ∧ (BTreeNode.ofPage (s.image b)).type = type

/-- The first free block has a number below `2 ^ 19` and the root has room; no key 0 is passed. -/
def TreeOp.Fits (disk : DiskInterface) (root : UInt64) : TreeOp → TreeState → Prop
  | insert _ _ _, s => (∃ f, FirstFree disk s.image f) ∧
      (BTreeNode.ofPage (s.image root.toNat)).numKeys.toNat < maxKeys
  | delete key, s => key = 0 ∨ s.live key = none ∨ s.live 0 = none

/-- The leaves are the live keys. -/
structure LeavesMatch (leaves : List Leaf) (live : UInt64 → Option (UInt64 × UInt32)) : Prop where
  live_iff : ∀ key value type, live key = some (value, type) ↔
    ∃ l ∈ leaves, l.key = key ∧ l.value = value ∧ l.type = type
  key_inj : ∀ l ∈ leaves, ∀ l' ∈ leaves, l.key = l'.key → l = l'

variable {disk : DiskInterface} {r : ℕ} {leaves : List Leaf} {s : TreeState}
  {live : UInt64 → Option (UInt64 × UInt32)} {key : UInt64}

namespace LeavesMatch

/-- A key that is not live is that of no leaf. -/
theorem live_eq_none_iff (h : LeavesMatch leaves live) :
    live key = none ↔ ∀ l ∈ leaves, l.key ≠ key := by
  constructor
  · intro hnone l hl hkey
    have hsome := (h.live_iff key l.value l.type).mpr ⟨l, hl, hkey, rfl, rfl⟩
    rw [hnone] at hsome
    cases hsome
  · intro hall
    cases hlive : live key with
    | none => rfl
    | some p =>
        obtain ⟨l, hl, hkey, -⟩ := (h.live_iff key p.1 p.2).mp hlive
        exact absurd hkey (hall l hl)

/-- A search finds exactly the live keys. -/
theorem found_ne_zero_iff (h : LeavesMatch leaves live)
    (hne : ∀ l ∈ leaves, UInt64.ofNat l.block ≠ 0) :
    Leaf.found leaves key ≠ 0 ↔ live key ≠ none := by
  rw [not_iff_not, Leaf.found_eq_zero_iff hne, h.live_eq_none_iff]

/-- The insertion of a leaf under a new key adds this key to the live ones, and to every other key
its value stays. -/
theorem insert (h : LeavesMatch leaves live) (l : Leaf) (habsent : live l.key = none) :
    LeavesMatch (insertLeaf leaves l)
      (Function.update live l.key (some (l.value, l.type))) where
  live_iff key value type := by
    have hnot := h.live_eq_none_iff.mp habsent
    by_cases hkey : key = l.key
    · subst hkey
      rw [Function.update_self]
      constructor
      · intro heq
        obtain ⟨rfl, rfl⟩ := Prod.mk.inj (Option.some.inj heq)
        exact ⟨l, mem_insertLeaf.mpr (Or.inl rfl), rfl, rfl, rfl⟩
      · rintro ⟨x, hx, hxkey, rfl, rfl⟩
        rcases mem_insertLeaf.mp hx with rfl | hx
        · rfl
        · exact absurd hxkey (hnot x hx)
    · rw [Function.update_of_ne hkey, h.live_iff]
      constructor
      · rintro ⟨x, hx, hrest⟩
        exact ⟨x, mem_insertLeaf.mpr (Or.inr hx), hrest⟩
      · rintro ⟨x, hx, hxkey, hrest⟩
        rcases mem_insertLeaf.mp hx with rfl | hx
        · exact absurd hxkey.symm hkey
        · exact ⟨x, hx, hxkey, hrest⟩
  key_inj x hx y hy hxy := by
    have hnot := h.live_eq_none_iff.mp habsent
    rcases mem_insertLeaf.mp hx with hxl | hold
    · rcases mem_insertLeaf.mp hy with hyl | hold'
      · rw [hxl, hyl]
      · exact absurd (hxl ▸ hxy.symm) (hnot y hold')
    · rcases mem_insertLeaf.mp hy with hyl | hold'
      · exact absurd (hyl ▸ hxy) (hnot x hold)
      · exact h.key_inj x hold y hold' hxy

/-- Dropping a leaf drops its key, and no other leaf carries that key. -/
theorem delete {front back : List Leaf} {l : Leaf} (h : LeavesMatch (front ++ l :: back) live)
    (hdistinct : ((front ++ l :: back).map Leaf.block).Nodup) :
    LeavesMatch (front ++ back) (Function.update live l.key none) := by
  have hsub : ∀ x ∈ front ++ back, x ∈ front ++ l :: back := fun x hx =>
    (List.Sublist.append_left (List.sublist_cons_self l back) front).subset hx
  have hmem : l ∈ front ++ l :: back := List.mem_append_right _ (List.mem_cons_self ..)
  have hne : ∀ x ∈ front ++ back, x.key ≠ l.key := by
    intro x hx hkey
    obtain rfl := h.key_inj x (hsub x hx) l hmem hkey
    rw [List.map_append, List.map_cons, List.nodup_middle, List.nodup_cons, ← List.map_append]
      at hdistinct
    exact hdistinct.1 (List.mem_map_of_mem hx)
  have hback : ∀ x ∈ front ++ l :: back, x.key ≠ l.key → x ∈ front ++ back := by
    intro x hx hkey
    rcases List.mem_append.mp hx with hx | hx
    · exact List.mem_append_left _ hx
    · rcases List.mem_cons.mp hx with rfl | hx
      · exact absurd rfl hkey
      · exact List.mem_append_right _ hx
  exact {
    live_iff := fun key value type => by
      by_cases hkey : key = l.key
      · subst hkey
        rw [Function.update_self]
        constructor
        · intro heq
          cases heq
        · rintro ⟨x, hx, hxkey, -⟩
          exact absurd hxkey (hne x hx)
      · rw [Function.update_of_ne hkey, h.live_iff]
        constructor
        · rintro ⟨x, hx, rfl, hrest⟩
          exact ⟨x, hback x hx hkey, rfl, hrest⟩
        · rintro ⟨x, hx, hrest⟩
          exact ⟨x, hsub x hx, hrest⟩
    key_inj := fun x hx y hy => h.key_inj x (hsub x hx) y (hsub y hy) }

end LeavesMatch

/-- What holds between the calls: a flat tree whose leaves are the live keys. -/
def TreeInv (disk : DiskInterface) (r : ℕ) (s : TreeState) : Prop :=
  ∃ leaves, FlatTree disk s.image r leaves ∧ LeavesMatch leaves s.live

/-- A flat tree with the live keys is searched correctly. -/
theorem TreeInv.matchesLive (h : TreeInv disk r s) : MatchesLive disk (UInt64.ofNat r) s := by
  obtain ⟨leaves, T, M⟩ := h
  have hne : ∀ l ∈ leaves, UInt64.ofNat l.block ≠ 0 := fun l hl => (T.leaf l hl).number_ne_zero
  intro key
  refine ⟨_, T.run_btreeSearch key, M.found_ne_zero_iff hne, fun value type hlive => ?_⟩
  have hiff : Leaf.found leaves key ≠ 0 ↔ s.live key ≠ none := M.found_ne_zero_iff hne
  obtain ⟨l, hl, hkey, hfound⟩ := Leaf.exists_of_found_ne_zero
    (hiff.mpr (by rw [hlive]; exact Option.some_ne_none _))
  obtain ⟨x, hx, hxkey, rfl, rfl⟩ := (M.live_iff key value type).mp hlive
  obtain rfl := M.key_inj l hl x hx (hkey.trans hxkey.symm)
  have L := T.leaf l hl
  refine ⟨l.block, hfound ▸ L.isNode.addr, L.isLeaf, L.key.trans hkey, ?_, ?_⟩
  · exact congrArg Leaf.value L.onPage
  · exact congrArg Leaf.type L.onPage

/-- A call that fits keeps the invariant. -/
theorem TreeOp.step_of_fits (op : TreeOp) (h : TreeInv disk r s) (hvalid : op.Valid disk s)
    (hfits : op.Fits disk (UInt64.ofNat r) s) :
    ∃ s', op.step disk (UInt64.ofNat r) s = some s' ∧ TreeInv disk r s' := by
  obtain ⟨leaves, T, M⟩ := h
  have hne : ∀ l ∈ leaves, UInt64.ofNat l.block ≠ 0 := fun l hl => (T.leaf l hl).number_ne_zero
  cases op with
  | insert key value type =>
      obtain ⟨⟨f, H⟩, hroom⟩ := hfits
      have hlt := T.root_lt
      have hwrap := addressable_le disk
      rw [toNat_ofNat_block (by omega), T.root.numKeys] at hroom
      obtain ⟨m', hrun, T', -⟩ := T.insert H hroom key value type
      exact ⟨_, by rw [step, hrun]; rfl, _, T', M.insert ⟨f, key, value, type⟩ hvalid.1⟩
  | delete key =>
      by_cases hfound : Leaf.found leaves key = 0
      · have hnone : s.live key = none := by
          by_contra hlive
          exact (M.found_ne_zero_iff hne).mpr hlive hfound
        have hupdate : Function.update s.live key none = s.live :=
          hnone ▸ Function.update_eq_self key s.live
        refine ⟨⟨s.image, Function.update s.live key none⟩, ?_, leaves, T, ?_⟩
        · rw [step, T.run_btreeDelete_absent hfound]
          rfl
        · show LeavesMatch leaves (Function.update s.live key none)
          rwa [hupdate]
      · have hzero : key = 0 ∨ ∀ x ∈ leaves, x.key ≠ 0 := by
          rcases hfits with h0 | hnone | hnone
          · exact Or.inl h0
          · exact absurd hnone ((M.found_ne_zero_iff hne).mp hfound)
          · exact Or.inr (M.live_eq_none_iff.mp hnone)
        obtain ⟨m', front, l, back, rfl, rfl, hrun, T'⟩ := T.delete hzero hfound
        exact ⟨_, by rw [step, hrun]; rfl, _, T', M.delete T.distinct⟩

/-- With key 0 in the tree, `btree_remove_key` stops at its leaf: the deletion of any other key
that is live takes key 0 out of the tree, and frees the page of the other key. -/
theorem TreeOp.not_matchesLive_of_delete (h : TreeInv disk r s) (hkey : key ≠ 0)
    (hlive : s.live key ≠ none) (hzero : s.live 0 ≠ none) :
    ∃ s', (TreeOp.delete key).step disk (UInt64.ofNat r) s = some s' ∧
      ¬MatchesLive disk (UInt64.ofNat r) s' := by
  obtain ⟨leaves, T, M⟩ := h
  have hne : ∀ l ∈ leaves, UInt64.ofNat l.block ≠ 0 := fun l hl => (T.leaf l hl).number_ne_zero
  obtain ⟨l, hl, -, hfound⟩ :=
    Leaf.exists_of_found_ne_zero ((M.found_ne_zero_iff hne).mpr hlive)
  obtain ⟨z, hz, hzkey, -⟩ :=
    Leaf.exists_of_found_ne_zero ((M.found_ne_zero_iff hne).mpr hzero)
  cases leaves with
  | nil => cases hz
  | cons head rest =>
      -- the keys ascend, so the leaf with key 0 is the first one
      have hhead : head.key = 0 := by
        rcases List.mem_cons.mp hz with rfl | hz
        · exact hzkey
        · have hle := (List.pairwise_cons.mp T.sorted).1 z hz
          rw [hzkey] at hle
          exact UInt64.le_antisymm hle (UInt64.zero_le)
      have hstop : keyOf (head :: rest) 0 = 0 := hhead
      obtain ⟨m', hrun, P', -⟩ := T.exists_delete (i := 0) hl hfound (Nat.succ_pos _)
        (fun j hj => absurd hj (Nat.not_lt_zero j)) (by
          rw [hstop]
          exact fun h => h.2 rfl)
      refine ⟨_, by rw [step, hrun]; rfl, fun hmatch => ?_⟩
      obtain ⟨rv, hsearch, hiff, -⟩ := hmatch 0
      have hgone : Leaf.found rest 0 = 0 := by
        refine (Leaf.found_eq_zero_iff fun x hx => hne x (List.mem_cons_of_mem _ hx)).mpr ?_
        intro x hx hxkey
        obtain rfl := M.key_inj x (List.mem_cons_of_mem _ hx) head (List.mem_cons_self ..)
          (hxkey.trans hhead.symm)
        exact (List.nodup_cons.mp T.distinct).1 (List.mem_map_of_mem hx)
      have hrv := hsearch.symm.trans (P'.run_btreeSearch 0)
      rw [List.eraseIdx_cons_zero, hgone] at hrv
      obtain ⟨rfl, -⟩ := Prod.mk.inj (Option.some.inj hrv)
      refine hiff.mpr ?_ rfl
      show Function.update s.live key none 0 ≠ none
      rwa [Function.update_of_ne hkey.symm]

/-! ## An empty tree -/

/-- `btree_node_create` makes an empty flat tree. -/
theorem FirstFree.exists_root {m₀ : Image} (A : BitmapArea disk m₀) (H : FirstFree disk m₀ r) :
    ∃ m, run disk.mapping (btreeNodeCreate disk false) m₀ = some (UInt64.ofNat r, m) ∧
      FlatTree disk m r [] ∧
      ∀ b < disk.totalBlocks.toNat, blockBit m b = if b = r then true else blockBit m₀ b := by
  have hbehind := A.lt_of_clear H.clear
  obtain ⟨m, hrun, hnode, hother, node, hpage⟩ := H.exists_create A false
  have hpos : 0 < disk.totalBlocks.toNat := by
    have := H.lt_total
    omega
  have hlow : ∀ c ≤ blockBitmapBlocks disk.totalBlocks.toNat, m c = takeBlock m₀ r c :=
    fun c hc => hother c (by omega)
  refine ⟨m, hrun, ?_, fun b hb => by rw [BitmapArea.bit_congr hlow hb, blockBit_takeBlock]⟩
  exact {
    root_pos := by omega
    root_lt := H.lt
    root_type := hnode.type
    root := {
      blockNumber := by rw [hpage]; rfl
      isLeaf := by rw [hpage]; rfl
      numKeys := by rw [hpage]; rfl
      le := Nat.zero_le _
      child := fun i _ => by rw [hpage, BTreeNode.childAt, BTreeNode.word_init]; rfl
      parent := by rw [hpage, BTreeNode.parent, BTreeNode.word_init]
      past := fun i _ _ => by rw [hpage, BTreeNode.keyAt, BTreeNode.word_init] }
    leaf := fun l hl => absurd hl List.not_mem_nil
    keys := fun i hi => absurd hi (Nat.not_lt_zero i)
    parent := fun l hl => absurd hl List.not_mem_nil
    area := (A.takeBlock r).congr hpos hlow
    root_used := ⟨hbehind, by
      rw [BitmapArea.bit_congr hlow H.lt_total, blockBit_takeBlock, if_pos rfl]⟩
    leaf_used := fun l hl => absurd hl List.not_mem_nil
    distinct := List.nodup_nil
    sorted := List.Pairwise.nil }

theorem leavesMatch_nil : LeavesMatch [] fun _ => none where
  live_iff key value type := by
    constructor
    · intro h
      cases h
    · rintro ⟨l, hl, -⟩
      cases hl
  key_inj l hl := absurd hl List.not_mem_nil

/-- A tree created on a freshly formatted volume: its root is the first block behind the root of the
file system. -/
theorem Fresh.exists_tree {uid gid : UInt32} {m₀ : Image} (F : Fresh disk uid gid m₀)
    (hroom : dataStart disk.totalBlocks.toNat + 1 < disk.addressable) :
    BitmapArea disk m₀ ∧ FirstFree disk m₀ (dataStart disk.totalBlocks.toNat + 1) ∧
      ∃ m, run disk.mapping (btreeNodeCreate disk false) m₀ =
          some (UInt64.ofNat (dataStart disk.totalBlocks.toNat + 1), m) ∧
        FlatTree disk m (dataStart disk.totalBlocks.toNat + 1) [] ∧
        ∀ b < disk.totalBlocks.toNat,
          Nbtrfs.blockBit m b = decide (b < dataStart disk.totalBlocks.toNat + 1 + 1) := by
  have A := F.bitmapArea
  have H := F.firstFree hroom
  obtain ⟨m, hrun, T, hbits'⟩ := H.exists_root A
  exact ⟨A, H, m, hrun, T, prefix_succ (fun _ hb => F.blockBit_lt hb) hbits'⟩

/-! ## Runs from an empty tree -/

/-- A tree that starts empty is a finite map in every state of a run whose calls all fit. -/
theorem treeRun_matchesLive {m₀ m : Image} {root : UInt64} (harea : BitmapArea disk m₀)
    (hfree : ∃ f, FirstFree disk m₀ f)
    (hroot : run disk.mapping (btreeNodeCreate disk false) m₀ = some (root, m))
    {ops : List TreeOp} (hvalid : Admits (TreeOp.step disk root) (TreeOp.Valid disk) ops
      ⟨m, fun _ => none⟩)
    (hfits : Admits (TreeOp.step disk root) (TreeOp.Fits disk root) ops ⟨m, fun _ => none⟩) :
    MatchesLive disk root ⟨m, fun _ => none⟩ ∧
      SafeRun (TreeOp.step disk root) (fun _ _ s' => MatchesLive disk root s') ops
        ⟨m, fun _ => none⟩ := by
  obtain ⟨r, H⟩ := hfree
  obtain ⟨m', hrun, T, -⟩ := H.exists_root harea
  obtain ⟨rfl, rfl⟩ := Prod.mk.inj (Option.some.inj (hroot.symm.trans hrun))
  have hinv : TreeInv disk r ⟨m, fun _ => none⟩ := ⟨[], T, leavesMatch_nil⟩
  refine ⟨hinv.matchesLive, ?_⟩
  refine SafeRun.of_invariant (TreeInv disk r) ?_ hinv (hvalid.and hfits)
  rintro op s hs ⟨hv, hf⟩
  obtain ⟨s', hstep, hs'⟩ := op.step_of_fits hs hv hf
  exact ⟨s', hstep, hs'.matchesLive, hs'⟩

/-- On a formatted volume of 256 blocks a new tree takes three keys, and loses the one in the middle. -/
theorem treeRun_matchesLive_256 : ∃ m root,
    SafeRun (TreeOp.step ⟨256, by decide⟩ root)
      (fun _ _ s' => MatchesLive ⟨256, by decide⟩ root s')
      [.insert 9 1 2, .insert 5 3 4, .insert 7 5 4, .delete 7, .delete 8] ⟨m, fun _ => none⟩ := by
  obtain ⟨m₀, -, F⟩ := run_diskFormat_blank ⟨256, by decide⟩ 0 0 0
    (show ([] : List UInt8).length ≤ 31 by decide) (blank_zero _) (by decide) (by decide)
  obtain ⟨A, H, m, hroot, T, hbits⟩ := F.exists_tree (by decide)
  have H₁ : FirstFree ⟨256, by decide⟩ m _ := FirstFree.of_prefix (by decide) hbits
  obtain ⟨m₁, hrun₁, T₁, hset₁⟩ := T.insert H₁ (by decide) 9 1 2
  have hbits₁ := prefix_succ hbits hset₁
  have H₂ : FirstFree ⟨256, by decide⟩ m₁ _ := FirstFree.of_prefix (by decide) hbits₁
  obtain ⟨m₂, hrun₂, T₂, hset₂⟩ := T₁.insert H₂ (by decide) 5 3 4
  have H₃ : FirstFree ⟨256, by decide⟩ m₂ _ :=
    FirstFree.of_prefix (by decide) (prefix_succ hbits₁ hset₂)
  obtain ⟨m₃, hrun₃, T₃, -⟩ := T₂.insert H₃ (by decide) 7 5 4
  obtain ⟨m₄, _, _, _, -, -, hrun₄, -⟩ := T₃.delete (Or.inr (by decide))
    (show Leaf.found _ 7 ≠ 0 by decide)
  have hroom : ∀ {n leaves}, FlatTree ⟨256, by decide⟩ n _ leaves → leaves.length < maxKeys →
      (BTreeNode.ofPage (n (UInt64.ofNat (dataStart 256 + 1)).toNat)).numKeys.toNat < maxKeys :=
    fun T hlen => by rwa [toNat_ofNat_block (by decide), T.root.numKeys]
  refine ⟨m, _, And.right (treeRun_matchesLive A ⟨_, H⟩ hroot ?_ ?_)⟩
  · refine Admits.cons (by rw [TreeOp.step, hrun₁]; rfl) ⟨rfl, _, H₁.lt_total, H₁.clear⟩ ?_
    refine Admits.cons (by rw [TreeOp.step, hrun₂]; rfl) ⟨rfl, _, H₂.lt_total, H₂.clear⟩ ?_
    refine Admits.cons (by rw [TreeOp.step, hrun₃]; rfl) ⟨rfl, _, H₃.lt_total, H₃.clear⟩ ?_
    exact ⟨trivial, fun _ _ => ⟨trivial, fun _ _ => trivial⟩⟩
  · refine Admits.cons (by rw [TreeOp.step, hrun₁]; rfl) ⟨⟨_, H₁⟩, hroom T (by decide)⟩ ?_
    refine Admits.cons (by rw [TreeOp.step, hrun₂]; rfl) ⟨⟨_, H₂⟩, hroom T₁ (by decide)⟩ ?_
    refine Admits.cons (by rw [TreeOp.step, hrun₃]; rfl) ⟨⟨_, H₃⟩, hroom T₂ (by decide)⟩ ?_
    refine Admits.cons (by rw [TreeOp.step, hrun₄]; rfl) (Or.inr (Or.inr rfl)) ?_
    exact ⟨Or.inr (Or.inr rfl), fun _ _ => trivial⟩

/-- On the same volume keys 0 and 5 are inserted and 5 is deleted; then key 0 is not found. -/
theorem not_treeRun_matchesLive_256 : ∃ m₀ m root,
    BitmapArea ⟨256, by decide⟩ m₀ ∧
    run (DiskInterface.mapping ⟨256, by decide⟩) (btreeNodeCreate ⟨256, by decide⟩ false) m₀ =
      some (root, m) ∧
    Admits (TreeOp.step ⟨256, by decide⟩ root) (TreeOp.Valid ⟨256, by decide⟩)
      [.insert 0 1 2, .insert 5 3 4, .delete 5] ⟨m, fun _ => none⟩ ∧
    ¬SafeRun (TreeOp.step ⟨256, by decide⟩ root)
      (fun _ _ s' => MatchesLive ⟨256, by decide⟩ root s')
      [.insert 0 1 2, .insert 5 3 4, .delete 5] ⟨m, fun _ => none⟩ := by
  obtain ⟨m₀, -, F⟩ := run_diskFormat_blank ⟨256, by decide⟩ 0 0 0
    (show ([] : List UInt8).length ≤ 31 by decide) (blank_zero _) (by decide) (by decide)
  obtain ⟨A, -, m, hroot, T, hbits⟩ := F.exists_tree (by decide)
  have H₁ : FirstFree ⟨256, by decide⟩ m _ := FirstFree.of_prefix (by decide) hbits
  obtain ⟨m₁, hrun₁, T₁, hbits₁⟩ := T.insert H₁ (by decide) 0 1 2
  have H₂ : FirstFree ⟨256, by decide⟩ m₁ _ :=
    FirstFree.of_prefix (by decide) (prefix_succ hbits hbits₁)
  obtain ⟨m₂, hrun₂, T₂, -⟩ := T₁.insert H₂ (by decide) 5 3 4
  have habsent : Function.update (fun _ => none) (0 : UInt64) (some ((1 : UInt64), (2 : UInt32))) 5 =
      none := rfl
  obtain ⟨s₃, hstep₃, hnot⟩ := TreeOp.not_matchesLive_of_delete (s := ⟨m₂, _⟩)
    ⟨_, T₂, (leavesMatch_nil.insert ⟨_, 0, 1, 2⟩ rfl).insert ⟨_, 5, 3, 4⟩ habsent⟩
    (show (5 : UInt64) ≠ 0 by decide) (Option.some_ne_none _) (Option.some_ne_none _)
  refine ⟨m₀, m, _, A, hroot, ?_, ?_⟩
  · refine Admits.cons (by rw [TreeOp.step, hrun₁]; rfl) ⟨rfl, _, H₁.lt_total, H₁.clear⟩ ?_
    refine Admits.cons (by rw [TreeOp.step, hrun₂]; rfl) ⟨habsent, _, H₂.lt_total, H₂.clear⟩ ?_
    exact ⟨trivial, fun _ _ => trivial⟩
  · rintro ⟨s₁, hs₁, -, s₂, hs₂, -, s₃', hs₃, hmatch, -⟩
    rw [TreeOp.step, hrun₁] at hs₁
    obtain rfl := Option.some.inj hs₁
    rw [TreeOp.step, hrun₂] at hs₂
    obtain rfl := Option.some.inj hs₂
    obtain rfl := Option.some.inj (hstep₃.symm.trans hs₃)
    exact hnot hmatch

end Nbtrfs
