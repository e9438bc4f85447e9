import Nbtrfs.Config

/-!
# Per-inode dirty lists

Reference: `dl.c`, `dl.h`.

A hash map takes an inode number to a chain of the dirty data blocks written under it. The chain is
modelled with its links, because `dl_push` leaves the `next` field of the first node of a chain as
`malloc` returned it, and because `dl_pop` decides by `dl_index` whether a node is the last one.
-/

namespace Nbtrfs

/-- The bucket of a key in a hash map of `HASHMAP_SIZE` chains. -/
def hashBucket (key : UInt64) : ℕ := key.toNat % hashmapSize

/-- A `DL_LL` pointer: NULL, a pointer that was never assigned, or a node. -/
inductive DlChain where
  | null
  | unset
  | node (dlIndex blockNumber : UInt64) (next : DlChain)
deriving DecidableEq, Repr

/-- What the memory that `malloc` returns holds where `dl_push` does not write a `next` field. -/
inductive Leftover where
  | null
  | garbage
deriving DecidableEq, Repr

def Leftover.link : Leftover → DlChain
  | null => .null
  | garbage => .unset

/-- `DL_HM_LL`, less its link -/
structure DlHmLl where
  inodeNumber : UInt64
  list : DlChain
deriving DecidableEq, Repr

/-- `DL_HM` -/
abbrev DlHm := ℕ → List DlHmLl

/-! ## Operations -/

/-- `dl_push` -/
def dlPush (list : DlChain) (blockNumber : UInt64) (leftover : Leftover) : Option DlChain :=
  match list with
  | .null => some (.node 1 blockNumber leftover.link)
  | .unset => none
  | .node dlIndex _ _ => some (.node (dlIndex + 1) blockNumber list)

/-- `dl_pop` -/
def dlPop : DlChain → Option DlChain
  | .null => some .null
  | .unset => none
  | .node dlIndex _ next => some (if 1 < dlIndex then next else .null)

/-- `dl_lookup` -/
def dlLookup (hashmap : DlHm) (inodeNumber : UInt64) : Option DlHmLl :=
  (hashmap (hashBucket inodeNumber)).find? (·.inodeNumber == inodeNumber)

/-- `dl_find_block`, reduced to whether the block is there. -/
def dlFindBlock (blockNumber : UInt64) : DlChain → Option Bool
  | .null => some false
  | .unset => none
  | .node _ block next => if block = blockNumber then some true else dlFindBlock blockNumber next

/-- Assign the `list` field of the first entry of an inode. -/
def dlSetList (inodeNumber : UInt64) (list : DlChain) : List DlHmLl → List DlHmLl
  | [] => []
  | e :: es =>
      if e.inodeNumber = inodeNumber then { e with list := list } :: es
      else e :: dlSetList inodeNumber list es

/-- `dl_insert` -/
def dlInsert (hashmap : DlHm) (inodeNumber blockNumber : UInt64) (leftover : Leftover) :
    Option DlHm :=
  let k := hashBucket inodeNumber
  match dlLookup hashmap inodeNumber with
  | none => do
      let list ← dlPush .null blockNumber leftover
      some (Function.update hashmap k (⟨inodeNumber, list⟩ :: hashmap k))
  | some node => do
      match ← dlFindBlock blockNumber node.list with
      | true => some hashmap
      | false => do
          let list ← dlPush node.list blockNumber leftover
          some (Function.update hashmap k (dlSetList inodeNumber list (hashmap k)))

/-- `dl_delete` -/
def dlDelete (hashmap : DlHm) (inodeNumber : UInt64) : DlHm :=
  let k := hashBucket inodeNumber
  Function.update hashmap k ((hashmap k).eraseP (·.inodeNumber == inodeNumber))

/-- Take the first node of a block out of a chain; `some none` when the block is not there. -/
def dlUnlink (blockNumber : UInt64) : DlChain → Option (Option DlChain)
  | .null => some none
  | .unset => none
  | .node dlIndex block next =>
      if block = blockNumber then some (some next)
      else (dlUnlink blockNumber next).map (Option.map (DlChain.node dlIndex block))

/-- `dl_remove_block`. The `dl_index` of the nodes in front of the removed one stays. -/
def dlRemoveBlock (hashmap : DlHm) (inodeNumber blockNumber : UInt64) : Option DlHm :=
  let k := hashBucket inodeNumber
  match dlLookup hashmap inodeNumber with
  | none => some hashmap
  | some list => do
      match ← dlUnlink blockNumber list.list with
      | none => some hashmap
      | some next =>
          let hashmap' := Function.update hashmap k (dlSetList inodeNumber next (hashmap k))
          some (if next = .null then dlDelete hashmap' inodeNumber else hashmap')

/-! ## Chains -/

namespace DlChain

/-- The blocks of a chain, in link order. -/
def blocks : DlChain → List UInt64
  | null => []
  | unset => []
  | node _ b next => b :: next.blocks

/-- The blocks a walk with `dl_pop` passes. -/
def popped : DlChain → List UInt64
  | null => []
  | unset => []
  | node i b next => b :: if 1 < i then next.popped else []

/-- Every link of the chain was assigned. -/
def Proper : DlChain → Prop
  | null => True
  | unset => False
  | node _ _ next => next.Proper

/-- The `dl_index` of the first node. -/
def topIndex : DlChain → ℕ
  | null => 0
  | unset => 0
  | node i _ _ => i.toNat

/-- The indices of the nodes decrease along the chain and are positive. -/
def Indexed : DlChain → Prop
  | null => True
  | unset => True
  | node i _ next => next.topIndex < i.toNat ∧ next.Indexed

/-- On a chain that ends, `dl_find_block` tells whether the block is listed. -/
theorem dlFindBlock_eq {b : UInt64} {c : DlChain} (hc : c.Proper) :
    dlFindBlock b c = some (decide (b ∈ c.blocks)) := by
  induction c with
  | null => simp [dlFindBlock, blocks]
  | unset => exact hc.elim
  | node i b' next ih =>
      rw [dlFindBlock]
      split
      · next heq => simp [blocks, heq]
      · next hne =>
          rw [ih hc]
          simp [blocks, Ne.symm hne]

/-- `dl_pop` yields only blocks that are listed. -/
theorem popped_subset {c : DlChain} {b : UInt64} (hb : b ∈ c.popped) : b ∈ c.blocks := by
  induction c with
  | null => cases hb
  | unset => cases hb
  | node i b' next ih =>
      rw [popped, List.mem_cons] at hb
      rw [blocks, List.mem_cons]
      rcases hb with rfl | hb
      · exact Or.inl rfl
      · split at hb
        · exact Or.inr (ih hb)
        · cases hb

/-- When the indices decrease, the walk with `dl_pop` passes the whole chain. -/
theorem popped_eq {c : DlChain} (hc : c.Indexed) : c.popped = c.blocks := by
  induction c with
  | null => rfl
  | unset => rfl
  | node i b next ih =>
      obtain ⟨htop, hnext⟩ := hc
      rw [popped, blocks, ih hnext]
      split
      · rfl
      · next hle =>
          have hi : i.toNat ≤ 1 := by
            rw [UInt64.lt_iff_toNat_lt] at hle
            simpa using hle
          cases next with
          | null => rfl
          | unset => rfl
          | node j b' next' =>
              obtain ⟨hj, -⟩ := hnext
              simp only [topIndex] at htop
              omega

/-- Taking a block out of a chain without repetitions. -/
theorem dlUnlink_of_mem {b : UInt64} {c : DlChain} (hc : c.Proper) (hnodup : c.blocks.Nodup)
    (hb : b ∈ c.blocks) :
    ∃ c', dlUnlink b c = some (some c') ∧ c'.Proper ∧ c'.blocks = c.blocks.erase b ∧
      (c.Indexed → c'.Indexed ∧ c'.topIndex ≤ c.topIndex) := by
  induction c with
  | null => cases hb
  | unset => exact hc.elim
  | node i b' next ih =>
      rw [dlUnlink]
      by_cases heq : b' = b
      · subst heq
        refine ⟨next, if_pos rfl, hc, by simp [blocks], fun hi => ⟨hi.2, hi.1.le⟩⟩
      · have hb' : b ∈ next.blocks := by
          rcases List.mem_cons.mp hb with rfl | h
          · exact absurd rfl heq
          · exact h
        obtain ⟨c', hc', hproper, hblocks, hidx⟩ := ih hc (List.nodup_cons.mp hnodup).2 hb'
        refine ⟨node i b' c', by rw [if_neg heq, hc']; rfl, hproper, ?_, fun hi => ?_⟩
        · rw [blocks, blocks, hblocks, List.erase_cons_tail (by simpa using heq)]
        · obtain ⟨hi', htop⟩ := hidx hi.2
          exact ⟨⟨htop.trans_lt hi.1, hi'⟩, le_refl _⟩

theorem dlUnlink_of_notMem {b : UInt64} {c : DlChain} (hc : c.Proper) (hb : b ∉ c.blocks) :
    dlUnlink b c = some none := by
  induction c with
  | null => rfl
  | unset => exact hc.elim
  | node i b' next ih =>
      rw [blocks, List.mem_cons, not_or] at hb
      rw [dlUnlink, if_neg (Ne.symm hb.1), ih hc hb.2]
      rfl

end DlChain

/-! ## The hash map as one list of blocks for each inode -/

/-- The blocks on the dirty list of an inode. -/
def dlBlocks (hashmap : DlHm) (inodeNumber : UInt64) : List UInt64 :=
  match dlLookup hashmap inodeNumber with
  | none => []
  | some e => e.list.blocks

/-- The chain of an inode (NULL when it has no entry). -/
def dlChain (hashmap : DlHm) (inodeNumber : UInt64) : DlChain :=
  match dlLookup hashmap inodeNumber with
  | none => .null
  | some e => e.list

theorem dlBlocks_eq (hashmap : DlHm) (i : UInt64) :
    dlBlocks hashmap i = (dlChain hashmap i).blocks := by
  rw [dlBlocks, dlChain]
  cases dlLookup hashmap i <;> rfl

/-- A bucket holds one entry for an inode, and no chain repeats a block or ends in an unset link. -/
structure DlProper (hashmap : DlHm) : Prop where
  keys : ∀ k, ((hashmap k).map DlHmLl.inodeNumber).Nodup
  proper : ∀ i, (dlChain hashmap i).Proper
  nodup : ∀ i, (dlBlocks hashmap i).Nodup

section Buckets

variable {es : List DlHmLl} {i j : UInt64} {list : DlChain}

theorem map_inodeNumber_dlSetList :
    (dlSetList i list es).map DlHmLl.inodeNumber = es.map DlHmLl.inodeNumber := by
  induction es with
  | nil => rfl
  | cons e es ih =>
      rw [dlSetList]
      split
      · rfl
      · rw [List.map_cons, ih, List.map_cons]

/-- Replacing the list of an inode shows at the first entry of this inode. -/
theorem find?_dlSetList_same :
    (dlSetList i list es).find? (·.inodeNumber == i) =
      (es.find? (·.inodeNumber == i)).map fun e => { e with list := list } := by
  induction es with
  | nil => rfl
  | cons e es ih =>
      rw [dlSetList]
      split
      · next h => simp [h]
      · next h =>
          have hne : (e.inodeNumber == i) = false := by simpa using h
          rw [List.find?_cons, hne, ih, List.find?_cons, hne]

/-- It shows at no other inode. -/
theorem find?_dlSetList_ne (hij : j ≠ i) :
    (dlSetList i list es).find? (·.inodeNumber == j) = es.find? (·.inodeNumber == j) := by
  induction es with
  | nil => rfl
  | cons e es ih =>
      rw [dlSetList]
      split
      · next h =>
          have hne : (e.inodeNumber == j) = false := by simpa [h] using hij.symm
          rw [List.find?_cons, hne, List.find?_cons, hne]
      · rw [List.find?_cons, ih, List.find?_cons]

section Erase

variable {α : Type} {key : α → UInt64} {l : List α}

/-- Without its only entry a key is not found. -/
theorem find?_eraseP_same (hnodup : (l.map key).Nodup) :
    (l.eraseP (key · == i)).find? (key · == i) = none := by
  induction l with
  | nil => rfl
  | cons e l ih =>
      obtain ⟨hnot, hnodup⟩ := List.nodup_cons.mp hnodup
      by_cases h : key e = i
      · rw [List.eraseP_cons_of_pos (by simpa using h)]
        rw [List.find?_eq_none]
        intro e' he'
        have hne : key e' ≠ i := by
          intro h'
          exact hnot (h.trans h'.symm ▸ List.mem_map_of_mem he')
        simpa using hne
      · have hne : (key e == i) = false := by simpa using h
        rw [List.eraseP_cons_of_neg (by simpa using h), List.find?_cons, hne, ih hnodup]

theorem find?_eraseP_ne (hij : j ≠ i) :
    (l.eraseP (key · == i)).find? (key · == j) = l.find? (key · == j) := by
  induction l with
  | nil => rfl
  | cons e l ih =>
      by_cases h : key e = i
      · have hne : (key e == j) = false := by simpa [h] using hij.symm
        rw [List.eraseP_cons_of_pos (by simpa using h), List.find?_cons, hne]
      · rw [List.eraseP_cons_of_neg (by simpa using h), List.find?_cons, ih, List.find?_cons]

end Erase

end Buckets

/-! ## What an operation does to the chains -/

section Chains

variable {hashmap : DlHm} {i j b : UInt64}

/-- A bucket that answers for the other inodes as before leaves their chains as they were. -/
theorem dlLookup_update_ne {es : List DlHmLl}
    (h : es.find? (·.inodeNumber == j) =
      (hashmap (hashBucket i)).find? (·.inodeNumber == j)) :
    dlLookup (Function.update hashmap (hashBucket i) es) j = dlLookup hashmap j := by
  rw [dlLookup, dlLookup]
  by_cases hk : hashBucket j = hashBucket i
  · rw [hk, Function.update_self, h]
  · rw [Function.update_of_ne hk]

theorem dlLookup_update_same {es : List DlHmLl} :
    dlLookup (Function.update hashmap (hashBucket i) es) i = es.find? (·.inodeNumber == i) := by
  rw [dlLookup, Function.update_self]

/-- The chain `list` takes the place of the chain of inode `i`. -/
structure DlReplaced (hashmap : DlHm) (i : UInt64) (list : DlChain) (hashmap' : DlHm) : Prop where
  same : dlChain hashmap' i = list
  other : ∀ j ≠ i, dlChain hashmap' j = dlChain hashmap j
  keys : ∀ k, ((hashmap' k).map DlHmLl.inodeNumber).Nodup

/-- Replacing a chain by a proper one keeps the hash map proper. -/
theorem DlReplaced.dlProper {list : DlChain} {hashmap' : DlHm}
    (hrep : DlReplaced hashmap i list hashmap') (h : DlProper hashmap) (hproper : list.Proper)
    (hnodup : list.blocks.Nodup) : DlProper hashmap' := by
  refine ⟨hrep.keys, fun j => ?_, fun j => ?_⟩
  · rcases eq_or_ne j i with rfl | hj
    · rwa [hrep.same]
    · rw [hrep.other j hj]
      exact h.proper j
  · rw [dlBlocks_eq]
    rcases eq_or_ne j i with rfl | hj
    · rwa [hrep.same]
    · rw [hrep.other j hj, ← dlBlocks_eq]
      exact h.nodup j

theorem DlReplaced.dlBlocks_other {list : DlChain} {hashmap' : DlHm}
    (hrep : DlReplaced hashmap i list hashmap') (hj : j ≠ i) :
    dlBlocks hashmap' j = dlBlocks hashmap j := by
  rw [dlBlocks_eq, dlBlocks_eq, hrep.other j hj]

theorem DlReplaced.dlBlocks_same {list : DlChain} {hashmap' : DlHm}
    (hrep : DlReplaced hashmap i list hashmap') : dlBlocks hashmap' i = list.blocks := by
  rw [dlBlocks_eq, hrep.same]

/-- Assigning the list of the entry of an inode. -/
theorem DlProper.setList (h : DlProper hashmap) {e : DlHmLl} (he : dlLookup hashmap i = some e)
    (list : DlChain) :
    DlReplaced hashmap i list (Function.update hashmap (hashBucket i)
      (dlSetList i list (hashmap (hashBucket i)))) := by
  refine ⟨?_, fun j hj => ?_, fun k => ?_⟩
  · rw [dlChain, dlLookup_update_same, find?_dlSetList_same]
    rw [dlLookup] at he
    rw [he]
    rfl
  · rw [dlChain, dlChain, dlLookup_update_ne (find?_dlSetList_ne hj)]
  · rcases eq_or_ne k (hashBucket i) with rfl | hk
    · rw [Function.update_self, map_inodeNumber_dlSetList]
      exact h.keys _
    · rw [Function.update_of_ne hk]
      exact h.keys k

/-- `dl_delete` empties the chain of the inode. -/
theorem DlProper.delete (h : DlProper hashmap) (i : UInt64) :
    DlReplaced hashmap i .null (dlDelete hashmap i) := by
  refine ⟨?_, fun j hj => ?_, fun k => ?_⟩
  · rw [dlChain, dlDelete, dlLookup_update_same, find?_eraseP_same (h.keys _)]
  · rw [dlChain, dlChain, dlDelete, dlLookup_update_ne (find?_eraseP_ne hj)]
  · rw [dlDelete]
    rcases eq_or_ne k (hashBucket i) with rfl | hk
    · rw [Function.update_self]
      exact (h.keys _).sublist (List.eraseP_sublist.map _)
    · rw [Function.update_of_ne hk]
      exact h.keys k

/-- `dl_insert` of a block that is not on the list pushes it. -/
theorem DlProper.insert_replaced (h : DlProper hashmap) (leftover : Leftover)
    (hb : b ∉ dlBlocks hashmap i) :
    ∃ list hashmap', dlPush (dlChain hashmap i) b leftover = some list ∧
      dlInsert hashmap i b leftover = some hashmap' ∧ DlReplaced hashmap i list hashmap' := by
  have hchain : (dlChain hashmap i).Proper := h.proper i
  obtain ⟨list, hpush⟩ : ∃ list, dlPush (dlChain hashmap i) b leftover = some list := by
    cases hc : dlChain hashmap i with
    | null => exact ⟨_, rfl⟩
    | unset =>
        rw [hc] at hchain
        exact hchain.elim
    | node d b' next => exact ⟨_, rfl⟩
  refine ⟨list, ?_⟩
  cases he : dlLookup hashmap i with
  | none =>
      have hnull : dlChain hashmap i = .null := by rw [dlChain, he]
      refine ⟨Function.update hashmap (hashBucket i) (⟨i, list⟩ :: hashmap (hashBucket i)), hpush,
        ?_, ⟨?_, fun j hj => ?_, fun k => ?_⟩⟩
      · rw [dlInsert, he]
        rw [hnull] at hpush
        simp only [hpush, Option.bind_eq_bind, Option.bind_some]
      · rw [dlChain, dlLookup_update_same]
        simp
      · rw [dlChain, dlChain, dlLookup_update_ne]
        rw [List.find?_cons, show (i == j) = false by simpa using hj.symm]
      · rcases eq_or_ne k (hashBucket i) with rfl | hk
        · rw [Function.update_self, List.map_cons, List.nodup_cons]
          refine ⟨fun hmem => ?_, h.keys _⟩
          obtain ⟨e, hemem, hei⟩ := List.mem_map.mp hmem
          rw [dlLookup, List.find?_eq_none] at he
          exact he e hemem (by simpa using hei)
        · rw [Function.update_of_ne hk]
          exact h.keys k
  | some e =>
      have hlist : dlChain hashmap i = e.list := by rw [dlChain, he]
      refine ⟨_, hpush, ?_, h.setList he list⟩
      have hfind : dlFindBlock b e.list = some false := by
        rw [← hlist, DlChain.dlFindBlock_eq hchain, ← dlBlocks_eq]
        simpa using hb
      rw [dlInsert, he]
      rw [hlist] at hpush
      simp only [hfind, hpush, Option.bind_eq_bind, Option.bind_some]

/-- The new chain ends in NULL when the memory of its first node does. -/
theorem DlProper.insert_of_notMem (h : DlProper hashmap) {leftover : Leftover}
    (hleft : dlChain hashmap i = .null → leftover = .null) (hb : b ∉ dlBlocks hashmap i) :
    ∃ list hashmap', dlPush (dlChain hashmap i) b leftover = some list ∧
      dlInsert hashmap i b leftover = some hashmap' ∧ DlReplaced hashmap i list hashmap' ∧
      list.Proper ∧ list.blocks = b :: dlBlocks hashmap i := by
  have hchain : (dlChain hashmap i).Proper := h.proper i
  obtain ⟨list, hashmap', hpush, hinsert, hrep⟩ := h.insert_replaced leftover hb
  refine ⟨list, hashmap', hpush, hinsert, hrep, ?_⟩
  rw [dlBlocks_eq]
  cases hc : dlChain hashmap i with
  | null =>
      rw [hc, hleft hc] at hpush
      obtain rfl := Option.some.inj hpush
      exact ⟨trivial, rfl⟩
  | unset =>
      rw [hc] at hchain
      exact hchain.elim
  | node d b' next =>
      rw [hc] at hpush hchain
      obtain rfl := Option.some.inj hpush
      exact ⟨hchain, rfl⟩

/-- `dl_insert` of a block that is on the list changes nothing. -/
theorem DlProper.insert_of_mem (h : DlProper hashmap) (leftover : Leftover)
    (hb : b ∈ dlBlocks hashmap i) : dlInsert hashmap i b leftover = some hashmap := by
  cases he : dlLookup hashmap i with
  | none =>
      rw [dlBlocks, he] at hb
      cases hb
  | some e =>
      have hlist : dlChain hashmap i = e.list := by rw [dlChain, he]
      have hfind : dlFindBlock b e.list = some true := by
        rw [← hlist, DlChain.dlFindBlock_eq (h.proper i), ← dlBlocks_eq]
        simpa using hb
      rw [dlInsert, he]
      simp only [hfind, Option.bind_eq_bind, Option.bind_some]

/-- `dl_remove_block` takes the block off the list of the inode. -/
theorem DlProper.removeBlock (h : DlProper hashmap) (i b : UInt64) :
    ∃ hashmap', dlRemoveBlock hashmap i b = some hashmap' ∧ DlProper hashmap' ∧
      (∀ j ≠ i, dlChain hashmap' j = dlChain hashmap j) ∧
      dlBlocks hashmap' i = (dlBlocks hashmap i).erase b ∧
      ((dlChain hashmap i).Indexed → (dlChain hashmap' i).Indexed) := by
  cases he : dlLookup hashmap i with
  | none =>
      refine ⟨hashmap, by rw [dlRemoveBlock, he], h, fun _ _ => rfl, ?_, fun hi => hi⟩
      rw [dlBlocks, he]
      rfl
  | some e =>
      have hlist : dlChain hashmap i = e.list := by rw [dlChain, he]
      have hproper := h.proper i
      have hnodup := h.nodup i
      rw [dlBlocks_eq] at hnodup
      by_cases hb : b ∈ dlBlocks hashmap i
      · rw [dlBlocks_eq] at hb
        obtain ⟨next, hnext, hproper', hblocks, hidx⟩ :=
          DlChain.dlUnlink_of_mem hproper hnodup hb
        have hset := h.setList he next
        have hproper₁ := hset.dlProper h hproper' (hblocks ▸ hnodup.erase b)
        rw [hlist] at hnext
        have hrun : dlRemoveBlock hashmap i b = some (if next = .null then
            dlDelete (Function.update hashmap (hashBucket i)
              (dlSetList i next (hashmap (hashBucket i)))) i
            else Function.update hashmap (hashBucket i)
              (dlSetList i next (hashmap (hashBucket i)))) := by
          rw [dlRemoveBlock, he]
          simp only [hnext, Option.bind_eq_bind, Option.bind_some]
        rw [hrun]
        by_cases hnull : next = .null
        · have hdel := hproper₁.delete i
          refine ⟨_, by rw [if_pos hnull], hdel.dlProper hproper₁ trivial List.nodup_nil,
            fun j hj => (hdel.other j hj).trans (hset.other j hj), ?_, fun _ => ?_⟩
          · rw [hdel.dlBlocks_same, dlBlocks_eq, ← hblocks, hnull]
          · rw [hdel.same]
            trivial
        · refine ⟨_, by rw [if_neg hnull], hproper₁, hset.other, ?_, fun hi => ?_⟩
          · rw [hset.dlBlocks_same, hblocks, dlBlocks_eq]
          · rw [hset.same]
            exact (hidx hi).1
      · refine ⟨hashmap, ?_, h, fun _ _ => rfl, (List.erase_of_not_mem hb).symm, fun hi => hi⟩
        rw [dlBlocks_eq] at hb
        have hnone := DlChain.dlUnlink_of_notMem hproper hb
        rw [hlist] at hnone
        rw [dlRemoveBlock, he]
        simp only [hnone, Option.bind_eq_bind, Option.bind_some]

end Chains

end Nbtrfs
