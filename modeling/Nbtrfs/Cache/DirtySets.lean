import Nbtrfs.Cache.DirtyList
import Nbtrfs.Lib.Runs

/-!
# Dirty lists as finite sets

Reference: `dl.c`.

Over any sequence of insertions and removals the list of an inode is a finite set of blocks, as long as
`malloc` returns NULL where `dl_push` does not write and no `dl_index` wraps. The walks along `next` and the
walk with `dl_pop`, which asks `dl_index` whether a node is the last one, then pass the same blocks: a
removal leaves gaps in the numbering, but the indices still decrease.
-/

namespace Nbtrfs

/-- The blocks at the head of a chain while it is emptied with `dl_pop`, as in `cache_fsync`. -/
def dlDrain : ℕ → DlChain → Option (List UInt64)
  | _, .null => some []
  | _, .unset => none
  | 0, .node _ _ _ => none
  | n + 1, .node dlIndex blockNumber next => do
      let list ← dlPop (.node dlIndex blockNumber next)
      let blocks ← dlDrain n list
      some (blockNumber :: blocks)

/-- A call on the dirty lists; `leftover` is what the memory holds that a new node of a chain gets. -/
inductive DlOp where
  | insert (inodeNumber blockNumber : UInt64) (leftover : Leftover)
  | removeBlock (inodeNumber blockNumber : UInt64)
  | delete (inodeNumber : UInt64)

/-- The blocks of each inode that were inserted and not removed since. -/
abbrev DlSpec := UInt64 → Finset UInt64

namespace DlOp

/-- The call, and what it means for the sets. -/
def step : DlOp → DlHm × DlSpec → Option (DlHm × DlSpec)
  | insert i b leftover, (hashmap, spec) =>
      (dlInsert hashmap i b leftover).map fun hashmap' =>
        (hashmap', Function.update spec i (Insert.insert b (spec i)))
  | removeBlock i b, (hashmap, spec) =>
      (dlRemoveBlock hashmap i b).map fun hashmap' =>
        (hashmap', Function.update spec i ((spec i).erase b))
  | delete i, (hashmap, spec) => some (dlDelete hashmap i, Function.update spec i ∅)

/-- A block that is not on the list yet gets memory with NULL behind it when it starts the chain, and finds
room for its index otherwise. -/
def FindsRoom : DlOp → DlHm × DlSpec → Prop
  | insert i b leftover, (hashmap, _) => b ∈ dlBlocks hashmap i ∨
      ((dlChain hashmap i = .null → leftover = .null) ∧
        (dlChain hashmap i).topIndex + 1 < 2 ^ 64)
  | _, _ => True

end DlOp

/-- The chains end in NULL and hold the sets, each block once; an inode has one entry when its set is not
empty and none otherwise; and `dl_pop` passes the blocks of the chain. -/
structure AreFiniteSets (s : DlHm × DlSpec) : Prop where
  terminated : ∀ i, (dlChain s.1 i).Proper
  mem : ∀ i b, b ∈ dlBlocks s.1 i ↔ b ∈ s.2 i
  once : ∀ i, (dlBlocks s.1 i).Nodup
  keys : ∀ k, ((s.1 k).map DlHmLl.inodeNumber).Nodup
  entry : ∀ i, (dlLookup s.1 i).isSome ↔ dlChain s.1 i ≠ .null
  drained : ∀ i, dlDrain (dlBlocks s.1 i).length (dlChain s.1 i) = some (dlBlocks s.1 i)

/-! ## Draining -/

variable {hashmap hashmap' : DlHm} {spec : DlSpec} {i j b : UInt64} {leftover : Leftover}

/-- Popping until the list is empty yields its blocks, however long the chain. -/
theorem dlDrain_eq {c : DlChain} (hc : c.Proper) {n : ℕ} (hn : c.blocks.length ≤ n) :
    dlDrain n c = some c.popped := by
  induction c generalizing n with
  | null => rw [dlDrain, DlChain.popped]
  | unset => exact hc.elim
  | node d b next ih =>
      rw [DlChain.blocks, List.length_cons] at hn
      obtain ⟨n, rfl⟩ : ∃ n', n = n' + 1 := ⟨n - 1, by omega⟩
      rw [dlDrain, dlPop, DlChain.popped]
      by_cases hd : 1 < d
      · simp only [if_pos hd, Option.bind_eq_bind, Option.bind_some]
        rw [ih hc (by omega)]
        rfl
      · simp only [if_neg hd, Option.bind_eq_bind, Option.bind_some]
        rw [dlDrain]
        rfl

/-- Pushing keeps the indices in order unless the new one wraps. -/
theorem DlChain.Indexed.push {c list : DlChain} (hc : c.Indexed) (htop : c.topIndex + 1 < 2 ^ 64)
    (hpush : dlPush c b leftover = some list) : list.Indexed := by
  cases c with
  | null =>
      obtain rfl := Option.some.inj hpush
      cases leftover with
      | null => exact ⟨Nat.one_pos, trivial⟩
      | garbage => exact ⟨Nat.one_pos, trivial⟩
  | unset => cases hpush
  | node d b' next =>
      obtain rfl := Option.some.inj hpush
      refine ⟨?_, hc⟩
      rw [DlChain.topIndex] at htop ⊢
      rw [UInt64.toNat_add]
      show d.toNat < (d.toNat + 1) % 2 ^ 64
      rw [Nat.mod_eq_of_lt htop]
      omega

/-! ## Entries -/

/-- An entry always has a chain. -/
def NoEmpty (hashmap : DlHm) : Prop :=
  ∀ i e, dlLookup hashmap i = some e → e.list ≠ .null

theorem NoEmpty.isSome_iff (h : NoEmpty hashmap) (i : UInt64) :
    (dlLookup hashmap i).isSome ↔ dlChain hashmap i ≠ .null := by
  rw [dlChain]
  cases he : dlLookup hashmap i with
  | none => simp
  | some e => simpa using h i e he

/-- A list to which a block was pushed is not empty. -/
theorem dlPush_ne_null {c list : DlChain} (hpush : dlPush c b leftover = some list) :
    list ≠ .null := by
  cases c with
  | null =>
      obtain rfl := Option.some.inj hpush
      exact DlChain.noConfusion
  | unset => cases hpush
  | node d b' next =>
      obtain rfl := Option.some.inj hpush
      exact DlChain.noConfusion

/-- When the entry of one inode changes and has a chain, or goes, no entry is without one. -/
theorem NoEmpty.congr (h : NoEmpty hashmap)
    (hother : ∀ j ≠ i, dlLookup hashmap' j = dlLookup hashmap j)
    (hself : ∀ e, dlLookup hashmap' i = some e → e.list ≠ .null) : NoEmpty hashmap' := by
  intro j e he
  rcases eq_or_ne j i with rfl | hj
  · exact hself e he
  · rw [hother j hj] at he
    exact h j e he

theorem dlLookup_delete_ne (hj : j ≠ i) : dlLookup (dlDelete hashmap i) j = dlLookup hashmap j :=
  dlLookup_update_ne (find?_eraseP_ne hj)

theorem dlLookup_delete_same (hkeys : ∀ k, ((hashmap k).map DlHmLl.inodeNumber).Nodup) :
    dlLookup (dlDelete hashmap i) i = none := by
  rw [dlDelete, dlLookup_update_same, find?_eraseP_same (hkeys _)]

theorem NoEmpty.delete (h : NoEmpty hashmap) (hproper : DlProper hashmap) :
    NoEmpty (dlDelete hashmap i) :=
  h.congr (fun _ hj => dlLookup_delete_ne hj) fun e he => by
    rw [dlLookup_delete_same hproper.keys] at he
    cases he

/-- Assigning a chain that is not empty. -/
theorem NoEmpty.setList (h : NoEmpty hashmap) {list : DlChain} (hlist : list ≠ .null) :
    NoEmpty (Function.update hashmap (hashBucket i) (dlSetList i list (hashmap (hashBucket i)))) := by
  refine h.congr (i := i) (fun _ hj => dlLookup_update_ne (find?_dlSetList_ne hj)) fun e he => ?_
  rw [dlLookup_update_same, find?_dlSetList_same] at he
  obtain ⟨e', -, rfl⟩ := Option.map_eq_some_iff.mp he
  exact hlist

/-- An insertion leaves no empty list behind. -/
theorem NoEmpty.insert (h : NoEmpty hashmap)
    (hinsert : dlInsert hashmap i b leftover = some hashmap') : NoEmpty hashmap' := by
  rw [dlInsert] at hinsert
  cases he : dlLookup hashmap i with
  | none =>
      simp only [he, Option.bind_eq_bind] at hinsert
      obtain ⟨list, hpush, hinsert⟩ := Option.bind_eq_some_iff.mp hinsert
      obtain rfl := Option.some.inj hinsert
      refine h.congr (i := i) (fun j hj => dlLookup_update_ne ?_) fun e he' => ?_
      · rw [List.find?_cons, show (i == j) = false by simpa using hj.symm]
      · rw [dlLookup_update_same, List.find?_cons, show (i == i) = true by simp] at he'
        obtain rfl := Option.some.inj he'
        exact dlPush_ne_null hpush
  | some e =>
      simp only [he, Option.bind_eq_bind] at hinsert
      obtain ⟨found, -, hinsert⟩ := Option.bind_eq_some_iff.mp hinsert
      cases found with
      | true =>
          obtain rfl := Option.some.inj hinsert
          exact h
      | false =>
          obtain ⟨list, hpush, hinsert⟩ := Option.bind_eq_some_iff.mp hinsert
          obtain rfl := Option.some.inj hinsert
          exact h.setList (dlPush_ne_null hpush)

/-- A removal leaves no empty list behind: the entry of the inode goes with its last block. -/
theorem NoEmpty.removeBlock (h : NoEmpty hashmap) (hproper : DlProper hashmap)
    (hremove : dlRemoveBlock hashmap i b = some hashmap') : NoEmpty hashmap' := by
  rw [dlRemoveBlock] at hremove
  cases he : dlLookup hashmap i with
  | none =>
      simp only [he] at hremove
      obtain rfl := Option.some.inj hremove
      exact h
  | some e =>
      simp only [he, Option.bind_eq_bind] at hremove
      obtain ⟨unlinked, -, hremove⟩ := Option.bind_eq_some_iff.mp hremove
      cases unlinked with
      | none =>
          obtain rfl := Option.some.inj hremove
          exact h
      | some next =>
          simp only at hremove
          have hset := hproper.setList he next
          split at hremove
          · -- the entry goes with its last block
            obtain rfl := Option.some.inj hremove
            refine h.congr (i := i) (fun j hj => ?_) fun e' he' => ?_
            · rw [dlLookup_delete_ne hj, dlLookup_update_ne (find?_dlSetList_ne hj)]
            · rw [dlLookup_delete_same hset.keys] at he'
              cases he'
          · next hne =>
            obtain rfl := Option.some.inj hremove
            exact h.setList hne

/-! ## Runs -/

/-- What every call keeps. -/
structure SoundSets (s : DlHm × DlSpec) : Prop where
  proper : DlProper s.1
  indexed : ∀ i, (dlChain s.1 i).Indexed
  noEmpty : NoEmpty s.1
  mem : ∀ i b, b ∈ dlBlocks s.1 i ↔ b ∈ s.2 i

namespace SoundSets

theorem areFiniteSets {s : DlHm × DlSpec} (S : SoundSets s) : AreFiniteSets s where
  terminated := S.proper.proper
  mem := S.mem
  once := S.proper.nodup
  keys := S.proper.keys
  entry := S.noEmpty.isSome_iff
  drained i := by
    rw [dlBlocks_eq, dlDrain_eq (S.proper.proper i) le_rfl, DlChain.popped_eq (S.indexed i)]

variable (S : SoundSets (hashmap, spec))
include S

/-- The set of one inode changes with its list. -/
theorem mem_update {set : Finset UInt64} (hother : ∀ j ≠ i, dlChain hashmap' j = dlChain hashmap j)
    (hself : ∀ b, b ∈ dlBlocks hashmap' i ↔ b ∈ set) (j b : UInt64) :
    b ∈ dlBlocks hashmap' j ↔ b ∈ Function.update spec i set j := by
  rcases eq_or_ne j i with rfl | hj
  · rw [Function.update_self]
    exact hself b
  · rw [Function.update_of_ne hj, dlBlocks_eq, hother j hj, ← dlBlocks_eq]
    exact S.mem j b

theorem indexed_update (hother : ∀ j ≠ i, dlChain hashmap' j = dlChain hashmap j)
    (hself : (dlChain hashmap' i).Indexed) (j : UInt64) : (dlChain hashmap' j).Indexed := by
  rcases eq_or_ne j i with rfl | hj
  · exact hself
  · rw [hother j hj]
    exact S.indexed j

/-- An insertion that finds room adds the block to the set of its inode. -/
theorem insert (hroom : (DlOp.insert i b leftover).FindsRoom (hashmap, spec)) :
    ∃ hashmap', dlInsert hashmap i b leftover = some hashmap' ∧
      SoundSets (hashmap', Function.update spec i (Insert.insert b (spec i))) := by
  by_cases hb : b ∈ dlBlocks hashmap i
  · -- the block is there
    refine ⟨hashmap, S.proper.insert_of_mem leftover hb, S.proper, S.indexed, S.noEmpty,
      S.mem_update (fun _ _ => rfl) fun c => ?_⟩
    rw [Finset.insert_eq_of_mem ((S.mem i b).mp hb)]
    exact S.mem i c
  · obtain ⟨hleft, htop⟩ := hroom.resolve_left hb
    obtain ⟨list, hashmap', hpush, hinsert, hrep, hproper, hblocks⟩ :=
      S.proper.insert_of_notMem hleft hb
    have hnodup : list.blocks.Nodup := hblocks ▸ List.nodup_cons.mpr ⟨hb, S.proper.nodup i⟩
    have hindexed := (S.indexed i).push htop hpush
    refine ⟨hashmap', hinsert, hrep.dlProper S.proper hproper hnodup,
      S.indexed_update hrep.other (by rwa [hrep.same]), S.noEmpty.insert hinsert,
      S.mem_update hrep.other fun c => ?_⟩
    rw [hrep.dlBlocks_same, hblocks, List.mem_cons, Finset.mem_insert]
    exact or_congr_right (S.mem i c)

theorem removeBlock (i b : UInt64) : ∃ hashmap', dlRemoveBlock hashmap i b = some hashmap' ∧
    SoundSets (hashmap', Function.update spec i ((spec i).erase b)) := by
  obtain ⟨hashmap', hremove, hproper, hother, hblocks, hindexed⟩ := S.proper.removeBlock i b
  refine ⟨hashmap', hremove, hproper, S.indexed_update hother (hindexed (S.indexed i)),
    S.noEmpty.removeBlock S.proper hremove, S.mem_update hother fun c => ?_⟩
  rw [hblocks, (S.proper.nodup i).mem_erase_iff, Finset.mem_erase]
  exact and_congr_right fun _ => S.mem i c

theorem delete (i : UInt64) : SoundSets (dlDelete hashmap i, Function.update spec i ∅) := by
  have hrep := S.proper.delete i
  refine ⟨hrep.dlProper S.proper trivial List.nodup_nil,
    S.indexed_update hrep.other (by rw [hrep.same]; trivial), S.noEmpty.delete S.proper,
    S.mem_update hrep.other fun c => ?_⟩
  rw [hrep.dlBlocks_same]
  exact ⟨fun h => absurd h List.not_mem_nil, fun h => absurd h (Finset.notMem_empty c)⟩

/-- Without room the new node has no end behind it, or looks like the last one. -/
theorem not_areFiniteSets (hroom : ¬(DlOp.insert i b leftover).FindsRoom (hashmap, spec))
    (hinsert : dlInsert hashmap i b leftover = some hashmap') (spec' : DlSpec) :
    ¬AreFiniteSets (hashmap', spec') := by
  intro A
  obtain ⟨hb, hroom⟩ := not_or.mp hroom
  obtain ⟨list, hashmap'', hpush, hinsert', hrep⟩ := S.proper.insert_replaced leftover hb
  obtain rfl : hashmap'' = hashmap' := Option.some.inj (hinsert'.symm.trans hinsert)
  have hterminated := A.terminated i
  have hdrained := A.drained i
  rw [hrep.same] at hterminated
  rw [dlBlocks_eq, hrep.same, dlDrain_eq hterminated le_rfl] at hdrained
  have hpopped := Option.some.inj hdrained
  cases hc : dlChain hashmap i with
  | null =>
      rw [hc] at hpush hroom
      obtain rfl := Option.some.inj hpush
      cases leftover with
      | null => exact hroom ⟨fun _ => rfl, by decide⟩
      | garbage => exact hterminated
  | unset =>
      have hproper := S.proper.proper i
      rw [hc] at hproper
      exact hproper
  | node d b' next =>
      rw [hc] at hpush hroom
      obtain rfl := Option.some.inj hpush
      have htop : ¬d.toNat + 1 < 2 ^ 64 := fun h =>
        hroom ⟨fun hnull => DlChain.noConfusion hnull, h⟩
      have hwrap : ¬1 < d + 1 := by
        have hd := d.toNat_lt
        rw [UInt64.lt_iff_toNat_lt, UInt64.toNat_add]
        show ¬1 < (d.toNat + 1) % 2 ^ 64
        omega
      rw [DlChain.popped, if_neg hwrap] at hpopped
      cases hpopped

end SoundSets

/-- The lists are finite sets throughout a run exactly when every insertion finds room. -/
theorem dlRun_finiteSets {ops : List DlOp} :
    SafeRun DlOp.step (fun _ _ s' => AreFiniteSets s') ops (fun _ => [], fun _ => ∅) ↔
      Admits DlOp.step DlOp.FindsRoom ops (fun _ => [], fun _ => ∅) := by
  have hvalid : Admits DlOp.step (fun _ _ => True) ops (fun _ => [], fun _ => ∅) :=
    Admits.of_forall fun _ _ _ => trivial
  refine safeRun_iff_admits SoundSets ?_ ?_ ?_ hvalid
  · rintro op ⟨hashmap, spec⟩ S - hroom
    cases op with
    | insert i b leftover =>
        obtain ⟨hashmap', hinsert, S'⟩ := S.insert hroom
        exact ⟨_, by rw [DlOp.step, hinsert, Option.map_some], S'.areFiniteSets, S'⟩
    | removeBlock i b =>
        obtain ⟨hashmap', hremove, S'⟩ := S.removeBlock i b
        exact ⟨_, by rw [DlOp.step, hremove, Option.map_some], S'.areFiniteSets, S'⟩
    | delete i => exact ⟨_, rfl, (S.delete i).areFiniteSets, S.delete i⟩
  · rintro op ⟨hashmap, spec⟩ S - hroom s' hs'
    cases op with
    | insert i b leftover =>
        obtain ⟨hashmap', hinsert, rfl⟩ := Option.map_eq_some_iff.mp hs'
        exact S.not_areFiniteSets hroom hinsert _
    | removeBlock i b => exact absurd trivial hroom
    | delete i => exact absurd trivial hroom
  · exact ⟨⟨fun k => List.nodup_nil, fun i => trivial, fun i => List.nodup_nil⟩, fun i => trivial,
      fun i e he => (by cases he), fun i b => ⟨fun h => absurd h List.not_mem_nil,
        fun h => absurd h (Finset.notMem_empty b)⟩⟩

/-- The first block that is inserted, over memory that is not zero. -/
theorem not_dlRun_finiteSets : ¬∀ ops : List DlOp,
    SafeRun DlOp.step (fun _ _ s' => AreFiniteSets s') ops (fun _ => [], fun _ => ∅) := by
  intro h
  obtain ⟨s, hs, A, -⟩ := h [.insert 1 5 .garbage]
  obtain rfl := Option.some.inj (show some _ = some s from hs)
  exact A.terminated 1

end Nbtrfs
