import Nbtrfs.Cache.Resident
import Nbtrfs.Lib.HeapChain
import Nbtrfs.Lib.Runs

/-!
# The block index in memory

Reference: `pci.c`, `pci.h`.

The index of the cache as it lies in memory: 32 chains of nodes in a heap of arbitrary contents. The local
`prev` of `pci_delete` is assigned on the way past a node only, so its first value is a parameter. As long
as that value is NULL where it counts, the chains hold what the lists of `PciHm` say, and the index is a
finite map.
-/

namespace Nbtrfs

/-- `PCI_LL` -/
structure PciLl where
  blockNumber : UInt64
  index : UInt64
  next : Option ℕ

/-- `PCI_HM` with the heap that its pointers lead to. -/
structure PciMemory where
  hashMap : ℕ → Option ℕ
  heap : CellHeap PciLl

/-- `(int) index` -/
def slotOf (index : UInt64) : ℤ := index.toUInt32.toInt32.toInt

namespace PciMemory

/-! ## Operations -/

/-- The loop of `pci_lookup`. A walk of more steps than there are live cells goes on forever. -/
def lookupFrom (heap : CellHeap PciLl) (blockNumber : UInt64) : ℕ → Option ℕ → Option ℤ
  | _, none => some (-1)
  | 0, some _ => none
  | n + 1, some current => do
      let node ← heap.load (some current)
      if node.blockNumber = blockNumber then some (slotOf node.index)
      else lookupFrom heap blockNumber n node.next

/-- `pci_lookup` -/
def pciLookup (m : PciMemory) (blockNumber : UInt64) : Option ℤ :=
  lookupFrom m.heap blockNumber m.heap.live.card (m.hashMap (hashBucket blockNumber))

/-- `pci_insert`; `malloc` returns address `node`. All fields of the node are assigned. -/
def pciInsert (m : PciMemory) (blockNumber index : UInt64) (node : ℕ) : PciMemory :=
  let k := hashBucket blockNumber
  { hashMap := Function.update m.hashMap k (some node)
    heap := (m.heap.malloc node).set node ⟨blockNumber, index, m.hashMap k⟩ }

/-- The loop of `pci_delete`: the values of `prev` and `curr` behind it. -/
def deleteFrom (heap : CellHeap PciLl) (blockNumber : UInt64) :
    ℕ → Option ℕ → Option ℕ → Option (Option ℕ × Option ℕ)
  | _, prev, none => some (prev, none)
  | 0, _, some _ => none
  | n + 1, prev, some curr => do
      let node ← heap.load (some curr)
      if node.blockNumber = blockNumber then some (prev, some curr)
      else deleteFrom heap blockNumber n (some curr) node.next

/-- `pci_delete`; `prev` is what the local variable holds before it is assigned. -/
def pciDelete (m : PciMemory) (blockNumber : UInt64) (prev : Option ℕ) : Option PciMemory := do
  let k := hashBucket blockNumber
  match ← deleteFrom m.heap blockNumber m.heap.live.card prev (m.hashMap k) with
  | (_, none) => none
  | (prev, some curr) => do
      let node ← m.heap.load (some curr)
      match prev with
      | some prev => do
          let before ← m.heap.load (some prev)
          let heap ← m.heap.store (some prev) { before with next := node.next }
          some { m with heap := heap.free curr }
      | none =>
          some { hashMap := Function.update m.hashMap k node.next, heap := m.heap.free curr }

/-! ## What the chains hold -/

/-- What the node at an address says: its block number and its slot. -/
def entry (heap : CellHeap PciLl) (a : ℕ) : UInt64 × ℤ :=
  ((heap.cell a).blockNumber, slotOf (heap.cell a).index)

/-- The chains of the memory hold the lists of `hashmap`, each block in its bucket. -/
structure Stores (m : PciMemory) (hashmap : PciHm) : Prop where
  chain : ∀ k, ∃ as, CellHeap.Segment PciLl.next m.heap (m.hashMap k) as none ∧
    hashmap k = as.map (entry m.heap)
  bucket : ∀ k, ∀ e ∈ hashmap k, hashBucket e.1 = k

variable {heap : CellHeap PciLl} {m m' : PciMemory} {hashmap hashmap' : PciHm} {b : UInt64}
  {p prev : Option ℕ} {as front back : List ℕ} {a c k n : ℕ}

/-- `pci_lookup` returns the slot of the first cell of the chain that carries the block. -/
theorem lookupFrom_eq (hs : CellHeap.Segment PciLl.next heap p as none) (hn : as.length ≤ n) :
    lookupFrom heap b n p =
      some (((as.map (entry heap)).find? (·.1 == b)).elim (-1) Prod.snd) := by
  induction as generalizing p n with
  | nil =>
      obtain rfl : p = none := hs
      rw [lookupFrom]
      rfl
  | cons a as ih =>
      obtain ⟨rfl, ha, hs⟩ := hs
      obtain ⟨n, rfl⟩ : ∃ n', n = n' + 1 := ⟨n - 1, by rw [List.length_cons] at hn; omega⟩
      rw [lookupFrom, CellHeap.load_of_live ha, List.map_cons, List.find?_cons]
      simp only [Option.bind_eq_bind, Option.bind_some]
      by_cases hb : (heap.cell a).blockNumber = b
      · have hfound : ((entry heap a).1 == b) = true := beq_iff_eq.mpr hb
        rw [if_pos hb]
        simp only [hfound, Option.elim_some]
        rw [entry]
      · have hother : ((entry heap a).1 == b) = false := beq_eq_false_iff_ne.mpr hb
        rw [if_neg hb, hother]
        exact ih hs (by rw [List.length_cons] at hn; omega)

/-- `pci_lookup` reads the list of the bucket. -/
theorem Stores.lookup (S : Stores m hashmap) (b : UInt64) :
    m.pciLookup b = some (Nbtrfs.pciLookup hashmap b) := by
  obtain ⟨as, hs, hlist⟩ := S.chain (hashBucket b)
  rw [pciLookup, lookupFrom_eq hs hs.length_le, Nbtrfs.pciLookup, hlist]
  cases (as.map (entry m.heap)).find? (·.1 == b) with
  | none => rfl
  | some e => rfl

/-- The other buckets keep their chains when only cells of bucket `k` and dead ones change. -/
theorem Stores.other (S : Stores m hashmap) {j : ℕ} (hj : j ≠ k) (hmap : m'.hashMap j = m.hashMap j)
    (hkeep : ∀ a ∈ m.heap.live, hashBucket (m.heap.cell a).blockNumber ≠ k →
      a ∈ m'.heap.live ∧ m'.heap.cell a = m.heap.cell a) :
    ∃ as, CellHeap.Segment PciLl.next m'.heap (m'.hashMap j) as none ∧
      hashmap j = as.map (entry m'.heap) := by
  obtain ⟨as, hs, hlist⟩ := S.chain j
  have hsame : ∀ a ∈ as, a ∈ m'.heap.live ∧ m'.heap.cell a = m.heap.cell a := by
    intro a ha
    have hmem : entry m.heap a ∈ hashmap j := hlist ▸ List.mem_map_of_mem ha
    exact hkeep a (hs.live ha) ((S.bucket j _ hmem).trans_ne hj)
  refine ⟨as, hmap ▸ hs.congr hsame, hlist.trans (List.map_congr_left fun a ha => ?_)⟩
  rw [entry, entry, (hsame a ha).2]

/-- `pci_insert` puts an entry in front of the list. -/
theorem Stores.insert (S : Stores m hashmap) (index : UInt64) (ha : a ∉ m.heap.live) :
    Stores (m.pciInsert b index a) (Nbtrfs.pciInsert hashmap b (slotOf index)) where
  chain k := by
    have hkeep : ∀ c ∈ m.heap.live, c ∈ (m.pciInsert b index a).heap.live ∧
        (m.pciInsert b index a).heap.cell c = m.heap.cell c := fun c hc =>
      ⟨CellHeap.mem_live_malloc.mpr (Or.inr hc),
        CellHeap.cell_set_of_ne fun h => ha (h ▸ hc)⟩
    rcases eq_or_ne k (hashBucket b) with rfl | hk
    · obtain ⟨as, hs, hlist⟩ := S.chain (hashBucket b)
      have hself : (m.pciInsert b index a).heap.cell a =
          ⟨b, index, m.hashMap (hashBucket b)⟩ := CellHeap.cell_set_self
      refine ⟨a :: as, ⟨Function.update_self .., CellHeap.mem_live_malloc.mpr (Or.inl rfl), ?_⟩, ?_⟩
      · rw [hself]
        exact hs.congr fun c hc => hkeep c (hs.live hc)
      · rw [Nbtrfs.pciInsert, Function.update_self, hlist, List.map_cons, entry, hself]
        congr 1
        refine List.map_congr_left fun c hc => ?_
        rw [entry, entry, (hkeep c (hs.live hc)).2]
    · rw [Nbtrfs.pciInsert, Function.update_of_ne hk]
      exact S.other hk (Function.update_of_ne hk ..) fun c hc _ => hkeep c hc
  bucket k e he := by
    rw [Nbtrfs.pciInsert] at he
    rcases eq_or_ne k (hashBucket b) with rfl | hk
    · rw [Function.update_self] at he
      rcases List.mem_cons.mp he with rfl | he
      · rfl
      · exact S.bucket _ e he
    · rw [Function.update_of_ne hk] at he
      exact S.bucket k e he

/-! ## Deletion -/

/-- The list of the bucket without the first entry of a block. -/
def pciErase (hashmap : PciHm) (b : UInt64) : PciHm :=
  let k := hashBucket b
  Function.update hashmap k ((hashmap k).eraseP (·.1 == b))

/-- The loop of `pci_delete` stops at the first node of the block, with the one before it. -/
theorem deleteFrom_eq (hs : CellHeap.Segment PciLl.next heap p (front ++ c :: back) none)
    (hn : (front ++ c :: back).length ≤ n) (hfront : ∀ a ∈ front, (heap.cell a).blockNumber ≠ b)
    (hc : (heap.cell c).blockNumber = b) :
    deleteFrom heap b n prev p = some (front.getLast?.or prev, some c) := by
  induction front generalizing p prev n with
  | nil =>
      obtain ⟨rfl, hlive, -⟩ := hs
      obtain ⟨n, rfl⟩ : ∃ n', n = n' + 1 := ⟨n - 1, by
        rw [List.length_append, List.length_cons] at hn
        omega⟩
      rw [deleteFrom, CellHeap.load_of_live hlive]
      simp only [Option.bind_eq_bind, Option.bind_some]
      rw [if_pos hc]
      rfl
  | cons a front ih =>
      obtain ⟨rfl, hlive, hs⟩ := hs
      rw [List.cons_append, List.length_cons] at hn
      obtain ⟨n, rfl⟩ : ∃ n', n = n' + 1 := ⟨n - 1, by omega⟩
      rw [deleteFrom, CellHeap.load_of_live hlive]
      simp only [Option.bind_eq_bind, Option.bind_some]
      rw [if_neg (hfront a List.mem_cons_self), ih hs (by omega) fun a ha =>
        hfront a (List.mem_cons_of_mem _ ha), List.getLast?_cons]
      cases front.getLast? with
      | none => rfl
      | some last => rfl

/-- The node of a block that is in the index, with the chain around it. -/
theorem Stores.exists_split (S : Stores m hashmap)
    (hb : ((hashmap (hashBucket b)).find? (·.1 == b)).isSome) : ∃ front c back,
      CellHeap.Segment PciLl.next m.heap (m.hashMap (hashBucket b)) (front ++ c :: back) none ∧
      hashmap (hashBucket b) = (front ++ c :: back).map (entry m.heap) ∧
      (∀ a ∈ front, (m.heap.cell a).blockNumber ≠ b) ∧ (m.heap.cell c).blockNumber = b := by
  obtain ⟨as, hs, hlist⟩ := S.chain (hashBucket b)
  obtain ⟨e, he⟩ := Option.isSome_iff_exists.mp hb
  rw [hlist, List.find?_map, Option.map_eq_some_iff] at he
  obtain ⟨c, hc, -⟩ := he
  obtain ⟨hfound, front, back, rfl, hfront⟩ := List.find?_eq_some_iff_append.mp hc
  refine ⟨front, c, back, hs, hlist, fun a ha => ?_, beq_iff_eq.mp hfound⟩
  have hnot := hfront a ha
  simpa [entry] using hnot

/-- Without the node of the block the other chains are as before. -/
theorem Stores.erase (S : Stores m hashmap)
    (hlist : hashmap (hashBucket b) = (front ++ c :: back).map (entry m.heap))
    (hfront : ∀ a ∈ front, (m.heap.cell a).blockNumber ≠ b)
    (hc : (m.heap.cell c).blockNumber = b)
    (hchain : CellHeap.Segment PciLl.next m'.heap (m'.hashMap (hashBucket b)) (front ++ back) none)
    (hentry : ∀ a ∈ front ++ back, entry m'.heap a = entry m.heap a)
    (hmap : ∀ j ≠ hashBucket b, m'.hashMap j = m.hashMap j)
    (hkeep : ∀ a ∈ m.heap.live, hashBucket (m.heap.cell a).blockNumber ≠ hashBucket b →
      a ∈ m'.heap.live ∧ m'.heap.cell a = m.heap.cell a) :
    Stores m' (pciErase hashmap b) where
  chain k := by
    rcases eq_or_ne k (hashBucket b) with rfl | hk
    · refine ⟨front ++ back, hchain, ?_⟩
      have hnot : ∀ e ∈ front.map (entry m.heap), ¬(e.1 == b) = true := by
        intro e he
        obtain ⟨a, ha, rfl⟩ := List.mem_map.mp he
        simpa [entry] using hfront a ha
      have hback : (entry m.heap c :: back.map (entry m.heap)).eraseP (·.1 == b) =
          back.map (entry m.heap) := List.eraseP_cons_of_pos (beq_iff_eq.mpr hc)
      rw [pciErase, Function.update_self, hlist, List.map_append, List.map_cons,
        List.eraseP_append_right _ hnot, hback, ← List.map_append]
      exact List.map_congr_left fun a ha => (hentry a ha).symm
    · rw [pciErase, Function.update_of_ne hk]
      exact S.other hk (hmap k hk) hkeep
  bucket k e he := by
    rw [pciErase] at he
    rcases eq_or_ne k (hashBucket b) with rfl | hk
    · rw [Function.update_self] at he
      exact S.bucket _ e (List.mem_of_mem_eraseP he)
    · rw [Function.update_of_ne hk] at he
      exact S.bucket k e he

/-- The block is the first one of its chain. -/
def AtHead (m : PciMemory) (b : UInt64) : Prop :=
  ∃ node ∈ m.heap.load (m.hashMap (hashBucket b)), node.blockNumber = b

/-- `pci_delete` unlinks the node of the block, behind another one or with a `prev` that is NULL. -/
theorem Stores.delete (S : Stores m hashmap)
    (hb : ((hashmap (hashBucket b)).find? (·.1 == b)).isSome) (hprev : AtHead m b → prev = none) :
    ∃ m', m.pciDelete b prev = some m' ∧ Stores m' (pciErase hashmap b) := by
  obtain ⟨front, c, back, hs, hlist, hfront, hc⟩ := S.exists_split hb
  have hlive : c ∈ m.heap.live := hs.live (List.mem_append_right _ List.mem_cons_self)
  have hloop : deleteFrom m.heap b m.heap.live.card prev (m.hashMap (hashBucket b)) = _ :=
    deleteFrom_eq hs hs.length_le hfront hc
  rcases List.eq_nil_or_concat' front with rfl | ⟨front, a, rfl⟩
  · -- the first node
    have hhead : AtHead m b :=
      ⟨m.heap.cell c, by rw [hs.1, CellHeap.load_of_live hlive]; rfl, hc⟩
    obtain rfl := hprev hhead
    refine ⟨⟨Function.update m.hashMap (hashBucket b) (m.heap.cell c).next, m.heap.free c⟩, ?_,
      S.erase hlist hfront hc ?_ (fun _ _ => rfl) (fun j hj => Function.update_of_ne hj ..)
        fun d hd hne => ?_⟩
    · rw [pciDelete, hloop]
      simp only [List.getLast?_nil, Option.or_none, Option.bind_eq_bind, Option.bind_some,
        CellHeap.load_of_live hlive]
    · show CellHeap.Segment PciLl.next (m.heap.free c) (Function.update m.hashMap (hashBucket b)
        (m.heap.cell c).next (hashBucket b)) back none
      rw [Function.update_self]
      exact hs.free_head
    · refine ⟨CellHeap.mem_live_free.mpr ⟨?_, hd⟩, rfl⟩
      rintro rfl
      exact hne (congrArg hashBucket hc)
  · -- behind node `a`
    have hlive' : a ∈ m.heap.live :=
      hs.live (List.mem_append_left _ (List.mem_append_right _ (List.mem_singleton_self a)))
    have hbucket : hashBucket (m.heap.cell a).blockNumber = hashBucket b := by
      refine S.bucket _ (entry m.heap a) ?_
      rw [hlist]
      exact List.mem_map_of_mem (List.mem_append_left _ (List.mem_append_right _ List.mem_cons_self))
    rw [List.append_assoc, List.singleton_append] at hs
    obtain ⟨before, hbefore⟩ : ∃ before : PciLl,
        before = { m.heap.cell a with next := (m.heap.cell c).next } := ⟨_, rfl⟩
    have hentry : ∀ d, entry ((m.heap.set a before).free c) d = entry m.heap d := by
      intro d
      rw [entry, entry, CellHeap.cell_free]
      rcases eq_or_ne d a with rfl | hd
      · rw [CellHeap.cell_set_self, hbefore]
      · rw [CellHeap.cell_set_of_ne hd]
    refine ⟨⟨m.hashMap, (m.heap.set a before).free c⟩, ?_,
      S.erase hlist hfront hc ?_ (fun d _ => hentry d) (fun _ _ => rfl) fun d hd hne => ?_⟩
    · rw [pciDelete, hloop]
      simp only [List.getLast?_concat, Option.some_or, Option.bind_eq_bind, Option.bind_some,
        CellHeap.load_of_live hlive, CellHeap.load_of_live hlive', CellHeap.store_of_live hlive',
        hbefore]
    · rw [List.append_assoc, List.singleton_append]
      exact hs.unlink (by rw [hbefore])
    · refine ⟨CellHeap.mem_live_free.mpr ⟨?_, hd⟩, CellHeap.cell_set_of_ne ?_⟩
      · rintro rfl
        exact hne (congrArg hashBucket hc)
      · rintro rfl
        exact hne hbucket

/-- With another `prev` the bucket still leads to the node that `pci_delete` freed. -/
theorem Stores.delete_head (S : Stores m hashmap) {q : ℕ} (hhead : AtHead m b)
    (hdel : m.pciDelete b (some q) = some m') : m'.pciLookup b = none := by
  obtain ⟨as, hs, -⟩ := S.chain (hashBucket b)
  obtain ⟨node, hnode, hb⟩ := hhead
  cases as with
  | nil =>
      rw [show m.hashMap (hashBucket b) = none from hs] at hnode
      cases hnode
  | cons c back =>
      obtain ⟨hp, hc, -⟩ := id hs
      rw [hp, CellHeap.load_of_live hc] at hnode
      obtain rfl := Option.some.inj hnode
      have hfront : ∀ a ∈ ([] : List ℕ), (m.heap.cell a).blockNumber ≠ b :=
        fun a ha => absurd ha List.not_mem_nil
      have hloop : deleteFrom m.heap b m.heap.live.card (some q) (m.hashMap (hashBucket b)) =
          some (some q, some c) := deleteFrom_eq hs hs.length_le hfront hb
      rw [pciDelete, hloop] at hdel
      simp only [Option.bind_eq_bind, Option.bind_some, CellHeap.load_of_live hc] at hdel
      by_cases hq : q ∈ m.heap.live
      · simp only [CellHeap.load_of_live hq, CellHeap.store_of_live hq, Option.bind_some] at hdel
        obtain rfl := Option.some.inj hdel
        rw [pciLookup, hp]
        rcases Finset.card _ with _ | n
        · rfl
        · rw [lookupFrom, CellHeap.load_of_not_live fun h => (CellHeap.mem_live_free.mp h).1 rfl]
          rfl
      · rw [CellHeap.load_of_not_live hq] at hdel
        cases hdel

/-- Where the cache's lists allow a deletion, the memory makes it whatever `prev` held before. -/
theorem Stores.refines_delete (S : Stores m hashmap)
    (hdel : Nbtrfs.pciDelete hashmap b = some hashmap') (prev : Option ℕ) :
    ∃ m', m.pciDelete b prev = some m' ∧ Stores m' hashmap' := by
  simp only [Nbtrfs.pciDelete] at hdel
  obtain ⟨as, hs, hlist⟩ := S.chain (hashBucket b)
  cases as with
  | nil =>
      rw [List.map_nil] at hlist
      rw [hlist] at hdel
      cases hdel
  | cons c back =>
      obtain ⟨hp, hc, -⟩ := id hs
      rw [List.map_cons] at hlist
      rw [hlist] at hdel
      simp only at hdel
      split at hdel
      · cases hdel
      · next hne =>
        split at hdel
        · next hany =>
          have hother : ((entry m.heap c).1 == b) = false := beq_eq_false_iff_ne.mpr hne
          have hpresent : ((hashmap (hashBucket b)).find? (·.1 == b)).isSome := by
            rw [hlist, List.find?_cons, hother, List.find?_isSome, ← List.any_eq_true]
            exact hany
          have hhead : ¬AtHead m b := by
            rintro ⟨node, hnode, hb⟩
            rw [hp, CellHeap.load_of_live hc] at hnode
            obtain rfl := Option.some.inj hnode
            exact hne hb
          have hmade : ∃ m', m.pciDelete b prev = some m' ∧ Stores m' (pciErase hashmap b) :=
            S.delete hpresent fun h => absurd h hhead
          obtain rfl : pciErase hashmap b = hashmap' := by
            rw [pciErase, hlist, List.eraseP_cons_of_neg (by rw [hother]; exact Bool.false_ne_true)]
            exact Option.some.inj hdel
          exact hmade
        · cases hdel

end PciMemory

/-! ## Runs -/

/-- A call: `pci_insert` of a slot with the address that `malloc` returns, or `pci_delete` with what `prev`
happens to hold. -/
inductive PciOp where
  | insert (blockNumber : UInt64) (slot : Int32) (node : ℕ)
  | delete (blockNumber : UInt64) (prev : Option ℕ)

/-- The slot of the latest insertion of a block that was not deleted since. -/
abbrev PciSpec := UInt64 → Option Int32

namespace PciOp

/-- The call, and what it means for the map. -/
def step : PciOp → PciMemory × PciSpec → Option (PciMemory × PciSpec)
  | insert b slot node, (m, spec) =>
      some (m.pciInsert b slot.toInt64.toUInt64 node, Function.update spec b (some slot))
  | delete b prev, (m, spec) =>
      (m.pciDelete b prev).map fun m' => (m', Function.update spec b none)

/-- Absent blocks are inserted, present ones deleted, and `malloc` returns memory that is not in use. -/
def Valid : PciOp → PciMemory × PciSpec → Prop
  | insert b _ node, (m, spec) => spec b = none ∧ node ∉ m.heap.live
  | delete b _, (_, spec) => spec b ≠ none

/-- When the block is the first one of its chain, `prev` holds NULL. -/
def FindsPrev : PciOp → PciMemory × PciSpec → Prop
  | insert _ _ _, _ => True
  | delete b prev, (m, _) => m.AtHead b → prev = none

end PciOp

/-- `pci_lookup` returns the slot of the latest insertion, or -1. -/
def IsFiniteMap (s : PciMemory × PciSpec) : Prop :=
  ∀ b, s.1.pciLookup b = some ((s.2 b).elim (-1) Int32.toInt)

/-- An empty index over memory of any contents. -/
def pciStart (heap : CellHeap PciLl) : PciMemory × PciSpec := (⟨fun _ => none, heap⟩, fun _ => none)

/-- The conversion of an `int` to `uint64_t` and back. -/
theorem slotOf_slot (slot : Int32) : slotOf slot.toInt64.toUInt64 = slot.toInt := by
  have hbits : (slot.toBitVec.signExtend 64).setWidth 32 = slot.toBitVec := by
    apply BitVec.eq_of_getLsbD_eq
    intro i hi
    have hlt : i < 64 := by omega
    rw [BitVec.getLsbD_setWidth, BitVec.getLsbD_signExtend, if_pos hi, decide_eq_true hi,
      decide_eq_true hlt, Bool.true_and, Bool.true_and]
  have hslot : slot.toInt64.toUInt64.toUInt32.toInt32 = slot := Int32.toBitVec.inj hbits
  rw [slotOf, hslot]

/-- The lists hold the map, with one entry for each block. -/
structure HoldsMap (hashmap : PciHm) (spec : PciSpec) : Prop where
  keys : ∀ k, ((hashmap k).map Prod.fst).Nodup
  find : ∀ b, (hashmap (hashBucket b)).find? (·.1 == b) = (spec b).map fun slot => (b, slot.toInt)

namespace HoldsMap

variable {hashmap : PciHm} {spec : PciSpec} {b : UInt64} {slot : Int32}

theorem lookup (H : HoldsMap hashmap spec) (b : UInt64) :
    pciLookup hashmap b = (spec b).elim (-1) Int32.toInt := by
  rw [pciLookup, H.find b]
  cases spec b with
  | none => rfl
  | some slot => rfl

/-- Inserting a new block extends the map that the table holds. -/
theorem insert (H : HoldsMap hashmap spec) (hb : spec b = none) :
    HoldsMap (pciInsert hashmap b slot.toInt) (Function.update spec b (some slot)) where
  keys k := by
    rcases eq_or_ne k (hashBucket b) with rfl | hk
    · have hnone := H.find b
      rw [hb, Option.map_none, List.find?_eq_none] at hnone
      rw [pciInsert, Function.update_self, List.map_cons]
      refine List.nodup_cons.mpr ⟨fun hmem => ?_, H.keys _⟩
      obtain ⟨e, he, heb⟩ := List.mem_map.mp hmem
      exact hnone e he (beq_iff_eq.mpr heb)
    · rw [pciInsert, Function.update_of_ne hk]
      exact H.keys k
  find c := by
    rcases eq_or_ne c b with rfl | hc
    · rw [pciInsert, Function.update_self, Function.update_self, List.find?_cons, beq_self_eq_true]
      rfl
    · rw [Function.update_of_ne hc, ← H.find c, pciInsert]
      rcases eq_or_ne (hashBucket c) (hashBucket b) with hk | hk
      · rw [hk, Function.update_self, List.find?_cons, beq_eq_false_iff_ne.mpr hc.symm]
      · rw [Function.update_of_ne hk]

/-- Removing every cell of a block takes the block from the map. -/
theorem erase (H : HoldsMap hashmap spec) :
    HoldsMap (PciMemory.pciErase hashmap b) (Function.update spec b none) where
  keys k := by
    rw [PciMemory.pciErase]
    rcases eq_or_ne k (hashBucket b) with rfl | hk
    · rw [Function.update_self]
      exact (H.keys _).sublist (List.eraseP_sublist.map _)
    · rw [Function.update_of_ne hk]
      exact H.keys k
  find c := by
    rw [PciMemory.pciErase]
    rcases eq_or_ne c b with rfl | hc
    · rw [Function.update_self, Function.update_self, find?_eraseP_same (H.keys _)]
      rfl
    · rw [Function.update_of_ne hc, ← H.find c]
      rcases eq_or_ne (hashBucket c) (hashBucket b) with hk | hk
      · rw [hk, Function.update_self, find?_eraseP_ne hc]
      · rw [Function.update_of_ne hk]

end HoldsMap

/-- The index is a finite map throughout a run exactly when every deletion of the first node of a chain finds
NULL in `prev`. -/
theorem pciRun_finiteMap (heap : CellHeap PciLl) {ops : List PciOp}
    (hvalid : Admits PciOp.step PciOp.Valid ops (pciStart heap)) :
    SafeRun PciOp.step (fun _ _ s' => IsFiniteMap s') ops (pciStart heap) ↔
      Admits PciOp.step PciOp.FindsPrev ops (pciStart heap) := by
  refine safeRun_iff_admits (fun s => ∃ hashmap, s.1.Stores hashmap ∧ HoldsMap hashmap s.2) ?_ ?_ ?_
    hvalid
  · rintro op ⟨m, spec⟩ ⟨hashmap, S, H⟩ hval hcond
    have hfinite : ∀ {m' spec' hashmap'}, PciMemory.Stores m' hashmap' → HoldsMap hashmap' spec' →
        IsFiniteMap (m', spec') := fun S' H' b => by rw [S'.lookup b, H'.lookup b]
    cases op with
    | insert b slot node =>
        have S' := S.insert (b := b) slot.toInt64.toUInt64 hval.2
        rw [slotOf_slot] at S'
        have H' : HoldsMap _ (Function.update spec b (some slot)) := H.insert hval.1
        exact ⟨_, rfl, hfinite S' H', _, S', H'⟩
    | delete b prev =>
        have hpresent : ((hashmap (hashBucket b)).find? (·.1 == b)).isSome := by
          rw [H.find b, Option.isSome_map, Option.isSome_iff_ne_none]
          exact hval
        obtain ⟨m', hm', S'⟩ := S.delete hpresent hcond
        refine ⟨(m', Function.update spec b none), ?_, hfinite S' H.erase, _, S', H.erase⟩
        rw [PciOp.step, hm', Option.map_some]
  · rintro op ⟨m, spec⟩ ⟨hashmap, S, H⟩ hval hcond s' hs' hmap
    cases op with
    | insert b slot node => exact hcond trivial
    | delete b prev =>
        obtain ⟨hhead, hprev⟩ := Classical.not_imp.mp hcond
        obtain ⟨q, rfl⟩ := Option.ne_none_iff_exists'.mp hprev
        obtain ⟨m', hm', rfl⟩ := Option.map_eq_some_iff.mp hs'
        have hnone := S.delete_head hhead hm'
        have hsome := hmap b
        rw [hnone] at hsome
        cases hsome
  · exact ⟨fun _ => [], ⟨fun k => ⟨[], rfl, rfl⟩, fun k e he => absurd he List.not_mem_nil⟩,
      ⟨fun k => List.nodup_nil, fun b => rfl⟩⟩

/-- Two blocks of one bucket: the tail of the chain is deleted with anything in `prev`, then its head. -/
theorem pciRun_finiteMap_2 : SafeRun PciOp.step (fun _ _ s' => IsFiniteMap s')
    [.insert 5 0 1, .insert 37 1 2, .delete 5 (some 9), .delete 37 none]
    (pciStart ⟨fun _ => ⟨5, 7, some 3⟩, ∅⟩) := by
  refine (pciRun_finiteMap _ ?_).mpr ?_
  · refine ⟨⟨rfl, by decide⟩, fun s hs => ?_⟩
    obtain rfl := Option.some.inj (show some _ = some s from hs)
    refine ⟨⟨rfl, by decide⟩, fun s hs => ?_⟩
    obtain rfl := Option.some.inj (show some _ = some s from hs)
    refine ⟨Option.some_ne_none (0 : Int32), fun s hs => ?_⟩
    obtain rfl := Option.some.inj (show some _ = some s from hs)
    exact ⟨Option.some_ne_none (1 : Int32), fun _ _ => trivial⟩
  · refine ⟨trivial, fun s hs => ?_⟩
    obtain rfl := Option.some.inj (show some _ = some s from hs)
    refine ⟨trivial, fun s hs => ?_⟩
    obtain rfl := Option.some.inj (show some _ = some s from hs)
    refine ⟨?_, fun s hs => ?_⟩
    · rintro ⟨node, hnode, hb⟩
      obtain rfl := Option.some.inj (show some _ = some node from hnode)
      cases hb
    · obtain rfl := Option.some.inj (show some _ = some s from hs)
      exact ⟨fun _ => rfl, fun _ _ => trivial⟩

/-- A block is inserted and deleted again, with a leftover in `prev`. -/
theorem not_pciRun_finiteMap : ¬∀ (heap : CellHeap PciLl) (ops : List PciOp),
    Admits PciOp.step PciOp.Valid ops (pciStart heap) →
    SafeRun PciOp.step (fun _ _ s' => IsFiniteMap s') ops (pciStart heap) := by
  intro h
  have hvalid : Admits PciOp.step PciOp.Valid [.insert 5 0 1, .delete 5 (some 9)]
      (pciStart ⟨fun _ => ⟨5, 7, some 3⟩, ∅⟩) := by
    refine ⟨⟨rfl, by decide⟩, fun s hs => ?_⟩
    obtain rfl := Option.some.inj (show some _ = some s from hs)
    exact ⟨Option.some_ne_none (0 : Int32), fun _ _ => trivial⟩
  obtain ⟨s, hs, -, s', hs', -⟩ := h _ _ hvalid
  obtain rfl := Option.some.inj (show some _ = some s from hs)
  cases (show none = some s' from hs')

end Nbtrfs
