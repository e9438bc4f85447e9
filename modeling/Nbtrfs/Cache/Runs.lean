import Nbtrfs.Cache.Steps

/-!
# Runs of cache calls

Reference: `cache.c`, `lru.c`, `pci.c`, `gdl.c`.

Every run of `get_block`, `write_block`, `cache_fsync` and `cache_sync` in which no call has to evict
a block keeps the cache in order: the ring of recently used slots, the free list and the index agree
(`cacheRun_ringSound`), `get_block` returns what was written last (`cacheRun_returnsLatest`), and
`cache_sync` brings it to the device (`cacheSync_durable`). A call that evicts does not come back:
`lru_pop` clears the `prev` link of the head, and the `lru_push` that follows dereferences it.
-/

namespace Nbtrfs

variable {disk : DiskInterface}

/-- A call that does not evict, does not load a block from outside the device, and meets no counter
that overflows and no `next` field that `dl_push` left unset. -/
def CacheOp.Fits (disk : DiskInterface) : CacheOp → CachedDisk × CacheSpec → Prop
  | .get _ p, s => HasRoom disk p s.1.cache
  | .write buf i p leftover, s => HasRoom disk p s.1.cache ∧ s.1.cache.gdl.size < intMax ∧
      (blockType buf = BlockType.data.code → dlChain s.1.cache.dirtyList i = .null →
        leftover = .null)
  | .fsync _, _ => True
  | .sync, _ => True

/-- The cache is in order and its ring lists the blocks as the specification does. -/
def InOrder (disk : DiskInterface) (s : CachedDisk × CacheSpec) (L G : List (ℕ × ℤ)) : Prop :=
  Bookkept disk s.1.cache L G ∧ ringBlocks s.1.cache L = s.2.recency

theorem inOrder_cacheStart {cacheSize : ℕ} (hlimit : (cacheSize : ℤ) ≤ intMax)
    (unset : ℤ → CacheEntry) (m : Image) : InOrder disk (cacheStart cacheSize unset m) [] [] :=
  ⟨bookkept_allocCache hlimit unset, rfl⟩

/-- Slots that hold the same blocks list the same blocks. -/
theorem WroteBack.ringBlocks {L : List (ℕ × ℤ)} {s s' : CachedDisk} (h : WroteBack disk L s s') :
    ringBlocks s'.cache L = Nbtrfs.ringBlocks s.cache L :=
  List.map_congr_left fun e _ => h.block e.2

/-- One call: it goes through, keeps the cache in order, and keeps the contents in step with the
specification when the block is one the device has. -/
theorem CacheOp.step_inOrder {op : CacheOp} {s : CachedDisk × CacheSpec} {L G : List (ℕ × ℤ)}
    (h : InOrder disk s L G) (hop : op.Fits disk s) :
    ∃ s' L' G', op.step disk s = some s' ∧ InOrder disk s' L' G' ∧
      s'.1.cache.cacheSize = s.1.cache.cacheSize ∧
      ((∀ p ∈ op.block, p.toNat < disk.addressable) → Contents disk s.1 L s.2.content →
        Contents disk s'.1 L' s'.2.content) := by
  obtain ⟨hbook, hrec⟩ := h
  obtain ⟨t, a⟩ := s
  cases op with
  | get i p =>
      obtain ⟨e, t', L', hrun, -, -, hbook', hkept, hblocks⟩ := hbook.get i hop
      refine ⟨(t', a.step (.get i p)), L', G, ?_, ⟨hbook', ?_⟩, hkept.cacheSize, fun hp hc => ?_⟩
      · simp only [CacheOp.step, CacheOp.run, hrun, Option.map_some]
      · rw [hblocks, hrec]
        rfl
      · exact hkept.contents (hp p rfl) _ hc
  | write buf i p leftover =>
      obtain ⟨hroom, hsize, hleft⟩ := hop
      obtain ⟨e, t₁, L', hobtain, he, hp, hbook₁, hkept, hblocks⟩ :=
        hbook.obtain hroom buf i leftover
      obtain ⟨m₁, c₁⟩ := t₁
      obtain ⟨a', r, dl, hrun, -, hbook'⟩ := hbook₁.writeEntry (m := m₁) buf i leftover
        he hp (by
          have hgdl : c₁.gdl = t.cache.gdl := hkept.gdl
          rw [hgdl]
          exact hsize.ne) (by
          have hdl : c₁.dirtyList = t.cache.dirtyList := hkept.dirtyList
          rw [hdl]
          exact hleft)
      refine ⟨(⟨m₁, { c₁ with gdl := r, dirtyList := dl, cache := written c₁.cache e.2 buf a' }⟩,
        a.step (.write buf i p leftover)), L', (a', e.2) :: G, ?_, ⟨hbook', ?_⟩, hkept.cacheSize,
        fun hp' hc => ?_⟩
      · simp only [CacheOp.step, CacheOp.run, hobtain, hrun, Option.map_some]
      · show Nbtrfs.ringBlocks _ L' = CacheSpec.obtainNew p a.recency
        rw [← hrec, ← hblocks]
        exact List.map_congr_left fun e' _ => written_blockNumber _ _ _ _ _
      · have hc₁ := hkept.contents (hp' p rfl) _ hc
        have hc' := hc₁.written hbook₁.toResident he (d := { c₁ with
          gdl := r, dirtyList := dl, cache := written c₁.cache e.2 buf a' }) rfl
        have hblock : (c₁.cache e.2).blockNumber = p := hp
        rw [hblock] at hc'
        exact hc'
  | fsync i =>
      obtain ⟨t', G', hrun, hbook', hwrote, -⟩ := hbook.fsync i
      refine ⟨(t', a), L, G', ?_, ⟨hbook', hwrote.ringBlocks.trans hrec⟩, hwrote.cacheSize,
        fun _ hc => hwrote.contents _ hc⟩
      simp only [CacheOp.step, CacheOp.run, hrun, Option.map_some, CacheSpec.step]
  | sync =>
      obtain ⟨t', hrun, hbook', hwrote, -⟩ := hbook.sync
      refine ⟨(t', a), L, [], ?_, ⟨hbook', hwrote.ringBlocks.trans hrec⟩, hwrote.cacheSize,
        fun _ hc => hwrote.contents _ hc⟩
      simp only [CacheOp.step, CacheOp.run, hrun, Option.map_some, CacheSpec.step]

/-! ## The ring, the free list and the index -/

/-- The bookkeeping of the slots: `L` is the ring, node addresses with slots, from the most recently
obtained block to the least recently obtained one. -/
structure RingSound (c : Cache) (recency : List UInt64) (L : List (ℕ × ℤ)) : Prop where
  /-- a circular doubly linked list of `lru_size` nodes -/
  ring : IsRing c.lru L
  /-- every slot is in the ring or in the free list, exactly once -/
  once : (L.map Prod.snd ++ c.freeList).Perm ((List.range c.cacheSize).map Int.ofNat)
  /-- the ring is in the order in which the blocks were obtained -/
  order : ringBlocks c L = recency
  /-- the index maps a block to a slot exactly when the slot is in the ring and holds the block -/
  index : ∀ b i, 0 ≤ i →
    (pciLookup c.pci b = i ↔ ∃ e ∈ L, e.2 = i ∧ (c.cache i).blockNumber = b)
  /-- every slot of the ring knows its own node -/
  pos : ∀ e ∈ L, (c.cache e.2).lruPos = some e.1
  /-- the slot that an eviction takes is that of the least recently obtained block -/
  victim : ∀ xs e, L = xs ++ [e] → ∃ head c', c.lru.head = some head ∧
    c.lruPop (.prevOf head) = some (e.2, c')

/-- The order in which the cache keeps its slots is that of the calls. -/
theorem InOrder.ringSound {s : CachedDisk × CacheSpec} {L G : List (ℕ × ℤ)}
    (h : InOrder disk s L G) : RingSound s.1.cache s.2.recency L := by
  obtain ⟨hbook, hrec⟩ := h
  refine ⟨hbook.ring, hbook.slots, hrec, fun b i h0 => ?_, hbook.lruPos, fun xs e hL => ?_⟩
  · constructor
    · rintro rfl
      obtain ⟨e, he, rfl⟩ := hbook.miss b (by omega)
      exact ⟨e, he, (hbook.hit e he).symm, by rw [hbook.hit e he]⟩
    · rintro ⟨e, he, rfl, rfl⟩
      exact hbook.hit e he
  · subst hL
    obtain ⟨head, r, hhead, hpop⟩ := hbook.ring.pop_prevOf
    refine ⟨head, { s.1.cache with lru := r }, hhead, ?_⟩
    simp only [Cache.lruPop, hpop, Option.map_some, Option.getD_some]

/-- In a run whose calls never evict, the bookkeeping of the slots is right after every call. -/
theorem cacheRun_ringSound (disk : DiskInterface) {cacheSize : ℕ}
    (hlimit : (cacheSize : ℤ) ≤ intMax) (unset : ℤ → CacheEntry) (m : Image) {ops : List CacheOp}
    (hadm : Admits (CacheOp.step disk) (CacheOp.Fits disk) ops (cacheStart cacheSize unset m)) :
    SafeRun (CacheOp.step disk) (fun _ _ s' => ∃ L, RingSound s'.1.cache s'.2.recency L) ops
      (cacheStart cacheSize unset m) := by
  refine SafeRun.of_invariant (fun s => ∃ L G, InOrder disk s L G) ?_
    ⟨[], [], inOrder_cacheStart hlimit unset m⟩ hadm
  rintro op s ⟨L, G, h⟩ hop
  obtain ⟨s', L', G', hs', h', -⟩ := op.step_inOrder h hop
  exact ⟨s', hs', ⟨L', h'.ringSound⟩, L', G', h'⟩

/-- Three slots: three blocks are loaded, the oldest of them is written, and obtained again. -/
theorem cacheRun_ringSound_3 : SafeRun (CacheOp.step ⟨256, by decide⟩)
    (fun _ _ s' => ∃ L, RingSound s'.1.cache s'.2.recency L)
    [.get 0 200, .get 0 201, .get 3 202, .write (fun _ => 1) 7 200 .garbage, .get 0 201]
    (cacheStart 3 (fun _ => ⟨true, 0, 9, 0, none, none, some 4⟩) fun _ _ => 0) := by
  refine cacheRun_ringSound _ (by decide) _ _ ?_
  refine Admits.cons rfl (Or.inr ⟨by decide, by decide⟩) ?_
  refine Admits.cons rfl (Or.inr ⟨by decide, by decide⟩) ?_
  refine Admits.cons rfl (Or.inr ⟨by decide, by decide⟩) ?_
  refine Admits.cons rfl ⟨Or.inl (by decide), by decide, fun htype => absurd htype (by decide)⟩ ?_
  exact ⟨Or.inl (by decide), fun _ _ => trivial⟩

/-- Once the slots are used up the next load evicts, and `lru_push` then follows the link that
`lru_pop` cleared. Blocks 0, 32 and 64 share a bucket, so `pci_delete` itself is well defined. -/
theorem not_cacheRun_ringSound : ¬∀ (disk : DiskInterface) (cacheSize : ℕ)
    (unset : ℤ → CacheEntry) (m : Image) (ops : List CacheOp), 1 ≤ cacheSize →
    (cacheSize : ℤ) ≤ intMax →
    (∀ op ∈ ops, ∀ p ∈ op.block, p.toNat < disk.totalBlocks.toNat) →
    SafeRun (CacheOp.step disk) (fun _ _ s' => ∃ L, RingSound s'.1.cache s'.2.recency L) ops
      (cacheStart cacheSize unset m) := by
  intro h
  have hrun := h ⟨256, by decide⟩ 3 (fun _ => ⟨false, 0, 0, 0, none, none, none⟩) (fun _ _ => 0)
    [.get 0 0, .get 0 32, .get 0 64, .get 0 1] (by decide) (by decide) (by simp [CacheOp.block])
  exact hrun.ne_none rfl

/-! ## The content that `get_block` returns -/

/-- A `get_block` returns a page with the latest content of its block. -/
def ReturnsLatest (disk : DiskInterface) (op : CacheOp) (s : CachedDisk × CacheSpec) : Prop :=
  ∀ i p, op = .get i p → ∃ index t, getBlock disk i p s.1 = some (index, t) ∧
    (t.cache.cache index).pageData = some (s.2.content p)

/-- The block of a call is one that the address arithmetic of `disk_get_block` reaches. -/
def CacheOp.Reaches (disk : DiskInterface) (op : CacheOp) : Prop :=
  ∀ p ∈ op.block, p.toNat < disk.addressable

theorem CacheOp.reaches_of_block {op : CacheOp} {p : UInt64} (h : op.block = some p)
    (hp : p.toNat < disk.addressable) : op.Reaches disk := by
  intro q hq
  obtain rfl : p = q := Option.some.inj (h.symm.trans hq)
  exact hp

theorem CacheOp.reaches_of_no_block {op : CacheOp} (h : op.block = none) : op.Reaches disk := by
  intro q hq
  cases h.symm.trans hq

/-- In a run whose calls never evict and name blocks below `2 ^ 19` only, no call goes wrong and
`get_block` always returns the latest content. -/
theorem cacheRun_returnsLatest (disk : DiskInterface) {cacheSize : ℕ}
    (hlimit : (cacheSize : ℤ) ≤ intMax) (unset : ℤ → CacheEntry) (m : Image) {ops : List CacheOp}
    (hadm : Admits (CacheOp.step disk) (fun op s => op.Fits disk s ∧ op.Reaches disk) ops
      (cacheStart cacheSize unset m)) :
    SafeRun (CacheOp.step disk) (fun op s _ => ReturnsLatest disk op s) ops
      (cacheStart cacheSize unset m) := by
  refine SafeRun.of_invariant
    (fun s => ∃ L G, InOrder disk s L G ∧ Contents disk s.1 L s.2.content) ?_
    ⟨[], [], inOrder_cacheStart hlimit unset m, contents_cacheStart disk cacheSize unset m⟩ hadm
  rintro op s ⟨L, G, h, hc⟩ ⟨hop, hreach⟩
  obtain ⟨s', L', G', hs', h', -, hc'⟩ := op.step_inOrder h hop
  refine ⟨s', hs', ?_, L', G', h', hc' hreach hc⟩
  rintro i p rfl
  obtain ⟨e, t, L₁, hrun, he, hp, hbook, hkept, -⟩ := h.1.get i hop
  refine ⟨e.2, t, hrun, ?_⟩
  have hpage := (hkept.contents (hreach p rfl) _ hc).page e he
  rwa [hp] at hpage

/-- Two slots, a block that is written and read back. -/
theorem cacheRun_returnsLatest_2 : SafeRun (CacheOp.step ⟨64, by decide⟩)
    (fun op s _ => ReturnsLatest ⟨64, by decide⟩ op s) [.write (fun _ => 0) 1 5 .null, .get 1 5]
    (cacheStart 2 (fun _ => ⟨false, 0, 0, 0, none, none, none⟩) fun _ _ => 7) := by
  refine cacheRun_returnsLatest _ (by decide) _ _
    ⟨⟨⟨Or.inr ⟨by decide, by decide⟩, by decide, fun _ _ => rfl⟩,
      CacheOp.reaches_of_block rfl (by decide)⟩, fun s hs => ?_⟩
  obtain rfl := Option.some.inj (show some _ = some s from hs)
  exact ⟨⟨Or.inl (by decide), CacheOp.reaches_of_block rfl (by decide)⟩, fun _ _ => trivial⟩

/-- With two slots the third block ends in a NULL dereference. -/
theorem not_cacheRun_returnsLatest : ¬∀ (disk : DiskInterface) (cacheSize : ℕ)
    (unset : ℤ → CacheEntry) (m : Image) (ops : List CacheOp), 1 ≤ cacheSize →
    (cacheSize : ℤ) ≤ intMax →
    (∀ op ∈ ops, ∀ p ∈ op.block, p.toNat < disk.totalBlocks.toNat) →
    SafeRun (CacheOp.step disk) (fun op s _ => ReturnsLatest disk op s) ops
      (cacheStart cacheSize unset m) := by
  intro h
  have hrun := h ⟨64, by decide⟩ 2 (fun _ => ⟨false, 0, 0, 0, none, none, none⟩) (fun _ _ => 0)
    [.get 0 0, .get 0 32, .get 0 1] (by decide) (by decide) (by simp [CacheOp.block])
  exact hrun.ne_none rfl

/-! ## Durability -/

/-- The distinct blocks that a run touches. -/
def touchedBlocks (ops : List CacheOp) : Finset UInt64 := (ops.filterMap CacheOp.block).toFinset

/-- The blocks in the ring are among those touched, so a block that is touched next finds a slot. -/
theorem InOrder.hasRoom {s : CachedDisk × CacheSpec} {L G : List (ℕ × ℤ)} (h : InOrder disk s L G)
    {T : Finset UInt64} (hT : ∀ p ∈ s.2.recency, p ∈ T) (hcard : T.card ≤ s.1.cache.cacheSize)
    {p : UInt64} (hp : p ∈ T) (hreach : disk.diskGetBlock p ≠ none) :
    HasRoom disk p s.1.cache := by
  by_cases hmem : p ∈ ringBlocks s.1.cache L
  · exact Or.inl (h.1.lookup_iff.mpr hmem)
  · refine Or.inr ⟨fun hfree => ?_, hreach⟩
    have hlen := h.1.length_add
    rw [hfree, List.length_nil, Nat.add_zero] at hlen
    have hnodup : (p :: ringBlocks s.1.cache L).Nodup := List.nodup_cons.mpr ⟨hmem, h.1.blocks⟩
    have hsub : (p :: ringBlocks s.1.cache L).toFinset ⊆ T := by
      intro q hq
      rcases List.mem_cons.mp (List.mem_toFinset.mp hq) with rfl | hq
      · exact hp
      · exact hT q (h.2 ▸ hq)
    have hle := Finset.card_le_card hsub
    rw [List.toFinset_card_of_nodup hnodup, List.length_cons, ringBlocks, List.length_map] at hle
    omega

theorem DiskInterface.diskGetBlock_ne_none {p : UInt64} (hp : p.toNat < disk.addressable) :
    disk.diskGetBlock p ≠ none := by
  have haddr : disk.diskGetBlock p = some p.toNat := DiskInterface.mapping_exactTo p hp
  rw [haddr]
  exact Option.some_ne_none _

/-- The blocks obtained by a call are those obtained before and the one it names. -/
theorem CacheSpec.mem_recency_step {op : CacheOp} {a : CacheSpec} {p : UInt64}
    (hp : p ∈ (a.step op).recency) : p ∈ a.recency ∨ op.block = some p := by
  have hobtain : ∀ q, p ∈ CacheSpec.obtain q a.recency → p ∈ a.recency ∨ some q = some p := by
    intro q hq
    rcases List.mem_cons.mp hq with rfl | hq
    · exact Or.inr rfl
    · exact Or.inl (List.mem_of_mem_erase hq)
  cases op with
  | get i q => exact hobtain q hp
  | write buf i q leftover =>
      simp only [CacheSpec.step, CacheSpec.obtainNew] at hp
      split at hp
      · exact Or.inl hp
      · exact hobtain q hp
  | fsync i => exact Or.inl hp
  | sync => exact Or.inl hp

/-- A call of a run before the final `cache_sync`: it is not itself a `cache_sync`, and `dl_push`
finds a null pointer in the field it leaves unset. -/
def CacheOp.BeforeSync : CacheOp → Prop
  | .write _ _ _ leftover => leftover = .null
  | .sync => False
  | _ => True

/-- The global dirty list has room for the node that a write adds to it. -/
def CacheOp.Counts (op : CacheOp) (s : CachedDisk × CacheSpec) : Prop :=
  ∀ buf i p leftover, op = .write buf i p leftover → s.1.cache.gdl.size < intMax

/-- After a run that touches no more blocks than the cache has slots, `cache_sync` terminates, leaves
nothing dirty and the global list empty, and the device holds the latest content of every block. -/
theorem cacheSync_durable (disk : DiskInterface) {cacheSize : ℕ}
    (hlimit : (cacheSize : ℤ) ≤ intMax) (unset : ℤ → CacheEntry) (m : Image) {ops : List CacheOp}
    (hops : ∀ op ∈ ops, op.BeforeSync) (hcard : (touchedBlocks ops).card ≤ cacheSize)
    (hadm : Admits (CacheOp.step disk) (fun op s => op.Counts s ∧ op.Reaches disk) ops
      (cacheStart cacheSize unset m)) :
    ∃ s, runAll (CacheOp.step disk) ops (cacheStart cacheSize unset m) = some s ∧
      ∃ s', cacheSync disk s.1 = some s' ∧ s'.cache.gdl.size = 0 ∧ s'.cache.gdl.head = none ∧
        (∀ i : ℤ, 0 ≤ i → i < cacheSize → (s'.cache.cache i).dirtyBit = false) ∧
        ∀ p : UInt64, s'.image p.toNat = s.2.content p := by
  have hmem : Admits (CacheOp.step disk)
      (fun op _ => op.BeforeSync ∧ ∀ p ∈ op.block, p ∈ touchedBlocks ops) ops
      (cacheStart cacheSize unset m) := by
    refine Admits.of_forall fun op hop _ => ⟨hops op hop, fun p hp => ?_⟩
    exact List.mem_toFinset.mpr (List.mem_filterMap.mpr ⟨op, hop, hp⟩)
  -- the blocks in the ring are among those the whole run touches
  have hrun : SafeRun (CacheOp.step disk) (fun _ _ s' => ∃ L G, InOrder disk s' L G ∧
      Contents disk s'.1 L s'.2.content ∧ s'.1.cache.cacheSize = cacheSize ∧
      ∀ p ∈ s'.2.recency, p ∈ touchedBlocks ops) ops (cacheStart cacheSize unset m) := by
    refine SafeRun.of_invariant (fun s => ∃ L G, InOrder disk s L G ∧
      Contents disk s.1 L s.2.content ∧ s.1.cache.cacheSize = cacheSize ∧
      ∀ p ∈ s.2.recency, p ∈ touchedBlocks ops) ?_
      ⟨[], [], inOrder_cacheStart hlimit unset m, contents_cacheStart disk cacheSize unset m, rfl,
        fun p hp => nomatch hp⟩ (hadm.and hmem)
    rintro op s ⟨L, G, h, hc, hsize, hT⟩ ⟨⟨hcount, hreach⟩, hbefore, htouched⟩
    have hroom : ∀ p ∈ op.block, HasRoom disk p s.1.cache := fun p hp =>
      h.hasRoom hT (hsize ▸ hcard) (htouched p hp) (DiskInterface.diskGetBlock_ne_none (hreach p hp))
    have hfits : op.Fits disk s := by
      cases op with
      | get i p => exact hroom p rfl
      | write buf i p leftover => exact ⟨hroom p rfl, hcount _ _ _ _ rfl, fun _ _ => hbefore⟩
      | fsync i => trivial
      | sync => trivial
    obtain ⟨s', L', G', hs', h', hsize', hc'⟩ := op.step_inOrder h hfits
    have hinv : ∃ L G, InOrder disk s' L G ∧ Contents disk s'.1 L s'.2.content ∧
        s'.1.cache.cacheSize = cacheSize ∧ ∀ p ∈ s'.2.recency, p ∈ touchedBlocks ops := by
      refine ⟨L', G', h', hc' hreach hc, hsize'.trans hsize, fun p hp => ?_⟩
      obtain ⟨t, ht, rfl⟩ := Option.map_eq_some_iff.mp hs'
      rcases CacheSpec.mem_recency_step hp with hp | hp
      · exact hT p hp
      · exact htouched p hp
    exact ⟨s', hs', hinv, hinv⟩
  obtain ⟨s, hs, L, G, h, hc, hsize, -⟩ := hrun.last
    ⟨[], [], inOrder_cacheStart hlimit unset m, contents_cacheStart disk cacheSize unset m, rfl,
      fun p hp => nomatch hp⟩
  obtain ⟨s', hs', hbook, hwrote, -⟩ := h.1.sync
  have hclean : ∀ i : ℤ, 0 ≤ i → i < cacheSize → (s'.cache.cache i).dirtyBit = false :=
    fun i h0 h1 => hbook.clean h0 (by rwa [hwrote.cacheSize, hsize])
  refine ⟨s, hs, s', hs', hbook.gdlRing.size, hbook.gdlRing.head, hclean, fun p => ?_⟩
  refine (hwrote.contents _ hc).clean p fun e he _ => ?_
  obtain ⟨h0, h1, -⟩ := hbook.index_of_mem he
  exact hbook.clean h0 h1

/-- One slot, one block that is written twice and flushed once in between. -/
theorem cacheSync_durable_1 :
    ∃ s, runAll (CacheOp.step ⟨64, by decide⟩)
        [.write (fun _ => 0) 1 5 .null, .fsync 1, .write (fun _ => 2) 1 5 .null]
        (cacheStart 1 (fun _ => ⟨false, 0, 0, 0, none, none, none⟩) fun _ _ => 7) = some s ∧
      ∃ s', cacheSync ⟨64, by decide⟩ s.1 = some s' ∧ s'.cache.gdl.size = 0 ∧
        s'.cache.gdl.head = none ∧
        (∀ i : ℤ, 0 ≤ i → i < (1 : ℕ) → (s'.cache.cache i).dirtyBit = false) ∧
        ∀ p : UInt64, s'.image p.toNat = s.2.content p := by
  have hcounts : ∀ {op : CacheOp} {s : CachedDisk × CacheSpec}, s.1.cache.gdl.size < intMax →
      op.Counts s := fun h _ _ _ _ _ => h
  have hbefore : ∀ op ∈ [CacheOp.write (fun _ => 0) 1 5 .null, .fsync 1,
      .write (fun _ => 2) 1 5 .null], op.BeforeSync := by
    simp [CacheOp.BeforeSync]
  refine cacheSync_durable _ (by decide) _ _ hbefore (by decide)
    ⟨⟨hcounts (by decide), CacheOp.reaches_of_block rfl (by decide)⟩, fun s hs => ?_⟩
  obtain rfl := Option.some.inj (show some _ = some s from hs)
  refine ⟨⟨hcounts (by decide), CacheOp.reaches_of_no_block rfl⟩, fun s hs => ?_⟩
  obtain rfl := Option.some.inj (show some _ = some s from hs)
  exact ⟨⟨hcounts (by decide), CacheOp.reaches_of_block rfl (by decide)⟩, fun _ _ => trivial⟩

/-- On a device of more than `2 ^ 19` blocks the byte offset of block `2 ^ 19` overflows its `int`,
and already the `get_block` before the `cache_sync` faults. -/
theorem not_cacheSync_durable : ¬∀ (disk : DiskInterface) (cacheSize : ℕ)
    (unset : ℤ → CacheEntry) (m : Image) (ops : List CacheOp), 1 ≤ cacheSize →
    (cacheSize : ℤ) ≤ intMax →
    (∀ op ∈ ops, op.BeforeSync ∧ ∀ p ∈ op.block, p.toNat < disk.totalBlocks.toNat) →
    (touchedBlocks ops).card ≤ cacheSize →
    ∃ s, runAll (CacheOp.step disk) ops (cacheStart cacheSize unset m) = some s ∧
      ∃ s', cacheSync disk s.1 = some s' ∧ s'.cache.gdl.size = 0 ∧ s'.cache.gdl.head = none ∧
        (∀ i : ℤ, 0 ≤ i → i < cacheSize → (s'.cache.cache i).dirtyBit = false) ∧
        ∀ p : UInt64, p.toNat < disk.totalBlocks.toNat → s'.image p.toNat = s.2.content p := by
  intro h
  obtain ⟨s, hs, -⟩ := h ⟨524289, by decide⟩ 1 (fun _ => ⟨false, 0, 0, 0, none, none, none⟩)
    (fun _ _ => 0) [.get 0 524288] (by decide) (by decide)
    (by simp [CacheOp.BeforeSync, CacheOp.block]) (by decide)
  have hnone : runAll (CacheOp.step ⟨524289, by decide⟩) [.get 0 524288]
      (cacheStart 1 (fun _ => ⟨false, 0, 0, 0, none, none, none⟩) fun _ _ => 0) = none := rfl
  rw [hnone] at hs
  cases hs

end Nbtrfs
