import Nbtrfs.Cache.Runs

/-!
# The ring of dirty slots

Reference: `cache.c`, `gdl.c`.

`write_block` pushes a node without looking whether the slot has one. As long as every write finds its
block in a clean slot, or loads it, the ring has one node for each dirty slot, and so never more than
the cache has slots. A write to a dirty slot leaves a second node for it, and the position of the first
one is lost.
-/

namespace Nbtrfs

variable {disk : DiskInterface}

/-- The nodes `G` are the ring of `gdl.c`: one for each dirty slot, at its `gdl_pos`, and none for any
other slot. -/
structure GdlSound (c : Cache) (G : List (ℕ × ℤ)) : Prop where
  /-- a circular doubly linked list of `gdl_size` nodes -/
  ring : IsRing c.gdl G
  once : (G.map Prod.snd).Nodup
  slot : ∀ g ∈ G, 0 ≤ g.2 ∧ g.2 < c.cacheSize ∧ (c.cache g.2).dirtyBit = true
  pos : ∀ i : ℤ, 0 ≤ i → i < c.cacheSize → (c.cache i).dirtyBit = true →
    ∃ a, (c.cache i).gdlPos = some a ∧ (a, i) ∈ G

/-- A write finds its block in a clean slot, or in none. -/
def CacheOp.OnClean (op : CacheOp) (s : CachedDisk × CacheSpec) : Prop :=
  ∀ buf i p leftover, op = .write buf i p leftover → pciLookup s.1.cache.pci p ≠ -1 →
    (s.1.cache.cache (pciLookup s.1.cache.pci p)).dirtyBit = false

/-- The block of a call is on the device. -/
def CacheOp.OnDevice (disk : DiskInterface) (op : CacheOp) : Prop :=
  ∀ p ∈ op.block, disk.diskGetBlock p ≠ none

/-- A write that starts the dirty list of an inode finds a null pointer in the field that `dl_push`
leaves unset. -/
def CacheOp.EndsList (op : CacheOp) (s : CachedDisk × CacheSpec) : Prop :=
  ∀ buf i p leftover, op = .write buf i p leftover → blockType buf = BlockType.data.code →
    dlChain s.1.cache.dirtyList i = .null → leftover = .null

variable {c : Cache} {s : CachedDisk × CacheSpec} {L G : List (ℕ × ℤ)}

/-- Nodes of different slots are at most as many as the slots. -/
theorem length_le_cacheSize (hnodup : (G.map Prod.snd).Nodup)
    (hslot : ∀ g ∈ G, 0 ≤ g.2 ∧ g.2 < c.cacheSize) : G.length ≤ c.cacheSize := by
  have hsub : G.map Prod.snd ⊆ (List.range c.cacheSize).map Int.ofNat := by
    intro i hi
    obtain ⟨g, hg, rfl⟩ := List.mem_map.mp hi
    obtain ⟨h0, h1⟩ := hslot g hg
    exact List.mem_map.mpr ⟨g.2.toNat, List.mem_range.mpr (by omega), Int.toNat_of_nonneg h0⟩
  have hle := (hnodup.subperm hsub).length_le
  rwa [List.length_map, List.length_map, List.length_range] at hle

/-- The ring has at most as many nodes as the cache has slots. -/
theorem GdlSound.size_le (h : GdlSound c G) : c.gdl.size ≤ c.cacheSize := by
  have hle := length_le_cacheSize h.once fun g hg => ⟨(h.slot g hg).1, (h.slot g hg).2.1⟩
  rw [h.ring.size]
  exact_mod_cast hle

namespace Bookkept

/-- The bookkeeping gives the ring when its nodes name every slot once. -/
theorem gdlSound (h : Bookkept disk c L G) (honce : NamedOnce c G) : GdlSound c G where
  ring := h.gdlRing
  once := honce.nodup
  slot g hg := by
    obtain ⟨e, he, heq⟩ := h.gdlSlot g hg
    obtain ⟨h0, h1, -⟩ := h.index_of_mem he
    rw [heq] at h0 h1
    exact ⟨h0, h1, honce.dirty g hg⟩
  pos i h0 h1 hd := by
    have hmem : i ∈ L.map Prod.snd ++ c.freeList := h.slots.mem_iff.mpr
      (List.mem_map.mpr ⟨i.toNat, List.mem_range.mpr (by omega), Int.toNat_of_nonneg h0⟩)
    rcases List.mem_append.mp hmem with hL | hfree
    · obtain ⟨e, he, rfl⟩ := List.mem_map.mp hL
      exact h.dirty e he hd
    · rw [h.freeClean i hfree] at hd
      cases hd

/-- The slot in which a block was obtained is dirty exactly when the block was in a dirty slot
before. -/
theorem dirty_iff {p : UInt64} {t t' : CachedDisk} {L' : List (ℕ × ℤ)} {e : ℕ × ℤ}
    (h : Bookkept disk t.cache L G) (h' : Bookkept disk t'.cache L' G)
    (hkept : Kept disk p t L t' L') (he : e ∈ L') (hp : (t'.cache.cache e.2).blockNumber = p) :
    (t'.cache.cache e.2).dirtyBit = true ↔ pciLookup t.cache.pci p ≠ -1 ∧
      (t.cache.cache (pciLookup t.cache.pci p)).dirtyBit = true := by
  constructor
  · intro hd
    rcases hkept.new e he with ⟨e₀, he₀, heq⟩ | hclean
    · have hblock := hkept.block e₀ he₀
      have hdirty := hkept.dirty e₀ he₀
      have hlookup := h.hit e₀ he₀
      rw [← hblock, heq, hp] at hlookup
      rw [heq, hd] at hdirty
      rw [hlookup]
      exact ⟨heq ▸ h.lookup_ne_neg_one he₀, hdirty.symm⟩
    · rw [hclean] at hd
      cases hd
  · rintro ⟨hne, hd⟩
    obtain ⟨e₀, he₀, hp₀⟩ := h.miss p hne
    obtain ⟨e', he', heq⟩ := hkept.old e₀ he₀
    have hee : e' = e := by
      refine h'.eq_of_block he' he ?_
      rw [heq, hkept.block e₀ he₀, hp₀, hp]
    have hlookup := h.hit e₀ he₀
    rw [hp₀] at hlookup
    rw [hlookup] at hd
    rw [← hee, heq, hkept.dirty e₀ he₀, hd]

/-- Nodes that name dirty slots once still do so after a block was obtained. -/
theorem namedOnce_of_kept {p : UInt64} {t t' : CachedDisk} {L' : List (ℕ × ℤ)}
    (h : Bookkept disk t.cache L G) (hkept : Kept disk p t L t' L')
    (honce : NamedOnce t.cache G) : NamedOnce t'.cache G where
  nodup := honce.nodup
  dirty g hg := by
    obtain ⟨e, he, heq⟩ := h.gdlSlot g hg
    have hdirty := hkept.dirty e he
    rw [heq, honce.dirty g hg] at hdirty
    exact hdirty

end Bookkept

/-! ## `write_block` -/

section Write

variable {buf : Bytes} {i p : UInt64} {leftover : Leftover}

theorem writeEntry_of_overflow {t : CachedDisk} (hsize : t.cache.gdl.size = intMax) (index : ℤ) :
    writeEntry buf i p leftover index t = none := by
  simp [writeEntry, Cache.gdlPush, hsize]

/-- A write finds its slot, clean or not as the lookup says, and then adds a node for it, unless the
counter of the ring overflows. -/
theorem InOrder.write (h : InOrder disk s L G) (hroom : HasRoom disk p s.1.cache)
    (hends : (CacheOp.write buf i p leftover).EndsList s) :
    ∃ c L' j, (∃ e ∈ L', e.2 = j) ∧ Bookkept disk c L' G ∧
      c.cacheSize = s.1.cache.cacheSize ∧ c.gdl.size = s.1.cache.gdl.size ∧
      (NamedOnce s.1.cache G → NamedOnce c G) ∧
      ((c.cache j).dirtyBit = false ↔ (CacheOp.write buf i p leftover).OnClean s) ∧
      (c.gdl.size = intMax → (CacheOp.write buf i p leftover).step disk s = none) ∧
      (c.gdl.size < intMax → ∃ s' a, (CacheOp.write buf i p leftover).step disk s = some s' ∧
        InOrder disk s' L' ((a, j) :: G) ∧ s'.1.cache.cacheSize = c.cacheSize ∧
        ∀ k, (s'.1.cache.cache k).dirtyBit = if k = j then true else (c.cache k).dirtyBit) := by
  obtain ⟨e, ⟨m₁, c⟩, L', hobtain, he, hp, hbook, hkept, hblocks⟩ := h.1.obtain hroom buf i leftover
  have hgdl : c.gdl = s.1.cache.gdl := hkept.gdl
  have hdl : c.dirtyList = s.1.cache.dirtyList := hkept.dirtyList
  have hdirty := h.1.dirty_iff hbook hkept he hp
  refine ⟨c, L', e.2, ⟨e, he, rfl⟩, hbook, hkept.cacheSize, by rw [hgdl],
    h.1.namedOnce_of_kept hkept, ?_, fun hsize => ?_, fun hsize => ?_⟩
  · rw [← Bool.not_eq_true, hdirty, not_and]
    constructor
    · rintro hclean _ _ _ _ ⟨rfl, rfl, rfl, rfl⟩ hne
      simpa using hclean hne
    · intro hclean hne
      simpa using hclean buf i p leftover rfl hne
  · have hnone : writeEntry buf i p leftover e.2 ⟨m₁, c⟩ = none := writeEntry_of_overflow hsize e.2
    simp only [CacheOp.step, CacheOp.run, hobtain, hnone, Option.map_none]
  · obtain ⟨a, r, dl, hrun, -, hbook'⟩ := Bookkept.writeEntry (m := m₁) hbook buf i leftover he hp
      hsize.ne fun htype hnull => hends buf i p leftover rfl htype (hdl ▸ hnull)
    refine ⟨(⟨m₁, { c with gdl := r, dirtyList := dl, cache := written c.cache e.2 buf a }⟩,
      s.2.step (.write buf i p leftover)), a, ?_, ⟨hbook', ?_⟩, rfl, fun k => ?_⟩
    · simp only [CacheOp.step, CacheOp.run, hobtain, hrun, Option.map_some]
    · show ringBlocks _ L' = CacheSpec.obtainNew p s.2.recency
      rw [← h.2, ← hblocks]
      exact List.map_congr_left fun e' _ => written_blockNumber _ _ _ _ _
    · show (written c.cache e.2 buf a k).dirtyBit = _
      by_cases hk : k = e.2
      · rw [hk, written_same, if_pos rfl]
      · rw [written_ne _ _ _ _ _ hk, if_neg hk]

/-- A write to a clean slot, or of a block in no slot, goes through and names its slot once. -/
theorem InOrder.write_clean (h : InOrder disk s L G) (honce : NamedOnce s.1.cache G)
    (hroom : HasRoom disk p s.1.cache) (hends : (CacheOp.write buf i p leftover).EndsList s)
    (hclean : (CacheOp.write buf i p leftover).OnClean s) :
    ∃ s' L' G', (CacheOp.write buf i p leftover).step disk s = some s' ∧ InOrder disk s' L' G' ∧
      NamedOnce s'.1.cache G' ∧ s'.1.cache.cacheSize = s.1.cache.cacheSize := by
  obtain ⟨c, L', j, ⟨e, he, rfl⟩, hbook, hcache, -, honce', hdirty, -, hstep⟩ := h.write hroom hends
  have hfresh : e.2 ∉ G.map Prod.snd := by
    intro hmem
    obtain ⟨g, hg, heq⟩ := List.mem_map.mp hmem
    have hd := (honce' honce).dirty g hg
    rw [heq, hdirty.mpr hclean] at hd
    cases hd
  have hnodup : (((0, e.2) :: G).map Prod.snd).Nodup :=
    List.nodup_cons.mpr ⟨hfresh, honce.nodup⟩
  -- the slot of the block has no node yet, so there is room for one
  have hle : ((0, e.2) :: G).length ≤ c.cacheSize := by
    refine length_le_cacheSize hnodup fun g hg => ?_
    rcases List.mem_cons.mp hg with rfl | hg
    · exact ⟨(hbook.index_of_mem he).1, (hbook.index_of_mem he).2.1⟩
    · obtain ⟨e', he', heq⟩ := hbook.gdlSlot g hg
      rw [← heq]
      exact ⟨(hbook.index_of_mem he').1, (hbook.index_of_mem he').2.1⟩
  have hlimit := hbook.limit
  have hsize : c.gdl.size < intMax := by
    rw [hbook.gdlRing.size]
    rw [List.length_cons] at hle
    omega
  obtain ⟨s', a, hs', h', hcache', hbits⟩ := hstep hsize
  refine ⟨s', L', _, hs', h', ⟨hnodup, fun g hg => ?_⟩, hcache'.trans hcache⟩
  rw [hbits]
  split
  next => rfl
  next hne =>
    rcases List.mem_cons.mp hg with rfl | hg
    · exact absurd rfl hne
    · exact (honce' honce).dirty g hg

/-- A write to a dirty slot leaves a ring with more nodes than there are dirty slots. -/
theorem InOrder.write_dirty (h : InOrder disk s L G) (honce : NamedOnce s.1.cache G)
    (hroom : HasRoom disk p s.1.cache) (hends : (CacheOp.write buf i p leftover).EndsList s)
    (hnot : ¬(CacheOp.write buf i p leftover).OnClean s) {s' : CachedDisk × CacheSpec}
    (hs' : (CacheOp.write buf i p leftover).step disk s = some s') {G' : List (ℕ × ℤ)} :
    ¬GdlSound s'.1.cache G' := by
  obtain ⟨c, L', j, ⟨e, he, rfl⟩, hbook, -, -, honce', hdirty, hover, hstep⟩ := h.write hroom hends
  intro hsound
  have hle := (hbook.gdlSound (honce' honce)).size_le
  have hlimit := hbook.limit
  have hsize : c.gdl.size < intMax := by
    by_contra hge
    rw [hover (by omega)] at hs'
    cases hs'
  obtain ⟨t, a, ht, h', hcache', hbits⟩ := hstep hsize
  obtain rfl : s' = t := Option.some.inj (hs'.symm.trans ht)
  have hsub : G'.map Prod.snd ⊆ G.map Prod.snd := by
    intro k hk
    obtain ⟨g, hg, rfl⟩ := List.mem_map.mp hk
    obtain ⟨h0, h1, hd⟩ := hsound.slot g hg
    have hd' : (c.cache g.2).dirtyBit = true := by
      rw [hbits] at hd
      split at hd
      next heq =>
        rw [heq, ← Bool.not_eq_false]
        exact hdirty.not.mpr hnot
      next => exact hd
    obtain ⟨a', -, ha'⟩ := (hbook.gdlSound (honce' honce)).pos g.2 h0 (hcache' ▸ h1) hd'
    exact List.mem_map.mpr ⟨(a', g.2), ha', rfl⟩
  have hle := (hsound.once.subperm hsub).length_le
  have hlen : (G'.length : ℤ) = ((a, e.2) :: G).length := hsound.ring.size.symm.trans h'.1.gdlRing.size
  rw [List.length_map, List.length_map] at hle
  rw [List.length_cons] at hlen
  omega

end Write

/-! ## Runs -/

/-- A call that keeps the ring: it names a block of the device, starts no dirty list with an unset
end, and writes to no dirty slot. -/
structure CacheOp.KeepsRing (disk : DiskInterface) (op : CacheOp) (s : CachedDisk × CacheSpec) :
    Prop where
  onDevice : op.OnDevice disk
  endsList : op.EndsList s
  onClean : op.OnClean s

/-- In order, with the ring exact, `n` slots, and no other blocks in the slots than those of `T`. -/
def RingInv (disk : DiskInterface) (T : Finset UInt64) (n : ℕ) (s : CachedDisk × CacheSpec) : Prop :=
  ∃ L G, InOrder disk s L G ∧ NamedOnce s.1.cache G ∧ s.1.cache.cacheSize = n ∧
    ∀ p ∈ s.2.recency, p ∈ T

/-- What the list of all dirty slots owes the cache after every call. -/
def RingExact (n : ℕ) (s : CachedDisk × CacheSpec) : Prop :=
  (∃ G, GdlSound s.1.cache G) ∧ s.1.cache.gdl.size ≤ n

variable {T : Finset UInt64} {n : ℕ} {op : CacheOp}

theorem RingInv.exact (h : RingInv disk T n s) : RingExact n s := by
  obtain ⟨L, G, h, honce, rfl, -⟩ := h
  have hsound := h.1.gdlSound honce
  exact ⟨⟨G, hsound⟩, hsound.size_le⟩

theorem RingInv.hasRoom (h : RingInv disk T n s) (hcard : T.card ≤ n)
    (hop : ∀ p ∈ op.block, p ∈ T) (hdev : op.OnDevice disk) {p : UInt64} (hp : op.block = some p) :
    HasRoom disk p s.1.cache := by
  obtain ⟨L, G, h, -, rfl, hT⟩ := h
  exact h.hasRoom hT hcard (hop p hp) (hdev p hp)

/-- A call that keeps the ring goes through and keeps the invariant. -/
theorem RingInv.step (h : RingInv disk T n s) (hcard : T.card ≤ n) (hop : ∀ p ∈ op.block, p ∈ T)
    (hkeeps : op.KeepsRing disk s) : ∃ s', op.step disk s = some s' ∧ RingInv disk T n s' := by
  have hroom := fun p => h.hasRoom hcard hop hkeeps.onDevice (p := p)
  obtain ⟨L, G, hin, honce, hsize, hT⟩ := h
  have hstep : ∃ s' L' G', op.step disk s = some s' ∧ InOrder disk s' L' G' ∧
      NamedOnce s'.1.cache G' ∧ s'.1.cache.cacheSize = s.1.cache.cacheSize := by
    cases op with
    | write buf i p leftover =>
        exact hin.write_clean honce (hroom p rfl) hkeeps.endsList hkeeps.onClean
    | get i p =>
        obtain ⟨e, t, L', hrun, -, -, hbook, hkept, hblocks⟩ := hin.1.get i (hroom p rfl)
        refine ⟨(t, s.2.step (.get i p)), L', G, ?_, ⟨hbook, ?_⟩,
          hin.1.namedOnce_of_kept hkept honce, hkept.cacheSize⟩
        · simp only [CacheOp.step, CacheOp.run, hrun, Option.map_some]
        · rw [hblocks, hin.2]
          rfl
    | fsync i =>
        obtain ⟨t, G', hrun, hbook, hwrote, -, -, -, -, honce'⟩ := hin.1.fsync i
        refine ⟨(t, s.2), L, G', ?_, ⟨hbook, hwrote.ringBlocks.trans hin.2⟩, honce' honce,
          hwrote.cacheSize⟩
        simp only [CacheOp.step, CacheOp.run, hrun, Option.map_some, CacheSpec.step]
    | sync =>
        obtain ⟨t, hrun, hbook, hwrote, -⟩ := hin.1.sync
        refine ⟨(t, s.2), L, [], ?_, ⟨hbook, hwrote.ringBlocks.trans hin.2⟩,
          ⟨List.nodup_nil, fun g hg => absurd hg List.not_mem_nil⟩, hwrote.cacheSize⟩
        simp only [CacheOp.step, CacheOp.run, hrun, Option.map_some, CacheSpec.step]
  obtain ⟨s', L', G', hs', hin', honce', hcache⟩ := hstep
  refine ⟨s', hs', L', G', hin', honce', hcache.trans hsize, fun p hp => ?_⟩
  obtain ⟨t, -, rfl⟩ := Option.map_eq_some_iff.mp hs'
  rcases CacheSpec.mem_recency_step hp with hp | hp
  · exact hT p hp
  · exact hop p hp

/-- A call that writes to a dirty slot does not leave the ring exact. -/
theorem RingInv.not_exact (h : RingInv disk T n s) (hcard : T.card ≤ n)
    (hop : ∀ p ∈ op.block, p ∈ T) (hdev : op.OnDevice disk) (hends : op.EndsList s)
    (hnot : ¬op.OnClean s) {s' : CachedDisk × CacheSpec} (hs' : op.step disk s = some s') :
    ¬RingExact n s' := by
  have hroom := fun p => h.hasRoom hcard hop hdev (p := p)
  obtain ⟨L, G, hin, honce, -⟩ := h
  rintro ⟨⟨G', hsound⟩, -⟩
  cases op with
  | write buf i p leftover => exact hin.write_dirty honce (hroom p rfl) hends hnot hs' hsound
  | get i p => exact hnot (by rintro _ _ _ _ ⟨⟩)
  | fsync i => exact hnot (by rintro _ _ _ _ ⟨⟩)
  | sync => exact hnot (by rintro _ _ _ _ ⟨⟩)

theorem ringInv_cacheStart {cacheSize : ℕ} (hlimit : (cacheSize : ℤ) ≤ intMax)
    (unset : ℤ → CacheEntry) (m : Image) :
    RingInv disk T cacheSize (cacheStart cacheSize unset m) :=
  ⟨[], [], inOrder_cacheStart hlimit unset m,
    ⟨List.nodup_nil, fun _ hg => absurd hg List.not_mem_nil⟩, rfl,
    fun _ hp => absurd hp List.not_mem_nil⟩

/-- In a run that touches no more blocks than the cache has slots, the ring has one node for each dirty
slot after every call, if no call writes to a dirty slot; and in no other case, when all blocks are on
the device and no dirty list starts with an unset end. -/
theorem cacheRun_ringExact (disk : DiskInterface) {cacheSize : ℕ}
    (hlimit : (cacheSize : ℤ) ≤ intMax) (unset : ℤ → CacheEntry) (m : Image) {ops : List CacheOp}
    (hcard : (touchedBlocks ops).card ≤ cacheSize) :
    (Admits (CacheOp.step disk) (fun op s => op.KeepsRing disk s) ops
        (cacheStart cacheSize unset m) →
      SafeRun (CacheOp.step disk) (fun _ _ s' => RingExact cacheSize s') ops
        (cacheStart cacheSize unset m)) ∧
    (Admits (CacheOp.step disk) (fun op s => op.OnDevice disk ∧ op.EndsList s) ops
        (cacheStart cacheSize unset m) →
      SafeRun (CacheOp.step disk) (fun _ _ s' => RingExact cacheSize s') ops
        (cacheStart cacheSize unset m) →
      Admits (CacheOp.step disk) CacheOp.OnClean ops (cacheStart cacheSize unset m)) := by
  have htouched : Admits (CacheOp.step disk) (fun op _ => ∀ p ∈ op.block, p ∈ touchedBlocks ops)
      ops (cacheStart cacheSize unset m) :=
    Admits.of_forall fun op hop _ p hp =>
      List.mem_toFinset.mpr (List.mem_filterMap.mpr ⟨op, hop, hp⟩)
  have hiff (hadm : Admits (CacheOp.step disk) (fun op s => op.OnDevice disk ∧ op.EndsList s) ops
      (cacheStart cacheSize unset m)) :
      SafeRun (CacheOp.step disk) (fun _ _ s' => RingExact cacheSize s') ops
        (cacheStart cacheSize unset m) ↔
      Admits (CacheOp.step disk) CacheOp.OnClean ops (cacheStart cacheSize unset m) :=
    safeRun_iff_admits (RingInv disk (touchedBlocks ops) cacheSize)
      (fun op s hinv hvalid hclean => by
        obtain ⟨⟨hdev, hends⟩, hop⟩ := hvalid
        obtain ⟨s', hs', hinv'⟩ := hinv.step hcard hop ⟨hdev, hends, hclean⟩
        exact ⟨s', hs', hinv'.exact, hinv'⟩)
      (fun op s hinv hvalid hnot s' hs' =>
        hinv.not_exact hcard hvalid.2 hvalid.1.1 hvalid.1.2 hnot hs')
      (ringInv_cacheStart hlimit unset m) (hadm.and htouched)
  refine ⟨fun hadm => (hiff ?_).mpr ?_, fun hadm => (hiff hadm).mp⟩
  · exact hadm.mono fun op s hop => ⟨hop.onDevice, hop.endsList⟩
  · exact hadm.mono fun op s hop => hop.onClean

/-- One slot, one block that is written twice with a `cache_sync` in between. -/
theorem cacheRun_ringExact_1 : SafeRun (CacheOp.step ⟨64, by decide⟩)
    (fun _ _ s' => RingExact 1 s')
    [.write (fun _ => 0) 1 5 .null, .sync, .write (fun _ => 2) 1 5 .null]
    (cacheStart 1 (fun _ => ⟨false, 0, 0, 0, none, none, none⟩) fun _ _ => 7) := by
  have hdevice : ∀ buf leftover, (CacheOp.write buf 1 5 leftover).OnDevice ⟨64, by decide⟩ := by
    rintro _ _ _ ⟨⟩
    decide
  have hends : ∀ buf s, (CacheOp.write buf 1 5 .null).EndsList s := by
    rintro _ _ _ _ _ _ ⟨⟩ _ _
    rfl
  refine (cacheRun_ringExact _ (by decide) _ _ (by decide)).1
    ⟨⟨hdevice _ _, hends _ _, ?_⟩, fun s hs => ?_⟩
  · rintro _ _ _ _ ⟨⟩ hne
    exact absurd rfl hne
  obtain rfl := Option.some.inj (show some _ = some s from hs)
  refine ⟨⟨?_, ?_, ?_⟩, fun s hs => ?_⟩
  · rintro _ ⟨⟩
  · rintro _ _ _ _ ⟨⟩
  · rintro _ _ _ _ ⟨⟩
  obtain rfl := Option.some.inj (show some _ = some s from hs)
  refine ⟨⟨hdevice _ _, hends _ _, ?_⟩, fun _ _ => trivial⟩
  rintro _ _ _ _ ⟨⟩ -
  decide

/-- One slot, one block that is written twice: its slot has two nodes. -/
theorem not_cacheRun_ringExact : ¬∀ (disk : DiskInterface) (cacheSize : ℕ)
    (unset : ℤ → CacheEntry) (m : Image) (ops : List CacheOp), (cacheSize : ℤ) ≤ intMax →
    (∀ op ∈ ops, op.OnDevice disk) → (touchedBlocks ops).card ≤ cacheSize →
    SafeRun (CacheOp.step disk) (fun _ _ s' => RingExact cacheSize s') ops
      (cacheStart cacheSize unset m) := by
  intro h
  have hrun := h ⟨64, by decide⟩ 1 (fun _ => ⟨false, 0, 0, 0, none, none, none⟩) (fun _ _ => 7)
    [.write (fun _ => 0) 1 5 .null, .write (fun _ => 0) 1 5 .null] (by decide) ?_ (by decide)
  · obtain ⟨s₁, hs₁, -, s₂, hs₂, ⟨-, hsize⟩, -⟩ := hrun
    obtain rfl := Option.some.inj (show some _ = some s₁ from hs₁)
    obtain rfl := Option.some.inj (show some _ = some s₂ from hs₂)
    exact absurd hsize (by decide)
  · intro op hop
    obtain rfl : op = .write (fun _ => 0) 1 5 .null := by simpa using hop
    rintro _ ⟨⟩
    decide

end Nbtrfs
