import Nbtrfs.Cache.Bookkept
import Nbtrfs.Lib.Runs

/-!
# Cache calls and what they are for

Reference: `cache.h`, `cache.c`.

`CacheSpec` is the purpose of the cache: it remembers the content last written to every block, the
order in which blocks were obtained, and the inode under which a block was last written.
`CacheOp.step` runs a call on the cache and on the specification side by side.
-/

namespace Nbtrfs

/-- A call of the cache interface. `leftover` belongs to the node a write may allocate. -/
inductive CacheOp where
  | get (inum pnum : UInt64)
  | write (buf : Bytes) (inum pnum : UInt64) (leftover : Leftover)
  | fsync (inum : UInt64)
  | sync

/-- The block that a call names. -/
def CacheOp.block : CacheOp → Option UInt64
  | get _ p => some p
  | write _ _ p _ => some p
  | fsync _ => none
  | sync => none

/-- The latest content of every block, the blocks obtained so far, most recent first, and the inode
under which a block was last written. -/
structure CacheSpec where
  content : UInt64 → Bytes
  recency : List UInt64
  writer : UInt64 → Option UInt64

namespace CacheSpec

/-- Obtaining a block makes it the most recent one. -/
def obtain (p : UInt64) (recency : List UInt64) : List UInt64 := p :: recency.erase p

/-- `write_block` obtains a block only when the cache does not hold it. -/
def obtainNew (p : UInt64) (recency : List UInt64) : List UInt64 :=
  if p ∈ recency then recency else obtain p recency

def step : CacheOp → CacheSpec → CacheSpec
  | .get _ p, a => { a with recency := obtain p a.recency }
  | .write buf i p _, a =>
      { content := Function.update a.content p buf, recency := obtainNew p a.recency,
        writer := Function.update a.writer p (some i) }
  | .fsync _, a => a
  | .sync, a => a

/-- Before the first call every block has its content on the device. -/
def initial (m : Image) : CacheSpec := ⟨fun p => m p.toNat, [], fun _ => none⟩

end CacheSpec

/-- Run one call on the cache. -/
def CacheOp.run (disk : DiskInterface) : CacheOp → CachedDisk → Option CachedDisk
  | get i p, s => (getBlock disk i p s).map Prod.snd
  | write buf i p leftover, s => writeBlock disk buf i p leftover s
  | fsync i, s => cacheFsync disk i s
  | sync, s => cacheSync disk s

/-- Run one call on the cache and on its specification. -/
def CacheOp.step (disk : DiskInterface) (op : CacheOp) (s : CachedDisk × CacheSpec) :
    Option (CachedDisk × CacheSpec) :=
  (op.run disk s.1).map fun s' => (s', s.2.step op)

/-- The cache that `alloc_cache` makes, over a device with the content `m`. -/
def cacheStart (cacheSize : ℕ) (unset : ℤ → CacheEntry) (m : Image) : CachedDisk × CacheSpec :=
  (⟨m, allocCache cacheSize unset⟩, .initial m)

/-- The blocks that the slots of the ring hold, in ring order. -/
def ringBlocks (c : Cache) (L : List (ℕ × ℤ)) : List UInt64 :=
  L.map fun e => (c.cache e.2).blockNumber

/-! ## The first state -/

/-- A cache that `alloc_cache` made holds no page and has all of its slots free. -/
theorem bookkept_allocCache {disk : DiskInterface} {cacheSize : ℕ}
    (hlimit : (cacheSize : ℤ) ≤ intMax) (unset : ℤ → CacheEntry) :
    Bookkept disk (allocCache cacheSize unset) [] [] where
  limit := hlimit
  ring := IsRing.empty
  slots := by simp [allocCache]
  lruPos := by simp
  page := by simp
  reach := by simp
  blocks := by simp
  hit := by simp
  miss b hb := by simp [pciLookup, allocCache] at hb
  gdlRing := IsRing.empty
  gdlSlot := by simp
  dirty := by simp
  freeClean i _ := rfl
  lists := ⟨fun k => by simp [allocCache], fun i => by
    simp [dlChain, dlLookup, allocCache, DlChain.Proper], fun i => by
    simp [dlBlocks, dlLookup, allocCache]⟩
  listed i b hb := by simp [dlBlocks, dlLookup, allocCache] at hb

theorem contents_cacheStart (disk : DiskInterface) (cacheSize : ℕ) (unset : ℤ → CacheEntry)
    (m : Image) :
    Contents disk (cacheStart cacheSize unset m).1 [] (CacheSpec.initial m).content where
  lt := by simp
  page := by simp
  clean _ _ := rfl

/-! ## Obtaining a block -/

/-- From `s` to `s'` no slot was changed except that a free one may have been filled: the dirty lists
are the same, and every slot of `L` holds what it held. -/
structure Kept (disk : DiskInterface) (p : UInt64) (s : CachedDisk) (L : List (ℕ × ℤ))
    (s' : CachedDisk) (L' : List (ℕ × ℤ)) : Prop where
  gdl : s'.cache.gdl = s.cache.gdl
  dirtyList : s'.cache.dirtyList = s.cache.dirtyList
  cacheSize : s'.cache.cacheSize = s.cache.cacheSize
  old : ∀ e ∈ L, ∃ e' ∈ L', e'.2 = e.2
  new : ∀ e' ∈ L', (∃ e ∈ L, e.2 = e'.2) ∨ (s'.cache.cache e'.2).dirtyBit = false
  block : ∀ e ∈ L, (s'.cache.cache e.2).blockNumber = (s.cache.cache e.2).blockNumber
  inode : ∀ e ∈ L, (s'.cache.cache e.2).inodeNumber = (s.cache.cache e.2).inodeNumber
  page : ∀ e ∈ L, (s'.cache.cache e.2).pageData = (s.cache.cache e.2).pageData
  dirty : ∀ e ∈ L, (s'.cache.cache e.2).dirtyBit = (s.cache.cache e.2).dirtyBit
  contents : p.toNat < disk.addressable → ∀ cur, Contents disk s L cur → Contents disk s' L' cur

theorem Kept.refl {disk : DiskInterface} {p : UInt64} {s : CachedDisk} {L : List (ℕ × ℤ)} :
    Kept disk p s L s L where
  gdl := rfl
  dirtyList := rfl
  cacheSize := rfl
  old e he := ⟨e, he, rfl⟩
  new e he := Or.inl ⟨e, he, rfl⟩
  block _ _ := rfl
  inode _ _ := rfl
  page _ _ := rfl
  dirty _ _ := rfl
  contents _ _ h := h

/-- `get_block` finds the block in a slot, or finds a free slot and the block on the device. -/
def HasRoom (disk : DiskInterface) (p : UInt64) (c : Cache) : Prop :=
  pciLookup c.pci p ≠ -1 ∨ c.freeList ≠ [] ∧ disk.diskGetBlock p ≠ none

namespace Bookkept

variable {disk : DiskInterface} {L G : List (ℕ × ℤ)} {s : CachedDisk} {p : UInt64}

/-- A block is in the index exactly when it is in the ring. -/
theorem lookup_iff (h : Bookkept disk s.cache L G) :
    pciLookup s.cache.pci p ≠ -1 ↔ p ∈ ringBlocks s.cache L := by
  constructor
  · intro hne
    obtain ⟨e, he, rfl⟩ := h.miss p hne
    exact List.mem_map_of_mem (f := fun e => (s.cache.cache e.2).blockNumber) he
  · intro hmem
    obtain ⟨e, he, rfl⟩ := List.mem_map.mp hmem
    rw [h.hit e he]
    exact h.lookup_ne_neg_one he

/-- `get_block` as long as it does not evict. -/
theorem get (h : Bookkept disk s.cache L G) (inum : UInt64) (hroom : HasRoom disk p s.cache) :
    ∃ e s' L', getBlock disk inum p s = some (e.2, s') ∧ e ∈ L' ∧
      (s'.cache.cache e.2).blockNumber = p ∧ Bookkept disk s'.cache L' G ∧
      Kept disk p s L s' L' ∧
      ringBlocks s'.cache L' = CacheSpec.obtain p (ringBlocks s.cache L) := by
  obtain ⟨m, c⟩ := s
  replace h : Bookkept disk c L G := h
  by_cases hmiss : pciLookup c.pci p = -1
  · obtain ⟨hfree, hreach⟩ := hroom.resolve_left (not_not_intro hmiss)
    obtain ⟨i, free, hfree⟩ := List.exists_cons_of_ne_nil hfree
    obtain ⟨b, hb⟩ := DiskInterface.exists_diskGetBlock hreach
    obtain ⟨a, r, hrun, hbook⟩ := h.getBlock_load (m := m) inum hfree hmiss hb
    have hne : ∀ e ∈ L, e.2 ≠ i := by
      rintro e he rfl
      have hnodup := h.slots_nodup
      rw [hfree] at hnodup
      exact (List.nodup_append.mp hnodup).2.2 e.2 (List.mem_map_of_mem he) e.2 (by simp) rfl
    have habsent := (h.lookup_eq_neg_one_iff p).mp hmiss
    refine ⟨(a, i), _, _, hrun, List.mem_cons_self, by simp [Resident.loaded], hbook,
      ⟨rfl, rfl, rfl, fun e he => ⟨e, List.mem_cons_of_mem _ he, rfl⟩, fun e he => ?_,
        fun e he => ?_, fun e he => ?_, fun e he => ?_, fun e he => ?_, fun hp cur hc => ?_⟩, ?_⟩
    · rcases List.mem_cons.mp he with rfl | he
      · exact Or.inr (by simp [Resident.loaded])
      · exact Or.inl ⟨e, he, rfl⟩
    · simp only [Function.update_of_ne (hne e he)]
    · simp only [Function.update_of_ne (hne e he)]
    · simp only [Function.update_of_ne (hne e he)]
    · simp only [Function.update_of_ne (hne e he)]
    · obtain rfl : b = p.toNat := DiskInterface.eq_of_diskGetBlock hb (lt_of_lt_of_le hp (by
        simp only [DiskInterface.addressable]
        omega))
      exact hc.loaded hp hne habsent rfl
    · have hsame : (L.map fun e => (Function.update c.cache i
          (Resident.loaded inum p (m b) a (c.cache i)) e.2).blockNumber) = ringBlocks c L := by
        refine List.map_congr_left fun e he => ?_
        rw [Function.update_of_ne (hne e he)]
      have hnot : p ∉ ringBlocks c L := by
        intro hmem
        obtain ⟨e, he, heq⟩ := List.mem_map.mp hmem
        exact habsent e he heq
      show (Function.update c.cache i (Resident.loaded inum p (m b) a (c.cache i)) i).blockNumber ::
        _ = p :: (ringBlocks c L).erase p
      rw [hsame, Function.update_self, List.erase_of_not_mem hnot]
      rfl
  · obtain ⟨e, he, hp⟩ := h.miss p hmiss
    obtain ⟨xs, ys, rfl⟩ := List.append_of_mem he
    obtain ⟨a, r, hrun, hbook⟩ := h.getBlock_hit (m := m) inum hp
    have hindex : ∀ i, (∃ e' ∈ (a, e.2) :: (xs ++ ys), e'.2 = i) ↔
        ∃ e' ∈ xs ++ e :: ys, e'.2 = i := by
      intro i
      simp only [List.mem_cons, List.mem_append]
      constructor
      · rintro ⟨e', rfl | he' | he', rfl⟩
        · exact ⟨e, Or.inr (Or.inl rfl), rfl⟩
        · exact ⟨e', Or.inl he', rfl⟩
        · exact ⟨e', Or.inr (Or.inr he'), rfl⟩
      · rintro ⟨e', he' | rfl | he', rfl⟩
        · exact ⟨e', Or.inr (Or.inl he'), rfl⟩
        · exact ⟨(a, e'.2), Or.inl rfl, rfl⟩
        · exact ⟨e', Or.inr (Or.inr he'), rfl⟩
    refine ⟨(a, e.2), _, _, hrun, List.mem_cons_self, ?_, hbook,
      ⟨rfl, rfl, rfl, fun e' he' => (hindex e'.2).mpr ⟨e', he', rfl⟩,
        fun e' he' => Or.inl ((hindex e'.2).mp ⟨e', he', rfl⟩),
        fun e' _ => withLruPos_blockNumber _ _ _ _, fun e' _ => withLruPos_inodeNumber _ _ _ _,
        fun e' _ => withLruPos_pageData _ _ _ _, fun e' _ => withLruPos_dirtyBit _ _ _ _,
        fun _ cur hc => hc.congr hindex (withLruPos_blockNumber _ _ · _)
          (withLruPos_pageData _ _ · _) (withLruPos_dirtyBit _ _ · _)⟩, ?_⟩
    · exact (withLruPos_blockNumber _ _ _ _).trans hp
    · have hnodup := h.blocks
      rw [List.map_append, List.map_cons, hp] at hnodup
      have hnot : p ∉ xs.map fun e => (c.cache e.2).blockNumber := fun hmem =>
        (List.nodup_append.mp hnodup).2.2 p hmem p List.mem_cons_self rfl
      simp only [ringBlocks, CacheSpec.obtain, List.map_append, List.map_cons,
        withLruPos_blockNumber, hp]
      rw [List.erase_append_right _ hnot, List.erase_cons_head]

/-- `write_block` as long as it does not evict: it writes into a slot that holds the block, which it
may have loaded. -/
theorem obtain (h : Bookkept disk s.cache L G) (hroom : HasRoom disk p s.cache) (buf : Bytes)
    (inum : UInt64) (leftover : Leftover) :
    ∃ e s' L', writeBlock disk buf inum p leftover s =
        Nbtrfs.writeEntry buf inum p leftover e.2 s' ∧
      e ∈ L' ∧ (s'.cache.cache e.2).blockNumber = p ∧ Bookkept disk s'.cache L' G ∧
      Kept disk p s L s' L' ∧
      ringBlocks s'.cache L' = CacheSpec.obtainNew p (ringBlocks s.cache L) := by
  by_cases hmem : p ∈ ringBlocks s.cache L
  · obtain ⟨e, he, hp⟩ := List.mem_map.mp hmem
    have hlookup := h.hit e he
    rw [hp] at hlookup
    refine ⟨e, s, L, ?_, he, hp, h, .refl, by rw [CacheSpec.obtainNew, if_pos hmem]⟩
    rw [writeBlock, hlookup, if_neg (h.lookup_ne_neg_one he)]
  · have hmiss : pciLookup s.cache.pci p = -1 := not_not.mp (mt h.lookup_iff.mp hmem)
    obtain ⟨e, s', L', hrun, he, hp, hbook, hkept, hblocks⟩ := h.get inum hroom
    have hlookup := hbook.hit e he
    rw [hp] at hlookup
    refine ⟨e, s', L', ?_, he, hp, hbook, hkept, by rw [CacheSpec.obtainNew, if_neg hmem, hblocks]⟩
    simp only [writeBlock, hmiss, if_true, hrun, Option.bind_eq_bind, Option.bind_some, hlookup]

/-- `cache_fsync`. -/
theorem fsync (h : Bookkept disk s.cache L G) (inum : UInt64) :
    ∃ s' G', cacheFsync disk inum s = some s' ∧ Bookkept disk s'.cache L G' ∧
      WroteBack disk L s s' ∧ dlChain s'.cache.dirtyList inum = .null ∧
      (∀ i ≠ inum, dlChain s'.cache.dirtyList i = dlChain s.cache.dirtyList i) ∧
      (∀ e ∈ L, (s.cache.cache e.2).blockNumber ∈ (dlChain s.cache.dirtyList inum).popped →
        (s'.cache.cache e.2).dirtyBit = false) ∧
      (∀ e ∈ L, (s.cache.cache e.2).blockNumber ∉ (dlChain s.cache.dirtyList inum).popped →
        (s'.cache.cache e.2).dirtyBit = (s.cache.cache e.2).dirtyBit) ∧
      (NamedOnce s.cache G → NamedOnce s'.cache G') := by
  cases hentry : dlLookup s.cache.dirtyList inum with
  | none =>
      have hnull : dlChain s.cache.dirtyList inum = .null := by rw [dlChain, hentry]
      refine ⟨s, G, by rw [cacheFsync, hentry], h, .refl, hnull, fun _ _ => rfl, fun e he hb => ?_,
        fun e he hb => rfl, fun honce => honce⟩
      rw [hnull] at hb
      cases hb
  | some entry =>
      have hchain : dlChain s.cache.dirtyList inum = entry.list := by rw [dlChain, hentry]
      have hproper : entry.list.Proper := hchain ▸ h.lists.proper inum
      obtain ⟨s', G', hrun, hbook, hwrote, hdl, hin, hout, honce⟩ := h.fsyncLoop hproper fun b hb =>
        ⟨inum, by rw [dlBlocks_eq, hchain]; exact DlChain.popped_subset hb⟩
      have hdel := hbook.lists.delete inum
      have hsub : ∀ i, ∀ b ∈ dlBlocks (dlDelete s'.cache.dirtyList inum) i,
          b ∈ dlBlocks s'.cache.dirtyList i := by
        intro i b hb
        rcases eq_or_ne i inum with rfl | hi
        · rw [hdel.dlBlocks_same] at hb
          cases hb
        · rwa [hdel.dlBlocks_other hi] at hb
      refine ⟨{ s' with cache := { s'.cache with dirtyList := dlDelete s'.cache.dirtyList inum } },
        G', ?_, { hbook with
          lists := hdel.dlProper hbook.lists trivial List.nodup_nil
          listed := fun i b hb => hbook.listed i b (hsub i b hb) },
        ⟨hwrote.cacheSize, hwrote.block, hwrote.inode, hwrote.page, hwrote.dirty,
          fun cur hc => ?_⟩, hdel.same, fun i hi => ?_, ?_, ?_,
        fun h => ⟨(honce h).nodup, (honce h).dirty⟩⟩
      · simp only [cacheFsync, hentry, hrun, Option.bind_eq_bind, Option.bind_some]
      · have hc' := hwrote.contents cur hc
        exact ⟨hc'.lt, hc'.page, hc'.clean⟩
      · rw [hdel.other i hi, hdl]
      · rw [hchain]
        exact hin
      · rw [hchain]
        exact hout

/-- `cache_sync` goes through and leaves nothing dirty. -/
theorem sync (h : Bookkept disk s.cache L G) :
    ∃ s', cacheSync disk s = some s' ∧ Bookkept disk s'.cache L [] ∧ WroteBack disk L s s' ∧
      ∀ i b, (b ∈ dlBlocks s'.cache.dirtyList i ↔ b ∈ dlBlocks s.cache.dirtyList i ∧
          ∀ g ∈ G, ¬Unlisted s.cache.cache g.2 i b) ∧
        ((dlChain s.cache.dirtyList i).Indexed → (dlChain s'.cache.dirtyList i).Indexed) := by
  refine h.syncLoop ?_
  rw [h.gdlRing.size]
  omega

/-- With an empty global list no slot is dirty. -/
theorem clean (h : Bookkept disk s.cache L []) {i : ℤ} (h0 : 0 ≤ i) (h1 : i < s.cache.cacheSize) :
    (s.cache.cache i).dirtyBit = false := by
  have hmem : i ∈ L.map Prod.snd ++ s.cache.freeList := h.slots.mem_iff.mpr
    (List.mem_map.mpr ⟨i.toNat, List.mem_range.mpr (by omega), Int.toNat_of_nonneg h0⟩)
  rcases List.mem_append.mp hmem with hL | hfree
  · obtain ⟨e, he, rfl⟩ := List.mem_map.mp hL
    cases hd : (s.cache.cache e.2).dirtyBit with
    | false => rfl
    | true =>
        obtain ⟨a, -, ha⟩ := h.dirty e he hd
        cases ha
  · exact h.freeClean i hfree

end Bookkept

end Nbtrfs
