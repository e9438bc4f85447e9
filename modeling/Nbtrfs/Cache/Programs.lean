import Nbtrfs.Cache.Runs
import Nbtrfs.Lib.PageLog

/-!
# Programs on the cache

Reference: `cache.c`.

`cachedRun` runs a program the way the file system is compiled by default: a page is the `page_data`
of the slot that holds its block, and only `cache_sync` brings it to the device. As long as nothing is
evicted, the program cannot tell this from a run on the device blocks themselves (`Mirrors.cachedRun`);
what `cache_sync` then brings to the device is the content of the pages that were announced with
`write_block` (`Mirrors.sync`).
-/

namespace Nbtrfs

open BlockProg Bytes

/-! ## Running a program on the cache -/

/-- What the pointer that `get_block` returned for a block gives access to: the slot, and its page. -/
structure HeldPage where
  index : ℤ
  entry : CacheEntry
  page : Bytes

/-- The page of a block that a slot holds. A page that was never obtained cannot be accessed. -/
def Cache.heldPage (c : Cache) (pnum : UInt64) : Option HeldPage := do
  let index := pciLookup c.pci pnum
  let entry ← c.entry index
  let page ← entry.pageData
  some ⟨index, entry, page⟩

/-- Change a page in place, through the pointer into its slot. -/
def CachedDisk.setPage (s : CachedDisk) (held : HeldPage) (page : Bytes) : CachedDisk :=
  { s with cache := s.cache.setEntry held.index { held.entry with pageData := some page } }

@[simp] theorem CachedDisk.setPage_cacheSize (s : CachedDisk) (held : HeldPage) (page : Bytes) :
    (s.setPage held page).cache.cacheSize = s.cache.cacheSize := rfl

/-- Run a program on the cache; `none` is a crash, or an access that C leaves undefined. The buffer
that the program passes to `write_block` is the page itself, and `fresh` is what `malloc` leaves in
the node that `write_block` may allocate. -/
def cachedRun (disk : DiskInterface) (fresh : CachedDisk → Leftover) {α : Type} :
    BlockProg α → CachedDisk → Option (α × CachedDisk)
  | .done a, s => some (a, s)
  | .crash, _ => none
  | .getBlock i p k, s => (getBlock disk i p s).bind fun r => cachedRun disk fresh k r.2
  | .load p k, s => (s.cache.heldPage p).bind fun held => cachedRun disk fresh (k held.page) s
  | .store p f k, s =>
      (s.cache.heldPage p).bind fun held => cachedRun disk fresh k (s.setPage held (f held.page))
  | .loadWord p off k, s =>
      (s.cache.heldPage p).bind fun held =>
        if 0 ≤ off ∧ off + 8 ≤ blockSize then
          cachedRun disk fresh (k (load64 held.page off.toNat)) s
        else none
  | .storeWord p off v k, s =>
      (s.cache.heldPage p).bind fun held =>
        if 0 ≤ off ∧ off + 8 ≤ blockSize then
          cachedRun disk fresh k (s.setPage held (store64 held.page off.toNat v))
        else none
  | .writeBlock i p k, s =>
      (s.cache.heldPage p).bind fun held =>
        (writeBlock disk held.page i p (fresh s) s).bind (cachedRun disk fresh k)

/-! ## A cache that mirrors an image -/

variable {disk : DiskInterface} {start m m' : Image} {announced : Set UInt64} {s : CachedDisk}
  {L G : List (ℕ × ℤ)} {p : UInt64}

/-- The cache stands for the image `m`: its pages are those of `m`, the device behind it still holds
`start`, and the global dirty list names the blocks that were announced. -/
structure Mirrors (disk : DiskInterface) (start : Image) (announced : Set UInt64) (s : CachedDisk)
    (L G : List (ℕ × ℤ)) (m : Image) : Prop where
  bookkept : Bookkept disk s.cache L G
  contents : Contents disk ⟨m, s.cache⟩ L fun p => m p.toNat
  device : s.image = start
  absent : ∀ b, (∀ q ∈ ringBlocks s.cache L, q.toNat ≠ b) → m b = start b
  named : ∀ q, q ∈ announced ↔ ∃ g ∈ G, (s.cache.cache g.2).blockNumber = q

/-- Pages that agree with the image make up the contents. -/
private theorem contents_of_pages {c : Cache}
    (hlt : ∀ e ∈ L, (c.cache e.2).blockNumber.toNat < disk.addressable)
    (hpage : ∀ e ∈ L, (c.cache e.2).pageData = some (m (c.cache e.2).blockNumber.toNat)) :
    Contents disk ⟨m, c⟩ L fun p => m p.toNat :=
  ⟨hlt, hpage, fun _ _ => rfl⟩

/-- The cache that `alloc_cache` makes stands for the device. -/
theorem mirrors_cacheStart {cacheSize : ℕ} (hlimit : (cacheSize : ℤ) ≤ intMax)
    (unset : ℤ → CacheEntry) (m : Image) :
    Mirrors disk m ∅ ⟨m, allocCache cacheSize unset⟩ [] [] m where
  bookkept := bookkept_allocCache hlimit unset
  contents := contents_of_pages (by simp) (by simp)
  device := rfl
  absent _ _ := rfl
  named := by simp

/-- What `get_block` does depends on the device only where it loads the block from. -/
theorem getBlock_image {i : UInt64} {m₁ m₂ : Image} {c : Cache}
    (h : pciLookup c.pci p = -1 → c.freeList ≠ [] ∧ ∀ b, disk.diskGetBlock p = some b → m₂ b = m₁ b)
    {index : ℤ} {t : CachedDisk} (hrun : getBlock disk i p ⟨m₁, c⟩ = some (index, t)) :
    getBlock disk i p ⟨m₂, c⟩ = some (index, ⟨m₂, t.cache⟩) := by
  by_cases hmiss : pciLookup c.pci p = -1
  · obtain ⟨hfree, hsame⟩ := h hmiss
    obtain ⟨i, free, hfree⟩ := List.exists_cons_of_ne_nil hfree
    cases hb : disk.diskGetBlock p with
    | none =>
        simp [getBlock, hmiss, hfree, loadBlock, diskReadBlock, hb] at hrun
    | some b =>
        simp only [getBlock, hmiss, if_true, hfree, loadBlock, diskReadBlock, hb, Option.map_some,
          Option.bind_eq_bind, Option.bind_some, Option.bind_eq_some_iff, hsame b hb,
          Option.some.injEq] at hrun ⊢
        obtain ⟨e, he, r, hr, hrun⟩ := hrun
        refine ⟨e, he, r, hr, ?_⟩
        obtain ⟨rfl, rfl⟩ := Prod.mk.inj hrun
        rfl
  · rw [getBlock, if_neg hmiss] at hrun ⊢
    rw [touchBlock] at hrun ⊢
    split at hrun
    next hsize =>
      rw [if_pos hsize]
      simp only [Option.bind_eq_bind, Option.bind_eq_some_iff, Option.some.injEq] at hrun ⊢
      obtain ⟨e, he, r₁, hr₁, r₂, hr₂, hrun⟩ := hrun
      refine ⟨e, he, r₁, hr₁, r₂, hr₂, ?_⟩
      obtain ⟨rfl, rfl⟩ := Prod.mk.inj hrun
      rfl
    next hsize =>
      rw [if_neg hsize]
      obtain ⟨rfl, rfl⟩ := Prod.mk.inj (Option.some.inj hrun)
      rfl

/-! ### A page changed in place -/

/-- The cache with another page in one of its slots. -/
def Cache.withPage (c : Cache) (index : ℤ) (page : Bytes) : Cache :=
  c.setEntry index { c.cache index with pageData := some page }

theorem Cache.withPage_self (c : Cache) (index : ℤ) (page : Bytes) :
    (c.withPage index page).cache index = { c.cache index with pageData := some page } :=
  Function.update_self _ _ _

theorem Cache.withPage_of_ne (c : Cache) {index i : ℤ} (page : Bytes) (hi : i ≠ index) :
    (c.withPage index page).cache i = c.cache i := Function.update_of_ne hi _ _

/-- The other fields of the slots are what they were. -/
theorem Cache.withPage_field {β : Type} (c : Cache) (g : CacheEntry → β) (index : ℤ) (page : Bytes)
    (hg : ∀ x pg, g { x with pageData := pg } = g x) (i : ℤ) :
    g ((c.withPage index page).cache i) = g (c.cache i) := by
  rcases eq_or_ne i index with rfl | hi
  · rw [c.withPage_self, hg]
  · rw [c.withPage_of_ne page hi]

/-- The bookkeeping does not look at pages. -/
theorem Bookkept.withPage {c : Cache} (h : Bookkept disk c L G) (index : ℤ) (page : Bytes) :
    Bookkept disk (c.withPage index page) L G := by
  have hblock := c.withPage_field CacheEntry.blockNumber index page fun _ _ => rfl
  have hgdl := c.withPage_field CacheEntry.gdlPos index page fun _ _ => rfl
  have hdirty := c.withPage_field CacheEntry.dirtyBit index page fun _ _ => rfl
  have hlru := c.withPage_field CacheEntry.lruPos index page fun _ _ => rfl
  have hres : Resident disk (c.withPage index page) L :=
    h.toResident.congr rfl rfl rfl rfl hblock hlru fun i hi => by
      rcases eq_or_ne i index with rfl | hne
      · rw [c.withPage_self]
        exact Option.some_ne_none _
      · rwa [c.withPage_of_ne page hne]
  exact { hres with
    gdlRing := h.gdlRing
    gdlSlot := h.gdlSlot
    dirty := fun e he hd => by
      rw [hgdl]
      exact h.dirty e he (by rwa [← hdirty])
    freeClean := fun i hi => by
      rw [hdirty]
      exact h.freeClean i hi
    lists := h.lists
    listed := fun i b hb => by
      obtain ⟨e, he, heq, hlive⟩ := h.listed i b hb
      exact ⟨e, he, (hblock e.2).trans heq, fun a ha => hlive a (by rwa [← hgdl])⟩ }

namespace Mirrors

/-- The slots of a mirroring cache are those of blocks that are among `T`, so there is room for one
more of them. -/
theorem hasRoom (h : Mirrors disk start announced s L G m) {T : Finset UInt64}
    (hT : ∀ q ∈ ringBlocks s.cache L, q ∈ T) (hcard : T.card ≤ s.cache.cacheSize) (hp : p ∈ T)
    (hreach : p.toNat < disk.addressable) : HasRoom disk p s.cache := by
  have hin : InOrder disk (s, ⟨fun p => m p.toNat, ringBlocks s.cache L, fun _ => none⟩) L G :=
    ⟨h.bookkept, rfl⟩
  exact hin.hasRoom hT hcard hp (DiskInterface.diskGetBlock_ne_none hreach)

/-- `get_block` gives the cache one more page to hold, and none to change. -/
theorem get (h : Mirrors disk start announced s L G m) (i : UInt64) (hroom : HasRoom disk p s.cache)
    (hlt : p.toNat < disk.addressable) :
    ∃ index s' L', getBlock disk i p s = some (index, s') ∧
      Mirrors disk start announced s' L' G m ∧ s'.cache.cacheSize = s.cache.cacheSize ∧
      ringBlocks s'.cache L' = CacheSpec.obtain p (ringBlocks s.cache L) := by
  obtain ⟨image, c⟩ := s
  obtain rfl : image = start := h.device
  obtain ⟨e, ⟨image', c'⟩, L', hrun, he, hp, hbook, hkept, hblocks⟩ :=
    Bookkept.get (s := ⟨m, c⟩) h.bookkept i hroom
  have himage : image' = m := by
    obtain ⟨index, t, ht⟩ : ∃ index t, getBlock disk i p ⟨m, c⟩ = some (index, t) := ⟨_, _, hrun⟩
    have hsame : getBlock disk i p ⟨m, c⟩ = some (index, ⟨m, t.cache⟩) := getBlock_image (fun hmiss =>
      ⟨(hroom.resolve_left (not_not_intro hmiss)).1, fun _ _ => rfl⟩) ht
    rw [hrun] at hsame
    exact (congrArg CachedDisk.image (Prod.mk.inj (Option.some.inj hsame)).2)
  subst himage
  have hbook₀ : Bookkept disk c L G := h.bookkept
  have hload : pciLookup c.pci p = -1 →
      c.freeList ≠ [] ∧ ∀ b, disk.diskGetBlock p = some b → image b = image' b := by
    intro hmiss
    refine ⟨(hroom.resolve_left (not_not_intro hmiss)).1, fun b hb => ?_⟩
    have haddr : disk.diskGetBlock p = some p.toNat := DiskInterface.mapping_exactTo p hlt
    obtain rfl : p.toNat = b := Option.some.inj (haddr.symm.trans hb)
    refine (h.absent _ fun q hq heq => ?_).symm
    obtain rfl := UInt64.toNat_inj.mp heq
    exact hbook₀.lookup_iff.mpr hq hmiss
  refine ⟨e.2, ⟨image, c'⟩, L', getBlock_image hload hrun, ?_, hkept.cacheSize, hblocks⟩
  have hc := hkept.contents hlt _ h.contents
  refine ⟨hbook, hc, rfl, fun b hb => h.absent b fun q hq => hb q ?_, fun q => ?_⟩
  · rw [hblocks]
    by_cases hqp : q = p
    · rw [hqp]
      exact List.mem_cons_self
    · exact List.mem_cons_of_mem _ ((List.mem_erase_of_ne hqp).mpr hq)
  · rw [h.named]
    refine exists_congr fun g => and_congr_right fun hg => ?_
    obtain ⟨e', he', heq⟩ := hbook₀.gdlSlot g hg
    have hsame := hkept.block e' he'
    rw [heq] at hsame
    rw [← hsame]

/-- The slot of a block that the cache holds. -/
theorem exists_held (h : Mirrors disk start announced s L G m) (hp : p ∈ ringBlocks s.cache L) :
    ∃ e ∈ L, (s.cache.cache e.2).blockNumber = p ∧ p.toNat < disk.addressable ∧
      s.cache.heldPage p = some ⟨e.2, s.cache.cache e.2, m p.toNat⟩ := by
  obtain ⟨e, he, rfl⟩ := List.mem_map.mp hp
  refine ⟨e, he, rfl, h.contents.lt e he, ?_⟩
  have hpage : (s.cache.cache e.2).pageData = some (m (s.cache.cache e.2).blockNumber.toNat) :=
    h.contents.page e he
  have hhit : pciLookup s.cache.pci (s.cache.cache e.2).blockNumber = e.2 := h.bookkept.hit e he
  simp only [Cache.heldPage, hhit, (h.bookkept.index_of_mem he).2.2, Option.bind_eq_bind,
    Option.bind_some, hpage]

/-- Changing a page in place changes that page of the image. -/
theorem setPage (h : Mirrors disk start announced s L G m) {e : ℕ × ℤ} (he : e ∈ L)
    (hp : (s.cache.cache e.2).blockNumber = p) (page page' : Bytes) :
    Mirrors disk start announced (s.setPage ⟨e.2, s.cache.cache e.2, page⟩ page') L G
      (Function.update m p.toNat page') ∧
    ringBlocks (s.setPage ⟨e.2, s.cache.cache e.2, page⟩ page').cache L = ringBlocks s.cache L := by
  obtain ⟨image, c⟩ := s
  replace h : Mirrors disk start announced ⟨image, c⟩ L G m := h
  replace hp : (c.cache e.2).blockNumber = p := hp
  have hbook : Bookkept disk c L G := h.bookkept
  have hblock : ∀ i, ((c.withPage e.2 page').cache i).blockNumber = (c.cache i).blockNumber :=
    c.withPage_field CacheEntry.blockNumber e.2 page' fun _ _ => rfl
  refine ⟨⟨hbook.withPage e.2 page', contents_of_pages (fun e' he' => ?_) fun e' he' => ?_,
    h.device, fun b hb => ?_, fun q => ?_⟩, ?_⟩
  · show ((c.withPage e.2 page').cache e'.2).blockNumber.toNat < disk.addressable
    rw [hblock]
    exact h.contents.lt e' he'
  · show ((c.withPage e.2 page').cache e'.2).pageData =
      some (Function.update m p.toNat page' ((c.withPage e.2 page').cache e'.2).blockNumber.toNat)
    rw [hblock]
    rcases eq_or_ne e' e with rfl | hne
    · rw [c.withPage_self, hp, Function.update_self]
    · -- another slot holds another block
      have hslot : e'.2 ≠ e.2 := fun heq => hne (hbook.eq_of_index he' he heq)
      have hnum : (c.cache e'.2).blockNumber.toNat ≠ p.toNat := fun heq =>
        hne (hbook.eq_of_block he' he ((UInt64.toNat_inj.mp heq).trans hp.symm))
      rw [c.withPage_of_ne page' hslot, Function.update_of_ne hnum]
      exact h.contents.page e' he'
  · have hblocks : ∀ q ∈ ringBlocks c L, q.toNat ≠ b := fun q hq => hb q (by
      obtain ⟨e', he', rfl⟩ := List.mem_map.mp hq
      exact List.mem_map.mpr ⟨e', he', hblock e'.2⟩)
    have hne : b ≠ p.toNat := fun heq =>
      hblocks p (List.mem_map.mpr ⟨e, he, hp⟩) heq.symm
    rw [Function.update_of_ne hne]
    exact h.absent b hblocks
  · rw [h.named]
    exact exists_congr fun g => and_congr_right fun _ => by
      show (c.cache g.2).blockNumber = q ↔ ((c.withPage e.2 page').cache g.2).blockNumber = q
      rw [hblock]
  · exact List.map_congr_left fun e' _ => hblock e'.2

/-- Announcing a page puts its block on the global dirty list and changes no page. -/
theorem announce (h : Mirrors disk start announced s L G m) {e : ℕ × ℤ} (he : e ∈ L)
    (hp : (s.cache.cache e.2).blockNumber = p) (i : UInt64) {leftover : Leftover}
    (hleft : leftover = .null) (hcount : (G.length : ℤ) < intMax) :
    ∃ s' a, writeBlock disk (m p.toNat) i p leftover s = some s' ∧
      Mirrors disk start (insert p announced) s' L ((a, e.2) :: G) m ∧
      s'.cache.cacheSize = s.cache.cacheSize ∧ ringBlocks s'.cache L = ringBlocks s.cache L := by
  obtain ⟨image, c⟩ := s
  replace hp : (c.cache e.2).blockNumber = p := hp
  have hbook : Bookkept disk c L G := h.bookkept
  obtain ⟨a, r, dl, hrun, -, hbook'⟩ := hbook.writeEntry (m := image) (m p.toNat) i leftover he hp
    (by rw [hbook.gdlRing.size]; omega) fun _ _ => hleft
  refine ⟨⟨image, { c with
      gdl := r, dirtyList := dl, cache := written c.cache e.2 (m p.toNat) a }⟩, a, ?_,
    ⟨hbook', contents_of_pages (fun e' he' => ?_) fun e' he' => ?_,
      h.device, fun b hb => h.absent b fun q hq => hb q ?_, fun q => ?_⟩, rfl, ?_⟩
  · have hlookup := hbook.hit e he
    rw [hp] at hlookup
    rw [writeBlock]
    simp only [hlookup, if_neg (hbook.lookup_ne_neg_one he)]
    exact hrun
  · simp only [written_blockNumber]
    exact h.contents.lt e' he'
  · simp only [written_blockNumber]
    rcases eq_or_ne e'.2 e.2 with heq | hne
    · rw [heq, written_same, hp]
    · rw [written_ne _ _ _ _ _ hne]
      exact h.contents.page e' he'
  · obtain ⟨e', he', rfl⟩ := List.mem_map.mp hq
    exact List.mem_map.mpr ⟨e', he', written_blockNumber _ _ _ _ _⟩
  · simp only [Set.mem_insert_iff, h.named, written_blockNumber, List.mem_cons, exists_eq_or_imp, hp]
    exact or_congr_left eq_comm
  · exact List.map_congr_left fun e' _ => written_blockNumber _ _ _ _ _

/-! ## The program cannot tell the cache from the device -/

/-- What the cache has to offer a run of `p` on `m`: every block that the run obtains is one that the
address arithmetic reaches, these blocks and those in the slots are among `T`, for which there are
slots enough, and the counter of the global dirty list has room for the pages announced. -/
structure Serves (disk : DiskInterface) (T : Finset UInt64) {α : Type} (p : BlockProg α) (m : Image)
    (s : CachedDisk) (L G : List (ℕ × ℤ)) : Prop where
  reach : ∀ q, .obtained q ∈ events disk.mapping p m → q.toNat < disk.addressable ∧ q ∈ T
  held : ∀ q ∈ ringBlocks s.cache L, q ∈ T
  slots : T.card ≤ s.cache.cacheSize
  count : (G.length : ℤ) + (PageEvent.announcements (events disk.mapping p m) : ℕ) ≤ intMax

/-- The addresses of a word in a page that the cache holds. -/
private theorem wordAddr_held {off : ℤ} (hlt : p.toNat < disk.addressable) (h0 : 0 ≤ off)
    (hend : off + 8 ≤ (blockSize : ℕ)) :
    disk.mapping.wordAddr p off = some (disk.mapping.blockSize * p.toNat + off.toNat) := by
  obtain ⟨o, rfl⟩ := Int.eq_ofNat_of_zero_le h0
  have hb : p.toNat < disk.mapping.blocks := lt_of_lt_of_le hlt (min_le_left _ _)
  have hoff : o + 8 ≤ disk.mapping.blockSize := by
    show o + 8 ≤ 4096
    simp only [blockSize] at hend
    omega
  exact Mapping.wordAddr_of_lt (DiskInterface.mapping_exactTo p hlt) hb hoff

/-- Reading a word there reads it from the page. -/
private theorem load64_held {off : ℤ} (hend : off.toNat + 8 ≤ blockSize) :
    load64 (disk.mapping.flat m) (disk.mapping.blockSize * p.toNat + off.toNat) =
      load64 (m p.toNat) off.toNat :=
  Mapping.load64_flat hend

/-- Writing a word there writes it to the page. -/
private theorem storeFlat_held {off : ℤ} (v : UInt64) (hend : off.toNat + 8 ≤ blockSize) :
    disk.mapping.storeFlat m (disk.mapping.blockSize * p.toNat + off.toNat) v =
      Function.update m p.toNat (store64 (m p.toNat) off.toNat v) :=
  Mapping.storeFlat_page v hend

/-- What served a run serves what is left of it. -/
theorem Serves.next {α β : Type} {T : Finset UInt64} {q : BlockProg α} {q' : BlockProg β}
    {s' : CachedDisk} {L' G' : List (ℕ × ℤ)} (h : Serves disk T q m s L G)
    (hobtained : ∀ b, .obtained b ∈ events disk.mapping q' m' → .obtained b ∈ events disk.mapping q m)
    (hheld : ∀ b ∈ ringBlocks s'.cache L', b ∈ T) (hsize : s'.cache.cacheSize = s.cache.cacheSize)
    (hcount : G'.length + PageEvent.announcements (events disk.mapping q' m') ≤
      G.length + PageEvent.announcements (events disk.mapping q m)) :
    Serves disk T q' m' s' L' G' where
  reach b hb := h.reach b (hobtained b hb)
  held := hheld
  slots := hsize ▸ h.slots
  count := by
    have := h.count
    omega

/-- What served a run that begins with a read serves the rest. -/
theorem Serves.read {α β : Type} {T : Finset UInt64} {q : BlockProg α} {q' : BlockProg β}
    (h : Serves disk T q m s L G) (hev : events disk.mapping q m = events disk.mapping q' m) :
    Serves disk T q' m s L G :=
  h.next (fun _ hb => hev ▸ hb) h.held rfl (by rw [hev])

/-- What served a run that begins with a change in place serves the rest, if the slots hold the same
blocks. -/
theorem Serves.change {α β : Type} {T : Finset UInt64} {q : BlockProg α} {q' : BlockProg β}
    {s' : CachedDisk} (h : Serves disk T q m s L G)
    (hev : events disk.mapping q m = .changed p :: events disk.mapping q' m')
    (hblocks : ringBlocks s'.cache L = ringBlocks s.cache L)
    (hsize : s'.cache.cacheSize = s.cache.cacheSize) : Serves disk T q' m' s' L G :=
  h.next (fun _ hb => hev ▸ List.mem_cons_of_mem _ hb) (hblocks ▸ h.held) hsize (by
    rw [hev, PageEvent.announcements_changed])

/-- A run on the cache crashes where the direct run does. Else it has the result of the direct run, and
leaves a cache that stands for the image that the direct run leaves. -/
def Agrees (disk : DiskInterface) (start : Image) (T : Finset UInt64) {α : Type} (n : ℕ)
    (announced : Set UInt64) (r : Option (α × CachedDisk)) : Option (α × Image) → Prop
  | none => r = none
  | some (a, m') => ∃ s' L' G', r = some (a, s') ∧ Mirrors disk start announced s' L' G' m' ∧
      s'.cache.cacheSize = n ∧ ∀ q ∈ ringBlocks s'.cache L', q ∈ T

/-- A disciplined program has the same outcome on the device blocks themselves as on a cache that has
room for the blocks it obtains. -/
theorem cachedRun (fresh : CachedDisk → Leftover) (hfresh : ∀ s, fresh s = .null) {α : Type}
    {q : BlockProg α} {T : Finset UInt64} {g : PageLedger} {Q : α → Image → PageLedger → Prop}
    (h : Mirrors disk start announced s L G m) (hS : Serves disk T q m s L G)
    (hheld : ∀ b ∈ g.held, b ∈ ringBlocks s.cache L) (hd : Disciplined disk.mapping q m g Q) :
    Agrees disk start T s.cache.cacheSize
      (announced ∪ {b | .announced b ∈ events disk.mapping q m})
      (Nbtrfs.cachedRun disk fresh q s) (run disk.mapping q m) := by
  induction q generalizing m s L G announced g with
  | done x =>
      refine ⟨s, L, G, rfl, ?_, rfl, hS.held⟩
      simpa [events] using h
  | crash => rfl
  | getBlock i b k ih =>
      obtain ⟨hlt, hbT⟩ := hS.reach b List.mem_cons_self
      obtain ⟨index, s₁, L₁, hget, h₁, hsize, hblocks⟩ :=
        h.get i (h.hasRoom hS.held hS.slots hbT hlt) hlt
      have hmem : ∀ c, c ∈ ringBlocks s₁.cache L₁ ↔ c = b ∨ c ∈ ringBlocks s.cache L := by
        intro c
        rw [hblocks, CacheSpec.obtain, List.mem_cons]
        by_cases hcb : c = b
        · simp [hcb]
        · simp [hcb, List.mem_erase_of_ne hcb]
      have hS₁ : Serves disk T k m s₁ L₁ G := hS.next (fun c hc => List.mem_cons_of_mem _ hc)
        (fun c hc => ((hmem c).mp hc).elim (fun heq => heq ▸ hbT) (hS.held c)) hsize (by
          simp [events])
      have hheld₁ : ∀ c ∈ (g.obtain b).held, c ∈ ringBlocks s₁.cache L₁ := by
        rintro c (rfl | hc)
        · exact (hmem c).mpr (Or.inl rfl)
        · exact (hmem c).mpr (Or.inr (hheld c hc))
      -- now the block has a slot, whether it was cached or is loaded
      have hnext := ih h₁ hS₁ hheld₁ hd
      simp only [Nbtrfs.cachedRun, hget, Option.bind_some]
      simpa [events, run, hsize] using hnext
  | load b k ih =>
      obtain ⟨e, he, hb, hlt, hpage⟩ := h.exists_held (hheld b hd.1)
      have haddr : disk.mapping.addr b = some b.toNat := DiskInterface.mapping_exactTo b hlt
      have hev : events disk.mapping (.load b k) m = events disk.mapping (k (m b.toNat)) m := by
        rw [events, haddr]
      have hnext := ih (m b.toNat) h (hS.read hev) hheld (hd.2 _ haddr)
      simp only [Nbtrfs.cachedRun, hpage, Option.bind_some, run, haddr]
      rwa [hev]
  | store b f k ih =>
      obtain ⟨e, he, hb, hlt, hpage⟩ := h.exists_held (hheld b hd.1)
      have haddr : disk.mapping.addr b = some b.toNat := DiskInterface.mapping_exactTo b hlt
      have hev : events disk.mapping (.store b f k) m = .changed b ::
          events disk.mapping k (Function.update m b.toNat (f (m b.toNat))) := by
        rw [events, haddr]
      obtain ⟨h₁, hblocks⟩ := h.setPage he hb (m b.toNat) (f (m b.toNat))
      have hnext := ih h₁ (hS.change hev hblocks rfl) (by rwa [hblocks]) (hd.2 _ haddr)
      simp only [Nbtrfs.cachedRun, hpage, Option.bind_some, run, haddr]
      simpa [hev] using hnext
  | loadWord b off k ih =>
      obtain ⟨⟨hmem, h0, hend⟩, hd⟩ := hd
      have hin : off + 8 ≤ (blockSize : ℕ) := hend
      obtain ⟨e, he, hb, hlt, hpage⟩ := h.exists_held (hheld b hmem)
      have haddr := wordAddr_held hlt h0 hin
      have hload : load64 (disk.mapping.flat m) (disk.mapping.blockSize * b.toNat + off.toNat) =
          load64 (m b.toNat) off.toNat := load64_held (by omega)
      have hev : events disk.mapping (.loadWord b off k) m =
          events disk.mapping (k (load64 (m b.toNat) off.toNat)) m := by
        simp only [events, haddr, hload]
      have hnext := ih _ h (hS.read hev) hheld (hload ▸ hd _ haddr)
      simp only [Nbtrfs.cachedRun, hpage, Option.bind_some, if_pos (And.intro h0 hin), run, haddr,
        hload]
      rwa [hev]
  | storeWord b off v k ih =>
      -- the word lies in the page, so both runs change the same bytes
      obtain ⟨⟨hmem, h0, hend⟩, hd⟩ := hd
      have hin : off + 8 ≤ (blockSize : ℕ) := hend
      obtain ⟨e, he, hb, hlt, hpage⟩ := h.exists_held (hheld b hmem)
      have haddr := wordAddr_held hlt h0 hin
      have hstore : disk.mapping.storeFlat m (disk.mapping.blockSize * b.toNat + off.toNat) v =
          Function.update m b.toNat (store64 (m b.toNat) off.toNat v) := storeFlat_held v (by omega)
      have hev : events disk.mapping (.storeWord b off v k) m = .changed b ::
          events disk.mapping k (Function.update m b.toNat (store64 (m b.toNat) off.toNat v)) := by
        simp only [events, haddr, hstore]
      obtain ⟨h₁, hblocks⟩ := h.setPage he hb (m b.toNat) (store64 (m b.toNat) off.toNat v)
      have hnext := ih h₁ (hS.change hev hblocks rfl) (by rwa [hblocks]) (hstore ▸ hd _ haddr)
      simp only [Nbtrfs.cachedRun, hpage, Option.bind_some, if_pos (And.intro h0 hin), run, haddr,
        hstore]
      simpa [hev] using hnext
  | writeBlock i b k ih =>
      obtain ⟨e, he, hb, hlt, hpage⟩ := h.exists_held (hheld b hd.1)
      have hcount := hS.count
      have hev : PageEvent.announcements (events disk.mapping (.writeBlock i b k) m) =
          PageEvent.announcements (events disk.mapping k m) + 1 := by
        rw [events, PageEvent.announcements_announced]
      obtain ⟨s₁, x, hwrite, h₁, hsize, hblocks⟩ := h.announce he hb i (hfresh s) (by omega)
      have hnext := ih h₁ (hS.next (fun _ h => List.mem_cons_of_mem _ h)
        (by rw [hblocks]; exact hS.held) hsize (by rw [hev, List.length_cons]; omega))
        (by rwa [hblocks]) hd.2
      simp only [Nbtrfs.cachedRun, hpage, Option.bind_some, hwrite]
      -- the block joins those that were announced before
      have hset : insert b announced ∪ {c | .announced c ∈ events disk.mapping k m} =
          announced ∪ {c | .announced c ∈ events disk.mapping (.writeBlock i b k) m} := by
        ext c
        simp only [events, Set.mem_union, Set.mem_insert_iff, Set.mem_ofPred_eq, List.mem_cons,
          PageEvent.announced.injEq]
        tauto
      rw [hset, hsize] at hnext
      exact hnext

end Mirrors

/-! ## Unmounting -/

/-- The loop of `cache_sync` writes the page of every block that the global dirty list names, and no
other block of the device. -/
theorem Bookkept.syncLoop_image {fuel : ℕ} (hfuel : G.length < fuel)
    (h : Bookkept disk s.cache L G) (hc : Contents disk ⟨m, s.cache⟩ L fun p => m p.toNat) :
    ∃ s', Nbtrfs.syncLoop disk fuel s = some s' ∧
      (∀ g ∈ G, s'.image (s.cache.cache g.2).blockNumber.toNat =
        m (s.cache.cache g.2).blockNumber.toNat) ∧
      ∀ b, (∀ g ∈ G, (s.cache.cache g.2).blockNumber.toNat ≠ b) → s'.image b = s.image b := by
  induction G using List.reverseRecOn generalizing s fuel with
  | nil =>
      obtain ⟨fuel, rfl⟩ : ∃ n, fuel = n + 1 := ⟨fuel - 1, by
        simp only [List.length_nil] at hfuel
        omega⟩
      have hhead : s.cache.gdl.head = none := by simpa using h.gdlRing.head
      exact ⟨s, by rw [Nbtrfs.syncLoop, hhead], by simp, fun _ _ => rfl⟩
  | append_singleton G g ih =>
      obtain ⟨fuel, rfl⟩ : ∃ n, fuel = n + 1 := ⟨fuel - 1, by omega⟩
      obtain ⟨image, c⟩ := s
      obtain ⟨x, i⟩ := g
      replace h : Bookkept disk c L (G ++ [(x, i)]) := h
      obtain ⟨e, he, rfl⟩ := h.gdlSlot (x, i) (by simp)
      obtain ⟨h0, h1, -⟩ := h.index_of_mem he
      -- one turn writes the page of the oldest entry, the last one of the list
      obtain ⟨r, hring, hturn⟩ := syncLoop_turn disk fuel image h.gdlRing h0 h1
      obtain ⟨b, page, dl, hrun, hb, hpage, -, hbook⟩ := h.syncEntry (m := image) he hring
      have haddr : disk.diskGetBlock (c.cache e.2).blockNumber =
          some (c.cache e.2).blockNumber.toNat := DiskInterface.mapping_exactTo _ (hc.lt e he)
      obtain rfl : (c.cache e.2).blockNumber.toNat = b := Option.some.inj (haddr.symm.trans hb)
      obtain rfl : page = m (c.cache e.2).blockNumber.toNat :=
        Option.some.inj (hpage.symm.trans (hc.page e he))
      set c' : Cache := { c with
        gdl := r, dirtyList := dl, cache := Nbtrfs.writtenBack c.cache e.2 } with hc'
      have hcont : Contents disk ⟨m, c'⟩ L fun p => m p.toNat := by
        rw [hc']
        refine ⟨fun e' he' => ?_, fun e' he' => ?_, fun _ _ => rfl⟩
        · simp only [writtenBack_blockNumber]
          exact hc.lt e' he'
        · simp only [writtenBack_blockNumber, writtenBack_pageData]
          exact hc.page e' he'
      have hshort : G.length < fuel := by
        simp only [List.length_append, List.length_singleton] at hfuel
        omega
      set s₁ : CachedDisk := ⟨Function.update image (c.cache e.2).blockNumber.toNat
        (m (c.cache e.2).blockNumber.toNat), c'⟩ with hs₁
      obtain ⟨s', hrun', hin, hout⟩ := ih (s := s₁) hshort hbook hcont
      simp only [hs₁, hc', writtenBack_blockNumber] at hin hout
      refine ⟨s', by rw [hturn, hrun]; exact hrun', fun g hg => ?_, fun b hb => ?_⟩
      · rcases List.mem_append.mp hg with hg | hg
        · exact hin g hg
        · obtain rfl := List.mem_singleton.mp hg
          -- a block that stands on the list twice is written again by a later turn
          by_cases hex : ∃ g ∈ G, (c.cache g.2).blockNumber.toNat =
              (c.cache e.2).blockNumber.toNat
          · obtain ⟨g, hg, heq⟩ := hex
            rw [← heq]
            exact hin g hg
          · rw [hout _ (by push Not at hex; exact hex), Function.update_self]
      · rw [hout b fun g hg => hb g (List.mem_append_left _ hg),
          Function.update_of_ne (hb (x, e.2) (by simp)).symm]

/-- `cache_sync` brings the pages that were announced to the device, and nothing else. -/
theorem Mirrors.sync (h : Mirrors disk start announced s L G m) :
    ∃ s', cacheSync disk s = some s' ∧ (∀ q ∈ announced, s'.image q.toNat = m q.toNat) ∧
      ∀ b, (∀ q ∈ announced, q.toNat ≠ b) → s'.image b = start b := by
  have hfuel : G.length < s.cache.gdl.size.toNat + 1 := by
    rw [h.bookkept.gdlRing.size]
    omega
  obtain ⟨s', hrun, hin, hout⟩ := h.bookkept.syncLoop_image hfuel h.contents
  refine ⟨s', hrun, fun q hq => ?_, fun b hb => ?_⟩
  · obtain ⟨g, hg, rfl⟩ := (h.named q).mp hq
    exact hin g hg
  · rw [hout b fun g hg => hb _ ((h.named _).mpr ⟨g, hg, rfl⟩), h.device]

end Nbtrfs
