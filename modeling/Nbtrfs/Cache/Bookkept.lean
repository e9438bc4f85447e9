import Nbtrfs.Cache.Resident

/-!
# The dirty lists of the cache

Reference: `cache.c`, `gdl.c`, `dl.c`.

`Bookkept disk c L G` adds to `Resident disk c L` that the ring of `gdl.c` holds the nodes `G`.
A slot that was written many times has many nodes there and `gdl_pos` names the newest, so `G` may
name a slot several times. `Contents disk s L cur` relates pages and device to the content `cur`
that every block should have.
-/

namespace Nbtrfs

/-- The ring of recently used slots is `L` and the global dirty list is `G`. Every dirty slot has a
node in `G`, free slots are clean, and every block on a per-inode list is in a slot of `L`. -/
structure Bookkept (disk : DiskInterface) (c : Cache) (L G : List (ℕ × ℤ)) : Prop
    extends Resident disk c L where
  gdlRing : IsRing c.gdl G
  gdlSlot : ∀ g ∈ G, ∃ e ∈ L, e.2 = g.2
  dirty : ∀ e ∈ L, (c.cache e.2).dirtyBit = true →
    ∃ a, (c.cache e.2).gdlPos = some a ∧ (a, e.2) ∈ G
  freeClean : ∀ i ∈ c.freeList, (c.cache i).dirtyBit = false
  lists : DlProper c.dirtyList
  listed : ∀ i, ∀ b ∈ dlBlocks c.dirtyList i, ∃ e ∈ L, (c.cache e.2).blockNumber = b ∧
    ∀ a, (c.cache e.2).gdlPos = some a → (a, e.2) ∈ G

/-- Every block has the content `cur`: in its slot, and on the device unless its slot is dirty. -/
structure Contents (disk : DiskInterface) (s : CachedDisk) (L : List (ℕ × ℤ))
    (cur : UInt64 → Bytes) : Prop where
  lt : ∀ e ∈ L, (s.cache.cache e.2).blockNumber.toNat < disk.addressable
  page : ∀ e ∈ L, (s.cache.cache e.2).pageData = some (cur (s.cache.cache e.2).blockNumber)
  clean : ∀ p : UInt64,
    (∀ e ∈ L, (s.cache.cache e.2).blockNumber = p → (s.cache.cache e.2).dirtyBit = false) →
    s.image p.toNat = cur p

/-! ## Changes of a slot -/

/-- The slots with slot `i` written: a new page, dirty, and at node `a` of the global list. -/
def written (f : ℤ → CacheEntry) (i : ℤ) (buf : Bytes) (a : ℕ) : ℤ → CacheEntry :=
  Function.update f i { f i with pageData := some buf, dirtyBit := true, gdlPos := some a }

/-- The slots with slot `i` written back: clean, and off the global list. -/
def writtenBack (f : ℤ → CacheEntry) (i : ℤ) : ℤ → CacheEntry :=
  Function.update f i { f i with dirtyBit := false, gdlPos := none }

section Written

variable (f : ℤ → CacheEntry) (i j : ℤ) (buf : Bytes) (a : ℕ)

@[simp] theorem written_blockNumber : (written f i buf a j).blockNumber = (f j).blockNumber := by
  rcases eq_or_ne j i with rfl | h
  · simp [written]
  · simp [written, h]

@[simp] theorem written_inodeNumber : (written f i buf a j).inodeNumber = (f j).inodeNumber := by
  rcases eq_or_ne j i with rfl | h
  · simp [written]
  · simp [written, h]

@[simp] theorem written_lruPos : (written f i buf a j).lruPos = (f j).lruPos := by
  rcases eq_or_ne j i with rfl | h
  · simp [written]
  · simp [written, h]

theorem written_same : written f i buf a i =
    { f i with pageData := some buf, dirtyBit := true, gdlPos := some a } := by
  simp [written]

theorem written_ne (h : j ≠ i) : written f i buf a j = f j := by
  simp [written, h]

@[simp] theorem writtenBack_blockNumber :
    (writtenBack f i j).blockNumber = (f j).blockNumber := by
  rcases eq_or_ne j i with rfl | h
  · simp [writtenBack]
  · simp [writtenBack, h]

@[simp] theorem writtenBack_inodeNumber :
    (writtenBack f i j).inodeNumber = (f j).inodeNumber := by
  rcases eq_or_ne j i with rfl | h
  · simp [writtenBack]
  · simp [writtenBack, h]

@[simp] theorem writtenBack_pageData : (writtenBack f i j).pageData = (f j).pageData := by
  rcases eq_or_ne j i with rfl | h
  · simp [writtenBack]
  · simp [writtenBack, h]

@[simp] theorem writtenBack_lruPos : (writtenBack f i j).lruPos = (f j).lruPos := by
  rcases eq_or_ne j i with rfl | h
  · simp [writtenBack]
  · simp [writtenBack, h]

theorem writtenBack_same : writtenBack f i i = { f i with dirtyBit := false, gdlPos := none } := by
  simp [writtenBack]

theorem writtenBack_ne (h : j ≠ i) : writtenBack f i j = f j := by
  simp [writtenBack, h]

end Written

/-! ## `get_block` -/

section GetBlock

variable {disk : DiskInterface} {c : Cache} {L G : List (ℕ × ℤ)} {m : Image} {p : UInt64}

/-- A hit moves the slot to the front and changes nothing else. -/
theorem Bookkept.getBlock_hit {xs ys : List (ℕ × ℤ)} {e : ℕ × ℤ}
    (h : Bookkept disk c (xs ++ e :: ys) G) (inum : UInt64)
    (hp : (c.cache e.2).blockNumber = p) :
    ∃ a r, getBlock disk inum p ⟨m, c⟩ =
        some (e.2, ⟨m, { c with lru := r, cache := withLruPos c.cache e.2 a }⟩) ∧
      Bookkept disk { c with lru := r, cache := withLruPos c.cache e.2 a }
        ((a, e.2) :: (xs ++ ys)) G := by
  have he : e ∈ xs ++ e :: ys := by simp
  obtain ⟨a, r, hrun, hres⟩ := h.toResident.touch (m := m)
  have hlookup := h.hit e he
  rw [hp] at hlookup
  -- the slots of the ring are the same, in another order
  have hmem : ∀ e' ∈ xs ++ e :: ys, ∃ e'' ∈ (a, e.2) :: (xs ++ ys), e''.2 = e'.2 := by
    intro e' he'
    rcases eq_or_ne e' e with rfl | hne
    · exact ⟨_, List.mem_cons_self, rfl⟩
    · refine ⟨e', List.mem_cons_of_mem _ ?_, rfl⟩
      simp only [List.mem_append, List.mem_cons] at he' ⊢
      tauto
  have hback : ∀ e'' ∈ (a, e.2) :: (xs ++ ys), ∃ e' ∈ xs ++ e :: ys, e'.2 = e''.2 := by
    intro e'' he''
    rcases List.mem_cons.mp he'' with rfl | he''
    · exact ⟨e, he, rfl⟩
    · refine ⟨e'', ?_, rfl⟩
      simp only [List.mem_append, List.mem_cons] at he'' ⊢
      tauto
  refine ⟨a, r, ?_, { hres with
    gdlRing := h.gdlRing
    gdlSlot := fun g hg => ?_
    dirty := fun e'' he'' hd => ?_
    freeClean := fun i hi => (withLruPos_dirtyBit _ _ _ _).trans (h.freeClean i hi)
    lists := h.lists
    listed := fun i b hb => ?_ }⟩
  · rw [getBlock, hlookup, if_neg (h.lookup_ne_neg_one he)]
    exact hrun
  · obtain ⟨e', he', heq⟩ := h.gdlSlot g hg
    obtain ⟨e'', he'', heq'⟩ := hmem e' he'
    exact ⟨e'', he'', heq'.trans heq⟩
  · obtain ⟨e', he', heq⟩ := hback e'' he''
    rw [withLruPos_dirtyBit] at hd
    rw [withLruPos_gdlPos]
    rw [← heq] at hd ⊢
    exact h.dirty e' he' hd
  · obtain ⟨e', he', heq, hlive⟩ := h.listed i b hb
    obtain ⟨e'', he'', heq'⟩ := hmem e' he'
    refine ⟨e'', he'', ?_, ?_⟩
    · rw [withLruPos_blockNumber, heq', heq]
    · rw [withLruPos_gdlPos, heq']
      exact hlive

/-- A miss with a free slot loads the block into it. -/
theorem Bookkept.getBlock_load (h : Bookkept disk c L G) (inum : UInt64) {b : ℕ} {i : ℤ}
    {free : List ℤ} (hfree : c.freeList = i :: free) (hmiss : pciLookup c.pci p = -1)
    (hp : disk.diskGetBlock p = some b) :
    ∃ a r, getBlock disk inum p ⟨m, c⟩ = some (i, ⟨m, { c with
        freeList := free, lru := r, pci := pciInsert c.pci p i,
        cache := Function.update c.cache i (Resident.loaded inum p (m b) a (c.cache i)) }⟩) ∧
      Bookkept disk { c with
        freeList := free, lru := r, pci := pciInsert c.pci p i,
        cache := Function.update c.cache i (Resident.loaded inum p (m b) a (c.cache i)) }
        ((a, i) :: L) G := by
  obtain ⟨a, r, hrun, hres⟩ := h.toResident.load (m := m) inum hfree hmiss hp
  have hnodup := h.slots_nodup
  rw [hfree] at hnodup
  have hne : ∀ e ∈ L, e.2 ≠ i := by
    rintro e he rfl
    exact (List.nodup_append.mp hnodup).2.2 e.2 (List.mem_map_of_mem he) e.2 (by simp) rfl
  have hnefree : ∀ j ∈ free, j ≠ i := by
    rintro j hj rfl
    exact (List.nodup_cons.mp (List.nodup_append.mp hnodup).2.1).1 hj
  refine ⟨a, r, ?_, { hres with
    gdlRing := h.gdlRing
    gdlSlot := fun g hg => ?_
    dirty := fun e he hd => ?_
    freeClean := fun j hj => ?_
    lists := h.lists
    listed := fun i' b' hb' => ?_ }⟩
  · rw [getBlock]
    simp only [hmiss, if_true, hfree, Option.bind_some]
    exact hrun
  · obtain ⟨e, he, heq⟩ := h.gdlSlot g hg
    exact ⟨e, List.mem_cons_of_mem _ he, heq⟩
  · rcases List.mem_cons.mp he with rfl | he
    · simp [Resident.loaded] at hd
    · simp only [Function.update_of_ne (hne e he)] at hd ⊢
      exact h.dirty e he hd
  · simp only [Function.update_of_ne (hnefree j hj)]
    exact h.freeClean j (by rw [hfree]; exact List.mem_cons_of_mem _ hj)
  · obtain ⟨e, he, heq, hlive⟩ := h.listed i' b' hb'
    refine ⟨e, List.mem_cons_of_mem _ he, ?_, ?_⟩
    · simp only [Function.update_of_ne (hne e he)]
      exact heq
    · simp only [Function.update_of_ne (hne e he)]
      exact hlive

end GetBlock

/-! ## `write_block` -/

section Write

variable {disk : DiskInterface} {c : Cache} {L G : List (ℕ × ℤ)} {m : Image}
  {buf : Bytes} {inum p : UInt64} {leftover : Leftover}

/-- The per-inode lists after a write: still proper, and the block is the only one that can be new. -/
theorem DlProper.exists_insertData {dl : DlHm} (h : DlProper dl)
    (hleft : blockType buf = BlockType.data.code → dlChain dl inum = .null → leftover = .null) :
    ∃ dl', dlInsertData buf dl inum p leftover = some dl' ∧ DlProper dl' ∧
      ∀ i, ∀ b ∈ dlBlocks dl' i, b ∈ dlBlocks dl i ∨ b = p := by
  by_cases htype : blockType buf = BlockType.data.code
  · by_cases hb : p ∈ dlBlocks dl inum
    · exact ⟨dl, by rw [dlInsertData, if_pos htype, h.insert_of_mem leftover hb], h,
        fun i b hb => Or.inl hb⟩
    · obtain ⟨list, dl', -, hrun, hrep, hproper, hblocks⟩ :=
        h.insert_of_notMem (hleft htype) hb
      refine ⟨dl', by rw [dlInsertData, if_pos htype, hrun],
        hrep.dlProper h hproper (hblocks ▸ List.nodup_cons.mpr ⟨hb, h.nodup inum⟩), ?_⟩
      intro i b hbi
      rcases eq_or_ne i inum with rfl | hi
      · rw [hrep.dlBlocks_same, hblocks, List.mem_cons] at hbi
        exact hbi.symm
      · rw [hrep.dlBlocks_other hi] at hbi
        exact Or.inl hbi
  · exact ⟨dl, by rw [dlInsertData, if_neg htype], h, fun i b hb => Or.inl hb⟩

/-- Writing a block that is in a slot. -/
theorem Bookkept.writeEntry (h : Bookkept disk c L G) (buf : Bytes) (inum : UInt64)
    (leftover : Leftover) {e : ℕ × ℤ} (he : e ∈ L)
    (hp : (c.cache e.2).blockNumber = p) (hsize : c.gdl.size ≠ intMax)
    (hleft : blockType buf = BlockType.data.code → dlChain c.dirtyList inum = .null →
      leftover = .null) :
    ∃ a r dl, writeEntry buf inum p leftover e.2 ⟨m, c⟩ =
        some ⟨m, { c with gdl := r, dirtyList := dl, cache := written c.cache e.2 buf a }⟩ ∧
      dlInsertData buf c.dirtyList inum p leftover = some dl ∧
      Bookkept disk { c with gdl := r, dirtyList := dl, cache := written c.cache e.2 buf a } L
        ((a, e.2) :: G) := by
  obtain ⟨dl, hdl, hproper, hblocks⟩ := h.lists.exists_insertData (p := p) hleft
  obtain ⟨a, r, hpush, hring⟩ := h.gdlRing.push e.2
  obtain ⟨page, hpage⟩ := Option.ne_none_iff_exists'.mp (h.page e he)
  have hres : Resident disk { c with
      gdl := { r with head := some a }, dirtyList := dl,
      cache := written c.cache e.2 buf a } L := by
    refine h.toResident.congr rfl rfl rfl rfl (written_blockNumber _ _ · _ _)
      (written_lruPos _ _ · _ _) fun i hi => ?_
    show (written c.cache e.2 buf a i).pageData ≠ none
    rcases eq_or_ne i e.2 with rfl | hne
    · rw [written_same]
      simp
    · rwa [written_ne _ _ _ _ _ hne]
  refine ⟨a, { r with head := some a }, dl, ?_, hdl, { hres with
    gdlRing := hring
    gdlSlot := fun g hg => ?_
    dirty := fun e' he' hd => ?_
    freeClean := fun j hj => ?_
    lists := hproper
    listed := fun i b hb => ?_ }⟩
  · simp only [Nbtrfs.writeEntry, (h.index_of_mem he).2.2, hpage, Option.bind_eq_bind,
      Option.bind_some, hdl, Cache.gdlPush, if_neg hsize, hpush, Option.map_some, Cache.setEntry,
      written]
  · rcases List.mem_cons.mp hg with rfl | hg
    · exact ⟨e, he, rfl⟩
    · exact h.gdlSlot g hg
  · rcases eq_or_ne e'.2 e.2 with heq | hne
    · exact ⟨a, by simp only [heq, written_same], by rw [heq]; exact List.mem_cons_self⟩
    · simp only [written_ne _ _ _ _ _ hne] at hd ⊢
      obtain ⟨a', hpos, hmem⟩ := h.dirty e' he' hd
      exact ⟨a', hpos, List.mem_cons_of_mem _ hmem⟩
  · have hne : j ≠ e.2 := by
      rintro rfl
      exact (List.nodup_append.mp h.slots_nodup).2.2 e.2 (List.mem_map_of_mem he) e.2 hj rfl
    simp only [written_ne _ _ _ _ _ hne]
    exact h.freeClean j hj
  · simp only [written_blockNumber]
    have hself : ∀ a', (written c.cache e.2 buf a e.2).gdlPos = some a' →
        (a', e.2) ∈ (a, e.2) :: G := by
      intro a' ha'
      rw [written_same] at ha'
      obtain rfl : a = a' := by simpa using ha'
      exact List.mem_cons_self
    rcases hblocks i b hb with hb | rfl
    · obtain ⟨e', he', heq, hlive⟩ := h.listed i b hb
      refine ⟨e', he', heq, fun a' ha' => ?_⟩
      rcases eq_or_ne e'.2 e.2 with heq' | hne
      · rw [heq'] at ha' ⊢
        exact hself a' ha'
      · rw [written_ne _ _ _ _ _ hne] at ha'
        exact List.mem_cons_of_mem _ (hlive a' ha')
    · exact ⟨e, he, hp, hself⟩

end Write

/-! ## Write-back of a slot -/

section WriteBack

variable {disk : DiskInterface} {c : Cache} {L G : List (ℕ × ℤ)} {m : Image}

/-- Writing a page back and marking its slot clean keeps the bookkeeping, whichever nodes of the
global list were removed, as long as those of the other slots stay. -/
theorem Bookkept.writtenBack (h : Bookkept disk c L G) {e : ℕ × ℤ} {G' : List (ℕ × ℤ)}
    {r : LinkRing ℤ} {dl : DlHm} (hring : IsRing r G') (hsub : ∀ g ∈ G', g ∈ G)
    (hkeep : ∀ g ∈ G, g.2 ≠ e.2 → g ∈ G') (hproper : DlProper dl)
    (hblocks : ∀ i, ∀ b ∈ dlBlocks dl i, b ∈ dlBlocks c.dirtyList i) :
    Bookkept disk { c with gdl := r, dirtyList := dl, cache := Nbtrfs.writtenBack c.cache e.2 }
      L G' := by
  have hres : Resident disk { c with
      gdl := r, dirtyList := dl, cache := Nbtrfs.writtenBack c.cache e.2 } L := by
    refine h.toResident.congr rfl rfl rfl rfl (writtenBack_blockNumber _ _ ·)
      (writtenBack_lruPos _ _ ·) fun i hi => ?_
    show (Nbtrfs.writtenBack c.cache e.2 i).pageData ≠ none
    rwa [writtenBack_pageData]
  refine { hres with
    gdlRing := hring
    gdlSlot := fun g hg => h.gdlSlot g (hsub g hg)
    dirty := fun e' he' hd => ?_
    freeClean := fun j hj => ?_
    lists := hproper
    listed := fun i b hb => ?_ }
  · rcases eq_or_ne e'.2 e.2 with heq | hne
    · simp only [heq, writtenBack_same] at hd
      cases hd
    · simp only [writtenBack_ne _ _ _ hne] at hd ⊢
      obtain ⟨a, hpos, hmem⟩ := h.dirty e' he' hd
      exact ⟨a, hpos, hkeep _ hmem hne⟩
  · rcases eq_or_ne j e.2 with rfl | hne
    · simp only [writtenBack_same]
    · simp only [writtenBack_ne _ _ _ hne]
      exact h.freeClean j hj
  · obtain ⟨e', he', heq, hlive⟩ := h.listed i b (hblocks i b hb)
    refine ⟨e', he', (writtenBack_blockNumber _ _ _).trans heq, fun a ha => ?_⟩
    rcases eq_or_ne e'.2 e.2 with heq' | hne
    · simp only [heq', writtenBack_same] at ha
      cases ha
    · simp only [writtenBack_ne _ _ _ hne] at ha
      exact hkeep _ (hlive a ha) hne

theorem DiskInterface.exists_diskGetBlock {p : UInt64} (h : disk.diskGetBlock p ≠ none) :
    ∃ b, disk.diskGetBlock p = some b :=
  Option.ne_none_iff_exists'.mp h

/-- The page of a slot reaches the device under its block number. -/
theorem Contents.writtenBack {e : ℕ × ℤ} (he : e ∈ L) {page : Bytes}
    (hpage : (c.cache e.2).pageData = some page) {b : ℕ}
    (hb : disk.diskGetBlock (c.cache e.2).blockNumber = some b) {cur : UInt64 → Bytes}
    {r : LinkRing ℤ} {dl : DlHm} (h : Contents disk ⟨m, c⟩ L cur) :
    Contents disk ⟨Function.update m b page,
      { c with gdl := r, dirtyList := dl, cache := Nbtrfs.writtenBack c.cache e.2 }⟩ L cur := by
  have hlt := h.lt e he
  obtain rfl : b = (c.cache e.2).blockNumber.toNat :=
    DiskInterface.eq_of_diskGetBlock hb (lt_of_lt_of_le hlt (by
      simp only [DiskInterface.addressable]
      omega))
  have hcur : page = cur (c.cache e.2).blockNumber :=
    Option.some.inj (hpage.symm.trans (h.page e he))
  refine ⟨fun e' he' => ?_, fun e' he' => ?_, fun p hclean => ?_⟩
  · simp only [writtenBack_blockNumber]
    exact h.lt e' he'
  · simp only [writtenBack_blockNumber, writtenBack_pageData]
    exact h.page e' he'
  · show Function.update m (c.cache e.2).blockNumber.toNat page p.toNat = cur p
    rcases eq_or_ne p (c.cache e.2).blockNumber with rfl | hne
    · rw [Function.update_self, hcur]
    · have hne' : p.toNat ≠ (c.cache e.2).blockNumber.toNat := fun heq =>
        hne (UInt64.toNat_inj.mp heq)
      rw [Function.update_of_ne hne']
      refine h.clean p fun e' he' heq => ?_
      have hslot : e'.2 ≠ e.2 := fun hee => hne (by rw [← heq, hee])
      have hd := hclean e' he' (by simpa using heq)
      simpa only [writtenBack_ne _ _ _ hslot] using hd

/-- The nodes `G` name no slot twice, and dirty slots only. -/
structure NamedOnce (c : Cache) (G : List (ℕ × ℤ)) : Prop where
  nodup : (G.map Prod.snd).Nodup
  dirty : ∀ g ∈ G, (c.cache g.2).dirtyBit = true

/-- A slot that is written back leaves the nodes of the other slots. -/
theorem NamedOnce.writtenBack {i : ℤ} {G' : List (ℕ × ℤ)} {r : LinkRing ℤ} {dl : DlHm}
    (h : NamedOnce c G) (hsub : G'.Sublist G) (hne : ∀ g ∈ G', g.2 ≠ i) :
    NamedOnce { c with gdl := r, dirtyList := dl, cache := Nbtrfs.writtenBack c.cache i } G' where
  nodup := h.nodup.sublist (hsub.map _)
  dirty g hg := by
    simp only [writtenBack_ne _ _ _ (hne g hg)]
    exact h.dirty g (hsub.subset hg)

/-- One turn of the loop of `cache_fsync`. -/
theorem Bookkept.fsyncBlock (h : Bookkept disk c L G) {e : ℕ × ℤ} (he : e ∈ L)
    (hlive : ∀ a, (c.cache e.2).gdlPos = some a → (a, e.2) ∈ G) :
    ∃ b page r G', fsyncBlock disk (c.cache e.2).blockNumber ⟨m, c⟩ =
        some ⟨Function.update m b page,
          { c with gdl := r, cache := Nbtrfs.writtenBack c.cache e.2 }⟩ ∧
      disk.diskGetBlock (c.cache e.2).blockNumber = some b ∧
      (c.cache e.2).pageData = some page ∧
      Bookkept disk { c with gdl := r, cache := Nbtrfs.writtenBack c.cache e.2 } L G' ∧
      (NamedOnce c G →
        NamedOnce { c with gdl := r, cache := Nbtrfs.writtenBack c.cache e.2 } G') := by
  obtain ⟨page, hpage⟩ := Option.ne_none_iff_exists'.mp (h.page e he)
  obtain ⟨b, hb⟩ := DiskInterface.exists_diskGetBlock (h.reach e he)
  obtain ⟨v, r, G', hpop, hring, hsub, hkeep, honce⟩ : ∃ v r G',
      c.gdl.pop (.outside (c.cache e.2).gdlPos) = some (v, r) ∧ IsRing r G' ∧
        G'.Sublist G ∧ (∀ g ∈ G, g.2 ≠ e.2 → g ∈ G') ∧
        (NamedOnce c G → ∀ g ∈ G', g.2 ≠ e.2) := by
    cases hpos : (c.cache e.2).gdlPos with
    | none =>
        refine ⟨none, c.gdl, G, rfl, h.gdlRing, List.Sublist.refl G, fun g hg _ => hg,
          fun honce g hg heq => ?_⟩
        -- a slot without a position is clean, and no clean slot is named
        obtain ⟨a, ha, -⟩ := h.dirty e he (heq ▸ honce.dirty g hg)
        rw [hpos] at ha
        cases ha
    | some a =>
        obtain ⟨xs, ys, rfl⟩ := List.append_of_mem (hlive a hpos)
        obtain ⟨r, hpop, hring⟩ := h.gdlRing.pop
        refine ⟨_, r, xs ++ ys, hpop, hring,
          (List.Sublist.refl xs).append (List.sublist_cons_self _ ys), fun g hg hne => ?_,
          fun honce g hg heq => ?_⟩
        · simp only [List.mem_append, List.mem_cons] at hg ⊢
          rcases hg with hg | rfl | hg
          · exact Or.inl hg
          · exact absurd rfl hne
          · exact Or.inr hg
        · have hnodup := honce.nodup
          rw [List.map_append, List.map_cons, List.nodup_middle, List.nodup_cons,
            ← List.map_append] at hnodup
          exact hnodup.1 (heq ▸ List.mem_map_of_mem hg)
  refine ⟨b, page, r, G', ?_, hb, hpage,
    h.writtenBack hring hsub.subset hkeep h.lists fun _ _ hb => hb,
    fun h => h.writtenBack hsub (honce h)⟩
  simp only [Nbtrfs.fsyncBlock, h.hit e he, (h.index_of_mem he).2.2, hpage, Option.bind_eq_bind,
    Option.bind_some, diskWriteBlock, hb, Option.map_some, Cache.gdlPop, hpop, Cache.setEntry,
    Nbtrfs.writtenBack]

/-- One turn of the loop of `cache_sync`, without the removal from the ring. -/
theorem Bookkept.syncEntry {a : ℕ} {e : ℕ × ℤ} (h : Bookkept disk c L (G ++ [(a, e.2)]))
    (he : e ∈ L) {r : LinkRing ℤ} (hring : IsRing r G) :
    ∃ b page dl, syncEntry disk e.2 ⟨m, { c with gdl := r }⟩ =
        some ⟨Function.update m b page,
          { c with gdl := r, dirtyList := dl, cache := Nbtrfs.writtenBack c.cache e.2 }⟩ ∧
      disk.diskGetBlock (c.cache e.2).blockNumber = some b ∧
      (c.cache e.2).pageData = some page ∧
      dlRemoveData page c.dirtyList (c.cache e.2).inodeNumber (c.cache e.2).blockNumber =
        some dl ∧
      Bookkept disk
        { c with gdl := r, dirtyList := dl, cache := Nbtrfs.writtenBack c.cache e.2 } L G := by
  obtain ⟨page, hpage⟩ := Option.ne_none_iff_exists'.mp (h.page e he)
  obtain ⟨b, hb⟩ := DiskInterface.exists_diskGetBlock (h.reach e he)
  obtain ⟨dl, hdl, hproper, hblocks⟩ : ∃ dl,
      dlRemoveData page c.dirtyList (c.cache e.2).inodeNumber (c.cache e.2).blockNumber =
        some dl ∧ DlProper dl ∧ ∀ i, ∀ b ∈ dlBlocks dl i, b ∈ dlBlocks c.dirtyList i := by
    rw [dlRemoveData]
    split
    · obtain ⟨dl, hrun, hproper, hother, hsame, -⟩ := h.lists.removeBlock
        (c.cache e.2).inodeNumber (c.cache e.2).blockNumber
      refine ⟨dl, hrun, hproper, fun i b hb => ?_⟩
      rcases eq_or_ne i (c.cache e.2).inodeNumber with rfl | hi
      · rw [hsame] at hb
        exact List.mem_of_mem_erase hb
      · rwa [dlBlocks_eq, hother i hi, ← dlBlocks_eq] at hb
    · exact ⟨c.dirtyList, rfl, h.lists, fun _ _ hb => hb⟩
  have hentry : ({ c with gdl := r } : Cache).entry e.2 = some (c.cache e.2) :=
    (h.index_of_mem he).2.2
  refine ⟨b, page, dl, ?_, hb, hpage, hdl, h.writtenBack hring ?_ ?_ hproper hblocks⟩
  · simp only [Nbtrfs.syncEntry, hentry, hpage, Option.bind_eq_bind, Option.bind_some,
      diskWriteBlock, hb, Option.map_some, hdl, Cache.setEntry, Nbtrfs.writtenBack]
  · intro g hg
    exact List.mem_append_left _ hg
  · intro g hg hne
    rcases List.mem_append.mp hg with hg | hg
    · exact hg
    · obtain rfl := List.mem_singleton.mp hg
      exact absurd rfl hne

end WriteBack

/-! ## The contents after `get_block` and `write_block` -/

section Contents

variable {disk : DiskInterface} {c : Cache} {L : List (ℕ × ℤ)} {m : Image} {cur : UInt64 → Bytes}

/-- The contents depend on the slots of the ring up to their order, and on no ring position. -/
theorem Contents.congr (h : Contents disk ⟨m, c⟩ L cur) {c' : Cache} {L' : List (ℕ × ℤ)}
    (hL : ∀ i, (∃ e ∈ L', e.2 = i) ↔ ∃ e ∈ L, e.2 = i)
    (hblock : ∀ i, (c'.cache i).blockNumber = (c.cache i).blockNumber)
    (hpage : ∀ i, (c'.cache i).pageData = (c.cache i).pageData)
    (hdirty : ∀ i, (c'.cache i).dirtyBit = (c.cache i).dirtyBit) :
    Contents disk ⟨m, c'⟩ L' cur := by
  refine ⟨fun e he => ?_, fun e he => ?_, fun p hclean => ?_⟩
  · obtain ⟨e', he', heq⟩ := (hL e.2).mp ⟨e, he, rfl⟩
    simp only [hblock, ← heq]
    exact h.lt e' he'
  · obtain ⟨e', he', heq⟩ := (hL e.2).mp ⟨e, he, rfl⟩
    simp only [hblock, hpage, ← heq]
    exact h.page e' he'
  · refine h.clean p fun e he heq => ?_
    obtain ⟨e', he', heq'⟩ := (hL e.2).mpr ⟨e, he, rfl⟩
    have hd := hclean e' he' (by simpa only [hblock, heq'] using heq)
    simpa only [hdirty, heq'] using hd

/-- Loading a block that no slot holds gives the slot the content of the block. -/
theorem Contents.loaded (h : Contents disk ⟨m, c⟩ L cur) {c' : Cache} {i : ℤ} {a : ℕ}
    {inum p : UInt64} {old : CacheEntry} (hp : p.toNat < disk.addressable)
    (hnew : ∀ e ∈ L, e.2 ≠ i) (hmiss : ∀ e ∈ L, (c.cache e.2).blockNumber ≠ p)
    (hcache : c'.cache =
      Function.update c.cache i (Resident.loaded inum p (m p.toNat) a old)) :
    Contents disk ⟨m, c'⟩ ((a, i) :: L) cur := by
  have hpage : m p.toNat = cur p := h.clean p fun e he heq => absurd heq (hmiss e he)
  have hold : ∀ e ∈ L, c'.cache e.2 = c.cache e.2 := fun e he => by
    rw [hcache, Function.update_of_ne (hnew e he)]
  have hself : c'.cache i = Resident.loaded inum p (m p.toNat) a old := by
    rw [hcache, Function.update_self]
  refine ⟨fun e he => ?_, fun e he => ?_, fun q hclean => ?_⟩
  · rcases List.mem_cons.mp he with rfl | he
    · simp only [hself]
      exact hp
    · simpa only [hold e he] using h.lt e he
  · rcases List.mem_cons.mp he with rfl | he
    · simp only [hself, Resident.loaded, hpage]
    · simpa only [hold e he] using h.page e he
  · refine h.clean q fun e he heq => ?_
    have hd := hclean e (List.mem_cons_of_mem _ he)
    simp only [hold e he] at hd
    exact hd heq

/-- A write gives its block the new content. -/
theorem Contents.written (h : Contents disk ⟨m, c⟩ L cur) (hres : Resident disk c L)
    {e : ℕ × ℤ} (he : e ∈ L) {d : Cache} {buf : Bytes} {a : ℕ}
    (hcache : d.cache = Nbtrfs.written c.cache e.2 buf a) :
    Contents disk ⟨m, d⟩ L (Function.update cur (c.cache e.2).blockNumber buf) := by
  refine ⟨fun e' he' => ?_, fun e' he' => ?_, fun q hclean => ?_⟩
  · simp only [hcache, written_blockNumber]
    exact h.lt e' he'
  · simp only [hcache, written_blockNumber]
    rcases eq_or_ne e' e with rfl | hne
    · simp [written_same]
    · have hslot : e'.2 ≠ e.2 := fun heq => hne (hres.eq_of_index he' he heq)
      have hblock : (c.cache e'.2).blockNumber ≠ (c.cache e.2).blockNumber := fun heq =>
        hne (hres.eq_of_block he' he heq)
      rw [written_ne _ _ _ _ _ hslot, Function.update_of_ne hblock]
      exact h.page e' he'
  · have hne : q ≠ (c.cache e.2).blockNumber := by
      rintro rfl
      have hd := hclean e he (by simp only [hcache, written_blockNumber])
      simp only [hcache, written_same] at hd
      cases hd
    rw [Function.update_of_ne hne]
    refine h.clean q fun e' he' heq => ?_
    have hslot : e'.2 ≠ e.2 := fun hee => hne (by rw [← heq, hee])
    have hd := hclean e' he' (by simpa only [hcache, written_blockNumber] using heq)
    simpa only [hcache, written_ne _ _ _ _ _ hslot] using hd

end Contents

/-! ## The loops of `cache_fsync` and `cache_sync` -/

/-- From `s` to `s'` slots were written back only: block, owner and page of every slot are the same,
no clean slot became dirty, and the contents are as they were. -/
structure WroteBack (disk : DiskInterface) (L : List (ℕ × ℤ)) (s s' : CachedDisk) : Prop where
  cacheSize : s'.cache.cacheSize = s.cache.cacheSize
  block : ∀ i, (s'.cache.cache i).blockNumber = (s.cache.cache i).blockNumber
  inode : ∀ i, (s'.cache.cache i).inodeNumber = (s.cache.cache i).inodeNumber
  page : ∀ i, (s'.cache.cache i).pageData = (s.cache.cache i).pageData
  dirty : ∀ i, (s'.cache.cache i).dirtyBit = true → (s.cache.cache i).dirtyBit = true
  contents : ∀ cur, Contents disk s L cur → Contents disk s' L cur

namespace WroteBack

variable {disk : DiskInterface} {L : List (ℕ × ℤ)} {s s' s'' : CachedDisk}

theorem refl : WroteBack disk L s s where
  cacheSize := rfl
  block _ := rfl
  inode _ := rfl
  page _ := rfl
  dirty _ h := h
  contents _ h := h

theorem trans (h : WroteBack disk L s s') (h' : WroteBack disk L s' s'') :
    WroteBack disk L s s'' where
  cacheSize := h'.cacheSize.trans h.cacheSize
  block i := (h'.block i).trans (h.block i)
  inode i := (h'.inode i).trans (h.inode i)
  page i := (h'.page i).trans (h.page i)
  dirty i hd := h.dirty i (h'.dirty i hd)
  contents cur hc := h'.contents cur (h.contents cur hc)

/-- Writing one slot back. -/
theorem single {c : Cache} {m : Image} {r : LinkRing ℤ} {dl : DlHm} {e : ℕ × ℤ} (he : e ∈ L)
    {page : Bytes} (hpage : (c.cache e.2).pageData = some page) {b : ℕ}
    (hb : disk.diskGetBlock (c.cache e.2).blockNumber = some b) :
    WroteBack disk L ⟨m, c⟩ ⟨Function.update m b page,
      { c with gdl := r, dirtyList := dl, cache := Nbtrfs.writtenBack c.cache e.2 }⟩ where
  cacheSize := rfl
  block i := writtenBack_blockNumber _ _ _
  inode i := writtenBack_inodeNumber _ _ _
  page i := writtenBack_pageData _ _ _
  dirty i hd := by
    rcases eq_or_ne i e.2 with rfl | hne
    · simp only [writtenBack_same] at hd
      cases hd
    · simpa only [writtenBack_ne _ _ _ hne] using hd
  contents cur hc := hc.writtenBack he hpage hb

end WroteBack

/-- The loop of `cache_fsync` over a chain whose blocks are on some dirty list: it goes through, and
the blocks that `dl_pop` passes end up clean. -/
theorem Bookkept.fsyncLoop {disk : DiskInterface} {L : List (ℕ × ℤ)} {chain : DlChain}
    (hchain : chain.Proper) {s : CachedDisk} {G : List (ℕ × ℤ)} (h : Bookkept disk s.cache L G)
    (hlist : ∀ b ∈ chain.popped, ∃ i, b ∈ dlBlocks s.cache.dirtyList i) :
    ∃ s' G', fsyncLoop disk chain s = some s' ∧ Bookkept disk s'.cache L G' ∧
      WroteBack disk L s s' ∧ s'.cache.dirtyList = s.cache.dirtyList ∧
      (∀ e ∈ L, (s.cache.cache e.2).blockNumber ∈ chain.popped →
        (s'.cache.cache e.2).dirtyBit = false) ∧
      (∀ e ∈ L, (s.cache.cache e.2).blockNumber ∉ chain.popped →
        (s'.cache.cache e.2).dirtyBit = (s.cache.cache e.2).dirtyBit) ∧
      (NamedOnce s.cache G → NamedOnce s'.cache G') := by
  induction chain generalizing s G with
  | null =>
      exact ⟨s, G, rfl, h, .refl, rfl, fun e he hb => (by cases hb), fun e he hb => rfl,
        fun honce => honce⟩
  | unset => exact hchain.elim
  | node idx b next ih =>
      obtain ⟨m, c⟩ := s
      replace h : Bookkept disk c L G := h
      obtain ⟨i, hi⟩ := hlist b List.mem_cons_self
      obtain ⟨e, he, rfl, hlive⟩ := h.listed i b hi
      obtain ⟨a, page, r, G₁, hrun, ha, hpage, hbook, honce⟩ := h.fsyncBlock (m := m) he hlive
      have hwrote : WroteBack disk L ⟨m, c⟩ ⟨Function.update m a page,
          { c with gdl := r, cache := Nbtrfs.writtenBack c.cache e.2 }⟩ :=
        WroteBack.single he hpage ha
      have hclean : ∀ e' ∈ L, (c.cache e'.2).blockNumber = (c.cache e.2).blockNumber →
          (Nbtrfs.writtenBack c.cache e.2 e'.2).dirtyBit = false := by
        intro e' he' heq
        rw [h.eq_of_block he' he heq, writtenBack_same]
      have hsame : ∀ e' ∈ L, (c.cache e'.2).blockNumber ≠ (c.cache e.2).blockNumber →
          Nbtrfs.writtenBack c.cache e.2 e'.2 = c.cache e'.2 := by
        intro e' he' hne
        exact writtenBack_ne _ _ _ fun hee => hne (by rw [hee])
      by_cases hidx : 1 < idx
      · have hpopped : (DlChain.node idx (c.cache e.2).blockNumber next).popped =
            (c.cache e.2).blockNumber :: next.popped := by rw [DlChain.popped, if_pos hidx]
        obtain ⟨s', G', hrun', hbook', hwrote', hdl, hin, hout, honce'⟩ := ih hchain
          (s := ⟨Function.update m a page,
            { c with gdl := r, cache := Nbtrfs.writtenBack c.cache e.2 }⟩) hbook
          fun b hb => hlist b (by rw [hpopped]; exact List.mem_cons_of_mem _ hb)
        refine ⟨s', G', ?_, hbook', hwrote.trans hwrote', hdl, fun e' he' hb => ?_,
          fun e' he' hb => ?_, fun h => honce' (honce h)⟩
        · simp only [Nbtrfs.fsyncLoop, hrun, Option.bind_eq_bind, Option.bind_some, if_pos hidx]
          exact hrun'
        · rw [hpopped, List.mem_cons] at hb
          by_cases hnext : (c.cache e'.2).blockNumber ∈ next.popped
          · exact hin e' he' (by rwa [writtenBack_blockNumber])
          · rw [hout e' he' (by rwa [writtenBack_blockNumber])]
            exact hclean e' he' (hb.resolve_right hnext)
        · rw [hpopped, List.mem_cons, not_or] at hb
          rw [hout e' he' (by rw [writtenBack_blockNumber]; exact hb.2)]
          exact congrArg CacheEntry.dirtyBit (hsame e' he' hb.1)
      · have hpopped : (DlChain.node idx (c.cache e.2).blockNumber next).popped =
            [(c.cache e.2).blockNumber] := by rw [DlChain.popped, if_neg hidx]
        refine ⟨_, G₁, ?_, hbook, hwrote, rfl, fun e' he' hb => ?_, fun e' he' hb => ?_, honce⟩
        · simp only [Nbtrfs.fsyncLoop, hrun, Option.bind_eq_bind, Option.bind_some, if_neg hidx]
        · rw [hpopped, List.mem_singleton] at hb
          exact hclean e' he' hb
        · rw [hpopped, List.mem_singleton] at hb
          exact congrArg CacheEntry.dirtyBit (hsame e' he' hb)

/-- What `cache_sync` takes off the per-inode lists when it writes slot `i` back. -/
def Unlisted (f : ℤ → CacheEntry) (i : ℤ) (inode b : UInt64) : Prop :=
  (f i).blockNumber = b ∧ (f i).inodeNumber = inode ∧
    ∃ page, (f i).pageData = some page ∧ blockType page = BlockType.data.code

/-- `dl_remove_data` takes the block of the slot that held the page from the list of its inode, and
no other. -/
theorem DlProper.mem_removeData {dl dl' : DlHm} (h : DlProper dl) {f : ℤ → CacheEntry} {i : ℤ}
    {page : Bytes} (hpage : (f i).pageData = some page)
    (hrun : dlRemoveData page dl (f i).inodeNumber (f i).blockNumber = some dl') (j b : UInt64) :
    (b ∈ dlBlocks dl' j ↔ b ∈ dlBlocks dl j ∧ ¬Unlisted f i j b) ∧
      ((dlChain dl j).Indexed → (dlChain dl' j).Indexed) := by
  rw [dlRemoveData] at hrun
  split at hrun
  · next htype =>
      obtain ⟨dl₁, hrun₁, -, hother, hsame, hidx⟩ :=
        h.removeBlock (f i).inodeNumber (f i).blockNumber
      obtain rfl : dl₁ = dl' := Option.some.inj (hrun₁.symm.trans hrun)
      rcases eq_or_ne j (f i).inodeNumber with rfl | hj
      · refine ⟨?_, hidx⟩
        rw [hsame, (h.nodup _).mem_erase_iff, and_comm]
        refine and_congr_right fun _ => not_congr ?_
        exact ⟨fun heq => ⟨heq.symm, rfl, page, hpage, htype⟩, fun hu => hu.1.symm⟩
      · rw [hother j hj, dlBlocks_eq, hother j hj, ← dlBlocks_eq]
        exact ⟨(and_iff_left fun hu => hj hu.2.1.symm).symm, fun hi => hi⟩
  · next htype =>
      obtain rfl : dl = dl' := Option.some.inj hrun
      refine ⟨(and_iff_left fun hu => htype ?_).symm, fun hi => hi⟩
      obtain ⟨-, -, page', hpage', htype'⟩ := hu
      rwa [Option.some.inj (hpage.symm.trans hpage')]

/-- One turn of the loop of `cache_sync` takes the tail off the ring. -/
theorem syncLoop_turn (disk : DiskInterface) (fuel : ℕ) (m : Image) {c : Cache}
    {G : List (ℕ × ℤ)} {a : ℕ} {i : ℤ} (hring : IsRing c.gdl (G ++ [(a, i)])) (h0 : 0 ≤ i)
    (h1 : i < c.cacheSize) :
    ∃ r, IsRing r G ∧ syncLoop disk (fuel + 1) ⟨m, c⟩ =
      (syncEntry disk i ⟨m, { c with gdl := r }⟩).bind (syncLoop disk fuel) := by
  obtain ⟨first, hhead, hnode, hprev⟩ := hring.prev_of_head
  obtain ⟨node, hnode⟩ := Option.ne_none_iff_exists'.mp hnode
  have hnprev : node.prev = some a := by
    rw [LinkRing.prev, hnode] at hprev
    exact hprev
  obtain ⟨r, hpop, hring'⟩ := hring.pop
  rw [List.append_nil] at hring'
  have hsize : 0 < c.gdl.size := by
    rw [hring.size]
    simp only [List.length_append, List.length_singleton]
    omega
  have hrange : ¬(i < 0 ∨ (c.cacheSize : ℤ) ≤ i) := by omega
  refine ⟨r, hring', ?_⟩
  simp only [Nbtrfs.syncLoop, hhead, if_pos hsize, hnode, Option.bind_eq_bind, Option.bind_some,
    hnprev, Cache.gdlPop, hpop, Option.map_some, Option.getD_some, if_neg hrange]

/-- The loop of `cache_sync` empties the global dirty list, as long as it may take one turn more than
the list has nodes. -/
theorem Bookkept.syncLoop {disk : DiskInterface} {L : List (ℕ × ℤ)} {G : List (ℕ × ℤ)}
    {fuel : ℕ} (hfuel : G.length < fuel) {s : CachedDisk} (h : Bookkept disk s.cache L G) :
    ∃ s', syncLoop disk fuel s = some s' ∧ Bookkept disk s'.cache L [] ∧
      WroteBack disk L s s' ∧
      ∀ i b, (b ∈ dlBlocks s'.cache.dirtyList i ↔ b ∈ dlBlocks s.cache.dirtyList i ∧
          ∀ g ∈ G, ¬Unlisted s.cache.cache g.2 i b) ∧
        ((dlChain s.cache.dirtyList i).Indexed → (dlChain s'.cache.dirtyList i).Indexed) := by
  induction G using List.reverseRecOn generalizing s fuel with
  | nil =>
      obtain ⟨fuel, rfl⟩ : ∃ n, fuel = n + 1 := ⟨fuel - 1, by
        simp only [List.length_nil] at hfuel
        omega⟩
      have hhead : s.cache.gdl.head = none := by simpa using h.gdlRing.head
      refine ⟨s, by rw [Nbtrfs.syncLoop, hhead], h, .refl, fun i b => ⟨?_, fun hi => hi⟩⟩
      simp
  | append_singleton G g ih =>
      obtain ⟨fuel, rfl⟩ : ∃ n, fuel = n + 1 := ⟨fuel - 1, by omega⟩
      obtain ⟨m, c⟩ := s
      obtain ⟨a, i⟩ := g
      replace h : Bookkept disk c L (G ++ [(a, i)]) := h
      obtain ⟨e, he, rfl⟩ := h.gdlSlot (a, i) (by simp)
      obtain ⟨h0, h1, -⟩ := h.index_of_mem he
      obtain ⟨r, hring, hturn⟩ := syncLoop_turn disk fuel m h.gdlRing h0 h1
      obtain ⟨b, page, dl, hrun, hb, hpage, hdl, hbook⟩ := h.syncEntry (m := m) he hring
      have hfuel' : G.length < fuel := by
        simp only [List.length_append, List.length_singleton] at hfuel
        omega
      obtain ⟨s', hrun', hbook', hwrote', hlist'⟩ := ih hfuel' (s := ⟨Function.update m b page,
        { c with gdl := r, dirtyList := dl, cache := Nbtrfs.writtenBack c.cache e.2 }⟩) hbook
      refine ⟨s', ?_, hbook', (WroteBack.single he hpage hb).trans hwrote',
        fun i b' => ?_⟩
      · rw [hturn, hrun]
        exact hrun'
      · obtain ⟨hmem, hidx⟩ := hlist' i b'
        obtain ⟨hmem₁, hidx₁⟩ := h.lists.mem_removeData hpage hdl i b'
        refine ⟨?_, fun hi => hidx (hidx₁ hi)⟩
        have hsame : ∀ j, Unlisted (Nbtrfs.writtenBack c.cache e.2) j i b' ↔
            Unlisted c.cache j i b' := by
          intro j
          simp only [Unlisted, writtenBack_blockNumber, writtenBack_inodeNumber,
            writtenBack_pageData]
        rw [hmem, hmem₁]
        simp only [hsame, List.mem_append, List.mem_singleton]
        constructor
        · rintro ⟨⟨hb', hnot⟩, hall⟩
          refine ⟨hb', fun g hg => ?_⟩
          rcases hg with hg | rfl
          · exact hall g hg
          · exact hnot
        · rintro ⟨hb', hall⟩
          exact ⟨⟨hb', hall (a, e.2) (Or.inr rfl)⟩, fun g hg => hall g (Or.inl hg)⟩

end Nbtrfs
