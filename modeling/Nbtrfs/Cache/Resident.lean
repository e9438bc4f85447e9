import Nbtrfs.Cache.Ops

/-!
# The slots of the cache

Reference: `cache.c::get_block`, `lru.c`, `pci.c`, `fl.c`.

`Resident disk c L` describes a cache in which no block was evicted: the ring of `lru.c` holds the
slots `L`, the free list holds the other ones, and the index finds exactly the blocks in the ring.
`Resident.touch` and `Resident.load` say what `get_block` does to such a cache.
-/

namespace Nbtrfs

/-- The ring of recently used slots is `L`, nodes with slot indices; it, the free list and the
primary cache index describe the same set of slots. -/
structure Resident (disk : DiskInterface) (c : Cache) (L : List (ℕ × ℤ)) : Prop where
  limit : (c.cacheSize : ℤ) ≤ intMax
  ring : IsRing c.lru L
  slots : (L.map Prod.snd ++ c.freeList).Perm ((List.range c.cacheSize).map Int.ofNat)
  lruPos : ∀ e ∈ L, (c.cache e.2).lruPos = some e.1
  page : ∀ e ∈ L, (c.cache e.2).pageData ≠ none
  reach : ∀ e ∈ L, disk.diskGetBlock (c.cache e.2).blockNumber ≠ none
  blocks : (L.map fun e => (c.cache e.2).blockNumber).Nodup
  hit : ∀ e ∈ L, pciLookup c.pci (c.cache e.2).blockNumber = e.2
  miss : ∀ b, pciLookup c.pci b ≠ -1 → ∃ e ∈ L, (c.cache e.2).blockNumber = b

/-! ## The index -/

theorem pciLookup_insert_same (hashmap : PciHm) (b : UInt64) (i : ℤ) :
    pciLookup (pciInsert hashmap b i) b = i := by
  simp [pciLookup, pciInsert]

theorem pciLookup_insert_ne (hashmap : PciHm) {b b' : UInt64} (i : ℤ) (hne : b' ≠ b) :
    pciLookup (pciInsert hashmap b i) b' = pciLookup hashmap b' := by
  rw [pciLookup, pciLookup, pciInsert]
  by_cases hk : hashBucket b' = hashBucket b
  · have hfalse : (b == b') = false := by simpa using hne.symm
    rw [hk, Function.update_self, List.find?_cons, hfalse]
  · rw [Function.update_of_ne hk]

/-! ## Changes of a slot -/

/-- The slots with the ring position of slot `i` assigned. -/
def withLruPos (f : ℤ → CacheEntry) (i : ℤ) (a : ℕ) : ℤ → CacheEntry :=
  Function.update f i { f i with lruPos := some a }

section WithLruPos

variable (f : ℤ → CacheEntry) (i j : ℤ) (a : ℕ)

@[simp] theorem withLruPos_blockNumber :
    (withLruPos f i a j).blockNumber = (f j).blockNumber := by
  rcases eq_or_ne j i with rfl | h
  · simp [withLruPos]
  · simp [withLruPos, h]

@[simp] theorem withLruPos_inodeNumber :
    (withLruPos f i a j).inodeNumber = (f j).inodeNumber := by
  rcases eq_or_ne j i with rfl | h
  · simp [withLruPos]
  · simp [withLruPos, h]

@[simp] theorem withLruPos_pageData : (withLruPos f i a j).pageData = (f j).pageData := by
  rcases eq_or_ne j i with rfl | h
  · simp [withLruPos]
  · simp [withLruPos, h]

@[simp] theorem withLruPos_dirtyBit : (withLruPos f i a j).dirtyBit = (f j).dirtyBit := by
  rcases eq_or_ne j i with rfl | h
  · simp [withLruPos]
  · simp [withLruPos, h]

@[simp] theorem withLruPos_gdlPos : (withLruPos f i a j).gdlPos = (f j).gdlPos := by
  rcases eq_or_ne j i with rfl | h
  · simp [withLruPos]
  · simp [withLruPos, h]

@[simp] theorem withLruPos_lruPos_same : (withLruPos f i a i).lruPos = some a := by
  simp [withLruPos]

theorem withLruPos_lruPos_ne (h : j ≠ i) : (withLruPos f i a j).lruPos = (f j).lruPos := by
  simp [withLruPos, h]

end WithLruPos

namespace Resident

variable {disk : DiskInterface} {c : Cache} {L : List (ℕ × ℤ)} {m : Image}

/-! ## Reading the invariant -/

theorem slots_nodup (h : Resident disk c L) : (L.map Prod.snd ++ c.freeList).Nodup :=
  h.slots.nodup_iff.mpr ((List.nodup_range).map Int.ofNat_injective)

theorem entry_of_slots (h : Resident disk c L) {i : ℤ} (hi : i ∈ L.map Prod.snd ++ c.freeList) :
    0 ≤ i ∧ i < c.cacheSize ∧ c.entry i = some (c.cache i) := by
  have hmem := h.slots.mem_iff.mp hi
  obtain ⟨k, hk, rfl⟩ := List.mem_map.mp hmem
  have hlt : k < c.cacheSize := List.mem_range.mp hk
  have h0 : 0 ≤ Int.ofNat k := Int.natCast_nonneg k
  have h1 : Int.ofNat k < c.cacheSize := Int.ofNat_lt.mpr hlt
  exact ⟨h0, h1, by rw [Cache.entry, if_pos ⟨h0, h1⟩]⟩

theorem index_of_mem (h : Resident disk c L) {e : ℕ × ℤ} (he : e ∈ L) :
    0 ≤ e.2 ∧ e.2 < c.cacheSize ∧ c.entry e.2 = some (c.cache e.2) :=
  h.entry_of_slots (List.mem_append_left _ (List.mem_map_of_mem he))

theorem length_add (h : Resident disk c L) : L.length + c.freeList.length = c.cacheSize := by
  simpa using h.slots.length_eq

theorem indices_nodup (h : Resident disk c L) : (L.map Prod.snd).Nodup :=
  h.slots_nodup.of_append_left

/-- Two slots of the ring that hold the same block are the same. -/
theorem eq_of_block (h : Resident disk c L) {e e' : ℕ × ℤ} (he : e ∈ L) (he' : e' ∈ L)
    (heq : (c.cache e.2).blockNumber = (c.cache e'.2).blockNumber) : e = e' :=
  List.inj_on_of_nodup_map h.blocks he he' heq

/-- Two nodes of the ring that name the same slot are the same. -/
theorem eq_of_index (h : Resident disk c L) {e e' : ℕ × ℤ} (he : e ∈ L) (he' : e' ∈ L)
    (heq : e.2 = e'.2) : e = e' :=
  List.inj_on_of_nodup_map h.indices_nodup he he' heq

theorem lookup_ne_neg_one (h : Resident disk c L) {e : ℕ × ℤ} (he : e ∈ L) : e.2 ≠ -1 := by
  have := (h.index_of_mem he).1
  omega

/-- The index answers `-1` exactly for the blocks that no slot of the ring holds. -/
theorem lookup_eq_neg_one_iff (h : Resident disk c L) (b : UInt64) :
    pciLookup c.pci b = -1 ↔ ∀ e ∈ L, (c.cache e.2).blockNumber ≠ b := by
  constructor
  · rintro hmiss e he rfl
    exact h.lookup_ne_neg_one he ((h.hit e he).symm.trans hmiss)
  · intro hnone
    by_contra hne
    obtain ⟨e, he, heq⟩ := h.miss b hne
    exact hnone e he heq

/-- A change that keeps block numbers, ring positions and the presence of pages keeps the
invariant. -/
theorem congr (h : Resident disk c L) {c' : Cache} (hsize : c'.cacheSize = c.cacheSize)
    (hlru : c'.lru = c.lru) (hfree : c'.freeList = c.freeList) (hpci : c'.pci = c.pci)
    (hblock : ∀ i, (c'.cache i).blockNumber = (c.cache i).blockNumber)
    (hpos : ∀ i, (c'.cache i).lruPos = (c.cache i).lruPos)
    (hpage : ∀ i, (c.cache i).pageData ≠ none → (c'.cache i).pageData ≠ none) :
    Resident disk c' L where
  limit := hsize ▸ h.limit
  ring := hlru ▸ h.ring
  slots := by rw [hfree, hsize]; exact h.slots
  lruPos e he := by rw [hpos]; exact h.lruPos e he
  page e he := hpage e.2 (h.page e he)
  reach e he := by rw [hblock]; exact h.reach e he
  blocks := by simp only [hblock]; exact h.blocks
  hit e he := by rw [hpci, hblock]; exact h.hit e he
  miss b hb := by
    rw [hpci] at hb
    obtain ⟨e, he, heq⟩ := h.miss b hb
    exact ⟨e, he, (hblock e.2).trans heq⟩

/-! ## `get_block` -/

/-- A hit moves the slot to the front of the ring. -/
theorem touch {xs ys : List (ℕ × ℤ)} {e : ℕ × ℤ} (h : Resident disk c (xs ++ e :: ys)) :
    ∃ a r, touchBlock e.2 ⟨m, c⟩ =
        some (e.2, ⟨m, { c with lru := r, cache := withLruPos c.cache e.2 a }⟩) ∧
      Resident disk { c with lru := r, cache := withLruPos c.cache e.2 a }
        ((a, e.2) :: (xs ++ ys)) := by
  have he : e ∈ xs ++ e :: ys := by simp
  have hsize := h.ring.size
  have hpos := h.lruPos e he
  by_cases hone : 1 < c.lru.size
  · obtain ⟨r₁, hpop, hring₁⟩ := h.ring.pop
    obtain ⟨a, r₂, hpush, hring₂⟩ := hring₁.push e.2
    have hlen := h.length_add
    have hlimit : r₁.size ≠ intMax := by
      have hlim := h.limit
      rw [hring₁.size]
      simp only [List.length_append, List.length_cons] at hlen ⊢
      omega
    have hperm : (((a, e.2) :: (xs ++ ys)).map Prod.snd).Perm ((xs ++ e :: ys).map Prod.snd) := by
      simpa using List.perm_middle.symm
    have hnot : ∀ e' ∈ xs ++ ys, e'.2 ≠ e.2 := by
      intro e' he' heq
      have hnodup := (hperm.nodup_iff.mpr h.indices_nodup)
      rw [List.map_cons, List.nodup_cons] at hnodup
      exact hnodup.1 (heq ▸ List.mem_map_of_mem he')
    have hsub : ∀ e' ∈ xs ++ ys, e' ∈ xs ++ e :: ys := by
      intro e' he'
      simp only [List.mem_append, List.mem_cons] at he' ⊢
      tauto
    refine ⟨a, { r₂ with head := some a }, ?_, ?_⟩
    · simp only [touchBlock, hone, if_true, (h.index_of_mem he).2.2, Option.bind_eq_bind,
        Option.bind_some, Cache.lruPop, hpos, hpop, Option.map_some, Option.getD_some,
        Cache.lruPush, if_neg hlimit, hpush, Cache.setEntry, withLruPos]
    · constructor
      · exact h.limit
      · exact hring₂
      · exact (hperm.append_right _).trans h.slots
      · intro e' he'
        rcases List.mem_cons.mp he' with rfl | he'
        · exact withLruPos_lruPos_same _ _ _
        · exact (withLruPos_lruPos_ne _ _ _ _ (hnot e' he')).trans (h.lruPos e' (hsub e' he'))
      · intro e' he'
        show (withLruPos c.cache e.2 a e'.2).pageData ≠ none
        rw [withLruPos_pageData]
        rcases List.mem_cons.mp he' with rfl | he'
        · exact h.page e he
        · exact h.page e' (hsub e' he')
      · intro e' he'
        show disk.diskGetBlock (withLruPos c.cache e.2 a e'.2).blockNumber ≠ none
        rw [withLruPos_blockNumber]
        rcases List.mem_cons.mp he' with rfl | he'
        · exact h.reach e he
        · exact h.reach e' (hsub e' he')
      · simp only [withLruPos_blockNumber]
        refine (List.Perm.nodup_iff ?_).mpr h.blocks
        simpa using List.perm_middle.symm
      · intro e' he'
        show pciLookup c.pci (withLruPos c.cache e.2 a e'.2).blockNumber = e'.2
        rw [withLruPos_blockNumber]
        rcases List.mem_cons.mp he' with rfl | he'
        · exact h.hit e he
        · exact h.hit e' (hsub e' he')
      · intro b hb
        obtain ⟨e', he', heq⟩ := h.miss b hb
        rcases eq_or_ne e' e with rfl | hne
        · exact ⟨(a, e'.2), List.mem_cons_self, (withLruPos_blockNumber _ _ _ _).trans heq⟩
        · refine ⟨e', List.mem_cons_of_mem _ ?_, (withLruPos_blockNumber _ _ _ _).trans heq⟩
          simp only [List.mem_append, List.mem_cons] at he' ⊢
          tauto
  · -- the only slot of the ring stays where it is
    obtain ⟨rfl, rfl⟩ : xs = [] ∧ ys = [] := by
      rw [hsize] at hone
      simp only [List.length_append, List.length_cons] at hone
      exact ⟨List.length_eq_zero_iff.mp (by omega), List.length_eq_zero_iff.mp (by omega)⟩
    have hsame : withLruPos c.cache e.2 e.1 = c.cache := by
      rw [withLruPos, ← hpos]
      exact Function.update_eq_self _ _
    refine ⟨e.1, c.lru, ?_, ?_⟩
    · rw [touchBlock, if_neg hone, hsame]
    · rw [hsame]
      exact h

/-- The entry that `get_block` gives to a slot it fills with block `p` for inode `inum`. -/
def loaded (inum p : UInt64) (page : Bytes) (a : ℕ) (old : CacheEntry) : CacheEntry :=
  { dirtyBit := false, pinCount := 0, blockNumber := p, inodeNumber := inum,
    pageData := some page, lruPos := some a, gdlPos := old.gdlPos }

/-- A miss with a free slot fills that slot and puts it in front of the ring. -/
theorem load (h : Resident disk c L) (inum : UInt64) {p : UInt64} {b : ℕ} {i : ℤ} {free : List ℤ}
    (hfree : c.freeList = i :: free) (hmiss : pciLookup c.pci p = -1)
    (hp : disk.diskGetBlock p = some b) :
    ∃ a r, loadBlock disk inum p ⟨m, c⟩ = some (i, ⟨m, { c with
        freeList := free, lru := r, pci := pciInsert c.pci p i,
        cache := Function.update c.cache i (loaded inum p (m b) a (c.cache i)) }⟩) ∧
      Resident disk { c with
        freeList := free, lru := r, pci := pciInsert c.pci p i,
        cache := Function.update c.cache i (loaded inum p (m b) a (c.cache i)) } ((a, i) :: L) := by
  have hi : i ∈ L.map Prod.snd ++ c.freeList := by simp [hfree]
  obtain ⟨a, r, hpush, hring⟩ := h.ring.push i
  have hlen := h.length_add
  have hlimit : c.lru.size ≠ intMax := by
    have hlim := h.limit
    rw [h.ring.size]
    rw [hfree, List.length_cons] at hlen
    omega
  have hnodup := h.slots_nodup
  have hne : ∀ e ∈ L, e.2 ≠ i := by
    rintro e he rfl
    rw [hfree] at hnodup
    exact (List.nodup_append.mp hnodup).2.2 e.2 (List.mem_map_of_mem he) e.2 (by simp) rfl
  have habsent := (h.lookup_eq_neg_one_iff p).mp hmiss
  refine ⟨a, { r with head := some a }, ?_, ?_⟩
  · simp only [loadBlock, hfree, (h.entry_of_slots hi).2.2, Option.bind_eq_bind, Option.bind_some,
      diskReadBlock, hp, Option.map_some, Cache.lruPush, if_neg hlimit, hpush, Cache.setEntry,
      loaded]
  · constructor
    · exact h.limit
    · exact hring
    · refine List.Perm.trans ?_ h.slots
      rw [hfree]
      simpa using List.perm_middle.symm
    · intro e he
      rcases List.mem_cons.mp he with rfl | he
      · simp [loaded]
      · simpa [hne e he] using h.lruPos e he
    · intro e he
      rcases List.mem_cons.mp he with rfl | he
      · simp [loaded]
      · simpa [hne e he] using h.page e he
    · intro e he
      rcases List.mem_cons.mp he with rfl | he
      · simp [loaded, hp]
      · simpa [hne e he] using h.reach e he
    · rw [List.map_cons, List.nodup_cons]
      have hsame : (L.map fun e => (Function.update c.cache i
          (loaded inum p (m b) a (c.cache i)) e.2).blockNumber) =
          L.map fun e => (c.cache e.2).blockNumber := by
        refine List.map_congr_left fun e he => ?_
        rw [Function.update_of_ne (hne e he)]
      refine ⟨?_, hsame ▸ h.blocks⟩
      show (Function.update c.cache i (loaded inum p (m b) a (c.cache i)) i).blockNumber ∉ _
      rw [hsame, Function.update_self]
      intro hmem
      obtain ⟨e, he, heq⟩ := List.mem_map.mp hmem
      exact habsent e he heq
    · intro e he
      rcases List.mem_cons.mp he with rfl | he
      · simp [loaded, pciLookup_insert_same]
      · have hb := habsent e he
        simp only [Function.update_of_ne (hne e he), pciLookup_insert_ne c.pci i hb]
        exact h.hit e he
    · intro b' hb'
      rcases eq_or_ne b' p with rfl | hbp
      · exact ⟨(a, i), List.mem_cons_self, by simp [loaded]⟩
      · rw [pciLookup_insert_ne c.pci i hbp] at hb'
        obtain ⟨e, he, heq⟩ := h.miss b' hb'
        exact ⟨e, List.mem_cons_of_mem _ he, by simpa [hne e he] using heq⟩

end Resident

end Nbtrfs
