import Nbtrfs.Cache.Runs

/-!
# The per-inode dirty lists over a run

Reference: `cache.c::write_block`, `cache.c::cache_fsync`, `cache.c::cache_sync`, `dl.c`,
`directory.c::directory_add_entry`.

`write_block` inserts a block under the inode number it is given, `cache_sync` removes it under the
inode number that was given when the block was loaded, and nothing removes it when the block is
written under another inode or stops being a data block. As long as calls do not differ in these
ways the lists are exact (`cacheRun_listsExact`).
-/

namespace Nbtrfs

variable {disk : DiskInterface}

/-- Block `b` is cached in a dirty slot that holds data, and was last written under inode `i`. -/
def DirtyData (c : Cache) (writer : UInt64 → Option UInt64) (i b : UInt64) : Prop :=
  ∃ index page, pciLookup c.pci b = index ∧ 0 ≤ index ∧ (c.cache index).dirtyBit = true ∧
    (c.cache index).pageData = some page ∧ blockType page = BlockType.data.code ∧
    writer b = some i

/-- The dirty list of every inode holds exactly the dirty data blocks last written under it. -/
def ListsExact (s : CachedDisk × CacheSpec) : Prop :=
  ∀ i b, b ∈ dlBlocks s.1.cache.dirtyList i ↔ DirtyData s.1.cache s.2.writer i b

/-- Every data block last written under the inode is clean and on the device. -/
def FlushedFor (disk : DiskInterface) (i : UInt64) (s : CachedDisk × CacheSpec) : Prop :=
  ∀ b index page, pciLookup s.1.cache.pci b = index → 0 ≤ index →
    (s.1.cache.cache index).pageData = some page → blockType page = BlockType.data.code →
    s.2.writer b = some i →
    (s.1.cache.cache index).dirtyBit = false ∧
      ∃ d, disk.diskGetBlock b = some d ∧ s.1.image d = page

/-- A call that treats a block on a dirty list as belonging to the inode of that list: a write of a
listed block comes from the same inode and writes data, a push does not overflow the index of the
list, and at a `cache_sync` every listed block was loaded for the inode of its list. -/
def CacheOp.KeepsOwner : CacheOp → CachedDisk × CacheSpec → Prop
  | .write buf i p _, s =>
      (∀ j, p ∈ dlBlocks s.1.cache.dirtyList j →
        j = i ∧ blockType buf = BlockType.data.code) ∧
      (blockType buf = BlockType.data.code → p ∉ dlBlocks s.1.cache.dirtyList i →
        (dlChain s.1.cache.dirtyList i).topIndex + 1 < 2 ^ 64)
  | .sync, s => ∀ j, ∀ b ∈ dlBlocks s.1.cache.dirtyList j,
      (s.1.cache.cache (pciLookup s.1.cache.pci b)).inodeNumber = j
  | _, _ => True

/-- Slot `i` is dirty and holds data. -/
def HoldsDirtyData (c : Cache) (i : ℤ) : Prop :=
  (c.cache i).dirtyBit = true ∧
    ∃ page, (c.cache i).pageData = some page ∧ blockType page = BlockType.data.code

/-- The dirty data blocks, found through the ring. -/
theorem Bookkept.dirtyData_iff {c : Cache} {L G : List (ℕ × ℤ)} (h : Bookkept disk c L G)
    {writer : UInt64 → Option UInt64} {i b : UInt64} :
    DirtyData c writer i b ↔
      ∃ e ∈ L, (c.cache e.2).blockNumber = b ∧ HoldsDirtyData c e.2 ∧ writer b = some i := by
  constructor
  · rintro ⟨_, page, rfl, h0, hdirty, hpage, htype, hwriter⟩
    obtain ⟨e, he, rfl⟩ := h.miss b (by omega)
    rw [h.hit e he] at hdirty hpage
    exact ⟨e, he, rfl, ⟨hdirty, page, hpage, htype⟩, hwriter⟩
  · rintro ⟨e, he, rfl, ⟨hdirty, page, hpage, htype⟩, hwriter⟩
    exact ⟨e.2, page, h.hit e he, (h.index_of_mem he).1, hdirty, hpage, htype, hwriter⟩

/-- Filling a free slot or reordering the ring changes no dirty data block. -/
theorem Kept.dirtyData_iff {p : UInt64} {s s' : CachedDisk} {L L' G : List (ℕ × ℤ)}
    (hkept : Kept disk p s L s' L') (h : Bookkept disk s.cache L G)
    (h' : Bookkept disk s'.cache L' G) {writer : UInt64 → Option UInt64} {i b : UInt64} :
    DirtyData s'.cache writer i b ↔ DirtyData s.cache writer i b := by
  have hsame : ∀ e ∈ L, (HoldsDirtyData s'.cache e.2 ↔ HoldsDirtyData s.cache e.2) := by
    intro e he
    simp only [HoldsDirtyData, hkept.dirty e he, hkept.page e he]
  rw [h.dirtyData_iff, h'.dirtyData_iff]
  constructor
  · rintro ⟨e', he', hb, hdirty, hwriter⟩
    rcases hkept.new e' he' with ⟨e, he, heq⟩ | hclean
    · rw [← heq] at hb hdirty
      exact ⟨e, he, (hkept.block e he).symm.trans hb, (hsame e he).mp hdirty, hwriter⟩
    · rw [hdirty.1] at hclean
      cases hclean
  · rintro ⟨e, he, hb, hdirty, hwriter⟩
    obtain ⟨e', he', heq⟩ := hkept.old e he
    refine ⟨e', he', ?_, ?_, hwriter⟩
    · rw [heq, hkept.block e he, hb]
    · rw [heq]
      exact (hsame e he).mpr hdirty

/-! ## What each call does to the lists -/

section Steps

variable {s : CachedDisk × CacheSpec} {L G : List (ℕ × ℤ)}

/-- The lists are exact and the indices on them decrease. -/
def ListsSound (s : CachedDisk × CacheSpec) : Prop :=
  ListsExact s ∧ ∀ i, (dlChain s.1.cache.dirtyList i).Indexed

/-- Inserting a block into the lists: where it is a data block it is on the list of the inode
afterwards, and the other entries are the same. -/
theorem DlProper.mem_insertData {dl dl' : DlHm} (h : DlProper dl) {buf : Bytes} {i p : UInt64}
    {leftover : Leftover} (hrun : dlInsertData buf dl i p leftover = some dl')
    (hleft : blockType buf = BlockType.data.code → dlChain dl i = .null → leftover = .null)
    (hidx : ∀ j, (dlChain dl j).Indexed)
    (hroom : blockType buf = BlockType.data.code → p ∉ dlBlocks dl i →
      (dlChain dl i).topIndex + 1 < 2 ^ 64) :
    (∀ j b, b ∈ dlBlocks dl' j ↔ b ∈ dlBlocks dl j ∨
      blockType buf = BlockType.data.code ∧ j = i ∧ b = p) ∧
      ∀ j, (dlChain dl' j).Indexed := by
  rw [dlInsertData] at hrun
  by_cases htype : blockType buf = BlockType.data.code
  · rw [if_pos htype] at hrun
    by_cases hp : p ∈ dlBlocks dl i
    · rw [h.insert_of_mem leftover hp] at hrun
      obtain rfl := Option.some.inj hrun
      refine ⟨fun j b => ⟨Or.inl, ?_⟩, hidx⟩
      rintro (hb | ⟨-, rfl, rfl⟩)
      · exact hb
      · exact hp
    · obtain ⟨list, dl₁, hpush, hrun₁, hrep, -, hblocks⟩ :=
        h.insert_of_notMem (hleft htype) hp
      obtain rfl : dl₁ = dl' := Option.some.inj (hrun₁.symm.trans hrun)
      refine ⟨fun j b => ?_, fun j => ?_⟩
      · rcases eq_or_ne j i with rfl | hj
        · rw [hrep.dlBlocks_same, hblocks, List.mem_cons]
          simp only [htype, true_and]
          exact or_comm
        · rw [hrep.dlBlocks_other hj]
          exact ⟨Or.inl, fun hb => hb.resolve_right fun hb => hj hb.2.1⟩
      · rcases eq_or_ne j i with rfl | hj
        · have hold := hidx j
          have hlt := hroom htype hp
          rw [hrep.same]
          cases hc : dlChain dl j with
          | null =>
              rw [hc, dlPush] at hpush
              obtain rfl := Option.some.inj hpush
              rw [hleft htype hc]
              exact ⟨by decide, trivial⟩
          | unset =>
              rw [hc, dlPush] at hpush
              cases hpush
          | node d b' next =>
              rw [hc, dlPush] at hpush
              obtain rfl := Option.some.inj hpush
              rw [hc] at hold hlt
              refine ⟨?_, hold⟩
              simp only [DlChain.topIndex] at hlt ⊢
              rw [UInt64.toNat_add, show (1 : UInt64).toNat = 1 from rfl]
              omega
        · rw [hrep.other j hj]
          exact hidx j
  · rw [if_neg htype] at hrun
    obtain rfl := Option.some.inj hrun
    exact ⟨fun j b => ⟨Or.inl, fun hb => hb.resolve_right fun hb => htype hb.1⟩, hidx⟩

/-- Obtaining a page keeps the lists sound: without an eviction no list changes. -/
theorem listsSound_get (h : InOrder disk s L G) (hsound : ListsSound s) {i p : UInt64}
    (hop : (CacheOp.get i p).Fits disk s) :
    ∃ s', (CacheOp.get i p).step disk s = some s' ∧ ListsSound s' := by
  obtain ⟨e, t', L', hrun, -, -, hbook', hkept, -⟩ := h.1.get i hop
  refine ⟨(t', s.2.step (.get i p)), ?_, fun j b => ?_, ?_⟩
  · simp only [CacheOp.step, CacheOp.run, hrun, Option.map_some]
  · simp only [hkept.dirtyList]
    exact (hsound.1 j b).trans (hkept.dirtyData_iff h.1 hbook').symm
  · simp only [hkept.dirtyList]
    exact hsound.2

/-- Announcing a page keeps the lists sound. The block enters the list of the inode and the global
list unless it is there, and a page that is already dirty keeps its owner. -/
theorem listsSound_write (h : InOrder disk s L G) (hsound : ListsSound s) {buf : Bytes}
    {i p : UInt64} {leftover : Leftover} (hop : (CacheOp.write buf i p leftover).Fits disk s)
    (howner : (CacheOp.write buf i p leftover).KeepsOwner s) :
    ∃ s', (CacheOp.write buf i p leftover).step disk s = some s' ∧ ListsSound s' := by
  obtain ⟨hroom, hsize, hleft⟩ := hop
  obtain ⟨howner, hindex⟩ := howner
  obtain ⟨e, ⟨m₁, c₁⟩, L', hobtain, he, hp, hbook₁, hkept, -⟩ :=
    h.1.obtain hroom buf i leftover
  replace hbook₁ : Bookkept disk c₁ L' G := hbook₁
  replace hp : (c₁.cache e.2).blockNumber = p := hp
  have hdl₁ : c₁.dirtyList = s.1.cache.dirtyList := hkept.dirtyList
  have hgdl₁ : c₁.gdl = s.1.cache.gdl := hkept.gdl
  have hexact : ∀ j b, b ∈ dlBlocks c₁.dirtyList j ↔ DirtyData c₁ s.2.writer j b := by
    intro j b
    rw [hdl₁]
    exact (hsound.1 j b).trans (hkept.dirtyData_iff h.1 hbook₁).symm
  rw [← hdl₁] at hleft howner hindex
  have hidx : ∀ j, (dlChain c₁.dirtyList j).Indexed := by
    rw [hdl₁]
    exact hsound.2
  obtain ⟨a, r, dl, hrun, hdl, hbook'⟩ := hbook₁.writeEntry (m := m₁) buf i leftover he hp
    (by rw [hgdl₁]; exact hsize.ne) hleft
  obtain ⟨hmem, hidx'⟩ := hbook₁.lists.mem_insertData hdl hleft hidx hindex
  refine ⟨(⟨m₁, { c₁ with gdl := r, dirtyList := dl, cache := written c₁.cache e.2 buf a }⟩,
    s.2.step (.write buf i p leftover)), ?_, fun j b => ?_, hidx'⟩
  · simp only [CacheOp.step, CacheOp.run, hobtain, hrun, Option.map_some]
  · show b ∈ dlBlocks dl j ↔ DirtyData _ (Function.update s.2.writer p (some i)) j b
    rw [hmem, hbook'.dirtyData_iff]
    rcases eq_or_ne b p with rfl | hb
    · -- the block that was written is on the list of `i` alone, and only as a data block
      have hleft' : (b ∈ dlBlocks c₁.dirtyList j ∨
          blockType buf = BlockType.data.code ∧ j = i ∧ b = b) ↔
          blockType buf = BlockType.data.code ∧ j = i := by
        constructor
        · rintro (hb | ⟨htype, hj, -⟩)
          · exact ⟨(howner j hb).2, (howner j hb).1⟩
          · exact ⟨htype, hj⟩
        · rintro ⟨htype, hj⟩
          exact Or.inr ⟨htype, hj, rfl⟩
      rw [hleft', Function.update_self]
      constructor
      · rintro ⟨htype, rfl⟩
        refine ⟨e, he, (written_blockNumber _ _ _ _ _).trans hp, ⟨?_, buf, ?_, htype⟩, rfl⟩
        · simp only [written_same]
        · simp only [written_same]
      · rintro ⟨e', he', hb', ⟨-, page, hpage, htype⟩, hwriter⟩
        obtain rfl : e' = e := hbook₁.eq_of_block he' he
          (by rw [hp]; exact (written_blockNumber _ _ _ _ _).symm.trans hb')
        simp only [written_same] at hpage
        obtain rfl := Option.some.inj hpage
        exact ⟨htype, (Option.some.inj hwriter).symm⟩
    · have hne : ∀ e' ∈ L', (c₁.cache e'.2).blockNumber = b → e'.2 ≠ e.2 := by
        rintro e' - rfl heq
        exact hb (by rw [heq, hp])
      rw [Function.update_of_ne hb, or_iff_left (fun hbp => hb hbp.2.2), hexact,
        hbook₁.dirtyData_iff]
      refine exists_congr fun e' => and_congr_right fun he' => ?_
      simp only [written_blockNumber, HoldsDirtyData]
      refine and_congr_right fun hb' => ?_
      simp only [written_ne _ _ _ _ _ (hne e' he' hb')]

/-- `cache_fsync` empties the list of one inode and takes its blocks from the global list, so the
lists stay sound. -/
theorem listsSound_fsync (h : InOrder disk s L G) (hsound : ListsSound s) (i : UInt64) :
    ∃ s', (CacheOp.fsync i).step disk s = some s' ∧ ListsSound s' := by
  obtain ⟨t', G', hrun, hbook', hwrote, hnull, hother, hin, hout, -⟩ := h.1.fsync i
  have hpopped : (dlChain s.1.cache.dirtyList i).popped = dlBlocks s.1.cache.dirtyList i := by
    rw [DlChain.popped_eq (hsound.2 i), dlBlocks_eq]
  rw [hpopped] at hin hout
  refine ⟨(t', s.2), ?_, fun j b => ?_, fun j => ?_⟩
  · simp only [CacheOp.step, CacheOp.run, hrun, Option.map_some, CacheSpec.step]
  · simp only [hbook'.dirtyData_iff, HoldsDirtyData, hwrote.block, hwrote.page]
    rcases eq_or_ne j i with rfl | hj
    · rw [dlBlocks_eq, hnull]
      constructor
      · intro hb
        cases hb
      rintro ⟨e, he, rfl, ⟨hdirty, hpage⟩, hwriter⟩
      have hmem := (hsound.1 j _).mpr (h.1.dirtyData_iff.mpr
        ⟨e, he, rfl, ⟨hwrote.dirty _ hdirty, hpage⟩, hwriter⟩)
      rw [hin e he hmem] at hdirty
      cases hdirty
    · rw [dlBlocks_eq, hother j hj, ← dlBlocks_eq, hsound.1 j b, h.1.dirtyData_iff]
      refine exists_congr fun e => and_congr_right fun he => and_congr_right fun hb => ?_
      constructor
      swap
      · rintro ⟨⟨hdirty, hpage⟩, hwriter⟩
        exact ⟨⟨hwrote.dirty _ hdirty, hpage⟩, hwriter⟩
      rintro ⟨⟨hdirty, hpage⟩, hwriter⟩
      have hnot : (s.1.cache.cache e.2).blockNumber ∉ dlBlocks s.1.cache.dirtyList i := by
        intro hmem
        obtain ⟨-, -, -, -, -, -, -, hwriter'⟩ := (hsound.1 i _).mp hmem
        rw [hb, hwriter] at hwriter'
        exact hj (Option.some.inj hwriter')
      exact ⟨⟨(hout e he hnot).trans hdirty, hpage⟩, hwriter⟩
  · rcases eq_or_ne j i with rfl | hj
    · simp only [hnull]
      trivial
    · simp only [hother j hj]
      exact hsound.2 j

/-- `cache_sync` writes the pages of the global list and leaves all lists empty. -/
theorem listsSound_sync (h : InOrder disk s L G) (hsound : ListsSound s)
    (howner : CacheOp.sync.KeepsOwner s) :
    ∃ s', CacheOp.sync.step disk s = some s' ∧ ListsSound s' := by
  obtain ⟨t', hrun, hbook', -, hlists⟩ := h.1.sync
  refine ⟨(t', s.2), ?_, fun j b => ?_, fun j => (hlists j 0).2 (hsound.2 j)⟩
  · simp only [CacheOp.step, CacheOp.run, hrun, Option.map_some, CacheSpec.step]
  · rw [hbook'.dirtyData_iff]
    constructor
    · intro hb
      obtain ⟨hb, hnot⟩ := (hlists j b).1.mp hb
      obtain ⟨e, he, heq, ⟨hdirty, hpage⟩, -⟩ := h.1.dirtyData_iff.mp ((hsound.1 j b).mp hb)
      obtain ⟨a, -, ha⟩ := h.1.dirty e he hdirty
      have hinode := howner j b hb
      rw [← heq, h.1.hit e he] at hinode
      exact absurd ⟨heq, hinode, hpage⟩ (hnot _ ha)
    · rintro ⟨e, he, -, ⟨hdirty, -⟩, -⟩
      obtain ⟨h0, h1, -⟩ := hbook'.index_of_mem he
      rw [hbook'.clean h0 h1] at hdirty
      cases hdirty

end Steps

/-! ## Runs -/

/-- In a run whose calls never evict and treat every listed block as belonging to the inode of its
list, the per-inode lists are exact after every call, and `cache_fsync` leaves every data block of
its inode clean and on the device. -/
theorem cacheRun_listsExact (disk : DiskInterface) {cacheSize : ℕ}
    (hlimit : (cacheSize : ℤ) ≤ intMax) (unset : ℤ → CacheEntry) (m : Image) {ops : List CacheOp}
    (hadm : Admits (CacheOp.step disk)
      (fun op s => (op.Fits disk s ∧ op.Reaches disk) ∧ op.KeepsOwner s) ops
      (cacheStart cacheSize unset m)) :
    SafeRun (CacheOp.step disk)
      (fun op _ s' => ListsExact s' ∧ ∀ i, op = .fsync i → FlushedFor disk i s') ops
      (cacheStart cacheSize unset m) := by
  have hstart : ListsSound (cacheStart cacheSize unset m) := by
    refine ⟨fun i b => ⟨fun hb => (nomatch hb), ?_⟩, fun i => trivial⟩
    rintro ⟨_, page, rfl, h0, -⟩
    have hmiss : pciLookup (cacheStart cacheSize unset m).1.cache.pci b = -1 := rfl
    omega
  refine SafeRun.of_invariant (fun s => ListsSound s ∧
    ∃ L G, InOrder disk s L G ∧ Contents disk s.1 L s.2.content) ?_
    ⟨hstart, [], [], inOrder_cacheStart hlimit unset m,
      contents_cacheStart disk cacheSize unset m⟩ hadm
  rintro op s ⟨hsound, L, G, h, hc⟩ ⟨⟨hop, hreach⟩, howner⟩
  obtain ⟨s', L', G', hs', h', -, hc'⟩ := op.step_inOrder h hop
  obtain ⟨t, ht, hsound'⟩ : ∃ t, op.step disk s = some t ∧ ListsSound t := by
    cases op with
    | get i p => exact listsSound_get h hsound hop
    | write buf i p leftover => exact listsSound_write h hsound hop howner
    | fsync i => exact listsSound_fsync h hsound i
    | sync => exact listsSound_sync h hsound howner
  obtain rfl : s' = t := Option.some.inj (hs'.symm.trans ht)
  refine ⟨s', hs', ⟨hsound'.1, ?_⟩, hsound', L', G', h', hc' hreach hc⟩
  rintro i rfl b _ page rfl h0 hpage htype hwriter
  obtain ⟨e, he, hb⟩ := h'.1.miss b (by omega)
  have hhit := h'.1.hit e he
  rw [hb] at hhit
  have hc₁ := hc' hreach hc
  have hnull : dlBlocks s'.1.cache.dirtyList i = [] := by
    obtain ⟨t', G'', hrun, -, -, hnull, -⟩ := h.1.fsync i
    simp only [CacheOp.step, CacheOp.run, hrun, Option.map_some] at hs'
    obtain rfl := Option.some.inj hs'
    rw [dlBlocks_eq, hnull]
    rfl
  have hclean : (s'.1.cache.cache (pciLookup s'.1.cache.pci b)).dirtyBit = false := by
    cases hd : (s'.1.cache.cache (pciLookup s'.1.cache.pci b)).dirtyBit with
    | false => rfl
    | true =>
        have hmem := (hsound'.1 i b).mpr ⟨_, page, rfl, h0, hd, hpage, htype, hwriter⟩
        rw [hnull] at hmem
        cases hmem
  refine ⟨hclean, b.toNat, ?_, ?_⟩
  · have hlt := hc₁.lt e he
    rw [hb] at hlt
    exact DiskInterface.mapping_exactTo b hlt
  · have hpage' := hc₁.page e he
    rw [hhit] at hpage hclean
    rw [hpage] at hpage'
    rw [Option.some.inj hpage', hb]
    refine hc₁.clean b fun e' he' hb' => ?_
    rwa [h'.1.eq_of_block he' he (hb'.trans hb.symm)]

/-- Two slots: a block is loaded, another is written and flushed. -/
theorem cacheRun_listsExact_2 : SafeRun (CacheOp.step ⟨64, by decide⟩)
    (fun op _ s' => ListsExact s' ∧ ∀ i, op = .fsync i → FlushedFor ⟨64, by decide⟩ i s')
    [.get 3 6, .write (fun _ => 0) 1 5 .null, .fsync 1]
    (cacheStart 2 (fun _ => ⟨false, 0, 0, 0, none, none, none⟩) fun _ _ => 7) := by
  refine cacheRun_listsExact _ (by decide) _ _
    ⟨⟨⟨Or.inr ⟨by decide, by decide⟩, CacheOp.reaches_of_block rfl (by decide)⟩, trivial⟩,
      fun s hs => ?_⟩
  obtain rfl := Option.some.inj (show some _ = some s from hs)
  refine ⟨⟨⟨⟨Or.inr ⟨by decide, by decide⟩, by decide, fun _ _ => rfl⟩,
    CacheOp.reaches_of_block rfl (by decide)⟩,
    ⟨fun j hb => (nomatch hb), fun _ _ => by decide⟩⟩, fun s hs => ?_⟩
  obtain rfl := Option.some.inj (show some _ = some s from hs)
  exact ⟨⟨⟨trivial, CacheOp.reaches_of_no_block rfl⟩, trivial⟩, fun _ _ => trivial⟩

/-- A data block written under inode 1 and then under inode 2 stays on the list of inode 1. -/
theorem not_cacheRun_listsExact : ¬∀ (disk : DiskInterface) (cacheSize : ℕ)
    (unset : ℤ → CacheEntry) (m : Image) (ops : List CacheOp), 1 ≤ cacheSize →
    (cacheSize : ℤ) ≤ intMax →
    (∀ op ∈ ops, ∀ p ∈ op.block, p.toNat < disk.totalBlocks.toNat) →
    SafeRun (CacheOp.step disk)
      (fun op _ s' => ListsExact s' ∧ ∀ i, op = .fsync i → FlushedFor disk i s') ops
      (cacheStart cacheSize unset m) := by
  intro h
  have hrun := h ⟨64, by decide⟩ 2 (fun _ => ⟨false, 0, 0, 0, none, none, none⟩) (fun _ _ => 0)
    [.write (fun _ => 0) 1 5 .null, .write (fun _ => 0) 2 5 .null] (by decide) (by decide)
    (by simp [CacheOp.block])
  obtain ⟨s₁, hs₁, -, s₂, hs₂, ⟨hexact, -⟩, -⟩ := hrun
  obtain rfl := Option.some.inj (show some _ = some s₁ from hs₁)
  obtain rfl := Option.some.inj (show some _ = some s₂ from hs₂)
  obtain ⟨-, -, -, -, -, -, -, hwriter⟩ := (hexact 1 5).mp (by decide)
  exact absurd hwriter (by decide)

end Nbtrfs
