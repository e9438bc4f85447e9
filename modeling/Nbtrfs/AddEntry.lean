import Nbtrfs.Listing
import Nbtrfs.FileGrow
import Nbtrfs.Btr.NodesOnly

/-!
# Adding a directory entry

Reference: `directory.c::directory_add_entry`.

The function takes the first slot that is inactive, or that follows as many active ones as the header
counts, in the blocks of the directory and then in new ones. New pages are not cleared: what they hold
is read as entries. Where the entry goes is `addTarget`, a function of the pages alone.
-/

namespace Nbtrfs

open BlockProg Bytes

variable {disk : DiskInterface} {m m' m₁ : Image} {path name : CString} {pair : InodeBtreePair}
  {host : Host} {inum target : UInt64} {type : UInt32} {blocks : List ℕ} {b c f i j n t : ℕ}
  {pg pg' : Bytes} {header : Bool} {limit count number : UInt16}

/-! ## The blocks of a directory -/

/-- The data blocks of directory `inum` are different from each other and marked as taken, on a volume
whose bookkeeping is in order. -/
structure EntryBlocks (disk : DiskInterface) (m : Image) (inum : UInt64) (blocks : List ℕ) : Prop
    extends DataBlocks disk m inum blocks where
  sound : Sound disk m
  capacity : inum.toNat < inodeCapacity disk.totalBlocks.toNat
  own : (inodeAt disk m inum.toNat).inodeNumber = inum
  nodup : blocks.Nodup
  behind : ∀ b ∈ blocks, dataStart disk.totalBlocks.toNat ≤ b
  taken : ∀ b ∈ blocks, blockBit m b = true

namespace EntryBlocks

variable (E : EntryBlocks disk m inum blocks)
include E

/-- The blocks and the slot of the inode are out of reach of the B-tree functions. -/
theorem kept (hrel : NodesOnly disk m m') :
    (∀ b ∈ blocks, m' b = m b) ∧ inodeAt disk m' inum.toNat = inodeAt disk m inum.toNat := by
  have htable := inodeTableStart_le disk.totalBlocks.toNat
  have htotal := E.sound.layout.le_total
  have hother : ∀ t : BlockType, t ≠ .btreeNode → t.code ≠ BlockType.btreeNode.code :=
    fun t ht h => ht (BlockType.code_injective h)
  constructor
  · intro b hb
    have hlt := E.lt b hb
    have hle : disk.addressable ≤ disk.totalBlocks.toNat := min_le_left _ _
    have hbehind := E.behind b hb
    refine hrel.page b (by omega) (by omega) (E.taken b hb) ?_
    rw [E.type b hb]
    exact hother _ (by decide)
  · have hslot : slotBlock disk inum.toNat < _ := slotBlock_lt E.capacity
    have hsame : m' (slotBlock disk inum.toNat) = m (slotBlock disk inum.toNat) := by
      refine hrel.page _ (slotBlock_ge disk _) (by omega) (E.sound.metadata _ hslot) ?_
      rw [E.sound.layout.type_slotBlock E.capacity]
      exact hother _ (by decide)
    rw [inodeAt, hsame, inodeAt]

/-- The B-tree functions leave the directory as it is. -/
theorem keep (S : Sound disk m') (hrel : NodesOnly disk m m') :
    EntryBlocks disk m' inum blocks := by
  obtain ⟨hpage, hnode⟩ := E.kept hrel
  have hle : disk.addressable ≤ disk.totalBlocks.toNat := min_le_left _ _
  exact {
    sound := S
    capacity := E.capacity
    own := by rw [hnode, E.own]
    le := E.le
    direct := fun i hi => by rw [hnode, E.direct i hi]
    indirect := by rw [hnode, E.indirect]
    pos := E.pos
    nodup := E.nodup
    lt := E.lt
    behind := E.behind
    taken := fun b hb => hrel.taken b ((E.lt b hb).trans_le hle) (E.taken b hb)
    type := fun b hb => by rw [hpage b hb, E.type b hb] }

theorem inodeAt_update (hb : b ∈ blocks) :
    inodeAt disk (Function.update m b pg) inum.toNat = inodeAt disk m inum.toNat := by
  have hbehind := E.behind b hb
  have hslot : slotBlock disk inum.toNat < _ := slotBlock_lt E.capacity
  rw [inodeAt, Function.update_of_ne (by omega), inodeAt]

/-- What is written behind the type of a block leaves the rest of the directory as it is. -/
theorem update (hb : b ∈ blocks) (htype : blockType pg = BlockType.data.code) :
    EntryBlocks disk (Function.update m b pg) inum blocks := by
  have hbehind := E.behind b hb
  have htotal := E.sound.layout.le_total
  have hlow : ∀ c < dataStart disk.totalBlocks.toNat, Function.update m b pg c = m c :=
    fun c hc => Function.update_of_ne (by omega) _ _
  have hpos := dataStart_pos disk.totalBlocks.toNat
  have hbitmap := bitmapBlocks_lt_dataStart disk.totalBlocks.toNat
  have hbit : ∀ c < disk.totalBlocks.toNat, blockBit (Function.update m b pg) c = blockBit m c :=
    fun c hc => BitmapArea.bit_congr (fun c hc => hlow c (by omega)) hc
  have hnode : inodeAt disk (Function.update m b pg) inum.toNat = inodeAt disk m inum.toNat :=
    E.inodeAt_update hb
  have hle : disk.addressable ≤ disk.totalBlocks.toNat := min_le_left _ _
  exact {
    sound := {
      layout := E.sound.layout.congr (by rw [hlow 0 hpos]) (by rw [hlow 0 hpos])
        fun c hc => by rw [hlow c hc]
      metadata := fun c hc => by rw [hbit c (by omega), E.sound.metadata c hc]
      near := E.sound.near }
    capacity := E.capacity
    own := by rw [hnode, E.own]
    le := E.le
    direct := fun i hi => by rw [hnode, E.direct i hi]
    indirect := by rw [hnode, E.indirect]
    pos := E.pos
    nodup := E.nodup
    lt := E.lt
    behind := E.behind
    taken := fun c hc => by rw [hbit c ((E.lt c hc).trans_le hle), E.taken c hc]
    type := fun c hc => by
      by_cases hcb : c = b
      · rw [hcb, Function.update_self, htype]
      · rw [Function.update_of_ne hcb, E.type c hc] }

end EntryBlocks

/-! ## Where the entry goes -/

/-- The slots that are passed are active, and counted. -/
theorem freeSlot_none (h : freeSlot pg header limit n j count = (none, number)) :
    (∀ k, j ≤ k → k < j + n → entryActive pg (entryAt header k) = true) ∧
      number = count + UInt16.ofNat n := by
  induction n generalizing j count with
  | zero =>
      refine ⟨fun k hlo hhi => absurd hhi (by omega), ?_⟩
      exact (Prod.mk.inj h).2.symm.trans (UInt16.add_zero count).symm
  | succ n ih =>
      rw [freeSlot] at h
      split at h
      · cases (Prod.mk.inj h).1
      · next hnot =>
        obtain ⟨hactive, hnumber⟩ := ih h
        refine ⟨fun k hlo hhi => ?_, ?_⟩
        · rcases Nat.eq_or_lt_of_le hlo with rfl | hlt
          · simpa using fun h => hnot (Or.inl h)
          · exact hactive k (by omega) (by omega)
        · rw [hnumber, UInt16.add_assoc, ← UInt16.ofNat_one, ← UInt16.ofNat_add, Nat.add_comm 1]

/-- The slot that the search finds is the first one without an active entry, and the number that
comes with it counts the slots before it. -/
theorem freeSlot_some {k : ℕ} (h : freeSlot pg header limit n j count = (some k, number)) :
    j ≤ k ∧ k < j + n ∧
      (∀ k', j ≤ k' → k' < k → entryActive pg (entryAt header k') = true) ∧
      number = count + UInt16.ofNat (k - j) := by
  induction n generalizing j count with
  | zero => cases (Prod.mk.inj h).1
  | succ n ih =>
      rw [freeSlot] at h
      split at h
      · obtain ⟨hk, hnumber⟩ := Prod.mk.inj h
        obtain rfl := Option.some.inj hk
        refine ⟨le_rfl, by omega, fun k' hlo hhi => absurd hhi (by omega), ?_⟩
        rw [← hnumber, Nat.sub_self]
        exact (UInt16.add_zero count).symm
      · next hnot =>
        obtain ⟨hlo, hhi, hactive, hnumber⟩ := ih h
        refine ⟨by omega, by omega, fun k' hlo' hhi' => ?_, ?_⟩
        · rcases Nat.eq_or_lt_of_le hlo' with rfl | hlt
          · simpa using fun h => hnot (Or.inl h)
          · exact hactive k' (by omega) hhi'
        · rw [hnumber, UInt16.add_assoc, ← UInt16.ofNat_one, ← UInt16.ofNat_add]
          congr 2
          omega

/-- Where it stops at an active slot, as many were passed as the header counts. -/
theorem freeSlot_active {k : ℕ} (h : freeSlot pg header limit n j count = (some k, number))
    (hactive : entryActive pg (entryAt header k) = true) : number = limit := by
  induction n generalizing j count with
  | zero => cases (Prod.mk.inj h).1
  | succ n ih =>
      rw [freeSlot] at h
      split at h
      · next hstop =>
        obtain ⟨hk, hnumber⟩ := Prod.mk.inj h
        obtain rfl := Option.some.inj hk
        rcases hstop with hfree | hcount
        · rw [hactive] at hfree
          cases hfree
        · rw [← hnumber, hcount]
      · exact ih h

/-- The entries of a page lie behind its type. -/
theorem entryActive_congr (h : ∀ o, 4 ≤ o → pg' o = pg o) (header : Bool) (j : ℕ) :
    entryActive pg' (entryAt header j) = entryActive pg (entryAt header j) := by
  rw [entryActive, entryActive, h _ (by rw [entryAt]; omega)]

theorem entryCount_congr (h : ∀ o, 4 ≤ o → pg' o = pg o) : entryCount pg' = entryCount pg := by
  rw [entryCount, entryCount, load16, load16, leLoad_congr fun i _ => h _ (by omega)]

theorem freeSlot_congr (h : ∀ o, 4 ≤ o → pg' o = pg o) :
    freeSlot pg' header limit n j count = freeSlot pg header limit n j count := by
  induction n generalizing j count with
  | zero => rfl
  | succ n ih => rw [freeSlot, freeSlot, entryActive_congr h, ih]

/-- The blocks that `alloc_page` hands out, one after the other. -/
def freeBlocks (disk : DiskInterface) (m : Image) : List ℕ :=
  (List.range disk.totalBlocks.toNat).filter fun b => blockBit m b = false

/-- The pages that are searched for a slot, each with the count that its slots are compared with: the
header of the directory for its blocks, and what a new page holds in its place for that page. -/
def entryPages (disk : DiskInterface) (m : Image) (blocks : List ℕ) : List (Bytes × UInt16) :=
  (blocks.map fun b => (m b, entryCount (m (blocks.headD b)))) ++
    ((freeBlocks disk m).take (12 - blocks.length)).map fun f => (m f, entryCount (m f))

/-- The page and the slot that the search over the pages from number `i` on stops at, and the number of
active slots that it passed. -/
def scanPages : List (Bytes × UInt16) → ℕ → UInt16 → Option (ℕ × ℕ × UInt16)
  | [], _, _ => none
  | (pg, limit) :: pages, i, count =>
      match freeSlot pg (i = 0) limit entriesPerBlock 0 count with
      | (some j, count) => some (i, j, count)
      | (none, count) => scanPages pages (i + 1) count

/-- Where `directory_add_entry` puts an entry: the number of the block, the slot, and the number of
active slots before it. A directory with room has such a place. -/
def addTarget (disk : DiskInterface) (m : Image) (blocks : List ℕ) : Option (ℕ × ℕ × UInt16) :=
  scanPages (entryPages disk m blocks) 0 0

/-- The number of entries that the function reads in the header, in the first block of the directory or
in the page that becomes it. -/
def headerCount (disk : DiskInterface) (m : Image) (blocks : List ℕ) : UInt16 :=
  ((entryPages disk m blocks).head?.map Prod.snd).getD 0

/-! ## A new block -/

theorem mem_freeBlocks : b ∈ freeBlocks disk m ↔ b < disk.totalBlocks.toNat ∧ blockBit m b = false := by
  rw [freeBlocks, List.mem_filter, List.mem_range, decide_eq_true_iff]

/-- The first number with a property, and the others. -/
theorem filter_range_eq_cons {p q : ℕ → Bool} (hf : f < n) (hp : p f = true)
    (hmin : ∀ b < f, p b = false) (hq : ∀ b < n, q b = if b = f then false else p b) :
    (List.range n).filter p = f :: (List.range n).filter q := by
  obtain ⟨d, rfl⟩ := Nat.exists_eq_add_of_lt hf
  have hrange : List.range (f + d + 1) = List.range f ++ f :: List.range' (f + 1) d := by
    rw [List.range_eq_range', List.range_eq_range', Nat.add_assoc, ← List.range'_append_1,
      Nat.zero_add, List.range'_succ]
  have hpNone : (List.range f).filter p = [] := by
    rw [List.filter_eq_nil_iff]
    intro b hb
    rw [hmin b (List.mem_range.mp hb)]
    exact Bool.false_ne_true
  have hqNone : (List.range f).filter q = [] := by
    rw [List.filter_eq_nil_iff]
    intro b hb
    have hb := List.mem_range.mp hb
    rw [hq b (by omega), if_neg (by omega), hmin b hb]
    exact Bool.false_ne_true
  have hqf : ¬q f = true := by
    rw [hq f hf, if_pos rfl]
    exact Bool.false_ne_true
  have hrest : (List.range' (f + 1) d).filter p = (List.range' (f + 1) d).filter q := by
    apply List.filter_congr
    intro b hb
    rw [List.mem_range'_1] at hb
    rw [hq b (by omega), if_neg (by omega)]
  rw [hrange, List.filter_append, List.filter_append, hpNone, hqNone, List.filter_cons_of_pos hp,
    List.filter_cons_of_neg hqf, hrest, List.nil_append, List.nil_append]

/-- Taking the first free block leaves the others. -/
theorem freeBlocks_eq_cons (hf : f < disk.totalBlocks.toNat) (hclear : blockBit m f = false)
    (hmin : ∀ b < f, blockBit m b = true)
    (hbits : ∀ b < disk.totalBlocks.toNat, blockBit m₁ b = if b = f then true else blockBit m b) :
    freeBlocks disk m = f :: freeBlocks disk m₁ := by
  apply filter_range_eq_cons hf
  · exact decide_eq_true hclear
  · intro b hb
    rw [hmin b hb]
    rfl
  · intro b hb
    rw [hbits b hb]
    split
    · rfl
    · rfl

/-- The inode of the directory with a block more. -/
def withBlock (disk : DiskInterface) (m : Image) (inum : UInt64) (k f : ℕ) : Inode :=
  if h : k < 12 then
    { inodeAt disk m inum.toNat with
      directBlocks := (inodeAt disk m inum.toNat).directBlocks.set k (UInt64.ofNat f) }
  else inodeAt disk m inum.toNat

/-- The image after block `f` became block `k` of the directory. -/
def newBlock (disk : DiskInterface) (m : Image) (inum : UInt64) (k f : ℕ) : Image :=
  putInode disk (tookPage m f (setBlockType BlockType.data (m f))) inum.toNat
    (withBlock disk m inum k f)

theorem inodeAt_newBlock {k : ℕ} : inodeAt disk (newBlock disk m inum k f) inum.toNat =
    withBlock disk m inum k f := inodeAt_putInode_self

namespace EntryBlocks

variable (E : EntryBlocks disk m inum blocks) (H : FirstFree disk m f)
include E H

theorem newBlock_apply (hc : dataStart disk.totalBlocks.toNat ≤ c) :
    newBlock disk m inum blocks.length f c =
      if c = f then setBlockType BlockType.data (m f) else m c := by
  have hslot : slotBlock disk inum.toNat < _ := slotBlock_lt E.capacity
  have hbitmap := bitmapBlocks_lt_dataStart disk.totalBlocks.toNat
  rw [newBlock, putInode, Function.update_of_ne (by omega)]
  by_cases hcf : c = f
  · rw [if_pos hcf, hcf, tookPage_self]
  · rw [if_neg hcf, tookPage, Function.update_of_ne hcf, takeBlock_of_behind H.lt_total (by omega)]

theorem blockBit_newBlock (hb : b < disk.totalBlocks.toNat) :
    blockBit (newBlock disk m inum blocks.length f) b =
      if b = f then true else blockBit m b := by
  rw [newBlock, blockBit_putInode hb, H.blockBit_filled E.sound.metadata hb]

theorem newBlock_mem (hb : b ∈ blocks) : newBlock disk m inum blocks.length f b = m b := by
  rw [E.newBlock_apply H (E.behind b hb), if_neg]
  rintro rfl
  have hset := E.taken b hb
  rw [H.clear] at hset
  cases hset

/-- A free page becomes a block of the directory. -/
theorem withNewBlock (hroom : blocks.length < 12) :
    EntryBlocks disk (newBlock disk m inum blocks.length f) inum (blocks ++ [f]) := by
  have hbehind := H.behind_of_marked E.sound.metadata
  have hstart := dataStart_pos disk.totalBlocks.toNat
  have htotal : disk.addressable ≤ disk.totalBlocks.toNat := min_le_left _ _
  have hdata := E.sound.layout.le_total
  have hfresh : f ∉ blocks := by
    intro hf
    have hset := E.taken f hf
    rw [H.clear] at hset
    cases hset
  have htook : Takes disk m (tookPage m f (setBlockType BlockType.data (m f))) :=
    H.takes E.sound.metadata E.sound.layout
  have hput : Takes disk _ (newBlock disk m inum blocks.length f) :=
    takes_putInode (htook.layout E.sound.layout) E.capacity
  have hT := htook.trans hput
  have hnode : inodeAt disk (newBlock disk m inum blocks.length f) inum.toNat =
      { inodeAt disk m inum.toNat with
        directBlocks := (inodeAt disk m inum.toNat).directBlocks.set blocks.length
          (UInt64.ofNat f) } := by
    rw [inodeAt_newBlock, withBlock, dif_pos hroom]
  have hmem : ∀ b ∈ blocks ++ [f], b ∈ blocks ∨ b = f := fun b hb =>
    (List.mem_append.mp hb).imp_right List.mem_singleton.mp
  exact {
    sound := {
      layout := hT.layout E.sound.layout
      metadata := fun b hb => by
        rw [E.blockBit_newBlock H (by omega), E.sound.metadata b hb, ite_self]
      near := E.sound.near }
    capacity := E.capacity
    own := by rw [hnode]; exact E.own
    le := by
      rw [List.length_append, List.length_singleton]
      omega
    direct := fun i hi => by
      rw [hnode]
      simp only [Vector.getElem_set]
      by_cases hik : blocks.length = i
      · rw [if_pos hik, List.getElem?_append_right (by omega), ← hik, Nat.sub_self,
          List.getElem?_cons_zero, Option.map_some, Option.getD_some]
      · rw [if_neg hik, E.direct i hi]
        by_cases hlt : i < blocks.length
        · rw [List.getElem?_append_left hlt]
        · rw [List.getElem?_eq_none (by omega), List.getElem?_eq_none (by
            rw [List.length_append, List.length_singleton]
            omega)]
    indirect := by rw [hnode]; exact E.indirect
    pos := fun b hb => (hmem b hb).elim (E.pos b) fun h => h ▸ hstart.trans_le hbehind
    nodup := List.nodup_append.mpr ⟨E.nodup, List.nodup_singleton f, fun a ha c hc hac =>
      hfresh ((List.mem_singleton.mp hc) ▸ hac ▸ ha)⟩
    lt := fun b hb => (hmem b hb).elim (E.lt b) fun h => h ▸ H.lt
    behind := fun b hb => (hmem b hb).elim (E.behind b) fun h => h ▸ hbehind
    taken := fun b hb => by
      rcases hmem b hb with hb | rfl
      · rw [E.blockBit_newBlock H ((E.lt b hb).trans_le htotal), E.taken b hb, ite_self]
      · rw [E.blockBit_newBlock H H.lt_total, if_pos rfl]
    type := fun b hb => by
      rcases hmem b hb with hb | rfl
      · rw [E.newBlock_mem H hb, E.type b hb]
      · rw [E.newBlock_apply H hbehind, if_pos rfl, blockType_setBlockType] }

end EntryBlocks

/-! ## The loop over the blocks -/

/-- What is done with the slot that was found. -/
def storeEntry (disk : DiskInterface) (host : Host) (pair : InodeBtreePair) (name : CString)
    (target : UInt64) (type : UInt32) (node : Inode) (block : UInt64) (header : Bool) (j : ℕ)
    (number : UInt16) : BlockProg ℤ := do
  let new ← enterTree disk pair name target type (newFile host name target)
  modify block fun pg => copyIn pg (entryAt header j) sizeofDirEntry new
  writeBack 0 block
  let _ ← writeEntryCount pair node block (number + 1)
  pure 0

/-- The loop at a block that is there: it stores the entry or goes on. -/
def atBlock (disk : DiskInterface) (host : Host) (pair : InodeBtreePair) (name : CString)
    (target : UInt64) (type : UInt32) (n i : ℕ) (node : Inode) (block db : UInt64)
    (number : UInt16) (slot : Option ℕ × UInt16) : BlockProg ℤ :=
  match slot with
  | (none, count) => addEntryFrom disk host pair name target type n (i + 1) node block db count number
  | (some j, _) => storeEntry disk host pair name target type node block (i = 0) j number

namespace EntryBlocks

variable (E : EntryBlocks disk m pair.inodeNumber blocks)
include E

/-- A block that the directory has already: the page is obtained, its count read if it is the first
block, and its slots searched. -/
theorem run_oldBlock (hi : i < blocks.length) {block db : UInt64}
    (hdb : i ≠ 0 → db = UInt64.ofNat blocks[0]) :
    run disk.mapping (addEntryFrom disk host pair name target type (n + 1) i
        (inodeAt disk m pair.inodeNumber.toNat) block db count number) m =
      run disk.mapping (atBlock disk host pair name target type n i
        (inodeAt disk m pair.inodeNumber.toNat) (UInt64.ofNat blocks[i]) (UInt64.ofNat blocks[0])
        (if i = 0 then entryCount (m blocks[0]) else number)
        (freeSlot (m blocks[i]) (i = 0) (entryCount (m blocks[0])) entriesPerBlock 0 count)) m := by
  obtain ⟨rv, hget⟩ := E.run_getBlock_of_mem (List.getElem?_eq_getElem hi)
  have hmem : blocks[i] ∈ blocks := List.getElem_mem hi
  have hfirst : blocks[0] ∈ blocks := List.getElem_mem (by omega)
  have hentry : run disk.mapping (entryBlock disk pair (inodeAt disk m pair.inodeNumber.toNat) i
      (UInt64.ofNat blocks[i]) db) m = some (some (inodeAt disk m pair.inodeNumber.toNat,
        UInt64.ofNat blocks[i], UInt64.ofNat blocks[0]), m) := by
    rw [entryBlock, if_neg (E.number_ne_zero hmem), run_bind_of_eq (run_fetch _ _), run_pure]
    by_cases h0 : i = 0
    · subst h0
      rw [if_pos rfl]
    · rw [if_neg h0, hdb h0]
  rw [addEntryFrom, run_bind_of_eq hget]
  simp only [Option.getD_some]
  rw [run_bind_of_eq hentry]
  simp only
  rw [run_bind_of_eq (run_page (E.addr hmem)), if_neg (not_not.mpr (E.type _ hmem)),
    run_bind_of_eq (run_page (E.addr hfirst))]
  have hnumber : (if i = 0 then entryCount (m blocks[i]) else number) =
      if i = 0 then entryCount (m blocks[0]) else number := by
    by_cases h0 : i = 0
    · subst h0
      rfl
    · rw [if_neg h0, if_neg h0]
  rw [hnumber]
  rcases freeSlot (m blocks[i]) (i = 0) (entryCount (m blocks[0])) entriesPerBlock 0 count
    with ⟨_ | j, c⟩
  · rfl
  · rfl

/-- The next free page becomes a block of the directory. -/
theorem run_entryBlock_new (H : FirstFree disk m f) (hroom : blocks.length < 12) (db : UInt64) :
    run disk.mapping (entryBlock disk pair (inodeAt disk m pair.inodeNumber.toNat) blocks.length 0 db)
        m =
      some (some (withBlock disk m pair.inodeNumber blocks.length f, UInt64.ofNat f, UInt64.ofNat f),
        newBlock disk m pair.inodeNumber blocks.length f) := by
  have A := E.sound.layout.bitmapArea_of_marked E.sound.metadata
  have hnat : (UInt64.ofNat blocks.length).toNat = blocks.length := toNat_ofNat_block (by omega)
  have hset : run disk.mapping (inodeSetBlock disk (inodeAt disk m pair.inodeNumber.toNat)
      (UInt64.ofNat blocks.length) (UInt64.ofNat f)) (Nbtrfs.takeBlock m f) =
      some ((0, withBlock disk m pair.inodeNumber blocks.length f), Nbtrfs.takeBlock m f) := by
    rw [run_inodeSetBlock_direct (by omega), withBlock, dif_pos hroom]
    simp only [hnat]
  have hbehind := H.behind_of_marked E.sound.metadata
  have hbitmap := bitmapBlocks_lt_dataStart disk.totalBlocks.toNat
  have hpage : Function.update (Nbtrfs.takeBlock m f) f
      (setBlockType BlockType.data (Nbtrfs.takeBlock m f f)) =
        tookPage m f (setBlockType BlockType.data (m f)) := by
    rw [tookPage, takeBlock_of_behind H.lt_total (by omega)]
  have hown : (withBlock disk m pair.inodeNumber blocks.length f).inodeNumber = pair.inodeNumber := by
    rw [withBlock, dif_pos hroom]
    exact E.own
  have htook : Takes disk m (tookPage m f (setBlockType BlockType.data (m f))) :=
    H.takes E.sound.metadata E.sound.layout
  have hlayout := htook.layout E.sound.layout
  have hwrite := hlayout.run_inodeWrite_slot (withBlock disk m pair.inodeNumber blocks.length f)
    (by rw [hown]; exact E.capacity)
  rw [hown] at hwrite
  rw [entryBlock, if_pos rfl, run_bind_of_eq (H.run_allocPage A), if_neg (H.number_ne_zero A),
    run_bind_of_eq hset]
  simp only
  rw [run_bind_of_eq (run_fetch _ _), run_bind_of_eq (run_modify _ H.addr), hpage,
    run_bind_of_eq hwrite, run_pure, newBlock]

/-- When a new block is had, there was a free page within reach. -/
theorem exists_firstFree {node : Inode} {db : UInt64} {k : ℕ} {r : Inode × UInt64 × UInt64}
    (hrun : run disk.mapping (entryBlock disk pair node k 0 db) m = some (some r, m₁)) :
    ∃ f, FirstFree disk m f := by
  rw [entryBlock, if_pos rfl] at hrun
  obtain ⟨block, m₂, halloc, hrest⟩ := run_bind_eq_some.mp hrun
  by_cases hzero : block = 0
  · rw [if_pos hzero] at hrest
    cases hrest
  · rw [if_neg hzero] at hrest
    obtain ⟨⟨_, node'⟩, m₃, -, hrest⟩ := run_bind_eq_some.mp hrest
    rw [run_bind_of_eq (run_fetch _ _)] at hrest
    obtain ⟨_, m₄, hmodify, -⟩ := run_bind_eq_some.mp hrest
    -- the page was reached, so its offset did not wrap
    have hreach : ∃ b, disk.mapping.addr block = some b := by
      have h : Ensures disk.mapping (modify block (setBlockType BlockType.data)) m₃
          fun _ _ => ∃ b, disk.mapping.addr block = some b :=
        ensures_modify fun b hb => ⟨b, hb⟩
      exact h _ _ hmodify
    obtain ⟨b, hb⟩ := hreach
    exact exists_firstFree_of_alloc E.sound.layout.bitmapTo E.sound.near halloc hzero hb

/-- When no new block is had, there is no free page, and nothing happened. -/
theorem full_of_entryBlock {node : Inode} {db : UInt64} {k : ℕ}
    (hrun : run disk.mapping (entryBlock disk pair node k 0 db) m = some (none, m₁)) :
    m₁ = m ∧ ∀ b < disk.totalBlocks.toNat, blockBit m b = true := by
  rw [entryBlock, if_pos rfl] at hrun
  rcases allocPage_cases E.sound.layout.bitmapTo with ⟨f, hf, hclear, -, halloc⟩ | ⟨hfull, halloc⟩
  · have hne : UInt64.ofNat f ≠ 0 := by
      have hnear := E.sound.near
      have hstart := dataStart_pos disk.totalBlocks.toNat
      refine ofNat_block_ne_zero ?_ (by omega)
      by_contra hzero
      rw [E.sound.metadata f (by omega)] at hclear
      cases hclear
    rw [run_bind_of_eq halloc, if_neg hne] at hrun
    obtain ⟨⟨_, node'⟩, m₂, -, hrun⟩ := run_bind_eq_some.mp hrun
    rw [run_bind_of_eq (run_fetch _ _)] at hrun
    obtain ⟨_, m₃, -, hrun⟩ := run_bind_eq_some.mp hrun
    obtain ⟨_, m₄, -, hrun⟩ := run_bind_eq_some.mp hrun
    cases hrun
  · rw [run_bind_of_eq halloc, if_pos rfl] at hrun
    cases hrun
    exact ⟨rfl, hfull⟩

/-- Behind the blocks of the directory the loop takes the next free page. -/
theorem run_newBlock (H : FirstFree disk m f) (hroom : blocks.length < 12) {block db : UInt64} :
    run disk.mapping (addEntryFrom disk host pair name target type (n + 1) blocks.length
        (inodeAt disk m pair.inodeNumber.toNat) block db count number) m =
      run disk.mapping (atBlock disk host pair name target type n blocks.length
        (withBlock disk m pair.inodeNumber blocks.length f) (UInt64.ofNat f) (UInt64.ofNat f)
        (if blocks.length = 0 then entryCount (m f) else number)
        (freeSlot (m f) (blocks.length = 0) (entryCount (m f)) entriesPerBlock 0 count))
        (newBlock disk m pair.inodeNumber blocks.length f) := by
  obtain ⟨rv, hget⟩ := E.run_getBlock hroom
  rw [List.getElem?_eq_none le_rfl] at hget
  rw [addEntryFrom, run_bind_of_eq hget]
  simp only [Option.map_none, Option.getD_none, Option.getD_some]
  have hbehind := H.behind_of_marked E.sound.metadata
  have hpage : newBlock disk m pair.inodeNumber blocks.length f f =
      setBlockType BlockType.data (m f) := by
    rw [E.newBlock_apply H hbehind, if_pos rfl]
  have hsame : ∀ o, 4 ≤ o → newBlock disk m pair.inodeNumber blocks.length f f o = m f o := by
    intro o ho
    rw [hpage, setBlockType_apply ho]
  rw [run_bind_of_eq (E.run_entryBlock_new H hroom db)]
  simp only
  rw [run_bind_of_eq (run_page H.addr), hpage, blockType_setBlockType, if_neg (by simp),
    run_bind_of_eq (run_page H.addr), ← hpage, entryCount_congr hsame, freeSlot_congr hsame]
  rcases freeSlot (m f) (blocks.length = 0) (entryCount (m f)) entriesPerBlock 0 count
    with ⟨_ | j, c⟩
  · rfl
  · rfl

/-- There is a page for a new block, or the function gives up. -/
theorem newBlock_cases (hroom : blocks.length < 12) {block db : UInt64} {rv : ℤ}
    (hrun : run disk.mapping (addEntryFrom disk host pair name target type (n + 1) blocks.length
      (inodeAt disk m pair.inodeNumber.toNat) block db count number) m = some (rv, m')) :
    (∃ f, FirstFree disk m f) ∨
      rv = -1 ∧ m' = m ∧ ∀ b < disk.totalBlocks.toNat, blockBit m b = true := by
  obtain ⟨rv', hget⟩ := E.run_getBlock hroom
  rw [List.getElem?_eq_none le_rfl] at hget
  rw [addEntryFrom, run_bind_of_eq hget] at hrun
  simp only [Option.map_none, Option.getD_none, Option.getD_some] at hrun
  obtain ⟨r, m₁, hentry, hrest⟩ := run_bind_eq_some.mp hrun
  cases r with
  | none =>
      obtain ⟨hsame, hfull⟩ := E.full_of_entryBlock hentry
      cases hrest
      exact Or.inr ⟨rfl, hsame, hfull⟩
  | some r => exact Or.inl (E.exists_firstFree hentry)

/-- With every page taken the function finds no page for a new block. -/
theorem run_noPage (hfull : ∀ b < disk.totalBlocks.toNat, blockBit m b = true)
    (hroom : blocks.length < 12) {block db : UInt64} :
    run disk.mapping (addEntryFrom disk host pair name target type (n + 1) blocks.length
      (inodeAt disk m pair.inodeNumber.toNat) block db count number) m = some (-1, m) := by
  obtain ⟨rv, hget⟩ := E.run_getBlock hroom
  rw [List.getElem?_eq_none le_rfl] at hget
  have hentry : run disk.mapping (entryBlock disk pair (inodeAt disk m pair.inodeNumber.toNat)
      blocks.length 0 db) m = some (none, m) := by
    rcases allocPage_cases E.sound.layout.bitmapTo with ⟨f, hf, hclear, -⟩ | ⟨-, halloc⟩
    · rw [hfull f hf] at hclear
      cases hclear
    · rw [entryBlock, if_pos rfl, run_bind_of_eq halloc, if_pos rfl]
      rfl
  rw [addEntryFrom, run_bind_of_eq hget]
  simp only [Option.map_none, Option.getD_none, Option.getD_some]
  rw [run_bind_of_eq hentry]
  rfl

end EntryBlocks

/-! ## The search for a slot -/

/-- The search ended at slot `j` of block `t`, after slots that are all active. The directory may have
got new blocks, whose pages changed in their types only. -/
structure Found (disk : DiskInterface) (m m₁ : Image) (inum : UInt64) (blocks blocks₁ : List ℕ)
    (t j : ℕ) : Prop where
  dir : EntryBlocks disk m₁ inum blocks₁
  front : blocks <+: blocks₁
  lt : t < blocks₁.length
  slot : j < entriesPerBlock
  fresh : ∀ b ∈ blocks₁, b ∉ blocks → blockBit m b = false
  same : ∀ b, dataStart disk.totalBlocks.toNat ≤ b → ∀ o, (b ∈ blocks₁ → b ∈ blocks ∨ 4 ≤ o) →
    m₁ b o = m b o
  taken : ∀ b < disk.totalBlocks.toNat, blockBit m b = true → blockBit m₁ b = true
  header : headerCount disk m₁ blocks₁ = headerCount disk m blocks
  active : ∀ i b, blocks₁[i]? = some b → ∀ k, (i < t ∧ k < entriesPerBlock) ∨ (i = t ∧ k < j) →
    entryActive (m₁ b) (entryAt (i = 0) k) = true

/-- All slots of the blocks before number `i` are active. -/
def FullBefore (m : Image) (blocks : List ℕ) (i : ℕ) : Prop :=
  ∀ i' b, blocks[i']? = some b → i' < i → ∀ k < entriesPerBlock,
    entryActive (m b) (entryAt (i' = 0) k) = true

namespace FullBefore

variable (A : FullBefore m blocks i) (hb : blocks[i]? = some b)
include A hb

theorem succ (hall : ∀ k, 0 ≤ k → k < 0 + entriesPerBlock →
    entryActive (m b) (entryAt (i = 0) k) = true) : FullBefore m blocks (i + 1) := by
  intro i' b' hb' hi' k hk
  rcases Nat.lt_or_eq_of_le (Nat.lt_succ_iff.mp hi') with hlt | rfl
  · exact A i' b' hb' hlt k hk
  · obtain rfl := Option.some.inj (hb.symm.trans hb')
    exact hall k (Nat.zero_le k) (by omega)

/-- The search ends at a slot of the block. -/
theorem found (E : EntryBlocks disk m inum blocks) (hj : j < 0 + entriesPerBlock)
    (hall : ∀ k, 0 ≤ k → k < j → entryActive (m b) (entryAt (i = 0) k) = true) :
    Found disk m m inum blocks blocks i j where
  dir := E
  front := List.prefix_rfl
  lt := (List.getElem?_eq_some_iff.mp hb).1
  slot := by omega
  fresh b hb hnot := absurd hb hnot
  same _ _ _ _ := rfl
  taken _ _ hset := hset
  header := rfl
  active i' b' hb' k hk := by
    rcases hk with ⟨hlt, hk⟩ | ⟨rfl, hk⟩
    · exact A i' b' hb' hlt k hk
    · obtain rfl := Option.some.inj (hb.symm.trans hb')
      exact hall k (Nat.zero_le k) hk

end FullBefore

theorem headerCount_of_pos (h : 0 < blocks.length) :
    headerCount disk m blocks = entryCount (m blocks[0]) := by
  cases blocks with
  | nil => exact absurd h (Nat.lt_irrefl 0)
  | cons b blocks => rfl

/-- What the loop meets from the block `i` on: this block, and then the rest. -/
theorem entryPages_drop_old (hi : i < blocks.length) : (entryPages disk m blocks).drop i =
    (m blocks[i], entryCount (m blocks[0])) :: (entryPages disk m blocks).drop (i + 1) := by
  have hlen : i < (entryPages disk m blocks).length := by
    rw [entryPages, List.length_append, List.length_map]
    omega
  rw [List.drop_eq_getElem_cons hlen]
  congr 1
  simp only [entryPages]
  rw [List.getElem_append_left (by rwa [List.length_map]), List.getElem_map]
  cases blocks with
  | nil => exact absurd hi (Nat.not_lt_zero i)
  | cons b blocks => rfl

theorem entryPages_drop_length : (entryPages disk m blocks).drop blocks.length =
    ((freeBlocks disk m).take (12 - blocks.length)).map fun f => (m f, entryCount (m f)) := by
  rw [entryPages]
  exact List.drop_left' (List.length_map _)

namespace EntryBlocks

section NewBlock

variable (E : EntryBlocks disk m inum blocks) (H : FirstFree disk m f)
include E H

theorem freeBlocks_newBlock :
    freeBlocks disk m = f :: freeBlocks disk (newBlock disk m inum blocks.length f) :=
  freeBlocks_eq_cons H.lt_total H.clear H.below fun _ hb => E.blockBit_newBlock H hb

/-- The pages that are searched stay the same. -/
theorem entryPages_newBlock (hroom : blocks.length < 12) :
    (entryPages disk m blocks).drop blocks.length =
      (m f, entryCount (m f)) ::
        (entryPages disk (newBlock disk m inum blocks.length f) (blocks ++ [f])).drop
          (blocks.length + 1) := by
  have E₁ := E.withNewBlock H hroom
  have hlen : (blocks ++ [f]).length = blocks.length + 1 := by
    rw [List.length_append, List.length_singleton]
  have hdrop : (entryPages disk (newBlock disk m inum blocks.length f) (blocks ++ [f])).drop
      (blocks ++ [f]).length = _ := entryPages_drop_length
  rw [hlen] at hdrop
  rw [entryPages_drop_length, hdrop, E.freeBlocks_newBlock H,
    show 12 - blocks.length = 12 - (blocks.length + 1) + 1 by omega, List.take_succ_cons,
    List.map_cons]
  congr 1
  apply List.map_congr_left
  intro g hg
  obtain ⟨hlt, hclear⟩ := mem_freeBlocks.mp (List.mem_of_mem_take hg)
  have hbehind : dataStart disk.totalBlocks.toNat ≤ g := by
    by_contra hlow
    rw [E₁.sound.metadata g (by omega)] at hclear
    cases hclear
  have hne : g ≠ f := by
    rintro rfl
    rw [E.blockBit_newBlock H hlt, if_pos rfl] at hclear
    cases hclear
  rw [E.newBlock_apply H hbehind, if_neg hne]

/-- The header count stands in the first block, so another block behind it leaves it as it is; in an
empty directory the new block counts none. -/
theorem headerCount_newBlock (hroom : blocks.length < 12) :
    headerCount disk (newBlock disk m inum blocks.length f) (blocks ++ [f]) =
      headerCount disk m blocks := by
  cases blocks with
  | nil =>
      have hbehind := H.behind_of_marked E.sound.metadata
      have hpages := E.entryPages_newBlock H hroom
      rw [List.length_nil, List.drop_zero] at hpages
      rw [headerCount_of_pos (by simp), headerCount, hpages]
      refine entryCount_congr fun o ho => ?_
      show newBlock disk m inum ([] : List ℕ).length f f o = m f o
      rw [E.newBlock_apply H hbehind, if_pos rfl, setBlockType_apply ho]
  | cons b blocks =>
      rw [headerCount_of_pos (by simp), headerCount_of_pos (by simp)]
      show entryCount (newBlock disk m inum (b :: blocks).length f b) = entryCount (m b)
      rw [E.newBlock_mem H List.mem_cons_self]

/-- What is found with the new block. -/
theorem found_newBlock (hroom : blocks.length < 12) {blocks₁ : List ℕ}
    (F : Found disk (newBlock disk m inum blocks.length f) m₁ inum (blocks ++ [f]) blocks₁ t j) :
    Found disk m m₁ inum blocks blocks₁ t j := by
  have hmem : f ∈ blocks₁ := F.front.subset (List.mem_append_right _ (List.mem_singleton_self f))
  have htotal : disk.addressable ≤ disk.totalBlocks.toNat := min_le_left _ _
  exact {
    dir := F.dir
    front := (List.prefix_append blocks [f]).trans F.front
    lt := F.lt
    slot := F.slot
    fresh := fun b hb hnot => by
      by_cases hbf : b = f
      · rw [hbf, H.clear]
      · have hnew := F.fresh b hb fun h => by
          rcases List.mem_append.mp h with h | h
          · exact hnot h
          · exact hbf (List.mem_singleton.mp h)
        rwa [E.blockBit_newBlock H ((F.dir.lt b hb).trans_le htotal), if_neg hbf] at hnew
    same := fun b hb o ho => by
      rw [F.same b hb o fun h => (ho h).imp_left (List.mem_append_left _), E.newBlock_apply H hb]
      split
      · next hbf =>
        subst hbf
        rcases ho hmem with hold | ho
        · have hset := E.taken b hold
          rw [H.clear] at hset
          cases hset
        · rw [setBlockType_apply ho]
      · rfl
    taken := fun b hb hset => F.taken b hb (by rw [E.blockBit_newBlock H hb, hset, ite_self])
    header := F.header.trans (E.headerCount_newBlock H hroom)
    active := F.active }

theorem fullBefore_newBlock (A : FullBefore m blocks blocks.length) :
    FullBefore (newBlock disk m inum blocks.length f) (blocks ++ [f]) blocks.length := by
  intro i' b hb hi k hk
  rw [List.getElem?_append_left hi] at hb
  rw [E.newBlock_mem H (List.mem_of_getElem? hb)]
  exact A i' b hb hi k hk

end NewBlock

theorem passed_next (hi : i + 1 ≤ t) : count + UInt16.ofNat entriesPerBlock +
    UInt16.ofNat (entriesPerBlock * (t - (i + 1)) + j) =
      count + UInt16.ofNat (entriesPerBlock * (t - i) + j) := by
  rw [UInt16.add_assoc, ← UInt16.ofNat_add]
  congr 2
  have hstep : t - i = t - (i + 1) + 1 := by omega
  rw [hstep, Nat.mul_succ]
  omega

theorem passed_here {k : ℕ} {passed : UInt16} (h : passed = count + UInt16.ofNat (k - 0)) :
    passed = count + UInt16.ofNat (entriesPerBlock * (i - i) + k) := by
  rw [h, Nat.sub_self, Nat.mul_zero, Nat.zero_add, Nat.sub_zero]

/-- A run that succeeds stores the entry where the search over the pages ends. -/
theorem exists_found {passed : UInt16} (E : EntryBlocks disk m pair.inodeNumber blocks)
    (hi : i ≤ blocks.length) {block db : UInt64}
    (hdb : ∀ h : i < blocks.length, i ≠ 0 → db = UInt64.ofNat blocks[0])
    (hnumber : i ≠ 0 → number = headerCount disk m blocks)
    (A : FullBefore m blocks i)
    (hscan : scanPages ((entryPages disk m blocks).drop i) i count = some (t, j, passed))
    (hrun : run disk.mapping (addEntryFrom disk host pair name target type n i
      (inodeAt disk m pair.inodeNumber.toNat) block db count number) m = some (0, m')) :
    ∃ m₁ blocks₁ b, Found disk m m₁ pair.inodeNumber blocks blocks₁ t j ∧ blocks₁[t]? = some b ∧
      run disk.mapping (storeEntry disk host pair name target type
        (inodeAt disk m₁ pair.inodeNumber.toNat) (UInt64.ofNat b) (t = 0) j
        (headerCount disk m blocks)) m₁ = some (0, m') ∧
      i ≤ t ∧ passed = count + UInt16.ofNat (entriesPerBlock * (t - i) + j) := by
  induction n generalizing m blocks i block db count number with
  | zero => cases hrun
  | succ n ih =>
      have hle := E.le
      rcases Nat.lt_or_eq_of_le hi with hlt | rfl
      · -- a block of the directory
        have hnum : (if i = 0 then entryCount (m blocks[0]) else number) =
            headerCount disk m blocks := by
          split
          · rw [headerCount_of_pos (by omega)]
          · next hne => exact hnumber hne
        have hb : blocks[i]? = some blocks[i] := List.getElem?_eq_getElem hlt
        rw [E.run_oldBlock hlt (hdb hlt), hnum] at hrun
        rw [entryPages_drop_old hlt, scanPages] at hscan
        rcases hslot : freeSlot (m blocks[i]) (i = 0) (entryCount (m blocks[0])) entriesPerBlock 0
          count with ⟨_ | k, c⟩
        · rw [hslot] at hrun hscan
          obtain ⟨hall, hc⟩ := freeSlot_none hslot
          obtain ⟨m₁, blocks₁, b, F, hb, hstore, ht, hpassed⟩ :=
            ih E hlt (fun _ _ => rfl) (fun _ => rfl) (A.succ hb hall) hscan hrun
          exact ⟨m₁, blocks₁, b, F, hb, hstore, by omega, by rw [hpassed, hc, passed_next ht]⟩
        · rw [hslot] at hrun hscan
          obtain ⟨-, hk, hall, hc⟩ := freeSlot_some hslot
          cases hscan
          exact ⟨m, blocks, _, A.found hb E hk hall, hb, hrun, le_rfl, passed_here hc⟩
      · -- a new one
        have hroom : blocks.length < 12 := by
          by_contra hfull
          rw [entryPages_drop_length, Nat.sub_eq_zero_of_le (by omega)] at hscan
          cases hscan
        obtain ⟨f, H⟩ : ∃ f, FirstFree disk m f := by
          rcases E.newBlock_cases hroom hrun with h | ⟨h, -⟩
          · exact h
          · cases h
        rw [E.run_newBlock H hroom] at hrun
        have E₁ := E.withNewBlock H hroom
        have A₁ := E.fullBefore_newBlock H A
        have hlen : (blocks ++ [f]).length = blocks.length + 1 := by
          rw [List.length_append, List.length_singleton]
        have hb : (blocks ++ [f])[blocks.length]? = some f := by
          rw [List.getElem?_append_right le_rfl, Nat.sub_self, List.getElem?_cons_zero]
        have hsame : ∀ o, 4 ≤ o → newBlock disk m pair.inodeNumber blocks.length f f o = m f o := by
          intro o ho
          rw [E.newBlock_apply H (H.behind_of_marked E.sound.metadata), if_pos rfl,
            setBlockType_apply ho]
        have hheader := E.headerCount_newBlock H hroom
        have hnum : (if blocks.length = 0 then entryCount (m f) else number) =
            headerCount disk m blocks := by
          split
          · next hzero =>
            obtain rfl := List.eq_nil_of_length_eq_zero hzero
            rw [← hheader, headerCount_of_pos (by simp)]
            exact (entryCount_congr hsame).symm
          · next hne => exact hnumber hne
        rw [hnum, ← inodeAt_newBlock] at hrun
        rw [E.entryPages_newBlock H hroom, scanPages] at hscan
        rcases hslot : freeSlot (m f) (blocks.length = 0) (entryCount (m f)) entriesPerBlock 0 count
          with ⟨_ | k, c⟩
        · rw [hslot] at hrun hscan
          obtain ⟨hall, hc⟩ := freeSlot_none hslot
          obtain ⟨m₁, blocks₁, b, F, hb, hstore, ht, hpassed⟩ :=
            ih E₁ hlen.ge (fun h => absurd h (by omega)) (fun _ => hheader.symm)
              (A₁.succ hb fun k hlo hhi => (entryActive_congr hsame _ k).trans (hall k hlo hhi))
              hscan hrun
          rw [hheader] at hstore
          exact ⟨m₁, blocks₁, b, E.found_newBlock H hroom F, hb, hstore, by omega,
            by rw [hpassed, hc, passed_next ht]⟩
        · rw [hslot] at hrun hscan
          obtain ⟨-, hk, hall, hc⟩ := freeSlot_some hslot
          cases hscan
          have F := A₁.found hb E₁ hk fun k hlo hhi =>
            (entryActive_congr hsame _ k).trans (hall k hlo hhi)
          exact ⟨_, _, f, E.found_newBlock H hroom F, hb, hrun, le_rfl, passed_here hc⟩

end EntryBlocks

end Nbtrfs
