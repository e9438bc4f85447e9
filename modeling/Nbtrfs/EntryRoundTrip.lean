import Nbtrfs.AddedEntry
import Nbtrfs.EntryTree

/-!
# From `directory_add_entry` to the other two

Reference: `directory.c`.

An entry survives when `directory_list` returns it as it was given, nothing else in the data of the
volume changed, and `directory_remove_entry` comes to it. That is so for a name which leaves room for its
end in the array, if the header counts the entry: a header that was not cleared, or at its limit, does
not.
-/

namespace Nbtrfs

open BlockProg Bytes

variable {disk : DiskInterface} {m m' m₁ : Image} {path name : CString} {pair : InodeBtreePair}
  {host : Host} {inum target : UInt64} {type : UInt32} {blocks blocks₁ : List ℕ}
  {b i j k t : ℕ} {entries : List DirEntry} {count position : UInt16} {new : Bytes} {o : ℕ}

/-! ## What it is to survive -/

/-- The page of entry block `i` of a directory. -/
def entryBlockOf (disk : DiskInterface) (m : Image) (inum : UInt64) (i : ℕ) : ℕ :=
  ((inodeAt disk m inum.toNat).directBlocks[i]?.getD 0).toNat

/-- `directory_list` returns the entries, whatever path leads to the directory. -/
structure Lists (disk : DiskInterface) (m : Image) (pair : InodeBtreePair)
    (entries : List DirEntry) : Prop where
  loop : run disk.mapping (directoryListFrom pair (inodeAt disk m pair.inodeNumber.toNat)
    directoryBlocks 0 0 0 []) m = some (entries, m)
  path : ∀ path, LeadsTo disk m path pair →
    run disk.mapping (directoryList disk path) m = some (((entries.length : ℤ), entries), m)

/-- `directory_remove_entry` takes slot `j` of entry block `t` for the one with the name. -/
structure RemovesAt (disk : DiskInterface) (m : Image) (pair : InodeBtreePair) (name : CString)
    (t j : ℕ) : Prop where
  loop : run disk.mapping (removeEntryFrom disk pair (inodeAt disk m pair.inodeNumber.toNat) name
      directoryBlocks 0 zeroInode 0 0 0 0 (-1)) m =
    run disk.mapping (do
      let (block, file) ← removeEntry disk pair (inodeAt disk m pair.inodeNumber.toNat) zeroInode name
        (UInt64.ofNat (entryBlockOf disk m pair.inodeNumber t))
        (UInt64.ofNat (entryBlockOf disk m pair.inodeNumber 0)) (entryAt (t = 0) j)
        (entryCount (m (entryBlockOf disk m pair.inodeNumber 0)))
      removeEntryFrom disk pair (inodeAt disk m pair.inodeNumber.toNat) name
        (directoryBlocks - (t + 1)) (t + 1) file block block (UInt16.ofNat (entriesPerBlock * t + j))
        (entryCount (m (entryBlockOf disk m pair.inodeNumber 0))) 0) m
  path : ∀ path, LeadsTo disk m path pair →
    run disk.mapping (directoryRemoveEntry disk path name) m =
      run disk.mapping (removeEntryFrom disk pair (inodeAt disk m pair.inodeNumber.toNat) name
        directoryBlocks 0 zeroInode 0 0 0 0 (-1)) m

/-- The entry that `directory_add_entry` put into slot `j` of entry block `t`, after `position` others. -/
structure EntrySurvives (disk : DiskInterface) (m m' : Image) (pair : InodeBtreePair) (name : CString)
    (target : UInt64) (t j : ℕ) (position : UInt16) : Prop where
  /-- It is listed from its slot, with its name, active, and with its inode. -/
  listed : ∃ entries entry, Lists disk m' pair entries ∧ entries[position.toNat]? = some entry ∧
    entry = DirEntry.ofPage (m' (entryBlockOf disk m' pair.inodeNumber t)) (entryAt (t = 0) j) ∧
    entry.cString = name ∧ entry.active = true ∧ entry.inodeNumber = target
  /-- The rest of the data is as it was, the count in the header aside; of a block that is new to the
  directory, all but its type. -/
  rest : ∀ b, dataStart disk.totalBlocks.toNat ≤ b → b < disk.totalBlocks.toNat → ∀ o,
    blockBit m b = true ∧ blockType (m b) ≠ BlockType.btreeNode.code ∨
      4 ≤ o ∧ (∃ i, b = entryBlockOf disk m' pair.inodeNumber i) →
    (b = entryBlockOf disk m' pair.inodeNumber t →
      o < entryAt (t = 0) j ∨ entryAt (t = 0) j + sizeofDirEntry ≤ o) →
    (b = entryBlockOf disk m' pair.inodeNumber 0 → o ≠ 4 ∧ o ≠ 5) → m' b o = m b o
  /-- It is found by its name, or one is that was there before and has the same name. -/
  removed : ∃ s k, RemovesAt disk m' pair name s k ∧
    (s = t ∧ k = j ∨ (s < t ∨ s = t ∧ k < j) ∧
      entryActive (m' (entryBlockOf disk m' pair.inodeNumber s)) (entryAt (s = 0) k) = true ∧
      entryNamed (m' (entryBlockOf disk m' pair.inodeNumber s)) (entryAt (s = 0) k) name = true)

/-! ## The directory after the entry was added -/

namespace EntryBlocks

variable (E : EntryBlocks disk m inum blocks)
include E

theorem entryBlockOf_eq (hb : blocks[i]? = some b) : entryBlockOf disk m inum i = b := by
  obtain ⟨hi, -⟩ := List.getElem?_eq_some_iff.mp hb
  have hle := E.le
  have hlt := E.lt b (List.mem_of_getElem? hb)
  have hwrap := addressable_le disk
  have hget : (inodeAt disk m inum.toNat).directBlocks[i]? = some (UInt64.ofNat b) := by
    rw [Vector.getElem?_eq_getElem (by omega), E.direct i (by omega), hb]
    rfl
  rw [entryBlockOf, hget]
  exact toNat_ofNat_block (by omega)

/-- Where the inode names a block, the directory has one. -/
theorem getElem?_of_entryBlockOf (hpos : entryBlockOf disk m inum i ≠ 0) :
    blocks[i]? = some (entryBlockOf disk m inum i) := by
  rcases hb : blocks[i]? with _ | b
  · refine absurd ?_ hpos
    rw [entryBlockOf]
    by_cases hi : i < 12
    · rw [Vector.getElem?_eq_getElem hi, E.direct i hi, hb]
      rfl
    · rw [Vector.getElem?_eq_none (by omega)]
      rfl
  · rw [E.entryBlockOf_eq hb]

end EntryBlocks

namespace Stored

variable (S : Stored disk m₁ m' inum blocks₁ t j count new)
include S

theorem rest_of_mem (E₁ : EntryBlocks disk m₁ inum blocks₁) (hb : b ∈ blocks₁)
    (hslot : blocks₁[t]? = some b → o < entryAt (t = 0) j ∨ entryAt (t = 0) j + sizeofDirEntry ≤ o)
    (hheader : blocks₁[0]? = some b → o ≠ 4 ∧ o ≠ 5) : m' b o = m₁ b o := by
  have hle : disk.addressable ≤ disk.totalBlocks.toNat := min_le_left _ _
  refine S.rest b (E₁.behind b hb) ((E₁.lt b hb).trans_le hle) (E₁.taken b hb) ?_ o hslot hheader
  rw [E₁.type b hb]
  exact fun h => absurd (BlockType.code_injective h) (by decide)

/-- The other slots are as they were. -/
theorem same_slot (E₁ : EntryBlocks disk m₁ inum blocks₁) (hb : blocks₁[i]? = some b)
    (hne : i ≠ t ∨ k ≠ j) (ho : o < sizeofDirEntry) :
    m' b (entryAt (i = 0) k + o) = m₁ b (entryAt (i = 0) k + o) := by
  obtain ⟨hi, -⟩ := List.getElem?_eq_some_iff.mp hb
  refine S.rest_of_mem E₁ (List.mem_of_getElem? hb) (fun ht => ?_) fun h0 => ?_
  · obtain rfl : i = t := (List.getElem?_inj hi E₁.nodup).mp (hb.trans ht.symm)
    have hkj : k ≠ j := hne.resolve_left (fun h => h rfl)
    rw [entryAt, entryAt]
    rcases Nat.lt_or_gt_of_ne hkj with hlt | hgt
    · have hstep : sizeofDirEntry * (k + 1) ≤ sizeofDirEntry * j := Nat.mul_le_mul_left _ hlt
      rw [Nat.mul_succ] at hstep
      omega
    · have hstep : sizeofDirEntry * (j + 1) ≤ sizeofDirEntry * k := Nat.mul_le_mul_left _ hgt
      rw [Nat.mul_succ] at hstep
      omega
  · obtain rfl : i = 0 := (List.getElem?_inj hi E₁.nodup).mp (hb.trans h0.symm)
    have htrue := entryAt_true_ge k
    rw [decide_eq_true rfl]
    omega

/-- What was active is active. -/
theorem active_of (E₁ : EntryBlocks disk m₁ inum blocks₁) (hnew : new = newFile host name target)
    (hb : blocks₁[i]? = some b) (hactive : entryActive (m₁ b) (entryAt (i = 0) k) = true) :
    entryActive (m' b) (entryAt (i = 0) k) = true := by
  subst hnew
  by_cases hlast : i = t ∧ k = j
  · obtain ⟨rfl, rfl⟩ := hlast
    exact (S.entry b hb).active
  · rw [entryActive, S.same_slot E₁ hb (by omega) (show 271 < sizeofDirEntry by decide)]
    exact hactive

/-- Every slot up to the one of the entry is active now. -/
theorem activeTo (F : Found disk m m₁ inum blocks blocks₁ t j)
    (hnew : new = newFile host name target) : ActiveTo m' blocks₁ t j := by
  intro i b hb k hk
  by_cases hlast : i = t ∧ k = j
  · obtain ⟨rfl, rfl⟩ := hlast
    subst hnew
    exact (S.entry b hb).active
  · exact S.active_of F.dir hnew hb (F.active i b hb k (by omega))

end Stored

/-- Where a run that succeeds put the entry. -/
theorem EntryBlocks.exists_stored (E : EntryBlocks disk m pair.inodeNumber blocks)
    (hlookup : run disk.mapping (itemSearch disk path) m = some (pair, m))
    (hroom : addTarget disk m blocks = some (t, j, position))
    (hrun : run disk.mapping (directoryAddEntry disk host path name target type) m = some (0, m')) :
    ∃ m₁ blocks₁, Found disk m m₁ pair.inodeNumber blocks blocks₁ t j ∧
      Stored disk m₁ m' pair.inodeNumber blocks₁ t j (headerCount disk m blocks + 1)
        (newFile host name target) ∧
      position.toNat = entriesPerBlock * t + j := by
  rw [directoryAddEntry, run_bind_of_eq hlookup] at hrun
  split at hrun
  · rw [run_bind_of_eq (E.sound.layout.run_inodeRead_slot E.capacity), Option.getD_some] at hrun
    obtain ⟨m₁, blocks₁, b, F, hb, hstore, -, hpassed⟩ := E.exists_found (i := 0) (Nat.zero_le _)
      (fun _ h => absurd rfl h) (fun h => absurd rfl h) (fun i' _ _ h => absurd h (Nat.not_lt_zero i'))
      hroom hrun
    refine ⟨m₁, blocks₁, F, F.dir.stored hb hstore, ?_⟩
    have hle := F.dir.le
    have hlt := F.lt
    have hslot := F.slot
    have hlast : entriesPerBlock * t ≤ 180 :=
      Nat.mul_le_mul_left entriesPerBlock (show t ≤ 12 by omega)
    have hepb : entriesPerBlock = 15 := rfl
    rw [hpassed, Nat.sub_zero, UInt16.zero_add, UInt16.toNat_ofNat']
    exact Nat.mod_eq_of_lt (by omega)
  · have hfail := (Prod.mk.inj (Option.some.inj hrun)).1
    exact absurd hfail (by decide)

namespace Found

variable (F : Found disk m m₁ inum blocks blocks₁ t j)
include F

theorem entryBlockOf_eq (E' : EntryBlocks disk m' inum blocks₁) :
    blocks₁[t]? = some (entryBlockOf disk m' inum t) ∧
      blocks₁[0]? = some (entryBlockOf disk m' inum 0) := by
  have hlt := F.lt
  have hget : blocks₁[t]? = some blocks₁[t] := List.getElem?_eq_getElem hlt
  have hzero : blocks₁[0]? = some blocks₁[0] := List.getElem?_eq_getElem (by omega)
  exact ⟨by rw [hget, E'.entryBlockOf_eq hget], by rw [hzero, E'.entryBlockOf_eq hzero]⟩

/-- What is not the slot or the header stays. -/
theorem rest (S : Stored disk m₁ m' inum blocks₁ t j count new)
    (hlo : dataStart disk.totalBlocks.toNat ≤ b) (hhi : b < disk.totalBlocks.toNat)
    (hdata : blockBit m b = true ∧ blockType (m b) ≠ BlockType.btreeNode.code ∨
      4 ≤ o ∧ (∃ i, b = entryBlockOf disk m' inum i))
    (hslot : b = entryBlockOf disk m' inum t →
      o < entryAt (t = 0) j ∨ entryAt (t = 0) j + sizeofDirEntry ≤ o)
    (hheader : b = entryBlockOf disk m' inum 0 → o ≠ 4 ∧ o ≠ 5) : m' b o = m b o := by
  obtain ⟨ht, h0⟩ := F.entryBlockOf_eq S.dir
  have hslot' : blocks₁[t]? = some b → _ := fun h => hslot (Option.some.inj (h.symm.trans ht))
  have hheader' : blocks₁[0]? = some b → _ := fun h => hheader (Option.some.inj (h.symm.trans h0))
  rcases hdata with ⟨hset, hnode⟩ | ⟨ho, i, hi⟩
  · -- a block that was taken before
    have hsame : ∀ o, m₁ b o = m b o := fun o => F.same b hlo o fun hmem => by
      by_contra h
      rw [F.fresh b hmem fun hold => h (Or.inl hold)] at hset
      cases hset
    rw [S.rest b hlo hhi (F.taken b hhi hset) ?_ o hslot' hheader', hsame]
    rw [blockType_congr fun o _ => hsame o]
    exact hnode
  · -- a block of the directory
    have hstart := dataStart_pos disk.totalBlocks.toNat
    have hb : blocks₁[i]? = some b := by
      rw [hi]
      exact S.dir.getElem?_of_entryBlockOf (by omega)
    rw [S.rest_of_mem F.dir (List.mem_of_getElem? hb) hslot' hheader',
      F.same b hlo o fun _ => Or.inr ho]

end Found

/-! ## Listing and removing -/

namespace EntryBlocks

variable (E : EntryBlocks disk m pair.inodeNumber blocks)
include E

theorem lists (h : run disk.mapping (directoryListFrom pair (inodeAt disk m pair.inodeNumber.toNat)
    directoryBlocks 0 0 0 []) m = some (entries, m)) : Lists disk m pair entries where
  loop := h
  path path hpath := by
    rw [directoryList, run_bind_of_eq hpath.1, if_pos hpath.2,
      run_bind_of_eq (E.sound.layout.run_inodeRead_slot E.capacity), Option.getD_some,
      run_bind_of_eq h, run_pure]

theorem run_directoryRemoveEntry (hpath : LeadsTo disk m path pair) :
    run disk.mapping (directoryRemoveEntry disk path name) m =
      run disk.mapping (removeEntryFrom disk pair (inodeAt disk m pair.inodeNumber.toNat) name
        directoryBlocks 0 zeroInode 0 0 0 0 (-1)) m := by
  rw [directoryRemoveEntry, run_bind_of_eq hpath.1, if_pos hpath.2,
    run_bind_of_eq (E.sound.layout.run_inodeRead_slot E.capacity), Option.getD_some]

end EntryBlocks

namespace Found

variable (F : Found disk m m₁ pair.inodeNumber blocks blocks₁ t j)
  (S : Stored disk m₁ m' pair.inodeNumber blocks₁ t j count (newFile host name target))
include F S

/-- The entries are listed as far as the header counts. -/
theorem exists_lists : ∃ entries, Lists disk m' pair entries ∧
    (entriesOf m' blocks₁).take count.toNat <+: entries ∧ entries.length ≤ count.toNat := by
  obtain ⟨-, h0⟩ := F.entryBlockOf_eq S.dir
  obtain ⟨entries, hrun, hfront, hlen⟩ := S.dir.run_listFront h0
    ((S.activeTo F rfl).pageEntries_ne_nil h0)
  rw [S.header _ h0] at hfront hlen
  exact ⟨entries, S.dir.lists hrun, hfront, hlen⟩

/-- An entry that the header does not count is not listed. -/
theorem lt_of_survives (hposition : position.toNat = entriesPerBlock * t + j)
    (h : EntrySurvives disk m m' pair name target t j position) : position.toNat < count.toNat := by
  obtain ⟨entries, entry, hlists, hget, -⟩ := h.listed
  obtain ⟨listed, hlisted, -, hlen⟩ := F.exists_lists S
  obtain rfl := (Prod.mk.inj (Option.some.inj (hlists.loop.symm.trans hlisted.loop))).1
  obtain ⟨hlt, -⟩ := List.getElem?_eq_some_iff.mp hget
  omega

/-- A name that fills the array is not read back. -/
theorem length_lt_of_survives (hname : LegalName name)
    (h : EntrySurvives disk m m' pair name target t j position) : name.length < nameMax := by
  obtain ⟨entries, entry, -, -, rfl, hstring, -⟩ := h.listed
  obtain ⟨ht, -⟩ := F.entryBlockOf_eq S.dir
  exact ((S.entry _ ht).cString_iff hname).mp hstring

/-- `directory_remove_entry` comes to the entry, or to one with the name before it. -/
theorem exists_removesAt (hlen : name.length < nameMax)
    (hcount : entriesPerBlock * t < count.toNat) :
    ∃ s k, RemovesAt disk m' pair name s k ∧
      (s = t ∧ k = j ∨ (s < t ∨ s = t ∧ k < j) ∧
        entryActive (m' (entryBlockOf disk m' pair.inodeNumber s)) (entryAt (s = 0) k) = true ∧
        entryNamed (m' (entryBlockOf disk m' pair.inodeNumber s)) (entryAt (s = 0) k) name = true) := by
  obtain ⟨ht, h0⟩ := F.entryBlockOf_eq S.dir
  have hheader := S.header _ h0
  have htwelve := F.dir.le
  have hlt := F.lt
  have hmax : directoryBlocks = 4356 := rfl
  have hpass : ∀ i, i ≤ t →
      entriesPerBlock * i ≠ (entryCount (m' (entryBlockOf disk m' pair.inodeNumber 0))).toNat := by
    intro i hi
    have hupto : entriesPerBlock * i ≤ entriesPerBlock * t := Nat.mul_le_mul_left _ hi
    rw [hheader]
    omega
  have hscan := S.dir.run_removeScan h0 ht F.slot ((S.entry _ ht).named hlen) hpass (Nat.zero_le t)
    (show t < 0 + directoryBlocks by omega) zeroInode 0 0 0 (-1)
    (fun h => absurd rfl h) fun h => absurd rfl h
  obtain ⟨s, k, c, hs, hk, hbefore, hnamed, hloop⟩ := hscan
  have hc := S.dir.entryBlockOf_eq hs
  refine ⟨s, k, ⟨?_, fun path hpath => S.dir.run_directoryRemoveEntry hpath⟩, ?_⟩
  · rw [hc]
    exact hloop
  · by_cases hlast : s = t ∧ k = j
    · exact Or.inl hlast
    · have hactive := S.activeTo F rfl s c hs k (by omega)
      rw [hc]
      exact Or.inr ⟨by omega, hactive, hnamed⟩

/-- A legal name of less than 255 bytes, at a position below the count, comes back as it was added.
-/
theorem survives (hname : LegalName name) (hlen : name.length < nameMax)
    (hposition : position.toNat = entriesPerBlock * t + j) (hcount : position.toNat < count.toNat) :
    EntrySurvives disk m m' pair name target t j position where
  listed := by
    obtain ⟨ht, -⟩ := F.entryBlockOf_eq S.dir
    obtain ⟨entries, hlists, hfront, -⟩ := F.exists_lists S
    have hget := (S.activeTo F rfl).getElem?_entriesOf ht F.slot
    refine ⟨entries, _, hlists, ?_, rfl, (S.entry _ ht).cString_of_lt hname.zero hlen,
      (S.entry _ ht).active, (S.entry _ ht).inodeNumber⟩
    rw [← hposition, ← List.getElem?_take_of_lt hcount] at hget
    obtain ⟨hi, hval⟩ := List.getElem?_eq_some_iff.mp hget
    rw [List.prefix_iff_getElem?.mp hfront _ hi, hval]
  rest b hlo hhi o hdata hslot hheader := F.rest S hlo hhi hdata hslot hheader
  removed := F.exists_removesAt S hlen (by omega)

end Found

/-! ## A directory whose first slot is free -/

theorem addTarget_of_free {first : ℕ} (hfirst : blocks[0]? = some first)
    (hfree : entryActive (m first) (entryAt true 0) = false) :
    addTarget disk m blocks = some (0, 0, 0) := by
  cases blocks with
  | nil => cases hfirst
  | cons x rest =>
      obtain rfl := Option.some.inj hfirst
      have hslot : freeSlot (m x) true (entryCount (m x)) entriesPerBlock 0 0 = (some 0, 0) :=
        if_pos (Or.inl hfree)
      show scanPages ((m x, entryCount (m x)) :: _) 0 0 = _
      rw [scanPages, decide_eq_true rfl, hslot]

/-- The entry is stored when the B-tree of the directory takes the key. -/
theorem EntryBlocks.exists_storeEntry (E : EntryBlocks disk m pair.inodeNumber blocks) {b r f : ℕ}
    (hb : blocks[t]? = some b) (T : FlatTree disk m r []) (hr : pair.btreeBlock = UInt64.ofNat r)
    (H : FirstFree disk m f) (htype : type ≠ fileTypeDirectory) (number : UInt16) :
    ∃ m', run disk.mapping (storeEntry disk host pair name target type
      (inodeAt disk m pair.inodeNumber.toNat) (UInt64.ofNat b) (t = 0) j number) m = some (0, m') := by
  have hfree : treePages type ≤ nearFree disk m := by
    rw [treePages, if_neg htype]
    exact H.nearFree_pos
  obtain ⟨⟨rv, m'⟩, hstore⟩ := (E.exists_storeEntry_iff hb T.holdsTree hr (by decide)).mpr hfree
  obtain rfl := storeEntry_zero hstore
  exact ⟨m', hstore⟩

/-- A run that succeeds. -/
theorem EntryBlocks.exists_add (E : EntryBlocks disk m pair.inodeNumber blocks)
    (hpath : LeadsTo disk m path pair) {first r f : ℕ} (hfirst : blocks[0]? = some first)
    (hfree : entryActive (m first) (entryAt true 0) = false) (T : FlatTree disk m r [])
    (hr : pair.btreeBlock = UInt64.ofNat r) (H : FirstFree disk m f)
    (htype : type ≠ fileTypeDirectory) :
    ∃ m', run disk.mapping (directoryAddEntry disk host path name target type) m = some (0, m') := by
  obtain ⟨hlt, hget⟩ := List.getElem?_eq_some_iff.mp hfirst
  have hslot : freeSlot (m first) true (entryCount (m first)) entriesPerBlock 0 0 = (some 0, 0) :=
    if_pos (Or.inl hfree)
  have hfuel : directoryBlocks = 4355 + 1 := rfl
  have hscan : run disk.mapping (addEntryFrom disk host pair name target type (4355 + 1) 0
      (inodeAt disk m pair.inodeNumber.toNat) 0 0 0 0) m = _ :=
    E.run_oldBlock hlt fun h => absurd rfl h
  rw [hget, decide_eq_true rfl, hslot] at hscan
  rw [directoryAddEntry, run_bind_of_eq hpath.1, if_pos hpath.2,
    run_bind_of_eq (E.sound.layout.run_inodeRead_slot E.capacity), Option.getD_some, hfuel, hscan]
  exact E.exists_storeEntry hfirst T hr H htype _

/-- On a volume of 256 blocks, the root directory with entry blocks of any contents. -/
theorem exists_entryBlocks_256 (pages : List Bytes) (hle : pages.length ≤ 12) :
    ∃ m, EntryBlocks ⟨256, by decide⟩ m 0 (List.range' (dataStart 256 + 1) pages.length) ∧
      LeadsTo ⟨256, by decide⟩ m [slash] ⟨0, UInt64.ofNat (dataStart 256)⟩ ∧
      (∀ i (hi : i < pages.length),
        m (dataStart 256 + 1 + i) = setBlockType BlockType.data pages[i]) ∧
      FlatTree ⟨256, by decide⟩ m (dataStart 256) [] ∧
      FirstFree ⟨256, by decide⟩ m (dataStart 256 + 1 + pages.length) ∧
      nearFree ⟨256, by decide⟩ m = 256 - (dataStart 256 + 1 + pages.length) ∧
      (∀ n < 4092, inodeBit ⟨256, by decide⟩ m n = decide (n = 0)) ∧
      ∀ b, dataStart 256 + 1 + pages.length ≤ b → m b = fun _ => 0 := by
  have hfits : dataStart 256 + 1 + 12 < 256 := by decide
  have haddr : (DiskInterface.mk 256 (by decide)).addressable = 256 := by decide
  obtain ⟨m₀, -, F⟩ := run_diskFormat_blank ⟨256, by decide⟩ 0 0 0
    (show ([] : List UInt8).length ≤ 31 by decide) (blank_zero _) (by decide) (by decide)
  obtain ⟨m, D, hpath, hpage, T, hbits, hown, hinodes, hzero⟩ := F.exists_directory pages hle
    (show dataStart 256 + 1 + pages.length ≤ _ by rw [haddr]; omega) (by decide)
  have hbit : ∀ b < 256, blockBit m b = decide (b < dataStart 256 + 1 + pages.length) := hbits
  refine ⟨m, ?_, hpath, hpage, T, ?_, ?_, hinodes, hzero⟩
  · exact {
      toDataBlocks := D.toDataBlocks
      sound := {
        layout := D.layout
        metadata := fun b hb => by
          have hlow : b < dataStart 256 := hb
          rw [hbit b (by omega)]
          exact decide_eq_true (by omega)
        near := by decide }
      capacity := D.capacity
      own := hown
      nodup := List.nodup_range'
      behind := fun b hb => by
        have hlow : dataStart 256 + 1 ≤ b := (List.mem_range'_1.mp hb).1
        exact (Nat.le_succ _).trans hlow
      taken := fun b hb => by
        obtain ⟨-, hhi⟩ := List.mem_range'_1.mp hb
        rw [hbit b (by omega)]
        exact decide_eq_true hhi }
  · exact {
      lt := by rw [haddr]; omega
      clear := by
        rw [hbit _ (by omega)]
        exact decide_eq_false (Nat.lt_irrefl _)
      below := fun b hb => by
        rw [hbit b (by omega)]
        exact decide_eq_true hb }
  · rw [← haddr]
    exact nearFree_of_taken hbits

/-- On a volume of 256 blocks the root directory takes an entry of any name. -/
theorem exists_added_256 (name : CString) : ∃ m m' pair blocks,
    EntryBlocks ⟨256, by decide⟩ m pair.inodeNumber blocks ∧
    LeadsTo ⟨256, by decide⟩ m [slash] pair ∧
    (∃ b, blocks = [b] ∧ m b = setBlockType BlockType.data fun _ => 0) ∧
    addTarget ⟨256, by decide⟩ m blocks = some (0, 0, 0) ∧
    headerCount ⟨256, by decide⟩ m blocks = 0 ∧
    run (DiskInterface.mapping ⟨256, by decide⟩)
      (directoryAddEntry ⟨256, by decide⟩ ⟨0, 0, 0, fun _ => 0⟩ [slash] name 5 fileTypeRegular) m =
        some (0, m') := by
  obtain ⟨m, E, hlead, hpage, T, H, -⟩ := exists_entryBlocks_256 [fun _ => 0] (by decide)
  have hfirst : m (dataStart 256 + 1) = _ := hpage 0 (by decide)
  have hfree : entryActive (m (dataStart 256 + 1)) (entryAt true 0) = false := by
    rw [hfirst]
    decide
  have hadd : ∃ m', run (DiskInterface.mapping ⟨256, by decide⟩) (directoryAddEntry ⟨256, by decide⟩
      ⟨0, 0, 0, fun _ => 0⟩ [slash] name 5 fileTypeRegular) m = some (0, m') :=
    E.exists_add hlead rfl hfree T rfl H (by decide)
  obtain ⟨m', hrun⟩ := hadd
  refine ⟨m, m', _, _, E, hlead, ⟨_, rfl, hfirst⟩, addTarget_of_free rfl hfree, ?_, hrun⟩
  rw [headerCount_of_pos (by decide)]
  show entryCount (m (dataStart 256 + 1)) = 0
  rw [hfirst]
  decide

/-! ## Which entries survive -/

/-- The entry survives if and only if its name is shorter than the array and the header counts it. -/
theorem entrySurvives_iff (E : EntryBlocks disk m pair.inodeNumber blocks)
    (hlookup : run disk.mapping (itemSearch disk path) m = some (pair, m)) (hname : LegalName name)
    (hroom : addTarget disk m blocks = some (t, j, position))
    (hrun : run disk.mapping (directoryAddEntry disk host path name target type) m = some (0, m')) :
    EntrySurvives disk m m' pair name target t j position ↔
      name.length < nameMax ∧ position.toNat < (headerCount disk m blocks + 1).toNat := by
  obtain ⟨m₁, blocks₁, F, S, hposition⟩ := E.exists_stored hlookup hroom hrun
  constructor
  · exact fun h => ⟨F.length_lt_of_survives S hname h, F.lt_of_survives S hposition h⟩
  · exact fun h => F.survives S hname h.1 hposition h.2

/-- A name of equal bytes, none of them special. -/
theorem legalName_replicate {n : ℕ} (hpos : 0 < n) (hle : n ≤ nameMax) :
    LegalName (List.replicate n 97) :=
  ⟨by rwa [List.length_replicate], by rwa [List.length_replicate],
    fun h => absurd (List.eq_of_mem_replicate h) (by decide),
    fun h => absurd (List.eq_of_mem_replicate h) (by decide)⟩

/-- The entry of a file in an empty directory survives, with a name of 254 bytes. -/
theorem entrySurvives_iff_256 : ∃ m m' pair,
    EntrySurvives ⟨256, by decide⟩ m m' pair (List.replicate 254 97) 5 0 0 0 := by
  obtain ⟨m, m', pair, blocks, E, hlead, -, hroom, hheader, hrun⟩ :=
    exists_added_256 (List.replicate 254 97)
  refine ⟨m, m', pair, (entrySurvives_iff E hlead.1 (legalName_replicate (by decide) (by decide)) hroom
    hrun).mpr ⟨by rw [List.length_replicate]; decide, ?_⟩⟩
  rw [hheader]
  decide

/-- A file whose name has 255 bytes does not survive in the same directory. -/
theorem not_entrySurvives_256 : ∃ m m' pair blocks,
    EntryBlocks ⟨256, by decide⟩ m pair.inodeNumber blocks ∧
    LeadsTo ⟨256, by decide⟩ m [slash] pair ∧ LegalName (List.replicate 255 97) ∧
    addTarget ⟨256, by decide⟩ m blocks = some (0, 0, 0) ∧
    run (DiskInterface.mapping ⟨256, by decide⟩) (directoryAddEntry ⟨256, by decide⟩
      ⟨0, 0, 0, fun _ => 0⟩ [slash] (List.replicate 255 97) 5 fileTypeRegular) m = some (0, m') ∧
    ¬EntrySurvives ⟨256, by decide⟩ m m' pair (List.replicate 255 97) 5 0 0 0 := by
  obtain ⟨m, m', pair, blocks, E, hlead, -, hroom, -, hrun⟩ := exists_added_256 (List.replicate 255 97)
  have hname : LegalName (List.replicate 255 97) := legalName_replicate (by decide) le_rfl
  refine ⟨m, m', pair, blocks, E, hlead, hname, hroom, hrun, fun h => ?_⟩
  obtain ⟨m₁, blocks₁, F, S, -⟩ := E.exists_stored hlead.1 hroom hrun
  have hlt := F.length_lt_of_survives S hname h
  rw [List.length_replicate] at hlt
  exact Nat.lt_irrefl _ hlt

end Nbtrfs
