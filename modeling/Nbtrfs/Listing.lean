import Nbtrfs.ReadBack

/-!
# Listing a directory

Reference: `directory.c::directory_list`.

The first block of a directory has a header, and the function takes every block for the first one as
long as it has found no entry. So it lists the directory right when it is empty or has an active entry
in its first block.
-/

namespace Nbtrfs

open BlockProg

/-- The data blocks of inode `inum`, mapped by its direct pointers. -/
structure DataBlocks (disk : DiskInterface) (m : Image) (inum : UInt64) (blocks : List ℕ) : Prop where
  le : blocks.length ≤ 12
  direct : ∀ i (hi : i < 12), (inodeAt disk m inum.toNat).directBlocks[i] =
    (blocks[i]?.map UInt64.ofNat).getD 0
  indirect : (inodeAt disk m inum.toNat).indirectBlock = 0
  pos : ∀ b ∈ blocks, 0 < b
  lt : ∀ b ∈ blocks, b < disk.addressable
  type : ∀ b ∈ blocks, blockType (m b) = BlockType.data.code

/-- Directory `inum` on a volume that is laid out, with its entries in the given blocks. -/
structure DirectoryOn (disk : DiskInterface) (m : Image) (inum : UInt64) (blocks : List ℕ) : Prop
    extends DataBlocks disk m inum blocks where
  layout : Layout disk.mapping disk m
  capacity : inum.toNat < inodeCapacity disk.totalBlocks.toNat

/-- The active entries of a page, from slot `j` on. -/
def pageEntries (pg : Bytes) (header : Bool) (n j : ℕ) : List DirEntry :=
  ((List.range' j n).filter fun j => entryActive pg (entryAt header j)).map fun j =>
    DirEntry.ofPage pg (entryAt header j)

/-- The active entries of a directory, in slot order. -/
def entriesOf (m : Image) : List ℕ → List DirEntry
  | [] => []
  | b :: rest => pageEntries (m b) true entriesPerBlock 0 ++
      rest.flatMap fun b => pageEntries (m b) false entriesPerBlock 0

/-- The header counts the active entries. -/
def CountsEntries (m : Image) (blocks : List ℕ) : Prop :=
  ∀ b ∈ blocks.head?, (entryCount (m b)).toNat = (entriesOf m blocks).length

/-- `directory_list` returns the active entries and their number. -/
def ListsExactly (disk : DiskInterface) (m : Image) (path : CString) (blocks : List ℕ) : Prop :=
  run disk.mapping (directoryList disk path) m =
    some ((((entriesOf m blocks).length : ℤ), entriesOf m blocks), m)

/-- The directory is empty, or there is an active entry in its first block. -/
def FirstBlockActive (m : Image) (blocks : List ℕ) : Prop :=
  ∀ b ∈ blocks.head?, entryCount (m b) = 0 ∨
    ∃ j < entriesPerBlock, entryActive (m b) (entryAt true j) = true

/-- The directory is found, and it is empty or has an active entry in its first block; or it is not
found, and has no active entry. -/
def ListsCleanly (disk : DiskInterface) (m : Image) (path : CString) (pair : InodeBtreePair)
    (blocks : List ℕ) : Prop :=
  LeadsTo disk m path pair ∧ FirstBlockActive m blocks ∨
    Misses disk m path ∧ entriesOf m blocks = []

variable {disk : DiskInterface} {m : Image} {path : CString} {pair : InodeBtreePair}
  {blocks : List ℕ} {pg : Bytes} {header : Bool} {limit n i j b : ℕ} {entries : List DirEntry}

/-! ## One block -/

theorem pageEntries_succ : pageEntries pg header (n + 1) j =
    (if entryActive pg (entryAt header j) then [DirEntry.ofPage pg (entryAt header j)] else []) ++
      pageEntries pg header n (j + 1) := by
  rw [pageEntries, List.range'_succ, List.filter_cons]
  split
  · rfl
  · rfl

/-- The loop copies the active entries, up to as many as the header counts. -/
theorem listEntries_eq_take (h : entries.length ≤ limit) :
    listEntries pg header limit n j entries = (entries ++ pageEntries pg header n j).take limit := by
  induction n generalizing j entries with
  | zero =>
      have hnone : pageEntries pg header 0 j = [] := rfl
      rw [listEntries, hnone, List.append_nil, List.take_of_length_le h]
  | succ n ih =>
      rw [listEntries, pageEntries_succ]
      by_cases hroom : entries.length < limit
      · rw [if_pos hroom]
        by_cases hactive : entryActive pg (entryAt header j) = true
        · have hnext : (entries ++ [DirEntry.ofPage pg (entryAt header j)]).length ≤ limit := by
            rw [List.length_append, List.length_singleton]
            exact hroom
          rw [if_pos hactive, if_pos hactive, ih hnext, List.append_assoc]
        · rw [if_neg hactive, if_neg hactive, ih h, List.nil_append]
      · -- the limit is reached
        rw [if_neg hroom, List.take_left' (by omega)]

/-- It copies all of them when there are not more. -/
theorem listEntries_eq (h : entries.length + (pageEntries pg header n j).length ≤ limit) :
    listEntries pg header limit n j entries = entries ++ pageEntries pg header n j := by
  rw [listEntries_eq_take (by omega), List.take_of_length_le (by rwa [List.length_append])]

theorem take_append_take {α : Type*} (front back : List α) (n : ℕ) :
    (front.take n ++ back).take n = (front ++ back).take n := by
  rw [List.take_append, List.take_append, List.take_take, Nat.min_self, List.length_take]
  congr 2
  omega

/-! ## The blocks -/

namespace DataBlocks

section Inode

variable {inum : UInt64} (D : DataBlocks disk m inum blocks)
include D

theorem addr (hb : b ∈ blocks) : disk.mapping.addr (UInt64.ofNat b) = some b :=
  DiskInterface.mapping_exactTo.ofNat (D.lt b hb) ((addressable_le disk).trans (by omega))

theorem number_ne_zero (hb : b ∈ blocks) : UInt64.ofNat b ≠ 0 := by
  have hlt := D.lt b hb
  have hwrap := addressable_le disk
  exact ofNat_block_ne_zero (D.pos b hb) (by omega)

/-- `inode_get_block` for an entry block. -/
theorem run_getBlock (hi : i < 12) :
    ∃ rv, run disk.mapping (inodeGetBlock (inodeAt disk m inum.toNat) (UInt64.ofNat i)) m =
      some ((rv, some ((blocks[i]?.map UInt64.ofNat).getD 0)), m) := by
  have hnat : (UInt64.ofNat i).toNat = i := toNat_ofNat_block (by omega)
  have hdirect := D.direct i hi
  rw [run_inodeGetBlock_direct (by omega)]
  simp only [hnat, hdirect]
  exact ⟨_, rfl⟩

/-- Behind the direct blocks `inode_get_block` finds nothing. -/
theorem run_getBlock_past (hi : 12 ≤ i) (hlt : i < 1099511627776) :
    run disk.mapping (inodeGetBlock (inodeAt disk m inum.toNat) (UInt64.ofNat i)) m =
      some ((-1, none), m) := by
  have hnat : (UInt64.ofNat i).toNat = i := toNat_ofNat_block hlt
  exact run_inodeGetBlock_none (by omega) D.indirect

theorem run_getBlock_of_mem (hi : blocks[i]? = some b) : ∃ rv, run disk.mapping
    (inodeGetBlock (inodeAt disk m inum.toNat) (UInt64.ofNat i)) m =
      some ((rv, some (UInt64.ofNat b)), m) := by
  obtain ⟨hlen, -⟩ := List.getElem?_eq_some_iff.mp hi
  have hle := D.le
  obtain ⟨rv, hrun⟩ := D.run_getBlock (i := i) (by omega)
  rw [hi] at hrun
  exact ⟨rv, hrun⟩

end Inode

variable (D : DataBlocks disk m pair.inodeNumber blocks)
include D

/-- A step of the loop over the blocks, which looks at block `b`. -/
theorem run_listBlock {db block : UInt64} {c : ℕ} {rv : ℤ} {mapped : Option UInt64} (hb : b ∈ blocks)
    (hget : run disk.mapping (inodeGetBlock (inodeAt disk m pair.inodeNumber.toNat)
      (UInt64.ofNat i)) m = some ((rv, mapped), m)) (hblock : mapped.getD block = UInt64.ofNat b)
    (hdb : disk.mapping.addr (if entries.length = 0 then UInt64.ofNat b else db) = some c) :
    run disk.mapping (directoryListFrom pair (inodeAt disk m pair.inodeNumber.toNat) (n + 1) i block db
        entries) m =
      if (entryCount (m c)).toNat = entries.length then some (entries, m)
      else run disk.mapping (directoryListFrom pair (inodeAt disk m pair.inodeNumber.toNat) n (i + 1)
        (UInt64.ofNat b) (if entries.length = 0 then UInt64.ofNat b else db)
        (listEntries (m b) (entries.length = 0) (entryCount (m c)).toNat entriesPerBlock 0
          entries)) m := by
  rw [directoryListFrom, run_bind_of_eq hget]
  simp only [hblock]
  rw [if_neg (D.number_ne_zero hb), run_bind_of_eq (run_fetch _ _),
    run_bind_of_eq (run_page (D.addr hb)), if_neg (not_not.mpr (D.type b hb))]
  simp only [decide_eq_true_eq]
  rw [run_bind_of_eq (run_page hdb)]
  split
  · rw [run_pure]
  · rfl

/-- The loop once an entry was found: the entries of the other blocks follow. -/
theorem run_listRest {first last : ℕ} (hfirst : first ∈ blocks) (hlast : last ∈ blocks)
    (hne : entries.length ≠ 0) (hi : i ≤ blocks.length)
    (hcount : (entryCount (m first)).toNat = (entries ++ (blocks.drop i).flatMap fun b =>
      pageEntries (m b) false entriesPerBlock 0).length) (hn : 12 < i + n) :
    run disk.mapping (directoryListFrom pair (inodeAt disk m pair.inodeNumber.toNat) n i
        (UInt64.ofNat last) (UInt64.ofNat first) entries) m =
      some (entries ++ (blocks.drop i).flatMap fun b =>
        pageEntries (m b) false entriesPerBlock 0, m) := by
  have hle := D.le
  induction n generalizing i last entries with
  | zero => exact absurd hn (by omega)
  | succ n ih =>
      have hdb : ∀ b, disk.mapping.addr (if entries.length = 0 then UInt64.ofNat b
          else UInt64.ofNat first) = some first := fun b => by rw [if_neg hne, D.addr hfirst]
      rcases Nat.lt_or_eq_of_le hi with hlt | rfl
      · -- a block with entries
        have hget : blocks[i]? = some blocks[i] := List.getElem?_eq_getElem hlt
        have hmem : blocks[i] ∈ blocks := List.getElem_mem hlt
        obtain ⟨rv, hrun⟩ := D.run_getBlock_of_mem hget
        have hdrop : (blocks.drop i).flatMap (fun b => pageEntries (m b) false entriesPerBlock 0) =
            pageEntries (m blocks[i]) false entriesPerBlock 0 ++
              (blocks.drop (i + 1)).flatMap fun b =>
                pageEntries (m b) false entriesPerBlock 0 := by
          rw [List.drop_eq_getElem_cons hlt, List.flatMap_cons]
        rw [hdrop] at hcount ⊢
        rw [List.length_append, List.length_append] at hcount
        rw [D.run_listBlock hmem hrun rfl (hdb _), if_neg hne, decide_eq_false hne]
        split
        · -- all were found before
          next hall =>
          have hnone := List.length_eq_zero_iff.mp (show (pageEntries (m blocks[i]) false
            entriesPerBlock 0 ++ (blocks.drop (i + 1)).flatMap fun b =>
              pageEntries (m b) false entriesPerBlock 0).length = 0 by
            rw [List.length_append]
            omega)
          rw [hnone, List.append_nil]
        · rw [listEntries_eq (by omega), ih hmem (by rw [List.length_append]; omega)
            (show i + 1 ≤ blocks.length from hlt) (by
              rw [List.length_append, List.length_append]
              omega) (by omega), List.append_assoc]
      · rw [List.drop_length, List.flatMap_nil, List.append_nil] at hcount ⊢
        by_cases hfull : blocks.length < 12
        · -- no more block
          obtain ⟨rv, hrun⟩ := D.run_getBlock hfull
          rw [List.getElem?_eq_none le_rfl] at hrun
          rw [directoryListFrom, run_bind_of_eq hrun]
          simp only [Option.map_none, Option.getD_none, Option.getD_some]
          rw [if_pos trivial, run_pure]
        · -- the block is left as it was behind the direct ones, but all entries are found
          have hpast := D.run_getBlock_past (i := blocks.length) (by omega) (by omega)
          have hsame : Option.getD none (UInt64.ofNat last) = UInt64.ofNat last := rfl
          rw [D.run_listBlock hlast hpast hsame (hdb _), if_pos hcount]

/-- The loop once an entry was found, whatever the header counts: the entries of the other blocks
follow up to that number, and nothing is listed beyond it. -/
theorem run_listPrefix {first : ℕ} (hfirst : first ∈ blocks) (hne : entries.length ≠ 0)
    (hle : entries.length ≤ (entryCount (m first)).toNat) {block : UInt64}
    (hblock : 12 ≤ i → ∃ b ∈ blocks, block = UInt64.ofNat b) (hlen : blocks.length < i + n)
    (hmax : i + n ≤ directoryBlocks) :
    ∃ listed, run disk.mapping (directoryListFrom pair (inodeAt disk m pair.inodeNumber.toNat) n i block
        (UInt64.ofNat first) entries) m = some (listed, m) ∧
      (entries ++ (blocks.drop i).flatMap fun b =>
        pageEntries (m b) false entriesPerBlock 0).take (entryCount (m first)).toNat <+: listed ∧
      listed.length ≤ (entryCount (m first)).toNat := by
  induction n generalizing i block entries with
  | zero =>
      refine ⟨entries, rfl, ?_, hle⟩
      rw [List.drop_eq_nil_of_le (by omega), List.flatMap_nil, List.append_nil]
      exact List.take_prefix _ _
  | succ n ih =>
      have hbound : directoryBlocks = 4356 := rfl
      -- a step that looks at block `b`
      have hstep : ∀ b ∈ blocks, ∀ rv mapped, run disk.mapping (inodeGetBlock
          (inodeAt disk m pair.inodeNumber.toNat) (UInt64.ofNat i)) m = some ((rv, mapped), m) →
          mapped.getD block = UInt64.ofNat b →
          ∃ listed, run disk.mapping (directoryListFrom pair (inodeAt disk m pair.inodeNumber.toNat)
            (n + 1) i block (UInt64.ofNat first) entries) m = some (listed, m) ∧
            (entries ++ (pageEntries (m b) false entriesPerBlock 0 ++
              (blocks.drop (i + 1)).flatMap fun b => pageEntries (m b) false entriesPerBlock 0)).take
                (entryCount (m first)).toNat <+: listed ∧
            listed.length ≤ (entryCount (m first)).toNat := by
        intro b hb rv mapped hget hself
        have hdb : disk.mapping.addr (if entries.length = 0 then UInt64.ofNat b
            else UInt64.ofNat first) = some first := by rw [if_neg hne, D.addr hfirst]
        rw [D.run_listBlock hb hget hself hdb, if_neg hne, decide_eq_false hne]
        split
        · next hall =>
          refine ⟨entries, rfl, ?_, hle⟩
          rw [List.take_left' hall.symm]
        · next hroom =>
          rw [listEntries_eq_take hle]
          have hnext : ((entries ++ pageEntries (m b) false entriesPerBlock 0).take
              (entryCount (m first)).toNat).length ≠ 0 := by
            rw [List.length_take, List.length_append]
            omega
          obtain ⟨listed, hrun, hfront, hlast⟩ := ih hnext (List.length_take_le _ _)
            (i := i + 1) (fun _ => ⟨b, hb, rfl⟩) (by omega) (by omega)
          refine ⟨listed, hrun, ?_, hlast⟩
          rwa [take_append_take, List.append_assoc] at hfront
      have hdrop : blocks.length ≤ i → (blocks.drop i).flatMap (fun b =>
          pageEntries (m b) false entriesPerBlock 0) = [] := fun h => by
        rw [List.drop_eq_nil_of_le h, List.flatMap_nil]
      by_cases hlo : i < 12
      · by_cases hlt : i < blocks.length
        · obtain ⟨rv, hget⟩ := D.run_getBlock_of_mem (List.getElem?_eq_getElem hlt)
          rw [List.drop_eq_getElem_cons hlt, List.flatMap_cons]
          exact hstep _ (List.getElem_mem hlt) _ _ hget rfl
        · -- no more block
          obtain ⟨rv, hget⟩ := D.run_getBlock hlo
          rw [List.getElem?_eq_none (by omega)] at hget
          refine ⟨entries, ?_, ?_, hle⟩
          · rw [directoryListFrom, run_bind_of_eq hget]
            simp only [Option.map_none, Option.getD_none, Option.getD_some]
            rw [if_pos trivial, run_pure]
          · rw [hdrop (by omega), List.append_nil]
            exact List.take_prefix _ _
      · -- the last block is read again
        have hle12 := D.le
        obtain ⟨b, hb, rfl⟩ := hblock (by omega)
        obtain ⟨listed, hrun, hfront, hlast⟩ :=
          hstep b hb _ _ (D.run_getBlock_past (by omega) (by omega)) rfl
        refine ⟨listed, hrun, List.IsPrefix.trans ?_ hfront, hlast⟩
        rw [hdrop (by omega), List.append_nil, List.take_append]
        exact List.prefix_append _ _

/-- As long as nothing is found every block is read as the first one. -/
theorem run_listNone (hnone : ∀ b ∈ blocks, pageEntries (m b) true entriesPerBlock 0 = [])
    {block db : UInt64} (hblock : 12 ≤ i → ∃ b ∈ blocks, block = UInt64.ofNat b)
    (hi : i + n ≤ directoryBlocks) :
    run disk.mapping (directoryListFrom pair (inodeAt disk m pair.inodeNumber.toNat) n i block db
      []) m = some ([], m) := by
  induction n generalizing i block db with
  | zero => rfl
  | succ n ih =>
      have hmax : directoryBlocks = 4356 := rfl
      -- a step that looks at block `b`
      have hstep : ∀ b ∈ blocks, ∀ rv mapped, run disk.mapping (inodeGetBlock
          (inodeAt disk m pair.inodeNumber.toNat) (UInt64.ofNat i)) m = some ((rv, mapped), m) →
          mapped.getD block = UInt64.ofNat b →
          run disk.mapping (directoryListFrom pair (inodeAt disk m pair.inodeNumber.toNat) (n + 1) i
            block db []) m = some ([], m) := by
        intro b hb rv mapped hget hself
        have hdb : disk.mapping.addr (if ([] : List DirEntry).length = 0 then UInt64.ofNat b
            else db) = some b := by rw [if_pos List.length_nil, D.addr hb]
        rw [D.run_listBlock hb hget hself hdb, List.length_nil, decide_eq_true rfl, if_pos rfl]
        split
        · rfl
        · rw [listEntries_eq (by rw [hnone b hb]; exact Nat.zero_le _), hnone b hb]
          exact ih (fun _ => ⟨b, hb, rfl⟩) (by omega)
      by_cases hlo : i < 12
      · by_cases hlen : i < blocks.length
        · obtain ⟨rv, hget⟩ := D.run_getBlock_of_mem (List.getElem?_eq_getElem hlen)
          exact hstep _ (List.getElem_mem hlen) _ _ hget rfl
        · obtain ⟨rv, hget⟩ := D.run_getBlock hlo
          rw [List.getElem?_eq_none (by omega)] at hget
          rw [directoryListFrom, run_bind_of_eq hget]
          simp only [Option.map_none, Option.getD_none, Option.getD_some]
          rw [if_pos trivial, run_pure]
      · obtain ⟨b, hb, rfl⟩ := hblock (by omega)
        exact hstep b hb _ _ (D.run_getBlock_past (by omega) (by omega)) rfl

end DataBlocks

namespace DirectoryOn

variable (D : DirectoryOn disk m pair.inodeNumber blocks)
include D

/-- The whole list, if the first block is taken for what it is. -/
theorem listsExactly_of_leadsTo (hpath : LeadsTo disk m path pair) (hcount : CountsEntries m blocks)
    (hfirst : FirstBlockActive m blocks) : ListsExactly disk m path blocks := by
  have hle := D.le
  suffices h : run disk.mapping (directoryListFrom pair (inodeAt disk m pair.inodeNumber.toNat)
      directoryBlocks 0 0 0 []) m = some (entriesOf m blocks, m) by
    rw [ListsExactly, directoryList, run_bind_of_eq hpath.1, if_pos hpath.2,
      run_bind_of_eq (D.layout.run_inodeRead_slot D.capacity), Option.getD_some, run_bind_of_eq h,
      run_pure]
  have hfuel : directoryBlocks = 4355 + 1 := rfl
  rw [hfuel]
  cases hblocks : blocks with
  | nil =>
      obtain ⟨rv, hrun⟩ := D.toDataBlocks.run_getBlock (i := 0) (by omega)
      rw [hblocks] at hrun
      rw [directoryListFrom, run_bind_of_eq hrun]
      simp only [List.getElem?_nil, Option.map_none, Option.getD_none, Option.getD_some]
      rw [if_pos trivial, run_pure]
      rfl
  | cons first rest =>
      have hmem : first ∈ blocks := hblocks ▸ List.mem_cons_self
      have hget : blocks[0]? = some first := by rw [hblocks]; rfl
      have hhead : first ∈ blocks.head? := by rw [hblocks]; rfl
      have hcount := hcount first hhead
      rw [hblocks, entriesOf, List.length_append] at hcount
      obtain ⟨rv, hrun⟩ := D.toDataBlocks.run_getBlock_of_mem hget
      have hself : Option.getD (some (UInt64.ofNat first)) 0 = UInt64.ofNat first := rfl
      have hdb : disk.mapping.addr (if ([] : List DirEntry).length = 0 then UInt64.ofNat first
          else 0) = some first := by rw [if_pos List.length_nil, D.toDataBlocks.addr hmem]
      rw [D.toDataBlocks.run_listBlock (n := 4355) hmem hrun hself hdb, entriesOf, List.length_nil,
        decide_eq_true rfl, if_pos rfl]
      by_cases hzero : (entryCount (m first)).toNat = 0
      · -- nothing is listed
        rw [if_pos hzero]
        have hnone := List.length_eq_zero_iff.mp (show (pageEntries (m first) true entriesPerBlock 0 ++
          rest.flatMap fun b => pageEntries (m b) false entriesPerBlock 0).length = 0 by
            rw [List.length_append]
            omega)
        rw [hnone]
      · have hsome : (pageEntries (m first) true entriesPerBlock 0).length ≠ 0 := by
          rcases hfirst first hhead with h | ⟨j, hj, hactive⟩
          · rw [h] at hzero
            exact absurd rfl hzero
          · rw [pageEntries, List.length_map]
            have hmem : j ∈ (List.range' 0 entriesPerBlock).filter fun j =>
                entryActive (m first) (entryAt true j) :=
              List.mem_filter.mpr ⟨List.mem_range'_1.mpr ⟨Nat.zero_le j, by omega⟩, hactive⟩
            exact (List.length_pos_of_mem hmem).ne'
        have hrest : blocks.drop 1 = rest := by rw [hblocks]; rfl
        have hlist := D.toDataBlocks.run_listRest (i := 1) (n := 4355) hmem hmem hsome (by
          rw [hblocks, List.length_cons]
          omega) (by rw [hrest, List.length_append, hcount]) (by omega)
        rw [hrest] at hlist
        rw [if_neg hzero, listEntries_eq (by rw [List.length_nil]; omega), List.nil_append]
        exact hlist

/-- Nothing is listed when no block, read as the first one, has an active entry. -/
theorem run_directoryList_none (hpath : LeadsTo disk m path pair)
    (hnone : ∀ b ∈ blocks, pageEntries (m b) true entriesPerBlock 0 = []) :
    run disk.mapping (directoryList disk path) m = some ((0, []), m) := by
  rw [directoryList, run_bind_of_eq hpath.1, if_pos hpath.2,
    run_bind_of_eq (D.layout.run_inodeRead_slot D.capacity), Option.getD_some,
    run_bind_of_eq (D.toDataBlocks.run_listNone hnone (fun h => absurd h (by omega)) (by omega)), run_pure]
  rfl

end DirectoryOn

/-- Of a directory that is not found nothing is listed. -/
theorem Misses.run_directoryList (h : Misses disk m path) :
    run disk.mapping (directoryList disk path) m = some ((0, []), m) := by
  rw [directoryList, run_bind_of_eq h.1, if_neg (not_or.mpr ⟨not_not.mpr rfl, h.2⟩), run_pure]

/-- `directory_list` lists a directory right when it is found, and is empty or has an active entry in its
first block. One that is not found is listed right only when it has no active entry. -/
theorem DirectoryOn.listsExactly (D : DirectoryOn disk m pair.inodeNumber blocks)
    (hcount : CountsEntries m blocks) :
    (ListsCleanly disk m path pair blocks → ListsExactly disk m path blocks) ∧
      (Misses disk m path → ListsExactly disk m path blocks →
        ListsCleanly disk m path pair blocks) := by
  constructor
  · rintro (⟨hpath, hfirst⟩ | ⟨hmiss, hnone⟩)
    · exact D.listsExactly_of_leadsTo hpath hcount hfirst
    · rw [ListsExactly, hnone]
      exact hmiss.run_directoryList
  · intro hmiss hexact
    have hpair := (Prod.mk.inj (Option.some.inj (hmiss.run_directoryList.symm.trans hexact))).1
    exact Or.inr ⟨hmiss, (Prod.mk.inj hpair).2.symm⟩

/-! ## A directory on a formatted volume -/

/-- The root directory of a fresh volume, with entry blocks of any contents. -/
theorem Fresh.exists_directory {uid gid : UInt32} {m₀ : Image} (F : Fresh disk uid gid m₀)
    (pages : List Bytes) (hle : pages.length ≤ 12)
    (hroom : dataStart disk.totalBlocks.toNat + 1 + pages.length ≤ disk.addressable)
    (hslots : 0 < inodeCapacity disk.totalBlocks.toNat) :
    ∃ m, DirectoryOn disk m 0 (List.range' (dataStart disk.totalBlocks.toNat + 1) pages.length) ∧
      LeadsTo disk m [slash] ⟨0, UInt64.ofNat (dataStart disk.totalBlocks.toNat)⟩ ∧
      (∀ i (hi : i < pages.length), m (dataStart disk.totalBlocks.toNat + 1 + i) =
        setBlockType BlockType.data pages[i]) ∧
      FlatTree disk m (dataStart disk.totalBlocks.toNat) [] ∧
      (∀ b < disk.totalBlocks.toNat, Nbtrfs.blockBit m b =
        decide (b < dataStart disk.totalBlocks.toNat + 1 + pages.length)) ∧
      (inodeAt disk m 0).inodeNumber = 0 ∧
      (∀ n < 4092 * inodeBitmapBlocks disk.totalBlocks.toNat,
        Nbtrfs.inodeBit disk m n = decide (n = 0)) ∧
      ∀ b, dataStart disk.totalBlocks.toNat + 1 + pages.length ≤ b → m b = fun _ => 0 := by
  have htotal : disk.addressable ≤ disk.totalBlocks.toNat := min_le_left _ _
  have hwrap := addressable_le disk
  have hstart : inodeBitmapStart disk.totalBlocks.toNat =
    1 + blockBitmapBlocks disk.totalBlocks.toNat := rfl
  have htable := inodeBitmapStart_le disk.totalBlocks.toNat
  have hdata := inodeTableStart_le disk.totalBlocks.toNat
  have hslot : slotBlock disk 0 < dataStart disk.totalBlocks.toNat :=
    slotBlock_lt hslots
  have hslotGe := slotBlock_ge disk 0
  obtain ⟨m₁, hbits, htype, hother⟩ := exists_prefix (fun _ hb => F.blockBit_lt hb)
    (n := pages.length) (by omega)
  obtain ⟨m₂, hm₂⟩ : ∃ m₂ : Image, ∀ b, m₂ b =
      if dataStart disk.totalBlocks.toNat + 1 ≤ b then
        ((pages[b - (dataStart disk.totalBlocks.toNat + 1)]?).map
          (setBlockType BlockType.data)).getD fun _ => 0
      else m₁ b := ⟨_, fun _ => rfl⟩
  have hlow : ∀ b ≤ dataStart disk.totalBlocks.toNat, m₂ b = m₁ b := fun b hb => by
    rw [hm₂, if_neg (by omega)]
  obtain ⟨node, hnode⟩ : ∃ node : Inode, node = { inodeAt disk m₁ 0 with
      directBlocks := Vector.ofFn fun i : Fin 12 => ((List.range' (dataStart disk.totalBlocks.toNat + 1)
        pages.length)[i.val]?.map UInt64.ofNat).getD 0
      indirectBlock := 0 } := ⟨_, rfl⟩
  have hkeep : ∀ b, b ≠ slotBlock disk 0 → putInode disk m₂ 0 node b = m₂ b := fun b hb =>
    Function.update_of_ne hb _ _
  have hroot : dataStart disk.totalBlocks.toNat ≠ slotBlock disk 0 := by omega
  have hsame : ∀ b, b = 0 ∨ blockBitmapBlocks disk.totalBlocks.toNat < b →
      b ≤ dataStart disk.totalBlocks.toNat → m₂ b = m₀ b := fun b hb hle => by
    rw [hlow b hle, hother b hb]
  have hzero : putInode disk m₂ 0 node 0 = m₀ 0 := by
    rw [hkeep 0 (by omega), hsame 0 (Or.inl rfl) (Nat.zero_le _)]
  have hrootPage : putInode disk m₂ 0 node (dataStart disk.totalBlocks.toNat) =
      m₀ (dataStart disk.totalBlocks.toNat) := by
    rw [hkeep _ hroot, hsame _ (Or.inr (by omega)) le_rfl]
  have hpage : ∀ i (hi : i < pages.length),
      putInode disk m₂ 0 node (dataStart disk.totalBlocks.toNat + 1 + i) =
        setBlockType BlockType.data pages[i] := fun i hi => by
    rw [hkeep _ (by omega), hm₂, if_pos (by omega), Nat.add_sub_cancel_left,
      List.getElem?_eq_getElem hi]
    rfl
  have hbits' : ∀ b < disk.totalBlocks.toNat, Nbtrfs.blockBit (putInode disk m₂ 0 node) b =
      decide (b < dataStart disk.totalBlocks.toNat + 1 + pages.length) := fun b hb => by
    rw [blockBit_putInode hb, BitmapArea.bit_congr (fun c hc => hlow c (by omega)) hb, hbits b hb]
  have L : Layout disk.mapping disk (putInode disk m₂ 0 node) :=
    F.layout.congr (by rw [hzero]) (by rw [hzero]) fun b hb => by
      rw [blockType_putInode, hlow b (by omega), htype]
  have hblock : ∀ b ∈ List.range' (dataStart disk.totalBlocks.toNat + 1) pages.length,
      ∃ i < pages.length, b = dataStart disk.totalBlocks.toNat + 1 + i := fun b hb => by
    obtain ⟨i, hi, rfl⟩ := List.mem_range'.mp hb
    exact ⟨i, hi, by omega⟩
  have hown : (inodeAt disk (putInode disk m₂ 0 node) 0).inodeNumber = 0 := by
    rw [inodeAt_putInode_self, hnode]
    show (inodeAt disk m₁ 0).inodeNumber = 0
    rw [inodeAt, hother _ (Or.inr (by omega)), ← inodeAt, F.rootInode]
    rfl
  refine ⟨putInode disk m₂ 0 node, ?_, ⟨?_, Or.inr rfl⟩, hpage, ?_, hbits', hown, fun n hn => ?_,
    fun b hb => ?_⟩
  · exact {
      layout := L
      capacity := hslots
      le := by rwa [List.length_range']
      direct := fun i hi => by
        show (inodeAt disk (putInode disk m₂ 0 node) 0).directBlocks[i] = _
        rw [inodeAt_putInode_self, hnode]
        exact Vector.getElem_ofFn ..
      indirect := by
        show (inodeAt disk (putInode disk m₂ 0 node) 0).indirectBlock = _
        rw [inodeAt_putInode_self, hnode]
      pos := fun b hb => by
        obtain ⟨i, hi, rfl⟩ := hblock b hb
        omega
      lt := fun b hb => by
        obtain ⟨i, hi, rfl⟩ := hblock b hb
        omega
      type := fun b hb => by
        obtain ⟨i, hi, rfl⟩ := hblock b hb
        rw [hpage i hi, blockType_setBlockType] }
  · have haddr : disk.mapping.addr (Superblock.ofPage (m₀ 0)).btreeRoot =
        some (dataStart disk.totalBlocks.toNat) := by
      rw [F.btreeRoot]
      exact DiskInterface.mapping_exactTo.ofNat F.fits (hwrap.trans (by omega))
    have hcopy := run_btreeNodeCopy (m := putInode disk m₂ 0 node) haddr (by
      rw [hrootPage, F.rootType])
    rw [hrootPage] at hcopy
    rw [itemSearch, run_bind_of_eq L.run_superblockCopy, hzero, run_bind_of_eq hcopy, if_pos rfl,
      run_pure, F.rootNode]
    rfl
  · refine F.rootTree.congr ?_ hrootPage (fun l hl => absurd hl List.not_mem_nil) fun b hb hset => ?_
    · exact {
        type := fun b h1 hb => by
          rw [blockType_putInode, hlow b (by omega), htype]
          exact F.bitmapArea.type b h1 hb
        bit := fun b hb => by
          rw [hbits' b (by omega)]
          exact decide_eq_true (by omega) }
    · rw [F.blockBit_lt hb] at hset
      rw [hbits' b hb]
      exact decide_eq_true (by have := of_decide_eq_true hset; omega)
  · rw [← F.inodeBit n hn]
    have hbitmap : inodeTableStart disk.totalBlocks.toNat = inodeBitmapStart disk.totalBlocks.toNat +
      inodeBitmapBlocks disk.totalBlocks.toNat := rfl
    have hslotGe : inodeTableStart disk.totalBlocks.toNat ≤ slotBlock disk 0 := hslotGe
    exact areaBit_congr (by
      rw [hkeep _ (by omega), hsame _ (Or.inr (by omega)) (by omega)])
  · rw [hkeep b (by omega), hm₂, if_pos (by omega), List.getElem?_eq_none (by omega)]
    rfl

/-- A page with the given number of entries in its header, whose first slot, behind the header or not,
holds an active entry `a` for inode 1 or no entry. -/
def entryPage (count : UInt8) (header active : Bool) : Bytes := fun o =>
  if header = true ∧ o = 4 then count
  else if active = true ∧ (o = entryAt header 0 ∨ o = entryAt header 0 + 271) then 1
  else if active = true ∧ o = entryAt header 0 + 16 then 97
  else 0

/-- On a volume of 256 blocks, a directory with three blocks and two entries, in the first one and in the
last one, is listed. -/
theorem listsExactly_256 : ∃ (m : Image) (blocks : List ℕ),
    DirectoryOn ⟨256, by decide⟩ m 0 blocks ∧ blocks.length = 3 ∧ (entriesOf m blocks).length = 2 ∧
    ListsExactly ⟨256, by decide⟩ m [slash] blocks := by
  obtain ⟨m₀, -, F⟩ := run_diskFormat_blank ⟨256, by decide⟩ 0 0 0
    (show ([] : List UInt8).length ≤ 31 by decide) (blank_zero _) (by decide) (by decide)
  obtain ⟨m, D, hpath, hpage, -⟩ := F.exists_directory
    [entryPage 2 true true, entryPage 0 false false, entryPage 0 false true] (by decide) (by decide)
    (by decide)
  have hfirst : m (dataStart 256 + 1) = _ := hpage 0 (by decide)
  have hsecond : m (dataStart 256 + 1 + 1) = _ := hpage 1 (by decide)
  have hthird : m (dataStart 256 + 1 + 2) = _ := hpage 2 (by decide)
  have htwo : (entriesOf m [dataStart 256 + 1, dataStart 256 + 1 + 1, dataStart 256 + 1 + 2]).length =
      2 := by
    rw [entriesOf, List.flatMap_cons, List.flatMap_singleton, hfirst, hsecond, hthird]
    decide
  have hcount : CountsEntries m (List.range' (dataStart 256 + 1) 3) := fun b hb => by
    obtain rfl : dataStart 256 + 1 = b := Option.some.inj hb
    rw [hfirst]
    exact Eq.trans (by decide) htwo.symm
  refine ⟨m, _, D, rfl, htwo, And.left (DirectoryOn.listsExactly D hcount) (Or.inl ⟨hpath, fun b hb =>
    Or.inr ⟨0, by decide, ?_⟩⟩)⟩
  obtain rfl : dataStart 256 + 1 = b := Option.some.inj hb
  rw [hfirst]
  decide

/-- On the same volume, the only active entry is in the second block: nothing is listed. -/
theorem not_listsExactly_256 : ∃ (m : Image) (pair : InodeBtreePair) (blocks : List ℕ),
    DirectoryOn ⟨256, by decide⟩ m pair.inodeNumber blocks ∧
    LeadsTo ⟨256, by decide⟩ m [slash] pair ∧ CountsEntries m blocks ∧
    (entriesOf m blocks).length = 1 ∧
    run (DiskInterface.mapping ⟨256, by decide⟩) (directoryList ⟨256, by decide⟩ [slash]) m =
      some ((0, []), m) ∧ ¬ListsExactly ⟨256, by decide⟩ m [slash] blocks := by
  obtain ⟨m₀, -, F⟩ := run_diskFormat_blank ⟨256, by decide⟩ 0 0 0
    (show ([] : List UInt8).length ≤ 31 by decide) (blank_zero _) (by decide) (by decide)
  obtain ⟨m, D, hpath, hpage, -⟩ := F.exists_directory [entryPage 1 true false, entryPage 0 false true]
    (by decide) (by decide) (by decide)
  have hfirst : m (dataStart 256 + 1) = _ := hpage 0 (by decide)
  have hsecond : m (dataStart 256 + 1 + 1) = _ := hpage 1 (by decide)
  have hone : (entriesOf m [dataStart 256 + 1, dataStart 256 + 1 + 1]).length = 1 := by
    rw [entriesOf, List.flatMap_singleton, hfirst, hsecond]
    decide
  have hrun : run (DiskInterface.mapping ⟨256, by decide⟩) (directoryList ⟨256, by decide⟩ [slash]) m =
      some ((0, []), m) := DirectoryOn.run_directoryList_none D hpath fun b hb => by
    rcases List.mem_cons.mp hb with rfl | hb
    · exact (congrArg (fun pg => pageEntries pg true entriesPerBlock 0) hfirst).trans (by decide)
    · obtain rfl := List.mem_singleton.mp hb
      exact (congrArg (fun pg => pageEntries pg true entriesPerBlock 0) hsecond).trans (by decide)
  refine ⟨m, _, _, D, hpath, fun b hb => ?_, hone, hrun, fun hexact => ?_⟩
  · obtain rfl : dataStart 256 + 1 = b := Option.some.inj hb
    rw [hfirst]
    exact Eq.trans (by decide) hone.symm
  · have hpair := (Prod.mk.inj (Option.some.inj (hrun.symm.trans hexact))).1
    have hzero : (0 : ℤ) = _ := (Prod.mk.inj hpair).1
    have hlen : ((entriesOf m [dataStart 256 + 1, dataStart 256 + 1 + 1]).length : ℤ) = 1 := by
      rw [hone]
      rfl
    exact absurd (hzero.trans hlen) (by decide)

end Nbtrfs
