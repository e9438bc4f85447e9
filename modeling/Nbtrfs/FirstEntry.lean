import Nbtrfs.Btr.Demands
import Nbtrfs.Mknod

/-!
# The first entry of a directory

Reference: `hash.c::item_search`, `directory.c::directory_add_entry`, `fuse.c::nbtrfs_mknod`.

`directory_add_entry` on a root directory without blocks takes two pages: one for the entries and one
for the leaf of the B-tree. Here are the volume that it leaves and what it asks of the cache, and the
same for the `mknod` around it.
-/

namespace Nbtrfs

open BlockProg Bytes

variable {disk : DiskInterface} {m m' m₁ : Image} {name c : CString} {pair : InodeBtreePair}
  {host : Host} {target inum : UInt64} {type mode : UInt32} {leaves : List Leaf} {l : Leaf}
  {f g j k r : ℕ} {node : Inode} {block db : UInt64} {count number : UInt16} {new : Bytes}

/-! ## Lookups -/

/-- The root directory, inode 0, has a flat tree, and no directories in it. -/
structure RootTree (disk : DiskInterface) (m : Image) (r : ℕ) (leaves : List Leaf) : Prop where
  layout : Layout disk.mapping disk m
  root : (Superblock.ofPage (m 0)).btreeRoot = UInt64.ofNat r
  tree : FlatShape disk m r leaves
  value : (BTreeNode.ofPage (m r)).value = 0
  file : ∀ l ∈ leaves, l.type ≠ fileTypeDirectory

namespace RootTree

variable (R : RootTree disk m r leaves)
include R

/-- The tree is that of any volume on which its pages look the same. -/
theorem congr (L : Layout disk.mapping disk m')
    (hlike : ∀ b, (b = 0 ∨ b = r ∨ ∃ l ∈ leaves, b = l.block) → LooksAlike (m b) (m' b)) :
    RootTree disk m' r leaves := by
  have hroot := hlike r (Or.inr (Or.inl rfl))
  exact {
    layout := L
    root := by rw [(hlike 0 (Or.inl rfl)).root R.layout.super, R.root]
    tree := {
      root_pos := R.tree.root_pos
      root_lt := R.tree.root_lt
      root_type := by rw [hroot.type, R.tree.root_type]
      root := by
        rw [hroot.node R.tree.root_type]
        exact R.tree.root
      leaf := fun l hl => (R.tree.leaf l hl).congr
        ((hlike l.block (Or.inr (Or.inr ⟨l, hl, rfl⟩))).node (R.tree.leaf l hl).type) }
    value := by rw [hroot.node R.tree.root_type, R.value]
    file := R.file }

/-- The root directory is found under the path of one slash. -/
theorem run_itemSearch_root : run disk.mapping (itemSearch disk [slash]) m =
    some (⟨0, UInt64.ofNat r⟩, m) := by
  rw [itemSearch, run_bind_of_eq R.layout.run_superblockCopy, R.root,
    run_bind_of_eq R.tree.isNode.run_copy, if_pos rfl, R.value, R.tree.root.blockNumber]
  rfl

omit R in
/-- The only file is found under its name. -/
theorem run_itemSearch_file (R : RootTree disk m r [l]) (hc : IsComponent c)
    (hshort : (joined [c]).length < pathMax) (hkey : l.key = pathHash c) :
    run disk.mapping (itemSearch disk (joined [c])) m = some (⟨l.value, 0⟩, m) := by
  have hmem : l ∈ [l] := List.mem_singleton_self l
  rw [run_itemSearch_joined R.layout R.root R.tree.isNode.addr R.tree.isNode.type
    (fun d hd => (List.mem_singleton.mp hd) ▸ hc) (by simp)]
  exact run_searchPath_file R.tree hc hshort R.tree.root.blockNumber hmem
    (by rw [Leaf.found_singleton, if_pos hkey]) (R.file l hmem) []

/-- The lookup of a path obtains the superblock and nodes of the tree. -/
theorem demands_itemSearch_root : Demands disk 0 (itemSearch disk [slash]) m := by
  rw [itemSearch]
  refine (demands_superblockCopy ((Nat.zero_le r).trans_lt R.tree.root_lt)).quiet_bind_of_run
    R.layout.run_superblockCopy ?_
  rw [R.root]
  exact (demands_btreeNodeCopy R.tree.number_lt).quiet_bind fun _ _ _ =>
    Asks.ite (fun _ => Asks.pure) fun hne => absurd rfl hne

theorem demands_itemSearch (hc : IsComponent c) : Demands disk 0 (itemSearch disk (joined [c])) m := by
  have hcomp : ∀ d ∈ [c], IsComponent d := fun d hd => (List.mem_singleton.mp hd) ▸ hc
  rw [itemSearch, countL_joined hcomp, List.length_singleton]
  refine (demands_superblockCopy ((Nat.zero_le r).trans_lt R.tree.root_lt)).quiet_bind_of_run
    R.layout.run_superblockCopy ?_
  rw [R.root]
  refine (demands_btreeNodeCopy R.tree.number_lt).quiet_bind_of_run R.tree.isNode.run_copy ?_
  refine Asks.ite (fun _ => Asks.pure) fun _ => ?_
  have hsplit : split (joined [c]) 1 = some c := split_joined hcomp 0
  rw [searchPath, hsplit]
  simp only [R.tree.root.blockNumber]
  refine R.tree.demands_btreeSearch.quiet_bind_of_run (R.tree.run_btreeSearch _) ?_
  refine Asks.ite (fun _ => Asks.pure) fun hne => ?_
  obtain ⟨l, hl, -, hfound⟩ := Leaf.exists_of_found_ne_zero hne
  have P := R.tree.leaf l hl
  have htype : (BTreeNode.ofPage (m l.block)).type ≠ fileTypeDirectory := by
    rw [show (BTreeNode.ofPage (m l.block)).type = l.type from congrArg Leaf.type P.onPage]
    exact R.file l hl
  rw [hfound]
  refine (demands_btreeNodeRead P.number_lt).quiet_bind_of_run P.run_btreeNodeRead ?_
  rw [Option.getD_some, enterNode, if_neg htype]
  exact Asks.pure.quiet_bind_of_run (run_pure _) (Asks.ite (fun _ => Asks.pure) fun _ => Asks.pure)

end RootTree

/-! ## What the entry asks of the cache -/

/-- A direct pointer is in the copy of the inode. -/
theorem demands_inodeGetBlock_direct {index : UInt64} (hlo : index.toNat < 12) :
    Demands disk 0 (inodeGetBlock node index) m := by
  rw [inodeGetBlock, dif_pos hlo]
  exact Asks.pure

/-- Setting one announces the page of the inode. -/
theorem demands_inodeSetBlock_direct {index : UInt64} (hlo : index.toNat < 12) :
    Demands disk 0 (inodeSetBlock disk node index block) m := by
  rw [inodeSetBlock, dif_pos hlo]
  exact Asks.pure

/-- The entry count is on the first block of the directory. -/
theorem demands_writeEntryCount (hlt : (node.directBlocks.get 0).toNat < disk.addressable) :
    Demands disk 1 (writeEntryCount pair node block count) m := by
  have hlo : UInt64.toNat 0 < 12 := by decide
  rw [writeEntryCount]
  refine (demands_inodeGetBlock_direct hlo).quiet_bind_of_run (run_inodeGetBlock_direct hlo) ?_
  exact Asks.fetch_bind hlt (Asks.modify.quiet_bind fun _ _ _ => Asks.writeBack_bind Asks.pure)

/-- Storing the entry of a file inserts a leaf and announces two pages more. -/
theorem FlatTree.demands_storeEntry (T : FlatTree disk m r leaves) (G : FirstFree disk m g)
    (hbitmap : blockBitmapBlocks disk.totalBlocks.toNat < disk.addressable)
    (hroom : leaves.length < maxKeys) (hr : pair.btreeBlock = UInt64.ofNat r)
    (htype : type ≠ fileTypeDirectory) (hlt : (node.directBlocks.get 0).toNat < disk.addressable)
    (header : Bool) :
    Demands disk 8 (storeEntry disk host pair name target type node block header j number) m := by
  have hinsert : ∀ new, Demands disk 6 (enterTree disk pair name target type new) m := fun new => by
    rw [enterTree, if_neg htype, hr]
    exact (T.demands_btreeInsert G hbitmap hroom).bind fun _ _ _ => Asks.pure
  rw [storeEntry]
  refine (hinsert _).bind fun new _ _ => Asks.modify.quiet_bind fun _ _ _ => ?_
  exact Asks.writeBack_bind ((demands_writeEntryCount hlt).bind fun _ _ _ => Asks.pure)

namespace EntryBlocks

variable (E : EntryBlocks disk m pair.inodeNumber []) (F : FirstFree disk m f)
  (hfits : dataStart disk.totalBlocks.toNat < disk.addressable)
include E F hfits

/-- A new block is taken, and the inode that names it is written. -/
theorem demands_entryBlock : Demands disk 3
    (entryBlock disk pair (inodeAt disk m pair.inodeNumber.toNat) 0 0 db) m := by
  have A := E.sound.layout.bitmapArea_of_marked E.sound.metadata
  have hlo : (UInt64.ofNat 0).toNat < 12 := by decide
  have hbitmap := bitmapBlocks_lt_dataStart disk.totalBlocks.toNat
  have hlt : (UInt64.ofNat f).toNat < disk.addressable := by
    rw [F.toNat_number]
    exact F.lt
  have hpage : takeBlock m f f = m f := takeBlock_of_behind F.lt_total (A.lt_of_clear F.clear)
  have hmodify := run_modify (m := takeBlock m f) (setBlockType BlockType.data) F.addr
  rw [hpage, ← tookPage] at hmodify
  rw [entryBlock, if_pos rfl]
  refine (demands_allocPage (hbitmap.trans hfits)).bind_of_run (F.run_allocPage A) ?_
  rw [if_neg (F.number_ne_zero A)]
  refine (demands_inodeSetBlock_direct hlo).quiet_bind_of_run (run_inodeSetBlock_direct hlo) ?_
  refine Asks.fetch_bind hlt (Asks.modify.quiet_bind_of_run hmodify ?_)
  have L : Layout disk.mapping disk (tookPage m f (setBlockType BlockType.data (m f))) :=
    (F.takes E.sound.metadata E.sound.layout).layout E.sound.layout
  refine (demands_inodeWrite L hfits _ ?_).bind fun _ _ _ => Asks.pure
  show (inodeAt disk m pair.inodeNumber.toNat).inodeNumber.toNat < _
  rw [E.own]
  exact E.capacity

/-- The search for a slot takes the block and stores the entry in it. -/
theorem demands_newEntry (hclean : CleanPage (m f) [])
    (T : FlatTree disk (newBlock disk m pair.inodeNumber 0 f) r leaves)
    (G : FirstFree disk (newBlock disk m pair.inodeNumber 0 f) g) (hroom : leaves.length < maxKeys)
    (hr : pair.btreeBlock = UInt64.ofNat r) (htype : type ≠ fileTypeDirectory) (fuel : ℕ) :
    Demands disk 11 (addEntryFrom disk host pair name target type (fuel + 1) 0
      (inodeAt disk m pair.inodeNumber.toNat) block db 0 number) m := by
  have hlo : (UInt64.ofNat 0).toNat < 12 := by decide
  have hbitmap := bitmapBlocks_lt_dataStart disk.totalBlocks.toNat
  have hpage : newBlock disk m pair.inodeNumber 0 f f = setBlockType BlockType.data (m f) :=
    (E.newBlock_apply F (F.behind_of_marked E.sound.metadata)).trans (if_pos rfl)
  have hsame : ∀ o, 4 ≤ o → newBlock disk m pair.inodeNumber 0 f f o = m f o := fun o ho => by
    rw [hpage, setBlockType_apply ho]
  have hslot : freeSlot (m f) (0 = 0) (entryCount (m f)) entriesPerBlock 0 0 = (some 0, 0) :=
    hclean.freeSlot_eq (by decide)
  have hfirst : (withBlock disk m pair.inodeNumber 0 f).directBlocks.get 0 = UInt64.ofNat f := by
    rw [← inodeAt_newBlock]
    exact (E.withNewBlock F (by decide)).direct 0 (by decide)
  have hlt : (UInt64.ofNat f).toNat < disk.addressable := by
    rw [F.toNat_number]
    exact F.lt
  have hblock : run disk.mapping (entryBlock disk pair (inodeAt disk m pair.inodeNumber.toNat) 0 0 db) m =
      some (some (withBlock disk m pair.inodeNumber 0 f, UInt64.ofNat f, UInt64.ofNat f),
        newBlock disk m pair.inodeNumber 0 f) := E.run_entryBlock_new F (by decide) db
  obtain ⟨rv, hget⟩ := E.run_getBlock (i := 0) (by decide)
  rw [addEntryFrom]
  refine (demands_inodeGetBlock_direct hlo).quiet_bind_of_run hget ?_
  refine (E.demands_entryBlock F hfits).bind_of_run hblock ?_
  refine Asks.page.quiet_bind_of_run (run_page F.addr) ?_
  rw [hpage, blockType_setBlockType, if_neg (not_not.mpr rfl)]
  refine Asks.page.quiet_bind_of_run (run_page F.addr) ?_
  rw [← hpage, entryCount_congr hsame, freeSlot_congr hsame, hslot]
  exact T.demands_storeEntry G (hbitmap.trans hfits) hroom hr htype (by rwa [hfirst]) true

end EntryBlocks

/-! ## What the entry leaves -/

/-- From `m` to `m'` directory `inum` without blocks took its first entry: block `f` for the entries,
and leaf `l` in its tree. -/
structure FirstEntry (disk : DiskInterface) (m m' : Image) (inum : UInt64) (r f : ℕ) (l : Leaf) :
    Prop where
  dir : EntryBlocks disk m' inum [f]
  tree : FlatTree disk m' r [l]
  root : (Superblock.ofPage (m' 0)).btreeRoot = (Superblock.ofPage (m 0)).btreeRoot
  value : (BTreeNode.ofPage (m' r)).value = (BTreeNode.ofPage (m r)).value
  inode : ∀ k < inodeCapacity disk.totalBlocks.toNat, k ≠ inum.toNat →
    inodeAt disk m' k = inodeAt disk m k
  nearFree : nearFree disk m = nearFree disk m' + 2

namespace EntryBlocks

/-- The inodes of the other files stay when a block is taken for the directory. -/
theorem inodeAt_newBlock_ne (E : EntryBlocks disk m inum []) (F : FirstFree disk m f)
    (hk : k < inodeCapacity disk.totalBlocks.toNat) (hne : k ≠ inum.toNat) :
    inodeAt disk (newBlock disk m inum 0 f) k = inodeAt disk m k := by
  have hslot : slotBlock disk k < _ := slotBlock_lt hk
  have hlo := slotBlock_ge disk k
  have hstart : inodeBitmapStart disk.totalBlocks.toNat =
    1 + blockBitmapBlocks disk.totalBlocks.toNat := rfl
  have htable : inodeTableStart disk.totalBlocks.toNat = inodeBitmapStart disk.totalBlocks.toNat +
    inodeBitmapBlocks disk.totalBlocks.toNat := rfl
  have hbehind := F.behind_of_marked E.sound.metadata
  rw [newBlock, inodeAt_putInode_ne hne, inodeAt, tookPage, Function.update_of_ne (by omega),
    takeBlock_of_behind F.lt_total (by omega), ← inodeAt]

/-- What `store_entry` leaves when the tree of the directory is empty: a page was taken for the leaf, and
no inode changed. -/
theorem exists_firstStore (E : EntryBlocks disk m pair.inodeNumber [f]) (T : FlatTree disk m r [])
    (G : FirstFree disk m g) (hr : pair.btreeBlock = UInt64.ofNat r)
    (htype : type ≠ fileTypeDirectory) (hgf : g ≠ f) (hrf : r ≠ f) (host : Host) (name : CString)
    (target : UInt64) (count : UInt16) :
    ∃ m', run disk.mapping (storeEntry disk host pair name target type
        (inodeAt disk m pair.inodeNumber.toNat) (UInt64.ofNat f) (0 = 0) 0 count) m = some (0, m') ∧
      EntryBlocks disk m' pair.inodeNumber [f] ∧
      FlatTree disk m' r [⟨g, pathHash name, target, type⟩] ∧
      (Superblock.ofPage (m' 0)).btreeRoot = (Superblock.ofPage (m 0)).btreeRoot ∧
      (BTreeNode.ofPage (m' r)).value = (BTreeNode.ofPage (m r)).value ∧
      (∀ k < inodeCapacity disk.totalBlocks.toNat, inodeAt disk m' k = inodeAt disk m k) ∧
      nearFree disk m = nearFree disk m' + 1 := by
  have L := E.sound.layout
  have hmem : f ∈ [f] := List.mem_singleton_self f
  have hbehind := E.behind f hmem
  have hpos := dataStart_pos disk.totalBlocks.toNat
  have hrpos := T.root_pos
  have hgpos := G.behind_of_marked E.sound.metadata
  have hbitmap := bitmapBlocks_lt_dataStart disk.totalBlocks.toNat
  -- the leaf
  obtain ⟨m₁, hinsert, T₁, hbits₁, hvalue₁, hother₁⟩ :=
    T.exists_insert G (by decide) (pathHash name) target type
  have henter : run disk.mapping (enterTree disk pair name target type (newFile host name target)) m =
      some (newFile host name target, m₁) := by
    rw [enterTree, if_neg htype, hr, run_bind_of_eq hinsert, run_pure]
  obtain ⟨S₁, hrel, -⟩ := keepsRest_enterTree _ E.sound _ _ henter
  have E₁ := E.keep S₁ hrel
  -- the entry
  obtain ⟨m', hm'⟩ : ∃ m', m' = Nbtrfs.storedImage m₁ f f (entryAt (0 = 0) 0) (count + 1)
    (newFile host name target) := ⟨_, rfl⟩
  have hstore := hm' ▸ E.run_storeEntry rfl rfl E₁ hrel henter
  have hother : ∀ b, b ≠ f → m' b = m₁ b := fun b hb => by
    rw [hm', Nbtrfs.storedImage, Function.update_of_ne hb, Function.update_of_ne hb]
  have E' : EntryBlocks disk m' pair.inodeNumber [f] :=
    hm' ▸ E₁.storedImage hmem hmem (entryAt_ge _ 0)
  have hbits : ∀ b < disk.totalBlocks.toNat, blockBit m' b = blockBit m₁ b := fun b hb =>
    BitmapArea.bit_congr (fun b hb => hother b (by omega)) hb
  refine ⟨m', hstore, E', ?_, ?_, by rw [hother r hrf, hvalue₁], fun k hk => ?_, ?_⟩
  · refine T₁.congr (E'.sound.layout.bitmapArea_of_marked E'.sound.metadata) (hother r hrf)
      (fun l hl => hother _ ?_) fun b hb hset => by rw [hbits b hb, hset]
    rw [(mem_insertLeaf.mp hl).resolve_right List.not_mem_nil]
    exact hgf
  · rw [hother 0 (by omega), hother₁ 0 (by omega) (by omega), superblock_takeBlock L.super]
  · -- the pages of the inode table are not nodes
    have hslot : slotBlock disk k < _ := slotBlock_lt hk
    have hsame : m' (slotBlock disk k) = m (slotBlock disk k) := by
      rw [hother _ (by omega)]
      refine hrel.page _ (slotBlock_ge disk k) (hslot.trans_le L.le_total) (E.sound.metadata _ hslot) ?_
      rw [L.type_slotBlock hk]
      exact fun h => absurd (BlockType.code_injective h) (by decide)
    rw [inodeAt, hsame, ← inodeAt]
  · have htotal : disk.addressable ≤ disk.totalBlocks.toNat := min_le_left _ _
    have hcount : Nbtrfs.nearFree disk m' = Nbtrfs.nearFree disk m₁ := by
      rw [Nbtrfs.nearFree, Nbtrfs.nearFree, Finset.filter_congr fun b hb => by
        rw [hbits b ((Finset.mem_range.mp hb).trans_le htotal)]]
    rw [hcount]
    exact G.nearFree_eq hbits₁

/-- `directory_add_entry` of a file to an empty root directory. -/
theorem exists_firstEntry (E : EntryBlocks disk m pair.inodeNumber []) (F : FirstFree disk m f)
    (hfits : dataStart disk.totalBlocks.toNat < disk.addressable) (hclean : CleanPage (m f) [])
    (hlead : LeadsTo disk m [slash] pair) (R : RootTree disk m r []) (T : FlatTree disk m r [])
    (hr : pair.btreeBlock = UInt64.ofNat r) (htype : type ≠ fileTypeDirectory)
    (hfree : 2 ≤ nearFree disk m) :
    ∃ g m', run disk.mapping (directoryAddEntry disk host [slash] name target type) m = some (0, m') ∧
      Demands disk 11 (directoryAddEntry disk host [slash] name target type) m ∧
      FirstEntry disk m m' pair.inodeNumber r f ⟨g, pathHash name, target, type⟩ := by
  have L := E.sound.layout
  have hpos := dataStart_pos disk.totalBlocks.toNat
  have htotal : disk.addressable ≤ disk.totalBlocks.toNat := min_le_left _ _
  have hfuel : directoryBlocks = 4355 + 1 := rfl
  -- the block for the entries
  obtain ⟨m₁, hm₁⟩ : ∃ m₁, m₁ = newBlock disk m pair.inodeNumber 0 f := ⟨_, rfl⟩
  have E₁ : EntryBlocks disk m₁ pair.inodeNumber [f] := hm₁ ▸ E.withNewBlock F (by decide)
  have hbits₁ : ∀ b < disk.totalBlocks.toNat, blockBit m₁ b = if b = f then true else blockBit m b :=
    fun b hb => hm₁ ▸ E.blockBit_newBlock F hb
  have htook : Takes disk m (tookPage m f (setBlockType BlockType.data (m f))) :=
    F.takes E.sound.metadata L
  have htakes : Takes disk m m₁ :=
    hm₁ ▸ htook.trans (takes_putInode (htook.layout L) E.capacity)
  have hnode := (htakes.looksAlike (T.root_lt.trans_le htotal) T.root_used.2).node T.root_type
  have A₁ := E₁.sound.layout.bitmapArea_of_marked E₁.sound.metadata
  have T₁ : FlatTree disk m₁ r [] :=
    T.congr A₁ hnode (fun l hl => absurd hl List.not_mem_nil) htakes.bit
  have hcount₁ := F.nearFree_eq hbits₁
  -- the leaf and the entry
  obtain ⟨g, G⟩ := Nbtrfs.exists_firstFree (show 0 < nearFree disk m₁ by omega)
  have hgf : g ≠ f := by
    rintro rfl
    have hset := hbits₁ g G.lt_total
    rw [if_pos rfl, G.clear] at hset
    cases hset
  obtain ⟨m', hstore, E', T', hroot', hvalue', hinode', hcount'⟩ :=
    E₁.exists_firstStore T₁ G hr htype hgf (T.root_ne F).symm host name target (entryCount (m f))
  have hadd : run disk.mapping (addEntryFrom disk host pair name target type (4355 + 1)
      ([] : List ℕ).length (inodeAt disk m pair.inodeNumber.toNat) 0 0
      (UInt16.ofNat (entriesPerBlock * ([] : List ℕ).length)) 0) m = some (0, m') := by
    rw [E.run_newBlock F (by decide), hclean.freeSlot_eq (by decide), ← inodeAt_newBlock]
    rw [hm₁] at hstore
    exact hstore
  refine ⟨g, m', ?_, ?_, {
    dir := E'
    tree := T'
    root := by rw [hroot', (htakes.look 0 hpos).root L.super]
    value := by rw [hvalue', hnode]
    inode := fun k hk hne => by rw [hinode' k hk, hm₁, E.inodeAt_newBlock_ne F hk hne]
    nearFree := by omega }⟩
  · rw [directoryAddEntry, run_bind_of_eq hlead.1, if_pos hlead.2,
      run_bind_of_eq (L.run_inodeRead_slot E.capacity), Option.getD_some, hfuel]
    exact hadd
  · rw [directoryAddEntry]
    refine R.demands_itemSearch_root.quiet_bind_of_run hlead.1 ?_
    rw [if_pos hlead.2]
    refine (demands_inodeRead L hfits E.capacity).quiet_bind_of_run (L.run_inodeRead_slot E.capacity) ?_
    rw [Option.getD_some, hfuel]
    exact E.demands_newEntry F hfits hclean (hm₁ ▸ T₁) (hm₁ ▸ G) (by decide) hr htype 4355

end EntryBlocks

/-! ## A new file -/

/-- `mknod` claims the inode and writes it before the entry is added. -/
theorem FormattedInodes.demands_mknod {path : CString} {n : ℕ}
    (h : FormattedInodes disk ⟨m, markedInodes disk m⟩)
    (hn : n < inodeCapacity disk.totalBlocks.toNat) (hclear : inodeBit disk m n = false)
    (hset : ∀ i < n, inodeBit disk m i = true)
    (hadd : Demands disk k (directoryAddEntry disk host (parentOf path) (getName path) (UInt64.ofNat n)
      (mode &&& fileTypeMask)) (mknodImage disk host mode m n)) :
    Demands disk (k + 1 + 2) (nbtrfsMknod disk host path mode) m := by
  have hsmall := h.number_lt hn
  have hnat : (UInt64.ofNat n).toNat = n := toNat_ofNat_block (by omega)
  have hint : int32 (n : ℤ) = n := int32_of_lt (by omega)
  have L := h.layout.claimInode host.uid host.gid mode n
  have hread := L.run_inodeRead_slot (n := UInt64.ofNat n) (by rwa [hnat])
  rw [hnat, inodeAt_claimInode_self] at hread
  have hwrite := L.run_inodeWrite_slot
    { claimedInode host.uid host.gid mode n (inodeAt disk m n) with creationTime := host.now }
    (show (UInt64.ofNat n).toNat < _ by rwa [hnat])
  rw [nbtrfsMknod]
  refine (demands_inodeAllocate h.layout h.fits _ _ _ hn hclear).bind_of_run
    (h.layout.run_inodeAllocate host.uid host.gid mode h.start_lt hn hclear hset) ?_
  rw [hint, if_neg (by omega), ofInt_natCast]
  refine (demands_inodeRead L h.fits (by rwa [hnat])).quiet_bind_of_run hread ?_
  refine (demands_inodeWrite L h.fits _ (show (UInt64.ofNat n).toNat < _ by rwa [hnat])).bind_of_run
    hwrite ?_
  rw [if_neg (by decide)]
  simp only [claimedInode, hnat]
  exact hadd

end Nbtrfs
