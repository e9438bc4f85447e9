import Nbtrfs.EntryFormat
import Nbtrfs.Btr.InsertTree

/-!
# The pages that an entry takes in the B-tree

Reference: `directory.c::directory_add_entry`.

An entry takes a leaf in the B-tree of its directory, and that of a directory a root node before it. Where
there is no page, `btree_node_create` returns a null pointer, and both callers follow it. So the function
returns only if it has these pages besides the ones of its blocks.
-/

namespace Nbtrfs

open BlockProg Bytes

variable {disk : DiskInterface} {m m' : Image} {name : CString} {pair : InodeBtreePair} {host : Host}
  {target : UInt64} {type : UInt32} {blocks : List ℕ} {b f j r t : ℕ} {leaves : List Leaf}
  {new : Bytes} {number : UInt16}

/-- The pages that the B-tree of a directory takes for an entry. -/
def treePages (type : UInt32) : ℕ := if type = fileTypeDirectory then 2 else 1

/-- The root node of a new directory stands on the first free block. -/
theorem FirstFree.exists_newDirectoryRoot (H : FirstFree disk m f) (A : BitmapArea disk m)
    (target : UInt64) :
    ∃ m', run disk.mapping (newDirectoryRoot disk target) m = some (UInt64.ofNat f, m') ∧
      ∀ c ≠ f, m' c = Nbtrfs.takeBlock m f c := by
  obtain ⟨m₁, hcreate, hnode₁, hother₁, node, hpage₁⟩ := H.exists_create A false
  obtain ⟨m₂, hedit, hpage₂, htype₂, hother₂⟩ := hnode₁.exists_edit fun node =>
    { node with value := target, type := fileTypeDirectory }
  rw [hpage₁] at hpage₂
  have hnode₂ : IsNode disk.mapping m₂ f := ⟨H.addr, htype₂⟩
  have hblock₂ : (BTreeNode.ofPage (m₂ f)).blockNumber = UInt64.ofNat f := by
    rw [hpage₂]
    rfl
  obtain ⟨m₃, hwrite, -, -, hother₃⟩ := hnode₂.exists_write hblock₂
  refine ⟨m₃, ?_, fun c hc => by rw [hother₃ c hc, hother₂ c hc, hother₁ c hc]⟩
  rw [newDirectoryRoot, run_bind_of_eq hcreate, if_neg (H.number_ne_zero A), run_bind_of_eq hedit,
    run_bind_of_eq hnode₂.run_nodeAt, run_bind_of_eq hwrite, run_pure]

namespace HoldsTree

theorem area (T : HoldsTree disk m r leaves) : BitmapArea disk m := by
  rcases T with ⟨-, T⟩ | ⟨d, T⟩
  · exact T.area
  · exact T.area

/-- The tree stays when a free block is taken, and filled. -/
theorem taken (T : HoldsTree disk m r leaves) (H : FirstFree disk m f)
    (hother : ∀ c ≠ f, m' c = takeBlock m f c) :
    HoldsTree disk m' r leaves ∧ nearFree disk m = nearFree disk m' + 1 := by
  obtain ⟨A', hbits⟩ := T.area.taken H fun c hc => hother c (by
    have hbehind := T.area.lt_of_clear H.clear
    omega)
  refine ⟨T.congr A' (fun c hc _ _ hset => ?_) fun c hc hset => ?_, H.nearFree_eq hbits⟩
  · have hcf : c ≠ f := by
      rintro rfl
      rw [H.clear] at hset
      cases hset
    rw [hother c hcf, takeBlock_of_behind H.lt_total hc]
  · rw [hbits c hc, hset, ite_self]

/-- With the pages, and room in the nodes, the object enters the tree. -/
theorem exists_enterTree (T : HoldsTree disk m r leaves) (hr : pair.btreeBlock = UInt64.ofNat r)
    (hroom : leaves.length < maxKeys) (hfree : treePages type ≤ nearFree disk m) (new : Bytes) :
    ∃ new' m', run disk.mapping (enterTree disk pair name target type new) m = some (new', m') := by
  by_cases hdir : type = fileTypeDirectory
  · rw [treePages, if_pos hdir] at hfree
    obtain ⟨f, H⟩ := exists_firstFree (show 0 < nearFree disk m by omega)
    obtain ⟨m₁, hcreate, hother⟩ := H.exists_newDirectoryRoot T.area target
    obtain ⟨T₁, hcount⟩ := T.taken H hother
    obtain ⟨g, G⟩ := exists_firstFree (show 0 < nearFree disk m₁ by omega)
    obtain ⟨⟨rv, m₂⟩, hinsert⟩ := (T₁.insertsOrFails hroom G (pathHash name) (UInt64.ofNat f) type).exists_run
    refine ⟨store64 new 8 (UInt64.ofNat f), m₂, ?_⟩
    rw [enterTree, if_pos hdir, run_bind_of_eq hcreate, hr, run_bind_of_eq hinsert, run_pure]
  · rw [treePages, if_neg hdir] at hfree
    obtain ⟨f, H⟩ := exists_firstFree hfree
    obtain ⟨⟨rv, m₁⟩, hinsert⟩ := (T.insertsOrFails hroom H (pathHash name) target type).exists_run
    refine ⟨new, m₁, ?_⟩
    rw [enterTree, if_neg hdir, hr, run_bind_of_eq hinsert, run_pure]

/-- Without the pages a null pointer is followed. -/
theorem treePages_le (T : HoldsTree disk m r leaves) (hnear : disk.totalBlocks.toNat ≤ 1048576)
    {s : Bytes × Image} (hrun : run disk.mapping (enterTree disk pair name target type new) m = some s) :
    treePages type ≤ nearFree disk m := by
  rw [enterTree] at hrun
  rw [treePages]
  split at hrun
  · next hdir =>
    rw [if_pos hdir]
    obtain ⟨page, m₁, hcreate, hrest⟩ := run_bind_eq_some.mp hrun
    obtain ⟨⟨rv, m₂⟩, hinsert⟩ : ∃ s, run disk.mapping (btreeInsert disk pair.btreeBlock (pathHash name)
        page type) m₁ = some s := by
      obtain ⟨rv, m₂, hinsert, -⟩ := run_bind_eq_some.mp hrest
      exact ⟨_, hinsert⟩
    obtain ⟨f, H⟩ : ∃ f, FirstFree disk m f := by
      rw [newDirectoryRoot] at hcreate
      obtain ⟨page', m₃, hnode, hedit⟩ := run_bind_eq_some.mp hcreate
      by_cases hzero : page' = 0
      · rw [if_pos hzero, run_crash] at hedit
        cases hedit
      · exact exists_firstFree_of_create T.bitmapTo hnear hnode hzero
    obtain ⟨m₃, hcreate', hother⟩ := H.exists_newDirectoryRoot T.area target
    obtain ⟨-, rfl⟩ := Prod.mk.inj (Option.some.inj (hcreate.symm.trans hcreate'))
    obtain ⟨T₁, hcount⟩ := T.taken H hother
    obtain ⟨g, G⟩ := exists_firstFree_of_insert T₁.bitmapTo hnear hinsert
    have hpos := G.nearFree_pos
    omega
  · next hdir =>
    rw [if_neg hdir]
    obtain ⟨rv, m₁, hinsert, -⟩ := run_bind_eq_some.mp hrun
    obtain ⟨f, H⟩ := exists_firstFree_of_insert T.bitmapTo hnear hinsert
    exact H.nearFree_pos

end HoldsTree

/-- The tree stays when a free page becomes a block of the directory. -/
theorem EntryBlocks.holdsTree_newBlock {inum : UInt64} (E : EntryBlocks disk m inum blocks)
    (H : FirstFree disk m f) (T : HoldsTree disk m r leaves) :
    HoldsTree disk (newBlock disk m inum blocks.length f) r leaves := by
  have L := E.sound.layout
  have htotal : disk.addressable ≤ disk.totalBlocks.toNat := min_le_left _ _
  have htook : Takes disk m (tookPage m f (setBlockType BlockType.data (m f))) :=
    H.takes E.sound.metadata L
  have hput : Takes disk _ (newBlock disk m inum blocks.length f) :=
    takes_putInode (htook.layout L) E.capacity
  have htakes := htook.trans hput
  have A' := (htakes.layout L).bitmapArea_of_marked fun b hb =>
    htakes.bit b (hb.trans_le L.le_total) (E.sound.metadata b hb)
  exact T.congr A' (fun c _ hlt htype hset =>
    (htakes.looksAlike (hlt.trans_le htotal) hset).node htype) htakes.bit

theorem storeEntry_zero {node : Inode} {block : UInt64} {header : Bool} {rv : ℤ}
    (hrun : run disk.mapping (storeEntry disk host pair name target type node block header j number) m =
      some (rv, m')) : rv = 0 := by
  obtain ⟨new, m₁, -, hrun⟩ := run_bind_eq_some.mp hrun
  obtain ⟨_, m₂, -, hrun⟩ := run_bind_eq_some.mp hrun
  rw [run_bind_of_eq (run_writeBack _ _)] at hrun
  obtain ⟨_, m₃, -, hrun⟩ := run_bind_eq_some.mp hrun
  cases hrun
  rfl

/-- The entry is stored if and only if its B-tree has the pages. -/
theorem EntryBlocks.exists_storeEntry_iff (E : EntryBlocks disk m pair.inodeNumber blocks)
    (hb : blocks[t]? = some b) (T : HoldsTree disk m r leaves) (hr : pair.btreeBlock = UInt64.ofNat r)
    (hroom : leaves.length < maxKeys) :
    (∃ s, run disk.mapping (storeEntry disk host pair name target type
      (inodeAt disk m pair.inodeNumber.toNat) (UInt64.ofNat b) (t = 0) j number) m = some s) ↔
      treePages type ≤ nearFree disk m := by
  constructor
  · rintro ⟨⟨rv, m'⟩, hrun⟩
    obtain ⟨new, m₁, henter, -⟩ := run_bind_eq_some.mp hrun
    exact T.treePages_le E.sound.near henter
  · intro hfree
    obtain ⟨hlt, -⟩ := List.getElem?_eq_some_iff.mp hb
    have hfirst : blocks[0]? = some blocks[0] := List.getElem?_eq_getElem (by omega)
    obtain ⟨new, m₁, henter⟩ := T.exists_enterTree hr hroom hfree (newFile host name target)
    obtain ⟨S₁, hrel, -⟩ := keepsRest_enterTree _ E.sound _ _ henter
    exact ⟨_, E.run_storeEntry hb hfirst (E.keep S₁ hrel) hrel henter⟩

end Nbtrfs
