import Nbtrfs.Mknod
import Nbtrfs.Readers

/-!
# Setting attributes

Reference: `fuse.c::nbtrfs_chmod`, `fuse.c::nbtrfs_utimens`, `fuse.c::nbtrfs_getattr`.

What `chmod` and `utimens` set is what `getattr` finds afterwards, under every path that leads to the
inode, and under no other. Neither of the two checks what `item_search` found: on a path that leads
nowhere they set the attributes of inode 0, which is the root directory, and report success.
-/

namespace Nbtrfs

open BlockProg Bytes

variable {disk : DiskInterface} {m m' : Image} {path other : CString} {pair pair' : InodeBtreePair}
  {number : UInt64}

/-- The lookup of a path yields a pair, with the number of an inode of the table. A path that leads
nowhere yields a pair of zeros. -/
structure PathTo (disk : DiskInterface) (m : Image) (path : CString) (pair : InodeBtreePair) : Prop
    where
  lookup : run disk.mapping (itemSearch disk path) m = some (pair, m)
  capacity : pair.inodeNumber.toNat < inodeCapacity disk.totalBlocks.toNat

/-! ## Runs -/

theorem Layout.run_inodeCopy_slot (L : Layout disk.mapping disk m)
    (hn : number.toNat < inodeCapacity disk.totalBlocks.toNat) :
    run disk.mapping (inodeCopy number) m = some (inodeAt disk m number.toNat, m) := by
  rw [inodeCopy, run_bind_of_eq (L.run_inodeRead_slot hn)]
  rfl

theorem PathTo.result_getattr (h : PathTo disk m path pair) (L : Layout disk.mapping disk m) :
    result disk.mapping (nbtrfsGetattr disk path) m =
      some (if pair.inodeNumber ≠ 0 ∨ pair.btreeBlock ≠ 0 then
        (0, some (Stat.ofInode (inodeAt disk m pair.inodeNumber.toNat) pair.inodeNumber))
      else (enoent, none)) := by
  rw [result, nbtrfsGetattr, run_bind_of_eq h.lookup]
  split
  next => rw [run_bind_of_eq (L.run_inodeCopy_slot h.capacity), run_pure, Option.map_some]
  next => rw [run_pure, Option.map_some]

/-- The end of `chmod` and `utimens`: an inode is read, edited and written back. -/
theorem Layout.run_editInode (L : Layout disk.mapping disk m)
    (hn : number.toNat < inodeCapacity disk.totalBlocks.toNat) (f : Inode → Inode)
    (hself : (f (inodeAt disk m number.toNat)).inodeNumber = number) :
    run disk.mapping (do
      let node ← inodeRead number
      match node with
      | none => pure (-1)
      | some node => inodeWrite (f node)) m =
        some (0, Nbtrfs.putInode disk m number.toNat (f (inodeAt disk m number.toNat))) := by
  rw [run_bind_of_eq (L.run_inodeRead_slot hn)]
  have hwrite := L.run_inodeWrite_slot (f (inodeAt disk m number.toNat)) (by rwa [hself])
  rwa [hself] at hwrite

theorem PathTo.run_nbtrfsChmod (h : PathTo disk m path pair) (L : Layout disk.mapping disk m)
    (hself : (inodeAt disk m pair.inodeNumber.toNat).inodeNumber = pair.inodeNumber) (mode : UInt32) :
    run disk.mapping (nbtrfsChmod disk path mode) m = some (0, putInode disk m pair.inodeNumber.toNat
      { inodeAt disk m pair.inodeNumber.toNat with mode := mode }) := by
  rw [nbtrfsChmod, run_bind_of_eq h.lookup]
  exact L.run_editInode h.capacity (fun node => { node with mode := mode }) hself

/-- `utimens` stores both times in the inode of the path, and nothing else. -/
theorem PathTo.run_nbtrfsUtimens (h : PathTo disk m path pair) (L : Layout disk.mapping disk m)
    (hself : (inodeAt disk m pair.inodeNumber.toNat).inodeNumber = pair.inodeNumber)
    (atime mtime : Timespec) :
    run disk.mapping (nbtrfsUtimens disk path atime mtime) m =
      some (0, putInode disk m pair.inodeNumber.toNat
        { inodeAt disk m pair.inodeNumber.toNat with
          accessTime := atime.nanoseconds
          modificationTime := mtime.nanoseconds }) := by
  rw [nbtrfsUtimens, run_bind_of_eq h.lookup]
  exact L.run_editInode h.capacity (fun node => { node with
    accessTime := atime.nanoseconds
    modificationTime := mtime.nanoseconds }) hself

/-! ## Paths on a fresh volume -/

namespace Fresh

variable {uid gid : UInt32} (F : Fresh disk uid gid m)
include F

theorem addr_root : disk.mapping.addr (UInt64.ofNat (dataStart disk.totalBlocks.toNat)) =
    some (dataStart disk.totalBlocks.toNat) :=
  DiskInterface.mapping_exactTo.ofNat F.fits ((addressable_le disk).trans (by decide))

theorem self_root : (inodeAt disk m 0).inodeNumber = 0 := by
  rw [F.rootInode]
  rfl

/-- The root directory is inode 0, and its tree starts behind the metadata. -/
theorem pathTo_root (hslots : 0 < inodeTableBlocks disk.totalBlocks.toNat) :
    PathTo disk m [slash] ⟨0, UInt64.ofNat (dataStart disk.totalBlocks.toNat)⟩ := by
  refine ⟨?_, Nat.mul_pos (by decide) hslots⟩
  rw [itemSearch, run_bind_of_eq F.layout.run_superblockCopy, F.btreeRoot,
    run_bind_of_eq (run_btreeNodeCopy F.addr_root F.rootType), if_pos rfl, F.rootNode]
  rfl

/-- No other path leads anywhere. -/
theorem pathTo_none (hslots : 0 < inodeTableBlocks disk.totalBlocks.toNat) {token : CString} {n : ℕ}
    (hne : path ≠ [slash]) (hcount : countL path = n + 1) (hsplit : split path 1 = some token) :
    PathTo disk m path ⟨0, 0⟩ := by
  refine ⟨?_, Nat.mul_pos (by decide) hslots⟩
  have hroot := F.rootNode
  have hkeys : (BTreeNode.ofPage (m (dataStart disk.totalBlocks.toNat))).numKeys = 0 := by
    rw [hroot]
    rfl
  have hnone : ∀ i, (BTreeNode.ofPage (m (dataStart disk.totalBlocks.toNat))).childAt i = 0 :=
    fun i => by
      rw [hroot]
      exact BTreeNode.word_init ..
  have T : Subtree disk.mapping m 1 (dataStart disk.totalBlocks.toNat) _ :=
    .node (fun _ => []) ⟨F.addr_root, F.rootType⟩ (by rw [hroot]; rfl)
      (by rw [hkeys]; exact Nat.zero_le _) (fun _ _ _ => rfl) fun i _ hchild => absurd (hnone i) hchild
  have htotal : dataStart disk.totalBlocks.toNat < disk.totalBlocks.toNat :=
    F.fits.trans_le (min_le_left _ _)
  have hsearch : run disk.mapping (btreeSearch disk
      (UInt64.ofNat (dataStart disk.totalBlocks.toNat)) (pathHash token)) m = some (0, m) := by
    rw [btreeSearch, T.run_searchFrom _ (by rw [callDepth]; omega),
      List.flatMap_eq_nil_iff.mpr fun _ _ => rfl, Leaf.found_nil]
  have hblock : (BTreeNode.ofPage (m (dataStart disk.totalBlocks.toNat))).blockNumber =
      UInt64.ofNat (dataStart disk.totalBlocks.toNat) := by
    rw [hroot]
    rfl
  rw [itemSearch, run_bind_of_eq F.layout.run_superblockCopy, F.btreeRoot,
    run_bind_of_eq (run_btreeNodeCopy F.addr_root F.rootType), if_neg hne, hcount, searchPath, hsplit]
  simp only
  rw [hblock, run_bind_of_eq hsearch, if_pos rfl, run_pure]

end Fresh

/-- A fresh volume of 88 blocks. -/
theorem exists_fresh : ∃ m, Fresh ⟨88, by decide⟩ 0 0 m := by
  have hformat : ∃ m', run (DiskInterface.mapping ⟨88, by decide⟩)
      (diskFormat ⟨88, by decide⟩ 0 0 0 []) (fun _ _ => 0) = some (0, m') ∧ _ :=
    run_diskFormat_blank _ 0 0 0 (by decide) (blank_zero _) (by decide) (by decide)
  obtain ⟨m, -, F⟩ := hformat
  exact ⟨m, F⟩

/-! ## What `getattr` finds afterwards -/

/-- Lookups are the same when an inode changes. -/
theorem PathTo.putInode (h : PathTo disk m other pair') (L : Layout disk.mapping disk m) {n : ℕ}
    (hn : n < inodeCapacity disk.totalBlocks.toNat) (node : Inode) :
    PathTo disk (putInode disk m n node) other pair' := by
  have hlike := (OnlyInodes.putInode hn node).looksAlike L
  exact ⟨((twin_itemSearch hlike other).run_eq h.lookup).2, h.capacity⟩

/-- `getattr` after one inode was replaced. -/
theorem PathTo.result_getattr_putInode (h : PathTo disk m other pair')
    (L : Layout disk.mapping disk m) (hn : number.toNat < inodeCapacity disk.totalBlocks.toNat)
    (node : Inode) (g : Stat → Stat)
    (hg : Stat.ofInode node number = g (Stat.ofInode (inodeAt disk m number.toNat) number)) :
    result disk.mapping (nbtrfsGetattr disk other) (Nbtrfs.putInode disk m number.toNat node) =
      if pair'.inodeNumber = number then
        (result disk.mapping (nbtrfsGetattr disk other) m).map fun r => (r.1, r.2.map g)
      else result disk.mapping (nbtrfsGetattr disk other) m := by
  rw [(h.putInode L hn node).result_getattr (L.putInode _ node), h.result_getattr L]
  by_cases hsame : pair'.inodeNumber = number
  · rw [if_pos hsame, hsame, inodeAt_putInode_self, hg]
    split <;> rfl
  · have hne : pair'.inodeNumber.toNat ≠ number.toNat := fun heq =>
      hsame (UInt64.toNat_inj.mp heq)
    rw [if_neg hsame, inodeAt_putInode_ne hne]

/-! ## Any number of calls -/

/-- A call that sets attributes, `chmod` or `utimens`. -/
inductive AttributeCall where
  | chmod (path : CString) (mode : UInt32)
  | utimens (path : CString) (atime mtime : Timespec)

namespace AttributeCall

/-- The path that the call is made for. -/
def target : AttributeCall → CString
  | chmod path _ => path
  | utimens path _ _ => path

def run (disk : DiskInterface) : AttributeCall → BlockProg ℤ
  | chmod path mode => nbtrfsChmod disk path mode
  | utimens path atime mtime => nbtrfsUtimens disk path atime mtime

/-- What the call does to the inode. -/
def edit : AttributeCall → Inode → Inode
  | chmod _ mode, node => { node with mode := mode }
  | utimens _ atime mtime, node => { node with
      accessTime := atime.nanoseconds
      modificationTime := mtime.nanoseconds }

/-- What the call does to the attributes that `getattr` shows. -/
def stat : AttributeCall → Stat → Stat
  | chmod _ mode, st => { st with mode := mode }
  | utimens _ atime mtime, st => { st with
      atime := atime.nanoseconds
      mtime := mtime.nanoseconds }

theorem inodeNumber_edit (call : AttributeCall) (node : Inode) :
    (call.edit node).inodeNumber = node.inodeNumber := by
  unfold edit
  split
  · rfl
  · rfl

theorem stat_ofInode (call : AttributeCall) (node : Inode) (number : UInt64) :
    Stat.ofInode (call.edit node) number = call.stat (Stat.ofInode node number) := by
  cases call with
  | chmod path mode => rfl
  | utimens path atime mtime => rfl

end AttributeCall

/-- The calls one after the other, with what they return. -/
def runAttributes (disk : DiskInterface) : List AttributeCall → BlockProg (List ℤ)
  | [] => pure []
  | call :: calls => do
      let rv ← call.run disk
      let rest ← runAttributes disk calls
      pure (rv :: rest)

/-- What the calls do to the attributes of one inode, where `leads` says to which a path leads. -/
def statAfter (leads : CString → UInt64) (number : UInt64) (calls : List AttributeCall) (st : Stat) :
    Stat :=
  calls.foldl (fun st call => if leads call.target = number then call.stat st else st) st

theorem statAfter_cons_self {leads : CString → UInt64} {call : AttributeCall}
    (h : leads call.target = number) (calls : List AttributeCall) :
    statAfter leads number (call :: calls) = statAfter leads number calls ∘ call.stat := by
  funext st
  rw [statAfter, List.foldl_cons, if_pos h]
  rfl

theorem statAfter_cons_ne {leads : CString → UInt64} {call : AttributeCall}
    (h : leads call.target ≠ number) (calls : List AttributeCall) :
    statAfter leads number (call :: calls) = statAfter leads number calls := by
  funext st
  rw [statAfter, List.foldl_cons, if_neg h]
  rfl

theorem PathTo.run_attributeCall {call : AttributeCall} (h : PathTo disk m call.target pair)
    (L : Layout disk.mapping disk m)
    (hself : (inodeAt disk m pair.inodeNumber.toNat).inodeNumber = pair.inodeNumber) :
    run disk.mapping (call.run disk) m = some (0, Nbtrfs.putInode disk m pair.inodeNumber.toNat
      (call.edit (inodeAt disk m pair.inodeNumber.toNat))) := by
  cases call with
  | chmod path mode => exact h.run_nbtrfsChmod L hself mode
  | utimens path atime mtime => exact h.run_nbtrfsUtimens L hself atime mtime

/-- Whatever attributes are set, in whatever order and under whatever paths: `getattr` shows for every
inode what the calls on paths to this inode set last, and leaves the rest as it was. -/
theorem getattr_attributes (L : Layout disk.mapping disk m) {calls : List AttributeCall}
    {leads : CString → UInt64} (hcalls : ∀ call ∈ calls, (∃ block,
      PathTo disk m call.target ⟨leads call.target, block⟩) ∧
        (inodeAt disk m (leads call.target).toNat).inodeNumber = leads call.target) :
    ∃ m', run disk.mapping (runAttributes disk calls) m =
        some (List.replicate calls.length 0, m') ∧
      ∀ other pair', PathTo disk m other pair' →
        result disk.mapping (nbtrfsGetattr disk other) m' =
          (result disk.mapping (nbtrfsGetattr disk other) m).map fun r =>
            (r.1, r.2.map (statAfter leads pair'.inodeNumber calls)) := by
  induction calls generalizing m with
  | nil =>
      have hid : ∀ number, statAfter leads number [] = id := fun _ => rfl
      refine ⟨m, rfl, fun other pair' _ => ?_⟩
      simp only [hid, Option.map_id, id_eq, Prod.mk.eta, Option.map_id']
  | cons call calls ih =>
      obtain ⟨⟨block, h⟩, hself⟩ := hcalls call List.mem_cons_self
      have hrun := h.run_attributeCall L hself
      -- the other calls find the table as before, up to the attributes of this one inode
      obtain ⟨m', hrest, hattr⟩ := ih (L.putInode (leads call.target).toNat
          (call.edit (inodeAt disk m (leads call.target).toNat))) fun next hnext => by
        obtain ⟨⟨block', h'⟩, hself'⟩ := hcalls next (List.mem_cons_of_mem _ hnext)
        refine ⟨⟨block', h'.putInode L h.capacity _⟩, ?_⟩
        by_cases hsame : (leads next.target).toNat = (leads call.target).toNat
        · rw [hsame, inodeAt_putInode_self, AttributeCall.inodeNumber_edit, hself]
          exact (UInt64.toNat_inj.mp hsame).symm
        · rw [inodeAt_putInode_ne hsame, hself']
      refine ⟨m', ?_, fun other pair' hother => ?_⟩
      · rw [runAttributes, run_bind_of_eq hrun, run_bind_of_eq hrest, run_pure]
        rfl
      · rw [hattr other pair' (hother.putInode L h.capacity _),
          hother.result_getattr_putInode L h.capacity _ call.stat (call.stat_ofInode _ _)]
        by_cases hsame : leads call.target = pair'.inodeNumber
        · rw [if_pos hsame.symm, statAfter_cons_self hsame, Option.map_map]
          congr 1
          funext r
          simp only [Function.comp_apply, Option.map_map]
        · rw [if_neg (Ne.symm hsame), statAfter_cons_ne hsame]

/-- On a fresh volume, `chmod` and `utimens` of the root directory show in the next `getattr`. -/
theorem getattr_attributes_88 : ∃ m m', run (DiskInterface.mapping ⟨88, by decide⟩)
      (runAttributes ⟨88, by decide⟩ [.chmod [slash] 0o40700, .utimens [slash] ⟨1, 2⟩ ⟨3, 4⟩]) m =
        some ([0, 0], m') ∧
    result (DiskInterface.mapping ⟨88, by decide⟩) (nbtrfsGetattr ⟨88, by decide⟩ [slash]) m' =
      (result (DiskInterface.mapping ⟨88, by decide⟩)
        (nbtrfsGetattr ⟨88, by decide⟩ [slash]) m).map fun r => (r.1, r.2.map fun st =>
          { st with
            mode := 0o40700
            atime := Timespec.nanoseconds ⟨1, 2⟩
            mtime := Timespec.nanoseconds ⟨3, 4⟩ }) := by
  obtain ⟨m, F⟩ := exists_fresh
  have hroot := F.pathTo_root (by decide)
  let rootInode : CString → UInt64 := fun _ => 0
  have hcalls : ∀ call ∈ [AttributeCall.chmod [slash] 0o40700, .utimens [slash] ⟨1, 2⟩ ⟨3, 4⟩],
      (∃ block, PathTo ⟨88, by decide⟩ m call.target ⟨rootInode call.target, block⟩) ∧
        (inodeAt ⟨88, by decide⟩ m (rootInode call.target).toNat).inodeNumber =
          rootInode call.target := by
    intro call hcall
    have htarget : call.target = [slash] := by
      rcases List.mem_cons.mp hcall with rfl | hcall
      · rfl
      · rw [List.mem_singleton.mp hcall]
        rfl
    rw [htarget]
    exact ⟨⟨_, hroot⟩, F.self_root⟩
  obtain ⟨m', hrun, hattr⟩ := getattr_attributes F.layout hcalls
  exact ⟨m, m', hrun, hattr [slash] _ hroot⟩

/-- `chmod` of a path that leads nowhere succeeds, and sets the mode of the root directory. -/
theorem PathTo.chmod_missing (h : PathTo disk m path ⟨0, 0⟩) (L : Layout disk.mapping disk m)
    (hself : (inodeAt disk m 0).inodeNumber = 0) (mode : UInt32) :
    ∃ m', run disk.mapping (nbtrfsChmod disk path mode) m = some (0, m') ∧
      result disk.mapping (nbtrfsGetattr disk path) m' = some (enoent, none) ∧
      ∀ other pair', PathTo disk m other pair' → pair'.inodeNumber = 0 → pair'.btreeBlock ≠ 0 →
        result disk.mapping (nbtrfsGetattr disk other) m' =
          some (0, some { Stat.ofInode (inodeAt disk m 0) 0 with mode := mode }) := by
  have hattr : ∀ other pair', PathTo disk m other pair' → _ := fun other pair' hother =>
    hother.result_getattr_putInode L h.capacity { inodeAt disk m 0 with mode := mode }
      (fun st => { st with mode := mode }) rfl
  refine ⟨_, h.run_nbtrfsChmod L hself mode, ?_, fun other pair' hother hzero hblock => ?_⟩
  · refine (hattr path _ h).trans ?_
    rw [if_pos rfl, h.result_getattr L]
    simp
  · refine (hattr other pair' hother).trans ?_
    rw [if_pos hzero, hother.result_getattr L, hzero, if_pos (Or.inr hblock)]
    rfl

theorem chmod_missing_88 : ∃ m m', run (DiskInterface.mapping ⟨88, by decide⟩)
      (nbtrfsChmod ⟨88, by decide⟩ [slash, 97] 0) m = some (0, m') ∧
    result (DiskInterface.mapping ⟨88, by decide⟩) (nbtrfsGetattr ⟨88, by decide⟩ [slash]) m' =
      some (0, some { Stat.ofInode (inodeAt ⟨88, by decide⟩ m 0) 0 with mode := 0 }) := by
  obtain ⟨m, F⟩ := exists_fresh
  have hmissing : PathTo ⟨88, by decide⟩ m [slash, 97] ⟨0, 0⟩ := F.pathTo_none (by decide) (by decide)
    (show countL [slash, 97] = 0 + 1 by decide) (show split [slash, 97] 1 = some [97] by decide)
  obtain ⟨m', hrun, -, hroot⟩ := hmissing.chmod_missing F.layout F.self_root 0
  exact ⟨m, m', hrun, hroot [slash] _ (F.pathTo_root (by decide)) rfl (by decide)⟩

end Nbtrfs
