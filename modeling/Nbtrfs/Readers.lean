import Nbtrfs.Calls
import Nbtrfs.Btr.Tidiness
import Nbtrfs.Lib.Twin

/-!
# Calls that only read

Reference: `hash.c::item_search`, `directory.c::directory_list`, `fuse.c`.

On any image, `access`, `getattr`, `readdir` and `read` touch pages they obtained only, stay inside
them, and neither change nor announce anything.
-/

namespace Nbtrfs

open BlockProg

variable {disk : DiskInterface}

theorem reads_enterNode (node : BTreeNode) : Reads disk.mapping (enterNode node) :=
  Reads.ite (fun _ => reads_btreeNodeRead _) fun _ => Reads.pure

/-- The lookup of a path holds the pages that it reads. -/
theorem reads_searchPath (path : CString) (n i : ℕ) (node : BTreeNode) (currPath : CString) :
    Reads disk.mapping (searchPath disk path n i node currPath) := by
  induction n generalizing i node currPath with
  | zero => exact Reads.pure
  | succ n ih =>
      rw [searchPath]
      cases split path i with
      | none => exact Reads.crash
      | some token =>
          refine (reads_btreeSearch _ _).bind fun block => Reads.ite (fun _ => Reads.pure) fun _ => ?_
          refine (reads_btreeNodeRead _).bind fun leaf => (reads_enterNode _).bind fun entered => ?_
          cases entered with
          | none => exact Reads.pure
          | some node => exact Reads.ite (fun _ => Reads.pure) fun _ => ih _ _ _

theorem reads_itemSearch (path : CString) : Reads disk.mapping (itemSearch disk path) :=
  reads_superblockCopy.bind fun _ => (reads_btreeNodeCopy _).bind fun node =>
    Reads.ite (fun _ => Reads.pure) fun _ => reads_searchPath _ _ _ node _

/-- Images with the same nodes and types answer a lookup alike. -/
theorem twin_itemSearch {m m' : Image} (hlike : ∀ b, LooksAlike (m b) (m' b)) (path : CString) :
    Twin disk.mapping m m' (itemSearch disk path) :=
  Twin.of_blind (blind_itemSearch disk path) LooksAlike.refl hlike

theorem reads_inodeCopy (n : UInt64) : Reads disk.mapping (inodeCopy n) :=
  (reads_inodeRead n).bind fun node => by
    cases node with
    | none => exact Reads.crash
    | some node => exact Reads.pure

/-! ## Directories -/

/-- The page that `db` points to was obtained before it is looked at: the first block with entries is
the one that sets it. -/
theorem tidy_directoryListFrom {D : Allowance} {m : Image} {g : PageLedger} (pair : InodeBtreePair)
    (node : Inode) (n i : ℕ) (block db : UInt64) (entries : List DirEntry)
    (hdb : entries ≠ [] → db ∈ g.held) :
    Tidy disk.mapping D (directoryListFrom pair node n i block db entries) m g fun _ m' _ => m' = m := by
  induction n generalizing i block db entries g with
  | zero => exact Tidy.pure rfl
  | succ n ih =>
      rw [directoryListFrom]
      refine (reads_inodeGetBlock node _).tidy_bind fun r g₁ hgrow => ?_
      obtain ⟨rv, mapped⟩ := r
      refine Tidy.ite (fun _ => Tidy.pure rfl) fun _ => ?_
      refine Tidy.fetch_page_bind fun pg g₂ hgrow' hb => ?_
      refine Tidy.ite (fun _ => Tidy.pure rfl) fun _ => ?_
      have hheld : (if decide (entries.length = 0) = true then mapped.getD block else db) ∈
          g₂.held := by
        split
        next => exact hb
        next hne =>
          have hlist : entries ≠ [] := fun h => hne (by rw [h]; rfl)
          exact hgrow'.held (hgrow.held (hdb hlist))
      refine (Tidy.page hheld).bind fun limit _ _ _ ⟨hm, hg⟩ => ?_
      rw [hm, hg]
      exact Tidy.ite (fun _ => Tidy.pure rfl) fun _ => ih _ _ _ _ fun _ => hheld

theorem reads_directoryList (path : CString) : Reads disk.mapping (directoryList disk path) := by
  refine (reads_itemSearch path).bind fun pair => Reads.ite (fun _ => ?_) fun _ => Reads.pure
  refine (reads_inodeRead _).bind fun node => Reads.bind (fun m g => ?_) fun _ => Reads.pure
  exact tidy_directoryListFrom pair _ _ _ _ _ [] fun h => absurd rfl h

/-! ## Callbacks -/

theorem reads_nbtrfsAccess (path : CString) : Reads disk.mapping (nbtrfsAccess disk path) :=
  (reads_itemSearch path).bind fun _ => Reads.ite (fun _ => Reads.pure) fun _ => Reads.pure

theorem reads_nbtrfsGetattr (path : CString) : Reads disk.mapping (nbtrfsGetattr disk path) :=
  (reads_itemSearch path).bind fun _ => Reads.ite
    (fun _ => (reads_inodeCopy _).bind fun _ => Reads.pure) fun _ => Reads.pure

theorem reads_assertedStat (path : CString) : Reads disk.mapping (assertedStat disk path) :=
  (reads_nbtrfsGetattr path).bind fun r => by
    obtain ⟨rv, st⟩ := r
    cases st with
    | none => exact Reads.crash
    | some st => exact Reads.pure

theorem reads_fillEntries (path : CString) (entries : List DirEntry) :
    Reads disk.mapping (fillEntries disk path entries) := by
  induction entries with
  | nil => exact Reads.pure
  | cons entry entries ih =>
      rw [fillEntries]
      cases entry.cName with
      | none => exact Reads.crash
      | some name => exact (reads_assertedStat _).bind fun _ => ih.bind fun _ => Reads.pure

theorem reads_nbtrfsReaddir (path : CString) : Reads disk.mapping (nbtrfsReaddir disk path) := by
  have hrest : ∀ self parent, Reads disk.mapping (directoryList disk path >>= fun r =>
      fillEntries disk path r.2 >>= fun filled =>
        pure ((0 : ℤ), ([46], self) :: parent ++ filled)) := fun _ _ =>
    (reads_directoryList path).bind fun r => (reads_fillEntries path r.2).bind fun _ => Reads.pure
  refine (reads_assertedStat path).bind fun self => ?_
  refine Reads.ite (fun _ => ?_) fun _ => hrest self _
  exact (reads_assertedStat _).bind fun st => hrest self _

/-- The loop of `nbtrfs_read` holds the pages that it reads. -/
theorem reads_readPages (node : Inode) (n offset remaining : ℕ) (buf : List UInt8) :
    Reads disk.mapping (readPages node n offset remaining buf) := by
  induction n generalizing offset remaining buf with
  | zero => exact Reads.pure
  | succ n ih =>
      rw [readPages]
      refine Reads.ite (fun _ => Reads.pure) fun _ => (reads_inodeGetBlock node _).bind fun r => ?_
      obtain ⟨rv, block⟩ := r
      refine Reads.ite (fun _ => Reads.pure) fun _ => Reads.ite (fun _ => Reads.pure) fun _ => ?_
      exact Reads.fetch_page fun _ => ih _ _ _

theorem reads_readInode (node : Inode) (size : UInt64) (offset : ℕ) :
    Reads disk.mapping (readInode node size offset) :=
  Reads.ite (fun _ => Reads.pure) fun _ => Reads.ite (fun _ => Reads.pure) fun _ =>
    reads_readPages node _ _ _ _

theorem reads_nbtrfsRead (path : CString) (size : UInt64) (offset : ℕ) :
    Reads disk.mapping (nbtrfsRead disk path size offset) := by
  refine (reads_itemSearch path).bind fun pair => Reads.ite (fun _ => Reads.pure) fun _ =>
    Reads.ite (fun _ => Reads.pure) fun _ => (reads_inodeRead _).bind fun node => ?_
  cases node with
  | none => exact Reads.pure
  | some node => exact reads_readInode node size offset

end Nbtrfs
