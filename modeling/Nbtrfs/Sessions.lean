import Nbtrfs.OwnedDirectories
import Nbtrfs.Cache.Mount

/-!
# Sessions

Reference: `fuse.c`.

Any calls in any order, other than those that remove entries, keep to the protocol of `Ownership`. So
they leave a consistent volume consistent; and run through the cache of a mounted volume they answer
what they answer on the device blocks themselves.
-/

namespace Nbtrfs

open BlockProg Bytes

variable {disk : DiskInterface} {T : Scope} {E : Set UInt64} {own own' : Owners} {m m' : Image}
  {g : PageLedger} {n i : ℕ}

/-- A session may change every inode and the tree. -/
def Scope.all : Scope := ⟨Set.univ, True⟩

/-! ## The calls -/

/-- The call takes an entry away: `unlink`, `rmdir` or `rename`. -/
def FuseCall.removes : FuseCall → Bool
  | unlink _ => true
  | rmdir _ => true
  | rename _ _ => true
  | _ => false

section Calls

variable (host : Host) (path : CString)

/-- `mknod` keeps the bookkeeping, whether it finds an inode and a place for the entry or not. -/
theorem upholds_nbtrfsMknod (mode : UInt32) (hC : T.tree) (hall : ∀ n, n ∈ T.inodes)
    (hE : inodeBitmapNumbers disk ⊆ E) :
    Abides disk (ownership disk T E) (nbtrfsMknod disk host path mode) own m g := by
  refine (upholds_inodeAllocate hall hE).bind fun rv own₁ m₁ g₁ _ _ _ => ?_
  refine Upholds.ite (fun _ => Upholds.pure trivial) fun _ => ?_
  refine (upholds_inodeRead _).bind ?_
  rintro read own₂ m₂ g₂ - - ⟨rfl, rfl, -, hread⟩
  cases read with
  | none => exact Upholds.pure trivial
  | some node =>
      have hnode : Carries disk own₂ m₂ { node with creationTime := host.now } :=
        (hread node rfl).congr rfl rfl rfl
      refine (upholds_inodeWrite hnode (hall _)).bind fun _ _ _ _ _ _ _ => ?_
      refine Upholds.ite (fun _ => Upholds.pure trivial) fun _ => ?_
      exact upholds_directoryAddEntry host _ _ _ _ hC hall

/-- `link` keeps the bookkeeping. -/
theorem upholds_nbtrfsLink (target : CString) (hC : T.tree) (hall : ∀ n, n ∈ T.inodes) :
    Abides disk (ownership disk T E) (nbtrfsLink disk host path target) own m g := by
  refine Upholds.read_bind (reads_itemSearch path) fun pair _ _ => (upholds_inodeCopy _).bind ?_
  rintro node own₁ m₁ g₁ - - ⟨rfl, rfl, -, hnode⟩
  refine (upholds_directoryAddEntry host _ _ _ _ hC hall).bind fun rv own₂ m₂ g₂ _ hkeeps _ => ?_
  refine Upholds.ite (fun _ => ?_) fun _ => Upholds.pure trivial
  -- the copy of the inode is older than the entry, but what it points to is still its own
  have hcount : Carries disk own₂ m₂ { node with referenceCount := node.referenceCount + 1 } :=
    (hnode.keep hkeeps).congr rfl rfl rfl
  exact (upholds_inodeWrite hcount (hall _)).bind fun _ _ _ _ _ _ _ => Upholds.pure trivial

/-- `chmod` and `utimens` change fields of the inode that are no pointers. -/
private theorem upholds_editInode (number : UInt64) (f : Inode → Inode) (hall : ∀ n, n ∈ T.inodes)
    (hf : ∀ node, (f node).inodeNumber = node.inodeNumber ∧
      (f node).directBlocks = node.directBlocks ∧ (f node).indirectBlock = node.indirectBlock) :
    Abides disk (ownership disk T E) (do
      let node ← inodeRead number
      match node with
      | none => pure (-1)
      | some node => inodeWrite (f node)) own m g := by
  refine (upholds_inodeRead _).bind ?_
  rintro read own₁ m₁ g₁ - - ⟨rfl, rfl, -, hread⟩
  cases read with
  | none => exact Upholds.pure trivial
  | some node =>
      obtain ⟨hnumber, hdirect, hindirect⟩ := hf node
      exact (upholds_inodeWrite ((hread node rfl).congr hnumber hdirect hindirect) (hall _)).mono
        fun _ _ _ _ _ _ _ => trivial

theorem upholds_nbtrfsChmod (mode : UInt32) (hall : ∀ n, n ∈ T.inodes) :
    Abides disk (ownership disk T E) (nbtrfsChmod disk path mode) own m g :=
  Upholds.read_bind (reads_itemSearch path) fun _ _ _ =>
    upholds_editInode _ (fun node => { node with mode := mode }) hall fun _ => ⟨rfl, rfl, rfl⟩

theorem upholds_nbtrfsUtimens (atime mtime : Timespec) (hall : ∀ n, n ∈ T.inodes) :
    Abides disk (ownership disk T E) (nbtrfsUtimens disk path atime mtime) own m g :=
  Upholds.read_bind (reads_itemSearch path) fun _ _ _ =>
    upholds_editInode _ (fun node => { node with
      accessTime := atime.nanoseconds
      modificationTime := mtime.nanoseconds }) hall fun _ => ⟨rfl, rfl, rfl⟩

theorem upholds_writeItem (pair : InodeBtreePair) (buf : Bytes) (size : UInt64) (offset : ℕ)
    (hall : ∀ n, n ∈ T.inodes) :
    Abides disk (ownership disk T E) (writeItem disk pair buf size offset) own m g := by
  refine (upholds_inodeCopy _).bind ?_
  rintro node own₁ m₁ g₁ - - ⟨rfl, rfl, -, hnode⟩
  exact upholds_writeInode hnode (hall _) buf size offset

theorem upholds_nbtrfsWrite (buf : Bytes) (size : UInt64) (offset : ℕ) (hC : T.tree)
    (hall : ∀ n, n ∈ T.inodes) (hE : inodeBitmapNumbers disk ⊆ E) :
    Abides disk (ownership disk T E) (nbtrfsWrite disk host path buf size offset) own m g := by
  refine Upholds.read_bind (reads_itemSearch path) fun pair _ _ => ?_
  refine Upholds.ite (fun _ => ?_) fun _ => Upholds.ite (fun _ => Upholds.pure trivial) fun _ =>
    upholds_writeItem pair buf size offset hall
  refine (upholds_nbtrfsMknod host path _ hC hall hE).bind fun _ _ _ _ _ _ _ => ?_
  exact Upholds.read_bind (reads_itemSearch path) fun pair _ _ =>
    upholds_writeItem pair buf size offset hall

end Calls

/-- A reply is made of what the callback returns. -/
private theorem abides_reply {α : Type} {q : BlockProg α} {reply : α → FuseReply}
    (h : Abides disk (ownership disk T E) q own m g) :
    Abides disk (ownership disk T E) (q >>= fun a => pure (reply a)) own m g :=
  h.bind fun _ _ _ _ _ _ _ => Upholds.pure trivial

/-- Every call that removes no entry keeps to the protocol. -/
theorem upholds_call (host : Host) (call : FuseCall) (hcall : call.removes = false) (hC : T.tree)
    (hall : ∀ n, n ∈ T.inodes) (hE : inodeBitmapNumbers disk ⊆ E) :
    Abides disk (ownership disk T E) (call.run disk host) own m g := by
  cases call with
  | access path => exact abides_reply (abides_read (reads_nbtrfsAccess path))
  | getattr path => exact abides_reply (abides_read (reads_nbtrfsGetattr path))
  | readdir path => exact abides_reply (abides_read (reads_nbtrfsReaddir path))
  | mknod path mode => exact abides_reply (upholds_nbtrfsMknod host path mode hC hall hE)
  | create path mode => exact abides_reply (upholds_nbtrfsMknod host path _ hC hall hE)
  | mkdir path mode => exact abides_reply (upholds_nbtrfsMknod host path _ hC hall hE)
  | link source target => exact abides_reply (upholds_nbtrfsLink host source target hC hall)
  | unlink path => cases hcall
  | rmdir path => cases hcall
  | rename source target => cases hcall
  | chmod path mode => exact abides_reply (upholds_nbtrfsChmod path mode hall)
  | truncate => exact abides_reply (Upholds.pure trivial)
  | openFile => exact abides_reply (Upholds.pure trivial)
  | read path size offset => exact abides_reply (abides_read (reads_nbtrfsRead path size offset))
  | write path buf size offset =>
      exact abides_reply (upholds_nbtrfsWrite host path buf size offset hC hall hE)
  | utimens path atime mtime => exact abides_reply (upholds_nbtrfsUtimens path atime mtime hall)
  | ioctl => exact abides_reply (Upholds.pure trivial)

/-- So does any sequence of them. -/
theorem upholds_session (calls : List (Host × FuseCall))
    (hcalls : ∀ c ∈ calls, c.2.removes = false) (hC : T.tree) (hall : ∀ n, n ∈ T.inodes)
    (hE : inodeBitmapNumbers disk ⊆ E) :
    Abides disk (ownership disk T E) (session disk calls) own m g := by
  induction calls generalizing own m g with
  | nil => exact Upholds.pure trivial
  | cons c calls ih =>
      obtain ⟨host, call⟩ := c
      refine (upholds_call host call (hcalls _ List.mem_cons_self) hC hall hE).bind ?_
      intro reply own₁ m₁ g₁ _ _ _
      refine (ih fun c hc => hcalls c (List.mem_cons_of_mem _ hc)).bind ?_
      exact fun _ _ _ _ _ _ _ => Upholds.pure trivial

/-! ## Sessions on a consistent volume -/

/-- What may be owed and announced when any inode and the tree may change. -/
abbrev sessionAllowance (disk : DiskInterface) (own : Owners) (m : Image) : Allowance :=
  (ownership disk Scope.all (inodeBitmapNumbers disk)).allowance own m

section Session

variable {calls : List (Host × FuseCall)} (C : Consistent disk own m)
  (hcalls : ∀ c ∈ calls, c.2.removes = false)
include C hcalls

/-- A session of calls that remove nothing holds what it touches, and leaves a consistent volume. -/
theorem Consistent.disciplined_session :
    Disciplined disk.mapping (session disk calls) m .empty fun _ m' g' =>
      ∃ own', Consistent disk own' m' ∧ Keeps disk Scope.all own m own' m' ∧
        PageLedger.Grows (sessionAllowance disk own' m') .empty g' := by
  have hsession : Abides disk (ownership disk Scope.all (inodeBitmapNumbers disk))
      (session disk calls) own m .empty :=
    upholds_session calls hcalls trivial (fun n => Set.mem_univ n) subset_rfl
  refine (hsession.disciplined C).mono fun replies m' g' h => ?_
  obtain ⟨own', C', hkeeps, hgrow, -⟩ := h
  exact ⟨own', C', hkeeps, hgrow⟩

/-- What the calls leave on the device blocks themselves. -/
theorem Consistent.session {replies : List FuseReply}
    (hrun : run disk.mapping (session disk calls) m = some (replies, m')) :
    ∃ own', Consistent disk own' m' ∧ Keeps disk Scope.all own m own' m' ∧
      PageLedger.Grows (sessionAllowance disk own' m') .empty
        (PageLedger.empty.after (events disk.mapping (Nbtrfs.session disk calls) m)) :=
  (C.disciplined_session hcalls).of_run hrun

end Session

end Nbtrfs
