import Nbtrfs.Attributes
import Nbtrfs.Volumes

/-!
# Files do not disturb each other

Reference: `fuse.c::nbtrfs_write`.

Calls that write to files, set attributes or only read leave every inode alone that they do not lead
to: its attributes, its data and, for a directory, its entries. Blocks that a write takes are never
blocks of another inode, and lookups do not depend on data pages.
-/

namespace Nbtrfs

open BlockProg Bytes

variable {disk : DiskInterface} {own : Owners} {m m' : Image} {path : CString} {pair : InodeBtreePair}
  {n : ℕ} {host : Host}

/-- All inodes but one may change, and no node. -/
def Scope.except (n : ℕ) : Scope := ⟨{k | k ≠ n}, False⟩

/-- What a call may do that leaves inode `n` alone: read, or write to a file or set the attributes of an
inode with another number. -/
def FuseCall.Apart (disk : DiskInterface) (m : Image) (n : ℕ) : FuseCall → Prop
  | write path _ _ _ => ∃ pair, PathTo disk m path pair ∧ pair.inodeNumber ≠ 0 ∧ pair.btreeBlock = 0 ∧
      (inodeAt disk m pair.inodeNumber.toNat).inodeNumber.toNat ≠ n
  | chmod path _ => ∃ pair, PathTo disk m path pair ∧
      (inodeAt disk m pair.inodeNumber.toNat).inodeNumber.toNat ≠ n
  | utimens path _ _ => ∃ pair, PathTo disk m path pair ∧
      (inodeAt disk m pair.inodeNumber.toNat).inodeNumber.toNat ≠ n
  | access _ | getattr _ | readdir _ | read _ _ _ | truncate | openFile | ioctl => True
  | mknod _ _ | create _ _ | mkdir _ _ | link _ _ | unlink _ | rmdir _ | rename _ _ => False

/-- Calls one after the other, from `m` to `m'`, each of which leaves inode `n` alone. -/
inductive ApartRun (disk : DiskInterface) (n : ℕ) : List (Host × FuseCall) → Image → Image → Prop where
  | nil {m : Image} : ApartRun disk n [] m m
  | cons {m m₁ m' : Image} {host : Host} {call : FuseCall} {calls : List (Host × FuseCall)}
      {reply : FuseReply} (hapart : call.Apart disk m n)
      (hrun : run disk.mapping (call.run disk host) m = some (reply, m₁))
      (hrest : ApartRun disk n calls m₁ m') : ApartRun disk n ((host, call) :: calls) m m'

/-! ## One call -/

section Call

variable (C : Consistent disk own m)
include C

/-- A write to a file changes that file only. -/
theorem Consistent.run_write (h : PathTo disk m path pair) (hnumber : pair.inodeNumber ≠ 0)
    (hblock : pair.btreeBlock = 0)
    (hne : (inodeAt disk m pair.inodeNumber.toNat).inodeNumber.toNat ≠ n) {buf : Bytes} {size : UInt64}
    {offset : ℕ} {rv : ℤ}
    (hrun : run disk.mapping (nbtrfsWrite disk host path buf size offset) m = some (rv, m')) :
    ∃ own', Consistent disk own' m' ∧ Keeps disk (Scope.except n) own m own' m' := by
  rw [nbtrfsWrite, run_bind_of_eq h.lookup, if_neg (fun hzero => hnumber hzero.1),
    if_neg (not_not_intro hblock), writeItem,
    run_bind_of_eq (C.sound.layout.run_inodeCopy_slot h.capacity)] at hrun
  have hT : (inodeAt disk m pair.inodeNumber.toNat).inodeNumber.toNat ∈ (Scope.except n).inodes := hne
  have hwrite : Abides disk (ownership disk (Scope.except n) ∅)
      (writeInode disk (inodeAt disk m pair.inodeNumber.toNat) buf size offset) own m .empty :=
    upholds_writeInode (C.inodes _ h.capacity).1 hT buf size offset
  obtain ⟨own', C', hkeeps, -⟩ := (hwrite.disciplined C).of_run hrun
  exact ⟨own', C', hkeeps⟩

/-- Setting attributes of an inode changes that inode only. -/
theorem Consistent.run_editInode (h : PathTo disk m path pair)
    (hne : (inodeAt disk m pair.inodeNumber.toNat).inodeNumber.toNat ≠ n) (f : Inode → Inode)
    (hf : ∀ node, (f node).inodeNumber = node.inodeNumber ∧
      (f node).directBlocks = node.directBlocks ∧ (f node).indirectBlock = node.indirectBlock)
    {rv : ℤ}
    (hrun : run disk.mapping (do
      let pair ← itemSearch disk path
      let node ← inodeRead pair.inodeNumber
      match node with
      | none => pure (-1)
      | some node => inodeWrite (f node)) m = some (rv, m')) :
    ∃ own', Consistent disk own' m' ∧ Keeps disk (Scope.except n) own m own' m' := by
  obtain ⟨hnumber, hdirect, hindirect⟩ := hf (inodeAt disk m pair.inodeNumber.toNat)
  have hcarries := (C.inodes _ h.capacity).1.congr hnumber hdirect hindirect
  rw [run_bind_of_eq h.lookup, run_bind_of_eq (C.sound.layout.run_inodeRead_slot h.capacity)] at hrun
  have hwrite := C.sound.layout.run_inodeWrite_slot _ hcarries.number
  obtain ⟨-, rfl⟩ := Prod.mk.inj (Option.some.inj (hrun.symm.trans hwrite))
  exact ⟨own, C.putInode hcarries (by rwa [hnumber])⟩

/-- A call that only reads changes nothing. -/
private theorem Consistent.run_reads {α : Type} {q : BlockProg α} {reply : α → FuseReply}
    {r : FuseReply} (hq : Reads disk.mapping q)
    (hrun : run disk.mapping (q >>= fun a => pure (reply a)) m = some (r, m')) :
    ∃ own', Consistent disk own' m' ∧ Keeps disk (Scope.except n) own m own' m' := by
  have hreads : Reads disk.mapping (q >>= fun a => (pure (reply a) : BlockProg FuseReply)) :=
    hq.bind fun _ => Reads.pure
  have habides : Abides disk (ownership disk (Scope.except n) ∅) _ own m .empty := abides_read hreads
  obtain ⟨own', C', hkeeps, -⟩ := (habides.disciplined C).of_run hrun
  exact ⟨own', C', hkeeps⟩

omit C in
/-- What a call replies is read off its result. -/
theorem exists_run_of_reply {α : Type} {q : BlockProg α} {reply : α → FuseReply} {r : FuseReply}
    (hrun : run disk.mapping (q >>= fun a => pure (reply a)) m = some (r, m')) :
    ∃ a, run disk.mapping q m = some (a, m') := by
  obtain ⟨a, m₁, hq, hrest⟩ := run_bind_eq_some.mp hrun
  obtain ⟨-, rfl⟩ := Prod.mk.inj (Option.some.inj hrest)
  exact ⟨a, hq⟩

/-- A call that stays apart from the inode `n` leaves the volume consistent and keeps what belongs to
`n`. -/
theorem Consistent.run_apart {call : FuseCall} (hapart : call.Apart disk m n) {reply : FuseReply}
    (hrun : run disk.mapping (call.run disk host) m = some (reply, m')) :
    ∃ own', Consistent disk own' m' ∧ Keeps disk (Scope.except n) own m own' m' := by
  cases call with
  | access path => exact C.run_reads (reads_nbtrfsAccess path) hrun
  | getattr path => exact C.run_reads (reads_nbtrfsGetattr path) hrun
  | readdir path => exact C.run_reads (reads_nbtrfsReaddir path) hrun
  | read path size offset => exact C.run_reads (reads_nbtrfsRead path size offset) hrun
  | truncate => exact C.run_reads Reads.pure hrun
  | openFile => exact C.run_reads Reads.pure hrun
  | ioctl => exact C.run_reads Reads.pure hrun
  | write path buf size offset =>
      obtain ⟨pair, hpath, hnumber, hblock, hne⟩ := hapart
      obtain ⟨rv, hwrite⟩ := exists_run_of_reply hrun
      exact C.run_write hpath hnumber hblock hne hwrite
  | chmod path mode =>
      obtain ⟨pair, hpath, hne⟩ := hapart
      obtain ⟨rv, hchmod⟩ := exists_run_of_reply hrun
      exact C.run_editInode hpath hne (fun node => { node with mode := mode })
        (fun _ => ⟨rfl, rfl, rfl⟩) hchmod
  | utimens path atime mtime =>
      obtain ⟨pair, hpath, hne⟩ := hapart
      obtain ⟨rv, hutimens⟩ := exists_run_of_reply hrun
      exact C.run_editInode hpath hne (fun node => { node with
        accessTime := atime.nanoseconds
        modificationTime := mtime.nanoseconds }) (fun _ => ⟨rfl, rfl, rfl⟩) hutimens
  | mknod path mode => exact hapart.elim
  | create path mode => exact hapart.elim
  | mkdir path mode => exact hapart.elim
  | link source target => exact hapart.elim
  | unlink path => exact hapart.elim
  | rmdir path => exact hapart.elim
  | rename source target => exact hapart.elim

end Call

/-! ## Any number of calls -/

theorem Consistent.apartRun {calls : List (Host × FuseCall)} (C : Consistent disk own m)
    (h : ApartRun disk n calls m m') :
    ∃ own', Consistent disk own' m' ∧ Keeps disk (Scope.except n) own m own' m' := by
  induction h generalizing own with
  | nil => exact ⟨own, C, Keeps.refl own _⟩
  | cons hapart hrun _ ih =>
      obtain ⟨own₁, C₁, hkeeps₁⟩ := C.run_apart hapart hrun
      obtain ⟨own', C', hkeeps'⟩ := ih C₁
      exact ⟨own', C', hkeeps₁.trans hkeeps'⟩

/-- What an inode owns is the same after calls that leave it alone. -/
theorem Keeps.sameData {own' : Owners} {node : Inode} (hk : Keeps disk (Scope.except n) own m own' m')
    (hnode : Owns own m n node) : SameData True m m' node where
  entry i hi _ hne := hk.entry _ n i (hnode.entry i hi hne) fun h => h rfl
  indirect _ hne := hk.indirect _ n (hnode.indirect hne)

/-- Whatever is written to other files, and whatever attributes are set on other inodes, a path leads
where it led, and `getattr`, `read` and `directory_list` find there what they found. -/
theorem LiveVolume.isolated (h : LiveVolume disk m) {calls : List (Host × FuseCall)}
    (hcalls : ApartRun disk pair.inodeNumber.toNat calls m m') (hpath : PathTo disk m path pair) :
    PathTo disk m' path pair ∧
      result disk.mapping (nbtrfsGetattr disk path) m' =
        result disk.mapping (nbtrfsGetattr disk path) m ∧
      result disk.mapping (directoryList disk path) m' =
        result disk.mapping (directoryList disk path) m ∧
      ∀ size offset, result disk.mapping (nbtrfsRead disk path size offset) m' =
        result disk.mapping (nbtrfsRead disk path size offset) m := by
  obtain ⟨own, C⟩ := h.consistent
  obtain ⟨own', C', hkeeps⟩ := C.apartRun hcalls
  have hlike : ∀ b, LooksAlike (m b) (m' b) := hkeeps.tree not_false
  have hinode : SameInode disk m m' pair.inodeNumber :=
    C.sameInode_of_slot hpath.capacity (hkeeps.inode _ hpath.capacity fun hne => hne rfl)
  have hsame : ∀ found, run disk.mapping (itemSearch disk path) m = some (found, m) →
      SameInode disk m m' found.inodeNumber ∧ ∀ node,
        run disk.mapping (inodeRead found.inodeNumber) m = some (some node, m) →
          SameData True m m' node := by
    intro found hfound
    obtain ⟨rfl, -⟩ := Prod.mk.inj (Option.some.inj (hfound.symm.trans hpath.lookup))
    refine ⟨hinode, fun node hread => ?_⟩
    rw [C.sound.layout.run_inodeRead_slot hpath.capacity] at hread
    obtain ⟨hnode, -⟩ := Prod.mk.inj (Option.some.inj hread)
    obtain rfl := Option.some.inj hnode
    exact hkeeps.sameData (C.inodes _ hpath.capacity).2
  refine ⟨⟨((twin_itemSearch hlike path).run_eq hpath.lookup).2, hpath.capacity⟩,
    (twin_nbtrfsGetattr C C' hlike path fun found hfound => (hsame found hfound).1).result_eq,
    (twin_directoryList C C' hlike path hsame).result_eq, fun size offset => ?_⟩
  exact (twin_nbtrfsRead C C' hlike path size offset (Or.inr trivial) hsame).result_eq

/-- Writing the first byte of `/a` leaves the root directory alone: its path, and its listing. -/
theorem isolated_88 : ∃ m m' r, FirstByte ⟨88, by decide⟩ ⟨0, 0, 0, fun _ => 0⟩ (fun _ => 7) 0 m m' ∧
    ApartRun ⟨88, by decide⟩ 0 [(⟨0, 0, 0, fun _ => 0⟩, .write [slash, 97] (fun _ => 7) 1 0)] m m' ∧
    PathTo ⟨88, by decide⟩ m' [slash] ⟨0, r⟩ ∧
    result (DiskInterface.mapping ⟨88, by decide⟩) (directoryList ⟨88, by decide⟩ [slash]) m' =
      result (DiskInterface.mapping ⟨88, by decide⟩) (directoryList ⟨88, by decide⟩ [slash]) m := by
  obtain ⟨-, m, m', -, B⟩ := exists_firstByte_88 (show 0 / usableBlockSize ≤ maxIndex by decide)
  obtain ⟨r, l, hfile⟩ := B.file
  have hroot : PathTo ⟨88, by decide⟩ m [slash] ⟨0, UInt64.ofNat r⟩ :=
    ⟨hfile.root.run_itemSearch_root, show 0 < inodeCapacity 88 by decide⟩
  have hown : (inodeAt ⟨88, by decide⟩ m (1 : UInt64).toNat).inodeNumber.toNat ≠ 0 := by
    rw [hfile.file.own]
    decide
  have hcalls : ApartRun ⟨88, by decide⟩ 0
      [(⟨0, 0, 0, fun _ => 0⟩, .write [slash, 97] (fun _ => 7) 1 0)] m m' :=
    .cons ⟨_, ⟨hfile.file.lookup, hfile.file.capacity⟩, by decide, rfl, hown⟩
      (run_session_one.mp B.run) .nil
  obtain ⟨hpath, -, hlist, -⟩ := B.live.isolated (by exact hcalls) hroot
  exact ⟨m, m', UInt64.ofNat r, B, hcalls, hpath, hlist⟩

end Nbtrfs
