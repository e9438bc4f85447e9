import Nbtrfs.ReadBack
import Nbtrfs.Btr.Height
import Nbtrfs.Components
import Nbtrfs.Lib.NameTree

/-!
# Resolving paths

Reference: `hash.c::item_search`.

A `Namespace` says what the directories of a volume contain: their B-trees hold a leaf under the hash
of every name. `item_search` goes down these trees name by name, but the text that it compares with the
path is printed over itself: it is one slash and the name it is at. So a path of one name is resolved as
`follow` does, and a longer one to nothing.
-/

namespace Nbtrfs

open BlockProg Bytes NameTree

variable {disk : DiskInterface} {m : Image} {k b i n : ℕ} {leaves : List Leaf} {l : Leaf}
  {node next : BTreeNode} {path currPath c : CString} {cs : List CString}

/-! ## The leaves of a tree -/

/-- The leaves of a tree are on pages of their own. -/
theorem Subtree.leafPage (T : Subtree disk.mapping m k b leaves) :
    ∀ l ∈ leaves, LeafPage disk m l := by
  induction T with
  | @leaf h b hnode hne hleaf hblock =>
      intro l hl
      rw [List.mem_singleton.mp hl]
      refine ⟨Nat.pos_of_ne_zero ?_, hnode.lt_addressable, hnode.type, hleaf, hblock, rfl⟩
      intro hzero
      exact hne (congrArg UInt64.ofNat hzero)
  | @node h b below hnode hleaf hkeys hnone hbelow ih =>
      intro l hl
      obtain ⟨i, hi, hl⟩ := List.mem_flatMap.mp hl
      rw [List.mem_range'_1] at hi
      by_cases hchild : (BTreeNode.ofPage (m b)).childAt i = 0
      · rw [hnone i (by omega) hchild] at hl
        cases hl
      · exact ih i (by omega) hchild l hl

namespace LeafPage

variable (L : LeafPage disk m l)
include L

theorem type_ofPage : (BTreeNode.ofPage (m l.block)).type = l.type := congrArg Leaf.type L.onPage

theorem value_ofPage : (BTreeNode.ofPage (m l.block)).value = l.value := congrArg Leaf.value L.onPage

/-- A file is left as it is. -/
theorem run_enterNode_file (hfile : l.type ≠ fileTypeDirectory) :
    run disk.mapping (enterNode (BTreeNode.ofPage (m l.block))) m =
      some (some (BTreeNode.ofPage (m l.block)), m) := by
  rw [enterNode, L.type_ofPage, if_neg hfile, run_pure]

/-- The leaf of a directory names the root of its tree. -/
theorem run_enterNode_directory (hdir : l.type = fileTypeDirectory)
    (N : IsNode disk.mapping m l.value.toNat) :
    run disk.mapping (enterNode (BTreeNode.ofPage (m l.block))) m =
      some (some (BTreeNode.ofPage (m l.value.toNat)), m) := by
  have hread := Nbtrfs.run_btreeNodeRead N.addr N.type
  rw [UInt64.ofNat_toNat] at hread
  rw [enterNode, L.type_ofPage, if_pos hdir, L.value_ofPage, hread]

end LeafPage

/-! ## One step of the search -/

section Step

variable (T : Subtree disk.mapping m k b leaves) (hnumber : node.blockNumber = UInt64.ofNat b)
  (hsplit : split path i = some c)
include T hnumber hsplit

/-- The search ends at a name that is not in the tree. -/
theorem run_searchPath_absent (hnone : ∀ l ∈ leaves, l.key ≠ pathHash c) :
    run disk.mapping (searchPath disk path (n + 1) i node currPath) m = some (⟨0, 0⟩, m) := by
  have hzero := (Leaf.found_eq_zero_iff T.block_ne_zero).mpr hnone
  rw [searchPath, hsplit]
  simp only [hnumber]
  rw [run_bind_of_eq (T.run_btreeSearch _), if_pos hzero, run_pure]

/-- A name in the tree is what the path names, or the search goes on from what its leaf leads to. -/
theorem run_searchPath_present (hl : l ∈ leaves)
    (hfound : Leaf.found leaves (pathHash c) = UInt64.ofNat l.block)
    (henter : run disk.mapping (enterNode (BTreeNode.ofPage (m l.block))) m = some (some next, m)) :
    run disk.mapping (searchPath disk path (n + 1) i node currPath) m =
      if path = printCurrPath currPath c then some (next.pair, m)
      else run disk.mapping (searchPath disk path n (i + 1) next (printCurrPath currPath c)) m := by
  have L := T.leafPage l hl
  rw [searchPath, hsplit]
  simp only [hnumber]
  rw [run_bind_of_eq (T.run_btreeSearch _), hfound, if_neg L.number_ne_zero,
    run_bind_of_eq L.run_btreeNodeRead, Option.getD_some, run_bind_of_eq henter]
  simp only
  split
  · rfl
  · rfl

end Step

theorem LeafPage.pair_ofPage (L : LeafPage disk m l) (hfile : l.type ≠ fileTypeDirectory) :
    (BTreeNode.ofPage (m l.block)).pair = ⟨l.value, 0⟩ := by
  rw [BTreeNode.pair, L.type_ofPage, if_neg hfile, L.value_ofPage]

/-! ## Namespaces -/

/-- What a leaf of a directory's tree stands for. -/
def Leaf.object (l : Leaf) : Object ℕ Leaf :=
  if l.type = fileTypeDirectory then .directory l.value.toNat else .file l

/-- The directories of a volume, by the root blocks of their trees, and their entries. The tree of a
directory holds the leaf of every entry under the hash of its name; the leaf of a directory names the
root of its tree, and the leaf of a file its inode, which is not that of the root directory. -/
structure Namespace (disk : DiskInterface) (m : Image) where
  root : ℕ
  directories : Set ℕ
  entry : ℕ → CString → Option Leaf
  layout : Layout disk.mapping disk m
  btreeRoot : (Superblock.ofPage (m 0)).btreeRoot = UInt64.ofNat root
  root_mem : root ∈ directories
  tree : ∀ r ∈ directories, ∃ h leaves, Subtree disk.mapping m h r leaves ∧
    ∀ l, l ∈ leaves ↔ ∃ c, entry r c = some l
  number : ∀ r ∈ directories, (BTreeNode.ofPage (m r)).blockNumber = UInt64.ofNat r
  key : ∀ r ∈ directories, ∀ c l, entry r c = some l → l.key = pathHash c
  child : ∀ r ∈ directories, ∀ c l, entry r c = some l → l.type = fileTypeDirectory →
    l.value.toNat ∈ directories ∧
      (BTreeNode.ofPage (m l.value.toNat)).type = fileTypeDirectory
  file : ∀ r ∈ directories, ∀ c l, entry r c = some l → l.type ≠ fileTypeDirectory → l.value ≠ 0

/-- The inode of an object and the block that `item_search` adds to it; `none` is no object. -/
def objectPair (m : Image) : Option (Object ℕ Leaf) → InodeBtreePair
  | none => ⟨0, 0⟩
  | some (.directory r) => ⟨(BTreeNode.ofPage (m r)).value, UInt64.ofNat r⟩
  | some (.file l) => ⟨l.value, 0⟩

/-- The text of an absolute path. -/
def pathOf (cs : List CString) : CString := if cs = [] then [slash] else joined cs

namespace Namespace

/-- The object that a directory has under a name. -/
def lookup (N : Namespace disk m) (r : ℕ) (c : CString) : Option (Object ℕ Leaf) :=
  (N.entry r c).map Leaf.object

/-- The object that the names lead to from the root directory. -/
def resolve (N : Namespace disk m) (cs : List CString) : Option (Object ℕ Leaf) :=
  follow N.lookup (.directory N.root) cs

/-- The hash tells the names of the path from the other names in the directories. -/
def HashInjective (N : Namespace disk m) (cs : List CString) : Prop :=
  ∀ c ∈ cs, ∀ r ∈ N.directories, ∀ c' l, N.entry r c' = some l → pathHash c' = pathHash c → c' = c

/-- `item_search` returns the inode and the block of what the path leads to, and `(0, 0)` exactly when
that is nothing. -/
def Resolves (N : Namespace disk m) (cs : List CString) : Prop :=
  ∃ pair, run disk.mapping (itemSearch disk (pathOf cs)) m = some (pair, m) ∧
    (∀ o, N.resolve cs = some o → pair = objectPair m (some o)) ∧
    (pair = ⟨0, 0⟩ ↔ N.resolve cs = none)

variable (N : Namespace disk m) {r : ℕ} {o : Object ℕ Leaf}

/-! ## The entries of a namespace -/

section Entries

variable (hr : r ∈ N.directories)
include hr

theorem isNode : IsNode disk.mapping m r := by
  obtain ⟨h, leaves, T, -⟩ := N.tree r hr
  exact T.isNode

/-- The superblock is not the root of a directory. -/
theorem number_ne_zero : UInt64.ofNat r ≠ 0 := by
  intro hzero
  have hnode := N.isNode hr
  have haddr := hnode.addr
  have htype := hnode.type
  rw [hzero, N.layout.addr_zero] at haddr
  rw [← Option.some.inj haddr, N.layout.super] at htype
  cases BlockType.code_injective htype

/-- A name without an entry has no leaf. -/
theorem leaf_of_lookup_none (hinj : ∀ c' l, N.entry r c' = some l → pathHash c' = pathHash c → c' = c)
    (h : N.lookup r c = none) {leaves : List Leaf}
    (hleaves : ∀ l, l ∈ leaves ↔ ∃ c, N.entry r c = some l) : ∀ l ∈ leaves, l.key ≠ pathHash c := by
  intro l hl hkey
  obtain ⟨c', hentry⟩ := (hleaves l).mp hl
  rw [N.key r hr c' l hentry] at hkey
  rw [hinj c' l hentry hkey] at hentry
  rw [lookup, hentry] at h
  cases h

/-- A name with an entry has one leaf. -/
theorem leaf_of_lookup_some
    (hinj : ∀ c' l, N.entry r c' = some l → pathHash c' = pathHash c → c' = c)
    (h : N.lookup r c = some o) {leaves : List Leaf}
    (hleaves : ∀ l, l ∈ leaves ↔ ∃ c, N.entry r c = some l) :
    ∃ l ∈ leaves, N.entry r c = some l ∧ l.object = o ∧ l.key = pathHash c ∧
      ∀ l' ∈ leaves, l'.key = pathHash c → l' = l := by
  obtain ⟨l, hentry, hobject⟩ := Option.map_eq_some_iff.mp h
  refine ⟨l, (hleaves l).mpr ⟨c, hentry⟩, hentry, hobject, N.key r hr c l hentry, ?_⟩
  intro l' hl' hkey'
  obtain ⟨c', hentry'⟩ := (hleaves l').mp hl'
  rw [N.key r hr c' l' hentry'] at hkey'
  rw [hinj c' l' hentry' hkey', hentry] at hentry'
  exact (Option.some.inj hentry').symm

end Entries

/-- An object of the namespace: a directory, or a file that has an inode. -/
def IsObject (N : Namespace disk m) : Object ℕ Leaf → Prop
  | .directory r => r ∈ N.directories
  | .file l => l.value ≠ 0

theorem isObject_lookup (hr : r ∈ N.directories) (h : N.lookup r c = some o) : N.IsObject o := by
  obtain ⟨l, hentry, rfl⟩ := Option.map_eq_some_iff.mp h
  unfold Leaf.object
  split
  · case isTrue hdir => exact (N.child r hr c l hentry hdir).1
  · case isFalse hfile => exact N.file r hr c l hentry hfile

/-- What names lead to from the root is an object. -/
theorem isObject_resolve (h : N.resolve cs = some o) : N.IsObject o := by
  have hall : ∀ r ∈ N.directories, follow N.lookup (.directory r) cs = some o → N.IsObject o := by
    clear h
    induction cs with
    | nil =>
        intro r hr h
        rw [follow_nil] at h
        rw [← Option.some.inj h]
        exact hr
    | cons c cs ih =>
        intro r hr h
        rw [follow_directory] at h
        obtain ⟨o', hlookup, h⟩ := Option.bind_eq_some_iff.mp h
        have ho := N.isObject_lookup hr hlookup
        cases o' with
        | directory r' => exact ih r' ho h
        | file l =>
            cases cs with
            | nil =>
                rw [follow_nil] at h
                rwa [← Option.some.inj h]
            | cons d cs => cases h
  exact hall _ N.root_mem h

theorem objectPair_ne_zero (h : N.IsObject o) : objectPair m (some o) ≠ ⟨0, 0⟩ := by
  intro hzero
  cases o with
  | directory r => exact N.number_ne_zero h (congrArg InodeBtreePair.btreeBlock hzero)
  | file l => exact h (congrArg InodeBtreePair.inodeNumber hzero)

/-! ## The search -/

/-- Where the search may stand: at the root of a directory's tree, or at the leaf of a file, which it
takes for the root of a tree as well. -/
inductive Stands (N : Namespace disk m) : BTreeNode → Prop
  | directory {r : ℕ} (hr : r ∈ N.directories) : N.Stands (BTreeNode.ofPage (m r))
  | file {l : Leaf} (L : LeafPage disk m l) (hfile : l.type ≠ fileTypeDirectory) :
      N.Stands (BTreeNode.ofPage (m l.block))

/-- From there it searches a tree, whose leaves lead to such places. -/
theorem Stands.exists_tree {N : Namespace disk m} (h : N.Stands node) :
    ∃ k b leaves, Subtree disk.mapping m k b leaves ∧ node.blockNumber = UInt64.ofNat b ∧
      ∀ l ∈ leaves, ∃ next,
        run disk.mapping (enterNode (BTreeNode.ofPage (m l.block))) m = some (some next, m) ∧
          N.Stands next := by
  cases h with
  | @directory r hr =>
      obtain ⟨k, leaves, T, hleaves⟩ := N.tree r hr
      refine ⟨k, r, leaves, T, N.number r hr, fun l hl => ?_⟩
      have L := T.leafPage l hl
      obtain ⟨c, hentry⟩ := (hleaves l).mp hl
      by_cases hdir : l.type = fileTypeDirectory
      · have hmem := (N.child r hr c l hentry hdir).1
        exact ⟨_, L.run_enterNode_directory hdir (N.isNode hmem), .directory hmem⟩
      · exact ⟨_, L.run_enterNode_file hdir, .file L hdir⟩
  | @file l L hfile =>
      have T : Subtree disk.mapping m 0 l.block [l] := L.subtree
      refine ⟨0, l.block, [l], T, L.blockNumber, fun l' hl' => ?_⟩
      obtain rfl := List.mem_singleton.mp hl'
      exact ⟨_, L.run_enterNode_file hfile, .file L hfile⟩

/-- A path with two slashes leads the search through the trees and to nothing. -/
theorem Stands.run_searchPath {N : Namespace disk m} (h : N.Stands node)
    (hslashes : 2 ≤ path.count slash) (hsplit : ∀ j, i ≤ j → j < i + n → (split path j).isSome) :
    run disk.mapping (searchPath disk path n i node currPath) m = some (⟨0, 0⟩, m) := by
  induction n generalizing i node currPath with
  | zero => rfl
  | succ n ih =>
      obtain ⟨k, b, leaves, T, hnumber, hleaves⟩ := h.exists_tree
      obtain ⟨c, hc⟩ := Option.isSome_iff_exists.mp (hsplit i le_rfl (by omega))
      by_cases hzero : Leaf.found leaves (pathHash c) = 0
      · exact run_searchPath_absent T hnumber hc ((Leaf.found_eq_zero_iff T.block_ne_zero).mp hzero)
      · obtain ⟨l, hl, -, hfound⟩ := Leaf.exists_of_found_ne_zero hzero
        obtain ⟨next, henter, hnext⟩ := hleaves l hl
        -- what is printed has one slash
        have hne : path ≠ printCurrPath currPath c := by
          intro heq
          have hone : (printCurrPath currPath c).count slash ≤ 1 :=
            count_printCurrPath_le (slash_notMem_of_split hc)
          rw [← heq] at hone
          omega
        rw [run_searchPath_present T hnumber hc hl hfound henter, if_neg hne]
        exact ih hnext fun j hj hlt => hsplit j (by omega) (by omega)

/-- From a directory the search finds what a path of one name leads to. -/
theorem run_searchPath_component (hr : r ∈ N.directories)
    (hinj : ∀ c' l, N.entry r c' = some l → pathHash c' = pathHash c → c' = c) (hc : IsComponent c)
    (hshort : (joined [c]).length < pathMax) :
    run disk.mapping (searchPath disk (joined [c]) (n + 1) 1 (BTreeNode.ofPage (m r)) currPath) m =
      some (objectPair m (N.lookup r c), m) := by
  obtain ⟨k, leaves, T, hleaves⟩ := N.tree r hr
  have hnumber := N.number r hr
  have hsplit : split (joined [c]) 1 = some c :=
    split_joined (fun d hd => (List.mem_singleton.mp hd) ▸ hc) 0
  cases hlookup : N.lookup r c with
  | none =>
      rw [run_searchPath_absent T hnumber hsplit (N.leaf_of_lookup_none hr hinj hlookup hleaves),
        objectPair]
  | some o =>
      obtain ⟨l, hl, hentry, hobject, hkey, honly⟩ := N.leaf_of_lookup_some hr hinj hlookup hleaves
      have L := T.leafPage l hl
      have hne : Leaf.found leaves (pathHash c) ≠ 0 := fun h0 =>
        (Leaf.found_eq_zero_iff T.block_ne_zero).mp h0 l hl hkey
      have hfound : Leaf.found leaves (pathHash c) = UInt64.ofNat l.block := by
        obtain ⟨l', hl', hkey', hfound⟩ := Leaf.exists_of_found_ne_zero hne
        rw [hfound, honly l' hl' hkey']
      have htext : joined [c] = printCurrPath currPath c := (printCurrPath_component hshort _).symm
      by_cases hdir : l.type = fileTypeDirectory
      · obtain ⟨hr', htype⟩ := N.child r hr c l hentry hdir
        rw [Leaf.object, if_pos hdir] at hobject
        rw [run_searchPath_present T hnumber hsplit hl hfound
          (L.run_enterNode_directory hdir (N.isNode hr')), if_pos htext, ← hobject, BTreeNode.pair,
          if_pos htype, N.number _ hr', objectPair]
      · rw [Leaf.object, if_neg hdir] at hobject
        rw [run_searchPath_present T hnumber hsplit hl hfound (L.run_enterNode_file hdir),
          if_pos htext, ← hobject, L.pair_ofPage hdir, objectPair]

/-- `item_search` resolves paths of at most one name. -/
theorem run_itemSearch (hinj : N.HashInjective cs) (h : ∀ c ∈ cs, IsComponent c)
    (hshort : (joined cs).length < pathMax) :
    run disk.mapping (itemSearch disk (pathOf cs)) m =
      some (objectPair m (if cs.length ≤ 1 then N.resolve cs else none), m) := by
  have hnode := N.isNode N.root_mem
  by_cases hne : cs = []
  · subst hne
    rw [pathOf, if_pos rfl, itemSearch, run_bind_of_eq N.layout.run_superblockCopy, N.btreeRoot,
      run_bind_of_eq hnode.run_copy, if_pos rfl, run_pure,
      if_pos (show ([] : List CString).length ≤ 1 by decide), resolve, follow_nil, objectPair,
      N.number _ N.root_mem]
  · rw [pathOf, if_neg hne, run_itemSearch_joined N.layout N.btreeRoot hnode.addr hnode.type h hne]
    by_cases hone : cs.length ≤ 1
    · obtain ⟨c, rfl⟩ := List.length_eq_one_iff.mp
        (Nat.le_antisymm hone (List.length_pos_of_ne_nil hne))
      have hmem := List.mem_singleton_self c
      have hresolve : N.resolve [c] = N.lookup N.root c := by
        rw [resolve, follow_directory]
        simp only [follow_nil]
        exact Option.bind_fun_some _
      rw [if_pos hone, hresolve]
      exact N.run_searchPath_component N.root_mem (hinj c hmem _ N.root_mem) (h c hmem) hshort
    · have hcount := count_joined h
      rw [if_neg hone, objectPair]
      refine (Stands.directory N.root_mem).run_searchPath (by omega) fun j hj hlt => ?_
      obtain ⟨j, rfl⟩ := Nat.exists_eq_add_of_le' hj
      rw [split_joined h, List.getElem?_eq_getElem (by omega)]
      rfl

/-- `item_search` resolves a path if and only if it has at most one name, or leads to nothing. -/
theorem resolves_iff (hinj : N.HashInjective cs) (h : ∀ c ∈ cs, IsComponent c)
    (hshort : (joined cs).length < pathMax) :
    N.Resolves cs ↔ cs.length ≤ 1 ∨ N.resolve cs = none := by
  have hrun := N.run_itemSearch hinj h hshort
  by_cases hone : cs.length ≤ 1
  · rw [if_pos hone] at hrun
    refine iff_of_true ⟨_, hrun, fun o ho => by rw [ho], fun hzero => ?_, fun hnone => ?_⟩
      (Or.inl hone)
    · cases hresolve : N.resolve cs with
      | none => rfl
      | some o =>
          rw [hresolve] at hzero
          exact absurd hzero (N.objectPair_ne_zero (N.isObject_resolve hresolve))
    · rw [hnone, objectPair]
  · rw [if_neg hone, objectPair] at hrun
    rw [or_iff_right hone]
    constructor
    · rintro ⟨pair, hpair, -, hnone⟩
      obtain rfl := (Prod.mk.inj (Option.some.inj (hrun.symm.trans hpair))).1
      exact hnone.mp rfl
    · intro hnone
      refine ⟨_, hrun, fun o ho => ?_, iff_of_true rfl hnone⟩
      rw [hnone] at ho
      cases ho

end Namespace

/-! ## A volume with one file -/

/-- The entries of a root directory with one file in it. -/
def oneEntry (r : ℕ) (c : CString) (l : Leaf) : ℕ → CString → Option Leaf :=
  fun x d => if x = r ∧ d = c then some l else none

theorem oneEntry_eq_some {r x : ℕ} {d : CString} {l' : Leaf} (h : oneEntry r c l x d = some l') :
    d = c ∧ l' = l := by
  unfold oneEntry at h
  split at h
  · case isTrue hc => exact ⟨hc.2, (Option.some.inj h).symm⟩
  · cases h

/-- A volume with one file in the root directory. -/
def Namespace.oneFile {r : ℕ} (F : FlatShape disk m r leaves) (L : Layout disk.mapping disk m)
    (hroot : (Superblock.ofPage (m 0)).btreeRoot = UInt64.ofNat r) (c : CString)
    (hleaves : ∀ l', l' ∈ leaves ↔ l' = l) (hkey : l.key = pathHash c)
    (hfile : l.type ≠ fileTypeDirectory) (hvalue : l.value ≠ 0) : Namespace disk m where
  root := r
  directories := {r}
  entry := oneEntry r c l
  layout := L
  btreeRoot := hroot
  root_mem := rfl
  tree x hx := by
    rw [Set.mem_singleton_iff.mp hx]
    refine ⟨1, leaves, F.subtree, fun l' => (hleaves l').trans ⟨?_, ?_⟩⟩
    · rintro rfl
      exact ⟨c, if_pos ⟨rfl, rfl⟩⟩
    · rintro ⟨d, h⟩
      exact (oneEntry_eq_some h).2
  number x hx := by
    rw [Set.mem_singleton_iff.mp hx]
    exact F.root.blockNumber
  key x _ d l' h := by
    obtain ⟨rfl, rfl⟩ := oneEntry_eq_some h
    exact hkey
  child x _ d l' h hdir := by
    obtain ⟨rfl, rfl⟩ := oneEntry_eq_some h
    exact absurd hdir hfile
  file x _ d l' h _ := by
    obtain ⟨rfl, rfl⟩ := oneEntry_eq_some h
    exact hvalue

/-- On a formatted volume of 256 blocks, a root directory with the file `a` in it. -/
theorem exists_oneFile : ∃ (m : Image) (N : Namespace ⟨256, by decide⟩ m) (l : Leaf),
    l.type = fileTypeRegular ∧ N.entry = oneEntry N.root [97] l := by
  obtain ⟨m₀, -, F⟩ := run_diskFormat_blank ⟨256, by decide⟩ 0 0 0
    (show ([] : List UInt8).length ≤ 31 by decide) (blank_zero _) (by decide) (by decide)
  obtain ⟨m, T, L, hroot, -⟩ := F.exists_leaf (by decide) (pathHash [97]) 1 fileTypeRegular
  generalize hl : (⟨_, pathHash [97], 1, fileTypeRegular⟩ : Leaf) = l at T
  have htype : l.type = fileTypeRegular := by rw [← hl]
  have hvalue : l.value = 1 := by rw [← hl]
  have hleaves : ∀ l', l' ∈ insertLeaf [] l ↔ l' = l := fun l' => by
    rw [mem_insertLeaf, or_iff_left List.not_mem_nil]
  exact ⟨m, Namespace.oneFile T.toFlatShape L hroot [97] hleaves (by rw [← hl])
    (by rw [htype]; decide) (by rw [hvalue]; decide), l, htype, rfl⟩

/-- With the one name `a` in the namespace and in the path, the hash has nothing to tell apart. -/
theorem hashInjective_oneFile (N : Namespace disk m) (hentry : N.entry = oneEntry N.root [97] l)
    (h : ∀ c ∈ cs, c = [97]) : N.HashInjective cs := by
  intro c hc r _ c' l' h' _
  rw [hentry] at h'
  rw [h c hc, (oneEntry_eq_some h').1]

/-- The path `/a` is resolved. -/
theorem resolves_oneFile : ∃ (m : Image) (N : Namespace ⟨256, by decide⟩ m), N.Resolves [[97]] := by
  obtain ⟨m, N, l, -, hentry⟩ := exists_oneFile
  refine ⟨m, N, (N.resolves_iff (hashInjective_oneFile N hentry (by simp)) ?_ (by decide)).mpr
    (Or.inl le_rfl)⟩
  simp [IsComponent, slash]

/-! ## A volume with a file in a directory -/

/-- The entries of a root directory with one directory in it, which has one file. -/
def nestedEntry (r r' : ℕ) (c d : CString) (l l' : Leaf) : ℕ → CString → Option Leaf :=
  fun x e => if x = r ∧ e = c then some l else if x = r' ∧ e = d then some l' else none

theorem nestedEntry_eq_some {r r' x : ℕ} {d e : CString} {l' found : Leaf}
    (h : nestedEntry r r' c d l l' x e = some found) :
    x = r ∧ e = c ∧ found = l ∨ x = r' ∧ e = d ∧ found = l' := by
  unfold nestedEntry at h
  split_ifs at h with hc hd
  · exact Or.inl ⟨hc.1, hc.2, (Option.some.inj h).symm⟩
  · exact Or.inr ⟨hd.1, hd.2, (Option.some.inj h).symm⟩

/-- A volume with the directory `c` in the root directory and the file `d` in that. -/
def Namespace.nested {r r' : ℕ} {d : CString} {l' : Leaf} (F : FlatShape disk m r [l])
    (F' : FlatShape disk m r' [l']) (hne : r' ≠ r) (L : Layout disk.mapping disk m)
    (hroot : (Superblock.ofPage (m 0)).btreeRoot = UInt64.ofNat r) (hkey : l.key = pathHash c)
    (hdir : l.type = fileTypeDirectory) (hblock : l.value.toNat = r')
    (htype : (BTreeNode.ofPage (m r')).type = fileTypeDirectory) (hkey' : l'.key = pathHash d)
    (hfile : l'.type ≠ fileTypeDirectory) (hvalue : l'.value ≠ 0) : Namespace disk m where
  root := r
  directories := {r, r'}
  entry := nestedEntry r r' c d l l'
  layout := L
  btreeRoot := hroot
  root_mem := Or.inl rfl
  tree x hx := by
    rcases hx with rfl | rfl
    · refine ⟨1, [l], F.subtree, fun found => ?_⟩
      rw [List.mem_singleton]
      refine ⟨fun heq => ⟨c, by rw [heq, nestedEntry, if_pos ⟨rfl, rfl⟩]⟩, fun ⟨e, h⟩ => ?_⟩
      rcases nestedEntry_eq_some h with ⟨-, -, heq⟩ | ⟨hx, -⟩
      · exact heq
      · exact absurd hx.symm hne
    · refine ⟨1, [l'], F'.subtree, fun found => ?_⟩
      rw [List.mem_singleton]
      refine ⟨fun heq => ⟨d, ?_⟩, fun ⟨e, h⟩ => ?_⟩
      · rw [heq, nestedEntry, if_neg fun h => hne h.1, if_pos ⟨rfl, rfl⟩]
      · rcases nestedEntry_eq_some h with ⟨hx, -⟩ | ⟨-, -, heq⟩
        · exact absurd hx hne
        · exact heq
  number x hx := by
    rcases hx with rfl | rfl
    · exact F.root.blockNumber
    · exact F'.root.blockNumber
  key x _ e found h := by
    rcases nestedEntry_eq_some h with ⟨-, rfl, rfl⟩ | ⟨-, rfl, rfl⟩
    · exact hkey
    · exact hkey'
  child x _ e found h htype' := by
    rcases nestedEntry_eq_some h with ⟨-, rfl, rfl⟩ | ⟨-, rfl, rfl⟩
    · rw [hblock]
      exact ⟨Or.inr rfl, htype⟩
    · exact absurd htype' hfile
  file x _ e found h htype' := by
    rcases nestedEntry_eq_some h with ⟨-, rfl, rfl⟩ | ⟨-, rfl, rfl⟩
    · exact absurd hdir htype'
    · exact hvalue

/-- The root node of a directory with one entry, on block 200, and the leaf of the entry, on block
201: the file `f` with inode 3 in the directory with inode 2. -/
def nestedNodes : List BTreeNode :=
  [{ innerNode 200 1 [201] with type := fileTypeDirectory, value := 2 },
    { leafNode 201 200 (pathHash [102]) with type := fileTypeRegular, value := 3 }]

/-- Put on a volume of 256 blocks they are the tree of that directory. -/
theorem flatShape_nestedNodes (m : Image) :
    FlatShape ⟨256, by decide⟩ (putNodes m nestedNodes) 200
      [⟨201, pathHash [102], 3, fileTypeRegular⟩] := by
  have hroot : BTreeNode.ofPage (putNodes m nestedNodes 200) =
      { innerNode 200 1 [201] with type := fileTypeDirectory, value := 2 } := ofPage_putNodes rfl
  have hleaf : BTreeNode.ofPage (putNodes m nestedNodes 201) =
      { leafNode 201 200 (pathHash [102]) with type := fileTypeRegular, value := 3 } :=
    ofPage_putNodes rfl
  have hnode : IsNode (DiskInterface.mapping ⟨256, by decide⟩) (putNodes m nestedNodes) 200 :=
    isNode_putNodes rfl (by decide)
  have hnode' : IsNode (DiskInterface.mapping ⟨256, by decide⟩) (putNodes m nestedNodes) 201 :=
    isNode_putNodes rfl (by decide)
  refine ⟨by decide, by decide, hnode.type, ?_, fun l hl => ?_⟩
  · have hparent : (innerNode 200 1 [201]).parent = 0 := parent_innerNode (by decide)
    have hchild : ∀ i ≤ maxKeys, (innerNode 200 1 [201]).childAt i = [(201 : UInt64)].getD i 0 :=
      fun i hi => childAt_innerNode hi
    have hkey : ∀ i < maxKeys, (innerNode 200 1 [201]).keyAt i = 0 := fun i hi => keyAt_innerNode hi
    rw [hroot]
    refine ⟨rfl, rfl, rfl, by decide, fun i hi => (hchild i hi).trans ?_, hparent,
      fun i _ hi => hkey i hi⟩
    cases i with
    | zero => rfl
    | succ i => rfl
  · obtain rfl := List.mem_singleton.mp hl
    exact {
      pos := by decide
      lt := by decide
      type := hnode'.type
      isLeaf := by
        show (BTreeNode.ofPage (putNodes m nestedNodes 201)).isLeaf ≠ 0
        rw [hleaf]
        exact (by decide : (1 : UInt8) ≠ 0)
      blockNumber := by
        show (BTreeNode.ofPage (putNodes m nestedNodes 201)).blockNumber = _
        rw [hleaf]
        rfl
      onPage := by
        rw [Leaf.onPage, hleaf]
        rfl }

/-- On a formatted volume of 256 blocks, a root directory with the directory `d`, which has the file
`f`. -/
theorem exists_nested : ∃ (m : Image) (N : Namespace ⟨256, by decide⟩ m) (l l' : Leaf),
    N.entry = nestedEntry N.root 200 [100] [102] l l' ∧ N.root ≠ 200 ∧
    l.object = .directory 200 ∧ l'.object = .file l' := by
  obtain ⟨m₀, -, F⟩ := run_diskFormat_blank ⟨256, by decide⟩ 0 0 0
    (show ([] : List UInt8).length ≤ 31 by decide) (blank_zero _) (by decide) (by decide)
  obtain ⟨m₁, T, L, hroot, -⟩ := F.exists_leaf (by decide) (pathHash [100]) 200 fileTypeDirectory
  have hlow : ∀ b < 200, putNodes m₁ nestedNodes b = m₁ b := fun b hb => by
    have hnat : (UInt64.ofNat b).toNat = b := toNat_ofNat_block (by omega)
    refine putNodes_of_ne fun node hnode heq => ?_
    rw [← heq] at hnat
    rcases List.mem_cons.mp hnode with rfl | hnode
    · exact absurd hnat (by show ¬200 = b; omega)
    · obtain rfl := List.mem_singleton.mp hnode
      exact absurd hnat (by show ¬201 = b; omega)
  have hstart : dataStart 256 + 1 < 200 := by decide
  obtain ⟨l, hl⟩ : ∃ l : Leaf, l = ⟨dataStart 256 + 1, pathHash [100], 200, fileTypeDirectory⟩ :=
    ⟨_, rfl⟩
  have P : FlatPages ⟨256, by decide⟩ (putNodes m₁ nestedNodes) (dataStart 256) [l] := by
    rw [hl]
    exact T.toFlatPages.congr (hlow (dataStart 256) (by omega)) fun x hx => by
      rw [(mem_insertLeaf.mp hx).resolve_right List.not_mem_nil]
      exact hlow (dataStart 256 + 1) hstart
  have h0 := hlow 0 (by decide)
  have L' : Layout (DiskInterface.mapping ⟨256, by decide⟩) ⟨256, by decide⟩
      (putNodes m₁ nestedNodes) := L.congr (by rw [h0]) (by rw [h0]) fun b hb => by
    have hb : b < dataStart 256 := hb
    rw [hlow b (by omega)]
  have hpage : BTreeNode.ofPage (putNodes m₁ nestedNodes 200) =
      { innerNode 200 1 [201] with type := fileTypeDirectory, value := 2 } := ofPage_putNodes rfl
  have hdirectory : (BTreeNode.ofPage (putNodes m₁ nestedNodes 200)).type = fileTypeDirectory := by
    rw [hpage]
  have hroot' : (Superblock.ofPage (putNodes m₁ nestedNodes 0)).btreeRoot =
      UInt64.ofNat (dataStart 256) := by
    rw [h0]
    exact hroot
  refine ⟨_, Namespace.nested (c := [100]) (d := [102]) P.toFlatShape (flatShape_nestedNodes m₁)
    (show 200 ≠ dataStart 256 by decide) L' hroot' (by rw [hl]) (by rw [hl]) (by rw [hl]; rfl)
    hdirectory rfl (show fileTypeRegular ≠ fileTypeDirectory by decide)
    (show (3 : UInt64) ≠ 0 by decide), l, _, rfl, show dataStart 256 ≠ 200 by decide, ?_, rfl⟩
  rw [hl, Leaf.object, if_pos rfl]
  rfl

/-- The path `/d/f` leads to a file, and `item_search` returns nothing. -/
theorem not_resolves_nested : ∃ (m : Image) (N : Namespace ⟨256, by decide⟩ m) (l : Leaf),
    N.HashInjective [[100], [102]] ∧ N.resolve [[100], [102]] = some (.file l) ∧
    run (DiskInterface.mapping ⟨256, by decide⟩) (itemSearch ⟨256, by decide⟩ (pathOf [[100], [102]])) m =
      some (⟨0, 0⟩, m) ∧ ¬N.Resolves [[100], [102]] := by
  obtain ⟨m, N, l, l', hentry, hne, hdir, hfile⟩ := exists_nested
  have hinj : N.HashInjective [[100], [102]] := by
    have hhash : pathHash [100] ≠ pathHash [102] := by decide
    intro c hc r _ c' found h' heq
    rw [hentry] at h'
    have hc' : c' = [100] ∨ c' = [102] :=
      (nestedEntry_eq_some h').imp (fun h => h.2.1) fun h => h.2.1
    rcases List.mem_pair.mp hc with rfl | rfl <;> rcases hc' with rfl | rfl
    · rfl
    · exact absurd heq.symm hhash
    · exact absurd heq hhash
    · rfl
  have hresolve : N.resolve [[100], [102]] = some (.file l') := by
    have hd : N.lookup N.root [100] = some (.directory 200) := by
      rw [Namespace.lookup, hentry, nestedEntry, if_pos ⟨rfl, rfl⟩, Option.map_some, hdir]
    have hf : N.lookup 200 [102] = some (.file l') := by
      rw [Namespace.lookup, hentry, nestedEntry, if_neg fun h => hne h.1.symm, if_pos ⟨rfl, rfl⟩,
        Option.map_some, hfile]
    rw [Namespace.resolve, follow_directory, hd, Option.bind_some, follow_directory, hf,
      Option.bind_some, follow_nil]
  have hrun := N.run_itemSearch hinj (by simp [IsComponent, slash]) (by decide)
  refine ⟨m, N, l', hinj, hresolve, hrun, ?_⟩
  rintro ⟨pair, hpair, -, hzero⟩
  obtain rfl := (Prod.mk.inj (Option.some.inj (hrun.symm.trans hpair))).1
  rw [hzero.mp rfl] at hresolve
  cases hresolve

end Nbtrfs
