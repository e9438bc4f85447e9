import Mathlib.Data.List.TakeWhile
import Nbtrfs.Btr.Search
import Nbtrfs.Lib.Footprint
import Nbtrfs.InodeTable

/-!
# Paths

Reference: `string.c`, `hash.c`.

A C string is the list of its bytes before the NUL. `item_search` follows a path component by
component: each one is looked up by its hash in the B-tree of the directory reached so far. The text
that it compares with the path is printed from the last component alone, so it finds no path of two
components or more.
-/

namespace Nbtrfs

open BlockProg

/-- A NUL-terminated string, without the NUL. -/
abbrev CString := List UInt8

/-- `'/'` -/
def slash : UInt8 := 47

/-- `PATH_MAX` -/
abbrev pathMax : ℕ := 4096

/-- `FILE_TYPE_REGULAR`, which is `S_IFREG`. -/
def fileTypeRegular : UInt32 := 0o100000

/-- `FILE_TYPE_DIRECTORY`, which is `S_IFDIR`. -/
def fileTypeDirectory : UInt32 := 0o40000

/-- `count_l` -/
def countL (path : CString) : ℕ := if path.length = 1 then 0 else path.count slash

/-- The index that the loop of `parent_path` stops at, from index `end` on backwards. -/
def lastSlash (path : CString) : ℕ → ℕ
  | 0 => 0
  | e + 1 => if path[e + 1]? = some slash then e + 1 else lastSlash path e

/-- `parent_path` -/
def parentPath (path : CString) (l : ℕ) : CString :=
  if l ≤ 1 then [slash]
  else
    let e := lastSlash path (path.length - 1)
    if e = 0 then [slash] else path.take e

/-- `get_name`: what follows the last slash. -/
def getName (path : CString) : CString := (path.reverse.takeWhile (· ≠ slash)).reverse

/-- `split`: the `n`-th component; `none` is `NULL`. -/
def split (path : CString) : ℕ → Option CString
  | 0 => none
  | n + 1 =>
      let start := path.dropWhile (· = slash)
      if start = [] then none
      else if n = 0 then some (start.takeWhile (· ≠ slash))
      else split (start.dropWhile (· ≠ slash)) n

/-- `path_hash` -/
def pathHash (path : CString) : UInt64 :=
  path.foldl (fun hash c => (hash ^^^ c.toUInt64) * 0x100000001b3) 0xcbf29ce484222325

/-- `InodeBtreePair` -/
structure InodeBtreePair where
  inodeNumber : UInt64
  btreeBlock : UInt64
deriving DecidableEq, Repr

/-- The object that one step of `item_search` arrives at: the leaf, or for a directory the root node
of its B-tree. `none` leaves the function. -/
def enterNode (node : BTreeNode) : BlockProg (Option BTreeNode) :=
  if node.type = fileTypeDirectory then btreeNodeRead node.value else pure (some node)

/-- The pair that `item_search` returns for the object of the whole path. -/
def BTreeNode.pair (node : BTreeNode) : InodeBtreePair where
  inodeNumber := node.value
  btreeBlock := if node.type = fileTypeDirectory then node.blockNumber else 0

/-- `snprintf(curr_path, sizeof(curr_path), "%s/%s", curr_path, token)`. The destination is its own
first argument, which C leaves undefined. glibc ends the destination at its first byte before it
formats, so that of the text before the first 0 bytes are copied. -/
def printCurrPath (currPath token : CString) : CString :=
  (currPath.take 0 ++ slash :: token).take (pathMax - 1)

/-- The loop of `item_search` from component `i` on, `n` of them left. -/
def searchPath (disk : DiskInterface) (path : CString) :
    ℕ → ℕ → BTreeNode → CString → BlockProg InodeBtreePair
  | 0, _, _, _ => pure ⟨0, 0⟩
  | n + 1, i, node, currPath =>
      match split path i with
      | none => crash
      | some token => do
          let nodeBlock ← btreeSearch disk node.blockNumber (pathHash token)
          if nodeBlock = 0 then pure ⟨0, 0⟩
          else do
            let currPath := printCurrPath currPath token
            let leaf ← btreeNodeRead nodeBlock
            match ← enterNode (leaf.getD node) with
            | none => pure ⟨0, 0⟩
            | some node =>
                if path = currPath then pure node.pair
                else searchPath disk path n (i + 1) node currPath

/-- `item_search`; the pair is `(0, 0)` when the path is not found. -/
def itemSearch (disk : DiskInterface) (path : CString) : BlockProg InodeBtreePair := do
  let sb ← superblockCopy
  let node ← btreeNodeCopy sb.btreeRoot
  if path = [slash] then pure ⟨node.value, node.blockNumber⟩
  else searchPath disk path (countL path) 1 node []

/-! ## Absolute paths -/

/-- A name that can stand between two slashes. -/
def IsComponent (c : CString) : Prop := c ≠ [] ∧ slash ∉ c

/-- `/c1/.../cn` -/
def joined (cs : List CString) : CString := cs.flatMap fun c => slash :: c

theorem joined_cons (c : CString) (cs : List CString) : joined (c :: cs) = slash :: c ++ joined cs :=
  rfl

theorem joined_append (cs ds : List CString) : joined (cs ++ ds) = joined cs ++ joined ds :=
  List.flatMap_append

theorem joined_eq_nil_or (cs : List CString) : joined cs = [] ∨ ∃ t, joined cs = slash :: t := by
  cases cs with
  | nil => exact Or.inl rfl
  | cons c cs => exact Or.inr ⟨c ++ joined cs, rfl⟩

theorem count_joined {cs : List CString} (h : ∀ c ∈ cs, IsComponent c) :
    (joined cs).count slash = cs.length := by
  induction cs with
  | nil => rfl
  | cons c cs ih =>
      rw [joined_cons, List.count_append, List.count_cons_self,
        List.count_eq_zero.mpr (h c List.mem_cons_self).2,
        ih fun d hd => h d (List.mem_cons_of_mem _ hd), List.length_cons, Nat.zero_add,
        Nat.add_comm]

/-- `count_l` counts the components. -/
theorem countL_joined {cs : List CString} (h : ∀ c ∈ cs, IsComponent c) :
    countL (joined cs) = cs.length := by
  rw [countL, if_neg, count_joined h]
  cases cs with
  | nil => decide
  | cons c cs =>
      have hne := List.length_pos_of_ne_nil (h c List.mem_cons_self).1
      rw [joined_cons, List.length_append, List.length_cons]
      omega

section Component

variable {c : CString} (hc : IsComponent c)
include hc

theorem IsComponent.takeWhile_eq {rest : CString} (hrest : rest = [] ∨ ∃ t, rest = slash :: t) :
    (c ++ rest).takeWhile (· ≠ slash) = c := by
  rw [List.takeWhile_append_of_pos fun x hx => by
    simpa using fun h : x = slash => hc.2 (h ▸ hx)]
  obtain rfl | ⟨t, rfl⟩ := hrest <;> simp

theorem IsComponent.dropWhile_eq {rest : CString} (hrest : rest = [] ∨ ∃ t, rest = slash :: t) :
    (c ++ rest).dropWhile (· ≠ slash) = rest := by
  rw [List.dropWhile_append_of_pos fun x hx => by
    simpa using fun h : x = slash => hc.2 (h ▸ hx)]
  obtain rfl | ⟨t, rfl⟩ := hrest <;> simp

theorem IsComponent.dropWhile_slash (rest : CString) :
    (slash :: c ++ rest).dropWhile (· = slash) = c ++ rest := by
  obtain ⟨hne, hslash⟩ := hc
  cases c with
  | nil => exact absurd rfl hne
  | cons x c =>
      have hx : x ≠ slash := fun h => hslash (h ▸ List.mem_cons_self)
      simp [hx]

end Component

/-- `split` finds the components. -/
theorem split_joined {cs : List CString} (h : ∀ c ∈ cs, IsComponent c) (n : ℕ) :
    split (joined cs) (n + 1) = cs[n]? := by
  induction cs generalizing n with
  | nil => rfl
  | cons c cs ih =>
      have hc := h c List.mem_cons_self
      have hrest := joined_eq_nil_or cs
      have hne : c ++ joined cs ≠ [] := fun h0 => hc.1 (List.append_eq_nil_iff.mp h0).1
      rw [split, joined_cons]
      simp only [hc.dropWhile_slash, hc.takeWhile_eq hrest, hc.dropWhile_eq hrest, if_neg hne]
      cases n with
      | zero => rfl
      | succ n => exact ih (fun d hd => h d (List.mem_cons_of_mem _ hd)) n

/-! ## Paths of two components and more -/

/-- A component of a path has no slash in it. -/
theorem slash_notMem_of_split {path token : CString} {n : ℕ} (h : split path n = some token) :
    slash ∉ token := by
  induction n generalizing path with
  | zero => cases h
  | succ n ih =>
      rw [split] at h
      split_ifs at h with hend hlast
      · obtain rfl := Option.some.inj h
        exact fun hmem => by simpa using List.mem_takeWhile_imp hmem
      · exact ih h

/-- What is printed is the last component, behind one slash. -/
theorem printCurrPath_eq (currPath token : CString) :
    printCurrPath currPath token = (slash :: token).take (pathMax - 1) := rfl

/-- For the first component that is the path itself. -/
theorem printCurrPath_component {c : CString} (hshort : (joined [c]).length < pathMax)
    (currPath : CString) : printCurrPath currPath c = joined [c] := by
  have htext : joined [c] = slash :: c := by rw [joined_cons, joined, List.flatMap_nil, List.append_nil]
  rw [printCurrPath_eq, htext]
  rw [htext] at hshort
  exact List.take_of_length_le (by omega)

theorem count_printCurrPath_le {currPath token : CString} (h : slash ∉ token) :
    (printCurrPath currPath token).count slash ≤ 1 := by
  have htext : (slash :: token).count slash = 1 := by
    rw [List.count_cons_self, List.count_eq_zero.mpr h]
  rw [printCurrPath_eq, ← htext]
  exact (List.take_sublist _ _).count_le slash

section Nested

variable {M : Mapping} {m m' : Image} {disk : DiskInterface} {path : CString} {pair : InodeBtreePair}

/-- The search for a path with two slashes never comes to its end: what was printed has one. -/
theorem eq_zero_of_run_searchPath (hslashes : 2 ≤ path.count slash) {n i : ℕ} {node : BTreeNode}
    {currPath : CString}
    (hrun : run M (searchPath disk path n i node currPath) m = some (pair, m')) :
    pair = ⟨0, 0⟩ := by
  induction n generalizing i node currPath m with
  | zero =>
      rw [searchPath, run_pure] at hrun
      exact (Prod.mk.inj (Option.some.inj hrun)).1.symm
  | succ n ih =>
      have hnone {m₁ : Image} (h : run M (pure ⟨0, 0⟩ : BlockProg InodeBtreePair) m₁ =
          some (pair, m')) : pair = ⟨0, 0⟩ := by
        rw [run_pure] at h
        exact (Prod.mk.inj (Option.some.inj h)).1.symm
      rw [searchPath] at hrun
      cases hsplit : split path i with
      | none =>
          rw [hsplit] at hrun
          cases hrun
      | some token =>
          rw [hsplit] at hrun
          obtain ⟨nodeBlock, m₁, -, hrun⟩ := run_bind_eq_some.mp hrun
          split_ifs at hrun
          · exact hnone hrun
          · obtain ⟨leaf, m₂, -, hrun⟩ := run_bind_eq_some.mp hrun
            obtain ⟨entered, m₃, -, hrun⟩ := run_bind_eq_some.mp hrun
            cases entered with
            | none => exact hnone hrun
            | some next =>
                have hone : (printCurrPath currPath token).count slash ≤ 1 :=
                  count_printCurrPath_le (slash_notMem_of_split hsplit)
                have hne : path ≠ printCurrPath currPath token := by
                  intro heq
                  rw [heq] at hslashes
                  omega
                simp only at hrun
                rw [if_neg hne] at hrun
                exact ih hrun

/-- `item_search` returns nothing for a path with two slashes, whatever the volume holds. -/
theorem eq_zero_of_run_itemSearch (hslashes : 2 ≤ path.count slash)
    (hrun : run M (itemSearch disk path) m = some (pair, m')) : pair = ⟨0, 0⟩ := by
  have hne : path ≠ [slash] := by
    rintro rfl
    exact absurd hslashes (by decide)
  rw [itemSearch] at hrun
  obtain ⟨sb, m₁, -, hrun⟩ := run_bind_eq_some.mp hrun
  obtain ⟨node, m₂, -, hrun⟩ := run_bind_eq_some.mp hrun
  rw [if_neg hne] at hrun
  exact eq_zero_of_run_searchPath hslashes hrun

end Nested

/-! ## What a lookup depends on -/

/-- Two pages that a lookup cannot tell apart: the types agree, nodes are equal, and superblocks name
the same root. -/
structure LooksAlike (pg pg' : Bytes) : Prop where
  type : blockType pg' = blockType pg
  node : blockType pg = BlockType.btreeNode.code → pg' = pg
  root : blockType pg = BlockType.super.code →
    (Superblock.ofPage pg').btreeRoot = (Superblock.ofPage pg).btreeRoot

theorem LooksAlike.refl (pg : Bytes) : LooksAlike pg pg := ⟨rfl, fun _ => rfl, fun _ => rfl⟩

/-- A page that is neither a node nor a superblock may change behind its type. -/
theorem LooksAlike.of_type {pg pg' : Bytes} {t : BlockType} (ht : blockType pg = t.code)
    (ht' : blockType pg' = t.code) (hnode : t ≠ .btreeNode) (hsuper : t ≠ .super) :
    LooksAlike pg pg' where
  type := by rw [ht, ht']
  node h := absurd (BlockType.code_injective (ht.symm.trans h)) hnode
  root h := absurd (BlockType.code_injective (ht.symm.trans h)) hsuper

section Blind

variable {M : Mapping} (disk : DiskInterface)

theorem blind_btreeNodeRead (block : UInt64) : Blind M LooksAlike (btreeNodeRead block) := by
  refine Blind.fetch_bind (Blind.page_bind (fun pg => ?_) fun pg pg' h => ?_)
  · exact Blind.ite (Blind.pure _) (Blind.pure _)
  · by_cases htype : blockType pg = BlockType.btreeNode.code
    · rw [h.node htype]
    · rw [if_pos (by rwa [h.type]), if_pos htype]

theorem blind_btreeNodeCopy (block : UInt64) : Blind M LooksAlike (btreeNodeCopy block) := by
  refine Blind.bind LooksAlike.refl (blind_btreeNodeRead block) fun node => ?_
  cases node with
  | none => exact Blind.crash
  | some node => exact Blind.pure node

/-- The search through the children cannot tell images that look alike, if the search below each of
them cannot. -/
theorem blind_searchChildren {search : UInt64 → BlockProg UInt64}
    (hsearch : ∀ child, Blind M LooksAlike (search child)) (node : BTreeNode) (n i : ℕ) :
    Blind M LooksAlike (searchChildren search node n i) := by
  induction n generalizing i with
  | zero => exact Blind.pure 0
  | succ n ih =>
      rw [searchChildren]
      refine Blind.bind LooksAlike.refl (Blind.ite (Blind.pure _) Blind.crash) fun _ => ?_
      refine Blind.ite (Blind.bind LooksAlike.refl (hsearch _) fun rv => ?_) (ih (i + 1))
      exact Blind.ite (Blind.pure rv) (ih (i + 1))

theorem blind_searchFrom (fuel : ℕ) (block key : UInt64) :
    Blind M LooksAlike (searchFrom fuel block key) := by
  induction fuel generalizing block with
  | zero => exact Blind.crash
  | succ fuel ih =>
      rw [searchFrom]
      refine Blind.bind LooksAlike.refl (blind_btreeNodeCopy block) fun node => ?_
      exact Blind.ite (Blind.ite (Blind.pure _) (Blind.pure _))
        (blind_searchChildren (fun child => ih child) node _ _)

/-- The lookup of a path cannot tell images that look alike. -/
theorem blind_searchPath (path : CString) (n i : ℕ) (node : BTreeNode) (currPath : CString) :
    Blind M LooksAlike (searchPath disk path n i node currPath) := by
  induction n generalizing i node currPath with
  | zero => exact Blind.pure _
  | succ n ih =>
      rw [searchPath]
      cases split path i with
      | none => exact Blind.crash
      | some token =>
          refine Blind.bind LooksAlike.refl (blind_searchFrom _ _ _) fun nodeBlock => ?_
          refine Blind.ite (Blind.pure _) ?_
          refine Blind.bind LooksAlike.refl (blind_btreeNodeRead _) fun leaf => ?_
          refine Blind.bind LooksAlike.refl
            (Blind.ite (blind_btreeNodeRead _) (Blind.pure _)) fun entered => ?_
          cases entered with
          | none => exact Blind.pure _
          | some node => exact Blind.ite (Blind.pure _) (ih _ _ _)

/-- `superblock_read` through block 0, wherever that lies. -/
private theorem run_superblockCopy_at {m : Image} {b : ℕ} (haddr : M.addr 0 = some b) :
    run M superblockCopy m = if blockType (m b) = BlockType.super.code then
      some (Superblock.ofPage (m b), m) else none := by
  rw [superblockCopy, superblockRead, run_bind, run_bind_of_eq (run_fetch _ _),
    run_bind_of_eq (run_page haddr)]
  by_cases htype : blockType (m b) = BlockType.super.code
  · rw [if_neg (not_not.mpr htype), if_pos htype]
    rfl
  · rw [if_pos htype, if_neg htype]
    rfl

/-- A sequence that goes on with the root that the superblock names. -/
theorem blind_superblockRoot {α : Type} (f : UInt64 → BlockProg α)
    (hf : ∀ root, Blind M LooksAlike (f root)) :
    Blind M LooksAlike (superblockCopy >>= fun sb => f sb.btreeRoot) := by
  intro K m m' hrel hin
  obtain ⟨hread, hrest⟩ := within_bind.mp hin
  cases haddr : M.addr 0 with
  | none =>
      have hnone (i : Image) : run M superblockCopy i = none := by
        rw [superblockCopy, superblockRead]
        apply run_bind_of_none
        rw [run_bind_of_eq (run_fetch _ _)]
        exact run_bind_of_none (run_page_of_none haddr)
      rw [run_bind_of_none (hnone m), run_bind_of_none (hnone m')]
      rfl
  | some b =>
      have hb : K b := (hread b haddr).1
      have hlike := hrel b hb
      have hrun := run_superblockCopy_at (m := m) haddr
      have hrun' := run_superblockCopy_at (m := m') haddr
      rw [hlike.type] at hrun'
      by_cases htype : blockType (m b) = BlockType.super.code
      · rw [if_pos htype] at hrun hrun'
        rw [run_bind_of_eq hrun, run_bind_of_eq hrun', hlike.root htype]
        exact hf _ K m m' hrel (hrest _ _ hrun)
      · rw [if_neg htype] at hrun hrun'
        rw [run_bind_of_none hrun, run_bind_of_none hrun']
        rfl

theorem blind_itemSearch (path : CString) : Blind M LooksAlike (itemSearch disk path) := by
  refine blind_superblockRoot (fun root => btreeNodeCopy root >>= fun node =>
    if path = [slash] then pure ⟨node.value, node.blockNumber⟩
    else searchPath disk path (countL path) 1 node []) fun root => ?_
  refine Blind.bind LooksAlike.refl (blind_btreeNodeCopy root) fun node => ?_
  exact Blind.ite (Blind.pure _) (blind_searchPath disk path _ _ _ _)

end Blind

end Nbtrfs
