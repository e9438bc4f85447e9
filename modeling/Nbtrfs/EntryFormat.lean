import Nbtrfs.AddEntry

/-!
# The format of a directory entry

Reference: `directory.h::DirEntry`, `directory.c`.

The name of an entry is an array of 255 bytes, and the flag follows directly. `strcpy` writes the end
of a name of 255 bytes into the flag, which is set afterwards: such a name has no end in the entry.
-/

namespace Nbtrfs

open BlockProg Bytes

variable {disk : DiskInterface} {m m' m₁ : Image} {path name : CString} {pair : InodeBtreePair}
  {host : Host} {inum target : UInt64} {type : UInt32} {blocks blocks₁ : List ℕ}
  {b c e f i j n o t : ℕ} {pg new : Bytes} {header : Bool} {limit count number passed : UInt16}

/-! ## One entry -/

/-- A name that the VFS may pass: 1 to `NAME_MAX` bytes, none of them NUL or a slash. -/
structure LegalName (name : CString) : Prop where
  pos : 0 < name.length
  le : name.length ≤ nameMax
  zero : (0 : UInt8) ∉ name
  slash : slash ∉ name

/-- What is read at the name of an entry as a C string: the flag follows the array. -/
def DirEntry.cString (entry : DirEntry) : CString :=
  (entry.name ++ [if entry.active then 1 else 0]).takeWhile (· ≠ 0)

theorem newFile_name (hi : i ≤ name.length) (hlt : i < nameMax) :
    newFile host name target (16 + i) = name.getD i 0 := by
  have hmax : nameMax = 255 := rfl
  rw [newFile, store8_apply_ne (by omega), copyIn_apply (by omega)]

theorem newFile_active : newFile host name target 271 = 1 := store8_same _ _ _

theorem load64_newFile : load64 (newFile host name target) 0 = target := by
  rw [newFile, load64_store8_ne (by omega), load64_copyIn_ne (by omega), load64_store64_same]

/-- The page holds the entry `new` at offset `e`; the pointer to a subtree aside. -/
def HoldsEntry (pg : Bytes) (e : ℕ) (new : Bytes) : Prop :=
  ∀ i < sizeofDirEntry, i < 8 ∨ 16 ≤ i → pg (e + i) = new i

namespace HoldsEntry

variable (h : HoldsEntry pg e (newFile host name target))
include h

theorem active : entryActive pg e = true := by
  rw [entryActive, h 271 (by decide) (by decide), newFile_active]
  rfl

theorem inodeNumber : (DirEntry.ofPage pg e).inodeNumber = target := by
  have hsize : sizeofDirEntry = 272 := rfl
  have hload : load64 pg e = load64 (newFile host name target) 0 :=
    load64_congr fun i hi => by rw [h i (by omega) (by omega), Nat.zero_add]
  exact hload.trans load64_newFile

theorem nameByte (hi : i < nameMax) : pg (e + 16 + i) = newFile host name target (16 + i) := by
  have hmax : nameMax = 255 := rfl
  have hsize : sizeofDirEntry = 272 := rfl
  rw [Nat.add_assoc, h (16 + i) (by omega) (by omega)]

/-- The bytes of the name. -/
theorem nameBytes (hlen : name.length ≤ nameMax) :
    (List.range name.length).map (fun i => pg (e + 16 + i)) = name := by
  apply List.ext_getElem
  · rw [List.length_map, List.length_range]
  · intro i hi hi'
    rw [List.getElem_map, List.getElem_range, h.nameByte (by omega),
      newFile_name (by omega) (by omega), List.getD_eq_getElem?_getD, List.getElem?_eq_getElem hi',
      Option.getD_some]

/-- A shorter name is read back. -/
theorem cString_of_lt (hname : (0 : UInt8) ∉ name) (hlen : name.length < nameMax) :
    (DirEntry.ofPage pg e).cString = name := by
  obtain ⟨d, hd⟩ := Nat.exists_eq_add_of_lt hlen
  have hend : pg (e + 16 + name.length) = 0 := by
    rw [h.nameByte hlen, newFile_name le_rfl hlen, List.getD_eq_getElem?_getD,
      List.getElem?_eq_none le_rfl, Option.getD_none]
  have harray : (DirEntry.ofPage pg e).name =
      name ++ 0 :: (List.range' (name.length + 1) d).map fun i => pg (e + 16 + i) := by
    have hrange : List.range nameMax =
        List.range name.length ++ name.length :: List.range' (name.length + 1) d := by
      rw [hd, List.range_eq_range', List.range_eq_range', Nat.add_assoc, ← List.range'_append_1,
        Nat.zero_add, List.range'_succ]
    show (List.range nameMax).map (fun i => pg (e + 16 + i)) = _
    rw [hrange, List.map_append, h.nameBytes hlen.le, List.map_cons, hend]
  rw [DirEntry.cString, harray, List.append_assoc, List.takeWhile_append_of_pos, List.cons_append,
    List.takeWhile_cons_of_neg (by simp), List.append_nil]
  intro a ha
  exact decide_eq_true fun hzero => hname (hzero ▸ ha)

/-- A name that fills the array is read back with the flag behind it. -/
theorem cString_of_eq (hname : (0 : UInt8) ∉ name) (hlen : name.length = nameMax) :
    (DirEntry.ofPage pg e).cString = name ++ [1] := by
  have harray : (DirEntry.ofPage pg e).name = name := by
    show (List.range nameMax).map (fun i => pg (e + 16 + i)) = _
    rw [← hlen, h.nameBytes hlen.le]
  have hactive : (DirEntry.ofPage pg e).active = true := h.active
  rw [DirEntry.cString, harray, hactive, List.takeWhile_append_of_pos]
  · rfl
  · intro a ha
    exact decide_eq_true fun hzero => hname (hzero ▸ ha)

/-- A legal name is read back unless it fills the array. -/
theorem cString_iff (hname : LegalName name) :
    (DirEntry.ofPage pg e).cString = name ↔ name.length < nameMax := by
  refine ⟨fun hstring => ?_, h.cString_of_lt hname.zero⟩
  by_contra hlong
  rw [h.cString_of_eq hname.zero (Nat.le_antisymm hname.le (Nat.le_of_not_lt hlong))] at hstring
  have hlen := congrArg List.length hstring
  rw [List.length_append, List.length_singleton] at hlen
  omega

/-- `strcmp` with the same name. -/
theorem named (hlen : name.length < nameMax) : entryNamed pg e name = true := by
  rw [entryNamed, List.all_eq_true]
  intro i hi
  have hi := List.mem_range.mp hi
  rw [h.nameByte (by omega), newFile_name (by omega) (by omega)]
  exact decide_eq_true rfl

end HoldsEntry

/-! ## Storing the entry -/

theorem keepsRest_newDirectoryRoot (target : UInt64) :
    KeepsRest disk (newDirectoryRoot disk target) m fun _ _ => True := by
  refine Guarantees.bind (keepsRest_btreeNodeCreate false) fun p _ _ hp => ?_
  refine Guarantees.ite (fun _ => Guarantees.crash) fun hne => ?_
  refine Guarantees.bind (keepsRest_editNode _ (hp hne)) fun _ _ _ _ => ?_
  refine (readsOnly_nodeAt p).bind fun _ => ?_
  exact Guarantees.bind (keepsRest_btreeNodeWrite _) fun _ _ _ _ => Guarantees.pure trivial

/-- Entering the object in the B-tree changes nodes only, and of `new_file` the pointer to a subtree. -/
theorem keepsRest_enterTree (new : Bytes) :
    KeepsRest disk (enterTree disk pair name target type new) m fun new' _ =>
      ∀ o, o < 8 ∨ 16 ≤ o → new' o = new o := by
  refine Guarantees.ite (fun _ => ?_) fun _ => ?_
  · refine Guarantees.bind (keepsRest_newDirectoryRoot target) fun p _ _ _ => ?_
    refine Guarantees.bind (keepsRest_btreeInsert _ _ _ _) fun _ _ _ _ => ?_
    exact Guarantees.pure fun o ho => store64_apply_ne (by omega)
  · exact Guarantees.bind (keepsRest_btreeInsert _ _ _ _) fun _ _ _ _ =>
      Guarantees.pure fun _ _ => rfl

/-- From `m₁` to `m'` slot `j` of block number `t` took the entry, and the header became `count`. -/
structure Stored (disk : DiskInterface) (m₁ m' : Image) (inum : UInt64) (blocks₁ : List ℕ) (t j : ℕ)
    (count : UInt16) (new : Bytes) : Prop where
  dir : EntryBlocks disk m' inum blocks₁
  entry : ∀ b, blocks₁[t]? = some b → HoldsEntry (m' b) (entryAt (t = 0) j) new
  header : ∀ b, blocks₁[0]? = some b → entryCount (m' b) = count
  rest : ∀ b, dataStart disk.totalBlocks.toNat ≤ b → b < disk.totalBlocks.toNat →
    blockBit m₁ b = true → blockType (m₁ b) ≠ BlockType.btreeNode.code →
    ∀ o, (blocks₁[t]? = some b → o < entryAt (t = 0) j ∨ entryAt (t = 0) j + sizeofDirEntry ≤ o) →
      (blocks₁[0]? = some b → o ≠ 4 ∧ o ≠ 5) → m' b o = m₁ b o

theorem setEntryCount_apply (h : o ≠ 4 ∧ o ≠ 5) : setEntryCount count pg o = pg o :=
  store16_apply_ne (by omega)

theorem entryCount_setEntryCount : entryCount (setEntryCount count pg) = count :=
  load16_store16_same _ _ _

theorem entryAt_ge (header : Bool) (j : ℕ) : 4 ≤ entryAt header j := by
  rw [entryAt]
  omega

theorem entryAt_true_ge (j : ℕ) : 6 ≤ entryAt true j := by
  rw [entryAt, if_pos rfl]
  omega

/-- The image once the entry `new` is in slot `j` of block number `t` and the header has `count`. -/
def storedImage (m : Image) (first b e : ℕ) (count : UInt16) (new : Bytes) : Image :=
  let m := Function.update m b (copyIn (m b) e sizeofDirEntry new)
  Function.update m first (setEntryCount count (m first))

/-- Storing an entry changes its slot and the header count, and nothing else. -/
theorem storedImage_apply {first : ℕ} (hb : c = b → o < e ∨ e + sizeofDirEntry ≤ o)
    (hfirst : c = first → o ≠ 4 ∧ o ≠ 5) :
    storedImage m first b e count new c o = m c o := by
  have hentry : Function.update m b (copyIn (m b) e sizeofDirEntry new) c o = m c o := by
    by_cases hcb : c = b
    · subst hcb
      rw [Function.update_self, copyIn_apply_ne (hb rfl)]
    · rw [Function.update_of_ne hcb]
  rw [storedImage]
  by_cases hcf : c = first
  · subst hcf
    rw [Function.update_self, setEntryCount_apply (hfirst rfl), hentry]
  · rw [Function.update_of_ne hcf, hentry]

/-- The slot holds the new entry. -/
theorem storedImage_entry {first : ℕ} (hi : i < sizeofDirEntry)
    (hfirst : b = first → e + i ≠ 4 ∧ e + i ≠ 5) :
    storedImage m first b e count new b (e + i) = new i := by
  have hentry : Function.update m b (copyIn (m b) e sizeofDirEntry new) b (e + i) = new i := by
    rw [Function.update_self, copyIn_apply hi]
  rw [storedImage]
  by_cases hbf : b = first
  · subst hbf
    rw [Function.update_self, setEntryCount_apply (hfirst rfl), hentry]
  · rw [Function.update_of_ne hbf, hentry]

namespace EntryBlocks

/-- The directory keeps its blocks. -/
theorem storedImage (E : EntryBlocks disk m inum blocks) {first : ℕ} (hfirst : first ∈ blocks)
    (hb : b ∈ blocks) (he : 4 ≤ e) :
    EntryBlocks disk (storedImage m first b e count new) inum blocks := by
  have htype : blockType (copyIn (m b) e sizeofDirEntry new) = BlockType.data.code := by
    rw [← E.type b hb]
    exact blockType_congr fun o ho => copyIn_apply_ne (Or.inl (by omega))
  have E₁ := E.update hb htype
  refine E₁.update hfirst ?_
  rw [← E₁.type first hfirst]
  exact blockType_congr fun o ho => setEntryCount_apply (by omega)

/-- The number of entries is stored in the first block. -/
theorem run_writeEntryCount (E : EntryBlocks disk m pair.inodeNumber blocks) {first : ℕ}
    (hfirst : blocks[0]? = some first) (block : UInt64) :
    run disk.mapping (writeEntryCount pair (inodeAt disk m pair.inodeNumber.toNat) block count) m =
      some (UInt64.ofNat first, Function.update m first (setEntryCount count (m first))) := by
  obtain ⟨rv, hget⟩ := E.run_getBlock_of_mem hfirst
  have hzero : UInt64.ofNat 0 = 0 := rfl
  rw [hzero] at hget
  rw [writeEntryCount, run_bind_of_eq hget]
  simp only [Option.getD_some]
  rw [run_bind_of_eq (run_fetch _ _),
    run_bind_of_eq (run_modify _ (E.addr (List.mem_of_getElem? hfirst))),
    run_bind_of_eq (run_writeBack _ _), run_pure]

/-- A run that gets past the B-tree stores the entry and the header. -/
theorem run_storeEntry (E : EntryBlocks disk m₁ pair.inodeNumber blocks₁) (hb : blocks₁[t]? = some b)
    {first : ℕ} (hfirst : blocks₁[0]? = some first) {m₂ : Image}
    (E₂ : EntryBlocks disk m₂ pair.inodeNumber blocks₁) (hrel : NodesOnly disk m₁ m₂)
    (henter : run disk.mapping (enterTree disk pair name target type (newFile host name target)) m₁ =
      some (new, m₂)) :
    run disk.mapping (storeEntry disk host pair name target type
        (inodeAt disk m₁ pair.inodeNumber.toNat) (UInt64.ofNat b) (t = 0) j number) m₁ =
      some (0, Nbtrfs.storedImage m₂ first b (entryAt (t = 0) j) (number + 1) new) := by
  have hmem : b ∈ blocks₁ := List.mem_of_getElem? hb
  obtain ⟨m₃, hm₃⟩ : ∃ m₃, m₃ = Function.update m₂ b
    (copyIn (m₂ b) (entryAt (t = 0) j) sizeofDirEntry new) := ⟨_, rfl⟩
  have E₃ : EntryBlocks disk m₃ pair.inodeNumber blocks₁ := by
    rw [hm₃]
    refine E₂.update hmem ?_
    rw [← E₂.type b hmem]
    have hlow := entryAt_ge (t = 0) j
    exact blockType_congr fun o ho => copyIn_apply_ne (Or.inl (by omega))
  have hnode : inodeAt disk m₁ pair.inodeNumber.toNat = inodeAt disk m₃ pair.inodeNumber.toNat := by
    rw [hm₃, E₂.inodeAt_update hmem, (E.kept hrel).2]
  rw [storeEntry, run_bind_of_eq henter, run_bind_of_eq (run_modify _ (E₂.addr hmem)),
    run_bind_of_eq (run_writeBack _ _), ← hm₃, hnode,
    run_bind_of_eq (E₃.run_writeEntryCount hfirst _), run_pure, Nbtrfs.storedImage, hm₃]

/-- What a run leaves that got past the B-tree. -/
theorem stored (E : EntryBlocks disk m₁ pair.inodeNumber blocks₁) (hb : blocks₁[t]? = some b)
    (hrun : run disk.mapping (storeEntry disk host pair name target type
      (inodeAt disk m₁ pair.inodeNumber.toNat) (UInt64.ofNat b) (t = 0) j number) m₁ = some (0, m')) :
    Stored disk m₁ m' pair.inodeNumber blocks₁ t j (number + 1) (newFile host name target) := by
  have hmem : b ∈ blocks₁ := List.mem_of_getElem? hb
  obtain ⟨hlt, -⟩ := List.getElem?_eq_some_iff.mp hb
  have hfirst : blocks₁[0]? = some blocks₁[0] := List.getElem?_eq_getElem (by omega)
  have hmem₁ : blocks₁[0] ∈ blocks₁ := List.mem_of_getElem? hfirst
  obtain ⟨new, m₂, henter, -⟩ := run_bind_eq_some.mp hrun
  obtain ⟨S₂, hrel, hnew⟩ := keepsRest_enterTree _ E.sound _ _ henter
  have E₂ := E.keep S₂ hrel
  obtain rfl := (Prod.mk.inj (Option.some.inj (hrun.symm.trans
    (E.run_storeEntry hb hfirst E₂ hrel henter)))).2
  have hlow := entryAt_ge (t = 0) j
  have hheader : b = blocks₁[0] → t = 0 := fun hbf =>
    (List.getElem?_inj hlt E.nodup).mp (by rw [hb, hfirst, hbf])
  exact {
    dir := E₂.storedImage hmem₁ hmem hlow
    entry := fun c hc i hi hrest => by
      obtain rfl := Option.some.inj (hb.symm.trans hc)
      rw [storedImage_entry hi, hnew i hrest]
      intro hbf
      have htrue := entryAt_true_ge j
      rw [hheader hbf]
      rw [decide_eq_true rfl]
      omega
    header := fun c hc => by
      obtain rfl := Option.some.inj (hfirst.symm.trans hc)
      rw [Nbtrfs.storedImage, Function.update_self, entryCount_setEntryCount]
    rest := fun c hlo hhi hset hnot o hout hheader => by
      rw [storedImage_apply (fun h => hout (by rw [hb, h])) fun h => hheader (by rw [hfirst, h]),
        hrel.page c ?_ hhi hset hnot]
      have hstart := inodeTableStart_le disk.totalBlocks.toNat
      omega }

end EntryBlocks

end Nbtrfs
