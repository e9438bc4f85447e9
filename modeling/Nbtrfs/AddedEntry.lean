import Nbtrfs.EntryFormat

/-!
# An entry that was added

Reference: `directory.c::directory_list`, `directory.c::directory_remove_entry`.

Both functions go through the slots in order. An entry that was added follows active entries only, so
`directory_list` has it at the position of its slot, unless the header counts fewer, and
`directory_remove_entry` comes to it before any slot that is free.
-/

namespace Nbtrfs

open BlockProg Bytes

variable {disk : DiskInterface} {m m' m₁ : Image} {path name : CString} {pair : InodeBtreePair}
  {host : Host} {inum target : UInt64} {type : UInt32} {blocks blocks₁ : List ℕ}
  {b c first i j k n t : ℕ} {pg new : Bytes} {header : Bool} {count number passed : UInt16}

theorem headD_eq (hfirst : blocks[0]? = some first) : blocks.headD 0 = first := by
  cases blocks with
  | nil => cases hfirst
  | cons b blocks => exact Option.some.inj hfirst

/-! ## The position of an entry -/

theorem pageEntries_length (h : ∀ k, j ≤ k → k < j + n → entryActive pg (entryAt header k) = true) :
    (pageEntries pg header n j).length = n := by
  induction n generalizing j with
  | zero => rfl
  | succ n ih =>
      rw [pageEntries_succ, if_pos (h j le_rfl (by omega)), List.length_append, List.length_singleton,
        ih fun k hlo hhi => h k (by omega) (by omega), Nat.add_comm]

/-- On a page without gaps up to the slot `j + k`, the entry of this slot is number `k` in the
listing. -/
theorem pageEntries_getElem? (hk : k < n)
    (h : ∀ k', j ≤ k' → k' ≤ j + k → entryActive pg (entryAt header k') = true) :
    (pageEntries pg header n j)[k]? = some (DirEntry.ofPage pg (entryAt header (j + k))) := by
  induction n generalizing j k with
  | zero => exact absurd hk (Nat.not_lt_zero k)
  | succ n ih =>
      rw [pageEntries_succ, if_pos (h j le_rfl (by omega)), List.singleton_append]
      cases k with
      | zero => rfl
      | succ k =>
          rw [List.getElem?_cons_succ, ih (by omega) fun k' hlo hhi => h k' (by omega) (by omega),
            Nat.add_assoc, Nat.add_comm 1]

/-- The lists before number `t` are as long as each other. -/
theorem getElem?_flatMap {α β : Type*} {f : α → List β} {l : List α} {a : α} (ha : l[t]? = some a)
    (hfull : ∀ i a, i < t → l[i]? = some a → (f a).length = n) (hj : j < (f a).length) :
    (l.flatMap f)[n * t + j]? = (f a)[j]? := by
  induction l generalizing t with
  | nil => cases ha
  | cons x l ih =>
      rw [List.flatMap_cons]
      cases t with
      | zero =>
          obtain rfl := Option.some.inj ha
          rw [Nat.mul_zero, Nat.zero_add, List.getElem?_append_left hj]
      | succ t =>
          have hx : (f x).length = n := hfull 0 x (by omega) rfl
          rw [List.getElem?_append_right (by rw [hx, Nat.mul_succ]; omega), hx, Nat.mul_succ,
            show n * t + n + j - n = n * t + j by omega]
          exact ih ha fun i a hi hget => hfull (i + 1) a (by omega) hget

/-- The slots up to slot `j` of block number `t` are active. -/
def ActiveTo (m : Image) (blocks : List ℕ) (t j : ℕ) : Prop :=
  ∀ i b, blocks[i]? = some b → ∀ k, (i < t ∧ k < entriesPerBlock) ∨ (i = t ∧ k ≤ j) →
    entryActive (m b) (entryAt (i = 0) k) = true

namespace ActiveTo

variable (A : ActiveTo m blocks t j)
include A

/-- The entry stands in the list at the position of its slot. -/
theorem getElem?_entriesOf (hb : blocks[t]? = some b) (hj : j < entriesPerBlock) :
    (entriesOf m blocks)[entriesPerBlock * t + j]? =
      some (DirEntry.ofPage (m b) (entryAt (t = 0) j)) := by
  cases blocks with
  | nil => cases hb
  | cons x rest =>
      rw [entriesOf]
      cases t with
      | zero =>
          obtain rfl := Option.some.inj hb
          have hlast : (pageEntries (m x) true entriesPerBlock 0)[j]? = _ :=
            pageEntries_getElem? hj fun k _ hk => A 0 x rfl k (Or.inr ⟨rfl, by omega⟩)
          rw [Nat.zero_add] at hlast
          obtain ⟨hlen, -⟩ := List.getElem?_eq_some_iff.mp hlast
          rw [Nat.mul_zero, Nat.zero_add, List.getElem?_append_left hlen, hlast]
          rfl
      | succ t =>
          have hx : (pageEntries (m x) true entriesPerBlock 0).length = entriesPerBlock :=
            pageEntries_length fun k _ hk => A 0 x rfl k (Or.inl ⟨by omega, by omega⟩)
          have hlast : (pageEntries (m b) false entriesPerBlock 0)[j]? = _ :=
            pageEntries_getElem? hj fun k _ hk => A (t + 1) b hb k (Or.inr ⟨rfl, by omega⟩)
          rw [Nat.zero_add] at hlast
          obtain ⟨hlen, -⟩ := List.getElem?_eq_some_iff.mp hlast
          rw [List.getElem?_append_right (by rw [hx, Nat.mul_succ]; omega), hx, Nat.mul_succ,
            show entriesPerBlock * t + entriesPerBlock + j - entriesPerBlock =
              entriesPerBlock * t + j by omega,
            getElem?_flatMap (List.getElem?_cons_succ ▸ hb) (fun i c hi hc =>
              pageEntries_length fun k _ hk => A (i + 1) c hc k (Or.inl ⟨by omega, by omega⟩)) hlen,
            hlast]
          rfl

/-- The first block has an active entry. -/
theorem pageEntries_ne_nil (hfirst : blocks[0]? = some first) :
    pageEntries (m first) true entriesPerBlock 0 ≠ [] := by
  have hactive : entryActive (m first) (entryAt true 0) = true := by
    refine A 0 first hfirst 0 ?_
    rcases Nat.eq_zero_or_pos t with rfl | hpos
    · exact Or.inr ⟨rfl, Nat.zero_le j⟩
    · exact Or.inl ⟨hpos, by decide⟩
  have hsucc : entriesPerBlock = 14 + 1 := rfl
  rw [hsucc, pageEntries_succ, if_pos hactive]
  exact List.cons_ne_nil _ _

end ActiveTo

/-! ## Listing it -/

/-- The whole list, as far as the header counts, if the first block has an active entry. -/
theorem DataBlocks.run_listFront (D : DataBlocks disk m pair.inodeNumber blocks)
    (hfirst : blocks[0]? = some first) (hne : pageEntries (m first) true entriesPerBlock 0 ≠ []) :
    ∃ listed, run disk.mapping (directoryListFrom pair (inodeAt disk m pair.inodeNumber.toNat)
        directoryBlocks 0 0 0 []) m = some (listed, m) ∧
      (entriesOf m blocks).take (entryCount (m first)).toNat <+: listed ∧
      listed.length ≤ (entryCount (m first)).toNat := by
  have hle := D.le
  have hmem : first ∈ blocks := List.mem_of_getElem? hfirst
  obtain ⟨hlen, -⟩ := List.getElem?_eq_some_iff.mp hfirst
  obtain ⟨rv, hget⟩ := D.run_getBlock_of_mem hfirst
  have hfuel : directoryBlocks = 4355 + 1 := rfl
  have hself : Option.getD (some (UInt64.ofNat first)) 0 = UInt64.ofNat first := rfl
  have hdb : disk.mapping.addr (if ([] : List DirEntry).length = 0 then UInt64.ofNat first
      else 0) = some first := by rw [if_pos List.length_nil, D.addr hmem]
  rw [hfuel, D.run_listBlock (n := 4355) hmem hget hself hdb, List.length_nil, decide_eq_true rfl,
    if_pos rfl]
  split
  · next hzero =>
    refine ⟨[], rfl, ?_, Nat.zero_le _⟩
    rw [hzero, List.take_zero]
  · next hcount =>
    have hpos : 0 < (pageEntries (m first) true entriesPerBlock 0).length :=
      List.length_pos_of_ne_nil hne
    rw [listEntries_eq_take (Nat.zero_le _), List.nil_append]
    have htaken : ((pageEntries (m first) true entriesPerBlock 0).take
        (entryCount (m first)).toNat).length ≠ 0 := by
      rw [List.length_take]
      omega
    obtain ⟨listed, hrun, hfront, hlast⟩ := D.run_listPrefix (i := 1) (n := 4355) hmem htaken
      (List.length_take_le _ _) (fun h => absurd h (by omega)) (by omega) (by omega)
    refine ⟨listed, hrun, ?_, hlast⟩
    cases blocks with
    | nil => cases hfirst
    | cons x rest =>
        obtain rfl := Option.some.inj hfirst
        rwa [take_append_take] at hfront

/-! ## Removing it -/

/-- The search for a name finds the first slot that carries it, or no slot carries it. -/
theorem namedSlot_cases (pg : Bytes) (header : Bool) (name : CString) (n j : ℕ) :
    (namedSlot pg header name n j = none ∧
      ∀ k, j ≤ k → k < j + n → entryNamed pg (entryAt header k) name = false) ∨
    ∃ k, namedSlot pg header name n j = some k ∧ j ≤ k ∧ k < j + n ∧
      entryNamed pg (entryAt header k) name = true ∧
      ∀ k', j ≤ k' → k' < k → entryNamed pg (entryAt header k') name = false := by
  induction n generalizing j with
  | zero => exact Or.inl ⟨rfl, fun k hlo hhi => absurd hhi (by omega)⟩
  | succ n ih =>
      rw [namedSlot]
      by_cases hnamed : entryNamed pg (entryAt header j) name = true
      · rw [if_pos hnamed]
        exact Or.inr ⟨j, rfl, le_rfl, by omega, hnamed, fun k hlo hhi => absurd hhi (by omega)⟩
      · rw [if_neg hnamed]
        have hskip : ∀ k, j ≤ k → (j + 1 ≤ k → entryNamed pg (entryAt header k) name = false) →
            entryNamed pg (entryAt header k) name = false := by
          intro k hlo h
          rcases Nat.eq_or_lt_of_le hlo with rfl | hlt
          · exact Bool.eq_false_iff.mpr hnamed
          · exact h hlt
        rcases ih (j + 1) with ⟨hnone, hall⟩ | ⟨k, hsome, hlo, hhi, hk, hall⟩
        · exact Or.inl ⟨hnone, fun k hlo hhi => hskip k hlo fun h => hall k h (by omega)⟩
        · exact Or.inr ⟨k, hsome, by omega, by omega, hk,
            fun k' hlo' hhi' => hskip k' hlo' fun h => hall k' h hhi'⟩

/-- The part of the loop of `directory_remove_entry` that looks at the slots of one block. -/
def removeInBlock (disk : DiskInterface) (pair : InodeBtreePair) (node : Inode) (name : CString)
    (n i : ℕ) (file : Inode) (block db : UInt64) (pg : Bytes) (header : Bool)
    (count number : UInt16) (rv : ℤ) : BlockProg ℤ :=
  match namedSlot pg header name entriesPerBlock 0 with
  | none => removeEntryFrom disk pair node name n (i + 1) file block db
      (count + UInt16.ofNat entriesPerBlock) number rv
  | some k => do
      let (block, file) ← removeEntry disk pair node file name block db (entryAt header k) number
      removeEntryFrom disk pair node name n (i + 1) file block block (count + UInt16.ofNat k) number 0

namespace DataBlocks

variable (D : DataBlocks disk m pair.inodeNumber blocks) (hfirst : blocks[0]? = some first)
  {node file : Inode} {block db : UInt64} {rv : ℤ}
include D hfirst

/-- A step of the loop, which looks at block `b` as number `i`. -/
theorem run_removeBlock {rv' : ℤ} {mapped : Option UInt64} (hb : b ∈ blocks)
    (hget : run disk.mapping (inodeGetBlock node (UInt64.ofNat i)) m = some ((rv', mapped), m))
    (hblock : mapped.getD block = UInt64.ofNat b) (hi : entriesPerBlock * i < 65536)
    (hzero : i = 0 → b = first) (hdb : i ≠ 0 → db = UInt64.ofNat first)
    (hnumber : i ≠ 0 → number = entryCount (m first)) :
    run disk.mapping (removeEntryFrom disk pair node name (n + 1) i file block db
        (UInt16.ofNat (entriesPerBlock * i)) number rv) m =
      if entriesPerBlock * i = (entryCount (m first)).toNat then some (rv, m)
      else run disk.mapping (removeInBlock disk pair node name n i file (UInt64.ofNat b)
        (UInt64.ofNat first) (m b) (i = 0) (UInt16.ofNat (entriesPerBlock * i))
        (entryCount (m first)) rv) m := by
  have hnat : (UInt16.ofNat (entriesPerBlock * i)).toNat = entriesPerBlock * i := by
    rw [UInt16.toNat_ofNat']
    exact Nat.mod_eq_of_lt hi
  have hheader : decide (UInt16.ofNat (entriesPerBlock * i) = 0) = decide (i = 0) := by
    rw [decide_eq_decide, ← UInt16.toNat_inj, hnat, UInt16.toNat_zero, Nat.mul_eq_zero]
    exact or_iff_right (by decide)
  have haddr : (if decide (i = 0) = true then UInt64.ofNat b else db) = UInt64.ofNat first := by
    by_cases h0 : i = 0
    · rw [if_pos (decide_eq_true h0), hzero h0]
    · rw [if_neg (by rwa [decide_eq_true_eq]), hdb h0]
  have hnum : (if decide (i = 0) = true then entryCount (m b) else number) =
      entryCount (m first) := by
    by_cases h0 : i = 0
    · rw [if_pos (decide_eq_true h0), hzero h0]
    · rw [if_neg (by rwa [decide_eq_true_eq]), hnumber h0]
  have hend : entryCount (m first) = UInt16.ofNat (entriesPerBlock * i) ↔
      entriesPerBlock * i = (entryCount (m first)).toNat := by
    rw [← UInt16.toNat_inj, hnat, eq_comm]
  rw [removeEntryFrom, run_bind_of_eq hget]
  simp only [hblock, hheader]
  rw [if_neg (D.number_ne_zero hb), run_bind_of_eq (run_fetch _ _),
    run_bind_of_eq (run_page (D.addr hb)), if_neg (not_not.mpr (D.type b hb)), haddr, hnum,
    run_bind_of_eq (run_page (D.addr (List.mem_of_getElem? hfirst)))]
  by_cases hstop : entriesPerBlock * i = (entryCount (m first)).toNat
  · rw [if_pos (hend.mpr hstop), if_pos hstop, run_pure]
  · rw [if_neg fun h => hstop (hend.mp h), if_neg hstop]
    unfold removeInBlock
    cases namedSlot (m b) (i = 0) name entriesPerBlock 0 with
    | none => rfl
    | some k => rfl

/-- `directory_remove_entry` goes to the first slot with the name, up to one that has it. -/
theorem run_removeScan (hb : blocks[t]? = some b) (hj : j < entriesPerBlock)
    (hnamed : entryNamed (m b) (entryAt (t = 0) j) name = true)
    (hcount : ∀ i, i ≤ t → entriesPerBlock * i ≠ (entryCount (m first)).toNat) (hi : i ≤ t)
    (hn : t < i + n) (file : Inode) (block db : UInt64) (number : UInt16) (rv : ℤ)
    (hdb : i ≠ 0 → db = UInt64.ofNat first) (hnumber : i ≠ 0 → number = entryCount (m first)) :
    ∃ s k c, blocks[s]? = some c ∧ k < entriesPerBlock ∧ (s < t ∨ s = t ∧ k ≤ j) ∧
      entryNamed (m c) (entryAt (s = 0) k) name = true ∧
      run disk.mapping (removeEntryFrom disk pair (inodeAt disk m pair.inodeNumber.toNat) name n i file
          block db (UInt16.ofNat (entriesPerBlock * i)) number rv) m =
        run disk.mapping (do
          let (block, file) ← removeEntry disk pair (inodeAt disk m pair.inodeNumber.toNat) file name
            (UInt64.ofNat c) (UInt64.ofNat first) (entryAt (s = 0) k) (entryCount (m first))
          removeEntryFrom disk pair (inodeAt disk m pair.inodeNumber.toNat) name (n + i - (s + 1))
            (s + 1) file block block (UInt16.ofNat (entriesPerBlock * s + k))
            (entryCount (m first)) 0) m := by
  have hle := D.le
  obtain ⟨hlt, -⟩ := List.getElem?_eq_some_iff.mp hb
  induction n generalizing i block db number with
  | zero => exact absurd hn (by omega)
  | succ n ih =>
      have hlast : entriesPerBlock * i ≤ 180 :=
        Nat.mul_le_mul_left entriesPerBlock (show i ≤ 12 by omega)
      have hget : blocks[i]? = some blocks[i] := List.getElem?_eq_getElem (by omega)
      have hmem : blocks[i] ∈ blocks := List.getElem_mem (by omega)
      obtain ⟨rv', hmapped⟩ := D.run_getBlock_of_mem hget
      have hzero : i = 0 → blocks[i] = first := fun h0 => by
        subst h0
        exact Option.some.inj (hget.symm.trans hfirst)
      rw [D.run_removeBlock hfirst hmem hmapped rfl (by omega) hzero hdb hnumber,
        if_neg (hcount i hi), removeInBlock]
      rcases namedSlot_cases (m blocks[i]) (decide (i = 0)) name entriesPerBlock 0 with
        ⟨hnone, hall⟩ | ⟨k, hsome, -, hk, hname, hall⟩
      · -- the name is in a block behind
        have hne : i ≠ t := by
          rintro rfl
          rw [← Option.some.inj (hget.symm.trans hb), hall j (Nat.zero_le j) (by omega)] at hnamed
          cases hnamed
        obtain ⟨s, k, c, hs, hk, hbefore, hname, hrun⟩ := ih (show i + 1 ≤ t by omega) (by omega)
          (UInt64.ofNat blocks[i]) (UInt64.ofNat first) (entryCount (m first)) (fun _ => rfl)
          fun _ => rfl
        refine ⟨s, k, c, hs, hk, hbefore, hname, ?_⟩
        have hnext : UInt16.ofNat (entriesPerBlock * i) + UInt16.ofNat entriesPerBlock =
            UInt16.ofNat (entriesPerBlock * (i + 1)) := by
          rw [← UInt16.ofNat_add, Nat.mul_succ]
        have hfuel : n + (i + 1) = n + 1 + i := by omega
        rw [hfuel] at hrun
        rw [hnone]
        simp only
        rw [hnext, hrun]
      · -- the name is here
        refine ⟨i, k, blocks[i], hget, by omega, ?_, hname, ?_⟩
        · rcases Nat.lt_or_eq_of_le hi with hlt | rfl
          · exact Or.inl hlt
          · refine Or.inr ⟨rfl, ?_⟩
            by_contra hjk
            rw [← Option.some.inj (hget.symm.trans hb), hall j (Nat.zero_le j) (by omega)] at hnamed
            cases hnamed
        · rw [hsome]
          simp only
          rw [← UInt16.ofNat_add, show n + 1 + i - (i + 1) = n by omega]

end DataBlocks

end Nbtrfs
