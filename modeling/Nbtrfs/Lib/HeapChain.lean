import Mathlib.Tactic

/-!
# Singly linked chains in a heap

Every address of a heap holds a cell, but only the live ones may be accessed: what lies at an address
before it is allocated or after it is freed is arbitrary. `Segment next h p as q` says that the links
`next` lead from `p` over the addresses `as` to `q`. A chain that ends in NULL repeats no address, and a
cell is taken out of it by changing one link.
-/

variable {α : Type}

/-- The contents of the memory, and the addresses that are allocated. -/
structure CellHeap (α : Type) where
  cell : ℕ → α
  live : Finset ℕ

namespace CellHeap

/-! ## Access -/

/-- `*p` -/
def load (h : CellHeap α) (p : Option ℕ) : Option α :=
  p.bind fun a => if a ∈ h.live then some (h.cell a) else none

/-- Assign the cell at an address. -/
def set (h : CellHeap α) (a : ℕ) (v : α) : CellHeap α :=
  { h with cell := Function.update h.cell a v }

/-- `*p = v` -/
def store (h : CellHeap α) (p : Option ℕ) (v : α) : Option (CellHeap α) :=
  p.bind fun a => if a ∈ h.live then some (h.set a v) else none

/-- The allocator hands out address `a`, whose cell stays as it is. -/
def malloc (h : CellHeap α) (a : ℕ) : CellHeap α := { h with live := insert a h.live }

def free (h : CellHeap α) (a : ℕ) : CellHeap α := { h with live := h.live.erase a }

variable {h h' : CellHeap α} {a b : ℕ} {p q : Option ℕ} {v : α}

theorem load_of_live (ha : a ∈ h.live) : h.load (some a) = some (h.cell a) := if_pos ha

theorem load_of_not_live (ha : a ∉ h.live) : h.load (some a) = none := if_neg ha

theorem store_of_live (ha : a ∈ h.live) : h.store (some a) v = some (h.set a v) := if_pos ha

@[simp] theorem cell_set_self : (h.set a v).cell a = v := Function.update_self ..

theorem cell_set_of_ne (hb : b ≠ a) : (h.set a v).cell b = h.cell b := Function.update_of_ne hb ..

@[simp] theorem live_set : (h.set a v).live = h.live := rfl

@[simp] theorem cell_free : (h.free a).cell = h.cell := rfl

@[simp] theorem cell_malloc : (h.malloc a).cell = h.cell := rfl

theorem mem_live_malloc : b ∈ (h.malloc a).live ↔ b = a ∨ b ∈ h.live := Finset.mem_insert

theorem mem_live_free : b ∈ (h.free a).live ↔ b ≠ a ∧ b ∈ h.live := Finset.mem_erase

/-! ## Chains -/

/-- The links lead from `p` over live cells at `as` to `q`. -/
def Segment (next : α → Option ℕ) (h : CellHeap α) : Option ℕ → List ℕ → Option ℕ → Prop
  | p, [], q => p = q
  | p, a :: as, q => p = some a ∧ a ∈ h.live ∧ Segment next h (next (h.cell a)) as q

namespace Segment

variable {next : α → Option ℕ} {as bs : List ℕ}

theorem live (hs : Segment next h p as q) (ha : a ∈ as) : a ∈ h.live := by
  induction as generalizing p with
  | nil => cases ha
  | cons b as ih =>
      obtain ⟨-, hb, hs⟩ := hs
      rcases List.mem_cons.mp ha with rfl | ha
      · exact hb
      · exact ih hs ha

/-- A chain depends on its own cells only. -/
theorem congr (hs : Segment next h p as q)
    (hsame : ∀ a ∈ as, a ∈ h'.live ∧ h'.cell a = h.cell a) : Segment next h' p as q := by
  induction as generalizing p with
  | nil => exact hs
  | cons b as ih =>
      obtain ⟨hp, -, hs⟩ := hs
      obtain ⟨hlive, hcell⟩ := hsame b List.mem_cons_self
      refine ⟨hp, hlive, ?_⟩
      rw [hcell]
      exact ih hs fun a ha => hsame a (List.mem_cons_of_mem b ha)

/-- A chain through a concatenation passes through the seam. -/
theorem append_iff : Segment next h p (as ++ bs) q ↔
    ∃ r, Segment next h p as r ∧ Segment next h r bs q := by
  induction as generalizing p with
  | nil =>
      constructor
      · exact fun hs => ⟨p, rfl, hs⟩
      · rintro ⟨r, hpr, hs⟩
        obtain rfl : p = r := hpr
        exact hs
  | cons a as ih =>
      constructor
      · rintro ⟨hp, ha, hs⟩
        obtain ⟨r, hs, hs'⟩ := ih.mp hs
        exact ⟨r, ⟨hp, ha, hs⟩, hs'⟩
      · rintro ⟨r, ⟨hp, ha, hs⟩, hs'⟩
        exact ⟨hp, ha, ih.mpr ⟨r, hs, hs'⟩⟩

/-- The way to NULL is determined by its start. -/
theorem unique (hs : Segment next h p as none) (hs' : Segment next h p bs none) : as = bs := by
  induction as generalizing p bs with
  | nil =>
      obtain rfl : p = none := hs
      cases bs with
      | nil => rfl
      | cons b bs => cases hs'.1
  | cons a as ih =>
      obtain ⟨rfl, -, hs⟩ := hs
      cases bs with
      | nil => cases (show some a = none from hs')
      | cons b bs =>
          obtain ⟨hp, -, hs'⟩ := hs'
          obtain rfl := Option.some.inj hp
          rw [ih hs hs']

/-- A chain that ends in NULL passes no address twice. -/
theorem nodup (hs : Segment next h p as none) : as.Nodup := by
  induction as generalizing p with
  | nil => exact List.nodup_nil
  | cons a as ih =>
      obtain ⟨-, -, hs⟩ := hs
      refine List.nodup_cons.mpr ⟨fun ha => ?_, ih hs⟩
      -- from the second visit on the chain would go on as from the first one
      obtain ⟨front, back, rfl⟩ := List.append_of_mem ha
      obtain ⟨r, -, -, -, hback⟩ := append_iff.mp hs
      have hlen := congrArg List.length (unique hs hback)
      rw [List.length_append, List.length_cons] at hlen
      omega

theorem length_le (hs : Segment next h p as none) : as.length ≤ h.live.card := by
  rw [← List.toFinset_card_of_nodup hs.nodup]
  exact Finset.card_le_card fun a ha => hs.live (List.mem_toFinset.mp ha)

/-- Taking the first cell out. -/
theorem free_head (hs : Segment next h p (a :: as) none) :
    Segment next (h.free a) (next (h.cell a)) as none := by
  obtain ⟨hnot, -⟩ := List.nodup_cons.mp hs.nodup
  refine hs.2.2.congr fun b hb => ⟨mem_live_free.mpr ⟨?_, hs.2.2.live hb⟩, rfl⟩
  rintro rfl
  exact hnot hb

/-- Taking out the cell behind another one, whose link then leads past it. -/
theorem unlink (hs : Segment next h p (as ++ a :: b :: bs) none)
    (hv : next v = next (h.cell b)) :
    Segment next ((h.set a v).free b) p (as ++ a :: bs) none := by
  have hnodup := hs.nodup
  obtain ⟨-, hsub, hdisj⟩ := List.nodup_append.mp hnodup
  obtain ⟨hab, hsub⟩ := List.nodup_cons.mp hsub
  obtain ⟨hb, -⟩ := List.nodup_cons.mp hsub
  obtain ⟨r, hfront, hr, ha, -, -, hback⟩ := append_iff.mp hs
  have hkeep : ∀ c ≠ b, c ∈ h.live → c ∈ ((h.set a v).free b).live := fun c hcb hc =>
    mem_live_free.mpr ⟨hcb, hc⟩
  refine append_iff.mpr ⟨r, hfront.congr fun c hc => ?_, hr, ?_, ?_⟩
  · have hca : c ≠ a := hdisj c hc a List.mem_cons_self
    have hcb : c ≠ b := hdisj c hc b (List.mem_cons_of_mem a List.mem_cons_self)
    exact ⟨hkeep c hcb (hfront.live hc), cell_set_of_ne hca⟩
  · exact hkeep a (fun hEq => hab (hEq ▸ List.mem_cons_self)) ha
  · rw [cell_free, cell_set_self, hv]
    refine hback.congr fun c hc => ⟨hkeep c ?_ (hback.live hc), cell_set_of_ne ?_⟩
    · rintro rfl
      exact hb hc
    · rintro rfl
      exact hab (List.mem_cons_of_mem b hc)

end Segment

end CellHeap
