import Mathlib.Tactic
import Mathlib.Data.List.Cycle

/-!
# Circular doubly linked lists

A ring is a heap of nodes with nullable links, a head pointer and a node counter. `push` links a new
node in front of the head, `pop` removes the node that a pointer cell names and clears that cell.
Following a NULL or dangling link faults.

`IsRing r l` says that `l` is the content of the ring: its nodes with their values, from the head
along the `next` links. `IsRing.push` and `IsRing.pop` give the two operations on lists.
-/

variable {α : Type}

structure RingNode (α : Type) where
  value : α
  next : Option ℕ
  prev : Option ℕ

/-- The nodes by address (`none`: not allocated), the next address to hand out, the head pointer and
the node counter. -/
structure LinkRing (α : Type) where
  nodes : ℕ → Option (RingNode α)
  fresh : ℕ
  head : Option ℕ
  size : ℤ

/-- Where the pointer that is passed to `pop` is stored: in a variable outside the ring, or in the
`prev` field of a node. -/
inductive RingCell where
  | outside (p : Option ℕ)
  | prevOf (a : ℕ)

namespace LinkRing

/-! ## Operations -/

def empty : LinkRing α := ⟨fun _ => none, 0, none, 0⟩

def next (r : LinkRing α) (a : ℕ) : Option ℕ := (r.nodes a).bind RingNode.next

def prev (r : LinkRing α) (a : ℕ) : Option ℕ := (r.nodes a).bind RingNode.prev

def value (r : LinkRing α) (a : ℕ) : Option α := (r.nodes a).map RingNode.value

/-- `a->next = v` -/
def setNext (r : LinkRing α) (a : ℕ) (v : Option ℕ) : Option (LinkRing α) :=
  (r.nodes a).map fun n =>
    { r with nodes := Function.update r.nodes a (some { n with next := v }) }

/-- `a->prev = v` -/
def setPrev (r : LinkRing α) (a : ℕ) (v : Option ℕ) : Option (LinkRing α) :=
  (r.nodes a).map fun n =>
    { r with nodes := Function.update r.nodes a (some { n with prev := v }) }

/-- Allocate a node. -/
def alloc (r : LinkRing α) (n : RingNode α) : LinkRing α :=
  { r with nodes := Function.update r.nodes r.fresh (some n), fresh := r.fresh + 1 }

/-- Link a new node in front of the head; the caller moves the head to the address returned. -/
def push (r : LinkRing α) (v : α) : Option (ℕ × LinkRing α) :=
  let node := r.fresh
  match r.head with
  | some list =>
      if 0 < r.size then do
        let head ← r.nodes list
        let r ← (r.alloc ⟨v, some list, head.prev⟩).setPrev list (some node)
        let last ← r.prev node
        let r ← r.setNext last (some node)
        some (node, { r with size := r.size + 1 })
      else
        some (node, { r.alloc ⟨v, some node, some node⟩ with size := r.size + 1 })
  | none => some (node, { r.alloc ⟨v, some node, some node⟩ with size := r.size + 1 })

/-- Read the pointer stored in a cell. -/
def pointer (r : LinkRing α) : RingCell → Option (Option ℕ)
  | .outside p => some p
  | .prevOf a => (r.nodes a).map RingNode.prev

/-- Set a cell to NULL. A variable outside the ring is cleared by its owner. -/
def clear (r : LinkRing α) : RingCell → Option (LinkRing α)
  | .outside _ => some r
  | .prevOf a => r.setPrev a none

/-- Join the two neighbours of a node, and move the head off the node. -/
def unlink (r : LinkRing α) (n : ℕ) : Option (LinkRing α) := do
  let p ← r.prev n
  let r ← r.setNext p (r.next n)
  let q ← r.next n
  let r ← r.setPrev q (r.prev n)
  if r.head = some n then some { r with head := r.next n } else some r

/-- Release a node. -/
def free (r : LinkRing α) (n : ℕ) : LinkRing α :=
  { r with nodes := Function.update r.nodes n none, size := r.size - 1 }

/-- Remove the node that a cell points to and clear the cell. A NULL cell yields no value. -/
def pop (r : LinkRing α) (cell : RingCell) : Option (Option α × LinkRing α) := do
  match ← r.pointer cell with
  | none => some (none, r)
  | some n =>
      let v ← r.value n
      let r ← if r.size = 1 then some { r with head := none } else r.unlink n
      let r ← r.clear cell
      some (some v, r.free n)

/-! ## Links after an update -/

/-- Setting the forward link of a cell that exists changes this link only. -/
theorem exists_setNext {r : LinkRing α} {a : ℕ} {v : Option ℕ} (h : (r.value a).isSome) :
    ∃ r', r.setNext a v = some r' ∧ r'.value = r.value ∧ r'.prev = r.prev ∧
      r'.next = Function.update r.next a v ∧ r'.fresh = r.fresh ∧ r'.head = r.head ∧
      r'.size = r.size := by
  obtain ⟨n, hn⟩ : ∃ n, r.nodes a = some n := by
    rw [value, Option.isSome_map] at h
    exact Option.isSome_iff_exists.mp h
  refine ⟨{ r with nodes := Function.update r.nodes a (some { n with next := v }) },
    by rw [setNext, hn]; rfl, ?_, ?_, ?_, rfl, rfl, rfl⟩
  all_goals
    funext b
    rcases eq_or_ne b a with rfl | hb
    · simp [value, prev, next, hn]
    · simp [value, prev, next, hb]

/-- Setting the backward link of a cell that exists changes this link only. -/
theorem exists_setPrev {r : LinkRing α} {a : ℕ} {v : Option ℕ} (h : (r.value a).isSome) :
    ∃ r', r.setPrev a v = some r' ∧ r'.value = r.value ∧ r'.next = r.next ∧
      r'.prev = Function.update r.prev a v ∧ r'.fresh = r.fresh ∧ r'.head = r.head ∧
      r'.size = r.size := by
  obtain ⟨n, hn⟩ : ∃ n, r.nodes a = some n := by
    rw [value, Option.isSome_map] at h
    exact Option.isSome_iff_exists.mp h
  refine ⟨{ r with nodes := Function.update r.nodes a (some { n with prev := v }) },
    by rw [setPrev, hn]; rfl, ?_, ?_, ?_, rfl, rfl, rfl⟩
  all_goals
    funext b
    rcases eq_or_ne b a with rfl | hb
    · simp [value, prev, next, hn]
    · simp [value, prev, next, hb]

section Alloc

variable (r : LinkRing α) (n : RingNode α)

@[simp] theorem value_alloc :
    (r.alloc n).value = Function.update r.value r.fresh (some n.value) := by
  funext b
  rcases eq_or_ne b r.fresh with rfl | hb
  · simp [value, alloc]
  · simp [value, alloc, hb]

@[simp] theorem next_alloc : (r.alloc n).next = Function.update r.next r.fresh n.next := by
  funext b
  rcases eq_or_ne b r.fresh with rfl | hb
  · simp [next, alloc]
  · simp [next, alloc, hb]

@[simp] theorem prev_alloc : (r.alloc n).prev = Function.update r.prev r.fresh n.prev := by
  funext b
  rcases eq_or_ne b r.fresh with rfl | hb
  · simp [prev, alloc]
  · simp [prev, alloc, hb]

end Alloc

section Free

variable (r : LinkRing α) (a : ℕ)

@[simp] theorem value_free : (r.free a).value = Function.update r.value a none := by
  funext b
  rcases eq_or_ne b a with rfl | hb
  · simp [value, free]
  · simp [value, free, hb]

theorem next_free {b : ℕ} (hb : b ≠ a) : (r.free a).next b = r.next b := by
  simp [next, free, hb]

theorem prev_free {b : ℕ} (hb : b ≠ a) : (r.free a).prev b = r.prev b := by
  simp [prev, free, hb]

end Free

theorem value_of_setNext {r r' : LinkRing α} {a : ℕ} {v : Option ℕ}
    (h : r.setNext a v = some r') : r'.value = r.value := by
  obtain ⟨n, hn, rfl⟩ := Option.map_eq_some_iff.mp h
  funext b
  rcases eq_or_ne b a with rfl | hb
  · simp [value, hn]
  · simp [value, hb]

theorem value_of_setPrev {r r' : LinkRing α} {a : ℕ} {v : Option ℕ}
    (h : r.setPrev a v = some r') : r'.value = r.value := by
  obtain ⟨n, hn, rfl⟩ := Option.map_eq_some_iff.mp h
  funext b
  rcases eq_or_ne b a with rfl | hb
  · simp [value, hn]
  · simp [value, hb]

/-- Unlinking changes links only. -/
theorem value_of_unlink {r r' : LinkRing α} {a : ℕ} (h : r.unlink a = some r') :
    r'.value = r.value := by
  simp only [unlink, Option.bind_eq_bind, Option.bind_eq_some_iff] at h
  obtain ⟨p, -, r₁, hr₁, q, -, r₂, hr₂, h⟩ := h
  have hvalue : r₂.value = r.value := (value_of_setPrev hr₂).trans (value_of_setNext hr₁)
  split at h
  · obtain rfl := Option.some.inj h
    exact hvalue
  · obtain rfl := Option.some.inj h
    exact hvalue

/-- Unlinking a node between two others joins these. -/
theorem exists_unlink {r : LinkRing α} {a first last : ℕ} (hnext : r.next a = some first)
    (hprev : r.prev a = some last) (hlast : last ≠ a)
    (hvfirst : (r.value first).isSome) (hvlast : (r.value last).isSome) :
    ∃ r', r.unlink a = some r' ∧ r'.value = r.value ∧ r'.fresh = r.fresh ∧ r'.size = r.size ∧
      r'.head = (if r.head = some a then some first else r.head) ∧
      r'.next = Function.update r.next last (some first) ∧
      r'.prev = Function.update r.prev first (some last) := by
  obtain ⟨r₁, hr₁, hvalue₁, hprev₁, hnext₁, hfresh₁, hhead₁, hsize₁⟩ :=
    r.exists_setNext (v := some first) hvlast
  obtain ⟨r₂, hr₂, hvalue₂, hnext₂, hprev₂, hfresh₂, hhead₂, hsize₂⟩ :=
    r₁.exists_setPrev (a := first) (v := some last) (by rwa [hvalue₁])
  have hnexta : r₁.next a = some first := by
    rw [hnext₁, Function.update_of_ne hlast.symm, hnext]
  have hpreva : r₁.prev a = some last := by rw [hprev₁, hprev]
  have hnexta₂ : r₂.next a = some first := by rw [hnext₂, hnexta]
  have hhead : r₂.head = r.head := hhead₂.trans hhead₁
  by_cases hh : r.head = some a
  · refine ⟨{ r₂ with head := some first }, ?_, ?_⟩
    · simp only [unlink, hprev, hnext, Option.bind_eq_bind, Option.bind_some, hr₁, hnexta, hpreva,
        hr₂, hhead, hh, if_true, hnexta₂]
    · refine ⟨hvalue₂.trans hvalue₁, hfresh₂.trans hfresh₁, hsize₂.trans hsize₁, by rw [if_pos hh],
        hnext₂.trans hnext₁, ?_⟩
      exact hprev₂.trans (by rw [hprev₁])
  · refine ⟨r₂, ?_, hvalue₂.trans hvalue₁, hfresh₂.trans hfresh₁, hsize₂.trans hsize₁,
      by rw [if_neg hh, hhead], hnext₂.trans hnext₁, hprev₂.trans (by rw [hprev₁])⟩
    simp only [unlink, hprev, hnext, Option.bind_eq_bind, Option.bind_some, hr₁, hnexta, hpreva,
      hr₂, hhead, if_neg hh]

/-! ## The list a ring holds -/

/-- Two nodes linked to each other in `next` order. -/
def Adjacent (r : LinkRing α) (a b : ℕ) : Prop := r.next a = some b ∧ r.prev b = some a

end LinkRing

/-- The ring `r` holds the nodes `l`, addresses with values, from the head along `next`. -/
structure IsRing (r : LinkRing α) (l : List (ℕ × α)) : Prop where
  size : r.size = l.length
  head : r.head = (l.map Prod.fst).head?
  nodup : (l.map Prod.fst).Nodup
  fresh : ∀ e ∈ l, e.1 < r.fresh
  value : ∀ e ∈ l, r.value e.1 = some e.2
  linked : Cycle.Chain r.Adjacent (l.map Prod.fst : Cycle ℕ)

/-- A chain without repetitions survives a change of the relation that spares the links out of its
last element and into its first one. -/
theorem List.IsChain.imp_interior {β : Type} {R S : β → β → Prop} {l : List β} (hl : l ≠ [])
    (hnodup : l.Nodup) (h : l.IsChain R)
    (himp : ∀ a ∈ l, ∀ b ∈ l, a ≠ l.getLast hl → b ≠ l.head hl → R a b → S a b) :
    l.IsChain S := by
  rw [List.isChain_iff_getElem] at h ⊢
  intro i hi
  refine himp _ (List.getElem_mem _) _ (List.getElem_mem _) ?_ ?_ (h i hi)
  · rw [List.getLast_eq_getElem, Ne, hnodup.getElem_inj_iff]
    omega
  · rw [List.head_eq_getElem, Ne, hnodup.getElem_inj_iff]
    omega

/-- A cycle through `a` is a chain from `a` back to `a`. -/
theorem Cycle.chain_cons_iff {β : Type} {R : β → β → Prop} {a : β} {l : List β} (hl : l ≠ []) :
    Cycle.Chain R (a :: l : List β) ↔ R a (l.head hl) ∧ l.IsChain R ∧ R (l.getLast hl) a := by
  rw [Cycle.chain_coe_cons, List.isChain_cons, List.isChain_append]
  simp [List.head?_append, List.head?_eq_some_head hl, List.getLast?_eq_some_getLast hl]

/-- A cycle is a chain whose last element leads back to its first one. -/
theorem Cycle.chain_iff {β : Type} {R : β → β → Prop} {l : List β} (hl : l ≠ []) :
    Cycle.Chain R (l : Cycle β) ↔ l.IsChain R ∧ R (l.getLast hl) (l.head hl) := by
  obtain ⟨a, l, rfl⟩ := List.exists_cons_of_ne_nil hl
  rw [Cycle.chain_coe_cons, ← List.cons_append, List.isChain_append]
  simp [List.getLast?_eq_some_getLast hl]

namespace IsRing

variable {r : LinkRing α} {l : List (ℕ × α)}

theorem empty : IsRing (LinkRing.empty : LinkRing α) [] where
  size := rfl
  head := rfl
  nodup := List.nodup_nil
  fresh := by simp
  value := by simp
  linked := Cycle.Chain.nil _

theorem value_isSome (h : IsRing r l) {a : ℕ} (ha : a ∈ l.map Prod.fst) :
    (r.value a).isSome := by
  obtain ⟨e, he, rfl⟩ := List.mem_map.mp ha
  rw [h.value e he]
  rfl

theorem lt_fresh (h : IsRing r l) {a : ℕ} (ha : a ∈ l.map Prod.fst) : a < r.fresh := by
  obtain ⟨e, he, rfl⟩ := List.mem_map.mp ha
  exact h.fresh e he

/-- The last node precedes the head. -/
theorem prev_head (h : IsRing r l) (hl : l.map Prod.fst ≠ []) :
    r.head = some ((l.map Prod.fst).head hl) ∧
      r.prev ((l.map Prod.fst).head hl) = some ((l.map Prod.fst).getLast hl) := by
  refine ⟨by rw [h.head, List.head?_eq_some_head hl], ?_⟩
  exact ((Cycle.chain_iff hl).mp h.linked).2.2

/-! ## Push -/

/-- Pushing and moving the head to the new node puts the value in front. -/
theorem push (h : IsRing r l) (v : α) :
    ∃ a r', r.push v = some (a, r') ∧ IsRing { r' with head := some a } ((a, v) :: l) := by
  by_cases hl : l.map Prod.fst = []
  · obtain rfl : l = [] := by simpa using hl
    have hhead : r.head = none := by simpa using h.head
    refine ⟨r.fresh, _, by rw [LinkRing.push, hhead], ?_⟩
    constructor
    · simp [h.size]
    · simp
    · simp
    · simp [LinkRing.alloc]
    · simp [LinkRing.value, LinkRing.alloc]
    · show Cycle.Chain _ (([r.fresh] : List ℕ) : Cycle ℕ)
      rw [Cycle.chain_singleton]
      simp [LinkRing.Adjacent, LinkRing.next, LinkRing.prev, LinkRing.alloc]
  · obtain ⟨hhead, hprev⟩ := h.prev_head hl
    obtain ⟨hchain, -⟩ := (Cycle.chain_iff hl).mp h.linked
    have hheadMem := List.head_mem hl
    have hlastMem := List.getLast_mem hl
    have hnodup := h.nodup
    have hlt : ∀ a ∈ l.map Prod.fst, a < r.fresh := fun a ha => h.lt_fresh ha
    have hsome : ∀ a ∈ l.map Prod.fst, (r.value a).isSome := fun a ha => h.value_isSome ha
    generalize hfirst : (l.map Prod.fst).head hl = first at *
    generalize hlast : (l.map Prod.fst).getLast hl = last at *
    have hpos : 0 < r.size := by
      rw [h.size]
      have : l ≠ [] := by simpa using hl
      have := List.length_pos_iff.mpr this
      omega
    have hne : ∀ a ∈ l.map Prod.fst, a ≠ r.fresh := fun a ha => (hlt a ha).ne
    obtain ⟨n, hn⟩ : ∃ n, r.nodes first = some n := by
      have := hsome first hheadMem
      rw [LinkRing.value, Option.isSome_map] at this
      exact Option.isSome_iff_exists.mp this
    have hnprev : n.prev = some last := by simpa [LinkRing.prev, hn] using hprev
    obtain ⟨r₁, hr₁, hvalue₁, hnext₁, hprev₁, hfresh₁, -, hsize₁⟩ :=
      (r.alloc ⟨v, some first, n.prev⟩).exists_setPrev (a := first) (v := some r.fresh) (by
        simpa [hne first hheadMem] using hsome first hheadMem)
    obtain ⟨r₂, hr₂, hvalue₂, hprev₂, hnext₂, hfresh₂, -, hsize₂⟩ :=
      r₁.exists_setNext (a := last) (v := some r.fresh) (by
        simpa [hvalue₁, hne last hlastMem] using hsome last hlastMem)
    refine ⟨r.fresh, { r₂ with size := r₂.size + 1 }, ?_, ?_⟩
    · have hnew : r₁.prev r.fresh = some last := by
        simp [hprev₁, (hne first hheadMem).symm, hnprev]
      rw [LinkRing.push, hhead]
      simp only [hpos, if_true, hn, Option.bind_eq_bind, Option.bind_some, hr₁, hnew, hr₂]
    · have hvalue : r₂.value = Function.update r.value r.fresh (some v) := by
        rw [hvalue₂, hvalue₁, LinkRing.value_alloc]
      have hnext : r₂.next =
          Function.update (Function.update r.next r.fresh (some first)) last (some r.fresh) := by
        rw [hnext₂, hnext₁, LinkRing.next_alloc]
      have hprev' : r₂.prev =
          Function.update (Function.update r.prev r.fresh (some last)) first (some r.fresh) := by
        rw [hprev₂, hprev₁, LinkRing.prev_alloc, hnprev]
      constructor
      · simp [hsize₂, hsize₁, LinkRing.alloc, h.size]
      · simp
      · rw [List.map_cons, List.nodup_cons]
        exact ⟨fun hmem => hne _ hmem rfl, hnodup⟩
      · rintro e (_ | ⟨_, he⟩)
        · simp [hfresh₂, hfresh₁, LinkRing.alloc]
        · have := h.fresh e he
          simp only [hfresh₂, hfresh₁, LinkRing.alloc]
          omega
      · intro e he
        show r₂.value e.1 = some e.2
        rw [hvalue]
        rcases List.mem_cons.mp he with rfl | he
        · simp
        · rw [Function.update_of_ne (hne e.1 (List.mem_map_of_mem he)), h.value e he]
      · show Cycle.Chain r₂.Adjacent (r.fresh :: l.map Prod.fst : List ℕ)
        rw [Cycle.chain_cons_iff hl, hfirst, hlast]
        refine ⟨⟨?_, ?_⟩, ?_, ?_, ?_⟩
        · rw [hnext, Function.update_of_ne (hne last hlastMem).symm, Function.update_self]
        · rw [hprev', Function.update_self]
        · refine hchain.imp_interior hl hnodup ?_
          rintro a ha b hb hal hbf ⟨hab, hba⟩
          constructor
          · rw [hnext, Function.update_of_ne (hlast ▸ hal), Function.update_of_ne (hne a ha), hab]
          · rw [hprev', Function.update_of_ne (hfirst ▸ hbf), Function.update_of_ne (hne b hb),
              hba]
        · rw [hnext, Function.update_self]
        · rw [hprev', Function.update_of_ne (hne first hheadMem).symm, Function.update_self]

/-! ## Pop -/

/-- Popping the node named by a variable outside the ring removes it and returns its value. -/
theorem pop {xs ys : List (ℕ × α)} {a : ℕ} {v : α} (h : IsRing r (xs ++ (a, v) :: ys)) :
    ∃ r', r.pop (.outside (some a)) = some (some v, r') ∧ IsRing r' (xs ++ ys) := by
  have hvalue := h.value (a, v) (by simp)
  by_cases hsize : r.size = 1
  · have hlen := h.size
    rw [hsize] at hlen
    obtain ⟨rfl, rfl⟩ : xs = [] ∧ ys = [] := by
      simp only [List.length_append, List.length_cons] at hlen
      exact ⟨List.length_eq_zero_iff.mp (by omega), List.length_eq_zero_iff.mp (by omega)⟩
    refine ⟨({ r with head := none } : LinkRing α).free a, ?_, ?_⟩
    · simp [LinkRing.pop, LinkRing.pointer, LinkRing.clear, hvalue, hsize]
    · constructor
      · simp [LinkRing.free, hsize]
      · simp [LinkRing.free]
      · simp
      · simp
      · simp
      · exact Cycle.Chain.nil _
  · have hl : ((ys ++ xs).map Prod.fst) ≠ [] := by
      intro hnil
      have hnil' : ys ++ xs = [] := by simpa using hnil
      obtain ⟨rfl, rfl⟩ := List.append_eq_nil_iff.mp hnil'
      exact hsize (by simp [h.size])
    have hrotate : ((xs ++ (a, v) :: ys).map Prod.fst) ~r (a :: (ys ++ xs).map Prod.fst) := by
      rw [List.map_append, List.map_cons, List.map_append]
      exact List.isRotated_append
    have hnodup : (a :: (ys ++ xs).map Prod.fst).Nodup := hrotate.perm.nodup_iff.mp h.nodup
    have hlinked : Cycle.Chain r.Adjacent (a :: (ys ++ xs).map Prod.fst : List ℕ) :=
      (Cycle.coe_eq_coe.mpr hrotate) ▸ h.linked
    obtain ⟨⟨hnexta, hprevf⟩, hchain, hnextl, hpreva⟩ := (Cycle.chain_cons_iff hl).mp hlinked
    obtain ⟨hamem, hnodup'⟩ := List.nodup_cons.mp hnodup
    have hsome : ∀ b ∈ (ys ++ xs).map Prod.fst, (r.value b).isSome := fun b hb =>
      h.value_isSome (hrotate.perm.mem_iff.mpr (List.mem_cons_of_mem _ hb))
    have hheadMem := List.head_mem hl
    have hlastMem := List.getLast_mem hl
    have hhead : (if r.head = some a then some (((ys ++ xs).map Prod.fst).head hl) else r.head) =
        ((xs ++ ys).map Prod.fst).head? := by
      rw [h.head]
      cases xs with
      | nil =>
          rw [← List.head?_eq_some_head hl]
          simp
      | cons x xs =>
          have hxa : x.1 ≠ a := by
            rintro rfl
            exact hamem (by simp)
          simp [hxa]
    generalize hfirst : ((ys ++ xs).map Prod.fst).head hl = first at *
    generalize hlast : ((ys ++ xs).map Prod.fst).getLast hl = last at *
    have hfa : first ≠ a := fun heq => hamem (heq ▸ hheadMem)
    have hla : last ≠ a := fun heq => hamem (heq ▸ hlastMem)
    obtain ⟨r', hr', hvalue', hfresh', hsize', hhead', hnext', hprev'⟩ :=
      LinkRing.exists_unlink hnexta hpreva hla (hsome first hheadMem) (hsome last hlastMem)
    refine ⟨r'.free a, ?_, ?_⟩
    · simp [LinkRing.pop, LinkRing.pointer, LinkRing.clear, hvalue, hsize, hr']
    · have hperm : (xs ++ ys).Perm (ys ++ xs) := List.perm_append_comm
      have hne : ∀ b ∈ (ys ++ xs).map Prod.fst, b ≠ a := fun b hb heq => hamem (heq ▸ hb)
      constructor
      · simp only [LinkRing.free, hsize', h.size, List.length_append, List.length_cons]
        push_cast
        ring
      · rw [← hhead, ← hhead']
        rfl
      · exact (hperm.map Prod.fst).nodup_iff.mpr hnodup'
      · intro e he
        simp only [LinkRing.free, hfresh']
        exact h.fresh e (by
          simp only [List.mem_append, List.mem_cons] at he ⊢
          tauto)
      · intro e he
        have hea : e.1 ≠ a := hne e.1 (List.mem_map_of_mem (hperm.mem_iff.mp he))
        rw [LinkRing.value_free, Function.update_of_ne hea, hvalue']
        exact h.value e (by
          simp only [List.mem_append, List.mem_cons] at he ⊢
          tauto)
      · have hcycle : ((xs ++ ys).map Prod.fst : Cycle ℕ) = ((ys ++ xs).map Prod.fst : List ℕ) := by
          rw [Cycle.coe_eq_coe, List.map_append, List.map_append]
          exact List.isRotated_append
        rw [hcycle, Cycle.chain_iff hl, hfirst, hlast]
        refine ⟨?_, ?_, ?_⟩
        · refine hchain.imp_interior hl hnodup' ?_
          rintro b hb c hc hbl hcf ⟨hbc, hcb⟩
          constructor
          · rw [LinkRing.next_free _ _ (hne b hb), hnext', Function.update_of_ne (hlast ▸ hbl), hbc]
          · rw [LinkRing.prev_free _ _ (hne c hc), hprev', Function.update_of_ne (hfirst ▸ hcf),
              hcb]
        · rw [LinkRing.next_free _ _ hla, hnext', Function.update_self]
        · rw [LinkRing.prev_free _ _ hfa, hprev', Function.update_self]

/-- Popping through the `prev` field of the head takes the last value. -/
theorem pop_prevOf {xs : List (ℕ × α)} {a : ℕ} {v : α} (h : IsRing r (xs ++ [(a, v)])) :
    ∃ first r', r.head = some first ∧ r.pop (.prevOf first) = some (some v, r') := by
  obtain ⟨r₁, hpop, -⟩ := h.pop
  have hl : (xs ++ [(a, v)]).map Prod.fst ≠ [] := by simp
  obtain ⟨hhead, hprev⟩ := h.prev_head hl
  have hmem := List.head_mem hl
  generalize ((xs ++ [(a, v)]).map Prod.fst).head hl = first at *
  have hprev : r.prev first = some a := by simpa using hprev
  have hvalue : r.value a = some v := h.value (a, v) (by simp)
  have hpointer : r.pointer (.prevOf first) = some (some a) := by
    rw [LinkRing.prev, Option.bind_eq_some_iff] at hprev
    obtain ⟨n, hn, hnprev⟩ := hprev
    rw [LinkRing.pointer, hn, Option.map_some, hnprev]
  obtain ⟨r₂, hcut, hvalue₂⟩ : ∃ r₂, (if r.size = 1 then some { r with head := none }
      else r.unlink a) = some r₂ ∧ r₂.value = r.value := by
    simp only [LinkRing.pop, LinkRing.pointer, hvalue, Option.bind_eq_bind, Option.bind_some] at hpop
    split at hpop
    · next hsize => exact ⟨_, if_pos hsize, rfl⟩
    · next hsize =>
        obtain ⟨r₂, hunlink, -⟩ := Option.bind_eq_some_iff.mp hpop
        exact ⟨r₂, by rw [if_neg hsize, hunlink], LinkRing.value_of_unlink hunlink⟩
  obtain ⟨r₃, hclear, -⟩ := r₂.exists_setPrev (a := first) (v := none) (by
    rw [hvalue₂]
    exact h.value_isSome hmem)
  refine ⟨first, r₃.free a, hhead, ?_⟩
  simp only [LinkRing.pop, hpointer, hvalue, Option.bind_eq_bind, Option.bind_some]
  split
  · next hsize =>
      rw [if_pos hsize] at hcut
      obtain rfl := Option.some.inj hcut
      simp only [LinkRing.clear, hclear, Option.bind_some]
  · next hsize =>
      rw [if_neg hsize] at hcut
      simp only [hcut, LinkRing.clear, hclear, Option.bind_some]

/-- The node in front of the head is the last one. -/
theorem prev_of_head {xs : List (ℕ × α)} {a : ℕ} {v : α} (h : IsRing r (xs ++ [(a, v)])) :
    ∃ first, r.head = some first ∧ r.nodes first ≠ none ∧ r.prev first = some a := by
  have hl : (xs ++ [(a, v)]).map Prod.fst ≠ [] := by simp
  obtain ⟨hhead, hprev⟩ := h.prev_head hl
  refine ⟨_, hhead, fun hnone => ?_, ?_⟩
  · rw [LinkRing.prev, hnone] at hprev
    cases hprev
  · rw [hprev]
    simp

end IsRing
