import Nbtrfs.Lib.BlockProg

/-!
# What a buffer pool sees of a program

`events M p m` lists what the direct run of `p` on `m` asks of its buffer interface: the pages that it
obtains, changes in place and announces, in order, up to the end of the run or its crash.

`Disciplined M p m g Q` says that the run of `p` on `m`, with the ledger `g` at the start, touches only
pages that it holds and accesses no word outside a page; it is the weakest precondition for `Q` of
the result, the image and the ledger at the end. `Tidy M D p m g Q` adds that every page that the run
changes has been announced at the end, or is one that `D` allows to be owed, and that the run announces
only pages that `D` allows.
-/

/-- What a program asks of its buffer interface. -/
inductive PageEvent where
  | obtained (pnum : UInt64)
  | changed (pnum : UInt64)
  | announced (pnum : UInt64)
deriving DecidableEq

namespace PageEvent

/-- The page that an event obtains. -/
def obtained? : PageEvent → Option UInt64
  | obtained p => some p
  | changed _ => none
  | announced _ => none

def isAnnouncement : PageEvent → Bool
  | obtained _ => false
  | changed _ => false
  | announced _ => true

/-- The pages that some events obtain. -/
def pages (es : List PageEvent) : Finset UInt64 := (es.filterMap obtained?).toFinset

/-- The number of times that some events announce a page. -/
def announcements (es : List PageEvent) : ℕ := es.countP isAnnouncement

/-- The pages that some events obtain are those of their `obtained` events. -/
theorem mem_pages_iff {es : List PageEvent} {p : UInt64} : p ∈ pages es ↔ .obtained p ∈ es := by
  rw [pages, List.mem_toFinset, List.mem_filterMap]
  constructor
  · rintro ⟨e, he, heq⟩
    cases e with
    | obtained q =>
        obtain rfl : q = p := Option.some.inj heq
        exact he
    | changed q => cases heq
    | announced q => cases heq
  · exact fun h => ⟨_, h, rfl⟩

@[simp] theorem announcements_nil : announcements [] = 0 := rfl

@[simp] theorem announcements_obtained (p : UInt64) (es : List PageEvent) :
    announcements (.obtained p :: es) = announcements es := rfl

@[simp] theorem announcements_changed (p : UInt64) (es : List PageEvent) :
    announcements (.changed p :: es) = announcements es := rfl

@[simp] theorem announcements_announced (p : UInt64) (es : List PageEvent) :
    announcements (.announced p :: es) = announcements es + 1 := List.countP_cons_of_pos rfl

end PageEvent

namespace BlockProg

variable {α β σ : Type}

/-! ## The events of a run -/

/-- The events of a run on the device blocks themselves. -/
def events (M : Mapping) : BlockProg α → Image → List PageEvent
  | done _, _ => []
  | crash, _ => []
  | getBlock _ p k, m => .obtained p :: events M k m
  | load p k, m =>
      match M.addr p with
      | none => []
      | some b => events M (k (m b)) m
  | store p f k, m =>
      match M.addr p with
      | none => []
      | some b => .changed p :: events M k (Function.update m b (f (m b)))
  | loadWord p off k, m =>
      match M.wordAddr p off with
      | none => []
      | some a => events M (k (Bytes.load64 (M.flat m) a)) m
  | storeWord p off v k, m =>
      match M.wordAddr p off with
      | none => []
      | some a => .changed p :: events M k (M.storeFlat m a v)
  | writeBlock _ p k, m => .announced p :: events M k m

section Events

variable {M : Mapping} {m m' : Image}

/-- The events of what follows a first part. -/
def eventsAfter (M : Mapping) (f : α → BlockProg β) : Option (α × Image) → List PageEvent
  | none => []
  | some r => events M (f r.1) r.2

/-- A sequence has the events of its parts. -/
theorem events_bind (p : BlockProg α) (f : α → BlockProg β) :
    events M (p >>= f) m = events M p m ++ eventsAfter M f (run M p m) := by
  show events M (andThen p f) m = _
  induction p generalizing m with
  | done a => rfl
  | crash => rfl
  | getBlock i p k ih => rw [andThen, events, events, run, ih, List.cons_append]
  | writeBlock i p k ih => rw [andThen, events, events, run, ih, List.cons_append]
  | load p k ih =>
      rw [andThen, events, events, run]
      cases M.addr p with
      | none => rfl
      | some b => exact ih (m b)
  | store p g k ih =>
      rw [andThen, events, events, run]
      cases M.addr p with
      | none => rfl
      | some b => exact congrArg (_ :: ·) ih
  | loadWord p off k ih =>
      rw [andThen, events, events, run]
      cases M.wordAddr p off with
      | none => rfl
      | some a => exact ih _
  | storeWord p off v k ih =>
      rw [andThen, events, events, run]
      cases M.wordAddr p off with
      | none => rfl
      | some a => exact congrArg (_ :: ·) ih

@[simp] theorem events_pure (a : α) : events M (pure a) m = [] := rfl

@[simp] theorem events_fetch (i p : UInt64) : events M (fetch i p) m = [.obtained p] := rfl

@[simp] theorem events_writeBack (i p : UInt64) : events M (writeBack i p) m = [.announced p] := rfl

@[simp] theorem events_page (p : UInt64) : events M (page p) m = [] := by
  rw [page, events]
  cases M.addr p <;> rfl

theorem events_modify {p : UInt64} {b : ℕ} (f : Bytes → Bytes) (haddr : M.addr p = some b) :
    events M (modify p f) m = [.changed p] := by
  rw [BlockProg.modify, events, haddr]
  rfl

/-! A run that comes past an access has found the page or the word there. -/

theorem exists_of_run_load {p : UInt64} {k : Bytes → BlockProg α} {r : α × Image}
    (h : run M (.load p k) m = some r) : ∃ b, M.addr p = some b ∧ run M (k (m b)) m = some r ∧
      events M (.load p k) m = events M (k (m b)) m := by
  rw [run] at h
  rw [events]
  cases haddr : M.addr p with
  | none => simp [haddr] at h
  | some b =>
      rw [haddr] at h
      exact ⟨b, rfl, h, rfl⟩

theorem exists_of_run_store {p : UInt64} {f : Bytes → Bytes} {k : BlockProg α} {r : α × Image}
    (h : run M (.store p f k) m = some r) : ∃ b, M.addr p = some b ∧
      run M k (Function.update m b (f (m b))) = some r ∧
      events M (.store p f k) m = .changed p :: events M k (Function.update m b (f (m b))) := by
  rw [run] at h
  rw [events]
  cases haddr : M.addr p with
  | none => simp [haddr] at h
  | some b =>
      rw [haddr] at h
      exact ⟨b, rfl, h, rfl⟩

theorem exists_of_run_loadWord {p : UInt64} {off : ℤ} {k : UInt64 → BlockProg α} {r : α × Image}
    (h : run M (.loadWord p off k) m = some r) : ∃ a, M.wordAddr p off = some a ∧
      run M (k (Bytes.load64 (M.flat m) a)) m = some r ∧
      events M (.loadWord p off k) m = events M (k (Bytes.load64 (M.flat m) a)) m := by
  rw [run] at h
  rw [events]
  cases haddr : M.wordAddr p off with
  | none => simp [haddr] at h
  | some a =>
      rw [haddr] at h
      exact ⟨a, rfl, h, rfl⟩

theorem exists_of_run_storeWord {p : UInt64} {off : ℤ} {v : UInt64} {k : BlockProg α} {r : α × Image}
    (h : run M (.storeWord p off v k) m = some r) : ∃ a, M.wordAddr p off = some a ∧
      run M k (M.storeFlat m a v) = some r ∧
      events M (.storeWord p off v k) m = .changed p :: events M k (M.storeFlat m a v) := by
  rw [run] at h
  rw [events]
  cases haddr : M.wordAddr p off with
  | none => simp [haddr] at h
  | some a =>
      rw [haddr] at h
      exact ⟨a, rfl, h, rfl⟩

end Events

end BlockProg

/-! ## Discipline -/

/-- The pages a program holds, and those it announced and changed so far. -/
structure PageLedger where
  held : Set UInt64
  announced : Set UInt64
  changed : Set UInt64

namespace PageLedger

/-- Nothing happened yet. -/
def empty : PageLedger := ⟨∅, ∅, ∅⟩

def obtain (g : PageLedger) (p : UInt64) : PageLedger := { g with held := insert p g.held }

def change (g : PageLedger) (p : UInt64) : PageLedger := { g with changed := insert p g.changed }

def announce (g : PageLedger) (p : UInt64) : PageLedger :=
  { g with announced := insert p g.announced }

/-- The ledger after some events. -/
def after (g : PageLedger) (es : List PageEvent) : PageLedger where
  held := g.held ∪ {p | .obtained p ∈ es}
  announced := g.announced ∪ {p | .announced p ∈ es}
  changed := g.changed ∪ {p | .changed p ∈ es}

@[simp] theorem after_nil (g : PageLedger) : g.after [] = g := by
  simp [after]

theorem after_obtained (g : PageLedger) (p : UInt64) (es : List PageEvent) :
    g.after (.obtained p :: es) = (g.obtain p).after es := by
  simp only [after, obtain, PageLedger.mk.injEq, Set.ext_iff, Set.mem_union, Set.mem_insert_iff,
    Set.mem_ofPred_eq, List.mem_cons, PageEvent.obtained.injEq, reduceCtorEq, false_or,
    and_true]
  exact fun q => by tauto

theorem after_changed (g : PageLedger) (p : UInt64) (es : List PageEvent) :
    g.after (.changed p :: es) = (g.change p).after es := by
  simp only [after, change, PageLedger.mk.injEq, Set.ext_iff, Set.mem_union, Set.mem_insert_iff,
    Set.mem_ofPred_eq, List.mem_cons, PageEvent.changed.injEq, reduceCtorEq, false_or,
    true_and]
  exact fun q => by tauto

theorem after_announced (g : PageLedger) (p : UInt64) (es : List PageEvent) :
    g.after (.announced p :: es) = (g.announce p).after es := by
  simp only [after, announce, PageLedger.mk.injEq, Set.ext_iff, Set.mem_union, Set.mem_insert_iff,
    Set.mem_ofPred_eq, List.mem_cons, PageEvent.announced.injEq, reduceCtorEq, false_or,
    true_and, and_true]
  exact fun q => by tauto

end PageLedger

/-- The pages that a program may leave changed without announcing them, and those it may announce. -/
structure Allowance where
  owed : Set UInt64
  announced : Set UInt64

namespace Allowance

/-- Nothing may be owed or announced. -/
def none : Allowance := ⟨∅, ∅⟩

/-- Pages of `K` may be announced, and nothing may be owed. -/
def only (K : Set UInt64) : Allowance := ⟨∅, K⟩

/-- Page `b` may be owed too. -/
def owing (D : Allowance) (b : UInt64) : Allowance := { D with owed := insert b D.owed }

instance : LE Allowance := ⟨fun D D' => D.owed ⊆ D'.owed ∧ D.announced ⊆ D'.announced⟩

theorem none_le (D : Allowance) : none ≤ D := ⟨Set.empty_subset _, Set.empty_subset _⟩

theorem only_le {K : Set UInt64} {D : Allowance} (h : K ⊆ D.announced) : only K ≤ D :=
  ⟨Set.empty_subset _, h⟩

end Allowance

namespace PageLedger

/-- From `g` to `g'` the ledger has grown: what changed was announced or may be owed, and what was
announced may be. -/
structure Grows (D : Allowance) (g g' : PageLedger) : Prop where
  held : g.held ⊆ g'.held
  announced : g.announced ⊆ g'.announced
  changed : g'.changed ⊆ g.changed ∪ g'.announced ∪ D.owed
  allowed : g'.announced ⊆ g.announced ∪ D.announced

namespace Grows

variable {D D' : Allowance} {g g' g'' : PageLedger}

theorem refl : Grows D g g :=
  ⟨subset_rfl, subset_rfl, fun _ h => Or.inl (Or.inl h), fun _ h => Or.inl h⟩

theorem mono (h : Grows D g g') (hD : D ≤ D') : Grows D' g g' where
  held := h.held
  announced := h.announced
  changed := h.changed.trans (Set.union_subset_union_right _ hD.1)
  allowed := h.allowed.trans (Set.union_subset_union_right _ hD.2)

/-- What two parts owe and announce in turn is allowed together. -/
theorem trans (h : Grows D g g') (h' : Grows D g' g'') : Grows D g g'' where
  held := h.held.trans h'.held
  announced := h.announced.trans h'.announced
  changed p hp := by
    rcases h'.changed hp with (hp | hp) | hp
    · rcases h.changed hp with (hp | hp) | hp
      · exact Or.inl (Or.inl hp)
      · exact Or.inl (Or.inr (h'.announced hp))
      · exact Or.inr hp
    · exact Or.inl (Or.inr hp)
    · exact Or.inr hp
  allowed p hp := by
    rcases h'.allowed hp with hp | hp
    · exact h.allowed hp
    · exact Or.inr hp

theorem obtain (b : UInt64) : Grows D g (g.obtain b) :=
  ⟨Set.subset_insert b g.held, subset_rfl, fun _ h => Or.inl (Or.inl h), fun _ h => Or.inl h⟩

theorem change {b : UInt64} (hb : b ∈ D.owed ∨ b ∈ g.announced) : Grows D g (g.change b) := by
  refine ⟨subset_rfl, subset_rfl, ?_, fun _ h => Or.inl h⟩
  rintro c (rfl | hc)
  · exact hb.elim Or.inr fun h => Or.inl (Or.inr h)
  · exact Or.inl (Or.inl hc)

theorem announce {b : UInt64} (hb : b ∈ D.announced) : Grows D g (g.announce b) := by
  refine ⟨subset_rfl, Set.subset_insert b g.announced, fun _ h => Or.inl (Or.inl h), ?_⟩
  rintro c (rfl | hc)
  · exact Or.inr hb
  · exact Or.inl hc

/-- A page that was announced in the end is not owed. -/
theorem paid {b : UInt64} (h : Grows (D.owing b) g g') (hb : b ∈ g'.announced) : Grows D g g' where
  held := h.held
  announced := h.announced
  changed p hp := by
    rcases h.changed hp with hp | rfl | hp
    · exact Or.inl hp
    · exact Or.inl (Or.inr hb)
    · exact Or.inr hp
  allowed := h.allowed

/-- A page that was changed first, and announced in the end. -/
theorem settle {b : UInt64} (h : Grows (D.owing b) (g.change b) g') (hb : b ∈ g'.announced) :
    Grows D g g' :=
  ((change (Or.inl (Set.mem_insert b D.owed))).trans h).paid hb

end Grows

end PageLedger

namespace BlockProg

variable {α β σ : Type}

/-- The run touches held pages only, and words inside them. -/
def Disciplined (M : Mapping) :
    BlockProg α → Image → PageLedger → (α → Image → PageLedger → Prop) → Prop
  | done a, m, g, Q => Q a m g
  | crash, _, _, _ => True
  | getBlock _ p k, m, g, Q => Disciplined M k m (g.obtain p) Q
  | load p k, m, g, Q => p ∈ g.held ∧ ∀ b, M.addr p = some b → Disciplined M (k (m b)) m g Q
  | store p f k, m, g, Q => p ∈ g.held ∧ ∀ b, M.addr p = some b →
      Disciplined M k (Function.update m b (f (m b))) (g.change p) Q
  | loadWord p off k, m, g, Q => (p ∈ g.held ∧ 0 ≤ off ∧ off + 8 ≤ M.blockSize) ∧
      ∀ a, M.wordAddr p off = some a → Disciplined M (k (Bytes.load64 (M.flat m) a)) m g Q
  | storeWord p off v k, m, g, Q => (p ∈ g.held ∧ 0 ≤ off ∧ off + 8 ≤ M.blockSize) ∧
      ∀ a, M.wordAddr p off = some a → Disciplined M k (M.storeFlat m a v) (g.change p) Q
  | writeBlock _ p k, m, g, Q => p ∈ g.held ∧ Disciplined M k m (g.announce p) Q

namespace Disciplined

variable {M : Mapping} {m m' : Image} {g : PageLedger} {p : BlockProg α} {f : α → BlockProg β}
  {Q R : α → Image → PageLedger → Prop} {S : β → Image → PageLedger → Prop}

/-- A sequence is disciplined exactly when its second part is, after what the first one leaves. -/
theorem bind_iff : Disciplined M (p >>= f) m g S ↔
    Disciplined M p m g fun a m' g' => Disciplined M (f a) m' g' S := by
  show Disciplined M (andThen p f) m g S ↔ _
  induction p generalizing m g with
  | done a => rfl
  | crash => rfl
  | getBlock i p k ih => exact ih
  | load p k ih => exact and_congr_right fun _ => forall₂_congr fun b _ => ih (m b)
  | store p h k ih => exact and_congr_right fun _ => forall₂_congr fun _ _ => ih
  | loadWord p off k ih => exact and_congr_right fun _ => forall₂_congr fun _ _ => ih _
  | storeWord p off v k ih => exact and_congr_right fun _ => forall₂_congr fun _ _ => ih
  | writeBlock i p k ih => exact and_congr_right fun _ => ih

/-- The final condition may be weakened, and strengthened by what holds if the program returns. -/
theorem mono_ensures (h : Disciplined M p m g Q) (he : Ensures M p m fun a m' => ∀ g', Q a m' g' →
    R a m' g') : Disciplined M p m g R := by
  induction p generalizing m g with
  | done a => exact he a m rfl g h
  | crash => trivial
  | getBlock i p k ih => exact ih h he
  | load p k ih =>
      refine ⟨h.1, fun b hb => ih _ (h.2 b hb) fun a m' hrun => he a m' ?_⟩
      rwa [run, hb]
  | store p f k ih =>
      refine ⟨h.1, fun b hb => ih (h.2 b hb) fun a m' hrun => he a m' ?_⟩
      rwa [run, hb]
  | loadWord p off k ih =>
      refine ⟨h.1, fun x hx => ih _ (h.2 x hx) fun a m' hrun => he a m' ?_⟩
      rwa [run, hx]
  | storeWord p off v k ih =>
      refine ⟨h.1, fun x hx => ih (h.2 x hx) fun a m' hrun => he a m' ?_⟩
      rwa [run, hx]
  | writeBlock i p k ih => exact ⟨h.1, ih h.2 he⟩

/-- The final condition may be weakened. -/
theorem mono (h : Disciplined M p m g Q) (himp : ∀ a m' g', Q a m' g' → R a m' g') :
    Disciplined M p m g R :=
  h.mono_ensures fun a m' _ g' => himp a m' g'

/-- The ledger at the end of a run records its events. -/
theorem of_run {a : α} (h : Disciplined M p m g Q) (hrun : run M p m = some (a, m')) :
    Q a m' (g.after (events M p m)) := by
  induction p generalizing g m with
  | done x =>
      obtain ⟨rfl, rfl⟩ := Prod.mk.inj (Option.some.inj hrun)
      rwa [events, PageLedger.after_nil]
  | crash => cases hrun
  | getBlock i p k ih =>
      rw [events, PageLedger.after_obtained]
      exact ih h hrun
  | load p k ih =>
      obtain ⟨b, haddr, hrun, hev⟩ := exists_of_run_load hrun
      rw [hev]
      exact ih (m b) (h.2 b haddr) hrun
  | store p f k ih =>
      obtain ⟨b, haddr, hrun, hev⟩ := exists_of_run_store hrun
      rw [hev, PageLedger.after_changed]
      exact ih (h.2 b haddr) hrun
  | loadWord p off k ih =>
      obtain ⟨x, haddr, hrun, hev⟩ := exists_of_run_loadWord hrun
      rw [hev]
      exact ih _ (h.2 x haddr) hrun
  | storeWord p off v k ih =>
      obtain ⟨x, haddr, hrun, hev⟩ := exists_of_run_storeWord hrun
      rw [hev, PageLedger.after_changed]
      exact ih (h.2 x haddr) hrun
  | writeBlock i p k ih =>
      rw [events, PageLedger.after_announced]
      exact ih h.2 hrun

/-- A page that the run announces is one that it held or obtained. -/
theorem held_of_announced {a : α} {c : UInt64} (h : Disciplined M p m g Q)
    (hrun : run M p m = some (a, m')) (hc : .announced c ∈ events M p m) :
    c ∈ g.held ∨ .obtained c ∈ events M p m := by
  induction p generalizing g m with
  | done x => cases hc
  | crash => cases hrun
  | getBlock i p k ih =>
      rcases List.mem_cons.mp hc with hc | hc
      · cases hc
      · rcases ih h hrun hc with (rfl | hheld) | hev
        · exact Or.inr List.mem_cons_self
        · exact Or.inl hheld
        · exact Or.inr (List.mem_cons_of_mem _ hev)
  | load p k ih =>
      obtain ⟨x, haddr, hrun, hev⟩ := exists_of_run_load hrun
      rw [hev] at hc ⊢
      exact ih (m x) (h.2 x haddr) hrun hc
  | store p f k ih =>
      obtain ⟨x, haddr, hrun, hev⟩ := exists_of_run_store hrun
      rw [hev] at hc ⊢
      rcases List.mem_cons.mp hc with hc | hc
      · cases hc
      · exact (ih (h.2 x haddr) hrun hc).imp_right (List.mem_cons_of_mem _)
  | loadWord p off k ih =>
      obtain ⟨x, haddr, hrun, hev⟩ := exists_of_run_loadWord hrun
      rw [hev] at hc ⊢
      exact ih _ (h.2 x haddr) hrun hc
  | storeWord p off v k ih =>
      obtain ⟨x, haddr, hrun, hev⟩ := exists_of_run_storeWord hrun
      rw [hev] at hc ⊢
      rcases List.mem_cons.mp hc with hc | hc
      · cases hc
      · exact (ih (h.2 x haddr) hrun hc).imp_right (List.mem_cons_of_mem _)
  | writeBlock i p k ih =>
      -- an announced page must be at hand
      rcases List.mem_cons.mp hc with hc | hc
      · cases hc
        exact Or.inl h.1
      · exact (ih h.2 hrun hc).imp_right (List.mem_cons_of_mem _)

/-- A page that no event names as changed is what it was. -/
theorem image_eq {a : α} {b : ℕ} (h : Disciplined M p m g Q) (hrun : run M p m = some (a, m'))
    (hb : ∀ c, .changed c ∈ events M p m → M.addr c ≠ some b) : m' b = m b := by
  induction p generalizing g m with
  | done x =>
      obtain ⟨-, rfl⟩ := Prod.mk.inj (Option.some.inj hrun)
      rfl
  | crash => cases hrun
  | getBlock i p k ih => exact ih h hrun fun c hc => hb c (List.mem_cons_of_mem _ hc)
  | load p k ih =>
      obtain ⟨x, haddr, hrun, hev⟩ := exists_of_run_load hrun
      rw [hev] at hb
      exact ih (m x) (h.2 x haddr) hrun hb
  | store p f k ih =>
      obtain ⟨x, haddr, hrun, hev⟩ := exists_of_run_store hrun
      rw [hev] at hb
      rw [ih (h.2 x haddr) hrun fun c hc => hb c (List.mem_cons_of_mem _ hc)]
      refine Function.update_of_ne ?_ _ _
      rintro rfl
      exact hb p List.mem_cons_self haddr
  | loadWord p off k ih =>
      obtain ⟨x, haddr, hrun, hev⟩ := exists_of_run_loadWord hrun
      rw [hev] at hb
      exact ih _ (h.2 x haddr) hrun hb
  | storeWord p off v k ih =>
      obtain ⟨x, haddr, hrun, hev⟩ := exists_of_run_storeWord hrun
      rw [hev] at hb
      rw [ih (h.2 x haddr) hrun fun c hc => hb c (List.mem_cons_of_mem _ hc)]
      -- a word at a disciplined offset lies in the page itself
      obtain ⟨c, hc, hx⟩ := Mapping.wordAddr_eq_some haddr
      obtain ⟨-, h0, hend⟩ := h.1
      obtain ⟨o, rfl⟩ := Int.eq_ofNat_of_zero_le h0
      obtain rfl : x = M.blockSize * c + o := by omega
      rw [Mapping.storeFlat_page v (by omega)]
      refine Function.update_of_ne ?_ _ _
      rintro rfl
      exact hb p List.mem_cons_self hc
  | writeBlock i p k ih => exact ih h.2 hrun fun c hc => hb c (List.mem_cons_of_mem _ hc)

end Disciplined

/-! ## Tidiness -/

/-- Disciplined, and what is owed and announced at the end is what `D` allows. -/
def Tidy (M : Mapping) (D : Allowance) (p : BlockProg α) (m : Image) (g : PageLedger)
    (Q : α → Image → PageLedger → Prop) : Prop :=
  Disciplined M p m g fun a m' g' => PageLedger.Grows D g g' ∧ Q a m' g'

namespace Tidy

variable {M : Mapping} {m m' : Image} {D D' : Allowance} {g : PageLedger} {p q : BlockProg α}
  {f : α → BlockProg β} {Q R : α → Image → PageLedger → Prop}
  {S : β → Image → PageLedger → Prop} {b i : UInt64}

theorem mono (h : Tidy M D p m g Q)
    (himp : ∀ a m' g', PageLedger.Grows D g g' → Q a m' g' → R a m' g') : Tidy M D p m g R :=
  Disciplined.mono h fun a m' g' ⟨hgrow, hQ⟩ => ⟨hgrow, himp a m' g' hgrow hQ⟩

theorem weaken (h : Tidy M D p m g Q) (hD : D ≤ D') : Tidy M D' p m g Q :=
  Disciplined.mono h fun _ _ _ ⟨hgrow, hQ⟩ => ⟨hgrow.mono hD, hQ⟩

/-- What holds if the program returns may be assumed of its outcome. -/
theorem ensures {E : α → Image → Prop} (h : Tidy M D p m g Q) (he : Ensures M p m E) :
    Tidy M D p m g fun a m' g' => E a m' ∧ Q a m' g' :=
  Disciplined.mono_ensures h fun a m' hrun _ ⟨hgrow, hQ⟩ => ⟨hgrow, he a m' hrun, hQ⟩

theorem pure {a : α} (h : Q a m g) : Tidy M D (Pure.pure a) m g Q := ⟨PageLedger.Grows.refl, h⟩

theorem crash : Tidy M D (BlockProg.crash : BlockProg α) m g Q := trivial

theorem bind (hp : Tidy M D p m g Q)
    (hf : ∀ a m' g', PageLedger.Grows D g g' → Q a m' g' → Tidy M D (f a) m' g' S) :
    Tidy M D (p >>= f) m g S :=
  Disciplined.bind_iff.mpr (Disciplined.mono hp fun a m' g' ⟨hgrow, hQ⟩ =>
    Disciplined.mono (hf a m' g' hgrow hQ) fun _ _ _ ⟨hgrow', hS⟩ => ⟨hgrow.trans hgrow', hS⟩)

/-- A page that was announced in the meantime is no longer owed. -/
theorem settle (h : Tidy M (D.owing b) p m g fun a m' g' => b ∈ g'.announced ∧ Q a m' g') :
    Tidy M D p m g Q :=
  Disciplined.mono h fun _ _ _ ⟨hgrow, hb, hQ⟩ => ⟨hgrow.paid hb, hQ⟩

theorem fetch : Tidy M D (fetch i b) m g fun _ m' g' => m' = m ∧ b ∈ g'.held :=
  ⟨PageLedger.Grows.obtain b, rfl, Set.mem_insert b g.held⟩

theorem page (hb : b ∈ g.held) : Tidy M D (page b) m g fun _ m' g' => m' = m ∧ g' = g :=
  ⟨hb, fun _ _ => ⟨PageLedger.Grows.refl, rfl, rfl⟩⟩

theorem modify {h : Bytes → Bytes} (hb : b ∈ g.held) (hD : b ∈ D.owed ∨ b ∈ g.announced) :
    Tidy M D (modify b h) m g fun _ _ g' => b ∈ g'.held :=
  ⟨hb, fun _ _ => ⟨PageLedger.Grows.change hD, hb⟩⟩

theorem peek {off : ℤ} (hb : b ∈ g.held) (h0 : 0 ≤ off) (hend : off + 8 ≤ M.blockSize) :
    Tidy M D (peek b off) m g fun _ m' g' => m' = m ∧ g' = g :=
  ⟨⟨hb, h0, hend⟩, fun _ _ => ⟨PageLedger.Grows.refl, rfl, rfl⟩⟩

theorem poke {off : ℤ} {v : UInt64} (hb : b ∈ g.held) (h0 : 0 ≤ off) (hend : off + 8 ≤ M.blockSize)
    (hD : b ∈ D.owed ∨ b ∈ g.announced) : Tidy M D (poke b off v) m g fun _ _ g' => b ∈ g'.held :=
  ⟨⟨hb, h0, hend⟩, fun _ _ => ⟨PageLedger.Grows.change hD, hb⟩⟩

theorem writeBack (hb : b ∈ g.held) (hD : b ∈ D.announced) :
    Tidy M D (writeBack i b) m g fun _ m' g' => m' = m ∧ b ∈ g'.announced ∧ b ∈ g'.held :=
  ⟨hb, PageLedger.Grows.announce hD, rfl, Set.mem_insert b g.announced, hb⟩

/-- A page that is obtained and then read. -/
theorem fetch_page_bind {f : Bytes → BlockProg β}
    (h : ∀ pg g', PageLedger.Grows D g g' → b ∈ g'.held → Tidy M D (f pg) m g' S) :
    Tidy M D (BlockProg.fetch i b >>= fun _ => BlockProg.page b >>= f) m g S :=
  fetch.bind fun _ _ g' hgrow ⟨hm, hb⟩ => (page hb).bind fun pg _ _ _ ⟨hm', hsame⟩ =>
    hm' ▸ hm ▸ hsame ▸ h pg g' hgrow hb

theorem ite {c : Prop} [Decidable c] (hp : c → Tidy M D p m g Q) (hq : ¬c → Tidy M D q m g Q) :
    Tidy M D (if c then p else q) m g Q := by
  by_cases h : c
  · rw [if_pos h]
    exact hp h
  · rw [if_neg h]
    exact hq h

/-- The loop rule: what every iteration keeps holds after the loop. -/
theorem forUp {body : ℕ → σ → BlockProg σ} (Inv : σ → Image → PageLedger → Prop) {n start : ℕ} {s : σ}
    (hinit : Inv s m g) (hstep : ∀ i s m' g', PageLedger.Grows D g g' → Inv s m' g' →
      Tidy M D (body i s) m' g' Inv) : Tidy M D (BlockProg.forUp body n start s) m g Inv := by
  induction n generalizing start s m g with
  | zero => exact pure hinit
  | succ n ih =>
      exact (hstep start s m g PageLedger.Grows.refl hinit).bind fun s' m' g' hgrow hinv =>
        ih hinv fun i s m'' g'' hgrow' => hstep i s m'' g'' (hgrow.trans hgrow')

end Tidy

/-! ## Programs that owe nothing -/

/-- Run anywhere, the program holds what it touches, announces what it changes, and announces pages of
`K` only. -/
def Neat (M : Mapping) (K : Set UInt64) (p : BlockProg α) : Prop :=
  ∀ m g, Tidy M (Allowance.only K) p m g fun _ _ _ => True

/-- Run anywhere, the program holds what it touches, and neither changes nor announces anything. -/
def Reads (M : Mapping) (p : BlockProg α) : Prop :=
  ∀ m g, Tidy M Allowance.none p m g fun _ m' _ => m' = m

section Neat

variable {M : Mapping} {m : Image} {K : Set UInt64} {D : Allowance} {g : PageLedger}
  {p q : BlockProg α} {f : α → BlockProg β} {Q : α → Image → PageLedger → Prop}
  {S : β → Image → PageLedger → Prop}

namespace Neat

theorem tidy (h : Neat M K p) (hK : K ⊆ D.announced) : Tidy M D p m g fun _ _ _ => True :=
  (h m g).weaken (Allowance.only_le hK)

/-- The first part of a sequence may be one that owes nothing. -/
theorem tidy_bind (h : Neat M K p) (hK : K ⊆ D.announced)
    (hf : ∀ a m' g', PageLedger.Grows D g g' → Tidy M D (f a) m' g' S) :
    Tidy M D (p >>= f) m g S :=
  (h.tidy hK).bind fun a m' g' hgrow _ => hf a m' g' hgrow

end Neat

namespace Reads

theorem tidy (h : Reads M p) : Tidy M D p m g fun _ m' _ => m' = m :=
  (h m g).weaken (Allowance.none_le D)

/-- What comes after reading starts on the same image. -/
theorem tidy_bind (h : Reads M p)
    (hf : ∀ a g', PageLedger.Grows D g g' → Tidy M D (f a) m g' S) : Tidy M D (p >>= f) m g S :=
  h.tidy.bind fun a _ g' hgrow hm => hm ▸ hf a g' hgrow

/-- What comes after reading goes on with what was read. -/
theorem tidy_bind_of_run {a : α} {m' : Image} (h : Reads M p) (hrun : run M p m = some (a, m'))
    (hf : ∀ g', PageLedger.Grows D g g' → Tidy M D (f a) m g' S) : Tidy M D (p >>= f) m g S := by
  have hresult : Ensures M p m fun a' _ => a' = a := ensures_of_run hrun rfl
  exact (h.tidy.ensures hresult).bind fun _ _ g' hgrow ⟨ha, hm⟩ => ha ▸ hm ▸ hf g' hgrow

theorem pure {a : α} : Reads M (Pure.pure a) := fun _ _ => Tidy.pure rfl

theorem crash : Reads M (BlockProg.crash : BlockProg α) := fun _ _ => Tidy.crash

theorem bind (hp : Reads M p) (hf : ∀ a, Reads M (f a)) : Reads M (p >>= f) :=
  fun _ _ => hp.tidy_bind fun a _ _ => (hf a).tidy

theorem ite {c : Prop} [Decidable c] (hp : c → Reads M p) (hq : ¬c → Reads M q) :
    Reads M (if c then p else q) :=
  fun _ _ => Tidy.ite (fun h => (hp h).tidy) fun h => (hq h).tidy

theorem forUp {body : ℕ → σ → BlockProg σ} {n start : ℕ} {s : σ} (h : ∀ i s, Reads M (body i s)) :
    Reads M (BlockProg.forUp body n start s) := fun m _ =>
  Tidy.forUp (fun _ m' _ => m' = m) rfl fun i s _ _ _ hm => hm ▸ (h i s).tidy

/-- Obtaining a page and reading it. -/
theorem fetch_page {b i : UInt64} {f : Bytes → BlockProg β} (h : ∀ pg, Reads M (f pg)) :
    Reads M (BlockProg.fetch i b >>= fun _ => BlockProg.page b >>= f) := fun _ _ =>
  Tidy.fetch_page_bind fun pg _ _ _ => (h pg).tidy

end Reads

end Neat

end BlockProg
