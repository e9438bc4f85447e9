import Nbtrfs.Lib.PageLog

/-!
# Invariants with ghost state

A `Protocol` is an invariant of an image and of ghost state `γ` that no program sees, with the changes
that are allowed where it holds, and with what may be owed and announced, which can grow with the ghost
state. `Upholds M R p x m g Q` says that `p`, started on `m` with the ghost state `x` and the ledger
`g`, is disciplined, ends with some ghost state for which the invariant holds again, changes, owes and
announces no more than `R` allows, and ends in `Q`.
-/

namespace BlockProg

/-- An invariant with ghost state, the allowed changes, and what may be owed and announced. -/
structure Protocol (γ : Type) where
  inv : γ → Image → Prop
  rel : γ → Image → γ → Image → Prop
  refl : ∀ x m, rel x m x m
  trans : ∀ {x m x' m' x'' m''}, rel x m x' m' → rel x' m' x'' m'' → rel x m x'' m''
  allowance : γ → Image → Allowance
  grow : ∀ {x m x' m'}, rel x m x' m' → allowance x m ≤ allowance x' m'

/-- The program keeps to the protocol, and `Q` holds of what it leaves. -/
structure Upholds {γ α : Type} (M : Mapping) (R : Protocol γ) (p : BlockProg α) (x : γ) (m : Image)
    (g : PageLedger) (Q : α → γ → Image → PageLedger → Prop) : Prop where
  disciplined : R.inv x m → Disciplined M p m g fun a m' g' =>
    ∃ x', R.inv x' m' ∧ R.rel x m x' m' ∧ PageLedger.Grows (R.allowance x' m') g g' ∧ Q a x' m' g'

namespace Upholds

variable {γ α β σ : Type} {M : Mapping} {R : Protocol γ} {x : γ} {m : Image} {g : PageLedger}
  {p q : BlockProg α} {f : α → BlockProg β} {Q Q' : α → γ → Image → PageLedger → Prop}
  {S : β → γ → Image → PageLedger → Prop} {b i : UInt64}

theorem mono (h : Upholds M R p x m g Q)
    (himp : ∀ a x' m' g', PageLedger.Grows (R.allowance x' m') g g' → R.rel x m x' m' →
      Q a x' m' g' → Q' a x' m' g') : Upholds M R p x m g Q' :=
  ⟨fun hinv => (h.disciplined hinv).mono fun a m' g' ⟨x', hinv', hrel, hgrow, hQ⟩ =>
    ⟨x', hinv', hrel, hgrow, himp a x' m' g' hgrow hrel hQ⟩⟩

/-- The invariant is at hand at the start. -/
theorem of_inv (h : R.inv x m → Upholds M R p x m g Q) : Upholds M R p x m g Q :=
  ⟨fun hinv => (h hinv).disciplined hinv⟩

/-- The invariant is at hand at the end. -/
theorem inv (h : Upholds M R p x m g Q) :
    Upholds M R p x m g fun a x' m' g' => R.inv x' m' ∧ Q a x' m' g' :=
  ⟨fun hinv => (h.disciplined hinv).mono fun _ _ _ ⟨x', hinv', hrel, hgrow, hQ⟩ =>
    ⟨x', hinv', hrel, hgrow, hinv', hQ⟩⟩

/-- What is upheld under a protocol with the same invariant that allows less, but may leave one page
owed that is announced in the end. -/
theorem settle {R' : Protocol γ} (h : Upholds M R' p x m g fun a x' m' g' =>
      b ∈ g'.announced ∧ Q a x' m' g')
    (hinv : ∀ x m, R.inv x m ↔ R'.inv x m) (hrel : ∀ x m x' m', R'.rel x m x' m' → R.rel x m x' m')
    (hallow : ∀ x m, R'.allowance x m ≤ (R.allowance x m).owing b) : Upholds M R p x m g Q :=
  ⟨fun hx => (h.disciplined ((hinv x m).mp hx)).mono
    fun _ _ _ ⟨x', hx', hrel', hgrow, hb, hQ⟩ =>
      ⟨x', (hinv _ _).mpr hx', hrel _ _ _ _ hrel', (hgrow.mono (hallow _ _)).paid hb, hQ⟩⟩

/-- A step without ghost state of its own. -/
theorem of_tidy {D : Allowance} (h : R.inv x m → Tidy M D p m g fun a m' g' =>
      ∃ x', R.inv x' m' ∧ R.rel x m x' m' ∧ D ≤ R.allowance x' m' ∧ Q a x' m' g') :
    Upholds M R p x m g Q :=
  ⟨fun hinv => Disciplined.mono (h hinv) fun _ _ _ ⟨hgrow, x', hinv', hrel, hD, hQ⟩ =>
    ⟨x', hinv', hrel, hgrow.mono hD, hQ⟩⟩

theorem pure {a : α} (h : Q a x m g) : Upholds M R (Pure.pure a) x m g Q :=
  ⟨fun hinv => ⟨x, hinv, R.refl x m, PageLedger.Grows.refl, h⟩⟩

theorem crash : Upholds M R (BlockProg.crash : BlockProg α) x m g Q := ⟨fun _ => trivial⟩

theorem bind (hp : Upholds M R p x m g Q)
    (hf : ∀ a x' m' g', PageLedger.Grows (R.allowance x' m') g g' → R.rel x m x' m' →
      Q a x' m' g' → Upholds M R (f a) x' m' g' S) :
    Upholds M R (p >>= f) x m g S := by
  refine ⟨fun hinv => Disciplined.bind_iff.mpr ((hp.disciplined hinv).mono ?_)⟩
  intro a m' g' ⟨x', hinv', hrel, hgrow, hQ⟩
  refine ((hf a x' m' g' hgrow hrel hQ).disciplined hinv').mono ?_
  intro c m'' g'' ⟨x'', hinv'', hrel', hgrow', hS⟩
  exact ⟨x'', hinv'', R.trans hrel hrel', (hgrow.mono (R.grow hrel')).trans hgrow', hS⟩

/-- The first part of a sequence may be a sequence itself. -/
theorem assoc {δ : Type} {k : β → BlockProg δ} {S : δ → γ → Image → PageLedger → Prop}
    (h : Upholds M R (p >>= fun a => f a >>= k) x m g S) : Upholds M R (p >>= f >>= k) x m g S := by
  refine ⟨fun hinv => Disciplined.bind_iff.mpr (Disciplined.bind_iff.mpr ?_)⟩
  exact (Disciplined.bind_iff.mp (h.disciplined hinv)).mono fun _ _ _ => Disciplined.bind_iff.mp

/-- What comes after reading starts on the same image. -/
theorem read_bind (hp : Reads M p) (hf : ∀ a g', PageLedger.Grows Allowance.none g g' →
    Upholds M R (f a) x m g' S) : Upholds M R (p >>= f) x m g S := by
  refine Upholds.bind (Q := fun _ x' m' g' => x' = x ∧ m' = m ∧
    PageLedger.Grows Allowance.none g g') ?_ ?_
  · exact ⟨fun hinv => Disciplined.mono (hp m g) fun a m' g' ⟨hgrow, hm⟩ =>
      ⟨x, hm ▸ hinv, hm ▸ R.refl x m, hgrow.mono (Allowance.none_le _), rfl, hm, hgrow⟩⟩
  · rintro a x' m' g' - - ⟨rfl, rfl, hgrow⟩
    exact hf a g' hgrow

/-- A program that only reads ends where it started. -/
theorem read {E : α → Prop} (hp : Reads M p) (he : R.inv x m → Ensures M p m fun a _ => E a) :
    Upholds M R p x m g fun a x' m' g' =>
      x' = x ∧ m' = m ∧ PageLedger.Grows Allowance.none g g' ∧ E a :=
  ⟨fun hinv => Disciplined.mono (Tidy.ensures (hp m g) (he hinv)) fun _ _ _ ⟨hgrow, ha, hm⟩ =>
    ⟨x, hm ▸ hinv, hm ▸ R.refl x m, hgrow.mono (Allowance.none_le _), rfl, hm, hgrow, ha⟩⟩

/-- A page in hand may be read. -/
theorem page_bind {f : Bytes → BlockProg β} (hb : b ∈ g.held)
    (hf : ∀ c, M.addr b = some c → Upholds M R (f (m c)) x m g S) :
    Upholds M R (page b >>= f) x m g S :=
  ⟨fun hinv => Disciplined.bind_iff.mpr ⟨hb, fun c hc => (hf c hc).disciplined hinv⟩⟩

theorem fetch_bind {f : Unit → BlockProg β}
    (hf : ∀ g', PageLedger.Grows Allowance.none g g' → b ∈ g'.held →
      Upholds M R (f ()) x m g' S) :
    Upholds M R (fetch i b >>= f) x m g S :=
  ⟨fun hinv => ((hf _ (PageLedger.Grows.obtain b) (Set.mem_insert b g.held)).disciplined hinv).mono
    fun _ _ _ ⟨x', hinv', hrel, hgrow, hS⟩ =>
      ⟨x', hinv', hrel, (PageLedger.Grows.obtain b).trans hgrow, hS⟩⟩

theorem ite {c : Prop} [Decidable c] (hp : c → Upholds M R p x m g Q)
    (hq : ¬c → Upholds M R q x m g Q) : Upholds M R (if c then p else q) x m g Q := by
  by_cases h : c
  · rw [if_pos h]
    exact hp h
  · rw [if_neg h]
    exact hq h

/-- A program that owes nothing, with what it makes of the image. -/
theorem of_neat {K : Set UInt64} {E : α → γ → Image → Prop} (hneat : Neat M K p)
    (hK : ∀ x m, K ⊆ (R.allowance x m).announced)
    (he : R.inv x m → Ensures M p m fun a m' => ∃ x', R.inv x' m' ∧ R.rel x m x' m' ∧ E a x' m') :
    Upholds M R p x m g fun a x' m' _ => E a x' m' :=
  of_tidy fun hinv => (Tidy.ensures (hneat m g) (he hinv)).mono
    fun _ _ _ _ ⟨⟨x', hinv', hrel, hE⟩, _⟩ => ⟨x', hinv', hrel, Allowance.only_le (hK _ _), hE⟩

/-- A change of a page in hand that was announced before, or need not be. -/
theorem modify {h : Bytes → Bytes} {E : γ → Image → Prop} (hb : b ∈ g.held)
    (hD : b ∈ (R.allowance x m).owed ∨ b ∈ g.announced)
    (he : ∀ c, M.addr b = some c → R.inv x m → ∃ x', R.inv x' (Function.update m c (h (m c))) ∧
      R.rel x m x' (Function.update m c (h (m c))) ∧ E x' (Function.update m c (h (m c)))) :
    Upholds M R (BlockProg.modify b h) x m g fun _ x' m' _ => E x' m' := by
  refine ⟨fun hinv => ⟨hb, fun c hc => ?_⟩⟩
  obtain ⟨x', hinv', hrel, hE⟩ := he c hc hinv
  exact ⟨x', hinv', hrel, (PageLedger.Grows.change hD).mono (R.grow hrel), hE⟩

/-- A change of a page in hand that is announced right after it. -/
theorem modify_writeBack_bind {h : Bytes → Bytes} {f : Unit → BlockProg β} {E : γ → Image → Prop}
    (hb : b ∈ g.held)
    (he : ∀ c, M.addr b = some c → R.inv x m → ∃ x', R.inv x' (Function.update m c (h (m c))) ∧
      R.rel x m x' (Function.update m c (h (m c))) ∧
      b ∈ (R.allowance x' (Function.update m c (h (m c)))).announced ∧
      E x' (Function.update m c (h (m c))))
    (hf : ∀ x' m' g', PageLedger.Grows (R.allowance x' m') g g' → R.rel x m x' m' → b ∈ g'.held →
      b ∈ g'.announced → E x' m' → Upholds M R (f ()) x' m' g' S) :
    Upholds M R (BlockProg.modify b h >>= fun _ => writeBack i b >>= f) x m g S := by
  refine ⟨fun hinv => ⟨hb, fun c hc => ⟨hb, ?_⟩⟩⟩
  obtain ⟨x', hinv', hrel, hann, hE⟩ := he c hc hinv
  have hgrow : PageLedger.Grows (R.allowance x' (Function.update m c (h (m c)))) g
      ((g.change b).announce b) :=
    PageLedger.Grows.settle (PageLedger.Grows.announce hann) (Set.mem_insert b g.announced)
  refine ((hf x' _ _ hgrow hrel hb (Set.mem_insert b g.announced) hE).disciplined hinv').mono ?_
  intro a m' g' ⟨x'', hinv'', hrel', hgrow', hS⟩
  exact ⟨x'', hinv'', R.trans hrel hrel', (hgrow.mono (R.grow hrel')).trans hgrow', hS⟩

/-- The loop rule: what every iteration keeps holds after the loop. -/
theorem forUp {body : ℕ → σ → BlockProg σ} (Inv : σ → γ → Image → PageLedger → Prop) {n start : ℕ}
    {s : σ} (hinit : Inv s x m g) (hstep : ∀ i s x' m' g', Inv s x' m' g' →
      Upholds M R (body i s) x' m' g' Inv) :
    Upholds M R (BlockProg.forUp body n start s) x m g Inv := by
  induction n generalizing start s x m g with
  | zero => exact pure hinit
  | succ n ih => exact (hstep start s x m g hinit).bind fun s' m' g' _ _ _ hinv => ih hinv

end Upholds

end BlockProg
