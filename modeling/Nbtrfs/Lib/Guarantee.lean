import Nbtrfs.Lib.BlockProg

/-!
# What a program may change

A `Change` says which images a program may start from and how it may change them; doing nothing is
allowed, and so is one change after another. `Guarantees M R p m Q` says that `p`, started on such an
image, leaves one, changes it no further than `R` allows, and ends in `Q`. The rules go through
sequences, branches and loops, so only primitive writes have to be looked at.
-/

namespace BlockProg

/-- An invariant, and the changes that are allowed where it holds. -/
structure Change where
  inv : Image → Prop
  rel : Image → Image → Prop
  refl : ∀ m, rel m m
  trans : ∀ {a b c}, rel a b → rel b c → rel a c

/-- From an image with the invariant the program leaves one, after an allowed change, and `Q` holds. -/
def Guarantees {α : Type} (M : Mapping) (R : Change) (p : BlockProg α) (m : Image)
    (Q : α → Image → Prop) : Prop :=
  R.inv m → Ensures M p m fun a m' => R.inv m' ∧ R.rel m m' ∧ Q a m'

namespace Guarantees

variable {α β σ : Type} {M : Mapping} {R : Change} {m : Image} {p q : BlockProg α}
  {f : α → BlockProg β} {Q Q' : α → Image → Prop} {S : β → Image → Prop}

theorem mono (h : Guarantees M R p m Q) (himp : ∀ a m', R.rel m m' → Q a m' → Q' a m') :
    Guarantees M R p m Q' := fun hinv =>
  (h hinv).mono fun a m' ⟨hinv', hrel, hQ⟩ => ⟨hinv', hrel, himp a m' hrel hQ⟩

theorem pure {a : α} (h : Q a m) : Guarantees M R (Pure.pure a) m Q := fun hinv =>
  ensures_pure ⟨hinv, R.refl m, h⟩

theorem crash : Guarantees M R (BlockProg.crash : BlockProg α) m Q := fun _ => ensures_crash

theorem bind (hp : Guarantees M R p m Q)
    (hf : ∀ a m', R.rel m m' → Q a m' → Guarantees M R (f a) m' S) :
    Guarantees M R (p >>= f) m S := by
  intro hinv
  apply ensures_bind
  refine (hp hinv).mono fun a m₁ ⟨hinv₁, hrel₁, hQ⟩ => ?_
  refine (hf a m₁ hrel₁ hQ hinv₁).mono fun b m₂ ⟨hinv₂, hrel₂, hS⟩ => ?_
  exact ⟨hinv₂, R.trans hrel₁ hrel₂, hS⟩

theorem fetch_bind {i b : UInt64} {f : Unit → BlockProg β} (h : Guarantees M R (f ()) m S) :
    Guarantees M R (fetch i b >>= f) m S := fun hinv => ensures_fetch_bind (h hinv)

theorem writeBack_bind {i b : UInt64} {f : Unit → BlockProg β} (h : Guarantees M R (f ()) m S) :
    Guarantees M R (writeBack i b >>= f) m S := fun hinv => ensures_writeBack_bind (h hinv)

theorem page_bind {b : UInt64} {f : Bytes → BlockProg β}
    (h : ∀ c, M.addr b = some c → Guarantees M R (f (m c)) m S) :
    Guarantees M R (page b >>= f) m S := fun hinv =>
  ensures_page_bind fun c haddr => h c haddr hinv

theorem ite {c : Prop} [Decidable c] (hp : c → Guarantees M R p m Q)
    (hq : ¬c → Guarantees M R q m Q) : Guarantees M R (if c then p else q) m Q := by
  by_cases h : c
  · rw [if_pos h]
    exact hp h
  · rw [if_neg h]
    exact hq h

/-- The loop rule: what every iteration keeps holds after the loop. -/
theorem forUp {body : ℕ → σ → BlockProg σ} (Inv : σ → Image → Prop) {n start : ℕ} {s : σ}
    (hinit : Inv s m) (hstep : ∀ i s m, Inv s m → Guarantees M R (body i s) m Inv) :
    Guarantees M R (BlockProg.forUp body n start s) m Inv := by
  induction n generalizing start s m with
  | zero => exact pure hinit
  | succ n ih => exact (hstep start s m hinit).bind fun s' m' _ hinv' => ih hinv'

end Guarantees

end BlockProg
