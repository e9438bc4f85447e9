import Nbtrfs.Lib.Footprint

/-!
# One program on two images

`result M p m` is what `p` returns on `m`. `Twin M m m' p` says that `p` only reads, and that `m'` is as
good as `m` for it: on both it returns the same, or on both it crashes. Where two images differ in
some pages, a sequence is followed down to the pages that it reads; the parts that look at types and
nodes only come in through `Blind`.
-/

namespace BlockProg

variable {α β : Type} {M : Mapping} {m m' : Image} {p q : BlockProg α} {f : α → BlockProg β}

/-- What a program returns, if it does. -/
def result (M : Mapping) (p : BlockProg α) (m : Image) : Option α := (run M p m).map Prod.fst

theorem result_of_eq {a : α} (h : run M p m = some (a, m')) : result M p m = some a := by
  rw [result, h]
  rfl

theorem result_of_none (h : run M p m = none) : result M p m = none := by
  rw [result, h]
  rfl

/-- On both images the program returns the same and changes nothing, or crashes. -/
def Twin (M : Mapping) (m m' : Image) (p : BlockProg α) : Prop :=
  (∃ a, run M p m = some (a, m) ∧ run M p m' = some (a, m')) ∨
    run M p m = none ∧ run M p m' = none

namespace Twin

/-- What the program returns is the same. -/
theorem result_eq (h : Twin M m m' p) : result M p m' = result M p m := by
  rcases h with ⟨a, hrun, hrun'⟩ | ⟨hrun, hrun'⟩
  · rw [result_of_eq hrun, result_of_eq hrun']
  · rw [result_of_none hrun, result_of_none hrun']

/-- What it returns on one image it returns on the other. -/
theorem run_eq (h : Twin M m m' p) {a : α} {m₁ : Image} (hrun : run M p m = some (a, m₁)) :
    m₁ = m ∧ run M p m' = some (a, m') := by
  rcases h with ⟨c, hc, hc'⟩ | ⟨hc, -⟩
  · rw [hc] at hrun
    obtain ⟨rfl, rfl⟩ := Prod.mk.inj (Option.some.inj hrun)
    exact ⟨rfl, hc'⟩
  · rw [hc] at hrun
    cases hrun

theorem pure (a : α) : Twin M m m' (Pure.pure a : BlockProg α) := Or.inl ⟨a, rfl, rfl⟩

theorem crash : Twin M m m' (BlockProg.crash : BlockProg α) := Or.inr ⟨rfl, rfl⟩

/-- A sequence of readers. The second part starts from what the first one found on `m`. -/
theorem bind (hp : Twin M m m' p) (hf : ∀ a, run M p m = some (a, m) → Twin M m m' (f a)) :
    Twin M m m' (p >>= f) := by
  rcases hp with ⟨a, hrun, hrun'⟩ | ⟨hrun, hrun'⟩
  · rw [Twin, run_bind_of_eq hrun, run_bind_of_eq hrun']
    exact hf a hrun
  · exact Or.inr ⟨run_bind_of_none hrun, run_bind_of_none hrun'⟩

theorem fetch_bind {i b : UInt64} {f : Unit → BlockProg β} (hf : Twin M m m' (f ())) :
    Twin M m m' (fetch i b >>= f) := hf

/-- A page may differ where what is done with it does not. -/
theorem page_bind {b : UInt64} {f : Bytes → BlockProg β}
    (hf : ∀ c, M.addr b = some c → f (m' c) = f (m c) ∧ Twin M m m' (f (m c))) :
    Twin M m m' (page b >>= f) := by
  cases haddr : M.addr b with
  | none =>
      exact Or.inr ⟨run_bind_of_none (run_page_of_none haddr),
        run_bind_of_none (run_page_of_none haddr)⟩
  | some c =>
      obtain ⟨hsame, hc⟩ := hf c haddr
      rw [Twin, run_bind_of_eq (run_page haddr), run_bind_of_eq (run_page haddr), hsame]
      exact hc

/-- A word in a page that is the same on both images. -/
theorem peek {b : UInt64} {off : ℕ} (hoff : off + 8 ≤ M.blockSize)
    (hsame : ∀ c, M.addr b = some c → m' c = m c) : Twin M m m' (BlockProg.peek b off) := by
  cases haddr : M.wordAddr b off with
  | none => exact Or.inr ⟨by rw [BlockProg.peek, run, haddr], by rw [BlockProg.peek, run, haddr]⟩
  | some a =>
      refine Or.inl ⟨_, run_peek haddr, ?_⟩
      rw [run_peek haddr]
      cases hpage : M.addr b with
      | none =>
          rw [Mapping.wordAddr, hpage] at haddr
          cases haddr
      | some c =>
          simp only [Mapping.wordAddr, hpage] at haddr
          split at haddr
          next =>
            obtain rfl : M.blockSize * c + off = a := by
              have := Option.some.inj haddr
              omega
            rw [Mapping.load64_flat hoff, Mapping.load64_flat hoff, hsame c hpage]
          next => cases haddr

theorem ite {c : Prop} [Decidable c] (hp : c → Twin M m m' p) (hq : ¬c → Twin M m m' q) :
    Twin M m m' (if c then p else q) := by
  by_cases h : c
  · rw [if_pos h]
    exact hp h
  · rw [if_neg h]
    exact hq h

/-- A blind program, on images whose pages it does not tell apart. -/
theorem of_blind {S : Bytes → Bytes → Prop} (h : Blind M S p) (hrefl : ∀ pg, S pg pg)
    (hrel : ∀ b, S (m b) (m' b)) : Twin M m m' p := by
  have hall : Within M (fun _ => True) p m := within_all (fun _ => trivial) p
  cases hrun : run M p m with
  | none =>
      refine Or.inr ⟨hrun, ?_⟩
      rw [h _ m m' (fun b _ => hrel b) hall, hrun]
      rfl
  | some r =>
      obtain ⟨a, m₁⟩ := r
      obtain rfl := h.image_eq hrefl hrun
      exact Or.inl ⟨a, hrun, h.run_eq (fun b _ => hrel b) hall hrun⟩

end Twin

end BlockProg
