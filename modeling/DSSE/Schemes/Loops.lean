import Mathlib

/-! Loops without a counter. A round leaves the loop with a result, or gives the state of the next round.
    Where something gets smaller in every round the loop ends; where every round leads to a round of the
    same kind it does not. -/

namespace Schemes

variable {S R : Type*}

/-- `for (;;)`: the result of a loop, if it ends. -/
def loop (round : S → R ⊕ S) : S →. R := PFun.fix fun s => Part.some (round s)

/-- The rounds of a loop come from `s` to `s'`. -/
def Reaches (round : S → R ⊕ S) : S → S → Prop := Relation.ReflTransGen fun s s' => round s = .inr s'

variable {round : S → R ⊕ S} {s s' : S} {r : R}

theorem loop_stop (h : round s = .inl r) : r ∈ loop round s :=
  PFun.fix_stop (by rw [h]; exact Part.mem_some _)

theorem loop_next (h : round s = .inr s') : loop round s = loop round s' :=
  PFun.fix_fwd_eq (by rw [h]; exact Part.mem_some _)

theorem loop_reaches (h : Reaches round s s') : loop round s = loop round s' := by
  induction h with
  | refl => rfl
  | tail _ hround ih => rw [ih, loop_next hround]

/-- A loop has the result of the round that leaves it. -/
theorem mem_loop_iff : r ∈ loop round s ↔ ∃ s', Reaches round s s' ∧ round s' = .inl r := by
  constructor
  · intro h
    refine PFun.fixInduction' (C := fun s => ∃ s', Reaches round s s' ∧ round s' = .inl r) h ?_ ?_
    · intro s hstop
      exact ⟨s, .refl, (Part.mem_some_iff.mp hstop).symm⟩
    · rintro s s₁ _ hround ⟨s', hreach, hstop⟩
      exact ⟨s', .head (Part.mem_some_iff.mp hround).symm hreach, hstop⟩
  · rintro ⟨s', hreach, hstop⟩
    rw [loop_reaches hreach]
    exact loop_stop hstop

/-- What holds of a state and is kept by the rounds holds of every state they reach. -/
theorem Reaches.invariant {I : S → Prop} (hI : ∀ s s', I s → round s = .inr s' → I s')
    (h : Reaches round s s') (hs : I s) : I s' := by
  induction h with
  | refl => exact hs
  | tail _ hround ih => exact hI _ _ ih hround

/-- Something that gets smaller in every round ends the loop. -/
theorem loop_dom_of_measure (μ : S → ℕ) {I : S → Prop}
    (h : ∀ s s', I s → round s = .inr s' → I s' ∧ μ s' < μ s) (hs : I s) : (loop round s).Dom := by
  induction hn : μ s using Nat.strong_induction_on generalizing s with
  | _ n ih =>
    cases hround : round s with
    | inl r => exact Part.dom_iff_mem.mpr ⟨r, loop_stop hround⟩
    | inr s' =>
      obtain ⟨hs', hlt⟩ := h s s' hs hround
      rw [loop_next hround]
      exact ih (μ s') (hn ▸ hlt) hs' rfl

/-- A loop no round of which is the last one. -/
theorem loop_not_dom_of_invariant {I : S → Prop} (h : ∀ s, I s → ∃ s', round s = .inr s' ∧ I s')
    (hs : I s) : ¬ (loop round s).Dom := by
  intro hdom
  obtain ⟨r, hr⟩ := Part.dom_iff_mem.mp hdom
  obtain ⟨s', hreach, hstop⟩ := mem_loop_iff.mp hr
  have hkeep : ∀ s s', I s → round s = .inr s' → I s' := by
    intro s s' hs hround
    obtain ⟨s₁, hround', hs₁⟩ := h s hs
    rw [hround, Sum.inr.injEq] at hround'
    rwa [hround']
  obtain ⟨s₁, hround, _⟩ := h s' (hreach.invariant hkeep hs)
  rw [hstop] at hround
  cases hround

/-! ### Counted loops -/

/-- The result `x` of a counted loop goes on with what a round gives: it is the result of the round, or the
    loop's own in the next state with one round less. An exception leaves it open. -/
def GoesOn (I : S → Prop) (g : ℕ → S → R) (n : ℕ) (x : R) : Option R ⊕ S → Prop
  | .inl none => True
  | .inl (some r) => x = r
  | .inr s => I s ∧ x = g n s

/-- A counted loop with rounds enough has the result of the loop without a counter. -/
theorem eq_of_mem_loop {round : S → Option R ⊕ S} {I : S → Prop} (g : ℕ → S → R) (μ : S → ℕ)
    (hround : ∀ n s, I s → GoesOn I g n (g (n + 1) s) (round s))
    (hμ : ∀ s s', I s → round s = .inr s' → μ s' < μ s) (h : some r ∈ loop round s) :
    ∀ n, I s → μ s < n → g n s = r := by
  refine PFun.fixInduction' (C := fun s => ∀ n, I s → μ s < n → g n s = r) h ?_ ?_
  · rintro s hstop (_ | n) hs hn
    · exact absurd hn (Nat.not_lt_zero _)
    · have hgo := hround n s hs
      rwa [← Part.mem_some_iff.mp hstop] at hgo
  · rintro s s' _ hnext ih (_ | n) hs hn
    · exact absurd hn (Nat.not_lt_zero _)
    · have hgo := hround n s hs
      have hlt := hμ s s' hs (Part.mem_some_iff.mp hnext).symm
      rw [← Part.mem_some_iff.mp hnext] at hgo
      rw [hgo.2]
      exact ih n hgo.1 (by omega)

end Schemes
