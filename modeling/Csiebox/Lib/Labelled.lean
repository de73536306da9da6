import Mathlib.Algebra.GroupWithZero.Nat

namespace Labelled

variable {σ ε : Type*} {Step : σ → ε → σ → Prop}

-- A finite run and what it says of its steps, the latest event last.
inductive Run (Step : σ → ε → σ → Prop) (s : σ) : List ε → σ → Prop where
  | refl : Run Step s [] s
  | snoc {es : List ε} {e : ε} {t u : σ} (before : Run Step s es t) (last : Step t e u) :
      Run Step s (es ++ [e]) u

theorem Run.one {s t : σ} {e : ε} (h : Step s e t) : Run Step s [e] t :=
  .snoc .refl h

theorem Run.trans {s t u : σ} {es es' : List ε} (h : Run Step s es t) (h' : Run Step t es' u) :
    Run Step s (es ++ es') u := by
  induction h' with
  | refl => simpa using h
  | snoc _ last ih =>
      rw [← List.append_assoc]
      exact .snoc ih last

-- An invariant of the history and the state.
theorem Run.invariant {P : List ε → σ → Prop}
    (step : ∀ es s e s', P es s → Step s e s' → P (es ++ [e]) s') {s t : σ} {es hist : List ε}
    (h : Run Step s es t) (hs : P hist s) : P (hist ++ es) t := by
  induction h with
  | refl => simpa using hs
  | snoc _ last ih =>
      rw [← List.append_assoc]
      exact step _ _ _ _ ih last

-- An invariant of the state, with what it says of each event.
theorem Run.always {P : σ → Prop} {Q : ε → Prop}
    (step : ∀ s e s', P s → Step s e s' → P s' ∧ Q e) {s t : σ} {es : List ε}
    (h : Run Step s es t) (hs : P s) : P t ∧ ∀ e ∈ es, Q e := by
  induction h with
  | refl => exact ⟨hs, by simp⟩
  | snoc _ last ih =>
      obtain ⟨ht, hes⟩ := ih
      obtain ⟨hu, he⟩ := step _ _ _ ht last
      refine ⟨hu, ?_⟩
      intro e h
      rw [List.mem_append, List.mem_singleton] at h
      obtain h | rfl := h
      · exact hes e h
      · exact he

-- A potential that each step lowers, up to what its event costs.
theorem Run.bounded {P : σ → Prop} (potential : σ → Nat) (cost : ε → Nat)
    (step : ∀ s e s', P s → Step s e s' → P s' ∧ potential s' + 1 ≤ potential s + cost e)
    {s t : σ} {es : List ε} (h : Run Step s es t) (hs : P s) :
    potential t + es.length ≤ potential s + (es.map cost).sum := by
  have hboth : P t ∧ potential t + es.length ≤ potential s + (es.map cost).sum := by
    induction h with
    | refl => exact ⟨hs, by simp⟩
    | snoc _ last ih =>
        obtain ⟨ht, hle⟩ := ih
        obtain ⟨hu, hlast⟩ := step _ _ _ ht last
        refine ⟨hu, ?_⟩
        simp only [List.length_append, List.length_singleton, List.map_append, List.map_singleton,
          List.sum_append, List.sum_singleton]
        omega
  exact hboth.2

end Labelled
