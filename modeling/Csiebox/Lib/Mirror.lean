import Mathlib.Data.Set.Insert
import Mathlib.Logic.Function.Basic

namespace Mirror

variable {α β γ : Type*} {e : α → γ} {src : α → β} {on on' : Set α} {dst mid dst' : γ → β}

-- `dst'` is `dst` with the values of `src` at the places in `on`; `e` tells where a
-- place of the source lies in the target.
structure Copies (e : α → γ) (src : α → β) (on : Set α) (dst dst' : γ → β) : Prop where
  copied : ∀ a ∈ on, dst' (e a) = src a
  kept : ∀ c, (∀ a ∈ on, e a ≠ c) → dst' c = dst c

theorem Copies.refl (e : α → γ) (src : α → β) (dst : γ → β) : Copies e src ∅ dst dst :=
  ⟨fun _ h => absurd h (Set.notMem_empty _), fun _ _ => rfl⟩

theorem Copies.congr (h : Copies e src on dst dst') (hset : ∀ a, a ∈ on ↔ a ∈ on') :
    Copies e src on' dst dst' := by
  rwa [show on' = on from (Set.ext hset).symm]

-- One place more.
theorem Copies.put [DecidableEq γ] (h : Copies e src on dst mid) (he : Function.Injective e) (a : α) :
    Copies e src (insert a on) dst (Function.update mid (e a) (src a)) := by
  constructor
  · intro x hx
    by_cases hxa : x = a
    · rw [hxa, Function.update_self]
    · rw [Function.update_of_ne (he.ne hxa)]
      exact h.copied x (Set.mem_of_mem_insert_of_ne hx hxa)
  · intro c hc
    rw [Function.update_of_ne (hc a (Set.mem_insert a on)).symm]
    exact h.kept c fun x hx => hc x (Set.mem_insert_of_mem a hx)

-- What is found at a place of the target in the meantime.
theorem Copies.either (h : Copies e src on dst mid) (he : Function.Injective e) (a : α) :
    mid (e a) = src a ∨ mid (e a) = dst (e a) := by
  by_cases ha : a ∈ on
  · exact .inl (h.copied a ha)
  · refine .inr (h.kept _ fun x hx heq => ?_)
    rw [he heq] at hx
    exact ha hx

-- Where the source has nothing to say, the target is as before.
theorem Copies.outside (h : Copies e src on dst dst') {c : γ} (hc : ∀ a, e a ≠ c) : dst' c = dst c :=
  h.kept c fun a _ => hc a

-- The places in `on` settle the outcome.
theorem Copies.unique {dst'' : γ → β} (h : Copies e src on dst dst') (h' : Copies e src on dst dst'') :
    dst' = dst'' := by
  funext c
  by_cases hc : ∃ a ∈ on, e a = c
  · obtain ⟨a, ha, rfl⟩ := hc
    rw [h.copied a ha, h'.copied a ha]
  · have hkept : ∀ a ∈ on, e a ≠ c := fun a ha heq => hc ⟨a, ha, heq⟩
    rw [h.kept c hkept, h'.kept c hkept]

-- Copying again changes nothing.
theorem Copies.again {dst'' : γ → β} (h : Copies e src on dst dst') (h' : Copies e src on dst' dst'') :
    dst'' = dst' := by
  funext c
  by_cases hc : ∃ a ∈ on, e a = c
  · obtain ⟨a, ha, rfl⟩ := hc
    rw [h.copied a ha, h'.copied a ha]
  · exact h'.kept c fun a ha heq => hc ⟨a, ha, heq⟩

-- A target that is empty elsewhere ends as a copy of the source.
theorem Copies.exact (h : Copies e src on dst dst') (he : Function.Injective e)
    (hrest : ∀ a, a ∉ on → dst (e a) = src a) (a : α) : dst' (e a) = src a := by
  by_cases ha : a ∈ on
  · exact h.copied a ha
  · rw [h.kept (e a) fun x hx heq => ha (he heq ▸ hx), hrest a ha]

end Mirror
