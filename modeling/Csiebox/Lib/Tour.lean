import Mathlib.Data.Set.Insert
import Mathlib.Data.List.Nodup

namespace Tour

-- A program that goes from place to place. `At k on said s`: the places of `on` are done,
-- `said` has been said, and the program goes on with `k`. From a `Bad` state it does not.
structure Guide (σ κ α β : Type*) where
  Run : σ → σ → Prop
  Bad : σ → Prop
  At : κ → Set α → List β → σ → Prop
  word : α → List β
  refl : ∀ s, Run s s
  trans : ∀ {s t u}, Run s t → Run t u → Run s u
  bad : ∀ {s t}, Run s t → Bad t → Bad s

variable {σ κ α β : Type*} (g : Guide σ κ α β)

-- From `s`, with the places of `on` done, the program goes once to each place of `due`,
-- says its word there, and comes to `k`.
def Guide.Tours (on due : Set α) (s : σ) (said : List β) (k : κ) : Prop :=
  g.Bad s ∨ ∃ (ps : List α) (t : σ), ps.Nodup ∧ (∀ p, p ∈ ps ↔ p ∈ due) ∧ g.Run s t ∧
    g.At k (on ∪ due) (said ++ ps.flatMap g.word) t

variable {g} {on due fore aft : Set α} {p : α} {s t : σ} {said : List β} {j k : κ}

theorem Guide.Tours.prepend (h : g.Tours on due t said k) (hrun : g.Run s t) : g.Tours on due s said k := by
  obtain hbad | ⟨ps, u, hnodup, hps, hto, hat⟩ := h
  · exact .inl (g.bad hrun hbad)
  · exact .inr ⟨ps, u, hnodup, hps, g.trans hrun hto, hat⟩

theorem Guide.Tours.done (h : g.At k on said s) : g.Tours on ∅ s said k := by
  refine .inr ⟨[], s, List.nodup_nil, by simp, g.refl s, ?_⟩
  rwa [Set.union_empty, List.flatMap_nil, List.append_nil]

-- One place and then the others.
theorem Guide.Tours.cons (h : g.Tours (insert p on) due t (said ++ g.word p) k) (hp : p ∉ due)
    (hrun : g.Run s t) : g.Tours on (insert p due) s said k := by
  obtain hbad | ⟨ps, u, hnodup, hps, hto, hat⟩ := h
  · exact .inl (g.bad hrun hbad)
  · refine .inr ⟨p :: ps, u, ?_, fun r => ?_, g.trans hrun hto, ?_⟩
    · exact List.nodup_cons.mpr ⟨fun hmem => hp ((hps p).mp hmem), hnodup⟩
    · rw [List.mem_cons, Set.mem_insert_iff, hps r]
    · rwa [Set.insert_union, ← Set.union_insert, List.append_assoc, ← List.flatMap_cons] at hat

-- First the places of `fore`, then those of `aft`.
theorem Guide.Tours.seq (h : g.Tours on fore s said j) (hdisj : ∀ r ∈ fore, r ∉ aft)
    (hnext : ∀ t said, g.At j (on ∪ fore) said t → g.Tours (on ∪ fore) aft t said k) :
    g.Tours on (fore ∪ aft) s said k := by
  obtain hbad | ⟨ps, t, hnodup, hps, hto, hat⟩ := h
  · exact .inl hbad
  · obtain hbad | ⟨rs, u, hnodup', hrs, hto', hat'⟩ := hnext t _ hat
    · exact .inl (g.bad hto hbad)
    · refine .inr ⟨ps ++ rs, u, ?_, fun r => ?_, g.trans hto hto', ?_⟩
      · refine List.nodup_append.mpr ⟨hnodup, hnodup', fun r hr r' hr' heq => ?_⟩
        subst heq
        exact hdisj r ((hps r).mp hr) ((hrs r).mp hr')
      · rw [List.mem_append, Set.mem_union, hps r, hrs r]
      · rwa [Set.union_assoc, List.append_assoc, ← List.flatMap_append] at hat'

end Tour
