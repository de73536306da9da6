import Csiebox.Lib.Logic

namespace Program

section Ends

variable {Op : Type → Type} {β ε σ α γ δ : Type} {K : Kernel Op σ}

-- A program that has come to its end, a normal or an abnormal one.
def Proc.Ended (p : Proc Op β ε σ α) : Prop :=
  (∃ a, p.prog = .ret a) ∨ ∃ e, p.prog = .halt e

-- Programs that come to the same ends, having sent the same, from every state.
def SameEnds (p q : Prog Op β ε α) : Prop :=
  ∀ (σ : Type) (K : Kernel Op σ) (s : σ) (l : Link β) (out : List β) (r : Proc Op β ε σ α),
    r.Ended → (Exec K ⟨p, s, l⟩ out r ↔ Exec K ⟨q, s, l⟩ out r)

theorem SameEnds.refl (p : Prog Op β ε α) : SameEnds p p := fun _ _ _ _ _ _ _ => Iff.rfl

theorem SameEnds.symm {p q : Prog Op β ε α} (h : SameEnds p q) : SameEnds q p :=
  fun σ K s l out r hr => (h σ K s l out r hr).symm

theorem SameEnds.trans {p q r : Prog Op β ε α} (h : SameEnds p q) (h' : SameEnds q r) : SameEnds p r :=
  fun σ K s l out t ht => (h σ K s l out t ht).trans (h' σ K s l out t ht)

theorem exec_of_sameEnds {p q : Prog Op β ε α} {f g : α → Prog Op β ε γ} (hp : SameEnds p q)
    (hf : ∀ a, SameEnds (f a) (g a)) {s : σ} {l : Link β} {out : List β} {r : Proc Op β ε σ γ}
    (hr : r.Ended) (hrun : Exec K ⟨p >>= f, s, l⟩ out r) : Exec K ⟨q >>= g, s, l⟩ out r := by
  rcases hrun.bind_cases with ⟨p', s', l', hfirst, rfl⟩ | ⟨a, s', l', out₁, out₂, hfirst, hrest, rfl⟩
  · -- the run ends where the first part does
    cases p' with
    | ret a =>
        have hq := (hp σ K s l out _ (.inl ⟨a, rfl⟩)).mp hfirst
        have hg := (hf a σ K s' l' [] _ hr).mp (.refl _)
        simpa using hq.seq hg
    | halt e =>
        have hq := (hp σ K s l out _ (.inr ⟨e, rfl⟩)).mp hfirst
        exact hq.bind g
    | _ => rcases hr with ⟨_, h⟩ | ⟨_, h⟩ <;> cases h
  · have hq := (hp σ K s l out₁ _ (.inl ⟨a, rfl⟩)).mp hfirst
    exact hq.seq ((hf a σ K s' l' out₂ r hr).mp hrest)

theorem sameEnds_bind {p q : Prog Op β ε α} {f g : α → Prog Op β ε γ} (hp : SameEnds p q)
    (hf : ∀ a, SameEnds (f a) (g a)) : SameEnds (p >>= f) (q >>= g) :=
  fun _ _ _ _ _ _ hr =>
    ⟨exec_of_sameEnds hp hf hr, exec_of_sameEnds hp.symm (fun a => (hf a).symm) hr⟩

-- A loop is its body and, after that, what is left of it.
theorem sameEnds_iter (body : γ → Prog Op β ε (γ ⊕ δ)) (c : γ) :
    SameEnds (Prog.iter body c) (body c >>= fun
      | .inl c' => Prog.iter body c'
      | .inr d => .ret d) := by
  intro σ K s l out r hr
  constructor
  · intro hrun
    cases hrun with
    | refl _ => rcases hr with ⟨_, h⟩ | ⟨_, h⟩ <;> cases h
    | head first rest =>
        obtain ⟨rfl, rfl⟩ := Prod.mk.inj (Option.some.inj first)
        exact rest
  · exact .silent rfl

theorem SameEnds.ends {p q : Prog Op β ε α} (h : SameEnds p q) {s : σ} {l : Link β}
    {Q : α → σ → Link β → Prop} (hq : Ends K q s l Q) : Ends K p s l Q :=
  ends_iff.mpr fun out a _ _ hrun => hq.returns ((h σ K s l out _ (.inl ⟨a, rfl⟩)).mp hrun)

end Ends

end Program
