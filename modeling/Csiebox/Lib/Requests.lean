import Csiebox.Lib.Program

namespace Program

variable {Op : Type → Type} {β ε σ α γ δ : Type}

-- How much the next step asks of the connection, if it receives.
def Proc.requests (p : Proc Op β ε σ α) : List Nat :=
  match p.prog with
  | .recv n _ => [n]
  | _ => []

-- A finite silent run with the lengths it asks for.
inductive Asked (K : Kernel Op σ) : Proc Op β ε σ α → List Nat → Proc Op β ε σ α → Prop where
  | refl (p : Proc Op β ε σ α) : Asked K p [] p
  | head {p q r : Proc Op β ε σ α} {ns : List Nat} (first : step K p = some (q, []))
      (rest : Asked K q ns r) : Asked K p (p.requests ++ ns) r

variable {K : Kernel Op σ} {s s' : σ} {l l' : Link β}

theorem Asked.exec {p q : Proc Op β ε σ α} {ns : List Nat} (h : Asked K p ns q) : Exec K p [] q := by
  induction h with
  | refl p => exact .refl p
  | head first _ ih => exact .silent first ih

theorem Asked.trans {p q r : Proc Op β ε σ α} {ns ns' : List Nat} (h : Asked K p ns q)
    (h' : Asked K q ns' r) : Asked K p (ns ++ ns') r := by
  induction h with
  | refl p => exact h'
  | head first _ ih =>
      rw [List.append_assoc]
      exact .head first (ih h')

theorem requests_bind {p : Prog Op β ε α} (hp : ∀ a, p ≠ .ret a) (f : α → Prog Op β ε γ) :
    (⟨p >>= f, s, l⟩ : Proc Op β ε σ γ).requests = (⟨p, s, l⟩ : Proc Op β ε σ α).requests := by
  cases p with
  | ret a => exact absurd rfl (hp a)
  | _ => rfl

theorem Asked.bind {p p' : Prog Op β ε α} {ns : List Nat}
    (h : Asked K ⟨p, s, l⟩ ns ⟨p', s', l'⟩) (f : α → Prog Op β ε γ) :
    Asked K ⟨p >>= f, s, l⟩ ns ⟨p' >>= f, s', l'⟩ := by
  generalize hp : (⟨p, s, l⟩ : Proc Op β ε σ α) = start at h
  generalize hq : (⟨p', s', l'⟩ : Proc Op β ε σ α) = stop at h
  induction h generalizing p s l with
  | refl _ =>
      cases hp
      cases hq
      exact .refl _
  | @head _ q _ ns first _ ih =>
      subst hp
      obtain ⟨q, t, m⟩ := q
      have hne : ∀ a, p ≠ .ret a := by
        intro a ha
        subst ha
        simp [step] at first
      rw [← requests_bind hne f]
      exact .head (step_bind first f) (ih rfl hq)

theorem Asked.seq {p : Prog Op β ε α} {a : α} {f : α → Prog Op β ε γ} {ns ns' : List Nat}
    {q : Proc Op β ε σ γ} (h : Asked K ⟨p, s, l⟩ ns ⟨.ret a, s', l'⟩)
    (h' : Asked K ⟨f a, s', l'⟩ ns' q) : Asked K ⟨p >>= f, s, l⟩ (ns ++ ns') q :=
  (h.bind f).trans h'

theorem asked_sys {o : Op γ} {r : γ} (h : K.exec o s = some (r, s')) :
    Asked K ⟨(Prog.sys o : Prog Op β ε γ), s, l⟩ [] ⟨.ret r, s', l⟩ :=
  .head (by simp [step, Prog.sys, h]) (.refl _)

theorem asked_hear {n : Nat} {bs rest : List β} {c : Bool} (h : bs.length = n) :
    Asked K ⟨(Prog.hear n : Prog Op β ε (List β)), s, ⟨bs ++ rest, c⟩⟩ [n]
      ⟨.ret bs, s, ⟨rest, c⟩⟩ :=
  .head (by simp [step, Prog.hear, ← h]) (.refl _)

theorem asked_iter_more {body : γ → Prog Op β ε (γ ⊕ δ)} {c c' : γ} {ns : List Nat}
    (h : Asked K ⟨body c, s, l⟩ ns ⟨.ret (.inl c'), s', l'⟩) :
    Asked K ⟨Prog.iter body c, s, l⟩ ns ⟨Prog.iter body c', s', l'⟩ :=
  .head rfl (h.bind _)

theorem asked_iter_done {body : γ → Prog Op β ε (γ ⊕ δ)} {c : γ} {d : δ} {ns : List Nat}
    (h : Asked K ⟨body c, s, l⟩ ns ⟨.ret (.inr d), s', l'⟩) :
    Asked K ⟨Prog.iter body c, s, l⟩ ns ⟨.ret d, s', l'⟩ :=
  .head rfl (h.bind _)

end Program
