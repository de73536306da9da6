import Csiebox.Lib.Total

namespace Program

variable {Op : Type → Type} {β ε σ α γ δ : Type}

-- The call that comes next fails on the connection.
def Proc.Fails (p : Proc Op β ε σ α) : Prop :=
  match p.prog with
  | .send _ _ => p.link.alive = false
  | .recv n _ => p.link.closed = true ∧ p.link.inbox.length < n
  | _ => False

-- The run from here returns, in `Q`, and no call of it fails on the connection.
structure Clean (K : Kernel Op σ) (p : Prog Op β ε α) (s : σ) (l : Link β)
    (Q : α → σ → Link β → Prop) : Prop where
  total : Total K p s l Q
  unbroken : ∀ out q, Exec K ⟨p, s, l⟩ out q → ¬q.Fails

section Rules

variable {K : Kernel Op σ} {s s' : σ} {l l' : Link β}

theorem clean_congr {p : Prog Op β ε α} {Q Q' : α → σ → Link β → Prop}
    (hQ : ∀ a s l, Q a s l ↔ Q' a s l) : Clean K p s l Q ↔ Clean K p s l Q' :=
  ⟨fun h => ⟨(total_congr hQ).mp h.total, h.unbroken⟩,
    fun h => ⟨(total_congr hQ).mpr h.total, h.unbroken⟩⟩

@[simp] theorem clean_ret {a : α} {Q : α → σ → Link β → Prop} :
    Clean K (.ret a : Prog Op β ε α) s l Q ↔ Q a s l := by
  refine ⟨fun h => total_ret.mp h.total, fun h => ⟨total_ret.mpr h, ?_⟩⟩
  intro out q hrun
  obtain ⟨-, rfl⟩ := hrun.eq_of_stuck rfl
  exact id

-- A step that does not fail.
theorem clean_step {p p' : Prog Op β ε α} {bs : List β} {Q : α → σ → Link β → Prop}
    (hstep : step K ⟨p, s, l⟩ = some (⟨p', s', l'⟩, bs)) :
    Clean K p s l Q ↔ ¬(⟨p, s, l⟩ : Proc Op β ε σ α).Fails ∧ Clean K p' s' l' Q := by
  constructor
  · rintro ⟨htotal, hunbroken⟩
    obtain ⟨out, a, t, m, hrun, hq⟩ := total_iff_exec.mp htotal
    refine ⟨hunbroken _ _ (.refl _), ?_, fun out q hq => hunbroken _ _ (.head hstep hq)⟩
    cases hrun with
    | refl _ => simp [step] at hstep
    | head first rest =>
        obtain ⟨rfl, -⟩ := Prod.mk.inj (Option.some.inj (first.symm.trans hstep))
        exact total_iff_exec.mpr ⟨_, a, t, m, rest, hq⟩
  · rintro ⟨hfirst, htotal, hunbroken⟩
    obtain ⟨out, a, t, m, hrun, hq⟩ := total_iff_exec.mp htotal
    refine ⟨total_iff_exec.mpr ⟨_, a, t, m, .head hstep hrun, hq⟩, fun out q hrun => ?_⟩
    cases hrun with
    | refl _ => exact hfirst
    | head first rest =>
        obtain ⟨rfl, -⟩ := Prod.mk.inj (Option.some.inj (first.symm.trans hstep))
        exact hunbroken _ _ rest

theorem fails_bind {p : Prog Op β ε α} {f : α → Prog Op β ε γ} (hp : ∀ a, p ≠ .ret a) :
    (⟨p >>= f, s, l⟩ : Proc Op β ε σ γ).Fails ↔ (⟨p, s, l⟩ : Proc Op β ε σ α).Fails := by
  cases p with
  | ret a => exact absurd rfl (hp a)
  | _ => exact Iff.rfl

theorem clean_bind {p : Prog Op β ε α} {f : α → Prog Op β ε γ} {Q : γ → σ → Link β → Prop} :
    Clean K (p >>= f) s l Q ↔ Clean K p s l fun a s l => Clean K (f a) s l Q := by
  constructor
  · rintro ⟨htotal, hunbroken⟩
    obtain ⟨out, a, t, m, hrun, hrest⟩ := total_iff_exec.mp (total_bind.mp htotal)
    refine ⟨total_iff_exec.mpr ⟨out, a, t, m, hrun, hrest, fun _ _ h => hunbroken _ _ (hrun.seq h)⟩, ?_⟩
    rintro out ⟨p', t, m⟩ hp hfails
    have hne : ∀ a, p' ≠ .ret a := by
      rintro a rfl
      exact hfails
    exact hunbroken _ _ (hp.bind f) ((fails_bind hne).mpr hfails)
  · rintro ⟨htotal, hunbroken⟩
    obtain ⟨out, a, t, m, hrun, hrest⟩ := total_iff_exec.mp htotal
    refine ⟨total_bind.mpr (htotal.mono fun _ _ _ h => h.total), fun out' q hq => ?_⟩
    rcases hq.bind_cases with ⟨p', t', m', hp, rfl⟩ | ⟨a', t', m', out₁, out₂, hp, hf, -⟩
    · by_cases hret : ∃ a, p' = .ret a
      · obtain ⟨a', rfl⟩ := hret
        obtain ⟨-, heq⟩ := hrun.unique hp rfl rfl
        cases heq
        exact hrest.unbroken _ _ (.refl _)
      · exact fun hfails => hunbroken _ _ hp ((fails_bind fun a h => hret ⟨a, h⟩).mp hfails)
    · obtain ⟨-, heq⟩ := hrun.unique hp rfl rfl
      cases heq
      exact hrest.unbroken _ _ hf

theorem clean_say {bs : List β} {Q : Bool → σ → Link β → Prop} :
    Clean K (Prog.say bs : Prog Op β ε Bool) s l Q ↔ l.alive = true ∧ Q true s l := by
  cases hl : l.alive with
  | true =>
      have hstep : step K ⟨(Prog.say bs : Prog Op β ε Bool), s, l⟩ = some (⟨.ret true, s, l⟩, bs) := by
        simp [step, Prog.say, hl]
      rw [clean_step hstep, clean_ret]
      exact and_congr_left' (iff_of_true (by simp [Proc.Fails, Prog.say, hl]) rfl)
  | false =>
      refine iff_of_false (fun h => h.unbroken _ _ (.refl _) hl) (by simp)

theorem clean_hear {n : Nat} {Q : List β → σ → Link β → Prop} :
    Clean K (Prog.hear n : Prog Op β ε (List β)) s l Q ↔
      n ≤ l.inbox.length ∧ Q (l.inbox.take n) s ⟨l.inbox.drop n, l.closed⟩ := by
  by_cases hn : n ≤ l.inbox.length
  · have hstep : step K ⟨(Prog.hear n : Prog Op β ε (List β)), s, l⟩ =
        some (⟨.ret (l.inbox.take n), s, ⟨l.inbox.drop n, l.closed⟩⟩, []) := by
      simp [step, Prog.hear, hn]
    rw [clean_step hstep, clean_ret]
    exact and_congr_left' (iff_of_true (fun h => absurd h.2 (Nat.not_lt.mpr hn)) hn)
  · refine iff_of_false (fun h => ?_) fun h => hn h.1
    have hready := (total_hear.mp h.total).1.resolve_left hn
    exact h.unbroken _ _ (.refl _) ⟨hready, Nat.lt_of_not_le hn⟩

-- One round of a loop.
theorem clean_iter_unfold {body : γ → Prog Op β ε (γ ⊕ δ)} {c : γ} {Q : δ → σ → Link β → Prop} :
    Clean K (Prog.iter body c) s l Q ↔ Clean K (body c) s l fun r s l =>
      r.elim (fun c' => Clean K (Prog.iter body c') s l Q) fun d => Q d s l := by
  refine (clean_step rfl).trans ((and_iff_right id).trans (clean_bind.trans (clean_congr fun r s l => ?_)))
  cases r with
  | inl c' => exact Iff.rfl
  | inr d => exact clean_ret

end Rules

end Program
