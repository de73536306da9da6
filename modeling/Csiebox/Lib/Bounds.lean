import Csiebox.Lib.Logic

namespace Program

variable {Op : Type → Type} {β ε σ α γ δ : Type}

section Receives

-- `e` is how a program ends that writes outside its bounds. Some bytes of the number a
-- receive asks for do not end it so.
def Roomy (e : ε) (q : Proc Op β ε σ α) : Prop :=
  match q.prog with
  | .recv n k => ∃ bs, bs.length = n ∧ k bs ≠ .halt e
  | _ => True

-- The bytes a receive delivers do not.
def Contained (K : Kernel Op σ) (e : ε) (q : Proc Op β ε σ α) : Prop :=
  match q.prog with
  | .recv _ _ => ∀ q' out, step K q = some (q', out) → q'.prog ≠ .halt e
  | _ => True

def Tight (K : Kernel Op σ) (e : ε) (q : Proc Op β ε σ α) : Prop := Roomy e q ∧ Contained K e q

-- All receives of all runs from here fit.
def Fits (K : Kernel Op σ) (e : ε) (p : Prog Op β ε α) (s : σ) (l : Link β) : Prop :=
  Throughout K (Tight K e) p s l fun _ _ _ => True

end Receives

section Rules

variable {K : Kernel Op σ} {e : ε} {s s' : σ} {l l' : Link β}

theorem throughout_step_iff {R : Proc Op β ε σ α → Prop} {p : Prog Op β ε α}
    {Q : α → σ → Link β → Prop} (hp : ∀ a, p ≠ .ret a) :
    Throughout K R p s l Q ↔ R ⟨p, s, l⟩ ∧
      ∀ p' s' l' bs, step K ⟨p, s, l⟩ = some (⟨p', s', l'⟩, bs) → Throughout K R p' s' l' Q :=
  ⟨fun h => ⟨h.inside (.refl _) hp, fun _ _ _ _ hstep => h.next hstep⟩,
    fun h => throughout_step h.1 hp h.2⟩

theorem Fits.along {p p' : Prog Op β ε α} {out : List β} (h : Fits K e p s l)
    (hrun : Exec K ⟨p, s, l⟩ out ⟨p', s', l'⟩) : Fits K e p' s' l' :=
  fun _ q hrest => h _ q (hrun.trans hrest)

theorem fits_ret {a : α} : Fits K e (.ret a : Prog Op β ε α) s l := throughout_ret trivial

theorem fits_halt {e' : ε} : Fits K e (.halt e' : Prog Op β ε α) s l :=
  throughout_of_stuck rfl ⟨trivial, trivial⟩

theorem fits_sys {op : Op γ} {f : γ → Prog Op β ε α} :
    Fits K e (Prog.sys op >>= f) s l ↔
      ∀ r s', K.exec op s = some (r, s') → Fits K e (f r) s' l := by
  refine (throughout_step_iff (by rintro a ⟨⟩)).trans ?_
  constructor
  · rintro ⟨-, h⟩ r s' hexec
    exact h (f r) s' l [] (by simp [step, Prog.sys, Bind.bind, Prog.bind, hexec])
  · intro h
    refine ⟨⟨trivial, trivial⟩, fun p' s' l' bs hstep => ?_⟩
    simp only [step, Prog.sys, Bind.bind, Prog.bind, Option.map_eq_some_iff, Prod.mk.injEq,
      Proc.mk.injEq] at hstep
    obtain ⟨⟨r, t⟩, hexec, ⟨rfl, rfl, rfl⟩, -⟩ := hstep
    exact h r t hexec

theorem fits_say {bs : List β} {f : Bool → Prog Op β ε α} :
    Fits K e (Prog.say bs >>= f) s l ↔ Fits K e (f l.alive) s l := by
  refine (throughout_step_iff (by rintro a ⟨⟩)).trans ?_
  constructor
  · rintro ⟨-, h⟩
    cases hl : l.alive with
    | true => exact h _ s l bs (by simp [step, Prog.say, Bind.bind, Prog.bind, hl])
    | false => exact h _ s l [] (by simp [step, Prog.say, Bind.bind, Prog.bind, hl])
  · intro h
    refine ⟨⟨trivial, trivial⟩, fun p' s' l' out hstep => ?_⟩
    simp only [step, Prog.say, Bind.bind, Prog.bind] at hstep
    split_ifs at hstep with hl <;> cases hstep
    · rwa [hl] at h
    · rwa [Bool.eq_false_iff.mpr hl] at h

theorem fits_hear {n : Nat} {f : List β → Prog Op β ε α} :
    Fits K e (Prog.hear n >>= f) s l ↔
      (∃ bs, bs.length = n ∧ f bs ≠ .halt e) ∧
        (n ≤ l.inbox.length → f (l.inbox.take n) ≠ .halt e ∧
          Fits K e (f (l.inbox.take n)) s ⟨l.inbox.drop n, l.closed⟩) ∧
        (l.inbox.length < n → l.closed = true → f l.inbox ≠ .halt e ∧
          Fits K e (f l.inbox) s ⟨[], true⟩) := by
  have hfull : n ≤ l.inbox.length → step K ⟨Prog.hear n >>= f, s, l⟩ =
      some (⟨f (l.inbox.take n), s, ⟨l.inbox.drop n, l.closed⟩⟩, []) := by
    intro hn
    simp [step, Prog.hear, Bind.bind, Prog.bind, hn]
  have hshort : l.inbox.length < n → l.closed = true → step K ⟨Prog.hear n >>= f, s, l⟩ =
      some (⟨f l.inbox, s, ⟨[], true⟩⟩, []) := by
    intro hn hc
    simp [step, Prog.hear, Bind.bind, Prog.bind, Nat.not_le.mpr hn, hc]
  refine (throughout_step_iff (by rintro a ⟨⟩)).trans ?_
  constructor
  · rintro ⟨⟨hroom, hcontained⟩, h⟩
    exact ⟨hroom, fun hn => ⟨hcontained _ _ (hfull hn), h _ _ _ _ (hfull hn)⟩,
      fun hn hc => ⟨hcontained _ _ (hshort hn hc), h _ _ _ _ (hshort hn hc)⟩⟩
  · rintro ⟨hroom, hf, hs⟩
    have hstep : ∀ q out, step K ⟨Prog.hear n >>= f, s, l⟩ = some (q, out) →
        q.prog ≠ .halt e ∧ Fits K e q.prog q.state q.link := by
      intro q out hq
      by_cases hn : n ≤ l.inbox.length
      · rw [hfull hn] at hq
        cases hq
        exact hf hn
      · by_cases hc : l.closed = true
        · rw [hshort (by omega) hc] at hq
          cases hq
          exact hs (by omega) hc
        · simp [step, Prog.hear, Bind.bind, Prog.bind, hn, hc] at hq
    exact ⟨⟨hroom, fun q out hq => (hstep q out hq).1⟩, fun p' s' l' out hq => (hstep _ _ hq).2⟩

theorem bind_ne_halt {p : Prog Op β ε α} {f : α → Prog Op β ε γ} (hp : p ≠ .halt e)
    (hf : ∀ a, f a ≠ .halt e) : p >>= f ≠ .halt e := by
  cases p with
  | ret a => exact hf a
  | halt e' =>
      rintro ⟨⟩
      exact hp rfl
  | _ => rintro ⟨⟩

theorem lifts_tight {f : α → Prog Op β ε γ} (hf : ∀ a, f a ≠ .halt e) :
    Lifts (Tight K e) (Tight K e) f := by
  rintro p s l hp ⟨hroom, hcontained⟩
  cases p with
  | ret a => exact absurd rfl (hp a)
  | recv n k =>
      obtain ⟨bs, hbs, hne⟩ := hroom
      refine ⟨⟨bs, hbs, bind_ne_halt hne hf⟩, fun q out hstep => ?_⟩
      rcases step_bind_cases hstep with ⟨a, ha⟩ | ⟨p', s', l', hfirst, rfl⟩
      · exact absurd ha (hp a)
      · exact bind_ne_halt (hcontained _ _ hfirst) hf
  | _ => exact ⟨trivial, trivial⟩

-- What follows receives nothing that could overrun.
theorem fits_bind_iff {p : Prog Op β ε α} {f : α → Prog Op β ε γ} (hf : ∀ a, f a ≠ .halt e)
    (hquiet : ∀ a s l, Fits K e (f a) s l) : Fits K e (p >>= f) s l ↔ Fits K e p s l := by
  constructor
  · intro h out q hrun
    obtain ⟨q, s', l'⟩ := q
    have hstate := h.along (hrun.bind f)
    cases q with
    | ret a => trivial
    | recv n k =>
        obtain ⟨⟨bs, hbs, hne⟩, hcontained⟩ := hstate.inside (.refl _) (by rintro a ⟨⟩)
        refine ⟨⟨bs, hbs, ?_⟩, fun q' out' hstep => ?_⟩
        · intro hk
          apply hne
          change (k bs >>= f) = _
          rw [hk]
          rfl
        · intro hk
          obtain ⟨p', t, m⟩ := q'
          apply hcontained _ _ (step_bind hstep f)
          change p' = _ at hk
          rw [hk]
          rfl
    | _ => exact ⟨trivial, trivial⟩
  · intro h
    exact throughout_bind (lifts_tight hf) (h.mono fun a s l _ => hquiet a s l)

theorem Fits.ends {p : Prog Op β ε α} {Q : α → σ → Link β → Prop} (h : Fits K e p s l)
    (hQ : Ends K p s l Q) : Throughout K (Tight K e) p s l Q := by
  intro out q hrun
  have hstate := h out q hrun
  have hresult := hQ out q hrun
  obtain ⟨q, s', l'⟩ := q
  cases q with
  | ret a => exact hresult
  | _ => exact hstate

-- What a loop does with the outcome of a round.
theorem loop_elim (body : γ → Prog Op β ε (γ ⊕ δ)) : (fun r => match r with
    | .inl c' => .loop body c' Prog.ret
    | .inr d => Prog.ret d) = Sum.elim (fun c' => Prog.iter body c') (Prog.ret : δ → Prog Op β ε δ) :=
  funext fun x => by cases x <;> rfl

theorem fits_iter_unfold {body : γ → Prog Op β ε (γ ⊕ δ)} {c : γ} :
    Fits K e (Prog.iter body c) s l ↔
      Fits K e (body c >>= Sum.elim (fun c' => Prog.iter body c') Prog.ret) s l := by
  have hbody := loop_elim body
  refine (throughout_step_iff (by rintro a ⟨⟩)).trans ?_
  simp only [step, Prog.iter, Option.some.injEq, Prod.mk.injEq, Proc.mk.injEq] at hbody ⊢
  constructor
  · rintro ⟨-, h⟩
    exact h _ s l [] ⟨⟨congrArg _ hbody, rfl, rfl⟩, rfl⟩
  · rintro h
    refine ⟨⟨trivial, trivial⟩, ?_⟩
    rintro p' s' l' bs ⟨⟨rfl, rfl, rfl⟩, -⟩
    exact (congrArg (fun k => Fits K e (body c >>= k) s l) hbody).mpr h

-- The rule of the loop, with what a round leaves behind.
theorem fits_iter {body : γ → Prog Op β ε (γ ⊕ δ)} {c : γ} (J : γ → σ → Link β → Prop)
    (hstart : J c s l) (hround : ∀ c s l, J c s l → Fits K e (body c) s l ∧
      Ends K (body c) s l fun r s l => ∀ c', r = .inl c' → J c' s l) :
    Fits K e (Prog.iter body c) s l := by
  have hactive : ∀ x, Sum.elim (fun c' => Prog.iter body c') Prog.ret x ≠ .halt e := by
    intro x
    cases x <;> rintro ⟨⟩
  refine throughout_iter (lifts_tight hactive) (fun _ _ _ => ⟨trivial, trivial⟩) J hstart ?_
  intro c s l hJ
  obtain ⟨hfits, hends⟩ := hround c s l hJ
  refine (hfits.ends hends).mono fun r s l hr => ?_
  cases r with
  | inl c' => exact hr c' rfl
  | inr d => trivial

end Rules

section Lively

-- A program that has not ended.
def Active : Prog Op β ε α → Prop
  | .ret _ => False
  | .halt _ => False
  | _ => True

-- Behind some bytes of the right number there is more to do.
def Lively (q : Proc Op β ε σ α) : Prop :=
  match q.prog with
  | .recv n k => ∃ bs, bs.length = n ∧ Active (k bs)
  | _ => True

-- The same in a round of a loop: it can be repeated.
def Repeats (q : Proc Op β ε σ (γ ⊕ δ)) : Prop :=
  match q.prog with
  | .recv n k => ∃ bs, bs.length = n ∧ ∃ c, k bs = .ret (.inl c)
  | _ => True

theorem Lively.roomy {q : Proc Op β ε σ α} (h : Lively q) (e : ε) : Roomy e q := by
  obtain ⟨p, s, l⟩ := q
  cases p with
  | recv n k =>
      obtain ⟨bs, hbs, hactive⟩ := h
      refine ⟨bs, hbs, fun hk => ?_⟩
      rw [hk] at hactive
      exact hactive
  | _ => trivial

theorem lifts_lively (f : α → Prog Op β ε γ) :
    Lifts (Lively : Proc Op β ε σ α → Prop) Lively f := by
  intro p s l hp h
  cases p with
  | ret a => exact absurd rfl (hp a)
  | recv n k =>
      obtain ⟨bs, hbs, hactive⟩ := h
      refine ⟨bs, hbs, ?_⟩
      cases hk : k bs with
      | ret a =>
          rw [hk] at hactive
          exact hactive.elim
      | halt e =>
          rw [hk] at hactive
          exact hactive.elim
      | _ =>
          change Active (k bs >>= f)
          rw [hk]
          trivial
  | _ => trivial

theorem lifts_repeats {body : γ → Prog Op β ε (γ ⊕ δ)} :
    Lifts (Repeats : Proc Op β ε σ (γ ⊕ δ) → Prop) Lively
      (Sum.elim (fun c' => Prog.iter body c') Prog.ret) := by
  intro p s l hp h
  cases p with
  | ret a => exact absurd rfl (hp a)
  | recv n k =>
      obtain ⟨bs, hbs, c, hc⟩ := h
      refine ⟨bs, hbs, ?_⟩
      change Active (k bs >>= _)
      rw [hc]
      trivial
  | _ => trivial

-- A part that receives nothing.
def Silent (q : Proc Op β ε σ α) : Prop :=
  match q.prog with
  | .recv _ _ => False
  | _ => True

theorem lifts_silent (f : α → Prog Op β ε (γ ⊕ δ)) :
    Lifts (Silent : Proc Op β ε σ α → Prop) Repeats f := by
  intro p s l hp h
  cases p with
  | ret a => exact absurd rfl (hp a)
  | recv n k => exact h.elim
  | _ => trivial

theorem throughout_hear_bind {K : Kernel Op σ} {R : Proc Op β ε σ γ → Prop} {n : Nat}
    {f : List β → Prog Op β ε γ} {s : σ} {l : Link β} {Q : γ → σ → Link β → Prop}
    (hR : R ⟨Prog.hear n >>= f, s, l⟩)
    (hfull : n ≤ l.inbox.length →
      Throughout K R (f (l.inbox.take n)) s ⟨l.inbox.drop n, l.closed⟩ Q)
    (hshort : l.inbox.length < n → l.closed = true → Throughout K R (f l.inbox) s ⟨[], true⟩ Q) :
    Throughout K R (Prog.hear n >>= f) s l Q := by
  refine throughout_step hR (by rintro a ⟨⟩) fun p' s' l' bs hstep => ?_
  simp only [step, Prog.hear, Bind.bind, Prog.bind] at hstep
  split_ifs at hstep with hn hc
  · cases hstep
    exact hfull hn
  · cases hstep
    exact hshort (Nat.lt_of_not_le hn) hc

end Lively

end Program
