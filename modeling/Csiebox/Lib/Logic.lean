import Csiebox.Lib.Program

namespace Program

section Inversion

variable {Op : Type → Type} {β ε σ α γ δ : Type} {K : Kernel Op σ} {s s' : σ} {l l' : Link β}

-- A step of a composed program is a step of its first part.
theorem step_bind_cases {p : Prog Op β ε α} {f : α → Prog Op β ε γ} {q : Proc Op β ε σ γ}
    {bs : List β} (h : step K ⟨p >>= f, s, l⟩ = some (q, bs)) :
    (∃ a, p = .ret a) ∨ ∃ p' s' l', step K ⟨p, s, l⟩ = some (⟨p', s', l'⟩, bs) ∧
      q = ⟨p' >>= f, s', l'⟩ := by
  cases hstep : step K ⟨p, s, l⟩ with
  | some r =>
      obtain ⟨⟨p', s', l'⟩, bs'⟩ := r
      have hb := step_bind hstep f
      obtain ⟨hq, hbs⟩ := Prod.ext_iff.mp (Option.some.inj (h.symm.trans hb))
      simp only at hq hbs
      subst hq hbs
      exact .inr ⟨p', s', l', rfl, rfl⟩
  | none =>
      cases p with
      | ret a => exact .inl ⟨a, rfl⟩
      | halt e => simp [step] at h
      | call op k =>
          simp only [step, Option.map_eq_none_iff] at hstep
          simp [step, Bind.bind, Prog.bind, hstep] at h
      | send b k =>
          simp only [step] at hstep
          split_ifs at hstep
      | recv n k =>
          simp only [step] at hstep
          simp only [step, Bind.bind, Prog.bind] at h
          split_ifs at hstep h
      | loop body c k => simp [step] at hstep

-- A run of a composed program is still in the first part, or the first part
-- has returned and the second one has run on.
theorem Exec.bind_cases {p : Prog Op β ε α} {f : α → Prog Op β ε γ} {out : List β}
    {q : Proc Op β ε σ γ} (h : Exec K ⟨p >>= f, s, l⟩ out q) :
    (∃ p' s' l', Exec K ⟨p, s, l⟩ out ⟨p', s', l'⟩ ∧ q = ⟨p' >>= f, s', l'⟩) ∨
      ∃ a s' l' out₁ out₂, Exec K ⟨p, s, l⟩ out₁ ⟨.ret a, s', l'⟩ ∧
        Exec K ⟨f a, s', l'⟩ out₂ q ∧ out = out₁ ++ out₂ := by
  generalize hp : (⟨p >>= f, s, l⟩ : Proc Op β ε σ γ) = start at h
  induction h generalizing p s l with
  | refl _ => exact .inl ⟨p, s, l, .refl _, hp.symm⟩
  | @head _ q _ bs out first rest ih =>
      subst hp
      rcases step_bind_cases first with ⟨a, rfl⟩ | ⟨p', s', l', hstep, rfl⟩
      · exact .inr ⟨a, s, l, [], _, .refl _, .head first rest, rfl⟩
      · rcases ih rfl with ⟨p'', s'', l'', hrun, rfl⟩ | ⟨a, s'', l'', out₁, out₂, hrun, hrest, rfl⟩
        · exact .inl ⟨p'', s'', l'', .head hstep hrun, rfl⟩
        · exact .inr ⟨a, s'', l'', bs ++ out₁, out₂, .head hstep hrun, hrest,
            (List.append_assoc ..).symm⟩

end Inversion

section States

variable {Op : Type → Type} {β ε σ α γ δ : Type} {K : Kernel Op σ} {s s' : σ} {l l' : Link β}

-- `Q` of a result, `R` of any other state.
def Obeys (R : Proc Op β ε σ α → Prop) (Q : α → σ → Link β → Prop) (q : Proc Op β ε σ α) : Prop :=
  match q.prog with
  | .ret a => Q a q.state q.link
  | _ => R q

-- What is asked of every state of every run from here.
def Throughout (K : Kernel Op σ) (R : Proc Op β ε σ α → Prop) (p : Prog Op β ε α) (s : σ)
    (l : Link β) (Q : α → σ → Link β → Prop) : Prop :=
  ∀ out q, Exec K ⟨p, s, l⟩ out q → Obeys R Q q

-- What holds inside a part of a program holds of the whole.
def Lifts (R : Proc Op β ε σ α → Prop) (R' : Proc Op β ε σ γ → Prop) (f : α → Prog Op β ε γ) : Prop :=
  ∀ p s l, (∀ a, p ≠ .ret a) → R ⟨p, s, l⟩ → R' ⟨p >>= f, s, l⟩

variable {R : Proc Op β ε σ α → Prop} {R' : Proc Op β ε σ γ → Prop} {p : Prog Op β ε α}
  {Q Q' : α → σ → Link β → Prop}

theorem Throughout.returns (h : Throughout K R p s l Q) {out : List β} {a : α}
    (hrun : Exec K ⟨p, s, l⟩ out ⟨.ret a, s', l'⟩) : Q a s' l' :=
  h out _ hrun

theorem Throughout.inside (h : Throughout K R p s l Q) {out : List β} {q : Prog Op β ε α}
    (hrun : Exec K ⟨p, s, l⟩ out ⟨q, s', l'⟩) (hq : ∀ a, q ≠ .ret a) : R ⟨q, s', l'⟩ := by
  have hstate := h out _ hrun
  cases q with
  | ret a => exact absurd rfl (hq a)
  | _ => exact hstate

theorem Throughout.mono (h : Throughout K R p s l Q) (hQ : ∀ a s l, Q a s l → Q' a s l) :
    Throughout K R p s l Q' := by
  intro out q hrun
  have hq := h out q hrun
  obtain ⟨q, s', l'⟩ := q
  cases q with
  | ret a => exact hQ a s' l' hq
  | _ => exact hq

theorem Throughout.imp {R'' : Proc Op β ε σ α → Prop} (h : Throughout K R p s l Q)
    (hR : ∀ q, R q → R'' q) : Throughout K R'' p s l Q := by
  intro out q hrun
  have hq := h out q hrun
  obtain ⟨q, s', l'⟩ := q
  cases q with
  | ret a => exact hq
  | _ => exact hR _ hq

theorem throughout_of_stuck (hstuck : step K (⟨p, s, l⟩ : Proc Op β ε σ α) = none)
    (h : Obeys R Q ⟨p, s, l⟩) : Throughout K R p s l Q := by
  intro out q hrun
  obtain ⟨-, rfl⟩ := hrun.eq_of_stuck hstuck
  exact h

theorem throughout_ret {a : α} (h : Q a s l) : Throughout K R (.ret a) s l Q :=
  throughout_of_stuck rfl h

theorem throughout_step (h : R ⟨p, s, l⟩) (hp : ∀ a, p ≠ .ret a)
    (hnext : ∀ p' s' l' bs, step K ⟨p, s, l⟩ = some (⟨p', s', l'⟩, bs) → Throughout K R p' s' l' Q) :
    Throughout K R p s l Q := by
  intro out q hrun
  cases hrun with
  | refl _ =>
      cases p with
      | ret a => exact absurd rfl (hp a)
      | _ => exact h
  | @head _ q' _ bs out first rest =>
      obtain ⟨p', s', l'⟩ := q'
      exact hnext p' s' l' bs first _ _ rest

-- The rest of a run meets what is asked, too.
theorem Throughout.next {p' : Prog Op β ε α} {bs : List β} (h : Throughout K R p s l Q)
    (hstep : step K ⟨p, s, l⟩ = some (⟨p', s', l'⟩, bs)) : Throughout K R p' s' l' Q :=
  fun _ _ hrun => h _ _ (.head hstep hrun)

theorem throughout_bind {Q : γ → σ → Link β → Prop} {f : α → Prog Op β ε γ} (hlift : Lifts R R' f)
    (h : Throughout K R p s l fun a s l => Throughout K R' (f a) s l Q) :
    Throughout K R' (p >>= f) s l Q := by
  intro out q hrun
  rcases hrun.bind_cases with ⟨p', s', l', hp, rfl⟩ | ⟨a, s', l', out₁, out₂, hp, hf, -⟩
  · have hinside : (∀ a, p' ≠ .ret a) → R' ⟨p' >>= f, s', l'⟩ :=
      fun hne => hlift p' s' l' hne (h.inside hp hne)
    cases p' with
    | ret a => exact h.returns hp [] _ (.refl _)
    | halt e => exact hinside (by simp)
    | call op k => exact hinside (by simp)
    | send bs k => exact hinside (by simp)
    | recv n k => exact hinside (by simp)
    | loop body c k => exact hinside (by simp)
  · exact h.returns hp out₂ q hf

-- The rule of the loop: an invariant that every round keeps.
theorem throughout_iter {R : Proc Op β ε σ (γ ⊕ δ) → Prop} {R' : Proc Op β ε σ δ → Prop}
    {Q : δ → σ → Link β → Prop} {body : γ → Prog Op β ε (γ ⊕ δ)} {c : γ}
    (hlift : Lifts R R' (Sum.elim (fun c' => Prog.iter body c') Prog.ret))
    (hloop : ∀ c s l, R' ⟨Prog.iter body c, s, l⟩) (J : γ → σ → Link β → Prop) (hstart : J c s l)
    (hround : ∀ c s l, J c s l → Throughout K R (body c) s l fun r s l =>
      r.elim (fun c' => J c' s l) fun d => Q d s l) :
    Throughout K R' (Prog.iter body c) s l Q := by
  -- the loop, seen from a state inside one of its rounds
  have hinside : ∀ out (start q : Proc Op β ε σ δ), Exec K start out q →
      ∀ (p : Prog Op β ε (γ ⊕ δ)) s l,
        start = ⟨p >>= Sum.elim (fun c' => Prog.iter body c') Prog.ret, s, l⟩ →
        Throughout K R p s l (fun r s l => r.elim (fun c' => J c' s l) fun d => Q d s l) →
        Obeys R' Q q := by
    intro out start q hrun
    induction hrun with
    | refl start =>
        rintro p s l rfl hp
        have hlifted : (∀ a, p ≠ .ret a) → R' _ :=
          fun hne => hlift p s l hne (hp.inside (.refl _) hne)
        cases p with
        | ret r =>
            cases r with
            | inl c' => exact hloop c' s l
            | inr d => exact hp.returns (.refl _)
        | halt e => exact hlifted (by simp)
        | call op k => exact hlifted (by simp)
        | send bs k => exact hlifted (by simp)
        | recv n k => exact hlifted (by simp)
        | loop body c k => exact hlifted (by simp)
    | @head start q r bs out first rest ih =>
        rintro p s l rfl hp
        rcases step_bind_cases first with ⟨x, rfl⟩ | ⟨p', s', l', hstep, rfl⟩
        · cases x with
          | inl c' =>
              have hround' := hround c' s l (hp.returns (.refl _))
              refine ih (body c') s l ?_ hround'
              obtain ⟨rfl, -⟩ := Prod.ext_iff.mp (Option.some.inj first)
              exact congrArg (fun k => (⟨body c' >>= k, s, l⟩ : Proc Op β ε σ δ))
                (funext fun x => by cases x <;> rfl)
          | inr d => simp [step] at first
        · exact ih p' s' l' rfl (hp.next hstep)
  intro out q hrun
  exact hinside out _ q hrun (.ret (.inl c)) s l rfl (throughout_ret hstart)

theorem throughout_halt {e : ε} (h : R ⟨.halt e, s, l⟩) : Throughout K R (.halt e) s l Q :=
  throughout_of_stuck rfl h

theorem throughout_sys {R : Proc Op β ε σ γ → Prop} {Q : γ → σ → Link β → Prop} {o : Op γ}
    (hR : R ⟨Prog.sys o, s, l⟩) (h : ∀ r s', K.exec o s = some (r, s') → Q r s' l) :
    Throughout K R (Prog.sys o) s l Q := by
  refine throughout_step hR (by rintro a ⟨⟩) fun p' s' l' bs hstep => ?_
  simp only [step, Prog.sys, Option.map_eq_some_iff, Prod.mk.injEq, Proc.mk.injEq] at hstep
  obtain ⟨⟨r, t⟩, hexec, ⟨rfl, rfl, rfl⟩, -⟩ := hstep
  exact throughout_ret (h r t hexec)

theorem throughout_say {R : Proc Op β ε σ Bool → Prop} {Q : Bool → σ → Link β → Prop} {bs : List β}
    (hR : R ⟨Prog.say bs, s, l⟩) (h : ∀ b, Q b s l) : Throughout K R (Prog.say bs) s l Q := by
  refine throughout_step hR (by rintro a ⟨⟩) fun p' s' l' bs' hstep => ?_
  simp only [step, Prog.say] at hstep
  split_ifs at hstep <;> cases hstep <;> exact throughout_ret (h _)

theorem throughout_hear {R : Proc Op β ε σ (List β) → Prop} {Q : List β → σ → Link β → Prop} {n : Nat}
    (hR : R ⟨Prog.hear n, s, l⟩)
    (hfull : n ≤ l.inbox.length → Q (l.inbox.take n) s ⟨l.inbox.drop n, l.closed⟩)
    (hshort : l.inbox.length < n → l.closed = true → Q l.inbox s ⟨[], true⟩) :
    Throughout K R (Prog.hear n) s l Q := by
  refine throughout_step hR (by rintro a ⟨⟩) fun p' s' l' bs hstep => ?_
  simp only [step, Prog.hear] at hstep
  split_ifs at hstep with hn hc
  · cases hstep
    exact throughout_ret (hfull hn)
  · cases hstep
    exact throughout_ret (hshort (Nat.lt_of_not_le hn) hc)

end States

section Triples

variable {Op : Type → Type} {β ε σ α γ δ : Type}

-- What is asked of a state of a run: `I` of a call that is about to be made, `E`
-- of an abnormal end, `Q` of a result.
def Permits (I : {δ : Type} → Op δ → σ → Prop) (E : ε → σ → Prop) (Q : α → σ → Link β → Prop)
    (q : Proc Op β ε σ α) : Prop :=
  match q.prog with
  | .ret a => Q a q.state q.link
  | .halt e => E e q.state
  | .call op _ => I op q.state
  | _ => True

-- Every state of every run from here meets what is asked.
def Along (K : Kernel Op σ) (I : {δ : Type} → Op δ → σ → Prop) (E : ε → σ → Prop)
    (p : Prog Op β ε α) (s : σ) (l : Link β) (Q : α → σ → Link β → Prop) : Prop :=
  ∀ out q, Exec K ⟨p, s, l⟩ out q → Permits I E Q q

variable {K : Kernel Op σ} {I : {δ : Type} → Op δ → σ → Prop} {E : ε → σ → Prop} {s : σ} {l : Link β}
  {Q R : α → σ → Link β → Prop}

theorem Along.returns {p : Prog Op β ε α} (h : Along K I E p s l Q) {out : List β} {a : α} {s' : σ}
    {l' : Link β} (hrun : Exec K ⟨p, s, l⟩ out ⟨.ret a, s', l'⟩) : Q a s' l' :=
  h out _ hrun

theorem Along.calls {p : Prog Op β ε α} (h : Along K I E p s l Q) {out : List β} {op : Op δ}
    {k : δ → Prog Op β ε α} {s' : σ} {l' : Link β}
    (hrun : Exec K ⟨p, s, l⟩ out ⟨.call op k, s', l'⟩) : I op s' :=
  h out _ hrun

-- In terms of the rules above.
theorem along_iff {p : Prog Op β ε α} :
    Along K I E p s l Q ↔ Throughout K (Permits I E fun _ _ _ => True) p s l Q := by
  refine forall_congr' fun out => forall_congr' fun q => imp_congr_right fun _ => ?_
  obtain ⟨q, s', l'⟩ := q
  cases q <;> exact Iff.rfl

theorem lifts_permits (f : α → Prog Op β ε γ) :
    Lifts (Permits I E fun _ _ _ => True) (Permits I E fun (_ : γ) _ _ => True) f := by
  intro p s l hp h
  cases p with
  | ret a => exact absurd rfl (hp a)
  | _ => exact h

theorem Along.mono {p : Prog Op β ε α} (h : Along K I E p s l Q)
    (hQ : ∀ a s l, Q a s l → R a s l) : Along K I E p s l R :=
  along_iff.mpr ((along_iff.mp h).mono hQ)

theorem along_ret {a : α} (h : Q a s l) : Along K I E (.ret a) s l Q :=
  along_iff.mpr (throughout_ret h)

theorem along_halt {e : ε} (h : E e s) : Along K I E (.halt e) s l Q :=
  along_iff.mpr (throughout_halt h)

theorem along_bind {Q : γ → σ → Link β → Prop} {p : Prog Op β ε α} {f : α → Prog Op β ε γ}
    (h : Along K I E p s l fun a s l => Along K I E (f a) s l Q) : Along K I E (p >>= f) s l Q :=
  along_iff.mpr (throughout_bind (lifts_permits f) ((along_iff.mp h).mono fun _ _ _ h => along_iff.mp h))

theorem along_sys {Q : γ → σ → Link β → Prop} {o : Op γ} (hI : I o s)
    (h : ∀ r s', K.exec o s = some (r, s') → Q r s' l) : Along K I E (Prog.sys o) s l Q :=
  along_iff.mpr (throughout_sys hI h)

theorem along_say {Q : Bool → σ → Link β → Prop} {bs : List β} (h : ∀ b, Q b s l) :
    Along K I E (Prog.say bs) s l Q :=
  along_iff.mpr (throughout_say trivial h)

theorem along_hear {Q : List β → σ → Link β → Prop} {n : Nat}
    (hfull : n ≤ l.inbox.length → Q (l.inbox.take n) s ⟨l.inbox.drop n, l.closed⟩)
    (hshort : l.inbox.length < n → l.closed = true → Q l.inbox s ⟨[], true⟩) :
    Along K I E (Prog.hear n) s l Q :=
  along_iff.mpr (throughout_hear trivial hfull hshort)

theorem along_iter {Q : δ → σ → Link β → Prop} {body : γ → Prog Op β ε (γ ⊕ δ)} {c : γ}
    (J : γ → σ → Link β → Prop) (hstart : J c s l)
    (hround : ∀ c s l, J c s l → Along K I E (body c) s l fun r s l =>
      r.elim (fun c' => J c' s l) fun d => Q d s l) :
    Along K I E (Prog.iter body c) s l Q :=
  along_iff.mpr (throughout_iter (lifts_permits _) (fun _ _ _ => trivial) J hstart
    fun c s l hJ => along_iff.mp (hround c s l hJ))

-- Any call and any abnormal end.
def anyCall : {δ : Type} → Op δ → σ → Prop := fun _ _ => True

def anyHalt : ε → σ → Prop := fun _ _ => True

-- Partial correctness: a run that returns ends in `Q`.
abbrev Ends (K : Kernel Op σ) (p : Prog Op β ε α) (s : σ) (l : Link β)
    (Q : α → σ → Link β → Prop) : Prop :=
  Along K anyCall anyHalt p s l Q

theorem ends_any {p : Prog Op β ε α} : Ends K p s l fun _ _ _ => True := by
  intro out q _
  obtain ⟨q, s', l'⟩ := q
  cases q <;> trivial

theorem ends_iff {p : Prog Op β ε α} : Ends K p s l Q ↔
    ∀ out a s' l', Exec K ⟨p, s, l⟩ out ⟨.ret a, s', l'⟩ → Q a s' l' := by
  constructor
  · intro h out a s' l' hrun
    exact h.returns hrun
  · intro h out q hrun
    obtain ⟨q, s', l'⟩ := q
    cases q with
    | ret a => exact h out a s' l' hrun
    | _ => trivial

-- A run that comes to an end is the only one.
theorem ends_of_exec {p : Prog Op β ε α} {out : List β} {a : α} {s' : σ} {l' : Link β}
    (h : Exec K ⟨p, s, l⟩ out ⟨.ret a, s', l'⟩) :
    Ends K p s l fun b t m => b = a ∧ t = s' ∧ m = l' := by
  intro out q hrun
  obtain ⟨q, t, m⟩ := q
  cases q with
  | ret b =>
      obtain ⟨-, heq⟩ := hrun.unique h rfl rfl
      cases heq
      exact ⟨rfl, rfl, rfl⟩
  | _ => trivial

theorem ends_of_halt {p : Prog Op β ε α} {out : List β} {e : ε} {s' : σ} {l' : Link β}
    (h : Exec K ⟨p, s, l⟩ out ⟨.halt e, s', l'⟩) : Ends K p s l fun _ _ _ => False := by
  intro out q hrun
  obtain ⟨q, t, m⟩ := q
  cases q with
  | ret b =>
      obtain ⟨-, heq⟩ := hrun.unique h rfl rfl
      cases heq
  | _ => trivial

end Triples

end Program
