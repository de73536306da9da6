import Csiebox.Lib.Calls

namespace Program

-- What passes over the connection, message by message.
inductive Word (β : Type) where
  | said (bs : List β)
  | heard (bs : List β)

section Runs

variable {Op : Type → Type} {β ε σ α γ δ : Type}

-- The message of the next step, if it is one.
def Proc.words (p : Proc Op β ε σ α) : List (Word β) :=
  match p.prog with
  | .send bs _ => if p.link.alive then [.said bs] else []
  | .recv n _ => [.heard (p.link.inbox.take n)]
  | _ => []

-- A finite run with its messages.
inductive Spoken (K : Kernel Op σ) : Proc Op β ε σ α → List (Word β) → Proc Op β ε σ α → Prop where
  | refl (p : Proc Op β ε σ α) : Spoken K p [] p
  | head {p q r : Proc Op β ε σ α} {bs : List β} {ws : List (Word β)} (first : step K p = some (q, bs))
      (rest : Spoken K q ws r) : Spoken K p (p.words ++ ws) r

variable {K : Kernel Op σ} {s s' : σ} {l l' : Link β}

theorem Spoken.exec {p q : Proc Op β ε σ α} {ws : List (Word β)} (h : Spoken K p ws q) :
    ∃ out, Exec K p out q := by
  induction h with
  | refl p => exact ⟨[], .refl p⟩
  | head first _ ih =>
      obtain ⟨out, hrun⟩ := ih
      exact ⟨_, .head first hrun⟩

theorem Exec.spoken {p q : Proc Op β ε σ α} {out : List β} (h : Exec K p out q) :
    ∃ ws, Spoken K p ws q := by
  induction h with
  | refl p => exact ⟨[], .refl p⟩
  | head first _ ih =>
      obtain ⟨ws, hrun⟩ := ih
      exact ⟨_, .head first hrun⟩

theorem Spoken.silent {p q r : Proc Op β ε σ α} {ws : List (Word β)} (first : step K p = some (q, []))
    (hwords : p.words = []) (rest : Spoken K q ws r) : Spoken K p ws r := by
  have hrun := Spoken.head first rest
  rwa [hwords] at hrun

theorem Spoken.closed {p q : Proc Op β ε σ α} {ws : List (Word β)} (h : Spoken K p ws q) :
    q.link.closed = p.link.closed := by
  induction h with
  | refl p => rfl
  | head first _ ih => rw [ih, step_closed first]

theorem words_bind {p : Prog Op β ε α} (hp : ∀ a, p ≠ .ret a) (f : α → Prog Op β ε γ) :
    (⟨p >>= f, s, l⟩ : Proc Op β ε σ γ).words = (⟨p, s, l⟩ : Proc Op β ε σ α).words := by
  cases p with
  | ret a => exact absurd rfl (hp a)
  | _ => rfl

-- A run of a composed program is still in the first part, or the first part has
-- returned and the second one has run on.
theorem Spoken.bind_cases {p : Prog Op β ε α} {f : α → Prog Op β ε γ} {ws : List (Word β)}
    {q : Proc Op β ε σ γ} (h : Spoken K ⟨p >>= f, s, l⟩ ws q) :
    (∃ p' s' l', Spoken K ⟨p, s, l⟩ ws ⟨p', s', l'⟩ ∧ q = ⟨p' >>= f, s', l'⟩) ∨
      ∃ a s' l' ws₁ ws₂, Spoken K ⟨p, s, l⟩ ws₁ ⟨.ret a, s', l'⟩ ∧
        Spoken K ⟨f a, s', l'⟩ ws₂ q ∧ ws = ws₁ ++ ws₂ := by
  generalize hp : (⟨p >>= f, s, l⟩ : Proc Op β ε σ γ) = start at h
  induction h generalizing p s l with
  | refl _ => exact .inl ⟨p, s, l, .refl _, hp.symm⟩
  | @head _ q _ bs ws first rest ih =>
      subst hp
      rcases step_bind_cases first with ⟨a, rfl⟩ | ⟨p', s', l', hstep, rfl⟩
      · exact .inr ⟨a, s, l, [], _, .refl _, .head first rest, rfl⟩
      · have hne : ∀ a, p ≠ .ret a := by
          rintro a rfl
          simp [step] at hstep
        rw [words_bind hne]
        rcases ih rfl with ⟨p'', s'', l'', hrun, rfl⟩ | ⟨a, s'', l'', ws₁, ws₂, hrun, hrest, rfl⟩
        · exact .inl ⟨p'', s'', l'', .head hstep hrun, rfl⟩
        · exact .inr ⟨a, s'', l'', _, ws₂, .head hstep hrun, hrest, (List.append_assoc ..).symm⟩

theorem Spoken.trans {p q r : Proc Op β ε σ α} {ws ws' : List (Word β)} (h : Spoken K p ws q)
    (h' : Spoken K q ws' r) : Spoken K p (ws ++ ws') r := by
  induction h with
  | refl p => exact h'
  | head first _ ih =>
      rw [List.append_assoc]
      exact .head first (ih h')

theorem Spoken.bind {p p' : Prog Op β ε α} {ws : List (Word β)}
    (h : Spoken K ⟨p, s, l⟩ ws ⟨p', s', l'⟩) (f : α → Prog Op β ε γ) :
    Spoken K ⟨p >>= f, s, l⟩ ws ⟨p' >>= f, s', l'⟩ := by
  generalize hp : (⟨p, s, l⟩ : Proc Op β ε σ α) = start at h
  generalize hq : (⟨p', s', l'⟩ : Proc Op β ε σ α) = stop at h
  induction h generalizing p s l with
  | refl _ =>
      cases hp
      cases hq
      exact .refl _
  | @head _ q _ bs ws first _ ih =>
      subst hp
      obtain ⟨q, t, m⟩ := q
      have hne : ∀ a, p ≠ .ret a := by
        rintro a rfl
        simp [step] at first
      rw [← words_bind hne f]
      exact .head (step_bind first f) (ih rfl hq)

theorem Spoken.seq {p : Prog Op β ε α} {a : α} {f : α → Prog Op β ε γ} {ws ws' : List (Word β)}
    {q : Proc Op β ε σ γ} (h : Spoken K ⟨p, s, l⟩ ws ⟨.ret a, s', l'⟩)
    (h' : Spoken K ⟨f a, s', l'⟩ ws' q) : Spoken K ⟨p >>= f, s, l⟩ (ws ++ ws') q :=
  (h.bind f).trans h'

-- Runs are deterministic: of two runs from one state, one extends the other.
theorem Spoken.linear {p q r : Proc Op β ε σ α} {ws ws' : List (Word β)} (h : Spoken K p ws q)
    (h' : Spoken K p ws' r) :
    (∃ more, ws' = ws ++ more ∧ Spoken K q more r) ∨ ∃ more, ws = ws' ++ more ∧ Spoken K r more q := by
  induction h generalizing ws' with
  | refl p => exact .inl ⟨ws', rfl, h'⟩
  | @head p q' q bs ws first rest ih =>
      cases h' with
      | refl _ => exact .inr ⟨_, rfl, .head first rest⟩
      | head first' rest' =>
          rw [first] at first'
          obtain ⟨rfl, rfl⟩ := Prod.ext_iff.mp (Option.some.inj first')
          obtain ⟨more, rfl, hm⟩ | ⟨more, rfl, hm⟩ := ih rest'
          · exact .inl ⟨more, by simp, hm⟩
          · exact .inr ⟨more, by simp, hm⟩

theorem words_cases (p : Proc Op β ε σ α) : p.words = [] ∨ ∃ w, p.words = [w] := by
  obtain ⟨p, s, l⟩ := p
  cases p with
  | send bs k =>
      cases halive : l.alive with
      | true => exact .inr ⟨.said bs, by simp [Proc.words, halive]⟩
      | false => exact .inl (by simp [Proc.words, halive])
  | recv n k => exact .inr ⟨_, rfl⟩
  | _ => exact .inl rfl

-- A run passes every place between its messages.
theorem Spoken.prefix {p q : Proc Op β ε σ α} {ws ws' : List (Word β)} (h : Spoken K p ws q)
    (hpre : ws' <+: ws) : ∃ r, Spoken K p ws' r := by
  induction h generalizing ws' with
  | refl p =>
      obtain rfl := List.prefix_nil.mp hpre
      exact ⟨p, .refl p⟩
  | @head p q' q bs ws first rest ih =>
      rcases words_cases p with hwords | ⟨w, hwords⟩
      · rw [hwords, List.nil_append] at hpre
        obtain ⟨r, hr⟩ := ih hpre
        refine ⟨r, ?_⟩
        have hrun := Spoken.head first hr
        rwa [hwords] at hrun
      · rw [hwords] at hpre
        cases ws' with
        | nil => exact ⟨p, .refl p⟩
        | cons w' ws' =>
            obtain ⟨rfl, hrest⟩ := List.cons_prefix_cons.mp (show w' :: ws' <+: w :: ws from hpre)
            obtain ⟨r, hr⟩ := ih hrest
            refine ⟨r, ?_⟩
            have hrun := Spoken.head first hr
            rwa [hwords] at hrun

end Runs

section Alike

variable {Op : Type → Type} {β ε σ τ α γ δ : Type} {K : Kernel Op σ} {J : Kernel Op τ}

-- Two ends whose runs have the same messages.
def Alike (K : Kernel Op σ) (J : Kernel Op τ) (p : Proc Op β ε σ α) (q : Proc Op β ε τ γ) : Prop :=
  ∀ ws, (∃ r, Spoken K p ws r) ↔ ∃ r, Spoken J q ws r

theorem Alike.refl (p : Proc Op β ε σ α) : Alike K K p p := fun _ => Iff.rfl

theorem Alike.symm {p : Proc Op β ε σ α} {q : Proc Op β ε τ γ} (h : Alike K J p q) : Alike J K q p :=
  fun ws => (h ws).symm

theorem Alike.trans {υ : Type} {I : Kernel Op υ} {p : Proc Op β ε σ α} {q : Proc Op β ε τ γ}
    {r : Proc Op β ε υ δ} (h : Alike K J p q) (h' : Alike J I q r) : Alike K I p r :=
  fun ws => (h ws).trans (h' ws)

theorem alike_silent {p q : Proc Op β ε σ α} {bs : List β} (first : step K p = some (q, bs))
    (hwords : p.words = []) : Alike K K p q := by
  intro ws
  constructor
  · rintro ⟨r, hrun⟩
    cases hrun with
    | refl _ => exact ⟨q, .refl q⟩
    | head first' rest =>
        rw [first] at first'
        obtain ⟨rfl, -⟩ := Prod.mk.inj (Option.some.inj first')
        rw [hwords, List.nil_append]
        exact ⟨r, rest⟩
  · rintro ⟨r, hrun⟩
    have hhead := Spoken.head first hrun
    rw [hwords, List.nil_append] at hhead
    exact ⟨r, hhead⟩

-- A common first part.
theorem alike_bind {p : Prog Op β ε α} {f : α → Prog Op β ε γ} {g : α → Prog Op β ε δ} {s : σ} {l : Link β}
    (h : ∀ ws a s' l', Spoken K ⟨p, s, l⟩ ws ⟨.ret a, s', l'⟩ → Alike K K ⟨f a, s', l'⟩ ⟨g a, s', l'⟩) :
    Alike K K ⟨p >>= f, s, l⟩ ⟨p >>= g, s, l⟩ := by
  have hone : ∀ {γ δ : Type} {f : α → Prog Op β ε γ} {g : α → Prog Op β ε δ},
      (∀ ws a s' l', Spoken K ⟨p, s, l⟩ ws ⟨.ret a, s', l'⟩ → Alike K K ⟨f a, s', l'⟩ ⟨g a, s', l'⟩) →
      ∀ ws, (∃ r, Spoken K ⟨p >>= f, s, l⟩ ws r) → ∃ r, Spoken K ⟨p >>= g, s, l⟩ ws r := by
    rintro γ δ f g h ws ⟨r, hrun⟩
    rcases hrun.bind_cases with ⟨p', s', l', hfirst, -⟩ | ⟨a, s', l', ws₁, ws₂, hfirst, hrest, rfl⟩
    · exact ⟨_, hfirst.bind g⟩
    · obtain ⟨r', hrest'⟩ := (h _ a s' l' hfirst ws₂).mp ⟨r, hrest⟩
      exact ⟨r', hfirst.seq hrest'⟩
  exact fun ws => ⟨hone h ws, hone (fun ws a s' l' hrun => (h ws a s' l' hrun).symm) ws⟩

-- What two ends say behind the same messages.
theorem alike_iff_behind {p p' : Proc Op β ε σ α} {q q' : Proc Op β ε τ γ} {ws : List (Word β)}
    (hp : Spoken K p ws p') (hq : Spoken J q ws q') : Alike K J p q ↔ Alike K J p' q' := by
  have hbehind : ∀ {σ τ α γ : Type} {K : Kernel Op σ} {J : Kernel Op τ} {p p' : Proc Op β ε σ α}
      {q q' : Proc Op β ε τ γ}, Spoken K p ws p' → Spoken J q ws q' → (∀ ws, (∃ r, Spoken K p ws r) →
        ∃ r, Spoken J q ws r) → ∀ ws, (∃ r, Spoken K p' ws r) → ∃ r, Spoken J q' ws r := by
    rintro σ τ α γ K J p p' q q' hp hq h ws' ⟨r, hrun⟩
    obtain ⟨r', hrun'⟩ := h _ ⟨r, hp.trans hrun⟩
    rcases hq.linear hrun' with ⟨more, heq, hmore⟩ | ⟨more, heq, -⟩
    · exact ⟨r', List.append_cancel_left heq ▸ hmore⟩
    · obtain rfl : ws' = [] := by
        have hlength := congrArg List.length heq
        simp only [List.length_append] at hlength
        exact List.eq_nil_of_length_eq_zero (by omega)
      exact ⟨q', .refl q'⟩
  have hbefore : ∀ {σ τ α γ : Type} {K : Kernel Op σ} {J : Kernel Op τ} {p p' : Proc Op β ε σ α}
      {q q' : Proc Op β ε τ γ}, Spoken K p ws p' → Spoken J q ws q' → (∀ ws, (∃ r, Spoken K p' ws r) →
        ∃ r, Spoken J q' ws r) → ∀ ws, (∃ r, Spoken K p ws r) → ∃ r, Spoken J q ws r := by
    rintro σ τ α γ K J p p' q q' hp hq h ws' ⟨r, hrun⟩
    rcases hp.linear hrun with ⟨more, rfl, hmore⟩ | ⟨more, heq, -⟩
    · obtain ⟨r', hmore'⟩ := h more ⟨r, hmore⟩
      exact ⟨r', hq.trans hmore'⟩
    · exact hq.prefix ⟨more, heq.symm⟩
  constructor
  · intro h ws'
    exact ⟨hbehind hp hq (fun ws => (h ws).mp) ws', hbehind hq hp (fun ws => (h ws).mpr) ws'⟩
  · intro h ws'
    exact ⟨hbefore hp hq (fun ws => (h ws).mp) ws', hbefore hq hp (fun ws => (h ws).mpr) ws'⟩

-- An end that has come to a stop says nothing more.
theorem not_alike_of_stuck {p : Proc Op β ε σ α} {q q' : Proc Op β ε τ γ} {w : Word β}
    (hp : step K p = none) (hq : Spoken J q [w] q') : ¬Alike K J p q := by
  intro h
  obtain ⟨r, hrun⟩ := (h [w]).mpr ⟨q', hq⟩
  generalize hws : [w] = ws at hrun
  cases hrun with
  | refl _ => cases hws
  | head first _ => simp [hp] at first

theorem alike_of_stuck {p : Proc Op β ε σ α} {q : Proc Op β ε τ γ} (hp : step K p = none)
    (hq : step J q = none) : Alike K J p q := by
  have hone : ∀ {σ τ α γ : Type} {K : Kernel Op σ} {J : Kernel Op τ} {p : Proc Op β ε σ α}
      {q : Proc Op β ε τ γ}, step K p = none → ∀ ws, (∃ r, Spoken K p ws r) → ∃ r, Spoken J q ws r := by
    rintro σ τ α γ K J p q hp ws ⟨r, hrun⟩
    cases hrun with
    | refl _ => exact ⟨q, .refl q⟩
    | head first _ => simp [hp] at first
  exact fun ws => ⟨hone hp ws, hone hq ws⟩

-- Calls of the kind `P` do the same to states that `R` relates.
def Agree (K : Kernel Op σ) (J : Kernel Op τ) (P : {ι : Type} → Op ι → Prop) (R : σ → τ → Prop) : Prop :=
  ∀ {ι : Type} (op : Op ι) s t r s', P op → R s t → K.exec op s = some (r, s') →
    ∃ t', J.exec op t = some (r, t') ∧ R s' t'

variable {P : {ι : Type} → Op ι → Prop} {R : σ → τ → Prop}

theorem step_transfer (hagree : Agree K J P R) {p : Prog Op β ε α} (hp : p.Calls P) {s : σ} {t : τ}
    (hR : R s t) {l : Link β} {q : Proc Op β ε σ α} {bs : List β} (h : step K ⟨p, s, l⟩ = some (q, bs)) :
    ∃ t', step J ⟨p, t, l⟩ = some (⟨q.prog, t', q.link⟩, bs) ∧ R q.state t' := by
  cases p with
  | ret a => simp [step] at h
  | halt e => simp [step] at h
  | call op k =>
      simp only [step, Option.map_eq_some_iff, Prod.mk.injEq] at h
      obtain ⟨⟨r, s'⟩, hexec, rfl, rfl⟩ := h
      obtain ⟨t', hexec', hR'⟩ := hagree op s t r s' (calls_call.mp hp).1 hR hexec
      exact ⟨t', by simp [step, hexec'], hR'⟩
  | send bs k =>
      refine ⟨t, ?_, ?_⟩ <;> simp only [step] at h ⊢ <;> split_ifs at h ⊢ <;> cases h
      all_goals first | rfl | exact hR
  | recv n k =>
      refine ⟨t, ?_, ?_⟩ <;> simp only [step] at h ⊢ <;> split_ifs at h ⊢ <;> cases h
      all_goals first | rfl | exact hR
  | loop body c k =>
      cases h
      exact ⟨t, rfl, hR⟩

theorem Spoken.transfer (hagree : Agree K J P R) {p q : Proc Op β ε σ α} {ws : List (Word β)}
    (h : Spoken K p ws q) (hp : p.prog.Calls P) {t : τ} (hR : R p.state t) :
    ∃ t', Spoken J ⟨p.prog, t, p.link⟩ ws ⟨q.prog, t', q.link⟩ := by
  induction h generalizing t with
  | refl p => exact ⟨t, .refl _⟩
  | @head p q r bs ws first _ ih =>
      have hcalls := (step_calls (J := fun _ => True) (fun _ _ _ _ _ _ _ => trivial) hp trivial first).1
      obtain ⟨t', hstep, hR'⟩ := step_transfer hagree hp hR first
      obtain ⟨t'', hrun⟩ := ih hcalls hR'
      exact ⟨t'', .head hstep hrun⟩

theorem alike_of_agree {Q : τ → σ → Prop} (hagree : Agree K J P R) (hagree' : Agree J K P Q)
    {p : Prog Op β ε α} (hp : p.Calls P) {s : σ} {t : τ} (hR : R s t) (hQ : Q t s) (l : Link β) :
    Alike K J ⟨p, s, l⟩ ⟨p, t, l⟩ := by
  intro ws
  constructor
  · rintro ⟨r, hrun⟩
    obtain ⟨t', hrun'⟩ := hrun.transfer hagree hp hR
    exact ⟨_, hrun'⟩
  · rintro ⟨r, hrun⟩
    obtain ⟨s', hrun'⟩ := hrun.transfer hagree' hp hQ
    exact ⟨_, hrun'⟩

end Alike

section Says

variable {Op : Type → Type} {β ε σ α γ δ : Type}

-- What holds of every run that returns and of its messages.
def Says (K : Kernel Op σ) (p : Prog Op β ε α) (s : σ) (l : Link β)
    (Q : α → σ → Link β → List (Word β) → Prop) : Prop :=
  ∀ ws a s' l', Spoken K ⟨p, s, l⟩ ws ⟨.ret a, s', l'⟩ → Q a s' l' ws

variable {K : Kernel Op σ} {s : σ} {l : Link β} {p : Prog Op β ε α}
  {Q R : α → σ → Link β → List (Word β) → Prop}

theorem Says.mono (h : Says K p s l Q) (hQ : ∀ a s l ws, Q a s l ws → R a s l ws) : Says K p s l R :=
  fun ws a s' l' hrun => hQ a s' l' ws (h ws a s' l' hrun)

theorem Says.and (h : Says K p s l Q) (h' : Says K p s l R) :
    Says K p s l fun a s l ws => Q a s l ws ∧ R a s l ws :=
  fun ws a s' l' hrun => ⟨h ws a s' l' hrun, h' ws a s' l' hrun⟩

theorem says_ret {a : α} (h : Q a s l []) : Says K (.ret a : Prog Op β ε α) s l Q := by
  intro ws b s' l' hrun
  cases hrun with
  | refl _ => exact h
  | head first _ => simp [step] at first

theorem says_halt {e : ε} : Says K (.halt e : Prog Op β ε α) s l Q := by
  intro ws b s' l' hrun
  cases hrun with
  | head first _ => simp [step] at first

theorem says_bind {Q : γ → σ → Link β → List (Word β) → Prop} {f : α → Prog Op β ε γ}
    (h : Says K p s l fun a s l ws => Says K (f a) s l fun b s l ws' => Q b s l (ws ++ ws')) :
    Says K (p >>= f) s l Q := by
  intro ws b s' l' hrun
  rcases hrun.bind_cases with ⟨p', s'', l'', hfirst, heq⟩ | ⟨a, s'', l'', ws₁, ws₂, hfirst, hrest, rfl⟩
  · cases p' with
    | ret a =>
        obtain ⟨heq, rfl, rfl⟩ := Proc.mk.inj heq
        have hq : Q b s' l' (ws ++ []) := h ws a s' l' hfirst [] b s' l' (heq ▸ .refl _)
        rwa [List.append_nil] at hq
    | _ => cases heq
  · exact h ws₁ a s'' l'' hfirst ws₂ b s' l' hrest

theorem says_sys {Q : γ → σ → Link β → List (Word β) → Prop} {o : Op γ}
    (h : ∀ r s', K.exec o s = some (r, s') → Q r s' l []) :
    Says K (Prog.sys o : Prog Op β ε γ) s l Q := by
  intro ws b s' l' hrun
  cases hrun with
  | @head _ q _ bs ws first rest =>
      simp only [step, Prog.sys, Option.map_eq_some_iff, Prod.mk.injEq] at first
      obtain ⟨⟨r, t⟩, hexec, rfl, -⟩ := first
      exact says_ret (h r t hexec) ws b s' l' rest

-- The connection is open: what is said arrives.
theorem says_say {Q : Bool → σ → Link β → List (Word β) → Prop} {bs : List β} (hl : l.closed = false)
    (h : Q true s l [.said bs]) : Says K (Prog.say bs : Prog Op β ε Bool) s l Q := by
  intro ws b s' l' hrun
  have halive : l.alive = true := by simp [Link.alive, hl]
  cases hrun with
  | @head _ q _ bs' ws first rest =>
      simp only [step, Prog.say, halive, if_true, Option.some.injEq, Prod.mk.injEq] at first
      obtain ⟨rfl, -⟩ := first
      have hwords : (⟨Prog.say bs, s, l⟩ : Proc Op β ε σ Bool).words = [.said bs] := by
        simp [Proc.words, Prog.say, halive]
      rw [hwords]
      cases rest with
      | refl _ => exact h
      | head first _ => simp [step] at first

theorem says_hear {Q : List β → σ → Link β → List (Word β) → Prop} {n : Nat} (hl : l.closed = false)
    (h : ∀ bs rest, bs.length = n → Q bs s ⟨rest, false⟩ [.heard bs]) :
    Says K (Prog.hear n : Prog Op β ε (List β)) s l Q := by
  intro ws b s' l' hrun
  cases hrun with
  | @head _ q _ bs' ws first rest =>
      have hwords : (⟨Prog.hear n, s, l⟩ : Proc Op β ε σ (List β)).words =
          [.heard (l.inbox.take n)] := rfl
      rw [hwords]
      simp only [step, Prog.hear, hl, Bool.false_eq_true, if_false] at first
      split_ifs at first with hn
      obtain ⟨rfl, -⟩ := Prod.mk.inj (Option.some.inj first)
      cases rest with
      | refl _ => exact h _ _ (List.length_take_of_le hn)
      | head first _ => simp [step] at first

-- The rule of the loop: an invariant of the rounds and of the messages so far.
theorem says_iter {Q : δ → σ → Link β → List (Word β) → Prop} {body : γ → Prog Op β ε (γ ⊕ δ)} {c : γ}
    (J : γ → σ → Link β → List (Word β) → Prop) (hstart : J c s l [])
    (hround : ∀ c s l ws, J c s l ws → Says K (body c) s l fun r s l ws' =>
      r.elim (fun c' => J c' s l (ws ++ ws')) fun d => Q d s l (ws ++ ws')) :
    Says K (Prog.iter body c) s l Q := by
  -- the loop, seen from a state inside one of its rounds
  have hinside : ∀ ws (start q : Proc Op β ε σ δ), Spoken K start ws q →
      ∀ (p : Prog Op β ε (γ ⊕ δ)) s l ws₀ d s' l',
        start = ⟨p >>= Sum.elim (fun c' => Prog.iter body c') Prog.ret, s, l⟩ → q = ⟨.ret d, s', l'⟩ →
        Says K p s l (fun r s l ws' => r.elim (fun c' => J c' s l (ws₀ ++ ws')) fun d =>
          Q d s l (ws₀ ++ ws')) →
        Q d s' l' (ws₀ ++ ws) := by
    intro ws start q hrun
    induction hrun with
    | refl start =>
        rintro p s l ws₀ d s' l' hstart hend hp
        rw [hstart] at hend
        cases p with
        | ret r =>
            cases r with
            | inl c' => cases hend
            | inr d' =>
                obtain ⟨hd, rfl, rfl⟩ := Proc.mk.inj hend
                cases hd
                exact hp [] _ _ _ (.refl _)
        | _ => cases hend
    | @head start q r bs ws first rest ih =>
        rintro p s l ws₀ d s' l' rfl hend hp
        rcases step_bind_cases first with ⟨x, rfl⟩ | ⟨p', t, m, hstep, rfl⟩
        · cases x with
          | inl c' =>
              have hJ : J c' s l (ws₀ ++ []) := hp [] _ _ _ (.refl _)
              rw [List.append_nil] at hJ
              refine ih (body c') s l ws₀ d s' l' ?_ hend (hround c' s l ws₀ hJ)
              obtain ⟨rfl, -⟩ := Prod.ext_iff.mp (Option.some.inj first)
              exact congrArg (fun k => (⟨body c' >>= k, s, l⟩ : Proc Op β ε σ δ))
                (funext fun x => by cases x <;> rfl)
          | inr d => simp [step] at first
        · have hne : ∀ a, p ≠ .ret a := by
            rintro a rfl
            simp [step] at hstep
          rw [words_bind hne, ← List.append_assoc]
          refine ih p' t m _ d s' l' rfl hend fun ws' a s'' l'' hrest => ?_
          simp only [List.append_assoc]
          exact hp _ a s'' l'' (.head hstep hrest)
  intro ws d s' l' hrun
  exact hinside ws _ _ hrun (.ret (.inl c)) s l [] d s' l' rfl rfl (says_ret (by simpa using hstart))

theorem says_of_ends {Q : α → σ → Link β → Prop} (h : Ends K p s l Q) :
    Says K p s l fun a s l _ => Q a s l := by
  intro ws a s' l' hrun
  obtain ⟨out, hexec⟩ := hrun.exec
  exact h.returns hexec

end Says

end Program
