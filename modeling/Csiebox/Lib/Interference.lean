import Csiebox.Lib.Network
import Csiebox.Lib.Words

namespace Program

section Heads

variable {Op : Type → Type} {β ε α γ : Type}

-- What a program does next.
inductive Head (Op : Type → Type) (β ε : Type) : Type 1 where
  | ret
  | halt (e : ε)
  | call {γ : Type} (op : Op γ)
  | send (bs : List β)
  | recv (n : Nat)
  | loop

def Prog.head : Prog Op β ε α → Head Op β ε
  | .ret _ => .ret
  | .halt e => .halt e
  | .call op _ => .call op
  | .send bs _ => .send bs
  | .recv n _ => .recv n
  | .loop _ _ _ => .loop

theorem head_bind {p : Prog Op β ε α} (hp : ∀ a, p ≠ .ret a) (f : α → Prog Op β ε γ) :
    (p >>= f).head = p.head := by
  cases p with
  | ret a => exact absurd rfl (hp a)
  | _ => rfl

end Heads

section Courses

variable {Op : Type → Type} {β ε σ α γ : Type}

-- A run of one end on an open connection that is not alone: it takes its own steps where
-- `C` allows them, others change its state as `E` says, and bytes come in.
inductive Course (K : Kernel Op σ) (E : σ → σ → Prop) (C : Head Op β ε → σ → Prop) :
    Prog Op β ε α → σ → List β → List (Word β) → Prog Op β ε α → σ → List β → Prop where
  | refl (p : Prog Op β ε α) (s : σ) (i : List β) : Course K E C p s i [] p s i
  | own {p q r : Prog Op β ε α} {s t u : σ} {i j k bs : List β} {ws : List (Word β)}
      (allowed : C p.head s) (first : step K ⟨p, s, ⟨i, false⟩⟩ = some (⟨q, t, ⟨j, false⟩⟩, bs))
      (rest : Course K E C q t j ws r u k) :
      Course K E C p s i (Proc.words ⟨p, s, ⟨i, false⟩⟩ ++ ws) r u k
  | other {p r : Prog Op β ε α} {s t u : σ} {i k : List β} {ws : List (Word β)} (change : E s t)
      (rest : Course K E C p t i ws r u k) : Course K E C p s i ws r u k
  | arrival {p r : Prog Op β ε α} {s u : σ} {i k : List β} {ws : List (Word β)} (more : List β)
      (rest : Course K E C p s (i ++ more) ws r u k) : Course K E C p s i ws r u k

variable {K : Kernel Op σ} {E : σ → σ → Prop} {C : Head Op β ε → σ → Prop} {s u : σ} {i k : List β}
  {ws ws' : List (Word β)}

theorem Course.trans {p q r : Prog Op β ε α} {t : σ} {j : List β} (h : Course K E C p s i ws q t j)
    (h' : Course K E C q t j ws' r u k) : Course K E C p s i (ws ++ ws') r u k := by
  induction h with
  | refl p s i => exact h'
  | own allowed first _ ih =>
      rw [List.append_assoc]
      exact .own allowed first (ih h')
  | other change _ ih => exact .other change (ih h')
  | arrival more _ ih => exact .arrival more (ih h')

-- A run of a composed program is still in the first part, or the first part has
-- returned and the second one has run on.
theorem Course.bind_cases {p : Prog Op β ε α} {f : α → Prog Op β ε γ} {q : Prog Op β ε γ}
    (h : Course K E C (p >>= f) s i ws q u k) :
    (∃ p', Course K E C p s i ws p' u k ∧ (∀ a, p' ≠ .ret a) ∧ q = (p' >>= f)) ∨
      ∃ a t j ws₁ ws₂, Course K E C p s i ws₁ (.ret a) t j ∧ Course K E C (f a) t j ws₂ q u k ∧
        ws = ws₁ ++ ws₂ := by
  generalize hp : (p >>= f) = start at h
  induction h generalizing p with
  | refl start s i =>
      cases p with
      | ret a => exact .inr ⟨a, s, i, [], [], .refl _ _ _, hp ▸ .refl _ _ _, rfl⟩
      | _ => exact .inl ⟨_, .refl _ _ _, by simp, hp.symm⟩
  | @own start q _ s t _ i j _ bs ws allowed first rest ih =>
      subst hp
      rcases step_bind_cases first with ⟨a, rfl⟩ | ⟨p', t', l', hstep, heq⟩
      · exact .inr ⟨a, s, i, [], _, .refl _ _ _, .own allowed first rest, rfl⟩
      · have hne : ∀ a, p ≠ .ret a := by
          rintro a rfl
          simp [step] at hstep
        obtain ⟨rfl, rfl, rfl⟩ := Proc.mk.inj heq
        rw [head_bind hne] at allowed
        rw [words_bind hne]
        rcases ih rfl with ⟨p'', hrun, hnot, rfl⟩ | ⟨a, t', j', ws₁, ws₂, hrun, hrest, rfl⟩
        · exact .inl ⟨p'', .own allowed hstep hrun, hnot, rfl⟩
        · exact .inr ⟨a, t', j', _, ws₂, .own allowed hstep hrun, hrest, (List.append_assoc ..).symm⟩
  | other change _ ih =>
      rcases ih hp with ⟨p', hrun, hnot, rfl⟩ | ⟨a, t', j', ws₁, ws₂, hrun, hrest, rfl⟩
      · exact .inl ⟨p', .other change hrun, hnot, rfl⟩
      · exact .inr ⟨a, t', j', ws₁, ws₂, .other change hrun, hrest, rfl⟩
  | arrival more _ ih =>
      rcases ih hp with ⟨p', hrun, hnot, rfl⟩ | ⟨a, t', j', ws₁, ws₂, hrun, hrest, rfl⟩
      · exact .inl ⟨p', .arrival more hrun, hnot, rfl⟩
      · exact .inr ⟨a, t', j', ws₁, ws₂, .arrival more hrun, hrest, rfl⟩

-- Up to its own first step an end is where it was, apart from what others have changed.
theorem Course.start {p q : Prog Op β ε α} (h : Course K E C p s i ws q u k) :
    (Relation.ReflTransGen E s u ∧ q = p ∧ ws = []) ∨
      ∃ t j p' t' j' bs ws', Relation.ReflTransGen E s t ∧ C p.head t ∧
        step K ⟨p, t, ⟨j, false⟩⟩ = some (⟨p', t', ⟨j', false⟩⟩, bs) ∧
        Course K E C p' t' j' ws' q u k ∧ ws = Proc.words ⟨p, t, ⟨j, false⟩⟩ ++ ws' := by
  induction h with
  | refl p s i => exact .inl ⟨.refl, rfl, rfl⟩
  | own allowed first rest _ => exact .inr ⟨_, _, _, _, _, _, _, .refl, allowed, first, rest, rfl⟩
  | other change _ ih =>
      rcases ih with ⟨hs, rfl, rfl⟩ | ⟨t, j, p', t', j', bs, ws', hs, hrun⟩
      · exact .inl ⟨.head change hs, rfl, rfl⟩
      · exact .inr ⟨t, j, p', t', j', bs, ws', .head change hs, hrun⟩
  | arrival more _ ih => exact ih

end Courses

section Assurance

variable {Op : Type → Type} {β ε σ α γ δ : Type}

-- What an end assures whatever the others do and whatever it receives behind `i`: `G` of
-- what it does next, with its state and its messages so far, and `Q` of its results.
def AssuresAt (K : Kernel Op σ) (E : σ → σ → Prop) (C : Head Op β ε → σ → Prop)
    (G : Head Op β ε → σ → List (Word β) → Prop) (p : Prog Op β ε α) (s : σ) (i : List β)
    (ws : List (Word β)) (Q : α → σ → List (Word β) → Prop) : Prop :=
  ∀ ws' q u k, Course K E C p s i ws' q u k →
    (∀ a, q = .ret a → Q a u (ws ++ ws')) ∧ ((∀ a, q ≠ .ret a) → G q.head u (ws ++ ws'))

def Assures (K : Kernel Op σ) (E : σ → σ → Prop) (C : Head Op β ε → σ → Prop)
    (G : Head Op β ε → σ → List (Word β) → Prop) (p : Prog Op β ε α) (s : σ) (ws : List (Word β))
    (Q : α → σ → List (Word β) → Prop) : Prop :=
  ∀ i, AssuresAt K E C G p s i ws Q

variable {K : Kernel Op σ} {E : σ → σ → Prop} {C : Head Op β ε → σ → Prop}
  {G : Head Op β ε → σ → List (Word β) → Prop} {p : Prog Op β ε α} {s : σ} {ws : List (Word β)}
  {Q R : α → σ → List (Word β) → Prop}

theorem Assures.mono (h : Assures K E C G p s ws Q) (hQ : ∀ a s ws, Q a s ws → R a s ws) :
    Assures K E C G p s ws R :=
  fun i ws' q u k hrun => ⟨fun a ha => hQ a u _ ((h i ws' q u k hrun).1 a ha), (h i ws' q u k hrun).2⟩

-- What any messages to come leave true.
theorem assures_any (hG : ∀ head t ws', G head t (ws ++ ws')) (hQ : ∀ a t ws', Q a t (ws ++ ws')) :
    Assures K E C G p s ws Q :=
  fun _ ws' q u _ _ => ⟨fun a _ => hQ a u ws', fun _ => hG q.head u ws'⟩

-- From what holds before the first step, and of what it leads to.
theorem assures_start
    (hhere : ∀ t, Relation.ReflTransGen E s t →
      (∀ a, p = .ret a → Q a t ws) ∧ ((∀ a, p ≠ .ret a) → G p.head t ws))
    (hnext : ∀ t i q t' j bs, Relation.ReflTransGen E s t → C p.head t →
      step K ⟨p, t, ⟨i, false⟩⟩ = some (⟨q, t', ⟨j, false⟩⟩, bs) →
        Assures K E C G q t' (ws ++ Proc.words ⟨p, t, ⟨i, false⟩⟩) Q) : Assures K E C G p s ws Q := by
  intro i ws' q u k hrun
  rcases hrun.start with ⟨hs, rfl, rfl⟩ | ⟨t, j, p', t', j', bs, ws'', hs, hC, hstep, hrest, rfl⟩
  · rw [List.append_nil]
    exact hhere u hs
  · rw [← List.append_assoc]
    exact hnext t j p' t' j' bs hs hC hstep j' ws'' q u k hrest

theorem assures_ret {a : α} (h : ∀ t, Relation.ReflTransGen E s t → Q a t ws) :
    Assures K E C G (.ret a) s ws Q := by
  refine assures_start (fun t ht => ⟨?_, fun hne => absurd rfl (hne a)⟩) ?_
  · rintro b hb
    cases hb
    exact h t ht
  · intro t i q t' j bs _ _ hstep
    simp [step] at hstep

theorem assures_halt {e : ε} (h : ∀ t, Relation.ReflTransGen E s t → G (.halt e) t ws) :
    Assures K E C G (.halt e) s ws Q := by
  refine assures_start (fun t ht => ⟨by simp, fun _ => h t ht⟩) ?_
  intro t i q t' j bs _ _ hstep
  simp [step] at hstep

theorem assures_call {op : Op γ} {f : γ → Prog Op β ε α}
    (h : ∀ t, Relation.ReflTransGen E s t → G (.call op) t ws ∧
      (C (.call op) t → ∀ r t', K.exec op t = some (r, t') → Assures K E C G (f r) t' ws Q)) :
    Assures K E C G (Prog.sys op >>= f) s ws Q := by
  refine assures_start (fun t ht => ⟨nofun, fun _ => (h t ht).1⟩) ?_
  intro t i q t' j bs ht hC hstep
  simp only [Prog.sys, Bind.bind, Prog.bind, step, Option.map_eq_some_iff, Prod.mk.injEq,
    Proc.mk.injEq] at hstep
  obtain ⟨⟨r, t''⟩, hexec, ⟨rfl, rfl, -⟩, -⟩ := hstep
  have hwords : Proc.words (⟨Prog.sys op >>= f, t, ⟨i, false⟩⟩ : Proc Op β ε σ α) = [] := rfl
  rw [hwords, List.append_nil]
  exact (h t ht).2 hC r t'' hexec

theorem assures_say {bs : List β} {f : Bool → Prog Op β ε α}
    (h : ∀ t, Relation.ReflTransGen E s t → G (.send bs) t ws ∧
      (C (.send bs) t → Assures K E C G (f true) t (ws ++ [.said bs]) Q)) :
    Assures K E C G (Prog.say bs >>= f) s ws Q := by
  refine assures_start (fun t ht => ⟨nofun, fun _ => (h t ht).1⟩) ?_
  intro t i q t' j out ht hC hstep
  simp only [Prog.say, Bind.bind, Prog.bind, step, Link.alive, Bool.not_false, Bool.true_or, if_true,
    Option.some.injEq, Prod.mk.injEq, Proc.mk.injEq] at hstep
  obtain ⟨⟨rfl, rfl, -⟩, -⟩ := hstep
  exact (h t ht).2 hC

theorem assures_hear {n : Nat} {f : List β → Prog Op β ε α}
    (h : ∀ t, Relation.ReflTransGen E s t → G (.recv n) t ws ∧
      (C (.recv n) t → ∀ bs, bs.length = n → Assures K E C G (f bs) t (ws ++ [.heard bs]) Q)) :
    Assures K E C G (Prog.hear n >>= f) s ws Q := by
  refine assures_start (fun t ht => ⟨nofun, fun _ => (h t ht).1⟩) ?_
  intro t i q t' j bs ht hC hstep
  simp only [Prog.hear, Bind.bind, Prog.bind, step, Bool.false_eq_true, if_false] at hstep
  split_ifs at hstep with hn
  obtain ⟨hproc, -⟩ := Prod.mk.inj (Option.some.inj hstep)
  obtain ⟨rfl, rfl, -⟩ := Proc.mk.inj hproc
  exact (h t ht).2 hC _ (List.length_take_of_le hn)

theorem assures_bind {Q : γ → σ → List (Word β) → Prop} {f : α → Prog Op β ε γ}
    (h : Assures K E C G p s ws fun a s ws => Assures K E C G (f a) s ws Q) :
    Assures K E C G (p >>= f) s ws Q := by
  intro i ws' q u k hrun
  rcases hrun.bind_cases with ⟨p', hfirst, hne, rfl⟩ | ⟨a, t, j, ws₁, ws₂, hfirst, hrest, rfl⟩
  · rw [head_bind hne]
    refine ⟨fun a ha => ?_, fun _ => (h i ws' p' u k hfirst).2 hne⟩
    cases p' with
    | ret b => exact absurd rfl (hne b)
    | _ => cases ha
  · rw [← List.append_assoc]
    exact (h i ws₁ _ t j hfirst).1 a rfl j ws₂ q u k hrest

-- The rest of an end's run assures the same.
theorem AssuresAt.own {i j bs : List β} (h : AssuresAt K E C G p s i ws Q) {q : Prog Op β ε α} {t : σ}
    (allowed : C p.head s) (first : step K ⟨p, s, ⟨i, false⟩⟩ = some (⟨q, t, ⟨j, false⟩⟩, bs)) :
    AssuresAt K E C G q t j (ws ++ Proc.words ⟨p, s, ⟨i, false⟩⟩) Q := by
  intro ws' r u k hrun
  rw [List.append_assoc]
  exact h _ r u k (.own allowed first hrun)

theorem AssuresAt.other {i : List β} (h : AssuresAt K E C G p s i ws Q) {t : σ} (change : E s t) :
    AssuresAt K E C G p t i ws Q :=
  fun ws' q u k hrun => h ws' q u k (.other change hrun)

theorem AssuresAt.arrival {i : List β} (h : AssuresAt K E C G p s i ws Q) (more : List β) :
    AssuresAt K E C G p s (i ++ more) ws Q :=
  fun ws' q u k hrun => h ws' q u k (.arrival more hrun)

theorem AssuresAt.here {i : List β} (h : AssuresAt K E C G p s i ws Q) :
    (∀ a, p = .ret a → Q a s ws) ∧ ((∀ a, p ≠ .ret a) → G p.head s ws) := by
  have hnow := h [] p s i (.refl p s i)
  rwa [List.append_nil] at hnow

-- The rule of the loop: an invariant of the rounds that the others keep, too.
theorem assures_iter {Q : δ → σ → List (Word β) → Prop} {body : γ → Prog Op β ε (γ ⊕ δ)} {c : γ}
    (J : γ → σ → List (Word β) → Prop) (hloop : ∀ c s ws, J c s ws → G .loop s ws)
    (hkept : ∀ c s t ws, J c s ws → E s t → J c t ws) (hstart : J c s ws)
    (hround : ∀ c s ws, J c s ws → Assures K E C G (body c) s ws fun r s ws =>
      r.elim (fun c' => J c' s ws) fun d => Q d s ws) :
    Assures K E C G (Prog.iter body c) s ws Q := by
  -- the loop, seen from a state inside one of its rounds
  have hinside : ∀ (start q : Prog Op β ε δ) s i ws' u k, Course K E C start s i ws' q u k →
      ∀ (p : Prog Op β ε (γ ⊕ δ)) ws,
        start = (p >>= Sum.elim (fun c' => Prog.iter body c') Prog.ret) →
        AssuresAt K E C G p s i ws (fun r s ws => r.elim (fun c' => J c' s ws) fun d => Q d s ws) →
        (∀ d, q = .ret d → Q d u (ws ++ ws')) ∧ ((∀ d, q ≠ .ret d) → G q.head u (ws ++ ws')) := by
    intro start q s i ws' u k hrun
    induction hrun with
    | refl start s i =>
        rintro p ws rfl hp
        rw [List.append_nil]
        cases p with
        | ret r =>
            have hr := hp.here.1 r rfl
            cases r with
            | inl c' => exact ⟨nofun, fun _ => hloop c' s ws hr⟩
            | inr d =>
                refine ⟨fun d' hd => ?_, fun hne => absurd rfl (hne d)⟩
                cases hd
                exact hr
        | _ => exact ⟨nofun, fun _ => hp.here.2 (by simp)⟩
    | @own start q r s t u i j k bs ws' allowed first rest ih =>
        rintro p ws rfl hp
        rcases step_bind_cases first with ⟨x, rfl⟩ | ⟨p', t', l', hstep, heq⟩
        · cases x with
          | inl c' =>
              have hJ : J c' s ws := hp.here.1 _ rfl
              obtain ⟨hproc, -⟩ := Prod.mk.inj (Option.some.inj first)
              obtain ⟨rfl, rfl, hlink⟩ := Proc.mk.inj hproc
              cases hlink
              have hwords : Proc.words (⟨Prog.ret (.inl c') >>= Sum.elim (fun c' => Prog.iter body c')
                Prog.ret, s, ⟨i, false⟩⟩ : Proc Op β ε σ δ) = [] := rfl
              rw [hwords, List.nil_append]
              refine ih (body c') ws ?_ (hround c' s ws hJ i)
              exact congrArg (fun k => (body c' >>= k : Prog Op β ε δ)) (funext fun x => by cases x <;> rfl)
          | inr d => simp [step] at first
        · have hne : ∀ a, p ≠ .ret a := by
            rintro a rfl
            simp [step] at hstep
          obtain ⟨rfl, rfl, rfl⟩ := Proc.mk.inj heq
          rw [head_bind hne] at allowed
          rw [words_bind hne, ← List.append_assoc]
          exact ih p' _ rfl (hp.own allowed hstep)
    | @other start r s t u i k ws' change rest ih =>
        rintro p ws rfl hp
        exact ih p ws rfl (hp.other change)
    | arrival more rest ih =>
        rintro p ws rfl hp
        exact ih p ws rfl (hp.arrival more)
  intro i ws' q u k hrun
  refine hinside _ q s i ws' u k hrun (.ret (.inl c)) ws rfl (assures_ret (fun t ht => ?_) i)
  show J c t ws
  induction ht with
  | refl => exact hstart
  | tail _ last ih => exact hkept c _ _ ws ih last

end Assurance

section Networks

variable {Op : Type → Type} {β ε σ τ α γ : Type}

def sentBytes : List (Word β) → List β
  | [] => []
  | .said bs :: ws => bs ++ sentBytes ws
  | .heard _ :: ws => sentBytes ws

def heardBytes : List (Word β) → List β
  | [] => []
  | .said _ :: ws => heardBytes ws
  | .heard bs :: ws => bs ++ heardBytes ws

theorem sentBytes_append (ws ws' : List (Word β)) :
    sentBytes (ws ++ ws') = sentBytes ws ++ sentBytes ws' := by
  induction ws with
  | nil => rfl
  | cons w ws ih =>
      cases w with
      | said bs => simp only [List.cons_append, sentBytes, ih, List.append_assoc]
      | heard bs => exact ih

theorem heardBytes_append (ws ws' : List (Word β)) :
    heardBytes (ws ++ ws') = heardBytes ws ++ heardBytes ws' := by
  induction ws with
  | nil => rfl
  | cons w ws ih =>
      cases w with
      | said bs => exact ih
      | heard bs => simp only [List.cons_append, heardBytes, ih, List.append_assoc]

-- The messages of a step are what it sends and what it takes from the inbox.
theorem step_words {K : Kernel Op σ} {p q : Prog Op β ε α} {s t : σ} {i j out : List β}
    (h : step K ⟨p, s, ⟨i, false⟩⟩ = some (⟨q, t, ⟨j, false⟩⟩, out)) :
    sentBytes (Proc.words ⟨p, s, ⟨i, false⟩⟩) = out ∧
      i = heardBytes (Proc.words ⟨p, s, ⟨i, false⟩⟩) ++ j := by
  cases p with
  | ret a => simp [step] at h
  | halt e => simp [step] at h
  | call op k =>
      simp only [step, Option.map_eq_some_iff, Prod.mk.injEq, Proc.mk.injEq] at h
      obtain ⟨r, -, ⟨-, -, hlink⟩, rfl⟩ := h
      cases hlink
      exact ⟨rfl, rfl⟩
  | send bs k =>
      simp only [step, Link.alive, Bool.not_false, Bool.true_or, if_true] at h
      cases h
      exact ⟨List.append_nil _, rfl⟩
  | recv n k =>
      simp only [step, Bool.false_eq_true, if_false] at h
      split_ifs at h
      cases h
      exact ⟨rfl, by simp [Proc.words, heardBytes]⟩
  | loop body c k =>
      cases h
      exact ⟨rfl, rfl⟩

-- Only a call changes the state, and only a send sends.
theorem step_effect {K : Kernel Op σ} {p q : Prog Op β ε α} {s t : σ} {i j out : List β}
    (h : step K ⟨p, s, ⟨i, false⟩⟩ = some (⟨q, t, ⟨j, false⟩⟩, out)) :
    (t = s ∨ ∃ (γ : Type) (op : Op γ) (r : γ), p.head = .call op ∧ K.exec op s = some (r, t)) ∧
      (out = [] ∨ p.head = .send out) := by
  cases p with
  | ret a => simp [step] at h
  | halt e => simp [step] at h
  | call op k =>
      simp only [step, Option.map_eq_some_iff, Prod.mk.injEq, Proc.mk.injEq] at h
      obtain ⟨⟨r, u⟩, hexec, ⟨-, rfl, -⟩, rfl⟩ := h
      exact ⟨.inr ⟨_, op, r, rfl, hexec⟩, .inl rfl⟩
  | send bs k =>
      simp only [step, Link.alive, Bool.not_false, Bool.true_or, if_true] at h
      cases h
      exact ⟨.inl rfl, .inr rfl⟩
  | recv n k =>
      simp only [step, Bool.false_eq_true, if_false] at h
      split_ifs at h
      cases h
      exact ⟨.inl rfl, .inl rfl⟩
  | loop body c k =>
      cases h
      exact ⟨.inl rfl, .inl rfl⟩

-- Either end takes a step, the right one where `C` allows it, or others change the state
-- of the right end.
inductive Net.Disturbed (K : Kernel Op σ) (J : Kernel Op τ) (E : τ → τ → Prop)
    (C : Head Op β ε → τ → Prop) (c : Net Op β ε σ τ α γ) : Net Op β ε σ τ α γ → Prop where
  | left {d : Net Op β ε σ τ α γ} (own : c.leftStep K = some d) : Net.Disturbed K J E C c d
  | right {d : Net Op β ε σ τ α γ} (allowed : C c.right.head c.rightState) (own : c.rightStep J = some d) :
      Net.Disturbed K J E C c d
  | other {t : τ} (change : E c.rightState t) : Net.Disturbed K J E C c { c with rightState := t }

variable {K : Kernel Op σ} {J : Kernel Op τ} {E : τ → τ → Prop} {C : Head Op β ε → τ → Prop}
  {c d : Net Op β ε σ τ α γ}

-- What a run of the net is for the right end.
theorem disturbed_right (h : Relation.ReflTransGen (Net.Disturbed K J E C) c d) :
    ∃ ws, Course J E C c.right c.rightState c.toRight ws d.right d.rightState d.toRight ∧
      d.rightSaid = c.rightSaid ++ sentBytes ws := by
  induction h with
  | refl => exact ⟨[], .refl _ _ _, (List.append_nil _).symm⟩
  | tail _ last ih =>
      obtain ⟨ws, hrun, hsaid⟩ := ih
      cases last with
      | left own =>
          obtain ⟨p, s, j, out, -, rfl⟩ := leftStep_eq own
          refine ⟨ws, ?_, hsaid⟩
          have hall := hrun.trans (.arrival out (.refl _ _ _))
          rwa [List.append_nil] at hall
      | right allowed own =>
          obtain ⟨p, s, j, out, hstep, rfl⟩ := rightStep_eq own
          refine ⟨ws ++ (_ ++ []), hrun.trans (.own allowed hstep (.refl _ _ _)), ?_⟩
          show _ ++ out = _
          rw [hsaid, sentBytes_append, List.append_nil, (step_words hstep).1, List.append_assoc]
      | other change =>
          refine ⟨ws, ?_, hsaid⟩
          have hall := hrun.trans (.other change (.refl _ _ _))
          rwa [List.append_nil] at hall

-- What it is for the left end: the bytes of the right end are taken in or in flight.
theorem disturbed_left (h : Relation.ReflTransGen (Net.Disturbed K J E C) c d) :
    ∃ ws more, Course K (fun _ _ => False) (fun _ _ => True) c.left c.leftState c.toLeft ws d.left
        d.leftState d.toLeft ∧
      d.rightSaid = c.rightSaid ++ more ∧ c.toLeft ++ more = heardBytes ws ++ d.toLeft := by
  induction h with
  | refl => exact ⟨[], [], .refl _ _ _, (List.append_nil _).symm, List.append_nil _⟩
  | tail _ last ih =>
      obtain ⟨ws, more, hrun, hsaid, hheard⟩ := ih
      cases last with
      | left own =>
          obtain ⟨p, s, j, out, hstep, rfl⟩ := leftStep_eq own
          refine ⟨ws ++ (_ ++ []), more, hrun.trans (.own trivial hstep (.refl _ _ _)), hsaid, ?_⟩
          rw [hheard, heardBytes_append, List.append_nil, List.append_assoc]
          exact congrArg _ (step_words hstep).2
      | right allowed own =>
          obtain ⟨p, s, j, out, hstep, rfl⟩ := rightStep_eq own
          refine ⟨ws, more ++ out, ?_, ?_, ?_⟩
          · have hall := hrun.trans (.arrival out (.refl _ _ _))
            rwa [List.append_nil] at hall
          · show _ ++ out = _
            rw [hsaid, List.append_assoc]
          · rw [← List.append_assoc, hheard, List.append_assoc]
      | other change => exact ⟨ws, more, hrun, hsaid, hheard⟩

end Networks

section Histories

variable {Op : Type → Type} {β ε σ τ α γ δ ι : Type}

-- A kernel that notes answers down beside its state, where no program can read them.
def Kernel.noting (K : Kernel Op σ) (note : (γ : Type) → Op γ → γ → List ι) : Kernel Op (σ × List ι) where
  exec op s := (K.exec op s.1).map fun (r, t) => (r, t, s.2 ++ note _ op r)

variable {K : Kernel Op σ} {J : Kernel Op τ} {note : (γ : Type) → Op γ → γ → List ι}

theorem noting_exec {op : Op γ} {s t : σ × List ι} {r : γ} :
    (K.noting note).exec op s = some (r, t) ↔ K.exec op s.1 = some (r, t.1) ∧ t.2 = s.2 ++ note _ op r := by
  obtain ⟨t, notes⟩ := t
  simp only [Kernel.noting, Option.map_eq_some_iff, Prod.mk.injEq, Prod.exists]
  constructor
  · rintro ⟨r', t', hexec, rfl, rfl, rfl⟩
    exact ⟨hexec, rfl⟩
  · rintro ⟨hexec, rfl⟩
    exact ⟨r, t, hexec, rfl, rfl, rfl⟩

theorem step_noting (note : (γ : Type) → Op γ → γ → List ι) {p q : Prog Op β ε α} {s t : σ}
    {l k : Link β} {bs : List β}
    (h : step K ⟨p, s, l⟩ = some (⟨q, t, k⟩, bs)) (notes : List ι) :
    ∃ notes', step (K.noting note) ⟨p, (s, notes), l⟩ = some (⟨q, (t, notes'), k⟩, bs) := by
  cases p with
  | ret a => simp [step] at h
  | halt e => simp [step] at h
  | call op f =>
      simp only [step, Option.map_eq_some_iff, Prod.mk.injEq, Proc.mk.injEq] at h
      obtain ⟨⟨r, u⟩, hexec, ⟨rfl, rfl, rfl⟩, rfl⟩ := h
      have hnoted : (K.noting note).exec op (s, notes) = some (r, u, notes ++ note _ op r) :=
        noting_exec.mpr ⟨hexec, rfl⟩
      exact ⟨notes ++ note _ op r, by simp only [step, hnoted, Option.map_some]⟩
  | send out f =>
      simp only [step] at h ⊢
      split_ifs at h ⊢ <;> cases h <;> exact ⟨notes, rfl⟩
  | recv n f =>
      simp only [step] at h ⊢
      split_ifs at h ⊢ <;> cases h <;> exact ⟨notes, rfl⟩
  | loop body c f =>
      cases h
      exact ⟨notes, rfl⟩

-- A joint state whose right end has notes.
def Net.noted (c : Net Op β ε σ τ α γ) (notes : List ι) : Net Op β ε σ (τ × List ι) α γ :=
  ⟨c.left, c.leftState, c.right, (c.rightState, notes), c.toLeft, c.toRight, c.leftSaid, c.rightSaid⟩

-- Taking notes is in no run's way.
theorem runs_noting (note : (γ : Type) → Op γ → γ → List ι) {c d : Net Op β ε σ τ α γ}
    (h : Net.Runs K J c d) (notes : List ι) :
    ∃ notes', Net.Runs K (J.noting note) (c.noted notes) (d.noted notes') := by
  induction h with
  | refl => exact ⟨notes, .refl⟩
  | tail _ last ih =>
      obtain ⟨notes', hrun⟩ := ih
      cases last with
      | inl own =>
          obtain ⟨p, s, j, out, hstep, rfl⟩ := leftStep_eq own
          refine ⟨notes', hrun.tail (.inl ?_)⟩
          simp only [Net.leftStep, Net.noted, hstep, Option.map_some]
      | inr own =>
          obtain ⟨p, s, j, out, hstep, rfl⟩ := rightStep_eq own
          obtain ⟨notes'', hnoted⟩ := step_noting note hstep notes'
          refine ⟨notes'', hrun.tail (.inr ?_)⟩
          simp only [Net.rightStep, Net.noted, hnoted, Option.map_some]

end Histories

end Program
