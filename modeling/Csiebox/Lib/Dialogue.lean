import Csiebox.Lib.Network

namespace Program

section Talk

variable {Op : Type → Type} {β ε σ τ α γ δ : Type}

-- A run in rounds on an open connection: each round uses up the bytes it is
-- given and sends some.
inductive Talk (K : Kernel Op σ) :
    Prog Op β ε α → σ → List (List β × List β) → Prog Op β ε α → σ → Prop where
  | nil (p : Prog Op β ε α) (s : σ) : Talk K p s [] p s
  | cons {p q r : Prog Op β ε α} {s t u : σ} {inp out : List β}
      {rounds : List (List β × List β)}
      (round : Exec K ⟨p, s, ⟨inp, false⟩⟩ out ⟨q, t, ⟨[], false⟩⟩)
      (rest : Talk K q t rounds r u) : Talk K p s ((inp, out) :: rounds) r u

variable {K : Kernel Op σ} {s t u : σ} {rounds rounds' : List (List β × List β)}

theorem Talk.one {p q : Prog Op β ε α} {inp out : List β}
    (h : Exec K ⟨p, s, ⟨inp, false⟩⟩ out ⟨q, t, ⟨[], false⟩⟩) : Talk K p s [(inp, out)] q t :=
  .cons h (.nil q t)

theorem Talk.trans {p q r : Prog Op β ε α} (h : Talk K p s rounds q t)
    (h' : Talk K q t rounds' r u) : Talk K p s (rounds ++ rounds') r u := by
  induction h with
  | nil p s => exact h'
  | cons round _ ih => exact .cons round (ih h')

theorem Talk.bind {p q : Prog Op β ε α} (h : Talk K p s rounds q t) (f : α → Prog Op β ε γ) :
    Talk K (p >>= f) s rounds (q >>= f) t := by
  induction h with
  | nil p s => exact .nil _ _
  | cons round _ ih => exact .cons (round.bind f) ih

theorem Talk.seq {p : Prog Op β ε α} {a : α} {f : α → Prog Op β ε γ} {q : Prog Op β ε γ}
    (h : Talk K p s rounds (.ret a) t) (h' : Talk K (f a) t rounds' q u) :
    Talk K (p >>= f) s (rounds ++ rounds') q u :=
  (h.bind f).trans h'

theorem Exec.frame {p q : Prog Op β ε α} {i j out : List β}
    (h : Exec K ⟨p, s, ⟨i, false⟩⟩ out ⟨q, t, ⟨j, false⟩⟩) (more : List β) :
    Exec K ⟨p, s, ⟨i ++ more, false⟩⟩ out ⟨q, t, ⟨j ++ more, false⟩⟩ := by
  generalize hp : (⟨p, s, ⟨i, false⟩⟩ : Proc Op β ε σ α) = start at h
  generalize hq : (⟨q, t, ⟨j, false⟩⟩ : Proc Op β ε σ α) = stop at h
  induction h generalizing p s i with
  | refl _ =>
      subst hp
      cases hq
      exact .refl _
  | head first _ ih =>
      subst hp
      obtain ⟨p', s', i', rfl⟩ := step_open first
      exact .head (step_frame first more) (ih rfl hq)

-- All that the rounds use up can be there from the start.
theorem Talk.exec {p q : Prog Op β ε α} (h : Talk K p s rounds q t) (more : List β) :
    ∃ out, Exec K ⟨p, s, ⟨(rounds.map Prod.fst).flatten ++ more, false⟩⟩ out ⟨q, t, ⟨more, false⟩⟩ := by
  induction h with
  | nil p s => exact ⟨[], .refl _⟩
  | @cons _ _ _ _ _ _ inp out rounds round _ ih =>
      obtain ⟨out', hrest⟩ := ih
      have hround := round.frame ((rounds.map Prod.fst).flatten ++ more)
      rw [List.map_cons, List.flatten_cons, List.append_assoc]
      exact ⟨out ++ out', hround.trans hrest⟩

-- Silent steps in front of the first round.
theorem Talk.prepend {p q r : Prog Op β ε α} {inp out : List β}
    (h : Exec K ⟨p, s, ⟨[], false⟩⟩ [] ⟨q, t, ⟨[], false⟩⟩)
    (h' : Talk K q t ((inp, out) :: rounds) r u) : Talk K p s ((inp, out) :: rounds) r u := by
  cases h' with
  | cons round rest => exact .cons ((h.frame inp).trans round) rest

theorem Talk.after {p : Prog Op β ε α} {a : α} {f : α → Prog Op β ε γ} {q : Prog Op β ε γ}
    {inp out : List β} (h : Exec K ⟨p, s, ⟨[], false⟩⟩ [] ⟨.ret a, t, ⟨[], false⟩⟩)
    (h' : Talk K (f a) t ((inp, out) :: rounds) q u) :
    Talk K (p >>= f) s ((inp, out) :: rounds) q u :=
  .prepend (h.bind f) h'

-- Silent steps behind the last round.
theorem Talk.append {p q r : Prog Op β ε α} (hne : rounds ≠ []) (h : Talk K p s rounds q t)
    (h' : Exec K ⟨q, t, ⟨[], false⟩⟩ [] ⟨r, u, ⟨[], false⟩⟩) : Talk K p s rounds r u := by
  induction h with
  | nil _ _ => exact absurd rfl hne
  | @cons _ _ _ _ _ _ inp out rounds round rest ih =>
      cases rounds with
      | nil =>
          cases rest
          exact .one (by simpa using round.trans h')
      | cons _ _ => exact .cons round (ih (by simp) h')

-- One unfolding of a loop.
def Prog.unroll (body : γ → Prog Op β ε (γ ⊕ δ)) (c : γ) : Prog Op β ε δ :=
  body c >>= fun
    | .inl c' => iter body c'
    | .inr d => ret d

theorem exec_unroll (body : γ → Prog Op β ε (γ ⊕ δ)) (c : γ) (l : Link β) :
    Exec K ⟨Prog.iter body c, s, l⟩ [] ⟨Prog.unroll body c, s, l⟩ :=
  .single rfl

theorem talk_unroll {body : γ → Prog Op β ε (γ ⊕ δ)} {c c' : γ} (hne : rounds ≠ [])
    (h : Talk K (body c) s rounds (.ret (.inl c')) t) :
    Talk K (Prog.unroll body c) s rounds (Prog.unroll body c') t :=
  (h.bind _).append hne (exec_unroll body c' ⟨[], false⟩)

theorem talk_iter_done {body : γ → Prog Op β ε (γ ⊕ δ)} {c : γ} {d : δ} {inp out : List β}
    (h : Talk K (body c) s ((inp, out) :: rounds) (.ret (.inr d)) t) :
    Talk K (Prog.iter body c) s ((inp, out) :: rounds) (.ret d) t :=
  .prepend (exec_unroll body c ⟨[], false⟩) (h.bind _)

end Talk

section Meet

variable {Op : Type → Type} {β ε σ τ α γ : Type}

-- The rounds of the two ends fit together: what the next round of an end uses
-- up is in flight towards it when its turn comes.
inductive Meets : List β → List β → List (List β × List β) → List (List β × List β) → Prop where
  | nil : Meets [] [] [] []
  | left {toLeft toRight inp out : List β} {lefts rights : List (List β × List β)}
      (more : List β) (given : toLeft = inp ++ more)
      (rest : Meets more (toRight ++ out) lefts rights) :
      Meets toLeft toRight ((inp, out) :: lefts) rights
  | right {toLeft toRight inp out : List β} {lefts rights : List (List β × List β)}
      (more : List β) (given : toRight = inp ++ more)
      (rest : Meets (toLeft ++ out) more lefts rights) :
      Meets toLeft toRight lefts ((inp, out) :: rights)

def said (rounds : List (List β × List β)) : List β := (rounds.map Prod.snd).flatten

variable {K : Kernel Op σ} {J : Kernel Op τ}

theorem runs_left {p q : Prog Op β ε α} {s t : σ} {r : Prog Op β ε γ} {u : τ}
    {i j w out a b : List β} (h : Exec K ⟨p, s, ⟨i, false⟩⟩ out ⟨q, t, ⟨j, false⟩⟩) :
    Net.Runs K J ⟨p, s, r, u, i, w, a, b⟩ ⟨q, t, r, u, j, w ++ out, a ++ out, b⟩ := by
  generalize hp : (⟨p, s, ⟨i, false⟩⟩ : Proc Op β ε σ α) = start at h
  generalize hq : (⟨q, t, ⟨j, false⟩⟩ : Proc Op β ε σ α) = stop at h
  induction h generalizing p s i w a with
  | refl _ =>
      subst hp
      cases hq
      simpa using Relation.ReflTransGen.refl
  | head first _ ih =>
      subst hp
      obtain ⟨p', s', i', rfl⟩ := step_open first
      refine .head (.inl (Option.map_eq_some_iff.mpr ⟨_, first, rfl⟩)) ?_
      simpa using ih (w := w ++ _) (a := a ++ _) rfl hq

theorem runs_right {p : Prog Op β ε α} {s : σ} {r r' : Prog Op β ε γ} {u u' : τ}
    {i w j out a b : List β} (h : Exec J ⟨r, u, ⟨w, false⟩⟩ out ⟨r', u', ⟨j, false⟩⟩) :
    Net.Runs K J ⟨p, s, r, u, i, w, a, b⟩ ⟨p, s, r', u', i ++ out, j, a, b ++ out⟩ := by
  generalize hp : (⟨r, u, ⟨w, false⟩⟩ : Proc Op β ε τ γ) = start at h
  generalize hq : (⟨r', u', ⟨j, false⟩⟩ : Proc Op β ε τ γ) = stop at h
  induction h generalizing r u w i b with
  | refl _ =>
      subst hp
      cases hq
      simpa using Relation.ReflTransGen.refl
  | head first _ ih =>
      subst hp
      obtain ⟨p', s', i', rfl⟩ := step_open first
      refine .head (.inr (Option.map_eq_some_iff.mpr ⟨_, first, rfl⟩)) ?_
      simpa using ih (i := i ++ _) (b := b ++ _) rfl hq

-- Silent steps of both ends.
theorem runs_silent {p q : Prog Op β ε α} {s t : σ} {r r' : Prog Op β ε γ} {u u' : τ}
    (hl : Exec K ⟨p, s, ⟨[], false⟩⟩ [] ⟨q, t, ⟨[], false⟩⟩)
    (hr : Exec J ⟨r, u, ⟨[], false⟩⟩ [] ⟨r', u', ⟨[], false⟩⟩) (a b : List β) :
    Net.Runs K J ⟨p, s, r, u, [], [], a, b⟩ ⟨q, t, r', u', [], [], a, b⟩ := by
  have hleft := runs_left (J := J) (r := r) (u := u) (w := []) (a := a) (b := b) hl
  have hright := runs_right (K := K) (p := q) (s := t) (i := []) (a := a) (b := b) hr
  simp only [List.append_nil] at hleft hright
  exact hleft.trans hright

-- Two ends whose rounds meet run together to the end of their rounds and leave
-- nothing in flight.
theorem Meets.runs {toLeft toRight : List β} {lefts rights : List (List β × List β)}
    (h : Meets toLeft toRight lefts rights) {p q : Prog Op β ε α} {s t : σ}
    {r r' : Prog Op β ε γ} {u u' : τ} (hl : Talk K p s lefts q t)
    (hr : Talk J r u rights r' u') (ls rs : List β) :
    Net.Runs K J ⟨p, s, r, u, toLeft, toRight, ls, rs⟩
      ⟨q, t, r', u', [], [], ls ++ said lefts, rs ++ said rights⟩ := by
  induction h generalizing p s r u ls rs with
  | nil =>
      cases hl
      cases hr
      simpa [said] using Relation.ReflTransGen.refl
  | @left toLeft toRight inp out lefts rights more given _ ih =>
      subst given
      cases hl with
      | cons round rest =>
          refine (runs_left (round.frame more)).trans ?_
          simpa [said] using ih rest hr (ls ++ out) rs
  | @right toLeft toRight inp out lefts rights more given _ ih =>
      subst given
      cases hr with
      | cons round rest =>
          refine (runs_right (round.frame more)).trans ?_
          simpa [said] using ih hl rest ls (rs ++ out)

-- A run of the first part of the left program is a run of the whole.
theorem runs_bind {δ : Type} {p q : Prog Op β ε α} {s t : σ} {r r' : Prog Op β ε γ} {u u' : τ}
    {i j v w a b a' b' : List β}
    (h : Net.Runs K J ⟨p, s, r, u, i, v, a, b⟩ ⟨q, t, r', u', j, w, a', b'⟩)
    (f : α → Prog Op β ε δ) :
    Net.Runs K J ⟨p >>= f, s, r, u, i, v, a, b⟩ ⟨q >>= f, t, r', u', j, w, a', b'⟩ := by
  generalize hc : (⟨p, s, r, u, i, v, a, b⟩ : Net Op β ε σ τ α γ) = c at h
  generalize hd : (⟨q, t, r', u', j, w, a', b'⟩ : Net Op β ε σ τ α γ) = d at h
  induction h using Relation.ReflTransGen.head_induction_on generalizing p s r u i v a b with
  | refl =>
      subst hc
      cases hd
      exact .refl
  | head first _ ih =>
      subst hc
      rcases first with first | first
      · obtain ⟨p', s', i', out, hstep, rfl⟩ := leftStep_eq first
        refine .head (.inl ?_) (ih rfl)
        simp only [Net.leftStep, step_bind hstep f, Option.map_some]
      · obtain ⟨q', t', j', out, hstep, rfl⟩ := rightStep_eq first
        refine .head (.inr ?_) (ih rfl)
        simp only [Net.rightStep, hstep, Option.map_some]

-- An end that has halted stays halted.
theorem runs_right_halt {c d : Net Op β ε σ τ α γ} {e : ε} (h : Net.Runs K J c d)
    (hc : c.right = .halt e) : d.right = .halt e := by
  induction h with
  | refl => exact hc
  | tail _ last ih =>
      rcases last with last | last
      · obtain ⟨_, _, _, _, _, rfl⟩ := leftStep_eq last
        exact ih
      · obtain ⟨_, _, _, _, hstep, _⟩ := rightStep_eq last
        simp [step, ih] at hstep

end Meet

end Program
