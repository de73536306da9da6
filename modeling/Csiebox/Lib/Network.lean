import Csiebox.Lib.Program
import Mathlib.Logic.Relation

namespace Program

section Descent

variable {α : Type*} {r : α → α → Prop}

inductive Iter (r : α → α → Prop) : Nat → α → α → Prop where
  | refl (a : α) : Iter r 0 a a
  | head {n : Nat} {a b c : α} (first : r a b) (rest : Iter r n b c) : Iter r (n + 1) a c

-- Two different steps from one state can be joined by one step each.
def Diamond (r : α → α → Prop) : Prop :=
  ∀ a b c, r a b → r a c → b = c ∨ ∃ d, r b d ∧ r c d

-- Every run from `a` is finite and can be continued to `d`, where all stops.
structure Settles (r : α → α → Prop) (a d : α) : Prop where
  run : ∃ n, Iter r n a d
  stop : ∀ e, ¬r d e

theorem Iter.one {a b : α} (h : r a b) : Iter r 1 a b :=
  .head h (.refl b)

theorem Iter.trans {m n : Nat} {a b c : α} (h : Iter r m a b) (h' : Iter r n b c) :
    Iter r (m + n) a c := by
  induction h with
  | refl a => simpa using h'
  | @head m _ _ _ first _ ih =>
      rw [Nat.succ_add]
      exact .head first (ih h')

theorem Iter.of_reflTransGen {a b : α} (h : Relation.ReflTransGen r a b) : ∃ n, Iter r n a b := by
  induction h using Relation.ReflTransGen.head_induction_on with
  | refl => exact ⟨0, .refl b⟩
  | head first _ ih =>
      obtain ⟨n, hn⟩ := ih
      exact ⟨n + 1, .head first hn⟩

theorem Iter.reflTransGen {n : Nat} {a b : α} (h : Iter r n a b) : Relation.ReflTransGen r a b := by
  induction h with
  | refl a => exact .refl
  | head first _ ih => exact .head first ih

-- A step from the start of a run to a stopping state is a step towards it.
theorem Iter.descend_one {n : Nat} {a b d : α} (hr : Diamond r) (h : Iter r n a d)
    (hstop : ∀ e, ¬r d e) (hb : r a b) : ∃ m, n = m + 1 ∧ Iter r m b d := by
  induction n generalizing a b with
  | zero =>
      cases h
      exact absurd hb (hstop b)
  | succ n ih =>
      cases h with
      | head first rest =>
          obtain rfl | ⟨c, hc, hbc⟩ := hr _ _ _ first hb
          · exact ⟨n, rfl, rest⟩
          · obtain ⟨m, rfl, hm⟩ := ih rest hc
            exact ⟨m + 1, rfl, .head hbc hm⟩

theorem Iter.descend {n k : Nat} {a b d : α} (hr : Diamond r) (h : Iter r n a d)
    (hstop : ∀ e, ¬r d e) (hb : Iter r k a b) : ∃ m, n = k + m ∧ Iter r m b d := by
  induction hb generalizing n with
  | refl a => exact ⟨n, by omega, h⟩
  | head first _ ih =>
      obtain ⟨m, rfl, hm⟩ := h.descend_one hr hstop first
      obtain ⟨m', rfl, hm'⟩ := ih hm
      exact ⟨m', by omega, hm'⟩

variable {a b d : α}

theorem Settles.reach (hr : Diamond r) (h : Settles r a d) (hb : Relation.ReflTransGen r a b) :
    Settles r b d := by
  obtain ⟨n, hn⟩ := h.run
  obtain ⟨k, hk⟩ := Iter.of_reflTransGen hb
  obtain ⟨m, -, hm⟩ := hn.descend hr h.stop hk
  exact ⟨⟨m, hm⟩, h.stop⟩

theorem Settles.unique (hr : Diamond r) (h : Settles r a d) (hb : Relation.ReflTransGen r a b)
    (hstop : ∀ e, ¬r b e) : b = d := by
  obtain ⟨n, hn⟩ := (h.reach hr hb).run
  cases hn with
  | refl _ => rfl
  | head first _ => exact absurd first (hstop _)

theorem Settles.finite (hr : Diamond r) (h : Settles r a d) (f : Nat → α) (h0 : f 0 = a) :
    ¬∀ i, r (f i) (f (i + 1)) := by
  intro hrun
  obtain ⟨n, hn⟩ := h.run
  have hiter : ∀ k, Iter r k (f 0) (f k) := by
    intro k
    induction k with
    | zero => exact .refl _
    | succ k ih => exact ih.trans (.one (hrun k))
  obtain ⟨m, hm, -⟩ := hn.descend hr h.stop (h0 ▸ hiter (n + 1))
  omega

theorem Settles.prepend (h : Settles r b d) (hab : Relation.ReflTransGen r a b) :
    Settles r a d := by
  obtain ⟨n, hn⟩ := h.run
  obtain ⟨k, hk⟩ := Iter.of_reflTransGen hab
  exact ⟨⟨k + n, hk.trans hn⟩, h.stop⟩

theorem Diamond.confluent {c : α} (hr : Diamond r) (hab : Relation.ReflTransGen r a b)
    (hac : Relation.ReflTransGen r a c) :
    ∃ d, Relation.ReflTransGen r b d ∧ Relation.ReflTransGen r c d := by
  refine Relation.church_rosser (fun a b c hb hc => ?_) hab hac
  obtain rfl | ⟨d, hbd, hcd⟩ := hr a b c hb hc
  · exact ⟨b, .refl, .refl⟩
  · exact ⟨d, .single hbd, .single hcd⟩

-- What no step undoes.
def Stable (r : α → α → Prop) (P : α → Prop) : Prop :=
  ∀ a b, P a → r a b → P b

variable {P Q : α → Prop}

theorem Stable.reach (hP : Stable r P) (ha : P a) (hab : Relation.ReflTransGen r a b) : P b := by
  induction hab with
  | refl => exact ha
  | tail _ last ih => exact hP _ _ ih last

-- One run that reaches `P` keeps all runs from what `P` excludes.
theorem Diamond.excludes {c : α} (hr : Diamond r) (hP : Stable r P) (hQ : Stable r Q)
    (hPQ : ∀ a, P a → ¬Q a) (hab : Relation.ReflTransGen r a b) (hb : P b)
    (hac : Relation.ReflTransGen r a c) : ¬Q c := by
  intro hc
  obtain ⟨d, hbd, hcd⟩ := hr.confluent hab hac
  exact hPQ d (hP.reach hb hbd) (hQ.reach hc hcd)

theorem stable_stop (hstop : ∀ e, ¬r d e) : Stable r (· = d) := by
  rintro _ b rfl hb
  exact absurd hb (hstop b)

end Descent

section Divergence

variable {Op : Type → Type} {β ε σ α : Type} {K : Kernel Op σ} {p q : Proc Op β ε σ α}

def Moves (K : Kernel Op σ) (p q : Proc Op β ε σ α) : Prop :=
  ∃ bs, step K p = some (q, bs)

theorem moves_diamond : Diamond (Moves (β := β) (ε := ε) (α := α) K) := by
  rintro p q r ⟨bs, hq⟩ ⟨bs', hr⟩
  rw [hq] at hr
  exact .inl (Prod.ext_iff.mp (Option.some.inj hr)).1

theorem Exec.iter {out : List β} (h : Exec K p out q) : ∃ n, Iter (Moves K) n p q := by
  induction h with
  | refl p => exact ⟨0, .refl p⟩
  | head first _ ih =>
      obtain ⟨n, hn⟩ := ih
      exact ⟨n + 1, .head ⟨_, first⟩ hn⟩

-- A program that always comes back to states of `P` does not stop.
theorem Exec.never_stops {P : Proc Op β ε σ α → Prop}
    (hagain : ∀ p, P p → ∃ bs q out r, step K p = some (q, bs) ∧ Exec K q out r ∧ P r)
    {out : List β} (hp : P p) (h : Exec K p out q) : step K q ≠ none := by
  intro hstop
  obtain ⟨n, hn⟩ := h.iter
  clear h
  induction n using Nat.strongRecOn generalizing p with
  | _ n ih =>
      obtain ⟨bs, p', out', r, hstep, hrun, hr⟩ := hagain p hp
      obtain ⟨k, hk⟩ := hrun.iter
      obtain ⟨m, rfl, hm⟩ := hn.descend moves_diamond
        (fun e he => by obtain ⟨_, he⟩ := he; simp [hstop] at he) (.head ⟨bs, hstep⟩ hk)
      exact ih m (by omega) hr hm

end Divergence

section Network

variable {Op : Type → Type} {β ε σ τ α γ : Type}

-- Two programs joined by one connection that stays open: the bytes in flight
-- and everything either end has sent.
structure Net (Op : Type → Type) (β ε σ τ α γ : Type) where
  left : Prog Op β ε α
  leftState : σ
  right : Prog Op β ε γ
  rightState : τ
  toLeft : List β
  toRight : List β
  leftSaid : List β
  rightSaid : List β

def Net.leftStep (K : Kernel Op σ) (c : Net Op β ε σ τ α γ) : Option (Net Op β ε σ τ α γ) :=
  (step K ⟨c.left, c.leftState, ⟨c.toLeft, false⟩⟩).map fun (p, out) =>
    { c with
      left := p.prog
      leftState := p.state
      toLeft := p.link.inbox
      toRight := c.toRight ++ out
      leftSaid := c.leftSaid ++ out }

def Net.rightStep (J : Kernel Op τ) (c : Net Op β ε σ τ α γ) : Option (Net Op β ε σ τ α γ) :=
  (step J ⟨c.right, c.rightState, ⟨c.toRight, false⟩⟩).map fun (p, out) =>
    { c with
      right := p.prog
      rightState := p.state
      toRight := p.link.inbox
      toLeft := c.toLeft ++ out
      rightSaid := c.rightSaid ++ out }

-- Either end may take the next step.
def Net.Step (K : Kernel Op σ) (J : Kernel Op τ) (c d : Net Op β ε σ τ α γ) : Prop :=
  c.leftStep K = some d ∨ c.rightStep J = some d

variable {K : Kernel Op σ} {J : Kernel Op τ}

theorem step_open {K : Kernel Op σ} {p : Prog Op β ε α} {s : σ} {i bs : List β}
    {q : Proc Op β ε σ α} (h : step K ⟨p, s, ⟨i, false⟩⟩ = some (q, bs)) :
    ∃ p' s' j, q = ⟨p', s', ⟨j, false⟩⟩ := by
  have hc : q.link.closed = false := step_closed h
  obtain ⟨p', s', ⟨j, c⟩⟩ := q
  obtain rfl : c = false := hc
  exact ⟨p', s', j, rfl⟩

theorem leftStep_eq {c d : Net Op β ε σ τ α γ} (h : c.leftStep K = some d) :
    ∃ p s j out, step K ⟨c.left, c.leftState, ⟨c.toLeft, false⟩⟩ =
        some (⟨p, s, ⟨j, false⟩⟩, out) ∧
      d = { c with
        left := p, leftState := s, toLeft := j, toRight := c.toRight ++ out,
        leftSaid := c.leftSaid ++ out } := by
  obtain ⟨⟨q, out⟩, hstep, rfl⟩ := Option.map_eq_some_iff.mp h
  obtain ⟨p, s, j, rfl⟩ := step_open hstep
  exact ⟨p, s, j, out, hstep, rfl⟩

theorem rightStep_eq {c d : Net Op β ε σ τ α γ} (h : c.rightStep J = some d) :
    ∃ p s j out, step J ⟨c.right, c.rightState, ⟨c.toRight, false⟩⟩ =
        some (⟨p, s, ⟨j, false⟩⟩, out) ∧
      d = { c with
        right := p, rightState := s, toRight := j, toLeft := c.toLeft ++ out,
        rightSaid := c.rightSaid ++ out } := by
  obtain ⟨⟨q, out⟩, hstep, rfl⟩ := Option.map_eq_some_iff.mp h
  obtain ⟨p, s, j, rfl⟩ := step_open hstep
  exact ⟨p, s, j, out, hstep, rfl⟩

-- A step of one end only adds bytes to the other end's inbox.
theorem steps_commute {c d e : Net Op β ε σ τ α γ} (hd : c.leftStep K = some d)
    (he : c.rightStep J = some e) :
    ∃ f, d.rightStep J = some f ∧ e.leftStep K = some f := by
  obtain ⟨p, s, i, out, hleft, rfl⟩ := leftStep_eq hd
  obtain ⟨q, t, j, out', hright, rfl⟩ := rightStep_eq he
  refine ⟨⟨p, s, q, t, i ++ out', j ++ out, c.leftSaid ++ out, c.rightSaid ++ out'⟩, ?_, ?_⟩
  · simp only [Net.rightStep, step_frame hright out, Option.map_some]
  · simp only [Net.leftStep, step_frame hleft out', Option.map_some]

theorem net_diamond : Diamond (Net.Step (β := β) (ε := ε) (α := α) (γ := γ) K J) := by
  rintro c d e (hd | hd) (he | he)
  · exact .inl (Option.some.inj (hd.symm.trans he))
  · obtain ⟨f, hdf, hef⟩ := steps_commute hd he
    exact .inr ⟨f, .inr hdf, .inl hef⟩
  · obtain ⟨f, hdf, hef⟩ := steps_commute he hd
    exact .inr ⟨f, .inl hef, .inr hdf⟩
  · exact .inl (Option.some.inj (hd.symm.trans he))

-- A program that waits for more bytes than there are.
def Waits (p : Prog Op β ε α) (inbox : List β) : Prop :=
  ∃ n k, p = .recv n k ∧ inbox.length < n

theorem Waits.stop {p : Prog Op β ε α} {inbox : List β} (h : Waits p inbox) (K : Kernel Op σ)
    (s : σ) : step K ⟨p, s, ⟨inbox, false⟩⟩ = none := by
  obtain ⟨n, k, rfl, hn⟩ := h
  simp [step, Nat.not_le.mpr hn]

-- Neither end can go on before the other one sends.
structure Net.Deadlock (c : Net Op β ε σ τ α γ) : Prop where
  left : Waits c.left c.toLeft
  right : Waits c.right c.toRight

theorem Net.stop {c : Net Op β ε σ τ α γ}
    (hleft : step K ⟨c.left, c.leftState, ⟨c.toLeft, false⟩⟩ = none)
    (hright : step J ⟨c.right, c.rightState, ⟨c.toRight, false⟩⟩ = none)
    (d : Net Op β ε σ τ α γ) : ¬Net.Step K J c d := by
  rintro (hd | hd)
  · simp [Net.leftStep, hleft] at hd
  · simp [Net.rightStep, hright] at hd

theorem Net.Deadlock.stop {c : Net Op β ε σ τ α γ} (h : c.Deadlock) (d : Net Op β ε σ τ α γ) :
    ¬Net.Step K J c d :=
  Net.stop (h.left.stop K _) (h.right.stop J _) d

-- A left end that cannot take a step whatever it is sent, for good.
theorem stable_left (P : Prog Op β ε α → σ → Prop)
    (hP : ∀ p s i, P p s → step K ⟨p, s, ⟨i, false⟩⟩ = none) :
    Stable (Net.Step K J) fun c : Net Op β ε σ τ α γ => P c.left c.leftState := by
  rintro c d hc (hd | hd)
  · simp [Net.leftStep, hP _ _ _ hc] at hd
  · obtain ⟨_, _, _, _, _, rfl⟩ := rightStep_eq hd
    exact hc

abbrev Net.Runs (K : Kernel Op σ) (J : Kernel Op τ) :
    Net Op β ε σ τ α γ → Net Op β ε σ τ α γ → Prop :=
  Relation.ReflTransGen (Net.Step K J)

-- What every system call does to its state, every step does.
theorem step_rel {K : Kernel Op σ} {R : σ → σ → Prop} (hrefl : ∀ s, R s s)
    (hexec : ∀ {δ : Type} (op : Op δ) s r t, K.exec op s = some (r, t) → R s t)
    {p q : Proc Op β ε σ α} {bs : List β} (h : step K p = some (q, bs)) : R p.state q.state := by
  obtain ⟨p, s, l⟩ := p
  cases p with
  | ret a => simp [step] at h
  | halt e => simp [step] at h
  | call op k =>
      simp only [step, Option.map_eq_some_iff, Prod.mk.injEq] at h
      obtain ⟨⟨r, t⟩, hop, rfl, -⟩ := h
      exact hexec op s r t hop
  | send b k =>
      simp only [step] at h
      split_ifs at h <;> cases h <;> exact hrefl s
  | recv n k =>
      simp only [step] at h
      split_ifs at h <;> cases h <;> exact hrefl s
  | loop body c k =>
      simp only [step] at h
      cases h
      exact hrefl s

theorem runs_rel {R : σ → σ → Prop} {Q : τ → τ → Prop} (hR : ∀ s, R s s) (hQ : ∀ s, Q s s)
    (hRt : ∀ s t u, R s t → R t u → R s u) (hQt : ∀ s t u, Q s t → Q t u → Q s u)
    (hleft : ∀ {δ : Type} (op : Op δ) s r t, K.exec op s = some (r, t) → R s t)
    (hright : ∀ {δ : Type} (op : Op δ) s r t, J.exec op s = some (r, t) → Q s t)
    {c d : Net Op β ε σ τ α γ} (h : Net.Runs K J c d) :
    R c.leftState d.leftState ∧ Q c.rightState d.rightState := by
  induction h with
  | refl => exact ⟨hR _, hQ _⟩
  | tail _ last ih =>
      rcases last with last | last
      · obtain ⟨_, _, _, _, hstep, rfl⟩ := leftStep_eq last
        exact ⟨hRt _ _ _ ih.1 (step_rel hR hleft hstep), ih.2⟩
      · obtain ⟨_, _, _, _, hstep, rfl⟩ := rightStep_eq last
        exact ⟨ih.1, hQt _ _ _ ih.2 (step_rel hQ hright hstep)⟩

end Network

end Program
