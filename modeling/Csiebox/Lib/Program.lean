import Mathlib.Tactic.SplitIfs

namespace Program

-- A sequential program with system calls `Op` that talks over one connection.
-- `halt` is an abnormal end, `loop` runs its body until it yields `Sum.inr`.
inductive Prog (Op : Type → Type) (β ε : Type) : Type → Type 1 where
  | ret {α : Type} (a : α) : Prog Op β ε α
  | halt {α : Type} (e : ε) : Prog Op β ε α
  | call {α γ : Type} (op : Op γ) (k : γ → Prog Op β ε α) : Prog Op β ε α
  | send {α : Type} (bs : List β) (k : Bool → Prog Op β ε α) : Prog Op β ε α
  | recv {α : Type} (n : Nat) (k : List β → Prog Op β ε α) : Prog Op β ε α
  | loop {α γ δ : Type} (body : γ → Prog Op β ε (γ ⊕ δ)) (c : γ) (k : δ → Prog Op β ε α) :
      Prog Op β ε α

namespace Prog

variable {Op : Type → Type} {β ε α γ δ : Type}

def bind : Prog Op β ε α → (α → Prog Op β ε γ) → Prog Op β ε γ
  | ret a, f => f a
  | halt e, _ => halt e
  | call op k, f => call op fun r => (k r).bind f
  | send bs k, f => send bs fun b => (k b).bind f
  | recv n k, f => recv n fun bs => (k bs).bind f
  | loop body c k, f => loop body c fun d => (k d).bind f

instance : Monad (Prog Op β ε) where
  pure := ret
  bind := bind

theorem bind_ret_right (p : Prog Op β ε α) : p.bind ret = p := by
  induction p with
  | ret a => rfl
  | halt e => rfl
  | call op k ih => exact congrArg (call op) (funext ih)
  | send bs k ih => exact congrArg (send bs) (funext ih)
  | recv n k ih => exact congrArg (recv n) (funext ih)
  | loop body c k _ ih => exact congrArg (loop body c) (funext ih)

theorem bind_bind (p : Prog Op β ε α) (f : α → Prog Op β ε γ) (g : γ → Prog Op β ε δ) :
    (p.bind f).bind g = p.bind fun a => (f a).bind g := by
  induction p with
  | ret a => rfl
  | halt e => rfl
  | call op k ih => exact congrArg (call op) (funext fun r => ih r f)
  | send bs k ih => exact congrArg (send bs) (funext fun b => ih b f)
  | recv n k ih => exact congrArg (recv n) (funext fun bs => ih bs f)
  | loop body c k _ ih => exact congrArg (loop body c) (funext fun d => ih d f)

instance : LawfulMonad (Prog Op β ε) :=
  LawfulMonad.mk' (Prog Op β ε) (fun p => bind_ret_right p) (fun _ _ => rfl) (fun p f g => bind_bind p f g)

def sys (op : Op γ) : Prog Op β ε γ :=
  call op ret

def say (bs : List β) : Prog Op β ε Bool :=
  send bs ret

def hear (n : Nat) : Prog Op β ε (List β) :=
  recv n ret

def iter (body : γ → Prog Op β ε (γ ⊕ δ)) (c : γ) : Prog Op β ε δ :=
  loop body c ret

@[simp] theorem ret_bind (a : α) (f : α → Prog Op β ε γ) : (ret a >>= f) = f a := rfl

@[simp] theorem pure_eq_ret (a : α) : (pure a : Prog Op β ε α) = ret a := rfl

@[simp] theorem halt_bind (e : ε) (f : α → Prog Op β ε γ) :
    ((halt e : Prog Op β ε α) >>= f) = halt e := rfl

end Prog

section Machine

variable {Op : Type → Type} {β ε σ α γ δ : Type}

-- What the system calls do to a state; `none` is a call that blocks.
structure Kernel (Op : Type → Type) (σ : Type) where
  exec : {γ : Type} → Op γ → σ → Option (γ × σ)

-- The receiving side of the connection. `closed` says that nothing will be
-- added to the inbox; sends fail once such an inbox is empty.
structure Link (β : Type) where
  inbox : List β
  closed : Bool

structure Proc (Op : Type → Type) (β ε σ α : Type) where
  prog : Prog Op β ε α
  state : σ
  link : Link β

def Link.alive (l : Link β) : Bool :=
  !l.closed || !l.inbox.isEmpty

-- One step and the bytes it sends.
def step (K : Kernel Op σ) (p : Proc Op β ε σ α) : Option (Proc Op β ε σ α × List β) :=
  match p.prog with
  | .ret _ => none
  | .halt _ => none
  | .call op k => (K.exec op p.state).map fun (r, s) => (⟨k r, s, p.link⟩, [])
  | .send bs k =>
      if p.link.alive then some (⟨k true, p.state, p.link⟩, bs)
      else some (⟨k false, p.state, p.link⟩, [])
  | .recv n k =>
      if n ≤ p.link.inbox.length then
        some (⟨k (p.link.inbox.take n), p.state, ⟨p.link.inbox.drop n, p.link.closed⟩⟩, [])
      else if p.link.closed then some (⟨k p.link.inbox, p.state, ⟨[], true⟩⟩, [])
      else none
  | .loop body c k =>
      some (⟨body c >>= fun
        | .inl c' => .loop body c' k
        | .inr d => k d, p.state, p.link⟩, [])

-- A finite run and everything it sends.
inductive Exec (K : Kernel Op σ) : Proc Op β ε σ α → List β → Proc Op β ε σ α → Prop where
  | refl (p : Proc Op β ε σ α) : Exec K p [] p
  | head {p q r : Proc Op β ε σ α} {bs out : List β} (first : step K p = some (q, bs))
      (rest : Exec K q out r) : Exec K p (bs ++ out) r

variable {K : Kernel Op σ} {p q r : Proc Op β ε σ α} {out out' : List β}

theorem Exec.trans (h : Exec K p out q) (h' : Exec K q out' r) : Exec K p (out ++ out') r := by
  induction h with
  | refl p => exact h'
  | head first _ ih =>
      rw [List.append_assoc]
      exact .head first (ih h')

theorem Exec.single {bs : List β} (h : step K p = some (q, bs)) : Exec K p bs q := by
  simpa using Exec.head h (.refl q)

theorem Exec.silent (first : step K p = some (q, [])) (rest : Exec K q out r) : Exec K p out r :=
  .head first rest

theorem Exec.cast (h : Exec K p out q) (he : out = out') : Exec K p out' q :=
  he ▸ h

-- Runs are deterministic: of two runs from one state, one extends the other.
theorem Exec.linear (h : Exec K p out q) (h' : Exec K p out' r) :
    (∃ more, out' = out ++ more ∧ Exec K q more r) ∨
      ∃ more, out = out' ++ more ∧ Exec K r more q := by
  induction h generalizing out' with
  | refl p => exact .inl ⟨out', rfl, h'⟩
  | @head p q' q bs out first rest ih =>
      cases h' with
      | refl _ => exact .inr ⟨_, rfl, .head first rest⟩
      | head first' rest' =>
          rw [first] at first'
          obtain ⟨rfl, rfl⟩ := Prod.ext_iff.mp (Option.some.inj first')
          obtain ⟨more, rfl, hm⟩ | ⟨more, rfl, hm⟩ := ih rest'
          · exact .inl ⟨more, by simp, hm⟩
          · exact .inr ⟨more, by simp, hm⟩

theorem Exec.eq_of_stuck (h : Exec K p out q) (hstuck : step K p = none) : out = [] ∧ q = p := by
  cases h with
  | refl _ => exact ⟨rfl, rfl⟩
  | head first _ => simp [hstuck] at first

theorem Exec.of_stuck (h : Exec K p out q) (h' : Exec K p out' r) (hstuck : step K q = none) :
    ∃ more, out = out' ++ more ∧ Exec K r more q := by
  obtain ⟨more, rfl, hm⟩ | hr := h.linear h'
  · obtain ⟨rfl, rfl⟩ := hm.eq_of_stuck hstuck
    exact ⟨[], by simp, .refl _⟩
  · exact hr

theorem Exec.unique (h : Exec K p out q) (h' : Exec K p out' r) (hq : step K q = none)
    (hr : step K r = none) : out = out' ∧ q = r := by
  obtain ⟨more, rfl, hm⟩ := h.of_stuck h' hq
  obtain ⟨rfl, rfl⟩ := hm.eq_of_stuck hr
  exact ⟨by simp, rfl⟩

end Machine

section Rules

variable {Op : Type → Type} {β ε σ α γ δ : Type} {K : Kernel Op σ} {s s' : σ} {l l' : Link β}

theorem step_bind {p p' : Prog Op β ε α} {bs : List β}
    (h : step K ⟨p, s, l⟩ = some (⟨p', s', l'⟩, bs)) (f : α → Prog Op β ε γ) :
    step K ⟨p >>= f, s, l⟩ = some (⟨p' >>= f, s', l'⟩, bs) := by
  cases p with
  | ret a => simp [step] at h
  | halt e => simp [step] at h
  | call op k =>
      simp only [step, Option.map_eq_some_iff, Prod.mk.injEq, Proc.mk.injEq] at h
      obtain ⟨⟨a, t⟩, hexec, ⟨rfl, rfl, rfl⟩, rfl⟩ := h
      simp only [step, hexec, Option.map_some, Bind.bind, Prog.bind]
  | send b k =>
      simp only [step] at h
      simp only [step, Bind.bind, Prog.bind]
      split_ifs at h ⊢ <;> cases h <;> rfl
  | recv n k =>
      simp only [step] at h
      simp only [step, Bind.bind, Prog.bind]
      split_ifs at h ⊢ <;> cases h <;> rfl
  | loop body c k =>
      simp only [step] at h
      cases h
      simp only [step, Bind.bind, Prog.bind, Prog.bind_bind, Option.some.injEq, Prod.mk.injEq,
        Proc.mk.injEq, and_true]
      congr 1
      funext x
      cases x <;> rfl

-- A run of a part of a program is a run of the whole.
theorem Exec.bind {p p' : Prog Op β ε α} {out : List β} (h : Exec K ⟨p, s, l⟩ out ⟨p', s', l'⟩)
    (f : α → Prog Op β ε γ) : Exec K ⟨p >>= f, s, l⟩ out ⟨p' >>= f, s', l'⟩ := by
  generalize hp : (⟨p, s, l⟩ : Proc Op β ε σ α) = start at h
  generalize hq : (⟨p', s', l'⟩ : Proc Op β ε σ α) = stop at h
  induction h generalizing p s l with
  | refl _ =>
      cases hp
      cases hq
      exact .refl _
  | @head _ q _ bs out first _ ih =>
      subst hp
      obtain ⟨q, t, m⟩ := q
      exact .head (step_bind first f) (ih rfl hq)

theorem Exec.seq {p : Prog Op β ε α} {a : α} {f : α → Prog Op β ε γ} {out out' : List β}
    {q : Proc Op β ε σ γ} (h : Exec K ⟨p, s, l⟩ out ⟨.ret a, s', l'⟩)
    (h' : Exec K ⟨f a, s', l'⟩ out' q) : Exec K ⟨p >>= f, s, l⟩ (out ++ out') q :=
  (h.bind f).trans h'

-- A silent first part.
theorem Exec.after {p : Prog Op β ε α} {a : α} {f : α → Prog Op β ε γ} {out : List β}
    {q : Proc Op β ε σ γ} (h : Exec K ⟨p, s, l⟩ [] ⟨.ret a, s', l'⟩)
    (h' : Exec K ⟨f a, s', l'⟩ out q) : Exec K ⟨p >>= f, s, l⟩ out q :=
  h.seq h'

theorem exec_sys {o : Op γ} {r : γ} (h : K.exec o s = some (r, s')) :
    Exec K ⟨(Prog.sys o : Prog Op β ε γ), s, l⟩ [] ⟨.ret r, s', l⟩ :=
  .single (by simp [step, Prog.sys, h])

theorem exec_say {bs : List β} (h : l.alive = true) :
    Exec K ⟨(Prog.say bs : Prog Op β ε Bool), s, l⟩ bs ⟨.ret true, s, l⟩ :=
  .single (by simp [step, Prog.say, h])

theorem exec_hear {n : Nat} {bs rest : List β} {c : Bool} (h : bs.length = n) :
    Exec K ⟨(Prog.hear n : Prog Op β ε (List β)), s, ⟨bs ++ rest, c⟩⟩ []
      ⟨.ret bs, s, ⟨rest, c⟩⟩ :=
  .single (by simp [step, Prog.hear, ← h])

theorem exec_hear_take {n : Nat} (h : n ≤ l.inbox.length) :
    Exec K ⟨(Prog.hear n : Prog Op β ε (List β)), s, l⟩ []
      ⟨.ret (l.inbox.take n), s, ⟨l.inbox.drop n, l.closed⟩⟩ :=
  .single (by simp [step, Prog.hear, h])

theorem exec_hear_short {n : Nat} {bs : List β} (h : bs.length < n) :
    Exec K ⟨(Prog.hear n : Prog Op β ε (List β)), s, ⟨bs, true⟩⟩ [] ⟨.ret bs, s, ⟨[], true⟩⟩ :=
  .single (by simp [step, Prog.hear, Nat.not_le.mpr h])

theorem exec_iter_more {body : γ → Prog Op β ε (γ ⊕ δ)} {c c' : γ} {out : List β}
    (h : Exec K ⟨body c, s, l⟩ out ⟨.ret (.inl c'), s', l'⟩) :
    Exec K ⟨Prog.iter body c, s, l⟩ out ⟨Prog.iter body c', s', l'⟩ :=
  .silent rfl (h.bind _)

theorem exec_iter_done {body : γ → Prog Op β ε (γ ⊕ δ)} {c : γ} {d : δ} {out : List β}
    (h : Exec K ⟨body c, s, l⟩ out ⟨.ret (.inr d), s', l'⟩) :
    Exec K ⟨Prog.iter body c, s, l⟩ out ⟨.ret d, s', l'⟩ :=
  .silent rfl (h.bind _)

theorem exec_iter_halt {body : γ → Prog Op β ε (γ ⊕ δ)} {c : γ} {e : ε} {out : List β}
    (h : Exec K ⟨body c, s, l⟩ out ⟨.halt e, s', l'⟩) :
    Exec K ⟨Prog.iter body c, s, l⟩ out ⟨.halt e, s', l'⟩ :=
  .silent rfl (h.bind _)

-- Bytes behind the ones a run needs do not disturb it.
theorem step_frame {p p' : Prog Op β ε α} {i j bs : List β}
    (h : step K ⟨p, s, ⟨i, false⟩⟩ = some (⟨p', s', ⟨j, false⟩⟩, bs)) (more : List β) :
    step K ⟨p, s, ⟨i ++ more, false⟩⟩ = some (⟨p', s', ⟨j ++ more, false⟩⟩, bs) := by
  cases p with
  | ret a => simp [step] at h
  | halt e => simp [step] at h
  | call op k =>
      simp only [step, Option.map_eq_some_iff, Prod.mk.injEq, Proc.mk.injEq] at h ⊢
      obtain ⟨r, hexec, ⟨rfl, rfl, hlink⟩, rfl⟩ := h
      cases hlink
      exact ⟨r, hexec, ⟨rfl, rfl, rfl⟩, rfl⟩
  | send b k =>
      simp only [step, Link.alive, Bool.not_false, Bool.true_or, if_true] at h ⊢
      cases h
      rfl
  | recv n k =>
      simp only [step] at h ⊢
      split_ifs at h with hn
      · cases h
        have hm : n ≤ (i ++ more).length := by
          rw [List.length_append]
          omega
        rw [if_pos hm, List.take_append_of_le_length hn, List.drop_append_of_le_length hn]
      · simp at h
  | loop body c k =>
      simp only [step] at h ⊢
      cases h
      rfl

theorem step_closed {p q : Proc Op β ε σ α} {bs : List β} (h : step K p = some (q, bs)) :
    q.link.closed = p.link.closed := by
  obtain ⟨p, s, l⟩ := p
  cases p with
  | ret a => simp [step] at h
  | halt e => simp [step] at h
  | call op k =>
      simp only [step, Option.map_eq_some_iff, Prod.mk.injEq] at h
      obtain ⟨r, -, rfl, -⟩ := h
      rfl
  | send b k =>
      simp only [step] at h
      split_ifs at h <;> cases h <;> rfl
  | recv n k =>
      simp only [step] at h
      split_ifs at h with hn hc
      · cases h
        rfl
      · cases h
        exact hc.symm
  | loop body c k =>
      simp only [step] at h
      cases h
      rfl

end Rules

section Evaluation

variable {Op : Type → Type} {β ε σ α : Type}

-- The state after at most `fuel` steps, and what has been sent.
def evaluate (K : Kernel Op σ) : Nat → Proc Op β ε σ α → List β × Proc Op β ε σ α
  | 0, p => ([], p)
  | fuel + 1, p =>
      match step K p with
      | none => ([], p)
      | some (q, bs) => (bs ++ (evaluate K fuel q).1, (evaluate K fuel q).2)

def Proc.result (p : Proc Op β ε σ α) : Option α :=
  match p.prog with
  | .ret a => some a
  | _ => none

theorem exec_evaluate (K : Kernel Op σ) (fuel : Nat) (p : Proc Op β ε σ α) :
    Exec K p (evaluate K fuel p).1 (evaluate K fuel p).2 := by
  induction fuel generalizing p with
  | zero => exact .refl p
  | succ fuel ih =>
      cases hstep : step K p with
      | none =>
          simp only [evaluate, hstep]
          exact .refl p
      | some r =>
          obtain ⟨q, bs⟩ := r
          simp only [evaluate, hstep]
          exact .head hstep (ih q)

theorem exec_result {K : Kernel Op σ} {fuel : Nat} {p : Proc Op β ε σ α} {a : α}
    (h : (evaluate K fuel p).2.result = some a) :
    Exec K p (evaluate K fuel p).1
      ⟨.ret a, (evaluate K fuel p).2.state, (evaluate K fuel p).2.link⟩ := by
  have hrun := exec_evaluate K fuel p
  generalize evaluate K fuel p = r at h hrun ⊢
  obtain ⟨out, q, s, l⟩ := r
  cases q with
  | ret b =>
      obtain rfl : b = a := Option.some.inj h
      exact hrun
  | _ => simp [Proc.result] at h

-- The state is about to make a call that `f` accepts.
def Proc.asks (p : Proc Op β ε σ α) (f : {δ : Type} → Op δ → Bool) : Bool :=
  match p.prog with
  | .call op _ => f op
  | _ => false

theorem exec_asks {K : Kernel Op σ} {fuel : Nat} {p : Proc Op β ε σ α} {f : {δ : Type} → Op δ → Bool}
    (h : (evaluate K fuel p).2.asks f = true) :
    ∃ (δ : Type) (op : Op δ) (k : δ → Prog Op β ε α), f op = true ∧
      Exec K p (evaluate K fuel p).1
        ⟨.call op k, (evaluate K fuel p).2.state, (evaluate K fuel p).2.link⟩ := by
  have hrun := exec_evaluate K fuel p
  generalize evaluate K fuel p = r at h hrun ⊢
  obtain ⟨out, q, s, l⟩ := r
  cases q with
  | call op k => exact ⟨_, op, k, h, hrun⟩
  | _ => simp [Proc.asks] at h

end Evaluation

end Program
