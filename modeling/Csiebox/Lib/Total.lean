import Csiebox.Lib.Logic

namespace Program

variable {Op : Type → Type} {β ε σ α γ δ ζ C : Type}

-- A view of a connection. `skip` is what a receive of so many elements leaves behind and
-- `sent` what a send does; `Stirs` says that a receive of nothing returns.
class Channel (β : outParam Type) (C : Type) where
  link : C → Link β
  skip : C → Nat → C
  sent : C → C
  Stirs : C → Prop
  link_skip : ∀ c n, link (skip c n) = ⟨(link c).inbox.drop n, (link c).closed⟩
  link_sent : ∀ c, link (sent c) = link c
  skip_zero : ∀ c, skip c 0 = c

instance : Channel β (Link β) where
  link l := l
  skip l n := ⟨l.inbox.drop n, l.closed⟩
  sent l := l
  Stirs _ := True
  link_skip _ _ := rfl
  link_sent _ := rfl
  skip_zero _ := rfl

@[simp] theorem channel_link (l : Link β) : Channel.link l = l := rfl

@[simp] theorem channel_skip (l : Link β) (n : Nat) :
    Channel.skip l n = ⟨l.inbox.drop n, l.closed⟩ := rfl

@[simp] theorem channel_sent (l : Link β) : Channel.sent l = l := rfl

-- A connection whose sends are counted. A receive of nothing waits for an element or for
-- the end of it, like any other.
structure Wire (β : Type) where
  link : Link β
  sends : Nat

instance : Channel β (Wire β) where
  link w := w.link
  skip w n := ⟨⟨w.link.inbox.drop n, w.link.closed⟩, w.sends⟩
  sent w := ⟨w.link, w.sends + 1⟩
  Stirs w := w.link.inbox ≠ [] ∨ w.link.closed = true
  link_skip _ _ := rfl
  link_sent _ := rfl
  skip_zero _ := rfl

-- Total correctness: the run from here returns, and in `Q`.
inductive Total [Channel β C] (K : Kernel Op σ) :
    Prog Op β ε α → σ → C → (α → σ → C → Prop) → Prop where
  | ret {a : α} {s : σ} {c : C} {Q : α → σ → C → Prop} (result : Q a s c) : Total K (.ret a) s c Q
  | call {γ : Type} {op : Op γ} {k : γ → Prog Op β ε α} {r : γ} {s s' : σ} {c : C}
      {Q : α → σ → C → Prop} (exec : K.exec op s = some (r, s')) (rest : Total K (k r) s' c Q) :
      Total K (.call op k) s c Q
  | send {bs : List β} {k : Bool → Prog Op β ε α} {s : σ} {c : C} {Q : α → σ → C → Prop}
      (rest : Total K (k (Channel.link c).alive) s (Channel.sent c) Q) : Total K (.send bs k) s c Q
  | recv {n : Nat} {k : List β → Prog Op β ε α} {s : σ} {c : C} {Q : α → σ → C → Prop}
      (ready : n ≤ (Channel.link c).inbox.length ∨ (Channel.link c).closed = true)
      (stirs : n = 0 → Channel.Stirs c)
      (rest : Total K (k ((Channel.link c).inbox.take n)) s (Channel.skip c n) Q) :
      Total K (.recv n k) s c Q
  | loop {γ δ : Type} {body : γ → Prog Op β ε (γ ⊕ δ)} {x : γ} {k : δ → Prog Op β ε α} {s : σ}
      {c : C} {Q : α → σ → C → Prop}
      (rest : Total K (body x >>= fun
        | .inl x' => .loop body x' k
        | .inr d => k d) s c Q) : Total K (.loop body x k) s c Q

-- A program without a send or a receive.
inductive Mute : Prog Op β ε α → Prop where
  | ret (a : α) : Mute (.ret a)
  | halt (e : ε) : Mute (.halt e)
  | call {γ : Type} (op : Op γ) {k : γ → Prog Op β ε α} (rest : ∀ r, Mute (k r)) : Mute (.call op k)

theorem mute_sys (op : Op γ) : Mute (Prog.sys op : Prog Op β ε γ) := .call op .ret

theorem Mute.bind {p : Prog Op β ε α} {f : α → Prog Op β ε γ} (hp : Mute p) (hf : ∀ a, Mute (f a)) :
    Mute (p >>= f) := by
  induction hp with
  | ret a => exact hf a
  | halt e => exact .halt e
  | call op _ ih => exact .call op ih

section Steps

variable {K : Kernel Op σ} {s : σ} {l : Link β}

-- Whether or not the peer is still there.
theorem exec_say_any (bs : List β) :
    Exec K ⟨(Prog.say bs : Prog Op β ε Bool), s, l⟩ (if l.alive then bs else []) ⟨.ret l.alive, s, l⟩ := by
  cases halive : l.alive with
  | true => exact .single (by simp [step, Prog.say, halive])
  | false => exact .single (by simp [step, Prog.say, halive])

-- Everything there is, where the end of the connection comes first.
theorem exec_hear_ready {n : Nat} (hready : n ≤ l.inbox.length ∨ l.closed = true) :
    Exec K ⟨(Prog.hear n : Prog Op β ε (List β)), s, l⟩ []
      ⟨.ret (l.inbox.take n), s, ⟨l.inbox.drop n, l.closed⟩⟩ := by
  by_cases hlen : n ≤ l.inbox.length
  · exact exec_hear_take hlen
  · have hclosed := hready.resolve_left hlen
    have hshort := Nat.le_of_not_le hlen
    rw [List.take_of_length_le hshort, List.drop_eq_nil_of_le hshort, hclosed]
    exact .single (by simp [step, Prog.hear, hlen, hclosed])

end Steps

section Rules

variable [Channel β C] {K : Kernel Op σ} {s s' : σ} {c : C}

theorem Total.mono {p : Prog Op β ε α} {Q Q' : α → σ → C → Prop} (h : Total K p s c Q)
    (hQ : ∀ a s c, Q a s c → Q' a s c) : Total K p s c Q' := by
  induction h with
  | ret result => exact .ret (hQ _ _ _ result)
  | call exec _ ih => exact .call exec (ih hQ)
  | send _ ih => exact .send (ih hQ)
  | recv ready stirs _ ih => exact .recv ready stirs (ih hQ)
  | loop _ ih => exact .loop (ih hQ)

theorem total_congr {p : Prog Op β ε α} {Q Q' : α → σ → C → Prop}
    (hQ : ∀ a s c, Q a s c ↔ Q' a s c) : Total K p s c Q ↔ Total K p s c Q' :=
  ⟨fun h => h.mono fun a s c => (hQ a s c).mp, fun h => h.mono fun a s c => (hQ a s c).mpr⟩

@[simp] theorem total_ret {a : α} {Q : α → σ → C → Prop} :
    Total K (.ret a : Prog Op β ε α) s c Q ↔ Q a s c := by
  refine ⟨fun h => ?_, .ret⟩
  cases h with
  | ret result => exact result

@[simp] theorem not_total_halt {e : ε} {Q : α → σ → C → Prop} :
    ¬Total K (.halt e : Prog Op β ε α) s c Q := nofun

-- A loop in front of a program is a loop with a longer continuation.
theorem loop_cont_bind {body : γ → Prog Op β ε (γ ⊕ δ)} {k : δ → Prog Op β ε α} (x : γ)
    (f : α → Prog Op β ε ζ) :
    (body x >>= fun r => match r with
      | .inl x' => Prog.loop body x' k
      | .inr d => k d) >>= f =
    body x >>= fun r => match r with
      | .inl x' => .loop body x' fun d => k d >>= f
      | .inr d => k d >>= f := by
  rw [bind_assoc]
  refine congrArg _ (funext fun r => ?_)
  cases r <;> rfl

-- What the first part leaves behind is where the second one begins.
theorem Total.bind {p : Prog Op β ε α} {f : α → Prog Op β ε γ} {R : α → σ → C → Prop}
    {Q : γ → σ → C → Prop} (h : Total K p s c R) (hR : ∀ a s c, R a s c → Total K (f a) s c Q) :
    Total K (p >>= f) s c Q := by
  induction h with
  | ret result => exact hR _ _ _ result
  | call exec _ ih => exact .call exec (ih hR)
  | send _ ih => exact .send (ih hR)
  | recv ready stirs _ ih => exact .recv ready stirs (ih hR)
  | loop _ ih =>
      refine .loop ?_
      have hrest := ih hR
      rw [loop_cont_bind] at hrest
      exact hrest

theorem total_bind {p : Prog Op β ε α} {f : α → Prog Op β ε γ} {Q : γ → σ → C → Prop} :
    Total K (p >>= f) s c Q ↔ Total K p s c fun a s c => Total K (f a) s c Q := by
  refine ⟨fun h => ?_, fun h => h.bind fun _ _ _ => id⟩
  generalize hq : p >>= f = q at h
  induction h generalizing p with
  | ret result =>
      cases p with
      | ret a => exact .ret (show Total K (Prog.ret a >>= f) _ _ _ from hq ▸ .ret result)
      | _ => cases hq
  | call exec rest ih =>
      cases p with
      | ret a => exact .ret (show Total K (Prog.ret a >>= f) _ _ _ from hq ▸ .call exec rest)
      | call op k =>
          cases hq
          exact .call exec (ih rfl)
      | _ => cases hq
  | send rest ih =>
      cases p with
      | ret a => exact .ret (show Total K (Prog.ret a >>= f) _ _ _ from hq ▸ .send rest)
      | send bs k =>
          cases hq
          exact .send (ih rfl)
      | _ => cases hq
  | recv ready stirs rest ih =>
      cases p with
      | ret a => exact .ret (show Total K (Prog.ret a >>= f) _ _ _ from hq ▸ .recv ready stirs rest)
      | recv n k =>
          cases hq
          exact .recv ready stirs (ih rfl)
      | _ => cases hq
  | loop rest ih =>
      cases p with
      | ret a => exact .ret (show Total K (Prog.ret a >>= f) _ _ _ from hq ▸ .loop rest)
      | loop body x k =>
          cases hq
          exact .loop (ih (loop_cont_bind _ f))
      | _ => cases hq

theorem total_sys {op : Op γ} {Q : γ → σ → C → Prop} :
    Total K (Prog.sys op : Prog Op β ε γ) s c Q ↔ ∃ r s', K.exec op s = some (r, s') ∧ Q r s' c := by
  constructor
  · rintro (_ | ⟨exec, rest⟩)
    exact ⟨_, _, exec, total_ret.mp rest⟩
  · rintro ⟨r, s', exec, hq⟩
    exact .call exec (.ret hq)

theorem total_say {bs : List β} {Q : Bool → σ → C → Prop} :
    Total K (Prog.say bs : Prog Op β ε Bool) s c Q ↔
      Q (Channel.link c).alive s (Channel.sent c) := by
  refine ⟨?_, fun hq => .send (.ret hq)⟩
  rintro (_ | _ | rest)
  exact total_ret.mp rest

theorem total_hear {n : Nat} {Q : List β → σ → C → Prop} :
    Total K (Prog.hear n : Prog Op β ε (List β)) s c Q ↔
      (n ≤ (Channel.link c).inbox.length ∨ (Channel.link c).closed = true) ∧
        (n = 0 → Channel.Stirs c) ∧ Q ((Channel.link c).inbox.take n) s (Channel.skip c n) := by
  constructor
  · rintro (_ | _ | _ | ⟨ready, stirs, rest⟩)
    exact ⟨ready, stirs, total_ret.mp rest⟩
  · rintro ⟨ready, stirs, hq⟩
    exact .recv ready stirs (.ret hq)

-- One round of a loop.
theorem total_iter_unfold {body : γ → Prog Op β ε (γ ⊕ δ)} {x : γ} {Q : δ → σ → C → Prop} :
    Total K (Prog.iter body x) s c Q ↔ Total K (body x) s c fun r s c =>
      r.elim (fun x' => Total K (Prog.iter body x') s c Q) fun d => Q d s c := by
  constructor
  · rintro (_ | _ | _ | _ | rest)
    refine Total.mono (total_bind.mp rest) fun r s c hr => ?_
    cases r with
    | inl x' => exact hr
    | inr d =>
        cases hr with
        | ret result => exact result
  · intro hround
    refine .loop (hround.bind fun r s c hr => ?_)
    cases r with
    | inl x' => exact hr
    | inr d => exact .ret hr

-- A good state of every last round and before every good state.
theorem Total.within {body : γ → Prog Op β ε (γ ⊕ δ)} {p : Prog Op β ε (γ ⊕ δ)}
    {q : Prog Op β ε δ} {Q : δ → σ → C → Prop} {P : γ → σ → C → Prop} (h : Total K q s c Q)
    (hround : ∀ x s c, (Total K (body x) s c fun r s c => r.elim (fun x' => P x' s c) fun d => Q d s c) →
      P x s c)
    (hq : (p >>= fun r => match r with
      | .inl x' => Prog.loop body x' .ret
      | .inr d => .ret d) = q) :
    Total K p s c fun r s c => r.elim (fun x' => P x' s c) fun d => Q d s c := by
  induction h generalizing p with
  | ret result =>
      cases p with
      | ret r =>
          cases r with
          | inl x' => cases hq
          | inr d =>
              cases hq
              exact .ret result
      | _ => cases hq
  | call exec rest ih =>
      cases p with
      | ret r => cases r <;> cases hq
      | call op k =>
          cases hq
          exact .call exec (ih hround rfl)
      | _ => cases hq
  | send rest ih =>
      cases p with
      | ret r => cases r <;> cases hq
      | send bs k =>
          cases hq
          exact .send (ih hround rfl)
      | _ => cases hq
  | recv ready stirs rest ih =>
      cases p with
      | ret r => cases r <;> cases hq
      | recv n k =>
          cases hq
          exact .recv ready stirs (ih hround rfl)
      | _ => cases hq
  | loop rest ih =>
      cases p with
      | ret r =>
          cases r with
          | inl x' =>
              cases hq
              exact .ret (hround _ _ _ (ih hround rfl))
          | inr d => cases hq
      | loop body' x k =>
          cases hq
          exact .loop (ih hround (loop_cont_bind _ _))
      | _ => cases hq

-- What every last round and every round before a good state has holds of a loop that
-- comes to an end.
theorem Total.iter_induction {body : γ → Prog Op β ε (γ ⊕ δ)} {x : γ} {Q : δ → σ → C → Prop}
    (h : Total K (Prog.iter body x) s c Q) (P : γ → σ → C → Prop)
    (hround : ∀ x s c, (Total K (body x) s c fun r s c => r.elim (fun x' => P x' s c) fun d => Q d s c) →
      P x s c) : P x s c := by
  obtain _ | _ | _ | _ | rest := h
  exact hround x s c (rest.within hround rfl)

-- A run in the machine's own terms.
theorem Total.exec {p : Prog Op β ε α} {Q : α → σ → C → Prop} (h : Total K p s c Q) :
    ∃ out a s' c', Exec K ⟨p, s, Channel.link c⟩ out ⟨.ret a, s', Channel.link c'⟩ ∧ Q a s' c' := by
  induction h with
  | ret result => exact ⟨[], _, _, _, .refl _, result⟩
  | call exec _ ih =>
      obtain ⟨out, a, s', c', hrun, hq⟩ := ih
      exact ⟨out, a, s', c', .silent (by simp [step, exec]) hrun, hq⟩
  | @send bs k s c Q _ ih =>
      obtain ⟨out, a, s', c', hrun, hq⟩ := ih
      rw [Channel.link_sent] at hrun
      exact ⟨_, a, s', c', (exec_say_any bs).seq hrun, hq⟩
  | @recv n k s c Q ready stirs _ ih =>
      obtain ⟨out, a, s', c', hrun, hq⟩ := ih
      rw [Channel.link_skip] at hrun
      exact ⟨_, a, s', c', (exec_hear_ready ready).seq hrun, hq⟩
  | loop _ ih =>
      obtain ⟨out, a, s', c', hrun, hq⟩ := ih
      exact ⟨out, a, s', c', .silent rfl hrun, hq⟩

theorem not_total_of_halt {p : Prog Op β ε α} {Q : α → σ → C → Prop} {out : List β} {e : ε}
    {l' : Link β} (h : Exec K ⟨p, s, Channel.link c⟩ out ⟨.halt e, s', l'⟩) : ¬Total K p s c Q := by
  intro htotal
  obtain ⟨out', a, t, c', hrun, -⟩ := htotal.exec
  obtain ⟨-, heq⟩ := hrun.unique h rfl rfl
  cases heq

-- The run that decides it has no effect on the connection.
theorem Mute.total_iff {p : Prog Op β ε α} {Q : α → σ → C → Prop} {out : List β} {a : α}
    {l l' : Link β} (hp : Mute p) (h : Exec K ⟨p, s, l⟩ out ⟨.ret a, s', l'⟩) :
    Total K p s c Q ↔ Q a s' c := by
  induction hp generalizing s out with
  | ret b =>
      obtain ⟨-, heq⟩ := h.eq_of_stuck rfl
      cases heq
      exact total_ret
  | halt e =>
      obtain ⟨-, heq⟩ := h.eq_of_stuck rfl
      cases heq
  | call op rest ih =>
      cases h with
      | head first hrun =>
          simp only [step, Option.map_eq_some_iff, Prod.mk.injEq] at first
          obtain ⟨⟨r, t⟩, hexec, rfl, rfl⟩ := first
          rw [← ih r hrun]
          constructor
          · rintro (_ | ⟨hexec', hrest⟩)
            obtain ⟨rfl, rfl⟩ := Prod.mk.inj (Option.some.inj (hexec.symm.trans hexec'))
            exact hrest
          · exact .call hexec

end Rules

section Machine

variable {K : Kernel Op σ} {s s' : σ} {l : Link β}

theorem total_iff_exec {p : Prog Op β ε α} {Q : α → σ → Link β → Prop} :
    Total K p s l Q ↔ ∃ out a s' l', Exec K ⟨p, s, l⟩ out ⟨.ret a, s', l'⟩ ∧ Q a s' l' := by
  refine ⟨fun h => h.exec, ?_⟩
  rintro ⟨out, a, s', l', hrun, hq⟩
  generalize hstart : (⟨p, s, l⟩ : Proc Op β ε σ α) = start at hrun
  generalize hend : (⟨.ret a, s', l'⟩ : Proc Op β ε σ α) = stop at hrun
  induction hrun generalizing p s l with
  | refl _ =>
      subst hend
      cases hstart
      exact .ret hq
  | @head _ q _ bs out first _ ih =>
      subst hstart
      obtain ⟨q, t, m⟩ := q
      have hrest := ih rfl hend
      cases p with
      | ret a => cases first
      | halt e => cases first
      | call op k =>
          simp only [step, Option.map_eq_some_iff, Prod.mk.injEq] at first
          obtain ⟨⟨r, t⟩, hexec, ⟨⟩, -⟩ := first
          exact .call hexec hrest
      | send bs k =>
          simp only [step] at first
          refine .send ?_
          split_ifs at first with halive <;> cases first
          · exact halive ▸ hrest
          · exact (Bool.eq_false_iff.mpr halive) ▸ hrest
      | recv n k =>
          simp only [step] at first
          split_ifs at first with hlen hclosed <;> cases first
          · exact .recv (.inl hlen) (fun _ => trivial) hrest
          · have hshort := Nat.le_of_not_le hlen
            refine .recv (.inr hclosed) (fun _ => trivial) ?_
            change Total K (k (l.inbox.take n)) _ (⟨l.inbox.drop n, l.closed⟩ : Link β) Q
            rwa [List.take_of_length_le hshort, List.drop_eq_nil_of_le hshort, hclosed]
      | loop body x k =>
          cases first
          exact .loop hrest

end Machine

end Program
