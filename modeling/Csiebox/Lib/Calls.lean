import Csiebox.Lib.Logic

namespace Program

variable {Op : Type → Type} {β ε σ α γ δ : Type}

-- All calls of a program are of the kind `P`.
def Prog.Calls (P : {ι : Type} → Op ι → Prop) : {α : Type} → Prog Op β ε α → Prop
  | _, .ret _ => True
  | _, .halt _ => True
  | _, .call op k => P op ∧ ∀ r, (k r).Calls P
  | _, .send _ k => ∀ b, (k b).Calls P
  | _, .recv _ k => ∀ bs, (k bs).Calls P
  | _, .loop body _ k => (∀ c, (body c).Calls P) ∧ ∀ d, (k d).Calls P

section Syntax

variable {P : {ι : Type} → Op ι → Prop}

@[simp] theorem calls_ret {a : α} : (Prog.ret a : Prog Op β ε α).Calls P := trivial

@[simp] theorem calls_halt {e : ε} : (Prog.halt e : Prog Op β ε α).Calls P := trivial

theorem calls_call {op : Op γ} {k : γ → Prog Op β ε α} :
    (Prog.call op k).Calls P ↔ P op ∧ ∀ r, (k r).Calls P := Iff.rfl

theorem calls_mono {Q : {ι : Type} → Op ι → Prop} (hPQ : ∀ {ι : Type} (op : Op ι), P op → Q op)
    {p : Prog Op β ε α} (hp : p.Calls P) : p.Calls Q := by
  induction p with
  | ret a => trivial
  | halt e => trivial
  | call op k ih => exact ⟨hPQ op hp.1, fun r => ih r (hp.2 r)⟩
  | send bs k ih => exact fun b => ih b (hp b)
  | recv n k ih => exact fun bs => ih bs (hp bs)
  | loop body c k ihbody ih => exact ⟨fun c => ihbody c (hp.1 c), fun d => ih d (hp.2 d)⟩

theorem calls_bind {p : Prog Op β ε α} {f : α → Prog Op β ε γ} (hp : p.Calls P)
    (hf : ∀ a, (f a).Calls P) : (p >>= f).Calls P := by
  induction p with
  | ret a => exact hf a
  | halt e => trivial
  | call op k ih => exact ⟨hp.1, fun r => ih r (hp.2 r) hf⟩
  | send bs k ih => exact fun b => ih b (hp b) hf
  | recv n k ih => exact fun bs => ih bs (hp bs) hf
  | loop body c k _ ih => exact ⟨hp.1, fun d => ih d (hp.2 d) hf⟩

theorem calls_sys {op : Op γ} (h : P op) : (Prog.sys op : Prog Op β ε γ).Calls P :=
  ⟨h, fun _ => trivial⟩

theorem calls_say {bs : List β} : (Prog.say bs : Prog Op β ε Bool).Calls P := fun _ => trivial

theorem calls_hear {n : Nat} : (Prog.hear n : Prog Op β ε (List β)).Calls P := fun _ => trivial

theorem calls_iter {body : γ → Prog Op β ε (γ ⊕ δ)} {c : γ} (h : ∀ c, (body c).Calls P) :
    (Prog.iter body c).Calls P := ⟨h, fun _ => trivial⟩

end Syntax

section Runs

variable {P : {ι : Type} → Op ι → Prop} {K : Kernel Op σ} {J : σ → Prop} {s : σ} {l : Link β}

-- An invariant that calls of this kind keep.
def Keeps (K : Kernel Op σ) (P : {ι : Type} → Op ι → Prop) (J : σ → Prop) : Prop :=
  ∀ {ι : Type} (op : Op ι) (s : σ) (r : ι) (s' : σ), P op → J s → K.exec op s = some (r, s') → J s'

theorem step_calls (hkeeps : Keeps K P J) {p q : Proc Op β ε σ α} {bs : List β}
    (hp : p.prog.Calls P) (hJ : J p.state) (hstep : step K p = some (q, bs)) :
    q.prog.Calls P ∧ J q.state := by
  obtain ⟨p, s, l⟩ := p
  cases p with
  | ret a => simp [step] at hstep
  | halt e => simp [step] at hstep
  | call op k =>
      simp only [step, Option.map_eq_some_iff, Prod.mk.injEq] at hstep
      obtain ⟨⟨r, s'⟩, hexec, rfl, -⟩ := hstep
      exact ⟨hp.2 r, hkeeps op s r s' hp.1 hJ hexec⟩
  | send bs k =>
      simp only [step] at hstep
      split_ifs at hstep <;> cases hstep <;> exact ⟨hp _, hJ⟩
  | recv n k =>
      simp only [step] at hstep
      split_ifs at hstep <;> cases hstep <;> exact ⟨hp _, hJ⟩
  | loop body c k =>
      cases hstep
      refine ⟨calls_bind (hp.1 c) fun r => ?_, hJ⟩
      cases r with
      | inl c' => exact hp
      | inr d => exact hp.2 d

theorem run_calls (hkeeps : Keeps K P J) {p q : Proc Op β ε σ α} {out : List β}
    (hrun : Exec K p out q) (hp : p.prog.Calls P) (hJ : J p.state) : q.prog.Calls P ∧ J q.state := by
  induction hrun with
  | refl p => exact ⟨hp, hJ⟩
  | head first _ ih =>
      obtain ⟨hq, hJ'⟩ := step_calls hkeeps hp hJ first
      exact ih hq hJ'

-- A program that makes such calls alone.
theorem along_calls {I : {ι : Type} → Op ι → σ → Prop} (hkeeps : Keeps K P J)
    (hI : ∀ {ι : Type} (op : Op ι) (s : σ), P op → J s → I op s) {p : Prog Op β ε α} (hp : p.Calls P)
    (hJ : J s) : Along K I anyHalt p s l fun _ s _ => J s := by
  intro out q hrun
  obtain ⟨hq, hJ'⟩ := run_calls hkeeps hrun hp hJ
  obtain ⟨q, s', l'⟩ := q
  cases q with
  | ret a => exact hJ'
  | call op k => exact hI op s' (calls_call.mp hq).1 hJ'
  | _ => trivial

theorem ends_calls (hkeeps : Keeps K P J) {p : Prog Op β ε α} (hp : p.Calls P) (hJ : J s) :
    Ends K p s l fun _ s _ => J s :=
  along_calls hkeeps (fun _ _ _ _ => trivial) hp hJ

end Runs

attribute [irreducible] Prog.Calls

end Program
