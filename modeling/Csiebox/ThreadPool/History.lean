import Csiebox.ThreadPool.Lemmas

namespace Csiebox.ThreadPool

open Tally Ring Labelled

variable {τ : Type} {n k : Nat} {creator : Fin k} {s s' : State n k τ} {e : Event τ} {es : List (Event τ)}

section Tasks

def Event.accepts : Event τ → Option τ
  | .accepted task => some task
  | _ => none

def Event.grabs : Event τ → Option τ
  | .grabbed task => some task
  | _ => none

def Event.finishes : Event τ → Option τ
  | .finished task => some task
  | _ => none

-- The tasks in the order in which they were added, taken from the queue, and done.
def accepted (es : List (Event τ)) : List τ := es.filterMap Event.accepts

def grabbed (es : List (Event τ)) : List τ := es.filterMap Event.grabs

def finished (es : List (Event τ)) : List τ := es.filterMap Event.finishes

theorem filterMap_snoc {α β : Type} (f : α → Option β) (xs : List α) (x : α) :
    (xs ++ [x]).filterMap f = xs.filterMap f ++ (f x).toList := by
  cases h : f x <;> simp [h]

@[simp] theorem accepted_snoc (es : List (Event τ)) (e : Event τ) :
    accepted (es ++ [e]) = accepted es ++ e.accepts.toList := filterMap_snoc _ es e

@[simp] theorem grabbed_snoc (es : List (Event τ)) (e : Event τ) :
    grabbed (es ++ [e]) = grabbed es ++ e.grabs.toList := filterMap_snoc _ es e

@[simp] theorem finished_snoc (es : List (Event τ)) (e : Event τ) :
    finished (es ++ [e]) = finished es ++ e.finishes.toList := filterMap_snoc _ es e

def Pool.tasks (pool : Pool τ) : List τ := contents pool.queue pool.queueSize pool.head pool.count

def Worker.hands : Worker τ → Multiset τ
  | .grabbed task | .running task => {task}
  | _ => 0

structure Kept (es : List (Event τ)) (s : State n k τ) : Prop where
  ring : Inside s.pool.queueSize s.pool.head s.pool.tail s.pool.count
  order : accepted es = grabbed es ++ s.pool.tasks
  hands : (grabbed es : Multiset τ) = finished es + tally Worker.hands s.workers

@[simp] theorem hands_woken (w : Worker τ) : w.woken.hands = w.hands := by
  cases w <;> rfl

theorem Signal.hands {w w' : Fin n → Worker τ} (h : Signal w w') :
    tally Worker.hands w' = tally Worker.hands w := by
  cases h with
  | nobody _ => rfl
  | wakes hw => exact tally_eq _ (by simp [hw, Worker.hands])

-- A step that neither adds a task nor takes one.
theorem Kept.same (hs : Kept es s) (hqueue : s'.pool.queue = s.pool.queue)
    (hsize : s'.pool.queueSize = s.pool.queueSize) (hhead : s'.pool.head = s.pool.head)
    (htail : s'.pool.tail = s.pool.tail) (hcount : s'.pool.count = s.pool.count)
    (hhands : tally Worker.hands s'.workers = tally Worker.hands s.workers)
    (hadd : e.accepts = none) (hgrab : e.grabs = none) (hfinish : e.finishes = none) :
    Kept (es ++ [e]) s' := by
  obtain ⟨hring, horder, hkept⟩ := hs
  constructor
  · rw [hsize, hhead, htail, hcount]
    exact hring
  · simpa [hadd, hgrab, Pool.tasks, hqueue, hsize, hhead, hcount] using horder
  · simpa [hgrab, hfinish, hhands] using hkept

theorem Step.kept (h : Step creator s e s') (hstaged : Staged creator s) (hs : Kept es s) :
    Kept (es ++ [e]) s' := by
  have hborn := hstaged.born
  cases h with
  | @accept c task pool workers hc hadd hsignal =>
      obtain ⟨hring, horder, hkept⟩ := hs
      obtain ⟨hroom, -, rfl⟩ := add_ok hadd
      constructor
      · exact hring.push hroom
      · rw [accepted_snoc, grabbed_snoc, Pool.tasks, contents_push hring hroom, horder]
        simp [Event.accepts, Event.grabs, Pool.tasks]
      · rw [hsignal.hands]
        simpa [Event.grabs, Event.finishes] using hkept
  | @grab i task pool hw hturn =>
      obtain ⟨hring, horder, hkept⟩ := hs
      obtain ⟨hcount, -, rfl, rfl⟩ := turn_work hturn
      constructor
      · exact hring.pop hcount
      · rw [Pool.tasks, contents_pop hring hcount] at horder
        simp [horder, Event.accepts, Event.grabs, Pool.tasks]
      · have hmove := tally_update Worker.hands s.workers i (.grabbed (s.pool.queue s.pool.head))
        rw [hw, show (Worker.test : Worker τ).hands = 0 from rfl, add_zero] at hmove
        rw [grabbed_snoc, finished_snoc, State.setWorker, hmove, ← Multiset.coe_add, hkept]
        simp [Event.grabs, Event.finishes, Worker.hands, add_assoc]
  | @finish i task hw =>
      obtain ⟨hring, horder, hkept⟩ := hs
      constructor
      · exact hring
      · simpa [Event.accepts, Event.grabs, State.setWorker] using horder
      · have hmove := tally_update Worker.hands s.workers i .lock
        rw [hw, show (Worker.lock : Worker τ).hands = 0 from rfl, add_zero] at hmove
        rw [grabbed_snoc, finished_snoc, ← Multiset.coe_add, ← Multiset.coe_add, hkept, ← hmove]
        simp only [Event.grabs, Event.finishes, Worker.hands, State.setWorker, Option.toList_none,
          Option.toList_some, Multiset.coe_nil, add_zero, Multiset.coe_singleton]
        rw [add_assoc, Multiset.add_comm {task}]
  | stop _ hdestroy =>
      obtain ⟨-, rfl⟩ := destroy_ok hdestroy
      exact hs.same rfl rfl rfl rfl rfl (tally_congr fun i => hands_woken _) rfl rfl rfl
  | refuse _ hadd herr =>
      cases add_err hadd herr
      exact hs.same rfl rfl rfl rfl rfl rfl rfl rfl rfl
  | stopAgain _ hdestroy herr =>
      obtain ⟨-, -, rfl⟩ := destroy_err hdestroy herr
      exact hs.same rfl rfl rfl rfl rfl rfl rfl rfl rfl
  | wait hw hturn =>
      obtain ⟨-, -, rfl⟩ := turn_wait hturn
      exact hs.same rfl rfl rfl rfl rfl (tally_eq _ (by simp [hw, Worker.hands])) rfl rfl rfl
  | leave hw hturn =>
      obtain ⟨-, rfl⟩ := turn_leave hturn
      exact hs.same rfl rfl rfl rfl rfl (tally_eq _ (by simp [hw, Worker.hands])) rfl rfl rfl
  | @spawn i hstage =>
      have hw : s.workers i = .unborn := (hborn i).mpr (by simp [State.born, hstage])
      exact hs.same rfl rfl rfl rfl rfl (tally_eq _ (by simp [hw, Worker.hands])) rfl rfl rfl
  | lock hw _ => exact hs.same rfl rfl rfl rfl rfl (tally_eq _ (by simp [hw, Worker.hands])) rfl rfl rfl
  | unlock hw => exact hs.same rfl rfl rfl rfl rfl (tally_eq _ (by simp [hw, Worker.hands])) rfl rfl rfl
  | exit hw => exact hs.same rfl rfl rfl rfl rfl (tally_eq _ (by simp [hw, Worker.hands])) rfl rfl rfl
  | wakeUp hw => exact hs.same rfl rfl rfl rfl rfl (tally_eq _ (by simp [hw, Worker.hands])) rfl rfl rfl
  | _ => exact hs.same rfl rfl rfl rfl rfl rfl rfl rfl rfl

end Tasks

section Jam

-- The lock is held by a thread that is not in the pool's code, and will not give it back.
def Jammed (s : State n k τ) : Prop :=
  ∃ c, s.lock = some (.caller c) ∧ (s.callers c).inside = false

theorem Step.jammed (h : Step creator s e s') (hlocked : Locked s) (hs : Jammed s) : Jammed s' := by
  obtain ⟨c, hl, hc⟩ := hs
  rw [locked_iff] at hlocked
  obtain ⟨hw, hcallers⟩ := hlocked
  refine ⟨c, ?_⟩
  cases h with
  | _ =>
      simp only [State.setWorker, State.setCaller, Function.update_apply]
      grind -ring -linarith -order [Worker.inside, Caller.inside]

-- Nobody is in a part that needs the lock, and nobody enters one.
theorem Step.while_jammed (h : Step creator s e s') (hlocked : Locked s) (hs : Jammed s)
    (hfree : ∀ c i, s.callers c = .joining i → ¬i < s.pool.threadCount → s.pool.free = 0) :
    s'.freed = s.freed ∧ s'.pool.count = s.pool.count ∧ e.accepts = none ∧ e.grabs = none ∧
      (∀ err, e ≠ .refused err) ∧ ∀ err, e ≠ .destroyed err := by
  obtain ⟨c, hl, hc⟩ := hs
  rw [locked_iff] at hlocked
  obtain ⟨hw, hcallers⟩ := hlocked
  cases h with
  | _ =>
      simp only [State.setWorker, State.setCaller, Event.accepts, Event.grabs]
      grind -ring -linarith -order [Worker.inside, Caller.inside]

-- A freed pool has been locked for the last time.
def Gone (s : State n k τ) : Prop := s.freed = true → Jammed s

theorem Step.gone (h : Step creator s e s') (hlocked : Locked s) (hs : Gone s) : Gone s' := by
  intro hfreed
  by_cases hbefore : s.freed = true
  · exact h.jammed hlocked (hs hbefore)
  · cases h with
    | @free c hc hl => exact ⟨c, rfl, by simp [State.setCaller, Caller.inside]⟩
    | _ => exact absurd hfreed hbefore

-- The pool is freed before a `threadpool_destroy` returns 0.
def Ended (es : List (Event τ)) (s : State n k τ) : Prop := .destroyed 0 ∈ es → s.freed = true

theorem Step.ended (h : Step creator s e s')
    (hfree : ∀ c i, s.callers c = .joining i → ¬i < s.pool.threadCount → s.pool.free = 0)
    (hs : Ended es s) : Ended (es ++ [e]) s' := by
  intro hmem
  have hbefore : s.freed = true → s'.freed = true := by
    intro hf
    cases h with
    | _ => simp [State.setWorker, State.setCaller, hf]
  rw [List.mem_append, List.mem_singleton] at hmem
  obtain hmem | rfl := hmem
  · exact hbefore (hs hmem)
  · generalize he : (Event.destroyed 0 : Event τ) = e at h
    cases h with
    | free _ _ => rfl
    | notFreed hc hi hne => exact absurd (hfree _ _ hc hi) hne
    | stopAgain _ hdestroy herr =>
        cases he
        exact absurd rfl herr
    | _ => cases he

-- As long as no second `threadpool_destroy` came, who has the lock is where the code has it.
def Held (es : List (Event τ)) (s : State n k τ) : Prop :=
  (∀ e ∈ es, e ≠ .destroyed threadpoolShutdown) → s.freed = false → ∀ t, s.lock = some t → s.inside t = true

theorem Step.held (h : Step creator s e s') (hstaged : Staged creator s) (hs : Held es s) :
    Held (es ++ [e]) s' := by
  intro honce hfreed
  have hlast : e ≠ .destroyed threadpoolShutdown := honce e (by simp)
  have hbefore : s.freed = false → ∀ t, s.lock = some t → s.inside t = true :=
    hs fun e' he' => honce e' (List.mem_append_left _ he')
  have hw : s.freed = false → ∀ i, s.lock = some (.worker i) → (s.workers i).inside = true :=
    fun hf i => hbefore hf (.worker i)
  have hc : s.freed = false → ∀ c, s.lock = some (.caller c) → (s.callers c).inside = true :=
    fun hf c => hbefore hf (.caller c)
  have hearly := hstaged.early
  have hborn := hstaged.born
  suffices (∀ i, s'.lock = some (.worker i) → (s'.workers i).inside = true) ∧
      ∀ c, s'.lock = some (.caller c) → (s'.callers c).inside = true by
    intro t ht
    cases t with
    | worker i => exact this.1 i ht
    | caller c => exact this.2 c ht
  clear hs hbefore honce
  cases h with
  | _ =>
      simp only [State.setWorker, State.setCaller, Function.update_apply] at *
      grind -ring -linarith -order [Worker.inside, Caller.inside, State.born]

end Jam

section Potential

-- How many steps a thread has before it, at most, until it waits, is idle or is gone. A task
-- in the queue is good for four: it is taken and done, and the thread asks for the lock again.
def Worker.work : Worker τ → Nat
  | .unborn | .exited => 0
  | .waiting | .leaving => 1
  | .test => 2
  | .lock => 3
  | .running _ => 4
  | .grabbed _ => 5

def Caller.work (n : Nat) : Caller τ → Nat
  | .idle => 0
  | .freeing => 1
  | .joining i => n + 2 - i
  | .storing _ => 7
  | .adding _ => 8
  | .stopping _ => 3 * n + 3
  | .destroying _ => 3 * n + 4

def Stage.work (n : Nat) : Stage → Nat
  | .spawning i => 5 * (n - i) + 3 * n + 5
  | .counting i => 5 * (n - i) + 3 * n + 1
  | .failed | .returned => 0

def State.work (s : State n k τ) : Nat :=
  4 * s.pool.count + tally Worker.work s.workers + tally (Caller.work n) s.callers + s.stage.work n

-- What the outside adds to it: calls, and wakeups without a reason.
def Event.cost (n : Nat) : Event τ → Nat
  | .called => 3 * n + 9
  | .spurious => 3
  | _ => 0

theorem work_woken (w : Fin n → Worker τ) :
    tally Worker.work (fun i => (w i).woken) ≤ tally Worker.work w + n * 2 := by
  have hone : ∀ i, (w i).woken.work ≤ (w i).work + 2 := by
    intro i
    cases w i <;> simp [Worker.woken, Worker.work]
  calc tally Worker.work (fun i => (w i).woken)
      ≤ tally Worker.work w + Fintype.card (Fin n) * 2 := tally_le_add Worker.work hone
    _ = tally Worker.work w + n * 2 := by rw [Fintype.card_fin]

theorem Step.work (h : Step creator s e s') (hstaged : Staged creator s) (hjoined : Joined s) :
    s'.work + 1 ≤ s.work + e.cost n := by
  have hworker := tally_update Worker.work s.workers
  have hcaller := tally_update (Caller.work n) s.callers
  obtain ⟨⟨hspawning, hcounting, -, -, hborn⟩, -, hearly, -, -⟩ := hstaged
  have hshort := hjoined.short
  cases h with
  | accept _ _ hsignal =>
      cases hsignal <;> simp only [State.work, State.setCaller] at * <;>
        grind -ring -linarith -order [Worker.work, Caller.work]
  | stop _ _ =>
      have := work_woken s.workers
      simp only [State.work, State.setCaller] at *
      grind -ring -linarith -order [Caller.work]
  | _ =>
      simp only [State.work, State.setWorker, State.setCaller] at *
      grind -ring -linarith -order [Worker.work, Caller.work, Stage.work, Event.cost, State.born]

end Potential

end Csiebox.ThreadPool
