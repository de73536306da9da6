import Csiebox.ThreadPool

namespace Csiebox.ThreadPool

open Tally Ring Labelled

section Sections

variable {τ : Type} {pool pool' : Pool τ} {task : τ} {err : Int} {flags : BitVec 32}

@[grind →] theorem add_ok (h : pool.add task = (0, pool')) :
    pool.count ≠ pool.queueSize ∧ pool.shutdown = .no ∧ pool' = { pool with
      queue := Function.update pool.queue pool.tail task
      tail := (pool.tail + 1) % pool.queueSize
      count := pool.count + 1 } := by
  unfold Pool.add at h
  by_cases hfull : pool.count = pool.queueSize
  · simp [hfull, threadpoolQueueFull] at h
  by_cases hdown : pool.shutdown = .no
  · rw [if_neg hfull, if_neg (by simpa using hdown)] at h
    exact ⟨hfull, hdown, (congrArg Prod.snd h).symm⟩
  · simp [hfull, hdown, threadpoolShutdown] at h

@[grind →] theorem add_err (h : pool.add task = (err, pool')) (herr : err ≠ 0) : pool' = pool := by
  unfold Pool.add at h
  by_cases hfull : pool.count = pool.queueSize
  · simp only [hfull, if_true, Prod.mk.injEq] at h
    exact h.2.symm
  by_cases hdown : pool.shutdown = .no
  · simp only [hfull, hdown, ne_eq, not_true_eq_false, if_false, Prod.mk.injEq] at h
    exact absurd h.1.symm herr
  · simp only [hfull, hdown, ne_eq, not_false_eq_true, if_false, if_true, Prod.mk.injEq] at h
    exact h.2.symm

@[grind .] theorem shutdownOf_ne_no (flags : BitVec 32) : shutdownOf flags ≠ .no := by
  unfold shutdownOf
  split <;> simp

@[grind →] theorem destroy_ok (h : pool.destroy flags = (0, pool')) :
    pool.shutdown = .no ∧ pool' = { pool with shutdown := shutdownOf flags } := by
  unfold Pool.destroy at h
  by_cases hdown : pool.shutdown = .no
  · rw [if_neg (by simpa using hdown)] at h
    exact ⟨hdown, (congrArg Prod.snd h).symm⟩
  · simp [hdown, threadpoolShutdown] at h

@[grind →] theorem destroy_err (h : pool.destroy flags = (err, pool')) (herr : err ≠ 0) :
    err = threadpoolShutdown ∧ pool.shutdown ≠ .no ∧ pool' = pool := by
  unfold Pool.destroy at h
  by_cases hdown : pool.shutdown = .no
  · simp only [hdown, ne_eq, not_true_eq_false, if_false, Prod.mk.injEq] at h
    exact absurd h.1.symm herr
  · simp only [ne_eq, hdown, not_false_eq_true, if_true, Prod.mk.injEq] at h
    exact ⟨h.1.symm, hdown, h.2.symm⟩

@[grind →] theorem turn_wait (h : pool.turn = (.wait, pool')) :
    pool.count = 0 ∧ pool.shutdown = .no ∧ pool' = pool := by
  unfold Pool.turn at h
  by_cases hwait : pool.count = 0 ∧ pool.shutdown = .no
  · simp only [hwait, and_self, if_true, Prod.mk.injEq, true_and] at h
    exact ⟨hwait.1, hwait.2, h.symm⟩
  · rw [if_neg hwait] at h
    split at h <;> simp at h

@[grind →] theorem turn_leave (h : pool.turn = (.leave, pool')) :
    (pool.shutdown = .immediate ∨ pool.shutdown = .graceful ∧ pool.count = 0) ∧ pool' = pool := by
  unfold Pool.turn at h
  by_cases hwait : pool.count = 0 ∧ pool.shutdown = .no
  · simp [hwait] at h
  · rw [if_neg hwait] at h
    split at h
    next hleave =>
      simp only [Prod.mk.injEq, true_and] at h
      exact ⟨hleave, h.symm⟩
    next => simp at h

@[grind →] theorem turn_work (h : pool.turn = (.work task, pool')) :
    pool.count ≠ 0 ∧ pool.shutdown ≠ .immediate ∧ task = pool.queue pool.head ∧ pool' = { pool with
      head := (pool.head + 1) % pool.queueSize
      count := pool.count - 1 } := by
  unfold Pool.turn at h
  by_cases hwait : pool.count = 0 ∧ pool.shutdown = .no
  · simp [hwait] at h
  · rw [if_neg hwait] at h
    split at h
    next => simp at h
    next hwork =>
      simp only [Prod.mk.injEq, Turn.work.injEq] at h
      refine ⟨?_, fun hi => hwork (.inl hi), h.1.symm, h.2.symm⟩
      intro hcount
      cases hdown : pool.shutdown with
      | no => exact hwait ⟨hcount, hdown⟩
      | immediate => exact hwork (.inl hdown)
      | graceful => exact hwork (.inr ⟨hdown, hcount⟩)

-- A thread of the pool only takes tasks out of the queue.
theorem turn_keeps {turn : Turn τ} (h : pool.turn = (turn, pool')) :
    pool'.shutdown = pool.shutdown ∧ pool'.threadCount = pool.threadCount := by
  cases turn with
  | wait =>
      obtain ⟨-, -, rfl⟩ := turn_wait h
      exact ⟨rfl, rfl⟩
  | leave =>
      obtain ⟨-, rfl⟩ := turn_leave h
      exact ⟨rfl, rfl⟩
  | work task =>
      obtain ⟨-, -, -, rfl⟩ := turn_work h
      exact ⟨rfl, rfl⟩

end Sections

variable {τ : Type} {n k : Nat} {creator : Fin k} {s s' : State n k τ} {e : Event τ}

section Lock

def Worker.inside : Worker τ → Bool
  | .test | .grabbed _ | .leaving => true
  | _ => false

def Caller.inside : Caller τ → Bool
  | .storing _ | .stopping _ => true
  | _ => false

-- The thread is between `pthread_mutex_lock` and the unlock.
def State.inside (s : State n k τ) : Thread n k → Bool
  | .worker i => (s.workers i).inside
  | .caller c => (s.callers c).inside

@[simp] theorem woken_ne_waiting (w : Worker τ) : w.woken ≠ .waiting := by
  cases w <;> simp [Worker.woken]

def Locked (s : State n k τ) : Prop := ∀ t, s.inside t = true → s.lock = some t

@[simp] theorem inside_woken (w : Worker τ) : w.woken.inside = w.inside := by
  cases w <;> rfl

theorem Signal.inside {w w' : Fin n → Worker τ} (h : Signal w w') (i : Fin n) :
    (w' i).inside = (w i).inside := by
  cases h with
  | nobody _ => rfl
  | @wakes j hw =>
      by_cases hij : i = j
      · subst hij
        simp [hw, Worker.inside]
      · simp [hij]

theorem locked_iff : Locked s ↔
    (∀ i, (s.workers i).inside = true → s.lock = some (.worker i)) ∧
      ∀ c, (s.callers c).inside = true → s.lock = some (.caller c) := by
  constructor
  · intro h
    exact ⟨fun i => h (.worker i), fun c => h (.caller c)⟩
  · intro h t
    cases t with
    | worker i => exact h.1 i
    | caller c => exact h.2 c

theorem Step.locked (h : Step creator s e s') (hs : Locked s) : Locked s' := by
  rw [locked_iff] at hs ⊢
  obtain ⟨hw, hc⟩ := hs
  cases h with
  | accept _ _ hsignal =>
      have := hsignal.inside
      simp only [State.setCaller, Function.update_apply]
      grind -ring -linarith -order [Worker.inside, Caller.inside]
  | _ =>
      simp only [State.setWorker, State.setCaller, Function.update_apply]
      grind -ring -linarith -order [Worker.inside, Caller.inside, inside_woken]

end Lock

section Threads

-- How many threads `threadpool_create` has started.
def State.born (s : State n k τ) : Nat :=
  match s.stage with
  | .spawning i => i
  | .counting i => i + 1
  | .failed | .returned => s.pool.threadCount

structure Numbered (s : State n k τ) : Prop where
  spawning : ∀ i, s.stage = .spawning i → s.pool.threadCount = i ∧ i ≤ n
  counting : ∀ i, s.stage = .counting i → s.pool.threadCount = i ∧ i < n
  failed : s.stage = .failed → s.pool.threadCount ≤ n
  returned : s.stage = .returned → s.pool.threadCount = n
  born : ∀ i : Fin n, s.workers i = .unborn ↔ s.born ≤ i

-- Nobody else has the pool before `threadpool_create` returns it.
structure Private (creator : Fin k) (s : State n k τ) : Prop where
  others : s.stage ≠ .returned → ∀ c, c ≠ creator → s.callers c = .idle
  early : s.stage ≠ .failed → s.stage ≠ .returned →
    s.callers creator = .idle ∧ s.pool.shutdown = .no
  failing : s.stage = .failed → s.pool.shutdown = .no →
    s.callers creator = .destroying 0 ∨ s.callers creator = .stopping 0
  abandoned : s.stage = .failed → s.pool.shutdown ≠ .graceful

structure Staged (creator : Fin k) (s : State n k τ) : Prop extends Numbered s, Private creator s

theorem Signal.unborn {w w' : Fin n → Worker τ} (h : Signal w w') (i : Fin n) :
    w' i = .unborn ↔ w i = .unborn := by
  cases h with
  | nobody _ => rfl
  | @wakes j hw =>
      by_cases hij : i = j
      · subst hij
        simp [hw]
      · simp [hij]

theorem woken_unborn {w : Worker τ} : w.woken = .unborn ↔ w = .unborn := by
  cases w <;> simp [Worker.woken]

-- A step that starts no thread and does not count one.
theorem Numbered.same (hs : Numbered s) (hstage : s'.stage = s.stage)
    (hcount : s'.pool.threadCount = s.pool.threadCount)
    (hunborn : ∀ i, s'.workers i = .unborn ↔ s.workers i = .unborn) : Numbered s' := by
  obtain ⟨hspawning, hcounting, hfailed, hreturned, hborn⟩ := hs
  have hsame : s'.born = s.born := by rw [State.born, State.born, hstage, hcount]
  constructor
  · rwa [hstage, hcount]
  · rwa [hstage, hcount]
  · rwa [hstage, hcount]
  · rwa [hstage, hcount]
  · intro i
    rw [hunborn i, hborn i, hsame]

theorem unborn_update {w : Fin n → Worker τ} {i : Fin n} {a : Worker τ} (hw : w i ≠ .unborn)
    (ha : a ≠ .unborn) (j : Fin n) : Function.update w i a j = .unborn ↔ w j = .unborn := by
  by_cases hij : j = i
  · subst hij
    simp [hw, ha]
  · simp [hij]

theorem Step.numbered (h : Step creator s e s') (hs : Numbered s) : Numbered s' := by
  cases h with
  | accept _ hadd hsignal =>
      obtain ⟨-, -, rfl⟩ := add_ok hadd
      exact hs.same rfl rfl hsignal.unborn
  | refuse _ hadd herr =>
      cases add_err hadd herr
      exact hs.same rfl rfl fun _ => .rfl
  | stop _ hdestroy =>
      obtain ⟨-, rfl⟩ := destroy_ok hdestroy
      exact hs.same rfl rfl fun _ => woken_unborn
  | stopAgain _ hdestroy herr =>
      obtain ⟨-, -, rfl⟩ := destroy_err hdestroy herr
      exact hs.same rfl rfl fun _ => .rfl
  | wait hw hturn =>
      obtain ⟨-, -, rfl⟩ := turn_wait hturn
      exact hs.same rfl rfl (unborn_update (by simp [hw]) (by simp))
  | leave hw hturn =>
      obtain ⟨-, rfl⟩ := turn_leave hturn
      exact hs.same rfl rfl (unborn_update (by simp [hw]) (by simp))
  | grab hw hturn =>
      obtain ⟨-, -, -, rfl⟩ := turn_work hturn
      exact hs.same rfl rfl (unborn_update (by simp [hw]) (by simp))
  | lock hw _ => exact hs.same rfl rfl (unborn_update (by simp [hw]) (by simp))
  | unlock hw => exact hs.same rfl rfl (unborn_update (by simp [hw]) (by simp))
  | finish hw => exact hs.same rfl rfl (unborn_update (by simp [hw]) (by simp))
  | exit hw => exact hs.same rfl rfl (unborn_update (by simp [hw]) (by simp))
  | wakeUp hw => exact hs.same rfl rfl (unborn_update (by simp [hw]) (by simp))
  | spawn _ | count _ | spawnFails _ | created _ =>
      obtain ⟨hspawning, hcounting, hfailed, hreturned, hborn⟩ := hs
      constructor <;> simp only [State.setWorker, State.setCaller, Function.update_apply,
        State.born] at * <;>
        grind -ring -linarith -order
  | _ => exact hs.same rfl rfl fun _ => .rfl

-- A step of a thread of the pool.
theorem Private.same (hs : Private creator s) (hstage : s'.stage = s.stage)
    (hcallers : s'.callers = s.callers) (hdown : s'.pool.shutdown = s.pool.shutdown) :
    Private creator s' := by
  obtain ⟨hothers, hearly, hfailing, habandoned⟩ := hs
  constructor
  · rwa [hstage, hcallers]
  · rwa [hstage, hcallers, hdown]
  · rwa [hstage, hcallers, hdown]
  · rwa [hstage, hdown]

theorem Step.stays_private (h : Step creator s e s') (hs : Private creator s) : Private creator s' := by
  cases h with
  | wait _ hturn => exact hs.same rfl rfl (turn_keeps hturn).1
  | leave _ hturn => exact hs.same rfl rfl (turn_keeps hturn).1
  | grab _ hturn => exact hs.same rfl rfl (turn_keeps hturn).1
  | lock _ _ => exact hs.same rfl rfl rfl
  | unlock _ => exact hs.same rfl rfl rfl
  | finish _ => exact hs.same rfl rfl rfl
  | exit _ => exact hs.same rfl rfl rfl
  | wakeUp _ => exact hs.same rfl rfl rfl
  | _ =>
      obtain ⟨hothers, hearly, hfailing, habandoned⟩ := hs
      have hzero : shutdownOf 0 = .immediate := rfl
      constructor <;> first
        | assumption
        | simp only [State.setWorker, State.setCaller, Function.update_apply] at *
          grind -ring -linarith -order

theorem Step.staged (h : Step creator s e s') (hs : Staged creator s) : Staged creator s' where
  toNumbered := h.numbered hs.toNumbered
  toPrivate := h.stays_private hs.toPrivate

end Threads

section Started

def Worker.alive : Worker τ → Nat
  | .unborn | .exited => 0
  | _ => 1

-- A thread may run before `threadpool_create` has counted it.
def Stage.uncounted : Stage → Nat
  | .counting _ => 1
  | _ => 0

def Counted (s : State n k τ) : Prop :=
  s.pool.started + s.stage.uncounted = tally Worker.alive s.workers

@[simp] theorem alive_woken (w : Worker τ) : w.woken.alive = w.alive := by
  cases w <;> rfl

theorem Step.counted (h : Step creator s e s') (hstaged : Staged creator s) (hs : Counted s) :
    Counted s' := by
  have hmove := tally_update Worker.alive s.workers
  have hborn := hstaged.born
  cases h with
  | accept _ _ hsignal =>
      cases hsignal <;> simp only [Counted, State.setCaller] at * <;>
        grind -ring -linarith -order [Worker.alive]
  | stop _ _ =>
      have hwoken : tally Worker.alive (fun i => (s.workers i).woken) = tally Worker.alive s.workers :=
        tally_congr fun i => alive_woken _
      simp only [Counted, State.setCaller] at *
      grind -ring -linarith -order
  | _ =>
      simp only [Counted, State.setWorker, State.setCaller] at *
      grind -ring -linarith -order [Worker.alive, Stage.uncounted, State.born]

end Started

section Shutdown

def Worker.left : Worker τ → Bool
  | .leaving | .exited => true
  | _ => false

-- The thread has set `shutdown` and is to free the pool.
def Caller.ends : Caller τ → Bool
  | .joining _ | .freeing => true
  | _ => false

@[simp] theorem left_woken (w : Worker τ) : w.woken.left = w.left := by
  cases w <;> rfl

-- What `shutdown` says of the threads.
structure Flagged (s : State n k τ) : Prop where
  stay : s.pool.shutdown = .no → ∀ i, (s.workers i).left = false
  nobody : s.pool.shutdown = .no → ∀ c, (s.callers c).ends = false
  kept : s.pool.shutdown = .no → s.freed = false
  awake : s.pool.shutdown ≠ .no → ∀ i, s.workers i ≠ .waiting

theorem Step.flagged (h : Step creator s e s') (hstaged : Staged creator s) (hs : Flagged s) :
    Flagged s' := by
  obtain ⟨hstay, hnobody, hkept, hawake⟩ := hs
  have hearly := hstaged.early
  cases h with
  | accept _ _ hsignal =>
      cases hsignal <;> constructor <;> simp only [State.setCaller, Function.update_apply] at * <;>
        grind -ring -linarith -order [Worker.left, Caller.ends]
  | _ =>
      constructor <;> first
        | assumption
        | simp only [State.setWorker, State.setCaller, Function.update_apply] at *
          grind -ring -linarith -order [Worker.left, Caller.ends, left_woken, woken_ne_waiting]

-- The threads that `threadpool_destroy` has waited for.
def Caller.joined (threadCount : Nat) : Caller τ → Nat
  | .joining i => i
  | .freeing => threadCount
  | _ => 0

theorem joined_eq_zero {a : Caller τ} (h : a.ends = false) (m : Nat) : a.joined m = 0 := by
  cases a <;> simp_all [Caller.ends, Caller.joined]

structure Joined (s : State n k τ) : Prop where
  joined : ∀ c (i : Fin n), (i : Nat) < (s.callers c).joined s.pool.threadCount → s.workers i = .exited
  short : ∀ c i, s.callers c = .joining i → i ≤ n
  dead : s.freed = true → ∀ i : Fin n, (i : Nat) < s.pool.threadCount → s.workers i = .exited

theorem Step.joins (h : Step creator s e s') (hstaged : Staged creator s) (hflagged : Flagged s)
    (hs : Joined s) : Joined s' := by
  obtain ⟨hjoined, hshort, hdead⟩ := hs
  have hkept := hflagged.kept
  have hzero : s.pool.shutdown = .no → ∀ c m, (s.callers c).joined m = 0 := fun hopen c m =>
    joined_eq_zero (hflagged.nobody hopen c) m
  have hearly := hstaged.early
  cases h with
  | accept _ _ hsignal =>
      cases hsignal <;> constructor <;> simp only [State.setCaller, Function.update_apply] at * <;>
        grind -ring -linarith -order [Caller.joined]
  | _ =>
      constructor <;> first
        | assumption
        | simp only [State.setWorker, State.setCaller, Function.update_apply] at *
          grind -ring -linarith -order [Caller.joined, Worker.woken]

-- Every thread has ended when `threadpool_destroy` has waited for all.
theorem free_of_joined (hstaged : Staged creator s) (hcounted : Counted s) (hflagged : Flagged s)
    (hjoined : Joined s) (c : Fin k) (i : Nat) (hc : s.callers c = .joining i)
    (hi : ¬i < s.pool.threadCount) : s.pool.free = 0 := by
  have hdown : s.pool.shutdown ≠ .no := by
    intro hopen
    have := hflagged.nobody hopen c
    simp [hc, Caller.ends] at this
  have hborn : s.stage.uncounted = 0 ∧ s.born = s.pool.threadCount := by
    have := hstaged.early
    cases hstage : s.stage <;> simp_all [Stage.uncounted, State.born]
  have halive : tally Worker.alive s.workers = 0 := by
    apply tally_zero
    intro j
    by_cases hj : (j : Nat) < s.pool.threadCount
    · rw [hjoined.joined c j (by rw [hc]; simp only [Caller.joined]; omega)]
      rfl
    · rw [(hstaged.born j).mpr (by omega)]
      rfl
  rw [Counted, hborn.1, halive] at hcounted
  have hstarted : s.pool.started = 0 := by simpa using hcounted
  simp [Pool.free, hstarted]

-- One thread ends the pool.
structure Ending (s : State n k τ) : Prop where
  one : ∀ c c', (s.callers c).ends = true → (s.callers c').ends = true → c = c'
  some_ends : s.pool.shutdown ≠ .no → s.freed = false → ∃ c, (s.callers c).ends = true
  none_ends : s.freed = true → ∀ c, (s.callers c).ends = false

theorem Step.ending (h : Step creator s e s') (hstaged : Staged creator s) (hflagged : Flagged s)
    (hfree : ∀ c i, s.callers c = .joining i → ¬i < s.pool.threadCount → s.pool.free = 0)
    (hs : Ending s) : Ending s' := by
  obtain ⟨hone, hsome, hnone⟩ := hs
  obtain ⟨-, hnobody, hkept, -⟩ := hflagged
  have hearly := hstaged.early
  cases h with
  | _ =>
      constructor <;> first
        | assumption
        | simp only [State.setWorker, State.setCaller, Function.update_apply] at *
          grind -ring -linarith -order [Caller.ends]

-- A thread leaves a pool that ends gracefully when the queue is empty.
def Drained (s : State n k τ) : Prop :=
  s.pool.shutdown = .graceful → ∀ i, (s.workers i).left = true → s.pool.count = 0

theorem Step.drained (h : Step creator s e s') (hflagged : Flagged s) (hs : Drained s) : Drained s' := by
  have hstay := hflagged.stay
  cases h with
  | accept _ _ hsignal =>
      cases hsignal <;> simp only [Drained, Function.update_apply] at * <;>
        grind -ring -linarith -order [Worker.left]
  | _ =>
      simp only [Drained, State.setWorker, State.setCaller, Function.update_apply] at *
      grind -ring -linarith -order [Worker.left, left_woken]

end Shutdown

section Wake

def Worker.awake : Worker τ → Nat
  | .lock | .test | .grabbed _ | .running _ => 1
  | _ => 0

-- A thread sleeps only while there are awake ones for all tasks.
def Awake (s : State n k τ) : Prop :=
  ∀ i, s.workers i = .waiting → s.pool.count ≤ tally Worker.awake s.workers

theorem Step.awake (h : Step creator s e s') (hstaged : Staged creator s) (hflagged : Flagged s)
    (hs : Awake s) : Awake s' := by
  have hmove := tally_update Worker.awake s.workers
  have hborn := hstaged.born
  have hawake := hflagged.awake
  cases h with
  | accept _ _ hsignal =>
      cases hsignal <;> simp only [Awake] at * <;>
        grind -ring -linarith -order [Worker.awake]
  | stop _ _ =>
      intro i hi
      exact absurd hi (woken_ne_waiting _)
  | _ =>
      simp only [Awake, State.setWorker, State.setCaller] at *
      grind -ring -linarith -order [Worker.awake, State.born]

end Wake

end Csiebox.ThreadPool
