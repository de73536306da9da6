import Csiebox.ThreadPool.History

namespace Csiebox.ThreadPool

open Tally Ring Labelled

variable {τ : Type} {n k : Nat} {creator : Fin k} {s s' : State n k τ} {e : Event τ} {es : List (Event τ)}

section Reachable

structure Inv (creator : Fin k) (es : List (Event τ)) (s : State n k τ) : Prop where
  locked : Locked s
  staged : Staged creator s
  counted : Counted s
  flagged : Flagged s
  joined : Joined s
  ending : Ending s
  drained : Drained s
  awake : Awake s
  gone : Gone s
  kept : Kept es s
  held : Held es s
  ended : Ended es s

theorem Inv.free (hs : Inv creator es s) (c : Fin k) (i : Nat) (hc : s.callers c = .joining i)
    (hi : ¬i < s.pool.threadCount) : s.pool.free = 0 :=
  free_of_joined hs.staged hs.counted hs.flagged hs.joined c i hc hi

theorem Step.inv (h : Step creator s e s') (hs : Inv creator es s) : Inv creator (es ++ [e]) s' where
  locked := h.locked hs.locked
  staged := h.staged hs.staged
  counted := h.counted hs.staged hs.counted
  flagged := h.flagged hs.staged hs.flagged
  joined := h.joins hs.staged hs.flagged hs.joined
  ending := h.ending hs.staged hs.flagged hs.free hs.ending
  drained := h.drained hs.flagged hs.drained
  awake := h.awake hs.staged hs.flagged hs.awake
  gone := h.gone hs.locked hs.gone
  kept := h.kept hs.staged hs.kept
  held := h.held hs.staged hs.held
  ended := h.ended hs.free hs.ended

variable {threadCount queueSize : Int} {memory : Nat → τ} {pool : Pool τ}

theorem create_some (h : create threadCount queueSize memory = some pool) :
    0 < threadCount ∧ 0 < queueSize ∧ pool =
      { queue := memory
        threadCount := 0
        queueSize := queueSize.toNat
        head := 0
        tail := 0
        count := 0
        shutdown := .no
        started := 0 } := by
  unfold create at h
  split at h
  next => simp at h
  next hrange => exact ⟨by omega, by omega, by simpa using h.symm⟩

theorem start_inv (h : create threadCount queueSize memory = some pool) (creator : Fin k) :
    Inv creator [] (State.start k pool threadCount) := by
  obtain ⟨hthreads, hqueue, rfl⟩ := create_some h
  constructor
  case locked => intro t ht; cases t <;> simp [State.inside, State.start, Worker.inside,
    Caller.inside] at ht
  case staged => constructor <;> constructor <;> simp [State.start, State.born]
  case counted => simp [Counted, State.start, Stage.uncounted, tally, Worker.alive]
  case flagged => constructor <;> simp [State.start, Worker.left, Caller.ends]
  case joined => constructor <;> simp [State.start, Caller.joined]
  case ending => constructor <;> simp [State.start, Caller.ends]
  case drained => intro hdown; simp [State.start] at hdown
  case awake => intro i hi; simp [State.start] at hi
  case gone => intro hfreed; simp [State.start] at hfreed
  case kept =>
    have hsize : 0 < queueSize.toNat := by omega
    refine ⟨Inside.empty hsize, rfl, ?_⟩
    simp [grabbed, finished, State.start, tally, Worker.hands]
  case held => intro _ _ t ht; simp [State.start] at ht
  case ended => intro hmem; simp at hmem

-- The histories and states of a pool, from its creation on.
theorem reachable_inv (h : create threadCount queueSize memory = some pool)
    {s : State threadCount.toNat k τ} (hrun : Run (Step creator) (State.start k pool threadCount) es s) :
    Inv creator es s :=
  hrun.invariant (fun _ _ _ _ hs hstep => hstep.inv hs) (start_inv h creator)

theorem Step.queueSize_eq (h : Step creator s e s') : s'.pool.queueSize = s.pool.queueSize := by
  cases h with
  | _ => grind -ring -linarith -order [State.setWorker, State.setCaller]

theorem reachable_queueSize (h : create threadCount queueSize memory = some pool)
    {s : State threadCount.toNat k τ} (hrun : Run (Step creator) (State.start k pool threadCount) es s) :
    s.pool.queueSize = queueSize.toNat := by
  obtain ⟨-, -, rfl⟩ := create_some h
  induction hrun with
  | refl => rfl
  | snoc _ last ih => rw [last.queueSize_eq, ih]

end Reachable

section Rest

-- The pool waits for tasks, and has done all it was given.
structure Resting (es : List (Event τ)) (s : State n k τ) : Prop where
  returned : s.stage = .returned
  open_still : s.pool.shutdown = .no
  waiting : ∀ i, s.workers i = .waiting
  idle : ∀ c, s.callers c = .idle
  empty : s.pool.count = 0
  done : (finished es).Perm (accepted es)

-- The pool is gone with its threads; a call that came too late is still on its way.
structure Over (es : List (Event τ)) (s : State n k τ) : Prop where
  freed : s.freed = true
  started : s.pool.started = 0
  exited : ∀ i, s.workers i = .exited ∨ s.workers i = .unborn
  done : (finished es).Perm (grabbed es)
  graceful : s.pool.shutdown = .graceful → (finished es).Perm (accepted es)

theorem not_in_hand (hw : ∀ i, (s.workers i).hands = 0) (hs : Inv creator es s) :
    (finished es).Perm (grabbed es) := by
  have := hs.kept.hands
  rw [tally_zero Worker.hands hw, add_zero, Multiset.coe_eq_coe] at this
  exact this.symm

theorem done_of_empty (hw : ∀ i, (s.workers i).hands = 0) (hcount : s.pool.count = 0)
    (hs : Inv creator es s) : (finished es).Perm (accepted es) := by
  rw [hs.kept.order, Pool.tasks, hcount, contents_zero, List.append_nil]
  exact not_in_hand hw hs

theorem born_eq (hs : Staged creator s) (hdown : s.pool.shutdown ≠ .no) :
    s.born = s.pool.threadCount ∧ s.stage.uncounted = 0 := by
  have := hs.early
  cases hstage : s.stage <;> simp_all [State.born, Stage.uncounted]

theorem over_of_freed (hn : 0 < n) (hs : Inv creator es s) (hfreed : s.freed = true) : Over es s := by
  have hdown : s.pool.shutdown ≠ .no := by
    intro hopen
    have := hs.flagged.kept hopen
    simp [hfreed] at this
  obtain ⟨hborn, hcounted⟩ := born_eq hs.staged hdown
  have hexited : ∀ i, s.workers i = .exited ∨ s.workers i = .unborn := by
    intro i
    by_cases hi : (i : Nat) < s.pool.threadCount
    · exact .inl (hs.joined.dead hfreed i hi)
    · exact .inr ((hs.staged.born i).mpr (by omega))
  have hhands : ∀ i, (s.workers i).hands = 0 := by
    intro i
    obtain hi | hi := hexited i <;> simp [hi, Worker.hands]
  have halive : tally Worker.alive s.workers = 0 := by
    apply tally_zero
    intro i
    obtain hi | hi := hexited i <;> simp [hi, Worker.alive]
  refine ⟨hfreed, ?_, hexited, not_in_hand hhands hs, ?_⟩
  · have := hs.counted
    rw [Counted, hcounted, halive] at this
    simpa using this
  · intro hgraceful
    have hreturned : s.stage = .returned := by
      have := hs.staged.early
      have := hs.staged.abandoned
      cases hstage : s.stage <;> simp_all
    have hcount := hs.staged.returned hreturned
    apply done_of_empty hhands ?_ hs
    apply hs.drained hgraceful ⟨0, hn⟩
    rw [hs.joined.dead hfreed ⟨0, hn⟩ (by simpa [hcount] using hn)]
    rfl

-- No thread can take a step but to call, or to wake up without a reason.
def Still (creator : Fin k) (s : State n k τ) : Prop :=
  ∀ e s', Step creator s e s' → e = .called ∨ e = .spurious

theorem Still.stage (hstill : Still creator s) (hs : Staged creator s) :
    s.stage = .failed ∨ s.stage = .returned := by
  cases hstage : s.stage with
  | spawning i =>
      have hi := (hs.spawning i hstage).2
      by_cases hlt : i < n
      · have := hstill _ _ (.spawn (i := ⟨i, hlt⟩) hstage)
        simp at this
      · have := hstill _ _ (.created (by rw [hstage]; congr 1; omega))
        simp at this
  | counting i =>
      have := hstill _ _ (.count hstage)
      simp at this
  | failed => exact .inl rfl
  | returned => exact .inr rfl

-- A signal wakes a thread or finds none.
theorem exists_signal (w : Fin n → Worker τ) : ∃ w', Signal w w' := by
  by_cases h : ∃ i, w i = .waiting
  · obtain ⟨i, hi⟩ := h
    exact ⟨_, .wakes hi⟩
  · exact ⟨w, .nobody fun i hi => h ⟨i, hi⟩⟩

-- Who has the lock can go on.
theorem Still.outside (hstill : Still creator s) (t : Thread n k) : s.inside t = false := by
  cases t with
  | worker i =>
      cases hw : s.workers i with
      | test =>
          rcases hturn : s.pool.turn with ⟨turn, pool⟩
          cases turn with
          | wait => simpa using hstill _ _ (.wait hw hturn)
          | leave => simpa using hstill _ _ (.leave hw hturn)
          | work task => simpa using hstill _ _ (.grab hw hturn)
      | grabbed task => simpa using hstill _ _ (.unlock hw)
      | leaving => simpa using hstill _ _ (.exit hw)
      | _ => simp [State.inside, hw, Worker.inside]
  | caller c =>
      cases hc : s.callers c with
      | storing task =>
          rcases hadd : s.pool.add task with ⟨err, pool⟩
          by_cases herr : err = 0
          · subst herr
            obtain ⟨w', hw'⟩ := exists_signal s.workers
            simpa using hstill _ _ (.accept hc hadd hw')
          · simpa using hstill _ _ (.refuse hc hadd herr)
      | stopping flags =>
          rcases hdestroy : s.pool.destroy flags with ⟨err, pool⟩
          by_cases herr : err = 0
          · subst herr
            simpa using hstill _ _ (.stop hc hdestroy)
          · simpa using hstill _ _ (.stopAgain hc hdestroy herr)
      | _ => simp [State.inside, hc, Caller.inside]

theorem Still.worker (hstill : Still creator s) (hl : s.lock = none) (i : Fin n) :
    s.workers i = .unborn ∨ s.workers i = .waiting ∨ s.workers i = .exited := by
  have hout := hstill.outside (.worker i)
  cases hw : s.workers i with
  | lock => simpa using hstill _ _ (.lock hw hl)
  | running task => simpa using hstill _ _ (.finish hw)
  | _ => simp [State.inside, hw, Worker.inside] at hout ⊢

theorem Still.caller (hstill : Still creator s) (hs : Inv creator es s) (hl : s.lock = none)
    (hf : s.freed = false) (c : Fin k) : s.callers c = .idle := by
  have hout := hstill.outside (.caller c)
  cases hc : s.callers c with
  | idle => rfl
  | adding task => simpa using hstill _ _ (.addLock hc hl hf)
  | destroying flags => simpa using hstill _ _ (.destroyLock hc hl hf)
  | freeing => simpa using hstill _ _ (.free hc hl)
  | joining i =>
      have hends : (s.callers c).ends = true := by rw [hc]; rfl
      have hdown : s.pool.shutdown ≠ .no := by
        intro hopen
        rw [hs.flagged.nobody hopen c] at hends
        simp at hends
      by_cases hi : i < s.pool.threadCount
      · have hn : i < n := by
          have hfailed := hs.staged.failed
          have hreturned := hs.staged.returned
          obtain h | h := hstill.stage hs.staged
          · exact Nat.lt_of_lt_of_le hi (hfailed h)
          · rw [← hreturned h]
            exact hi
        have hborn := (born_eq hs.staged hdown).1
        have hunborn := hs.staged.born ⟨i, hn⟩
        obtain h | h | h := hstill.worker hl ⟨i, hn⟩
        · rw [hunborn, hborn] at h
          exact absurd h (by simpa using hi)
        · exact absurd h (hs.flagged.awake hdown _)
        · simpa using hstill _ _ (.join (i := ⟨i, hn⟩) hc hi h)
      · simpa using hstill _ _ (.joined hc hi (hs.free c i hc hi))
  | _ => simp [State.inside, hc, Caller.inside] at hout

theorem resting_of_still (hn : 0 < n) (hs : Inv creator es s) (hstill : Still creator s)
    (hl : s.lock = none) (hf : s.freed = false) : Resting es s := by
  have hidle := hstill.caller hs hl hf
  have hopen : s.pool.shutdown = .no := by
    by_contra hdown
    obtain ⟨c, hc⟩ := hs.ending.some_ends hdown hf
    simp [hidle c, Caller.ends] at hc
  have hreturned : s.stage = .returned := by
    obtain h | h := hstill.stage hs.staged
    · have := hs.staged.failing h hopen
      simp [hidle creator] at this
    · exact h
  have hborn : s.born = n := by
    have := hs.staged.returned hreturned
    simp [State.born, hreturned, this]
  have hwaiting : ∀ i, s.workers i = .waiting := by
    intro i
    obtain h | h | h := hstill.worker hl i
    · rw [hs.staged.born i, hborn] at h
      omega
    · exact h
    · have := hs.flagged.stay hopen i
      simp [h, Worker.left] at this
  have hcount : s.pool.count = 0 := by
    have hle := hs.awake ⟨0, hn⟩ (hwaiting _)
    rw [tally_zero Worker.awake fun i => by rw [hwaiting i]; rfl] at hle
    omega
  have hhands : ∀ i, (s.workers i).hands = 0 := fun i => by rw [hwaiting i]; rfl
  exact ⟨hreturned, hopen, hwaiting, hidle, hcount, done_of_empty hhands hcount hs⟩

end Rest

-- The event neither comes from the queue nor ends a call.
def Event.Outside (e : Event τ) : Prop :=
  e.accepts = none ∧ e.grabs = none ∧ (∀ err, e ≠ .refused err) ∧ ∀ err, e ≠ .destroyed err

structure Stuck (creator : Fin k) (count : Nat) (s : State n k τ) : Prop where
  reached : ∃ es, Inv creator es s
  jammed : Jammed s
  kept : s.freed = false
  same : s.pool.count = count

theorem Step.stuck {count : Nat} (h : Step creator s e s') (hs : Stuck creator count s) :
    Stuck creator count s' ∧ e.Outside := by
  obtain ⟨⟨es, hinv⟩, hjammed, hkept, hsame⟩ := hs
  obtain ⟨hfreed, hcount, hevent⟩ := h.while_jammed hinv.locked hjammed hinv.free
  exact ⟨⟨⟨_, h.inv hinv⟩, h.jammed hinv.locked hjammed, hfreed.trans hkept, hcount.trans hsame⟩, hevent⟩

-- A pool whose threads all wait.
theorem still_of_waiting (hstage : s.stage = .returned) (hw : ∀ i, s.workers i = .waiting)
    (hc : ∀ c, s.callers c = .idle) : Still creator s := by
  intro e s' h
  cases h with
  | callAdd _ _ _ _ => exact .inl rfl
  | callDestroy _ _ _ _ => exact .inl rfl
  | wakeUp _ => exact .inr rfl
  | _ => simp_all

section Alone

variable {s : State n k τ} {pool : Pool τ} {workers : Fin n → Worker τ} {task : τ} {c : Fin k} {i : Fin n}

-- A caller adds its task without meeting another thread.
theorem adds_alone (hs : s.stage = .returned) (hf : s.freed = false) (hl : s.lock = none)
    (hc : s.callers c = .idle) (hadd : s.pool.add task = (0, pool)) (hw : Signal s.workers workers) :
    Run (Step creator) s [.called, .quiet, .accepted task] { s with pool, workers } := by
  have hcallers : Function.update (Function.update (Function.update s.callers c (.adding task)) c
      (.storing task)) c .idle = s.callers := by
    rw [Function.update_idem, Function.update_idem, ← hc, Function.update_eq_self]
  have hrun := (Run.refl : Run (Step creator) s [] s) |>.snoc (.callAdd task hs hf hc)
    |>.snoc (.addLock (Function.update_self ..) hl hf)
    |>.snoc (.accept (Function.update_self ..) hadd hw)
  simpa only [State.setCaller, hcallers, ← hl, List.nil_append, List.cons_append] using hrun

-- A worker that has found the lock free takes a task.
theorem takes_alone (hw : s.workers i = .lock) (hl : s.lock = none)
    (hturn : s.pool.turn = (.work task, pool)) :
    Run (Step creator) s [.quiet, .grabbed task, .quiet] { s.setWorker i (.running task) with pool } := by
  have hrun := (Run.refl : Run (Step creator) s [] s) |>.snoc (.lock hw hl)
    |>.snoc (.grab (Function.update_self ..) hturn) |>.snoc (.unlock (Function.update_self ..))
  simpa only [State.setWorker, Function.update_idem, ← hl, List.nil_append, List.cons_append] using hrun

-- One that finds none waits.
theorem waits_alone (hw : s.workers i = .lock) (hl : s.lock = none) (hturn : s.pool.turn = (.wait, pool)) :
    Run (Step creator) s [.quiet, .quiet] { s.setWorker i .waiting with pool } := by
  have hrun := (Run.refl : Run (Step creator) s [] s) |>.snoc (.lock hw hl)
    |>.snoc (.wait (Function.update_self ..) hturn)
  simpa only [State.setWorker, Function.update_idem, ← hl, List.nil_append, List.cons_append] using hrun

end Alone

section Sample

-- Two threads, two places in the queue.
def twoPool : Pool Nat where
  queue _ := 0
  threadCount := 0
  queueSize := 2
  head := 0
  tail := 0
  count := 0
  shutdown := .no
  started := 0

theorem create_two : create 2 2 (fun _ => 0) = some twoPool := rfl

def first : Fin (Int.toNat 2) := ⟨0, by decide⟩

def second : Fin (Int.toNat 2) := ⟨1, by decide⟩

theorem forall_two {P : Fin (Int.toNat 2) → Prop} (h : P first) (h' : P second) (i : Fin (Int.toNat 2)) :
    P i := by
  have hi : (i : Nat) < 2 := i.isLt
  rcases (by omega : (i : Nat) = 0 ∨ (i : Nat) = 1) with hzero | hone
  · rwa [show i = first from Fin.ext hzero]
  · rwa [show i = second from Fin.ext hone]

-- Both threads have been started.
def startedPool : Pool Nat := { twoPool with threadCount := 2, started := 2 }

def twoReady : State (Int.toNat 2) 2 Nat where
  pool := startedPool
  lock := none
  workers := Function.update (Function.update (fun _ => .unborn) first .lock) second .lock
  callers _ := .idle
  stage := .returned
  freed := false

theorem two_ready : Run (Step 0) (State.start 2 twoPool 2)
    [.quiet, .quiet, .quiet, .quiet, .quiet] twoReady :=
  Run.refl |>.snoc (.spawn (i := first) rfl) |>.snoc (.count rfl) |>.snoc (.spawn (i := second) rfl)
    |>.snoc (.count rfl) |>.snoc (.created rfl)

-- The queue with one task, with two, and behind a task that was taken.
def onePending : Pool Nat :=
  { startedPool with queue := Function.update startedPool.queue 0 7, tail := 1, count := 1 }

def twoPending : Pool Nat :=
  { onePending with queue := Function.update onePending.queue 1 8, tail := 0, count := 2 }

theorem add_first : startedPool.add 7 = (0, onePending) := by
  simp [Pool.add, onePending, startedPool, twoPool]

theorem add_second : onePending.add 8 = (0, twoPending) := by
  simp [Pool.add, twoPending, onePending, startedPool, twoPool]

def firstTaken : Pool Nat := { twoPending with head := 1, count := 1 }

def bothTaken : Pool Nat := { twoPending with head := 0, count := 0 }

theorem take_first : twoPending.turn = (.work 7, firstTaken) := by
  simp [Pool.turn, firstTaken, twoPending, onePending, startedPool, twoPool]

theorem take_second : firstTaken.turn = (.work 8, bothTaken) := by
  simp [Pool.turn, firstTaken, bothTaken, twoPending, onePending, startedPool, twoPool]

-- Three tasks are added, the third one in the place of the first, which is taken and done.
theorem three_tasks : ∃ (es : List (Event Nat)) (s : State (Int.toNat 2) 2 Nat),
    Run (Step 0) (State.start 2 twoPool 2) es s ∧ accepted es = [7, 8, 9] ∧ grabbed es = [7] ∧
      finished es = [7] := by
  have hwrap : firstTaken.add 9 =
      (0, { twoPending with
        head := 1, queue := Function.update twoPending.queue 0 9, tail := 1, count := 2 }) := by
    simp [Pool.add, firstTaken, twoPending, onePending, startedPool, twoPool]
  have hadded := two_ready.trans (adds_alone (c := 0) rfl rfl rfl rfl add_first
    (.nobody (forall_two nofun nofun)))
  have hfull := hadded.trans (adds_alone (c := 1) rfl rfl rfl rfl add_second
    (.nobody (forall_two nofun nofun)))
  have htaken := hfull.trans (takes_alone (i := first) rfl rfl take_first)
  have hthird := htaken.trans (adds_alone (c := 0) rfl rfl rfl rfl hwrap
    (.nobody (forall_two nofun nofun)))
  exact ⟨_, _, hthird.snoc (.finish (i := first) rfl), rfl, rfl, rfl⟩

-- Both threads sleep, and the first of two tasks wakes one of them.
theorem one_sleeps : ∃ (es : List (Event Nat)) (s : State (Int.toNat 2) 2 Nat),
    Run (Step 0) (State.start 2 twoPool 2) es s ∧ s.workers second = .waiting ∧ s.pool.count = 1 := by
  have hwait : startedPool.turn = (.wait, startedPool) := rfl
  have hfirst := two_ready.trans (waits_alone (i := first) rfl rfl hwait)
  have hboth := hfirst.trans (waits_alone (i := second) rfl rfl hwait)
  have hadded := hboth.trans (adds_alone (c := 0) rfl rfl rfl rfl add_first (.wakes (i := first) rfl))
  exact ⟨_, _, hadded, rfl, rfl⟩

-- Two tasks are done by the two threads, which wait again.
theorem two_wait : ∃ (es : List (Event Nat)) (s : State (Int.toNat 2) 2 Nat),
    Run (Step 0) (State.start 2 twoPool 2) es s ∧ s.stage = .returned ∧ (∀ i, s.workers i = .waiting) ∧
      (∀ c, s.callers c = .idle) ∧ (∀ e ∈ es, e ≠ .destroyed threadpoolShutdown) ∧
        accepted es = [7, 8] := by
  have hwait : bothTaken.turn = (.wait, bothTaken) := rfl
  have hadded := two_ready.trans (adds_alone (c := 0) rfl rfl rfl rfl add_first
    (.nobody (forall_two nofun nofun)))
  have hfull := hadded.trans (adds_alone (c := 1) rfl rfl rfl rfl add_second
    (.nobody (forall_two nofun nofun)))
  have hfirst := hfull.trans (takes_alone (i := first) rfl rfl take_first)
  have hsecond := hfirst.trans (takes_alone (i := second) rfl rfl take_second)
  have hdone := (hsecond.snoc (.finish (i := second) rfl)).trans (waits_alone (i := second) rfl rfl hwait)
  have hrest := (hdone.snoc (.finish (i := first) rfl)).trans (waits_alone (i := first) rfl rfl hwait)
  refine ⟨_, _, hrest, rfl, forall_two rfl rfl, ?_, ?_, rfl⟩
  · intro c
    match c with
    | 0 => rfl
    | 1 => rfl
  · simp

-- The pool is destroyed while a task is pending, up to the last step.
theorem two_end : ∃ (es : List (Event Nat)) (s s' : State (Int.toNat 2) 2 Nat),
    Run (Step 0) (State.start 2 twoPool 2) es s ∧ Step 0 s (.destroyed 0) s' ∧
      s'.pool.shutdown = .graceful ∧ finished es = [7] := by
  let down : Pool Nat := { onePending with shutdown := .graceful }
  let drained : Pool Nat := { down with head := 1, count := 0 }
  have hdestroy : onePending.destroy 1 = (0, down) := rfl
  have htake : down.turn = (.work 7, drained) := by
    simp [Pool.turn, down, drained, onePending, startedPool, twoPool]
  have hleave : drained.turn = (.leave, drained) := rfl
  have hleave' : ({ drained with started := 1 } : Pool Nat).turn =
    (.leave, { drained with started := 1 }) := rfl
  have hadded := two_ready.trans (adds_alone (c := 0) rfl rfl rfl rfl add_first
    (.nobody (forall_two nofun nofun)))
  have hstopped := hadded |>.snoc (.callDestroy (c := 1) 1 rfl rfl rfl)
    |>.snoc (.destroyLock (c := 1) rfl rfl rfl) |>.snoc (.stop (c := 1) rfl hdestroy)
  have htaken := hstopped.trans (takes_alone (i := second) rfl rfl htake)
  have hfirst := htaken |>.snoc (.lock (i := first) rfl rfl) |>.snoc (.leave (i := first) rfl hleave)
    |>.snoc (.exit (i := first) rfl) |>.snoc (.join (c := 1) (i := first) rfl (by decide) rfl)
  have hsecond := hfirst |>.snoc (.finish (i := second) rfl) |>.snoc (.lock (i := second) rfl rfl)
    |>.snoc (.leave (i := second) rfl hleave') |>.snoc (.exit (i := second) rfl)
    |>.snoc (.join (c := 1) (i := second) rfl (by decide) rfl)
  exact ⟨_, _, _, hsecond.snoc (.joined (c := 1) rfl (by decide) rfl), .free (c := 1) rfl rfl, rfl, rfl⟩

-- Two threads end the pool while a task is being done; then it is done, and the second thread
-- adds another one.
theorem ended_twice : ∃ (es : List (Event Nat)) (s s' s'' : State (Int.toNat 2) 2 Nat),
    Run (Step 0) (State.start 2 twoPool 2) es s ∧ Step 0 s (.destroyed threadpoolShutdown) s' ∧
      Run (Step 0) s' [.finished 7, .called] s'' := by
  let taken : Pool Nat := { onePending with head := 1, count := 0 }
  let down : Pool Nat := { taken with shutdown := .immediate }
  have htake : onePending.turn = (.work 7, taken) := by
    simp [Pool.turn, taken, onePending, startedPool, twoPool]
  have hfirst : taken.destroy 0 = (0, down) := rfl
  have hsecond : down.destroy 0 = (threadpoolShutdown, down) := rfl
  have hadded := two_ready.trans (adds_alone (c := 0) rfl rfl rfl rfl add_first
    (.nobody (forall_two nofun nofun)))
  have htaken := hadded.trans (takes_alone (i := first) rfl rfl htake)
  have hcalled := htaken |>.snoc (.callDestroy (c := 0) 0 rfl rfl rfl)
    |>.snoc (.callDestroy (c := 1) 0 rfl rfl rfl) |>.snoc (.destroyLock (c := 0) rfl rfl rfl)
  exact ⟨_, _, _, _, hcalled |>.snoc (.stop (c := 0) rfl hfirst) |>.snoc (.destroyLock (c := 1) rfl rfl rfl),
    @Step.stopAgain _ _ _ _ _ 1 0 _ _ rfl hsecond (by decide),
    Run.refl |>.snoc (.finish (i := first) rfl) |>.snoc (.callAdd (c := 1) 9 rfl rfl rfl)⟩

end Sample

section Runs

variable {threadCount queueSize : Int} {memory : Nat → τ} {pool : Pool τ}
  {s s' s'' : State threadCount.toNat k τ} {es' : List (Event τ)}

-- The tasks are taken in the order in which they were added, each once, and the indices stay
-- inside the queue.
theorem tasks_in_order (hcreate : create threadCount queueSize memory = some pool)
    (hrun : Run (Step creator) (State.start k pool threadCount) es s) :
    accepted es = grabbed es ++ s.pool.tasks ∧
      (grabbed es : Multiset τ) = finished es + tally Worker.hands s.workers ∧
      s.pool.head < queueSize.toNat ∧ s.pool.tail < queueSize.toNat ∧
      s.pool.count ≤ queueSize.toNat := by
  have hs := (reachable_inv hcreate hrun).kept
  rw [← reachable_queueSize hcreate hrun]
  exact ⟨hs.order, hs.hands, hs.ring.headLt, hs.ring.tail_lt, hs.ring.countLe⟩

theorem tasks_in_order_three : ∃ (es : List (Event Nat)) (s : State (Int.toNat 2) 2 Nat),
    accepted es = [7, 8, 9] ∧ grabbed es = [7] ∧ accepted es = grabbed es ++ s.pool.tasks ∧
      (grabbed es : Multiset Nat) = finished es + tally Worker.hands s.workers := by
  obtain ⟨es, s, hrun, hadd, hgrab, -⟩ := three_tasks
  obtain ⟨horder, hhands, -⟩ := tasks_in_order create_two hrun
  exact ⟨es, s, hadd, hgrab, horder, hhands⟩

-- No wakeup is lost: a thread sleeps in an open pool only, with others awake for every task.
theorem sleeps_when_covered (hcreate : create threadCount queueSize memory = some pool)
    (hrun : Run (Step creator) (State.start k pool threadCount) es s) (i : Fin threadCount.toNat)
    (hi : s.workers i = .waiting) :
    s.pool.shutdown = .no ∧ s.pool.count ≤ tally Worker.awake s.workers := by
  have hs := reachable_inv hcreate hrun
  refine ⟨?_, hs.awake i hi⟩
  by_contra hdown
  exact hs.flagged.awake hdown i hi

theorem sleeps_when_covered_pending : ∃ s : State (Int.toNat 2) 2 Nat, s.pool.count = 1 ∧
    s.pool.shutdown = .no ∧ s.pool.count ≤ tally Worker.awake s.workers := by
  obtain ⟨es, s, hrun, hsleeps, hcount⟩ := one_sleeps
  exact ⟨s, hcount, sleeps_when_covered create_two hrun second hsleeps⟩

-- A run is only as long as its calls and its wakeups without a reason make it.
theorem steps_bounded (hcreate : create threadCount queueSize memory = some pool)
    (hrun : Run (Step creator) (State.start k pool threadCount) es s) :
    es.length ≤ 8 * threadCount.toNat + 5 + (es.map (Event.cost threadCount.toNat)).sum := by
  have hbound := hrun.bounded (P := fun s => ∃ es, Inv creator es s) State.work
    (Event.cost threadCount.toNat) (fun s e s' ⟨es, hs⟩ hstep =>
      ⟨⟨es ++ [e], hstep.inv hs⟩, hstep.work hs.staged hs.joined⟩) ⟨[], start_inv hcreate creator⟩
  have hstart : (State.start k pool threadCount).work = 8 * threadCount.toNat + 5 := by
    obtain ⟨-, -, rfl⟩ := create_some hcreate
    simp only [State.work, State.start, Stage.work]
    rw [tally_zero Worker.work fun _ => rfl, tally_zero (Caller.work _) fun _ => rfl]
    omega
  omega

theorem steps_bounded_three : ∃ es : List (Event Nat), accepted es = [7, 8, 9] ∧
    es.length ≤ 8 * Int.toNat 2 + 5 + (es.map (Event.cost (Int.toNat 2))).sum := by
  obtain ⟨es, s, hrun, hadd, -⟩ := three_tasks
  exact ⟨es, hadd, steps_bounded create_two hrun⟩

-- Where all threads stop, nothing is left undone.
theorem at_rest (hcreate : create threadCount queueSize memory = some pool)
    (hrun : Run (Step creator) (State.start k pool threadCount) es s)
    (honce : ∀ e ∈ es, e ≠ .destroyed threadpoolShutdown) (hstill : Still creator s) :
    Resting es s ∨ Over es s := by
  have hs := reachable_inv hcreate hrun
  have hn : 0 < threadCount.toNat := by
    have := (create_some hcreate).1
    omega
  cases hf : s.freed with
  | true => exact .inr (over_of_freed hn hs hf)
  | false =>
      have hl : s.lock = none := by
        cases hl : s.lock with
        | none => rfl
        | some t =>
            have := hs.held honce hf t hl
            simp [hstill.outside t] at this
      exact .inl (resting_of_still hn hs hstill hl hf)

theorem at_rest_two : ∃ (es : List (Event Nat)) (s : State (Int.toNat 2) 2 Nat),
    accepted es = [7, 8] ∧ (Resting es s ∨ Over es s) := by
  obtain ⟨es, s, hrun, hstage, hw, hc, honce, hadd⟩ := two_wait
  exact ⟨es, s, hadd, at_rest create_two hrun honce (still_of_waiting hstage hw hc)⟩

-- A `threadpool_destroy` that returns 0 is the only one, and leaves nothing behind.
theorem destroy_returns (hcreate : create threadCount queueSize memory = some pool)
    (hrun : Run (Step creator) (State.start k pool threadCount) es s)
    (hlast : Step creator s (.destroyed 0) s') :
    Over (es ++ [.destroyed 0]) s' ∧ .destroyed 0 ∉ es := by
  have hs := reachable_inv hcreate hrun
  have hn : 0 < threadCount.toNat := by
    have := (create_some hcreate).1
    omega
  refine ⟨over_of_freed hn (hlast.inv hs) ((hlast.inv hs).ended (by simp)), ?_⟩
  intro hmem
  have hjammed := hs.gone (hs.ended hmem)
  have := (hlast.while_jammed hs.locked hjammed hs.free).2.2.2.2.2 0
  exact this rfl

theorem destroy_returns_pending : ∃ (es : List (Event Nat)) (s' : State (Int.toNat 2) 2 Nat),
    Over (es ++ [.destroyed 0]) s' ∧ .destroyed 0 ∉ es ∧ s'.pool.shutdown = .graceful ∧
      finished es = [7] := by
  obtain ⟨es, s, s', hrun, hlast, hgraceful, hdone⟩ := two_end
  obtain ⟨hover, hfirst⟩ := destroy_returns create_two hrun hlast
  exact ⟨es, s', hover, hfirst, hgraceful, hdone⟩

-- A second `threadpool_destroy` keeps the lock for ever.
theorem second_destroy_jams (hcreate : create threadCount queueSize memory = some pool)
    (hrun : Run (Step creator) (State.start k pool threadCount) es s)
    (hsecond : Step creator s (.destroyed threadpoolShutdown) s') (hmore : Run (Step creator) s' es' s'') :
    s''.freed = false ∧ s''.pool.count = s.pool.count ∧ ∀ e ∈ es', e.Outside := by
  have hs := reachable_inv hcreate hrun
  have hs' := hsecond.inv hs
  obtain ⟨hjammed, hfreed, hcount⟩ : Jammed s' ∧ s'.freed = false ∧ s'.pool.count = s.pool.count := by
    generalize he : (Event.destroyed threadpoolShutdown : Event τ) = e at hsecond
    cases hsecond with
    | @stopAgain c flags _ err hc hdestroy herr =>
        obtain ⟨-, -, rfl⟩ := destroy_err hdestroy herr
        have hin : s.inside (.caller c) = true := by simp [State.inside, hc, Caller.inside]
        have hl := hs.locked _ hin
        refine ⟨⟨c, hl, by simp [State.setCaller, Caller.inside]⟩, ?_, rfl⟩
        cases hf : s.freed with
        | false => exact hf
        | true =>
            obtain ⟨c', hl', hout⟩ := hs.gone hf
            rw [hl, Option.some.injEq, Thread.caller.injEq] at hl'
            simp [← hl', hc, Caller.inside] at hout
    | free _ _ => cases he
    | notFreed _ _ _ => cases he
    | _ => cases he
  obtain ⟨hstuck, hsays⟩ := hmore.always (fun _ _ _ ht hstep => hstep.stuck ht)
    (Stuck.mk ⟨_, hs'⟩ hjammed hfreed hcount)
  exact ⟨hstuck.kept, hstuck.same, hsays⟩

theorem second_destroy_jams_later : ∃ s s'' : State (Int.toNat 2) 2 Nat, s''.freed = false ∧
    s''.pool.count = s.pool.count ∧ ∀ e ∈ [Event.finished 7, .called], e.Outside := by
  obtain ⟨es, s, s', s'', hrun, hsecond, hmore⟩ := ended_twice
  exact ⟨s, s'', second_destroy_jams create_two hrun hsecond hmore⟩

end Runs

end Csiebox.ThreadPool
