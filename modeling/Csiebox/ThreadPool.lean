import Csiebox.Lib.Labelled
import Csiebox.Lib.Ring
import Csiebox.Lib.Tally

namespace Csiebox.ThreadPool

def maxThreads : Int := 64

def maxQueue : Int := 65536

def threadpoolQueueFull : Int := -3

def threadpoolShutdown : Int := -4

def threadpoolGraceful : BitVec 32 := 1

-- `pool->shutdown`: 0, `immediate_shutdown` or `graceful_shutdown`.
inductive Shutdown where
  | no
  | immediate
  | graceful
deriving DecidableEq

-- A task is a function with its argument.
structure Pool (τ : Type) where
  queue : Nat → τ
  threadCount : Nat
  queueSize : Nat
  head : Nat
  tail : Nat
  count : Nat
  shutdown : Shutdown
  started : Int

variable {τ : Type}

-- The pool before its first thread; the queue holds what the allocator left there.
def create (threadCount queueSize : Int) (memory : Nat → τ) : Option (Pool τ) :=
  if threadCount ≤ 0 ∨ maxThreads < threadCount ∨ queueSize ≤ 0 ∨ maxQueue < queueSize then none
  else some
    { queue := memory
      threadCount := 0
      queueSize := queueSize.toNat
      head := 0
      tail := 0
      count := 0
      shutdown := .no
      started := 0 }

-- `threadpool_add` under the lock.
def Pool.add (pool : Pool τ) (task : τ) : Int × Pool τ :=
  let next := (pool.tail + 1) % pool.queueSize
  if pool.count = pool.queueSize then (threadpoolQueueFull, pool)
  else if pool.shutdown ≠ .no then (threadpoolShutdown, pool)
  else (0, { pool with
    queue := Function.update pool.queue pool.tail task
    tail := next
    count := pool.count + 1 })

def shutdownOf (flags : BitVec 32) : Shutdown :=
  if flags &&& threadpoolGraceful ≠ 0 then .graceful else .immediate

-- `threadpool_destroy` under the lock.
def Pool.destroy (pool : Pool τ) (flags : BitVec 32) : Int × Pool τ :=
  if pool.shutdown ≠ .no then (threadpoolShutdown, pool)
  else (0, { pool with shutdown := shutdownOf flags })

-- The test at the start of `threadpool_free`.
def Pool.free (pool : Pool τ) : Int := if 0 < pool.started then -1 else 0

inductive Turn (τ : Type) where
  | wait
  | leave
  | work (task : τ)

-- What `threadpool_thread` does next when it holds the lock.
def Pool.turn (pool : Pool τ) : Turn τ × Pool τ :=
  if pool.count = 0 ∧ pool.shutdown = .no then (.wait, pool)
  else if pool.shutdown = .immediate ∨ (pool.shutdown = .graceful ∧ pool.count = 0) then (.leave, pool)
  else (.work (pool.queue pool.head), { pool with
    head := (pool.head + 1) % pool.queueSize
    count := pool.count - 1 })

-- Where a thread of the pool is: `lock` also after a wait, since `pthread_cond_wait` takes
-- the lock again before it returns.
inductive Worker (τ : Type) where
  | unborn
  | lock
  | test
  | waiting
  | grabbed (task : τ)
  | running (task : τ)
  | leaving
  | exited

-- Where a thread of the program is that uses the pool.
inductive Caller (τ : Type) where
  | idle
  | adding (task : τ)
  | storing (task : τ)
  | destroying (flags : BitVec 32)
  | stopping (flags : BitVec 32)
  | joining (i : Nat)
  | freeing

-- How far `threadpool_create` is.
inductive Stage where
  | spawning (i : Nat)
  | counting (i : Nat)
  | failed
  | returned
deriving DecidableEq

inductive Thread (n k : Nat) where
  | worker (i : Fin n)
  | caller (c : Fin k)
deriving DecidableEq

-- A pool made for `n` threads, in a program with `k` others. `lock` is who holds it.
structure State (n k : Nat) (τ : Type) where
  pool : Pool τ
  lock : Option (Thread n k)
  workers : Fin n → Worker τ
  callers : Fin k → Caller τ
  stage : Stage
  freed : Bool

variable {n k : Nat}

def State.setWorker (s : State n k τ) (i : Fin n) (w : Worker τ) : State n k τ :=
  { s with workers := Function.update s.workers i w }

def State.setCaller (s : State n k τ) (c : Fin k) (a : Caller τ) : State n k τ :=
  { s with callers := Function.update s.callers c a }

-- `pthread_cond_signal` wakes a waiting thread, if there is one.
inductive Signal (w : Fin n → Worker τ) : (Fin n → Worker τ) → Prop where
  | nobody (h : ∀ i, w i ≠ .waiting) : Signal w w
  | wakes {i : Fin n} (h : w i = .waiting) : Signal w (Function.update w i .lock)

def Worker.woken : Worker τ → Worker τ
  | .waiting => .lock
  | w => w

-- What a step tells the outside.
inductive Event (τ : Type) where
  | quiet
  | called
  | spurious
  | accepted (task : τ)
  | refused (err : Int)
  | grabbed (task : τ)
  | finished (task : τ)
  | destroyed (err : Int)

-- One step of one thread. Between `pthread_mutex_lock` and the unlock the pool is used by one
-- thread only, so that what it does there is one step.
inductive Step (creator : Fin k) (s : State n k τ) : Event τ → State n k τ → Prop where
  | spawn {i : Fin n} (hs : s.stage = .spawning i) :
      Step creator s .quiet { s.setWorker i .lock with stage := .counting i }
  | count {i : Nat} (hs : s.stage = .counting i) :
      Step creator s .quiet { s with
        pool := { s.pool with
          threadCount := s.pool.threadCount + 1
          started := s.pool.started + 1 }
        stage := .spawning (i + 1) }
  | spawnFails {i : Fin n} (hs : s.stage = .spawning i) :
      Step creator s .quiet { s.setCaller creator (.destroying 0) with stage := .failed }
  | created (hs : s.stage = .spawning n) : Step creator s .quiet { s with stage := .returned }
  | callAdd {c : Fin k} (task : τ) (hs : s.stage = .returned) (hf : s.freed = false)
      (hc : s.callers c = .idle) : Step creator s .called (s.setCaller c (.adding task))
  | callDestroy {c : Fin k} (flags : BitVec 32) (hs : s.stage = .returned) (hf : s.freed = false)
      (hc : s.callers c = .idle) : Step creator s .called (s.setCaller c (.destroying flags))
  | addLock {c : Fin k} {task : τ} (hc : s.callers c = .adding task) (hl : s.lock = none)
      (hf : s.freed = false) :
      Step creator s .quiet { s.setCaller c (.storing task) with lock := some (.caller c) }
  | accept {c : Fin k} {task : τ} {pool : Pool τ} {workers : Fin n → Worker τ}
      (hc : s.callers c = .storing task) (hadd : s.pool.add task = (0, pool))
      (hw : Signal s.workers workers) :
      Step creator s (.accepted task) { s.setCaller c .idle with pool, workers, lock := none }
  | refuse {c : Fin k} {task : τ} {pool : Pool τ} {err : Int} (hc : s.callers c = .storing task)
      (hadd : s.pool.add task = (err, pool)) (herr : err ≠ 0) :
      Step creator s (.refused err) { s.setCaller c .idle with pool, lock := none }
  | destroyLock {c : Fin k} {flags : BitVec 32} (hc : s.callers c = .destroying flags)
      (hl : s.lock = none) (hf : s.freed = false) :
      Step creator s .quiet { s.setCaller c (.stopping flags) with lock := some (.caller c) }
  | stop {c : Fin k} {flags : BitVec 32} {pool : Pool τ} (hc : s.callers c = .stopping flags)
      (hdestroy : s.pool.destroy flags = (0, pool)) :
      Step creator s .quiet { s.setCaller c (.joining 0) with
        pool
        workers := fun i => (s.workers i).woken
        lock := none }
  -- the `break` leaves before the unlock
  | stopAgain {c : Fin k} {flags : BitVec 32} {pool : Pool τ} {err : Int}
      (hc : s.callers c = .stopping flags) (hdestroy : s.pool.destroy flags = (err, pool))
      (herr : err ≠ 0) : Step creator s (.destroyed err) { s.setCaller c .idle with pool }
  | join {c : Fin k} {i : Fin n} (hc : s.callers c = .joining i) (hi : i < s.pool.threadCount)
      (hw : s.workers i = .exited) : Step creator s .quiet (s.setCaller c (.joining (i + 1)))
  | joined {c : Fin k} {i : Nat} (hc : s.callers c = .joining i) (hi : ¬i < s.pool.threadCount)
      (hfree : s.pool.free = 0) : Step creator s .quiet (s.setCaller c .freeing)
  | notFreed {c : Fin k} {i : Nat} (hc : s.callers c = .joining i) (hi : ¬i < s.pool.threadCount)
      (hfree : s.pool.free ≠ 0) : Step creator s (.destroyed 0) (s.setCaller c .idle)
  | free {c : Fin k} (hc : s.callers c = .freeing) (hl : s.lock = none) :
      Step creator s (.destroyed 0) { s.setCaller c .idle with
        lock := some (.caller c)
        freed := true }
  | lock {i : Fin n} (hw : s.workers i = .lock) (hl : s.lock = none) :
      Step creator s .quiet { s.setWorker i .test with lock := some (.worker i) }
  | wait {i : Fin n} {pool : Pool τ} (hw : s.workers i = .test) (hturn : s.pool.turn = (.wait, pool)) :
      Step creator s .quiet { s.setWorker i .waiting with pool, lock := none }
  | leave {i : Fin n} {pool : Pool τ} (hw : s.workers i = .test) (hturn : s.pool.turn = (.leave, pool)) :
      Step creator s .quiet { s.setWorker i .leaving with pool }
  | grab {i : Fin n} {task : τ} {pool : Pool τ} (hw : s.workers i = .test)
      (hturn : s.pool.turn = (.work task, pool)) :
      Step creator s (.grabbed task) { s.setWorker i (.grabbed task) with pool }
  | unlock {i : Fin n} {task : τ} (hw : s.workers i = .grabbed task) :
      Step creator s .quiet { s.setWorker i (.running task) with lock := none }
  | finish {i : Fin n} {task : τ} (hw : s.workers i = .running task) :
      Step creator s (.finished task) (s.setWorker i .lock)
  | exit {i : Fin n} (hw : s.workers i = .leaving) :
      Step creator s .quiet { s.setWorker i .exited with
        pool := { s.pool with started := s.pool.started - 1 }
        lock := none }
  | wakeUp {i : Fin n} (hw : s.workers i = .waiting) : Step creator s .spurious (s.setWorker i .lock)

-- `threadpool_create` on its way to the loop that starts the threads.
def State.start (k : Nat) (pool : Pool τ) (threadCount : Int) : State threadCount.toNat k τ where
  pool := pool
  lock := none
  workers _ := .unborn
  callers _ := .idle
  stage := .spawning 0
  freed := false

end Csiebox.ThreadPool
