/-
# The worker pool

Every worker thread has a mutex, a condition variable and three flags.  A controller
hands it one job at a time and waits at the same condition variable, for the worker
to be free, for its job, or for all jobs to be over; the destructor clears
`keepRunning` and notifies the workers without taking their mutexes.

Jobs are numbered in the order in which they are scheduled.  Two moments of the
destructor are critical: a job that has been set and not begun is dropped when
`keepRunning` is cleared, and a notification is lost on a worker that has looked at
`keepRunning` before and is not blocked yet.
-/

import ScaleStore.Lib.Monitor
import ScaleStore.Lib.System
import Mathlib.Data.Fintype.Card
import Mathlib.Data.Fin.Basic
import Mathlib.Logic.Function.Basic
import Mathlib.Tactic.Common

namespace ScaleStore.WorkerPool

variable {n : Nat}

/-! ## Threads -/

/-- The two threads that lock a worker's mutex. -/
inductive Thread where
  | worker
  | controller
deriving DecidableEq, Repr

/-- Where a worker thread is. -/
inductive WorkerPoint where
  /-- At `while (keepRunning)`. -/
  | loop
  | waiting (phase : WaitPhase)
  /-- About to call the job. -/
  | inJob
  /-- The job has returned. -/
  | finish
  | notify
  | unlock
  /-- Behind the loop. -/
  | exiting
  | exited
deriving DecidableEq, Repr

structure WorkerThread where
  mutex : Option Thread
  job : Nat
  wtReady : Bool
  jobSet : Bool
  jobDone : Bool
  point : WorkerPoint
deriving DecidableEq, Repr

/-- What the controller calls. -/
inductive Call (n : Nat) where
  | scheduleJobSync (t_i : Fin n)
  | scheduleJobAsync (t_i : Fin n)
  | joinAll
deriving DecidableEq, Repr

/-- What the controller waits for at a worker. -/
inductive Goal where
  /-- A job is to be scheduled, and waited for if `sync`. -/
  | free (sync : Bool)
  /-- The job is to be done. -/
  | done (job : Nat)
  /-- `joinAll`. -/
  | joined
deriving DecidableEq, Repr

/-- Where the controller is. -/
inductive ControllerPoint (n : Nat) where
  | next
  | waiting (t_i : Fin n) (goal : Goal) (phase : WaitPhase)
  /-- The job has been set. -/
  | unlock (t_i : Fin n) (sync : Bool)
  | notify (t_i : Fin n) (sync : Bool)
  /-- `joinAll` has come to this worker. -/
  | join (t_i : Nat)
  /-- In the destructor, before `keepRunning = false`. -/
  | store
  /-- The destructor has notified the workers before this one. -/
  | signal (t_i : Nat)
  | spin
  | done
deriving DecidableEq, Repr

/-- The pool and its controller. -/
structure State (n : Nat) where
  workers : Fin n → WorkerThread
  keepRunning : Bool
  runningThreads : Nat
  controller : ControllerPoint n
  /-- The calls that are to come. -/
  calls : List (Call n)
  /-- How many jobs have been scheduled. -/
  scheduled : Nat
  /-- The jobs that have run. -/
  ran : List Nat
  /-- The jobs whose `scheduleJobSync` has returned. -/
  syncReturned : List Nat
  /-- The jobs below had been scheduled before a `joinAll` that has returned. -/
  joinReturned : Nat

/-! ## Steps -/

/-- The predicate of the worker's `wait`. -/
def workerPredicate (keepRunning : Bool) (w : WorkerThread) : Prop :=
  keepRunning = false ∨ w.jobSet = true

/-- The predicates of the controller's `wait`s. -/
def Goal.predicate (w : WorkerThread) : Goal → Prop
  | free _ => w.jobSet = false ∧ w.wtReady = true
  | done _ => w.jobDone = true
  | joined => w.wtReady = true ∧ w.jobSet = false

def WorkerPoint.notified : WorkerPoint → WorkerPoint
  | .waiting phase => .waiting phase.notify
  | point => point

/-- `notify_one` by the controller. -/
def WorkerThread.notified (w : WorkerThread) : WorkerThread :=
  { w with point := w.point.notified }

/-- `notify_one` by the worker `t_i`. -/
def ControllerPoint.notified (t_i : Fin n) : ControllerPoint n → ControllerPoint n
  | .waiting i goal phase => .waiting i goal (if i = t_i then phase.notify else phase)
  | point => point

/-- Who makes a step; the two critical moments of the destructor are named. -/
inductive Action (n : Nat) where
  | worker (t_i : Fin n)
  | controller
  | store
  | signal (t_i : Fin n)
  /-- A thread wakes up without having been notified. -/
  | spurious
deriving DecidableEq, Repr

namespace State

variable (s : State n)

def setWorker (t_i : Fin n) (w : WorkerThread) : State n :=
  { s with workers := Function.update s.workers t_i w }

/-- The steps of the worker `t_i`, which now is `w`. -/
inductive WorkerStep (t_i : Fin n) (w : WorkerThread) : State n → Prop where
  | loop : w.point = .loop → s.keepRunning = true →
    WorkerStep t_i w (s.setWorker t_i { w with point := .waiting .locking })
  | loopEnd : w.point = .loop → s.keepRunning = false →
    WorkerStep t_i w (s.setWorker t_i { w with point := .exiting })
  | wait {phase mutex phase'} : w.point = .waiting phase →
    WaitStep .worker (workerPredicate s.keepRunning w) w.mutex phase mutex phase' →
    WorkerStep t_i w (s.setWorker t_i { w with mutex := mutex, point := .waiting phase' })
  /-- `if (!keepRunning) break`. -/
  | break : w.point = .waiting .holding → s.keepRunning = false →
    WorkerStep t_i w (s.setWorker t_i { w with mutex := none, point := .exiting })
  | begin : w.point = .waiting .holding → s.keepRunning = true →
    WorkerStep t_i w (s.setWorker t_i { w with wtReady := false, point := .inJob })
  | job : w.point = .inJob →
    WorkerStep t_i w { s.setWorker t_i { w with point := .finish } with ran := s.ran ++ [w.job] }
  | finish : w.point = .finish →
    WorkerStep t_i w (s.setWorker t_i
      { w with wtReady := true, jobDone := true, jobSet := false, point := .notify })
  | notify : w.point = .notify →
    WorkerStep t_i w { s.setWorker t_i { w with point := .unlock } with
      controller := s.controller.notified t_i }
  | unlock : w.point = .unlock →
    WorkerStep t_i w (s.setWorker t_i { w with mutex := none, point := .loop })
  | exit : w.point = .exiting →
    WorkerStep t_i w { s.setWorker t_i { w with point := .exited } with
      runningThreads := s.runningThreads - 1 }

/-- The steps of the controller. -/
inductive ControllerStep : State n → Prop where
  | schedule {t_i calls} (sync) : s.controller = .next →
    s.calls = (if sync then .scheduleJobSync t_i else .scheduleJobAsync t_i) :: calls →
    ControllerStep { s with calls := calls, controller := .waiting t_i (.free sync) .locking }
  | joinAll {calls} : s.controller = .next → s.calls = .joinAll :: calls →
    ControllerStep { s with calls := calls, controller := .join 0 }
  | wait {t_i goal phase mutex phase'} : s.controller = .waiting t_i goal phase →
    WaitStep .controller (goal.predicate (s.workers t_i)) (s.workers t_i).mutex phase mutex phase' →
    ControllerStep { s.setWorker t_i { s.workers t_i with mutex := mutex } with
      controller := .waiting t_i goal phase' }
  | set {t_i sync} : s.controller = .waiting t_i (.free sync) .holding →
    ControllerStep { s.setWorker t_i
        { s.workers t_i with jobSet := true, jobDone := false, job := s.scheduled } with
      controller := .unlock t_i sync
      scheduled := s.scheduled + 1 }
  | unlock {t_i sync} : s.controller = .unlock t_i sync →
    ControllerStep { s.setWorker t_i { s.workers t_i with mutex := none } with
      controller := .notify t_i sync }
  | notify {t_i sync} : s.controller = .notify t_i sync →
    ControllerStep { s.setWorker t_i (s.workers t_i).notified with
      controller := if sync then .waiting t_i (.done (s.workers t_i).job) .locking else .next }
  | returnSync {t_i job} : s.controller = .waiting t_i (.done job) .holding →
    ControllerStep { s.setWorker t_i { s.workers t_i with mutex := none } with
      controller := .next
      syncReturned := s.syncReturned ++ [job] }
  | join (t_i : Fin n) : s.controller = .join t_i →
    ControllerStep { s with controller := .waiting t_i .joined .locking }
  | joined {t_i : Fin n} : s.controller = .waiting t_i .joined .holding →
    ControllerStep { s.setWorker t_i { s.workers t_i with mutex := none } with
      controller := .join (t_i + 1) }
  | returnJoin : s.controller = .join n →
    ControllerStep { s with controller := .next, joinReturned := s.scheduled }
  | destroy : s.controller = .next → s.calls = [] →
    ControllerStep { s with controller := .store }
  | signalled : s.controller = .signal n → ControllerStep { s with controller := .spin }
  | join' : s.controller = .spin → s.runningThreads = 0 →
    ControllerStep { s with controller := .done }

/-- Runs of the pool with its controller. -/
inductive Step : Action n → State n → Prop where
  | worker {t_i s'} : s.WorkerStep t_i (s.workers t_i) s' → Step (.worker t_i) s'
  | controller {s'} : s.ControllerStep s' → Step .controller s'
  | store : s.controller = .store →
    Step .store { s with keepRunning := false, controller := .signal 0 }
  | signal {t_i : Fin n} : s.controller = .signal t_i →
    Step (.signal t_i) { s.setWorker t_i (s.workers t_i).notified with
      controller := .signal (t_i + 1) }
  | spuriousWorker {t_i : Fin n} : (s.workers t_i).point = .waiting .blocked →
    Step .spurious (s.setWorker t_i { s.workers t_i with point := .waiting .woken })
  | spuriousController {t_i goal} : s.controller = .waiting t_i goal .blocked →
    Step .spurious { s with controller := .waiting t_i goal .woken }

end State

/-- The pool has been built: all threads run, and the controller has not called anything yet. -/
structure Init (s : State n) : Prop where
  workers : ∀ t_i, s.workers t_i = ⟨none, 0, true, false, false, .loop⟩
  keepRunning : s.keepRunning = true
  runningThreads : s.runningThreads = n
  controller : s.controller = .next
  scheduled : s.scheduled = 0
  ran : s.ran = []
  syncReturned : s.syncReturned = []
  joinReturned : s.joinReturned = 0

variable (n) in
/-- The runs whose steps meet a condition on the state before them. -/
def system (good : State n → Action n → Prop) : System (State n) where
  Init := Init
  Step s s' := ∃ action, s.Step action s' ∧ good s action

/-- The critical moments of the destructor: no job has been set whose worker is not past its test
for `keepRunning`, and the worker that is notified is not about to block. -/
def Careful (s : State n) : Action n → Prop
  | .store => ∀ t_i, (s.workers t_i).jobSet = true →
      (s.workers t_i).point = .inJob ∨ (s.workers t_i).point = .finish
  | .signal t_i => (s.workers t_i).point ≠ .waiting .releasing
  | .worker _ | .controller | .spurious => True

/-- The destructor has sent its notification to the worker. -/
def ControllerPoint.signalled (t_i : Fin n) : ControllerPoint n → Bool
  | .signal i => t_i < i
  | .spin | .done => true
  | .next | .waiting .. | .unlock .. | .notify .. | .join _ | .store => false

/-- Jobs run once, calls return when they should, and nobody waits for nothing. -/
structure Correct (s : State n) : Prop where
  once : s.ran.Nodup ∧ ∀ job ∈ s.ran, job < s.scheduled
  all : s.controller = .done → ∀ job, job < s.scheduled → job ∈ s.ran
  sync : ∀ job ∈ s.syncReturned, job ∈ s.ran
  join : ∀ job, job < s.joinReturned → job ∈ s.ran
  shutdown : ∀ t_i, s.controller.signalled t_i = true → s.keepRunning = false ∧
    (s.workers t_i).point ≠ .waiting .blocked
  /-- Until the destructor has returned, some thread can go on without waking up spuriously. -/
  progress : s.controller ≠ .done → ∃ action s', action ≠ .spurious ∧ s.Step action s'

/-! ## One worker and what the controller does with it -/

/-- What the controller does with one of the workers. -/
inductive View where
  | away
  | waiting (goal : Goal) (phase : WaitPhase)
  | unlock
  | notify
deriving DecidableEq, Repr

def View.hasMutex : View → Bool
  | .waiting _ phase => phase.hasMutex
  | .unlock => true
  | .away | .notify => false

/-- The worker notifies the controller. -/
def View.notified : View → View
  | .waiting goal phase => .waiting goal phase.notify
  | view => view

def WorkerPoint.hasMutex : WorkerPoint → Bool
  | .waiting phase => phase.hasMutex
  | .inJob | .finish | .notify | .unlock => true
  | .loop | .exiting | .exited => false

/-- The job has passed the test for `keepRunning` and has not been marked as done. -/
def WorkerPoint.Busy (point : WorkerPoint) : Prop := point = .inJob ∨ point = .finish

/-- What holds of a worker, where `view` says what the controller does with it and `signalled`
whether the destructor has notified it. -/
structure Local (keepRunning : Bool) (ran : List Nat) (scheduled : Nat) (view : View)
    (signalled : Bool) (w : WorkerThread) : Prop where
  worker_mutex : w.mutex = some .worker ↔ w.point.hasMutex = true
  controller_mutex : w.mutex = some .controller ↔ view.hasMutex = true
  busy : w.point.Busy → w.jobSet = true
  ready : w.wtReady = false → w.point.Busy
  called : w.point = .waiting .holding → keepRunning = false ∨ w.jobSet = true
  pending : w.jobSet = true → w.job < scheduled ∧ (w.job ∈ ran ↔ w.point = .finish)
  done : w.jobDone = true → w.job ∈ ran
  free : ∀ sync, view = .waiting (.free sync) .holding → w.jobSet = false
  wants : ∀ job phase, view = .waiting (.done job) phase →
    w.job = job ∧ (w.jobDone = true ∨ w.jobSet = true)
  set : view = .unlock ∨ view = .notify → w.jobDone = true ∨ w.jobSet = true
  result : ∀ job, view = .waiting (.done job) .holding → w.jobDone = true
  joined : view = .waiting .joined .holding → w.jobSet = false
  closed : keepRunning = false → view = .away
  closing : signalled = true → keepRunning = false
  stopped : keepRunning = false → w.jobSet = true → w.point.Busy
  exits : w.point = .exiting ∨ w.point = .exited → keepRunning = false
  signalled : signalled = true → w.point ≠ .waiting .releasing ∧ w.point ≠ .waiting .blocked
  worker_releasing : w.point = .waiting .releasing → w.jobSet = false
  worker_blocked : w.point = .waiting .blocked → w.jobSet = false ∨ view = .unlock ∨ view = .notify
  controller_releasing : ∀ goal, view = .waiting goal .releasing → ¬ goal.predicate w
  controller_blocked : ∀ goal, view = .waiting goal .blocked →
    ¬ goal.predicate w ∨ w.point = .notify

section Local

variable {keepRunning : Bool} {ran : List Nat} {scheduled : Nat} {view : View} {signalled : Bool}
  {w : WorkerThread}

theorem Local.init : Local true [] 0 .away false ⟨none, 0, true, false, false, .loop⟩ := by
  constructor <;> simp [WorkerPoint.hasMutex, View.hasMutex, WorkerPoint.Busy]

/-! ### Steps of the worker -/

/-- What a worker knows when it comes to a point outside its job. -/
def Arrives (keepRunning : Bool) (view : View) (signalled : Bool) (w : WorkerThread) :
    WorkerPoint → Prop
  | .waiting .holding => keepRunning = false ∨ w.jobSet = true
  | .waiting .releasing => w.jobSet = false ∧ signalled = false
  | .waiting .blocked => (w.jobSet = false ∨ view = .unlock ∨ view = .notify) ∧ signalled = false
  | .exiting | .exited => keepRunning = false
  | .loop | .unlock | .waiting .locking | .waiting .testing | .waiting .woken => True
  | .inJob | .finish | .notify => False

/-- Outside its job a worker changes its point and the mutex only. -/
theorem Local.movePoint (h : Local keepRunning ran scheduled view signalled w)
    {mutex : Option Thread} {p : WorkerPoint} (hbusy : ¬ w.point.Busy)
    (hnotify : w.point = .notify → ∀ goal, view ≠ .waiting goal .blocked)
    (hp : Arrives keepRunning view signalled w p)
    (hworker : mutex = some .worker ↔ p.hasMutex = true)
    (hcontroller : mutex = some .controller ↔ w.mutex = some .controller) :
    Local keepRunning ran scheduled view signalled { w with mutex := mutex, point := p } := by
  have hbusy' : ¬ p.Busy := by rintro (rfl | rfl) <;> exact hp
  have hreleasing : p = .waiting .releasing → w.jobSet = false ∧ signalled = false := by
    rintro rfl
    exact hp
  have hblocked : p = .waiting .blocked →
      (w.jobSet = false ∨ view = .unlock ∨ view = .notify) ∧ signalled = false := by
    rintro rfl
    exact hp
  exact { h with
    worker_mutex := hworker
    controller_mutex := hcontroller.trans h.controller_mutex
    busy := fun hb => absurd hb hbusy'
    ready := fun hr => absurd (h.ready hr) hbusy
    called := fun (hq : p = _) => by subst hq; exact hp
    pending := fun hs => ⟨(h.pending hs).1, (h.pending hs).2.trans
      ⟨fun hq => absurd (.inr hq) hbusy, fun hq => absurd (.inr hq) hbusy'⟩⟩
    stopped := fun hk hs => absurd (h.stopped hk hs) hbusy
    exits := fun (hq : p = _ ∨ p = _) => by rcases hq with rfl | rfl <;> exact hp
    signalled := fun hs => ⟨fun hq => absurd hs (by simp [(hreleasing hq).2]),
      fun hq => absurd hs (by simp [(hblocked hq).2])⟩
    worker_releasing := fun hq => (hreleasing hq).1
    worker_blocked := fun hq => (hblocked hq).1
    controller_blocked := fun goal hv =>
      (h.controller_blocked goal hv).imp_right fun hq => absurd hv (hnotify hq goal) }

/-- The mutex stays as it is. -/
theorem Local.goTo (h : Local keepRunning ran scheduled view signalled w) {p : WorkerPoint}
    (hbusy : ¬ w.point.Busy) (hnotify : w.point = .notify → ∀ goal, view ≠ .waiting goal .blocked)
    (hp : Arrives keepRunning view signalled w p) (hmutex : p.hasMutex = w.point.hasMutex) :
    Local keepRunning ran scheduled view signalled { w with point := p } :=
  h.movePoint hbusy hnotify hp (hmutex ▸ h.worker_mutex) Iff.rfl

/-- The mutex is given up. -/
theorem Local.releaseTo (h : Local keepRunning ran scheduled view signalled w) {p : WorkerPoint}
    (hbusy : ¬ w.point.Busy) (hnotify : w.point ≠ .notify)
    (hp : Arrives keepRunning view signalled w p) (hmutex : w.point.hasMutex = true)
    (hmutex' : p.hasMutex = false) :
    Local keepRunning ran scheduled view signalled { w with mutex := none, point := p } := by
  have howner : w.mutex = some .worker := h.worker_mutex.mpr hmutex
  exact h.movePoint hbusy (absurd · hnotify) hp (by simp [hmutex']) (by simp [howner])

theorem Local.loop (h : Local keepRunning ran scheduled view signalled w)
    (hp : w.point = .loop) :
    Local keepRunning ran scheduled view signalled { w with point := .waiting .locking } :=
  h.goTo (by simp [hp, WorkerPoint.Busy]) (by simp [hp]) trivial (by rw [hp]; rfl)

theorem Local.loopEnd (h : Local keepRunning ran scheduled view signalled w)
    (hp : w.point = .loop) (hk : keepRunning = false) :
    Local keepRunning ran scheduled view signalled { w with point := .exiting } :=
  h.goTo (by simp [hp, WorkerPoint.Busy]) (by simp [hp]) hk (by rw [hp]; rfl)

theorem Local.workerLock (h : Local keepRunning ran scheduled view signalled w)
    (hp : w.point = .waiting .locking ∨ w.point = .waiting .woken) (hm : w.mutex = none) :
    Local keepRunning ran scheduled view signalled
      { w with mutex := some .worker, point := .waiting .testing } := by
  refine h.movePoint ?_ ?_ trivial ?_ ?_
  · rcases hp with hp | hp <;> simp [hp, WorkerPoint.Busy]
  · rcases hp with hp | hp <;> simp [hp]
  · simp [WorkerPoint.hasMutex, WaitPhase.hasMutex]
  · simp [hm]

theorem Local.workerPass (h : Local keepRunning ran scheduled view signalled w)
    (hp : w.point = .waiting .testing) (htrue : workerPredicate keepRunning w) :
    Local keepRunning ran scheduled view signalled { w with point := .waiting .holding } :=
  h.goTo (by simp [hp, WorkerPoint.Busy]) (by simp [hp]) htrue (by rw [hp]; rfl)

/-- A worker whose predicate is false has not been told to stop. -/
theorem Local.workerFail (h : Local keepRunning ran scheduled view signalled w)
    (hp : w.point = .waiting .testing) (hfalse : ¬ workerPredicate keepRunning w) :
    Local keepRunning ran scheduled view signalled { w with point := .waiting .releasing } := by
  obtain ⟨hk, hset⟩ := not_or.mp hfalse
  have hsignalled : signalled = false := Bool.eq_false_iff.mpr fun hs => hk (h.closing hs)
  exact h.goTo (by simp [hp, WorkerPoint.Busy]) (by simp [hp])
    ⟨Bool.eq_false_iff.mpr hset, hsignalled⟩ (by rw [hp]; rfl)

theorem Local.workerBlock (h : Local keepRunning ran scheduled view signalled w)
    (hp : w.point = .waiting .releasing) :
    Local keepRunning ran scheduled view signalled
      { w with mutex := none, point := .waiting .blocked } := by
  have hsignalled : signalled = false := Bool.eq_false_iff.mpr fun hs => (h.signalled hs).1 hp
  exact h.releaseTo (by simp [hp, WorkerPoint.Busy]) (by simp [hp])
    ⟨.inl (h.worker_releasing hp), hsignalled⟩ (by rw [hp]; rfl) rfl

theorem Local.workerWait (h : Local keepRunning ran scheduled view signalled w)
    {phase phase' : WaitPhase} {mutex : Option Thread} (hp : w.point = .waiting phase)
    (hs : WaitStep .worker (workerPredicate keepRunning w) w.mutex phase mutex phase') :
    Local keepRunning ran scheduled view signalled
      { w with mutex := mutex, point := .waiting phase' } := by
  generalize hm : w.mutex = owner at hs
  cases hs with
  | lock => exact h.workerLock (.inl hp) hm
  | relock => exact h.workerLock (.inr hp) hm
  | pass htrue => exact hm ▸ h.workerPass hp htrue
  | fail hfalse => exact hm ▸ h.workerFail hp hfalse
  | block => exact h.workerBlock hp

theorem Local.break (h : Local keepRunning ran scheduled view signalled w)
    (hp : w.point = .waiting .holding) (hk : keepRunning = false) :
    Local keepRunning ran scheduled view signalled { w with mutex := none, point := .exiting } :=
  h.releaseTo (by simp [hp, WorkerPoint.Busy]) (by simp [hp]) hk (by rw [hp]; rfl) rfl

/-- The predicate was true and `keepRunning` still is, so there is a job. -/
theorem Local.begin (h : Local keepRunning ran scheduled view signalled w)
    (hp : w.point = .waiting .holding) (hk : keepRunning = true) :
    Local keepRunning ran scheduled view signalled
      { w with wtReady := false, point := .inJob } := by
  have hset : w.jobSet = true := (h.called hp).resolve_left (by simp [hk])
  have hpredicate : ∀ goal : Goal, goal.predicate { w with wtReady := false, point := .inJob } →
      goal.predicate w := by
    intro goal
    cases goal <;> simp [Goal.predicate]
  exact { h with
    worker_mutex := h.worker_mutex.trans (by simp [hp, WorkerPoint.hasMutex, WaitPhase.hasMutex])
    busy := fun _ => hset
    ready := fun _ => .inl rfl
    called := nofun
    pending := fun hs => ⟨(h.pending hs).1, (h.pending hs).2.trans (by simp [hp])⟩
    stopped := fun hk' => absurd hk' (by simp [hk])
    exits := by simp
    signalled := fun _ => ⟨nofun, nofun⟩
    worker_releasing := nofun
    worker_blocked := nofun
    controller_releasing := fun goal hv => mt (hpredicate goal) (h.controller_releasing goal hv)
    controller_blocked := fun goal hv =>
      (h.controller_blocked goal hv).imp (mt (hpredicate goal)) (by simp [hp]) }

theorem Local.job (h : Local keepRunning ran scheduled view signalled w)
    (hp : w.point = .inJob) :
    Local keepRunning (ran ++ [w.job]) scheduled view signalled { w with point := .finish } := by
  have hset : w.jobSet = true := h.busy (.inl hp)
  exact { h with
    worker_mutex := h.worker_mutex.trans (by simp [hp, WorkerPoint.hasMutex])
    busy := fun _ => hset
    ready := fun _ => .inr rfl
    called := nofun
    pending := fun hs => ⟨(h.pending hs).1, by simp⟩
    done := fun hd => List.mem_append_left _ (h.done hd)
    stopped := fun _ _ => .inr rfl
    exits := by simp
    signalled := fun _ => ⟨nofun, nofun⟩
    worker_releasing := nofun
    worker_blocked := nofun
    controller_blocked := fun goal hv => (h.controller_blocked goal hv).imp_right (by simp [hp]) }

/-- The worker holds the mutex until it has notified the controller, so the controller is not
about to block on what was true before. -/
theorem Local.finish (h : Local keepRunning ran scheduled view signalled w)
    (hp : w.point = .finish) :
    Local keepRunning ran scheduled view signalled
      { w with wtReady := true, jobDone := true, jobSet := false, point := .notify } := by
  have hset : w.jobSet = true := h.busy (.inr hp)
  have hran : w.job ∈ ran := (h.pending hset).2.mpr hp
  have howner : w.mutex = some .worker := h.worker_mutex.mpr (by simp [hp, WorkerPoint.hasMutex])
  have hview : view.hasMutex = false :=
    Bool.eq_false_iff.mpr fun hv => absurd (h.controller_mutex.mpr hv) (by simp [howner])
  exact { h with
    worker_mutex := h.worker_mutex.trans (by simp [hp, WorkerPoint.hasMutex])
    busy := by simp [WorkerPoint.Busy]
    ready := nofun
    called := nofun
    pending := nofun
    done := fun _ => hran
    free := fun _ _ => rfl
    wants := fun job phase hv => ⟨(h.wants job phase hv).1, .inl rfl⟩
    set := fun _ => .inl rfl
    result := fun _ _ => rfl
    joined := fun _ => rfl
    stopped := nofun
    exits := by simp
    signalled := fun _ => ⟨nofun, nofun⟩
    worker_releasing := nofun
    worker_blocked := nofun
    controller_releasing := fun goal hv =>
      absurd hview (by simp [hv, View.hasMutex, WaitPhase.hasMutex])
    controller_blocked := fun _ _ => .inr rfl }

theorem Local.notify (h : Local keepRunning ran scheduled view signalled w)
    (hp : w.point = .notify) (hv : ∀ goal, view ≠ .waiting goal .blocked) :
    Local keepRunning ran scheduled view signalled { w with point := .unlock } :=
  h.goTo (by simp [hp, WorkerPoint.Busy]) (fun _ => hv) trivial (by rw [hp]; rfl)

theorem Local.unlock (h : Local keepRunning ran scheduled view signalled w)
    (hp : w.point = .unlock) :
    Local keepRunning ran scheduled view signalled { w with mutex := none, point := .loop } :=
  h.releaseTo (by simp [hp, WorkerPoint.Busy]) (by simp [hp]) trivial (by rw [hp]; rfl) rfl

theorem Local.exit (h : Local keepRunning ran scheduled view signalled w)
    (hp : w.point = .exiting) :
    Local keepRunning ran scheduled view signalled { w with point := .exited } :=
  h.goTo (by simp [hp, WorkerPoint.Busy]) (by simp [hp]) (h.exits (.inl hp)) (by rw [hp]; rfl)

theorem Local.wake (h : Local keepRunning ran scheduled view signalled w)
    (hp : w.point = .waiting .blocked) :
    Local keepRunning ran scheduled view signalled { w with point := .waiting .woken } :=
  h.goTo (by simp [hp, WorkerPoint.Busy]) (by simp [hp]) trivial (by rw [hp]; rfl)

/-! ### Steps of the controller -/

/-- What the controller knows in a phase of its `wait` for a goal. -/
structure Expects (goal : Goal) (phase : WaitPhase) (w : WorkerThread) : Prop where
  wants : ∀ job, goal = .done job → w.job = job ∧ (w.jobDone = true ∨ w.jobSet = true)
  granted : phase = .holding → match goal with
    | .free _ | .joined => w.jobSet = false
    | .done _ => w.jobDone = true
  releasing : phase = .releasing → ¬ goal.predicate w
  blocked : phase = .blocked → ¬ goal.predicate w ∨ w.point = .notify

/-- What the controller knows about a worker when it comes to a view. -/
def View.Knows (keepRunning : Bool) (w : WorkerThread) : View → Prop
  | .away => w.point = .waiting .blocked → w.jobSet = false
  | .waiting goal phase => keepRunning = true ∧ Expects goal phase w ∧
      (w.point = .waiting .blocked → w.jobSet = false)
  | .unlock | .notify => keepRunning = true ∧ (w.jobDone = true ∨ w.jobSet = true)

/-- Between two jobs the controller changes its view and the mutex only. -/
theorem Local.moveView (h : Local keepRunning ran scheduled view signalled w)
    {mutex : Option Thread} {view' : View} (hknows : view'.Knows keepRunning w)
    (hcontroller : mutex = some .controller ↔ view'.hasMutex = true)
    (hworker : mutex = some .worker ↔ w.mutex = some .worker) :
    Local keepRunning ran scheduled view' signalled { w with mutex := mutex } := by
  have hexpects : ∀ goal phase, view' = .waiting goal phase → Expects goal phase w := by
    rintro goal phase rfl
    exact hknows.2.1
  exact { h with
    worker_mutex := hworker.trans h.worker_mutex
    controller_mutex := hcontroller
    free := fun sync hv => (hexpects _ _ hv).granted rfl
    wants := fun job phase hv => (hexpects _ _ hv).wants job rfl
    set := by rintro (rfl | rfl) <;> exact hknows.2
    result := fun job hv => (hexpects _ _ hv).granted rfl
    joined := fun hv => (hexpects _ _ hv).granted rfl
    closed := fun hk => by
      cases view' with
      | away => rfl
      | waiting | unlock | notify => exact absurd hk (by simp [hknows.1])
    worker_blocked := fun hp => by
      cases view' with
      | away => exact .inl (hknows hp)
      | waiting goal phase => exact .inl (hknows.2.2 hp)
      | unlock => exact .inr (.inl rfl)
      | notify => exact .inr (.inr rfl)
    controller_releasing := fun goal hv => (hexpects _ _ hv).releasing rfl
    controller_blocked := fun goal hv => (hexpects _ _ hv).blocked rfl }

/-- The controller deals with a worker only while the pool runs. -/
theorem Local.running (h : Local keepRunning ran scheduled view signalled w)
    (hv : view ≠ .away) : keepRunning = true := by
  cases keepRunning with
  | true => rfl
  | false => exact absurd (h.closed rfl) hv

theorem Local.expects (h : Local keepRunning ran scheduled view signalled w) {goal : Goal}
    {phase : WaitPhase} (hv : view = .waiting goal phase) :
    Expects goal phase w ∧ (w.point = .waiting .blocked → w.jobSet = false) := by
  subst hv
  refine ⟨⟨?_, ?_, ?_, ?_⟩, fun hp => (h.worker_blocked hp).resolve_right (by simp)⟩
  · rintro job rfl
    exact h.wants job phase rfl
  · rintro rfl
    cases goal with
    | free sync => exact h.free sync rfl
    | done job => exact h.result job rfl
    | joined => exact h.joined rfl
  · rintro rfl
    exact h.controller_releasing goal rfl
  · rintro rfl
    exact h.controller_blocked goal rfl

/-- Another phase of the same `wait`. -/
theorem Local.movePhase (h : Local keepRunning ran scheduled view signalled w)
    {goal : Goal} {phase phase' : WaitPhase} {mutex : Option Thread}
    (hv : view = .waiting goal phase) (hexpects : Expects goal phase' w)
    (hcontroller : mutex = some .controller ↔ phase'.hasMutex = true)
    (hworker : mutex = some .worker ↔ w.mutex = some .worker) :
    Local keepRunning ran scheduled (.waiting goal phase') signalled { w with mutex := mutex } :=
  h.moveView ⟨h.running (by simp [hv]), hexpects, (h.expects hv).2⟩ hcontroller hworker

theorem Local.approach (h : Local keepRunning ran scheduled view signalled w)
    {goal : Goal} (hv : view = .away) (hgoal : ∀ job, goal ≠ .done job)
    (hk : keepRunning = true) :
    Local keepRunning ran scheduled (.waiting goal .locking) signalled w := by
  have hexpects : Expects goal .locking w :=
    ⟨fun job hj => absurd hj (hgoal job), nofun, nofun, nofun⟩
  refine h.moveView ⟨hk, hexpects, fun hp => (h.worker_blocked hp).resolve_right (by simp [hv])⟩
    ?_ Iff.rfl
  rw [h.controller_mutex, hv]
  simp [View.hasMutex, WaitPhase.hasMutex]

theorem Local.controllerLock (h : Local keepRunning ran scheduled view signalled w)
    {goal : Goal} (hv : view = .waiting goal .locking ∨ view = .waiting goal .woken)
    (hm : w.mutex = none) :
    Local keepRunning ran scheduled (.waiting goal .testing) signalled
      { w with mutex := some .controller } := by
  obtain ⟨phase, hv⟩ : ∃ phase, view = .waiting goal phase := hv.elim (⟨_, ·⟩) (⟨_, ·⟩)
  exact h.movePhase hv ⟨(h.expects hv).1.wants, nofun, nofun, nofun⟩
    (by simp [WaitPhase.hasMutex]) (by simp [hm])

theorem Local.controllerPass (h : Local keepRunning ran scheduled view signalled w)
    {goal : Goal} (hv : view = .waiting goal .testing) (htrue : goal.predicate w) :
    Local keepRunning ran scheduled (.waiting goal .holding) signalled w := by
  refine h.movePhase hv ⟨(h.expects hv).1.wants, fun _ => ?_, nofun, nofun⟩ ?_ Iff.rfl
  · cases goal with
    | free sync => exact htrue.1
    | done job => exact htrue
    | joined => exact htrue.2
  · rw [h.controller_mutex, hv]
    rfl

theorem Local.controllerFail (h : Local keepRunning ran scheduled view signalled w)
    {goal : Goal} (hv : view = .waiting goal .testing) (hfalse : ¬ goal.predicate w) :
    Local keepRunning ran scheduled (.waiting goal .releasing) signalled w := by
  refine h.movePhase hv ⟨(h.expects hv).1.wants, nofun, fun _ => hfalse, nofun⟩ ?_ Iff.rfl
  rw [h.controller_mutex, hv]
  rfl

theorem Local.controllerBlock (h : Local keepRunning ran scheduled view signalled w)
    {goal : Goal} (hv : view = .waiting goal .releasing) :
    Local keepRunning ran scheduled (.waiting goal .blocked) signalled
      { w with mutex := none } := by
  have howner : w.mutex = some .controller := h.controller_mutex.mpr (by rw [hv]; rfl)
  obtain ⟨hexpects, -⟩ := h.expects hv
  exact h.movePhase hv ⟨hexpects.wants, nofun, nofun, fun _ => .inl (hexpects.releasing rfl)⟩
    (by simp [WaitPhase.hasMutex]) (by simp [howner])

theorem Local.controllerWait (h : Local keepRunning ran scheduled view signalled w)
    {goal : Goal} {phase phase' : WaitPhase} {mutex : Option Thread}
    (hv : view = .waiting goal phase)
    (hs : WaitStep .controller (goal.predicate w) w.mutex phase mutex phase') :
    Local keepRunning ran scheduled (.waiting goal phase') signalled
      { w with mutex := mutex } := by
  generalize hm : w.mutex = owner at hs
  cases hs with
  | lock => exact h.controllerLock (.inl hv) hm
  | relock => exact h.controllerLock (.inr hv) hm
  | pass htrue => exact hm ▸ h.controllerPass hv htrue
  | fail hfalse => exact hm ▸ h.controllerFail hv hfalse
  | block => exact h.controllerBlock hv

/-- A job is set while the worker has none; the worker may be blocked, and will be notified. -/
theorem Local.setJob (h : Local keepRunning ran scheduled view signalled w)
    {sync : Bool} (hv : view = .waiting (.free sync) .holding)
    (hran : ∀ job ∈ ran, job < scheduled) :
    Local keepRunning ran (scheduled + 1) .unlock signalled
      { w with jobSet := true, jobDone := false, job := scheduled } := by
  have hk : keepRunning = true := h.running (by simp [hv])
  have hfree : w.jobSet = false := h.free sync hv
  have hbusy : ¬ w.point.Busy := fun hb => absurd (h.busy hb) (by simp [hfree])
  have hcontroller : w.mutex = some .controller := h.controller_mutex.mpr (by rw [hv]; rfl)
  have hpoint : w.point.hasMutex = false :=
    Bool.eq_false_iff.mpr fun hp => absurd (h.worker_mutex.mpr hp) (by simp [hcontroller])
  exact { h with
    controller_mutex := by simp [hcontroller, View.hasMutex]
    busy := fun _ => rfl
    called := fun _ => .inr rfl
    pending := fun _ => ⟨Nat.lt_succ_self _, fun hmem => absurd (hran _ hmem) (Nat.lt_irrefl _),
      fun hp => absurd (.inr hp) hbusy⟩
    done := nofun
    free := nofun
    wants := nofun
    set := fun _ => .inr rfl
    result := nofun
    joined := nofun
    closed := fun hk' => absurd hk' (by simp [hk])
    stopped := fun hk' => absurd hk' (by simp [hk])
    worker_releasing := fun (hp : w.point = _) =>
      absurd hpoint (by simp [hp, WorkerPoint.hasMutex, WaitPhase.hasMutex])
    worker_blocked := fun _ => .inr (.inl rfl)
    controller_releasing := nofun
    controller_blocked := nofun }

theorem Local.controllerUnlock (h : Local keepRunning ran scheduled view signalled w)
    (hv : view = .unlock) :
    Local keepRunning ran scheduled .notify signalled { w with mutex := none } := by
  have howner : w.mutex = some .controller := h.controller_mutex.mpr (by rw [hv]; rfl)
  exact h.moveView ⟨h.running (by simp [hv]), h.set (.inl hv)⟩ (by simp [View.hasMutex])
    (by simp [howner])

theorem Local.sendSync (h : Local keepRunning ran scheduled view signalled w)
    (hv : view = .notify) (hp : w.point ≠ .waiting .blocked) :
    Local keepRunning ran scheduled (.waiting (.done w.job) .locking) signalled w := by
  have hexpects : Expects (.done w.job) .locking w :=
    ⟨fun job hj => ⟨Goal.done.inj hj, h.set (.inr hv)⟩, nofun, nofun, nofun⟩
  refine h.moveView ⟨h.running (by simp [hv]), hexpects, (absurd · hp)⟩ ?_ Iff.rfl
  rw [h.controller_mutex, hv]
  simp [View.hasMutex, WaitPhase.hasMutex]

theorem Local.sendAsync (h : Local keepRunning ran scheduled view signalled w)
    (hv : view = .notify) (hp : w.point ≠ .waiting .blocked) :
    Local keepRunning ran scheduled .away signalled w := by
  refine h.moveView (absurd · hp) ?_ Iff.rfl
  rw [h.controller_mutex, hv]
  simp [View.hasMutex]

theorem Local.leave (h : Local keepRunning ran scheduled view signalled w)
    {goal : Goal} (hv : view = .waiting goal .holding) :
    Local keepRunning ran scheduled .away signalled { w with mutex := none } := by
  have howner : w.mutex = some .controller := h.controller_mutex.mpr (by rw [hv]; rfl)
  exact h.moveView (h.expects hv).2 (by simp [View.hasMutex]) (by simp [howner])

theorem Local.wakeController (h : Local keepRunning ran scheduled view signalled w)
    {goal : Goal} (hv : view = .waiting goal .blocked) :
    Local keepRunning ran scheduled (.waiting goal .woken) signalled w := by
  refine h.movePhase hv ⟨(h.expects hv).1.wants, nofun, nofun, nofun⟩ ?_ Iff.rfl
  rw [h.controller_mutex, hv]
  simp [View.hasMutex, WaitPhase.hasMutex]

/-! ### Steps of the destructor -/

theorem Local.store (h : Local keepRunning ran scheduled view signalled w)
    (hv : view = .away) (hstop : w.jobSet = true → w.point.Busy) :
    Local false ran scheduled view signalled w :=
  { h with
    called := fun _ => .inl rfl
    closed := fun _ => hv
    closing := fun _ => rfl
    stopped := fun _ => hstop
    exits := fun _ => rfl }

theorem Local.signal (h : Local keepRunning ran scheduled view signalled w)
    (hk : keepRunning = false) (hreleasing : w.point ≠ .waiting .releasing)
    (hblocked : w.point ≠ .waiting .blocked) :
    Local keepRunning ran scheduled view true w :=
  { h with
    closing := fun _ => hk
    signalled := fun _ => ⟨hreleasing, hblocked⟩ }

/-! ### Notifications, and steps of others -/

theorem Local.notified (h : Local keepRunning ran scheduled view signalled w) :
    Local keepRunning ran scheduled view signalled w.notified ∧
      w.notified.point ≠ .waiting .blocked := by
  by_cases hp : w.point = .waiting .blocked
  · have heq : w.notified = { w with point := .waiting .woken } := by
      rw [WorkerThread.notified, hp]
      rfl
    rw [heq]
    exact ⟨h.wake hp, nofun⟩
  · have heq : w.notified = w := by
      rw [WorkerThread.notified]
      cases hpoint : w.point with
      | waiting phase =>
        cases phase with
        | blocked => exact absurd hpoint hp
        | _ => simp [WorkerPoint.notified, WaitPhase.notify, ← hpoint]
      | _ => simp [WorkerPoint.notified, ← hpoint]
    rw [heq]
    exact ⟨h, hp⟩

theorem Local.notifiedController (h : Local keepRunning ran scheduled view signalled w) :
    Local keepRunning ran scheduled view.notified signalled w ∧
      ∀ goal, view.notified ≠ .waiting goal .blocked := by
  cases view with
  | waiting goal phase =>
    cases phase with
    | blocked => exact ⟨h.wakeController rfl, nofun⟩
    | _ => exact ⟨h, nofun⟩
  | _ => exact ⟨h, nofun⟩

/-- Jobs of other workers do not count. -/
theorem Local.othersRan (h : Local keepRunning ran scheduled view signalled w)
    {job : Nat} (hne : w.jobSet = true → w.job ≠ job) :
    Local keepRunning (ran ++ [job]) scheduled view signalled w :=
  { h with
    pending := fun hs => ⟨(h.pending hs).1, by simpa [hne hs] using (h.pending hs).2⟩
    done := fun hd => List.mem_append_left _ (h.done hd) }

theorem Local.othersScheduled (h : Local keepRunning ran scheduled view signalled w) :
    Local keepRunning ran (scheduled + 1) view signalled w :=
  { h with pending := fun hs => ⟨Nat.lt_succ_of_lt (h.pending hs).1, (h.pending hs).2⟩ }

end Local

/-! ## The invariant -/

namespace ControllerPoint

variable (t_i : Fin n)

def view : ControllerPoint n → View
  | waiting i goal phase => if i = t_i then .waiting goal phase else .away
  | unlock i _ => if i = t_i then .unlock else .away
  | notify i _ => if i = t_i then .notify else .away
  | next | join _ | store | signal _ | spin | done => .away

/-- The destructor has cleared `keepRunning`. -/
def closing : ControllerPoint n → Bool
  | signal _ | spin | done => true
  | next | waiting .. | unlock .. | notify .. | join _ | store => false

/-- How many workers `joinAll` has passed. -/
def passed : ControllerPoint n → Nat
  | join i => i
  | waiting i .joined _ => i
  | waiting _ (.free _) _ | waiting _ (.done _) _ | next | unlock .. | notify .. | store
  | signal _ | spin | done => 0

end ControllerPoint

structure Inv (s : State n) : Prop where
  workers : ∀ i, Local s.keepRunning s.ran s.scheduled (s.controller.view i)
    (s.controller.signalled i) (s.workers i)
  distinct : ∀ i j, (s.workers i).jobSet = true → (s.workers j).jobSet = true →
    (s.workers i).job = (s.workers j).job → i = j
  nodup : s.ran.Nodup
  ran_lt : ∀ job ∈ s.ran, job < s.scheduled
  accounted : ∀ job, job < s.scheduled →
    job ∈ s.ran ∨ ∃ i, (s.workers i).jobSet = true ∧ (s.workers i).job = job
  passed : ∀ i : Fin n, i < s.controller.passed → (s.workers i).jobSet = false
  closing : s.keepRunning = false ↔ s.controller.closing = true
  running : s.runningThreads =
    (Finset.univ.filter fun i => (s.workers i).point ≠ .exited).card
  sync : ∀ job ∈ s.syncReturned, job ∈ s.ran
  join : ∀ job, job < s.joinReturned → job ∈ s.ran

section Global

variable {s s' : State n} {t_i : Fin n} {w : WorkerThread}

theorem Init.inv (h : Init s) : Inv s where
  workers i := by
    rw [h.keepRunning, h.ran, h.scheduled, h.controller, h.workers]
    exact Local.init
  distinct i j hi := by rw [h.workers] at hi; cases hi
  nodup := by rw [h.ran]; exact List.nodup_nil
  ran_lt := by rw [h.ran]; exact fun _ hj => nomatch hj
  accounted job hj := by rw [h.scheduled] at hj; exact absurd hj (Nat.not_lt_zero _)
  passed i hi := by rw [h.workers]
  closing := by rw [h.keepRunning, h.controller]; simp [ControllerPoint.closing]
  running := by
    rw [h.runningThreads, Finset.filter_true_of_mem, Finset.card_univ, Fintype.card_fin]
    intro i _
    rw [h.workers]
    nofun
  sync := by rw [h.syncReturned]; exact fun _ hj => nomatch hj
  join job hj := by rw [h.joinReturned] at hj; exact absurd hj (Nat.not_lt_zero _)

theorem running_update (h : w.point = .exited ↔ (s.workers t_i).point = .exited) :
    (Finset.univ.filter fun i => (Function.update s.workers t_i w i).point ≠ .exited) =
      Finset.univ.filter fun i => (s.workers i).point ≠ .exited := by
  refine Finset.filter_congr fun i _ => ?_
  by_cases hi : i = t_i
  · subst hi
    rw [Function.update_self, ne_eq, h]
  · rw [Function.update_of_ne hi]

/-- A property of every worker after one of them has changed. -/
theorem forall_update {P : Fin n → WorkerThread → Prop} (hself : P t_i w)
    (hothers : ∀ i, i ≠ t_i → P i (s.workers i)) (i : Fin n) :
    P i (Function.update s.workers t_i w i) := by
  by_cases hi : i = t_i
  · subst hi
    rw [Function.update_self]
    exact hself
  · rw [Function.update_of_ne hi]
    exact hothers i hi

theorem update_job (hjob : w.jobSet = (s.workers t_i).jobSet ∧ w.job = (s.workers t_i).job)
    (i : Fin n) : (Function.update s.workers t_i w i).jobSet = (s.workers i).jobSet ∧
      (Function.update s.workers t_i w i).job = (s.workers i).job :=
  forall_update (P := fun i v => v.jobSet = (s.workers i).jobSet ∧ v.job = (s.workers i).job)
    hjob (fun _ _ => ⟨rfl, rfl⟩) i

/-- A step that changes nothing but the point, the mutex and the flags `wtReady` and `jobDone` of
one worker, where the controller is, and the number of threads. -/
theorem Inv.replace (hi : Inv s) {controller : ControllerPoint n} {runningThreads : Nat}
    (hself : Local s.keepRunning s.ran s.scheduled (controller.view t_i)
      (controller.signalled t_i) w)
    (hothers : ∀ i, i ≠ t_i → controller.view i = s.controller.view i ∧
      controller.signalled i = s.controller.signalled i)
    (hjob : w.jobSet = (s.workers t_i).jobSet ∧ w.job = (s.workers t_i).job)
    (hrunning : runningThreads =
      (Finset.univ.filter fun i => (Function.update s.workers t_i w i).point ≠ .exited).card)
    (hclosing : controller.closing = s.controller.closing)
    (hpassed : ∀ i : Fin n, i < controller.passed → (s.workers i).jobSet = false) :
    Inv { s.setWorker t_i w with controller := controller, runningThreads := runningThreads } := by
  have hsame := update_job (s := s) hjob
  constructor
  case workers =>
    refine forall_update (P := fun i v => Local s.keepRunning s.ran s.scheduled
      (controller.view i) (controller.signalled i) v) hself fun i hne => ?_
    rw [(hothers i hne).1, (hothers i hne).2]
    exact hi.workers i
  case distinct =>
    intro i j
    show (Function.update s.workers t_i w i).jobSet = true →
      (Function.update s.workers t_i w j).jobSet = true →
      (Function.update s.workers t_i w i).job = (Function.update s.workers t_i w j).job → i = j
    rw [(hsame i).1, (hsame i).2, (hsame j).1, (hsame j).2]
    exact hi.distinct i j
  case nodup => exact hi.nodup
  case ran_lt => exact hi.ran_lt
  case accounted =>
    intro job hjob
    refine (hi.accounted job hjob).imp_right fun ⟨i, hset, heq⟩ => ⟨i, ?_, ?_⟩
    · exact (hsame i).1.trans hset
    · exact (hsame i).2.trans heq
  case passed => exact fun i hlt => (hsame i).1.trans (hpassed i hlt)
  case closing => exact hclosing ▸ hi.closing
  case running => exact hrunning
  case sync => exact hi.sync
  case join => exact hi.join

/-- The same where no thread ends. -/
theorem Inv.update (hi : Inv s) {controller : ControllerPoint n}
    (hself : Local s.keepRunning s.ran s.scheduled (controller.view t_i)
      (controller.signalled t_i) w)
    (hothers : ∀ i, i ≠ t_i → controller.view i = s.controller.view i ∧
      controller.signalled i = s.controller.signalled i)
    (hjob : w.jobSet = (s.workers t_i).jobSet ∧ w.job = (s.workers t_i).job)
    (hexited : w.point = .exited ↔ (s.workers t_i).point = .exited)
    (hclosing : controller.closing = s.controller.closing)
    (hpassed : ∀ i : Fin n, i < controller.passed → (s.workers i).jobSet = false) :
    Inv { s.setWorker t_i w with controller := controller } :=
  hi.replace hself hothers hjob
    (hi.running.trans (congrArg Finset.card (running_update hexited)).symm) hclosing hpassed

/-- A step of the controller alone. -/
theorem Inv.move (hi : Inv s) {controller : ControllerPoint n} {calls : List (Call n)}
    (hworkers : ∀ i, Local s.keepRunning s.ran s.scheduled (controller.view i)
      (controller.signalled i) (s.workers i))
    (hclosing : controller.closing = s.controller.closing)
    (hpassed : ∀ i : Fin n, i < controller.passed → (s.workers i).jobSet = false) :
    Inv { s with controller := controller, calls := calls } :=
  { hi with
    workers := hworkers
    passed := hpassed
    closing := hclosing ▸ hi.closing }

theorem Inv.keepRunning_eq (hi : Inv s) (h : s.controller.closing = false) :
    s.keepRunning = true := by
  rw [← Bool.not_eq_false, hi.closing, h]
  decide

/-! ### Steps of workers -/

theorem Inv.job (hi : Inv s) (hp : (s.workers t_i).point = .inJob) :
    Inv { s.setWorker t_i { s.workers t_i with point := .finish } with
      ran := s.ran ++ [(s.workers t_i).job] } := by
  have hset : (s.workers t_i).jobSet = true := (hi.workers t_i).busy (.inl hp)
  have hpending := (hi.workers t_i).pending hset
  have hnew : (s.workers t_i).job ∉ s.ran := fun hmem => by
    have := hpending.2.mp hmem
    rw [hp] at this
    cases this
  have hsame := update_job (s := s) (w := { s.workers t_i with point := .finish }) ⟨rfl, rfl⟩
  constructor
  case workers =>
    refine forall_update (P := fun i v => Local s.keepRunning (s.ran ++ [(s.workers t_i).job])
      s.scheduled (s.controller.view i) (s.controller.signalled i) v)
      ((hi.workers t_i).job hp) fun i hne => ?_
    exact (hi.workers i).othersRan fun hset' heq => hne (hi.distinct i t_i hset' hset heq)
  case distinct =>
    intro i j hseti hsetj heq
    rw [State.setWorker] at hseti hsetj heq
    rw [(hsame i).1] at hseti
    rw [(hsame j).1] at hsetj
    rw [(hsame i).2, (hsame j).2] at heq
    exact hi.distinct i j hseti hsetj heq
  case nodup => exact hi.nodup.append (List.nodup_singleton _) (List.disjoint_singleton.mpr hnew)
  case ran_lt =>
    intro job hjob
    rcases List.mem_append.mp hjob with hjob | hjob
    · exact hi.ran_lt job hjob
    · rw [List.mem_singleton.mp hjob]
      exact hpending.1
  case accounted =>
    intro job hjob
    rcases hi.accounted job hjob with hran | ⟨i, hseti, heq⟩
    · exact .inl (List.mem_append_left _ hran)
    · exact .inr ⟨i, (hsame i).1.trans hseti, (hsame i).2.trans heq⟩
  case passed => exact fun i hlt => (hsame i).1.trans (hi.passed i hlt)
  case closing => exact hi.closing
  case running =>
    exact hi.running.trans (congrArg Finset.card (running_update (by simp [hp]))).symm
  case sync => exact fun job hjob => List.mem_append_left _ (hi.sync job hjob)
  case join => exact fun job hjob => List.mem_append_left _ (hi.join job hjob)

theorem Inv.finish (hi : Inv s) (hp : (s.workers t_i).point = .finish) :
    Inv (s.setWorker t_i
      { s.workers t_i with
        wtReady := true, jobDone := true, jobSet := false, point := .notify }) := by
  have hset : (s.workers t_i).jobSet = true := (hi.workers t_i).busy (.inr hp)
  have hran := ((hi.workers t_i).pending hset).2.mpr hp
  have hsame : ∀ i, (Function.update s.workers t_i { s.workers t_i with
        wtReady := true, jobDone := true, jobSet := false, point := .notify } i).jobSet = true →
      (s.workers i).jobSet = true ∧ (Function.update s.workers t_i { s.workers t_i with
        wtReady := true, jobDone := true, jobSet := false, point := .notify } i).job =
        (s.workers i).job :=
    forall_update (P := fun i v => v.jobSet = true →
        (s.workers i).jobSet = true ∧ v.job = (s.workers i).job)
      nofun fun _ _ h => ⟨h, rfl⟩
  constructor
  case workers =>
    exact forall_update (P := fun i v => Local s.keepRunning s.ran s.scheduled
      (s.controller.view i) (s.controller.signalled i) v) ((hi.workers t_i).finish hp)
      fun i _ => hi.workers i
  case distinct =>
    intro i j hseti hsetj heq
    obtain ⟨hseti, hi'⟩ := hsame i hseti
    obtain ⟨hsetj, hj'⟩ := hsame j hsetj
    exact hi.distinct i j hseti hsetj (hi'.symm.trans (heq.trans hj'))
  case nodup => exact hi.nodup
  case ran_lt => exact hi.ran_lt
  case accounted =>
    intro job hjob
    rcases hi.accounted job hjob with hmem | ⟨i, hseti, heq⟩
    · exact .inl hmem
    by_cases hne : i = t_i
    · subst hne
      exact .inl (heq ▸ hran)
    · refine .inr ⟨i, ?_⟩
      have hworker : Function.update s.workers t_i { s.workers t_i with
          wtReady := true, jobDone := true, jobSet := false, point := .notify } i = s.workers i :=
        Function.update_of_ne hne _ _
      exact ⟨(congrArg WorkerThread.jobSet hworker).trans hseti,
        (congrArg WorkerThread.job hworker).trans heq⟩
  case passed =>
    exact forall_update (P := fun i v => (i : Nat) < s.controller.passed → v.jobSet = false)
      (fun _ => rfl) fun i _ => hi.passed i
  case closing => exact hi.closing
  case running =>
    exact hi.running.trans (congrArg Finset.card (running_update (by simp [hp]))).symm
  case sync => exact hi.sync
  case join => exact hi.join

theorem running_exit (hp : (s.workers t_i).point = .exiting) :
    (Finset.univ.filter fun i => (Function.update s.workers t_i
        { s.workers t_i with point := .exited } i).point ≠ .exited) =
      (Finset.univ.filter fun i => (s.workers i).point ≠ .exited).erase t_i := by
  ext i
  by_cases hi : i = t_i
  · subst hi
    simp
  · simp [hi]

theorem Inv.exit (hi : Inv s) (hp : (s.workers t_i).point = .exiting) :
    Inv { s.setWorker t_i { s.workers t_i with point := .exited } with
      runningThreads := s.runningThreads - 1 } := by
  refine hi.replace ((hi.workers t_i).exit hp) (fun _ _ => ⟨rfl, rfl⟩) ⟨rfl, rfl⟩ ?_ rfl hi.passed
  have hmem : t_i ∈ Finset.univ.filter fun i => (s.workers i).point ≠ .exited := by simp [hp]
  rw [running_exit hp, Finset.card_erase_of_mem hmem, ← hi.running]

theorem view_notified (controller : ControllerPoint n) (t_i : Fin n) :
    (controller.notified t_i).view t_i = (controller.view t_i).notified := by
  cases controller with
  | waiting i goal phase =>
    by_cases hi : i = t_i
    · simp [ControllerPoint.notified, ControllerPoint.view, View.notified, hi]
    · simp [ControllerPoint.notified, ControllerPoint.view, View.notified, hi]
  | unlock i sync =>
    show (if i = t_i then View.unlock else .away) =
      View.notified (if i = t_i then .unlock else .away)
    split <;> rfl
  | notify i sync =>
    show (if i = t_i then View.notify else .away) =
      View.notified (if i = t_i then .notify else .away)
    split <;> rfl
  | _ => rfl

theorem view_notified_of_ne (controller : ControllerPoint n) {t_i i : Fin n} (hne : i ≠ t_i) :
    (controller.notified t_i).view i = controller.view i := by
  cases controller with
  | waiting j goal phase =>
    by_cases hj : j = i
    · simp [ControllerPoint.notified, ControllerPoint.view, hj, hne]
    · simp [ControllerPoint.notified, ControllerPoint.view, hj]
  | _ => rfl

section Notified

variable (controller : ControllerPoint n) (t_i i : Fin n)

theorem signalled_notified : (controller.notified t_i).signalled i = controller.signalled i := by
  cases controller <;> rfl

theorem closing_notified : (controller.notified t_i).closing = controller.closing := by
  cases controller <;> rfl

theorem passed_notified : (controller.notified t_i).passed = controller.passed := by
  cases controller with
  | waiting j goal phase => cases goal <;> rfl
  | _ => rfl

end Notified

theorem Inv.notifyController (hi : Inv s) (hp : (s.workers t_i).point = .notify) :
    Inv { s.setWorker t_i { s.workers t_i with point := .unlock } with
      controller := s.controller.notified t_i } := by
  have hnotified := (hi.workers t_i).notifiedController
  rw [← view_notified] at hnotified
  refine hi.update ?_ (fun i hne => ⟨view_notified_of_ne _ hne, signalled_notified _ _ _⟩)
    ⟨rfl, rfl⟩
    (by simp [hp]) (closing_notified _ _) ?_
  · rw [signalled_notified]
    exact hnotified.1.notify hp hnotified.2
  · rw [passed_notified]
    exact hi.passed

theorem Inv.worker (hi : Inv s) (h : s.WorkerStep t_i (s.workers t_i) s') : Inv s' := by
  have hlocal := hi.workers t_i
  cases h with
  | loop hp hk =>
    exact hi.update (hlocal.loop hp) (fun _ _ => ⟨rfl, rfl⟩) ⟨rfl, rfl⟩ (by simp [hp]) rfl hi.passed
  | loopEnd hp hk =>
    exact hi.update (hlocal.loopEnd hp hk) (fun _ _ => ⟨rfl, rfl⟩) ⟨rfl, rfl⟩ (by simp [hp]) rfl
      hi.passed
  | wait hp hwait =>
    exact hi.update (hlocal.workerWait hp hwait) (fun _ _ => ⟨rfl, rfl⟩) ⟨rfl, rfl⟩ (by simp [hp])
      rfl hi.passed
  | «break» hp hk =>
    exact hi.update (hlocal.break hp hk) (fun _ _ => ⟨rfl, rfl⟩) ⟨rfl, rfl⟩ (by simp [hp]) rfl
      hi.passed
  | begin hp hk =>
    exact hi.update (hlocal.begin hp hk) (fun _ _ => ⟨rfl, rfl⟩) ⟨rfl, rfl⟩ (by simp [hp]) rfl
      hi.passed
  | job hp => exact hi.job hp
  | finish hp => exact hi.finish hp
  | notify hp => exact hi.notifyController hp
  | unlock hp =>
    exact hi.update (hlocal.unlock hp) (fun _ _ => ⟨rfl, rfl⟩) ⟨rfl, rfl⟩ (by simp [hp]) rfl
      hi.passed
  | exit hp => exact hi.exit hp

/-! ### Steps of the controller -/

variable {calls : List (Call n)} {goal : Goal} {phase phase' : WaitPhase} {sync : Bool}

@[simp] theorem view_waiting : (ControllerPoint.waiting t_i goal phase).view t_i =
    .waiting goal phase := if_pos rfl

@[simp] theorem view_unlock : (ControllerPoint.unlock t_i sync).view t_i = .unlock := if_pos rfl

@[simp] theorem view_notify : (ControllerPoint.notify t_i sync).view t_i = .notify := if_pos rfl

/-- The controller has done nothing yet with a worker, or is through with it. -/
def ControllerPoint.Idle (controller : ControllerPoint n) : Prop :=
  (∀ i, controller.view i = .away ∧ controller.signalled i = false) ∧ controller.closing = false

theorem Inv.approach (hi : Inv s) (hidle : s.controller.Idle) (hgoal : ∀ job, goal ≠ .done job)
    (hpassed : ∀ i : Fin n, i < (ControllerPoint.waiting t_i goal .locking).passed →
      (s.workers i).jobSet = false) :
    Inv { s with controller := .waiting t_i goal .locking, calls := calls } := by
  refine hi.move (fun i => ?_) hidle.2.symm hpassed
  have hlocal := hi.workers i
  rw [(hidle.1 i).1, (hidle.1 i).2] at hlocal
  by_cases hne : t_i = i
  · subst hne
    rw [view_waiting]
    exact hlocal.approach rfl hgoal (hi.keepRunning_eq hidle.2)
  · rw [ControllerPoint.view, if_neg hne]
    exact hlocal

theorem Inv.idle (hi : Inv s) (hidle : s.controller.Idle) {controller : ControllerPoint n}
    (hidle' : controller.Idle)
    (hpassed : ∀ i : Fin n, i < controller.passed → (s.workers i).jobSet = false) :
    Inv { s with controller := controller, calls := calls } := by
  refine hi.move (fun i => ?_) (hidle'.2.trans hidle.2.symm) hpassed
  rw [(hidle'.1 i).1, (hidle'.1 i).2, ← (hidle.1 i).1, ← (hidle.1 i).2]
  exact hi.workers i

/-- The controller gives the worker `t_i` the next job. -/
theorem Inv.set (hi : Inv s) (hc : s.controller = .waiting t_i (.free sync) .holding) :
    Inv { s.setWorker t_i
        { s.workers t_i with jobSet := true, jobDone := false, job := s.scheduled } with
      controller := .unlock t_i sync
      scheduled := s.scheduled + 1 } := by
  have hview : s.controller.view t_i = .waiting (.free sync) .holding := by rw [hc, view_waiting]
  have hfree := (hi.workers t_i).free sync hview
  have hlt : ∀ i, (s.workers i).jobSet = true → (s.workers i).job < s.scheduled := fun i hset =>
    ((hi.workers i).pending hset).1
  constructor
  case workers =>
    refine forall_update (P := fun i v => Local s.keepRunning s.ran (s.scheduled + 1)
      ((ControllerPoint.unlock t_i sync).view i) ((ControllerPoint.unlock t_i sync).signalled i) v)
      ?_ fun i hne => ?_
    · rw [view_unlock]
      have hlocal := (hi.workers t_i).setJob hview hi.ran_lt
      rw [hc] at hlocal
      exact hlocal
    · have hlocal := (hi.workers i).othersScheduled
      rw [hc, ControllerPoint.view, if_neg hne.symm] at hlocal
      rw [ControllerPoint.view, if_neg hne.symm]
      exact hlocal
  case distinct =>
    refine forall_update (P := fun i v => ∀ j, v.jobSet = true →
      (Function.update s.workers t_i _ j).jobSet = true →
      v.job = (Function.update s.workers t_i _ j).job → i = j) ?_ fun i hne => ?_
    · refine forall_update (P := fun j v => _ → v.jobSet = true → s.scheduled = v.job → t_i = j)
        (fun _ _ _ => rfl) fun j _ _ hset heq => ?_
      exact absurd heq (hlt j hset).ne'
    · refine forall_update (P := fun j v => (s.workers i).jobSet = true → v.jobSet = true →
        (s.workers i).job = v.job → i = j) (fun hset _ heq => ?_) fun j _ => hi.distinct i j
      exact absurd heq (hlt i hset).ne
  case nodup => exact hi.nodup
  case ran_lt => exact fun job hjob => (hi.ran_lt job hjob).trans (Nat.lt_succ_self _)
  case accounted =>
    intro job hjob
    rcases Nat.lt_succ_iff_lt_or_eq.mp hjob with hjob | rfl
    · refine (hi.accounted job hjob).imp_right fun ⟨i, hset, heq⟩ => ⟨i, ?_⟩
      have hne : i ≠ t_i := fun h => by rw [h, hfree] at hset; cases hset
      have hworker : Function.update s.workers t_i { s.workers t_i with
          jobSet := true, jobDone := false, job := s.scheduled } i = s.workers i :=
        Function.update_of_ne hne _ _
      exact ⟨(congrArg WorkerThread.jobSet hworker).trans hset,
        (congrArg WorkerThread.job hworker).trans heq⟩
    · have hworker : Function.update s.workers t_i { s.workers t_i with
          jobSet := true, jobDone := false, job := s.scheduled } t_i = _ :=
        Function.update_self _ _ _
      exact .inr ⟨t_i, congrArg WorkerThread.jobSet hworker, congrArg WorkerThread.job hworker⟩
  case passed => exact fun i hlt => absurd hlt (Nat.not_lt_zero _)
  case closing => exact hi.closing.trans (by rw [hc]; rfl)
  case running =>
    refine hi.running.trans (congrArg Finset.card (running_update ?_)).symm
    rfl
  case sync => exact hi.sync
  case join => exact hi.join

theorem view_waiting_of_ne {i : Fin n} (hne : i ≠ t_i) :
    (ControllerPoint.waiting t_i goal phase).view i = .away := if_neg hne.symm

theorem view_unlock_of_ne {i : Fin n} (hne : i ≠ t_i) :
    (ControllerPoint.unlock t_i sync).view i = .away := if_neg hne.symm

theorem view_notify_of_ne {i : Fin n} (hne : i ≠ t_i) :
    (ControllerPoint.notify t_i sync).view i = .away := if_neg hne.symm

theorem Inv.controllerWait (hi : Inv s) {mutex : Option Thread}
    (hc : s.controller = .waiting t_i goal phase)
    (hwait : WaitStep .controller (goal.predicate (s.workers t_i)) (s.workers t_i).mutex phase
      mutex phase') :
    Inv { s.setWorker t_i { s.workers t_i with mutex := mutex } with
      controller := .waiting t_i goal phase' } := by
  have hlocal := (hi.workers t_i).controllerWait (by rw [hc, view_waiting]) hwait
  refine hi.update ?_ (fun i hne => ?_) ⟨rfl, rfl⟩ Iff.rfl (by rw [hc]; rfl) ?_
  · rw [view_waiting]
    rw [hc] at hlocal
    exact hlocal
  · rw [hc, view_waiting_of_ne hne, view_waiting_of_ne hne]
    exact ⟨rfl, rfl⟩
  · have hpassed := hi.passed
    rw [hc] at hpassed
    cases goal <;> exact hpassed

theorem Inv.controllerUnlock (hi : Inv s) (hc : s.controller = .unlock t_i sync) :
    Inv { s.setWorker t_i { s.workers t_i with mutex := none } with
      controller := .notify t_i sync } := by
  have hlocal := (hi.workers t_i).controllerUnlock (by rw [hc, view_unlock])
  refine hi.update ?_ (fun i hne => ?_) ⟨rfl, rfl⟩ Iff.rfl (by rw [hc]; rfl)
    fun i hlt => absurd hlt (Nat.not_lt_zero _)
  · rw [view_notify]
    rw [hc] at hlocal
    exact hlocal
  · rw [hc, view_notify_of_ne hne, view_unlock_of_ne hne]
    exact ⟨rfl, rfl⟩

theorem notified_same (w : WorkerThread) :
    (w.notified.jobSet = w.jobSet ∧ w.notified.job = w.job) ∧
      (w.notified.point = .exited ↔ w.point = .exited) := by
  refine ⟨⟨rfl, rfl⟩, ?_⟩
  rw [WorkerThread.notified]
  cases w.point <;> simp [WorkerPoint.notified]

theorem Inv.send (hi : Inv s) (hc : s.controller = .notify t_i sync) :
    Inv { s.setWorker t_i (s.workers t_i).notified with
      controller :=
        if sync then .waiting t_i (.done (s.workers t_i).job) .locking else .next } := by
  obtain ⟨hlocal, hblocked⟩ := (hi.workers t_i).notified
  have hview : s.controller.view t_i = .notify := by rw [hc, view_notify]
  refine hi.update ?_ (fun i hne => ?_) (notified_same _).1 (notified_same _).2 ?_ ?_
  · cases sync with
    | true =>
      rw [if_pos rfl, view_waiting]
      rw [hc] at hlocal hview
      exact hlocal.sendSync hview hblocked
    | false =>
      rw [hc] at hlocal hview
      exact hlocal.sendAsync hview hblocked
  · rw [hc, view_notify_of_ne hne]
    cases sync with
    | true =>
      rw [if_pos rfl, view_waiting_of_ne hne]
      exact ⟨rfl, rfl⟩
    | false => exact ⟨rfl, rfl⟩
  · rw [hc]
    cases sync <;> rfl
  · cases sync <;> exact fun i hlt => absurd hlt (Nat.not_lt_zero _)

/-- The controller returns from a `wait`. -/
theorem Inv.leave (hi : Inv s) (hc : s.controller = .waiting t_i goal .holding)
    {controller : ControllerPoint n} (hidle : controller.Idle)
    (hpassed : ∀ i : Fin n, i < controller.passed → (s.workers i).jobSet = false) :
    Inv { s.setWorker t_i { s.workers t_i with mutex := none } with controller := controller } := by
  have hlocal := (hi.workers t_i).leave (by rw [hc, view_waiting])
  refine hi.update ?_ (fun i hne => ?_) ⟨rfl, rfl⟩ Iff.rfl (by rw [hc, hidle.2]; rfl) hpassed
  · rw [(hidle.1 t_i).1, (hidle.1 t_i).2]
    rw [hc] at hlocal
    exact hlocal
  · rw [hc, view_waiting_of_ne hne, (hidle.1 i).1, (hidle.1 i).2]
    exact ⟨rfl, rfl⟩

theorem idle_next : (ControllerPoint.next : ControllerPoint n).Idle := ⟨fun _ => ⟨rfl, rfl⟩, rfl⟩

theorem idle_join (i : Nat) : (ControllerPoint.join i : ControllerPoint n).Idle :=
  ⟨fun _ => ⟨rfl, rfl⟩, rfl⟩

theorem idle_store : (ControllerPoint.store : ControllerPoint n).Idle := ⟨fun _ => ⟨rfl, rfl⟩, rfl⟩

theorem Inv.controller (hi : Inv s) (h : s.ControllerStep s') : Inv s' := by
  cases h with
  | schedule sync hc hcalls =>
    exact hi.approach (hc ▸ idle_next) nofun fun i hlt => absurd hlt (Nat.not_lt_zero _)
  | joinAll hc hcalls =>
    exact hi.idle (hc ▸ idle_next) (idle_join 0) fun i hlt => absurd hlt (Nat.not_lt_zero _)
  | wait hc hwait => exact hi.controllerWait hc hwait
  | set hc => exact hi.set hc
  | unlock hc => exact hi.controllerUnlock hc
  | notify hc => exact hi.send hc
  | @returnSync t_i job hc =>
    have hlocal := hi.workers t_i
    have hview : s.controller.view t_i = .waiting (.done job) .holding := by rw [hc, view_waiting]
    have hran : job ∈ s.ran := (hlocal.wants job _ hview).1 ▸ hlocal.done (hlocal.result job hview)
    have hleft := hi.leave hc idle_next fun i hlt => absurd hlt (Nat.not_lt_zero _)
    refine { hleft with sync := fun j hj => ?_ }
    rcases List.mem_append.mp hj with hj | hj
    · exact hi.sync j hj
    · rw [List.mem_singleton.mp hj]
      exact hran
  | join t_i hc =>
    have hpassed := hi.passed
    rw [hc] at hpassed
    exact hi.approach (hc ▸ idle_join _) nofun hpassed
  | @joined t_i hc =>
    refine hi.leave hc (idle_join _) fun i hlt => ?_
    have hjoined := (hi.workers t_i).joined (by rw [hc, view_waiting])
    have hpassed := hi.passed i
    rw [hc] at hpassed
    rcases Nat.lt_succ_iff_lt_or_eq.mp hlt with hlt | heq
    · exact hpassed hlt
    · rw [Fin.ext heq]
      exact hjoined
  | returnJoin hc =>
    have hpassed := hi.passed
    rw [hc] at hpassed
    have hran : ∀ job, job < s.scheduled → job ∈ s.ran := fun job hjob =>
      (hi.accounted job hjob).resolve_right fun ⟨i, hset, _⟩ => by
        rw [hpassed i i.isLt] at hset
        cases hset
    have hnext : Inv { s with controller := .next } :=
      hi.idle (hc ▸ idle_join _) idle_next fun i hlt => absurd hlt (Nat.not_lt_zero _)
    exact { hnext with join := hran }
  | destroy hc hcalls =>
    exact hi.idle (hc ▸ idle_next) idle_store fun i hlt => absurd hlt (Nat.not_lt_zero _)
  | signalled hc =>
    refine hi.move (fun i => ?_) (by rw [hc]; rfl) fun i hlt => absurd hlt (Nat.not_lt_zero _)
    have hlocal := hi.workers i
    rw [hc] at hlocal
    have : (ControllerPoint.signal n : ControllerPoint n).signalled i = true :=
      decide_eq_true i.isLt
    rw [this] at hlocal
    exact hlocal
  | join' hc hrunning =>
    refine hi.move (fun i => ?_) (by rw [hc]; rfl) fun i hlt => absurd hlt (Nat.not_lt_zero _)
    have hlocal := hi.workers i
    rw [hc] at hlocal
    exact hlocal

/-! ### The destructor -/

theorem Inv.store (hi : Inv s) (hc : s.controller = .store)
    (hstop : ∀ i, (s.workers i).jobSet = true → (s.workers i).point.Busy) :
    Inv { s with keepRunning := false, controller := .signal 0 } where
  workers i := by
    have hlocal := hi.workers i
    rw [hc] at hlocal
    have hnone : (ControllerPoint.signal 0 : ControllerPoint n).signalled i = false :=
      decide_eq_false (Nat.not_lt_zero i)
    rw [hnone]
    exact hlocal.store rfl (hstop i)
  distinct := hi.distinct
  nodup := hi.nodup
  ran_lt := hi.ran_lt
  accounted := hi.accounted
  passed i hlt := absurd hlt (Nat.not_lt_zero _)
  closing := iff_of_true rfl rfl
  running := hi.running
  sync := hi.sync
  join := hi.join

theorem Inv.signal (hi : Inv s) (hc : s.controller = .signal t_i)
    (hreleasing : (s.workers t_i).point ≠ .waiting .releasing) :
    Inv { s.setWorker t_i (s.workers t_i).notified with controller := .signal (t_i + 1) } := by
  obtain ⟨hlocal, hblocked⟩ := (hi.workers t_i).notified
  have hk : s.keepRunning = false := hi.closing.mpr (by rw [hc]; rfl)
  refine hi.update ?_ (fun i hne => ?_) (notified_same _).1 (notified_same _).2 (by rw [hc]; rfl)
    fun i hlt => absurd hlt (Nat.not_lt_zero _)
  · have hself : (ControllerPoint.signal (t_i + 1) : ControllerPoint n).signalled t_i = true :=
      decide_eq_true (Nat.lt_succ_self _)
    rw [hself]
    rw [hc] at hlocal
    refine hlocal.signal hk (fun hp => ?_) hblocked
    rw [WorkerThread.notified] at hp
    cases hpoint : (s.workers t_i).point with
    | waiting phase => cases phase <;> simp_all [WorkerPoint.notified, WaitPhase.notify]
    | _ => simp [WorkerPoint.notified, hpoint] at hp
  · rw [hc]
    refine ⟨rfl, decide_eq_decide.mpr ?_⟩
    have : (i : Nat) ≠ t_i := fun h => hne (Fin.ext h)
    omega

theorem Inv.step {action : Action n} (hi : Inv s) (h : s.Step action s')
    (hcareful : Careful s action) : Inv s' := by
  cases h with
  | worker h => exact hi.worker h
  | controller h => exact hi.controller h
  | store hc => exact hi.store hc hcareful
  | signal hc => exact hi.signal hc hcareful
  | spuriousWorker hp =>
    exact hi.update ((hi.workers _).wake hp) (fun _ _ => ⟨rfl, rfl⟩) ⟨rfl, rfl⟩ (by simp [hp]) rfl
      hi.passed
  | @spuriousController t_i goal hc =>
    have hlocal := (hi.workers t_i).wakeController (by rw [hc, view_waiting])
    refine hi.move (fun i => ?_) (by rw [hc]; rfl) ?_
    · by_cases hne : i = t_i
      · subst hne
        rw [view_waiting]
        rw [hc] at hlocal
        exact hlocal
      · have hother := hi.workers i
        rw [hc, view_waiting_of_ne hne] at hother
        rw [view_waiting_of_ne hne]
        exact hother
    · have hpassed := hi.passed
      rw [hc] at hpassed
      cases goal <;> exact hpassed

theorem reachable_inv (h : (system n Careful).Reachable s) : Inv s :=
  h.invariant (fun _ => Init.inv) fun _ _ _ hi ⟨_, hstep, hcareful⟩ => hi.step hstep hcareful

/-! ### Progress -/

/-- The loops over the workers stay below their number, and the destructor returns when no thread
is left. -/
def ControllerPoint.Bounded (runningThreads : Nat) : ControllerPoint n → Prop
  | join i | signal i => i ≤ n
  | done => runningThreads = 0
  | next | waiting .. | unlock .. | notify .. | store | spin => True

theorem bounded_notified {runningThreads : Nat} {controller : ControllerPoint n}
    (h : controller.Bounded runningThreads) :
    (controller.notified t_i).Bounded runningThreads := by
  cases controller <;> exact h

theorem bounded_sub_one {runningThreads : Nat} {controller : ControllerPoint n}
    (h : controller.Bounded runningThreads) : controller.Bounded (runningThreads - 1) := by
  cases controller with
  | done => exact h.symm ▸ rfl
  | _ => exact h

theorem bounded_step {action : Action n} (hb : s.controller.Bounded s.runningThreads)
    (h : s.Step action s') : s'.controller.Bounded s'.runningThreads := by
  cases h with
  | worker h =>
    cases h with
    | notify hp => exact bounded_notified hb
    | exit hp => exact bounded_sub_one hb
    | _ => exact hb
  | controller h =>
    cases h with
    | joined hc => exact Nat.succ_le_of_lt (Fin.isLt _)
    | @notify t_i sync hc => cases sync <;> trivial
    | joinAll => exact Nat.zero_le _
    | join' _ hrunning => exact hrunning
    | _ => trivial
  | store hc => exact Nat.zero_le _
  | signal hc => exact Nat.succ_le_of_lt (Fin.isLt _)
  | spuriousWorker hp => exact hb
  | spuriousController hc => trivial

theorem reachable_bounded {good : State n → Action n → Prop} (h : (system n good).Reachable s) :
    s.controller.Bounded s.runningThreads :=
  h.invariant (P := fun s => s.controller.Bounded s.runningThreads)
    (fun _ h => by rw [h.controller]; trivial)
    fun _ _ _ hb ⟨_, hstep, _⟩ => bounded_step hb hstep

/-- A worker can go on unless it is blocked, has ended or waits for the controller to give up the
mutex. -/
theorem Inv.exists_worker_step (hi : Inv s) (hblocked : (s.workers t_i).point ≠ .waiting .blocked)
    (hexited : (s.workers t_i).point ≠ .exited)
    (hview : (s.controller.view t_i).hasMutex = false) :
    ∃ s', s.WorkerStep t_i (s.workers t_i) s' := by
  cases hp : (s.workers t_i).point with
  | loop =>
    cases hk : s.keepRunning with
    | true => exact ⟨_, .loop hp hk⟩
    | false => exact ⟨_, .loopEnd hp hk⟩
  | waiting phase =>
    by_cases hholding : phase = .holding
    · rw [hholding] at hp
      cases hk : s.keepRunning with
      | true => exact ⟨_, .begin hp hk⟩
      | false => exact ⟨_, .break hp hk⟩
    · have hfree : phase = .locking ∨ phase = .woken → (s.workers t_i).mutex = none := by
        intro hphase
        cases hm : (s.workers t_i).mutex with
        | none => rfl
        | some thread =>
          cases thread with
          | worker =>
            have := (hi.workers t_i).worker_mutex.mp hm
            rw [hp] at this
            rcases hphase with rfl | rfl <;> cases this
          | controller =>
            have := (hi.workers t_i).controller_mutex.mp hm
            rw [hview] at this
            cases this
      have hne : phase ≠ .blocked := fun h => hblocked (by rw [hp, h])
      obtain ⟨_, _, hstep⟩ := WaitStep.exists_step (t := Thread.worker)
        (p := workerPredicate s.keepRunning (s.workers t_i)) hne hholding hfree
      exact ⟨_, .wait hp hstep⟩
  | inJob => exact ⟨_, .job hp⟩
  | finish => exact ⟨_, .finish hp⟩
  | notify => exact ⟨_, .notify hp⟩
  | unlock => exact ⟨_, .unlock hp⟩
  | exiting => exact ⟨_, .exit hp⟩
  | exited => exact absurd hp hexited

/-- The controller at a worker: it goes on, or the worker does. -/
theorem Inv.exists_step_of_waiting (hi : Inv s) (hc : s.controller = .waiting t_i goal phase) :
    (∃ s', s.ControllerStep s') ∨ ∃ s', s.WorkerStep t_i (s.workers t_i) s' := by
  have hlocal := hi.workers t_i
  have hview : s.controller.view t_i = .waiting goal phase := by rw [hc, view_waiting]
  have hk : s.keepRunning = true := hi.keepRunning_eq (by rw [hc]; rfl)
  by_cases hholding : phase = .holding
  · rw [hholding] at hc
    left
    cases goal with
    | free sync => exact ⟨_, .set hc⟩
    | done job => exact ⟨_, .returnSync hc⟩
    | joined => exact ⟨_, .joined hc⟩
  have hexited : (s.workers t_i).point ≠ .exited := fun h => by
    have := hlocal.exits (.inr h)
    rw [hk] at this
    cases this
  by_cases hblocked : phase = .blocked
  · right
    rw [hblocked] at hview
    refine hi.exists_worker_step (fun hp => ?_) hexited (by rw [hview]; rfl)
    -- Both do not wait for each other: a worker without a job is free, and its last job is done.
    have hset : (s.workers t_i).jobSet = false := by
      have := hlocal.worker_blocked hp
      rw [hview] at this
      simpa using this
    have hready : (s.workers t_i).wtReady = true := by
      by_contra hready
      have := hlocal.ready (by simpa using hready)
      simp [WorkerPoint.Busy, hp] at this
    have hpredicate : ¬ goal.predicate (s.workers t_i) :=
      (hlocal.controller_blocked goal hview).resolve_right (by simp [hp])
    cases goal with
    | free sync => exact hpredicate ⟨hset, hready⟩
    | done job =>
      refine hpredicate ((hlocal.wants job _ hview).2.resolve_right ?_)
      simp [hset]
    | joined => exact hpredicate ⟨hready, hset⟩
  · by_cases hm : (s.workers t_i).mutex = some .worker
    · right
      have hmutex := hlocal.worker_mutex.mp hm
      refine hi.exists_worker_step (fun hp => ?_) hexited ?_
      · rw [hp] at hmutex
        cases hmutex
      · by_contra hcontroller
        have := hlocal.controller_mutex.mpr (by simpa using hcontroller)
        rw [hm] at this
        cases this
    · left
      have hfree : phase = .locking ∨ phase = .woken → (s.workers t_i).mutex = none := by
        intro hphase
        have hcontroller : (s.workers t_i).mutex ≠ some .controller := fun h => by
          have := hlocal.controller_mutex.mp h
          rw [hview] at this
          rcases hphase with rfl | rfl <;> cases this
        match hmutex : (s.workers t_i).mutex with
        | none => rfl
        | some .worker => exact absurd hmutex hm
        | some .controller => exact absurd hmutex hcontroller
      obtain ⟨_, _, hstep⟩ := WaitStep.exists_step (t := Thread.controller)
        (p := goal.predicate (s.workers t_i)) hblocked hholding hfree
      exact ⟨_, .wait hc hstep⟩

theorem Inv.progress (hi : Inv s) (hb : s.controller.Bounded s.runningThreads)
    (hdone : s.controller ≠ .done) : ∃ action s', action ≠ .spurious ∧ s.Step action s' := by
  have hcontroller : (∃ s', s.ControllerStep s') →
      ∃ action s', action ≠ .spurious ∧ s.Step action s' := fun ⟨s', h⟩ =>
    ⟨.controller, s', nofun, .controller h⟩
  have hworker : ∀ t_i, (∃ s', s.WorkerStep t_i (s.workers t_i) s') →
      ∃ action s', action ≠ .spurious ∧ s.Step action s' := fun t_i ⟨s', h⟩ =>
    ⟨.worker t_i, s', nofun, .worker h⟩
  cases hc : s.controller with
  | next =>
    apply hcontroller
    cases hcalls : s.calls with
    | nil => exact ⟨_, .destroy hc hcalls⟩
    | cons call calls =>
      cases call with
      | scheduleJobSync t_i => exact ⟨_, .schedule true hc hcalls⟩
      | scheduleJobAsync t_i => exact ⟨_, .schedule false hc hcalls⟩
      | joinAll => exact ⟨_, .joinAll hc hcalls⟩
  | waiting t_i goal phase => exact (hi.exists_step_of_waiting hc).elim hcontroller (hworker t_i)
  | unlock t_i sync => exact hcontroller ⟨_, .unlock hc⟩
  | notify t_i sync => exact hcontroller ⟨_, .notify hc⟩
  | join t_i =>
    rw [hc] at hb
    rcases Nat.lt_or_eq_of_le hb with hlt | rfl
    · exact hcontroller ⟨_, .join ⟨t_i, hlt⟩ hc⟩
    · exact hcontroller ⟨_, .returnJoin hc⟩
  | store => exact ⟨.store, _, nofun, .store hc⟩
  | signal t_i =>
    rw [hc] at hb
    rcases Nat.lt_or_eq_of_le hb with hlt | rfl
    · exact ⟨.signal ⟨t_i, hlt⟩, _, nofun, .signal hc⟩
    · exact hcontroller ⟨_, .signalled hc⟩
  | spin =>
    by_cases hrunning : s.runningThreads = 0
    · exact hcontroller ⟨_, .join' hc hrunning⟩
    · rw [hi.running, Finset.card_eq_zero, ← ne_eq, ← Finset.nonempty_iff_ne_empty] at hrunning
      obtain ⟨t_i, hmem⟩ := hrunning
      have hlocal := (hi.workers t_i).signalled (by rw [hc]; rfl)
      exact hworker t_i (hi.exists_worker_step hlocal.2 (Finset.mem_filter.mp hmem).2
        (by rw [hc]; rfl))
  | done => exact absurd hc hdone

/-! ## Runs -/

theorem Inv.all (hi : Inv s) (hrunning : s.runningThreads = 0) {job : Nat}
    (hjob : job < s.scheduled) : job ∈ s.ran := by
  refine (hi.accounted job hjob).resolve_right fun ⟨i, hset, _⟩ => ?_
  have hexited : (s.workers i).point = .exited := by
    rw [hi.running, Finset.card_eq_zero, Finset.filter_eq_empty_iff] at hrunning
    exact not_not.mp (hrunning (Finset.mem_univ i))
  have hlocal := hi.workers i
  have := hlocal.stopped (hlocal.exits (.inr hexited)) hset
  simp [WorkerPoint.Busy, hexited] at this

theorem jobs_run_once (h : (system n Careful).Reachable s) : Correct s := by
  have hi := reachable_inv h
  have hb := reachable_bounded h
  constructor
  case once => exact ⟨hi.nodup, hi.ran_lt⟩
  case all =>
    intro hc job hjob
    rw [hc] at hb
    exact hi.all hb hjob
  case sync => exact hi.sync
  case join => exact hi.join
  case shutdown => exact fun t_i hsignalled =>
    ⟨(hi.workers t_i).closing hsignalled, ((hi.workers t_i).signalled hsignalled).2⟩
  case progress => exact hi.progress hb

end Global

/-- A destructor that waits for blocked threads waits for ever, unless they wake up by
themselves. -/
theorem only_spurious {s s' : State n} {action : Action n} (hc : s.controller = .spin)
    (hrunning : s.runningThreads ≠ 0) (hblocked : ∀ i, (s.workers i).point = .waiting .blocked)
    (h : s.Step action s') : action = .spurious := by
  cases h with
  | @worker t_i s' h =>
    have hp := hblocked t_i
    cases h with
    | @wait phase mutex phase' hp' hwait =>
      rw [hp] at hp'
      cases hp'
      exact absurd rfl hwait.ne_blocked
    | _ => simp_all
  | controller h => cases h <;> simp_all
  | store hc' => simp_all
  | signal hc' => simp_all
  | spuriousWorker hp => rfl
  | spuriousController hc' => rfl

/-- The pool that the constructor builds. -/
def created (calls : List (Call n)) : State n where
  workers _ := ⟨none, 0, true, false, false, .loop⟩
  keepRunning := true
  runningThreads := n
  controller := .next
  calls := calls
  scheduled := 0
  ran := []
  syncReturned := []
  joinReturned := 0

theorem init_created (calls : List (Call n)) : Init (created calls) := by
  constructor <;> intros <;> rfl

/-- A pool that is destroyed while its worker runs the only job. -/
theorem jobs_run_once_destroyed :
    ∃ s : State 1, s.controller = .done ∧ s.ran = [0] ∧ Correct s := by
  have h : (system 1 Careful).Reachable (created [.scheduleJobAsync 0]) := .init (init_created _)
  have h := h.step ⟨.controller, .controller (.schedule false rfl rfl), trivial⟩
  have h := h.step ⟨.controller, .controller (.wait rfl .lock), trivial⟩
  have h := h.step ⟨.controller, .controller (.wait rfl (.pass ⟨rfl, rfl⟩)), trivial⟩
  have h := h.step ⟨.controller, .controller (.set rfl), trivial⟩
  have h := h.step ⟨.controller, .controller (.unlock rfl), trivial⟩
  have h := h.step ⟨.controller, .controller (.notify rfl), trivial⟩
  have h := h.step ⟨.worker 0, .worker (.loop rfl rfl), trivial⟩
  have h := h.step ⟨.worker 0, .worker (.wait rfl .lock), trivial⟩
  have h := h.step ⟨.worker 0, .worker (.wait rfl (.pass (.inr rfl))), trivial⟩
  have h := h.step ⟨.worker 0, .worker (.begin rfl rfl), trivial⟩
  have h := h.step ⟨.controller, .controller (.destroy rfl rfl), trivial⟩
  have h := h.step ⟨.store, .store rfl, fun t_i _ => .inl (by rw [Subsingleton.elim t_i 0]; rfl)⟩
  have h := h.step ⟨.signal 0, .signal rfl, nofun⟩
  have h := h.step ⟨.controller, .controller (.signalled rfl), trivial⟩
  have h := h.step ⟨.worker 0, .worker (.job rfl), trivial⟩
  have h := h.step ⟨.worker 0, .worker (.finish rfl), trivial⟩
  have h := h.step ⟨.worker 0, .worker (.notify rfl), trivial⟩
  have h := h.step ⟨.worker 0, .worker (.unlock rfl), trivial⟩
  have h := h.step ⟨.worker 0, .worker (.loopEnd rfl rfl), trivial⟩
  have h := h.step ⟨.worker 0, .worker (.exit rfl), trivial⟩
  have h := h.step ⟨.controller, .controller (.join' rfl rfl), trivial⟩
  exact ⟨_, rfl, rfl, jobs_run_once h⟩

/-- A worker looks at `keepRunning`, the destructor clears it and notifies, and the worker blocks:
nothing happens any more.  And a job that is set when the destructor runs is dropped. -/
theorem notification_lost :
    (∃ s : State 1, (system 1 fun _ _ => True).Reachable s ∧ s.controller.signalled 0 = true ∧
      s.keepRunning = false ∧ (s.workers 0).point = .waiting .blocked ∧
      ∀ action s', s.Step action s' → action = .spurious) ∧
    ∃ s : State 1, (system 1 fun _ _ => True).Reachable s ∧ s.controller = .done ∧
      s.scheduled = 1 ∧ s.ran = [] := by
  constructor
  · have h : (system 1 fun _ _ => True).Reachable (created []) := .init (init_created _)
    have h := h.step ⟨.worker 0, .worker (.loop rfl rfl), trivial⟩
    have h := h.step ⟨.worker 0, .worker (.wait rfl .lock), trivial⟩
    have hfalse :
        ¬ workerPredicate true ⟨some .worker, 0, true, false, false, .waiting .testing⟩ := by
      simp [workerPredicate]
    have h := h.step ⟨.worker 0, .worker (.wait rfl (.fail hfalse)), trivial⟩
    have h := h.step ⟨.controller, .controller (.destroy rfl rfl), trivial⟩
    have h := h.step ⟨.store, .store rfl, trivial⟩
    have h := h.step ⟨.signal 0, .signal rfl, trivial⟩
    have h := h.step ⟨.controller, .controller (.signalled rfl), trivial⟩
    have h := h.step ⟨.worker 0, .worker (.wait rfl .block), trivial⟩
    refine ⟨_, h, rfl, rfl, rfl, fun action s' hstep => ?_⟩
    exact only_spurious rfl (by decide) (fun i => by rw [Subsingleton.elim i 0]; rfl) hstep
  · have h : (system 1 fun _ _ => True).Reachable (created [.scheduleJobAsync 0]) :=
      .init (init_created _)
    have h := h.step ⟨.controller, .controller (.schedule false rfl rfl), trivial⟩
    have h := h.step ⟨.controller, .controller (.wait rfl .lock), trivial⟩
    have h := h.step ⟨.controller, .controller (.wait rfl (.pass ⟨rfl, rfl⟩)), trivial⟩
    have h := h.step ⟨.controller, .controller (.set rfl), trivial⟩
    have h := h.step ⟨.controller, .controller (.unlock rfl), trivial⟩
    have h := h.step ⟨.controller, .controller (.notify rfl), trivial⟩
    have h := h.step ⟨.controller, .controller (.destroy rfl rfl), trivial⟩
    have h := h.step ⟨.store, .store rfl, trivial⟩
    have h := h.step ⟨.signal 0, .signal rfl, trivial⟩
    have h := h.step ⟨.controller, .controller (.signalled rfl), trivial⟩
    have h := h.step ⟨.worker 0, .worker (.loopEnd rfl rfl), trivial⟩
    have h := h.step ⟨.worker 0, .worker (.exit rfl), trivial⟩
    have h := h.step ⟨.controller, .controller (.join' rfl rfl), trivial⟩
    exact ⟨_, h, rfl, rfl, rfl⟩

end ScaleStore.WorkerPool
