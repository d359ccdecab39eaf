import FlexQL.Lib.Fallible
import FlexQL.Lib.Runs
import Mathlib.Algebra.Group.Nat.Defs
import Mathlib.Data.List.Perm.Subperm

/-!
# The thread pool

The workers of a pool take tasks out of one queue. What the threads do under the mutex is one step each,
and the steps come in any order. Next to the pool the model keeps what was submitted, started and
finished so far.
-/

namespace FlexQL

open Runs

/-- Where a worker is in `worker_loop`. -/
inductive Worker (τ : Type*)
  | waiting
  | running (task : τ)
  | exited
  deriving DecidableEq, Repr

/-- The task that a worker is executing. -/
def Worker.task {τ : Type*} : Worker τ → Option τ
  | .running task => some task
  | _ => none

structure ThreadPool (τ : Type*) where
  workers : List (Worker τ)
  queue : List τ
  stop : Bool
  active : ℕ
  deriving DecidableEq, Repr

namespace ThreadPool

variable {τ : Type*}

/-- `num_threads` as the constructor corrects it. -/
def threadCount (numThreads hardware : ℕ) : ℕ :=
  if numThreads = 0 then max 1 hardware else numThreads

def init (numThreads hardware : ℕ) : ThreadPool τ where
  workers := List.replicate (threadCount numThreads hardware) .waiting
  queue := []
  stop := false
  active := 0

def submit (p : ThreadPool τ) (task : τ) : ThreadPool τ := { p with queue := p.queue ++ [task] }

/-- The first critical section of `worker_loop`, for the worker with number `w`. The worker goes on
sleeping as long as there is neither a task nor `stop_`. -/
def wake (p : ThreadPool τ) (w : ℕ) : Except Unit (ThreadPool τ) :=
  match p.workers[w]?, p.queue with
  | some .waiting, [] =>
    if p.stop then .ok { p with workers := p.workers.set w .exited } else .error ()
  | some .waiting, task :: queue =>
    .ok { p with
      workers := p.workers.set w (.running task)
      queue := queue
      active := (p.active + 1) % 2 ^ 64 }
  | _, _ => .error ()

/-- The second critical section of `worker_loop`. -/
def complete (p : ThreadPool τ) (w : ℕ) : Except Unit (ThreadPool τ) :=
  match p.workers[w]? with
  | some (.running _) =>
    .ok { p with
      workers := p.workers.set w .waiting
      active := (p.active + (2 ^ 64 - 1)) % 2 ^ 64 }
  | _ => .error ()

/-- `wait_all` returns as soon as it finds its predicate true. -/
def waitAll (p : ThreadPool τ) : Except Unit (ThreadPool τ) :=
  if p.queue.isEmpty ∧ p.active = 0 then .ok p else .error ()

/-- The destructor sets `stop_`, and it runs once. -/
def setStop (p : ThreadPool τ) : Except Unit (ThreadPool τ) :=
  if p.stop then .error () else .ok { p with stop := true }

/-- The tasks that are being executed. -/
def running (p : ThreadPool τ) : List τ := p.workers.filterMap Worker.task

/-! ## Steps -/

inductive Event (τ : Type*)
  | submit (task : τ)
  | wake (w : ℕ)
  | complete (w : ℕ)
  | waitAll
  | stop

def Event.submitted : Event τ → Option τ
  | .submit task => some task
  | _ => none

/-- What happened so far. -/
structure History (τ : Type*) where
  submitted : List τ
  started : List τ
  finished : List τ
  deriving DecidableEq, Repr

def History.empty : History τ := ⟨[], [], []⟩

/-- The history after an event in a state of the pool. -/
def record (p : ThreadPool τ) (h : History τ) : Event τ → History τ
  | .submit task => { h with submitted := h.submitted ++ [task] }
  | .wake _ => { h with started := h.started ++ p.queue.head?.toList }
  | .complete w => { h with finished := h.finished ++ (p.workers[w]?.bind Worker.task).toList }
  | .waitAll => h
  | .stop => h

/-- An event that is not possible in a state is an error. -/
def step (s : ThreadPool τ × History τ) (e : Event τ) : Except Unit (ThreadPool τ × History τ) := do
  let p ← match e with
    | .submit task => .ok (s.1.submit task)
    | .wake w => s.1.wake w
    | .complete w => s.1.complete w
    | .waitAll => s.1.waitAll
    | .stop => s.1.setStop
  return (p, s.1.record s.2 e)

variable {p p' : ThreadPool τ} {h : History τ} {s s' : ThreadPool τ × History τ} {w : ℕ}

/-- What can happen. -/
inductive Steps : ThreadPool τ × History τ → Event τ → ThreadPool τ × History τ → Prop
  | submit (p : ThreadPool τ) (h : History τ) (task : τ) :
    Steps (p, h) (.submit task) (p.submit task, { h with submitted := h.submitted ++ [task] })
  | start {p : ThreadPool τ} (h : History τ) {w : ℕ} {task : τ} {queue : List τ}
    (hw : p.workers[w]? = some .waiting) (hqueue : p.queue = task :: queue) :
    Steps (p, h) (.wake w) ({ p with
        workers := p.workers.set w (.running task)
        queue := queue
        active := (p.active + 1) % 2 ^ 64 }, { h with started := h.started ++ [task] })
  | exit {p : ThreadPool τ} (h : History τ) {w : ℕ}
    (hw : p.workers[w]? = some .waiting) (hqueue : p.queue = []) (hstop : p.stop = true) :
    Steps (p, h) (.wake w) ({ p with workers := p.workers.set w .exited }, h)
  | complete {p : ThreadPool τ} (h : History τ) {w : ℕ} {task : τ}
    (hw : p.workers[w]? = some (.running task)) :
    Steps (p, h) (.complete w) ({ p with
        workers := p.workers.set w .waiting
        active := (p.active + (2 ^ 64 - 1)) % 2 ^ 64 },
      { h with finished := h.finished ++ [task] })
  | waitAll {p : ThreadPool τ} (h : History τ) (hqueue : p.queue = []) (hactive : p.active = 0) :
    Steps (p, h) .waitAll (p, h)
  | stop {p : ThreadPool τ} (h : History τ) (hstop : p.stop = false) :
    Steps (p, h) .stop ({ p with stop := true }, h)

theorem steps_of_step {e : Event τ} (hstep : step s e = .ok s') : Steps s e s' := by
  obtain ⟨p, h⟩ := s
  cases e with
  | submit task =>
    cases hstep
    exact .submit p h task
  | wake w =>
    obtain ⟨p', hp', hstep⟩ := Fallible.bind_eq_ok hstep
    cases hstep
    dsimp only [wake] at hp'
    split at hp'
    · rename_i hw hqueue
      split at hp'
      · rename_i hstop
        cases hp'
        simpa [record, hqueue] using Steps.exit h hw hqueue hstop
      · cases hp'
    · rename_i task queue hw hqueue
      cases hp'
      simpa [record, hqueue] using Steps.start h hw hqueue
    · cases hp'
  | complete w =>
    obtain ⟨p', hp', hstep⟩ := Fallible.bind_eq_ok hstep
    cases hstep
    dsimp only [complete] at hp'
    split at hp'
    · rename_i task hw
      cases hp'
      simpa [record, hw, Worker.task] using Steps.complete h hw
    · cases hp'
  | waitAll =>
    obtain ⟨p', hp', hstep⟩ := Fallible.bind_eq_ok hstep
    cases hstep
    dsimp only [waitAll] at hp'
    split at hp'
    · rename_i hdone
      cases hp'
      exact .waitAll h (by simpa using hdone.1) hdone.2
    · cases hp'
  | stop =>
    obtain ⟨p', hp', hstep⟩ := Fallible.bind_eq_ok hstep
    cases hstep
    dsimp only [setStop] at hp'
    split at hp'
    · cases hp'
    · rename_i hstop
      cases hp'
      exact .stop h (by simpa using hstop)

/-! ## The accounts -/

/-- When one worker changes its place, the running tasks change by its task. -/
theorem filterMap_set {workers : List (Worker τ)} {x : Worker τ} (hw : workers[w]? = some x)
    (y : Worker τ) :
    (x.task.toList ++ (workers.set w y).filterMap Worker.task).Perm
      (y.task.toList ++ workers.filterMap Worker.task) := by
  obtain ⟨hlt, hx⟩ := List.getElem?_eq_some_iff.mp hw
  have hworkers : workers = workers.take w ++ x :: workers.drop (w + 1) := by
    rw [← hx, List.getElem_cons_drop, List.take_append_drop]
  have hset : workers.set w y = workers.take w ++ y :: workers.drop (w + 1) :=
    List.set_eq_take_append_cons_drop.trans (if_pos hlt)
  have hcons : ∀ (z : Worker τ) (l : List (Worker τ)),
      (z :: l).filterMap Worker.task = z.task.toList ++ l.filterMap Worker.task := by
    intro z l
    cases hz : z.task with
    | none => simp [hz]
    | some task => simp [hz]
  rw [hset]
  nth_rewrite 3 [hworkers]
  simp only [List.filterMap_append, hcons]
  generalize (workers.take w).filterMap Worker.task = front
  generalize (workers.drop (w + 1)).filterMap Worker.task = back
  have hswap : (front ++ (y.task.toList ++ back)).Perm (y.task.toList ++ (front ++ back)) :=
    List.perm_append_comm_assoc ..
  have hback : (x.task.toList ++ (front ++ back)).Perm (front ++ (x.task.toList ++ back)) :=
    List.perm_append_comm_assoc ..
  exact (hswap.append_left _).trans ((List.perm_append_comm_assoc ..).trans (hback.append_left _))

/-- Every task is in one place, and the tasks are started in the order of the queue. -/
structure Accounted (n : ℕ) (p : ThreadPool τ) (h : History τ) : Prop where
  workers : p.workers.length = n
  queued : h.submitted = h.started ++ p.queue
  begun : h.started.Perm (p.running ++ h.finished)
  active : p.active = p.running.length
  exited : .exited ∈ p.workers → p.stop = true

variable {n : ℕ}

theorem init_accounted (numThreads hardware : ℕ) :
    Accounted (threadCount numThreads hardware) (init numThreads hardware : ThreadPool τ) .empty where
  workers := List.length_replicate ..
  queued := rfl
  begun := by simp [running, init, History.empty, Worker.task, List.filterMap_replicate]
  active := by simp [running, init, Worker.task, List.filterMap_replicate]
  exited := fun h => by simp [init] at h

theorem Accounted.running_le (ha : Accounted n p h) : p.running.length ≤ n :=
  ha.workers ▸ List.length_filterMap_le ..

/-- An executed task is counted. -/
theorem Accounted.active_pos (ha : Accounted n p h) {task : τ}
    (hw : p.workers[w]? = some (.running task)) : 0 < p.active := by
  rw [ha.active, List.length_pos_iff_exists_mem]
  exact ⟨task, List.mem_filterMap.mpr ⟨_, List.mem_of_getElem? hw, rfl⟩⟩

theorem Accounted.of_step (ha : Accounted n s.1 s.2) (hn : n < 2 ^ 64) {e : Event τ}
    (hstep : Steps s e s') : Accounted n s'.1 s'.2 := by
  cases hstep with
  | submit p h task =>
    replace ha : Accounted n p h := ha
    refine ⟨ha.workers, ?_, ha.begun, ha.active, ha.exited⟩
    simp only [submit, ha.queued, List.append_assoc]
  | @start p h w task queue hw hqueue =>
    replace ha : Accounted n p h := ha
    have hrunning := filterMap_set hw (.running task)
    have hle := List.length_filterMap_le Worker.task (p.workers.set w (.running task))
    rw [List.length_set, ha.workers] at hle
    have hlength := hrunning.length_eq
    simp only [Worker.task, Option.toList_none, Option.toList_some, List.nil_append,
      List.cons_append, List.length_cons] at hrunning hlength
    refine ⟨(List.length_set ..).trans ha.workers, ?_, ?_, ?_, ?_⟩
    · simp only [ha.queued, hqueue, List.append_assoc, List.cons_append, List.nil_append]
    · have hfirst := (List.perm_append_singleton task h.started).trans (ha.begun.cons task)
      exact hfirst.trans (hrunning.symm.append_right h.finished)
    · have hactive := ha.active
      dsimp only [running] at hactive ⊢
      rw [Nat.mod_eq_of_lt (by omega), hactive, hlength]
    · intro hexited
      rcases List.mem_or_eq_of_mem_set hexited with hexited | heq
      · exact ha.exited hexited
      · cases heq
  | @exit p h w hw hqueue hstop =>
    replace ha : Accounted n p h := ha
    have hrunning := filterMap_set hw .exited
    simp only [Worker.task, Option.toList_none, List.nil_append] at hrunning
    refine ⟨(List.length_set ..).trans ha.workers, ha.queued, ?_, ?_, fun _ => hstop⟩
    · exact ha.begun.trans (hrunning.symm.append_right _)
    · exact ha.active.trans hrunning.length_eq.symm
  | @complete p h w task hw =>
    replace ha : Accounted n p h := ha
    have hpos := ha.active_pos hw
    have hle := ha.running_le
    have hrunning := filterMap_set hw .waiting
    have hlength := hrunning.length_eq
    simp only [Worker.task, Option.toList_none, Option.toList_some, List.nil_append,
      List.cons_append, List.length_cons] at hrunning hlength
    refine ⟨(List.length_set ..).trans ha.workers, ha.queued, ?_, ?_, ?_⟩
    · have hmoved := ha.begun.trans (hrunning.symm.append_right h.finished)
      have hlast := List.perm_append_singleton task
        ((p.workers.set w .waiting).filterMap Worker.task ++ h.finished)
      rw [List.append_assoc] at hlast
      exact hmoved.trans hlast.symm
    · have hactive := ha.active
      dsimp only [running] at hactive hle ⊢
      omega
    · intro hexited
      rcases List.mem_or_eq_of_mem_set hexited with hexited | heq
      · exact ha.exited hexited
      · cases heq
  | waitAll h hqueue hactive => exact ha
  | stop h hstop => exact ⟨ha.workers, ha.queued, ha.begun, ha.active, fun _ => rfl⟩

/-- The tasks are queued, running or finished, and each is in one of these places. -/
theorem Accounted.submitted_perm (ha : Accounted n p h) :
    h.submitted.Perm (p.queue ++ p.running ++ h.finished) := by
  have hqueued : (h.started ++ p.queue).Perm (p.queue ++ h.started) := List.perm_append_comm
  have hbegun := ha.begun.append_left p.queue
  rw [ha.queued, List.append_assoc]
  exact hqueued.trans hbegun

/-- With an empty queue and no running task everything is finished. -/
theorem Accounted.all_finished (ha : Accounted n p h) (hqueue : p.queue = [])
    (hactive : p.active = 0) : h.submitted.Perm h.finished := by
  have hrunning : p.running = [] := List.length_eq_zero_iff.mp (ha.active.symm.trans hactive)
  have hperm := ha.submitted_perm
  rwa [hqueue, hrunning] at hperm

/-! ## The end of the pool -/

/-- What was submitted early is still known, and it has been started once a worker has exited. -/
structure Drains (early : List τ) (p : ThreadPool τ) (h : History τ) : Prop where
  submitted : early <+: h.submitted
  exited : .exited ∈ p.workers → early <+: h.started

variable {early : List τ}

/-- Before the stop no worker exits. -/
theorem Accounted.drains (ha : Accounted n p h) (hstop : p.stop = false) :
    Drains h.submitted p h :=
  ⟨List.prefix_rfl, fun hexited => by simp [ha.exited hexited] at hstop⟩

theorem Drains.of_step (hd : Drains early s.1 s.2) (ha : Accounted n s.1 s.2) {e : Event τ}
    (hstep : Steps s e s') : Drains early s'.1 s'.2 := by
  cases hstep with
  | submit p h task =>
    exact ⟨hd.submitted.trans (List.prefix_append ..), hd.exited⟩
  | start h hw hqueue =>
    refine ⟨hd.submitted, fun hexited => ?_⟩
    rcases List.mem_or_eq_of_mem_set hexited with hexited | heq
    · exact (hd.exited hexited).trans (List.prefix_append ..)
    · cases heq
  | exit h hw hqueue hstop =>
    refine ⟨hd.submitted, fun _ => ?_⟩
    have hqueued := ha.queued
    dsimp only at hqueued
    rw [hqueue, List.append_nil] at hqueued
    exact hqueued ▸ hd.submitted
  | complete h hw =>
    refine ⟨hd.submitted, fun hexited => ?_⟩
    rcases List.mem_or_eq_of_mem_set hexited with hexited | heq
    · exact hd.exited hexited
    · cases heq
  | waitAll h hqueue hactive => exact hd
  | stop h hstop => exact ⟨hd.submitted, hd.exited⟩

/-- When all workers have exited, the early tasks are finished. -/
theorem Drains.finished (hd : Drains early p h) (ha : Accounted n p h) (hn : 0 < n)
    (hall : ∀ x ∈ p.workers, x = .exited) : early.Subperm h.finished := by
  have hrunning : p.running = [] :=
    List.filterMap_eq_nil_iff.mpr fun x hx => (hall x hx) ▸ rfl
  have hexited : .exited ∈ p.workers := by
    obtain ⟨x, hx⟩ := List.exists_mem_of_length_pos (ha.workers.symm ▸ hn)
    exact hall x hx ▸ hx
  have hbegun := ha.begun
  rw [hrunning, List.nil_append] at hbegun
  exact (hd.exited hexited).sublist.subperm.trans hbegun.subperm

/-! ## Runs -/

theorem Accounted.of_run (ha : Accounted n s.1 s.2) (hn : n < 2 ^ 64) {events : List (Event τ)}
    (hrun : run step s events = .ok s') : Accounted n s'.1 s'.2 :=
  run_induction (fun s => Accounted n s.1 s.2)
    (fun _ _ _ ha hstep => ha.of_step hn (steps_of_step hstep)) ha hrun

theorem Drains.of_run (hd : Drains early s.1 s.2) (ha : Accounted n s.1 s.2) (hn : n < 2 ^ 64)
    {events : List (Event τ)} (hrun : run step s events = .ok s') : Drains early s'.1 s'.2 := by
  have hboth := run_induction (fun s => Accounted n s.1 s.2 ∧ Drains early s.1 s.2)
    (fun _ _ _ h hstep => ⟨h.1.of_step hn (steps_of_step hstep), h.2.of_step h.1 (steps_of_step hstep)⟩)
    ⟨ha, hd⟩ hrun
  exact hboth.2

/-- The history knows what was submitted. -/
theorem submitted_of_run {events : List (Event τ)} (hempty : s.2.submitted = [])
    (hrun : run step s events = .ok s') : s'.2.submitted = events.filterMap Event.submitted := by
  refine (guarded_true s events).run_induction
    (fun past s => s.2.submitted = past.filterMap Event.submitted) ?_ hempty hrun
  intro past s e s' hs _ hstep
  rw [List.filterMap_append, ← hs]
  cases steps_of_step hstep <;> simp [Event.submitted]

theorem threadCount_pos (numThreads hardware : ℕ) : 0 < threadCount numThreads hardware := by
  unfold threadCount
  split <;> omega

theorem threadCount_lt {numThreads hardware : ℕ} (hnum : numThreads < 2 ^ 64)
    (hhard : hardware < 2 ^ 64) : threadCount numThreads hardware < 2 ^ 64 := by
  unfold threadCount
  split <;> omega

end ThreadPool

open ThreadPool in
/-- In every interleaving the submitted tasks are the queued, the running and the finished ones, the
counter is the number of running tasks and stays positive as long as it is counted down, and the tasks
are started in the order in which they were submitted. `wait_all` returns when everything is finished,
and a pool whose workers have exited has finished what was submitted before the stop. -/
theorem threadPool_tasks_once {τ : Type*} (numThreads hardware : ℕ) (hnum : numThreads < 2 ^ 64)
    (hhard : hardware < 2 ^ 64) (events : List (Event τ)) (p : ThreadPool τ) (h : History τ)
    (hrun : run step (ThreadPool.init numThreads hardware, .empty) events = .ok (p, h)) :
    h.submitted = events.filterMap Event.submitted ∧
      h.submitted.Perm (p.queue ++ p.running ++ h.finished) ∧
      p.active = p.running.length ∧
      (∀ w s, step (p, h) (.complete w) = .ok s → s.1.active + 1 = p.active) ∧
      h.submitted = h.started ++ p.queue ∧
      (∀ s, step (p, h) .waitAll = .ok s → s = (p, h) ∧ h.submitted.Perm h.finished) ∧
      ((∀ x ∈ p.workers, x = .exited) → ∀ before after, events = before ++ .stop :: after →
        (before.filterMap Event.submitted).Subperm h.finished) := by
  have hn := threadCount_lt hnum hhard
  have ha : Accounted (threadCount numThreads hardware) p h :=
    (init_accounted numThreads hardware).of_run hn hrun
  refine ⟨submitted_of_run rfl hrun, ha.submitted_perm, ha.active, ?_, ha.queued, ?_, ?_⟩
  · intro w s hstep
    cases steps_of_step hstep with
    | complete _ hw =>
      have hpos := ha.active_pos hw
      have hle := ha.running_le
      have hactive := ha.active
      dsimp only
      omega
  · intro s hstep
    cases steps_of_step hstep with
    | waitAll _ hqueue hactive => exact ⟨rfl, ha.all_finished hqueue hactive⟩
  · rintro hall before after rfl
    obtain ⟨u, hbefore, hrest⟩ := run_append_eq_ok hrun
    have hau := (init_accounted numThreads hardware).of_run hn hbefore
    rw [← submitted_of_run rfl hbefore]
    cases hstop : step u .stop with
    | error e => simp [run_cons_of_error _ hstop] at hrest
    | ok v =>
      rw [run_cons_of_ok _ hstop] at hrest
      have hav := hau.of_step hn (steps_of_step hstop)
      have hdv : Drains u.2.submitted v.1 v.2 := by
        cases steps_of_step hstop with
        | stop _ hno => exact (hau.drains hno).of_step hau (steps_of_step hstop)
      exact (hdv.of_run hav hn hrest).finished ha (threadCount_pos numThreads hardware) hall

open ThreadPool in
/-- Two workers finish two tasks in the other order. -/
theorem threadPool_tasks_once_two :
    ∃ p h, run step (ThreadPool.init 2 8, .empty)
        [.submit 1, .submit 2, .wake 0, .wake 1, .complete 1, .complete 0, .waitAll, .stop, .wake 1,
          .wake 0] = .ok (p, h) ∧
      h.finished = [2, 1] ∧ h.submitted = [1, 2] ∧ [1, 2].Subperm h.finished := by
  have hrun : run step (ThreadPool.init 2 8, .empty)
      [.submit 1, .submit 2, .wake 0, .wake 1, .complete 1, .complete 0, .waitAll, .stop, .wake 1,
        .wake 0] = .ok (⟨[.exited, .exited], [], true, 0⟩, ⟨[1, 2], [1, 2], [2, 1]⟩) := by
    decide
  obtain ⟨-, -, -, -, -, -, hexited⟩ := threadPool_tasks_once 2 8 (by decide) (by decide) _ _ _ hrun
  exact ⟨_, _, hrun, rfl, rfl, hexited (by decide) [.submit 1, .submit 2, .wake 0, .wake 1,
    .complete 1, .complete 0, .waitAll] [.wake 1, .wake 0] rfl⟩

end FlexQL
