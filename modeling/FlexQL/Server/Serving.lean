import FlexQL.Lib.Traces
import FlexQL.Server.ThreadPool
import FlexQL.Server.WireInvariant

/-!
# The connections of a server

`Server::run` accepts connections and submits a task for each of them; the worker that takes the task
runs `handle_client` until `recv` returns nothing. Workers take turns in any order, and peers send
when they like. The workers share the executor, so what it replies to a statement is left open here.
-/

namespace FlexQL

open Text Wire Runs Traces

/-- A connection at the server. The last three fields keep what happened on it so far. -/
structure Peer where
  /-- The bytes on their way to the server. -/
  up : Text := []
  accumulator : Text := []
  /-- The part of the responses that is not sent yet. -/
  sending : Text := []
  /-- What was appended to the accumulator. -/
  received : Text := []
  /-- The statements, and the replies to them. -/
  answered : List (Text × Reply) := []
  sent : Text := []
  deriving DecidableEq, Repr

/-- What `handle_client` does between two calls that may block. -/
inductive Action
  | recv (n : ℕ)
  /-- The executor replies to the next statement, if it is asked. -/
  | exec (reply : Reply)
  | send (n : ℕ)
  deriving DecidableEq, Repr

namespace Peer

/-- `handle_client` is at `recv`: everything is sent, and no statement is complete. -/
def Idle (peer : Peer) : Prop := peer.sending = [] ∧ ch ';' ∉ peer.accumulator

instance (peer : Peer) : Decidable peer.Idle := inferInstanceAs (Decidable (_ ∧ _))

/-- The executor is not asked for other statements. -/
def replyTo (sql : Text) (reply : Reply) : Reply :=
  if (Parser.parse sql).type = .none then { err := str "Invalid SQL" } else reply

def step (peer : Peer) : Action → Except Blocked Peer
  | .recv n =>
    if peer.Idle ∧ canRecv n peer.up then
      .ok { peer with
        up := peer.up.drop n
        accumulator := peer.accumulator ++ cStr (peer.up.take n)
        received := peer.received ++ cStr (peer.up.take n) }
    else .error .blocked
  | .exec reply =>
    match cut (ch ';') peer.accumulator with
    | none => .error .blocked
    | some (sql, rest) =>
      if peer.sending = [] then
        .ok { peer with
          accumulator := rest
          sending := replyBytes (replyTo sql reply)
          answered := peer.answered ++ [(sql, replyTo sql reply)] }
      else .error .blocked
  | .send n =>
    if 0 < n ∧ n ≤ peer.sending.length then
      .ok { peer with sending := peer.sending.drop n, sent := peer.sent ++ peer.sending.take n }
    else .error .blocked

/-- The statement that an action answers. -/
def executed (peer : Peer) : Action → List (Text × Reply)
  | .exec reply => ((cut (ch ';') peer.accumulator).map fun x => (x.1, replyTo x.1 reply)).toList
  | _ => []

/-- The statements are cut out of what was received, in its order; each gets one reply, and the
replies are sent in this order. -/
structure Sound (peer : Peer) : Prop where
  received : peer.received = terminated (peer.answered.map Prod.fst) ++ peer.accumulator
  whole : ∀ x ∈ peer.answered, ch ';' ∉ x.1
  sent : peer.sent ++ peer.sending = peer.answered.flatMap fun x => replyBytes x.2
  invalid : ∀ x ∈ peer.answered, (Parser.parse x.1).type = .none → x.2 = { err := str "Invalid SQL" }

variable {peer peer' : Peer} {a : Action}

theorem sound_new : Sound {} := ⟨rfl, by simp, rfl, by simp⟩

theorem step_recv {n : ℕ} (h : peer.step (.recv n) = .ok peer') : peer.Idle ∧ canRecv n peer.up ∧
    peer' = { peer with
      up := peer.up.drop n
      accumulator := peer.accumulator ++ cStr (peer.up.take n)
      received := peer.received ++ cStr (peer.up.take n) } := by
  rw [step] at h
  split at h
  · rename_i hguard
    exact ⟨hguard.1, hguard.2, (Except.ok.inj h).symm⟩
  · cases h

theorem step_exec {reply : Reply} (h : peer.step (.exec reply) = .ok peer') : peer.sending = [] ∧
    ∃ sql rest, cut (ch ';') peer.accumulator = some (sql, rest) ∧
      peer' = { peer with
        accumulator := rest
        sending := replyBytes (replyTo sql reply)
        answered := peer.answered ++ [(sql, replyTo sql reply)] } := by
  rw [step] at h
  split at h
  · cases h
  · rename_i sql rest hcut
    split at h
    · rename_i hsending
      exact ⟨hsending, sql, rest, hcut, (Except.ok.inj h).symm⟩
    · cases h

theorem step_send {n : ℕ} (h : peer.step (.send n) = .ok peer') :
    peer' = { peer with sending := peer.sending.drop n, sent := peer.sent ++ peer.sending.take n } := by
  rw [step] at h
  split at h
  · exact (Except.ok.inj h).symm
  · cases h

theorem Sound.step (h : peer.Sound) (hstep : peer.step a = .ok peer') : peer'.Sound := by
  cases a with
  | recv n =>
    obtain ⟨-, -, rfl⟩ := step_recv hstep
    refine ⟨?_, h.whole, h.sent, h.invalid⟩
    rw [← List.append_assoc, ← h.received]
  | exec reply =>
    obtain ⟨hsending, sql, rest, hcut, rfl⟩ := step_exec hstep
    obtain ⟨hacc, hsql⟩ := cut_eq_some.mp hcut
    constructor
    · have hreceived := h.received
      rw [hacc] at hreceived
      rw [hreceived, List.map_append, terminated_append]
      simp [terminated]
    · intro x hx
      rcases List.mem_append.mp hx with hx | hx
      · exact h.whole x hx
      · rw [List.mem_singleton.mp hx]
        exact hsql
    · have hsent := h.sent
      rw [hsending, List.append_nil] at hsent
      simp only [hsent, List.flatMap_append, List.flatMap_singleton]
    · intro x hx hnone
      rcases List.mem_append.mp hx with hx | hx
      · exact h.invalid x hx hnone
      · rw [List.mem_singleton.mp hx] at hnone ⊢
        exact if_pos hnone
  | send n =>
    obtain rfl := step_send hstep
    refine ⟨h.received, h.whole, ?_, h.invalid⟩
    rw [List.append_assoc, List.take_append_drop, h.sent]

theorem answered_step (hstep : peer.step a = .ok peer') : peer'.answered = peer.answered ++ peer.executed a := by
  cases a with
  | recv n =>
    obtain ⟨-, -, rfl⟩ := step_recv hstep
    simp [executed]
  | exec reply =>
    obtain ⟨-, sql, rest, hcut, rfl⟩ := step_exec hstep
    simp [executed, hcut]
  | send n =>
    obtain rfl := step_send hstep
    simp [executed]

/-- No worker has been at work on the connection. -/
def Untouched (peer : Peer) : Prop := peer = { up := peer.up }

end Peer

/-- The server while it accepts connections. Connections have numbers in the order of `accept`, and
these stand for their tasks. -/
structure Serving where
  pool : ThreadPool ℕ × ThreadPool.History ℕ
  peers : List Peer
  /-- What was answered on all connections, in its order. -/
  log : List (ℕ × Text × Reply)
  deriving DecidableEq, Repr

namespace Serving

def init (numThreads hardware : ℕ) : Serving := ⟨(ThreadPool.init numThreads hardware, .empty), [], []⟩

inductive Event
  | accept
  /-- A peer sends. -/
  | arrive (i : ℕ) (bytes : Text)
  | wake (w : ℕ)
  | work (w : ℕ) (a : Action)
  /-- `recv` returns 0 or fails, and the worker closes the connection. -/
  | hangUp (w : ℕ)
  deriving DecidableEq, Repr

def poolStep (s : Serving) (e : ThreadPool.Event ℕ) : Except Blocked Serving :=
  match ThreadPool.step s.pool e with
  | .error _ => .error .blocked
  | .ok pool => .ok { s with pool := pool }

/-- The connection on which a worker is at work. -/
def connection (s : Serving) (w : ℕ) : Option (ℕ × Peer) :=
  (s.pool.1.workers[w]?.bind Worker.task).bind fun i => s.peers[i]?.map fun peer => (i, peer)

def step (s : Serving) : Event → Except Blocked Serving
  | .accept => do
    let s' ← s.poolStep (.submit s.peers.length)
    return { s' with peers := s.peers ++ [({} : Peer)] }
  | .arrive i bytes =>
    match s.peers[i]? with
    | none => .error .blocked
    | some peer => .ok { s with peers := s.peers.set i { peer with up := peer.up ++ bytes } }
  | .wake w => s.poolStep (.wake w)
  | .work w a =>
    match s.connection w with
    | none => .error .blocked
    | some (i, peer) => do
      let peer' ← peer.step a
      return { s with peers := s.peers.set i peer', log := s.log ++ (peer.executed a).map (Prod.mk i) }
  | .hangUp w =>
    match s.connection w with
    | none => .error .blocked
    | some (_, peer) => if peer.Idle then s.poolStep (.complete w) else .error .blocked

variable {s s' : Serving}

/-- What can happen. -/
inductive Steps : Serving → Event → Serving → Prop
  | accept {s : Serving} {pool : ThreadPool ℕ × ThreadPool.History ℕ}
    (hpool : ThreadPool.Steps s.pool (.submit s.peers.length) pool) :
    Steps s .accept ⟨pool, s.peers ++ [({} : Peer)], s.log⟩
  | arrive {s : Serving} {i : ℕ} {peer : Peer} (bytes : Text) (hpeer : s.peers[i]? = some peer) :
    Steps s (.arrive i bytes) { s with peers := s.peers.set i { peer with up := peer.up ++ bytes } }
  | wake {s : Serving} {w : ℕ} {pool : ThreadPool ℕ × ThreadPool.History ℕ}
    (hpool : ThreadPool.Steps s.pool (.wake w) pool) : Steps s (.wake w) { s with pool := pool }
  | work {s : Serving} {w i : ℕ} {peer peer' : Peer} {a : Action} (hw : s.pool.1.workers[w]? = some (.running i))
    (hpeer : s.peers[i]? = some peer) (hstep : peer.step a = .ok peer') :
    Steps s (.work w a)
      { s with peers := s.peers.set i peer', log := s.log ++ (peer.executed a).map (Prod.mk i) }
  | hangUp {s : Serving} {w i : ℕ} {peer : Peer} {pool : ThreadPool ℕ × ThreadPool.History ℕ}
    (hw : s.pool.1.workers[w]? = some (.running i)) (hpeer : s.peers[i]? = some peer) (hidle : peer.Idle)
    (hpool : ThreadPool.Steps s.pool (.complete w) pool) : Steps s (.hangUp w) { s with pool := pool }

theorem poolStep_eq_ok {e : ThreadPool.Event ℕ} (h : s.poolStep e = .ok s') :
    ∃ pool, ThreadPool.Steps s.pool e pool ∧ s' = { s with pool := pool } := by
  unfold poolStep at h
  split at h
  · cases h
  · rename_i pool hpool
    exact ⟨pool, ThreadPool.steps_of_step hpool, (Except.ok.inj h).symm⟩

theorem connection_eq_some {w i : ℕ} {peer : Peer} :
    s.connection w = some (i, peer) ↔ s.pool.1.workers[w]? = some (.running i) ∧ s.peers[i]? = some peer := by
  unfold connection
  cases hw : s.pool.1.workers[w]? with
  | none => simp
  | some x =>
    cases x with
    | running j =>
      have hsame : s.peers[j]?.map (fun peer => (j, peer)) = some (i, peer) ↔ j = i ∧ s.peers[i]? = some peer := by
        constructor
        · intro h
          obtain ⟨peer', hpeer', heq⟩ := Option.map_eq_some_iff.mp h
          cases heq
          exact ⟨rfl, hpeer'⟩
        · rintro ⟨rfl, hpeer⟩
          rw [hpeer]
          rfl
      simpa [Worker.task] using hsame
    | waiting => simp [Worker.task]
    | exited => simp [Worker.task]

theorem steps_of_step {ev : Event} (h : step s ev = .ok s') : Steps s ev s' := by
  cases ev with
  | accept =>
    obtain ⟨u, hu, h⟩ := Fallible.bind_eq_ok h
    obtain ⟨pool, hpool, rfl⟩ := poolStep_eq_ok hu
    cases h
    exact .accept hpool
  | arrive i bytes =>
    rw [step] at h
    split at h
    · cases h
    · rename_i peer hpeer
      cases h
      exact .arrive bytes hpeer
  | wake w =>
    obtain ⟨pool, hpool, rfl⟩ := poolStep_eq_ok h
    exact .wake hpool
  | work w a =>
    rw [step] at h
    split at h
    · cases h
    · rename_i i peer hconn
      obtain ⟨hw, hpeer⟩ := connection_eq_some.mp hconn
      obtain ⟨peer', hpeer', h⟩ := Fallible.bind_eq_ok h
      cases h
      exact .work hw hpeer hpeer'
  | hangUp w =>
    rw [step] at h
    split at h
    · cases h
    · rename_i i peer hconn
      obtain ⟨hw, hpeer⟩ := connection_eq_some.mp hconn
      split at h
      · rename_i hidle
        obtain ⟨pool, hpool, rfl⟩ := poolStep_eq_ok h
        exact .hangUp hw hpeer hidle hpool
      · cases h

/-! ## The invariant -/

/-- What holds for a connection at any time. -/
structure Kept (s : Serving) (i : ℕ) (peer : Peer) : Prop where
  sound : peer.Sound
  /-- Nobody is at work on a connection before its task is started, -/
  untouched : s.pool.2.started.length ≤ i → peer.Untouched
  /-- and behind it everything is answered. -/
  finished : i ∈ s.pool.2.finished → peer.Idle
  log : (proj Prod.fst i s.log).map Prod.snd = peer.answered

/-- What holds at any time for a pool of `n` workers. -/
structure Sound (n : ℕ) (s : Serving) : Prop where
  accounted : ThreadPool.Accounted n s.pool.1 s.pool.2
  /-- Nobody stops the pool of a running server. -/
  accepting : s.pool.1.stop = false
  submitted : s.pool.2.submitted = List.range s.peers.length
  peers : ∀ i peer, s.peers[i]? = some peer → Kept s i peer
  logged : ∀ x ∈ s.log, x.1 < s.pool.2.started.length
  /-- A single worker is at work on the connection that was started last. -/
  last : n = 1 → ∀ i ∈ s.pool.1.running, i + 1 = s.pool.2.started.length
  sequential : n = 1 → (s.log.map Prod.fst).Pairwise (· ≤ ·)

variable {n w i : ℕ} {peer : Peer}

theorem init_sound (numThreads hardware : ℕ) :
    Sound (ThreadPool.threadCount numThreads hardware) (init numThreads hardware) where
  accounted := ThreadPool.init_accounted numThreads hardware
  accepting := rfl
  submitted := rfl
  peers := by simp [init]
  logged := by simp [init]
  last := by simp [init, ThreadPool.running, ThreadPool.init, Worker.task, List.filterMap_replicate]
  sequential := by simp [init]

theorem Sound.started_le (h : s.Sound n) : s.pool.2.started.length ≤ s.peers.length := by
  have hlength := congrArg List.length (h.submitted.symm.trans h.accounted.queued)
  rw [List.length_range, List.length_append] at hlength
  omega

/-- Connections are started in their order. -/
theorem Sound.started_eq (h : s.Sound n) : s.pool.2.started = List.range s.pool.2.started.length := by
  have htake := congrArg (List.take s.pool.2.started.length) (h.submitted.symm.trans h.accounted.queued)
  rw [List.take_left, List.take_range, Nat.min_eq_left h.started_le] at htake
  exact htake.symm

/-- No connection has two workers, and none is at work on a finished one. -/
theorem Sound.once (h : s.Sound n) : (s.pool.1.running ++ s.pool.2.finished).Nodup :=
  h.accounted.begun.nodup_iff.mp (h.started_eq ▸ List.nodup_range)

theorem mem_running (hw : s.pool.1.workers[w]? = some (.running i)) : i ∈ s.pool.1.running :=
  List.mem_filterMap.mpr ⟨_, List.mem_of_getElem? hw, rfl⟩

theorem Sound.notMem_finished (h : s.Sound n) (hw : s.pool.1.workers[w]? = some (.running i)) :
    i ∉ s.pool.2.finished := fun hmem => (List.nodup_append.mp h.once).2.2 i (mem_running hw) i hmem rfl

theorem Sound.lt_started (h : s.Sound n) (hw : s.pool.1.workers[w]? = some (.running i)) :
    i < s.pool.2.started.length := by
  have hmem := h.accounted.begun.mem_iff.mpr (List.mem_append_left s.pool.2.finished (mem_running hw))
  rw [h.started_eq, List.mem_range] at hmem
  exact hmem

/-- The next connection in the queue is the first one that is not started. -/
theorem Sound.head_eq (h : s.Sound n) {queue : List ℕ} (hqueue : s.pool.1.queue = i :: queue) :
    i = s.pool.2.started.length := by
  have hqueued := h.accounted.queued
  rw [h.submitted, hqueue] at hqueued
  have hget : (List.range s.peers.length)[s.pool.2.started.length]? = some i := by
    rw [hqueued, List.getElem?_append_right le_rfl, Nat.sub_self, List.getElem?_cons_zero]
  obtain ⟨hi, rfl⟩ := List.getElem?_eq_some_iff.mp hget
  exact List.getElem_range _

/-- A worker that changes its place is the only one with another task. -/
theorem mem_running_set {workers : List (Worker ℕ)} {x : Worker ℕ}
    (h : i ∈ (workers.set w x).filterMap Worker.task) :
    x.task = some i ∨ i ∈ workers.filterMap Worker.task := by
  obtain ⟨y, hy, htask⟩ := List.mem_filterMap.mp h
  rcases List.mem_or_eq_of_mem_set hy with hy | rfl
  · exact Or.inr (List.mem_filterMap.mpr ⟨y, hy, htask⟩)
  · exact Or.inl htask

theorem Sound.accept (h : s.Sound n) {pool : ThreadPool ℕ × ThreadPool.History ℕ} (hn : n < 2 ^ 64)
    (hpool : ThreadPool.Steps s.pool (.submit s.peers.length) pool) :
    Sound n ⟨pool, s.peers ++ [({} : Peer)], s.log⟩ := by
  have hle := h.started_le
  obtain ⟨⟨p, history⟩, peers, log⟩ := s
  have haccounted := h.accounted.of_step hn hpool
  cases hpool
  refine ⟨haccounted, h.accepting, ?_, fun i peer hpeer => ?_, h.logged, h.last, h.sequential⟩
  · rw [List.length_append, List.length_singleton, List.range_succ, ← h.submitted]
  · rw [List.getElem?_append] at hpeer
    split at hpeer
    · obtain ⟨hsound, huntouched, hfinished, hlog⟩ := h.peers i peer hpeer
      exact ⟨hsound, huntouched, hfinished, hlog⟩
    · rename_i hi
      obtain rfl := List.mem_singleton.mp (List.mem_of_getElem? hpeer)
      refine ⟨Peer.sound_new, fun _ => rfl, fun _ => ⟨rfl, by simp⟩, ?_⟩
      have hnone : proj Prod.fst i log = [] := proj_eq_nil fun x hx => by
        have hlt := h.logged x hx
        dsimp only at hlt hle hi
        omega
      rw [hnone]
      rfl

theorem Sound.arrive (h : s.Sound n) (bytes : Text) (hpeer : s.peers[i]? = some peer) :
    Sound n { s with peers := s.peers.set i { peer with up := peer.up ++ bytes } } := by
  refine ⟨h.accounted, h.accepting, ?_, fun j peer' hpeer' => ?_, h.logged, h.last, h.sequential⟩
  · rw [List.length_set]
    exact h.submitted
  · by_cases hj : i = j
    · subst hj
      rw [List.getElem?_set_self (List.getElem?_eq_some_iff.mp hpeer).1] at hpeer'
      cases hpeer'
      obtain ⟨hsound, huntouched, hfinished, hlog⟩ := h.peers i peer hpeer
      refine ⟨⟨hsound.received, hsound.whole, hsound.sent, hsound.invalid⟩, fun hi => ?_, hfinished, hlog⟩
      have hnew := huntouched hi
      rw [Peer.Untouched] at hnew ⊢
      rw [hnew]
    · rw [List.getElem?_set_ne hj] at hpeer'
      obtain ⟨hsound, huntouched, hfinished, hlog⟩ := h.peers j peer' hpeer'
      exact ⟨hsound, huntouched, hfinished, hlog⟩

theorem Sound.wake (h : s.Sound n) {pool : ThreadPool ℕ × ThreadPool.History ℕ} (hn : n < 2 ^ 64)
    (hpool : ThreadPool.Steps s.pool (.wake w) pool) : Sound n { s with pool := pool } := by
  have haccounted := h.accounted.of_step hn hpool
  obtain ⟨⟨p, history⟩, peers, log⟩ := s
  cases hpool with
  | @start _ _ w task queue hw hqueue =>
    have htask := h.head_eq hqueue
    dsimp only at htask
    refine ⟨haccounted, h.accepting, h.submitted, fun i peer hpeer => ?_, fun x hx => ?_, fun hone i hi => ?_, h.sequential⟩
    · obtain ⟨hsound, huntouched, hfinished, hlog⟩ := h.peers i peer hpeer
      refine ⟨hsound, fun hi => huntouched ?_, hfinished, hlog⟩
      rw [List.length_append, List.length_singleton] at hi
      dsimp only
      omega
    · have hlt := h.logged x hx
      rw [List.length_append, List.length_singleton]
      dsimp only at hlt ⊢
      omega
    · -- the only worker was waiting
      obtain ⟨x, hx⟩ := List.length_eq_one_iff.mp (h.accounted.workers.trans hone)
      dsimp only at hx
      rw [hx] at hw
      obtain rfl := List.mem_singleton.mp (List.mem_of_getElem? hw)
      rcases mem_running_set hi with heq | hmem
      · rw [← Option.some.inj heq, htask, List.length_append, List.length_singleton]
      · simp [hx, Worker.task] at hmem
  | exit _ hw hqueue hstop => exact absurd (h.accepting.symm.trans hstop) (by decide)

theorem Sound.hangUp (h : s.Sound n) {pool : ThreadPool ℕ × ThreadPool.History ℕ} (hn : n < 2 ^ 64)
    (hw : s.pool.1.workers[w]? = some (.running i)) (hpeer : s.peers[i]? = some peer) (hidle : peer.Idle)
    (hpool : ThreadPool.Steps s.pool (.complete w) pool) : Sound n { s with pool := pool } := by
  have haccounted := h.accounted.of_step hn hpool
  obtain ⟨⟨p, history⟩, peers, log⟩ := s
  cases hpool with
  | @complete _ _ w task hw' =>
    obtain rfl : i = task := by
      rw [hw] at hw'
      cases hw'
      rfl
    refine ⟨haccounted, h.accepting, h.submitted, fun j peer' hpeer' => ?_, h.logged, fun hone j hj => ?_, h.sequential⟩
    · obtain ⟨hsound, huntouched, hfinished, hlog⟩ := h.peers j peer' hpeer'
      refine ⟨hsound, huntouched, fun hj => ?_, hlog⟩
      rcases List.mem_append.mp hj with hj | hj
      · exact hfinished hj
      · obtain rfl := List.mem_singleton.mp hj
        obtain rfl := Option.some.inj (hpeer.symm.trans hpeer')
        exact hidle
    · rcases mem_running_set hj with heq | hmem
      · cases heq
      · exact h.last hone j hmem

theorem Sound.work (h : s.Sound n) {peer' : Peer} {a : Action} (hw : s.pool.1.workers[w]? = some (.running i))
    (hpeer : s.peers[i]? = some peer) (hstep : peer.step a = .ok peer') :
    Sound n { s with peers := s.peers.set i peer', log := s.log ++ (peer.executed a).map (Prod.mk i) } := by
  have hlt := h.lt_started hw
  have hnew : ∀ x ∈ (peer.executed a).map (Prod.mk i), x.1 = i := by
    intro x hx
    obtain ⟨y, -, rfl⟩ := List.mem_map.mp hx
    rfl
  refine ⟨h.accounted, h.accepting, ?_, fun j peer'' hpeer'' => ?_, fun x hx => ?_, h.last, fun hone => ?_⟩
  · rw [List.length_set]
    exact h.submitted
  · by_cases hj : i = j
    · subst hj
      rw [List.getElem?_set_self (List.getElem?_eq_some_iff.mp hpeer).1] at hpeer''
      cases hpeer''
      obtain ⟨hsound, -, -, hlog⟩ := h.peers i peer hpeer
      refine ⟨hsound.step hstep, fun hi => ?_, fun hi => absurd hi (h.notMem_finished hw), ?_⟩
      · exact absurd hlt (Nat.not_lt.mpr hi)
      · rw [proj_append, List.map_append, hlog, Peer.answered_step hstep, proj_eq_self hnew, List.map_map]
        exact congrArg _ (List.map_id _)
    · rw [List.getElem?_set_ne hj] at hpeer''
      obtain ⟨hsound, huntouched, hfinished, hlog⟩ := h.peers j peer'' hpeer''
      refine ⟨hsound, huntouched, hfinished, ?_⟩
      rw [proj_append, proj_eq_nil fun x hx heq => hj ((hnew x hx).symm.trans heq), List.append_nil]
      exact hlog
  · rcases List.mem_append.mp hx with hx | hx
    · exact h.logged x hx
    · rw [hnew x hx]
      exact hlt
  · rw [List.map_append]
    refine List.pairwise_append.mpr ⟨h.sequential hone, ?_, fun k hk k' hk' => ?_⟩
    · rw [List.map_map, List.pairwise_map]
      exact List.pairwise_of_forall fun _ _ => le_rfl
    · obtain ⟨x, hx, rfl⟩ := List.mem_map.mp hk
      obtain ⟨x', hx', rfl⟩ := List.mem_map.mp hk'
      have hlast := h.last hone i (mem_running hw)
      have hbefore := h.logged x hx
      rw [hnew x' hx']
      omega

theorem Sound.step (h : s.Sound n) (hn : n < 2 ^ 64) {ev : Event} (hstep : step s ev = .ok s') : s'.Sound n := by
  cases steps_of_step hstep with
  | accept hpool => exact h.accept hn hpool
  | arrive bytes hpeer => exact h.arrive bytes hpeer
  | wake hpool => exact h.wake hn hpool
  | work hw hpeer hpeer' => exact h.work hw hpeer hpeer'
  | hangUp hw hpeer hidle hpool => exact h.hangUp hn hw hpeer hidle hpool

theorem Sound.run (h : s.Sound n) (hn : n < 2 ^ 64) {events : List Event}
    (hrun : Runs.run Serving.step s events = .ok s') : s'.Sound n :=
  run_induction (Sound n) (fun _ _ _ h hstep => Sound.step h hn hstep) h hrun

/-! ## Closed connections -/

/-- The bytes that a peer sends. -/
def arrived (i : ℕ) (events : List Event) : Text :=
  events.flatMap fun
    | .arrive j bytes => if i = j then bytes else []
    | _ => []

theorem arrived_cons (i : ℕ) (ev : Event) (events : List Event) :
    arrived i (ev :: events) = arrived i [ev] ++ arrived i events := by
  simp [arrived]

theorem finished_subset {pool pool' : ThreadPool ℕ × ThreadPool.History ℕ} {e : ThreadPool.Event ℕ}
    (h : ThreadPool.Steps pool e pool') : pool.2.finished ⊆ pool'.2.finished := by
  cases h <;> simp

/-- Nothing happens on a closed connection but that its peer sends. -/
theorem Sound.closed_step (h : s.Sound n) {ev : Event} (hstep : Serving.step s ev = .ok s')
    (hi : i ∈ s.pool.2.finished) (hpeer : s.peers[i]? = some peer) : i ∈ s'.pool.2.finished ∧
      s'.peers[i]? = some { peer with up := peer.up ++ arrived i [ev] } := by
  have hlt := (List.getElem?_eq_some_iff.mp hpeer).1
  have hsame : ({ peer with up := peer.up ++ [] } : Peer) = peer := by rw [List.append_nil]
  cases steps_of_step hstep with
  | accept hpool =>
    refine ⟨finished_subset hpool hi, ?_⟩
    rw [show arrived i [Event.accept] = [] from rfl, hsame, List.getElem?_append_left hlt]
    exact hpeer
  | @arrive j peer' bytes hpeer' =>
    refine ⟨hi, ?_⟩
    by_cases hj : j = i
    · subst hj
      obtain rfl := Option.some.inj (hpeer.symm.trans hpeer')
      rw [List.getElem?_set_self hlt]
      simp [arrived]
    · rw [List.getElem?_set_ne hj, hpeer]
      simp [arrived, Ne.symm hj]
  | wake hpool =>
    refine ⟨finished_subset hpool hi, ?_⟩
    rw [show arrived i [Event.wake _] = [] from rfl, hsame]
    exact hpeer
  | @work w j peer' peer'' a hw hpeer' hpeer'' =>
    refine ⟨hi, ?_⟩
    have hne : j ≠ i := by
      rintro rfl
      exact h.notMem_finished hw hi
    rw [show arrived i [Event.work w a] = [] from rfl, hsame, List.getElem?_set_ne hne]
    exact hpeer
  | hangUp hw hpeer' hidle hpool =>
    refine ⟨finished_subset hpool hi, ?_⟩
    rw [show arrived i [Event.hangUp _] = [] from rfl, hsame]
    exact hpeer

theorem Sound.closed_run (h : s.Sound n) (hn : n < 2 ^ 64) {events : List Event}
    (hrun : Runs.run Serving.step s events = .ok s') (hi : i ∈ s.pool.2.finished) (hpeer : s.peers[i]? = some peer) :
    s'.peers[i]? = some { peer with up := peer.up ++ arrived i events } := by
  induction events generalizing s peer with
  | nil =>
    cases hrun
    rw [hpeer]
    simp [arrived]
  | cons ev events ih =>
    obtain ⟨u, hu, hrest⟩ := run_cons_eq_ok hrun
    obtain ⟨hi', hpeer'⟩ := h.closed_step hu hi hpeer
    have hlater := ih (Sound.step h hn hu) hrest hi' hpeer'
    rw [List.append_assoc, ← arrived_cons] at hlater
    exact hlater

/-! ## All runs -/

/-- What the connections of a server with `n` workers see. -/
structure Serves (n : ℕ) (s : Serving) : Prop where
  /-- Connections are served in the order of `accept`, each by one worker, and once. -/
  inOrder : s.pool.2.started = List.range s.pool.2.started.length
  once : (s.pool.1.running ++ s.pool.2.finished).Nodup
  atMost : s.pool.1.running.length ≤ n
  /-- Each connection gets the responses to its own statements. -/
  kept : ∀ i peer, s.peers[i]? = some peer → Kept s i peer
  /-- A single worker executes the statements of one connection after those of the other. -/
  sequential : n = 1 → (s.log.map Prod.fst).Pairwise (· ≤ ·)

theorem Sound.serves (h : s.Sound n) : s.Serves n :=
  ⟨h.started_eq, h.once, h.accounted.running_le, h.peers, h.sequential⟩

/-- However workers and peers take turns, every connection is answered statement by statement, once it
gets a worker and until it is closed; nothing more happens on it then. -/
theorem serving_of_run (numThreads hardware : ℕ) (hnum : numThreads < 2 ^ 64) (hhard : hardware < 2 ^ 64)
    (events : List Event) (s : Serving) (hrun : Runs.run step (init numThreads hardware) events = .ok s) :
    s.Serves (ThreadPool.threadCount numThreads hardware) ∧
      ∀ later s', Runs.run step s later = .ok s' → ∀ i ∈ s.pool.2.finished, ∀ peer, s.peers[i]? = some peer →
        s'.peers[i]? = some { peer with up := peer.up ++ arrived i later } := by
  have hn := ThreadPool.threadCount_lt hnum hhard
  have hsound := (init_sound numThreads hardware).run hn hrun
  exact ⟨hsound.serves, fun later s' hlater i hi peer hpeer => hsound.closed_run hn hlater hi hpeer⟩

/-- Two connections for one worker. -/
def twoClients : List Event :=
  [.accept, .accept, .arrive 1 (str "Y;"), .wake 0, .arrive 0 (str "X;"), .work 0 (.recv 2), .work 0 (.exec {}),
    .work 0 (.send 23), .hangUp 0, .wake 0, .work 0 (.recv 2), .work 0 (.exec {}), .work 0 (.send 23), .hangUp 0]

theorem serving_of_run_twoClients : ∃ s, Runs.run step (init 1 8) twoClients = .ok s ∧
    s.log.map (fun x => (x.1, x.2.1)) = [(0, str "X"), (1, str "Y")] ∧ s.Serves 1 ∧
    ∀ later s', Runs.run step s later = .ok s' → ∀ i ∈ s.pool.2.finished, ∀ peer, s.peers[i]? = some peer →
      s'.peers[i]? = some { peer with up := peer.up ++ arrived i later } := by
  have hend : (Runs.run step (init 1 8) twoClients).map (fun s => s.log.map fun x => (x.1, x.2.1)) =
      .ok [(0, str "X"), (1, str "Y")] := by decide
  obtain ⟨s, hs, hlog⟩ := Fallible.map_eq_ok hend
  exact ⟨s, hs, hlog, serving_of_run 1 8 (by decide) (by decide) twoClients s hs⟩

end Serving

end FlexQL
