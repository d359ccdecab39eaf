import FlexQL.Server.Serving

/-!
# A server comes to rest

Workers are never stuck: one that has a connection can take everything that has arrived on it, answer
it and hang up, and one that waits can take the next connection. So the server can always serve what it
has accepted.
-/

namespace FlexQL

open Text Wire Runs

/-! ## One connection -/

namespace Peer

/-- What can be sent is sent, and the next statement is complete or `handle_client` is at `recv`. -/
theorem exists_sent (peer : Peer) : ∃ as, Runs.run Peer.step peer as =
    .ok { peer with sending := [], sent := peer.sent ++ peer.sending } := by
  by_cases hsending : peer.sending = []
  · exact ⟨[], by rw [Runs.run_nil, hsending, List.append_nil, ← hsending]⟩
  · refine ⟨[.send peer.sending.length], ?_⟩
    rw [run_singleton, Peer.step, if_pos ⟨List.length_pos_iff.mpr hsending, le_rfl⟩, List.drop_length,
      List.take_length]

/-- A worker can answer what is complete. -/
theorem exists_idle (peer : Peer) :
    ∃ as peer', Runs.run Peer.step peer as = .ok peer' ∧ peer'.Idle ∧ peer'.up = peer.up := by
  induction hlen : peer.accumulator.length using Nat.strong_induction_on generalizing peer with
  | _ len ih =>
    obtain ⟨as, has⟩ := exists_sent peer
    cases hcut : cut (ch ';') peer.accumulator with
    | none => exact ⟨as, _, has, ⟨rfl, cut_eq_none.mp hcut⟩, rfl⟩
    | some x =>
      obtain ⟨sql, rest⟩ := x
      have hacc := (cut_eq_some.mp hcut).1
      let next : Peer := { peer with
        accumulator := rest
        sending := replyBytes (Peer.replyTo sql {})
        answered := peer.answered ++ [(sql, Peer.replyTo sql {})]
        sent := peer.sent ++ peer.sending }
      have hexec : Peer.step { peer with sending := [], sent := peer.sent ++ peer.sending } (.exec {}) = .ok next := by
        simp only [Peer.step, hcut, if_true]
        rfl
      have hshort : rest.length < len := by
        rw [← hlen, hacc, List.length_append, List.length_cons]
        omega
      obtain ⟨as', peer', has', hidle, hup⟩ := ih rest.length hshort next rfl
      refine ⟨as ++ .exec {} :: as', peer', ?_, hidle, hup⟩
      rw [run_append_of_ok _ has, run_cons_of_ok _ hexec]
      exact has'

/-- A worker can take all that has arrived. -/
theorem exists_drained (peer : Peer) :
    ∃ as peer', Runs.run Peer.step peer as = .ok peer' ∧ peer'.Idle ∧ peer'.up = [] := by
  induction hlen : peer.up.length using Nat.strong_induction_on generalizing peer with
  | _ len ih =>
    obtain ⟨as, peer', has, hidle, hup⟩ := exists_idle peer
    by_cases hempty : peer'.up = []
    · exact ⟨as, peer', has, hidle, hempty⟩
    · have hpos := List.length_pos_iff.mpr hempty
      have hcan : canRecv (min peer'.up.length bufferSize) peer'.up := by
        simp only [canRecv, bufferSize]
        omega
      let next : Peer := { peer' with
        up := peer'.up.drop (min peer'.up.length bufferSize)
        accumulator := peer'.accumulator ++ cStr (peer'.up.take (min peer'.up.length bufferSize))
        received := peer'.received ++ cStr (peer'.up.take (min peer'.up.length bufferSize)) }
      have hrecv : Peer.step peer' (.recv (min peer'.up.length bufferSize)) = .ok next := if_pos ⟨hidle, hcan⟩
      have hshort : next.up.length < len := by
        rw [← hlen, ← hup, List.length_drop]
        simp only [bufferSize]
        omega
      obtain ⟨as', peer'', has', hidle', hup'⟩ := ih next.up.length hshort next rfl
      refine ⟨as ++ .recv (min peer'.up.length bufferSize) :: as', peer'', ?_, hidle', hup'⟩
      rw [run_append_of_ok _ has, run_cons_of_ok _ hrecv]
      exact has'

end Peer

namespace Serving

variable {s s' : Serving} {n w i : ℕ} {peer : Peer}

/-! ## The workers -/

/-- What a worker does on its connection, it does in the server. -/
theorem run_work {as : List Action} {peer' : Peer} (hw : s.pool.1.workers[w]? = some (.running i))
    (hpeer : s.peers[i]? = some peer) (has : Runs.run Peer.step peer as = .ok peer') :
    ∃ log, Runs.run Serving.step s (as.map (Event.work w)) = .ok ⟨s.pool, s.peers.set i peer', log⟩ := by
  induction as generalizing s peer with
  | nil =>
    cases has
    obtain ⟨hi, rfl⟩ := List.getElem?_eq_some_iff.mp hpeer
    exact ⟨s.log, by rw [List.set_getElem_self]; rfl⟩
  | cons a as ih =>
    obtain ⟨u, hu, hrest⟩ := run_cons_eq_ok has
    have hstep : Serving.step s (.work w a) = .ok { s with
        peers := s.peers.set i u, log := s.log ++ (peer.executed a).map (Prod.mk i) } := by
      simp only [Serving.step, connection_eq_some.mpr ⟨hw, hpeer⟩, hu]
      rfl
    have hself := List.getElem?_set_self (a := u) (List.getElem?_eq_some_iff.mp hpeer).1
    obtain ⟨log, hlog⟩ := ih (s := { s with
      peers := s.peers.set i u, log := s.log ++ (peer.executed a).map (Prod.mk i) }) hw hself hrest
    refine ⟨log, ?_⟩
    rw [List.map_cons, run_cons_of_ok _ hstep, hlog, List.set_set]

/-- What happens without a new connection and without bytes of the peers. -/
def Event.Inner : Event → Prop
  | .wake _ | .work _ _ | .hangUp _ => True
  | _ => False

theorem arrived_of_inner {events : List Event} (h : ∀ ev ∈ events, ev.Inner) (i : ℕ) : arrived i events = [] := by
  refine List.flatMap_eq_nil_iff.mpr fun ev hev => ?_
  cases ev with
  | arrive j bytes => exact (h _ hev).elim
  | _ => rfl

theorem length_of_inner {events : List Event} (h : ∀ ev ∈ events, ev.Inner)
    (hrun : Runs.run Serving.step s events = .ok s') : s'.peers.length = s.peers.length := by
  refine ((guarded_of_forall h s).run_induction (fun _ u => u.peers.length = s.peers.length) ?_ rfl hrun)
  intro _ u ev u' hu hev hstep
  rw [← hu]
  cases steps_of_step hstep with
  | accept hpool => exact hev.elim
  | arrive bytes hpeer => exact hev.elim
  | wake hpool => rfl
  | work hw hpeer hpeer' => exact List.length_set ..
  | hangUp hw hpeer hidle hpool => rfl

/-- A worker can come to the end of its connection. -/
theorem Sound.exists_hangUp (h : s.Sound n) (hw : s.pool.1.workers[w]? = some (.running i)) :
    ∃ events s', (∀ ev ∈ events, ev.Inner) ∧ Runs.run Serving.step s events = .ok s' ∧
      s'.pool.1.queue = s.pool.1.queue ∧ s'.pool.1.running.length + 1 = s.pool.1.running.length ∧
      s'.pool.2.finished = s.pool.2.finished ++ [i] ∧ ∃ peer, s'.peers[i]? = some peer ∧ peer.up = [] := by
  have hi := lt_of_lt_of_le (h.lt_started hw) h.started_le
  obtain ⟨as, peer', has, hidle, hup⟩ := s.peers[i].exists_drained
  obtain ⟨log, hlog⟩ := run_work hw (List.getElem?_eq_getElem hi) has
  have hself := List.getElem?_set_self (a := peer') hi
  let closed : Serving := ⟨({ s.pool.1 with
    workers := s.pool.1.workers.set w .waiting
    active := (s.pool.1.active + (2 ^ 64 - 1)) % 2 ^ 64 }, { s.pool.2 with finished := s.pool.2.finished ++ [i] }),
    s.peers.set i peer', log⟩
  have hconn : connection ⟨s.pool, s.peers.set i peer', log⟩ w = some (i, peer') :=
    connection_eq_some.mpr ⟨hw, hself⟩
  have hcomplete : ThreadPool.step s.pool (.complete w) = .ok closed.pool := by
    simp only [ThreadPool.step, ThreadPool.complete, ThreadPool.record, hw]
    rfl
  have hclose : Serving.step ⟨s.pool, s.peers.set i peer', log⟩ (.hangUp w) = .ok closed := by
    simp only [Serving.step, hconn, if_pos hidle, poolStep, hcomplete]
    rfl
  refine ⟨as.map (Event.work w) ++ [.hangUp w], closed, ?_, ?_, rfl, ?_, rfl, peer', hself, hup⟩
  · intro ev hev
    rcases List.mem_append.mp hev with hev | hev
    · obtain ⟨a, -, rfl⟩ := List.mem_map.mp hev
      trivial
    · rw [List.mem_singleton.mp hev]
      trivial
  · rw [run_append_of_ok _ hlog, run_singleton]
    exact hclose
  · have hlength := (ThreadPool.filterMap_set hw .waiting).length_eq
    simp only [Worker.task, Option.toList_some, Option.toList_none, List.length_append, List.length_singleton,
      List.nil_append] at hlength
    rw [Nat.add_comm]
    exact hlength

/-- A waiting worker takes the next connection. -/
theorem Sound.exists_wake (h : s.Sound n) (hn : 0 < n) (hrunning : s.pool.1.running = []) {queue : List ℕ}
    (hqueue : s.pool.1.queue = i :: queue) : ∃ s', Serving.step s (.wake 0) = .ok s' ∧
      s'.pool.1.queue = queue ∧ s'.pool.1.running.length ≤ 1 ∧ s'.pool.2.finished = s.pool.2.finished ∧
      s'.peers = s.peers := by
  have hpos : 0 < s.pool.1.workers.length := h.accounted.workers.symm ▸ hn
  have hw : s.pool.1.workers[0]? = some .waiting := by
    rw [List.getElem?_eq_getElem hpos]
    cases hx : s.pool.1.workers[0] with
    | waiting => rfl
    | running j =>
      have hmem := mem_running (List.getElem?_eq_some_iff.mpr ⟨hpos, hx⟩)
      rw [hrunning] at hmem
      cases hmem
    | exited =>
      have hstop := h.accounted.exited (hx ▸ List.getElem_mem hpos)
      exact absurd (h.accepting.symm.trans hstop) (by decide)
  let woken : Serving := { s with pool := ({ s.pool.1 with
    workers := s.pool.1.workers.set 0 (.running i)
    queue := queue
    active := (s.pool.1.active + 1) % 2 ^ 64 }, { s.pool.2 with started := s.pool.2.started ++ [i] }) }
  have hpool : ThreadPool.step s.pool (.wake 0) = .ok woken.pool := by
    simp only [ThreadPool.step, ThreadPool.wake, ThreadPool.record, hw, hqueue]
    rfl
  refine ⟨woken, ?_, rfl, ?_, rfl, rfl⟩
  · simp only [Serving.step, poolStep, hpool]
    rfl
  · have hlength := (ThreadPool.filterMap_set hw (.running i)).length_eq
    have hnone : (s.pool.1.workers.filterMap Worker.task).length = 0 := congrArg List.length hrunning
    simp only [Worker.task, Option.toList_some, Option.toList_none, List.length_append, List.length_singleton,
      List.nil_append, hnone] at hlength
    exact hlength.le

/-- At rest every connection is finished. -/
theorem Sound.mem_finished (h : s.Sound n) (hqueue : s.pool.1.queue = []) (hrunning : s.pool.1.running = [])
    (hpeer : s.peers[i]? = some peer) : i ∈ s.pool.2.finished := by
  have hactive : s.pool.1.active = 0 := h.accounted.active.trans (congrArg List.length hrunning)
  have hall := h.accounted.all_finished hqueue hactive
  rw [h.submitted] at hall
  exact hall.mem_iff.mp (List.mem_range.mpr (List.getElem?_eq_some_iff.mp hpeer).1)

/-- The server can come to rest. -/
theorem Sound.exists_rest (h : s.Sound n) (hpos : 0 < n) (hn : n < 2 ^ 64) : ∃ events s',
    (∀ ev ∈ events, ev.Inner) ∧ Runs.run Serving.step s events = .ok s' ∧
      s'.pool.1.queue = [] ∧ s'.pool.1.running = [] ∧
      ∀ i peer, s'.peers[i]? = some peer → i ∉ s.pool.2.finished → peer.up = [] := by
  induction hm : 2 * s.pool.1.queue.length + s.pool.1.running.length using Nat.strong_induction_on
    generalizing s with
  | _ m ih =>
    cases hrunning : s.pool.1.running with
    | nil =>
      cases hqueue : s.pool.1.queue with
      | nil =>
        exact ⟨[], s, by simp, rfl, hqueue, hrunning,
          fun i peer hpeer hi => absurd (h.mem_finished hqueue hrunning hpeer) hi⟩
      | cons i queue =>
        obtain ⟨u, hu, hqueue', hle, hfinished, -⟩ := h.exists_wake hpos hrunning hqueue
        have hless : 2 * u.pool.1.queue.length + u.pool.1.running.length < m := by
          rw [hqueue, hrunning, List.length_cons, List.length_nil] at hm
          rw [hqueue']
          omega
        obtain ⟨events, s', hinner, hrun, hend, hnone, hup⟩ := ih _ hless (h.step hn hu) rfl
        refine ⟨.wake 0 :: events, s', List.forall_mem_cons.mpr ⟨trivial, hinner⟩, ?_, hend, hnone, ?_⟩
        · rw [run_cons_of_ok _ hu]
          exact hrun
        · rw [hfinished] at hup
          exact hup
    | cons i rest =>
      have hmem : i ∈ s.pool.1.running := hrunning ▸ List.mem_cons_self
      obtain ⟨x, hx, htask⟩ := List.mem_filterMap.mp hmem
      obtain ⟨w, hw⟩ := List.mem_iff_getElem?.mp hx
      cases x with
      | waiting => cases htask
      | exited => cases htask
      | running j =>
        obtain rfl : j = i := Option.some.inj htask
        obtain ⟨events, u, hinner, hu, hqueue', hlength, hfinished, peer, hpeer, hempty⟩ := h.exists_hangUp hw
        have hless : 2 * u.pool.1.queue.length + u.pool.1.running.length < m := by
          rw [hqueue']
          omega
        have hsound := h.run hn hu
        obtain ⟨later, s', hinner', hrun, hend, hnone, hup⟩ := ih _ hless hsound rfl
        refine ⟨events ++ later, s', List.forall_mem_append.mpr ⟨hinner, hinner'⟩, ?_, hend, hnone, ?_⟩
        · rw [run_append_of_ok _ hu]
          exact hrun
        · intro k peer' hpeer' hk
          by_cases hkj : k = j
          · subst hkj
            have hclosed := hsound.closed_run hn hrun (hfinished ▸ List.mem_append_right _ List.mem_cons_self) hpeer
            rw [arrived_of_inner hinner', List.append_nil, hpeer'] at hclosed
            rw [Option.some.inj hclosed]
            exact hempty
          · refine hup k peer' hpeer' fun hmem' => ?_
            rw [hfinished] at hmem'
            rcases List.mem_append.mp hmem' with hmem' | hmem'
            · exact hk hmem'
            · exact hkj (List.mem_singleton.mp hmem')

end Serving

end FlexQL
