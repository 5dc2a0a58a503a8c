import Flower.Quic.Interleaving
/-!
# `Flower.Quic.Races` — interleavings that defeat the pool

Two schedules of concurrent `new_stream` calls, each a run of `World.step`
from `World.fresh`, so every state they pass through satisfies `PoolInv`.

  * `retired_slot_reused`: the reuse loop tests `total_accepted < 128` and
    not `completed`, and the sweep and the loop take the mutex separately;
    `open_bi` is called again on a slot another call retired in between.
  * `concurrent_calls_dial_each`: the mutex is released before the dial, so
    `n` calls that all pass the reuse pass before any of them pushes each
    open a connection of their own, where `n` calls in sequence dial one
    per 128.
-/

namespace Flower.Quic

/-! ## A retired slot is opened again -/

/-- One call dials connection `0`; then call `1` retires it after a failed
`open_bi`, between call `2`'s sweep and call `2`'s reuse pass. -/
def retireRace : List Event :=
  oneCall ++ [.call, .call, .step 1 .ok, .step 2 .ok, .step 1 .ok, .step 1 .ok, .step 1 .err,
   .step 1 .ok, .step 2 .ok, .step 2 .ok]

/-- The state `retireRace` reaches. -/
def raceState : World := (World.fresh.run retireRace).getD World.fresh

/-- **A retired slot is opened again.**  Some interleaving reaches a state
where a call awaits `open_bi` on slot `0`, whose `completed` flag another
call set after its own `open_bi` on it failed. -/
theorem retired_slot_reused : ∃ w, Reachable w ∧
    w.calls[2]? = some (.openBi 0) ∧ w.connections = [⟨0, 1, true⟩] :=
  ⟨raceState, Reachable.fresh.run retireRace rfl, rfl, rfl⟩

/-! ## Concurrent calls each dial

Nothing stops a second call from dialing while a first one is dialing: the
mutex is released before the dial.  Calls that all pass the reuse pass
before any of them pushes each open a connection of their own. -/

/-- Call `t` is made, sweeps, takes the mutex, finds the pool empty and
releases it. -/
def scanPast (t : Nat) : List Event := [.call, .step t .ok, .step t .ok, .step t .ok]

/-- Call `t` dials its own connection and pushes it. -/
def dialOwn (t : Nat) : List Event := List.replicate 5 (.step t .ok)

theorem run_scanPast (A : List Pc) :
    (⟨[], none, A, 0⟩ : World).run (scanPast A.length) = some ⟨[], none, A ++ [.endpoint], 0⟩ := by
  rw [scanPast, World.run, World.step, Option.some_bind]
  simp only [World.newCall, run_step_at, World.advance, if_true, World.goto, World.setPool,
    World.setLock, Option.some_bind, set_length_append_cons, sweep, List.filter_nil,
    List.getElem?_nil, World.run.eq_1]

theorem run_dialOwn (cs : List Connection) (A R : List Pc) :
    (⟨cs, none, A ++ .endpoint :: R, A.length⟩ : World).run (dialOwn A.length) =
      some ⟨cs ++ [⟨A.length, 1, false⟩], none, A ++ .done (.ok A.length) :: R, A.length + 1⟩ := by
  simp only [dialOwn, List.replicate, run_step_at, World.advance, if_true, World.goto, World.dialOne,
    World.setPool, Option.some_bind, set_length_append_cons, World.run.eq_1]

/-- `n` calls are made and each passes the reuse pass on the empty pool. -/
def scanAll : Nat → List Event
  | 0 => []
  | n + 1 => scanAll n ++ scanPast n

/-- Calls `0` to `t - 1` each dial and push their own connection. -/
def dialAll : Nat → List Event
  | 0 => []
  | t + 1 => dialAll t ++ dialOwn t

theorem run_scanAll (n : Nat) :
    World.fresh.run (scanAll n) = some ⟨[], none, List.replicate n .endpoint, 0⟩ := by
  induction n with
  | zero => rfl
  | succ n ih =>
    have h := run_scanPast (List.replicate n .endpoint)
    rw [List.length_replicate] at h
    rw [scanAll, World.run_append, ih, Option.some_bind, h, List.replicate_succ']

theorem run_dialAll {n t : Nat} (ht : t ≤ n) :
    (⟨[], none, List.replicate n .endpoint, 0⟩ : World).run (dialAll t) =
      some ⟨(List.range t).map (fun k => ⟨k, 1, false⟩), none,
        (List.range t).map (fun k => .done (.ok k)) ++ List.replicate (n - t) .endpoint, t⟩ := by
  induction t with
  | zero => rfl
  | succ t ih =>
    obtain ⟨m, hm⟩ : ∃ m, n - t = m + 1 := ⟨n - t - 1, by omega⟩
    have h := run_dialOwn ((List.range t).map fun k => ⟨k, 1, false⟩)
      ((List.range t).map fun k => .done (.ok k)) (List.replicate m .endpoint)
    simp only [List.length_map, List.length_range] at h
    rw [dialAll, World.run_append, ih (by omega), Option.some_bind, hm, List.replicate_succ, h,
      show n - (t + 1) = m by omega]
    simp [List.range_succ]

/-- **Concurrent calls each dial.**  For every `n`, some interleaving of `n`
calls on a fresh `Manager`, every answer a success, ends with all `n` calls
returned, each on a connection of its own, and `n` slots holding one stream
each: every call passed the reuse pass before any dial was pushed.  Run one
after another, the same calls dial one connection per 128
(`sequential_calls`). -/
theorem concurrent_calls_dial_each (n : Nat) :
    ∃ w, Reachable w ∧ w.connections = (List.range n).map (fun k => ⟨k, 1, false⟩) ∧
      w.calls = (List.range n).map (fun k => .done (.ok k)) := by
  have h : World.fresh.run (scanAll n ++ dialAll n) =
      some ⟨(List.range n).map (fun k => ⟨k, 1, false⟩), none,
        (List.range n).map (fun k => .done (.ok k)), n⟩ := by
    rw [World.run_append, run_scanAll, Option.some_bind, run_dialAll le_rfl, Nat.sub_self,
      List.replicate_zero, List.append_nil]
  exact ⟨_, Reachable.fresh.run _ h, rfl, rfl⟩

end Flower.Quic
