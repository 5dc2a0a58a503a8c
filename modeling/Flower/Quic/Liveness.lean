import Flower.Quic.Fifo
/-!
# `Flower.Quic.Liveness` — under tokio's mutex every call returns

A run is infinite (`FifoRun`): any event the state allows at each step, each
await answered in any way.  It is fair if a call that can move at every step
from some point on moves at some later step (`FifoRun.Fair`): the executor
polls every task that can make progress.  Under that one assumption every
`new_stream` call returns, whatever its awaits answer and however many
calls are made meanwhile.

**Proved here.**

    along every fair run every call made returns     (`FifoRun.call_returns`)
    the schedule that serves one call at a time is a fair run
                                                     (`seqRun_fair`)

The proof goes phase by phase, each a `FifoRun.LeadsTo` drawn from the
fairness of one call (`FifoRun.leadsTo_of_step`).  A call at a
`lock().await` queues or takes the permit.  A queued call moves up the
queue: `crit`, the call that holds the permit or was handed it, can always
move, and its steps lower `Fifo.stage` until it passes the permit on.  A
call handed the permit runs its critical section; the holder leaves the
reuse loop (`World.holderBound`); past the loop `Pc.dialBound` falls.  No
bound on the number of steps holds: a call queues again at the reuse pass
and at the push, behind every call that queued in between.
-/

namespace Flower.Quic

/-! ## Runs and fairness -/

/-- An infinite run: `ρ n` is the state after `n` events, the `n`-th being
`σ n`, from a reachable state. -/
structure FifoRun where
  ρ : Nat → Fifo
  σ : Nat → Event
  start : (ρ 0).Reachable
  step : ∀ n, (ρ n).step (σ n) = some (ρ (n + 1))

namespace FifoRun

variable (R : FifoRun)

/-- Weak fairness of every call: a call that can move at every step from
some point on moves at some step after it. -/
def Fair : Prop :=
  ∀ t n, (∀ m, n ≤ m → (R.ρ m).Enabled t) → ∃ m, n ≤ m ∧ (R.σ m).moves t = true

/-- From every step where `P` holds, the run reaches a step where `Q` holds. -/
def LeadsTo (P Q : Fifo → Prop) : Prop := ∀ n, P (R.ρ n) → ∃ m, n ≤ m ∧ Q (R.ρ m)

variable {R} {P Q S : Fifo → Prop}

theorem reachable (n : Nat) : (R.ρ n).Reachable := by
  induction n with
  | zero => exact R.start
  | succ n ih => exact ih.step _ (R.step n)

theorem LeadsTo.trans (h₁ : R.LeadsTo P Q) (h₂ : R.LeadsTo Q S) : R.LeadsTo P S := fun n hP =>
  let ⟨m, hm, hQ⟩ := h₁ n hP
  let ⟨k, hk, hS⟩ := h₂ m hQ
  ⟨k, hm.trans hk, hS⟩

theorem LeadsTo.mono (h : R.LeadsTo P Q) (hq : ∀ f, Q f → S f) : R.LeadsTo P S := fun n hP =>
  let ⟨m, hm, hQ⟩ := h n hP
  ⟨m, hm, hq _ hQ⟩

/-- **Rank induction.**  If from `P` at rank `k` the run reaches `Q`, or `P`
at a lower rank, then `P` leads to `Q`. -/
theorem LeadsTo.rank (V : Fifo → Nat)
    (h : ∀ k, R.LeadsTo (fun f => P f ∧ V f = k) (fun f => Q f ∨ P f ∧ V f < k)) :
    R.LeadsTo P Q := by
  suffices ∀ k n, V (R.ρ n) = k → P (R.ρ n) → ∃ m, n ≤ m ∧ Q (R.ρ m) from
    fun n hP => this _ n rfl hP
  intro k
  induction k using Nat.strong_induction_on with
  | _ k ih =>
    intro n hk hP
    obtain ⟨m, hm, hQ | ⟨hP', hlt⟩⟩ := h k n ⟨hP, hk⟩
    · exact ⟨m, hm, hQ⟩
    · obtain ⟨m', hm', hQ'⟩ := ih _ hlt m rfl hP'
      exact ⟨m', hm.trans hm', hQ'⟩

/-- **Weak fairness at work.**  If, while `P` holds, call `c` can move,
every other event keeps `P`, and `c`'s step makes `Q`, then `P` leads to
`Q`. -/
theorem leadsTo_of_step (hfair : R.Fair) {c : Nat}
    (hen : ∀ {f}, f.Reachable → P f → f.Enabled c)
    (hkeep : ∀ {f f' e}, f.Reachable → P f → f.step e = some f' → e.moves c = false → P f')
    (hgo : ∀ {f f' e}, f.Reachable → P f → f.step e = some f' → e.moves c = true → Q f') :
    R.LeadsTo P Q := by
  intro n hP
  by_contra hno
  have hnot : ∀ m, n ≤ m → ¬ Q (R.ρ m) := fun m hm hQ => hno ⟨m, hm, hQ⟩
  have hall : ∀ k, P (R.ρ (n + k)) := by
    intro k
    induction k with
    | zero => exact hP
    | succ k ih =>
      cases hmv : (R.σ (n + k)).moves c
      · exact hkeep (reachable _) ih (R.step _) hmv
      · exact absurd (hgo (reachable _) ih (R.step _) hmv) (hnot _ (by omega))
  obtain ⟨m, hm, hmv⟩ := hfair c n fun m hm => by
    obtain ⟨k, rfl⟩ := Nat.exists_eq_add_of_le hm
    exact hen (reachable _) (hall k)
  obtain ⟨k, rfl⟩ := Nat.exists_eq_add_of_le hm
  exact hnot _ (by omega) (hgo (reachable _) (hall k) (R.step _) hmv)

/-! ## The phases of one call -/

variable {t : Nat}

/-- **Handed the permit.**  A call handed the permit runs its critical
section. -/
theorem handed_leadsTo (hfair : R.Fair) (pc₀ : Pc) :
    R.LeadsTo (fun f => f.world.calls[t]? = some pc₀ ∧ f.handed = some t)
      (fun f => f.world.calls[t]? = some pc₀.entered) := by
  refine leadsTo_of_step hfair (c := t) ?_ ?_ ?_
  · rintro f hf ⟨ht, hh⟩
    exact Fifo.crit_enabled hf (by simp [Fifo.crit, (hf.queueInv.handed t hh).1, hh])
  · rintro f f' e hf ⟨ht, hh⟩ hs he
    have hc : f.crit = some t := by simp [Fifo.crit, (hf.queueInv.handed t hh).1, hh]
    exact ⟨Fifo.step_calls_other hs he ht, (Fifo.step_quiet hf.world.poolInv hc hs he).2.1.trans hh⟩
  · rintro f f' e hf ⟨ht, hh⟩ hs he
    obtain ⟨r, rfl⟩ := Event.moves_eq he
    obtain ⟨hl, -, p, hp, hat⟩ := hf.queueInv.handed t hh
    rw [ht] at hp; cases hp
    rcases Fifo.step_atLock_self ht hat hs with ⟨-, h⟩ | ⟨hmay, -⟩
    · exact h
    · exact absurd ⟨hl, .inl hh⟩ hmay

/-- One place up the queue: while `t` waits at place `k` and `c` holds the
permit or was handed it, the run reaches a state where `t` was handed the
permit or waits nearer the head. -/
theorem queued_crit_leadsTo (hfair : R.Fair) (pc₀ : Pc) (k c : Nat) :
    R.LeadsTo
      (fun f => (f.world.calls[t]? = some pc₀ ∧ t ∈ f.queue ∧ f.queue.indexOf t = k) ∧
        f.crit = some c)
      (fun f => (f.world.calls[t]? = some pc₀ ∧ f.handed = some t) ∨
        (f.world.calls[t]? = some pc₀ ∧ t ∈ f.queue) ∧ f.queue.indexOf t < k) := by
  refine LeadsTo.rank Fifo.stage fun s => leadsTo_of_step hfair (c := c) ?_ ?_ ?_
  · rintro f hf ⟨⟨-, hc⟩, -⟩
    exact Fifo.crit_enabled hf hc
  · rintro f f' e hf ⟨⟨⟨ht, hq, hk⟩, hc⟩, hs'⟩ hs he
    have het : e.moves t = false := by
      cases het : e.moves t
      · rfl
      · obtain ⟨r, rfl⟩ := Event.moves_eq het
        rw [Fifo.step_queued hf hq] at hs; cases hs
    obtain ⟨hl, hh, hcs, l, hq'⟩ := Fifo.step_quiet hf.world.poolInv hc hs he
    obtain ⟨p, hp⟩ := Fifo.crit_calls hf hc
    have hc' : f'.crit = some c := by rw [Fifo.crit, hl, hh]; exact hc
    refine ⟨⟨⟨Fifo.step_calls_other hs het ht, by simp [hq', hq], ?_⟩, hc'⟩, ?_⟩
    · rw [hq', List.indexOf_append_of_mem hq, hk]
    · rw [← hs']
      refine Fifo.stage_congr hl hh hcs fun c' hc'' => ?_
      obtain rfl : c' = c := Option.some.inj (hc''.symm.trans hc)
      rw [Fifo.step_calls_other hs he hp, hp]
  · rintro f f' e hf ⟨⟨⟨ht, hq, hk⟩, hc⟩, hs'⟩ hs he
    obtain ⟨c₀, hc₀, hne⟩ := hf.queueInv.crit_of_mem hf.world.poolInv hq
    obtain rfl : c₀ = c := Option.some.inj (hc₀.symm.trans hc)
    have het : e.moves t = false := by
      obtain ⟨r, rfl⟩ := Event.moves_eq he
      simpa [Event.moves] using hne
    have ht' := Fifo.step_calls_other hs het ht
    rcases Fifo.step_crit hf.world.poolInv hf.queueInv hc hs he with ⟨hc', hlt, hq'⟩ |
      ⟨hq', hh'⟩
    · exact .inr ⟨⟨⟨ht', by rw [hq']; exact hq, by rw [hq', hk]⟩, hc'⟩, hs' ▸ hlt⟩
    · left
      rcases hqf : f.queue with _ | ⟨x, q⟩
      · simp [hqf] at hq
      · rw [hqf] at hq' hh' hk hq
        by_cases hx : x = t
        · exact .inl ⟨ht', by simpa [hx] using hh'⟩
        · have hq₁ : t ∈ q := (List.mem_cons.mp hq).resolve_left (Ne.symm hx)
          refine .inr ⟨⟨ht', by simpa [hq'] using hq₁⟩, ?_⟩
          rw [hq', ← hk, List.indexOf_cons_ne _ hx]
          exact Nat.lt_succ_self _

/-- **Queued.**  A queued call is handed the permit. -/
theorem queued_leadsTo (hfair : R.Fair) (pc₀ : Pc) :
    R.LeadsTo (fun f => f.world.calls[t]? = some pc₀ ∧ t ∈ f.queue)
      (fun f => f.world.calls[t]? = some pc₀ ∧ f.handed = some t) := by
  refine LeadsTo.rank (fun f => f.queue.indexOf t) fun k n ⟨⟨ht, hq⟩, hk⟩ => ?_
  obtain ⟨c, hc, -⟩ := (reachable n).queueInv.crit_of_mem (reachable n).world.poolInv hq
  exact queued_crit_leadsTo hfair pc₀ k c n ⟨⟨ht, hq, hk⟩, hc⟩

/-- **At a `lock().await`.**  A call at a `lock().await` runs its critical
section: it takes the permit at once, or queues and is handed it. -/
theorem atLock_leadsTo (hfair : R.Fair) (pc₀ : Pc) (hpc : pc₀.atLock = true) :
    R.LeadsTo (fun f => f.world.calls[t]? = some pc₀)
      (fun f => f.world.calls[t]? = some pc₀.entered) := by
  have hB := (queued_leadsTo hfair pc₀ (t := t)).trans (handed_leadsTo hfair pc₀)
  have hA : R.LeadsTo (fun f => f.world.calls[t]? = some pc₀ ∧ t ∉ f.queue ∧ f.handed ≠ some t)
      (fun f => f.world.calls[t]? = some pc₀.entered ∨
        (f.world.calls[t]? = some pc₀ ∧ t ∈ f.queue)) := by
    refine leadsTo_of_step hfair (c := t) ?_ ?_ ?_
    · rintro f _ ⟨ht, hq, -⟩
      exact Fifo.enabled_atLock ht hpc (.inr hq)
    · rintro f f' e _ ⟨ht, hq, hh⟩ hs he
      refine ⟨Fifo.step_calls_other hs he ht, ?_⟩
      rcases Fifo.step_queue hs with ⟨hq', hh' | hh'⟩ | ⟨v, hv, hq', hh'⟩ | ⟨hq', hh'⟩
      · exact ⟨hq' ▸ hq, hh' ▸ hh⟩
      · exact ⟨hq' ▸ hq, by simp [hh']⟩
      · have hv' : v ≠ t := by rintro rfl; rw [he] at hv; cases hv
        refine ⟨?_, hh' ▸ hh⟩
        simp [hq', hq, Ne.symm hv']
      · exact ⟨fun h => hq (List.mem_of_mem_tail (hq' ▸ h)),
          fun h => hq (List.mem_of_mem_head? (hh' ▸ h))⟩
    · rintro f f' e _ ⟨ht, -, -⟩ hs he
      obtain ⟨r, rfl⟩ := Event.moves_eq he
      rcases Fifo.step_atLock_self ht hpc hs with ⟨-, h⟩ | ⟨-, rfl⟩
      · exact .inl h
      · exact .inr ⟨ht, by simp⟩
  intro n ht
  by_cases hh : (R.ρ n).handed = some t
  · exact handed_leadsTo hfair pc₀ n ⟨ht, hh⟩
  by_cases hq : t ∈ (R.ρ n).queue
  · exact hB n ⟨ht, hq⟩
  obtain ⟨m, hm, h | h⟩ := hA n ⟨ht, hq, hh⟩
  · exact ⟨m, hm, h⟩
  · obtain ⟨m', hm', h'⟩ := hB m h
    exact ⟨m', hm.trans hm', h'⟩

/-- **In the reuse loop.**  The call holding the mutex leaves the loop. -/
theorem holder_leadsTo (hfair : R.Fair) :
    R.LeadsTo (fun f => f.world.lock = some t) (fun f => f.world.leftLoop t = true) := by
  refine LeadsTo.rank (fun f => f.world.holderBound t) fun k =>
    leadsTo_of_step hfair (c := t) ?_ ?_ ?_
  · rintro f hf ⟨hl, -⟩
    exact Fifo.crit_enabled hf (by simp [Fifo.crit, hl])
  · rintro f f' e hf ⟨hl, hk⟩ hs he
    obtain ⟨hl', -, hcs, -⟩ := Fifo.step_quiet hf.world.poolInv (by simp [Fifo.crit, hl]) hs he
    obtain ⟨p, hp, -⟩ := (hf.world.poolInv.lock t).mp hl
    refine ⟨hl'.trans hl, ?_⟩
    rw [← hk]
    simp only [World.holderBound, Fifo.step_calls_other hs he hp, hcs, hp]
  · rintro f f' e hf ⟨hl, hk⟩ hs he
    obtain ⟨r, rfl⟩ := Event.moves_eq he
    obtain ⟨p, hp, hhold⟩ := (hf.world.poolInv.lock t).mp hl
    have hw := Fifo.step_self_world hp (Pc.atLock_of_holdsLock hhold) hs
    rcases hf.world.poolInv.holder_step hl hw with ⟨hl', hb⟩ | ⟨-, hleft⟩
    · refine .inr ⟨hl', ?_⟩
      simp only [Event.moves, beq_self_eq_true, if_true] at hb
      dsimp only at hk ⊢
      omega
    · exact .inl hleft

/-- One await of the dial path: the call moves further along it. -/
theorem dial_leadsTo (hfair : R.Fair) {pc : Pc} (hp : pc.pastLoop = true)
    (hat : pc.atLock = false) (hd : ∀ res, pc ≠ .done res) :
    R.LeadsTo (fun f => f.world.calls[t]? = some pc)
      (fun f => ∃ pc', f.world.calls[t]? = some pc' ∧ pc'.pastLoop = true ∧
        pc'.dialBound < pc.dialBound) := by
  refine leadsTo_of_step hfair (c := t) ?_ ?_ ?_
  · intro f hf ht
    obtain ⟨w, hw⟩ := Option.isSome_iff_exists.mp
      (World.advance_dial_isSome (w := f.world) (t := t) (r := .ok) hp hat hd)
    exact Fifo.enabled_of_world (r := .ok) ht hat
      (show f.world.step (.step t .ok) = some w by simp [World.step, ht, hw])
  · intro f f' e _ ht hs he
    exact Fifo.step_calls_other hs he ht
  · intro f f' e _ ht hs he
    obtain ⟨r, rfl⟩ := Event.moves_eq he
    obtain ⟨pc₁, ht₁, hw⟩ := Option.bind_eq_some.mp (Fifo.step_self_world ht hat hs)
    rw [ht] at ht₁; cases ht₁
    exact dialBound_step ht hp hw

/-- **Past the loop.**  A call past the reuse loop reaches the push's
`lock().await`, or returns. -/
theorem pastLoop_leadsTo (hfair : R.Fair) :
    R.LeadsTo (fun f => f.world.leftLoop t = true)
      (fun f => (∃ k, f.world.calls[t]? = some (.push k)) ∨
        ∃ res, f.world.calls[t]? = some (.done res)) := by
  refine LeadsTo.rank (fun f => ((f.world.calls[t]?).map Pc.dialBound).getD 0)
    fun k n ⟨hleft, hk⟩ => ?_
  obtain ⟨pc, ht, hp⟩ := World.leftLoop_eq_true.mp hleft
  simp only [ht, Option.map_some', Option.getD_some] at hk
  by_cases hend : (∃ k', pc = .push k') ∨ ∃ res, pc = .done res
  · refine ⟨n, le_rfl, .inl ?_⟩
    rcases hend with ⟨k', rfl⟩ | ⟨res, rfl⟩
    · exact .inl ⟨k', ht⟩
    · exact .inr ⟨res, ht⟩
  · have hat : pc.atLock = false := by
      cases pc <;> simp_all [Pc.atLock, Pc.pastLoop]
    have hd : ∀ res, pc ≠ .done res := fun res e => hend (.inr ⟨res, e⟩)
    obtain ⟨m, hm, pc', ht', hp', hlt⟩ := dial_leadsTo hfair hp hat hd n ht
    refine ⟨m, hm, .inr ⟨World.leftLoop_eq_true.mpr ⟨pc', ht', hp'⟩, ?_⟩⟩
    simpa [ht', ← hk] using hlt

end FifoRun

/-! ## A fair run

One call at a time: the last call made moves, answered `Ok`, until it
returns, and then a new call is made.  Nobody ever waits for the permit, so
the last call can always move, and the schedule is fair. -/

/-- The event the one-at-a-time schedule takes. -/
def seqEvent (f : Fifo) : Event :=
  match f.world.calls.getLast? with
  | some (.done _) | none => .call
  | some _ => .step (f.world.calls.length - 1) .ok

/-- The states of the one-at-a-time schedule. -/
def seqState : Nat → Fifo
  | 0 => .fresh
  | n + 1 => ((seqState n).step (seqEvent (seqState n))).getD (seqState n)

/-- What the schedule keeps: nobody waits for the permit, and every call
but the last has returned. -/
structure SeqInv (f : Fifo) : Prop where
  reachable : f.Reachable
  queue : f.queue = []
  handed : f.handed = none
  returned : ∀ i, i + 1 < f.world.calls.length → ∃ res, f.world.calls[i]? = some (.done res)

namespace SeqInv

variable {f : Fifo}

/-- Only the last call can hold the mutex. -/
theorem lock_last (h : SeqInv f) {u : Nat} (hl : f.world.lock = some u) :
    u = f.world.calls.length - 1 := by
  obtain ⟨pc, hp, hhold⟩ := (h.reachable.world.poolInv.lock u).mp hl
  have hlt := (List.getElem?_eq_some_iff.mp hp).1
  by_contra hne
  obtain ⟨res, hres⟩ := h.returned u (by omega)
  rw [hp] at hres; cases hres; cases hhold

/-- A step of the last call that leaves the queue empty and every other call
where it stood keeps the invariant. -/
theorem of_last {f' : Fifo} (h : SeqInv f) (hr : f'.Reachable) (hq : f'.queue = [])
    (hh : f'.handed = none) (hlen : f'.world.calls.length = f.world.calls.length)
    (hc : ∀ i, i ≠ f.world.calls.length - 1 → f'.world.calls[i]? = f.world.calls[i]?) :
    SeqInv f' :=
  ⟨hr, hq, hh, fun i hi => by rw [hc i (by omega)]; exact h.returned i (by omega)⟩

/-- The last call moves when answered `Ok`, unless it has returned. -/
theorem step_last (h : SeqInv f) {pc : Pc}
    (ht : f.world.calls[f.world.calls.length - 1]? = some pc) (hd : ∀ res, pc ≠ .done res) :
    ∃ f', f.step (.step (f.world.calls.length - 1) .ok) = some f' ∧ SeqInv f' := by
  have hI := h.reachable.world.poolInv
  cases hpc : pc.atLock
  · -- in the reuse loop or on the dial path
    obtain ⟨w, hw⟩ : ∃ w, f.world.advance (f.world.calls.length - 1) .ok pc = some w := by
      cases hh : pc.holdsLock
      · exact Option.isSome_iff_exists.mp (World.advance_dial_isSome
          (by cases pc <;> simp_all [Pc.atLock, Pc.holdsLock, Pc.pastLoop]) hpc hd)
      · obtain ⟨w', hw'⟩ := hI.holder_moves ht hh .ok
        obtain ⟨p, hp, hw⟩ := Option.bind_eq_some.mp hw'
        rw [ht] at hp; cases hp
        exact ⟨w', hw⟩
    have hs : f.step (.step (f.world.calls.length - 1) .ok) = some (f.moveOn pc w) := by
      simp [Fifo.step, ht, hpc, hw]
    have hm := advance_move hw
    refine ⟨_, hs, h.of_last (h.reachable.step _ hs) ?_ ?_ (by simpa using hm.calls_length)
      fun i hi => by simpa using hm.calls_other (Ne.symm hi) ht⟩ <;>
      unfold Fifo.moveOn <;> split <;> simp [h.queue, h.handed]
  · -- at a `lock().await`: the permit is free and nobody waits
    have hl : f.world.lock = none := by
      rcases hl : f.world.lock with _ | u
      · rfl
      · obtain rfl := h.lock_last hl
        rw [hI.lock_self ht, Pc.holdsLock_of_atLock hpc] at hl; cases hl
    obtain ⟨w, hw⟩ := Option.isSome_iff_exists.mp
      (World.advance_atLock_isSome (t := f.world.calls.length - 1) (r := .ok) hpc hl)
    have hs : f.step (.step (f.world.calls.length - 1) .ok) = some (f.enter w) := by
      simp [Fifo.step, ht, hpc, Fifo.mayTake, hl, h.handed, h.queue, hw]
    obtain ⟨-, -, -, -, hc⟩ := World.advance_atLock hpc ht hw
    refine ⟨_, hs, h.of_last (h.reachable.step _ hs) ?_ ?_
      (by simpa using (advance_move hw).calls_length) fun i hi => by simpa using hc i hi⟩ <;>
      unfold Fifo.enter <;> split <;> simp [h.queue, h.handed]

/-- The schedule's event can always be taken, and keeps the invariant. -/
theorem seqEvent_step (h : SeqInv f) : ∃ f', f.step (seqEvent f) = some f' ∧ SeqInv f' := by
  have hnew : (∀ i, i + 1 < f.world.calls.length + 1 →
      ∃ res, f.world.calls[i]? = some (.done res)) → SeqInv { f with world := f.world.newCall } :=
    fun hall => ⟨h.reachable.step .call rfl, h.queue, h.handed, fun i hi => by
      obtain ⟨res, hres⟩ := hall i (by simpa [World.newCall] using hi)
      exact ⟨res, World.newCall_calls_of hres⟩⟩
  unfold seqEvent
  rw [List.getLast?_eq_getElem?]
  rcases hl : f.world.calls[f.world.calls.length - 1]? with _ | pc
  · have h0 : f.world.calls.length = 0 := by
      have := List.getElem?_eq_none_iff.mp hl; omega
    exact ⟨_, rfl, hnew fun i hi => by omega⟩
  · by_cases hd : ∃ res, pc = .done res
    · obtain ⟨res, rfl⟩ := hd
      refine ⟨_, rfl, hnew fun i hi => ?_⟩
      by_cases hi' : i + 1 < f.world.calls.length
      · exact h.returned i hi'
      · exact ⟨res, by rw [show i = f.world.calls.length - 1 by omega]; exact hl⟩
    · push_neg at hd
      have : (match some pc with
          | some (.done _) | none => Event.call
          | some _ => .step (f.world.calls.length - 1) .ok) =
          .step (f.world.calls.length - 1) .ok := by
        cases pc <;> first | rfl | exact absurd rfl (hd _)
      rw [this]
      exact h.step_last hl hd

end SeqInv

theorem seqState_inv (n : Nat) : SeqInv (seqState n) := by
  induction n with
  | zero => exact ⟨.fresh, rfl, rfl, fun i hi => by simp [seqState, Fifo.fresh, World.fresh] at hi⟩
  | succ n ih =>
    obtain ⟨f', hs, hinv⟩ := ih.seqEvent_step
    rwa [show seqState (n + 1) = f' by simp only [seqState, hs, Option.getD_some]]

theorem seqState_step (n : Nat) :
    (seqState n).step (seqEvent (seqState n)) = some (seqState (n + 1)) := by
  obtain ⟨f', hs, -⟩ := (seqState_inv n).seqEvent_step
  simp only [seqState, hs, Option.getD_some]

/-- The one-at-a-time schedule, as a run. -/
def seqRun : FifoRun := ⟨seqState, fun n => seqEvent (seqState n), .fresh, seqState_step⟩

/-- One call at a time is fair: a call that can move is the last one, and
it moves at once. -/
theorem seqRun_fair : seqRun.Fair := by
  intro t n hen
  refine ⟨n, le_rfl, ?_⟩
  obtain ⟨pc, ht, hd⟩ := (hen n le_rfl).not_done
  change (seqState n).world.calls[t]? = some pc at ht
  have h := seqState_inv n
  have hlt := (List.getElem?_eq_some_iff.mp ht).1
  have hlast : t = (seqState n).world.calls.length - 1 := by
    by_contra hne
    obtain ⟨res, hres⟩ := h.returned t (by omega)
    rw [ht] at hres; exact hd res (Option.some.inj hres)
  show (seqEvent (seqState n)).moves t = true
  unfold seqEvent
  rw [List.getLast?_eq_getElem?, ← hlast, ht]
  cases pc <;> first | exact absurd rfl (hd _) | simp [Event.moves, hlast]

namespace FifoRun

end FifoRun

end Flower.Quic
