import Flower.Quic.Progress
/-!
# `Flower.Quic.Fifo` — the pool under tokio's fair mutex

`World` lets any call at a `lock().await` take the mutex once it is free.
tokio's `Mutex` is fair: it is a semaphore of one permit whose waiters queue
in the order they were first polled, and a release hands the permit straight
to the first waiter, so a call polled later cannot take the mutex first.
`Fifo` is the `World` with that queue, and the call the permit was handed
to.  A call at a `lock().await` runs its critical section when it may take
the permit (`Fifo.mayTake`), and queues otherwise; every other move is the
`World`'s, the permit passed on when the reuse loop lets it go.  A
`new_stream` call is never dropped halfway here, so a queued call stays
queued until it is handed the permit.

Every step of a `Fifo` is a step of its `World` or leaves it as it is
(`Fifo.step_world`), so `PoolInv` and everything proved of `Reachable` hold
under the fair mutex.

**Proved here.**

    the world of a reachable `Fifo` is reachable     (`Fifo.Reachable.world`)
    the queue holds calls at a `lock().await`, once each, and nobody waits
    while the permit is free                         (`Fifo.Reachable.queueInv`)
    while `crit`, the call holding the permit or handed it, stands still,
    no other step touches the mutex or the pool     (`Fifo.step_quiet`)
    and its own step lowers `Fifo.stage` or passes the permit on
                                                     (`Fifo.step_crit`)

`Flower.Quic.Liveness` draws from these that every call returns.
-/

namespace Flower.Quic

/-- The call stands at a `lock().await`: the sweep's, the reuse pass's or
the push's. -/
def Pc.atLock : Pc → Bool
  | .sweep | .reuse | .push _ => true
  | _ => false

/-- Where the critical section of a `lock().await` takes the call. -/
def Pc.entered : Pc → Pc
  | .sweep => .reuse
  | .reuse => .scan 0
  | .push k => .done (.ok k)
  | pc => pc

theorem Pc.holdsLock_of_atLock {pc : Pc} (h : pc.atLock = true) : pc.holdsLock = false := by
  cases pc <;> first | rfl | cases h

theorem Pc.atLock_of_holdsLock {pc : Pc} (h : pc.holdsLock = true) : pc.atLock = false := by
  cases pc <;> first | rfl | cases h

/-- The pool under tokio's mutex: the `World`, the calls waiting for the
permit in the order they queued, and the call the permit was handed to,
which has not run its critical section yet. -/
structure Fifo where
  world : World
  queue : List Nat
  handed : Option Nat
  deriving DecidableEq, Repr

/-- A fresh `Manager`. -/
def Fifo.fresh : Fifo := ⟨World.fresh, [], none⟩

/-- Call `t` may take the permit: nobody holds it, and it was handed to
`t`, or to nobody while nobody waits. -/
def Fifo.mayTake (f : Fifo) (t : Nat) : Prop :=
  f.world.lock = none ∧ (f.handed = some t ∨ f.handed = none ∧ f.queue = [])

instance instDecidableMayTake (f : Fifo) (t : Nat) : Decidable (f.mayTake t) :=
  inferInstanceAs (Decidable (_ ∧ _))

/-- The permit is released, the world at `w`: it goes to the first waiter,
if any. -/
def Fifo.release (f : Fifo) (w : World) : Fifo := ⟨w, f.queue.tail, f.queue.head?⟩

/-- The critical section of a `lock().await` ends at `w`: the reuse pass
keeps the permit, the sweep and the push release it. -/
def Fifo.enter (f : Fifo) (w : World) : Fifo :=
  if w.lock = none then f.release w else ⟨w, f.queue, none⟩

/-- A call moves on from `pc` to `w`; the permit is released if the reuse
loop let it go. -/
def Fifo.moveOn (f : Fifo) (pc : Pc) (w : World) : Fifo :=
  if pc.holdsLock ∧ w.lock = none then f.release w else { f with world := w }

/-- One event.  A call at a `lock().await` runs its critical section if it
may take the permit, and queues otherwise; a queued call cannot move.
`none` where `World.step` gives `none`. -/
def Fifo.step (f : Fifo) : Event → Option Fifo
  | .call => some { f with world := f.world.newCall }
  | .step t r => (f.world.calls[t]?).bind fun pc =>
    if pc.atLock then
      if f.mayTake t then (f.world.advance t r pc).map f.enter
      else if t ∈ f.queue then none
      else some { f with queue := f.queue ++ [t] }
    else (f.world.advance t r pc).map (f.moveOn pc)

/-- The states some interleaving reaches from a fresh `Manager`. -/
inductive Fifo.Reachable : Fifo → Prop
  | fresh : Fifo.Reachable .fresh
  | step {f f' : Fifo} (e : Event) : f.Reachable → f.step e = some f' → f'.Reachable

/-- Call `t` can move: some answer lets it take a step. -/
def Fifo.Enabled (f : Fifo) (t : Nat) : Prop := ∃ r, (f.step (.step t r)).isSome

/-- The call that holds the permit, or was handed it. -/
def Fifo.crit (f : Fifo) : Option Nat := f.world.lock.or f.handed

/-- How far `crit` is from passing the permit on: its bound in the reuse
loop; one step at the sweep or the push; at the reuse pass, one more than
the bound its loop starts with. -/
def Fifo.stage (f : Fifo) : Nat :=
  match f.world.lock, f.handed with
  | some h, _ => f.world.holderBound h
  | none, some u => if f.world.calls[u]? = some .reuse then 2 * f.world.connections.length + 2 else 1
  | none, none => 0

/-! ## Moves of the `World` -/

theorem Event.moves_eq {e : Event} {t : Nat} (h : e.moves t = true) : ∃ r, e = .step t r := by
  cases e with
  | call => cases h
  | step t' r => exact ⟨r, by simpa [Event.moves] using h⟩

/-- A step of another call leaves call `t` where it stands. -/
theorem World.step_calls_other {w w' : World} {e : Event} {t : Nat} {pc : Pc} (hs : w.step e = some w')
    (he : e.moves t = false) (ht : w.calls[t]? = some pc) : w'.calls[t]? = some pc := by
  cases e with
  | call => exact (Option.some.inj hs) ▸ World.newCall_calls_of ht
  | step t' r =>
    obtain ⟨pc', ht', hadv⟩ := Option.bind_eq_some.mp hs
    have hne : t' ≠ t := by simpa [Event.moves] using he
    rw [(advance_move hadv).calls_other hne ht', ht]

/-- A critical section: the permit was free, the call passes the
`lock().await`, and only the reuse pass keeps the permit. -/
theorem World.advance_atLock {w w' : World} {t : Nat} {r : Reply} {pc : Pc}
    (hpc : pc.atLock = true) (ht : w.calls[t]? = some pc) (h : w.advance t r pc = some w') :
    w.lock = none ∧ w'.calls[t]? = some pc.entered ∧
      w'.lock = (if pc = .reuse then some t else none) ∧
      (pc = .reuse → w'.connections = w.connections) ∧ ∀ u, u ≠ t → w'.calls[u]? = w.calls[u]? := by
  cases pc with
  | sweep | reuse | push k =>
    simp only [World.advance, Option.ite_none_right_eq_some, Option.some.injEq] at h
    obtain ⟨hl, rfl⟩ := h
    exact ⟨hl, by simp [World.goto_calls ht, Pc.entered], by simp [hl], by simp,
      fun u hu => by simp [World.goto_calls ht, Ne.symm hu]⟩
  | _ => cases hpc

/-- The critical section of a `lock().await` can run whenever the mutex is
free. -/
theorem World.advance_atLock_isSome {w : World} {t : Nat} {r : Reply} {pc : Pc}
    (hpc : pc.atLock = true) (hl : w.lock = none) : (w.advance t r pc).isSome := by
  cases pc <;> simp_all [Pc.atLock, World.advance]

/-- The dial path's calls answer whatever the reply. -/
theorem World.advance_dial_isSome {w : World} {t : Nat} {r : Reply} {pc : Pc}
    (hp : pc.pastLoop = true) (hat : pc.atLock = false) (hd : ∀ res, pc ≠ .done res) :
    (w.advance t r pc).isSome := by
  cases pc with
  | endpoint | lookup | openNew k => rfl
  | connect => simp only [World.advance]; split <;> rfl
  | push k => cases hat
  | done res => exact absurd rfl (hd res)
  | _ => cases hp

/-- Where the mutex goes when a call moves: nowhere, to the call taking it
at the reuse pass, or back to free when the reuse loop lets it go. -/
theorem Move.lock_cases {w w' : World} {t : Nat} {pc : Pc} (hm : Move w t pc w') :
    w'.lock = w.lock ∨ (pc = .reuse ∧ w'.lock = some t) ∨ (pc.holdsLock = true ∧ w'.lock = none) := by
  cases hm with
  | acquire hpc => exact .inr (.inl ⟨hpc, rfl⟩)
  | loopEnd hpc => exact .inr (.inr ⟨by simp [hpc, Pc.holdsLock], rfl⟩)
  | accept hpc => exact .inr (.inr ⟨by simp [hpc, Pc.holdsLock], rfl⟩)
  | _ => exact .inl rfl

/-- A move from the dial path changes neither the pool nor the mutex. -/
theorem Move.dial_path {w w' : World} {t : Nat} {pc : Pc} (hm : Move w t pc w')
    (hpc : pc.atLock = false) (hh : pc.holdsLock = false) :
    w'.lock = w.lock ∧ w'.connections = w.connections := by
  cases hm with
  | frame | connected | openNewFailed => exact ⟨rfl, rfl⟩
  | sweep h | acquire h | pushed h => subst h; cases hpc
  | loopEnd h | accept h => subst h; cases hh
  | retire h => rw [h] at hh; cases hh

theorem Move.calls_length {w w' : World} {t : Nat} {pc : Pc} (hm : Move w t pc w') :
    w'.calls.length = w.calls.length := by
  cases hm <;> simp [World.goto]

namespace Fifo

variable {f f' : Fifo} {w : World} {t : Nat} {pc : Pc}

@[simp] theorem release_world : (f.release w).world = w := rfl

@[simp] theorem release_queue : (f.release w).queue = f.queue.tail := rfl

@[simp] theorem release_handed : (f.release w).handed = f.queue.head? := rfl

@[simp] theorem enter_world : (f.enter w).world = w := by unfold enter; split <;> rfl

@[simp] theorem moveOn_world : (f.moveOn pc w).world = w := by unfold moveOn; split <;> rfl

/-- **What one step can do**: start a call; run a critical section; queue
a call at a `lock().await`; or move a call elsewhere. -/
theorem step_cases {e : Event} (h : f.step e = some f') :
    (e = .call ∧ f' = { f with world := f.world.newCall }) ∨
    ∃ t r pc, e = .step t r ∧ f.world.calls[t]? = some pc ∧
      ((pc.atLock = true ∧ f.mayTake t ∧ ∃ w, f.world.advance t r pc = some w ∧ f' = f.enter w) ∨
       (pc.atLock = true ∧ ¬ f.mayTake t ∧ t ∉ f.queue ∧ f' = { f with queue := f.queue ++ [t] }) ∨
       (pc.atLock = false ∧ ∃ w, f.world.advance t r pc = some w ∧ f' = f.moveOn pc w)) := by
  cases e with
  | call => exact .inl ⟨rfl, (Option.some.inj h).symm⟩
  | step t r =>
    obtain ⟨pc, ht, h⟩ := Option.bind_eq_some.mp h
    refine .inr ⟨t, r, pc, rfl, ht, ?_⟩
    split at h
    · split at h
      · obtain ⟨w, hw, rfl⟩ := Option.map_eq_some'.mp h
        exact .inl ⟨‹_›, ‹_›, w, hw, rfl⟩
      · split at h
        · cases h
        · exact .inr (.inl ⟨‹_›, ‹_›, ‹_›, (Option.some.inj h).symm⟩)
    · rename_i hpc
      obtain ⟨w, hw, rfl⟩ := Option.map_eq_some'.mp h
      exact .inr (.inr ⟨by simpa using hpc, w, hw, rfl⟩)

/-- **Refinement.**  A step of the pool under tokio's mutex is a step of
its `World`, or queues a call and leaves the `World` as it is. -/
theorem step_world {e : Event} (h : f.step e = some f') :
    f.world.step e = some f'.world ∨ f'.world = f.world := by
  rcases step_cases h with ⟨rfl, rfl⟩ | ⟨t, r, pc, rfl, ht, ⟨-, -, w, hw, rfl⟩ | ⟨-, -, -, rfl⟩ |
      ⟨-, w, hw, rfl⟩⟩
  · exact .inl rfl
  all_goals first | exact .inr rfl | exact .inl (by simp [World.step, ht, hw])

theorem Reachable.world (h : f.Reachable) : Flower.Quic.Reachable f.world := by
  induction h with
  | fresh => exact .fresh
  | step e _ hs ih => exact (step_world hs).elim (ih.step e) (· ▸ ih)

theorem step_calls_other {e : Event}
    (hs : f.step e = some f') (he : e.moves t = false) (ht : f.world.calls[t]? = some pc) :
    f'.world.calls[t]? = some pc :=
  (Fifo.step_world hs).elim (fun h => World.step_calls_other h he ht) (· ▸ ht)

/-- A call elsewhere than at a `lock().await` moves as in its `World`. -/
theorem step_self_world {r : Reply} (ht : f.world.calls[t]? = some pc) (hpc : pc.atLock = false)
    (h : f.step (.step t r) = some f') : f.world.step (.step t r) = some f'.world := by
  simp only [Fifo.step, ht, Option.some_bind, hpc, Bool.false_eq_true, if_false] at h
  obtain ⟨w, hw, rfl⟩ := Option.map_eq_some'.mp h
  simp [World.step, ht, hw]

theorem enabled_of_world {r : Reply} {w' : World} (ht : f.world.calls[t]? = some pc)
    (hpc : pc.atLock = false) (h : f.world.step (.step t r) = some w') : f.Enabled t := by
  obtain ⟨pc', ht', hw⟩ := Option.bind_eq_some.mp h
  rw [ht] at ht'; cases ht'
  exact ⟨r, by simp [Fifo.step, ht, hpc, hw]⟩

/-- A call at a `lock().await` that may take the permit, or is not queued,
can move: it runs its critical section or queues. -/
theorem enabled_atLock (ht : f.world.calls[t]? = some pc) (hpc : pc.atLock = true)
    (h : f.mayTake t ∨ t ∉ f.queue) : f.Enabled t := by
  refine ⟨.ok, ?_⟩
  simp only [Fifo.step, ht, Option.some_bind, hpc, if_true]
  split
  · simpa using World.advance_atLock_isSome hpc (r := .ok) (t := t) ‹f.mayTake t›.1
  · simp [h.resolve_left ‹_›]

/-- A call's own step at a `lock().await`: it runs its critical section, or
queues. -/
theorem step_atLock_self {r : Reply} (ht : f.world.calls[t]? = some pc) (hpc : pc.atLock = true)
    (h : f.step (.step t r) = some f') :
    (f.mayTake t ∧ f'.world.calls[t]? = some pc.entered) ∨
      (¬ f.mayTake t ∧ f' = { f with queue := f.queue ++ [t] }) := by
  rcases step_cases h with ⟨h, -⟩ | ⟨t', r', pc', he, ht', ⟨-, hmay, w, hw, rfl⟩ | ⟨-, hmay, -, rfl⟩ |
      ⟨hpc', -⟩⟩
  · cases h
  all_goals obtain ⟨rfl, rfl⟩ := Event.step.inj he; rw [ht] at ht'; cases ht'
  · exact .inl ⟨hmay, by simpa using (World.advance_atLock hpc ht hw).2.1⟩
  · exact .inr ⟨hmay, rfl⟩
  · rw [hpc] at hpc'; cases hpc'

/-- Every step leaves the queue as it was, adds the call that moved to its
end, or passes the permit to its head. -/
theorem step_queue {e : Event} (h : f.step e = some f') :
    (f'.queue = f.queue ∧ (f'.handed = f.handed ∨ f'.handed = none)) ∨
      (∃ v, e.moves v = true ∧ f'.queue = f.queue ++ [v] ∧ f'.handed = f.handed) ∨
      (f'.queue = f.queue.tail ∧ f'.handed = f.queue.head?) := by
  rcases step_cases h with ⟨-, rfl⟩ | ⟨t, r, pc, rfl, -, ⟨-, -, w, -, rfl⟩ | ⟨-, -, -, rfl⟩ |
      ⟨-, w, -, rfl⟩⟩
  · exact .inl ⟨rfl, .inl rfl⟩
  · unfold enter; split
    · exact .inr (.inr ⟨rfl, rfl⟩)
    · exact .inl ⟨rfl, .inr rfl⟩
  · exact .inr (.inl ⟨t, by simp [Event.moves], rfl, rfl⟩)
  · unfold moveOn; split
    · exact .inr (.inr ⟨rfl, rfl⟩)
    · exact .inl ⟨rfl, .inl rfl⟩

/-- A call that can move has not returned. -/
theorem Enabled.not_done (h : f.Enabled t) :
    ∃ pc, f.world.calls[t]? = some pc ∧ ∀ res, pc ≠ .done res := by
  obtain ⟨r, hr⟩ := h
  rcases ht : f.world.calls[t]? with _ | pc
  · simp [Fifo.step, ht] at hr
  · refine ⟨pc, rfl, fun res e => ?_⟩
    subst e
    simp [Fifo.step, ht, Pc.atLock, World.advance] at hr

end Fifo

/-! ## The queue -/

/-- What the queue keeps: it holds calls at a `lock().await`, each once;
the permit is handed only while nobody holds it, to a call at a
`lock().await` that is not queued; and nobody waits while the permit is
free. -/
structure QueueInv (f : Fifo) : Prop where
  nodup : f.queue.Nodup
  queued : ∀ u ∈ f.queue, ∃ pc, f.world.calls[u]? = some pc ∧ pc.atLock = true
  handed : ∀ u, f.handed = some u →
    f.world.lock = none ∧ u ∉ f.queue ∧ ∃ pc, f.world.calls[u]? = some pc ∧ pc.atLock = true
  free : f.world.lock = none → f.handed = none → f.queue = []

namespace QueueInv

variable {f : Fifo} {t : Nat}

theorem fresh : QueueInv Fifo.fresh :=
  ⟨List.nodup_nil, by simp [Fifo.fresh], by simp [Fifo.fresh], fun _ _ => rfl⟩

/-- A call at the head of the queue is not in its tail. -/
theorem head_not_mem_tail (hQ : QueueInv f) {u : Nat} (h : f.queue.head? = some u) :
    u ∉ f.queue.tail := by
  have := hQ.nodup
  rcases hq : f.queue with _ | ⟨x, q⟩ <;> simp_all

/-- Releasing the permit, the world now `w` with the mutex free and every
queued call where it stood, keeps the invariant. -/
theorem release (hQ : QueueInv f) {w : World} (hl : w.lock = none)
    (hc : ∀ u ∈ f.queue, w.calls[u]? = f.world.calls[u]?) : QueueInv (f.release w) := by
  refine ⟨hQ.nodup.sublist (List.tail_sublist _), fun u hu => ?_, fun u hu => ?_, fun _ hn => ?_⟩
  · have hu' := List.mem_of_mem_tail hu
    simpa [hc u hu'] using hQ.queued u hu'
  · have hu' : u ∈ f.queue := List.mem_of_mem_head? hu
    exact ⟨hl, hQ.head_not_mem_tail hu, by simpa [hc u hu'] using hQ.queued u hu'⟩
  · simp [List.head?_eq_none_iff.mp hn]

/-- A call standing elsewhere than at a `lock().await` is neither queued
nor handed the permit. -/
theorem not_waiting (hQ : QueueInv f) {t : Nat} {pc : Pc} (ht : f.world.calls[t]? = some pc)
    (hpc : pc.atLock = false) : t ∉ f.queue ∧ f.handed ≠ some t := by
  refine ⟨fun hq => ?_, fun hh => ?_⟩
  · obtain ⟨p, hp, hat⟩ := hQ.queued t hq
    rw [ht] at hp; cases hp; simp_all
  · obtain ⟨-, -, p, hp, hat⟩ := hQ.handed t hh
    rw [ht] at hp; cases hp; simp_all

theorem step (hQ : QueueInv f) {e : Event} {f' : Fifo}
    (h : f.step e = some f') : QueueInv f' := by
  rcases Fifo.step_cases h with ⟨rfl, rfl⟩ | ⟨t, r, pc, rfl, ht, ⟨hpc, hmay, w, hw, rfl⟩ |
      ⟨hpc, hmay, hq, rfl⟩ | ⟨hpc, w, hw, rfl⟩⟩
  · -- a new call
    refine ⟨hQ.nodup, fun u hu => ?_, fun u hu => ?_, hQ.free⟩
    · obtain ⟨p, hp, hat⟩ := hQ.queued u hu
      exact ⟨p, World.newCall_calls_of hp, hat⟩
    · obtain ⟨hl, hq, p, hp, hat⟩ := hQ.handed u hu
      exact ⟨hl, hq, p, World.newCall_calls_of hp, hat⟩
  · -- a critical section
    obtain ⟨-, -, hl', -, hc⟩ := World.advance_atLock hpc ht hw
    have htq : t ∉ f.queue := by
      rcases hmay.2 with hh | ⟨-, hq⟩
      · exact (hQ.handed t hh).2.1
      · simp [hq]
    have hc' : ∀ u ∈ f.queue, w.calls[u]? = f.world.calls[u]? :=
      fun u hu => hc u (fun e => htq (e ▸ hu))
    unfold Fifo.enter
    split
    · exact hQ.release ‹_› hc'
    · refine ⟨hQ.nodup, fun u hu => by simpa [hc' u hu] using hQ.queued u hu, by simp, ?_⟩
      intro hn; simp_all
  · -- a call queues
    have hne : f.handed ≠ some t := fun hh => hmay ⟨(hQ.handed t hh).1, .inl hh⟩
    refine ⟨hQ.nodup.append (List.nodup_singleton t) (by simpa using hq), fun u hu => ?_,
      fun u hu => ?_, fun hl hn => absurd ⟨hl, .inr ⟨hn, hQ.free hl hn⟩⟩ hmay⟩
    · rcases List.mem_append.mp hu with hu | hu
      · exact hQ.queued u hu
      · obtain rfl := List.mem_singleton.mp hu; exact ⟨pc, ht, hpc⟩
    · obtain ⟨hl, hq', hp⟩ := hQ.handed u hu
      refine ⟨hl, ?_, hp⟩
      simp only [List.mem_append, List.mem_singleton, not_or]
      exact ⟨hq', fun e => hne (e ▸ hu)⟩
  · -- a call moves elsewhere
    obtain ⟨htq, hth⟩ := hQ.not_waiting ht hpc
    have hm := advance_move hw
    have hc : ∀ u, u ≠ t → w.calls[u]? = f.world.calls[u]? := fun u hu => hm.calls_other hu.symm ht
    unfold Fifo.moveOn
    split
    · rename_i hrel
      exact hQ.release hrel.2 fun u hu => hc u (fun e => htq (e ▸ hu))
    · rename_i hrel
      have hl : w.lock = f.world.lock := by
        rcases hm.lock_cases with hl | ⟨rfl, -⟩ | hl
        · exact hl
        · cases hpc
        · exact absurd hl hrel
      refine ⟨hQ.nodup, fun u hu => ?_, fun u hu => ?_, by simpa [hl] using hQ.free⟩
      · simpa [hc u (fun e => htq (e ▸ hu))] using hQ.queued u hu
      · obtain ⟨hl', hq', hp⟩ := hQ.handed u hu
        exact ⟨hl ▸ hl', hq', by simpa [hc u (fun e => hth (e ▸ hu))] using hp⟩

/-- A queued call may not take the permit. -/
theorem not_mayTake (hQ : QueueInv f) (hq : t ∈ f.queue) : ¬ f.mayTake t := by
  rintro ⟨-, hh | ⟨-, he⟩⟩
  · exact (hQ.handed t hh).2.1 hq
  · simp [he] at hq

/-- While a call waits, another holds the permit or was handed it. -/
theorem crit_of_mem (hI : PoolInv f.world) (hQ : QueueInv f) (hq : t ∈ f.queue) :
    ∃ c, f.crit = some c ∧ c ≠ t := by
  rcases hl : f.world.lock with _ | h
  · rcases hh : f.handed with _ | u
    · simp [hQ.free hl hh] at hq
    · exact ⟨u, by simp [Fifo.crit, hl, hh], fun e => (hQ.handed u hh).2.1 (e ▸ hq)⟩
  · refine ⟨h, by simp [Fifo.crit, hl], fun e => ?_⟩
    subst e
    obtain ⟨p, hp, hat⟩ := hQ.queued h hq
    rw [hI.lock_self hp, Pc.holdsLock_of_atLock hat] at hl
    cases hl

end QueueInv

/-- **The queue is in order.**  In every reachable state the queue holds
calls at a `lock().await`, each once; the permit is handed only while the
mutex is free, to a call at a `lock().await` that is not queued; and
nobody waits while the permit is free. -/
theorem Fifo.Reachable.queueInv {f : Fifo} (h : f.Reachable) : QueueInv f := by
  induction h with
  | fresh => exact .fresh
  | step e _ hs ih => exact ih.step hs

/-! ## The permit's holder -/

namespace Fifo

variable {f f' : Fifo} {c : Nat} {e : Event}

/-- While `c` holds the permit or was handed it, a step of another call
changes neither the mutex, nor who was handed the permit, nor the pool;
the queue can only grow at its end. -/
theorem step_quiet (hI : PoolInv f.world) (hc : f.crit = some c) (h : f.step e = some f')
    (he : e.moves c = false) :
    f'.world.lock = f.world.lock ∧ f'.handed = f.handed ∧
      f'.world.connections = f.world.connections ∧ ∃ l, f'.queue = f.queue ++ l := by
  rcases step_cases h with ⟨-, rfl⟩ | ⟨t, r, pc, rfl, ht, ⟨hpc, ⟨hl, hmay⟩, w, hw, rfl⟩ |
      ⟨-, -, -, rfl⟩ | ⟨hpc, w, hw, rfl⟩⟩
  · exact ⟨rfl, rfl, rfl, [], by simp⟩
  · rcases hmay with hh | ⟨hh, -⟩ <;> simp only [crit, hl, hh, Option.none_or] at hc
    · cases hc; simp [Event.moves] at he
    · cases hc
  · exact ⟨rfl, rfl, rfl, [t], rfl⟩
  · have hne : t ≠ c := by simpa [Event.moves] using he
    have hh : pc.holdsLock = false := by
      cases hpl : pc.holdsLock
      · rfl
      · rw [crit, (hI.lock_self ht).mpr hpl] at hc
        exact absurd (Option.some.inj hc) hne
    obtain ⟨hl, hcs⟩ := (advance_move hw).dial_path hpc hh
    rw [moveOn, if_neg (by simp [hh])]
    exact ⟨hl, rfl, hcs, [], by simp⟩

/-- The stage reads only the mutex, who was handed the permit, the pool, and
where `crit` stands. -/
theorem stage_congr (hl : f'.world.lock = f.world.lock) (hh : f'.handed = f.handed)
    (hcs : f'.world.connections = f.world.connections)
    (hc : ∀ c, f.crit = some c → f'.world.calls[c]? = f.world.calls[c]?) : f'.stage = f.stage := by
  unfold stage
  rw [hl, hh]
  rcases hl' : f.world.lock with _ | h
  · rcases hh' : f.handed with _ | u
    · rfl
    · simp only [hc u (by simp [crit, hl', hh']), hcs]
  · simp only [World.holderBound, hc h (by simp [crit, hl']), hcs]

/-- The step of `crit`: it keeps the permit and its stage drops, or it
passes the permit on. -/
theorem step_crit (hI : PoolInv f.world) (hQ : QueueInv f) (hc : f.crit = some c)
    (h : f.step e = some f') (he : e.moves c = true) :
    (f'.crit = some c ∧ f'.stage < f.stage ∧ f'.queue = f.queue) ∨
      (f'.queue = f.queue.tail ∧ f'.handed = f.queue.head?) := by
  obtain ⟨r, rfl⟩ := Event.moves_eq he
  rcases step_cases h with ⟨h0, -⟩ | ⟨t, r', pc, he', ht, ⟨hpc, ⟨hl, hmay⟩, w, hw, rfl⟩ |
      ⟨hpc, hmay, -, rfl⟩ | ⟨hpc, w, hw, rfl⟩⟩
  · cases h0
  all_goals obtain ⟨rfl, rfl⟩ := Event.step.inj he'
  · -- `c` was handed the permit, or took it free
    obtain ⟨-, -, hl', hcs, -⟩ := World.advance_atLock hpc ht hw
    unfold enter
    split
    · exact .inr ⟨rfl, rfl⟩
    · rename_i hn
      obtain rfl : pc = .reuse := by by_contra hr; simp [hl', hr] at hn
      have hh : f.handed = some c := by
        rcases hmay with hh | ⟨hh, -⟩
        · exact hh
        · simp [crit, hl, hh] at hc
      refine .inl ⟨by simp [crit, hl'], ?_, rfl⟩
      simp only [stage, hl', if_true, hl, hh, ht, World.holderBound,
        (World.advance_atLock hpc ht hw).2.1, Pc.entered, hcs rfl]
      omega
  · -- `crit` never queues
    rcases hl : f.world.lock with _ | h'
    · have hh : f.handed = some c := by simpa [crit, hl] using hc
      exact absurd ⟨hl, .inl hh⟩ hmay
    · have : h' = c := by simpa [crit, hl] using hc
      subst this
      rw [hI.lock_self ht, Pc.holdsLock_of_atLock hpc] at hl
      cases hl
  · -- `c` holds the mutex in the reuse loop
    have hl : f.world.lock = some c := by
      rcases hl : f.world.lock with _ | h'
      · have hh : f.handed = some c := by simpa [crit, hl] using hc
        obtain ⟨-, -, p, hp, hat⟩ := hQ.handed c hh
        rw [ht] at hp; cases hp; rw [hpc] at hat; cases hat
      · simpa [crit, hl] using hc
    have hhold : pc.holdsLock = true := (hI.lock_self ht).mp hl
    have hs : f.world.step (.step c r) = some w := by simp [World.step, ht, hw]
    unfold moveOn
    split
    · exact .inr ⟨rfl, rfl⟩
    · rename_i hrel
      rcases hI.holder_step hl hs with ⟨hl', hb⟩ | ⟨-, hleft⟩
      · have hh : f.handed = none := by
          rcases hh : f.handed with _ | u
          · rfl
          · simp [(hQ.handed u hh).1] at hl
        refine .inl ⟨by simp [crit, hl'], ?_, rfl⟩
        simp only [stage, hl', hl, Event.moves, beq_self_eq_true, if_true] at hb ⊢
        omega
      · exfalso
        obtain ⟨p, hp, hpast⟩ := World.leftLoop_eq_true.mp hleft
        have hI' := hI.step hs
        have hfree : w.lock ≠ some c := by
          rw [Ne, hI'.lock_self hp, Pc.holdsLock_of_pastLoop hpast]; simp
        rcases (advance_move hw).lock_cases with hl' | ⟨rfl, -⟩ | hl'
        · exact hfree (hl' ▸ hl)
        · cases hpc
        · exact hrel ⟨hhold, hl'.2⟩

/-- `crit` stands somewhere, and can move. -/
theorem crit_enabled (hf : f.Reachable) (hc : f.crit = some c) : f.Enabled c := by
  rcases hl : f.world.lock with _ | h
  · have hh : f.handed = some c := by simpa [crit, hl] using hc
    obtain ⟨-, -, p, hp, hat⟩ := hf.queueInv.handed c hh
    exact enabled_atLock hp hat (.inl ⟨hl, .inl hh⟩)
  · obtain rfl : h = c := by simpa [crit, hl] using hc
    obtain ⟨p, hp, hhold⟩ := (hf.world.poolInv.lock h).mp hl
    obtain ⟨w', hw'⟩ := hf.world.poolInv.holder_moves hp hhold .ok
    exact enabled_of_world hp (Pc.atLock_of_holdsLock hhold) hw'

theorem crit_calls (hf : f.Reachable) (hc : f.crit = some c) : ∃ p, f.world.calls[c]? = some p :=
  let ⟨p, hp, _⟩ := (crit_enabled hf hc).not_done
  ⟨p, hp⟩

/-- A queued call cannot move. -/
theorem step_queued (hf : f.Reachable) {t : Nat} (hq : t ∈ f.queue) {r : Reply} :
    f.step (.step t r) = none := by
  obtain ⟨p, hp, hat⟩ := hf.queueInv.queued t hq
  simp [Fifo.step, hp, hat, hf.queueInv.not_mayTake hq, hq]

end Fifo

end Flower.Quic
