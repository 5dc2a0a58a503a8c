import Flower.Quic.Interleaving
/-!
# `Flower.Quic.Progress` — the pool's mutex never blocks for good

`pool_accounting` is about what the calls do to the pool; this module is
about whether they can go on.  Only the reuse pass holds the mutex across
an `.await` (`open_bi`), so the question is the holder's:

    in every reachable state a call that has not returned can move, or
    waits for the mutex while its holder can move       (`Reachable.no_deadlock`)
    a call holding the mutex leaves the reuse loop, and releases the
    mutex, within 2 n + 1 of its own steps, n the number of slots, whatever
    the answers and whatever the other calls do          (`Reachable.holder_releases`)

All rest on `PoolInv`: the holder is in the loop, and a slot it awaits
`open_bi` on is in the pool.  While it holds the mutex no other call can
touch the pool (`PoolInv.move_other`), so its bound `World.holderBound`
(two steps per slot left, and one to leave) drops with each of its steps;
past the loop `Pc.dialBound` counts the awaits left on the dial path.
`Flower.Quic.Fifo` builds on both to show that every call returns.
-/

namespace Flower.Quic

/-! ## No deadlock -/

/-- The call holding the mutex can always move: it is in the reuse loop, at a
slot or awaiting `open_bi` on a slot that is there. -/
theorem PoolInv.holder_moves {w : World} (hI : PoolInv w) {t : Nat} {pc : Pc}
    (ht : w.calls[t]? = some pc) (hh : pc.holdsLock = true) (r : Reply) :
    ∃ w', w.step (.step t r) = some w' := by
  cases pc with
  | scan i =>
    simp only [World.step, ht, Option.some_bind, World.advance]
    split
    · exact ⟨_, rfl⟩
    · split <;> exact ⟨_, rfl⟩
  | openBi i =>
    obtain ⟨c, hc, -⟩ := hI.underCap t i ht
    simp only [World.step, ht, Option.some_bind, World.advance, hc]
    split <;> exact ⟨_, rfl⟩
  | _ => cases hh

/-- **No deadlock.**  In every reachable state, a call that has not returned
can move, unless it waits for the mutex; then the call holding the mutex
can move. -/
theorem Reachable.no_deadlock {w : World} (h : Reachable w) {t : Nat} {pc : Pc}
    (ht : w.calls[t]? = some pc) (hpc : ∀ res, pc ≠ .done res) (r : Reply) :
    (∃ w', w.step (.step t r) = some w') ∨
      ∃ t', w.lock = some t' ∧ t' ≠ t ∧ ∃ w', w.step (.step t' r) = some w' := by
  have hI := h.poolInv
  have waits : w.lock ≠ none → pc.holdsLock = false →
      ∃ t', w.lock = some t' ∧ t' ≠ t ∧ ∃ w', w.step (.step t' r) = some w' := by
    intro hl hf
    obtain ⟨t', hl'⟩ := Option.ne_none_iff_exists'.mp hl
    obtain ⟨pc', ht', hh⟩ := (hI.lock t').mp hl'
    refine ⟨t', hl', ?_, hI.holder_moves ht' hh r⟩
    rintro rfl
    obtain rfl := Option.some.inj (ht.symm.trans ht')
    exact absurd hh (by simp [hf])
  cases pc with
  | sweep | reuse | push k =>
    by_cases hl : w.lock = none
    · left
      simp only [World.step, ht, Option.some_bind, World.advance, hl, if_true]
      exact ⟨_, rfl⟩
    · exact .inr (waits hl rfl)
  | scan i => exact .inl (hI.holder_moves ht rfl r)
  | openBi i => exact .inl (hI.holder_moves ht rfl r)
  | endpoint | lookup | connect | openNew k =>
    left
    simp only [World.step, ht, Option.some_bind, World.advance]
    first | exact ⟨_, rfl⟩ | (split <;> exact ⟨_, rfl⟩)
  | done res => exact absurd rfl (hpc res)

/-- Call `0` takes the mutex on the empty pool; call `1` waits at the sweep. -/
def waitingCall : List Event := [.call, .call, .step 0 .ok, .step 0 .ok]

theorem Reachable.no_deadlock_waitingCall :
    Reachable ((World.fresh.run waitingCall).getD World.fresh) ∧
    ((World.fresh.run waitingCall).getD World.fresh).calls[1]? = some .sweep ∧
    ((∃ w', ((World.fresh.run waitingCall).getD World.fresh).step (.step 1 .ok) = some w') ∨
      ∃ t', ((World.fresh.run waitingCall).getD World.fresh).lock = some t' ∧ t' ≠ 1 ∧
        ∃ w', ((World.fresh.run waitingCall).getD World.fresh).step (.step t' .ok) = some w') :=
  have h := Reachable.fresh.run waitingCall rfl
  ⟨h, rfl, h.no_deadlock rfl (fun _ e => by cases e) .ok⟩

/-! ## The holder releases the mutex -/

/-- The call has left the reuse loop for good: it dials, or has returned. -/
def Pc.pastLoop : Pc → Bool
  | .endpoint | .lookup | .connect | .openNew _ | .push _ | .done _ => true
  | _ => false

/-- How many more of its own steps the mutex holder `t` can take in the
reuse loop: two per slot left (`open_bi`, then the next slot), and one to
leave. -/
def World.holderBound (w : World) (t : Nat) : Nat :=
  match w.calls[t]? with
  | some (.scan i) => 2 * (w.connections.length - i) + 1
  | some (.openBi i) => 2 * (w.connections.length - i)
  | _ => 0

/-- The event moves call `t`. -/
def Event.moves (t : Nat) : Event → Bool
  | .step t' _ => t' == t
  | .call => false

/-- A move of another call leaves call `t` where it stands. -/
theorem Move.calls_other {w w' : World} {t' t : Nat} {pc : Pc} (hm : Move w t' pc w') (ht : t' ≠ t)
    (h : w.calls[t']? = some pc) : w'.calls[t]? = w.calls[t]? := by
  have hg : ∀ pc', (w.goto t' pc').calls[t]? = w.calls[t]? := fun pc' => by
    rw [World.goto_calls h, if_neg ht]
  cases hm <;> simp only [World.setPool_calls, World.setLock_calls, World.dialOne_calls, hg]

theorem World.newCall_calls_of {w : World} {t : Nat} {pc : Pc} (h : w.calls[t]? = some pc) :
    w.newCall.calls[t]? = some pc := by
  rw [World.newCall, List.getElem?_append_left (List.getElem?_eq_some_iff.mp h).1]; exact h

theorem World.goto_calls_self {w : World} {t : Nat} {pc : Pc} (h : w.calls[t]? = some pc)
    (pc' : Pc) : (w.goto t pc').calls[t]? = some pc' := by
  rw [World.goto_calls h, if_pos rfl]

/-- Call `t` has left the reuse loop. -/
def World.leftLoop (w : World) (t : Nat) : Bool := (w.calls[t]?).any Pc.pastLoop

/-- Past the loop, a call stays past it. -/
theorem leftLoop_step {w w' : World} {t : Nat} (hp : w.leftLoop t = true) {e : Event}
    (hs : w.step e = some w') : w'.leftLoop t = true := by
  rw [World.leftLoop] at hp
  rcases ht : w.calls[t]? with _ | pc
  · rw [ht] at hp; cases hp
  rw [ht] at hp
  change pc.pastLoop = true at hp
  cases e with
  | call =>
    rw [← Option.some.inj hs, World.leftLoop, World.newCall_calls_of ht]
    exact hp
  | step t' r =>
    obtain ⟨pc', ht', hadv⟩ := Option.bind_eq_some.mp hs
    by_cases e : t' = t
    · subst e
      obtain rfl := Option.some.inj (ht'.symm.trans ht)
      have hg := World.goto_calls_self ht
      cases pc' <;> simp only [Pc.pastLoop, Bool.false_eq_true, World.advance] at hp hadv <;> (try split at hadv) <;>
        cases hadv <;>
        simp only [World.leftLoop, World.dialOne_calls, World.setPool_calls, hg] <;> rfl
    · rw [World.leftLoop, (advance_move hadv).calls_other e ht', ht]
      exact hp

theorem leftLoop_run {w w' : World} {t : Nat} (hp : w.leftLoop t = true) :
    ∀ {es : List Event}, w.run es = some w' → w'.leftLoop t = true
  | [], hr => by cases hr; exact hp
  | _ :: _, hr => by
    obtain ⟨w₁, hs, hr⟩ := Option.bind_eq_some.mp hr
    exact leftLoop_run (leftLoop_step hp hs) hr

theorem Pc.holdsLock_of_pastLoop {pc : Pc} (h : pc.pastLoop = true) : pc.holdsLock = false := by
  cases pc <;> first | rfl | cases h

theorem World.holderBound_le (w : World) (t : Nat) :
    w.holderBound t ≤ 2 * w.connections.length + 1 := by
  unfold World.holderBound
  split <;> omega

namespace PoolInv

variable {w : World} {t : Nat}

/-- While `t` holds the mutex, a move of another call changes neither the
mutex, nor the pool, nor where `t` stands. -/
theorem move_other (hI : PoolInv w) (hl : w.lock = some t) {t' : Nat} {pc : Pc} {w' : World}
    (h : w.calls[t']? = some pc) (hm : Move w t' pc w') (ht : t' ≠ t) :
    w'.lock = w.lock ∧ w'.connections = w.connections ∧ w'.calls[t]? = w.calls[t]? := by
  have hfree : pc.holdsLock = false := hI.not_holds_of_other hl ht h
  refine ⟨?_, ?_, hm.calls_other ht h⟩ <;>
  cases hm with
  | frame => rfl
  | connected => rfl
  | openNewFailed => rfl
  | sweep _ h0 | acquire _ h0 | pushed _ h0 => exact absurd (hl ▸ h0) (by simp)
  | loopEnd hpc | accept hpc => subst hpc; cases hfree
  | retire hpc => rw [hpc] at hfree; cases hfree

theorem holderBound_pos (hI : PoolInv w) (hl : w.lock = some t) : 0 < w.holderBound t := by
  obtain ⟨pc, ht, hh⟩ := (hI.lock t).mp hl
  cases pc with
  | scan i => simp [World.holderBound, ht]
  | openBi i =>
    obtain ⟨c, hc, -⟩ := hI.underCap t i ht
    have := (List.getElem?_eq_some_iff.mp hc).1
    simp only [World.holderBound, ht]; omega
  | _ => cases hh

/-- One step while `t` holds the mutex: `t` keeps it and its bound drops by
one if it was `t` that moved, or `t` moved and left the loop. -/
theorem holder_step (hI : PoolInv w) (hl : w.lock = some t) {e : Event} {w' : World}
    (hs : w.step e = some w') :
    (w'.lock = some t ∧ w'.holderBound t + (if e.moves t then 1 else 0) ≤ w.holderBound t) ∨
      (e.moves t = true ∧ w'.leftLoop t = true) := by
  obtain ⟨pc, ht, hh⟩ := (hI.lock t).mp hl
  cases e with
  | call =>
    cases hs
    have hc : w.newCall.calls[t]? = w.calls[t]? := (World.newCall_calls_of ht).trans ht.symm
    refine .inl ⟨hl, ?_⟩
    simp only [Event.moves, Bool.false_eq_true, if_false, Nat.add_zero, World.holderBound, hc]
    exact le_rfl
  | step t' r =>
    obtain ⟨pc', ht', hadv⟩ := Option.bind_eq_some.mp hs
    by_cases e : t' = t
    · subst e
      obtain rfl := Option.some.inj (ht'.symm.trans ht)
      have hg := World.goto_calls_self ht
      cases pc' with
      | scan i =>
        simp only [World.advance] at hadv
        split at hadv
        · cases hadv
          exact .inr ⟨by simp [Event.moves], by simp [World.leftLoop, hg]; rfl⟩
        · rename_i c hc
          have := (List.getElem?_eq_some_iff.mp hc).1
          split at hadv <;> cases hadv <;> refine .inl ⟨hl, ?_⟩ <;>
            simp only [World.holderBound, Event.moves, hg, ht, beq_self_eq_true, if_true,
              World.goto_connections, World.setPool_connections, List.length_set, World.setPool_calls] <;>
            omega
      | openBi i =>
        obtain ⟨c, hc, -⟩ := hI.underCap t' i ht
        have := (List.getElem?_eq_some_iff.mp hc).1
        simp only [World.advance, hc] at hadv
        split at hadv <;> cases hadv
        · exact .inr ⟨by simp [Event.moves], by simp [World.leftLoop, hg]; rfl⟩
        · refine .inl ⟨hl, ?_⟩
          simp [World.holderBound, Event.moves, hg, ht]; omega
      | _ => cases hh
    · obtain ⟨hl', hc', hct⟩ := hI.move_other hl ht' (advance_move hadv) e
      left
      refine ⟨hl' ▸ hl, ?_⟩
      simp only [World.holderBound, hc', hct, Event.moves, beq_iff_eq, e, if_false, Nat.add_zero,
        le_refl]

end PoolInv

/-- A holder that takes as many steps as its bound leaves the loop. -/
theorem holder_run {w w' : World} (h : Reachable w) {t : Nat} (hl : w.lock = some t) :
    ∀ {es : List Event}, w.run es = some w' → w.holderBound t ≤ es.countP (Event.moves t) →
      w'.leftLoop t = true
  | [], _, hn => absurd (h.poolInv.holderBound_pos hl) (by simp at hn; omega)
  | e :: es, hr, hn => by
    obtain ⟨w₁, hs, hr⟩ := Option.bind_eq_some.mp hr
    rcases h.poolInv.holder_step hl hs with ⟨hl₁, hb⟩ | ⟨-, hleft⟩
    · refine holder_run (h.step e hs) hl₁ hr ?_
      rw [List.countP_cons] at hn
      omega
    · exact leftLoop_run hleft hr

/-- **The mutex is released.**  From any reachable state where call `t`
holds the mutex, once `t` has taken `2 n + 1` steps, `n` the number of slots,
whatever the answers and whatever other calls did in between, `t` has left
the reuse loop and no longer holds the mutex. -/
theorem Reachable.holder_releases {w w' : World} (h : Reachable w) {t : Nat}
    (hl : w.lock = some t) {es : List Event} (hr : w.run es = some w')
    (hn : 2 * w.connections.length + 1 ≤ es.countP (Event.moves t)) :
    w'.leftLoop t = true ∧ w'.lock ≠ some t := by
  have hleft := holder_run h hl hr ((w.holderBound_le t).trans hn)
  refine ⟨hleft, fun hl' => ?_⟩
  obtain ⟨pc, ht, hh⟩ := ((h.run es hr).poolInv.lock t).mp hl'
  rw [World.leftLoop, ht] at hleft
  rw [Pc.holdsLock_of_pastLoop hleft] at hh
  cases hh

/-- Call `0` dials connection `0` and returns; call `1` takes the mutex. -/
def holdSlot : List Event := oneCall ++ [.call, .step 1 .ok, .step 1 .ok]

/-- Call `1` holds the mutex at slot `0`. -/
def heldByOne : World := (World.fresh.run holdSlot).getD World.fresh

/-- Its `open_bi` on slot `0` fails, and it leaves the loop past the last
slot: three steps, `2 n + 1` for one slot. -/
def retireAndLeave : List Event := [.step 1 .ok, .step 1 .err, .step 1 .ok]

theorem Reachable.holder_releases_heldByOne :
    heldByOne.lock = some 1 ∧ heldByOne.connections.length = 1 ∧
      ((heldByOne.run retireAndLeave).getD heldByOne).leftLoop 1 = true ∧
      ((heldByOne.run retireAndLeave).getD heldByOne).lock ≠ some 1 :=
  have h : Reachable heldByOne := Reachable.fresh.run holdSlot rfl
  ⟨rfl, rfl, @Reachable.holder_releases heldByOne _ h 1 rfl retireAndLeave rfl (by decide)⟩

/-! ## Past the loop

Past the loop a call has at most five awaits left (the endpoint, the
lookup, `connect`, `open_bi` and the push), and each of its steps takes it
one further or returns. -/

/-- How many more steps a call past the reuse loop can take. -/
def Pc.dialBound : Pc → Nat
  | .endpoint => 5
  | .lookup => 4
  | .connect => 3
  | .openNew _ => 2
  | .push _ => 1
  | _ => 0

theorem World.leftLoop_eq_true {w : World} {t : Nat} :
    w.leftLoop t = true ↔ ∃ pc, w.calls[t]? = some pc ∧ pc.pastLoop = true := by
  unfold World.leftLoop
  cases w.calls[t]? <;> simp

/-- A step of a call past the loop takes it one further, or returns. -/
theorem dialBound_step {w w' : World} {t : Nat} {pc : Pc} (ht : w.calls[t]? = some pc)
    (hp : pc.pastLoop = true) {r : Reply} (hadv : w.advance t r pc = some w') :
    ∃ pc', w'.calls[t]? = some pc' ∧ pc'.pastLoop = true ∧ pc'.dialBound < pc.dialBound := by
  have hg := World.goto_calls_self ht
  cases pc with
  | endpoint | lookup | openNew k =>
    cases hadv
    refine ⟨_, hg _, ?_⟩
    split <;> simp [Pc.dialBound, Pc.pastLoop]
  | connect =>
    simp only [World.advance] at hadv
    split at hadv <;> cases hadv
    · exact ⟨_, by rw [World.dialOne_calls]; exact hg _, by simp [Pc.dialBound, Pc.pastLoop]⟩
    · exact ⟨_, hg _, by simp [Pc.dialBound, Pc.pastLoop]⟩
  | push k =>
    simp only [World.advance] at hadv
    split at hadv <;> cases hadv
    exact ⟨_, by rw [World.setPool_calls]; exact hg _, by simp [Pc.dialBound, Pc.pastLoop]⟩
  | done res => cases hadv
  | _ => cases hp

end Flower.Quic
