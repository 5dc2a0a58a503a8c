import Mathlib.Data.List.Nodup
import Flower.Quic.Pool
/-!
# `Flower.Quic.Interleaving` — concurrent `new_stream` calls on one pool

`Manager::new_stream` stops at every `.await`: the two `lock().await`s of
the sweep and the reuse pass, the `open_bi().await` inside the reuse loop,
the DNS lookup, `connect`, the `open_bi().await` on a new connection, and the
`lock().await` of the push.  A `World` is the pool, the holder of its mutex,
and where every call made so far stands (`Pc`); an `Event` starts a call, or
moves one call to its next `.await`, whose external call answers with any
`Reply`.  Every interleaving of any number of calls is a run of `World.step`
from `World.fresh`, and `Reachable` is the set of states such runs reach.

What is proved:

  * `pool_accounting`: in every reachable state every slot holds between
    1 and 128 streams, and exactly as many as the calls have returned on its
    connection; a call that returns a stream adds it to one slot (an existing
    slot gains one, or a new slot is pushed with one), and a call that fails
    changes no slot's count.  The mutex is held across `open_bi`, and the
    dial pushes only after its own `open_bi` succeeded: the invariant
    `PoolInv` says what each of these buys.
  * `Reachable.reuse_exclusive`: at most one call is ever in the reuse
    loop, and it awaits `open_bi` only on a slot under the cap.
-/

namespace Flower.Quic

/-- Where a `new_stream` call stands: at the sweep's
`self.connections.lock().await` (`sweep`); at the reuse pass's (`reuse`);
in the reuse loop at slot `i` (`scan i`), or awaiting `open_bi()` on it
(`openBi i`); after the loop, the mutex released, at
`quinn::Endpoint::client` (`endpoint`); awaiting the DNS lookup (`lookup`),
`connect(..)` and the handshake (`connect`), or `open_bi()` on the new
connection `k` (`openNew k`); at the push's `lock().await` with connection
`k` (`push k`); or returned, with the connection carrying the stream or the
error (`done r`).  The mutex is held in `scan` and `openBi`, from the reuse
pass's `lock().await` to the end of its loop. -/
inductive Pc
  | sweep
  | reuse
  | scan (i : Nat)
  | openBi (i : Nat)
  | endpoint
  | lookup
  | connect
  | openNew (k : Nat)
  | push (k : Nat)
  | done (r : Except DialError Nat)
  deriving DecidableEq, Repr

instance instInhabitedPc : Inhabited Pc := ⟨.sweep⟩

namespace Pc

/-- The call is in the reuse loop, holding the mutex. -/
def holdsLock : Pc → Bool
  | scan _ | openBi _ => true
  | _ => false

/-- The connection the call has dialed and not pushed yet. -/
def dialing : Pc → Option Nat
  | openNew k | push k => some k
  | _ => none

/-- The connection carrying the stream the call returned. -/
def returned : Pc → Option Nat
  | done (.ok k) => some k
  | _ => none

end Pc

/-- The pool, the call holding its mutex, every call made so far in the order
they were made, and how many connections were dialed. -/
structure World where
  connections : List Connection
  lock : Option Nat
  calls : List Pc
  dialed : Nat
  deriving DecidableEq, Repr

/-- A fresh `Manager`, before any call. -/
def World.fresh : World := ⟨[], none, [], 0⟩

/-- Call `t` moves to `pc`. -/
def World.goto (w : World) (t : Nat) (pc : Pc) : World := { w with calls := w.calls.set t pc }

/-- The pool becomes `cs`. -/
def World.setPool (w : World) (cs : List Connection) : World := { w with connections := cs }

/-- The mutex becomes `l`. -/
def World.setLock (w : World) (l : Option Nat) : World := { w with lock := l }

/-- A new call, at the sweep. -/
def World.newCall (w : World) : World := { w with calls := w.calls ++ [.sweep] }

/-- One more connection dialed. -/
def World.dialOne (w : World) : World := { w with dialed := w.dialed + 1 }

/-- The slots as the accounting reads them: connection and stream count. -/
def World.counts (w : World) : List (Nat × Nat) :=
  w.connections.map fun c => (c.newConn, c.totalAccepted)

/-- The connections carrying the streams the calls returned, one entry a stream. -/
def World.returned (w : World) : List Nat := w.calls.filterMap Pc.returned

/-- The connections dialed and not yet pushed. -/
def World.dialing (w : World) : List Nat := w.calls.filterMap Pc.dialing

/-- A call starts, or call `t` moves to its next `.await`, answered by `r`. -/
inductive Event
  | call
  | step (t : Nat) (r : Reply)
  deriving DecidableEq, Repr

/-- Call `t`, standing at `pc`, moves on; `none` while it waits for the mutex,
and once it has returned. -/
def World.advance (w : World) (t : Nat) (r : Reply) : Pc → Option World
  | .sweep => if w.lock = none then
      some ((w.goto t .reuse).setPool (sweep w.connections)) else none
  | .reuse => if w.lock = none then some ((w.goto t (.scan 0)).setLock (some t)) else none
  | .scan i => match w.connections[i]? with
      | none => some ((w.goto t .endpoint).setLock none)
      | some c => if c.totalAccepted < 128 then some (w.goto t (.openBi i))
          else some ((w.goto t (.scan (i + 1))).setPool (w.connections.set i c.retire))
  | .openBi i => match w.connections[i]? with
      | none => none
      | some c => if r = .ok then
          some (((w.goto t (.done (.ok c.newConn))).setPool (w.connections.set i c.accept)).setLock
            none)
        else some ((w.goto t (.scan (i + 1))).setPool (w.connections.set i c.retire))
  | .endpoint => some (w.goto t (if r = .ok then .lookup else .done (.error .endpoint)))
  | .lookup => some (w.goto t (match r with
      | .ok => .connect
      | .err => .done (.error .lookup)
      | .noAddress => .done (.error .noAddress)))
  | .connect => if r = .ok then some (w.goto t (.openNew w.dialed)).dialOne
      else some (w.goto t (.done (.error .connect)))
  | .openNew k => some (w.goto t (if r = .ok then .push k else .done (.error .openBi)))
  | .push k => if w.lock = none then
      some ((w.goto t (.done (.ok k))).setPool (w.connections ++ [⟨k, 1, false⟩]))
      else none
  | .done _ => none

/-- One event. -/
def World.step (w : World) : Event → Option World
  | .call => some w.newCall
  | .step t r => (w.calls[t]?).bind (w.advance t r)

/-- The states some interleaving reaches from a fresh `Manager`. -/
inductive Reachable : World → Prop
  | fresh : Reachable World.fresh
  | step {w w' : World} (e : Event) : Reachable w → w.step e = some w' → Reachable w'

/-- A run of events, stopping at the first that cannot happen. -/
def World.run (w : World) : List Event → Option World
  | [] => some w
  | e :: es => (w.step e).bind (·.run es)

theorem Reachable.run {w w' : World} (h : Reachable w) :
    ∀ es : List Event, w.run es = some w' → Reachable w'
  | [], he => by cases he; exact h
  | e :: es, he => by
      obtain ⟨v, hv, hr⟩ := Option.bind_eq_some.mp he
      exact (h.step e hv).run es hr

theorem World.run_append (w : World) (l₁ l₂ : List Event) :
    w.run (l₁ ++ l₂) = (w.run l₁).bind (·.run l₂) := by
  induction l₁ generalizing w with
  | nil => rfl
  | cons e l₁ ih =>
    simp only [List.cons_append, World.run]
    cases w.step e <;> simp [ih]

section Schedule

variable {α : Type}

theorem getElem?_length_append_cons (A R : List α) (x : α) :
    (A ++ x :: R)[A.length]? = some x := by
  rw [List.getElem?_append_right (Nat.le_refl _), Nat.sub_self, List.getElem?_cons_zero]

theorem set_length_append_cons (A R : List α) (x y : α) :
    (A ++ x :: R).set A.length y = A ++ y :: R := by
  simp [List.set_append_right]

end Schedule

/-- A step of the call at position `A.length`. -/
theorem run_step_at (cs : List Connection) (l : Option Nat) (A R : List Pc) (x : Pc) (d : Nat)
    (r : Reply) (es : List Event) :
    (⟨cs, l, A ++ x :: R, d⟩ : World).run (.step A.length r :: es) =
      ((⟨cs, l, A ++ x :: R, d⟩ : World).advance A.length r x).bind (·.run es) := by
  simp only [World.run, World.step, getElem?_length_append_cons, Option.some_bind]

/-! ## What one step can do

`step_cases` lists every transition with its guard, once; the invariant and
the accounting below are case analyses over it.  A `Frame` move changes only
the moving call's place, and keeps what the accounting reads of it. -/

/-- Call `t` moves from `pc` to `pc'` and nothing else changes: neither the
connection it dials, nor the stream it returned, nor whether it holds the
mutex; a move to `openBi i` is made only on a slot under the cap. -/
def Frame (w : World) (pc pc' : Pc) : Prop :=
  pc'.dialing = pc.dialing ∧ pc'.returned = pc.returned ∧ pc'.holdsLock = pc.holdsLock ∧
    ∀ i, pc' = .openBi i → ∃ c, w.connections[i]? = some c ∧ c.totalAccepted < 128

/-- The transitions of call `t`, standing at `pc`. -/
inductive Move (w : World) (t : Nat) (pc : Pc) : World → Prop
  | frame {pc' : Pc} : Frame w pc pc' → Move w t pc (w.goto t pc')
  | sweep : pc = .sweep → w.lock = none →
      Move w t pc ((w.goto t .reuse).setPool (sweep w.connections))
  | acquire : pc = .reuse → w.lock = none → Move w t pc ((w.goto t (.scan 0)).setLock (some t))
  | loopEnd {i : Nat} : pc = .scan i → w.connections[i]? = none →
      Move w t pc ((w.goto t .endpoint).setLock none)
  | retire {i : Nat} {c : Connection} : pc.holdsLock = true → w.connections[i]? = some c →
      Move w t pc ((w.goto t (.scan (i + 1))).setPool (w.connections.set i c.retire))
  | accept {i : Nat} {c : Connection} : pc = .openBi i → w.connections[i]? = some c →
      Move w t pc
        (((w.goto t (.done (.ok c.newConn))).setPool (w.connections.set i c.accept)).setLock none)
  | connected : pc = .connect → Move w t pc (w.goto t (.openNew w.dialed)).dialOne
  | openNewFailed {k : Nat} : pc = .openNew k → Move w t pc (w.goto t (.done (.error .openBi)))
  | pushed {k : Nat} : pc = .push k → w.lock = none →
      Move w t pc ((w.goto t (.done (.ok k))).setPool (w.connections ++ [⟨k, 1, false⟩]))

theorem frame_of_plain {w : World} {pc pc' : Pc} (hd : pc'.dialing = pc.dialing)
    (hr : pc'.returned = pc.returned) (hl : pc'.holdsLock = pc.holdsLock)
    (hc : ∀ i, pc' ≠ .openBi i) : Frame w pc pc' :=
  ⟨hd, hr, hl, fun i h => absurd h (hc i)⟩

theorem advance_move {w w' : World} {t : Nat} {r : Reply} :
    ∀ {pc : Pc}, w.advance t r pc = some w' → Move w t pc w'
  | .sweep, h => by
      simp only [World.advance, Option.ite_none_right_eq_some, Option.some.injEq] at h
      exact h.2 ▸ .sweep rfl h.1
  | .reuse, h => by
      simp only [World.advance, Option.ite_none_right_eq_some, Option.some.injEq] at h
      exact h.2 ▸ .acquire rfl h.1
  | .scan i, h => by
      simp only [World.advance] at h
      split at h
      · cases h; exact .loopEnd rfl ‹_›
      · split at h <;> cases h
        · exact .frame ⟨rfl, rfl, rfl, fun j hj => ⟨_, by cases hj; assumption, ‹_›⟩⟩
        · exact .retire rfl ‹_›
  | .openBi i, h => by
      simp only [World.advance] at h
      split at h
      · cases h
      · split at h <;> cases h
        · exact .accept rfl ‹_›
        · exact .retire rfl ‹_›
  | .endpoint, h => by
      simp only [World.advance, Option.some.injEq] at h
      subst h
      exact .frame (frame_of_plain (by split <;> rfl) (by split <;> rfl) (by split <;> rfl)
        (by split <;> simp))
  | .lookup, h => by
      simp only [World.advance, Option.some.injEq] at h
      subst h
      exact .frame (frame_of_plain (by split <;> rfl) (by split <;> rfl) (by split <;> rfl)
        (by split <;> simp))
  | .connect, h => by
      simp only [World.advance] at h
      split at h <;> cases h
      · exact .connected rfl
      · exact .frame (frame_of_plain rfl rfl rfl (by simp))
  | .openNew k, h => by
      simp only [World.advance, Option.some.injEq] at h
      subst h
      split
      · exact .frame (frame_of_plain rfl rfl rfl (by simp))
      · exact .openNewFailed rfl
  | .push k, h => by
      simp only [World.advance, Option.ite_none_right_eq_some, Option.some.injEq] at h
      exact h.2 ▸ .pushed rfl h.1
  | .done _, h => by cases h

/-- **What one step can do**: start a call, or move one call by one of its
transitions. -/
theorem step_cases {w w' : World} {e : Event} (h : w.step e = some w') :
    w' = w.newCall ∨
      ∃ t pc, w.calls[t]? = some pc ∧ Move w t pc w' := by
  cases e with
  | call => exact .inl (Option.some.inj h).symm
  | step t r =>
      obtain ⟨pc, hpc, hm⟩ := Option.bind_eq_some.mp h
      exact .inr ⟨t, pc, hpc, advance_move hm⟩

/-! ## The accounting invariant -/

/-- An entry splits its list, and replacing it replaces it in the split. -/
theorem split_of_getElem? {α : Type} {l : List α} {i : Nat} {a : α} (h : l[i]? = some a) :
    ∃ pre post, l = pre ++ a :: post ∧ ∀ x, l.set i x = pre ++ x :: post := by
  obtain ⟨hi, rfl⟩ := List.getElem?_eq_some_iff.mp h
  refine ⟨l.take i, l.drop (i + 1), ?_, fun x => List.set_eq_take_cons_drop x hi⟩
  rw [← List.drop_eq_getElem_cons hi, List.take_append_drop]

theorem filterMap_cons_toList {α β : Type} (f : α → Option β) (a : α) (l : List α) :
    (a :: l).filterMap f = (f a).toList ++ l.filterMap f := by
  cases h : f a <;> simp [List.filterMap_cons, h]

/-- Replacing one entry trades its image under `f` for the new entry's. -/
theorem filterMap_set_perm {α β : Type} [DecidableEq β] (f : α → Option β) {l : List α}
    {i : Nat} {a : α} (h : l[i]? = some a) (x : α) :
    ((l.set i x).filterMap f ++ (f a).toList).Perm (l.filterMap f ++ (f x).toList) := by
  obtain ⟨pre, post, rfl, hs⟩ := split_of_getElem? h
  rw [hs, List.perm_iff_count]
  intro b
  simp only [List.filterMap_append, filterMap_cons_toList, List.count_append]
  omega

theorem filterMap_set_of_eq {α β : Type} (f : α → Option β) {l : List α} {i : Nat} {a x : α}
    (h : l[i]? = some a) (hx : f x = f a) : (l.set i x).filterMap f = l.filterMap f := by
  obtain ⟨pre, post, rfl, hs⟩ := split_of_getElem? h
  simp only [hs, List.filterMap_append, filterMap_cons_toList, hx]

namespace World

variable {w : World} {t : Nat} {pc pc' : Pc} {cs : List Connection} {l : Option Nat}

@[simp] theorem goto_connections : (w.goto t pc').connections = w.connections := rfl
@[simp] theorem goto_lock : (w.goto t pc').lock = w.lock := rfl
@[simp] theorem goto_dialed : (w.goto t pc').dialed = w.dialed := rfl
@[simp] theorem goto_counts : (w.goto t pc').counts = w.counts := rfl
theorem counts_map_fst : w.counts.map Prod.fst = w.connections.map (·.newConn) := by
  simp [counts]
@[simp] theorem setPool_connections : (w.setPool cs).connections = cs := rfl
@[simp] theorem setPool_lock : (w.setPool cs).lock = w.lock := rfl
@[simp] theorem setPool_calls : (w.setPool cs).calls = w.calls := rfl
@[simp] theorem setPool_dialed : (w.setPool cs).dialed = w.dialed := rfl
@[simp] theorem setPool_returned : (w.setPool cs).returned = w.returned := rfl
@[simp] theorem setPool_dialing : (w.setPool cs).dialing = w.dialing := rfl
@[simp] theorem setPool_counts :
    (w.setPool cs).counts = cs.map fun c => (c.newConn, c.totalAccepted) := rfl
@[simp] theorem setLock_connections : (w.setLock l).connections = w.connections := rfl
@[simp] theorem setLock_lock : (w.setLock l).lock = l := rfl
@[simp] theorem setLock_calls : (w.setLock l).calls = w.calls := rfl
@[simp] theorem setLock_dialed : (w.setLock l).dialed = w.dialed := rfl
@[simp] theorem setLock_returned : (w.setLock l).returned = w.returned := rfl
@[simp] theorem setLock_dialing : (w.setLock l).dialing = w.dialing := rfl
@[simp] theorem setLock_counts : (w.setLock l).counts = w.counts := rfl
@[simp] theorem dialOne_connections : w.dialOne.connections = w.connections := rfl
@[simp] theorem dialOne_lock : w.dialOne.lock = w.lock := rfl
@[simp] theorem dialOne_calls : w.dialOne.calls = w.calls := rfl
@[simp] theorem dialOne_dialed : w.dialOne.dialed = w.dialed + 1 := rfl
@[simp] theorem dialOne_returned : w.dialOne.returned = w.returned := rfl
@[simp] theorem dialOne_dialing : w.dialOne.dialing = w.dialing := rfl
@[simp] theorem dialOne_counts : w.dialOne.counts = w.counts := rfl

theorem goto_calls (h : w.calls[t]? = some pc) (t' : Nat) :
    (w.goto t pc').calls[t']? = if t = t' then some pc' else w.calls[t']? := by
  have ht : t < w.calls.length := (List.getElem?_eq_some_iff.mp h).1
  simp only [goto, List.getElem?_set, ht, if_true]

theorem goto_returned (pc' : Pc) (h : w.calls[t]? = some pc) :
    ((w.goto t pc').returned ++ pc.returned.toList).Perm (w.returned ++ pc'.returned.toList) :=
  filterMap_set_perm _ h _

theorem goto_dialing (pc' : Pc) (h : w.calls[t]? = some pc) :
    ((w.goto t pc').dialing ++ pc.dialing.toList).Perm (w.dialing ++ pc'.dialing.toList) :=
  filterMap_set_perm _ h _

theorem goto_returned_eq (pc' : Pc) (h : w.calls[t]? = some pc)
    (he : pc'.returned = pc.returned) :
    (w.goto t pc').returned = w.returned :=
  filterMap_set_of_eq _ h he

theorem goto_dialing_eq (pc' : Pc) (h : w.calls[t]? = some pc)
    (he : pc'.dialing = pc.dialing) :
    (w.goto t pc').dialing = w.dialing :=
  filterMap_set_of_eq _ h he

/-- Retiring a slot leaves the accounting as it was. -/
theorem counts_retire {i : Nat} {c : Connection} (hc : w.connections[i]? = some c) :
    (w.connections.set i c.retire).map (fun c => (c.newConn, c.totalAccepted)) = w.counts := by
  obtain ⟨pre, post, hcs, hs⟩ := split_of_getElem? hc
  rw [hs, counts, hcs]
  simp [Connection.retire]

end World

theorem Pc.returned_of_holdsLock {pc : Pc} (h : pc.holdsLock = true) : pc.returned = none := by
  cases pc <;> simp_all [Pc.holdsLock, Pc.returned]

theorem Pc.dialing_of_holdsLock {pc : Pc} (h : pc.holdsLock = true) : pc.dialing = none := by
  cases pc <;> simp_all [Pc.holdsLock, Pc.dialing]

/-- What every reachable state satisfies (`pool_accounting`): every slot
holds between 1 and 128 streams (`bounded`), exactly as many as the calls
returned on its connection (`counted`); the pooled connections and those
being dialed are distinct (`distinct`) and were all dialed (`dialedBefore`);
no stream was returned on a connection not pushed yet (`unreturned`); the
mutex is held by the call in the reuse loop, and only by it (`lock`), which
awaits `open_bi` only on a slot under the cap (`underCap`). -/
structure PoolInv (w : World) : Prop where
  bounded : ∀ p ∈ w.counts, 1 ≤ p.2 ∧ p.2 ≤ 128
  counted : ∀ p ∈ w.counts, p.2 = w.returned.count p.1
  distinct : (w.counts.map Prod.fst ++ w.dialing).Nodup
  dialedBefore : ∀ k ∈ w.counts.map Prod.fst ++ w.dialing, k < w.dialed
  unreturned : ∀ k, k ∈ w.dialing ∨ w.dialed ≤ k → w.returned.count k = 0
  lock : ∀ t, w.lock = some t ↔ ∃ pc, w.calls[t]? = some pc ∧ pc.holdsLock = true
  underCap : ∀ t i : Nat, w.calls[t]? = some (Pc.openBi i) →
    ∃ c : Connection, w.connections[i]? = some c ∧ c.totalAccepted < 128

namespace PoolInv

variable {w : World} {t : Nat} {pc : Pc}

theorem fresh : PoolInv World.fresh :=
  ⟨by simp [World.fresh, World.counts], by simp [World.fresh, World.counts],
    by simp [World.fresh, World.counts, World.dialing],
    by simp [World.fresh, World.counts, World.dialing], by simp [World.fresh, World.returned],
    by simp [World.fresh], by simp [World.fresh]⟩

/-- A state with the same accounting, calls and dials, whose mutex and
`open_bi` awaits are in order, keeps the invariant. -/
theorem of_counts {w' : World} (hI : PoolInv w) (hc : w'.counts = w.counts)
    (hR : w'.returned = w.returned) (hD : w'.dialing = w.dialing) (hd : w'.dialed = w.dialed)
    (hl : ∀ t, w'.lock = some t ↔ ∃ pc, w'.calls[t]? = some pc ∧ pc.holdsLock = true)
    (hu : ∀ t i : Nat, w'.calls[t]? = some (Pc.openBi i) →
      ∃ c : Connection, w'.connections[i]? = some c ∧ c.totalAccepted < 128) : PoolInv w' :=
  ⟨hc ▸ hI.bounded, hc ▸ hR ▸ hI.counted, hc ▸ hD ▸ hI.distinct,
    hc ▸ hD ▸ hd ▸ hI.dialedBefore, hD ▸ hR ▸ hd ▸ hI.unreturned, hl, hu⟩

theorem lock_self (hI : PoolInv w) (h : w.calls[t]? = some pc) :
    w.lock = some t ↔ pc.holdsLock = true := by
  simp [hI.lock t, h]

/-- No call is in the reuse loop while the mutex is free, -/
theorem not_holds_of_free (hI : PoolInv w) (hl : w.lock = none) {t' : Nat} {p : Pc}
    (h : w.calls[t']? = some p) : p.holdsLock = false := by
  simpa [hl] using (hI.lock_self h).not

/-- and only its holder is while it is held. -/
theorem not_holds_of_other (hI : PoolInv w) (hl : w.lock = some t) {t' : Nat} (ht : t' ≠ t)
    {p : Pc} (h : w.calls[t']? = some p) : p.holdsLock = false := by
  simpa [hl, Ne.symm ht] using (hI.lock_self h).not

/-- The mutex after call `t` moves to `pc'` and the mutex becomes `l'`. -/
theorem lock_goto (hI : PoolInv w) (h : w.calls[t]? = some pc) (pc' : Pc) {l' : Option Nat}
    (hother : ∀ t', t' ≠ t → (l' = some t' ↔ w.lock = some t'))
    (hself : l' = some t ↔ pc'.holdsLock = true) (t' : Nat) :
    l' = some t' ↔ ∃ p, (w.goto t pc').calls[t']? = some p ∧ p.holdsLock = true := by
  rw [World.goto_calls h]
  by_cases e : t = t'
  · subst e; simp [hself]
  · simp only [e, if_false]
    exact (hother t' (Ne.symm e)).trans (hI.lock t')

/-- A call that is out of the loop afterwards, the mutex free afterwards. -/
theorem lock_release (hI : PoolInv w) (h : w.calls[t]? = some pc) (pc' : Pc)
    (hl : w.lock = none ∨ w.lock = some t) (hpc' : pc'.holdsLock = false) (t' : Nat) :
    none = some t' ↔ ∃ p, (w.goto t pc').calls[t']? = some p ∧ p.holdsLock = true := by
  refine hI.lock_goto h pc' (fun t' ht => ?_) (by simp [hpc']) t'
  rcases hl with hl | hl <;> simp [hl, Ne.symm ht]

/-- Only the mutex holder awaits `open_bi`: once it moves elsewhere, nobody
does, whatever the pool became. -/
theorem underCap_goto (hI : PoolInv w) (h : w.calls[t]? = some pc) {pc' : Pc}
    (hpc' : ∀ i, pc' ≠ .openBi i) (hl : w.lock = none ∨ w.lock = some t) (cs : List Connection) :
    ∀ t' i : Nat, (w.goto t pc').calls[t']? = some (Pc.openBi i) →
      ∃ c : Connection, cs[i]? = some c ∧ c.totalAccepted < 128 := by
  intro t' i h'
  rw [World.goto_calls h] at h'
  split at h'
  · exact absurd (Option.some.inj h') (hpc' i)
  · rcases hl with hl | hl
    · exact absurd (hI.not_holds_of_free hl h') (by simp [Pc.holdsLock])
    · exact absurd (hI.not_holds_of_other hl (Ne.symm ‹_›) h') (by simp [Pc.holdsLock])

/-- A call that moves, the pool unchanged, awaits `open_bi` afterwards only
on a slot under the cap. -/
theorem underCap_goto_pool (hI : PoolInv w) (h : w.calls[t]? = some pc) {pc' : Pc}
    (hc : ∀ i, pc' = .openBi i → ∃ c, w.connections[i]? = some c ∧ c.totalAccepted < 128) :
    ∀ t' i : Nat, (w.goto t pc').calls[t']? = some (Pc.openBi i) →
      ∃ c : Connection, w.connections[i]? = some c ∧ c.totalAccepted < 128 := by
  intro t' i h'
  rw [World.goto_calls h] at h'
  split at h'
  · exact hc i (Option.some.inj h')
  · exact hI.underCap t' i h'

theorem frame (hI : PoolInv w) (h : w.calls[t]? = some pc) {pc' : Pc} (hf : Frame w pc pc') :
    PoolInv (w.goto t pc') :=
  hI.of_counts rfl (World.goto_returned_eq pc' h hf.2.1) (World.goto_dialing_eq pc' h hf.1) rfl
    (hI.lock_goto h pc' (fun _ _ => Iff.rfl) ((hI.lock_self h).trans (by rw [hf.2.2.1])))
    (hI.underCap_goto_pool h hf.2.2.2)

theorem sweep (hI : PoolInv w) (h : w.calls[t]? = some .sweep) (hl : w.lock = none) :
    PoolInv ((w.goto t .reuse).setPool (Flower.Quic.sweep w.connections)) := by
  have hR := World.goto_returned_eq .reuse h rfl
  have hD := World.goto_dialing_eq .reuse h rfl
  have hsub : ((w.goto t .reuse).setPool (Flower.Quic.sweep w.connections)).counts.Sublist
      w.counts := (List.filter_sublist _).map _
  refine ⟨fun p hp => hI.bounded p (hsub.subset hp), fun p hp => ?_, ?_, ?_, ?_, ?_, ?_⟩
  · simpa [hR] using hI.counted p (hsub.subset hp)
  · simpa [hD] using hI.distinct.sublist ((hsub.map _).append_right _)
  · simpa [hD] using fun k hk => hI.dialedBefore k (((hsub.map _).append_right _).subset hk)
  · simpa [hD, hR] using hI.unreturned
  · simpa [hl] using hI.lock_release h .reuse (.inl hl) rfl
  · exact hI.underCap_goto h (by simp) (.inl hl) _

theorem acquire (hI : PoolInv w) (h : w.calls[t]? = some .reuse) (hl : w.lock = none) :
    PoolInv ((w.goto t (.scan 0)).setLock (some t)) :=
  hI.of_counts rfl (World.goto_returned_eq (.scan 0) h rfl) (World.goto_dialing_eq (.scan 0) h rfl)
    rfl (hI.lock_goto h (.scan 0) (fun t' ht => by simp [hl, Ne.symm ht]) (by simp [Pc.holdsLock]))
    (fun t' i h' => by
      rw [World.setLock_calls, World.goto_calls h] at h'
      split at h'
      · cases h'
      · exact absurd (hI.not_holds_of_free hl h') (by simp [Pc.holdsLock]))

theorem loopEnd (hI : PoolInv w) {i : Nat} (h : w.calls[t]? = some (.scan i)) :
    PoolInv ((w.goto t .endpoint).setLock none) :=
  have hl : w.lock = some t := (hI.lock_self h).mpr rfl
  hI.of_counts rfl (World.goto_returned_eq .endpoint h rfl) (World.goto_dialing_eq .endpoint h rfl)
    rfl (hI.lock_release h .endpoint (.inr hl) rfl) (hI.underCap_goto h (by simp) (.inr hl) _)

theorem retire (hI : PoolInv w) (h : w.calls[t]? = some pc) (hpc : pc.holdsLock = true)
    {i : Nat} {c : Connection} (hc : w.connections[i]? = some c) :
    PoolInv ((w.goto t (.scan (i + 1))).setPool (w.connections.set i c.retire)) :=
  have hl : w.lock = some t := (hI.lock_self h).mpr hpc
  hI.of_counts (by simpa using World.counts_retire hc)
    (World.goto_returned_eq (.scan (i + 1)) h (Pc.returned_of_holdsLock hpc).symm)
    (World.goto_dialing_eq (.scan (i + 1)) h (Pc.dialing_of_holdsLock hpc).symm) rfl
    (by simpa [hl] using (hI.lock_goto h (.scan (i + 1)) (fun _ _ => Iff.rfl)
      (by simp [hl, Pc.holdsLock])))
    (hI.underCap_goto h (by simp) (.inr hl) _)

/-- One more stream on connection `k`: the count of every connection moves
by its number of occurrences in `[k]`. -/
theorem count_returned (h : w.calls[t]? = some pc) (hpc : pc.returned = none) {k : Nat}
    (x : Nat) : (w.goto t (.done (.ok k))).returned.count x = w.returned.count x + [k].count x := by
  have := (World.goto_returned (.done (.ok k)) h).count_eq x
  rw [hpc] at this
  simpa only [Pc.returned, Option.toList, List.append_nil, List.count_append] using this

/-- A call that returns a stream on `k`, a connection already dialed and no
longer being dialed, leaves every connection not yet pushed unreturned. -/
theorem unreturned_of_return (hI : PoolInv w) {w' : World} {k : Nat}
    (hR : ∀ x, w'.returned.count x = w.returned.count x + [k].count x)
    (hD : ∀ x ∈ w'.dialing, x ∈ w.dialing) (hd : w'.dialed = w.dialed)
    (hk : k ∉ w'.dialing) (hklt : k < w.dialed) :
    ∀ x, x ∈ w'.dialing ∨ w'.dialed ≤ x → w'.returned.count x = 0 := by
  intro x hx
  have hne : k ≠ x := by
    rintro rfl
    exact hx.elim hk (by omega)
  rw [hR, hI.unreturned x (hx.imp (hD x) (by omega)), List.count_eq_zero.mpr (by simpa using hne.symm)]

/-- A call that returns a stream on `k` keeps the counts exact if the slot of
`k` now counts it and every other slot is an old one of another connection. -/
theorem counted_of_return (hI : PoolInv w) {w' : World} {k : Nat}
    (hR : ∀ x, w'.returned.count x = w.returned.count x + [k].count x)
    (hmem : ∀ p ∈ w'.counts, p = (k, w.returned.count k + 1) ∨ (p ∈ w.counts ∧ p.1 ≠ k)) :
    ∀ p ∈ w'.counts, p.2 = w'.returned.count p.1 := by
  intro p hp
  rcases hmem p hp with rfl | ⟨hp, hne⟩
  · simp [hR]
  · rw [hR, List.count_singleton', if_neg hne.symm, hI.counted p hp, Nat.add_zero]

/-- A pooled connection is on no other slot, is not being dialed, and was dialed. -/
theorem slot_fresh (hI : PoolInv w) {pre post : List Connection} {c : Connection}
    (hcs : w.connections = pre ++ c :: post) :
    (∀ x ∈ pre ++ post, x.newConn ≠ c.newConn) ∧ c.newConn ∉ w.dialing ∧ c.newConn < w.dialed := by
  have hd := hI.distinct
  rw [World.counts_map_fst, hcs, List.map_append, List.map_cons, List.nodup_append,
    List.nodup_middle, List.nodup_cons] at hd
  refine ⟨fun x hx e => hd.1.1 ?_, fun hm => hd.2.2 (by simp) hm,
    hI.dialedBefore _ (by simp [World.counts_map_fst, hcs])⟩
  rw [← List.map_append]
  exact List.mem_map.mpr ⟨x, hx, e⟩

theorem accept (hI : PoolInv w) {i : Nat} (h : w.calls[t]? = some (.openBi i)) {c : Connection}
    (hc : w.connections[i]? = some c) :
    PoolInv (((w.goto t (.done (.ok c.newConn))).setPool (w.connections.set i c.accept)).setLock
      none) := by
  have hl : w.lock = some t := (hI.lock_self h).mpr rfl
  have hcap : c.totalAccepted < 128 := by
    obtain ⟨c', hc', hcap⟩ := hI.underCap t i h
    exact (Option.some.inj (hc'.symm.trans hc)) ▸ hcap
  obtain ⟨pre, post, hcs, hs⟩ := split_of_getElem? hc
  obtain ⟨hother, hnd, hlt⟩ := hI.slot_fresh hcs
  have hR := count_returned (k := c.newConn) h rfl
  have hD := World.goto_dialing_eq (.done (.ok c.newConn)) h rfl
  have hC : w.counts = pre.map (fun c => (c.newConn, c.totalAccepted)) ++
      (c.newConn, c.totalAccepted) :: post.map (fun c => (c.newConn, c.totalAccepted)) := by
    simp [World.counts, hcs]
  have hc0 : c.totalAccepted = w.returned.count c.newConn :=
    hI.counted (c.newConn, c.totalAccepted) (by simp [hC])
  have hmem : ∀ p ∈ (((w.goto t (.done (.ok c.newConn))).setPool (w.connections.set i c.accept)).setLock
      none).counts, p = (c.newConn, w.returned.count c.newConn + 1) ∨
        (p ∈ w.counts ∧ p.1 ≠ c.newConn) := by
    intro p hp
    simp only [World.setLock_counts, World.setPool_counts, hs, List.map_append, List.map_cons,
      List.mem_append, List.mem_cons, List.mem_map] at hp
    rcases hp with ⟨x, hx, rfl⟩ | rfl | ⟨x, hx, rfl⟩
    · exact .inr ⟨hC ▸ List.mem_append_left _ (List.mem_map_of_mem _ hx),
        hother x (List.mem_append_left _ hx)⟩
    · exact .inl (by simp [Connection.accept, hc0])
    · exact .inr ⟨hC ▸ List.mem_append_right _ (List.mem_cons_of_mem _ (List.mem_map_of_mem _ hx)),
        hother x (List.mem_append_right _ hx)⟩
  have hF : ((((w.goto t (.done (.ok c.newConn))).setPool (w.connections.set i c.accept)).setLock
      none).counts.map Prod.fst) = w.counts.map Prod.fst := by
    rw [World.setLock_counts, World.setPool_counts, hs, hC]
    simp
  refine ⟨fun p hp => ?_, hI.counted_of_return hR hmem, ?_, ?_,
    hI.unreturned_of_return hR (fun x hx => by simpa [hD] using hx) rfl (by simpa [hD] using hnd)
      hlt,
    by simpa using hI.lock_release h (.done (.ok c.newConn)) (.inr hl) rfl,
    hI.underCap_goto h (by simp) (.inr hl) _⟩
  · rcases hmem p hp with rfl | ⟨hp, -⟩
    · exact ⟨by omega, hc0 ▸ hcap⟩
    · exact hI.bounded p hp
  · rw [hF, World.setLock_dialing, World.setPool_dialing, hD]; exact hI.distinct
  · rw [hF, World.setLock_dialing, World.setPool_dialing, hD]; exact hI.dialedBefore

theorem connected (hI : PoolInv w) (h : w.calls[t]? = some .connect) :
    PoolInv (w.goto t (.openNew w.dialed)).dialOne := by
  have hD : ∀ k, k ∈ (w.goto t (.openNew w.dialed)).dialing ↔ k ∈ w.dialing ∨ k = w.dialed := by
    intro k; simpa [Pc.dialing] using (World.goto_dialing (.openNew w.dialed) h).mem_iff
  have hP := World.goto_dialing (.openNew w.dialed) h
  have hR := World.goto_returned_eq (.openNew w.dialed) h rfl
  refine ⟨hI.bounded, by simpa [hR] using hI.counted, ?_, ?_, ?_,
    by simpa using (hI.lock_goto h (.openNew w.dialed) (fun _ _ => Iff.rfl)
      ((hI.lock_self h).trans (by simp [Pc.holdsLock]))),
    fun t' i h' => hI.underCap_goto_pool h (by simp) t' i h'⟩
  · have hnew : w.dialed ∉ w.counts.map Prod.fst ++ w.dialing :=
      fun hm => absurd (hI.dialedBefore _ hm) (lt_irrefl _)
    simp only [World.dialOne_counts, World.dialOne_dialing, World.goto_counts]
    have : (w.counts.map Prod.fst ++ (w.goto t (.openNew w.dialed)).dialing).Perm
        (w.counts.map Prod.fst ++ w.dialing ++ [w.dialed]) := by
      simpa [Pc.dialing] using (hP.append_left (w.counts.map Prod.fst))
    rw [this.nodup_iff, List.nodup_append]
    exact ⟨hI.distinct, List.nodup_singleton _, by simpa using hnew⟩
  · simp only [World.dialOne_counts, World.dialOne_dialing, World.dialOne_dialed, List.mem_append,
      World.goto_counts, World.goto_dialed, hD]
    rintro k (hk | hk | rfl)
    · exact Nat.lt_succ_of_lt (hI.dialedBefore k (List.mem_append_left _ hk))
    · exact Nat.lt_succ_of_lt (hI.dialedBefore k (List.mem_append_right _ hk))
    · exact Nat.lt_succ_self _
  · simp only [World.dialOne_dialing, World.dialOne_dialed, World.dialOne_returned,
      World.goto_dialed, hR, hD]
    rintro k ((hk | rfl) | hk)
    · exact hI.unreturned k (.inl hk)
    · exact hI.unreturned _ (.inr le_rfl)
    · exact hI.unreturned k (.inr (by omega))

theorem openNewFailed (hI : PoolInv w) {k : Nat} (h : w.calls[t]? = some (.openNew k)) :
    PoolInv (w.goto t (.done (.error .openBi))) := by
  have hP : ((w.goto t (.done (.error .openBi))).dialing ++ [k]).Perm w.dialing := by
    simpa [Pc.dialing] using World.goto_dialing (.done (.error .openBi)) h
  have hsub : (w.goto t (.done (.error .openBi))).dialing ⊆ w.dialing :=
    fun x hx => hP.subset (List.mem_append_left _ hx)
  have hR := World.goto_returned_eq (.done (.error .openBi)) h rfl
  refine ⟨hI.bounded, by simpa [hR] using hI.counted, ?_, ?_, ?_,
    by simpa using (hI.lock_goto h _ (fun _ _ => Iff.rfl)
      ((hI.lock_self h).trans (by simp [Pc.holdsLock]))), hI.underCap_goto_pool h (by simp)⟩
  · have := ((hP.append_left (w.counts.map Prod.fst)).nodup_iff.mpr hI.distinct)
    rw [← List.append_assoc] at this
    simpa using this.sublist (List.sublist_append_left _ _)
  · simp only [World.goto_counts, World.goto_dialed, List.mem_append]
    exact fun x hx => hI.dialedBefore x (List.mem_append.mpr (hx.imp id (@hsub x)))
  · simp only [World.goto_dialed, hR]
    exact fun x hx => hI.unreturned x (hx.imp (@hsub x) id)

theorem pushed (hI : PoolInv w) {k : Nat} (h : w.calls[t]? = some (.push k)) (hl : w.lock = none) :
    PoolInv ((w.goto t (.done (.ok k))).setPool (w.connections ++ [⟨k, 1, false⟩])) := by
  have hR := count_returned (k := k) h rfl
  have hP : ((w.goto t (.done (.ok k))).dialing ++ [k]).Perm w.dialing := by
    simpa [Pc.dialing] using World.goto_dialing (.done (.ok k)) h
  have hk : k ∈ w.dialing := hP.subset (by simp)
  have hC : ((w.goto t (.done (.ok k))).setPool (w.connections ++ [⟨k, 1, false⟩])).counts =
      w.counts ++ [(k, 1)] := by
    simp [World.counts]
  have hk0 : w.returned.count k = 0 := hI.unreturned k (.inl hk)
  have hkc : ∀ p ∈ w.counts, p.1 ≠ k := fun p hp e =>
    List.disjoint_of_nodup_append hI.distinct (List.mem_map_of_mem _ hp) (e ▸ hk)
  have hnd : ((w.counts ++ [(k, 1)]).map Prod.fst ++
      (w.goto t (.done (.ok k))).dialing).Perm (w.counts.map Prod.fst ++ w.dialing) := by
    rw [List.perm_iff_count]
    intro x
    have := hP.count_eq x
    simp only [List.count_append, List.map_append] at this ⊢
    simp only [List.map_cons, List.map_nil, List.count_singleton'] at this ⊢
    omega
  have hmem : ∀ p ∈ ((w.goto t (.done (.ok k))).setPool (w.connections ++ [⟨k, 1, false⟩])).counts,
      p = (k, w.returned.count k + 1) ∨ (p ∈ w.counts ∧ p.1 ≠ k) := by
    rw [hC, hk0]
    simp only [List.mem_append, List.mem_singleton]
    rintro p (hp | rfl)
    · exact .inr ⟨hp, hkc p hp⟩
    · exact .inl rfl
  refine ⟨fun p hp => ?_, hI.counted_of_return hR hmem, ?_, ?_, ?_,
    by simpa [hl] using hI.lock_release h (.done (.ok k)) (.inl hl) rfl,
    hI.underCap_goto h (by simp) (.inl hl) _⟩
  · rcases hmem p hp with rfl | ⟨hp, -⟩
    · simp [hk0]
    · exact hI.bounded p hp
  · rw [hC, World.setPool_dialing]
    exact hnd.nodup_iff.mpr hI.distinct
  · rw [hC, World.setPool_dialing, World.setPool_dialed, World.goto_dialed]
    exact fun x hx => hI.dialedBefore x (hnd.subset hx)
  · have hkd : k ∉ (w.goto t (.done (.ok k))).dialing := fun hm =>
      (List.nodup_append.mp (hP.nodup_iff.mpr (List.nodup_append.mp hI.distinct).2.1)).2.2 hm
        (List.mem_singleton_self k)
    exact hI.unreturned_of_return hR (fun x hx => hP.subset (List.mem_append_left _ hx)) rfl hkd
      (hI.dialedBefore k (List.mem_append_right _ hk))

theorem newCall (hI : PoolInv w) : PoolInv w.newCall := by
  have hR : w.newCall.returned = w.returned := by
    simp [World.newCall, World.returned, Pc.returned]
  have hD : w.newCall.dialing = w.dialing := by simp [World.newCall, World.dialing, Pc.dialing]
  have hnew : ∀ t', ¬ t' < w.calls.length → ∀ p, w.newCall.calls[t']? = some p → p = .sweep := by
    intro t' ht p hp
    simp only [World.newCall, List.getElem?_append_right (Nat.le_of_not_lt ht)] at hp
    cases hk : t' - w.calls.length <;> simp_all
  refine hI.of_counts rfl hR hD rfl (fun t' => ?_) (fun t' i h' => ?_)
  · by_cases ht : t' < w.calls.length
    · simpa [World.newCall, List.getElem?_append_left ht] using hI.lock t'
    · constructor
      · intro hl
        obtain ⟨p, hp, -⟩ := (hI.lock t').mp hl
        exact absurd (List.getElem?_eq_some_iff.mp hp).1 ht
      · rintro ⟨p, hp, hh⟩
        rw [hnew t' ht p hp] at hh
        cases hh
  · by_cases ht : t' < w.calls.length
    · exact hI.underCap t' i (by simpa [World.newCall, List.getElem?_append_left ht] using h')
    · cases hnew t' ht _ h'

theorem move (hI : PoolInv w) (h : w.calls[t]? = some pc) {w' : World} (hm : Move w t pc w') :
    PoolInv w' := by
  cases hm with
  | frame hf => exact hI.frame h hf
  | sweep hpc hl => subst hpc; exact hI.sweep h hl
  | acquire hpc hl => subst hpc; exact hI.acquire h hl
  | loopEnd hpc _ => subst hpc; exact hI.loopEnd h
  | retire hpc hc => exact hI.retire h hpc hc
  | accept hpc hc => subst hpc; exact hI.accept h hc
  | connected hpc => subst hpc; exact hI.connected h
  | openNewFailed hpc => subst hpc; exact hI.openNewFailed h
  | pushed hpc hl => subst hpc; exact hI.pushed h hl

theorem step (hI : PoolInv w) {e : Event} {w' : World} (h : w.step e = some w') : PoolInv w' := by
  rcases step_cases h with rfl | ⟨t, pc, hpc, hm⟩
  · exact hI.newCall
  · exact hI.move hpc hm

end PoolInv

theorem Reachable.poolInv {w : World} (h : Reachable w) : PoolInv w := by
  induction h with
  | fresh => exact PoolInv.fresh
  | step _ _ hs ih => exact ih.step hs

/-- What one step does to the accounting: it returns no stream and only drops
slots from it, or it returns one stream, on some connection `k`, and counts
it on exactly one slot. -/
def Accounts (w w' : World) : Prop :=
  (w'.returned = w.returned ∧ w'.counts.Sublist w.counts) ∨
    ∃ k, w'.returned.Perm (w.returned ++ [k]) ∧
      ((∃ pre post n, w.counts = pre ++ (k, n) :: post ∧ w'.counts = pre ++ (k, n + 1) :: post) ∨
        w'.counts = w.counts ++ [(k, 1)])

theorem Move.accounts {w w' : World} {t : Nat} {pc : Pc} (h : w.calls[t]? = some pc)
    (hm : Move w t pc w') : Accounts w w' := by
  cases hm with
  | frame hf => exact .inl ⟨World.goto_returned_eq _ h hf.2.1, by simp⟩
  | sweep hpc _ =>
      subst hpc
      exact .inl ⟨World.goto_returned_eq .reuse h rfl, (List.filter_sublist _).map _⟩
  | acquire hpc _ => subst hpc; exact .inl ⟨World.goto_returned_eq (.scan 0) h rfl, by simp⟩
  | loopEnd hpc _ => subst hpc; exact .inl ⟨World.goto_returned_eq .endpoint h rfl, by simp⟩
  | retire hpc hc =>
      refine .inl ⟨World.goto_returned_eq _ h (Pc.returned_of_holdsLock hpc).symm, ?_⟩
      simp [World.counts_retire hc]
  | @accept i c hpc hc =>
      subst hpc
      obtain ⟨pre, post, hcs, hs⟩ := split_of_getElem? hc
      refine .inr ⟨c.newConn, ?_, .inl ⟨pre.map (fun c => (c.newConn, c.totalAccepted)),
        post.map (fun c => (c.newConn, c.totalAccepted)), c.totalAccepted,
        by simp [World.counts, hcs], ?_⟩⟩
      · simpa [Pc.returned] using World.goto_returned (.done (.ok _)) h
      · rw [World.setLock_counts, World.setPool_counts, hs]
        simp
  | connected hpc =>
      subst hpc; exact .inl ⟨by simpa using World.goto_returned_eq (.openNew _) h rfl, by simp⟩
  | openNewFailed hpc =>
      subst hpc; exact .inl ⟨World.goto_returned_eq (.done (.error .openBi)) h rfl, by simp⟩
  | pushed hpc _ =>
      subst hpc
      exact .inr ⟨_, by simpa [Pc.returned] using World.goto_returned (.done (.ok _)) h,
        .inr (by simp [World.counts])⟩

/-- **The pool's accounting under any interleaving.**  In every state that
any interleaving of any number of `new_stream` calls reaches from a fresh
`Manager`, whatever `open_bi`, the lookup and `connect` answered: every slot
holds between 1 and 128 streams, and exactly as many as the calls returned
on its connection; no connection has two slots; and every step either
returns no stream and only drops slots, or returns one stream on some
connection `k` and counts it on exactly one slot — an existing slot of `k`
gains one, or a slot of `k` with count 1 is pushed. -/
theorem pool_accounting {w : World} (h : Reachable w) :
    (∀ c ∈ w.connections, 1 ≤ c.totalAccepted ∧ c.totalAccepted ≤ 128 ∧
      c.totalAccepted = w.returned.count c.newConn) ∧
    (w.connections.map (·.newConn)).Nodup ∧
    ∀ e w', w.step e = some w' → Accounts w w' := by
  have hI := h.poolInv
  refine ⟨fun c hc => ?_, ?_, fun e w' hs => ?_⟩
  · have hp : (c.newConn, c.totalAccepted) ∈ w.counts := List.mem_map_of_mem _ hc
    exact ⟨(hI.bounded _ hp).1, (hI.bounded _ hp).2, hI.counted _ hp⟩
  · have := (List.nodup_append.mp hI.distinct).1
    rwa [World.counts_map_fst] at this
  · rcases step_cases hs with rfl | ⟨t, pc, hpc, hm⟩
    · exact .inl ⟨by simp [World.newCall, World.returned, Pc.returned], by simp [World.counts,
        World.newCall]⟩
    · exact hm.accounts hpc

/-- One call, alone, on a fresh `Manager`: it dials connection `0`. -/
def oneCall : List Event := .call :: List.replicate 8 (.step 0 .ok)

theorem pool_accounting_oneCall :
    Reachable ((World.fresh.run oneCall).getD World.fresh) ∧
    ∀ c ∈ ((World.fresh.run oneCall).getD World.fresh).connections,
      1 ≤ c.totalAccepted ∧ c.totalAccepted ≤ 128 ∧
      c.totalAccepted = ((World.fresh.run oneCall).getD World.fresh).returned.count c.newConn :=
  have h := Reachable.fresh.run oneCall rfl
  ⟨h, (pool_accounting h).1⟩

/-- **The reuse loop is exclusive.**  In every reachable state at most one
call is in the reuse loop, and a call awaiting `open_bi` on a pooled slot
finds that slot under the cap. -/
theorem Reachable.reuse_exclusive {w : World} (h : Reachable w) :
    (∀ (t t' : Nat) (pc pc' : Pc), w.calls[t]? = some pc → pc.holdsLock = true →
      w.calls[t']? = some pc' → pc'.holdsLock = true → t = t') ∧
    ∀ t i : Nat, w.calls[t]? = some (.openBi i) →
      ∃ c : Connection, w.connections[i]? = some c ∧ c.totalAccepted < 128 := by
  have hI := h.poolInv
  refine ⟨fun t t' pc pc' ht hpc ht' hpc' => ?_, hI.underCap⟩
  exact Option.some.inj (((hI.lock t).2 ⟨pc, ht, hpc⟩).symm.trans ((hI.lock t').2 ⟨pc', ht', hpc'⟩))

/-- After `oneCall`, a second call awaits `open_bi` on slot `0`. -/
def secondOnSlot : List Event := oneCall ++ [.call, .step 1 .ok, .step 1 .ok, .step 1 .ok]

theorem Reachable.reuse_exclusive_secondOnSlot :
    Reachable ((World.fresh.run secondOnSlot).getD World.fresh) ∧
    ((World.fresh.run secondOnSlot).getD World.fresh).calls[1]? = some (.openBi 0) ∧
    ∃ c : Connection, ((World.fresh.run secondOnSlot).getD World.fresh).connections[0]? = some c ∧
      c.totalAccepted < 128 :=
  have h := Reachable.fresh.run secondOnSlot rfl
  ⟨h, rfl, h.reuse_exclusive.2 1 0 rfl⟩

end Flower.Quic
