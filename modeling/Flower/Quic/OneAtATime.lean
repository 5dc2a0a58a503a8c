import Flower.Quic.Interleaving
/-!
# `Flower.Quic.OneAtATime` — the two models of `new_stream` agree

`Flower.Quic.Pool` reads `Manager::new_stream` as straight-line code
(`newStream`), and `Flower.Quic.Interleaving` splits the same body at its
awaits (`World.step`).  This module connects them: a call made while the
mutex is free and then run alone, every external call answered from one
`Replies`, takes the events `aloneEvents` and ends with exactly the slots,
dial count and result `newStream` computes, whatever other calls exist and
wherever they stand.

The proof follows the body: the sweep and the lock (`hstart`), the reuse
loop slot by slot against `reuse` (`run_loopEvents`, by induction on the
slots left), and the dial step by step against `dial` (`run_dialEvents`).
Run one after another (`seqEvents`), such calls reach every state of
`sequential`, the model of `sequential_calls`.

    a call run alone refines `newStream`, and `n` calls in sequence are a
    run of the interleaving model                        (`alone_calls_refine_newStream`)
    calls that never overlap, whatever the answers, all return and keep
    at most one live slot, and at most two slots         (`calls_one_at_a_time_one_live`)
-/

namespace Flower.Quic

/-- The events of call `t`'s reuse loop over the slots `cs`, each `open_bi`
answered by `openBi`: a step at each slot, one more for an `open_bi`, and a
last one at the end of the pool. -/
def loopEvents (t : Nat) (openBi : Nat → Reply) : List Connection → List Event
  | [] => [.step t .ok]
  | c :: cs =>
    if c.totalAccepted < 128 then
      if openBi c.newConn = .ok then [.step t .ok, .step t .ok]
      else .step t .ok :: .step t (openBi c.newConn) :: loopEvents t openBi cs
    else .step t .ok :: loopEvents t openBi cs

/-- Where the loop leaves the call: returned with the stream, or at the
endpoint. -/
def loopExit : Option Nat → Pc
  | some k => .done (.ok k)
  | none => .endpoint

/-- The reuse loop of the call at position `A.length`, from slot `pre.length`,
does what `reuse` does to the slots from there on. -/
theorem run_loopEvents (openBi : Nat → Reply) (A : List Pc) (d : Nat) :
    ∀ (pre rest : List Connection),
      (⟨pre ++ rest, some A.length, A ++ [.scan pre.length], d⟩ : World).run
          (loopEvents A.length openBi rest) =
        some ⟨pre ++ (reuse openBi rest).1, none, A ++ [loopExit (reuse openBi rest).2], d⟩
  | pre, [] => by
    have h0 : pre[pre.length]? = none := List.getElem?_eq_none (Nat.le_refl _)
    simp only [loopEvents, List.append_nil, run_step_at, World.advance, h0, Option.some_bind,
      World.goto, World.setLock, set_length_append_cons, World.run.eq_1, reuse, loopExit]
  | pre, c :: cs => by
    have hc : (pre ++ c :: cs)[pre.length]? = some c := getElem?_length_append_cons pre cs c
    have ih := run_loopEvents openBi A d (pre ++ [c.retire]) cs
    simp only [List.append_assoc, List.singleton_append, List.length_append,
      List.length_singleton] at ih
    by_cases hcap : c.totalAccepted < 128
    · by_cases hob : openBi c.newConn = .ok
      · simp only [loopEvents, hcap, hob, if_true, run_step_at, World.advance, hc, Option.some_bind,
          World.goto, World.setPool, World.setLock, set_length_append_cons, World.run.eq_1, reuse,
          and_self, loopExit]
      · simp only [loopEvents, hcap, hob, if_true, if_false, run_step_at, World.advance, hc,
          Option.some_bind, World.goto, World.setPool, set_length_append_cons, reuse, and_false]
        exact ih
    · simp only [loopEvents, hcap, if_false, run_step_at, World.advance, hc, Option.some_bind,
        World.goto, World.setPool, set_length_append_cons, reuse, false_and]
      exact ih

/-- The events of call `t`'s dial, each external call answered from `r`, up
to the one the call returns at. -/
def dialEvents (t : Nat) (r : Replies) : List Event :=
  .step t r.endpoint :: if r.endpoint ≠ .ok then [] else
  .step t r.lookup :: if r.lookup ≠ .ok then [] else
  .step t r.connect :: if r.connect ≠ .ok then [] else
  .step t r.openNew :: if r.openNew ≠ .ok then [] else [.step t .ok]

/-- The dial of the call at position `A.length` does what `dial` does. -/
theorem run_dialEvents (r : Replies) (A : List Pc) (cs : List Connection) (d : Nat) :
    (⟨cs, none, A ++ [.endpoint], d⟩ : World).run (dialEvents A.length r) =
      some ⟨(dial r ⟨cs, d⟩).1.connections, none, A ++ [.done (dial r ⟨cs, d⟩).2],
        (dial r ⟨cs, d⟩).1.dialed⟩ := by
  by_cases he : r.endpoint = .ok
  swap
  · simp [dialEvents, dial, he, run_step_at, World.advance, World.goto, set_length_append_cons, World.run.eq_1]
  rcases hl : r.lookup with _ | _ | _
  · by_cases hc : r.connect = .ok
    swap
    · simp [dialEvents, dial, he, hl, hc, run_step_at, World.advance, World.goto, set_length_append_cons, World.run.eq_1]
    by_cases ho : r.openNew = .ok <;>
      simp [dialEvents, dial, he, hl, hc, ho, run_step_at, World.advance, World.goto, World.dialOne,
        World.setPool, set_length_append_cons, World.run.eq_1]
  · simp [dialEvents, dial, he, hl, run_step_at, World.advance, World.goto, set_length_append_cons, World.run.eq_1]
  · simp [dialEvents, dial, he, hl, run_step_at, World.advance, World.goto, set_length_append_cons, World.run.eq_1]

/-- The events of one `new_stream` call run alone at position `t`, on the
pool `p`, every external call answered from `r`. -/
def aloneEvents (r : Replies) (p : Pool) (t : Nat) : List Event :=
  [.call, .step t .ok, .step t .ok] ++ loopEvents t r.openBi (sweep p.connections) ++
    match (reuse r.openBi (sweep p.connections)).2 with
    | some _ => []
    | none => dialEvents t r

/-- A call made and run alone, the mutex free, ends as `newStream` does: the
same slots, dial count and result; the other calls stay where they are. -/
theorem run_aloneEvents (r : Replies) (A : List Pc) (cs : List Connection) (d : Nat) :
    (⟨cs, none, A, d⟩ : World).run (aloneEvents r ⟨cs, d⟩ A.length) =
      some ⟨(newStream r ⟨cs, d⟩).1.connections, none, A ++ [.done (newStream r ⟨cs, d⟩).2],
        (newStream r ⟨cs, d⟩).1.dialed⟩ := by
  have hstart : (⟨cs, none, A, d⟩ : World).run [.call, .step A.length .ok, .step A.length .ok] =
      some ⟨[] ++ sweep cs, some A.length, A ++ [.scan ([] : List Connection).length], d⟩ := by
    rw [World.run, World.step, Option.some_bind]
    simp only [World.newCall, run_step_at, World.advance, if_true, World.goto, World.setPool,
      World.setLock, Option.some_bind, set_length_append_cons, World.run.eq_1, List.nil_append,
      List.length_nil]
  rw [aloneEvents, World.run_append, World.run_append, hstart, Option.some_bind,
    run_loopEvents, Option.some_bind, List.nil_append, newStream]
  rcases reuse r.openBi (sweep cs) with ⟨cs', _ | k⟩
  · exact run_dialEvents r A cs' d
  · rfl

/-- `n` calls one after another on a fresh `Manager`, each run alone with
every external call succeeding. -/
def seqEvents : Nat → List Event
  | 0 => []
  | n + 1 => seqEvents n ++ aloneEvents .allOk (sequential n).1 n

theorem run_seqEvents (n : Nat) :
    World.fresh.run (seqEvents n) = some ⟨(sequential n).1.connections, none,
      (sequential n).2.map .done, (sequential n).1.dialed⟩ := by
  induction n with
  | zero => rfl
  | succ n ih =>
    have h := run_aloneEvents .allOk ((sequential n).2.map .done) (sequential n).1.connections
      (sequential n).1.dialed
    rw [List.length_map, sequential_length] at h
    rw [seqEvents, World.run_append, ih, Option.some_bind, h]
    simp [sequential]

/-- **The sequential model is the interleaving model run one call at a
time.**  A call made and run alone, every external call answered from `r`,
ends with the slots, dial count and result of `newStream` on the same pool,
whatever the other calls and wherever they stand; so every state of `n`
calls one after another (`sequential`) is a reachable state of the
interleaving model. -/
theorem alone_calls_refine_newStream :
    (∀ (r : Replies) (A : List Pc) (cs : List Connection) (d : Nat),
      (⟨cs, none, A, d⟩ : World).run (aloneEvents r ⟨cs, d⟩ A.length) =
        some ⟨(newStream r ⟨cs, d⟩).1.connections, none, A ++ [.done (newStream r ⟨cs, d⟩).2],
          (newStream r ⟨cs, d⟩).1.dialed⟩) ∧
    ∀ n, ∃ w, Reachable w ∧ w.connections = (sequential n).1.connections ∧
      w.dialed = (sequential n).1.dialed ∧ w.calls = (sequential n).2.map .done ∧ w.lock = none :=
  ⟨run_aloneEvents, fun n => ⟨_, Reachable.fresh.run _ (run_seqEvents n), rfl, rfl, rfl, rfl⟩⟩

/-! ## One live connection at a time

Calls that never overlap, whatever every external call answers, never keep
two live connections: a call carries its stream on the live slot, or has
retired it before it dials.  Overlapping calls do dial one connection each
(`concurrent_calls_dial_each`). -/

/-- The slots not retired. -/
def liveSlots (cs : List Connection) : Nat := cs.countP (fun c => !c.completed)

/-- Calls one after another from the pool `p`, each run alone and answered
from its own replies: the pool after them, and their results in call order. -/
def Pool.oneByOne (p : Pool) : List Replies → Pool × List (Except DialError Nat)
  | [] => (p, [])
  | r :: rs =>
      let call := newStream r p
      let rest := call.1.oneByOne rs
      (rest.1, call.2 :: rest.2)

/-- The events of those calls, the first at position `t`. -/
def oneByOneEvents : List Replies → Pool → Nat → List Event
  | [], _, _ => []
  | r :: rs, p, t => aloneEvents r p t ++ oneByOneEvents rs (newStream r p).1 (t + 1)

theorem run_oneByOneEvents (rs : List Replies) : ∀ (p : Pool) (A : List Pc),
    (⟨p.connections, none, A, p.dialed⟩ : World).run (oneByOneEvents rs p A.length) =
      some ⟨(p.oneByOne rs).1.connections, none, A ++ (p.oneByOne rs).2.map .done,
        (p.oneByOne rs).1.dialed⟩ := by
  induction rs with
  | nil => intro p A; simp [oneByOneEvents, Pool.oneByOne, World.run.eq_1]
  | cons r rs ih =>
    rintro ⟨cs, d⟩ A
    have h := ih (newStream r ⟨cs, d⟩).1 (A ++ [.done (newStream r ⟨cs, d⟩).2])
    rw [List.length_append, List.length_singleton] at h
    rw [oneByOneEvents, World.run_append, run_aloneEvents, Option.some_bind, h]
    simp [Pool.oneByOne]

theorem liveSlots_sweep (cs : List Connection) :
    (sweep cs).length = liveSlots cs ∧ liveSlots (sweep cs) = liveSlots cs := by
  simp [sweep, liveSlots, List.countP_eq_length_filter, List.filter_filter]

/-- The reuse pass keeps the slots, revives none, and retires every one it
passes: all, when it finds none to carry the stream. -/
theorem reuse_liveSlots (openBi : Nat → Reply) : ∀ cs : List Connection,
    (reuse openBi cs).1.length = cs.length ∧ liveSlots (reuse openBi cs).1 ≤ liveSlots cs ∧
      ((reuse openBi cs).2 = none → liveSlots (reuse openBi cs).1 = 0)
  | [] => by simp [reuse, liveSlots]
  | c :: cs => by
    obtain ⟨ih₁, ih₂, ih₃⟩ := reuse_liveSlots openBi cs
    unfold liveSlots at ih₂ ih₃
    rw [reuse]
    split
    · simp [liveSlots, List.countP_cons]
    · refine ⟨by simp [ih₁], ?_, fun h => by simp [liveSlots, ih₃ h]⟩
      simp only [liveSlots, List.countP_cons, Connection.retire_completed, Bool.not_true,
        Bool.false_eq_true, if_false, Nat.add_zero]
      exact ih₂.trans (Nat.le_add_right _ _)

theorem dial_liveSlots (r : Replies) (p : Pool) :
    liveSlots (dial r p).1.connections ≤ liveSlots p.connections + 1 ∧
      (dial r p).1.connections.length ≤ p.connections.length + 1 := by
  unfold dial
  split_ifs <;> simp [liveSlots]

/-- One call on a pool with at most one live slot leaves at most one, and at
most two slots. -/
theorem newStream_one_live (r : Replies) {p : Pool} (h : liveSlots p.connections ≤ 1) :
    liveSlots (newStream r p).1.connections ≤ 1 ∧ (newStream r p).1.connections.length ≤ 2 := by
  obtain ⟨hs₁, hs₂⟩ := liveSlots_sweep p.connections
  obtain ⟨hr₁, hr₂, hr₃⟩ := reuse_liveSlots r.openBi (sweep p.connections)
  rw [newStream]
  rcases hre : reuse r.openBi (sweep p.connections) with ⟨cs, _ | k⟩ <;>
    rw [hre] at hr₁ hr₂ hr₃ <;> dsimp only at hr₁ hr₂ hr₃ ⊢
  · obtain ⟨hd₁, hd₂⟩ := dial_liveSlots r { p with connections := cs }
    have := hr₃ rfl
    dsimp only at hd₁ hd₂
    omega
  · omega

theorem oneByOne_one_live (rs : List Replies) : ∀ p : Pool,
    liveSlots p.connections ≤ 1 → p.connections.length ≤ 2 →
      liveSlots (p.oneByOne rs).1.connections ≤ 1 ∧ (p.oneByOne rs).1.connections.length ≤ 2 := by
  induction rs with
  | nil => exact fun _ h₁ h₂ => ⟨h₁, h₂⟩
  | cons r rs ih =>
    intro p h₁ _
    exact ih _ (newStream_one_live r h₁).1 (newStream_one_live r h₁).2

/-- **Calls that never overlap keep one live connection.**  Calls made on a
fresh `Manager` one after another, each run alone and answered by any
replies, all return, and leave at most one slot that is not retired and at
most two slots. -/
theorem calls_one_at_a_time_one_live (rs : List Replies) :
    ∃ w, World.fresh.run (oneByOneEvents rs Pool.fresh 0) = some w ∧ Reachable w ∧
      w.lock = none ∧ (∀ pc ∈ w.calls, ∃ res, pc = .done res) ∧
      liveSlots w.connections ≤ 1 ∧ w.connections.length ≤ 2 := by
  have hrun := run_oneByOneEvents rs Pool.fresh []
  obtain ⟨h₁, h₂⟩ := oneByOne_one_live rs Pool.fresh (by decide) (by decide)
  refine ⟨_, hrun, Reachable.fresh.run _ hrun, rfl, ?_, h₁, h₂⟩
  simp

end Flower.Quic
