import Mathlib.Logic.Function.Defs
/-!
# `Flower.Quic.Pool` — the QUIC outbound pool, one `new_stream` at a time

`proxy/quic/outbound/tcp.rs` keeps the QUIC connections it has dialed in
`Manager.connections`, a `Vec<Connection>` behind a `tokio::sync::Mutex`.
Each `Connection` counts the bidirectional streams opened on it
(`total_accepted`) and carries a retirement flag (`completed`).
`Manager::new_stream` is three passes:

  * the sweep, `retain(|c| !c.completed)`;
  * the reuse pass: the first connection, in pool order, with fewer than 128
    streams on which `open_bi` succeeds carries the stream; a connection whose
    `open_bi` fails, or which is full, is marked `completed` on the way;
  * the dial: `Endpoint::client`, the DNS lookup, `connect`, one `open_bi` on
    the new connection, and a push with `total_accepted = 1`.

Here the body is read as straight-line code: `newStream` is one call with no
other call in between.  `Flower.Quic.Interleaving` splits the same body at its
`await`s.

The result is `sequential_calls`: for every `n ≥ 1`, `n` calls one after
another on a fresh `Manager`, every external call succeeding, all succeed,
dial `⌈n/128⌉` connections, and leave one live slot holding
`((n-1) mod 128) + 1` streams, after at most one retired slot that is full.
-/

namespace Flower.Quic

/-- `Result` values are equal when their variants and payloads are. -/
instance decEqExcept {ε α : Type} [DecidableEq ε] [DecidableEq α] : DecidableEq (Except ε α)
  | .ok a, .ok b => decidable_of_iff (a = b) (by simp)
  | .error a, .error b => decidable_of_iff (a = b) (by simp)
  | .ok _, .error _ => isFalse (by simp)
  | .error _, .ok _ => isFalse (by simp)

/-- `Connection`: a pooled QUIC connection and its accounting.  The
`quinn::NewConnection` is named by the order it was dialed in: the `k`-th
connection a `Manager` dials is `k`. -/
structure Connection where
  newConn : Nat
  totalAccepted : Nat
  completed : Bool
  deriving DecidableEq, Repr

instance instInhabitedConnection : Inhabited Connection := ⟨⟨0, 0, false⟩⟩

/-- How an awaited external call answers: it succeeds, it fails, or — for the
DNS lookup only — it succeeds with no address.  Every other call reads
anything but `ok` as a failure. -/
inductive Reply
  | ok
  | err
  | noAddress
  deriving DecidableEq, Repr

/-- The statement a failed `new_stream` returns its error from:
`quinn::Endpoint::client(..)?`, the socket error as it is (`endpoint`);
`lookup {address} failed: {e}`, of kind `Other` (`lookup`); `could not
resolve to any address`, of kind `InvalidInput` (`noAddress`); `quic_err`
of the `connect` or handshake error, of kind `Other` (`connect`); `quic_err`
of `open_bi` on the new connection, of kind `Other` (`openBi`). -/
inductive DialError
  | endpoint
  | lookup
  | noAddress
  | connect
  | openBi
  deriving DecidableEq, Repr

/-- The retirement of a slot: `conn.completed = true`. -/
def Connection.retire (c : Connection) : Connection := { c with completed := true }

/-- One more stream on a slot: `conn.total_accepted += 1`. -/
def Connection.accept (c : Connection) : Connection :=
  { c with totalAccepted := c.totalAccepted + 1 }

@[simp] theorem Connection.retire_newConn (c : Connection) : c.retire.newConn = c.newConn := rfl
@[simp] theorem Connection.retire_totalAccepted (c : Connection) :
    c.retire.totalAccepted = c.totalAccepted := rfl
@[simp] theorem Connection.retire_completed (c : Connection) : c.retire.completed = true := rfl
@[simp] theorem Connection.accept_newConn (c : Connection) : c.accept.newConn = c.newConn := rfl
@[simp] theorem Connection.accept_totalAccepted (c : Connection) :
    c.accept.totalAccepted = c.totalAccepted + 1 := rfl
@[simp] theorem Connection.accept_completed (c : Connection) :
    c.accept.completed = c.completed := rfl

/-- The mutable part of a `Manager`: `connections`, and how many connections it
has dialed so far (the next one dialed is named `dialed`). -/
structure Pool where
  connections : List Connection
  dialed : Nat
  deriving DecidableEq, Repr

/-- A fresh `Manager`: `connections: Mutex::new(Vec::new())`. -/
def Pool.fresh : Pool := ⟨[], 0⟩

/-! ## The three passes -/

/-- The sweep: `self.connections.lock().await.retain(|c| !c.completed)`. -/
def sweep (cs : List Connection) : List Connection := cs.filter (fun c => !c.completed)

/-- The reuse pass, `for conn in self.connections.lock().await.iter_mut()`: the
updated slots, and the connection the stream was opened on if one was.
`openBi k` answers `open_bi` on connection `k`. -/
def reuse (openBi : Nat → Reply) : List Connection → List Connection × Option Nat
  | [] => ([], none)
  | c :: cs =>
      if c.totalAccepted < 128 ∧ openBi c.newConn = .ok then (c.accept :: cs, some c.newConn)
      else
        let rest := reuse openBi cs
        (c.retire :: rest.1, rest.2)

/-- How the external calls of one `new_stream` answer. -/
structure Replies where
  openBi : Nat → Reply
  endpoint : Reply
  lookup : Reply
  connect : Reply
  openNew : Reply

/-- The dial, once the reuse pass found no slot: each failure returns early
with its error; a handshake that succeeds names a new connection, and the
connection is pushed only after its own `open_bi` succeeded. -/
def dial (r : Replies) (p : Pool) : Pool × Except DialError Nat :=
  if r.endpoint ≠ .ok then (p, .error .endpoint)
  else if r.lookup = .err then (p, .error .lookup)
  else if r.lookup = .noAddress then (p, .error .noAddress)
  else if r.connect ≠ .ok then (p, .error .connect)
  else if r.openNew ≠ .ok then ({ p with dialed := p.dialed + 1 }, .error .openBi)
  else (⟨p.connections ++ [⟨p.dialed, 1, false⟩], p.dialed + 1⟩, .ok p.dialed)

/-- `Manager::new_stream` run with no other call in between: the pool after
it, and the connection carrying the returned stream or the error. -/
def newStream (r : Replies) (p : Pool) : Pool × Except DialError Nat :=
  match reuse r.openBi (sweep p.connections) with
  | (cs, some k) => ({ p with connections := cs }, .ok k)
  | (cs, none) => dial r { p with connections := cs }

/-! ## Calls one after another -/

/-- Every external call succeeds. -/
def Replies.allOk : Replies := ⟨fun _ => .ok, .ok, .ok, .ok, .ok⟩

/-- `n` calls one after another on a fresh `Manager`, every external call
succeeding: the pool after them, and their results in call order. -/
def sequential : Nat → Pool × List (Except DialError Nat)
  | 0 => (Pool.fresh, [])
  | n + 1 =>
      let prev := sequential n
      let call := newStream .allOk prev.1
      (call.1, prev.2 ++ [call.2])

/-- The pool after `n ≥ 1` such calls: one live slot holding
`((n-1) mod 128) + 1` streams, after at most one full retired slot. -/
def SeqShape (n : Nat) (p : Pool) : Prop :=
  p.dialed = (n + 127) / 128 ∧
  ((∃ k, p.connections = [⟨k, (n - 1) % 128 + 1, false⟩]) ∨
   (∃ k k', p.connections = [⟨k', 128, true⟩, ⟨k, 1, false⟩] ∧ (n - 1) % 128 = 0))

theorem seqShape_one : SeqShape 1 (sequential 1).1 :=
  ⟨rfl, .inl ⟨0, rfl⟩⟩

/-- A live slot below the cap takes the next stream. -/
theorem newStream_single_lt {k m d : Nat} (hm : m < 128) :
    newStream .allOk ⟨[⟨k, m, false⟩], d⟩ = (⟨[⟨k, m + 1, false⟩], d⟩, .ok k) := by
  simp [newStream, sweep, reuse, Replies.allOk, hm, Connection.accept]

/-- A full live slot is retired and a new connection is dialed. -/
theorem newStream_single_full {k d : Nat} :
    newStream .allOk ⟨[⟨k, 128, false⟩], d⟩ =
      (⟨[⟨k, 128, true⟩, ⟨d, 1, false⟩], d + 1⟩, .ok d) := by
  simp [newStream, sweep, reuse, dial, Replies.allOk, Connection.retire]

/-- The retired slot goes at the next sweep. -/
theorem newStream_pair {k k' d : Nat} :
    newStream .allOk ⟨[⟨k', 128, true⟩, ⟨k, 1, false⟩], d⟩ = (⟨[⟨k, 2, false⟩], d⟩, .ok k) := by
  simp [newStream, sweep, reuse, Replies.allOk, Connection.accept]

theorem seqShape_step {n : Nat} {p : Pool} (hn : 1 ≤ n) (h : SeqShape n p) :
    SeqShape (n + 1) (newStream .allOk p).1 ∧ (newStream .allOk p).2.isOk := by
  obtain ⟨cs, d⟩ := p
  obtain ⟨hd, ⟨k, hc⟩ | ⟨k, k', hc, hz⟩⟩ := h
  all_goals simp only at hd hc; subst hc
  · by_cases hm : (n - 1) % 128 + 1 < 128
    · have hm' : (n - 1) % 128 + 1 + 1 = (n + 1 - 1) % 128 + 1 := by omega
      rw [newStream_single_lt hm, hm']
      exact ⟨⟨by simp only; omega, .inl ⟨k, rfl⟩⟩, rfl⟩
    · have hm' : (n - 1) % 128 + 1 = 128 := by omega
      rw [hm', newStream_single_full]
      exact ⟨⟨by simp only; omega, .inr ⟨d, k, rfl, by omega⟩⟩, rfl⟩
  · have hm' : 2 = (n + 1 - 1) % 128 + 1 := by omega
    rw [newStream_pair, hm']
    exact ⟨⟨by simp only; omega, .inl ⟨k, rfl⟩⟩, rfl⟩

theorem sequential_succ (n : Nat) : sequential (n + 1) =
    ((newStream .allOk (sequential n).1).1,
      (sequential n).2 ++ [(newStream .allOk (sequential n).1).2]) := rfl

theorem seqShape_sequential : ∀ n, 1 ≤ n →
    SeqShape n (sequential n).1 ∧ ∀ r ∈ (sequential n).2, r.isOk
  | 0, h => absurd h (by decide)
  | 1, _ => ⟨seqShape_one, by decide⟩
  | n + 2, _ => by
      obtain ⟨hs, hr⟩ := seqShape_sequential (n + 1) (by omega)
      obtain ⟨hs', hok⟩ := seqShape_step (by omega) hs
      rw [sequential_succ (n + 1)]
      refine ⟨hs', ?_⟩
      simp only [List.mem_append, List.mem_singleton]
      rintro r (hm | rfl)
      · exact hr r hm
      · exact hok

theorem sequential_length : ∀ n, (sequential n).2.length = n
  | 0 => rfl
  | n + 1 => by simp [sequential, sequential_length n]

/-- **`n` calls one after another.**  On a fresh `Manager`, every `open_bi`,
lookup and `connect` succeeding, `n ≥ 1` calls all succeed and dial `⌈n/128⌉`
connections; the pool is then one live slot holding `((n-1) mod 128) + 1`
streams, after at most one retired slot holding 128. -/
theorem sequential_calls (n : Nat) (hn : 1 ≤ n) :
    (sequential n).2.length = n ∧ (∀ r ∈ (sequential n).2, r.isOk) ∧
    (sequential n).1.dialed = (n + 127) / 128 ∧
    ∃ live, live.completed = false ∧ live.totalAccepted = (n - 1) % 128 + 1 ∧
      ((sequential n).1.connections = [live] ∨
       ∃ old, old.completed = true ∧ old.totalAccepted = 128 ∧
         (sequential n).1.connections = [old, live]) := by
  obtain ⟨⟨hd, ⟨k, hc⟩ | ⟨k, k', hc, hz⟩⟩, hr⟩ := seqShape_sequential n hn
  · exact ⟨sequential_length n, hr, hd, _, rfl, rfl, .inl hc⟩
  · exact ⟨sequential_length n, hr, hd, ⟨k, 1, false⟩, rfl, by simp [hz], .inr ⟨_, rfl, rfl, hc⟩⟩

theorem sequential_calls_129 :
    1 ≤ 129 ∧ (sequential 129).1.dialed = (129 + 127) / 128 :=
  ⟨by decide, (sequential_calls 129 (by decide)).2.2.1⟩

end Flower.Quic
