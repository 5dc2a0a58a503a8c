import Flower.Trojan.Relay
/-!
# `Flower.Trojan.RelayRun` — `relay_tcp`, one `.await` at a time

`copyTcp` takes a whole pass of the loop as one step.  In `relay_tcp` the
two directions run under `tokio::select!`, so they interleave at every
`.await` of `copy_tcp` (the read, the write, the flush), and the first
direction to return ends the relay: the other is dropped where it stands,
both streams are rejoined and shut down.

`Dir` is one direction at the granularity of its awaits, `Relay` is the
two directions under `select!`, and `RelayTcp` is the whole function, with
the two `shutdown` calls after `select!`.

**Proved here.**

    fed the answers of a list of passes, one direction ends as `copyTcp`
    does on those passes                                   (`Dir.run_turnAnswers`)
    in every reachable relay state, each direction's destination has taken
    a subsequence of the bytes read                         (`Relay.Reachable.taken_sublist`)
    whatever the interleaving, each direction reads, takes and returns
    as `copyTcp` does on its own passes                     (`Relay.run_copyTcp`)
    if every write takes its whole chunk, each direction has delivered all
    it read but the chunk awaiting its write: the direction `select!`
    drops loses that chunk                                  (`Relay.FullReachable.delivered`)
    in every reachable state of `relay_tcp`, `shutdown` has been called on
    `a` and then `b`, at most once each and only after `select!`; on return
    on both, with one session-end record             (`RelayTcp.Reachable.shutdowns`)
    once `select!` completes, `relay_tcp` returns, whatever the shutdowns
    answer                                                  (`RelayTcp.Reachable.returns`)
-/

namespace Flower.Trojan

/-- Where one `copy_tcp` stands: at the read, at the write of a chunk, at the
flush, or returned (`Ok(())` or an error). -/
inductive CopyPc
  | read
  | write (chunk : List UInt8)
  | flush
  | done (ok : Bool)
  deriving DecidableEq, Repr

/-- `copy_tcp` has returned. -/
def CopyPc.isDone : CopyPc → Bool
  | .done _ => true
  | _ => false

/-- The answer of the call a direction awaits. -/
inductive Ans
  | read (r : ReadAns)
  | write (w : Except Unit Nat)
  | flush (f : Except Unit Unit)

/-- One direction: the bytes seen so far, and where its loop stands. -/
structure Dir where
  copied : Copied
  pc : CopyPc

/-- A direction before its first read. -/
def Dir.start : Dir := ⟨⟨[], []⟩, .read⟩

instance instInhabitedDir : Inhabited Dir := ⟨.start⟩

/-- The awaited call answers; `none` if the answer is not for the call
awaited, or the loop has returned. -/
def Dir.step (d : Dir) : Ans → Option Dir
  | .read r =>
    match d.pc, r with
    | .read, .err => some { d with pc := .done false }
    | .read, .data [] => some { d with pc := .done true }
    | .read, .data bytes => some ⟨⟨d.copied.read ++ bytes, d.copied.written⟩, .write bytes⟩
    | _, _ => none
  | .write w =>
    match d.pc, w with
    | .write _, .error _ => some { d with pc := .done false }
    | .write chunk, .ok n => some ⟨⟨d.copied.read, d.copied.written ++ chunk.take n⟩, .flush⟩
    | _, _ => none
  | .flush f =>
    match d.pc, f with
    | .flush, .error _ => some { d with pc := .done false }
    | .flush, .ok _ => some { d with pc := .read }
    | _, _ => none

/-- A run of answers, stopping at the first that cannot be taken. -/
def Dir.run (d : Dir) : List Ans → Option Dir
  | [] => some d
  | a :: as => (d.step a).bind (·.run as)

/-! ## One direction refines `copyTcp` -/

/-- Where `copyTcp`'s outcome leaves the loop. -/
def Outcome.pc : Outcome → CopyPc
  | .ok => .done true
  | .err => .done false
  | .running => .read

/-- The answers a list of passes gives, up to the pass where `copy_tcp`
returns. -/
def turnAnswers : List Turn → List Ans
  | [] => []
  | t :: ts =>
    match t.read with
    | .err => [.read .err]
    | .data [] => [.read (.data [])]
    | .data bytes =>
      match t.write with
      | .error e => [.read (.data bytes), .write (.error e)]
      | .ok n =>
        match t.flush with
        | .error e => [.read (.data bytes), .write (.ok n), .flush (.error e)]
        | .ok u => .read (.data bytes) :: .write (.ok n) :: .flush (.ok u) :: turnAnswers ts

/-- **Refinement.**  Fed the answers of a list of passes, a direction at
its read ends where `copyTcp` ends on them: the same bytes, and returned
exactly when `copyTcp` returns. -/
theorem Dir.run_turnAnswers (ts : List Turn) (c : Copied) :
    (⟨c, .read⟩ : Dir).run (turnAnswers ts) =
      some ⟨(copyTcp ts c).1, (copyTcp ts c).2.pc⟩ := by
  induction ts generalizing c with
  | nil => rfl
  | cons t ts ih =>
    rcases t with ⟨(_ | ⟨b, bytes⟩) | _, _ | n, _ | u⟩ <;> first | rfl | exact ih _

/-! ## The relay -/

/-- The two directions of `relay_tcp`, `a` to `b` and `b` to `a`, and
whether `select!` has completed. -/
structure Relay where
  ab : Dir
  ba : Dir
  ended : Bool

/-- `relay_tcp` before its first await. -/
def Relay.start : Relay := ⟨.start, .start, false⟩

/-- Which direction's await completes. -/
inductive Side
  | ab
  | ba
  deriving DecidableEq, Repr

/-- One await of one direction completes; the relay ends when that
direction returns. -/
def Relay.step (r : Relay) : Side → Ans → Option Relay
  | .ab, a => if r.ended then none else (r.ab.step a).map fun d => ⟨d, r.ba, d.pc.isDone⟩
  | .ba, a => if r.ended then none else (r.ba.step a).map fun d => ⟨r.ab, d, d.pc.isDone⟩

/-- The `a` to `b` arm of `select!`. -/
theorem Relay.step_ab {r r' : Relay} {a : Ans} :
    r.step .ab a = some r' ↔ r.ended = false ∧ ∃ d, r.ab.step a = some d ∧ ⟨d, r.ba, d.pc.isDone⟩ = r' := by
  rcases r with ⟨ab, ba, _ | _⟩ <;> simp [Relay.step, Option.map_eq_some']

/-- The `b` to `a` arm of `select!`. -/
theorem Relay.step_ba {r r' : Relay} {a : Ans} :
    r.step .ba a = some r' ↔ r.ended = false ∧ ∃ d, r.ba.step a = some d ∧ ⟨r.ab, d, d.pc.isDone⟩ = r' := by
  rcases r with ⟨ab, ba, _ | _⟩ <;> simp [Relay.step, Option.map_eq_some']

/-- The states some interleaving of the two directions reaches. -/
inductive Relay.Reachable : Relay → Prop
  | start : Relay.Reachable .start
  | step {r r' : Relay} (s : Side) (a : Ans) : r.Reachable → r.step s a = some r' → r'.Reachable

/-- What each await keeps: the bytes taken are a subsequence of the bytes
read, and while a chunk waits for its write, of the bytes read before it. -/
def Dir.Ordered (d : Dir) : Prop :=
  match d.pc with
  | .write chunk => ∃ pre, d.copied.read = pre ++ chunk ∧ d.copied.written.Sublist pre
  | _ => d.copied.written.Sublist d.copied.read

theorem Dir.Ordered.sublist {d : Dir} (h : d.Ordered) : d.copied.written.Sublist d.copied.read := by
  rcases d with ⟨⟨rd, wr⟩, _ | chunk | _ | _⟩
  · exact h
  · obtain ⟨pre, rfl, h⟩ := h
    exact h.trans (List.sublist_append_left _ _)
  · exact h
  · exact h

theorem Dir.step_ordered {d d' : Dir} {a : Ans} (h : d.step a = some d') (hd : d.Ordered) :
    d'.Ordered := by
  rcases d with ⟨⟨rd, wr⟩, _ | chunk | _ | _⟩ <;>
    rcases a with ((_ | ⟨b, bytes⟩) | _) | (_ | n) | (_ | u) <;>
    simp only [Dir.step, Option.some.injEq, reduceCtorEq] at h <;> subst h
  · exact hd
  · exact ⟨rd, rfl, hd⟩
  · exact hd
  · exact hd.sublist
  · obtain ⟨pre, rfl, h⟩ := hd
    exact h.append (List.take_sublist _ _)
  · exact hd
  · exact hd

/-- **Order is kept across the interleaving.**  In every reachable state,
each direction's destination has taken a subsequence of the bytes read. -/
theorem Relay.Reachable.taken_sublist {r : Relay} (h : r.Reachable) :
    r.ab.copied.written.Sublist r.ab.copied.read ∧ r.ba.copied.written.Sublist r.ba.copied.read := by
  suffices r.ab.Ordered ∧ r.ba.Ordered from ⟨this.1.sublist, this.2.sublist⟩
  induction h with
  | start => exact ⟨.slnil, .slnil⟩
  | step s a _ hs ih =>
    rcases s
    · obtain ⟨-, d, hd, rfl⟩ := Relay.step_ab.mp hs
      exact ⟨Dir.step_ordered hd ih.1, ih.2⟩
    · obtain ⟨-, d, hd, rfl⟩ := Relay.step_ba.mp hs
      exact ⟨ih.1, Dir.step_ordered hd ih.2⟩

/-- `b` to `a` has read `xy` and awaits its write. -/
def inFlight : Relay := ⟨.start, ⟨⟨[120, 121], []⟩, .write [120, 121]⟩, false⟩

theorem Relay.Reachable.taken_sublist_inFlight :
    inFlight.Reachable ∧ inFlight.ba.copied.written.Sublist inFlight.ba.copied.read :=
  have h : inFlight.Reachable := .step .ba (.read (.data [120, 121])) .start rfl
  ⟨h, h.taken_sublist.2⟩

/-! ## The directions do not interfere -/

/-- A run of the relay on an interleaving of awaits, stopping at the first
that cannot be taken. -/
def Relay.run (r : Relay) : List (Side × Ans) → Option Relay
  | [] => some r
  | (s, a) :: tr => (r.step s a).bind (·.run tr)

/-- The answers one side takes in an interleaving, in order. -/
def sideAnswers (s : Side) : List (Side × Ans) → List Ans
  | [] => []
  | (s', a) :: tr => if s' = s then a :: sideAnswers s tr else sideAnswers s tr

/-- Each direction of a relay run ends where it ends run alone on its own
answers: `select!` only chooses which await completes next. -/
theorem Relay.run_sides {r r' : Relay} {tr : List (Side × Ans)} (h : r.run tr = some r') :
    r.ab.run (sideAnswers .ab tr) = some r'.ab ∧ r.ba.run (sideAnswers .ba tr) = some r'.ba := by
  induction tr generalizing r with
  | nil => cases h; exact ⟨rfl, rfl⟩
  | cons e tr ih =>
    obtain ⟨s, a⟩ := e
    obtain ⟨r₁, hs, hr⟩ := Option.bind_eq_some.mp h
    rcases s
    · obtain ⟨-, d, hd, rfl⟩ := Relay.step_ab.mp hs
      simpa [sideAnswers, Dir.run, hd] using ih hr
    · obtain ⟨-, d, hd, rfl⟩ := Relay.step_ba.mp hs
      simpa [sideAnswers, Dir.run, hd] using ih hr

/-- **Whatever the interleaving, each direction is `copy_tcp`.**  If, in a
run of `relay_tcp`, each side has taken the answers of whole passes, each
direction has read, taken and returned as `copyTcp` does on its own
passes. -/
theorem Relay.run_copyTcp {tr : List (Side × Ans)} {r : Relay} (h : Relay.start.run tr = some r)
    {ts us : List Turn} (hab : sideAnswers .ab tr = turnAnswers ts)
    (hba : sideAnswers .ba tr = turnAnswers us) :
    r.ab = ⟨(copyTcp ts ⟨[], []⟩).1, (copyTcp ts ⟨[], []⟩).2.pc⟩ ∧
      r.ba = ⟨(copyTcp us ⟨[], []⟩).1, (copyTcp us ⟨[], []⟩).2.pc⟩ := by
  obtain ⟨h₁, h₂⟩ := Relay.run_sides h
  rw [hab] at h₁
  rw [hba] at h₂
  exact ⟨Option.some.inj (h₁.symm.trans (Dir.run_turnAnswers ts _)),
    Option.some.inj (h₂.symm.trans (Dir.run_turnAnswers us _))⟩

/-- `a` sends `a` and `b` sends `x`, their awaits crossed. -/
def crossed : List (Side × Ans) :=
  [(.ab, .read (.data [97])), (.ba, .read (.data [120])), (.ab, .write (.ok 1)),
    (.ba, .write (.ok 1)), (.ab, .flush (.ok ())), (.ba, .flush (.ok ()))]

theorem Relay.run_copyTcp_crossed :
    Relay.start.run crossed = some ⟨⟨⟨[97], [97]⟩, .read⟩, ⟨⟨[120], [120]⟩, .read⟩, false⟩ ∧
      (⟨⟨⟨[97], [97]⟩, .read⟩, ⟨⟨[120], [120]⟩, .read⟩, false⟩ : Relay).ab =
        ⟨(copyTcp [⟨.data [97], .ok 1, .ok ()⟩] ⟨[], []⟩).1,
          (copyTcp [⟨.data [97], .ok 1, .ok ()⟩] ⟨[], []⟩).2.pc⟩ :=
  ⟨rfl, (@Relay.run_copyTcp crossed ⟨⟨⟨[97], [97]⟩, .read⟩, ⟨⟨[120], [120]⟩, .read⟩, false⟩ rfl
    [⟨.data [97], .ok 1, .ok ()⟩] [⟨.data [120], .ok 1, .ok ()⟩] rfl rfl).1⟩

/-! ## What the dropped direction loses -/

/-- The chunk a direction has read and not written yet. -/
def Dir.pending (d : Dir) : List UInt8 :=
  match d.pc with
  | .write chunk => chunk
  | _ => []

/-- The answer, if it is the awaited write's, takes the whole chunk. -/
def Dir.fullWrite (d : Dir) : Ans → Bool
  | .write (.ok n) =>
    match d.pc with
    | .write chunk => chunk.length ≤ n
    | _ => true
  | _ => true

/-- The direction whose await completes. -/
def Relay.dir (r : Relay) : Side → Dir
  | .ab => r.ab
  | .ba => r.ba

/-- The states some interleaving reaches when every write takes its whole
chunk. -/
inductive Relay.FullReachable : Relay → Prop
  | start : Relay.FullReachable .start
  | step {r r' : Relay} (s : Side) (a : Ans) : r.FullReachable → (r.dir s).fullWrite a = true →
      r.step s a = some r' → r'.FullReachable

/-- With full writes, a direction has delivered every byte it read but the
chunk it awaits to write; once a stream failed, a prefix of them. -/
def Dir.Delivered (d : Dir) : Prop :=
  match d.pc with
  | .done false => d.copied.written <+: d.copied.read
  | _ => d.copied.read = d.copied.written ++ d.pending

theorem Dir.step_delivered {d d' : Dir} {a : Ans} (h : d.step a = some d')
    (hf : d.fullWrite a = true) (hd : d.Delivered) : d'.Delivered := by
  rcases d with ⟨⟨rd, wr⟩, _ | chunk | _ | _⟩ <;>
    rcases a with ((_ | ⟨b, bytes⟩) | _) | (_ | n) | (_ | u) <;>
    simp only [Dir.step, Option.some.injEq, reduceCtorEq] at h <;> subst h <;>
    simp only [Dir.Delivered, Dir.pending, List.append_nil] at hd ⊢ <;> subst hd
  · rfl
  · rfl
  · exact List.prefix_refl _
  · exact List.prefix_append _ _
  · rw [List.take_of_length_le (by simpa [Dir.fullWrite] using hf)]
  · exact List.prefix_refl _
  · rfl

/-- **The dropped direction loses one chunk.**  If every write takes its
whole chunk, in every state some interleaving reaches, each direction has
delivered every byte it read except the chunk it awaits to write (or a
prefix of them, once one of its streams failed).  When `select!` ends the
relay, the direction it drops therefore loses exactly that chunk. -/
theorem Relay.FullReachable.delivered {r : Relay} (h : r.FullReachable) :
    r.ab.Delivered ∧ r.ba.Delivered := by
  induction h with
  | start => exact ⟨rfl, rfl⟩
  | step s a _ hf hs ih =>
    rcases s
    · obtain ⟨-, d, hd, rfl⟩ := Relay.step_ab.mp hs
      exact ⟨Dir.step_delivered hd hf ih.1, ih.2⟩
    · obtain ⟨-, d, hd, rfl⟩ := Relay.step_ba.mp hs
      exact ⟨ih.1, Dir.step_delivered hd hf ih.2⟩

/-- `b` to `a` has read `xy`, then `a` to `b` reads the end of its stream:
the relay ends, and `xy` is never written. -/
def closedInFlight : Relay := ⟨⟨⟨[], []⟩, .done true⟩, ⟨⟨[120, 121], []⟩, .write [120, 121]⟩, true⟩

theorem Relay.FullReachable.delivered_closedInFlight :
    closedInFlight.FullReachable ∧
      closedInFlight.ba.copied.read = closedInFlight.ba.copied.written ++ [120, 121] :=
  have h : closedInFlight.FullReachable :=
    .step .ab (.read (.data [])) (.step .ba (.read (.data [120, 121])) .start rfl rfl) rfl rfl
  ⟨h, h.delivered.2⟩


/-! ## After `select!`

The first direction to return completes `select!`, which drops the other;
its error, if it returned one, is only logged (at debug).  `relay_tcp` then
rejoins each stream's halves (`unsplit`: both come from one `split`, so it
cannot panic), awaits `a.shutdown()` and then `b.shutdown()`, ignoring what
each answers (`let _ =`), logs that the session ends (at info) and returns. -/

/-- A stream given to `relay_tcp`. -/
inductive Stream
  | a
  | b
  deriving DecidableEq, Repr

/-- What `relay_tcp` logs: `relay_tcp err` when the direction that ended it
returned an error, and `tcp session ends`. -/
inductive RelayLog
  | err
  | sessionEnds
  deriving DecidableEq, Repr

/-- Where `relay_tcp` stands: under `select!`, awaiting `a.shutdown()`,
awaiting `b.shutdown()`, or returned. -/
inductive TcpPc
  | select
  | shutdownA
  | shutdownB
  | returned
  deriving DecidableEq, Repr

/-- `relay_tcp` at the granularity of its awaits: the two directions, where
it stands, the streams whose `shutdown` it has called, in order, and what it
has logged. -/
structure RelayTcp where
  relay : Relay
  pc : TcpPc
  shutdowns : List Stream
  logs : List RelayLog

/-- `relay_tcp` once both streams are split and the two copies made. -/
def RelayTcp.start : RelayTcp := ⟨.start, .select, [], []⟩

/-- An await of `relay_tcp` completes: one of a direction's under `select!`,
or the `shutdown` awaited, with whatever it answers. -/
inductive TcpAwait
  | arm (s : Side) (a : Ans)
  | shutdown (r : Except Unit Unit)

/-- `select!` has the result of side `s` of `r`, which has just returned: its
error is logged, the streams are rejoined and `a.shutdown()` is called. -/
def RelayTcp.selected (t : RelayTcp) (r : Relay) (s : Side) : RelayTcp :=
  ⟨r, .shutdownA, t.shutdowns ++ [.a], t.logs ++ if (r.dir s).pc = .done false then [.err] else []⟩

/-- An await of `relay_tcp` completes; `none` if it is not one `relay_tcp`
awaits there. -/
def RelayTcp.step (t : RelayTcp) : TcpAwait → Option RelayTcp
  | .arm s a =>
    match t.pc, t.relay.step s a with
    | .select, some r => some (if r.ended then t.selected r s else { t with relay := r })
    | _, _ => none
  | .shutdown _ =>
    match t.pc with
    | .shutdownA => some { t with pc := .shutdownB, shutdowns := t.shutdowns ++ [.b] }
    | .shutdownB => some { t with pc := .returned, logs := t.logs ++ [.sessionEnds] }
    | _ => none

/-- A run of `relay_tcp` on a list of awaits, stopping at the first that
cannot be taken. -/
def RelayTcp.run (t : RelayTcp) : List TcpAwait → Option RelayTcp
  | [] => some t
  | x :: xs => (t.step x).bind (·.run xs)

/-- The states some run of `relay_tcp` reaches. -/
inductive RelayTcp.Reachable : RelayTcp → Prop
  | start : RelayTcp.Reachable .start
  | step {t t' : RelayTcp} (x : TcpAwait) : t.Reachable → t.step x = some t' → t'.Reachable

/-- The `shutdown` calls made by the time `relay_tcp` stands at `pc`. -/
def TcpPc.shutdowns : TcpPc → List Stream
  | .select => []
  | .shutdownA => [.a]
  | .shutdownB | .returned => [.a, .b]

/-- What every state a run of `relay_tcp` reaches keeps: the directions are
a reachable relay, `select!` runs until the relay ends, the `shutdown` calls
made are those of where it stands, and the session's end is logged once,
on return. -/
structure RelayTcp.Inv (t : RelayTcp) : Prop where
  relay : t.relay.Reachable
  select_iff : t.pc = .select ↔ t.relay.ended = false
  shutdowns : t.shutdowns = t.pc.shutdowns
  sessionEnds : t.logs.count .sessionEnds = if t.pc = .returned then 1 else 0

/-- An await under `select!` completes. -/
theorem RelayTcp.step_arm {t t' : RelayTcp} {s : Side} {a : Ans} (h : t.step (.arm s a) = some t') :
    t.pc = .select ∧ ∃ r, t.relay.step s a = some r ∧
      t' = if r.ended then t.selected r s else { t with relay := r } := by
  rcases t with ⟨rel, _ | _ | _ | _, sh, lg⟩ <;> rcases hr : rel.step s a with _ | r <;>
    simp [RelayTcp.step, hr] at h ⊢
  exact h.symm

theorem RelayTcp.Inv.step {t t' : RelayTcp} {x : TcpAwait} (hi : t.Inv) (h : t.step x = some t') :
    t'.Inv := by
  obtain ⟨hr, hsel, hsh, hlog⟩ := hi
  rcases x with ⟨s, a⟩ | _
  · obtain ⟨hp, r, hs, rfl⟩ := RelayTcp.step_arm h
    have hr' := Relay.Reachable.step s a hr hs
    simp only [hp, TcpPc.shutdowns, reduceCtorEq, if_false] at hsh hlog
    cases he : r.ended
    · exact ⟨hr', by simp [hp, he], by simp [hsh, hp, TcpPc.shutdowns], by simp [hlog, hp]⟩
    · refine ⟨hr', by simp [RelayTcp.selected, he], by simp [RelayTcp.selected, hsh, TcpPc.shutdowns], ?_⟩
      by_cases hc : (r.dir s).pc = .done false <;>
        simp [RelayTcp.selected, he, hc, List.count_append, hlog]
  · rcases t with ⟨rel, _ | _ | _ | _, sh, lg⟩ <;>
      simp only [RelayTcp.step, reduceCtorEq, Option.some.injEq] at h <;> subst h <;>
      dsimp only at hr hsel hsh hlog
    · exact ⟨hr, by simpa using hsel, by simp [hsh, TcpPc.shutdowns], by simpa using hlog⟩
    · exact ⟨hr, by simpa using hsel, hsh, by simp_all [List.count_append]⟩

theorem RelayTcp.Reachable.inv {t : RelayTcp} (h : t.Reachable) : t.Inv := by
  induction h with
  | start => exact ⟨.start, by decide, rfl, rfl⟩
  | step _ _ hs ih => exact ih.step hs

/-- **Each stream is shut down once, after `select!`.**  In every state a
run of `relay_tcp` reaches, its directions are a reachable relay; the
`shutdown` calls made are `a`'s and then `b`'s, at most once each, and none
before `select!` has completed; and once it has returned, both were made and
the session's end was logged once, whether the direction that ended the
relay returned an error or not. -/
theorem RelayTcp.Reachable.shutdowns {t : RelayTcp} (h : t.Reachable) :
    t.relay.Reachable ∧ t.shutdowns <+: [.a, .b] ∧ (t.shutdowns = [] ↔ t.relay.ended = false) ∧
      (t.pc = .returned → t.shutdowns = [.a, .b] ∧ t.logs.count .sessionEnds = 1) := by
  obtain ⟨hr, hsel, hsh, hlog⟩ := h.inv
  rw [hsh, ← hsel]
  refine ⟨hr, ?_, ?_, fun hp => ?_⟩
  · cases t.pc <;> decide
  · cases t.pc <;> decide
  · rw [hp] at hlog
    exact ⟨by rw [hp]; rfl, hlog⟩

/-- **`relay_tcp` returns.**  When an await under `select!` ends the relay,
the run goes on with `a`'s `shutdown` and then `b`'s, whatever each answers,
and returns. -/
theorem RelayTcp.Reachable.returns {t t' : RelayTcp} {s : Side} {a : Ans} (h : t.Reachable)
    (hs : t.step (.arm s a) = some t') (he : t'.relay.ended = true) (r₁ r₂ : Except Unit Unit) :
    ∃ t'', t'.run [.shutdown r₁, .shutdown r₂] = some t'' ∧ t''.pc = .returned ∧
      t''.shutdowns = [.a, .b] := by
  obtain ⟨hp, r, -, rfl⟩ := RelayTcp.step_arm hs
  have hsh : t.shutdowns = [] := by rw [h.inv.shutdowns, hp]; rfl
  cases he' : r.ended
  · simp [he'] at he
  · simp [he', RelayTcp.run, RelayTcp.step, RelayTcp.selected, hsh]

end Flower.Trojan
