import Flower.Quic.Incoming
/-!
# `Flower.Quic.IncomingRun` — the QUIC inbound stream over a run of polls

`Flower.Quic.Incoming` takes the answers of one `poll_next`'s sub-polls by
position.  In the running system each source answers for itself: a
handshake's poll is that handshake's progress, a connection's `bi_streams`
poll is that connection's.  This module gives each source an identity and
lets it answer by identity (`Answers`); `Answers.polls` is what `poll_next`
then sees at each position.  The endpoint gives the handshake it accepts in
the `n`-th poll the identity `n`, and an established connection keeps the
identity of its handshake.

**Proved here**, for every run of polls from `Incoming::new` and every
answer of every source:

    identities of handshakes and connections are never duplicated    (`Inbound.Inv`, `Inbound.Reachable.inv`)
    a handshake that completed is never polled again, in any later poll
                                                                     (`completed_not_repolled`)
    a connection leaves `new_conns` only in a poll where its own
    `bi_streams` failed or ended                                     (`poll_keeps_conn`)
    while the first connection has a stream ready at every poll, every
    poll yields one of its streams and the connections behind it are
    never served                                                     (`head_conn_starves`)

`pollNext_contract` gathers these with the one-poll contract of
`Flower.Quic.Incoming`.
-/

namespace Flower.Quic

/-- What the inner incoming answers: a handshake (its identity is the
poll's number), its end, or `Pending`. -/
inductive Arrival
  | handshake
  | closed
  | pending
  deriving DecidableEq, Repr

/-- What a handshake answers, for itself. -/
inductive Handshake
  | ok (peer : SocketAddr)
  | err
  | pending
  deriving DecidableEq, Repr

/-- The answers of all sources to one poll, each by its own identity. -/
structure Answers where
  inner : Arrival
  handshake : Nat → Handshake
  bi : Nat → BiPoll

/-- The inbound stream in its system: the `Incoming`, and the number of the
next poll, which is the identity of the handshake it may accept. -/
structure Inbound where
  inc : Incoming
  next : Nat

/-- `Incoming::new` before the first poll. -/
def Inbound.start : Inbound := ⟨.new, 0⟩

def Arrival.toPoll (next : Nat) : Arrival → InnerPoll
  | .handshake => .ready ⟨next⟩
  | .closed => .closed
  | .pending => .pending

/-- The handshake `id`'s answer as a poll; its connection keeps its identity. -/
def Handshake.toPoll (id : Nat) : Handshake → ConnectingPoll
  | .ok peer => .ok ⟨id, peer⟩
  | .err => .err
  | .pending => .pending

/-- The handshake completed `Ok`. -/
def Handshake.isOk : Handshake → Bool
  | .ok _ => true
  | _ => false

/-- The answer at position `j` of the handshakes: that handshake's own. -/
def Answers.connecting (a : Answers) (cs : List Connecting) (j : Nat) : ConnectingPoll :=
  match cs[j]? with
  | some c => (a.handshake c.id).toPoll c.id
  | none => .pending

/-- The answer at position `j` of the connections: that connection's own. -/
def Answers.biAt (a : Answers) (conns : List NewConnection) (j : Nat) : BiPoll :=
  match conns[j]? with
  | some nc => a.bi nc.id
  | none => .pending

/-- The handshakes one poll walks: those in progress, and the one the inner
incoming yields. -/
def Inbound.handshakesPolled (w : Inbound) (a : Answers) : List Connecting :=
  (pollInner w.inc (a.inner.toPoll w.next)).connectings

/-- The answers by position that `poll_next` sees. -/
def Answers.polls (a : Answers) (w : Inbound) : Polls :=
  let inner := a.inner.toPoll w.next
  let connecting := a.connecting (w.handshakesPolled a)
  ⟨inner, connecting, a.biAt (w.inc.connsPolled ⟨inner, connecting, fun _ => .pending⟩)⟩

/-- The connections one poll walks. -/
def Inbound.connsPolled (w : Inbound) (a : Answers) : List NewConnection :=
  w.inc.connsPolled (a.polls w)

/-- One poll: `poll_next` on the answers, and the next poll's number. -/
def Inbound.poll (w : Inbound) (a : Answers) : Inbound × PollNext :=
  let r := w.inc.pollNext (a.polls w)
  (⟨r.1, w.next + 1⟩, r.2)

/-- The state after a run of polls. -/
def Inbound.run (w : Inbound) : List Answers → Inbound
  | [] => w
  | a :: as => (w.poll a).1.run as

/-- The states some run of polls reaches from `Incoming::new`. -/
inductive Inbound.Reachable : Inbound → Prop
  | start : Inbound.Reachable .start
  | poll {w : Inbound} (a : Answers) : w.Reachable → Inbound.Reachable (w.poll a).1

/-! ## One poll, by identity

With answers by identity the position-wise contract of `pollNext_refines`
becomes a statement about each source: a handshake stays iff its own answer
was `Pending`, and the connections walked are the old ones and those of the
handshakes that completed `Ok`. -/

section Removal

variable {α β : Type}

/-- A position-wise filter whose test reads the entry at the position is a
`filter`. -/
theorem keepIdx_getElem? {keep : Nat → Bool} {q : α → Bool} (l₀ l : List α)
    (h : ∀ j x, (l₀ ++ l)[j]? = some x → keep j = q x) :
    keepIdx keep l₀.length l = l.filter q := by
  induction l generalizing l₀ with
  | nil => rfl
  | cons x l ih =>
    have hx : keep l₀.length = q x := h _ x (by rw [List.getElem?_append_right le_rfl]; simp)
    have hl := ih (l₀ ++ [x]) (by simpa using h)
    rw [List.length_append, List.length_singleton] at hl
    simp only [keepIdx, hx, hl, List.filter_cons]

theorem range'_filterMap_getElem? (f : α → Option β) (l₀ l : List α) :
    (List.range' l₀.length l.length).filterMap (fun j => (l₀ ++ l)[j]?.bind f) = l.filterMap f := by
  induction l generalizing l₀ with
  | nil => rfl
  | cons x l ih =>
    have hl := ih (l₀ ++ [x])
    simp only [List.append_assoc, List.singleton_append, List.length_append,
      List.length_singleton] at hl
    have hx : (l₀ ++ x :: l)[l₀.length]? = some x := by
      rw [List.getElem?_append_right le_rfl]; simp
    rw [List.length_cons, List.range'_succ, List.filterMap_cons, hl]
    simp only [hx, Option.some_bind, List.filterMap_cons]

end Removal

/-- The handshakes walked are those in progress, and the new one if the
inner incoming is open and yields one. -/
theorem handshakesPolled_eq (w : Inbound) (a : Answers) :
    w.handshakesPolled a = w.inc.connectings ∨
      w.handshakesPolled a = w.inc.connectings ++ [⟨w.next⟩] := by
  unfold Inbound.handshakesPolled pollInner
  split
  · exact .inl rfl
  · cases a.inner <;> simp [Arrival.toPoll]

theorem connsPolled_eq (w : Inbound) (a : Answers) :
    w.connsPolled a = w.inc.newConns ++
      (w.handshakesPolled a).filterMap fun c => ((a.handshake c.id).toPoll c.id).established := by
  have h := range'_filterMap_getElem? (fun c : Connecting => ((a.handshake c.id).toPoll c.id).established)
    [] (w.handshakesPolled a)
  rw [List.nil_append, List.length_nil] at h
  rw [Inbound.connsPolled, Incoming.connsPolled, pollInner_newConns, List.range_eq_range', ← h]
  congr 2
  funext j
  simp only [Answers.polls, Answers.connecting]
  cases (w.handshakesPolled a)[j]? <;> rfl

/-- **Handshakes.**  After a poll, the handshakes in progress are, up to
order, those walked whose own answer was `Pending`. -/
theorem poll_connectings (w : Inbound) (a : Answers) :
    (w.poll a).1.inc.connectings.Perm
      ((w.handshakesPolled a).filter fun c => a.handshake c.id = .pending) := by
  have h := @keepIdx_getElem? _ (fun j => ((a.polls w).connecting j).isPending)
    (fun c => a.handshake c.id = .pending) [] (w.handshakesPolled a) fun j x hx => by
      simp only [List.nil_append] at hx
      simp only [Answers.polls, Answers.connecting, hx]
      cases a.handshake x.id <;> rfl
  rw [List.length_nil] at h
  rw [← h, Inbound.handshakesPolled, pollInner_connectings]
  exact (pollNext_refines w.inc (a.polls w)).1

/-- **Connections.**  After a poll, the connections are those walked, minus
those dead before the first stream, each by its own answer. -/
theorem poll_newConns (w : Inbound) (a : Answers) :
    (w.poll a).1.inc.newConns =
      keepIdx (fun j => !deadBeforeStream (a.biAt (w.connsPolled a)) j) 0 (w.connsPolled a) := by
  have h := (pollNext_refines w.inc (a.polls w)).2.1
  dsimp only [Incoming.pollSpec] at h
  rw [← connsPolled_eq_connsSpec] at h
  exact h

/-- A connection leaves `new_conns` only in a poll where its own
`bi_streams` answered an error or its end. -/
theorem poll_keeps_conn {w : Inbound} {a : Answers} {nc : NewConnection}
    (hm : nc ∈ w.connsPolled a) (hn : nc ∉ (w.poll a).1.inc.newConns) : (a.bi nc.id).isDead = true := by
  obtain ⟨j, hj⟩ := List.mem_iff_getElem?.mp hm
  rw [poll_newConns] at hn
  have hk : deadBeforeStream (a.biAt (w.connsPolled a)) j = true := by
    by_contra hk
    exact hn (mem_keepIdx_iff.mpr ⟨j, hj, by simpa using hk⟩)
  simpa [Answers.biAt, hj] using (Bool.and_eq_true_iff.mp hk).1

/-! ## Identities over a run

The identities in use, those of the handshakes in progress and of the live
connections, never repeat, and all were given out by earlier polls. -/

/-- The identities in use. -/
def Incoming.ids (s : Incoming) : List Nat :=
  s.connectings.map (·.id) ++ s.newConns.map (·.id)

/-- The invariant of every run: no identity is in use twice, and each was
given out by an earlier poll. -/
structure Inbound.Inv (w : Inbound) : Prop where
  nodup : w.inc.ids.Nodup
  lt_next : ∀ x ∈ w.inc.ids, x < w.next

theorem established_ids (a : Answers) (cs : List Connecting) :
    (cs.filterMap fun c => ((a.handshake c.id).toPoll c.id).established).map (·.id) =
      (cs.filter fun c => (a.handshake c.id).isOk).map (·.id) := by
  induction cs with
  | nil => rfl
  | cons c cs ih =>
    rw [List.filterMap_cons, List.filter_cons]
    cases a.handshake c.id with
    | ok peer => exact congrArg (c.id :: ·) ih
    | err | pending => exact ih

/-- After a poll the identities in use are, up to order, some of those the
poll walked: a handshake either stays, or becomes a connection, or goes. -/
theorem poll_ids_subperm (w : Inbound) (a : Answers) :
    (w.poll a).1.inc.ids.Subperm ((w.handshakesPolled a).map (·.id) ++ w.inc.newConns.map (·.id)) := by
  let cs := w.handshakesPolled a
  let P : Connecting → Bool := fun c => a.handshake c.id = .pending
  let O : Connecting → Bool := fun c => (a.handshake c.id).isOk
  have hc : ((w.poll a).1.inc.connectings.map (·.id)).Perm ((cs.filter P).map (·.id)) :=
    (poll_connectings w a).map _
  have hn : ((w.poll a).1.inc.newConns.map (·.id)).Sublist
      (w.inc.newConns.map (·.id) ++ (cs.filter O).map (·.id)) := by
    rw [← established_ids, ← List.map_append, ← connsPolled_eq, poll_newConns]
    exact (keepIdx_sublist _ _ _).map _
  have hPO : (cs.filter P ++ cs.filter O).Sublist (cs.filter P ++ cs.filter fun c => !P c) :=
    (List.monotone_filter_right cs fun c hc => by
      cases h : a.handshake c.id <;> simp_all [P, O, Handshake.isOk]).append_left _
  have hswap : ((cs.filter P).map (·.id) ++ (w.inc.newConns.map (·.id) ++ (cs.filter O).map (·.id))).Perm
      ((cs.filter P ++ cs.filter O).map (·.id) ++ w.inc.newConns.map (·.id)) := by
    rw [List.map_append, List.append_assoc]
    exact List.perm_append_comm.append_left _
  exact (hc.append_right _).subperm.trans <| (hn.append_left _).subperm.trans <|
    hswap.subperm.trans <| ((hPO.map _).append_right _).subperm.trans
      (((List.filter_append_perm P cs).map _).append_right _).subperm

/-- The identities a poll walks are distinct and given out by this poll or
an earlier one. -/
theorem Inbound.Inv.polled {w : Inbound} (h : w.Inv) (a : Answers) :
    ((w.handshakesPolled a).map (·.id) ++ w.inc.newConns.map (·.id)).Nodup ∧
      ∀ x ∈ (w.handshakesPolled a).map (·.id) ++ w.inc.newConns.map (·.id), x < w.next + 1 := by
  rcases handshakesPolled_eq w a with hcs | hcs <;> rw [hcs]
  · exact ⟨h.nodup, fun x hx => Nat.lt_succ_of_lt (h.lt_next x hx)⟩
  · have hfresh : w.next ∉ w.inc.ids := fun hx => lt_irrefl _ (h.lt_next _ hx)
    have hlt := h.lt_next
    simp only [Incoming.ids, List.mem_append] at hfresh hlt
    simp only [List.map_append, List.map_singleton, List.append_assoc, List.singleton_append]
    refine ⟨List.nodup_middle.mpr (List.nodup_cons.mpr ⟨by simpa using hfresh, h.nodup⟩), ?_⟩
    intro x hx
    simp only [List.mem_append, List.mem_cons] at hx
    rcases hx with hx | rfl | hx
    · exact Nat.lt_succ_of_lt (hlt x (.inl hx))
    · exact Nat.lt_succ_self _
    · exact Nat.lt_succ_of_lt (hlt x (.inr hx))

theorem Inbound.Inv.poll {w : Inbound} (h : w.Inv) (a : Answers) : (w.poll a).1.Inv := by
  obtain ⟨hnd, hlt⟩ := h.polled a
  obtain ⟨l, hp, hsub⟩ := poll_ids_subperm w a
  exact ⟨hp.nodup_iff.mp (hnd.sublist hsub), fun x hx => hlt x (hsub.subset (hp.symm.subset hx))⟩

theorem Inbound.Reachable.inv {w : Inbound} (h : w.Reachable) : w.Inv := by
  induction h with
  | start => exact ⟨List.nodup_nil, fun _ h => absurd h (List.not_mem_nil _)⟩
  | poll a _ ih => exact ih.poll a

/-! ## Completed handshakes are never polled again -/

/-- The handshake `c` is done with: its identity was given out, and it is
no longer in progress. -/
def Inbound.Gone (w : Inbound) (c : Connecting) : Prop :=
  c.id < w.next ∧ c ∉ w.inc.connectings

theorem Inbound.Gone.not_polled {w : Inbound} {c : Connecting} (h : w.Gone c) (a : Answers) :
    c ∉ w.handshakesPolled a := by
  rcases handshakesPolled_eq w a with hcs | hcs <;> rw [hcs]
  · exact h.2
  · intro hm
    rcases List.mem_append.mp hm with hm | hm
    · exact h.2 hm
    · rw [List.mem_singleton.mp hm] at h
      exact lt_irrefl _ h.1

theorem Inbound.Gone.poll {w : Inbound} {c : Connecting} (h : w.Gone c) (a : Answers) :
    (w.poll a).1.Gone c :=
  ⟨Nat.lt_succ_of_lt h.1, fun hm => h.not_polled a (List.mem_of_mem_filter ((poll_connectings w a).subset hm))⟩

theorem Inbound.Gone.run {w : Inbound} {c : Connecting} (h : w.Gone c) :
    ∀ as : List Answers, (w.run as).Gone c
  | [] => h
  | a :: as => (h.poll a).run as

/-- A handshake that completes in a poll is done with after it. -/
theorem Inbound.Inv.poll_gone {w : Inbound} (hw : w.Inv) {a : Answers} {c : Connecting}
    (hc : c ∈ w.handshakesPolled a) (hp : a.handshake c.id ≠ .pending) : (w.poll a).1.Gone c := by
  refine ⟨(hw.polled a).2 c.id (List.mem_append_left _ (List.mem_map_of_mem _ hc)), fun hm => ?_⟩
  have := List.of_mem_filter ((poll_connectings w a).subset hm)
  simp [hp] at this

/-- **A completed handshake is never polled again**, in any later poll of
any run. -/
theorem completed_not_repolled {w : Inbound} (hw : w.Reachable) {a : Answers} {c : Connecting}
    (hc : c ∈ w.handshakesPolled a) (hp : a.handshake c.id ≠ .pending) (as : List Answers)
    (a' : Answers) : c ∉ ((w.poll a).1.run as).handshakesPolled a' :=
  ((hw.inv.poll_gone hc hp).run as).not_polled a'

/-! ## The contract of `poll_next` -/

/-- **`poll_next` meets its contract.**  One poll, for every state and every
answer of every sub-poll, does what `pollSpec` says; and over every run of
polls no identity is in use twice, a handshake that completed is never
polled again, and a connection walked by a poll leaves `new_conns` only if
its own `bi_streams` failed or ended. -/
theorem pollNext_contract :
    (∀ (s : Incoming) (p : Polls),
      (s.pollNext p).1.connectings.Perm (s.pollSpec p).1.connectings ∧
      (s.pollNext p).1.newConns = (s.pollSpec p).1.newConns ∧
      (s.pollNext p).1.incomingClosed = (s.pollSpec p).1.incomingClosed ∧
      (s.pollNext p).2 = (s.pollSpec p).2) ∧
    ∀ w : Inbound, w.Reachable → w.Inv ∧ ∀ a : Answers,
      (∀ c ∈ w.handshakesPolled a, a.handshake c.id ≠ .pending →
        ∀ (as : List Answers) (a' : Answers), c ∉ ((w.poll a).1.run as).handshakesPolled a') ∧
      (∀ nc ∈ w.connsPolled a, nc ∉ (w.poll a).1.inc.newConns → (a.bi nc.id).isDead = true) :=
  ⟨pollNext_refines, fun _ hw => ⟨hw.inv, fun _ =>
    ⟨fun _ hc hp => completed_not_repolled hw hc hp, fun _ hm hn => poll_keeps_conn hm hn⟩⟩⟩

/-- The first poll takes handshake `0`, which is established with a peer,
and its connection's `bi_streams` fails at once. -/
def establishThenFail : Answers := ⟨.handshake, fun _ => .ok ⟨1, 443⟩, fun _ => .err⟩

theorem pollNext_contract_first :
    (⟨0⟩ : Connecting) ∈ Inbound.start.handshakesPolled establishThenFail ∧
    (∀ (as : List Answers) (a' : Answers),
      (⟨0⟩ : Connecting) ∉ ((Inbound.start.poll establishThenFail).1.run as).handshakesPolled a') ∧
    (⟨0, ⟨1, 443⟩⟩ : NewConnection) ∈ Inbound.start.connsPolled establishThenFail ∧
    (⟨0, ⟨1, 443⟩⟩ : NewConnection) ∉ (Inbound.start.poll establishThenFail).1.inc.newConns ∧
    (establishThenFail.bi 0).isDead = true :=
  have h := (pollNext_contract.2 _ .start).2 establishThenFail
  ⟨by decide, h.1 _ (by decide) (by decide), by decide, by decide,
    h.2 ⟨0, ⟨1, 443⟩⟩ (by decide) (by decide)⟩

/-! ## Fairness

The stream loop walks `new_conns` from the front and stops at the first
stream.  A connection at the front that always has a stream ready is served
at every poll, and no connection behind it is polled, whatever it has
ready. -/

theorem firstStream_cons_stream {bi : Nat → BiPoll} {nc : NewConnection} {rest : List NewConnection}
    {i : Nat} (h : bi 0 = .stream i) : firstStream bi (nc :: rest) = some (nc, i) := by
  rw [firstStream, List.enum_cons, List.findSome?_cons, h]; rfl

/-- A stream at the first position: no position is dead before it. -/
theorem not_deadBeforeStream_of_head {bi : Nat → BiPoll} {i : Nat} (h : bi 0 = .stream i) (j : Nat) :
    deadBeforeStream bi j = false := by
  cases j with
  | zero => simp [deadBeforeStream, h, BiPoll.isDead]
  | succ j =>
    have : (List.range (j + 1)).any (fun k => (bi k).streamIndex.isSome) = true :=
      List.any_eq_true.mpr ⟨0, by simp, by simp [h, BiPoll.streamIndex]⟩
    simp [deadBeforeStream, this]

theorem poll_head_stream {w : Inbound} {a : Answers} {nc : NewConnection}
    {rest : List NewConnection} {i : Nat} (hw : w.inc.newConns = nc :: rest)
    (hi : a.bi nc.id = .stream i) :
    (w.poll a).2 = .ready (some (streamTransport nc i)) ∧
      nc :: rest <+: (w.poll a).1.inc.newConns := by
  obtain ⟨est, hc⟩ : ∃ est, w.connsPolled a = nc :: (rest ++ est) := ⟨_, by rw [connsPolled_eq, hw]; rfl⟩
  have h0 : a.biAt (w.connsPolled a) 0 = .stream i := by simp [Answers.biAt, hc, hi]
  constructor
  · have hf : firstStream (a.biAt (w.connsPolled a)) (w.connsPolled a) = some (nc, i) := by
      rw [hc] at h0 ⊢; exact firstStream_cons_stream h0
    have hf' : firstStream (a.polls w).bi (w.inc.connsSpec (a.polls w)) = some (nc, i) := by
      rw [← connsPolled_eq_connsSpec]; exact hf
    show (w.inc.pollNext (a.polls w)).2 = _
    rw [(pollNext_refines w.inc (a.polls w)).2.2.2]
    dsimp only [Incoming.pollSpec]
    rw [hf']; rfl
  · rw [poll_newConns, keepIdx_of_forall fun j _ _ => by simp [not_deadBeforeStream_of_head h0], hc]
    exact ⟨est, by simp⟩

/-- What each poll of a run answers. -/
def Inbound.results (w : Inbound) : List Answers → List PollNext
  | [] => []
  | a :: as => (w.poll a).2 :: (w.poll a).1.results as

theorem head_conn_starves {w : Inbound} {nc : NewConnection} {rest : List NewConnection}
    (hw : w.inc.newConns = nc :: rest) (as : List Answers)
    (has : ∀ a ∈ as, ∃ i, a.bi nc.id = .stream i) :
    (∀ r ∈ w.results as, ∃ i, r = .ready (some (streamTransport nc i))) ∧
      nc :: rest <+: (w.run as).inc.newConns := by
  induction as generalizing w rest with
  | nil => exact ⟨fun _ h => absurd h (List.not_mem_nil _), hw ▸ List.prefix_refl _⟩
  | cons a as ih =>
    obtain ⟨i, hi⟩ := has a (List.mem_cons_self _ _)
    obtain ⟨hr, t, ht⟩ := poll_head_stream hw hi
    obtain ⟨ihr, ihp⟩ := ih (ht.symm.trans (List.cons_append _ _ _)) fun b hb =>
      has b (List.mem_cons_of_mem _ hb)
    refine ⟨fun r hr' => ?_, (List.prefix_append _ t).trans ((List.cons_append _ _ _).symm ▸ ihp)⟩
    rcases List.mem_cons.mp hr' with rfl | hr'
    · exact ⟨i, hr⟩
    · exact ihr r hr'

/-- Two connections, both with a stream ready at every poll. -/
def twoReady : Inbound := ⟨⟨[], [⟨0, ⟨1, 443⟩⟩, ⟨1, ⟨2, 443⟩⟩], false⟩, 2⟩

/-- Every connection has a stream ready; the second's is stream `7`. -/
def bothReady : Answers := ⟨.pending, fun _ => .pending, fun id => .stream (if id = 0 then 0 else 7)⟩

theorem head_conn_starves_twoReady :
    twoReady.inc.newConns = ⟨0, ⟨1, 443⟩⟩ :: [⟨1, ⟨2, 443⟩⟩] ∧
    bothReady.bi 1 = .stream 7 ∧
    ∀ r ∈ twoReady.results [bothReady, bothReady, bothReady],
      ∃ i, r = .ready (some (streamTransport ⟨0, ⟨1, 443⟩⟩ i)) :=
  ⟨rfl, rfl, (head_conn_starves rfl _ fun _ h => ⟨0, by simp at h; simp [h, bothReady]⟩).1⟩

end Flower.Quic
