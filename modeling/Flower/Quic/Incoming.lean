import Mathlib.Data.List.Nodup
/-!
# `Flower.Quic.Incoming` — one poll of the QUIC inbound stream

`proxy/quic/inbound/udp.rs` turns a QUIC endpoint into a stream of proxied
sessions.  Its `Incoming` holds the handshakes in progress (`connectings`),
the established connections (`new_conns`) and whether the endpoint's own
stream of handshakes has ended (`incoming_closed`).  One `poll_next`:

  * polls the inner `quinn::Incoming` once, unless it has ended, pushing the
    handshake it yields;
  * polls every handshake, collects the indices of those that completed,
    appends the connections of those that succeeded to `new_conns`, and
    removes the completed ones with `swap_remove`, highest index first;
  * polls the `bi_streams` of each connection in order up to the first that
    yields a stream, collects the indices of those that failed or ended, and
    removes them with `remove`, highest index first;
  * yields the stream, or ends when nothing is left, or is `Pending`.

`Incoming.pollNext` is that body, with every sub-poll's answer an input
(`Polls`, one answer per position the loops visit).  `Incoming.pollSpec`
says the same in the words of its contract, and `pollNext_refines` proves
the code meets it:

    connectings'  ~  the handshakes polled whose poll was Pending
    new_conns'    =  new_conns ++ established, minus the connections polled
                     dead before the first stream
    result        =  the first stream found, with its peer and index; else
                     Ready(None) iff closed and both lists empty; else Pending

The two removal loops are the hard part: `swap_remove` reorders the vector
as it goes, so for `connectings` only the multiset is kept, while `remove`
keeps the order of `new_conns`.  `swapRemove_fold_perm` and
`eraseIdx_fold` prove, for every list and every decreasing list of indices,
that the loops delete exactly the entries at those indices.

When a poll answers `Pending`, every handshake and connection it keeps
answered `Pending` in it (`pending_lists_polled`), but the inner incoming
need not have: `pending_misses_inner` is the lost wakeup, a poll that
returns `Pending` after the inner incoming answered `Ready`, so that no
source will wake the task for the next handshake.
-/

namespace Flower.Quic

/-- A peer's socket address, as `remote_address()` returns it. -/
structure SocketAddr where
  ip : Nat
  port : Nat
  deriving DecidableEq, Repr

instance instInhabitedSocketAddr : Inhabited SocketAddr := ⟨⟨0, 0⟩⟩

/-- `quinn::Connecting`: a handshake in progress, by identity. -/
structure Connecting where
  id : Nat
  deriving DecidableEq, Repr

instance instInhabitedConnecting : Inhabited Connecting := ⟨⟨0⟩⟩

/-- `quinn::NewConnection`: an established connection, by identity and peer. -/
structure NewConnection where
  id : Nat
  remoteAddress : SocketAddr
  deriving DecidableEq, Repr

instance instInhabitedNewConnection : Inhabited NewConnection := ⟨⟨0, default⟩⟩

/-- `Session`, as this code fills it: the peer and the stream's index; its
other fields keep their defaults. -/
structure Session where
  source : SocketAddr
  streamId : Option Nat
  deriving DecidableEq, Repr

/-- `QuicProxyStream { recv, send }`: a bidirectional stream, by its
connection and its index on it (`send.id().index()`). -/
structure QuicProxyStream where
  conn : Nat
  index : Nat
  deriving DecidableEq, Repr

/-- `AnyBaseInboundTransport::Stream(stream, sess)`, the one variant this
producer yields. -/
inductive Transport
  | stream (s : QuicProxyStream) (sess : Session)
  deriving DecidableEq, Repr

/-- `Poll<Option<Item>>`. -/
inductive PollNext
  | ready (item : Option Transport)
  | pending
  deriving DecidableEq, Repr

/-- What the inner `quinn::Incoming` answers. -/
inductive InnerPoll
  | ready (c : Connecting)
  | closed
  | pending
  deriving DecidableEq, Repr

/-- What a handshake answers. -/
inductive ConnectingPoll
  | ok (nc : NewConnection)
  | err
  | pending
  deriving DecidableEq, Repr

/-- What a connection's `bi_streams` answers: a stream with its index, an
error, its end, or `Pending`. -/
inductive BiPoll
  | stream (index : Nat)
  | err
  | ended
  | pending
  deriving DecidableEq, Repr

/-- `Incoming` (the inner `quinn::Incoming` apart, whose answers are `Polls`). -/
structure Incoming where
  connectings : List Connecting
  newConns : List NewConnection
  incomingClosed : Bool
  deriving DecidableEq, Repr

/-- `Incoming::new`. -/
def Incoming.new : Incoming := ⟨[], [], false⟩

/-- The answers of one `poll_next`'s sub-polls: the inner incoming's, and the
handshakes' and the connections' by the position the loops visit them at. -/
structure Polls where
  inner : InnerPoll
  connecting : Nat → ConnectingPoll
  bi : Nat → BiPoll

/-! ## The body of `poll_next` -/

/-- `Vec::swap_remove(i)`: the last element moves into slot `i`. -/
def swapRemove {α : Type} (l : List α) (i : Nat) : List α :=
  match l.getLast? with
  | some z => (l.set i z).dropLast
  | none => l

/-- The first step: poll the inner incoming unless it has ended. -/
def pollInner (s : Incoming) (r : InnerPoll) : Incoming :=
  if s.incomingClosed then s
  else match r with
    | .ready c => { s with connectings := s.connectings ++ [c] }
    | .closed => { s with incomingClosed := true }
    | .pending => s

/-- The handshake loop, from index `idx`: the connections of the handshakes
that completed `Ok`, in order, and the indices of all that completed. -/
def handshakeLoop (polls : Nat → ConnectingPoll) :
    Nat → List Connecting → List NewConnection × List Nat
  | _, [] => ([], [])
  | idx, _ :: cs =>
      let rest := handshakeLoop polls (idx + 1) cs
      match polls idx with
      | .ok nc => (nc :: rest.1, idx :: rest.2)
      | .err => (rest.1, idx :: rest.2)
      | .pending => rest

/-- The stream loop, from index `idx`: the first stream found, with its
connection, and the indices of the connections that failed or ended before
it (the loop `break`s at the stream). -/
def streamLoop (polls : Nat → BiPoll) :
    Nat → List NewConnection → Option (NewConnection × Nat) × List Nat
  | _, [] => (none, [])
  | idx, c :: cs =>
      match polls idx with
      | .stream i => (some (c, i), [])
      | .err | .ended =>
          let rest := streamLoop polls (idx + 1) cs
          (rest.1, idx :: rest.2)
      | .pending => streamLoop polls (idx + 1) cs

/-- The transport yielded for a stream of connection `c`. -/
def streamTransport (c : NewConnection) (i : Nat) : Transport :=
  .stream ⟨c.id, i⟩ ⟨c.remoteAddress, some i⟩

/-- The tail of `poll_next`: the stream found, if any; else the end when the
inner incoming has ended and both lists are empty; else `Pending`. -/
def pollResult (s' : Incoming) : Option (NewConnection × Nat) → PollNext
  | some (c, i) => .ready (some (streamTransport c i))
  | none => if s'.incomingClosed && s'.connectings.isEmpty && s'.newConns.isEmpty
      then .ready none else .pending

/-- `Incoming::poll_next`: the state after it, and its result. -/
def Incoming.pollNext (s : Incoming) (p : Polls) : Incoming × PollNext :=
  let s1 := pollInner s p.inner
  let hs := handshakeLoop p.connecting 0 s1.connectings
  let conns := s1.newConns ++ hs.1
  let st := streamLoop p.bi 0 conns
  let s' : Incoming := ⟨hs.2.reverse.foldl swapRemove s1.connectings,
    st.2.reverse.foldl List.eraseIdx conns, s1.incomingClosed⟩
  (s', pollResult s' st.1)

/-! ## Index-filtered lists

`keepIdx keep i l` is the sublist of the entries of `l`, numbered from `i`,
whose number satisfies `keep`: the removal loops are compared with it. -/

section Removal

variable {α : Type}

/-- The entries of `l`, numbered from `i`, whose number satisfies `keep`. -/
def keepIdx (keep : Nat → Bool) : Nat → List α → List α
  | _, [] => []
  | i, a :: l => if keep i then a :: keepIdx keep (i + 1) l else keepIdx keep (i + 1) l

theorem keepIdx_append (keep : Nat → Bool) (i : Nat) (l₁ l₂ : List α) :
    keepIdx keep i (l₁ ++ l₂) = keepIdx keep i l₁ ++ keepIdx keep (i + l₁.length) l₂ := by
  induction l₁ generalizing i with
  | nil => rfl
  | cons a l ih =>
    have e : i + 1 + l.length = i + (l.length + 1) := by omega
    rw [List.cons_append]
    simp only [keepIdx, ih, e, List.length_cons]
    split <;> rfl

/-- Only the numbers of the entries matter. -/
theorem keepIdx_congr {keep keep' : Nat → Bool} {i : Nat} {l : List α}
    (h : ∀ j, i ≤ j → j < i + l.length → keep j = keep' j) :
    keepIdx keep i l = keepIdx keep' i l := by
  induction l generalizing i with
  | nil => rfl
  | cons a l ih =>
    have hi : keep i = keep' i := h i le_rfl (by simp)
    have hl := @ih (i + 1) fun j h₁ h₂ => h j (by omega) (by simp at h₂ ⊢; omega)
    simp only [keepIdx, hi, hl]

theorem keepIdx_of_forall {keep : Nat → Bool} {i : Nat} {l : List α}
    (h : ∀ j, i ≤ j → j < i + l.length → keep j = true) : keepIdx keep i l = l := by
  induction l generalizing i with
  | nil => rfl
  | cons a l ih =>
    simp only [keepIdx, h i le_rfl (by simp), if_true]
    exact congrArg _ (@ih (i + 1) fun j h₁ h₂ => h j (by omega) (by simp at h₂ ⊢; omega))

theorem mem_keepIdx_iff {keep : Nat → Bool} {i : Nat} {l : List α} {x : α} :
    x ∈ keepIdx keep i l ↔ ∃ j, l[j]? = some x ∧ keep (i + j) = true := by
  induction l generalizing i with
  | nil => simp [keepIdx]
  | cons a l ih =>
    have tail : x ∈ keepIdx keep (i + 1) l ↔ ∃ j, (a :: l)[j + 1]? = some x ∧ keep (i + (j + 1)) := by
      simp only [ih, List.getElem?_cons_succ, ← Nat.add_assoc, Nat.add_right_comm i 1]
    rw [← Nat.or_exists_add_one, ← tail, keepIdx]
    split <;> rename_i hk <;> simp [hk, eq_comm]

theorem keepIdx_sublist (keep : Nat → Bool) (i : Nat) (l : List α) : (keepIdx keep i l).Sublist l := by
  induction l generalizing i with
  | nil => exact List.Sublist.slnil
  | cons a l ih =>
    simp only [keepIdx]
    split
    · exact (ih (i + 1)).cons₂ a
    · exact (ih (i + 1)).cons a

/-- Taking out the largest index `m` of a set of indices splits the list at `m`. -/
theorem keepIdx_not_mem_cons {m : Nat} {rs : List Nat} {a : List α} (hm : m < a.length)
    (hrs : ∀ r ∈ rs, r < m) :
    keepIdx (fun j => j ∉ m :: rs) 0 a = keepIdx (fun j => j ∉ rs) 0 (a.take m) ++ a.drop (m + 1) := by
  conv_lhs => rw [← List.take_append_drop m a, List.drop_eq_getElem_cons hm]
  have hlen : (a.take m).length = m := by simp; omega
  rw [keepIdx_append, hlen, keepIdx]
  refine congrArg₂ _ (keepIdx_congr fun j _ hj => ?_) ?_
  · have : j ≠ m := by omega
    simp [this]
  · rw [if_neg (by simp)]
    refine keepIdx_of_forall fun j hj _ => ?_
    have : j ∉ rs := fun h => absurd (hrs j h) (by omega)
    simp [this]; omega

/-- `Vec::swap_remove(m)` keeps the entries before `m` and permutes the rest. -/
theorem swapRemove_split {l : List α} {m : Nat} (hm : m < l.length) :
    ∃ x, swapRemove l m = l.take m ++ x ∧ x.Perm (l.drop (m + 1)) := by
  obtain ⟨p, y, r, rfl, rfl⟩ : ∃ p y r, l = p ++ y :: r ∧ m = p.length :=
    ⟨l.take m, l[m], l.drop (m + 1), by simp, by simp; omega⟩
  have hd : (p ++ y :: r).drop (p.length + 1) = r := by simp
  rw [List.take_left' rfl, hd]
  rcases List.eq_nil_or_concat r with rfl | ⟨r, z, rfl⟩
  · exact ⟨[], by simp [swapRemove, List.getLast?_append], List.Perm.refl _⟩
  · rw [List.concat_eq_append]
    refine ⟨z :: r, ?_, (List.perm_append_singleton z r).symm⟩
    have : p ++ y :: (r ++ [z]) = (p ++ y :: r) ++ [z] := by simp
    rw [swapRemove, this, List.getLast?_concat]
    dsimp only
    rw [List.set_append_left _ _ (by simp), List.set_append_right _ _ le_rfl]
    simp only [Nat.sub_self, List.set_cons_zero]
    exact List.dropLast_concat

/-- The `swap_remove` loop, highest index first, removes exactly the entries
at the indices it is given, up to order; the suffix `b` is only permuted. -/
theorem swapRemove_fold_perm {rs : List Nat} (hrs : rs.Pairwise (· > ·)) :
    ∀ {a b : List α}, (∀ r ∈ rs, r < a.length) →
      (rs.foldl swapRemove (a ++ b)).Perm (keepIdx (fun j => j ∉ rs) 0 a ++ b) := by
  induction rs with
  | nil => intro a b _; simp [keepIdx_of_forall]
  | cons m rs ih =>
    intro a b hlt
    obtain ⟨hgt, hrs⟩ := List.pairwise_cons.mp hrs
    have hm := hlt m (List.mem_cons_self _ _)
    obtain ⟨x, hx, hperm⟩ := swapRemove_split (l := a ++ b) (m := m) (by simp; omega)
    rw [List.take_append_of_le_length hm.le] at hx
    rw [List.drop_append_of_le_length (by omega)] at hperm
    rw [List.foldl_cons, hx, keepIdx_not_mem_cons hm hgt, List.append_assoc]
    exact (ih hrs fun r hr => by simpa [hm.le] using hgt r hr).trans (hperm.append_left _)

/-- The `remove` loop, highest index first, removes exactly the entries at the
indices it is given and keeps the order of the rest. -/
theorem eraseIdx_fold {rs : List Nat} (hrs : rs.Pairwise (· > ·)) :
    ∀ {a b : List α}, (∀ r ∈ rs, r < a.length) →
      rs.foldl List.eraseIdx (a ++ b) = keepIdx (fun j => j ∉ rs) 0 a ++ b := by
  induction rs with
  | nil => intro a b _; simp [keepIdx_of_forall]
  | cons m rs ih =>
    intro a b hlt
    obtain ⟨hgt, hrs⟩ := List.pairwise_cons.mp hrs
    have hm := hlt m (List.mem_cons_self _ _)
    rw [List.foldl_cons, List.eraseIdx_eq_take_drop_succ, List.take_append_of_le_length hm.le,
      List.drop_append_of_le_length (by omega), keepIdx_not_mem_cons hm hgt, List.append_assoc]
    exact ih hrs fun r hr => by simpa [hm.le] using hgt r hr

end Removal

/-! ## The contract of one poll

`pollSpec` says what one `poll_next` does in terms of positions: which
handshakes stay, which connections are added and which dropped, and what is
answered.  `pollNext_refines` proves the code does that, for every state and
every answer of every sub-poll. -/

/-- The handshake is still in progress. -/
def ConnectingPoll.isPending : ConnectingPoll → Bool
  | .pending => true
  | _ => false

/-- The connection a handshake established, if it completed `Ok`. -/
def ConnectingPoll.established : ConnectingPoll → Option NewConnection
  | .ok nc => some nc
  | _ => none

/-- The index of the stream `bi_streams` yielded, if it yielded one. -/
def BiPoll.streamIndex : BiPoll → Option Nat
  | .stream i => some i
  | _ => none

/-- `bi_streams` failed or ended. -/
def BiPoll.isDead : BiPoll → Bool
  | .err | .ended => true
  | _ => false

/-- The connection at position `j` answered an error or its end, and no
earlier position answered a stream. -/
def deadBeforeStream (bi : Nat → BiPoll) (j : Nat) : Bool :=
  (bi j).isDead && !(List.range j).any fun k => (bi k).streamIndex.isSome

/-- The first connection, by position, whose `bi_streams` yielded a stream,
with the stream's index. -/
def firstStream (bi : Nat → BiPoll) (conns : List NewConnection) : Option (NewConnection × Nat) :=
  conns.enum.findSome? fun e => (bi e.1).streamIndex.map (e.2, ·)

/-- The connections whose `bi_streams` one poll walks: the old ones, then
those whose handshake completed `Ok` in this poll, in order. -/
def Incoming.connsPolled (s : Incoming) (p : Polls) : List NewConnection :=
  (pollInner s p.inner).newConns ++
    (List.range (pollInner s p.inner).connectings.length).filterMap
      fun j => (p.connecting j).established

/-- The handshakes one poll works on, in the contract's words: those in
progress, then the one the inner incoming yields if it has not ended. -/
def Incoming.handshakesSpec (s : Incoming) (inner : InnerPoll) : List Connecting :=
  s.connectings ++ match s.incomingClosed, inner with
    | false, .ready c => [c]
    | _, _ => []

/-- After the poll the inner incoming has ended: it had, or it answers its
end now. -/
def Incoming.closedSpec (s : Incoming) (inner : InnerPoll) : Bool :=
  s.incomingClosed || inner == .closed

/-- The connections one poll walks, in the contract's words: the old ones,
then those of the handshakes that completed `Ok`, in order. -/
def Incoming.connsSpec (s : Incoming) (p : Polls) : List NewConnection :=
  s.newConns ++ (List.range (s.handshakesSpec p.inner).length).filterMap
    fun j => (p.connecting j).established

/-- One poll as its contract words it, with nothing taken from the code: the
handshakes left are those whose poll was `Pending`; the connections are those
walked, minus those that died before the first stream; the answer is the
first stream found, in a session whose source is its connection's peer and
whose stream id is its index, else the end exactly when the inner incoming
has ended and both lists are empty, else `Pending`. -/
def Incoming.pollSpec (s : Incoming) (p : Polls) : Incoming × PollNext :=
  let conns := s.connsSpec p
  let s' : Incoming := ⟨keepIdx (fun j => (p.connecting j).isPending) 0 (s.handshakesSpec p.inner),
    keepIdx (fun j => !deadBeforeStream p.bi j) 0 conns, s.closedSpec p.inner⟩
  (s', match firstStream p.bi conns with
    | some (nc, i) => .ready (some (.stream ⟨nc.id, i⟩ ⟨nc.remoteAddress, some i⟩))
    | none => if s'.incomingClosed = true ∧ s'.connectings = [] ∧ s'.newConns = [] then .ready none
      else .pending)

theorem pollInner_connectings (s : Incoming) (r : InnerPoll) :
    (pollInner s r).connectings = s.handshakesSpec r := by
  rcases s with ⟨cs, ncs, _ | _⟩ <;> cases r <;> simp [pollInner, Incoming.handshakesSpec]

theorem pollInner_incomingClosed (s : Incoming) (r : InnerPoll) :
    (pollInner s r).incomingClosed = s.closedSpec r := by
  rcases s with ⟨cs, ncs, _ | _⟩ <;> cases r <;> simp [pollInner, Incoming.closedSpec]

@[simp] theorem pollInner_newConns (s : Incoming) (r : InnerPoll) :
    (pollInner s r).newConns = s.newConns := by
  unfold pollInner; split
  · rfl
  · split <;> rfl

theorem connsPolled_eq_connsSpec (s : Incoming) (p : Polls) : s.connsPolled p = s.connsSpec p := by
  rw [Incoming.connsPolled, Incoming.connsSpec, pollInner_newConns, pollInner_connectings]

theorem handshakeLoop_eq (polls : Nat → ConnectingPoll) (idx : Nat) (cs : List Connecting) :
    handshakeLoop polls idx cs =
      ((List.range' idx cs.length).filterMap fun j => (polls j).established,
       (List.range' idx cs.length).filter fun j => !(polls j).isPending) := by
  induction cs generalizing idx with
  | nil => rfl
  | cons c cs ih =>
    rw [List.length_cons, List.range'_succ, handshakeLoop, ih, List.filterMap_cons, List.filter_cons]
    cases polls idx <;> simp [ConnectingPoll.established, ConnectingPoll.isPending]

theorem streamLoop_fst (bi : Nat → BiPoll) (idx : Nat) (cs : List NewConnection) :
    (streamLoop bi idx cs).1 = (cs.enumFrom idx).findSome? fun e => (bi e.1).streamIndex.map (e.2, ·) := by
  induction cs generalizing idx with
  | nil => rfl
  | cons c cs ih =>
    rw [streamLoop, List.enumFrom_cons, List.findSome?_cons]
    cases bi idx <;> simp [ih, BiPoll.streamIndex]

/-- The stream loop collects exactly the positions dead before the first
stream, provided no earlier position yielded one. -/
theorem streamLoop_snd (bi : Nat → BiPoll) (idx : Nat) (cs : List NewConnection)
    (h : ∀ k < idx, (bi k).streamIndex = none) :
    (streamLoop bi idx cs).2 = (List.range' idx cs.length).filter (deadBeforeStream bi) := by
  induction cs generalizing idx with
  | nil => rfl
  | cons c cs ih =>
    have hbefore : (List.range idx).any (fun k => (bi k).streamIndex.isSome) = false := by
      simpa [List.any_eq_false] using h
    rw [List.length_cons, List.range'_succ, streamLoop, List.filter_cons]
    cases hb : bi idx with
    | stream i =>
      have hafter : (List.range' (idx + 1) cs.length).filter (deadBeforeStream bi) = [] :=
        List.filter_eq_nil_iff.mpr fun j hj => by
          have hs : (List.range j).any (fun k => (bi k).streamIndex.isSome) = true :=
            List.any_eq_true.mpr ⟨idx, List.mem_range.mpr (List.mem_range'_1.mp hj).1,
              by simp [hb, BiPoll.streamIndex]⟩
          simp [deadBeforeStream, hs]
      simp [deadBeforeStream, hb, BiPoll.isDead, hafter]
    | err | ended | pending =>
      have h' : ∀ k < idx + 1, (bi k).streamIndex = none := fun k hk => by
        rcases Nat.lt_succ_iff_lt_or_eq.mp hk with hk | rfl
        · exact h k hk
        · simp [hb, BiPoll.streamIndex]
      simp [deadBeforeStream, hb, hbefore, BiPoll.isDead, ih _ h']

section Removal

variable {α : Type}

/-- The positions a loop collects are increasing, so in reverse they are
decreasing, and all lie in the list. -/
theorem filter_range'_reverse (drop : Nat → Bool) (n : Nat) :
    ((List.range' 0 n).filter drop).reverse.Pairwise (· > ·) ∧
      ∀ r ∈ ((List.range' 0 n).filter drop).reverse, r < n :=
  ⟨List.pairwise_reverse.mpr ((List.pairwise_lt_range' 0 n).filter drop),
   fun r hr => by simp [List.mem_range'_1] at hr; omega⟩

theorem keepIdx_not_mem_filter (drop : Nat → Bool) (l : List α) :
    keepIdx (fun j => j ∉ ((List.range' 0 l.length).filter drop).reverse) 0 l =
      keepIdx (fun j => !drop j) 0 l :=
  keepIdx_congr fun j _ hj => by simp [List.mem_range'_1, show j < l.length by omega]

theorem swapRemove_fold_filter (drop : Nat → Bool) (l : List α) :
    (((List.range' 0 l.length).filter drop).reverse.foldl swapRemove l).Perm
      (keepIdx (fun j => !drop j) 0 l) := by
  obtain ⟨hp, hlt⟩ := filter_range'_reverse drop l.length
  have h := @swapRemove_fold_perm α _ hp l [] hlt
  rwa [List.append_nil, List.append_nil, keepIdx_not_mem_filter] at h

theorem eraseIdx_fold_filter (drop : Nat → Bool) (l : List α) :
    ((List.range' 0 l.length).filter drop).reverse.foldl List.eraseIdx l =
      keepIdx (fun j => !drop j) 0 l := by
  obtain ⟨hp, hlt⟩ := filter_range'_reverse drop l.length
  have h := @eraseIdx_fold α _ hp l [] hlt
  rwa [List.append_nil, List.append_nil, keepIdx_not_mem_filter] at h

end Removal

/-- With no stream found, the answer depends on the handshakes left only
through whether there are any. -/
theorem pollResult_none {s t : Incoming} (hc : s.connectings.Perm t.connectings)
    (hn : s.newConns = t.newConns) (hi : s.incomingClosed = t.incomingClosed) :
    pollResult s none =
      if t.incomingClosed = true ∧ t.connectings = [] ∧ t.newConns = [] then .ready none
      else .pending := by
  simp only [pollResult, hc.isEmpty_eq, hn, hi, Bool.and_eq_true, List.isEmpty_iff, and_assoc]

/-- **The code meets the contract.**  For every state and every answer of
every sub-poll, `poll_next` leaves the same handshakes up to order, exactly
the same connections in the same order, and answers the same. -/
theorem pollNext_refines (s : Incoming) (p : Polls) :
    (s.pollNext p).1.connectings.Perm (s.pollSpec p).1.connectings ∧
    (s.pollNext p).1.newConns = (s.pollSpec p).1.newConns ∧
    (s.pollNext p).1.incomingClosed = (s.pollSpec p).1.incomingClosed ∧
    (s.pollNext p).2 = (s.pollSpec p).2 := by
  have hc : (s.pollNext p).1.connectings.Perm (s.pollSpec p).1.connectings := by
    simpa [Incoming.pollNext, Incoming.pollSpec, handshakeLoop_eq, pollInner_connectings] using
      swapRemove_fold_filter (fun j => !(p.connecting j).isPending) (s.handshakesSpec p.inner)
  have hn : (s.pollNext p).1.newConns = (s.pollSpec p).1.newConns := by
    simp only [Incoming.pollNext, Incoming.pollSpec, ← connsPolled_eq_connsSpec,
      Incoming.connsPolled, handshakeLoop_eq, List.range_eq_range']
    rw [streamLoop_snd _ _ _ fun k hk => absurd hk (Nat.not_lt_zero k), eraseIdx_fold_filter]
  have hi : (s.pollNext p).1.incomingClosed = (s.pollSpec p).1.incomingClosed :=
    pollInner_incomingClosed s p.inner
  refine ⟨hc, hn, hi, ?_⟩
  have hf : (streamLoop p.bi 0 ((pollInner s p.inner).newConns ++
      (handshakeLoop p.connecting 0 (pollInner s p.inner).connectings).1)).1 =
      firstStream p.bi (s.connsSpec p) := by
    rw [streamLoop_fst, handshakeLoop_eq, ← connsPolled_eq_connsSpec, Incoming.connsPolled,
      List.range_eq_range']; rfl
  show pollResult _ _ = _
  rw [hf]
  dsimp only [Incoming.pollSpec]
  rcases firstStream p.bi (s.connsSpec p) with _ | ⟨nc, i⟩
  · exact pollResult_none hc hn hi
  · rfl

/-! ## Wakeups

A `Pending` answer is only safe if every source that can still make
progress holds the task's waker, that is, was polled in this call and
answered `Pending`.  For the two lists that holds
(`pending_lists_polled`); for the inner incoming it does not: once it has
answered `Ready` it is not polled again in the call. -/

theorem streamIndex_of_firstStream {bi : Nat → BiPoll} {conns : List NewConnection}
    (h : firstStream bi conns = none) {j : Nat} {c : NewConnection} (hj : conns[j]? = some c) :
    (bi j).streamIndex = none := by
  simpa using List.findSome?_eq_none_iff.mp h (j, c) (List.mk_mem_enum_iff_getElem?.mpr hj)

theorem firstStream_of_pending {s : Incoming} {p : Polls} (h : (s.pollNext p).2 = .pending) :
    firstStream p.bi (s.connsPolled p) = none := by
  have h' := (pollNext_refines s p).2.2.2.symm.trans h
  rw [connsPolled_eq_connsSpec]
  rcases hf : firstStream p.bi (s.connsSpec p) with _ | ⟨c, i⟩
  · rfl
  · simp only [Incoming.pollSpec, hf] at h'
    cases h'

/-- When `poll_next` answers `Pending`, every handshake it keeps was polled
in the call and answered `Pending`, and so did every connection it keeps. -/
theorem pending_lists_polled (s : Incoming) (p : Polls) (h : (s.pollNext p).2 = .pending) :
    (∀ c ∈ (s.pollNext p).1.connectings,
      ∃ j, (pollInner s p.inner).connectings[j]? = some c ∧ p.connecting j = .pending) ∧
    (∀ nc ∈ (s.pollNext p).1.newConns,
      ∃ j, (s.connsPolled p)[j]? = some nc ∧ p.bi j = .pending) := by
  obtain ⟨hc, hn, -, -⟩ := pollNext_refines s p
  have hnone := firstStream_of_pending h
  constructor
  · intro c hmem
    obtain ⟨j, hj, hk⟩ := mem_keepIdx_iff.mp (hc.subset hmem)
    rw [← pollInner_connectings] at hj
    refine ⟨j, hj, ?_⟩
    rw [Nat.zero_add] at hk
    revert hk; cases p.connecting j <;> simp [ConnectingPoll.isPending]
  · intro nc hmem
    rw [hn, Incoming.pollSpec, ← connsPolled_eq_connsSpec] at hmem
    obtain ⟨j, hj, hk⟩ := mem_keepIdx_iff.mp hmem
    refine ⟨j, hj, ?_⟩
    have hno : ∀ k < (s.connsPolled p).length, (p.bi k).streamIndex = none := fun k hk =>
      streamIndex_of_firstStream hnone (List.getElem?_eq_getElem hk)
    obtain ⟨hlen, -⟩ := List.getElem?_eq_some_iff.mp hj
    have hany : (List.range j).any (fun k => (p.bi k).streamIndex.isSome) = false :=
      List.any_eq_false.mpr fun k hk => by simp [hno k (by simp at hk; omega)]
    have hs := hno j hlen
    simp only [Nat.zero_add, deadBeforeStream, hany] at hk
    revert hk hs; cases p.bi j <;> simp [BiPoll.isDead, BiPoll.streamIndex]

/-- A handshake and a connection in progress, and sub-polls where nothing
completes: the idle case of `pending_lists_polled`. -/
def idleIncoming : Incoming := ⟨[⟨0⟩], [⟨1, ⟨0, 0⟩⟩], false⟩

/-- See `idleIncoming`. -/
def idlePolls : Polls := ⟨.pending, fun _ => .pending, fun _ => .pending⟩

theorem pending_lists_polled_idle :
    (idleIncoming.pollNext idlePolls).2 = .pending ∧
    ∀ nc ∈ (idleIncoming.pollNext idlePolls).1.newConns,
      ∃ j, (idleIncoming.connsPolled idlePolls)[j]? = some nc ∧ idlePolls.bi j = .pending :=
  ⟨rfl, (pending_lists_polled idleIncoming idlePolls rfl).2⟩

/-- **Lost wakeup.**  A fresh `Incoming` whose inner incoming yields a
handshake that fails at once answers `Pending` with the inner incoming still
open, and nothing left to poll: no source was left holding the waker. -/
theorem pending_misses_inner : ∃ (s : Incoming) (p : Polls),
    (s.pollNext p).2 = .pending ∧ (s.pollNext p).1.incomingClosed = false ∧
    p.inner ≠ .pending ∧ (s.pollNext p).1.connectings = [] ∧ (s.pollNext p).1.newConns = [] :=
  ⟨.new, ⟨.ready ⟨0⟩, fun _ => .err, fun _ => .pending⟩, rfl, rfl, by decide, rfl, rfl⟩

end Flower.Quic
