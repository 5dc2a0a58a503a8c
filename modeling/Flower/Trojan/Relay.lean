import Mathlib.Logic.Function.Defs
/-!
# `Flower.Trojan.Relay` — copying one direction of a relayed TCP session

`relay_tcp` splits both streams and runs `copy_tcp` in each direction:

    loop {
        let len = r.read(&mut buf).await?;     // up to 16 KiB; 0 is end of stream
        if len == 0 { break; }
        w.write(&buf[..len]).await?;           // returns how many bytes were taken
        w.flush().await?;
    }
    Ok(())

`copyTcp` is that loop over the answers of the two streams, one `Turn` per
pass; it records the bytes read from the source and the bytes the
destination took.  `AsyncWrite::write` may take any number of bytes from 1
to the number offered; the loop drops the count it returns.

**Proved here.**

    at every moment, the bytes taken are a subsequence of the bytes read   (`copyTcp_sublist`)
    if every write takes all it is offered, the bytes taken are exactly
    the bytes read, at every moment and at the end                          (`copyTcp_full_writes`)
    a short write loses the rest of its chunk, and `copy_tcp` still
    returns `Ok(())`                                                         (`copy_tcp_drops_short_write`)
-/

namespace Flower.Trojan

/-- What `read` answers: the bytes it put in the buffer (none at the end of
the stream), or an error. -/
inductive ReadAns
  | data (bytes : List UInt8)
  | err
  deriving DecidableEq, Repr

/-- The answers one pass of the loop gets: the read's, the write's (how many
bytes it took, or an error) and the flush's. -/
structure Turn where
  read : ReadAns
  write : Except Unit Nat
  flush : Except Unit Unit

/-- What the two streams have seen: the bytes read from the source, and
those the destination took. -/
structure Copied where
  read : List UInt8
  written : List UInt8
  deriving DecidableEq, Repr

/-- How `copy_tcp` stands after the answers given: it returned `Ok(())`, or
an error, or it is still running. -/
inductive Outcome
  | ok
  | err
  | running
  deriving DecidableEq, Repr

/-- `copy_tcp`, over the answers of its passes. -/
def copyTcp : List Turn → Copied → Copied × Outcome
  | [], c => (c, .running)
  | t :: ts, c =>
    match t.read with
    | .err => (c, .err)
    | .data [] => (c, .ok)
    | .data bytes =>
      match t.write with
      | .error _ => (⟨c.read ++ bytes, c.written⟩, .err)
      | .ok n =>
        let c' : Copied := ⟨c.read ++ bytes, c.written ++ bytes.take n⟩
        match t.flush with
        | .error _ => (c', .err)
        | .ok _ => copyTcp ts c'

/-- The `AsyncWrite` contract for this pass: a write of a non-empty chunk
takes from 1 to all of its bytes. -/
def Turn.writeOk (t : Turn) : Bool :=
  match t.read, t.write with
  | .data bytes, .ok n => bytes.isEmpty || (1 ≤ n && n ≤ bytes.length)
  | _, _ => true

/-- This pass's write takes the whole chunk. -/
def Turn.fullWrite (t : Turn) : Bool :=
  match t.read, t.write with
  | .data bytes, .ok n => bytes.length ≤ n
  | _, _ => true

/-! ## What every run keeps -/

/-- **Order is kept.**  At every moment of every run, whatever the writes
take, the bytes the destination took are a subsequence of the bytes read:
none is invented, duplicated or moved. -/
theorem copyTcp_sublist (ts : List Turn) (c : Copied) (h : c.written.Sublist c.read) :
    (copyTcp ts c).1.written.Sublist (copyTcp ts c).1.read := by
  induction ts generalizing c with
  | nil => exact h
  | cons t ts ih =>
    rw [copyTcp]
    rcases t.read with (_ | ⟨b, bytes⟩) | _
    · exact h
    · rcases t.write with _ | n
      · exact h.trans (List.sublist_append_left _ _)
      · have h' := h.append (List.take_sublist n (b :: bytes))
        rcases t.flush with _ | _
        · exact h'
        · exact ih _ h'
    · exact h

theorem copyTcp_sublist_a :
    ([] : List UInt8).Sublist [] ∧
    (copyTcp [⟨.data [97], .ok 0, .ok ()⟩] ⟨[], []⟩).1.written.Sublist
      (copyTcp [⟨.data [97], .ok 0, .ok ()⟩] ⟨[], []⟩).1.read :=
  ⟨.slnil, copyTcp_sublist _ _ .slnil⟩

/-- **Full writes deliver exactly.**  If every write takes its whole chunk,
the bytes taken are at every moment a prefix of the bytes read, and all of
them unless a stream failed: when `copy_tcp` returns `Ok(())` every byte
read was delivered, in order. -/
theorem copyTcp_full_writes (ts : List Turn) (hfull : ∀ t ∈ ts, t.fullWrite = true)
    (c : Copied) (h : c.written = c.read) :
    (copyTcp ts c).1.written <+: (copyTcp ts c).1.read ∧
      ((copyTcp ts c).2 ≠ .err → (copyTcp ts c).1.written = (copyTcp ts c).1.read) := by
  induction ts generalizing c with
  | nil => exact ⟨h ▸ List.prefix_refl _, fun _ => h⟩
  | cons t ts ih =>
    have ht := hfull t (List.mem_cons_self _ _)
    rw [copyTcp]
    rcases hr : t.read with (_ | ⟨b, bytes⟩) | _
    · exact ⟨h ▸ List.prefix_refl _, fun _ => h⟩
    · rcases hw : t.write with _ | n
      · exact ⟨h ▸ List.prefix_append _ _, fun hne => absurd rfl hne⟩
      · have hn : (b :: bytes).length ≤ n := by simpa [Turn.fullWrite, hr, hw] using ht
        have h' : c.written ++ (b :: bytes).take n = c.read ++ b :: bytes := by
          rw [h, List.take_of_length_le hn]
        rcases t.flush with _ | _
        · dsimp only
          exact ⟨h' ▸ List.prefix_refl _, fun hne => absurd rfl hne⟩
        · exact ih (fun t ht' => hfull t (List.mem_cons_of_mem _ ht')) _ h'
    · exact ⟨h ▸ List.prefix_refl _, fun hne => absurd rfl hne⟩

/-- The source sends `ab` and ends; the write takes both bytes. -/
def fullWrites : List Turn := [⟨.data [97, 98], .ok 2, .ok ()⟩, ⟨.data [], .ok 0, .ok ()⟩]

theorem copyTcp_full_writes_ab :
    (copyTcp fullWrites ⟨[], []⟩).2 = .ok ∧
    (copyTcp fullWrites ⟨[], []⟩).1.written = (copyTcp fullWrites ⟨[], []⟩).1.read :=
  ⟨rfl, (copyTcp_full_writes fullWrites (by decide) ⟨[], []⟩ rfl).2 (by decide)⟩

/-! ## A short write -/

/-- The source sends `ab`, then `c`, then ends; each write takes one byte. -/
def shortWrites : List Turn :=
  [⟨.data [97, 98], .ok 1, .ok ()⟩, ⟨.data [99], .ok 1, .ok ()⟩, ⟨.data [], .ok 0, .ok ()⟩]

/-- **A short write loses bytes.**  With writes that keep the `AsyncWrite`
contract, `copy_tcp` reads `abc`, the destination takes `ac`, which is not
a prefix of `abc`, and `copy_tcp` returns `Ok(())`. -/
theorem copy_tcp_drops_short_write :
    (∀ t ∈ shortWrites, t.writeOk = true) ∧
    copyTcp shortWrites ⟨[], []⟩ = (⟨[97, 98, 99], [97, 99]⟩, .ok) ∧
    ¬ ([97, 99] : List UInt8) <+: [97, 98, 99] :=
  ⟨by decide, rfl, by decide⟩

end Flower.Trojan
