import Mathlib.Logic.Function.Defs
/-!
# `Flower.Tls.Alpn` — the ALPN list of the TLS outbound (OpenSSL build)

`Handler::new` of `proxy/tls/outbound/tcp.rs`, built with `openssl-tls`,
encodes its ALPN names in the wire format of RFC 7301 and hands them to
OpenSSL:

    let wire = alpns.into_iter()
        .map(|a| [&[a.len() as u8], a.as_bytes()].concat())
        .collect::<Vec<Vec<u8>>>().concat();
    builder.set_alpn_protos(&wire).expect("set alpn failed");

A name is its UTF-8 bytes (`a.as_bytes()`, of length `a.len()`).  The length
is cast with `as u8`, which keeps it modulo 256.  `set_alpn_protos` is
OpenSSL's `SSL_CTX_set_alpn_protos`.  From OpenSSL 3.0 on it refuses a list
that is not well formed (`alpn_value_ok`); OpenSSL 1.1.1 copies any list.
`alpnValueOk` is the 3.x check, so `handlerNew` is `Handler::new` linked
against OpenSSL 3.x.  Every wire the results below feed it is well formed,
which both versions accept.

**Proved here.**

    names of 1 to 255 bytes: the wire reads back as the names, in order,
    and `Handler::new` succeeds                                    (`alpnWire_roundTrip`)
    a name of 258 bytes gives a well-formed wire that reads back as three
    other names, and `Handler::new` succeeds                       (`alpn_long_name_misread`)
    the wire reads back as the names iff every name is shorter than
    256 bytes                                                      (`alpnWire_faithful_iff`)
-/

namespace Flower.Tls

/-! ## The encoder and OpenSSL's check -/

/-- One name on the wire: its length `as u8`, then its bytes. -/
def alpnEntry (a : List UInt8) : List UInt8 :=
  UInt8.ofNat a.length :: a

/-- The wire string `Handler::new` builds from its ALPN names. -/
def alpnWire (alpns : List (List UInt8)) : List UInt8 :=
  (alpns.map alpnEntry).flatten

/-- Reading a wire string as RFC 7301 entries: a length byte and that many
bytes, repeated to the end.  Each entry takes at least one byte, so `fuel`
as large as the string is enough. -/
def parseEntries : Nat → List UInt8 → Option (List (List UInt8))
  | _, [] => some []
  | 0, _ :: _ => none
  | fuel + 1, n :: rest =>
    if n.toNat ≤ rest.length then
      (parseEntries fuel (rest.drop n.toNat)).map (rest.take n.toNat :: ·)
    else none

/-- The names a wire string stands for, if it is a list of entries. -/
def parseAlpn (wire : List UInt8) : Option (List (List UInt8)) :=
  parseEntries wire.length wire

/-- OpenSSL 3.x's check on a protocol list (`alpn_value_ok`): it is a
non-empty list of entries, none of them empty. -/
def alpnValueOk (wire : List UInt8) : Bool :=
  match parseAlpn wire with
  | some names => !names.isEmpty && names.all (!·.isEmpty)
  | none => false

/-- How `Handler::new` ends: with the wire string set on the connector
(`none` when no name was given), or in the panic of `expect`. -/
inductive NewOutcome
  | ok (wire : Option (List UInt8))
  | panic (msg : String)
  deriving DecidableEq, Repr

/-- `Handler::new` linked against OpenSSL 3.x, as far as the ALPN names go. -/
def handlerNew (alpns : List (List UInt8)) : NewOutcome :=
  if alpns.length > 0 then
    if alpnValueOk (alpnWire alpns) then .ok (some (alpnWire alpns)) else .panic "set alpn failed"
  else .ok none

/-! ## Names of 1 to 255 bytes -/

theorem alpnWire_cons (a : List UInt8) (alpns : List (List UInt8)) :
    alpnWire (a :: alpns) = UInt8.ofNat a.length :: (a ++ alpnWire alpns) := rfl

theorem parseEntries_cons (fuel : Nat) (n : UInt8) (rest : List UInt8) :
    parseEntries (fuel + 1) (n :: rest) =
      if n.toNat ≤ rest.length then
        (parseEntries fuel (rest.drop n.toNat)).map (rest.take n.toNat :: ·)
      else none := rfl

theorem parseEntries_alpnWire (alpns : List (List UInt8)) (h : ∀ a ∈ alpns, a.length < 256)
    (fuel : Nat) (hfuel : (alpnWire alpns).length ≤ fuel) :
    parseEntries fuel (alpnWire alpns) = some alpns := by
  induction alpns generalizing fuel with
  | nil => cases fuel <;> rfl
  | cons a alpns ih =>
    have ha : (UInt8.ofNat a.length).toNat = a.length :=
      Nat.mod_eq_of_lt (h a (List.mem_cons_self _ _))
    rw [alpnWire_cons, List.length_cons, List.length_append] at hfuel
    obtain ⟨fuel, rfl⟩ : ∃ f, fuel = f + 1 := ⟨fuel - 1, by omega⟩
    rw [alpnWire_cons, parseEntries_cons, ha, if_pos (by simp), List.drop_left, List.take_left,
      ih (fun b hb => h b (List.mem_cons_of_mem _ hb)) fuel (by omega)]
    rfl

theorem parseAlpn_alpnWire (alpns : List (List UInt8)) (h : ∀ a ∈ alpns, a.length < 256) :
    parseAlpn (alpnWire alpns) = some alpns :=
  parseEntries_alpnWire alpns h _ (Nat.le_refl _)

theorem alpnValueOk_alpnWire (alpns : List (List UInt8)) (hne : alpns ≠ [])
    (h : ∀ a ∈ alpns, 0 < a.length ∧ a.length < 256) : alpnValueOk (alpnWire alpns) = true := by
  simpa [alpnValueOk, parseAlpn_alpnWire alpns fun a ha => (h a ha).2, hne, List.all_eq_true]
    using fun a ha => List.ne_nil_of_length_pos (h a ha).1

/-- **Round trip.**  If every name has 1 to 255 bytes, `Handler::new`
succeeds and its wire string reads back as exactly the names, in order. -/
theorem alpnWire_roundTrip (alpns : List (List UInt8)) (hne : alpns ≠ [])
    (h : ∀ a ∈ alpns, 0 < a.length ∧ a.length < 256) :
    handlerNew alpns = .ok (some (alpnWire alpns)) ∧ parseAlpn (alpnWire alpns) = some alpns := by
  refine ⟨?_, parseAlpn_alpnWire alpns fun a ha => (h a ha).2⟩
  rw [handlerNew, if_pos (List.length_pos.mpr hne), if_pos (alpnValueOk_alpnWire alpns hne h)]

theorem alpnWire_roundTrip_h2 :
    [[104, 50], [104, 116, 116, 112, 47, 49, 46, 49]] ≠ ([] : List (List UInt8)) ∧
    parseAlpn (alpnWire [[104, 50], [104, 116, 116, 112, 47, 49, 46, 49]]) =
      some [[104, 50], [104, 116, 116, 112, 47, 49, 46, 49]] :=
  ⟨by decide, (alpnWire_roundTrip _ (by decide) (by decide)).2⟩

/-! ## A name of 258 bytes -/

/-- `c` repeated: 127 bytes. -/
def cs127 : List UInt8 := List.replicate 127 99

/-- An ASCII name of 258 bytes: `ab`, then twice DEL and 127 `c`s. -/
def longName : List UInt8 := [97, 98] ++ (127 :: cs127) ++ (127 :: cs127)

/-- The encoder is not injective: `longName` alone and the three names it
contains have the same wire string, since 258 is 2 modulo 256. -/
theorem cs127_length : cs127.length = 127 := List.length_replicate _ _

theorem longName_length : longName.length = 258 := by
  simp only [longName, List.length_append, List.length_cons, List.length_nil, cs127_length]

theorem longName_wire : alpnWire [longName] = alpnWire [[97, 98], cs127, cs127] := by
  simp only [alpnWire_cons, longName_length, cs127_length]
  simp [longName]

/-- **A long name is misread.**  For the one name `longName` (ASCII, so the
bytes of a Rust `String`), `Handler::new` succeeds, OpenSSL accepts the wire
string as well formed, and the wire reads back as the three names `ab`,
`c…c`, `c…c`. -/
theorem alpn_long_name_misread :
    (∀ b ∈ longName, b < 128) ∧ longName.length = 258 ∧
    handlerNew [longName] = .ok (some (alpnWire [longName])) ∧
    alpnValueOk (alpnWire [longName]) = true ∧
    parseAlpn (alpnWire [longName]) = some [[97, 98], cs127, cs127] := by
  have hlen : ∀ a ∈ [[97, 98], cs127, cs127], 0 < a.length ∧ a.length < 256 := by
    simp [cs127_length]
  have hok : alpnValueOk (alpnWire [longName]) = true := by
    rw [longName_wire]; exact alpnValueOk_alpnWire _ (by simp) hlen
  refine ⟨?_, longName_length, by rw [handlerNew, if_pos (by simp), if_pos hok], hok, ?_⟩
  · intro b hb
    simp only [longName, List.mem_append, List.mem_cons, List.not_mem_nil, or_false] at hb
    rcases hb with ((rfl | rfl) | (rfl | hb)) | (rfl | hb) <;>
      first | decide | (rw [List.eq_of_mem_replicate hb]; decide)
  · rw [longName_wire]; exact parseAlpn_alpnWire _ fun a ha => (hlen a ha).2

/-! ## Exactly the names shorter than 256 bytes -/

/-- A wire that reads back as its names was made from names shorter than
256 bytes: the first length byte is the first name's length modulo 256. -/
theorem length_lt_of_parseEntries (alpns : List (List UInt8)) (fuel : Nat)
    (h : parseEntries fuel (alpnWire alpns) = some alpns) : ∀ a ∈ alpns, a.length < 256 := by
  induction alpns generalizing fuel with
  | nil => simp
  | cons a alpns ih =>
    obtain _ | fuel := fuel
    · cases h
    rw [alpnWire_cons, parseEntries_cons] at h
    split at h
    · obtain ⟨l, hl, hla⟩ := Option.map_eq_some'.mp h
      obtain ⟨htake, rfl⟩ := List.cons.inj hla
      have hn : (UInt8.ofNat a.length).toNat = a.length := by
        have := congrArg List.length htake
        simp only [List.length_take, List.length_append] at this
        have : (UInt8.ofNat a.length).toNat ≤ a.length := Nat.mod_le _ _
        omega
      have ha : a.length < 256 := hn ▸ (UInt8.ofNat a.length).val.isLt
      rw [hn, List.drop_left] at hl
      exact List.forall_mem_cons.mpr ⟨ha, ih fuel hl⟩
    · cases h

/-- **The encoding is faithful exactly below 256 bytes.**  The wire string
of a list of names reads back as those names if and only if every name is
shorter than 256 bytes. -/
theorem alpnWire_faithful_iff (alpns : List (List UInt8)) :
    parseAlpn (alpnWire alpns) = some alpns ↔ ∀ a ∈ alpns, a.length < 256 :=
  ⟨length_lt_of_parseEntries alpns _, parseAlpn_alpnWire alpns⟩

end Flower.Tls
