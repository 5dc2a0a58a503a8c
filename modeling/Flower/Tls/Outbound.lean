import Flower.Tls.Certs
/-!
# `Flower.Tls.Outbound` — the outbound handlers' errors, and the QUIC client's roots

Three pieces of glue around the libraries decide an error kind or a panic:

  * the TLS outbound `Handler::handle` (`proxy/tls/outbound/tcp.rs`) picks
    the name to verify, `server_name` or else the destination's host, and
    wraps the stream it is given.  No stream is `Other` "invalid tls
    input"; in the `rustls-tls` build a name rustls does not take as a
    `ServerName` is `InvalidInput` "invalid dnsname"; every other failure of
    the TLS library goes through `tls_err`, `Other` "tls error";
  * the drop `Handler::handle` (`proxy/drop/tcp.rs`) fails with `Other`
    "dropped", whatever it is given;
  * `Manager::new` of the QUIC outbound (`proxy/quic/outbound/tcp.rs`) adds
    the configured certificate file, if any, to the bundled roots: a file
    that is not found is logged and skipped, any other read error panics,
    and so does a certificate `RootCertStore::add` refuses.

The libraries and the file system are parameters: what rustls makes of a
name, whether each openssl call and the handshake succeed, what `fs::read`
answers, and whether `RootCertStore::add` takes the bytes.  A stream is
`Option Unit`: only whether there is one matters here, and a TLS stream is
the name it was opened for.

**Proved here.**

    a TLS stream `handle` returns was opened for `server_name`, or for the
    destination's host when `server_name` is empty        (`tlsHandle_name`)
    every error it returns is one of its three, each with its kind and
    message; a missing stream is `Other`                  (`tlsHandle_error`)
    `Manager::new` never returns an error: it adds the file, skips a file
    that is not found, or panics                          (`managerRoots_cases`)
-/

namespace Flower.Tls

/-! ## The TLS outbound -/

/-- The TLS library a build links: the `rustls-tls` feature or the
`openssl-tls` one. -/
inductive TlsBuild
  | rustls
  | openssl
  deriving DecidableEq, Repr

/-- What the TLS library answers for the name `handle` passes it: whether
rustls takes it as a `ServerName`; whether openssl's `Ssl::new`,
`set_hostname` and `SslStream::new` succeed; and whether the handshake
does. -/
structure TlsLib where
  serverName : String → Bool
  sslNew : Bool
  setHostname : String → Bool
  streamNew : Bool
  handshake : String → Bool

/-- `tls_err`: any library error, as `Other` "tls error". -/
def tlsErr : IoError := ⟨.other, "tls error"⟩

/-- The name `handle` verifies: `server_name`, or the destination's host
when it is empty. -/
def tlsName (serverName destHost : String) : String :=
  if !serverName.isEmpty then serverName else destHost

/-- `Handler::handle` of the TLS outbound, given the stream to wrap, if
any: the TLS stream, named by the name it was opened for, or the error. -/
def tlsHandle (build : TlsBuild) (lib : TlsLib) (serverName destHost : String)
    (stream : Option Unit) : Except IoError String :=
  let name := tlsName serverName destHost
  match stream with
  | none => .error ⟨.other, "invalid tls input"⟩
  | some () =>
    match build with
    | .rustls =>
      if lib.serverName name then
        if lib.handshake name then .ok name else .error tlsErr
      else .error ⟨.invalidInput, "invalid dnsname"⟩
    | .openssl =>
      if lib.sslNew && lib.setHostname name && lib.streamNew && lib.handshake name then .ok name
      else .error tlsErr

variable {build : TlsBuild} {lib : TlsLib} {serverName destHost : String} {stream : Option Unit}

/-- **The name verified.**  Whatever the build and whatever the library
answers, a TLS stream `handle` returns wraps the stream it was given and was
opened for `server_name`, or for the destination's host when `server_name`
is empty. -/
theorem tlsHandle_name {n : String} (h : tlsHandle build lib serverName destHost stream = .ok n) :
    stream = some () ∧ n = tlsName serverName destHost := by
  rcases stream with _ | ⟨⟩
  · cases h
  · refine ⟨rfl, ?_⟩
    cases build <;> simp only [tlsHandle] at h <;> repeat' split at h
    all_goals first | exact (Except.ok.inj h).symm | cases h

/-- **Its errors.**  Every error `handle` returns is one of three: no
stream, `Other` "invalid tls input", in both builds; a name rustls does not
take, `InvalidInput` "invalid dnsname", in the `rustls-tls` build only;
every other failure, `tls_err`. -/
theorem tlsHandle_error {e : IoError} (h : tlsHandle build lib serverName destHost stream = .error e) :
    (stream = none ∧ e = ⟨.other, "invalid tls input"⟩) ∨
    (stream = some () ∧ build = .rustls ∧ lib.serverName (tlsName serverName destHost) = false ∧
      e = ⟨.invalidInput, "invalid dnsname"⟩) ∨
    (stream = some () ∧ e = tlsErr) := by
  rcases stream with _ | ⟨⟩
  · exact .inl ⟨rfl, (Except.error.inj h).symm⟩
  · cases build <;> simp only [tlsHandle] at h
    · split at h
      · split at h
        · cases h
        · exact .inr (.inr ⟨rfl, (Except.error.inj h).symm⟩)
      · rename_i hn
        exact .inr (.inl ⟨rfl, rfl, by simpa using hn, (Except.error.inj h).symm⟩)
    · split at h
      · cases h
      · exact .inr (.inr ⟨rfl, (Except.error.inj h).symm⟩)

/-! ## The drop outbound -/

/-- The drop `Handler::handle`: whatever the session and the stream,
`Other` "dropped". -/
def dropHandle : Except IoError Unit := .error ⟨.other, "dropped"⟩

/-! ## The QUIC client's roots -/

/-- The certificates `Manager::new` adds to the bundled roots: the bytes of
the configured file, read by `fs::read` and added by `RootCertStore::add`
(unwrapped); none when no file is configured or it is not found. -/
def managerRoots (certificate : Option String) (read : String → Except IoError (List UInt8))
    (add : List UInt8 → Except Unit Unit) : Res (List (List UInt8)) :=
  match certificate with
  | none => .ok []
  | some path =>
    match read path with
    | .ok cert =>
      match add cert with
      | .ok () => .ok [cert]
      | .error () => .panic "called unwrap on an Err value"
    | .error e =>
      if e.kind = .notFound then .ok [] else .panic ("read certificate " ++ path ++ " failed: " ++ e.msg)

/-- **No setup error.**  Whatever the file system and rustls answer,
`Manager::new` never returns an error: it adds the configured file's bytes
as one root when they read and rustls takes them; it adds nothing when no
file is configured or the file is not found; and it panics otherwise. -/
theorem managerRoots_cases (certificate : Option String)
    (read : String → Except IoError (List UInt8)) (add : List UInt8 → Except Unit Unit) :
    (∃ path cert, certificate = some path ∧ read path = .ok cert ∧ add cert = .ok () ∧
      managerRoots certificate read add = .ok [cert]) ∨
    (managerRoots certificate read add = .ok [] ∧ (certificate = none ∨
      ∃ path e, certificate = some path ∧ read path = .error e ∧ e.kind = .notFound)) ∨
    ∃ msg, managerRoots certificate read add = .panic msg := by
  rcases certificate with _ | path
  · exact .inr (.inl ⟨rfl, .inl rfl⟩)
  · rcases hr : read path with e | cert
    · by_cases hk : e.kind = .notFound
      · exact .inr (.inl ⟨by simp [managerRoots, hr, hk], .inr ⟨path, e, rfl, hr, hk⟩⟩)
      · exact .inr (.inr ⟨"read certificate " ++ path ++ " failed: " ++ e.msg,
          by simp [managerRoots, hr, hk]⟩)
    · rcases ha : add cert with ⟨⟩ | ⟨⟩
      · exact .inr (.inr ⟨"called unwrap on an Err value", by simp [managerRoots, hr, ha]⟩)
      · exact .inl ⟨path, cert, rfl, hr, ha, by simp [managerRoots, hr, ha]⟩

end Flower.Tls
