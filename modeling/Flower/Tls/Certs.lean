import Mathlib.Logic.Function.Defs
/-!
# `Flower.Tls.Certs` — loading the certificate chain and the private key

Two inbound handlers load a certificate file and a key file:

  * the TLS inbound (`proxy/tls/inbound/tcp.rs`, `rustls-tls` build):
    `load_certs` unwraps the PEM reading, `load_keys` collects the PKCS#8
    keys then the RSA keys, and `Handler::new` takes `keys.remove(0)`;
  * the QUIC inbound (`proxy/quic/inbound/udp.rs`, `Handler::handle`): a
    `der` extension means the whole file; otherwise the first PKCS#8 key,
    else the first RSA key, else an empty key; the PEM readings are
    unwrapped; so is `with_single_cert`.

A file is modelled by its extension, its bytes, and what `rustls_pemfile`
reads from them (its items in order, or a malformed section).  Rustls'
`with_single_cert` is a parameter: it accepts or refuses a chain and a key.
Each construction ends in a server config, an `io::Error`, or a panic.

`loadRule` is the loading rule of the specification, in its words.

**Proved here.**

    when the rule finds a chain and a key, the QUIC inbound builds from
    exactly them                                                     (`quicHandle_follows_rule`)
    so does the TLS inbound, when neither file has the `der` extension
                                                                     (`tlsHandlerNew_follows_rule`)
    a key file with no key: the rule gives `InvalidInput`, the TLS
    inbound panics, the QUIC inbound hands rustls an empty key        (`keyless_file_panics`)
-/

namespace Flower.Tls

/-! ## Files and their PEM items -/

/-- An item `rustls_pemfile` reads: a certificate, a PKCS#8 key or an RSA
(PKCS#1) key, each as its DER bytes, or a section of another kind. -/
inductive PemItem
  | cert (der : List UInt8)
  | pkcs8Key (der : List UInt8)
  | rsaKey (der : List UInt8)
  | other
  deriving DecidableEq, Repr

instance instInhabitedPemItem : Inhabited PemItem := ⟨.other⟩

/-- A file that can be read: the extension of its path, its bytes, and its
PEM items (an error if a section is malformed). -/
structure File where
  ext : Option String
  bytes : List UInt8
  pem : Except Unit (List PemItem)

/-- `Path::new(p).extension().map_or(false, |x| x == "der")`. -/
def File.isDer (f : File) : Bool := f.ext == some "der"

def PemItem.certDer : PemItem → Option (List UInt8)
  | .cert der => some der
  | _ => none

def PemItem.pkcs8Der : PemItem → Option (List UInt8)
  | .pkcs8Key der => some der
  | _ => none

def PemItem.rsaDer : PemItem → Option (List UInt8)
  | .rsaKey der => some der
  | _ => none

/-- `rustls_pemfile::certs`. -/
def certs (f : File) : Except Unit (List (List UInt8)) := f.pem.map (·.filterMap PemItem.certDer)

/-- `rustls_pemfile::pkcs8_private_keys`. -/
def pkcs8PrivateKeys (f : File) : Except Unit (List (List UInt8)) :=
  f.pem.map (·.filterMap PemItem.pkcs8Der)

/-- `rustls_pemfile::rsa_private_keys`. -/
def rsaPrivateKeys (f : File) : Except Unit (List (List UInt8)) :=
  f.pem.map (·.filterMap PemItem.rsaDer)

/-- `io::ErrorKind`, the kinds used here. -/
inductive ErrorKind
  | invalidInput
  | notFound
  | other
  deriving DecidableEq, Repr

/-- `io::Error`: a kind and a message. -/
structure IoError where
  kind : ErrorKind
  msg : String
  deriving DecidableEq, Repr

/-- How a loading step ends: a value, an error returned, or a panic. -/
inductive Res (α : Type)
  | ok (a : α)
  | err (e : IoError)
  | panic (msg : String)
  deriving DecidableEq, Repr

/-- How a construction ends: a server config from this chain and key, an
error, or a panic. -/
inductive Built
  | config (chain : List (List UInt8)) (key : List UInt8)
  | err (e : IoError)
  | panic (msg : String)
  deriving DecidableEq, Repr

/-- Rustls' `with_single_cert`: it accepts the chain and key, or refuses
them with a message. -/
abbrev SingleCert := List (List UInt8) → List UInt8 → Except String Unit

/-! ## The TLS inbound -/

/-- `load_certs`: the PEM reading is unwrapped. -/
def loadCerts (f : File) : Res (List (List UInt8)) :=
  match certs f with
  | .ok bufs => .ok bufs
  | .error _ => .panic "invalid cert"

/-- `load_keys`: the PKCS#8 keys, then the RSA keys. -/
def loadKeys (f : File) : Res (List (List UInt8)) :=
  match pkcs8PrivateKeys f, rsaPrivateKeys f with
  | .ok keys, .ok keys2 => .ok (keys ++ keys2)
  | _, _ => .err ⟨.invalidInput, "invalid key"⟩

/-- `Handler::new` of the TLS inbound. -/
def tlsHandlerNew (singleCert : SingleCert) (cert key : File) : Built :=
  match loadCerts cert with
  | .err e => .err e
  | .panic m => .panic m
  | .ok chain =>
    match loadKeys key with
    | .err e => .err e
    | .panic m => .panic m
    | .ok [] => .panic "removal index (is 0) should be < len (is 0)"
    | .ok (k :: _) =>
      match singleCert chain k with
      | .ok () => .config chain k
      | .error msg => .err ⟨.invalidInput, msg⟩

/-! ## The QUIC inbound -/

/-- The key of `Handler::handle`: the whole file if `der`, else the first
PKCS#8 key, else the first RSA key, else an empty key. -/
def quicKey (f : File) : Res (List UInt8) :=
  if f.isDer then .ok f.bytes
  else
    match pkcs8PrivateKeys f with
    | .error _ => .panic "called unwrap on an Err value"
    | .ok (k :: _) => .ok k
    | .ok [] =>
      match rsaPrivateKeys f with
      | .error _ => .panic "malformed PKCS #1 private key"
      | .ok (k :: _) => .ok k
      | .ok [] => .ok []

/-- The chain of `Handler::handle`: the whole file if `der`, else its PEM
certificates. -/
def quicChain (f : File) : Res (List (List UInt8)) :=
  if f.isDer then .ok [f.bytes]
  else
    match certs f with
    | .ok bufs => .ok bufs
    | .error _ => .panic "invalid PEM-encoded certificate"

/-- `Handler::handle` of the QUIC inbound, up to the server config. -/
def quicHandle (singleCert : SingleCert) (cert key : File) : Built :=
  match quicKey key with
  | .err e => .err e
  | .panic m => .panic m
  | .ok k =>
    match quicChain cert with
    | .err e => .err e
    | .panic m => .panic m
    | .ok chain =>
      match singleCert chain k with
      | .ok () => .config chain k
      | .error _ => .panic "called unwrap on an Err value"

/-! ## The loading rule -/

/-- The specification's chain: the whole file as one DER certificate when
the extension is `der`, else its PEM certificates in order. -/
def ruleChain (f : File) : Except IoError (List (List UInt8)) :=
  if f.isDer then .ok [f.bytes]
  else
    match certs f with
    | .ok bufs => .ok bufs
    | .error _ => .error ⟨.invalidInput, "invalid cert"⟩

/-- The specification's key: the whole file when `der`, else the first
PKCS#8 key, else the first PKCS#1 key; none is `InvalidInput`. -/
def ruleKey (f : File) : Except IoError (List UInt8) :=
  if f.isDer then .ok f.bytes
  else
    match pkcs8PrivateKeys f, rsaPrivateKeys f with
    | .ok (k :: _), _ => .ok k
    | .ok [], .ok (k :: _) => .ok k
    | .ok [], .ok [] => .error ⟨.invalidInput, "malformed key"⟩
    | _, _ => .error ⟨.invalidInput, "invalid key"⟩

/-- The specification's loading rule: the chain and the key, or an
`InvalidInput` error. -/
def loadRule (cert key : File) : Except IoError (List (List UInt8) × List UInt8) :=
  match ruleChain cert, ruleKey key with
  | .ok chain, .ok k => .ok (chain, k)
  | .error e, _ => .error e
  | .ok _, .error e => .error e

/-- What a construction should end in, given the rule's answer. -/
def Built.ofRule (singleCert : SingleCert) :
    Except IoError (List (List UInt8) × List UInt8) → Built
  | .error e => .err e
  | .ok (chain, k) =>
    match singleCert chain k with
    | .ok () => .config chain k
    | .error msg => .err ⟨.invalidInput, msg⟩

theorem loadRule_eq_ok {cert key : File} {chain : List (List UInt8)} {k : List UInt8}
    (h : loadRule cert key = .ok (chain, k)) : ruleChain cert = .ok chain ∧ ruleKey key = .ok k := by
  unfold loadRule at h
  split at h <;> simp_all

/-! ## Both loaders against the rule -/

theorem quicChain_of_rule {f : File} {chain : List (List UInt8)} (h : ruleChain f = .ok chain) :
    quicChain f = .ok chain := by
  unfold ruleChain at h; unfold quicChain
  split
  · simp_all
  · rcases hc : certs f with _ | bufs <;> simp_all

theorem quicKey_of_rule {f : File} {k : List UInt8} (h : ruleKey f = .ok k) : quicKey f = .ok k := by
  unfold ruleKey at h; unfold quicKey
  split
  · simp_all
  · rcases h1 : pkcs8PrivateKeys f with _ | (_ | ⟨k1, ks⟩) <;>
      rcases h2 : rsaPrivateKeys f with _ | (_ | ⟨k2, ks2⟩) <;> simp_all

theorem loadCerts_of_rule {f : File} (hd : f.isDer = false) {chain : List (List UInt8)}
    (h : ruleChain f = .ok chain) : loadCerts f = .ok chain := by
  unfold ruleChain at h; unfold loadCerts
  rcases hc : certs f with _ | bufs <;> simp_all

theorem loadKeys_of_rule {f : File} (hd : f.isDer = false) {k : List UInt8}
    (h : ruleKey f = .ok k) : ∃ rest, loadKeys f = .ok (k :: rest) := by
  rcases f with ⟨ext, bytes, _ | items⟩
  · simp [ruleKey, hd, pkcs8PrivateKeys, rsaPrivateKeys, Except.map] at h
  · simp only [ruleKey, hd, pkcs8PrivateKeys, rsaPrivateKeys, Except.map, loadKeys] at h ⊢
    rcases h1 : items.filterMap PemItem.pkcs8Der with _ | ⟨k1, ks⟩ <;>
      rcases h2 : items.filterMap PemItem.rsaDer with _ | ⟨k2, ks2⟩ <;> simp_all

/-- **The QUIC inbound follows the rule** whenever the rule finds a chain and
a key: it hands `with_single_cert` exactly them (and panics if rustls refuses
them, where the rule would return an error). -/
theorem quicHandle_follows_rule (singleCert : SingleCert) (cert key : File)
    (chain : List (List UInt8)) (k : List UInt8) (h : loadRule cert key = .ok (chain, k)) :
    quicHandle singleCert cert key =
      match singleCert chain k with
      | .ok () => .config chain k
      | .error _ => .panic "called unwrap on an Err value" := by
  obtain ⟨hc, hk⟩ := loadRule_eq_ok h
  simp only [quicHandle, quicKey_of_rule hk, quicChain_of_rule hc]

/-- The rule finds a chain and a key in a PEM certificate file and a PEM
PKCS#8 key file, and rustls accepts them. -/
def pemCert : File := ⟨some "pem", [], .ok [.cert [1]]⟩

/-- See `pemCert`. -/
def pemKey : File := ⟨some "pem", [], .ok [.pkcs8Key [2]]⟩

theorem quicHandle_follows_rule_pem :
    loadRule pemCert pemKey = .ok ([[1]], [2]) ∧
    quicHandle (fun _ _ => .ok ()) pemCert pemKey = .config [[1]] [2] :=
  ⟨rfl, quicHandle_follows_rule _ _ _ _ _ rfl⟩

/-- **The TLS inbound follows the rule** when neither file has the `der`
extension and the rule finds a chain and a key. -/
theorem tlsHandlerNew_follows_rule (singleCert : SingleCert) (cert key : File)
    (hc : cert.isDer = false) (hk : key.isDer = false)
    (chain : List (List UInt8)) (k : List UInt8) (h : loadRule cert key = .ok (chain, k)) :
    tlsHandlerNew singleCert cert key = Built.ofRule singleCert (loadRule cert key) := by
  obtain ⟨hrc, hrk⟩ := loadRule_eq_ok h
  obtain ⟨rest, hkeys⟩ := loadKeys_of_rule hk hrk
  rw [h, tlsHandlerNew, loadCerts_of_rule hc hrc, hkeys]
  rfl

theorem tlsHandlerNew_follows_rule_pem :
    loadRule pemCert pemKey = .ok ([[1]], [2]) ∧
    tlsHandlerNew (fun _ _ => .ok ()) pemCert pemKey = .config [[1]] [2] :=
  ⟨rfl, tlsHandlerNew_follows_rule (fun _ _ => .ok ()) pemCert pemKey rfl rfl [[1]] [2] rfl⟩

/-! ## A key file with no key -/

/-- A certificate in DER form, and an empty key file. -/
def derCert : File := ⟨some "der", [48, 3, 2, 1, 0], .ok []⟩

/-- See `derCert`. -/
def emptyKey : File := ⟨some "pem", [], .ok []⟩

/-- **A keyless key file.**  The rule answers `InvalidInput` ("malformed
key"); the TLS inbound panics in `keys.remove(0)`; the QUIC inbound hands
`with_single_cert` an empty key, and either builds a server config from it
or panics, whatever rustls answers. -/
theorem keyless_file_panics :
    loadRule derCert emptyKey = .error ⟨.invalidInput, "malformed key"⟩ ∧
    (∀ singleCert : SingleCert, tlsHandlerNew singleCert derCert emptyKey =
      .panic "removal index (is 0) should be < len (is 0)") ∧
    ∀ singleCert : SingleCert,
      quicHandle singleCert derCert emptyKey = .config [[48, 3, 2, 1, 0]] [] ∨
      quicHandle singleCert derCert emptyKey = .panic "called unwrap on an Err value" := by
  refine ⟨rfl, fun _ => rfl, fun singleCert => ?_⟩
  have hq : quicHandle singleCert derCert emptyKey =
      match singleCert [[48, 3, 2, 1, 0]] [] with
      | .ok () => .config [[48, 3, 2, 1, 0]] []
      | .error _ => .panic "called unwrap on an Err value" := rfl
  rw [hq]
  cases singleCert [[48, 3, 2, 1, 0]] [] <;> simp

end Flower.Tls
