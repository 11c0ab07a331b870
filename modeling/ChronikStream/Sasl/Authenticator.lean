import ChronikStream.Acl.Router
import ChronikStream.Lib.Run
import ChronikStream.Sasl.Scram

/-!
# The authenticator of a connection

A connection has an authenticator, which goes through a handshake and an exchange of one message (PLAIN) or two
(SCRAM), and an identity. A new handshake can come at any time; it leaves an exchange that was started in place.
The identity is set when an exchange is completed and at no other time.
-/

namespace ChronikStream.Sasl

variable {D : Type}

structure SaslUser (D : Type) where
  password : Option Text
  scramSha256 : Option (ScramCredential D)
  scramSha512 : Option (ScramCredential D)

def SaslUser.scramCredential (user : SaslUser D) : SaslMechanism → Option (ScramCredential D)
  | .scramSha256 => user.scramSha256
  | .scramSha512 => user.scramSha512
  | _ => none

inductive SaslState where
  | initial
  | handshakeComplete (mechanism : SaslMechanism)
  | authenticating
  | authenticated (username : Text)
  | failed (message : String)

structure SaslAuthenticator (D : Type) where
  users : Text → Option (SaslUser D)
  state : SaslState
  scramExchange : Option (ScramExchange D)
  negotiated : Option SaslMechanism

structure SaslHandshakeResponse where
  errorCode : Int
  enabledMechanisms : List String

structure SaslAuthenticateResponse where
  errorCode : Int
  errorMessage : Option String
  authBytes : Option Text
  sessionLifetimeMs : Option Nat
  deriving DecidableEq

def enabledMechanisms : List SaslMechanism := [.scramSha512, .scramSha256, .plain]

namespace SaslAuthenticator

variable (c : Crypto D) (a : SaslAuthenticator D)

def selectMechanism (mechanisms : List String) : Option SaslMechanism :=
  (mechanisms.filterMap SaslMechanism.fromStr).find? (enabledMechanisms.contains ·)

def handleHandshake (mechanisms : List String) : Except SaslError SaslHandshakeResponse × SaslAuthenticator D :=
  match selectMechanism mechanisms with
  | some mechanism =>
    (.ok ⟨0, enabledMechanisms.map SaslMechanism.asStr⟩,
      { a with state := .handshakeComplete mechanism, negotiated := some mechanism })
  | none => (.error (.unsupportedMechanism (", ".intercalate mechanisms)), a)

def completed (authBytes : Option Text) : SaslAuthenticateResponse :=
  ⟨0, none, authBytes, some 3600000⟩

def nul : Char := Char.ofNat 0

/-- The credentials of a PLAIN message. The bytes are read as a text with replacement characters. -/
def plainCredentials (authBytes : List UInt8) : Option (Text × Text) :=
  match (Utf8.fromUtf8Lossy authBytes).splitOn nul with
  | [[], username, password] => some (username, password)
  | _ => none

theorem plainCredentials_eq_some (h : plainCredentials authBytes = some (username, password)) :
    Utf8.fromUtf8Lossy authBytes = nul :: (username ++ nul :: password) := by
  rw [plainCredentials] at h
  split at h
  · rename_i u p hsplit
    cases h
    have hjoin : [nul].intercalate ((Utf8.fromUtf8Lossy authBytes).splitOn nul) = _ :=
      List.intercalate_splitOn nul
    rw [hsplit] at hjoin
    simpa [List.intercalate] using hjoin.symm
  · cases h

def handlePlainAuth (authBytes : List UInt8) :
    Except SaslError SaslAuthenticateResponse × SaslAuthenticator D :=
  match plainCredentials authBytes with
  | none => (.error (.protocolError "Invalid PLAIN auth format"), a)
  | some (username, password) =>
    if (a.users username).bind (·.password) = some password then
      (.ok (completed none), { a with state := .authenticated username })
    else (.error .invalidCredentials, { a with state := .failed "Invalid credentials" })

/-- Consume client-first, answer server-first. -/
def beginScramAuth (authBytes : List UInt8) (mechanism : SaslMechanism) (draws : Draws c) :
    Except SaslError SaslAuthenticateResponse × SaslAuthenticator D :=
  match ScramExchange.start c mechanism authBytes
      (fun username => (a.users username).bind (·.scramCredential mechanism)) draws with
  | .ok (exchange, serverFirst) =>
    (.ok ⟨0, none, some serverFirst, none⟩,
      { a with scramExchange := some exchange, state := .authenticating })
  | .error e => (.error e, a)

variable [DecidableEq D]

/-- Verify client-final, answer server-final. -/
def finishScramAuth (authBytes : List UInt8) :
    Except SaslError SaslAuthenticateResponse × SaslAuthenticator D :=
  match a.scramExchange with
  | none => (.error (.protocolError "No SCRAM exchange in progress"), a)
  | some exchange =>
    match exchange.finish c authBytes with
    | .ok serverFinal =>
      (.ok (completed (some serverFinal)),
        { a with scramExchange := none, state := .authenticated exchange.username })
    | .error e => (.error e, { a with scramExchange := none, state := .failed e.message })

def handleAuthenticate (authBytes : List UInt8) (draws : Draws c) :
    Except SaslError SaslAuthenticateResponse × SaslAuthenticator D :=
  match a.state with
  | .handshakeComplete .plain => a.handlePlainAuth authBytes
  | .handshakeComplete .scramSha256 => a.beginScramAuth c authBytes .scramSha256 draws
  | .handshakeComplete .scramSha512 => a.beginScramAuth c authBytes .scramSha512 draws
  | .handshakeComplete other => (.error (.unsupportedMechanism other.asStr), a)
  | .authenticating => a.finishScramAuth c authBytes
  | _ => (.error (.protocolError "Invalid state for authenticate"), a)

def username (a : SaslAuthenticator D) : Option Text :=
  match a.state with
  | .authenticated username => some username
  | _ => none

end SaslAuthenticator

/-! ## The connection -/

structure Connection (D : Type) where
  ctx : ConnectionContext
  authenticator : SaslAuthenticator D

namespace Connection

/-- A connection without a client certificate. -/
def new (mode : SaslMode) (peerIp : String) (users : Text → Option (SaslUser D)) : Connection D where
  ctx := ⟨mode, if mode = .disabled then .disabled else .unauthenticated, peerIp⟩
  authenticator := ⟨users, .initial, none, none⟩

def saslHandshake (conn : Connection D) (mechanisms : List String) :
    Except SaslError SaslHandshakeResponse × Connection D :=
  let r := conn.authenticator.handleHandshake mechanisms
  (r.1, { conn with authenticator := r.2 })

def saslAuthenticate (c : Crypto D) [DecidableEq D] (conn : Connection D) (authBytes : List UInt8)
    (draws : Draws c) : Except SaslError SaslAuthenticateResponse × Connection D :=
  let r := conn.authenticator.handleAuthenticate c authBytes draws
  let conn' := { conn with authenticator := r.2 }
  match r.1, r.2.username with
  | .ok response, some username =>
    (.ok response, { conn' with ctx.auth := .authenticated (String.ofList username) })
  | answer, _ => (answer, conn')

end Connection

/-! ## The requests of one connection -/

inductive Action (c : Crypto D) where
  | request (apiKey : Int)
  | saslHandshake (mechanisms : List String)
  | saslAuthenticate (authBytes : List UInt8) (draws : Draws c)

inductive Event where
  | request (apiKey : Int) (allowed : Bool)
  | saslHandshake (selected : Option SaslMechanism)
  | saslAuthenticate (authBytes : List UInt8) (answer : Except SaslError SaslAuthenticateResponse)
  deriving DecidableEq

/-- A connection and what has happened on it, the latest first. -/
structure Session (D : Type) where
  connection : Connection D
  events : List Event

namespace Session

variable (c : Crypto D) [DecidableEq D]

def step (s : Session D) : Action c → Option (Session D)
  | .request apiKey =>
    some { s with events := .request apiKey (s.connection.ctx.checkRequestAllowed apiKey) :: s.events }
  | .saslHandshake mechanisms =>
    some ⟨(s.connection.saslHandshake mechanisms).2,
      .saslHandshake (SaslAuthenticator.selectMechanism mechanisms) :: s.events⟩
  | .saslAuthenticate authBytes draws =>
    let r := s.connection.saslAuthenticate c authBytes draws
    some ⟨r.2, .saslAuthenticate authBytes r.1 :: s.events⟩

def machine (mode : SaslMode) (peerIp : String) (users : Text → Option (SaslUser D)) :
    Machine (Session D) (Action c) where
  init := ⟨.new mode peerIp users, []⟩
  step := step c

end Session

end ChronikStream.Sasl
