import ChronikStream.Sasl.Authenticator

/-!
# What lets a request through the authentication gate

With SASL required, a request is let through only after a completed exchange on the connection, and
the principal is the user of the latest one (`LatestSuccess`). A PLAIN message is read with
replacement characters, so a password that has one is also met by other bytes
(`replaced_password_accepted`).
-/

namespace ChronikStream.Sasl

open Machine SaslAuthenticator Option Utf8 List

variable {D : Type} (c : Crypto D)

/-! ## Completed exchanges -/

/-- The mechanism of the latest handshake that was accepted. -/
def negotiatedBy : List Event → Option SaslMechanism
  | .saslHandshake (some mechanism) :: _ => some mechanism
  | _ :: events => negotiatedBy events
  | [] => none

def Event.completes : Event → Bool
  | .saslAuthenticate _ (.ok response) => response.sessionLifetimeMs.isSome
  | _ => false

/-- Events that do not end an exchange. -/
def Event.keepsExchange : Event → Bool
  | .saslAuthenticate .. => false
  | .saslHandshake selected => selected.isNone
  | .request .. => true

/-- The latest message of an exchange was `first`, answered with `serverFirst`. -/
structure Issued (events : List Event) (mechanism : SaslMechanism) (first : ClientFirst) (serverFirst : Text) :
    Prop where
  negotiated : negotiatedBy events = some mechanism
  answered : ∃ between clientFirst response before,
    events = between ++ .saslAuthenticate clientFirst (.ok response) :: before ∧
      (∀ event ∈ between, event.keepsExchange = true) ∧ ClientFirst.parse clientFirst = .ok first ∧
      response.authBytes = some serverFirst

/-- What a message that completes an exchange proves, after `events`. -/
inductive Proves (users : Text → Option (SaslUser D)) (events : List Event) (authBytes : List UInt8) :
    Text → Prop where
  | plain {user : SaslUser D} {username password : Text} {name : List UInt8} :
      negotiatedBy events = some .plain → users username = some user → user.password = some password →
      fromUtf8Lossy authBytes = nul :: (username ++ nul :: password) →
      authBytes = 0 :: (name ++ 0 :: encode password) → Proves users events authBytes username
  | scram {user : SaslUser D} {mechanism : SaslMechanism} {first : ClientFirst} {nonce : Text}
      {credential : ScramCredential D} {final : ClientFinal D} :
      Issued events mechanism first (serverFirstMessage c (first.nonce ++ nonce) credential) →
      users first.username = some user → user.scramCredential mechanism = some credential →
      ClientFinal.parse c (first.nonce ++ nonce) authBytes = .ok final →
      ValidProof c mechanism credential.storedKey
        (join [first.bare, serverFirstMessage c (first.nonce ++ nonce) credential, final.withoutProof])
        final.proof →
      Proves users events authBytes first.username

/-- The latest exchange that was completed is one of this user. -/
inductive LatestSuccess (users : Text → Option (SaslUser D)) : List Event → Text → Prop where
  | here {events : List Event} {authBytes : List UInt8} {response : SaslAuthenticateResponse} {username : Text} :
      (Event.saslAuthenticate authBytes (.ok response)).completes = true →
      Proves c users events authBytes username →
      LatestSuccess users (.saslAuthenticate authBytes (.ok response) :: events) username
  | earlier {events : List Event} {event : Event} {username : Text} :
      event.completes = false → LatestSuccess users events username →
      LatestSuccess users (event :: events) username

/-- Every request that was let through, other than ApiVersions, SaslHandshake and SaslAuthenticate,
came after a completed exchange. -/
def LetThrough (users : Text → Option (SaslUser D)) (events : List Event) : Prop :=
  ∀ after apiKey before, events = after ++ .request apiKey true :: before → apiKey ∉ [17, 18, 36] →
    ∃ username, LatestSuccess c users before username

/-- The identity is that of the latest completed exchange, if there was one. -/
def Identity (users : Text → Option (SaslUser D)) (auth : AuthState) (events : List Event) : Prop :=
  (auth = .unauthenticated ∧ ∀ event ∈ events, event.completes = false) ∨
    ∃ username, auth = .authenticated (String.ofList username) ∧ LatestSuccess c users events username

variable {c} {a : SaslAuthenticator D} {authBytes : List UInt8} {draws : Draws c} {username password : Text}
  {users : Text → Option (SaslUser D)}

/-- If the password has no replacement character, the message ends with its bytes. -/
theorem exists_name_of_plainCredentials (hp : replacement ∉ password)
    (h : plainCredentials authBytes = some (username, password)) :
    ∃ name, authBytes = 0 :: (name ++ 0 :: encode password) := by
  have hdec := plainCredentials_eq_some h
  have hnul : nul ≠ replacement := by decide
  obtain ⟨chunk, rest, rfl, hrest, hchunk⟩ := eq_append_of_fromUtf8Lossy hdec
  have htail : replacement ∉ nul :: password := by
    intro hm
    rcases mem_cons.1 hm with hm | hm
    · exact hnul hm.symm
    · exact hp hm
  obtain ⟨name, rfl⟩ := exists_append_encode_of_fromUtf8Lossy htail hrest
  refine ⟨name, ?_⟩
  rw [hchunk hnul]
  rfl

/-! ## The invariant of a connection -/

/-- The exchange was started in answer to the latest message. -/
structure Current (c : Crypto D) (users : Text → Option (SaslUser D)) (events : List Event)
    (e : ScramExchange D) (first : ClientFirst) (draws : Draws c) : Prop where
  issued : Issued events e.mechanism first e.serverFirst
  username : e.username = first.username
  bare : e.clientFirstBare = first.bare
  nonce : e.combinedNonce = first.nonce ++ draws.nonce
  serverFirst : e.serverFirst = serverFirstMessage c e.combinedNonce e.credential
  credential : e.credential =
    (((users first.username).bind (·.scramCredential e.mechanism)).filter (·.mechanism = e.mechanism)).getD
      (dummyCredential c e.mechanism draws)

structure Inv (c : Crypto D) (users : Text → Option (SaslUser D)) (s : Session D) : Prop where
  users_eq : s.connection.authenticator.users = users
  required : s.connection.ctx.mode = .required
  negotiated : ∀ mechanism, s.connection.authenticator.state = .handshakeComplete mechanism →
    negotiatedBy s.events = some mechanism
  exchange : s.connection.authenticator.state = .authenticating →
    ∃ e first draws, s.connection.authenticator.scramExchange = some e ∧ Current c users s.events e first draws
  identity : Identity c users s.connection.ctx.auth s.events
  letThrough : LetThrough c users s.events

variable {s : Session D} {event : Event} {e : ScramExchange D} {first : ClientFirst}

theorem negotiatedBy_cons (h : event.keepsExchange = true) :
    negotiatedBy (event :: events) = negotiatedBy events := by
  cases event with
  | request => rfl
  | saslHandshake selected =>
    cases selected with
    | none => rfl
    | some => cases h
  | saslAuthenticate => cases h

theorem Current.cons (h : Current c users events e first draws) (hevent : event.keepsExchange = true) :
    Current c users (event :: events) e first draws := by
  obtain ⟨between, clientFirst, response, before, rfl, hbetween, hfirst⟩ := h.issued.answered
  refine { h with issued := ⟨?_, event :: between, clientFirst, response, before, rfl, ?_, hfirst⟩ }
  · rw [negotiatedBy_cons hevent]
    exact h.issued.negotiated
  · intro e he
    rcases mem_cons.1 he with rfl | he
    · exact hevent
    · exact hbetween e he

/-- A PLAIN message that is accepted proves the password of a user, if passwords have no replacement
character. -/
theorem proves_of_plain (hpasswords : ∀ name user password, users name = some user →
      user.password = some password → replacement ∉ password)
    (hnegotiated : negotiatedBy events = some .plain)
    (hmessage : plainCredentials authBytes = some (username, password))
    (haccepted : (users username).bind (·.password) = some password) :
    Proves c users events authBytes username := by
  obtain ⟨user, huser, hpassword⟩ := bind_eq_some_iff.1 haccepted
  obtain ⟨name, hname⟩ :=
    exists_name_of_plainCredentials (hpasswords username user password huser hpassword) hmessage
  exact .plain hnegotiated huser hpassword (plainCredentials_eq_some hmessage) hname

theorem LetThrough.cons (h : LetThrough c users events)
    (hevent : ∀ apiKey, event = .request apiKey true → apiKey ∉ [17, 18, 36] →
      ∃ username, LatestSuccess c users events username) : LetThrough c users (event :: events) := by
  intro after apiKey before heq hkey
  rcases cons_eq_append_iff.1 heq with ⟨rfl, hhead⟩ | ⟨rest, rfl, hrest⟩
  · obtain ⟨rfl, rfl⟩ := cons.inj hhead
    exact hevent apiKey rfl hkey
  · exact h rest apiKey before hrest hkey

theorem Identity.cons (h : Identity c users auth events) (hevent : event.completes = false) :
    Identity c users auth (event :: events) := by
  rcases h with ⟨hauth, hnone⟩ | ⟨username, hauth, hlatest⟩
  · exact .inl ⟨hauth, forall_mem_cons.2 ⟨hevent, hnone⟩⟩
  · exact .inr ⟨username, hauth, .earlier hevent hlatest⟩

theorem Inv.request (h : Inv c users s) (apiKey : Int) :
    Inv c users { s with
      events := .request apiKey (s.connection.ctx.checkRequestAllowed apiKey) :: s.events } where
  __ := h
  exchange hstate := by
    obtain ⟨e, first, draws, he, hcurrent⟩ := h.exchange hstate
    exact ⟨e, first, draws, he, hcurrent.cons rfl⟩
  identity := h.identity.cons rfl
  letThrough := by
    refine h.letThrough.cons fun key hevent hkey => ?_
    injection hevent with hapi hallowed
    subst hapi
    rcases h.identity with ⟨hauth, -⟩ | ⟨username, -, hlatest⟩
    · rw [ConnectionContext.checkRequestAllowed, h.required, hauth] at hallowed
      simp [hkey] at hallowed
    · exact ⟨username, hlatest⟩

theorem Inv.saslHandshake (h : Inv c users s) (mechanisms : List String) :
    Inv c users ⟨(s.connection.saslHandshake mechanisms).2,
      .saslHandshake (selectMechanism mechanisms) :: s.events⟩ := by
  have hlet : LetThrough c users (.saslHandshake (selectMechanism mechanisms) :: s.events) :=
    h.letThrough.cons fun _ hevent => by cases hevent
  rw [Connection.saslHandshake, handleHandshake]
  cases hsel : selectMechanism mechanisms with
  | none =>
    exact { h with
      exchange := fun hstate => by
        obtain ⟨e, first, draws, he, hcurrent⟩ := h.exchange hstate
        exact ⟨e, first, draws, he, hcurrent.cons rfl⟩
      identity := h.identity.cons rfl
      letThrough := hsel ▸ hlet }
  | some mechanism =>
    exact { h with
      negotiated := fun m hstate => by
        cases hstate
        rfl
      exchange := fun hstate => by cases hstate
      identity := h.identity.cons rfl
      letThrough := hsel ▸ hlet }

variable [DecidableEq D]

/-- A client-final message that is accepted proves the key of a user: the stored key of an unknown
user is not met by any proof. -/
theorem Current.proves (h : Current c users events e first draws)
    (hfinish : e.finish c authBytes = .ok serverFinal) : Proves c users events authBytes e.username := by
  obtain ⟨final, hfinal, hvalid, -⟩ := ScramExchange.finish_eq_ok.1 hfinish
  cases hfound : ((users first.username).bind (·.scramCredential e.mechanism)).filter
      (·.mechanism = e.mechanism) with
  | none =>
    have hcred := h.credential
    rw [hfound] at hcred
    rw [hcred] at hvalid
    exact absurd hvalid.2 (draws.hash_ne_storedKey _ _)
  | some credential =>
    have hcred := h.credential
    rw [hfound] at hcred
    obtain ⟨hlookup, -⟩ := filter_eq_some_iff.1 hfound
    obtain ⟨user, huser, hcredential⟩ := bind_eq_some_iff.1 hlookup
    have hsf := h.serverFirst
    rw [hcred, h.nonce] at hsf
    rw [h.nonce] at hfinal
    rw [hcred, ScramExchange.authMessage, h.bare, hsf] at hvalid
    rw [h.username]
    exact .scram (hsf ▸ h.issued) huser hcredential hfinal hvalid

/-! ## What one message does -/

/-- The ways an authenticate message can go: it is refused, it starts a SCRAM exchange, or it
completes an exchange. -/
inductive Outcome (c : Crypto D) (a : SaslAuthenticator D) (authBytes : List UInt8) (draws : Draws c) :
    Except SaslError SaslAuthenticateResponse × SaslAuthenticator D → Prop where
  | refused {e : SaslError} {a' : SaslAuthenticator D} (users : a'.users = a.users)
      (exchange : a'.state = .authenticating → a.scramExchange = none ∧ a' = a)
      (state : ∀ mechanism, a'.state = .handshakeComplete mechanism → a.state = .handshakeComplete mechanism) :
      Outcome c a authBytes draws (.error e, a')
  | begun {mechanism : SaslMechanism} {exchange : ScramExchange D} {serverFirst : Text}
      (state : a.state = .handshakeComplete mechanism)
      (start : ScramExchange.start c mechanism authBytes
        (fun username => (a.users username).bind (·.scramCredential mechanism)) draws =
          .ok (exchange, serverFirst)) :
      Outcome c a authBytes draws (.ok ⟨0, none, some serverFirst, none⟩,
        { a with scramExchange := some exchange, state := .authenticating })
  | plain {username password : Text} (state : a.state = .handshakeComplete .plain)
      (message : plainCredentials authBytes = some (username, password))
      (accepted : (a.users username).bind (·.password) = some password) :
      Outcome c a authBytes draws (.ok (completed none), { a with state := .authenticated username })
  | finished {exchange : ScramExchange D} {serverFinal : Text} (state : a.state = .authenticating)
      (current : a.scramExchange = some exchange) (finish : exchange.finish c authBytes = .ok serverFinal) :
      Outcome c a authBytes draws (.ok (completed (some serverFinal)),
        { a with scramExchange := none, state := .authenticated exchange.username })

theorem Outcome.unchanged (e : SaslError) (h : a.state = .authenticating → a.scramExchange = none) :
    Outcome c a authBytes draws (.error e, a) :=
  .refused rfl (fun hstate => ⟨h hstate, rfl⟩) fun _ hstate => hstate

theorem beginScramAuth_outcome (hstate : a.state = .handshakeComplete mechanism) :
    Outcome c a authBytes draws (a.beginScramAuth c authBytes mechanism draws) := by
  rw [beginScramAuth]
  split
  · rename_i hstart
    exact .begun hstate hstart
  · exact .unchanged _ (by simp [hstate])

theorem handlePlainAuth_outcome (hstate : a.state = .handshakeComplete .plain) :
    Outcome c a authBytes draws (a.handlePlainAuth authBytes) := by
  rw [handlePlainAuth]
  split
  · exact .unchanged _ (by simp [hstate])
  rename_i hmessage
  split
  · rename_i hmatch
    exact .plain hstate hmessage hmatch
  · exact .refused rfl (fun h => by cases h) (fun _ h => by cases h)

theorem finishScramAuth_outcome (hstate : a.state = .authenticating) :
    Outcome c a authBytes draws (a.finishScramAuth c authBytes) := by
  rw [finishScramAuth]
  split
  · rename_i hnone
    exact .unchanged _ fun _ => hnone
  rename_i hcurrent
  split
  · rename_i hfinish
    exact .finished hstate hcurrent hfinish
  · exact .refused rfl (fun h => by cases h) (fun _ h => by cases h)

theorem handleAuthenticate_outcome : Outcome c a authBytes draws (a.handleAuthenticate c authBytes draws) := by
  rw [handleAuthenticate]
  split
  · exact handlePlainAuth_outcome ‹_›
  · exact beginScramAuth_outcome ‹_›
  · exact beginScramAuth_outcome ‹_›
  · exact .unchanged _ (by simp [*])
  · exact finishScramAuth_outcome ‹_›
  · exact .unchanged _ fun h => absurd h ‹_›

section
variable (hpasswords : ∀ name user password, users name = some user → user.password = some password → replacement ∉ password)
include hpasswords

theorem Inv.saslAuthenticate (h : Inv c users s) (authBytes : List UInt8) (draws : Draws c) :
    Inv c users ⟨(s.connection.saslAuthenticate c authBytes draws).2,
      .saslAuthenticate authBytes (s.connection.saslAuthenticate c authBytes draws).1 :: s.events⟩ := by
  have hout : Outcome c s.connection.authenticator authBytes draws _ := handleAuthenticate_outcome
  have hlet : ∀ answer, LetThrough c users (.saslAuthenticate authBytes answer :: s.events) :=
    fun _ => h.letThrough.cons fun _ hevent => by cases hevent
  rw [Connection.saslAuthenticate]
  generalize s.connection.authenticator.handleAuthenticate c authBytes draws = r at hout
  cases hout with
  | refused husers hexchange hstate =>
    exact { h with
      users_eq := husers.trans h.users_eq
      negotiated := fun mechanism hm => h.negotiated mechanism (hstate mechanism hm)
      exchange := fun hauth => by
        obtain ⟨hnone, rfl⟩ := hexchange hauth
        obtain ⟨e, -, -, he, -⟩ := h.exchange hauth
        rw [hnone] at he
        cases he
      identity := h.identity.cons rfl
      letThrough := hlet _ }
  | begun hstate hstart =>
    obtain ⟨first, hfirst, rfl, rfl, husername, hbare, hnonce, hsf, hcredential⟩ :=
      ScramExchange.start_eq_ok hstart
    have hissued : Current c users (.saslAuthenticate authBytes (.ok ⟨0, none, some _, none⟩) :: s.events) _
        first draws :=
      { issued := ⟨h.negotiated _ hstate, [], authBytes, _, s.events, rfl,
          forall_mem_nil _, hfirst, rfl⟩
        username := husername
        bare := hbare
        nonce := hnonce
        serverFirst := hsf
        credential := h.users_eq ▸ hcredential }
    exact { h with
      negotiated := fun _ hm => by cases hm
      exchange := fun _ => ⟨_, first, draws, rfl, hissued⟩
      identity := h.identity.cons rfl
      letThrough := hlet _ }
  | @plain username password hstate hmessage haccepted =>
    have hproves : Proves c users s.events authBytes username :=
      proves_of_plain hpasswords (h.negotiated _ hstate) hmessage (h.users_eq ▸ haccepted)
    exact { h with
      negotiated := fun _ hm => by cases hm
      exchange := fun hm => by cases hm
      identity := .inr ⟨username, rfl, .here rfl hproves⟩
      letThrough := hlet _ }
  | @finished exchange serverFinal hstate hcurrent hfinish =>
    obtain ⟨e, first, draws', he, hissued⟩ := h.exchange hstate
    obtain rfl : exchange = e := some.inj (hcurrent.symm.trans he)
    exact { h with
      negotiated := fun _ hm => by cases hm
      exchange := fun hm => by cases hm
      identity := .inr ⟨exchange.username, rfl, .here rfl (hissued.proves hfinish)⟩
      letThrough := hlet _ }

theorem inv_of_reaches (h : Reaches (Session.machine c .required peerIp users) Always s) : Inv c users s := by
  refine h.invariant ?_ ?_
  · exact {
      users_eq := rfl
      required := rfl
      negotiated := fun _ hm => by cases hm
      exchange := fun hm => by cases hm
      identity := .inl ⟨rfl, fun _ he => by cases he⟩
      letThrough := fun after apiKey before heq => absurd heq (by simp [Session.machine]) }
  · intro s action s' hinv _ hstep
    cases action with
    | request apiKey =>
      cases hstep
      exact hinv.request apiKey
    | saslHandshake mechanisms =>
      cases hstep
      exact hinv.saslHandshake mechanisms
    | saslAuthenticate authBytes draws =>
      cases hstep
      exact hinv.saslAuthenticate hpasswords authBytes draws

end

/-- A request is let through only after a completed exchange, with the user of the latest one as
principal, if no password has a replacement character. -/
theorem authentication_gate_sound {peerIp : String} (hpasswords : ∀ name user password, users name = some user →
      user.password = some password → replacement ∉ password)
    (h : Reaches (Session.machine c .required peerIp users) Always s) :
    LetThrough c users s.events ∧
      (∀ principal, s.connection.ctx.auth.principal = some principal →
        ∃ username, principal = "User:" ++ String.ofList username ∧ LatestSuccess c users s.events username) ∧
      (s.connection.ctx.auth.principal = none → ∀ event ∈ s.events, event.completes = false) := by
  have hinv := inv_of_reaches hpasswords h
  refine ⟨hinv.letThrough, fun principal hprincipal => ?_, fun hprincipal => ?_⟩
  · rcases hinv.identity with ⟨hauth, -⟩ | ⟨username, hauth, hlatest⟩
    · rw [hauth] at hprincipal
      cases hprincipal
    rw [hauth] at hprincipal
    cases hprincipal
    exact ⟨username, rfl, hlatest⟩
  · rcases hinv.identity with ⟨-, hnone⟩ | ⟨username, hauth, -⟩
    · exact hnone
    · rw [hauth] at hprincipal
      cases hprincipal

/-- Black boxes for concrete runs. -/
def transparent : Crypto (List UInt8) :=
  .ofBytes (fun _ d => 0 :: d) (fun _ key data => key ++ data) fun _ password salt _ => password ++ salt

def transparentDraws : Draws transparent :=
  ⟨['s'], by decide, [], [], [], fun _ _ => cons_ne_nil _ _⟩

def aliceWith (password : Text) (username : Text) : Option (SaslUser (List UInt8)) :=
  if username = "alice".toList then some ⟨some password, none, none⟩ else none

/-- A PLAIN login of alice and a Metadata request. -/
def plainLogin (password : List UInt8) : List (Action transparent) :=
  [.saslHandshake ["PLAIN"], .saslAuthenticate (0 :: encode "alice".toList ++ 0 :: password) transparentDraws,
    .request 3]

def plainLoginEvents (password : List UInt8) : List Event :=
  [.request 3 true, .saslAuthenticate (0 :: encode "alice".toList ++ 0 :: password) (.ok (completed none)),
    .saslHandshake (some .plain)]

theorem authentication_gate_sound_plain :
    ∃ s, Reaches (Session.machine transparent .required "10.0.0.9" (aliceWith "secret".toList)) Always s ∧
      s.events = plainLoginEvents (encode "secret".toList) ∧
      ∃ username, LatestSuccess transparent (aliceWith "secret".toList) (s.events.drop 1) username := by
  obtain ⟨s, hs, hevents⟩ := exists_reaches_of_run
    (Session.machine transparent .required "10.0.0.9" (aliceWith "secret".toList)) Always
    (plainLogin (encode "secret".toList))
    (fun s => s.events = plainLoginEvents (encode "secret".toList)) (by decide +kernel)
  have hpasswords : ∀ name user password, aliceWith "secret".toList name = some user →
      user.password = some password → replacement ∉ password := by
    intro name user password huser hpassword
    rw [aliceWith] at huser
    split at huser <;> cases huser
    cases hpassword
    decide +kernel
  refine ⟨s, hs, hevents, ?_⟩
  have h := (authentication_gate_sound hpasswords hs).1
  rw [hevents] at h ⊢
  exact h [] 3 _ rfl (by decide)

/-- The password is a replacement character, and one invalid byte is let in for it. -/
theorem replaced_password_accepted :
    ∃ s, Reaches (Session.machine transparent .required "10.0.0.9" (aliceWith [replacement])) Always s ∧
      s.events = plainLoginEvents [0xFF] ∧ [0xFF] ≠ encode [replacement] ∧
      ¬ LetThrough transparent (aliceWith [replacement]) s.events := by
  obtain ⟨s, hs, hevents⟩ := exists_reaches_of_run
    (Session.machine transparent .required "10.0.0.9" (aliceWith [replacement])) Always
    (plainLogin [0xFF]) (fun s => s.events = plainLoginEvents [0xFF]) (by decide +kernel)
  refine ⟨s, hs, hevents, by decide +kernel, fun h => ?_⟩
  obtain ⟨username, hlatest⟩ := h [] 3 _ hevents (by decide)
  have huser : ∀ {name user}, aliceWith [replacement] name = some user →
      user = ⟨some [replacement], none, none⟩ := by
    intro name user hname
    rw [aliceWith] at hname
    split at hname
    · exact (some.inj hname).symm
    · cases hname
  cases hlatest with
  | here _ hproves =>
    cases hproves with
    | plain _ hname hpassword _ hbytes =>
      obtain rfl := huser hname
      cases hpassword
      -- the last byte of the message is 0xFF, the last byte of the password is 0xBD
      have hlast := congrArg getLast? hbytes
      have hpw : encode [replacement] = [0xEF, 0xBF, 0xBD] := by decide +kernel
      rw [hpw] at hlast
      simp [getLast?_cons, getLast?_append] at hlast
    | @scram user mechanism first nonce credential _ _ hname hcredential =>
      obtain rfl := huser hname
      cases mechanism <;> cases hcredential
  | earlier hcompletes => cases hcompletes

end ChronikStream.Sasl
