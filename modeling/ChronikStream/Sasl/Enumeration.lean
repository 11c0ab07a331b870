import ChronikStream.Sasl.Gate
import Mathlib.Probability.Distributions.Uniform

/-!
# What the answers tell about a user name

Two names are compared, one with a credential and one without. The answers have the same
distribution exactly if no exchange is started for a credential that is stored
(`answers_same_distribution_iff`): the salt of an unknown name is drawn each time, a stored one is
not, so that trying twice tells the names apart (`salts_differ_for_unknown`).
-/

namespace ChronikStream.Sasl

open Fallible SaslAuthenticator List Option Function ClientFirst

variable {D : Type}

/-! ## Messages that name a user -/

/-- A client-first message, up to the name of the user. -/
structure NamedFirst where
  flag : Text
  authzid : Text
  before : List Text
  after : List Text
  nul_not_mem_flag : nul ∉ flag
  comma_not_mem_flag : ',' ∉ flag
  comma_not_mem_authzid : ',' ∉ authzid
  comma_not_mem_before : ∀ part ∈ before, ',' ∉ part
  comma_not_mem_after : ∀ part ∈ after, ',' ∉ part
  no_name_before : ∀ part ∈ before, ['n', '='].isPrefixOf part = false

namespace NamedFirst

variable (m : NamedFirst) (name : Text)

def bareParts : List Text := m.before ++ ('n' :: '=' :: saslprepEncode name) :: m.after

def parts : List Text := m.flag :: m.authzid :: m.bareParts name

def text : Text := join (m.parts name)

end NamedFirst

inductive Message where
  | handshake (mechanisms : List String)
  /-- A client-first message for the name that is tried. -/
  | clientFirst (m : NamedFirst)
  | raw (authBytes : List UInt8)

/-! ## Answers -/

inductive Answer where
  | handshake (response : SaslHandshakeResponse)
  | authenticate (response : SaslAuthenticateResponse)

def authenticateAnswer : Except SaslError SaslAuthenticateResponse → SaslAuthenticateResponse
  | .ok response => response
  | .error e => ⟨58, some e.message, none, none⟩

def handshakeAnswer : Except SaslError SaslHandshakeResponse → SaslHandshakeResponse
  | .ok response => response
  | .error _ => ⟨33, enabledMechanisms.map SaslMechanism.asStr⟩

def Answer.completes : Answer → Bool
  | .authenticate response => response.sessionLifetimeMs.isSome
  | .handshake _ => false

theorem Answer.sessionLifetimeMs_of_completes
    (h : (Answer.authenticate response).completes = false) : response.sessionLifetimeMs = none :=
  isNone_iff_eq_none.1 (isSome_eq_false_iff.1 h)

/-- No message is accepted as a proof. -/
def Refused (answers : List Answer) : Prop := ∀ answer ∈ answers, answer.completes = false

/-! ## Trying a name -/

/-- What a client does next: the answers so far decide on a connection and a message. -/
abbrev Strategy := List Answer → Nat × Message

variable (c : Crypto D)

section
variable [DecidableEq D]

def send (name : Text) (a : SaslAuthenticator D) (message : Message) (draws : Draws c) :
    Answer × SaslAuthenticator D :=
  match message with
  | .handshake mechanisms =>
    let r := a.handleHandshake mechanisms
    (.handshake (handshakeAnswer r.1), r.2)
  | .clientFirst m =>
    let r := a.handleAuthenticate c (Utf8.encode (m.text name)) draws
    (.authenticate (authenticateAnswer r.1), r.2)
  | .raw authBytes =>
    let r := a.handleAuthenticate c authBytes draws
    (.authenticate (authenticateAnswer r.1), r.2)

/-- The answers of the server, from the given connections on; each message comes with its draws. -/
def answersFrom (name : Text) (client : Strategy) (connections : Nat → SaslAuthenticator D) (seen : List Answer) :
    List (Draws c) → List Answer
  | [] => []
  | draws :: tape =>
    let next := client seen
    let r := send c name (connections next.1) next.2 draws
    r.1 :: answersFrom name client (update connections next.1 r.2) (seen ++ [r.1]) tape

/-- The answers to a client that tries a name, on new connections with the given users. -/
def answers (users : Nat → Text → Option (SaslUser D)) (name : Text) (client : Strategy) (tape : List (Draws c)) :
    List Answer :=
  answersFrom c name client (fun i => ⟨users i, .initial, none, none⟩) [] tape

end

/-! ## Two messages that differ in the name -/

/-- What `finish` answers to a message it does not accept. -/
def refusal (combinedNonce : Text) (clientFinal : List UInt8) : SaslError :=
  match ClientFinal.parse c combinedNonce clientFinal with
  | .error e => e
  | .ok _ => .invalidCredentials

variable {c}

/-- Two messages that the server treats alike, but for the user they name. -/
structure Alike (c : Crypto D) (b b' : List UInt8) : Prop where
  plain : plainCredentials b = plainCredentials b'
  first : (∃ e, parse b = .error e ∧ parse b' = .error e) ∨
    ∃ first first', parse b = .ok first ∧ parse b' = .ok first' ∧ first.nonce = first'.nonce
  final : ∀ combinedNonce, refusal c combinedNonce b = refusal c combinedNonce b'

theorem Alike.refl (b : List UInt8) : Alike c b b where
  plain := rfl
  first := by
    cases h : parse b with
    | error e => exact .inl ⟨e, rfl, rfl⟩
    | ok first => exact .inr ⟨first, first, rfl, rfl, rfl⟩
  final _ := rfl

/-- The first part is `p=` or a later part is, wherever the text is split. -/
theorem isPrefixOf_join (part : Text) (parts : List Text) :
    ['p', '='].isPrefixOf (join (part :: parts)) = ['p', '='].isPrefixOf part := by
  cases parts with
  | nil => simp [join]
  | cons next parts =>
  rw [join_cons_cons]
  cases part with
  | nil => rfl
  | cons x part => cases part <;> simp [List.isPrefixOf]

theorem rsplitOnce_append_of_not_mem (h : ',' ∉ xs) (ys : Text) :
    (rsplitOnce [',', 'p', '='] (xs ++ ys)).isSome = (rsplitOnce [',', 'p', '='] ys).isSome := by
  induction xs with
  | nil => rfl
  | cons x xs ih =>
    rw [mem_cons, not_or] at h
    rw [cons_append, rsplitOnce, ← ih h.2]
    cases rsplitOnce [',', 'p', '='] (xs ++ ys) with
    | some p => rfl
    | none => simp [h.1]

theorem rsplitOnce_join (hparts : ∀ p ∈ part :: parts, ',' ∉ p) :
    (rsplitOnce [',', 'p', '='] (join (part :: parts))).isSome = parts.any (['p', '='].isPrefixOf ·) := by
  induction parts generalizing part with
  | nil =>
    have hnone := rsplitOnce_append_of_not_mem (hparts part mem_cons_self) []
    rw [append_nil] at hnone
    rw [join, intercalate_singleton, hnone]
    rfl
  | cons next parts ih =>
    rw [join_cons_cons, rsplitOnce_append_of_not_mem (hparts part mem_cons_self), rsplitOnce,
      any_cons, ← ih fun p hp => hparts p (mem_cons_of_mem part hp)]
    cases rsplitOnce [',', 'p', '='] (join (next :: parts)) with
    | some p => simp
    | none =>
    have hpre : [',', 'p', '='].isPrefixOf (',' :: join (next :: parts)) = ['p', '='].isPrefixOf next := by
      rw [← isPrefixOf_join next parts]
      rfl
    rw [hpre]
    cases ['p', '='].isPrefixOf next <;> rfl

namespace NamedFirst

variable (m : NamedFirst)

section
variable (name : Text)

theorem comma_not_mem_bareParts : ∀ part ∈ m.bareParts name, ',' ∉ part := by
  intro part hpart
  rcases mem_append.1 hpart with hpart | hpart
  · exact m.comma_not_mem_before part hpart
  rcases mem_cons.1 hpart with rfl | hpart
  · simp [comma_not_mem_saslprepEncode]
  · exact m.comma_not_mem_after part hpart

theorem comma_not_mem_parts : ∀ part ∈ m.parts name, ',' ∉ part := by
  intro part hpart
  rcases mem_cons.1 hpart with rfl | hpart
  · exact m.comma_not_mem_flag
  rcases mem_cons.1 hpart with rfl | hpart
  · exact m.comma_not_mem_authzid
  · exact m.comma_not_mem_bareParts name part hpart

theorem bareParts_ne_nil : m.bareParts name ≠ [] := by simp [bareParts]

theorem splitOn_text : (m.text name).splitOn ',' = m.parts name :=
  splitOn_join_of_not_mem (cons_ne_nil _ _) (m.comma_not_mem_parts name)

theorem text_eq : m.text name = m.flag ++ ',' :: (m.authzid ++ ',' :: join (m.bareParts name)) := by
  obtain ⟨part, parts, hparts⟩ := exists_cons_of_ne_nil (m.bareParts_ne_nil name)
  rw [text, NamedFirst.parts, hparts, join_cons_cons, join_cons_cons]

end

theorem find?_bareParts (hkey : key ≠ 'n') (name : Text) :
    (m.bareParts name).find? (fun part => [key, '='].isPrefixOf part) =
      (m.before ++ m.after).find? (fun part => [key, '='].isPrefixOf part) := by
  rw [bareParts]
  simp [hkey]

/-- What the server reads from a client-first message, attribute by attribute. -/
theorem parse_text_eq (name : Text) :
    parse (Utf8.encode (m.text name)) = (do
      require (['p', '='].isPrefixOf m.flag = false)
        (.protocolError "channel binding requested but not supported")
      let nonce ← okOr (((m.before ++ m.after).find? fun part => ['r', '='].isPrefixOf part).map (·.drop 2))
        (.protocolError "client-first has no nonce")
      require (nonce ≠ []) (.protocolError "client nonce is empty")
      return ⟨join (m.bareParts name), name, nonce⟩) := by
  have hsplit : (join (m.bareParts name)).splitOn ',' = m.bareParts name :=
    splitOn_join_of_not_mem (m.bareParts_ne_nil name) (m.comma_not_mem_bareParts name)
  have hlen := congrArg gs2HeaderLen (m.text_eq name)
  rw [gs2HeaderLen_append m.comma_not_mem_flag m.comma_not_mem_authzid] at hlen
  have hbare : (m.text name).drop (m.flag ++ ',' :: (m.authzid ++ [','])).length = join (m.bareParts name) := by
    rw [text_eq]
    have happend : m.flag ++ ',' :: (m.authzid ++ ',' :: join (m.bareParts name)) =
        m.flag ++ ',' :: (m.authzid ++ [',']) ++ join (m.bareParts name) := by simp
    rw [happend, drop_left]
  have hname : attributeOf (join (m.bareParts name)) 'n' = some (saslprepEncode name) := by
    have hnone : m.before.find? (fun part => ['n', '='].isPrefixOf part) = none :=
      find?_eq_none.2 fun part hpart => by simp [m.no_name_before part hpart]
    rw [attributeOf, hsplit, bareParts, find?_append, hnone]
    simp
  have hnonce : attributeOf (join (m.bareParts name)) 'r' =
      ((m.before ++ m.after).find? fun part => ['r', '='].isPrefixOf part).map (·.drop 2) := by
    rw [attributeOf, hsplit, m.find?_bareParts (by decide)]
  have hpre : ['p', '='].isPrefixOf (m.text name) = ['p', '='].isPrefixOf m.flag := isPrefixOf_join _ _
  simp only [parse, Utf8.decode?_encode, okOr_some, ok_bind, hpre, hlen, hbare, hname, hnonce,
    saslprepDecode_saslprepEncode]

/-- What the server makes of a client-first message does not depend on the name, but for the name
itself. -/
theorem parse_text (name name' : Text) :
    (∃ e, parse (Utf8.encode (m.text name)) = .error e ∧
        parse (Utf8.encode (m.text name')) = .error e) ∨
      ∃ nonce, parse (Utf8.encode (m.text name)) = .ok ⟨join (m.bareParts name), name, nonce⟩ ∧
        parse (Utf8.encode (m.text name')) = .ok ⟨join (m.bareParts name'), name', nonce⟩ := by
  rw [parse_text_eq, parse_text_eq]
  cases hflag : require (['p', '='].isPrefixOf m.flag = false) _ with
  | error e => exact .inl ⟨e, rfl, rfl⟩
  | ok u =>
  rw [ok_bind, ok_bind]
  cases hfind : okOr (((m.before ++ m.after).find? fun part => ['r', '='].isPrefixOf part).map (·.drop 2)) _ with
  | error e => exact .inl ⟨e, rfl, rfl⟩
  | ok nonce =>
  rw [ok_bind, ok_bind]
  cases hempty : require (nonce ≠ []) _ with
  | error e => exact .inl ⟨e, rfl, rfl⟩
  | ok u => exact .inr ⟨nonce, rfl, rfl⟩

theorem username_of_parse (h : parse (Utf8.encode (m.text name)) = .ok first) :
    first.username = name := by
  rcases m.parse_text name name with ⟨e, herror, -⟩ | ⟨nonce, hok, -⟩
  · cases herror.symm.trans h
  · cases hok.symm.trans h
    rfl

theorem attributeOf_text (hkey : key ≠ 'n') (name : Text) : attributeOf (m.text name) key =
      ((m.flag :: m.authzid :: (m.before ++ m.after)).find? fun part => [key, '='].isPrefixOf part).map (·.drop 2) := by
  rw [attributeOf, splitOn_text, NamedFirst.parts, find?_cons, find?_cons, m.find?_bareParts hkey,
    ← find?_cons, ← find?_cons]

theorem isSome_rsplitOnce_text (name : Text) :
    (rsplitOnce [',', 'p', '='] (m.text name)).isSome =
      (m.authzid :: (m.before ++ m.after)).any (['p', '='].isPrefixOf ·) := by
  have hname : ['p', '='].isPrefixOf ('n' :: '=' :: saslprepEncode name) = false := rfl
  rw [text, NamedFirst.parts, rsplitOnce_join (m.comma_not_mem_parts name), bareParts]
  simp only [any_cons, any_append, hname, Bool.false_or]

theorem refusal_text (combinedNonce name name' : Text) :
    refusal c combinedNonce (Utf8.encode (m.text name)) = refusal c combinedNonce (Utf8.encode (m.text name')) := by
  have hsplit := (m.isSome_rsplitOnce_text name).trans (m.isSome_rsplitOnce_text name').symm
  simp only [refusal, ClientFinal.parse, Utf8.decode?_encode, okOr_some, ok_bind,
    m.attributeOf_text (by decide : 'r' ≠ 'n'), m.attributeOf_text (by decide : 'p' ≠ 'n')]
  -- what is left to differ is the text before the proof, which an error does not show
  have hlast : ∀ proof : D, ∀ o o' : Option (Text × Text), o.isSome = o'.isSome →
      (match (do
          let parts ← okOr o (.protocolError "malformed client-final")
          return (⟨proof, parts.1⟩ : ClientFinal D)) with
        | .error e => e
        | .ok _ => .invalidCredentials) =
      (match (do
          let parts ← okOr o' (.protocolError "malformed client-final")
          return (⟨proof, parts.1⟩ : ClientFinal D)) with
        | .error e => e
        | .ok _ => SaslError.invalidCredentials) := by
    intro proof o o' ho
    cases o <;> cases o' <;> first | rfl | cases ho
  cases okOr _ (.protocolError "client-final has no nonce") with
  | error e => rfl
  | ok nonce =>
  simp only [ok_bind]
  cases require (combinedNonce <:+ nonce) _ with
  | error e => rfl
  | ok u =>
  cases okOr _ (.protocolError "client-final has no proof") with
  | error e => rfl
  | ok proof =>
  simp only [ok_bind]
  cases okOr (c.decode proof) _ with
  | error e => rfl
  | ok proof => exact hlast proof _ _ hsplit

theorem alike (name name' : Text) :
    Alike c (Utf8.encode (m.text name)) (Utf8.encode (m.text name')) where
  plain := by
    have hnone : ∀ name, plainCredentials (Utf8.encode (m.text name)) = none := by
      intro name
      cases hplain : plainCredentials (Utf8.encode (m.text name)) with
      | none => rfl
      | some credentials =>
      have htext := plainCredentials_eq_some hplain
      rw [Utf8.fromUtf8Lossy_encode, text_eq] at htext
      cases hflag : m.flag with rw [hflag] at htext
      | nil =>
        cases (cons.inj htext).1
      | cons ch flag =>
        exact absurd ((cons.inj htext).1 ▸ hflag ▸ mem_cons_self) m.nul_not_mem_flag
    rw [hnone, hnone]
  first := by
    rcases m.parse_text name name' with ⟨e, h, h'⟩ | ⟨nonce, h, h'⟩
    · exact .inl ⟨e, h, h'⟩
    · exact .inr ⟨_, _, h, h', rfl⟩
  final combinedNonce := m.refusal_text combinedNonce name name'

end NamedFirst

/-! ## Exchanges -/

/-- The credential that is stored for a name. -/
def storedFor (users : Text → Option (SaslUser D)) (name : Text) (mechanism : SaslMechanism) :
    Option (ScramCredential D) :=
  ((users name).bind (·.scramCredential mechanism)).filter (·.mechanism = mechanism)

/-- The answer to a client-first message, with the credential that is stored or a drawn one. -/
def serverFirst (c : Crypto D) (users : Text → Option (SaslUser D)) (mechanism : SaslMechanism)
    (first : ClientFirst) (draws : Draws c) : SaslAuthenticateResponse :=
  ⟨0, none, some (serverFirstMessage c (first.nonce ++ draws.nonce)
    ((storedFor users first.username mechanism).getD (dummyCredential c mechanism draws))), none⟩

def Answer.salt : Answer → Option Text
  | .authenticate response => response.authBytes.bind (attributeOf · 's')
  | .handshake _ => none

variable {a : SaslAuthenticator D} {known unknown : Text} {draws : Draws c} {first : ClientFirst}

theorem comma_not_mem_nonce (draws : Draws c) (h : parse b = .ok first) :
    ',' ∉ first.nonce ++ draws.nonce := by
  obtain ⟨-, -, -, -, -, -, -, -, hr⟩ := parse_eq_ok h
  have hmem := comma_not_mem_of_mem_splitOn (attributeOf_eq_some hr)
  simp_all [draws.comma_not_mem_nonce]

theorem salt_serverFirst {users : Text → Option (SaslUser D)} (h : parse b = .ok first) :
    (Answer.authenticate (serverFirst c users mechanism first draws)).salt =
      some (c.encode ((storedFor users first.username mechanism).getD
        (dummyCredential c mechanism draws)).salt) := by
  rw [Answer.salt, serverFirst]
  dsimp only
  rw [bind_some, attributeOf, splitOn_serverFirstMessage (comma_not_mem_nonce draws h)]
  rfl

def Scram (mechanism : SaslMechanism) : Prop := mechanism = .scramSha256 ∨ mechanism = .scramSha512

theorem scram_of_storedFor {users : Text → Option (SaslUser D)} (h : storedFor users name mechanism = some credential) :
    Scram mechanism := by
  obtain ⟨user, -, hcredential⟩ := bind_eq_some_iff.1 (filter_eq_some_iff.1 h).1
  cases mechanism with
  | scramSha256 => exact .inl rfl
  | scramSha512 => exact .inr rfl
  | plain | gssApi | oAuthBearer => cases hcredential

theorem beginScramAuth_of_parse (a : SaslAuthenticator D) (mechanism : SaslMechanism) (draws : Draws c)
    (h : parse b = .ok first) :
    ∃ exchange, exchange.combinedNonce = first.nonce ++ draws.nonce ∧
      a.beginScramAuth c b mechanism draws = (.ok (serverFirst c a.users mechanism first draws),
        { a with scramExchange := some exchange, state := .authenticating }) := by
  rw [beginScramAuth, ScramExchange.start, h]
  exact ⟨_, rfl, rfl⟩

theorem beginScramAuth_of_error (h : parse b = .error e) :
    a.beginScramAuth c b mechanism draws = (.error e, a) := by
  rw [beginScramAuth, ScramExchange.start, h]
  rfl

/-! ## One message -/

/-- Two connections that have got the same messages, but for the name, and the same answers. -/
structure Twin (a a' : SaslAuthenticator D) : Prop where
  users : a.users = a'.users
  state : a.state = a'.state
  nonce : a.scramExchange.map (·.combinedNonce) = a'.scramExchange.map (·.combinedNonce)

/-- The answers are the same and leave twins, or both are server-first messages, which leave twins if
their nonces are the same. -/
def Matched (c : Crypto D) (a : SaslAuthenticator D) (b b' : List UInt8) (draws draws' : Draws c)
    (r r' : Except SaslError SaslAuthenticateResponse × SaslAuthenticator D) : Prop :=
  (r.1 = r'.1 ∧ Twin r.2 r'.2) ∨
    ∃ mechanism first first', a.state = .handshakeComplete mechanism ∧
      parse b = .ok first ∧ parse b' = .ok first' ∧ first.nonce = first'.nonce ∧
      r.1 = .ok (serverFirst c a.users mechanism first draws) ∧
      r'.1 = .ok (serverFirst c a.users mechanism first' draws') ∧
      (first.nonce ++ draws.nonce = first'.nonce ++ draws'.nonce → Twin r.2 r'.2)

/-- The same answers leave twins, whatever is drawn. -/
theorem Matched.twin (h : Matched c a b b' draws draws' r r')
    (hsame : authenticateAnswer r.1 = authenticateAnswer r'.1) : Twin r.2 r'.2 := by
  rcases h with ⟨-, htwin⟩ | ⟨mechanism, first, first', -, hparse, hparse', -, hr, hr', htwin⟩
  · exact htwin
  rw [hr, hr'] at hsame
  -- the nonce is the first attribute of the message
  have htext := some.inj (congrArg SaslAuthenticateResponse.authBytes hsame)
  have hparts := congrArg (·.splitOn ',') htext
  rw [splitOn_serverFirstMessage (comma_not_mem_nonce draws hparse),
    splitOn_serverFirstMessage (comma_not_mem_nonce draws' hparse')] at hparts
  exact htwin (cons.inj (cons.inj (cons.inj hparts).1).2).2

/-- The same draws give the same answers where both names have the same credential, or none. -/
theorem Matched.answer_eq (h : Matched c a b b' draws draws r r')
    (hstored : ∀ mechanism first first', a.state = .handshakeComplete mechanism →
      parse b = .ok first → parse b' = .ok first' →
      storedFor a.users first.username mechanism = storedFor a.users first'.username mechanism) :
    authenticateAnswer r.1 = authenticateAnswer r'.1 := by
  rcases h with ⟨hsame, -⟩ |
    ⟨mechanism, first, first', hstate, hparse, hparse', hnonce, hr, hr', -⟩
  · rw [hsame]
  · rw [hr, hr', serverFirst, serverFirst, hnonce,
      hstored mechanism first first' hstate hparse hparse']

theorem beginScramAuth_matched (h : Twin a a') (hb : Alike c b b')
    (hstate : a.state = .handshakeComplete mechanism) :
    Matched c a b b' draws draws' (a.beginScramAuth c b mechanism draws)
      (a'.beginScramAuth c b' mechanism draws') := by
  rcases hb.first with ⟨e, hparse, hparse'⟩ | ⟨first, first', hparse, hparse', hnonce⟩
  · rw [beginScramAuth_of_error hparse, beginScramAuth_of_error hparse']
    exact .inl ⟨rfl, h⟩
  obtain ⟨exchange, hcombined, hbegin⟩ := beginScramAuth_of_parse a mechanism draws hparse
  obtain ⟨exchange', hcombined', hbegin'⟩ := beginScramAuth_of_parse a' mechanism draws' hparse'
  rw [hbegin, hbegin', ← h.users]
  refine .inr ⟨mechanism, first, first', hstate, hparse, hparse', hnonce, rfl, rfl, fun hsame => ?_⟩
  refine ⟨rfl, rfl, ?_⟩
  rw [map_some, map_some, hcombined, hcombined', hsame]

theorem handlePlainAuth_twin (h : Twin a a') (hb : Alike c b b')
    (hfails : (authenticateAnswer (a.handlePlainAuth b).1).sessionLifetimeMs = none) :
    (a.handlePlainAuth b).1 = (a'.handlePlainAuth b').1 ∧ Twin (a.handlePlainAuth b).2 (a'.handlePlainAuth b').2 := by
  rw [handlePlainAuth] at hfails
  rw [handlePlainAuth, handlePlainAuth, ← hb.plain, ← h.users]
  cases hplain : plainCredentials b with
  | none => exact ⟨rfl, h⟩
  | some credentials =>
  simp only [hplain] at hfails ⊢
  split
  · rename_i haccepted
    rw [if_pos haccepted] at hfails
    cases hfails
  · exact ⟨rfl, rfl, rfl, h.nonce⟩

theorem handleHandshake_twin (h : Twin a a') (mechanisms : List String) :
    (a.handleHandshake mechanisms).1 = (a'.handleHandshake mechanisms).1 ∧
      Twin (a.handleHandshake mechanisms).2 (a'.handleHandshake mechanisms).2 := by
  rw [handleHandshake, handleHandshake]
  cases selectMechanism mechanisms with
  | none => exact ⟨rfl, h⟩
  | some mechanism => exact ⟨rfl, h.users, rfl, h.nonce⟩

theorem twin_update {connections connections' : Nat → SaslAuthenticator D}
    (h : ∀ i, Twin (connections i) (connections' i)) (ha : Twin a a') (i : Nat) :
    ∀ j, Twin (update connections i a j) (update connections' i a' j) := by
  intro j
  rcases eq_or_ne j i with rfl | hne
  · rwa [update_self, update_self]
  · rw [update_of_ne hne, update_of_ne hne]
    exact h j

section
variable [DecidableEq D]

theorem finish_eq_error {e : ScramExchange D} (h : ∀ text, e.finish c clientFinal ≠ .ok text) :
    e.finish c clientFinal = .error (refusal c e.combinedNonce clientFinal) := by
  cases hfinish : e.finish c clientFinal with
  | ok text => exact absurd hfinish (h text)
  | error error =>
  rw [refusal]
  rcases bind_eq_error.1 hfinish with hparse | ⟨final, hparse, hrest⟩
  · rw [hparse]
  rw [hparse]
  simp only [bind_eq_error, require_eq_error, require_eq_ok] at hrest
  rcases hrest with ⟨-, rfl⟩ | ⟨-, -, ⟨-, rfl⟩ | ⟨-, -, hpure⟩⟩
  · rfl
  · rfl
  · cases hpure

theorem finishScramAuth_twin (h : Twin a a') (hb : Alike c b b')
    (hfails : (authenticateAnswer (a.finishScramAuth c b).1).sessionLifetimeMs = none)
    (hfails' : (authenticateAnswer (a'.finishScramAuth c b').1).sessionLifetimeMs = none) :
    (a.finishScramAuth c b).1 = (a'.finishScramAuth c b').1 ∧
      Twin (a.finishScramAuth c b).2 (a'.finishScramAuth c b').2 := by
  have hnonce := h.nonce
  rw [finishScramAuth] at hfails hfails'
  rw [finishScramAuth, finishScramAuth]
  cases he : a.scramExchange with
  | none =>
    rw [he] at hnonce
    rw [map_eq_none_iff.1 hnonce.symm]
    exact ⟨rfl, h⟩
  | some e =>
  rw [he] at hnonce
  obtain ⟨e', he', hsame⟩ := map_eq_some_iff.1 hnonce.symm
  simp only [he, he'] at hfails hfails' ⊢
  have hrefused : e.finish c b = .error (refusal c e.combinedNonce b) := by
    refine finish_eq_error fun text htext => ?_
    rw [htext] at hfails
    cases hfails
  have hrefused' : e'.finish c b' = .error (refusal c e'.combinedNonce b') := by
    refine finish_eq_error fun text htext => ?_
    rw [htext] at hfails'
    cases hfails'
  rw [hrefused, hrefused', hsame, hb.final]
  exact ⟨rfl, h.users, rfl, rfl⟩

theorem handleAuthenticate_matched (h : Twin a a') (hb : Alike c b b')
    (hfails : (Answer.authenticate
      (authenticateAnswer (a.handleAuthenticate c b draws).1)).completes = false)
    (hfails' : (Answer.authenticate
      (authenticateAnswer (a'.handleAuthenticate c b' draws').1)).completes = false) :
    Matched c a b b' draws draws' (a.handleAuthenticate c b draws)
      (a'.handleAuthenticate c b' draws') := by
  replace hfails := Answer.sessionLifetimeMs_of_completes hfails
  replace hfails' := Answer.sessionLifetimeMs_of_completes hfails'
  rw [handleAuthenticate] at hfails
  rw [handleAuthenticate, ← h.state] at hfails'
  rw [handleAuthenticate, handleAuthenticate, ← h.state]
  cases hstate : a.state with
  | handshakeComplete mechanism =>
    rw [hstate] at hfails hfails'
    cases mechanism with
    | plain => exact .inl (handlePlainAuth_twin h hb hfails)
    | scramSha256 | scramSha512 => exact beginScramAuth_matched h hb hstate
    | gssApi | oAuthBearer => exact .inl ⟨rfl, h⟩
  | authenticating =>
    rw [hstate] at hfails hfails'
    exact .inl (finishScramAuth_twin h hb hfails hfails')
  | initial | authenticated | failed => exact .inl ⟨rfl, h⟩

theorem send_twin (h : Twin a a') (message : Message)
    (hfails : (send c name a message draws).1.completes = false)
    (hfails' : (send c name' a' message draws').1.completes = false)
    (hsame : (send c name a message draws).1 = (send c name' a' message draws').1) :
    Twin (send c name a message draws).2 (send c name' a' message draws').2 := by
  cases message with
  | handshake mechanisms => exact (handleHandshake_twin h mechanisms).2
  | clientFirst m =>
    exact (handleAuthenticate_matched h (m.alike name name') hfails hfails').twin
      (Answer.authenticate.inj hsame)
  | raw authBytes =>
    exact (handleAuthenticate_matched h (Alike.refl authBytes) hfails hfails').twin
      (Answer.authenticate.inj hsame)

/-- A message starts an exchange for a credential that is stored. -/
def Begins (name : Text) (a : SaslAuthenticator D) : Message → Prop
  | .clientFirst m => ∃ mechanism, a.state = .handshakeComplete mechanism ∧
      (storedFor a.users name mechanism).isSome ∧ ∃ first, parse (Utf8.encode (m.text name)) = .ok first
  | _ => False

theorem send_answer_eq (h : Twin a a') (message : Message)
    (hunknown : ∀ mechanism, storedFor a.users unknown mechanism = none)
    (hfails : (send c known a message draws).1.completes = false)
    (hfails' : (send c unknown a' message draws).1.completes = false)
    (hbegins : ¬ Begins known a message) :
    (send c known a message draws).1 = (send c unknown a' message draws).1 := by
  cases message with
  | handshake mechanisms =>
    exact congrArg (fun r => Answer.handshake (handshakeAnswer r)) (handleHandshake_twin h mechanisms).1
  | clientFirst m =>
    refine congrArg Answer.authenticate
      ((handleAuthenticate_matched h (m.alike known unknown) hfails hfails').answer_eq ?_)
    intro mechanism first first' hstate hparse hparse'
    have hnone : storedFor a.users known mechanism = none := by
      rw [← isNone_iff_eq_none, ← isSome_eq_false_iff, Bool.eq_false_iff]
      exact fun hsome => hbegins ⟨mechanism, hstate, hsome, first, hparse⟩
    rw [m.username_of_parse hparse, m.username_of_parse hparse', hnone, hunknown]
  | raw authBytes =>
    refine congrArg Answer.authenticate
      ((handleAuthenticate_matched h (Alike.refl authBytes) hfails hfails').answer_eq ?_)
    intro mechanism first first' _ hparse hparse'
    cases hparse.symm.trans hparse'
    rfl

/-- A client-first message after a handshake is answered. -/
theorem send_clientFirst (draws : Draws c) (hstate : a.state = .handshakeComplete mechanism) (hscram : Scram mechanism)
    (hparse : parse (Utf8.encode (m.text name)) = .ok first) :
    ∃ exchange, send c name a (.clientFirst m) draws =
      (.authenticate (serverFirst c a.users mechanism first draws),
        { a with scramExchange := some exchange, state := .authenticating }) := by
  have hhandle : a.handleAuthenticate c (Utf8.encode (m.text name)) draws =
      a.beginScramAuth c (Utf8.encode (m.text name)) mechanism draws := by
    rw [handleAuthenticate, hstate]
    rcases hscram with rfl | rfl <;> rfl
  obtain ⟨exchange, -, hbegin⟩ := beginScramAuth_of_parse a mechanism draws hparse
  refine ⟨exchange, ?_⟩
  rw [send, hhandle, hbegin]
  rfl

theorem salt_send (hstate : a.state = .handshakeComplete mechanism) (hscram : Scram mechanism)
    (hparse : parse (Utf8.encode (m.text name)) = .ok first) :
    (send c name a (.clientFirst m) draws).1.salt =
      some (c.encode ((storedFor a.users name mechanism).getD
        (dummyCredential c mechanism draws)).salt) := by
  obtain ⟨exchange, hsend⟩ := send_clientFirst draws hstate hscram hparse
  rw [hsend, salt_serverFirst hparse, m.username_of_parse hparse]

/-- A stored credential has a salt of its own, which no other name is answered with unless it is
drawn. -/
theorem Begins.exists_salt (h : Begins known a message)
    (hunknown : ∀ mechanism, storedFor a.users unknown mechanism = none) :
    ∃ salt : D, ∀ a' a'', Twin a a' → Twin a a'' → ∀ draws' draws'' : Draws c, draws'.salt ≠ salt →
      (send c known a'' message draws'').1 ≠ (send c unknown a' message draws').1 := by
  cases message with
  | handshake | raw => exact h.elim
  | clientFirst m =>
  obtain ⟨mechanism, hstate, hsome, first, hparse⟩ := h
  obtain ⟨credential, hcredential⟩ := isSome_iff_exists.1 hsome
  have hscram := scram_of_storedFor hcredential
  obtain ⟨first', hparse'⟩ : ∃ first', parse (Utf8.encode (m.text unknown)) = .ok first' := by
    rcases m.parse_text known unknown with ⟨e, herror, -⟩ | ⟨nonce, -, hparse'⟩
    · cases herror.symm.trans hparse
    · exact ⟨_, hparse'⟩
  refine ⟨credential.salt, fun a' a'' h' h'' draws' draws'' hne heq => hne ?_⟩
  have hsalt := congrArg Answer.salt heq
  rw [salt_send (h''.state.symm.trans hstate) hscram hparse,
    salt_send (h'.state.symm.trans hstate) hscram hparse', ← h''.users, ← h'.users, hcredential,
    hunknown] at hsalt
  have hdecoded := congrArg c.decode (some.inj hsalt)
  rw [c.decode_encode, c.decode_encode] at hdecoded
  exact (some.inj hdecoded).symm

theorem Outcome.users_eq (h : Outcome c a b draws r) : r.2.users = a.users := by
  cases h with
  | refused users _ _ => exact users
  | begun | plain | finished => rfl

theorem send_users (name : Text) (message : Message) : (send c name a message draws).2.users = a.users := by
  cases message with
  | handshake mechanisms =>
    rw [send, handleHandshake]
    cases selectMechanism mechanisms <;> rfl
  | clientFirst | raw => exact handleAuthenticate_outcome.users_eq

/-! ## Any number of messages -/

section
variable (c)

/-- Of a client that tries a name, that one of its messages starts an exchange for a credential that
is stored. -/
def StartsFrom (name : Text) (client : Strategy) (connections : Nat → SaslAuthenticator D)
    (seen : List Answer) : List (Draws c) → Prop
  | [] => False
  | draws :: tape =>
    let next := client seen
    let r := send c name (connections next.1) next.2 draws
    Begins name (connections next.1) next.2 ∨
      StartsFrom name client (update connections next.1 r.2) (seen ++ [r.1]) tape

def Starts (users : Nat → Text → Option (SaslUser D)) (name : Text) (client : Strategy)
    (tape : List (Draws c)) : Prop :=
  StartsFrom c name client (fun i => ⟨users i, .initial, none, none⟩) [] tape

end

variable {client : Strategy} {tape : List (Draws c)} {users : Nat → Text → Option (SaslUser D)}
  {connections connections' : Nat → SaslAuthenticator D}

theorem storedFor_update (hunknown : ∀ i mechanism, storedFor (connections i).users unknown mechanism = none)
    (i : Nat) (name : Text) (message : Message) (draws : Draws c) :
    ∀ j mechanism, storedFor
      (update connections i (send c name (connections i) message draws).2 j).users unknown mechanism = none := by
  intro j mechanism
  rcases eq_or_ne j i with rfl | hne
  · rw [update_self, send_users]
    exact hunknown j mechanism
  · rw [update_of_ne hne]
    exact hunknown j mechanism

/-- Where no exchange is started for a stored credential, the same draws give the same answers. -/
theorem answersFrom_eq (h : ∀ i, Twin (connections i) (connections' i))
    (hunknown : ∀ i mechanism, storedFor (connections i).users unknown mechanism = none)
    (hfails : Refused (answersFrom c known client connections seen tape))
    (hfails' : Refused (answersFrom c unknown client connections' seen tape))
    (hstarts : ¬ StartsFrom c known client connections seen tape) :
    answersFrom c known client connections seen tape =
      answersFrom c unknown client connections' seen tape := by
  induction tape generalizing connections connections' seen with
  | nil => rfl
  | cons draws tape ih =>
    rw [answersFrom] at hfails hfails' ⊢
    rw [answersFrom]
    rw [StartsFrom, not_or] at hstarts
    generalize client seen = next at hfails hfails' hstarts ⊢
    obtain ⟨i, message⟩ := next
    obtain ⟨hfail, hfails⟩ := forall_mem_cons.1 hfails
    obtain ⟨hfail', hfails'⟩ := forall_mem_cons.1 hfails'
    have hanswer := send_answer_eq (h i) message (hunknown i) hfail hfail' hstarts.1
    have htwin := send_twin (h i) message hfail hfail' hanswer
    rw [← hanswer] at hfails' ⊢
    rw [ih (twin_update h htwin i) (storedFor_update hunknown i known message draws) hfails hfails'
      hstarts.2]

/-- At the first exchange for a stored credential, the unknown name gets an answer that the known
one never gets, if another salt is drawn there. -/
theorem exists_salt_of_startsFrom
    (hunknown : ∀ i mechanism, storedFor (connections i).users unknown mechanism = none)
    (hfails : Refused (answersFrom c known client connections seen tape))
    (hstarts : StartsFrom c known client connections seen tape) :
    ∃ k salt draws, tape[k]? = some draws ∧
      ∀ connections' connections'' : Nat → SaslAuthenticator D,
        (∀ i, Twin (connections i) (connections' i)) → (∀ i, Twin (connections i) (connections'' i)) →
      ∀ tape' tape'' draws', tape'.take k = tape.take k → tape'[k]? = some draws' → draws'.salt ≠ salt →
        Refused (answersFrom c unknown client connections' seen tape') →
        Refused (answersFrom c known client connections'' seen tape'') →
        answersFrom c known client connections'' seen tape'' ≠
          answersFrom c unknown client connections' seen tape' := by
  induction tape generalizing connections seen with
  | nil => exact hstarts.elim
  | cons draws tape ih =>
    rw [answersFrom] at hfails
    rw [StartsFrom] at hstarts
    obtain ⟨hfail, hfails⟩ := forall_mem_cons.1 hfails
    by_cases hbegins : Begins known (connections (client seen).1) (client seen).2
    · obtain ⟨salt, hsalt⟩ := hbegins.exists_salt (hunknown _)
      refine ⟨0, salt, draws, rfl, ?_⟩
      intro connections' connections'' h' h'' tape' tape'' draws' _ hdraws' hne _ _ heq
      cases tape' with
      | nil => cases hdraws'
      | cons d' tape' =>
      cases hdraws'
      cases tape'' with
      | nil => cases heq
      | cons d'' tape'' => exact hsalt _ _ (h' _) (h'' _) draws' d'' hne (cons.inj heq).1
    · obtain ⟨k, salt, d, hd, hrest⟩ := ih
        (storedFor_update hunknown _ known _ draws) hfails (hstarts.resolve_left hbegins)
      refine ⟨k + 1, salt, d, hd, ?_⟩
      intro connections' connections'' h' h'' tape' tape'' draws' htake hdraws' hne hfails' hfails'' heq
      cases tape' with
      | nil => cases hdraws'
      | cons d' tape' =>
      rw [take_succ_cons, take_succ_cons] at htake
      obtain ⟨rfl, hrestTake⟩ := cons.inj htake
      cases tape'' with
      | nil => cases heq
      | cons d'' tape'' =>
      rw [answersFrom] at hfails' hfails'' heq
      rw [answersFrom] at heq
      obtain ⟨hfail', hfails'⟩ := forall_mem_cons.1 hfails'
      obtain ⟨hfail'', hfails''⟩ := forall_mem_cons.1 hfails''
      obtain ⟨hhead, htail⟩ := cons.inj heq
      -- the answers so far are the same in the three runs, and so are the connections
      have hanswer := send_answer_eq (h' _) _ (hunknown _) hfail hfail' hbegins
      have htwin' := send_twin (h' _) _ hfail hfail' hanswer
      have htwin'' := send_twin (h'' _) _ hfail hfail'' (hanswer.trans hhead.symm)
      rw [← hanswer] at hfails' htail
      rw [hhead, ← hanswer] at hfails'' htail
      exact hrest _ _ (twin_update h' htwin' _) (twin_update h'' htwin'' _) tape' tape'' draws' hrestTake
        hdraws' hne hfails' hfails'' htail

theorem map_congr_support {α β : Type} {μ : PMF α} {f g : α → β} (h : ∀ a ∈ μ.support, f a = g a) :
    μ.map f = μ.map g := by
  ext b
  rw [PMF.map_apply, PMF.map_apply]
  refine tsum_congr fun a => ?_
  by_cases ha : a ∈ μ.support
  · rw [h a ha]
  · rw [(μ.apply_eq_zero_iff a).2 ha, ite_self, ite_self]

/-- No salt is certain, whatever was drawn before. -/
def FreshSalts (μ : PMF (List (Draws c))) : Prop :=
  ∀ tape ∈ μ.support, ∀ (k : Nat) (draws : Draws c), tape[k]? = some draws → ∀ salt : D,
    ∃ tape' ∈ μ.support, tape'.take k = tape.take k ∧
      ∃ draws' : Draws c, tape'[k]? = some draws' ∧ draws'.salt ≠ salt

/-- Two names, one without a credential, tried in the same way and without success: the answers have
the same distribution exactly if no exchange is started for a credential of the other. -/
theorem answers_same_distribution_iff (c : Crypto D) (users : Nat → Text → Option (SaslUser D))
    (known unknown : Text) (client : Strategy) (μ : PMF (List (Draws c))) (hfresh : FreshSalts μ)
    (hunknown : ∀ i mechanism, (users i unknown).bind (·.scramCredential mechanism) = none)
    (hfails : ∀ tape ∈ μ.support, Refused (answers c users known client tape))
    (hfails' : ∀ tape ∈ μ.support, Refused (answers c users unknown client tape)) :
    (μ.map fun tape => answers c users known client tape) =
        (μ.map fun tape => answers c users unknown client tape) ↔
      ∀ tape ∈ μ.support, ¬ Starts c users known client tape := by
  have hnone : ∀ i mechanism, storedFor (users i) unknown mechanism = none := by
    intro i mechanism
    rw [storedFor, hunknown]
    rfl
  constructor
  · intro hsame tape htape hstarts
    obtain ⟨k, salt, draws, hdraws, htells⟩ :=
      exists_salt_of_startsFrom hnone (hfails tape htape) hstarts
    obtain ⟨tape', htape', htake, draws', hdraws', hne⟩ := hfresh tape htape k draws hdraws salt
    -- the unknown name's answers for these draws are answers that the known one gets for others
    have hmem := (PMF.mem_support_map_iff (fun tape => answers c users unknown client tape) μ _).2
      ⟨tape', htape', rfl⟩
    rw [← hsame] at hmem
    obtain ⟨tape'', htape'', heq⟩ := (PMF.mem_support_map_iff _ _ _).1 hmem
    exact htells _ _ (fun _ => ⟨rfl, rfl, rfl⟩) (fun _ => ⟨rfl, rfl, rfl⟩) tape' tape'' draws' htake
      hdraws' hne (hfails' tape' htape') (hfails tape'' htape'') heq
  · intro hstarts
    exact map_congr_support fun tape htape => answersFrom_eq (fun _ => ⟨rfl, rfl, rfl⟩) hnone
      (hfails tape htape) (hfails' tape htape) (hstarts tape htape)

end

/-! ## Trying a name twice -/

def retryFirst : NamedFirst where
  flag := ['n']
  authzid := []
  before := []
  after := [['r', '=', 'x']]
  nul_not_mem_flag := by decide
  comma_not_mem_flag h := by simp at h
  comma_not_mem_authzid := not_mem_nil
  comma_not_mem_before _ h _ := by cases h
  comma_not_mem_after := by decide
  no_name_before _ h := absurd h not_mem_nil

/-- Start exchanges of one mechanism on one connection, again and again. -/
def retry (mechanism : SaslMechanism) : Strategy := fun seen =>
  (0, if seen.length % 2 = 0 then .handshake [mechanism.asStr] else .clientFirst retryFirst)

variable [DecidableEq D]

def handshakeAccepted : Answer :=
  .handshake ⟨0, enabledMechanisms.map SaslMechanism.asStr⟩

def retryAnswer (c : Crypto D) (users : Text → Option (SaslUser D)) (mechanism : SaslMechanism)
    (name : Text) (draws : Draws c) : Answer :=
  .authenticate (serverFirst c users mechanism ⟨join (retryFirst.bareParts name), name, ['x']⟩ draws)

theorem parse_retryFirst (name : Text) : parse (Utf8.encode (retryFirst.text name)) =
    .ok ⟨join (retryFirst.bareParts name), name, ['x']⟩ := by
  rw [retryFirst.parse_text_eq]
  rfl

theorem send_handshake (name : Text) (hscram : Scram mechanism) :
    send c name a (.handshake [mechanism.asStr]) draws = (handshakeAccepted,
      { a with state := .handshakeComplete mechanism, negotiated := some mechanism }) := by
  rcases hscram with rfl | rfl <;> rfl

/-- A handshake and a client-first message, which starts an exchange for what is stored; the
connection keeps its users. -/
theorem answersFrom_retry (connections : Nat → SaslAuthenticator D) (name : Text) (hscram : Scram mechanism)
    (hseen : seen.length % 2 = 0) (d d' : Draws c) (tape : List (Draws c)) :
    ∃ connections' seen', (connections' 0).users = (connections 0).users ∧ seen'.length % 2 = 0 ∧
      answersFrom c name (retry mechanism) connections seen (d :: d' :: tape) =
        handshakeAccepted :: retryAnswer c (connections 0).users mechanism name d' ::
          answersFrom c name (retry mechanism) connections' seen' tape ∧
      (StartsFrom c name (retry mechanism) connections seen (d :: d' :: tape) →
        (storedFor (connections 0).users name mechanism).isSome ∨
          StartsFrom c name (retry mechanism) connections' seen' tape) := by
  have hodd : (seen ++ [handshakeAccepted]).length % 2 ≠ 0 := by
    rw [length_append, length_singleton]
    omega
  obtain ⟨exchange, hsend⟩ := send_clientFirst d'
    (a := { connections 0 with state := .handshakeComplete mechanism, negotiated := some mechanism })
    rfl hscram (parse_retryFirst name)
  rw [answersFrom, StartsFrom]
  simp only [retry, if_pos hseen, send_handshake name hscram]
  rw [answersFrom, StartsFrom]
  simp only [retry, if_neg hodd, update_self, hsend]
  refine ⟨_, _, ?_, ?_, rfl, ?_⟩
  · rw [update_self]
  · simp only [length_append, length_singleton]
    omega
  · rintro (hbegins | ⟨selected, hstate, hstored, -⟩ | hstarts)
    · exact hbegins.elim
    · cases hstate
      exact .inl hstored
    · exact .inr hstarts

theorem answers_retry (users : Nat → Text → Option (SaslUser D)) (name : Text) (hscram : Scram mechanism)
    (d₀ d₁ d₂ d₃ : Draws c) :
    answers c users name (retry mechanism) [d₀, d₁, d₂, d₃] =
      [handshakeAccepted, retryAnswer c (users 0) mechanism name d₁, handshakeAccepted,
        retryAnswer c (users 0) mechanism name d₃] ∧
      (Starts c users name (retry mechanism) [d₀, d₁, d₂, d₃] →
        (storedFor (users 0) name mechanism).isSome) := by
  obtain ⟨connections, seen, husers, hseen, hfirst, hstarts⟩ :=
    answersFrom_retry (fun i => ⟨users i, .initial, none, none⟩) name hscram
      (rfl : ([] : List Answer).length % 2 = 0) d₀ d₁ [d₂, d₃]
  obtain ⟨connections', seen', -, -, hsecond, hstarts'⟩ :=
    answersFrom_retry connections name hscram hseen d₂ d₃ []
  rw [husers] at hsecond hstarts'
  constructor
  · rw [answers, hfirst, hsecond]
    rfl
  · intro h
    rcases hstarts h with hstored | h
    · exact hstored
    · exact (hstarts' h).resolve_right id

/-! ## Concrete draws -/

def storedSalt : List UInt8 := List.replicate 16 7

def storedCredential : ScramCredential (List UInt8) where
  mechanism := .scramSha256
  salt := storedSalt
  storedKey := transparent.hash .scramSha256
    (clientKey transparent .scramSha256 "secret".toList storedSalt defaultIterations)
  serverKey := transparent.hmac .scramSha256
    (transparent.hi .scramSha256 "secret".toList storedSalt defaultIterations) "Server Key".toList
  iterations := defaultIterations

def scramUsers (_ : Nat) (name : Text) : Option (SaslUser (List UInt8)) :=
  if name = "alice".toList then some ⟨none, some storedCredential, none⟩ else none

abbrev RandomBytes (n : Nat) := Fin n → Fin 256

def RandomBytes.toList {n : Nat} (bytes : RandomBytes n) : List UInt8 :=
  List.ofFn fun i => UInt8.ofNat (bytes i)

abbrev DrawnBytes := RandomBytes 24 × RandomBytes 16 × RandomBytes 31 × RandomBytes 32

/-- Random bytes as the server draws them; the first byte of the stored key makes it none that is a
hash. -/
def transparentDraw (bytes : DrawnBytes) : Draws transparent where
  nonce := Base64.encode bytes.1.toList
  comma_not_mem_nonce := transparent.comma_not_mem_encode bytes.1.toList
  salt := bytes.2.1.toList
  storedKey := 1 :: bytes.2.2.1.toList
  serverKey := bytes.2.2.2.toList
  hash_ne_storedKey _ _ h := absurd (cons.inj h).1 (by decide)

/-- Four draws, uniform and independent. -/
noncomputable def fourDraws : PMF (List (Draws transparent)) :=
  (PMF.uniformOfFintype (Fin 4 → DrawnBytes)).map fun bytes =>
    List.ofFn fun i => transparentDraw (bytes i)

theorem mem_support_fourDraws (bytes : Fin 4 → DrawnBytes) :
    (List.ofFn fun i => transparentDraw (bytes i)) ∈ fourDraws.support :=
  (PMF.mem_support_map_iff _ _ _).2 ⟨bytes, PMF.mem_support_uniformOfFintype bytes, rfl⟩

theorem freshSalts_fourDraws : FreshSalts fourDraws := by
  intro tape htape k draws hdraws salt
  obtain ⟨bytes, -, rfl⟩ := (PMF.mem_support_map_iff _ _ _).1 htape
  obtain ⟨hk, -⟩ := List.getElem?_eq_some_iff.1 hdraws
  rw [length_ofFn] at hk
  -- one of two salts is another one
  obtain ⟨byte, hbyte⟩ : ∃ byte : Fin 256,
      (transparentDraw (0, (fun _ => byte), 0, 0)).salt ≠ salt := by
    by_contra hall
    push Not at hall
    exact absurd ((hall 0).trans (hall 1).symm) (by decide)
  refine ⟨_, mem_support_fourDraws (update bytes ⟨k, hk⟩ (0, (fun _ => byte), 0, 0)), ?_,
    transparentDraw (0, (fun _ => byte), 0, 0), ?_, hbyte⟩
  · refine List.ext_getElem (by simp) fun i hi _ => ?_
    rw [length_take] at hi
    have hne : (⟨i, by omega⟩ : Fin 4) ≠ ⟨k, hk⟩ := Fin.ne_of_val_ne (by dsimp only; omega)
    rw [getElem_take, getElem_take, List.getElem_ofFn, List.getElem_ofFn, update_of_ne hne]
  · rw [List.getElem?_eq_getElem (by rwa [length_ofFn]), List.getElem_ofFn, update_self]

theorem exists_of_mem_support_fourDraws (h : tape ∈ fourDraws.support) :
    ∃ d₀ d₁ d₂ d₃, tape = [d₀, d₁, d₂, d₃] := by
  obtain ⟨bytes, -, rfl⟩ := (PMF.mem_support_map_iff _ _ _).1 h
  exact ⟨_, _, _, _, rfl⟩

theorem retry_refused (name : Text) (hscram : Scram mechanism) (htape : tape ∈ fourDraws.support) :
    Refused (answers transparent scramUsers name (retry mechanism) tape) := by
  obtain ⟨d₀, d₁, d₂, d₃, rfl⟩ := exists_of_mem_support_fourDraws htape
  rw [(answers_retry scramUsers name hscram d₀ d₁ d₂ d₃).1]
  intro answer hanswer
  fin_cases hanswer <;> rfl

/-- Alice has no credential for the other mechanism, and two exchanges of it tell nothing. -/
theorem answers_same_distribution_sha512 :
    (fourDraws.map fun tape => answers transparent scramUsers "alice".toList (retry .scramSha512) tape) =
      fourDraws.map fun tape => answers transparent scramUsers "mallory".toList (retry .scramSha512) tape := by
  refine (answers_same_distribution_iff transparent scramUsers "alice".toList "mallory".toList
    (retry .scramSha512) fourDraws freshSalts_fourDraws (fun _ _ => rfl)
    (fun _ htape => retry_refused _ (.inr rfl) htape)
    fun _ htape => retry_refused _ (.inr rfl) htape).2 fun tape htape hstarts => ?_
  obtain ⟨d₀, d₁, d₂, d₃, rfl⟩ := exists_of_mem_support_fourDraws htape
  exact absurd ((answers_retry scramUsers _ (.inr rfl) d₀ d₁ d₂ d₃).2 hstarts) (by decide)

/-- Alice has a credential and mallory none: alice's salts are the same in two exchanges, mallory's
can differ. -/
theorem salts_differ_for_unknown :
    (∃ user, scramUsers 0 "alice".toList = some user ∧ user.scramSha256 = some storedCredential) ∧
      (∀ i mechanism, (scramUsers i "mallory".toList).bind (·.scramCredential mechanism) = none) ∧
      (∀ tape ∈ fourDraws.support, ∀ name, ∀ answer ∈
          answers transparent scramUsers name (retry .scramSha256) tape, answer.completes = false) ∧
      (fourDraws.map fun tape => answers transparent scramUsers "alice".toList (retry .scramSha256) tape) ≠
        fourDraws.map fun tape =>
          answers transparent scramUsers "mallory".toList (retry .scramSha256) tape := by
  refine ⟨⟨_, rfl, rfl⟩, fun _ _ => rfl, fun _ htape name => retry_refused name (.inl rfl) htape,
    fun hsame => ?_⟩
  -- the salt of an exchange is its number
  let bytes : Fin 4 → DrawnBytes := fun i => (0, fun _ => Fin.castLE (by decide) i, 0, 0)
  have hmem := (PMF.mem_support_map_iff
    (fun tape => answers transparent scramUsers "mallory".toList (retry .scramSha256) tape) fourDraws
    _).2 ⟨_, mem_support_fourDraws bytes, rfl⟩
  rw [← hsame] at hmem
  obtain ⟨tape', htape', hanswers⟩ := (PMF.mem_support_map_iff _ _ _).1 hmem
  obtain ⟨d₀, d₁, d₂, d₃, rfl⟩ := exists_of_mem_support_fourDraws htape'
  have hmallory := (answers_retry scramUsers "mallory".toList (.inl rfl) (transparentDraw (bytes 0))
    (transparentDraw (bytes 1)) (transparentDraw (bytes 2)) (transparentDraw (bytes 3))).1
  have hanswers := (answers_retry scramUsers _ (.inl rfl) d₀ d₁ d₂ d₃).1.symm.trans
    (hanswers.trans hmallory)
  have hsalts := congrArg (List.map Answer.salt) hanswers
  simp only [map_cons, retryAnswer, salt_serverFirst (parse_retryFirst _), cons.injEq,
    some.injEq] at hsalts
  have hfirst : transparent.encode storedSalt = transparent.encode (transparentDraw (bytes 1)).salt := hsalts.2.1
  have hsecond : transparent.encode storedSalt = transparent.encode (transparentDraw (bytes 3)).salt :=
    hsalts.2.2.2.1
  have hdecoded := congrArg transparent.decode (hfirst.symm.trans hsecond)
  rw [transparent.decode_encode, transparent.decode_encode] at hdecoded
  exact absurd (some.inj hdecoded) (by decide)

end ChronikStream.Sasl
