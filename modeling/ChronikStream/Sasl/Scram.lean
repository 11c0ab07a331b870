import ChronikStream.Lib.Base64
import ChronikStream.Lib.Fallible
import ChronikStream.Lib.Utf8
import Mathlib.Data.List.Infix

/-!
# SCRAM exchanges

`ScramExchange.start` answers a client-first message and `ScramExchange.finish` checks the proof of
a client-final one. An attribute is found by its letter (`attributeOf`), wherever it stands. The
hash functions are black boxes (`Crypto`) over a type `D` of byte strings, and what is drawn at
random is an argument (`Draws`).
-/

namespace ChronikStream.Sasl

open Fallible List

abbrev Text := List Char

inductive SaslMechanism where
  | plain | scramSha256 | scramSha512 | gssApi | oAuthBearer
  deriving DecidableEq

def SaslMechanism.fromStr : String → Option SaslMechanism
  | "PLAIN" => some .plain
  | "SCRAM-SHA-256" => some .scramSha256
  | "SCRAM-SHA-512" => some .scramSha512
  | "GSSAPI" => some .gssApi
  | "OAUTHBEARER" => some .oAuthBearer
  | _ => none

def SaslMechanism.asStr : SaslMechanism → String
  | .plain => "PLAIN"
  | .scramSha256 => "SCRAM-SHA-256"
  | .scramSha512 => "SCRAM-SHA-512"
  | .gssApi => "GSSAPI"
  | .oAuthBearer => "OAUTHBEARER"

inductive SaslError where
  | unsupportedMechanism (name : String)
  | invalidCredentials
  | protocolError (message : String)
  | internalError (message : String)
  deriving DecidableEq

/-- The text an error is answered with. -/
def SaslError.message : SaslError → String
  | .unsupportedMechanism name => "Unsupported mechanism: " ++ name
  | .invalidCredentials => "Invalid credentials"
  | .protocolError message => "Protocol error: " ++ message
  | .internalError message => "Internal error: " ++ message

/-! ## Steps that can fail -/

/-- `ok_or_else`. -/
def okOr {α : Type*} (o : Option α) (e : SaslError) : Except SaslError α :=
  match o with
  | some a => .ok a
  | none => .error e

/-- A check that returns the error where it fails. -/
def require (p : Prop) [Decidable p] (e : SaslError) : Except SaslError Unit :=
  if p then .ok () else .error e

@[simp] theorem okOr_some (a : α) (e : SaslError) : okOr (some a) e = .ok a := rfl

theorem okOr_eq_ok : okOr o e = .ok a ↔ o = some a := by
  cases o <;> simp [okOr]

theorem require_eq_ok [Decidable p] : require p e = .ok u ↔ p := by
  by_cases h : p <;> simp [require, h]

theorem require_eq_error [Decidable p] : require p e = .error e' ↔ ¬ p ∧ e = e' := by
  by_cases h : p <;> simp [require, h]

/-! ## Texts of attributes -/

/-- Parts with commas between them. -/
def join (parts : List Text) : Text :=
  [','].intercalate parts

/-- Read a single-letter attribute: the first part that starts with it. -/
def attributeOf (message : Text) (key : Char) : Option Text :=
  ((message.splitOn ',').find? fun part => [key, '='].isPrefixOf part).map (·.drop 2)

/-- The position behind the second comma. -/
def gs2HeaderLenFrom (commas idx : Nat) : Text → Except SaslError Nat
  | [] => .error (.protocolError "client-first has no GS2 header")
  | ch :: rest =>
    if ch = ',' then
      if commas + 1 = 2 then .ok (idx + 1) else gs2HeaderLenFrom (commas + 1) (idx + 1) rest
    else gs2HeaderLenFrom commas (idx + 1) rest

def gs2HeaderLen (message : Text) : Except SaslError Nat :=
  gs2HeaderLenFrom 0 0 message

/-- The texts before and behind the last place of a pattern. -/
def rsplitOnce (pattern : Text) : Text → Option (Text × Text)
  | [] => none
  | c :: rest =>
    match rsplitOnce pattern rest with
    | some (head, tail) => some (c :: head, tail)
    | none => if pattern.isPrefixOf (c :: rest) then some ([], (c :: rest).drop pattern.length) else none

/-- `replace` in at most `n` steps. -/
def replaceFrom (pattern new : Text) : Nat → Text → Text
  | 0, text => text
  | _ + 1, [] => []
  | n + 1, c :: rest =>
    if pattern.isPrefixOf (c :: rest) then new ++ replaceFrom pattern new n ((c :: rest).drop pattern.length)
    else c :: replaceFrom pattern new n rest

def replace (pattern new text : Text) : Text :=
  replaceFrom pattern new text.length text

/-- The escapes of a user name, undone one after the other. -/
def saslprepDecode (username : Text) : Text :=
  replace ['=', '3', 'D'] ['='] (replace ['=', '2', 'C'] [','] username)

/-- A user name as a client sends it. -/
def saslprepEncode (username : Text) : Text :=
  (username.flatMap fun c => if c = '=' then ['=', '3', 'D'] else [c]).flatMap
    fun c => if c = ',' then ['=', '2', 'C'] else [c]

theorem join_cons_cons (part next : Text) (parts : List Text) :
    join (part :: next :: parts) = part ++ ',' :: join (next :: parts) := by
  simp [join, intercalate]

/-- Joined parts are split at the commas between and within them. -/
theorem splitOn_join (h : parts ≠ []) :
    (join parts).splitOn ',' = parts.flatMap (·.splitOn ',') := by
  induction parts with
  | nil => exact absurd rfl h
  | cons part parts ih =>
    cases parts with
    | nil => simp [join]
    | cons next parts =>
      rw [join_cons_cons, splitOn_append_cons_self, ih (cons_ne_nil _ _)]
      rfl

/-- Parts without a comma are read back. -/
theorem splitOn_join_of_not_mem (h : parts ≠ []) (hparts : ∀ part ∈ parts, ',' ∉ part) :
    (join parts).splitOn ',' = parts :=
  splitOn_intercalate ',' hparts h

theorem join_splitOn (text : Text) : join (text.splitOn ',') = text :=
  intercalate_splitOn ','

/-- No part has a comma. -/
theorem comma_not_mem_of_mem_splitOn {text part : Text} (h : part ∈ text.splitOn ',') : ',' ∉ part := by
  induction text generalizing part with
  | nil =>
    rw [splitOn_nil, mem_singleton] at h
    rw [h]
    exact not_mem_nil
  | cons ch text ih =>
    rw [splitOn_cons_eq_if_modifyHead] at h
    split at h
    · rcases mem_cons.1 h with rfl | h
      · exact not_mem_nil
      · exact ih h
    rename_i hne
    cases hsplit : text.splitOn ',' with
    | nil => exact absurd hsplit (splitOn_ne_nil _ _)
    | cons head tail =>
    rw [hsplit] at h
    rw [hsplit] at ih
    rcases mem_cons.1 h with rfl | h
    · intro hmem
      rcases mem_cons.1 hmem with heq | hmem
      · exact hne (by rw [heq, beq_self_eq_true])
      · exact ih mem_cons_self hmem
    · exact ih (mem_cons_of_mem _ h)

/-- The parts of a text occur in it. -/
theorem infix_of_mem_splitOn (h : part ∈ text.splitOn ',') : part <:+: text := by
  have hjoin : ∀ parts : List Text, part ∈ parts → part <:+: join parts := by
    intro parts
    induction parts with
    | nil => exact fun hmem => absurd hmem not_mem_nil
    | cons next parts ih =>
      intro hmem
      cases parts with
      | nil =>
        rw [mem_singleton.1 hmem, join, intercalate_singleton]
      | cons next' parts =>
      rcases mem_cons.1 hmem with rfl | hmem
      · exact (prefix_append part _).isInfix
      · exact (ih hmem).trans ((suffix_cons ',' _).trans (suffix_append next _)).isInfix
  rw [← join_splitOn text]
  exact hjoin _ h

/-- An attribute that is read is one of the parts. -/
theorem attributeOf_eq_some (h : attributeOf message key = some value) :
    key :: '=' :: value ∈ message.splitOn ',' := by
  obtain ⟨part, hfind, rfl⟩ := Option.map_eq_some_iff.1 h
  have hmem := mem_of_find?_eq_some hfind
  have hpre := find?_some hfind
  obtain ⟨rest, rfl⟩ := isPrefixOf_iff_prefix.1 hpre
  exact hmem

/-- The last `,p=` is the one with no comma behind it. -/
theorem rsplitOnce_append (ht : ',' ∉ ys) :
    rsplitOnce [',', 'p', '='] (xs ++ ',' :: 'p' :: '=' :: ys) = some (xs, ys) := by
  have hnone : ∀ t : Text, ',' ∉ t → rsplitOnce [',', 'p', '='] t = none := by
    intro t
    induction t with
    | nil => exact fun _ => rfl
    | cons c t ih =>
      intro hc
      rw [mem_cons, not_or] at hc
      rw [rsplitOnce, ih hc.2]
      simp [hc.1]
  induction xs with
  | nil =>
    have h1 : rsplitOnce [',', 'p', '='] ('p' :: '=' :: ys) = none := by
      refine hnone _ ?_
      simp [ht]
    rw [nil_append, rsplitOnce, h1]
    simp
  | cons c xs ih =>
    rw [cons_append, rsplitOnce, ih]

/-- Characters other than commas are passed over. -/
theorem gs2HeaderLenFrom_append (h : ',' ∉ text) :
    gs2HeaderLenFrom commas idx (text ++ rest) = gs2HeaderLenFrom commas (idx + text.length) rest := by
  induction text generalizing idx with
  | nil => rfl
  | cons c text ih =>
    rw [mem_cons, not_or] at h
    rw [cons_append, gs2HeaderLenFrom, if_neg (Ne.symm h.1), ih h.2, length_cons]
    congr 1
    omega

/-- The header ends with its second comma. -/
theorem gs2HeaderLen_append (hflag : ',' ∉ flag) (hauthzid : ',' ∉ authzid) :
    gs2HeaderLen (flag ++ ',' :: (authzid ++ ',' :: bare)) = .ok (flag ++ ',' :: (authzid ++ [','])).length := by
  rw [gs2HeaderLen, gs2HeaderLenFrom_append hflag, gs2HeaderLenFrom,
    gs2HeaderLenFrom_append hauthzid, gs2HeaderLenFrom]
  simp
  omega

/-- A character that starts no pattern stays. -/
theorem replaceFrom_of_ne (h : c ≠ p) :
    replaceFrom (p :: pattern) new (n + 1) (c :: rest) = c :: replaceFrom (p :: pattern) new n rest := by
  rw [replaceFrom]
  simp [Ne.symm h]

/-- A pattern is replaced. -/
theorem replaceFrom_pattern : replaceFrom (p :: pattern) new (n + 1) (p :: pattern ++ rest) =
      new ++ replaceFrom (p :: pattern) new n rest := by
  rw [cons_append, replaceFrom, if_pos (by simp), ← cons_append, drop_left]

/-- What one character of a user name is sent as. -/
def escape (c : Char) : Text :=
  if c = '=' then ['=', '3', 'D'] else if c = ',' then ['=', '2', 'C'] else [c]

/-- The two replacements escape each character on its own. -/
theorem saslprepEncode_eq (username : Text) : saslprepEncode username = username.flatMap escape := by
  rw [saslprepEncode, flatMap_assoc]
  congr 1
  funext c
  by_cases h : c = '='
  · subst h
    rfl
  by_cases h' : c = ','
  · subst h'
    rfl
  · simp [escape, h, h']

/-- An escaped name is one part of a message. -/
theorem comma_not_mem_saslprepEncode (username : Text) : ',' ∉ saslprepEncode username := by
  rw [saslprepEncode_eq]
  intro h
  obtain ⟨c, -, hc⟩ := mem_flatMap.1 h
  rw [escape] at hc
  split at hc
  · exact absurd hc (by decide)
  split at hc
  · exact absurd hc (by decide)
  · rename_i _ hne
    exact hne (mem_singleton.1 hc).symm

/-- The first replacement puts the commas back and leaves the other escapes. -/
theorem replaceFrom_comma {username : Text} (hn : (username.flatMap escape).length ≤ n) :
    replaceFrom ['=', '2', 'C'] [','] n (username.flatMap escape) =
      username.flatMap fun c => if c = '=' then ['=', '3', 'D'] else [c] := by
  induction username generalizing n with
  | nil => cases n <;> rfl
  | cons c username ih =>
    rw [flatMap_cons, length_append] at hn
    rw [flatMap_cons, flatMap_cons]
    by_cases heq : c = '='
    · subst heq
      rw [show escape '=' = ['=', '3', 'D'] from rfl] at hn ⊢
      rw [length_cons, length_cons, length_singleton] at hn
      obtain ⟨m, rfl⟩ : ∃ m, n = m + 3 := ⟨n - 3, by omega⟩
      simp only [cons_append, nil_append, if_true]
      rw [replaceFrom, if_neg (by simp), replaceFrom_of_ne (by decide), replaceFrom_of_ne (by decide),
        ih (by omega)]
    · by_cases hcomma : c = ','
      · subst hcomma
        rw [show escape ',' = ['=', '2', 'C'] from rfl] at hn ⊢
        rw [length_cons] at hn
        obtain ⟨m, rfl⟩ : ∃ m, n = m + 1 := ⟨n - 1, by omega⟩
        rw [replaceFrom_pattern, ih (by omega), if_neg heq]
      · rw [show escape c = [c] by simp [escape, heq, hcomma]] at hn ⊢
        rw [length_singleton] at hn
        obtain ⟨m, rfl⟩ : ∃ m, n = m + 1 := ⟨n - 1, by omega⟩
        rw [singleton_append, replaceFrom_of_ne heq, ih (by omega), if_neg heq, singleton_append]

/-- The second replacement puts the equals signs back. -/
theorem replaceFrom_equals
    (hn : (username.flatMap fun c => if c = '=' then ['=', '3', 'D'] else [c]).length ≤ n) :
    replaceFrom ['=', '3', 'D'] ['='] n (username.flatMap fun c => if c = '=' then ['=', '3', 'D'] else [c]) =
      username := by
  induction username generalizing n with
  | nil => cases n <;> rfl
  | cons c username ih =>
    rw [flatMap_cons] at hn
    rw [flatMap_cons]
    by_cases heq : c = '='
    · subst heq
      rw [if_pos rfl] at hn ⊢
      obtain ⟨m, rfl⟩ : ∃ m, n = m + 1 := ⟨n - 1, by simp at hn; omega⟩
      rw [replaceFrom_pattern, ih (by simp at hn ⊢; omega)]
      rfl
    · rw [if_neg heq] at hn ⊢
      obtain ⟨m, rfl⟩ : ∃ m, n = m + 1 := ⟨n - 1, by simp at hn; omega⟩
      rw [singleton_append, replaceFrom_of_ne heq, ih (by simp at hn ⊢; omega)]

/-- The server reads the name that a client sends. -/
theorem saslprepDecode_saslprepEncode (username : Text) : saslprepDecode (saslprepEncode username) = username := by
  rw [saslprepDecode, saslprepEncode_eq, replace, replace, replaceFrom_comma le_rfl, replaceFrom_equals le_rfl]

/-! ## Credentials -/

/-- The black boxes, and the text a byte string is sent as. -/
structure Crypto (D : Type) where
  hash : SaslMechanism → D → D
  hmac : SaslMechanism → D → Text → D
  hi : SaslMechanism → Text → D → Nat → D
  xor : D → D → D
  len : D → Nat
  encode : D → Text
  decode : Text → Option D
  decode_encode : ∀ d, decode (encode d) = some d
  comma_not_mem_encode : ∀ d, ',' ∉ encode d

/-- Byte strings are sent in base64. -/
def Crypto.ofBytes (hash : SaslMechanism → List UInt8 → List UInt8)
    (hmac : SaslMechanism → List UInt8 → List UInt8 → List UInt8)
    (hi : SaslMechanism → List UInt8 → List UInt8 → Nat → List UInt8) : Crypto (List UInt8) where
  hash := hash
  hmac m key text := hmac m key (Utf8.encode text)
  hi m password salt iterations := hi m (Utf8.encode password) salt iterations
  xor := zipWith (· ^^^ ·)
  len := length
  encode := Base64.encode
  decode := Base64.decode
  decode_encode := Base64.decode_encode
  comma_not_mem_encode _ h := absurd (Base64.mem_of_mem_encode h) (by decide +kernel)

structure ScramCredential (D : Type) where
  mechanism : SaslMechanism
  salt : D
  storedKey : D
  serverKey : D
  iterations : Nat

def defaultIterations : Nat := 4096
def minIterations : Nat := 4096

variable {D : Type} (c : Crypto D)

/-- The key a client derives from its password, with the salt and the iteration count it is told. -/
def clientKey (mechanism : SaslMechanism) (password : Text) (salt : D) (iterations : Nat) : D :=
  c.hmac mechanism (c.hi mechanism password salt iterations) "Client Key".toList

def ScramCredential.deriveWithSalt (password : Text) (mechanism : SaslMechanism) (iterations : Nat) (salt : D) :
    Except SaslError (ScramCredential D) := do
  require (minIterations ≤ iterations)
    (.internalError s!"SCRAM iteration count {iterations} is below the minimum {minIterations}")
  let salted := c.hi mechanism password salt iterations
  return {
    mechanism
    salt
    storedKey := c.hash mechanism (clientKey c mechanism password salt iterations)
    serverKey := c.hmac mechanism salted "Server Key".toList
    iterations }

/-- The server nonce, and a credential that no proof satisfies. -/
structure Draws where
  nonce : Text
  comma_not_mem_nonce : ',' ∉ nonce
  salt : D
  storedKey : D
  serverKey : D
  hash_ne_storedKey : ∀ mechanism d, c.hash mechanism d ≠ storedKey

def dummyCredential (mechanism : SaslMechanism) (draws : Draws c) : ScramCredential D :=
  ⟨mechanism, draws.salt, draws.storedKey, draws.serverKey, defaultIterations⟩

/-! ## The exchange -/

structure ScramExchange (D : Type) where
  mechanism : SaslMechanism
  username : Text
  clientFirstBare : Text
  serverFirst : Text
  combinedNonce : Text
  credential : ScramCredential D

structure ClientFirst where
  bare : Text
  username : Text
  nonce : Text

def ClientFirst.parse (clientFirst : List UInt8) : Except SaslError ClientFirst := do
  let message ← okOr (Utf8.decode? clientFirst) (.protocolError "client-first is not valid UTF-8")
  require (['p', '='].isPrefixOf message = false) (.protocolError "channel binding requested but not supported")
  let bareStart ← gs2HeaderLen message
  let bare := message.drop bareStart
  let username ← okOr (attributeOf bare 'n') (.protocolError "client-first has no username")
  let nonce ← okOr (attributeOf bare 'r') (.protocolError "client-first has no nonce")
  require (nonce ≠ []) (.protocolError "client nonce is empty")
  return ⟨bare, saslprepDecode username, nonce⟩

def serverFirstMessage (combinedNonce : Text) (credential : ScramCredential D) : Text :=
  join ['r' :: '=' :: combinedNonce, 's' :: '=' :: c.encode credential.salt,
    'i' :: '=' :: Nat.toDigits 10 credential.iterations]

def ScramExchange.start (mechanism : SaslMechanism) (clientFirst : List UInt8)
    (credentialFor : Text → Option (ScramCredential D)) (draws : Draws c) :
    Except SaslError (ScramExchange D × Text) := do
  let first ← ClientFirst.parse clientFirst
  -- an unknown user is answered all the same
  let credential := ((credentialFor first.username).filter (·.mechanism = mechanism)).getD
    (dummyCredential c mechanism draws)
  let combinedNonce := first.nonce ++ draws.nonce
  let serverFirst := serverFirstMessage c combinedNonce credential
  return (⟨mechanism, first.username, first.bare, serverFirst, combinedNonce, credential⟩, serverFirst)

/-- What is read from a client-final message: its proof, and the text before the last `,p=`. -/
structure ClientFinal (D : Type) where
  proof : D
  withoutProof : Text

/-- The nonce of the message only has to end with the nonce of the exchange. -/
def ClientFinal.parse (combinedNonce : Text) (clientFinal : List UInt8) : Except SaslError (ClientFinal D) := do
  let message ← okOr (Utf8.decode? clientFinal) (.protocolError "client-final is not valid UTF-8")
  let nonce ← okOr (attributeOf message 'r') (.protocolError "client-final has no nonce")
  require (combinedNonce <:+ nonce) (.protocolError "client-final nonce does not match server-first")
  let proof ← okOr (attributeOf message 'p') (.protocolError "client-final has no proof")
  let proof ← okOr (c.decode proof) (.protocolError "client proof is not valid base64")
  let parts ← okOr (rsplitOnce [',', 'p', '='] message) (.protocolError "malformed client-final")
  return ⟨proof, parts.1⟩

/-- A proof for the stored key over a text: its exclusive or with the signature of the text is the
client key. -/
def ValidProof (mechanism : SaslMechanism) (storedKey : D) (authMessage : Text) (proof : D) : Prop :=
  c.len proof = c.len (c.hmac mechanism storedKey authMessage) ∧
    c.hash mechanism (c.xor proof (c.hmac mechanism storedKey authMessage)) = storedKey

def ScramExchange.authMessage (e : ScramExchange D) (withoutProof : Text) : Text :=
  join [e.clientFirstBare, e.serverFirst, withoutProof]

def ScramExchange.finish [DecidableEq D] (e : ScramExchange D) (clientFinal : List UInt8) :
    Except SaslError Text := do
  let final ← ClientFinal.parse c e.combinedNonce clientFinal
  let authMessage := e.authMessage final.withoutProof
  let clientSignature := c.hmac e.mechanism e.credential.storedKey authMessage
  require (c.len final.proof = c.len clientSignature) .invalidCredentials
  require (c.hash e.mechanism (c.xor final.proof clientSignature) = e.credential.storedKey) .invalidCredentials
  return 'v' :: '=' :: c.encode (c.hmac e.mechanism e.credential.serverKey authMessage)

variable {c} {e : ScramExchange D} {mechanism : SaslMechanism} {draws : Draws c} {text : Text}
  {credentialFor : Text → Option (ScramCredential D)} {clientFirst clientFinal : List UInt8}

/-- What a client-first message holds that is read. -/
theorem ClientFirst.parse_eq_ok (h : ClientFirst.parse bytes = .ok first) :
    ∃ message n username, bytes = Utf8.encode message ∧ gs2HeaderLen message = .ok n ∧
      first.bare = message.drop n ∧ attributeOf first.bare 'n' = some username ∧
      first.username = saslprepDecode username ∧ attributeOf first.bare 'r' = some first.nonce := by
  simp only [ClientFirst.parse, bind_eq_ok, okOr_eq_ok, require_eq_ok, Utf8.decode?_eq_some_iff] at h
  obtain ⟨message, hm, -, -, n, hn, username, hu, nonce, hr, -, -, hfirst⟩ := h
  cases hfirst
  exact ⟨message, n, username, hm, hn, rfl, hu, rfl, hr⟩

/-- The parts of a server-first message are its three attributes. -/
theorem splitOn_serverFirstMessage (h : ',' ∉ nonce) :
    (serverFirstMessage c nonce credential).splitOn ',' =
      ['r' :: '=' :: nonce, 's' :: '=' :: c.encode credential.salt,
        'i' :: '=' :: Nat.toDigits 10 credential.iterations] := by
  have hdigits : ',' ∉ Nat.toDigits 10 credential.iterations :=
    fun hmem => absurd (Nat.isDigit_of_mem_toDigits (by decide) (by decide) hmem) (by decide)
  refine splitOn_join_of_not_mem (cons_ne_nil _ _) ?_
  have hsalt := c.comma_not_mem_encode credential.salt
  simp [h, hdigits, hsalt]

/-- What an exchange keeps of its client-first message. -/
theorem ScramExchange.start_eq_ok (h : start c mechanism clientFirst credentialFor draws = .ok (e, text)) :
    ∃ first, ClientFirst.parse clientFirst = .ok first ∧ text = e.serverFirst ∧
      e.mechanism = mechanism ∧ e.username = first.username ∧ e.clientFirstBare = first.bare ∧
      e.combinedNonce = first.nonce ++ draws.nonce ∧
      e.serverFirst = serverFirstMessage c e.combinedNonce e.credential ∧
      e.credential = ((credentialFor first.username).filter (·.mechanism = mechanism)).getD
        (dummyCredential c mechanism draws) := by
  obtain ⟨first, hfirst, hrest⟩ := bind_eq_ok.1 h
  cases hrest
  exact ⟨first, hfirst, rfl, rfl, rfl, rfl, rfl, rfl, rfl⟩

/-- What is read of a client-final message. -/
theorem ClientFinal.parse_eq_ok : ClientFinal.parse c combinedNonce clientFinal = .ok final ↔
      ∃ message nonce proof tail, clientFinal = Utf8.encode message ∧ attributeOf message 'r' = some nonce ∧
        combinedNonce <:+ nonce ∧ attributeOf message 'p' = some proof ∧ c.decode proof = some final.proof ∧
        rsplitOnce [',', 'p', '='] message = some (final.withoutProof, tail) := by
  simp only [ClientFinal.parse, bind_eq_ok, okOr_eq_ok, require_eq_ok, Utf8.decode?_eq_some_iff]
  constructor
  · rintro ⟨message, hm, nonce, hn, -, hs, proof, hp, d, hd, parts, hparts, hfinal⟩
    cases hfinal
    exact ⟨message, nonce, proof, parts.2, hm, hn, hs, hp, hd, hparts⟩
  · rintro ⟨message, nonce, proof, tail, hm, hn, hs, hp, hd, hparts⟩
    exact ⟨message, hm, nonce, hn, (), hs, proof, hp, _, hd, _, hparts, rfl⟩

/-- A message is accepted exactly if its proof is valid for the stored key. -/
theorem ScramExchange.finish_eq_ok [DecidableEq D] :
    e.finish c clientFinal = .ok text ↔
      ∃ final, ClientFinal.parse c e.combinedNonce clientFinal = .ok final ∧
        ValidProof c e.mechanism e.credential.storedKey (e.authMessage final.withoutProof) final.proof ∧
        text = 'v' :: '=' ::
          c.encode (c.hmac e.mechanism e.credential.serverKey (e.authMessage final.withoutProof)) := by
  simp only [ScramExchange.finish, bind_eq_ok, require_eq_ok]
  constructor
  · rintro ⟨final, hfinal, -, hlen, -, hhash, htext⟩
    cases htext
    exact ⟨final, hfinal, ⟨hlen, hhash⟩, rfl⟩
  · rintro ⟨final, hfinal, ⟨hlen, hhash⟩, rfl⟩
    exact ⟨final, hfinal, (), hlen, (), hhash, rfl⟩

end ChronikStream.Sasl
