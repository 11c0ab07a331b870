import ChronikStream.Lib.Run
import ChronikStream.Lib.XorKnowledge
import ChronikStream.Sasl.Scram

/-!
# What a client that is let in has agreed to

Honest clients, the server, and an attacker that delivers every message. The GS2 header of a first
message is not signed, and the server never looks at its repetition in the final one (`c=`). An
accepted proof is one that an honest client computed over the same text (`transcript_agreement`); a
changed header is not noticed (`changed_header_accepted`).
-/

namespace ChronikStream.Sasl

open Machine Fallible List Option Utf8

variable {D : Type}

/-! ## Honest clients -/

/-- An honest client's session, up to its first message. -/
structure Client where
  user : Text
  mechanism : SaslMechanism
  flag : Text
  authzid : Text
  nonce : Text
  extensions : List Text
  comma_not_mem_flag : ',' ∉ flag
  comma_not_mem_authzid : ',' ∉ authzid
  comma_not_mem_nonce : ',' ∉ nonce
  comma_not_mem_extensions : ∀ part ∈ extensions, ',' ∉ part

namespace Client

variable (client : Client)

def gs2Header : Text := client.flag ++ ',' :: (client.authzid ++ [','])

def bareParts : List Text :=
  ('n' :: '=' :: saslprepEncode client.user) :: ('r' :: '=' :: client.nonce) :: client.extensions

def bare : Text := join client.bareParts

def first : Text := client.gs2Header ++ client.bare

end Client

def readDigits (digits : Text) : Option Nat :=
  if digits ≠ [] ∧ digits.all Char.isDigit then
    some (digits.foldl (fun n c => 10 * n + (c.toNat - '0'.toNat)) 0)
  else none

/-- A proof that an honest client has computed, and what it has read from the server-first message.
-/
structure Computed (D : Type) where
  client : Client
  serverFirst : Text
  nonce : Text
  salt : D
  iterations : Nat

/-- A nonce that continues the client's, a salt, an iteration count, and extensions, which are
ignored. -/
def Client.respond (c : Crypto D) (client : Client) (serverFirst : Text) : Option (Computed D) :=
  match serverFirst.splitOn ',' with
  | ('r' :: '=' :: nonce) :: ('s' :: '=' :: salt) :: ('i' :: '=' :: iterations) :: _ =>
    if client.nonce <+: nonce then
      (c.decode salt).bind fun salt => (readDigits iterations).map fun iterations =>
        ⟨client, serverFirst, nonce, salt, iterations⟩
    else none
  | _ => none

structure KeyId (D : Type) where
  mechanism : SaslMechanism
  password : Text
  salt : D
  iterations : Nat

/-- The header as it is repeated in the final message. -/
def channelBinding (header : Text) : Text := Base64.encode (encode header)

namespace Computed

def withoutProof (q : Computed D) : Text :=
  join ['c' :: '=' :: channelBinding q.client.gs2Header, 'r' :: '=' :: q.nonce]

def authMessage (q : Computed D) : Text :=
  join [q.client.bare, q.serverFirst, q.withoutProof]

def keyId (password : Text → Text) (q : Computed D) : KeyId D :=
  ⟨q.client.mechanism, password q.client.user, q.salt, q.iterations⟩

def proof (c : Crypto D) (password : Text → Text) (q : Computed D) : D :=
  let key := clientKey c q.client.mechanism (password q.client.user) q.salt q.iterations
  c.xor key (c.hmac q.client.mechanism (c.hash q.client.mechanism key) q.authMessage)

end Computed

/-! ## The network -/

/-- An exchange of the server, with the client-first message it has processed. -/
structure Processed (D : Type) where
  clientFirst : Text
  exchange : ScramExchange D

/-- An exchange that was completed, with the client-final message without its proof. -/
structure Finished (D : Type) where
  clientFirst : Text
  exchange : ScramExchange D
  withoutProof : Text

structure Network (D : Type) where
  computed : List (Computed D)
  exchanges : List (Processed D)
  finished : List (Finished D)

open ScramExchange (start start_eq_ok finish_eq_ok)

namespace Network

inductive Action (c : Crypto D) where
  /-- A client gets a server-first message and computes its proof. -/
  | clientRespond (client : Client) (serverFirst : Text)
  | serverStart (mechanism : SaslMechanism) (clientFirst : Text) (draws : Draws c)
  | serverFinish (i : Nat) (clientFinal : Text)

variable (c : Crypto D) [DecidableEq D] (credentialFor : SaslMechanism → Text → Option (ScramCredential D))

def step (s : Network D) : Action c → Option (Network D)
  | .clientRespond client serverFirst =>
    (client.respond c serverFirst).map fun q => { s with computed := q :: s.computed }
  | .serverStart mechanism clientFirst draws =>
    match start c mechanism (encode clientFirst) (credentialFor mechanism) draws with
    | .ok (exchange, _) => some { s with exchanges := s.exchanges ++ [⟨clientFirst, exchange⟩] }
    | .error _ => some s
  | .serverFinish i clientFinal =>
    s.exchanges[i]?.map fun p =>
      let s' := { s with exchanges := s.exchanges.eraseIdx i }
      match p.exchange.finish c (encode clientFinal), rsplitOnce [',', 'p', '='] clientFinal with
      | .ok _, some (withoutProof, _) =>
        { s' with finished := ⟨p.clientFirst, p.exchange, withoutProof⟩ :: s.finished }
      | _, _ => s'

def machine : Machine (Network D) (Action c) where
  init := ⟨[], [], []⟩
  step := step c credentialFor

end Network

open Network (machine)

/-! ## Agreement -/

variable {c : Crypto D}

def gs2HeaderOf (clientFirst : Text) : Text :=
  match gs2HeaderLen clientFirst with
  | .ok n => clientFirst.take n
  | .error _ => []

/-- The proof was computed for the first messages that the server has processed. -/
structure Computed.Agrees (q : Computed D) (f : Finished D) : Prop where
  user : q.client.user = f.exchange.username
  clientFirst : q.client.first = f.clientFirst
  serverFirst : q.serverFirst = f.exchange.serverFirst

/-- The final message repeats the header that the server has processed, and has a nonce and nothing
else. -/
def Finished.Conforms (f : Finished D) : Prop :=
  ∃ nonce, ',' ∉ nonce ∧
    f.withoutProof = join ['c' :: '=' :: channelBinding (gs2HeaderOf f.clientFirst), 'r' :: '=' :: nonce]

theorem Client.splitOn_bare (client : Client) : client.bare.splitOn ',' = client.bareParts := by
  refine splitOn_join_of_not_mem (cons_ne_nil _ _) ?_
  intro part hpart
  rcases mem_cons.1 hpart with rfl | hpart
  · simp [comma_not_mem_saslprepEncode]
  rcases mem_cons.1 hpart with rfl | hpart
  · simp [client.comma_not_mem_nonce]
  · exact client.comma_not_mem_extensions part hpart

theorem comma_not_mem_channelBinding (header : Text) : ',' ∉ channelBinding header :=
  fun h => absurd (Base64.mem_of_mem_encode h) (by decide +kernel)

theorem channelBinding_injective : Function.Injective channelBinding := by
  intro header header' h
  have h' := congrArg Base64.decode h
  rw [channelBinding, channelBinding, Base64.decode_encode, Base64.decode_encode, some.injEq] at h'
  exact encode_injective h'

/-- What a client reads of a server-first message are its first three parts. -/
def Computed.Read (q : Computed D) : Prop :=
  ∃ salt iterations rest, q.serverFirst.splitOn ',' = ('r' :: '=' :: q.nonce) :: salt :: iterations :: rest

theorem Computed.Read.comma_not_mem_nonce {q : Computed D} (h : q.Read) : ',' ∉ q.nonce := by
  obtain ⟨salt, iterations, rest, hread⟩ := h
  have hmem := comma_not_mem_of_mem_splitOn (hread ▸ mem_cons_self)
  simpa using hmem

theorem Client.respond_eq_some {client : Client}
    (h : client.respond c serverFirst = some q) : q.Read := by
  rw [Client.respond] at h
  split at h
  · rename_i nonce salt iterations rest hsplit
    split at h
    · obtain ⟨_, -, h⟩ := bind_eq_some_iff.1 h
      obtain ⟨_, -, rfl⟩ := map_eq_some_iff.1 h
      exact ⟨_, _, rest, hsplit⟩
    · cases h
  · cases h

theorem join_three (xs ys zs : Text) : join [xs, ys, zs] = xs ++ ',' :: (ys ++ ',' :: zs) := by
  simp [join, intercalate]

theorem eq_append_of_rsplitOnce
    (h : rsplitOnce pattern text = some (xs, ys)) : text = xs ++ pattern ++ ys := by
  induction text generalizing xs with
  | nil => cases h
  | cons ch text ih =>
    rw [rsplitOnce] at h
    split at h
    · rename_i xs' ys' hrest
      cases h
      rw [ih hrest, cons_append, cons_append]
    split at h
    · rename_i hpre
      cases h
      obtain ⟨rest, hrest⟩ := isPrefixOf_iff_prefix.1 hpre
      rw [← hrest, drop_left, nil_append]
    · cases h

/-- The parts of the first messages, if no part of the client's answer is in the server's half. -/
theorem append_eq_append_of_length_le {α : Type*} {xs ys xs' ys' : List α} (h : xs ++ ys = xs' ++ ys')
    (hlen : ys'.length ≤ ys.length) (hhead : ∀ y ∈ ys.head?, y ∉ xs') : xs = xs' ∧ ys = ys' := by
  rcases append_eq_append_iff.1 h with ⟨as, rfl, rfl⟩ | ⟨bs, rfl, rfl⟩
  · cases as with
    | nil => exact ⟨(append_nil xs).symm, rfl⟩
    | cons a as => exact absurd (mem_append_right xs mem_cons_self) (hhead a rfl)
  · rw [length_append] at hlen
    obtain rfl : bs = [] := length_eq_zero_iff.1 (by omega)
    exact ⟨append_nil xs', rfl⟩

section
variable {q : Computed D} {f : Finished D} {mechanism : SaslMechanism} {draws : Draws c}
  {credentialFor : SaslMechanism → Text → Option (ScramCredential D)} {text clientFinal nonce tail : Text}

theorem gs2HeaderOf_append_bare
    (hstart : start c mechanism (encode f.clientFirst) (credentialFor mechanism) draws =
      .ok (f.exchange, text)) : gs2HeaderOf f.clientFirst ++ f.exchange.clientFirstBare = f.clientFirst := by
  obtain ⟨first, hfirst, -, -, -, hbare, -⟩ := start_eq_ok hstart
  obtain ⟨message, n, -, hmessage, hlen, hdrop, -⟩ := ClientFirst.parse_eq_ok hfirst
  obtain rfl := encode_injective hmessage
  rw [gs2HeaderOf, hlen, hbare, hdrop, take_append_drop]

theorem Client.gs2HeaderOf_first (client : Client) : gs2HeaderOf client.first = client.gs2Header := by
  have hfirst : client.first = client.flag ++ ',' :: (client.authzid ++ ',' :: client.bare) := by
    simp [Client.first, Client.gs2Header]
  have hlen : gs2HeaderLen (client.flag ++ ',' :: (client.authzid ++ ',' :: client.bare)) = _ :=
    gs2HeaderLen_append client.comma_not_mem_flag client.comma_not_mem_authzid
  rw [gs2HeaderOf, hfirst, hlen, ← hfirst]
  exact take_left

section
variable (hstart : start c mechanism (encode f.clientFirst) (credentialFor mechanism) draws = .ok (f.exchange, text))
include hstart

theorem conforms_of_agrees (hcomma : ',' ∉ q.nonce)
    (hauth : q.authMessage = f.exchange.authMessage f.withoutProof) (h : q.Agrees f) : f.Conforms := by
  have hheader : q.client.gs2Header = gs2HeaderOf f.clientFirst := by
    rw [← h.clientFirst, Client.gs2HeaderOf_first]
  have hbare : q.client.bare = f.exchange.clientFirstBare := by
    have hfirst := h.clientFirst.trans (gs2HeaderOf_append_bare hstart).symm
    rw [Client.first, hheader] at hfirst
    exact append_cancel_left hfirst
  rw [Computed.authMessage, ScramExchange.authMessage, hbare, h.serverFirst, join_three, join_three] at hauth
  have hfinal : q.withoutProof = f.withoutProof := by simpa using hauth
  exact ⟨q.nonce, hcomma, by rw [← hfinal, Computed.withoutProof, hheader]⟩

theorem agrees_of_conforms (hfresh : ¬ draws.nonce <:+: f.clientFirst) (hq : q.Read)
    (hnonce : attributeOf clientFinal 'r' = some nonce) (hsuffix : f.exchange.combinedNonce <:+ nonce)
    (hsplit : rsplitOnce [',', 'p', '='] clientFinal = some (f.withoutProof, tail))
    (hauth : q.authMessage = f.exchange.authMessage f.withoutProof) (h : f.Conforms) : q.Agrees f := by
  have hqnonce := hq.comma_not_mem_nonce
  obtain ⟨salt, iterations, rest, hread⟩ := hq
  obtain ⟨nonce', hcomma, hfinal⟩ := h
  obtain ⟨first, hfirst, -, -, husername, hbare, hcombined, hsf, -⟩ := start_eq_ok hstart
  obtain ⟨message, n, username, hmessage, hlen, hdrop, hn, hdecode, hr⟩ := ClientFirst.parse_eq_ok hfirst
  have hcombinedComma : ',' ∉ f.exchange.combinedNonce := by
    have hmem := comma_not_mem_of_mem_splitOn (attributeOf_eq_some hr)
    simp_all [draws.comma_not_mem_nonce]
  have hfinalParts : ∀ header nonce : Text, ',' ∉ nonce →
      (join ['c' :: '=' :: channelBinding header, 'r' :: '=' :: nonce]).splitOn ',' =
        ['c' :: '=' :: channelBinding header, 'r' :: '=' :: nonce] := by
    intro header nonce hnonce
    refine splitOn_join_of_not_mem (cons_ne_nil _ _) ?_
    simp [hnonce, comma_not_mem_channelBinding]
  -- the nonce that the server has read is the one of the final message
  have hsame : nonce = nonce' := by
    have hclient := eq_append_of_rsplitOnce hsplit
    rw [append_assoc, cons_append] at hclient
    rw [attributeOf, hclient, splitOn_append_cons_self, hfinal, hfinalParts _ _ hcomma] at hnonce
    simpa using hnonce.symm
  -- both have signed the same parts
  have hparts : q.client.bareParts ++ q.serverFirst.splitOn ',' ++
        ['c' :: '=' :: channelBinding q.client.gs2Header, 'r' :: '=' :: q.nonce] =
      f.exchange.clientFirstBare.splitOn ',' ++ f.exchange.serverFirst.splitOn ',' ++
        ['c' :: '=' :: channelBinding (gs2HeaderOf f.clientFirst), 'r' :: '=' :: nonce'] := by
    have h := congrArg (splitOn ',') hauth
    rw [Computed.authMessage, ScramExchange.authMessage, splitOn_join (cons_ne_nil _ _),
      splitOn_join (cons_ne_nil _ _)] at h
    simp only [flatMap_cons, flatMap_nil, append_nil, ← append_assoc] at h
    rwa [Client.splitOn_bare, Computed.withoutProof, hfinalParts _ _ hqnonce, hfinal, hfinalParts _ _ hcomma] at h
  obtain ⟨hfirsts, hfinals⟩ := append_inj' hparts rfl
  simp only [cons.injEq, true_and, and_true] at hfinals
  obtain ⟨hheader, rfl⟩ := hfinals
  -- the nonce of the server is not in the client-first message, so no part of the server's answer is
  have hnotmem : ∀ part ∈ (q.serverFirst.splitOn ',').head?,
      part ∉ f.exchange.clientFirstBare.splitOn ',' := by
    rw [hread]
    rintro _ ⟨⟩ hmem
    apply hfresh
    have hdrawn : draws.nonce <:+: f.exchange.clientFirstBare := by
      refine List.IsInfix.trans ?_ (infix_of_mem_splitOn hmem)
      rw [hcombined, hsame] at hsuffix
      exact ((suffix_append first.nonce draws.nonce).trans
        (hsuffix.trans (suffix_append ['r', '='] q.nonce))).isInfix
    rw [← gs2HeaderOf_append_bare hstart]
    exact hdrawn.trans (suffix_append _ _).isInfix
  have hlength : (f.exchange.serverFirst.splitOn ',').length ≤ (q.serverFirst.splitOn ',').length := by
    rw [hsf, splitOn_serverFirstMessage hcombinedComma, hread]
    simp
  obtain ⟨hbareParts, hsfParts⟩ := append_eq_append_of_length_le hfirsts hlength hnotmem
  have hsameBare : q.client.bare = f.exchange.clientFirstBare := by
    rw [Client.bare, hbareParts, join_splitOn]
  refine ⟨?_, ?_, ?_⟩
  · rw [← hbare, ← hsameBare, attributeOf, Client.splitOn_bare, Client.bareParts] at hn
    obtain rfl : saslprepEncode q.client.user = username := by simpa using hn
    rw [husername, hdecode, saslprepDecode_saslprepEncode]
  · rw [Client.first, channelBinding_injective hheader, hsameBare, gs2HeaderOf_append_bare hstart]
  · rw [← join_splitOn q.serverFirst, hsfParts, join_splitOn]

end

end

/-! ## The attacker -/

/-- The hash functions of the server, and the secrets they are applied to. -/
def maskedKeys (c : Crypto D) : MaskedKeys D SaslMechanism (KeyId D) Text where
  hash := c.hash
  mac := c.hmac
  secret k := c.hi k.mechanism k.password k.salt k.iterations
  inst := KeyId.mechanism
  label := "Client Key".toList

/-- The hash functions are black boxes. -/
structure Ideal (c : Crypto D) [AddCommGroup D] where
  xor_eq : ∀ d d', c.xor d d' = d + d'
  blackBox : (maskedKeys c).BlackBox

/-- The credentials of the server are derived from the passwords of the users. -/
def DerivedFrom (c : Crypto D) (password : Text → Text)
    (credentialFor : SaslMechanism → Text → Option (ScramCredential D)) : Prop :=
  ∀ mechanism user credential, credentialFor mechanism user = some credential →
    ScramCredential.deriveWithSalt c (password user) credential.mechanism credential.iterations credential.salt =
      .ok credential

variable {password : Text → Text} {e : ScramExchange D}
  {credentialFor : SaslMechanism → Text → Option (ScramCredential D)}

def ScramExchange.keyId (password : Text → Text) (e : ScramExchange D) : KeyId D :=
  ⟨e.mechanism, password e.username, e.credential.salt, e.credential.iterations⟩

/-- The stored key of an exchange is the one of the user's password, or no proof meets it. -/
theorem storedKey_of_start (hcred : DerivedFrom c password credentialFor)
    (hstart : start c mechanism clientFirst (credentialFor mechanism) draws = .ok (e, text)) :
    e.credential.storedKey = (maskedKeys c).stored (e.keyId password) ∨
      ∀ m d, c.hash m d ≠ e.credential.storedKey := by
  obtain ⟨first, -, -, rfl, husername, -, -, -, hcredential⟩ := start_eq_ok hstart
  cases hfound : (credentialFor e.mechanism first.username).filter (·.mechanism = e.mechanism) with
  | none =>
    rw [hfound] at hcredential
    rw [hcredential]
    exact .inr draws.hash_ne_storedKey
  | some credential =>
    rw [hfound, getD_some] at hcredential
    obtain ⟨hlookup, hmech⟩ := filter_eq_some_iff.1 hfound
    obtain ⟨_, -, hderive⟩ := bind_eq_ok.1 (hcred _ _ _ hlookup)
    have hstored := congrArg ScramCredential.storedKey (Except.ok.inj hderive)
    left
    rw [ScramExchange.keyId, husername, hcredential, ← hstored, ← of_decide_eq_true hmech]
    rfl

variable [AddCommGroup D]

/-- The attacker delivers any text, but its proofs are derived from those of the clients and `pub`,
and a server nonce is in no message sent before. -/
def Allowed (c : Crypto D) (password : Text → Text) (pub : Set D) (s : Network D) : Network.Action c → Prop
  | .clientRespond .. => True
  | .serverStart _ clientFirst draws => ¬ draws.nonce <:+: clientFirst
  | .serverFinish _ clientFinal => ∀ proof d, attributeOf clientFinal 'p' = some proof → c.decode proof = some d →
    (maskedKeys c).Derivable (pub ∪ {d | ∃ q ∈ s.computed, d = q.proof c password}) d

variable {pub : Set D} {s : Network D}

/-- A proof that the server accepts was computed by an honest client over the text the server signs.
-/
theorem exists_computed [DecidableEq D] (ideal : Ideal c)
    (hpub : ∀ d ∈ pub, ideal.blackBox.Unrelated d) (hcred : DerivedFrom c password credentialFor)
    (hstart : start c mechanism clientFirst (credentialFor mechanism) draws = .ok (e, text))
    (hallowed : ∀ proof d, attributeOf clientFinal 'p' = some proof → c.decode proof = some d →
      (maskedKeys c).Derivable (pub ∪ {d | ∃ q ∈ s.computed, d = q.proof c password}) d)
    (hfinish : e.finish c (encode clientFinal) = .ok text') :
    ∃ nonce tail withoutProof, attributeOf clientFinal 'r' = some nonce ∧ e.combinedNonce <:+ nonce ∧
      rsplitOnce [',', 'p', '='] clientFinal = some (withoutProof, tail) ∧
      ∃ q ∈ s.computed, q.keyId password = e.keyId password ∧ q.authMessage = e.authMessage withoutProof := by
  classical
  obtain ⟨final, hfinal, hvalid, -⟩ := finish_eq_ok.1 hfinish
  obtain ⟨message, nonce, proof, tail, hmessage, hnonce, hsuffix, hproof, hdecode, hsplit⟩ :=
    ClientFinal.parse_eq_ok.1 hfinal
  obtain rfl : clientFinal = message := encode_injective hmessage
  refine ⟨nonce, tail, final.withoutProof, hnonce, hsuffix, hsplit, ?_⟩
  rcases storedKey_of_start hcred hstart with hstored | hnone
  · have hkey : c.xor final.proof (c.hmac e.mechanism e.credential.storedKey (e.authMessage final.withoutProof)) =
        (maskedKeys c).key (e.keyId password) :=
      (ideal.blackBox.eq_of_stored_eq (hvalid.2.trans hstored)).2
    rw [ideal.xor_eq, hstored] at hkey
    have hmem : (e.keyId password, e.authMessage final.withoutProof) ∈
        (s.computed.map fun q => (q.keyId password, q.authMessage)).toFinset := by
      refine MaskedKeys.BlackBox.mem_of_derivable (B := ideal.blackBox) ?_ (hallowed proof _ hproof hdecode) hkey
      rintro d (hd | ⟨q, hq, rfl⟩)
      · exact .inl (hpub d hd)
      · refine .inr ⟨(q.keyId password, q.authMessage), ?_, ideal.xor_eq _ _⟩
        exact mem_toFinset.2 (mem_map.2 ⟨q, hq, rfl⟩)
    obtain ⟨q, hq, heq⟩ := mem_map.1 (mem_toFinset.1 hmem)
    obtain ⟨hid, hauth⟩ := Prod.mk.inj heq
    exact ⟨q, hq, hid, hauth⟩
  · exact absurd hvalid.2 (hnone _ _)

/-! ## Every run -/

/-- The exchange was started with this client-first message, and with a nonce that is not part of
it. -/
def Started (c : Crypto D) (credentialFor : SaslMechanism → Text → Option (ScramCredential D)) (clientFirst : Text)
    (e : ScramExchange D) : Prop :=
  ∃ mechanism, ∃ draws : Draws c, ∃ text, ¬ draws.nonce <:+: clientFirst ∧
    start c mechanism (encode clientFirst) (credentialFor mechanism) draws = .ok (e, text)

/-- The exchange was completed with a final message whose proof an honest client has computed. -/
structure Finished.Accepted (c : Crypto D) (password : Text → Text)
    (credentialFor : SaslMechanism → Text → Option (ScramCredential D)) (computed : List (Computed D))
    (f : Finished D) : Prop where
  started : Started c credentialFor f.clientFirst f.exchange
  final : ∃ clientFinal nonce tail, attributeOf clientFinal 'r' = some nonce ∧
    f.exchange.combinedNonce <:+ nonce ∧ rsplitOnce [',', 'p', '='] clientFinal = some (f.withoutProof, tail)
  proved : ∃ q ∈ computed, q.keyId password = f.exchange.keyId password ∧
    q.authMessage = f.exchange.authMessage f.withoutProof

structure Network.Inv (c : Crypto D) (password : Text → Text)
    (credentialFor : SaslMechanism → Text → Option (ScramCredential D)) (s : Network D) : Prop where
  computed : ∀ q ∈ s.computed, q.Read
  exchanges : ∀ p ∈ s.exchanges, Started c credentialFor p.clientFirst p.exchange
  finished : ∀ f ∈ s.finished, f.Accepted c password credentialFor s.computed

variable [DecidableEq D]

theorem Network.Inv.step (ideal : Ideal c) (hpub : ∀ d ∈ pub, ideal.blackBox.Unrelated d)
    (hcred : DerivedFrom c password credentialFor)
    (h : Network.Inv c password credentialFor s) (hallowed : Allowed c password pub s action)
    (hstep : Network.step c credentialFor s action = some s') : Network.Inv c password credentialFor s' := by
  cases action with
  | clientRespond client serverFirst =>
    obtain ⟨q, hq, rfl⟩ := map_eq_some_iff.1 hstep
    refine ⟨forall_mem_cons.2 ⟨Client.respond_eq_some hq, h.computed⟩, h.exchanges, fun f hf => ?_⟩
    obtain ⟨q', hq', hproved⟩ := (h.finished f hf).proved
    exact { h.finished f hf with proved := ⟨q', mem_cons_of_mem q hq', hproved⟩ }
  | serverStart mechanism clientFirst draws =>
    rw [Network.step] at hstep
    split at hstep
    · rename_i exchange text hstart
      cases hstep
      refine ⟨h.computed, ?_, h.finished⟩
      exact forall_mem_concat.2 ⟨h.exchanges,
        ⟨mechanism, draws, text, hallowed, hstart⟩⟩
    · cases hstep
      exact h
  | serverFinish i clientFinal =>
    obtain ⟨p, hp, rfl⟩ := map_eq_some_iff.1 hstep
    have hstarted := h.exchanges p (mem_of_getElem? hp)
    have hrest : ∀ p ∈ s.exchanges.eraseIdx i, Started c credentialFor p.clientFirst p.exchange :=
      fun p hp => h.exchanges p (mem_of_mem_eraseIdx hp)
    split
    · rename_i text' withoutProof _ hfinish hsplit
      obtain ⟨mechanism, draws, text, -, hstart⟩ := hstarted
      obtain ⟨nonce, tail, w, hnonce, hsuffix, hsplit', hproved⟩ :=
        exists_computed ideal hpub hcred hstart hallowed hfinish
      cases hsplit.symm.trans hsplit'
      refine ⟨h.computed, hrest, forall_mem_cons.2 ⟨?_, h.finished⟩⟩
      exact ⟨h.exchanges p (mem_of_getElem? hp), ⟨clientFinal, nonce, _, hnonce, hsuffix, hsplit⟩, hproved⟩
    · exact ⟨h.computed, hrest, h.finished⟩

/-- An accepted proof was computed by an honest client over the text the server signs, and for the
first messages the server has processed exactly if the final message conforms to its header. -/
theorem transcript_agreement (ideal : Ideal c) (hpub : ∀ d ∈ pub, ideal.blackBox.Unrelated d)
    (hcred : DerivedFrom c password credentialFor)
    (h : Reaches (machine c credentialFor) (Allowed c password pub) s) {f : Finished D}
    (hf : f ∈ s.finished) :
    ∃ q ∈ s.computed, q.keyId password = f.exchange.keyId password ∧
      q.authMessage = f.exchange.authMessage f.withoutProof ∧ (q.Agrees f ↔ f.Conforms) := by
  have hinv : Network.Inv c password credentialFor s := by
    refine h.invariant ?_ fun s a s' hs hok hstep => hs.step ideal hpub hcred hok hstep
    exact ⟨forall_mem_nil _, forall_mem_nil _,
      forall_mem_nil _⟩
  obtain ⟨⟨mechanism, draws, text, hfresh, hstart⟩, ⟨clientFinal, nonce, tail, hnonce, hsuffix, hsplit⟩,
    q, hq, hkey, hauth⟩ := hinv.finished f hf
  have hread := hinv.computed q hq
  exact ⟨q, hq, hkey, hauth, conforms_of_agrees hstart hread.comma_not_mem_nonce hauth,
    agrees_of_conforms hstart hfresh hread hnonce hsuffix hsplit hauth⟩

/-! ## A run of one client -/

instance : Countable SaslMechanism :=
  ⟨fun m => m.ctorIdx, fun m m' h => by cases m <;> cases m' <;> first | rfl | cases h⟩

instance countableChar : Countable Char :=
  ⟨Char.toNat, fun _ _ h => Char.toNat_inj.1 h⟩

instance [Countable D] : Countable (KeyId D) := by
  refine Function.Injective.countable (f := fun k : KeyId D => (k.mechanism, k.password, k.salt, k.iterations)) ?_
  rintro ⟨m, p, d, n⟩ ⟨m', p', d', n'⟩ h
  simpa using h

open MaskedKeys (Sums)

noncomputable def freeKeys : MaskedKeys Sums SaslMechanism (KeyId Sums) Text :=
  MaskedKeys.free KeyId.mechanism "Client Key".toList

noncomputable instance : Encodable Sums := Encodable.ofCountable Sums

/-- Black boxes whose values are all independent. -/
noncomputable def freeCrypto : Crypto Sums where
  hash := freeKeys.hash
  hmac := freeKeys.mac
  hi m password salt iterations := freeKeys.secret ⟨m, password, salt, iterations⟩
  xor := (· + ·)
  len _ := 0
  encode d := replicate (Encodable.encode d) 'A'
  decode text := Encodable.decode text.length
  decode_encode d := by rw [length_replicate, Encodable.encodek]
  comma_not_mem_encode d h := by cases eq_of_mem_replicate h

noncomputable def freeIdeal : Ideal freeCrypto where
  xor_eq _ _ := rfl
  blackBox := MaskedKeys.freeBlackBox KeyId.mechanism "Client Key".toList

noncomputable def freeDraws : Draws freeCrypto where
  nonce := ['Z']
  comma_not_mem_nonce := by decide
  salt := 0
  storedKey := 0
  serverKey := 0
  hash_ne_storedKey _ _ := Finsupp.single_ne_zero.2 one_ne_zero

def secretPassword (_ : Text) : Text := "secret".toList

noncomputable def aliceCredential : ScramCredential Sums where
  mechanism := .scramSha256
  salt := 0
  storedKey := freeCrypto.hash .scramSha256 (clientKey freeCrypto .scramSha256 "secret".toList 0 4096)
  serverKey := freeCrypto.hmac .scramSha256 (freeCrypto.hi .scramSha256 "secret".toList 0 4096) "Server Key".toList
  iterations := 4096

noncomputable def aliceOnly (_ : SaslMechanism) (user : Text) : Option (ScramCredential Sums) :=
  if user = "alice".toList then some aliceCredential else none

theorem aliceOnly_derivedFrom : DerivedFrom freeCrypto secretPassword aliceOnly := by
  intro mechanism user credential h
  rw [aliceOnly] at h
  split at h
  · cases h
    rfl
  · cases h

def aliceClient : Client where
  user := "alice".toList
  mechanism := .scramSha256
  flag := ['n']
  authzid := []
  nonce := ['c', 'n']
  extensions := []
  comma_not_mem_flag := by decide
  comma_not_mem_authzid := by decide
  comma_not_mem_nonce := by decide
  comma_not_mem_extensions := by decide

/-- Alice's client-first message, with some flag. -/
def aliceFirst (flag : Text) : Text := flag ++ ",,n=alice,r=cn".toList

noncomputable def aliceExchange : ScramExchange Sums where
  mechanism := .scramSha256
  username := "alice".toList
  clientFirstBare := "n=alice,r=cn".toList
  serverFirst := serverFirstMessage freeCrypto ['c', 'n', 'Z'] aliceCredential
  combinedNonce := ['c', 'n', 'Z']
  credential := aliceCredential

noncomputable def aliceComputed : Computed Sums :=
  ⟨aliceClient, aliceExchange.serverFirst, ['c', 'n', 'Z'], 0, 4096⟩

noncomputable def aliceProof : Sums := aliceComputed.proof freeCrypto secretPassword

noncomputable def aliceFinal : Text :=
  join ['c' :: '=' :: channelBinding aliceClient.gs2Header, 'r' :: '=' :: ['c', 'n', 'Z'],
    'p' :: '=' :: freeCrypto.encode aliceProof]

theorem start_aliceFirst (hflag : flag = ['n'] ∨ flag = ['y']) :
    start freeCrypto .scramSha256 (encode (aliceFirst flag)) (aliceOnly .scramSha256) freeDraws =
      .ok (aliceExchange, aliceExchange.serverFirst) := by
  have hparse : ClientFirst.parse (encode (aliceFirst flag)) =
      .ok ⟨"n=alice,r=cn".toList, "alice".toList, ['c', 'n']⟩ := by
    rcases hflag with rfl | rfl <;> rfl
  rw [start, hparse]
  rfl

theorem respond_aliceClient :
    aliceClient.respond freeCrypto aliceExchange.serverFirst = some aliceComputed := by
  have hsplit : aliceExchange.serverFirst.splitOn ',' = _ := splitOn_serverFirstMessage (by decide)
  simp only [Client.respond, hsplit, freeCrypto.decode_encode]
  rfl

theorem validProof_aliceProof : ValidProof freeCrypto .scramSha256 aliceCredential.storedKey
    (aliceExchange.authMessage aliceComputed.withoutProof) aliceProof := by
  have hproof : aliceProof = clientKey freeCrypto .scramSha256 "secret".toList 0 4096 +
      freeCrypto.hmac .scramSha256 aliceCredential.storedKey
        (aliceExchange.authMessage aliceComputed.withoutProof) := rfl
  have hunmask : freeCrypto.xor aliceProof (freeCrypto.hmac .scramSha256 aliceCredential.storedKey
      (aliceExchange.authMessage aliceComputed.withoutProof)) =
        clientKey freeCrypto .scramSha256 "secret".toList 0 4096 := by
    rw [freeIdeal.xor_eq, hproof, add_assoc, MaskedKeys.Sums.add_self, add_zero]
  refine ⟨rfl, ?_⟩
  rw [hunmask]
  rfl

theorem splitOn_aliceFinal : aliceFinal.splitOn ',' =
    ['c' :: '=' :: channelBinding aliceClient.gs2Header, 'r' :: '=' :: ['c', 'n', 'Z'],
      'p' :: '=' :: freeCrypto.encode aliceProof] := by
  refine splitOn_join_of_not_mem (cons_ne_nil _ _) ?_
  simp only [forall_mem_cons]
  refine ⟨?_, by decide, ?_, forall_mem_nil _⟩
  · simp [comma_not_mem_channelBinding]
  · simp [freeCrypto.comma_not_mem_encode]

theorem attributeOf_aliceFinal : attributeOf aliceFinal 'p' = some (freeCrypto.encode aliceProof) := by
  simp [attributeOf, splitOn_aliceFinal]

theorem rsplitOnce_aliceFinal : rsplitOnce [',', 'p', '='] aliceFinal =
    some (aliceComputed.withoutProof, freeCrypto.encode aliceProof) := by
  have happend : aliceFinal = aliceComputed.withoutProof ++ ',' :: 'p' :: '=' :: freeCrypto.encode aliceProof := by
    simp [aliceFinal, Computed.withoutProof, join, intercalate, aliceComputed]
  rw [happend]
  exact rsplitOnce_append (freeCrypto.comma_not_mem_encode _)

theorem finish_aliceFinal : ∃ text, aliceExchange.finish freeCrypto (encode aliceFinal) = .ok text := by
  refine ⟨_, finish_eq_ok.2 ⟨⟨aliceProof, aliceComputed.withoutProof⟩, ?_, validProof_aliceProof, rfl⟩⟩
  refine ClientFinal.parse_eq_ok.2 ⟨aliceFinal, ['c', 'n', 'Z'], _, _, rfl, ?_, suffix_rfl,
    attributeOf_aliceFinal, freeCrypto.decode_encode aliceProof, rsplitOnce_aliceFinal⟩
  simp [attributeOf, splitOn_aliceFinal]

section
variable {D : Type} [DecidableEq D] {c : Crypto D} {s : Network D} {e : ScramExchange D}
  {credentialFor : SaslMechanism → Text → Option (ScramCredential D)}

theorem Network.step_serverFinish
    (hp : s.exchanges[i]? = some p) (hfinish : p.exchange.finish c (encode clientFinal) = .ok text)
    (hsplit : rsplitOnce [',', 'p', '='] clientFinal = some (withoutProof, rest)) :
    (machine c credentialFor).step s (.serverFinish i clientFinal) =
      some ⟨s.computed, s.exchanges.eraseIdx i, ⟨p.clientFirst, p.exchange, withoutProof⟩ :: s.finished⟩ := by
  simp only [machine, Network.step, hp, map_some, hfinish, hsplit]

end

/-- Alice's client logs in, and an attacker delivers its first message with some flag. -/
theorem aliceRun (hflag : flag = ['n'] ∨ flag = ['y']) :
    Reaches (machine freeCrypto aliceOnly) (Allowed freeCrypto secretPassword ∅)
      ⟨[aliceComputed], [], [⟨aliceFirst flag, aliceExchange, aliceComputed.withoutProof⟩]⟩ := by
  have hfresh : ¬ freeDraws.nonce <:+: aliceFirst flag := by
    rcases hflag with rfl | rfl
    · exact (by decide +kernel : ¬ ['Z'] <:+: aliceFirst ['n'])
    · exact (by decide +kernel : ¬ ['Z'] <:+: aliceFirst ['y'])
  obtain ⟨text, hfinish⟩ := finish_aliceFinal
  have h1 : Reaches (machine freeCrypto aliceOnly) (Allowed freeCrypto secretPassword ∅)
      ⟨[], [⟨aliceFirst flag, aliceExchange⟩], []⟩ :=
    .step (.serverStart .scramSha256 (aliceFirst flag) freeDraws) .init hfresh
      (by simp only [machine, Network.step, start_aliceFirst hflag]; rfl)
  have h2 : Reaches (machine freeCrypto aliceOnly) (Allowed freeCrypto secretPassword ∅)
      ⟨[aliceComputed], [⟨aliceFirst flag, aliceExchange⟩], []⟩ := by
    refine .step (.clientRespond aliceClient aliceExchange.serverFirst) h1 ?_ ?_
    · trivial
    · simp only [machine, Network.step, respond_aliceClient, map_some]
  have hstep : (machine freeCrypto aliceOnly).step
      ⟨[aliceComputed], [⟨aliceFirst flag, aliceExchange⟩], []⟩ (.serverFinish 0 aliceFinal) =
        some ⟨[aliceComputed], [], [⟨aliceFirst flag, aliceExchange, aliceComputed.withoutProof⟩]⟩ :=
    Network.step_serverFinish (p := ⟨aliceFirst flag, aliceExchange⟩) rfl hfinish rsplitOnce_aliceFinal
  refine .step (.serverFinish 0 aliceFinal) h2 ?_ hstep
  intro proof d hproof hd
  rw [attributeOf_aliceFinal] at hproof
  cases hproof
  rw [freeCrypto.decode_encode] at hd
  cases hd
  exact .known (.inr ⟨aliceComputed, mem_singleton_self _, rfl⟩)

theorem transcript_agreement_alice :
    ∃ q ∈ [aliceComputed], q.Agrees ⟨aliceFirst ['n'], aliceExchange, aliceComputed.withoutProof⟩ := by
  obtain ⟨q, hq, -, -, hagrees⟩ := transcript_agreement freeIdeal (fun _ hd => absurd hd (Set.notMem_empty _))
    aliceOnly_derivedFrom (aliceRun (.inl rfl)) (mem_singleton_self _)
  exact ⟨q, hq, hagrees.2 ⟨['c', 'n', 'Z'], by decide, rfl⟩⟩

/-- The attacker changes the flag in alice's header; the server accepts, and no client has computed
a proof for that message. -/
theorem changed_header_accepted :
    ∃ s f, Reaches (machine freeCrypto aliceOnly) (Allowed freeCrypto secretPassword ∅) s ∧
      f ∈ s.finished ∧ ∀ q ∈ s.computed, ¬ q.Agrees f := by
  refine ⟨_, _, aliceRun (.inr rfl), mem_singleton_self _, ?_⟩
  intro q hq hagrees
  obtain rfl := mem_singleton.1 hq
  exact absurd hagrees.clientFirst (by decide +kernel : aliceClient.first ≠ aliceFirst ['y'])

end ChronikStream.Sasl
