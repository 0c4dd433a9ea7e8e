import Walgit.Lib.Base64
import Walgit.PushRequest
import Walgit.StaticObject

/-!
# Signed values

One secret signs four kinds of values: session cookies, access tokens, the state
of a sign-in and the ticket that carries a session to the other host name. The
first two begin with their kind. The other two begin with the time they expire
at, and so do the checks of either.
-/

namespace Walgit.SignIn

open Objects (parseUnsigned)
open Pkt (splitOnce)

abbrev Bytes := List UInt8

abbrev Text := List Char

/-- The settings of the signer; `hmac` is HMAC-SHA256 under a key. -/
structure Authenticator where
  sessionSecret : Option Bytes
  sessionTtl : ℕ
  accessTokenTtl : ℕ
  hmac : Bytes → Bytes → Bytes

section Signing

def Authenticator.sign (st : Authenticator) (payload : Bytes) : Option Text :=
  st.sessionSecret.map fun secret =>
    Base64.encode payload ++ '.' :: Base64.encode (st.hmac secret payload)

def Authenticator.verifySigned (st : Authenticator) (value : Text) : Option Bytes := do
  let secret ← st.sessionSecret
  match splitOnce '.' value with
  | (_, none) => none
  | (p, some t) =>
    let payload ← Base64.decode p
    let tag ← Base64.decode t
    if tag = st.hmac secret payload then some payload else none

/-- `String::from_utf8`. -/
def fromUtf8 (bytes : Bytes) : Option Text :=
  if Utf8.encode (Utf8.lossy bytes) = bytes then some (Utf8.lossy bytes) else none

def decimal (n : ℕ) : Text := (toString n).toList

/-- `str::splitn` at line ends. -/
def splitn : ℕ → Text → List Text
  | 0, _ => []
  | 1, t => [t]
  | n + 2, t =>
    match splitOnce '\n' t with
    | (line, none) => [line]
    | (line, some rest) => line :: splitn (n + 1) rest

end Signing

section Claims

/-- Seconds are of 64 bits, and their sums wrap. -/
def expiry (now ttl : ℕ) : ℕ := (now + ttl) % 2 ^ 64

def mintedText (kind : Text) (exp now : ℕ) (email : Text) : Text :=
  kind ++ '\n' :: (decimal exp ++ '\n' :: (decimal now ++ '\n' :: email))

/-- `unix_now` gives nothing before the epoch. -/
def Authenticator.mint (st : Authenticator) (clock : Option ℕ) (email : Text) (ttl : ℕ)
    (kind : Text) : Option Text := do
  let now ← clock
  st.sign (Utf8.encode (mintedText kind (expiry now ttl) now email))

/-- The checks of `claims_of` on the text that was signed. -/
def claimsIn (clock : Option ℕ) (kind payload : Text) : Option (ℕ × ℕ × Text) :=
  match splitn 4 payload with
  | k :: exp :: iat :: email :: _ =>
    if k ≠ kind then none
    else do
      let exp ← parseUnsigned exp
      let iat ← parseUnsigned iat
      let now ← clock
      if exp ≤ now then none else some (exp, iat, email)
  | _ => none

def Authenticator.claimsOf (st : Authenticator) (clock : Option ℕ) (value kind : Text) :
    Option (ℕ × ℕ × Text) := do
  let payload ← st.verifySigned value
  let payload ← fromUtf8 payload
  claimsIn clock kind payload

def sessionKind : Text := "session".toList

def tokenKind : Text := "token".toList

def Authenticator.sessionCookieValue (st : Authenticator) (clock : Option ℕ) (email : Text) :
    Option Text :=
  st.mint clock email st.sessionTtl sessionKind

/-- The signed value of `access_token`, behind its prefix. -/
def Authenticator.accessToken (st : Authenticator) (clock : Option ℕ) (email : Text) :
    Option Text :=
  st.mint clock email st.accessTokenTtl tokenKind

end Claims

section Login

/-- The clock of the sign-in pages is at 0 before the epoch. -/
def loginNow (clock : Option ℕ) : ℕ := clock.getD 0

def stateTtlSecs : ℕ := 600

def safeNext (next : Option Text) : Text :=
  match next with
  | some n => if ['/'] <+: n ∧ ¬ ['/', '/'] <+: n then n else ['/']
  | none => ['/']

def stateText (exp nonce : ℕ) (next : Text) : Text :=
  decimal exp ++ '\n' :: (Nat.toDigits 16 nonce ++ '\n' :: next)

/-- The state that `login` sends along. -/
def Authenticator.loginState (st : Authenticator) (clock : Option ℕ) (nonce : ℕ)
    (next : Option Text) : Option Text :=
  st.sign (Utf8.encode (stateText (expiry (loginNow clock) stateTtlSecs) nonce (safeNext next)))

/-- The state check of `callback`: where it goes next. -/
def stateIn (clock : Option ℕ) (payload : Text) : Option Text :=
  let parts := splitn 3 payload
  let exp := (parts[0]?.bind parseUnsigned).getD 0
  let next := safeNext parts[2]?
  if exp < loginNow clock then none else some next

def Authenticator.callbackState (st : Authenticator) (clock : Option ℕ) (state : Text) :
    Option Text := do
  let payload ← st.verifySigned state
  stateIn clock (Utf8.lossy payload)

def hopText (exp : ℕ) (value next : Text) : Text :=
  decimal exp ++ '\n' :: (value ++ '\n' :: next)

/-- The ticket of `callback` for the other host name. -/
def Authenticator.hopTicket (st : Authenticator) (clock : Option ℕ) (value next : Text) :
    Option Text :=
  st.sign (Utf8.encode (hopText (expiry (loginNow clock) 60) value next))

/-- The ticket check of `claimed`: the cookie it sets. -/
def ticketIn (clock : Option ℕ) (payload : Text) : Option Text :=
  let parts := splitn 3 payload
  let exp := (parts[0]?.bind parseUnsigned).getD 0
  let value := parts[1]?.getD []
  if exp < loginNow clock ∨ value = [] then none else some value

def Authenticator.claimed (st : Authenticator) (clock : Option ℕ) (ticket : Text) :
    Option Text := do
  let payload ← st.verifySigned ticket
  ticketIn clock (Utf8.lossy payload)

end Login

section Uses

/-- The four uses of a signature. -/
inductive Kind
  | session
  | token
  | state
  | hop
  deriving DecidableEq, Repr

/-- What is signed for a use. -/
inductive Use
  | session (email : Text)
  | token (email : Text)
  | state (nonce : ℕ) (next : Option Text)
  | hop (value next : Text)

def Use.kind : Use → Kind
  | .session _ => .session
  | .token _ => .token
  | .state _ _ => .state
  | .hop _ _ => .hop

def Use.value (st : Authenticator) (clock : Option ℕ) : Use → Option Text
  | .session email => st.sessionCookieValue clock email
  | .token email => st.accessToken clock email
  | .state nonce next => st.loginState clock nonce next
  | .hop value next => st.hopTicket clock value next

/-- The verifier of a use takes the value. -/
def Accepts (st : Authenticator) (clock : Option ℕ) (v : Text) : Kind → Prop
  | .session => (st.claimsOf clock v sessionKind).isSome
  | .token => (st.claimsOf clock v tokenKind).isSome
  | .state => (st.callbackState clock v).isSome
  | .hop => (st.claimed clock v).isSome

/-- The email that a cookie or a token is for. -/
def Use.email? : Use → Option Text
  | .session email => some email
  | .token email => some email
  | _ => none

/-- The value is taken by the verifier of its own use only, and claims the email
it was minted for. -/
structure Kept (st : Authenticator) (clock : Option ℕ) (use : Use) (v : Text) : Prop where
  onlyOwn : ∀ k, Accepts st clock v k → k = use.kind
  email : ∀ kind ∈ [sessionKind, tokenKind], ∀ claims ∈ st.claimsOf clock v kind,
    some claims.2.2 = use.email?

end Uses

section Verifying

variable {st : Authenticator} {t v a rest : Text} {payload : Bytes} {n : ℕ}

theorem verifySigned_sign (h : st.sign payload = some v) : st.verifySigned v = some payload := by
  obtain ⟨secret, hsecret, rfl⟩ := Option.map_eq_some_iff.mp h
  have hdot : '.' ∉ Base64.encode payload := fun hmem =>
    absurd (Base64.mem_alphabet_of_encode hmem) (by decide)
  rw [Authenticator.verifySigned, hsecret, Option.bind_eq_bind, Option.bind_some,
    Pkt.splitOnce_append hdot]
  simp [Base64.decode_encode]

theorem verifiers_of_sign (clock : Option ℕ) (kind : Text)
    (h : st.sign (Utf8.encode t) = some v) :
    st.claimsOf clock v kind = claimsIn clock kind t ∧
      st.callbackState clock v = stateIn clock t ∧ st.claimed clock v = ticketIn clock t := by
  have hverified := verifySigned_sign h
  refine ⟨?_, ?_, ?_⟩
  · simp [Authenticator.claimsOf, hverified, fromUtf8]
  · simp [Authenticator.callbackState, hverified]
  · simp [Authenticator.claimed, hverified]

theorem splitn_append (n : ℕ) (h : '\n' ∉ a) :
    splitn (n + 2) (a ++ '\n' :: rest) = a :: splitn (n + 1) rest := by
  rw [splitn, Pkt.splitOnce_append h]

theorem newline_not_mem_decimal (n : ℕ) : '\n' ∉ decimal n := fun h =>
  absurd (Decimal.isDigit_of_nat h) (by decide)

theorem parseUnsigned_decimal (h : n < 2 ^ 64) : parseUnsigned (decimal n) = some n :=
  StaticObject.parseUnsigned_toString h

theorem expiry_lt (now ttl : ℕ) : expiry now ttl < 2 ^ 64 := Nat.mod_lt _ (Nat.two_pow_pos _)

theorem exists_digitChar {c : Char} (h : c ∈ Nat.toDigits 16 n) : ∃ d < 16, c = d.digitChar := by
  induction n using Nat.strongRecOn with
  | ind n ih =>
    rcases Nat.lt_or_ge n 16 with hlt | hge
    · rw [Nat.toDigits_of_lt_base hlt, List.mem_singleton] at h
      exact ⟨n, hlt, h⟩
    · rw [Nat.toDigits_of_base_le (by decide) hge, List.mem_append] at h
      rcases h with h | h
      · exact ih (n / 16) (Nat.div_lt_self (by omega) (by decide)) h
      · exact ⟨n % 16, Nat.mod_lt _ (by decide), List.mem_singleton.mp h⟩

theorem newline_not_mem_hex (n : ℕ) : '\n' ∉ Nat.toDigits 16 n := by
  intro h
  obtain ⟨d, hd, heq⟩ := exists_digitChar h
  have hall : ∀ d < 16, '\n' ≠ d.digitChar := by decide
  exact hall d hd heq

end Verifying

section Texts

variable {clock : Option ℕ} {kind kind' email value next : Text} {exp now nonce : ℕ}

theorem sessionKind_word : '\n' ∉ sessionKind ∧ parseUnsigned sessionKind = none := by decide

theorem tokenKind_word : '\n' ∉ tokenKind ∧ parseUnsigned tokenKind = none := by decide

theorem splitn_minted (hkind : '\n' ∉ kind) :
    splitn 4 (mintedText kind exp now email) = [kind, decimal exp, decimal now, email] := by
  rw [mintedText, splitn_append 2 hkind, splitn_append 1 (newline_not_mem_decimal exp),
    splitn_append 0 (newline_not_mem_decimal now), splitn]

theorem claimsIn_minted (hkind : '\n' ∉ kind) {claims : ℕ × ℕ × Text}
    (h : claimsIn clock kind' (mintedText kind exp now email) = some claims) :
    kind = kind' ∧ claims.2.2 = email := by
  rw [claimsIn, splitn_minted hkind] at h
  dsimp only at h
  split at h
  · cases h
  · next hsame =>
    rw [not_not] at hsame
    simp only [Option.bind_eq_bind, Option.bind_eq_some_iff] at h
    obtain ⟨exp', -, iat, -, now', -, h⟩ := h
    split at h
    · cases h
    · cases h
      exact ⟨hsame, rfl⟩

theorem loginIn_minted (clock : Option ℕ) (exp now : ℕ) (email : Text) (hkind : '\n' ∉ kind)
    (hword : parseUnsigned kind = none) :
    ((stateIn clock (mintedText kind exp now email)).isSome ↔ loginNow clock = 0) ∧
      ((ticketIn clock (mintedText kind exp now email)).isSome ↔ loginNow clock = 0) := by
  have hparts : ∃ rest, splitn 3 (mintedText kind exp now email) = [kind, decimal exp, rest] := by
    rw [mintedText, splitn_append 1 hkind, splitn_append 0 (newline_not_mem_decimal exp), splitn]
    exact ⟨_, rfl⟩
  obtain ⟨rest, hparts⟩ := hparts
  have hne : decimal exp ≠ [] := by
    simp [decimal]
  rw [stateIn, ticketIn, hparts]
  simp [hword, hne, Nat.pos_iff_ne_zero]

theorem claimsIn_timed (hexp : exp < 2 ^ 64) (hword : parseUnsigned kind = none) (rest : Text) :
    claimsIn clock kind (decimal exp ++ '\n' :: rest) = none := by
  have hne : decimal exp ≠ kind := by
    rintro rfl
    rw [parseUnsigned_decimal hexp] at hword
    cases hword
  rw [claimsIn, splitn_append 2 (newline_not_mem_decimal exp)]
  split
  · next heq =>
    obtain ⟨rfl, -⟩ := List.cons.inj heq
    exact if_pos hne
  · rfl

theorem stateIn_timed (hexp : exp < 2 ^ 64) (rest : Text) :
    (stateIn clock (decimal exp ++ '\n' :: rest)).isSome ↔ loginNow clock ≤ exp := by
  rw [stateIn, splitn_append 1 (newline_not_mem_decimal exp)]
  simp [parseUnsigned_decimal hexp]

theorem ticketIn_state (hexp : exp < 2 ^ 64) :
    (ticketIn clock (stateText exp nonce next)).isSome ↔ loginNow clock ≤ exp := by
  have hne : Nat.toDigits 16 nonce ≠ [] := by simp
  rw [ticketIn, stateText, splitn_append 1 (newline_not_mem_decimal exp),
    splitn_append 0 (newline_not_mem_hex nonce), splitn]
  simp [parseUnsigned_decimal hexp, hne]

end Texts

section Separation

variable {st : Authenticator} {clock clock' : Option ℕ} {use : Use} {v email kind : Text}
  {exp : ℕ}

/-- The verifiers that do not belong to the use have no chance: those of the
sign-in pages read 0 as the expiry of a cookie or a token, and a state and a
ticket have expired. -/
def Use.Apart (clock clock' : Option ℕ) : Use → Prop
  | .session _ => 0 < loginNow clock'
  | .token _ => 0 < loginNow clock'
  | .state _ _ => expiry (loginNow clock) stateTtlSecs < loginNow clock'
  | .hop _ _ => expiry (loginNow clock) 60 < loginNow clock'

theorem exists_minted {ttl : ℕ} (h : st.mint clock email ttl kind = some v) :
    ∃ exp now, st.sign (Utf8.encode (mintedText kind exp now email)) = some v := by
  obtain ⟨now, -, h⟩ := Option.bind_eq_some_iff.mp h
  exact ⟨_, now, h⟩

theorem kept_minted {now : ℕ}
    (huse : use = .session email ∧ kind = sessionKind ∨ use = .token email ∧ kind = tokenKind)
    (h : st.sign (Utf8.encode (mintedText kind exp now email)) = some v) :
    Kept st clock' use v ↔ 0 < loginNow clock' := by
  have hword : '\n' ∉ kind ∧ parseUnsigned kind = none := by
    rcases huse with ⟨-, rfl⟩ | ⟨-, rfl⟩
    · exact sessionKind_word
    · exact tokenKind_word
  have hclaims (kind' : Text) : st.claimsOf clock' v kind' = _ :=
    (verifiers_of_sign clock' kind' h).1
  obtain ⟨-, hstate, hhop⟩ := verifiers_of_sign clock' kind h
  obtain ⟨hstate0, hhop0⟩ := loginIn_minted clock' exp now email hword.1 hword.2
  constructor
  · intro hkept
    by_contra hzero
    have hown := hkept.onlyOwn .state (by rwa [Accepts, hstate, hstate0, ← Nat.le_zero, ← not_lt])
    rcases huse with ⟨rfl, -⟩ | ⟨rfl, -⟩ <;> cases hown
  · intro hpos
    refine ⟨fun k hk => ?_, fun kind' _ claims hclaim => ?_⟩
    · cases k with
      | session =>
        obtain ⟨claims, hc⟩ := Option.isSome_iff_exists.mp hk
        rw [hclaims] at hc
        obtain ⟨rfl, -⟩ := claimsIn_minted hword.1 hc
        rcases huse with ⟨rfl, -⟩ | ⟨-, hkind⟩
        · rfl
        · exact absurd hkind (by decide)
      | token =>
        obtain ⟨claims, hc⟩ := Option.isSome_iff_exists.mp hk
        rw [hclaims] at hc
        obtain ⟨rfl, -⟩ := claimsIn_minted hword.1 hc
        rcases huse with ⟨-, hkind⟩ | ⟨rfl, -⟩
        · exact absurd hkind (by decide)
        · rfl
      | state =>
        rw [Accepts, hstate, hstate0] at hk
        omega
      | hop =>
        rw [Accepts, hhop, hhop0] at hk
        omega
    · rw [hclaims] at hclaim
      obtain ⟨-, hemail⟩ := claimsIn_minted hword.1 hclaim
      rw [hemail]
      rcases huse with ⟨rfl, -⟩ | ⟨rfl, -⟩ <;> rfl

theorem claimsOf_timed {rest : Text} (hexp : exp < 2 ^ 64)
    (h : st.sign (Utf8.encode (decimal exp ++ '\n' :: rest)) = some v) :
    ∀ kind ∈ [sessionKind, tokenKind], st.claimsOf clock' v kind = none := by
  intro kind hkind
  have hword : parseUnsigned kind = none := by
    rcases List.mem_pair.mp hkind with rfl | rfl
    · exact sessionKind_word.2
    · exact tokenKind_word.2
  exact (verifiers_of_sign clock' kind h).1.trans (claimsIn_timed hexp hword rest)

theorem kept_of_no_claims {own other : Kind}
    (hclaims : ∀ kind ∈ [sessionKind, tokenKind], st.claimsOf clock' v kind = none)
    (hpages : own = .state ∧ other = .hop ∨ own = .hop ∧ other = .state) (huse : use.kind = own)
    (hother : Accepts st clock' v other ↔ loginNow clock' ≤ exp) :
    Kept st clock' use v ↔ exp < loginNow clock' := by
  constructor
  · intro hkept
    by_contra hlive
    have heq := hkept.onlyOwn other (hother.mpr (not_lt.mp hlive))
    rw [huse] at heq
    rcases hpages with ⟨rfl, rfl⟩ | ⟨rfl, rfl⟩ <;> cases heq
  · intro hlt
    have hnot : ¬ Accepts st clock' v other := fun hk => absurd (hother.mp hk) (not_le.mpr hlt)
    refine ⟨fun k hk => ?_, fun kind hkind claims hclaim => ?_⟩
    · cases k with
      | session => simp [Accepts, hclaims sessionKind (by simp)] at hk
      | token => simp [Accepts, hclaims tokenKind (by simp)] at hk
      | state =>
        rcases hpages with ⟨rfl, -⟩ | ⟨-, rfl⟩
        · exact huse.symm
        · exact absurd hk hnot
      | hop =>
        rcases hpages with ⟨-, rfl⟩ | ⟨rfl, -⟩
        · exact absurd hk hnot
        · exact huse.symm
    · rw [hclaims kind hkind] at hclaim
      cases hclaim

theorem kept_state {nonce : ℕ} {next : Option Text} (h : st.loginState clock nonce next = some v) :
    Kept st clock' (.state nonce next) v ↔
      expiry (loginNow clock) stateTtlSecs < loginNow clock' := by
  have hexp := expiry_lt (loginNow clock) stateTtlSecs
  refine kept_of_no_claims (claimsOf_timed hexp h) (.inl ⟨rfl, rfl⟩) rfl ?_
  rw [Accepts, (verifiers_of_sign clock' [] h).2.2]
  exact ticketIn_state hexp

theorem kept_hop {value next : Text} (h : st.hopTicket clock value next = some v) :
    Kept st clock' (.hop value next) v ↔ expiry (loginNow clock) 60 < loginNow clock' := by
  have hexp := expiry_lt (loginNow clock) 60
  refine kept_of_no_claims (claimsOf_timed hexp h) (.inr ⟨rfl, rfl⟩) rfl ?_
  rw [Accepts, (verifiers_of_sign clock' [] h).2.1]
  exact stateIn_timed hexp _

/-- Exactly a live state passes for a ticket and a live ticket for a state, and
a cookie or a token for either when the clock is not past the epoch. -/
theorem signed_kept_iff (st : Authenticator) (clock clock' : Option ℕ) (use : Use) (v : Text)
    (h : use.value st clock = some v) : Kept st clock' use v ↔ use.Apart clock clock' := by
  cases use with
  | session email =>
    obtain ⟨exp, now, hsign⟩ := exists_minted h
    exact kept_minted (.inl ⟨rfl, rfl⟩) hsign
  | token email =>
    obtain ⟨exp, now, hsign⟩ := exists_minted h
    exact kept_minted (.inr ⟨rfl, rfl⟩) hsign
  | state nonce next => exact kept_state h
  | hop value next => exact kept_hop h

/-- A server whose signature of the payload below is the real one. -/
def signer : Authenticator where
  sessionSecret := some [7]
  sessionTtl := 3600
  accessTokenTtl := 3600
  hmac _ _ := [51, 2, 206, 252, 167, 56, 88, 60, 243, 32, 86, 184, 156, 138, 127, 220, 182, 214,
    109, 183, 11, 246, 144, 19, 162, 236, 179, 250, 34, 202, 122, 202]

theorem signed_kept_iff_cookie :
    ∃ v, signer.sessionCookieValue (some 1000) ['a', '@', 'b'] = some v ∧
      Kept signer (some 1000) (.session ['a', '@', 'b']) v := by
  have hclock : 0 < loginNow (some 1000) := by decide
  refine ⟨_, rfl, ?_⟩
  exact (signed_kept_iff signer (some 1000) (some 1000) (.session ['a', '@', 'b']) _ rfl).mpr hclock

/-- A live state is a ticket with its nonce as the cookie, and a live ticket is a
state that goes on where it does. -/
theorem taken_for_each_other (hmac : Bytes → Bytes → Bytes) :
    let st : Authenticator := ⟨some [7], 3600, 3600, hmac⟩
    (∃ v, st.loginState (some 1000) 255 none = some v ∧
      st.claimed (some 1000) v = some ['f', 'f'] ∧ ¬ Kept st (some 1000) (.state 255 none) v) ∧
    ∃ v, st.hopTicket (some 1000) ['s'] ['/', 'p'] = some v ∧
      st.callbackState (some 1000) v = some ['/', 'p'] ∧
      ¬ Kept st (some 1000) (.hop ['s'] ['/', 'p']) v := by
  intro st
  refine ⟨⟨_, rfl, ?_, fun hkept => ?_⟩, _, rfl, ?_, fun hkept => ?_⟩
  · rw [(verifiers_of_sign (some 1000) [] rfl).2.2]
    decide
  · exact absurd ((kept_state rfl).mp hkept) (by decide)
  · rw [(verifiers_of_sign (some 1000) [] rfl).2.1]
    decide
  · exact absurd ((kept_hop rfl).mp hkept) (by decide)

/-- With no HMAC is the state or the ticket refused in the other's place. -/
theorem state_taken_for_ticket : ¬ ∃ hmac : Bytes → Bytes → Bytes,
    let st : Authenticator := ⟨some [7], 3600, 3600, hmac⟩
    (∀ v, st.loginState (some 1000) 255 none = some v → Kept st (some 1000) (.state 255 none) v) ∨
      ∀ v, st.hopTicket (some 1000) ['s'] ['/', 'p'] = some v →
        Kept st (some 1000) (.hop ['s'] ['/', 'p']) v := by
  rintro ⟨hmac, hkept⟩
  obtain ⟨⟨v, hv, -, hstate⟩, w, hw, -, hhop⟩ := taken_for_each_other hmac
  rcases hkept with hkept | hkept
  · exact hstate (hkept v hv)
  · exact hhop (hkept w hw)

end Separation

end Walgit.SignIn
