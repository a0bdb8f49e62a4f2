/-
# PrometheusCpp.Pull.BasicAuth -- the credentials of a scrape (`basic_auth.cc`)

The handler takes a user name and a password out of the `Authorization` header and asks its owner's
callback. The callback may do anything, so it runs in a monad `m`: that the handler's computation is
the callback's on some arguments says that it is called once, on these, and nothing else is done.
A client that encodes its user name and password gets the callback's answer on just these
(`authorizeInner_base64Encode`); colons in the password do no harm. A header that is not base64 is
turned away before the callback is asked, unless it is the loose kind the decoder takes for base64
(`base64Decode_padded_iff`).
-/
import PrometheusCpp.Util.Base64Accepts
import PrometheusCpp.Core.Names

namespace PrometheusCpp

open ByteString

/-- `AuthFunc`: whether this user with this password may proceed. -/
abbrev AuthFunc (m : Type → Type) := Bytes → Bytes → m Bool

structure BasicAuthHandler (m : Type → Type) where
  callback_ : AuthFunc m
  realm_ : Bytes

namespace BasicAuthHandler

variable {m : Type → Type} [Monad m]

/-- `prefix` -/
def basic : Bytes := ascii "Basic "

/-- The argument is what `mg_get_header` finds, without the zero that ends it. -/
def authorizeInner (handler : BasicAuthHandler m) (authHeader : Option Bytes) : m Bool :=
  match authHeader with
  | none => pure false
  | some authHeaderStr =>
    if authHeaderStr.take basic.length ≠ basic then pure false
    else
      let b64Auth := authHeaderStr.drop basic.length
      match base64Decode b64Auth with
      | .error _ => pure false
      | .ok decoded =>
        match decoded.idxOf? colon with
        | none => pure false
        | some splitPos =>
          let username := decoded.take splitPos
          let password := decoded.drop (splitPos + 1)
          handler.callback_ username password

/-- What `WriteUnauthorizedResponse` prints; `%s` ends at the first zero of the realm. -/
def writeUnauthorizedResponse (handler : BasicAuthHandler m) : Bytes :=
  ascii "HTTP/1.1 401 Unauthorized\r\n" ++
    (ascii "WWW-Authenticate: Basic realm=\"" ++ handler.realm_.takeWhile (· ≠ 0) ++
      ascii "\"\r\n") ++
    ascii "Connection: close\r\n" ++ ascii "Content-Length: 0\r\n" ++ ascii "\r\n"

/-- The answer, and what was written to the connection. -/
def authorize (handler : BasicAuthHandler m) (authHeader : Option Bytes) : m (Bool × Bytes) := do
  if !(← handler.authorizeInner authHeader) then
    return (false, handler.writeUnauthorizedResponse)
  return (true, [])

/-! ## Splitting at the first colon -/

theorem idxOf?_colon {user : Bytes} (h : colon ∉ user) (password : Bytes) :
    (user ++ colon :: password).idxOf? colon = some user.length := by
  rw [List.idxOf?_eq_some_iff]
  refine ⟨by simp, by simp, fun j hj heq => h ?_⟩
  rw [List.getElem_append_left hj] at heq
  exact heq ▸ List.getElem_mem hj

/-- The callback sees what is in front of the first colon of the decoded text and behind it. -/
theorem authorizeInner_of_ok (handler : BasicAuthHandler m) {s user password : Bytes}
    (hdecode : base64Decode s = .ok (user ++ colon :: password)) (h : colon ∉ user) :
    handler.authorizeInner (some (basic ++ s)) = handler.callback_ user password := by
  have htake : (basic ++ s).take basic.length = basic := List.take_left
  have hdrop : (basic ++ s).drop basic.length = s := List.drop_left
  have hpassword : (user ++ colon :: password).drop (user.length + 1) = password := by
    rw [← List.drop_drop, List.drop_left, List.drop_one, List.tail_cons]
  simp only [authorizeInner, htake, hdrop, hdecode, idxOf?_colon h, ne_eq, not_true_eq_false,
    if_false, List.take_left, hpassword]

/-- The header of a client that sends these credentials. -/
theorem authorizeInner_credentials (handler : BasicAuthHandler m) {user : Bytes}
    (h : colon ∉ user) (password : Bytes) :
    handler.authorizeInner (some (basic ++ base64Encode (user ++ colon :: password))) =
      handler.callback_ user password :=
  authorizeInner_of_ok handler (base64Decode_encoded _) h

/-- Base64 text decodes to what was encoded, and so the callback sees the client's user name and
password and its answer is the handler's. -/
theorem authorizeInner_base64Encode (handler : BasicAuthHandler m) :
    (∀ s : Bytes, base64Decode (base64Encode s) = .ok s) ∧
      ∀ user password : Bytes, colon ∉ user →
        handler.authorizeInner
            (some (ascii "Basic " ++ base64Encode (user ++ [colon] ++ password))) =
          handler.callback_ user password := by
  refine ⟨base64Decode_encoded, fun user password h => ?_⟩
  rw [List.append_assoc]
  exact authorizeInner_credentials handler h password

/-- A callback that writes its calls down and lets `alice` with the password `:x` in. -/
def recording : BasicAuthHandler (StateM (List (Bytes × Bytes))) where
  callback_ username password := do
    modify (· ++ [(username, password)])
    return username == ascii "alice" && password == ascii ":x"
  realm_ := ascii "realm"

theorem authorizeInner_base64Encode_recording :
    (recording.authorizeInner
        (some (ascii "Basic " ++ base64Encode (ascii "alice" ++ [colon] ++ ascii ":x")))).run [] =
      (true, [(ascii "alice", ascii ":x")]) := by
  rw [(authorizeInner_base64Encode recording).2 (ascii "alice") (ascii ":x") (by decide)]
  rfl

/-- A request with credentials proceeds as the callback says, and is answered if it does not. -/
theorem authorize_credentials [LawfulMonad m] (handler : BasicAuthHandler m) {user : Bytes}
    (h : colon ∉ user) (password : Bytes) :
    handler.authorize (some (basic ++ base64Encode (user ++ colon :: password))) =
      (fun accepted => (accepted, if accepted then [] else handler.writeUnauthorizedResponse)) <$>
        handler.callback_ user password := by
  rw [authorize, authorizeInner_credentials handler h, map_eq_pure_bind]
  congr 1
  funext accepted
  cases accepted <;> rfl

/-! ## Headers that are not base64 -/

/-- What the decoder throws at does not reach the callback. -/
theorem authorizeInner_of_not_ok (handler : BasicAuthHandler m) {s : Bytes}
    (h : ¬ ∃ bytes, base64Decode s = .ok bytes) :
    handler.authorizeInner (some (basic ++ s)) = pure false := by
  have htake : (basic ++ s).take basic.length = basic := List.take_left
  have hdrop : (basic ++ s).drop basic.length = s := List.drop_left
  cases hdecode : base64Decode s with
  | ok bytes => exact absurd ⟨bytes, hdecode⟩ h
  | error e =>
      simp only [authorizeInner, htake, hdrop, hdecode, ne_eq, not_true_eq_false, if_false]

/-- Accepting just the padded texts, and asking the callback about no other, is what the decoder and
the handler do on every text that is not loosely padded, and on no text that is. -/
theorem base64Decode_padded_iff (s : Bytes) :
    (((∃ bytes, base64Decode s = .ok bytes) ↔ Padded s) ∧
      (¬ Padded s → ∀ (m : Type → Type) [Monad m] (handler : BasicAuthHandler m),
        handler.authorizeInner (some (ascii "Basic " ++ s)) = pure false)) ↔ ¬ Loose s := by
  rw [base64Decode_ok_iff]
  constructor
  · rintro ⟨haccepts, -⟩ hloose
    exact hloose.not_padded (haccepts.mp (.inr hloose))
  · intro hloose
    have haccepts : Padded s ∨ Loose s ↔ Padded s := or_iff_left hloose
    refine ⟨haccepts, fun hpadded m _ handler => ?_⟩
    apply authorizeInner_of_not_ok handler
    rwa [base64Decode_ok_iff, haccepts]

/-- `YTpiYw=X` decodes to `a:bc`, and the callback is asked about `a` and `bc`. -/
theorem base64Decode_not_always_padded :
    ¬ ∀ s : Bytes, (((∃ bytes, base64Decode s = .ok bytes) ↔ Padded s) ∧
      (¬ Padded s → ∀ (m : Type → Type) [Monad m] (handler : BasicAuthHandler m),
        handler.authorizeInner (some (ascii "Basic " ++ s)) = pure false)) := by
  intro h
  have hloose : Loose (ascii "YTpiYw=X") :=
    ⟨89, 119, 88, by decide, by decide, by decide, [ascii "YTpi"], by decide +kernel, rfl⟩
  have hdecode : base64Decode (ascii "YTpiYw=X") = .ok (ascii "a" ++ colon :: ascii "bc") := by
    decide +kernel
  have hcall : (recording.authorizeInner (some (ascii "Basic " ++ ascii "YTpiYw=X"))).run [] =
      (recording.callback_ (ascii "a") (ascii "bc")).run [] :=
    congrArg (StateT.run · []) (authorizeInner_of_ok recording hdecode (by decide))
  rw [(h (ascii "YTpiYw=X")).2 hloose.not_padded] at hcall
  exact List.cons_ne_nil _ _ (congrArg Prod.snd hcall).symm

end BasicAuthHandler

end PrometheusCpp
