/-
# PrometheusCpp.Pull.Unauthorized -- the response to a client without credentials, `basic_auth.cc`

The realm is printed between two quotes into a header field, as it is. So the client is asked for
the credentials of this realm, by a response that ends where it should, if and only if the realm has
no quote, no backslash, no null byte and no line break (`readRealm_iff`); with a line break, what is
behind it is read as fields of its own.
-/
import PrometheusCpp.Lib.HttpMessage
import PrometheusCpp.Pull.BasicAuth

namespace PrometheusCpp

open ByteString HttpMessage

/-! ## The client -/

/-- The text up to the closing quote, and what is behind it; a character behind a backslash stands
for itself. -/
def readQuoted : (escaped : Bool) → Bytes → Option (Bytes × Bytes)
  | _, [] => none
  | true, c :: text => (readQuoted false text).map fun (quoted, rest) => (c :: quoted, rest)
  | false, c :: text =>
    if c = quote then some ([], text)
    else if c = backslash then readQuoted true text
    else (readQuoted false text).map fun (quoted, rest) => (c :: quoted, rest)

def basicRealm : Bytes := ascii "Basic realm=\""

/-- The realm of a response that asks for credentials, and what comes behind the response. -/
def readRealm (text : Bytes) : Option (Bytes × Bytes) := do
  let (message, rest) ← readMessage text
  let challenge ← message.fields.lookup (ascii "WWW-Authenticate")
  if message.startLine = ascii "HTTP/1.1 401 Unauthorized" ∧
      challenge.take basicRealm.length = basicRealm then
    match readQuoted false (challenge.drop basicRealm.length) with
    | some (realm, []) => some (realm, rest)
    | _ => none
  else none

/-! ## Quoted text -/

theorem length_lt_of_readQuoted {text : Bytes} : ∀ {escaped : Bool} {quoted rest : Bytes},
    readQuoted escaped text = some (quoted, rest) →
      quoted.length + rest.length < text.length := by
  induction text with
  | nil => exact fun {escaped} _ _ h => by cases escaped <;> cases h
  | cons c text ih =>
      intro escaped quoted rest h
      have hmore : ∀ {quoted rest}, (readQuoted false text).map
          (fun (quoted, rest) => (c :: quoted, rest)) = some (quoted, rest) →
            quoted.length + rest.length < (c :: text).length := by
        intro quoted rest h
        obtain ⟨⟨quoted', rest'⟩, hread, heq⟩ := Option.map_eq_some_iff.mp h
        obtain ⟨rfl, rfl⟩ := Prod.mk.inj heq
        have hless := ih hread
        simp only [List.length_cons]
        omega
      cases escaped with
      | true => exact hmore h
      | false =>
          unfold readQuoted at h
          split_ifs at h
          · obtain ⟨rfl, rfl⟩ := Prod.mk.inj (Option.some.inj h)
            simp
          · exact (ih h).trans (Nat.lt_succ_self _)
          · exact hmore h

/-- A text is read back from between quotes exactly if nothing in it is a quote or escapes. -/
theorem readQuoted_append_iff (text : Bytes) :
    readQuoted false (text ++ [quote]) = some (text, []) ↔ quote ∉ text ∧ backslash ∉ text := by
  induction text with
  | nil => exact iff_of_true rfl ⟨List.not_mem_nil, List.not_mem_nil⟩
  | cons c text ih =>
      rw [List.cons_append, readQuoted, List.mem_cons, List.mem_cons, not_or, not_or]
      by_cases hquote : c = quote
      · rw [if_pos hquote]
        refine iff_of_false (fun h => ?_) fun h => h.1.1 hquote.symm
        exact absurd (Prod.mk.inj (Option.some.inj h)).1 nofun
      by_cases hbackslash : c = backslash
      · rw [if_neg hquote, if_pos hbackslash]
        refine iff_of_false (fun h => ?_) fun h => h.2.1 hbackslash.symm
        -- An escape is not read as itself, so too little is read.
        have hless := length_lt_of_readQuoted h
        simp at hless
      · rw [if_neg hquote, if_neg hbackslash, and_and_and_comm]
        have hne : quote ≠ c ∧ backslash ≠ c := ⟨Ne.symm hquote, Ne.symm hbackslash⟩
        rw [and_iff_right hne, ← ih]
        constructor
        · intro h
          obtain ⟨⟨quoted, rest⟩, hread, heq⟩ := Option.map_eq_some_iff.mp h
          obtain ⟨hquoted, rfl⟩ := Prod.mk.inj heq
          rw [hread, (List.cons.inj hquoted).2]
        · intro h
          rw [h]
          rfl

/-! ## The challenge -/

def challengeName : Bytes := ascii "WWW-Authenticate"

/-- The response with this text between the quotes. -/
def unauthorized (quoted : Bytes) : Message where
  startLine := ascii "HTTP/1.1 401 Unauthorized"
  fields := [(challengeName, basicRealm ++ quoted ++ [quote]),
    (ascii "Connection", ascii "close"), (ascii "Content-Length", ascii "0")]
  body := []

theorem writeUnauthorizedResponse_eq {m : Type → Type} [Monad m] (handler : BasicAuthHandler m) :
    handler.writeUnauthorizedResponse = (unauthorized (handler.realm_.takeWhile (· ≠ 0))).text := by
  have hchallenge : ascii "WWW-Authenticate: Basic realm=\"" =
      challengeName ++ HttpMessage.colon :: space :: basicRealm := by decide
  have hend : ascii "\"\r\n" = quote :: lineBreak := by decide
  have hstart : ascii "HTTP/1.1 401 Unauthorized\r\n" =
      ascii "HTTP/1.1 401 Unauthorized" ++ lineBreak := by decide
  have hconnection : ascii "Connection: close\r\n" =
      fieldLine (ascii "Connection", ascii "close") ++ lineBreak := by decide
  have hlength : ascii "Content-Length: 0\r\n" =
      fieldLine (ascii "Content-Length", ascii "0") ++ lineBreak := by decide
  have hbreak : ascii "\r\n" = lineBreak := by decide
  rw [BasicAuthHandler.writeUnauthorizedResponse, hchallenge, hend, hstart, hconnection, hlength,
    hbreak]
  simp [Message.text, linesText, unauthorized, fieldLine]

/-- What is in front of the text in the line of the challenge. -/
def challengeStart : Bytes := challengeName ++ HttpMessage.colon :: space :: basicRealm

theorem carriageReturn_not_mem_challengeStart : carriageReturn ∉ challengeStart := by decide

theorem framed_unauthorized {quoted : Bytes} (h : ¬ lineBreak <:+: quoted) :
    Framed (unauthorized quoted) where
  startLine := by
    show ¬ lineBreak <:+: ascii "HTTP/1.1 401 Unauthorized"
    decide
  fields := by
    have hline : ¬ lineBreak <:+: fieldLine (challengeName, basicRealm ++ quoted ++ [quote]) := by
      have htext : fieldLine (challengeName, basicRealm ++ quoted ++ [quote]) =
          challengeStart ++ (quoted ++ [quote]) := by
        simp [fieldLine, challengeStart]
      rw [htext, infix_append_iff carriageReturn_not_mem_challengeStart,
        infix_concat_iff (by decide)]
      exact h
    have hchallenge : PlainField (challengeName, basicRealm ++ quoted ++ [quote]) :=
      { name := by
          show HttpMessage.colon ∉ challengeName
          decide
        value := by
          rw [List.append_assoc]
          exact ne_of_beq_false rfl
        line := hline }
    intro field hfield
    rcases List.mem_cons.mp hfield with rfl | hothers
    · exact hchallenge
    · rcases List.mem_cons.mp hothers with rfl | hlength
      · exact ⟨by decide, by decide, by decide⟩
      · exact List.mem_singleton.mp hlength ▸ ⟨by decide, by decide, by decide⟩
  length := by
    have hother : (ascii "Content-Length" == challengeName) = false := by decide
    have hconnection : (ascii "Content-Length" == ascii "Connection") = false := by decide
    have hzero : ascii "0" = Decimal.natText 0 := by decide
    simp [unauthorized, List.lookup_cons, hother, hconnection, hzero]

/-! ## The realm is read back -/

theorem readRealm_unauthorized {quoted : Bytes} (hbreak : ¬ lineBreak <:+: quoted)
    (hquoted : quote ∉ quoted ∧ backslash ∉ quoted) (rest : Bytes) :
    readRealm ((unauthorized quoted).text ++ rest) = some (quoted, rest) := by
  have hlookup : (unauthorized quoted).fields.lookup (ascii "WWW-Authenticate") =
      some (basicRealm ++ (quoted ++ [quote])) := by
    rw [← List.append_assoc]
    exact List.lookup_cons_self
  have hstart : (unauthorized quoted).startLine = ascii "HTTP/1.1 401 Unauthorized" := rfl
  rw [readRealm, readMessage_append (framed_unauthorized hbreak), Option.bind_eq_bind,
    Option.bind_some]
  simp only [hlookup, Option.bind_some, Option.bind_eq_bind, hstart, List.take_left, and_self,
    if_true, List.drop_left, (readQuoted_append_iff quoted).mpr hquoted]

/-- What is read as the realm comes from the line of the challenge. -/
theorem readQuoted_of_readRealm {quoted realm rest more : Bytes}
    (h : readRealm ((unauthorized quoted).text ++ rest) = some (realm, more)) :
    ∃ line, line <+: quoted ++ [quote] ∧ ¬ lineBreak <:+: line ∧
      readQuoted false line = some (realm, []) := by
  have htext : (unauthorized quoted).text ++ rest =
      ascii "HTTP/1.1 401 Unauthorized" ++ lineBreak ++
        (challengeStart ++ (quoted ++ [quote] ++ lineBreak ++
          (linesText [fieldLine (ascii "Connection", ascii "close"),
            fieldLine (ascii "Content-Length", ascii "0")] ++ rest))) := by
    simp [Message.text, linesText, unauthorized, fieldLine, challengeStart]
  obtain ⟨⟨message, rest'⟩, hmessage, h⟩ := Option.bind_eq_some_iff.mp h
  obtain ⟨challenge, hlookup, h⟩ := Option.bind_eq_some_iff.mp h
  have hstart : ¬ lineBreak <:+: ascii "HTTP/1.1 401 Unauthorized" := by decide
  obtain ⟨lines, tail, hlines, hfields⟩ := fields_of_readMessage hstart (htext ▸ hmessage)
  obtain ⟨line, tail, others, hline, rfl⟩ :=
    readLines_append_left carriageReturn_not_mem_challengeStart (by decide) hlines
  -- The first field is the challenge.
  have hfield : readField (challengeStart ++ line) = (challengeName, basicRealm ++ line) := by
    have hsplit : challengeStart ++ line =
        challengeName ++ HttpMessage.colon :: (space :: (basicRealm ++ line)) := by
      simp [challengeStart]
    have hcolon : HttpMessage.colon ∉ challengeName := by decide
    rw [hsplit, readField, before_append hcolon, behind_append hcolon]
    rfl
  have hchallenge : challenge = basicRealm ++ line := by
    rw [hfields, List.map_cons, hfield] at hlookup
    exact (Option.some.inj hlookup).symm
  refine ⟨line, prefix_of_readLine hline, (readLine_eq_some hline).2, ?_⟩
  rw [hchallenge, List.take_left, List.drop_left] at h
  split_ifs at h
  split at h
  · rename_i realm' hquoted
    obtain ⟨rfl, -⟩ := Prod.mk.inj (Option.some.inj h)
    exact hquoted
  · cases h

/-- The client asks its user for the credentials of the configured realm if and only if nothing in
the realm ends it early, escapes or breaks the line. -/
theorem readRealm_iff {m : Type → Type} [Monad m] (handler : BasicAuthHandler m) (rest : Bytes) :
    readRealm (handler.writeUnauthorizedResponse ++ rest) = some (handler.realm_, rest) ↔
      0 ∉ handler.realm_ ∧ quote ∉ handler.realm_ ∧ backslash ∉ handler.realm_ ∧
        ¬ lineBreak <:+: handler.realm_ := by
  rw [writeUnauthorizedResponse_eq]
  constructor
  · intro h
    obtain ⟨line, ⟨more, hfront⟩, hbreak, hread⟩ := readQuoted_of_readRealm h
    -- With both quotes gone the line is too short for more than the realm.
    have hless := length_lt_of_readQuoted hread
    have hlength : line.length + more.length =
        (handler.realm_.takeWhile (· ≠ 0)).length + 1 := by
      rw [← List.length_append, hfront, List.length_append]
      rfl
    have hcut := List.takeWhile_prefix (l := handler.realm_) (· ≠ 0)
    have hle := hcut.length_le
    rw [List.length_nil] at hless
    have hwhole : handler.realm_.takeWhile (· ≠ 0) = handler.realm_ :=
      hcut.eq_of_length (by omega)
    have hmore : more = [] := List.eq_nil_of_length_eq_zero (by omega)
    obtain rfl : line = handler.realm_ ++ [quote] := by
      rw [← hwhole, ← hfront, hmore, List.append_nil]
    have hzero : 0 ∉ handler.realm_ := fun hmem =>
      of_decide_eq_true (List.takeWhile_eq_self_iff.mp hwhole 0 hmem) rfl
    obtain ⟨hquote, hbackslash⟩ := (readQuoted_append_iff _).mp hread
    exact ⟨hzero, hquote, hbackslash, fun hbroken =>
      hbreak (hbroken.trans (List.infix_append' [] _ _))⟩
  · rintro ⟨hzero, hquote, hbackslash, hbreak⟩
    have hwhole : handler.realm_.takeWhile (· ≠ 0) = handler.realm_ :=
      List.takeWhile_eq_self_iff.mpr fun c hc =>
        decide_eq_true fun heq => hzero (heq ▸ hc)
    rw [hwhole]
    exact readRealm_unauthorized hbreak ⟨hquote, hbackslash⟩ rest


end PrometheusCpp
