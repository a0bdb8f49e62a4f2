/-
# PrometheusCpp.Pull.Responses -- what a scrape sends over the connection, `handler.cc`

The text of a scrape is sent compressed when the client accepts that and zlib makes something of it,
and plain otherwise; a field says how long the body is. A client reads the text back, and finds the
next response right behind it (`readBody_writeResponse`), except that zlib is told the length of its
input in 32 bits. With the reader of the exposition this makes a scrape arrive
(`readScrape_writeResponse`).

zlib is a parameter. What it does is what its documentation says of `deflate` with `Z_FINISH`
(`Zlib.Lawful`).
-/
import PrometheusCpp.Core.ExpositionReader
import PrometheusCpp.Lib.HttpMessage

namespace PrometheusCpp

open ByteString HttpMessage

/-! ## zlib -/

inductive ZReturn where
  | ok
  | streamEnd
  | error
  deriving DecidableEq

/-- `deflateInit2` for the gzip format, which may fail, with the input that is left to the stream;
`deflate` with `Z_FINISH` and room for a number of bytes, and what it writes. -/
structure Zlib where
  Stream : Type
  deflateInit2 : Bytes → Option Stream
  deflate : Stream → Nat → ZReturn × Bytes × Stream

/-- What a stream has to write is a text that inflates to the input. It is written from the front;
more calls are needed only when the room is used up, and none when the stream has ended. -/
structure Zlib.Lawful (zlib : Zlib) (inflate : Bytes → Option Bytes)
    (pending : zlib.Stream → Bytes) : Prop where
  starts : ∀ {input zs}, zlib.deflateInit2 input = some zs → inflate (pending zs) = some input
  writes : ∀ {zs room ret written zs'}, zlib.deflate zs room = (ret, written, zs') →
    written ++ pending zs' = pending zs
  ends : ∀ {zs room written zs'}, zlib.deflate zs room = (.streamEnd, written, zs') →
    pending zs' = []
  more : ∀ {zs room written zs'}, zlib.deflate zs room = (.ok, written, zs') →
    written.length = room

/-! ## `handler.cc` -/

/-- `std::vector::resize` -/
def resize (v : Bytes) (size : Nat) : Bytes := v.take size ++ List.replicate (size - v.length) 0

/-- Bytes written into a vector from an index on. -/
def overwrite (v : Bytes) (index : Nat) (data : Bytes) : Bytes :=
  v.take index ++ data ++ v.drop (index + data.length)

namespace GZip

def outputBytesPerRound : Nat := 32768

/-- The loop of `GZipCompress`; `total_out` counts what the stream has written. -/
def deflateLoop (zlib : Zlib) : Nat → zlib.Stream → (output : Bytes) → (total_out : Nat) →
    Option (ZReturn × Bytes)
  | 0, _, _, _ => none
  | fuel + 1, zs, output, total_out =>
    let output := resize output (total_out + outputBytesPerRound)
    let (ret, written, zs) := zlib.deflate zs outputBytesPerRound
    let output := overwrite output total_out written
    let total_out := total_out + written.length
    let output := resize output total_out
    if ret = .ok then deflateLoop zlib fuel zs output total_out else some (ret, output)

/-- The input of a stream has a length of 32 bits. -/
def availIn (input : Bytes) : Bytes := input.take (input.length % 2 ^ 32)

/-- `GZipCompress` -/
def compress (zlib : Zlib) (fuel : Nat) (input : Bytes) : Option Bytes :=
  match zlib.deflateInit2 (availIn input) with
  | none => some []
  | some zs => do
    let (ret, output) ← deflateLoop zlib fuel zs [] 0
    if ret ≠ .streamEnd then some [] else some output

end GZip

/-- The argument is what `mg_get_header` finds for `Accept-Encoding`. -/
def isEncodingAccepted (accept_encoding : Option Bytes) (encoding : Bytes) : Bool :=
  match accept_encoding with
  | none => false
  | some accept_encoding => decide (encoding <:+: accept_encoding)

def contentLength (size : Nat) : Bytes :=
  ascii "Content-Length: " ++ Decimal.natText size ++ ascii "\r\n\r\n"

/-- What is written to the connection, and the size of the body; `HAVE_ZLIB` is zlib, if the library
is built with it. -/
def writeResponse (HAVE_ZLIB : Option Zlib) (fuel : Nat) (accept_encoding : Option Bytes)
    (body : Bytes) : Option (Bytes × Nat) :=
  let head := ascii "HTTP/1.1 200 OK\r\n" ++ ascii "Content-Type: text/plain; charset=utf-8\r\n"
  let plain := (head ++ contentLength body.length ++ body, body.length)
  match HAVE_ZLIB with
  | none => some plain
  | some zlib =>
    if isEncodingAccepted accept_encoding (ascii "gzip") then do
      let compressed ← GZip.compress zlib fuel body
      if compressed ≠ [] then
        some (head ++ ascii "Content-Encoding: gzip\r\n" ++ contentLength compressed.length ++ compressed,
          compressed.length)
      else some plain
    else some plain

/-! ## The client -/

/-- The body of a response, inflated if it is compressed, and what comes behind the response. -/
def readBody (inflate : Bytes → Option Bytes) (text : Bytes) : Option (Bytes × Bytes) := do
  let (message, rest) ← readMessage text
  if message.startLine = ascii "HTTP/1.1 200 OK" then
    match message.fields.lookup (ascii "Content-Encoding") with
    | none => some (message.body, rest)
    | some coding =>
      if coding = ascii "gzip" then (inflate message.body).map fun body => (body, rest) else none
  else none

/-! ## Compression -/

theorem resize_append (a b : Bytes) : resize (a ++ b) a.length = a := by
  rw [resize, List.take_left, List.length_append, Nat.sub_eq_zero_of_le (Nat.le_add_right _ _),
    List.replicate_zero, List.append_nil]

/-- What is written behind the bytes so far is all that a round adds. -/
theorem resize_overwrite_resize (output written : Bytes) (room : Nat) :
    resize (overwrite (resize output (output.length + room)) output.length written)
      (output.length + written.length) = output ++ written := by
  have htake : (resize output (output.length + room)).take output.length = output := by
    rw [resize, List.take_of_length_le (Nat.le_add_right _ _), List.take_left]
  rw [overwrite, htake, ← List.length_append, resize_append]

namespace GZip

section Loop

variable {zlib : Zlib} {inflate : Bytes → Option Bytes} {pending : zlib.Stream → Bytes}

theorem deflateLoop_succ {zs zs' : zlib.Stream} {ret : ZReturn} {written : Bytes}
    (hdeflate : zlib.deflate zs outputBytesPerRound = (ret, written, zs')) (fuel : Nat)
    (output : Bytes) :
    deflateLoop zlib (fuel + 1) zs output output.length =
      if ret = .ok then deflateLoop zlib fuel zs' (output ++ written) (output ++ written).length
      else some (ret, output ++ written) := by
  simp only [deflateLoop, hdeflate, resize_overwrite_resize, List.length_append]

/-- The loop returns, with all that the stream had to write unless with an error. -/
theorem deflateLoop_returns (hlawful : zlib.Lawful inflate pending) : ∀ (fuel : Nat)
    (zs : zlib.Stream) (output : Bytes), (pending zs).length < fuel →
      ∃ ret result, deflateLoop zlib fuel zs output output.length = some (ret, result) ∧
        (ret = .streamEnd → result = output ++ pending zs) := by
  intro fuel
  induction fuel with
  | zero => exact fun _ _ h => absurd h (Nat.not_lt_zero _)
  | succ fuel ih =>
      intro zs output hfuel
      obtain ⟨ret, written, zs', hdeflate⟩ : ∃ ret written zs',
        zlib.deflate zs outputBytesPerRound = (ret, written, zs') := ⟨_, _, _, rfl⟩
      have hwrites := hlawful.writes hdeflate
      rw [deflateLoop_succ hdeflate]
      cases ret with
      | ok =>
          -- The room was used up, so less is pending.
          have hless : (pending zs').length < fuel := by
            have hroom := hlawful.more hdeflate
            have hpositive : 0 < outputBytesPerRound := by decide
            have hlength := congrArg List.length hwrites
            rw [List.length_append] at hlength
            omega
          obtain ⟨ret, result, hloop, hend⟩ := ih zs' (output ++ written) hless
          refine ⟨ret, result, (if_pos rfl).trans hloop, fun hret => ?_⟩
          rw [hend hret, List.append_assoc, hwrites]
      | streamEnd =>
          refine ⟨_, _, if_neg (by decide), fun _ => ?_⟩
          rw [← hwrites, hlawful.ends hdeflate, List.append_nil]
      | error => exact ⟨_, _, if_neg (by decide), nofun⟩

/-- What comes out inflates to what went in, unless nothing comes out. -/
theorem compress_returns (hlawful : zlib.Lawful inflate pending) (input : Bytes) :
    ∃ n, ∀ fuel ≥ n, ∃ compressed, compress zlib fuel input = some compressed ∧
      (compressed ≠ [] → inflate compressed = some (availIn input)) := by
  cases hinit : zlib.deflateInit2 (availIn input) with
  | none => exact ⟨0, fun fuel _ => ⟨[], by rw [compress, hinit], fun h => absurd rfl h⟩⟩
  | some zs =>
      refine ⟨(pending zs).length + 1, fun fuel hfuel => ?_⟩
      obtain ⟨ret, result, hloop, hend⟩ := deflateLoop_returns hlawful fuel zs [] hfuel
      have hcompress : compress zlib fuel input =
          some (if ret ≠ .streamEnd then [] else result) := by
        simp only [compress, hinit]
        rw [show deflateLoop zlib fuel zs [] 0 = some (ret, result) from hloop]
        exact (apply_ite some _ _ _).symm
      refine ⟨_, hcompress, fun hne => ?_⟩
      by_cases hret : ret = .streamEnd
      · rw [if_neg (not_not.mpr hret), hend hret, List.nil_append]
        exact hlawful.starts hinit
      · exact absurd (if_pos hret) hne

end Loop

end GZip

/-! ## The response is read back -/

/-- The head of a response with a body. -/
def response (coding : List (Bytes × Bytes)) (body : Bytes) : Message where
  startLine := ascii "HTTP/1.1 200 OK"
  fields := (ascii "Content-Type", ascii "text/plain; charset=utf-8") :: coding ++
    [(ascii "Content-Length", Decimal.natText body.length)]
  body := body

def gzipCoding : List (Bytes × Bytes) := [(ascii "Content-Encoding", ascii "gzip")]

theorem lineBreak_not_infix {line : Bytes} (h : carriageReturn ∉ line) : ¬ lineBreak <:+: line :=
  fun hbroken => h (hbroken.subset List.mem_cons_self)

theorem plainField_contentLength (n : Nat) :
    PlainField (ascii "Content-Length", Decimal.natText n) where
  name := by
    show HttpMessage.colon ∉ ascii "Content-Length"
    decide
  value hhead := (Decimal.natText_isDigits n).not_mem (by decide) (List.mem_of_head? hhead)
  line := by
    have hname : carriageReturn ∉ ascii "Content-Length" ++ [HttpMessage.colon, space] := by decide
    refine lineBreak_not_infix fun hmem => ?_
    rcases List.mem_append.mp hmem with hfront | hback
    · exact hname (List.mem_append_left _ hfront)
    · rcases List.mem_cons.mp hback with hcolon | hrest
      · exact absurd hcolon (by decide)
      · rcases List.mem_cons.mp hrest with hspace | hdigit
        · exact absurd hspace (by decide)
        · exact (Decimal.natText_isDigits n).not_mem (by decide) hdigit

theorem framed_response {coding : List (Bytes × Bytes)} (h : coding = [] ∨ coding = gzipCoding)
    (body : Bytes) : Framed (response coding body) where
  startLine := by
    show ¬ lineBreak <:+: ascii "HTTP/1.1 200 OK"
    exact lineBreak_not_infix (by decide)
  fields := by
    have htype : PlainField (ascii "Content-Type", ascii "text/plain; charset=utf-8") :=
      ⟨by decide, by decide, lineBreak_not_infix (by decide)⟩
    have hgzip : PlainField (ascii "Content-Encoding", ascii "gzip") :=
      ⟨by decide, by decide, lineBreak_not_infix (by decide)⟩
    intro field hfield
    rcases List.mem_append.mp hfield with hfront | hlength
    · rcases List.mem_cons.mp hfront with rfl | hcoding
      · exact htype
      · rcases h with rfl | rfl
        · exact absurd hcoding List.not_mem_nil
        · exact List.mem_singleton.mp hcoding ▸ hgzip
    · exact List.mem_singleton.mp hlength ▸ plainField_contentLength body.length
  length := by
    rcases h with rfl | rfl
    · have hother : (ascii "Content-Length" == ascii "Content-Type") = false := by decide
      simp [response, List.lookup_cons, hother]
    · have hother : (ascii "Content-Length" == ascii "Content-Type") = false := by decide
      have hcoding : (ascii "Content-Length" == ascii "Content-Encoding") = false := by decide
      simp [response, gzipCoding, List.lookup_cons, hother, hcoding]

section Read

variable {inflate : Bytes → Option Bytes}

theorem readBody_plain (body rest : Bytes) :
    readBody inflate ((response [] body).text ++ rest) = some (body, rest) := by
  have hlookup : (response [] body).fields.lookup (ascii "Content-Encoding") = none := by
    have htype : (ascii "Content-Encoding" == ascii "Content-Type") = false := by decide
    have hlength : (ascii "Content-Encoding" == ascii "Content-Length") = false := by decide
    simp [response, List.lookup_cons, htype, hlength]
  simp only [readBody, readMessage_append (framed_response (.inl rfl) body), Option.bind_eq_bind,
    Option.bind_some, hlookup]
  rfl

theorem readBody_gzip (compressed rest : Bytes) :
    readBody inflate ((response gzipCoding compressed).text ++ rest) =
      (inflate compressed).map fun body => (body, rest) := by
  have hlookup : (response gzipCoding compressed).fields.lookup (ascii "Content-Encoding") =
      some (ascii "gzip") := by
    have htype : (ascii "Content-Encoding" == ascii "Content-Type") = false := by decide
    simp [response, gzipCoding, List.lookup_cons, htype]
  simp only [readBody, readMessage_append (framed_response (.inr rfl) compressed),
    Option.bind_eq_bind, Option.bind_some, hlookup]
  rfl

theorem response_text (coding : List (Bytes × Bytes)) (body : Bytes) :
    (response coding body).text = ascii "HTTP/1.1 200 OK\r\n" ++
      ascii "Content-Type: text/plain; charset=utf-8\r\n" ++
      (coding.map fieldLine).flatMap (· ++ lineBreak) ++ contentLength body.length ++ body := by
  have hstart : ascii "HTTP/1.1 200 OK\r\n" = ascii "HTTP/1.1 200 OK" ++ lineBreak := by decide
  have htype : ascii "Content-Type: text/plain; charset=utf-8\r\n" =
      fieldLine (ascii "Content-Type", ascii "text/plain; charset=utf-8") ++ lineBreak := by decide
  have hlength : ascii "Content-Length: " = ascii "Content-Length" ++ [HttpMessage.colon, space] := by
    decide
  have hend : ascii "\r\n\r\n" = lineBreak ++ lineBreak := by decide
  rw [Message.text, response, contentLength, hstart, htype, hlength, hend]
  simp [linesText, fieldLine]

/-- The response is plain, or zlib has made something of the body. -/
theorem writeResponse_cases (HAVE_ZLIB : Option Zlib) (accept_encoding : Option Bytes)
    (body : Bytes) (hlawful : ∀ zlib, HAVE_ZLIB = some zlib → ∃ pending, zlib.Lawful inflate pending) :
    ∃ n, ∀ fuel ≥ n,
      writeResponse HAVE_ZLIB fuel accept_encoding body =
        some ((response [] body).text, body.length) ∨
      isEncodingAccepted accept_encoding (ascii "gzip") = true ∧ ∃ compressed,
        inflate compressed = some (GZip.availIn body) ∧
        writeResponse HAVE_ZLIB fuel accept_encoding body =
          some ((response gzipCoding compressed).text, compressed.length) := by
  have hplain := response_text [] body
  cases HAVE_ZLIB with
  | none => exact ⟨0, fun fuel _ => .inl (by rw [hplain]; rfl)⟩
  | some zlib =>
      cases haccepted : isEncodingAccepted accept_encoding (ascii "gzip") with
      | false =>
          refine ⟨0, fun fuel _ => .inl ?_⟩
          rw [writeResponse, hplain]
          exact if_neg (by rw [haccepted]; exact Bool.false_ne_true)
      | true =>
          obtain ⟨pending, hpending⟩ := hlawful zlib rfl
          obtain ⟨n, hreturns⟩ := GZip.compress_returns hpending body
          refine ⟨n, fun fuel hfuel => ?_⟩
          obtain ⟨compressed, hcompress, hinflate⟩ := hreturns fuel hfuel
          rw [writeResponse, hplain]
          simp only [haccepted, if_true, hcompress, Option.bind_eq_bind, Option.bind_some]
          by_cases hnil : compressed = []
          · exact .inl (if_neg (not_not.mpr hnil))
          · refine .inr ⟨trivial, compressed, hinflate hnil, (if_pos hnil).trans ?_⟩
            have hcoding : ascii "Content-Encoding: gzip\r\n" =
                (gzipCoding.map fieldLine).flatMap (· ++ lineBreak) := by decide
            rw [response_text, hcoding]

/-- Whatever the client accepts and whatever zlib does, the response is sent, says how long it is,
and is read back: as the body, or, when it is compressed, as the part of the body whose length is
what 32 bits leave of the length. -/
theorem readBody_writeResponse (HAVE_ZLIB : Option Zlib) (accept_encoding : Option Bytes)
    (body rest : Bytes)
    (hlawful : ∀ zlib, HAVE_ZLIB = some zlib → ∃ pending, zlib.Lawful inflate pending) :
    ∃ n, ∀ fuel ≥ n, ∃ text size, writeResponse HAVE_ZLIB fuel accept_encoding body = some (text, size) ∧
      (∃ message, readMessage (text ++ rest) = some (message, rest) ∧ message.body.length = size) ∧
      (readBody inflate (text ++ rest) = some (body, rest) ∨
        isEncodingAccepted accept_encoding (ascii "gzip") = true ∧
          readBody inflate (text ++ rest) = some (body.take (body.length % 2 ^ 32), rest)) := by
  obtain ⟨n, hcases⟩ := writeResponse_cases HAVE_ZLIB accept_encoding body hlawful
  refine ⟨n, fun fuel hfuel => ?_⟩
  rcases hcases fuel hfuel with hplain | ⟨haccepted, compressed, hinflate, hgzip⟩
  · exact ⟨_, _, hplain, ⟨_, readMessage_append (framed_response (.inl rfl) body) rest, rfl⟩,
      .inl (readBody_plain body rest)⟩
  · refine ⟨_, _, hgzip, ⟨_, readMessage_append (framed_response (.inr rfl) compressed) rest, rfl⟩,
      .inr ⟨haccepted, ?_⟩⟩
    rw [readBody_gzip, hinflate]
    rfl

/-- The families in a response to a scrape, and what comes behind it. -/
def readScrape (inflate : Bytes → Option Bytes) (text : Bytes) : Option (List MetricFamily × Bytes) := do
  let (body, rest) ← readBody inflate text
  let families ← TextSerializer.readExposition body
  some (families, rest)

/-- What a handler has collected arrives, if its text is less than four gigabytes. -/
theorem readScrape_writeResponse (HAVE_ZLIB : Option Zlib) (accept_encoding : Option Bytes)
    (metrics : List MetricFamily) (rest : Bytes)
    (hlawful : ∀ zlib, HAVE_ZLIB = some zlib → ∃ pending, zlib.Lawful inflate pending)
    (hnames : ∀ family ∈ metrics, TextSerializer.WellNamed family)
    (hhelp : ∀ family ∈ metrics, TextSerializer.PlainHelp family.help)
    (hlength : (TextSerializer.serialize metrics).length < 2 ^ 32) :
    ∃ n, ∀ fuel ≥ n, ∃ text size,
      writeResponse HAVE_ZLIB fuel accept_encoding (TextSerializer.serialize metrics) =
        some (text, size) ∧
      readScrape inflate (text ++ rest) = some (metrics.map TextSerializer.exposed, rest) := by
  obtain ⟨n, hwritten⟩ := readBody_writeResponse HAVE_ZLIB accept_encoding
    (TextSerializer.serialize metrics) rest hlawful
  refine ⟨n, fun fuel hfuel => ?_⟩
  obtain ⟨text, size, hwrite, -, hread⟩ := hwritten fuel hfuel
  have hbody : readBody inflate (text ++ rest) = some (TextSerializer.serialize metrics, rest) := by
    rcases hread with hbody | ⟨-, hbody⟩
    · exact hbody
    · rwa [Nat.mod_eq_of_lt hlength, List.take_length] at hbody
  refine ⟨text, size, hwrite, ?_⟩
  rw [readScrape, hbody]
  show (do
    let families ← TextSerializer.readExposition (TextSerializer.serialize metrics)
    some (families, rest)) = _
  rw [TextSerializer.readExposition_serialize metrics hnames hhelp]
  rfl

end Read

/-! ## A compressed scrape -/

/-- What zlib makes of the text of a family with a labelled metric. -/
def compressedUp : Bytes :=
  [31, 139, 8, 0, 0, 0, 0, 0, 0, 3, 83, 86, 240, 112, 245, 9, 80, 40, 45, 80, 240, 44, 86, 200, 44, 1,
    50, 236, 185, 148, 21, 66, 34, 3, 92, 65, 98, 233, 137, 165, 233, 169, 92, 165, 5, 213, 25, 249,
    197, 37, 182, 74, 137, 49, 74, 73, 49, 121, 201, 74, 181, 10, 134, 92, 0, 123, 216, 155, 219, 57, 0,
    0, 0]

/-- zlib, for this text. -/
def zlibUp : Zlib where
  Stream := Bytes
  deflateInit2 input := if input = TextSerializer.serialize [TextSerializer.labelledUp] then
    some compressedUp else none
  deflate zs room :=
    (if zs.length ≤ room then .streamEnd else .ok, zs.take room, zs.drop room)

def inflateUp (compressed : Bytes) : Option Bytes :=
  if compressed = compressedUp then some (TextSerializer.serialize [TextSerializer.labelledUp])
  else none

theorem deflateUp {zs : Bytes} {room : Nat} {ret : ZReturn} {written zs' : Bytes}
    (h : zlibUp.deflate zs room = (ret, written, zs')) :
    (if zs.length ≤ room then ZReturn.streamEnd else .ok) = ret ∧ zs.take room = written ∧
      zs.drop room = zs' := by
  obtain ⟨hret, hmore⟩ := Prod.mk.inj h
  obtain ⟨hwritten, hrest⟩ := Prod.mk.inj hmore
  exact ⟨hret, hwritten, hrest⟩

theorem zlibUp_lawful : zlibUp.Lawful inflateUp fun zs : Bytes => zs where
  starts {input zs} h := by
    by_cases hinput : input = TextSerializer.serialize [TextSerializer.labelledUp]
    · have hzs : compressedUp = zs := Option.some.inj ((if_pos hinput).symm.trans h)
      rw [← hzs, hinput]
      exact if_pos rfl
    · exact nomatch (if_neg hinput).symm.trans h
  writes h := by
    obtain ⟨-, hwritten, hrest⟩ := deflateUp h
    rw [← hwritten, ← hrest]
    exact List.take_append_drop _ _
  ends h := by
    obtain ⟨hret, -, hrest⟩ := deflateUp h
    split_ifs at hret with hroom
    rw [← hrest]
    exact List.drop_eq_nil_of_le hroom
  more h := by
    obtain ⟨hret, hwritten, -⟩ := deflateUp h
    split_ifs at hret with hroom
    rw [← hwritten]
    exact List.length_take_of_le (Nat.le_of_not_le hroom)

theorem exists_lawful : ∀ zlib, some zlibUp = some zlib →
    ∃ pending, zlib.Lawful inflateUp pending := by
  rintro _ ⟨⟩
  exact ⟨_, zlibUp_lawful⟩

theorem readScrape_writeResponse_of_one : ∃ fuel text size,
    writeResponse (some zlibUp) fuel (some (ascii "deflate, gzip"))
        (TextSerializer.serialize [TextSerializer.labelledUp]) = some (text, size) ∧
      readScrape inflateUp (text ++ ascii "HTTP") =
        some ([TextSerializer.exposed TextSerializer.labelledUp], ascii "HTTP") := by
  obtain ⟨n, hread⟩ := readScrape_writeResponse (some zlibUp) (some (ascii "deflate, gzip"))
    [TextSerializer.labelledUp] (ascii "HTTP") exists_lawful (by decide +kernel)
    (by decide +kernel) (by decide +kernel)
  exact ⟨n, hread n (le_refl n)⟩

theorem readBody_writeResponse_of_one : ∃ fuel text size,
    writeResponse (some zlibUp) fuel (some (ascii "deflate, gzip"))
        (TextSerializer.serialize [TextSerializer.labelledUp]) = some (text, size) ∧
      readBody inflateUp (text ++ ascii "HTTP") =
        some (TextSerializer.serialize [TextSerializer.labelledUp], ascii "HTTP") := by
  obtain ⟨n, hread⟩ := readBody_writeResponse (some zlibUp) (some (ascii "deflate, gzip"))
    (TextSerializer.serialize [TextSerializer.labelledUp]) (ascii "HTTP") exists_lawful
  obtain ⟨text, size, hwrite, -, hbody | ⟨-, hbody⟩⟩ := hread n (le_refl n)
  · exact ⟨n, text, size, hwrite, hbody⟩
  · have hlength : (TextSerializer.serialize [TextSerializer.labelledUp]).length < 2 ^ 32 := by
      decide +kernel
    rw [Nat.mod_eq_of_lt hlength, List.take_length] at hbody
    exact ⟨n, text, size, hwrite, hbody⟩

end PrometheusCpp
