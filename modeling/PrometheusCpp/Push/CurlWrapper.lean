/-
# PrometheusCpp.Push.CurlWrapper -- the shared curl handle of a gateway, `curl_wrapper.cc`

All requests of a gateway go through one curl handle, option by option, and the futures of a push
use it from many threads. Every request resets the handle first and holds the lock until its
transfer is over. So each transfer is made with the options of one request, whole and in order, and
with the headers added before it, and the request returns what came of it (`transfers_whole`); every
request makes one transfer, and nothing else does (`transfers_complete`).

The handle is known by the options set on it since it was last reset; what curl makes of them, and
the outcome of a transfer, is not the wrapper's.
-/
import PrometheusCpp.Lib.LockedObject
import PrometheusCpp.Lib.RelatedLists
import PrometheusCpp.Push.Requests
import Mathlib.Data.List.Perm.Basic

namespace PrometheusCpp

open ByteString Linearization LockedObject

/-- A call of `curl_easy_setopt`. The wrapper passes its header list by its address. -/
inductive CurlOption where
  | url (uri : Bytes)
  | httpHeader
  | postFieldSize (size : Nat)
  | postFields (data : Bytes)
  | post (on : Bool)
  | noBody (on : Bool)
  | httpGet (on : Bool)
  | customRequest (method : Bytes)
  | httpAuthBasic
  | userPwd (auth : Bytes)
  | timeout (seconds : Int)
  | other (option : Nat) (value : Bytes)
  deriving DecidableEq

/-- The bytes of a `c_str()` as C reads them. -/
def cStr (s : Bytes) : Bytes := s.takeWhile (· ≠ 0)

/-! ## `curl_wrapper.cc` -/

structure CurlWrapper where
  curl_ : List CurlOption := []
  optHttpHeader_ : List Bytes
  /-- What the function given to the constructor sets, if there is one. -/
  presetupCurl_ : Option (List CurlOption)

namespace CurlWrapper

def contentType : Bytes := ascii "Content-Type: text/plain; version=0.0.4; charset=utf-8"

/-- What the calls into curl return to the constructor. -/
structure Initialized where
  curl_global_init : Bool
  curl_easy_init : Bool
  curl_slist_append : Bool

def new (presetupCurl : Option (List CurlOption)) (initialized : Initialized) :
    Except String CurlWrapper :=
  if initialized.curl_global_init = false then .error "Cannot initialize global curl!"
  else if initialized.curl_easy_init = false then .error "Cannot initialize easy curl!"
  else if initialized.curl_slist_append = false then
    .error "Cannot append the header of the content type"
  else
    .ok { curl_ := presetupCurl.getD []
          optHttpHeader_ := [contentType]
          presetupCurl_ := presetupCurl }

/-- The options of a request, in the order in which they are set on the handle. -/
def options (presetupCurl : Option (List CurlOption)) (request : Request) : List CurlOption :=
  [.url (cStr request.uri), .httpHeader] ++ presetupCurl.getD [] ++
    (if request.body ≠ [] then [.postFieldSize request.body.length, .postFields request.body]
    else [.postFieldSize 0]) ++
    match request.method with
    | .post => [.post true]
    | .put => [.noBody false, .customRequest (ascii "PUT")]
    | .delete => [.httpGet false, .noBody false, .customRequest (ascii "DELETE")]

/-! ## The critical sections -/

inductive Call where
  | performHttpRequest (request : Request)
  | addHttpHeader (header : Bytes)

inductive Result where
  | status (code : Int)
  | added (success : Bool)

/-- What curl saw when it made a transfer, and how the transfer went. -/
structure Transfer where
  options : List CurlOption
  headers : List Bytes
  curl_error : Int
  response_code : Int
  deriving DecidableEq

/-- What is returned for a transfer. -/
def Transfer.statusCode (transfer : Transfer) : Int :=
  if transfer.curl_error ≠ 0 then -transfer.curl_error else transfer.response_code

/-- A wrapper and the transfers made with it so far. -/
structure Connection where
  wrapper : CurlWrapper
  transfers : List Transfer := []

/-- Where a call is in its critical section. -/
inductive Section where
  | reset (request : Request)
  | setopt (rest : List CurlOption)
  | perform
  | append (header : Bytes)

def Call.enter : Call → Section
  | .performHttpRequest request => .reset request
  | .addHttpHeader header => .append header

/-- The steps under the lock. A transfer and the allocation of a list entry can have any outcome. -/
inductive Section.Step : Section → Connection → Section ⊕ Result → Connection → Prop
  | reset (request : Request) (w : CurlWrapper) (transfers : List Transfer) :
      Step (.reset request) ⟨w, transfers⟩ (.inl (.setopt (options w.presetupCurl_ request)))
        ⟨{ w with curl_ := [] }, transfers⟩
  | setopt (option : CurlOption) (rest : List CurlOption) (w : CurlWrapper)
      (transfers : List Transfer) :
      Step (.setopt (option :: rest)) ⟨w, transfers⟩ (.inl (.setopt rest))
        ⟨{ w with curl_ := w.curl_ ++ [option] }, transfers⟩
  | ready (v : Connection) : Step (.setopt []) v (.inl .perform) v
  | perform (transfer : Transfer) (w : CurlWrapper) (transfers : List Transfer)
      (options : transfer.options = w.curl_) (headers : transfer.headers = w.optHttpHeader_) :
      Step .perform ⟨w, transfers⟩ (.inr (.status transfer.statusCode)) ⟨w, transfers ++ [transfer]⟩
  | append (header : Bytes) (w : CurlWrapper) (transfers : List Transfer) :
      Step (.append header) ⟨w, transfers⟩ (.inr (.added true))
        ⟨{ w with optHttpHeader_ := w.optHttpHeader_ ++ [cStr header] }, transfers⟩
  | appendFails (header : Bytes) (v : Connection) :
      Step (.append header) v (.inr (.added false)) v

def methods : Methods Call Result Connection Section where
  enter call _ := .inl call.enter
  step := Section.Step
  environment _ _ := False

/-! ## One request after the other -/

/-- The header lines given to curl, and the transfers. -/
structure Requests where
  headers : List Bytes := [contentType]
  transfers : List Transfer := []

/-- The wrapper as its callers know it. -/
inductive Performs (presetupCurl : Option (List CurlOption)) :
    Requests → Call → Result → Requests → Prop
  | performHttpRequest (a : Requests) (request : Request) (transfer : Transfer)
      (options : transfer.options = options presetupCurl request)
      (headers : transfer.headers = a.headers) :
      Performs presetupCurl a (.performHttpRequest request) (.status transfer.statusCode)
        { a with transfers := a.transfers ++ [transfer] }
  | addHttpHeader (a : Requests) (header : Bytes) :
      Performs presetupCurl a (.addHttpHeader header) (.added true)
        { a with headers := a.headers ++ [cStr header] }
  | addHttpHeaderFails (a : Requests) (header : Bytes) :
      Performs presetupCurl a (.addHttpHeader header) (.added false) a

/-- What of a connection never depends on the options on the handle. -/
structure Abs (presetupCurl : Option (List CurlOption)) (v : Connection) (a : Requests) : Prop where
  headers : v.wrapper.optHttpHeader_ = a.headers
  transfers : v.transfers = a.transfers
  presetup : v.wrapper.presetupCurl_ = presetupCurl

/-- Between its steps a request has set the options up to the rest. -/
def Section.Fits (presetupCurl : Option (List CurlOption)) (v : Connection) :
    Call → Section → Prop
  | .performHttpRequest request, .reset request' => request' = request
  | .performHttpRequest request, .setopt rest => v.wrapper.curl_ ++ rest = options presetupCurl request
  | .performHttpRequest request, .perform => v.wrapper.curl_ = options presetupCurl request
  | .addHttpHeader header, .append header' => header' = header
  | _, _ => False

theorem realizes (presetupCurl : Option (List CurlOption)) :
    Realizes methods (Performs presetupCurl) (Abs presetupCurl) fun a call at_ v =>
      Abs presetupCurl v a ∧ at_.Fits presetupCurl v call where
  enter_step _ := rfl
  enter_environment _ := rfl
  returns _ hreturn := nomatch hreturn
  enters {call v at_ a} habs henter := by
    obtain rfl := Sum.inl.inj henter
    cases call <;> exact ⟨habs, rfl⟩
  works {call at_ v at' v' a} hduring hstep := by
    obtain ⟨habs, hfits⟩ := hduring
    cases call with
    | addHttpHeader header =>
        cases hstep <;> exact absurd hfits not_false
    | performHttpRequest request =>
        cases hstep with
        | reset request' w transfers =>
            obtain rfl : request' = request := hfits
            exact ⟨⟨habs.headers, habs.transfers, habs.presetup⟩,
              congrArg (options · request') habs.presetup⟩
        | setopt option rest w transfers =>
            refine ⟨⟨habs.headers, habs.transfers, habs.presetup⟩, ?_⟩
            show (w.curl_ ++ [option]) ++ rest = _
            rw [List.append_assoc]
            exact hfits
        | ready v => exact ⟨habs, (List.append_nil _).symm.trans hfits⟩
  finishes {call at_ v r v' a} hduring hstep := by
    obtain ⟨habs, hfits⟩ := hduring
    cases call with
    | addHttpHeader header =>
        cases hstep with
        | perform => exact absurd hfits not_false
        | append header' w transfers =>
            obtain rfl : header' = header := hfits
            refine ⟨_, .addHttpHeader a header', ?_, habs.transfers, habs.presetup⟩
            exact congrArg (· ++ [cStr header']) habs.headers
        | appendFails header' =>
            obtain rfl : header' = header := hfits
            exact ⟨a, .addHttpHeaderFails a header', habs⟩
    | performHttpRequest request =>
        cases hstep with
        | perform transfer w transfers hoptions hheaders =>
            refine ⟨_, .performHttpRequest a request transfer (hoptions.trans hfits)
              (hheaders.trans habs.headers), habs.headers, ?_, habs.presetup⟩
            exact congrArg (· ++ [transfer]) habs.transfers
        | append => exact absurd hfits not_false
        | appendFails => exact absurd hfits not_false
  abs_environment _ hhappens := absurd hhappens not_false
  during_environment _ hhappens := absurd hhappens not_false

/-! ## Whole transfers -/

section Transfers

variable {ι : Type} {presetupCurl : Option (List CurlOption)}

/-- The requests of a log, each with its thread and its result. -/
def requestsOf (log : List (ι × Call × Result)) : List (ι × Request × Result) :=
  log.filterMap fun (t, call, r) =>
    match call with
    | .performHttpRequest request => some (t, request, r)
    | .addHttpHeader _ => none

/-- The transfer of a request: made with its options, and the result is what came of it. -/
structure Transfer.Of (presetupCurl : Option (List CurlOption)) (transfer : Transfer)
    (entry : ι × Request × Result) : Prop where
  options : transfer.options = CurlWrapper.options presetupCurl entry.2.1
  result : entry.2.2 = .status transfer.statusCode

/-- The transfers and the headers that a log of calls is about: the transfers are those of its
requests, one for each in their order. -/
structure Logged (presetupCurl : Option (List CurlOption)) (log : List (ι × Call × Result))
    (a : Requests) : Prop where
  transfers : List.Forall₂ (Transfer.Of presetupCurl) a.transfers (requestsOf log)
  headers : a.headers = contentType :: log.filterMap fun entry =>
    match entry.2 with
    | (.addHttpHeader header, .added true) => some (cStr header)
    | _ => none
  growing : a.transfers.Pairwise fun transfer later => transfer.headers <+: later.headers
  carried : ∀ transfer ∈ a.transfers,
    [contentType] <+: transfer.headers ∧ transfer.headers <+: a.headers

theorem logged_of_sequential {log : List (ι × Call × Result)} {a : Requests}
    (h : Sequential (Performs presetupCurl) {} log a) : Logged presetupCurl log a := by
  induction h with
  | nil => exact ⟨.nil, rfl, .nil, nofun⟩
  | @concat log a a' call r before t done ih =>
      have hrequests : ∀ entry : ι × Call × Result,
          requestsOf (log ++ [entry]) = requestsOf log ++ requestsOf [entry] := fun entry =>
        List.filterMap_append
      have hkept : ∀ header r, requestsOf (log ++ [(t, .addHttpHeader header, r)]) = requestsOf log :=
        fun header r => (hrequests _).trans (List.append_nil _)
      cases done with
      | performHttpRequest request transfer hoptions hheaders =>
          refine ⟨?_, ?_, ?_, ?_⟩
          · rw [hrequests]
            exact List.rel_append ih.transfers (.cons ⟨hoptions, rfl⟩ .nil)
          · simp [ih.headers]
          · refine List.pairwise_append.mpr ⟨ih.growing, List.pairwise_singleton _ _, ?_⟩
            intro earlier hearlier later hlater
            rw [List.mem_singleton.mp hlater, hheaders]
            exact (ih.carried earlier hearlier).2
          · intro earlier hearlier
            rcases List.mem_append.mp hearlier with hearlier | hnew
            · exact ih.carried earlier hearlier
            · rw [List.mem_singleton.mp hnew, hheaders]
              refine ⟨?_, List.prefix_refl _⟩
              rw [ih.headers]
              exact List.prefix_append _ _
      | addHttpHeader header =>
          refine ⟨?_, ?_, ih.growing, fun transfer htransfer => ?_⟩
          · rw [hkept]
            exact ih.transfers
          · simp [ih.headers]
          · obtain ⟨hfirst, hcarried⟩ := ih.carried transfer htransfer
            exact ⟨hfirst, hcarried.trans (List.prefix_append _ _)⟩
      | addHttpHeaderFails header =>
          refine ⟨?_, ?_, ih.growing, ih.carried⟩
          · rw [hkept]
            exact ih.transfers
          · simp [ih.headers]

variable [DecidableEq ι] {w : CurlWrapper} {initialized : Initialized}
  {es : List (Event ι Call Result)}
  {c : Config ι Call (Guarded ι Connection) (Place Call Result Section)}

/-- The run of an atomic wrapper alongside a run of the threads. Its log has for each thread the calls
that have returned, with their results, and the one that is about to. -/
theorem exists_logged (hnew : new presetupCurl initialized = .ok w)
    (h : Run (Config.Step (locked methods)) (Config.new ⟨none, ⟨w, []⟩⟩) es c) :
    ∃ a, Run (Atomic.Step (Performs presetupCurl)) (Atomic.new {}) es a ∧
      Abs presetupCurl c.shared.value a.state ∧ ∀ t, ofThread t a.log =
        (invocations t es).zip (responses t es) ++ finished (c.threads t) := by
  have habs : Abs presetupCurl ⟨w, []⟩ {} := by
    unfold new at hnew
    split_ifs at hnew
    rw [← Except.ok.inj hnew]
    exact ⟨rfl, rfl, rfl⟩
  obtain ⟨a, hrun, hcorresponds⟩ := (realizes presetupCurl).linearizable habs h
  refine ⟨a, hrun, ?_, fun t => ?_⟩
  · rcases hcorresponds.abs_or_during with habs | ⟨call, at_, hduring⟩
    · exact habs
    · exact hduring.1
  · rw [hrun.accounted.ofThread_log t, (hcorresponds.threads t).finished_eq]

/-- At any time, whatever the threads are in the middle of, every transfer has been made with all
options of one request in their order, and none of another one; the content type comes first among
its headers, and no later transfer has lost a header. Each request that a thread has got a result
for returned what came of its own transfer. -/
theorem transfers_whole (hnew : new presetupCurl initialized = .ok w)
    (h : Run (Config.Step (locked methods)) (Config.new ⟨none, ⟨w, []⟩⟩) es c) :
    (∀ transfer ∈ c.shared.value.transfers,
      (∃ t request, .invoke t (.performHttpRequest request) ∈ es ∧
        transfer.options = options presetupCurl request) ∧
      ∃ added, transfer.headers = contentType :: added ∧
        ∀ line ∈ added, ∃ t header, .invoke t (.addHttpHeader header) ∈ es ∧ line = cStr header) ∧
    (c.shared.value.transfers.Pairwise fun transfer later => transfer.headers <+: later.headers) ∧
    ∃ log : List (ι × Call × Result),
      (∀ t, ofThread t log = (invocations t es).zip (responses t es) ++ finished (c.threads t)) ∧
      List.Forall₂ (Transfer.Of presetupCurl) c.shared.value.transfers (requestsOf log) := by
  obtain ⟨a, hrun, habs, hthreads⟩ := exists_logged hnew h
  have hlogged := logged_of_sequential hrun.sequential
  rw [habs.transfers]
  refine ⟨fun transfer htransfer => ⟨?_, ?_⟩, hlogged.growing, a.log, hthreads, hlogged.transfers⟩
  · obtain ⟨⟨t, request, r⟩, hmem, hof⟩ := RelatedLists.exists_right hlogged.transfers htransfer
    obtain ⟨⟨t', call, r'⟩, hentry, heq⟩ := List.mem_filterMap.mp hmem
    cases call with
    | performHttpRequest request' =>
        obtain ⟨rfl, rfl, rfl⟩ := Prod.mk.inj (Option.some.inj heq) |>.imp_right Prod.mk.inj
        exact ⟨t', request', hrun.invoke_mem_of_log hentry, hof.options⟩
    | addHttpHeader header => cases heq
  · obtain ⟨⟨added, hadded⟩, hcarried⟩ := hlogged.carried transfer htransfer
    rw [← hadded, hlogged.headers, List.singleton_append] at hcarried
    obtain ⟨-, hlines⟩ := List.cons_prefix_cons.mp hcarried
    refine ⟨added, hadded.symm, fun line hline => ?_⟩
    obtain ⟨⟨t, call, r⟩, hentry, heq⟩ := List.mem_filterMap.mp (hlines.subset hline)
    cases call with
    | performHttpRequest request => cases heq
    | addHttpHeader header =>
        refine ⟨t, header, hrun.invoke_mem_of_log hentry, ?_⟩
        cases r with
        | status code => cases heq
        | added success =>
            cases success with
            | false => cases heq
            | true => exact (Option.some.inj heq).symm

/-- At any time there is one order of the calls that have got as far as their result, in which each
thread's calls have the results that the thread got, and the transfers are the requests in this
order: one for each, with its options, with the headers added before it, and with the status code it
returned. -/
theorem transfers_complete (hnew : new presetupCurl initialized = .ok w)
    (h : Run (Config.Step (locked methods)) (Config.new ⟨none, ⟨w, []⟩⟩) es c) :
    ∃ log : List (ι × Call × Result),
      (∀ t, ofThread t log = (invocations t es).zip (responses t es) ++ finished (c.threads t)) ∧
      Logged presetupCurl log
        ⟨c.shared.value.wrapper.optHttpHeader_, c.shared.value.transfers⟩ := by
  obtain ⟨a, hrun, habs, hthreads⟩ := exists_logged hnew h
  refine ⟨a.log, hthreads, ?_⟩
  rw [habs.headers, habs.transfers]
  exact logged_of_sequential hrun.sequential

theorem Performs.transfers_prefix {a a' : Requests} {call : Call} {r : Result}
    (h : Performs presetupCurl a call r a') : a.transfers <+: a'.transfers := by
  cases h with
  | performHttpRequest => exact List.prefix_append ..
  | addHttpHeader => exact List.prefix_rfl
  | addHttpHeaderFails => exact List.prefix_rfl

/-- A request begun after `AddHttpHeader` has returned true makes its transfer with the header. The
request is the one that its thread has made after those it got results for before, and the transfer
the one in its place. -/
theorem addHttpHeader_visible {t t' : ι} {header : Bytes} {request : Request} {code : Int}
    {earlier : List (Event ι Call Result)} (es₁ es₂ es₃ es₄ : List (Event ι Call Result))
    (hnew : new presetupCurl initialized = .ok w)
    (h : Run (Config.Step (locked methods)) (Config.new ⟨none, ⟨w, []⟩⟩) es c)
    (hes : es = earlier ++ .invoke t' (.performHttpRequest request) ::
      (es₄ ++ [.respond t' (.status code)]))
    (hearlier : earlier = es₁ ++ .invoke t (.addHttpHeader header) ::
      (es₂ ++ .respond t (.added true) :: es₃))
    (hother : ∀ e ∈ es₂, e.thread ≠ t) (hother' : ∀ e ∈ es₄, e.thread ≠ t') :
    ∃ (front back : List (ι × Call × Result)) (before after : List Transfer) (transfer : Transfer),
      (∀ u, ofThread u (front ++ (t', .performHttpRequest request, .status code) :: back) =
        (invocations u es).zip (responses u es) ++ finished (c.threads u)) ∧
      ofThread t' front = (invocations t' earlier).zip (responses t' earlier) ∧
      c.shared.value.transfers = before ++ transfer :: after ∧
      List.Forall₂ (Transfer.Of presetupCurl) before (requestsOf front) ∧
      transfer.Of presetupCurl (t', request, .status code) ∧
      List.Forall₂ (Transfer.Of presetupCurl) after (requestsOf back) ∧
      cStr header ∈ transfer.headers := by
  obtain ⟨a, hrun, habs, hthreads⟩ := exists_logged hnew h
  rw [hes] at hrun
  obtain ⟨b, _, m, s', hbegun, hgrows, -, hreached, -, hspec, ⟨back, hlog⟩, hleads, hown⟩ :=
    hrun.commit_point hother'
  -- The header was added before the request began.
  have hadded : (t, .addHttpHeader header, .added true) ∈ m.log := by
    rw [hearlier] at hbegun
    obtain ⟨_, _, m₀, _, -, -, -, -, -, -, hfirst, -⟩ := hbegun.commit_point hother
    exact hgrows.subset (hfirst.subset (List.mem_append_right _ List.mem_cons_self))
  have hlogged := logged_of_sequential hreached.sequential
  have hall := (logged_of_sequential hrun.sequential).transfers
  have hheader : cStr header ∈ m.state.headers := by
    rw [hlogged.headers]
    exact List.mem_cons_of_mem _ (List.mem_filterMap.mpr ⟨_, hadded, rfl⟩)
  rw [List.append_assoc, List.singleton_append] at hlog
  cases hspec with
  | performHttpRequest request transfer hoptions hheaders =>
      have hkept : m.state.transfers ++ [transfer] <+: a.state.transfers := by
        refine hleads.invariant (P := fun a => m.state.transfers ++ [transfer] <+: a.transfers)
          List.prefix_rfl fun a call r a' hprefix hperforms => hprefix.trans hperforms.transfers_prefix
      obtain ⟨after, hafter⟩ := hkept
      rw [List.append_assoc, List.singleton_append] at hafter
      have hrequests : requestsOf a.log =
          requestsOf m.log ++ (t', request, .status transfer.statusCode) :: requestsOf back := by
        rw [← hlog, requestsOf, List.filterMap_append]
        rfl
      have hrest := List.forall₂_drop_append _ _ _ (hrequests ▸ hall)
      rw [← hlogged.transfers.length_eq, ← hafter, List.drop_left] at hrest
      obtain ⟨-, hrest⟩ := List.forall₂_cons.mp hrest
      refine ⟨m.log, back, m.state.transfers, after, transfer, ?_, hown, ?_, hlogged.transfers,
        ⟨hoptions, rfl⟩, hrest, hheaders ▸ hheader⟩
      · rw [hlog]
        exact hthreads
      · rw [habs.transfers, hafter]

/-- One thread adds a header, and then another one sends a request. -/
def requesting : List (Event Bool Call Result) :=
  [.invoke false (.addHttpHeader [88, 58, 49]), .respond false (.added true),
    .invoke true (.performHttpRequest { method := .post, uri := [104], body := [35] }),
    .respond true (.status 200)]

theorem exists_transferred : ∃ w, new none ⟨true, true, true⟩ = .ok w ∧
    ∃ c : Config Bool Call (Guarded Bool Connection) (Place Call Result Section),
      Run (Config.Step (locked methods)) (Config.new ⟨none, ⟨w, []⟩⟩) (requesting.take 3) c ∧
        c.threads false = none ∧ c.threads true = some (.performHttpRequest
          { method := .post, uri := [104], body := [35] }, .leaving (.status 200)) := by
  refine ⟨_, rfl, ?_⟩
  have hbegun : Run (Config.Step (locked methods))
      (Config.new ⟨none, ⟨⟨[], [contentType], none⟩, []⟩⟩)
      [.invoke false (.addHttpHeader [88, 58, 49])] _ :=
    .visible .init (.invoke (t := false) _ rfl)
  have hadded := Run.visible (.silent (.silent (.silent hbegun
    (.internal (t := false) rfl (.enter rfl)))
    (.internal (t := false) rfl (.lock rfl)))
    (.internal (t := false) rfl (.finish (.append _ _ _)))) (.respond (t := false) rfl .unlock)
  have hinvoked := Run.visible hadded (.invoke (t := true)
    (Call.performHttpRequest { method := .post, uri := [104], body := [35] }) rfl)
  have hreset := Run.silent (.silent (.silent hinvoked
    (.internal (t := true) rfl (.enter rfl)))
    (.internal (t := true) rfl (.lock rfl)))
    (.internal (t := true) rfl (.work (.reset _ _ _)))
  have hready := Run.silent (.silent (.silent (.silent (.silent (.silent hreset
    (.internal (t := true) rfl (.work (.setopt _ _ _ _))))
    (.internal (t := true) rfl (.work (.setopt _ _ _ _))))
    (.internal (t := true) rfl (.work (.setopt _ _ _ _))))
    (.internal (t := true) rfl (.work (.setopt _ _ _ _))))
    (.internal (t := true) rfl (.work (.setopt _ _ _ _))))
    (.internal (t := true) rfl (.work (.ready _)))
  have hdone := Run.silent hready (.internal (t := true) rfl
    (.finish (.perform ⟨_, _, 0, 200⟩ _ _ rfl rfl)))
  exact ⟨_, hdone, rfl, rfl⟩

theorem exists_requesting : ∃ w, new none ⟨true, true, true⟩ = .ok w ∧
    ∃ c : Config Bool Call (Guarded Bool Connection) (Place Call Result Section),
      Run (Config.Step (locked methods)) (Config.new ⟨none, ⟨w, []⟩⟩) requesting c ∧
        ∀ t, c.threads t = none := by
  obtain ⟨w, hnew, c, hrun, hother, hleaving⟩ := exists_transferred
  refine ⟨w, hnew, _, .visible hrun (.respond hleaving .unlock), ?_⟩
  intro t
  cases t
  · exact hother
  · rfl

theorem transfers_whole_of_two : ∃ w, new none ⟨true, true, true⟩ = .ok w ∧
    ∃ c : Config Bool Call (Guarded Bool Connection) (Place Call Result Section),
      Run (Config.Step (locked methods)) (Config.new ⟨none, ⟨w, []⟩⟩) requesting c ∧
        (∀ transfer ∈ c.shared.value.transfers, ∃ added, transfer.headers = contentType :: added) ∧
        ∃ log : List (Bool × Call × Result),
          ofThread true log =
            [(.performHttpRequest { method := .post, uri := [104], body := [35] }, .status 200)] ∧
          List.Forall₂ (Transfer.Of none) c.shared.value.transfers (requestsOf log) := by
  obtain ⟨w, hnew, c, hrun, hquiet⟩ := exists_requesting
  obtain ⟨hwhole, -, log, hlog, htransfers⟩ := transfers_whole hnew hrun
  refine ⟨w, hnew, c, hrun, fun transfer htransfer => ?_, log, ?_, htransfers⟩
  · obtain ⟨-, added, hadded, -⟩ := hwhole transfer htransfer
    exact ⟨added, hadded⟩
  · rw [hlog true, hquiet true]
    rfl

/-- The transfer has been made, but the request has not returned. -/
theorem transfers_complete_of_two : ∃ w, new none ⟨true, true, true⟩ = .ok w ∧
    ∃ c : Config Bool Call (Guarded Bool Connection) (Place Call Result Section),
      Run (Config.Step (locked methods)) (Config.new ⟨none, ⟨w, []⟩⟩) (requesting.take 3) c ∧
        ∃ log : List (Bool × Call × Result),
          ofThread true log =
            [(.performHttpRequest { method := .post, uri := [104], body := [35] }, .status 200)] ∧
          Logged none log ⟨c.shared.value.wrapper.optHttpHeader_, c.shared.value.transfers⟩ := by
  obtain ⟨w, hnew, c, hrun, -, hleaving⟩ := exists_transferred
  obtain ⟨log, hthreads, hlogged⟩ := transfers_complete hnew hrun
  refine ⟨w, hnew, c, hrun, log, ?_, hlogged⟩
  rw [hthreads true, hleaving]
  rfl

theorem addHttpHeader_visible_of_two : ∃ w, new none ⟨true, true, true⟩ = .ok w ∧
    ∃ c : Config Bool Call (Guarded Bool Connection) (Place Call Result Section),
      Run (Config.Step (locked methods)) (Config.new ⟨none, ⟨w, []⟩⟩) requesting c ∧
        ∃ transfer ∈ c.shared.value.transfers,
          transfer.statusCode = 200 ∧ [88, 58, 49] ∈ transfer.headers := by
  obtain ⟨w, hnew, c, hrun, -⟩ := exists_requesting
  obtain ⟨front, back, before, after, transfer, -, -, htransfers, -, hof, -, hheader⟩ :=
    addHttpHeader_visible [] [] [] [] hnew hrun rfl rfl nofun nofun
  refine ⟨w, hnew, c, hrun, transfer, ?_, (Result.status.inj hof.result).symm, hheader⟩
  rw [htransfers]
  exact List.mem_append_right _ List.mem_cons_self

end Transfers

end CurlWrapper

end PrometheusCpp
