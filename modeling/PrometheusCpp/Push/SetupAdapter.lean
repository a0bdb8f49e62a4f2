/-
# PrometheusCpp.Push.SetupAdapter -- the credentials of a gateway, `gateway.cc`

A gateway made with a user name sets the name and the password on the curl handle for every request,
joined by a colon. The text ends at the first null byte, so it has both whole exactly if there is no
null byte in either; and whoever takes it apart at the first colon gets both back exactly if there is
none in the name (`transfers_authenticated`).
-/
import PrometheusCpp.Push.CurlWrapper

namespace PrometheusCpp

open ByteString Linearization LockedObject

/-! ## `gateway.cc` -/

structure SetupAdapter where
  auth_ : Bytes
  timeout_ : Int

namespace SetupAdapter

def new (username password : Bytes) (timeout : Int) : SetupAdapter where
  auth_ := if username ≠ [] then username ++ [colon] ++ password else []
  timeout_ := timeout

/-- `operator()`: the options it sets. -/
def setup (adapter : SetupAdapter) : List CurlOption :=
  (if adapter.auth_ ≠ [] then [.httpAuthBasic, .userPwd (cStr adapter.auth_)] else []) ++
    [.timeout adapter.timeout_]

end SetupAdapter

namespace Gateway

def concatenate (host port : Bytes) : Bytes := host ++ [colon] ++ port

/-- The constructor with a user name: the gateway, and what its wrapper is made with. -/
def newWithCredentials (host port jobname : Bytes) (labels : List (Bytes × Bytes))
    (username password : Bytes) (timeout : Int) (initialized : CurlWrapper.Initialized) :
    Except String (Gateway × CurlWrapper) :=
  (CurlWrapper.new (some (SetupAdapter.new username password timeout).setup) initialized).map
    fun wrapper => (new (concatenate host port) jobname labels, wrapper)

end Gateway

/-! ## What is set -/

namespace CurlOption

def userPwd? : CurlOption → Option Bytes
  | userPwd auth => some auth
  | _ => none

def timeout? : CurlOption → Option Int
  | timeout seconds => some seconds
  | _ => none

end CurlOption

theorem cStr_eq_self_iff {s : Bytes} : cStr s = s ↔ 0 ∉ s := by
  rw [cStr, List.takeWhile_eq_self_iff]
  constructor
  · intro h hmem
    exact absurd rfl (of_decide_eq_true (h 0 hmem))
  · intro h c hc
    exact decide_eq_true fun heq => h (heq ▸ hc)

/-- The text that is set for a name and a password is whole unless it is cut. -/
theorem cStr_credentials_iff {username password : Bytes} :
    cStr (username ++ [colon] ++ password) = username ++ [colon] ++ password ↔
      0 ∉ username ∧ 0 ∉ password := by
  rw [cStr_eq_self_iff]
  simp [colon]

/-- Taken apart at the first colon, the text gives them back unless there is one in the name. -/
theorem read_credentials_iff {read : Bytes → Bytes × Bytes}
    (hread : ∀ name rest, colon ∉ name → read (name ++ colon :: rest) = (name, rest))
    {username password : Bytes} :
    read (username ++ [colon] ++ password) = (username, password) ↔ colon ∉ username := by
  constructor
  · intro hback hmem
    obtain ⟨name, rest, rfl, hname⟩ := List.eq_append_cons_of_mem hmem
    have hfirst := hread name (rest ++ [colon] ++ password) hname
    rw [List.append_assoc, List.append_assoc, List.cons_append] at hback
    rw [List.append_assoc] at hfirst
    have hsame := (Prod.mk.inj (hfirst.symm.trans hback)).1
    exact absurd (congrArg List.length hsame) (by simp)
  · intro hcolon
    rw [List.append_assoc, List.singleton_append]
    exact hread username password hcolon

/-! ## Every transfer -/

namespace CurlWrapper

section Options

variable (adapter : SetupAdapter) (request : Request)

/-- What a request sets besides is neither credentials nor a timeout. -/
theorem filterMap_userPwd :
    (options (some adapter.setup) request).filterMap CurlOption.userPwd? =
      if adapter.auth_ ≠ [] then [cStr adapter.auth_] else [] := by
  unfold options SetupAdapter.setup
  cases request.method <;> split_ifs <;> rfl

theorem filterMap_timeout :
    (options (some adapter.setup) request).filterMap CurlOption.timeout? = [adapter.timeout_] := by
  unfold options SetupAdapter.setup
  cases request.method <;> split_ifs <;> rfl

theorem httpAuthBasic_mem_iff :
    CurlOption.httpAuthBasic ∈ options (some adapter.setup) request ↔ adapter.auth_ ≠ [] := by
  unfold options SetupAdapter.setup
  cases request.method <;> split_ifs <;> simp_all

end Options

end CurlWrapper

namespace Gateway

variable {ι : Type} [DecidableEq ι] {host port jobname : Bytes} {labels : List (Bytes × Bytes)}
  {username password : Bytes} {timeout : Int} {initialized : CurlWrapper.Initialized} {g : Gateway}
  {w : CurlWrapper} {es : List (Event ι CurlWrapper.Call CurlWrapper.Result)}
  {c : Config ι CurlWrapper.Call (Guarded ι CurlWrapper.Connection)
    (Place CurlWrapper.Call CurlWrapper.Result CurlWrapper.Section)}

/-- In every run of any threads, all transfers of a gateway have its timeout. With a user name they
have the name and the password joined by a colon: whole if and only if no null byte is in either, and
then `read`, which takes a text apart at the first colon, gets both back if and only if no colon is
in the name. Without a name they have no credentials, whatever the password is. -/
theorem transfers_authenticated {read : Bytes → Bytes × Bytes}
    (hread : ∀ name rest, colon ∉ name → read (name ++ colon :: rest) = (name, rest))
    (hnew : newWithCredentials host port jobname labels username password timeout initialized =
      .ok (g, w))
    (h : Run (Config.Step (locked CurlWrapper.methods)) (Config.new ⟨none, ⟨w, []⟩⟩) es c) :
    ∀ transfer ∈ c.shared.value.transfers,
      transfer.options.filterMap CurlOption.timeout? = [timeout] ∧
      (username = [] → .httpAuthBasic ∉ transfer.options ∧
        transfer.options.filterMap CurlOption.userPwd? = []) ∧
      (username ≠ [] → .httpAuthBasic ∈ transfer.options ∧
        ∃ text, transfer.options.filterMap CurlOption.userPwd? = [text] ∧
          (text = username ++ [colon] ++ password ↔ 0 ∉ username ∧ 0 ∉ password) ∧
          (0 ∉ username → 0 ∉ password →
            (read text = (username, password) ↔ colon ∉ username))) := by
  have hwrapper : CurlWrapper.new (some (SetupAdapter.new username password timeout).setup)
      initialized = .ok w := by
    unfold newWithCredentials at hnew
    cases hw : CurlWrapper.new (some (SetupAdapter.new username password timeout).setup)
        initialized with
    | error e => rw [hw] at hnew; cases hnew
    | ok wrapper =>
        rw [hw] at hnew
        exact congrArg Except.ok (Prod.mk.inj (Except.ok.inj hnew)).2
  intro transfer htransfer
  obtain ⟨⟨t, request, -, hoptions⟩, -⟩ :=
    (CurlWrapper.transfers_whole hwrapper h).1 transfer htransfer
  rw [hoptions, CurlWrapper.filterMap_timeout, CurlWrapper.filterMap_userPwd,
    CurlWrapper.httpAuthBasic_mem_iff]
  refine ⟨rfl, fun husername => ?_, fun husername => ?_⟩
  · have hauth : (SetupAdapter.new username password timeout).auth_ = [] :=
      if_neg (not_not.mpr husername)
    exact ⟨not_not.mpr hauth, if_neg (not_not.mpr hauth)⟩
  · have hauth : (SetupAdapter.new username password timeout).auth_ =
        username ++ [colon] ++ password := if_pos husername
    have hne : username ++ [colon] ++ password ≠ [] := by simp
    rw [hauth, if_pos hne]
    refine ⟨hne, _, rfl, cStr_credentials_iff, fun husername hpassword => ?_⟩
    rw [cStr_credentials_iff.mpr ⟨husername, hpassword⟩]
    exact read_credentials_iff hread

/-- The name `me`, and a password with a colon. -/
def adapter : SetupAdapter := .new [109, 101] [97, 58, 98] 5

theorem transfers_authenticated_of_one : ∃ g w,
    newWithCredentials [104] [49] [106] [] [109, 101] [97, 58, 98] 5 ⟨true, true, true⟩ =
      .ok (g, w) ∧
    ∃ c : Config Unit CurlWrapper.Call (Guarded Unit CurlWrapper.Connection)
        (Place CurlWrapper.Call CurlWrapper.Result CurlWrapper.Section),
      Run (Config.Step (locked CurlWrapper.methods)) (Config.new ⟨none, ⟨w, []⟩⟩)
        [.invoke () (.performHttpRequest ⟨.post, [104], []⟩), .respond () (.status 200)] c ∧
      ∃ transfer ∈ c.shared.value.transfers,
        ∃ text, transfer.options.filterMap CurlOption.userPwd? = [text] ∧
          (before colon text, behind colon text) = ([109, 101], [97, 58, 98]) := by
  have hnew : newWithCredentials [104] [49] [106] [] [109, 101] [97, 58, 98] 5 ⟨true, true, true⟩ =
      .ok (_, _) := rfl
  refine ⟨_, _, hnew, ?_⟩
  have hinvoked : Run (Config.Step (locked CurlWrapper.methods)) (Config.new
      ⟨none, ⟨⟨adapter.setup, [CurlWrapper.contentType], some adapter.setup⟩, []⟩⟩) [_] _ :=
    .visible .init (.invoke (t := ()) (CurlWrapper.Call.performHttpRequest ⟨.post, [104], []⟩) rfl)
  have hentered := Run.silent (.silent (.silent hinvoked
    (.internal (t := ()) rfl (.enter rfl))) (.internal (t := ()) rfl (.lock rfl)))
    (.internal (t := ()) rfl (.work (.reset _ _ _)))
  have hurl := Run.silent (.silent hentered (.internal (t := ()) rfl (.work (.setopt _ _ _ _))))
    (.internal (t := ()) rfl (.work (.setopt _ _ _ _)))
  have hsetup := Run.silent (.silent (.silent hurl
    (.internal (t := ()) rfl (.work (.setopt _ _ _ _))))
    (.internal (t := ()) rfl (.work (.setopt _ _ _ _))))
    (.internal (t := ()) rfl (.work (.setopt _ _ _ _)))
  have hready := Run.silent (.silent (.silent hsetup
    (.internal (t := ()) rfl (.work (.setopt _ _ _ _))))
    (.internal (t := ()) rfl (.work (.setopt _ _ _ _))))
    (.internal (t := ()) rfl (.work (.ready _)))
  have hdone := Run.visible (.silent hready (.internal (t := ()) rfl
    (.finish (.perform ⟨_, _, 0, 200⟩ _ _ rfl rfl)))) (.respond (t := ()) rfl .unlock)
  refine ⟨_, hdone, _, List.mem_singleton_self _, ?_⟩
  obtain ⟨read, hfirst⟩ : ∃ read : Bytes → Bytes × Bytes,
      ∀ text, read text = (before colon text, behind colon text) := ⟨_, fun _ => rfl⟩
  have hread : ∀ name rest : Bytes, colon ∉ name → read (name ++ colon :: rest) = (name, rest) := by
    intro name rest hname
    rw [hfirst, before_append hname, behind_append hname]
  have hauthenticated := transfers_authenticated hread hnew hdone _ (List.mem_singleton_self _)
  obtain ⟨-, text, htext, -, hback⟩ := hauthenticated.2.2 (by decide)
  exact ⟨text, htext, hfirst text ▸ (hback (by decide) (by decide)).mpr (by decide)⟩

end Gateway

end PrometheusCpp
