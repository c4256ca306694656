/-
  Shclaw.Provider.Call — the HTTP side of a model call (`src/provider.c`: `api_url`,
  `anthropic_auth`, `openai_auth`, `describe_failure`, `retryable`, `post_retry`, and
  `llm_call` as far as it chooses among them).

  A session's thread makes model calls one after the other, to any providers. What the
  network does with each try is an argument. The thread's settings (`Http.Settings`) are
  threaded through.

  `calls_fair`: in every sequence of calls, each is tried at most three times and again
  only after a failure that may pass, with the wait the server asks for or 2 s and 8 s,
  never more than a minute; every request of a call goes to the address of its own
  provider and carries its key and its timeout and no other's; and no setting is left
  behind, for the next call or for a plugin forked from the thread.
  `apiUrl_spelled`: slashes at the end of a base address and a `/v1` change nothing.
-/

import Mathlib.Data.List.Forall2
import Shclaw.Http.Answer
import Shclaw.Http.Settings
import Shclaw.JsonText

namespace Shclaw.Provider

open Lib

/-- `provider_ref_t`. -/
structure ProviderRef where
  providerName : Str
  providerType : Str
  apiKey : Str
  baseUrl : Str
  model : Str
  maxTokens : Int
  timeout : Int
  cacheKey : Str
  reasoningEffort : Str
  key_fits : apiKey.length < 256
  base_fits : baseUrl.length < 256

namespace Call

open Http

/-! ## A request -/

/-- `base` without the slashes it ends with. -/
def unslashed (base : Str) : Str := (base.reverse.dropWhile (· = ch '/')).reverse

def apiUrl (prov : ProviderRef) (defBase path : Str) : Str :=
  let base := unslashed (if prov.baseUrl ≠ [] then prov.baseUrl else defBase)
  let path := if 3 ≤ base.length ∧ base.drop (base.length - 3) = lit "/v1" ∧ startsWith path (lit "/v1/") = true then path.drop 3
    else path
  cut 512 (base ++ path)

/-- A header with a value, as the two `auth` functions set them. -/
def setHeader (name value : Str) (s : Settings) : Settings := httpSetHeader (some name) (some value) s

def anthropicAuth (prov : ProviderRef) (s : Settings) : Settings :=
  setHeader (lit "anthropic-version") (lit "2023-06-01") (setHeader (lit "x-api-key") prov.apiKey s)

def openaiAuth (prov : ProviderRef) (s : Settings) : Settings :=
  setHeader (lit "Authorization") (cut 300 (lit "Bearer " ++ if prov.apiKey ≠ [] then prov.apiKey else lit "none")) s

def isAnthropic (prov : ProviderRef) : Bool := prov.providerType = lit "anthropic"

def auth (prov : ProviderRef) : Settings → Settings := if isAnthropic prov then anthropicAuth prov else openaiAuth prov

def url (prov : ProviderRef) : Str :=
  if isAnthropic prov then apiUrl prov (lit "https://api.anthropic.com") (lit "/v1/messages")
  else apiUrl prov (lit "https://api.openai.com") (lit "/v1/chat/completions")

/-! ## Tries -/

/-- What comes of a try, with what a caller reads of it. -/
def answered (net : Net) (r : Http.Response × List Request × Settings) : Answer :=
  let none_ : Answer := ⟨r.1.status, 0, r.1.location, none⟩
  if r.2.1 = [] then none_
  else
    match net.exchange with
    | .answer buf timedOut tlsError => (parseAnswer buf timedOut tlsError).getD none_
    | _ => none_

def httpStrerror (status : Int) : Str :=
  if status = errConnect then lit "cannot connect"
  else if status = errTls then lit "TLS handshake failed"
  else if status = errProto then lit "no valid HTTP response"
  else if status = errRequest then lit "invalid URL or header"
  else if status = errNomem then lit "out of memory"
  else if status = errTimeout then lit "timed out"
  else lit "HTTP error"

/-- Into `out->error`. -/
def describeFailure (J : CJson) (a : Answer) : Str :=
  if a.status < 0 then cut 256 (httpStrerror a.status)
  else
    let body := (a.body.getD []).takeWhile (· ≠ 0)
    let e := (J.parse body).bind fun root => root.getObjectItem (lit "error")
    let msg := match e with
      | some (.str s) => some s
      | some e => e.jStr (lit "message")
      | none => none
    cut 256 (lit "HTTP " ++ paddedInt 1 a.status ++ lit ": " ++ (msg.getD body).take 200)

def retryable (status : Int) : Bool :=
  status = errConnect || status = errProto || status = 408 || status = 409 || status = 429 || 500 ≤ status

def llmTimeout : Int := 600

/-- How long to wait behind the try `attempt`. -/
def waitFor (attempt : Nat) (a : Answer) : Int :=
  let wait := if 0 < a.retryAfter then a.retryAfter else 2 * 2 ^ (attempt * 2)
  if 60 < wait then 60 else wait

/-- What a call comes to: the last answer, the text of the last failure, and on the way the
    answers of all tries, the requests, the waits. -/
structure Posted where
  answer : Answer
  err : Str
  tries : List Answer
  requests : List Request
  waits : List Int
  settings : Settings

def timeoutOf (prov : ProviderRef) : Int := if 0 < prov.timeout then prov.timeout else llmTimeout

/-- One try: `auth`, the timeout and `http_post_json`. -/
def tryOnce (prov : ProviderRef) (json : Str) (net : Net) (s : Settings) : Http.Response × List Request × Settings :=
  httpPostJson (some (url prov)) (some json) net (httpSetTimeout (timeoutOf prov) (auth prov s))

/-- `post_retry`, with so many tries left behind this one. -/
def postRetry (J : CJson) (prov : ProviderRef) (json : Str) (nets : Nat → Net) : Nat → Str → Settings → Posted
  | 0, err, s =>
    let r := tryOnce prov json (nets 2) s
    let a := answered (nets 2) r
    ⟨a, if a.status = 200 then err else describeFailure J a, [a], r.2.1, [], r.2.2⟩
  | left + 1, err, s =>
    let attempt := 1 - left
    let r := tryOnce prov json (nets attempt) s
    let a := answered (nets attempt) r
    if a.status = 200 then ⟨a, err, [a], r.2.1, [], r.2.2⟩
    else if retryable a.status = false then ⟨a, describeFailure J a, [a], r.2.1, [], r.2.2⟩
    else
      let rest := postRetry J prov json nets left (describeFailure J a) r.2.2
      { rest with tries := a :: rest.tries, requests := r.2.1 ++ rest.requests, waits := waitFor attempt a :: rest.waits }

/-- `llm_call` of a prompt that is `json` on the wire. -/
structure LlmCall where
  prov : ProviderRef
  json : Str
  nets : Nat → Net

def LlmCall.post (J : CJson) (c : LlmCall) (s : Settings) : Posted := postRetry J c.prov c.json c.nets 2 [] s

/-- A thread's calls. -/
def llmCalls (J : CJson) : List LlmCall → Settings → List Posted × Settings
  | [], s => ([], s)
  | c :: cs, s =>
    let p := c.post J s
    let r := llmCalls J cs p.settings
    (p :: r.1, r.2)

/-! ## One try -/

/-- The headers with a provider's key. -/
def keyHeaders (prov : ProviderRef) : List (Str × Str) :=
  if isAnthropic prov then [(lit "x-api-key", prov.apiKey), (lit "anthropic-version", lit "2023-06-01")]
  else [(lit "Authorization", lit "Bearer " ++ if prov.apiKey ≠ [] then prov.apiKey else lit "none")]

/-- A request of a call to `prov`. -/
structure Own (prov : ProviderRef) (json : Str) (q : Request) : Prop where
  headers : q.extraHdrs = keyHeaders prov
  timeout : q.timeout = timeoutOf prov
  url : parseUrl (some (url prov)) = some q.url
  body : q.body = json

/-- The whole key goes into a header. -/
theorem auth_fresh (prov : ProviderRef) : (auth prov .fresh).extraHdrs = keyHeaders prov := by
  have hkey := prov.key_fits
  unfold auth keyHeaders
  cases isAnthropic prov with
  | true =>
    have hcut : cut 512 prov.apiKey = prov.apiKey := (cut_eq_self (by decide)).mpr (by omega)
    show [(cut 128 (lit "x-api-key"), cut 512 prov.apiKey),
      (cut 128 (lit "anthropic-version"), cut 512 (lit "2023-06-01"))] = _
    rw [hcut]
    rfl
  | false =>
    have hbearer : (lit "Bearer ").length = 7 := rfl
    have hlen : (lit "Bearer " ++ if prov.apiKey ≠ [] then prov.apiKey else lit "none").length < 300 := by
      have hnone : (lit "none").length = 4 := rfl
      rw [List.length_append]
      split <;> omega
    have hauth : cut 300 (lit "Bearer " ++ if prov.apiKey ≠ [] then prov.apiKey else lit "none") =
        lit "Bearer " ++ if prov.apiKey ≠ [] then prov.apiKey else lit "none" := (cut_eq_self (by decide)).mpr hlen
    have hvalue : cut 512 (lit "Bearer " ++ if prov.apiKey ≠ [] then prov.apiKey else lit "none") =
        lit "Bearer " ++ if prov.apiKey ≠ [] then prov.apiKey else lit "none" := (cut_eq_self (by decide)).mpr (by omega)
    show [(cut 128 (lit "Authorization"),
      cut 512 (cut 300 (lit "Bearer " ++ if prov.apiKey ≠ [] then prov.apiKey else lit "none")))] = _
    rw [hauth, hvalue]
    rfl

theorem timeoutOf_pos (prov : ProviderRef) : 0 < timeoutOf prov := by
  unfold timeoutOf
  split
  · assumption
  · decide

/-- A request that goes out is for the address and has the body it was asked for. -/
theorem doRequest_target (method : Str) (address contentType : Option Str) (body : Str) (net : Net) (s : Settings) :
    ∀ q ∈ (doRequest method address contentType body net s).2.1, parseUrl address = some q.url ∧ q.body = body := by
  have hbuilt : ∀ {q : Request}, buildRequest method address contentType body { s with reqTimeout := 0 } = some q →
      parseUrl address = some q.url ∧ q.body = body := by
    intro q hq
    unfold buildRequest at hq
    split at hq
    · cases hq
    rename_i u hu
    split at hq
    · cases hq
    dsimp only at hq
    split at hq
    · cases hq
    split at hq
    · cases hq
    split at hq
    · cases hq
    · cases hq
      exact ⟨hu, rfl⟩
  intro q hq
  unfold doRequest at hq
  dsimp only at hq
  split at hq
  · cases hq
  rename_i q' hq'
  split at hq
  · cases hq
  split at hq
  · cases hq
  · obtain ⟨hurl, hbody⟩ := hbuilt hq'
    rw [List.mem_singleton.mp hq]
    exact ⟨hurl, hbody⟩

theorem tryOnce_spec (prov : ProviderRef) (json : Str) (net : Net) : (tryOnce prov json net .fresh).2.2 = .fresh ∧
    (tryOnce prov json net .fresh).2.1.length ≤ 1 ∧ ∀ q ∈ (tryOnce prov json net .fresh).2.1, Own prov json q := by
  have hpos := timeoutOf_pos prov
  obtain ⟨hsettings, hone, hset⟩ := doRequest_spec (lit "POST") (some (url prov)) (some (lit "application/json")) json net
    (httpSetTimeout (timeoutOf prov) (auth prov .fresh))
  refine ⟨hsettings, hone, fun q hq => ?_⟩
  obtain ⟨hheaders, htimeout⟩ := hset q hq
  obtain ⟨hurl, hbody⟩ := doRequest_target _ _ _ _ _ _ q hq
  refine ⟨hheaders.trans (auth_fresh prov), htimeout.trans ?_, hurl, hbody⟩
  unfold httpSetTimeout
  exact if_pos hpos

/-- What is made of a try has the status of its response. -/
theorem answered_status (prov : ProviderRef) (json : Str) (net : Net) (s : Settings) :
    (answered net (tryOnce prov json net s)).status = (tryOnce prov json net s).1.status := by
  unfold answered
  dsimp only
  split
  · rfl
  rename_i hsent
  have hresponse : (tryOnce prov json net s).1 = readExchange net.exchange := by
    unfold tryOnce httpPostJson doRequest at hsent ⊢
    dsimp only at hsent ⊢
    split at hsent
    · exact absurd rfl hsent
    split at hsent
    · exact absurd rfl hsent
    split at hsent
    · exact absurd rfl hsent
    · split
      · contradiction
      · rfl
  rw [hresponse]
  cases hexchange : net.exchange with
  | notSent timedOut tlsError => rfl
  | noMemory => rfl
  | answer buf timedOut tlsError =>
    dsimp only
    have hparsed := parseAnswer_response buf timedOut tlsError
    cases hanswer : parseAnswer buf timedOut tlsError with
    | none =>
      rw [hanswer] at hparsed
      cases hparsed
    | some a =>
      rw [hanswer, Option.map_some] at hparsed
      exact congrArg Http.Response.status (Option.some.inj hparsed)

/-! ## Calls -/

/-- A call that keeps to the rules, from a try with `left` tries behind it. -/
structure Fair (J : CJson) (prov : ProviderRef) (json : Str) (left : Nat) (p : Posted) : Prop where
  few : p.tries.length ≤ left + 1
  last : p.tries.getLast? = some p.answer
  again : ∀ a ∈ p.tries.dropLast, retryable a.status = true
  stop : p.answer.status = 200 ∨ retryable p.answer.status = false ∨ p.tries.length = left + 1
  waits : p.waits = p.tries.dropLast.mapIdx fun i a => waitFor (2 - left + i) a
  short : ∀ w ∈ p.waits, 0 < w ∧ w ≤ 60
  sent : p.requests.length ≤ p.tries.length ∧ ∀ q ∈ p.requests, Own prov json q
  err : p.answer.status ≠ 200 → p.err = describeFailure J p.answer
  settings : p.settings = .fresh

theorem waitFor_range (attempt : Nat) (a : Answer) : 0 < waitFor attempt a ∧ waitFor attempt a ≤ 60 := by
  have hpow : (0 : Int) < 2 ^ (attempt * 2) := by positivity
  unfold waitFor
  dsimp only
  split <;> split <;> omega

/-- The last try of a call. -/
theorem fair_last (J : CJson) (prov : ProviderRef) (json : Str) (net : Net) (left : Nat) (err : Str) {a : Answer}
    (hstop : a.status = 200 ∨ retryable a.status = false ∨ left = 0) (herr : a.status ≠ 200 → err = describeFailure J a) :
    Fair J prov json left ⟨a, err, [a], (tryOnce prov json net .fresh).2.1, [], (tryOnce prov json net .fresh).2.2⟩ := by
  obtain ⟨hsettings, hone, hown⟩ := tryOnce_spec prov json net
  refine ⟨Nat.succ_le_succ (Nat.zero_le _), rfl, fun a ha => (by cases ha), ?_, rfl, fun w hw => (by cases hw), ⟨hone, hown⟩,
    herr, hsettings⟩
  rcases hstop with hok | hno | hzero
  · exact .inl hok
  · exact .inr (.inl hno)
  · exact .inr (.inr (by rw [hzero]; rfl))

/-- A try that is made again. -/
theorem fair_again {J : CJson} {prov : ProviderRef} {json : Str} {left : Nat} {rest : Posted} (hleft : left ≤ 1)
    (h : Fair J prov json left rest) (net : Net) {a : Answer} (hretry : retryable a.status = true) :
    Fair J prov json (left + 1) { rest with
      tries := a :: rest.tries
      requests := (tryOnce prov json net .fresh).2.1 ++ rest.requests
      waits := waitFor (1 - left) a :: rest.waits } := by
  obtain ⟨-, hone, hown⟩ := tryOnce_spec prov json net
  obtain ⟨b, bs, htries⟩ : ∃ b bs, rest.tries = b :: bs := by
    cases htries : rest.tries with
    | nil =>
      have hlast := h.last
      rw [htries] at hlast
      cases hlast
    | cons b bs => exact ⟨b, bs, rfl⟩
  have hdrop : (a :: rest.tries).dropLast = a :: rest.tries.dropLast := by
    rw [htries]
    rfl
  refine ⟨?_, ?_, ?_, ?_, ?_, ?_, ⟨?_, ?_⟩, h.err, h.settings⟩
  · exact Nat.succ_le_succ h.few
  · have hlast := h.last
    rw [htries] at hlast ⊢
    exact List.getLast?_cons_cons.trans hlast
  · intro x hx
    rcases List.mem_cons.mp (hdrop ▸ hx) with rfl | hx
    · exact hretry
    · exact h.again x hx
  · rcases h.stop with hok | hno | hlen
    · exact .inl hok
    · exact .inr (.inl hno)
    · exact .inr (.inr (congrArg (· + 1) hlen))
  · have hshift : ∀ i, 2 - (left + 1) + (i + 1) = 2 - left + i := fun i => by omega
    have hfirst : 1 - left = 2 - (left + 1) + 0 := by omega
    dsimp only
    rw [hdrop, List.mapIdx_cons, h.waits, hfirst]
    simp only [hshift]
  · intro w hw
    rcases List.mem_cons.mp hw with rfl | hw
    · exact waitFor_range _ _
    · exact h.short w hw
  · have hsent := h.sent.1
    dsimp only
    rw [List.length_append, List.length_cons]
    omega
  · intro q hq
    rcases List.mem_append.mp hq with hq | hq
    · exact hown q hq
    · exact h.sent.2 q hq

theorem postRetry_fair (J : CJson) (prov : ProviderRef) (json : Str) (nets : Nat → Net) {left : Nat} (hleft : left ≤ 2) (err : Str) :
    Fair J prov json left (postRetry J prov json nets left err .fresh) := by
  induction left generalizing err with
  | zero =>
    unfold postRetry
    exact fair_last J prov json _ 0 _ (.inr (.inr rfl)) fun hne => if_neg hne
  | succ left ih =>
    unfold postRetry
    dsimp only
    by_cases hok : (answered (nets (1 - left)) (tryOnce prov json (nets (1 - left)) .fresh)).status = 200
    · rw [if_pos hok]
      exact fair_last J prov json _ _ _ (.inl hok) fun hne => absurd hok hne
    rw [if_neg hok]
    by_cases hno : retryable (answered (nets (1 - left)) (tryOnce prov json (nets (1 - left)) .fresh)).status = false
    · rw [if_pos hno]
      exact fair_last J prov json _ _ _ (.inr (.inl hno)) fun _ => rfl
    rw [if_neg hno]
    have hrest := ih (by omega) (describeFailure J (answered (nets (1 - left)) (tryOnce prov json (nets (1 - left)) .fresh)))
    have hfresh := (tryOnce_spec prov json (nets (1 - left))).1
    rw [hfresh]
    exact fair_again (by omega) hrest _ (Bool.not_eq_false _ ▸ hno)

/-- Every sequence of calls of a thread. -/
theorem calls_fair (J : CJson) (calls : List LlmCall) : (llmCalls J calls .fresh).2 = .fresh ∧
    List.Forall₂ (fun c p => Fair J c.prov c.json 2 p) calls (llmCalls J calls .fresh).1 := by
  induction calls with
  | nil => exact ⟨rfl, .nil⟩
  | cons c calls ih =>
    have hfair := postRetry_fair J c.prov c.json c.nets le_rfl []
    unfold llmCalls
    dsimp only
    rw [show (c.post J .fresh).settings = .fresh from hfair.settings]
    exact ⟨ih.1, .cons hfair ih.2⟩

/-- A server that asks for five seconds, then answers. -/
def busyOnce (attempt : Nat) : Net where
  connects := true
  tlsStarts := true
  exchange := .answer (if attempt = 0 then lit "HTTP/1.1 429 Busy\r\nRetry-After: 5\r\nContent-Length: 0\r\n\r\n"
    else lit "HTTP/1.1 200 OK\r\nContent-Length: 2\r\n\r\nok") false false

def localModel : ProviderRef where
  providerName := lit "local"
  providerType := lit "openai"
  apiKey := lit "k"
  baseUrl := lit "http://h"
  model := lit "m"
  maxTokens := 0
  timeout := 30
  cacheKey := []
  reasoningEffort := []
  key_fits := by decide
  base_fits := by decide

/-- Two tries, both with the key, and five seconds between them. -/
theorem calls_fair_busy : ∃ p, (llmCalls CJson.compact [⟨localModel, lit "body", busyOnce⟩] .fresh).1 = [p] ∧
    p.answer.status = 200 ∧ p.waits = [5] ∧ p.requests.length = 2 ∧
    ∀ q ∈ p.requests, q.extraHdrs = [(lit "Authorization", lit "Bearer k")] ∧ q.timeout = 30 ∧ q.body = lit "body" := by
  have hcalls : (llmCalls CJson.compact [⟨localModel, lit "body", busyOnce⟩] .fresh).1 =
      [(⟨localModel, lit "body", busyOnce⟩ : LlmCall).post CJson.compact .fresh] := rfl
  obtain ⟨-, hfair⟩ := calls_fair CJson.compact [⟨localModel, lit "body", busyOnce⟩]
  rw [hcalls] at hfair
  have h := (List.forall₂_cons.mp hfair).1
  refine ⟨_, hcalls, by decide +kernel, by decide +kernel, by decide +kernel, fun q hq => ?_⟩
  have hown := h.sent.2 q hq
  exact ⟨hown.headers.trans (by decide), hown.timeout.trans (by decide), hown.body⟩

/-! ## Addresses -/

theorem unslashed_slashes {b : Str} (hb : b.getLast? ≠ some (ch '/')) (n : Nat) :
    unslashed (b ++ List.replicate n (ch '/')) = b := by
  unfold unslashed
  rw [List.reverse_append, List.reverse_replicate, List.dropWhile_append_of_pos (by simp)]
  cases hrev : b.reverse with
  | nil => rw [← List.reverse_reverse b, hrev]; rfl
  | cons c t =>
    have hc : c ≠ ch '/' := by
      rintro rfl
      refine hb ?_
      rw [← List.head?_reverse, hrev]
      rfl
    rw [List.dropWhile_cons_of_neg (by simpa using hc), ← hrev, List.reverse_reverse]

/-- An address means the same with slashes behind it, with a `/v1`, and with both. -/
theorem apiUrl_spelled {p p' : ProviderRef} {b : Str} (hb : b ≠ []) (hslash : b.getLast? ≠ some (ch '/'))
    (hv1 : ¬ lit "/v1" <:+ b) {n m : Nat} (hp : p.baseUrl = b ++ List.replicate n (ch '/'))
    (hp' : p'.baseUrl = b ++ lit "/v1" ++ List.replicate m (ch '/')) (defBase rest : Str) :
    apiUrl p defBase (lit "/v1/" ++ rest) = cut 512 (b ++ (lit "/v1/" ++ rest)) ∧
      apiUrl p' defBase (lit "/v1/" ++ rest) = cut 512 (b ++ (lit "/v1/" ++ rest)) := by
  have hlit : lit "/v1" = [47, 118, 49] := by decide
  have hlit' : lit "/v1/" = [47, 118, 49, 47] := by decide
  constructor
  · have hne : p.baseUrl ≠ [] := by
      rw [hp]
      exact List.append_ne_nil_of_left_ne_nil hb _
    unfold apiUrl
    dsimp only
    rw [if_pos hne, hp, unslashed_slashes hslash, if_neg]
    rintro ⟨-, hdrop, -⟩
    exact hv1 (hdrop ▸ List.drop_suffix _ _)
  · have hne : p'.baseUrl ≠ [] := by
      rw [hp', List.append_assoc]
      exact List.append_ne_nil_of_left_ne_nil hb _
    have hlast : (b ++ lit "/v1").getLast? ≠ some (ch '/') := by
      rw [hlit, List.getLast?_append_of_ne_nil _ (List.cons_ne_nil _ _)]
      decide
    have hdrop : (b ++ lit "/v1").drop ((b ++ lit "/v1").length - 3) = lit "/v1" := by
      rw [hlit, List.length_append]
      show (b ++ _).drop (b.length + 3 - 3) = _
      rw [Nat.add_sub_cancel, List.drop_left]
    have hstart : startsWith (lit "/v1/" ++ rest) (lit "/v1/") = true := by
      unfold startsWith
      exact List.isPrefixOf_iff_prefix.mpr (List.prefix_append _ _)
    have hlen : 3 ≤ (b ++ lit "/v1").length := by
      rw [hlit, List.length_append]
      exact Nat.le_add_left 3 _
    unfold apiUrl
    dsimp only
    rw [if_pos hne, hp', unslashed_slashes hlast, if_pos ⟨hlen, hdrop, hstart⟩, hlit, hlit', List.append_assoc]
    rfl

end Call

end Shclaw.Provider
