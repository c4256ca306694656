/-
  Shclaw.Http.Request — one HTTP call (`src/http.c`): `parse_url`, `encode_path`,
  `find_header`, `do_request`, `resolve_location`, `http_get`, `http_post`,
  `http_post_json`, with the per-thread settings (`http_set_header`,
  `http_set_timeout`) they consume.

  The settings are threaded through every function as the code leaves them. What the
  network does with a request is an argument (`Net`), one for each hop of a redirect;
  the requests that went out on a connection are returned beside the response.

  Of a response only the status and the location are kept: no caller modelled here
  reads the body or `Retry-After`. `atoi` and `%d` out of the range of an `int` are
  undefined in C; here they are what glibc gives, a `long` as an `int`.
-/

import Shclaw.Lib.Uri
import Shclaw.Tools

namespace Shclaw.Http

open Lib

/-! ## Settings -/

/-- `MAX_EXTRA_HDRS`. -/
def maxExtraHdrs : Nat := 4

/-- `extra_hdrs` and `req_timeout`. -/
structure Settings where
  extraHdrs : List (Str × Str)
  reqTimeout : Int
  deriving DecidableEq

/-- No extra header, the default timeout. -/
def Settings.fresh : Settings := ⟨[], 0⟩

/-- What `http_set_header` stores. -/
def stored (name : Str) (value : Option Str) : Str × Str := (cut 128 name, cut 512 (value.getD []))

def httpSetHeader (name value : Option Str) (s : Settings) : Settings :=
  match name with
  | none => { s with extraHdrs := [] }
  | some n =>
    if n = [] then { s with extraHdrs := [] }
    else if maxExtraHdrs ≤ s.extraHdrs.length then s
    else { s with extraHdrs := s.extraHdrs ++ [stored n value] }

def httpSetTimeout (seconds : Int) (s : Settings) : Settings := { s with reqTimeout := if 0 < seconds then seconds else 0 }

/-! ## URLs -/

/-- CR, LF and the other control bytes. -/
def hasCtl (s : Str) : Bool := s.any fun c => c < 0x20 || c = 0x7f

structure Url where
  host : Str
  port : Int
  path : Str
  isHttps : Bool

/-- The host of an authority and what follows it: `host[:port]` or `[IPv6][:port]`. -/
def splitAuthority (auth : Str) : Option (Str × Option Str) :=
  if byte auth 0 = ch '[' then
    match strchr auth (ch ']') with
    | none => none
    | some rb =>
      let host := (auth.drop 1).take (auth.length - rb.length - 1)
      if rb.length ≤ 1 then some (host, none)
      else if byte rb 1 = ch ':' then some (host, some (rb.drop 2)) else none
  else
    match strchr auth (ch ':') with
    | none => some (auth, none)
    | some colon => some (auth.take (auth.length - colon.length), some (colon.drop 1))

def parseUrl (url : Option Str) : Option Url :=
  match url with
  | none => none
  | some url =>
    if hasCtl url then none
    else
      let isHttps := startsWith url (lit "https://")
      let url := if isHttps then url.drop 8 else if startsWith url (lit "http://") then url.drop 7 else url
      let auth := before (lit "/?#") url
      let rest := url.drop auth.length
      match splitAuthority auth with
      | none => none
      | some (host, portText) =>
        -- `atoi` reads on to the end of the string, past the authority
        let port := match portText with
          | some p => atoi (p ++ rest)
          | none => if isHttps then 443 else 80
        let path := (if byte rest 0 = ch '/' then [] else lit "/") ++ before (lit "#") rest
        if host = [] ∨ 256 ≤ host.length then none
        else if 2048 ≤ path.length then none
        else if 0 < port ∧ port < 65536 then some ⟨host, port, path, isHttps⟩ else none

/-- `"0123456789ABCDEF"[n]`. -/
def hexUpper (n : Nat) : UInt8 := if n < 10 then digit n else UInt8.ofNat (55 + n)

/-- Whether a byte cannot appear in a request line: blanks, controls, non-ASCII and
    the nine marks of `encode_path`. -/
def mustEncode (c : UInt8) : Bool :=
  c ≤ 0x20 || 0x7f ≤ c || ([34, 60, 62, 92, 94, 96, 123, 124, 125] : Str).contains c

/-- The loop of `encode_path`, with `o` bytes written so far. -/
def encodeFrom (sz o : Nat) : Str → Option Str
  | [] => some []
  | c :: cs =>
    if sz < o + 4 then none
    else
      let e := if mustEncode c then [ch '%', hexUpper (c.toNat / 16), hexUpper (c.toNat % 16)] else [c]
      (encodeFrom sz (o + e.length) cs).map (e ++ ·)

def encodePath (path : Str) : Option Str := encodeFrom 3072 0 path

/-! ## Requests -/

/-- What goes out on a connection, and how long each read of the answer may wait. -/
structure Request where
  method : Str
  url : Url
  path : Str
  contentType : Option Str
  body : Str
  extraHdrs : List (Str × Str)
  timeout : Int

def headerLine (h : Str × Str) : Str := h.1 ++ lit ": " ++ h.2 ++ lit "\r\n"

/-- The request line and the headers. -/
def Request.head (q : Request) : Str :=
  let v6 := (strchr q.url.host (ch ':')).isSome
  q.method ++ lit " " ++ q.path ++ lit " HTTP/1.1\r\nHost: " ++
    (if v6 then lit "[" else []) ++ q.url.host ++ (if v6 then lit "]" else []) ++
    (if q.url.port = (if q.url.isHttps then 443 else 80) then [] else lit ":" ++ decimal q.url.port.toNat) ++
    lit "\r\nConnection: close\r\n" ++
    ((q.contentType.map fun t => lit "Content-Type: " ++ t ++ lit "\r\n").getD []) ++
    (if 0 < q.body.length then lit "Content-Length: " ++ decimal q.body.length ++ lit "\r\n" else []) ++
    q.extraHdrs.flatMap headerLine ++ lit "\r\n"

/-- The request, when it can be built: no control byte, and it fits `TC_BUF_LG`. -/
def buildRequest (method : Str) (url : Option Str) (contentType : Option Str) (body : Str) (s : Settings) :
    Option Request :=
  match parseUrl url with
  | none => none
  | some u =>
    match encodePath u.path with
    | none => none
    | some path =>
      let q : Request := ⟨method, u, path, contentType, body, s.extraHdrs, s.reqTimeout⟩
      if contentType.any hasCtl then none
      else if s.extraHdrs.any fun h => hasCtl h.1 || hasCtl h.2 then none
      else if 4095 ≤ q.head.length then none else some q

/-! ## Responses -/

def errConnect : Int := -1

def errTls : Int := -2

def errProto : Int := -3

def errRequest : Int := -4

def errNomem : Int := -5

def errTimeout : Int := -6

structure Response where
  status : Int
  location : Str
  deriving DecidableEq

/-- How an exchange ends, once the connection stands. -/
inductive Exchange where
  | notSent (timedOut tlsError : Bool)
  | noMemory
  | answer (buf : Str) (timedOut tlsError : Bool)

/-- What the network does with a request. -/
structure Net where
  connects : Bool
  /-- There is a trust anchor. -/
  tlsStarts : Bool
  exchange : Exchange

def lowerEq (s p : Str) : Bool := strcaseeq (s.take p.length) p

/-- `find_header`: the value in the lines that start before the last `after` bytes. -/
def findHeader (name : Str) (after : Nat) : Str → Option Str
  | [] => none
  | c :: cs =>
    if (c :: cs).length ≤ after then none
    else
      let line := cs.drop 1
      if startsWith (c :: cs) (lit "\r\n") && lowerEq line name && byte line name.length = ch ':' then
        some ((line.drop (name.length + 1)).dropWhile fun b => b = ch ' ' || b = ch '\t')
      else findHeader name after cs

/-- `sscanf(buf, "HTTP/%*s %d", &status)`. -/
def statusOf (buf : Str) : Option Int :=
  if startsWith buf (lit "HTTP/") then
    let version := (buf.drop 5).dropWhile isSpace
    if version = [] then none else (strtol (version.dropWhile (!isSpace ·))).map (longAsInt ·.1)
  else none

/-- The response in a buffer, read as a string: up to its first NUL. -/
def readResponse (buf : Str) (timedOut tlsError : Bool) : Response :=
  let text := buf.takeWhile (· ≠ 0)
  match strstr text (lit "\r\n\r\n"), statusOf text with
  | some headerEnd, some status =>
    ⟨status, cut 1024 (((findHeader (lit "Location") headerEnd.length text).map (before (lit "\r\n"))).getD [])⟩
  | _, _ =>
    ⟨if timedOut then errTimeout else if buf = [] && tlsError then errTls else errProto, []⟩

def readExchange : Exchange → Response
  | .notSent timedOut tlsError => ⟨if timedOut then errTimeout else if tlsError then errTls else errConnect, []⟩
  | .noMemory => ⟨errNomem, []⟩
  | .answer buf timedOut tlsError => readResponse buf timedOut tlsError

/-! ## Calls -/

/-- `do_request`: the response, the request that went out, and the settings left. -/
def doRequest (method : Str) (url contentType : Option Str) (body : Str) (net : Net) (s : Settings) :
    Response × List Request × Settings :=
  let timeout := s.reqTimeout
  let s : Settings := { s with reqTimeout := 0 }
  let built := buildRequest method url contentType body s
  let s : Settings := { s with extraHdrs := [] }
  match built with
  | none => (⟨errRequest, []⟩, [], s)
  | some q =>
    if !net.connects then (⟨errConnect, []⟩, [], s)
    else
      -- for the I/O callbacks, until the connection is closed
      let s : Settings := { s with reqTimeout := timeout }
      if q.url.isHttps && !net.tlsStarts then (⟨errTls, []⟩, [], { s with reqTimeout := 0 })
      else (readExchange net.exchange, [{ q with timeout := s.reqTimeout }], { s with reqTimeout := 0 })

/-- `resolve_location`, into a buffer of 2048 bytes. -/
def resolveLocation (cur loc : Str) : Option Str :=
  let schemeEnd := (strstr cur (lit "://")).map fun e => cur.length - e.length
  let originEnd := match schemeEnd with
    | some n => n + 3 + (before (lit "/?#") (cur.drop (n + 3))).length
    | none => cur.length
  let out :=
    if (strstr loc (lit "://")).isSome then loc
    else if byte loc 0 = ch '/' ∧ byte loc 1 = ch '/' then cur.take ((schemeEnd.map (· + 1)).getD 0) ++ loc
    else if byte loc 0 = ch '/' then cur.take originEnd ++ loc
    else
      -- relative to the current directory: what ends with the last slash of the path
      let path := before (lit "?#") (cur.drop originEnd)
      let dir := (path.reverse.dropWhile (· ≠ ch '/')).reverse
      if dir ≠ [] then cur.take originEnd ++ dir ++ loc else cur.take originEnd ++ lit "/" ++ loc
  if out ≠ [] ∧ out.length < 2048 then some out else none

def isRedirect (status : Int) : Bool :=
  status = 301 || status = 302 || status = 303 || status = 307 || status = 308

/-- The hops of `http_get` that are left. -/
def followRedirects (nets : Nat → Net) : Nat → Str → Response × List Request × Settings → Response × List Request × Settings
  | 0, _, r => r
  | n + 1, cur, (r, sent, s) =>
    if r.location ≠ [] ∧ isRedirect r.status then
      match resolveLocation cur r.location with
      | none => (r, sent, s)
      | some next =>
        let r' := doRequest (lit "GET") (some next) none [] (nets (3 - n)) s
        followRedirects nets n next (r'.1, sent ++ r'.2.1, r'.2.2)
    else (r, sent, s)

/-- `nets i` is what the network does with the `i`-th request. -/
def httpGet (url : Str) (nets : Nat → Net) (s : Settings) : Response × List Request × Settings :=
  if 2048 ≤ url.length then (⟨errRequest, []⟩, [], s)
  else followRedirects nets 3 url (doRequest (lit "GET") (some url) none [] (nets 0) s)

def httpPost (url contentType : Option Str) (body : Str) (net : Net) (s : Settings) : Response × List Request × Settings :=
  doRequest (lit "POST") url contentType body net s

def httpPostJson (url : Option Str) (json : Option Str) (net : Net) (s : Settings) : Response × List Request × Settings :=
  doRequest (lit "POST") url (some (lit "application/json")) (json.getD []) net s

end Shclaw.Http
