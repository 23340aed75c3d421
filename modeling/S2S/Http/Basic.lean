/-
# What a request gets back

What the clients of `src/llm-client.cpp` and `src/mcp-client.cpp` see of an
HTTP exchange (`src/http-client.h`) and what they record of one that failed
(`src/s2s-error.h`).  The other end is free: any status, any header, any body,
or no response at all.
-/

import Mathlib.Data.List.DropRight
import S2S.Json.Write

namespace S2S
namespace Http

open Json

/-- What a server answers, the headers the clients look at. -/
structure Response where
  status : ℤ
  sessionId : Option Bytes
  contentType : Bytes
  body : Bytes

/-- How a request ends: with a response or the reason there is none, and
whether the cancel flag is up once it returned. -/
structure Reply where
  result : Except Bytes Response
  cancelled : Bool

/-- `s2s_set_error`: the texts of the message, each as the C string it is
printed from, cut to the buffer. -/
def setError (parts : List Bytes) : Bytes := (parts.flatMap cstr).take 1023

/-- Statuses that are not an error. -/
def Response.ok (r : Response) : Bool := decide (200 ≤ r.status) && decide (r.status < 300)

/-- The reason a server gives with an error status: the message of the error
in a JSON body, or the first line of the body, cut to `max` bytes. -/
def errorReason (max : ℕ) (body : Bytes) : Bytes :=
  let reason :=
    match parse body with
    | none => []
    | some doc =>
      match doc.get (ascii "error") with
      | some (.obj members) => textOf ((Value.obj members).get (ascii "message"))
      | error => textOf error
  let reason := if reason = [] then body.takeWhile (· ≠ 0x0A) else reason
  reason.take max

/-- A reason is cut by bytes, whatever character they end in. -/
theorem length_errorReason_le (max : ℕ) (body : Bytes) : (errorReason max body).length ≤ max :=
  List.length_take_le _ _

/-! ### URLs -/

/-- What stands before and after the first `pat` in a text. -/
def findSub (pat : Bytes) : Bytes → Option (Bytes × Bytes)
  | [] => if pat = [] then some ([], []) else none
  | b :: s =>
    if pat.isPrefixOf (b :: s) then some ([], (b :: s).drop pat.length)
    else (findSub pat s).map (before [b])

/-- `http_split_url`: the scheme, host and port, and the prefix every request
hangs off, without the slashes it may end with. -/
def httpSplitUrl (url : Bytes) : Option (Bytes × Bytes) :=
  match findSub (ascii "://") url with
  | none => none
  | some (scheme, rest) =>
    some (scheme ++ ascii "://" ++ rest.takeWhile (· ≠ 0x2F),
      (rest.dropWhile (· ≠ 0x2F)).rdropWhile (· = 0x2F))

end Http
end S2S
