/-
# Streamable HTTP

`mcp_exchange`, `mcp_request` and `mcp_client_open_session` of
`src/mcp-client.cpp`, three functions that call each other: an exchange whose
session the server forgot opens a new one, which is two exchanges more.

The server is any: its replies are numbered in the order of the posts.  The
functions take a bound on the depth of their calls and answer `none` when it is
too small, so that they terminate when some bound gives an answer.  The world
they run in keeps a log of what they post and of the sessions they open anew,
each tagged with the ids of the requests under way, the outermost first.
-/

import S2S.Mcp.Message

namespace S2S
namespace Mcp

open Json Http

/-! ### The client -/

/-- `mcp_server_params`. -/
structure ServerParams where
  url : Bytes
  apiKey : Bytes := []
  timeoutSec : ℤ := 10
  deriving DecidableEq

/-- `mcp_client`: the ids of its requests are above zero, the one of a
notification. -/
structure Client where
  params : ServerParams
  path : Bytes := []
  session : Bytes := []
  version : Bytes := []
  serverName : Bytes := []
  nextId : ℤ := 1
  isOpen : Bool := false
  nextId_pos : 0 < nextId := by decide

/-- The headers of a post. -/
def Client.headers (c : Client) : List (Bytes × Bytes) :=
  [(ascii "Accept", ascii "application/json, text/event-stream")]
  ++ (if c.params.apiKey ≠ [] then
    [(ascii "Authorization", ascii "Bearer " ++ c.params.apiKey)] else [])
  ++ (if c.session ≠ [] then [(ascii "Mcp-Session-Id", c.session)] else [])
  ++ (if c.version ≠ [] then [(ascii "MCP-Protocol-Version", c.version)] else [])

/-- The path a post goes to. -/
def Client.target (c : Client) : Bytes := if c.path = [] then ascii "/" else cstr c.path

/-- What a run leaves behind: a post, or the opening of a new session. -/
inductive Item
  | post (tag : List ℤ) (target : Bytes) (headers : List (Bytes × Bytes)) (request : Bytes)
  | reopen (tag : List ℤ)

/-- A client, how many times it posted, and its log. -/
structure World where
  client : Client
  posted : ℕ := 0
  log : List Item := []

/-- A client about to run. -/
def World.start (c : Client) : World := { client := c }

/-- The session after a reply: what the reply names, when it was looked at. -/
def sessionAfter (session : Bytes) (reply : Reply) : Bytes :=
  match reply.cancelled, reply.result with
  | false, .ok r => r.sessionId.getD session
  | _, _ => session

/-- Whether a reply says that the session is gone: a 404 while there is one. -/
def forgets (session : Bytes) (reply : Reply) : Bool :=
  match reply.cancelled, reply.result with
  | false, .ok r => decide (r.status = 404) && decide (sessionAfter session reply ≠ [])
  | _, _ => false

/-- One post. -/
def World.post (w : World) (tag : List ℤ) (request : Bytes) : World :=
  { w with
    posted := w.posted + 1
    log := w.log ++ [.post tag w.client.target w.client.headers request] }

/-- The session id of a reply is kept. -/
def World.hear (w : World) (reply : Reply) : World :=
  { w with client := { w.client with session := sessionAfter w.client.session reply } }

/-- The session is dropped for a new one. -/
def World.reopen (w : World) (tag : List ℤ) : World :=
  { w with
    client := { w.client with session := [], isOpen := false }
    log := w.log ++ [.reopen tag] }

/-- The id of the next request is taken. -/
def World.takeId (w : World) : World :=
  { w with client := { w.client with
      nextId := w.client.nextId + 1
      nextId_pos := by have := w.client.nextId_pos; omega } }

/-- What the handshake learns is kept. -/
def World.agree (w : World) (serverName version : Bytes) : World :=
  { w with client := { w.client with serverName := serverName, version := version } }

/-- The handshake is over. -/
def World.opened (w : World) : World := { w with client := { w.client with isOpen := true } }

section Fields

variable (w : World) (tag : List ℤ) (request : Bytes) (reply : Reply) (name version : Bytes)

@[simp] theorem World.posted_post : (w.post tag request).posted = w.posted + 1 := rfl

@[simp] theorem World.posted_hear : (w.hear reply).posted = w.posted := rfl

@[simp] theorem World.posted_reopen : (w.reopen tag).posted = w.posted := rfl

@[simp] theorem World.posted_takeId : w.takeId.posted = w.posted := rfl

@[simp] theorem World.posted_agree : (w.agree name version).posted = w.posted := rfl

@[simp] theorem World.posted_opened : w.opened.posted = w.posted := rfl

@[simp] theorem World.session_post : (w.post tag request).client.session = w.client.session := rfl

@[simp] theorem World.session_hear :
    (w.hear reply).client.session = sessionAfter w.client.session reply := rfl

@[simp] theorem World.session_reopen : (w.reopen tag).client.session = [] := rfl

@[simp] theorem World.session_takeId : w.takeId.client.session = w.client.session := rfl

@[simp] theorem World.session_agree :
    (w.agree name version).client.session = w.client.session := rfl

@[simp] theorem World.session_opened : w.opened.client.session = w.client.session := rfl

@[simp] theorem World.nextId_post : (w.post tag request).client.nextId = w.client.nextId := rfl

@[simp] theorem World.nextId_hear : (w.hear reply).client.nextId = w.client.nextId := rfl

@[simp] theorem World.nextId_reopen : (w.reopen tag).client.nextId = w.client.nextId := rfl

@[simp] theorem World.nextId_takeId : w.takeId.client.nextId = w.client.nextId + 1 := rfl

@[simp] theorem World.nextId_agree : (w.agree name version).client.nextId = w.client.nextId := rfl

@[simp] theorem World.nextId_opened : w.opened.client.nextId = w.client.nextId := rfl

@[simp] theorem World.log_hear : (w.hear reply).log = w.log := rfl

@[simp] theorem World.log_takeId : w.takeId.log = w.log := rfl

@[simp] theorem World.log_agree : (w.agree name version).log = w.log := rfl

@[simp] theorem World.log_opened : w.opened.log = w.log := rfl

end Fields

/-! ### Replies -/

def mcpReason (body : Bytes) : Bytes := errorReason 200 body

/-- Whether a content type names an event stream. -/
def isEventStream (contentType : Bytes) : Bool :=
  decide ((ascii "text/event-stream").IsInfix contentType)

section Reading

-- How the writer spells a number it read.
variable (spell : Bytes → Decimal)

/-- What an exchange makes of a reply it does not retry on: the response to
request `id`, nothing for a notification. -/
def readReply (id : ℤ) (reply : Reply) : Except Bytes Bytes :=
  if reply.cancelled then .error (setError [ascii "[MCP] Cancelled"])
  else
    match reply.result with
    | .error e => .error (setError [ascii "[MCP] ", e])
    | .ok r =>
      if !r.ok then
        .error (setError [ascii "[MCP] HTTP ", intText r.status, ascii ", ", mcpReason r.body])
      else if id ≤ 0 ∨ r.status = 202 then .ok []
      else
        match (if isEventStream r.contentType then mcpSseResponse r.body id
          else mcpJsonResponse spell r.body id) with
        | some message => .ok message
        | none => .error (setError
            [ascii "[MCP] The server answered without the response to request ", intText id])

/-- What a request makes of its response: the result, or the error it carries. -/
def readResult (message : Bytes) : Except Bytes Value :=
  match parse message with
  | none => .error (setError [ascii "[MCP] The response is not JSON"])
  | some root =>
    match root.get (ascii "error") with
    | some error =>
      let code := ((error.get (ascii "code")).bind intOf).getD 0
      .error (setError [ascii "[MCP] ", textOf (error.get (ascii "message")), ascii " (",
        intText code, ascii ")"])
    | none =>
      match root.get (ascii "result") with
      | some result => .ok result
      | none => .error (setError [ascii "[MCP] The response has no result"])

/-- `MCP_SUPPORTED_VERSIONS`. -/
def supportedVersions : List Bytes :=
  [ascii "2025-11-25", ascii "2025-06-18", ascii "2025-03-26", ascii "2024-11-05",
    ascii "2024-10-07"]

/-- The protocol version of the result of `initialize`. -/
def readVersion (result : Value) : Except Bytes Bytes :=
  let version := textOf (result.get (ascii "protocolVersion"))
  if version ∈ supportedVersions then .ok version
  else .error (setError [ascii "[MCP] The server speaks protocol version ", version,
    ascii ", which this client does not"])

/-- The name the server gives itself. -/
def readServerName (result : Value) : Bytes :=
  textOf ((result.get (ascii "serverInfo")).bind fun info => info.get (ascii "name"))

/-! ### Exchanges -/

-- The version of the program, and the replies of the server in order.
variable (programVersion : Bytes) (server : ℕ → Reply)

/-- The first message of the handshake. -/
def initializeMessage (id : ℤ) : Message :=
  (((mcpMessageBegin (ascii "initialize") id).add (ascii "protocolVersion")
    (.str (ascii "2025-11-25"))).add (ascii "capabilities") (.obj [])).add (ascii "clientInfo")
    (.obj [(ascii "name", .str (ascii "s2s.cpp")), (ascii "version", .str (cstr programVersion))])

@[simp] theorem initializeMessage_id (id : ℤ) : (initializeMessage programVersion id).id = id := rfl

/-- The second one, a notification. -/
def initializedMessage : Message := mcpMessageBegin (ascii "notifications/initialized") 0

mutual

/-- `mcp_exchange`: posts one message and reads what answers it.  On a 404 for
a session the server no longer knows, and when `retry` allows it, opens the
session again and sends the message again. -/
def mcpExchange : ℕ → List ℤ → Bytes → ℤ → Bool → World → Option (Except Bytes Bytes × World)
  | 0, _, _, _, _, _ => none
  | fuel + 1, within, request, id, retry, w =>
    let reply := server w.posted
    let heard := (w.post (within ++ [id]) request).hear reply
    if forgets w.client.session reply && retry then
      match mcpClientOpenSession fuel (within ++ [id]) (heard.reopen (within ++ [id])) with
      | none => none
      | some (.error e, w) => some (.error e, w)
      | some (.ok _, w) => mcpExchange fuel within request id false w
    else some (readReply spell id reply, heard)

/-- `mcp_request`. -/
def mcpRequest : ℕ → List ℤ → Message → World → Option (Except Bytes Value × World)
  | 0, _, _, _ => none
  | fuel + 1, within, request, w =>
    match mcpExchange fuel within (mcpMessageEnd request) request.id true w with
    | none => none
    | some (.error e, w) => some (.error e, w)
    | some (.ok message, w) => some (readResult message, w)

/-- `mcp_client_open_session`: initialize, then the notification that the
client is ready. -/
def mcpClientOpenSession : ℕ → List ℤ → World → Option (Except Bytes Unit × World)
  | 0, _, _ => none
  | fuel + 1, within, w =>
    match mcpRequest fuel within (initializeMessage programVersion w.client.nextId) w.takeId with
    | none => none
    | some (.error e, w) => some (.error e, w)
    | some (.ok result, w) =>
      match readVersion result with
      | .error e => some (.error e, w.agree (readServerName result) w.client.version)
      | .ok version =>
        match mcpExchange fuel within (mcpMessageEnd initializedMessage) 0 true
          (w.agree (readServerName result) version) with
        | none => none
        | some (.error e, w) => some (.error e, w)
        | some (.ok _, w) => some (.ok (), w.opened)

end

end Reading

end Mcp
end S2S
