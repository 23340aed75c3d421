/-
# JSON-RPC messages

The messages of `src/mcp-client.cpp`: how one is written
(`mcp_message_begin`, `mcp_message_end`), how the response to a request is
found in what a server answers, one JSON message, a batch, or an event stream
(`mcp_answers`, `mcp_json_response`, `mcp_sse_response`), and what is read out
of it.
-/

import S2S.Http.Basic
import S2S.Llm.Body

namespace S2S
namespace Mcp

open Json Http

/-! ### Writing -/

/-- `McpMessage`: the envelope with its method, and the members of its params. -/
structure Message where
  method : Bytes
  id : ℤ
  params : List (Bytes × Draft)

/-- `mcp_message_begin`. -/
def mcpMessageBegin (method : Bytes) (id : ℤ) : Message := ⟨method, id, []⟩

/-- A member added to the params. -/
def Message.add (m : Message) (key : Bytes) (d : Draft) : Message :=
  { m with params := m.params ++ [(key, d)] }

/-- The document of a message: a request carries its id, a notification none. -/
def Message.draft (m : Message) : Draft :=
  .obj <| [(ascii "jsonrpc", .str (ascii "2.0"))] ++ given (0 < m.id) (ascii "id") (.int (.ofInt 64 m.id))
    ++ [(ascii "method", .str (cstr m.method)), (ascii "params", .obj m.params)]

/-- `mcp_message_end`. -/
def mcpMessageEnd (m : Message) : Bytes := m.draft.write.getD (ascii "\x7b\x7d")

/-! ### Finding the response -/

/-- `mcp_answers`: an object whose id is that number. -/
def mcpAnswers (message : Value) (id : ℤ) : Bool :=
  decide ((message.get (ascii "id")).bind intOf = some id)

section Reading

-- How the writer spells a number it read.
variable (spell : Bytes → Decimal)

/-- `mcp_json_response`: the body itself, or the member of a batch. -/
def mcpJsonResponse (body : Bytes) (id : ℤ) : Option Bytes :=
  match parse body with
  | none => none
  | some root =>
    if mcpAnswers root id then some body
    else
      match root with
      | .arr items => (items.find? fun item => mcpAnswers item id).map fun item =>
          (item.write spell).getD []
      | _ => none

end Reading

/-- The lines of a text, the last one with or without its newline. -/
def lines : Bytes → List Bytes
  | [] => []
  | b :: s =>
    if b = 0x0A then [] :: lines s
    else
      match lines s with
      | [] => [[b]]
      | l :: ls => (b :: l) :: ls

/-- What an event stream carries between two empty lines. -/
structure SseEvent where
  data : Bytes := []
  event : Bytes := []

/-- The data of an event when it carries the response: a message event whose
data is that response. -/
def SseEvent.dispatch (e : SseEvent) (id : ℤ) : Option Bytes :=
  if e.data ≠ [] ∧ (e.event = [] ∨ e.event = ascii "message") then
    match parse e.data with
    | none => none
    | some root => if mcpAnswers root id then some e.data else none
  else none

/-- The value of a field line, one space after its colon left out. -/
def fieldValue (field line : Bytes) : Bytes :=
  match line.drop field.length with
  | 0x20 :: v => v
  | v => v

/-- One line of an event that is not the empty one. -/
def SseEvent.line (e : SseEvent) (line : Bytes) : SseEvent :=
  if (ascii "data:").isPrefixOf line then
    { e with data := e.data ++ (if e.data = [] then [] else [0x0A]) ++ fieldValue (ascii "data:") line }
  else if (ascii "event:").isPrefixOf line then
    { e with event := fieldValue (ascii "event:") line }
  else e

/-- A line without the carriage return it may end with. -/
def chomp (line : Bytes) : Bytes := if line.getLast? = some 0x0D then line.dropLast else line

/-- The response among the events of the lines left, `e` the event under way. -/
def sseLines (id : ℤ) : SseEvent → List Bytes → Option Bytes
  | e, [] => e.dispatch id
  | e, l :: ls =>
    if chomp l = [] then
      match e.dispatch id with
      | some message => some message
      | none => sseLines id {} ls
    else sseLines id (e.line (chomp l)) ls

/-- `mcp_sse_response`. -/
def mcpSseResponse (body : Bytes) (id : ℤ) : Option Bytes := sseLines id {} (lines body)

end Mcp
end S2S
