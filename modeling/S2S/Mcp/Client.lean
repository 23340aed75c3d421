/-
# An MCP client

`mcp_client_open`, `mcp_client_tools` and `mcp_client_call` of
`src/mcp-client.cpp`, over the exchanges below them.  A call posts the name it
was given as a JSON string and the arguments the model wrote as they are: they
are copied into the message and nobody reads them on the way.
-/

import S2S.Mcp.Exchange

namespace S2S
namespace Mcp

open Json Http Llm

section Client

-- How the writer spells a number it read, the version of the program, and the
-- replies of the server in order.
variable (spell : Bytes → Decimal) (programVersion : Bytes) (server : ℕ → Reply)

/-- `mcp_client_open`: a client already open does nothing. -/
def mcpClientOpen (fuel : ℕ) (w : World) : Option (Except Bytes Unit × World) :=
  if w.client.isOpen then some (.ok (), w)
  else mcpClientOpenSession spell programVersion server fuel [] w

/-! ### The tools -/

/-- `mcp_tool_definition`: a tool as the definition a request to the model
carries. -/
def mcpToolDefinition (tool : Value) : Tool :=
  let name := textOf (tool.get (ascii "name"))
  let description :=
    match tool.get (ascii "description") with
    | some (.str s) => [(ascii "description", Draft.str s)]
    | _ => []
  let parameters :=
    match tool.get (ascii "inputSchema") with
    | some schema => schema.draft spell
    | none => .obj []
  { name := name
    definition := ((Draft.obj [(ascii "type", .str (ascii "function")),
      (ascii "function", .obj ([(ascii "name", .str name)] ++ description
        ++ [(ascii "parameters", parameters)]))]).write).getD [] }

/-- The values of an array, none of anything else. -/
def itemsOf : Option Value → List Value
  | some (.arr items) => items
  | _ => []

/-- The tools of one page: those that have a name. -/
def pageTools (result : Value) : List Tool :=
  ((itemsOf (result.get (ascii "tools"))).map (mcpToolDefinition spell)).filter fun tool =>
    tool.name ≠ []

/-- The request for one page. -/
def listMessage (id : ℤ) (cursor : Bytes) : Message :=
  let m := mcpMessageBegin (ascii "tools/list") id
  if cursor = [] then m else m.add (ascii "cursor") (.str cursor)

/-- The pages from `cursor` on. -/
def toolPages : ℕ → Bytes → List Tool → World → Option (Except Bytes (List Tool) × World)
  | 0, _, _, _ => none
  | fuel + 1, cursor, tools, w =>
    match mcpRequest spell programVersion server fuel [] (listMessage w.client.nextId cursor)
      w.takeId with
    | none => none
    | some (.error e, w) => some (.error e, w)
    | some (.ok result, w) =>
      let cursor := textOf (result.get (ascii "nextCursor"))
      let tools := tools ++ pageTools spell result
      if cursor = [] then some (.ok tools, w) else toolPages fuel cursor tools w

/-- `mcp_client_tools`. -/
def mcpClientTools (fuel : ℕ) (w : World) : Option (Except Bytes (List Tool) × World) :=
  match mcpClientOpen spell programVersion server fuel w with
  | none => none
  | some (.error e, w) => some (.error e, w)
  | some (.ok _, w) => toolPages spell programVersion server fuel [] [] w

/-! ### A call -/

/-- The message of a call. -/
def callMessage (id : ℤ) (name arguments : Bytes) : Message :=
  ((mcpMessageBegin (ascii "tools/call") id).add (ascii "name") (.str name)).add
    (ascii "arguments") (if arguments = [] then .obj [] else .raw (cstr arguments))

/-- The text items of a content, joined by newlines. -/
def contentText (items : List Value) : Bytes :=
  items.foldl (fun result item =>
    if textOf (item.get (ascii "type")) = ascii "text" then
      result ++ (if result = [] then [] else [0x0A]) ++ textOf (item.get (ascii "text"))
    else result) []

/-- What a call returns: its text, or its structure when it has none. -/
def callText (value : Value) : Bytes :=
  let text := contentText (itemsOf (value.get (ascii "content")))
  match text, value.get (ascii "structuredContent") with
  | [], some structured => (structured.write spell).getD []
  | text, _ => text

/-- `mcp_client_call`. -/
def mcpClientCall (fuel : ℕ) (name arguments : Bytes) (w : World) :
    Option (Except Bytes Bytes × World) :=
  match mcpClientOpen spell programVersion server fuel w with
  | none => none
  | some (.error e, w) => some (.error e, w)
  | some (.ok _, w) =>
    match mcpRequest spell programVersion server fuel [] (callMessage w.client.nextId name arguments)
      w.takeId with
    | none => none
    | some (.error e, w) => some (.error e, w)
    | some (.ok value, w) => some (.ok (callText spell value), w)

/-- The client of a session that was opened is open. -/
theorem isOpen_of_mcpClientOpen {fuel : ℕ} {w w' : World}
    (h : mcpClientOpen spell programVersion server fuel w = some (.ok (), w')) :
    w'.client.isOpen = true := by
  unfold mcpClientOpen at h
  split_ifs at h with ho
  · obtain ⟨-, rfl⟩ := Prod.mk.inj (Option.some.inj h)
    exact ho
  · cases fuel with
    | zero => simp [mcpClientOpenSession] at h
    | succ fuel =>
      rw [mcpClientOpenSession] at h
      split at h
      · simp at h
      · simp at h
      · split at h
        · simp at h
        · split at h
          · simp at h
          · simp at h
          · obtain ⟨-, rfl⟩ := Prod.mk.inj (Option.some.inj h)
            rfl

/-- **A call on a client that is not open is the same call once it is.** -/
theorem mcpClientCall_of_open {fuel : ℕ} {name arguments : Bytes} {w w' : World}
    (h : mcpClientOpen spell programVersion server fuel w = some (.ok (), w')) :
    mcpClientCall spell programVersion server fuel name arguments w
      = mcpClientCall spell programVersion server fuel name arguments w' := by
  have ho := isOpen_of_mcpClientOpen spell programVersion server h
  have h' : mcpClientOpen spell programVersion server fuel w' = some (.ok (), w') := by
    rw [mcpClientOpen, if_pos ho]
  rw [mcpClientCall, mcpClientCall, h, h']

/-! ### What is posted -/

end Client

/-- A run from `w` to `w'` adds to the log only items with `P`. -/
def Grows (P : Item → Prop) (w w' : World) : Prop :=
  ∃ ps, w'.log = w.log ++ ps ∧ ∀ x ∈ ps, P x

theorem Grows.trans {P : Item → Prop} {w w₁ w₂ : World} (h : Grows P w w₁) (h' : Grows P w₁ w₂) :
    Grows P w w₂ := by
  obtain ⟨ps, hps, hP⟩ := h
  obtain ⟨qs, hqs, hQ⟩ := h'
  refine ⟨ps ++ qs, by rw [hqs, hps, List.append_assoc], fun x hx => ?_⟩
  exact (List.mem_append.1 hx).elim (hP x) (hQ x)

theorem Grows.mono {P Q : Item → Prop} {w w' : World} (h : Grows P w w') (hPQ : ∀ x, P x → Q x) :
    Grows Q w w' := by
  obtain ⟨ps, hps, hP⟩ := h
  exact ⟨ps, hps, fun x hx => hPQ x (hP x hx)⟩

/-- One item more. -/
theorem Grows.one {P : Item → Prop} {w w' : World} {x : Item} (h : w'.log = w.log ++ [x])
    (hx : P x) : Grows P w w' :=
  ⟨[x], h, by simpa using hx⟩

/-- Posts of `request` under `tag`, and anything under longer tags. -/
def Item.Posts (tag : List ℤ) (request : Bytes) : Item → Prop
  | .post t _ _ posted => (t = tag ∧ posted = request) ∨ tag.length < t.length
  | .reopen _ => True

/-- Posts under tags longer than `within`. -/
def Item.Deeper (within : List ℤ) : Item → Prop
  | .post t _ _ _ => within.length < t.length
  | .reopen _ => True

theorem Item.Deeper.posts {tag : List ℤ} {request : Bytes} {x : Item} (h : x.Deeper tag) :
    x.Posts tag request := by
  cases x with
  | post t target headers posted => exact Or.inr h
  | reopen t => trivial

section Posts

variable (spell : Bytes → Decimal) (programVersion : Bytes) (server : ℕ → Reply)

end Posts

end Mcp
end S2S
