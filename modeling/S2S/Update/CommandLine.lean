/-
# The settings of the server

The loop of `main` in `src/tools/s2s-server.cpp` over the arguments, as far as
it sets the `ConversationSetup`: the endpoint and the servers of tools that the
server names, their keys, and the hosts a client may name.

`Served` says what the loop leaves: an endpoint is fixed as soon as the server
names a part of it, and the key of a server of tools is the one that follows
its URL.
-/

import S2S.Update.Patch

namespace S2S
namespace Update

open Json Mcp

/-! ### The arguments -/

/-- An argument with what it takes; the others set nothing here. -/
inductive Flag
  | llmHost (host : Bytes)
  | llmUrl (url : Bytes)
  | llmModel (model : Bytes)
  | llmKeyFile (path : Bytes)
  | mcp (url : Bytes)
  | mcpKeyFile (path : Bytes)
  | other
  deriving DecidableEq

/-- The other arguments that take a value. -/
def otherValued : List Bytes :=
  [ascii "--models", ascii "--voices", ascii "--host", ascii "--port", ascii "--origin",
    ascii "--device", ascii "--max-batch", ascii "--codec-chunk-dur"]

/-- An argument that takes the one behind it. -/
def valuedFlag (arg value : Bytes) : Option Flag :=
  if arg = ascii "--llm-host" then some (.llmHost value)
  else if arg = ascii "--llm-url" then some (.llmUrl value)
  else if arg = ascii "--llm-model" then some (.llmModel value)
  else if arg = ascii "--llm-key-file" then some (.llmKeyFile value)
  else if arg = ascii "--mcp" then some (.mcp value)
  else if arg = ascii "--mcp-key-file" then some (.mcpKeyFile value)
  else if arg ∈ otherValued then some .other
  else none

/-- An argument that takes none. -/
def bareFlag (arg : Bytes) : Option Flag :=
  if arg = ascii "--no-fa" ∨ arg = ascii "--clamp-fp16" then some .other else none

/-- The arguments, or the usage. -/
def readFlags : List Bytes → Option (List Flag)
  | [] => some []
  | [arg] => (bareFlag arg).map fun flag => [flag]
  | arg :: value :: rest =>
    match valuedFlag arg value with
    | some flag => (readFlags rest).map fun flags => flag :: flags
    | none =>
      match bareFlag arg with
      | some flag => (readFlags (value :: rest)).map fun flags => flag :: flags
      | none => none

section Files

-- The first line of a file, none when it has none or cannot be read.
variable (firstLine : Bytes → Option Bytes)

/-- The key in a file, which has one or ends the program. -/
def keyIn (path : Bytes) : Option Bytes := (firstLine path).filter fun key => key ≠ []

/-- The key goes to the server named last. -/
def giveKey (key : Bytes) (servers : List ServerParams) : Option (List ServerParams) :=
  servers.getLast?.map fun server => servers.dropLast ++ [{ server with apiKey := key }]

/-- What an argument sets. -/
def ConversationSetup.take (setup : ConversationSetup) : Flag → Option ConversationSetup
  | .llmHost host => some { setup with llmHosts := setup.llmHosts ++ [host] }
  | .llmUrl url =>
    some { setup with defaults.llm.baseUrl := url, llmFixed := true }
  | .llmModel model => some { setup with defaults.llm.model := model }
  | .llmKeyFile path =>
    (keyIn firstLine path).map fun key =>
      { setup with defaults.llm.apiKey := key, llmFixed := true }
  | .mcp url =>
    some { setup with
      defaults.mcp := setup.defaults.mcp ++ [{ url := url }], mcpFixed := true }
  | .mcpKeyFile path =>
    (keyIn firstLine path).bind fun key => (giveKey key setup.defaults.mcp).map fun servers =>
      { setup with defaults.mcp := servers }
  | .other => some setup

/-- What the arguments set, over the voice request of the models (`models_load`). -/
def takeFlags (tts : TtsRequest) (flags : List Flag) : Option ConversationSetup :=
  flags.foldlM (ConversationSetup.take firstLine) { defaults := { tts := tts } }

/-- The loop of `main`, which asks for an argument. -/
def commandLine (tts : TtsRequest) (args : List Bytes) : Option ConversationSetup :=
  if args = [] then none else (readFlags args).bind (takeFlags firstLine tts)

/-! ### The pairs of the server -/

/-- The URL an argument gives the endpoint. -/
def Flag.endpointUrl : Flag → Option Bytes
  | .llmUrl url => some url
  | _ => none

/-- The key an argument gives the endpoint. -/
def Flag.endpointKey : Flag → Option Bytes
  | .llmKeyFile path => keyIn firstLine path
  | _ => none

/-- The key an argument gives the server before it. -/
def Flag.serverKey : Flag → Option Bytes
  | .mcpKeyFile path => keyIn firstLine path
  | _ => none

/-- An argument that names no server of tools. -/
def Flag.staysWith : Flag → Bool
  | .mcp _ => false
  | _ => true

/-- The last of some arguments, none when there are none. -/
def lastOf (values : List Bytes) : Bytes := values.getLast?.getD []

/-- The command line gives the endpoint this URL and this key. -/
def OwnEndpoint (flags : List Flag) (url key : Bytes) : Prop :=
  url = lastOf (flags.filterMap Flag.endpointUrl) ∧
    key = lastOf (flags.filterMap (Flag.endpointKey firstLine))

/-- The command line names this server of tools, and this key before it names the next. -/
def OwnServer (flags : List Flag) (url key : Bytes) : Prop :=
  ∃ before after, flags = before ++ .mcp url :: after ∧
    key = lastOf ((after.takeWhile Flag.staysWith).filterMap (Flag.serverKey firstLine))

/-- A pair of the server's own. -/
def Own (flags : List Flag) (url key : Bytes) : Prop :=
  OwnEndpoint firstLine flags url key ∨ OwnServer firstLine flags url key

/-! ### What the arguments leave -/

variable {firstLine} {setup setup' : ConversationSetup}

theorem take_cons {flag : Flag} {flags : List Flag}
    (h : (flag :: flags).foldlM (ConversationSetup.take firstLine) setup = some setup') :
    ∃ middle, setup.take firstLine flag = some middle ∧
      flags.foldlM (ConversationSetup.take firstLine) middle = some setup' :=
  Option.bind_eq_some_iff.1 h

theorem giveKey_eq_some {key : Bytes} {servers servers' : List ServerParams}
    (h : giveKey key servers = some servers') :
    ∃ last, servers.getLast? = some last ∧
      servers' = servers.dropLast ++ [{ last with apiKey := key }] := by
  obtain ⟨last, hlast, rfl⟩ := Option.map_eq_some_iff.1 h
  exact ⟨last, hlast, rfl⟩

theorem mem_dropLast_or {server : ServerParams} {servers : List ServerParams}
    (h : server ∈ servers) : server ∈ servers.dropLast ∨ servers.getLast? = some server := by
  obtain ⟨before, last, rfl⟩ := List.eq_nil_or_concat' servers |>.resolve_left
    (List.ne_nil_of_mem h)
  rcases List.mem_append.1 h with hbefore | hlast
  · exact .inl (by simpa using hbefore)
  · exact .inr (by simpa using (List.mem_singleton.1 hlast).symm)

/-- The endpoint has the last URL and the last key of the arguments. -/
theorem endpoint_of_take {flags : List Flag}
    (h : flags.foldlM (ConversationSetup.take firstLine) setup = some setup') :
    setup'.defaults.llm.baseUrl =
        (flags.filterMap Flag.endpointUrl).getLast?.getD setup.defaults.llm.baseUrl ∧
      setup'.defaults.llm.apiKey =
        (flags.filterMap (Flag.endpointKey firstLine)).getLast?.getD setup.defaults.llm.apiKey := by
  induction flags generalizing setup with
  | nil =>
    obtain rfl := Option.some.inj h
    exact ⟨rfl, rfl⟩
  | cons flag flags ih =>
    obtain ⟨middle, hflag, hflags⟩ := take_cons h
    obtain ⟨hurl, hkey⟩ := ih hflags
    rw [hurl, hkey]
    cases flag with
    | llmUrl url =>
      obtain rfl := Option.some.inj hflag
      simp only [List.filterMap_cons, Flag.endpointUrl, Flag.endpointKey, List.getLast?_cons,
        Option.getD_some, and_self]
    | llmKeyFile path =>
      obtain ⟨key, hpath, rfl⟩ := Option.map_eq_some_iff.1 hflag
      simp only [List.filterMap_cons, Flag.endpointUrl, Flag.endpointKey, hpath,
        List.getLast?_cons, Option.getD_some, and_self]
    | mcpKeyFile path =>
      obtain ⟨key, -, hgive⟩ := Option.bind_eq_some_iff.1 hflag
      obtain ⟨servers, -, rfl⟩ := Option.map_eq_some_iff.1 hgive
      simp only [List.filterMap_cons, Flag.endpointUrl, Flag.endpointKey, and_self]
    | _ =>
      obtain rfl := Option.some.inj hflag
      simp only [List.filterMap_cons, Flag.endpointUrl, Flag.endpointKey, and_self]

/-- What is not fixed is empty. -/
structure ConversationSetup.Free (setup : ConversationSetup) : Prop where
  endpoint : setup.llmFixed = false →
    setup.defaults.llm.baseUrl = [] ∧ setup.defaults.llm.apiKey = []
  servers : setup.mcpFixed = false → setup.defaults.mcp = []

/-- An argument that names something fixes it. -/
theorem free_take {flag : Flag} (hfree : setup.Free)
    (h : setup.take firstLine flag = some setup') : setup'.Free := by
  cases flag with
  | llmUrl url =>
    obtain rfl := Option.some.inj h
    exact ⟨fun hfixed => absurd hfixed (by simp), hfree.servers⟩
  | llmKeyFile path =>
    obtain ⟨key, -, rfl⟩ := Option.map_eq_some_iff.1 h
    exact ⟨fun hfixed => absurd hfixed (by simp), hfree.servers⟩
  | mcp url =>
    obtain rfl := Option.some.inj h
    exact ⟨hfree.endpoint, fun hfixed => absurd hfixed (by simp)⟩
  | mcpKeyFile path =>
    obtain ⟨key, -, hgive⟩ := Option.bind_eq_some_iff.1 h
    obtain ⟨servers, hservers, rfl⟩ := Option.map_eq_some_iff.1 hgive
    obtain ⟨last, hlast, -⟩ := giveKey_eq_some hservers
    refine ⟨hfree.endpoint, fun hfixed => ?_⟩
    rw [hfree.servers hfixed] at hlast
    simp at hlast
  | _ =>
    obtain rfl := Option.some.inj h
    exact ⟨hfree.endpoint, hfree.servers⟩

theorem free_of_take {flags : List Flag} (hfree : setup.Free)
    (h : flags.foldlM (ConversationSetup.take firstLine) setup = some setup') : setup'.Free := by
  induction flags generalizing setup with
  | nil => exact Option.some.inj h ▸ hfree
  | cons flag flags ih =>
    obtain ⟨middle, hflag, hflags⟩ := take_cons h
    exact ih (free_take hfree hflag) hflags

/-- A server of tools was there before, maybe the last one, which takes the keys that come first, or
is named by the arguments. -/
theorem servers_of_take {flags : List Flag}
    (h : flags.foldlM (ConversationSetup.take firstLine) setup = some setup')
    {server : ServerParams} (hserver : server ∈ setup'.defaults.mcp) :
    server ∈ setup.defaults.mcp.dropLast ∨
      (∃ last, setup.defaults.mcp.getLast? = some last ∧ server.url = last.url ∧
        server.apiKey = ((flags.takeWhile Flag.staysWith).filterMap
          (Flag.serverKey firstLine)).getLast?.getD last.apiKey) ∨
      OwnServer firstLine flags server.url server.apiKey := by
  have hlater : ∀ {flag : Flag} {flags : List Flag},
      OwnServer firstLine flags server.url server.apiKey →
      OwnServer firstLine (flag :: flags) server.url server.apiKey := by
    rintro flag flags ⟨before, after, rfl, hkey⟩
    exact ⟨flag :: before, after, rfl, hkey⟩
  induction flags generalizing setup with
  | nil =>
    obtain rfl := Option.some.inj h
    exact (mem_dropLast_or hserver).imp_right fun hlast => .inl ⟨server, hlast, rfl, rfl⟩
  | cons flag flags ih =>
    obtain ⟨middle, hflag, hflags⟩ := take_cons h
    cases flag with
    | mcp url =>
      obtain rfl := Option.some.inj hflag
      rcases ih hflags with hbefore | ⟨last, hlast, hurl, hkey⟩ | hown
      · -- It was there: the next URL closes it.
        rw [List.dropLast_concat] at hbefore
        exact (mem_dropLast_or hbefore).imp_right fun hlast => .inl ⟨server, hlast, rfl, rfl⟩
      · simp only [List.getLast?_concat, Option.some.injEq] at hlast
        subst hlast
        exact .inr (.inr ⟨[], flags, by rw [hurl]; rfl, hkey⟩)
      · exact .inr (.inr (hlater hown))
    | llmKeyFile path =>
      obtain ⟨key, -, rfl⟩ := Option.map_eq_some_iff.1 hflag
      exact (ih hflags).imp_right (Or.imp_right hlater)
    | mcpKeyFile path =>
      obtain ⟨key, hpath, hgive⟩ := Option.bind_eq_some_iff.1 hflag
      obtain ⟨servers, hservers, rfl⟩ := Option.map_eq_some_iff.1 hgive
      obtain ⟨last, hlast, rfl⟩ := giveKey_eq_some hservers
      rcases ih hflags with hbefore | ⟨last', hlast', hurl, hkey⟩ | hown
      · exact .inl (by simpa using hbefore)
      · simp only [List.getLast?_concat, Option.some.injEq] at hlast'
        subst hlast'
        refine .inr (.inl ⟨last, hlast, hurl, ?_⟩)
        have hgiven : Flag.serverKey firstLine (.mcpKeyFile path) = some key := hpath
        rw [hkey, List.takeWhile_cons_of_pos rfl, List.filterMap_cons_some hgiven,
          List.getLast?_cons, Option.getD_some]
      · exact .inr (.inr (hlater hown))
    | _ =>
      obtain rfl := Option.some.inj hflag
      exact (ih hflags).imp_right (Or.imp_right hlater)

/-- What the settings of the server owe to its arguments. -/
structure Served (firstLine : Bytes → Option Bytes) (flags : List Flag)
    (setup : ConversationSetup) : Prop where
  endpoint : OwnEndpoint firstLine flags setup.defaults.llm.baseUrl setup.defaults.llm.apiKey
  free : setup.llmFixed = false → setup.defaults.llm.baseUrl = [] ∧ setup.defaults.llm.apiKey = []
  servers : ∀ server ∈ setup.defaults.mcp, OwnServer firstLine flags server.url server.apiKey
  serversFree : setup.mcpFixed = false → setup.defaults.mcp = []

/-- **The server is set up from its arguments**: its endpoint and its servers of tools are the pairs
they name, and what is not fixed is empty. -/
theorem served_of_takeFlags {tts : TtsRequest} {flags : List Flag}
    (h : takeFlags firstLine tts flags = some setup) : Served firstLine flags setup where
  endpoint := endpoint_of_take h
  free := (free_of_take ⟨fun _ => ⟨rfl, rfl⟩, fun _ => rfl⟩ h).endpoint
  servers server hserver := by
    rcases servers_of_take h hserver with hbefore | ⟨last, hlast, -⟩ | hown
    · simp at hbefore
    · simp at hlast
    · exact hown
  serversFree := (free_of_take ⟨fun _ => ⟨rfl, rfl⟩, fun _ => rfl⟩ h).servers

end Files

end Update
end S2S
