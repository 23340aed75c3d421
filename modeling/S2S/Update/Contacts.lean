/-
# Where a key goes

What the server contacts, and with which key: the endpoint client
(`llm_client_set_params` of `src/llm-client.cpp`, `conn_llm` of
`src/s2s-conversation.cpp`), the clients of the servers of tools
(`mcp_client_new` of `src/mcp-client.cpp`, `llm_agent_new` of
`src/llm-agent.cpp`, `conn_answer`), and the routes `/v1/models` and `/v1/tools`
of `src/tools/s2s-server.cpp`.

A run is any sequence of updates, answers and requests over any number of
connections.  The steps of an answer may come in any order here, which takes in
the order of `conn_answer`: what they contact does not depend on it.
`contacts_vouched` is the whole result: each contact goes to the host of its
URL, and its URL and key were named together.
-/

import Mathlib.Logic.Function.Basic
import S2S.Mcp.Client
import S2S.Update.CommandLine

namespace S2S
namespace Update

open Json Http Mcp

/-- A request the server sends: the URL it is for, what the HTTP library connects to, and the bearer
token it carries, none when it is empty. -/
structure Contact where
  url : Bytes
  host : Bytes
  key : Bytes
  deriving DecidableEq

section Run

-- The hosts the HTTP library makes a client for.
variable (opens : Bytes → Bool)

/-! ### The clients -/

/-- `llm_client`, with the host its HTTP client is for. -/
structure LlmClient where
  params : Llm.Params
  host : Bytes

/-- `llm_client_set_params`, on the client there is, or on none (`llm_client_new`): what is left, and
whether it points at the settings. -/
def llmClientSetParams (params : Llm.Params) (client : Option LlmClient) :
    Option LlmClient × Bool :=
  match httpSplitUrl params.baseUrl with
  | none => (client, false)
  | some (host, _) =>
    if client.any (fun c => c.host = host) || opens host then (some ⟨params, host⟩, true)
    else (client, false)

/-- What a request of the endpoint client contacts. -/
def LlmClient.contact (c : LlmClient) : Contact := ⟨c.params.baseUrl, c.host, c.params.apiKey⟩

/-- What a request made for a URL alone contacts (`llm_client_models`, `llm_client_tools`). -/
def contactOf (url key : Bytes) : List Contact :=
  match httpSplitUrl url with
  | none => []
  | some (host, _) => if opens host then [⟨url, host, key⟩] else []

/-- `mcp_client`, with the host its HTTP client is for. -/
structure McpClient where
  params : ServerParams
  host : Bytes

/-- `mcp_client_new`. -/
def mcpClientNew (params : ServerParams) : Option McpClient :=
  match httpSplitUrl params.url with
  | none => none
  | some (host, _) => if opens host then some ⟨params, host⟩ else none

/-- What a request of a client of a server of tools contacts. -/
def McpClient.contact (c : McpClient) : Contact := ⟨c.params.url, c.host, c.params.apiKey⟩

/-- `llm_agent_new`. -/
def llmAgentNew (servers : List ServerParams) : List (Option McpClient) :=
  servers.map (mcpClientNew opens)

/-- `llm_agent_free`: a client ends the session it has. -/
def llmAgentFree (sessions : ℕ → Bool) (agent : List (Option McpClient)) : List Contact :=
  (agent.zipIdx.filter fun entry => sessions entry.2).filterMap fun entry =>
    entry.1.map McpClient.contact

/-! ### A connection -/

/-- A connection, with what its responder has: the two clients, the servers its agent was made for,
and the settings of the answer in flight. -/
structure Talk where
  conn : Connection
  llm : Option LlmClient := none
  agent : Option (List (Option McpClient)) := none
  agentServers : List ServerParams := []
  client : Option ClientSettings := none

/-- The servers of an agent, with the timeout of the answer. -/
def agentServersOf (client : ClientSettings) : List ServerParams :=
  client.mcp.map fun server => { server with timeoutSec := client.llm.toolTimeoutSec }

/-- What happens to a connection.  `sessions` are the clients of its agent that have one. -/
inductive Move
  /-- The reader takes an update. -/
  | update (aec : Bool) (patch : Patch)
  /-- The responder copies the settings. -/
  | answer
  /-- The answer points the endpoint client at them (`conn_llm`). -/
  | endpoint
  /-- A changed list of servers gets a new agent. -/
  | agent (sessions : ℕ → Bool)
  /-- The agent offers its tools to the endpoint. -/
  | offer (tools : Bytes)
  /-- A request of the endpoint client: a stream, or the call of a tool. -/
  | ask
  /-- The list of the endpoint's own tools. -/
  | ownTools
  /-- A request of one client of the agent: a list of tools, or a call. -/
  | tool (i : ℕ)
  /-- The connection ends. -/
  | close (sessions : ℕ → Bool)

/-- One move of a connection, and what it contacts. -/
def Talk.move (setup : ConversationSetup) (t : Talk) : Move → Talk × List Contact
  | .update aec patch => ({ t with conn := (connApplyPatch setup aec patch t.conn).conn }, [])
  | .answer => ({ t with client := some t.conn.client }, [])
  | .endpoint =>
    match t.client with
    | none => (t, [])
    | some client => ({ t with llm := (llmClientSetParams opens client.llm t.llm).1 }, [])
  | .agent sessions =>
    match t.client with
    | none => (t, [])
    | some client =>
      let servers := agentServersOf client
      if t.agent.isSome ∧ t.agentServers = servers then (t, [])
      else ({ t with agent := some (llmAgentNew opens servers), agentServers := servers },
        llmAgentFree sessions (t.agent.getD []))
  | .offer tools =>
    match t.client with
    | none => (t, [])
    | some client =>
      ({ t with llm := (llmClientSetParams opens { client.llm with tools := tools } t.llm).1 }, [])
  | .ask => (t, (t.llm.map LlmClient.contact).toList)
  | .ownTools =>
    match t.client with
    | none => (t, [])
    | some client => (t, contactOf opens client.llm.baseUrl client.llm.apiKey)
  | .tool i => (t, (((t.agent.getD [])[i]?).join.map McpClient.contact).toList)
  | .close sessions =>
    ({ t with llm := none, agent := none, client := none },
      llmAgentFree sessions (t.agent.getD []))

/-! ### The routes -/

/-- A text of the body of a request. -/
def bodyText (body : Bytes) (key : String) : Bytes :=
  textOf ((parse body).bind fun doc => doc.get (ascii key))

/-- The URLs and keys of the servers of tools a body names. -/
def bodyPairs (body : Bytes) : List (Bytes × Bytes) :=
  ((itemsOf ((parse body).bind fun doc => doc.get (ascii "mcp"))).map fun entry =>
    (textOf (entry.get (ascii "url")), textOf (entry.get (ascii "key")))).filter fun pair =>
      pair.1 ≠ []

/-- The servers of tools a body names. -/
def bodyServers (timeoutSec : ℤ) (body : Bytes) : List ServerParams :=
  (bodyPairs body).map fun pair =>
    { url := pair.1, apiKey := pair.2, timeoutSec := timeoutSec }

/-- The endpoint a body names. -/
def bodyEndpoint (setup : ConversationSetup) (body : Bytes) : Llm.Params :=
  let llm := setup.defaults.llm
  if setup.llmFixed then llm
  else { llm with
    baseUrl := textOr llm.baseUrl (bodyText body "url")
    apiKey := textOr llm.apiKey (bodyText body "key") }

/-- `/v1/models`: the list of the endpoint a body names, refused when the server has its own. -/
def modelsRoute (setup : ConversationSetup) (body : Bytes) : List Contact :=
  if setup.llmFixed then []
  else
    let params := bodyEndpoint setup body
    if hostAllowed setup.llmHosts params.baseUrl then
      contactOf opens params.baseUrl params.apiKey
    else []

/-- The servers of tools a list is of: those of the server, and those a body names. -/
def listedServers (setup : ConversationSetup) (body : Bytes) : List ServerParams :=
  setup.defaults.mcp ++ if setup.mcpFixed then []
    else bodyServers (bodyEndpoint setup body).toolTimeoutSec body

/-- `/v1/tools`: the servers of tools, then the endpoint, then the sessions that end. -/
def toolsRoute (setup : ConversationSetup) (sessions : ℕ → Bool) (body : Bytes) : List Contact :=
  let params := bodyEndpoint setup body
  let servers := listedServers setup body
  if hostAllowed setup.llmHosts params.baseUrl &&
      servers.all fun server => hostAllowed setup.llmHosts server.url then
    let agent := llmAgentNew opens servers
    agent.filterMap (fun client => client.map McpClient.contact)
      ++ contactOf opens params.baseUrl params.apiKey ++ llmAgentFree sessions agent
  else []

/-! ### Runs -/

/-- What happens to the server. -/
inductive Step
  /-- A connection opens, with the defaults. -/
  | opens (id : ℕ)
  | move (id : ℕ) (m : Move)
  | models (body : Bytes)
  | tools (sessions : ℕ → Bool) (body : Bytes)

/-- The connections there are. -/
abbrev Talks : Type := ℕ → Option Talk

/-- One step, and what it contacts. -/
def step (setup : ConversationSetup) (talks : Talks) : Step → Talks × List Contact
  | .opens id => (Function.update talks id (some { conn := { client := setup.defaults } }), [])
  | .move id m =>
    match talks id with
    | none => (talks, [])
    | some t =>
      let moved := t.move opens setup m
      (Function.update talks id (some moved.1), moved.2)
  | .models body => (talks, modelsRoute opens setup body)
  | .tools sessions body => (talks, toolsRoute opens setup sessions body)

/-- What a run contacts. -/
def run (setup : ConversationSetup) : Talks → List Step → List Contact
  | _, [] => []
  | talks, s :: steps =>
    (step opens setup talks s).2 ++ run setup (step opens setup talks s).1 steps

/-- The URLs and keys a step names together: those of an update, of each of its servers, of a body,
of each server in it. -/
def Step.named : Step → List (Bytes × Bytes)
  | .move _ (.update _ patch) =>
    (patch.llmUrl, patch.llmKey) :: patch.mcp.map fun server => (server.url, server.apiKey)
  | .models body => [(bodyText body "url", bodyText body "key")]
  | .tools _ body =>
    (bodyText body "url", bodyText body "key") :: bodyPairs body
  | _ => []

/-! ### What may be contacted -/

section Vouched

-- The arguments of the server, what it was set up to, and the pairs that were named.
variable (firstLine : Bytes → Option Bytes) (flags : List Flag) (hosts : List Bytes)
  (named : List (Bytes × Bytes))

/-- A URL and a key that belong together: those of the server, or those of one message, with an
allowed host. -/
def Cleared (url key : Bytes) : Prop :=
  Own firstLine flags url key ∨ (url, key) ∈ named ∧ hostAllowed hosts url = true

/-- A contact with the host of its URL, and the key that belongs to it. -/
def Contact.Vouched (c : Contact) : Prop :=
  Cleared firstLine flags hosts named c.url c.key ∧ ∃ path, httpSplitUrl c.url = some (c.host, path)

/-- Settings whose keys belong to their URLs. -/
def ClientSettings.Sound (client : ClientSettings) : Prop :=
  Cleared firstLine flags hosts named client.llm.baseUrl client.llm.apiKey ∧
    ∀ server ∈ client.mcp, Cleared firstLine flags hosts named server.url server.apiKey

/-- A connection whose settings and clients are. -/
structure Talk.Sound (t : Talk) : Prop where
  settings : t.conn.client.Sound firstLine flags hosts named
  client : ∀ client, t.client = some client → client.Sound firstLine flags hosts named
  llm : ∀ c, t.llm = some c → c.contact.Vouched firstLine flags hosts named
  agent : ∀ agent, t.agent = some agent → ∀ c, some c ∈ agent →
    c.contact.Vouched firstLine flags hosts named

variable {firstLine flags hosts named}

/-- **The endpoint client keeps its host next to its settings.** -/
theorem vouched_llmClientSetParams {params : Llm.Params} {client : Option LlmClient}
    (hparams : Cleared firstLine flags hosts named params.baseUrl params.apiKey)
    (hclient : ∀ c, client = some c → c.contact.Vouched firstLine flags hosts named) (c : LlmClient)
    (hc : (llmClientSetParams opens params client).1 = some c) :
    c.contact.Vouched firstLine flags hosts named := by
  unfold llmClientSetParams at hc
  split at hc
  · exact hclient c hc
  · rename_i host path hsplit
    split_ifs at hc
    · obtain rfl := Option.some.inj hc
      exact ⟨hparams, path, hsplit⟩
    · exact hclient c hc

theorem vouched_contactOf {url key : Bytes} (h : Cleared firstLine flags hosts named url key) :
    ∀ c ∈ contactOf opens url key, c.Vouched firstLine flags hosts named := by
  intro c hc
  unfold contactOf at hc
  split at hc
  · simp at hc
  · rename_i host path hsplit
    split_ifs at hc
    · obtain rfl := List.mem_singleton.1 hc
      exact ⟨h, path, hsplit⟩
    · simp at hc

/-- **A new agent only has clients of its servers.** -/
theorem vouched_llmAgentNew {servers : List ServerParams}
    (h : ∀ server ∈ servers, Cleared firstLine flags hosts named server.url server.apiKey)
    (c : McpClient) (hc : some c ∈ llmAgentNew opens servers) :
    c.contact.Vouched firstLine flags hosts named := by
  obtain ⟨server, hserver, hnew⟩ := List.mem_map.1 hc
  unfold mcpClientNew at hnew
  split at hnew
  · simp at hnew
  · rename_i host path hsplit
    split_ifs at hnew
    · obtain rfl := Option.some.inj hnew
      exact ⟨h server hserver, path, hsplit⟩

theorem vouched_llmAgentFree {sessions : ℕ → Bool} {agent : List (Option McpClient)}
    (h : ∀ c, some c ∈ agent → c.contact.Vouched firstLine flags hosts named) :
    ∀ c ∈ llmAgentFree sessions agent, c.Vouched firstLine flags hosts named := by
  intro c hc
  obtain ⟨⟨client, i⟩, hentry, hcontact⟩ := List.mem_filterMap.1 hc
  obtain ⟨m, hm, rfl⟩ := Option.map_eq_some_iff.1 hcontact
  have hmem : client ∈ agent := List.fst_mem_of_mem_zipIdx (List.mem_filter.1 hentry).1
  exact h m (hm ▸ hmem)

/-- The settings of the server are sound. -/
theorem sound_defaults {setup : ConversationSetup} (hserved : Served firstLine flags setup) :
    setup.defaults.Sound firstLine flags hosts named :=
  ⟨.inl (.inl hserved.endpoint), fun server hserver => .inl (.inr (hserved.servers server hserver))⟩

/-- **An update keeps them sound**: what it names together stays together. -/
theorem sound_connApplyPatch {setup : ConversationSetup} (hserved : Served firstLine flags setup)
    (aec : Bool) (patch : Patch) (conn : Connection)
    (hendpoint : (patch.llmUrl, patch.llmKey) ∈ named)
    (hservers : ∀ server ∈ patch.mcp, (server.url, server.apiKey) ∈ named) :
    (connApplyPatch setup aec patch conn).conn.client.Sound firstLine flags setup.llmHosts named := by
  constructor
  · rcases connApplyPatch_endpoint setup aec patch conn rfl with ⟨hurl, hkey⟩ | ⟨hurl, hkey, hhost⟩
    · rw [hurl, hkey]
      exact .inl (.inl hserved.endpoint)
    · rw [hurl, hkey]
      exact .inr ⟨hendpoint, hhost⟩
  · intro server hserver
    rcases connApplyPatch_mcp setup aec patch conn hserver with hown | ⟨hpatch, hhost⟩
    · exact .inl (.inr (hserved.servers server hown))
    · exact .inr ⟨hservers server hpatch, hhost⟩

/-- **A move keeps a connection sound, and its contacts are.** -/
theorem sound_move {setup : ConversationSetup} (hserved : Served firstLine flags setup) {t : Talk}
    (h : t.Sound firstLine flags setup.llmHosts named) {id : ℕ} (m : Move)
    (hnamed : ∀ pair ∈ (Step.move id m).named, pair ∈ named) :
    (t.move opens setup m).1.Sound firstLine flags setup.llmHosts named ∧
      ∀ c ∈ (t.move opens setup m).2, c.Vouched firstLine flags setup.llmHosts named := by
  cases m with
  | update aec patch =>
    refine ⟨{ h with settings := ?_ }, fun c hc => by simp [Talk.move] at hc⟩
    refine sound_connApplyPatch hserved aec patch t.conn (hnamed _ (List.mem_cons_self ..)) ?_
    exact fun server hserver => hnamed _ (List.mem_cons_of_mem _ (List.mem_map_of_mem hserver))
  | answer =>
    refine ⟨{ h with client := fun client hclient => ?_ }, fun c hc => by simp [Talk.move] at hc⟩
    obtain rfl := Option.some.inj hclient
    exact h.settings
  | endpoint =>
    simp only [Talk.move]
    cases hclient : t.client with
    | none => exact ⟨h, fun c hc => by simp at hc⟩
    | some client =>
      exact ⟨⟨h.settings, fun c hc => h.client c (hclient.trans hc),
        vouched_llmClientSetParams opens (h.client client hclient).1 h.llm, h.agent⟩,
        fun c hc => by simp at hc⟩
  | agent sessions =>
    simp only [Talk.move]
    cases hclient : t.client with
    | none => exact ⟨h, fun c hc => by simp at hc⟩
    | some client =>
      dsimp only
      split_ifs with hsame
      · exact ⟨h, fun c hc => by simp at hc⟩
      · have hnew : ∀ server ∈ agentServersOf client,
            Cleared firstLine flags setup.llmHosts named server.url server.apiKey := by
          intro server hserver
          obtain ⟨known, hknown, rfl⟩ := List.mem_map.1 hserver
          exact (h.client client hclient).2 known hknown
        refine ⟨⟨h.settings, fun c hc => h.client c (hclient.trans hc), h.llm,
          fun agent hagent c hc => ?_⟩,
          vouched_llmAgentFree fun c hc => ?_⟩
        · obtain rfl := Option.some.inj hagent
          exact vouched_llmAgentNew opens hnew c hc
        · cases hagent : t.agent with
          | none => simp [hagent] at hc
          | some agent =>
            rw [hagent] at hc
            exact h.agent agent hagent c hc
  | offer tools =>
    simp only [Talk.move]
    cases hclient : t.client with
    | none => exact ⟨h, fun c hc => by simp at hc⟩
    | some client =>
      exact ⟨⟨h.settings, fun c hc => h.client c (hclient.trans hc),
        vouched_llmClientSetParams opens (h.client client hclient).1 h.llm, h.agent⟩,
        fun c hc => by simp at hc⟩
  | ask =>
    refine ⟨h, fun c hc => ?_⟩
    obtain ⟨client, hclient, rfl⟩ := Option.map_eq_some_iff.1 (Option.mem_toList.1 hc)
    exact h.llm client hclient
  | ownTools =>
    simp only [Talk.move]
    cases hclient : t.client with
    | none => exact ⟨h, fun c hc => by simp at hc⟩
    | some client => exact ⟨h, vouched_contactOf opens (h.client client hclient).1⟩
  | tool i =>
    refine ⟨h, fun c hc => ?_⟩
    obtain ⟨client, hclient, rfl⟩ := Option.map_eq_some_iff.1 (Option.mem_toList.1 hc)
    cases hagent : t.agent with
    | none => simp [hagent] at hclient
    | some agent =>
      rw [hagent] at hclient
      exact h.agent agent hagent client (List.mem_of_getElem? (Option.join_eq_some_iff.1 hclient))
  | close sessions =>
    refine ⟨⟨h.settings, ?_, ?_, ?_⟩, vouched_llmAgentFree fun c hc => ?_⟩
    · exact fun _ hnone => absurd hnone (by simp [Talk.move])
    · exact fun _ hnone => absurd hnone (by simp [Talk.move])
    · exact fun _ hnone => absurd hnone (by simp [Talk.move])
    cases hagent : t.agent with
    | none => simp [hagent] at hc
    | some agent =>
      rw [hagent] at hc
      exact h.agent agent hagent c hc

/-- The endpoint of a body: a URL that leads somewhere comes with its key. -/
theorem cleared_bodyEndpoint {setup : ConversationSetup} (hserved : Served firstLine flags setup)
    {body : Bytes} (hnamed : (bodyText body "url", bodyText body "key") ∈ named)
    (hhost : hostAllowed setup.llmHosts (bodyEndpoint setup body).baseUrl = true) :
    ∀ c ∈ contactOf opens (bodyEndpoint setup body).baseUrl (bodyEndpoint setup body).apiKey,
      c.Vouched firstLine flags setup.llmHosts named := by
  by_cases hfixed : setup.llmFixed = true
  · refine vouched_contactOf opens (.inl (.inl ?_))
    rw [bodyEndpoint, if_pos hfixed]
    exact hserved.endpoint
  · obtain ⟨hurl, hkey⟩ := hserved.free (by simpa using hfixed)
    have hbase : (bodyEndpoint setup body).baseUrl = bodyText body "url" := by
      rw [bodyEndpoint, if_neg hfixed]
      show textOr setup.defaults.llm.baseUrl _ = _
      rw [hurl, textOr]
      split_ifs with hnone
      · exact hnone.symm
      · rfl
    have hapi : (bodyEndpoint setup body).apiKey = bodyText body "key" := by
      rw [bodyEndpoint, if_neg hfixed]
      show textOr setup.defaults.llm.apiKey _ = _
      rw [hkey, textOr]
      split_ifs with hnone
      · exact hnone.symm
      · rfl
    rw [hbase] at hhost ⊢
    rw [hapi]
    exact vouched_contactOf opens (.inr ⟨hnamed, hhost⟩)

theorem vouched_modelsRoute {setup : ConversationSetup} (hserved : Served firstLine flags setup)
    {body : Bytes} (hnamed : (bodyText body "url", bodyText body "key") ∈ named) :
    ∀ c ∈ modelsRoute opens setup body, c.Vouched firstLine flags setup.llmHosts named := by
  intro c hc
  unfold modelsRoute at hc
  dsimp only at hc
  split_ifs at hc with hfixed hhost
  · simp at hc
  · exact cleared_bodyEndpoint opens hserved hnamed hhost c hc
  · simp at hc

theorem vouched_toolsRoute {setup : ConversationSetup} (hserved : Served firstLine flags setup)
    {sessions : ℕ → Bool} {body : Bytes} (hnamed : (bodyText body "url", bodyText body "key") ∈ named)
    (hpairs : ∀ pair ∈ bodyPairs body, pair ∈ named) :
    ∀ c ∈ toolsRoute opens setup sessions body, c.Vouched firstLine flags setup.llmHosts named := by
  intro c hc
  unfold toolsRoute at hc
  dsimp only at hc
  split_ifs at hc with hallowed
  · rw [Bool.and_eq_true, List.all_eq_true] at hallowed
    obtain ⟨hhost, hservers⟩ := hallowed
    have hnew : ∀ server ∈ listedServers setup body,
        Cleared firstLine flags setup.llmHosts named server.url server.apiKey := by
      intro server hserver
      rcases List.mem_append.1 hserver with hown | hbody
      · exact .inl (.inr (hserved.servers server hown))
      · refine .inr ⟨?_, hservers server hserver⟩
        split_ifs at hbody
        · simp at hbody
        · obtain ⟨pair, hpair, rfl⟩ := List.mem_map.1 hbody
          exact hpairs pair hpair
    have hclients := vouched_llmAgentNew opens hnew
    rcases List.mem_append.1 hc with hc | hc
    · rcases List.mem_append.1 hc with hc | hc
      · obtain ⟨client, hclient, hcontact⟩ := List.mem_filterMap.1 hc
        obtain ⟨m, rfl, rfl⟩ := Option.map_eq_some_iff.1 hcontact
        exact hclients m hclient
      · exact cleared_bodyEndpoint opens hserved hnamed hhost c hc
    · exact vouched_llmAgentFree hclients c hc
  · simp at hc

/-- **A step keeps every connection sound, and its contacts are.** -/
theorem sound_step {setup : ConversationSetup} (hserved : Served firstLine flags setup)
    {talks : Talks} (h : ∀ id t, talks id = some t → t.Sound firstLine flags setup.llmHosts named)
    (s : Step) (hnamed : ∀ pair ∈ s.named, pair ∈ named) :
    (∀ id t, (step opens setup talks s).1 id = some t →
        t.Sound firstLine flags setup.llmHosts named) ∧
      ∀ c ∈ (step opens setup talks s).2, c.Vouched firstLine flags setup.llmHosts named := by
  have hupdate : ∀ (id : ℕ) (t : Talk), t.Sound firstLine flags setup.llmHosts named →
      ∀ id' t', Function.update talks id (some t) id' = some t' →
        t'.Sound firstLine flags setup.llmHosts named := by
    intro id t ht id' t' ht'
    by_cases hid : id' = id
    · subst hid
      rw [Function.update_self] at ht'
      obtain rfl := Option.some.inj ht'
      exact ht
    · rw [Function.update_of_ne hid] at ht'
      exact h id' t' ht'
  cases s with
  | opens id =>
    refine ⟨hupdate id _ ⟨sound_defaults hserved, ?_, ?_, ?_⟩, fun c hc => by simp [step] at hc⟩
    · exact fun _ hnone => by simp at hnone
    · exact fun _ hnone => by simp at hnone
    · exact fun _ hnone => by simp at hnone
  | move id m =>
    simp only [step]
    cases ht : talks id with
    | none => exact ⟨h, fun c hc => by simp at hc⟩
    | some t =>
      obtain ⟨hmoved, hcontacts⟩ := sound_move opens hserved (h id t ht) m hnamed
      exact ⟨hupdate id _ hmoved, hcontacts⟩
  | models body => exact ⟨h, vouched_modelsRoute opens hserved (hnamed _ (List.mem_singleton_self _))⟩
  | tools sessions body =>
    exact ⟨h, vouched_toolsRoute opens hserved (hnamed _ (List.mem_cons_self ..))
      fun pair hpair => hnamed pair (List.mem_cons_of_mem _ hpair)⟩

theorem vouched_run {setup : ConversationSetup} (hserved : Served firstLine flags setup)
    {steps : List Step} (hnamed : ∀ s ∈ steps, ∀ pair ∈ s.named, pair ∈ named) {talks : Talks}
    (h : ∀ id t, talks id = some t → t.Sound firstLine flags setup.llmHosts named) :
    ∀ c ∈ run opens setup talks steps, c.Vouched firstLine flags setup.llmHosts named := by
  induction steps generalizing talks with
  | nil => exact fun c hc => by simp [run] at hc
  | cons s steps ih =>
    obtain ⟨hnext, hcontacts⟩ := sound_step opens hserved h s
      (hnamed s (List.mem_cons_self ..))
    intro c hc
    rcases List.mem_append.1 hc with hc | hc
    · exact hcontacts c hc
    · exact ih (fun s hs => hnamed s (List.mem_cons_of_mem _ hs)) hnext c hc

end Vouched

/-- **A key only goes where it was given to.**  Whatever the arguments of the server, in any run of
updates, answers and requests of any connections: what is contacted is the scheme and the authority
`url_host` reads in the URL; a key is sent to a URL that the command line gave it for or that one
message named with it; and with a list of hosts, the host of a URL the server does not own is in
it. -/
theorem contacts_vouched (firstLine : Bytes → Option Bytes) {tts : TtsRequest} {args : List Bytes}
    {flags : List Flag} {setup : ConversationSetup} (hflags : readFlags args = some flags)
    (hsetup : commandLine firstLine tts args = some setup) (steps : List Step) :
    ∀ c ∈ run opens setup (fun _ => none) steps,
      (∃ scheme, c.host = scheme ++ ascii "://" ++ urlHost c.url) ∧
      (c.key ≠ [] → Own firstLine flags c.url c.key ∨ ∃ s ∈ steps, (c.url, c.key) ∈ s.named) ∧
      (setup.llmHosts ≠ [] → Own firstLine flags c.url c.key ∨
        urlHost c.url ∈ setup.llmHosts.map urlHost) := by
  have htaken : takeFlags firstLine tts flags = some setup := by
    unfold commandLine at hsetup
    split_ifs at hsetup with hargs
    rw [hflags] at hsetup
    exact hsetup
  intro c hc
  have hnamed : ∀ s ∈ steps, ∀ pair ∈ s.named, pair ∈ steps.flatMap Step.named :=
    fun s hs pair hpair => List.mem_flatMap.2 ⟨s, hs, hpair⟩
  obtain ⟨hcleared, path, hsplit⟩ :=
    vouched_run opens (served_of_takeFlags htaken) hnamed (fun id t ht => by simp at ht) c hc
  refine ⟨(host_of_httpSplitUrl hsplit).1, fun _ => ?_, fun hne => ?_⟩
  · rcases hcleared with hown | ⟨hnamed, -⟩
    · exact .inl hown
    · exact .inr (List.mem_flatMap.1 hnamed)
  · rcases hcleared with hown | ⟨-, hhost⟩
    · exact .inl hown
    · exact .inr (mem_of_hostAllowed hhost hne)

end Run

/-! ### One run -/

/-- A server with a list of one host. -/
def listedHost : List Bytes := [ascii "--llm-host", ascii "http://one"]

/-- A client that names an endpoint, its key, and asks it. -/
def oneClient : List Step :=
  [.opens 0, .move 0 (.update false { llmUrl := ascii "http://one/v1", llmKey := ascii "key" }),
    .move 0 .answer, .move 0 .endpoint, .move 0 .ask]

/-- The key goes to the host it was named with. -/
theorem contacts_vouched_listed : ∃ setup,
    commandLine (fun _ => none) {} listedHost = some setup ∧
      run (fun _ => true) setup (fun _ => none) oneClient =
        [⟨ascii "http://one/v1", ascii "http://one", ascii "key"⟩] ∧
      urlHost (ascii "http://one/v1") ∈ setup.llmHosts.map urlHost := by
  have hflags : readFlags listedHost = some [.llmHost (ascii "http://one")] := rfl
  have hsetup : commandLine (fun _ => none) {} listedHost =
      some { llmHosts := [ascii "http://one"] } := rfl
  refine ⟨{ llmHosts := [ascii "http://one"] }, hsetup, by rfl, ?_⟩
  have hvouched := contacts_vouched (fun _ => true) (fun _ => none) hflags hsetup oneClient
    ⟨ascii "http://one/v1", ascii "http://one", ascii "key"⟩ (List.mem_singleton_self _)
  rcases hvouched.2.2 (by simp) with hown | hhost
  · rcases hown with ⟨hurl, -⟩ | ⟨before, after, heq, -⟩
    · exact absurd hurl (by decide)
    · cases before with
      | nil => simp at heq
      | cons flag before => simp at heq
  · exact hhost

end Update
end S2S
