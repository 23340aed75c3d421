/-
# What the list of a turn keeps

`conn_answer` of `src/s2s-conversation.cpp` makes the list a turn starts from
out of the history of the client and the transcript (`turnMessages`), one
message after the other through `llm_push`.  Here is what comes out, whatever
the history: each message is a run of lines in order, user lines joined by
single spaces and every other line alone (`Joins`), no two user messages stand
in a row, and the last one ends with the transcript.
-/

import S2S.Agent.Messages

namespace S2S
namespace Agent

open Json Http Llm

/-- The role of a user. -/
abbrev user : Bytes := ascii "user"

/-- A message of a request and the lines it is made of: one line, or a run of user lines joined by
single spaces. -/
structure Joins (lines : List HistoryMessage) (m : Message) : Prop where
  roles : ∀ line ∈ lines, line.role = m.role
  content : m.content = [0x20].intercalate (lines.map HistoryMessage.content)
  some : lines ≠ []
  alone : m.role ≠ user → ∃ line, lines = [line]
  plain : m.toolCalls = [] ∧ m.toolCallId = []

/-- The lines a list of messages is made of, in order and none missing. -/
def Joined (lines : List HistoryMessage) (messages : List Message) : Prop :=
  ∃ runs : List (List HistoryMessage × Message), runs.map Prod.snd = messages ∧
    (runs.map Prod.fst).flatten = lines ∧ ∀ run ∈ runs, Joins run.1 run.2

/-- No two user messages in a row. -/
def Alternate (messages : List Message) : Prop :=
  messages.IsChain fun a b => ¬(a.role = user ∧ b.role = user)

/-- A line as the request writes it. -/
def HistoryMessage.message (line : HistoryMessage) : Message := ⟨line.role, line.content, [], []⟩

/-- A text more at the end of texts joined by single spaces. -/
theorem intercalate_snoc {texts : List Bytes} (h : texts ≠ []) (text : Bytes) :
    [0x20].intercalate (texts ++ [text]) = [0x20].intercalate texts ++ 0x20 :: text := by
  induction texts with
  | nil => exact absurd rfl h
  | cons first texts ih =>
    by_cases hrest : texts = []
    · subst hrest
      simp
    · rw [List.cons_append, List.intercalate_cons_of_ne_nil (by simp), ih hrest,
        List.intercalate_cons_of_ne_nil hrest]
      simp

theorem Joins.single (line : HistoryMessage) : Joins [line] line.message where
  roles := fun line' hline => by rw [List.mem_singleton.1 hline]; rfl
  content := by simp [HistoryMessage.message]
  some := by simp
  alone := fun _ => ⟨line, rfl⟩
  plain := ⟨rfl, rfl⟩

/-- A user line joins a run of user lines. -/
theorem Joins.snoc {lines : List HistoryMessage} {m : Message} {line : HistoryMessage}
    (h : Joins lines m) (hm : m.role = user) (hline : line.role = user) :
    Joins (lines ++ [line]) { m with content := m.content ++ 0x20 :: line.content } where
  roles := fun line' hmem => by
    rcases List.mem_append.1 hmem with hmem | hmem
    · exact h.roles line' hmem
    · rw [List.mem_singleton.1 hmem, hline, hm]
  content := by
    show m.content ++ _ = _
    rw [h.content, List.map_append, List.map_singleton, intercalate_snoc (by simpa using h.some)]
  some := by simp
  alone := fun hrole => absurd hm hrole
  plain := h.plain

section Push

variable {lines : List HistoryMessage} {messages : List Message} {line : HistoryMessage}

theorem llmPush_apart {m : Message}
    (h : ∀ last, messages.getLast? = some last → ¬(m.role = user ∧ last.role = user)) :
    llmPush messages m = messages ++ [m] := by
  unfold llmPush
  split
  · rename_i last hlast
    rw [if_neg (h last hlast)]
  · rfl

theorem llmPush_joined {m last : Message} (hm : m.role = user) (hlast : last.role = user) :
    llmPush (messages ++ [last]) m =
      messages ++ [{ last with content := last.content ++ 0x20 :: m.content }] := by
  unfold llmPush
  rw [List.getLast?_append, List.getLast?_singleton, Option.some_or]
  simp only [List.dropLast_concat, hm, hlast, and_self, if_pos]

/-- **A line more**: it ends the last run, or begins one of its own. -/
theorem Joined.push (h : Joined lines messages) (line : HistoryMessage) :
    Joined (lines ++ [line]) (llmPush messages line.message) := by
  obtain ⟨runs, rfl, rfl, hruns⟩ := h
  by_cases hjoin : line.role = user ∧ ∃ front run, runs = front ++ [run] ∧ run.2.role = user
  · obtain ⟨hline, front, run, rfl, hrun⟩ := hjoin
    have hlast := hruns run (by simp)
    refine ⟨front ++ [(run.1 ++ [line],
      { run.2 with content := run.2.content ++ 0x20 :: line.content })], ?_, ?_, ?_⟩
    · rw [List.map_append, List.map_append, List.map_singleton, List.map_singleton,
        llmPush_joined hline hrun]
      rfl
    · simp
    · intro run' hmem
      rcases List.mem_append.1 hmem with hmem | hmem
      · exact hruns run' (List.mem_append_left _ hmem)
      · rw [List.mem_singleton.1 hmem]
        exact hlast.snoc hrun hline
  · refine ⟨runs ++ [([line], line.message)], ?_, ?_, ?_⟩
    · rw [llmPush_apart fun last hlast hroles => hjoin ⟨hroles.1, ?_⟩]
      · simp
      · rw [List.getLast?_map] at hlast
        obtain ⟨run, hrun, rfl⟩ := Option.map_eq_some_iff.1 hlast
        obtain ⟨front, rfl⟩ := List.getLast?_eq_some_iff.1 hrun
        exact ⟨front, run, rfl, hroles.2⟩
    · simp
    · intro run hmem
      rcases List.mem_append.1 hmem with hmem | hmem
      · exact hruns run hmem
      · rw [List.mem_singleton.1 hmem]
        exact .single line

theorem Alternate.push (h : Alternate messages) (m : Message) : Alternate (llmPush messages m) := by
  by_cases hjoin : m.role = user ∧ ∃ front last, messages = front ++ [last] ∧ last.role = user
  · obtain ⟨hm, front, last, rfl, hlast⟩ := hjoin
    rw [llmPush_joined hm hlast]
    unfold Alternate at h ⊢
    rw [List.isChain_append] at h ⊢
    simpa using h
  · have hapart : ∀ last, messages.getLast? = some last → ¬(m.role = user ∧ last.role = user) := by
      rintro last hlast ⟨hm, hrole⟩
      obtain ⟨front, rfl⟩ := List.getLast?_eq_some_iff.1 hlast
      exact hjoin ⟨hm, front, last, rfl, hrole⟩
    rw [llmPush_apart hapart]
    refine List.isChain_append.2 ⟨h, by simp, ?_⟩
    intro last hlast next hnext
    obtain rfl : next = m := by simpa [eq_comm] using hnext
    exact fun hroles => hapart last hlast ⟨hroles.2, hroles.1⟩

/-- What stands before a list stays there, unless it ends with a user message. -/
theorem llmPush_append {front : List Message} (h : ∀ m ∈ front, m.role ≠ user) (m : Message) :
    llmPush (front ++ messages) m = front ++ llmPush messages m := by
  rcases List.eq_nil_or_concat' messages with rfl | ⟨messages, last, rfl⟩
  · rw [List.append_nil, llmPush_apart fun last hlast hroles =>
      h last (List.mem_of_getLast? hlast) hroles.2]
    rfl
  · by_cases hjoin : m.role = user ∧ last.role = user
    · rw [← List.append_assoc, llmPush_joined hjoin.1 hjoin.2, llmPush_joined hjoin.1 hjoin.2,
        List.append_assoc]
    · have hlast : ∀ front : List Message, ∀ last', (front ++ [last]).getLast? = some last' →
          ¬(m.role = user ∧ last'.role = user) := by
        intro front last' hlast'
        obtain rfl : last = last' := by simpa using hlast'
        exact hjoin
      rw [← List.append_assoc, llmPush_apart (hlast _), llmPush_apart (hlast _)]
      simp

/-- A user message that was pushed ends the list. -/
theorem getLast?_llmPush {m : Message} (hm : m.role = user) :
    ∃ last, (llmPush messages m).getLast? = some last ∧ last.role = user ∧
      m.content <:+ last.content := by
  by_cases hjoin : ∃ front last, messages = front ++ [last] ∧ last.role = user
  · obtain ⟨front, last, rfl, hlast⟩ := hjoin
    rw [llmPush_joined hm hlast]
    exact ⟨_, List.getLast?_concat, hlast, last.content ++ [0x20], by simp⟩
  · rw [llmPush_apart fun last hlast hroles => hjoin ?_]
    · exact ⟨m, List.getLast?_concat, hm, List.suffix_rfl⟩
    · obtain ⟨front, rfl⟩ := List.getLast?_eq_some_iff.1 hlast
      exact ⟨front, last, rfl, hroles.2⟩

end Push

/-- The lines of a history that a turn reads: its own earlier revisions are not among them. -/
def past (history : List HistoryMessage) (item : Bytes) : List HistoryMessage :=
  history.filter fun m => m.role ≠ user ∨ m.item ≠ item

/-- The system prompt, when there is one. -/
def system (systemPrompt : Bytes) : List Message :=
  if systemPrompt = [] then [] else [⟨ascii "system", systemPrompt, [], []⟩]

theorem system_role {systemPrompt : Bytes} {m : Message} (h : m ∈ system systemPrompt) :
    m.role ≠ user := by
  unfold system at h
  split_ifs at h
  · simp at h
  · rw [List.mem_singleton.1 h]
    show ascii "system" ≠ user
    decide

/-- Lines through `llm_push`, one after the other, behind messages that are not the user's. -/
theorem foldl_llmPush {front messages : List Message} (h : ∀ m ∈ front, m.role ≠ user)
    {lines : List HistoryMessage} (hjoined : Joined lines messages) (halternate : Alternate messages)
    (more : List HistoryMessage) :
    ∃ built, more.foldl (fun messages m => llmPush messages ⟨m.role, m.content, [], []⟩)
        (front ++ messages) = front ++ built ∧ Joined (lines ++ more) built ∧ Alternate built := by
  induction more generalizing lines messages with
  | nil => exact ⟨messages, rfl, by simpa using hjoined, halternate⟩
  | cons line more ih =>
    rw [List.foldl_cons, llmPush_append h]
    obtain ⟨built, hbuilt, hlines, hrow⟩ := ih (hjoined.push line) (halternate.push line.message)
    exact ⟨built, hbuilt, by simpa using hlines, hrow⟩

/-- **What the list of a turn keeps.**  Behind the system prompt stand the lines of the history
without the turn's own earlier revisions and then the transcript, in order: runs of user lines
joined by single spaces, no two user messages in a row, the last one ending with the transcript. -/
theorem turnMessages_joined (systemPrompt : Bytes) (history : List HistoryMessage)
    (item transcript : Bytes) :
    ∃ built, turnMessages systemPrompt history item transcript = system systemPrompt ++ built ∧
      Joined (past history item ++ [⟨user, item, transcript⟩]) built ∧ Alternate built ∧
      ∃ last, built.getLast? = some last ∧ last.role = user ∧ transcript <:+ last.content := by
  have hsystem : ∀ m ∈ system systemPrompt, m.role ≠ user := fun m => system_role
  have hnone : Joined [] [] := ⟨[], rfl, rfl, by simp⟩
  obtain ⟨built, hbuilt, hlines, hrow⟩ :=
    foldl_llmPush hsystem hnone (by simp [Alternate]) (past history item)
  have hmessages : turnMessages systemPrompt history item transcript =
      llmPush (system systemPrompt ++ built) ⟨user, transcript, [], []⟩ := by
    rw [← hbuilt, List.append_nil]
    rfl
  refine ⟨llmPush built ⟨user, transcript, [], []⟩, ?_, hlines.push ⟨user, item, transcript⟩,
    hrow.push _, getLast?_llmPush rfl⟩
  rw [hmessages, llmPush_append hsystem]

end Agent
end S2S
