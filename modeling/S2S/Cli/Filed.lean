/-
# What is filed of an answer

What the context of `src/tools/s2s-cli.cpp` has of the frames it took (`Near`),
and of the answers it closed (`Filed`): how much of each was heard, and its line
in the list.

An answer is to be opened on a silent loudspeaker.  Where the frame of its start
comes, whatever was queued of the one before has to be dropped; that the frames
come in that order (`Playable`) is for the engine to see to.
-/

import S2S.Cli.Account
import S2S.Conversation.Notes

namespace S2S
namespace Cli

open Json Agent Thread Conversation Client

variable {F : Type}

/-! ### The frames -/

/-- An answer is opened only where no other one sounds. -/
def Playable (frames : List (Frame F)) : Prop :=
  ∀ before after, frames = before ++ .created :: after → earOf before ≠ .hearing true

/-- **What the context has of the frames**: an answer in flight is heard, and sounds once something
of it was queued. -/
def Near (fs : List (Frame F)) (context : Context) : Prop :=
  context.answering = true →
    ∃ sounding, earOf fs = .hearing sounding ∧ (context.queued ≠ 0 → sounding = true)

section Near

variable {fs : List (Frame F)} {f : Frame F} {e : ServerEvent F} {decoded : List F}
  {context context' : Context}

theorem Near.same (h : Near fs context) (hanswering : context'.answering = context.answering)
    (hqueued : context'.queued = context.queued) : Near fs context' := by
  unfold Near
  rw [hanswering, hqueued]
  exact h

theorem near_of_shut (h : context.answering = false) : Near fs context := fun hanswering => by
  simp [h] at hanswering

/-- A frame that neither opens an answer nor ends one. -/
theorem Near.snoc (h : Near fs context) (harrives : arrives f decoded = some e) (hends : ¬Ends e)
    (hcreated : e ≠ .created) : Near (fs ++ [f]) context := by
  intro hanswering
  obtain ⟨sounding, hear, hqueued⟩ := h hanswering
  rw [earOf_snoc, hear]
  cases f with
  | speechStarted =>
    cases harrives
    exact absurd trivial hends
  | cancelled =>
    cases harrives
    exact absurd trivial hends
  | created =>
    cases harrives
    exact absurd rfl hcreated
  | audio pcm => exact ⟨true, rfl, fun _ => rfl⟩
  | spoken unit textEnd => exact ⟨true, rfl, fun _ => rfl⟩
  | _ => exact ⟨sounding, rfl, hqueued⟩

theorem near_created (harrives : arrives f decoded = some .created) (hqueued : context.queued = 0) :
    Near (fs ++ [f]) context := by
  intro _
  rw [earOf_snoc]
  cases f with
  | created => exact ⟨false, rfl, fun hsome => absurd hqueued hsome⟩
  | audio pcm =>
    simp only [arrives] at harrives
    split_ifs at harrives
    cases harrives
  | _ => cases harrives

theorem near_audio {pcm : Option (List F)} (h : Near fs context)
    (harrives : arrives f decoded = some (.audio pcm))
    (hanswering : context'.answering = context.answering) : Near (fs ++ [f]) context' := by
  intro hopen
  obtain ⟨sounding, hear, -⟩ := h (hanswering ▸ hopen)
  rw [earOf_snoc, hear]
  cases f with
  | audio pcm => exact ⟨true, rfl, fun _ => rfl⟩
  | _ => cases harrives

end Near

/-! ### The answers closed -/

/-- What the list has of the assistant. -/
def assistants (history : List HistoryMessage) : List Bytes :=
  (history.filter fun message => message.role == ascii "assistant").map HistoryMessage.content

@[simp] theorem assistants_append (history more : List HistoryMessage) :
    assistants (history ++ more) = assistants history ++ assistants more := by
  rw [assistants, List.filter_append, List.map_append]
  rfl

/-- A transcript leaves the lines of the assistant alone. -/
theorem assistants_user (context : Context) (item transcript : Bytes) :
    assistants (context.user item transcript).history = assistants context.history := by
  have huser : ∀ message : HistoryMessage, message.role = ascii "user" →
      assistants [message] = [] := fun message hrole => by
    have hother : (ascii "user" == ascii "assistant") = false := by decide
    simp [assistants, hrole, hother]
  unfold Context.user
  dsimp only
  split_ifs with hrevised
  · rcases List.eq_nil_or_concat context.history with hnil | ⟨history, last, hlast⟩
    · simp [hnil]
    · rw [List.concat_eq_append] at hlast
      have hrole : (¬item = [] ∧ item = context.userItem) ∧ last.role = ascii "user" := by
        simpa [hlast] using hrevised
      simp [hlast, huser last hrole.2, huser { last with content := transcript } hrole.2]
  · rw [assistants_append, huser _ rfl, List.append_nil]

/-- A close files its line, if there is one. -/
theorem assistants_closed (context : Context) (heard : ℕ) :
    assistants (context.closed heard).history = assistants context.history ++
      [lineOf context.units (heard - context.heardBase)].filter fun line => !line.isEmpty := by
  unfold Context.closed
  dsimp only
  split_ifs with hempty
  · simp [hempty]
  · simp [assistants, hempty]

namespace Closing

/-- The line of the assistant that is filed, nothing where nothing was heard. -/
def line (k : Closing) : Bytes := lineOf k.units k.heard

/-- **What an answer that was closed says**: it was heard as far as it was played, it was queued as
far as the loudspeaker was given it, and one that was over was heard to its end. -/
structure Heard (k : Closing) (d : Desk F) : Prop where
  heard : k.heard = (ofAnswer k.answer d.air).length
  queued : k.queued = (ofAnswer k.answer d.given).length
  ended : k.ended = true → k.heard = k.queued

end Closing

/-- The lines that are filed. -/
def linesOf (closings : List Closing) : List Bytes :=
  (closings.map Closing.line).filter fun line => !line.isEmpty

/-- **The answers closed.** -/
structure Filed (d : Desk F) : Prop where
  heard : ∀ k ∈ d.closings, k.Heard d
  earlier : ∀ k ∈ d.closings, k.answer ≤ d.answer
  before : d.context.answering = true → ∀ k ∈ d.closings, k.answer < d.answer
  lines : assistants d.context.history = linesOf d.closings

section Filed

variable {s s' : Air F} {w w' : Hand F} {d d' : Desk F}

theorem Filed.same (h : Filed d) (hclosings : d'.closings = d.closings)
    (hanswer : d'.answer = d.answer) (hair : d'.air = d.air) (hgiven : d'.given = d.given)
    (hanswering : d'.context.answering = d.context.answering)
    (hlines : assistants d'.context.history = assistants d.context.history) : Filed d' := by
  refine ⟨?_, ?_, ?_, ?_⟩
  · rw [hclosings]
    intro k hk
    obtain ⟨hheard, hqueued, hended⟩ := h.heard k hk
    exact ⟨hair ▸ hheard, hgiven ▸ hqueued, hended⟩
  · rw [hclosings, hanswer]
    exact h.earlier
  · rw [hclosings, hanswer, hanswering]
    exact h.before
  · rw [hlines, hclosings]
    exact h.lines

/-- An answer is opened. -/
theorem Filed.opens (h : Filed d) {heard consumed : ℕ} :
    Filed { d with context := d.context.opened heard consumed, answer := d.answer + 1 } where
  heard k hk := by
    obtain ⟨hheard, hqueued, hended⟩ := h.heard k hk
    exact ⟨hheard, hqueued, hended⟩
  earlier k hk := Nat.le_succ_of_le (h.earlier k hk)
  before _ k hk := Nat.lt_succ_of_le (h.earlier k hk)
  lines := h.lines

/-- Samples of the answer in flight are of none that was closed. -/
theorem Filed.more (h : Filed d) (hanswering : d.context.answering = true) (xs ys : List (ℕ × F))
    (hxs : ∀ p ∈ xs, p.1 = d.answer) (hys : ∀ p ∈ ys, p.1 = d.answer)
    (hair : d'.air = d.air ++ xs) (hgiven : d'.given = d.given ++ ys)
    (hclosings : d'.closings = d.closings) (hanswer : d'.answer = d.answer)
    (hcontext : d'.context = d.context) : Filed d' := by
  refine ⟨?_, ?_, ?_, ?_⟩
  · rw [hclosings]
    intro k hk
    obtain ⟨hheard, hqueued, hended⟩ := h.heard k hk
    have hbefore := h.before hanswering k hk
    have hplayed : ofAnswer k.answer xs = [] := ofAnswer_eq_nil fun p hp heq => by
      have := hxs p hp
      omega
    have hfed : ofAnswer k.answer ys = [] := ofAnswer_eq_nil fun p hp heq => by
      have := hys p hp
      omega
    refine ⟨?_, ?_, hended⟩
    · rw [hair, ofAnswer_append, hplayed, List.append_nil]
      exact hheard
    · rw [hgiven, ofAnswer_append, hfed, List.append_nil]
      exact hqueued
  · rw [hclosings, hanswer]
    exact h.earlier
  · rw [hclosings, hanswer, hcontext]
    exact h.before
  · rw [hcontext, hclosings]
    exact h.lines

/-- A step of the callback plays nothing of an answer that was closed. -/
theorem Filed.air (h : Filed d) (hplays : Plays s d) (haccounts : Accounts s w d)
    (hmove : s.Move d s' d') : Filed d' := by
  cases hmove with
  | @commit _ n xs periods =>
    obtain ⟨hsome, -, -⟩ := hplays.chunk n xs rfl
    obtain ⟨rest, hcontents, -⟩ := hplays.taken
    have htags := haccounts.tags
    rw [hcontents] at htags
    have hanswering := haccounts.answering (by rw [hcontents]; simp [hsome])
    exact h.more hanswering xs [] (fun p hp => htags p (List.mem_append_left _ hp)) (by simp)
      rfl (List.append_nil _).symm rfl rfl rfl
  | _ => exact h.same rfl rfl rfl rfl rfl rfl

/-- **A close files what was heard.** -/
theorem Filed.close (h : Filed d) (hplays : Plays s d) (haccounts : Accounts s w d)
    (hquiet : Quiet s d) (hanswering : d.context.answering = true) (hfilled : w.filled = 0)
    {ended : Bool} (hended : ended = true → ¬w.Ending) : Filed (d.close d.heard ended) := by
  have hall := hquiet.heard hplays
  have hheard := haccounts.heard hanswering
  have hgiven := haccounts.given hanswering
  have hmine : d.heard - d.context.heardBase = (ofAnswer d.answer d.air).length := by omega
  refine ⟨?_, ?_, ?_, ?_⟩
  · intro k hk
    rcases List.mem_append.1 hk with hin | hin
    · obtain ⟨hheard, hqueued, hended⟩ := h.heard k hin
      exact ⟨hheard, hqueued, hended⟩
    · obtain rfl := List.mem_singleton.1 hin
      refine ⟨hmine, ?_, fun hend => ?_⟩
      · show d.context.queued = (ofAnswer d.answer d.given).length
        omega
      · have hwhole := haccounts.whole (.inr ⟨hanswering, hended hend⟩)
        rw [hquiet.contents, List.append_nil] at hwhole
        show d.heard - d.context.heardBase = d.context.queued
        rw [hmine, hwhole]
        omega
  · intro k hk
    rcases List.mem_append.1 hk with hin | hin
    · exact h.earlier k hin
    · obtain rfl := List.mem_singleton.1 hin
      exact Nat.le_refl _
  · intro hopen
    cases hopen
  · show assistants (d.context.closed d.heard).history = linesOf (d.closings ++ [_])
    rw [assistants_closed, h.lines, linesOf, linesOf, List.map_append, List.filter_append]
    rfl

end Filed

end Cli
end S2S
