/-
# Fragments of calls

A model streams its calls in fragments, each tagged with the index of the call
it belongs to, and the receiver of `llm_client_stream` joins them in a table
(`addFragment`).  An index is meant to be read against `LLM_TOOL_CALLS_MAX`, a
fragment of any other changing nothing, but the number the endpoint writes is
narrowed to an `int` first, and one that is no 64 bit integer is passed over for
the place of the fragment (`landsOn`).  `assembled_iff` says which streams that
leaves alone: the fragments of every call are joined in the order they came,
and the agent reads the calls back, exactly when what lands on a named call
from outside the table is blank.
-/

import S2S.Agent.Enabled
import S2S.Json.Numbers
import S2S.Json.Strings
import S2S.Llm.Frames

namespace S2S
namespace Agent

open Json Http Llm

/-! ### Lists -/

section Lists

variable {α β : Type}

/-- A map that keeps more of a list leaves the same exactly when it has the same values where it
keeps them. -/
theorem filter_map_eq_iff {f g : α → β} {p : β → Bool} {l : List α}
    (h : ∀ a ∈ l, p (g a) = true → p (f a) = true) :
    (l.map f).filter p = (l.map g).filter p ↔ ∀ a ∈ l, p (f a) = true → f a = g a := by
  induction l with
  | nil => simp
  | cons a l ih =>
    obtain ⟨ha, hl⟩ := List.forall_mem_cons.1 h
    have hcount : ((l.map g).filter p).length ≤ ((l.map f).filter p).length := by
      rw [← List.countP_eq_length_filter, ← List.countP_eq_length_filter, List.countP_map,
        List.countP_map]
      exact List.countP_mono_left hl
    rw [List.forall_mem_cons, List.map_cons, List.map_cons]
    by_cases hf : p (f a) = true
    · rw [List.filter_cons_of_pos hf]
      by_cases hg : p (g a) = true
      · rw [List.filter_cons_of_pos hg, List.cons.injEq, ih hl]
        simp [hf]
      · rw [List.filter_cons_of_neg hg]
        refine iff_of_false (fun heq => ?_) fun heq => hg (heq.1 hf ▸ hf)
        have := congrArg List.length heq
        rw [List.length_cons] at this
        omega
    · have hg : ¬p (g a) = true := fun hg => hf (ha hg)
      rw [List.filter_cons_of_neg hf, List.filter_cons_of_neg hg, ih hl]
      simp [hf]

/-- What is put together of more is the same exactly when there is nothing in the rest. -/
theorem flatMap_filter_eq_iff {f : α → List β} {p q : α → Bool} {l : List α}
    (h : ∀ a ∈ l, q a = true → p a = true) :
    (l.filter p).flatMap f = (l.filter q).flatMap f ↔
      ∀ a ∈ l, p a = true → q a = false → f a = [] := by
  induction l with
  | nil => simp
  | cons a l ih =>
    obtain ⟨ha, hl⟩ := List.forall_mem_cons.1 h
    have hlength : ((l.filter q).flatMap f).length ≤ ((l.filter p).flatMap f).length := by
      have hsub : l.filter q = (l.filter p).filter q := by
        rw [List.filter_filter]
        refine List.filter_congr fun b hb => ?_
        cases hqb : q b with
        | true => rw [hl b hb hqb, Bool.and_true]
        | false => rfl
      rw [hsub]
      exact (List.filter_sublist.flatMap f).length_le
    rw [List.forall_mem_cons]
    by_cases hp : p a = true
    · rw [List.filter_cons_of_pos hp, List.flatMap_cons]
      by_cases hq : q a = true
      · rw [List.filter_cons_of_pos hq, List.flatMap_cons, List.append_cancel_left_eq, ih hl]
        simp [hq]
      · rw [List.filter_cons_of_neg hq]
        constructor
        · intro heq
          have hnil : f a = [] := by
            have := congrArg List.length heq
            rw [List.length_append] at this
            exact List.length_eq_zero_iff.1 (by omega)
          rw [hnil, List.nil_append] at heq
          exact ⟨fun _ _ => hnil, (ih hl).1 heq⟩
        · rintro ⟨hnil, hrest⟩
          rw [hnil hp (by simpa using hq), List.nil_append]
          exact (ih hl).2 hrest
    · have hq : ¬q a = true := fun hq => hp (ha hq)
      rw [List.filter_cons_of_neg hp, List.filter_cons_of_neg hq, ih hl]
      simp [hp]

end Lists

/-! ### An index -/

/-- Where an index lands: narrowed when it is a 64 bit integer, and at the place of the fragment
otherwise. -/
def landsOn (index : ℤ) (place : ℕ) : ℤ :=
  if -2 ^ 63 ≤ index ∧ index < 2 ^ 64 then Int.bmod index (2 ^ 32) else Int.bmod place (2 ^ 32)

/-- A fragment as it is written: its index, or its place where it has none, and what is read of
it. -/
structure Written where
  index : ℤ
  place : ℕ
  fragment : ToolFragment

def writtenFragment (place : ℕ) (call : Value) : Written where
  index := ((call.get (ascii "index")).bind integerOf).getD place
  place := place
  fragment := toolFragment place call

/-- **What is read of an index** is where it lands. -/
theorem index_toolFragment (place : ℕ) (call : Value) :
    (toolFragment place call).index
      = landsOn (writtenFragment place call).index place := by
  unfold toolFragment writtenFragment landsOn
  dsimp only
  cases call.get (ascii "index") with
  | none => simp
  | some v =>
    rw [Option.bind_some, Option.bind_some, intOf_eq]
    cases integerOf v with
    | none => simp
    | some i =>
      rw [Option.bind_some, Option.getD_some]
      by_cases hfits : -2 ^ 63 ≤ i ∧ i < 2 ^ 64
      · rw [if_pos hfits, if_pos hfits]
        exact Int.bmod_bmod_of_dvd (by decide)
      · rw [if_neg hfits, if_neg hfits]

/-- An index of the table lands on itself. -/
theorem landsOn_of_lt {k place : ℕ} (hk : k < 64) : landsOn k place = k := by
  unfold landsOn
  rw [if_pos (by omega)]
  exact Int.bmod_eq_of_le (by omega) (by omega)

/-! ### The table -/

/-- Fragments joined. -/
def join (fragments : List ToolFragment) : ToolCall :=
  ⟨fragments.flatMap ToolFragment.id, fragments.flatMap ToolFragment.name,
    fragments.flatMap ToolFragment.arguments⟩

/-- A call that nothing has joined. -/
def blank : ToolCall := ⟨[], [], []⟩

/-- The table after some fragments: at each index the fragments that were read there. -/
structure Table (calls : List ToolCall) (fragments : List ToolFragment) : Prop where
  length : calls.length ≤ 64
  get : ∀ k : ℕ, k < 64 → calls[k]?.getD blank = join (fragments.filter fun f => f.index = (k : ℤ))

theorem join_concat (fragments : List ToolFragment) (f : ToolFragment) :
    join (fragments ++ [f]) = ⟨(join fragments).id ++ f.id, (join fragments).name ++ f.name,
      (join fragments).arguments ++ f.arguments⟩ := by
  simp [join, List.flatMap_append]

theorem table_addFragment {calls : List ToolCall} {fragments : List ToolFragment}
    (h : Table calls fragments) (f : ToolFragment) :
    Table (addFragment calls f) (fragments ++ [f]) := by
  unfold addFragment llmToolCallsMax
  split_ifs with hout
  · refine ⟨h.length, fun k hk => ?_⟩
    have hne : ¬f.index = (k : ℤ) := by omega
    rw [h.get k hk, List.filter_append]
    simp [hne]
  · obtain ⟨i, hi⟩ : ∃ i : ℕ, f.index = i := ⟨f.index.toNat, by omega⟩
    have hi64 : i < 64 := by omega
    have hlength := h.length
    rw [hi, Int.toNat_natCast]
    dsimp only
    refine ⟨?_, fun k hk => ?_⟩
    · rw [List.length_modify, List.length_append, List.length_replicate]
      omega
    · have hgrown : (calls ++ List.replicate (i + 1 - calls.length) blank)[k]?.getD blank
          = calls[k]?.getD blank := by
        by_cases hlt : k < calls.length
        · rw [List.getElem?_append_left hlt]
        · rw [List.getElem?_append_right (not_lt.1 hlt), List.getElem?_eq_none (not_lt.1 hlt),
            List.getElem?_replicate]
          split_ifs <;> rfl
      rw [List.filter_append]
      by_cases hik : i = k
      · subst hik
        obtain ⟨call, hcall⟩ : ∃ call,
            (calls ++ List.replicate (i + 1 - calls.length) blank)[i]? = some call := by
          refine ⟨_, List.getElem?_eq_getElem ?_⟩
          rw [List.length_append, List.length_replicate]
          omega
        rw [hcall, Option.getD_some, h.get i hi64] at hgrown
        have hf : [f].filter (fun f => f.index = (i : ℤ)) = [f] := by simp [hi]
        have hsame : (calls ++ List.replicate (i + 1 - calls.length) (⟨[], [], []⟩ : ToolCall))[i]?
          = some call := hcall
        rw [hf, join_concat, List.getElem?_modify_eq, hsame, ← hgrown]
        rfl
      · have hf : [f].filter (fun f => f.index = (k : ℤ)) = [] := by
          simp [hi, hik]
        rw [hf, List.append_nil, ← h.get k hk, ← hgrown, List.getElem?_modify_ne _ _ hik]
        rfl

theorem table_foldl {calls : List ToolCall} {before : List ToolFragment} (h : Table calls before)
    (fragments : List ToolFragment) :
    Table (fragments.foldl addFragment calls) (before ++ fragments) := by
  induction fragments generalizing calls before with
  | nil => rwa [List.append_nil]
  | cons f fragments ih =>
    have := ih (table_addFragment h f)
    rwa [List.append_assoc] at this

/-- The named calls of a table are those of all its indices. -/
theorem Table.named {calls : List ToolCall} {fragments : List ToolFragment}
    (h : Table calls fragments) : (calls.filter fun call => call.name ≠ []) =
      ((List.range 64).map fun k : ℕ => join (fragments.filter fun f => f.index = (k : ℤ))).filter
        fun call => call.name ≠ [] := by
  have hall : ((List.range 64).map fun k : ℕ => join (fragments.filter fun f => f.index = (k : ℤ)))
      = calls ++ List.replicate (64 - calls.length) blank := by
    have hlength := h.length
    refine List.ext_getElem? fun k => ?_
    rw [List.getElem?_map]
    by_cases hk : k < 64
    · rw [List.getElem?_range hk, Option.map_some, ← h.get k hk]
      by_cases hlt : k < calls.length
      · rw [List.getElem?_append_left hlt, List.getElem?_eq_getElem hlt, Option.getD_some]
      · rw [List.getElem?_append_right (not_lt.1 hlt), List.getElem?_eq_none (not_lt.1 hlt),
          List.getElem?_replicate, if_pos (by omega)]
        rfl
    · rw [List.getElem?_eq_none (by rw [List.length_range]; omega), List.getElem?_eq_none
        (by rw [List.length_append, List.length_replicate]; omega)]
      rfl
  rw [hall, List.filter_append]
  have hblank : (List.replicate (64 - calls.length) blank).filter (fun call => call.name ≠ [])
      = [] := by
    refine List.filter_eq_nil_iff.2 fun call hcall => ?_
    rw [(List.mem_replicate.1 hcall).2]
    simp [blank]
  rw [hblank, List.append_nil]

/-! ### The stream -/

/-- The fragments of a frame as they are written. -/
def writtenOf (data : Bytes) : List Written :=
  match ((parse data).bind firstChoice).bind (Value.get (ascii "delta")) with
  | none => []
  | some message =>
    match message.get (ascii "tool_calls") with
    | some (.arr calls) => calls.mapIdx writtenFragment
    | _ => []

theorem tools_llmClientFrame (data : Bytes) :
    (llmClientFrame data).tools = (writtenOf data).map Written.fragment := by
  unfold llmClientFrame writtenOf
  cases parse data with
  | none => rfl
  | some root =>
    dsimp only [Option.bind_some]
    cases (firstChoice root).bind (Value.get (ascii "delta")) with
    | none => rfl
    | some message =>
      dsimp only [Option.bind_some]
      cases message.get (ascii "tool_calls") with
      | none => rfl
      | some v =>
        cases v with
        | arr calls =>
          refine List.ext_getElem? fun k => ?_
          rw [List.getElem?_map, List.getElem?_mapIdx, List.getElem?_mapIdx, Option.map_map]
          rfl
        | _ => rfl

theorem calls_takeFrames (s : Llm.Streamed) (datas : List Bytes) : (takeFrames s datas).calls =
    ((datas.flatMap writtenOf).map Written.fragment).foldl addFragment s.calls := by
  induction datas generalizing s with
  | nil => rfl
  | cons data datas ih =>
    have hstep : takeFrames s (data :: datas)
        = takeFrames (onFrame (fun _ => true) s (llmClientFrame data)).1 datas := rfl
    rw [hstep, ih, calls_onFrame, tools_llmClientFrame, List.flatMap_cons, List.map_append,
      List.foldl_append]

/-- The texts of a fragment are whole. -/
theorem whole_writtenOf {data : Bytes} {f : Written} (h : f ∈ writtenOf data) :
    validUtf8 f.fragment.id = true ∧ validUtf8 f.fragment.name = true ∧
      validUtf8 f.fragment.arguments = true := by
  unfold writtenOf at h
  split at h
  · exact absurd h List.not_mem_nil
  next message hmessage =>
  split at h
  · next calls hcalls =>
    obtain ⟨choice, hchoice, hdelta⟩ := Option.bind_eq_some_iff.1 hmessage
    obtain ⟨root, hroot, hfirst⟩ := Option.bind_eq_some_iff.1 hchoice
    have hwhole : choice.Whole := by
      unfold firstChoice at hfirst
      split at hfirst
      · next choices hchoices =>
        cases (whole_of_parse hroot).get hchoices with
        | arr hall => exact hall choice (List.mem_of_head? hfirst)
      · exact absurd hfirst (by simp)
    obtain ⟨i, hi, rfl⟩ := List.mem_mapIdx.1 h
    have hcall : calls[i].Whole := by
      cases (hwhole.get hdelta).get hcalls with
      | arr hall => exact hall _ (List.getElem_mem hi)
    have hfunction : ∀ key, validUtf8 (textOf
        ((calls[i].get (ascii "function")).bind (Value.get key))) = true := fun key =>
      Value.Whole.textOf fun v hv => by
        obtain ⟨function, hf, hv⟩ := Option.bind_eq_some_iff.1 hv
        exact (hcall.get hf).get hv
    exact ⟨hcall.text _, hfunction _, hfunction _⟩
  · exact absurd h List.not_mem_nil

theorem lands_writtenOf {data : Bytes} {f : Written} (h : f ∈ writtenOf data) :
    f.fragment.index = landsOn f.index f.place := by
  unfold writtenOf at h
  split at h
  · exact absurd h List.not_mem_nil
  split at h
  · obtain ⟨i, hi, rfl⟩ := List.mem_mapIdx.1 h
    exact index_toolFragment i _
  · exact absurd h List.not_mem_nil

/-! ### What is meant -/

/-- The calls a stream makes: at each index of the table, in its order, the fragments written for it
in the order they came, the nameless calls left out. -/
def expected (written : List Written) : List ToolCall :=
  ((List.range 64).map fun k : ℕ =>
    join ((written.filter fun f => f.index = (k : ℤ)).map Written.fragment)).filter
      fun call => call.name ≠ []

/-- **What an answer is meant to end on**: these calls, and they are what the agent reads back of
them when no text has a zero byte. -/
structure Assembled (written : List Written) (calls : List ToolCall) (json : Bytes) : Prop where
  calls : (calls.filter fun call => call.name ≠ []) = expected written
  read : (∀ call ∈ expected written,
      (0 : UInt8) ∉ call.id ∧ (0 : UInt8) ∉ call.name ∧ (0 : UInt8) ∉ call.arguments) →
    llmAgentCalls json = (expected written).map fun call => ⟨call.id, call.name, call.arguments⟩

/-- A fragment that joins nothing to its call. -/
def Blank (f : ToolFragment) : Prop := f.id = [] ∧ f.name = [] ∧ f.arguments = []

/-- Nothing written outside the table that says anything lands on a call with a name, be it its
own. -/
def WellPlaced (written : List Written) : Prop :=
  ∀ m ∈ written, ∀ f ∈ written, ¬(0 ≤ m.index ∧ m.index < 64) →
    0 ≤ landsOn m.index m.place → landsOn m.index m.place < 64 →
      landsOn f.index f.place = landsOn m.index m.place → f.fragment.name ≠ [] → Blank m.fragment

/-- Indices of the table are well placed. -/
theorem wellPlaced_of_lt {written : List Written}
    (h : ∀ f ∈ written, 0 ≤ f.index ∧ f.index < 64) : WellPlaced written :=
  fun m hm _ _ hout => absurd (h m hm) hout

theorem join_eq_iff {written : List Written} {p q : Written → Bool}
    (h : ∀ f ∈ written, q f = true → p f = true) :
    join ((written.filter p).map Written.fragment) = join ((written.filter q).map Written.fragment) ↔
      ∀ f ∈ written, p f = true → q f = false → Blank f.fragment := by
  unfold join
  simp only [List.flatMap_map, ToolCall.mk.injEq, flatMap_filter_eq_iff h]
  exact ⟨fun hall f hf hp hq => ⟨hall.1 f hf hp hq, hall.2.1 f hf hp hq, hall.2.2 f hf hp hq⟩,
    fun hall => ⟨fun f hf hp hq => (hall f hf hp hq).1, fun f hf hp hq => (hall f hf hp hq).2.1,
      fun f hf hp hq => (hall f hf hp hq).2.2⟩⟩

theorem named_join_iff {written : List Written} {p : Written → Bool} :
    (join ((written.filter p).map Written.fragment)).name ≠ [] ↔
      ∃ f ∈ written, p f = true ∧ f.fragment.name ≠ [] := by
  simp only [join, List.flatMap_map, ne_eq, List.flatMap_eq_nil_iff, List.mem_filter, not_forall,
    exists_prop, and_assoc]

/-- **When the table has the calls that are meant.** -/
theorem table_expected {written : List Written} {calls : List ToolCall}
    (hlands : ∀ f ∈ written, f.fragment.index = landsOn f.index f.place)
    (h : Table calls (written.map Written.fragment)) :
    (calls.filter fun call => call.name ≠ []) = expected written ↔ WellPlaced written := by
  have htaken : ∀ k : ℕ, ((written.map Written.fragment).filter fun f => f.index = (k : ℤ))
      = (written.filter fun f => landsOn f.index f.place = (k : ℤ)).map Written.fragment := by
    intro k
    rw [List.filter_map]
    exact congrArg _ (List.filter_congr fun f hf => by simp [hlands f hf])
  have hmore : ∀ k : ℕ, k < 64 → ∀ f ∈ written, decide (f.index = (k : ℤ)) = true →
      decide (landsOn f.index f.place = (k : ℤ)) = true := by
    intro k hk f _ hf
    rw [decide_eq_true_eq] at hf ⊢
    rw [hf, landsOn_of_lt hk]
  rw [h.named, expected]
  simp only [htaken]
  rw [filter_map_eq_iff]
  · constructor
    · intro hall m hm f hf hout hlow hhigh hsame hname
      obtain ⟨k, hk⟩ : ∃ k : ℕ, landsOn m.index m.place = k := ⟨(landsOn m.index m.place).toNat,
        by omega⟩
      have hk64 : k < 64 := by omega
      have hnamed := (named_join_iff (p := fun f => landsOn f.index f.place = (k : ℤ))).2
        ⟨f, hf, decide_eq_true (hsame.trans hk), hname⟩
      have heq := hall k (List.mem_range.2 hk64) (decide_eq_true hnamed)
      refine (join_eq_iff (hmore k hk64)).1 heq m hm (decide_eq_true hk) (decide_eq_false ?_)
      omega
    · intro hplaced k hk hnamed
      have hk64 := List.mem_range.1 hk
      obtain ⟨f, hf, hland, hname⟩ := named_join_iff.1 (of_decide_eq_true hnamed)
      refine (join_eq_iff (hmore k hk64)).2 fun m hm hland' hout => ?_
      have hmk := of_decide_eq_true hland'
      have hmi := of_decide_eq_false hout
      refine hplaced m hm f hf (fun hin => hmi ?_) (by omega) (by omega)
        ((of_decide_eq_true hland).trans hmk.symm) hname
      obtain ⟨i, hi⟩ : ∃ i : ℕ, m.index = i := ⟨m.index.toNat, by omega⟩
      rw [hi, landsOn_of_lt (by omega)] at hmk
      rw [hi, hmk]
  · intro k hk hnamed
    obtain ⟨f, hf, hindex, hname⟩ := named_join_iff.1 (of_decide_eq_true hnamed)
    exact decide_eq_true (named_join_iff.2
      ⟨f, hf, hmore k (List.mem_range.1 hk) f hf hindex, hname⟩)

/-! ### Reading back -/

theorem llmClientCallsJson_filter (calls : List ToolCall) :
    llmClientCallsJson (calls.filter fun call => call.name ≠ []) = llmClientCallsJson calls := by
  unfold llmClientCallsJson
  rw [List.filter_filter]
  simp only [Bool.and_self]

/-- **The agent reads back what the client wrote**, texts of whole characters without a zero byte. -/
theorem llmAgentCalls_calls {calls named : List ToolCall}
    (hnamed : (calls.filter fun call => call.name ≠ []) = named)
    (hwhole : ∀ call ∈ named, validUtf8 call.id = true ∧ validUtf8 call.name = true ∧
      validUtf8 call.arguments = true)
    (hplain : ∀ call ∈ named, (0 : UInt8) ∉ call.id ∧ (0 : UInt8) ∉ call.name ∧
      (0 : UInt8) ∉ call.arguments) :
    llmAgentCalls (llmClientCallsJson calls)
      = named.map fun call => ⟨call.id, call.name, call.arguments⟩ := by
  have hfilter : (named.filter fun call => call.name ≠ []) = named := by
    rw [← hnamed, List.filter_filter]
    simp only [Bool.and_self]
  rw [← llmClientCallsJson_filter, hnamed]
  by_cases hnil : named = []
  · rw [hnil]
    rfl
  have hwrite : ∀ call ∈ named, (callDraft call).write.isSome = true := by
    intro call hcall
    obtain ⟨hid, hname, harguments⟩ := hwhole call hcall
    exact (callDraft_write_iff call).2 ⟨validUtf8_takeWhile (by decide) hid,
      validUtf8_takeWhile (by decide) hname, validUtf8_takeWhile (by decide) harguments⟩
  have hparse := parse_llmClientCallsJson (by rw [hfilter]; exact hnil) hwrite
  rw [hfilter] at hparse
  rw [llmAgentCalls_of_parse hparse]
  refine List.map_congr_left fun call hcall => ?_
  obtain ⟨hid, hname, harguments⟩ := hplain call hcall
  rw [cutCall, cstr_eq_self_iff.2 hid, cstr_eq_self_iff.2 hname, cstr_eq_self_iff.2 harguments]

/-! ### An answer -/

/-- The fragments that are read of a response, as they are written. -/
def fragmentsOf (calls : List (Bool × Bytes)) : List Written :=
  (reached (dataOf (heardBody calls))).flatMap writtenOf

/-- The table of a run that nobody cancels. -/
theorem table_receive {cb : List Bytes → Bool} {calls : List (Bool × Bytes)}
    (h : (receive cb {} calls).1.cancelled = false) :
    Table (receive cb {} calls).1.calls ((fragmentsOf calls).map Written.fragment) := by
  rw [receive_eq_of_not_cancelled cb h]
  have hcalls : (receive (fun _ => true) {} calls).1.calls
      = ((fragmentsOf calls).map Written.fragment).foldl addFragment [] := by
    obtain ⟨done, failure, cancelled, hsaid⟩ := receive_said calls
    exact (congrArg Llm.Streamed.calls hsaid).trans (calls_takeFrames {} _)
  have hempty : Table [] [] := ⟨Nat.zero_le _, fun k _ => rfl⟩
  rw [hcalls]
  exact table_foldl hempty _

/-- **The calls of an answer**: for every stream that ends in one, however its fragments are
interleaved, they are the calls that are meant exactly when it is well placed. -/
theorem assembled_iff (cb : List Bytes → Bool) (p : Params) (messages : List Message)
    (calls : List (Bool × Bytes)) (ending : Ending) (aborted : Bytes) (cancel : Bool) (json : Bytes)
    (h : (llmClientStream cb p messages calls ending aborted cancel).2 = .ok json) :
    Assembled (fragmentsOf calls) (llmClientStream cb p messages calls ending aborted cancel).1.calls json ↔
      WellPlaced (fragmentsOf calls) := by
  unfold llmClientStream at h ⊢
  split_ifs at h ⊢ with hmessages
  dsimp only at h ⊢
  obtain ⟨⟨-, hcancelled, -⟩, rfl⟩ := answer_ok_iff.1 h
  have htable := table_receive hcancelled
  have hlands : ∀ f ∈ fragmentsOf calls, f.fragment.index = landsOn f.index f.place := by
    intro f hf
    obtain ⟨data, -, hdata⟩ := List.mem_flatMap.1 hf
    exact lands_writtenOf hdata
  have hwhole : ∀ call ∈ expected (fragmentsOf calls), validUtf8 call.id = true ∧
      validUtf8 call.name = true ∧ validUtf8 call.arguments = true := by
    intro call hcall
    obtain ⟨k, -, rfl⟩ := List.mem_map.1 (List.mem_filter.1 hcall).1
    have htexts : ∀ f ∈ ((fragmentsOf calls).filter fun f => f.index = (k : ℤ)).map Written.fragment,
        validUtf8 f.id = true ∧ validUtf8 f.name = true ∧ validUtf8 f.arguments = true := by
      intro f hf
      obtain ⟨w, hw, rfl⟩ := List.mem_map.1 hf
      obtain ⟨data, -, hdata⟩ := List.mem_flatMap.1 (List.mem_filter.1 hw).1
      exact whole_writtenOf hdata
    exact ⟨validUtf8_flatMap fun f hf => (htexts f hf).1,
      validUtf8_flatMap fun f hf => (htexts f hf).2.1,
      validUtf8_flatMap fun f hf => (htexts f hf).2.2⟩
  rw [← table_expected hlands htable]
  exact ⟨fun hassembled => hassembled.calls,
    fun hcalls => ⟨hcalls, fun hplain => llmAgentCalls_calls hcalls hwhole hplain⟩⟩

/-- A call in two fragments around one of another. -/
def interleaved : List (Bool × Bytes) := [(false, ascii
  "data: \x7b\"choices\":[\x7b\"delta\":\x7b\"tool_calls\":[\x7b\"index\":1,\"function\":\x7b\"name\":\"u\"\x7d\x7d,\x7b\"index\":0,\"function\":\x7b\"name\":\"t\"\x7d\x7d,\x7b\"index\":1,\"id\":\"b\"\x7d]\x7d\x7d]\x7d\ndata: [DONE]\n")]

theorem assembled_interleaved : Assembled (fragmentsOf interleaved)
    (llmClientStream (fun _ => true) {} [⟨ascii "user", ascii "Go.", [], []⟩] interleaved
      ⟨.ok 200, false⟩ [] false).1.calls
    (llmClientCallsJson [⟨[], ascii "t", []⟩, ⟨ascii "b", ascii "u", []⟩]) :=
  (assembled_iff _ _ _ _ _ _ _ _ (by decide +kernel)).2 (wellPlaced_of_lt (by decide +kernel))

/-- The index of this call is 2 to the 32. -/
def outside : List (Bool × Bytes) := [(false, ascii
  "data: \x7b\"choices\":[\x7b\"delta\":\x7b\"tool_calls\":[\x7b\"index\":4294967296,\"function\":\x7b\"name\":\"t\"\x7d\x7d]\x7d\x7d]\x7d\ndata: [DONE]\n")]

/-- It is the first call of the answer. -/
theorem outside_is_called : ¬∀ (cb : List Bytes → Bool) (p : Params) (messages : List Message)
    (calls : List (Bool × Bytes)) (ending : Ending) (aborted : Bytes) (cancel : Bool) (json : Bytes),
    (llmClientStream cb p messages calls ending aborted cancel).2 = .ok json →
      Assembled (fragmentsOf calls) (llmClientStream cb p messages calls ending aborted cancel).1.calls
        json := by
  intro h
  have hassembled := h (fun _ => true) {} [⟨ascii "user", ascii "Go.", [], []⟩] outside
    ⟨.ok 200, false⟩ [] false (llmClientCallsJson [⟨[], ascii "t", []⟩]) (by decide +kernel)
  exact absurd hassembled.calls (by decide +kernel)

end Agent
end S2S
