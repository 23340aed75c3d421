/-
# Events and their renderings

What `mcp_sse_response` of `src/mcp-client.cpp` finds, said of the events a
server sends and not of the bytes it sends them in.  An event has a name and
data.  A body renders a list of them (`Renders`, `bodyOf`): each is a block of
fields, in any order, its data on any number of lines, comments, ids and retries
in between; each line ends with LF or CR LF, with or without a space after its
colon; and the last block may lack its empty line, the last line its end.

Whatever the rendering, the response is the data of the first event that answers
the request (`mcpSseResponse_renders`), less the empty lines in front of it,
which is white space to a reader of JSON.
-/

import S2S.Json.Reads
import S2S.Mcp.Message

namespace S2S
namespace Mcp

open Json

/-! ### Events -/

/-- A server sent event: its name, empty when it has none, and its data. -/
structure ServerEvent where
  name : Bytes
  data : Bytes
  deriving DecidableEq

/-- **An event that answers request `id`**: unnamed or a message, its data an object with that
integer as its id. -/
def ServerEvent.Answers (e : ServerEvent) (id : ℤ) : Prop :=
  (e.name = [] ∨ e.name = ascii "message") ∧
    ∃ members, parse e.data = some (.obj members) ∧
      ((Value.obj members).get (ascii "id")).bind intOf = some id

/-- A field of an event: a line of its data, its name, or what is neither. -/
inductive EventField
  | data (value : Bytes)
  | name (value : Bytes)
  | other (line : Bytes)

def EventField.data? : EventField → Option Bytes
  | .data value => some value
  | _ => none

def EventField.name? : EventField → Option Bytes
  | .name value => some value
  | _ => none

/-- **The event that fields make**: the last name among them, and the data lines joined with
newlines. -/
def eventOf (fields : List EventField) : ServerEvent where
  name := (fields.filterMap EventField.name?).getLastD []
  data := [0x0A].intercalate (fields.filterMap EventField.data?)

/-! ### Lines -/

/-- No end of line in a text. -/
def OneLine (text : Bytes) : Prop := 0x0A ∉ text ∧ 0x0D ∉ text

instance (text : Bytes) : Decidable (OneLine text) := inferInstanceAs (Decidable (_ ∧ _))

/-- A field that a line can carry, with or without a space after the colon: without one, the value
does not begin with a space.  A comment, an id or a retry is a line of another name than `data` or
`event`, the empty one for a comment. -/
def EventField.Fits (space : Bool) : EventField → Prop
  | .data value => OneLine value ∧ (space = false → value.head? ≠ some 0x20)
  | .name value => OneLine value ∧ (space = false → value.head? ≠ some 0x20)
  | .other line => OneLine line ∧ line ≠ [] ∧
      line.takeWhile (fun b => b ≠ 0x3A) ∉ [ascii "data", ascii "event"]

instance (space : Bool) : (f : EventField) → Decidable (f.Fits space)
  | .data _ => inferInstanceAs (Decidable (_ ∧ (_ → _)))
  | .name _ => inferInstanceAs (Decidable (_ ∧ (_ → _)))
  | .other _ => inferInstanceAs (Decidable (_ ∧ _ ∧ _))

/-- The text of a field. -/
def EventField.text (space : Bool) : EventField → Bytes
  | .data value => ascii "data:" ++ ((if space then [0x20] else []) ++ value)
  | .name value => ascii "event:" ++ ((if space then [0x20] else []) ++ value)
  | .other line => line

/-- A line of an event. -/
structure FieldLine where
  field : EventField
  space : Bool
  crlf : Bool
  fits : field.Fits space

/-- A line of a body: one of an event, or the empty one behind it. -/
inductive BodyLine
  | blank (crlf : Bool)
  | field (l : FieldLine)

def BodyLine.text : BodyLine → Bytes
  | .blank _ => []
  | .field l => l.field.text l.space

def BodyLine.crlf : BodyLine → Bool
  | .blank crlf => crlf
  | .field l => l.crlf

/-- A line up to its newline. -/
def BodyLine.bytes (l : BodyLine) : Bytes := l.text ++ if l.crlf then [0x0D] else []

/-- **A body**: its lines, the last one with its end or without. -/
def bodyOf (ended : Bool) : List BodyLine → Bytes
  | [] => []
  | [l] => if ended then l.bytes ++ [0x0A] else l.text
  | l :: ls => l.bytes ++ 0x0A :: bodyOf ended ls

/-- **Lines that render events**: each event is a block of lines with an empty line behind, the
last one perhaps without; empty lines may stand anywhere else. -/
inductive Renders : List ServerEvent → List BodyLine → Prop
  | nil : Renders [] []
  | blank {events ls} (crlf : Bool) : Renders events ls → Renders events (.blank crlf :: ls)
  | event {events ls} (block : List FieldLine) (crlf : Bool) : block ≠ [] → Renders events ls →
      Renders (eventOf (block.map FieldLine.field) :: events)
        (block.map .field ++ .blank crlf :: ls)
  | last (block : List FieldLine) : block ≠ [] →
      Renders [eventOf (block.map FieldLine.field)] (block.map .field)

/-! ### A line -/

theorem OneLine.append {x y : Bytes} (hx : OneLine x) (hy : OneLine y) : OneLine (x ++ y) :=
  ⟨by simp [hx.1, hy.1], by simp [hx.2, hy.2]⟩

theorem FieldLine.oneLine (l : FieldLine) : OneLine (l.field.text l.space) := by
  have hgap : OneLine (if l.space then [0x20] else []) := by
    cases l.space <;> decide
  have hfits := l.fits
  revert hfits
  cases l.field with
  | data value => exact fun h => OneLine.append (by decide) (hgap.append h.1)
  | name value => exact fun h => OneLine.append (by decide) (hgap.append h.1)
  | other line => exact fun h => h.1

theorem FieldLine.text_ne_nil (l : FieldLine) : l.field.text l.space ≠ [] := by
  have hfits := l.fits
  revert hfits
  cases l.field with
  | data value => simp [EventField.text, ascii]
  | name value => simp [EventField.text, ascii]
  | other line => exact fun h => h.2.1

/-- A line loses the carriage return of its end and nothing else. -/
theorem BodyLine.oneLine (l : BodyLine) : OneLine l.text := by
  cases l with
  | blank crlf => exact ⟨by simp [BodyLine.text], by simp [BodyLine.text]⟩
  | field l => exact l.oneLine

theorem chomp_oneLine {text : Bytes} (h : OneLine text) : chomp text = text := by
  refine if_neg fun hlast => ?_
  exact h.2 (List.mem_of_getLast? hlast)

@[simp] theorem chomp_bytes (l : BodyLine) : chomp l.bytes = l.text := by
  unfold BodyLine.bytes
  cases l.crlf with
  | false => simpa using chomp_oneLine l.oneLine
  | true => simp [chomp]

/-- **The lines of a text** with a newline in it. -/
theorem lines_append {text : Bytes} (h : (0x0A : UInt8) ∉ text) (rest : Bytes) :
    lines (text ++ 0x0A :: rest) = text :: lines rest := by
  induction text with
  | nil => simp [lines]
  | cons b text ih =>
    obtain ⟨hb, htext⟩ := not_or.1 fun hor => h (List.mem_cons.2 hor)
    rw [List.cons_append, lines, if_neg (Ne.symm hb), ih htext]

theorem lines_oneLine {text : Bytes} (h : (0x0A : UInt8) ∉ text) (hne : text ≠ []) :
    lines text = [text] := by
  induction text with
  | nil => exact absurd rfl hne
  | cons b text ih =>
    obtain ⟨hb, htext⟩ := not_or.1 fun hor => h (List.mem_cons.2 hor)
    rw [lines, if_neg (Ne.symm hb)]
    cases text with
    | nil => rfl
    | cons c text => rw [ih htext (List.cons_ne_nil _ _)]

theorem BodyLine.newline_not_mem (l : BodyLine) : (0x0A : UInt8) ∉ l.bytes := by
  unfold BodyLine.bytes
  cases l.crlf <;> simp [l.oneLine.1]

/-! ### A field -/

/-- What a field makes of the event under way. -/
def SseEvent.take (e : SseEvent) : EventField → SseEvent
  | .data value => { e with data := e.data ++ (if e.data = [] then [] else [0x0A]) ++ value }
  | .name value => { e with event := value }
  | .other _ => e

/-- The value of a field, whether or not a space follows its colon. -/
theorem fieldValue_append {field value : Bytes} {space : Bool}
    (h : space = false → value.head? ≠ some 0x20) :
    fieldValue field (field ++ ((if space then [0x20] else []) ++ value)) = value := by
  unfold fieldValue
  rw [List.drop_left]
  cases space with
  | true => rfl
  | false =>
    cases value with
    | nil => rfl
    | cons b value =>
      have hb : b ≠ 0x20 := fun hb => h rfl (by rw [hb]; rfl)
      simp only [Bool.false_eq_true, if_false, List.nil_append]
      split
      · rename_i heq
        exact absurd (List.cons.inj heq).1 hb
      · rfl

theorem takeWhile_begins (name : Bytes) {line : Bytes} (hname : name.all (fun b => b ≠ 0x3A))
    (h : (name ++ [0x3A]).isPrefixOf line = true) : line.takeWhile (fun b => b ≠ 0x3A) = name := by
  obtain ⟨rest, rfl⟩ := List.isPrefixOf_iff_prefix.1 h
  rw [List.append_assoc, List.takeWhile_append_of_pos (List.all_eq_true.1 hname)]
  simp

/-- **A line is read as the field it carries.** -/
theorem SseEvent.line_field (e : SseEvent) (l : FieldLine) :
    e.line (l.field.text l.space) = e.take l.field := by
  have hfits := l.fits
  revert hfits
  cases l.field with
  | data value =>
    rintro ⟨-, hspace⟩
    have hdata : ∀ x, (ascii "data:").isPrefixOf (ascii "data:" ++ x) = true := fun x =>
      List.isPrefixOf_iff_prefix.2 (List.prefix_append _ _)
    rw [EventField.text, SseEvent.line, if_pos (hdata _), fieldValue_append hspace]
    rfl
  | name value =>
    rintro ⟨-, hspace⟩
    have hdata : ∀ x, ¬(ascii "data:").isPrefixOf (ascii "event:" ++ x) = true := fun x => by
      simp [ascii]
    have hevent : ∀ x, (ascii "event:").isPrefixOf (ascii "event:" ++ x) = true := fun x =>
      List.isPrefixOf_iff_prefix.2 (List.prefix_append _ _)
    rw [EventField.text, SseEvent.line, if_neg (hdata _), if_pos (hevent _),
      fieldValue_append hspace]
    rfl
  | other line =>
    rintro ⟨-, -, hname⟩
    have hdata : ¬(ascii "data:").isPrefixOf line = true := fun h =>
      hname (takeWhile_begins (ascii "data") rfl h ▸ List.mem_cons_self)
    have hevent : ¬(ascii "event:").isPrefixOf line = true := fun h =>
      hname (takeWhile_begins (ascii "event") rfl h ▸
        List.mem_cons_of_mem _ List.mem_cons_self)
    rw [EventField.text, SseEvent.line, if_neg hdata, if_neg hevent]
    rfl

/-! ### The event of a block -/

theorem event_foldl_take (fields : List EventField) (e : SseEvent) :
    (fields.foldl SseEvent.take e).event =
      (fields.filterMap EventField.name?).getLastD e.event := by
  induction fields generalizing e with
  | nil => rfl
  | cons f fields ih =>
    rw [List.foldl_cons, ih]
    cases f with
    | name value => exact (List.getLastD_cons ..).symm
    | data value => rfl
    | other line => rfl

/-- A line of data behind what there is. -/
def joinLine (data value : Bytes) : Bytes := data ++ (if data = [] then [] else [0x0A]) ++ value

theorem data_foldl_take (fields : List EventField) (e : SseEvent) :
    (fields.foldl SseEvent.take e).data =
      (fields.filterMap EventField.data?).foldl joinLine e.data := by
  induction fields generalizing e with
  | nil => rfl
  | cons f fields ih =>
    rw [List.foldl_cons, ih]
    cases f with
    | data value => rfl
    | name value => rfl
    | other line => rfl

/-- A text from its first line on that is not empty. -/
def unbroken (text : Bytes) : Bytes := text.dropWhile fun b => b = 0x0A

theorem joinLine_foldl {data : Bytes} (h : data ≠ []) (values : List Bytes) :
    values.foldl joinLine data = [0x0A].intercalate (data :: values) := by
  induction values generalizing data with
  | nil => simp
  | cons value values ih =>
    have hne : joinLine data value ≠ [] := by simp [joinLine, h]
    have hline : joinLine data value = data ++ 0x0A :: value := by simp [joinLine, h]
    rw [List.foldl_cons, ih hne, hline, List.intercalate_cons_cons]
    cases values <;> simp [List.intercalate_cons_cons]

/-- **The data of an event is its lines joined**, less the empty ones in front. -/
theorem joinLine_eq {values : List Bytes} (h : ∀ value ∈ values, (0x0A : UInt8) ∉ value) :
    values.foldl joinLine [] = unbroken ([0x0A].intercalate values) := by
  induction values with
  | nil => rfl
  | cons value values ih =>
    obtain ⟨hvalue, hvalues⟩ := List.forall_mem_cons.1 h
    cases value with
    | nil =>
      rw [List.foldl_cons]
      refine (ih hvalues).trans ?_
      cases values with
      | nil => rfl
      | cons v values => rw [List.intercalate_cons_cons]; rfl
    | cons b value =>
      have hb : b ≠ 0x0A := fun hb => hvalue (by simp [hb])
      have hfirst : joinLine [] (b :: value) = b :: value := rfl
      rw [List.foldl_cons, hfirst, joinLine_foldl (List.cons_ne_nil _ _)]
      cases values with
      | nil => simp [unbroken, hb]
      | cons v values => simp [unbroken, List.intercalate_cons_cons, hb]

/-- The event under way after a block is the one its fields make. -/
theorem foldl_take (block : List FieldLine) :
    (block.map FieldLine.field).foldl SseEvent.take {} =
      ⟨unbroken (eventOf (block.map FieldLine.field)).data,
        (eventOf (block.map FieldLine.field)).name⟩ := by
  have hvalues : ∀ value ∈ (block.map FieldLine.field).filterMap EventField.data?,
      (0x0A : UInt8) ∉ value := by
    intro value hvalue
    obtain ⟨f, hf, hdata⟩ := List.mem_filterMap.1 hvalue
    obtain ⟨l, -, rfl⟩ := List.mem_map.1 hf
    have hfits := l.fits
    cases hl : l.field with
    | data v =>
      rw [hl] at hfits hdata
      obtain rfl := Option.some.inj hdata
      exact hfits.1.1
    | name v => simp [hl, EventField.data?] at hdata
    | other line => simp [hl, EventField.data?] at hdata
  rw [eventOf, ← joinLine_eq hvalues]
  exact congrArg₂ SseEvent.mk (data_foldl_take _ _) (event_foldl_take _ _)

/-- **The empty lines in front of the data are white space.** -/
theorem parse_unbroken (text : Bytes) : parse (unbroken text) = parse text := by
  induction text with
  | nil => rfl
  | cons b text ih =>
    unfold unbroken at ih ⊢
    rw [List.dropWhile_cons]
    split_ifs with hb
    · have hnewline : b = 0x0A := by simpa using hb
      rw [ih, hnewline, parse_cons_space (by decide)]
    · rfl

theorem mcpAnswers_iff {root : Value} {id : ℤ} : mcpAnswers root id = true ↔
    ∃ members, root = .obj members ∧
      ((Value.obj members).get (ascii "id")).bind intOf = some id := by
  rw [mcpAnswers, decide_eq_true_iff]
  cases root with
  | obj members => simp
  | _ => simp [Value.get]

/-- What an event that is over gives. -/
theorem dispatch_eq (e : ServerEvent) (id : ℤ) :
    (e.Answers id → (⟨unbroken e.data, e.name⟩ : SseEvent).dispatch id = some (unbroken e.data)) ∧
      (¬e.Answers id → (⟨unbroken e.data, e.name⟩ : SseEvent).dispatch id = none) := by
  have hempty : parse [] = none := by decide
  constructor
  · rintro ⟨hname, members, hparse, hid⟩
    have hne : unbroken e.data ≠ [] := by
      intro hnil
      rw [← parse_unbroken, hnil, hempty] at hparse
      simp at hparse
    rw [SseEvent.dispatch, if_pos ⟨hne, hname⟩, parse_unbroken, hparse]
    exact if_pos (mcpAnswers_iff.2 ⟨members, rfl, hid⟩)
  · intro hno
    unfold SseEvent.dispatch
    dsimp only
    split_ifs with h
    · rw [parse_unbroken]
      cases hparse : parse e.data with
      | none => rfl
      | some root =>
        refine if_neg fun hanswers => hno ⟨h.2, ?_⟩
        obtain ⟨members, rfl, hid⟩ := mcpAnswers_iff.1 hanswers
        exact ⟨members, hparse, hid⟩
    · rfl

/-! ### A body -/

/-- The lines of a block are read into the event under way. -/
theorem sseLines_block (id : ℤ) (block : List FieldLine) (rest : List Bytes) (e : SseEvent) :
    sseLines id e (block.map (fun l => (BodyLine.field l).bytes) ++ rest) =
      sseLines id ((block.map FieldLine.field).foldl SseEvent.take e) rest := by
  induction block generalizing e with
  | nil => rfl
  | cons l block ih =>
    have hne : (BodyLine.field l).text ≠ [] := l.text_ne_nil
    rw [List.map_cons, List.cons_append, sseLines, chomp_bytes, if_neg hne, ih]
    exact congrArg (fun e' => sseLines id (List.foldl _ e' _) rest) (e.line_field l)

/-- An event with no data gives nothing. -/
theorem dispatch_empty (id : ℤ) : ({} : SseEvent).dispatch id = none := rfl

/-- **How a body ends changes nothing.** -/
theorem sseLines_bodyOf (id : ℤ) (ended : Bool) (ls : List BodyLine) (e : SseEvent) :
    sseLines id e (lines (bodyOf ended ls)) = sseLines id e (ls.map BodyLine.bytes) := by
  induction ls generalizing e with
  | nil => rfl
  | cons l ls ih =>
    cases ls with
    | nil =>
      cases ended with
      | true =>
        rw [bodyOf, if_pos rfl, lines_append l.newline_not_mem]
        rfl
      | false =>
        rw [bodyOf, if_neg (by decide)]
        by_cases hnil : l.text = []
        · rw [hnil, List.map_cons, List.map_nil, sseLines, chomp_bytes, if_pos hnil]
          change e.dispatch id = _
          cases e.dispatch id <;> rfl
        · rw [lines_oneLine l.oneLine.1 hnil, List.map_cons, List.map_nil]
          simp only [sseLines, chomp_bytes, chomp_oneLine l.oneLine]
    | cons l' ls =>
      have hbody : bodyOf ended (l :: l' :: ls) = l.bytes ++ 0x0A :: bodyOf ended (l' :: ls) := rfl
      rw [hbody, lines_append l.newline_not_mem, List.map_cons, sseLines, sseLines, ih, ih]

/-! ### The first answer -/

/-- **The first event that answers the request** has that text, less the empty lines in front. -/
def First (id : ℤ) (events : List ServerEvent) (message : Bytes) : Prop :=
  ∃ before e after, events = before ++ e :: after ∧ (∀ x ∈ before, ¬x.Answers id) ∧
    e.Answers id ∧ message = unbroken e.data

theorem not_first_nil {id : ℤ} {message : Bytes} : ¬First id [] message := by
  rintro ⟨before, e, after, heq, -⟩
  simp at heq

theorem first_cons {id : ℤ} {e : ServerEvent} {events : List ServerEvent} {message : Bytes} :
    First id (e :: events) message ↔
      e.Answers id ∧ message = unbroken e.data ∨ ¬e.Answers id ∧ First id events message := by
  constructor
  · rintro ⟨before, e', after, heq, hbefore, hanswers, hmessage⟩
    cases before with
    | nil =>
      obtain ⟨rfl, rfl⟩ := List.cons.inj heq
      exact .inl ⟨hanswers, hmessage⟩
    | cons x before =>
      obtain ⟨rfl, rfl⟩ := List.cons.inj heq
      obtain ⟨hx, hbefore⟩ := List.forall_mem_cons.1 hbefore
      exact .inr ⟨hx, before, e', after, rfl, hbefore, hanswers, hmessage⟩
  · rintro (⟨hanswers, hmessage⟩ | ⟨hno, before, e', after, rfl, hbefore, hanswers, hmessage⟩)
    · exact ⟨[], e, events, rfl, by simp, hanswers, hmessage⟩
    · exact ⟨e :: before, e', after, rfl, List.forall_mem_cons.2 ⟨hno, hbefore⟩, hanswers,
        hmessage⟩

/-- Where an event answers, one is the first. -/
theorem exists_first {id : ℤ} {events : List ServerEvent} {e : ServerEvent} (he : e ∈ events)
    (hanswers : e.Answers id) : ∃ message, First id events message := by
  induction events with
  | nil => simp at he
  | cons x events ih =>
    by_cases hx : x.Answers id
    · exact ⟨_, first_cons.2 (.inl ⟨hx, rfl⟩)⟩
    · rcases List.mem_cons.1 he with rfl | he
      · exact absurd hanswers hx
      · obtain ⟨message, hm⟩ := ih he
        exact ⟨message, first_cons.2 (.inr ⟨hx, hm⟩)⟩

/-- **Lines that render events** give the first answer among them. -/
theorem sseLines_renders {id : ℤ} {events : List ServerEvent} {ls : List BodyLine}
    (h : Renders events ls) (message : Bytes) :
    sseLines id {} (ls.map BodyLine.bytes) = some message ↔ First id events message := by
  have hblock : ∀ (block : List FieldLine),
      (block.map BodyLine.field).map BodyLine.bytes =
        block.map fun l => (BodyLine.field l).bytes := fun block => by
    rw [List.map_map]
    rfl
  induction h with
  | nil => simp [sseLines, dispatch_empty, not_first_nil]
  | blank crlf _ ih =>
    have hblank : (BodyLine.blank crlf).text = [] := rfl
    rw [List.map_cons, sseLines, chomp_bytes, if_pos hblank, dispatch_empty]
    exact ih
  | event block crlf hne _ ih =>
    rename_i events ls
    have hblank : (BodyLine.blank crlf).text = [] := rfl
    rw [List.map_append, hblock, sseLines_block, foldl_take, List.map_cons, sseLines, chomp_bytes,
      if_pos hblank, first_cons]
    obtain ⟨hyes, hno⟩ := dispatch_eq (eventOf (block.map FieldLine.field)) id
    by_cases hanswers : (eventOf (block.map FieldLine.field)).Answers id
    · rw [hyes hanswers]
      simp [hanswers, eq_comm]
    · rw [hno hanswers]
      simpa [hanswers] using ih
  | last block hne =>
    rw [hblock, ← List.append_nil (List.map _ block), sseLines_block, foldl_take, first_cons]
    obtain ⟨hyes, hno⟩ := dispatch_eq (eventOf (block.map FieldLine.field)) id
    change SseEvent.dispatch _ id = _ ↔ _
    by_cases hanswers : (eventOf (block.map FieldLine.field)).Answers id
    · rw [hyes hanswers]
      simp [hanswers, eq_comm]
    · rw [hno hanswers]
      simp [hanswers, not_first_nil]

/-- **What a body answers.**  Whatever the rendering, a response is found exactly when some event
answers the request, and it is the data of the first one, up to the white space of its empty first
lines. -/
theorem mcpSseResponse_renders {events : List ServerEvent} {ls : List BodyLine}
    (h : Renders events ls) (ended : Bool) (id : ℤ) :
    ((mcpSseResponse (bodyOf ended ls) id).isSome = true ↔ ∃ e ∈ events, e.Answers id) ∧
      ∀ message, mcpSseResponse (bodyOf ended ls) id = some message →
        ∃ before e after, events = before ++ e :: after ∧ (∀ x ∈ before, ¬x.Answers id) ∧
          e.Answers id ∧ message = unbroken e.data ∧ parse message = parse e.data := by
  have hfirst : ∀ message, mcpSseResponse (bodyOf ended ls) id = some message ↔
      First id events message := fun message => by
    rw [mcpSseResponse, sseLines_bodyOf]
    exact sseLines_renders h message
  constructor
  · rw [Option.isSome_iff_exists]
    constructor
    · rintro ⟨message, hm⟩
      obtain ⟨before, e, after, rfl, -, hanswers, -⟩ := (hfirst message).1 hm
      exact ⟨e, by simp, hanswers⟩
    · rintro ⟨e, he, hanswers⟩
      obtain ⟨message, hm⟩ := exists_first he hanswers
      exact ⟨message, (hfirst message).2 hm⟩
  · intro message hm
    obtain ⟨before, e, after, heq, hbefore, hanswers, rfl⟩ := (hfirst message).1 hm
    exact ⟨before, e, after, heq, hbefore, hanswers, rfl, parse_unbroken e.data⟩

/-- A keep alive with an id, then a message on two lines that answers request 7: a comment between
them, no space after one colon, and no end. -/
def keepAlive : List FieldLine :=
  [⟨.name (ascii "ping"), true, true, by decide⟩, ⟨.data (ascii "1"), false, true, by decide⟩,
    ⟨.other (ascii "id: 3"), true, false, by decide⟩]

def answering : List FieldLine :=
  [⟨.data [], false, false, by decide⟩,
    ⟨.data (ascii "\x7b\"id\":"), true, false, by decide⟩,
    ⟨.other (ascii ": alive"), false, false, by decide⟩,
    ⟨.data (ascii "7\x7d"), false, true, by decide⟩]

theorem keepAlive_renders :
    Renders [⟨ascii "ping", ascii "1"⟩, ⟨[], ascii "\n\x7b\"id\":\n7\x7d"⟩]
      (keepAlive.map .field ++ .blank true :: answering.map .field) :=
  .event keepAlive true (by decide) (.last answering (by decide))

theorem mcpSseResponse_keepAlive :
    mcpSseResponse (bodyOf false (keepAlive.map .field ++ .blank true :: answering.map .field)) 7 =
        some (ascii "\x7b\"id\":\n7\x7d") ∧
      ∃ e ∈ [⟨ascii "ping", ascii "1"⟩, ⟨[], ascii "\n\x7b\"id\":\n7\x7d"⟩],
        ServerEvent.Answers e 7 := by
  have hfound : mcpSseResponse
      (bodyOf false (keepAlive.map .field ++ .blank true :: answering.map .field)) 7 =
        some (ascii "\x7b\"id\":\n7\x7d") := by
    decide +kernel
  exact ⟨hfound, (mcpSseResponse_renders keepAlive_renders false 7).1.1 (by rw [hfound]; rfl)⟩

end Mcp
end S2S
