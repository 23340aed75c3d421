/-
# The log and a client of it

`src/log-capture.h`: the thread that cuts what the process writes to stderr into
lines and keeps the latest of them in a ring (`log_reader_main`), and a client of
`GET /logs`, which takes them out one by one and drops the lock around each
write (`handle_logs`).  A step is what a thread does between two moments at
which it does not hold `mtx_log`, so any order of steps is an order the lock
allows.

The cursor of a client names a slot, and the slot holds the line of that number
as long as the client is not more than the ring behind.  While it keeps up
(`keepsUp`) it is sent consecutive lines (`logs_in_order`); a client that falls
further behind is sent newer lines in place of older ones, and then the older
ones behind them (`logs_out_of_order`).
-/

import S2S.Json.Utf8

namespace S2S
namespace Logs

open Json

/-! ### The data -/

/-- `LOG_RING_SIZE`. -/
def logRingSize : ℕ := 2 ^ 9

/-- A line of the log, with its number. -/
structure Line where
  seq : ℕ
  text : Bytes
  deriving DecidableEq, Repr

/-- `log_ring` and `log_seq`, and what `log_reader_main` keeps; `written` is every line so far. -/
structure Capture where
  ring : ℕ → Line := fun _ => ⟨0, []⟩
  seq : ℕ := 0
  partialLine : Bytes := []
  drained : Bool := false
  written : List Bytes := []

/-- Where a client is while it does not hold the lock: before the provider is called, within a
write, within the wait, or gone. -/
inductive Place
  | outside
  | writing
  | waiting
  | gone
  deriving DecidableEq, Repr

/-- The provider of `handle_logs`: what it captures, where it is, and the lines it handed to its
sink. -/
structure Client where
  cursor : ℕ := 0
  init : Bool := false
  place : Place := .outside
  sent : List Line := []

/-- The reader and a client. -/
structure World where
  capture : Capture := {}
  client : Client := {}

/-! ### Steps -/

/-- A line into the ring, under the lock. -/
def Capture.insert (c : Capture) (text : Bytes) : Capture :=
  { c with
    ring := fun slot => if slot = c.seq % logRingSize then ⟨c.seq, text⟩ else c.ring slot
    seq := c.seq + 1
    written := c.written ++ [text] }

/-- The head of either loop of the provider, with the lock: the next line is taken out and written
without the lock, or the loop is over, which waits behind the first one and returns behind the
second. -/
def Client.look (k : Client) (c : Capture) : Client :=
  if k.cursor < c.seq then
    { k with
      cursor := k.cursor + 1
      place := .writing
      sent := k.sent ++ [c.ring (k.cursor % logRingSize)] }
  else if k.init then { k with place := .outside }
  else { k with init := true, place := .waiting }

/-- What the two threads do.  The reader reads a piece, puts a line that is whole into the ring, or
finds the pipe closed; the provider is called, its wait ends, notified or not, or its write does. -/
inductive Event
  | read (piece : Bytes)
  | line
  | close
  | enter
  | wake
  | wrote (ok : Bool)
  deriving DecidableEq, Repr

/-- One step, none where a thread is not there. -/
def step (w : World) : Event → Option World
  | .read piece =>
    if 0x0A ∈ w.capture.partialLine ∨ w.capture.drained ∨ piece = [] then none
    else some { w with
      capture := { w.capture with partialLine := w.capture.partialLine ++ piece } }
  | .line =>
    if 0x0A ∈ w.capture.partialLine then
      some { w with capture := { w.capture.insert (w.capture.partialLine.takeWhile (· ≠ 0x0A)) with
        partialLine := (w.capture.partialLine.dropWhile (· ≠ 0x0A)).tail } }
    else none
  | .close =>
    if 0x0A ∈ w.capture.partialLine ∨ w.capture.drained then none
    else
      let rest := if w.capture.partialLine = [] then w.capture
        else w.capture.insert w.capture.partialLine
      some { w with capture := { rest with partialLine := [], drained := true } }
  | .enter =>
    if w.client.place = .outside then
      if w.client.init then some { w with client := { w.client with place := .waiting } }
      else
        let cursor := w.capture.seq - min w.capture.seq logRingSize
        some { w with client := { w.client with cursor := cursor }.look w.capture }
    else none
  | .wake =>
    if w.client.place = .waiting then some { w with client := w.client.look w.capture } else none
  | .wrote ok =>
    if w.client.place = .writing then
      some { w with client := if ok then w.client.look w.capture else { w.client with place := .gone } }
    else none

/-- A run of steps. -/
def run (w : World) : List Event → Option World
  | [] => some w
  | e :: events => (step w e).bind fun w' => run w' events

/-- The steps that go back to a loop the client was in before. -/
def Event.looks : Event → Bool
  | .wake => true
  | .wrote ok => ok
  | _ => false

/-- Whenever the client goes back to its loop, it is not more than the ring behind. -/
def keepsUp (w : World) : List Event → Bool
  | [] => true
  | e :: events =>
    (!e.looks || decide (w.capture.seq ≤ w.client.cursor + logRingSize)) &&
      (step w e).all fun w' => keepsUp w' events

/-! ### What holds -/

/-- The latest lines are in the ring, each in the slot of its number. -/
structure Capture.Sound (c : Capture) : Prop where
  length : c.written.length = c.seq
  slots : ∀ n < c.seq, c.seq ≤ n + logRingSize → (c.ring (n % logRingSize)).seq = n
  texts : ∀ n < c.seq, c.written[(c.ring (n % logRingSize)).seq]?
    = some (c.ring (n % logRingSize)).text

theorem Capture.Sound.insert {c : Capture} (h : c.Sound) (text : Bytes) : (c.insert text).Sound := by
  have hmod : ∀ {n}, n < c.seq → c.seq < n + logRingSize → n % logRingSize ≠ c.seq % logRingSize := by
    intro n hlt hle heq
    unfold logRingSize at hle heq
    omega
  refine ⟨by simp [Capture.insert, h.length], fun n hn hle => ?_, fun n hn => ?_⟩
  · show (if n % logRingSize = c.seq % logRingSize then _ else _ : Line).seq = n
    have hn' : n < c.seq + 1 := hn
    have hle' : c.seq + 1 ≤ n + logRingSize := hle
    rcases Nat.lt_succ_iff_lt_or_eq.1 hn' with hlt | rfl
    · rw [if_neg (hmod hlt (by omega))]
      exact h.slots n hlt (by omega)
    · rw [if_pos rfl]
  · show (c.written ++ [text])[(if n % logRingSize = c.seq % logRingSize then _ else _ : Line).seq]?
      = some (if n % logRingSize = c.seq % logRingSize then _ else _ : Line).text
    split_ifs with hslot
    · rw [← h.length]
      exact List.getElem?_concat_length
    · have hlt : n < c.seq := lt_of_le_of_ne (Nat.lt_succ_iff.1 hn) fun heq => hslot (by rw [heq])
      have hold := h.texts n hlt
      rw [List.getElem?_append_left (List.getElem?_eq_some_iff.1 hold).1]
      exact hold

/-- A client that kept up: it was sent the lines before its cursor, from some line on, one after the
other. -/
structure Client.InOrder (k : Client) (c : Capture) : Prop where
  cursor_le : k.cursor ≤ c.seq
  sent : ∃ first, k.cursor = first + k.sent.length ∧
    k.sent.map Line.seq = List.range' first k.sent.length
  texts : ∀ line ∈ k.sent, c.written[line.seq]? = some line.text
  fresh : k.place = .outside → k.init = false → k.sent = []

variable {w w' : World} {c : Capture} {k : Client}

/-- **The head of the loop keeps the order** of a client that is not more than the ring behind. -/
theorem Client.InOrder.look (h : k.InOrder c) (hc : c.Sound) (hkeeps : c.seq ≤ k.cursor + logRingSize) :
    (k.look c).InOrder c := by
  unfold Client.look
  obtain ⟨first, hcursor, hsent⟩ := h.sent
  split_ifs with hbehind hinit
  · refine ⟨hbehind, ⟨first, ?_, ?_⟩, fun line hline => ?_, by simp⟩
    · simp only [List.length_append, List.length_singleton]
      omega
    · rw [List.map_append, hsent, List.map_singleton, hc.slots _ hbehind hkeeps, List.length_append,
        List.length_singleton, List.range'_concat, hcursor, Nat.one_mul]
    · rcases List.mem_append.1 hline with hold | hnew
      · exact h.texts line hold
      · rw [List.mem_singleton.1 hnew]
        exact hc.texts _ hbehind
  · exact ⟨h.cursor_le, ⟨first, hcursor, hsent⟩, h.texts, fun _ hfalse => absurd (hinit.symm.trans hfalse) (by simp)⟩
  · exact ⟨h.cursor_le, ⟨first, hcursor, hsent⟩, h.texts, by simp⟩

/-- A line into the ring leaves a client in order. -/
theorem Client.InOrder.insert (h : k.InOrder c) (text : Bytes) : k.InOrder (c.insert text) := by
  refine ⟨h.cursor_le.trans (Nat.le_succ _), h.sent, fun line hline => ?_, h.fresh⟩
  have hold := h.texts line hline
  show (c.written ++ [text])[line.seq]? = _
  rw [List.getElem?_append_left (List.getElem?_eq_some_iff.1 hold).1]
  exact hold

/-- What the reader keeps beside its ring is its own. -/
theorem Capture.Sound.congr {c' : Capture} (h : c.Sound) (hring : c'.ring = c.ring) (hseq : c'.seq = c.seq)
    (hwritten : c'.written = c.written) : c'.Sound :=
  ⟨by rw [hwritten, hseq, h.length], by rw [hring, hseq]; exact h.slots,
    by rw [hring, hseq, hwritten]; exact h.texts⟩

theorem Client.InOrder.congr {c' : Capture} (h : k.InOrder c) (hseq : c'.seq = c.seq)
    (hwritten : c'.written = c.written) : k.InOrder c' :=
  ⟨by rw [hseq]; exact h.cursor_le, h.sent, by rw [hwritten]; exact h.texts, h.fresh⟩

/-- The ring and the client of a run. -/
structure World.Ordered (w : World) : Prop where
  sound : w.capture.Sound
  client : w.client.InOrder w.capture

theorem ordered_start : World.Ordered {} :=
  ⟨⟨rfl, fun n hn => absurd hn (Nat.not_lt_zero n), fun n hn => absurd hn (Nat.not_lt_zero n)⟩,
    ⟨le_rfl, ⟨0, rfl, rfl⟩, fun _ hline => absurd hline List.not_mem_nil, fun _ _ => rfl⟩⟩

/-- **A step of a client that keeps up** keeps the order. -/
theorem World.Ordered.step (h : w.Ordered) {e : Event} (hstep : step w e = some w')
    (hkeeps : e.looks = true → w.capture.seq ≤ w.client.cursor + logRingSize) : w'.Ordered := by
  obtain ⟨hsound, hclient⟩ := h
  cases e with
  | read piece =>
    rw [Logs.step] at hstep
    split_ifs at hstep
    obtain rfl := Option.some.inj hstep
    exact ⟨hsound.congr rfl rfl rfl, hclient.congr rfl rfl⟩
  | line =>
    rw [Logs.step] at hstep
    split_ifs at hstep
    obtain rfl := Option.some.inj hstep
    exact ⟨(hsound.insert _).congr rfl rfl rfl, (hclient.insert _).congr rfl rfl⟩
  | close =>
    rw [Logs.step] at hstep
    split_ifs at hstep with hthere hempty
    · obtain rfl := Option.some.inj hstep
      exact ⟨hsound.congr rfl rfl rfl, hclient.congr rfl rfl⟩
    · obtain rfl := Option.some.inj hstep
      exact ⟨(hsound.insert _).congr rfl rfl rfl, (hclient.insert _).congr rfl rfl⟩
  | enter =>
    rw [Logs.step] at hstep
    split_ifs at hstep with hplace hinit
    · obtain rfl := Option.some.inj hstep
      exact ⟨hsound, hclient.cursor_le, hclient.sent, hclient.texts, by simp⟩
    · obtain rfl := Option.some.inj hstep
      have hnone := hclient.fresh hplace (by simpa using hinit)
      -- nothing was sent yet, so the replay begins where it likes
      have hfresh : Client.InOrder
          { w.client with cursor := w.capture.seq - min w.capture.seq logRingSize } w.capture :=
        ⟨Nat.sub_le _ _, ⟨_, by rw [hnone]; rfl, by rw [hnone]; rfl⟩, hclient.texts, hclient.fresh⟩
      exact ⟨hsound, hfresh.look hsound (by show _ ≤ _ - min _ _ + _; omega)⟩
  | wake =>
    rw [Logs.step] at hstep
    split_ifs at hstep
    obtain rfl := Option.some.inj hstep
    exact ⟨hsound, hclient.look hsound (hkeeps rfl)⟩
  | wrote ok =>
    rw [Logs.step] at hstep
    split_ifs at hstep with hplace hok
    · obtain rfl := Option.some.inj hstep
      exact ⟨hsound, hclient.look hsound (hkeeps hok)⟩
    · obtain rfl := Option.some.inj hstep
      exact ⟨hsound, hclient.cursor_le, hclient.sent, hclient.texts, by simp⟩

theorem World.Ordered.run (h : w.Ordered) {events : List Event} (hrun : run w events = some w')
    (hkeeps : keepsUp w events = true) : w'.Ordered := by
  induction events generalizing w with
  | nil =>
    obtain rfl := Option.some.inj hrun
    exact h
  | cons e events ih =>
    obtain ⟨mid, hstep, hrest⟩ := Option.bind_eq_some_iff.1 hrun
    rw [keepsUp, hstep, Bool.and_eq_true, Option.all_some] at hkeeps
    refine ih (h.step hstep fun hlooks => ?_) hrest hkeeps.2
    simpa [hlooks] using hkeeps.1

/-- **A client that keeps up is sent consecutive lines**, so their numbers increase and none is
missing, and each is the line of its number.  This is so for every order of steps and every cut of
what the reader reads. -/
theorem logs_in_order {events : List Event} (hrun : run {} events = some w)
    (hkeeps : keepsUp {} events = true) :
    (w.client.sent.map Line.seq).Pairwise (· < ·) ∧
      (∃ first, w.client.sent.map Line.seq = List.range' first w.client.sent.length) ∧
      ∀ line ∈ w.client.sent, w.capture.written[line.seq]? = some line.text := by
  obtain ⟨-, hclient⟩ := ordered_start.run hrun hkeeps
  obtain ⟨first, -, hsent⟩ := hclient.sent
  refine ⟨?_, ⟨first, hsent⟩, hclient.texts⟩
  rw [hsent]
  exact List.pairwise_lt_range'

/-- Two lines, the second put into the ring while the first one is being written. -/
theorem logs_in_order_two :
    ∃ w, run {} [.enter, .read (ascii "a\nb\n"), .line, .wake, .line, .wrote true] = some w ∧
      w.client.sent = [⟨0, ascii "a"⟩, ⟨1, ascii "b"⟩] ∧
      (w.client.sent.map Line.seq).Pairwise (· < ·) := by
  have hsent : (run {} [.enter, .read (ascii "a\nb\n"), .line, .wake, .line, .wrote true]).map
      (fun w => w.client.sent) = some [⟨0, ascii "a"⟩, ⟨1, ascii "b"⟩] := by decide
  obtain ⟨w, hrun, hw⟩ := Option.map_eq_some_iff.1 hsent
  exact ⟨w, hrun, hw, (logs_in_order hrun (by decide)).1⟩

/-- **A client that falls further behind.**  While it writes line 0, the reader puts 513 more into
the ring; then it is sent line 513 in place of line 1, and line 2 behind it. -/
theorem logs_out_of_order :
    (run {} ([.enter, .read [0x0A], .line, .wake, .read (List.replicate 513 0x0A)]
      ++ List.replicate 513 .line ++ [.wrote true, .wrote true])).map
        (fun w => w.client.sent.map Line.seq) = some [0, 513, 2] ∧
      ¬([0, 513, 2] : List ℕ).Pairwise (· < ·) := by
  decide +kernel

end Logs
end S2S
