/-
# What the worklet plays

The playback side of the worklet of `src/tools/webui/src/lib/s2s.ts`: a list of
chunks with an offset into the first one (`pull`), what the page posts to it
(`onMessage`) and what it reports after a block (`process`).  `Playback` is what
it is for: one list of samples, and how many of them were taken.

A chunk is shifted when the offset reaches its length, by an equality test that
an empty chunk never meets.  As long as no pull finds one at the head, the two
agree (`plays_iff`); a pull that does gives `undefined`, and so does every one
behind it, each counted as played (`pulls_stuck`).
-/

import S2S.Client.Talk

namespace S2S
namespace Client

variable {F : Type} [Zero F]

/-! ### The worklet -/

/-- The fields of `DuplexProcessor` the playback rests on: the chunks and the offset into the first,
the counter and its tag, and the two samples the output lies between.  A sample may be
`undefined`. -/
structure Duplex (F : Type) where
  queue : List (List F) := []
  offset : ℕ := 0
  played : ℕ := 0
  generation : ℕ := 0
  a : Option F
  b : Option F

/-- The constructor. -/
def Duplex.new : Duplex F where
  a := some 0
  b := some 0

/-- `port.onmessage`. -/
def Duplex.onMessage (d : Duplex F) : Post F → Duplex F
  | .pcm samples => { d with queue := d.queue ++ [samples] }
  | .flush => { d with queue := [], offset := 0, a := some 0, b := some 0 }
  | .reset generation => { d with played := 0, generation := generation }

/-- `pull`: an element past the end of a chunk is `undefined`. -/
def Duplex.pull (d : Duplex F) : Duplex F × Option F :=
  match d.queue with
  | [] => (d, some 0)
  | chunk :: rest =>
    let next := { d with offset := d.offset + 1, played := d.played + 1 }
    (if next.offset = chunk.length then { next with queue := rest, offset := 0 } else next,
      chunk[d.offset]?)

/-- The body of the loop of `process`: one sample on. -/
def Duplex.advance (d : Duplex F) : Duplex F :=
  { d.pull.1 with a := d.b, b := d.pull.2 }

/-- The loop of `process`, given how many samples each sample of the output goes on by: the two it
lies between. -/
def Duplex.block (d : Duplex F) : List ℕ → Duplex F × List (Option F × Option F)
  | [] => (d, [])
  | n :: steps =>
    let d := Nat.iterate Duplex.advance n d
    ((d.block steps).1, (d.a, d.b) :: (d.block steps).2)

/-- `process`: the samples of a block, and the report when something was played. -/
def Duplex.process (d : Duplex F) (steps : List ℕ) :
    Duplex F × List (Option F × Option F) × Option (ℕ × ℕ) :=
  let block := d.block steps
  (block.1, block.2,
    if block.1.played ≠ d.played then some (block.1.played, block.1.generation) else none)

/-- What happens to the worklet. -/
inductive PlayEvent (F : Type)
  | message (p : Post F)
  | pull

/-- One event, and what a pull shows: the sample, and the count and its tag behind it. -/
def Duplex.step (d : Duplex F) : PlayEvent F → Duplex F × List (Option F × ℕ × ℕ)
  | .message p => (d.onMessage p, [])
  | .pull => (d.advance, [(d.pull.2, d.advance.played, d.advance.generation)])

/-- A run of events. -/
def Duplex.run (d : Duplex F) : List (PlayEvent F) → Duplex F × List (Option F × ℕ × ℕ)
  | [] => (d, [])
  | e :: events => (((d.step e).1.run events).1, (d.step e).2 ++ ((d.step e).1.run events).2)

theorem Duplex.run_pulls (d : Duplex F) (n : ℕ) :
    (d.run (List.replicate n .pull)).1 = Nat.iterate Duplex.advance n d := by
  induction n generalizing d with
  | zero => rfl
  | succ n ih => exact ih d.advance

/-- **A block is a run of pulls.** -/
theorem Duplex.process_fst (d : Duplex F) (steps : List ℕ) :
    (d.process steps).1 = (d.run (List.replicate steps.sum .pull)).1 := by
  rw [Duplex.run_pulls]
  show (d.block steps).1 = _
  induction steps generalizing d with
  | nil => rfl
  | cons n steps ih =>
    rw [Duplex.block, List.sum_cons, Nat.add_comm, Function.iterate_add_apply]
    exact ih _

/-! ### What it is for -/

/-- The samples posted since the last flush and how many of them were pulled, and those pulled since
the last reset. -/
structure Playback (F : Type) where
  posted : List F := []
  taken : ℕ := 0
  played : ℕ := 0
  generation : ℕ := 0
  taken_le : taken ≤ posted.length

omit [Zero F] in
theorem Playback.none_taken : 0 ≤ ([] : List F).length :=
  le_rfl

/-- Nothing posted yet. -/
def Playback.new : Playback F where
  taken_le := none_taken

/-- The samples that wait. -/
def Playback.waiting (s : Playback F) : List F := s.posted.drop s.taken

/-- A message: samples behind those there are, none, or a new count. -/
def Playback.onMessage (s : Playback F) : Post F → Playback F
  | .pcm samples => { s with
      posted := s.posted ++ samples
      taken_le := s.taken_le.trans (List.sublist_append_left ..).length_le }
  | .flush => { s with posted := [], taken := 0, taken_le := none_taken }
  | .reset generation => { s with played := 0, generation := generation }

/-- The next sample that was posted, zero when there is none. -/
def Playback.pull (s : Playback F) : Playback F × F :=
  if h : s.taken < s.posted.length then
    ({ s with taken := s.taken + 1, played := s.played + 1, taken_le := h }, s.posted[s.taken])
  else (s, 0)

def Playback.step (s : Playback F) : PlayEvent F → Playback F × List (Option F × ℕ × ℕ)
  | .message p => (s.onMessage p, [])
  | .pull => (s.pull.1, [(some s.pull.2, s.pull.1.played, s.pull.1.generation)])

def Playback.run (s : Playback F) : List (PlayEvent F) → Playback F × List (Option F × ℕ × ℕ)
  | [] => (s, [])
  | e :: events => (((s.step e).1.run events).1, (s.step e).2 ++ ((s.step e).1.run events).2)

/-! ### Where they agree -/

/-- No pull finds an empty chunk at the head of the queue. -/
def Duplex.Clear (d : Duplex F) (events : List (PlayEvent F)) : Prop :=
  ∀ before after, events = before ++ .pull :: after → (d.run before).1.queue.head? ≠ some []

/-- The samples the worklet holds. -/
def Duplex.waiting (d : Duplex F) : List F := d.queue.flatten.drop d.offset

/-- The worklet is where its purpose is, its offset within the first chunk or at its start. -/
structure Plays (d : Duplex F) (s : Playback F) : Prop where
  waiting : d.waiting = s.waiting
  offset : d.offset = 0 ∨ ∃ chunk rest, d.queue = chunk :: rest ∧ d.offset < chunk.length
  played : d.played = s.played
  generation : d.generation = s.generation

variable {d : Duplex F} {s : Playback F}

omit [Zero F] in
theorem Plays.offset_le (h : Plays d s) : d.offset ≤ d.queue.flatten.length := by
  rcases h.offset with hzero | ⟨chunk, rest, hqueue, hlt⟩
  · omega
  · rw [hqueue, List.flatten_cons, List.length_append]
    omega

theorem Plays.onMessage (h : Plays d s) (p : Post F) : Plays (d.onMessage p) (s.onMessage p) := by
  cases p with
  | flush => exact ⟨rfl, .inl rfl, h.played, h.generation⟩
  | reset generation => exact ⟨h.waiting, h.offset, rfl, rfl⟩
  | pcm samples =>
    refine ⟨?_, ?_, h.played, h.generation⟩
    · show (d.queue ++ [samples]).flatten.drop d.offset = (s.posted ++ samples).drop s.taken
      have hwaiting : d.queue.flatten.drop d.offset = s.posted.drop s.taken := h.waiting
      rw [List.flatten_concat, List.drop_append_of_le_length h.offset_le,
        List.drop_append_of_le_length s.taken_le, hwaiting]
    · rcases h.offset with hzero | ⟨chunk, rest, hqueue, hlt⟩
      · exact .inl hzero
      · exact .inr ⟨chunk, rest ++ [samples], by rw [Duplex.onMessage, hqueue, List.cons_append], hlt⟩

theorem Playback.pull_nil (h : s.waiting = []) : s.pull = (s, 0) :=
  dif_neg (not_lt.2 (List.drop_eq_nil_iff.1 h))

theorem Playback.pull_cons {x : F} {rest : List F} (h : s.waiting = x :: rest) :
    s.pull.2 = x ∧ s.pull.1.waiting = rest ∧ s.pull.1.played = s.played + 1 ∧
      s.pull.1.generation = s.generation := by
  have hlt : s.taken < s.posted.length := by
    by_contra hle
    rw [Playback.waiting, List.drop_eq_nil_of_le (not_lt.1 hle)] at h
    exact List.cons_ne_nil _ _ h.symm
  rw [Playback.waiting, List.drop_eq_getElem_cons hlt] at h
  obtain ⟨rfl, rfl⟩ := List.cons.inj h
  rw [Playback.pull, dif_pos hlt]
  exact ⟨rfl, rfl, rfl, rfl⟩

/-- **A pull that finds no empty chunk** gives the sample that waits first, zero when none does. -/
theorem Plays.advance (h : Plays d s) (hclear : d.queue.head? ≠ some []) :
    Plays d.advance s.pull.1 ∧ d.pull.2 = some s.pull.2 := by
  have hwaiting : d.queue.flatten.drop d.offset = s.waiting := h.waiting
  cases hqueue : d.queue with
  | nil =>
    rw [hqueue, List.flatten_nil, List.drop_nil] at hwaiting
    have hd : d.pull = (d, some 0) := by rw [Duplex.pull, hqueue]
    rw [Duplex.advance, hd, Playback.pull_nil hwaiting.symm]
    exact ⟨⟨h.waiting, h.offset, h.played, h.generation⟩, rfl⟩
  | cons chunk rest =>
    have hlt : d.offset < chunk.length := by
      rcases h.offset with hzero | ⟨chunk', rest', hqueue', hlt⟩
      · rw [hzero]
        refine List.length_pos_of_ne_nil fun hempty => hclear ?_
        rw [hqueue, hempty, List.head?_cons]
      · obtain ⟨rfl, -⟩ := List.cons.inj (hqueue.symm.trans hqueue')
        exact hlt
    rw [hqueue, List.flatten_cons, List.drop_append_of_le_length hlt.le,
      List.drop_eq_getElem_cons hlt, List.cons_append] at hwaiting
    obtain ⟨hsample, hrest, hplayed, hgeneration⟩ := Playback.pull_cons hwaiting.symm
    have hshown : d.pull.2 = some s.pull.2 := by
      rw [Duplex.pull, hqueue, hsample]
      exact List.getElem?_eq_getElem hlt
    refine ⟨?_, hshown⟩
    by_cases hend : d.offset + 1 = chunk.length
    · have hd : d.pull.1 = { d with queue := rest, offset := 0, played := d.played + 1 } := by
        rw [Duplex.pull, hqueue]
        exact if_pos hend
      rw [Duplex.advance, hd]
      refine ⟨?_, .inl rfl, (congrArg (· + 1) h.played).trans hplayed.symm,
        h.generation.trans hgeneration.symm⟩
      show rest.flatten.drop 0 = s.pull.1.waiting
      rw [hrest, hend, List.drop_length, List.nil_append, List.drop_zero]
    · have hd : d.pull.1 = { d with offset := d.offset + 1, played := d.played + 1 } := by
        rw [Duplex.pull, hqueue]
        exact if_neg hend
      rw [Duplex.advance, hd]
      refine ⟨?_, .inr ⟨chunk, rest, hqueue, by show d.offset + 1 < chunk.length; omega⟩,
        (congrArg (· + 1) h.played).trans hplayed.symm, h.generation.trans hgeneration.symm⟩
      show d.queue.flatten.drop (d.offset + 1) = s.pull.1.waiting
      rw [hrest, hqueue, List.flatten_cons, List.drop_append_of_le_length (by omega)]

/-- **A pull that finds one** gives `undefined`, and what it finds stays. -/
theorem Duplex.pull_empty (h : d.queue.head? = some []) :
    d.pull.2 = none ∧ d.advance.queue = d.queue ∧ d.advance.played = d.played + 1 := by
  obtain ⟨rest, hqueue⟩ : ∃ rest, d.queue = [] :: rest := by
    cases hd : d.queue with
    | nil => simp [hd] at h
    | cons chunk rest =>
      rw [hd, List.head?_cons, Option.some.injEq] at h
      exact ⟨rest, by rw [h]⟩
  have hne : d.offset + 1 ≠ ([] : List F).length := by simp
  rw [Duplex.advance, Duplex.pull, hqueue]
  refine ⟨List.getElem?_nil, ?_, ?_⟩ <;> dsimp only <;> rw [if_neg hne]

/-- Behind an empty chunk the answer is never heard, and every pull counts. -/
theorem pulls_stuck (h : d.queue.head? = some []) (n : ℕ) :
    (∀ shown ∈ (d.run (List.replicate n .pull)).2, shown.1 = none) ∧
      (d.run (List.replicate n .pull)).1.queue = d.queue ∧
      (d.run (List.replicate n .pull)).1.played = d.played + n := by
  induction n generalizing d with
  | zero => exact ⟨by simp [Duplex.run], rfl, rfl⟩
  | succ n ih =>
    obtain ⟨hnone, hqueue, hplayed⟩ := Duplex.pull_empty h
    obtain ⟨ihshown, ihqueue, ihplayed⟩ := ih (d := d.advance) (by rw [hqueue]; exact h)
    rw [List.replicate_succ, Duplex.run]
    refine ⟨fun shown hshown => ?_, ihqueue.trans hqueue, ihplayed.trans (by rw [hplayed]; omega)⟩
    rcases List.mem_append.1 hshown with hfirst | hrest
    · rw [List.mem_singleton.1 hfirst]
      exact hnone
    · exact ihshown shown hrest

/-! ### Runs -/

theorem Playback.run_append (s : Playback F) (events events' : List (PlayEvent F)) :
    s.run (events ++ events') = (((s.run events).1.run events').1,
      (s.run events).2 ++ ((s.run events).1.run events').2) := by
  induction events generalizing s with
  | nil => rfl
  | cons e events ih => simp only [List.cons_append, Playback.run, ih, List.append_assoc]

theorem Duplex.clear_cons (d : Duplex F) (e : PlayEvent F) (events : List (PlayEvent F)) :
    d.Clear (e :: events) ↔
      (e = .pull → d.queue.head? ≠ some []) ∧ (d.step e).1.Clear events := by
  constructor
  · intro h
    refine ⟨fun he => h [] events (by rw [he, List.nil_append]), fun before after hsplit => ?_⟩
    exact h (e :: before) after (by rw [hsplit, List.cons_append])
  · rintro ⟨hfirst, hrest⟩ before after hsplit
    cases before with
    | nil => exact hfirst (List.cons.inj hsplit).1
    | cons e' before =>
      obtain ⟨rfl, htail⟩ := List.cons.inj hsplit
      exact hrest before after htail

/-- **A clear run plays what was posted**, and ends where it should. -/
theorem Plays.run (h : Plays d s) {events : List (PlayEvent F)} (hclear : d.Clear events) :
    (d.run events).2 = (s.run events).2 ∧ Plays (d.run events).1 (s.run events).1 := by
  induction events generalizing d s with
  | nil => exact ⟨rfl, h⟩
  | cons e events ih =>
    obtain ⟨hfirst, hrest⟩ := (d.clear_cons e events).1 hclear
    cases e with
    | message p => exact ih (h.onMessage p) hrest
    | pull =>
      obtain ⟨hnext, hsample⟩ := h.advance (hfirst rfl)
      obtain ⟨hshown, hend⟩ := ih hnext hrest
      refine ⟨?_, hend⟩
      rw [Duplex.run, Playback.run, Duplex.step, Playback.step, hshown, hsample, hnext.played,
        hnext.generation]

/-- **Only a clear run does.** -/
theorem Plays.clear_of_run (h : Plays d s) {events : List (PlayEvent F)}
    (hshown : (d.run events).2 = (s.run events).2) : d.Clear events := by
  induction events generalizing d s with
  | nil => exact fun before after hsplit => absurd hsplit (by simp)
  | cons e events ih =>
    cases e with
    | message p => exact (d.clear_cons _ _).2 ⟨by simp, ih (h.onMessage p) hshown⟩
    | pull =>
      have hhead : d.queue.head? ≠ some [] := by
        intro hempty
        rw [Duplex.run, Playback.run, Duplex.step, Playback.step] at hshown
        have hfirst := congrArg Prod.fst (List.cons.inj hshown).1
        rw [(Duplex.pull_empty hempty).1] at hfirst
        exact Option.some_ne_none _ hfirst.symm
      refine (d.clear_cons _ _).2 ⟨fun _ => hhead, ih (h.advance hhead).1 ?_⟩
      exact (List.cons.inj hshown).2

/-! ### An answer -/

/-- The samples that some events post. -/
def queuedIn (events : List (PlayEvent F)) : ℕ :=
  (events.map fun
    | .message (.pcm samples) => samples.length
    | _ => 0).sum

/-- No flush and no reset among them. -/
def Ongoing (events : List (PlayEvent F)) : Prop :=
  ∀ e ∈ events, e ≠ .message .flush ∧ ∀ generation, e ≠ .message (.reset generation)

/-- During an answer, what was played and what waits is what was posted. -/
theorem played_add_waiting (s : Playback F) {events : List (PlayEvent F)} (h : Ongoing events) :
    (s.run events).1.played + (s.run events).1.waiting.length
      = s.played + s.waiting.length + queuedIn events := by
  induction events generalizing s with
  | nil => rfl
  | cons e events ih =>
    have hrest := ih (s.step e).1 fun e' he' => h e' (List.mem_cons_of_mem _ he')
    obtain ⟨hflush, hreset⟩ := h e (List.mem_cons_self ..)
    rw [Playback.run]
    refine hrest.trans ?_
    have hcount : queuedIn (e :: events) = queuedIn [e] + queuedIn events := by simp [queuedIn]
    rw [hcount]
    cases e with
    | message p =>
      cases p with
      | flush => exact absurd rfl hflush
      | reset generation => exact absurd rfl (hreset generation)
      | pcm samples =>
        have htaken := s.taken_le
        show s.played + ((s.posted ++ samples).drop s.taken).length + _
          = s.played + (s.posted.drop s.taken).length + (samples.length + 0 + _)
        simp only [List.length_drop, List.length_append]
        omega
    | pull =>
      show s.pull.1.played + s.pull.1.waiting.length + _ = _ + (0 + _)
      cases hwaiting : s.waiting with
      | nil => rw [Playback.pull_nil hwaiting, hwaiting, Nat.zero_add]
      | cons x rest =>
        obtain ⟨-, hrest, hplayed, -⟩ := Playback.pull_cons hwaiting
        rw [hrest, hplayed, List.length_cons]
        omega

/-- What the worklet owes the page.  A pull gives the sample posted next since the last flush, zero
when none waits, and counts it, a zero not; and of an answer that was opened with nothing waiting,
all samples queued are played when none waits any more, not before. -/
structure Faithful (events : List (PlayEvent F)) : Prop where
  shown : (Duplex.new.run events).2 = (Playback.new.run events).2
  closes : ∀ before generation during after,
    events = before ++ .message (.reset generation) :: (during ++ after) → Ongoing during →
    (Duplex.new.run before).1.waiting = [] →
      let d := (Duplex.new.run (before ++ .message (.reset generation) :: during)).1
      d.generation = generation ∧ (queuedIn during ≤ d.played ↔ d.waiting = [])

theorem plays_new : Plays (Duplex.new : Duplex F) Playback.new := ⟨rfl, .inl rfl, rfl, rfl⟩

theorem Playback.generation_run (s : Playback F) {events : List (PlayEvent F)} (h : Ongoing events) :
    (s.run events).1.generation = s.generation := by
  induction events generalizing s with
  | nil => rfl
  | cons e events ih =>
    refine (ih (s.step e).1 fun e' he' => h e' (List.mem_cons_of_mem _ he')).trans ?_
    cases e with
    | pull =>
      show s.pull.1.generation = _
      unfold Playback.pull
      split_ifs <;> rfl
    | message p =>
      cases p with
      | reset generation => exact absurd rfl ((h _ (List.mem_cons_self ..)).2 generation)
      | _ => rfl

/-- **The worklet plays what was posted exactly when no pull finds an empty chunk at the head.** -/
theorem plays_iff (events : List (PlayEvent F)) : Faithful events ↔ Duplex.new.Clear events := by
  constructor
  · intro h
    exact plays_new.clear_of_run h.shown
  · intro hclear
    refine ⟨(plays_new.run hclear).1, ?_⟩
    rintro before generation during after rfl hongoing hdry
    have hstart : ∀ first rest, before ++ .message (.reset generation) :: (during ++ after)
        = first ++ rest → (Duplex.new : Duplex F).Clear first := by
      intro first rest hsplit before' after' hfirst
      refine hclear before' (after' ++ rest) ?_
      rw [hsplit, hfirst, List.append_assoc, List.cons_append]
    obtain ⟨-, hopen⟩ := plays_new.run (hstart before _ rfl)
    obtain ⟨-, hend⟩ := plays_new.run
      (hstart (before ++ .message (.reset generation) :: during) after (by simp))
    have hrun : (Playback.new.run (before ++ .message (.reset generation) :: during)).1
        = (((Playback.new.run before).1.onMessage (.reset generation)).run during).1 := by
      rw [Playback.run_append]
      rfl
    rw [hrun] at hend
    have hcount := played_add_waiting ((Playback.new.run before).1.onMessage (.reset generation)) hongoing
    have hopened : ((Playback.new.run before).1.onMessage (.reset generation)).waiting = [] :=
      hopen.waiting.symm.trans hdry
    rw [hopened, List.length_nil, Nat.add_zero,
      show ((Playback.new.run before).1.onMessage (.reset generation)).played = 0 from rfl,
      Nat.zero_add] at hcount
    dsimp only
    refine ⟨hend.generation.trans (Playback.generation_run _ hongoing), ?_⟩
    rw [hend.played, hend.waiting, ← List.length_eq_zero_iff]
    omega

/-- An empty chunk in front of a sample that is never heard. -/
theorem empty_chunk_stops :
    ¬Faithful [PlayEvent.message (.pcm ([] : List ℤ)), .message (.pcm [5]), .pull] := by
  intro h
  have hshown := h.shown
  exact absurd hshown (by decide)

end Client
end S2S
