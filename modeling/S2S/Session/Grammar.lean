/-
# The turn grammar

What a session reports over a whole run, whatever is called and in whatever
order: `TurnGrammar`, clause by clause the state machine that
`src/s2s-session.h` draws.  Audio, probabilities, scores, thresholds, releases
and the floor may be anything.

A run is read by the machine of `S2S.Session.Turn`, so the clauses are facts of
that machine: what a stretch it has read holds (`Marks`), and what may still
come (`Past`, `follow_silent`).
-/

import S2S.Session.Turn

namespace S2S
namespace Session

variable {F V : Type}

/-! ### Reading a run -/

/-- The reports of a run. -/
def reportsOf (items : List (Item F)) : List (Report F) :=
  items.filterMap fun
    | .call _ => none
    | .report r => some r

/-- A stretch without a report. -/
def Silent (items : List (Item F)) : Prop := ∀ item ∈ items, ∃ op, item = .call op

/-- A stretch without a report, barge-ins aside. -/
def Muted (items : List (Item F)) : Prop := ∀ r ∈ reportsOf items, r.event = .bargeIn

/-- A report that opens a turn: a start with revision zero. -/
def Report.Opens (r : Report F) : Prop := r.event = .speechStarted ∧ r.revision = 0

instance (r : Report F) : Decidable r.Opens := inferInstanceAs (Decidable (_ ∧ _))

/-- How many turns a run opened. -/
def openings (items : List (Item F)) : ℕ := (reportsOf items).countP fun r => r.Opens

/-- The turn and the revision of each commit. -/
def commits (items : List (Item F)) : List (ℕ × ℕ) :=
  ((reportsOf items).filter fun r => r.event = .turnCommitted).map fun r => (r.turnId, r.revision)

/-- Whether the assistant holds the floor, as the last call said. -/
def floorOf (items : List (Item F)) : Bool :=
  items.foldl (fun floor item => match item with
    | .call (.setSpeaking speaking) => speaking
    | _ => floor) false

/-- An earlier turn, or an earlier revision of the same one. -/
def Earlier (p q : ℕ × ℕ) : Prop := p.1 < q.1 ∨ p.1 = q.1 ∧ p.2 < q.2

@[simp] theorem reportsOf_nil : reportsOf ([] : List (Item F)) = [] := rfl

@[simp] theorem reportsOf_append (l l' : List (Item F)) :
    reportsOf (l ++ l') = reportsOf l ++ reportsOf l' := List.filterMap_append

@[simp] theorem reportsOf_call (op : Op F) (l : List (Item F)) :
    reportsOf (.call op :: l) = reportsOf l := rfl

@[simp] theorem reportsOf_report (r : Report F) (l : List (Item F)) :
    reportsOf (.report r :: l) = r :: reportsOf l := rfl

@[simp] theorem reportsOf_map_report (rs : List (Report F)) : reportsOf (rs.map .report) = rs := by
  induction rs with
  | nil => rfl
  | cons r rs ih => exact congrArg (r :: ·) ih

@[simp] theorem mem_reportsOf {r : Report F} {items : List (Item F)} :
    r ∈ reportsOf items ↔ .report r ∈ items := by
  unfold reportsOf
  rw [List.mem_filterMap]
  constructor
  · rintro ⟨_ | r', hmem, h⟩
    · simp at h
    · simpa [← Option.some.inj h] using hmem
  · exact fun h => ⟨_, h, rfl⟩

/-- **The turn grammar of a run.** -/
structure TurnGrammar (trace : List (Item F)) : Prop where
  /-- Turns are numbered from one, one more at each opening. -/
  numbered : ∀ before r after, trace = before ++ .report r :: after →
    r.Opens → r.turnId = openings before + 1
  /-- A boundary is followed at once by what it means. -/
  stopped : ∀ before r after, trace = before ++ .report r :: after → r.event = .speechStopped →
    ∃ r' after', after = .report r' :: after' ∧
      (r'.event = .turnCommitted ∨ r'.event = .turnReopened) ∧
      r'.turnId = r.turnId ∧ r'.revision = r.revision
  /-- A reopened turn restarts one revision further, or commits. -/
  reopened : ∀ before r calls r' after,
    trace = before ++ .report r :: (calls ++ .report r' :: after) → Silent calls →
    r.event = .turnReopened → r'.turnId = r.turnId ∧
      (r'.event = .speechStarted ∧ r'.revision = r.revision + 1 ∨
        r'.event = .turnCommitted ∧ r'.revision = r.revision)
  /-- A turn resumes right after its commit, one revision further. -/
  resumed : ∀ before r after, trace = before ++ .report r :: after → r.event = .turnResumed →
    ∃ before' c calls, before = before' ++ .report c :: calls ∧ Silent calls ∧
      c.event = .turnCommitted ∧ c.turnId = r.turnId ∧ r.revision = c.revision + 1
  /-- Over the assistant, and right before the next turn opens. -/
  barged : ∀ before r after, trace = before ++ .report r :: after → r.event = .bargeIn →
    floorOf before = true ∧ ∃ r' after', after = .report r' :: after' ∧ r'.Opens ∧
      r'.turnId = r.turnId + 1
  /-- A turn is final right after its commit and a release that named it. -/
  released : ∀ before r after, trace = before ++ .report r :: after → r.event = .turnFinal →
    ∃ before' c calls calls', before = before' ++ .report c ::
        (calls ++ .call (.release r.turnId r.revision) :: calls') ∧
      Silent (calls ++ .call (.release r.turnId r.revision) :: calls') ∧
      c.event = .turnCommitted ∧ c.turnId = r.turnId ∧ c.revision = r.revision
  /-- Nothing but a barge-in names a final turn again. -/
  finished : ∀ before r after, trace = before ++ .report r :: after → r.event = .turnFinal →
    ∀ r', .report r' ∈ after → r'.event ≠ .bargeIn → r.turnId < r'.turnId
  /-- A turn opens as the first report of all, or right after the commit or the end of the turn
  before it. -/
  opened : ∀ before r after, trace = before ++ .report r :: after → r.Opens →
    r.turnId = 1 ∧ Muted before ∨
      ∃ before' c rest, before = before' ++ .report c :: rest ∧ Muted rest ∧
        (c.event = .turnCommitted ∨ c.event = .turnFinal) ∧ c.turnId + 1 = r.turnId
  /-- Every turn was committed when a later one opens. -/
  kept : ∀ before r after, trace = before ++ .report r :: after → r.Opens →
    ∀ turnId, 0 < turnId → turnId < r.turnId → ∃ revision, (turnId, revision) ∈ commits before
  /-- The commits are in order. -/
  increasing : (commits trace).Pairwise Earlier

/-! ### What moves the machine -/

/-- A report and the turns around it, one case for each. -/
inductive Moves (t : Turn) (r : Report F) (t' : Turn) : Prop
  | opens (idle : t.stage = .cut ∨ t.Over ∧ t.floor = false) (event : r.event = .speechStarted)
      (after : t' = ⟨.speaking, t.turnId + 1, 0, t.floor⟩)
  | restarts (pending : t.stage = .pending) (event : r.event = .speechStarted)
      (after : t' = ⟨.speaking, t.turnId, t.revision + 1, t.floor⟩)
  | stops (speaking : t.stage = .speaking) (event : r.event = .speechStopped)
      (after : t' = ⟨.boundary, t.turnId, t.revision, t.floor⟩)
  | reopens (boundary : t.stage = .boundary) (event : r.event = .turnReopened)
      (after : t' = ⟨.pending, t.turnId, t.revision, t.floor⟩)
  | commits (boundary : t.stage = .boundary ∨ t.stage = .pending) (event : r.event = .turnCommitted)
      (after : t' = ⟨.committed false, t.turnId, t.revision, t.floor⟩)
  | finals (released : t.stage = .committed true) (event : r.event = .turnFinal)
      (after : t' = ⟨.waiting, t.turnId, t.revision, t.floor⟩)
  | resumes (committed : ∃ released, t.stage = .committed released) (event : r.event = .turnResumed)
      (after : t' = ⟨.speaking, t.turnId, t.revision + 1, t.floor⟩)
  | barges (idle : t.Over) (floor : t.floor = true) (event : r.event = .bargeIn)
      (after : t' = ⟨.cut, t.turnId, t.revision, t.floor⟩)

theorem report_some {t t' : Turn} {r : Report F} (h : t.report r = some t') :
    Moves t r t' ∧ t'.turnId = r.turnId ∧ t'.revision = r.revision := by
  unfold Turn.report at h
  cases hnext : t.event r.event with
  | none => simp [hnext] at h
  | some next =>
    rw [hnext] at h
    dsimp only at h
    split_ifs at h with hnamed
    obtain rfl := Option.some.inj h
    refine ⟨?_, hnamed⟩
    cases he : r.event <;> rw [he, Turn.event] at hnext <;> split_ifs at hnext with h₁
    · exact .restarts h₁ he (Option.some.inj hnext).symm
    · exact .opens ‹_› he (Option.some.inj hnext).symm
    · exact .stops h₁ he (Option.some.inj hnext).symm
    · exact .reopens h₁ he (Option.some.inj hnext).symm
    · exact .commits h₁ he (Option.some.inj hnext).symm
    · exact .finals h₁ he (Option.some.inj hnext).symm
    · exact .resumes h₁ he (Option.some.inj hnext).symm
    · exact .barges h₁.1 h₁.2 he (Option.some.inj hnext).symm

/-! What a report says of the turns around it, by its name and by where it was made. -/

section Moves

variable {t t' : Turn} {r : Report F}

theorem Moves.of_opens (h : Moves t r t') (hopens : r.Opens) (hrev : t'.revision = r.revision) :
    (t.stage = .cut ∨ t.Over ∧ t.floor = false) ∧ t' = ⟨.speaking, t.turnId + 1, 0, t.floor⟩ := by
  obtain ⟨hevent, hzero⟩ := hopens
  cases h with
  | opens idle event after => exact ⟨idle, after⟩
  | restarts pending event after =>
    rw [after, hzero] at hrev
    exact absurd hrev (Nat.succ_ne_zero _)
  | _ => simp_all

theorem Moves.of_stopped (h : Moves t r t') (hevent : r.event = .speechStopped) :
    t'.stage = .boundary := by
  cases h with
  | stops speaking event after => rw [after]
  | _ => simp_all

theorem Moves.of_reopened (h : Moves t r t') (hevent : r.event = .turnReopened) :
    t'.stage = .pending := by
  cases h with
  | reopens boundary event after => rw [after]
  | _ => simp_all

theorem Moves.of_resumed (h : Moves t r t') (hevent : r.event = .turnResumed) :
    (∃ released, t.stage = .committed released) ∧
      t' = ⟨.speaking, t.turnId, t.revision + 1, t.floor⟩ := by
  cases h with
  | resumes committed event after => exact ⟨committed, after⟩
  | _ => simp_all

theorem Moves.of_bargeIn (h : Moves t r t') (hevent : r.event = .bargeIn) :
    t.floor = true ∧ t' = ⟨.cut, t.turnId, t.revision, t.floor⟩ := by
  cases h with
  | barges idle floor event after => exact ⟨floor, after⟩
  | _ => simp_all

theorem Moves.of_final (h : Moves t r t') (hevent : r.event = .turnFinal) :
    t.stage = .committed true ∧ t' = ⟨.waiting, t.turnId, t.revision, t.floor⟩ := by
  cases h with
  | finals released event after => exact ⟨released, after⟩
  | _ => simp_all

theorem Moves.at_boundary (h : Moves t r t') (hstage : t.stage = .boundary) :
    (r.event = .turnCommitted ∨ r.event = .turnReopened) ∧ t'.turnId = t.turnId ∧
      t'.revision = t.revision := by
  cases h with
  | commits boundary event after => exact ⟨.inl event, by rw [after], by rw [after]⟩
  | reopens boundary event after => exact ⟨.inr event, by rw [after], by rw [after]⟩
  | opens idle event after => simp [hstage, Turn.Over] at idle
  | barges idle floor event after => simp [hstage, Turn.Over] at idle
  | _ => simp_all

theorem Moves.at_pending (h : Moves t r t') (hstage : t.stage = .pending) :
    t'.turnId = t.turnId ∧ (r.event = .speechStarted ∧ t'.revision = t.revision + 1 ∨
      r.event = .turnCommitted ∧ t'.revision = t.revision) := by
  cases h with
  | restarts pending event after => exact ⟨by rw [after], .inl ⟨event, by rw [after]⟩⟩
  | commits boundary event after => exact ⟨by rw [after], .inr ⟨event, by rw [after]⟩⟩
  | opens idle event after => simp [hstage, Turn.Over] at idle
  | barges idle floor event after => simp [hstage, Turn.Over] at idle
  | _ => simp_all

theorem Moves.at_cut (h : Moves t r t') (hstage : t.stage = .cut) :
    r.event = .speechStarted ∧ t'.turnId = t.turnId + 1 ∧ t'.revision = 0 := by
  cases h with
  | opens idle event after => exact ⟨event, by rw [after], by rw [after]⟩
  | barges idle floor event after => simp [hstage, Turn.Over] at idle
  | _ => simp_all

end Moves

/-- A call leaves the number and the revision; the stage changes on a release of the committed
turn only. -/
theorem call_some {t t' : Turn} {op : Op F} (h : t.call op = some t') :
    t.stage ≠ .boundary ∧ t.stage ≠ .cut ∧ t'.turnId = t.turnId ∧ t'.revision = t.revision ∧
      (t'.stage = t.stage ∨ t.stage = .committed false ∧ t'.stage = .committed true ∧
        op = .release t.turnId t.revision) := by
  unfold Turn.call at h
  split_ifs at h with hrest
  refine ⟨fun h' => hrest (.inl h'), fun h' => hrest (.inr h'), ?_⟩
  cases op with
  | push pcm => obtain rfl := Option.some.inj h; exact ⟨rfl, rfl, .inl rfl⟩
  | setSpeaking speaking => obtain rfl := Option.some.inj h; exact ⟨rfl, rfl, .inl rfl⟩
  | setParams p => obtain rfl := Option.some.inj h; exact ⟨rfl, rfl, .inl rfl⟩
  | release turnId revision =>
    dsimp only at h
    split_ifs at h with hnamed
    · obtain rfl := Option.some.inj h
      obtain ⟨hstage, rfl, rfl⟩ := hnamed
      exact ⟨rfl, rfl, .inr ⟨hstage, rfl, rfl⟩⟩
    · obtain rfl := Option.some.inj h
      exact ⟨rfl, rfl, .inl rfl⟩

theorem floor_call {t t' : Turn} {op : Op F} (h : t.call op = some t') :
    t'.floor = match op with
      | .setSpeaking speaking => speaking
      | _ => t.floor := by
  unfold Turn.call at h
  split_ifs at h
  cases op with
  | push pcm => obtain rfl := Option.some.inj h; rfl
  | setSpeaking speaking => obtain rfl := Option.some.inj h; rfl
  | setParams p => obtain rfl := Option.some.inj h; rfl
  | release turnId revision =>
    dsimp only at h
    split_ifs at h <;> obtain rfl := Option.some.inj h <;> rfl

/-! ### What a stretch that was read holds -/

/-- The latest turn has been handed over, or there is none. -/
def Handed (t : Turn) : Prop := t.Over ∨ t.stage = .cut

/-- What the items read so far hold when the machine stands at `t`. -/
structure Marks (items : List (Item F)) (t : Turn) : Prop where
  opened : openings items = t.turnId
  floor : floorOf items = t.floor
  earlier : ∀ p ∈ commits items, Earlier p (t.turnId, t.revision) ∨
    p = (t.turnId, t.revision) ∧ Handed t
  sorted : (commits items).Pairwise Earlier
  kept : ∀ turnId, 0 < turnId → (turnId < t.turnId ∨ turnId = t.turnId ∧ Handed t) →
    ∃ revision, (turnId, revision) ∈ commits items
  last : ∀ released, t.stage = .committed released → ∃ before c calls,
    items = before ++ .report c :: calls ∧ Silent calls ∧ c.event = .turnCommitted ∧
      c.turnId = t.turnId ∧ c.revision = t.revision ∧
      (released = true → ∃ calls₁ calls₂,
        calls = calls₁ ++ .call (.release t.turnId t.revision) :: calls₂)
  handed : Handed t → t.turnId = 0 ∧ Muted items ∨ ∃ before c rest,
    items = before ++ .report c :: rest ∧ Muted rest ∧
      (c.event = .turnCommitted ∨ c.event = .turnFinal) ∧ c.turnId = t.turnId

theorem marks_nil : Marks ([] : List (Item F)) .start where
  opened := rfl
  floor := rfl
  earlier := by simp [commits, reportsOf]
  sorted := .nil
  kept := by
    intro turnId hpos h
    simp only [Turn.start] at h
    omega
  last := by simp [Turn.start]
  handed := fun _ => .inl ⟨rfl, by simp [Muted]⟩

theorem Silent.call {items : List (Item F)} (h : Silent items) (op : Op F) :
    Silent (items ++ [.call op]) := by
  intro item hitem
  rcases List.mem_append.1 hitem with hitem | hitem
  · exact h item hitem
  · exact ⟨op, List.mem_singleton.1 hitem⟩

theorem Muted.call {items : List (Item F)} (h : Muted items) (op : Op F) :
    Muted (items ++ [.call op]) := by
  simpa [Muted] using h

theorem Muted.bargeIn {items : List (Item F)} {r : Report F} (h : Muted items)
    (hevent : r.event = .bargeIn) : Muted (items ++ [.report r]) := by
  intro r' hr'
  rw [reportsOf_append] at hr'
  rcases List.mem_append.1 hr' with hr' | hr'
  · exact h r' hr'
  · rw [List.mem_singleton.1 hr']
    exact hevent

theorem Marks.call {items : List (Item F)} {t t' : Turn} {op : Op F} (hm : Marks items t)
    (h : t.call op = some t') : Marks (items ++ [.call op]) t' := by
  obtain ⟨hboundary, hcut, hid, hrev, hstage⟩ := call_some h
  have hcommits : commits (items ++ [.call op]) = commits items := by simp [commits, reportsOf]
  have hhanded : Handed t' ↔ Handed t := by
    unfold Handed Turn.Over
    rcases hstage with hs | ⟨hs, hs', -⟩
    · rw [hs]
    · simp [hs, hs']
  refine ⟨?_, ?_, ?_, ?_, ?_, ?_, ?_⟩
  · simpa [openings, hid] using hm.opened
  · rw [floorOf, List.foldl_append, floor_call h]
    have := hm.floor
    rw [floorOf] at this
    cases op <;> simp [this]
  · rw [hcommits, hid, hrev, hhanded]
    exact hm.earlier
  · rw [hcommits]
    exact hm.sorted
  · rw [hcommits, hid, hhanded]
    exact hm.kept
  · intro released hreleased
    rcases hstage with hs | ⟨hs, hs', rfl⟩
    · obtain ⟨before, c, calls, hitems, hsilent, hc, hcid, hcrev, hrel⟩ :=
        hm.last released (hs.symm.trans hreleased)
      refine ⟨before, c, calls ++ [.call op], by simp [hitems], hsilent.call op, hc,
        hcid.trans hid.symm, hcrev.trans hrev.symm, fun hb => ?_⟩
      obtain ⟨calls₁, calls₂, hcalls⟩ := hrel hb
      exact ⟨calls₁, calls₂ ++ [.call op], by simp [hcalls, hid, hrev]⟩
    · obtain ⟨before, c, calls, hitems, hsilent, hc, hcid, hcrev, -⟩ := hm.last false hs
      exact ⟨before, c, calls ++ [.call (.release t.turnId t.revision)], by simp [hitems],
        hsilent.call _, hc, hcid.trans hid.symm, hcrev.trans hrev.symm,
        fun _ => ⟨calls, [], by simp [hid, hrev]⟩⟩
  · rw [hhanded, hid]
    intro h
    rcases hm.handed h with ⟨hfirst, hmuted⟩ | ⟨before, c, rest, hitems, hmuted, hc⟩
    · exact .inl ⟨hfirst, hmuted.call op⟩
    · exact .inr ⟨before, c, rest ++ [.call op], by simp [hitems], hmuted.call op, hc⟩

theorem openings_report (items : List (Item F)) (r : Report F) :
    openings (items ++ [.report r]) = openings items + if r.Opens then 1 else 0 := by
  simp [openings, List.countP_singleton]

theorem commits_report (items : List (Item F)) (r : Report F) :
    commits (items ++ [.report r])
      = commits items ++ if r.event = .turnCommitted then [(r.turnId, r.revision)] else [] := by
  simp only [commits, reportsOf_append, reportsOf_report, reportsOf_nil, List.filter_append,
    List.map_append, List.filter_singleton]
  by_cases h : r.event = .turnCommitted <;> simp [h]

theorem floorOf_report (items : List (Item F)) (r : Report F) :
    floorOf (items ++ [.report r]) = floorOf items := by
  simp [floorOf, List.foldl_append]

/-- A report that neither opens nor commits, and leaves the turn, maybe one revision further. -/
theorem Marks.within {items : List (Item F)} {t t' : Turn} {r : Report F} (hm : Marks items t)
    (hopens : ¬r.Opens) (hcommitted : r.event ≠ .turnCommitted) (hid : t'.turnId = t.turnId)
    (hnamed : t'.turnId = r.turnId)
    (hfloor : t'.floor = t.floor) (hstage : ∀ released, t'.stage ≠ .committed released)
    (hrev : t'.revision = t.revision ∧ (Handed t → Handed t') ∨ t'.revision = t.revision + 1)
    (hhanded : Handed t' → Handed t ∧ (r.event = .turnFinal ∨ r.event = .bargeIn)) :
    Marks (items ++ [.report r]) t' where
  opened := by rw [openings_report, if_neg hopens, hm.opened, hid]; rfl
  floor := by rw [floorOf_report, hm.floor, hfloor]
  earlier := by
    rw [commits_report, if_neg hcommitted, List.append_nil, hid]
    intro p hp
    rcases hrev with ⟨hrev, hkeep⟩ | hrev
    · rw [hrev]
      exact (hm.earlier p hp).imp_right fun h => ⟨h.1, hkeep h.2⟩
    · rcases hm.earlier p hp with h | ⟨rfl, -⟩
      · exact .inl (h.imp_right fun h => ⟨h.1, by simp only [hrev]; omega⟩)
      · exact .inl (.inr ⟨rfl, by simp only [hrev]; omega⟩)
  sorted := by
    rw [commits_report, if_neg hcommitted, List.append_nil]
    exact hm.sorted
  kept := by
    rw [commits_report, if_neg hcommitted, List.append_nil, hid]
    exact fun turnId hpos h => hm.kept turnId hpos (h.imp_right fun h => ⟨h.1, (hhanded h.2).1⟩)
  last := fun released h => absurd h (hstage released)
  handed := by
    intro h
    obtain ⟨hold, hfinal | hbarge⟩ := hhanded h
    · exact .inr ⟨items, r, [], rfl, by simp [Muted], .inr hfinal, hnamed.symm⟩
    · rw [hid]
      rcases hm.handed hold with ⟨hfirst, hmuted⟩ | ⟨before, c, rest, hitems, hmuted, hc⟩
      · exact .inl ⟨hfirst, hmuted.bargeIn hbarge⟩
      · exact .inr ⟨before, c, rest ++ [.report r], by simp [hitems], hmuted.bargeIn hbarge, hc⟩

/-- A report that opens the next turn. -/
theorem Marks.opens {items : List (Item F)} {t : Turn} {r : Report F} (hm : Marks items t)
    (hhanded : Handed t) (hopens : r.Opens) :
    Marks (items ++ [.report r]) ⟨.speaking, t.turnId + 1, 0, t.floor⟩ := by
  have hcommits : commits (items ++ [.report r]) = commits items := by
    rw [commits_report, if_neg (by simp [hopens.1]), List.append_nil]
  refine ⟨?_, by rw [floorOf_report, hm.floor], ?_, ?_, ?_, fun released h => by simp at h,
    by simp [Handed, Turn.Over]⟩
  · rw [openings_report, if_pos hopens, hm.opened]
  · rw [hcommits]
    intro p hp
    rcases hm.earlier p hp with (h | ⟨h, -⟩) | ⟨rfl, -⟩
    · exact .inl (.inl (Nat.lt_succ_of_lt h))
    · exact .inl (.inl (Nat.lt_succ_of_le h.le))
    · exact .inl (.inl (Nat.lt_succ_self _))
  · rw [hcommits]
    exact hm.sorted
  · rw [hcommits]
    intro turnId hpos hle
    refine hm.kept turnId hpos ?_
    rcases hle with hle | ⟨-, hhanded'⟩
    · exact (Nat.lt_succ_iff_lt_or_eq.1 hle).imp_right fun h => ⟨h, hhanded⟩
    · simp [Handed, Turn.Over] at hhanded'

/-- The commit of the latest turn. -/
theorem Marks.commits {items : List (Item F)} {t : Turn} {r : Report F} (hm : Marks items t)
    (hopen : ¬Handed t) (hevent : r.event = .turnCommitted) (hid : t.turnId = r.turnId)
    (hrev : t.revision = r.revision) :
    Marks (items ++ [.report r]) ⟨.committed false, t.turnId, t.revision, t.floor⟩ := by
  have hold : ∀ p ∈ Session.commits items, Earlier p (t.turnId, t.revision) := fun p hp =>
    (hm.earlier p hp).resolve_right fun h => hopen h.2
  have hnew : Session.commits (items ++ [.report r]) =
      Session.commits items ++ [(t.turnId, t.revision)] := by
    rw [commits_report, if_pos hevent, hid, hrev]
  have hhanded : Handed ⟨.committed false, t.turnId, t.revision, t.floor⟩ := .inl (.inr ⟨_, rfl⟩)
  refine ⟨?_, by rw [floorOf_report, hm.floor], ?_, ?_, ?_, ?_,
    fun _ => .inr ⟨items, r, [], rfl, by simp [Muted], .inl hevent, hid.symm⟩⟩
  · rw [openings_report, if_neg (by simp [Report.Opens, hevent]), hm.opened]; rfl
  · rw [hnew]
    intro p hp
    rcases List.mem_append.1 hp with hp | hp
    · exact .inl (hold p hp)
    · exact .inr ⟨by simpa using hp, hhanded⟩
  · rw [hnew, List.pairwise_append]
    exact ⟨hm.sorted, List.pairwise_singleton _ _, fun p hp q hq => by
      rw [List.mem_singleton.1 hq]; exact hold p hp⟩
  · rw [hnew]
    intro turnId hpos hle
    rcases hle with hle | ⟨rfl, -⟩
    · obtain ⟨revision, h⟩ := hm.kept turnId hpos (.inl hle)
      exact ⟨revision, List.mem_append_left _ h⟩
    · exact ⟨t.revision, by simp⟩
  · intro released hreleased
    refine ⟨items, r, [], rfl, by simp [Silent], hevent, hid.symm, hrev.symm, fun hr => ?_⟩
    simp [hr] at hreleased

/-- **A report**, one case for each move of the machine. -/
theorem Marks.report {items : List (Item F)} {t t' : Turn} {r : Report F} (hm : Marks items t)
    (h : t.report r = some t') : Marks (items ++ [.report r]) t' := by
  obtain ⟨hmoves, hid, hrev⟩ := report_some h
  cases hmoves with
  | opens idle event after =>
    obtain rfl := after
    exact hm.opens (idle.elim .inr fun h => .inl h.1) ⟨event, hrev.symm⟩
  | restarts pending event after =>
    obtain rfl := after
    refine hm.within (fun h => ?_) (by simp [event]) rfl hid rfl (by simp) (.inr rfl)
      (by simp [Handed, Turn.Over])
    have := h.2
    simp only at hrev
    omega
  | stops speaking event after =>
    obtain rfl := after
    exact hm.within (fun h => by simp [Report.Opens, event] at h) (by simp [event]) rfl hid rfl
      (by simp) (.inl ⟨rfl, by simp [Handed, Turn.Over, speaking]⟩) (by simp [Handed, Turn.Over])
  | reopens boundary event after =>
    obtain rfl := after
    exact hm.within (fun h => by simp [Report.Opens, event] at h) (by simp [event]) rfl hid rfl
      (by simp) (.inl ⟨rfl, by simp [Handed, Turn.Over, boundary]⟩) (by simp [Handed, Turn.Over])
  | commits boundary event after =>
    obtain rfl := after
    refine hm.commits ?_ event hid hrev
    rcases boundary with h | h <;> simp [Handed, Turn.Over, h]
  | finals released event after =>
    obtain rfl := after
    exact hm.within (fun h => by simp [Report.Opens, event] at h) (by simp [event]) rfl hid rfl
      (by simp) (.inl ⟨rfl, fun _ => .inl (.inl rfl)⟩)
      (fun _ => ⟨.inl (.inr ⟨_, released⟩), .inl event⟩)
  | resumes committed event after =>
    obtain rfl := after
    exact hm.within (fun h => by simp [Report.Opens, event] at h) (by simp [event]) rfl hid rfl
      (by simp) (.inr rfl) (by simp [Handed, Turn.Over])
  | barges idle floor event after =>
    obtain rfl := after
    exact hm.within (fun h => by simp [Report.Opens, event] at h) (by simp [event]) rfl hid rfl
      (by simp) (.inl ⟨rfl, fun _ => .inr rfl⟩) (fun _ => ⟨.inl idle, .inr event⟩)

/-- **What was read is held.** -/
theorem marks_follow {items : List (Item F)} {t : Turn}
    (h : Turn.start.follow items = some t) : Marks items t := by
  induction items using List.reverseRecOn generalizing t with
  | nil => exact Option.some.inj h ▸ marks_nil
  | append_singleton items item ih =>
    rw [Turn.follow_append] at h
    obtain ⟨t₁, h₁, h⟩ := Option.bind_eq_some_iff.1 h
    rw [Turn.follow_cons] at h
    obtain ⟨t₂, h₂, h⟩ := Option.bind_eq_some_iff.1 h
    obtain rfl := Option.some.inj h
    cases item with
    | call op => exact (ih h₁).call h₂
    | report r => exact (ih h₁).report h₂

/-! ### What may still come -/

/-- Turn `k` is final, or further behind. -/
def Past (k : ℕ) (t : Turn) : Prop :=
  k < t.turnId ∨ k = t.turnId ∧ (t.stage = .waiting ∨ t.stage = .cut)

/-- Once a turn is past, only a barge-in names it again. -/
theorem Past.follow {k : ℕ} {items : List (Item F)} {t t' : Turn} (hpast : Past k t)
    (h : t.follow items = some t') {r : Report F} (hr : .report r ∈ items)
    (hbarge : r.event ≠ .bargeIn) : k < r.turnId := by
  induction items generalizing t with
  | nil => simp at hr
  | cons item items ih =>
    rw [Turn.follow_cons] at h
    obtain ⟨t₁, h₁, hrest⟩ := Option.bind_eq_some_iff.1 h
    cases item with
    | call op =>
      obtain ⟨-, -, hid, -, hstage⟩ := call_some h₁
      refine ih ?_ hrest (by simpa using hr)
      unfold Past at hpast ⊢
      rw [hid]
      refine hpast.imp_right fun h => ⟨h.1, ?_⟩
      rcases hstage with hs | ⟨hs, -⟩
      · rw [hs]
        exact h.2
      · simp [hs] at h
    | report r₁ =>
      obtain ⟨hmoves, hid, -⟩ := report_some h₁
      have hstep : (r₁.event ≠ .bargeIn → k < r₁.turnId) ∧ Past k t₁ := by
        rw [← hid]
        unfold Past at hpast ⊢
        cases hmoves with
        | opens idle event after => obtain rfl := after; simp only; omega
        | restarts pending event after => obtain rfl := after; simp_all
        | stops speaking event after => obtain rfl := after; simp_all
        | reopens boundary event after => obtain rfl := after; simp_all
        | commits boundary event after =>
          obtain rfl := after
          rcases boundary with h | h <;> simp_all
        | finals released event after => obtain rfl := after; simp_all
        | resumes committed event after =>
          obtain rfl := after
          obtain ⟨_, h⟩ := committed
          simp_all
        | barges idle floor event after => obtain rfl := after; simp [event]; omega
      rcases List.mem_cons.1 hr with hr | hr
      · obtain rfl := Item.report.inj hr
        exact hstep.1 hbarge
      · exact ih hstep.2 hrest hr

/-- Calls alone leave a turn that is not committed as it stands. -/
theorem follow_silent {items : List (Item F)} {t t' : Turn} (hsilent : Silent items)
    (h : t.follow items = some t') (hstage : t.stage = .pending) :
    t'.stage = .pending ∧ t'.turnId = t.turnId ∧ t'.revision = t.revision := by
  induction items generalizing t with
  | nil => obtain rfl := Option.some.inj h; exact ⟨hstage, rfl, rfl⟩
  | cons item items ih =>
    obtain ⟨op, rfl⟩ := hsilent item List.mem_cons_self
    rw [Turn.follow_cons] at h
    obtain ⟨t₁, h₁, h⟩ := Option.bind_eq_some_iff.1 h
    obtain ⟨-, -, hid, hrev, hs⟩ := call_some h₁
    have hs₁ : t₁.stage = .pending := by
      rcases hs with hs | ⟨hs, -⟩
      · exact hs.trans hstage
      · simp [hstage] at hs
    obtain ⟨h₁, h₂, h₃⟩ := ih (fun i hi => hsilent i (List.mem_cons_of_mem _ hi)) h hs₁
    exact ⟨h₁, h₂.trans hid, h₃.trans hrev⟩

/-- In the middle of a window something follows at once, and it is a report. -/
theorem follow_midway {items : List (Item F)} {t t' : Turn} (h : t.follow items = some t')
    (hstage : t.stage = .boundary ∨ t.stage = .cut) (hend : t'.stage ≠ .boundary ∧ t'.stage ≠ .cut) :
    ∃ r items' t₁, items = .report r :: items' ∧ t.report r = some t₁ := by
  cases items with
  | nil =>
    obtain rfl := Option.some.inj h
    exact absurd hstage (not_or.2 hend)
  | cons item items =>
    rw [Turn.follow_cons] at h
    obtain ⟨t₁, h₁, -⟩ := Option.bind_eq_some_iff.1 h
    cases item with
    | call op =>
      obtain ⟨h₁, h₂, -⟩ := call_some h₁
      exact absurd hstage (not_or.2 ⟨h₁, h₂⟩)
    | report r => exact ⟨r, items, t₁, rfl, h₁⟩

/-! ### Every run -/

/-- What a report finds and leaves, in the middle of a run. -/
theorem follow_split {before after : List (Item F)} {r : Report F} {t : Turn}
    (h : Turn.start.follow (before ++ .report r :: after) = some t) :
    ∃ t₁ t₂, Marks before t₁ ∧ t₁.report r = some t₂ ∧ Marks (before ++ [.report r]) t₂ ∧
      t₂.follow after = some t := by
  rw [Turn.follow_append] at h
  obtain ⟨t₁, h₁, h⟩ := Option.bind_eq_some_iff.1 h
  rw [Turn.follow_cons] at h
  obtain ⟨t₂, h₂, h⟩ := Option.bind_eq_some_iff.1 h
  exact ⟨t₁, t₂, marks_follow h₁, h₂, (marks_follow h₁).report h₂, h⟩

/-- **What the machine accepts keeps to the grammar**, once no window is under way. -/
theorem turnGrammar_of_follow {trace : List (Item F)} {t : Turn}
    (h : Turn.start.follow trace = some t) (hend : t.stage ≠ .boundary ∧ t.stage ≠ .cut) :
    TurnGrammar trace where
  numbered := by
    rintro before r after rfl hopens
    obtain ⟨t₁, t₂, hm, hr, -, -⟩ := follow_split h
    obtain ⟨hmoves, hid, hrev⟩ := report_some hr
    obtain ⟨-, rfl⟩ := hmoves.of_opens hopens hrev
    rw [← hid, hm.opened]
  stopped := by
    rintro before r after rfl hevent
    obtain ⟨t₁, t₂, -, hr, -, h⟩ := follow_split h
    obtain ⟨hmoves, hid, hrev⟩ := report_some hr
    have hstage := hmoves.of_stopped hevent
    obtain ⟨r', after', t₃, rfl, hr'⟩ := follow_midway h (.inl hstage) hend
    obtain ⟨hmoves', hid', hrev'⟩ := report_some hr'
    rw [← hid, ← hrev]
    obtain ⟨hnext, hidNext, hrevNext⟩ := hmoves'.at_boundary hstage
    exact ⟨r', after', rfl, hnext, hid'.symm.trans hidNext, hrev'.symm.trans hrevNext⟩
  reopened := by
    rintro before r calls r' after rfl hsilent hevent
    obtain ⟨t₁, t₂, -, hr, -, h⟩ := follow_split h
    obtain ⟨hmoves, hid, hrev⟩ := report_some hr
    rw [Turn.follow_append] at h
    obtain ⟨t₃, h₃, h⟩ := Option.bind_eq_some_iff.1 h
    obtain ⟨hstage₃, hid₃, hrev₃⟩ := follow_silent hsilent h₃ (hmoves.of_reopened hevent)
    rw [Turn.follow_cons] at h
    obtain ⟨t₄, h₄, -⟩ := Option.bind_eq_some_iff.1 h
    obtain ⟨hmoves', hid', hrev'⟩ := report_some h₄
    rw [← hid, ← hrev, ← hid', ← hrev', ← hid₃, ← hrev₃]
    exact hmoves'.at_pending hstage₃
  resumed := by
    rintro before r after rfl hevent
    obtain ⟨t₁, t₂, hm, hr, -, -⟩ := follow_split h
    obtain ⟨hmoves, hid, hrev⟩ := report_some hr
    obtain ⟨⟨released, hstage⟩, rfl⟩ := hmoves.of_resumed hevent
    obtain ⟨before', c, calls, hitems, hsilent, hc, hcid, hcrev, -⟩ := hm.last released hstage
    refine ⟨before', c, calls, hitems, hsilent, hc, ?_, ?_⟩
    · rw [hcid, ← hid]
    · rw [hcrev, ← hrev]
  barged := by
    rintro before r after rfl hevent
    obtain ⟨t₁, t₂, hm, hr, -, h⟩ := follow_split h
    obtain ⟨hmoves, hid, -⟩ := report_some hr
    obtain ⟨floor, rfl⟩ := hmoves.of_bargeIn hevent
    refine ⟨hm.floor.trans floor, ?_⟩
    obtain ⟨r', after', t₃, rfl, hr'⟩ := follow_midway h (.inr rfl) hend
    obtain ⟨hmoves', hid', hrev'⟩ := report_some hr'
    obtain ⟨event, hidNext, hrevNext⟩ := hmoves'.at_cut rfl
    refine ⟨r', after', rfl, ⟨event, hrev'.symm.trans hrevNext⟩, ?_⟩
    rw [← hid', hidNext, ← hid]
  released := by
    rintro before r after rfl hevent
    obtain ⟨t₁, t₂, hm, hr, -, -⟩ := follow_split h
    obtain ⟨hmoves, hid, hrev⟩ := report_some hr
    obtain ⟨hstage, rfl⟩ := hmoves.of_final hevent
    obtain ⟨before', c, calls, hitems, hsilent, hc, hcid, hcrev, hrel⟩ := hm.last true hstage
    obtain ⟨calls₁, calls₂, hcalls⟩ := hrel rfl
    refine ⟨before', c, calls₁, calls₂, ?_, ?_, hc, ?_, ?_⟩
    · rw [hitems, hcalls, ← hid, ← hrev]
    · rw [← hid, ← hrev, ← hcalls]
      exact hsilent
    · rw [hcid, ← hid]
    · rw [hcrev, ← hrev]
  finished := by
    rintro before r after rfl hevent r' hr' hbarge
    obtain ⟨t₁, t₂, -, hr, -, h⟩ := follow_split h
    obtain ⟨hmoves, hid, -⟩ := report_some hr
    obtain ⟨-, rfl⟩ := hmoves.of_final hevent
    exact Past.follow (.inr ⟨hid.symm, .inl rfl⟩) h hr' hbarge
  opened := by
    rintro before r after rfl hopens
    obtain ⟨t₁, t₂, hm, hr, -, -⟩ := follow_split h
    obtain ⟨hmoves, hid, hrev⟩ := report_some hr
    obtain ⟨idle, rfl⟩ := hmoves.of_opens hopens hrev
    rw [← hid]
    rcases hm.handed (idle.elim .inr fun h => .inl h.1) with
      ⟨hfirst, hmuted⟩ | ⟨before', c, rest, hitems, hmuted, hc, hcid⟩
    · exact .inl ⟨congrArg (· + 1) hfirst, hmuted⟩
    · exact .inr ⟨before', c, rest, hitems, hmuted, hc, congrArg (· + 1) hcid⟩
  kept := by
    rintro before r after rfl hopens turnId hpos hlt
    obtain ⟨t₁, t₂, hm, hr, -, -⟩ := follow_split h
    obtain ⟨hmoves, hid, hrev⟩ := report_some hr
    obtain ⟨idle, rfl⟩ := hmoves.of_opens hopens hrev
    have hhanded : Handed t₁ := idle.elim .inr fun h => .inl h.1
    rw [← hid] at hlt
    rcases Nat.lt_succ_iff_lt_or_eq.1 hlt with hlt | rfl
    · exact hm.kept turnId hpos (.inl hlt)
    · exact hm.kept _ hpos (.inr ⟨rfl, hhanded⟩)
  increasing := (marks_follow h).sorted

/-- **Every run of a session keeps to the turn grammar.**  Any audio, any probabilities and scores,
any thresholds at any moment, the floor and the releases as they come. -/
theorem turnGrammar_run (M : Models F V) (vad : V) (p : Params F) (ops : List (Op F)) :
    TurnGrammar (run M (sessionNew M vad p) ops).2 := by
  have h := (follow_run M (coherent_sessionNew M vad p) ops).1
  rw [turn_sessionNew] at h
  refine turnGrammar_of_follow h ?_
  simp only [State.turn, State.stage]
  cases (run M (sessionNew M vad p) ops).1.phase <;>
    cases (run M (sessionNew M vad p) ops).1.committed <;> simp

end Session
end S2S
