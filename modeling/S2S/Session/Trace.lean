/-
# The reports of a run

What the reports of a run say by themselves, without the calls between them
(`Traced`): commits come in order, and every revision that was opened is
committed again, that one or a later one, but for the turn still open
(`Traced.covered`).
-/

import S2S.Session.Grace

namespace S2S
namespace Session

variable {F : Type}

/-- The reports `rs` of some run lead to the turn `t`. -/
def Traced (t : Turn) (rs : List (Report F)) : Prop :=
  ∃ items, Turn.start.follow items = some t ∧ reportsOf items = rs

/-- What was committed. -/
def commitsOf (rs : List (Report F)) : List (ℕ × ℕ) :=
  (rs.filter fun r => r.event = .turnCommitted).map Report.pair

/-- A turn opens, or opens again. -/
def Report.Starts (r : Report F) : Prop := r.event = .speechStarted ∨ r.event = .turnResumed

/-- Every revision that was opened is committed, that one or a later one, but for the turn still
open. -/
def Covered (t : Turn) (rs : List (Report F)) : Prop :=
  ∀ r ∈ rs, r.Starts → r.turnId = t.turnId ∧ ¬Handed t ∨
    ∃ p ∈ commitsOf rs, p.1 = r.turnId ∧ r.revision ≤ p.2

@[simp] theorem commitsOf_append (rs rs' : List (Report F)) :
    commitsOf (rs ++ rs') = commitsOf rs ++ commitsOf rs' := by
  simp [commitsOf]

theorem mem_commitsOf {p : ℕ × ℕ} {rs : List (Report F)} :
    p ∈ commitsOf rs ↔ ∃ r ∈ rs, r.event = .turnCommitted ∧ r.pair = p := by
  simp [commitsOf, and_assoc]

namespace Traced

variable {t t' : Turn} {rs : List (Report F)}

theorem start : Traced Turn.start ([] : List (Report F)) := ⟨[], rfl, rfl⟩

theorem call {op : Op F} (h : Traced t rs) (hcall : t.call op = some t') : Traced t' rs := by
  obtain ⟨items, hfollow, rfl⟩ := h
  refine ⟨items ++ [.call op], ?_, by simp⟩
  rw [Turn.follow_append, hfollow, Option.bind_some, Turn.follow_cons, Turn.next, hcall]
  rfl

theorem reports {rs' : List (Report F)} (h : Traced t rs) (hreports : t.reports rs' = some t') :
    Traced t' (rs ++ rs') := by
  obtain ⟨items, hfollow, rfl⟩ := h
  refine ⟨items ++ rs'.map .report, ?_, by simp⟩
  rw [Turn.follow_append, hfollow, Option.bind_some]
  exact hreports

/-- **Commits come in order.** -/
theorem sorted (h : Traced t rs) : (commitsOf rs).Pairwise Earlier := by
  obtain ⟨items, hfollow, rfl⟩ := h
  exact (marks_follow hfollow).sorted

/-- A run read back by one report. -/
theorem split {r : Report F} {rs' : List (Report F)} (h : Traced t (rs ++ r :: rs')) :
    ∃ t₁ t₂, Traced t₁ rs ∧ t₁.report r = some t₂ ∧ Traced t₂ (rs ++ [r]) := by
  obtain ⟨items, hfollow, hitems⟩ := h
  obtain ⟨before, after, rfl, rfl⟩ : ∃ before after, items = before ++ .report r :: after ∧
      reportsOf before = rs := by
    clear hfollow
    induction items generalizing rs with
    | nil => simp at hitems
    | cons item items ih =>
      cases item with
      | call op =>
        obtain ⟨before, after, rfl, rfl⟩ := ih hitems
        exact ⟨.call op :: before, after, rfl, rfl⟩
      | report r' =>
        cases rs with
        | nil =>
          obtain ⟨rfl, -⟩ := List.cons.inj hitems
          exact ⟨[], items, rfl, rfl⟩
        | cons first rs =>
          obtain ⟨rfl, hrest⟩ := List.cons.inj hitems
          obtain ⟨before, after, rfl, rfl⟩ := ih hrest
          exact ⟨.report r' :: before, after, rfl, rfl⟩
  rw [Turn.follow_append] at hfollow
  obtain ⟨t₁, h₁, hrest⟩ := Option.bind_eq_some_iff.1 hfollow
  rw [Turn.follow_cons] at hrest
  obtain ⟨t₂, h₂, -⟩ := Option.bind_eq_some_iff.1 hrest
  refine ⟨t₁, t₂, ⟨before, h₁, rfl⟩, h₂, ⟨before ++ [.report r], ?_, by simp⟩⟩
  rw [Turn.follow_append, h₁, Option.bind_some, Turn.follow_cons, h₂]
  rfl

end Traced

/-- One more report. -/
theorem Covered.report {t t' : Turn} {r : Report F} {rs : List (Report F)} (h : Covered t rs)
    (hupto : ∀ r' ∈ rs, r'.turnId = t.turnId → r'.revision ≤ t.revision)
    (hreport : t.report r = some t') : Covered t' (rs ++ [r]) := by
  obtain ⟨hmoves, hid, hrev⟩ := report_some hreport
  intro r' hr' hstarts
  have hold : r' ∈ rs → (∃ p ∈ commitsOf rs, p.1 = r'.turnId ∧ r'.revision ≤ p.2) →
      ∃ p ∈ commitsOf (rs ++ [r]), p.1 = r'.turnId ∧ r'.revision ≤ p.2 := fun _ ⟨p, hp, hle⟩ =>
    ⟨p, by rw [commitsOf_append]; exact List.mem_append_left _ hp, hle⟩
  have hopen : ∀ {s : Stage}, t'.stage = s → s = .speaking ∨ s = .boundary ∨ s = .pending →
      ¬Handed t' := by
    rintro s hs (rfl | rfl | rfl) <;> simp [Handed, Turn.Over, hs]
  rcases List.mem_append.1 hr' with hr' | hr'
  · cases hmoves with
    | opens idle event after =>
      have hhanded : Handed t := idle.elim .inr fun h => .inl h.1
      exact .inr (hold hr' ((h r' hr' hstarts).resolve_left fun h => h.2 hhanded))
    | restarts pending event after =>
      refine (h r' hr' hstarts).imp (fun h => ⟨by rw [after]; exact h.1, ?_⟩) (hold hr')
      exact hopen (by rw [after]) (.inl rfl)
    | stops speaking event after =>
      refine (h r' hr' hstarts).imp (fun h => ⟨by rw [after]; exact h.1, ?_⟩) (hold hr')
      exact hopen (by rw [after]) (.inr (.inl rfl))
    | reopens boundary event after =>
      refine (h r' hr' hstarts).imp (fun h => ⟨by rw [after]; exact h.1, ?_⟩) (hold hr')
      exact hopen (by rw [after]) (.inr (.inr rfl))
    | commits boundary event after =>
      right
      rcases h r' hr' hstarts with ⟨hsame, -⟩ | hcovered
      · have hle := hupto r' hr' hsame
        refine ⟨r.pair, by rw [commitsOf_append]; simp [commitsOf, event], ?_, ?_⟩
        · rw [← pair_report hreport, after]
          exact hsame.symm
        · rw [← pair_report hreport, after]
          exact hle
      · exact hold hr' hcovered
    | finals released event after =>
      have hhanded : Handed t := .inl (.inr ⟨_, released⟩)
      exact .inr (hold hr' ((h r' hr' hstarts).resolve_left fun h => h.2 hhanded))
    | resumes committed event after =>
      have hhanded : Handed t := .inl (.inr committed)
      exact .inr (hold hr' ((h r' hr' hstarts).resolve_left fun h => h.2 hhanded))
    | barges idle floor event after =>
      exact .inr (hold hr' ((h r' hr' hstarts).resolve_left fun h => h.2 (.inl idle)))
  · obtain rfl := List.mem_singleton.1 hr'
    refine .inl ⟨hid.symm, ?_⟩
    cases hmoves with
    | opens idle event after => exact hopen (by rw [after]) (.inl rfl)
    | restarts pending event after => exact hopen (by rw [after]) (.inl rfl)
    | resumes committed event after => exact hopen (by rw [after]) (.inl rfl)
    | _ => rcases hstarts with h | h <;> simp_all

/-- **Every revision that was opened is committed again.** -/
theorem Traced.covered {t : Turn} {rs : List (Report F)} (h : Traced t rs) : Covered t rs := by
  obtain ⟨items, hfollow, rfl⟩ := h
  suffices hboth : Covered t (reportsOf items) ∧ ∀ r ∈ reportsOf items,
      r.turnId < t.turnId ∨ r.turnId = t.turnId ∧ r.revision ≤ t.revision from hboth.1
  induction items using List.reverseRecOn generalizing t with
  | nil => exact ⟨by simp [Covered], by simp⟩
  | append_singleton items item ih =>
    rw [Turn.follow_append] at hfollow
    obtain ⟨t₁, h₁, hrest⟩ := Option.bind_eq_some_iff.1 hfollow
    rw [Turn.follow_cons] at hrest
    obtain ⟨t₂, h₂, hrest⟩ := Option.bind_eq_some_iff.1 hrest
    obtain rfl := Option.some.inj hrest
    obtain ⟨hcovered, hupto⟩ := ih h₁
    cases item with
    | call op =>
      obtain ⟨-, -, hid, hrev, -⟩ := call_some h₂
      rw [reportsOf_append, reportsOf_call, reportsOf_nil, List.append_nil, hid, hrev]
      refine ⟨fun r hr hstarts => ?_, hupto⟩
      rw [hid, handed_call h₂]
      exact hcovered r hr hstarts
    | report r =>
      rw [reportsOf_append, reportsOf_report, reportsOf_nil]
      refine ⟨hcovered.report (fun r' hr' hsame => ?_) h₂, fun r' hr' => ?_⟩
      · rcases hupto r' hr' with h | ⟨-, h⟩
        · omega
        · exact h
      · have hlater : Earlier t₁.pair t₂.pair ∨ t₂.pair = t₁.pair :=
          (report_later h₂).elim (fun h => .inr h.1) .inl
        obtain ⟨-, hid, hrev⟩ := report_some h₂
        rcases List.mem_append.1 hr' with hr' | hr'
        · have hold := hupto r' hr'
          rcases hlater with h | h
          · simp only [Earlier, Turn.pair] at h
            omega
          · obtain ⟨h₃, h₄⟩ := Prod.mk.inj h
            omega
        · obtain rfl := List.mem_singleton.1 hr'
          exact .inr ⟨hid.symm, hrev.ge⟩

end Session
end S2S
