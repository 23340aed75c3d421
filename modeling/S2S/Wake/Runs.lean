/-
# The wake gate over whole runs

A run is a sequence of turns at the gate, of calls of the sleep tool and of
session updates, in any order (`gate`).  One step keeps the turn let through
last unless another is let through, and keeps the assistant asleep unless the
step wakes it (`Wakes`); from that, by induction on the run, a turn that got
through goes on doing so (`admitted_again`), and an assistant that fell asleep
(`FallsAsleep`) stays asleep for every turn but that one
(`asleep_until_woken`).
-/

import S2S.Wake.Gate

namespace S2S
namespace Wake

open Json Update

/-! ### Runs -/

/-- What happens to the gate. -/
inductive Call
  | turn (turnId : ℕ) (transcript : Bytes)
  | sleep
  | update (opens : Bool) (patch : Patch)

/-- The turn a call is about. -/
def Call.turnId : Call → Option ℕ
  | .turn turnId _ => some turnId
  | _ => none

/-- The turns come in order. -/
def InOrder (calls : List Call) : Prop := (calls.filterMap Call.turnId).Pairwise (· ≤ ·)

section Runs

variable (setup : ConversationSetup)

/-- The gate after a call. -/
def Call.after (g : Gate) : Call → Gate
  | .turn turnId transcript => (connAdmit g turnId transcript).2
  | .sleep => (connSleep g).2
  | .update opens patch => Wake.update setup opens patch g

/-- The gate after a run. -/
def gateFrom (g : Gate) (calls : List Call) : Gate := calls.foldl (Call.after setup) g

/-- The gate of a connection after a run. -/
def gate (calls : List Call) : Gate := gateFrom setup (.new setup) calls

/-- A turn that is let through outside loopback. -/
def Gate.admits (g : Gate) (turnId : ℕ) (transcript : Bytes) : Bool :=
  decide g.Guards && (connAdmit g turnId transcript).1

/-- The turn that was let through last, from one on. -/
def lastFrom (g : Gate) (last : Option ℕ) : List Call → Option ℕ
  | [] => last
  | c :: calls =>
    lastFrom (c.after setup g)
      (match c with
        | .turn turnId transcript => if g.admits turnId transcript then some turnId else last
        | _ => last) calls

/-- **The turn that was let through last** in a run. -/
def lastAdmitted (calls : List Call) : Option ℕ := lastFrom setup (.new setup) none calls

/-- A call that puts the assistant to sleep: a turn let through with a sleep phrase in it, the tool,
or a change of mode to alone or anywhere. -/
def FallsAsleep (before : List Call) : Call → Prop
  | .turn turnId transcript => (gate setup before).admits turnId transcript = true ∧
      (gate setup before).hearsSleep transcript = true
  | .sleep => True
  | .update opens patch =>
      (Wake.update setup opens patch (gate setup before)).mode ∈ [ascii "alone", ascii "anywhere"] ∧
        (Wake.update setup opens patch (gate setup before)).mode ≠ (gate setup before).mode

/-- A call that wakes it: a wake phrase from another turn than the one let through last, or a change
of mode to off. -/
def Wakes (before : List Call) : Call → Prop
  | .turn turnId transcript => (gate setup before).Guards ∧
      lastAdmitted setup before ≠ some turnId ∧ (gate setup before).hearsWake transcript = true
  | .sleep => False
  | .update opens patch =>
      (Wake.update setup opens patch (gate setup before)).mode = ascii "off" ∧
        (gate setup before).mode ≠ ascii "off"

/-- The gate has been off from the start, or since a change of mode. -/
def TurnedOff (before : List Call) : Prop :=
  before = [] ∨ ∃ earlier opens patch, before = earlier ++ [.update opens patch] ∧
    (gate setup earlier).mode ≠ ascii "off"

variable {setup}

theorem gate_append (calls calls' : List Call) :
    gate setup (calls ++ calls') = gateFrom setup (gate setup calls) calls' := List.foldl_append

theorem gate_snoc (calls : List Call) (c : Call) :
    gate setup (calls ++ [c]) = c.after setup (gate setup calls) := gate_append calls [c]

/-! ### The turn let through last -/

/-- The gate remembers the turn let through last. -/
theorem admittedTurn_lastFrom {g : Gate} {last : Option ℕ}
    (h : g.admittedTurn = last.elim (-1) Nat.cast) (calls : List Call) :
    (gateFrom setup g calls).admittedTurn = (lastFrom setup g last calls).elim (-1) Nat.cast := by
  induction calls generalizing g last with
  | nil => exact h
  | cons c calls ih =>
    refine ih ?_
    cases c with
    | sleep => exact h
    | update opens patch => exact h
    | turn turnId transcript =>
      show (connAdmit g turnId transcript).2.admittedTurn = _
      dsimp only
      split_ifs with hadmits
      · simp only [Gate.admits, Bool.and_eq_true, decide_eq_true_eq] at hadmits
        exact connAdmit_admitted hadmits.1 hadmits.2
      · by_cases hguards : g.Guards
        · have hrefused : (connAdmit g turnId transcript).1 = false := by
            simpa [Gate.admits, hguards] using hadmits
          rw [connAdmit_refused hrefused]
          exact h
        · rw [connAdmit_loopback hguards]
          exact h

theorem admittedTurn_gate (calls : List Call) :
    (gate setup calls).admittedTurn = (lastAdmitted setup calls).elim (-1) Nat.cast :=
  admittedTurn_lastFrom rfl calls

theorem lastAdmitted_eq_some_iff {calls : List Call} {turnId : ℕ} :
    lastAdmitted setup calls = some turnId ↔ (turnId : ℤ) = (gate setup calls).admittedTurn := by
  rw [admittedTurn_gate]
  cases lastAdmitted setup calls with
  | none =>
    simp only [Option.elim_none]
    constructor
    · intro h
      simp at h
    · intro h
      omega
  | some last =>
    simp only [Option.some.injEq, Option.elim_some]
    omega

/-- Revisions of one turn leave it the turn let through last. -/
theorem admittedTurn_kept {g : Gate} {turnId : ℕ} (h : g.admittedTurn = turnId) {calls : List Call}
    (honly : ∀ c ∈ calls, ∀ other, c.turnId = some other → other = turnId) :
    (gateFrom setup g calls).admittedTurn = turnId := by
  induction calls generalizing g with
  | nil => exact h
  | cons c calls ih =>
    refine ih ?_ fun c' hc' => honly c' (List.mem_cons_of_mem _ hc')
    cases c with
    | sleep => exact h
    | update opens patch => exact h
    | turn other transcript =>
      obtain rfl : other = turnId := honly _ List.mem_cons_self other rfl
      by_cases hguards : g.Guards
      · exact connAdmit_admitted hguards (connAdmit_same h.symm)
      · show (connAdmit g other transcript).2.admittedTurn = _
        rw [connAdmit_loopback hguards]
        exact h

/-- **A turn that got through gets through at every later revision.** -/
theorem admitted_again {before between : List Call} {turnId : ℕ} {transcript revision : Bytes}
    (horder : InOrder (before ++ .turn turnId transcript :: between ++ [.turn turnId revision]))
    (hadmits : (gate setup before).admits turnId transcript = true) :
    (connAdmit (gate setup (before ++ .turn turnId transcript :: between)) turnId revision).1 =
      true := by
  simp only [Gate.admits, Bool.and_eq_true, decide_eq_true_eq] at hadmits
  have honly : ∀ c ∈ between, ∀ other, c.turnId = some other → other = turnId := by
    intro c hc other hother
    have hmem : other ∈ between.filterMap Call.turnId := List.mem_filterMap.2 ⟨c, hc, hother⟩
    rw [InOrder, List.append_assoc, List.filterMap_append, List.pairwise_append] at horder
    obtain ⟨-, horder, -⟩ := horder
    have hturn : Call.turnId (.turn turnId transcript) = some turnId := rfl
    rw [List.cons_append, List.filterMap_cons_some hturn, List.filterMap_append,
      List.pairwise_cons, List.pairwise_append] at horder
    obtain ⟨hafter, -, -, hlast⟩ := horder
    exact le_antisymm (hlast other hmem turnId (by simp [Call.turnId]))
      (hafter other (List.mem_append_left _ hmem))
  refine connAdmit_same ?_
  rw [gate_append]
  exact (admittedTurn_kept (connAdmit_admitted hadmits.1 hadmits.2) honly).symm

/-! ### Asleep -/

/-- Whatever puts the assistant to sleep leaves it asleep. -/
theorem asleep_of_fallsAsleep {before : List Call} {c : Call} (h : FallsAsleep setup before c) :
    (gate setup (before ++ [c])).awake = false := by
  rw [gate_snoc]
  cases c with
  | sleep => rfl
  | turn turnId transcript =>
    obtain ⟨hadmits, hsleep⟩ := h
    simp only [Gate.admits, Bool.and_eq_true, decide_eq_true_eq] at hadmits
    exact connAdmit_sleeps hadmits.1 hadmits.2 hsleep
  | update opens patch =>
    obtain ⟨hmode, hchanged⟩ := h
    show (Wake.update setup opens patch (gate setup before)).awake = false
    rw [update_awake, if_neg hchanged, decide_eq_false_iff_not]
    intro hoff
    rw [hoff] at hmode
    exact absurd hmode (by decide)

/-- **An assistant that sleeps goes on sleeping** at every step that does not wake it. -/
theorem asleep_step {before : List Call} {c : Call} (hasleep : (gate setup before).awake = false)
    (hwakes : ¬Wakes setup before c) : (gate setup (before ++ [c])).awake = false := by
  rw [gate_snoc]
  cases c with
  | sleep => rfl
  | turn turnId transcript =>
    show (connAdmit (gate setup before) turnId transcript).2.awake = false
    by_cases hguards : (gate setup before).Guards
    · by_cases hsame : lastAdmitted setup before = some turnId
      · rw [connAdmit_same_asleep (lastAdmitted_eq_some_iff.1 hsame) hasleep, hasleep]
      · have hother := fun h => hsame (lastAdmitted_eq_some_iff.2 h)
        have hsilent : (gate setup before).hearsWake transcript = false := by
          rw [← Bool.not_eq_true]
          exact fun hheard => hwakes ⟨hguards, hsame, hheard⟩
        rw [connAdmit_refused ((connAdmit_asleep hguards hasleep hother).trans hsilent), hasleep]
    · rw [connAdmit_loopback hguards, hasleep]
  | update opens patch =>
    show (Wake.update setup opens patch (gate setup before)).awake = false
    rw [update_awake]
    split_ifs with hmode
    · exact hasleep
    · rw [decide_eq_false_iff_not]
      exact fun hoff => hwakes ⟨hoff, fun hwas => hmode (hoff.trans hwas.symm)⟩

theorem asleep_run {before calls : List Call} (hasleep : (gate setup before).awake = false)
    (hwakes : ∀ mid c rest, calls = mid ++ c :: rest → ¬Wakes setup (before ++ mid) c) :
    (gate setup (before ++ calls)).awake = false := by
  induction calls using List.reverseRecOn with
  | nil => simpa using hasleep
  | append_singleton calls c ih =>
    rw [← List.append_assoc]
    refine asleep_step (ih fun mid c' rest hsplit => ?_) (hwakes calls c [] rfl)
    exact hwakes mid c' (rest ++ [c]) (by simp [hsplit])

/-- **Asleep, a turn other than the one let through last gets through exactly by a wake phrase of
its own**, until a step wakes the assistant. -/
theorem asleep_until_woken {before between : List Call} {sleeps : Call} {turnId : ℕ}
    {transcript : Bytes} (hsleeps : FallsAsleep setup before sleeps)
    (hwakes : ∀ mid c rest, between = mid ++ c :: rest →
      ¬Wakes setup (before ++ sleeps :: mid) c)
    (hguards : (gate setup (before ++ sleeps :: between)).Guards)
    (hother : lastAdmitted setup (before ++ sleeps :: between) ≠ some turnId) :
    (connAdmit (gate setup (before ++ sleeps :: between)) turnId transcript).1 =
      (gate setup (before ++ sleeps :: between)).hearsWake transcript := by
  have hsplit : ∀ mid, before ++ sleeps :: mid = before ++ [sleeps] ++ mid := by simp
  have hasleep : (gate setup (before ++ sleeps :: between)).awake = false := by
    rw [hsplit]
    refine asleep_run (asleep_of_fallsAsleep hsleeps) fun mid c rest heq => ?_
    rw [← hsplit]
    exact hwakes mid c rest heq
  exact connAdmit_asleep hguards hasleep fun h => hother (lastAdmitted_eq_some_iff.2 h)

/-! ### Off -/

/-- **With the gate off and no call of the sleep tool since, every turn gets through.** -/
theorem off_admits {before between : List Call} {turnId : ℕ} {transcript : Bytes}
    (hturned : TurnedOff setup before)
    (hoff : ∀ mid rest, between = mid ++ rest → (gate setup (before ++ mid)).mode = ascii "off")
    (hsleep : .sleep ∉ between) :
    (connAdmit (gate setup (before ++ between)) turnId transcript).1 = true := by
  refine connAdmit_awake ?_
  induction between using List.reverseRecOn with
  | nil =>
    rw [List.append_nil]
    rcases hturned with rfl | ⟨earlier, opens, patch, rfl, hwas⟩
    · rfl
    · have hmode := hoff [] [] rfl
      rw [List.append_nil, gate_snoc] at hmode
      rw [gate_snoc]
      show (Wake.update setup opens patch (gate setup earlier)).awake = true
      have hmode' : (Wake.update setup opens patch (gate setup earlier)).mode = ascii "off" := hmode
      rw [update_awake, hmode', if_neg (Ne.symm hwas)]
      rfl
  | append_singleton between c ih =>
    have hawake := ih (fun mid rest hsplit => hoff mid (rest ++ [c]) (by simp [hsplit]))
      (fun hmem => hsleep (List.mem_append_left _ hmem))
    have hmode := hoff between [c] rfl
    have hmode' := hoff (between ++ [c]) [] (by simp)
    rw [← List.append_assoc, gate_snoc] at hmode' ⊢
    cases c with
    | sleep => exact absurd (List.mem_append_right _ List.mem_cons_self) hsleep
    | turn turnId transcript => exact connAdmit_off hmode hawake
    | update opens patch =>
      show (Wake.update setup opens patch (gate setup (before ++ between))).awake = true
      have hmode'' : (Wake.update setup opens patch (gate setup (before ++ between))).mode =
          ascii "off" := hmode'
      rw [update_awake, if_pos (hmode''.trans hmode.symm)]
      exact hawake

end Runs

end Wake
end S2S
