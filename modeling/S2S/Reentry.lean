/-
# Code that calls its host

An object runs to the end of what it does before anything else happens to it, but
on the way it calls handlers of its host, and a handler may call the object back
before it returns.  What the object still has to do then is a frame of a stack,
with the handler it waits for (`Code`, `Config`).

What a host may have done while a handler ran is a `Pact`: what holds when a
handler is called, and how the state it leaves lies to the state it found.  Code
that meets the pact, whatever the handlers did (`Code.Meets`), may be interrupted
at every handler (`Keeps.run`).
-/

import Mathlib.Data.List.Basic

namespace S2S
namespace Reentry

/-- Code: at its end, or in a call of a handler, with what it does once that returned. -/
inductive Code (σ ω : Type)
  | ends (s : σ)
  | tells (site : ω) (s : σ) (next : σ → Code σ ω)

/-- What is left to do once a handler returns. -/
structure Frame (σ ω : Type) where
  site : ω
  next : σ → Code σ ω

/-- An object under way: its state, the handlers that run, the innermost first, and what its host
called so far. -/
structure Config (σ ω κ : Type) where
  state : σ
  frames : List (Frame σ ω) := []
  calls : List κ := []

/-- What an object does when its host calls a method, and when something happens to it. -/
structure Object (σ ω κ ε : Type) where
  method : κ → σ → Code σ ω
  event : ε → σ → Code σ ω

/-- The host calls a method, the innermost handler returns, something happens. -/
inductive Move (κ ε : Type)
  | call (k : κ)
  | returns
  | event (e : ε)

/-- What a host is asked to keep: which methods a handler may call, and what may happen when. -/
structure Manners (σ ω κ ε : Type) where
  allows : ω → κ → Bool
  permits : σ → ε → Bool

variable {σ ω κ ε : Type}

namespace Code

/-- One piece of code after another. -/
def andThen : Code σ ω → (σ → Code σ ω) → Code σ ω
  | ends s, after => after s
  | tells site s next, after => tells site s fun s' => (next s').andThen after

/-- Where code ends when every handler returns at once. -/
def quiet : Code σ ω → σ
  | ends s => s
  | tells _ s next => (next s).quiet

@[simp] theorem quiet_ends (s : σ) : (ends s : Code σ ω).quiet = s := rfl

@[simp] theorem quiet_tells (site : ω) (s : σ) (next : σ → Code σ ω) :
    (tells site s next).quiet = (next s).quiet := rfl

@[simp] theorem quiet_andThen (code : Code σ ω) (after : σ → Code σ ω) :
    (code.andThen after).quiet = (after code.quiet).quiet := by
  induction code with
  | ends s => rfl
  | tells site s next ih => exact ih s

/-- Code is entered: it runs to its end or to a handler. -/
def enter (frames : List (Frame σ ω)) (calls : List κ) : Code σ ω → Config σ ω κ
  | ends s => ⟨s, frames, calls⟩
  | tells site s next => ⟨s, ⟨site, next⟩ :: frames, calls⟩

end Code

namespace Object

variable (O : Object σ ω κ ε)

/-- One move.  Nothing happens to an object while a handler runs. -/
def step (c : Config σ ω κ) : Move κ ε → Config σ ω κ
  | .call k => (O.method k c.state).enter c.frames (c.calls ++ [k])
  | .returns =>
    match c.frames with
    | [] => c
    | f :: frames => (f.next c.state).enter frames c.calls
  | .event e =>
    match c.frames with
    | [] => (O.event e c.state).enter [] c.calls
    | _ :: _ => c

/-- An object after a run. -/
def run (s : σ) (moves : List (Move κ ε)) : Config σ ω κ := moves.foldl O.step { state := s }

end Object

/-- A move that keeps to the manners: every handler that runs allows the call. -/
def Config.calm (G : Manners σ ω κ ε) (c : Config σ ω κ) : Move κ ε → Bool
  | .call k => c.frames.all fun f => G.allows f.site k
  | .returns => true
  | .event e => !c.frames.isEmpty || G.permits c.state e

/-- A run whose moves all keep to the manners. -/
def Object.along (O : Object σ ω κ ε) (G : Manners σ ω κ ε) :
    Config σ ω κ → List (Move κ ε) → Bool
  | _, [] => true
  | c, m :: moves => c.calm G m && O.along G (O.step c m) moves

/-! ### Pacts -/

/-- What holds when a handler is called, and what it may have done when it returns.  Both see what
the host called so far. -/
structure Pact (σ ω κ : Type) where
  amid : ω → List κ → σ → Prop
  rely : ω → List κ → σ → List κ → σ → Prop

/-- **Code meets a pact**: it calls its handlers where it may, and ends well whatever they did. -/
def Code.Meets (P : Pact σ ω κ) (Q : List κ → σ → Prop) : Code σ ω → List κ → Prop
  | .ends s, calls => Q calls s
  | .tells site s next, calls =>
    P.amid site calls s ∧ ∀ calls' s', P.rely site calls s calls' s' → (next s').Meets P Q calls'

section Meets

variable {P : Pact σ ω κ} {Q R : List κ → σ → Prop}

theorem Code.Meets.mono {code : Code σ ω} {calls : List κ} (h : code.Meets P Q calls)
    (hQR : ∀ calls s, Q calls s → R calls s) : code.Meets P R calls := by
  induction code generalizing calls with
  | ends s => exact hQR calls s h
  | tells site s next ih => exact ⟨h.1, fun calls' s' hrely => ih s' (h.2 calls' s' hrely)⟩

theorem Code.Meets.andThen {code : Code σ ω} {calls : List κ} {after : σ → Code σ ω}
    (h : code.Meets P R calls) (hafter : ∀ calls' s', R calls' s' → (after s').Meets P Q calls') :
    (code.andThen after).Meets P Q calls := by
  induction code generalizing calls with
  | ends s => exact hafter calls s h
  | tells site s next ih => exact ⟨h.1, fun calls' s' hrely => ih s' (h.2 calls' s' hrely)⟩

end Meets

/-- An object keeps a pact: `rest` holds of it when no handler runs. -/
structure Keeps (O : Object σ ω κ ε) (G : Manners σ ω κ ε) (P : Pact σ ω κ)
    (rest : List κ → σ → Prop) : Prop where
  refl : ∀ site calls s, P.amid site calls s → P.rely site calls s calls s
  trans : ∀ site calls s calls' s' calls'' s'', P.rely site calls s calls' s' →
    P.rely site calls' s' calls'' s'' → P.rely site calls s calls'' s''
  amid : ∀ site calls s calls' s', P.amid site calls s → P.rely site calls s calls' s' →
    P.amid site calls' s'
  called : ∀ site calls s k, P.amid site calls s → G.allows site k = true →
    (O.method k s).Meets P (P.rely site calls s) (calls ++ [k])
  begins : ∀ calls s k, rest calls s → (O.method k s).Meets P rest (calls ++ [k])
  happens : ∀ calls s e, rest calls s → G.permits s e = true → (O.event e s).Meets P rest calls

/-- What is left to do ends well, one frame after the other. -/
def Standing (P : Pact σ ω κ) (rest : List κ → σ → Prop) :
    List (Frame σ ω) → List κ → σ → Prop
  | [], calls, s => rest calls s
  | f :: frames, calls, s => (Code.tells f.site s f.next).Meets P (Standing P rest frames) calls

section Rule

variable {O : Object σ ω κ ε} {G : Manners σ ω κ ε} {P : Pact σ ω κ} {rest : List κ → σ → Prop}

theorem standing_enter {code : Code σ ω} {frames : List (Frame σ ω)} {calls : List κ}
    (h : code.Meets P (Standing P rest frames) calls) :
    Standing P rest (code.enter frames calls).frames (code.enter frames calls).calls
      (code.enter frames calls).state := by
  cases code with
  | ends s => exact h
  | tells site s next => exact h

/-- A handler that runs may go on from what it did. -/
theorem Keeps.standing_rely (h : Keeps O G P rest) {f : Frame σ ω} {frames : List (Frame σ ω)}
    {calls calls' : List κ} {s s' : σ} (hstanding : Standing P rest (f :: frames) calls s)
    (hrely : P.rely f.site calls s calls' s') : Standing P rest (f :: frames) calls' s' :=
  ⟨h.amid _ _ _ _ _ hstanding.1 hrely, fun calls'' s'' hrely' =>
    hstanding.2 calls'' s'' (h.trans _ _ _ _ _ _ _ hrely hrely')⟩

/-- **One move.** -/
theorem Keeps.step (h : Keeps O G P rest) {c : Config σ ω κ} {m : Move κ ε}
    (hstanding : Standing P rest c.frames c.calls c.state) (hcalm : c.calm G m = true) :
    Standing P rest (O.step c m).frames (O.step c m).calls (O.step c m).state := by
  obtain ⟨s, frames, calls⟩ := c
  cases m with
  | call k =>
    refine standing_enter ?_
    cases frames with
    | nil => exact h.begins calls s k hstanding
    | cons f frames =>
      have hallows : G.allows f.site k = true := List.all_eq_true.1 hcalm f List.mem_cons_self
      exact (h.called f.site calls s k hstanding.1 hallows).mono fun calls' s' hrely =>
        h.standing_rely hstanding hrely
  | returns =>
    cases frames with
    | nil => exact hstanding
    | cons f frames =>
      exact standing_enter (hstanding.2 calls s (h.refl _ _ _ hstanding.1))
  | event e =>
    cases frames with
    | nil => exact standing_enter (h.happens calls s e hstanding hcalm)
    | cons f frames => exact hstanding

/-- **A run that keeps to the manners** leaves an object that stands. -/
theorem Keeps.run (h : Keeps O G P rest) {s : σ} (hrest : rest [] s) {moves : List (Move κ ε)}
    (hcalm : O.along G { state := s } moves = true) :
    Standing P rest (O.run s moves).frames (O.run s moves).calls (O.run s moves).state := by
  have hrun : ∀ (moves : List (Move κ ε)) (c : Config σ ω κ),
      Standing P rest c.frames c.calls c.state → O.along G c moves = true →
      Standing P rest (moves.foldl O.step c).frames (moves.foldl O.step c).calls
        (moves.foldl O.step c).state := by
    intro moves
    induction moves with
    | nil => exact fun c hc _ => hc
    | cons m moves ih =>
      intro c hc hcalm
      rw [Object.along, Bool.and_eq_true] at hcalm
      exact ih (O.step c m) (h.step hc hcalm.1) hcalm.2
  exact hrun moves { state := s } hrest hcalm

/-- What holds at rest and at every handler holds all the time. -/
theorem Standing.always {I : σ → Prop} {frames : List (Frame σ ω)} {calls : List κ} {s : σ}
    (h : Standing P rest frames calls s) (hrest : ∀ calls s, rest calls s → I s)
    (hamid : ∀ site calls s, P.amid site calls s → I s) : I s := by
  cases frames with
  | nil => exact hrest calls s h
  | cons f frames => exact hamid f.site calls s h.1

end Rule

end Reentry
end S2S
