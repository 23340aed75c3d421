/-
# A stop

`conn_stop` raises the cancel and then sets `stop`; `conn_answer` reads `stop`
and then lowers the cancel for the answer it starts.  No lock is held over either
pair.  As long as the two pairs do not overlap (`Apart`), a stop holds: once it
has returned the cancel is up for good, and whatever is set to work is set to
work cancelled (`stop_holds`).  Where they do, the responder can take the stop
back (`stop_taken_back`).

Where a thread stands between its two actions is seen by a monitor of its last
one (`pace`).
-/

import S2S.Conversation.Compose
import S2S.Conversation.Guarantees
import S2S.Thread.Within

namespace S2S
namespace Conversation

open Json Llm Agent Session Thread

variable {F V S : Type}

/-! ### The two pairs -/

/-- `conn_stop` has raised the cancel and not yet set `stop`. -/
def isSetting : Program F Bool → Bool
  | .act .setStop _ => true
  | _ => false

/-- `conn_answer` has read `stop` and not yet lowered the cancel. -/
def isLowering : Program F Bool → Bool
  | .act (.storeCancel false) _ => true
  | _ => false

theorem isSetting_iff {p : Program F Bool} : isSetting p = true ↔ ∃ next, p = .act .setStop next := by
  unfold isSetting
  split
  · simp
  · rename_i h
    simpa using fun next heq => h next heq

theorem isLowering_iff {p : Program F Bool} :
    isLowering p = true ↔ ∃ next, p = .act (.storeCancel false) next := by
  unfold isLowering
  split
  · simp
  · rename_i h
    simpa using fun next heq => h next heq

/-- The two do not overlap: the responder is not about to lower the cancel while a thread that has
raised it is about to set `stop`. -/
def apart (c : Config Role (Act F) Act.Result (Memory F V)) : Bool :=
  !(isLowering (c.prog .responder) &&
    [Role.reader, .recognizer, .responder, .writer].any fun role => isSetting (c.prog role))

theorem not_isSetting_of_apart {c : Config Role (Act F) Act.Result (Memory F V)}
    (h : apart c = true) (hlowering : isLowering (c.prog .responder) = true) (role : Role) :
    isSetting (c.prog role) = false := by
  simp only [apart, hlowering, Bool.true_and, Bool.not_eq_true', List.any_eq_false] at h
  have hmem : role ∈ [Role.reader, .recognizer, .responder, .writer] := by cases role <;> decide
  simpa using h role hmem

/-! ### The monitor -/

/-- The last action of a thread, as far as it matters: it found no stop, or raised the cancel. -/
inductive Pace
  | other
  | clear
  | raised

def Pace.next : (a : Act F) → a.Result → Pace
  | .load .stop, false => .clear
  | .storeCancel true, _ => .raised
  | _, _ => .other

/-- The responder lowers the cancel right after it found no stop, and `stop` is set right after the
cancel is raised. -/
def pace (F : Type) : Monitor Role (Act F) Act.Result where
  State := Pace
  next _ := Pace.next
  ok role s
    | .storeCancel false => role = .responder ∧ s = .clear
    | .setStop => s = .raised
    | _ => True

theorem next_clear {P : Setup F V S} {role : Role} {a : Act F} {x : a.Input} {r : a.Result}
    {m m' : Memory F V} (h : Pace.next a r = .clear) (hexec : exec P role a x m = some (r, m')) :
    m'.stop = false := by
  cases a with
  | load field =>
    cases field with
    | stop =>
      obtain ⟨rfl, rfl⟩ := done_inj hexec
      cases hstop : m.stop with
      | false => rfl
      | true => simp [Memory.read, hstop, Pace.next] at h
    | _ => simp [Pace.next] at h
  | storeCancel cancel => cases cancel <;> simp [Pace.next] at h
  | _ => simp [Pace.next] at h

theorem next_raised {a : Act F} {r : a.Result} (h : Pace.next a r = .raised) :
    a = .storeCancel true := by
  cases a with
  | load field =>
    cases field with
    | stop => cases r <;> simp [Pace.next] at h
    | _ => simp [Pace.next] at h
  | storeCancel cancel =>
    cases cancel with
    | true => rfl
    | false => simp [Pace.next] at h
  | _ => simp [Pace.next] at h

/-- An action that may come at any time. -/
def Act.Unpaced : Act F → Prop
  | .storeCancel false => False
  | .setStop => False
  | _ => True

theorem Act.Unpaced.keeps {role : Role} {a : Act F} (h : a.Unpaced) :
    (pace F).Keeps role (fun _ => True) a := by
  refine fun s _ => ⟨?_, fun _ => trivial⟩
  cases a with
  | storeCancel cancel =>
    cases cancel with
    | true => trivial
    | false => exact h.elim
  | setStop => exact h.elim
  | _ => trivial

/-- A program of such actions. -/
abbrev Unpaced (role : Role) {α : Type} (p : Program F α) : Prop :=
  (pace F).Holds role (fun _ => True) p

section Bodies

variable {P : Setup F V S} {role : Role}

theorem unpaced (a : Act F) (h : a.Unpaced) : Unpaced role (perform a) := h.keeps.holds

/-! ### The session -/

theorem unpaced_onSessionEvent (r : Report F) : Unpaced role (connOnSessionEvent r) := by
  have hopened : Unpaced role (do
      connSend .speechStarted
      perform (.opened r.turnId r.revision) : Program F Unit) :=
    (unpaced (.send .speechStarted) trivial).bind fun _ => unpaced (.opened _ _) trivial
  unfold connOnSessionEvent
  split
  · exact hopened
  · exact hopened
  · exact unpaced (.final _) trivial
  · exact Monitor.holds_pure ()
  · exact Monitor.holds_pure ()
  · exact unpaced (.storeCancel true) trivial
  · exact unpaced (.enqueue _) trivial

theorem unpaced_handOver (rs : List (Report F)) : Unpaced role (handOver rs) := by
  induction rs with
  | nil => exact Monitor.holds_pure ()
  | cons r rs ih =>
    exact (unpaced (.callback r) trivial).bind fun _ => (unpaced_onSessionEvent r).bind fun _ =>
      (unpaced .returned trivial).bind fun _ => ih

theorem unpaced_session (op : Op F) : Unpaced role (session op) :=
  (unpaced (.session op) trivial).bind fun reports => unpaced_handOver reports

theorem unpaced_locked (op : Op F) : Unpaced role (do
    perform .lockSession
    session op
    perform .unlockSession) :=
  (unpaced .lockSession trivial).bind fun _ => (unpaced_session op).bind fun _ =>
    unpaced .unlockSession trivial

theorem unpaced_release (turnId revision : ℕ) :
    Unpaced role (connRelease turnId revision : Program F Unit) := unpaced_locked _

/-! ### The reader, the writer and the recognizer -/

theorem unpaced_errors (messages : List Bytes) :
    Unpaced role (connErrors messages : Program F Unit) := by
  induction messages with
  | nil => exact Monitor.holds_pure ()
  | cons message messages ih => exact (unpaced (.send (.error message)) trivial).bind fun _ => ih

theorem unpaced_frame (x : Incoming F) : Unpaced role (connFrame x) := by
  cases x with
  | update errors settings params invalid =>
    have hpatch : Unpaced role (connApplyPatch errors settings params) := by
      refine (unpaced_errors errors).bind fun _ =>
        (unpaced (.patch settings) trivial).bind fun _ => ?_
      cases params with
      | none => exact Monitor.holds_pure ()
      | some p => exact unpaced_locked (.setParams p)
    exact hpatch.bind fun _ => (unpaced_errors _).bind fun _ => unpaced (.send .sessionUpdated) trivial
  | audio errors pcm =>
    exact (unpaced_errors errors).bind fun _ => (unpaced .lockSession trivial).bind fun _ =>
      (unpaced (.load .speaking) trivial).bind fun _ => (unpaced_session _).bind fun _ =>
        (unpaced_session _).bind fun _ => unpaced .unlockSession trivial
  | cancel => exact unpaced (.storeCancel true) trivial
  | history messages => exact unpaced (.history messages) trivial
  | unknown => exact unpaced (.send (.error _)) trivial
  | other => exact Monitor.holds_pure ()
  | closed => exact Monitor.holds_pure ()

/-- **`conn_stop`** sets `stop` right after it raised the cancel. -/
theorem holds_stop : Unpaced role (connStop : Program F Unit) := fun _ _ =>
  Watched.act (M := pace F) (a := .storeCancel true) trivial fun _ =>
    Watched.act (M := pace F) (a := .setStop) rfl fun _ =>
      Watched.perform (M := pace F) (a := .stopped) trivial fun _ => trivial

theorem holds_reader : Unpaced role (connReader : Program F Bool) := by
  have hclose : Unpaced role (do
      connClose
      pure false : Program F Bool) :=
    (holds_stop.bind fun _ => unpaced .closeOut trivial).bind fun _ => Monitor.holds_pure false
  refine (unpaced (.ask .read) trivial).bind fun x =>
    (unpaced (.load .stop) trivial).bind fun stop => ?_
  have hframe : Unpaced role (do
      connFrame x
      pure true : Program F Bool) := (unpaced_frame x).bind fun _ => Monitor.holds_pure true
  cases stop with
  | true => cases x <;> exact hclose
  | false => cases x <;> first | exact hframe | exact hclose

theorem holds_writer : Unpaced role (connWriter : Program F Bool) := by
  refine (unpaced .popOut trivial).bind fun next => ?_
  cases next with
  | none => exact Monitor.holds_pure false
  | some f =>
    refine (unpaced (.ask (.transport f)) trivial).bind fun sent => ?_
    cases sent with
    | true => exact Monitor.holds_pure true
    | false =>
      exact (unpaced .dropOut trivial).bind fun _ => holds_stop.bind fun _ => Monitor.holds_pure false

theorem holds_recognizer : Unpaced role (connRecognizer : Program F Bool) := by
  refine (unpaced .popQueue trivial).bind fun next => ?_
  cases next with
  | none => exact Monitor.holds_pure false
  | some turn =>
    refine Monitor.Holds.bind ?_ fun _ => Monitor.holds_pure true
    refine (unpaced (.load (.revised _ _)) trivial).bind fun revised => ?_
    split
    · exact unpaced_release _ _
    refine (unpaced (.ask (.transcribe turn)) trivial).bind fun transcript => ?_
    split
    · exact (unpaced (.ask .lastError) trivial).bind fun _ =>
        (unpaced (.send (.error _)) trivial).bind fun _ => unpaced_release _ _
    split
    · exact unpaced_release _ _
    refine (unpaced (.ask (.admits _ _)) trivial).bind fun admitted => ?_
    split
    · exact (unpaced (.send (.transcript _ _)) trivial).bind fun _ =>
        unpaced (.pushAnswer _) trivial
    · exact unpaced_release _ _

/-! ### The responder -/

theorem unpaced_speak (unit : SentenceUnit) (voice : Voice) :
    Unpaced .responder (connSpeak P unit voice) := by
  have hload : Unpaced .responder (loadCancel : Program F Bool) := unpaced (.load .cancel) trivial
  have hsounds : Sounds (pace F) .responder fun _ => True :=
    ⟨Act.Unpaced.keeps trivial, fun _ _ => Act.Unpaced.keeps trivial,
      fun _ _ => Act.Unpaced.keeps trivial, fun _ => Act.Unpaced.keeps trivial⟩
  have hhold : Unpaced .responder (connHold : Program F Bool) := by
    refine (unpaced (.load .answerReleased) trivial).bind fun released => ?_
    split
    · exact Monitor.holds_pure true
    refine (unpaced (.load .answer) trivial).bind fun answer =>
      (unpaced_release _ _).bind fun _ => (unpaced .waitFinal trivial).bind fun heard => ?_
    split
    · exact (unpaced .setReleased trivial).bind fun _ => Monitor.holds_pure true
    · exact Monitor.holds_pure false
  refine hhold.bind fun held => ?_
  split
  · refine (hsounds.bridge P unit voice).bind fun spoke => hload.bind fun cancelled => ?_
    split
    · exact (unpaced (.ask .lastError) trivial).bind fun _ =>
        (unpaced (.send (.error _)) trivial).bind fun _ => Monitor.holds_pure _
    · exact Monitor.holds_pure _
  · exact Monitor.holds_pure false

theorem composes_pace : Composes P (pace F) fun _ => True where
  load := Act.Unpaced.keeps trivial
  ask _ _ := Act.Unpaced.keeps trivial
  tell _ _ := Act.Unpaced.keeps trivial
  speak := unpaced_speak
  setVoice voice arguments := by
    unfold connSetVoice
    dsimp only
    split
    · exact Monitor.holds_pure _
    split
    · exact Monitor.holds_pure _
    exact (unpaced (.setVoice _ _) trivial).bind fun _ =>
      (unpaced (.send (.voice _ _)) trivial).bind fun _ => Monitor.holds_pure _

theorem unpaced_echo (effect : Bytes) : Unpaced .responder (connEcho effect : Program F Unit) := by
  unfold connEcho
  split
  · refine (unpaced (.load .answerReleased) trivial).bind fun released => ?_
    split
    · refine (unpaced (.load .cancel) trivial).bind fun cancelled => ?_
      split
      · exact Monitor.holds_pure ()
      · exact (unpaced (.ask .jarvisTail) trivial).bind fun _ => unpaced (.send (.audio _)) trivial
    · exact Monitor.holds_pure ()
  · exact Monitor.holds_pure ()

/-- **`conn_answer`** lowers the cancel right after it found no stop. -/
theorem holds_answer (job : AnswerJob) : Unpaced .responder (connAnswer P job) := fun _ _ => by
  refine Watched.act (M := pace F) (a := .load .stop) trivial fun stop => ?_
  cases stop with
  | true => exact unpaced_release _ _ _ trivial
  | false =>
    refine Watched.act (M := pace F) (a := .storeCancel false) ⟨rfl, rfl⟩ fun _ => ?_
    have hrest : Unpaced .responder (do
        let client ← perform (.load .client)
        perform (.publish job.turnId job.revision)
        connSend .created
        let effect ← compose P job client
        connEcho effect
        perform (.storeSpeaking false)
        let cancelled ← loadCancel
        connSend (if cancelled then .cancelled else .done)
        connRelease job.turnId job.revision) :=
      (unpaced (.load .client) trivial).bind fun client =>
        (unpaced (.publish _ _) trivial).bind fun _ => (unpaced (.send .created) trivial).bind fun _ =>
          (composes_pace.compose job client).bind fun effect => (unpaced_echo effect).bind fun _ =>
            (unpaced (.storeSpeaking false) trivial).bind fun _ =>
              (unpaced (.load .cancel) trivial).bind fun _ =>
                (unpaced (.send _) trivial).bind fun _ => unpaced_release _ _
    exact hrest _ trivial

theorem holds_responder : Unpaced .responder (connResponder P) := by
  refine (unpaced .popAnswer trivial).bind fun next => ?_
  cases next with
  | none => exact Monitor.holds_pure false
  | some job => exact (holds_answer job).bind fun _ => Monitor.holds_pure true

end Bodies

/-- **Every thread is fit for it.** -/
def paceFit (P : Setup F V S) : Fit (connection P) (pace F) where
  start _ := .other
  begins _ _ := True
  starts _ := trivial
  bodies role s _ := by
    refine Watched.mono (Q := fun _ _ => True) ?_ fun _ _ _ _ => trivial
    cases role with
    | reader => exact holds_reader s trivial
    | recognizer => exact holds_recognizer s trivial
    | responder => exact holds_responder s trivial
    | writer => exact holds_writer s trivial

/-! ### What a stop leaves -/

variable {P : Setup F V S} {c : Config Role (Act F) Act.Result (Memory F V)}

/-- **What holds while the two pairs stay apart**: the cancel is up from before `stop` is set, the
responder is past its own pair by then, and whatever is set to work after a stop is set to work
cancelled. -/
structure Poised (c : Config Role (Act F) Act.Result (Memory F V)) : Prop where
  raised : (c.mem.stop = true ∨ ∃ role, isSetting (c.prog role) = true) → c.mem.cancel = true
  past : c.mem.stop = true → isLowering (c.prog .responder) = false
  works : ∀ before w cancelled after, c.mem.log = before ++ .work w cancelled :: after →
    .stopped ∈ before → cancelled = true

/-- No thread begins in the middle of its pair. -/
theorem not_begun (P : Setup F V S) (role : Role) :
    isSetting ((connection P).body role) = false ∧ isLowering ((connection P).body role) = false := by
  cases role <;> exact ⟨rfl, rfl⟩

theorem Poised.start (P : Setup F V S) : Poised (connection P).start where
  raised := by
    rintro (hstop | ⟨role, hsetting⟩)
    · simp [System.start, connection, Memory.new] at hstop
    · have hbody : isSetting ((connection P).start.prog role) = false := (not_begun P role).1
      simp [hbody] at hsetting
  past _ := (not_begun P .responder).2
  works before _ _ _ h := by simp [System.start, connection, Memory.new] at h

/-- Apart from the end of a stop, an action adds work as the cancel stands. -/
theorem work_logs (role : Role) {a : Act F} {m : Memory F V} {r : a.Result} {w : Work}
    {cancelled : Bool} (h : .work w cancelled ∈ a.logs role m r) : cancelled = m.cancel := by
  cases a with
  | ask query =>
    obtain ⟨_, -, heq⟩ := List.mem_map.1 h
    exact (Entry.work.inj heq).2.symm
  | popAnswer => cases r <;> simp [Act.logs] at h
  | _ => simp [Act.logs] at h

/-- An action adds one entry at most. -/
theorem logs_le (role : Role) (a : Act F) (m : Memory F V) (r : a.Result) :
    (a.logs role m r).length ≤ 1 := by
  cases a with
  | ask query => cases hw : query.work <;> simp [Act.logs, hw]
  | popAnswer => cases r <;> simp [Act.logs]
  | _ => simp [Act.logs]

/-- An entry of the log stood there before, or is the one that was added. -/
theorem log_split {role : Role} {a : Act F} {x : a.Input} {r : a.Result} {m m' : Memory F V}
    (hexec : exec P role a x m = some (r, m')) {before after : List (Entry F)} {e : Entry F}
    (h : m'.log = before ++ e :: after) :
    (∃ front, m.log = before ++ e :: front) ∨ before = m.log ∧ e ∈ a.logs role m r := by
  have hone := logs_le role a m r
  rw [log_exec hexec] at h
  rcases List.append_eq_append_iff.1 h with ⟨front, rfl, hfront⟩ | ⟨front, hold, hfront⟩
  · rw [hfront, List.length_append, List.length_cons] at hone
    obtain rfl : front = [] := List.eq_nil_of_length_eq_zero (by omega)
    rw [List.nil_append] at hfront
    exact .inr ⟨List.append_nil _, hfront ▸ List.mem_cons_self⟩
  · cases front with
    | nil =>
      rw [List.nil_append] at hfront
      rw [List.append_nil] at hold
      exact .inr ⟨hold.symm, hfront ▸ List.mem_cons_self⟩
    | cons first front =>
      obtain ⟨rfl, -⟩ := List.cons.inj hfront
      exact .inl ⟨front, hold⟩

/-- **One step** from where the two pairs are apart. -/
theorem Poised.act (h : Poised c) (hkept : Kept c.mem) {states : Role → (pace F).State}
    (hat : (paceFit P).At states c) (hapart : apart c = true) {role : Role} {a : Act F}
    {next : a.Result → Program F Bool} (hprog : c.prog role = .act a next) {x : a.Input}
    {r : a.Result} {m : Memory F V} (hexec : exec P role a x c.mem = some (r, m)) :
    Poised ⟨m, Function.update c.prog role (next r)⟩ := by
  have hafter : ∀ {b : Act F} {k : b.Result → Program F Bool}, next r = .act b k →
      (pace F).ok role (Pace.next a r) b := fun {b k} hnext => by
    have hthen : Function.update c.prog role (next r) role = .act b k := by simpa using hnext
    have hok := (hat.act hprog r m).ok hthen
    rw [Function.update_self] at hok
    exact hok
  -- The responder lowers the cancel of no stop.
  have hlowers : a = .storeCancel false →
      c.mem.stop = false ∧ ∀ other, isSetting (c.prog other) = false := by
    rintro rfl
    obtain ⟨rfl, -⟩ : role = .responder ∧ _ := hat.ok hprog
    have hlowering : isLowering (c.prog .responder) = true := isLowering_iff.2 ⟨next, hprog⟩
    refine ⟨?_, not_isSetting_of_apart hapart hlowering⟩
    by_contra hstop
    rw [h.past (by simpa using hstop)] at hlowering
    simp at hlowering
  have hkeeps : (c.mem.stop = true ∨ ∃ other, isSetting (c.prog other) = true) → m.cancel = true := by
    intro hraised
    refine cancel_exec (fun ha => ?_) hexec (h.raised hraised)
    obtain ⟨hstop, hnone⟩ := hlowers ha
    rcases hraised with hset | ⟨other, hsetting⟩
    · simp [hstop] at hset
    · simp [hnone other] at hsetting
  have hset : m.stop = true → c.mem.stop = true ∨ isSetting (c.prog role) = true := by
    intro hstop
    by_cases ha : a = .setStop
    · subst ha
      exact .inr (isSetting_iff.2 ⟨next, hprog⟩)
    · exact .inl ((stop_same ha hexec).symm.trans hstop)
  refine ⟨?_, ?_, ?_⟩
  · rintro (hstop | ⟨other, hsetting⟩)
    · exact hkeeps ((hset hstop).imp_right fun hs => ⟨role, hs⟩)
    · by_cases hother : other = role
      · subst hother
        obtain ⟨k, hk⟩ := isSetting_iff.1 (by simpa using hsetting)
        have hraised : Pace.next a r = .raised := hafter hk
        obtain rfl := next_raised hraised
        obtain ⟨-, rfl⟩ := done_inj hexec
        rfl
      · exact hkeeps (.inr ⟨other, by simpa [hother] using hsetting⟩)
  · intro hstop
    by_contra hlowering
    rw [Bool.not_eq_false] at hlowering
    by_cases hrole : Role.responder = role
    · subst hrole
      obtain ⟨k, hk⟩ := isLowering_iff.1 (by simpa using hlowering)
      have hclear := next_clear (hafter hk).2 hexec
      simp only at hstop
      simp [hclear] at hstop
    · have hstood : isLowering (c.prog .responder) = true := by simpa [hrole] using hlowering
      rcases hset hstop with hold | hsetting
      · simp [h.past hold] at hstood
      · simp [not_isSetting_of_apart hapart hstood role] at hsetting
  · intro before w cancelled after hlog hstopped
    rcases log_split hexec hlog with ⟨front, hold⟩ | ⟨rfl, hadded⟩
    · exact h.works before w cancelled front hold hstopped
    · rw [work_logs role hadded]
      exact h.raised (.inl (hkept.stops hstopped))

/-- A body that begins again. -/
theorem Poised.again (h : Poised c) {role : Role} :
    Poised ⟨c.mem, Function.update c.prog role ((connection P).body role)⟩ where
  raised := by
    rintro (hstop | ⟨other, hsetting⟩)
    · exact h.raised (.inl hstop)
    · by_cases hother : other = role
      · subst hother
        simp [(not_begun P other).1] at hsetting
      · exact h.raised (.inr ⟨other, by simpa [hother] using hsetting⟩)
  past hstop := by
    by_cases hrole : Role.responder = role
    · subst hrole
      simpa using (not_begun P .responder).2
    · simpa [hrole] using h.past hstop
  works := h.works

/-- **The two pairs apart, a connection stays poised.** -/
theorem poised_of_within (h : Within (connection P) (fun c => apart c = true) c) :
    Poised c ∧ ∃ states, (paceFit P).At states c := by
  induction h with
  | start => exact ⟨.start P, _, (paceFit P).at_start⟩
  | act h hapart hprog hexec ih =>
    obtain ⟨hpoised, states, hat⟩ := ih
    exact ⟨hpoised.act (kept_of_reaches h.reaches) hat hapart hprog hexec, _, hat.act hprog _ _⟩
  | again h hapart hprog ih =>
    obtain ⟨hpoised, states, hat⟩ := ih
    exact ⟨hpoised.again, states, hat.again hprog⟩

/-- **What a stop leaves**: the cancel is up, and whatever is set to work is set to work
cancelled. -/
structure StaysDown (m : Memory F V) : Prop where
  raised : m.cancel = true
  works : ∀ before w cancelled after, m.log = before ++ .work w cancelled :: after →
    .stopped ∈ before → cancelled = true

/-- **A stop holds as long as the two pairs do not overlap.** -/
theorem stop_holds (h : Within (connection P) (fun c => apart c = true) c)
    (hstopped : .stopped ∈ c.mem.log) : StaysDown c.mem :=
  ⟨(poised_of_within h).1.raised (.inl ((kept_of_reaches h.reaches).stops hstopped)),
    (poised_of_within h).1.works⟩

/-- A client that goes away while the responder is at the gate. -/
def stopAtGate : List (Role × ((a : Act ℕ) → a.Input)) :=
  upToGate ++ steps .reader .closed 6

theorem stopAtGate_isSome : (playWithin (connection (plainSetup (ascii "loopback"))) apart
    (connection (plainSetup (ascii "loopback"))).start stopAtGate).isSome = true := by
  decide +kernel

/-- Where it ends. -/
def stoppedAtGate : Config Role (Act ℕ) Act.Result (Memory ℕ Unit) :=
  (playWithin (connection (plainSetup (ascii "loopback"))) apart
    (connection (plainSetup (ascii "loopback"))).start stopAtGate).get stopAtGate_isSome

theorem stop_holds_at_gate : StaysDown stoppedAtGate.mem := by
  have hstopped : stoppedAtGate.mem.log.any Entry.isStopped = true := by
    decide +kernel
  obtain ⟨e, he, hs⟩ := List.any_eq_true.1 hstopped
  exact stop_holds (Within.start.play (Option.some_get stopAtGate_isSome).symm)
    (Entry.isStopped_iff.1 hs ▸ he)

/-- The responder took the job and found no stop; then the client went away; the responder goes
on. -/
def takeBack : List (Role × ((a : Act ℕ) → a.Input)) :=
  steps .reader (.audio [] [1, 0]) 16 ++ steps .recognizer .other 6 ++ steps .responder .other 2 ++
    steps .reader .closed 6 ++ steps .responder .other 7

theorem takeBack_isSome : (play (connection (plainSetup (ascii "conversation")))
    (connection (plainSetup (ascii "conversation"))).start takeBack).isSome = true := by
  decide +kernel

/-- **A stop can be taken back.**  It has returned, and the responder, which lowers the cancel for
the answer it starts, sends a request that nothing cancels. -/
theorem stop_taken_back :
    ∃ c : Config Role (Act ℕ) Act.Result (Memory ℕ Unit),
      Reaches (connection (plainSetup (ascii "conversation"))) c ∧ c.mem.cancel = false ∧
      ¬(c.prog .responder).Exited ∧ ∃ before messages after,
        c.mem.log = before ++ .work (.request messages) false :: after ∧ .stopped ∈ before := by
  have hstopped : ((played _ _ takeBack_isSome).mem.log.take 10).any Entry.isStopped = true := by
    decide +kernel
  have hrequest : ((played _ _ takeBack_isSome).mem.log.drop 10).any Entry.isOpenRequest = true := by
    decide +kernel
  have hgoes : ((played _ _ takeBack_isSome).prog .responder).exited = false := by decide +kernel
  refine ⟨_, reaches_played takeBack_isSome, by decide +kernel, fun hexited => ?_, ?_⟩
  · rw [(Prog.exited_iff _).2 hexited] at hgoes
    simp at hgoes
  · obtain ⟨e, he, hr⟩ := List.any_eq_true.1 hrequest
    obtain ⟨e', he', hs⟩ := List.any_eq_true.1 hstopped
    obtain ⟨messages, rfl⟩ := Entry.isOpenRequest_iff.1 hr
    obtain rfl := Entry.isStopped_iff.1 hs
    obtain ⟨between, after, hsplit⟩ := List.append_of_mem he
    refine ⟨(played _ _ takeBack_isSome).mem.log.take 10 ++ between, messages, after, ?_, ?_⟩
    · rw [List.append_assoc, ← hsplit, List.take_append_drop]
    · exact List.mem_append_left _ he'

end Conversation
end S2S
