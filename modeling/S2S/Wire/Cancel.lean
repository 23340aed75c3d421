/-
# Which answer a cancel hits

A `response.cancel` names no answer.  The reader raises one flag, the responder
lowers it when it starts an answer and looks at it a last time before it closes
(`conn_answer`).  So a cancel hits the answer that runs when the reader handles
it (`cancel_hits`): the one that the client held open when it sent the cancel, or
a later one (`cancel_hits_next`).
-/

import S2S.Client.Ledger
import S2S.Conversation.Guarantees
import S2S.Wire.Basic

namespace S2S
namespace Wire

open Json Thread Conversation Client

variable {F V S : Type}

/-! ### Answers -/

/-- The answers that some frames open. -/
def opened (fs : List (Frame F)) : ℕ :=
  fs.countP fun
    | .created => true
    | _ => false

/-- How the answers close, one after the other: whether they are cancelled. -/
def closings (fs : List (Frame F)) : List Bool :=
  fs.filterMap fun
    | .done => some false
    | .cancelled => some true
    | _ => none

theorem opened_append (fs fs' : List (Frame F)) : opened (fs ++ fs') = opened fs + opened fs' :=
  List.countP_append

theorem closings_append (fs fs' : List (Frame F)) :
    closings (fs ++ fs') = closings fs ++ closings fs' := List.filterMap_append

/-- The answers that a bracket leaves open. -/
def pending : Bracket → ℕ
  | .closed => 0
  | _ => 1

theorem pending_frame {b b' : Bracket} {f : Frame F} (h : b.frame f = some b') :
    pending b + opened [f] = (closings [f]).length + pending b' := by
  cases f with
  | toolDone name ok ms bytes =>
    cases b with
    | calling name' =>
      simp only [Bracket.frame] at h
      split at h
      · obtain rfl := Option.some.inj h
        rfl
      · simp at h
    | _ => simp [Bracket.frame] at h
  | _ => cases b <;> first | (obtain rfl := Option.some.inj h; rfl) | simp [Bracket.frame] at h

/-- **At most one answer is open**: as many have closed, or one less. -/
theorem opened_of_bracket {log : List (Entry F)} {b : Bracket} (h : bracketOf log = some b) :
    opened (frames log) = (closings (frames log)).length + pending b := by
  induction log using List.reverseRecOn generalizing b with
  | nil =>
    obtain rfl : Bracket.closed = b := Option.some.inj h
    rfl
  | append_singleton log e ih =>
    rw [bracketOf_snoc] at h
    rw [frames_append, opened_append, closings_append, List.length_append]
    cases e with
    | frame role f =>
      obtain ⟨b', hb', hf⟩ := Option.bind_eq_some_iff.1 h
      have hstep := pending_frame hf
      rw [ih hb']
      show _ + opened [f] = _ + (closings [f]).length + _
      omega
    | _ => exact ih h

/-! ### The client -/

theorem not_opens_of_neutral {e : Event F} (h : e.Neutral) : e.opens = false := by
  cases e with
  | server e => cases e <;> first | exact h.elim | rfl
  | _ => rfl

theorem close_generation (l : Ledger) :
    l.close.generation = l.generation ∧ l.close.answering = false := by
  unfold Ledger.close
  split
  · exact ⟨rfl, rfl⟩
  · exact ⟨rfl, by simp_all⟩

/-- **Only a `response.created` opens an answer of the client.** -/
theorem generation_moves {l l' : Ledger} {e : Event F} (h : l.Moves e l') :
    l'.generation = l.generation + (if e.opens then 1 else 0) ∧
      (e.opens = false → l'.answering = true → l.answering = true) := by
  cases h with
  | hears hneutral => simp [not_opens_of_neutral hneutral, Ledger.hear]
  | late played hneutral => simp [not_opens_of_neutral hneutral]
  | closes hneutral hanswering =>
    simp [not_opens_of_neutral hneutral, close_generation, hanswering, Ledger.hear]
  | opens => simp [Event.opens, Ledger.open', close_generation]
  | clears =>
    unfold Ledger.clear
    split <;> simp [Event.opens, *]
  | sets messages => simp [Event.opens]
  | tells text item lines => simp [Event.opens]

theorem generation_step (t : Talk F) (e : Event F) :
    (t.step e).generation = t.generation + (if e.opens then 1 else 0) ∧
      (e.opens = false → (t.step e).answering = true → t.answering = true) :=
  generation_moves (t.step_moves e)

theorem generation_tell (w : Link F V) (e : Event F) :
    (w.tell e).client.generation = w.client.generation + (if e.opens then 1 else 0) ∧
      (e.opens = false → (w.tell e).client.answering = true → w.client.answering = true) :=
  generation_step { w.client with out := [] } e

theorem OfHost.not_opens {e : Event F} (h : OfHost e) : e.opens = false := by
  cases e <;> first | exact h.elim | rfl

theorem Tells.opens {f : Frame F} {e : ServerEvent F} (h : Tells f e) :
    (if (Event.server e).opens then 1 else 0) = opened [f] := by
  cases f with
  | audio pcm =>
    obtain ⟨heard, -, rfl⟩ := h
    rfl
  | _ =>
    obtain rfl := h
    rfl

/-! ### What the client held -/

/-- An answer of this connection that the client had seen. -/
def Seen (t : Talk F) (w : Link F V) (held : Option ℕ) : Prop :=
  ∀ g ∈ held, t.generation < g ∧ g ≤ t.generation + opened w.got

/-- **What the client holds, it has been sent**: its answers are numbered as they were opened. -/
structure Numbered (t : Talk F) (w : Link F V) : Prop where
  generation : w.client.generation = t.generation + opened w.got
  answering : w.client.answering = true → 0 < opened w.got
  up : ∀ posted ∈ w.up, Seen t w posted.held
  read : Seen t w w.read

theorem Numbered.holds {t : Talk F} {w : Link F V} (h : Numbered t w) : Seen t w (holds w.client) := by
  intro g hg
  unfold Wire.holds at hg
  split at hg
  · rename_i hanswering
    obtain rfl := Option.some.inj hg
    have hpos := h.answering hanswering
    have hgen := h.generation
    omega
  · simp at hg

theorem Numbered.tell {t : Talk F} {w : Link F V} (h : Numbered t w) {e : Event F}
    (he : e.opens = false) : Numbered t (w.tell e) := by
  obtain ⟨hgen, hanswering⟩ := generation_tell w e
  rw [he] at hgen
  refine ⟨hgen.trans h.generation, fun hans => h.answering (hanswering he hans), fun posted hp => ?_,
    h.read⟩
  rcases List.mem_append.1 hp with hp | hp
  · exact h.up posted hp
  · obtain ⟨f, -, rfl⟩ := List.mem_map.1 hp
    exact h.holds

theorem Numbered.step {P : Setup F V S} {t : Talk F} {w w' : Link F V} (h : Numbered t w)
    {happening : Happening F} (hstep : Step P w happening w') : Numbered t w' := by
  cases hstep with
  | act => exact ⟨h.generation, h.answering, h.up, h.read⟩
  | again => exact ⟨h.generation, h.answering, h.up, h.read⟩
  | @read i next hprog posted up hup x hreads =>
    exact ⟨h.generation, h.answering, fun posted' hp => h.up posted' (hup ▸ List.mem_cons_of_mem _ hp),
      h.up posted (hup ▸ List.mem_cons_self)⟩
  | write => exact ⟨h.generation, h.answering, h.up, h.read⟩
  | @receive f down hdown e htells =>
    obtain ⟨hgen, hanswering⟩ := generation_tell w (.server e)
    rw [htells.opens] at hgen
    have hgot : opened (w.got ++ [f]) = opened w.got + opened [f] := opened_append _ _
    have hmono : ∀ {held : Option ℕ}, Seen t w held →
        Seen t { w.tell (.server e) with down := down, got := w.got ++ [f] } held := by
      intro held hseen g hg
      obtain ⟨hlow, hhigh⟩ := hseen g hg
      refine ⟨hlow, ?_⟩
      show g ≤ t.generation + opened (w.got ++ [f])
      omega
    refine ⟨?_, fun hans => ?_, fun posted hp => ?_, hmono h.read⟩
    · show (w.tell (.server e)).client.generation = t.generation + opened (w.got ++ [f])
      rw [hgen, h.generation, hgot, Nat.add_assoc]
    · show 0 < opened (w.got ++ [f])
      cases hopens : (Event.server e).opens with
      | true =>
        have hone : opened [f] = 1 := by rw [← htells.opens, hopens]; rfl
        omega
      | false =>
        have hpos := h.answering (hanswering hopens hans)
        omega
    · rcases List.mem_append.1 hp with hp | hp
      · exact hmono (h.up posted hp)
      · obtain ⟨f', -, rfl⟩ := List.mem_map.1 hp
        exact hmono h.holds
  | host he => exact h.tell he.not_opens
  | speak errors pcm =>
    refine ⟨h.generation, h.answering, fun posted hp => ?_, h.read⟩
    rcases List.mem_append.1 hp with hp | hp
    · exact h.up posted hp
    · obtain rfl := List.mem_singleton.1 hp
      exact h.holds

theorem numbered_opening (P : Setup F V S) {t : Talk F} (ht : t.answering = false) :
    Numbered t (opening P t) := by
  have hgen : (opening P t).client.generation = t.generation :=
    (generation_step ({ t with out := [] } : Talk F) .opened).1
  have hans : ¬(opening P t).client.answering = true := fun hans => by
    have hbefore := (generation_step ({ t with out := [] } : Talk F) .opened).2 rfl hans
    exact absurd (ht.symm.trans hbefore) (by simp)
  refine ⟨hgen, fun h => absurd h hans, fun posted hp => ?_, fun g hg => ?_⟩
  · obtain ⟨f, -, rfl⟩ := List.mem_map.1 (show posted ∈ _ from hp)
    intro g hg
    simp [holds, ht] at hg
  · simp [opening, Link.tell] at hg

/-! ### The flag -/

/-- The frame that closes an answer. -/
def close (cancelled : Bool) : Frame F := if cancelled then .cancelled else .done

/-- The responder is in an answer, and is not about to close it other than `cancelled` says. -/
structure Inside (cancelled : Bool) (w : Link F V) : Prop where
  look : (w.watches .responder).look ≠ .off
  before : ∀ next, w.server.prog .responder ≠ .act (.send (close !cancelled)) next

/-- How the answers have closed on the server, one after the other: whether they were cancelled. -/
def Link.closed (w : Link F V) : List Bool := closings (frames w.server.mem.log)

/-- The answer after `n` others is running, or has closed as `cancelled` says. -/
def Closes (cancelled : Bool) (n : ℕ) (w : Link F V) : Prop :=
  (w.closed.length = n ∧ Inside cancelled w) ∨ w.closed[n]? = some cancelled

section Steps

variable {P : Setup F V S} {w w' : Link F V}

theorem closed_act {i : Role} {a : Act F} {next : a.Result → Program F Bool} {x : a.Input}
    {r : a.Result} {m : Memory F V} (hexec : exec P i a x w.server.mem = some (r, m)) :
    (w.act i next r m).closed = w.closed ++ closings (sent a) := by
  show closings (frames m.log) = _
  rw [frames_exec hexec, closings_append]
  rfl

/-- The others close nothing and lower nothing. -/
theorem other_act (hw : Stands P w) {i : Role} (hi : i ≠ .responder) {a : Act F}
    {next : a.Result → Program F Bool} (hprog : w.server.prog i = .act a next) :
    closings (sent a) = [] ∧ a ≠ .storeCancel false := by
  have hok := hw.fit.ok hprog
  refine ⟨?_, ?_⟩
  · cases a with
    | send f => cases f <;> first | exact absurd hok.1 hi | rfl
    | _ => rfl
  · rintro rfl
    exact hi hok.1

/-- The same answers have closed, or one more. -/
theorem Closes.of_closed {cancelled : Bool} {n : ℕ} {more : List Bool}
    (h : w.closed[n]? = some cancelled) (hclosed : w'.closed = w.closed ++ more) :
    Closes cancelled n w' := by
  obtain ⟨hlt, -⟩ := List.getElem?_eq_some_iff.1 h
  right
  rw [hclosed, List.getElem?_append_left hlt]
  exact h

/-- What the others do is beside the answer. -/
theorem Closes.beside {cancelled : Bool} {n : ℕ} (h : Closes cancelled n w)
    (hclosed : w'.closed = w.closed)
    (hlook : (w'.watches .responder).look = (w.watches .responder).look)
    (hprog : w'.server.prog .responder = w.server.prog .responder) : Closes cancelled n w' := by
  rcases h with ⟨hn, hinside⟩ | h
  · exact .inl ⟨hclosed ▸ hn, hlook ▸ hinside.look, hprog ▸ hinside.before⟩
  · exact .inr (hclosed ▸ h)

/-- The responder in an answer, by what it does: it closes it, looks at the flag, or goes on. -/
theorem look_act {i : Role} {a : Act F} {x : a.Input} {r : a.Result} {m m' : Memory F V}
    (hexec : exec P i a x m = some (r, m')) {s : Look} (hs : s ≠ .off)
    (hlower : a ≠ .storeCancel false) :
    (∃ cancelled, a = .send (close cancelled)) ∨
      closings (sent a) = [] ∧ (s.next a r = .on ∨ s.next a r = .looked m.cancel) := by
  have hon : (if s = .off then Look.off else .on) = .on := if_neg hs
  cases a with
  | send f =>
    cases f with
    | done => exact .inl ⟨false, rfl⟩
    | cancelled => exact .inl ⟨true, rfl⟩
    | _ => exact .inr ⟨rfl, .inl hon⟩
  | load field =>
    cases field with
    | cancel =>
      obtain ⟨rfl, -⟩ := done_inj hexec
      exact .inr ⟨rfl, .inr (if_neg hs)⟩
    | _ => exact .inr ⟨rfl, .inl hon⟩
  | storeCancel cancel =>
    cases cancel with
    | false => exact absurd rfl hlower
    | true => exact .inr ⟨rfl, .inl hon⟩
  | _ => exact .inr ⟨rfl, .inl hon⟩

/-- The responder closes an answer as its last look says. -/
theorem ok_close {role : Role} {s : Watch F} {cancelled : Bool}
    (h : (watch P).ok role s (.send (close cancelled))) : s.look = .looked cancelled := by
  cases cancelled with
  | true => exact h.2
  | false => exact h.2

theorem sent_close (cancelled : Bool) :
    closings (sent (.send (close cancelled) : Act F)) = [cancelled] := by
  cases cancelled <;> rfl

/-- **While the flag is as `cancelled` says, the answer closes so.** -/
theorem Closes.step {cancelled : Bool} {n : ℕ} (h : Closes cancelled n w) (hw : Stands P w)
    (hflag : w.closed.length = n → w.server.mem.cancel = cancelled) {happening : Happening F}
    (hstep : Step P w happening w') : Closes cancelled n w' := by
  have hw' := hstep.stands hw
  cases hstep with
  | @act i a next hprog hown x r m hexec =>
    have hclosed : (w.act i next r m).closed = w.closed ++ closings (sent a) := closed_act hexec
    rcases h with ⟨hn, hinside⟩ | h
    · by_cases hi : i = .responder
      · subst hi
        have hok := hw.fit.ok hprog
        have hlower : a ≠ .storeCancel false := by
          rintro rfl
          exact hinside.look hok.2
        rcases look_act hexec hinside.look hlower with ⟨b, rfl⟩ | ⟨hnone, hlook⟩
        · -- It closes, and not the other way.
          have hb : b = cancelled := by
            by_contra hne
            refine hinside.before next ?_
            rw [hprog, Bool.eq_not_of_ne hne]
          rw [sent_close, hb] at hclosed
          refine .inr ((congrArg (·[n]?) hclosed).trans ?_)
          rw [← hn]
          exact List.getElem?_concat_length ..
        · rw [hnone, List.append_nil] at hclosed
          have hwatch : ((w.act .responder next r m).watches .responder).look
              = (w.watches .responder).look.next a r := by
            simp [Link.act]
          refine .inl ⟨hclosed ▸ hn, ?_, fun next' hprog' => ?_⟩
          · rw [hwatch]
            rcases hlook with hlook | hlook <;> simp [hlook]
          · have hlooked := ok_close (hw'.fit.ok hprog')
            rw [hwatch] at hlooked
            rcases hlook with hlook | hlook
            · simp [hlook] at hlooked
            · rw [hlook, hflag hn] at hlooked
              cases cancelled <;> simp at hlooked
      · rw [(other_act hw hi hprog).1, List.append_nil] at hclosed
        refine .beside (.inl ⟨hn, hinside⟩) hclosed ?_ ?_ <;>
          simp [Link.act, Function.update_of_ne (Ne.symm hi)]
    · exact .of_closed h hclosed
  | @again i hprog =>
    by_cases hi : i = .responder
    · subst hi
      rcases h with ⟨-, hinside⟩ | h
      · have hfit := hw.fit .responder
        rw [hprog] at hfit
        exact absurd (hfit.of_done rfl).look hinside.look
      · exact .inr h
    · exact h.beside rfl rfl (by simp [Function.update_of_ne (Ne.symm hi)])
  | @read i next hprog posted up hup x hreads =>
    obtain ⟨rfl, -⟩ := hw.fit.ok hprog
    exact h.beside rfl (by simp [Link.act]) (by simp [Link.act])
  | @write i f next hprog =>
    obtain ⟨rfl, -⟩ := hw.fit.ok hprog
    exact h.beside rfl (by simp [Link.act]) (by simp [Link.act])
  | receive => exact h.beside rfl rfl rfl
  | host => exact h.beside rfl rfl rfl
  | speak => exact h.beside rfl rfl rfl

/-- No answer closes twice. -/
theorem closed_step {happening : Happening F} (hstep : Step P w happening w') :
    ∃ more, w'.closed = w.closed ++ more := by
  cases hstep with
  | act hprog hown hexec => exact ⟨_, closed_act hexec⟩
  | _ => exact ⟨[], (List.append_nil _).symm⟩

/-- An answer that the flag, once up, strikes: it stays up until the answer has closed. -/
structure Struck (n : ℕ) (w : Link F V) : Prop where
  closes : Closes true n w
  after : n ≤ w.closed.length
  flag : w.closed.length = n → w.server.mem.cancel = true

theorem Struck.step {n : ℕ} (h : Struck n w) (hw : Stands P w) {happening : Happening F}
    (hstep : Step P w happening w') : Struck n w' := by
  obtain ⟨more, hmore⟩ := closed_step hstep
  have hle : w.closed.length ≤ w'.closed.length := by
    rw [hmore, List.length_append]
    omega
  refine ⟨h.closes.step hw h.flag hstep, h.after.trans hle, fun hn => ?_⟩
  have hbefore : w.closed.length = n := by
    have hafter := h.after
    omega
  have hflag := h.flag hbefore
  cases hstep with
  | @act i a next hprog hown x r m hexec =>
    refine cancel_exec ?_ hexec hflag
    rintro rfl
    obtain ⟨rfl, hoff⟩ := hw.fit.ok hprog
    rcases h.closes with ⟨-, hinside⟩ | hclosed
    · exact hinside.look hoff
    · rw [List.getElem?_eq_none (by omega)] at hclosed
      simp at hclosed
  | _ => exact hflag

theorem Struck.along {n : ℕ} {ok : Link F V → Happening F → Link F V → Prop} (h : Struck n w)
    (hw : Stands P w) (hrun : Along P ok w w') : Struck n w' := by
  induction hrun with
  | refl => exact h
  | tail hrun hstep ih =>
    obtain ⟨_, hstep, -⟩ := hstep
    exact ih.step (hw.along hrun) hstep

/-- An answer during which nobody raises the flag. -/
theorem Closes.spared {n : ℕ} (h : Closes false n w) (hw : Stands P w)
    (hflag : w.server.mem.cancel = false)
    (hrun : Along P (fun _ _ w' => w'.server.mem.cancel = false) w w') : Closes false n w' := by
  suffices hboth : Closes false n w' ∧ w'.server.mem.cancel = false from hboth.1
  induction hrun with
  | refl => exact ⟨h, hflag⟩
  | tail hrun hstep ih =>
    obtain ⟨_, hstep, hdown⟩ := hstep
    exact ⟨ih.1.step (hw.along hrun) (fun _ => ih.2) hstep, hdown⟩

theorem Closes.eq {cancelled b : Bool} {n : ℕ} (h : Closes cancelled n w)
    (hb : b ∈ w.closed[n]?) : b = cancelled := by
  rcases h with ⟨hn, -⟩ | h
  · rw [List.getElem?_eq_none (by omega)] at hb
    simp at hb
  · exact Option.some.inj (hb.symm.trans h)

theorem Numbered.along {t : Talk F} {ok : Link F V → Happening F → Link F V → Prop}
    (h : Numbered t w) (hrun : Along P ok w w') : Numbered t w' := by
  induction hrun with
  | refl => exact h
  | tail _ hstep ih =>
    obtain ⟨_, hstep, -⟩ := hstep
    exact ih.step hstep

/-- The reader has read a cancel that the client sent while it held its answer number `g`. -/
structure Link.Cancelling (w : Link F V) (g : ℕ) : Prop where
  hand : (w.watches .reader).hand = .incoming .cancel
  held : w.read = some g

/-- **Which answer a cancel hits**, when the reader handles one that the client sent while it held
its answer number `g`.  Every answer before that one has closed.  The answer that runs now, and is
not about to close with `response.done`, closes with `response.cancelled`.  And an answer that the
responder starts from now on closes with `response.done`, unless the flag is raised anew. -/
theorem cancel_hits {t : Talk F} (ht : t.answering = false)
    (h : Along P (fun _ _ _ => True) (opening P t) w)
    (hstep : Step P w (.act .reader (.storeCancel true)) w')
    {g : ℕ} (hcancel : w.Cancelling g) :
    (t.generation < g ∧ g ≤ t.generation + w.closed.length + 1) ∧
      ((w.watches .responder).look ≠ .off →
        (∀ next, w.server.prog .responder ≠ .act (.send .done) next) →
        ∀ w₂, Along P (fun _ _ _ => True) w' w₂ → ∀ b ∈ w₂.closed[w.closed.length]?, b = true) ∧
      ∀ v v₁ v₂, Along P (fun _ _ _ => True) w' v →
        Step P v (.act .responder (.storeCancel false)) v₁ →
        Along P (fun _ _ w' => w'.server.mem.cancel = false) v₁ v₂ →
        ∀ b ∈ v₂.closed[v.closed.length]?, b = false := by
  have hw := (stands_opening P t).along h
  have hw' := hstep.stands hw
  refine ⟨?_, fun hinside hbefore w₂ hrun b hb => ?_, fun v v₁ v₂ hv hlower hrun b hb => ?_⟩
  · obtain ⟨hlow, hhigh⟩ := ((numbered_opening P ht).along h).read g hcancel.held
    obtain ⟨bracket, hbracket⟩ := (kept_of_reaches hw.reaches).frames.bracket
    have hopened := opened_of_bracket hbracket
    have hpending : pending bracket ≤ 1 := by cases bracket <;> simp [pending]
    rw [hw.frames, opened_append] at hopened
    have hclosed : w.closed.length = (closings (w.got ++ w.flow)).length := by
      rw [Link.closed, hw.frames]
    omega
  · refine (Struck.along (n := w.closed.length) ?_ hw' hrun).closes.eq hb
    cases hstep with
    | @act _ _ next hprog hown x r m hexec =>
      have hclosed : (w.act .reader (a := .storeCancel true) next r m).closed = w.closed :=
        (closed_act hexec).trans (List.append_nil _)
      obtain ⟨-, rfl⟩ := done_inj hexec
      refine ⟨.inl ⟨congrArg List.length hclosed, ?_, ?_⟩, (congrArg List.length hclosed).ge,
        fun _ => rfl⟩
      · simpa [Link.act] using hinside
      · simpa [Link.act, close] using hbefore
  · have hsv := hw'.along hv
    have hsv₁ := hlower.stands hsv
    cases hlower with
    | @act _ _ next hprog hown x r m hexec =>
      have hclosed : (v.act .responder (a := .storeCancel false) next r m).closed = v.closed :=
        (closed_act hexec).trans (List.append_nil _)
      have hlook : ((v.act .responder (a := .storeCancel false) next r m).watches .responder).look
          = .on := by
        simp [Link.act, Look.next]
      obtain ⟨-, rfl⟩ := done_inj hexec
      refine (Closes.spared (.inl ⟨congrArg List.length hclosed, ?_, fun next' hprog' => ?_⟩) hsv₁ rfl
        hrun).eq hb
      · rw [hlook]
        simp
      · have hlooked := ok_close (hsv₁.fit.ok hprog')
        rw [hlook] at hlooked
        simp at hlooked

end Steps

/-! ### One run -/

/-- The thread is about to raise the flag. -/
def raises {α : Type} : Program F α → Bool
  | .act (.storeCancel true) _ => true
  | _ => false

/-- The thread is about to close an answer with `response.done`. -/
def finishes {α : Type} : Program F α → Bool
  | .act (.send .done) _ => true
  | _ => false

theorem step_raises {P : Setup F V S} {w w' : Link F V} {i : Role} {input : (a : Act F) → a.Input}
    (h : raises (w.server.prog i) = true) (hadvance : w.advance P (.thread i input) = some w') :
    Step P w (.act i (.storeCancel true)) w' := by
  unfold raises at h
  split at h
  · rename_i next hprog
    have hact : some (w.act i next () { w.server.mem with cancel := true }) = some w' := by
      simpa only [Link.advance, hprog, exec] using hadvance
    exact Option.some.inj hact ▸ .act hprog trivial (x := ()) rfl
  · simp at h

/-- There is a cancel in the hand. -/
def cancels : Hand F → Bool
  | .incoming .cancel => true
  | _ => false

theorem eq_of_cancels {s : Hand F} (h : cancels s = true) : s = .incoming .cancel := by
  unfold cancels at h
  split at h
  · rfl
  · simp at h

/-- The client that opens it. -/
def caller : Talk ℕ := { options := ⟨none, none, none, none⟩ }

/-- As many steps of one thread. -/
def turns (i : Role) (n : ℕ) : List (Cue ℕ) := List.replicate n (.thread i (plainWorld .other))

/-- A turn of one sample, whose answer the client holds; silence, and the answer is over, which the
client does not know yet. -/
def heldOver : List (Cue ℕ) :=
  turns .reader 9 ++ [.speak [1, 0]] ++ turns .reader 17 ++ turns .recognizer 6 ++
    turns .responder 12 ++ turns .writer 12 ++ List.replicate 4 .receive ++
    [.speak [0, 0]] ++ turns .reader 11 ++ turns .responder 17

/-- The user speaks once more, and the client cancels; the answer to the second turn has started when
the cancel is read. -/
def cancelLate : List (Cue ℕ) :=
  heldOver ++ [.speak [1, 0], .cancel] ++ turns .reader 17 ++ turns .recognizer 7 ++
    turns .responder 6 ++ turns .reader 2

theorem cancelLate_isSome : ((opening (plainSetup (ascii "loopback")) caller).play
    (plainSetup (ascii "loopback")) (fun w => !w.server.mem.cancel) cancelLate).isSome = true := by
  decide +kernel

/-- The cancel is about to be handled. -/
def late : Link ℕ Unit := ((opening (plainSetup (ascii "loopback")) caller).play
  (plainSetup (ascii "loopback")) (fun w => !w.server.mem.cancel) cancelLate).get cancelLate_isSome

theorem handled_isSome : (late.advance (plainSetup (ascii "loopback"))
    (.thread .reader (plainWorld .other))).isSome = true := by
  decide +kernel

/-- It has been. -/
def handled : Link ℕ Unit := (late.advance (plainSetup (ascii "loopback"))
  (.thread .reader (plainWorld .other))).get handled_isSome

theorem struck_isSome : (handled.play (plainSetup (ascii "loopback")) (fun _ => true)
    (turns .responder 4)).isSome = true := by
  decide +kernel

/-- The second answer has closed. -/
def struck : Link ℕ Unit := (handled.play (plainSetup (ascii "loopback")) (fun _ => true)
  (turns .responder 4)).get struck_isSome

theorem along_late : Along (plainSetup (ascii "loopback"))
    (fun _ _ w => w.server.mem.cancel = false) (opening (plainSetup (ascii "loopback")) caller)
    late :=
  (along_play (Option.some_get cancelLate_isSome).symm).mono fun _ _ _ hok => by simpa using hok

theorem late_cancelling : late.Cancelling 1 where
  hand := eq_of_cancels (by decide +kernel)
  held := by decide +kernel

theorem step_handled :
    Step (plainSetup (ascii "loopback")) late (.act .reader (.storeCancel true)) handled :=
  step_raises (by decide +kernel) (Option.some_get handled_isSome).symm

theorem along_struck : Along (plainSetup (ascii "loopback")) (fun _ _ _ => True) handled struck :=
  (along_play (Option.some_get struck_isSome).symm).mono fun _ _ _ _ => trivial

theorem late_closed : late.closed = [false] ∧ (late.watches .responder).look ≠ .off ∧
    finishes (late.server.prog .responder) = false ∧ struck.closed = [false, true] := by
  decide +kernel

/-- The second answer runs when the cancel is handled, and closes with `response.cancelled`. -/
theorem cancel_hits_late : 1 ≤ late.closed.length + 1 ∧
    ∀ w, Along (plainSetup (ascii "loopback")) (fun _ _ _ => True) handled w →
      ∀ b ∈ w.closed[late.closed.length]?, b = true := by
  obtain ⟨-, hlook, hfinishes, -⟩ := late_closed
  obtain ⟨hheld, hstrikes, -⟩ :=
    cancel_hits rfl (along_late.mono fun _ _ _ _ => trivial) step_handled late_cancelling
  refine ⟨by simp, hstrikes hlook fun next hprog => ?_⟩
  rw [hprog] at hfinishes
  simp [finishes] at hfinishes

/-- **A cancel that comes late hits the next answer.**  The client holds its first answer when it
sends the cancel; that one is done when the reader handles it, and the second answer, which nothing
else cancels, closes with `response.cancelled`. -/
theorem cancel_hits_next : ∃ w w' w₂ : Link ℕ Unit,
    Along (plainSetup (ascii "loopback")) (fun _ _ v => v.server.mem.cancel = false)
      (opening (plainSetup (ascii "loopback")) caller) w ∧
    w.Cancelling 1 ∧ w.closed = [false] ∧
    Step (plainSetup (ascii "loopback")) w (.act .reader (.storeCancel true)) w' ∧
    Along (plainSetup (ascii "loopback")) (fun _ _ _ => True) w' w₂ ∧ w₂.closed = [false, true] :=
  ⟨late, handled, struck, along_late, late_cancelling, late_closed.1, step_handled, along_struck,
    late_closed.2.2.2⟩

end Wire
end S2S
