/-
# The events of a call

A call of the session under its lock, and the events it raised handed over one
after the other (`connOnSessionEvent`, `connRelease`), outlined for whatever
thread makes it.  `Due` is what holds between two events: the connection has
written down all there was to a turn `t`, and the events that are left lead from
`t` to the turn of the session.
-/

import S2S.Conversation.Discipline

namespace S2S
namespace Conversation

open Json Session Thread TurnState

variable {F V S : Type}

/-! ### What is written down -/

namespace Viewed

variable {opening : ℕ × ℕ} {finalTurn : ℕ} {t t' : Turn} {r : Report F}

/-- An event that opens a turn, or opens it again, is about something new. -/
theorem opens (h : Viewed opening finalTurn t) (hbehind : finalTurn ≤ opening.1)
    (hreport : t.report r = some t') (hevent : r.event = .speechStarted ∨ r.event = .turnResumed) :
    (opening.1 < r.turnId ∨ r.turnId = opening.1 ∧ opening.2 < r.revision ∧ finalTurn < r.turnId) ∧
      Viewed r.pair finalTurn t' := by
  obtain ⟨hmoves, hid, hrev⟩ := report_some hreport
  obtain ⟨rfl⟩ := h.opening
  have hpair := pair_report hreport
  change finalTurn ≤ t.turnId at hbehind
  change (t.turnId < r.turnId ∨ r.turnId = t.turnId ∧ t.revision < r.revision ∧ _) ∧ _
  -- Whatever turn is open afterwards is later than the final one.
  have hopen : t'.stage = .speaking → finalTurn < t'.turnId → Viewed r.pair finalTurn t' :=
    fun hstage hlt => ⟨hpair.symm, fun hw => by simp [hstage] at hw, fun _ _ => hlt⟩
  cases hmoves with
  | opens idle event after =>
    subst after
    dsimp only at hid hrev hopen
    exact ⟨.inl (by omega), hopen rfl (by omega)⟩
  | restarts pending event after =>
    have hlt := h.pending (by simp [pending]) (by simp [pending])
    subst after
    dsimp only at hid hrev hopen
    exact ⟨.inr ⟨by omega, by omega, by omega⟩, hopen rfl hlt⟩
  | resumes committed event after =>
    obtain ⟨released, hstage⟩ := committed
    have hlt := h.pending (by simp [hstage]) (by simp [hstage])
    subst after
    dsimp only at hid hrev hopen
    exact ⟨.inr ⟨by omega, by omega, by omega⟩, hopen rfl hlt⟩
  | _ => simp_all

/-- An event that neither opens nor ends a turn leaves nothing to write down. -/
theorem stays (h : Viewed opening finalTurn t) (hreport : t.report r = some t')
    (hopens : r.event ≠ .speechStarted) (hresumes : r.event ≠ .turnResumed)
    (hfinal : r.event ≠ .turnFinal) : Viewed opening finalTurn t' := by
  obtain ⟨hmoves, -, -⟩ := report_some hreport
  have hopening := h.opening
  have hpending := h.pending
  cases hmoves with
  | stops speaking event after =>
    subst after
    exact ⟨hopening, by simp, fun _ _ => hpending (by simp [speaking]) (by simp [speaking])⟩
  | reopens boundary event after =>
    subst after
    exact ⟨hopening, by simp, fun _ _ => hpending (by simp [boundary]) (by simp [boundary])⟩
  | commits boundary event after =>
    subst after
    refine ⟨hopening, by simp, fun _ _ => ?_⟩
    rcases boundary with hs | hs <;> exact hpending (by simp [hs]) (by simp [hs])
  | barges idle floor event after =>
    subst after
    exact ⟨hopening, by simp, by simp⟩
  | _ => simp_all

/-- A final turn is the one that opened last. -/
theorem ends (h : Viewed opening finalTurn t) (hreport : t.report r = some t')
    (hevent : r.event = .turnFinal) : r.pair = opening ∧ Viewed opening r.turnId t' := by
  obtain ⟨hmoves, hid, -⟩ := report_some hreport
  have hpair := pair_report hreport
  cases hmoves with
  | finals released event after =>
    subst after
    refine ⟨hpair.symm.trans h.opening.symm, h.opening, fun _ => .inr hid.symm, by simp⟩
  | _ => simp_all

/-- A commit is of the turn that opened last. -/
theorem commits (h : Viewed opening finalTurn t) (hreport : t.report r = some t')
    (hevent : r.event = .turnCommitted) :
    0 < r.turnId ∧ r.pair = opening ∧ Behind r.pair t' := by
  obtain ⟨hmoves, hid, -⟩ := report_some hreport
  have hpair := pair_report hreport
  cases hmoves with
  | commits boundary event after =>
    have hlt : finalTurn < t.turnId := by
      rcases boundary with hs | hs <;> exact h.pending (by simp [hs]) (by simp [hs])
    subst after
    dsimp only at hid
    refine ⟨by omega, hpair.symm.trans h.opening.symm, .inr ⟨hpair.symm, ?_⟩⟩
    exact .inl (.inr ⟨false, rfl⟩)
  | _ => simp_all

end Viewed

theorem upTo_report {t t' : Turn} {r : Report F} (h : t.report r = some t') :
    UpTo t.pair t'.pair := by
  rcases report_later h with ⟨hpair, -⟩ | hlater
  · rw [hpair]
    exact UpTo.refl _
  · exact upTo_of_earlier hlater

/-! ### The assertions of a call -/

/-- The events `rs` are left to hand over. -/
structure Due (holder : Role) (rs : List (Report F)) (m : Memory F V) : Prop where
  mutex : m.sessionMutex = some holder
  due : m.due = rs
  view : ∃ t, m.Views t ∧ Reached t.pair (logged m.log) ∧ t.reports rs = some m.session.turn
  traced : Traced m.session.turn (logged m.log ++ rs)

/-- The event `r` is being handed over. -/
structure Told (holder : Role) (r : Report F) (rs : List (Report F)) (m : Memory F V) : Prop where
  mutex : m.sessionMutex = some holder
  due : m.due = r :: rs
  view : ∃ t t', m.Views t ∧ t.report r = some t' ∧ t'.reports rs = some m.session.turn
  reached : Reached r.pair (logged m.log)
  final : r.event = .turnFinal → Final (logged m.log) r.pair
  reported : ∃ l, logged m.log = l ++ [r] ∧
    ∀ p, Entered m.toTurnState m.log p → p ∈ commitsOf l
  traced : Traced m.session.turn (logged m.log ++ rs)

/-- The event `r` has been written down. -/
structure Seen (holder : Role) (r : Report F) (rs : List (Report F)) (m : Memory F V) : Prop where
  mutex : m.sessionMutex = some holder
  due : m.due = r :: rs
  view : ∃ t, m.Views t ∧ t.pair = r.pair ∧ t.reports rs = some m.session.turn
  reached : Reached r.pair (logged m.log)
  place : r.event = .turnCommitted → m.InPlace r.pair
  placed : r.event = .turnCommitted → Placed m.toTurnState m.log r.pair
  traced : Traced m.session.turn (logged m.log ++ rs)

/-- The session is held, and nothing is left to hand over. -/
def Locked (holder : Role) (m : Memory F V) : Prop := m.sessionMutex = some holder ∧ m.due = []

namespace Same

variable {m m' : Memory F V} {holder : Role} {r : Report F} {rs : List (Report F)} (h : Same m m')
include h

theorem views {t : Turn} (hv : m.Views t) : m'.Views t := by
  unfold Views
  rw [h.opening, h.finalTurn]
  exact hv

theorem dues (hm : Due holder rs m) : Due holder rs m' where
  mutex := h.sessionMutex.trans hm.mutex
  due := h.due.trans hm.due
  view := by
    obtain ⟨t, hv, hreached, hrest⟩ := hm.view
    exact ⟨t, h.views hv, h.logged ▸ hreached, h.session ▸ hrest⟩
  traced := by
    rw [h.session, h.logged]
    exact hm.traced

theorem told (hm : Told holder r rs m) : Told holder r rs m' where
  mutex := h.sessionMutex.trans hm.mutex
  due := h.due.trans hm.due
  view := by
    obtain ⟨t, t', hv, hreport, hrest⟩ := hm.view
    exact ⟨t, t', h.views hv, hreport, h.session ▸ hrest⟩
  reached := h.logged ▸ hm.reached
  final := h.logged ▸ hm.final
  reported := by
    obtain ⟨l, hl, hentered⟩ := hm.reported
    exact ⟨l, h.logged.trans hl, fun p hp => hentered p (h.entered p hp)⟩
  traced := by
    rw [h.session, h.logged]
    exact hm.traced

theorem seen (hm : Seen holder r rs m) : Seen holder r rs m' where
  mutex := h.sessionMutex.trans hm.mutex
  due := h.due.trans hm.due
  view := by
    obtain ⟨t, hv, hpair, hrest⟩ := hm.view
    exact ⟨t, h.views hv, hpair, h.session ▸ hrest⟩
  reached := h.logged ▸ hm.reached
  place := fun he => h.inPlace _ (hm.place he)
  placed := fun he => h.placed _ (hm.placed he)
  traced := by
    rw [h.session, h.logged]
    exact hm.traced

theorem locked (hm : Locked holder m) : Locked holder m' :=
  ⟨h.sessionMutex.trans hm.1, h.due.trans hm.2⟩

end Same

section Outlines

variable (P : Setup F V S) {role : Role}

/-- An assertion under the lock is the holder's own. -/
theorem stable_held {H : Memory F V → Prop} (hmutex : ∀ m, H m → m.sessionMutex = some role)
    (hsame : ∀ {m m'}, Same m m' → H m → H m') : Stable (discipline P) role H :=
  fun _ _ _ _ _ _ hother _ _ hallow hexec hH => hsame (held_exec hother (hmutex _ hH) hallow hexec) hH

theorem stable_due (rs : List (Report F)) : Stable (discipline P) role (Due role rs) :=
  stable_held P (fun _ h => h.mutex) fun hs h => hs.dues h

theorem stable_told (r : Report F) (rs : List (Report F)) :
    Stable (discipline P) role (Told role r rs) :=
  stable_held P (fun _ h => h.mutex) fun hs h => hs.told h

theorem stable_seen (r : Report F) (rs : List (Report F)) :
    Stable (discipline P) role (Seen role r rs) :=
  stable_held P (fun _ h => h.mutex) fun hs h => hs.seen h

theorem stable_locked : Stable (discipline P) role (Locked role) :=
  stable_held P (fun _ h => h.1) fun hs h => hs.locked h

/-- An action of a thread while it makes a call. -/
def Act.OfEvent : Act F → Prop
  | .lockSession => True
  | .unlockSession => True
  | .callback _ => True
  | .returned => True
  | .opened _ _ => True
  | .final _ => True
  | .enqueue _ => True
  | .load _ => True
  | .storeCancel _ => True
  | .send f => f.Plain
  | _ => False

/-- **What a thread may carry through a call**: neither the others nor the call itself touch it. -/
structure Carried (role : Role) (K : Memory F V → Prop) : Prop where
  steady : Steady (discipline P) role Act.OfEvent K
  handed : role = .recognizer → ∀ m, Kept m → K m → transcripts m.log = gives m.log

variable {P} {K : Memory F V → Prop}

/-- One action of a call, on what is carried and on what the lock protects. -/
theorem Carried.perform (hK : Carried P role K) {H : Memory F V → Prop}
    (a : Act F) {H' : a.Result → Memory F V → Prop} (hown : a.OfEvent)
    (hH : Stable (discipline P) role H) (hH' : ∀ r, Stable (discipline P) role (H' r))
    (hallow : ∀ m, Kept m → H m → TurnsAllow role a m ∧ FramesAllow role a m ∧ StopsAllow a m ∧
      RecognitionsAllow role a m)
    (holds : ∀ {x m r m'}, Kept m → H m → exec P role a x m = some (r, m') → H' r m') :
    Outline (discipline P) role (fun r m => K m ∧ H' r m) (fun m => K m ∧ H m) (perform a) := by
  have hallowed : ∀ m, Kept m → K m ∧ H m → Allowed role a m := fun m hm h =>
    ⟨(hallow m hm h.2).1, (hallow m hm h.2).2.1, (hallow m hm h.2).2.2.1, (hallow m hm h.2).2.2.2,
      fun hrole _ => hK.handed hrole m hm h.1⟩
  exact Outline.perform a (hK.steady.stable.and hH) (fun r => hK.steady.stable.and (hH' r)) hallowed
    fun hm hm' h hexec =>
      ⟨hK.steady (fun _ => hown) hm hm' (hallowed _ hm h) hexec h.1, holds hm h.2 hexec⟩

/-! ### One event -/

theorem outline_opened (hK : Carried P role K) {r : Report F} (rs : List (Report F))
    (hevent : r.event = .speechStarted ∨ r.event = .turnResumed) :
    Outline (discipline P) role (fun _ m => K m ∧ Seen role r rs m)
      (fun m => K m ∧ Told role r rs m) (perform (.opened r.turnId r.revision)) := by
  have hnew : ∀ m : Memory F V, Kept m → Told role r rs m → (m.openTurn < r.turnId ∨
      r.turnId = m.openTurn ∧ m.openRevision < r.revision ∧ m.finalTurn < r.turnId) ∧
      ∃ t, Viewed r.pair m.finalTurn t ∧ t.pair = r.pair ∧
        t.reports rs = some m.session.turn := fun m hm h => by
    obtain ⟨t, t', hv, hreport, hrest⟩ := h.view
    obtain ⟨hlater, hv'⟩ := Viewed.opens hv hm.turns.behind hreport hevent
    exact ⟨hlater, t', hv', pair_report hreport, hrest⟩
  have hstarts : ∀ m : Memory F V, Told role r rs m →
      ∃ r' ∈ logged m.log, r'.Starts ∧ r'.pair = r.pair := fun m h => by
    obtain ⟨l, hl, -⟩ := h.reported
    exact ⟨r, by simp [hl], hevent, rfl⟩
  refine hK.perform (.opened _ _) trivial (stable_told P r rs) (fun _ => stable_seen P r rs)
    (fun m hm h => ⟨⟨h.mutex, by simp [h.due], (hnew m hm h).1⟩, trivial, trivial, hstarts m h⟩) ?_
  intro x m u m' hm h hexec
  obtain ⟨hlater, hview⟩ := hnew m hm h
  have hplace : r.event ≠ .turnCommitted := by rcases hevent with he | he <;> simp [he]
  obtain ⟨opening, cancel, rfl, rfl, -⟩ := opened_cases hexec
  rw [if_pos (hlater.imp_right fun h => ⟨h.1, h.2.1⟩)]
  exact ⟨h.mutex, h.due, hview, h.reached, fun he => absurd he hplace,
    fun he => absurd he hplace, h.traced⟩

/-- An action that nothing of the turns depends on. -/
theorem outline_aside (hK : Carried P role K) {H : Memory F V → Prop}
    (hstable : Stable (discipline P) role H) (hsame : ∀ {m m'}, Same m m' → H m → H m')
    (a : Act F) (hown : a.OfEvent) (hturns : ¬a.OfTurns) (hevent : ∀ r, a ≠ .callback r)
    (hallow : ∀ m, Kept m → H m → TurnsAllow role a m ∧ FramesAllow role a m ∧ StopsAllow a m ∧
      RecognitionsAllow role a m) :
    Outline (discipline P) role (fun _ m => K m ∧ H m) (fun m => K m ∧ H m) (perform a) :=
  hK.perform a hown hstable (fun _ => hstable) hallow fun _ h hexec =>
    hsame (same_exec hturns hevent (fun turn hask => by subst hask; exact hown.elim) hexec) h

/-- An event that only goes on to the next one. -/
theorem seen_of_told {r : Report F} {rs : List (Report F)} {m : Memory F V}
    (h : Told role r rs m) (hopens : r.event ≠ .speechStarted) (hresumes : r.event ≠ .turnResumed)
    (hfinal : r.event ≠ .turnFinal) (hcommit : r.event ≠ .turnCommitted) : Seen role r rs m where
  mutex := h.mutex
  due := h.due
  view := by
    obtain ⟨t, t', hv, hreport, hrest⟩ := h.view
    exact ⟨t', Viewed.stays hv hreport hopens hresumes hfinal, pair_report hreport, hrest⟩
  reached := h.reached
  place := fun he => absurd he hcommit
  placed := fun he => absurd he hcommit
  traced := h.traced

/-- **One event through its callback.** -/
theorem outline_onSessionEvent (hK : Carried P role K) (r : Report F) (rs : List (Report F)) :
    Outline (discipline P) role (fun _ m => K m ∧ Seen role r rs m)
      (fun m => K m ∧ Told role r rs m) (connOnSessionEvent r) := by
  have hstarted : Outline (discipline P) role (fun _ m => K m ∧ Told role r rs m)
      (fun m => K m ∧ Told role r rs m) (connSend .speechStarted) :=
    outline_aside hK (stable_told P r rs) (fun hs h => hs.told h) (.send .speechStarted) trivial
      (fun h => h) (by simp) fun m hm _ => ⟨trivial, sendAllow_plain hm role trivial, trivial, trivial⟩
  have hpass : r.event ≠ .speechStarted → r.event ≠ .turnResumed → r.event ≠ .turnFinal →
      r.event ≠ .turnCommitted → Outline (discipline P) role (fun _ m => K m ∧ Seen role r rs m)
        (fun m => K m ∧ Told role r rs m) (pure () : Program F Unit) := fun h₁ h₂ h₃ h₄ =>
    Outline.pure (hK.steady.stable.and (stable_told P r rs)) fun m _ h =>
      ⟨h.1, seen_of_told h.2 h₁ h₂ h₃ h₄⟩
  unfold connOnSessionEvent
  cases he : r.event with
  | speechStarted => exact hstarted.bind fun _ => outline_opened hK rs (.inl he)
  | turnResumed => exact hstarted.bind fun _ => outline_opened hK rs (.inr he)
  | speechStopped => exact hpass (by simp [he]) (by simp [he]) (by simp [he]) (by simp [he])
  | turnReopened => exact hpass (by simp [he]) (by simp [he]) (by simp [he]) (by simp [he])
  | bargeIn =>
    refine (outline_aside hK (stable_told P r rs) (fun hs h => hs.told h) (.storeCancel true) trivial
      (fun h => h) (by simp) fun m _ _ => ⟨trivial, trivial, trivial, trivial⟩).weaken fun _ m _ h => ?_
    exact ⟨h.1, seen_of_told h.2 (by simp [he]) (by simp [he]) (by simp [he]) (by simp [he])⟩
  | turnFinal =>
    refine hK.perform (.final _) trivial (stable_told P r rs) (fun _ => stable_seen P r rs)
      (fun m _ h => ?_) fun {x m u m'} hm h hexec => ?_
    · obtain ⟨t, t', hv, hreport, hrest⟩ := h.view
      obtain ⟨hopening, -⟩ := Viewed.ends hv hreport he
      exact ⟨⟨h.mutex, by simp [h.due], congrArg Prod.fst hopening, hopening ▸ h.final he⟩, trivial,
        trivial, trivial⟩
    · obtain ⟨t, t', hv, hreport, hrest⟩ := h.view
      obtain ⟨hopening, hv'⟩ := Viewed.ends hv hreport he
      obtain ⟨-, rfl⟩ := done_inj hexec
      have hbehind := hm.turns.behind
      have hid : r.turnId = m.openTurn := congrArg Prod.fst hopening
      have hmax : max r.turnId m.finalTurn = r.turnId := by omega
      refine ⟨h.mutex, h.due, ⟨t', ?_, pair_report hreport, hrest⟩, h.reached, by simp [he],
        by simp [he], h.traced⟩
      change Viewed m.opening (max r.turnId m.finalTurn) t'
      rw [hmax]
      exact hv'
  | turnCommitted =>
    refine hK.perform (.enqueue _) trivial (stable_told P r rs) (fun _ => stable_seen P r rs)
      (fun m _ h => ?_) fun {x m u m'} hm h hexec => ?_
    · obtain ⟨t, t', hv, hreport, hrest⟩ := h.view
      obtain ⟨hpos, hopening, hbehind⟩ := Viewed.commits hv hreport he
      refine ⟨⟨h.mutex, hpos, hopening ▸ UpTo.refl _, hbehind.reports hrest⟩, trivial, trivial, hpos,
        ?_, ?_⟩
      · obtain ⟨l, hl, -⟩ := h.reported
        exact mem_commitsOf.2 ⟨r, by simp [hl], he, rfl⟩
      · intro p hp
        obtain ⟨l, hl, hentered⟩ := h.reported
        have hsorted := h.traced.sorted
        rw [hl, commitsOf_append, commitsOf_append, List.append_assoc, List.pairwise_append]
          at hsorted
        exact hsorted.2.2 p (hentered p hp) r.pair
          (List.mem_append_left _ (by simp [commitsOf, he]))
    · obtain ⟨-, rfl⟩ := done_inj hexec
      obtain ⟨t, t', hv, hreport, hrest⟩ := h.view
      refine ⟨h.mutex, h.due, ⟨t', ?_, pair_report hreport, hrest⟩, h.reached, fun _ => ?_,
        fun _ => ?_, h.traced⟩
      · exact Viewed.stays hv hreport (by simp [he]) (by simp [he]) (by simp [he])
      · exact .inl ⟨⟨r.pcm, r.turnId, r.revision⟩, by simp, rfl⟩
      · exact .inr (.inr ⟨⟨r.pcm, r.turnId, r.revision⟩, by simp, rfl⟩)

/-! ### A call -/

/-- **The events of a call, handed over.** -/
theorem outline_handOver (hK : Carried P role K) (rs : List (Report F)) :
    Outline (discipline P) role (fun _ m => K m ∧ Locked role m) (fun m => K m ∧ Due role rs m)
      (handOver rs) := by
  induction rs with
  | nil =>
    exact Outline.pure (hK.steady.stable.and (stable_due P [])) fun m _ h =>
      ⟨h.1, h.2.mutex, h.2.due⟩
  | cons r rs ih =>
    have hcallback : Outline (discipline P) role (fun _ m => K m ∧ Told role r rs m)
        (fun m => K m ∧ Due role (r :: rs) m) (perform (.callback r)) := by
      have hreach : ∀ m : Memory F V, Due role (r :: rs) m → Reached r.pair (logged m.log) ∧
          ∃ t t', m.Views t ∧ t.report r = some t' ∧ t'.reports rs = some m.session.turn :=
        fun m h => by
        obtain ⟨t, hv, hreached, hrest⟩ := h.view
        rw [Turn.reports_cons] at hrest
        obtain ⟨t', hreport, hrest'⟩ := Option.bind_eq_some_iff.1 hrest
        refine ⟨fun r' hr' => (hreached r' hr').trans ?_, t, t', hv, hreport, hrest'⟩
        rw [← pair_report hreport]
        exact upTo_report hreport
      refine hK.perform (.callback r) trivial (stable_due P _) (fun _ => stable_told P r rs)
        (fun m _ h => ⟨⟨h.mutex, by simp [h.due], (hreach m h).1⟩, trivial, trivial, rs, h.due⟩)
        fun {x m u m'} hm h hexec => ?_
      obtain ⟨hreached, hview⟩ := hreach m h
      have hlogged : logged (m.record (.report r)).log = logged m.log ++ [r] := by
        simp [Memory.record]
      have hrecognitions := recognitions_exec (by simp) hexec
      obtain ⟨-, rfl⟩ := done_inj hexec
      refine ⟨h.mutex, h.due, hview, ?_, fun he => ?_, ⟨_, hlogged, fun p hp => ?_⟩, ?_⟩
      · intro r' hr'
        simp only [Memory.record, logged_append, logged_report, List.mem_append,
          List.mem_singleton] at hr'
        rcases hr' with hr' | rfl
        · exact hreached r' hr'
        · exact UpTo.refl _
      · exact ⟨r, by simp [Memory.record], he, rfl⟩
      · unfold Entered at hp
        rw [hrecognitions] at hp
        exact (hm.recognized.entered p hp).2
      · rw [hlogged, List.append_assoc]
        exact h.traced
    have hreturned : Outline (discipline P) role (fun _ m => K m ∧ Due role rs m)
        (fun m => K m ∧ Seen role r rs m) (perform .returned) := by
      refine hK.perform .returned trivial (stable_seen P r rs) (fun _ => stable_due P rs)
        (fun m _ h => ⟨⟨h.mutex, fun r' rest hdue => ?_⟩, trivial, trivial, fun r' rest hdue => ?_⟩)
        fun {x m u m'} _ h hexec => ?_
      · obtain ⟨rfl, rfl⟩ := List.cons.inj (h.due.symm.trans hdue)
        refine ⟨h.place, fun hlast => ?_⟩
        obtain ⟨t, hv, hpair, hrest⟩ := h.view
        rw [hlast] at hrest
        obtain rfl := Option.some.inj hrest
        exact ⟨hv, hpair ▸ h.reached⟩
      · obtain ⟨rfl, rfl⟩ := List.cons.inj (h.due.symm.trans hdue)
        refine ⟨h.placed, fun hlast => ?_⟩
        have htraced := h.traced
        rwa [hlast, List.append_nil] at htraced
      · obtain ⟨-, rfl⟩ := done_inj hexec
        obtain ⟨t, hv, hpair, hrest⟩ := h.view
        exact ⟨h.mutex, by simp [h.due], ⟨t, hv, hpair ▸ h.reached, hrest⟩, h.traced⟩
    exact hcallback.bind fun _ => (outline_onSessionEvent hK r rs).bind fun _ =>
      hreturned.bind fun _ => ih

variable {K' : Memory F V → Prop}

/-- **A call of the session**, from what is carried to it to what is carried on. -/
theorem outline_session {op : Op F} (hstable : Stable (discipline P) role K)
    (hK' : Carried P role K')
    (hallow : ∀ m, Kept m → K m → Locked role m → Allowed role (.session op) m)
    (hafter : ∀ {x m r m'}, Kept m → Kept m' → Allowed role (.session op) m → K m →
      exec P role (.session op) x m = some (r, m') → K' m') :
    Outline (discipline P) role (fun _ m => K' m ∧ Locked role m) (fun m => K m ∧ Locked role m)
      (session op) := by
  refine Outline.bind (Q := fun rs m => K' m ∧ Due role rs m) ?_ fun rs => outline_handOver hK' rs
  refine Outline.perform (Act.session op) (hstable.and (stable_locked P))
    (fun rs => hK'.steady.stable.and (stable_due P rs)) (fun m hm h => hallow m hm h.1 h.2)
    fun {x m rs m'} hm hm' h hexec => ⟨hafter (x := x) hm hm' (hallow m hm h.1 h.2) h.1 hexec, ?_⟩
  obtain ⟨⟨hopening, hfinal, hmutex, hdue⟩, t, hcall, hreports⟩ := session_exec (x := x) hm hexec
  obtain ⟨hv, hreached⟩ := hm.turns.viewed h.2.2
  have hlogged : logged m'.log = logged m.log :=
    logged_exec (P := P) (a := .session op) (x := x) (by simp) hexec
  refine ⟨hmutex.trans h.2.1, hdue, ⟨t, ?_, ?_, hreports⟩, ?_⟩
  · unfold Views
    rw [hopening, hfinal]
    exact hv.call hcall
  · rw [pair_call hcall, hlogged]
    exact hreached
  · rw [hlogged]
    exact ((hm.recognized.traced h.2.2).call hcall).reports hreports

theorem outline_lock (hK : Carried P role K) :
    Outline (discipline P) role (fun _ m => K m ∧ Locked role m) K (perform .lockSession) := by
  have hallow : ∀ m, Kept m → K m → Allowed role .lockSession m := fun m hm h =>
    ⟨trivial, trivial, trivial, trivial, fun hrole _ => hK.handed hrole m hm h⟩
  refine Outline.perform Act.lockSession hK.steady.stable
    (fun _ => hK.steady.stable.and (stable_locked P)) hallow
    fun {x m u m'} hm hm' h hexec =>
      ⟨hK.steady (a := .lockSession) (fun _ => trivial) hm hm' (hallow m hm h) hexec h, ?_⟩
  change exec P role .lockSession x m = some (u, m') at hexec
  obtain ⟨hfree, rfl⟩ := lockSession_cases hexec
  exact ⟨rfl, hm.turns.idle hfree⟩

theorem outline_unlock (hK : Carried P role K) :
    Outline (discipline P) role (fun _ => K) (fun m => K m ∧ Locked role m)
      (perform .unlockSession) := by
  have hallow : ∀ m, Kept m → K m ∧ Locked role m → Allowed role .unlockSession m := fun m hm h =>
    ⟨⟨h.2.1, h.2.2⟩, trivial, trivial, trivial, fun hrole _ => hK.handed hrole m hm h.1⟩
  exact Outline.perform Act.unlockSession (hK.steady.stable.and (stable_locked P))
    (fun _ => hK.steady.stable) hallow fun hm hm' h hexec =>
      hK.steady (a := .unlockSession) (fun _ => trivial) hm hm' (hallow _ hm h) hexec h.1

/-- **A release.** -/
theorem outline_release {turnId revision : ℕ} (hK : Carried P role K) (hK' : Carried P role K')
    (hallow : ∀ m, Kept m → K m → Locked role m →
      Allowed role (.session (.release turnId revision)) m)
    (hafter : ∀ {x m r m'}, Kept m → Kept m' →
      Allowed role (.session (.release turnId revision)) m → K m →
      exec P role (.session (.release turnId revision)) x m = some (r, m') → K' m') :
    Outline (discipline P) role (fun _ => K') K (connRelease turnId revision) :=
  (outline_lock hK).bind fun _ =>
    (outline_session hK.steady.stable hK' hallow hafter).bind fun _ => outline_unlock hK'

end Outlines

end Conversation
end S2S
