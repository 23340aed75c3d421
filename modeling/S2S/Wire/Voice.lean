/-
# The voice, on both sides

The model sets the voice on the server (`conn_set_voice`) and the client is told;
the client names a voice in every `session.update`, and the server takes it
(`conn_apply_patch`).  Each side overwrites the other, so a notice and an update
that cross leave each side with the voice of the other one (`crossed_disagree`).
While none crosses, the two sides agree whenever nothing is on its way, and what
the model set last stays (`voices_agree`).
-/

import S2S.Conversation.Guarantees
import S2S.Wire.Basic

namespace S2S
namespace Wire

open Json Thread Conversation Client

variable {F V S : Type}

/-! ### What is on its way -/

/-- The voices that some frames tell. -/
def voices (fs : List (Frame F)) : List (Bytes × Bytes) :=
  fs.filterMap fun
    | .voice voice effect => some (voice, effect)
    | _ => none

/-- The voice that was set and not told yet. -/
def owed : Hand F → List (Bytes × Bytes)
  | .owing voice effect => [(voice, effect)]
  | _ => []

/-- The settings that were read and not applied yet. -/
def applying : Hand F → Option Settings
  | .incoming (.update _ settings _ _) => some settings
  | _ => none

/-- The options of an update. -/
def Upward.options : Upward F → Option S2SOptions
  | .frame (.sessionUpdate o) => some o
  | _ => none

/-- The options of the updates among some frames. -/
def optionsOf (up : List (Posted F)) : List S2SOptions :=
  up.filterMap fun posted => posted.frame.options

theorem optionsOf_append (up up' : List (Posted F)) :
    optionsOf (up ++ up') = optionsOf up ++ optionsOf up' := List.filterMap_append

namespace Link

/-- The voices set that the client has not heard of. -/
def notices (w : Link F V) : List (Bytes × Bytes) :=
  voices w.flow ++ owed (w.watches .responder).hand

/-- The updates that the server has not read. -/
def updates (w : Link F V) : List S2SOptions := optionsOf w.up

/-- The update that the server has read and not applied. -/
def applying (w : Link F V) : Option Settings := Wire.applying (w.watches .reader).hand

/-- A notice and an update are on their way at once. -/
def Crossed (w : Link F V) : Prop := w.notices ≠ [] ∧ (w.updates ≠ [] ∨ w.applying ≠ none)

/-- No frame is on its way, nor in a hand. -/
structure Quiet (w : Link F V) : Prop where
  up : w.up = []
  down : w.down = []
  out : w.server.mem.out = []
  writer : carried (w.watches .writer).hand = []
  reader : w.applying = none
  responder : owed (w.watches .responder).hand = []

end Link

/-- The voice and the effect of the server are those of the client; one that the client does not
name, or an effect that the server does not know, stands for the default. -/
structure Agrees (P : Setup F V S) (settings : Settings) (o : S2SOptions) : Prop where
  voice : settings.voice = o.voice.getD [] ∨
    o.voice.getD [] = [] ∧ settings.voice = P.defaults.voice
  effect : settings.effect = o.effect.getD [] ∨
    o.effect.getD [] ∉ P.effects ∧ settings.effect = P.defaults.effect

theorem Applies.agrees {P : Setup F V S} {o : S2SOptions} {settings : Settings}
    (h : Applies P o settings) : Agrees P settings o := by
  refine ⟨?_, ?_⟩
  · rw [h.voice]
    split_ifs with hvoice
    · exact .inr ⟨hvoice, rfl⟩
    · exact .inl rfl
  · rw [h.effect]
    split_ifs with heffect
    · exact .inl rfl
    · exact .inr ⟨heffect, rfl⟩

/-! ### Step by step -/

/-- An action on the voice of the server. -/
def OfVoice : Act F → Prop
  | .patch _ => True
  | .setVoice _ _ => True
  | _ => False

section Exec

variable {P : Setup F V S} {i : Role} {s : Watch F} {a : Act F} {x : a.Input} {r : a.Result}
  {m m' : Memory F V}

/-- Nothing else changes the voice. -/
theorem voice_exec (ha : ¬OfVoice a) (h : exec P i a x m = some (r, m')) :
    m'.client.voice = m.client.voice ∧ m'.client.effect = m.client.effect := by
  cases a with
  | patch settings => exact absurd trivial ha
  | setVoice voice effect => exact absurd trivial ha
  | ask query =>
    obtain rfl := ask_cases h
    exact ⟨rfl, rfl⟩
  | send f =>
    obtain ⟨out, rfl⟩ := send_cases h
    exact ⟨rfl, rfl⟩
  | session op =>
    obtain ⟨-, rfl⟩ := done_inj h
    obtain ⟨recognizing, answering, heq, -⟩ := apply_eq P.models i op m
    rw [heq]
    exact ⟨rfl, rfl⟩
  | lockSession =>
    obtain ⟨-, rfl⟩ := lockSession_cases h
    exact ⟨rfl, rfl⟩
  | opened turnId revision =>
    obtain ⟨opening, cancel, rfl, -⟩ := opened_cases h
    exact ⟨rfl, rfl⟩
  | popQueue =>
    rcases popQueue_cases h with ⟨-, -, rfl⟩ | ⟨turn, queue, -, -, rfl⟩ <;> exact ⟨rfl, rfl⟩
  | popAnswer =>
    rcases popAnswer_cases h with ⟨-, -, rfl⟩ | ⟨-, job, answers, -, -, rfl⟩ <;> exact ⟨rfl, rfl⟩
  | popOut =>
    obtain ⟨out, rfl⟩ := popOut_cases h
    exact ⟨rfl, rfl⟩
  | waitFinal =>
    obtain ⟨-, -, rfl⟩ := waitFinal_cases h
    exact ⟨rfl, rfl⟩
  | _ =>
    obtain ⟨-, rfl⟩ := done_inj h
    exact ⟨rfl, rfl⟩

/-- **An action of the server** moves a notice from the hand of the responder to the flow. -/
theorem owed_act (hown : Own a) (hok : (watch P).ok .responder s a) (hended : ¬s.hand.Ended)
    (hexec : exec P .responder a x m = some (r, m')) (hstop : m.stop = false)
    (ha : ∀ voice effect, a ≠ .setVoice voice effect) :
    voices (sent a) ++ owed (s.hand.next a r) = owed s.hand := by
  by_cases hhands : Hands a
  · cases a with
    | send f =>
      cases f with
      | voice voice effect =>
        rw [hok.2]
        rfl
      | _ => exact hhands.elim
    | patch settings => exact absurd hok.1 (by simp)
    | setVoice voice effect => exact absurd rfl (ha voice effect)
    | popOut => exact absurd hok.1 (by simp)
    | _ => exact hhands.elim
  · have hsent : voices (sent a) = [] := by
      cases a with
      | send f => cases f <;> first | exact absurd trivial hhands | rfl
      | _ => rfl
    rw [hsent, List.nil_append]
    rcases hand_still hown hended hexec hstop hhands with hnext | ⟨hcancels, hnext⟩
    · rw [hnext]
    · rw [hnext]
      cases hs : s.hand with
      | owing voice effect => exact absurd hcancels (hs ▸ id)
      | _ => rfl

/-- The other threads tell no voice. -/
theorem voices_sent (hok : (watch P).ok i s a) (hi : i ≠ .responder) : voices (sent a) = [] := by
  cases a with
  | send f => cases f <;> first | exact absurd hok.1 hi | rfl
  | _ => rfl

/-- Only a patch takes what was read out of the hand of the reader. -/
theorem applying_act (hown : Own a) (hok : (watch P).ok .reader s a) (hended : ¬s.hand.Ended)
    (hexec : exec P .reader a x m = some (r, m')) (hstop : m.stop = false)
    (ha : ∀ settings, a ≠ .patch settings) :
    applying (s.hand.next a r) = applying s.hand := by
  have hhands : ¬Hands a := by
    cases a with
    | send f => cases f <;> first | exact absurd hok.1 (by simp) | exact id
    | patch settings => exact absurd rfl (ha settings)
    | setVoice voice effect => exact absurd hok.1 (by simp)
    | popOut => exact absurd hok.1 (by simp)
    | _ => exact id
  rcases hand_still hown hended hexec hstop hhands with hnext | ⟨hcancels, hnext⟩
  · rw [hnext]
  · rw [hnext]
    cases hs : s.hand with
    | incoming x =>
      rw [hs] at hcancels
      cases x <;> first | exact hcancels.elim | rfl
    | _ => rfl

end Exec

section Steps

variable {P : Setup F V S} {w w' : Link F V}

theorem voices_append (fs fs' : List (Frame F)) : voices (fs ++ fs') = voices fs ++ voices fs' :=
  List.filterMap_append

theorem notices_act (h : Stands P w) {i : Role} {a : Act F} {next : a.Result → Program F Bool}
    (hprog : w.server.prog i = .act a next) (hown : Own a) {x : a.Input} {r : a.Result}
    {m : Memory F V} (hexec : exec P i a x w.server.mem = some (r, m))
    (ha : ∀ voice effect, a ≠ .setVoice voice effect) :
    (w.act i next r m).notices = w.notices := by
  have hok := h.fit.ok hprog
  rw [Link.notices, h.flow_act hprog hown hexec, voices_append, List.append_assoc, Link.notices]
  congr 1
  by_cases hi : i = .responder
  · subst hi
    simp only [Link.act, Function.update_self]
    exact owed_act hown hok (h.open' _) hexec h.stop ha
  · rw [voices_sent hok hi]
    simp [Link.act, Function.update_of_ne (Ne.symm hi)]

theorem notices_setVoice (h : Stands P w) {i : Role} {voice effect : Bytes}
    {next : Unit → Program F Bool} (hprog : w.server.prog i = .act (.setVoice voice effect) next)
    {m : Memory F V} (hexec : exec P i (.setVoice voice effect) () w.server.mem = some ((), m)) :
    (w.act i (a := .setVoice voice effect) next () m).notices = w.notices ++ [(voice, effect)] := by
  obtain ⟨rfl, hhand, -⟩ := h.fit.ok hprog
  rw [Link.notices, h.flow_act hprog trivial hexec, Link.notices, hhand]
  simp [sent, owed, Link.act, Hand.next]

theorem applying_of_act (h : Stands P w) {i : Role} {a : Act F} {next : a.Result → Program F Bool}
    (hprog : w.server.prog i = .act a next) (hown : Own a) {x : a.Input} {r : a.Result}
    {m : Memory F V} (hexec : exec P i a x w.server.mem = some (r, m))
    (ha : ∀ settings, a ≠ .patch settings) : (w.act i next r m).applying = w.applying := by
  by_cases hi : i = .reader
  · subst hi
    simp only [Link.applying, Link.act, Function.update_self]
    exact applying_act hown (h.fit.ok hprog) (h.open' _) hexec h.stop ha
  · simp [Link.applying, Link.act, Function.update_of_ne (Ne.symm hi)]

/-- The reader has nothing to apply when it reads on. -/
theorem applying_free {s : Hand F} (h : s.Free) : applying s = none := by
  cases s with
  | incoming x => cases x <;> first | exact h.elim | rfl
  | _ => rfl

theorem Reads.applying_none {u : Upward F} {x : Incoming F} (h : Reads P u x)
    (hu : u.options = none) : applying (.incoming x) = none := by
  cases u with
  | frame f =>
    cases f with
    | sessionUpdate o => simp [Upward.options] at hu
    | _ =>
      obtain rfl := h
      rfl
  | audio errors pcm =>
    obtain rfl := h
    rfl

theorem Reads.applying_some {u : Upward F} {x : Incoming F} (h : Reads P u x) {o : S2SOptions}
    (hu : u.options = some o) :
    ∃ settings, applying (.incoming x) = some settings ∧ Applies P o settings := by
  cases u with
  | frame f =>
    cases f with
    | sessionUpdate o' =>
      obtain rfl : o' = o := by simpa [Upward.options] using hu
      obtain ⟨errors, settings, params, invalid, rfl, happlies⟩ := h
      exact ⟨settings, rfl, happlies⟩
    | _ => simp [Upward.options] at hu
  | audio errors pcm => simp [Upward.options] at hu

/-- **What the two sides keep to each other** while nothing crosses: without anything on its way
they agree, the last notice is the voice of the server, and the last update that of the client. -/
structure Agreeing (P : Setup F V S) (w : Link F V) : Prop where
  quiet : w.notices = [] → w.updates = [] → w.applying = none →
    Agrees P w.server.mem.client w.client.options
  last : ∀ n ∈ w.notices.getLast?, n = (w.server.mem.client.voice, w.server.mem.client.effect)
  sent : ∀ o ∈ w.updates.getLast?,
    o.voice = w.client.options.voice ∧ o.effect = w.client.options.effect
  applied : w.updates = [] → ∀ settings ∈ w.applying, Applies P w.client.options settings

theorem Applies.congr {o o' : S2SOptions} {settings : Settings} (h : Applies P o settings)
    (hvoice : o.voice = o'.voice) (heffect : o.effect = o'.effect) : Applies P o' settings :=
  ⟨by rw [h.voice, hvoice], by rw [h.effect, heffect]⟩

theorem Agrees.congr {o : S2SOptions} {settings settings' : Settings} (h : Agrees P settings o)
    (hvoice : settings'.voice = settings.voice) (heffect : settings'.effect = settings.effect) :
    Agrees P settings' o :=
  ⟨by rw [hvoice]; exact h.voice, by rw [heffect]; exact h.effect⟩

/-- The frames that are no update leave the updates as they are. -/
theorem updates_tell {e : Event F}
    (h : Apart { w.client with out := [] } ({ w.client with out := [] }.step e)) :
    (w.tell e).updates = w.updates ∧ (w.tell e).client.options = w.client.options := by
  obtain ⟨out, hout, hno⟩ := h.out
  refine ⟨?_, h.options⟩
  have hnone : optionsOf ((sends ({ w.client with out := [] }.step e).out).map fun f =>
      (⟨.frame f, holds w.client⟩ : Posted F)) = [] := by
    rw [optionsOf, List.filterMap_map, List.filterMap_eq_nil_iff]
    intro f hf
    rw [hout, List.nil_append] at hf
    cases f with
    | sessionUpdate o => exact absurd hf (hno o)
    | _ => rfl
  show optionsOf (w.up ++ _) = _
  rw [optionsOf_append, hnone, List.append_nil]
  rfl

/-- An action of the server keeps the two sides to it. -/
theorem Agreeing.act (h : Agreeing P w) (hw : Stands P w) (hcrossed : ¬w.Crossed) {i : Role}
    {a : Act F} {next : a.Result → Program F Bool} (hprog : w.server.prog i = .act a next)
    (hown : Own a) {x : a.Input} {r : a.Result} {m : Memory F V}
    (hexec : exec P i a x w.server.mem = some (r, m)) : Agreeing P (w.act i next r m) := by
  by_cases hvoice : OfVoice a
  · cases a with
    | patch settings =>
      -- An update on its way: no notice is, and the settings are those of the last update.
      obtain ⟨rfl, errors, params, invalid, hhand⟩ := hw.fit.ok hprog
      have happlying : w.applying = some settings := by rw [Link.applying, hhand]; rfl
      have hnone : w.notices = [] := by
        by_contra hne
        exact hcrossed ⟨hne, .inr (by simp [happlying])⟩
      have hnone' := (notices_act hw hprog hown hexec (by simp)).trans hnone
      obtain ⟨-, rfl⟩ := done_inj hexec
      refine ⟨fun _ hup _ => ?_, by simp [hnone'], h.sent, fun _ => ?_⟩
      · exact (h.applied hup settings happlying).agrees.congr rfl rfl
      · simp [Link.applying, Link.act, Hand.next, applying]
    | setVoice voice effect =>
      have hnotices := notices_setVoice hw hprog hexec
      have happlying := applying_of_act hw hprog hown hexec (by simp)
      obtain ⟨-, rfl⟩ := done_inj hexec
      refine ⟨fun hnone => absurd (hnotices.symm.trans hnone) (by simp), fun n hn => ?_, h.sent, ?_⟩
      · rw [hnotices, List.getLast?_concat] at hn
        exact (Option.some.inj hn).symm
      · rw [happlying]
        exact h.applied
    | _ => exact hvoice.elim
  · obtain ⟨hv, he⟩ := voice_exec hvoice hexec
    have hset : ∀ voice effect, a ≠ .setVoice voice effect := by
      rintro voice effect rfl
      exact hvoice trivial
    have hpatch : ∀ settings, a ≠ .patch settings := by
      rintro settings rfl
      exact hvoice trivial
    have hnotices := notices_act hw hprog hown hexec hset
    have happlying := applying_of_act hw hprog hown hexec hpatch
    refine ⟨?_, ?_, h.sent, ?_⟩
    · rw [hnotices, happlying]
      exact fun hn hu ha => (h.quiet hn hu ha).congr hv he
    · rw [hnotices]
      exact fun n hn => (h.last n hn).trans (by simp only [Link.act, hv, he])
    · rw [happlying]
      exact h.applied

theorem notices_read (hw : Stands P w) {i : Role} {next : Incoming F → Program F Bool}
    (hprog : w.server.prog i = .act (.ask .read) next) (x : Incoming F) (up : List (Posted F))
    (held : Option ℕ) :
    Link.notices { w.act i (a := .ask .read) next x w.server.mem with up := up, read := held }
      = w.notices := by
  obtain ⟨rfl, -⟩ := hw.fit.ok hprog
  rw [Link.notices, hw.flow_read hprog, Link.notices]
  simp [Link.act]

theorem applying_read (hw : Stands P w) {i : Role} {next : Incoming F → Program F Bool}
    (hprog : w.server.prog i = .act (.ask .read) next) (x : Incoming F) (up : List (Posted F))
    (held : Option ℕ) :
    Link.applying { w.act i (a := .ask .read) next x w.server.mem with up := up, read := held }
      = applying (.incoming x) := by
  obtain ⟨rfl, -⟩ := hw.fit.ok hprog
  simp [Link.applying, Link.act, Hand.next]

theorem updates_cons {posted : Posted F} {up : List (Posted F)} (hup : w.up = posted :: up) :
    w.updates = posted.frame.options.toList ++ optionsOf up := by
  rw [Link.updates, hup, optionsOf, List.filterMap_cons]
  cases posted.frame.options <;> rfl

/-- The reader takes a frame up. -/
theorem Agreeing.read (h : Agreeing P w) (hw : Stands P w) {i : Role}
    {next : Incoming F → Program F Bool} (hprog : w.server.prog i = .act (.ask .read) next)
    {posted : Posted F} {up : List (Posted F)} (hup : w.up = posted :: up) {x : Incoming F}
    (hreads : Reads P posted.frame x) :
    Agreeing P { w.act i (a := .ask .read) next x w.server.mem with
      up := up, read := posted.held } := by
  have hnotices := notices_read hw hprog x up posted.held
  have happlying := applying_read hw hprog x up posted.held
  obtain ⟨rfl, hfree⟩ := hw.fit.ok hprog
  have hbefore : w.applying = none := applying_free hfree
  have hsplit := updates_cons hup
  have hlast : ∀ n ∈ w.notices.getLast?, n = (w.server.mem.client.voice, w.server.mem.client.effect) :=
    h.last
  cases ho : posted.frame.options with
  | none =>
    have hsame : w.updates = optionsOf up := by
      rw [hsplit, ho]
      rfl
    refine ⟨fun hn hu _ => h.quiet (hnotices ▸ hn) (hsame.trans hu) hbefore, ?_, ?_, fun _ => ?_⟩
    · rw [hnotices]
      exact hlast
    · exact fun o hmem => h.sent o (by rw [hsame]; exact hmem)
    · rw [happlying, hreads.applying_none ho]
      simp
  | some o =>
    obtain ⟨settings, hsettings, happlies⟩ := hreads.applying_some ho
    refine ⟨fun _ _ hnone => ?_, ?_, fun o' hmem => h.sent o' ?_, fun hnone settings' hs => ?_⟩
    · rw [happlying, hsettings] at hnone
      simp at hnone
    · rw [hnotices]
      exact hlast
    · rw [hsplit, ho]
      exact List.mem_getLast?_append_of_mem_getLast? hmem
    · rw [happlying, hsettings] at hs
      obtain rfl := Option.some.inj hs
      have hone : w.updates = [o] := by
        rw [hsplit, ho]
        exact congrArg (o :: ·) hnone
      obtain ⟨hv, he⟩ := h.sent o (by rw [hone]; rfl)
      exact happlies.congr hv he

theorem notices_write (hw : Stands P w) {i : Role} {f : Frame F} {next : Bool → Program F Bool}
    (hprog : w.server.prog i = .act (.ask (.transport f)) next) :
    Link.notices { w.act i (a := .ask (.transport f)) next true w.server.mem with
      down := w.down ++ [f] } = w.notices := by
  obtain ⟨rfl, -⟩ := hw.fit.ok hprog
  rw [Link.notices, hw.flow_write hprog, Link.notices]
  simp [Link.act]

theorem applying_write (hw : Stands P w) {i : Role} {f : Frame F} {next : Bool → Program F Bool}
    (hprog : w.server.prog i = .act (.ask (.transport f)) next) :
    Link.applying { w.act i (a := .ask (.transport f)) next true w.server.mem with
      down := w.down ++ [f] } = w.applying := by
  obtain ⟨rfl, -⟩ := hw.fit.ok hprog
  simp [Link.applying, Link.act]

/-- The writer writes a frame. -/
theorem Agreeing.write (h : Agreeing P w) (hw : Stands P w) {i : Role} {f : Frame F}
    {next : Bool → Program F Bool} (hprog : w.server.prog i = .act (.ask (.transport f)) next) :
    Agreeing P { w.act i (a := .ask (.transport f)) next true w.server.mem with
      down := w.down ++ [f] } := by
  have hnotices := notices_write hw hprog
  have happlying := applying_write hw hprog
  refine ⟨?_, ?_, h.sent, ?_⟩
  · rw [hnotices, happlying]
    exact h.quiet
  · rw [hnotices]
    exact h.last
  · rw [happlying]
    exact h.applied

theorem notices_receive {f : Frame F} {down : List (Frame F)} (hdown : w.down = f :: down)
    (e : Event F) : w.notices = voices [f] ++
      Link.notices { w.tell e with down := down, got := w.got ++ [f] } := by
  rw [Link.notices, Link.flow_receive hdown e, ← List.singleton_append, voices_append,
    List.append_assoc]
  rfl

/-- Only a notice brings the client a voice. -/
theorem Tells.apart {f : Frame F} {e : ServerEvent F} (h : Tells f e)
    (hf : ∀ voice effect, f ≠ .voice voice effect) (t : Talk F) :
    voices [f] = [] ∧ Apart t (t.step (.server e)) := by
  have hnone : voices [f] = [] := by
    cases f with
    | voice voice effect => exact absurd rfl (hf voice effect)
    | _ => rfl
  refine ⟨hnone, Apart.onServerEvent t e ?_⟩
  rintro voice rfl
  cases f with
  | voice voice effect => exact hf voice effect rfl
  | audio pcm =>
    obtain ⟨heard, -, heq⟩ := h
    simp at heq
  | _ => simp [Tells] at h

/-- The client takes a frame of the server. -/
theorem Agreeing.receive (h : Agreeing P w) (hcrossed : ¬w.Crossed) {f : Frame F}
    {down : List (Frame F)} (hdown : w.down = f :: down) {e : ServerEvent F} (htells : Tells f e) :
    Agreeing P { w.tell (.server e) with down := down, got := w.got ++ [f] } := by
  have hsplit := notices_receive hdown (.server e)
  by_cases hvoice : ∃ voice effect, f = .voice voice effect
  · obtain ⟨voice, effect, rfl⟩ := hvoice
    obtain rfl : e = .sessionUpdated (some (voice, effect)) := htells
    -- A notice: nothing of the client is on its way up.
    have hne : w.notices ≠ [] := by
      rw [hsplit]
      simp [voices]
    have hup : w.updates = [] := by
      by_contra hne'
      exact hcrossed ⟨hne, .inl hne'⟩
    have happlying : w.applying = none := by
      by_contra hne'
      exact hcrossed ⟨hne, .inr hne'⟩
    have hup' : Link.updates { w.tell (.server (.sessionUpdated (some (voice, effect)))) with
        down := down, got := w.got ++ [.voice voice effect] } = [] := by
      show optionsOf (w.up ++ []) = []
      rw [List.append_nil]
      exact hup
    refine ⟨fun hnone _ _ => ?_, fun n hn => ?_, ?_, fun _ settings hs => ?_⟩
    · have hone : w.notices = [(voice, effect)] := by
        rw [hsplit, hnone]
        rfl
      have hlast := h.last (voice, effect) (by rw [hone]; rfl)
      obtain ⟨hv, he⟩ := Prod.mk.inj hlast
      exact ⟨.inl hv.symm, .inl he.symm⟩
    · exact h.last n (by rw [hsplit]; exact List.mem_getLast?_append_of_mem_getLast? hn)
    · rw [hup']
      simp
    · exact absurd (happlying.symm.trans hs) (by simp)
  · obtain ⟨hnone, hapart⟩ :=
      htells.apart (fun voice effect heq => hvoice ⟨voice, effect, heq⟩) { w.client with out := [] }
    obtain ⟨hup, hoptions⟩ := updates_tell hapart
    rw [hnone, List.nil_append] at hsplit
    exact ⟨fun hn hu ha => hoptions ▸ h.quiet (hsplit.trans hn) (hup.symm.trans hu) ha,
      fun n hn => h.last n (by rw [hsplit]; exact hn),
      fun o ho => hoptions ▸ h.sent o (by rw [← hup]; exact ho),
      fun hu settings hs => hoptions ▸ h.applied (hup.symm.trans hu) settings hs⟩

/-- An update goes up with what the client holds from now on. -/
theorem updates_update (hw : Stands P w) (o : S2SOptions) :
    (w.tell (.update o)).updates = w.updates ++ [o] := by
  show optionsOf (w.up ++ _) = _
  rw [optionsOf_append]
  congr 1
  show optionsOf ((sends ({ w.client with out := [], options := o } : Talk F).sendSessionUpdate.out).map
    _) = [o]
  have hsent : ({ w.client with out := [], options := o } : Talk F).sent (.sessionUpdate o)
      = [.send (.sessionUpdate o)] := if_pos hw.connected
  rw [Talk.sendSessionUpdate, Talk.send_eq, hsent]
  rfl

/-- The host of the client does something. -/
theorem Agreeing.host (h : Agreeing P w) (hw : Stands P w) {e : Event F} (he : OfHost e) :
    Agreeing P (w.tell e) := by
  by_cases hupdate : ∃ o, e = .update o
  · obtain ⟨o, rfl⟩ := hupdate
    have hup := updates_update hw o
    have hoptions : (w.tell (.update o)).client.options = o := by
      show (({ w.client with out := [], options := o } : Talk F).sendSessionUpdate).options = o
      rw [Talk.sendSessionUpdate, Talk.send_eq]
    refine ⟨fun _ hnone _ => absurd (hup.symm.trans hnone) (by simp), h.last, fun o' ho' => ?_,
      fun hnone => absurd (hup.symm.trans hnone) (by simp)⟩
    rw [hup, List.getLast?_concat] at ho'
    obtain rfl := Option.some.inj ho'
    rw [hoptions]
    exact ⟨rfl, rfl⟩
  · obtain ⟨hup, hoptions⟩ := updates_tell (w := w)
      (Apart.host _ he fun o heq => hupdate ⟨o, heq⟩)
    exact ⟨fun hn hu ha => hoptions ▸ h.quiet hn (hup.symm.trans hu) ha, h.last,
      fun o ho => hoptions ▸ h.sent o (by rw [← hup]; exact ho),
      fun hu settings hs => hoptions ▸ h.applied (hup.symm.trans hu) settings hs⟩

theorem updates_speak (w : Link F V) (errors : List Bytes) (pcm : List F) :
    Link.updates { w with up := w.up ++ [⟨.audio errors pcm, holds w.client⟩] } = w.updates := by
  show optionsOf (w.up ++ _) = _
  rw [optionsOf_append]
  exact List.append_nil _

/-- **A step that starts uncrossed** keeps the two sides to it. -/
theorem Agreeing.step (h : Agreeing P w) (hw : Stands P w) (hcrossed : ¬w.Crossed)
    {happening : Happening F} (hstep : Step P w happening w') : Agreeing P w' := by
  cases hstep with
  | act hprog hown hexec => exact h.act hw hcrossed hprog hown hexec
  | again => exact ⟨h.quiet, h.last, h.sent, h.applied⟩
  | read hprog hup hreads => exact h.read hw hprog hup hreads
  | write hprog => exact h.write hw hprog
  | receive hdown htells => exact h.receive hcrossed hdown htells
  | host he => exact h.host hw he
  | speak errors pcm =>
    have hup := updates_speak w errors pcm
    exact ⟨fun hn hu => h.quiet hn (hup.symm.trans hu), h.last,
      fun o ho => h.sent o (by rw [← hup]; exact ho), fun hu => h.applied (hup.symm.trans hu)⟩

theorem agreeing_opening (P : Setup F V S) (t : Talk F) : Agreeing P (opening P t) := by
  have hout : (({ t with out := [] } : Talk F).step .opened).out
      = [.send (.sessionUpdate t.options), .send (.history t.history), .history t.history] := by
    show (({ t with out := [], connected := true } : Talk F).sendSessionUpdate.pushHistory).out = _
    simp [Talk.sendSessionUpdate, Talk.pushHistory, Talk.send_eq, Talk.emit, Talk.sent]
  have hup : (opening P t).updates = [t.options] := by
    show optionsOf ([] ++ (sends (({ t with out := [] } : Talk F).step .opened).out).map _) = _
    rw [hout]
    rfl
  have hoptions : (opening P t).client.options = t.options := by
    show (({ t with out := [], connected := true } : Talk F).sendSessionUpdate.pushHistory).options = _
    simp [Talk.sendSessionUpdate, Talk.pushHistory, Talk.send_eq, Talk.emit]
  refine ⟨fun _ hnone _ => ?_, fun n hn => ?_, fun o ho => ?_, fun hnone => ?_⟩
  · rw [hup] at hnone
    simp at hnone
  · simp [Link.notices, Link.flow, opening, Link.tell, voices, owed, carried, Conversation.connection,
      Memory.new, System.start] at hn
  · rw [hup] at ho
    obtain rfl : t.options = o := by simpa using ho
    rw [hoptions]
    exact ⟨rfl, rfl⟩
  · rw [hup] at hnone
    simp at hnone

/-- A step after which no notice and no update are on their way at once. -/
def Uncrossed (_ : Link F V) (_ : Happening F) (w' : Link F V) : Prop := ¬w'.Crossed

/-- Such a step that sets no voice, the host naming none but the one the client holds. -/
structure Leaves (w : Link F V) (happening : Happening F) (w' : Link F V) : Prop where
  uncrossed : ¬w'.Crossed
  server : ∀ i voice effect, happening ≠ .act i (.setVoice voice effect)
  host : ∀ o, happening = .host (.update o) → o.voice = w.client.options.voice

/-- **A voice that stays**: the server has it, and all that goes up names it; the client has it once
it has been told. -/
structure Staying (voice : Bytes) (w : Link F V) : Prop where
  server : w.server.mem.client.voice = voice
  client : w.notices = [] → w.client.options.voice = some voice
  updates : ∀ o ∈ w.updates, o.voice = some voice
  applying : ∀ settings ∈ w.applying, settings.voice = voice

theorem Staying.act {voice : Bytes} (h : Staying voice w) (hw : Stands P w) {i : Role} {a : Act F}
    {next : a.Result → Program F Bool} (hprog : w.server.prog i = .act a next) (hown : Own a)
    {x : a.Input} {r : a.Result} {m : Memory F V}
    (hexec : exec P i a x w.server.mem = some (r, m))
    (hset : ∀ voice effect, a ≠ .setVoice voice effect) : Staying voice (w.act i next r m) := by
  have hnotices := notices_act hw hprog hown hexec hset
  by_cases hpatch : ∃ settings, a = .patch settings
  · obtain ⟨settings, rfl⟩ := hpatch
    obtain ⟨rfl, errors, params, invalid, hhand⟩ := hw.fit.ok hprog
    have happlying : w.applying = some settings := by rw [Link.applying, hhand]; rfl
    obtain ⟨-, rfl⟩ := done_inj hexec
    refine ⟨h.applying settings happlying, fun hnone => h.client (hnotices.symm.trans hnone),
      h.updates, ?_⟩
    simp [Link.applying, Link.act, Hand.next, Wire.applying]
  · have hvoice : ¬OfVoice a := by
      cases a with
      | patch settings => exact absurd ⟨settings, rfl⟩ hpatch
      | setVoice voice effect => exact absurd rfl (hset voice effect)
      | _ => exact id
    have happlying := applying_of_act hw hprog hown hexec fun settings heq => hpatch ⟨settings, heq⟩
    refine ⟨(voice_exec hvoice hexec).1.trans h.server,
      fun hnone => h.client (hnotices.symm.trans hnone), h.updates, ?_⟩
    rw [happlying]
    exact h.applying

theorem Staying.read {voice : Bytes} (hvoice : voice ≠ []) (h : Staying voice w) (hw : Stands P w)
    {i : Role} {next : Incoming F → Program F Bool}
    (hprog : w.server.prog i = .act (.ask .read) next) {posted : Posted F} {up : List (Posted F)}
    (hup : w.up = posted :: up) {x : Incoming F} (hreads : Reads P posted.frame x) :
    Staying voice { w.act i (a := .ask .read) next x w.server.mem with
      up := up, read := posted.held } := by
  have hnotices := notices_read hw hprog x up posted.held
  have happlying := applying_read hw hprog x up posted.held
  have hsplit := updates_cons hup
  refine ⟨h.server, fun hnone => h.client (hnotices.symm.trans hnone), fun o ho => ?_,
    fun settings hs => ?_⟩
  · exact h.updates o (by rw [hsplit]; exact List.mem_append_right _ ho)
  · rw [happlying] at hs
    cases ho : posted.frame.options with
    | none =>
      rw [hreads.applying_none ho] at hs
      simp at hs
    | some o =>
      obtain ⟨settings', hsettings, happlies⟩ := hreads.applying_some ho
      obtain rfl : settings' = settings := Option.some.inj (hsettings.symm.trans hs)
      have hnamed : o.voice = some voice := h.updates o (by rw [hsplit, ho]; simp)
      rw [happlies.voice, hnamed]
      exact if_neg hvoice

theorem Staying.receive {voice : Bytes} (h : Staying voice w) (hagreeing : Agreeing P w)
    {f : Frame F} {down : List (Frame F)} (hdown : w.down = f :: down) {e : ServerEvent F}
    (htells : Tells f e) :
    Staying voice { w.tell (.server e) with down := down, got := w.got ++ [f] } := by
  have hsplit := notices_receive hdown (.server e)
  by_cases hvoice : ∃ voice effect, f = .voice voice effect
  · obtain ⟨voice', effect, rfl⟩ := hvoice
    obtain rfl : e = .sessionUpdated (some (voice', effect)) := htells
    refine ⟨h.server, fun hnone => ?_, fun o ho => h.updates o ?_, h.applying⟩
    · have hone : w.notices = [(voice', effect)] := by
        rw [hsplit, hnone]
        rfl
      have hlast := hagreeing.last (voice', effect) (by rw [hone]; rfl)
      exact congrArg some ((Prod.mk.inj hlast).1.trans h.server)
    · have hup : o ∈ optionsOf (w.up ++ []) := ho
      rwa [List.append_nil] at hup
  · obtain ⟨hnone, hapart⟩ :=
      htells.apart (fun voice effect heq => hvoice ⟨voice, effect, heq⟩) { w.client with out := [] }
    obtain ⟨hup, hoptions⟩ := updates_tell hapart
    rw [hnone, List.nil_append] at hsplit
    exact ⟨h.server, fun hn => (congrArg S2SOptions.voice hoptions).trans (h.client (hsplit.trans hn)),
      fun o ho => h.updates o (by rw [← hup]; exact ho), h.applying⟩

theorem Staying.host {voice : Bytes} (h : Staying voice w) (hw : Stands P w) {e : Event F}
    (he : OfHost e) (hleaves : Leaves w (.host e) (w.tell e)) : Staying voice (w.tell e) := by
  by_cases hupdate : ∃ o, e = .update o
  · obtain ⟨o, rfl⟩ := hupdate
    have hup := updates_update hw o
    -- The update is on its way, so no notice is, and the client has been told the voice.
    have hnone : w.notices = [] := by
      by_contra hne
      refine hleaves.uncrossed ⟨hne, .inl ?_⟩
      rw [hup]
      simp
    have hnamed : o.voice = some voice := (hleaves.host o rfl).trans (h.client hnone)
    refine ⟨h.server, fun _ => ?_, fun o' ho' => ?_, h.applying⟩
    · show (({ w.client with out := [], options := o } : Talk F).sendSessionUpdate).options.voice = _
      rw [Talk.sendSessionUpdate, Talk.send_eq]
      exact hnamed
    · rw [hup, List.mem_append, List.mem_singleton] at ho'
      rcases ho' with ho' | rfl
      · exact h.updates o' ho'
      · exact hnamed
  · obtain ⟨hup, hoptions⟩ := updates_tell (w := w)
      (Apart.host _ he fun o heq => hupdate ⟨o, heq⟩)
    exact ⟨h.server, fun hn => (congrArg S2SOptions.voice hoptions).trans (h.client hn),
      fun o ho => h.updates o (by rw [← hup]; exact ho), h.applying⟩

theorem Staying.step {voice : Bytes} (hvoice : voice ≠ []) (h : Staying voice w) (hw : Stands P w)
    (hagreeing : Agreeing P w) {happening : Happening F} (hstep : Step P w happening w')
    (hleaves : Leaves w happening w') : Staying voice w' := by
  cases hstep with
  | act hprog hown hexec =>
    refine h.act hw hprog hown hexec ?_
    rintro voice effect rfl
    exact hleaves.server _ _ _ rfl
  | again => exact ⟨h.server, h.client, h.updates, h.applying⟩
  | read hprog hup hreads => exact h.read hvoice hw hprog hup hreads
  | write hprog =>
    have hnotices := notices_write hw hprog
    refine ⟨h.server, fun hnone => h.client (hnotices.symm.trans hnone), h.updates, ?_⟩
    rw [applying_write hw hprog]
    exact h.applying
  | receive hdown htells => exact h.receive hagreeing hdown htells
  | host he => exact h.host hw he hleaves
  | speak errors pcm =>
    exact ⟨h.server, h.client, fun o ho => h.updates o (by rw [← updates_speak w errors pcm]; exact ho),
      h.applying⟩

/-! ### Runs -/

theorem Agreeing.along {ok : Link F V → Happening F → Link F V → Prop}
    (hok : ∀ w happening w', ok w happening w' → ¬w'.Crossed) (h : Agreeing P w) (hw : Stands P w)
    (hcrossed : ¬w.Crossed) (hrun : Along P ok w w') : Agreeing P w' ∧ ¬w'.Crossed := by
  induction hrun with
  | refl => exact ⟨h, hcrossed⟩
  | tail hrun hstep ih =>
    obtain ⟨_, hstep, hkept⟩ := hstep
    exact ⟨ih.1.step (hw.along hrun) ih.2 hstep, hok _ _ _ hkept⟩

theorem Staying.along {voice : Bytes} (hvoice : voice ≠ []) (h : Staying voice w)
    (hagreeing : Agreeing P w) (hw : Stands P w) (hcrossed : ¬w.Crossed)
    (hrun : Along P Leaves w w') : Staying voice w' := by
  induction hrun with
  | refl => exact h
  | tail hrun hstep ih =>
    obtain ⟨_, hstep, hleaves⟩ := hstep
    exact ih.step hvoice (hw.along hrun)
      (hagreeing.along (fun _ _ _ h => h.uncrossed) hw hcrossed hrun).1 hstep hleaves

theorem opening_uncrossed (P : Setup F V S) (t : Talk F) : ¬(opening P t).Crossed := fun h => by
  refine h.1 ?_
  simp [Link.notices, Link.flow, opening, Link.tell, voices, owed, carried, Conversation.connection,
    Memory.new, System.start]

theorem Link.Quiet.nothing {w : Link F V} (h : w.Quiet) :
    w.notices = [] ∧ w.updates = [] ∧ w.applying = none := by
  refine ⟨?_, ?_, h.reader⟩
  · rw [Link.notices, Link.flow, h.down, h.out, h.writer, h.responder]
    rfl
  · rw [Link.updates, h.up]
    rfl

/-- **While no notice and no update cross**: whenever no frame is on its way, the voice and the
effect in force on the server are those of the client; and a voice that the model sets is in force
from then on, whatever the host updates meanwhile, until it names another or the model sets
another. -/
theorem voices_agree {t : Talk F} (hvoices : [] ∉ P.voices) (h : Along P Uncrossed (opening P t) w) :
    (w.Quiet → Agrees P w.server.mem.client w.client.options) ∧
      ∀ voice effect w₁, Step P w (.act .responder (.setVoice voice effect)) w₁ → ¬w₁.Crossed →
        ∀ w₂, Along P Leaves w₁ w₂ → w₂.server.mem.client.voice = voice := by
  have hw := (stands_opening P t).along h
  obtain ⟨hagreeing, hcrossed⟩ := (agreeing_opening P t).along (fun _ _ _ h => h)
    (stands_opening P t) (opening_uncrossed P t) h
  refine ⟨fun hquiet => ?_, fun voice effect w₁ hstep hcrossed₁ w₂ hrun => ?_⟩
  · obtain ⟨hnotices, hupdates, happlying⟩ := hquiet.nothing
    exact hagreeing.quiet hnotices hupdates happlying
  · have hw₁ := hstep.stands hw
    have hagreeing₁ := hagreeing.step hw hcrossed hstep
    suffices hstart : voice ≠ [] ∧ Staying voice w₁ from
      (Staying.along hstart.1 hstart.2 hagreeing₁ hw₁ hcrossed₁ hrun).server
    cases hstep with
    | @act _ _ next hprog hown x r m hexec =>
      obtain ⟨-, -, hknown⟩ := hw.fit.ok hprog
      have hnotices := notices_setVoice hw hprog hexec
      have hne : (w.act .responder (a := .setVoice voice effect) next r m).notices ≠ [] := by
        rw [hnotices]
        simp
      refine ⟨fun hempty => hvoices (hempty ▸ hknown), ?_, fun hnone => absurd hnone hne,
        fun o ho => ?_, fun settings hs => ?_⟩
      · obtain ⟨-, rfl⟩ := done_inj hexec
        rfl
      · exact absurd ⟨hne, .inl (List.ne_nil_of_mem ho)⟩ hcrossed₁
      · exact absurd ⟨hne, .inr (Option.ne_none_iff_exists'.2 ⟨settings, hs⟩)⟩ hcrossed₁

end Steps

/-! ### Two runs -/

instance (w : Link F V) : Decidable w.Crossed :=
  inferInstanceAs (Decidable (w.notices ≠ [] ∧ (w.updates ≠ [] ∨ w.applying ≠ none)))

instance (w : Link F V) : Decidable w.Quiet :=
  decidable_of_iff (w.up = [] ∧ w.down = [] ∧ w.server.mem.out = [] ∧
      carried (w.watches .writer).hand = [] ∧ w.applying = none ∧ owed (w.watches .responder).hand = [])
    ⟨fun ⟨hup, hdown, hout, hwriter, hreader, hresponder⟩ =>
      ⟨hup, hdown, hout, hwriter, hreader, hresponder⟩,
     fun h => ⟨h.up, h.down, h.out, h.writer, h.reader, h.responder⟩⟩

/-- A server with one voice, whose model may set it. -/
def voicedSetup : Setup ℕ Unit Unit :=
  { plainSetup (ascii "agentic") with
    defaults := { (plainSetup (ascii "agentic")).defaults with effect := ascii "off" }
    voices := [ascii "Ann"]
    effects := [ascii "off"] }

/-- A world whose model sets that voice. -/
def voicedWorld : (a : Act ℕ) → a.Input
  | .ask .gather => some [⟨⟨ascii "set_voice", []⟩, .builtin 0⟩]
  | .ask .streamed => some [⟨ascii "1", ascii "set_voice", ascii "\x7b\"voice\":\"Ann\"\x7d"⟩]
  | a => plainWorld .other a

/-- As many steps of one thread. -/
def threads (i : Role) (n : ℕ) : List (Cue ℕ) := List.replicate n (.thread i voicedWorld)

/-- The user wants another voice. -/
def eve : S2SOptions := ⟨none, none, some (ascii "Eve"), none⟩

/-- A turn of one sample, up to where the model sets the voice. -/
def upToVoice : List (Cue ℕ) :=
  threads .reader 9 ++ [.speak [1, 0]] ++ threads .reader 17 ++ threads .recognizer 6 ++
    threads .responder 15

/-- The voice is set and told. -/
def toldInTime : List (Cue ℕ) :=
  upToVoice ++ threads .responder 2 ++ threads .writer 18 ++ List.replicate 6 .receive

/-- An update of the host was on its way meanwhile. -/
def crossing : List (Cue ℕ) :=
  upToVoice ++ [.update eve] ++ threads .responder 2 ++ threads .reader 5 ++ threads .writer 21 ++
    List.replicate 7 .receive

/-- Where a schedule ends. -/
def ended (ok : Link ℕ Unit → Bool) (schedule : List (Cue ℕ))
    (h : ((opening voicedSetup { options := eve }).play voicedSetup ok schedule).isSome) :
    Link ℕ Unit :=
  ((opening voicedSetup { options := eve }).play voicedSetup ok schedule).get h

theorem told_isSome : ((opening voicedSetup { options := eve }).play voicedSetup
    (fun w => decide ¬w.Crossed) toldInTime).isSome = true := by
  decide +kernel

theorem crossing_isSome : ((opening voicedSetup { options := eve }).play voicedSetup
    (fun _ => true) crossing).isSome = true := by
  decide +kernel

theorem told_quiet : (ended _ _ told_isSome).Quiet ∧
    (ended _ _ told_isSome).client.options.voice = some (ascii "Ann") := by
  decide +kernel

theorem crossing_quiet : (ended _ _ crossing_isSome).Quiet ∧
    (ended _ _ crossing_isSome).server.mem.client.voice = ascii "Eve" ∧
    (ended _ _ crossing_isSome).client.options.voice = some (ascii "Ann") := by
  decide +kernel

/-- Told in time, the client has the voice that the server has. -/
theorem voices_agree_told :
    Agrees voicedSetup (ended _ _ told_isSome).server.mem.client
        (ended _ _ told_isSome).client.options ∧
      (ended _ _ told_isSome).client.options.voice = some (ascii "Ann") := by
  have hrun : Along voicedSetup Uncrossed (opening voicedSetup { options := eve })
      (ended _ _ told_isSome) :=
    (along_play (Option.some_get told_isSome).symm).mono fun _ _ w hok =>
      (of_decide_eq_true hok : ¬w.Crossed)
  exact ⟨(voices_agree (by decide) hrun).1 told_quiet.1, told_quiet.2⟩

/-- **A notice and an update that cross**: each side ends with the voice of the other. -/
theorem crossed_disagree : ∃ w : Link ℕ Unit,
    Along voicedSetup (fun _ _ _ => True) (opening voicedSetup { options := eve }) w ∧ w.Quiet ∧
      ¬Agrees voicedSetup w.server.mem.client w.client.options := by
  obtain ⟨hquiet, hserver, hclient⟩ := crossing_quiet
  refine ⟨ended _ _ crossing_isSome,
    (along_play (Option.some_get crossing_isSome).symm).mono fun _ _ _ _ => trivial, hquiet,
    fun hagrees => ?_⟩
  rcases hagrees.voice with hvoice | ⟨hvoice, -⟩
  · rw [hserver, hclient] at hvoice
    exact absurd hvoice (by decide)
  · rw [hclient] at hvoice
    exact absurd hvoice (by decide)

end Wire
end S2S
