/-
# The reference stays in step with the microphone

A canceller starts with two fresh resamplers and nothing waiting, and from then
on every frame brings as many samples of the one as of the other.  So what the
resamplers hold, what waits for a hop, and the hops handed over are those of two
streams of one length, which the frames cut at the same places (`Aligned`).
What is handed over depends on the two streams alone (`echo_aligned`).
-/

import S2S.Echo.Basic
import S2S.Resample.Agree

namespace S2S
namespace Echo

open Json Resample

/-! ### A stream after what it was given -/

section Stream
variable {F : Type} [Zero F] [Add F] [Mul F] {s : AudioResampleStream F}

/-- The stream `s` after `x`. -/
def streamAfter (s : AudioResampleStream F) (x : List F) : AudioResampleStream F :=
  { s with history := leftover s.kernel.K s.orig (s.history ++ x) }

/-- What the stream `s` puts out for `x`. -/
def resampledBy (s : AudioResampleStream F) (x : List F) : List F :=
  (windows s.kernel.K s.orig (s.history ++ x)).flatMap (group s.newf s.kernel)

/-- What the stream `s` puts out for `y` once it has heard `x`. -/
def resampledNext (s : AudioResampleStream F) (x y : List F) : List F :=
  (windows s.kernel.K s.orig ((streamAfter s x).history ++ y)).flatMap (group s.newf s.kernel)

theorem resampledBy_append (hs : Started s) (x y : List F) :
    resampledBy s (x ++ y) = resampledBy s x ++ resampledNext s x y := by
  unfold resampledBy resampledNext streamAfter
  rw [← List.append_assoc, windows_append hs.orig_pos hs.orig_le, List.flatMap_append]

theorem push_streamAfter (hs : Started s) (x y : List F) :
    audioResampleStreamPush (streamAfter s x) y =
      .ok (streamAfter s (x ++ y), resampledNext s x y) := by
  have hpush := @push_eq F _ _ _ (streamAfter s x) hs y
  have hkept : leftover s.kernel.K s.orig (s.history ++ (x ++ y)) =
      leftover s.kernel.K s.orig (leftover s.kernel.K s.orig (s.history ++ x) ++ y) := by
    rw [← List.append_assoc, leftover_append hs.orig_pos hs.orig_le]
  rw [hpush, streamAfter, streamAfter, hkept]
  rfl

/-- How much a stream puts out is decided by how much it was given. -/
theorem length_resampledBy {x y : List F} (h : x.length = y.length) :
    (resampledBy s x).length = (resampledBy s y).length := by
  simp only [resampledBy, group, windows, List.length_flatMap, List.length_map, List.length_range,
    List.map_map, List.length_append, h]
  rfl

theorem length_resampledNext (hs : Started s) {x y x' y' : List F} (hx : x.length = x'.length)
    (hy : y.length = y'.length) :
    (resampledNext s x y).length = (resampledNext s x' y').length := by
  have hwhole := @length_resampledBy F _ _ _ s (x ++ y) (x' ++ y') (by simp [hx, hy])
  have hstart := @length_resampledBy F _ _ _ s x x' hx
  rw [resampledBy_append hs, resampledBy_append hs, List.length_append, List.length_append] at hwhole
  omega

end Stream

/-! ### The hops of two streams -/

section Hops
variable {F A : Type} {hop : ℕ}

/-- The hops of two streams, place by place. -/
def hopsOf (hop : ℕ) (mic ref : List F) : List (List F × List F) :=
  (windows hop hop mic).zip (windows hop hop ref)

theorem hopsOf_append (hhop : 0 < hop) {mic ref mic' ref' : List F}
    (hlen : mic.length = ref.length) :
    hopsOf hop (mic ++ mic') (ref ++ ref') =
      hopsOf hop mic ref ++ hopsOf hop (leftover hop hop mic ++ mic') (leftover hop hop ref ++ ref') := by
  unfold hopsOf
  rw [windows_append hhop le_rfl mic, windows_append hhop le_rfl ref, List.zip_append]
  simp [windows, hlen]

theorem length_leftover_eq {mic ref : List F} (hlen : mic.length = ref.length) :
    (leftover hop hop mic).length = (leftover hop hop ref).length := by
  rw [length_leftover, length_leftover, hlen]

variable [Zero F] {c : Canceller F A}

/-- **The loop hands over every hop** that is whole, and ends before the first that is not. -/
theorem cancelFrom_hops {mic ref : List F} (hlen : mic.length = ref.length) :
    ∀ (fuel : ℕ) (p : Cancelling F A), mic.length - p.done < fuel →
      ∃ p', cancelFrom c mic ref fuel p = .ok p' ∧
        p'.done = p.done + windowCount c.hop c.hop (mic.length - p.done) * c.hop ∧
        p'.hops = p.hops ++ hopsOf c.hop (mic.drop p.done) (ref.drop p.done) := by
  have hhop := c.hop_pos
  intro fuel
  induction fuel with
  | zero => intro p hfuel; omega
  | succ fuel ih =>
    intro p hfuel
    have hmic : (mic.drop p.done).length = mic.length - p.done := List.length_drop
    have href : (ref.drop p.done).length = ref.length - p.done := List.length_drop
    by_cases hfit : p.done + c.hop ≤ mic.length
    · obtain ⟨p', hrun, hdone, hhops⟩ := ih
        (cancelHop c ((mic.drop p.done).take c.hop) ((ref.drop p.done).take c.hop) p)
        (by simp only [cancelHop]; omega)
      refine ⟨p', ?_, ?_, ?_⟩
      · rw [cancelFrom, if_pos hfit, if_pos (by omega)]
        exact hrun
      · simp only [cancelHop] at hdone
        rw [hdone, windowCount_of_le hhop le_rfl (by omega : c.hop ≤ mic.length - p.done),
          Nat.succ_mul, Nat.sub_sub, Nat.add_assoc, Nat.add_comm c.hop]
      · have hwindows : hopsOf c.hop (mic.drop p.done) (ref.drop p.done) =
            ((mic.drop p.done).take c.hop, (ref.drop p.done).take c.hop) ::
              hopsOf c.hop (mic.drop (p.done + c.hop)) (ref.drop (p.done + c.hop)) := by
          unfold hopsOf
          rw [windows_of_le hhop le_rfl (mic.drop p.done) (by omega),
            windows_of_le hhop le_rfl (ref.drop p.done) (by omega),
            List.zip_cons_cons, List.drop_drop, List.drop_drop]
        rw [hhops, hwindows]
        simp [cancelHop]
    · refine ⟨p, ?_, ?_, ?_⟩
      · rw [cancelFrom, if_neg hfit]
      · rw [windowCount, if_pos (by omega), Nat.zero_mul, Nat.add_zero]
      · rw [hopsOf, windows_of_lt (by omega)]
        simp

/-- **The hops of a frame** follow those handed over before, and what waits after it is what is left
of the two streams. -/
theorem connCancelEcho_hops {conn : Connection F A} {mic ref mic' ref' : List F} (aec : A)
    (hlen : mic.length = ref.length) (hnext : mic'.length = ref'.length)
    (haecMic : conn.aecMic = leftover c.hop c.hop mic)
    (haecRef : conn.aecRef = leftover c.hop c.hop ref) :
    ∃ conn' r, connCancelEcho c aec mic' ref' conn = .ok (conn', r) ∧
      conn'.micResample = conn.micResample ∧ conn'.refResample = conn.refResample ∧
      conn'.aecMic = leftover c.hop c.hop (mic ++ mic') ∧
      conn'.aecRef = leftover c.hop c.hop (ref ++ ref') ∧
      r.resampled = mic' ∧ r.reference = some ref' ∧
      hopsOf c.hop (mic ++ mic') (ref ++ ref') = hopsOf c.hop mic ref ++ r.hops := by
  have hhop := c.hop_pos
  have hwait : (leftover c.hop c.hop mic ++ mic').length =
      (leftover c.hop c.hop ref ++ ref').length := by
    simp [length_leftover_eq hlen, hnext]
  obtain ⟨p, hrun, hdone, hhops⟩ := cancelFrom_hops hwait
    ((leftover c.hop c.hop mic ++ mic').length + 1)
    { aec, failing := conn.aecFailing } (by simp)
  simp only [Nat.zero_add, Nat.sub_zero, List.nil_append, List.drop_zero] at hdone hhops
  refine ⟨{ conn with
      aec := some p.aec
      aecMic := leftover c.hop c.hop (mic ++ mic')
      aecRef := leftover c.hop c.hop (ref ++ ref')
      aecFailing := p.failing },
    { resampled := mic', reference := some ref', pcm := p.pcm, hops := p.hops, errors := p.errors },
    ?_, rfl, rfl, rfl, rfl, rfl, rfl, ?_⟩
  · unfold connCancelEcho
    simp only [haecMic, haecRef]
    rw [hrun, leftover_append hhop le_rfl mic, leftover_append hhop le_rfl ref]
    simp only [bind, Except.bind, pure, Except.pure]
    rw [hdone]
    unfold leftover at hwait ⊢
    rw [← hwait]
  · rw [hopsOf_append hhop hlen, hhops]

end Hops

/-! ### Every run -/

section Run
variable {F A : Type}

/-- What a canceller was given since it started: the microphone, what played, and the hops. -/
structure Heard (F : Type) where
  audio : List F := []
  played : List F := []
  hops : List (List F × List F) := []

variable [Zero F]

/-- A frame adds to it; a change of method starts anew. -/
def Heard.next (h : Heard F) (conn : Connection F A) : Event F A → Option (Report F) → Heard F
  | .update _ patch, _ => if Changes patch conn then {} else h
  | .append audio reference, report =>
    { audio := h.audio ++ audio
      played := h.played ++ playedPcm audio reference
      hops := h.hops ++ (report.map Report.hops).getD [] }

theorem length_playedPcm (audio reference : List F) :
    (playedPcm audio reference).length = audio.length := by
  unfold playedPcm
  split_ifs with heq
  · exact heq
  · exact List.length_replicate

variable (tap : ℕ → ℕ → ℕ → ℕ → F)

/-- The resampler a connection starts with. -/
def fresh : AudioResampleStream F := freshStream tap inputRate modelRate

theorem started_fresh : Started (fresh tap) :=
  built_builtKernel tap (reduced (by decide : 0 < inputRate) (by decide : 0 < modelRate))

theorem init_eq : audioResampleStreamInit tap inputRate modelRate = .ok (fresh tap) :=
  @streamInit_eq F tap _ inputRate modelRate 0 ⟨by decide +kernel, by decide +kernel⟩

theorem short_fresh : (fresh tap).history.length < (fresh tap).kernel.K := by
  have hsize := (started_fresh tap).size
  have hpos := (started_fresh tap).orig_pos
  have hlen : (fresh tap).history.length = (fresh tap).kernel.width := List.length_replicate
  omega

variable {tap} in
theorem connOpen_eq {A : Type} : connOpen tap = .ok
    ({ micResample := fresh tap, refResample := fresh tap } : Connection F A) := by
  unfold connOpen
  rw [init_eq]
  rfl

/-- What a change of method leaves. -/
def restarted (opened : Option A) (patch : Patch) : Connection F A where
  echo := patch.echo
  aec := if patch.echo = ascii "server" ∨ patch.echo = ascii "both" then opened else none
  micResample := fresh tap
  refResample := fresh tap

variable {tap} in
theorem connApplyEcho_eq {conn : Connection F A} {opened : Option A} {patch : Patch}
    (hchange : Changes patch conn) :
    connApplyEcho tap opened patch conn = .ok (restarted tap opened patch) := by
  unfold connApplyEcho
  rw [if_pos hchange, init_eq]
  rfl

variable {tap} in
/-- The method and the canceller are those of the update's own model. -/
theorem connApplyEcho_takeEcho {conn conn' : Connection F A} {opened : Option A} {patch : Patch}
    {update : Update.Connection} (hecho : update.echo = conn.echo)
    (haec : update.aec = conn.aec.isSome)
    (h : connApplyEcho tap opened patch conn = .ok conn') :
    (Update.takeEcho opened.isSome patch update).1.echo = conn'.echo ∧
      (Update.takeEcho opened.isSome patch update).1.aec = conn'.aec.isSome := by
  unfold Update.takeEcho
  rw [hecho]
  by_cases hchange : Changes patch conn
  · rw [connApplyEcho_eq hchange] at h
    obtain rfl := Except.ok.inj h
    rw [if_neg (not_or.2 hchange)]
    refine ⟨rfl, ?_⟩
    by_cases hserver : patch.echo = ascii "server" ∨ patch.echo = ascii "both" <;>
      simp [restarted, hserver]
  · have hsame : patch.echo = [] ∨ patch.echo = conn.echo := by
      by_contra hno
      exact hchange (not_or.1 hno)
    rw [connApplyEcho, if_neg hchange] at h
    obtain rfl := Except.ok.inj h
    rw [if_pos hsame]
    exact ⟨hecho, haec⟩

variable [Add F] [Mul F] (c : Canceller F A)

/-- **The connections a client can bring about**, by updates and frames in any order. -/
inductive Reached : Connection F A → Heard F → Prop
  | opened {conn : Connection F A} (h : connOpen tap = .ok conn) : Reached conn {}
  | frame {conn conn' : Connection F A} {heard : Heard F} {event : Event F A}
      {report : Option (Report F)} (h : Reached conn heard)
      (hframe : connFrame tap c conn event = .ok (conn', report)) :
      Reached conn' (heard.next conn event report)

/-- **Microphone and reference in step.**  The microphone always, the reference while there is a
canceller: the resamplers, what waits for a hop, and what was handed over. -/
structure Aligned (conn : Connection F A) (h : Heard F) : Prop where
  mic : conn.micResample = streamAfter (fresh tap) h.audio
  played : h.played.length = h.audio.length
  ref : conn.aec.isSome → conn.refResample = streamAfter (fresh tap) h.played
  aecMic : conn.aec.isSome → conn.aecMic = leftover c.hop c.hop (resampledBy (fresh tap) h.audio)
  aecRef : conn.aec.isSome → conn.aecRef = leftover c.hop c.hop (resampledBy (fresh tap) h.played)
  hops : conn.aec.isSome → h.hops =
    hopsOf c.hop (resampledBy (fresh tap) h.audio) (resampledBy (fresh tap) h.played)

variable {tap c} {conn conn' : Connection F A} {h : Heard F}

/-- **A canceller starts in step**: with two fresh resamplers and nothing waiting. -/
theorem aligned_start {conn : Connection F A} (hmic : conn.micResample = fresh tap)
    (href : conn.refResample = fresh tap) (haecMic : conn.aecMic = []) (haecRef : conn.aecRef = []) :
    Aligned tap c conn {} := by
  have hshort : ((fresh tap).history ++ []).length < (fresh tap).kernel.K := by
    rw [List.append_nil]
    exact short_fresh tap
  have hafter : streamAfter (fresh tap) [] = fresh tap := by
    rw [streamAfter, leftover_of_lt hshort, List.append_nil]
  have hnone : resampledBy (fresh tap) [] = [] := by
    rw [resampledBy, windows_of_lt hshort]
    rfl
  have hwait : leftover c.hop c.hop ([] : List F) = [] := leftover_of_lt c.hop_pos
  have hhops : hopsOf c.hop ([] : List F) [] = [] := by
    rw [hopsOf, windows_of_lt c.hop_pos]
    rfl
  constructor <;> simp [hmic, href, haecMic, haecRef, hafter, hnone, hwait, hhops]

/-- **A frame keeps microphone and reference in step**, and brings as much of the one as of the
other. -/
theorem connAppend_aligned (ha : Aligned tap c conn h) (audio reference : List F) :
    ∃ conn' r, connAppend c audio reference conn = .ok (conn', r) ∧
      Aligned tap c conn' (h.next conn (.append audio reference) (some r)) ∧
      (conn.aec.isSome → ∃ ref, r.reference = some ref ∧ ref.length = r.resampled.length) := by
  have hs := started_fresh tap
  have hplayed : (h.played ++ playedPcm audio reference).length = (h.audio ++ audio).length := by
    simp [ha.played, length_playedPcm]
  have hmic := push_streamAfter hs h.audio audio
  cases haec : conn.aec with
  | none =>
    refine ⟨{ conn with micResample := streamAfter (fresh tap) (h.audio ++ audio) },
      { resampled := resampledNext (fresh tap) h.audio audio
        reference := none
        pcm := resampledNext (fresh tap) h.audio audio }, ?_, ?_, ?_⟩
    · unfold connAppend
      rw [ha.mic, hmic]
      simp only [bind, Except.bind, haec]
      rfl
    · constructor <;> simp [Heard.next, haec, ha.played, length_playedPcm]
    · intro hon
      simp at hon
  | some aec =>
    have hon : conn.aec.isSome := by rw [haec]; rfl
    have href := push_streamAfter hs h.played (playedPcm audio reference)
    have hnext := length_resampledNext hs ha.played.symm (length_playedPcm audio reference).symm
    obtain ⟨conn', r, hrun, hmicKept, hrefKept, hmicWaits, hrefWaits, hresampled, hreference, hhops⟩ :=
      @connCancelEcho_hops F A _ c { conn with
          micResample := streamAfter (fresh tap) (h.audio ++ audio)
          refResample := streamAfter (fresh tap) (h.played ++ playedPcm audio reference) }
        _ _ _ _ aec (length_resampledBy ha.played.symm) hnext (ha.aecMic hon) (ha.aecRef hon)
    rw [← resampledBy_append hs] at hmicWaits hrefWaits
    rw [← resampledBy_append hs, ← resampledBy_append hs] at hhops
    refine ⟨conn', r, ?_, ⟨hmicKept, hplayed, fun _ => hrefKept, fun _ => hmicWaits,
      fun _ => hrefWaits, fun _ => ?_⟩, ?_⟩
    · unfold connAppend
      rw [ha.mic, hmic]
      simp only [bind, Except.bind, haec]
      rw [ha.ref hon, href]
      simp only [haec] at hrun
      exact hrun
    · simp only [Heard.next, Option.map_some, Option.getD_some]
      rw [ha.hops hon, hhops]
    · rw [hresampled]
      exact fun _ => ⟨_, hreference, hnext.symm⟩

/-- **Every frame of a client keeps them in step.** -/
theorem connFrame_aligned (ha : Aligned tap c conn h) (event : Event F A) :
    ∃ conn' report, connFrame tap c conn event = .ok (conn', report) ∧
      Aligned tap c conn' (h.next conn event report) ∧
      ∀ r, report = some r → conn.aec.isSome →
        ∃ ref, r.reference = some ref ∧ ref.length = r.resampled.length := by
  cases event with
  | update opened patch =>
    by_cases hchange : Changes patch conn
    · refine ⟨restarted tap opened patch, none, ?_, ?_, ?_⟩
      · rw [connFrame, connApplyEcho_eq hchange]
        rfl
      · rw [Heard.next, if_pos hchange]
        exact aligned_start rfl rfl rfl rfl
      · intro r hr
        cases hr
    · refine ⟨conn, none, ?_, ?_, ?_⟩
      · rw [connFrame, connApplyEcho, if_neg hchange]
        rfl
      · rw [Heard.next, if_neg hchange]
        exact ha
      · intro r hr
        cases hr
  | append audio reference =>
    obtain ⟨conn', r, hrun, haligned, hlength⟩ := connAppend_aligned ha audio reference
    refine ⟨conn', some r, ?_, haligned, ?_⟩
    · rw [connFrame, hrun]
      rfl
    · intro r' hr
      cases hr
      exact hlength

theorem Reached.aligned (hr : Reached tap c conn h) : Aligned tap c conn h := by
  induction hr with
  | opened hopen =>
    rw [connOpen_eq] at hopen
    obtain rfl := Except.ok.inj hopen
    exact aligned_start rfl rfl rfl rfl
  | frame _ hframe ih =>
    obtain ⟨conn', report, hrun, haligned, -⟩ := connFrame_aligned ih _
    rw [hrun] at hframe
    obtain ⟨rfl, rfl⟩ := Prod.mk.inj (Except.ok.inj hframe)
    exact haligned

/-- **The reference stays in step.**  However updates and frames follow each other, no frame reads
past what waits; under a canceller it brings as much reference as microphone, less than a hop waits
after it, as much on both sides, and the hops handed over are those of the two streams since the
canceller started, place by place: two connections given the same streams hand over the same
hops. -/
theorem echo_aligned (hr : Reached tap c conn h) :
    (∀ event, ∃ conn' report, connFrame tap c conn event = .ok (conn', report) ∧
      ∀ r, report = some r → conn.aec.isSome →
        ∃ ref, r.reference = some ref ∧ ref.length = r.resampled.length) ∧
    (conn.aec.isSome →
      conn.aecMic.length = conn.aecRef.length ∧ conn.aecMic.length < c.hop ∧
      h.audio.length = h.played.length ∧
      (resampledBy (fresh tap) h.audio).length = (resampledBy (fresh tap) h.played).length ∧
      h.hops = hopsOf c.hop (resampledBy (fresh tap) h.audio) (resampledBy (fresh tap) h.played)) ∧
    ∀ conn' h', Reached tap c conn' h' → conn.aec.isSome → conn'.aec.isSome →
      h'.audio = h.audio → h'.played = h.played → h'.hops = h.hops := by
  have ha := hr.aligned
  refine ⟨fun event => ?_, fun hon => ?_, fun conn' h' hr' hon hon' haudio hplayed => ?_⟩
  · obtain ⟨conn', report, hrun, -, hlength⟩ := connFrame_aligned ha event
    exact ⟨conn', report, hrun, hlength⟩
  · have hlen := @length_resampledBy F _ _ _ (fresh tap) _ _ ha.played.symm
    refine ⟨?_, ?_, ha.played.symm, hlen, ha.hops hon⟩
    · rw [ha.aecMic hon, ha.aecRef hon, length_leftover_eq hlen]
    · rw [ha.aecMic hon]
      exact length_leftover_lt c.hop_pos le_rfl _
  · rw [hr'.aligned.hops hon', ha.hops hon, haudio, hplayed]

end Run

/-- A canceller that hands the microphone back. -/
def through : Canceller ℤ Unit := ⟨4, by decide, fun _ mic _ => ((), .ok mic)⟩

/-- Every sample at the centre of the window. -/
def centre : ℕ → ℕ → ℕ → ℕ → ℤ := fun _ _ _ k => if k = 10 then 1 else 0

/-- A client that asks for a canceller. -/
def asks : Patch := { echo := ascii "server" }

/-- A canceller asked for, and a frame without its reference. -/
theorem echo_aligned_silent :
    (restarted centre (some ()) asks).aecMic.length = (restarted centre (some ()) asks).aecRef.length ∧
    ∃ conn' report, connFrame centre through (restarted centre (some ()) asks)
        (.append (List.replicate 30 5) []) = .ok (conn', report) ∧
      ∀ r, report = some r →
        ∃ ref, r.reference = some ref ∧ ref.length = r.resampled.length := by
  have hopened : Reached centre through { micResample := fresh centre, refResample := fresh centre } {} :=
    .opened connOpen_eq
  have hframe : connFrame centre through
      { micResample := fresh centre, refResample := fresh centre } (.update (some ()) asks) =
      .ok (restarted centre (some ()) asks, none) := by
    rw [connFrame, connApplyEcho_eq (by decide)]
    rfl
  have hon : (restarted centre (some ()) asks).aec.isSome := by decide
  obtain ⟨hframes, hwaits, -⟩ := echo_aligned (.frame hopened hframe)
  obtain ⟨conn', report, hrun, hlength⟩ := hframes (.append (List.replicate 30 5) [])
  exact ⟨(hwaits hon).1, conn', report, hrun, fun r hr => hlength r hr hon⟩

end Echo
end S2S
