/-
# How often a request is sent

An exchange that finds its session forgotten opens a new one and is repeated
without a further retry.  The handshake it opens it with is made of two
exchanges of their own, each with a retry of its own: a server that forgets the
session it is just giving leads from one handshake into the next, and one that
always does, for ever.

`Trap` is the replies that lead there.  Without it an exchange is
`exchangeOnce`: at most two posts and one handshake.  With it a second
handshake starts inside the first, whatever comes next.
-/

import S2S.Mcp.Exchange

namespace S2S
namespace Mcp

open Json Http

variable (spell : Bytes → Decimal) (programVersion : Bytes) (server : ℕ → Reply)

/-! ### Depth -/

/-- **A deeper bound changes nothing to an answer.** -/
theorem mcp_mono (fuel : ℕ) :
    (∀ {within request id retry w p},
      mcpExchange spell programVersion server fuel within request id retry w = some p →
      mcpExchange spell programVersion server (fuel + 1) within request id retry w = some p) ∧
    (∀ {within request w p},
      mcpRequest spell programVersion server fuel within request w = some p →
      mcpRequest spell programVersion server (fuel + 1) within request w = some p) ∧
    (∀ {within w p},
      mcpClientOpenSession spell programVersion server fuel within w = some p →
      mcpClientOpenSession spell programVersion server (fuel + 1) within w = some p) := by
  induction fuel with
  | zero => exact ⟨fun h => by simp [mcpExchange] at h, fun h => by simp [mcpRequest] at h,
      fun h => by simp [mcpClientOpenSession] at h⟩
  | succ fuel ih =>
    obtain ⟨ihe, ihr, iho⟩ := ih
    refine ⟨fun {within request id retry w p} h => ?_, fun {within request w p} h => ?_,
      fun {within w p} h => ?_⟩
    · rw [mcpExchange] at h ⊢
      split_ifs at h ⊢ with hf
      · split at h
        · simp at h
        · rename_i e w' ho
          rw [iho ho]
          exact h
        · rename_i u w' ho
          rw [iho ho]
          exact ihe h
      · exact h
    · rw [mcpRequest] at h ⊢
      split at h
      · simp at h
      · rename_i e w' he
        rw [ihe he]
        exact h
      · rename_i message w' he
        rw [ihe he]
        exact h
    · rw [mcpClientOpenSession] at h ⊢
      split at h
      · simp at h
      · rename_i e w' hr
        rw [ihr hr]
        exact h
      · rename_i result w' hr
        rw [ihr hr]
        dsimp only
        split at h
        · exact h
        · split at h
          · simp at h
          · rename_i e w'' he
            rw [ihe he]
            exact h
          · rename_i u w'' he
            rw [ihe he]
            exact h

/-- **A log only grows.** -/
theorem mcp_log (fuel : ℕ) :
    (∀ {within request id retry w r w'},
      mcpExchange spell programVersion server fuel within request id retry w = some (r, w') →
      (w.post (within ++ [id]) request).log <+: w'.log) ∧
    (∀ {within request w r w'},
      mcpRequest spell programVersion server fuel within request w = some (r, w') →
      w.log <+: w'.log) ∧
    (∀ {within w r w'},
      mcpClientOpenSession spell programVersion server fuel within w = some (r, w') →
      w.log <+: w'.log) := by
  induction fuel with
  | zero => exact ⟨fun h => by simp [mcpExchange] at h, fun h => by simp [mcpRequest] at h,
      fun h => by simp [mcpClientOpenSession] at h⟩
  | succ fuel ih =>
    obtain ⟨ihe, ihr, iho⟩ := ih
    refine ⟨fun {within request id retry w r w'} h => ?_, fun {within request w r w'} h => ?_,
      fun {within w r w'} h => ?_⟩
    · rw [mcpExchange] at h
      split_ifs at h with hf
      · split at h
        · simp at h
        · rename_i e w₁ ho
          obtain ⟨rfl, rfl⟩ := Prod.mk.inj (Option.some.inj h)
          exact (List.prefix_append _ _).trans (iho ho)
        · rename_i u w₁ ho
          exact ((List.prefix_append _ _).trans (iho ho)).trans
            ((List.prefix_append _ _).trans (ihe h))
      · obtain ⟨rfl, rfl⟩ := Prod.mk.inj (Option.some.inj h)
        exact List.prefix_rfl
    · rw [mcpRequest] at h
      split at h
      · simp at h
      all_goals
        rename_i w₁ he
        obtain ⟨rfl, rfl⟩ := Prod.mk.inj (Option.some.inj h)
        exact (List.prefix_append _ _).trans (ihe he)
    · rw [mcpClientOpenSession] at h
      split at h
      · simp at h
      · rename_i e w₁ hr
        obtain ⟨rfl, rfl⟩ := Prod.mk.inj (Option.some.inj h)
        have h₁ : w.takeId.log <+: w₁.log := ihr hr
        exact h₁
      · rename_i result w₁ hr
        have h₁ : w.takeId.log <+: w₁.log := ihr hr
        split at h
        · obtain ⟨rfl, rfl⟩ := Prod.mk.inj (Option.some.inj h)
          exact h₁
        · split at h
          · simp at h
          all_goals
            rename_i w₂ he
            have h₂ : _ <+: w₂.log := ihe he
            obtain ⟨rfl, rfl⟩ := Prod.mk.inj (Option.some.inj h)
            exact h₁.trans ((List.prefix_append _ _).trans h₂)

/-! ### Runs without a second handshake -/

/-- What an exchange makes of `initialize`, when it agrees on a version: the
result and that version. -/
def agreed (r : Except Bytes Bytes) : Option (Value × Bytes) :=
  match r with
  | .error _ => none
  | .ok message =>
    match readResult message with
    | .error _ => none
    | .ok result =>
      match readVersion result with
      | .error _ => none
      | .ok version => some (result, version)

/-- What the reply to `initialize` gives. -/
def accepted (id : ℤ) (reply : Reply) : Option (Value × Bytes) := agreed (readReply spell id reply)

/-- The replies from number `k` on that lead from a handshake into another: the
one to `initialize` names a session it no longer knows, or the handshake goes
on to its notification and the reply to that one does. -/
def HandshakeReopens (session : Bytes) (k : ℕ) (id : ℤ) : Prop :=
  forgets session (server k) = true ∨
    (accepted spell id (server k)).isSome ∧
      forgets (sessionAfter session (server k)) (server (k + 1)) = true

/-- A handshake whose exchanges find their session. -/
def handshake (within : List ℤ) (w : World) : Except Bytes Unit × World :=
  let id := w.client.nextId
  let reply := server w.posted
  let w := (w.takeId.post (within ++ [id])
    (mcpMessageEnd (initializeMessage programVersion id))).hear reply
  match readReply spell id reply with
  | .error e => (.error e, w)
  | .ok message =>
    match readResult message with
    | .error e => (.error e, w)
    | .ok result =>
      match readVersion result with
      | .error e => (.error e, w.agree (readServerName result) w.client.version)
      | .ok version =>
        let reply := server w.posted
        let w := ((w.agree (readServerName result) version).post (within ++ [0])
          (mcpMessageEnd initializedMessage)).hear reply
        match readReply spell 0 reply with
        | .error e => (.error e, w)
        | .ok _ => (.ok (), w.opened)

/-- An exchange that finds its session, or is not to retry, is one post. -/
theorem mcpExchange_plain (fuel : ℕ) (within : List ℤ) (request : Bytes) (id : ℤ) (retry : Bool)
    {w : World} (h : (forgets w.client.session (server w.posted) && retry) = false) :
    mcpExchange spell programVersion server (fuel + 1) within request id retry w
      = some (readReply spell id (server w.posted),
          (w.post (within ++ [id]) request).hear (server w.posted)) := by
  rw [mcpExchange]
  exact if_neg (by simp [h])

theorem mcpClientOpenSession_eq_handshake {fuel : ℕ} {within : List ℤ} {w : World}
    (h : ¬HandshakeReopens spell server w.client.session w.posted w.client.nextId) :
    mcpClientOpenSession spell programVersion server (fuel + 3) within w
      = some (handshake spell programVersion server within w) := by
  obtain ⟨h₁, h₂⟩ := not_or.1 h
  have hfirst := mcpExchange_plain spell programVersion server fuel within
    (mcpMessageEnd (initializeMessage programVersion w.client.nextId)) w.client.nextId true
    (w := w.takeId) (by simpa using h₁)
  rw [mcpClientOpenSession, mcpRequest, initializeMessage_id, hfirst, handshake]
  simp only [World.posted_takeId]
  cases hr : readReply spell w.client.nextId (server w.posted) with
  | error e => rfl
  | ok message =>
    cases hm : readResult message with
    | error e => simp only [hm]
    | ok result =>
      cases hv : readVersion result with
      | error e => simp only [hm, hv]
      | ok version =>
        have haccepted : accepted spell w.client.nextId (server w.posted)
            = some (result, version) := by simp [accepted, agreed, hr, hm, hv]
        simp only [haccepted, Option.isSome_some, true_and] at h₂
        simp only [hm, hv]
        rw [mcpExchange_plain _ _ _ _ _ _ _ _ (by simpa using h₂), World.posted_agree]
        cases readReply spell 0 _ <;> rfl

/-- The replies from number `k` on that lead an exchange into a handshake and
this one into another, `id` the id of the first request of the handshake. -/
def Trap (session : Bytes) (k : ℕ) (id : ℤ) : Prop :=
  forgets session (server k) = true ∧ HandshakeReopens spell server [] (k + 1) id

/-- An exchange whose handshake, if it needs one, finds its session. -/
def exchangeOnce (within : List ℤ) (request : Bytes) (id : ℤ) (w : World) :
    Except Bytes Bytes × World :=
  let reply := server w.posted
  let heard := (w.post (within ++ [id]) request).hear reply
  if forgets w.client.session reply then
    match handshake spell programVersion server (within ++ [id]) (heard.reopen (within ++ [id])) with
    | (.error e, w) => (.error e, w)
    | (.ok _, w) =>
      (readReply spell id (server w.posted), (w.post (within ++ [id]) request).hear (server w.posted))
  else (readReply spell id reply, heard)

/-- **An exchange away from the trap.** -/
theorem mcpExchange_eq_exchangeOnce (fuel : ℕ) (within : List ℤ) (request : Bytes) (id : ℤ)
    {w : World} (h : ¬Trap spell server w.client.session w.posted w.client.nextId) :
    mcpExchange spell programVersion server (fuel + 4) within request id true w
      = some (exchangeOnce spell programVersion server within request id w) := by
  rw [mcpExchange, exchangeOnce]
  cases hf : forgets w.client.session (server w.posted) with
  | false => rfl
  | true =>
    have hh : ¬HandshakeReopens spell server [] (w.posted + 1) w.client.nextId :=
      fun hh => h ⟨hf, hh⟩
    simp only [Bool.and_true, if_true]
    rw [mcpClientOpenSession_eq_handshake _ _ _ (by simpa using hh)]
    cases handshake spell programVersion server (within ++ [id])
      (((w.post (within ++ [id]) request).hear (server w.posted)).reopen (within ++ [id])) with
    | mk r w' =>
      cases r with
      | error e => rfl
      | ok u => exact mcpExchange_plain _ _ _ _ _ _ _ _ (by simp)

/-! ### Counting -/

/-- A post with that tag: the first id is the request at the top. -/
def Item.isPost (tag : List ℤ) : Item → Bool
  | .post t _ _ _ => decide (t = tag)
  | .reopen _ => false

/-- A session opened anew on behalf of request `id` at the top. -/
def Item.isReopen (id : ℤ) : Item → Bool
  | .post _ _ _ _ => false
  | .reopen tag => decide (tag.head? = some id)

/-- How often request `id` at the top was posted. -/
def World.posts (w : World) (id : ℤ) : ℕ := w.log.countP (Item.isPost [id])

/-- How many sessions were opened anew for it. -/
def World.reopens (w : World) (id : ℤ) : ℕ := w.log.countP (Item.isReopen id)

section Counts

variable (w : World) (tag : List ℤ) (request : Bytes) (reply : Reply) (name version : Bytes) (i : ℤ)

@[simp] theorem World.posts_post :
    (w.post tag request).posts i = w.posts i + if tag = [i] then 1 else 0 := by
  simp [World.posts, World.post, Item.isPost, List.countP_singleton]

@[simp] theorem World.posts_reopen : (w.reopen tag).posts i = w.posts i := by
  simp [World.posts, World.reopen, Item.isPost]

@[simp] theorem World.posts_hear : (w.hear reply).posts i = w.posts i := rfl

@[simp] theorem World.posts_takeId : w.takeId.posts i = w.posts i := rfl

@[simp] theorem World.posts_agree : (w.agree name version).posts i = w.posts i := rfl

@[simp] theorem World.posts_opened : w.opened.posts i = w.posts i := rfl

@[simp] theorem World.reopens_post : (w.post tag request).reopens i = w.reopens i := by
  simp [World.reopens, World.post, Item.isReopen]

@[simp] theorem World.reopens_reopen :
    (w.reopen tag).reopens i = w.reopens i + if tag.head? = some i then 1 else 0 := by
  simp [World.reopens, World.reopen, Item.isReopen, List.countP_singleton]

@[simp] theorem World.reopens_hear : (w.hear reply).reopens i = w.reopens i := rfl

@[simp] theorem World.reopens_takeId : w.takeId.reopens i = w.reopens i := rfl

@[simp] theorem World.reopens_agree : (w.agree name version).reopens i = w.reopens i := rfl

@[simp] theorem World.reopens_opened : w.opened.reopens i = w.reopens i := rfl

end Counts

theorem reopens_le_of_prefix {w w' : World} (h : w.log <+: w'.log) (i : ℤ) :
    w.reopens i ≤ w'.reopens i :=
  h.sublist.countP_le

/-- A handshake inside an exchange posts under the tag of that exchange. -/
theorem handshake_counts (within : List ℤ) (w : World) (i : ℤ) (h : within ≠ []) :
    (handshake spell programVersion server within w).2.posts i = w.posts i ∧
      (handshake spell programVersion server within w).2.reopens i = w.reopens i := by
  have htag : ∀ x, within ++ [x] ≠ [i] := fun x hx => by
    have := congrArg List.length hx
    cases within <;> simp at h this
  unfold handshake
  dsimp only
  split
  · simp [htag]
  · split
    · simp [htag]
    · split
      · simp [htag]
      · split <;> simp [htag]

/-- **Away from the trap, an exchange posts its request twice at most, with one
handshake between.** -/
theorem exchangeOnce_counts (request : Bytes) (id : ℤ) (w : World) (i : ℤ) :
    (exchangeOnce spell programVersion server [] request id w).2.posts i
        ≤ w.posts i + (if id = i then 2 else 0) ∧
      (exchangeOnce spell programVersion server [] request id w).2.reopens i
        ≤ w.reopens i + (if id = i then 1 else 0) := by
  unfold exchangeOnce
  dsimp only
  by_cases hf : forgets w.client.session (server w.posted) = true
  · have hc := handshake_counts spell programVersion server [id]
      (((w.post [id] request).hear (server w.posted)).reopen [id]) i (by simp)
    rw [if_pos hf, List.nil_append]
    cases hh : handshake spell programVersion server [id]
      (((w.post [id] request).hear (server w.posted)).reopen [id]) with
    | mk r w' =>
      simp only [hh, World.posts_reopen, World.posts_hear, World.posts_post, World.reopens_reopen,
        World.reopens_hear, World.reopens_post, List.head?_cons, Option.some.injEq,
        List.cons.injEq, and_true] at hc
      obtain ⟨hposts, hreopens⟩ := hc
      cases r with
      | error e =>
        dsimp only
        split_ifs at * <;> omega
      | ok u =>
        simp only [World.posts_hear, World.posts_post, World.reopens_hear, World.reopens_post,
          List.cons.injEq, and_true]
        split_ifs at * <;> omega
  · rw [if_neg hf]
    by_cases hi : id = i <;> simp [hi]

/-! ### The trap -/

theorem mcpExchange_reopens {fuel : ℕ} {within : List ℤ} {request : Bytes} {id : ℤ} {w w' : World}
    {r : Except Bytes Bytes} (hf : forgets w.client.session (server w.posted) = true)
    (h : mcpExchange spell programVersion server fuel within request id true w = some (r, w')) :
    ∃ fuel' r' w₁, mcpClientOpenSession spell programVersion server fuel' (within ++ [id])
      (((w.post (within ++ [id]) request).hear (server w.posted)).reopen (within ++ [id]))
        = some (r', w₁) ∧ w₁.log <+: w'.log := by
  cases fuel with
  | zero => simp [mcpExchange] at h
  | succ fuel =>
    rw [mcpExchange, hf] at h
    simp only [Bool.and_true, if_true] at h
    split at h
    · simp at h
    · rename_i e w₁ ho
      obtain ⟨rfl, rfl⟩ := Prod.mk.inj (Option.some.inj h)
      exact ⟨fuel, _, _, ho, List.prefix_rfl⟩
    · rename_i u w₁ ho
      exact ⟨fuel, _, _, ho, (List.prefix_append _ _).trans ((mcp_log _ _ _ fuel).1 h)⟩

/-- **The two exchanges of a handshake**: the second one follows the first when
that one agreed on a version. -/
theorem mcpClientOpenSession_cases {fuel : ℕ} {within : List ℤ} {w w' : World}
    {r : Except Bytes Unit}
    (h : mcpClientOpenSession spell programVersion server fuel within w = some (r, w')) :
    ∃ fuel₁ r₁ w₁, mcpExchange spell programVersion server fuel₁ within
        (mcpMessageEnd (initializeMessage programVersion w.client.nextId)) w.client.nextId true
        w.takeId = some (r₁, w₁) ∧ w₁.log <+: w'.log ∧
      ∀ result version, agreed r₁ = some (result, version) → ∃ fuel₂ r₂ w₂,
        mcpExchange spell programVersion server fuel₂ within (mcpMessageEnd initializedMessage) 0
          true (w₁.agree (readServerName result) version) = some (r₂, w₂) ∧ w₂.log <+: w'.log := by
  cases fuel with
  | zero => simp [mcpClientOpenSession] at h
  | succ fuel =>
    cases fuel with
    | zero => simp [mcpClientOpenSession, mcpRequest] at h
    | succ fuel =>
      rw [mcpClientOpenSession, mcpRequest, initializeMessage_id] at h
      cases he : mcpExchange spell programVersion server fuel within
        (mcpMessageEnd (initializeMessage programVersion w.client.nextId)) w.client.nextId true
        w.takeId with
      | none => simp [he] at h
      | some p =>
        obtain ⟨r₁, w₁⟩ := p
        rw [he] at h
        refine ⟨fuel, r₁, w₁, he, ?_⟩
        cases r₁ with
        | error e =>
          obtain ⟨rfl, rfl⟩ := Prod.mk.inj (Option.some.inj h)
          exact ⟨List.prefix_rfl, fun result version ha => by simp [agreed] at ha⟩
        | ok message =>
          simp only [agreed]
          dsimp only at h
          cases hm : readResult message with
          | error e =>
            rw [hm] at h
            obtain ⟨rfl, rfl⟩ := Prod.mk.inj (Option.some.inj h)
            exact ⟨List.prefix_rfl, fun result version ha => by simp at ha⟩
          | ok result =>
            rw [hm] at h
            dsimp only at h ⊢
            cases hv : readVersion result with
            | error e =>
              rw [hv] at h
              obtain ⟨rfl, rfl⟩ := Prod.mk.inj (Option.some.inj h)
              exact ⟨List.prefix_rfl, fun result version ha => by simp at ha⟩
            | ok version =>
              rw [hv] at h
              dsimp only at h ⊢
              split at h
              · simp at h
              all_goals
                rename_i w₂ he₂
                have hlog : (w₁.agree (readServerName result) version).log <+: w₂.log :=
                  (List.prefix_append _ _).trans ((mcp_log _ _ _ _).1 he₂)
                obtain ⟨rfl, rfl⟩ := Prod.mk.inj (Option.some.inj h)
                refine ⟨hlog, fun result' version' ha => ?_⟩
                obtain ⟨rfl, rfl⟩ := Prod.mk.inj (Option.some.inj ha)
                exact ⟨_, _, w₂, he₂, List.prefix_rfl⟩

/-- One more session is opened on the way. -/
theorem mcpClientOpenSession_reopens {fuel : ℕ} {within : List ℤ} {w w' : World} {i : ℤ}
    {r : Except Bytes Unit} (hi : within.head? = some i)
    (hh : HandshakeReopens spell server w.client.session w.posted w.client.nextId)
    (h : mcpClientOpenSession spell programVersion server fuel within w = some (r, w')) :
    w.reopens i + 1 ≤ w'.reopens i := by
  have htag : ∀ x : ℤ, (within ++ [x]).head? = some i := fun x => by
    rw [List.head?_append, hi]
    rfl
  -- An exchange that finds its session forgotten logs the new one.
  have hlog : ∀ {fuel request id w r₁ w₁}, forgets w.client.session (server w.posted) = true →
      mcpExchange spell programVersion server fuel within request id true w = some (r₁, w₁) →
      w.reopens i + 1 ≤ w₁.reopens i := by
    intro fuel request id w r₁ w₁ hf he
    obtain ⟨_, _, w₂, ho, hpre⟩ := mcpExchange_reopens _ _ _ hf he
    have h₂ := reopens_le_of_prefix ((mcp_log _ _ _ _).2.2 ho) i
    have h₁ := reopens_le_of_prefix hpre i
    simp only [World.reopens_reopen, World.reopens_hear, World.reopens_post, htag, if_true] at h₂
    omega
  obtain ⟨fuel₁, r₁, w₁, he, hpre, hnext⟩ := mcpClientOpenSession_cases _ _ _ h
  have hle := reopens_le_of_prefix hpre i
  by_cases hf : forgets w.client.session (server w.posted) = true
  · have := hlog (w := w.takeId) (by simpa using hf) he
    simp only [World.reopens_takeId] at this
    omega
  · obtain ⟨ha, hf₂⟩ := hh.resolve_left hf
    obtain ⟨⟨result, version⟩, ha⟩ := Option.isSome_iff_exists.1 ha
    have hplain := (mcp_mono spell programVersion server fuel₁).1 he
    rw [mcpExchange_plain _ _ _ _ _ _ _ _ (by simpa using hf)] at hplain
    obtain ⟨rfl, rfl⟩ := Prod.mk.inj (Option.some.inj hplain)
    obtain ⟨fuel₂, r₂, w₂, he₂, hpre₂⟩ := hnext result version ha
    have := hlog (by simpa using hf₂) he₂
    have hle₂ := reopens_le_of_prefix hpre₂ i
    simp only [World.reopens_agree, World.reopens_hear, World.reopens_post,
      World.reopens_takeId] at this
    omega

/-- **In the trap, a second handshake starts inside the first.** -/
theorem mcpExchange_trap {fuel : ℕ} {request : Bytes} {id : ℤ} {w w' : World}
    {r : Except Bytes Bytes} (ht : Trap spell server w.client.session w.posted w.client.nextId)
    (h : mcpExchange spell programVersion server fuel [] request id true w = some (r, w')) :
    w.reopens id + 2 ≤ w'.reopens id := by
  obtain ⟨_, _, w₁, ho, hpre⟩ := mcpExchange_reopens _ _ _ ht.1 h
  have h₁ := mcpClientOpenSession_reopens _ _ _ (i := id) rfl (by simpa using ht.2) ho
  have h₂ := reopens_le_of_prefix hpre id
  simp only [World.reopens_reopen, World.reopens_hear, World.reopens_post, List.nil_append,
    List.head?_cons, if_true] at h₁
  omega

/-! ### Settling -/

/-- A run that ends, with no request of its own posted more than twice and no
more than one session opened anew for it. -/
def Settles {α : Type} (run : ℕ → Option (α × World)) : Prop :=
  ∃ fuel r w, run fuel = some (r, w) ∧ ∀ id, w.posts id ≤ 2 ∧ w.reopens id ≤ 1

/-- A reply that ends the handshake. -/
def acknowledged (reply : Reply) : Bool :=
  match readReply spell 0 reply with
  | .error _ => false
  | .ok _ => true

/-- The replies that lead the opening of a session into the trap: at its first
message, or at its second, which comes after one post, or after four when the
first was sent again. -/
def OpenTrap (session : Bytes) (id : ℤ) : Prop :=
  Trap spell server session 0 (id + 1) ∨
  (forgets session (server 0) = false ∧ (accepted spell id (server 0)).isSome ∧
    Trap spell server (sessionAfter session (server 0)) 1 (id + 1)) ∨
  (forgets session (server 0) = true ∧ (accepted spell (id + 1) (server 1)).isSome ∧
    acknowledged spell (server 2) = true ∧ (accepted spell id (server 3)).isSome ∧
    Trap spell server
      (sessionAfter (sessionAfter (sessionAfter [] (server 1)) (server 2)) (server 3)) 4 (id + 2))

theorem handshake_ok_iff (within : List ℤ) (w : World) :
    (handshake spell programVersion server within w).1 = .ok () ↔
      (accepted spell w.client.nextId (server w.posted)).isSome ∧
        acknowledged spell (server (w.posted + 1)) = true := by
  unfold handshake accepted agreed acknowledged
  dsimp only
  split
  · simp
  · split
    · simp
    · split
      · simp
      · simp only [World.posted_hear, World.posted_post, World.posted_takeId, Option.isSome_some,
          true_and]
        split <;> simp

theorem handshake_of_ok (within : List ℤ) {w : World}
    (h : (handshake spell programVersion server within w).1 = .ok ()) :
    (handshake spell programVersion server within w).2.posted = w.posted + 2 ∧
      (handshake spell programVersion server within w).2.client.nextId = w.client.nextId + 1 ∧
      (handshake spell programVersion server within w).2.client.session
        = sessionAfter (sessionAfter w.client.session (server w.posted)) (server (w.posted + 1)) := by
  unfold handshake at h ⊢
  dsimp only at h ⊢
  split at h
  · simp at h
  · split at h
    · simp at h
    · split at h
      · simp at h
      · split at h
        · simp at h
        · simp

/-- The second message of the opening, and whether it falls into the trap. -/
theorem second_trap_iff (request : Bytes) (id : ℤ) (c : Client) :
    (∃ x, agreed (exchangeOnce spell programVersion server [] request id
        (World.start c).takeId).1 = some x ∧
      Trap spell server
        (exchangeOnce spell programVersion server [] request id (World.start c).takeId).2.client.session
        (exchangeOnce spell programVersion server [] request id (World.start c).takeId).2.posted
        (exchangeOnce spell programVersion server [] request id
          (World.start c).takeId).2.client.nextId) ↔
    (forgets c.session (server 0) = false ∧ (accepted spell id (server 0)).isSome ∧
      Trap spell server (sessionAfter c.session (server 0)) 1 (c.nextId + 1)) ∨
    (forgets c.session (server 0) = true ∧ (accepted spell (c.nextId + 1) (server 1)).isSome ∧
      acknowledged spell (server 2) = true ∧ (accepted spell id (server 3)).isSome ∧
      Trap spell server
        (sessionAfter (sessionAfter (sessionAfter [] (server 1)) (server 2)) (server 3)) 4
        (c.nextId + 2)) := by
  have hsession : (World.start c).takeId.client.session = c.session := rfl
  have hposted : (World.start c).takeId.posted = 0 := rfl
  have hid : (World.start c).takeId.client.nextId = c.nextId + 1 := rfl
  unfold exchangeOnce
  cases hf : forgets c.session (server 0) with
  | false =>
    simp only [hsession, hposted, hf, Bool.false_eq_true, if_false, World.posted_hear,
      World.posted_post, World.session_hear, World.session_post, World.nextId_hear,
      World.nextId_post, hid, false_and, or_false, true_and]
    rw [exists_and_right, ← Option.isSome_iff_exists]
    rfl
  | true =>
    simp only [hsession, hposted, hf, if_true, Bool.true_eq_false, false_and, false_or, true_and]
    generalize hw : (((World.start c).takeId.post ([] ++ [id]) request).hear (server 0)).reopen
      ([] ++ [id]) = w
    have hok := handshake_ok_iff spell programVersion server ([] ++ [id]) w
    have hof := handshake_of_ok spell programVersion server ([] ++ [id]) (w := w)
    have hwp : w.posted = 1 := by rw [← hw]; rfl
    have hwi : w.client.nextId = c.nextId + 1 := by rw [← hw]; rfl
    have hws : w.client.session = [] := by rw [← hw]; rfl
    rw [hwp, hwi] at hok
    rw [hwp, hwi, hws] at hof
    cases hh : handshake spell programVersion server ([] ++ [id]) w with
    | mk r w' =>
      rw [hh] at hok hof
      cases r with
      | error e =>
        have hno : ¬((accepted spell (c.nextId + 1) (server 1)).isSome = true ∧
            acknowledged spell (server (1 + 1)) = true) := fun h => by simpa using hok.2 h
        simp only [agreed, reduceCtorEq, false_and, exists_false, false_iff]
        exact fun ⟨h₁, h₂, _⟩ => hno ⟨h₁, h₂⟩
      | ok u =>
        obtain ⟨h₁, h₂⟩ := hok.1 rfl
        obtain ⟨hp, hi, hs⟩ := hof rfl
        dsimp only at hp hi hs
        simp only [World.posted_hear, World.posted_post, World.session_hear, World.session_post,
          World.nextId_hear, World.nextId_post, hp, hi, hs, h₁, true_and]
        have hid₂ : c.nextId + 1 + 1 = c.nextId + 2 := by omega
        rw [exists_and_right, ← Option.isSome_iff_exists, hid₂]
        exact ⟨fun ⟨ha, ht⟩ => ⟨h₂, ha, ht⟩, fun ⟨_, ha, ht⟩ => ⟨ha, ht⟩⟩

theorem exchange_settles_iff (c : Client) (request : Bytes) (id : ℤ) :
    Settles (fun fuel => mcpExchange spell programVersion server fuel [] request id true
      (World.start c)) ↔ ¬Trap spell server c.session 0 c.nextId := by
  constructor
  · rintro ⟨fuel, r, w, h, hcount⟩ ht
    have h₂ := mcpExchange_trap spell programVersion server ht h
    have h₁ := (hcount id).2
    omega
  · intro ht
    refine ⟨4, (exchangeOnce spell programVersion server [] request id (World.start c)).1,
      (exchangeOnce spell programVersion server [] request id (World.start c)).2,
      mcpExchange_eq_exchangeOnce spell programVersion server 0 _ _ _ ht, fun i => ?_⟩
    obtain ⟨hp, hr⟩ := exchangeOnce_counts spell programVersion server request id (World.start c) i
    have hp₀ : (World.start c).posts i = 0 := rfl
    have hr₀ : (World.start c).reopens i = 0 := rfl
    constructor
    · split_ifs at hp <;> omega
    · split_ifs at hr <;> omega

theorem request_settles_iff (c : Client) (request : Message) :
    Settles (fun fuel => mcpRequest spell programVersion server fuel [] request (World.start c)) ↔
      ¬Trap spell server c.session 0 c.nextId := by
  rw [← exchange_settles_iff spell programVersion server c (mcpMessageEnd request) request.id]
  constructor
  · rintro ⟨fuel, r, w, h, hcount⟩
    cases fuel with
    | zero => simp [mcpRequest] at h
    | succ fuel =>
      simp only [mcpRequest] at h
      split at h
      · simp at h
      all_goals
        rename_i w₁ he
        obtain ⟨rfl, rfl⟩ := Prod.mk.inj (Option.some.inj h)
        exact ⟨fuel, _, _, he, hcount⟩
  · rintro ⟨fuel, r, w, h, hcount⟩
    cases r with
    | error e => exact ⟨fuel + 1, .error e, w, by simp [mcpRequest, h], hcount⟩
    | ok message => exact ⟨fuel + 1, readResult message, w, by simp [mcpRequest, h], hcount⟩

/-- Any bound that gives an answer away from the trap gives this one. -/
theorem eq_exchangeOnce_of_eq_some {fuel : ℕ} {within : List ℤ} {request : Bytes} {id : ℤ}
    {w : World} {p : Except Bytes Bytes × World}
    (ht : ¬Trap spell server w.client.session w.posted w.client.nextId)
    (h : mcpExchange spell programVersion server fuel within request id true w = some p) :
    p = exchangeOnce spell programVersion server within request id w := by
  have hmono : ∀ k, mcpExchange spell programVersion server (fuel + k) within request id true w
      = some p := by
    intro k
    induction k with
    | zero => exact h
    | succ k ih => exact (mcp_mono spell programVersion server (fuel + k)).1 ih
  have h₄ := hmono 4
  rw [mcpExchange_eq_exchangeOnce _ _ _ _ _ _ _ ht] at h₄
  exact (Option.some.inj h₄).symm

theorem openSession_settles_iff (c : Client) :
    Settles (fun fuel => mcpClientOpenSession spell programVersion server fuel []
      (World.start c)) ↔ ¬OpenTrap spell server c.session c.nextId := by
  have hn := c.nextId_pos
  have hstart : (World.start c).client.nextId = c.nextId := rfl
  rw [OpenTrap, ← second_trap_iff spell programVersion server
    (mcpMessageEnd (initializeMessage programVersion c.nextId)) c.nextId c]
  constructor
  · rintro ⟨fuel, r, w, h, hcount⟩ ht
    obtain ⟨fuel₁, r₁, w₁, he, hpre, hnext⟩ := mcpClientOpenSession_cases _ _ _ h
    rw [hstart] at he
    by_cases ht₁ : Trap spell server c.session 0 (c.nextId + 1)
    · have h₂ := mcpExchange_trap spell programVersion server ht₁ he
      have h₁ := reopens_le_of_prefix hpre c.nextId
      have := (hcount c.nextId).2
      omega
    · obtain ⟨⟨result, version⟩, ha, ht₂⟩ := ht.resolve_left ht₁
      have hp := eq_exchangeOnce_of_eq_some spell programVersion server ht₁ he
      rw [← hp] at ha ht₂
      obtain ⟨fuel₂, r₂, w₂, he₂, hpre₂⟩ := hnext result version ha
      have h₂ := mcpExchange_trap spell programVersion server
        (w := w₁.agree (readServerName result) version) ht₂ he₂
      have h₁ := reopens_le_of_prefix hpre₂ 0
      have := (hcount 0).2
      omega
  · intro ht
    obtain ⟨ht₁, ht₂⟩ := not_or.1 ht
    have hfirst := mcpExchange_eq_exchangeOnce spell programVersion server 0 []
      (mcpMessageEnd (initializeMessage programVersion c.nextId)) c.nextId (w := (World.start c).takeId) ht₁
    have hcount := exchangeOnce_counts spell programVersion server
      (mcpMessageEnd (initializeMessage programVersion c.nextId)) c.nextId (World.start c).takeId
    have hp₀ : ∀ i, (World.start c).takeId.posts i = 0 := fun _ => rfl
    have hr₀ : ∀ i, (World.start c).takeId.reopens i = 0 := fun _ => rfl
    simp only [hp₀, hr₀, zero_add] at hcount
    unfold Settles
    cases hp : exchangeOnce spell programVersion server []
      (mcpMessageEnd (initializeMessage programVersion c.nextId)) c.nextId
      (World.start c).takeId with
    | mk r₁ w₁ =>
      rw [hp] at hfirst hcount ht₂
      have hone : ∀ i, w₁.posts i ≤ 2 ∧ w₁.reopens i ≤ 1 := fun i => by
        obtain ⟨h₁, h₂⟩ := hcount i
        dsimp only at h₁ h₂
        constructor <;> split_ifs at * <;> omega
      cases r₁ with
      | error e =>
        exact ⟨6, .error e, w₁, by simp [mcpClientOpenSession, mcpRequest, hstart, hfirst], hone⟩
      | ok message =>
        cases hm : readResult message with
        | error e =>
          exact ⟨6, .error e, w₁, by
            simp [mcpClientOpenSession, mcpRequest, hstart, hfirst, hm], hone⟩
        | ok result =>
          cases hv : readVersion result with
          | error e =>
            exact ⟨6, .error e, w₁.agree (readServerName result) w₁.client.version, by
              simp [mcpClientOpenSession, mcpRequest, hstart, hfirst, hm, hv], hone⟩
          | ok version =>
            have ht₃ : ¬Trap spell server w₁.client.session w₁.posted w₁.client.nextId :=
              fun ht₃ => ht₂ ⟨(result, version), by simp [agreed, hm, hv], ht₃⟩
            have hsecond := mcpExchange_eq_exchangeOnce spell programVersion server 1 []
              (mcpMessageEnd initializedMessage) 0
              (w := w₁.agree (readServerName result) version) ht₃
            have hcount₂ := exchangeOnce_counts spell programVersion server
              (mcpMessageEnd initializedMessage) 0 (w₁.agree (readServerName result) version)
            cases hq : exchangeOnce spell programVersion server [] (mcpMessageEnd initializedMessage)
              0 (w₁.agree (readServerName result) version) with
            | mk r₂ w₂ =>
              rw [hq] at hsecond hcount₂
              have htwo : ∀ i, w₂.posts i ≤ 2 ∧ w₂.reopens i ≤ 1 := fun i => by
                obtain ⟨h₁, h₂⟩ := hcount i
                obtain ⟨h₃, h₄⟩ := hcount₂ i
                simp only [World.posts_agree, World.reopens_agree] at h₁ h₂ h₃ h₄
                constructor <;> split_ifs at * <;> omega
              cases r₂ with
              | error e =>
                exact ⟨6, .error e, w₂, by
                  simp [mcpClientOpenSession, mcpRequest, hstart, hfirst, hm, hv, hsecond], htwo⟩
              | ok none =>
                exact ⟨6, .ok (), w₂.opened, by
                  simp [mcpClientOpenSession, mcpRequest, hstart, hfirst, hm, hv, hsecond], htwo⟩

/-- **How often a request is sent.**  An exchange, a request and the opening of
a session end, with two posts of each message of theirs and one handshake
between at the most, exactly when the server's replies stay out of the trap. -/
theorem mcp_settles_iff (c : Client) (request : Bytes) (id : ℤ) (message : Message) :
    (Settles (fun fuel => mcpExchange spell programVersion server fuel [] request id true
        (World.start c)) ↔ ¬Trap spell server c.session 0 c.nextId) ∧
      (Settles (fun fuel => mcpRequest spell programVersion server fuel [] message
        (World.start c)) ↔ ¬Trap spell server c.session 0 c.nextId) ∧
      (Settles (fun fuel => mcpClientOpenSession spell programVersion server fuel []
        (World.start c)) ↔ ¬OpenTrap spell server c.session c.nextId) :=
  ⟨exchange_settles_iff spell programVersion server c request id,
    request_settles_iff spell programVersion server c message,
    openSession_settles_iff spell programVersion server c⟩

/-- A server that answers every post with a 404 and a session of its own. -/
def forgetful : ℕ → Reply := fun _ => ⟨.ok ⟨404, some (ascii "s"), [], []⟩, false⟩

/-- Against it no bound is enough: every handshake leads into the next. -/
theorem forgetful_never_ends (fuel : ℕ) :
    (∀ within request id w,
      mcpExchange spell programVersion forgetful fuel within request id true w = none) ∧
    (∀ within request w,
      mcpRequest spell programVersion forgetful fuel within request w = none) ∧
    (∀ within w, mcpClientOpenSession spell programVersion forgetful fuel within w = none) := by
  induction fuel with
  | zero => exact ⟨fun _ _ _ _ => rfl, fun _ _ _ => rfl, fun _ _ => rfl⟩
  | succ fuel ih =>
    obtain ⟨ihe, ihr, iho⟩ := ih
    refine ⟨fun within request id w => ?_, fun within request w => ?_, fun within w => ?_⟩
    · have hf : forgets w.client.session (forgetful w.posted) = true := by
        simp [forgets, forgetful, sessionAfter, ascii]
      rw [mcpExchange, hf, iho]
      rfl
    · rw [mcpRequest, ihe]
    · rw [mcpClientOpenSession, ihr]

/-- Neither a request nor the opening of a session ends there. -/
theorem forgetful_never_settles :
    ¬Settles (fun fuel => mcpExchange (fun _ => .zero) [] forgetful fuel []
        (ascii "ping") 1 true (World.start { params := { url := ascii "http://h" } })) ∧
      ¬Settles (fun fuel => mcpClientOpenSession (fun _ => .zero) [] forgetful
        fuel [] (World.start { params := { url := ascii "http://h" } })) := by
  constructor
  · rintro ⟨fuel, r, w, h, -⟩
    dsimp only at h
    rw [(forgetful_never_ends _ _ fuel).1] at h
    simp at h
  · rintro ⟨fuel, r, w, h, -⟩
    dsimp only at h
    rw [(forgetful_never_ends _ _ fuel).2.2] at h
    simp at h

end Mcp
end S2S
