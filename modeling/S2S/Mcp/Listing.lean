/-
# When a listing ends

`mcp_client_tools` of `src/mcp-client.cpp` asks for one page after another for
as long as the server names a cursor.  Nothing else bounds it: no count of the
pages, no memory of the cursors, and the route `/v1/tools` passes no cancel
flag.  A server that names the same cursor on every page is asked for ever
(`ring_never_ends`).

The condition is one on the replies.  `Listing` is what the client waits for
between two of them, and `Listing.step` what one reply makes of it: the end,
when the reply fails the request it comes for or is the last page.  The calls of
the client, with the handshakes they nest, follow that machine step by step
(`leads_mcp`, `ends_of_reads`), so the listing ends exactly when some reply ends
it.

The ids of the requests are 64 bit integers that the client counts up, and no
response can carry a larger one: a run that has counted past them is none that
returns.
-/

import S2S.Mcp.Client
import S2S.Mcp.Retry

namespace S2S
namespace Mcp

open Json Http Llm

/-! ### What the client waits for -/

/-- A message whose reply is to come: the first one of a handshake, the second one, or the request
for a page. -/
inductive Wait
  | first (id : ℤ)
  | second
  | page (id : ℤ)
  deriving DecidableEq

/-- The id it was sent with. -/
def Wait.id : Wait → ℤ
  | .first id => id
  | .second => 0
  | .page id => id

/-- A listing between two replies: the session, the id of the next request, whether the request
under way may be sent again, and the requests that wait, the one under way first. -/
structure Listing where
  session : Bytes
  nextId : ℤ
  retry : Bool
  waits : List Wait
  deriving DecidableEq

/-- The request for a page is on its way. -/
def Listing.paging (session : Bytes) (nextId : ℤ) : Listing :=
  ⟨session, nextId + 1, true, [.page nextId]⟩

/-- The first message of a handshake is on its way, for the requests `outer`. -/
def Listing.opening (session : Bytes) (nextId : ℤ) (outer : List Wait) : Listing :=
  ⟨session, nextId + 1, true, .first nextId :: outer⟩

/-- The listing of a client about to run. -/
def Listing.start (c : Client) : Listing :=
  if c.isOpen then .paging c.session c.nextId else .opening c.session c.nextId []

/-- A session was opened: the request that needed it is sent again, or the listing begins. -/
def Listing.opened (session : Bytes) (nextId : ℤ) : List Wait → Listing
  | [] => .paging session nextId
  | wait :: outer => ⟨session, nextId, false, wait :: outer⟩

/-- The request under way is answered by `message`: the listing goes on, or is over with the id
that its next request would have had. -/
def Listing.answered (session : Bytes) (nextId : ℤ) (outer : List Wait) (message : Bytes) :
    Wait → Except ℤ Listing
  | .first _ =>
    match readResult message with
    | .error _ => .error nextId
    | .ok result =>
      match readVersion result with
      | .error _ => .error nextId
      | .ok _ => .ok ⟨session, nextId, true, .second :: outer⟩
  | .second => .ok (.opened session nextId outer)
  | .page _ =>
    match readResult message with
    | .error _ => .error nextId
    | .ok result =>
      if textOf (result.get (ascii "nextCursor")) = [] then .error nextId
      else .ok (.paging session nextId)

section Machine

variable (spell : Bytes → Decimal)

/-- **What one reply makes of a listing.** -/
def Listing.step (l : Listing) (reply : Reply) : Except ℤ Listing :=
  match l.waits with
  | [] => .error l.nextId
  | wait :: outer =>
    if forgets l.session reply && l.retry then .ok (.opening [] l.nextId (wait :: outer))
    else
      match readReply spell wait.id reply with
      | .error _ => .error l.nextId
      | .ok message =>
        Listing.answered (sessionAfter l.session reply) l.nextId outer message wait

variable (server : ℕ → Reply)

/-- The listing after `n` replies, the first of them number `k`. -/
def reads : ℕ → ℕ → Except ℤ Listing → Except ℤ Listing
  | _, 0, l => l
  | k, n + 1, l => reads (k + 1) n (l.bind fun l => l.step spell (server k))

/-- From before reply `k` to before a later one. -/
def Leads (k : ℕ) (l : Except ℤ Listing) (k' : ℕ) (l' : Except ℤ Listing) : Prop :=
  ∃ n, 0 < n ∧ k' = k + n ∧ reads spell server k n l = l'

end Machine

section Machine

variable {spell : Bytes → Decimal} {server : ℕ → Reply}

theorem reads_error (k n : ℕ) (id : ℤ) : reads spell server k n (.error id) = .error id := by
  induction n generalizing k with
  | zero => rfl
  | succ n ih => exact ih (k + 1)

theorem reads_add (k m n : ℕ) (l : Except ℤ Listing) :
    reads spell server k (m + n) l = reads spell server (k + m) n (reads spell server k m l) := by
  induction m generalizing k l with
  | zero => rw [Nat.zero_add]; rfl
  | succ m ih =>
    rw [Nat.succ_add, reads, ih, reads]
    congr 1
    omega

theorem Leads.trans {k k' k'' : ℕ} {l l' l'' : Except ℤ Listing} (h : Leads spell server k l k' l')
    (h' : Leads spell server k' l' k'' l'') : Leads spell server k l k'' l'' := by
  obtain ⟨m, hm, rfl, rfl⟩ := h
  obtain ⟨n, hn, rfl, rfl⟩ := h'
  exact ⟨m + n, by omega, by omega, reads_add k m n l⟩

/-- One reply. -/
theorem Leads.one {k : ℕ} {l : Listing} {l' : Except ℤ Listing}
    (h : l.step spell (server k) = l') : Leads spell server k (.ok l) (k + 1) l' :=
  ⟨1, Nat.one_pos, rfl, h⟩

/-- What is over further on, is over. -/
theorem Leads.over {k k' n : ℕ} {l l' : Except ℤ Listing} {id : ℤ}
    (h : Leads spell server k l k' l') (hn : reads spell server k' n l' = .error id) :
    ∃ m, reads spell server k m l = .error id := by
  obtain ⟨i, -, rfl, rfl⟩ := h
  exact ⟨i + n, by rw [reads_add]; exact hn⟩

/-- A listing that goes on elsewhere, and is over in `n` replies, is over in fewer from there. -/
theorem Leads.left {k k' n : ℕ} {l : Except ℤ Listing} {l' : Listing} {id : ℤ}
    (h : Leads spell server k l k' (.ok l')) (hn : reads spell server k n l = .error id) :
    ∃ m < n, reads spell server k' m (.ok l') = .error id := by
  obtain ⟨i, hpos, rfl, hi⟩ := h
  have hle : i ≤ n := by
    by_contra hlt
    obtain ⟨j, rfl⟩ := Nat.exists_eq_add_of_le (Nat.le_of_not_le hlt)
    rw [reads_add, hn, reads_error] at hi
    simp at hi
  obtain ⟨m, rfl⟩ := Nat.exists_eq_add_of_le hle
  refine ⟨m, by omega, ?_⟩
  rw [← hi, ← reads_add]
  exact hn

/-! ### The calls follow the machine -/

/-- What the end of an exchange leaves of the listing. -/
def Listing.exchanged (c : Client) (wait : Wait) (outer : List Wait) :
    Except Bytes Bytes → Except ℤ Listing
  | .error _ => .error c.nextId
  | .ok message => Listing.answered c.session c.nextId outer message wait

/-- What the end of a handshake leaves of it. -/
def Listing.handshaken (c : Client) (outer : List Wait) : Except Bytes Unit → Except ℤ Listing
  | .error _ => .error c.nextId
  | .ok _ => .ok (.opened c.session c.nextId outer)

variable {programVersion : Bytes}

/-- **The calls read what the machine reads**, reply after reply, and end where it stands. -/
theorem leads_mcp (fuel : ℕ) :
    (∀ {within request retry w r w'} (wait : Wait) (outer : List Wait),
      mcpExchange spell programVersion server fuel within request wait.id retry w = some (r, w') →
      Leads spell server w.posted
        (.ok ⟨w.client.session, w.client.nextId, retry, wait :: outer⟩) w'.posted
        (Listing.exchanged w'.client wait outer r)) ∧
    (∀ {within message w r w'},
      mcpRequest spell programVersion server fuel within message w = some (r, w') →
      ∃ r₁, r = r₁.bind readResult ∧ ∀ (wait : Wait) (outer : List Wait), wait.id = message.id →
        Leads spell server w.posted
          (.ok ⟨w.client.session, w.client.nextId, true, wait :: outer⟩) w'.posted
          (Listing.exchanged w'.client wait outer r₁)) ∧
    (∀ {within w r w'} (outer : List Wait),
      mcpClientOpenSession spell programVersion server fuel within w = some (r, w') →
      Leads spell server w.posted (.ok (.opening w.client.session w.client.nextId outer))
        w'.posted (Listing.handshaken w'.client outer r)) := by
  induction fuel with
  | zero => exact ⟨fun _ _ h => by simp [mcpExchange] at h, fun h => by simp [mcpRequest] at h,
      fun _ h => by simp [mcpClientOpenSession] at h⟩
  | succ fuel ih =>
    obtain ⟨ihe, ihr, iho⟩ := ih
    refine ⟨fun {within request retry w r w'} wait outer h => ?_,
      fun {within message w r w'} h => ?_, fun {within w r w'} outer h => ?_⟩
    · rw [mcpExchange] at h
      split_ifs at h with hf
      · -- The session is gone: a handshake, and the request once more.
        have hpush : Leads spell server w.posted
            (.ok ⟨w.client.session, w.client.nextId, retry, wait :: outer⟩) (w.posted + 1)
            (.ok (.opening [] w.client.nextId (wait :: outer))) :=
          .one (if_pos hf)
        split at h
        · simp at h
        · rename_i e w₁ ho
          obtain ⟨rfl, rfl⟩ := Prod.mk.inj (Option.some.inj h)
          exact hpush.trans (iho (wait :: outer) ho)
        · rename_i u w₁ ho
          exact (hpush.trans (iho (wait :: outer) ho)).trans (ihe wait outer h)
      · obtain ⟨rfl, rfl⟩ := Prod.mk.inj (Option.some.inj h)
        refine .one ?_
        rw [Listing.step]
        dsimp only
        rw [if_neg hf]
        cases readReply spell wait.id (server w.posted) <;> rfl
    · rw [mcpRequest] at h
      split at h
      · simp at h
      · rename_i e w₁ he
        obtain ⟨rfl, rfl⟩ := Prod.mk.inj (Option.some.inj h)
        exact ⟨.error e, rfl, fun wait outer hid => ihe wait outer (hid ▸ he)⟩
      · rename_i m w₁ he
        obtain ⟨rfl, rfl⟩ := Prod.mk.inj (Option.some.inj h)
        exact ⟨.ok m, rfl, fun wait outer hid => ihe wait outer (hid ▸ he)⟩
    · rw [mcpClientOpenSession] at h
      split at h
      · simp at h
      · rename_i e w₁ hr
        obtain ⟨r₁, hr₁, hlead⟩ := ihr hr
        obtain ⟨rfl, rfl⟩ := Prod.mk.inj (Option.some.inj h)
        have hfirst := hlead (.first w.client.nextId) outer rfl
        cases r₁ with
        | error e' => exact hfirst
        | ok message =>
          have hm : readResult message = .error e := hr₁.symm
          simp only [Listing.exchanged, Listing.answered, hm] at hfirst
          exact hfirst
      · rename_i result w₁ hr
        obtain ⟨r₁, hr₁, hlead⟩ := ihr hr
        have hfirst := hlead (.first w.client.nextId) outer rfl
        cases r₁ with
        | error e' => simp [Except.bind] at hr₁
        | ok message =>
          have hm : readResult message = .ok result := hr₁.symm
          simp only [Listing.exchanged, Listing.answered, hm] at hfirst
          cases hv : readVersion result with
          | error e =>
            rw [hv] at h hfirst
            obtain ⟨rfl, rfl⟩ := Prod.mk.inj (Option.some.inj h)
            exact hfirst
          | ok version =>
            rw [hv] at h hfirst
            dsimp only at h
            split at h
            · simp at h
            · rename_i e w₂ he
              obtain ⟨rfl, rfl⟩ := Prod.mk.inj (Option.some.inj h)
              exact hfirst.trans (ihe .second outer he)
            · rename_i message w₂ he
              obtain ⟨rfl, rfl⟩ := Prod.mk.inj (Option.some.inj h)
              exact hfirst.trans (ihe .second outer he)

/-! ### The calls end with the machine -/

/-- A run that ends, given enough depth. -/
def Ends {α : Type} (run : ℕ → Option α) : Prop := ∃ fuel p, run fuel = some p

/-- What a deeper bound keeps by one, it keeps by any. -/
theorem eq_some_of_le {α : Type} {run : ℕ → Option α}
    (h : ∀ {n p}, run n = some p → run (n + 1) = some p) {m n : ℕ} (hle : m ≤ n) {p : α}
    (hm : run m = some p) : run n = some p := by
  induction n, hle using Nat.le_induction with
  | base => exact hm
  | succ n _ ih => exact h ih

/-- **Where the machine is over, the calls end.** -/
theorem ends_of_reads (n : ℕ) (id : ℤ) :
    (∀ within request (wait : Wait) (outer : List Wait) retry (w : World),
      reads spell server w.posted n
        (.ok ⟨w.client.session, w.client.nextId, retry, wait :: outer⟩) = .error id →
      Ends fun fuel =>
        mcpExchange spell programVersion server fuel within request wait.id retry w) ∧
    (∀ within (outer : List Wait) (w : World),
      reads spell server w.posted n
        (.ok (.opening w.client.session w.client.nextId outer)) = .error id →
      Ends fun fuel => mcpClientOpenSession spell programVersion server fuel within w) := by
  induction n using Nat.strong_induction_on with
  | _ n ih =>
    have hexchange : ∀ within request (wait : Wait) (outer : List Wait) retry (w : World),
        reads spell server w.posted n
          (.ok ⟨w.client.session, w.client.nextId, retry, wait :: outer⟩) = .error id →
        Ends fun fuel =>
          mcpExchange spell programVersion server fuel within request wait.id retry w := by
      intro within request wait outer retry w hn
      by_cases hf : (forgets w.client.session (server w.posted) && retry) = true
      · obtain _ | m := n
        · simp [reads] at hn
        · have hstep : Listing.step spell
              ⟨w.client.session, w.client.nextId, retry, wait :: outer⟩ (server w.posted) =
              .ok (.opening [] w.client.nextId (wait :: outer)) := if_pos hf
          rw [reads, Except.bind, hstep] at hn
          obtain ⟨fuel, ⟨r, w₁⟩, ho⟩ := (ih m (by omega)).2 (within ++ [wait.id]) (wait :: outer)
            (((w.post (within ++ [wait.id]) request).hear (server w.posted)).reopen
              (within ++ [wait.id])) hn
          dsimp only at ho
          have ho' := (mcp_mono spell programVersion server fuel).2.2 ho
          cases r with
          | error e =>
            refine ⟨fuel + 1, (.error e, w₁), ?_⟩
            simp only [mcpExchange]
            rw [if_pos hf, ho]
          | ok u =>
            refine ⟨fuel + 2, (readReply spell wait.id (server w₁.posted),
              (w₁.post (within ++ [wait.id]) request).hear (server w₁.posted)), ?_⟩
            simp only [mcpExchange]
            rw [if_pos hf, ho']
            exact mcpExchange_plain _ _ _ fuel within request wait.id false (by simp)
      · refine ⟨1, (readReply spell wait.id (server w.posted),
          (w.post (within ++ [wait.id]) request).hear (server w.posted)), ?_⟩
        simp only [mcpExchange]
        exact if_neg hf
    refine ⟨hexchange, fun within outer w hn => ?_⟩
    obtain ⟨fuel₁, ⟨r₁, w₁⟩, he₁⟩ := hexchange within
      (mcpMessageEnd (initializeMessage programVersion w.client.nextId))
      (.first w.client.nextId) outer true w.takeId hn
    change mcpExchange spell programVersion server fuel₁ within
      (mcpMessageEnd (initializeMessage programVersion w.client.nextId)) w.client.nextId true
      w.takeId = some (r₁, w₁) at he₁
    cases r₁ with
    | error e =>
      exact ⟨fuel₁ + 2, (.error e, w₁), by simp [mcpClientOpenSession, mcpRequest, he₁]⟩
    | ok message =>
      cases hm : readResult message with
      | error e =>
        exact ⟨fuel₁ + 2, (.error e, w₁), by simp [mcpClientOpenSession, mcpRequest, he₁, hm]⟩
      | ok result =>
        cases hv : readVersion result with
        | error e =>
          exact ⟨fuel₁ + 2, _, by simp [mcpClientOpenSession, mcpRequest, he₁, hm, hv]; rfl⟩
        | ok version =>
          have hlead := (leads_mcp fuel₁).1 (.first w.client.nextId) outer he₁
          simp only [Listing.exchanged, Listing.answered, hm, hv] at hlead
          obtain ⟨m, hlt, hreads⟩ := hlead.left hn
          obtain ⟨fuel₂, ⟨r₂, w₂⟩, he₂⟩ := (ih m hlt).1 within (mcpMessageEnd initializedMessage)
            .second outer true (w₁.agree (readServerName result) version) hreads
          have he₁' := eq_some_of_le (fun {fuel} => (mcp_mono spell programVersion server fuel).1)
            (le_max_left fuel₁ fuel₂) he₁
          have he₂' := eq_some_of_le (fun {fuel} => (mcp_mono spell programVersion server fuel).1)
            (Nat.le_succ_of_le (le_max_right fuel₁ fuel₂)) he₂
          change mcpExchange spell programVersion server (max fuel₁ fuel₂ + 1) within
            (mcpMessageEnd initializedMessage) 0 true
            (w₁.agree (readServerName result) version) = some (r₂, w₂) at he₂'
          cases r₂ with
          | error e =>
            exact ⟨max fuel₁ fuel₂ + 2, (.error e, w₂), by
              simp [mcpClientOpenSession, mcpRequest, he₁', hm, hv, he₂']⟩
          | ok message₂ =>
            exact ⟨max fuel₁ fuel₂ + 2, (.ok (), w₂.opened), by
              simp [mcpClientOpenSession, mcpRequest, he₁', hm, hv, he₂']⟩

/-! ### The pages -/

@[simp] theorem listMessage_id (id : ℤ) (cursor : Bytes) : (listMessage id cursor).id = id := by
  unfold listMessage
  dsimp only
  split_ifs <;> rfl

/-- A listing that ends has read its last reply. -/
theorem reads_of_pages {fuel : ℕ} {cursor : Bytes} {tools : List Tool} {w : World}
    {r : Except Bytes (List Tool)} {w' : World}
    (h : toolPages spell programVersion server fuel cursor tools w = some (r, w')) :
    ∃ n, reads spell server w.posted n (.ok (.paging w.client.session w.client.nextId)) =
      .error w'.client.nextId := by
  induction fuel generalizing cursor tools w with
  | zero => simp [toolPages] at h
  | succ fuel ih =>
    rw [toolPages] at h
    split at h
    · simp at h
    · rename_i e w₁ hr
      obtain ⟨r₁, hr₁, hlead⟩ := (leads_mcp fuel).2.1 hr
      obtain ⟨n, -, -, hn⟩ := hlead (.page w.client.nextId) [] (listMessage_id _ _).symm
      obtain ⟨rfl, rfl⟩ := Prod.mk.inj (Option.some.inj h)
      refine ⟨n, hn.trans ?_⟩
      cases r₁ with
      | error e' => rfl
      | ok message =>
        have hm : readResult message = .error e := hr₁.symm
        simp only [Listing.exchanged, Listing.answered, hm]
    · rename_i result w₁ hr
      obtain ⟨r₁, hr₁, hlead⟩ := (leads_mcp fuel).2.1 hr
      have hpage := hlead (.page w.client.nextId) [] (listMessage_id _ _).symm
      cases r₁ with
      | error e' => simp [Except.bind] at hr₁
      | ok message =>
        have hm : readResult message = .ok result := hr₁.symm
        simp only [Listing.exchanged, Listing.answered, hm] at hpage
        dsimp only at h
        split_ifs at h hpage with hlast
        · obtain ⟨n, -, -, hn⟩ := hpage
          obtain ⟨rfl, rfl⟩ := Prod.mk.inj (Option.some.inj h)
          exact ⟨n, hn⟩
        · obtain ⟨n, hn⟩ := ih h
          exact hpage.over hn


/-- A deeper bound changes nothing to the pages. -/
theorem toolPages_mono (fuel : ℕ) (cursor : Bytes) (tools : List Tool) (w : World)
    {p : Except Bytes (List Tool) × World}
    (h : toolPages spell programVersion server fuel cursor tools w = some p) :
    toolPages spell programVersion server (fuel + 1) cursor tools w = some p := by
  induction fuel generalizing cursor tools w with
  | zero => simp [toolPages] at h
  | succ fuel ih =>
    rw [toolPages] at h ⊢
    split at h
    · simp at h
    · rename_i e w₁ hr
      rw [(mcp_mono spell programVersion server fuel).2.1 hr]
      exact h
    · rename_i result w₁ hr
      rw [(mcp_mono spell programVersion server fuel).2.1 hr]
      dsimp only at h ⊢
      split_ifs at h ⊢ with hlast
      · exact h
      · exact ih _ _ _ h

/-- **Where the machine is over, the pages end.** -/
theorem pages_of_reads {n : ℕ} {id : ℤ} (cursor : Bytes) (tools : List Tool) (w : World)
    (hn : reads spell server w.posted n (.ok (.paging w.client.session w.client.nextId)) =
      .error id) :
    Ends fun fuel => toolPages spell programVersion server fuel cursor tools w := by
  induction n using Nat.strong_induction_on generalizing cursor tools w with
  | _ n ih =>
    obtain ⟨fuel₁, ⟨r₁, w₁⟩, he⟩ := (ends_of_reads n id).1 []
      (mcpMessageEnd (listMessage w.client.nextId cursor)) (.page w.client.nextId) [] true
      w.takeId hn
    change mcpExchange spell programVersion server fuel₁ []
      (mcpMessageEnd (listMessage w.client.nextId cursor)) w.client.nextId true w.takeId =
        some (r₁, w₁) at he
    cases r₁ with
    | error e =>
      exact ⟨fuel₁ + 2, (.error e, w₁), by simp [toolPages, mcpRequest, he]⟩
    | ok message =>
      cases hm : readResult message with
      | error e => exact ⟨fuel₁ + 2, (.error e, w₁), by simp [toolPages, mcpRequest, he, hm]⟩
      | ok result =>
        have hpage := (leads_mcp fuel₁).1 (.page w.client.nextId) [] he
        simp only [Listing.exchanged, Listing.answered, hm] at hpage
        by_cases hlast : textOf (result.get (ascii "nextCursor")) = []
        · exact ⟨fuel₁ + 2, _, by simp [toolPages, mcpRequest, he, hm, hlast]; rfl⟩
        · rw [if_neg hlast] at hpage
          obtain ⟨m, hlt, hreads⟩ := hpage.left hn
          obtain ⟨fuel₂, p, hp⟩ := ih m hlt (textOf (result.get (ascii "nextCursor")))
            (tools ++ pageTools spell result) w₁ hreads
          have he' := eq_some_of_le (fun {fuel} => (mcp_mono spell programVersion server fuel).1)
            (le_max_left fuel₁ fuel₂) he
          have hp' := eq_some_of_le
            (fun {fuel p} => toolPages_mono fuel (textOf (result.get (ascii "nextCursor")))
              (tools ++ pageTools spell result) w₁)
            (Nat.le_succ_of_le (le_max_right fuel₁ fuel₂)) hp
          refine ⟨max fuel₁ fuel₂ + 2, p, ?_⟩
          dsimp only
          rw [toolPages, mcpRequest, listMessage_id, he']
          simp only [hm]
          rw [if_neg hlast]
          exact hp'

variable (spell server programVersion)

/-- What a listing that ends has read. -/
theorem reads_of_tools {fuel : ℕ} {c : Client} {r : Except Bytes (List Tool)} {w : World}
    (h : mcpClientTools spell programVersion server fuel (World.start c) = some (r, w)) :
    ∃ n, reads spell server 0 n (.ok (.start c)) = .error w.client.nextId := by
  unfold mcpClientTools at h
  unfold mcpClientOpen at h
  by_cases hopen : (World.start c).client.isOpen = true
  · rw [show Listing.start c = .paging c.session c.nextId from if_pos hopen]
    rw [if_pos hopen] at h
    exact reads_of_pages h
  · rw [show Listing.start c = .opening c.session c.nextId [] from if_neg hopen]
    rw [if_neg hopen] at h
    cases ho : mcpClientOpenSession spell programVersion server fuel [] (World.start c) with
    | none => simp [ho] at h
    | some q =>
      obtain ⟨r, w₁⟩ := q
      have hlead := (leads_mcp fuel).2.2 [] ho
      rw [ho] at h
      cases r with
      | error e =>
        obtain ⟨n, -, -, hn⟩ := hlead
        obtain ⟨rfl, rfl⟩ := Prod.mk.inj (Option.some.inj h)
        exact ⟨n, hn⟩
      | ok u =>
        obtain ⟨n, hn⟩ := reads_of_pages h
        exact hlead.over hn

/-- Where the machine is over, the listing ends. -/
theorem tools_of_reads {c : Client} {n : ℕ} {id : ℤ}
    (hn : reads spell server 0 n (.ok (.start c)) = .error id) :
    Ends fun fuel => mcpClientTools spell programVersion server fuel (World.start c) := by
  by_cases hopen : (World.start c).client.isOpen = true
  · rw [show Listing.start c = .paging c.session c.nextId from if_pos hopen] at hn
    obtain ⟨fuel, p, h⟩ := pages_of_reads [] [] (World.start c) hn
    exact ⟨fuel, p, by
      simp only [mcpClientTools, mcpClientOpen]
      rw [if_pos hopen]
      exact h⟩
  · rw [show Listing.start c = .opening c.session c.nextId [] from if_neg hopen] at hn
    obtain ⟨fuel₁, ⟨r₁, w₁⟩, ho⟩ := (ends_of_reads n id).2 [] [] (World.start c) hn
    dsimp only at ho
    cases r₁ with
    | error e =>
      refine ⟨fuel₁, (.error e, w₁), ?_⟩
      simp only [mcpClientTools, mcpClientOpen]
      rw [if_neg hopen, ho]
    | ok u =>
      obtain ⟨m, -, hreads⟩ := Leads.left ((leads_mcp fuel₁).2.2 [] ho) hn
      obtain ⟨fuel₂, p, hp⟩ := pages_of_reads [] [] w₁ hreads
      have ho' := eq_some_of_le (fun {fuel} => (mcp_mono spell programVersion server fuel).2.2)
        (le_max_left fuel₁ fuel₂) ho
      have hp' := eq_some_of_le (fun {fuel p} => toolPages_mono fuel [] [] w₁)
        (le_max_right fuel₁ fuel₂) hp
      refine ⟨max fuel₁ fuel₂, p, ?_⟩
      simp only [mcpClientTools, mcpClientOpen]
      rw [if_neg hopen, ho']
      exact hp'

/-- `mcp_client_tools` returns, and its requests had ids of 64 bits. -/
def Returns (c : Client) : Prop :=
  ∃ fuel r w, mcpClientTools spell programVersion server fuel (World.start c) = some (r, w) ∧
    w.client.nextId < 2 ^ 63

/-- A listing is over with one id. -/
theorem reads_unique {k m n : ℕ} {l : Except ℤ Listing} {i j : ℤ}
    (hm : reads spell server k m l = .error i) (hn : reads spell server k n l = .error j) :
    i = j := by
  rcases le_total m n with hle | hle
  · obtain ⟨d, rfl⟩ := Nat.exists_eq_add_of_le hle
    rw [reads_add, hm, reads_error] at hn
    exact Except.error.inj hn
  · obtain ⟨d, rfl⟩ := Nat.exists_eq_add_of_le hle
    rw [reads_add, hn, reads_error] at hm
    exact (Except.error.inj hm).symm

/-- **When a listing returns.**  `mcp_client_tools` returns exactly when some reply of the server
ends the listing: it fails the request it comes for, or is a page that names no further one. -/
theorem listing_returns_iff (c : Client) :
    Returns spell server programVersion c ↔
      ∃ n id, reads spell server 0 n (.ok (.start c)) = .error id ∧ id < 2 ^ 63 := by
  constructor
  · rintro ⟨fuel, r, w, h, hid⟩
    obtain ⟨n, hn⟩ := reads_of_tools spell server programVersion h
    exact ⟨n, w.client.nextId, hn, hid⟩
  · rintro ⟨n, id, hn, hid⟩
    obtain ⟨fuel, ⟨r, w⟩, h⟩ := tools_of_reads spell server programVersion hn
    obtain ⟨m, hm⟩ := reads_of_tools spell server programVersion h
    exact ⟨fuel, r, w, h, (reads_unique spell server hm hn).symm ▸ hid⟩

end Machine

/-! ### The same cursor again and again -/

/-- A page with no tool on it, that names the cursor `a`; as the answer to `initialize` it agrees
on a version. -/
def ringResult : Draft :=
  .obj [(ascii "protocolVersion", .str (ascii "2025-11-25")), (ascii "tools", .arr []),
    (ascii "nextCursor", .str (ascii "a"))]

/-- The response to request `id`. -/
def ringBody (id : ℤ) : Draft :=
  .obj [(ascii "jsonrpc", .str (ascii "2.0")), (ascii "id", .int (.ofInt 64 id)),
    (ascii "result", ringResult)]

/-- A server that answers every request at once, and every page with the same cursor. -/
def ring (k : ℕ) : Reply :=
  ⟨.ok ⟨200, none, ascii "application/json",
    (ringBody (if k = 0 then 1 else k)).write.getD []⟩, false⟩

section Ring

variable (spell : Bytes → Decimal)

/-- What a reply of it says to the request it answers. -/
theorem ring_reads {id : ℤ} (hpos : 0 < id) (hid : id < 2 ^ 63) {k : ℕ}
    (hk : (if k = 0 then 1 else (k : ℤ)) = id) :
    ∃ message result, readReply spell id (ring k) = .ok message ∧
      readResult message = .ok result ∧ textOf (result.get (ascii "nextCursor")) = ascii "a" ∧
      textOf (result.get (ascii "protocolVersion")) = ascii "2025-11-25" := by
  have hutf8 : ∀ key ∈ [ascii "jsonrpc", ascii "2.0", ascii "id", ascii "result",
      ascii "protocolVersion", ascii "2025-11-25", ascii "tools", ascii "nextCursor",
      ascii "a"], validUtf8 key = true := by
    decide
  simp only [List.forall_mem_cons, List.not_mem_nil, false_imp_iff, implies_true,
    and_true] at hutf8
  obtain ⟨h₁, h₂, h₃, h₄, h₅, h₆, h₇, h₈, h₉⟩ := hutf8
  obtain ⟨message, hwrite⟩ : ∃ message, (ringBody id).write = some message := by
    rw [← Option.isSome_iff_exists]
    simp [ringBody, ringResult, h₁, h₂, h₃, h₄, h₅, h₆, h₇, h₈, h₉]
  obtain ⟨result, hresult⟩ : ∃ result, ringResult.json = some result := ⟨_, rfl⟩
  obtain ⟨root, hroot⟩ : ∃ root, (ringBody id).json = some root := ⟨_, rfl⟩
  have hparse := Draft.parse_write _ hwrite hroot
  have hget := get_of_json_obj hroot
  have hanswers : mcpAnswers root id = true := by
    have hint : (BitVec.ofInt 64 id).toInt = id :=
      BitVec.toInt_ofInt_eq_self (by decide) (by omega) hid
    have hread : intOf (.num (intText (BitVec.ofInt 64 id).toInt)) = some id := by
      rw [hint]
      exact intOf_intText (by omega) hid
    rw [mcpAnswers, hget]
    exact decide_eq_true hread
  refine ⟨message, result, ?_, ?_, ?_, ?_⟩
  · have hbody : (ringBody (if k = 0 then 1 else (k : ℤ))).write.getD [] = message := by
      rw [hk, hwrite, Option.getD_some]
    have hplain : isEventStream (ascii "application/json") = false := by decide
    have hjson : mcpJsonResponse spell message id = some message := by
      simp only [mcpJsonResponse, hparse, hanswers, if_true]
    rw [readReply, ring]
    simp [Response.ok, hbody, hplain, hjson, not_le.2 hpos]
  · rw [readResult, hparse]
    dsimp only
    rw [hget, hget]
    exact congrArg _ (Option.some.inj hresult)
  · rw [get_of_json_obj hresult]
    rfl
  · rw [get_of_json_obj hresult]
    rfl

/-- The ids are counted up. -/
theorem nextId_step {l : Listing} {reply : Reply} :
    match l.step spell reply with
    | .error id => id = l.nextId
    | .ok l' => l.nextId ≤ l'.nextId := by
  obtain ⟨session, nextId, retry, waits⟩ := l
  cases waits with
  | nil => rfl
  | cons wait outer =>
    rw [Listing.step]
    dsimp only
    split_ifs
    · simp [Listing.opening]
    · cases readReply spell wait.id reply with
      | error e => rfl
      | ok message =>
        cases wait with
        | first id =>
          simp only [Listing.answered]
          cases readResult message with
          | error e => rfl
          | ok result =>
            dsimp only
            cases readVersion result <;> simp
        | second => cases outer <;> simp [Listing.answered, Listing.opened, Listing.paging]
        | page id =>
          simp only [Listing.answered]
          cases readResult message with
          | error e => rfl
          | ok result =>
            dsimp only
            split_ifs <;> simp [Listing.paging]

theorem nextId_le_of_reads {server : ℕ → Reply} {k n : ℕ} {l : Listing} {id : ℤ}
    (h : reads spell server k n (.ok l) = .error id) : l.nextId ≤ id := by
  induction n generalizing k l with
  | zero => simp [reads] at h
  | succ n ih =>
    have hstep := @nextId_step spell l (server k)
    rw [reads, Except.bind] at h
    cases hl : l.step spell (server k) with
    | error i =>
      rw [hl] at h hstep
      rw [reads_error] at h
      rw [← Except.error.inj h, hstep]
    | ok l' =>
      rw [hl] at h hstep
      exact hstep.trans (ih h)

/-- **The pages go on** until the ids run out. -/
theorem ring_pages {n k : ℕ} {id : ℤ} (hk : 2 ≤ k)
    (hn : reads spell ring k n (.ok (.paging [] k)) = .error id) : 2 ^ 63 ≤ id := by
  induction n generalizing k with
  | zero => simp [reads] at hn
  | succ n ih =>
    by_cases hlt : (k : ℤ) < 2 ^ 63
    · obtain ⟨message, result, hreply, hresult, hcursor, -⟩ :=
        ring_reads spell (by omega) hlt (if_neg (by omega : ¬k = 0))
      have hstep : (Listing.paging [] k).step spell (ring k) = .ok (.paging [] (k + 1 : ℕ)) := by
        have hforgets : forgets [] (ring k) = false := rfl
        have hmore : ascii "a" ≠ [] := by decide
        simp only [Listing.step, Listing.paging, hforgets, Wait.id, hreply, Listing.answered,
          hresult, hcursor]
        rw [if_neg hmore]
        rfl
      rw [reads, Except.bind, hstep] at hn
      exact ih (by omega) hn
    · have hle := nextId_le_of_reads spell hn
      have hnext : (Listing.paging [] k).nextId = k + 1 := rfl
      omega

/-- **The listing of such a server does not return.** -/
theorem ring_never_returns :
    ¬Returns (fun _ => .zero) ring (ascii "1") { params := { url := ascii "http://h" } } := by
  rintro ⟨fuel, r, w, h, hid⟩
  obtain ⟨n, hn⟩ := reads_of_tools (fun _ => .zero) ring (ascii "1") h
  change reads _ ring 0 n (.ok (.opening [] 1 [])) = .error w.client.nextId at hn
  have hopened : reads (fun _ => .zero) ring 0 2 (.ok (.opening [] 1 [])) =
      .ok (.paging [] (2 : ℕ)) := by
    decide +kernel
  have hlead : Leads (fun _ => .zero) ring 0 (.ok (.opening [] 1 [])) 2 (.ok (.paging [] (2 : ℕ))) :=
    ⟨2, by decide, rfl, hopened⟩
  obtain ⟨m, -, hm⟩ := hlead.left hn
  have := ring_pages (fun _ => .zero) le_rfl hm
  omega

end Ring

end Mcp
end S2S
