/-
# The seed of a session

The seed of an update is read as a 64 bit integer, taken when it is not
negative, narrowed to an `int`, and written into the requests of the answers
that start from then on (`conn_answer` copies the settings).  `seedKept_iff`
says which seeds come through all of it, and of which the client is told.
-/

import S2S.Llm.ReadBack
import S2S.Update.Numbers

namespace S2S
namespace Update

open Json Llm Http

/-! ### Until the next update -/

/-- What changes the settings of a connection between two updates: the conversation the client
sends, the voice the model switches to, and whether the assistant listens. -/
inductive Interim
  | history (messages : List Agent.HistoryMessage)
  | voice (voice effect : Bytes)
  | awake (awake : Bool)

def Connection.pass (conn : Connection) : Interim → Connection
  | .history messages => { conn with client := { conn.client with history := messages } }
  | .voice voice effect => { conn with client := { conn.client with
      tts := { conn.client.tts with voice := voice, effect := effect } } }
  | .awake awake => { conn with awake := awake }

/-- None of it reaches the settings of the endpoint. -/
theorem llm_pass (interims : List Interim) (conn : Connection) :
    (interims.foldl Connection.pass conn).client.llm = conn.client.llm := by
  induction interims generalizing conn with
  | nil => rfl
  | cons interim interims ih =>
    rw [List.foldl_cons, ih]
    cases interim <;> rfl

/-! ### The requests -/

section Requests

variable (dtoa : ℚ → Decimal)

/-- The seed of the document of a request. -/
def seedOf (p : Llm.Params) (messages : List Message) : Option Draft :=
  match bodyDraft dtoa p messages with
  | .obj members => (members.find? fun m => m.1 = ascii "seed").map Prod.snd
  | _ => none

theorem find?_given {c : Prop} [Decidable c] {key : Bytes} {d : Draft} (k : Bytes) :
    (given c key d).find? (fun m => m.1 = k) = if c ∧ key = k then some (key, d) else none := by
  unfold given
  by_cases hc : c <;> by_cases hk : key = k <;> simp [hc, hk]

theorem seedOf_eq (p : Llm.Params) (messages : List Message) : seedOf dtoa p messages =
    if 0 ≤ p.sampling.seed then some (.int (.ofInt 64 p.sampling.seed)) else none := by
  have hkeys : ∀ key ∈ [ascii "model", ascii "stream", ascii "temperature", ascii "top_p",
      ascii "top_k", ascii "min_p", ascii "max_tokens", ascii "presence_penalty",
      ascii "frequency_penalty", ascii "reasoning_effort", ascii "tools", ascii "messages"],
      ¬key = ascii "seed" := by decide
  simp only [List.forall_mem_cons, List.not_mem_nil, false_imp_iff, implies_true, and_true] at hkeys
  obtain ⟨h₁, h₂, h₃, h₄, h₅, h₆, h₇, h₈, h₉, h₁₀, h₁₁, h₁₂⟩ := hkeys
  by_cases hseed : 0 ≤ p.sampling.seed
  · simp [seedOf, bodyDraft, headMembers, List.find?_append, find?_given, *]
  · simp [seedOf, bodyDraft, headMembers, List.find?_append, find?_given, *]

/-- **A request carries a seed**: in its document, and in its body when that is written. -/
structure Carries (p : Llm.Params) (messages : List Message) (n : ℕ) : Prop where
  document : ∃ i : BitVec 64, i.toInt = n ∧ seedOf dtoa p messages = some (.int i)
  body : ∀ doc, (bodyDraft dtoa p messages).json = some doc →
    llmClientBody dtoa p messages ≠ [] → parse (llmClientBody dtoa p messages) = some doc ∧
      doc.get (ascii "seed") = some (.num (intText n))

theorem carries_iff {p : Llm.Params} {messages : List Message} {n : ℕ}
    (hfits : p.sampling.seed < 2 ^ 63) :
    Carries dtoa p messages n ↔ p.sampling.seed = n := by
  have hint : 0 ≤ p.sampling.seed → (BitVec.ofInt 64 p.sampling.seed).toInt = p.sampling.seed :=
    fun hseed => BitVec.toInt_ofInt_eq_self (by decide) (by omega) hfits
  constructor
  · intro h
    obtain ⟨i, hi, hdoc⟩ := h.document
    rw [seedOf_eq] at hdoc
    split_ifs at hdoc with hseed
    rw [← hint hseed, Draft.int.inj (Option.some.inj hdoc), hi]
  · intro h
    have hseed : 0 ≤ p.sampling.seed := h ▸ Int.natCast_nonneg n
    have hi : (BitVec.ofInt 64 p.sampling.seed).toInt = n := (hint hseed).trans h
    have hdoc : seedOf dtoa p messages = some (.int (.ofInt 64 p.sampling.seed)) := by
      rw [seedOf_eq, if_pos hseed]
    refine ⟨⟨_, hi, hdoc⟩, fun doc hjson hwritten => ?_⟩
    obtain ⟨w, hw⟩ : ∃ w, (bodyDraft dtoa p messages).write = some w := by
      cases hwrite : (bodyDraft dtoa p messages).write with
      | none => exact absurd (by rw [llmClientBody, hwrite]; rfl) hwritten
      | some w => exact ⟨w, rfl⟩
    rw [llmClientBody, hw, Option.getD_some]
    refine ⟨Draft.parse_write _ hw hjson, ?_⟩
    rw [bodyDraft] at hjson
    rw [seedOf, bodyDraft] at hdoc
    obtain ⟨m, hm, hmd⟩ := Option.map_eq_some_iff.1 hdoc
    rw [get_of_json_obj hjson, hm, Option.bind_some, hmd, Draft.json, hi]

end Requests

/-! ### The seed -/

/-- What an update sends for the seed of the endpoint. -/
def seedSent (root : Value) : Option Value :=
  objGet (objGet (fieldsOf root) (ascii "sampling")) (ascii "seed")

/-- The seed in force after an update. -/
theorem seed_connUpdate (setup : ConversationSetup) (opens : Bool) (root : Value)
    (conn : Connection) : (connUpdate setup opens root conn).1.client.llm.sampling.seed =
      let seed := ((seedSent root).bind intOf).getD (-1)
      if 0 ≤ seed then (BitVec.ofInt 32 seed).toInt else setup.defaults.llm.sampling.seed := by
  obtain ⟨-, -, -, hsampling, -, -⟩ := connApplyPatch_settings setup opens (rtPatch root) conn
  exact congrArg Sampling.seed hsampling

/-- **What a seed is meant to come to**: it is a natural number that every request carries until the
next update, whatever its tools and its messages, or the client is told of an error. -/
def SeedKept (dtoa : ℚ → Decimal) (setup : ConversationSetup) (opens : Bool) (frame : Bytes)
    (conn : Connection) : Prop :=
  ∀ root, rtParse frame = some root → ∀ text, seedSent root = some (.num text) →
    (∃ n : ℕ, integerOf (.num text) = some (n : ℤ) ∧
      ∀ (interims : List Interim) (tools : Bytes) (messages : List Message),
        Carries dtoa { (interims.foldl Connection.pass
          (connUpdate setup opens root conn).1).client.llm with tools := tools } messages n) ∨
    Told (connUpdate setup opens root conn).2

/-- **When it does**: the seed is a natural number below 2³¹, or the update is refused something else.
The seed of the server is an `int`. -/
theorem seedKept_iff (dtoa : ℚ → Decimal) (setup : ConversationSetup) (opens : Bool) (frame : Bytes)
    (conn : Connection) (hdefault : setup.defaults.llm.sampling.seed < 2 ^ 31) :
    SeedKept dtoa setup opens frame conn ↔
      ∀ root, rtParse frame = some root → ∀ text, seedSent root = some (.num text) →
        (∃ n : ℕ, n < 2 ^ 31 ∧ integerOf (.num text) = some (n : ℤ)) ∨
          (∃ f : NumberField, f.RefusedIn (fieldsOf root)) ∨ Refused setup (rtPatch root) := by
  refine forall₂_congr fun root _ => forall₂_congr fun text hsent => ?_
  rw [told_connUpdate, NumberField.invalid_ne_nil_iff]
  refine or_congr_left ?_
  have hbound : (connUpdate setup opens root conn).1.client.llm.sampling.seed < 2 ^ 63 := by
    rw [seed_connUpdate]
    dsimp only
    split_ifs
    · have := BitVec.toInt_lt (x := BitVec.ofInt 32 (((seedSent root).bind intOf).getD (-1)))
      omega
    · omega
  have hcarries : ∀ (interims : List Interim) (tools : Bytes) (messages : List Message) (n : ℕ),
      Carries dtoa { (interims.foldl Connection.pass
          (connUpdate setup opens root conn).1).client.llm with tools := tools } messages n ↔
        (connUpdate setup opens root conn).1.client.llm.sampling.seed = n := by
    intro interims tools messages n
    have hllm := llm_pass interims (connUpdate setup opens root conn).1
    rw [carries_iff dtoa (by rw [hllm]; exact hbound), hllm]
  simp only [hcarries, forall_const, seed_connUpdate, hsent, Option.bind_some]
  constructor
  · rintro ⟨n, hn, hseed⟩
    refine ⟨n, ?_, hn⟩
    split_ifs at hseed
    · have := BitVec.toInt_lt (x := BitVec.ofInt 32 ((intOf (.num text)).getD (-1)))
      omega
    · omega
  · rintro ⟨n, hlt, hn⟩
    refine ⟨n, hn, ?_⟩
    have hint : intOf (.num text) = some (n : ℤ) := by
      rw [intOf_eq, hn, Option.bind_some, if_pos (by omega),
        Int.bmod_eq_of_le (by omega) (by omega)]
    rw [hint]
    dsimp only [Option.getD_some]
    rw [if_pos (Int.natCast_nonneg n), BitVec.toInt_ofInt]
    exact Int.bmod_eq_of_le (by omega) (by omega)

/-- An update with a seed. -/
def seeded (seed : String) : Bytes :=
  ascii "\x7b\"type\":\"session.update\",\"session\":\x7b\"sampling\":\x7b\"seed\":" ++ ascii seed
    ++ ascii "\x7d\x7d\x7d"

theorem seedKept_seven : SeedKept (fun _ => .zero) {} false (seeded "7") { client := {} } := by
  refine (seedKept_iff _ {} false (seeded "7") { client := {} } (by decide)).2 fun root hroot text hsent =>
    .inl ⟨7, by decide, ?_⟩
  have hparse : rtParse (seeded "7") = some (.obj [(ascii "type", .str (ascii "session.update")),
      (ascii "session", .obj [(ascii "sampling", .obj [(ascii "seed", .num (ascii "7"))])])]) := by
    decide +kernel
  obtain rfl := Option.some.inj (hroot.symm.trans hparse)
  obtain rfl : text = ascii "7" := Value.num.inj (Option.some.inj (hsent.symm.trans (by decide)))
  decide

/-- The seed 2 to the 32 and 5 becomes 5, and the client is not told. -/
theorem seed_wraps : ¬∀ (dtoa : ℚ → Decimal) (setup : ConversationSetup) (opens : Bool)
    (frame : Bytes) (conn : Connection), setup.defaults.llm.sampling.seed < 2 ^ 31 →
      SeedKept dtoa setup opens frame conn := by
  intro h
  have hroot : rtParse (seeded "4294967301") = some (.obj [
      (ascii "type", .str (ascii "session.update")),
      (ascii "session", .obj [(ascii "sampling", .obj [(ascii "seed", .num (ascii "4294967301"))])])]) := by
    decide +kernel
  rcases h (fun _ => .zero) {} false (seeded "4294967301") { client := {} } (by decide) _ hroot
    (ascii "4294967301") (by decide +kernel) with ⟨n, hn, hcarries⟩ | htold
  · have hseed := (carries_iff _ (by decide +kernel)).1 (hcarries [] [] [])
    have h5 : (5 : ℤ) = n := hseed
    have hbig : (4294967301 : ℤ) = n := Option.some.inj hn
    omega
  · rcases (told_connUpdate _ _ _ _).1 htold with hinvalid | hrefused
    · exact absurd (show _ = [] by decide +kernel) hinvalid
    · exact absurd hrefused (by unfold Refused; decide +kernel)

end Update
end S2S
