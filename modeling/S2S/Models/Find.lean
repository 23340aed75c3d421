/-
# The file a directory offers

`find_model` of `src/model-find.h`: among the files of a directory that have the
name of a model, the largest by the tag in the name, then the best by its
quantization, then the first by name.  The names come in the order the directory
lists them.

The loop keeps the best and drops what is no better, which does not depend on the
order as long as any two files can be told apart (`Precedes`).  They can, unless
a tag reads as a `float` that is not a number: that one never keeps its place and
never lets another keep it.  So the choice is settled exactly when no file has
such a tag, or there is no other file (`findModel_settled_iff`).
-/

import S2S.Choose
import S2S.Models.Strtof

namespace S2S
namespace Models

open Json Llm

/-! ### The code -/

/-- `model_size`: the tags from the first dash on, a zero when none has a size. -/
def modelSize : Bytes → CFloat
  | [] => .fin 0
  | c :: rest =>
    if c ≠ minus then modelSize rest
    else
      let start := cstr rest
      let (size, tail) := strtof start
      if tail.length ≠ start.length ∧ tail.take 2 = ascii "b-" then size else modelSize rest

/-- `quants`. -/
def quants : List Bytes := [ascii "Q8_0", ascii "Q6_K", ascii "Q5_K_M", ascii "Q4_K_M"]

/-- `name.find(part) != npos`. -/
def holds (part name : Bytes) : Bool := name.tails.any part.isPrefixOf

/-- `quant_rank`. -/
def quantRank (name : Bytes) : ℕ := quants.findIdx fun quant => holds quant name

/-- The test at the head of the loop. -/
def matchesName (start variant name : Bytes) : Bool :=
  start.isPrefixOf name && holds variant name && decide (5 < name.length) &&
    decide (name.drop (name.length - 5) = ascii ".gguf")

/-- `entry.path()`: the directory and the name. -/
def entryPath (dir name : Bytes) : Bytes :=
  if dir = [] ∨ dir.getLast? = some 0x2F then dir ++ name else dir ++ 0x2F :: name

/-- Whether the best stays, against a name that matches. -/
def staysBest (bestName name : Bytes) : Bool :=
  let size := modelSize name
  let bestSize := modelSize bestName
  if cfloatLt size bestSize then true
  else if cfloatEq size bestSize then
    let rank := quantRank name
    let bestRank := quantRank bestName
    decide (bestRank < rank) || decide (rank = bestRank) && decide (bestName < name)
  else false

/-- The body of the loop, over `best` and `best_name`. -/
def findStep (dir start variant : Bytes) (best : Bytes × Bytes) (name : Bytes) : Bytes × Bytes :=
  if matchesName start variant name = false then best
  else if best.1 ≠ [] ∧ staysBest best.2 name = true then best
  else (entryPath dir name, name)

/-- `find_model`, over the names in the directory. -/
def findModel (dir start variant : Bytes) (names : List Bytes) : Bytes :=
  (names.foldl (findStep dir start variant) ([], [])).1

/-! ### What is meant -/

/-- The files that have the name of the model. -/
def candidates (start variant : Bytes) (names : List Bytes) : List Bytes :=
  names.filter (matchesName start variant)

/-- A larger parameter count, then a better quantization, then a smaller name. -/
def Precedes (a b : Bytes) : Prop :=
  cfloatLt (modelSize b) (modelSize a) = true ∨
    cfloatEq (modelSize b) (modelSize a) = true ∧
      (quantRank a < quantRank b ∨ quantRank a = quantRank b ∧ a < b)

/-- **What the choice is meant to be**: the same for every order of the directory, and a file that no
other one precedes. -/
structure Settled (dir start variant : Bytes) (names : List Bytes) : Prop where
  any_order : ∀ names' : List Bytes, names.Perm names' →
    findModel dir start variant names' = findModel dir start variant names
  none_found : candidates start variant names = [] → findModel dir start variant names = []
  first : candidates start variant names ≠ [] →
    ∃ name ∈ candidates start variant names, findModel dir start variant names = entryPath dir name ∧
      ∀ other ∈ candidates start variant names, other ≠ name → ¬Precedes other name

/-! ### The loop as a choice -/

instance : DecidableRel Precedes := fun a b => by
  unfold Precedes
  infer_instance

theorem entryPath_ne_nil {dir name : Bytes} (h : name ≠ []) : entryPath dir name ≠ [] := by
  unfold entryPath
  split_ifs
  · exact fun hnil => h (List.append_eq_nil_iff.1 hnil).2
  · simp

theorem entryPath_inj {dir a b : Bytes} (h : entryPath dir a = entryPath dir b) : a = b := by
  unfold entryPath at h
  split_ifs at h
  · exact List.append_cancel_left h
  · exact (List.cons.inj (List.append_cancel_left h)).2

theorem ne_nil_of_matches {start variant name : Bytes} (h : matchesName start variant name = true) :
    name ≠ [] := by
  rintro rfl
  simp [matchesName] at h

/-- The best stays exactly when it precedes, for two names. -/
theorem staysBest_iff (bestName name : Bytes) :
    staysBest bestName name = true ↔ Precedes bestName name := by
  unfold staysBest Precedes
  dsimp only
  by_cases hlt : cfloatLt (modelSize name) (modelSize bestName) = true
  · simp [hlt]
  by_cases heq : cfloatEq (modelSize name) (modelSize bestName) = true
  · simp [hlt, heq, @eq_comm ℕ (quantRank bestName)]
  · simp [hlt, heq]

section Loop

variable (dir start variant : Bytes)

/-- What the two variables hold of a choice. -/
def held : Option Bytes → Bytes × Bytes
  | none => ([], [])
  | some name => (entryPath dir name, name)

theorem foldl_findStep (names : List Bytes) {best : Option Bytes}
    (hbest : ∀ name ∈ best, name ≠ []) :
    names.foldl (findStep dir start variant) (held dir best)
      = held dir ((candidates start variant names).foldl (chooseStep Precedes) best) := by
  induction names generalizing best with
  | nil => rfl
  | cons name names ih =>
    rw [List.foldl_cons, findStep, candidates]
    by_cases hmatch : matchesName start variant name = true
    · rw [List.filter_cons_of_pos hmatch, List.foldl_cons, if_neg (by simp [hmatch])]
      have hname := ne_nil_of_matches hmatch
      have hnew : ∀ kept ∈ some name, kept ≠ [] := fun kept hkept =>
        Option.some.inj hkept ▸ hname
      cases best with
      | none => exact ih hnew
      | some best =>
        have hpath := @entryPath_ne_nil dir best (hbest best rfl)
        by_cases hstays : Precedes best name
        · rw [if_pos ⟨hpath, (staysBest_iff best name).2 hstays⟩]
          have hkeep : chooseStep Precedes (some best) name = some best := if_pos hstays
          rw [hkeep]
          exact ih hbest
        · rw [if_neg fun hboth => hstays ((staysBest_iff best name).1 hboth.2)]
          have htake : chooseStep Precedes (some best) name = some name := if_neg hstays
          rw [htake]
          exact ih hnew
    · rw [List.filter_cons_of_neg hmatch, if_pos (by simpa using hmatch)]
      exact ih hbest

/-- **The loop chooses among the files that match.** -/
theorem findModel_eq (names : List Bytes) : findModel dir start variant names =
    (held dir (choose Precedes (candidates start variant names))).1 :=
  congrArg Prod.fst (@foldl_findStep dir start variant names none (by simp))

end Loop

/-! ### Numbers -/

theorem cfloatEq_iff {x y : CFloat} (hx : x ≠ .nan) : cfloatEq x y = true ↔ x = y := by
  cases x <;> cases y <;> simp [cfloatEq] at hx ⊢

theorem cfloatLt_irrefl (x : CFloat) : cfloatLt x x = false := by
  cases x <;> simp [cfloatLt]

theorem cfloatLt_trans {x y z : CFloat} (hxy : cfloatLt x y = true) (hyz : cfloatLt y z = true) :
    cfloatLt x z = true := by
  cases x <;> cases y <;> cases z <;> simp [cfloatLt] at hxy hyz ⊢ <;> grind

theorem cfloatLt_total {x y : CFloat} (hx : x ≠ .nan) (hy : y ≠ .nan) :
    x = y ∨ cfloatLt x y = true ∨ cfloatLt y x = true := by
  cases x <;> cases y <;> simp [cfloatLt] at hx hy ⊢
  all_goals grind

/-- **Files whose tags are numbers rank.** -/
theorem ranks_precedes {names : List Bytes} (h : ∀ name ∈ names, modelSize name ≠ .nan) :
    Ranks Precedes (· ∈ names) where
  irrefl a ha := by
    rintro (hlt | ⟨-, hlt | ⟨-, hlt⟩⟩)
    · rw [cfloatLt_irrefl] at hlt
      exact absurd hlt (by simp)
    · exact lt_irrefl _ hlt
    · exact List.lt_irrefl a hlt
  trans a b c ha hb hc hab hbc := by
    have hsize : ∀ {x y}, x ∈ names → (cfloatEq (modelSize x) (modelSize y) = true ↔
        modelSize x = modelSize y) := fun hx => cfloatEq_iff (h _ hx)
    unfold Precedes at hab hbc ⊢
    rw [hsize hb] at hab
    rw [hsize hc] at hbc ⊢
    rcases hab with hab | ⟨hab, hab'⟩ <;> rcases hbc with hbc | ⟨hbc, hbc'⟩
    · exact .inl (cfloatLt_trans hbc hab)
    · exact .inl (hbc ▸ hab)
    · exact .inl (hab ▸ hbc)
    · refine .inr ⟨hbc.trans hab, ?_⟩
      rcases hab' with hab' | ⟨hab', hname⟩ <;> rcases hbc' with hbc' | ⟨hbc', hname'⟩
      · exact .inl (hab'.trans hbc')
      · exact .inl (hbc' ▸ hab')
      · exact .inl (hab' ▸ hbc')
      · exact .inr ⟨hab'.trans hbc', List.lt_trans hname hname'⟩
  total a b ha hb := by
    unfold Precedes
    rw [cfloatEq_iff (h a ha), cfloatEq_iff (h b hb)]
    rcases cfloatLt_total (h a ha) (h b hb) with hsize | hsize | hsize
    · rcases lt_trichotomy (quantRank a) (quantRank b) with hrank | hrank | hrank
      · exact .inr (.inl (.inr ⟨hsize.symm, .inl hrank⟩))
      · rcases Std.lt_trichotomy a b with hname | hname | hname
        · exact .inr (.inl (.inr ⟨hsize.symm, .inr ⟨hrank, hname⟩⟩))
        · exact .inl hname
        · exact .inr (.inr (.inr ⟨hsize, .inr ⟨hrank.symm, hname⟩⟩))
      · exact .inr (.inr (.inr ⟨hsize, .inl hrank⟩))
    · exact .inr (.inr (.inl hsize))
    · exact .inr (.inl (.inl hsize))

/-- A tag that is not a number: its file neither keeps a place nor lets another one keep it. -/
theorem not_precedes_of_nan {a b : Bytes} (h : modelSize a = .nan ∨ modelSize b = .nan) :
    ¬Precedes a b := by
  have hlt : ∀ x y : CFloat, x = .nan ∨ y = .nan → cfloatLt y x = false ∧ cfloatEq y x = false := by
    rintro x y (rfl | rfl)
    · cases y <;> exact ⟨rfl, rfl⟩
    · exact ⟨rfl, rfl⟩
  obtain ⟨hless, hequal⟩ := hlt _ _ h
  unfold Precedes
  rw [hless, hequal]
  simp

section Settled

variable {dir start variant : Bytes}

/-- The last file is taken when it or the one before it has such a tag. -/
theorem findModel_append_nan (names : List Bytes) {a b : Bytes}
    (ha : matchesName start variant a = true) (hb : matchesName start variant b = true)
    (h : modelSize a = .nan ∨ modelSize b = .nan) :
    findModel dir start variant (names ++ [a, b]) = entryPath dir b := by
  have hcandidates : candidates start variant (names ++ [a, b])
      = candidates start variant names ++ [a, b] := by
    simp [candidates, ha, hb]
  have hstep : ∀ (best : Option Bytes) (name : Bytes), (∀ kept ∈ best, ¬Precedes kept name) →
      chooseStep Precedes best name = some name := by
    intro best name hnot
    cases best with
    | none => rfl
    | some kept => exact if_neg (hnot kept rfl)
  have hlast : choose Precedes (candidates start variant names ++ [a, b]) = some b := by
    rw [choose, List.foldl_append, List.foldl_cons, List.foldl_cons, List.foldl_nil]
    set best := (candidates start variant names).foldl (chooseStep Precedes) none
    rcases h with ha | hb
    · rw [hstep best a fun kept _ => not_precedes_of_nan (.inr ha)]
      exact hstep _ b fun kept hkept =>
        Option.some.inj hkept ▸ not_precedes_of_nan (.inl ha)
    · exact hstep _ b fun kept _ => not_precedes_of_nan (.inr hb)
  rw [findModel_eq, hcandidates, hlast]
  rfl

/-- Without such a tag the choice is settled. -/
theorem settled_of_numbers {names : List Bytes}
    (h : ∀ name ∈ candidates start variant names, modelSize name ≠ .nan) :
    Settled dir start variant names where
  any_order names' hperm := by
    have hcandidates := hperm.filter (matchesName start variant)
    rw [findModel_eq, findModel_eq]
    exact congrArg (fun best => (held dir best).1) (choose_perm (ranks_precedes h) hcandidates)
  none_found hnone := by
    rw [findModel_eq, (choose_eq_none (ranks_precedes h)).2 hnone]
    rfl
  first hsome := by
    have hranks := ranks_precedes h
    obtain ⟨name, hname⟩ := Option.ne_none_iff_exists'.1 fun hnone =>
      hsome ((choose_eq_none hranks).1 hnone)
    obtain ⟨hmem, hover⟩ := (mem_choose hranks).1 hname
    refine ⟨name, hmem, ?_, fun other hother hne hprecedes => ?_⟩
    · rw [findModel_eq, hname]
      rfl
    · have hbefore := (hover other hother).resolve_left hne
      exact hranks.irrefl name hmem (hranks.trans name other name hmem hother hmem hbefore hprecedes)

/-- One file is found whatever its tag. -/
theorem settled_of_one {names : List Bytes} (h : (candidates start variant names).length ≤ 1) :
    Settled dir start variant names := by
  have hone : ∀ names' : List Bytes, names.Perm names' →
      candidates start variant names' = candidates start variant names := by
    intro names' hperm
    have hcandidates := hperm.filter (matchesName start variant)
    change (candidates start variant names).Perm (candidates start variant names') at hcandidates
    rcases hlist : candidates start variant names with _ | ⟨x, _ | ⟨y, rest⟩⟩
    · rw [hlist] at hcandidates
      exact hcandidates.nil_eq.symm
    · rw [hlist] at hcandidates
      exact hcandidates.singleton_eq.symm
    · rw [hlist] at h
      simp at h
  refine ⟨fun names' hperm => ?_, fun hnone => ?_, fun hsome => ?_⟩
  · rw [findModel_eq, findModel_eq, hone names' hperm]
  · rw [findModel_eq, hnone]
    rfl
  · obtain ⟨name, hname⟩ := List.length_eq_one_iff.1
      (le_antisymm h (List.length_pos_iff.2 hsome))
    refine ⟨name, by rw [hname]; exact List.mem_singleton.2 rfl, ?_, fun other hother hne => ?_⟩
    · rw [findModel_eq, hname]
      rfl
    · rw [hname, List.mem_singleton] at hother
      exact absurd hother hne

/-- **When the choice is settled**, for distinct names: at most one file matches, or none of those that
do has a tag that is not a number. -/
theorem findModel_settled_iff {names : List Bytes} (hdistinct : names.Nodup) :
    Settled dir start variant names ↔ (candidates start variant names).length ≤ 1 ∨
      ∀ name ∈ candidates start variant names, modelSize name ≠ .nan := by
  refine ⟨fun h => ?_, fun h => h.elim settled_of_one settled_of_numbers⟩
  by_contra hnot
  obtain ⟨hmany, a, ha, hnan⟩ : 1 < (candidates start variant names).length ∧
      ∃ a ∈ candidates start variant names, modelSize a = .nan := by
    push Not at hnot
    exact hnot
  obtain ⟨b, hb, hne⟩ : ∃ b ∈ candidates start variant names, b ≠ a := by
    by_contra hall
    push Not at hall
    have hrep := List.eq_replicate_of_mem hall
    have hnodup := hdistinct.filter (matchesName start variant)
    change (candidates start variant names).Nodup at hnodup
    rw [hrep, List.nodup_replicate] at hnodup
    omega
  obtain ⟨hamem, hamatch⟩ := List.mem_filter.1 ha
  obtain ⟨hbmem, hbmatch⟩ := List.mem_filter.1 hb
  have hfront : names.Perm (a :: b :: (names.erase a).erase b) :=
    (List.perm_cons_erase hamem).trans
      ((List.perm_cons_erase ((List.mem_erase_of_ne hne).2 hbmem)).cons a)
  have hback : ∀ rest : List Bytes, (a :: b :: rest).Perm (rest ++ [a, b]) := fun rest =>
    @List.perm_append_comm _ [a, b] rest
  have hone := h.any_order _ (hfront.trans (hback _))
  have htwo := h.any_order _ (hfront.trans ((hback _).trans ((List.Perm.swap b a []).append_left _)))
  rw [findModel_append_nan _ hamatch hbmatch (.inl hnan)] at hone
  rw [findModel_append_nan _ hbmatch hamatch (.inr hnan)] at htwo
  exact hne (entryPath_inj (hone.trans htwo.symm))

/-- Two files of a directory, one of them with a tag that reads as not a number. -/
def twoFiles : List Bytes := [ascii "silero-vad-nanb-F32.gguf", ascii "silero-vad-F32.gguf"]

theorem findModel_settled_two : twoFiles.Nodup ∧
    (Settled (ascii "models") (ascii "silero-vad") [] twoFiles ↔
      (candidates (ascii "silero-vad") [] twoFiles).length ≤ 1 ∨
        ∀ name ∈ candidates (ascii "silero-vad") [] twoFiles, modelSize name ≠ .nan) :=
  ⟨by decide, findModel_settled_iff (by decide)⟩

/-- Each order of the two gives the file that comes last. -/
theorem twoFiles_last :
    findModel (ascii "models") (ascii "silero-vad") [] twoFiles
        = ascii "models/silero-vad-F32.gguf" ∧
      findModel (ascii "models") (ascii "silero-vad") [] twoFiles.reverse
        = ascii "models/silero-vad-nanb-F32.gguf" := by
  decide +kernel

theorem twoFiles_not_settled : ¬Settled (ascii "models") (ascii "silero-vad") [] twoFiles := by
  intro h
  have hsame := h.any_order _ (List.reverse_perm twoFiles).symm
  rw [twoFiles_last.1, twoFiles_last.2] at hsame
  exact absurd hsame (by decide)

end Settled

end Models
end S2S
