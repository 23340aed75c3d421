/-
# A JSON text is a C string

A reader goes over all of a value, and over no zero byte (`Reads.spans`).  A
text that parses therefore survives a passage through a `const char *`
(`cstr_of_parse`).
-/

import S2S.Json.Derive

namespace S2S
namespace Json

theorem Reads.spans {w r : Bytes} {x : Part} (h : Reads w x r) : Spans w r := by
  induction h with
  | str hw h => exact (spans_of_skipWs hw (by decide)).trans (spans_readStr h)
  | emptyObj hw hs | emptyArr hw hs =>
    exact (spans_of_skipWs hw (by decide)).trans (spans_of_skipWs hs (by decide))
  | obj hw hs _ _ ih | arr hw hs _ _ ih =>
    exact ((spans_of_skipWs hw (by decide)).trans (hs ▸ spans_skipWs _)).trans ih
  | @word w s text r c v hw hword h =>
    have hc : c ≠ 0 := by
      rintro rfl
      simp [literal] at hword
    exact (spans_of_skipWs hw hc).trans (spans_expect (zero_not_mem_literal hword) h)
  | num hw _ h => exact (hw ▸ spans_skipWs _).trans (spans_readNumber h)
  | lastItem _ hs ih => exact ih.trans (spans_of_skipWs hs (by decide))
  | item _ hs _ ihv ih => exact (ihv.trans (spans_of_skipWs hs (by decide))).trans ih
  | lastMember hk _ hs ih =>
    exact ((spans_readKey hk).trans ih).trans (spans_of_skipWs hs (by decide))
  | member hk _ hs _ ihv ih =>
    exact (((spans_readKey hk).trans ihv).trans (spans_of_skipWs hs (by decide))).trans ih

/-- **A JSON text holds no zero byte.** -/
theorem zero_not_mem_of_parse {w : Bytes} {v : Value} (h : parse w = some v) :
    (0 : UInt8) ∉ w := by
  obtain ⟨r, hread, hr⟩ := parse_iff.1 h
  obtain ⟨p, rfl, hp⟩ := hread.spans.trans (spans_skipWs r)
  simpa [hr] using hp

/-- A JSON text passes through a `const char *` whole. -/
theorem cstr_of_parse {w : Bytes} {v : Value} (h : parse w = some v) : cstr w = w :=
  cstr_eq_self_iff.2 (zero_not_mem_of_parse h)

end Json
end S2S
