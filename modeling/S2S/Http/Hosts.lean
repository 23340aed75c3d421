/-
# The host of a URL

`url_host` and `host_allowed` of `src/s2s-conversation.cpp`, next to
`http_split_url` of `src/http-client.h`: the first two decide what a client may
name, the third what a request connects to.  They read a URL on their own, and
`host_of_httpSplitUrl` says that they read the same authority in it.
-/

import S2S.Http.Basic

namespace S2S
namespace Http

open Json

/-- `url_host`: what stands between the scheme and the next slash, and from the
start when there is no scheme. -/
def urlHost (url : Bytes) : Bytes :=
  match findSub (ascii "://") url with
  | none => url.takeWhile (· ≠ 0x2F)
  | some (_, rest) => rest.takeWhile (· ≠ 0x2F)

/-- `host_allowed`: every host, when no list was given. -/
def hostAllowed (hosts : List Bytes) (url : Bytes) : Bool :=
  hosts.isEmpty || hosts.any fun entry => urlHost url = urlHost entry

/-- With a list, an allowed URL has the host of an entry. -/
theorem mem_of_hostAllowed {hosts : List Bytes} {url : Bytes} (h : hostAllowed hosts url = true)
    (hne : hosts ≠ []) : urlHost url ∈ hosts.map urlHost := by
  rw [hostAllowed, Bool.or_eq_true, List.isEmpty_iff, List.any_eq_true] at h
  obtain ⟨entry, hentry, heq⟩ := h.resolve_left hne
  rw [of_decide_eq_true heq]
  exact List.mem_map_of_mem hentry

/-! ### One authority -/

/-- Where the first `pat` of a text stands only depends on the text up to its end. -/
theorem findSub_append {pat s a b : Bytes} (hpat : pat ≠ []) (h : findSub pat s = some (a, b)) :
    s = a ++ pat ++ b ∧ ∀ c, findSub pat (a ++ pat ++ c) = some (a, c) := by
  induction s generalizing a b with
  | nil =>
    rw [findSub, if_neg hpat] at h
    simp at h
  | cons x s ih =>
    rw [findSub] at h
    split_ifs at h with hprefix
    · obtain ⟨rfl, rfl⟩ := Prod.mk.inj (Option.some.inj h)
      obtain ⟨rest, hrest⟩ := List.isPrefixOf_iff_prefix.1 hprefix
      constructor
      · rw [← hrest, List.nil_append, List.drop_left]
      · intro c
        obtain ⟨y, ys, rfl⟩ := List.exists_cons_of_ne_nil hpat
        have hstarts : (y :: ys).isPrefixOf (y :: (ys ++ c)) = true :=
          List.isPrefixOf_iff_prefix.2 (List.prefix_append (y :: ys) c)
        show findSub (y :: ys) (y :: (ys ++ c)) = _
        rw [findSub, if_pos hstarts]
        exact congrArg (fun rest => some ([], rest)) (List.drop_left ..)
    · cases hs : findSub pat s with
      | none => simp [hs] at h
      | some found =>
        obtain ⟨a', b'⟩ := found
        rw [hs] at h
        obtain ⟨rfl, rfl⟩ := Prod.mk.inj (Option.some.inj h)
        obtain ⟨rfl, hfirst⟩ := ih hs
        constructor
        · rfl
        · intro c
          -- No `pat` starts at `x`: what it would cover ends before `c` does.
          have hnone : ¬pat.isPrefixOf (x :: (a' ++ pat ++ c)) = true := by
            intro hc
            refine hprefix (List.isPrefixOf_iff_prefix.2 ?_)
            have hshort : pat <+: x :: (a' ++ pat) := by
              refine List.prefix_of_prefix_length_le (List.isPrefixOf_iff_prefix.1 hc)
                (List.prefix_append (x :: (a' ++ pat)) c) ?_
              simp only [List.length_cons, List.length_append]
              omega
            exact hshort.trans (List.prefix_append (x :: (a' ++ pat)) b')
          show findSub pat (x :: (a' ++ pat ++ c)) = _
          rw [findSub, if_neg hnone, hfirst c]
          rfl

/-- **What a request connects to is the authority the list was asked about**: the scheme, and the
very bytes `url_host` reads, in the URL and in the host alike. -/
theorem host_of_httpSplitUrl {url host path : Bytes} (h : httpSplitUrl url = some (host, path)) :
    (∃ scheme, host = scheme ++ ascii "://" ++ urlHost url) ∧ urlHost host = urlHost url := by
  unfold httpSplitUrl at h
  split at h
  · simp at h
  · rename_i scheme rest hfind
    obtain ⟨rfl, -⟩ := Prod.mk.inj (Option.some.inj h)
    obtain ⟨-, hfirst⟩ := findSub_append (by decide) hfind
    have hurl : urlHost url = rest.takeWhile (· ≠ 0x2F) := by rw [urlHost, hfind]
    constructor
    · exact ⟨scheme, by rw [hurl]⟩
    · rw [hurl, urlHost, hfirst]
      show (rest.takeWhile (· ≠ 0x2F)).takeWhile (· ≠ 0x2F) = _
      rw [List.takeWhile_takeWhile]
      simp

end Http
end S2S
