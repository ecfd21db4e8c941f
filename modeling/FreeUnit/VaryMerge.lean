/-
What `nxt_http_comp_merge_vary` does to the fields of a response.

* `listElements`, `listTokens` — the list that a value is;
* `mergeVary_effect` — the first Vary field that is shown gets Accept-Encoding
  and keeps what it had.
-/
import FreeUnit.ResponseHeader

namespace FreeUnit

open List

/-- What stands between the commas, without blanks around it. -/
def listElements (v : Bytes) : List Bytes := (v.splitOn 0x2C).map trimBlanks

def listTokens (v : Bytes) : List Bytes := (listElements v).filter (· ≠ [])

variable {c : UInt8} {name : Bytes}

theorem trimBlanks_concat (hc : isBlank c = true) (w : Bytes) :
    trimBlanks (w ++ [c]) = trimBlanks w := by
  rw [trimBlanks, trimBlanks, dropWhile_append]
  split_ifs with hw
  · rw [isEmpty_iff.mp hw, dropWhile_cons_of_pos hc, dropWhile_nil]
  · rw [reverse_append, reverse_singleton, singleton_append, dropWhile_cons_of_pos hc]

theorem listElements_comma (a b : Bytes) :
    listElements (a ++ 0x2C :: b) = listElements a ++ listElements b := by
  have hsplit : (a ++ 0x2C :: b).splitOn 0x2C = a.splitOn 0x2C ++ b.splitOn 0x2C :=
    splitOnP_append_cons a b (beq_self_eq_true 0x2C)
  rw [listElements, hsplit, map_append]
  rfl

theorem listElements_blank (hc : isBlank c = true) (v : Bytes) :
    listElements (v ++ [c]) = listElements v := by
  have hcomma : 0x2C ≠ c := by
    rintro rfl
    cases hc
  induction v using sep_induction 0x2C with
  | last w hw =>
    have hwc : 0x2C ∉ w ++ [c] := by simp [hw, hcomma]
    rw [listElements, listElements, (splitOn_sep hw).1, (splitOn_sep hwc).1, map_singleton,
      map_singleton, trimBlanks_concat hc]
  | sep w s hw ih => rw [append_assoc, cons_append, listElements_comma, listElements_comma, ih]

/-- The separators at the end of a value hold empty elements only. -/
theorem listElements_rdropWhile (v : Bytes) : ∃ n, listElements v =
    listElements (v.rdropWhile fun c => isBlank c || c == 0x2C) ++ replicate n [] := by
  induction v using reverseRecOn with
  | nil => exact ⟨0, rfl⟩
  | append_singleton v c ih => ?_
  obtain ⟨n, hn⟩ := ih
  rw [rdropWhile_concat]
  split_ifs with hc
  · rcases (Bool.or_eq_true ..).mp hc with hblank | hcomma
    · exact ⟨n, by rw [listElements_blank hblank, hn]⟩
    refine ⟨n + 1, ?_⟩
    rw [eq_of_beq hcomma, listElements_comma v [], hn, append_assoc, replicate_succ']
    rfl
  · exact ⟨0, by simp⟩

/-- The value is a star alone, or lists Accept-Encoding. -/
def VariesOnCoding (v : Bytes) : Prop :=
  trimBlanks v = str "*" ∨ ∃ e ∈ listElements v, strcasestrEq e acceptEncoding = true

theorem varyValue_eq {v : Bytes} (h : VariesOnCoding v) : varyValue v = v := by
  rw [varyValue]
  split_ifs with hstar hnil hlisted
  · rfl
  · subst hnil
    rcases h with h | ⟨e, he, h⟩
    · cases h
    rw [mem_singleton.mp he] at h
    cases h
  · rfl
  obtain ⟨e, he, h⟩ := h.resolve_left hstar
  obtain ⟨piece, hpiece, rfl⟩ := mem_map.mp he
  exact absurd (any_eq_true.mpr ⟨piece, hpiece, h⟩) hlisted

theorem varyValue_spec (v : Bytes) : VariesOnCoding (varyValue v) ∧
    listTokens v <+: listTokens (varyValue v) ∧
    (listElements (varyValue v)).count [] ≤ (listElements v).count [] := by
  rw [varyValue]
  split_ifs with hstar hnil hlisted
  · exact ⟨.inl hstar, prefix_refl _, le_refl _⟩
  · subst hnil
    exact ⟨.inr ⟨acceptEncoding, by decide, by decide⟩, by decide, by decide⟩
  · obtain ⟨piece, hpiece, h⟩ := any_eq_true.mp hlisted
    exact ⟨.inr ⟨_, mem_map_of_mem hpiece, h⟩, prefix_refl _, le_refl _⟩
  obtain ⟨n, hn⟩ := listElements_rdropWhile v
  have hlast : listElements (0x20 :: acceptEncoding) = [acceptEncoding] := by decide
  have hsep : str ", " = [0x2C, 0x20] := by decide
  rw [hsep, append_assoc, cons_append, singleton_append, VariesOnCoding, listTokens, listTokens,
    listElements_comma, hlast, hn]
  refine ⟨.inr ⟨_, mem_append_right _ (mem_singleton_self _), by decide⟩, ?_, ?_⟩
  · simp [filter_append]
  · simp [count_append, show acceptEncoding ≠ [] by decide]

/-! ### The fields -/

section

variable {r : Response} {pre post : List HttpField} {f : HttpField}

theorem exists_shown {fields : List HttpField} (h : shown name fields ≠ []) :
    ∃ pre f post, fields = pre ++ f :: post ∧ shown name pre = [] ∧
      (!f.skip && strcasestrEq f.name name) = true := by
  obtain ⟨g, hg⟩ := exists_mem_of_ne_nil _ h
  obtain ⟨f, hfind⟩ := Option.isSome_iff_exists.mp (find?_isSome.mpr ⟨g, mem_filter.mp hg⟩)
  obtain ⟨hf, pre, post, rfl, hpre⟩ := find?_eq_some_iff_append.mp hfind
  refine ⟨pre, f, post, rfl, filter_eq_nil_iff.mpr fun g hg => ?_, hf⟩
  rw [Bool.eq_false_of_not_eq_true' (hpre g hg)]
  exact Bool.false_ne_true

theorem modifyShown_append (hpre : shown name pre = [])
    (hf : (!f.skip && strcasestrEq f.name name) = true) (g : HttpField → HttpField) :
    modifyShown name g (pre ++ f :: post) = pre ++ g f :: post := by
  induction pre with
  | nil => exact if_pos hf
  | cons x pre ih => ?_
  rw [shown, filter_eq_nil_iff, forall_mem_cons] at hpre
  rw [cons_append, modifyShown, if_neg hpre.1, ih (filter_eq_nil_iff.mpr hpre.2)]
  rfl

variable (hr : r.fields = pre ++ f :: post) (hpre : shown (str "Vary") pre = [])
  (hf : (!f.skip && strcasestrEq f.name (str "Vary")) = true)

include hr hpre hf

theorem mergeVary_shown :
    mergeVary r = { r with fields := pre ++ { f with value := varyValue f.value } :: post } := by
  have hmem : f ∈ shown (str "Vary") r.fields := mem_filter.mpr ⟨by simp [hr], hf⟩
  rw [mergeVary, if_neg (ne_nil_of_mem hmem), hr, modifyShown_append hpre hf]

theorem mergeVary_eq_self (hv : VariesOnCoding f.value) : mergeVary r = r := by
  rw [mergeVary_shown hr hpre hf, varyValue_eq hv, ← hr]

end

/-- **A merged Vary field** keeps its tokens, varies on the coding and gets no
empty element; no other field changes, and merging again changes nothing. -/
theorem mergeVary_effect (r : Response) : ∃ pre f post,
    (mergeVary r).fields = pre ++ f :: post ∧ shown (str "Vary") pre = [] ∧
    (!f.skip && strcasestrEq f.name (str "Vary")) = true ∧ VariesOnCoding f.value ∧
    (r.fields = pre ∧ post = [] ∧ [] ∉ listElements f.value ∨
      ∃ v, r.fields = pre ++ { f with value := v } :: post ∧
        listTokens v <+: listTokens f.value ∧
        (listElements f.value).count [] ≤ (listElements v).count []) ∧
    mergeVary (mergeVary r) = mergeVary r := by
  by_cases h : shown (str "Vary") r.fields = []
  · let f : HttpField := { name := str "Vary", value := acceptEncoding, hash := 0 }
    have hmerge : (mergeVary r).fields = r.fields ++ [f] := by
      rw [mergeVary, if_pos h]
      rfl
    have hf : (!f.skip && strcasestrEq f.name (str "Vary")) = true := by decide
    have hv : VariesOnCoding f.value := .inr ⟨acceptEncoding, by decide, by decide⟩
    exact ⟨r.fields, f, [], hmerge, h, hf, hv, .inl ⟨rfl, rfl, by decide⟩,
      mergeVary_eq_self hmerge h hf hv⟩
  obtain ⟨pre, f, post, hr, hpre, hf⟩ := exists_shown h
  obtain ⟨hv, htokens, hempty⟩ := varyValue_spec f.value
  have hmerge := congrArg Response.fields (mergeVary_shown hr hpre hf)
  exact ⟨pre, _, post, hmerge, hpre, hf, hv, .inr ⟨f.value, hr, htokens, hempty⟩,
    mergeVary_eq_self hmerge hpre hf hv⟩

end FreeUnit
