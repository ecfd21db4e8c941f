/-
Configurations after any number of partial edits.

A configuration starts as a payload that the parser accepts and is then edited
any number of times with values that the parser accepts.  The limits of the
parser are tested on the inserted values only: the nesting of a value is added
to the nesting of the place it is put in, and a container grows by one with
each creation.

* `EditFits` — an edit that stays within the limits;
* `confJsonParse_of_history` — with such edits it is read back when it is printed;
* `history_too_deep` — one edit that does not fit makes a configuration that
  is refused when it is read back.
-/
import FreeUnit.ConfOp
import FreeUnit.ConfRoundTrip

namespace FreeUnit

open Nested List Option

/-! ### Depth -/

mutual

def Conf.depth : Conf → ℕ
  | .array es => elementsDepth es + 1
  | .object ms => membersDepth ms + 1
  | _ => 0

def elementsDepth : List Conf → ℕ
  | [] => 0
  | e :: es => max e.depth (elementsDepth es)

def membersDepth : List (Bytes × Conf) → ℕ
  | [] => 0
  | (_, v) :: ms => max v.depth (membersDepth ms)

end

theorem depth_le_elementsDepth {e : Conf} {es : List Conf} (h : e ∈ es) :
    e.depth ≤ elementsDepth es := by
  induction es with
  | nil => cases h
  | cons x es ih => ?_
  rw [elementsDepth]
  rcases mem_cons.mp h with rfl | h
  · exact le_max_left _ _
  · exact (ih h).trans (le_max_right _ _)

variable {ms : List (Bytes × Conf)}

theorem depth_le_membersDepth {m : Bytes × Conf} (h : m ∈ ms) : m.2.depth ≤ membersDepth ms := by
  induction ms with
  | nil => cases h
  | cons x ms ih => ?_
  obtain ⟨name, v⟩ := x
  rw [membersDepth]
  rcases mem_cons.mp h with rfl | h
  · exact le_max_left _ _
  · exact (ih h).trans (le_max_right _ _)

section Fits

variable {strtod : Bytes → Strtod}

/-- A valid value is valid with as many levels as it has. -/
theorem valid_of_depth : ∀ {limit : ℕ} {v : Conf}, v.Valid strtod limit → ∀ {d : ℕ},
    v.depth ≤ d → v.Valid strtod d := by
  intro limit
  induction limit with
  | zero =>
    intro v hv d _
    cases v with
    | array | object => exact hv.elim
    | null | boolean b | integer w | number w | string s => cases d <;> exact hv
  | succ limit ih => ?_
  intro v hv d hd
  cases v with
  | array es =>
    rw [Conf.depth] at hd
    obtain ⟨d, rfl⟩ : ∃ n, d = n + 1 := ⟨d - 1, by omega⟩
    refine ⟨hv.1, fun e he => ih (hv.2 e he) ?_⟩
    exact (depth_le_elementsDepth he).trans (by omega)
  | object ms =>
    rw [Conf.depth] at hd
    obtain ⟨d, rfl⟩ : ∃ n, d = n + 1 := ⟨d - 1, by omega⟩
    refine ⟨hv.1, hv.2.1, fun m hm => ⟨(hv.2.2 m hm).1, ih (hv.2.2 m hm).2 ?_⟩⟩
    exact (depth_le_membersDepth hm).trans (by omega)
  | null | boolean b | integer w | number w | string s => cases d <;> exact hv

/-! ### One edit -/

def Conf.count : Conf → ℕ
  | .array es => es.length
  | .object ms => ms.length
  | _ => 0

/-- The edit at `last` of `t`, which lies below `above` containers, keeps to
the limits of the parser: the levels of nesting that come together, and the
size of the container that grows. -/
def LastFits (above : ℕ) (t : Conf) (last : Bytes) : ConfEdit → Prop
  | .set v => v.depth + (above + 1) ≤ jsonMaxDepth ∧
      (t.child last = none → t.count < jsonMaxElements)
  | .append v => v.depth + (above + 2) ≤ jsonMaxDepth ∧
      ∀ es, t.child last = some (.array es) → es.length < jsonMaxElements
  | .delete => True

def EditFits (root : Conf) (path : Bytes) (edit : ConfEdit) : Prop :=
  ∀ token more t last, pathTokens (pathSegments path) = some (token :: more) →
    holder Conf.child root token more = some (t, last) → LastFits more.length t last edit

def ConfEdit.value : ConfEdit → Option Conf
  | .set v | .append v => some v
  | .delete => none

variable {token : Bytes} {t v : Conf} {d : ℕ}

theorem decodeUri_length {segment : Bytes} (h : decodeUri segment = some token) :
    token.length ≤ segment.length := by
  fun_induction decodeUri segment generalizing token with
  | case1 =>
    cases h
    exact le_rfl
  | case2 a b src d0 d1 h0 h1 ih =>
    obtain ⟨t, ht, rfl⟩ := map_eq_some_iff.mp h
    have hlen := ih ht
    simp only [length_cons]
    omega
  | case3 => cases h
  | case4 => cases h
  | case5 ch src hch ih =>
    obtain ⟨t, ht, rfl⟩ := map_eq_some_iff.mp h
    exact Nat.succ_le_succ (ih ht)

/-- A token is short, so as a name it can be read back. -/
theorem stringFits_of_pathToken {segment : Bytes} (h : pathToken segment = some token) :
    StringFits token := by
  rw [pathToken] at h
  split_ifs at h with hlong
  have hlen := decodeUri_length h
  have hsize : itemSize (escapeItems token) ≤ 3 * token.length := by
    clear h hlen
    induction token with
    | nil => exact le_rfl
    | cons ch token ih => ?_
    rw [itemSize_escapeItems_cons, length_cons]
    have hch := escapeItem_size_le ch
    omega
  rw [confMaxTokenLen] at hlong
  rw [StringFits, confMaxString, int32Max]
  omega

theorem stringFits_of_pathTokens {segments tokens : List Bytes}
    (h : pathTokens segments = some tokens) : ∀ token ∈ tokens, StringFits token := by
  induction segments generalizing tokens with
  | nil =>
    cases h
    simp
  | cons segment segments ih => ?_
  obtain ⟨token, rest, ht, hrest, rfl⟩ := pathTokens_cons_eq_some.mp h
  rintro t (_ | ⟨_, hmem⟩)
  · exact stringFits_of_pathToken ht
  · exact ih hrest t hmem

theorem exists_level (ht : t.Valid strtod d) (hc : t.isContainer = true) : ∃ n, d = n + 1 := by
  cases d with
  | succ n => exact ⟨n, rfl⟩
  | zero => ?_
  cases t with
  | array | object => exact ht.elim
  | null | boolean b | integer w | number w | string s => cases hc

variable {c : Conf}

theorem mem_of_getObjectMember {name : Bytes} {index : ℕ}
    (h : getObjectMember name ms = some (index, c)) : (name, c) ∈ ms := by
  obtain ⟨pre, post, rfl, -, -⟩ := getObjectMember_split h
  simp

theorem valid_child (ht : t.Valid strtod (d + 1)) (hc : t.child token = some c) :
    c.Valid strtod d := by
  cases t with
  | array es =>
    obtain ⟨i, -, hi⟩ := bind_eq_some_iff.mp hc
    exact ht.2 c (mem_of_getElem? hi)
  | object ms =>
    obtain ⟨⟨i, c'⟩, hm, rfl⟩ := map_eq_some_iff.mp hc
    exact (ht.2.2 _ (mem_of_getObjectMember hm)).2
  | null | boolean b | integer w | number w | string s => cases hc

/-- A valid child can be put in the place of another. -/
theorem valid_put {c' : Conf} (ht : t.Valid strtod (d + 1)) (hc : t.child token = some c)
    (hc' : c'.Valid strtod d) : (t.put token c').Valid strtod (d + 1) := by
  cases t with
  | array es =>
    obtain ⟨i, hi, -⟩ := bind_eq_some_iff.mp hc
    simp only [Conf.put, hi, elim_some]
    refine ⟨by simpa using ht.1, fun e he => ?_⟩
    rcases mem_or_eq_of_mem_set he with he | rfl
    · exact ht.2 e he
    · exact hc'
  | object ms =>
    obtain ⟨⟨i, c''⟩, hm, rfl⟩ := map_eq_some_iff.mp hc
    obtain ⟨hlen, hnodup, hms⟩ := ht
    obtain ⟨pre, post, rfl, -, hpre⟩ := getObjectMember_split hm
    simp only [Conf.put, setMember_append hpre]
    refine ⟨by simpa using hlen, by simpa using hnodup, fun m hmem => ?_⟩
    rcases mem_append.mp hmem with hmem | hmem
    · exact hms m (by simp [hmem])
    rcases mem_cons.mp hmem with rfl | hmem
    · exact ⟨(hms (token, c'') (by simp)).1, hc'⟩
    · exact hms m (by simp [hmem])
  | null | boolean b | integer w | number w | string s => cases hc

theorem valid_snoc_element {es : List Conf}
    (ht : (Conf.array es).Valid strtod (d + 1)) (hlen : es.length < jsonMaxElements)
    (hv : v.Valid strtod d) : (Conf.array (es ++ [v])).Valid strtod (d + 1) := by
  refine ⟨by simpa using hlen, fun e he => ?_⟩
  rcases mem_append.mp he with he | he
  · exact ht.2 e he
  rw [mem_singleton.mp he]
  exact hv

theorem valid_snoc_member {name : Bytes} (ht : (Conf.object ms).Valid strtod (d + 1))
    (hlen : ms.length < jsonMaxElements) (hname : StringFits name) (hfresh : ∀ m ∈ ms, m.1 ≠ name)
    (hv : v.Valid strtod d) : (Conf.object (ms ++ [(name, v)])).Valid strtod (d + 1) := by
  refine ⟨by simpa using hlen, ?_, fun m hm => ?_⟩
  · rw [map_append, nodup_append]
    refine ⟨ht.2.1, by simp, ?_⟩
    rintro a ha b hb rfl
    obtain ⟨m, hm, rfl⟩ := mem_map.mp ha
    exact hfresh m hm (by simpa using hb)
  · rcases mem_append.mp hm with hm | hm
    · exact ht.2.2 m hm
    rw [mem_singleton.mp hm]
    exact ⟨hname, hv⟩

/-- An edit that fits keeps the value it is made in within the limits. -/
theorem valid_applyEdit {r : Conf} {last : Bytes} {edit : ConfEdit} {above : ℕ}
    (ht : t.Valid strtod d) (hd : d + above = jsonMaxDepth) (hlast : StringFits last)
    (hvalue : ∀ v ∈ edit.value, v.Valid strtod jsonMaxDepth)
    (hfit : LastFits above t last edit) (hedit : t.applyEdit edit last = some r) :
    r.Valid strtod d := by
  obtain ⟨d, rfl⟩ := exists_level ht (isContainer_of_applyEdit hedit)
  cases edit with
  | set v =>
    obtain ⟨hdepth, hcount⟩ := hfit
    have hv : v.Valid strtod d := valid_of_depth (hvalue v rfl) (by omega)
    cases hchild : t.child last with
    | some c =>
      -- the child is replaced
      obtain ⟨index, hindex⟩ := opNode_of_child hchild
      rw [(opNode_some hindex).set v] at hedit
      cases hedit
      exact valid_put ht hchild hv
    | none => ?_
    have hsize := hcount hchild
    cases t with
    | array es =>
      obtain ⟨i, hi, hr⟩ := bind_eq_some_iff.mp hedit
      have hout : ¬ i < es.length := by
        intro hlt
        simp [Conf.child, hi, hlt] at hchild
      rw [if_neg hout] at hr
      split_ifs at hr
      cases hr
      exact valid_snoc_element ht hsize hv
    | object ms =>
      have hfresh := getObjectMember_eq_none (by simpa [Conf.child] using hchild)
      rw [Conf.applyEdit, setMember_eq_append hfresh] at hedit
      cases hedit
      exact valid_snoc_member ht hsize hlast hfresh hv
    | null | boolean b | integer w | number w | string s => cases hedit
  | append v =>
    obtain ⟨hdepth, hcount⟩ := hfit
    cases hchild : t.child last with
    | none => simp [Conf.applyEdit, hchild] at hedit
    | some c => ?_
    cases c with
    | array es =>
      simp only [Conf.applyEdit, hchild, some.injEq] at hedit
      subst hedit
      have hes := valid_child ht hchild
      obtain ⟨d, rfl⟩ := exists_level hes rfl
      have hv : v.Valid strtod d := valid_of_depth (hvalue v rfl) (by omega)
      exact valid_put ht hchild (valid_snoc_element hes (hcount es hchild) hv)
    | null | boolean b | integer w | number w | string s | object ms =>
      simp [Conf.applyEdit, hchild] at hedit
  | delete => ?_
  cases t with
  | array es =>
    obtain ⟨i, -, hr⟩ := bind_eq_some_iff.mp hedit
    split_ifs at hr
    cases hr
    have hsub := eraseIdx_sublist es i
    exact ⟨hsub.length_le.trans ht.1, fun e he => ht.2 e (hsub.subset he)⟩
  | object ms =>
    simp only [Conf.applyEdit] at hedit
    split_ifs at hedit
    cases hedit
    have hsub := eraseP_sublist (l := ms) (p := fun m => m.1 = last)
    exact ⟨hsub.length_le.trans ht.1, ht.2.1.sublist (hsub.map _),
      fun m hm => ht.2.2 m (hsub.subset hm)⟩
  | null | boolean b | integer w | number w | string s => cases hedit

/-- The edit below `above` containers, along the path. -/
theorem valid_update {edit : ConfEdit} (hvalue : ∀ v ∈ edit.value, v.Valid strtod jsonMaxDepth) :
    ∀ {more : List Bytes} {root r : Conf} {token : Bytes} (above : ℕ) {d : ℕ},
    root.Valid strtod d → d + above = jsonMaxDepth → (∀ s ∈ token :: more, StringFits s) →
    (∀ t last, holder Conf.child root token more = some (t, last) →
      LastFits (above + more.length) t last edit) →
    Conf.update edit root token more = some r → r.Valid strtod d := by
  intro more
  induction more with
  | nil =>
    intro root r token above d hroot hd htok hfit hup
    exact valid_applyEdit hroot hd (htok token (by simp)) hvalue (hfit root token rfl) hup
  | cons next more ih => ?_
  intro root r token above d hroot hd htok hfit hup
  obtain ⟨c, c', hc, hc', rfl⟩ := (editAt_cons_eq_some _ _ _).mp hup
  obtain ⟨d, rfl⟩ := exists_level hroot (isContainer_of_child hc)
  refine valid_put hroot hc ?_
  refine ih (above + 1) (valid_child hroot hc) (by omega)
    (fun s hs => htok s (mem_cons_of_mem _ hs)) ?_ hc'
  intro t last hholder
  have hlast := hfit t last (by rw [holder, hc, bind_some, hholder])
  rwa [length_cons, ← Nat.add_assoc, Nat.add_right_comm] at hlast

end Fits

/-! ### Histories -/

section History

variable (strtod : Bytes → Strtod) (hash : HashOrder) (scalarCount : Conf → ℕ)

/-- The configurations that come from an accepted payload by accepted edits,
each with an accepted value and allowed by `ok`. -/
inductive ConfHistory (ok : Conf → Bytes → ConfEdit → Prop) : Conf → Prop
  | parsed {text : Bytes} {v : Conf} (h : confJsonParse strtod hash text = .ok v) :
      ConfHistory ok v
  | edited {root r : Conf} {path : ConfPath} {edit : ConfEdit} {ops : ConfOp}
      (hroot : ConfHistory ok root)
      (hvalue : ∀ v ∈ edit.value, ∃ text, confJsonParse strtod hash text = .ok v)
      (hok : ok root path.text edit)
      (hcompile : confOpCompile scalarCount root path.text edit = .ok ops)
      (hclone : confClone ops root = some r) : ConfHistory ok r

variable {strtod hash scalarCount}

/-- What was compiled and applied is the functional update. -/
theorem update_of_clone {root r : Conf} {path : Bytes} {edit : ConfEdit} {ops : ConfOp}
    (hcompile : confOpCompile scalarCount root path edit = .ok ops)
    (hclone : confClone ops root = some r) :
    ∃ token more, pathTokens (pathSegments path) = some (token :: more) ∧
      Conf.update edit root token more = some r := by
  rcases opLoop_ok hcompile with ⟨token, more, r', htok, hcopy, hup⟩ | ⟨-, hcopy⟩
  · cases hcopy.symm.trans hclone
    exact ⟨token, more, pathSegments_eq_cons path ▸ htok, hup⟩
  · cases hcopy.symm.trans hclone

/-- **Edits that fit keep the configuration within the limits.** -/
theorem valid_of_history (h : ConfHistory strtod hash scalarCount EditFits v) :
    v.Valid strtod jsonMaxDepth := by
  induction h with
  | parsed h => exact valid_of_confJsonParse h
  | @edited root r path edit ops _ hvalue hok hcompile hclone ih => ?_
  obtain ⟨token, more, htok, hup⟩ := update_of_clone hcompile hclone
  have hvalid : ∀ v ∈ edit.value, v.Valid strtod jsonMaxDepth := by
    intro v hv
    obtain ⟨text, htext⟩ := hvalue v hv
    exact valid_of_confJsonParse htext
  refine valid_update hvalid 0 ih rfl (stringFits_of_pathTokens htok) ?_ hup
  intro t last hholder
  rw [Nat.zero_add]
  exact hok token more t last htok hholder

end History

/-! ### Nested arrays -/

/-- `n` arrays around an empty one. -/
def nest : ℕ → Conf
  | 0 => .array []
  | n + 1 => .array [nest n]

theorem valid_nest (strtod : Bytes → Strtod) (n : ℕ) : (nest n).Valid strtod (n + 1) := by
  induction n with
  | zero => simp [nest, Conf.Valid]
  | succ n ih => ?_
  refine ⟨by simp [jsonMaxElements], ?_⟩
  intro e he
  rw [mem_singleton.mp he]
  exact ih

theorem eq_nest_of_same {n : ℕ} {v : Conf} (h : (nest n).Same v) : v = nest n := by
  induction n generalizing v with
  | zero =>
    cases h with
    | scalar hv => cases hv
    | array hlen _ => ?_
    rw [length_nil, eq_comm, length_eq_zero_iff] at hlen
    rw [hlen, nest]
  | succ n ih => ?_
  cases h with
  | scalar hv => cases hv
  | array hlen hes => ?_
  rw [length_singleton, eq_comm, length_eq_one_iff] at hlen
  obtain ⟨e, rfl⟩ := hlen
  rw [ih (hes 0 _ _ rfl rfl), nest]

theorem jsonPrint_nest_succ (n : ℕ) :
    (jsonPrint none false (nest (n + 1))).1 = 0x5B :: ((jsonPrint none false (nest n)).1 ++ [0x5D]) := by
  simp [nest, jsonPrint, printElements, prettyNewline, prettyIndent]

/-- The arrays of a payload that nests deeper than allowed are refused. -/
theorem jsonParseValue_nest (strtod : Bytes → Strtod) (hash : HashOrder) : ∀ (depth n : ℕ),
    depth ≤ n → ∀ rest : Bytes, ∃ e,
      jsonParseValue strtod hash depth ((jsonPrint none false (nest n)).1 ++ rest) = .error e := by
  intro depth
  induction depth with
  | zero =>
    intro n _ rest
    cases n <;>
    · rw [jsonParseValue.eq_def]
      exact ⟨_, rfl⟩
  | succ depth ih => ?_
  intro n hn rest
  obtain ⟨n, rfl⟩ : ∃ k, n = k + 1 := ⟨n - 1, by omega⟩
  obtain ⟨e, he⟩ := ih n (by omega) (0x5D :: rest)
  have hc : (nest n).isContainer = true := by cases n <;> rfl
  obtain ⟨c, t, htext, hhead⟩ := head_of_container hc none false
  obtain ⟨hspace, hslash, hbracket⟩ := not_space_of_valueHead hhead
  refine ⟨e, ?_⟩
  rw [htext, cons_append] at he
  -- the error of the inner array is the error of the loop
  have hloop : arrayLoop (jsonParseValue strtod hash depth) jsonMaxElements
      (0x5B :: c :: (t ++ 0x5D :: rest)) = .error e := by
    rw [arrayLoop.eq_def]
    simp only [drop_one, tail_cons, hbracket, if_false, bind, Except.bind, he,
      show jsonSkipSpace (c :: (t ++ 0x5D :: rest)) = c :: (t ++ 0x5D :: rest) from
        jsonSkipSpace_gap gap_nil hspace hslash _]
    rfl
  rw [jsonPrint_nest_succ, htext]
  simp only [cons_append, append_assoc, nil_append]
  rw [jsonParseValue.eq_def]
  show (arrayLoop (jsonParseValue strtod hash depth) jsonMaxElements
    (0x5B :: c :: (t ++ 0x5D :: rest))).bind _ = _
  rw [hloop]
  rfl

theorem depth_nest (n : ℕ) : (nest n).depth = n + 1 := by
  induction n with
  | zero => rfl
  | succ n ih => simp [nest, Conf.depth, elementsDepth, ih]

theorem nest_accepted (strtod : Bytes → Strtod) (hash : HashOrder) {n : ℕ} (hn : n < 100) :
    ∃ text, confJsonParse strtod hash text = .ok (nest n) := by
  have hvalid : (nest n).Valid strtod jsonMaxDepth := by
    refine valid_of_depth (valid_nest strtod n) ?_
    rw [depth_nest, jsonMaxDepth]
    omega
  have hread : ∃ v, confJsonParse strtod hash (confJsonPrint false (nest n)) = .ok v ∧
      (nest n).Same v := confJsonParse_of_valid hvalid false
  obtain ⟨v, hparse, hsame⟩ := hread
  rw [eq_nest_of_same hsame] at hparse
  exact ⟨_, hparse⟩

def firstElement : ConfPath := ⟨str "/0", by decide⟩

theorem history_first (strtod : Bytes → Strtod) (hash : HashOrder)
    {ok : Conf → Bytes → ConfEdit → Prop}
    (hv : ∃ text, confJsonParse strtod hash text = .ok v)
    (hok : ok (.array []) firstElement.text (.set v)) :
    ConfHistory strtod hash (fun _ => 0) ok (.array [v]) := by
  obtain ⟨text, htext⟩ := nest_accepted strtod hash (show 0 < 100 by omega)
  refine @ConfHistory.edited strtod hash _ _ (.array []) (.array [v]) firstElement (.set v)
    (.create 0 (.element v)) (.parsed htext) ?_ hok rfl rfl
  intro w hw
  cases hw
  exact hv

/-! ### Loading again -/

/-- **A configuration whose edits fit can be loaded again.** -/
theorem confJsonParse_of_history (strtod : Bytes → Strtod) (hash : HashOrder)
    (scalarCount : Conf → ℕ) {v : Conf} (h : ConfHistory strtod hash scalarCount EditFits v)
    (indented : Bool) :
    ∃ v', confJsonParse strtod hash (confJsonPrint indented v) = .ok v' ∧ v.Same v' :=
  confJsonParse_of_valid (valid_of_history h) indented

/-- An empty array, with an empty array set as its first element. -/
theorem confJsonParse_of_history_first :
    let strtod : Bytes → Strtod := fun _ => .whole
    let hash : HashOrder := ⟨id, fun _ => .refl _⟩
    ConfHistory strtod hash (fun _ => 0) EditFits (nest 1) ∧
      ∃ v', confJsonParse strtod hash (confJsonPrint false (nest 1)) = .ok v' ∧
        (nest 1).Same v' := by
  intro strtod hash
  have h : ConfHistory strtod hash (fun _ => 0) EditFits (nest 1) := by
    refine history_first strtod hash (nest_accepted strtod hash (show 0 < 100 by omega)) ?_
    intro token more t last htok hholder
    cases htok
    cases hholder
    refine ⟨?_, ?_⟩
    · simp [depth_nest, jsonMaxDepth]
    · intro _
      simp [Conf.count, jsonMaxElements]
  exact ⟨h, confJsonParse_of_history strtod hash (fun _ => 0) h false⟩

/-- An accepted array of one hundred levels that is set in an accepted empty
one: the configuration has a level too many, and its text is refused. -/
theorem history_too_deep :
    let strtod : Bytes → Strtod := fun _ => .whole
    let hash : HashOrder := ⟨id, fun _ => .refl _⟩
    ConfHistory strtod hash (fun _ => 0) (fun _ _ _ => True) (nest 100) ∧
      ¬ ∃ v', confJsonParse strtod hash (confJsonPrint false (nest 100)) = .ok v' := by
  intro strtod hash
  constructor
  · exact history_first strtod hash (nest_accepted strtod hash (show 99 < 100 by omega)) trivial
  · rintro ⟨v', h⟩
    obtain ⟨e, he⟩ := jsonParseValue_nest strtod hash jsonMaxDepth 100 le_rfl []
    obtain ⟨c, t, htext, hhead⟩ := head_of_container (show (nest 100).isContainer = true from rfl)
      none false
    obtain ⟨hspace, hslash, -⟩ := not_space_of_valueHead hhead
    have hskip : jsonSkipSpace (c :: t) = c :: t := jsonSkipSpace_gap gap_nil hspace hslash t
    rw [htext, append_nil] at he
    rw [confJsonPrint, confJsonParse, if_neg (by decide), htext] at h
    simp only [hskip, he, bind, Except.bind] at h
    cases h

end FreeUnit
