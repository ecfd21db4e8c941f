/-
The configuration tree (`nxt_conf_value_t`) and the paths into it.

A value is a scalar, an array or an object; the members of an object are kept
in the order of their array.  The two string types of the source differ only
in where the bytes are, and are one constructor here.  A path is a text whose
segments are percent decoded one by one while the tree is walked
(`nxt_conf_path_next_token`).

* `confGetPath` — `nxt_conf_get_path`;
* `ConfPath` — a path without empty segments, as the controller makes it from
  a normalised request path;
* `confGetPath_eq_lookup` — on such paths `nxt_conf_get_path` is the lookup of
  the decoded tokens.
-/
import FreeUnit.Bytes
import FreeUnit.NestedUpdate
import FreeUnit.TargetReference

namespace FreeUnit

open Nested Option

/-- A configuration value.  An `integer` and a `number` are kept as their text. -/
inductive Conf where
  | null
  | boolean (b : Bool)
  | integer (number : Bytes)
  | number (number : Bytes)
  | string (s : Bytes)
  | array (elements : List Conf)
  | object (members : List (Bytes × Conf))
  deriving Repr

def Conf.isContainer : Conf → Bool
  | .array _ | .object _ => true
  | _ => false

/-! ### Children -/

/-- `nxt_conf_get_object_member` on the members: the first one of that name,
with its index. -/
def getObjectMember (name : Bytes) : List (Bytes × Conf) → Option (ℕ × Conf)
  | [] => none
  | m :: ms =>
    if m.1 = name then some (0, m.2)
    else (getObjectMember name ms).map fun found => (found.1 + 1, found.2)

/-- `NXT_INT32_T_MAX` -/
def int32Max : ℕ := 2 ^ 31 - 1

/-- A token as an array index: `index < 0 || index > NXT_INT32_T_MAX` refuses
all others. -/
def elementIndex (token : Bytes) : Option ℕ := (intParse token).filter (· ≤ int32Max)

/-- The value that one token selects, by the type of `value`. -/
def Conf.child (value : Conf) (token : Bytes) : Option Conf :=
  match value with
  | .object members => (getObjectMember token members).map (·.2)
  | .array elements => (elementIndex token).bind fun index => elements[index]?
  | _ => none

variable {token : Bytes}

theorem isContainer_of_child {value c : Conf} (h : value.child token = some c) :
    value.isContainer = true := by
  cases value with
  | array | object => rfl
  | null | boolean b | integer s | number s | string s => cases h

/-! ### Paths -/

def confMaxTokenLen : ℕ := 256

def decodeUri : Bytes → Option Bytes
  | [] => some []
  | ch :: src =>
    if ch = 0x25 then
      match src with
      | a :: b :: src =>
        match hexDigit a, hexDigit b with
        | some d0, some d1 => (decodeUri src).map ((d0 <<< 4 + d1) :: ·)
        | _, _ => none
      | _ => none
    else (decodeUri src).map (ch :: ·)

/-- `nxt_conf_path_next_token` on a segment that the scan to the next slash
has found. -/
def pathToken (segment : Bytes) : Option Bytes :=
  if segment.length > confMaxTokenLen then none else decodeUri segment

/-- The tokens of a list of segments, when all of them decode. -/
def pathTokens (segments : List Bytes) : Option (List Bytes) := segments.mapM pathToken

/-- The loop of `nxt_conf_get_path`: `segment` is the next one, `parse.last`
says that no other follows. -/
def getPathLoop : Conf → Bytes → List Bytes → Option Conf
  | value, segment, more =>
    match pathToken segment with
    | none => none
    | some token =>
      if token = [] then if more = [] then some value else none
      else
        match value.child token with
        | none => none
        | some value =>
          match more with
          | [] => some value
          | next :: more => getPathLoop value next more

/-- The segments of a path: the scan starts behind its first byte, and there
is always one. -/
def confSegments (path : Bytes) : Bytes × List Bytes :=
  match pathSegments path with
  | [] => ([], [])
  | segment :: more => (segment, more)

def confGetPath (value : Conf) (path : Bytes) : Option Conf :=
  getPathLoop value (confSegments path).1 (confSegments path).2

/-! ### Paths of requests -/

structure ConfPath where
  text : Bytes
  nonempty : ∀ segment ∈ pathSegments text, segment ≠ []

def stripSlash (path : Bytes) : Bytes :=
  if path.length > 1 ∧ path.getLast? = some 0x2F then path.dropLast else path

/-- `nxt_controller_process_request` on a path below `/config`: the path that
`nxt_controller_process_config` gets. -/
def controllerConfPath (path : Bytes) : Option Bytes :=
  let path := stripSlash path
  if path.take 7 = str "/config" ∧ (path.length = 7 ∨ path[7]? = some 0x2F) then
    some (if path.length = 7 then [0x2F] else path.drop 7)
  else none

variable {segment : Bytes}

theorem decodeUri_ne_nil (h : decodeUri segment = some token) (hne : segment ≠ []) :
    token ≠ [] := by
  rintro rfl
  revert h
  fun_cases decodeUri segment <;> simp_all

theorem pathToken_ne_nil (h : pathToken segment = some token) (hne : segment ≠ []) :
    token ≠ [] := by
  rw [pathToken] at h
  split_ifs at h
  exact decodeUri_ne_nil h hne

theorem pathTokens_cons_eq_some {more tokens : List Bytes} :
    pathTokens (segment :: more) = some tokens ↔
      ∃ token rest, pathToken segment = some token ∧ pathTokens more = some rest ∧
        tokens = token :: rest := by
  simp only [pathTokens, List.mapM_cons, pure_def, bind_eq_bind, bind_eq_some_iff, some.injEq]
  constructor
  · rintro ⟨token, ht, rest, hr, rfl⟩
    exact ⟨token, rest, ht, hr, rfl⟩
  · rintro ⟨token, rest, ht, hr, rfl⟩
    exact ⟨token, ht, rest, hr, rfl⟩

/-- On tokens that are not empty `nxt_conf_get_path` is the plain lookup. -/
theorem getPathLoop_eq_lookup {more : List Bytes} {value : Conf} {segment : Bytes}
    {tokens : List Bytes} (hne : ∀ s ∈ segment :: more, s ≠ [])
    (htok : pathTokens (segment :: more) = some tokens) :
    getPathLoop value segment more = lookup Conf.child value tokens := by
  induction more generalizing value segment tokens with
  | nil =>
    obtain ⟨token, rest, ht, hrest, rfl⟩ := pathTokens_cons_eq_some.mp htok
    cases hrest
    rw [getPathLoop, ht]
    simp only [if_neg (pathToken_ne_nil ht (hne segment (by simp))), lookup]
    cases value.child token <;> rfl
  | cons next more ih => ?_
  obtain ⟨token, rest, ht, hrest, rfl⟩ := pathTokens_cons_eq_some.mp htok
  rw [getPathLoop, ht]
  simp only [if_neg (pathToken_ne_nil ht (hne segment (by simp))), lookup]
  cases value.child token with
  | none => rfl
  | some c => exact ih (fun s hs => hne s (List.mem_cons_of_mem _ hs)) hrest

/-! ### The controller's paths -/

variable {path : Bytes}

theorem join_pathSegments (h : path.head? = some 0x2F) :
    Segments.join 0x2F (pathSegments path) = path := by
  obtain ⟨rest, rfl⟩ : ∃ rest, path = 0x2F :: rest := by
    cases path with
    | nil => cases h
    | cons c rest => exact ⟨rest, by simpa using h⟩
  rw [pathSegments, List.drop_one, List.tail_cons]
  have hint : [0x2F].intercalate (rest.splitOn 0x2F) = rest := List.intercalate_splitOn 0x2F
  obtain ⟨first, more, hsplit⟩ := List.exists_cons_of_ne_nil (List.splitOn_ne_nil 0x2F rest)
  rw [hsplit] at hint ⊢
  rw [Segments.join_cons_eq_intercalate, hint]

/-- Without its trailing slash a clean path has no empty segment. -/
theorem stripSlash_nonempty (h : CleanPath path) (hroot : path ≠ [0x2F]) :
    ∀ s ∈ pathSegments (stripSlash path), s ≠ [] := by
  have hjoin := join_pathSegments h.slash
  have hslash : ∀ s ∈ pathSegments path, 0x2F ∉ s := fun s hs =>
    Segments.sep_notMem_of_mem_splitOn 0x2F _ hs
  obtain ⟨init, last, hsegs⟩ : ∃ init last, pathSegments path = init ++ [last] :=
    ⟨_, _, (List.dropLast_append_getLast (List.splitOn_ne_nil 0x2F _)).symm⟩
  have hinit : ∀ s ∈ init, s ≠ [] := by
    intro s hs
    exact h.interior s (by simpa [hsegs] using hs)
  rw [hsegs, Segments.join_append, Segments.join_singleton] at hjoin
  by_cases hlast : last = []
  · subst hlast
    have hne : init ≠ [] := by
      rintro rfl
      exact hroot (by simpa using hjoin.symm)
    have hlen : path.length > 1 := by
      obtain ⟨first, more, rfl⟩ := List.exists_cons_of_ne_nil hne
      simp [← hjoin, Segments.join]
    have hdrop : path.dropLast = Segments.join 0x2F init := by
      rw [← hjoin, List.dropLast_concat]
    have hback : pathSegments path.dropLast = init := by
      rw [hdrop]
      exact Segments.splitOn_join 0x2F hne fun s hs => hslash s (by simp [hsegs, hs])
    rw [stripSlash, if_pos ⟨hlen, by simp [← hjoin]⟩, hback]
    exact hinit
  have hend : path.getLast? ≠ some 0x2F := by
    intro hget
    obtain ⟨body, c, rfl⟩ : ∃ body c, last = body ++ [c] :=
      ⟨_, _, (List.dropLast_append_getLast hlast).symm⟩
    rw [← hjoin] at hget
    have hc : c = 0x2F := by
      simpa [List.getLast?_append, List.getLast?_cons] using hget
    exact hslash (body ++ [c]) (by simp [hsegs]) (by simp [hc])
  rw [stripSlash, if_neg fun hand => hend hand.2, hsegs]
  intro s hs
  rcases List.mem_append.mp hs with hs | hs
  · exact hinit s hs
  rw [List.mem_singleton.mp hs]
  exact hlast

/-- Below `/config` a clean path has no empty segment. -/
theorem controllerConfPath_nonempty {conf : Bytes} (h : CleanPath path)
    (hconf : controllerConfPath path = some conf) :
    conf = [0x2F] ∨ ∀ s ∈ pathSegments conf, s ≠ [] := by
  have hroot : path ≠ [0x2F] := by
    rintro rfl
    rw [show controllerConfPath [0x2F] = none from by decide] at hconf
    cases hconf
  have hne := stripSlash_nonempty h hroot
  rw [controllerConfPath] at hconf
  generalize stripSlash path = q at hne hconf
  split_ifs at hconf with hstart hlen
  · exact .inl (some.inj hconf).symm
  right
  cases hconf
  have hdrop : q.drop 7 = 0x2F :: q.drop 8 := by
    rw [List.drop_eq_getElem?_toList_append]
    simp [hstart.2.resolve_left hlen]
  have hq : q = 0x2F :: (str "config" ++ 0x2F :: q.drop 8) := by
    rw [← hdrop]
    conv_lhs => rw [← List.take_append_drop 7 q, hstart.1]
    rfl
  have hname : ∀ c ∈ str "config", (c == 0x2F) = false := by decide +kernel
  have hsegs : pathSegments q = str "config" :: pathSegments (q.drop 7) := by
    rw [hdrop]
    conv_lhs => rw [hq]
    exact List.splitOnP_append_cons_of_forall_mem hname 0x2F rfl _
  intro s hs
  exact hne s (by rw [hsegs]; exact List.mem_cons_of_mem _ hs)

theorem controllerConfPath_nonempty_slash :
    str "/a" = [0x2F] ∨ ∀ s ∈ pathSegments (str "/a"), s ≠ [] :=
  @controllerConfPath_nonempty (str "/config/a/") _ ⟨by decide, by decide, by decide⟩ (by decide)

end FreeUnit
