/-
Partial edits of the configuration (`nxt_conf_op_compile`, `nxt_conf_clone`).

An edit is compiled against the tree: the walk along the path leaves one
operation for each token, with the index of the child it went through, and
the last one says what happens there.  The clone then replays the list of
operations over the tree with indices only.

* `confOpCompile`, `confClone` — the two passes;
* `Conf.update` — the functional update of the tree at a path;
* `editCorrect_iff` — an edit is compiled and applied correctly unless it is a
  set below an existing scalar, where `nxt_conf_op_compile` lacks a test.
-/
import FreeUnit.ConfTree

namespace FreeUnit

open Nested List Option

/-- What a request wants: `value` with and without `add`, or no value. -/
inductive ConfEdit where
  | set (value : Conf)
  | append (value : Conf)
  | delete
  deriving Repr

/-- What `NXT_CONF_OP_CREATE` has in its `ctx`: an element for an array, a
member for an object. -/
inductive CreateCtx where
  | element (value : Conf)
  | member (name : Bytes) (value : Conf)
  deriving Repr

/-- A list of operations: `index` and `ctx` by the action. -/
inductive ConfOp where
  | pass (index : ℕ) (ctx : ConfOp)
  | create (index : ℕ) (ctx : CreateCtx)
  | replace (index : ℕ) (ctx : Conf)
  | delete (index : ℕ)
  deriving Repr

/-- `nxt_conf_op_ret_t`. -/
inductive OpRet where
  | ok (ops : ConfOp)
  | notFound
  | notAllowed
  | error
  deriving Repr

/-! ### Compilation -/

/-- The node that a token selects, with `op->index`: the `switch` of the loop.
`none` is its `NXT_CONF_OP_NOT_FOUND`. -/
def opNode (root : Conf) (token : Bytes) : Option (ℕ × Option Conf) :=
  match root with
  | .object members =>
    match getObjectMember token members with
    | some (index, node) => some (index, some node)
    | none => some (0, none)
  | .array elements => (elementIndex token).map fun index => (index, elements[index]?)
  | _ => some (0, none)

section Compile

-- What reading `root->u.object->count` yields when `root` is a scalar, whose
-- bytes are no pointer.  The behaviour is undefined; where the read returns at
-- all, its value is arbitrary.
variable (scalarCount : Conf → ℕ)

/-- What follows the loop: `root` holds the last token, `node` is under it. -/
def opLast (root : Conf) (token : Bytes) (index : ℕ) (node : Option Conf) : ConfEdit → OpRet
  | .delete =>
    match node with
    | none => .notFound
    | some _ => .ok (.delete index)
  | .append value =>
    match node with
    | none => .notFound
    | some (.array elements) => .ok (.pass index (.create elements.length (.element value)))
    | some _ => .notAllowed
  | .set value =>
    match node with
    | some _ => .ok (.replace index value)
    | none =>
      match root with
      | .array elements =>
        if index > elements.length then .notFound else .ok (.create index (.element value))
      | .object members => .ok (.create members.length (.member token value))
      -- the `else` branch of the source, with no test that `root` is an object
      | _ => .ok (.create (scalarCount root) (.member token value))

/-- The loop of `nxt_conf_op_compile`. -/
def opLoop (edit : ConfEdit) : Conf → Bytes → List Bytes → OpRet
  | root, segment, more =>
    match pathToken segment with
    | none => .error
    | some token =>
      match opNode root token with
      | none => .notFound
      | some (index, node) =>
        match more with
        | [] => opLast scalarCount root token index node edit
        | next :: more =>
          match node with
          | none => .notFound
          | some node =>
            match opLoop edit node next more with
            | .ok ops => .ok (.pass index ops)
            | ret => ret

def confOpCompile (root : Conf) (path : Bytes) (edit : ConfEdit) : OpRet :=
  opLoop scalarCount edit root (confSegments path).1 (confSegments path).2

end Compile

/-! ### Cloning -/

/-- The loop of `nxt_conf_copy_array` and `nxt_conf_copy_object`: the items
before `index` are copied, `act` does the operation on what is left of the
source, the rest is copied.  An index behind the end would be read past it. -/
def copyItems {α : Type*} (index : ℕ) (act : List α → Option (List α)) (src : List α) :
    Option (List α) :=
  if index > src.length then none
  else (act (src.drop index)).map (src.take index ++ ·)

def actOnItem {α : Type*} (act : α → Option (List α)) : List α → Option (List α)
  | [] => none
  | item :: rest => (act item).map (· ++ rest)

/-- `nxt_conf_copy_value` with an operation.  Without one it duplicates the
value, so those copies are the values themselves here. -/
def copyValue : ConfOp → Conf → Option Conf
  | .pass index ctx, .array elements =>
    (copyItems index (actOnItem fun e => (copyValue ctx e).map ([·])) elements).map .array
  | .pass index ctx, .object members =>
    (copyItems index (actOnItem fun m => (copyValue ctx m.2).map fun v => [(m.1, v)])
      members).map .object
  | .create index (.element value), .array elements =>
    (copyItems index (fun rest => some (value :: rest)) elements).map .array
  | .create index (.member name value), .object members =>
    (copyItems index (fun rest => some ((name, value) :: rest)) members).map .object
  | .replace index value, .array elements =>
    (copyItems index (actOnItem fun _ => some [value]) elements).map .array
  | .replace index value, .object members =>
    (copyItems index (actOnItem fun m => some [(m.1, value)]) members).map .object
  | .delete index, .array elements =>
    (copyItems index (actOnItem fun _ => some []) elements).map .array
  | .delete index, .object members =>
    (copyItems index (actOnItem fun _ => some []) members).map .object
  | _, _ => none

def confClone (ops : ConfOp) (value : Conf) : Option Conf := copyValue ops value

/-! ### The functional update -/

/-- The member of that name gets the value, in its place or behind the others. -/
def setMember (name : Bytes) (value : Conf) : List (Bytes × Conf) → List (Bytes × Conf)
  | [] => [(name, value)]
  | m :: ms => if m.1 = name then (name, value) :: ms else m :: setMember name value ms

/-- The child under `token` replaced. -/
def Conf.put (t : Conf) (token : Bytes) (c : Conf) : Conf :=
  match t with
  | .object members => .object (setMember token c members)
  | .array elements => .array ((elementIndex token).elim elements fun i => elements.set i c)
  | t => t

/-- An edit of the value that holds the last token.  A set replaces or creates
a member, replaces an element or adds the next one; an append adds an element
to the array under the token; a delete removes the child. -/
def Conf.applyEdit (edit : ConfEdit) (t : Conf) (token : Bytes) : Option Conf :=
  match edit, t with
  | .set value, .object members => some (.object (setMember token value members))
  | .set value, .array elements =>
    (elementIndex token).bind fun i =>
      if i < elements.length then some (.array (elements.set i value))
      else if i = elements.length then some (.array (elements ++ [value]))
      else none
  | .append value, t =>
    match t.child token with
    | some (.array elements) => some (t.put token (.array (elements ++ [value])))
    | _ => none
  | .delete, .object members =>
    if (getObjectMember token members).isSome then
      some (.object (members.eraseP fun m => m.1 = token))
    else none
  | .delete, .array elements =>
    (elementIndex token).bind fun i =>
      if i < elements.length then some (.array (elements.eraseIdx i)) else none
  | _, _ => none

def Conf.update (edit : ConfEdit) (root : Conf) (token : Bytes) (more : List Bytes) :
    Option Conf :=
  editAt Conf.child Conf.put (Conf.applyEdit edit) root token more

/-! ### Items of a list -/

theorem copyItems_append {α : Type*} (act : List α → Option (List α)) (pre post : List α) :
    copyItems pre.length act (pre ++ post) = (act post).map (pre ++ ·) := by
  simp [copyItems]

theorem copyItems_length {α : Type*} (act : List α → Option (List α)) (src : List α) :
    copyItems src.length act src = (act []).map (src ++ ·) := by
  simp [copyItems]

variable {name token : Bytes} {c t : Conf} {index : ℕ}

variable {ms : List (Bytes × Conf)}

theorem getObjectMember_split {index : ℕ} {c : Conf} (h : getObjectMember name ms = some (index, c)) :
    ∃ pre post, ms = pre ++ (name, c) :: post ∧ pre.length = index ∧ ∀ m ∈ pre, m.1 ≠ name := by
  induction ms generalizing index c with
  | nil =>
    cases h
  | cons m ms ih => ?_
  rw [getObjectMember] at h
  split_ifs at h with hm
  · cases h
    exact ⟨[], ms, by simp [← hm], rfl, by simp⟩
  obtain ⟨⟨i, d⟩, hfound, heq⟩ := map_eq_some_iff.mp h
  cases heq
  obtain ⟨pre, post, rfl, rfl, hpre⟩ := ih hfound
  refine ⟨m :: pre, post, rfl, rfl, ?_⟩
  rintro x (_ | ⟨_, hx⟩)
  · exact hm
  · exact hpre x hx

theorem getObjectMember_eq_none (h : getObjectMember name ms = none) : ∀ m ∈ ms, m.1 ≠ name := by
  induction ms with
  | nil => simp
  | cons m ms ih => ?_
  rw [getObjectMember] at h
  split_ifs at h with hm
  rintro x (_ | ⟨_, hx⟩)
  · exact hm
  · exact ih (map_eq_none_iff.mp h) x hx

variable {pre : List (Bytes × Conf)}

theorem getObjectMember_append (hpre : ∀ m ∈ pre, m.1 ≠ name) (c : Conf)
    (post : List (Bytes × Conf)) :
    getObjectMember name (pre ++ (name, c) :: post) = some (pre.length, c) := by
  induction pre with
  | nil => simp [getObjectMember]
  | cons m pre ih => ?_
  rw [cons_append, getObjectMember, if_neg (hpre m (by simp)),
    ih fun x hx => hpre x (mem_cons_of_mem _ hx)]
  rfl

theorem setMember_append (hpre : ∀ m ∈ pre, m.1 ≠ name) (c v : Conf) (post : List (Bytes × Conf)) :
    setMember name v (pre ++ (name, c) :: post) = pre ++ (name, v) :: post := by
  induction pre with
  | nil => simp [setMember]
  | cons m pre ih => ?_
  rw [cons_append, setMember, if_neg (hpre m (by simp)),
    ih fun x hx => hpre x (mem_cons_of_mem _ hx)]
  rfl

theorem setMember_eq_append (hms : ∀ m ∈ ms, m.1 ≠ name) (v : Conf) :
    setMember name v ms = ms ++ [(name, v)] := by
  induction ms with
  | nil => rfl
  | cons m ms ih => ?_
  rw [setMember, if_neg (hms m (by simp)), ih fun x hx => hms x (mem_cons_of_mem _ hx)]
  rfl

theorem eraseP_append_cons (hpre : ∀ m ∈ pre, m.1 ≠ name) (c : Conf) (post : List (Bytes × Conf)) :
    (pre ++ (name, c) :: post).eraseP (fun m => m.1 = name) = pre ++ post := by
  rw [eraseP_append_right _ fun m hm => by simpa using hpre m hm]
  simp

variable {es : List Conf}

theorem getElem?_split {i : ℕ} (h : es[i]? = some c) :
    ∃ pre post, es = pre ++ c :: post ∧ pre.length = i := by
  obtain ⟨hi, rfl⟩ := List.getElem?_eq_some_iff.mp h
  refine ⟨es.take i, es.drop (i + 1), ?_, by simp [hi.le]⟩
  rw [getElem_cons_drop, take_append_drop]

/-! ### One token -/

/-- A child found in a tree: `opNode` gives its index, and the operations at
that index are those on the child under the token. -/
structure ChildAt (t : Conf) (token : Bytes) (index : ℕ) (c : Conf) : Prop where
  child : t.child token = some c
  pass : ∀ ops c', copyValue ops c = some c' →
    copyValue (.pass index ops) t = some (t.put token c')
  pass_none : ∀ ops, copyValue ops c = none → copyValue (.pass index ops) t = none
  replace : ∀ v, copyValue (.replace index v) t = some (t.put token v)
  set : ∀ v, t.applyEdit (.set v) token = some (t.put token v)
  delete : ∃ t', copyValue (.delete index) t = some t' ∧ t.applyEdit .delete token = some t'

theorem childAt_object (h : getObjectMember token ms = some (index, c)) :
    ChildAt (.object ms) token index c := by
  obtain ⟨pre, post, rfl, rfl, hpre⟩ := getObjectMember_split h
  refine ⟨?_, ?_, ?_, ?_, ?_, ?_⟩
  · simp [Conf.child, h]
  · intro ops c' hc
    simp [copyValue, copyItems_append, actOnItem, hc, Conf.put, setMember_append hpre]
  · intro ops hc
    simp [copyValue, copyItems_append, actOnItem, hc]
  · intro v
    simp [copyValue, copyItems_append, actOnItem, Conf.put, setMember_append hpre]
  · intro v
    rfl
  · refine ⟨.object (pre ++ post), ?_, ?_⟩
    · simp [copyValue, copyItems_append, actOnItem]
    · simp [Conf.applyEdit, h, eraseP_append_cons hpre]

theorem childAt_array (hindex : elementIndex token = some index) (h : es[index]? = some c) :
    ChildAt (.array es) token index c := by
  obtain ⟨pre, post, rfl, rfl⟩ := getElem?_split h
  refine ⟨?_, ?_, ?_, ?_, ?_, ?_⟩
  · simp [Conf.child, hindex]
  · intro ops c' hc
    simp [copyValue, copyItems_append, actOnItem, hc, Conf.put, hindex]
  · intro ops hc
    simp [copyValue, copyItems_append, actOnItem, hc]
  · intro v
    simp [copyValue, copyItems_append, actOnItem, Conf.put, hindex]
  · intro v
    simp [Conf.applyEdit, Conf.put, hindex]
  · refine ⟨.array (pre ++ post), ?_, ?_⟩
    · simp [copyValue, copyItems_append, actOnItem]
    · simp [Conf.applyEdit, hindex, eraseIdx_append_of_length_le]

/-- **What `opNode` finds.** -/
theorem opNode_some
    (h : opNode t token = some (index, some c)) : ChildAt t token index c := by
  cases t with
  | object ms =>
    rw [opNode] at h
    cases hm : getObjectMember token ms with
    | none =>
      rw [hm] at h
      cases h
    | some found => ?_
    rw [hm] at h
    cases h
    exact childAt_object hm
  | array es =>
    obtain ⟨i, hi, heq⟩ := map_eq_some_iff.mp h
    injection heq with hindex hc
    subst hindex
    exact childAt_array hi hc
  | null | boolean b | integer s | number s | string s => cases h

/-- Where `opNode` finds nothing there is no child. -/
theorem opNode_none
    (h : opNode t token = some (index, none)) : t.child token = none := by
  cases t with
  | object ms =>
    rw [opNode] at h
    cases hm : getObjectMember token ms with
    | none => simp [Conf.child, hm]
    | some found => ?_
    rw [hm] at h
    cases h
  | array es =>
    obtain ⟨i, hi, heq⟩ := map_eq_some_iff.mp h
    injection heq with hindex hc
    simp [Conf.child, hi, hc]
  | null | boolean b | integer s | number s | string s => rfl

/-- A child is found by `opNode`. -/
theorem opNode_of_child (h : t.child token = some c) :
    ∃ index, opNode t token = some (index, some c) := by
  cases t with
  | object ms =>
    obtain ⟨⟨i, d⟩, hm, rfl⟩ := map_eq_some_iff.mp h
    exact ⟨i, by rw [opNode, hm]⟩
  | array es =>
    obtain ⟨i, hi, hc⟩ := bind_eq_some_iff.mp h
    exact ⟨i, by simp [opNode, hi, hc]⟩
  | null | boolean b | integer s | number s | string s => cases h

/-! ### A compiled edit -/

variable {root : Conf} {more : List Bytes}

section Correct

variable {scalarCount : Conf → ℕ} {edit : ConfEdit}

variable {ops : ConfOp}

/-- The operation at the last token does the edit there, unless it sets a
member of a scalar; then it cannot be applied. -/
theorem opLast_ok {node : Option Conf} (hnode : opNode root token = some (index, node))
    (h : opLast scalarCount root token index node edit = .ok ops) :
    (∃ r, copyValue ops root = some r ∧ root.applyEdit edit token = some r) ∨
      ((∃ v, edit = .set v) ∧ root.isContainer = false ∧ copyValue ops root = none) := by
  cases node with
  | some c =>
    have hat := opNode_some hnode
    left
    cases edit with
    | delete =>
      cases h
      exact hat.delete
    | append v =>
      cases c with
      | array es =>
        cases h
        refine ⟨root.put token (.array (es ++ [v])), ?_, ?_⟩
        · exact hat.pass _ _ (by simp [copyValue, copyItems_length])
        · simp [Conf.applyEdit, hat.child]
      | null | boolean b | integer s | number s | string s | object ms => cases h
    | set v =>
      cases h
      exact ⟨root.put token v, hat.replace v, hat.set v⟩
  | none => ?_
  have hchild := opNode_none hnode
  cases edit with
  | delete | append => cases h
  | set v => ?_
  cases root with
  | object ms =>
    cases h
    left
    have hms : ∀ m ∈ ms, m.1 ≠ token := getObjectMember_eq_none (by simpa [Conf.child] using hchild)
    refine ⟨.object (ms ++ [(token, v)]), ?_, ?_⟩
    · simp [copyValue, copyItems_length]
    · simp [Conf.applyEdit, setMember_eq_append hms]
  | array es =>
    left
    obtain ⟨i, hi, heq⟩ := map_eq_some_iff.mp hnode
    injection heq with hindex hnone
    subst hindex
    rw [opLast] at h
    split_ifs at h with hlen
    cases h
    -- there is no element at the index, so it is the end of the array
    have hend : i = es.length := by
      have := getElem?_eq_none_iff.mp hnone
      omega
    subst hend
    refine ⟨.array (es ++ [v]), ?_, ?_⟩
    · simp [copyValue, copyItems_length]
    · simp [Conf.applyEdit, hi]
  | null | boolean b | integer s | number s | string s =>
    cases h
    exact .inr ⟨⟨v, rfl⟩, rfl, rfl⟩

/-- The edit sets a member of a scalar that the path leads to. -/
def SetsScalar (root : Conf) (segments : List Bytes) (edit : ConfEdit) : Prop :=
  ∃ v token more t last, edit = .set v ∧ pathTokens segments = some (token :: more) ∧
    holder Conf.child root token more = some (t, last) ∧ t.isContainer = false

/-- **Accepted edits.**  What is compiled can be applied and is the update of
the tree, or it sets a member of a scalar and cannot be applied. -/
theorem opLoop_ok {segment : Bytes} (h : opLoop scalarCount edit root segment more = .ok ops) :
    (∃ token rest r, pathTokens (segment :: more) = some (token :: rest) ∧
      copyValue ops root = some r ∧ Conf.update edit root token rest = some r) ∨
    (SetsScalar root (segment :: more) edit ∧ copyValue ops root = none) := by
  induction more generalizing root segment ops with
  | nil =>
    rw [opLoop] at h
    cases ht : pathToken segment with
    | none =>
      rw [ht] at h
      cases h
    | some token => ?_
    cases hn : opNode root token with
    | none =>
      simp only [ht, hn] at h
      cases h
    | some found => ?_
    simp only [ht, hn] at h
    have htokens : pathTokens [segment] = some [token] :=
      pathTokens_cons_eq_some.mpr ⟨token, [], ht, rfl, rfl⟩
    rcases opLast_ok hn h with ⟨r, hcopy, hedit⟩ | ⟨⟨v, rfl⟩, hscalar, hcopy⟩
    · exact .inl ⟨token, [], r, htokens, hcopy, hedit⟩
    · exact .inr ⟨⟨v, token, [], root, token, rfl, htokens, rfl, hscalar⟩, hcopy⟩
  | cons next more ih => ?_
  rw [opLoop] at h
  cases ht : pathToken segment with
  | none =>
    rw [ht] at h
    cases h
  | some token => ?_
  rcases hn : opNode root token with _ | ⟨index, _ | c⟩
  · simp only [ht, hn] at h
    cases h
  · simp only [ht, hn] at h
    cases h
  simp only [ht, hn] at h
  cases hloop : opLoop scalarCount edit c next more with
  | ok ops' =>
    rw [hloop] at h
    cases h
    have hat := opNode_some hn
    rcases ih hloop with ⟨token', rest, r, htok, hcopy, hup⟩ | ⟨hset, hcopy⟩
    · refine .inl ⟨token, token' :: rest, root.put token r, ?_, hat.pass _ _ hcopy, ?_⟩
      · exact pathTokens_cons_eq_some.mpr ⟨token, _, ht, htok, rfl⟩
      · exact (editAt_cons_eq_some _ _ _).mpr ⟨c, r, hat.child, hup, rfl⟩
    obtain ⟨v, token', rest, t, last, hv, htok, hholder, hscalar⟩ := hset
    refine .inr ⟨⟨v, token, token' :: rest, t, last, hv, ?_, ?_, hscalar⟩, hat.pass_none _ hcopy⟩
    · exact pathTokens_cons_eq_some.mpr ⟨token, _, ht, htok, rfl⟩
    · rw [holder, hat.child, bind_some, hholder]
  | notFound | notAllowed | error =>
    rw [hloop] at h
    cases h

/-- A set below a scalar is accepted: the source has no test against it. -/
theorem opLoop_of_setsScalar : ∀ {more : List Bytes} {root : Conf} {segment : Bytes},
    SetsScalar root (segment :: more) edit →
    ∃ ops, opLoop scalarCount edit root segment more = .ok ops := by
  intro more
  induction more with
  | nil =>
    rintro root segment ⟨v, token, rest, t, last, rfl, htok, hholder, hscalar⟩
    obtain ⟨token', rest', ht, hrest, heq⟩ := pathTokens_cons_eq_some.mp htok
    cases hrest
    cases heq
    cases hholder
    refine ⟨.create (scalarCount root) (.member token v), ?_⟩
    rw [opLoop]
    cases root with
    | array | object => cases hscalar
    | null | boolean b | integer s | number s | string s =>
      simp only [ht]
      rfl
  | cons next more ih => ?_
  rintro root segment ⟨v, token, rest, t, last, rfl, htok, hholder, hscalar⟩
  obtain ⟨token', rest', ht, hrest, heq⟩ := pathTokens_cons_eq_some.mp htok
  cases heq
  obtain ⟨next', rest'', hnext, hrest', rfl⟩ := pathTokens_cons_eq_some.mp hrest
  obtain ⟨c, hc, hholder'⟩ := bind_eq_some_iff.mp hholder
  obtain ⟨ops, hops⟩ := ih ⟨v, next', rest'', t, last, rfl, hrest, hholder', hscalar⟩
  obtain ⟨index, hindex⟩ := opNode_of_child hc
  refine ⟨.pass index ops, ?_⟩
  rw [opLoop]
  simp only [ht, hindex, hops]

end Correct

/-! ### Looking the new value up -/

theorem child_put (h : t.child token = some c) (c' : Conf) :
    (t.put token c').child token = some c' := by
  cases t with
  | object ms =>
    obtain ⟨⟨i, d⟩, hm, rfl⟩ := map_eq_some_iff.mp h
    obtain ⟨pre, post, rfl, -, hpre⟩ := getObjectMember_split hm
    simp [Conf.put, Conf.child, setMember_append hpre, getObjectMember_append hpre]
  | array es =>
    obtain ⟨i, hi, hc⟩ := bind_eq_some_iff.mp h
    obtain ⟨pre, post, rfl, rfl⟩ := getElem?_split hc
    simp [Conf.put, Conf.child, hi]
  | null | boolean b | integer s | number s | string s => cases h

theorem child_setMember (name : Bytes) (v : Conf) (ms : List (Bytes × Conf)) :
    (Conf.object (setMember name v ms)).child name = some v := by
  cases hm : getObjectMember name ms with
  | none =>
    have hms := getObjectMember_eq_none hm
    simp [Conf.child, setMember_eq_append hms, getObjectMember_append hms]
  | some found => ?_
  obtain ⟨pre, post, rfl, -, hpre⟩ := getObjectMember_split hm
  simp [Conf.child, setMember_append hpre, getObjectMember_append hpre]

variable {t' : Conf}

theorem child_of_applyEdit_set {v : Conf} (h : t.applyEdit (.set v) token = some t') :
    t'.child token = some v := by
  cases t with
  | object ms =>
    cases h
    exact child_setMember token v ms
  | array es =>
    obtain ⟨i, hi, h⟩ := bind_eq_some_iff.mp h
    split_ifs at h with hlt heq
    · cases h
      simp [Conf.child, hi, hlt]
    cases h
    simp [Conf.child, hi, heq]
  | null | boolean b | integer s | number s | string s => cases h

theorem isContainer_of_applyEdit {edit : ConfEdit} (h : t.applyEdit edit token = some t') :
    t.isContainer = true := by
  cases t with
  | object | array => rfl
  | null | boolean b | integer s | number s | string s => cases edit <;> cases h

/-! ### Correctness of edits -/

/-- All segments of the path but the last lead through the tree to an array or
an object. -/
def ParentsExist (root : Conf) (path : Bytes) : Prop :=
  ∃ token more t last, pathTokens (pathSegments path) = some (token :: more) ∧
    holder Conf.child root token more = some (t, last) ∧ t.isContainer = true

/-- What is expected of an edit.  If it is accepted it can be applied, the
result is the functional update, and a set value is found at its path; without
parents it is not accepted. -/
structure EditCorrect (scalarCount : Conf → ℕ) (root : Conf) (path : Bytes) (edit : ConfEdit) :
    Prop where
  applied : ∀ ops, confOpCompile scalarCount root path edit = .ok ops →
    ∃ token more r, pathTokens (pathSegments path) = some (token :: more) ∧
      confClone ops root = some r ∧ Conf.update edit root token more = some r ∧
      ∀ v, edit = .set v → confGetPath r path = some v
  refused : ¬ ParentsExist root path → ∀ ops, confOpCompile scalarCount root path edit ≠ .ok ops

theorem pathSegments_eq_cons (path : Bytes) :
    pathSegments path = (confSegments path).1 :: (confSegments path).2 := by
  obtain ⟨segment, more, h⟩ := exists_cons_of_ne_nil (splitOn_ne_nil 0x2F (path.drop 1))
  have hsegs : pathSegments path = segment :: more := h
  rw [confSegments, hsegs]

theorem parentsExist_of_update {r : Conf} {path : Bytes} {edit : ConfEdit}
    (htok : pathTokens (pathSegments path) = some (token :: more))
    (hup : Conf.update edit root token more = some r) : ParentsExist root path := by
  obtain ⟨t, last, t', hholder, hedit⟩ := holder_of_editAt _ _ _ hup
  exact ⟨token, more, t, last, htok, hholder, isContainer_of_applyEdit hedit⟩

/-- **Partial edits are correct unless they set a member of a scalar.**  The
condition is on the tree and the path only. -/
theorem editCorrect_iff (scalarCount : Conf → ℕ) (root : Conf) (path : ConfPath)
    (edit : ConfEdit) :
    EditCorrect scalarCount root path.text edit ↔
      ¬ SetsScalar root (pathSegments path.text) edit := by
  have hsegs := pathSegments_eq_cons path.text
  constructor
  · intro hcorrect hset
    -- such a set is accepted, although there is no update that it could be
    obtain ⟨ops, hops⟩ : ∃ ops, confOpCompile scalarCount root path.text edit = .ok ops :=
      opLoop_of_setsScalar (hsegs ▸ hset)
    obtain ⟨v, token, more, t, last, rfl, htok, hholder, hscalar⟩ := hset
    obtain ⟨token', more', r, htok', -, hup, -⟩ := hcorrect.applied ops hops
    cases htok.symm.trans htok'
    obtain ⟨t', last', t'', hholder', hedit⟩ := holder_of_editAt _ _ _ hup
    cases hholder.symm.trans hholder'
    rw [isContainer_of_applyEdit hedit] at hscalar
    cases hscalar
  · intro hset
    have hok : ∀ ops, confOpCompile scalarCount root path.text edit = .ok ops →
        ∃ token more r, pathTokens (pathSegments path.text) = some (token :: more) ∧
          confClone ops root = some r ∧ Conf.update edit root token more = some r := by
      intro ops hops
      rcases opLoop_ok hops with hr | ⟨hscalar, -⟩
      · rwa [← hsegs] at hr
      · exact absurd (hsegs ▸ hscalar) hset
    constructor
    · intro ops hops
      obtain ⟨token, more, r, htok, hcopy, hup⟩ := hok ops hops
      refine ⟨token, more, r, htok, hcopy, hup, ?_⟩
      rintro v rfl
      have hlookup : lookup Conf.child r (token :: more) = some v :=
        lookup_editAt Conf.child Conf.put (Conf.applyEdit (.set v))
          (fun _ _ _ c' hc => child_put hc c') (fun _ _ _ h => child_of_applyEdit_set h) hup
      rw [confGetPath, getPathLoop_eq_lookup (hsegs ▸ path.nonempty) (hsegs ▸ htok), hlookup]
    · intro hparents ops hops
      obtain ⟨token, more, r, htok, -, hup⟩ := hok ops hops
      exact hparents (parentsExist_of_update htok hup)

/-- With the configuration `{"a": 1}` the set of `/a/b` is compiled into
operations that cannot be applied. -/
theorem confOpCompile_below_scalar :
    let root := Conf.object [(str "a", .integer (str "1"))]
    let edit := ConfEdit.set .null
    ¬ EditCorrect (fun _ => 0) root (str "/a/b") edit ∧
      ∃ ops, confOpCompile (fun _ => 0) root (str "/a/b") edit = .ok ops ∧
        confClone ops root = none := by
  intro root edit
  have hops : confOpCompile (fun _ => 0) root (str "/a/b") edit =
      .ok (.pass 0 (.create 0 (.member (str "b") .null))) := rfl
  refine ⟨?_, _, hops, rfl⟩
  intro h
  obtain ⟨token, more, r, -, hclone, -⟩ := h.applied _ hops
  cases hclone

end FreeUnit
