/-
Header fields and the tables of their handlers (`nxt_http_fields_process`).

A table is a hash of field names.  A field is looked up by the hash that the
parser has computed for it and, in the bucket, by its name in any letter case;
its handler may change the context and the field's flags, or stop the
processing with an HTTP status.

* `lookupField_of_wellHashed` — for a field with the right hash the name alone
  decides.
-/
import FreeUnit.HttpParse

namespace FreeUnit

open List

/-- `nxt_http_status_t`. -/
abbrev HttpStatus := ℕ

/-- `nxt_strcasestr_eq`: equal up to the case of ASCII letters. -/
def strcasestrEq (a b : Bytes) : Bool := a.map lowcase == b.map lowcase

/-- The hash of a field name, as `nxt_http_fields_hash` computes it for the
names of a table. -/
def httpFieldHash (name : Bytes) : UInt16 :=
  httpFieldHashEnd ((name.map lowcase).foldl httpFieldHashChar httpFieldHashInit)

def HttpField.WellHashed (f : HttpField) : Prop := f.hash = httpFieldHash f.name

def HttpField.ofLine (name value : Bytes) : HttpField :=
  { name := name, value := value, hash := httpFieldHash name }

theorem HttpField.wellHashed_ofLine (name value : Bytes) :
    (HttpField.ofLine name value).WellHashed := rfl

section Table

variable {η κ : Type*}

/-- `nxt_lvlhsh_find` in a table of names and handlers. -/
def lookupField (table : List (Bytes × η)) (f : HttpField) : Option η :=
  (table.find? fun e => httpFieldHash e.1 == f.hash && strcasestrEq f.name e.1).map (·.2)

theorem httpFieldHash_congr {a b : Bytes} (h : strcasestrEq a b = true) :
    httpFieldHash a = httpFieldHash b := by
  rw [strcasestrEq, beq_iff_eq] at h
  rw [httpFieldHash, httpFieldHash, h]

variable {f : HttpField}

theorem lookupField_of_wellHashed (table : List (Bytes × η)) (hf : f.WellHashed) :
    lookupField table f = (table.find? fun e => strcasestrEq f.name e.1).map (·.2) := by
  have hkey : (fun e : Bytes × η => httpFieldHash e.1 == f.hash && strcasestrEq f.name e.1)
      = fun e => strcasestrEq f.name e.1 := by
    funext e
    cases he : strcasestrEq f.name e.1 with
    | false => rw [Bool.and_false]
    | true => rw [hf, httpFieldHash_congr he, beq_self_eq_true, Bool.and_true]
  rw [lookupField, hkey]

/-- In a table without double names the name of a field tells its handler. -/
theorem lookupField_eq_some_iff {table : List (Bytes × η)}
    (hnodup : (table.map fun e => e.1.map lowcase).Nodup) (hf : f.WellHashed) (h : η) :
    lookupField table f = some h ↔ ∃ name, (name, h) ∈ table ∧ strcasestrEq f.name name := by
  rw [lookupField_of_wellHashed table hf]
  induction table with
  | nil => simp
  | cons e table ih => ?_
  rw [map_cons, nodup_cons] at hnodup
  rw [find?_cons]
  cases he : strcasestrEq f.name e.1 with
  | false =>
    rw [ih hnodup.2]
    constructor
    · rintro ⟨name, hmem, heq⟩
      exact ⟨name, mem_cons_of_mem _ hmem, heq⟩
    · rintro ⟨name, hmem, heq⟩
      rcases mem_cons.mp hmem with rfl | hmem
      · rw [he] at heq
        cases heq
      · exact ⟨name, hmem, heq⟩
  | true => ?_
  constructor
  · intro hsome
    cases hsome
    exact ⟨e.1, mem_cons_self, he⟩
  · rintro ⟨name, hmem, heq⟩
    rcases mem_cons.mp hmem with rfl | hmem
    · rfl
    -- a second entry for the name
    rw [strcasestrEq, beq_iff_eq] at he heq
    exact absurd (mem_map.mpr ⟨_, hmem, heq.symm.trans he⟩) hnodup.1

def fieldProcess (table : List (Bytes × η))
    (handler : η → κ → HttpField → Except HttpStatus (κ × HttpField)) (ctx : κ)
    (f : HttpField) : Except HttpStatus (κ × HttpField) :=
  match lookupField table f with
  | none => .ok (ctx, f)
  | some h => handler h ctx f

def fieldsProcess (table : List (Bytes × η))
    (handler : η → κ → HttpField → Except HttpStatus (κ × HttpField)) :
    κ → List HttpField → Except HttpStatus (κ × List HttpField)
  | ctx, [] => .ok (ctx, [])
  | ctx, f :: fields =>
    match fieldProcess table handler ctx f with
    | .error status => .error status
    | .ok (ctx, f) =>
      match fieldsProcess table handler ctx fields with
      | .error status => .error status
      | .ok (ctx, fields) => .ok (ctx, f :: fields)

variable (table : List (Bytes × η))
  (handler : η → κ → HttpField → Except HttpStatus (κ × HttpField))

variable {fields : List HttpField} {ctx : κ}

/-- Handlers that keep the names and values of the fields keep them in the
whole list. -/
theorem fieldsProcess_map {β : Type*} (g : HttpField → β)
    (hkeep : ∀ {h : η} {ctx ctx' : κ} {f f' : HttpField}, handler h ctx f = .ok (ctx', f') → g f' = g f)
    {fields' : List HttpField} {ctx' : κ}
    (h : fieldsProcess table handler ctx fields = .ok (ctx', fields')) :
    fields'.map g = fields.map g := by
  induction fields generalizing fields' ctx ctx' with
  | nil =>
    cases h
    rfl
  | cons f fields ih => ?_
  rw [fieldsProcess] at h
  cases hf : fieldProcess table handler ctx f with
  | error status =>
    rw [hf] at h
    cases h
  | ok x => ?_
  obtain ⟨ctx1, f1⟩ := x
  rw [hf] at h
  cases hrest : fieldsProcess table handler ctx1 fields with
  | error status =>
    simp only [hrest] at h
    cases h
  | ok y => ?_
  simp only [hrest] at h
  cases h
  have hg : g f1 = g f := by
    rw [fieldProcess] at hf
    cases hl : lookupField table f with
    | none =>
      rw [hl] at hf
      cases hf
      rfl
    | some h => ?_
    rw [hl] at hf
    exact hkeep hf
  rw [map_cons, map_cons, hg, ih hrest]

/-- **The rule for a table.**  If a field is accepted exactly when the fields
up to it meet a condition, and then keeps an invariant of the context, the same
holds of the whole list. -/
theorem fieldsProcess_rule (Inv : κ → List HttpField → Prop) (Accepted : List HttpField → Prop)
    (haccepted : ∀ {seen more : List HttpField}, Accepted (seen ++ more) → Accepted seen)
    (hstep : ∀ {ctx : κ} {seen : List HttpField} {f : HttpField}, Inv ctx seen → Accepted seen → f ∈ fields → (Accepted (seen ++ [f]) ∧ ∃ ctx' f', fieldProcess table handler ctx f = .ok (ctx', f') ∧ Inv ctx' (seen ++ [f])) ∨ (¬ Accepted (seen ++ [f]) ∧ ∃ status, fieldProcess table handler ctx f = .error status))
    (hinit : Inv ctx []) (hnil : Accepted []) :
    (Accepted fields ∧ ∃ ctx' fields', fieldsProcess table handler ctx fields
        = .ok (ctx', fields') ∧ Inv ctx' fields) ∨
      (¬ Accepted fields ∧ ∃ status, fieldsProcess table handler ctx fields = .error status) := by
  suffices ∀ (rest : List HttpField) {ctx : κ} {seen : List HttpField}, Inv ctx seen →
      Accepted seen → rest ⊆ fields →
      (Accepted (seen ++ rest) ∧ ∃ ctx' fields', fieldsProcess table handler ctx rest
          = .ok (ctx', fields') ∧ Inv ctx' (seen ++ rest)) ∨
        (¬ Accepted (seen ++ rest) ∧ ∃ status,
          fieldsProcess table handler ctx rest = .error status) from
    this fields hinit hnil (List.Subset.refl _)
  intro rest
  induction rest with
  | nil =>
    intro ctx seen hinv hacc _
    rw [append_nil]
    exact .inl ⟨hacc, ctx, [], rfl, hinv⟩
  | cons f rest ih => ?_
  intro ctx seen hinv hacc hsub
  rw [cons_subset] at hsub
  rw [append_cons, fieldsProcess]
  rcases hstep hinv hacc hsub.1 with ⟨hacc', ctx', f', hf, hinv'⟩ | ⟨hrefused, status, hf⟩
  · rw [hf]
    dsimp only
    rcases ih hinv' hacc' hsub.2 with ⟨hall, ctx'', fields', hrest, hinv''⟩ | ⟨hnot, status, hrest⟩
    · exact .inl ⟨hall, ctx'', f' :: fields', by rw [hrest], hinv''⟩
    · exact .inr ⟨hnot, status, by rw [hrest]⟩
  rw [hf]
  exact .inr ⟨fun hall => hrefused (haccepted hall), status, rfl⟩

end Table

def fieldValues (name : Bytes) (fields : List HttpField) : List Bytes :=
  (fields.filter fun f => strcasestrEq f.name name).map (·.value)

theorem fieldValues_append (name : Bytes) (l m : List HttpField) :
    fieldValues name (l ++ m) = fieldValues name l ++ fieldValues name m := by
  simp [fieldValues]

end FreeUnit
