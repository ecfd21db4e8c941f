/-
Edits at a path of a nested value, over any type of values and keys.

A value has children under keys (`child`), and a child can be put back in its
place (`put`).  A path is a first key and the keys after it, so that it is
never empty; an edit acts on the value that holds the last key.

* `holder_of_editAt` — an edit at a path is defined only where the holder of its
  last key exists and the edit is defined there.
-/
import Mathlib

namespace FreeUnit.Nested

open Option

variable {T K : Type*} (child : T → K → Option T) (put : T → K → T → T)

def lookup : T → List K → Option T
  | t, [] => some t
  | t, k :: ks => (child t k).bind fun c => lookup c ks

/-- The value that holds the last key of the path `k, ks`, and that key. -/
def holder : T → K → List K → Option (T × K)
  | t, k, [] => some (t, k)
  | t, k, k' :: ks => (child t k).bind fun c => holder c k' ks

variable (edit : T → K → Option T)

/-- The edit of the holder of the last key, put back along the path. -/
def editAt : T → K → List K → Option T
  | t, k, [] => edit t k
  | t, k, k' :: ks => (child t k).bind fun c => (editAt c k' ks).map (put t k)

variable {t t' : T} {k : K} {ks : List K}

theorem editAt_cons_eq_some {k' : K} : editAt child put edit t k (k' :: ks) = some t' ↔
      ∃ c c', child t k = some c ∧ editAt child put edit c k' ks = some c' ∧ put t k c' = t' := by
  simp only [editAt, bind_eq_some_iff, map_eq_some_iff]
  constructor
  · rintro ⟨c, hc, c', hc', rfl⟩
    exact ⟨c, c', hc, hc', rfl⟩
  · rintro ⟨c, c', hc, hc', rfl⟩
    exact ⟨c, hc, c', hc', rfl⟩

theorem holder_of_editAt (h : editAt child put edit t k ks = some t') :
    ∃ p last p', holder child t k ks = some (p, last) ∧ edit p last = some p' := by
  induction ks generalizing t t' k with
  | nil =>
    exact ⟨t, k, t', rfl, h⟩
  | cons k' ks ih => ?_
  obtain ⟨c, c', hc, hc', -⟩ := (editAt_cons_eq_some child put edit).mp h
  obtain ⟨p, last, p', hp, hedit⟩ := ih hc'
  exact ⟨p, last, p', by rw [holder, hc, bind_some, hp], hedit⟩

/-- What the edit leaves under the last key is what stands at the path. -/
theorem lookup_editAt {v : T}
    (hput : ∀ t k c c', child t k = some c → child (put t k c') k = some c')
    (hedit : ∀ t k t', edit t k = some t' → child t' k = some v)
    (h : editAt child put edit t k ks = some t') : lookup child t' (k :: ks) = some v := by
  induction ks generalizing t t' k with
  | nil =>
    simpa [lookup] using hedit t k t' h
  | cons k' ks ih => ?_
  obtain ⟨c, c', hc, hc', rfl⟩ := (editAt_cons_eq_some child put edit).mp h
  rw [lookup, hput t k c c' hc, bind_some]
  exact ih hc'

end FreeUnit.Nested
