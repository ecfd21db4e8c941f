/-
Numbered resources, each of them in one place.

`Exact n c` says that the resources `0, …, n - 1` are spread over places, every
one in exactly one of them; `c a` lists those of the place `a`.

* `Exact.moveAll`, `Exact.move` — moving resources, or one, from a place to
  another keeps this.
-/
import Mathlib

namespace FreeUnit

variable {π : Type*} {n : ℕ} {c c' : π → List ℕ}

/-- Every resource is in exactly one place, and there once. -/
structure Exact (n : ℕ) (c : π → List ℕ) : Prop where
  nodup : ∀ a, (c a).Nodup
  lt : ∀ a, ∀ i ∈ c a, i < n
  place : ∀ i < n, ∃ a, i ∈ c a
  unique : ∀ {i : ℕ} {a b : π}, i ∈ c a → i ∈ c b → a = b

namespace Exact

theorem existsUnique (h : Exact n c) {i : ℕ} (hi : i < n) : ∃! a, i ∈ c a := by
  obtain ⟨a, ha⟩ := h.place i hi
  exact ⟨a, ha, fun b hb => h.unique hb ha⟩

/-- Moving the resources `l` from one place to another keeps this. -/
theorem moveAll (h : Exact n c) {l : List ℕ} {a b : π} (hab : a ≠ b)
    (ha : (c a).Perm (l ++ c' a)) (hb : (c' b).Perm (l ++ c b))
    (hrest : ∀ d, d ≠ a → d ≠ b → c' d = c d) : Exact n c' := by
  have hla : ∀ i ∈ l, i ∈ c a := fun i hi => ha.mem_iff.mpr (List.mem_append_left _ hi)
  have hlb : ∀ i ∈ l, i ∉ c b := fun i hi hib => hab (h.unique (hla i hi) hib)
  have hsplit := List.nodup_append'.mp (ha.nodup_iff.mp (h.nodup a))
  have hla' : ∀ i ∈ l, i ∉ c' a := fun i hi hia => hsplit.2.2 hi hia
  -- membership after the move
  have hmem : ∀ j d, j ∈ c' d ↔ (j ∉ l ∧ j ∈ c d) ∨ (j ∈ l ∧ d = b) := by
    intro j d
    by_cases hda : d = a
    · subst hda
      have hj := ha.mem_iff (a := j)
      rw [List.mem_append] at hj
      constructor
      · intro hj'
        exact .inl ⟨fun hjl => hla' j hjl hj', hj.mpr (.inr hj')⟩
      · rintro (⟨hne, hjd⟩ | ⟨-, heq⟩)
        · exact (hj.mp hjd).resolve_left hne
        · exact absurd heq hab
    by_cases hdb : d = b
    · subst hdb
      rw [hb.mem_iff, List.mem_append]
      constructor
      · rintro (hj | hj)
        · exact .inr ⟨hj, rfl⟩
        · exact .inl ⟨fun hjl => hlb j hjl hj, hj⟩
      · rintro (⟨-, hj⟩ | ⟨hj, -⟩)
        · exact .inr hj
        · exact .inl hj
    rw [hrest d hda hdb]
    constructor
    · intro hj
      exact .inl ⟨fun hjl => hda (h.unique hj (hla j hjl)), hj⟩
    · rintro (⟨-, hj⟩ | ⟨-, heq⟩)
      · exact hj
      · exact absurd heq hdb
  refine ⟨fun d => ?_, fun d j hj => ?_, fun j hj => ?_, fun {j d e} hd he => ?_⟩
  · by_cases hda : d = a
    · subst hda
      exact hsplit.2.1
    by_cases hdb : d = b
    · subst hdb
      refine hb.nodup_iff.mpr (List.nodup_append'.mpr ⟨hsplit.1, h.nodup d, ?_⟩)
      exact fun i hi hid => hlb i hi hid
    rw [hrest d hda hdb]
    exact h.nodup d
  · rcases (hmem j d).mp hj with ⟨-, hj⟩ | ⟨hjl, -⟩
    · exact h.lt d j hj
    · exact h.lt a j (hla j hjl)
  · by_cases hjl : j ∈ l
    · exact ⟨b, (hmem j b).mpr (.inr ⟨hjl, rfl⟩)⟩
    obtain ⟨d, hd⟩ := h.place j hj
    exact ⟨d, (hmem j d).mpr (.inl ⟨hjl, hd⟩)⟩
  · rcases (hmem j d).mp hd with ⟨hne, hd⟩ | ⟨hjl, rfl⟩ <;>
      rcases (hmem j e).mp he with ⟨hne', he⟩ | ⟨hjl', rfl⟩
    · exact h.unique hd he
    · exact absurd hjl' hne
    · exact absurd hjl hne'
    · rfl

theorem move (h : Exact n c) {i : ℕ} {a b : π} (hab : a ≠ b) (ha : (c a).Perm (i :: c' a))
    (hb : (c' b).Perm (i :: c b)) (hrest : ∀ d, d ≠ a → d ≠ b → c' d = c d) : Exact n c' :=
  h.moveAll (l := [i]) hab ha hb hrest

/-- The order in which a place lists its resources does not matter. -/
theorem perm (h : Exact n c) (hc : ∀ a, (c' a).Perm (c a)) : Exact n c' := by
  refine ⟨fun a => (hc a).nodup_iff.mpr (h.nodup a), fun a i hi => h.lt a i ((hc a).mem_iff.mp hi),
    fun i hi => ?_, fun {i a b} ha hb => h.unique ((hc a).mem_iff.mp ha) ((hc b).mem_iff.mp hb)⟩
  obtain ⟨a, ha⟩ := h.place i hi
  exact ⟨a, (hc a).mem_iff.mpr ha⟩

theorem congr (h : Exact n c) (hc : ∀ a, c' a = c a) : Exact n c' := by
  rwa [show c' = c from funext hc]

end Exact

end FreeUnit
