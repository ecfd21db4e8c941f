/-
Glob patterns over an arbitrary alphabet.

A pattern is the list of the words between its stars, matched letter by letter
through a relation `same` between pattern letters and subject letters.  The
meaning (`Glob`) is existential: some placement of the words fills the subject
with arbitrary gaps at the stars.  A matcher commits: it anchors the first word
at the beginning, the last one at the end, and puts each word between them at
its leftmost place.

* `glob_iff_anchored` — first and last word at the two ends, the words between
  scattered over what is left;
* `placeAll_iff` — **leftmost placement decides** whether words can be
  scattered: a placement that exists at all exists after the leftmost one;
* `scattered_filter` — empty words put no constraint.
-/
import Mathlib

namespace FreeUnit.GlobMatch

open List

variable {α β : Type*}

/-! ### The meaning of a pattern -/

/-- The subject is the words in order, with any gap at each star between two
of them. -/
def Glob (same : α → β → Prop) : List (List α) → List β → Prop
  | [], s => s = []
  | [w], s => List.Forall₂ same w s
  | w :: v :: ws, s =>
    ∃ a gap c, s = a ++ gap ++ c ∧ List.Forall₂ same w a ∧ Glob same (v :: ws) c

/-- The words occur in the subject in order and without overlap, with any gaps
before, between and after them. -/
def Scattered (same : α → β → Prop) : List (List α) → List β → Prop
  | [], _ => True
  | w :: ws, s => ∃ gap a c, s = gap ++ (a ++ c) ∧ List.Forall₂ same w a ∧ Scattered same ws c

section Meaning

variable {same : α → β → Prop}

theorem Scattered.gap {ws : List (List α)} {s : List β} (h : Scattered same ws s)
    (gap : List β) : Scattered same ws (gap ++ s) := by
  cases ws with
  | nil => trivial
  | cons w ws => ?_
  obtain ⟨b, a, c, rfl, ha, hc⟩ := h
  exact ⟨gap ++ b, a, c, by simp, ha, hc⟩

theorem scattered_filter [DecidableEq α] (ws : List (List α)) (s : List β) :
    Scattered same (ws.filter (· ≠ [])) s ↔ Scattered same ws s := by
  induction ws generalizing s with
  | nil => rfl
  | cons w ws ih => ?_
  by_cases hw : w = []
  · subst hw
    rw [filter_cons_of_neg (by simp), ih]
    constructor
    · intro h
      exact ⟨[], [], s, rfl, .nil, h⟩
    · rintro ⟨gap, a, c, rfl, ha, hc⟩
      cases ha
      exact hc.gap gap
  rw [filter_cons_of_pos (by simpa using hw)]
  simp only [Scattered, ih]

theorem glob_iff_anchored (first last : List α) (mids : List (List α)) (s : List β) :
    Glob same (first :: (mids ++ [last])) s ↔
      ∃ a m z, s = a ++ (m ++ z) ∧ List.Forall₂ same first a ∧ List.Forall₂ same last z ∧
        Scattered same mids m := by
  induction mids generalizing first s with
  | nil =>
    constructor
    · rintro ⟨a, gap, z, rfl, ha, hz⟩
      exact ⟨a, gap, z, by simp, ha, hz, trivial⟩
    · rintro ⟨a, m, z, rfl, ha, hz, -⟩
      exact ⟨a, m, z, by simp, ha, hz⟩
  | cons w mids ih => ?_
  constructor
  · rintro ⟨a, gap, c, rfl, ha, hc⟩
    obtain ⟨b, m, z, rfl, hb, hz, hm⟩ := (ih w c).mp hc
    exact ⟨a, gap ++ (b ++ m), z, by simp, ha, hz, gap, b, m, rfl, hb, hm⟩
  · rintro ⟨a, -, z, rfl, ha, hz, gap, b, m, rfl, hb, hm⟩
    refine ⟨a, gap, b ++ (m ++ z), by simp, ha, ?_⟩
    exact (ih w _).mpr ⟨b, m, z, rfl, hb, hz, hm⟩

theorem glob_filter [DecidableEq α] (first last : List α) (mids : List (List α)) (s : List β) :
    Glob same (first :: (mids.filter (· ≠ []) ++ [last])) s ↔
      Glob same (first :: (mids ++ [last])) s := by
  simp only [glob_iff_anchored, scattered_filter]

variable {words : List (List α)}

theorem Glob.sum_le {s : List β} (h : Glob same words s) : (words.map length).sum ≤ s.length := by
  induction words generalizing s with
  | nil => simp
  | cons w words ih => ?_
  cases words with
  | nil => simp [List.Forall₂.length_eq h]
  | cons v words => ?_
  obtain ⟨a, gap, c, rfl, ha, hc⟩ := h
  have := ih hc
  simp only [map_cons, sum_cons, length_append, ha.length_eq] at this ⊢
  omega

theorem glob_nil (hne : words ≠ []) (h : ∀ w ∈ words, w = []) : Glob same words [] := by
  induction words with
  | nil => exact absurd rfl hne
  | cons w words ih => ?_
  obtain rfl := h w (by simp)
  cases words with
  | nil => exact .nil
  | cons v words => exact ⟨[], [], [], rfl, .nil, ih (by simp) fun u hu => h u (by simp [hu])⟩

/-- Only the letters of the subject are compared. -/
theorem Glob.congr {α' : Type*} {same' : α' → β → Prop} {f : α → α'} {s : List β}
    (hsame : ∀ c, ∀ d ∈ s, same c d ↔ same' (f c) d) :
    Glob same words s ↔ Glob same' (words.map (map f)) s := by
  have hword : ∀ (w : List α) (t : List β), (∀ d ∈ t, d ∈ s) →
      (List.Forall₂ same w t ↔ List.Forall₂ same' (w.map f) t) := by
    intro w t ht
    rw [forall₂_map_left_iff]
    induction t generalizing w with
    | nil => cases w <;> simp
    | cons d t iht => ?_
    cases w with
    | nil => simp
    | cons c w => ?_
    rw [forall₂_cons, forall₂_cons, hsame c d (ht d (by simp)),
      iht w fun e he => ht e (by simp [he])]
  have key : ∀ (words : List (List α)) (t : List β), (∀ d ∈ t, d ∈ s) →
      (Glob same words t ↔ Glob same' (words.map (map f)) t) := by
    intro words
    induction words with
    | nil => exact fun _ _ => Iff.rfl
    | cons w words ih => ?_
    intro t ht
    cases words with
    | nil => exact hword w t ht
    | cons v words => ?_
    refine exists_congr fun a => exists_congr fun gap => exists_congr fun c => and_congr_right ?_
    rintro rfl
    refine and_congr (hword w a fun d hd => ht d (by simp [hd])) ?_
    exact ih c fun d hd => ht d (by simp [hd])
  exact key words s fun _ h => h

end Meaning

/-! ### Leftmost placement -/

section Placement

variable (same : α → β → Bool)

/-- `memcmp` of a word with as many letters of the subject. -/
def eqWord : List α → List β → Bool
  | [], [] => true
  | c :: w, d :: s => same c d && eqWord w s
  | _, _ => false

variable {s : List β} {w : List α}

theorem eqWord_iff : eqWord same w s = true ↔ List.Forall₂ (fun c d => same c d = true) w s := by
  induction w generalizing s with
  | nil => cases s <;> simp [eqWord]
  | cons c w ih => cases s <;> simp [eqWord, ih]

/-- The subject after the leftmost occurrence of the word `c :: w`.  A subject
too short for the rest of the word ends the search at the first letter that
fits, since every later place is shorter still. -/
def memstrn (c : α) (w : List α) : List β → Option (List β)
  | [] => none
  | d :: s =>
    if same c d then
      if s.length < w.length then none
      else if eqWord same w (s.take w.length) then some (s.drop w.length)
      else memstrn c w s
    else memstrn c w s

def Occurs (w : List α) (s : List β) : Prop :=
  ∃ a c, s = a ++ c ∧ List.Forall₂ (fun x y => same x y = true) w a

theorem Occurs.length_le (h : Occurs same w s) : w.length ≤ s.length := by
  obtain ⟨a, c, rfl, ha⟩ := h
  simp [ha.length_eq]

variable {c : α}

theorem occurs_cons_iff {d : β} : Occurs same (c :: w) (d :: s) ↔
      same c d = true ∧ w.length ≤ s.length ∧ eqWord same w (s.take w.length) = true := by
  constructor
  · rintro ⟨a, t, hs, ha⟩
    cases ha with
    | cons hcd ha =>
      obtain ⟨rfl, rfl⟩ := cons_eq_cons.mp hs
      refine ⟨hcd, by simp [ha.length_eq], (eqWord_iff same).mpr ?_⟩
      show List.Forall₂ _ w (take w.length (_ ++ t))
      rwa [ha.length_eq, take_left]
  · rintro ⟨hcd, -, hw⟩
    exact ⟨d :: s.take w.length, s.drop w.length, by simp, .cons hcd ((eqWord_iff same).mp hw)⟩

/-- The search stops at the first place where the word occurs. -/
theorem memstrn_eq_some {t : List β} (h : memstrn same c w s = some t) :
    ∃ gap a, s = gap ++ (a ++ t) ∧ List.Forall₂ (fun x y => same x y = true) (c :: w) a ∧
      ∀ gap' rest, s = gap' ++ rest → Occurs same (c :: w) rest → gap.length ≤ gap'.length := by
  induction s with
  | nil => cases h
  | cons d s ih => ?_
  by_cases hocc : Occurs same (c :: w) (d :: s)
  · obtain ⟨hcd, hlen, hw⟩ := (occurs_cons_iff same).mp hocc
    rw [memstrn, if_pos hcd, if_neg (by omega), if_pos hw] at h
    cases h
    exact ⟨[], d :: s.take w.length, by simp, .cons hcd ((eqWord_iff same).mp hw), by simp⟩
  have hrest : memstrn same c w s = some t := by
    rw [memstrn] at h
    rw [occurs_cons_iff] at hocc
    split at h
    · next hcd =>
      split at h
      · cases h
      next hlen =>
      split at h
      · next hw => exact absurd ⟨hcd, by omega, hw⟩ hocc
      · exact h
    · exact h
  obtain ⟨gap, a, rfl, ha, hmin⟩ := ih hrest
  refine ⟨d :: gap, a, rfl, ha, ?_⟩
  intro gap' rest hs hrest'
  cases gap' with
  | nil => exact absurd (hs ▸ hrest') hocc
  | cons e gap' => ?_
  have := hmin gap' rest (cons_eq_cons.mp hs).2 hrest'
  simpa using this

theorem memstrn_eq_none (h : memstrn same c w s = none) (gap rest : List β) (hs : s = gap ++ rest) :
    ¬ Occurs same (c :: w) rest := by
  induction s generalizing gap with
  | nil =>
    intro hocc
    have := hocc.length_le
    simp_all
  | cons d s ih => ?_
  intro hocc
  have hlen := hocc.length_le
  have hrest : rest.length ≤ s.length + 1 := by
    have := congrArg length hs
    simp only [length_cons, length_append] at this
    omega
  simp only [length_cons] at hlen
  rw [memstrn] at h
  -- Either the search went on past `d`, or nothing later is long enough.
  have hgo : memstrn same c w s = none → False := by
    intro hnone
    cases gap with
    | cons e gap => exact ih hnone gap (cons_eq_cons.mp hs).2 hocc
    | nil => ?_
    obtain ⟨hcd, hle, hw⟩ := (occurs_cons_iff same).mp (hs ▸ hocc : Occurs same (c :: w) (d :: s))
    rw [if_pos hcd, if_neg (by omega), if_pos hw] at h
    cases h
  split at h
  · split at h
    · omega
    split at h
    · cases h
    · exact hgo h
  · exact hgo h

/-- Put the words one after another, each at its leftmost place after the one
before. -/
def placeAll : List (List α) → List β → Bool
  | [], _ => true
  | [] :: ws, s => placeAll ws s
  | (c :: w) :: ws, s =>
    match memstrn same c w s with
    | none => false
    | some t => placeAll ws t

/-- **Leftmost placement decides.** -/
theorem placeAll_iff (ws : List (List α)) (s : List β) :
    placeAll same ws s = true ↔ Scattered (fun c d => same c d = true) ws s := by
  induction ws generalizing s with
  | nil => simp [placeAll, Scattered]
  | cons w ws ih => ?_
  cases w with
  | nil =>
    rw [placeAll, ih]
    constructor
    · intro h
      exact ⟨[], [], s, rfl, .nil, h⟩
    · rintro ⟨gap, a, c, rfl, ha, hc⟩
      cases ha
      exact hc.gap gap
  | cons c w => ?_
  rw [placeAll]
  cases hm : memstrn same c w s with
  | none =>
    simp only [Bool.false_eq_true, false_iff]
    rintro ⟨gap, a, t, rfl, ha, -⟩
    exact memstrn_eq_none same hm gap (a ++ t) rfl ⟨a, t, rfl, ha⟩
  | some t => ?_
  obtain ⟨gap, a, rfl, ha, hmin⟩ := memstrn_eq_some same hm
  show placeAll same ws t = true ↔ _
  rw [ih]
  constructor
  · intro h
    exact ⟨gap, a, t, rfl, ha, h⟩
  · rintro ⟨gap', a', t', hs, ha', ht'⟩
    -- The leftmost place leaves at least what any other place leaves.
    have hle := hmin gap' (a' ++ t') hs ⟨a', t', rfl, ha'⟩
    have hlen : a.length = a'.length := ha.length_eq.symm.trans ha'.length_eq
    have hsuffix : t' <:+ t := by
      have h' : t' <:+ gap ++ (a ++ t) := ⟨gap' ++ a', by simp [hs]⟩
      have h : t <:+ gap ++ (a ++ t) := ⟨gap ++ a, by simp⟩
      refine suffix_of_suffix_length_le h' h ?_
      have := congrArg length hs
      simp only [length_append] at this
      omega
    obtain ⟨extra, rfl⟩ := hsuffix
    exact ht'.gap extra

end Placement

end FreeUnit.GlobMatch
