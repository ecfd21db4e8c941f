/-
Resolution of separated paths, over any alphabet.

A path is a list of segments between separators.  A segment is a `name`, or
it `stay`s where it is (an empty segment, a dot), or it goes `up` and removes
the name before it.  `resolve` reads the segments from left to right over a
stack of names; an empty last segment of the result stands for a trailing
separator.

* `walk_cons_sep`, `walk_cons_ne` — resolution read symbol by symbol, with the
  open segment as an accumulator.
-/
import Mathlib

namespace FreeUnit.Segments

open List Option

inductive Kind where
  | name
  | stay
  | up
  deriving DecidableEq, Repr

variable {α : Type*} (kind : List α → Kind)

/-- A complete segment over the stack of names before it, the last one first. -/
def close (stack : List (List α)) (seg : List α) : Option (List (List α)) :=
  match kind seg with
  | .name => some (seg :: stack)
  | .stay => some stack
  | .up =>
    match stack with
    | [] => none
    | _ :: rest => some rest

/-- The last segment of a path: unless it is a name, the result ends in a
separator, shown as an empty segment. -/
def closeLast (stack : List (List α)) (seg : List α) : Option (List (List α)) :=
  match kind seg with
  | .name => some (seg :: stack)
  | _ => (close kind stack seg).map ([] :: ·)

/-- Resolution of a list of segments over a stack of names.  The result is
reversed, as the stack is. -/
def resolve : List (List α) → List (List α) → Option (List (List α))
  | stack, [] => some stack
  | stack, [seg] => closeLast kind stack seg
  | stack, seg :: segs => (close kind stack seg).bind fun stack' => resolve stack' segs

/-- The path climbs above its root: some prefix of the segments goes up more
often than the `depth` names before it and its own names allow. -/
def Climbs (depth : ℕ) (segs : List (List α)) : Prop :=
  ∃ n, depth + (segs.take n).countP (kind · = .name) < (segs.take n).countP (kind · = .up)

def join (sep : α) (segs : List (List α)) : List α := segs.flatMap (sep :: ·)

@[simp] theorem join_nil (sep : α) : join sep [] = [] := rfl

@[simp] theorem join_append (sep : α) (a b : List (List α)) :
    join sep (a ++ b) = join sep a ++ join sep b := by
  simp [join]

@[simp] theorem join_singleton (sep : α) (s : List α) : join sep [s] = sep :: s := by
  simp [join]

theorem head?_join (sep : α) {segs : List (List α)} (hne : segs ≠ []) :
    (join sep segs).head? = some sep := by
  obtain ⟨first, more, rfl⟩ := exists_cons_of_ne_nil hne
  rfl

/-- A joined path is a separator and the segments with separators between. -/
theorem join_cons_eq_intercalate (sep : α) (first : List α) (more : List (List α)) :
    join sep (first :: more) = sep :: [sep].intercalate (first :: more) := by
  induction more generalizing first with
  | nil => simp [join, intercalate]
  | cons next more ih => ?_
  rw [show join sep (first :: next :: more) = sep :: first ++ join sep (next :: more) from rfl,
    ih next]
  simp [intercalate]

/-! ### When resolution fails -/

theorem not_climbs_nil (depth : ℕ) : ¬ Climbs kind depth [] := by
  rintro ⟨n, hn⟩
  simp at hn

/-- The first segment changes the depth by its kind. -/
theorem climbs_cons (depth : ℕ) (seg : List α) (segs : List (List α)) :
    Climbs kind depth (seg :: segs) ↔ match kind seg with
      | .name => Climbs kind (depth + 1) segs
      | .stay => Climbs kind depth segs
      | .up => depth = 0 ∨ Climbs kind (depth - 1) segs := by
  cases hk : kind seg with
  | name =>
    constructor
    · rintro ⟨n, hn⟩
      rcases n with _ | n
      · simp at hn
      refine ⟨n, ?_⟩
      simp [hk] at hn ⊢
      omega
    · rintro ⟨n, hn⟩
      refine ⟨n + 1, ?_⟩
      simp [hk] at hn ⊢
      omega
  | stay =>
    constructor
    · rintro ⟨n, hn⟩
      rcases n with _ | n
      · simp at hn
      · exact ⟨n, by simpa [countP_cons, hk] using hn⟩
    · rintro ⟨n, hn⟩
      exact ⟨n + 1, by simpa [countP_cons, hk] using hn⟩
  | up => ?_
  constructor
  · rintro ⟨n, hn⟩
    rcases n with _ | n
    · simp at hn
    by_cases hd : depth = 0
    · exact Or.inl hd
    refine Or.inr ⟨n, ?_⟩
    simp [hk] at hn ⊢
    omega
  · rintro (hd | ⟨n, hn⟩)
    · exact ⟨1, by simp [hk, hd]⟩
    by_cases hd : depth = 0
    · exact ⟨1, by simp [hk, hd]⟩
    refine ⟨n + 1, ?_⟩
    simp [hk] at hn ⊢
    omega

/-- `resolve` at a segment that is not the last. -/
theorem resolve_cons_cons (stack : List (List α)) (seg next : List α) (segs : List (List α)) :
    resolve kind stack (seg :: next :: segs) =
      (close kind stack seg).bind fun stack' => resolve kind stack' (next :: segs) := rfl

theorem closeLast_eq_none_iff (stack : List (List α)) (seg : List α) :
    closeLast kind stack seg = none ↔ close kind stack seg = none := by
  cases hk : kind seg <;> simp [closeLast, close, hk]

theorem close_eq_none_iff (stack : List (List α)) (seg : List α) :
    close kind stack seg = none ↔ kind seg = .up ∧ stack = [] := by
  cases hk : kind seg <;> cases stack <;> simp [close, hk]

/-- **Resolution fails exactly when the path climbs above its root.** -/
theorem resolve_eq_none_iff (segs stack : List (List α)) :
    resolve kind stack segs = none ↔ Climbs kind stack.length segs := by
  induction segs generalizing stack with
  | nil =>
    simp [resolve, not_climbs_nil]
  | cons seg segs ih => ?_
  rw [climbs_cons]
  match segs with
  | [] =>
    simp only [resolve, closeLast_eq_none_iff, close_eq_none_iff]
    cases hk : kind seg <;> simp [not_climbs_nil]
  | next :: rest =>
    rw [resolve_cons_cons]
    cases hk : kind seg with
    | name => simpa [close, hk] using ih (seg :: stack)
    | stay => simpa [close, hk] using ih stack
    | up => ?_
    rcases stack with _ | ⟨top, below⟩
    · simp [close, hk]
    · simpa [close, hk] using ih below

/-! ### What resolution returns -/

def AllNames (stack : List (List α)) : Prop := ∀ s ∈ stack, kind s = .name

variable {stack stack' : List (List α)} {seg : List α}

/-- A segment is put on the stack, leaves it alone or takes the top from it. -/
theorem close_cases (h : close kind stack seg = some stack') :
    kind seg = .name ∧ stack' = seg :: stack ∨ stack' = stack ∨ ∃ top, stack = top :: stack' := by
  unfold close at h
  cases hk : kind seg with
  | name =>
    rw [hk] at h
    exact .inl ⟨rfl, (some.inj h).symm⟩
  | stay =>
    rw [hk] at h
    exact .inr (.inl (some.inj h).symm)
  | up => ?_
  rw [hk] at h
  cases stack with
  | nil => cases h
  | cons top below => exact .inr (.inr ⟨top, congrArg _ (some.inj h)⟩)

theorem close_allNames (hs : AllNames kind stack) (h : close kind stack seg = some stack') :
    AllNames kind stack' := by
  intro s hmem
  rcases close_cases kind h with ⟨hk, rfl⟩ | rfl | ⟨top, rfl⟩
  · rcases mem_cons.mp hmem with rfl | hmem
    · exact hk
    · exact hs s hmem
  · exact hs s hmem
  · exact hs s (mem_cons_of_mem _ hmem)

/-- **The shape of a resolved path**: names, and a last segment that is a name
or empty. -/
theorem resolve_shape (segs : List (List α)) {stack out : List (List α)} (hne : segs ≠ [])
    (hs : AllNames kind stack) (h : resolve kind stack segs = some out) :
    ∃ last names, out = last :: names ∧ AllNames kind names ∧
        (last = [] ∨ kind last = .name) := by
  induction segs generalizing stack out with
  | nil => exact absurd rfl hne
  | cons seg segs ih => ?_
  match segs with
  | [] =>
    simp only [resolve, closeLast] at h
    cases hk : kind seg with
    | name =>
      simp only [hk, some.injEq] at h
      exact ⟨seg, stack, h.symm, hs, Or.inr hk⟩
    | stay | up =>
      simp only [hk, map_eq_some_iff] at h
      obtain ⟨stack', hc, rfl⟩ := h
      exact ⟨[], stack', rfl, close_allNames kind hs hc, Or.inl rfl⟩
  | next :: rest =>
    rw [resolve_cons_cons, bind_eq_some_iff] at h
    obtain ⟨stack', hc, hr⟩ := h
    exact ih (by simp) (close_allNames kind hs hc) hr

theorem mem_of_close {s : List α} (h : close kind stack seg = some stack') (hmem : s ∈ stack') :
    s ∈ stack ∨ s = seg := by
  rcases close_cases kind h with ⟨-, rfl⟩ | rfl | ⟨top, rfl⟩
  · exact (mem_cons.mp hmem).symm
  · exact .inl hmem
  · exact .inl (mem_cons_of_mem _ hmem)

/-- Resolution invents no segment but the empty one. -/
theorem mem_of_resolve (segs : List (List α)) {stack out : List (List α)} {s : List α}
    (h : resolve kind stack segs = some out) (hmem : s ∈ out) : s ∈ stack ∨ s ∈ segs ∨ s = [] := by
  induction segs generalizing stack out s with
  | nil =>
    simp only [resolve, some.injEq] at h
    exact Or.inl (h ▸ hmem)
  | cons seg segs ih =>
    match segs with
    | [] =>
      simp only [resolve, closeLast] at h
      cases hk : kind seg with
      | name =>
        simp only [hk, some.injEq] at h
        subst h
        rcases mem_cons.mp hmem with rfl | hmem <;> simp [*]
      | stay | up =>
        simp only [hk, map_eq_some_iff] at h
        obtain ⟨stack', hc, rfl⟩ := h
        rcases mem_cons.mp hmem with rfl | hmem
        · simp
        · rcases mem_of_close kind hc hmem with hmem | rfl <;> simp [*]
    | next :: rest =>
      rw [resolve_cons_cons, bind_eq_some_iff] at h
      obtain ⟨stack', hc, hr⟩ := h
      rcases ih hr hmem with hmem | hmem | hmem
      · rcases mem_of_close kind hc hmem with hmem | rfl <;> simp [*]
      · exact Or.inr (Or.inl (mem_cons_of_mem _ hmem))
      · exact Or.inr (Or.inr hmem)

/-- A complete segment makes the text no longer than it is itself. -/
theorem length_join_close (sep : α) (h : close kind stack seg = some stack') :
    (join sep stack').length ≤ (join sep stack).length + (seg.length + 1) := by
  rcases close_cases kind h with ⟨-, rfl⟩ | rfl | ⟨top, rfl⟩
  · simp [join]
    omega
  · omega
  simp [join]
  omega

/-- **Resolution never makes a path longer.** -/
theorem length_join_resolve (sep : α) (segs : List (List α)) {stack out : List (List α)}
    (h : resolve kind stack segs = some out) :
    (join sep out).length ≤ (join sep stack).length + (join sep segs).length := by
  induction segs generalizing stack out with
  | nil =>
    simp only [resolve, some.injEq] at h
    subst h
    simp
  | cons seg segs ih => ?_
  have hcons : (join sep (seg :: segs)).length = seg.length + 1 + (join sep segs).length := by
    simp [join]
    omega
  match segs with
  | [] =>
    simp only [resolve, closeLast] at h
    rw [hcons, join_nil, length_nil]
    cases hk : kind seg with
    | name =>
      simp only [hk, some.injEq] at h
      subst h
      simp [join]
      omega
    | stay =>
      -- the separator stays, without the segment behind it
      simp only [hk, close, map_some, some.injEq] at h
      subst h
      simp [join]
    | up => ?_
    rcases stack with _ | ⟨top, below⟩
    · simp [close, hk] at h
    simp only [hk, close, map_some, some.injEq] at h
    subst h
    simp [join]
    omega
  | next :: rest =>
    rw [resolve_cons_cons, bind_eq_some_iff] at h
    obtain ⟨stack', hc, hr⟩ := h
    have hclose := length_join_close kind sep hc
    have hrest := ih hr
    omega

/-- Names, and a last segment that is a name or stays in place without a text,
are their own resolution. -/
theorem resolve_names {last : List α}
    (hlast : kind last = .name ∨ last = [] ∧ kind [] = .stay) (names stack : List (List α))
    (hnames : AllNames kind names) : resolve kind stack (names ++ [last]) =
        some ((names ++ [last]).reverse ++ stack) := by
  induction names generalizing stack with
  | nil =>
    rcases hlast with hname | ⟨rfl, hstay⟩
    · simp [resolve, closeLast, hname]
    · simp [resolve, closeLast, close, hstay]
  | cons name names ih => ?_
  have hname : kind name = .name := hnames name mem_cons_self
  obtain ⟨next, rest, hrest⟩ := exists_cons_of_ne_nil
    (show names ++ [last] ≠ [] by simp)
  have hclose : close kind stack name = some (name :: stack) := by
    simp only [close, hname]
  rw [cons_append, hrest, resolve_cons_cons, hclose, bind_some, ← hrest,
    ih (name :: stack) fun s hs => hnames s (mem_cons_of_mem _ hs)]
  simp

/-! ### Resolution symbol by symbol -/

section Walk

variable [BEq α] [LawfulBEq α] (sep : α)

/-- Resolution of the text `rest` when the segment `cur` is already open. -/
def walk (stack : List (List α)) (cur rest : List α) : Option (List (List α)) :=
  resolve kind stack ((rest.splitOn sep).modifyHead (cur ++ ·))

omit [LawfulBEq α] in
@[simp] theorem walk_nil (stack : List (List α)) (cur : List α) :
    walk kind sep stack cur [] = closeLast kind stack cur := by
  simp [walk, resolve]

theorem walk_cons_sep (stack : List (List α)) (cur rest : List α) :
    walk kind sep stack cur (sep :: rest) =
      (close kind stack cur).bind fun stack' => walk kind sep stack' [] rest := by
  obtain ⟨first, more, hsplit⟩ := exists_cons_of_ne_nil (splitOn_ne_nil sep rest)
  have hcons : (sep :: rest).splitOn sep = [] :: rest.splitOn sep := by
    simp [splitOn, splitOnP_cons_eq_if_modifyHead]
  simp only [walk, hcons, hsplit, modifyHead_cons, append_nil, nil_append]
  rfl

theorem walk_cons_ne {c : α} (hc : c ≠ sep) (stack : List (List α)) (cur rest : List α) :
    walk kind sep stack cur (c :: rest) = walk kind sep stack (cur ++ [c]) rest := by
  obtain ⟨first, more, hsplit⟩ := exists_cons_of_ne_nil (splitOn_ne_nil sep rest)
  have hcons : (c :: rest).splitOn sep = (rest.splitOn sep).modifyHead (cons c) := by
    simp [splitOn, splitOnP_cons_eq_if_modifyHead, hc]
  simp [walk, hcons, hsplit]

theorem sep_notMem_of_mem_splitOn (text : List α) {s : List α} (hs : s ∈ text.splitOn sep) :
    sep ∉ s := by
  induction text generalizing s with
  | nil =>
    simp only [splitOn_nil, mem_singleton] at hs
    simp [hs]
  | cons c text ih => ?_
  obtain ⟨first, more, hsplit⟩ := exists_cons_of_ne_nil (splitOn_ne_nil sep text)
  rw [hsplit] at ih
  by_cases hc : c = sep
  · have hcons : (c :: text).splitOn sep = [] :: text.splitOn sep := by
      simp [splitOn, splitOnP_cons_eq_if_modifyHead, hc]
    rw [hcons, hsplit] at hs
    rcases mem_cons.mp hs with rfl | hs
    · simp
    · exact ih hs
  have hcons : (c :: text).splitOn sep = (text.splitOn sep).modifyHead (cons c) := by
    simp [splitOn, splitOnP_cons_eq_if_modifyHead, hc]
  rw [hcons, hsplit, modifyHead_cons] at hs
  rcases mem_cons.mp hs with rfl | hs
  · simp [Ne.symm hc, ih (mem_cons_self)]
  · exact ih (mem_cons_of_mem _ hs)

/-- The segments of a joined path are the segments it was joined from. -/
theorem splitOn_join {segs : List (List α)} (hne : segs ≠ []) (hsep : ∀ s ∈ segs, sep ∉ s) :
    ((join sep segs).drop 1).splitOn sep = segs := by
  obtain ⟨first, more, rfl⟩ := exists_cons_of_ne_nil hne
  rw [join_cons_eq_intercalate, drop_one, tail_cons]
  exact splitOn_intercalate sep hsep hne

end Walk

end FreeUnit.Segments
