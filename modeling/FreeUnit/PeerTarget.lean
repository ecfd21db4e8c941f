/-
When the target sent to a peer is read back.

A target that was not rewritten is sent as it came, and always read back.  A
rewritten path is escaped by a function made for whole URIs, which leaves the
first `?` and `#` alone, or it is not escaped at all when the template had no
escape itself.

* `targetRead_iff` — a rewritten target is read back exactly if nothing in it
  ends the path, the target or the line early;
* `reachesPeer_iff` — the peer gets a parsed request exactly then.
-/
import FreeUnit.PeerRequest

namespace FreeUnit

open Segments List Option

/-! ### Escaping and decoding -/

def escapeUriByte (ch : UInt8) : Bytes := if uriEscaped ch then percentByte ch else [ch]

/-- Before the first `?` or `#` every byte in the table is escaped. -/
theorem encodeComplexUri_append (beyond : ℕ → UInt8) (more src : Bytes)
    (h : ∀ c ∈ src, c ≠ 0x3F ∧ c ≠ 0x23) : encodeComplexUri beyond 0 (src ++ more) =
        src.flatMap escapeUriByte ++ encodeComplexUri beyond 0 more := by
  induction src with
  | nil => rfl
  | cons ch src ih => ?_
  obtain ⟨hq, hh⟩ := h ch mem_cons_self
  have hrest := ih fun c hc => h c (mem_cons_of_mem _ hc)
  rw [cons_append, encodeComplexUri, flatMap_cons, escapeUriByte, hrest]
  split_ifs with he h0 h1
  · exact absurd h0 hq
  · exact absurd h1 hh
  · rw [append_assoc]
  · rfl

variable {src : Bytes}

theorem encodeComplexUri_eq (beyond : ℕ → UInt8) (h : ∀ c ∈ src, c ≠ 0x3F ∧ c ≠ 0x23) :
    encodeComplexUri beyond 0 src = src.flatMap escapeUriByte := by
  have := encodeComplexUri_append beyond [] src h
  rwa [append_nil, show encodeComplexUri beyond 0 [] = [] from rfl, append_nil] at this

variable {c : UInt8} {a t more : Bytes} {r : ComplexTarget} {skcf : SocketConf}

/-- The first `?` or `#` is written as it is. -/
theorem encodeComplexUri_mark (beyond : ℕ → UInt8) (hc : c = 0x3F ∨ c = 0x23)
    (src : Bytes) : ∃ n, encodeComplexUri beyond 0 (c :: src) = c :: encodeComplexUri beyond n src := by
  have h0 : reservedByte beyond 0 = 0x3F := rfl
  have h1 : reservedByte beyond (0 + 1) = 0x23 := rfl
  rw [encodeComplexUri, h0, h1]
  rcases hc with rfl | rfl
  · exact ⟨1, by rw [if_pos (by decide), if_pos rfl]⟩
  · exact ⟨2, by rw [if_pos (by decide), if_neg (by decide), if_pos rfl]⟩

theorem encodeComplexUri_nul (beyond : ℕ → UInt8) (src : Bytes) :
    encodeComplexUri beyond 0 (0 :: src) =
      0x25 :: 0x30 :: 0x30 :: encodeComplexUri beyond 0 src := by
  have := encodeComplexUri_append beyond src [0] (by simp)
  rwa [show [(0 : UInt8)].flatMap escapeUriByte = [0x25, 0x30, 0x30] by decide] at this

def isInnerChar (c : UInt8) : Bool := c != 0x3F && c != 0x23 && c != 0x20 && !isBadChar c

theorem isInnerChar_iff (c : UInt8) :
    isInnerChar c = true ↔ c ≠ 0x3F ∧ c ≠ 0x23 ∧ c ≠ 0x20 ∧ isBadChar c = false := by
  simp [isInnerChar, and_assoc]

theorem isInnerChar_of_not_escaped : ∀ ch : UInt8, uriEscaped ch = false → isInnerChar ch = true := by
  decide +kernel

theorem isInnerChar_hexUpper : ∀ ch : UInt8,
    (isInnerChar (hexUpper (ch >>> 4)) && isInnerChar (hexUpper (ch &&& 0xF))) = true := by
  decide +kernel

/-- No escaped byte ends a path, a target or a line. -/
theorem escaped_chars (hc : c ∈ src.flatMap escapeUriByte) :
    c ≠ 0x3F ∧ c ≠ 0x23 ∧ c ≠ 0x20 ∧ isBadChar c = false := by
  rw [← isInnerChar_iff]
  obtain ⟨ch, -, hch⟩ := mem_flatMap.mp hc
  rw [escapeUriByte] at hch
  split_ifs at hch with he
  · have hhex := isInnerChar_hexUpper ch
    rw [Bool.and_eq_true] at hhex
    simp only [percentByte, mem_cons, not_mem_nil, or_false] at hch
    rcases hch with rfl | rfl | rfl
    · decide
    · exact hhex.1
    · exact hhex.2
  rw [mem_singleton.mp hch]
  exact isInnerChar_of_not_escaped ch (by simpa using he)

theorem escapeValue_percentByte : ∀ ch : UInt8,
    escapeValue (hexUpper (ch >>> 4)) (hexUpper (ch &&& 0xF)) = some ch := by
  decide +kernel

theorem percent_escaped : ∀ ch : UInt8, uriEscaped ch = false → ch ≠ 0x25 := by decide +kernel

theorem decodePath_escapeUriByte {ch : UInt8} (hch : ch ≠ 0) (s : Bytes) :
    decodePath false (escapeUriByte ch ++ s) = (decodePath false s).map (ch :: ·) := by
  rw [escapeUriByte]
  split_ifs with he
  · show decodePath false (0x25 :: hexUpper (ch >>> 4) :: hexUpper (ch &&& 0xF) :: s) = _
    rw [decodePath_escape false (escapeValue_percentByte ch), if_neg hch]
    rfl
  · exact decodePath_plain false (percent_escaped ch (by simpa using he)) s

/-- **What was escaped is decoded to itself.** -/
theorem decodePath_escaped (s src : Bytes) (h : ∀ c ∈ src, c ≠ 0) :
    decodePath false (src.flatMap escapeUriByte ++ s) = (decodePath false s).map (src ++ ·) := by
  induction src with
  | nil =>
    show decodePath false s = _
    cases decodePath false s <;> rfl
  | cons ch src ih => ?_
  rw [flatMap_cons, append_assoc, decodePath_escapeUriByte (h ch mem_cons_self),
    ih fun c hc => h c (mem_cons_of_mem _ hc), Option.map_map]
  rfl

/-- Bytes without a percent sign are decoded to themselves. -/
theorem decodePath_raw (src : Bytes) (h : ∀ c ∈ src, c ≠ 0x25) :
    decodePath false src = some src := by
  induction src with
  | nil => rfl
  | cons ch src ih => ?_
  rw [decodePath_plain false (h ch mem_cons_self),
    ih fun c hc => h c (mem_cons_of_mem _ hc), map_some]

theorem length_decodePath_le (n : ℕ) {s d : Bytes} (hn : s.length ≤ n)
    (h : decodePath false s = some d) : d.length ≤ s.length := by
  induction n generalizing s d with
  | zero =>
    obtain rfl : s = [] := eq_nil_of_length_eq_zero (Nat.le_zero.mp hn)
    cases h
    exact le_rfl
  | succ n ih => ?_
  match s with
  | [] =>
    cases h
    exact le_rfl
  | c :: s =>
    by_cases hc : c = 0x25
    · subst hc
      match s with
      | [] | [_] => cases h
      | a :: b :: s =>
        cases hv : escapeValue a b with
        | none =>
          rw [decodePath_bad false hv] at h
          cases h
        | some v => ?_
        rw [decodePath_escape false hv] at h
        split_ifs at h
        obtain ⟨d', hd', rfl⟩ := map_eq_some_iff.mp h
        have := ih (by simp only [length_cons] at hn; omega) hd'
        simp [PathItem.bytes]
        omega
    rw [decodePath_plain false hc] at h
    obtain ⟨d', hd', rfl⟩ := map_eq_some_iff.mp h
    have := ih (by simp only [length_cons] at hn; omega) hd'
    simpa using this

theorem pathPart_append (h : ∀ c ∈ a, c ≠ 0x3F ∧ c ≠ 0x23) (s : Bytes) :
    pathPart (a ++ s) = a ++ pathPart s := by
  rw [pathPart, takeWhile_append_of_pos fun c hc => by simp [h c hc]]
  rfl

theorem pathPart_length_le (s : Bytes) : (pathPart s).length ≤ s.length :=
  (List.takeWhile_prefix _).length_le

/-- A normalised target has a path that could be decoded, and its arguments. -/
theorem parts_of_complexTarget (h : httpParseComplexTarget false (0x2F :: t) = some r) :
    (∃ d, decodePath false (pathPart (0x2F :: t)) = some d) ∧ r.args = argsPart (0x2F :: t) := by
  rw [pathPart_cons (by decide) (by decide), decodePath_plain false (by decide),
    argsPart_cons (by decide) (by decide)]
  rw [httpParseComplexTarget_eq, complexResult, bind_eq_some_iff] at h
  obtain ⟨d, hd, h⟩ := h
  obtain ⟨segs, -, rfl⟩ := map_eq_some_iff.mp h
  exact ⟨⟨_, by rw [hd]; rfl⟩, rfl⟩

/-- The path of a target is no longer than the target. -/
theorem length_path_le (h : httpParseComplexTarget false (0x2F :: t) = some r) :
    r.path.length ≤ (0x2F :: t).length := by
  obtain ⟨⟨d, hd⟩, -⟩ := parts_of_complexTarget h
  have h1 := length_complexTarget_le h hd
  have h2 := length_decodePath_le _ le_rfl hd
  have h3 := pathPart_length_le (0x2F :: t)
  omega

/-! ### Where a target ends in the written line -/

variable {b : Bytes}

/-- A target without bad bytes goes no further than the first bad byte. -/
theorem length_le_of_bad (heq : a ++ c :: b = t ++ more) (ht : ∀ d ∈ t, isBadChar d = false)
    (hc : isBadChar c = true) : t.length ≤ a.length := by
  rcases append_eq_append_iff.mp heq with ⟨x, rfl, hx⟩ | ⟨x, rfl, -⟩
  · cases x with
    | nil => simp
    | cons d x => ?_
    obtain rfl : c = d := (cons.inj hx).1
    have := ht c (by simp)
    rw [hc] at this
    cases this
  · simp

/-- A target that a space follows covers all bytes up to the first space. -/
theorem exists_of_noSpace (heq : a ++ b = t ++ 0x20 :: more) (ha : ∀ d ∈ a, d ≠ 0x20) :
    ∃ x, t = a ++ x ∧ b = x ++ 0x20 :: more := by
  rcases append_eq_append_iff.mp heq with ⟨x, rfl, hx⟩ | ⟨x, rfl, hx⟩
  · exact ⟨x, rfl, hx⟩
  cases x with
  | nil => exact ⟨[], by simp, by simpa using hx.symm⟩
  | cons d x => ?_
  obtain rfl : 0x20 = d := (cons.inj hx).1
  exact absurd rfl (ha 0x20 (by simp))

variable {v : Bytes}

theorem version_chars (h : isHttp1Version v = true) :
    v.length = 8 ∧ ∀ c ∈ v, isBadChar c = false := by
  have hdigit : ∀ c : UInt8, isDigit c = true → isBadChar c = false := by decide +kernel
  match v, isHttpVersion_of_isHttp1Version h with
  | [h, t1, t2, p, slash, major, point, minor], hv =>
    simp only [isHttpVersion, Bool.and_eq_true, beq_iff_eq,
      show str "HTTP/" = [0x48, 0x54, 0x54, 0x50, 0x2F] by decide, cons.injEq, and_true] at hv
    obtain ⟨⟨⟨⟨rfl, rfl, rfl, rfl, rfl⟩, hmajor⟩, rfl⟩, hminor⟩ := hv
    refine ⟨rfl, fun c hc => ?_⟩
    simp only [mem_cons, not_mem_nil, or_false] at hc
    rcases hc with rfl | rfl | rfl | rfl | rfl | rfl | rfl | rfl
    · rfl
    · rfl
    · rfl
    · rfl
    · rfl
    · exact hdigit _ hmajor
    · rfl
    · exact hdigit _ hminor

variable {rest : Bytes} {k : ℕ}

/-- **Where the target ends**: when the written target holds no bad byte, the
target found is the written one up to the spaces at its end. -/
theorem eq_append_spaces {target fields : Bytes} (htarget : ∀ c ∈ target, isBadChar c = false)
    (ht : ∀ c ∈ t, isBadChar c = false) (heq : target ++ versionText ++ fields = t ++ more)
    (hline : LineEnd more rest (k + 1)) : target = t ++ replicate k 0x20 := by
  obtain ⟨v, eol, rfl, hv, heol⟩ := hline
  obtain ⟨hlen, hchars⟩ := version_chars hv
  -- the bytes before the first line end, on both sides
  have hleft : (target ++ versionText ++ fields).takeWhile (fun c => !isBadChar c) =
      (target ++ [0x20]) ++ str "HTTP/1.1" := by
    rw [append_assoc, takeWhile_append_of_pos fun c hc => by simp [htarget c hc],
      versionText_eq, append_assoc]
    rfl
  have hright : (t ++ (replicate (k + 1) 0x20 ++ v ++ eol ++ rest)).takeWhile
      (fun c => !isBadChar c) = (t ++ replicate k 0x20 ++ [0x20]) ++ v := by
    have hspace : ∀ c ∈ replicate (k + 1) (0x20 : UInt8), (!isBadChar c) = true := by
      intro c hc
      rw [eq_of_mem_replicate hc]
      rfl
    have hend : (eol ++ rest).takeWhile (fun c => !isBadChar c) = [] := by
      rcases heol with rfl | rfl <;> rfl
    rw [takeWhile_append_of_pos fun c hc => by simp [ht c hc], append_assoc,
      append_assoc, takeWhile_append_of_pos hspace,
      takeWhile_append_of_pos fun c hc => by simp [hchars c hc], hend, append_nil, replicate_succ']
    simp
  rw [heq, hright] at hleft
  have h8 : v.length = (str "HTTP/1.1").length := by rw [hlen]; decide
  exact (append_cancel_right (append_inj_left' hleft h8)).symm

/-! ### A rewritten target -/

/-- **The rewritten paths that reach a peer.**  The path is normalised.  If it
is escaped, it holds none of the bytes the escaping leaves alone; if it is not,
it holds no byte that ends a line, and no space where the target would end.
The arguments, which are sent as they came, do not end in a space. -/
structure RewriteOk (r : HttpRequest) : Prop where
  clean : CleanPath r.path
  quoted : r.quotedTarget = true → ∀ c ∈ r.path, c ≠ 0x3F ∧ c ≠ 0x23 ∧ c ≠ 0
  raw : r.quotedTarget = false → ∀ c ∈ r.path, isBadChar c = false
  lastPath : r.quotedTarget = false → r.args = [] → r.path.getLast? ≠ some 0x20
  lastArgs : r.args.getLast? ≠ some 0x20

def peerArgs (r : HttpRequest) : Bytes := if r.args ≠ [] then 0x3F :: r.args else []

section Rewritten

variable (beyond : ℕ → UInt8) {r : HttpRequest}

theorem h1pPeerRequestTarget_rewritten (h : r.uriChanged = true) :
    h1pPeerRequestTarget beyond r = peerPath beyond r ++ peerArgs r := by
  rw [h1pPeerRequestTarget, if_neg (by simp [h]), peerArgs]
  by_cases hraw : ¬ r.quotedTarget ∧ r.args = []
  · rw [if_pos hraw, peerPath, if_neg hraw.1, if_neg (by simp [hraw.2]), append_nil]
  · rw [if_neg hraw]

-- what the client's parser and the rewriting leave
variable (hargs : ∀ c ∈ r.args, isBadChar c = false ∧ c ≠ 0x23)
  (hplain : r.quotedTarget = false → ∀ c ∈ r.path, c ≠ 0x25 ∧ c ≠ 0x3F ∧ c ≠ 0x23)

include hplain in
/-- The path as it is written: it ends nothing early and is decoded to the
path. -/
theorem peerPath_of_ok (hquoted : r.quotedTarget = true → ∀ c ∈ r.path, c ≠ 0x3F ∧ c ≠ 0x23 ∧ c ≠ 0)
    (hraw : r.quotedTarget = false → ∀ c ∈ r.path, isBadChar c = false) :
    (∀ c ∈ peerPath beyond r, c ≠ 0x3F ∧ c ≠ 0x23 ∧ isBadChar c = false) ∧
      decodePath false (peerPath beyond r) = some r.path := by
  cases hq : r.quotedTarget with
  | false =>
    have hpath : peerPath beyond r = r.path := by rw [peerPath, hq]; rfl
    rw [hpath]
    refine ⟨fun c hc => ⟨(hplain hq c hc).2.1, (hplain hq c hc).2.2, hraw hq c hc⟩, ?_⟩
    exact decodePath_raw _ fun c hc => (hplain hq c hc).1
  | true => ?_
  have hescaped : peerPath beyond r = r.path.flatMap escapeUriByte := by
    rw [peerPath, hq, if_pos rfl]
    exact encodeComplexUri_eq beyond fun c hc => ⟨(hquoted hq c hc).1, (hquoted hq c hc).2.1⟩
  rw [hescaped]
  refine ⟨fun c hc => ?_, ?_⟩
  · obtain ⟨h1, h2, -, h4⟩ := escaped_chars hc
    exact ⟨h1, h2, h4⟩
  · have := decodePath_escaped [] r.path fun c hc => (hquoted hq c hc).2.2
    simpa using this

/-- The first byte of a path that starts with a slash is not escaped. -/
theorem peerPath_slash (h : r.path.head? = some 0x2F) : (peerPath beyond r).head? = some 0x2F := by
  rw [peerPath]
  split_ifs
  · cases hp : r.path with
    | nil => simp [hp] at h
    | cons c path => ?_
    rw [hp] at h
    obtain rfl : c = 0x2F := some.inj h
    rw [encodeComplexUri, if_neg (by decide)]
    rfl
  · exact h

/-- The arguments are found again behind a path without `?` and `#`. -/
theorem argsPart_peerArgs (hargs : ∀ c ∈ r.args, isBadChar c = false ∧ c ≠ 0x23)
    (ha : ∀ c ∈ a, c ≠ 0x3F ∧ c ≠ 0x23) : (argsPart (a ++ peerArgs r)).getD [] = r.args := by
  rw [argsPart, dropWhile_append_of_pos fun c hc => by simp [ha c hc], peerArgs]
  by_cases hnil : r.args = []
  · rw [if_neg (by simp [hnil]), hnil]
    rfl
  rw [if_pos hnil, dropWhile_cons_of_neg (by decide)]
  have htake : r.args.takeWhile (· != 0x23) = r.args :=
    takeWhile_eq_self_iff.mpr fun c hc => by simpa using (hargs c hc).2
  simp [htake]

include hargs hplain in
/-- A rewritten target that ends nothing early is read back. -/
theorem targetRead_of_ok (h : RewriteOk r) :
    ∃ t, (peerPath beyond r ++ peerArgs r).head? = some 0x2F ∧
      TargetFits (peerPath beyond r ++ peerArgs r) ∧
      httpParseComplexTarget false (peerPath beyond r ++ peerArgs r) = some t ∧
      t.path = r.path ∧ t.args.getD [] = r.args := by
  obtain ⟨hchars, hdecode⟩ := peerPath_of_ok beyond hplain h.quoted h.raw
  have hslash := peerPath_slash beyond h.clean.slash
  obtain ⟨p, hp⟩ : ∃ p, peerPath beyond r = 0x2F :: p := by
    cases hpath : peerPath beyond r with
    | nil => simp [hpath] at hslash
    | cons c p => ?_
    rw [hpath] at hslash
    exact ⟨p, by rw [some.inj hslash]⟩
  -- the path and the arguments of the target
  have hpart : pathPart (peerPath beyond r ++ peerArgs r) = peerPath beyond r := by
    rw [pathPart_append fun c hc => ⟨(hchars c hc).1, (hchars c hc).2.1⟩, peerArgs]
    split_ifs
    · exact append_nil _
    · exact append_nil _
  have hdecode' : decodePath false (pathPart (0x2F :: (p ++ peerArgs r))) = some r.path := by
    rw [← cons_append, ← hp, hpart, hdecode]
  obtain ⟨t, ht, htpath, htargs⟩ := httpParseComplexTarget_of_cleanPath hdecode' h.clean
  have hp' : ∀ c ∈ p, c ≠ 0x3F ∧ c ≠ 0x23 := fun c hc =>
    have hc' : c ∈ peerPath beyond r := hp ▸ mem_cons_of_mem _ hc
    ⟨(hchars c hc').1, (hchars c hc').2.1⟩
  refine ⟨t, ?_, ⟨?_, ?_⟩, ?_, htpath, ?_⟩
  · rw [hp]
    rfl
  · intro c hc
    rcases mem_append.mp hc with hc | hc
    · exact (hchars c hc).2.2
    rw [peerArgs] at hc
    split_ifs at hc
    · rcases mem_cons.mp hc with rfl | hc
      · rfl
      · exact (hargs c hc).1
    · cases hc
  · -- the last byte, of the arguments or of the path
    by_cases hnil : r.args = []
    · rw [peerArgs, if_neg (by simp [hnil]), append_nil]
      cases hq : r.quotedTarget with
      | false =>
        rw [show peerPath beyond r = r.path by rw [peerPath, hq]; rfl]
        exact h.lastPath hq hnil
      | true => ?_
      intro hlast
      have hmem := mem_of_getLast? hlast
      rw [peerPath, hq, if_pos rfl, encodeComplexUri_eq beyond fun c hc =>
        ⟨(h.quoted hq c hc).1, (h.quoted hq c hc).2.1⟩] at hmem
      exact (escaped_chars hmem).2.2.1 rfl
    rw [peerArgs, if_pos hnil, getLast?_append]
    obtain ⟨c, args, hcons⟩ := exists_cons_of_ne_nil hnil
    have hlast := h.lastArgs
    rw [hcons] at hlast ⊢
    rw [getLast?_cons_cons]
    cases hl : (c :: args).getLast? with
    | none => simp at hl
    | some d => ?_
    rw [hl] at hlast
    simpa using hlast
  · rw [hp]
    exact ht
  · rw [htargs]
    exact argsPart_peerArgs hargs hp'

/-! ### What an unread target had in it -/

variable {t0 : Bytes}

/-- An escaped path with a byte that is left alone, or with a NUL, is cut off
there or refused. -/
theorem quoted_of_read (hq : r.quotedTarget = true) {y : Bytes} {t : ComplexTarget}
    (heq : peerPath beyond r ++ y = 0x2F :: t0 ++ 0x20 :: more)
    (ht : httpParseComplexTarget false (0x2F :: t0) = some t) (hpath : t.path = r.path) :
    ∀ c ∈ r.path, c ≠ 0x3F ∧ c ≠ 0x23 ∧ c ≠ 0 := by
  by_contra hno
  -- the first such byte
  let p : UInt8 → Bool := fun c => c != 0x3F && c != 0x23 && c != 0
  have hdrop : r.path.dropWhile p ≠ [] := by
    intro hnil
    refine hno fun c hc => ?_
    have := dropWhile_eq_nil_iff.mp hnil c hc
    simpa [p, and_assoc] using this
  obtain ⟨c, b, hb⟩ := exists_cons_of_ne_nil hdrop
  have hc : ¬ p c = true := by
    have := head?_dropWhile_not p r.path
    rw [hb] at this
    simpa using this
  set a := r.path.takeWhile p with ha
  have hsplit : r.path = a ++ c :: b := by
    rw [← hb, ha, takeWhile_append_dropWhile]
  have hchars : ∀ d ∈ a, d ≠ 0x3F ∧ d ≠ 0x23 ∧ d ≠ 0 := by
    intro d hd
    have := mem_takeWhile_imp hd
    simpa [p, and_assoc] using this
  have hlong : a.length < r.path.length := by
    rw [hsplit]
    simp
  rw [peerPath, hq, if_pos rfl, hsplit, encodeComplexUri_append beyond _ _ fun d hd =>
    ⟨(hchars d hd).1, (hchars d hd).2.1⟩, append_assoc] at heq
  obtain ⟨x, hx, hrest⟩ := exists_of_noSpace heq fun d hd => (escaped_chars hd).2.2.1
  have hinner : ∀ d ∈ a.flatMap escapeUriByte, d ≠ 0x3F ∧ d ≠ 0x23 := fun d hd =>
    ⟨(escaped_chars hd).1, (escaped_chars hd).2.1⟩
  have hcases : c = 0x3F ∨ c = 0x23 ∨ c = 0 := by
    by_contra hne
    exact hc (by simpa [p, and_assoc] using hne)
  by_cases h0 : c = 0
  · -- the escape of NUL is refused
    subst h0
    rw [encodeComplexUri_nul] at hrest
    obtain ⟨x', rfl, -⟩ := exists_of_noSpace (a := [0x25, 0x30, 0x30]) hrest (by simp)
    obtain ⟨⟨d, hd⟩, -⟩ := parts_of_complexTarget ht
    rw [hx, pathPart_append hinner,
      pathPart_append (show ∀ c ∈ ([0x25, 0x30, 0x30] : Bytes), c ≠ 0x3F ∧ c ≠ 0x23 by simp),
      decodePath_escaped _ _ fun d hd => (hchars d hd).2.2] at hd
    have hnone : decodePath false ([0x25, 0x30, 0x30] ++ pathPart x') = none := by
      show decodePath false (0x25 :: 0x30 :: 0x30 :: pathPart x') = none
      rw [decodePath_escape false (show escapeValue 0x30 0x30 = some 0 by decide), if_pos rfl]
    rw [hnone] at hd
    cases hd
  -- the byte itself is written and ends the path
  have hmark : c = 0x3F ∨ c = 0x23 := by tauto
  obtain ⟨n, hn⟩ := encodeComplexUri_mark beyond hmark b
  rw [hn, cons_append] at hrest
  cases x with
  | nil =>
    obtain rfl : c = 0x20 := (cons.inj hrest).1
    revert hmark
    decide
  | cons d x => ?_
  obtain rfl : c = d := (cons.inj hrest).1
  have hpart : pathPart (c :: x) = [] := by
    rcases hmark with rfl | rfl <;> rfl
  have hdecode : decodePath false (pathPart (0x2F :: t0)) = some a := by
    rw [hx, pathPart_append hinner, hpart, decodePath_escaped _ _ fun d hd => (hchars d hd).2.2]
    simp
  have hle := length_complexTarget_le ht hdecode
  rw [hpath] at hle
  omega

theorem lastArgs_of_read {t : ComplexTarget}
    (hchars : ∀ c ∈ peerPath beyond r, c ≠ 0x3F ∧ c ≠ 0x23 ∧ isBadChar c = false)
    (heq : peerPath beyond r ++ peerArgs r = 0x2F :: t0 ++ replicate k 0x20)
    (hfits : TargetFits (0x2F :: t0)) (ht : httpParseComplexTarget false (0x2F :: t0) = some t)
    (hta : t.args.getD [] = r.args) : r.args.getLast? ≠ some 0x20 := by
  intro hlast
  have hne : r.args ≠ [] := by
    rintro hnil
    rw [hnil] at hlast
    cases hlast
  have hargs : peerArgs r = 0x3F :: r.args := by rw [peerArgs, if_pos hne]
  have hk : k ≠ 0 := by
    rintro rfl
    rw [replicate_zero, append_nil] at heq
    refine hfits.last ?_
    rw [← heq, hargs, getLast?_append, getLast?_cons, hlast]
    rfl
  rw [(parts_of_complexTarget ht).2] at hta
  rw [hargs] at heq
  rcases append_eq_append_iff.mp heq with ⟨x, hx, hrest⟩ | ⟨x, hx, -⟩
  · cases x with
    | nil =>
      obtain ⟨m, rfl⟩ := Nat.exists_eq_succ_of_ne_zero hk
      have := (cons.inj hrest).1
      exact absurd this (by decide)
    | cons d x => ?_
    obtain ⟨rfl, hmore⟩ := cons.inj hrest
    have hpart : argsPart (0x2F :: t0) = some (x.takeWhile (· != 0x23)) := by
      rw [hx, argsPart, dropWhile_append_of_pos fun c hc => by simp [hchars c hc],
        dropWhile_cons_of_neg (by decide)]
      rfl
    rw [hpart, getD_some] at hta
    have hle := (List.takeWhile_prefix (fun c => c != 0x23) (l := x)).length_le
    have hlen : r.args.length = (x ++ replicate k 0x20).length := congrArg length hmore
    rw [hta] at hle
    rw [length_append, length_replicate] at hlen
    omega
  -- the target was cut off within the path
  have hpart : argsPart (0x2F :: t0) = none := by
    have hdrop : (0x2F :: t0).dropWhile (fun c => c != 0x3F && c != 0x23) = [] := by
      rw [dropWhile_eq_nil_iff]
      intro c hc
      have := hchars c (by rw [hx]; exact mem_append_left _ hc)
      simp [this]
    rw [argsPart, hdrop]
  rw [hpart] at hta
  exact hne hta.symm

include hplain in
/-- **A rewritten target that reached the peer ended nothing early.** -/
theorem rewriteOk_of_reachesPeer (huri : r.uriChanged = true)
    (hmethod : ∀ c ∈ r.method, isMethodChar c = true)
    (hargs : ∀ c ∈ r.args, isBadChar c = false ∧ c ≠ 0x23) (h : ReachesPeer beyond skcf r) :
    RewriteOk r := by
  obtain ⟨t0, more, rest, j, k, t, heq, hline, hfits, ht, hpath, hta⟩ :=
    targetOf_reachesPeer hmethod h
  have hclean : CleanPath r.path := hpath ▸ cleanPath_of_complexTarget ht
  have hslash := peerPath_slash beyond hclean.slash
  rw [h1pPeerRequestTarget_rewritten beyond huri] at heq
  -- the target found starts where the written one does
  have hj : j = 0 := by
    cases j with
    | zero => rfl
    | succ j => ?_
    have hhead := congrArg head? heq
    rw [append_assoc, append_assoc, head?_append, hslash] at hhead
    exact absurd (some.inj hhead) (by decide)
  subst hj
  rw [replicate_zero, nil_append] at heq
  have hlen := length_path_le ht
  rw [hpath] at hlen
  have hquoted : r.quotedTarget = true → ∀ c ∈ r.path, c ≠ 0x3F ∧ c ≠ 0x23 ∧ c ≠ 0 := by
    intro hq
    obtain ⟨v, eol, hmore, -⟩ := hline
    rw [replicate_succ, cons_append, cons_append, cons_append] at hmore
    rw [hmore, append_assoc, append_assoc] at heq
    exact quoted_of_read beyond hq heq ht hpath
  have hraw : r.quotedTarget = false → ∀ c ∈ r.path, isBadChar c = false := by
    intro hq c hc
    by_contra hbad
    rw [Bool.not_eq_false] at hbad
    obtain ⟨a, b, hab⟩ := append_of_mem hc
    rw [peerPath, hq, if_neg (by decide), hab] at heq
    simp only [append_assoc, cons_append] at heq
    have hle := length_le_of_bad heq hfits.chars hbad
    have hab' := congrArg length hab
    rw [length_append, length_cons] at hab'
    omega
  obtain ⟨hchars, -⟩ := peerPath_of_ok beyond hplain hquoted hraw
  have hbad : ∀ c ∈ peerPath beyond r ++ peerArgs r, isBadChar c = false := by
    intro c hc
    rcases mem_append.mp hc with hc | hc
    · exact (hchars c hc).2.2
    rw [peerArgs] at hc
    split_ifs at hc
    · rcases mem_cons.mp hc with rfl | hc
      · rfl
      · exact (hargs c hc).1
    · cases hc
  have hspaces := eq_append_spaces hbad hfits.chars heq hline
  refine ⟨hclean, hquoted, hraw, fun hq hnil hlast => ?_, ?_⟩
  · -- the path ends the target
    rw [peerPath, hq, if_neg (by decide), peerArgs, if_neg (by simp [hnil]), append_nil] at hspaces
    have hk := congrArg length hspaces
    rw [length_append, length_replicate] at hk
    obtain rfl : k = 0 := by omega
    rw [replicate_zero, append_nil] at hspaces
    exact hfits.last (hspaces ▸ hlast)
  · exact lastArgs_of_read beyond hchars hspaces hfits ht hta

end Rewritten

/-! ### What the client's parser and the rewriting leave -/

def NoMark (c : UInt8) : Prop := c ≠ 0x25 ∧ c ≠ 0x3F ∧ c ≠ 0x23

/-- What a step from a path state has written; it does not end inside an
escape. -/
def TargetStep.Written (Q : UInt8 → Prop) : TargetStep → Prop
  | .next (.quotedSecond _ _) _ => False
  | .next _ u | .args u | .done u => ∀ c ∈ u, Q c
  | .invalid => True

variable {u : Bytes}

theorem mem_of_mem_dropSegment {u' : Bytes} (h : dropSegment u = some u') (hc : c ∈ u') :
    c ∈ u := by
  rw [dropSegment] at h
  split at h
  · cases h
  cases h
  exact mem_of_mem_drop ((dropWhile_suffix _).subset hc)

theorem complexPathChar_noMark (state : PathState) (hu : ∀ c ∈ u, NoMark c) (ch : UInt8) :
    (complexPathChar state u ch).Written NoMark := by
  have hnormal : httpIsNormal ch = true → NoMark ch := by
    have key : ∀ ch : UInt8, httpIsNormal ch = true → ch ≠ 0x25 ∧ ch ≠ 0x3F ∧ ch ≠ 0x23 := by
      grind [httpIsNormal]
    exact key ch
  have hcons : NoMark ch → ∀ c ∈ ch :: u, NoMark c := fun h c hc => by
    rcases mem_cons.mp hc with rfl | hc
    · exact h
    · exact hu c hc
  have hdrop : ∀ c ∈ u.drop 1, NoMark c := fun c hc => hu c (mem_of_mem_drop hc)
  have hslash : ch = 0x2F → NoMark ch := by
    rintro rfl
    exact ⟨by decide, by decide, by decide⟩
  have hdot : ch = 0x2E → NoMark ch := by
    rintro rfl
    exact ⟨by decide, by decide, by decide⟩
  cases state with
  | normal =>
    rw [complexPathChar]
    split_ifs with h1 h2 h3 h4 h5
    · exact hcons (hnormal h1)
    · exact hcons (hslash h2)
    · exact hu
    · exact hu
    · exact hu
    · exact hcons ⟨h3, h4, h5⟩
  | slash =>
    rw [complexPathChar]
    split_ifs with h1 h2 h3 h4 h5 h6
    · exact hcons (hnormal h1)
    · exact hu
    · exact hcons (hdot h3)
    · exact hu
    · exact hu
    · exact hu
    · exact hcons ⟨h4, h5, h6⟩
  | dot =>
    rw [complexPathChar]
    split_ifs with h1 h2 h3 h4 h5 h6
    · exact hcons (hnormal h1)
    · exact hdrop
    · exact hcons (hdot h3)
    · exact hu
    · exact hdrop
    · exact hdrop
    · exact hcons ⟨h4, h5, h6⟩
  | dotDot => ?_
  rw [complexPathChar]
  by_cases h1 : httpIsNormal ch = true
  · rw [if_pos h1]
    exact hcons (hnormal h1)
  rw [if_neg h1]
  by_cases h2 : ch = 0x2F ∨ ch = 0x3F ∨ ch = 0x23
  · rw [if_pos h2]
    cases hseg : dropSegment u with
    | none => trivial
    | some u' => ?_
    have hu' : ∀ c ∈ u', NoMark c := fun c hc => hu c (mem_of_mem_dropSegment hseg hc)
    dsimp only
    split_ifs <;> exact hu'
  rw [if_neg h2]
  split_ifs with h3
  · exact hu
  rw [not_or, not_or] at h2
  exact hcons ⟨h3, h2.2.1, h2.2.2⟩

theorem complexLoop_quoted (es : Bool) (p : Bytes) (state : TargetState) (u : Bytes)
    {r : ComplexTarget} (h : complexLoop es state u true p = some r) : r.quoted = true := by
  induction p generalizing state u r with
  | nil =>
    rw [complexLoop] at h
    cases state with
    | quoted | quotedSecond => cases h
    | path s => ?_
    cases s with
    | normal | slash | dot =>
      cases h
      rfl
    | dotDot => ?_
    obtain ⟨u', -, rfl⟩ := map_eq_some_iff.mp h
    rfl
  | cons ch p ih => ?_
  simp only [complexLoop, Bool.true_or] at h
  cases hstep : complexChar es state u ch with
  | next state' u' =>
    simp only [hstep] at h
    exact ih _ _ h
  | args u' | done u' =>
    simp only [hstep] at h
    cases h
    rfl
  | invalid => simp [hstep] at h

theorem complexLoop_escape (es : Bool) {p : Bytes} {saved : PathState} {q : Bool}
    (h : complexLoop es (.quoted saved) u q p = some r) : r.quoted = true := by
  cases p with
  | nil => cases h
  | cons ch p => ?_
  rw [show complexLoop es (.quoted saved) u q (ch :: p) =
    complexLoop es (.quoted saved) u true (ch :: p) by simp [complexLoop]] at h
  exact complexLoop_quoted es _ _ _ h

theorem complexLoop_noMark (es : Bool) : ∀ (p : Bytes) (s : PathState) (u : Bytes)
    {r : ComplexTarget}, complexLoop es (.path s) u false p = some r → r.quoted = false →
      (∀ c ∈ u, NoMark c) → ∀ c ∈ r.path, NoMark c := by
  intro p
  induction p with
  | nil =>
    intro s u r h _ hu c hc
    rw [complexLoop] at h
    cases s with
    | normal | slash =>
      cases h
      exact hu c (mem_reverse.mp hc)
    | dot =>
      cases h
      exact hu c (mem_of_mem_drop (mem_reverse.mp hc))
    | dotDot => ?_
    obtain ⟨u', hu', rfl⟩ := map_eq_some_iff.mp h
    exact hu c (mem_of_mem_dropSegment hu' (mem_reverse.mp hc))
  | cons ch p ih => ?_
  intro s u r h hq hu
  have hwritten := complexPathChar_noMark s hu ch
  simp only [complexLoop, complexChar, Bool.or_false] at h
  cases hstep : complexPathChar s u ch with
  | next state' u' =>
    simp only [hstep] at h
    rw [hstep] at hwritten
    cases state' with
    | path s' => exact ih s' u' h hq hwritten
    | quoted saved =>
      rw [complexLoop_escape es h] at hq
      cases hq
    | quotedSecond saved high => exact hwritten.elim
  | args u' | done u' =>
    simp only [hstep] at h
    rw [hstep] at hwritten
    cases h
    exact fun c hc => hwritten c (mem_reverse.mp hc)
  | invalid => simp [hstep] at h

/-- An unquoted path, whatever the target started with. -/
theorem noMark_of_complexTarget {es : Bool} (h : httpParseComplexTarget es v = some r)
    (hq : r.quoted = false) : ∀ c ∈ r.path, NoMark c :=
  complexLoop_noMark es v .normal [] h hq (by simp)

/-- What holds of a request on its way from the parser to the proxy. -/
structure ClientRequest (skcf : SocketConf) (r : HttpRequest) : Prop where
  method : ∀ c ∈ r.method, isMethodChar c = true
  args : ∀ c ∈ r.args, isBadChar c = false ∧ c ≠ 0x23
  fields : ∀ f ∈ r.fields, NameFits skcf.discardUnsafeFields f.name ∧ ValueFits f.value
  sent : r.uriChanged = false → LineFits false (r.method, r.target, r.path, r.args)
  plain : r.uriChanged = true → r.quotedTarget = false → ∀ c ∈ r.path, NoMark c

/-- The handlers of the request fields change no name and no value. -/
theorem pair_of_h1pHandler {h : H1Handler} {r r' : H1Request}
    {f f' : HttpField} (hok : h1pHandler skcf h r f = .ok (r', f')) : f'.pair = f.pair := by
  cases h with
  | transferEncoding =>
    simp only [h1pHandler, h1pTransferEncoding] at hok
    split_ifs at hok <;> (cases hok; rfl)
  | host =>
    simp only [h1pHandler, requestHost] at hok
    split_ifs at hok
    split at hok
    · cases hok
    · cases hok
      rfl
  | contentLength =>
    simp only [h1pHandler, requestContentLength] at hok
    split_ifs at hok
    split at hok
    · cases hok
    split_ifs at hok
    cases hok
    rfl
  | connection | upgrade | websocketKey | websocketVersion | expect | cookie | referer
  | userAgent | contentType | authorization =>
    cases hok
    rfl

variable {connTls : Bool}

variable {rp : RequestParse} {framing : Framing} {h1 : H1Request} {fields : List HttpField}

/-- An accepted header keeps the names and the values of the parsed fields. -/
theorem pairs_of_accepted (h : h1pRequestHeader skcf connTls rp = .accepted framing h1 fields) :
    fields.map HttpField.pair = rp.fields.map HttpField.pair := by
  rw [h1pRequestHeader, h1pHeaderProcess] at h
  cases hp : fieldsProcess h1pFields (h1pHandler skcf)
      { parser := rp, keepalive := rp.isHttp11 } rp.fields with
  | error status => simp [hp, h1pError] at h
  | ok x =>
    obtain ⟨h1', fields'⟩ := x
    have hmap := fieldsProcess_map h1pFields (h1pHandler skcf) HttpField.pair
      (fun hok => pair_of_h1pHandler hok) hp
    simp only [hp] at h
    cases hw : websocketCheck h1' with
    | error status => simp [hw, h1pError] at h
    | ok h1'' => ?_
    simp only [hw] at h
    split_ifs at h
    · cases h
    split at h
    · cases h
    cases h
    exact hmap

/-- The arguments of a target hold no byte that the target does not hold, and
no `#`. -/
theorem mem_args_of_complexTarget (h : httpParseComplexTarget false (0x2F :: t) = some r)
    (hc : c ∈ r.args.getD []) : c ∈ 0x2F :: t ∧ c ≠ 0x23 := by
  rw [(parts_of_complexTarget h).2, argsPart] at hc
  cases hd : (0x2F :: t).dropWhile (fun c => c != 0x3F && c != 0x23) with
  | nil => simp [hd] at hc
  | cons d rest => ?_
  rw [hd] at hc
  dsimp only at hc
  split_ifs at hc
  · rw [getD_some] at hc
    have hmem : c ∈ d :: rest := mem_cons_of_mem _ ((List.takeWhile_prefix _).subset hc)
    exact ⟨(dropWhile_suffix _).subset (hd ▸ hmem), by simpa using mem_takeWhile_imp hc⟩
  · cases hc

variable {reads : List Bytes}

theorem clientRequest_ofHeader
    (hparse : parseReads { rp := requestInit skcf } reads = .stop (.done rp rest))
    (hheader : h1pRequestHeader skcf connTls rp = .accepted framing h1 fields)
    (body : Option (List RequestBuf)) :
    ClientRequest skcf (.ofHeader rp framing h1 fields body) := by
  obtain ⟨a, ha, hagrees⟩ := done_of_parseReads hparse
  -- the reads have left what one parse of all bytes leaves
  obtain ⟨flags, rfl⟩ : ∃ flags, rp = a.withFlags flags := ⟨_, hagrees.eq_withFlags⟩
  obtain ⟨hline, -⟩ := lineFits_of_parse ha
  have hfits := fieldFits_of_parse ha
  obtain ⟨t, ht, hpath, hargs⟩ := hline.parsed
  have hslash : a.target.head? = some 0x2F := hline.slash
  refine ⟨hline.method, fun c hc => ?_, fun f hf => ?_, fun _ => hline, fun h => (by cases h)⟩
  · have hc' : c ∈ t.args.getD [] := hargs ▸ hc
    cases htarget : a.target with
    | nil => simp [htarget] at hslash
    | cons d t0 => ?_
    rw [htarget] at hslash
    obtain rfl : d = 0x2F := some.inj hslash
    rw [show a.lineParts.2.1 = a.target from rfl, htarget] at ht
    obtain ⟨hmem, hhash⟩ := mem_args_of_complexTarget ht hc'
    rw [← htarget] at hmem
    exact ⟨hline.target.chars c hmem, hhash⟩
  · have hpair : f.pair ∈ a.fields.map HttpField.pair := by
      have := pairs_of_accepted hheader
      rw [show a.fields = (a.withFlags flags).fields from rfl, ← this]
      exact mem_map_of_mem hf
    obtain ⟨g, hg, hgf⟩ := mem_map.mp hpair
    simp only [HttpField.pair, Prod.mk.injEq] at hgf
    rw [← hgf.1, ← hgf.2]
    exact ⟨(hfits g hg).name, (hfits g hg).value⟩

variable {r' : HttpRequest}

/-- The length that the transform adds is a field as well. -/
theorem clientRequest_ready {r : HttpRequest} (h : ClientRequest skcf r)
    (hready : requestReady r = some r') : ClientRequest skcf r' := by
  rw [requestReady] at hready
  split_ifs at hready
  · split at hready
    · cases hready
      refine ⟨h.method, h.args, ?_, h.sent, h.plain⟩
      intro f hf
      rcases mem_append.mp hf with hf | hf
      · exact h.fields f hf
      rw [mem_singleton.mp hf]
      exact ⟨nameFits_of_isSafeName _ (show isSafeName (str "Content-Length") = true by decide),
        valueFits_decimal (Nat.mod_lt _ (by decide))⟩
    · cases hready
  cases hready
  exact h

theorem clientRequest_rewrite {r : HttpRequest} {value : Bytes} (h : ClientRequest skcf r)
    (hrewrite : httpRewrite r value = some r') : ClientRequest skcf r' := by
  obtain ⟨t, ht, rfl⟩ := map_eq_some_iff.mp hrewrite
  exact ⟨h.method, h.args, h.fields, fun hno => (by cases hno),
    fun _ hq => noMark_of_complexTarget ht hq⟩

theorem clientRequest_rewrites (values : List Bytes) {r : HttpRequest} (h : ClientRequest skcf r)
    (hfold : values.foldlM httpRewrite r = some r') : ClientRequest skcf r' := by
  induction values generalizing r r' with
  | nil =>
    cases hfold
    exact h
  | cons value values ih => ?_
  rw [foldlM_cons, bind_eq_bind, bind_eq_some_iff] at hfold
  obtain ⟨r1, hr1, hrest⟩ := hfold
  exact ih (clientRequest_rewrite h hr1) hrest

theorem clientRequest_proxied {body : Option (List RequestBuf)} {rewrites : List Bytes}
    {r : HttpRequest} (h : proxiedRequest skcf connTls reads body rewrites = some r) :
    ClientRequest skcf r := by
  rw [proxiedRequest] at h
  split at h
  · rename_i rp rest hparse
    split at h
    · rename_i framing h1 fields hheader
      obtain ⟨r0, hready, hrewrites⟩ := bind_eq_some_iff.mp h
      exact clientRequest_rewrites rewrites
        (clientRequest_ready (clientRequest_ofHeader hparse hheader body) hready) hrewrites
    · cases h
  · cases h

/-! ### The peer's view -/

/-- **The peer gets a parsed request** exactly if it was not rewritten, or to a
path that ends nothing early. -/
theorem reachesPeer_iff (beyond : ℕ → UInt8) (skcf : SocketConf) (connTls : Bool)
    (reads : List Bytes) (body : Option (List RequestBuf)) (rewrites : List Bytes)
    {r : HttpRequest} (hr : proxiedRequest skcf connTls reads body rewrites = some r) :
    ReachesPeer beyond skcf r ↔ (r.uriChanged = true → RewriteOk r) := by
  have hclient := clientRequest_proxied hr
  cases huri : r.uriChanged with
  | false =>
    refine ⟨fun _ h => (by cases h), fun _ => ?_⟩
    -- the target is sent as it came
    have hline := hclient.sent huri
    have htarget : h1pPeerRequestTarget beyond r = r.target := by
      rw [h1pPeerRequestTarget, if_pos (by simp [huri])]
    obtain ⟨t, ht, hpath, hargs⟩ := hline.parsed
    refine reachesPeer_of_target hclient.method ?_ ?_ (t := t) ?_ hpath.symm hargs.symm
      hclient.fields
    · rw [htarget]
      exact hline.slash
    · rw [htarget]
      exact hline.target
    · rw [htarget]
      exact ht
  | true => ?_
  have hplain := hclient.plain huri
  constructor
  · exact fun h _ => rewriteOk_of_reachesPeer beyond hplain huri hclient.method hclient.args h
  · intro h
    obtain ⟨t, hslash, hfits, ht, hpath, hargs⟩ :=
      targetRead_of_ok beyond hclient.args hplain (h rfl)
    rw [← h1pPeerRequestTarget_rewritten beyond huri] at hslash hfits ht
    exact reachesPeer_of_target hclient.method hslash hfits ht hpath hargs hclient.fields

/-- A request for `/a`, and the rewrite of it to `/b c`. -/
def rewrittenRequest : HttpRequest where
  method := str "GET"
  target := str "/a"
  path := str "/b c"
  args := []
  quotedTarget := false
  uriChanged := true
  fields := [.ofLine (str "Host") (str "h")]
  chunked := false
  contentLength := none
  body := none

theorem reachesPeer_rewritten :
    proxiedRequest {} false [str "GET /a HTTP/1.1\r\nHost: h\r\n\r\n"] none [str "/b c"] =
        some rewrittenRequest ∧
      ReachesPeer (fun _ => 0) {} rewrittenRequest := by
  have hr : proxiedRequest {} false [str "GET /a HTTP/1.1\r\nHost: h\r\n\r\n"] none
      [str "/b c"] = some rewrittenRequest := by decide +kernel
  refine ⟨hr, (reachesPeer_iff (fun _ => 0) {} false _ none _ hr).mpr fun _ => ?_⟩
  refine ⟨⟨rfl, ?_, ?_⟩, ?_, ?_, ?_, ?_⟩
  all_goals decide +kernel

/-- **A request smuggled through a rewrite.**  The client escapes line ends in
its path; a rewrite to the value of `$uri` sends them as they are, and the peer
finds two requests. -/
theorem reachesPeer_smuggled :
    let r : HttpRequest :=
      { method := str "GET", target := str "/%20HTTP/1.1%0D%0A%0D%0AGET%20/b",
        path := str "/ HTTP/1.1\r\n\r\nGET /b", args := [], quotedTarget := false,
        uriChanged := true, fields := [.ofLine (str "Host") (str "h")], chunked := false,
        contentLength := none, body := none }
    proxiedRequest {} false
        [str "GET /%20HTTP/1.1%0D%0A%0D%0AGET%20/b HTTP/1.1\r\nHost: h\r\n\r\n"] none
        [str "/ HTTP/1.1\r\n\r\nGET /b"] = some r ∧
      h1pPeerHeaderSend (fun _ => 0) r =
        str "GET / HTTP/1.1\r\n\r\n" ++
          str "GET /b HTTP/1.1\r\nConnection: close\r\nHost: h\r\n\r\n" ∧
      ¬ ReachesPeer (fun _ => 0) {} r := by
  intro r
  refine ⟨by decide +kernel, by decide +kernel, ?_⟩
  rintro ⟨rp, hparse, -⟩
  have htwo : httpParseRequest .requestLine (requestInit {}) (h1pPeerHeaderSend (fun _ => 0) r) =
      .done
        { method := str "GET", target := str "/", path := str "/", version := str "HTTP/1.1",
          discardUnsafeFields := true }
        (str "GET /b HTTP/1.1\r\nConnection: close\r\nHost: h\r\n\r\n") := by
    decide
  rw [htwo] at hparse
  injection hparse with _ hrest
  exact absurd hrest (by decide)

end FreeUnit
