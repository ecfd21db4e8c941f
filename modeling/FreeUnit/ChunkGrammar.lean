/-
The language of chunked bodies, and that the parser reads exactly it.

The grammar is the one of RFC 9112 as far as the parser looks: sizes in
hexadecimal digits of either case, extensions up to the carriage return,
trailer lines of a token, a colon and a value without control characters.

* `chunkReads_correct` — the parser's calls on any stream, however it is cut.
-/
import FreeUnit.ChunkParse

namespace FreeUnit

open Transducer Streaming List

inductive HexSize : Bytes → ℕ → Prop
  | one {ch c : UInt8} (hc : hexDigit ch = some c) : HexSize [ch] c.toNat
  | snoc {digits : Bytes} {n : ℕ} {ch c : UInt8} (hn : HexSize digits n)
      (hc : hexDigit ch = some c) : HexSize (digits ++ [ch]) (n * 16 + c.toNat)

/-- No chunk extension, or one that starts with a semicolon. -/
def IsExtension (ext : Bytes) : Prop := ext = [] ∨ ∃ e, ext = 0x3B :: e ∧ 0x0D ∉ e

/-- The line before the data of a chunk; the size fits into 64 bits. -/
def SizeLine (n : ℕ) (line : Bytes) : Prop :=
  ∃ digits ext, HexSize digits n ∧ n < 2 ^ 64 ∧ IsExtension ext ∧ line = digits ++ ext ++ crlf

/-- Byte strings as chunks.  An empty one has no chunk, since a chunk of size
zero ends the body. -/
inductive Chunks : List Bytes → Bytes → Prop
  | nil : Chunks [] []
  | empty {parts : List Bytes} {enc : Bytes} (h : Chunks parts enc) : Chunks (parts ++ [[]]) enc
  | snoc {parts : List Bytes} {enc line part : Bytes} (h : Chunks parts enc)
      (hline : SizeLine part.length line) (hpart : part ≠ []) :
      Chunks (parts ++ [part]) (enc ++ (line ++ (part ++ crlf)))

/-- What may stand in a field value: no control characters but the tab. -/
def isTrailerValue (ch : UInt8) : Bool := ¬ ((ch < 0x20 ∨ ch = 0x7F) ∧ ch ≠ 0x09)

def TrailerLine (l : Bytes) : Prop :=
  ∃ name value : Bytes, name ≠ [] ∧ (∀ c ∈ name, httpTrailerTchar c) ∧
    (∀ c ∈ value, isTrailerValue c) ∧ l = name ++ (0x3A :: value ++ crlf)

inductive Trailers : Bytes → Prop
  | nil : Trailers []
  | snoc {tr l : Bytes} (h : Trailers tr) (hl : TrailerLine l) : Trailers (tr ++ l)

/-- The chunks of a body and the line of the terminal chunk. -/
def Head (parts : List Bytes) (h : Bytes) : Prop :=
  ∃ enc line, Chunks parts enc ∧ SizeLine 0 line ∧ h = enc ++ line

/-- **Chunked encodings** with a limit for the trailer section. -/
def Encodes (limit : ℕ) (parts : List Bytes) (enc : Bytes) : Prop :=
  ∃ h tr, Head parts h ∧ Trailers tr ∧ tr.length ≤ limit ∧ enc = h ++ (tr ++ crlf)

/-- The beginnings of encodings in which the trailer section has not exceeded
the limit yet: either the whole section keeps it, or the stream breaks off
before the limit is reached. -/
def Begins (limit : ℕ) (x : Bytes) : Prop :=
  ∃ parts h tr, Head parts h ∧ Trailers tr ∧ x <+: h ++ (tr ++ crlf) ∧
    (tr.length ≤ limit ∨ x.length ≤ h.length + limit)

/-! ### The machine reads encodings -/

variable {n : ℕ} {parts : List Bytes} {enc out x : Bytes} {s : ByteState} {ch : UInt8}

section Accepts

variable (limit : ℕ)

theorem run_hexSize {digits : Bytes} (h : HexSize digits n) (hn : n < 2 ^ 64) :
    run (byteStep limit) .start digits = ([], .running (.size n)) := by
  induction h with
  | one hc => exact run_singleton (by simp only [byteStep, hc])
  | snoc _ hc ih => ?_
  refine run_trans (ih (by omega)) (run_singleton ?_)
  simp only [byteStep, hc, if_pos hn]

theorem run_extension : ∀ {e : Bytes}, 0x0D ∉ e →
    run (byteStep limit) (.ext n) e = ([], .running (.ext n))
  | [], _ => rfl
  | ch :: e, h => by
    rw [mem_cons, not_or] at h
    have hstep : byteStep limit (.ext n) ch = .go (.ext n) [] := by
      rw [byteStep, if_neg (Ne.symm h.1)]
    rw [run_cons_go hstep, run_extension h.2]
    rfl

theorem run_sizeLine {line : Bytes} (h : SizeLine n line) : run (byteStep limit) .start line
      = ([], .running (if n = 0 then .line 0 else .data n)) := by
  obtain ⟨digits, ext, hdigits, hn, hext, rfl⟩ := h
  have hlf : run (byteStep limit) (.sizeLf n) [0x0A]
      = ([], .running (if n = 0 then .line 0 else .data n)) := rfl
  rcases hext with rfl | ⟨e, rfl, he⟩
  · have hcr : run (byteStep limit) (.size n) [0x0D] = ([], .running (.sizeLf n)) := rfl
    have := run_trans (run_trans (run_hexSize limit hdigits hn) hcr) hlf
    simpa [crlf] using this
  have hsemi : run (byteStep limit) (.size n) [0x3B] = ([], .running (.ext n)) := rfl
  have hcr : run (byteStep limit) (.ext n) [0x0D] = ([], .running (.sizeLf n)) := rfl
  have := run_trans (run_trans (run_trans (run_trans (run_hexSize limit hdigits hn) hsemi)
    (run_extension limit he)) hcr) hlf
  simpa [crlf] using this

theorem run_chunks (h : Chunks parts enc) :
    run (byteStep limit) .start enc = (parts.flatten, .running .start) := by
  induction h with
  | nil => rfl
  | empty _ ih => simpa using ih
  | @snoc parts enc line part _ hline hpart ih => ?_
  have hpos : 0 < part.length := length_pos_of_ne_nil hpart
  have hsize := run_sizeLine limit hline
  rw [if_neg (by omega)] at hsize
  have hend : run (byteStep limit) .dataCr crlf = ([], .running .start) := rfl
  have := run_trans ih (run_trans hsize (run_trans (run_data limit rfl hpos) hend))
  simpa using this

theorem run_head {h : Bytes} (hh : Head parts h) :
    run (byteStep limit) .start h = (parts.flatten, .running (.line 0)) := by
  obtain ⟨enc, line, henc, hline, rfl⟩ := hh
  simpa using run_trans (run_chunks limit henc) (run_sizeLine limit hline)

variable {limit}

/-- A state that counts the bytes it takes. -/
theorem run_count {p : UInt8 → Prop} {st : ℕ → ByteState}
    (hstep : ∀ ch k, p ch → k + 1 ≤ limit → byteStep limit (st k) ch = .go (st (k + 1)) []) :
    ∀ {s : Bytes} {k : ℕ}, (∀ c ∈ s, p c) → k + s.length ≤ limit →
      run (byteStep limit) (st k) s = ([], .running (st (k + s.length)))
  | [], _, _, _ => rfl
  | ch :: s, k, h, hk => by
    obtain ⟨hch, hs⟩ := forall_mem_cons.mp h
    rw [length_cons] at hk
    rw [run_cons_go (hstep ch k hch (by omega)), run_count hstep hs (by omega), length_cons,
      Nat.add_right_comm]
    rfl

variable {k : ℕ}

theorem run_name {name : Bytes} (h : ∀ c ∈ name, httpTrailerTchar c) (hk : k + name.length ≤ limit)
    : run (byteStep limit) (.name k) name = ([], .running (.name (k + name.length))) := by
  refine run_count (fun ch k hch hk => ?_) h hk
  have hcolon : ch ≠ 0x3A := by
    rintro rfl
    exact absurd hch (by decide)
  rw [byteStep, if_neg hcolon, if_pos hch, ByteState.count, if_pos hk]

theorem run_value {value : Bytes} (h : ∀ c ∈ value, isTrailerValue c)
    (hk : k + value.length ≤ limit) :
    run (byteStep limit) (.value k) value = ([], .running (.value (k + value.length))) := by
  refine run_count (fun ch k hch hk => ?_) h hk
  have hcr : ch ≠ 0x0D := by
    rintro rfl
    exact absurd hch (by decide)
  have hctl : ¬ ((ch < 0x20 ∨ ch = 0x7F) ∧ ch ≠ 0x09) := of_decide_eq_true hch
  rw [byteStep, if_neg hcr, if_neg hctl, ByteState.count, if_pos hk]

theorem run_trailerLine {l : Bytes} (hl : TrailerLine l) (hk : k + l.length ≤ limit) :
    run (byteStep limit) (.line k) l = ([], .running (.line (k + l.length))) := by
  obtain ⟨name, value, hne, hname, hvalue, rfl⟩ := hl
  obtain ⟨ch, name, rfl⟩ := exists_cons_of_ne_nil hne
  obtain ⟨hch, hname⟩ := forall_mem_cons.mp hname
  simp only [length_append, length_cons, crlf, length_nil] at hk
  have hcr : ch ≠ 0x0D := by
    rintro rfl
    exact absurd hch (by decide)
  have hfirst : run (byteStep limit) (.line k) [ch] = ([], .running (.name (k + 1))) := by
    refine run_singleton ?_
    rw [byteStep, if_neg hcr, if_pos hch, ByteState.count, if_pos (by omega)]
  have hcolon : run (byteStep limit) (.name (k + 1 + name.length)) [0x3A]
      = ([], .running (.value (k + 1 + name.length + 1))) := by
    refine run_singleton ?_
    rw [byteStep, if_pos rfl, ByteState.count, if_pos (by omega)]
  have hend : ∀ m, m + 2 ≤ limit → run (byteStep limit) (.value m) crlf
      = ([], .running (.line (m + 2))) := by
    intro m hm
    have hcr : run (byteStep limit) (.value m) [0x0D] = ([], .running (.lineLf (m + 1))) := by
      refine run_singleton ?_
      rw [byteStep, if_pos rfl, ByteState.count, if_pos (by omega)]
    have hlf : run (byteStep limit) (.lineLf (m + 1)) [0x0A] = ([], .running (.line (m + 2))) := by
      refine run_singleton ?_
      rw [byteStep, if_pos rfl, ByteState.count, if_pos (by omega)]
    exact run_trans hcr hlf
  have := run_trans hfirst (run_trans (run_name hname (by omega)) (run_trans hcolon
    (run_trans (run_value hvalue (by omega)) (hend _ (by omega)))))
  have hlen : k + 1 + name.length + 1 + value.length + 2
      = k + (ch :: name ++ (0x3A :: value ++ crlf)).length := by
    simp only [length_append, length_cons, crlf, length_nil]
    omega
  rw [hlen] at this
  exact this

theorem run_trailers {tr : Bytes} (h : Trailers tr) (hk : tr.length ≤ limit) :
    run (byteStep limit) (.line 0) tr = ([], .running (.line tr.length)) := by
  induction h with
  | nil => rfl
  | snoc _ hl ih => ?_
  rw [length_append] at hk ⊢
  exact run_trans (ih (by omega)) (run_trailerLine hl hk)

/-- **Encodings are accepted**, with their data as the output. -/
theorem run_encodes (h : Encodes limit parts enc) :
    run (byteStep limit) .start enc = (parts.flatten, .halted .last []) := by
  obtain ⟨hd, tr, hhead, htr, hlen, rfl⟩ := h
  have hend : run (byteStep limit) (.line tr.length) crlf = ([], .halted .last []) := rfl
  rw [run_append_running (run_head limit hhead), run_append_running (run_trailers htr hlen), hend]
  simp

end Accepts

/-! ### What the machine has read -/

/-- The bytes read and the data put out, by the state reached. -/
def Seen (limit : ℕ) : ByteState → Bytes → Bytes → Prop
  | .start, x, d => ∃ parts, Chunks parts x ∧ d = parts.flatten
  | .size n, x, d => ∃ parts p digits, Chunks parts p ∧ HexSize digits n ∧ n < 2 ^ 64 ∧
      x = p ++ digits ∧ d = parts.flatten
  | .ext n, x, d => ∃ parts p digits e, Chunks parts p ∧ HexSize digits n ∧ n < 2 ^ 64 ∧
      0x0D ∉ e ∧ x = p ++ (digits ++ 0x3B :: e) ∧ d = parts.flatten
  | .sizeLf n, x, d => ∃ parts p line, Chunks parts p ∧ SizeLine n (line ++ crlf) ∧
      x = p ++ (line ++ [0x0D]) ∧ d = parts.flatten
  | .data n, x, d => ∃ parts p line body, Chunks parts p ∧ SizeLine (body.length + n) line ∧
      0 < n ∧ x = p ++ (line ++ body) ∧ d = parts.flatten ++ body
  | .dataCr, x, d => ∃ parts p line body, Chunks parts p ∧ SizeLine body.length line ∧
      body ≠ [] ∧ x = p ++ (line ++ body) ∧ d = parts.flatten ++ body
  | .dataLf, x, d => ∃ parts p line body, Chunks parts p ∧ SizeLine body.length line ∧
      body ≠ [] ∧ x = p ++ (line ++ (body ++ [0x0D])) ∧ d = parts.flatten ++ body
  | .line k, x, d => ∃ parts h tr, Head parts h ∧ Trailers tr ∧ tr.length = k ∧ k ≤ limit ∧
      x = h ++ tr ∧ d = parts.flatten
  | .name k, x, d => ∃ parts h tr name, Head parts h ∧ Trailers tr ∧ name ≠ [] ∧
      (∀ c ∈ name, httpTrailerTchar c) ∧ (tr ++ name).length = k ∧ k ≤ limit ∧
      x = h ++ (tr ++ name) ∧ d = parts.flatten
  | .value k, x, d => ∃ parts h tr name value, Head parts h ∧ Trailers tr ∧ name ≠ [] ∧
      (∀ c ∈ name, httpTrailerTchar c) ∧ (∀ c ∈ value, isTrailerValue c) ∧
      (tr ++ (name ++ 0x3A :: value)).length = k ∧ k ≤ limit ∧
      x = h ++ (tr ++ (name ++ 0x3A :: value)) ∧ d = parts.flatten
  | .lineLf k, x, d => ∃ parts h tr line, Head parts h ∧ Trailers tr ∧
      TrailerLine (line ++ crlf) ∧ (tr ++ (line ++ [0x0D])).length = k ∧ k ≤ limit ∧
      x = h ++ (tr ++ (line ++ [0x0D])) ∧ d = parts.flatten
  | .endLf k, x, d => ∃ parts h tr, Head parts h ∧ Trailers tr ∧ tr.length = k ∧ k ≤ limit ∧
      x = h ++ (tr ++ [0x0D]) ∧ d = parts.flatten

section Step

variable {limit : ℕ}

theorem count_eq_go {next : ℕ → ByteState} {k : ℕ} (h : ByteState.count limit next k = .go s out) :
    k + 1 ≤ limit ∧ s = next (k + 1) ∧ out = [] := by
  rw [ByteState.count] at h
  split_ifs at h with hk
  cases h
  exact ⟨hk, rfl, rfl⟩

variable {s' : ByteState} {d : Bytes}

/-- **One byte extends what has been read.** -/
theorem seen_go (h : Seen limit s x d) (hs : byteStep limit s ch = .go s' out) :
    Seen limit s' (x ++ [ch]) (d ++ out) := by
  cases s with
  | start =>
    obtain ⟨parts, hx, rfl⟩ := h
    simp only [byteStep] at hs
    cases hc : hexDigit ch with
    | none => simp [hc] at hs
    | some c => ?_
    simp only [hc] at hs
    cases hs
    have hlt : c.toNat < 2 ^ 64 := lt_trans (hexDigit_toNat_lt hc) (by norm_num)
    exact ⟨parts, x, [ch], hx, .one hc, hlt, rfl, by simp⟩
  | size n =>
    obtain ⟨parts, p, digits, hp, hdigits, hn, rfl, rfl⟩ := h
    simp only [byteStep] at hs
    cases hc : hexDigit ch with
    | some c =>
      simp only [hc] at hs
      split_ifs at hs with hfit
      cases hs
      exact ⟨parts, p, digits ++ [ch], hp, .snoc hdigits hc, hfit, by simp, by simp⟩
    | none => ?_
    simp only [hc] at hs
    split_ifs at hs with hcr hsemi
    · cases hs
      refine ⟨parts, p, digits, hp, ⟨digits, [], hdigits, hn, .inl rfl, by simp⟩, ?_, by simp⟩
      rw [hcr, append_assoc]
    cases hs
    refine ⟨parts, p, digits, [], hp, hdigits, hn, by simp, ?_, by simp⟩
    rw [hsemi, append_assoc]
  | ext n =>
    obtain ⟨parts, p, digits, e, hp, hdigits, hn, he, rfl, rfl⟩ := h
    simp only [byteStep] at hs
    cases hs
    split_ifs with hcr
    · refine ⟨parts, p, digits ++ 0x3B :: e, hp, ⟨digits, _, hdigits, hn, .inr ⟨e, rfl, he⟩, rfl⟩,
        ?_, by simp⟩
      rw [hcr, append_assoc]
    refine ⟨parts, p, digits, e ++ [ch], hp, hdigits, hn, ?_, by simp, by simp⟩
    simp only [mem_append, mem_singleton, not_or]
    exact ⟨he, Ne.symm hcr⟩
  | sizeLf n =>
    obtain ⟨parts, p, line, hp, hline, rfl, rfl⟩ := h
    simp only [byteStep] at hs
    split_ifs at hs with hlf h0
    · cases hs
      subst h0
      refine ⟨parts, p ++ (line ++ crlf), [], ⟨p, line ++ crlf, hp, hline, rfl⟩, .nil, rfl,
        Nat.zero_le _, ?_, by simp⟩
      simp [hlf, crlf]
    cases hs
    refine ⟨parts, p, line ++ crlf, [], hp, by simpa using hline, Nat.pos_of_ne_zero h0, ?_,
      by simp⟩
    simp [hlf, crlf]
  | data n =>
    obtain ⟨parts, p, line, body, hp, hline, hn, rfl, rfl⟩ := h
    simp only [byteStep] at hs
    cases hs
    split_ifs with h1
    · refine ⟨parts, p, line, body ++ [ch], hp, ?_, by simp, by simp, by simp⟩
      rw [length_append, length_singleton]
      convert hline using 2
      omega
    refine ⟨parts, p, line, body ++ [ch], hp, ?_, by omega, by simp, by simp⟩
    rw [length_append, length_singleton]
    convert hline using 1
    omega
  | dataCr =>
    obtain ⟨parts, p, line, body, hp, hline, hne, rfl, rfl⟩ := h
    simp only [byteStep] at hs
    split_ifs at hs with hcr
    cases hs
    exact ⟨parts, p, line, body, hp, hline, hne, by simp [hcr], by simp⟩
  | dataLf =>
    obtain ⟨parts, p, line, body, hp, hline, hne, rfl, rfl⟩ := h
    simp only [byteStep] at hs
    split_ifs at hs with hlf
    cases hs
    refine ⟨parts ++ [body], ?_, by simp⟩
    have := Chunks.snoc hp hline hne
    simpa [hlf, crlf] using this
  | line k =>
    obtain ⟨parts, h, tr, hh, htr, hlen, hk, rfl, rfl⟩ := h
    simp only [byteStep] at hs
    split_ifs at hs with hcr hch
    · cases hs
      exact ⟨parts, h, tr, hh, htr, hlen, hk, by simp [hcr], by simp⟩
    obtain ⟨hk', rfl, rfl⟩ := count_eq_go hs
    exact ⟨parts, h, tr, [ch], hh, htr, by simp, by simpa using hch, by simp [hlen], hk',
      by simp, by simp⟩
  | name k =>
    obtain ⟨parts, h, tr, name, hh, htr, hne, hname, hlen, hk, rfl, rfl⟩ := h
    simp only [byteStep] at hs
    split_ifs at hs with hcolon hch
    · obtain ⟨hk', rfl, rfl⟩ := count_eq_go hs
      refine ⟨parts, h, tr, name, [], hh, htr, hne, hname, by simp, ?_, hk', by simp [hcolon],
        by simp⟩
      simp [← hlen]
      omega
    obtain ⟨hk', rfl, rfl⟩ := count_eq_go hs
    refine ⟨parts, h, tr, name ++ [ch], hh, htr, by simp, ?_, ?_, hk', by simp, by simp⟩
    · exact forall_mem_append.mpr ⟨hname, by simpa using hch⟩
    · simp [← hlen]
      omega
  | value k =>
    obtain ⟨parts, h, tr, name, value, hh, htr, hne, hname, hvalue, hlen, hk, rfl, rfl⟩ := h
    simp only [byteStep] at hs
    split_ifs at hs with hcr hctl
    · obtain ⟨hk', rfl, rfl⟩ := count_eq_go hs
      refine ⟨parts, h, tr, name ++ 0x3A :: value, hh, htr,
        ⟨name, value, hne, hname, hvalue, by simp⟩, ?_, hk', by simp [hcr], by simp⟩
      simp [← hlen]
      omega
    obtain ⟨hk', rfl, rfl⟩ := count_eq_go hs
    refine ⟨parts, h, tr, name, value ++ [ch], hh, htr, hne, hname, ?_, ?_, hk', by simp, by simp⟩
    · have hch : isTrailerValue ch = true := decide_eq_true hctl
      exact forall_mem_append.mpr ⟨hvalue, by simpa using hch⟩
    · simp [← hlen]
      omega
  | lineLf k =>
    obtain ⟨parts, h, tr, line, hh, htr, hline, hlen, hk, rfl, rfl⟩ := h
    simp only [byteStep] at hs
    split_ifs at hs with hlf
    obtain ⟨hk', rfl, rfl⟩ := count_eq_go hs
    refine ⟨parts, h, tr ++ (line ++ crlf), hh, .snoc htr hline, ?_, hk', by simp [hlf, crlf],
      by simp⟩
    simp [← hlen, crlf]
    omega
  | endLf k => ?_
  simp only [byteStep] at hs
  split_ifs at hs

/-- The byte that ends the body completes an encoding. -/
theorem seen_last (h : Seen limit s x d) (hs : byteStep limit s ch = .halt .last) :
    ∃ parts, Encodes limit parts (x ++ [ch]) ∧ d = parts.flatten := by
  cases s with
  | endLf k =>
    obtain ⟨parts, h, tr, hh, htr, hlen, hk, rfl, rfl⟩ := h
    simp only [byteStep] at hs
    split_ifs at hs with hlf
    · exact ⟨parts, ⟨h, tr, hh, htr, hlen.trans_le hk, by simp [hlf, crlf]⟩, rfl⟩
    · cases hs
  | _ =>
    -- no other state ends the body
    simp only [byteStep, ByteState.count] at hs
    repeat' split at hs
    all_goals cases hs

/-- **What a run has read.** -/
theorem seen_run (limit : ℕ) (w : Bytes) : Ends (Seen limit)
      (fun v y o => v = .last → ∃ parts, Encodes limit parts y ∧ o = parts.flatten)
      w (run (byteStep limit) .start w) :=
  run_rule (byteStep limit) _ _ seen_go (fun h hs hv => seen_last h (hv ▸ hs)) w
    (x := []) (d := []) ⟨[], .nil, rfl⟩

/-! ### What has been read begins an encoding -/

theorem sizeLine_zero : SizeLine 0 (str "0\r\n") := by
  have hzero : hexDigit 0x30 = some 0 := by decide
  exact ⟨[0x30], [], .one hzero, by norm_num, .inl rfl, by decide⟩

/-- Chunks can be followed by the terminal chunk at once. -/
theorem begins_of_chunks (h : Chunks parts enc) (hx : x <+: enc) : Begins limit x :=
  ⟨parts, enc ++ str "0\r\n", [], ⟨enc, _, h, sizeLine_zero, rfl⟩, .nil,
    hx.trans (by rw [append_assoc]; exact prefix_append _ _), .inl (Nat.zero_le _)⟩

theorem begins_of_head {h : Bytes} (hh : Head parts h) (hx : x <+: h) : Begins limit x :=
  ⟨parts, h, [], hh, .nil, hx.trans (prefix_append _ _), .inl (Nat.zero_le _)⟩

theorem begins_of_body {line body : Bytes} (h : Chunks parts enc)
    (hline : SizeLine body.length line) (hne : body ≠ [])
    (hx : x <+: enc ++ (line ++ (body ++ crlf))) : Begins limit x :=
  begins_of_chunks (h.snoc hline hne) hx

theorem begins_of_sizeLine {line : Bytes}
    (h : Chunks parts enc) (hline : SizeLine n line) (hx : x <+: enc ++ line) : Begins limit x := by
  rcases Nat.eq_zero_or_pos n with rfl | hn
  · exact begins_of_head ⟨enc, line, h, hline, rfl⟩ hx
  -- any data of that size will do
  have hlen : (replicate n (0 : UInt8)).length = n := length_replicate
  refine begins_of_body h (hlen.symm ▸ hline) ?_
    (hx.trans ⟨replicate n 0 ++ crlf, by simp⟩)
  intro hnil
  rw [hnil] at hlen
  exact hn.ne hlen

theorem begins_of_trailer {h tr : Bytes} (hh : Head parts h)
    (htr : Trailers tr) (hx : x <+: h ++ tr) (hlen : x.length ≤ h.length + limit) :
    Begins limit x :=
  ⟨parts, h, tr, hh, htr, hx.trans (by rw [← append_assoc]; exact prefix_append _ _), .inr hlen⟩

/-- **A machine that still runs has read the beginning of an encoding.** -/
theorem begins_of_seen (h : Seen limit s x d) : Begins limit x := by
  cases s with
  | start =>
    obtain ⟨parts, hx, -⟩ := h
    exact begins_of_chunks hx prefix_rfl
  | size n =>
    obtain ⟨parts, p, digits, hp, hdigits, hn, rfl, -⟩ := h
    refine begins_of_sizeLine hp ⟨digits, [], hdigits, hn, .inl rfl, rfl⟩ ?_
    exact ⟨crlf, by simp⟩
  | ext n =>
    obtain ⟨parts, p, digits, e, hp, hdigits, hn, he, rfl, -⟩ := h
    refine begins_of_sizeLine hp ⟨digits, _, hdigits, hn, .inr ⟨e, rfl, he⟩, rfl⟩ ?_
    exact ⟨crlf, by simp⟩
  | sizeLf n =>
    obtain ⟨parts, p, line, hp, hline, rfl, -⟩ := h
    exact begins_of_sizeLine hp hline ⟨[0x0A], by simp [crlf]⟩
  | data n =>
    obtain ⟨parts, p, line, body, hp, hline, hn, rfl, -⟩ := h
    have hlen : (body ++ replicate n 0).length = body.length + n := by simp
    refine begins_of_body hp (hlen.symm ▸ hline) ?_ ⟨replicate n 0 ++ crlf, by simp⟩
    intro hnil
    have hrep := (append_eq_nil_iff.mp hnil).2
    rw [replicate_eq_nil_iff] at hrep
    omega
  | dataCr =>
    obtain ⟨parts, p, line, body, hp, hline, hne, rfl, -⟩ := h
    exact begins_of_body hp hline hne ⟨crlf, by simp⟩
  | dataLf =>
    obtain ⟨parts, p, line, body, hp, hline, hne, rfl, -⟩ := h
    exact begins_of_body hp hline hne ⟨[0x0A], by simp [crlf]⟩
  | line k =>
    obtain ⟨parts, h, tr, hh, htr, hlen, hk, rfl, -⟩ := h
    refine begins_of_trailer hh htr prefix_rfl ?_
    rw [length_append, hlen]
    omega
  | name k =>
    obtain ⟨parts, h, tr, name, hh, htr, hne, hname, hlen, hk, rfl, -⟩ := h
    have hline : TrailerLine (name ++ 0x3A :: crlf) := ⟨name, [], hne, hname, by simp, rfl⟩
    refine begins_of_trailer hh (htr.snoc hline) ⟨0x3A :: crlf, by simp⟩ ?_
    rw [length_append, hlen]
    omega
  | value k =>
    obtain ⟨parts, h, tr, name, value, hh, htr, hne, hname, hvalue, hlen, hk, rfl, -⟩ := h
    have hline : TrailerLine (name ++ (0x3A :: value ++ crlf)) :=
      ⟨name, value, hne, hname, hvalue, rfl⟩
    refine begins_of_trailer hh (htr.snoc hline) ⟨crlf, by simp⟩ ?_
    rw [length_append, hlen]
    omega
  | lineLf k =>
    obtain ⟨parts, h, tr, line, hh, htr, hline, hlen, hk, rfl, -⟩ := h
    refine begins_of_trailer hh (htr.snoc hline) ⟨[0x0A], by simp [crlf]⟩ ?_
    rw [length_append, hlen]
    omega
  | endLf k => ?_
  obtain ⟨parts, h, tr, hh, htr, hlen, hk, rfl, -⟩ := h
  exact ⟨parts, h, tr, hh, htr, ⟨[0x0A], by simp [crlf]⟩, .inl (hlen.trans_le hk)⟩

/-! ### Beginnings of encodings are not refused -/

def ByteState.counted : ByteState → ℕ
  | .line k | .name k | .value k | .lineLf k | .endLf k => k
  | _ => 0

/-- A step counts at most its byte, and never forgets what was counted. -/
theorem counted_step (hs : byteStep limit s ch = .go s' out) :
    s.counted ≤ s'.counted ∧ s'.counted ≤ s.counted + 1 := by
  cases s <;>
  · simp only [byteStep, ByteState.count] at hs
    repeat' split at hs
    all_goals cases hs
    all_goals simp [ByteState.counted]

theorem counted_run {w : Bytes} {s s' : ByteState} {out : Bytes}
    (h : run (byteStep limit) s w = (out, .running s')) :
    s.counted ≤ s'.counted ∧ s'.counted ≤ s.counted + w.length := by
  induction w generalizing s s' out with
  | nil =>
    cases h
    exact ⟨le_rfl, le_rfl⟩
  | cons ch w ih => ?_
  cases hs : byteStep limit s ch with
  | halt r => simp [run_cons_halt hs] at h
  | go t o => ?_
  rw [run_cons_go hs] at h
  have hstep := counted_step hs
  have hrun := ih (s := t) (Prod.ext rfl (Prod.ext_iff.mp h).2)
  rw [length_cons]
  omega

/-- A lower limit makes no difference while it is not reached. -/
theorem byteStep_limit {limit' : ℕ} (hs : byteStep limit s ch = .go s' out)
    (hlimit : s'.counted ≤ limit') : byteStep limit' s ch = .go s' out := by
  cases s <;>
  · simp only [byteStep, ByteState.count] at hs ⊢
    repeat' split at hs
    all_goals cases hs
    all_goals simp_all [ByteState.counted]

theorem run_limit {limit' : ℕ} {w : Bytes} {s s' : ByteState} {out : Bytes}
    (h : run (byteStep limit) s w = (out, .running s')) (hlimit : s'.counted ≤ limit') :
    run (byteStep limit') s w = (out, .running s') := by
  induction w generalizing s s' out with
  | nil =>
    exact h
  | cons ch w ih => ?_
  cases hs : byteStep limit s ch with
  | halt r => simp [run_cons_halt hs] at h
  | go t o => ?_
  rw [run_cons_go hs, Prod.mk.injEq] at h
  obtain ⟨rfl, hrun⟩ := h
  have hw : run (byteStep limit) t w = ((run (byteStep limit) t w).1, .running s') :=
    Prod.ext rfl hrun
  have hle := (counted_run hw).1
  rw [run_cons_go (byteStep_limit hs (hle.trans hlimit)), ih hw hlimit]

/-- **The beginning of an encoding keeps the machine running**, unless it is
the whole encoding. -/
theorem running_of_begins (h : Begins limit x) : (∃ parts, Encodes limit parts x) ∨
      ∃ o s, run (byteStep limit) .start x = (o, .running s) := by
  obtain ⟨parts, h, tr, hh, htr, ⟨y, hy⟩, hlen⟩ := h
  by_cases hnil : y = []
  · -- the whole encoding; its trailer section then keeps the limit
    rw [hnil, append_nil] at hy
    refine .inl ⟨parts, h, tr, hh, htr, ?_, hy⟩
    rcases hlen with hlen | hlen
    · exact hlen
    rw [hy, length_append, length_append] at hlen
    omega
  right
  have hwhole : ∀ limit, tr.length ≤ limit → ∃ o s,
      run (byteStep limit) .start x = (o, .running s) := by
    intro limit htr'
    have henc : Encodes limit parts (x ++ y) := ⟨h, tr, hh, htr, htr', hy⟩
    exact running_of_halted_nil (run_encodes henc) hnil
  rcases hlen with hlen | hlen
  · exact hwhole limit hlen
  -- the section is too long, but the stream breaks off before that shows
  obtain ⟨o, s, hrun⟩ := hwhole tr.length le_rfl
  refine ⟨o, s, run_limit hrun ?_⟩
  rcases prefix_or_prefix_of_prefix ⟨y, hy⟩ (prefix_append h (tr ++ crlf)) with
    hxh | ⟨x', rfl⟩
  · obtain ⟨z, rfl⟩ := hxh
    have hhead := run_head tr.length hh
    rw [run_append_running hrun] at hhead
    have hz : run (byteStep tr.length) s z
        = ((run (byteStep tr.length) s z).1, .running (.line 0)) :=
      Prod.ext rfl (Prod.ext_iff.mp hhead).2
    exact (counted_run hz).1.trans (Nat.zero_le _)
  rw [run_append_running (run_head tr.length hh)] at hrun
  have hx' : run (byteStep tr.length) (.line 0) x'
      = ((run (byteStep tr.length) (.line 0) x').1, .running s) :=
    Prod.ext rfl (Prod.ext_iff.mp hrun).2
  have hcount := (counted_run hx').2
  rw [length_append] at hlen
  exact hcount.trans (by rw [ByteState.counted]; omega)

end Step

/-! ### The calls of the parser -/

variable {calls : List (List Bytes)}

theorem chunkReads_running {o : Bytes}
    (h : run (byteStep httpTrailerMaxSize) .start calls.flatten.flatten = (o, .running s)) :
    ∃ hcp out, chunkReads calls = .more (hcp, out) ∧ out.flatten = o ∧
      hcp.last = false ∧ hcp.chunkError = false := by
  have hcalls := chunkReads_refines calls
  rcases hr : chunkReads calls with ⟨hcp, out⟩ | r
  · rw [hr] at hcalls
    obtain ⟨hrun, hvalid⟩ := hcalls
    rw [h, Prod.mk.injEq] at hrun
    exact ⟨hcp, out, rfl, hrun.1.symm, hvalid.last, hvalid.chunkError⟩
  rw [hr] at hcalls
  obtain ⟨v, hrun, -⟩ := hcalls
  simp [h] at hrun

theorem chunkReads_halted {o rest : Bytes} {v : Verdict}
    (h : run (byteStep httpTrailerMaxSize) .start calls.flatten.flatten = (o, .halted v rest)) :
    ∃ r, chunkReads calls = .stop r ∧ r.out.flatten = o ∧ r.left.flatten = rest ∧
      r.hcp.last = decide (v = .last) ∧ r.hcp.chunkError = decide (v = .error) := by
  have hcalls := chunkReads_refines calls
  rcases hr : chunkReads calls with s | r
  · rw [hr] at hcalls
    obtain ⟨hrun, -⟩ := hcalls
    simp [h] at hrun
  rw [hr] at hcalls
  obtain ⟨v', hrun, hlast, herror⟩ := hcalls
  rw [h] at hrun
  cases hrun
  exact ⟨r, rfl, rfl, rfl, hlast, herror⟩

/-- The verdict of the calls against the language. -/
theorem chunkReads_stop {r : ChunkParsed} (h : chunkReads calls = .stop r) :
    (r.hcp.last = true ∧ r.hcp.chunkError = false ∧
      ∃ parts enc, Encodes httpTrailerMaxSize parts enc ∧ r.out.flatten = parts.flatten ∧
        calls.flatten.flatten = enc ++ r.left.flatten) ∨
    (r.hcp.last = false ∧ r.hcp.chunkError = true ∧
      ¬ Begins httpTrailerMaxSize calls.flatten.flatten ∧
      ¬ ∃ parts enc, Encodes httpTrailerMaxSize parts enc ∧ enc <+: calls.flatten.flatten) := by
  have hcalls := chunkReads_refines calls
  rw [h] at hcalls
  obtain ⟨v, hrun, hlast, herror⟩ := hcalls
  cases v with
  | last =>
    have hseen := seen_run httpTrailerMaxSize calls.flatten.flatten
    rw [hrun] at hseen
    obtain ⟨y, hy, henc⟩ := hseen
    obtain ⟨parts, henc, hout⟩ := henc rfl
    exact .inl ⟨hlast, herror, parts, y, henc, hout, hy⟩
  | error => ?_
  have hprefix : ¬ ∃ parts enc, Encodes httpTrailerMaxSize parts enc ∧
      enc <+: calls.flatten.flatten := by
    rintro ⟨parts, enc, henc, tail, htail⟩
    rw [← htail, run_append_halted (run_encodes henc)] at hrun
    simp at hrun
  refine .inr ⟨hlast, herror, fun hbegins => ?_, hprefix⟩
  rcases running_of_begins hbegins with ⟨parts, henc⟩ | ⟨o, s, hs⟩
  · exact hprefix ⟨parts, _, henc, prefix_rfl⟩
  rw [hs] at hrun
  cases hrun

/-- **The chunk parser on any stream**, cut into calls and buffers in any way.
An encoding is read to its end, with its data as the output and everything
behind it left, and the end is reported nowhere else; inside an encoding
nothing is reported; and what neither begins nor starts with an encoding is
an error. -/
theorem chunkReads_correct (calls : List (List Bytes)) :
    (∀ parts enc tail, Encodes httpTrailerMaxSize parts enc →
      calls.flatten.flatten = enc ++ tail →
      ∃ r, chunkReads calls = .stop r ∧ r.hcp.last = true ∧ r.hcp.chunkError = false ∧
        r.out.flatten = parts.flatten ∧ r.left.flatten = tail) ∧
    (∀ r, chunkReads calls = .stop r → r.hcp.last = true →
      ∃ parts enc, Encodes httpTrailerMaxSize parts enc ∧ r.out.flatten = parts.flatten ∧
        calls.flatten.flatten = enc ++ r.left.flatten) ∧
    (∀ parts enc, Encodes httpTrailerMaxSize parts enc →
      calls.flatten.flatten <+: enc → calls.flatten.flatten ≠ enc →
      ∃ hcp out, chunkReads calls = .more (hcp, out) ∧ hcp.last = false ∧
        hcp.chunkError = false ∧ out.flatten <+: parts.flatten) ∧
    ((∃ r, chunkReads calls = .stop r ∧ r.hcp.chunkError = true) ↔
      ¬ Begins httpTrailerMaxSize calls.flatten.flatten ∧
      ¬ ∃ parts enc, Encodes httpTrailerMaxSize parts enc ∧ enc <+: calls.flatten.flatten) := by
  refine ⟨?_, ?_, ?_, ?_⟩
  · intro parts enc tail henc hstream
    have hrun := run_append_halted (run_encodes henc) tail
    rw [← hstream] at hrun
    obtain ⟨r, hr, hout, hleft, hlast, herror⟩ := chunkReads_halted hrun
    exact ⟨r, hr, hlast, herror, hout, hleft⟩
  · intro r hr hlast
    rcases chunkReads_stop hr with ⟨-, -, henc⟩ | ⟨hlast', -⟩
    · exact henc
    · rw [hlast] at hlast'
      cases hlast'
  · rintro parts enc henc ⟨more, hmore⟩ hne
    have hmore' : more ≠ [] := by
      rintro rfl
      exact hne (by simpa using hmore)
    have hrun := run_encodes henc
    rw [← hmore] at hrun
    obtain ⟨o, s, hx⟩ := running_of_halted_nil hrun hmore'
    obtain ⟨hcp, out, hr, hout, hlast, herror⟩ := chunkReads_running hx
    refine ⟨hcp, out, hr, hlast, herror, ?_⟩
    rw [run_append_running hx] at hrun
    rw [hout]
    exact ⟨_, (Prod.ext_iff.mp hrun).1⟩
  · constructor
    · rintro ⟨r, hr, herror⟩
      rcases chunkReads_stop hr with ⟨-, herror', -⟩ | ⟨-, -, hnot⟩
      · rw [herror] at herror'
        cases herror'
      · exact hnot
    · rintro ⟨hbegins, hcomplete⟩
      rcases hr : chunkReads calls with s | r
      · -- a parser that still runs has read the beginning of an encoding
        have hcalls := chunkReads_refines calls
        rw [hr] at hcalls
        have hseen := seen_run httpTrailerMaxSize calls.flatten.flatten
        rw [hcalls.1] at hseen
        exact absurd (begins_of_seen hseen) hbegins
      · rcases chunkReads_stop hr with ⟨-, -, parts, enc, henc, -, heq⟩ | ⟨-, herror, -⟩
        · exact absurd ⟨parts, enc, henc, ⟨_, heq.symm⟩⟩ hcomplete
        · exact ⟨r, rfl, herror⟩

/-- A trailer line that has used up the limit without an end. -/
def longTrailer : Bytes := str "0\r\n" ++ (0x61 :: List.replicate 4095 0x61)

theorem run_longTrailer :
    run (byteStep httpTrailerMaxSize) .start longTrailer = ([], .running (.name 4096)) := by
  have hname : ∀ c ∈ replicate 4095 (0x61 : UInt8), httpTrailerTchar c := by
    intro c hc
    rw [eq_of_mem_replicate hc]
    decide
  have hfirst : run (byteStep httpTrailerMaxSize) (.line 0) [0x61]
      = ([], .running (.name 1)) := rfl
  have hlen : 1 + (replicate 4095 (0x61 : UInt8)).length = 4096 := by
    rw [length_replicate]
  have hrest := run_name hname (show _ ≤ httpTrailerMaxSize from hlen.le)
  rw [hlen] at hrest
  have hline := run_trans hfirst hrest
  exact run_trans (run_sizeLine _ sizeLine_zero) hline

/-- No encoding goes on like this, but the parser reports it only with the
next byte. -/
theorem chunkReads_longTrailer :
    (¬ ∃ parts enc, Encodes httpTrailerMaxSize parts enc ∧ longTrailer <+: enc) ∧
    ∃ hcp out, chunkReads [[longTrailer]] = .more (hcp, out) ∧
      hcp.last = false ∧ hcp.chunkError = false := by
  constructor
  · rintro ⟨parts, enc, henc, y, rfl⟩
    have hrun := run_encodes henc
    rw [run_append_running run_longTrailer] at hrun
    cases y with
    | nil => simp at hrun
    | cons ch y => ?_
    -- every byte after the limit is refused
    have hstep : byteStep httpTrailerMaxSize (.name 4096) ch = .halt .error := by
      have hover : ¬ 4096 + 1 ≤ httpTrailerMaxSize := by decide
      simp [byteStep, ByteState.count, hover]
    rw [run_cons_halt hstep] at hrun
    simp at hrun
  · have hstream : [[longTrailer]].flatten.flatten = longTrailer := by simp
    have hrun := run_longTrailer
    rw [← hstream] at hrun
    obtain ⟨hcp, out, hr, -, hlast, herror⟩ := chunkReads_running hrun
    exact ⟨hcp, out, hr, hlast, herror⟩

end FreeUnit
