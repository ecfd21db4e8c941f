/-
The parser of chunked bodies, `nxt_http_chunk_parse.c`.

The data of a chunk is not looked at byte by byte: `nxt_http_chunk_buffer`
cuts a whole slice out of the buffer.  The model keeps this two-level shape
(`chunkLoop` over the bytes of a buffer, `chunkBuffer` for a slice), and next
to it stands the machine `byteStep`, which reads every byte alike.

* `httpChunkParse` — one call, over a chain of buffers.

A failed allocation (`hcp->error`) is outside the model, and so is the
retaining of the input buffers.
-/
import FreeUnit.Bytes
import FreeUnit.Streaming
import FreeUnit.Transducer

namespace FreeUnit

open Transducer Streaming List

inductive ChunkState where
  | start | chunkSize | chunkExt | chunkSizeLinefeed | chunkEndNewline | chunkEndLinefeed
  | chunk | trailerName | trailerValue | trailerLinefeed
  deriving DecidableEq, Repr

/-- `nxt_http_chunk_parse_t`.  After the terminal chunk `chunkSize` counts the
bytes of the trailer section. -/
structure HttpChunkParse where
  chunkSize : ℕ := 0
  state : ChunkState := .start
  last : Bool := false
  trailer : Bool := false
  chunkError : Bool := false
  deriving DecidableEq, Repr

def httpTrailerMaxSize : ℕ := 4096

/-- `nxt_size_is_sufficient`: four more bits fit into the 64 of `chunk_size`. -/
def sizeIsSufficient (cs : ℕ) : Bool := cs < 2 ^ 60

def httpTrailerTchar (ch : UInt8) : Bool :=
  (0x41 ≤ ch && ch ≤ 0x5A) || (0x61 ≤ ch && ch ≤ 0x7A) || isDigit ch
    || ch ∈ str "!#$%&'*+-.^_\x60|~"

inductive ChunkJump where
  | «continue» (state : ChunkState) (hcp : HttpChunkParse)
  | done (hcp : HttpChunkParse)
  | chunkError (hcp : HttpChunkParse)
  deriving DecidableEq, Repr

/-- `++hcp->chunk_size > NXT_HTTP_TRAILER_MAX_SIZE` and what depends on it. -/
def countTrailer (state : ChunkState) (hcp : HttpChunkParse) : ChunkJump :=
  let hcp := { hcp with chunkSize := hcp.chunkSize + 1 }
  if hcp.chunkSize > httpTrailerMaxSize then .chunkError hcp else .continue state hcp

/-- The switch of `nxt_http_chunk_parse`. -/
def chunkByte (state : ChunkState) (hcp : HttpChunkParse) (ch : UInt8) : ChunkJump :=
  match state with
  | .start =>
    match hexDigit ch with
    | some c => .continue .chunkSize { hcp with chunkSize := c.toNat }
    | none => .chunkError hcp
  | .chunkSize =>
    match hexDigit ch with
    | some c =>
      if sizeIsSufficient hcp.chunkSize then
        .continue .chunkSize
          { hcp with chunkSize := (hcp.chunkSize * 16 + c.toNat) % 2 ^ 64 }
      else .chunkError hcp
    | none =>
      if ch = 0x0D /- \r -/ then .continue .chunkSizeLinefeed hcp
      else if ch = 0x3B /- ; -/ then .continue .chunkExt hcp
      else .chunkError hcp
  | .chunkExt => .continue (if ch = 0x0D then .chunkSizeLinefeed else .chunkExt) hcp
  | .chunkSizeLinefeed =>
    if ch = 0x0A /- \n -/ then
      if hcp.chunkSize ≠ 0 then .continue .chunk hcp
      else .continue .chunkEndNewline { hcp with trailer := true }
    else .chunkError hcp
  | .chunkEndNewline =>
    if ch = 0x0D then .continue .chunkEndLinefeed hcp
    else if hcp.trailer then
      if httpTrailerTchar ch then countTrailer .trailerName hcp else .chunkError hcp
    else .chunkError hcp
  | .chunkEndLinefeed =>
    if ch = 0x0A then
      if hcp.trailer then .done { hcp with last := true } else .continue .start hcp
    else .chunkError hcp
  | .chunk => .continue .chunk hcp
  | .trailerName =>
    if ch = 0x3A /- : -/ then countTrailer .trailerValue hcp
    else if httpTrailerTchar ch then countTrailer .trailerName hcp
    else .chunkError hcp
  | .trailerValue =>
    if ch = 0x0D then countTrailer .trailerLinefeed hcp
    else if (ch < 0x20 ∨ ch = 0x7F) ∧ ch ≠ 0x09 /- \t -/ then .chunkError hcp
    else countTrailer .trailerValue hcp
  | .trailerLinefeed =>
    if ch = 0x0A then countTrailer .chunkEndNewline hcp else .chunkError hcp

/-- The codes of `nxt_http_chunk_buffer`; `NXT_HTTP_CHUNK_END` leaves bytes in
the buffer. -/
inductive ChunkSlice where
  | middle
  | endOnBorder
  | «end» (b : Bytes)

/-- `nxt_http_chunk_buffer`: the slice of chunk data at the start of a buffer. -/
def chunkBuffer (hcp : HttpChunkParse) (b : Bytes) : HttpChunkParse × Bytes × ChunkSlice :=
  if hcp.chunkSize < b.length then
    (hcp, b.take hcp.chunkSize, .end (b.drop hcp.chunkSize))
  else
    let hcp := { hcp with chunkSize := hcp.chunkSize - b.length }
    (hcp, b, if hcp.chunkSize = 0 then .endOnBorder else .middle)

/-- How the loop over one buffer ends; `done` leaves bytes in the buffer. -/
inductive BufferEnd where
  | next (state : ChunkState) (hcp : HttpChunkParse)
  | done (hcp : HttpChunkParse) (b : Bytes)

/-- The loop over the bytes of one buffer, with the slices it puts out.  An
iteration takes at least one byte, so `b.length + 1` is enough fuel. -/
def chunkLoop : ℕ → ChunkState → HttpChunkParse → Bytes → List Bytes × BufferEnd
  | 0, state, hcp, _ => ([], .next state hcp)
  | _ + 1, state, hcp, [] => ([], .next state hcp)
  | fuel + 1, state, hcp, ch :: b =>
    if state = .chunk then
      match chunkBuffer hcp (ch :: b) with
      | (hcp, slice, .middle) => ([slice], .next .chunk hcp)
      | (hcp, slice, .endOnBorder) => ([slice], .next .chunkEndNewline hcp)
      | (hcp, slice, .end b) =>
        let r := chunkLoop fuel .chunkEndNewline hcp b
        (slice :: r.1, r.2)
    else
      match chunkByte state hcp ch with
      | .continue state hcp => chunkLoop fuel state hcp b
      | .done hcp => ([], .done hcp b)
      | .chunkError hcp => ([], .done { hcp with chunkError := true } b)

/-- What a call returns: the slices, and the buffers from the one on in which
it stopped, without the bytes it took. -/
structure ChunkParsed where
  hcp : HttpChunkParse
  out : List Bytes
  left : List Bytes
  deriving DecidableEq, Repr

/-- The loop over the chain of buffers.  `hcp->state` is written only when the
chain was read to its end. -/
def chunkChain : ChunkState → HttpChunkParse → List Bytes → ChunkParsed
  | state, hcp, [] => ⟨{ hcp with state := state }, [], []⟩
  | state, hcp, b :: next =>
    match chunkLoop (b.length + 1) state hcp b with
    | (out, .next state hcp) =>
      let r := chunkChain state hcp next
      ⟨r.hcp, out ++ r.out, r.left⟩
    | (out, .done hcp b) => ⟨hcp, out, b :: next⟩

def httpChunkParse (hcp : HttpChunkParse) (chain : List Bytes) : ChunkParsed :=
  chunkChain hcp.state hcp chain

/-! ### The protocol byte by byte -/

/-- The states of the protocol, each with the number it needs: the size read
so far, the bytes of the chunk that are left, or the bytes of the trailer
section so far. -/
inductive ByteState where
  | start
  | size (n : ℕ)
  | ext (n : ℕ)
  | sizeLf (n : ℕ)
  | data (n : ℕ)
  | dataCr
  | dataLf
  | line (k : ℕ)
  | name (k : ℕ)
  | value (k : ℕ)
  | lineLf (k : ℕ)
  | endLf (k : ℕ)
  deriving DecidableEq, Repr

inductive Verdict where
  | last
  | error
  deriving DecidableEq, Repr

abbrev ByteMove := Move ByteState UInt8 Verdict

/-- One more byte of the trailer section, if the limit allows. -/
def ByteState.count (limit : ℕ) (next : ℕ → ByteState) (k : ℕ) : ByteMove :=
  if k + 1 ≤ limit then .go (next (k + 1)) [] else .halt .error

/-- **The protocol of chunked bodies**, with a limit for the trailer section. -/
def byteStep (limit : ℕ) : ByteState → UInt8 → ByteMove
  | .start, ch =>
    match hexDigit ch with
    | some c => .go (.size c.toNat) []
    | none => .halt .error
  | .size n, ch =>
    match hexDigit ch with
    | some c =>
      if n * 16 + c.toNat < 2 ^ 64 then .go (.size (n * 16 + c.toNat)) [] else .halt .error
    | none =>
      if ch = 0x0D then .go (.sizeLf n) []
      else if ch = 0x3B then .go (.ext n) []
      else .halt .error
  | .ext n, ch => .go (if ch = 0x0D then .sizeLf n else .ext n) []
  | .sizeLf n, ch =>
    if ch = 0x0A then .go (if n = 0 then .line 0 else .data n) [] else .halt .error
  | .data n, ch => .go (if n ≤ 1 then .dataCr else .data (n - 1)) [ch]
  | .dataCr, ch => if ch = 0x0D then .go .dataLf [] else .halt .error
  | .dataLf, ch => if ch = 0x0A then .go .start [] else .halt .error
  | .line k, ch =>
    if ch = 0x0D then .go (.endLf k) []
    else if httpTrailerTchar ch then ByteState.count limit .name k
    else .halt .error
  | .name k, ch =>
    if ch = 0x3A then ByteState.count limit .value k
    else if httpTrailerTchar ch then ByteState.count limit .name k
    else .halt .error
  | .value k, ch =>
    if ch = 0x0D then ByteState.count limit .lineLf k
    else if (ch < 0x20 ∨ ch = 0x7F) ∧ ch ≠ 0x09 then .halt .error
    else ByteState.count limit .value k
  | .lineLf k, ch => if ch = 0x0A then ByteState.count limit .line k else .halt .error
  | .endLf _, ch => if ch = 0x0A then .halt .last else .halt .error

/-- The state of the protocol that the parser's variables stand for. -/
def ByteState.of (state : ChunkState) (hcp : HttpChunkParse) : ByteState :=
  match state with
  | .start => .start
  | .chunkSize => .size hcp.chunkSize
  | .chunkExt => .ext hcp.chunkSize
  | .chunkSizeLinefeed => .sizeLf hcp.chunkSize
  | .chunkEndNewline => if hcp.trailer then .line hcp.chunkSize else .dataCr
  | .chunkEndLinefeed => if hcp.trailer then .endLf hcp.chunkSize else .dataLf
  | .chunk => .data hcp.chunkSize
  | .trailerName => .name hcp.chunkSize
  | .trailerValue => .value hcp.chunkSize
  | .trailerLinefeed => .lineLf hcp.chunkSize

/-- What holds of the variables while the parser runs: the trailer flag fits
the state, the chunk that is being copied is not exhausted, and nothing has
been reported. -/
structure ChunkValid (state : ChunkState) (hcp : HttpChunkParse) : Prop where
  before : state ∈ [ChunkState.start, .chunkSize, .chunkExt, .chunkSizeLinefeed, .chunk] →
    hcp.trailer = false
  after : state ∈ [ChunkState.trailerName, .trailerValue, .trailerLinefeed] →
    hcp.trailer = true
  chunk : state = .chunk → 0 < hcp.chunkSize
  last : hcp.last = false
  chunkError : hcp.chunkError = false

/-- The end of the loop over a buffer is the end of the machine's run. -/
def EndRefines : Outcome UInt8 ByteState Verdict → BufferEnd → Prop
  | .running s, .next state hcp => ByteState.of state hcp = s ∧ ChunkValid state hcp
  | .halted .last rest, .done hcp b => hcp.last = true ∧ hcp.chunkError = false ∧ b = rest
  | .halted .error rest, .done hcp b => hcp.last = false ∧ hcp.chunkError = true ∧ b = rest
  | _, _ => False

/-- The byte step of the parser is the step of the machine. -/
def JumpRefines : ByteMove → ChunkJump → Prop
  | .go s out, .continue state hcp => ByteState.of state hcp = s ∧ ChunkValid state hcp ∧ out = []
  | .halt .last, .done hcp => hcp.last = true ∧ hcp.chunkError = false
  | .halt .error, .chunkError hcp => hcp.last = false
  | _, _ => False

/-! ### The parser refines the protocol -/

theorem hexDigit_toNat_lt {ch c : UInt8} (h : hexDigit ch = some c) : c.toNat < 16 := by
  simpa [UInt8.lt_iff_toNat_lt] using hexDigit_lt h

/-- The test before the shift is the test that the new size fits. -/
theorem sizeIsSufficient_iff {ch c : UInt8} (h : hexDigit ch = some c) (n : ℕ) :
    sizeIsSufficient n = true ↔ n * 16 + c.toNat < 2 ^ 64 := by
  have hc := hexDigit_toNat_lt h
  rw [sizeIsSufficient, decide_eq_true_iff]
  omega

variable {state : ChunkState} {hcp : HttpChunkParse}

theorem countTrailer_refines {next : ℕ → ByteState}
    (hof : ByteState.of state { hcp with chunkSize := hcp.chunkSize + 1 } = next (hcp.chunkSize + 1))
    (hvalid : ChunkValid state { hcp with chunkSize := hcp.chunkSize + 1 }) :
    JumpRefines (ByteState.count httpTrailerMaxSize next hcp.chunkSize)
      (countTrailer state hcp) := by
  rw [ByteState.count, countTrailer]
  by_cases h : hcp.chunkSize + 1 ≤ httpTrailerMaxSize
  · rw [if_pos h]
    simp only [gt_iff_lt, Nat.not_lt.mpr h, if_false]
    exact ⟨hof, hvalid, rfl⟩
  rw [if_neg h]
  simp only [gt_iff_lt, Nat.lt_of_not_le h, if_true]
  exact hvalid.last

/-- Outside the chunk data one byte of the parser is one step of the machine. -/
theorem chunkByte_refines (hvalid : ChunkValid state hcp) (hstate : state ≠ .chunk) (ch : UInt8) :
    JumpRefines (byteStep httpTrailerMaxSize (ByteState.of state hcp) ch)
      (chunkByte state hcp ch) := by
  obtain ⟨hbefore, hafter, -, hlast, herror⟩ := hvalid
  cases state with
  | start =>
    have htrailer := hbefore (by decide)
    simp only [ByteState.of, byteStep, chunkByte]
    cases hexDigit ch with
    | none => exact hlast
    | some c => exact ⟨rfl, ⟨fun _ => htrailer, by simp, by simp, hlast, herror⟩, rfl⟩
  | chunkSize =>
    have htrailer := hbefore (by decide)
    simp only [ByteState.of, byteStep, chunkByte]
    cases hd : hexDigit ch with
    | some c =>
      simp only [sizeIsSufficient_iff hd]
      by_cases hfit : hcp.chunkSize * 16 + c.toNat < 2 ^ 64
      · simp only [if_pos hfit, Nat.mod_eq_of_lt hfit]
        exact ⟨rfl, ⟨fun _ => htrailer, by simp, by simp, hlast, herror⟩, rfl⟩
      simp only [if_neg hfit]
      exact hlast
    | none => ?_
    dsimp only
    split_ifs <;>
      first | exact hlast | exact ⟨rfl, ⟨fun _ => htrailer, by simp, by simp, hlast, herror⟩, rfl⟩
  | chunkExt =>
    have htrailer := hbefore (by decide)
    simp only [ByteState.of, byteStep, chunkByte]
    split_ifs <;> exact ⟨rfl, ⟨fun _ => htrailer, by simp, by simp, hlast, herror⟩, rfl⟩
  | chunkSizeLinefeed =>
    have htrailer := hbefore (by decide)
    simp only [ByteState.of, byteStep, chunkByte]
    by_cases hlf : ch = 0x0A
    · by_cases h0 : hcp.chunkSize = 0
      · simp only [hlf, h0, ne_eq, not_true_eq_false, if_true, if_false]
        exact ⟨by simp [ByteState.of], ⟨by simp, by simp, by simp, hlast, herror⟩, rfl⟩
      simp only [hlf, h0, ne_eq, not_false_eq_true, if_true, if_false]
      exact ⟨rfl, ⟨fun _ => htrailer, by simp, fun _ => Nat.pos_of_ne_zero h0, hlast, herror⟩, rfl⟩
    simp only [if_neg hlf]
    exact hlast
  | chunkEndNewline =>
    cases ht : hcp.trailer with
    | false =>
      simp only [ByteState.of, byteStep, chunkByte, ht, if_false, Bool.false_eq_true]
      split_ifs
      · exact ⟨by simp [ByteState.of, ht], ⟨by simp, by simp, by simp, hlast, herror⟩, rfl⟩
      · exact hlast
    | true => ?_
    simp only [ByteState.of, byteStep, chunkByte, ht, if_true]
    split_ifs
    · exact ⟨by simp [ByteState.of, ht], ⟨by simp, by simp, by simp, hlast, herror⟩, rfl⟩
    · exact countTrailer_refines rfl ⟨by simp, fun _ => ht, by simp, hlast, herror⟩
    · exact hlast
  | chunkEndLinefeed =>
    cases ht : hcp.trailer with
    | false =>
      simp only [ByteState.of, byteStep, chunkByte, ht, if_false, Bool.false_eq_true]
      split_ifs
      · exact ⟨rfl, ⟨fun _ => ht, by simp, by simp, hlast, herror⟩, rfl⟩
      · exact hlast
    | true => ?_
    simp only [ByteState.of, byteStep, chunkByte, ht, if_true]
    split_ifs
    · exact ⟨rfl, herror⟩
    · exact hlast
  | chunk => exact absurd rfl hstate
  | trailerName | trailerValue =>
    have htrailer := hafter (by decide)
    simp only [ByteState.of, byteStep, chunkByte]
    split_ifs <;> first
      | exact hlast
      | exact countTrailer_refines rfl ⟨by simp, fun _ => htrailer, by simp, hlast, herror⟩
  | trailerLinefeed => ?_
  have htrailer := hafter (by decide)
  simp only [ByteState.of, byteStep, chunkByte]
  split_ifs
  · refine countTrailer_refines ?_ ⟨by simp, by simp, by simp, hlast, herror⟩
    rw [ByteState.of]
    exact if_pos htrailer
  · exact hlast

theorem run_data_short (limit : ℕ) : ∀ {n : ℕ} {b : Bytes}, b.length < n →
    run (byteStep limit) (.data n) b = (b, .running (.data (n - b.length)))
  | n, [], _ => rfl
  | n, ch :: b, h => by
    have hn : ¬ n ≤ 1 := by simp only [length_cons] at h; omega
    have hb : b.length < n - 1 := by simp only [length_cons] at h; omega
    have hstep : byteStep limit (.data n) ch = .go (.data (n - 1)) [ch] := by
      simp [byteStep, hn]
    rw [run_cons_go hstep, run_data_short limit hb]
    simp only [singleton_append, length_cons, Prod.mk.injEq, Outcome.running.injEq,
      ByteState.data.injEq, true_and]
    omega

theorem run_data (limit : ℕ) : ∀ {n : ℕ} {b : Bytes}, b.length = n → 0 < n →
    run (byteStep limit) (.data n) b = (b, .running .dataCr)
  | _, [], h, hn => by simp at h; omega
  | _, [ch], rfl, _ => rfl
  | _, ch :: ch' :: b, rfl, _ => by
    have hstep : byteStep limit (.data (ch :: ch' :: b).length) ch
        = .go (.data (ch' :: b).length) [ch] := by
      simp [byteStep]
    rw [run_cons_go hstep, run_data limit (b := ch' :: b) rfl (Nat.succ_pos _)]
    rfl

/-- **One buffer**: the loop with its slices does what the machine does byte
by byte. -/
theorem chunkLoop_refines (fuel : ℕ) {b : Bytes} (hfuel : b.length < fuel)
    (hvalid : ChunkValid state hcp) : (chunkLoop fuel state hcp b).1.flatten
        = (run (byteStep httpTrailerMaxSize) (ByteState.of state hcp) b).1 ∧
      EndRefines (run (byteStep httpTrailerMaxSize) (ByteState.of state hcp) b).2
        (chunkLoop fuel state hcp b).2 := by
  induction fuel generalizing state hcp b with
  | zero => omega
  | succ fuel ih => ?_
  cases b with
  | nil => exact ⟨rfl, rfl, hvalid⟩
  | cons ch b => ?_
  by_cases hstate : state = .chunk
  · subst hstate
    have hpos := hvalid.chunk rfl
    have htrailer := hvalid.before (by decide)
    rw [chunkLoop, if_pos rfl, chunkBuffer]
    by_cases hlt : hcp.chunkSize < (ch :: b).length
    · -- the slice ends in this buffer, and the loop goes on behind it
      have hlen : ((ch :: b).take hcp.chunkSize).length = hcp.chunkSize := length_take_of_le hlt.le
      have htake : run (byteStep httpTrailerMaxSize) (.data hcp.chunkSize)
          ((ch :: b).take hcp.chunkSize)
          = ((ch :: b).take hcp.chunkSize, .running .dataCr) := run_data _ hlen hpos
      have hrun := run_append_running htake ((ch :: b).drop hcp.chunkSize)
      rw [take_append_drop] at hrun
      have hvalid' : ChunkValid .chunkEndNewline hcp :=
        ⟨by simp, by simp, by simp, hvalid.last, hvalid.chunkError⟩
      have hdrop : ((ch :: b).drop hcp.chunkSize).length < fuel := by
        rw [length_drop]
        omega
      have hrest := ih hdrop hvalid'
      have hof : ByteState.of .chunkEndNewline hcp = .dataCr := by
        simp [ByteState.of, htrailer]
      rw [hof] at hrest
      rw [if_pos hlt, show ByteState.of .chunk hcp = .data hcp.chunkSize from rfl, hrun]
      exact ⟨by rw [flatten_cons, hrest.1], hrest.2⟩
    · rw [if_neg hlt]
      by_cases hz : hcp.chunkSize - (ch :: b).length = 0
      · -- the chunk ends with the buffer
        have heq : hcp.chunkSize = (ch :: b).length := by omega
        have hrun : run (byteStep httpTrailerMaxSize) (ByteState.of .chunk hcp) (ch :: b)
            = (ch :: b, .running .dataCr) := by
          exact run_data _ heq.symm hpos
        rw [hrun]
        simp only [hz, if_true]
        exact ⟨by simp, by simp [ByteState.of, htrailer], by simp, by simp, by simp,
          hvalid.last, hvalid.chunkError⟩
      have hrun := run_data_short httpTrailerMaxSize (n := hcp.chunkSize) (b := ch :: b)
        (by omega)
      rw [show ByteState.of .chunk hcp = .data hcp.chunkSize from rfl, hrun]
      simp only [hz, if_false]
      exact ⟨by simp, rfl, fun _ => htrailer, by simp,
        fun _ => Nat.pos_of_ne_zero hz, hvalid.last, hvalid.chunkError⟩
  · have hjump := chunkByte_refines hvalid hstate ch
    rw [chunkLoop, if_neg hstate]
    cases hs : byteStep httpTrailerMaxSize (ByteState.of state hcp) ch with
    | go s out =>
      rw [hs] at hjump
      cases hc : chunkByte state hcp ch with
      | «continue» state' hcp' =>
        rw [hc] at hjump
        obtain ⟨rfl, hvalid', rfl⟩ := hjump
        rw [run_cons_go hs]
        exact ih (by simpa using hfuel) hvalid'
      | done | chunkError => rw [hc] at hjump; exact hjump.elim
    | halt r => ?_
    rw [hs] at hjump
    rw [run_cons_halt hs]
    cases r with
    | last =>
      cases hc : chunkByte state hcp ch with
      | «continue» state' hcp' => rw [hc] at hjump; exact hjump.elim
      | done hcp' => rw [hc] at hjump; exact ⟨rfl, hjump.1, hjump.2, rfl⟩
      | chunkError hcp' => rw [hc] at hjump; exact hjump.elim
    | error => ?_
    cases hc : chunkByte state hcp ch with
    | «continue» | done => rw [hc] at hjump; exact hjump.elim
    | chunkError hcp' => rw [hc] at hjump; exact ⟨rfl, hjump, rfl, rfl⟩

/-- The end of a call is the end of the machine's run over the chain. -/
def ParsedRefines : Outcome UInt8 ByteState Verdict → HttpChunkParse → List Bytes → Prop
  | .running s, hcp, left => ByteState.of hcp.state hcp = s ∧ ChunkValid hcp.state hcp ∧ left = []
  | .halted .last rest, hcp, left =>
    hcp.last = true ∧ hcp.chunkError = false ∧ left.flatten = rest
  | .halted .error rest, hcp, left =>
    hcp.last = false ∧ hcp.chunkError = true ∧ left.flatten = rest

theorem chunkChain_refines (chain : List Bytes) (hvalid : ChunkValid state hcp) :
    (chunkChain state hcp chain).out.flatten
        = (run (byteStep httpTrailerMaxSize) (ByteState.of state hcp) chain.flatten).1 ∧
      ParsedRefines (run (byteStep httpTrailerMaxSize) (ByteState.of state hcp) chain.flatten).2
        (chunkChain state hcp chain).hcp (chunkChain state hcp chain).left := by
  induction chain generalizing state hcp with
  | nil =>
    obtain ⟨hbefore, hafter, hchunk, hlast, herror⟩ := hvalid
    exact ⟨rfl, rfl, ⟨hbefore, hafter, hchunk, hlast, herror⟩, rfl⟩
  | cons b next ih => ?_
  obtain ⟨hout, hend⟩ := chunkLoop_refines (b.length + 1) (Nat.lt_succ_self _) hvalid
  rw [chunkChain, flatten_cons]
  rcases hm : run (byteStep httpTrailerMaxSize) (ByteState.of state hcp) b with
    ⟨o, s | ⟨v, rest⟩⟩
  · rcases hl : chunkLoop (b.length + 1) state hcp b with ⟨out, state' | ⟨hcp', b'⟩⟩
    · rw [hm, hl] at hend hout
      obtain ⟨rfl, hvalid'⟩ := hend
      obtain ⟨hout', hend'⟩ := ih hvalid'
      rw [run_append_running hm]
      refine ⟨?_, hend'⟩
      simp only at hout
      simp only [flatten_append, hout, hout']
    rw [hm, hl] at hend
    exact hend.elim
  rw [run_append_halted hm]
  rcases hl : chunkLoop (b.length + 1) state hcp b with ⟨out, state' | ⟨hcp', b'⟩⟩
  · rw [hm, hl] at hend
    cases v <;> exact hend.elim
  rw [hm, hl] at hend hout
  cases v with
  | last | error =>
    obtain ⟨hlast, herror, rfl⟩ := hend
    exact ⟨hout, hlast, herror, flatten_cons⟩

/-! ### A sequence of calls -/

/-- What the callers do: they call the parser with the next chain of buffers
until it reports the end or an error, and collect the slices. -/
def chunkRead (s : HttpChunkParse × List Bytes) (chain : List Bytes) :
    Step (HttpChunkParse × List Bytes) ChunkParsed :=
  let r := httpChunkParse s.1 chain
  if r.hcp.last ∨ r.hcp.chunkError then .stop { r with out := s.2 ++ r.out }
  else .more (r.hcp, s.2 ++ r.out)

/-- The calls over all chains of a stream; the chains after the end stay
untouched. -/
def chunkReads (calls : List (List Bytes)) : Step (HttpChunkParse × List Bytes) ChunkParsed :=
  feed chunkRead (fun r more => { r with left := r.left ++ more }) ({}, []) calls

/-- **The calls read the stream as the machine does**: in the same state and
with the same output while it runs, and with the same verdict and the same
bytes left when it halts, however the stream is cut into buffers and calls. -/
theorem chunkReads_refines (calls : List (List Bytes)) : Holds
      (fun s seen => run (byteStep httpTrailerMaxSize) .start seen.flatten.flatten
          = (s.2.flatten, .running (ByteState.of s.1.state s.1)) ∧ ChunkValid s.1.state s.1)
      (fun r seen => ∃ v, run (byteStep httpTrailerMaxSize) .start seen.flatten.flatten
          = (r.out.flatten, .halted v r.left.flatten) ∧
        r.hcp.last = decide (v = .last) ∧ r.hcp.chunkError = decide (v = .error))
      calls (chunkReads calls) := by
  refine feed_rule _ _ _ _ ?_ ?_ calls ⟨rfl, by simp, by simp, by simp, rfl, rfl⟩
  · rintro ⟨hcp, out⟩ seen chain ⟨hseen, hvalid⟩
    obtain ⟨hout, hend⟩ := chunkChain_refines chain hvalid
    have hrun := run_append_running hseen chain.flatten
    have hflat : (seen ++ [chain]).flatten.flatten = seen.flatten.flatten ++ chain.flatten := by
      simp
    rw [← hflat, ← hout, ← flatten_append] at hrun
    rw [chunkRead, httpChunkParse]
    rcases hm : (run (byteStep httpTrailerMaxSize) (ByteState.of hcp.state hcp) chain.flatten).2
      with s | ⟨_ | _, rest⟩
    · rw [hm] at hend hrun
      obtain ⟨rfl, hvalid', -⟩ := hend
      rw [if_neg (by simp [hvalid'.last, hvalid'.chunkError])]
      exact ⟨hrun, hvalid'⟩
    · rw [hm] at hend hrun
      obtain ⟨hlast, herror, rfl⟩ := hend
      rw [if_pos (.inl hlast)]
      exact ⟨.last, hrun, by simpa using hlast, by simpa using herror⟩
    rw [hm] at hend hrun
    obtain ⟨hlast, herror, rfl⟩ := hend
    rw [if_pos (.inr herror)]
    exact ⟨.error, hrun, by simpa using hlast, by simpa using herror⟩
  · rintro r seen more ⟨v, hrun, hlast, herror⟩
    refine ⟨v, ?_, hlast, herror⟩
    have h := run_append_halted hrun more.flatten.flatten
    simpa using h

end FreeUnit
