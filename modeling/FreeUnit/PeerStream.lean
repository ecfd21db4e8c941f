/-
The body of a peer's response: `nxt_h1p_peer_body_process` for every read, and
`nxt_h1p_peer_closed` when the peer closes the connection.

* `peerRun_bodyFramed_iff` — what is handed to the client, and when the response is
  marked as truncated, for every cut of the stream into reads;
* `relay_chunked` — what the client reads of a chunked body.
-/
import FreeUnit.PeerResponse
import FreeUnit.ResponseBody

namespace FreeUnit

open Transducer Streaming List

/-- What the reading of a body uses of `nxt_h1proto_t`, `nxt_http_peer_t` and
the request, with the bytes that were handed to the response. -/
structure PeerConn where
  chunked : Bool
  remainder : ℕ
  chunkedParse : HttpChunkParse := {}
  out : Bytes := []
  /-- The last buffer of the response was handed over. -/
  last : Bool := false
  /-- `peer->closed`: nothing more is read. -/
  closed : Bool := false
  /-- The error handler was called. -/
  failed : Bool := false
  truncated : Bool := false
  inconsistent : Bool := false
  deriving DecidableEq, Repr

/-- The loop that cuts a chain of buffers off after `left` bytes. -/
def trimChain : ℕ → List Bytes → List Bytes
  | _, [] => []
  | left, b :: chain =>
    if b.length ≤ left then b :: trimChain (left - b.length) chain else [b.take left]

def peerBodyProcess (p : PeerConn) (chain : List Bytes) : PeerConn :=
  if p.chunked then
    let r := httpChunkParse p.chunkedParse chain
    if r.hcp.chunkError then { p with chunkedParse := r.hcp, failed := true }
    else
      let p := { p with chunkedParse := r.hcp, out := p.out ++ r.out.flatten }
      if r.hcp.last then { p with last := true, closed := true } else p
  else if p.remainder > 0 then
    let length := (chain.map List.length).sum
    if length > p.remainder then
      { p with
        out := p.out ++ (trimChain p.remainder chain).flatten
        remainder := 0
        last := true
        closed := true
        inconsistent := true }
    else
      let p := { p with out := p.out ++ chain.flatten, remainder := p.remainder - length }
      if p.remainder = 0 then { p with last := true, closed := true } else p
  else { p with out := p.out ++ chain.flatten }

/-- `nxt_h1p_peer_closed`, for a response whose header was received. -/
def peerClosed (p : PeerConn) : PeerConn :=
  let p := { p with last := true, closed := true }
  if p.remainder ≠ 0 ∨ (p.chunked ∧ ¬ p.chunkedParse.last) then
    { p with truncated := true, inconsistent := true }
  else p

/-- The proxy reads on as long as the peer is not closed and no error came. -/
def PeerConn.reads (p : PeerConn) : Bool := !p.closed && !p.failed

def peerRead (p : PeerConn) (chain : List Bytes) : PeerConn :=
  if p.reads then peerBodyProcess p chain else p

/-- The reads of a body and, if the peer closes the connection, its end. -/
def peerRun (body : PeerBody) (reads : List (List Bytes)) (eof : Bool) : PeerConn :=
  let p := reads.foldl peerRead
    { chunked := body.chunked, remainder := body.remainder, closed := body.closed }
  if eof && p.reads then peerClosed p else p

/-! ### A body with a Content-Length -/

theorem trimChain_flatten : ∀ (left : ℕ) (chain : List Bytes),
    (trimChain left chain).flatten = chain.flatten.take left := by
  intro left chain
  induction chain generalizing left with
  | nil => simp [trimChain]
  | cons b chain ih => ?_
  rw [trimChain, flatten_cons, take_append]
  by_cases hb : b.length ≤ left
  · rw [if_pos hb, flatten_cons, ih, take_of_length_le hb]
  rw [if_neg hb, Nat.sub_eq_zero_of_le (by omega), take_zero, append_nil]
  simp

/-- The state after the bytes `s` of a body of `n` bytes. -/
structure LengthRead (n : ℕ) (s : Bytes) (p : PeerConn) : Prop where
  chunked : p.chunked = false
  failed : p.failed = false
  truncated : p.truncated = false
  out : p.out = s.take n
  remainder : p.remainder = n - s.length
  closed : p.closed = decide (n ≤ s.length)

variable {n : ℕ} {s : Bytes} {p : PeerConn}

theorem LengthRead.step (h : LengthRead n s p) (chain : List Bytes) :
    LengthRead n (s ++ chain.flatten) (peerRead p chain) := by
  obtain ⟨hchunked, hfailed, htruncated, hout, hrem, hclosed⟩ := h
  by_cases hdone : n ≤ s.length
  · -- everything was delivered before
    have hreads : p.reads = false := by simp [PeerConn.reads, hclosed, hdone]
    rw [peerRead, if_neg (by simp [hreads])]
    refine ⟨hchunked, hfailed, htruncated, ?_, ?_, ?_⟩
    · rw [hout, take_append_of_le_length hdone]
    · rw [hrem, length_append]
      omega
    · rw [hclosed, length_append]
      simp only [decide_eq_decide]
      omega
  have hreads : p.reads = true := by simp [PeerConn.reads, hclosed, hdone, hfailed]
  have htake : (s ++ chain.flatten).take n = s ++ chain.flatten.take (n - s.length) := by
    rw [take_append, take_of_length_le (by omega)]
  have hout' : p.out = s := by rw [hout, take_of_length_le (by omega)]
  rw [peerRead, if_pos hreads, peerBodyProcess, if_neg (by simp [hchunked]), if_pos (by omega),
    ← length_flatten]
  dsimp only
  by_cases hmore : chain.flatten.length > p.remainder
  · rw [if_pos hmore]
    refine ⟨hchunked, hfailed, htruncated, ?_, ?_, ?_⟩
    · rw [htake, hout', trimChain_flatten, hrem]
    · rw [length_append]
      dsimp only
      omega
    · rw [length_append]
      simp only [true_eq_decide_iff]
      omega
  rw [if_neg hmore]
  have hall : (s ++ chain.flatten).take n = s ++ chain.flatten := by
    rw [htake, take_of_length_le (by omega)]
  by_cases hend : p.remainder - chain.flatten.length = 0
  · rw [if_pos hend]
    refine ⟨hchunked, hfailed, htruncated, ?_, ?_, ?_⟩
    · rw [hall, hout']
    · rw [length_append]
      dsimp only
      omega
    · rw [length_append]
      simp only [true_eq_decide_iff]
      omega
  rw [if_neg hend]
  refine ⟨hchunked, hfailed, htruncated, ?_, ?_, ?_⟩
  · rw [hall, hout']
  · rw [length_append]
    dsimp only
    omega
  · rw [length_append, hclosed]
    simp only [decide_eq_decide]
    omega

theorem foldl_peerRead {Inv : Bytes → PeerConn → Prop}
    (hstep : ∀ {s : Bytes} {p : PeerConn}, Inv s p → ∀ chain : List Bytes,
      Inv (s ++ chain.flatten) (peerRead p chain)) (reads : List (List Bytes)) {s : Bytes}
    {p : PeerConn} (h : Inv s p) : Inv (s ++ reads.flatten.flatten) (reads.foldl peerRead p) := by
  induction reads generalizing s p with
  | nil =>
    simpa using h
  | cons chain reads ih => ?_
  rw [flatten_cons, flatten_append, ← append_assoc, foldl_cons]
  exact ih (hstep h chain)

/-- A body with a Content-Length that is not zero. -/
theorem peerRun_length (hn : n ≠ 0) (reads : List (List Bytes)) (eof : Bool) :
    (peerRun { remainder := n } reads eof).out = reads.flatten.flatten.take n ∧
      ((peerRun { remainder := n } reads eof).truncated = true ↔
        eof = true ∧ reads.flatten.flatten.length < n) := by
  have hread : LengthRead n reads.flatten.flatten
      (reads.foldl peerRead { chunked := false, remainder := n, closed := false }) :=
    foldl_peerRead LengthRead.step reads (s := []) ⟨rfl, rfl, rfl, by simp, rfl, by simp [hn]⟩
  rw [peerRun]
  dsimp only
  generalize reads.foldl peerRead { chunked := false, remainder := n, closed := false } = p at hread
  generalize reads.flatten.flatten = s at hread
  obtain ⟨hchunked, hfailed, htruncated, hout, hrem, hclosed⟩ := hread
  by_cases hcut : eof = true ∧ s.length < n
  · have hreads : (eof && p.reads) = true := by
      simp [PeerConn.reads, hfailed, hclosed, hcut]
    rw [if_pos hreads, peerClosed]
    dsimp only
    rw [if_pos (.inl (by omega))]
    exact ⟨hout, by simp [hcut]⟩
  have hreads : (eof && p.reads) = false := by
    rw [not_and] at hcut
    cases eof with
    | false => rfl
    | true => simpa [PeerConn.reads, hfailed, hclosed] using hcut rfl
  rw [if_neg (by simp [hreads])]
  exact ⟨hout, by simp [hcut, htruncated]⟩

/-- The state after the bytes `s` of a body whose remainder is not counted. -/
structure UncountedRead (s : Bytes) (p : PeerConn) : Prop where
  chunked : p.chunked = false
  remainder : p.remainder = 0
  truncated : p.truncated = false
  reads : p.reads = true
  out : p.out = s

theorem UncountedRead.step (h : UncountedRead s p) (chain : List Bytes) :
    UncountedRead (s ++ chain.flatten) (peerRead p chain) := by
  obtain ⟨hchunked, hrem, htruncated, hreads, rfl⟩ := h
  rw [peerRead, if_pos hreads, peerBodyProcess, if_neg (by simp [hchunked]), if_neg (by omega)]
  exact ⟨hchunked, hrem, htruncated, hreads, rfl⟩

variable (reads : List (List Bytes))

/-- A body with the Content-Length zero is not cut off. -/
theorem peerRun_zero (eof : Bool) :
    (peerRun { remainder := 0 } reads eof).out = reads.flatten.flatten ∧
      (peerRun { remainder := 0 } reads eof).truncated = false := by
  obtain ⟨hchunked, hrem, htruncated, hreads, hout⟩ : UncountedRead reads.flatten.flatten
      (reads.foldl peerRead { chunked := false, remainder := 0, closed := false }) :=
    foldl_peerRead UncountedRead.step reads (s := []) ⟨rfl, rfl, rfl, rfl, rfl⟩
  rw [peerRun]
  dsimp only
  cases eof with
  | false => exact ⟨hout, htruncated⟩
  | true => ?_
  rw [Bool.true_and, if_pos hreads, peerClosed]
  dsimp only
  rw [if_neg (by simp [hchunked, hrem])]
  exact ⟨hout, htruncated⟩

/-! ### A chunked body -/

/-- The state after the bytes `s` of a chunked body: it is read on while the
machine runs, closed after the last chunk and failed after an error. -/
def ChunkedRead (s : Bytes) (p : PeerConn) : Prop :=
  p.chunked = true ∧ p.remainder = 0 ∧ p.truncated = false ∧
    ((p.reads = true ∧ ChunkValid p.chunkedParse.state p.chunkedParse ∧
        run (byteStep httpTrailerMaxSize) .start s =
          (p.out, .running (ByteState.of p.chunkedParse.state p.chunkedParse))) ∨
      (p.reads = false ∧ ∃ o v rest,
        run (byteStep httpTrailerMaxSize) .start s = (o, .halted v rest)))

theorem ChunkedRead.step (h : ChunkedRead s p) (chain : List Bytes) :
    ChunkedRead (s ++ chain.flatten) (peerRead p chain) := by
  obtain ⟨hchunked, hrem, htruncated, ⟨hreads, hvalid, hrun⟩ | ⟨hreads, o, v, rest, hrun⟩⟩ := h
  · obtain ⟨hout, hend⟩ := chunkChain_refines chain hvalid
    have hmore := run_append_running hrun chain.flatten
    rw [peerRead, if_pos hreads, peerBodyProcess, if_pos hchunked]
    dsimp only
    rw [httpChunkParse]
    rcases hm : (run (byteStep httpTrailerMaxSize)
        (ByteState.of p.chunkedParse.state p.chunkedParse) chain.flatten).2 with s' | ⟨_ | _, rest⟩
    · rw [hm] at hend hmore
      obtain ⟨rfl, hvalid', -⟩ := hend
      rw [if_neg (by simp [hvalid'.chunkError]), if_neg (by simp [hvalid'.last])]
      refine ⟨hchunked, hrem, htruncated, .inl ⟨hreads, hvalid', ?_⟩⟩
      rw [hmore, ← hout]
    · rw [hm] at hend hmore
      obtain ⟨hlast, herror, -⟩ := hend
      rw [if_neg (by simp [herror]), if_pos hlast]
      exact ⟨hchunked, hrem, htruncated, .inr ⟨by simp [PeerConn.reads], _, _, _, hmore⟩⟩
    rw [hm] at hend hmore
    obtain ⟨hlast, herror, -⟩ := hend
    rw [if_pos herror]
    exact ⟨hchunked, hrem, htruncated, .inr ⟨by simp [PeerConn.reads], _, _, _, hmore⟩⟩
  rw [peerRead, if_neg (by simp [hreads])]
  exact ⟨hchunked, hrem, htruncated, .inr ⟨hreads, _, _, _, run_append_halted hrun _⟩⟩

/-- A stream of chunks that breaks off: it begins an encoding, and holds no
complete one. -/
def BreaksOff (s : Bytes) : Prop :=
  Begins httpTrailerMaxSize s ∧
    ¬ ∃ parts enc, Encodes httpTrailerMaxSize parts enc ∧ enc <+: s

theorem breaksOff_iff_running (s : Bytes) :
    BreaksOff s ↔ ∃ o q, run (byteStep httpTrailerMaxSize) .start s = (o, .running q) := by
  constructor
  · rintro ⟨hbegins, hnone⟩
    exact (running_of_begins hbegins).resolve_left fun ⟨parts, henc⟩ =>
      hnone ⟨parts, s, henc, prefix_rfl⟩
  · rintro ⟨o, q, hrun⟩
    have hseen := seen_run httpTrailerMaxSize s
    rw [hrun] at hseen
    refine ⟨begins_of_seen hseen, ?_⟩
    rintro ⟨parts, enc, henc, tail, rfl⟩
    rw [run_append_halted (run_encodes henc)] at hrun
    cases hrun

/-- A chunked body is truncated exactly when the peer closes inside it. -/
theorem peerRun_chunked (eof : Bool) : (peerRun { chunked := true } reads eof).truncated = true ↔
      eof = true ∧ BreaksOff reads.flatten.flatten := by
  have hread : ChunkedRead reads.flatten.flatten
      (reads.foldl peerRead { chunked := true, remainder := 0, closed := false }) :=
    foldl_peerRead ChunkedRead.step reads (s := [])
      ⟨rfl, rfl, rfl, .inl ⟨rfl, ⟨by simp, by simp, by simp, rfl, rfl⟩, rfl⟩⟩
  rw [peerRun, breaksOff_iff_running]
  dsimp only
  generalize reads.foldl peerRead { chunked := true, remainder := 0, closed := false } = p at hread
  obtain ⟨hchunked, hrem, htruncated, ⟨hreads, hvalid, hrun⟩ | ⟨hreads, o, v, rest, hrun⟩⟩ := hread
  · cases eof with
    | false => simp [htruncated]
    | true => ?_
    rw [Bool.true_and, if_pos hreads, peerClosed]
    dsimp only
    rw [if_pos (.inr ⟨hchunked, by simp [hvalid.last]⟩)]
    exact ⟨fun _ => ⟨rfl, _, _, hrun⟩, fun _ => rfl⟩
  rw [hreads, Bool.and_false, if_neg (by simp), htruncated, hrun]
  simp

/-! ### The framing of a peer's response -/

section Framing

variable {head : Bool} {status : HttpStatus} {fields : List HttpField} {body : PeerBody}

/-- A body that is read is either chunked, without a Content-Length, or the
length that was parsed counts it. -/
theorem peerBody_cases (hhash : ∀ f ∈ fields, f.WellHashed) (hskip : ∀ f ∈ fields, f.skip = false)
    (hdone : peerHeaderReadDone head (peerFieldsProcess status fields) = .ok body)
    (hopen : body.closed = false) :
    (body = { chunked := true } ∧ fieldValues lengthName fields = []) ∨
      (body = { remainder := (peerFieldsProcess status fields).contentLengthN.getD 0 }) := by
  have hlength := (peerFieldsProcess_peerFields status hhash hskip).lengths.isSome_iff
  generalize peerFieldsProcess status fields = p at hdone hlength
  rw [peerHeaderReadDone] at hdone
  split_ifs at hdone with hbodyless hunsupported hboth hchunked
  · cases hdone
    cases hopen
  · cases hdone
    refine .inl ⟨rfl, ?_⟩
    by_contra hne
    exact hboth ⟨hchunked, hlength.mpr hne⟩
  cases hdone
  exact .inr rfl

/-- A Content-Length line that is a number counts the body. -/
theorem peerBody_of_length (hhash : ∀ f ∈ fields, f.WellHashed)
    (hskip : ∀ f ∈ fields, f.skip = false)
    (hdone : peerHeaderReadDone head (peerFieldsProcess status fields) = .ok body)
    (hopen : body.closed = false) {v : Bytes} (hv : fieldValues lengthName fields = [v])
    (hn : offTParse v = some n) : body = { remainder := n } := by
  obtain ⟨-, hnone⟩ | rfl := peerBody_cases hhash hskip hdone hopen
  · rw [hnone] at hv
    cases hv
  have hlines := (peerFieldsProcess_peerFields status hhash hskip).lengths
  rw [hv] at hlines
  cases hlines with
  | one hslot hg hname hshow hshown hlen => rw [hlen, hn, Option.getD_some]

end Framing

/-- What the body of a peer's response must come to: with a Content-Length its
first bytes and no more, marked as truncated if the peer closed before them;
chunked, marked as truncated if the peer closed inside the encoding. -/
def BodyFramed (fields : List HttpField) (body : PeerBody) (reads : List (List Bytes))
    (eof : Bool) : Prop :=
  (∀ v n, fieldValues lengthName fields = [v] → offTParse v = some n →
    (peerRun body reads eof).out = reads.flatten.flatten.take n ∧
      ((peerRun body reads eof).truncated = true ↔
        eof = true ∧ reads.flatten.flatten.length < n)) ∧
  (body.chunked = true →
    ((peerRun body reads eof).truncated = true ↔ eof = true ∧ BreaksOff reads.flatten.flatten))

/-- **The body of a peer's response.**  For every cut of the peer's stream into
reads the framing decides what is handed to the client and whether the response
is truncated, unless the Content-Length is zero and bytes follow it. -/
theorem peerRun_bodyFramed_iff (head : Bool) (status : HttpStatus) (fields : List HttpField)
    (hhash : ∀ f ∈ fields, f.WellHashed) (hskip : ∀ f ∈ fields, f.skip = false)
    (body : PeerBody)
    (hdone : peerHeaderReadDone head (peerFieldsProcess status fields) = .ok body)
    (hopen : body.closed = false) (reads : List (List Bytes)) (eof : Bool) :
    BodyFramed fields body reads eof ↔
      ((∃ v, fieldValues lengthName fields = [v] ∧ offTParse v = some 0) →
        reads.flatten.flatten = []) := by
  constructor
  · rintro ⟨hlength, -⟩ ⟨v, hv, hzero⟩
    have hout := (hlength v 0 hv hzero).1
    rw [peerBody_of_length hhash hskip hdone hopen hv hzero, (peerRun_zero reads eof).1] at hout
    rw [hout, take_zero]
  · intro hempty
    constructor
    · intro v n hv hn
      rw [peerBody_of_length hhash hskip hdone hopen hv hn]
      by_cases hzero : n = 0
      · subst hzero
        rw [(peerRun_zero reads eof).1, (peerRun_zero reads eof).2, hempty ⟨v, hv, hn⟩]
        simp
      · exact peerRun_length hzero reads eof
    · intro hchunked
      obtain ⟨rfl, -⟩ | rfl := peerBody_cases hhash hskip hdone hopen
      · exact peerRun_chunked reads eof
      · cases hchunked

/-- Five bytes, in reads that go past them. -/
theorem peerRun_bodyFramed_five :
    BodyFramed [.ofLine lengthName (str "5")] { remainder := 5 }
      [[str "ab"], [str "c", str "defg"]] true := by
  refine (peerRun_bodyFramed_iff false 200 _ ?_ ?_ _ ?_ rfl _ _).mpr ?_
  · intro f hf
    rw [mem_singleton.mp hf]
    exact HttpField.wellHashed_ofLine _ _
  · decide
  · decide +kernel
  · rintro ⟨v, hv, hzero⟩
    rw [show fieldValues lengthName [.ofLine lengthName (str "5")] = [str "5"] by decide +kernel]
      at hv
    obtain rfl := singleton_inj.mp hv
    revert hzero
    decide

/-- Bytes after the Content-Length zero are handed to the client. -/
theorem peerRun_zero_forwarded :
    peerHeaderReadDone false (peerFieldsProcess 200 [.ofLine lengthName (str "0")]) = .ok {} ∧
      (peerRun {} [[str "evil"]] true).out = str "evil" ∧
      ¬ BodyFramed [.ofLine lengthName (str "0")] {} [[str "evil"]] true := by
  refine ⟨by decide +kernel, by decide +kernel, ?_⟩
  rintro ⟨hlength, -⟩
  have hout := (hlength (str "0") 0 (by decide +kernel) (by decide +kernel)).1
  revert hout
  decide

/-! ### The relay of a chunked body -/

/-- The proxy reads a chunked body as the calls of the chunk parser do. -/
theorem peerReads_chunked :
    let p (seen : List (List Bytes)) := seen.foldl peerRead { chunked := true, remainder := 0 }
    Holds (fun s seen => s.1.last = false ∧
        p seen = { chunked := true, remainder := 0, chunkedParse := s.1, out := s.2.flatten })
      (fun r seen => (p seen).reads = false ∧ (p seen).truncated = false ∧
        (p seen).last = !r.hcp.chunkError ∧ (r.hcp.chunkError = false → (p seen).out = r.out.flatten))
      reads (chunkReads reads) := by
  intro p
  refine feed_rule _ _ _ _ ?_ ?_ reads ⟨rfl, rfl⟩
  · intro s seen chain hseen
    have hp : p (seen ++ [chain]) = peerRead (p seen) chain := foldl_concat ..
    rw [chunkRead]
    split_ifs with hstop
    all_goals simp only [Holds, hp, hseen, peerRead, peerBodyProcess, PeerConn.reads]
    · cases herror : (httpChunkParse s.1 chain).hcp.chunkError <;> simp_all
    · simp_all
  · -- nothing is read behind the end
    intro r seen more hseen
    have hstay : p (seen ++ more) = p seen := by
      refine foldl_append.trans ?_
      induction more with
      | nil => rfl
      | cons chain more ih => rwa [foldl_cons, peerRead, if_neg (by simp [p, hseen.1])]
    rw [hstay]
    exact hseen

theorem peerRun_decoded (eof : Bool) : let p := peerRun { chunked := true } reads eof
    (p.last && !p.truncated) = (decoded (chunkReads reads)).1.last ∧
      ((decoded (chunkReads reads)).1.last = true → p.out = (decoded (chunkReads reads)).2) := by
  have hpeer := peerReads_chunked reads
  have hverdict := chunkReads_refines reads
  rw [peerRun]
  generalize chunkReads reads = result at hpeer hverdict ⊢
  rcases result with ⟨hcp, out⟩ | r
  · obtain ⟨hlast, hp⟩ := hpeer
    dsimp only at hp hlast ⊢
    rw [hp]
    cases eof <;> simp [PeerConn.reads, peerClosed, decoded, hlast]
  obtain ⟨hreads, htruncated, hlast, hout⟩ := hpeer
  obtain ⟨v, -, hv, herror⟩ := hverdict
  dsimp only at hreads htruncated hlast hout ⊢
  rw [hreads, Bool.and_false, if_neg Bool.false_ne_true, htruncated, hlast]
  cases v <;> simp_all [decoded]

/-- What the client is sent: the data in any calls, one of which ends the body if
the last buffer was handed over for a response that is not truncated. -/
structure Relayed (p : PeerConn) (calls : List ChunkCall) : Prop where
  ends : LastEnds (callBufs calls)
  data : chainBytes (callBufs calls) = p.out
  last : calls.any ChunkCall.ends = (p.last && !p.truncated)

/-- **A chunked body is relayed.**  Whatever the peer sends, and however its
stream and that of the client are cut: the client reads what was handed over and
no error, and it sees the end exactly if a reader of the peer's stream does; then
both have read the same data. -/
theorem relay_chunked (eof : Bool) (calls : List ChunkCall)
    (h : Relayed (peerRun { chunked := true } reads eof) calls) (cuts : List (List Bytes))
    (hcuts : cuts.flatten.flatten = chunkSends false calls) :
    (decoded (chunkReads cuts)).2 = (peerRun { chunked := true } reads eof).out ∧
      (decoded (chunkReads cuts)).1.chunkError = false ∧
      (decoded (chunkReads cuts)).1.last = (decoded (chunkReads reads)).1.last ∧
      ((decoded (chunkReads reads)).1.last = true →
        (decoded (chunkReads cuts)).2 = (decoded (chunkReads reads)).2) := by
  have hsent := chunkSends_run h.ends false
  obtain ⟨hlast, hout⟩ := peerRun_decoded reads eof
  rw [h.last, hlast, ← hcuts, h.data] at hsent
  cases hend : (decoded (chunkReads reads)).1.last with
  | true =>
    rw [hend, if_pos rfl] at hsent
    obtain ⟨r, hr, hdata, -, hlast, herror⟩ := chunkReads_halted hsent
    rw [hr]
    exact ⟨hdata, herror, hlast, fun _ => hdata.trans (hout hend)⟩
  | false => ?_
  rw [hend, if_neg Bool.false_ne_true] at hsent
  obtain ⟨s, hs⟩ := hsent
  obtain ⟨hcp, out, hr, hdata, hlast, herror⟩ := chunkReads_running hs
  rw [hr]
  exact ⟨hdata, herror, hlast, by simp⟩

/-- Two chunks in two reads, written as one. -/
theorem relay_chunked_two : (decoded (chunkReads [[str "3\r\na", str "bc\r\n0\r\n\r\n"]])).2 =
    str "abc" :=
  (relay_chunked [[str "2\r\nab\r\n1\r"], [str "\nc\r\n0\r\n\r\n"]] false
    [⟨false, [{ body := .mem (str "abc") }, { body := .sync, last := true }], by decide⟩]
    ⟨by decide, by decide, by decide⟩ [[str "3\r\na", str "bc\r\n0\r\n\r\n"]] (by decide)).1.trans
      (by decide)

end FreeUnit
