/-
Pipelined requests: the connection delivers the requests of the stream.

* `connRun_pipelined` — the run of a connection, for any sizes of its reads.
-/
import FreeUnit.ChunkGrammar
import FreeUnit.Connection
import FreeUnit.ParsedFields

namespace FreeUnit

open Transducer List

/-- The bytes that a framing declares as the body, and the body in them. -/
def Framed : Framing → Bytes → Bytes → Prop
  | .none, bytes, body => bytes = [] ∧ body = []
  | .length n, bytes, body => bytes.length = n ∧ body = bytes
  | .chunked, bytes, body =>
    ∃ parts, Encodes httpTrailerMaxSize parts bytes ∧ body = parts.flatten

section Reference

variable (skcf : SocketConf) (connTls : Bool)

/-- **The request at the start of `s`**: a header that is accepted, and after it
the body that the header declares; `rest` is what follows the body. -/
def NextRequest (s : Bytes) (d : Delivered) (rest : Bytes) : Prop :=
  ∃ rp bytes r fields,
    httpParseRequest .requestLine (requestInit skcf) s = .done rp (bytes ++ rest) ∧
    Agrees rp d.parser ∧ h1pRequestHeader skcf connTls rp = .accepted d.framing r fields ∧
    Framed d.framing bytes d.body

/-- **Requests that follow one another** in a stream, and the bytes behind the
last one. -/
inductive Pipelined (stream : Bytes) : List Delivered → Bytes → Prop
  | nil : Pipelined stream [] stream
  | snoc {ds : List Delivered} {d : Delivered} {mid rest : Bytes} (h : Pipelined stream ds mid)
      (hd : NextRequest skcf connTls mid d rest) : Pipelined stream (ds ++ [d]) rest

end Reference

/-! ### Headers -/

variable {left bytes : Bytes} {rp : RequestParse} {framing : Framing} {buffers : List Buf}

section Header

variable {skcf : SocketConf} {connTls : Bool}

theorem fresh_requestInit (skcf : SocketConf) : Fresh (requestInit skcf) := fresh_init _ _ _

/-- A complete header stays complete with more bytes behind it. -/
theorem parse_done_append {s : Bytes}
    (h : httpParseRequest .requestLine (requestInit skcf) s = .done rp left) (m : Bytes) :
    httpParseRequest .requestLine (requestInit skcf) (s ++ m) = .done rp (left ++ m) := by
  rcases wholeParse_continues (fresh_requestInit skcf) s m with ⟨f, hf⟩ | hcont
  · rw [httpParseRequest_again _ hf] at h
    cases h
  rw [h] at hcont
  exact hcont

variable {rp' : RequestParse}

/-- The flags of the target do not matter to the fields of a header. -/
theorem headerAccepted_agrees (h : Agrees rp rp')
    (hacc : HeaderAccepted skcf connTls rp' rp'.fields) :
    HeaderAccepted skcf connTls rp rp.fields := by
  obtain ⟨haccepted, hshake, htls⟩ := hacc
  rw [h.eq_withFlags] at haccepted hshake
  exact ⟨haccepted, hshake, htls⟩

theorem framing_agrees (h : Agrees rp rp') :
    (fieldsView rp' rp'.fields).framing skcf = (fieldsView rp rp.fields).framing skcf := by
  rw [h.eq_withFlags]
  rfl

/-- The incremental parse leads to the framing of the whole parse. -/
theorem accepted_agrees (h : Agrees rp rp') (hfields : ∀ f ∈ rp.fields, f.WellHashed)
    {r : H1Request} {fields : List HttpField}
    (hr : h1pRequestHeader skcf connTls rp' = .accepted framing r fields) : r.parser = rp' ∧
      ∃ r' fields', h1pRequestHeader skcf connTls rp = .accepted framing r' fields' := by
  have hfields' : ∀ f ∈ rp'.fields, f.WellHashed := by
    rw [h.eq_withFlags]
    exact hfields
  rcases h1pRequestHeader_cases skcf connTls rp' hfields' with
    ⟨framing', r', fields', hr', hview, hacc, hframing⟩ | ⟨status, hr', -⟩
  swap
  · rw [hr] at hr'
    cases hr'
  rw [hr] at hr'
  cases hr'
  refine ⟨congrArg RequestView.parser hview, ?_⟩
  rcases h1pRequestHeader_cases skcf connTls rp hfields with
    ⟨framing', r', fields', hr', -, -, hframing'⟩ | ⟨status, -, hrefused⟩
  · rw [framing_agrees h, hframing'] at hframing
    cases hframing
    exact ⟨r', fields', hr'⟩
  obtain ⟨status', herror⟩ := hrefused (headerAccepted_agrees h hacc)
  rw [framing_agrees h, herror] at hframing
  cases hframing

theorem not_done_of_tracks {s : ParserState} {t : Bytes} (h : Tracks (requestInit skcf) s t) :
    httpParseRequest .requestLine (requestInit skcf) t ≠ .done rp left := by
  rcases h with ⟨-, -, ⟨f, hf⟩, -⟩ | ⟨-, a, hwhole, -⟩
  · rw [httpParseRequest_again _ hf]
    simp
  rw [hwhole]
  simp

theorem matches_done {whole : ParseResult}
    (h : Matches whole (.done rp left)) : ∃ rp', whole = .done rp' left ∧ Agrees rp' rp := by
  cases whole with
  | done rp' left' =>
    obtain ⟨rfl, hagrees⟩ := h
    exact ⟨rp', rfl, hagrees⟩
  | ok | again | error => exact h.elim

theorem tracks_nil (hrp : Fresh rp) : Tracks rp { rp := rp } [] := by
  refine .inl ⟨rfl, rfl, ⟨{}, rfl⟩, rfl, fun hq => ?_⟩
  rw [hrp.flags] at hq
  cases hq

end Header

/-! ### Bodies -/

/-- A body of which `bytes` have been read. -/
def BodyPartial : Framing → BodyBuf → Bytes → Prop
  | .length n, .mem size data, bytes => size = n ∧ data = bytes ∧ bytes.length < n
  | .length n, .file size file mem, bytes =>
    size = n ∧ file = bytes ∧ bytes.length < n ∧ mem.data = [] ∧ mem.room ≤ n - bytes.length
  | .chunked, .chunked hcp file mem, bytes =>
    run (byteStep httpTrailerMaxSize) .start bytes
        = (file, .running (ByteState.of hcp.state hcp)) ∧
      ChunkValid hcp.state hcp ∧ mem.data = []
  | _, _, _ => False

/-- The buffer of the next request holds `left`. -/
def NextIn (left : Bytes) : Option Buf → Prop
  | none => left = []
  | some inb => inb.data = left ∧ left ≠ []

def HeadEmpty (buffers : List Buf) : Prop := ∃ rest more, buffers = rest :: more ∧ rest.data = []

/-- What a step of the body does with the bytes of the body so far. -/
def BodyHolds (framing : Framing) (bytes : Bytes) : BodyStep → Prop
  | .ready body read buffers => ∃ bytes' left, bytes = bytes' ++ left ∧
      Framed framing bytes' body ∧ NextIn left (completeBuffers read buffers)
  | .wait b buffers => BodyPartial framing b bytes ∧ HeadEmpty buffers
  | .error _ => True

theorem nextIn_read (inb : Buf) (buffers : List Buf) :
    NextIn inb.data (completeBuffers (some inb) buffers) := by
  rw [completeBuffers]
  by_cases h : inb.data = []
  · simp [h, NextIn]
  · simp [h, NextIn]

theorem nextIn_keepRest (skcf : SocketConf) (left : Bytes)
    (h : HeadEmpty buffers) : NextIn left (completeBuffers none (keepRest skcf left buffers)) := by
  obtain ⟨rest, more, rfl, hrest⟩ := h
  rw [keepRest]
  by_cases hleft : left = []
  · simp [hleft, completeBuffers, hrest, NextIn]
  rw [if_neg hleft]
  dsimp only
  split_ifs
  · simp [completeBuffers, hrest, hleft, NextIn]
  · simp [completeBuffers, hleft, NextIn]

theorem room_limited (size rest : ℕ) : (Buf.limited size rest).room ≤ rest := by
  rw [Buf.limited, Buf.room]
  split_ifs with h
  · simp only [length_nil]
    omega
  simp only [length_nil]
  omega

section Body

variable {skcf : SocketConf}

/-- The chunk parser on one buffer, behind the bytes that came before. -/
theorem chunkedBody_ok {hcp hcp' : HttpChunkParse} {file file' b : Bytes}
    (hbytes : run (byteStep httpTrailerMaxSize) .start bytes
      = (file, .running (ByteState.of hcp.state hcp)))
    (hvalid : ChunkValid hcp.state hcp)
    (h : chunkedBody skcf hcp file b = .ok (hcp', file', left)) :
    (hcp'.last = true ∧ ∃ bytes', bytes ++ b = bytes' ++ left ∧ Framed .chunked bytes' file') ∨
    (hcp'.last = false ∧ run (byteStep httpTrailerMaxSize) .start (bytes ++ b)
        = (file', .running (ByteState.of hcp'.state hcp')) ∧ ChunkValid hcp'.state hcp') := by
  obtain ⟨hout, hend⟩ := chunkChain_refines [b] hvalid
  have hwhole := run_append_running hbytes b
  rw [flatten_singleton] at hout hend
  rw [chunkedBody] at h
  dsimp only at h
  split_ifs at h
  cases h
  rw [← hout] at hwhole
  rcases hm : (run (byteStep httpTrailerMaxSize) (ByteState.of hcp.state hcp) b).2 with
    s | ⟨_ | _, rest⟩
  · rw [hm] at hend hwhole
    obtain ⟨rfl, hvalid', -⟩ := hend
    exact .inr ⟨hvalid'.last, hwhole, hvalid'⟩
  · rw [hm] at hend hwhole
    obtain ⟨hlast, -, rfl⟩ := hend
    have hseen := seen_run httpTrailerMaxSize (bytes ++ b)
    rw [hwhole] at hseen
    obtain ⟨y, hy, henc⟩ := hseen
    exact .inl ⟨hlast, y, hy, henc rfl⟩
  rw [hm] at hend
  have hchunkError : (httpChunkParse hcp [b]).hcp.chunkError = true := hend.2.1
  simp_all

/-- **The start of a body** in the header buffer. -/
theorem bodyStart_spec (skcf : SocketConf) (framing : Framing) (inb : Buf) (buffers : List Buf) :
    BodyHolds framing inb.data (bodyStart skcf framing inb buffers) := by
  cases framing with
  | none => exact ⟨[], inb.data, rfl, ⟨rfl, rfl⟩, nextIn_read inb buffers⟩
  | length n =>
    cases n with
    | zero => exact ⟨[], inb.data, rfl, ⟨rfl, rfl⟩, nextIn_read inb buffers⟩
    | succ n => ?_
    simp only [bodyStart]
    by_cases hle : n + 1 ≤ inb.data.length
    · -- the whole body is there
      rw [min_eq_right hle, if_pos (by omega)]
      refine ⟨inb.data.take (n + 1), inb.data.drop (n + 1), (take_append_drop _ _).symm,
        ⟨length_take_of_le hle, rfl⟩, ?_⟩
      exact nextIn_read (inb.skip (n + 1)) buffers
    have hmin : min inb.data.length (n + 1) = inb.data.length := by omega
    have hdata : inb.data.take inb.data.length = inb.data := take_length
    have hempty : HeadEmpty (inb.skip inb.data.length :: buffers) := ⟨_, _, rfl, drop_length⟩
    rw [hmin, if_neg (by omega), hdata]
    split_ifs with hmem
    · exact ⟨⟨rfl, rfl, by omega⟩, hempty⟩
    · exact ⟨⟨rfl, rfl, by omega, rfl, room_limited _ _⟩, hempty⟩
  | chunked => ?_
  simp only [bodyStart]
  by_cases hdata : inb.data = []
  · rw [if_pos hdata]
    refine ⟨⟨?_, ⟨by simp, by simp, by simp, rfl, rfl⟩, rfl⟩, ⟨_, _, rfl, hdata⟩⟩
    rw [hdata]
    rfl
  rw [if_neg hdata]
  cases hr : chunkedBody skcf {} [] inb.data with
  | error status => trivial
  | ok x => ?_
  obtain ⟨hcp, file, left⟩ := x
  dsimp only
  have hstart : run (byteStep httpTrailerMaxSize) .start []
      = ([], .running (ByteState.of .start {})) := rfl
  have hspec := chunkedBody_ok hstart ⟨by simp, by simp, by simp, rfl, rfl⟩ hr
  rw [nil_append] at hspec
  rcases hspec with ⟨hlast, bytes', hbytes, hframed⟩ | ⟨hlast, hrun, hvalid⟩
  · rw [if_pos hlast]
    exact ⟨bytes', left, hbytes, hframed, nextIn_read (inb.leave left) buffers⟩
  rw [if_neg (by simp [hlast])]
  exact ⟨⟨hrun, hvalid, rfl⟩, ⟨_, _, rfl, rfl⟩⟩

/-- **A read of the body**, of at most the room of its buffer. -/
theorem bodyRead_spec (skcf : SocketConf) {b : BodyBuf} {d : Bytes}
    (hpart : BodyPartial framing b bytes) (hbuffers : HeadEmpty buffers)
    (hroom : d.length ≤ b.room) : BodyHolds framing (bytes ++ d) (bodyRead skcf b d buffers) := by
  have hrest := nextIn_keepRest skcf [] hbuffers
  rw [keepRest, if_pos rfl] at hrest
  cases b with
  | mem size data =>
    cases framing with
    | none | chunked => exact hpart.elim
    | length n => ?_
    obtain ⟨rfl, rfl, hlt⟩ := hpart
    simp only [bodyRead]
    split_ifs with hfull
    · refine ⟨data ++ d, [], by simp, ⟨?_, rfl⟩, hrest⟩
      rw [BodyBuf.room] at hroom
      rw [length_append] at hfull ⊢
      omega
    · exact ⟨⟨rfl, rfl, by omega⟩, hbuffers⟩
  | file size file mem =>
    cases framing with
    | none | chunked => exact hpart.elim
    | length n => ?_
    obtain ⟨rfl, rfl, hlt, hmem, hle⟩ := hpart
    have hd : d.length ≤ size - file.length := hroom.trans hle
    simp only [bodyRead, hmem, nil_append, min_eq_left hd, take_length]
    have hskip : (Buf.skip { mem with data := d } d.length).data = [] := drop_length
    split_ifs with hfull
    · rw [hskip, keepRest, if_pos rfl]
      refine ⟨file ++ d, [], by simp, ⟨?_, rfl⟩, hrest⟩
      rw [length_append]
      omega
    refine ⟨⟨rfl, rfl, ?_, rfl, ?_⟩, hbuffers⟩
    · rw [length_append]
      omega
    · refine (room_limited _ _).trans ?_
      rw [length_append]
      omega
  | chunked hcp file mem => ?_
  cases framing with
  | none | length => exact hpart.elim
  | chunked => ?_
  obtain ⟨hbytes, hvalid, hmem⟩ := hpart
  simp only [bodyRead, hmem, nil_append]
  cases hr : chunkedBody skcf hcp file d with
  | error status => trivial
  | ok x => ?_
  obtain ⟨hcp', file', left⟩ := x
  dsimp only
  rcases chunkedBody_ok hbytes hvalid hr with
    ⟨hlast, bytes', hbytes', hframed⟩ | ⟨hlast, hrun, hvalid'⟩
  · rw [if_pos hlast]
    exact ⟨bytes', left, hbytes', hframed, nextIn_keepRest skcf left hbuffers⟩
  rw [if_neg (by simp [hlast])]
  exact ⟨⟨hrun, hvalid', rfl⟩, hbuffers⟩

end Body

/-! ### The connection -/

section Conn

variable (skcf : SocketConf) (connTls : Bool) (keep : ℕ → Bool)

/-- What is in the buffers of the connection, when `mid` is the stream from the
start of its current request on and `socket` the part not received yet. -/
def PhaseHolds (phase : Phase) (mid socket : Bytes) : Prop :=
  match phase with
  | .idle => mid = socket
  | .header h rp inb _ =>
    ∃ t, mid = t ++ socket ∧ Tracks (requestInit skcf) ⟨h, rp, inb.data⟩ t
  | .body r framing b buffers =>
    ∃ t rp bytes, mid = t ++ socket ∧
      httpParseRequest .requestLine (requestInit skcf) t = .done rp bytes ∧
      Agrees rp r.parser ∧
      (∃ r' fields, h1pRequestHeader skcf connTls rp = .accepted framing r' fields) ∧
      BodyPartial framing b bytes ∧ HeadEmpty buffers
  | .closed _ => True

/-- **The invariant of a connection** over a stream. -/
def ConnHolds (stream : Bytes) (c : Conn) (socket : Bytes) : Prop :=
  ∃ mid, Pipelined skcf connTls stream c.delivered mid ∧
    PhaseHolds skcf connTls c.phase mid socket

theorem headerBufferTest_data {inb inb' : Buf} {buffers' : List Buf}
    (h : headerBufferTest skcf inb buffers = .ok (inb', buffers')) : inb'.data = inb.data := by
  rw [headerBufferTest] at h
  split_ifs at h
  · cases h
    rfl
  cases h
  rfl

variable {skcf connTls keep} {stream socket : Bytes}

/-- A complete request is delivered, and the rest of the connection starts
behind it. -/
theorem deliver_holds {r : H1Request} {body t : Bytes}
    {delivered : List Delivered} {next : List Delivered → Conn}
    (hpipe : Pipelined skcf connTls stream delivered (t ++ socket))
    (hparse : httpParseRequest .requestLine (requestInit skcf) t = .done rp (bytes ++ left))
    (hagrees : Agrees rp r.parser)
    (haccepted : ∃ r' fields, h1pRequestHeader skcf connTls rp = .accepted framing r' fields)
    (hframed : Framed framing bytes body)
    (hnext : ∀ delivered', Pipelined skcf connTls stream delivered' (left ++ socket) →
      ConnHolds skcf connTls stream (next delivered') socket) :
    ConnHolds skcf connTls stream (deliver keep r framing body delivered next) socket := by
  obtain ⟨r', fields, haccepted⟩ := haccepted
  have hmid := parse_done_append hparse socket
  rw [append_assoc] at hmid
  have hpipe' := hpipe.snoc (d := ⟨r.parser, framing, body⟩)
    ⟨rp, bytes, r', fields, hmid, hagrees, haccepted, hframed⟩
  rw [deliver]
  split_ifs
  · exact hnext _ hpipe'
  · exact ⟨_, hpipe', trivial⟩

/-- The bytes behind a request become the next one. -/
theorem next_holds {read : Option Buf}
    {start : Buf → List Delivered → Conn} {delivered : List Delivered}
    (hnext : NextIn left (completeBuffers read buffers))
    (hpipe : Pipelined skcf connTls stream delivered (left ++ socket))
    (hstart : ∀ inb, inb.data = left → left ≠ [] →
      ConnHolds skcf connTls stream (start inb delivered) socket) :
    ConnHolds skcf connTls stream
      (match completeBuffers read buffers with
        | none => { phase := .idle, delivered := delivered }
        | some inb => start inb delivered) socket := by
  cases hc : completeBuffers read buffers with
  | none =>
    rw [hc] at hnext
    refine ⟨_, hpipe, ?_⟩
    rw [show left = [] from hnext]
    rfl
  | some inb =>
    rw [hc] at hnext
    exact hstart inb hnext.1 hnext.2

/-- **A header and all requests behind it**: `inb` holds what the parser has
left of the bytes `t` of the request, and the new bytes `d`. -/
theorem connHeader_holds (fuel : ℕ) : ∀ {h : ParseHandler} {rp : RequestParse} {inb : Buf}
    {buffers : List Buf} {delivered : List Delivered} {t pending d : Bytes},
    Tracks (requestInit skcf) ⟨h, rp, pending⟩ t → inb.data = pending ++ d →
    Pipelined skcf connTls stream delivered (t ++ d ++ socket) → ConnHolds skcf connTls stream
      (connHeader skcf connTls keep fuel h rp inb buffers delivered) socket := by
  induction fuel with
  | zero => exact fun _ _ hpipe => ⟨_, hpipe, trivial⟩
  | succ fuel ih => ?_
  intro h rp inb buffers delivered t pending d htracks hdata hpipe
  have hread := readHolds_step (fresh_requestInit skcf) htracks d
  rw [connHeader, hdata]
  cases hr : httpParseRequest h rp (pending ++ d) with
  | ok | error => exact ⟨_, hpipe, trivial⟩
  | again h' rp' left =>
    rw [hr] at hread
    dsimp only
    cases htest : headerBufferTest skcf (inb.leave left) buffers with
    | error status => exact ⟨_, hpipe, trivial⟩
    | ok x => ?_
    obtain ⟨inb', buffers'⟩ := x
    refine ⟨_, hpipe, t ++ d, rfl, ?_⟩
    rw [headerBufferTest_data skcf htest]
    exact hread
  | done rp' left => ?_
  rw [hr] at hread
  obtain ⟨rpw, hw, hagrees⟩ := matches_done hread
  dsimp only
  cases hheader : h1pRequestHeader skcf connTls rp' with
  | refused status keepalive => exact ⟨_, hpipe, trivial⟩
  | accepted framing r fields => ?_
  dsimp only
  obtain ⟨hparser, haccepted⟩ := accepted_agrees hagrees (wellHashed_of_parse hw) hheader
  rw [← hparser] at hagrees
  have hbody := bodyStart_spec skcf framing (inb.leave left) buffers
  rw [show (inb.leave left).data = left from rfl] at hbody
  cases hb : bodyStart skcf framing (inb.leave left) buffers with
  | error status => exact ⟨_, hpipe, trivial⟩
  | wait b buffers' =>
    rw [hb] at hbody
    exact ⟨_, hpipe, t ++ d, rpw, left, rfl, hw, hagrees, haccepted, hbody⟩
  | ready body read buffers' => ?_
  rw [hb] at hbody
  obtain ⟨bytes, rest, rfl, hframed, hnext⟩ := hbody
  refine deliver_holds hpipe hw hagrees haccepted hframed fun delivered' hpipe' => ?_
  refine next_holds hnext hpipe' fun inb' hinb' _ => ?_
  exact ih (tracks_nil (fresh_requestInit skcf)) hinb' hpipe'

/-- **One read**, of at most the room there is. -/
theorem connRecv_holds {c : Conn} {d : Bytes} (h : ConnHolds skcf connTls stream c (d ++ socket))
    (hroom : d.length ≤ c.phase.room skcf) :
    ConnHolds skcf connTls stream (connRecv skcf connTls keep c d) socket := by
  obtain ⟨mid, hpipe, hphase⟩ := h
  rw [connRecv]
  cases hp : c.phase with
  | idle =>
    rw [hp] at hphase
    rw [show mid = d ++ socket from hphase] at hpipe
    exact connHeader_holds _ (tracks_nil (fresh_requestInit skcf)) rfl hpipe
  | header hd rp inb buffers =>
    rw [hp] at hphase
    obtain ⟨t, rfl, htracks⟩ := hphase
    rw [← append_assoc] at hpipe
    exact connHeader_holds _ htracks rfl hpipe
  | body r framing b buffers =>
    rw [hp] at hphase hroom
    obtain ⟨t, rp, bytes, rfl, hparse, hagrees, haccepted, hpart, hempty⟩ := hphase
    have hbody := bodyRead_spec skcf hpart hempty hroom
    have hparse' := parse_done_append hparse d
    rw [← append_assoc] at hpipe
    dsimp only
    cases hb : bodyRead skcf b d buffers with
    | error status => exact ⟨_, hpipe, trivial⟩
    | wait b' buffers' =>
      rw [hb] at hbody
      exact ⟨_, hpipe, t ++ d, rp, bytes ++ d, rfl, hparse', hagrees, haccepted, hbody⟩
    | ready body read buffers' => ?_
    rw [hb] at hbody
    obtain ⟨bytes', rest, hbytes, hframed, hnext⟩ := hbody
    rw [hbytes] at hparse'
    refine deliver_holds hpipe hparse' hagrees haccepted hframed fun delivered' hpipe' => ?_
    refine next_holds hnext hpipe' fun inb' hinb' _ => ?_
    exact connHeader_holds _ (tracks_nil (fresh_requestInit skcf)) hinb' hpipe'
  | closed status => exact ⟨mid, hpipe, by rw [hp]; trivial⟩

theorem connStep_holds {s : Conn × Bytes} (h : ConnHolds skcf connTls stream s.1 s.2) (n : ℕ) :
    ConnHolds skcf connTls stream (connStep skcf connTls keep s n).1
      (connStep skcf connTls keep s n).2 := by
  rw [connStep]
  split
  · exact h
  dsimp only
  split_ifs with hroom hd
  · obtain ⟨mid, hpipe, -⟩ := h
    exact ⟨mid, hpipe, trivial⟩
  · exact h
  -- the bytes of the read leave the socket
  have hlen : (s.2.take (min n (s.1.phase.room skcf))).length ≤ s.1.phase.room skcf := by
    rw [length_take]
    omega
  refine connRecv_holds ?_ hlen
  have htake : s.2.take (min n (s.1.phase.room skcf)) ++
      s.2.drop (s.2.take (min n (s.1.phase.room skcf))).length = s.2 := by
    rw [length_take]
    rcases Nat.le_total (min n (s.1.phase.room skcf)) s.2.length with hle | hle
    · rw [min_eq_left hle, take_append_drop]
    · rw [min_eq_right hle, drop_length, take_of_length_le hle, append_nil]
  rw [htake]
  exact h

theorem connRun_holds (skcf : SocketConf) (connTls : Bool) (keep : ℕ → Bool) (stream : Bytes)
    (reads : List ℕ) : ConnHolds skcf connTls stream (connRun skcf connTls keep stream reads).1
      (connRun skcf connTls keep stream reads).2 := by
  suffices ∀ (reads : List ℕ) (s : Conn × Bytes), ConnHolds skcf connTls stream s.1 s.2 →
      ConnHolds skcf connTls stream (reads.foldl (connStep skcf connTls keep) s).1
        (reads.foldl (connStep skcf connTls keep) s).2 from
    this reads _ ⟨stream, .nil, rfl⟩
  intro reads
  induction reads with
  | nil => exact fun s h => h
  | cons n reads ih => exact fun s h => ih _ (connStep_holds h n)

/-! ### Nothing complete is held back -/

theorem not_framed_of_part {b : BodyBuf} {bytes' rest body : Bytes}
    (hpart : BodyPartial framing b bytes) (hbytes : bytes = bytes' ++ rest) :
    ¬ Framed framing bytes' body := by
  intro hframed
  cases framing with
  | none => cases b <;> exact hpart.elim
  | length n =>
    have hlt : bytes.length < n := by
      cases b with
      | mem => exact hpart.2.2
      | file => exact hpart.2.2.1
      | chunked => exact hpart.elim
    rw [hbytes, length_append, hframed.1] at hlt
    omega
  | chunked => ?_
  cases b with
  | mem | file => exact hpart.elim
  | chunked hcp file mem => ?_
  obtain ⟨parts, henc, -⟩ := hframed
  have hrun := hpart.1
  rw [hbytes, run_append_halted (run_encodes henc)] at hrun
  cases hrun

/-- While a request is read, the bytes received do not hold a whole one. -/
theorem incomplete_of_phaseHolds {phase : Phase} {mid socket : Bytes}
    (h : PhaseHolds skcf connTls phase mid socket) (hopen : ∀ status, phase ≠ .closed status) :
    ∃ received, mid = received ++ socket ∧
      ∀ d rest, ¬ NextRequest skcf connTls received d rest := by
  cases phase with
  | closed status => exact absurd rfl (hopen status)
  | idle =>
    refine ⟨[], h, ?_⟩
    rintro d rest ⟨rp, bytes, r, fields, hparse, -⟩
    exact not_done_of_tracks (tracks_nil (fresh_requestInit skcf)) hparse
  | header hd rp inb buffers =>
    obtain ⟨t, rfl, htracks⟩ := h
    refine ⟨t, rfl, ?_⟩
    rintro d rest ⟨rp', bytes, r, fields, hparse, -⟩
    exact not_done_of_tracks htracks hparse
  | body r framing b buffers => ?_
  obtain ⟨t, rp, bytes, rfl, hparse, -, ⟨r', fields, haccepted⟩, hpart, -⟩ := h
  refine ⟨t, rfl, ?_⟩
  rintro d rest ⟨rp', bytes', r'', fields', hparse', -, haccepted', hframed⟩
  rw [hparse] at hparse'
  injection hparse' with hrp hbytes
  subst hrp
  rw [haccepted] at haccepted'
  injection haccepted' with hframing
  rw [← hframing] at hframed
  exact not_framed_of_part hpart hbytes hframed

theorem connHeader_fuel (n k : ℕ) (h : ParseHandler) (rp : RequestParse) (inb : Buf)
    (buffers : List Buf) (delivered : List Delivered) (hn : inb.data.length < n)
    (hk : inb.data.length < k) : connHeader skcf connTls keep n h rp inb buffers delivered
      = connHeader skcf connTls keep k h rp inb buffers delivered := by
  induction n generalizing k h rp inb buffers delivered with
  | zero => omega
  | succ n ih => ?_
  obtain ⟨k, rfl⟩ : ∃ j, k = j + 1 := ⟨k - 1, by omega⟩
  rw [connHeader, connHeader]
  cases hr : httpParseRequest h rp inb.data with
  | ok | again | error => rfl
  | done rp' left => ?_
  have hshort := httpParseRequest_shortens _ le_rfl hr
  dsimp only
  cases h1pRequestHeader skcf connTls rp' with
  | refused => rfl
  | accepted framing r fields => ?_
  dsimp only
  have hbody := bodyStart_spec skcf framing (inb.leave left) buffers
  rw [show (inb.leave left).data = left from rfl] at hbody
  cases hb : bodyStart skcf framing (inb.leave left) buffers with
  | error | wait => rfl
  | ready body read buffers' => ?_
  rw [hb] at hbody
  obtain ⟨bytes, rest, hleft, -, hnext⟩ := hbody
  dsimp only
  congr 1
  funext delivered'
  cases hc : completeBuffers read buffers' with
  | none => rfl
  | some inb' => ?_
  rw [hc] at hnext
  have hlen : inb'.data.length < inb.data.length := by
    rw [hnext.1]
    have : rest.length ≤ left.length := by
      rw [hleft, length_append]
      omega
    omega
  exact ih k _ _ _ _ _ (by omega) (by omega)

end Conn

/-- **Pipelined requests.**  Whatever the sizes of the reads and the buffers,
the requests that a connection delivers follow one another in the stream: each
one starts at the first byte behind the body of the one before, and its body
is the one that its header declares.  While the connection is open, it has
delivered every request that is complete in the bytes received. -/
theorem connRun_pipelined (skcf : SocketConf) (connTls : Bool) (keep : ℕ → Bool) (stream : Bytes)
    (reads : List ℕ) :
    let s := connRun skcf connTls keep stream reads
    ∃ mid, Pipelined skcf connTls stream s.1.delivered mid ∧
      ((∀ status, s.1.phase ≠ .closed status) →
        ∃ received, mid = received ++ s.2 ∧
          ∀ d rest, ¬ NextRequest skcf connTls received d rest) := by
  intro s
  obtain ⟨mid, hpipe, hphase⟩ := connRun_holds skcf connTls keep stream reads
  exact ⟨mid, hpipe, incomplete_of_phaseHolds hphase⟩

end FreeUnit
