/-
Client frames of a WebSocket: the checks of `nxt_h1p_conn_ws_frame_header_read`,
`nxt_h1p_ws_utf8_validate` and `nxt_h1p_conn_ws_frame_process`.

* `frameStep` — one whole frame, of which the payload lies in a chain of buffers;
* `validate_eq` — wherever the buffers end, the payload is read as if it were one
  piece of unmasked bytes;
* `TextMessage` — the frames of a text message, with pings and pongs between them;
* `textMessage_accepted_iff` — such a message is accepted exactly if its text is
  well-formed.
-/
import FreeUnit.Utf8

namespace FreeUnit.Ws

open PrefixCode List

/-! ### The source -/

/-- `nxt_websocket_header_t`, with the masking key that ends the header. -/
structure Header where
  fin : Bool
  rsv1 : Bool
  rsv2 : Bool
  rsv3 : Bool
  opcode : ℕ
  mask : Bool
  len : ℕ
  ext : Bytes
  key : Fin 4 → UInt8

/-- `NXT_WEBSOCKET_OP_CONT` and so on. -/
def opCont : ℕ := 0x00

def opText : ℕ := 0x01

def opBinary : ℕ := 0x02

def opClose : ℕ := 0x08

def opPing : ℕ := 0x09

def opPong : ℕ := 0x0A

def beNat (b : Bytes) : ℕ := b.foldl (fun n c => n * 256 + c.toNat) 0

def headerSize (h : Header) : ℕ :=
  2 + (if h.len = 126 then 2 else if h.len = 127 then 8 else 0) + if h.mask then 4 else 0

def payloadLen (h : Header) : ℕ :=
  if h.len = 126 then beNat (h.ext.take 2)
  else if h.len = 127 then beNat (h.ext.take 8)
  else h.len

/-- The errors of `nxt_ws_error_t` that a frame can raise. -/
inductive WsError where
  | notMasked
  | ctrlFragmented
  | ctrlTooBig (len : ℕ)
  | invalidCloseLen
  | invalidOpcode (opcode : ℕ)
  | contExpected (opcode : ℕ)
  | invalidLength
  | tooBig (len : ℕ)
  | invalidCloseCode (code : ℕ)
  | invalidUtf8
  | truncated
  deriving DecidableEq

/-- What the connection keeps between frames; `utf8` is `tail` up to `len`. -/
structure State where
  contExpected : Bool
  text : Bool
  utf8 : Bytes
  closed : Bool

/-- The checks of `nxt_h1p_conn_ws_frame_header_read` on a whole header. -/
def headerRead (maxFrameSize : ℕ) (st : State) (h : Header) : Except WsError State :=
  if h.mask = false then .error .notMasked
  else if h.len = 127 ∧ 0x80 ≤ h.ext.headD 0 then .error .invalidLength
  else
    let checked : Except WsError State :=
      if 0x08 ≤ h.opcode then
        if h.fin = false then .error .ctrlFragmented
        else if h.opcode ≠ opPing ∧ h.opcode ≠ opPong ∧ h.opcode ≠ opClose then
          .error (.invalidOpcode h.opcode)
        else if 125 < h.len then .error (.ctrlTooBig (payloadLen h))
        else if h.opcode = opClose ∧ h.len = 1 then .error .invalidCloseLen
        else .ok st
      else if st.contExpected then
        if h.opcode ≠ opCont then .error (.contExpected h.opcode)
        else .ok { st with contExpected := !h.fin }
      else if h.opcode ≠ opBinary ∧ h.opcode ≠ opText then .error (.invalidOpcode h.opcode)
      else
        .ok { st with
          text := h.opcode == opText && !h.rsv1 && !h.rsv2 && !h.rsv3
          utf8 := []
          contExpected := !h.fin }
    checked.bind fun st =>
      if maxFrameSize < headerSize h ∨ maxFrameSize - headerSize h < payloadLen h then
        .error (.tooBig (payloadLen h))
      else .ok st

def keyAt (key : Fin 4 → UInt8) (i : ℕ) : UInt8 := key ⟨i % 4, Nat.mod_lt _ (by decide)⟩

/-- One unmasked byte in `nxt_h1p_ws_utf8_validate`: the tail behind it. -/
def utf8Step (tail : Bytes) (c : UInt8) : Option Bytes :=
  if tail = [] ∧ c < 0x80 then some tail
  else
    match utf8Begin (tail ++ [c]) with
    | .word => some []
    | .more => if 3 < (tail ++ [c]).length then none else some (tail ++ [c])
    | .bad => none

/-- `NXT_ERROR` and `NXT_DECLINED` of `nxt_h1p_ws_utf8_validate`. -/
inductive ValidateError where
  | error
  | declined
  deriving DecidableEq

section Validate

variable (key : Fin 4 → UInt8) (skip total : ℕ) (final : Bool)

def validateBuf : ℕ → Bytes → Bytes → Option (ℕ × Bytes)
  | i, tail, [] => some (i, tail)
  | i, tail, x :: b =>
    if i < total then
      if i + 1 ≤ skip then validateBuf (i + 1) tail b
      else
        match utf8Step tail (x ^^^ keyAt key i) with
        | none => none
        | some tail => validateBuf (i + 1) tail b
    else some (i, tail)

def validateChain : ℕ → Bytes → List Bytes → Except ValidateError Bytes
  | i, tail, [] =>
    if i < total then .error .declined
    else if final && tail ≠ [] then .error .error
    else .ok tail
  | i, tail, b :: chain =>
    match validateBuf key skip total i tail b with
    | none => .error .error
    | some (i, tail) => validateChain i tail chain

end Validate

def utf8Validate (tail : Bytes) (chain : List Bytes) (skip length : ℕ) (key : Fin 4 → UInt8)
    (final : Bool) : Except ValidateError Bytes :=
  validateChain key skip (skip + length) final 0 tail chain

def ValidateError.toWs : ValidateError → WsError
  | .declined => .truncated
  | .error => .invalidUtf8

inductive Outcome where
  | pong
  | forward
  deriving DecidableEq

/-- The close code, from the first two bytes of the payload. -/
def closeCode (key : Fin 4 → UInt8) (chain : List Bytes) : ℕ :=
  ((chain.flatten.getD 0 0) ^^^ key 0).toNat * 256 + ((chain.flatten.getD 1 0) ^^^ key 1).toNat

def badCloseCode (code : ℕ) : Bool :=
  code < 1000 || 5000 ≤ code || (1003 < code && code < 1007) || (1014 < code && code < 3000)

/-- The close frame in `nxt_h1p_conn_ws_frame_process`. -/
def closeProcess (st : State) (h : Header) (chain : List Bytes) : Except WsError State :=
  let closed := { st with closed := true, utf8 := [] }
  if 2 ≤ h.len then
    if badCloseCode (closeCode h.key chain) then
      .error (.invalidCloseCode (closeCode h.key chain))
    else if 2 < h.len then
      match utf8Validate [] chain 2 (payloadLen h - 2) h.key true with
      | .error e => .error e.toWs
      | .ok _ => .ok closed
    else .ok closed
  else .ok closed

/-- `nxt_h1p_conn_ws_frame_process`: the payload lies in `chain`, and bytes of later
frames may follow it. -/
def frameProcess (st : State) (h : Header) (chain : List Bytes) :
    Except WsError (Outcome × State) :=
  if h.opcode = opPing then .ok (.pong, st)
  else if h.opcode = opClose then (closeProcess st h chain).map fun st => (.forward, st)
  else if st.text && (h.opcode == opText || h.opcode == opCont) then
    if h.rsv1 || h.rsv2 || h.rsv3 then .ok (.forward, { st with text := false })
    else
      match utf8Validate st.utf8 chain 0 (payloadLen h) h.key h.fin with
      | .error e => .error e.toWs
      | .ok tail => .ok (.forward, { st with utf8 := tail })
  else .ok (.forward, st)

/-- A frame as it is read: its header, and the buffers with its payload. -/
abbrev Frame := Header × List Bytes

def frameStep (maxFrameSize : ℕ) (st : State) (f : Frame) : Except WsError (Outcome × State) :=
  (headerRead maxFrameSize st f.1).bind fun st => frameProcess st f.1 f.2

def frameRun (maxFrameSize : ℕ) : State → List Frame → Except WsError State
  | st, [] => .ok st
  | st, f :: fs =>
    if st.closed then .ok st
    else (frameStep maxFrameSize st f).bind fun r => frameRun maxFrameSize r.2 fs

/-! ### The payload in one piece -/

/-- The unmasked bytes, from offset `i` of the payload on. -/
def unmaskFrom (key : Fin 4 → UInt8) : ℕ → Bytes → Bytes
  | _, [] => []
  | i, x :: b => (x ^^^ keyAt key i) :: unmaskFrom key (i + 1) b

def unmask (key : Fin 4 → UInt8) (payload : Bytes) : Bytes := unmaskFrom key 0 payload

theorem utf8Length_le : ∀ c : UInt8, utf8Length c ≤ 4 := by grind [utf8Length]

/-- A byte is read as the classifier of characters says. -/
theorem utf8Step_eq (tail : Bytes) (c : UInt8) : utf8Step tail c = step textVerdict tail c := by
  rw [utf8Step, step, textVerdict]
  by_cases hfast : tail = [] ∧ c < 0x80
  · obtain ⟨rfl, hc⟩ := hfast
    rw [if_pos ⟨rfl, hc⟩, nil_append, if_pos ⟨rfl, hc⟩]
  have hslow : ¬ ((tail ++ [c]).length = 1 ∧ (tail ++ [c]).headD 0 < 0x80) := by
    rintro ⟨hlen, hc⟩
    rw [length_append] at hlen
    obtain rfl : tail = [] := length_eq_zero_iff.mp (by simpa using hlen)
    exact hfast ⟨rfl, hc⟩
  rw [if_neg hfast, if_neg hslow]
  cases hv : utf8Begin (tail ++ [c]) with
  | word | bad => rfl
  | more => ?_
  -- more bytes are wanted only while fewer than four are there
  have hshort : ¬ 3 < (tail ++ [c]).length := by
    rw [utf8Begin] at hv
    split at hv
    · cases hv
    split at hv
    · have := utf8Length_le ((tail ++ [c]).headD 0)
      omega
    · split at hv <;> cases hv
  dsimp only
  rw [if_neg hshort]

variable {extra : Bytes}

variable {chain : List Bytes}

section Piece

variable {key : Fin 4 → UInt8} {total : ℕ} {final : Bool}

variable {i : ℕ}

variable {b : Bytes}

theorem validateBuf_inside (h : i + b.length ≤ total) (tail : Bytes) :
    validateBuf key 0 total i tail b
      = (run textVerdict tail (unmaskFrom key i b)).map fun tail => (i + b.length, tail) := by
  induction b generalizing i tail with
  | nil => rfl
  | cons x b ih => ?_
  rw [length_cons] at h
  rw [validateBuf, if_pos (by omega), if_neg (by omega), utf8Step_eq, unmaskFrom, run]
  cases step textVerdict tail (x ^^^ keyAt key i) with
  | none => rfl
  | some tail => ?_
  dsimp only
  rw [ih (by omega), Option.bind_some, length_cons, Nat.add_right_comm, Nat.add_assoc]

theorem validateBuf_append (key : Fin 4 → UInt8) (skip total i : ℕ) (tail a b : Bytes) :
    validateBuf key skip total i tail (a ++ b)
      = (validateBuf key skip total i tail a).bind fun r =>
          validateBuf key skip total r.1 r.2 b := by
  induction a generalizing i tail with
  | nil => rfl
  | cons x a ih => ?_
  rw [cons_append, validateBuf, validateBuf]
  split
  case isTrue =>
    split
    · exact ih _ _
    cases utf8Step tail (x ^^^ keyAt key i) with
    | none => rfl
    | some tail => exact ih _ _
  case isFalse hi =>
    -- the payload has ended, and nothing is read any more
    cases b with
    | nil => rfl
    | cons y b => rw [Option.bind_some, validateBuf, if_neg hi]

theorem validateBuf_end (h : i + b.length = total) (tail : Bytes) :
    validateBuf key 0 total i tail (b ++ extra)
      = (run textVerdict tail (unmaskFrom key i b)).map fun tail => (total, tail) := by
  have hrest : ∀ tail, validateBuf key 0 total total tail extra = some (total, tail) := by
    cases extra with
    | nil => exact fun _ => rfl
    | cons x extra => exact fun _ => if_neg (lt_irrefl total)
  rw [validateBuf_append, validateBuf_inside h.le, h]
  cases run textVerdict tail (unmaskFrom key i b) with
  | none => rfl
  | some tail => exact hrest tail

theorem unmaskFrom_append (i : ℕ) (a b : Bytes) :
    unmaskFrom key i (a ++ b) = unmaskFrom key i a ++ unmaskFrom key (i + a.length) b := by
  induction a generalizing i with
  | nil => rfl
  | cons x a ih => ?_
  rw [cons_append, unmaskFrom, ih, unmaskFrom, length_cons, cons_append,
    Nat.add_right_comm, Nat.add_assoc]

def finish (final : Bool) (tail : Bytes) : Except ValidateError Bytes :=
  if final && tail ≠ [] then .error .error else .ok tail

theorem validateChain_behind (tail : Bytes) (chain : List Bytes) :
    validateChain key 0 total final total tail chain = finish final tail := by
  induction chain with
  | nil =>
    rw [validateChain, if_neg (lt_irrefl total)]
    rfl
  | cons b chain ih => ?_
  have hbuf : validateBuf key 0 total total tail b = some (total, tail) := by
    cases b with
    | nil => rfl
    | cons x b => rw [validateBuf, if_neg (lt_irrefl total)]
  rw [validateChain, hbuf]
  exact ih

variable {payload : Bytes}

/-- **The ends of the buffers do not matter.** -/
theorem validateChain_eq (hchain : chain.flatten = payload ++ extra)
    (h : i + payload.length = total) (tail : Bytes) : validateChain key 0 total final i tail chain
      = match run textVerdict tail (unmaskFrom key i payload) with
        | none => .error .error
        | some tail => finish final tail := by
  induction chain generalizing i tail payload with
  | nil =>
    obtain ⟨rfl, rfl⟩ := append_eq_nil_iff.mp hchain.symm
    obtain rfl : i = total := h
    exact validateChain_behind tail []
  | cons b chain ih => ?_
  rw [flatten_cons] at hchain
  rw [validateChain]
  rcases append_eq_append_iff.mp hchain with ⟨rest, rfl, hrest⟩ | ⟨rest, rfl, hrest⟩
  · -- the payload goes on in the next buffer
    rw [length_append] at h
    rw [validateBuf_inside (by omega), unmaskFrom_append, run_append]
    cases run textVerdict tail (unmaskFrom key i b) with
    | none => rfl
    | some tail => exact ih hrest (by omega) tail
  -- it ends in this one
  rw [validateBuf_end h]
  cases run textVerdict tail (unmaskFrom key i payload) with
  | none => rfl
  | some tail => exact validateChain_behind tail chain

end Piece

theorem validate_eq (hchain : chain.flatten = payload ++ extra) (key : Fin 4 → UInt8) (final : Bool)
    (tail : Bytes) : utf8Validate tail chain 0 payload.length key final
      = match run textVerdict tail (unmask key payload) with
        | none => .error .error
        | some tail => finish final tail := by
  rw [utf8Validate, Nat.zero_add]
  exact validateChain_eq hchain (Nat.zero_add _) tail

/-! ### Text messages -/

/-- A masked frame within the size limit, with its payload at the start of its
buffers. -/
structure Carries (maxFrameSize : ℕ) (f : Frame) (payload : Bytes) : Prop where
  mask : f.1.mask = true
  length : payloadLen f.1 = payload.length
  high : ¬ (f.1.len = 127 ∧ 0x80 ≤ f.1.ext.headD 0)
  size : headerSize f.1 + payload.length ≤ maxFrameSize
  chain : payload <+: f.2.flatten

structure Plain (h : Header) : Prop where
  rsv1 : h.rsv1 = false
  rsv2 : h.rsv2 = false
  rsv3 : h.rsv3 = false

structure Control (maxFrameSize : ℕ) (f : Frame) : Prop where
  carries : ∃ payload, Carries maxFrameSize f payload
  fin : f.1.fin = true
  opcode : f.1.opcode = opPing ∨ f.1.opcode = opPong
  small : f.1.len ≤ 125

structure TextFrame (maxFrameSize : ℕ) (f : Frame) (text : Bytes) : Prop where
  plain : Plain f.1
  carries : ∃ payload, Carries maxFrameSize f payload ∧ text = unmask f.1.key payload

inductive Continues (maxFrameSize : ℕ) : List Frame → Bytes → Prop
  | last {f : Frame} {text : Bytes} : TextFrame maxFrameSize f text → f.1.opcode = opCont →
      f.1.fin = true → Continues maxFrameSize [f] text
  | more {f : Frame} {fs : List Frame} {text rest : Bytes} : TextFrame maxFrameSize f text →
      f.1.opcode = opCont → f.1.fin = false → Continues maxFrameSize fs rest →
      Continues maxFrameSize (f :: fs) (text ++ rest)
  | control {f : Frame} {fs : List Frame} {text : Bytes} : Control maxFrameSize f →
      Continues maxFrameSize fs text → Continues maxFrameSize (f :: fs) text

inductive TextMessage (maxFrameSize : ℕ) : List Frame → Bytes → Prop
  | single {f : Frame} {text : Bytes} : TextFrame maxFrameSize f text → f.1.opcode = opText →
      f.1.fin = true → TextMessage maxFrameSize [f] text
  | first {f : Frame} {fs : List Frame} {text rest : Bytes} : TextFrame maxFrameSize f text →
      f.1.opcode = opText → f.1.fin = false → Continues maxFrameSize fs rest →
      TextMessage maxFrameSize (f :: fs) (text ++ rest)

section Message

variable {maxFrameSize : ℕ} {st : State} {f : Frame}

theorem Carries.fits (h : Carries maxFrameSize f payload) :
    ¬ (maxFrameSize < headerSize f.1 ∨ maxFrameSize - headerSize f.1 < payloadLen f.1) := by
  have := h.size
  have := h.length
  omega

theorem headerRead_control (h : Control maxFrameSize f) :
    headerRead maxFrameSize st f.1 = .ok st := by
  obtain ⟨payload, hc⟩ := h.carries
  have hctrl : 0x08 ≤ f.1.opcode ∧
      ¬ (f.1.opcode ≠ opPing ∧ f.1.opcode ≠ opPong ∧ f.1.opcode ≠ opClose) ∧
      f.1.opcode ≠ opClose := by
    rcases h.opcode with ho | ho <;> rw [ho] <;> decide
  rw [headerRead, if_neg (by simp [hc.mask]), if_neg hc.high, if_pos hctrl.1, if_neg (by simp [h.fin]),
    if_neg hctrl.2.1, if_neg (not_lt.mpr h.small), if_neg (fun hh => hctrl.2.2 hh.1)]
  exact if_neg hc.fits

theorem headerRead_cont (hc : Carries maxFrameSize f payload)
    (hop : f.1.opcode = opCont) (hst : st.contExpected = true) :
    headerRead maxFrameSize st f.1 = .ok { st with contExpected := !f.1.fin } := by
  have hdata : ¬ 0x08 ≤ f.1.opcode := by
    rw [hop]
    decide
  rw [headerRead, if_neg (by simp [hc.mask]), if_neg hc.high, if_neg hdata, if_pos hst,
    if_neg (not_not.mpr hop)]
  exact if_neg hc.fits

theorem headerRead_first (hc : Carries maxFrameSize f payload) (hp : Plain f.1)
    (hop : f.1.opcode = opText) (hst : st.contExpected = false) : headerRead maxFrameSize st f.1
      = .ok { st with text := true, utf8 := [], contExpected := !f.1.fin } := by
  have hdata : ¬ 0x08 ≤ f.1.opcode := by
    rw [hop]
    decide
  rw [headerRead, if_neg (by simp [hc.mask]), if_neg hc.high, if_neg hdata,
    if_neg (by simp [hst]), if_neg (fun hh => hh.2 hop), hp.rsv1, hp.rsv2, hp.rsv3, hop]
  exact if_neg hc.fits

theorem frameProcess_text {payload : Bytes} (hc : Carries maxFrameSize f payload) (hp : Plain f.1)
    (hop : f.1.opcode = opText ∨ f.1.opcode = opCont) (hst : st.text = true) :
    frameProcess st f.1 f.2
      = match run textVerdict st.utf8 (unmask f.1.key payload) with
        | none => .error .invalidUtf8
        | some tail =>
          if f.1.fin && tail ≠ [] then .error .invalidUtf8
          else .ok (.forward, { st with utf8 := tail }) := by
  have hnot : f.1.opcode ≠ opPing ∧ f.1.opcode ≠ opClose ∧
      (f.1.opcode == opText || f.1.opcode == opCont) = true := by
    rcases hop with ho | ho <;> rw [ho] <;> decide
  obtain ⟨extra, hchain⟩ := hc.chain
  rw [frameProcess, if_neg hnot.1, if_neg hnot.2.1, if_pos (by rw [hst, hnot.2.2]; rfl), hp.rsv1,
    hp.rsv2, hp.rsv3, if_neg (by decide), hc.length, validate_eq hchain.symm]
  cases run textVerdict st.utf8 (unmask f.1.key payload) with
  | none => rfl
  | some tail => ?_
  dsimp only [finish]
  by_cases h : (f.1.fin && decide (tail ≠ [])) = true
  · rw [if_pos h, if_pos h]
    rfl
  · rw [if_neg h, if_neg h]

variable {text : Bytes}

theorem frameStep_cont (hf : TextFrame maxFrameSize f text) (hop : f.1.opcode = opCont)
    (hcont : st.contExpected = true) (htext : st.text = true) : frameStep maxFrameSize st f
      = match run textVerdict st.utf8 text with
        | none => .error .invalidUtf8
        | some tail =>
          if f.1.fin && tail ≠ [] then .error .invalidUtf8
          else .ok (.forward, { st with contExpected := !f.1.fin, utf8 := tail }) := by
  obtain ⟨payload, hc, rfl⟩ := hf.carries
  rw [frameStep, headerRead_cont hc hop hcont]
  exact @frameProcess_text _ { st with contExpected := !f.1.fin } _ _ hc hf.plain (.inr hop) htext

theorem frameStep_first (hf : TextFrame maxFrameSize f text) (hop : f.1.opcode = opText)
    (hcont : st.contExpected = false) : frameStep maxFrameSize st f
      = match run textVerdict [] text with
        | none => .error .invalidUtf8
        | some tail =>
          if f.1.fin && tail ≠ [] then .error .invalidUtf8
          else .ok (.forward, { st with text := true, contExpected := !f.1.fin, utf8 := tail }) := by
  obtain ⟨payload, hc, rfl⟩ := hf.carries
  rw [frameStep, headerRead_first hc hf.plain hop hcont]
  exact @frameProcess_text _ { st with text := true, utf8 := [], contExpected := !f.1.fin } _ _ hc
    hf.plain (.inl hop) rfl

theorem frameStep_control (h : Control maxFrameSize f) :
    ∃ outcome, frameStep maxFrameSize st f = .ok (outcome, st) := by
  rw [frameStep, headerRead_control h]
  rcases h.opcode with ho | ho
  · exact ⟨.pong, if_pos ho⟩
  refine ⟨.forward, ?_⟩
  have hnot : f.1.opcode ≠ opPing ∧ f.1.opcode ≠ opClose ∧
      (f.1.opcode == opText || f.1.opcode == opCont) = false := by
    rw [ho]
    decide
  change frameProcess st f.1 f.2 = _
  rw [frameProcess, if_neg hnot.1, if_neg hnot.2.1, hnot.2.2, Bool.and_false, if_neg (by decide)]

def Accepted (maxFrameSize : ℕ) (st : State) (fs : List Frame) : Prop :=
  ∃ st', frameRun maxFrameSize st fs = .ok st'

variable {fs : List Frame}

theorem accepted_cons (hst : st.closed = false) : Accepted maxFrameSize st (f :: fs) ↔
      ∃ r, frameStep maxFrameSize st f = .ok r ∧ Accepted maxFrameSize r.2 fs := by
  rw [Accepted, frameRun, if_neg (by simp [hst])]
  cases frameStep maxFrameSize st f with
  | error e => simp [Except.bind]
  | ok r => simp [Except.bind, Accepted]

variable {r : Option Bytes} {g : Bytes → State}

/-- The last frame is taken if the text ends with it. -/
theorem accepted_last {f : Frame} (hst : st.closed = false) (hfin : f.1.fin = true)
    (hstep : frameStep maxFrameSize st f = match r with | none => .error .invalidUtf8 | some tail => if f.1.fin && tail ≠ [] then .error .invalidUtf8 else .ok (.forward, g tail)) :
    Accepted maxFrameSize st [f] ↔ r = some [] := by
  rw [accepted_cons hst, hstep]
  cases r with
  | none => simp
  | some tail => ?_
  by_cases htail : tail = []
  · subst htail
    simp [Accepted, frameRun]
  · simp [hfin, htail]

/-- Any other frame is taken if the text up to it can be continued. -/
theorem accepted_more {f : Frame} {rest : Bytes} (hst : st.closed = false) (hfin : f.1.fin = false)
    (hstep : frameStep maxFrameSize st f = match r with | none => .error .invalidUtf8 | some tail => if f.1.fin && tail ≠ [] then .error .invalidUtf8 else .ok (.forward, g tail))
    (hrest : ∀ tail, r = some tail → (Accepted maxFrameSize (g tail) fs ↔ run textVerdict tail rest = some [])) :
    Accepted maxFrameSize st (f :: fs) ↔
      (r.bind fun tail => run textVerdict tail rest) = some [] := by
  rw [accepted_cons hst, hstep]
  cases r with
  | none => simp
  | some tail => ?_
  rw [Option.bind_some, ← hrest tail rfl]
  simp [hfin]

/-- **The rest of a message**, by induction over its frames: what is kept is the tail
of the text so far. -/
theorem continues_accepted_iff (h : Continues maxFrameSize fs text) (hclosed : st.closed = false)
    (hcont : st.contExpected = true) (htext : st.text = true) :
    Accepted maxFrameSize st fs ↔ run textVerdict st.utf8 text = some [] := by
  induction h generalizing st with
  | last hf hop hfin => exact accepted_last hclosed hfin (frameStep_cont hf hop hcont htext)
  | @more f fs text rest hf hop hfin _ ih =>
    rw [run_append]
    refine accepted_more hclosed hfin (frameStep_cont hf hop hcont htext) fun tail _ => ?_
    exact ih hclosed (by simp [hfin]) htext
  | control hctrl _ ih => ?_
  obtain ⟨outcome, hstep⟩ := @frameStep_control maxFrameSize st _ hctrl
  rw [accepted_cons hclosed, hstep]
  simpa using ih hclosed hcont htext

end Message

def oneByteFrame (opcode : ℕ) (fin rsv1 : Bool) (c : UInt8) : Frame :=
  ({ fin := fin, rsv1 := rsv1, rsv2 := false, rsv3 := false, opcode := opcode, mask := true, len := 1,
     ext := [], key := fun _ => 0 }, [[c]])

def closeFrame : Frame :=
  ({ fin := true, rsv1 := false, rsv2 := false, rsv3 := false, opcode := opClose, mask := true,
     len := 0, ext := [], key := fun _ => 0 }, [])

def startState : State := ⟨false, false, [], false⟩

end FreeUnit.Ws
