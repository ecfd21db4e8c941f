/-
Normalisation of a complex request target (`nxt_http_parse_complex_target`).

The source walks the target once and writes the path into a buffer of its
own, decoding percent escapes, merging slashes and deleting the last segment
backwards when it meets a `..` segment.  The model is the same automaton on
the list of bytes: the four path states, and the two states inside an escape,
which carry the path state they return to and the high digit.  The output
buffer is kept reversed, so that `*u++ = ch` is a `cons` and a backward
deletion drops from the front.

* `complexPathChar` — one byte in one of the four path states (the `again`
  label of the source).
-/
import FreeUnit.Bytes

namespace FreeUnit

/-- The path states `sw_normal`, `sw_slash`, `sw_dot`, `sw_dot_dot`. -/
inductive PathState where
  | normal
  | slash
  | dot
  | dotDot
  deriving DecidableEq, Repr

/-- All states of the automaton.  `sw_quoted` and `sw_quoted_second` carry
`saved_state`, and the second the digit `high`. -/
inductive TargetState where
  | path (state : PathState)
  | quoted (saved : PathState)
  | quotedSecond (saved : PathState) (high : UInt8)
  deriving DecidableEq, Repr

/-- What one byte of the target does.  `u` is the output buffer, reversed. -/
inductive TargetStep where
  /-- `continue` with a new state and output. -/
  | next (state : TargetState) (u : Bytes)
  /-- `goto args`: the query starts after this byte. -/
  | args (u : Bytes)
  /-- `goto done`: the fragment starts at this byte. -/
  | done (u : Bytes)
  /-- `NXT_HTTP_PARSE_INVALID`. -/
  | invalid
  deriving DecidableEq, Repr

/-- The backward scan of `sw_dot_dot`: `u -= 5`, then down to the previous
slash, which stays; `none` when the scan leaves the buffer.  On entry the
output ends in `/..`, so five bytes back is the last byte but one of the
segment to delete. -/
def dropSegment (u : Bytes) : Option Bytes :=
  match (u.drop 4).dropWhile (· != 0x2F) with
  | [] => none
  | rest => some rest

/-- The bytes the bitmap `nxt_http_normal` does not call normal:
`\0 \n \r ' ' # % + . / ?`. -/
def httpIsNormal (c : UInt8) : Bool :=
  !(c == 0x00 || c == 0x0A || c == 0x0D || c == 0x20 || c == 0x23 || c == 0x25 ||
    c == 0x2B || c == 0x2E || c == 0x2F || c == 0x3F)

def complexPathChar (state : PathState) (u : Bytes) (ch : UInt8) : TargetStep :=
  match state with
  | .normal =>
    if httpIsNormal ch then .next (.path .normal) (ch :: u)
    else if ch = 0x2F then .next (.path .slash) (ch :: u)   -- '/'
    else if ch = 0x25 then .next (.quoted .normal) u        -- '%'
    else if ch = 0x3F then .args u                          -- '?'
    else if ch = 0x23 then .done u                          -- '#'
    else .next (.path .normal) (ch :: u)
  | .slash =>
    if httpIsNormal ch then .next (.path .normal) (ch :: u)
    else if ch = 0x2F then .next (.path .slash) u
    else if ch = 0x2E then .next (.path .dot) (ch :: u)     -- '.'
    else if ch = 0x25 then .next (.quoted .slash) u
    else if ch = 0x3F then .args u
    else if ch = 0x23 then .done u
    else .next (.path .normal) (ch :: u)
  | .dot =>
    if httpIsNormal ch then .next (.path .normal) (ch :: u)
    else if ch = 0x2F then .next (.path .slash) (u.drop 1)  -- u--
    else if ch = 0x2E then .next (.path .dotDot) (ch :: u)
    else if ch = 0x25 then .next (.quoted .dot) u
    else if ch = 0x3F then .args (u.drop 1)
    else if ch = 0x23 then .done (u.drop 1)
    else .next (.path .normal) (ch :: u)
  | .dotDot =>
    if httpIsNormal ch then .next (.path .normal) (ch :: u)
    else if ch = 0x2F ∨ ch = 0x3F ∨ ch = 0x23 then
      match dropSegment u with
      | none => .invalid
      | some u' =>
        if ch = 0x3F then .args u'
        else if ch = 0x23 then .done u'
        else .next (.path .slash) u'
    else if ch = 0x25 then .next (.quoted .dotDot) u
    else .next (.path .normal) (ch :: u)

/-- The second digit of an escape, by its two branches.  A decoded byte that
is not settled here is handled in the state the escape interrupted. -/
def complexQuotedChar (encodedSlashes : Bool) (saved : PathState) (high : UInt8) (u : Bytes)
    (ch : UInt8) : TargetStep :=
  match hexDigit ch with
  | none => .invalid
  | some low =>
    let c := high <<< 4 + low
    if isDigit ch then
      if c = 0x25 then
        -- the escape `%25`
        .next (.path .normal)
          (if encodedSlashes then 0x35 :: 0x32 :: 0x25 :: u else 0x25 :: u)
      else if c = 0x23 then .next (.path .normal) (0x23 :: u)
      else if c = 0x00 then .invalid
      else complexPathChar saved u c
    else if c = 0x3F then .next (.path .normal) (c :: u)
    else if c = 0x2F ∧ encodedSlashes then
      -- the escape is written back with its own letter, 'f' or 'F'
      .next (.path .normal) (ch :: 0x32 :: 0x25 :: u)
    else complexPathChar saved u c

def complexChar (encodedSlashes : Bool) (state : TargetState) (u : Bytes) (ch : UInt8) :
    TargetStep :=
  match state with
  | .path s => complexPathChar s u ch
  | .quoted saved =>
    match hexDigit ch with
    | none => .invalid
    | some high => .next (.quotedSecond saved high) u
  | .quotedSecond saved high => complexQuotedChar encodedSlashes saved high u ch

/-- What `nxt_http_parse_complex_target` stores in the parser: the path, the
arguments (`none` when it leaves them alone), and whether it has set
`quoted_target`. -/
structure ComplexTarget where
  path : Bytes
  args : Option Bytes
  quoted : Bool
  deriving DecidableEq, Repr

/-- The end of the target: a last `.` or `..` is handled as if a slash
followed, and an unfinished escape is an error. -/
def complexEnd (state : TargetState) (u : Bytes) (quoted : Bool) : Option ComplexTarget :=
  match state with
  | .path .normal | .path .slash => some ⟨u.reverse, none, quoted⟩
  | .path .dot => some ⟨(u.drop 1).reverse, none, quoted⟩
  | .path .dotDot => (dropSegment u).map fun u' => ⟨u'.reverse, none, quoted⟩
  | .quoted _ | .quotedSecond _ _ => none

def complexLoop (encodedSlashes : Bool) :
    TargetState → Bytes → Bool → Bytes → Option ComplexTarget
  | state, u, quoted, [] => complexEnd state u quoted
  | state, u, quoted, ch :: p =>
    -- `rp->quoted_target = 1` on entry to `sw_quoted`
    let quoted := quoted || state matches .quoted _
    match complexChar encodedSlashes state u ch with
    | .next state' u' => complexLoop encodedSlashes state' u' quoted p
    | .args u' => some ⟨u'.reverse, some (p.takeWhile (· != 0x23)), quoted⟩
    | .done u' => some ⟨u'.reverse, none, quoted⟩
    | .invalid => none

/-- `nxt_http_parse_complex_target`: `none` is `NXT_HTTP_PARSE_INVALID`. -/
def httpParseComplexTarget (encodedSlashes : Bool) (target : Bytes) : Option ComplexTarget :=
  complexLoop encodedSlashes (.path .normal) [] false target

end FreeUnit
