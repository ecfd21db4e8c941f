/-
The resumable HTTP request parser (`nxt_http_parse_request`).

The parser is a handler stored in the parser record and called again on every
read until it returns something else than `NXT_OK`.  A handler gets the bytes
from `*pos` to the end of the buffer; when they run out it returns
`NXT_AGAIN`, and is called later with the bytes it left and those of the next
read.  The model follows that protocol: a handler is a function of the record
and the unconsumed bytes, and returns what it leaves.

* `parseFieldName`, `parseFieldValue`, `parseFieldEnd` — the header fields.

Strings of the record point into the read buffers in the source.  Buffers are
copied when the connection moves to a larger one and kept until the request
ends, so the model stores the bytes themselves.
-/
import FreeUnit.ComplexTarget
import FreeUnit.Streaming

namespace FreeUnit

open Streaming

inductive ParseError where
  /-- `NXT_HTTP_PARSE_INVALID` -/
  | invalid
  /-- `NXT_HTTP_PARSE_UNSUPPORTED_VERSION` -/
  | unsupportedVersion
  /-- `NXT_HTTP_PARSE_TOO_LARGE_FIELD` -/
  | tooLargeField
  deriving DecidableEq, Repr

/-- `nxt_http_field_t`. -/
structure HttpField where
  name : Bytes
  value : Bytes
  hash : UInt16
  skip : Bool := false
  hopbyhop : Bool := false
  deriving DecidableEq, Repr

/-- The flags the target scan leaves in the parser between reads. -/
structure TargetFlags where
  complexTarget : Bool := false
  quotedTarget : Bool := false
  deriving DecidableEq, Repr

def httpFieldHashInit : UInt32 := 159406

def httpFieldHashChar (h : UInt32) (c : UInt8) : UInt32 := (h <<< 4) + h + c.toUInt32

/-- `nxt_http_field_hash_end`, as it is stored in the field. -/
def httpFieldHashEnd (h : UInt32) : UInt16 := ((h >>> 16) ^^^ h).toUInt16

/-- `nxt_http_request_parse_t`, apart from the handler.  A string of the
record is the bytes it covers; `fieldName` and `fieldValue` hold what has been
read of an unfinished field. -/
structure RequestParse where
  method : Bytes := []
  target : Bytes := []
  path : Bytes := []
  args : Bytes := []
  version : Bytes := []
  fields : List HttpField := []
  fieldName : Bytes := []
  fieldValue : Bytes := []
  fieldHash : UInt32 := httpFieldHashInit
  skipField : Bool := false
  discardUnsafeFields : Bool := false
  discardFields : Bool := false
  encodedSlashes : Bool := false
  flags : TargetFlags := {}
  deriving DecidableEq, Repr

inductive ParseHandler where
  | requestLine
  | fieldName
  | fieldValue
  | fieldEnd
  deriving DecidableEq, Repr

/-- What a handler returns, with the record and the bytes it leaves. -/
inductive ParseResult where
  /-- `NXT_OK`: a field has been read, the next handler is the field name. -/
  | ok (rp : RequestParse) (b : Bytes)
  /-- `NXT_AGAIN`, with the handler that goes on. -/
  | again (handler : ParseHandler) (rp : RequestParse) (b : Bytes)
  /-- `NXT_DONE` -/
  | done (rp : RequestParse) (b : Bytes)
  /-- An error; the connection reads no further. -/
  | error (code : ParseError) (rp : RequestParse)
  deriving DecidableEq, Repr

/-! ### The request line -/

/-- The traps of `nxt_http_target_chars`. -/
inductive TargetTrap where
  | space
  | hash
  | bad
  | slash
  | dot
  | argsMark
  | quoteMark
  | plain
  deriving DecidableEq, Repr

def httpTargetChars (c : UInt8) : TargetTrap :=
  if c = 0x20 then .space
  else if c = 0x23 then .hash                             -- '#'
  else if c = 0x00 ∨ c = 0x0A ∨ c = 0x0D then .bad
  else if c = 0x2F then .slash                            -- '/'
  else if c = 0x2E then .dot                              -- '.'
  else if c = 0x3F then .argsMark                         -- '?'
  else if c = 0x25 then .quoteMark                        -- '%'
  else .plain

/-- The variables of the target scan; positions count from `target_start`.
`rest` tells `rest_of_target` from `continue_target`. -/
structure TargetScan where
  afterSlash : ℕ := 1
  args : Option ℕ := none
  rest : Bool := false
  targetEnd : ℕ := 0
  flags : TargetFlags := {}
  deriving DecidableEq, Repr

inductive TargetChar where
  /-- The loop goes on. -/
  | next (st : TargetScan)
  /-- `goto space_after_target` -/
  | space (st : TargetScan)
  /-- `NXT_HTTP_PARSE_INVALID` -/
  | bad
  deriving DecidableEq, Repr

/-- One byte of the loops `continue_target` and `rest_of_target`, at position
`p`. -/
def targetChar (p : ℕ) (st : TargetScan) (c : UInt8) : TargetChar :=
  match httpTargetChars c with
  | .space => .space { st with targetEnd := p }
  | .bad => .bad
  | .hash => .next { st with flags.complexTarget := true, rest := true }
  | .plain => .next st
  | .slash =>
    if st.rest then .next st
    else if st.afterSlash = p then .next { st with flags.complexTarget := true, rest := true }
    else .next { st with afterSlash := p + 1 }
  | .dot =>
    if st.rest then .next st
    else if st.afterSlash = p then .next { st with flags.complexTarget := true, rest := true }
    else .next st
  | .argsMark =>
    if st.rest then .next st else .next { st with args := some (p + 1), rest := true }
  | .quoteMark =>
    if st.rest then .next st else .next { st with flags.quotedTarget := true, rest := true }

structure RequestLine where
  scan : TargetScan
  version : Bytes
  deriving DecidableEq, Repr

inductive LineScan where
  /-- `NXT_AGAIN`: only the flags are kept. -/
  | again (flags : TargetFlags)
  /-- `NXT_HTTP_PARSE_INVALID` -/
  | invalid
  /-- `NXT_HTTP_PARSE_UNSUPPORTED_VERSION` -/
  | unsupportedVersion (line : RequestLine)
  /-- The line has ended, `rest` follows its line feed. -/
  | line (line : RequestLine) (rest : Bytes)
  deriving DecidableEq, Repr

/-- `HTTP/d.d`, the five bytes of the name first. -/
def isHttpVersion (v : Bytes) : Bool :=
  match v with
  | [h, t1, t2, p, slash, major, point, minor] =>
    [h, t1, t2, p, slash] == str "HTTP/" && isDigit major && point == 0x2E && isDigit minor
  | _ => false

/-- `HTTP/1.d` -/
def isHttp1Version (v : Bytes) : Bool := isHttpVersion v && v.take 7 == str "HTTP/1."

/-- The test of the short path: the bytes up to the end of the buffer may
still become a version. -/
def isVersionPrefix (v : Bytes) : Bool :=
  v.take 5 == (str "HTTP/").take v.length &&
    match v.drop 5 with
    | [] => true
    | [major] => isDigit major
    | [major, point] => isDigit major && point == 0x2E
    | [major, point, minor] => isDigit major && point == 0x2E && isDigit minor
    | _ => true

/-- The long path of `space_after_target` once `p[9]` is a CR or LF: `s` starts
after the space. -/
def versionEnd (st : TargetScan) (s : Bytes) : LineScan :=
  let version := s.take 8
  if isHttp1Version version then
    match s.drop 8 with
    | [] => .invalid
    | c :: s' =>
      if c = 0x0D then
        match s' with
        | [] => .again st.flags
        | c' :: s'' => if c' = 0x0A then .line ⟨st, version⟩ s'' else .invalid
      else .line ⟨st, version⟩ s'
  else if isHttpVersion version then .unsupportedVersion ⟨st, version⟩
  else .invalid

inductive TargetLabel where
  /-- In one of the two loops over the target. -/
  | target
  /-- After a space that may end the target. -/
  | spaceAfterTarget
  deriving DecidableEq, Repr

/-- The target and the version, at position `p` of the target.

After a space the source looks at the next nine bytes when they are there,
and otherwise skips all spaces and waits if the bytes left may start a
version.  When it goes on with the target, the long path examines the byte
after the space and the short path steps over the first byte that is not a
space. -/
def scanTarget : TargetLabel → ℕ → TargetScan → Bytes → LineScan
  | _, _, st, [] => .again st.flags
  | .target, p, st, c :: s =>
    match targetChar p st c with
    | .next st' => scanTarget .target (p + 1) st' s
    | .space st' => scanTarget .spaceAfterTarget (p + 1) st' s
    | .bad => .invalid
  | .spaceAfterTarget, p, st, c :: s =>
    if s.length < 8 then
      -- end - p < 10
      if c = 0x20 then scanTarget .spaceAfterTarget (p + 1) st s
      else if isVersionPrefix (c :: s) then .again st.flags
      else scanTarget .target (p + 1) st s
    else if (c :: s)[8]? = some 0x0D ∨ (c :: s)[8]? = some 0x0A then versionEnd st (c :: s)
    else if c = 0x20 then scanTarget .spaceAfterTarget (p + 1) st s
    else
      match targetChar p st c with
      | .next st' => scanTarget .target (p + 1) st' s
      | .space st' => scanTarget .spaceAfterTarget (p + 1) st' s
      | .bad => .invalid

/-- `ch >= 'A' && ch <= 'Z'`, or one of the two other bytes of a method. -/
def isMethodChar (c : UInt8) : Bool := (0x41 ≤ c && c ≤ 0x5A) || c == 0x5F || c == 0x2D

def isCrlf (c : UInt8) : Bool := c == 0x0D || c == 0x0A

/-- The method and what follows its space: CR and LF before the method are
skipped.  `none` stands for `NXT_AGAIN`, `some none` for an error. -/
def scanMethod (b : Bytes) : Option (Option (Bytes × Bytes)) :=
  let b := b.dropWhile isCrlf
  match b.dropWhile isMethodChar with
  | [] => none
  | c :: s => if c = 0x20 then some (some (b.takeWhile isMethodChar, s)) else some none

/-- `nxt_http_parse_unusual_target`: surplus spaces, then the slash.  The same
two codes as in `scanMethod`; the result starts after the slash. -/
def scanTargetStart (s : Bytes) : Option (Option Bytes) :=
  match s.dropWhile (· == 0x20) with
  | [] => none
  | c :: t => if c = 0x2F then some (some t) else some none

/-- The scan of `nxt_http_parse_request_line`: the method and the bytes from
the target on, and how the scan of the target ends. -/
def scanLine (b : Bytes) : Bytes × Bytes × LineScan :=
  match scanMethod b with
  | none => ([], [], .again {})
  | some none => ([], [], .invalid)
  | some (some (method, s)) =>
    match scanTargetStart s with
    | none => (method, [], .again {})
    | some none => (method, [], .invalid)
    | some (some t) => (method, 0x2F :: t, scanTarget .target 1 {} t)

/-! ### The header fields -/

def httpMaxFieldName : ℕ := 0xFF

def httpMaxFieldValue : ℕ := 0x7FFFFFFF

/-- The table `normal`: 0 ends a field name, 1 marks an unsafe byte, and any
other entry is the byte in lower case. -/
def fieldNameNormal (c : UInt8) : UInt8 :=
  if 0x41 ≤ c ∧ c ≤ 0x5A then c ||| 0x20
  else if (0x61 ≤ c ∧ c ≤ 0x7A) ∨ isDigit c ∨ c = 0x2D then c
  else if c ∈ str "!#$%&'*+.^_\x60|~" then 1
  else 0

/-- The scan of a field name: the hash, `skip_field` and the bytes from the
one that ends the name. -/
def scanName (discardUnsafe : Bool) : UInt32 → Bool → Bytes → UInt32 × Bool × Bytes
  | hash, skip, [] => (hash, skip, [])
  | hash, skip, ch :: p =>
    let c := fieldNameNormal ch
    if c = 0 then (hash, skip, ch :: p)
    else if c = 1 then scanName discardUnsafe (httpFieldHashChar hash ch) discardUnsafe p
    else scanName discardUnsafe (httpFieldHashChar hash c) skip p

def isBlank (c : UInt8) : Bool := c == 0x20 || c == 0x09

/-- The bytes the scan of a field value steps over: those
`nxt_http_lookup_field_end` does, and tabs. -/
def isValueChar (c : UInt8) : Bool := 0x20 ≤ c || c == 0x09

def RequestParse.currentField (rp : RequestParse) : HttpField :=
  { name := rp.fieldName, value := rp.fieldValue, hash := httpFieldHashEnd rp.fieldHash }

/-- The line feed of `nxt_http_parse_field_end`: a field is stored, or the
header ends. -/
def fieldLinefeed (rp : RequestParse) (b : Bytes) : ParseResult :=
  if rp.fieldName = [] then .done rp b
  else
    .ok { rp with
      fields := if rp.skipField ∨ rp.discardFields then rp.fields
        else rp.fields ++ [rp.currentField],
      skipField := false,
      fieldHash := httpFieldHashInit, fieldName := [], fieldValue := [] } b

def parseFieldEnd (rp : RequestParse) (b : Bytes) : ParseResult :=
  match b with
  | [] => .again .fieldEnd rp b
  | c :: s =>
    if c = 0x0D then
      match s with
      | [] => .again .fieldEnd rp b
      | c' :: s' => if c' = 0x0A then fieldLinefeed rp s' else .error .invalid rp
    else if c = 0x0A then fieldLinefeed rp s
    else .error .invalid rp

def trimValue (v : Bytes) : Bytes := v.rdropWhile isBlank

/-- `nxt_http_parse_field_value` from the first byte that is not blank; the
bytes scanned by an earlier call are skipped. -/
def scanFieldValue (rp : RequestParse) (start : Bytes) : ParseResult :=
  match (start.drop rp.fieldValue.length).dropWhile isValueChar with
  | [] =>
    if start.length > httpMaxFieldValue then .error .tooLargeField rp
    else .again .fieldValue { rp with fieldValue := start } start
  | c :: p =>
    if !isCrlf c then .error .invalid rp
    else
      let value := start.take (start.length - (c :: p).length)
      if 0x7F ∈ value then .error .invalid rp
      else if (trimValue value).length > httpMaxFieldValue then .error .tooLargeField rp
      else parseFieldEnd { rp with fieldValue := trimValue value } (c :: p)

def parseFieldValue (rp : RequestParse) (b : Bytes) : ParseResult :=
  match b.dropWhile isBlank with
  | [] => .again .fieldValue rp []
  | ch :: s => scanFieldValue rp (ch :: s)

/-- `nxt_http_parse_field_name` after its scan, with the hash and `skip_field`
of the scan and the bytes it left: none at the end of the buffer, otherwise
those from `name_end`. -/
def fieldNameEnd (rp : RequestParse) (b : Bytes) (hash : UInt32) (skip : Bool) :
    Bytes → ParseResult
  | [] =>
    if b.length > httpMaxFieldName then .error .tooLargeField rp
    else .again .fieldName { rp with fieldHash := hash, skipField := skip, fieldName := b } b
  | c :: p =>
    let len := b.length - (c :: p).length
    if c = 0x3A then                                      -- ':'
      if len = 0 then .error .invalid rp
      else if len > httpMaxFieldName then .error .tooLargeField rp
      else
        parseFieldValue
          { rp with fieldHash := hash, skipField := skip, fieldName := b.take len } p
    else if len ≠ 0 then .error .invalid rp
    else parseFieldEnd { rp with skipField := skip } b

/-- `nxt_http_parse_field_name`; the bytes scanned by an earlier call are
skipped. -/
def parseFieldName (rp : RequestParse) (b : Bytes) : ParseResult :=
  let scan := scanName rp.discardUnsafeFields rp.fieldHash rp.skipField
    (b.drop rp.fieldName.length)
  fieldNameEnd rp b scan.1 scan.2.1 scan.2.2

/-! ### The parser -/

def TargetFlags.or (f g : TargetFlags) : TargetFlags :=
  ⟨f.complexTarget || g.complexTarget, f.quotedTarget || g.quotedTarget⟩

/-- The record after a complete request line; `none` when the normalisation of
its target fails. -/
def RequestParse.setLine (rp : RequestParse) (method : Bytes) (t : Bytes) (line : RequestLine) :
    Option RequestParse :=
  let flags := rp.flags.or line.scan.flags
  let target := t.take line.scan.targetEnd
  let rp := { rp with method := method, target := target, version := line.version, flags := flags }
  if flags.complexTarget || flags.quotedTarget then
    (httpParseComplexTarget rp.encodedSlashes target).map fun r =>
      { rp with path := r.path, args := r.args.getD rp.args,
                flags.quotedTarget := flags.quotedTarget || r.quoted }
  else
    match line.scan.args with
    | some args => some { rp with path := target.take (args - 1), args := target.drop args }
    | none => some { rp with path := target }

def parseRequestLine (rp : RequestParse) (b : Bytes) : ParseResult :=
  match scanLine b with
  | (_, _, .again flags) => .again .requestLine { rp with flags := rp.flags.or flags } b
  | (_, _, .invalid) => .error .invalid rp
  | (method, t, .unsupportedVersion line) =>
    .error .unsupportedVersion
      { rp with method := method, target := t.take line.scan.targetEnd, version := line.version }
  | (method, t, .line line rest) =>
    match rp.setLine method t line with
    | none => .error .invalid rp
    | some rp' => parseFieldName rp' rest

/-- The call through `rp->handler`. -/
def callHandler : ParseHandler → RequestParse → Bytes → ParseResult
  | .requestLine => parseRequestLine
  | .fieldName => parseFieldName
  | .fieldValue => parseFieldValue
  | .fieldEnd => parseFieldEnd

/-- `do { rc = rp->handler(...) } while (rc == NXT_OK)`.  Every field consumes
its line feed, so the fuel of `httpParseRequest` is never used up. -/
def parseLoop : ℕ → ParseHandler → RequestParse → Bytes → ParseResult
  | 0, _, rp, b => .ok rp b
  | fuel + 1, h, rp, b =>
    match callHandler h rp b with
    | .ok rp' b' => parseLoop fuel .fieldName rp' b'
    | r => r

/-- `nxt_http_parse_request`, with the handler of the last call. -/
def httpParseRequest (h : ParseHandler) (rp : RequestParse) (b : Bytes) : ParseResult :=
  parseLoop (b.length + 1) h rp b

/-- `nxt_http_parse_request_init`, with the options its callers set. -/
def httpParseRequestInit (discardUnsafeFields discardFields encodedSlashes : Bool) :
    RequestParse :=
  { discardUnsafeFields := discardUnsafeFields, discardFields := discardFields,
    encodedSlashes := encodedSlashes }

/-- The parser between two reads: its handler, its record and the bytes the
last call left. -/
structure ParserState where
  handler : ParseHandler := .requestLine
  rp : RequestParse
  pending : Bytes := []
  deriving DecidableEq, Repr

/-- One read: it is added to the bytes left, and the parser is called. -/
def parseRead (s : ParserState) (read : Bytes) : Step ParserState ParseResult :=
  match httpParseRequest s.handler s.rp (s.pending ++ read) with
  | .again h rp b => .more ⟨h, rp, b⟩
  | r => .stop r

def ParseResult.leave (r : ParseResult) (more : Bytes) : ParseResult :=
  match r with
  | .done rp b => .done rp (b ++ more)
  | r => r

/-- The calls the connection makes, one for each read, as long as the parser
asks for more. -/
def parseReads (s : ParserState) (reads : List Bytes) : Step ParserState ParseResult :=
  feed parseRead ParseResult.leave s reads

end FreeUnit
