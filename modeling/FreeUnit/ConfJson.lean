/-
The JSON parser of the configuration (`nxt_conf_json_parse`).

A position in the text is the bytes from there to the end.  The recursion of
`nxt_conf_json_parse_value` is on the levels of nesting that are still
allowed, the loops over elements and members are on how many of them still
are, so the limits of the source are what makes the functions total.

* `jsonSkipSpace` — white space and comments;
* `jsonParseNumber` — a number is kept as its text, and `strtod` says which
  kind it is;
* `jsonParseValue`, `confJsonParse` — values, and a whole payload.
-/
import FreeUnit.ConfTree

namespace FreeUnit

/-! ### Errors -/

/-- What `nxt_conf_json_parse_error` stores: a position and a text. -/
structure JsonError where
  pos : Bytes
  detail : String
  deriving DecidableEq, Repr

/-- A result of the parser.  The error is absent where the source returns
`NULL` without setting it. -/
abbrev JsonResult (α : Type) := Except (Option JsonError) α

/-- `nxt_conf_json_parse_error`, and the `NULL` that follows it. -/
def jsonError {α : Type} (pos : Bytes) (detail : String) : JsonResult α :=
  .error (some ⟨pos, detail⟩)

def emptyPayload : String :=
  "An empty JSON payload isn't allowed.  It must be either a literal (null, true, or false), " ++
    "a number, a string (in double quotes \"\"), an array (with brackets []), or an object " ++
    "(with braces \x7b\x7d)."

def afterTheEnd : String := "Unexpected character after the end of a valid JSON value."

def tooDeep : String := "JSON nesting exceeds the maximum supported depth."

def valueExpected : String :=
  "A valid JSON value is expected here.  It must be either a literal (null, true, or false), " ++
    "a number, a string (in double quotes \"\"), an array (with brackets []), or an object " ++
    "(with braces \x7b\x7d)."

def objectNotClosed : String :=
  "Unexpected end of JSON payload.  There's an object without a closing brace (\x7d)."

def nameExpected : String :=
  "A double quote (\") is expected here.  There must be a valid JSON object member starts with " ++
    "a name, which is a string enclosed in double quotes."

def tooManyMembers : String := "JSON object has too many members."

def duplicateMember : String :=
  "Duplicate object member.  All JSON object members must have unique names."

def memberWithoutValue : String :=
  "Unexpected end of JSON payload.  There's an object member without a value."

def colonExpected : String :=
  "A colon (:) is expected here.  There must be a colon after a JSON member name."

def memberSeparator : String :=
  "Either a closing brace (\x7d) or a comma (,) is expected here.  Each JSON object must be " ++
    "enclosed in braces and its members must be separated by commas."

def arrayNotClosed : String :=
  "Unexpected end of JSON payload.  There's an array without a closing bracket (])."

def tooManyElements : String := "JSON array has too many elements."

def elementSeparator : String :=
  "Either a closing bracket (]) or a comma (,) is expected here.  Each array must be enclosed " ++
    "in brackets and its members must be separated by commas."

def controlCharacter : String :=
  "Unexpected character.  All control characters in a JSON string must be escaped."

def unexpectedBackslash : String :=
  "Unexpected backslash.  A literal backslash in a JSON string must be escaped with a second " ++
    "backslash (\\\\)."

def invalidEscape : String :=
  "Invalid escape sequence.  An escape sequence in a JSON string must start with a backslash, " ++
    "followed by the lowercase letter u, followed by four hexadecimal digits (\\uXXXX)."

def stringNotClosed : String :=
  "Unexpected end of JSON payload.  There's a string without a final double quote (\")."

def stringTooLong : String :=
  "The string is too long.  Such a long JSON string value is not supported."

def illegalPair : String :=
  "Invalid JSON encoding sequence.  This 12-byte sequence composes an illegal UTF-16 " ++
    "surrogate pair."

def illegalCharacter : String :=
  "Invalid JSON encoding sequence.  This 6-byte sequence does not represent a valid UTF " ++
    "character."

def fractionWithoutDigit : String :=
  "The number is invalid.  A fraction part in JSON numbers must contain at least one digit."

def leadingZeros : String :=
  "The number is invalid.  Leading zeros are not allowed in JSON numbers."

def exponentWithoutDigit : String :=
  "The number is invalid.  An exponent part in JSON numbers must contain at least one digit."

def numberTooLong : String :=
  "The number is too long.  Such a long JSON number value is not supported."

def numberOutOfRange : String :=
  "The number is out of representable range.  Such JSON number value is not supported."

/-! ### White space and comments -/

/-- The states of `nxt_conf_json_skip_space`; behind a slash they carry its
position, the variable `start`. -/
inductive SpaceState where
  | normal
  | afterSlash (start : Bytes)
  | singleComment (start : Bytes)
  | multiComment (start : Bytes)
  | afterAsterisk (start : Bytes)

/-- `' '`, `'\t'`, `'\n'` or `'\r'`. -/
def isJsonSpace (ch : UInt8) : Bool := ch == 0x20 || ch == 0x09 || ch == 0x0A || ch == 0x0D

/-- The loop of `nxt_conf_json_skip_space`.  An unfinished comment gives the
position of its slash. -/
def skipSpaceLoop : SpaceState → Bytes → Bytes
  | .normal, [] => []
  | .afterSlash start, [] | .singleComment start, [] | .multiComment start, []
  | .afterAsterisk start, [] => start
  | .normal, ch :: p =>
    if isJsonSpace ch then skipSpaceLoop .normal p
    else if ch = 0x2F then skipSpaceLoop (.afterSlash (ch :: p)) p
    else ch :: p
  | .afterSlash start, ch :: p =>
    if ch = 0x2F then skipSpaceLoop (.singleComment start) p
    else if ch = 0x2A then skipSpaceLoop (.multiComment start) p
    else start
  | .singleComment start, ch :: p =>
    skipSpaceLoop (if ch = 0x0A then .normal else .singleComment start) p
  | .multiComment start, ch :: p =>
    skipSpaceLoop (if ch = 0x2A then .afterAsterisk start else .multiComment start) p
  | .afterAsterisk start, ch :: p =>
    skipSpaceLoop
      (if ch = 0x2F then .normal
        else if ch = 0x2A then .afterAsterisk start
        else .multiComment start) p

def jsonSkipSpace (p : Bytes) : Bytes := skipSpaceLoop .normal p

/-! ### Strings -/

def confMaxString : ℕ := int32Max

/-- The states of the scan; behind a backslash it carries the position of the
backslash, inside `\uXXXX` the number of the digit. -/
inductive StrState where
  | usual
  | escape (slash : Bytes)
  | encoded (digit : ℕ)

def simpleEscape (ch : UInt8) : Option UInt8 :=
  if ch = 0x22 then some 0x22        -- '"'
  else if ch = 0x5C then some 0x5C   -- '\\'
  else if ch = 0x2F then some 0x2F   -- '/'
  else if ch = 0x6E then some 0x0A   -- 'n'
  else if ch = 0x72 then some 0x0D   -- 'r'
  else if ch = 0x74 then some 0x09   -- 't'
  else if ch = 0x62 then some 0x08   -- 'b'
  else if ch = 0x66 then some 0x0C   -- 'f'
  else none

/-- The first loop of `nxt_conf_json_parse_string`: `surplus` and the position
of the closing quote. -/
def strScan : StrState → ℕ → Bytes → JsonResult (ℕ × Bytes)
  | _, _, [] => jsonError [] stringNotClosed
  | .usual, surplus, ch :: p =>
    if ch = 0x22 then .ok (surplus, ch :: p)
    else if ch = 0x5C then strScan (.escape (ch :: p)) surplus p
    else if 0x20 ≤ ch then strScan .usual surplus p
    else jsonError (ch :: p) controlCharacter
  | .escape slash, surplus, ch :: p =>
    if (simpleEscape ch).isSome then strScan .usual (surplus + 1) p
    else if ch = 0x75 then strScan (.encoded 1) (surplus + 3) p
    else jsonError slash unexpectedBackslash
  | .encoded digit, surplus, ch :: p =>
    if (hexDigit ch).isSome then
      strScan (if digit = 4 then .usual else .encoded (digit + 1)) surplus p
    else jsonError (ch :: p) invalidEscape

/-- `p[i] >= 'A' ? 10 + ((p[i] & ~0x20) - 'A') : p[i] - '0'` -/
def encodedDigit (ch : UInt8) : ℕ :=
  if 0x41 ≤ ch then 10 + ((ch &&& 0xDF).toNat - 0x41) else ch.toNat - 0x30

def encodedValue (a b c d : UInt8) : ℕ :=
  ((encodedDigit a * 16 + encodedDigit b) * 16 + encodedDigit c) * 16 + encodedDigit d

def utf8Encode (u : ℕ) : Bytes :=
  if u < 0x80 then [UInt8.ofNat u]
  else if u < 0x800 then [UInt8.ofNat (0xC0 + u / 64), UInt8.ofNat (0x80 + u % 64)]
  else if u < 0x10000 then
    [UInt8.ofNat (0xE0 + u / 4096), UInt8.ofNat (0x80 + u / 64 % 64), UInt8.ofNat (0x80 + u % 64)]
  else if u < 0x110000 then
    [UInt8.ofNat (0xF0 + u / 262144), UInt8.ofNat (0x80 + u / 4096 % 64),
      UInt8.ofNat (0x80 + u / 64 % 64), UInt8.ofNat (0x80 + u % 64)]
  else []

/-- The second loop of `nxt_conf_json_parse_string`, from `p` to `last`; the
argument is what lies between.  The scan has left no incomplete escape, so the
last branches of the two inner matches are never taken for one. -/
def strDecode (last : Bytes) : Bytes → JsonResult Bytes
  | [] => .ok []
  | ch :: p =>
    if ch ≠ 0x5C then (ch :: ·) <$> strDecode last p
    else
      match p with
      | [] => jsonError (ch :: p ++ last) unexpectedBackslash
      | c :: p' =>
        match simpleEscape c with
        | some b => (b :: ·) <$> strDecode last p'
        | none =>
          match p' with
          | d0 :: d1 :: d2 :: d3 :: q =>
            let utf := encodedValue d0 d1 d2 d3
            if utf < 0xD800 ∨ utf > 0xDFFF then (utf8Encode utf ++ ·) <$> strDecode last q
            else if utf > 0xDBFF then jsonError (ch :: p ++ last) illegalCharacter
            else
              match q with
              | e0 :: e1 :: d4 :: d5 :: d6 :: d7 :: q' =>
                if e0 ≠ 0x5C ∨ e1 ≠ 0x75 then jsonError (ch :: p ++ last) illegalCharacter
                else
                  let low := encodedValue d4 d5 d6 d7
                  if low < 0xDC00 ∨ low > 0xDFFF then jsonError (ch :: p ++ last) illegalPair
                  else
                    (utf8Encode ((utf - 0xD800) * 1024 + (low - 0xDC00) + 0x10000) ++ ·) <$>
                      strDecode last q'
              | _ => jsonError (ch :: p ++ last) illegalCharacter
          | _ => jsonError (ch :: p ++ last) invalidEscape

/-- `nxt_conf_json_parse_string`; `p` is at the opening quote. -/
def jsonParseString (p : Bytes) : JsonResult (Bytes × Bytes) := do
  let start := p.drop 1
  let (surplus, last) ← strScan .usual 0 start
  let body := start.take (start.length - last.length)
  if body.length - surplus > confMaxString then jsonError start stringTooLong
  else
    let s ← if surplus = 0 then .ok body else strDecode last body
    .ok (s, last.drop 1)

/-! ### Numbers -/

def confMaxNumberLen : ℕ := 14

/-- What `nxt_strtod` says of a text: `ERANGE` or a magnitude above
`NXT_INT64_T_MAX`, bytes left behind the number, a whole number, or another. -/
inductive Strtod where
  | outOfRange
  | unfinished
  | whole
  | fraction
  deriving DecidableEq, Repr

def skipMinus (start : Bytes) : Bytes :=
  if start.head? = some 0x2D then start.drop 1 else start   -- '-'

/-- The scan of the integer and fraction part: the position of the dot, if one
was met, and the position behind. -/
def numberScan : Option Bytes → Bytes → Option Bytes × Bytes
  | dot, [] => (dot, [])
  | dot, ch :: p =>
    if isDigit ch then numberScan dot p
    else if ch = 0x2E ∧ dot = none then numberScan (some (ch :: p)) p
    else (dot, ch :: p)

def skipSign (s : Bytes) : Bytes :=
  if s.head? = some 0x2D ∨ s.head? = some 0x2B then s.drop 1 else s   -- '-', '+'

/-- The exponent at `p`: what is left, or `none` when it has no digit. -/
def numberExponent (p : Bytes) : Option Bytes :=
  if p.head? = some 0x65 ∨ p.head? = some 0x45 then   -- 'e', 'E'
    let s := skipSign (p.drop 1)
    let p := s.dropWhile isDigit
    if p = s then none else some p
  else some p

section Parse

-- `nxt_strtod` on the text of a number: a function of the C library
variable (strtod : Bytes → Strtod)

def jsonParseNumber (start : Bytes) : JsonResult (Conf × Bytes) :=
  let s := skipMinus start
  let (dot, p) := numberScan none s
  if dot.isSome ∧ (dot.getD p).length - p.length ≤ 1 then jsonError s fractionWithoutDigit
  else if s.length - (dot.getD p).length > 1 ∧ start.head? = some 0x30 then
    jsonError s leadingZeros
  else
    match numberExponent p with
    | none => jsonError start exponentWithoutDigit
    | some p =>
      let text := start.take (start.length - p.length)
      if text.length > confMaxNumberLen then jsonError start numberTooLong
      else
        match strtod text with
        | .outOfRange => jsonError start numberOutOfRange
        | .unfinished => .error none
        | .whole => .ok (.integer text, p)
        | .fraction => .ok (.number text, p)

/-- The bytes that may follow a number:
`' '`, `'\t'`, `'\r'`, `'\n'`, `','`, `'\x7d'`, `']'`, `'\x7b'`, `'['`, `'"'`, `'/'`. -/
def endsNumber (ch : UInt8) : Bool :=
  ch == 0x20 || ch == 0x09 || ch == 0x0D || ch == 0x0A || ch == 0x2C || ch == 0x7D ||
    ch == 0x5D || ch == 0x7B || ch == 0x5B || ch == 0x22 || ch == 0x2F

/-- The number branch of `nxt_conf_json_parse_value`; `ch` is the first byte,
or the second one behind a minus. -/
def jsonNumberValue (ch : UInt8) (start : Bytes) : JsonResult (Conf × Bytes) :=
  if isDigit ch then do
    let (value, p) ← jsonParseNumber strtod start
    match p with
    | [] => .ok (value, p)
    | ch :: _ => if endsNumber ch then .ok (value, p) else jsonError start valueExpected
  else jsonError start valueExpected

/-! ### Arrays and objects -/

def jsonMaxDepth : ℕ := 100

def jsonMaxElements : ℕ := 100000

/-- The loop of `nxt_conf_json_parse_array`, with `p` at the bracket or comma
before the next element and `left` elements still allowed. -/
def arrayLoop (parseValue : Bytes → JsonResult (Conf × Bytes)) (left : ℕ) (p : Bytes) :
    JsonResult (List Conf × Bytes) :=
  match jsonSkipSpace (p.drop 1) with
  | [] => jsonError [] arrayNotClosed
  | ch :: p =>
    if ch = 0x5D then .ok ([], p)
    else
      match left with
      | 0 => jsonError (ch :: p) tooManyElements
      | left + 1 => do
        let (element, p) ← parseValue (ch :: p)
        match jsonSkipSpace p with
        | [] => jsonError [] arrayNotClosed
        | ch :: p =>
          if ch = 0x2C then do
            let (elements, q) ← arrayLoop parseValue left (ch :: p)
            .ok (element :: elements, q)
          else if ch = 0x5D then .ok ([element], p)
          else jsonError (ch :: p) elementSeparator

/-- The name, the colon and the value of a member, with `p` at the quote.
`seen` are the names that are in the hash already. -/
def parseMember (parseValue : Bytes → JsonResult (Conf × Bytes)) (seen : List Bytes) (p : Bytes) :
    JsonResult ((Bytes × Conf) × Bytes) := do
  let (name, q) ← jsonParseString p
  if name ∈ seen then jsonError p duplicateMember
  else
    match jsonSkipSpace q with
    | [] => jsonError [] memberWithoutValue
    | ch :: q =>
      if ch ≠ 0x3A then jsonError (ch :: q) colonExpected
      else
        match jsonSkipSpace q with
        | [] => jsonError [] memberWithoutValue
        | ch :: q => do
          let (value, q) ← parseValue (ch :: q)
          .ok ((name, value), q)

/-- The loop of `nxt_conf_json_parse_object`, with `p` at the brace or comma
before the next member and `left` members still allowed. -/
def objectLoop (parseValue : Bytes → JsonResult (Conf × Bytes)) (seen : List Bytes) (left : ℕ)
    (p : Bytes) : JsonResult (List (Bytes × Conf) × Bytes) :=
  match jsonSkipSpace (p.drop 1) with
  | [] => jsonError [] objectNotClosed
  | ch :: p =>
    if ch ≠ 0x22 then
      if ch = 0x7D then .ok ([], p) else jsonError (ch :: p) nameExpected
    else
      match left with
      | 0 => jsonError (ch :: p) tooManyMembers
      | left + 1 => do
        let (member, p) ← parseMember parseValue seen (ch :: p)
        match jsonSkipSpace p with
        | [] => jsonError [] objectNotClosed
        | ch :: p =>
          if ch = 0x2C then do
            let (members, q) ← objectLoop parseValue (member.1 :: seen) left (ch :: p)
            .ok (member :: members, q)
          else if ch = 0x7D then .ok ([member], p)
          else jsonError (ch :: p) memberSeparator

/-- The order in which `nxt_lvlhsh_each` returns the members of an object:
every one of them, once. -/
structure HashOrder where
  order : List (Bytes × Conf) → List (Bytes × Conf)
  perm : ∀ members, (order members).Perm members

variable (hash : HashOrder)

/-- `nxt_conf_json_parse_value`, with `depth` more levels of nesting allowed. -/
def jsonParseValue (depth : ℕ) (start : Bytes) : JsonResult (Conf × Bytes) :=
  match start with
  | [] => jsonError [] valueExpected   -- the callers have tested for the end
  | ch :: p =>
    if ch = 0x7B then
      match depth with
      | 0 => jsonError start tooDeep
      | depth + 1 => do
        let (members, q) ← objectLoop (jsonParseValue depth) [] jsonMaxElements start
        .ok (.object (hash.order members), q)
    else if ch = 0x5B then
      match depth with
      | 0 => jsonError start tooDeep
      | depth + 1 => do
        let (elements, q) ← arrayLoop (jsonParseValue depth) jsonMaxElements start
        .ok (.array elements, q)
    else if ch = 0x22 then do
      let (s, q) ← jsonParseString start
      .ok (.string s, q)
    else if ch = 0x74 then
      if start.take 4 = str "true" then .ok (.boolean true, start.drop 4)
      else jsonError start valueExpected
    else if ch = 0x66 then
      if start.take 5 = str "false" then .ok (.boolean false, start.drop 5)
      else jsonError start valueExpected
    else if ch = 0x6E then
      if start.take 4 = str "null" then .ok (.null, start.drop 4)
      else jsonError start valueExpected
    else if ch = 0x2D then
      match p with
      | [] => jsonError start valueExpected
      | second :: _ => jsonNumberValue strtod second start
    else jsonNumberValue strtod ch start

def confJsonParse (text : Bytes) : JsonResult Conf :=
  match jsonSkipSpace text with
  | [] => jsonError text emptyPayload
  | ch :: p => do
    let (value, p) ← jsonParseValue strtod hash jsonMaxDepth (ch :: p)
    match jsonSkipSpace p with
    | [] => .ok value
    | ch :: p => jsonError (ch :: p) afterTheEnd

end Parse

end FreeUnit
