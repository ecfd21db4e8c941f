/-
The message that is built for an application (`nxt_router_prepare_msg`).

A first pass over the request adds up the size of everything and refuses what
does not fit the types of the message; a second one writes the head, a record
for every field, and all strings behind the table of records.  For applications
that take names with a prefix the names are rewritten and the lines of a field
are joined to its first one.  The body follows, in as many buffers as it takes.

* `RequestHead.read_bytes` — the head is read back from its bytes.
-/
import FreeUnit.UnitWire
import FreeUnit.RequestFields

namespace FreeUnit

def HttpStatus.internalServerError : HttpStatus := 500

namespace UnitRequest

/-! ### The head of a request -/

/-- `nxt_unit_request_t` without the fields. -/
structure RequestHead where
  methodLength : UInt8
  versionLength : UInt8
  remoteLength : UInt8
  localAddrLength : UInt8
  localPortLength : UInt8
  tls : UInt8
  websocketHandshake : UInt8
  appTarget : UInt8
  serverNameLength : UInt32
  targetLength : UInt32
  pathLength : UInt32
  queryLength : UInt32
  fieldsCount : UInt32
  contentLengthField : UInt32
  contentTypeField : UInt32
  cookieField : UInt32
  authorizationField : UInt32
  contentLength : UInt64
  method : UInt32
  version : UInt32
  remote : UInt32
  localAddr : UInt32
  localPort : UInt32
  serverName : UInt32
  target : UInt32
  path : UInt32
  query : UInt32
  prereadContent : UInt32

namespace RequestHead

/-- `sizeof(nxt_unit_request_t)`. -/
def size : ℕ := 96

/-- Four bytes of padding are before the length of the content. -/
def bytes (h : RequestHead) : Bytes :=
  leBytes 1 h.methodLength.toNat ++ (leBytes 1 h.versionLength.toNat ++
    (leBytes 1 h.remoteLength.toNat ++ (leBytes 1 h.localAddrLength.toNat ++
    (leBytes 1 h.localPortLength.toNat ++ (leBytes 1 h.tls.toNat ++
    (leBytes 1 h.websocketHandshake.toNat ++ (leBytes 1 h.appTarget.toNat ++
    (leBytes 4 h.serverNameLength.toNat ++ (leBytes 4 h.targetLength.toNat ++
    (leBytes 4 h.pathLength.toNat ++ (leBytes 4 h.queryLength.toNat ++
    (leBytes 4 h.fieldsCount.toNat ++ (leBytes 4 h.contentLengthField.toNat ++
    (leBytes 4 h.contentTypeField.toNat ++ (leBytes 4 h.cookieField.toNat ++
    (leBytes 4 h.authorizationField.toNat ++ (leBytes 4 0 ++
    (leBytes 8 h.contentLength.toNat ++ (leBytes 4 h.method.toNat ++
    (leBytes 4 h.version.toNat ++ (leBytes 4 h.remote.toNat ++
    (leBytes 4 h.localAddr.toNat ++ (leBytes 4 h.localPort.toNat ++
    (leBytes 4 h.serverName.toNat ++ (leBytes 4 h.target.toNat ++
    (leBytes 4 h.path.toNat ++ (leBytes 4 h.query.toNat ++
    leBytes 4 h.prereadContent.toNat)))))))))))))))))))))))))))

def read (m : Bytes) : RequestHead where
  methodLength := UInt8.ofNat (leAt m 0 1)
  versionLength := UInt8.ofNat (leAt m 1 1)
  remoteLength := UInt8.ofNat (leAt m 2 1)
  localAddrLength := UInt8.ofNat (leAt m 3 1)
  localPortLength := UInt8.ofNat (leAt m 4 1)
  tls := UInt8.ofNat (leAt m 5 1)
  websocketHandshake := UInt8.ofNat (leAt m 6 1)
  appTarget := UInt8.ofNat (leAt m 7 1)
  serverNameLength := UInt32.ofNat (leAt m 8 4)
  targetLength := UInt32.ofNat (leAt m 12 4)
  pathLength := UInt32.ofNat (leAt m 16 4)
  queryLength := UInt32.ofNat (leAt m 20 4)
  fieldsCount := UInt32.ofNat (leAt m 24 4)
  contentLengthField := UInt32.ofNat (leAt m 28 4)
  contentTypeField := UInt32.ofNat (leAt m 32 4)
  cookieField := UInt32.ofNat (leAt m 36 4)
  authorizationField := UInt32.ofNat (leAt m 40 4)
  contentLength := UInt64.ofNat (leAt m 48 8)
  method := UInt32.ofNat (leAt m 56 4)
  version := UInt32.ofNat (leAt m 60 4)
  remote := UInt32.ofNat (leAt m 64 4)
  localAddr := UInt32.ofNat (leAt m 68 4)
  localPort := UInt32.ofNat (leAt m 72 4)
  serverName := UInt32.ofNat (leAt m 76 4)
  target := UInt32.ofNat (leAt m 80 4)
  path := UInt32.ofNat (leAt m 84 4)
  query := UInt32.ofNat (leAt m 88 4)
  prereadContent := UInt32.ofNat (leAt m 92 4)

@[simp] theorem length_bytes (h : RequestHead) : h.bytes.length = size := by
  simp [bytes, size]

/-- **The head is read back from its bytes.** -/
theorem read_bytes {m : Bytes} {h : RequestHead} (hm : slice m 0 size = h.bytes) : read m = h := by
  have hat : ∀ i k, i + k ≤ size → leAt m i k = leAt h.bytes i k := by
    intro i k hik
    have hof := leAt_of_slice hm hik
    rwa [Nat.zero_add] at hof
  unfold read
  rw [hat 0 1 (by decide), hat 1 1 (by decide), hat 2 1 (by decide), hat 3 1 (by decide),
    hat 4 1 (by decide), hat 5 1 (by decide), hat 6 1 (by decide), hat 7 1 (by decide),
    hat 8 4 (by decide), hat 12 4 (by decide), hat 16 4 (by decide), hat 20 4 (by decide),
    hat 24 4 (by decide), hat 28 4 (by decide), hat 32 4 (by decide), hat 36 4 (by decide),
    hat 40 4 (by decide), hat 48 8 (by decide), hat 56 4 (by decide), hat 60 4 (by decide),
    hat 64 4 (by decide), hat 68 4 (by decide), hat 72 4 (by decide), hat 76 4 (by decide),
    hat 80 4 (by decide), hat 84 4 (by decide), hat 88 4 (by decide), hat 92 4 (by decide), bytes]
  cases h
  simp [leAt_skip]

end RequestHead

/-! ### The request -/

/-- `r->path`: the first bytes of the target, or a string of its own. -/
inductive PathRef
  | shared (length : ℕ)
  | own (path : Bytes)

/-- What is read of a request.  The query is a part of the target; the pointers
to fields are their numbers among the lines of the header.  The handlers of the
fields have set these, and refused a second Content-Length. -/
structure AppRequest where
  method : Bytes
  version : Bytes
  remote : Bytes
  localAddr : Bytes
  localPort : Bytes
  serverName : Bytes
  target : Bytes
  path : PathRef
  args : Option (ℕ × ℕ)
  tls : Bool
  websocketHandshake : Bool
  appTarget : UInt8
  contentLengthN : Option ℕ
  fields : List HttpField
  contentLength : Option ℕ
  contentType : Option ℕ
  cookie : Option ℕ
  authorization : Option ℕ
  body : List Bytes
  path_le : ∀ n, path = .shared n → n ≤ target.length
  args_le : ∀ start length, args = some (start, length) → start + length ≤ target.length
  length_lt : ∀ n, contentLengthN = some n → n < 2 ^ 63
  contentLength_name : ∀ i, contentLength = some i →
    ∃ f, fields[i]? = some f ∧ strcasestrEq f.name (str "Content-Length") = true
  contentType_name : ∀ i, contentType = some i →
    ∃ f, fields[i]? = some f ∧ strcasestrEq f.name (str "Content-Type") = true
  cookie_name : ∀ i, cookie = some i →
    ∃ f, fields[i]? = some f ∧ strcasestrEq f.name (str "Cookie") = true
  authorization_name : ∀ i, authorization = some i →
    ∃ f, fields[i]? = some f ∧ strcasestrEq f.name (str "Authorization") = true
  contentLength_once : ∀ i j f, contentLength = some i → fields[j]? = some f → f.skip = false →
    strcasestrEq f.name (str "Content-Length") = true → j = i

namespace AppRequest

def pathBytes (req : AppRequest) : Bytes :=
  match req.path with
  | .shared n => req.target.take n
  | .own path => path

def queryBytes (req : AppRequest) : Bytes :=
  match req.args with
  | some (start, length) => slice req.target start length
  | none => []

/-- `content_length`. -/
def length (req : AppRequest) : ℕ := req.contentLengthN.getD 0

end AppRequest

/-! ### Sizes -/

def dataSize : ℕ := 1024 * 1024 * 10

def chunkSize : ℕ := 1024 * 16

def headSize (req : AppRequest) : ℕ :=
  RequestHead.size + req.method.length + 1 + req.version.length + 1 + req.remote.length + 1 +
    req.localAddr.length + 1 + req.localPort.length + 1 + req.serverName.length + 1 +
    req.target.length + 1 +
    match req.path with
    | .own path => path.length + 1
    | .shared _ => 0

def lineSize (pre : Bytes) (f : HttpField) : ℕ := f.name.length + pre.length + 1 + f.value.length + 1

/-- The loop that counts the fields and adds up their sizes. -/
def fieldsSize (pre : Bytes) : List HttpField → Except HttpStatus (ℕ × ℕ)
  | [] => .ok (0, 0)
  | f :: fields =>
    if f.skip then fieldsSize pre fields
    else if f.name.length + pre.length > 255 then .error .headerFieldsTooLarge
    else
      match fieldsSize pre fields with
      | .error status => .error status
      | .ok (count, size) => .ok (count + 1, size + lineSize pre f)

/-! ### Writing the fields -/

/-- A line of the header, with its number and the mark that it was joined to an
earlier one. -/
structure Line where
  index : ℕ
  field : HttpField
  merged : Bool

def lines (fields : List HttpField) : List Line := fields.zipIdx.map fun x => ⟨x.2, x.1, false⟩

def noneField : UInt32 := 0xFFFFFFFF

structure Slots where
  contentLength : UInt32 := noneField
  contentType : UInt32 := noneField
  cookie : UInt32 := noneField
  authorization : UInt32 := noneField
  deriving DecidableEq

/-- The first line of a field is written as record `dst`. -/
def noteField (req : AppRequest) (s : Slots) (index : ℕ) (dst : UInt32) : Slots :=
  if req.contentLength = some index then { s with contentLength := dst }
  else if req.contentType = some index then { s with contentType := dst }
  else if req.cookie = some index then { s with cookie := dst }
  else if req.authorization = some index then { s with authorization := dst }
  else s

/-- A line is joined to record `dst`. -/
def noteDup (req : AppRequest) (s : Slots) (index : ℕ) (dst : UInt32) : Slots :=
  if req.contentType = some index then { s with contentType := dst }
  else if req.cookie = some index then { s with cookie := dst }
  else if req.authorization = some index then { s with authorization := dst }
  else s

def cgiByte (c : UInt8) : UInt8 :=
  if 0x61 ≤ c ∧ c ≤ 0x7A then c &&& 0xDF else if c = 0x2D then 0x5F else c

def appName (pre name : Bytes) : Bytes := if pre = [] then name else pre ++ name.map cgiByte

/-- `sep` -/
def separator (name : Bytes) : Bytes :=
  if strcasestrEq name (str "Cookie") then str "; " else str ", "

/-- The later line `dup` repeats `f`; without a prefix, lines are not joined. -/
def repeats (pre : Bytes) (f dup : HttpField) : Bool :=
  pre != [] && (!dup.skip && dup.hash == f.hash && strcasestrEq dup.name f.name)

/-- The fields that were written: `count` is `dst_field - req->fields`. -/
structure Fields where
  table : List UnitField
  count : ℕ
  data : Bytes
  slots : Slots

/-- The inner loop: the lines that repeat `f` are joined to its record. -/
def joinLines (req : AppRequest) (pre : Bytes) (f : HttpField) (dst : UInt32) :
    List Line → UInt32 → Bytes → Slots → List Line × UInt32 × Bytes × Slots
  | [], length, data, slots => ([], length, data, slots)
  | dup :: rest, length, data, slots =>
    if repeats pre f dup.field then
      let r := joinLines req pre f dst rest (length + (2 + UInt32.ofNat dup.field.value.length))
        (data ++ (separator f.name ++ dup.field.value)) (noteDup req slots dup.index dst)
      ({ dup with merged := true } :: r.1, r.2)
    else
      let r := joinLines req pre f dst rest length data slots
      (dup :: r.1, r.2)

def recordPos (i : ℕ) : ℕ := RequestHead.size + UnitField.size * i

/-- The next record, for a name and a value at the end of the strings, which
start at `base`; only the flag `skip` of what was there is cleared. -/
def fieldRecord (pre : Bytes) (base : ℕ) (b : Fields) (f : HttpField) (valueLength : UInt32) :
    UnitField where
  hash := f.hash
  flags := (b.table[b.count]?.map (·.flags)).getD 0 &&& 0xFE
  nameLength := UInt8.ofNat (f.name.length + pre.length)
  valueLength := valueLength
  name := sptrSet (recordPos b.count + 8) (base + b.data.length)
  value := sptrSet (recordPos b.count + 12) (base + b.data.length + (appName pre f.name).length + 1)

def writeField (req : AppRequest) (pre : Bytes) (base : ℕ) (b : Fields) (l : Line)
    (rest : List Line) : List Line × Fields :=
  let dst := UInt32.ofNat b.count
  let r := joinLines req pre l.field dst rest (UInt32.ofNat l.field.value.length)
    (b.data ++ (appName pre l.field.name ++ 0 :: l.field.value))
    (noteField req b.slots l.index dst)
  (r.1,
    { table := b.table.set b.count (fieldRecord pre base b l.field r.2.1)
      count := b.count + 1
      data := r.2.2.1 ++ [0]
      slots := r.2.2.2 })

/-- The loop over the lines; one step is made for every line. -/
def writeFields (req : AppRequest) (pre : Bytes) (base : ℕ) : ℕ → List Line → Fields → Fields
  | 0, _, b => b
  | _ + 1, [], b => b
  | n + 1, l :: rest, b =>
    if l.field.skip then writeFields req pre base n rest b
    else if l.merged then writeFields req pre base n rest b
    else
      let r := writeField req pre base b l rest
      writeFields req pre base n r.1 r.2

/-! ### Writing the body -/

/-- What the environment does: whether a buffer is allocated, what its memory
shows, and how much a buffer grows. -/
structure Env where
  first : Bool
  junkTable : ℕ → UnitField
  junk : ℕ → UInt8
  alloc : ℕ → Bool
  grow : ℕ → ℕ

/-- The buffers so far, the last one first, and the room of the last one if it
is still written to. -/
structure Chain where
  bufs : List Bytes
  room : Option ℕ

/-- The size of a buffer for `n` bytes. -/
def chunks (n : ℕ) : ℕ := (n + chunkSize - 1) / chunkSize * chunkSize

def copyBody (env : Env) : ℕ → Bytes → Chain → Option Chain
  | 0, _, _ => none
  | n + 1, left, chain =>
    if left = [] then some chain
    else
      match chain.room, chain.bufs with
      | some room, last :: bufs =>
        let free := if room < left.length then room + env.grow (bufs.length + 1) else room
        copyBody env n (left.drop free)
          { bufs := (last ++ left.take free) :: bufs
            room := if left.length ≤ free then some (free - left.length) else none }
      | _, _ =>
        if env.alloc chain.bufs.length then
          let free := min left.length dataSize
          copyBody env n (left.drop free)
            { bufs := left.take free :: chain.bufs
              room := if left.length ≤ free then some (chunks free - free) else none }
        else none

def copyBodies (env : Env) : List Bytes → Chain → Option Chain
  | [], chain => some chain
  | b :: body, chain =>
    match copyBody env (2 * b.length + 2) b chain with
    | none => none
    | some chain => copyBodies env body chain

/-! ### The message -/

def put (data s : Bytes) : Bytes := data ++ (s ++ [0])

section Strings

variable (req : AppRequest)

/-! The strings of the head, up to each of them. -/

def beforeVersion : Bytes := put [] req.method
def beforeRemote : Bytes := put (beforeVersion req) req.version
def beforeLocalAddr : Bytes := put (beforeRemote req) req.remote
def beforeLocalPort : Bytes := put (beforeLocalAddr req) req.localAddr
def beforeServerName : Bytes := put (beforeLocalPort req) req.localPort
def beforeTarget : Bytes := put (beforeServerName req) req.serverName
def beforePath : Bytes := put (beforeTarget req) req.target

/-- All strings of the head; a path that is the start of the target has none. -/
def headStrings : Bytes :=
  match req.path with
  | .shared _ => beforePath req
  | .own path => put (beforePath req) path

def pathPos (base : ℕ) : ℕ :=
  match req.path with
  | .shared _ => base + (beforeTarget req).length
  | .own _ => base + (beforePath req).length

/-- The head, with strings from `base` on and a body from `size` on. -/
def requestHead (base size : ℕ) (b : Fields) : RequestHead where
  methodLength := UInt8.ofNat req.method.length
  versionLength := UInt8.ofNat req.version.length
  remoteLength := UInt8.ofNat req.remote.length
  localAddrLength := UInt8.ofNat req.localAddr.length
  localPortLength := UInt8.ofNat req.localPort.length
  tls := if req.tls then 1 else 0
  websocketHandshake := if req.websocketHandshake then 1 else 0
  appTarget := req.appTarget
  serverNameLength := UInt32.ofNat req.serverName.length
  targetLength := UInt32.ofNat req.target.length
  pathLength := UInt32.ofNat req.pathBytes.length
  queryLength := UInt32.ofNat req.queryBytes.length
  fieldsCount := UInt32.ofNat b.count
  contentLengthField := b.slots.contentLength
  contentTypeField := b.slots.contentType
  cookieField := b.slots.cookie
  authorizationField := b.slots.authorization
  contentLength := UInt64.ofNat req.length
  method := sptrSet 56 base
  version := sptrSet 60 (base + (beforeVersion req).length)
  remote := sptrSet 64 (base + (beforeRemote req).length)
  localAddr := sptrSet 68 (base + (beforeLocalAddr req).length)
  localPort := sptrSet 72 (base + (beforeLocalPort req).length)
  serverName := sptrSet 76 (base + (beforeServerName req).length)
  target := sptrSet 80 (base + (beforeTarget req).length)
  path := sptrSet 84 (pathPos req base)
  query :=
    match req.args with
    | some (start, _) => sptrSet 88 (base + (beforeTarget req).length + start)
    | none => 0
  prereadContent := sptrSet 92 size

end Strings

/-- The fields of a request, behind the strings of the head. -/
def requestFields (env : Env) (req : AppRequest) (pre : Bytes) (count : ℕ) : Fields :=
  writeFields req pre (recordPos count) req.fields.length (lines req.fields)
    { table := (List.range count).map env.junkTable
      count := 0
      data := headStrings req
      slots := {} }

/-- The head, the table of fields and the strings, with what is left of the size
that was computed for them. -/
def writeHead (env : Env) (req : AppRequest) (pre : Bytes) (count size : ℕ) : Bytes :=
  let b := requestFields env req pre count
  (requestHead req (recordPos count) size b).bytes ++ (b.table.flatMap UnitField.bytes ++
    (b.data ++ (List.range (size - (recordPos count + b.data.length))).map env.junk))

/-- `nxt_router_prepare_msg`: the buffers of the message. -/
def prepareMsg (env : Env) (req : AppRequest) (pre : Bytes) : Except HttpStatus (List Bytes) :=
  if req.method.length > 255 then .error .notImplemented
  else if req.version.length > 255 ∨ req.remote.length > 255 ∨ req.localAddr.length > 255 ∨
      req.localPort.length > 255 then .error .internalServerError
  else
    match fieldsSize pre req.fields with
    | .error status => .error status
    | .ok (count, fields) =>
      let size := headSize req + fields + count * UnitField.size
      if size > dataSize then .error .internalServerError
      else if env.first = false then .error .internalServerError
      else
        let room := chunks (min (size + req.length) dataSize) - size
        match copyBodies env req.body ⟨[writeHead env req pre count size], some room⟩ with
        | none => .error .internalServerError
        | some chain => .ok chain.bufs.reverse

end UnitRequest

end FreeUnit
