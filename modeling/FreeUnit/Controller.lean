/-
The controller, `nxt_controller.c`: how requests to the control API, answers of the
router and of the main process, and restarts of the router are handled.

A change of the configuration, a restart of an application and a status query are
sent to the router, and the request stands at the head of the waiting queue until
the answer.  A file is stored by the main process, and its request is in no queue
meanwhile.  Whatever cannot run yet is put at the end of the queue, and most
callbacks run the whole queue again.

* `flushRequests` — `nxt_controller_flush_requests`;
* `answerCall`, `answerStore` — the handlers of answers.
-/
import FreeUnit.Bytes

namespace FreeUnit.Controller

/-! ### Data -/

/-- `nxt_controller_request_t`; two requests with one text differ by `id`. -/
structure Request where
  id : ℕ
  method : Bytes
  path : Bytes
  body : Bytes
  deriving DecidableEq, Repr

/-- `nxt_controller_response_t`, without the details of an error. -/
structure Response (Conf : Type) where
  status : ℕ
  title : String := ""
  conf : Option Conf := none
  deriving DecidableEq, Repr

/-- The two stores of files: certificate bundles and JS modules. -/
inductive FileKind where
  | cert
  | script
  deriving DecidableEq, Repr

/-- The flags of `nxt_controller_store_in_flight`. -/
inductive StoreKind where
  /-- `nxt_controller_conf_storing` -/
  | conf
  /-- `nxt_controller_cert_storing`, `nxt_controller_script_storing` -/
  | put (kind : FileKind)
  /-- `nxt_controller_cert_deleting`, `nxt_controller_script_deleting` -/
  | delete (kind : FileKind)
  deriving DecidableEq, Repr

/-- A message to the router that waits for an answer, by its handler. -/
inductive Call (Conf : Type) where
  /-- `nxt_controller_conf_init_handler` -/
  | init (conf : Conf)
  /-- `nxt_controller_conf_handler` -/
  | conf (req : Request) (conf : Conf)
  /-- `nxt_controller_cert_apply_handler` -/
  | certApply (req : Request) (conf : Conf)
  /-- `nxt_controller_status_handler` -/
  | status (req : Request)
  /-- `nxt_controller_app_restart_handler` -/
  | restart (req : Request)
  deriving DecidableEq, Repr

/-- A message to the main process that waits for an answer. -/
structure Store (Conf : Type) where
  kind : StoreKind
  req : Request
  conf : Option Conf
  deriving DecidableEq, Repr

/-- An answer, and what the controller, the router and the disk had then. -/
structure Answer (Conf : Type) where
  req : Request
  resp : Response Conf
  conf : Option Conf
  acked : Option Conf
  stored : Option Conf
  deriving DecidableEq, Repr

structure State (Conf : Type) where
  /-- `nxt_controller_conf.root` -/
  conf : Option Conf := none
  listening : Bool := false
  routerReady : Bool := false
  /-- `rt->port_by_type[NXT_PROCESS_ROUTER]` -/
  routerPort : Bool := false
  /-- `nxt_controller_waiting_requests` -/
  waiting : List Request := []
  waitingInitConf : Bool := false
  storing : StoreKind → Bool := fun _ => false
  /-- `nxt_controller_cert_stored` -/
  certStored : Option Request := none
  calls : List (Call Conf) := []
  stores : List (Store Conf) := []
  /-- the router that lives has announced that it is ready -/
  greeted : Bool := false
  /-- the last configuration a router acknowledged -/
  acked : Option Conf := none
  /-- the last configuration the main process stored -/
  stored : Option Conf := none
  seen : List Request := []
  /-- the requests that were sent to the router or to the main process, with the
  configuration for a change -/
  started : List (Request × Option Conf) := []
  answers : List (Answer Conf) := []

inductive ConfRefusal where
  | invalidJson
  | notFound
  | notAllowed
  | invalidConf
  | allocFail
  deriving DecidableEq, Repr

inductive FileAnswer (Conf : Type) where
  | value (conf : Conf)
  | noPath
  | missing
  | used
  | present
  | tooLarge
  | invalid
  /-- the bundle is the one that is stored already -/
  | unchanged (inUse : Bool)
  | allocFail
  deriving DecidableEq, Repr

/-- The results of what the controller calls while it handles one event. -/
structure Env (Conf : Type) where
  /-- `nxt_controller_conf_default` -/
  default : Conf
  /-- `nxt_conf_get_path` -/
  getPath : Option Conf → Bytes → Option Conf
  /-- the body read, the operations compiled and applied, the result validated -/
  edit : Request → Bytes → Option Conf → Except ConfRefusal Conf
  /-- the message to the router is sent -/
  send : Request → Bool
  /-- the configuration is sent to a new router -/
  resend : Bool
  /-- `nxt_controller_conf_store` succeeds -/
  confStore : Request → Bool
  /-- `some` if the file request is answered at once -/
  file : FileKind → Request → Option (FileAnswer Conf)
  /-- the message of `nxt_cert_store_put` and its likes is sent -/
  fileSend : Request → Bool
  /-- `nxt_controller_cert_in_use` -/
  certInUse : Request → Option Conf → Bool
  /-- the configuration has the application -/
  application : Option Conf → Bytes → Bool
  alloc : Request → Bool
  /-- `nxt_status_get` of an answer -/
  status : Option Conf
  /-- the object with everything, of the configuration and the status -/
  all : Option Conf → Conf → Option Conf

/-! ### Texts -/

def valueMissing {Conf : Type} : Response Conf := ⟨404, "Value doesn't exist.", none⟩
def methodNotAllowed {Conf : Type} : Response Conf := ⟨405, "Method isn't allowed.", none⟩
def invalidMethod {Conf : Type} : Response Conf := ⟨405, "Invalid method.", none⟩
def allocFailed {Conf : Type} : Response Conf := ⟨500, "Memory allocation failed.", none⟩
def reconfigurationDone {Conf : Type} : Response Conf := ⟨200, "Reconfiguration done.", none⟩

def ConfRefusal.response {Conf : Type} : ConfRefusal → Response Conf
  | .invalidJson => ⟨400, "Invalid JSON.", none⟩
  | .notFound => valueMissing
  | .notAllowed => methodNotAllowed
  | .invalidConf => ⟨400, "Invalid configuration.", none⟩
  | .allocFail => allocFailed

structure FileTexts where
  invalidName : String
  missing : String
  used : String
  present : String
  tooLarge : String
  invalid : String
  putFailed : String
  deleted : String
  deleteFailed : String

def certUpdated : String := "Certificate chain updated."
def certUploaded : String := "Certificate chain uploaded."
def certNotApplied : String := "Certificate stored but not applied."

def FileKind.texts : FileKind → FileTexts
  | .cert =>
    { invalidName := "Invalid certificate name."
      missing := "Certificate doesn't exist."
      used := "Certificate is used in the configuration."
      present := ""
      tooLarge := "Certificate bundle is too large."
      invalid := "Invalid certificate."
      putFailed := "Failed to store certificate."
      deleted := "Certificate deleted."
      deleteFailed := "Failed to delete certificate." }
  | .script =>
    { invalidName := "Invalid JS module name."
      missing := "JS module doesn't exist."
      used := "JS module is used in the configuration."
      present := "JS module already exists."
      tooLarge := "JS module is too large."
      invalid := "Invalid JS module."
      putFailed := "Failed to store script."
      deleted := "JS module deleted."
      deleteFailed := "Failed to delete script." }

def FileAnswer.response {Conf : Type} (kind : FileKind) : FileAnswer Conf → Response Conf
  | .value conf => ⟨200, "", some conf⟩
  | .noPath => ⟨404, "Invalid path.", none⟩
  | .missing => ⟨404, kind.texts.missing, none⟩
  | .used => ⟨400, kind.texts.used, none⟩
  | .present => ⟨400, kind.texts.present, none⟩
  | .tooLarge => ⟨413, kind.texts.tooLarge, none⟩
  | .invalid => ⟨400, kind.texts.invalid, none⟩
  | .unchanged inUse => ⟨200, if inUse then certUpdated else certUploaded, none⟩
  | .allocFail => allocFailed

/-! ### Paths -/

inductive Target where
  | config (path : Bytes)
  | status (path : Bytes)
  | file (kind : FileKind) (path : Bytes)
  | control (path : Bytes)
  | root
  | none
  deriving DecidableEq, Repr

/-- The path below a name, `/` for the name itself. -/
def below (name path : Bytes) : Option Bytes :=
  if path = name then some (str "/")
  else if (name ++ str "/").isPrefixOf path then some (path.drop name.length)
  else none

/-- The dispatch of `nxt_controller_process_request`. -/
def route (path : Bytes) : Target :=
  let path := if 1 < path.length ∧ path.getLast? = some 0x2F then path.dropLast else path
  match below (str "/config") path with
  | some p => .config p
  | Option.none =>
  match below (str "/status") path with
  | some p => .status p
  | Option.none =>
  match below (str "/certificates") path with
  | some p => .file .cert p
  | Option.none =>
  match below (str "/js_modules") path with
  | some p => .file .script p
  | Option.none =>
    if (str "/control/").isPrefixOf path then .control (path.drop 9)
    else if path = str "/" then .root
    else .none

/-- `NXT_CERT_NAME_MAX_LENGTH`, `NXT_SCRIPT_NAME_MAX_LENGTH` -/
def nameMaxLength : ℕ := 255

/-- The name of a file can be stored: one segment that does not start with a dot. -/
def fileNameOk (path : Bytes) : Bool :=
  let name := path.drop 1
  name ≠ [] && !name.contains 0x2F && name.head? ≠ some 0x2E && name.length ≤ nameMaxLength

/-- The path of a restart, and the name of the application in it.  The last slash of
`applications/restart` is also the first one of the suffix: there the length of the
name wraps, and no application has it. -/
def restartName (path : Bytes) : Option (Option Bytes) :=
  if (str "applications/").isPrefixOf path ∧ path.drop (path.length - 8) = str "/restart" then
    some (if path.length < 21 then Option.none else some ((path.drop 13).take (path.length - 21)))
  else Option.none

/-! ### Requests -/

section

variable {Conf : Type}

/-- `nxt_controller_response` -/
def State.respond (s : State Conf) (req : Request) (resp : Response Conf) : State Conf :=
  { s with answers := s.answers ++ [⟨req, resp, s.conf, s.acked, s.stored⟩] }

def State.postpone (s : State Conf) (req : Request) : State Conf :=
  { s with waiting := s.waiting ++ [req] }

/-- A message is sent to the router, and the request is put at the head. -/
def State.call (s : State Conf) (req : Request) (call : Call Conf) : State Conf :=
  { s with calls := s.calls ++ [call], waiting := req :: s.waiting }

def State.store (s : State Conf) (kind : StoreKind) (req : Request) (conf : Option Conf) :
    State Conf :=
  { s with
    storing := Function.update s.storing kind true
    stores := s.stores ++ [⟨kind, req, conf⟩] }

def State.start (s : State Conf) (req : Request) (conf : Option Conf) : State Conf :=
  { s with started := s.started ++ [(req, conf)] }

def State.storeInFlight (s : State Conf) : Bool :=
  s.storing .conf || s.storing (.put .cert) || s.storing (.delete .cert) ||
    s.storing (.put .script) || s.storing (.delete .script)

/-- `nxt_controller_check_postpone_request` -/
def State.checkPostpone (s : State Conf) : Bool :=
  !s.waiting.isEmpty || s.storeInFlight || s.waitingInitConf || !s.routerReady || !s.routerPort

def processConfig (env : Env Conf) (s : State Conf) (req : Request) (path : Bytes) : State Conf :=
  if req.method = str "GET" then
    match env.getPath s.conf path with
    | none => s.respond req valueMissing
    | some value => s.respond req ⟨200, "", some value⟩
  else if req.method = str "POST" ∧ path.length = 1 then s.respond req methodNotAllowed
  else if req.method = str "POST" ∨ req.method = str "PUT" ∨ req.method = str "DELETE" then
    if s.checkPostpone then s.postpone req
    else
      match env.edit req path s.conf with
      | .error refusal => s.respond req refusal.response
      | .ok value =>
        if env.send req then (s.call req (.conf req value)).start req (some value)
        else s.respond req allocFailed
  else s.respond req methodNotAllowed

def processStatus (env : Env Conf) (s : State Conf) (req : Request) : State Conf :=
  if s.checkPostpone then s.postpone req
  else if env.send req then (s.call req (.status req)).start req none
  else s.respond req ⟨500, "Failed to get status.", none⟩

def statusResponse (env : Env Conf) (s : State Conf) (status : Conf) (req : Request)
    (path : Bytes) : State Conf :=
  match env.getPath (some status) path with
  | none => s.respond req ⟨404, "Invalid path.", none⟩
  | some value => s.respond req ⟨200, "", some value⟩

/-- The message of a file request to the main process; `failed` is the text if it
cannot be sent.  Then the handler of the answer is called at once: it clears the
flag, answers, and finds the waiting queue empty. -/
def fileStore (env : Env Conf) (s : State Conf) (kind : StoreKind) (failed : String)
    (req : Request) : State Conf :=
  if env.fileSend req then (s.store kind req none).start req none
  else s.respond req ⟨500, failed, none⟩

/-- `nxt_controller_process_cert` and `nxt_controller_process_script` -/
def processFile (env : Env Conf) (kind : FileKind) (s : State Conf) (req : Request)
    (path : Bytes) : State Conf :=
  if req.method = str "GET" then
    if s.storing (.put kind) || s.storing (.delete kind) then s.postpone req
    else
      match env.file kind req with
      | some answer => s.respond req (answer.response kind)
      | none => s.respond req allocFailed
  else if !fileNameOk path then s.respond req ⟨400, kind.texts.invalidName, none⟩
  else if s.checkPostpone then s.postpone req
  else if req.method = str "PUT" then
    match env.file kind req with
    | some answer => s.respond req (answer.response kind)
    | none => fileStore env s (.put kind) kind.texts.putFailed req
  else if req.method = str "DELETE" then
    match env.file kind req with
    | some answer => s.respond req (answer.response kind)
    | none => fileStore env s (.delete kind) kind.texts.deleteFailed req
  else s.respond req invalidMethod

def processControl (env : Env Conf) (s : State Conf) (req : Request) (path : Bytes) :
    State Conf :=
  if req.method ≠ str "GET" then s.respond req methodNotAllowed
  else
    match restartName path with
    | none => s.respond req valueMissing
    | some name =>
      if s.checkPostpone then s.postpone req
      else if !name.any (env.application s.conf) then s.respond req valueMissing
      else if !env.alloc req then s.respond req allocFailed
      else if env.send req then (s.call req (.restart req)).start req none
      else s.respond req ⟨500, "Send restart failed.", none⟩

/-- `nxt_controller_process_request`; `status` is `nxt_controller_status`. -/
def processRequest (env : Env Conf) (status : Option Conf) (s : State Conf) (req : Request) :
    State Conf :=
  match route req.path with
  | .config path => processConfig env s req path
  | .status path =>
    if req.method ≠ str "GET" then s.respond req invalidMethod
    else
      match status with
      | none => processStatus env s req
      | some status => statusResponse env s status req path
  | .file kind path => processFile env kind s req path
  | .control path => processControl env s req path
  | .root =>
    if req.method ≠ str "GET" then s.respond req invalidMethod
    else if s.storeInFlight then s.postpone req
    else
      match status with
      | none => processStatus env s req
      | some status =>
        match env.all s.conf status with
        | none => s.respond req allocFailed
        | some value => s.respond req ⟨200, "", some value⟩
  | .none => s.respond req valueMissing

def flushRequests (env : Env Conf) (status : Option Conf) (s : State Conf) : State Conf :=
  s.waiting.foldl (processRequest env status) { s with waiting := [] }

/-! ### Answers -/

/-- The end of most handlers: an answer, and the queue is run. -/
def State.finish (env : Env Conf) (s : State Conf) (req : Request) (resp : Response Conf) :
    State Conf :=
  flushRequests env none (s.respond req resp)

def certApply (env : Env Conf) (s : State Conf) (req : Request) : State Conf :=
  match s.conf with
  | some conf =>
    if env.certInUse req s.conf ∧ s.routerReady ∧ s.routerPort then
      if env.send req then s.call req (.certApply req conf)
      else s.finish env req ⟨500, certNotApplied, none⟩
    else s.finish env req ⟨200, certUploaded, none⟩
  | none => s.finish env req ⟨200, certUploaded, none⟩

def State.fallBack (env : Env Conf) (s : State Conf) : State Conf :=
  { s with conf := some env.default }

def confInitHandler (env : Env Conf) (s : State Conf) (conf : Conf) (ready : Bool) : State Conf :=
  let s := { s with waitingInitConf := false }
  let s := if ready then { s with acked := some conf } else s.fallBack env
  let s := { s with listening := true }
  match s.certStored with
  | some req => certApply env { s with certStored := none } req
  | none => flushRequests env none s

def confHandler (env : Env Conf) (s : State Conf) (req : Request) (conf : Conf) (ready : Bool) :
    State Conf :=
  let s := { s with waiting := s.waiting.erase req }
  if ready then
    let s := { s with conf := some conf, acked := some conf }
    if env.confStore req then s.store .conf req (some conf)
    else s.finish env req ⟨500, "Failed to store the configuration.", none⟩
  else s.finish env req ⟨500, "Failed to apply new configuration.", none⟩

def certApplyHandler (env : Env Conf) (s : State Conf) (req : Request) (conf : Conf)
    (ready : Bool) : State Conf :=
  let s := { s with waiting := s.waiting.erase req }
  if ready then { s with acked := some conf }.finish env req ⟨200, certUpdated, none⟩
  else s.finish env req ⟨500, certNotApplied, none⟩

/-- `nxt_controller_status_handler`: with a status the request is still at the head of
the queue, and the run of the queue answers it. -/
def statusHandler (env : Env Conf) (s : State Conf) (req : Request) (ready : Bool) : State Conf :=
  match (if ready then env.status else none) with
  | some status => flushRequests env (some status) s
  | none =>
    { s with waiting := s.waiting.erase req }.finish env req
      ⟨500, "Failed to get status.", none⟩

def appRestartHandler (env : Env Conf) (s : State Conf) (req : Request) (ready : Bool) :
    State Conf :=
  { s with waiting := s.waiting.erase req }.finish env req
    (if ready then ⟨200, "Ok", none⟩ else ⟨500, "Failed to restart app.", none⟩)

def answerCall (env : Env Conf) (s : State Conf) (ready : Bool) : Call Conf → State Conf
  | .init conf => confInitHandler env s conf ready
  | .conf req conf => confHandler env s req conf ready
  | .certApply req conf => certApplyHandler env s req conf ready
  | .status req => statusHandler env s req ready
  | .restart req => appRestartHandler env s req ready

/-- The handler of an answer of the main process:
`nxt_controller_process_conf_store`, `nxt_controller_cert_store_handler`,
`nxt_controller_cert_delete_handler`, `nxt_controller_process_script_save`,
`nxt_controller_process_script_delete`. -/
def answerStore (env : Env Conf) (s : State Conf) (ready : Bool) (store : Store Conf) :
    State Conf :=
  let s := { s with storing := Function.update s.storing store.kind false }
  match store.kind with
  | .conf =>
    if ready then { s with stored := store.conf }.finish env store.req reconfigurationDone
    else s.finish env store.req ⟨500, "Failed to store the configuration.", none⟩
  | .put kind =>
    if ready then
      match kind with
      | .cert =>
        if s.waitingInitConf then { s with certStored := some store.req }
        else certApply env s store.req
      | .script => s.finish env store.req ⟨200, "JS module uploaded.", none⟩
    else s.finish env store.req ⟨500, kind.texts.putFailed, none⟩
  | .delete kind =>
    if ready then s.finish env store.req ⟨200, kind.texts.deleted, none⟩
    else s.finish env store.req ⟨500, kind.texts.deleteFailed, none⟩

/-! ### Routers -/

def sendCurrentConf (env : Env Conf) (s : State Conf) : State Conf :=
  match (if env.resend then s.conf else none) with
  | some conf => { s with calls := s.calls ++ [.init conf], waitingInitConf := true }
  | none => flushRequests env none { s.fallBack env with listening := true }

/-- `nxt_controller_process_new_port_handler` for the port of a router -/
def processNewPortHandler (env : Env Conf) (s : State Conf) : State Conf :=
  let s := { s with routerPort := true }
  if s.routerReady then sendCurrentConf env s else s

def routerReadyHandler (env : Env Conf) (s : State Conf) : State Conf :=
  let s := { s with routerReady := true, greeted := true }
  if s.routerPort then sendCurrentConf env s else s

/-- `nxt_controller_remove_pid_handler` for the process of a router: a process without
a known port is not found, and nothing happens.  The messages to the router fail
before its port is closed. -/
def removePidHandler (env : Env Conf) (s : State Conf) : State Conf :=
  let s := { s with greeted := false }
  if s.routerPort then
    let failed := s.calls.foldl (fun s call => answerCall env s false call)
      { s with routerReady := false, calls := [] }
    { failed with routerPort := false }
  else s

inductive Event (Conf : Type) where
  | request (req : Request)
  | routerAnswer (call : Call Conf) (ready : Bool)
  | storeAnswer (store : Store Conf) (ready : Bool)
  | newPort
  | routerReady
  | removePid
  deriving DecidableEq, Repr

variable [DecidableEq Conf]

/-- One event, if it can happen: a request is new and the controller listens, an
answer is to a message, and a router announces its port and its readiness once, in
either order, and not before the death of the one before it was reported. -/
def step (env : Env Conf) (s : State Conf) : Event Conf → Option (State Conf)
  | .request req =>
    if s.listening ∧ req ∉ s.seen then
      some (processRequest env none { s with seen := s.seen ++ [req] } req)
    else none
  | .routerAnswer call ready =>
    if call ∈ s.calls then some (answerCall env { s with calls := s.calls.erase call } ready call)
    else none
  | .storeAnswer store ready =>
    if store ∈ s.stores then
      some (answerStore env { s with stores := s.stores.erase store } ready store)
    else none
  | .newPort => if s.routerPort then none else some (processNewPortHandler env s)
  | .routerReady => if s.greeted then none else some (routerReadyHandler env s)
  | .removePid => some (removePidHandler env s)

end

end FreeUnit.Controller
