import YikvServer.Registry.Step

/-!
# `admin_unix_socket.cc`

The server process while it serves its admin socket: the start of `main`, the thread of
`AdminLoop`, the registry that both call, and the clients, each of which may connect, send
and hang up at any moment. A byte is a character. Writing to a connection whose client has
hung up raises `SIGPIPE`, which ends the process until the RPC server is set up.
-/
namespace YikvServer.Admin

open YikvServer.Registry

/-! ## Commands -/

/-- `TrimCrlf`. -/
def trimCrlf (s : List Char) : List Char := s.rdropWhile fun c => c = '\n' || c = '\r'

/-- `line = buf`, where the bytes read are followed by a NUL. -/
def lineOf (buf : List Char) : List Char := trimCrlf (buf.takeWhile (· ≠ '\x00'))

/-- What `AdminLoop` does with a line. -/
inductive Command where
  | respond (resp : String)
  | reload (table : String)
  deriving DecidableEq, Repr

def command (line : List Char) : Command :=
  if "reload ".toList.isPrefixOf line then
    let table := trimCrlf ((line.drop 7).dropWhile (· = ' '))
    if table = [] then .respond "err: missing table name\n"
    else .reload (String.ofList table)
  else if line ≠ [] then .respond "err: expected 'reload <table>'\n"
  else .respond "err: empty command\n"

/-- The answer to a `reload`, by how `ReloadTable` has ended. -/
def response : Except String Unit → String
  | .ok () => "ok\n"
  | .error what => "err: " ++ what ++ "\n"

/-! ## The process -/

/-- What `main` does next. -/
inductive Phase where
  | scanAndLoad
  | scanning
  | addService
  | start
  | running
  deriving DecidableEq, Repr

/-- The RPC library has set `SIGPIPE` to ignored. -/
def Phase.ignoresSigpipe : Phase → Bool
  | .start | .running => true
  | _ => false

/-- The next statement of `AdminLoop`: the socket is made, then for each connection `c` the
loop reads a line, runs `ReloadTable`, after which there are more than `seen` answers,
writes the answer and closes. -/
inductive AdminPc where
  | unlink
  | socket
  | bind
  | listen
  | accept
  | read (c : Nat)
  | reload (c seen : Nat)
  | write (c : Nat) (resp : String)
  | close (c : Nat)
  | returned
  deriving DecidableEq, Repr

/-- One connection: the bytes sent and not yet read, those answered, and which side has
closed. -/
structure Connection where
  inbound : List Char
  outbound : List Char
  hungUp : Bool
  closed : Bool
  deriving DecidableEq, Repr

inductive Thread where
  | main
  | adminLoop
  deriving DecidableEq, Repr

structure Process where
  phase : Phase
  admin : AdminPc
  /-- The connections that wait for `accept`. -/
  waiting : List Nat
  connections : List Connection
  registry : Registry.State
  /-- The thread that has ended the process. -/
  ended : Option Thread

inductive Move where
  | connect
  | send (client : Nat) (bytes : List Char)
  | hangUp (client : Nat)
  /-- `AdminLoop` goes on; a system call fails, or `read` returns `count` bytes. -/
  | admin (fails : Bool) (count : Nat)
  /-- `main` goes on; the entries are those of `db_path_`. -/
  | main (fails : Bool) (entries : List String)
  /-- A call into the registry goes on, or an RPC uses it. -/
  | registry (a : Registry.Action)
  deriving DecidableEq, Repr

/-- `main` after `StartAdminUnixSocket`. -/
def Process.init (adminUnixSocket : String) : Process where
  phase := .scanAndLoad
  admin := if adminUnixSocket = "" then .returned else .unlink
  waiting := []
  connections := []
  registry := .init
  ended := none

namespace Process
variable (W : World)

/-- `connect` succeeds from `listen` on. -/
def listening (p : Process) : Bool :=
  match p.admin with
  | .unlink | .socket | .bind | .listen | .returned => false
  | _ => true

def setConnection (p : Process) (c : Nat) (connection : Connection) : Process :=
  { p with connections := p.connections.set c connection }

/-- What `read` returns: nothing once the client has hung up, or else some of the bytes sent;
it waits for either. -/
def readBytes (connection : Connection) (count : Nat) : Option (List Char × Connection) :=
  if connection.inbound = [] then
    if connection.hungUp then some ([], connection) else none
  else if 1 ≤ count ∧ count ≤ 1023 ∧ count ≤ connection.inbound.length then
    some (connection.inbound.take count,
      { connection with inbound := connection.inbound.drop count })
  else none

/-- The line is carried out. -/
def obey (p : Process) (c : Nat) (line : List Char) : Option Process :=
  match command line with
  | .respond resp => some { p with admin := .write c resp }
  | .reload table =>
    (Registry.step W p.registry (.reloadTable table)).map fun registry =>
      { p with registry, admin := .reload c p.registry.answers.length }

/-- The next statement of `AdminLoop`. -/
def adminLoop (path : String) (fails : Bool) (count : Nat) (p : Process) : Option Process :=
  match p.admin with
  | .unlink => some { p with admin := if fails then .returned else .socket }
  | .socket => some { p with admin := if fails then .returned else .bind }
  | .bind =>
    -- `sizeof(addr.sun_path)` is 108.
    some { p with admin := if 108 ≤ path.utf8ByteSize ∨ fails then .returned else .listen }
  | .listen => some { p with admin := if fails then .returned else .accept }
  | .accept =>
    if fails then some p
    else
      match p.waiting with
      | [] => none
      | c :: rest => some { p with waiting := rest, admin := .read c }
  | .read c =>
    if fails then p.obey W c []
    else
      (p.connections[c]?).bind fun connection =>
        (readBytes connection count).bind fun (buf, connection) =>
          (p.setConnection c connection).obey W c (lineOf buf)
  | .reload c seen =>
    match p.registry.answers with
    | [] => none
    | answer :: rest =>
      if seen ≤ rest.length then some { p with admin := .write c (response answer.result) }
      else none
  | .write c resp =>
    (p.connections[c]?).map fun connection =>
      if connection.hungUp then
        if p.phase.ignoresSigpipe then { p with admin := .close c }
        else { p with ended := some .adminLoop }
      else
        { p.setConnection c { connection with outbound := connection.outbound ++ resp.toList } with
          admin := .close c }
  | .close c =>
    (p.connections[c]?).map fun connection =>
      { p.setConnection c { connection with closed := true } with admin := .accept }
  | .returned => none

/-- `ScanAndLoad` has returned. -/
def scanned (registry : Registry.State) : Bool :=
  registry.calls.all (fun
    | .scan _ | .load _ (.scan _) => false
    | _ => true) &&
  registry.load.all fun f =>
    match f.caller with
    | .scan _ => false
    | .hotOpen _ => true

/-- The next statement of `main`. -/
def main (fails : Bool) (entries : List String) (p : Process) : Option Process :=
  match p.phase with
  | .scanAndLoad =>
    -- `db_path is not a directory`
    if fails then some { p with phase := .addService }
    else
      (Registry.step W p.registry (.scanAndLoad entries)).map fun registry =>
        { p with registry, phase := .scanning }
  | .scanning => if scanned p.registry then some { p with phase := .addService } else none
  | .addService =>
    some (if fails then { p with ended := some .main } else { p with phase := .start })
  | .start => some (if fails then { p with ended := some .main } else { p with phase := .running })
  | .running => some { p with ended := some .main }

/-- The thread that runs the statement: `ReloadTable` runs in `AdminLoop`. -/
def runner (registry : Registry.State) : Registry.Action → Thread
  | .load _ =>
    match registry.load.map LoadFrame.caller with
    | some (.hotOpen _) => .adminLoop
    | _ => .main
  | _ => .adminLoop

/-- Handles are acquired by RPCs; `main` and `AdminLoop` make the other calls. -/
def mayRun (p : Process) : Registry.Action → Bool
  | .acquire _ | .release _ => p.phase = .running
  | .scanAndLoad _ | .reloadTable _ => false
  | _ => true

/-- A null index that is dereferenced ends the process. -/
def runRegistry (p : Process) (a : Registry.Action) : Option Process :=
  if p.mayRun a then
    (Registry.step W p.registry a).map fun registry =>
      { p with registry, ended := if registry.crashed then some (runner p.registry a) else none }
  else none

def step (path : String) (p : Process) (m : Move) : Option Process :=
  if p.ended.isSome then none
  else
    match m with
    | .connect =>
      if p.listening then
        some { p with
          waiting := p.waiting ++ [p.connections.length]
          connections := p.connections ++ [⟨[], [], false, false⟩] }
      else none
    | .send client bytes =>
      (p.connections[client]?).bind fun connection =>
        if connection.hungUp then none
        else some (p.setConnection client { connection with inbound := connection.inbound ++ bytes })
    | .hangUp client =>
      (p.connections[client]?).map fun connection =>
        p.setConnection client { connection with hungUp := true }
    | .admin fails count => p.adminLoop W path fails count
    | .main fails entries => p.main W fails entries
    | .registry a => p.runRegistry W a

end Process

end YikvServer.Admin
