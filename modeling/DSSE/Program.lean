import DSSE.Names
import DSSE.OverWire
import DSSE.Restart

/-! The two programs. `main` of `client.cpp` reads its arguments, loads the state that the last process
    saved unless it makes a new one, calls one method of `Client` and saves again. The server of
    `server.cpp` answers those that connect to its port, and may be stopped and started again between two
    commands. -/

namespace DSSE
open Schemes Std

/-- The bytes of an ASCII literal. -/
def text (s : String) : Bytes := s.toList.map fun c => UInt8.ofNat c.toNat

/-- `atoi`: what `strtol` reads, cut down to an `int`. -/
def atoi (s : Bytes) : ℤ :=
  let (neg, n, _) := IStream.number (s.dropWhile IStream.isSpace)
  let long : ℤ := if neg then max (-2 ^ 63) (-n) else min (2 ^ 63 - 1) n
  Int.bmod long (2 ^ 32)

/-- What a process of the client takes from outside: its arguments, the files that it can read, the keys
    that its random generator gives to Setup and what its stack happens to hold. -/
structure Invocation where
  args : List Bytes
  files : Bytes → Option Bytes
  keys : Keys
  stack : Stack

/-! ### Arguments -/

def DefaultPort : ℤ := 24992

/-- The variables of `main` behind the loop over the options, and `argv` from `optind` on. -/
structure Options where
  port : ℤ
  version : ℤ
  operands : List Bytes
  deriving DecidableEq

/-- The letters of one argument, and whether the port is the next argument. -/
def optionLetters : Bytes → Options → Except Halt (Options × Bool)
  | [], o => .ok (o, false)
  | c :: letters, o =>
    if c = 0x50 then  -- `P`
      optionLetters letters
        (if o.version < Version.Pointer.toInt then { o with version := o.version + 1 } else o)
    else if c = 0x70 then  -- `p`
      if letters = [] then .ok (o, true) else .ok ({ o with port := atoi letters }, false)
    else .error .exit

/-- `getopt(argc, argv, "Pp:")`, which takes options also from behind the other arguments. -/
def getoptLoop : List Bytes → Options → Except Halt Options
  | [], o => .ok o
  | arg :: args, o =>
    if arg = text "--" then .ok { o with operands := o.operands ++ args }
    else match arg with
      | 0x2d :: c :: letters =>
        match optionLetters (c :: letters) o with
        | .error e => .error e
        | .ok (o, false) => getoptLoop args o
        | .ok (o, true) => match args with
          | [] => .error .exit
          | port :: args => getoptLoop args { o with port := atoi port }
      | arg => getoptLoop args { o with operands := o.operands ++ [arg] }

def getopt (args : List Bytes) : Except Halt Options :=
  getoptLoop args ⟨DefaultPort, Version.Basic.toInt, []⟩

/-- The loop `while (getline(manifest, filename))`. -/
def getlines (manifest : Bytes) : List Bytes :=
  let lines := manifest.splitOn 0x0a
  if lines.getLast? = some [] then lines.dropLast else lines

inductive Command where
  | setup (version : ℤ) (filenames : List Bytes)
  | setupTest (version : ℤ)
  | search (word : Bytes)
  | add (fileid : UInt64) (words : List Bytes)
  | addFile (filename : Bytes)
  | delete (fileid : UInt64) (words : List Bytes)
  deriving DecidableEq

/-- `static_cast<uint64_t>(fileid)`. -/
def castFileid (fileid : ℤ) : UInt64 := UInt64.ofNat (fileid % 2 ^ 64).toNat

/-- `Client::Connect`, with the port that ZeroMQ takes from the address; it throws where there is a sign
    before the number. Whether anybody listens is not found out here. -/
def connect (port : ℤ) : Except Halt UInt16 :=
  if port < 0 then .error .throw else .ok (UInt16.ofInt port)

/-- What the operands ask for. -/
def Invocation.operate (inv : Invocation) (version : ℤ) (command : Bytes) (args : List Bytes) :
    Except Halt Command :=
  if command = text "setup" then
    if args = [] then return .setupTest version else return .setup version args
  else if command = text "setuplist" then
    match args with
    | [manifest] => match inv.files manifest with
      | some list => return .setup version (getlines list)
      | none => .error .exit
    | _ => .error .exit
  else if command = text "search" then
    match args with
    | word :: _ => return .search word
    | [] => .error .exit
  else if command = text "add" then
    match args with
    | fileid :: words => return .add (castFileid (atoi fileid)) words
    | [] => .error .exit
  else if command = text "addfile" then
    match args with
    | filename :: _ => return .addFile filename
    | [] => .error .exit
  else if command = text "delete" then
    match args with
    | fileid :: words => return .delete (castFileid (atoi fileid)) words
    | [] => .error .exit
  else .error .exit

/-- The port that the client connects to and what the arguments ask for. Nothing has been sent or written
    where the program exits here. -/
def Invocation.command (inv : Invocation) : Except Halt (UInt16 × Command) := do
  let o ← getopt inv.args
  match o.operands with
  | [] => .error .throw  -- `argv[optind]` is null
  | command :: args =>
    let port ← connect o.port
    let command ← inv.operate o.version command args
    return (port, command)

/-! ### A process of the client -/

/-- The files of the client's state, and the running server with its directory and the port that it
    listens on. -/
structure World where
  dir : ClientDir
  server : Machine
  port : UInt16

/-- A client that has loaded the state; without one the program exits. -/
def World.loaded (s : World) : Except Halt Client :=
  match Client.new.load s.dir with
  | (true, c) => .ok c
  | (false, _) => .error .exit

/-- The state is saved, and the server stays as it is. -/
def World.finish (s : World) (l : Link) : World :=
  { s with dir := (l.client.save s.dir).2, server := l.server }

/-- Nobody else listens: on another port a request is sent, and the client waits for the reply forever. -/
def Machine.unheard : Socket := fun m req =>
  match Msg.serialize req.toFields with
  | none => .ok (m, .unsent)
  | some _ => .error .hang

/-- The socket of a client that is connected to a port. Nobody can be reached on port 0. -/
def World.socket (tc : Tomcrypt) (s : World) (port : UInt16) : Socket :=
  if port = s.port ∧ port ≠ 0 then Machine.answer tc else Machine.unheard

/-- What `Client::Search` prints itself. -/
def gotResponse : Bytes := text "got response" ++ [0x0a]

/-- The line that is printed for an id. -/
def Client.line (c : Client) (word : Bytes) (id : UInt64) : Except Halt Bytes := do
  let filename ← c.filename id
  if filename = [] then return word ++ text ": " ++ IStream.decimal id.toNat ++ [0x0a]
  else return word ++ text ": " ++ filename ++ [0x0a]

/-- The words and posting lists of a setup without files. -/
def testTokens : List Bytes := [text "this", text "is", text "a", text "test"]

def testPostings : Postings := testTokens.foldl (fun fidmap token => fidmap.insert token [1]) ∅

section
variable (tc : Tomcrypt)

/-- The command is run and the state saved; the lines on the standard output, which only a search has. -/
def World.perform (s : World) (inv : Invocation) (port : UInt16) :
    Command → Except Halt (World × List Bytes)
  | .setup version filenames => do
    let (l, _) ← Link.setupFilesOn tc (s.socket tc port) ⟨.new, s.server⟩ version inv.keys inv.files
      filenames
    return (s.finish l, [])
  | .setupTest version => do
    let (l, _) ← Link.setupOn tc (s.socket tc port) ⟨.new, s.server⟩ version inv.keys testTokens
      testPostings
    return (s.finish l, [])
  | .search word => do
    let c ← s.loaded
    let (l, ids) ← Link.searchOn tc (s.socket tc port) ⟨c, s.server⟩ word
    let lines ← (ids.getD []).mapM (l.client.line word)
    return (s.finish l, if ids.isSome then gotResponse :: lines else lines)
  | .add fileid words => do
    let c ← s.loaded
    let (l, _) ← Link.addOn tc (s.socket tc port) ⟨c, s.server⟩ inv.stack fileid words
    return (s.finish l, [])
  | .addFile filename => do
    let c ← s.loaded
    let (l, _) ← Link.addFileByNameOn tc (s.socket tc port) ⟨c, s.server⟩ inv.stack inv.files filename
    return (s.finish l, [])
  | .delete fileid words => do
    let c ← s.loaded
    let (l, _) ← Link.deleteOn tc (s.socket tc port) ⟨c, s.server⟩ fileid words
    return (s.finish l, [])

/-- `main` of `client.cpp`. -/
def World.main (s : World) (inv : Invocation) : Except Halt (World × List Bytes) := do
  let (port, command) ← inv.command
  s.perform tc inv port command

/-- Somebody runs the client, or the server is stopped and started again. -/
inductive WorldEvent where
  | client (inv : Invocation)
  | restart

/-- The lines are those of the clients. A client that exits has sent and written nothing. -/
def World.step (s : World) : WorldEvent → Except Halt (World × List Bytes)
  | .client inv => match s.main tc inv with
    | .error .exit => .ok (s, [])
    | r => r
  | .restart =>
    let (_, server) := Machine.boot s.server.dir
    .ok ({ s with server := server }, [])

/-- The HMAC computations of an event. -/
def World.calls (s : World) : WorldEvent → List MacCall
  | .client inv => match inv.command, s.loaded with
    | .ok (_, .setup version filenames), _ =>
      setupCalls tc version inv.keys (indexFiles inv.files filenames).allTokens
        (indexFiles inv.files filenames).fileids
    | .ok (_, .setupTest version), _ => setupCalls tc version inv.keys testTokens testPostings
    | .ok (_, .search word), .ok c => Pair.searchCalls tc ⟨c.core, s.server.core⟩ word
    | .ok (_, .add fileid words), .ok c => addCalls tc c.core fileid words
    | .ok (_, .addFile filename), .ok c => addCalls tc c.core c.lastFileid (tokensOf inv.files filename)
    | .ok (_, .delete fileid words), .ok c => deleteCalls tc c.core fileid words
    | _, _ => []
  | .restart => []

def World.run (s : World) (events : List WorldEvent) : Except Halt (World × List Bytes) :=
  runs (World.step tc) s events

def World.runCalls (s : World) (events : List WorldEvent) : List MacCall :=
  runLog (World.step tc) (World.calls tc) s events

end

/-- No client has been run yet, and the server has just been started for the first time. -/
def World.start (port : UInt16) : World := ⟨fun _ => none, (Machine.boot fun _ => none).2, port⟩

end DSSE
