import DSSE.Core

/-! The messages of `dsse.proto` and the handlers of `DSSE::Server`. Message types are records, and an
    optional field that nothing asks for by `has_…` is read as its value or default. A handler gives the
    new state of the core and the reply it passes to the socket, if any. -/

namespace DSSE
open Schemes

namespace Msg

structure TokenPair where
  Counter : Bytes
  FileID : Bytes
  deriving DecidableEq

structure Setup where
  L : List TokenPair
  M : List Bytes
  deriving DecidableEq

structure Search where
  K1 : Bytes
  K2 : Bytes
  K1plus : Bytes
  K2plus : Bytes
  K1minus : Bytes
  deriving DecidableEq

structure SearchResult where
  fileid : List Int64
  deriving DecidableEq

structure Pair where
  Token : Bytes
  FileID : Bytes
  RevID : Bytes
  deriving DecidableEq

structure Add where
  L : List Pair
  deriving DecidableEq

structure AddResult where
  r : List Bool
  deriving DecidableEq

structure Delete where
  L : List Bytes
  deriving DecidableEq

/-- `oneof msg` of a request. -/
inductive RequestMsg where
  | setup (m : Setup)
  | search (m : Search)
  | add (m : Add)
  | delete (m : Delete)
  deriving DecidableEq

/-- A request; `version` is unset or one of the enum's values, the only ones that parsing lets in. -/
structure Request where
  msg : Option RequestMsg
  version : Option Version
  deriving DecidableEq

/-- `oneof msg` of a result, as far as the server sets it. -/
inductive ResultMsg where
  | add (m : AddResult)
  | delete
  deriving DecidableEq

structure Result where
  msg : ResultMsg
  deriving DecidableEq

/-- `version()`, with the default of the `.proto` file. -/
def Request.getVersion (req : Request) : Version := req.version.getD .Basic

end Msg

/-- What the server passes to its socket: an empty message or the encoding of a `SearchResult` or a
    `Result`. -/
inductive Reply where
  | empty
  | searchResult (m : Msg.SearchResult)
  | result (m : Msg.Result)
  deriving DecidableEq

variable (tc : Tomcrypt)

def handleSetup (core : Core) (req : Msg.Request) (setup : Msg.Setup) : Core × Reply :=
  let L := setup.L.map fun p => ⟨p.Counter, p.FileID⟩
  (setupServer req.getVersion.toInt core L setup.M, .empty)

/-- The keys of a search, if each of them has the right length. -/
def searchKeys (search : Msg.Search) : Option SearchKeys :=
  if search.K1.length ≠ KEYLEN then none
  else if search.K2.length ≠ KEYLEN then none
  else if search.K1plus.length ≠ KEYLEN then none
  else if search.K2plus.length ≠ KEYLEN then none
  else if search.K1minus.length ≠ KEYLEN then none
  else some ⟨search.K1, search.K2, search.K1plus, search.K2plus, search.K1minus⟩

/-- A key of the wrong length is only logged: there is no reply then. -/
def handleSearch (core : Core) (search : Msg.Search) : Except Halt (Option Reply) :=
  match searchKeys search with
  | none => .ok none
  | some k => do
    let vec ← searchServer tc core k
    return some (.searchResult ⟨vec.map UInt64.toInt64⟩)

def handleAdd (core : Core) (add : Msg.Add) : Core × Reply :=
  let L := add.L.map fun p => ⟨p.Token, p.FileID, p.RevID⟩
  let (core, r) := addServer core L
  (core, .result ⟨.add ⟨r.map fun x => x != 0⟩⟩)

def handleDelete (core : Core) (msg : Msg.Delete) : Core × Reply :=
  (deleteServer core msg.L, .result ⟨.delete⟩)

/-- A request without a message is only logged: there is no reply then. -/
def handleMessage (core : Core) (req : Msg.Request) : Except Halt (Core × Option Reply) :=
  match req.msg with
  | some (.setup m) =>
    let (core, reply) := handleSetup core req m
    .ok (core, some reply)
  | some (.search m) => (handleSearch tc core m).map (core, ·)
  | some (.add m) =>
    let (core, reply) := handleAdd core m
    .ok (core, some reply)
  | some (.delete m) =>
    let (core, reply) := handleDelete core m
    .ok (core, some reply)
  | none => .ok (core, none)

/-- What a request leaves of the server's state; a search leaves all of it, also where it does not come to
    its end. -/
def Core.handled (core : Core) (req : Msg.Request) : Core :=
  match handleMessage tc core req with
  | .ok (core, _) => core
  | .error _ => core

end DSSE
