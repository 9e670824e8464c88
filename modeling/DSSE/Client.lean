import DSSE.Exchange
import DSSE.Layouts
import DSSE.Server

/-! `DSSE::Client` talking to one `DSSE::Server` over a connection that loses nothing: each method
    sends one request, the server handles it, and the method goes on with the reply. The methods amount
    to the exchanges between two cores. -/

namespace DSSE
open Schemes

variable (tc : Tomcrypt)

/-- `static_cast<msg::Version>(version)` for the versions that SetupClient lets through. -/
def castVersion (version : ℤ) : Version :=
  if version = Version.Basic.toInt then .Basic
  else if version = Version.Packed.toInt then .Packed
  else .Pointer

/-- The first half of `Client::Setup`: the new client and the request. -/
def Client.setupRequest (core : Core) (version : ℤ) (keys : Keys) (tokens : List Bytes)
    (fileids : Postings) : Except Halt (Core × Msg.Request) := do
  let (core, L, M) ← setupClient tc version core keys tokens fileids
  return (core, ⟨some (.setup ⟨L.map fun p => ⟨p.Token, p.FileID⟩, M⟩), some (castVersion version)⟩)

/-- The first half of `Client::Search`: the request. -/
def Client.searchRequest (core : Core) (w : Bytes) : Msg.Request :=
  let k := searchClient tc core w
  ⟨some (.search ⟨k.K1, k.K2, k.K1plus, k.K2plus, k.K1minus⟩), none⟩

/-- The first half of `Client::Add`: the new client, the request and the words in its order. -/
def Client.addRequest (core : Core) (stack : Stack) (id : UInt64) (words : List Bytes) :
    Core × Msg.Request × List Bytes :=
  let (core, L, W) := addClient tc core stack id words
  (core, ⟨some (.add ⟨L.map fun p => ⟨p.Token, p.FileID, p.RevID⟩⟩), none⟩, W)

/-- The first half of `Client::Delete`: the request. -/
def Client.deleteRequest (core : Core) (id : UInt64) (words : List Bytes) : Msg.Request :=
  ⟨some (.delete ⟨deleteClient tc core id words⟩), none⟩

/-- The flags that the reply to an add carries, as the client reads them. -/
def resultFlags : Msg.Result → List UInt8
  | ⟨.add m⟩ => m.r.map fun x => if x then 1 else 0
  | ⟨.delete⟩ => []

/-- One request and its reply; without a reply the client waits forever. -/
def request (server : Core) (req : Msg.Request) : Except Halt (Core × Reply) := do
  let (server, reply) ← handleMessage tc server req
  match reply with
  | some reply => return (server, reply)
  | none => .error .hang

/-- `Client::Setup`: whatever the reply is, the method returns true. -/
def Client.setup (p : Pair) (version : ℤ) (keys : Keys) (tokens : List Bytes) (fileids : Postings) :
    Except Halt (Pair × Bool) := do
  let (client, req) ← Client.setupRequest tc p.client version keys tokens fileids
  let (server, _) ← request tc p.server req
  return (⟨client, server⟩, true)

/-- `Client::Search`. -/
def Client.search (p : Pair) (w : Bytes) : Except Halt (Pair × List UInt64) := do
  let (server, reply) ← request tc p.server (Client.searchRequest tc p.client w)
  match reply with
  | .searchResult m => return ({ p with server := server }, m.fileid.map Int64.toUInt64)
  | _ => return ({ p with server := server }, [])

/-- `Client::Add`. -/
def Client.add (p : Pair) (stack : Stack) (id : UInt64) (words : List Bytes) :
    Except Halt (Pair × Bool) := do
  let (client, req, W) := Client.addRequest tc p.client stack id words
  let (server, reply) ← request tc p.server req
  match reply with
  | .result m =>
    let client ← addClient2 client (resultFlags m) W
    return (⟨client, server⟩, true)
  | _ => return (⟨client, server⟩, false)

/-- `Client::Delete`. -/
def Client.delete (p : Pair) (id : UInt64) (words : List Bytes) : Except Halt (Pair × Bool) := do
  let (server, reply) ← request tc p.server (Client.deleteRequest tc p.client id words)
  match reply with
  | .result _ => return ({ p with server := server }, true)
  | _ => return ({ p with server := server }, false)

/-! ### The methods as exchanges between cores -/

theorem castVersion_toInt {version : ℤ} {core core' : Core} {keys : Keys} {tokens : List Bytes}
    {fileids : Postings} {r : List SetupPair × List Bytes}
    (h : setupClient tc version core keys tokens fileids = .ok (core', r)) :
    (castVersion version).toInt = version := by
  obtain ⟨v, lay, hlay, rfl⟩ := setupClient_version tc h
  cases v with
  | Basic => rfl
  | Packed => rfl
  | Pointer => rfl
  | TwoLevelPointer => cases hlay

theorem Client.setup_eq (p : Pair) (version : ℤ) (keys : Keys) (tokens : List Bytes)
    (fileids : Postings) : Client.setup tc p version keys tokens fileids =
      (p.setup tc version keys tokens fileids).map (·, true) := by
  rw [Client.setup, Client.setupRequest, Pair.setup]
  cases hs : setupClient tc version p.client keys tokens fileids with
  | error e => rfl
  | ok r =>
    obtain ⟨client, L, M⟩ := r
    have hver := castVersion_toInt tc hs
    simp only [bind, Except.bind, pure, Except.pure, request, handleMessage, handleSetup,
      Msg.Request.getVersion, Option.getD_some, hver, List.map_map, Except.map]
    have hL : L.map ((fun p : Msg.TokenPair => (⟨p.Counter, p.FileID⟩ : SetupPair)) ∘
        fun p => ⟨p.Token, p.FileID⟩) = L := List.map_id'' (fun _ => rfl) L
    rw [hL]

/-- The keys that a client sends have the right length. -/
theorem searchKeys_searchRequest (core : Core) (w : Bytes) :
    searchKeys ⟨(searchClient tc core w).K1, (searchClient tc core w).K2,
      (searchClient tc core w).K1plus, (searchClient tc core w).K2plus,
      (searchClient tc core w).K1minus⟩ = some (searchClient tc core w) := by
  have hlen : ∀ key n, (macKey tc key n w).length = KEYLEN := fun _ _ => tc.hmac_length _ _
  simp [searchKeys, searchClient, hlen]

theorem Client.search_eq (p : Pair) (w : Bytes) :
    Client.search tc p w = (p.search tc w).map (p, ·) := by
  rw [Client.search, Pair.search]
  simp only [request, Client.searchRequest, handleMessage, handleSearch, searchKeys_searchRequest,
    bind, Except.bind]
  cases searchServer tc p.server (searchClient tc p.client w) with
  | error e => rfl
  | ok ids =>
    simp only [Except.map, pure, Except.pure, List.map_map]
    have hids : ids.map (Int64.toUInt64 ∘ UInt64.toInt64) = ids :=
      List.map_id'' (fun _ => UInt64.toUInt64_toInt64 _) ids
    rw [hids]

theorem addServerPair_flags (core : Core) (q : AddPair) :
    (addServerPair core q).2.map (fun x => if (x != 0) = true then (1 : UInt8) else 0) =
      (addServerPair core q).2 := by
  rcases addServerPair_cases core q with ⟨-, h⟩ | ⟨-, -, h⟩ | ⟨-, -, h⟩ <;> rw [h] <;> rfl

/-- Flags are 0 or 1, so they survive the trip as booleans. -/
theorem addServer_flags : ∀ (L : List AddPair) (core : Core),
    (addServer core L).2.map (fun x => if (x != 0) = true then (1 : UInt8) else 0) =
      (addServer core L).2
  | [], _ => rfl
  | q :: L, core => by
    rw [addServer]
    simp only [List.map_append, addServerPair_flags, addServer_flags L]

theorem Client.add_eq (p : Pair) (stack : Stack) (id : UInt64) (words : List Bytes) :
    Client.add tc p stack id words = (p.add tc stack id words).map (·, true) := by
  obtain ⟨client, L, W, hadd⟩ : ∃ client L W, addClient tc p.client stack id words = (client, L, W) :=
    ⟨_, _, _, rfl⟩
  have hL : L.map (fun p : AddPair => (⟨p.Token, p.FileID, p.RevID⟩ : AddPair)) = L :=
    List.map_id'' (fun _ => rfl) L
  have hr := addServer_flags L p.server
  rw [Client.add, Client.addRequest, Pair.add, hadd]
  simp only [request, handleMessage, handleAdd, List.map_map, Function.comp_def, hL, bind,
    Except.bind, pure, Except.pure, resultFlags, hr]
  cases addClient2 client (addServer p.server L).2 W <;> rfl

theorem Client.setup_ok {p p' : Pair} {version : ℤ} {keys : Keys} {tokens : List Bytes}
    {fileids : Postings} (h : Client.setup tc p version keys tokens fileids = .ok (p', true)) :
    p.setup tc version keys tokens fileids = .ok p' := by
  rw [Client.setup_eq] at h
  cases hs : p.setup tc version keys tokens fileids with
  | error e => rw [hs] at h; cases h
  | ok q => rw [hs] at h; cases h; rfl

theorem Client.add_ok {p p' : Pair} {stack : Stack} {id : UInt64} {words : List Bytes}
    (h : Client.add tc p stack id words = .ok (p', true)) : p.add tc stack id words = .ok p' := by
  rw [Client.add_eq] at h
  cases hadd : p.add tc stack id words with
  | error e => rw [hadd] at h; cases h
  | ok q => rw [hadd] at h; cases h; rfl

theorem Client.delete_eq (p : Pair) (id : UInt64) (words : List Bytes) :
    Client.delete tc p id words = .ok (p.delete tc id words, true) := rfl

/-- One call of a method of the client; a search gives the ids found. -/
def Client.step (p : Pair) : Op → Except Halt (Pair × List (List UInt64))
  | .setup version keys tokens fileids => do
    let (p, _) ← Client.setup tc p version keys tokens fileids
    return (p, [])
  | .add stack id words => do
    let (p, _) ← Client.add tc p stack id words
    return (p, [])
  | .delete id words => do
    let (p, _) ← Client.delete tc p id words
    return (p, [])
  | .search w => do
    let (p, ids) ← Client.search tc p w
    return (p, [ids])

def Client.run (p : Pair) (ops : List Op) : Except Halt (Pair × List (List UInt64)) :=
  runs (Client.step tc) p ops

theorem Client.step_eq (p : Pair) (op : Op) : Client.step tc p op = p.step tc op := by
  cases op with
  | setup version keys tokens fileids =>
    rw [Client.step, Client.setup_eq, Pair.step]
    cases p.setup tc version keys tokens fileids <;> rfl
  | add stack id words =>
    rw [Client.step, Client.add_eq, Pair.step]
    cases p.add tc stack id words <;> rfl
  | delete id words => rfl
  | search w =>
    rw [Client.step, Client.search_eq, Pair.step]
    cases p.search tc w <;> rfl

/-- Runs of the client's methods are runs of the exchanges. -/
theorem Client.run_eq (p : Pair) (ops : List Op) : Client.run tc p ops = p.run tc ops := by
  have hstep : Client.step tc = Pair.step tc := funext fun p => funext (Client.step_eq tc p)
  rw [Client.run, Pair.run, hstep]

end DSSE
