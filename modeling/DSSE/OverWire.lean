import DSSE.Frame
import DSSE.Sizes

/-! The methods of `Client` with the bytes that go over the socket: the request is encoded, the server
    handles what it parses, saves and sends its reply, and the client parses that. A request of 2GB is not
    sent. All others do what the exchange of two cores does. -/

namespace DSSE
open Schemes Schemes.Wire Std

/-- A reply that does not parse is none. -/
def Delivery.parse {α β : Type} (f : α → Option β) : Delivery α → Delivery β
  | .unsent => .unsent
  | .unanswered => .unanswered
  | .answered reply => match f reply with
    | some m => .answered m
    | none => .unanswered

/-- A client and the server process at the other end of its socket. -/
structure Link where
  client : Client
  server : Machine

/-- What becomes of a request that is given to the socket of a client. -/
abbrev Socket := Machine → Msg.Request → Except Halt (Machine × Delivery Bytes)

/-- `send_message`, what the server does with the message, and `recv`; where no reply is sent the client
    waits for it forever. -/
def Machine.answer (tc : Tomcrypt) : Socket := fun m req =>
  match Msg.serialize req.toFields with
  | none => .ok (m, .unsent)
  | some zmsg => do
    let (m, sent) ← m.receive tc dsseProto zmsg
    match sent with
    | [] => .error .hang
    | reply :: _ => return (m, .answered reply)

/-! The methods of `Client`, over any socket. -/

section
variable (tc : Tomcrypt) (socket : Socket)

/-- `Client::Setup`. -/
def Link.setupOn (l : Link) (version : ℤ) (keys : Keys) (tokens : List Bytes) (fileids : Postings) :
    Except Halt (Link × Bool) := do
  let (_, req) ← Client.setupRequest tc l.client.core version keys tokens fileids
  let (server, d) ← socket l.server req
  let (client, ok) ← l.client.setupVia tc version keys tokens fileids (d.map fun _ => ())
  return (⟨client, server⟩, ok)

/-- `Client::SetupFiles`. -/
def Link.setupFilesOn (l : Link) (version : ℤ) (keys : Keys) (files : Bytes → Option Bytes)
    (filenames : List Bytes) : Except Halt (Link × Bool) := do
  let ix := indexFiles files filenames
  let (l, ok) ← l.setupOn tc socket version keys ix.allTokens ix.fileids
  if !ok then return (l, false)
  else return ({ l with client := { l.client with
    lastFileid := ix.lastFileid
    fileidMap := ix.fileidToFilename } }, true)

/-- `Client::Search`, with the ids where there is a response. -/
def Link.searchOn (l : Link) (w : Bytes) : Except Halt (Link × Option (List UInt64)) := do
  let (server, d) ← socket l.server (Client.searchRequest tc l.client.core w)
  match d.parse Msg.SearchResult.parse with
  | .answered m => return ({ l with server := server }, some (m.fileid.map Int64.toUInt64))
  | _ => return ({ l with server := server }, none)

/-- `Client::Add`. -/
def Link.addOn (l : Link) (stack : Stack) (fileid : UInt64) (words : List Bytes) :
    Except Halt (Link × Bool) := do
  let (server, d) ← socket l.server (Client.addRequest tc l.client.core stack fileid words).2.1
  let (client, ok) ← l.client.addReply tc stack fileid words (d.parse Msg.AnyResult.parse)
  return (⟨client, server⟩, ok)

/-- `Client::AddFileByName`. -/
def Link.addFileByNameOn (l : Link) (stack : Stack) (files : Bytes → Option Bytes) (filename : Bytes) :
    Except Halt (Link × Bool) :=
  match tokenize (files filename) with
  | none => .ok (l, false)
  | some tokens => do
    let fileid := l.client.lastFileid
    let (l, ok) ← l.addOn tc socket stack fileid tokens
    if !ok then return (l, false)
    else return ({ l with client := { l.client with
      fileidMap := l.client.fileidMap.insert fileid filename
      lastFileid := l.client.lastFileid + 1 } }, true)

/-- `Client::Delete`. -/
def Link.deleteOn (l : Link) (fileid : UInt64) (words : List Bytes) : Except Halt (Link × Bool) := do
  let (server, d) ← socket l.server (Client.deleteRequest tc l.client.core fileid words)
  match d.parse Msg.AnyResult.parse with
  | .answered _ => return ({ l with server := server }, true)
  | _ => return ({ l with server := server }, false)

end

/-! The methods with the server at the other end. -/

section
variable (tc : Tomcrypt)

def Link.setup (l : Link) (version : ℤ) (keys : Keys) (tokens : List Bytes) (fileids : Postings) :
    Except Halt (Link × Bool) :=
  l.setupOn tc (Machine.answer tc) version keys tokens fileids

/-- An error is an empty result. -/
def Link.search (l : Link) (w : Bytes) : Except Halt (Link × List UInt64) := do
  let (l, ids) ← l.searchOn tc (Machine.answer tc) w
  return (l, ids.getD [])

def Link.add (l : Link) (stack : Stack) (fileid : UInt64) (words : List Bytes) :
    Except Halt (Link × Bool) :=
  l.addOn tc (Machine.answer tc) stack fileid words

def Link.delete (l : Link) (fileid : UInt64) (words : List Bytes) : Except Halt (Link × Bool) :=
  l.deleteOn tc (Machine.answer tc) fileid words

/-- One call of a method; a search gives the ids found. -/
def Link.step (l : Link) : Op → Except Halt (Link × List (List UInt64))
  | .setup version keys tokens fileids => do
    let (l, _) ← l.setup tc version keys tokens fileids
    return (l, [])
  | .add stack id words => do
    let (l, _) ← l.add tc stack id words
    return (l, [])
  | .delete id words => do
    let (l, _) ← l.delete tc id words
    return (l, [])
  | .search w => do
    let (l, ids) ← l.search tc w
    return (l, [ids])

def Link.run (l : Link) (ops : List Op) : Except Halt (Link × List (List UInt64)) :=
  runs (Link.step tc) l ops

end

variable {tc : Tomcrypt}

/-! ### What is sent -/

/-- A request that can be sent is handled as it is, and its reply comes back in bytes. -/
theorem Machine.answer_eq (tc : Tomcrypt) (m : Machine) {req : Msg.Request} (hreq : Msg.Sendable req.toFields) :
    m.answer tc req = (m.serve tc req).bind fun r => match r.2.bind dsseProto.wire with
      | some bs => .ok (r.1, .answered bs)
      | none => .error .hang := by
  have hparse : dsseProto.parse (Schemes.Wire.write req.toFields) = some req :=
    Msg.Request.parse_serialize (Msg.serialize_eq hreq)
  rw [Machine.answer, Msg.serialize_eq hreq]
  simp only [Machine.receive, hparse]
  cases m.serve tc req with
  | error e => rfl
  | ok r =>
    simp only [bind, Except.bind, pure, Except.pure]
    cases Option.bind r.2 dsseProto.wire <;> rfl

/-- Where the request is too long the method returns and the server has seen nothing. -/
theorem Machine.answer_unsent {m : Machine} {req : Msg.Request} (hreq : ¬ Msg.Sendable req.toFields) :
    m.answer tc req = .ok (m, .unsent) := by
  rw [Machine.answer, Msg.serialize, if_neg hreq]

/-- The keys of a search are few bytes. -/
theorem Client.searchRequest_sendable (tc : Tomcrypt) (core : Core) (w : Bytes) :
    Msg.Sendable (Client.searchRequest tc core w).toFields := by
  have hsize := length_writeVarint_le (UInt64.ofNat 170)
  rw [Msg.Sendable, Client.length_searchRequest, fieldSize]
  omega

theorem Client.addRequest_sendable (tc : Tomcrypt) (core : Core) (stack : Stack) (id : UInt64)
    (words : List Bytes) :
    Msg.Sendable (Client.addRequest tc core stack id words).2.1.toFields ↔ words.length < 2 ^ 24 := by
  have hsize := length_writeVarint_le (UInt64.ofNat (words.length * 128))
  rw [Msg.Sendable, Client.length_addRequest, fieldSize]
  omega

theorem Client.deleteRequest_sendable (tc : Tomcrypt) (core : Core) (id : UInt64) (words : List Bytes) :
    Msg.Sendable (Client.deleteRequest tc core id words).toFields ↔ words.length ≤ 63161283 := by
  have hsize := length_writeVarint_le (UInt64.ofNat (words.length * 34))
  rw [Msg.Sendable, Client.length_deleteRequest, fieldSize]
  omega

/-- The flags are fewer bytes than the pairs that they answer. -/
theorem addReply_sendable {client : Core} {stack : Stack} {id : UInt64} {words : List Bytes}
    (hreq : Msg.Sendable (Client.addRequest tc client stack id words).2.1.toFields) (server : Core) :
    Msg.Sendable (Msg.Result.any ⟨.add ⟨(addServer server (addClient tc client stack id words).2.1).2.map
      fun x => x != 0⟩⟩).toFields := by
  have hflag : ∀ x : Bool, (writeField (8, .number (if x then 1 else 0))).length = 2 := by decide
  have hflags := length_addServer_le (addClient tc client stack id words).2.1 server
  rw [(addClient_sizes tc client stack id words).1] at hflags
  rw [Msg.Sendable, Client.length_addRequest, fieldSize] at hreq
  generalize (addServer server (addClient tc client stack id words).2.1).2 = r at hflags
  have hadd : (write (Msg.AddResult.toFields ⟨r.map fun x => x != 0⟩)).length = r.length * 2 := by
    rw [Msg.AddResult.toFields, length_write_map _ fun x _ => hflag x, List.length_map]
  have hsize := length_writeVarint_le (UInt64.ofNat (r.length * 2))
  rw [Msg.Sendable, Msg.Result.any, Msg.AnyResult.toFields]
  simp only [Option.map_none, Option.toList_none, List.nil_append, Option.map_some, Option.toList_some,
    Msg.AnyResultMsg.toField, write_cons, write_nil, List.append_nil,
    length_writeField (show 34 < 128 by norm_num), hadd, fieldSize]
  omega

/-! ### The methods -/

/-- What a client has of a reply that is read as it was written. -/
theorem Msg.AnyResult.parse_write {result : AnyResult} (h : Sendable result.toFields) :
    (Delivery.answered (write result.toFields)).parse parse = .answered result := by
  rw [Delivery.parse, parse_serialize (serialize_eq h)]

theorem Link.setup_sent {l : Link} {version : ℤ} {keys : Keys} {tokens : List Bytes} {fileids : Postings}
    {req : Msg.Request} (hreq : Op.request tc l.client.core (.setup version keys tokens fileids) = some req)
    (hsend : Msg.Sendable req.toFields) :
    ∃ core L M, setupClient tc version l.client.core keys tokens fileids = .ok (core, L, M) ∧
      l.setup tc version keys tokens fileids = .ok (⟨{ l.client with core := core },
        l.server.after req (setupServer version l.server.core L M)⟩, true) := by
  obtain ⟨core, L, M, hs, -, hhandle⟩ := handleMessage_setup hreq
  have hanswer : l.server.answer tc req =
      .ok (l.server.after req (setupServer version l.server.core L M), .answered []) := by
    rw [Machine.answer_eq tc l.server hsend, Machine.serve_eq, hhandle]
    rfl
  have hrequest : ∃ core', Client.setupRequest tc l.client.core version keys tokens fileids =
      .ok (core', req) := by
    rw [Op.request] at hreq
    split at hreq
    · rename_i core' req' h
      cases hreq
      exact ⟨core', h⟩
    · cases hreq
  obtain ⟨core', hrequest⟩ := hrequest
  refine ⟨core, L, M, hs, ?_⟩
  rw [Link.setup, Link.setupOn, hrequest]
  simp only [bind, Except.bind, hanswer, Client.setupVia, hs]
  rfl

theorem Link.add_sent {l : Link} {stack : Stack} {id : UInt64} {words : List Bytes}
    (hsend : Msg.Sendable (Client.addRequest tc l.client.core stack id words).2.1.toFields) :
    l.add tc stack id words =
      let (core, L, W) := addClient tc l.client.core stack id words
      let (server, r) := addServer l.server.core L
      (addClient2 core r W).map fun core => (⟨{ l.client with core := core },
        l.server.after (Client.addRequest tc l.client.core stack id words).2.1 server⟩, true) := by
  have hanswer := Machine.answer_eq tc l.server hsend
  have hreply := addReply_sendable hsend l.server.core
  rw [Machine.serve_eq, handleMessage_add] at hanswer
  simp only [Except.map, Except.bind, Option.bind_some, Protobuf.wire, dsseProto, Msg.serialize_eq hreply]
    at hanswer
  rw [Link.add, Link.addOn, hanswer]
  simp only [bind, Except.bind, Msg.AnyResult.parse_write hreply, Client.addReply, Client.addVia,
    Delivery.map, Msg.Result.flags_any, resultFlags, List.map_map, Function.comp_def, addServer_flags]
  cases addClient2 _ (addServer l.server.core (addClient tc l.client.core stack id words).2.1).2 _ <;> rfl

theorem Link.delete_sent {l : Link} {id : UInt64} {words : List Bytes}
    (hsend : Msg.Sendable (Client.deleteRequest tc l.client.core id words).toFields) :
    l.delete tc id words = .ok (⟨l.client, l.server.after (Client.deleteRequest tc l.client.core id words)
      (deleteServer l.server.core (deleteClient tc l.client.core id words))⟩, true) := by
  have hanswer := Machine.answer_eq tc l.server hsend
  rw [Machine.serve_eq] at hanswer
  rw [Link.delete, Link.deleteOn, hanswer]
  rfl

/-- Where the ids that are found do not fit a message the server sends nothing. -/
theorem Link.searchOn_sent (l : Link) (w : Bytes) :
    l.searchOn tc (Machine.answer tc) w =
      (searchServer tc l.server.core (searchClient tc l.client.core w)).bind fun ids =>
        if Msg.Sendable (Msg.SearchResult.toFields ⟨ids.map UInt64.toInt64⟩) then .ok (l, some ids)
        else .error .hang := by
  have hanswer := Machine.answer_eq tc l.server (Client.searchRequest_sendable tc l.client.core w)
  rw [Machine.serve_eq, handleMessage_search] at hanswer
  rw [Link.searchOn, hanswer]
  cases searchServer tc l.server.core (searchClient tc l.client.core w) with
  | error e => rfl
  | ok ids =>
    have hids : ids.map (Int64.toUInt64 ∘ UInt64.toInt64) = ids :=
      List.map_id'' (fun _ => UInt64.toUInt64_toInt64 _) ids
    simp only [Except.map, Except.bind, Option.bind_some, Protobuf.wire, dsseProto, bind]
    by_cases hsend : Msg.Sendable (Msg.SearchResult.toFields ⟨ids.map UInt64.toInt64⟩)
    · rw [if_pos hsend, Msg.serialize_eq hsend]
      simp only [Delivery.parse, Msg.SearchResult.parse_serialize (Msg.serialize_eq hsend), List.map_map,
        hids]
      rfl
    · rw [if_neg hsend, Msg.serialize, if_neg hsend]

theorem Link.search_sent (l : Link) (w : Bytes) :
    l.search tc w = (searchServer tc l.server.core (searchClient tc l.client.core w)).bind fun ids =>
      if Msg.Sendable (Msg.SearchResult.toFields ⟨ids.map UInt64.toInt64⟩) then .ok (l, ids)
      else .error .hang := by
  rw [Link.search, Link.searchOn_sent]
  cases searchServer tc l.server.core (searchClient tc l.client.core w) with
  | error e => rfl
  | ok ids =>
    simp only [bind, Except.bind]
    by_cases hsend : Msg.Sendable (Msg.SearchResult.toFields ⟨ids.map UInt64.toInt64⟩)
    · rw [if_pos hsend, if_pos hsend]
      rfl
    · rw [if_neg hsend, if_neg hsend]

/-! ### Runs -/

/-- What is sent in an exchange, less the replies that are shorter than their requests. -/
def Pair.messages (tc : Tomcrypt) (p : Pair) (op : Op) : List (List Field) :=
  ((op.request tc p.client).map Msg.Request.toFields).toList ++
    match op with
    | .search w => match p.search tc w with
      | .ok ids => [Msg.SearchResult.toFields ⟨ids.map UInt64.toInt64⟩]
      | .error _ => []
    | _ => []

/-- All of it can be sent. -/
def Pair.Sends (tc : Tomcrypt) (p : Pair) (op : Op) : Prop := ∀ fs ∈ p.messages tc op, Msg.Sendable fs

instance (p : Pair) : DecidablePred (p.Sends tc) :=
  fun op => inferInstanceAs (Decidable (∀ fs ∈ p.messages tc op, Msg.Sendable fs))

/-- The client and the server at the ends of the socket have the states of the pair, save for the flag
    that saving resets. -/
structure Link.Mirrors (p : Pair) (l : Link) : Prop where
  client : l.client.core = p.client
  server : l.server.core = { p.server with dirtyD := l.server.core.dirtyD }

theorem addServerPair_dirtyD (core : Core) (b : Bool) (q : AddPair) :
    addServerPair { core with dirtyD := b } q =
      ({ (addServerPair core q).1 with dirtyD := b }, (addServerPair core q).2) := by
  unfold addServerPair
  split
  · rfl
  · split <;> rfl

theorem addServer_dirtyD (b : Bool) : ∀ (L : List AddPair) (core : Core),
    addServer { core with dirtyD := b } L =
      ({ (addServer core L).1 with dirtyD := b }, (addServer core L).2)
  | [], _ => rfl
  | q :: L, core => by
    rw [addServer, addServer, addServerPair_dirtyD]
    simp only [addServer_dirtyD b L]

/-- After a request that is no search the state is saved. -/
theorem Machine.after_core (m : Machine) {req : Msg.Request} (core : Core)
    (hreq : ∀ m, req.msg ≠ some (.search m)) :
    (m.after req core).core = { core with dirtyD := false } := by
  rw [Machine.after]
  split
  · rename_i s hs
    exact absurd hs (hreq s)
  · rfl

theorem Op.request_sends {p : Pair} {op : Op} (hsend : p.Sends tc op) {req : Msg.Request}
    (hreq : op.request tc p.client = some req) : Msg.Sendable req.toFields :=
  hsend _ (List.mem_append_left _ (by rw [hreq]; exact List.mem_singleton_self _))

/-- A Setup that throws sends nothing, and throws over the wire as well. -/
theorem Client.setupRequest_error {core : Core} {version : ℤ} {keys : Keys} {tokens : List Bytes}
    {fileids : Postings} (h : Op.request tc core (.setup version keys tokens fileids) = none) :
    ∃ e, Client.setupRequest tc core version keys tokens fileids = .error e ∧
      setupClient tc version core keys tokens fileids = .error e := by
  rw [Op.request] at h
  split at h
  · cases h
  · rename_i e he
    refine ⟨e, he, ?_⟩
    rw [Client.setupRequest] at he
    cases hs : setupClient tc version core keys tokens fileids with
    | error e' => rw [hs] at he; cases he; rfl
    | ok r => rw [hs] at he; cases he

/-! The two ends stay the mirror of the pair, method by method. -/

theorem Link.Mirrors.setup {p : Pair} {l : Link} (h : l.Mirrors p) {version : ℤ} {keys : Keys}
    {tokens : List Bytes} {fileids : Postings} (hsend : p.Sends tc (.setup version keys tokens fileids)) :
    InStep (fun p l => Link.Mirrors p l) (p.step tc (.setup version keys tokens fileids))
      (l.step tc (.setup version keys tokens fileids)) := by
  obtain ⟨hclient, hserver⟩ := h
  rw [Pair.step, Pair.setup, Link.step]
  cases hreq : Op.request tc p.client (.setup version keys tokens fileids) with
  | none =>
    obtain ⟨e, hrequest, hthrow⟩ := Client.setupRequest_error hreq
    rw [Link.setup, Link.setupOn, hclient, hrequest, hthrow]
    exact rfl
  | some req =>
    have hlink := hreq
    rw [← hclient] at hlink
    obtain ⟨core, L, M, hs, hsent⟩ := Link.setup_sent hlink (Op.request_sends hsend hreq)
    obtain ⟨-, -, -, -, ⟨m, hm⟩, -⟩ := handleMessage_setup hreq
    have hafter := l.server.after_core (setupServer version l.server.core L M)
      (show ∀ m, req.msg ≠ some (.search m) by rw [hm]; rintro m ⟨⟩)
    rw [hclient] at hs
    rw [hsent, hs]
    refine ⟨rfl, rfl, ?_⟩
    show (l.server.after req _).core = _
    rw [hafter, hserver]
    rfl

theorem Link.Mirrors.add {p : Pair} {l : Link} (h : l.Mirrors p) {stack : Stack} {id : UInt64}
    {words : List Bytes} (hsend : p.Sends tc (.add stack id words)) :
    InStep (fun p l => Link.Mirrors p l) (p.step tc (.add stack id words))
      (l.step tc (.add stack id words)) := by
  obtain ⟨hclient, hserver⟩ := h
  have hlink := Link.add_sent (by rw [hclient]; exact Op.request_sends hsend rfl)
  obtain ⟨core, L, W, hadd⟩ : ∃ core L W, addClient tc p.client stack id words = (core, L, W) :=
    ⟨_, _, _, rfl⟩
  rw [Link.step, hlink, Pair.step, Pair.add, hclient, hadd]
  have hafter := l.server.after_core (addServer l.server.core L).1
    (show ∀ m, (Client.addRequest tc p.client stack id words).2.1.msg ≠ some (.search m) by rintro m ⟨⟩)
  have hflags : (addServer l.server.core L).2 = (addServer p.server L).2 := by
    rw [hserver, addServer_dirtyD]
  simp only [bind, Except.bind, hflags]
  cases addClient2 core (addServer p.server L).2 W with
  | error e => exact rfl
  | ok core' =>
    refine ⟨rfl, rfl, ?_⟩
    have hcore : (l.server.after (Client.addRequest tc p.client stack id words).2.1
        (addServer l.server.core L).1).core = { (addServer p.server L).1 with dirtyD := false } := by
      rw [hafter, hserver, addServer_dirtyD]
    rw [hcore]

theorem Link.Mirrors.delete {p : Pair} {l : Link} (h : l.Mirrors p) {id : UInt64} {words : List Bytes}
    (hsend : p.Sends tc (.delete id words)) :
    InStep (fun p l => Link.Mirrors p l) (p.step tc (.delete id words)) (l.step tc (.delete id words)) := by
  obtain ⟨hclient, hserver⟩ := h
  have hlink := Link.delete_sent (by rw [hclient]; exact Op.request_sends hsend rfl)
  have hafter := l.server.after_core (deleteServer l.server.core (deleteClient tc p.client id words))
    (show ∀ m, (Client.deleteRequest tc p.client id words).msg ≠ some (.search m) by rintro m ⟨⟩)
  rw [Link.step, hlink, hclient]
  refine ⟨rfl, hclient, ?_⟩
  have hcore : (l.server.after (Client.deleteRequest tc p.client id words)
      (deleteServer l.server.core (deleteClient tc p.client id words))).core =
        { deleteServer p.server (deleteClient tc p.client id words) with dirtyD := false } := by
    rw [hafter, hserver]
    rfl
  rw [hcore]
  rfl

theorem Link.Mirrors.search {p : Pair} {l : Link} (h : l.Mirrors p) {w : Bytes}
    (hsend : p.Sends tc (.search w)) :
    InStep (fun p l => Link.Mirrors p l) (p.step tc (.search w)) (l.step tc (.search w)) := by
  obtain ⟨hclient, hserver⟩ := h
  have hsame : searchServer tc l.server.core (searchClient tc p.client w) =
      searchServer tc p.server (searchClient tc p.client w) := by
    rw [hserver]
    exact searchServer_congr tc rfl rfl rfl rfl rfl _
  rw [Link.step, Link.search_sent, hclient, hsame, Pair.step, Pair.search]
  cases hs : searchServer tc p.server (searchClient tc p.client w) with
  | error e => exact rfl
  | ok ids =>
    have hsmall : Msg.Sendable (Msg.SearchResult.toFields ⟨ids.map UInt64.toInt64⟩) := by
      refine hsend _ (List.mem_append_right _ ?_)
      simp only [Pair.search, hs]
      exact List.mem_singleton_self _
    simp only [Except.bind, if_pos hsmall, bind]
    exact ⟨rfl, hclient, hserver⟩

theorem Link.Mirrors.step {p : Pair} {l : Link} (h : l.Mirrors p) {op : Op} (hsend : p.Sends tc op) :
    InStep (fun p l => Link.Mirrors p l) (p.step tc op) (l.step tc op) := by
  cases op with
  | setup version keys tokens fileids => exact h.setup hsend
  | add stack id words => exact h.add hsend
  | delete id words => exact h.delete hsend
  | search w => exact h.search hsend

/-- As long as no message is too long, every run of the client's methods over the wire gives what the run
    of the methods on two cores gives, its failures included, and leaves the same states. -/
theorem Link.run_mirrors (tc : Tomcrypt) {p : Pair} {l : Link} (h : l.Mirrors p) {ops : List Op}
    (hsend : Along (Client.step tc) (Pair.Sends tc) p ops) :
    (Link.run tc l ops).map Prod.snd = (Client.run tc p ops).map Prod.snd ∧
      ∀ p' outs, Client.run tc p ops = .ok (p', outs) →
        ∃ l', Link.run tc l ops = .ok (l', outs) ∧ l'.Mirrors p' := by
  have hstep : Client.step tc = Pair.step tc := funext fun p => funext (Client.step_eq tc p)
  rw [hstep] at hsend
  have hin : InStep (fun p l => Link.Mirrors p l) (p.run tc ops) (l.run tc ops) :=
    runs_inStep_along (fun _ _ _ h hop => h.step hop) ops p l h hsend
  rw [Client.run_eq]
  cases hp : p.run tc ops with
  | error e =>
    cases hl : l.run tc ops with
    | error e' => rw [hp, hl] at hin; exact ⟨congrArg Except.error hin.symm, by rintro p' outs ⟨⟩⟩
    | ok r => rw [hp, hl] at hin; exact hin.elim
  | ok r =>
    obtain ⟨p', outs⟩ := r
    cases hl : l.run tc ops with
    | error e => rw [hp, hl] at hin; exact hin.elim
    | ok r' =>
      obtain ⟨l', outs'⟩ := r'
      rw [hp, hl] at hin
      obtain ⟨rfl, hmirrors⟩ := hin
      refine ⟨rfl, ?_⟩
      rintro p'' outs'' ⟨⟩
      exact ⟨l', rfl, hmirrors⟩

/-- A Setup in the Packed layout, an Add, a Delete and two searches. -/
def sampleCalls : List Op :=
  [.setup Version.Packed.toInt ⟨[1], [2], [3]⟩ [[97]] ((∅ : Postings).insert [97] [1, 2, 3, 4, 5, 6]),
    .add (fun _ _ => 0) 300 [[97], [98]], .search [97], .delete 2 [[97]], .search [97]]

theorem Link.run_mirrors_sample :
    (Link.run standIn ⟨.new, ⟨.new, fun _ => none⟩⟩ sampleCalls).map Prod.snd =
      .ok [[1, 2, 3, 4, 5, 6, 300], [1, 3, 4, 5, 6, 300]] := by
  have hsend : Along (Client.step standIn) (Pair.Sends standIn) .fresh sampleCalls := by decide +kernel
  have hstart : Link.Mirrors .fresh ⟨.new, ⟨.new, fun _ => none⟩⟩ := ⟨rfl, rfl⟩
  rw [(Link.run_mirrors standIn hstart hsend).1]
  have hrun : ((Client.run standIn .fresh sampleCalls).map Prod.snd >>= fun outs =>
      .ok (decide (outs = [[1, 2, 3, 4, 5, 6, 300], [1, 3, 4, 5, 6, 300]]))) = .ok true := by
    decide +kernel
  obtain ⟨outs, houts, h⟩ := exists_of_bind_ok hrun
  rw [houts, of_decide_eq_true (Except.ok.inj h)]

/-! ### Updates that are too long -/

/-- An Add goes through exactly if it has fewer than 2^24 words, a Delete if it has at most 63161283. The
    server does not see any other, and the method returns false; of an Add the client keeps what AddClient
    made of its state. -/
theorem Link.updates_sent (tc : Tomcrypt) (l : Link) :
    (∀ stack id words, if words.length < 2 ^ 24 then ∃ l', l.add tc stack id words = .ok (l', true)
      else l.add tc stack id words = .ok
        (⟨{ l.client with core := (addClient tc l.client.core stack id words).1 }, l.server⟩, false)) ∧
    ∀ id words, if words.length ≤ 63161283 then ∃ l', l.delete tc id words = .ok (l', true)
      else l.delete tc id words = .ok (l, false) := by
  refine ⟨fun stack id words => ?_, fun id words => ?_⟩
  · have hsend := Client.addRequest_sendable tc l.client.core stack id words
    split
    · rename_i hfew
      rw [Link.add_sent (hsend.mpr hfew)]
      obtain ⟨core, L, W, hadd⟩ : ∃ core L W, addClient tc l.client.core stack id words = (core, L, W) :=
        ⟨_, _, _, rfl⟩
      obtain ⟨-, -, hL, hW⟩ := addClient_counts hadd
      -- a flag for each pair at most, so each flag has its word
      have hflags : (addServer l.server.core L).2.length ≤ W.length := by
        rw [hW.length_eq, ← hL]
        exact length_addServer_le L l.server.core
      obtain ⟨core', hcore, -, -⟩ := addClient2_zip _ core W hflags
      rw [hadd]
      simp only [hcore]
      exact ⟨_, rfl⟩
    · rename_i hmany
      rw [Link.add, Link.addOn, Machine.answer_unsent (mt hsend.mp hmany)]
      rfl
  · have hsend := Client.deleteRequest_sendable tc l.client.core id words
    split
    · rename_i hfew
      rw [Link.delete_sent (hsend.mpr hfew)]
      exact ⟨_, rfl⟩
    · rename_i hmany
      rw [Link.delete, Link.deleteOn, Machine.answer_unsent (mt hsend.mp hmany)]
      rfl

end DSSE
