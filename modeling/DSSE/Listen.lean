import DSSE.Service

/-! The loop of `ListenAndServe` on messages of any bytes, and runs of requests from anybody. Where a
    received message gets no reply the REP socket refuses the next `recv`, which ends the server. The
    version that a server works with is one it can search in, unless a Setup brings another. -/

namespace DSSE
open Schemes Std

/-- What the server uses of protocol buffers: `ParseFromString` and `SerializeToString`, with `none`
    where they return false. -/
structure Protobuf where
  parse : Bytes → Option Msg.Request
  serializeSearchResult : Msg.SearchResult → Option Bytes
  serializeResult : Msg.Result → Option Bytes

/-- The message that goes to the socket for a reply. -/
def Protobuf.wire (pb : Protobuf) : Reply → Option Bytes
  | .empty => some []
  | .searchResult m => pb.serializeSearchResult m
  | .result m => pb.serializeResult m

section
variable (tc : Tomcrypt) (pb : Protobuf)

/-- One iteration of `ListenAndServe` for a received message, and the messages it sends. A message that
    does not parse is only logged. -/
def Machine.receive (m : Machine) (zmsg : Bytes) : Except Halt (Machine × List Bytes) :=
  match pb.parse zmsg with
  | none => .ok (m, [])
  | some req => do
    let (m, reply) ← m.serve tc req
    return (m, (reply.bind pb.wire).toList)

/-- What is sent between each `recv` and the next, if there is one: a handler may not come to its end, and
    after an iteration that sends nothing the next `recv` throws. -/
def Machine.exchanges (m : Machine) : List Bytes → List (List Bytes)
  | [] => []
  | zmsg :: zmsgs =>
    match m.receive tc pb zmsg with
    | .error _ => []
    | .ok (m, sent) => sent :: if sent.isEmpty then [] else m.exchanges zmsgs

end

/-- A request that the handlers reply to: it has a message, and the keys of a Search have the right
    length. -/
def Msg.Request.Answerable (req : Msg.Request) : Prop :=
  match req.msg with
  | none => False
  | some (.search m) => m.K1.length = KEYLEN ∧ m.K2.length = KEYLEN ∧ m.K1plus.length = KEYLEN ∧
      m.K2plus.length = KEYLEN ∧ m.K1minus.length = KEYLEN
  | some _ => True

/-- The message parses, its request gets a reply, and protocol buffers can encode that. -/
def Machine.Answers (tc : Tomcrypt) (pb : Protobuf) (m : Machine) (zmsg : Bytes) : Prop :=
  ∃ req, pb.parse zmsg = some req ∧ req.Answerable ∧
    ∀ core reply, handleMessage tc m.core req = .ok (core, some reply) → (pb.wire reply).isSome

variable {tc : Tomcrypt} {pb : Protobuf}

/-! ### Replies -/

theorem searchKeys_isSome (m : Msg.Search) :
    (searchKeys m).isSome ↔ m.K1.length = KEYLEN ∧ m.K2.length = KEYLEN ∧ m.K1plus.length = KEYLEN ∧
      m.K2plus.length = KEYLEN ∧ m.K1minus.length = KEYLEN := by
  unfold searchKeys
  split_ifs <;> simp_all

/-- A handler that comes to its end replies exactly to the requests that can be answered. -/
theorem handleMessage_reply {core core' : Core} {req : Msg.Request} {reply : Option Reply}
    (h : handleMessage tc core req = .ok (core', reply)) : reply.isSome ↔ req.Answerable := by
  unfold handleMessage at h
  unfold Msg.Request.Answerable
  cases hm : req.msg with
  | none =>
    rw [hm] at h
    cases h
    simp
  | some msg =>
    rw [hm] at h
    cases msg with
    | setup m => cases h; simp
    | add m => cases h; simp
    | delete m => cases h; simp
    | search m =>
      simp only [← searchKeys_isSome]
      simp only [handleSearch] at h
      cases hk : searchKeys m with
      | none => rw [hk] at h; cases h; simp
      | some k =>
        rw [hk] at h
        simp only [bind, Except.bind] at h
        cases hs : searchServer tc core k with
        | error e => rw [hs] at h; cases h
        | ok ids => rw [hs] at h; cases h; simp

/-- An iteration that comes to its end sends one message exactly if the server answers. -/
theorem Machine.receive_sent {m m' : Machine} {zmsg : Bytes} {sent : List Bytes}
    (h : m.receive tc pb zmsg = .ok (m', sent)) : sent.length = 1 ↔ m.Answers tc pb zmsg := by
  unfold Machine.receive at h
  unfold Machine.Answers
  cases hp : pb.parse zmsg with
  | none =>
    rw [hp] at h
    cases h
    simp
  | some req =>
    rw [hp] at h
    obtain ⟨⟨m₁, reply⟩, hserve, h⟩ := exists_of_bind_ok h
    rw [Machine.serve_eq] at hserve
    obtain ⟨⟨core, reply'⟩, hhandle, heq⟩ := exists_of_map_ok hserve
    obtain rfl : reply' = reply := congrArg Prod.snd heq
    cases h
    have hreply := handleMessage_reply hhandle
    cases reply' with
    | none =>
      have hno : ¬ req.Answerable := fun ha => by simpa using hreply.mpr ha
      simp [hno]
    | some reply =>
      have hyes : req.Answerable := hreply.mp rfl
      have hwire : (∀ core' reply', handleMessage tc m.core req = .ok (core', some reply') →
          (pb.wire reply').isSome) ↔ (pb.wire reply).isSome := by
        constructor
        · intro hall
          exact hall core reply hhandle
        · intro hw core' reply' h'
          rw [hhandle] at h'
          cases h'
          exact hw
      simp only [Option.some.injEq, exists_eq_left', hyes, true_and, hwire, Option.bind_some]
      cases pb.wire reply <;> simp

/-- A handler that does not come to its end is one whose message the server would answer. -/
theorem Machine.answers_of_receive_error {m : Machine} {zmsg : Bytes} {e : Halt}
    (h : m.receive tc pb zmsg = .error e) : m.Answers tc pb zmsg := by
  unfold Machine.receive at h
  cases hp : pb.parse zmsg with
  | none => rw [hp] at h; cases h
  | some req =>
    rw [hp] at h
    have herror : handleMessage tc m.core req = .error e := by
      simp only [Machine.serve_eq] at h
      cases hh : handleMessage tc m.core req with
      | error e' => rw [hh] at h; cases h; rfl
      | ok r => rw [hh] at h; cases h
    refine ⟨req, hp, ?_, fun core reply hok => by rw [herror] at hok; cases hok⟩
    unfold handleMessage at herror
    unfold Msg.Request.Answerable
    cases hm : req.msg with
    | none => rw [hm] at herror; cases herror
    | some msg =>
      rw [hm] at herror
      cases msg with
      | setup m => cases herror
      | add m => cases herror
      | delete m => cases herror
      | search m =>
        simp only [← searchKeys_isSome]
        simp only [handleSearch] at herror
        cases hk : searchKeys m with
        | none => rw [hk] at herror; cases herror
        | some k => rfl

/-- The loop sends one message between each `recv` and the next exactly if the server answers every
    message. -/
theorem Machine.exchanges_iff (tc : Tomcrypt) (pb : Protobuf) (zmsgs : List Bytes) : ∀ m : Machine,
    (∀ sent ∈ m.exchanges tc pb zmsgs, sent.length = 1) ↔
      Along (fun m zmsg => (m.receive tc pb zmsg).map fun r => (r.1, [r.2])) (Machine.Answers tc pb) m
        zmsgs := by
  induction zmsgs with
  | nil =>
    intro m
    simp [Machine.exchanges, Along]
  | cons zmsg zmsgs ih =>
    intro m
    rw [Machine.exchanges, Along]
    cases hr : m.receive tc pb zmsg with
    | error e => simp [Machine.answers_of_receive_error hr, Except.map]
    | ok r =>
      obtain ⟨m', sent⟩ := r
      simp only [Except.map, List.forall_mem_cons, Machine.receive_sent hr]
      refine and_congr_right fun hans => ?_
      have hone : sent.length = 1 := (Machine.receive_sent hr).mpr hans
      have hsent : sent.isEmpty = false := by
        rw [List.isEmpty_eq_false_iff]
        rintro rfl
        cases hone
      rw [hsent]
      exact ih m'

/-- A parser for runs on fixed inputs: nothing parses but the empty message, which is a request without a
    message. -/
def sampleProtobuf : Protobuf where
  parse zmsg := if zmsg = [] then some ⟨none, none⟩ else none
  serializeSearchResult _ := some []
  serializeResult _ := some []

/-- One byte that is the start of a longer number; the empty message does as well. -/
theorem Machine.exchanges_silent :
    (∃ sent ∈ Machine.exchanges standIn sampleProtobuf ⟨.new, fun _ => none⟩ [[0xff], []],
      sent.length ≠ 1) ∧
    ∃ sent ∈ Machine.exchanges standIn sampleProtobuf ⟨.new, fun _ => none⟩ [[], []],
      sent.length ≠ 1 :=
  ⟨⟨[], List.mem_cons_self, by decide⟩, ⟨[], List.mem_cons_self, by decide⟩⟩

end DSSE
