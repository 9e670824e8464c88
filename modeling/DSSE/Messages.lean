import DSSE.Flags
import DSSE.Listen
import DSSE.Schemes.Wire

/-! The messages of `dsse.proto` on the wire, as the code that protocol buffers generate writes and reads
    them. A tag is 8 times the field number, plus 2 for bytes and messages. The fields of a message that
    is read are merged into it one by one: the last value of a field counts, lists grow, and a variant of
    a `oneof` is merged into the same variant and replaces another. -/

namespace DSSE
open Schemes Schemes.Wire

namespace Msg

/-- How deep messages and groups nest at most: `default_recursion_limit_`. -/
def recursionLimit : ℕ := 100

section
variable {M : Type}

/-- `MergePartialFromCodedStream`, with the cases of its `switch` in `merge`. -/
def mergeFrom (reader : Reader) (merge : M → Field → Option M) (depth : ℕ) (m : M) (bs : Bytes) :
    Option M := do
  let fs ← fields reader depth bs
  fs.foldlM merge m

end

/-- The message is shorter than 2GB. -/
def Sendable (fs : List Field) : Prop := (write fs).length < 2 ^ 31

instance : DecidablePred Sendable := fun fs => inferInstanceAs (Decidable ((write fs).length < 2 ^ 31))

/-- `SerializeToString`: a message of 2GB is not written. -/
def serialize (fs : List Field) : Option Bytes := if Sendable fs then some (write fs) else none

theorem serialize_eq {fs : List Field} (h : Sendable fs) : serialize fs = some (write fs) := if_pos h

/-! ### Requests -/

def TokenPair.reader : Reader
  | 18 | 26 => some .bytes
  | _ => none

def TokenPair.merge (p : TokenPair) : Field → Option TokenPair
  | (18, .bytes b) => some { p with Counter := b }
  | (26, .bytes b) => some { p with FileID := b }
  | _ => some p

def TokenPair.toFields (p : TokenPair) : List Field := [(18, .bytes p.Counter), (26, .bytes p.FileID)]

def Setup.reader : Reader
  | 10 => some .message
  | 34 => some .bytes
  | _ => none

def Setup.merge (depth : ℕ) (m : Setup) : Field → Option Setup
  | (10, .bytes b) => do
    let p ← mergeFrom TokenPair.reader TokenPair.merge (depth - 1) ⟨[], []⟩ b
    return { m with L := m.L ++ [p] }
  | (34, .bytes b) => some { m with M := m.M ++ [b] }
  | _ => some m

def Setup.toFields (m : Setup) : List Field :=
  m.L.map (fun p => (10, .bytes (write p.toFields))) ++ m.M.map fun b => (34, .bytes b)

def Search.reader : Reader
  | 10 | 18 | 26 | 34 | 42 => some .bytes
  | _ => none

def Search.merge (m : Search) : Field → Option Search
  | (10, .bytes b) => some { m with K1 := b }
  | (18, .bytes b) => some { m with K2 := b }
  | (26, .bytes b) => some { m with K1plus := b }
  | (34, .bytes b) => some { m with K2plus := b }
  | (42, .bytes b) => some { m with K1minus := b }
  | _ => some m

def Search.toFields (m : Search) : List Field :=
  [(10, .bytes m.K1), (18, .bytes m.K2), (26, .bytes m.K1plus), (34, .bytes m.K2plus),
    (42, .bytes m.K1minus)]

def Pair.reader : Reader
  | 18 | 26 | 34 => some .bytes
  | _ => none

def Pair.merge (p : Pair) : Field → Option Pair
  | (18, .bytes b) => some { p with Token := b }
  | (26, .bytes b) => some { p with FileID := b }
  | (34, .bytes b) => some { p with RevID := b }
  | _ => some p

def Pair.toFields (p : Pair) : List Field :=
  [(18, .bytes p.Token), (26, .bytes p.FileID), (34, .bytes p.RevID)]

def Add.reader : Reader
  | 10 => some .message
  | _ => none

def Add.merge (depth : ℕ) (m : Add) : Field → Option Add
  | (10, .bytes b) => do
    let p ← mergeFrom Pair.reader Pair.merge (depth - 1) ⟨[], [], []⟩ b
    return ⟨m.L ++ [p]⟩
  | _ => some m

def Add.toFields (m : Add) : List Field := m.L.map fun p => (10, .bytes (write p.toFields))

def Delete.reader : Reader
  | 10 => some .bytes
  | _ => none

def Delete.merge (m : Delete) : Field → Option Delete
  | (10, .bytes b) => some ⟨m.L ++ [b]⟩
  | _ => some m

def Delete.toFields (m : Delete) : List Field := m.L.map fun b => (10, .bytes b)

def Request.reader : Reader
  | 10 | 18 | 26 | 34 => some .message
  | 40 => some .number
  | _ => none

/-- `mutable_setup()` and the others: the message of the variant, a new one if another is set. -/
def Request.mutableSetup (req : Request) : Setup :=
  match req.msg with
  | some (.setup m) => m
  | _ => ⟨[], []⟩

def Request.mutableSearch (req : Request) : Search :=
  match req.msg with
  | some (.search m) => m
  | _ => ⟨[], [], [], [], []⟩

def Request.mutableAdd (req : Request) : Add :=
  match req.msg with
  | some (.add m) => m
  | _ => ⟨[]⟩

def Request.mutableDelete (req : Request) : Delete :=
  match req.msg with
  | some (.delete m) => m
  | _ => ⟨[]⟩

/-- `Version_IsValid`: a number that is no value of the enum is kept aside as an unknown field. -/
def versionOf : ℕ → Option Version
  | 0 => some .Basic
  | 1 => some .Packed
  | 2 => some .Pointer
  | 3 => some .TwoLevelPointer
  | _ => none

def versionNumber : Version → UInt64
  | .Basic => 0
  | .Packed => 1
  | .Pointer => 2
  | .TwoLevelPointer => 3

def Request.merge (depth : ℕ) (req : Request) : Field → Option Request
  | (10, .bytes b) => do
    let m ← mergeFrom Setup.reader (Setup.merge (depth - 1)) (depth - 1) req.mutableSetup b
    return { req with msg := some (.setup m) }
  | (18, .bytes b) => do
    let m ← mergeFrom Search.reader Search.merge (depth - 1) req.mutableSearch b
    return { req with msg := some (.search m) }
  | (26, .bytes b) => do
    let m ← mergeFrom Add.reader (Add.merge (depth - 1)) (depth - 1) req.mutableAdd b
    return { req with msg := some (.add m) }
  | (34, .bytes b) => do
    let m ← mergeFrom Delete.reader Delete.merge (depth - 1) req.mutableDelete b
    return { req with msg := some (.delete m) }
  | (40, .number v) => match versionOf (v.toNat % 2 ^ 32) with
    | some version => some { req with version := some version }
    | none => some req
  | _ => some req

/-- `ParseFromString` of a request. -/
def Request.parse (bs : Bytes) : Option Request :=
  mergeFrom Request.reader (Request.merge recursionLimit) recursionLimit ⟨none, none⟩ bs

def RequestMsg.toField : RequestMsg → Field
  | .setup m => (10, .bytes (write m.toFields))
  | .search m => (18, .bytes (write m.toFields))
  | .add m => (26, .bytes (write m.toFields))
  | .delete m => (34, .bytes (write m.toFields))

def Request.toFields (req : Request) : List Field :=
  (req.msg.map RequestMsg.toField).toList ++
    (req.version.map fun v => (40, .number (versionNumber v))).toList

/-! ### Replies -/

/-- The numbers of a packed field. -/
def packedLoop : ℕ → Bytes → Option (List UInt64)
  | _, [] => some []
  | 0, _ => none
  | fuel + 1, bs => do
    let (v, bs) ← readVarint64 bs
    let vs ← packedLoop fuel bs
    return v :: vs

def SearchResult.reader : Reader
  | 8 => some .number
  | 10 => some .message
  | _ => none

/-- The ids may be packed, though the server writes them one by one. -/
def SearchResult.merge (m : SearchResult) : Field → Option SearchResult
  | (8, .number v) => some ⟨m.fileid ++ [v.toInt64]⟩
  | (10, .bytes b) => (packedLoop b.length b).map fun vs => ⟨m.fileid ++ vs.map UInt64.toInt64⟩
  | _ => some m

def SearchResult.parse (bs : Bytes) : Option SearchResult :=
  mergeFrom SearchResult.reader SearchResult.merge recursionLimit ⟨[]⟩ bs

def SearchResult.toFields (m : SearchResult) : List Field :=
  m.fileid.map fun id => (8, .number id.toUInt64)

def AddResult.reader : Reader
  | 8 => some .number
  | 10 => some .message
  | _ => none

def AddResult.merge (m : AddResult) : Field → Option AddResult
  | (8, .number v) => some ⟨m.r ++ [v != 0]⟩
  | (10, .bytes b) => (packedLoop b.length b).map fun vs => ⟨m.r ++ vs.map (· != 0)⟩
  | _ => some m

def AddResult.toFields (m : AddResult) : List Field := m.r.map fun x => (8, .number (if x then 1 else 0))

/-- `SetupResult` and `DeleteResult` have no fields. -/
def emptyReader : Reader := fun _ => none

def AnyResult.reader : Reader
  | 10 => some .bytes
  | 18 | 26 | 34 | 42 => some .message
  | _ => none

def AnyResult.mutableSearch (result : AnyResult) : SearchResult :=
  match result.msg with
  | some (.search m) => m
  | _ => ⟨[]⟩

def AnyResult.mutableAdd (result : AnyResult) : AddResult :=
  match result.msg with
  | some (.add m) => m
  | _ => ⟨[]⟩

def AnyResult.merge (depth : ℕ) (result : AnyResult) : Field → Option AnyResult
  | (10, .bytes b) => some { result with error := some b }
  | (18, .bytes b) => (fields emptyReader (depth - 1) b).map fun _ => { result with msg := some .setup }
  | (26, .bytes b) => do
    let m ← mergeFrom SearchResult.reader SearchResult.merge (depth - 1) result.mutableSearch b
    return { result with msg := some (.search m) }
  | (34, .bytes b) => do
    let m ← mergeFrom AddResult.reader AddResult.merge (depth - 1) result.mutableAdd b
    return { result with msg := some (.add m) }
  | (42, .bytes b) => (fields emptyReader (depth - 1) b).map fun _ => { result with msg := some .delete }
  | _ => some result

def AnyResult.parse (bs : Bytes) : Option AnyResult :=
  mergeFrom AnyResult.reader (AnyResult.merge recursionLimit) recursionLimit ⟨none, none⟩ bs

def AnyResultMsg.toField : AnyResultMsg → Field
  | .setup => (18, .bytes (write []))
  | .search m => (26, .bytes (write m.toFields))
  | .add m => (34, .bytes (write m.toFields))
  | .delete => (42, .bytes (write []))

def AnyResult.toFields (result : AnyResult) : List Field :=
  (result.error.map fun b => (10, .bytes b)).toList ++ (result.msg.map AnyResultMsg.toField).toList

end Msg

/-- Protocol buffers with the messages of `dsse.proto`, on the side of the server. -/
def dsseProto : Protobuf where
  parse := Msg.Request.parse
  serializeSearchResult m := Msg.serialize m.toFields
  serializeResult m := Msg.serialize m.any.toFields

/-! ### Messages are read as they were written -/

namespace Msg

section
variable {M : Type} {reader : Reader} {merge : M → Field → Option M} {depth : ℕ}

theorem mergeFrom_write {fs : List Field} (h : ∀ f ∈ fs, reader.Has f)
    (hsmall : (write fs).length < 2 ^ 31) (m : M) :
    mergeFrom reader merge depth m (write fs) = fs.foldlM merge m := by
  rw [mergeFrom, fields_of_has h hsmall]
  rfl

/-- A repeated field grows by one element after the other. -/
theorem foldlM_snoc {α : Type} {f : α → Field} (mk : List α → M) : ∀ (l : List α),
    (∀ a ∈ l, ∀ xs, merge (mk xs) (f a) = some (mk (xs ++ [a]))) →
    ∀ xs, (l.map f).foldlM merge (mk xs) = some (mk (xs ++ l))
  | [], _, xs => by simp
  | a :: l, h, xs => by
    have ih := foldlM_snoc mk l (fun b hb => h b (List.mem_cons_of_mem _ hb)) (xs ++ [a])
    rw [List.map_cons, List.foldlM_cons, h a List.mem_cons_self xs, Option.bind_eq_bind, Option.bind_some,
      ih, List.append_assoc]
    rfl

/-- A nested message is not longer than the message around it. -/
theorem length_nested_lt {fs : List Field} {tag : ℕ} {b : Bytes} (hsmall : (write fs).length < 2 ^ 31)
    (h : (tag, .bytes b) ∈ fs) : b.length < 2 ^ 31 :=
  (length_le_of_mem h).trans_lt hsmall

end

theorem TokenPair.merge_write {p : TokenPair} (h : (write p.toFields).length < 2 ^ 31) (depth : ℕ) :
    mergeFrom TokenPair.reader TokenPair.merge depth ⟨[], []⟩ (write p.toFields) = some p := by
  rw [mergeFrom_write (by simp [TokenPair.toFields, TokenPair.reader, Reader.Has]) h]
  rfl

theorem Setup.merge_write {m : Setup} (h : (write m.toFields).length < 2 ^ 31) (depth : ℕ) :
    mergeFrom Setup.reader (Setup.merge depth) depth ⟨[], []⟩ (write m.toFields) = some m := by
  have hpairs : ∀ p ∈ m.L, ∀ xs, Setup.merge depth ⟨xs, []⟩ (10, .bytes (write p.toFields)) =
      some ⟨xs ++ [p], []⟩ := by
    intro p hp xs
    have hmem : (10, Value.bytes (write p.toFields)) ∈ m.toFields :=
      List.mem_append_left _ (List.mem_map_of_mem hp)
    rw [Setup.merge, TokenPair.merge_write (length_nested_lt h hmem)]
    rfl
  rw [mergeFrom_write (by
      simp only [Setup.toFields, List.mem_append, List.mem_map]
      rintro f (⟨p, -, rfl⟩ | ⟨b, -, rfl⟩) <;> simp [Setup.reader, Reader.Has]) h,
    Setup.toFields, List.foldlM_append, foldlM_snoc (fun xs => (⟨xs, []⟩ : Setup)) m.L hpairs [],
    Option.bind_eq_bind, Option.bind_some,
    foldlM_snoc (fun ys => (⟨[] ++ m.L, ys⟩ : Setup)) m.M (fun _ _ _ => rfl) []]
  rfl

theorem Search.merge_write {m : Search} (h : (write m.toFields).length < 2 ^ 31) (depth : ℕ) :
    mergeFrom Search.reader Search.merge depth ⟨[], [], [], [], []⟩ (write m.toFields) = some m := by
  rw [mergeFrom_write (by simp [Search.toFields, Search.reader, Reader.Has]) h]
  rfl

theorem Pair.merge_write {p : Pair} (h : (write p.toFields).length < 2 ^ 31) (depth : ℕ) :
    mergeFrom Pair.reader Pair.merge depth ⟨[], [], []⟩ (write p.toFields) = some p := by
  rw [mergeFrom_write (by simp [Pair.toFields, Pair.reader, Reader.Has]) h]
  rfl

theorem Add.merge_write {m : Add} (h : (write m.toFields).length < 2 ^ 31) (depth : ℕ) :
    mergeFrom Add.reader (Add.merge depth) depth ⟨[]⟩ (write m.toFields) = some m := by
  have hpairs : ∀ p ∈ m.L, ∀ xs, Add.merge depth ⟨xs⟩ (10, .bytes (write p.toFields)) =
      some ⟨xs ++ [p]⟩ := by
    intro p hp xs
    rw [Add.merge, Pair.merge_write (length_nested_lt h (List.mem_map_of_mem hp))]
    rfl
  rw [mergeFrom_write (by simp [Add.toFields, Add.reader, Reader.Has]) h, Add.toFields,
    foldlM_snoc Add.mk m.L hpairs []]
  rfl

theorem Delete.merge_write {m : Delete} (h : (write m.toFields).length < 2 ^ 31) (depth : ℕ) :
    mergeFrom Delete.reader Delete.merge depth ⟨[]⟩ (write m.toFields) = some m := by
  rw [mergeFrom_write (by simp [Delete.toFields, Delete.reader, Reader.Has]) h, Delete.toFields,
    foldlM_snoc Delete.mk m.L (fun _ _ _ => rfl) []]
  rfl

theorem versionOf_versionNumber (v : Version) : versionOf ((versionNumber v).toNat % 2 ^ 32) = some v := by
  cases v <;> rfl

theorem Request.has (req : Request) : ∀ f ∈ req.toFields, Request.reader.Has f := by
  obtain ⟨msg, version⟩ := req
  intro f hf
  rcases List.mem_append.mp hf with hf | hf
  · obtain ⟨m, -, rfl⟩ := Option.map_eq_some_iff.mp (Option.mem_toList.mp hf)
    cases m <;> simp [RequestMsg.toField, Request.reader, Reader.Has]
  · obtain ⟨v, -, rfl⟩ := Option.map_eq_some_iff.mp (Option.mem_toList.mp hf)
    simp [Request.reader, Reader.Has]

/-- The version comes behind the message. -/
theorem Request.merge_version (req : Request) (version : Option Version) (depth : ℕ)
    (h : req.version = none) :
    ((version.map fun v => ((40, .number (versionNumber v)) : Field)).toList).foldlM
      (Request.merge depth) req = some { req with version := version } := by
  obtain ⟨msg, version'⟩ := req
  obtain rfl : version' = none := h
  cases version with
  | none => rfl
  | some v =>
    have hv := versionOf_versionNumber v
    simp only [Option.map_some, Option.toList_some, List.foldlM_cons, List.foldlM_nil, Request.merge, hv]
    rfl

/-- The message of a request is merged into none. -/
theorem RequestMsg.merge_write {m : RequestMsg} {b : Bytes} {tag : ℕ} (h : m.toField = (tag, .bytes b))
    (hsmall : b.length < 2 ^ 31) (depth : ℕ) :
    Request.merge depth ⟨none, none⟩ m.toField = some ⟨some m, none⟩ := by
  cases m with
  | setup m =>
    cases h
    rw [toField, Request.merge, Request.mutableSetup, Setup.merge_write hsmall]
    rfl
  | search m =>
    cases h
    rw [toField, Request.merge, Request.mutableSearch, Search.merge_write hsmall]
    rfl
  | add m =>
    cases h
    rw [toField, Request.merge, Request.mutableAdd, Add.merge_write hsmall]
    rfl
  | delete m =>
    cases h
    rw [toField, Request.merge, Request.mutableDelete, Delete.merge_write hsmall]
    rfl

/-- It is bytes under the tag of its variant. -/
theorem RequestMsg.toField_bytes (m : RequestMsg) : ∃ tag b, m.toField = (tag, .bytes b) := by
  cases m <;> exact ⟨_, _, rfl⟩

theorem Request.parse_serialize {req : Request} {bs : Bytes} (h : serialize req.toFields = some bs) :
    Request.parse bs = some req := by
  obtain ⟨msg, version⟩ := req
  rw [serialize] at h
  split at h
  · rename_i hsmall
    cases h
    rw [Request.parse, mergeFrom_write (Request.has _) hsmall, Request.toFields, List.foldlM_append]
    have hmsg : ((msg.map RequestMsg.toField).toList).foldlM (Request.merge recursionLimit) ⟨none, none⟩ =
        some ⟨msg, none⟩ := by
      cases msg with
      | none => rfl
      | some m =>
        have hmem : m.toField ∈ (⟨some m, version⟩ : Request).toFields := by simp [Request.toFields]
        obtain ⟨tag, b, hfield⟩ := m.toField_bytes
        rw [hfield] at hmem
        have hm := RequestMsg.merge_write hfield (length_nested_lt hsmall hmem) recursionLimit
        simp only [Option.map_some, Option.toList_some, List.foldlM_cons, List.foldlM_nil, hm]
        rfl
    rw [hmsg, Option.bind_eq_bind, Option.bind_some, Request.merge_version _ version _ rfl]
  · cases h

theorem SearchResult.merge_write {m : SearchResult} (h : (write m.toFields).length < 2 ^ 31) (depth : ℕ) :
    mergeFrom SearchResult.reader SearchResult.merge depth ⟨[]⟩ (write m.toFields) = some m := by
  have hids : ∀ id ∈ m.fileid, ∀ xs, SearchResult.merge ⟨xs⟩ (8, .number id.toUInt64) =
      some ⟨xs ++ [id]⟩ := by
    intro id _ xs
    rw [SearchResult.merge, Int64.toInt64_toUInt64]
  rw [mergeFrom_write (by simp [SearchResult.toFields, SearchResult.reader, Reader.Has]) h,
    SearchResult.toFields, foldlM_snoc SearchResult.mk m.fileid hids []]
  rfl

theorem AddResult.merge_write {m : AddResult} (h : (write m.toFields).length < 2 ^ 31) (depth : ℕ) :
    mergeFrom AddResult.reader AddResult.merge depth ⟨[]⟩ (write m.toFields) = some m := by
  have hflags : ∀ x ∈ m.r, ∀ xs, AddResult.merge ⟨xs⟩ (8, .number (if x then 1 else 0)) =
      some ⟨xs ++ [x]⟩ := by
    intro x _ xs
    cases x <;> rfl
  rw [mergeFrom_write (by
      simp only [AddResult.toFields, List.mem_map]
      rintro f ⟨x, -, rfl⟩
      simp [AddResult.reader, Reader.Has]) h,
    AddResult.toFields, foldlM_snoc AddResult.mk m.r hflags []]
  rfl

theorem SearchResult.parse_serialize {m : SearchResult} {bs : Bytes}
    (h : serialize m.toFields = some bs) : SearchResult.parse bs = some m := by
  rw [serialize] at h
  split at h
  · rename_i hsmall
    cases h
    exact SearchResult.merge_write hsmall recursionLimit
  · cases h

theorem AnyResult.has (result : AnyResult) : ∀ f ∈ result.toFields, AnyResult.reader.Has f := by
  obtain ⟨error, msg⟩ := result
  intro f hf
  rcases List.mem_append.mp hf with hf | hf
  · obtain ⟨b, -, rfl⟩ := Option.map_eq_some_iff.mp (Option.mem_toList.mp hf)
    simp [AnyResult.reader, Reader.Has]
  · obtain ⟨m, -, rfl⟩ := Option.map_eq_some_iff.mp (Option.mem_toList.mp hf)
    cases m <;> simp [AnyResultMsg.toField, AnyResult.reader, Reader.Has]

theorem AnyResult.parse_serialize {result : AnyResult} {bs : Bytes}
    (h : serialize result.toFields = some bs) : AnyResult.parse bs = some result := by
  obtain ⟨error, msg⟩ := result
  rw [serialize] at h
  split at h
  · rename_i hsmall
    cases h
    rw [AnyResult.parse, mergeFrom_write (AnyResult.has _) hsmall, AnyResult.toFields, List.foldlM_append]
    have herror : ((error.map fun b => ((10, .bytes b) : Field)).toList).foldlM
        (AnyResult.merge recursionLimit) ⟨none, none⟩ = some ⟨error, none⟩ := by
      cases error <;> rfl
    rw [herror, Option.bind_eq_bind, Option.bind_some]
    cases msg with
    | none => rfl
    | some m =>
      have hmem : m.toField ∈ (⟨error, some m⟩ : AnyResult).toFields := by simp [AnyResult.toFields]
      cases m with
      | setup => rfl
      | search m =>
        have hm := SearchResult.merge_write (length_nested_lt hsmall hmem) (recursionLimit - 1)
        simp only [Option.map_some, Option.toList_some, List.foldlM_cons, List.foldlM_nil,
          AnyResultMsg.toField, AnyResult.merge, AnyResult.mutableSearch, hm]
        rfl
      | add m =>
        have hm := AddResult.merge_write (length_nested_lt hsmall hmem) (recursionLimit - 1)
        simp only [Option.map_some, Option.toList_some, List.foldlM_cons, List.foldlM_nil,
          AnyResultMsg.toField, AnyResult.merge, AnyResult.mutableAdd, hm]
        rfl
      | delete => rfl
  · cases h

/-- What protocol buffers write of a request or a reply, they read as the same message. -/
theorem parsed_as_written :
    (∀ (req : Request) (bs : Bytes), serialize req.toFields = some bs → Request.parse bs = some req) ∧
    (∀ (m : SearchResult) (bs : Bytes), serialize m.toFields = some bs → SearchResult.parse bs = some m) ∧
    ∀ (result : AnyResult) (bs : Bytes), serialize result.toFields = some bs →
      AnyResult.parse bs = some result :=
  ⟨fun _ _ => Request.parse_serialize, fun _ _ => SearchResult.parse_serialize,
    fun _ _ => AnyResult.parse_serialize⟩

theorem parsed_as_written_add :
    Request.parse [26, 11, 10, 9, 18, 1, 7, 26, 1, 8, 34, 1, 9, 40, 2] =
      some ⟨some (.add ⟨[⟨[7], [8], [9]⟩]⟩), some .Pointer⟩ ∧
    SearchResult.parse [8, 5, 8, 172, 2] = some ⟨[5, 300]⟩ ∧
    AnyResult.parse [34, 4, 8, 1, 8, 0] = some ⟨none, some (.add ⟨[true, false]⟩)⟩ :=
  ⟨parsed_as_written.1 ⟨some (.add ⟨[⟨[7], [8], [9]⟩]⟩), some .Pointer⟩ _ (by decide),
    parsed_as_written.2.1 ⟨[5, 300]⟩ _ (by decide),
    parsed_as_written.2.2 ⟨none, some (.add ⟨[true, false]⟩)⟩ _ (by decide)⟩

end Msg

end DSSE
