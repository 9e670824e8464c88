import DSSE.Storage

/-! `storage.cpp`, the part of the client: the files of a client's save directory, how they are written
    and how they are read back. Tokens and file names may hold any bytes; their lengths stand in
    front of them, and a line break behind an entry is skipped by the next extraction. -/

namespace DSSE
open Schemes Std

/-- `std::map<fileid_t, std::string>`: the names of the files with ids. -/
abbrev FileidMap := ExtTreeMap UInt64 Bytes compare

/-- `class Client`, without its socket. -/
structure Client where
  core : Core
  fileidMap : FileidMap
  lastFileid : UInt64

/-- `Client::Client()`. -/
def Client.new : Client := ⟨.new, ∅, 0⟩

/-! ### Files -/

def writeMapCount (map : Dcountmap) : Bytes :=
  map.toList.flatMap fun (k, v) => writeString k ++ (IStream.decimal v.toNat ++ [0x0a])

def readMapCountLoop : ℕ → IStream → Dcountmap → Bool × Dcountmap
  | 0, _, map => (false, map)
  | fuel + 1, st, map =>
    let (ok, token, st) := readString st []
    if !ok then (false, map)
    else if st.eof then (true, map)
    else
      let (v, st) := st.getUnsigned (2 ^ 64)
      if st.fail then (false, map)
      else readMapCountLoop fuel st (map.insert token (UInt64.ofNat (v.getD 0)))

def readMapCount (file : Option Bytes) (map : Dcountmap) : Bool × Dcountmap :=
  match file with
  | none => (false, map)
  | some text => readMapCountLoop (text.length + 1) (.ofBytes text) map

def writeBytes (bytes : Bytes) : Bytes := bytes

/-- What a short file does not overwrite of the buffer stays. -/
def readBytes (file : Option Bytes) (bytes : Bytes) (size : ℕ) : Bool × Bytes :=
  match file with
  | none => (false, bytes)
  | some text =>
    let (_, st) := (IStream.ofBytes text).read size
    (st.good && (text.take size).length == size, text.take size ++ bytes.drop (text.take size).length)

def writeFileidMap (m : FileidMap) : Bytes :=
  m.toList.flatMap fun (fileid, name) =>
    IStream.decimal fileid.toNat ++ 0x20 :: (writeString name ++ [0x0a])

def readFileidMapLoop : ℕ → IStream → FileidMap → Bool × FileidMap
  | 0, _, m => (false, m)
  | fuel + 1, st, m =>
    let (fileid, st) := st.getUnsigned (2 ^ 64)
    if st.eof then (true, m)
    else
      let (ok, v, st) := readString st []
      if !ok || st.eof then (false, m)
      else readFileidMapLoop fuel st (m.insert (UInt64.ofNat (fileid.getD 0)) v)

def readFileidMap (file : Option Bytes) (m : FileidMap) : Bool × FileidMap :=
  match file with
  | none => (false, m)
  | some text => readFileidMapLoop (text.length + 1) (.ofBytes text) m

def writeFileid (fileid : UInt64) : Bytes := IStream.decimal fileid.toNat

def readFileid (file : Option Bytes) (fileid : UInt64) : Bool × UInt64 :=
  match file with
  | none => (false, fileid)
  | some text =>
    let (v, st) := (IStream.ofBytes text).getUnsigned (2 ^ 64)
    (!st.fail, (v.map UInt64.ofNat).getD fileid)

/-! ### The save directory -/

/-- The files of a client's save directory. -/
inductive ClientFile where | version | key | kplus | kminus | Dcount | fileidMap | lastFileid
  deriving DecidableEq

abbrev ClientDir := ClientFile → Option Bytes

/-- The file writes of `SaveClientToStorage`, in order. -/
def clientWrites (core : Core) : List (ClientFile × Bytes) :=
  [(.version, writeInt core.version), (.key, writeBytes core.key), (.kplus, writeBytes core.kplus),
    (.kminus, writeBytes core.kminus), (.Dcount, writeMapCount core.Dcount)]

/-- The file writes of `saveExtraState`. -/
def Client.extraWrites (c : Client) : List (ClientFile × Bytes) :=
  [(.fileidMap, writeFileidMap c.fileidMap), (.lastFileid, writeFileid c.lastFileid)]

/-- `Client::Save`, with no I/O errors. -/
def Client.save (c : Client) (dir : ClientDir) : Bool × ClientDir :=
  (true, (clientWrites c.core ++ c.extraWrites).foldl
    (fun dir w => Function.update dir w.1 (some w.2)) dir)

/-- `LoadClientFromStorage`: what was read before a failure stays. -/
def loadClient (core : Core) (dir : ClientDir) : Bool × Core :=
  let (ok, version) := readInt (dir .version) core.version
  let core := { core with version := version }
  if !ok then (false, core)
  else
    let (ok, key) := readBytes (dir .key) core.key KEYLEN
    let core := { core with key := key }
    if !ok then (false, core)
    else
      let (ok, kplus) := readBytes (dir .kplus) core.kplus KEYLEN
      let core := { core with kplus := kplus }
      if !ok then (false, core)
      else
        let (ok, kminus) := readBytes (dir .kminus) core.kminus KEYLEN
        let core := { core with kminus := kminus }
        if !ok then (false, core)
        else
          let (ok, Dcount) := readMapCount (dir .Dcount) core.Dcount
          (ok, { core with Dcount := Dcount })

theorem loadClient_eq (core : Core) (dir : ClientDir) :
    let version := readInt (dir .version) core.version
    let key := readBytes (dir .key) core.key KEYLEN
    let kplus := readBytes (dir .kplus) core.kplus KEYLEN
    let kminus := readBytes (dir .kminus) core.kminus KEYLEN
    let Dcount := readMapCount (dir .Dcount) core.Dcount
    loadClient core dir = (version.1 && key.1 && kplus.1 && kminus.1 && Dcount.1, { core with
      version := version.2
      key := if version.1 then key.2 else core.key
      kplus := if version.1 && key.1 then kplus.2 else core.kplus
      kminus := if version.1 && key.1 && kplus.1 then kminus.2 else core.kminus
      Dcount := if version.1 && key.1 && kplus.1 && kminus.1 then Dcount.2 else core.Dcount }) := by
  rw [loadClient]
  simp only
  rcases readInt (dir .version) core.version with ⟨⟨⟩, version⟩
  · rfl
  rcases readBytes (dir .key) core.key KEYLEN with ⟨⟨⟩, key⟩
  · rfl
  rcases readBytes (dir .kplus) core.kplus KEYLEN with ⟨⟨⟩, kplus⟩
  · rfl
  rcases readBytes (dir .kminus) core.kminus KEYLEN with ⟨⟨⟩, kminus⟩
  · rfl
  · rfl

/-- `loadExtraState`. -/
def Client.loadExtraState (c : Client) (dir : ClientDir) : Bool × Client :=
  let (ok, fileidMap) := readFileidMap (dir .fileidMap) c.fileidMap
  let c := { c with fileidMap := fileidMap }
  if !ok then (false, c)
  else
    let (ok, lastFileid) := readFileid (dir .lastFileid) c.lastFileid
    (ok, { c with lastFileid := lastFileid })

/-- `Client::Load`. -/
def Client.load (c : Client) (dir : ClientDir) : Bool × Client :=
  let (ok, core) := loadClient c.core dir
  let c := { c with core := core }
  if !ok then (false, c) else c.loadExtraState dir

/-! ### Reading what was written -/

/-- An entry is read back also behind the line break of the entry before. -/
theorem readString_newline {s : Bytes} (hs : s.length < 2 ^ 64) {nl : Bytes} (hnl : nl = [] ∨ nl = [0x0a])
    (rest : Bytes) :
    readString (.ofBytes (nl ++ (writeString s ++ rest))) [] = (true, s, .ofBytes rest) := by
  rcases hnl with rfl | rfl
  · exact readString_writeString hs rest []
  · rw [← readString_writeString hs rest []]
    simp only [readString, List.singleton_append, IStream.getUnsigned_space (c := 0x0a) (by decide)]

theorem readString_end {nl : Bytes} (hnl : nl = [] ∨ nl = [0x0a]) :
    readString (.ofBytes nl) [] = (true, [], ⟨[], true, true⟩) := by
  rcases hnl with rfl | rfl <;> rfl

/-- What is left in front of the rest behind a row of entries. -/
def lineBreak {α : Type} (nl : Bytes) (L : List α) : Bytes := if L.isEmpty then nl else [0x0a]

theorem lineBreak_eq {α : Type} (L : List α) : lineBreak [] L = [] ∨ lineBreak [] L = [0x0a] := by
  rw [lineBreak]
  split
  · exact Or.inl rfl
  · exact Or.inr rfl

theorem readMapCountLoop_append (tail : Bytes) (fuel : ℕ) (L : List (Bytes × UInt64)) :
    ∀ (nl : Bytes) (map : Dcountmap), nl = [] ∨ nl = [0x0a] → (∀ p ∈ L, p.1.length < 2 ^ 64) →
    readMapCountLoop (fuel + L.length) (.ofBytes (nl ++
        ((L.flatMap fun p => writeString p.1 ++ (IStream.decimal p.2.toNat ++ [0x0a])) ++ tail))) map =
      readMapCountLoop fuel (.ofBytes (lineBreak nl L ++ tail))
        (L.foldl (fun map p => map.insert p.1 p.2) map) := by
  induction L with
  | nil => intro nl map _ _; rfl
  | cons p L ih =>
    intro nl map hnl hL
    let more := (L.flatMap fun p => writeString p.1 ++ (IStream.decimal p.2.toNat ++ [0x0a])) ++ tail
    have hcount : (IStream.ofBytes (IStream.decimal p.2.toNat ++ ([0x0a] ++ more))).getUnsigned
        (2 ^ 64) = (some p.2.toNat, .ofBytes ([0x0a] ++ more)) :=
      IStream.getUnsigned_decimal p.2.toNat_lt (by intro c hc; cases hc; rfl)
    have hrest := ih [0x0a] (map.insert p.1 p.2) (Or.inr rfl) fun q hq =>
      hL q (List.mem_cons_of_mem _ hq)
    have hbreak : lineBreak [0x0a] L = [0x0a] := by
      rw [lineBreak]
      split <;> rfl
    rw [hbreak] at hrest
    rw [List.flatMap_cons, List.append_assoc, List.append_assoc, List.append_assoc, List.length_cons,
      ← Nat.add_assoc, readMapCountLoop, readString_newline (hL p List.mem_cons_self) hnl]
    simp only [Bool.not_true, Bool.false_eq_true, if_false, IStream.eof_ofBytes]
    rw [hcount]
    simp only [IStream.fail_ofBytes, Bool.false_eq_true, if_false, Option.getD_some,
      UInt64.ofNat_toNat]
    exact hrest

theorem readMapCountLoop_flatMap (L : List (Bytes × UInt64)) (fuel : ℕ) (map : Dcountmap)
    (hL : ∀ p ∈ L, p.1.length < 2 ^ 64) (hfuel : L.length < fuel) :
    readMapCountLoop fuel
        (.ofBytes (L.flatMap fun p => writeString p.1 ++ (IStream.decimal p.2.toNat ++ [0x0a]))) map =
      (true, L.foldl (fun map p => map.insert p.1 p.2) map) := by
  obtain ⟨k, rfl⟩ := Nat.exists_eq_add_of_lt hfuel
  have hread := readMapCountLoop_append [] (k + 1) L [] map (Or.inl rfl) hL
  have hbreak := lineBreak_eq L
  rw [List.append_nil, List.append_nil, List.nil_append, Nat.add_comm (k + 1), ← Nat.add_assoc] at hread
  rw [hread, readMapCountLoop, readString_end hbreak]
  rfl

theorem readMapCount_writeMapCount {map : Dcountmap} (h : ∀ k ∈ map, k.length < 2 ^ 64) :
    readMapCount (some (writeMapCount map)) ∅ = (true, map) := by
  have hkeys : ∀ p ∈ map.toList, p.1.length < 2 ^ 64 := by
    rintro ⟨k, v⟩ hmem
    have hget := ExtTreeMap.mem_toList_iff_getElem?_eq_some.mp hmem
    exact h k (ExtTreeMap.mem_iff_isSome_getElem?.mpr (by rw [hget]; rfl))
  have hfuel : map.toList.length < (writeMapCount map).length + 1 := by
    refine Nat.lt_succ_of_le (length_le_length_flatMap fun p _ => ?_)
    simp [writeString]
  have hread := readMapCountLoop_flatMap map.toList _ ∅ hkeys hfuel
  rw [foldl_insert_toList] at hread
  exact hread

theorem readFileidMapLoop_flatMap (L : List (UInt64 × Bytes)) : ∀ (fuel : ℕ) (nl : Bytes)
    (m : FileidMap), nl = [] ∨ nl = [0x0a] → (∀ p ∈ L, p.2.length < 2 ^ 64) → L.length < fuel →
    readFileidMapLoop fuel
        (.ofBytes (nl ++ L.flatMap fun p =>
          IStream.decimal p.1.toNat ++ 0x20 :: (writeString p.2 ++ [0x0a]))) m =
      (true, L.foldl (fun m p => m.insert p.1 p.2) m) := by
  induction L with
  | nil =>
    intro fuel nl m hnl _ hfuel
    cases fuel with
    | zero => exact absurd hfuel (Nat.not_lt_zero _)
    | succ fuel => rcases hnl with rfl | rfl <;> rfl
  | cons p L ih =>
    intro fuel nl m hnl hL hfuel
    cases fuel with
    | zero => exact absurd hfuel (Nat.not_lt_zero _)
    | succ fuel =>
      let more := L.flatMap fun p =>
        IStream.decimal p.1.toNat ++ 0x20 :: (writeString p.2 ++ [0x0a])
      have hid : (IStream.ofBytes (nl ++ (IStream.decimal p.1.toNat ++
          (0x20 :: (writeString p.2 ++ ([0x0a] ++ more)))))).getUnsigned (2 ^ 64) =
          (some p.1.toNat, .ofBytes (0x20 :: (writeString p.2 ++ ([0x0a] ++ more)))) := by
        have hplain : (IStream.ofBytes (IStream.decimal p.1.toNat ++
            (0x20 :: (writeString p.2 ++ ([0x0a] ++ more))))).getUnsigned (2 ^ 64) =
            (some p.1.toNat, .ofBytes (0x20 :: (writeString p.2 ++ ([0x0a] ++ more)))) :=
          IStream.getUnsigned_decimal p.1.toNat_lt (by intro c hc; cases hc; rfl)
        rcases hnl with rfl | rfl
        · exact hplain
        · rw [List.singleton_append, IStream.getUnsigned_space (by decide)]
          exact hplain
      have hname : readString (.ofBytes (0x20 :: (writeString p.2 ++ ([0x0a] ++ more)))) [] =
          (true, p.2, .ofBytes ([0x0a] ++ more)) := by
        rw [← readString_writeString (hL p List.mem_cons_self) ([0x0a] ++ more) []]
        simp only [readString, IStream.getUnsigned_space (c := 0x20) (by decide)]
      have htext : nl ++ (p :: L).flatMap (fun p =>
          IStream.decimal p.1.toNat ++ 0x20 :: (writeString p.2 ++ [0x0a])) =
          nl ++ (IStream.decimal p.1.toNat ++ (0x20 :: (writeString p.2 ++ ([0x0a] ++ more)))) := by
        simp [more]
      rw [htext, readFileidMapLoop, hid]
      simp only [IStream.eof_ofBytes, Bool.false_eq_true, if_false, hname, Bool.not_true, Bool.or_self,
        Option.getD_some, UInt64.ofNat_toNat]
      exact ih fuel [0x0a] _ (Or.inr rfl) (fun q hq => hL q (List.mem_cons_of_mem _ hq))
        (Nat.lt_of_succ_lt_succ hfuel)

theorem readFileidMap_writeFileidMap {m : FileidMap}
    (h : ∀ (id : UInt64) (name : Bytes), m[id]? = some name → name.length < 2 ^ 64) :
    readFileidMap (some (writeFileidMap m)) ∅ = (true, m) := by
  have hnames : ∀ p ∈ m.toList, p.2.length < 2 ^ 64 := by
    rintro ⟨id, name⟩ hmem
    exact h id name (ExtTreeMap.mem_toList_iff_getElem?_eq_some.mp hmem)
  have hfuel : m.toList.length < (writeFileidMap m).length + 1 := by
    refine Nat.lt_succ_of_le (length_le_length_flatMap fun p _ => ?_)
    simp [writeString]
  have hread := readFileidMapLoop_flatMap m.toList _ [] ∅ (Or.inl rfl) hnames hfuel
  rw [foldl_insert_toList] at hread
  exact hread

theorem readBytes_writeBytes {bytes bytes₀ : Bytes} {size : ℕ} (h : bytes.length = size)
    (h₀ : bytes₀.length = size) : readBytes (some (writeBytes bytes)) bytes₀ size = (true, bytes) := by
  have hread := IStream.read_append bytes []
  rw [List.append_nil, h] at hread
  rw [readBytes, writeBytes, hread]
  simp [← h, h₀, IStream.good]

theorem readFileid_writeFileid (id id₀ : UInt64) :
    readFileid (some (writeFileid id)) id₀ = (true, id) := by
  have hread : (IStream.ofBytes (IStream.decimal id.toNat ++ [])).getUnsigned (2 ^ 64) =
      (some id.toNat, ⟨[], true, false⟩) := IStream.getUnsigned_decimal id.toNat_lt (by simp)
  rw [List.append_nil] at hread
  rw [readFileid, writeFileid]
  simp only [hread, Bool.not_false, Option.map_some, Option.getD_some, UInt64.ofNat_toNat]

/-! ### Saving and loading -/

/-- The values of the fields are ones that their types in the source can have: a version is an `int`, a
    key an array of 32 bytes, a string is shorter than 2^64. -/
structure Client.Typed (c : Client) : Prop where
  version_low : -2 ^ 31 ≤ c.core.version
  version_high : c.core.version < 2 ^ 31
  key : c.core.key.length = KEYLEN
  kplus : c.core.kplus.length = KEYLEN
  kminus : c.core.kminus.length = KEYLEN
  tokens : ∀ w ∈ c.core.Dcount, w.length < 2 ^ 64
  names : ∀ (id : UInt64) (name : Bytes), c.fileidMap[id]? = some name → name.length < 2 ^ 64

/-- The part of the core that a client saves, and no server state. -/
def Core.clientState (core : Core) : Core := { Core.new with
  version := core.version
  key := core.key
  kplus := core.kplus
  kminus := core.kminus
  Dcount := core.Dcount }

theorem Client.loaded {c : Client} (h : c.Typed) (dir : ClientDir) :
    Client.new.load (c.save dir).2 = (true, { c with core := c.core.clientState }) := by
  have hfiles : (c.save dir).2 .version = some (writeInt c.core.version) ∧
      (c.save dir).2 .key = some (writeBytes c.core.key) ∧
      (c.save dir).2 .kplus = some (writeBytes c.core.kplus) ∧
      (c.save dir).2 .kminus = some (writeBytes c.core.kminus) ∧
      (c.save dir).2 .Dcount = some (writeMapCount c.core.Dcount) ∧
      (c.save dir).2 .fileidMap = some (writeFileidMap c.fileidMap) ∧
      (c.save dir).2 .lastFileid = some (writeFileid c.lastFileid) := by
    simp [Client.save, clientWrites, Client.extraWrites, Function.update]
  obtain ⟨hversion, hkey, hkplus, hkminus, hDcount, hmap, hlast⟩ := hfiles
  have hzero : (List.replicate KEYLEN (0 : UInt8)).length = KEYLEN := List.length_replicate
  have hcore : loadClient Core.new (c.save dir).2 = (true, c.core.clientState) := by
    rw [loadClient, hversion, readInt_writeInt h.version_low h.version_high, hkey, hkplus, hkminus,
      hDcount]
    simp only [Core.new, readBytes_writeBytes h.key hzero, readBytes_writeBytes h.kplus hzero,
      readBytes_writeBytes h.kminus hzero, readMapCount_writeMapCount h.tokens, Bool.not_true,
      Bool.false_eq_true, if_false]
    rfl
  rw [Client.load, Client.new, hcore]
  simp only [Client.loadExtraState, hmap, hlast, readFileidMap_writeFileidMap h.names,
    readFileid_writeFileid, Bool.not_true, Bool.false_eq_true, if_false]

/-- Whatever else the files hold, a load that succeeds gives the id that was saved. -/
theorem Client.load_lastFileid {c c₀ c' : Client} {dir : ClientDir}
    (h : c₀.load (c.save dir).2 = (true, c')) : c'.lastFileid = c.lastFileid := by
  have hlast : (c.save dir).2 .lastFileid = some (writeFileid c.lastFileid) := by
    simp [Client.save, clientWrites, Client.extraWrites, Function.update]
  rw [Client.load] at h
  simp only [Client.loadExtraState, hlast, readFileid_writeFileid] at h
  split at h
  · cases h
  · split at h
    · cases h
    · cases h
      rfl

/-- What a client saved a new one loads. -/
theorem Client.load_save {c : Client} (h : c.Typed) (dir : ClientDir) :
    (c.save dir).1 = true ∧ ∃ c', Client.new.load (c.save dir).2 = (true, c') ∧
      c'.core.version = c.core.version ∧ c'.core.keys = c.core.keys ∧
      c'.core.Dcount = c.core.Dcount ∧ c'.fileidMap = c.fileidMap ∧ c'.lastFileid = c.lastFileid :=
  ⟨rfl, _, Client.loaded h dir, rfl, rfl, rfl, rfl, rfl⟩

/-- A negative version, an empty token and one that looks like an entry, a name with a line break. -/
def sampleState : Client where
  core := { Core.new with
    version := -7
    Dcount := ((∅ : Dcountmap).insert [] 0).insert [0x31, 0x3a, 0x2c, 0x20] 18446744073709551615 }
  fileidMap := (∅ : FileidMap).insert 3 [0x61, 0x0a]
  lastFileid := 4

theorem Client.load_save_sample :
    (sampleState.save fun _ => none).1 = true ∧
      ∃ c', Client.new.load (sampleState.save fun _ => none).2 = (true, c') ∧
        c'.core.version = -7 ∧ c'.core.keys = Core.new.keys ∧
        c'.core.Dcount = sampleState.core.Dcount ∧ c'.fileidMap = sampleState.fileidMap ∧
        c'.lastFileid = 4 := by
  refine Client.load_save ⟨by decide, by decide, rfl, rfl, rfl, ?_, ?_⟩ fun _ => none
  · intro w hw
    simp only [sampleState, ExtTreeMap.mem_insert, LawfulEqCmp.compare_eq_iff_eq] at hw
    rcases hw with rfl | rfl | hw
    · decide
    · decide
    · exact absurd hw ExtTreeMap.not_mem_empty
  · intro id name hget
    simp only [sampleState, ExtTreeMap.getElem?_insert] at hget
    split at hget
    · rw [← Option.some.inj hget]
      decide
    · simp at hget

end DSSE
