import DSSE.Keystream
import DSSE.Messages
import DSSE.Service

/-! How long the requests are. Keys, labels, ciphertexts and revocation ids have one length each, so that
    the length of a request says how many of them it has and nothing else: not which words and files are
    meant, not which keys the client has. -/

namespace DSSE
open Schemes Schemes.Wire

/-- A string field of `n` bytes, with a tag of one byte. -/
def fieldSize (n : ℕ) : ℕ := 1 + (writeVarint (UInt64.ofNat n)).length + n

/-- How many entries a posting list of `n` ids gets. -/
def Version.entryCount : Version → ℕ → ℕ
  | .Basic, n => n
  | .Packed, n => (n + (B - 1)) / B
  | .Pointer, n => ((n + (B - 1)) / B + (B - 1)) / B
  | .TwoLevelPointer, _ => 0

/-- How many external blocks. -/
def Version.blockCount : Version → ℕ → ℕ
  | .Pointer, n => (n + (B - 1)) / B
  | _, _ => 0

/-- The bytes of an entry: a label and a ciphertext, each with its tag and length. -/
def Version.entrySize : Version → ℕ
  | .Basic => 62
  | _ => 94

/-- The bytes of a Setup for posting lists of these lengths. -/
def Version.setupSize (v : Version) (lengths : List ℕ) : ℕ :=
  fieldSize ((lengths.map v.entryCount).sum * v.entrySize + (lengths.map v.blockCount).sum * 58) + 2

/-- The lengths of the posting lists that a Setup is given. -/
def postingLengths (fileids : Postings) (tokens : List Bytes) : List ℕ :=
  tokens.map fun w => (fileids.getD w []).length

/-- What of an exchange shows in the length of its request. -/
inductive Shape where
  | setup (version : ℤ) (lengths : Multiset ℕ)
  | add (words : ℕ)
  | delete (words : ℕ)
  | search

def Op.shape : Op → Shape
  | .setup version _ tokens fileids => .setup version (postingLengths fileids tokens)
  | .add _ _ words => .add words.length
  | .delete _ words => .delete words.length
  | .search _ => .search

/-! ### Fields -/

theorem length_writeField {tag : ℕ} (htag : tag < 128) (b : Bytes) :
    (writeField (tag, .bytes b)).length = fieldSize b.length := by
  rw [writeField, Value.write, List.length_append, List.length_append, length_writeVarint_of_lt htag,
    fieldSize]
  omega

/-- Short strings have a length of one byte as well. -/
theorem fieldSize_of_lt {n : ℕ} (h : n < 128) : fieldSize n = n + 2 := by
  rw [fieldSize, length_writeVarint_of_lt h]
  omega

theorem length_write_map {α : Type} {f : α → Field} {n : ℕ} : ∀ (l : List α),
    (∀ a ∈ l, (writeField (f a)).length = n) → (write (l.map f)).length = l.length * n
  | [], _ => by simp
  | a :: l, h => by
    have ih := length_write_map l fun b hb => h b (List.mem_cons_of_mem _ hb)
    rw [List.map_cons, write_cons, List.length_append, h a List.mem_cons_self, ih, List.length_cons,
      Nat.succ_mul, Nat.add_comm]

variable {tc : Tomcrypt}

/-! ### Search, Add and Delete -/

theorem Client.length_searchRequest (core : Core) (w : Bytes) :
    (write (Client.searchRequest tc core w).toFields).length = fieldSize 170 := by
  have hkey : ∀ key n, (macKey tc key n w).length = 32 := fun _ _ => tc.hmac_length _ _
  have hkeys : (write (Msg.Search.toFields ⟨(searchClient tc core w).K1, (searchClient tc core w).K2,
      (searchClient tc core w).K1plus, (searchClient tc core w).K2plus,
      (searchClient tc core w).K1minus⟩)).length = 170 := by
    simp [Msg.Search.toFields, searchClient, length_writeField, hkey, fieldSize_of_lt]
  rw [Client.searchRequest, Msg.Request.toFields]
  simp only [Option.map_some, Option.toList_some, Option.map_none, Option.toList_none, List.append_nil,
    Msg.RequestMsg.toField, write_cons, write_nil, length_writeField (show 18 < 128 by norm_num), hkeys]

/-- The pairs of an Add have the sizes of their parts. -/
theorem addClient_sizes (tc : Tomcrypt) (client : Core) (stack : Stack) (id : UInt64) (words : List Bytes) :
    (addClient tc client stack id words).2.1.length = words.length ∧
      ∀ q ∈ (addClient tc client stack id words).2.1, q.Token.length = 32 ∧ q.FileID.length = 56 ∧
        q.RevID.length = 32 := by
  obtain ⟨-, -, hwords, hpairs⟩ := addTokenPairs_spec tc stack id words client 0
  constructor
  · have hlen := congrArg List.length hwords
    rw [List.length_map] at hlen
    simp only [addClient, List.length_map, sortTokenPairs, List.length_insertionSort]
    exact hlen
  intro q hq
  obtain ⟨p, hp, rfl⟩ := List.mem_map.mp hq
  obtain ⟨surplus, hlen, he⟩ := hpairs p ((List.perm_insertionSort _ _).mem_iff.mp hp)
  rw [he]
  refine ⟨length_macLong tc _ _, ?_, length_macLong tc _ _⟩
  rw [addTokenPair, List.length_append, encryptLong, length_encryptBytes, hlen]
  rfl

theorem Client.length_addRequest (core : Core) (stack : Stack) (id : UInt64) (words : List Bytes) :
    (write (Client.addRequest tc core stack id words).2.1.toFields).length =
      fieldSize (words.length * 128) := by
  obtain ⟨hlen, hsizes⟩ := addClient_sizes tc core stack id words
  have hpair : ∀ q ∈ (addClient tc core stack id words).2.1,
      (writeField (10, .bytes (write (Msg.Pair.toFields ⟨q.Token, q.FileID, q.RevID⟩)))).length = 128 := by
    intro q hq
    obtain ⟨htoken, hid, hrev⟩ := hsizes q hq
    simp [Msg.Pair.toFields, length_writeField, htoken, hid, hrev, fieldSize_of_lt]
  have hadd : (write (Msg.Add.toFields ⟨(addClient tc core stack id words).2.1.map
      fun p => ⟨p.Token, p.FileID, p.RevID⟩⟩)).length = words.length * 128 := by
    rw [Msg.Add.toFields, List.map_map, ← hlen]
    exact length_write_map _ hpair
  rw [Client.addRequest, Msg.Request.toFields]
  simp only [Option.map_some, Option.toList_some, Option.map_none, Option.toList_none, List.append_nil,
    Msg.RequestMsg.toField, write_cons, write_nil, length_writeField (show 26 < 128 by norm_num), hadd]

theorem Client.length_deleteRequest (core : Core) (id : UInt64) (words : List Bytes) :
    (write (Client.deleteRequest tc core id words).toFields).length = fieldSize (words.length * 34) := by
  have hrev : ∀ r ∈ deleteClient tc core id words, (writeField (10, .bytes r)).length = 34 := by
    intro r hr
    have hlen : r.length = 32 := deleteClient_keylen core id words r hr
    rw [length_writeField (by norm_num), hlen, fieldSize_of_lt (by norm_num)]
  have hcount : (deleteClient tc core id words).length = words.length := by
    simp [deleteClient]
  have hdelete : (write (Msg.Delete.toFields ⟨deleteClient tc core id words⟩)).length =
      words.length * 34 := by
    rw [Msg.Delete.toFields, ← hcount]
    exact length_write_map _ hrev
  rw [Client.deleteRequest, Msg.Request.toFields]
  simp only [Option.map_some, Option.toList_some, Option.map_none, Option.toList_none, List.append_nil,
    Msg.RequestMsg.toField, write_cons, write_nil, length_writeField (show 34 < 128 by norm_num), hdelete]

/-! ### Setup -/

/-- A layout cuts a posting list into as many entries and blocks as its length says. -/
theorem encode_counts {v : Version} {lay : Layout} (hlay : v.layout? tc = some lay) (K2 : Bytes)
    (fids : List UInt64) (M : List Bytes) :
    (lay.encode K2 fids M).1.length = v.entryCount fids.length ∧
      (lay.encode K2 fids M).2.length = M.length + v.blockCount fids.length := by
  have hchunks : ∀ fids : List UInt64, (chunks B fids).length = (fids.length + (B - 1)) / B := by
    intro fids
    rw [chunks, List.length_map, List.length_range]
  cases v with
  | Basic =>
    cases hlay
    exact ⟨List.length_map _, rfl⟩
  | Packed =>
    cases hlay
    refine ⟨?_, rfl⟩
    show (packedBlocks fids).length = _
    rw [packedBlocks, List.length_map, List.length_range]
    rfl
  | Pointer =>
    cases hlay
    show (pointerBlocks tc K2 fids.length fids M).1.length = _ ∧ (pointerBlocks tc K2 fids.length fids M).2.length = _
    rw [pointerBlocks_eq tc K2 _ _ _ le_rfl]
    constructor
    · rw [List.length_map, pointersOf, hchunks, numbers, List.length_map, List.length_range, hchunks]
      rfl
    · rw [List.length_append, fileidBlocks, List.length_map, hchunks]
      rfl
  | TwoLevelPointer => cases hlay

/-- The loop over the tokens makes what their posting lists need together. -/
theorem length_indexTokens {v : Version} {lay : Layout} (hlay : v.layout? tc = some lay) (key : Bytes)
    (fileids : Postings) : ∀ {tokens M M' : List Bytes} {L : List TokenPair},
    indexTokens tc lay.encode key fileids tokens M = .ok (L, M') →
    L.length = ((postingLengths fileids tokens).map v.entryCount).sum ∧
      M'.length = M.length + ((postingLengths fileids tokens).map v.blockCount).sum
  | [], M, M', L, h => by
    cases h
    exact ⟨rfl, rfl⟩
  | w :: tokens, M, M', L, h => by
    rw [indexTokens] at h
    obtain ⟨fids, hfids, h⟩ := exists_of_bind_ok h
    obtain ⟨⟨L', M₁⟩, hidx, h⟩ := exists_of_bind_ok h
    cases h
    have hget : fileids.getD w [] = fids := by
      rw [postingsAt] at hfids
      rw [Std.ExtTreeMap.getD_eq_getD_getElem?]
      cases hw : fileids[w]? with
      | none => rw [hw] at hfids; cases hfids
      | some fids' => rw [hw] at hfids; cases hfids; rfl
    obtain ⟨hL, hM⟩ := length_indexTokens hlay key fileids hidx
    obtain ⟨hentries, hblocks⟩ := encode_counts hlay (macKey tc key 0x32 w) fids M
    rw [postingLengths, List.map_cons, List.map_cons, List.map_cons, List.sum_cons, List.sum_cons, hget,
      ← postingLengths]
    constructor
    · rw [List.length_append, setupPairs, List.length_map, List.length_zipIdx, hentries, hL]
    · rw [hM, hblocks, Nat.add_assoc]

/-- A ciphertext of one id or of a block fits `p.d`. -/
theorem dlen_le {v : Version} {lay : Layout} (hlay : v.layout? tc = some lay) : lay.dlen ≤ 56 := by
  cases v with
  | Basic => cases hlay; show ENCRYPTED_FILEID_SIZE ≤ 56; decide
  | Packed => cases hlay; show ENCRYPTED_BLOCK_SIZE ≤ 56; decide
  | Pointer => cases hlay; show ENCRYPTED_BLOCK_SIZE ≤ 56; decide
  | TwoLevelPointer => cases hlay

theorem indexTokens_pairs {v : Version} {lay : Layout} (hlay : v.layout? tc = some lay) (key : Bytes)
    (fileids : Postings) : ∀ {tokens M M' : List Bytes} {L : List TokenPair},
    indexTokens tc lay.encode key fileids tokens M = .ok (L, M') →
    ∀ p ∈ L, p.l.length = 32 ∧ p.d.length = 56
  | [], _, _, _, h, p, hp => by
    cases h
    cases hp
  | w :: tokens, M, M', L, h, p, hp => by
    rw [indexTokens] at h
    obtain ⟨fids, -, h⟩ := exists_of_bind_ok h
    obtain ⟨⟨L', M₁⟩, hidx, h⟩ := exists_of_bind_ok h
    cases h
    rcases List.mem_append.mp hp with hp | hp
    · obtain ⟨⟨block, c⟩, hblock, rfl⟩ := List.mem_map.mp hp
      have hsize := (layout_right tc hlay).size (macKey tc key 0x32 w) fids M block
        (List.fst_mem_of_mem_zipIdx hblock)
      have hle := dlen_le hlay
      refine ⟨tc.hmac_length _ _, ?_⟩
      simp only [setupPair, List.length_append, length_encryptBytes, List.length_replicate]
      have hbig : ENCRYPTED_BLOCK_SIZE = 56 := rfl
      omega
    · exact indexTokens_pairs hlay key fileids hidx p hp

/-- What a Setup sends: how many entries and blocks, and how long they are. -/
theorem setupClient_sizes {v : Version} {lay : Layout} (hlay : v.layout? tc = some lay)
    {core core' : Core} {keys : Keys} {tokens M : List Bytes} {fileids : Postings} {L : List SetupPair}
    (h : setupClient tc v.toInt core keys tokens fileids = .ok (core', L, M)) :
    L.length = ((postingLengths fileids tokens).map v.entryCount).sum ∧
      M.length = ((postingLengths fileids tokens).map v.blockCount).sum ∧
      (∀ p ∈ L, p.Token.length = 32 ∧ p.FileID.length = lay.dlen) ∧ ∀ b ∈ M, b.length = 56 := by
  rw [setupClient_layout tc hlay, setupIndex] at h
  cases hidx : indexTokens tc lay.encode keys.key fileids tokens [] with
  | error e => rw [hidx] at h; simp [bind, Except.bind, Except.map] at h
  | ok r =>
    obtain ⟨L', M'⟩ := r
    rw [hidx] at h
    simp only [bind, Except.bind, Except.map, pure, Except.pure, Except.ok.injEq, Prod.mk.injEq] at h
    obtain ⟨-, rfl, rfl⟩ := h
    obtain ⟨hL, hM⟩ := length_indexTokens hlay keys.key fileids hidx
    refine ⟨?_, by simpa using hM, fun p hp => ?_, indexTokens_ext hlay keys.key fileids tokens hidx (by simp)⟩
    · rw [List.length_map, sortTokenPairs, List.length_insertionSort, hL]
    · obtain ⟨q, hq, rfl⟩ := List.mem_map.mp hp
      obtain ⟨hl, hd⟩ := indexTokens_pairs hlay keys.key fileids hidx q
        ((List.perm_insertionSort _ _).mem_iff.mp hq)
      have hle := dlen_le hlay
      exact ⟨hl, by rw [List.length_take, hd]; omega⟩

theorem Client.length_setupRequest {v : Version} {lay : Layout} (hlay : v.layout? tc = some lay)
    {core core' : Core} {keys : Keys} {tokens : List Bytes} {fileids : Postings} {req : Msg.Request}
    (h : Client.setupRequest tc core v.toInt keys tokens fileids = .ok (core', req)) :
    (write req.toFields).length = v.setupSize (postingLengths fileids tokens) := by
  obtain ⟨⟨core₁, L, M⟩, hs, h⟩ := exists_of_bind_ok h
  cases h
  obtain ⟨hL, hM, hpair, hblock⟩ := setupClient_sizes hlay hs
  have hsize : fieldSize (34 + fieldSize lay.dlen) = v.entrySize := by
    cases v with
    | Basic => cases hlay; rfl
    | Packed => cases hlay; rfl
    | Pointer => cases hlay; rfl
    | TwoLevelPointer => cases hlay
  have hentry : ∀ p ∈ L, (writeField (10, .bytes (write (Msg.TokenPair.toFields ⟨p.Token, p.FileID⟩)))).length =
      v.entrySize := by
    intro p hp
    obtain ⟨htoken, hid⟩ := hpair p hp
    rw [← hsize]
    simp [Msg.TokenPair.toFields, length_writeField, htoken, hid, fieldSize_of_lt]
  have hext : ∀ b ∈ M, (writeField (34, .bytes b)).length = 58 := by
    intro b hb
    rw [length_writeField (by norm_num), hblock b hb, fieldSize_of_lt (by norm_num)]
  have hsetup : (write (Msg.Setup.toFields ⟨L.map fun p => ⟨p.Token, p.FileID⟩, M⟩)).length =
      L.length * v.entrySize + M.length * 58 := by
    rw [Msg.Setup.toFields, write_append, List.length_append, List.map_map, length_write_map _ hext]
    exact congrArg (· + _) (length_write_map L hentry)
  have hversion : (writeField (40, .number (Msg.versionNumber (castVersion v.toInt)))).length = 2 := by
    cases v <;> rfl
  rw [Msg.Request.toFields, Version.setupSize, ← hL, ← hM]
  simp only [Option.map_some, Option.toList_some, Msg.RequestMsg.toField, List.singleton_append, write_cons,
    write_nil, List.append_nil, List.length_append, length_writeField (show 10 < 128 by norm_num), hsetup,
    hversion]

/-- An entry is for 25 ids at most. -/
theorem Version.le_entryCount {v : Version} {lay : Layout} (hlay : v.layout? tc = some lay) (n : ℕ) :
    n ≤ 25 * v.entryCount n := by
  cases v with
  | Basic => show n ≤ 25 * n; omega
  | Packed => show n ≤ 25 * ((n + (5 - 1)) / 5); omega
  | Pointer => show n ≤ 25 * (((n + (5 - 1)) / 5 + (5 - 1)) / 5); omega
  | TwoLevelPointer => cases hlay

/-- A Setup that can be sent has fewer ids than there are block numbers. -/
theorem Version.postingsTotal_lt {v : Version} {lay : Layout} (hlay : v.layout? tc = some lay)
    {tokens : List Bytes} {fileids : Postings}
    (h : v.setupSize (postingLengths fileids tokens) < 2 ^ 31) :
    postingsTotal fileids tokens < INVALID.toNat := by
  have hsum : ∀ lengths : List ℕ, lengths.sum ≤ 25 * (lengths.map v.entryCount).sum := by
    intro lengths
    induction lengths with
    | nil => exact Nat.zero_le _
    | cons n lengths ih =>
      have hn := Version.le_entryCount hlay n
      rw [List.map_cons, List.sum_cons, List.sum_cons]
      omega
  have htotal : postingsTotal fileids tokens ≤
      25 * ((postingLengths fileids tokens).map v.entryCount).sum := hsum _
  have hentry : 1 ≤ v.entrySize := by cases v <;> decide
  have hle := Nat.mul_le_mul_left ((postingLengths fileids tokens).map v.entryCount).sum hentry
  rw [Version.setupSize, fieldSize] at h
  have hbig : 25 * 2 ^ 31 < INVALID.toNat := by decide
  omega

/-! ### What the length says -/

/-- Of the postings only the lengths count, in any order. -/
theorem Client.length_setupRequest_perm {client client' : Core} {version : ℤ} {keys keys' : Keys}
    {tokens tokens' : List Bytes} {fileids fileids' : Postings} {req req' : Msg.Request}
    (hperm : (postingLengths fileids tokens).Perm (postingLengths fileids' tokens'))
    (hreq : Op.request tc client (.setup version keys tokens fileids) = some req)
    (hreq' : Op.request tc client' (.setup version keys' tokens' fileids') = some req') :
    (write req.toFields).length = (write req'.toFields).length := by
  rw [Op.request] at hreq hreq'
  split at hreq
  · rename_i core₁ req₁ h₁
    split at hreq'
    · rename_i core₂ req₂ h₂
      cases hreq
      cases hreq'
      obtain ⟨⟨core₀, L, M⟩, hs, -⟩ := exists_of_bind_ok h₁
      obtain ⟨v, lay, hlay, rfl⟩ := setupClient_version tc hs
      rw [Client.length_setupRequest hlay h₁, Client.length_setupRequest hlay h₂, Version.setupSize,
        Version.setupSize, (hperm.map _).sum_eq, (hperm.map v.blockCount).sum_eq]
    · cases hreq'
  · cases hreq

/-- Two requests are equally long if they are of one kind and have as many words, or are Setups of one
    version with posting lists of the same lengths, whatever the words, the ids, the keys, the counters
    and the order of the tokens are. -/
theorem Op.request_length (tc : Tomcrypt) (client client' : Core) {op op' : Op} {req req' : Msg.Request}
    (hreq : op.request tc client = some req) (hreq' : op'.request tc client' = some req')
    (hshape : op.shape = op'.shape) : (write req.toFields).length = (write req'.toFields).length := by
  cases op with
  | setup version keys tokens fileids =>
    cases op' with
    | setup version' keys' tokens' fileids' =>
      obtain ⟨rfl, hlengths⟩ := Shape.setup.inj hshape
      exact Client.length_setupRequest_perm (Multiset.coe_eq_coe.mp hlengths) hreq hreq'
    | add | delete | search => cases hshape
  | add stack id words =>
    cases op' with
    | add stack' id' words' =>
      cases hreq
      cases hreq'
      rw [Client.length_addRequest, Client.length_addRequest, Shape.add.inj hshape]
    | setup | delete | search => cases hshape
  | delete id words =>
    cases op' with
    | delete id' words' =>
      cases hreq
      cases hreq'
      rw [Client.length_deleteRequest, Client.length_deleteRequest, Shape.delete.inj hshape]
    | setup | add | search => cases hshape
  | search w =>
    cases op' with
    | search w' =>
      cases hreq
      cases hreq'
      rw [Client.length_searchRequest, Client.length_searchRequest]
    | setup | add | delete => cases hshape

/-- Six ids under one word and one under another, with other words, ids and keys and in another order. -/
theorem Op.request_length_sample :
    ∃ req req', (Op.setup Version.Pointer.toInt ⟨[1], [2], [3]⟩ [[97], [98]]
        (((∅ : Postings).insert [97] [1, 2, 3, 4, 5, 6]).insert [98] [2])).request standIn .new =
        some req ∧
      (Op.setup Version.Pointer.toInt ⟨[4], [5], [6]⟩ [[99, 99], []]
        (((∅ : Postings).insert [] [9, 8, 7, 6, 5, 300]).insert [99, 99] [70000])).request standIn .new =
        some req' ∧ (write req.toFields).length = (write req'.toFields).length := by
  have hsome : ((Op.setup Version.Pointer.toInt ⟨[1], [2], [3]⟩ [[97], [98]]
        (((∅ : Postings).insert [97] [1, 2, 3, 4, 5, 6]).insert [98] [2])).request standIn .new).isSome ∧
      ((Op.setup Version.Pointer.toInt ⟨[4], [5], [6]⟩ [[99, 99], []]
        (((∅ : Postings).insert [] [9, 8, 7, 6, 5, 300]).insert [99, 99] [70000])).request standIn
          .new).isSome := by
    decide +kernel
  obtain ⟨req, hreq⟩ := Option.isSome_iff_exists.mp hsome.1
  obtain ⟨req', hreq'⟩ := Option.isSome_iff_exists.mp hsome.2
  exact ⟨req, req', hreq, hreq', Op.request_length standIn .new .new hreq hreq'
    (congrArg (Shape.setup _) (Multiset.coe_eq_coe.mpr (by decide +kernel)))⟩

end DSSE
