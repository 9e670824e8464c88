import DSSE.Simulation

/-! The calls of `encrypt_bytes` in a Setup and the Adds after it. Every call starts at the same counter
    block, so two messages under one key always meet: what counts is which blocks of ids a key gets. -/

namespace DSSE
open Schemes Std

/-- A call `encrypt_bytes(key, msg, msglen)`. -/
structure EncryptCall where
  key : Bytes
  msg : Bytes
  deriving DecidableEq

/-- The counter blocks that the call enciphers. -/
def EncryptCall.counters (call : EncryptCall) : List Bytes := Ctr.counters IV call.msg.length

/-- No two calls with one key and different messages have a counter block in common. -/
def NoReuse (calls : List EncryptCall) : Prop :=
  ∀ a ∈ calls, ∀ b ∈ calls, a.key = b.key → a.msg ≠ b.msg → a.counters.Disjoint b.counters

section
variable (tc : Tomcrypt)

/-! ### The calls -/

/-- The result of a call. -/
def EncryptCall.result (call : EncryptCall) : Bytes := encryptBytes tc call.key call.msg

/-- The file id blocks that the loop over `j` encrypts. -/
def fillPointerCalls (K2 : Bytes) : ℕ → List UInt64 → List EncryptCall
  | 0, _ => []
  | j + 1, fids =>
    let (fileidBlock, fids) := fillFileidBlock B fids
    ⟨K2, fileidBlock⟩ :: if fids.isEmpty then [] else fillPointerCalls K2 j fids

/-- The loop over `c`: the file id blocks of a round, then its pointer block. -/
def pointerCalls (K2 : Bytes) : ℕ → List UInt64 → List Bytes → List EncryptCall
  | 0, _, _ => []
  | fuel + 1, fids, M =>
    if fids.isEmpty then []
    else
      let (pointerBlock, fids', M) := fillPointerBlock tc K2 B fids M
      fillPointerCalls K2 B fids ++ ⟨K2, pointerBlock⟩ :: pointerCalls K2 fuel fids' M

/-- The calls for one token. -/
abbrev EncoderCalls := Bytes → List UInt64 → List Bytes → List EncryptCall

def basicCalls : EncoderCalls := fun K2 fids _ => (basicBlocks fids).map (⟨K2, ·⟩)

def packedCalls : EncoderCalls := fun K2 fids _ => (packedBlocks fids).map (⟨K2, ·⟩)

def Version.encoderCalls : Version → EncoderCalls
  | .Basic => basicCalls
  | .Packed => packedCalls
  | .Pointer => fun K2 fids M => pointerCalls tc K2 fids.length fids M
  | .TwoLevelPointer => fun _ _ _ => []

/-- The calls of the loop over the tokens. -/
def indexEncrypts (encode : Encoder) (calls : EncoderCalls) (key : Bytes) (fileids : Postings) :
    List Bytes → List Bytes → List EncryptCall
  | [], _ => []
  | w :: tokens, M =>
    match fileids[w]? with
    | none => []
    | some fids =>
      let K2 := macKey tc key 0x32 w
      calls K2 fids M ++ indexEncrypts encode calls key fileids tokens (encode K2 fids M).2

/-- The calls of SetupClient. -/
def setupEncrypts (version : ℤ) (keys : Keys) (tokens : List Bytes) (fileids : Postings) :
    List EncryptCall :=
  if version = Version.Basic.toInt then
    indexEncrypts tc basicEncoder (Version.Basic.encoderCalls tc) keys.key fileids tokens []
  else if version = Version.Packed.toInt then
    indexEncrypts tc packedEncoder (Version.Packed.encoderCalls tc) keys.key fileids tokens []
  else if version = Version.Pointer.toInt then
    indexEncrypts tc (pointerEncoder tc) (Version.Pointer.encoderCalls tc) keys.key fileids tokens []
  else []

/-- What AddClient is called with, and what is on its stack. -/
structure Adding where
  stack : Stack
  id : UInt64
  words : List Bytes

/-- The calls of AddClient, one for each word. -/
def addEncrypts (core : Core) (id : UInt64) (words : List Bytes) : List EncryptCall :=
  words.map fun w => ⟨macKey tc core.kplus 0x32 w, putu64 id⟩

/-- The calls of one AddClient after the other. -/
def addsEncrypts : Core → List Adding → List EncryptCall
  | _, [] => []
  | core, a :: adds =>
    addEncrypts tc core a.id a.words ++ addsEncrypts (addClient tc core a.stack a.id a.words).1 adds

/-! ### The ids in the messages -/

/-- `n` numbers from `m` on, as they stand in the pointer blocks. -/
def numbers (m n : ℕ) : List UInt64 := (List.range n).map fun i => UInt64.ofNat (m + i)

/-- The blocks of numbers that are encrypted for a posting list with `m` file id blocks before it. -/
def Version.rows : Version → ℕ → List UInt64 → List (List UInt64)
  | .Basic, _, fids => fids.map fun id => [id]
  | .Packed, _, fids => (chunks B fids).map (padded B)
  | .Pointer, m, fids =>
    (chunks B fids).map (padded B) ++ (chunks B (numbers m (chunks B fids).length)).map (padded B)
  | .TwoLevelPointer, _, _ => []

/-- The tokens with the number of file id blocks before each. -/
def placed (fileids : Postings) : ℕ → List Bytes → List (Bytes × ℕ)
  | _, [] => []
  | m, w :: tokens => (w, m) :: placed fileids (m + (chunks B (fileids.getD w [])).length) tokens

/-- One block of numbers at most for each key. -/
structure RowsOnce (v : Version) (keys : Keys) (tokens : List Bytes) (fileids : Postings)
    (adds : List Adding) : Prop where
  setup : ∀ u ∈ placed fileids 0 tokens, ∀ w ∈ placed fileids 0 tokens,
    macKey tc keys.key 0x32 u.1 = macKey tc keys.key 0x32 w.1 →
    ∀ row ∈ v.rows u.2 (fileids.getD u.1 []), ∀ row' ∈ v.rows w.2 (fileids.getD w.1 []), row = row'
  later : ∀ a ∈ adds, ∀ b ∈ adds, ∀ u ∈ a.words, ∀ w ∈ b.words,
    macKey tc keys.kplus 0x32 u = macKey tc keys.kplus 0x32 w → a.id = b.id
  across : ∀ u ∈ placed fileids 0 tokens, ∀ a ∈ adds, ∀ w ∈ a.words,
    macKey tc keys.key 0x32 u.1 = macKey tc keys.kplus 0x32 w →
    ∀ row ∈ v.rows u.2 (fileids.getD u.1 []), row = [a.id]

end

variable {tc : Tomcrypt}

/-! ### One message under a key -/

theorem flatMap_putu64_inj : ∀ {ids ids' : List UInt64}, ids.flatMap putu64 = ids'.flatMap putu64 →
    ids = ids'
  | [], [], _ => rfl
  | [], id :: ids, h => by simp [putu64] at h
  | id :: ids, [], h => by simp [putu64] at h
  | id :: ids, id' :: ids', h => by
    rw [List.flatMap_cons, List.flatMap_cons] at h
    obtain ⟨hhead, htail⟩ := List.append_inj h (by simp)
    rw [putu64_inj hhead, flatMap_putu64_inj htail]

/-- Every call starts at the initial vector. -/
theorem EncryptCall.iv_mem_counters {call : EncryptCall} (h : call.msg ≠ []) : IV ∈ call.counters := by
  have hpos : 0 < call.msg.length := List.length_pos_iff.mpr h
  exact List.mem_map.mpr ⟨0, List.mem_range.mpr (by omega), rfl⟩

/-- Without initial vectors of their own, messages under one key have to be equal. -/
theorem noReuse_iff {calls : List EncryptCall} (hmsg : ∀ call ∈ calls, call.msg ≠ []) :
    NoReuse calls ↔ ∀ a ∈ calls, ∀ b ∈ calls, a.key = b.key → a.msg = b.msg := by
  constructor
  · intro h a ha b hb hkey
    by_contra hne
    exact h a ha b hb hkey hne (EncryptCall.iv_mem_counters (hmsg a ha))
      (EncryptCall.iv_mem_counters (hmsg b hb))
  · intro h a ha b hb hkey hne
    exact absurd (h a ha b hb hkey) hne

/-- What a reused keystream tells: the difference of the ciphertexts is that of the messages. -/
theorem EncryptCall.result_xor (tc : Tomcrypt) {a b : EncryptCall} (hkey : a.key = b.key) :
    List.zipWith (· ^^^ ·) ((a.result tc).drop 16) ((b.result tc).drop 16) =
      List.zipWith (· ^^^ ·) a.msg b.msg := by
  have hdrop : ∀ call : EncryptCall,
      (call.result tc).drop 16 = Ctr.crypt (tc.aes call.key) IV call.msg :=
    fun call => List.drop_left' rfl
  rw [hdrop, hdrop, hkey, Ctr.crypt, Ctr.crypt, Ctr.mask_xor]

/-! ### The blocks of the Pointer layout -/

theorem numbers_succ (m n : ℕ) : numbers m (n + 1) = UInt64.ofNat m :: numbers (m + 1) n := by
  rw [numbers, List.range_succ_eq_map, List.map_cons, List.map_map, numbers]
  refine congrArg₂ List.cons rfl (List.map_congr_left fun i _ => ?_)
  rw [Function.comp_apply, Nat.succ_eq_add_one, Nat.add_assoc, Nat.add_comm 1 i]

theorem drop_numbers (m : ℕ) : ∀ (k n : ℕ), (numbers m n).drop k = numbers (m + k) (n - k)
  | 0, n => rfl
  | k + 1, 0 => by simp [numbers]
  | k + 1, n + 1 => by
    rw [numbers_succ, List.drop_succ_cons, drop_numbers (m + 1) k n, Nat.add_sub_add_right,
      Nat.add_assoc, Nat.add_comm 1 k]

theorem take_numbers (m : ℕ) (k n : ℕ) : (numbers m n).take k = numbers m (min k n) := by
  rw [numbers, ← List.map_take, List.take_range, numbers]

theorem padded_cons (n : ℕ) (id : UInt64) (ids : List UInt64) :
    padded (n + 1) (id :: ids) = id :: padded n ids := by
  simp [padded]

/-- A block of ids and padding, as bytes. -/
def blockOf (ids : List UInt64) : Bytes := (padded B ids).flatMap putu64

/-- The blocks of a posting list, encrypted one by one. -/
def fileidBlocks (tc : Tomcrypt) (K2 : Bytes) (fids : List UInt64) : List Bytes :=
  (chunks B fids).map fun ids => encryptBytes tc K2 (blockOf ids)

theorem chunks_nil {k : ℕ} (hk : 0 < k) : chunks k [] = [] :=
  List.eq_nil_of_length_eq_zero (Nat.le_zero.mp (length_chunks_le hk []))

/-- The first pieces are the pieces of the first ids. -/
theorem take_chunks {k : ℕ} (hk : 0 < k) (j : ℕ) : ∀ fids : List UInt64,
    (chunks k fids).take j = chunks k (fids.take (j * k)) := by
  induction j with
  | zero => intro fids; simp [chunks_nil hk]
  | succ j ih =>
    intro fids
    by_cases hne : fids = []
    · rw [hne, chunks_nil hk, List.take_nil, List.take_nil, chunks_nil hk]
    · have htake : fids.take ((j + 1) * k) ≠ [] := by
        rw [← List.length_pos_iff, List.length_take]
        have := List.length_pos_iff.mpr hne
        have : 0 < (j + 1) * k := Nat.mul_pos (Nat.succ_pos j) hk
        omega
      have hmul : (j + 1) * k = k + j * k := by rw [Nat.succ_mul, Nat.add_comm]
      rw [chunks_cons hk hne, chunks_cons hk htake, List.take_succ_cons, ih, List.take_take,
        List.drop_take, hmul, Nat.min_eq_left (Nat.le_add_right k _), Nat.add_sub_cancel_left]

theorem drop_chunks {k : ℕ} (hk : 0 < k) (j : ℕ) : ∀ fids : List UInt64,
    (chunks k fids).drop j = chunks k (fids.drop (j * k)) := by
  induction j with
  | zero => intro fids; simp
  | succ j ih =>
    intro fids
    by_cases hne : fids = []
    · rw [hne, chunks_nil hk, List.drop_nil, List.drop_nil, chunks_nil hk]
    · rw [chunks_cons hk hne, List.drop_succ_cons, ih, List.drop_drop, Nat.succ_mul, Nat.add_comm k]

/-- The first of the pieces of a list cut short. -/
theorem chunks_take_succ (j : ℕ) {fids : List UInt64} (hne : fids ≠ []) :
    chunks B (fids.take ((j + 1) * B)) = fids.take B :: chunks B ((fids.drop B).take (j * B)) := by
  rw [← take_chunks (by decide), chunks_cons (by decide) hne, List.take_succ_cons,
    take_chunks (by decide)]

theorem blockOf_take (fids : List UInt64) :
    (padded B fids).flatMap putu64 = blockOf (fids.take B) := by
  rw [blockOf, padded, padded, List.take_take, Nat.min_self, List.length_take]
  congr 3
  omega

/-- What the loop over `j` makes of a posting list that is not used up. -/
theorem fillPointerBlock_eq (tc : Tomcrypt) (K2 : Bytes) (j : ℕ) : ∀ (fids : List UInt64)
    (M : List Bytes), fids ≠ [] → fillPointerBlock tc K2 j fids M =
      ((padded j (numbers M.length (chunks B (fids.take (j * B))).length)).flatMap putu64,
        fids.drop (j * B), M ++ fileidBlocks tc K2 (fids.take (j * B))) := by
  induction j with
  | zero =>
    intro fids M _
    simp [fillPointerBlock, fileidBlocks, chunks_nil, B, padded]
  | succ j ih =>
    intro fids M hne
    have hdrop : fids.drop ((j + 1) * B) = (fids.drop B).drop (j * B) := by
      rw [List.drop_drop, Nat.succ_mul, Nat.add_comm]
    rw [fillPointerBlock, fillFileidBlock_eq]
    simp only [List.length_append, List.length_singleton, Nat.add_sub_cancel, List.isEmpty_iff,
      blockOf_take]
    rw [fileidBlocks, chunks_take_succ j hne, List.map_cons, List.length_cons, numbers_succ,
      padded_cons, List.flatMap_cons, hdrop]
    by_cases hlast : fids.drop B = []
    · -- the ids run out: the pointers left are padding
      rw [if_pos hlast, hlast]
      simp [chunks_nil, B, numbers, padded, List.flatMap_def]
    · rw [if_neg hlast, ih (fids.drop B) _ hlast]
      simp only [List.length_append, List.length_singleton, fileidBlocks, List.append_assoc,
        List.singleton_append]

theorem fillPointerCalls_eq (K2 : Bytes) (j : ℕ) : ∀ fids : List UInt64, fids ≠ [] →
    fillPointerCalls K2 j fids = (chunks B (fids.take (j * B))).map fun ids => ⟨K2, blockOf ids⟩ := by
  induction j with
  | zero => intro fids _; simp [fillPointerCalls, chunks_nil, B]
  | succ j ih =>
    intro fids hne
    rw [fillPointerCalls, fillFileidBlock_eq]
    simp only [List.isEmpty_iff, blockOf_take]
    rw [chunks_take_succ j hne, List.map_cons]
    by_cases hlast : fids.drop B = []
    · rw [if_pos hlast, hlast, List.take_nil, chunks_nil (by decide), List.map_nil]
    · rw [if_neg hlast, ih (fids.drop B) hlast]

/-- The numbers of the file id blocks, in blocks of their own. -/
def pointersOf (m : ℕ) (fids : List UInt64) : List (List UInt64) :=
  chunks B (numbers m (chunks B fids).length)

/-- One round takes up to `B` file id blocks and makes the first pointer block of them. -/
theorem pointersOf_cons (m : ℕ) {fids : List UInt64} (hne : fids ≠ []) :
    pointersOf m fids =
      numbers m (chunks B (fids.take (B * B))).length ::
        pointersOf (m + (chunks B (fids.take (B * B))).length) (fids.drop (B * B)) := by
  have hB : 0 < B := by decide
  have hlen : (chunks B (fids.take (B * B))).length = min B (chunks B fids).length := by
    rw [← take_chunks hB, List.length_take]
  have hrest : (chunks B (fids.drop (B * B))).length = (chunks B fids).length - B := by
    rw [← drop_chunks hB, List.length_drop]
  have hnumbers : numbers m (chunks B fids).length ≠ [] := by
    rw [chunks_cons hB hne, List.length_cons, numbers_succ]
    exact List.cons_ne_nil _ _
  rw [pointersOf, chunks_cons hB hnumbers, take_numbers, drop_numbers, pointersOf, hlen, hrest]
  rcases Nat.le_total B (chunks B fids).length with h | h
  · rw [Nat.min_eq_left h]
  · rw [Nat.sub_eq_zero_of_le h]; simp [numbers]

theorem pointerBlocks_eq (tc : Tomcrypt) (K2 : Bytes) (fuel : ℕ) : ∀ (fids : List UInt64)
    (M : List Bytes), fids.length ≤ fuel → pointerBlocks tc K2 fuel fids M =
      ((pointersOf M.length fids).map blockOf, M ++ fileidBlocks tc K2 fids) := by
  induction fuel with
  | zero =>
    intro fids M hf
    obtain rfl := List.eq_nil_of_length_eq_zero (Nat.le_zero.mp hf)
    simp [pointerBlocks, pointersOf, numbers, chunks_nil, fileidBlocks, B]
  | succ fuel ih =>
    intro fids M hf
    by_cases hne : fids = []
    · subst hne
      simp [pointerBlocks, pointersOf, numbers, chunks_nil, fileidBlocks, B]
    · have hpos := List.length_pos_iff.mpr hne
      have hshort : (fids.drop (B * B)).length ≤ fuel := by
        rw [List.length_drop, B]; omega
      have hlen : (M ++ fileidBlocks tc K2 (fids.take (B * B))).length =
          M.length + (chunks B (fids.take (B * B))).length := by
        rw [List.length_append, fileidBlocks, List.length_map]
      have hsplit : fileidBlocks tc K2 fids = fileidBlocks tc K2 (fids.take (B * B)) ++
          fileidBlocks tc K2 (fids.drop (B * B)) := by
        rw [fileidBlocks, fileidBlocks, fileidBlocks, ← List.map_append, ← take_chunks (by decide),
          ← drop_chunks (by decide), List.take_append_drop]
      rw [pointerBlocks, if_neg (by simpa using hne), fillPointerBlock_eq tc K2 B fids M hne]
      simp only [ih _ _ hshort, hlen]
      rw [pointersOf_cons M.length hne, List.map_cons, hsplit, List.append_assoc]
      rfl

/-- Every block, of ids or of pointers, is encrypted once. -/
theorem pointerCalls_perm (tc : Tomcrypt) (K2 : Bytes) (fuel : ℕ) : ∀ (fids : List UInt64)
    (M : List Bytes), fids.length ≤ fuel → (pointerCalls tc K2 fuel fids M).Perm
      ((chunks B fids ++ pointersOf M.length fids).map fun ids => ⟨K2, blockOf ids⟩) := by
  induction fuel with
  | zero =>
    intro fids M hf
    obtain rfl := List.eq_nil_of_length_eq_zero (Nat.le_zero.mp hf)
    simp [pointerCalls, pointersOf, numbers, chunks_nil, B]
  | succ fuel ih =>
    intro fids M hf
    by_cases hne : fids = []
    · subst hne
      simp [pointerCalls, pointersOf, numbers, chunks_nil, B]
    · have hpos := List.length_pos_iff.mpr hne
      have hshort : (fids.drop (B * B)).length ≤ fuel := by
        rw [List.length_drop, B]; omega
      have hlen : (M ++ fileidBlocks tc K2 (fids.take (B * B))).length =
          M.length + (chunks B (fids.take (B * B))).length := by
        rw [List.length_append, fileidBlocks, List.length_map]
      have hsplit : chunks B fids = chunks B (fids.take (B * B)) ++ chunks B (fids.drop (B * B)) := by
        rw [← take_chunks (by decide), ← drop_chunks (by decide), List.take_append_drop]
      have hrest := ih (fids.drop (B * B)) (M ++ fileidBlocks tc K2 (fids.take (B * B))) hshort
      rw [hlen] at hrest
      rw [pointerCalls, if_neg (by simpa using hne), fillPointerBlock_eq tc K2 B fids M hne,
        fillPointerCalls_eq K2 B fids hne, pointersOf_cons M.length hne, hsplit, List.append_assoc,
        List.map_append]
      refine List.Perm.append_left _ ?_
      rw [List.map_append, List.map_cons]
      rw [List.map_append] at hrest
      exact (hrest.cons _).trans List.perm_middle.symm

/-! ### The calls of a run -/

variable {v : Version} {lay : Layout}

/-- The calls for one token encrypt its blocks of numbers. -/
theorem mem_encoderCalls (hlay : v.layout? tc = some lay) {m : ℕ} {M : List Bytes}
    (hm : v = .Pointer → M.length = m) (K2 : Bytes) (fids : List UInt64) (call : EncryptCall) :
    call ∈ v.encoderCalls tc K2 fids M ↔ ∃ row ∈ v.rows m fids, call = ⟨K2, row.flatMap putu64⟩ := by
  cases v with
  | Basic =>
    simp only [Version.encoderCalls, basicCalls, basicBlocks, Version.rows, List.mem_map]
    constructor
    · rintro ⟨-, ⟨id, hid, rfl⟩, rfl⟩
      exact ⟨[id], ⟨id, hid, rfl⟩, by simp⟩
    · rintro ⟨-, ⟨id, hid, rfl⟩, rfl⟩
      exact ⟨putu64 id, ⟨id, hid, rfl⟩, by simp⟩
  | Packed =>
    have hrow : ∀ c, padded B ((fids.drop (c * B)).take B) = padded B (fids.drop (c * B)) := by
      intro c
      rw [padded, padded, List.take_take, Nat.min_self, List.length_take]
      congr 2
      omega
    simp only [Version.encoderCalls, packedCalls, packedBlocks_eq, Version.rows, chunks, List.mem_map]
    constructor
    · rintro ⟨-, ⟨c, hc, rfl⟩, rfl⟩
      exact ⟨_, ⟨_, ⟨c, hc, rfl⟩, rfl⟩, by rw [hrow]⟩
    · rintro ⟨-, ⟨-, ⟨c, hc, rfl⟩, rfl⟩, rfl⟩
      exact ⟨_, ⟨c, hc, rfl⟩, by rw [hrow]⟩
  | Pointer =>
    have hperm := pointerCalls_perm tc K2 fids.length fids M le_rfl
    rw [hm rfl] at hperm
    rw [Version.encoderCalls, hperm.mem_iff, Version.rows, ← pointersOf, ← List.map_append]
    simp only [List.mem_map]
    constructor
    · rintro ⟨ids, hids, rfl⟩
      exact ⟨_, ⟨ids, hids, rfl⟩, rfl⟩
    · rintro ⟨-, ⟨ids, hids, rfl⟩, rfl⟩
      exact ⟨ids, hids, rfl⟩
  | TwoLevelPointer => cases hlay

theorem rows_ne_nil {m : ℕ} {fids row : List UInt64} (h : row ∈ v.rows m fids) : row ≠ [] := by
  have hpadded : ∀ ids : List UInt64, padded B ids ≠ [] := by
    intro ids
    rw [← List.length_pos_iff, length_padded]
    decide
  cases v with
  | Basic =>
    obtain ⟨id, -, rfl⟩ := List.mem_map.mp h
    exact List.cons_ne_nil _ _
  | Packed =>
    obtain ⟨ids, -, rfl⟩ := List.mem_map.mp h
    exact hpadded ids
  | Pointer =>
    rw [Version.rows, ← List.map_append] at h
    obtain ⟨ids, -, rfl⟩ := List.mem_map.mp h
    exact hpadded ids
  | TwoLevelPointer => cases h

/-- A posting list adds its file id blocks to the external blocks. -/
theorem length_encode (hlay : v.layout? tc = some lay) (hv : v = .Pointer) (K2 : Bytes)
    (fids : List UInt64) (M : List Bytes) :
    (lay.encode K2 fids M).2.length = M.length + (chunks B fids).length := by
  subst hv
  cases hlay
  show (pointerBlocks tc K2 fids.length fids M).2.length = _
  rw [pointerBlocks_eq tc K2 _ _ _ le_rfl, List.length_append, fileidBlocks, List.length_map]

/-- The calls of the loop over the tokens encrypt the blocks of numbers of each. -/
theorem mem_indexEncrypts (hlay : v.layout? tc = some lay) (key : Bytes) (fileids : Postings)
    (call : EncryptCall) (tokens : List Bytes) : ∀ (m : ℕ) (M : List Bytes),
    (v = .Pointer → M.length = m) → (∀ w ∈ tokens, w ∈ fileids) →
    (call ∈ indexEncrypts tc lay.encode (v.encoderCalls tc) key fileids tokens M ↔
      ∃ e ∈ placed fileids m tokens, ∃ row ∈ v.rows e.2 (fileids.getD e.1 []),
        call = ⟨macKey tc key 0x32 e.1, row.flatMap putu64⟩) := by
  induction tokens with
  | nil => intro m M _ _; simp [indexEncrypts, placed]
  | cons w tokens ih =>
    intro m M hm hposted
    have hw := hposted w List.mem_cons_self
    have hrest := ih (m + (chunks B (fileids.getD w [])).length)
      (lay.encode (macKey tc key 0x32 w) (fileids.getD w []) M).2
      (fun hv => by rw [length_encode hlay hv, hm hv])
      (fun u hu => hposted u (List.mem_cons_of_mem _ hu))
    rw [indexEncrypts, getElem?_of_posted hw]
    simp only
    rw [List.mem_append, mem_encoderCalls hlay hm, hrest, placed]
    simp only [List.mem_cons, exists_eq_or_imp]

theorem setupEncrypts_layout (hlay : v.layout? tc = some lay) (keys : Keys) (tokens : List Bytes)
    (fileids : Postings) : setupEncrypts tc v.toInt keys tokens fileids =
      indexEncrypts tc lay.encode (v.encoderCalls tc) keys.key fileids tokens [] := by
  cases v with
  | Basic => cases hlay; rfl
  | Packed => cases hlay; rfl
  | Pointer => cases hlay; rfl
  | TwoLevelPointer => cases hlay

/-- The calls of the Adds encrypt one id for each word. -/
theorem mem_addsEncrypts (call : EncryptCall) (adds : List Adding) : ∀ core : Core,
    (call ∈ addsEncrypts tc core adds ↔ ∃ a ∈ adds, ∃ w ∈ a.words,
      call = ⟨macKey tc core.kplus 0x32 w, [a.id].flatMap putu64⟩) := by
  induction adds with
  | nil => intro core; simp [addsEncrypts]
  | cons a adds ih =>
    intro core
    have hkeys : (addClient tc core a.stack a.id a.words).1.kplus = core.kplus :=
      congrArg Keys.kplus (addTokenPairs_spec tc a.stack a.id a.words core 0).1
    rw [addsEncrypts, List.mem_append, ih, hkeys, addEncrypts]
    simp only [List.mem_map, List.mem_cons, exists_eq_or_imp, List.flatMap_singleton]
    refine or_congr ?_ Iff.rfl
    constructor
    · rintro ⟨w, hw, rfl⟩
      exact ⟨w, hw, rfl⟩
    · rintro ⟨w, hw, rfl⟩
      exact ⟨w, hw, rfl⟩

/-! ### What the server gets -/

/-- The entries and the external blocks of one token are the results of its calls. -/
theorem encoderCalls_sent (hlay : v.layout? tc = some lay) (K2 : Bytes) (fids : List UInt64)
    (M : List Bytes) (d : Bytes) :
    ((∃ block ∈ (lay.encode K2 fids M).1, encryptBytes tc K2 block = d) ∨
      d ∈ (lay.encode K2 fids M).2) ↔
        (∃ call ∈ v.encoderCalls tc K2 fids M, call.result tc = d) ∨ d ∈ M := by
  cases v with
  | Basic =>
    cases hlay
    simp only [Version.encoderCalls, basicCalls, basicLayout, basicEncoder, List.mem_map]
    refine or_congr ?_ Iff.rfl
    constructor
    · rintro ⟨block, hb, rfl⟩
      exact ⟨_, ⟨block, hb, rfl⟩, rfl⟩
    · rintro ⟨-, ⟨block, hb, rfl⟩, rfl⟩
      exact ⟨block, hb, rfl⟩
  | Packed =>
    cases hlay
    simp only [Version.encoderCalls, packedCalls, packedLayout, packedEncoder, List.mem_map]
    refine or_congr ?_ Iff.rfl
    constructor
    · rintro ⟨block, hb, rfl⟩
      exact ⟨_, ⟨block, hb, rfl⟩, rfl⟩
    · rintro ⟨-, ⟨block, hb, rfl⟩, rfl⟩
      exact ⟨block, hb, rfl⟩
  | Pointer =>
    cases hlay
    have hperm := pointerCalls_perm tc K2 fids.length fids M le_rfl
    show ((∃ block ∈ (pointerBlocks tc K2 fids.length fids M).1, _) ∨
      d ∈ (pointerBlocks tc K2 fids.length fids M).2) ↔ _
    rw [pointerBlocks_eq tc K2 _ _ _ le_rfl]
    simp only [Version.encoderCalls, hperm.mem_iff, fileidBlocks, List.mem_append, List.mem_map]
    constructor
    · rintro (⟨-, ⟨ids, hids, rfl⟩, rfl⟩ | hM | ⟨ids, hids, rfl⟩)
      · exact Or.inl ⟨_, ⟨ids, Or.inr hids, rfl⟩, rfl⟩
      · exact Or.inr hM
      · exact Or.inl ⟨_, ⟨ids, Or.inl hids, rfl⟩, rfl⟩
    · rintro (⟨-, ⟨ids, hids | hids, rfl⟩, rfl⟩ | hM)
      · exact Or.inr (Or.inr ⟨ids, hids, rfl⟩)
      · exact Or.inl ⟨_, ⟨ids, hids, rfl⟩, rfl⟩
      · exact Or.inr (Or.inl hM)
  | TwoLevelPointer => cases hlay

/-- What is handed over of a token's pairs is the encryptions of its blocks. -/
theorem mem_take_setupPairs (tc : Tomcrypt) (K1 K2 : Bytes) {blocks : List Bytes} {dlen : ℕ}
    (hsize : ∀ block ∈ blocks, block.length + 16 = dlen) (d : Bytes) :
    (∃ p ∈ setupPairs tc K1 K2 blocks, p.d.take dlen = d) ↔
      ∃ block ∈ blocks, encryptBytes tc K2 block = d := by
  simp only [setupPairs, List.mem_map, Prod.exists]
  constructor
  · rintro ⟨-, ⟨block, c, hb, rfl⟩, rfl⟩
    have hmem := List.mem_of_getElem? (List.mk_mem_zipIdx_iff_getElem?.mp hb)
    exact ⟨block, hmem, (take_setupPair tc K1 K2 c (hsize block hmem)).symm⟩
  · rintro ⟨block, hb, rfl⟩
    obtain ⟨c, hc⟩ := List.getElem?_of_mem hb
    exact ⟨_, ⟨block, c, List.mk_mem_zipIdx_iff_getElem?.mpr hc, rfl⟩,
      take_setupPair tc K1 K2 c (hsize block hb)⟩

theorem indexEncrypts_sent (hlay : v.layout? tc = some lay) (key : Bytes) (fileids : Postings)
    (d : Bytes) (tokens : List Bytes) : ∀ (M : List Bytes) {L : List TokenPair} {M' : List Bytes},
    indexTokens tc lay.encode key fileids tokens M = .ok (L, M') →
    ((∃ p ∈ L, p.d.take lay.dlen = d) ∨ d ∈ M' ↔
      (∃ call ∈ indexEncrypts tc lay.encode (v.encoderCalls tc) key fileids tokens M,
        call.result tc = d) ∨ d ∈ M) := by
  induction tokens with
  | nil =>
    intro M L M' h
    cases h
    simp [indexEncrypts]
  | cons w tokens ih =>
    intro M L M' h
    have hw : w ∈ fileids := ((indexTokens_ok tc lay.encode key fileids (w :: tokens) M).mp
      ⟨_, h⟩) w List.mem_cons_self
    obtain ⟨K2, hK2⟩ : ∃ K2, macKey tc key 0x32 w = K2 := ⟨_, rfl⟩
    have hsent := encoderCalls_sent hlay K2 (fileids.getD w []) M d
    have hsize := (layout_right tc hlay).size K2 (fileids.getD w []) M
    obtain ⟨blocks, M₁, henc⟩ :
      ∃ blocks M₁, lay.encode K2 (fileids.getD w []) M = (blocks, M₁) := ⟨_, _, rfl⟩
    rw [indexTokens, postingsAt_of_mem hw] at h
    rw [indexEncrypts, getElem?_of_posted hw]
    simp only [bind, Except.bind, hK2, henc] at h ⊢
    rw [henc] at hsent hsize
    cases hrest : indexTokens tc lay.encode key fileids tokens M₁ with
    | error e => rw [hrest] at h; simp at h
    | ok q =>
      obtain ⟨L₂, M₂⟩ := q
      rw [hrest] at h
      simp only [pure, Except.pure, Except.ok.injEq, Prod.mk.injEq] at h
      obtain ⟨rfl, rfl⟩ := h
      have hentries := mem_take_setupPairs tc (macKey tc key 0x31 w) K2 hsize d
      have hih := ih M₁ hrest
      simp only [List.mem_append, or_and_right, exists_or, hentries]
      rw [or_assoc, hih, or_assoc, or_left_comm, hsent, or_left_comm]

/-- The server is sent the results of the calls and nothing else that is encrypted. -/
theorem setupEncrypts_sent {core client : Core} {keys : Keys} {tokens : List Bytes}
    {fileids : Postings} {version : ℤ} {L : List SetupPair} {M : List Bytes}
    (h : setupClient tc version core keys tokens fileids = .ok (client, L, M)) (d : Bytes) :
    ((∃ q ∈ L, q.FileID = d) ∨ d ∈ M) ↔
      ∃ call ∈ setupEncrypts tc version keys tokens fileids, call.result tc = d := by
  obtain ⟨v, lay, hlay, rfl⟩ := setupClient_version tc h
  rw [setupClient_layout tc hlay, setupIndex] at h
  obtain ⟨r, hidx, hr⟩ := exists_of_map_ok h
  cases htokens : indexTokens tc lay.encode keys.key fileids tokens [] with
  | error e => rw [htokens] at hidx; simp [bind, Except.bind] at hidx
  | ok q =>
    obtain ⟨L₀, M₀⟩ := q
    rw [htokens] at hidx
    cases hidx
    simp only [Prod.mk.injEq] at hr
    obtain ⟨-, rfl, rfl⟩ := hr
    have hsent := indexEncrypts_sent hlay keys.key fileids d tokens [] htokens
    simp only [List.not_mem_nil, or_false] at hsent
    rw [setupEncrypts_layout hlay, ← hsent]
    refine or_congr ?_ Iff.rfl
    simp only [List.mem_map, sortTokenPairs]
    constructor
    · rintro ⟨-, ⟨p, hp, rfl⟩, rfl⟩
      exact ⟨p, (List.mem_insertionSort _).mp hp, rfl⟩
    · rintro ⟨p, hp, rfl⟩
      exact ⟨_, ⟨p, (List.mem_insertionSort _).mpr hp, rfl⟩, rfl⟩

/-- Each Add sends the results of its calls, with what was on the stack behind them. -/
theorem addEncrypts_sent (core : Core) (stack : Stack) (id : UInt64) (words : List Bytes) :
    ∀ q ∈ (addClient tc core stack id words).2.1, ∃ call ∈ addEncrypts tc core id words,
      ∃ surplus, q.FileID = call.result tc ++ surplus := by
  obtain ⟨-, -, hwords, hpairs⟩ := addTokenPairs_spec tc stack id words core 0
  intro q hq
  obtain ⟨p, hp, rfl⟩ := List.mem_map.mp hq
  have hp' := (List.perm_insertionSort _ _).mem_iff.mp hp
  obtain ⟨surplus, -, he⟩ := hpairs p hp'
  have hw : p.w ∈ words := hwords ▸ List.mem_map_of_mem hp'
  exact ⟨_, List.mem_map.mpr ⟨p.w, hw, rfl⟩, surplus, congrArg TokenPair.d he⟩

/-! ### Reuse -/

/-- In Basic the lists under a key may have one id between them. -/
theorem rows_basic_once {m m' : ℕ} {fids fids' : List UInt64} :
    (∀ row ∈ Version.Basic.rows m fids, ∀ row' ∈ Version.Basic.rows m' fids', row = row') ↔
      ∀ id ∈ fids, ∀ id' ∈ fids', id = id' := by
  simp [Version.rows]

/-- In Pointer a list with ids is safe by coincidence only: where its first id is the number of its own
    block. -/
theorem rows_pointer_once {m : ℕ} {id : UInt64} {fids : List UInt64}
    (h : ∀ row ∈ Version.Pointer.rows m (id :: fids), ∀ row' ∈ Version.Pointer.rows m (id :: fids),
      row = row') : id = UInt64.ofNat m := by
  have hB : 0 < B := by decide
  have hne : id :: fids ≠ [] := List.cons_ne_nil _ _
  have hids : padded B ((id :: fids).take B) ∈ Version.Pointer.rows m (id :: fids) := by
    refine List.mem_append_left _ (List.mem_map_of_mem ?_)
    rw [chunks_cons hB hne]
    exact List.mem_cons_self
  have hpointers : padded B (numbers m (chunks B ((id :: fids).take (B * B))).length) ∈
      Version.Pointer.rows m (id :: fids) := by
    refine List.mem_append_right _ (List.mem_map_of_mem ?_)
    rw [← pointersOf, pointersOf_cons m hne]
    exact List.mem_cons_self
  have heq := h _ hids _ hpointers
  rw [← take_chunks hB, chunks_cons hB hne] at heq
  have hhead := congrArg List.head? heq
  simpa [B, padded, numbers_succ] using hhead

/-- Without collisions, two words have one key if they agree up to their first NUL. -/
theorem macKey_eq_iff {key key' u w : Bytes} {n : UInt8}
    (hn : NoCollision tc [macKeyCall key n u, macKeyCall key' n w]) :
    macKey tc key n u = macKey tc key' n w ↔ key = key' ∧ cstr u = cstr w := by
  constructor
  · intro h
    have hcall := hn _ (by simp) _ (by simp) h
    simpa [macKeyCall] using hcall
  · rintro ⟨rfl, hc⟩
    exact macKey_congr key n hc

/-- The calls of SetupClient: one for each row of numbers of a token, under the token's key. -/
theorem mem_setupEncrypts {core client : Core} {keys : Keys} {tokens : List Bytes} {fileids : Postings}
    {L : List SetupPair} {M : List Bytes} (v : Version)
    (h : setupClient tc v.toInt core keys tokens fileids = .ok (client, L, M)) (call : EncryptCall) :
    call ∈ setupEncrypts tc v.toInt keys tokens fileids ↔
      ∃ e ∈ placed fileids 0 tokens, ∃ row ∈ v.rows e.2 (fileids.getD e.1 []),
        call = ⟨macKey tc keys.key 0x32 e.1, row.flatMap putu64⟩ := by
  obtain ⟨v', lay, hlay, hv⟩ := setupClient_version tc h
  obtain rfl : v = v' := by cases v <;> cases v' <;> first | rfl | cases hv
  have hposted : ∀ w ∈ tokens, w ∈ fileids := by
    rw [← indexTokens_ok tc lay.encode keys.key fileids tokens []]
    rw [setupClient_layout tc hlay] at h
    obtain ⟨r, hidx, -⟩ := exists_of_map_ok h
    obtain ⟨q, hq, -⟩ := exists_of_bind_ok hidx
    exact ⟨q, hq⟩
  rw [setupEncrypts_layout hlay]
  exact mem_indexEncrypts hlay keys.key fileids call tokens 0 [] (fun _ => rfl) hposted

/-- A call has something to encrypt if its row of numbers is not empty. -/
theorem flatMap_putu64_ne_nil {row : List UInt64} (h : row ≠ []) : row.flatMap putu64 ≠ [] := by
  intro heq
  exact h (flatMap_putu64_inj (heq.trans List.flatMap_nil.symm))

/-- No keystream is used twice exactly if every key gets one block of numbers at most. -/
theorem Core.keystream_iff {core client : Core} {keys : Keys} {tokens : List Bytes}
    {fileids : Postings} {L : List SetupPair} {M : List Bytes} (v : Version)
    (h : setupClient tc v.toInt core keys tokens fileids = .ok (client, L, M)) (adds : List Adding) :
    NoReuse (setupEncrypts tc v.toInt keys tokens fileids ++ addsEncrypts tc client adds) ↔
      RowsOnce tc v keys tokens fileids adds := by
  have hsetup := mem_setupEncrypts v h
  have hkplus : client.kplus = keys.kplus := congrArg Keys.kplus (setupClient_state h).1
  have hadds : ∀ call, call ∈ addsEncrypts tc client adds ↔ ∃ a ∈ adds, ∃ w ∈ a.words,
      call = ⟨macKey tc keys.kplus 0x32 w, [a.id].flatMap putu64⟩ := by
    intro call
    rw [mem_addsEncrypts, hkplus]
  rw [noReuse_iff]
  · constructor
    · intro hone
      refine ⟨?_, ?_, ?_⟩
      · intro u hu w hw hkey row hrow row' hrow'
        refine flatMap_putu64_inj (hone _ (List.mem_append_left _ ((hsetup _).mpr ⟨u, hu, row, hrow, rfl⟩))
          _ (List.mem_append_left _ ((hsetup _).mpr ⟨w, hw, row', hrow', rfl⟩)) hkey)
      · intro a ha b hb u hu w hw hkey
        have := flatMap_putu64_inj (hone _
          (List.mem_append_right _ ((hadds _).mpr ⟨a, ha, u, hu, rfl⟩)) _
          (List.mem_append_right _ ((hadds _).mpr ⟨b, hb, w, hw, rfl⟩)) hkey)
        exact List.singleton_inj.mp this
      · intro u hu a ha w hw hkey row hrow
        exact flatMap_putu64_inj (hone _
          (List.mem_append_left _ ((hsetup _).mpr ⟨u, hu, row, hrow, rfl⟩)) _
          (List.mem_append_right _ ((hadds _).mpr ⟨a, ha, w, hw, rfl⟩)) hkey)
    · rintro ⟨hs, hl, hc⟩ a ha b hb hkey
      rcases List.mem_append.mp ha with ha | ha <;> rcases List.mem_append.mp hb with hb | hb
      · obtain ⟨u, hu, row, hrow, rfl⟩ := (hsetup a).mp ha
        obtain ⟨w, hw, row', hrow', rfl⟩ := (hsetup b).mp hb
        exact congrArg (·.flatMap putu64) (hs u hu w hw hkey row hrow row' hrow')
      · obtain ⟨u, hu, row, hrow, rfl⟩ := (hsetup a).mp ha
        obtain ⟨x, hx, w, hw, rfl⟩ := (hadds b).mp hb
        exact congrArg (·.flatMap putu64) (hc u hu x hx w hw hkey row hrow)
      · obtain ⟨x, hx, w, hw, rfl⟩ := (hadds a).mp ha
        obtain ⟨u, hu, row, hrow, rfl⟩ := (hsetup b).mp hb
        exact congrArg (·.flatMap putu64) (hc u hu x hx w hw hkey.symm row hrow).symm
      · obtain ⟨x, hx, u, hu, rfl⟩ := (hadds a).mp ha
        obtain ⟨y, hy, w, hw, rfl⟩ := (hadds b).mp hb
        exact congrArg (fun id => [id].flatMap putu64) (hl x hx y hy u hu w hw hkey)
  · intro call hcall
    rcases List.mem_append.mp hcall with hcall | hcall
    · obtain ⟨u, hu, row, hrow, rfl⟩ := (hsetup call).mp hcall
      exact flatMap_putu64_ne_nil (rows_ne_nil hrow)
    · obtain ⟨a, ha, w, hw, rfl⟩ := (hadds call).mp hcall
      exact flatMap_putu64_ne_nil (List.cons_ne_nil a.id [])

/-- A Setup and three Adds that encrypt one id for each key. -/
def sampleSingles : Postings := ((∅ : Postings).insert [97] [1, 1]).insert [98] [2]

def sampleAddings : List Adding :=
  [⟨fun _ _ => 0, 8, [[97]]⟩, ⟨fun _ _ => 0, 9, [[98]]⟩, ⟨fun _ _ => 0, 8, [[97]]⟩]

theorem Core.keystream_sample : ∃ client L M,
    setupClient standIn Version.Basic.toInt Core.new sampleKeys [[97], [98]] sampleSingles =
      .ok (client, L, M) ∧
    NoReuse (setupEncrypts standIn Version.Basic.toInt sampleKeys [[97], [98]] sampleSingles ++
      addsEncrypts standIn client sampleAddings) := by
  have hrun : (setupClient standIn Version.Basic.toInt Core.new sampleKeys [[97], [98]]
      sampleSingles).map (fun _ => ()) = .ok () := by decide +kernel
  obtain ⟨⟨client, L, M⟩, hsetup, -⟩ := exists_of_map_ok hrun
  refine ⟨client, L, M, hsetup, (Core.keystream_iff .Basic hsetup sampleAddings).mpr ⟨?_, ?_, ?_⟩⟩
  · decide +kernel
  · decide +kernel
  · decide +kernel

/-- One word with two ids. -/
def sampleTwoIds : Postings := (∅ : Postings).insert [97] [1, 2]

/-- Two ids of one word are encrypted with one keystream: the difference of the ids can be read off the
    ciphertexts. -/
theorem Core.keystream_reused : ∃ client L M,
    setupClient standIn Version.Basic.toInt Core.new sampleKeys [[97]] sampleTwoIds =
      .ok (client, L, M) ∧
    ¬ NoReuse (setupEncrypts standIn Version.Basic.toInt sampleKeys [[97]] sampleTwoIds ++
      addsEncrypts standIn client []) ∧
    ∃ a ∈ setupEncrypts standIn Version.Basic.toInt sampleKeys [[97]] sampleTwoIds,
      ∃ b ∈ setupEncrypts standIn Version.Basic.toInt sampleKeys [[97]] sampleTwoIds, a.msg ≠ b.msg ∧
        List.zipWith (· ^^^ ·) ((a.result standIn).drop 16) ((b.result standIn).drop 16) =
          List.zipWith (· ^^^ ·) a.msg b.msg := by
  have hrun : (setupClient standIn Version.Basic.toInt Core.new sampleKeys [[97]] sampleTwoIds).map
      (fun _ => ()) = .ok () := by decide +kernel
  obtain ⟨⟨client, L, M⟩, hsetup, -⟩ := exists_of_map_ok hrun
  have hshared : ∃ a ∈ setupEncrypts standIn Version.Basic.toInt sampleKeys [[97]] sampleTwoIds,
      ∃ b ∈ setupEncrypts standIn Version.Basic.toInt sampleKeys [[97]] sampleTwoIds,
        a.key = b.key ∧ a.msg ≠ b.msg ∧ IV ∈ a.counters ∧ IV ∈ b.counters := by decide +kernel
  obtain ⟨a, ha, b, hb, hkey, hmsg, hia, hib⟩ := hshared
  refine ⟨client, L, M, hsetup, fun h => ?_, a, ha, b, hb, hmsg, EncryptCall.result_xor standIn hkey⟩
  exact h a (List.mem_append_left _ ha) b (List.mem_append_left _ hb) hkey hmsg hia hib

end DSSE
