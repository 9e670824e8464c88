import DSSE.Crypto
import DSSE.Schemes.Labelled

/-! `DSSE::Core`: the state that client and server keep, and both halves of Setup, Search, Add and
    Delete. Random keys and the contents of uninitialised stack memory are arguments. A loop over a
    64-bit counter that can only leave by a missing label is a `probe` with fuel `2^64`: after that
    many hits the counter is back at 0 and the loop never ends. -/

namespace DSSE
open Schemes Std

/-- `enum Version`. -/
inductive Version where | Basic | Packed | Pointer | TwoLevelPointer
  deriving DecidableEq, Repr

def Version.toInt : Version → ℤ
  | .Basic => 0
  | .Packed => 1
  | .Pointer => 2
  | .TwoLevelPointer => 3

/-- `std::map<std::string, std::string>`, kept in byte order of its keys. -/
abbrev Dmap := ExtTreeMap Bytes Bytes compare

/-- `std::map<std::string, uint64_t>`. -/
abbrev Dcountmap := ExtTreeMap Bytes UInt64 compare

/-- `std::set<std::string>`. -/
abbrev Revlist := ExtTreeSet Bytes compare

/-- `std::map<std::string, std::vector<fileid_t>>`: the posting list of each token. -/
abbrev Postings := ExtTreeMap Bytes (List UInt64) compare

structure Core where
  version : ℤ
  -- client state
  key : Bytes
  kplus : Bytes
  kminus : Bytes
  Dcount : Dcountmap
  -- server state
  D : Dmap
  A : List Bytes
  Dplus : Dmap
  Srev : Revlist
  dirtyD : Bool

/-- `Core::Core()`. -/
def Core.new : Core where
  version := Version.Basic.toInt
  key := List.replicate KEYLEN 0
  kplus := List.replicate KEYLEN 0
  kminus := List.replicate KEYLEN 0
  Dcount := ∅
  D := ∅
  A := []
  Dplus := ∅
  Srev := ∅
  dirtyD := false

structure SetupPair where
  Token : Bytes
  FileID : Bytes
  deriving DecidableEq

structure AddPair where
  Token : Bytes
  FileID : Bytes
  RevID : Bytes
  deriving DecidableEq

/-- `struct token_pair`; `w` is empty where the source leaves the pointer null. -/
structure TokenPair where
  w : Bytes
  l : Bytes
  d : Bytes
  r : Bytes
  deriving DecidableEq

variable (tc : Tomcrypt)

/-- Reports whether `a` comes before `b`. -/
def compareTokenPair (a b : TokenPair) : Bool :=
  ((compare a.l b.l).then ((compare a.d b.d).then (compare a.r b.r))).isLT

/-- `std::sort(L.begin(), L.end(), compare_token_pair)`. -/
def sortTokenPairs (L : List TokenPair) : List TokenPair :=
  L.insertionSort fun a b => compareTokenPair b a = false

/-! ### Setup -/

/-- The three keys that Setup draws with `random_key`. -/
structure Keys where
  key : Bytes
  kplus : Bytes
  kminus : Bytes

/-- The keys that Setup drew, in the client's state. -/
def Core.keys (core : Core) : Keys := ⟨core.key, core.kplus, core.kminus⟩

/-- `fileids.at(w)`. -/
def postingsAt (fileids : Postings) (w : Bytes) : Except Halt (List UInt64) :=
  match fileids[w]? with
  | some fids => .ok fids
  | none => .error .throw

/-- One entry of the index: block number `c` of the token with keys `K1`, `K2`. What the encrypted
    block leaves of `p.d`, and all of `p.r`, stays zero. -/
def setupPair (K1 K2 : Bytes) (c : ℕ) (block : Bytes) : TokenPair where
  w := []
  l := macCounter tc K1 (putu64 (UInt64.ofNat c))
  d := encryptBytes tc K2 block ++
    List.replicate (ENCRYPTED_BLOCK_SIZE - (encryptBytes tc K2 block).length) 0
  r := List.replicate DIGESTLEN 0

def setupPairs (K1 K2 : Bytes) (blocks : List Bytes) : List TokenPair :=
  blocks.zipIdx.map fun (block, c) => setupPair tc K1 K2 c block

/-- One id a block. -/
def basicBlocks (fids : List UInt64) : List Bytes := fids.map putu64

/-- `B` ids a block, the last block filled up with `INVALID`. -/
def packedBlocks (fids : List UInt64) : List Bytes :=
  (List.range ((fids.length + (B - 1)) / B)).map fun c =>
    (List.range B).flatMap fun fidc =>
      match fids[c * B + fidc]? with
      | some fid => putu64 fid
      | none => List.replicate 8 0xff

/-- The loop over `k`: the next ids into a file id block, `INVALID` once they run out. -/
def fillFileidBlock : ℕ → List UInt64 → Bytes × List UInt64
  | 0, fids => ([], fids)
  | k + 1, [] => (putu64 INVALID ++ (fillFileidBlock k []).1, [])
  | k + 1, fid :: fids => (putu64 fid ++ (fillFileidBlock k fids).1, (fillFileidBlock k fids).2)

/-- The loop over `j`: append file id blocks to `M` and their indices to a pointer block; when the
    ids run out the remaining pointers are `INVALID`. -/
def fillPointerBlock (K2 : Bytes) : ℕ → List UInt64 → List Bytes → Bytes × List UInt64 × List Bytes
  | 0, fids, M => ([], fids, M)
  | j + 1, fids, M =>
    let (fileidBlock, fids) := fillFileidBlock B fids
    let M := M ++ [encryptBytes tc K2 fileidBlock]
    let pointer := putu64 (UInt64.ofNat (M.length - 1))
    if fids.isEmpty then
      (pointer ++ (List.replicate j (putu64 INVALID)).flatten, [], M)
    else
      let (pointers, fids, M) := fillPointerBlock K2 j fids M
      (pointer ++ pointers, fids, M)

/-- The loop over `c`. Every round takes an id, so one round per id is enough fuel. -/
def pointerBlocks (K2 : Bytes) : ℕ → List UInt64 → List Bytes → List Bytes × List Bytes
  | 0, _, M => ([], M)
  | fuel + 1, fids, M =>
    if fids.isEmpty then ([], M)
    else
      let (pointerBlock, fids, M) := fillPointerBlock tc K2 B fids M
      let (blocks, M) := pointerBlocks K2 fuel fids M
      (pointerBlock :: blocks, M)

/-- How a layout cuts a posting list into the blocks of its index entries: from `K2`, the ids and the
    external blocks so far to the blocks and the external blocks. -/
abbrev Encoder := Bytes → List UInt64 → List Bytes → List Bytes × List Bytes

def basicEncoder : Encoder := fun _ fids M => (basicBlocks fids, M)

def packedEncoder : Encoder := fun _ fids M => (packedBlocks fids, M)

def pointerEncoder : Encoder := fun K2 fids M => pointerBlocks tc K2 fids.length fids M

/-- The loop over the tokens that the three variants share. -/
def indexTokens (encode : Encoder) (key : Bytes) (fileids : Postings) :
    List Bytes → List Bytes → Except Halt (List TokenPair × List Bytes)
  | [], M => .ok ([], M)
  | w :: tokens, M => do
    let K1 := macKey tc key 0x31 w
    let K2 := macKey tc key 0x32 w
    let fids ← postingsAt fileids w
    let (blocks, M) := encode K2 fids M
    let (L, M) ← indexTokens encode key fileids tokens M
    return (setupPairs tc K1 K2 blocks ++ L, M)

/-- Draw new keys, build the entries, sort them and hand them off with `dlen` bytes of `p.d`. -/
def setupIndex (encode : Encoder) (dlen : ℕ) (core : Core) (keys : Keys) (tokens : List Bytes)
    (fileids : Postings) : Except Halt (Core × List SetupPair × List Bytes) := do
  let (L, M) ← indexTokens tc encode keys.key fileids tokens []
  return ({ core with key := keys.key, kplus := keys.kplus, kminus := keys.kminus },
    (sortTokenPairs L).map fun p => ⟨p.l, p.d.take dlen⟩, M)

def setupClientBasic := setupIndex tc basicEncoder ENCRYPTED_FILEID_SIZE

def setupClientPacked := setupIndex tc packedEncoder ENCRYPTED_BLOCK_SIZE

def setupClientPointer := setupIndex tc (pointerEncoder tc) ENCRYPTED_BLOCK_SIZE

def setupClient (version : ℤ) (core : Core) (keys : Keys) (tokens : List Bytes) (fileids : Postings) :
    Except Halt (Core × List SetupPair × List Bytes) := do
  let (core, L, M) ←
    if version = Version.Basic.toInt then setupClientBasic tc core keys tokens fileids
    else if version = Version.Packed.toInt then setupClientPacked tc core keys tokens fileids
    else if version = Version.Pointer.toInt then setupClientPointer tc core keys tokens fileids
    else .error .exit
  return ({ core with version := version }, L, M)

def setupServer (version : ℤ) (core : Core) (L : List SetupPair) (M : List Bytes) : Core :=
  { core with
    D := L.foldl (fun D p => D.insert p.Token p.FileID) ∅
    A := M
    Dplus := ∅
    dirtyD := true
    version := version }

/-! ### Search -/

/-- The five keys that a search sends. -/
structure SearchKeys where
  K1 : Bytes
  K2 : Bytes
  K1plus : Bytes
  K2plus : Bytes
  K1minus : Bytes
  deriving DecidableEq

def searchClient (core : Core) (w : Bytes) : SearchKeys where
  K1 := macKey tc core.key 0x31 w
  K2 := macKey tc core.key 0x32 w
  K1plus := macKey tc core.kplus 0x31 w
  K2plus := macKey tc core.kplus 0x32 w
  K1minus := macKey tc core.kminus 0x31 w

/-- Check if an id is on the revocation list. -/
def revoked (core : Core) (K1minus : Bytes) (id : UInt64) : Bool :=
  core.Srev.contains (macLong tc K1minus id)

/-- A loop `for (c = 0;; c++)` that looks up `mac_long(K, c)` and leaves when it is missing. -/
def labelLoop (dict : Dmap) (K : Bytes) (body : Bytes → Except Halt (List UInt64)) :
    Except Halt (List UInt64) :=
  probe (fun c => dict[macLong tc K (UInt64.ofNat c)]?) body .hang (2 ^ 64) 0

/-- The loop body for an encrypted id. -/
def idEntry (core : Core) (K2 K1minus d : Bytes) : Except Halt (List UInt64) := do
  let id ← decryptLong tc K2 d
  return if revoked tc core K1minus id then [] else [id]

/-- Word `i` of a block buffer, if decryption wrote it. -/
def readWord (block : Bytes) (i : ℕ) : Except Halt UInt64 :=
  if i * 8 + 8 ≤ block.length then .ok (getu64 (block.drop (i * 8))) else .error .undefined

/-- The ids of a decrypted block that are valid and not revoked. -/
def blockIds (core : Core) (K1minus block : Bytes) : Except Halt (List UInt64) := do
  let ids ← (List.range B).mapM (readWord block)
  return ids.filter fun id => id ≠ INVALID ∧ ¬ revoked tc core K1minus id

/-- The loop body for a packed block. -/
def packedEntry (core : Core) (K2 K1minus d : Bytes) : Except Halt (List UInt64) := do
  let retid ← decryptBytes tc K2 d d.length BLOCK_SIZE
  blockIds tc core K1minus retid

/-- The loop over the slots of a pointer block: the first `INVALID` pointer ends it, a pointer out of
    range is logged and skipped. -/
def followPointers (core : Core) (K2 K1minus block : Bytes) : List ℕ → Except Halt (List UInt64)
  | [] => .ok []
  | i :: is => do
    let index ← readWord block i
    if index = INVALID then return []
    else match core.A[index.toNat]? with
      | none => followPointers core K2 K1minus block is
      | some encrypted => do
        let fileidBlock ← decryptBytes tc K2 encrypted encrypted.length BLOCK_SIZE
        let ids ← blockIds tc core K1minus fileidBlock
        let more ← followPointers core K2 K1minus block is
        return ids ++ more

/-- The loop body for a pointer block. -/
def pointerEntry (core : Core) (K2 K1minus d : Bytes) : Except Halt (List UInt64) := do
  let pointerBlock ← decryptBytes tc K2 d d.length BLOCK_SIZE
  followPointers tc core K2 K1minus pointerBlock (List.range B)

/-- The two loops that the three variants share: over `D` with the variant's body, over `Dplus`. -/
def searchLoops (entry : Core → Bytes → Bytes → Bytes → Except Halt (List UInt64)) (core : Core)
    (k : SearchKeys) : Except Halt (List UInt64) := do
  let ids ← labelLoop tc core.D k.K1 (entry core k.K2 k.K1minus)
  let added ← labelLoop tc core.Dplus k.K1plus (idEntry tc core k.K2plus k.K1minus)
  return ids ++ added

def searchServerBasic := searchLoops tc (idEntry tc)

def searchServerPacked := searchLoops tc (packedEntry tc)

def searchServerPointer := searchLoops tc (pointerEntry tc)

def searchServer (core : Core) (k : SearchKeys) : Except Halt (List UInt64) :=
  if core.version = Version.Basic.toInt then searchServerBasic tc core k
  else if core.version = Version.Packed.toInt then searchServerPacked tc core k
  else if core.version = Version.Pointer.toInt then searchServerPointer tc core k
  else .error .exit

/-! ### Add -/

/-- Stack memory under the uninitialised `token_pair p`: byte `j` of what round `i` of the loop
    leaves unwritten in `p.d`. -/
abbrev Stack := ℕ → ℕ → UInt8

/-- `this->Dcount[w]` as a value. -/
def Core.count (core : Core) (w : Bytes) : UInt64 := core.Dcount.getD w 0

/-- `this->Dcount[w]` as an effect: the entry is made if it is missing. -/
def Core.touch (core : Core) (w : Bytes) : Core :=
  { core with Dcount := core.Dcount.insertIfNew w 0 }

/-- `this->Dcount[w]++`. -/
def Core.bump (core : Core) (w : Bytes) : Core :=
  { core with Dcount := core.Dcount.insert w (core.count w + 1) }

/-- The pair for one word; `surplus` is what `encrypt_long` does not write of `p.d`. -/
def addTokenPair (core : Core) (id : UInt64) (surplus w : Bytes) : TokenPair where
  w := w
  l := macLong tc (macKey tc core.kplus 0x31 w) (core.count w)
  d := encryptLong tc (macKey tc core.kplus 0x32 w) id ++ surplus
  r := macLong tc (macKey tc core.kminus 0x31 w) id

/-- The loop over the words, from round `i` on. -/
def addTokenPairs (stack : Stack) (id : UInt64) : Core → ℕ → List Bytes → Core × List TokenPair
  | core, _, [] => (core, [])
  | core, i, w :: words =>
    let surplus := (List.range (ENCRYPTED_BLOCK_SIZE - ENCRYPTED_FILEID_SIZE)).map (stack i)
    let p := addTokenPair tc core id surplus w
    let (core, L) := addTokenPairs stack id (core.touch w) (i + 1) words
    (core, p :: L)

def addClient (core : Core) (stack : Stack) (id : UInt64) (words : List Bytes) :
    Core × List AddPair × List Bytes :=
  let (core, L) := addTokenPairs tc stack id core 0 words
  let L := sortTokenPairs L
  (core, L.map fun p => ⟨p.l, p.d, p.r⟩, L.map (·.w))

/-- One round of `AddServer`: the new state and the flags pushed. -/
def addServerPair (core : Core) (p : AddPair) : Core × List UInt8 :=
  if core.Srev.contains p.RevID then
    ({ core with Srev := core.Srev.erase p.RevID }, [1])
  else if core.Dplus.contains p.Token then
    (core, [])  -- warning: token already in Dplus
  else
    ({ core with Dplus := core.Dplus.insert p.Token p.FileID }, [0])

def addServer : Core → List AddPair → Core × List UInt8
  | core, [] => (core, [])
  | core, p :: L =>
    let (core, flags) := addServerPair core p
    let (core, r) := addServer core L
    (core, flags ++ r)

/-- The second half of the client's add: count every flag 0 for the word at its position. -/
def addClient2 : Core → List UInt8 → List Bytes → Except Halt Core
  | core, [], _ => .ok core
  | core, flag :: r, W =>
    if flag = 0 then
      match W with
      | [] => .error .throw  -- `W_in_order_of_Lrev.at(i)`
      | w :: W => addClient2 (core.bump w) r W
    else addClient2 core r W.tail

/-! ### Delete -/

def deleteClient (core : Core) (id : UInt64) (words : List Bytes) : List Bytes :=
  (words.map fun w => macLong tc (macKey tc core.kminus 0x31 w) id).insertionSort
    fun a b => (compare a b).isLE

def deleteServer (core : Core) (L : List Bytes) : Core :=
  { core with Srev := L.foldl (fun Srev revid => Srev.insert revid) core.Srev }

theorem mem_foldl_insert : ∀ (L : List Bytes) (Srev : Revlist) (r : Bytes),
    r ∈ L.foldl (fun Srev revid => Srev.insert revid) Srev ↔ r ∈ Srev ∨ r ∈ L
  | [], _, _ => by simp
  | revid :: L, Srev, r => by
    rw [List.foldl_cons, mem_foldl_insert L, ExtTreeSet.mem_insert,
      LawfulEqCmp.compare_eq_iff_eq, List.mem_cons]
    tauto

theorem addServerPair_revoked {core : Core} {q : AddPair} (h : q.RevID ∈ core.Srev) :
    addServerPair core q = ({ core with Srev := core.Srev.erase q.RevID }, [1]) :=
  if_pos (ExtTreeSet.contains_iff_mem.mpr h)

theorem addServerPair_taken {core : Core} {q : AddPair} (hrev : q.RevID ∉ core.Srev)
    (h : q.Token ∈ core.Dplus) : addServerPair core q = (core, []) := by
  rw [addServerPair, if_neg (mt ExtTreeSet.contains_iff_mem.mp hrev),
    if_pos (ExtTreeMap.contains_iff_mem.mpr h)]

theorem addServerPair_stored {core : Core} {q : AddPair} (hrev : q.RevID ∉ core.Srev)
    (h : q.Token ∉ core.Dplus) :
    addServerPair core q = ({ core with Dplus := core.Dplus.insert q.Token q.FileID }, [0]) := by
  rw [addServerPair, if_neg (mt ExtTreeSet.contains_iff_mem.mp hrev),
    if_neg (mt ExtTreeMap.contains_iff_mem.mp h)]

/-- The three branches of a round of `AddServer`. -/
theorem addServerPair_cases (core : Core) (q : AddPair) :
    (q.RevID ∈ core.Srev ∧
      addServerPair core q = ({ core with Srev := core.Srev.erase q.RevID }, [1])) ∨
    (q.RevID ∉ core.Srev ∧ q.Token ∈ core.Dplus ∧ addServerPair core q = (core, [])) ∨
    (q.RevID ∉ core.Srev ∧ q.Token ∉ core.Dplus ∧
      addServerPair core q = ({ core with Dplus := core.Dplus.insert q.Token q.FileID }, [0])) := by
  by_cases hrev : q.RevID ∈ core.Srev
  · exact Or.inl ⟨hrev, addServerPair_revoked hrev⟩
  by_cases htoken : q.Token ∈ core.Dplus
  · exact Or.inr (Or.inl ⟨hrev, htoken, addServerPair_taken hrev htoken⟩)
  · exact Or.inr (Or.inr ⟨hrev, htoken, addServerPair_stored hrev htoken⟩)

theorem mem_srev_addServerPair (core : Core) (q : AddPair) (r : Bytes) :
    r ∈ (addServerPair core q).1.Srev ↔ r ∈ core.Srev ∧ q.RevID ≠ r := by
  rcases addServerPair_cases core q with ⟨-, h⟩ | ⟨hrev, -, h⟩ | ⟨hrev, -, h⟩
  · rw [h, ExtTreeSet.mem_erase, Ne, LawfulEqCmp.compare_eq_iff_eq]
    exact and_comm
  all_goals
    rw [h]
    refine ⟨fun hr => ⟨hr, ?_⟩, And.left⟩
    rintro rfl
    exact hrev hr

/-- An Add takes its own revocation ids off the list. -/
theorem mem_srev_addServer (L : List AddPair) (r : Bytes) : ∀ core : Core,
    r ∈ (addServer core L).1.Srev ↔ r ∈ core.Srev ∧ ∀ q ∈ L, q.RevID ≠ r := by
  induction L with
  | nil => intro core; simp [addServer]
  | cons q L ih =>
    intro core
    rw [addServer]
    simp only [ih, mem_srev_addServerPair, List.forall_mem_cons, and_assoc]

end DSSE
