import DSSE.Server
import DSSE.Schemes.Runs

/-! The calls of `decrypt_bytes` that a search makes, and the bounds of the buffers in them. Handlers
    store ciphertexts of any length; a search reads them with the lengths of its layout. -/

namespace DSSE
open Schemes Std

/-- A call of `decrypt_bytes`: the bytes that the stored ciphertext has, the length passed, and the size
    of the buffer that the result goes to. -/
structure DecryptCall where
  stored : ℕ
  ctextlen : ℕ
  outlen : ℕ
  deriving DecidableEq

/-- `ctextlen - 16` does not wrap, the call reads what is stored and writes inside its buffer. -/
def DecryptCall.InBounds (call : DecryptCall) : Prop :=
  16 ≤ call.ctextlen ∧ call.ctextlen ≤ call.stored ∧ call.ctextlen - 16 ≤ call.outlen

instance (call : DecryptCall) : Decidable call.InBounds :=
  inferInstanceAs (Decidable (16 ≤ call.ctextlen ∧ call.ctextlen ≤ call.stored ∧
    call.ctextlen - 16 ≤ call.outlen))

section
variable (tc : Tomcrypt)

/-- The entries that a label loop finds. -/
def labelHits (dict : Dmap) (K : Bytes) : List Bytes :=
  (probed (fun c => dict[macLong tc K (UInt64.ofNat c)]?) (2 ^ 64) 0).filterMap fun c =>
    dict[macLong tc K (UInt64.ofNat c)]?

/-- `decrypt_long`. -/
def idDecrypts (d : Bytes) : List DecryptCall := [⟨d.length, ENCRYPTED_FILEID_SIZE, 8⟩]

def packedDecrypts (d : Bytes) : List DecryptCall := [⟨d.length, d.length, BLOCK_SIZE⟩]

/-- A block buffer after the decryption: what was not written is what the stack held. -/
def blockBuffer (K2 d : Bytes) (junk : ℕ → UInt8) : Bytes :=
  let written := match decryptBytes tc K2 d d.length BLOCK_SIZE with
    | .ok block => block
    | .error _ => []
  written ++ ((List.range BLOCK_SIZE).drop written.length).map junk

/-- The file id blocks that the slots of a pointer block lead to. -/
def followDecrypts (core : Core) (block : Bytes) : List ℕ → List DecryptCall
  | [] => []
  | i :: is =>
    let index := getu64 (block.drop (i * 8))
    if index = INVALID then []
    else match core.A[index.toNat]? with
      | none => followDecrypts core block is
      | some encrypted =>
        ⟨encrypted.length, encrypted.length, BLOCK_SIZE⟩ :: followDecrypts core block is

def pointerDecrypts (core : Core) (K2 d : Bytes) (junk : ℕ → UInt8) : List DecryptCall :=
  ⟨d.length, d.length, BLOCK_SIZE⟩ :: followDecrypts core (blockBuffer tc K2 d junk) (List.range B)

/-- The calls of SearchServer. `stack` is what the buffers of the rounds held before. -/
def searchDecrypts (stack : Stack) (core : Core) (k : SearchKeys) : List DecryptCall :=
  let hits := labelHits tc core.D k.K1
  let added := (labelHits tc core.Dplus k.K1plus).flatMap idDecrypts
  if core.version = Version.Basic.toInt then hits.flatMap idDecrypts ++ added
  else if core.version = Version.Packed.toInt then hits.flatMap packedDecrypts ++ added
  else if core.version = Version.Pointer.toInt then
    (hits.zipIdx.flatMap fun (d, c) => pointerDecrypts tc core k.K2 d (stack c)) ++ added
  else []

/-- The calls of the handler of a request. -/
def Msg.Request.decrypts (stack : Stack) (core : Core) (req : Msg.Request) : List DecryptCall :=
  match req.msg with
  | some (.search m) =>
    match searchKeys m with
    | some k => searchDecrypts tc stack core k
    | none => []
  | _ => []

end

variable {tc : Tomcrypt}

/-! ### The log and the search -/

/-- `decryptBytes` gives a result for such a call: it may read the NUL behind the string. -/
def DecryptCall.Defined (call : DecryptCall) : Prop :=
  16 ≤ call.ctextlen ∧ call.ctextlen ≤ call.stored + 1 ∧ call.ctextlen - 16 ≤ call.outlen

theorem decryptBytes_defined {key ctext out : Bytes} {ctextlen outlen : ℕ}
    (h : decryptBytes tc key ctext ctextlen outlen = .ok out) :
    (⟨ctext.length, ctextlen, outlen⟩ : DecryptCall).Defined := by
  rw [decryptBytes] at h
  split at h
  · cases h
  · rename_i hnot
    simp only [List.length_append, List.length_singleton] at hnot
    have hdefined : 16 ≤ ctextlen ∧ ctextlen ≤ ctext.length + 1 ∧ ctextlen - 16 ≤ outlen := by omega
    exact hdefined

theorem getu64_append {block : Bytes} (junk : Bytes) (h : 8 ≤ block.length) :
    getu64 (block ++ junk) = getu64 block := by
  have hlane : ∀ i < 8, (block ++ junk).getD i 0 = block.getD i 0 := fun i hi =>
    List.getD_append _ _ _ _ (by omega)
  simp only [getu64, hlane 0 (by decide), hlane 1 (by decide), hlane 2 (by decide),
    hlane 3 (by decide), hlane 4 (by decide), hlane 5 (by decide), hlane 6 (by decide),
    hlane 7 (by decide)]

theorem idEntry_defined {core : Core} {K2 K1minus d : Bytes} {ids : List UInt64}
    (h : idEntry tc core K2 K1minus d = .ok ids) : ∀ call ∈ idDecrypts d, call.Defined := by
  obtain ⟨id, hid, -⟩ := exists_of_bind_ok h
  obtain ⟨out, hout, -⟩ := exists_of_map_ok hid
  intro call hcall
  rw [idDecrypts, List.mem_singleton] at hcall
  rw [hcall]
  exact decryptBytes_defined hout

/-- A slot that the loop reads was written, so what is behind the block does not matter. -/
theorem followPointers_defined {core : Core} {K2 K1minus block : Bytes} (junk : Bytes) :
    ∀ (is : List ℕ) {ids : List UInt64}, followPointers tc core K2 K1minus block is = .ok ids →
      ∀ call ∈ followDecrypts core (block ++ junk) is, call.Defined
  | [], _, _, _, hcall => by cases hcall
  | i :: is, ids, h, call, hcall => by
    rw [followPointers] at h
    obtain ⟨index, hindex, h⟩ := exists_of_bind_ok h
    rw [readWord] at hindex
    split at hindex
    · rename_i hlen
      have hsame : getu64 ((block ++ junk).drop (i * 8)) = index := by
        rw [List.drop_append_of_le_length (by omega), getu64_append _ (by rw [List.length_drop]; omega)]
        exact Except.ok.inj hindex
      rw [followDecrypts] at hcall
      simp only [hsame] at hcall
      split at h
      · rename_i hinvalid
        rw [if_pos hinvalid] at hcall
        cases hcall
      · rename_i hvalid
        rw [if_neg hvalid] at hcall
        cases hget : core.A[index.toNat]? with
        | none =>
          rw [hget] at h hcall
          exact followPointers_defined junk is h call hcall
        | some encrypted =>
          rw [hget] at h hcall
          obtain ⟨fileidBlock, hblock, h⟩ := exists_of_bind_ok h
          obtain ⟨valid, -, h⟩ := exists_of_bind_ok h
          obtain ⟨more, hmore, -⟩ := exists_of_bind_ok h
          rcases List.mem_cons.mp hcall with rfl | hcall
          · exact decryptBytes_defined hblock
          · exact followPointers_defined junk is hmore call hcall
    · cases hindex

theorem pointerEntry_defined {core : Core} {K2 K1minus d : Bytes} {ids : List UInt64}
    (h : pointerEntry tc core K2 K1minus d = .ok ids) (junk : ℕ → UInt8) :
    ∀ call ∈ pointerDecrypts tc core K2 d junk, call.Defined := by
  obtain ⟨block, hblock, hfollow⟩ := exists_of_bind_ok h
  intro call hcall
  rcases List.mem_cons.mp hcall with rfl | hcall
  · exact decryptBytes_defined hblock
  · rw [blockBuffer, hblock] at hcall
    exact followPointers_defined _ _ hfollow call hcall

/-- A label loop that came to its end went through its body with every entry that it found. -/
theorem labelLoop_bodies {dict : Dmap} {K : Bytes} {body : Bytes → Except Halt (List UInt64)}
    {ids : List UInt64} (h : labelLoop tc dict K body = .ok ids) :
    ∀ d ∈ labelHits tc dict K, ∃ out, body d = .ok out := by
  intro d hd
  obtain ⟨c, hc, hget⟩ := List.mem_filterMap.mp hd
  exact probe_bodies h c hc d hget

/-- A search that returns made the calls of the log, and each of them was defined. -/
theorem searchServer_defined {core : Core} {k : SearchKeys} {ids : List UInt64}
    (h : searchServer tc core k = .ok ids) (stack : Stack) :
    ∀ call ∈ searchDecrypts tc stack core k, call.Defined := by
  have hloops : ∀ {entry : Core → Bytes → Bytes → Bytes → Except Halt (List UInt64)},
      searchLoops tc entry core k = .ok ids →
      (∀ d ∈ labelHits tc core.D k.K1, ∃ out, entry core k.K2 k.K1minus d = .ok out) ∧
        ∀ call ∈ (labelHits tc core.Dplus k.K1plus).flatMap idDecrypts, call.Defined := by
    intro entry h
    obtain ⟨found, hfound, h⟩ := exists_of_bind_ok h
    obtain ⟨added, hadded, -⟩ := exists_of_bind_ok h
    refine ⟨labelLoop_bodies hfound, fun call hcall => ?_⟩
    obtain ⟨d, hd, hcall⟩ := List.mem_flatMap.mp hcall
    obtain ⟨out, hout⟩ := labelLoop_bodies hadded d hd
    exact idEntry_defined hout call hcall
  intro call hcall
  unfold searchServer at h
  unfold searchDecrypts at hcall
  simp only at hcall
  split_ifs at h hcall with hbasic hpacked hpointer
  · obtain ⟨hentries, hadded⟩ := hloops h
    rcases List.mem_append.mp hcall with hcall | hcall
    · obtain ⟨d, hd, hcall⟩ := List.mem_flatMap.mp hcall
      obtain ⟨out, hout⟩ := hentries d hd
      exact idEntry_defined hout call hcall
    · exact hadded call hcall
  · obtain ⟨hentries, hadded⟩ := hloops h
    rcases List.mem_append.mp hcall with hcall | hcall
    · obtain ⟨d, hd, hcall⟩ := List.mem_flatMap.mp hcall
      obtain ⟨out, hout⟩ := hentries d hd
      obtain ⟨retid, hretid, -⟩ := exists_of_bind_ok hout
      rw [packedDecrypts, List.mem_singleton] at hcall
      rw [hcall]
      exact decryptBytes_defined hretid
    · exact hadded call hcall
  · obtain ⟨hentries, hadded⟩ := hloops h
    rcases List.mem_append.mp hcall with hcall | hcall
    · obtain ⟨⟨d, c⟩, hd, hcall⟩ := List.mem_flatMap.mp hcall
      obtain ⟨out, hout⟩ := hentries d (List.fst_mem_of_mem_zipIdx hd)
      exact pointerEntry_defined hout _ call hcall
    · exact hadded call hcall

/-! ### Stored lengths -/

/-- Lengths of an encrypted id, and of a block that fits its buffer. -/
def IdSized (d : Bytes) : Prop := ENCRYPTED_FILEID_SIZE ≤ d.length

def BlockSized (d : Bytes) : Prop := 16 ≤ d.length ∧ d.length ≤ ENCRYPTED_BLOCK_SIZE

/-- The ciphertexts of a Setup or an Add have the lengths that the layout reads. -/
def Msg.Request.Sized (req : Msg.Request) : Prop :=
  match req.msg with
  | some (.setup m) =>
    match req.getVersion with
    | .Basic => ∀ p ∈ m.L, IdSized p.FileID
    | .Packed => ∀ p ∈ m.L, BlockSized p.FileID
    | .Pointer => (∀ p ∈ m.L, BlockSized p.FileID) ∧ ∀ block ∈ m.M, BlockSized block
    | .TwoLevelPointer => True
  | some (.add m) => ∀ p ∈ m.L, IdSized p.FileID
  | _ => True

/-- What is stored has the lengths that the layout reads. -/
structure Core.Sized (core : Core) : Prop where
  basic : core.version = Version.Basic.toInt → ∀ l d : Bytes, core.D[l]? = some d → IdSized d
  packed : core.version = Version.Packed.toInt → ∀ l d : Bytes, core.D[l]? = some d → BlockSized d
  pointer : core.version = Version.Pointer.toInt → ∀ l d : Bytes, core.D[l]? = some d → BlockSized d
  blocks : core.version = Version.Pointer.toInt → ∀ block ∈ core.A, BlockSized block
  added : ∀ l d : Bytes, core.Dplus[l]? = some d → IdSized d

theorem Core.sized_new : Core.new.Sized := by
  constructor <;> simp [Core.new]

/-- An entry of the dictionary that Setup makes is one of the request. -/
theorem getElem?_foldl_insert (L : List SetupPair) : ∀ (D : Dmap) (l d : Bytes),
    (L.foldl (fun D p => D.insert p.Token p.FileID) D)[l]? = some d →
    D[l]? = some d ∨ ∃ p ∈ L, p.FileID = d := by
  induction L with
  | nil => intro D l d h; exact Or.inl h
  | cons p L ih =>
    intro D l d h
    rcases ih _ l d h with h | ⟨q, hq, hd⟩
    · rw [ExtTreeMap.getElem?_insert] at h
      split at h
      · exact Or.inr ⟨p, List.mem_cons_self, Option.some.inj h⟩
      · exact Or.inl h
    · exact Or.inr ⟨q, List.mem_cons_of_mem _ hq, hd⟩

theorem Core.Sized.setup {core : Core} {req : Msg.Request} {m : Msg.Setup}
    (hreq : req.msg = some (.setup m)) (h : req.Sized) : (handleSetup core req m).1.Sized := by
  rw [Msg.Request.Sized, hreq] at h
  have hD : ∀ P : Bytes → Prop, (∀ p ∈ m.L, P p.FileID) → ∀ l d : Bytes,
      (handleSetup core req m).1.D[l]? = some d → P d := by
    intro P hP l d hget
    rcases getElem?_foldl_insert _ _ l d hget with hempty | ⟨q, hq, rfl⟩
    · simp at hempty
    · obtain ⟨p, hp, rfl⟩ := List.mem_map.mp hq
      exact hP p hp
  have hversion : ∀ v : Version, (handleSetup core req m).1.version = v.toInt → req.getVersion = v := by
    intro v hv
    have hv' : req.getVersion.toInt = v.toInt := hv
    cases hreqv : req.getVersion <;> cases v <;> rw [hreqv] at hv' <;> first | rfl | cases hv'
  have hempty : ∀ l d : Bytes, (handleSetup core req m).1.Dplus[l]? = some d → IdSized d := by
    intro l d hget
    simp [handleSetup, setupServer] at hget
  constructor
  · intro hv
    rw [hversion .Basic hv] at h
    exact hD _ h
  · intro hv
    rw [hversion .Packed hv] at h
    exact hD _ h
  · intro hv
    rw [hversion .Pointer hv] at h
    exact hD _ h.1
  · intro hv
    rw [hversion .Pointer hv] at h
    exact h.2
  · exact hempty

theorem Core.Sized.addServer (L : List AddPair) : ∀ {core : Core}, core.Sized →
    (∀ q ∈ L, IdSized q.FileID) → (DSSE.addServer core L).1.Sized := by
  induction L with
  | nil => intro core h _; exact h
  | cons q L ih =>
    intro core h hL
    rw [DSSE.addServer]
    refine ih ?_ fun q' hq' => hL q' (List.mem_cons_of_mem _ hq')
    rcases addServerPair_cases core q with ⟨-, hq⟩ | ⟨-, -, hq⟩ | ⟨-, -, hq⟩ <;> rw [hq]
    · exact { h with }
    · exact h
    · refine { h with added := ?_ }
      rintro l d hget
      rw [ExtTreeMap.getElem?_insert] at hget
      split at hget
      · rw [← Option.some.inj hget]
        exact hL q List.mem_cons_self
      · exact h.added l d hget

/-- A request of the right lengths keeps them. -/
theorem Core.Sized.handled {core : Core} (h : core.Sized) {req : Msg.Request} (hreq : req.Sized) :
    (core.handled tc req).Sized := by
  unfold Core.handled handleMessage
  cases hm : req.msg with
  | none => exact h
  | some msg =>
    cases msg with
    | setup m => exact .setup hm hreq
    | search m =>
      simp only
      cases handleSearch tc core m <;> exact h
    | add m =>
      rw [Msg.Request.Sized, hm] at hreq
      refine Core.Sized.addServer _ h fun q hq => ?_
      obtain ⟨p, hp, rfl⟩ := List.mem_map.mp hq
      exact hreq p hp
    | delete m => exact ⟨h.basic, h.packed, h.pointer, h.blocks, h.added⟩

/-! ### Calls -/

theorem IdSized.inBounds {d : Bytes} (h : IdSized d) : ∀ call ∈ idDecrypts d, call.InBounds := by
  intro call hcall
  rw [idDecrypts, List.mem_singleton] at hcall
  rw [hcall]
  have hwraps : 16 ≤ ENCRYPTED_FILEID_SIZE := by decide
  exact ⟨hwraps, h, le_rfl⟩

theorem BlockSized.inBounds {d : Bytes} (h : BlockSized d) :
    (⟨d.length, d.length, BLOCK_SIZE⟩ : DecryptCall).InBounds := by
  refine ⟨h.1, le_rfl, ?_⟩
  have hle : d.length ≤ BLOCK_SIZE + 16 := h.2
  show d.length - 16 ≤ BLOCK_SIZE
  omega

theorem mem_labelHits {dict : Dmap} {K d : Bytes} (h : d ∈ labelHits tc dict K) :
    ∃ l : Bytes, dict[l]? = some d := by
  obtain ⟨c, -, hc⟩ := List.mem_filterMap.mp h
  exact ⟨_, hc⟩

theorem followDecrypts_inBounds {core : Core} (h : ∀ block ∈ core.A, BlockSized block) (block : Bytes)
    (is : List ℕ) : ∀ call ∈ followDecrypts core block is, call.InBounds := by
  induction is with
  | nil => intro call hcall; cases hcall
  | cons i is ih =>
    intro call hcall
    rw [followDecrypts] at hcall
    split at hcall
    · cases hcall
    · split at hcall
      · exact ih call hcall
      · rename_i encrypted hget
        rcases List.mem_cons.mp hcall with rfl | hcall
        · exact (h encrypted (List.mem_of_getElem? hget)).inBounds
        · exact ih call hcall

/-- Whatever the pointers are and the stack holds, a search of such a state stays inside its buffers. -/
theorem Core.Sized.searchDecrypts {core : Core} (h : core.Sized) (stack : Stack) (k : SearchKeys) :
    ∀ call ∈ DSSE.searchDecrypts tc stack core k, call.InBounds := by
  have hadded : ∀ call ∈ (labelHits tc core.Dplus k.K1plus).flatMap idDecrypts, call.InBounds := by
    intro call hcall
    obtain ⟨d, hd, hcall⟩ := List.mem_flatMap.mp hcall
    obtain ⟨l, hl⟩ := mem_labelHits hd
    exact (h.added l d hl).inBounds call hcall
  intro call hcall
  unfold DSSE.searchDecrypts at hcall
  simp only at hcall
  split_ifs at hcall with hbasic hpacked hpointer
  · rcases List.mem_append.mp hcall with hcall | hcall
    · obtain ⟨d, hd, hcall⟩ := List.mem_flatMap.mp hcall
      obtain ⟨l, hl⟩ := mem_labelHits hd
      exact (h.basic hbasic l d hl).inBounds call hcall
    · exact hadded call hcall
  · rcases List.mem_append.mp hcall with hcall | hcall
    · obtain ⟨d, hd, hcall⟩ := List.mem_flatMap.mp hcall
      obtain ⟨l, hl⟩ := mem_labelHits hd
      rw [packedDecrypts, List.mem_singleton] at hcall
      rw [hcall]
      exact (h.packed hpacked l d hl).inBounds
    · exact hadded call hcall
  · rcases List.mem_append.mp hcall with hcall | hcall
    · obtain ⟨⟨d, c⟩, hd, hcall⟩ := List.mem_flatMap.mp hcall
      obtain ⟨l, hl⟩ := mem_labelHits (List.fst_mem_of_mem_zipIdx hd)
      rcases List.mem_cons.mp hcall with rfl | hcall
      · exact (h.pointer hpointer l d hl).inBounds
      · exact followDecrypts_inBounds (h.blocks hpointer) _ _ call hcall
    · exact hadded call hcall
  · cases hcall

/-- In every run of requests whose Setups and Adds carry ciphertexts of the lengths that the layout reads,
    every search decrypts inside its buffers. -/
theorem Core.decrypts_inBounds (tc : Tomcrypt) {reqs : List Msg.Request} (h : ∀ req ∈ reqs, req.Sized)
    (pre : List Msg.Request) (req : Msg.Request) (post : List Msg.Request)
    (hreqs : reqs = pre ++ req :: post) (stack : Stack) :
    ∀ call ∈ req.decrypts tc stack (pre.foldl (Core.handled tc) .new), call.InBounds := by
  have hfold : ∀ (pre : List Msg.Request) (core : Core), core.Sized → (∀ req ∈ pre, req.Sized) →
      (pre.foldl (Core.handled tc) core).Sized := by
    intro pre
    induction pre with
    | nil => intro core hcore _; exact hcore
    | cons r pre ih =>
      intro core hcore hpre
      exact ih _ (hcore.handled (hpre r List.mem_cons_self))
        fun r' hr' => hpre r' (List.mem_cons_of_mem _ hr')
  have hcore := hfold pre .new Core.sized_new fun r hr => h r (by rw [hreqs]; simp [hr])
  intro call hcall
  unfold Msg.Request.decrypts at hcall
  split at hcall
  · split at hcall
    · exact hcore.searchDecrypts stack _ call hcall
    · cases hcall
  · cases hcall

/-- A Setup with one entry under the first label of the key of zeros, and a Search with that key. -/
def sampleEntry (version : Version) (entry : Bytes) : Msg.Request :=
  ⟨some (.setup ⟨[⟨macLong standIn (List.replicate KEYLEN 0) 0, entry⟩], []⟩), some version⟩

def sampleSearch : Msg.Request :=
  let key := List.replicate KEYLEN 0
  ⟨some (.search ⟨key, key, key, key, key⟩), none⟩

theorem Core.decrypts_inBounds_sample :
    let calls := sampleSearch.decrypts standIn (fun _ _ => 0)
      ([sampleEntry .Packed (List.replicate 40 0)].foldl (Core.handled standIn) .new)
    calls = [⟨40, 40, 40⟩] ∧ ∀ call ∈ calls, call.InBounds := by
  have hsized : ∀ req ∈ [sampleEntry .Packed (List.replicate 40 0), sampleSearch], req.Sized := by
    intro req hreq
    simp only [List.mem_cons, List.not_mem_nil, or_false] at hreq
    rcases hreq with rfl | rfl
    · intro p hp
      rw [List.mem_singleton.mp hp]
      exact ⟨by simp, by simp [ENCRYPTED_BLOCK_SIZE, B]⟩
    · trivial
  refine ⟨by decide +kernel, ?_⟩
  exact Core.decrypts_inBounds standIn hsized [sampleEntry .Packed (List.replicate 40 0)] sampleSearch []
    rfl fun _ _ => 0

/-- An entry of three bytes read as an encrypted id, and in the packed layout an empty one, whose length
    wraps, and one of 100 bytes decrypted into a buffer of 40. -/
theorem Core.decrypts_outside :
    let calls := fun version entry => sampleSearch.decrypts standIn (fun _ _ => 0)
      ([sampleEntry version entry].foldl (Core.handled standIn) .new)
    calls .Basic (List.replicate 3 0) = [⟨3, 24, 8⟩] ∧ calls .Packed [] = [⟨0, 0, 40⟩] ∧
      calls .Packed (List.replicate 100 0) = [⟨100, 100, 40⟩] ∧
        ∀ call ∈ [(⟨3, 24, 8⟩ : DecryptCall), ⟨0, 0, 40⟩, ⟨100, 100, 40⟩], ¬ call.InBounds := by
  decide +kernel

end DSSE
