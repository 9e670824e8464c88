import DSSE.Sha256

/-! HMAC of libtomcrypt, over any hash descriptor. The state and the memory that a call gets hold whatever
    was there before. -/

namespace DSSE
open Schemes

/-- `hmac_state`. -/
structure HmacState (S : Type) where
  md : S
  key : Bytes

section
variable {S : Type} (desc : HashDescriptor S)

/-- `hash_memory`: `md` is allocated for it. -/
def hashMemory (md : S) (inp : Bytes) (outlen : ℕ) : Except CryptError Bytes :=
  if outlen < desc.hashsize then .error .bufferOverflow
  else do
    let md ← desc.init md
    let md ← desc.process md inp
    let (out, _) ← desc.done md
    return out

/-- The key that `hmac_init` fills a block with; `heap` is what `hash_memory` allocates. -/
def hmacKey (heap : S) (key : Bytes) : Except CryptError Bytes := do
  let (key, keylen) ←
    if key.length > desc.blocksize then
      (hashMemory desc heap key desc.blocksize).map fun key => (key, desc.hashsize)
    else pure (key, key.length)
  return key ++ List.replicate (desc.blocksize - keylen) 0

def hmacInit (heap md : S) (key : Bytes) : Except CryptError (HmacState S) :=
  if key.length = 0 then .error .invalidKeysize
  else do
    let key ← hmacKey desc heap key
    let buf := key.map (· ^^^ 0x36)
    let md ← desc.init md
    let md ← desc.process md buf
    return { md, key }

def hmacProcess (hmac : HmacState S) (inp : Bytes) : Except CryptError (HmacState S) := do
  let md ← desc.process hmac.md inp
  return { hmac with md }

def hmacDone (hmac : HmacState S) (outlen : ℕ) : Except CryptError Bytes := do
  let (isha, md) ← desc.done hmac.md
  let buf := hmac.key.map (· ^^^ 0x5C)
  let md ← desc.init md
  let md ← desc.process md buf
  let md ← desc.process md isha
  let (buf, _) ← desc.done md
  return buf.take (min desc.hashsize outlen)

end

/-! ### Pieces -/

section
variable {S : Type} {desc : HashDescriptor S} {usable : S → Prop} {took : S → Bytes → Prop} {limit : ℕ}
  {hash : Bytes → Bytes}

theorem hashMemory_streams (h : desc.Streams usable took limit hash) {md : S} (hmd : usable md) {inp : Bytes}
    (hlen : inp.length < limit) {outlen : ℕ} (hout : desc.hashsize ≤ outlen) :
    hashMemory desc md inp outlen = .ok (hash inp) := by
  obtain ⟨md₀, hinit, hnil⟩ := h.init hmd
  obtain ⟨md₁, hprocess, hinp⟩ := h.process hnil
    (show ([] : Bytes).length + inp.length < limit by rwa [List.length_nil, Nat.zero_add])
  obtain ⟨md₂, hdone, -⟩ := h.done hinp
  rw [hashMemory, if_neg (by omega)]
  simp only [hinit, hprocess, hdone, bind, Except.bind, pure, Except.pure, List.nil_append]

/-- What `hmac_init` and `hmac_process` keep: the key is that of a block, and its masked bytes came first. -/
structure HmacState.Took (desc : HashDescriptor S) (took : S → Bytes → Prop) (hash : Bytes → Bytes)
    (key : Bytes) (hmac : HmacState S) (msg : Bytes) : Prop where
  blockKey : hmac.key = Hmac.blockKey hash desc.blocksize key
  md : took hmac.md (hmac.key.map (· ^^^ 0x36) ++ msg)

theorem hmacKey_streams (h : desc.Streams usable took limit hash) (hsize : desc.hashsize ≤ desc.blocksize)
    {heap : S} (hheap : usable heap) {key : Bytes} (hlen : key.length < limit) :
    hmacKey desc heap key = .ok (Hmac.blockKey hash desc.blocksize key) := by
  rw [hmacKey, Hmac.blockKey]
  split_ifs with hlong
  · rw [hashMemory_streams h hheap hlen hsize]
    simp only [bind, Except.bind, Except.map, pure, Except.pure, h.length_hash]
  · rfl

theorem hmacInit_took (h : desc.Streams usable took limit hash) (hsize : desc.hashsize ≤ desc.blocksize)
    (hblock : desc.blocksize < limit) {heap md : S} (hheap : usable heap) (hmd : usable md) {key : Bytes}
    (hkey : key ≠ []) (hlen : key.length < limit) :
    ∃ hmac, hmacInit desc heap md key = .ok hmac ∧ hmac.Took desc took hash key [] := by
  have hmask : ((Hmac.blockKey hash desc.blocksize key).map (· ^^^ (0x36 : UInt8))).length =
      desc.blocksize := by
    rw [List.length_map, Hmac.length_blockKey _ _ ((h.length_hash key).trans_le hsize)]
  obtain ⟨md₀, hinit, hnil⟩ := h.init hmd
  obtain ⟨md₁, hprocess, hinp⟩ :=
    h.process hnil (show ([] : Bytes).length +
      ((Hmac.blockKey hash desc.blocksize key).map (· ^^^ 0x36)).length < limit by
        rwa [List.length_nil, Nat.zero_add, hmask])
  refine ⟨⟨md₁, Hmac.blockKey hash desc.blocksize key⟩, ?_, rfl, by rwa [List.append_nil]⟩
  rw [hmacInit, if_neg (by rwa [List.length_eq_zero_iff]), hmacKey_streams h hsize hheap hlen]
  simp only [hinit, hprocess, bind, Except.bind, pure, Except.pure]

theorem hmacProcess_took (h : desc.Streams usable took limit hash) {hmac : HmacState S} {key msg inp : Bytes}
    (htook : hmac.Took desc took hash key msg)
    (hlen : hmac.key.length + msg.length + inp.length < limit) :
    ∃ hmac', hmacProcess desc hmac inp = .ok hmac' ∧ hmac'.key = hmac.key ∧
      hmac'.Took desc took hash key (msg ++ inp) := by
  obtain ⟨md, hprocess, hinp⟩ := h.process htook.md
    (show (hmac.key.map (· ^^^ 0x36) ++ msg).length + inp.length < limit by
      rwa [List.length_append, List.length_map])
  refine ⟨{ hmac with md }, ?_, rfl, htook.blockKey, by rwa [← List.append_assoc]⟩
  simp only [hmacProcess, hprocess, bind, Except.bind, pure, Except.pure]

theorem hmacProcess_foldlM (h : desc.Streams usable took limit hash) {hmac : HmacState S} {key msg : Bytes}
    (htook : hmac.Took desc took hash key msg) (pieces : List Bytes)
    (hlen : hmac.key.length + msg.length + pieces.flatten.length < limit) :
    ∃ hmac', pieces.foldlM (hmacProcess desc) hmac = .ok hmac' ∧
      hmac'.Took desc took hash key (msg ++ pieces.flatten) := by
  induction pieces generalizing hmac msg with
  | nil => exact ⟨hmac, rfl, by rwa [List.flatten_nil, List.append_nil]⟩
  | cons piece pieces ih =>
    rw [List.flatten_cons, List.length_append] at hlen
    obtain ⟨hmac', hrun, hkey, hpiece⟩ := hmacProcess_took h htook
      (show hmac.key.length + msg.length + piece.length < limit by omega)
    obtain ⟨hmac'', hruns, hpieces⟩ := ih hpiece (by rw [List.length_append, hkey]; omega)
    refine ⟨hmac'', ?_, by rwa [List.flatten_cons, ← List.append_assoc]⟩
    rw [List.foldlM_cons, hrun]
    exact hruns

theorem hmacDone_took (h : desc.Streams usable took limit hash) (hsize : desc.hashsize ≤ desc.blocksize)
    (hblock : desc.blocksize + desc.hashsize < limit) {hmac : HmacState S} {key msg : Bytes}
    (htook : hmac.Took desc took hash key msg) (outlen : ℕ) :
    hmacDone desc hmac outlen =
      .ok ((Hmac.hmac hash desc.blocksize key msg).take (min desc.hashsize outlen)) := by
  have hkeylen : hmac.key.length = desc.blocksize := by
    rw [htook.blockKey, Hmac.length_blockKey _ _ ((h.length_hash key).trans_le hsize)]
  obtain ⟨md₀, hinner, hmd₀⟩ := h.done htook.md
  obtain ⟨md₁, hinit, hnil⟩ := h.init hmd₀
  obtain ⟨md₂, hmask, hkey⟩ := h.process hnil
    (show ([] : Bytes).length + (hmac.key.map (· ^^^ 0x5C)).length < limit by
      rw [List.length_nil, List.length_map, hkeylen]
      omega)
  rw [List.nil_append] at hkey
  obtain ⟨md₃, hdigest, hall⟩ := h.process hkey
    (show (hmac.key.map (· ^^^ 0x5C)).length + (hash (hmac.key.map (· ^^^ 0x36) ++ msg)).length < limit by
      rw [List.length_map, hkeylen, h.length_hash]
      omega)
  obtain ⟨md₄, houter, -⟩ := h.done hall
  rw [hmacDone, Hmac.hmac, ← htook.blockKey]
  simp only [hinner, hinit, hmask, hdigest, houter, bind, Except.bind, pure, Except.pure]

end

/-! ### HMAC-SHA256 -/

/-- None of the calls fails, and the last one gives the code. -/
theorem hmac_sha256_calls {heap md : Sha256State} (hheap : heap.buf.length = 64) (hmd : md.buf.length = 64)
    {key : Bytes} (hkey : key ≠ []) (hkeylen : key.length < 2 ^ 60) {pieces : List Bytes}
    (hlen : 64 + pieces.flatten.length < 2 ^ 60) :
    ∃ hmac hmac', hmacInit sha256Desc heap md key = .ok hmac ∧
      pieces.foldlM (hmacProcess sha256Desc) hmac = .ok hmac' ∧
      ∀ outlen, hmacDone sha256Desc hmac' outlen =
        .ok ((Hmac.hmac Sha256.hash 64 key pieces.flatten).take (min 32 outlen)) := by
  obtain ⟨hmac, hinit, htook⟩ := hmacInit_took sha256Desc_streams (by decide) (by decide) hheap hmd hkey hkeylen
  have hblock : hmac.key.length = 64 := by
    rw [htook.blockKey, Hmac.length_blockKey _ _ (by rw [Sha256.length_hash]; decide)]
    rfl
  obtain ⟨hmac', hrun, htook'⟩ := hmacProcess_foldlM sha256Desc_streams htook pieces
    (by rw [hblock, List.length_nil]; omega)
  exact ⟨hmac, hmac', hinit, hrun,
    fun outlen => hmacDone_took sha256Desc_streams (by decide) (by decide) htook' outlen⟩

/-- The code is that of the message as a whole, whatever pieces it came in and however much of the code
    fits. -/
theorem hmac_sha256_pieces (heap md : Sha256State) (hheap : heap.buf.length = 64) (hmd : md.buf.length = 64)
    (key : Bytes) (hkey : key ≠ []) (hkeylen : key.length < 2 ^ 60) (pieces : List Bytes)
    (hlen : 64 + pieces.flatten.length < 2 ^ 60) (outlen : ℕ) :
    (do
      let hmac ← hmacInit sha256Desc heap md key
      let hmac ← pieces.foldlM (hmacProcess sha256Desc) hmac
      hmacDone sha256Desc hmac outlen) =
      .ok ((Hmac.hmac Sha256.hash 64 key pieces.flatten).take (min 32 outlen)) := by
  obtain ⟨hmac, hmac', hinit, hrun, hdone⟩ := hmac_sha256_calls hheap hmd hkey hkeylen hlen
  simp only [hinit, hrun, hdone, bind, Except.bind]

/-- A key longer than a block and a message in two pieces. -/
theorem hmac_sha256_pieces_sample :
    (do
      let hmac ← hmacInit sha256Desc ⟨3, Sha256.iv, 9, List.replicate 64 5⟩ ⟨0, Sha256.iv, 0, List.replicate 64 0⟩
        (List.replicate 70 7)
      let hmac ← [[1], [2, 3]].foldlM (hmacProcess sha256Desc) hmac
      hmacDone sha256Desc hmac 32) =
      .ok ((Hmac.hmac Sha256.hash 64 (List.replicate 70 7) [1, 2, 3]).take 32) :=
  hmac_sha256_pieces ⟨3, Sha256.iv, 9, List.replicate 64 5⟩ ⟨0, Sha256.iv, 0, List.replicate 64 0⟩ rfl rfl
    (List.replicate 70 7) (by decide) (by decide) [[1], [2, 3]] (by decide) 32

end DSSE
