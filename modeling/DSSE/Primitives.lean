import DSSE.Hmac
import DSSE.AesAgrees
import DSSE.Schemes.Runs

/-! The helpers at the top of `DSSE.cpp` with the calls to libtomcrypt that they make. Over the code of the
    library they compute what they are taken for everywhere else, with HMAC-SHA256 and AES-256 as primitives;
    none of the calls fails. -/

namespace DSSE
open Schemes

/-- The primitives that the library implements. -/
def libtomcrypt : Tomcrypt where
  hmac key msg := Hmac.hmac Sha256.hash 64 key msg
  aes key block := Rijndael.cipher (key.length / 4) key block
  hmac_length _ _ := Sha256.length_hash _
  aes_length _ _ := rfl

def cryptOrDie {α : Type} : Except CryptError α → Except Halt α
  | .ok a => .ok a
  | .error _ => .error .exit

namespace Linked

/-! ### The calls -/

/-- The calls that `mac_key`, `mac_counter` and `mac_long` make: the key is an array of `KEYLEN` bytes, the
    pieces are handed over one by one. -/
def mac (heap stack : Sha256State) (key : Bytes) (pieces : List Bytes) : Except Halt Bytes := do
  let hmac ← cryptOrDie (hmacInit sha256Desc heap stack (key.take KEYLEN))
  let hmac ← pieces.foldlM (fun hmac piece => cryptOrDie (hmacProcess sha256Desc hmac piece)) hmac
  cryptOrDie (hmacDone sha256Desc hmac DIGESTLEN)

def macKey (heap stack : Sha256State) (key : Bytes) (keynum : UInt8) (token : Bytes) : Except Halt Bytes :=
  mac heap stack key [[keynum], cstr token]

def macCounter (heap stack : Sha256State) (key message : Bytes) : Except Halt Bytes :=
  mac heap stack key [message]

def macLong (heap stack : Sha256State) (key : Bytes) (counter : UInt64) : Except Halt Bytes :=
  mac heap stack key [putu64 counter]

/-! The builds of the cipher and of the mode, and what the buffer for the result holds before. -/

variable (small fast : Bool) (out : ℕ → UInt8)

def encryptBytes (key msg : Bytes) : Except Halt Bytes := do
  let ctr ← cryptOrDie (ctrStart (aesDesc small) IV (key.take KEYLEN) 0 CTR_COUNTER_LITTLE_ENDIAN)
  let (ct, _) ← cryptOrDie (ctrEncrypt (aesDesc small) fast out msg ctr)
  return IV ++ ct

/-- The first bytes of the string are the initial vector; for what is undefined see `DSSE.decryptBytes`. -/
def decryptBytes (key ctext : Bytes) (ctextlen outlen : ℕ) : Except Halt Bytes :=
  if ctextlen < 16 ∨ (ctext ++ [0]).length < ctextlen ∨ outlen < ctextlen - 16 then
    .error .undefined
  else do
    let ctr ← cryptOrDie (ctrStart (aesDesc small) ((ctext ++ [0]).take 16) (key.take KEYLEN) 0
      CTR_COUNTER_LITTLE_ENDIAN)
    let (pt, _) ← cryptOrDie (ctrDecrypt (aesDesc small) fast out (((ctext ++ [0]).take ctextlen).drop 16) ctr)
    return pt

end Linked

/-! ### HMAC -/

theorem cryptOrDie_ok {α : Type} {e : Except CryptError α} {a : α} (h : e = .ok a) : cryptOrDie e = .ok a := by
  rw [h, cryptOrDie]

theorem cryptOrDie_foldlM {S : Type} {desc : HashDescriptor S} {hmac hmac' : HmacState S} {pieces : List Bytes}
    (h : pieces.foldlM (hmacProcess desc) hmac = .ok hmac') :
    pieces.foldlM (fun hmac piece => cryptOrDie (hmacProcess desc hmac piece)) hmac = .ok hmac' := by
  induction pieces generalizing hmac with
  | nil => exact cryptOrDie_ok h
  | cons piece pieces ih =>
    rw [List.foldlM_cons] at h ⊢
    obtain ⟨hmac₁, hpiece, hrest⟩ := exists_of_bind_ok h
    rw [cryptOrDie_ok hpiece]
    exact ih hrest

theorem Linked.mac_eq {heap stack : Sha256State} (hheap : heap.buf.length = 64) (hstack : stack.buf.length = 64)
    {key : Bytes} (hkey : key.length = KEYLEN) {pieces : List Bytes}
    (hlen : 64 + pieces.flatten.length < 2 ^ 60) :
    Linked.mac heap stack key pieces = .ok (libtomcrypt.hmac key pieces.flatten) := by
  have hne : key ≠ [] := by
    rintro rfl
    exact absurd hkey (by decide)
  have hshort : key.length < 2 ^ 60 := by
    rw [hkey]
    decide
  obtain ⟨hmac, hmac', hinit, hrun, hdone⟩ := hmac_sha256_calls hheap hstack hne hshort hlen
  have hcode : (Hmac.hmac Sha256.hash 64 key pieces.flatten).length ≤ 32 := (Sha256.length_hash _).le
  have hout := hdone DIGESTLEN
  rw [show min 32 DIGESTLEN = 32 from rfl, List.take_of_length_le hcode] at hout
  rw [Linked.mac, List.take_of_length_le hkey.le, cryptOrDie_ok hinit]
  simp only [cryptOrDie_foldlM hrun, cryptOrDie_ok hout, bind, Except.bind]
  rfl

/-- Over the code of the library the helpers that derive keys and labels compute HMAC-SHA256 of the messages
    that they are taken for, whatever is in the memory that they are given. -/
theorem Linked.macs_agree (heap stack : Sha256State) (hheap : heap.buf.length = 64)
    (hstack : stack.buf.length = 64) (key : Bytes) (hkey : key.length = KEYLEN) :
    (∀ keynum token, (cstr token).length + 65 < 2 ^ 60 →
      Linked.macKey heap stack key keynum token = .ok (DSSE.macKey libtomcrypt key keynum token)) ∧
    (∀ message : Bytes, message.length + 64 < 2 ^ 60 →
      Linked.macCounter heap stack key message = .ok (DSSE.macCounter libtomcrypt key message)) ∧
    ∀ counter, Linked.macLong heap stack key counter = .ok (DSSE.macLong libtomcrypt key counter) := by
  refine ⟨fun keynum token hlen => ?_, fun message hlen => ?_, fun counter => ?_⟩
  · rw [Linked.macKey, Linked.mac_eq hheap hstack hkey (by simp; omega), List.flatten_cons,
      List.flatten_singleton]
    rfl
  · rw [Linked.macCounter, Linked.mac_eq hheap hstack hkey (by simp; omega), List.flatten_singleton]
    rfl
  · rw [Linked.macLong, Linked.mac_eq hheap hstack hkey (by simp), List.flatten_singleton]
    rfl

theorem Linked.macs_agree_sample :
    (∀ keynum token, (cstr token).length + 65 < 2 ^ 60 →
      Linked.macKey ⟨0, Sha256.iv, 0, List.replicate 64 8⟩ ⟨1, Sha256.iv, 2, List.replicate 64 9⟩
        (List.replicate 32 3) keynum token = .ok (DSSE.macKey libtomcrypt (List.replicate 32 3) keynum token)) ∧
    (∀ message : Bytes, message.length + 64 < 2 ^ 60 →
      Linked.macCounter ⟨0, Sha256.iv, 0, List.replicate 64 8⟩ ⟨1, Sha256.iv, 2, List.replicate 64 9⟩
        (List.replicate 32 3) message = .ok (DSSE.macCounter libtomcrypt (List.replicate 32 3) message)) ∧
    ∀ counter, Linked.macLong ⟨0, Sha256.iv, 0, List.replicate 64 8⟩ ⟨1, Sha256.iv, 2, List.replicate 64 9⟩
      (List.replicate 32 3) counter = .ok (DSSE.macLong libtomcrypt (List.replicate 32 3) counter) :=
  Linked.macs_agree ⟨0, Sha256.iv, 0, List.replicate 64 8⟩ ⟨1, Sha256.iv, 2, List.replicate 64 9⟩ rfl rfl
    (List.replicate 32 3) rfl

/-! ### Counter mode -/

theorem aesDesc_enciphers (small : Bool) {key : Bytes} (hkey : key.length = KEYLEN) :
    ∃ skey, (aesDesc small).setup key 0 = .ok skey ∧
      (aesDesc small).Enciphers skey (libtomcrypt.aes key) := by
  obtain ⟨skey, hsetup, hNr, hscheduled⟩ :=
    rijndaelSetup_scheduled small (show key.length = 16 ∨ key.length = 24 ∨ key.length = 32 from .inr (.inr hkey))
      (show (0 : ℤ) = 0 ∨ (0 : ℤ) = key.length / 4 + 6 from .inl rfl)
  have heven : 2 ∣ key.length / 4 := by
    rw [hkey]
    decide
  exact ⟨skey, hsetup, fun block _ => rijndaelEcbEncrypt_scheduled hscheduled hNr heven, fun _ _ => rfl⟩

/-- The calls with the mode that the program asks for. -/
theorem ctr_aes_calls (small fast : Bool) (out : ℕ → UInt8) {key iv : Bytes} (hkey : key.length = KEYLEN)
    (hiv : iv.length = 16) (msg : Bytes) :
    ∃ ctr ctr', ctrStart (aesDesc small) iv key 0 CTR_COUNTER_LITTLE_ENDIAN = .ok ctr ∧
      ctrEncrypt (aesDesc small) fast out msg ctr = .ok (Ctr.crypt (libtomcrypt.aes key) iv msg, ctr') := by
  obtain ⟨skey, hsetup, henciphers⟩ := aesDesc_enciphers small hkey
  obtain ⟨ctr, hstart, hat⟩ := ctrStart_at hsetup henciphers
    (show CTR_COUNTER_LITTLE_ENDIAN &&& 255 ≤ (aesDesc small).blockLength from Nat.zero_le 16) hiv
  obtain ⟨ctr', hencrypt, -⟩ := ctrEncrypt_at rfl henciphers (length_nextBlock _ _)
    (show 0 < 16 by norm_num) (show 16 ≤ 128 by norm_num) hiv
    (show fast = true → 8 ∣ (aesDesc small).blockLength from fun _ => show 8 ∣ 16 by norm_num) out msg hat
  have hblocks : ∀ k, (Ctr.incrFront 16)^[k] iv = Ctr.incr^[k] iv := by
    intro k
    induction k with
    | zero => rfl
    | succ k ih =>
      have hlen : (Ctr.incr^[k] iv).length = 16 := (length_iterate Ctr.length_incr k iv).trans hiv
      rw [Function.iterate_succ_apply', Function.iterate_succ_apply', ih, Ctr.incrFront_full hlen.le]
  refine ⟨ctr, ctr', hstart, ?_⟩
  rw [hencrypt, Ctr.crypt_eq_maskFrom (libtomcrypt.aes_length key)]
  exact congrArg (fun ct => Except.ok (ct, ctr')) (Ctr.maskFrom_congr hblocks 0 msg)

/-- Over the code of the library, with and without `LTC_SMALL_CODE` and with and without `LTC_FAST` in words of
    eight bytes, the helpers that encrypt and decrypt do what they are taken for; that includes what is
    undefined. -/
theorem Linked.ciphers_agree (small fast : Bool) (out : ℕ → UInt8) (key : Bytes) (hkey : key.length = KEYLEN) :
    (∀ msg, Linked.encryptBytes small fast out key msg = .ok (DSSE.encryptBytes libtomcrypt key msg)) ∧
    ∀ ctext ctextlen outlen, Linked.decryptBytes small fast out key ctext ctextlen outlen =
      DSSE.decryptBytes libtomcrypt key ctext ctextlen outlen := by
  have htake : key.take KEYLEN = key := List.take_of_length_le hkey.le
  constructor
  · intro msg
    obtain ⟨ctr, ctr', hstart, hencrypt⟩ := ctr_aes_calls small fast out hkey (show IV.length = 16 from rfl) msg
    rw [Linked.encryptBytes, htake, cryptOrDie_ok hstart]
    show (cryptOrDie (ctrEncrypt (aesDesc small) fast out msg ctr) >>= _) = _
    rw [cryptOrDie_ok hencrypt]
    rfl
  · intro ctext ctextlen outlen
    rw [Linked.decryptBytes, DSSE.decryptBytes]
    split_ifs with hbad
    · rfl
    · have hiv : ((ctext ++ [0]).take 16).length = 16 := List.length_take_of_le (by omega)
      obtain ⟨ctr, ctr', hstart, hencrypt⟩ := ctr_aes_calls small fast out hkey hiv
        (((ctext ++ [0]).take ctextlen).drop 16)
      rw [htake, cryptOrDie_ok hstart]
      show (cryptOrDie (ctrEncrypt (aesDesc small) fast out (((ctext ++ [0]).take ctextlen).drop 16) ctr) >>= _) = _
      rw [cryptOrDie_ok hencrypt]
      rfl

theorem Linked.ciphers_agree_sample :
    (∀ msg, Linked.encryptBytes false true (fun _ => 5) (List.replicate 32 3) msg =
      .ok (DSSE.encryptBytes libtomcrypt (List.replicate 32 3) msg)) ∧
    ∀ ctext ctextlen outlen, Linked.decryptBytes false true (fun _ => 5) (List.replicate 32 3) ctext ctextlen
      outlen = DSSE.decryptBytes libtomcrypt (List.replicate 32 3) ctext ctextlen outlen :=
  Linked.ciphers_agree false true (fun _ => 5) (List.replicate 32 3) rfl

end DSSE
