import DSSE.Schemes.Ctr

/-! The cryptographic helpers at the top of `DSSE.cpp`. HMAC-SHA256 and the AES block function of
    libtomcrypt are parameters (`Tomcrypt`); what the program builds from them (token keys, counter
    labels, counter-mode encryption with a zero initial vector) is translated. A call that does not
    return a value ends in a `Halt`. -/

namespace DSSE
open Schemes

/-- The ways in which a call ends without returning. -/
inductive Halt where
  | exit        -- `exit(1)`
  | throw       -- an exception that nothing catches
  | hang        -- a loop that never ends
  | undefined   -- a read or write outside a buffer, or of memory never written
  deriving DecidableEq, Repr

/-- Number of ids in a packed block. -/
def B : ℕ := 5

def KEYLEN : ℕ := 256 / 8

def DIGESTLEN : ℕ := 256 / 8

/-- Size of an encrypted file id: the initial vector and the id. -/
def ENCRYPTED_FILEID_SIZE : ℕ := 8 + 16

def BLOCK_SIZE : ℕ := 8 * B

def ENCRYPTED_BLOCK_SIZE : ℕ := 8 * B + 16

/-- Placeholder value for invalid file ids or pointers. -/
def INVALID : UInt64 := 0xFFFFFFFFFFFFFFFF

/-- What the program uses of libtomcrypt: `hmac key message` and the block cipher `aes key block`. -/
structure Tomcrypt where
  hmac : Bytes → Bytes → Bytes
  aes : Bytes → Bytes → Bytes
  hmac_length : ∀ key msg, (hmac key msg).length = DIGESTLEN
  aes_length : ∀ key block, (aes key block).length = 16

/-- One HMAC computation: the key and the message. -/
abbrev MacCall := Bytes × Bytes

variable (tc : Tomcrypt)

def Tomcrypt.mac (call : MacCall) : Bytes := tc.hmac call.1 call.2

/-- The bytes that `strlen` sees of a string: all before the first NUL. -/
def cstr (w : Bytes) : Bytes := w.takeWhile (· ≠ 0)

/-- Pack a 64-bit value as little-endian bytes. -/
def putu64 (value : UInt64) : Bytes :=
  [value.toUInt8, (value >>> 8).toUInt8, (value >>> 16).toUInt8, (value >>> 24).toUInt8,
    (value >>> 32).toUInt8, (value >>> 40).toUInt8, (value >>> 48).toUInt8, (value >>> 56).toUInt8]

/-- Unpack a little-endian 64-bit value from the first eight bytes. -/
def getu64 (bytes : Bytes) : UInt64 :=
  (bytes.getD 0 0).toUInt64 ||| (bytes.getD 1 0).toUInt64 <<< 8 |||
    (bytes.getD 2 0).toUInt64 <<< 16 ||| (bytes.getD 3 0).toUInt64 <<< 24 |||
    (bytes.getD 4 0).toUInt64 <<< 32 ||| (bytes.getD 5 0).toUInt64 <<< 40 |||
    (bytes.getD 6 0).toUInt64 <<< 48 ||| (bytes.getD 7 0).toUInt64 <<< 56

/-- The computation behind `mac_key`: the key number and the token as a C string. -/
def macKeyCall (key : Bytes) (keynum : UInt8) (token : Bytes) : MacCall := (key, keynum :: cstr token)

/-- The computation behind `mac_long` (and `mac_counter`, whose message is a packed counter). -/
def macLongCall (key : Bytes) (counter : UInt64) : MacCall := (key, putu64 counter)

/-- Derive a per-token key from a string token. -/
def macKey (key : Bytes) (keynum : UInt8) (token : Bytes) : Bytes :=
  tc.mac (macKeyCall key keynum token)

def macCounter (key message : Bytes) : Bytes := tc.hmac key message

def macLong (key : Bytes) (counter : UInt64) : Bytes := tc.mac (macLongCall key counter)

/-- The initial vector: never set to anything but zeros. -/
def IV : Bytes := List.replicate 16 0

/-- The initial vector and then the message in counter mode. -/
def encryptBytes (key msg : Bytes) : Bytes := IV ++ Ctr.crypt (tc.aes key) IV msg

def encryptLong (key : Bytes) (value : UInt64) : Bytes := encryptBytes tc key (putu64 value)

/-- Decrypt the first `ctextlen` bytes of a string into a buffer of `outlen` bytes. A string ends in
    one readable NUL; reading past that, a length below 16 (`ctextlen - 16` wraps) and writing past
    the buffer are undefined. -/
def decryptBytes (key ctext : Bytes) (ctextlen outlen : ℕ) : Except Halt Bytes :=
  if ctextlen < 16 ∨ (ctext ++ [0]).length < ctextlen ∨ outlen < ctextlen - 16 then
    .error .undefined
  else
    .ok (Ctr.crypt (tc.aes key) ((ctext ++ [0]).take 16) (((ctext ++ [0]).take ctextlen).drop 16))

def decryptLong (key ctext : Bytes) : Except Halt UInt64 :=
  (decryptBytes tc key ctext ENCRYPTED_FILEID_SIZE 8).map getu64

/-! ### Packing -/

@[simp] theorem length_putu64 (v : UInt64) : (putu64 v).length = 8 := rfl

/-- The bits of byte number `k / 8` of a 64-bit value, put back in their place. -/
private theorem testBit_lane (n i k : ℕ) :
    (decide (i < 64) && (decide (k ≤ i) && (decide (i - k < 8) && n.testBit (k + (i - k))))) =
      (n.testBit i && decide (i < 64 ∧ k ≤ i ∧ i < k + 8)) := by
  by_cases h : k ≤ i
  · have hlt : i - k < 8 ↔ i < k + 8 := by omega
    simp only [Nat.add_sub_cancel' h, h, hlt, decide_true, Bool.true_and, Bool.decide_and]
    cases n.testBit i <;> simp
  · simp [h]

private theorem reassemble (n : ℕ) (h : n < 2 ^ 64) :
    n % 2 ^ 8 ||| ((n >>> 8) % 2 ^ 8) <<< 8 % 2 ^ 64 ||| ((n >>> 16) % 2 ^ 8) <<< 16 % 2 ^ 64 |||
      ((n >>> 24) % 2 ^ 8) <<< 24 % 2 ^ 64 ||| ((n >>> 32) % 2 ^ 8) <<< 32 % 2 ^ 64 |||
      ((n >>> 40) % 2 ^ 8) <<< 40 % 2 ^ 64 ||| ((n >>> 48) % 2 ^ 8) <<< 48 % 2 ^ 64 |||
      ((n >>> 56) % 2 ^ 8) <<< 56 % 2 ^ 64 = n := by
  apply Nat.eq_of_testBit_eq
  intro i
  simp only [Nat.testBit_or, Nat.testBit_mod_two_pow, Nat.testBit_shiftLeft,
    Nat.testBit_shiftRight, testBit_lane]
  cases hb : n.testBit i with
  | false => simp
  | true =>
    have hi : i < 64 := by
      by_contra hge
      rw [Nat.testBit_eq_false_of_lt (h.trans_le (Nat.pow_le_pow_right (by norm_num) (by omega)))]
        at hb
      exact absurd hb (by simp)
    simp [hi]
    omega

theorem getu64_putu64_append (v : UInt64) (rest : Bytes) : getu64 (putu64 v ++ rest) = v := by
  apply UInt64.toNat_inj.mp
  simp only [getu64, putu64, List.cons_append, List.getD_cons_zero, List.getD_cons_succ,
    UInt64.toNat_or, UInt64.toNat_shiftLeft, UInt8.toNat_toUInt64, UInt64.toNat_toUInt8,
    UInt64.toNat_shiftRight]
  exact reassemble v.toNat v.toNat_lt

theorem getu64_putu64 (v : UInt64) : getu64 (putu64 v) = v := by
  simpa using getu64_putu64_append v []

theorem putu64_inj {u v : UInt64} (h : putu64 u = putu64 v) : u = v := by
  rw [← getu64_putu64 u, h, getu64_putu64]

/-! ### Encryption -/

@[simp] theorem length_macLong (key : Bytes) (c : UInt64) : (macLong tc key c).length = DIGESTLEN :=
  tc.hmac_length _ _

@[simp] theorem length_encryptBytes (key msg : Bytes) :
    (encryptBytes tc key msg).length = msg.length + 16 := by
  rw [encryptBytes, List.length_append, Ctr.length_crypt, IV, List.length_replicate, Nat.add_comm]

/-- What was encrypted comes back, also out of a longer string that starts with the ciphertext. -/
theorem decryptBytes_encryptBytes (key msg surplus : Bytes) (outlen : ℕ)
    (h : msg.length ≤ outlen) :
    decryptBytes tc key (encryptBytes tc key msg ++ surplus) (msg.length + 16) outlen = .ok msg := by
  have hiv : IV.length = 16 := rfl
  have hlen : (IV ++ Ctr.crypt (tc.aes key) IV msg).length = msg.length + 16 := by
    rw [List.length_append, hiv, Ctr.length_crypt, Nat.add_comm]
  rw [decryptBytes, if_neg (by simp only [length_encryptBytes, List.length_append]; omega)]
  congr 1
  rw [encryptBytes, List.append_assoc, List.append_assoc, List.take_left' hiv, ← List.append_assoc,
    List.take_left' hlen, List.drop_left' hiv, Ctr.crypt_crypt]

theorem decryptLong_encryptLong (key : Bytes) (v : UInt64) (surplus : Bytes) :
    decryptLong tc key (encryptLong tc key v ++ surplus) = .ok v := by
  have h := decryptBytes_encryptBytes tc key (putu64 v) surplus 8 le_rfl
  rw [length_putu64] at h
  rw [decryptLong, ENCRYPTED_FILEID_SIZE, encryptLong, h]
  simp [Except.map, getu64_putu64]

/-! ### A stand-in

Runs on fixed inputs need some primitives. These are not secure, but free of collisions on the few
messages of such a run. -/

/-- The low 32 bytes of a number. -/
def digestBytes (n : ℕ) : Bytes := (List.range DIGESTLEN).map fun i => UInt8.ofNat (n / 256 ^ i)

def standIn : Tomcrypt where
  hmac key msg :=
    digestBytes ((key ++ 1 :: msg).foldl (fun h b => (h * 257 + b.toNat + 1) % (2 ^ 256 - 189)) 7)
  aes key block :=
    (digestBytes ((key ++ block).foldl (fun h b => (h * 31 + b.toNat) % (2 ^ 256 - 189)) 5)).take 16
  hmac_length _ _ := by simp [digestBytes]
  aes_length _ _ := by simp [digestBytes, DIGESTLEN]

end DSSE
