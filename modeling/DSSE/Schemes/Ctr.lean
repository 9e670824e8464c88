import Mathlib

/-! Counter mode over a block cipher, run as a stream: one pad is used up byte by byte, then the
    counter block is incremented and enciphered into the next pad. Masking twice with the same
    counter block gives the message back, whatever the cipher is. -/

namespace Schemes

/-- Bytes in memory, in a file or on the wire. -/
abbrev Bytes := List UInt8

/-- Found at once where membership in a list of byte strings is decided. -/
instance lawfulBEqBytes : LawfulBEq Bytes := inferInstance

namespace Ctr

/-- Add one to a little-endian counter block: the carry stops at the first byte that does not wrap. -/
def incr : Bytes → Bytes
  | [] => []
  | b :: bs => if b + 1 = 0 then 0 :: incr bs else (b + 1) :: bs

/-- Mask `msg` from a state `(ctr, pad)`: `pad` is what is left of the enciphered block `ctr`. -/
def mask (cipher : Bytes → Bytes) : Bytes → Bytes → Bytes → Bytes
  | _, _, [] => []
  | ctr, p :: pad, m :: msg => (m ^^^ p) :: mask cipher ctr pad msg
  | ctr, [], m :: msg =>
    match cipher (incr ctr) with
    | p :: pad => (m ^^^ p) :: mask cipher (incr ctr) pad msg
    | [] => m :: mask cipher (incr ctr) [] msg

/-- Counter mode from an initial block `iv`: encryption and decryption are the same masking. -/
def crypt (cipher : Bytes → Bytes) (iv msg : Bytes) : Bytes := mask cipher iv (cipher iv) msg

theorem length_mask (cipher : Bytes → Bytes) : ∀ (msg ctr pad : Bytes),
    (mask cipher ctr pad msg).length = msg.length
  | [], _, _ => by simp [mask]
  | m :: msg, ctr, p :: pad => by simp [mask, length_mask cipher msg]
  | m :: msg, ctr, [] => by
    rw [mask]
    cases cipher (incr ctr) <;> simp [length_mask cipher msg]

/-- Masking is its own inverse: both passes meet the same pads. -/
theorem mask_mask (cipher : Bytes → Bytes) : ∀ (msg ctr pad : Bytes),
    mask cipher ctr pad (mask cipher ctr pad msg) = msg
  | [], _, _ => by simp [mask]
  | m :: msg, ctr, p :: pad => by
    simp only [mask, mask_mask cipher msg ctr pad, UInt8.xor_assoc, UInt8.xor_self, UInt8.xor_zero]
  | m :: msg, ctr, [] => by
    rw [mask]
    cases hc : cipher (incr ctr) with
    | nil => simp only [mask, hc, mask_mask cipher msg]
    | cons p pad =>
      simp only [mask, hc, mask_mask cipher msg, UInt8.xor_assoc, UInt8.xor_self, UInt8.xor_zero]

@[simp] theorem length_crypt (cipher : Bytes → Bytes) (iv msg : Bytes) :
    (crypt cipher iv msg).length = msg.length := length_mask cipher msg iv (cipher iv)

/-- Decryption inverts encryption. -/
@[simp] theorem crypt_crypt (cipher : Bytes → Bytes) (iv msg : Bytes) :
    crypt cipher iv (crypt cipher iv msg) = msg := mask_mask cipher msg iv (cipher iv)

/-- The counter blocks that a message of `n` bytes uses: one for each 16 bytes. -/
def counters (iv : Bytes) (n : ℕ) : List Bytes :=
  (List.range ((n + 15) / 16)).map fun i => incr^[i] iv

/-- Two messages masked with the same blocks: the ciphertexts differ where the messages do. -/
theorem mask_xor (cipher : Bytes → Bytes) : ∀ (msg msg' ctr pad : Bytes),
    List.zipWith (· ^^^ ·) (mask cipher ctr pad msg) (mask cipher ctr pad msg') =
      List.zipWith (· ^^^ ·) msg msg'
  | [], _, _, _ => by simp [mask]
  | _ :: _, [], _, _ => by simp [mask]
  | m :: msg, m' :: msg', ctr, p :: pad => by
    have hcancel : (m ^^^ p) ^^^ (m' ^^^ p) = m ^^^ m' := by
      rw [UInt8.xor_comm m' p, UInt8.xor_assoc, ← UInt8.xor_assoc p, UInt8.xor_self, UInt8.zero_xor]
    rw [mask, mask, List.zipWith_cons_cons, mask_xor cipher msg msg', hcancel,
      List.zipWith_cons_cons]
  | m :: msg, m' :: msg', ctr, [] => by
    rw [mask, mask]
    cases cipher (incr ctr) with
    | nil => rw [List.zipWith_cons_cons, mask_xor cipher msg msg', List.zipWith_cons_cons]
    | cons p pad =>
      have hcancel : (m ^^^ p) ^^^ (m' ^^^ p) = m ^^^ m' := by
        rw [UInt8.xor_comm m' p, UInt8.xor_assoc, ← UInt8.xor_assoc p, UInt8.xor_self,
          UInt8.zero_xor]
      rw [List.zipWith_cons_cons, mask_xor cipher msg msg', hcancel, List.zipWith_cons_cons]

end Ctr

end Schemes
