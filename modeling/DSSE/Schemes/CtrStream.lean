import DSSE.Schemes.Ctr

/-! Counter mode as a keystream: byte `i` of a message is masked with byte `i` of the enciphered counter
    blocks laid end to end. The blocks follow each other by any function; a message may come in pieces. -/

namespace Schemes.Ctr

variable (cipher next : Bytes → Bytes) (size : ℕ)

/-- Byte `i` of the enciphered blocks. -/
def keystream (iv : Bytes) (i : ℕ) : UInt8 := (cipher (next^[i / size] iv)).getD (i % size) 0

/-- The bytes that come behind `n` others, masked. -/
def maskFrom (iv : Bytes) (n : ℕ) (msg : Bytes) : Bytes :=
  msg.mapIdx fun i b => b ^^^ keystream cipher next size iv (n + i)

variable {cipher next size}

@[simp] theorem maskFrom_nil (iv : Bytes) (n : ℕ) : maskFrom cipher next size iv n [] = [] := rfl

theorem maskFrom_cons (iv : Bytes) (n : ℕ) (b : UInt8) (msg : Bytes) :
    maskFrom cipher next size iv n (b :: msg) =
      (b ^^^ keystream cipher next size iv n) :: maskFrom cipher next size iv (n + 1) msg := by
  simp only [maskFrom, List.mapIdx_cons, Nat.add_zero, Nat.add_assoc, Nat.add_comm 1]

theorem maskFrom_append (iv : Bytes) (n : ℕ) (msg msg' : Bytes) :
    maskFrom cipher next size iv n (msg ++ msg') =
      maskFrom cipher next size iv n msg ++ maskFrom cipher next size iv (n + msg.length) msg' := by
  rw [maskFrom, List.mapIdx_append, maskFrom, maskFrom]
  simp only [Nat.add_assoc, Nat.add_comm msg.length]

theorem maskFrom_maskFrom (iv : Bytes) (n : ℕ) (msg : Bytes) :
    maskFrom cipher next size iv n (maskFrom cipher next size iv n msg) = msg := by
  induction msg generalizing n with
  | nil => rfl
  | cons b msg ih =>
    rw [maskFrom_cons, maskFrom_cons, ih, UInt8.xor_assoc, UInt8.xor_self, UInt8.xor_zero]

/-- Byte `r` of block number `k`. -/
theorem keystream_at {iv : Bytes} {k r : ℕ} (hr : r < size) :
    keystream cipher next size iv (size * k + r) = (cipher (next^[k] iv)).getD r 0 := by
  rw [keystream, Nat.mul_add_div (Nat.zero_lt_of_lt hr), Nat.div_eq_of_lt hr, Nat.add_zero,
    Nat.mul_add_mod, Nat.mod_eq_of_lt hr]

/-- A block of message over an enciphered block. -/
theorem maskFrom_block {iv block : Bytes} {k : ℕ} (hlen : (cipher (next^[k] iv)).length = size)
    (hblock : block.length = size) :
    maskFrom cipher next size iv (size * k) block =
      List.zipWith (· ^^^ ·) block (cipher (next^[k] iv)) := by
  refine List.ext_getElem (by rw [maskFrom, List.length_mapIdx, List.length_zipWith, hlen, hblock, Nat.min_self])
    fun i hi hi' => ?_
  have hsize : i < size := by rwa [maskFrom, List.length_mapIdx, hblock] at hi
  simp only [maskFrom]
  rw [List.getElem_mapIdx, List.getElem_zipWith, keystream_at hsize,
    List.getD_eq_getElem _ _ (by rwa [hlen])]

/-- The stream that uses up one pad after the other masks with the keystream of blocks of 16 bytes. -/
theorem mask_eq_maskFrom (hlen : ∀ b, (cipher b).length = 16) (iv msg : Bytes) {k r : ℕ} (hr : r ≤ 16) :
    mask cipher (incr^[k] iv) ((cipher (incr^[k] iv)).drop r) msg =
      maskFrom cipher incr 16 iv (16 * k + r) msg := by
  induction msg generalizing k r with
  | nil => rw [mask, maskFrom_nil]
  | cons b msg ih =>
    have hstep : ∀ {k r : ℕ}, r < 16 →
        mask cipher (incr^[k] iv) ((cipher (incr^[k] iv)).drop r) (b :: msg) =
          maskFrom cipher incr 16 iv (16 * k + r) (b :: msg) := by
      intro k r hr
      have hin : r < (cipher (incr^[k] iv)).length := by rwa [hlen]
      rw [List.drop_eq_getElem_cons hin, mask, ih (by omega), maskFrom_cons, keystream_at hr,
        List.getD_eq_getElem _ _ hin, Nat.add_assoc]
    rcases Nat.lt_or_eq_of_le hr with hlt | rfl
    · exact hstep hlt
    · -- the pad is used up: the next one starts where the stream is
      have hnext := hstep (k := k + 1) (r := 0) (by norm_num)
      have hempty : (cipher (incr^[k] iv)).drop 16 = [] :=
        List.drop_eq_nil_of_le (hlen _).le
      obtain ⟨p, pad, hpad⟩ : ∃ p pad, cipher (incr (incr^[k] iv)) = p :: pad := by
        refine List.exists_cons_of_length_pos ?_
        rw [hlen]
        norm_num
      rw [List.drop_zero, Function.iterate_succ_apply', hpad, mask, Nat.mul_succ, Nat.add_zero] at hnext
      rw [hempty, mask, hpad]
      exact hnext

/-- Counter mode is masking with the keystream. -/
theorem crypt_eq_maskFrom (hlen : ∀ b, (cipher b).length = 16) (iv msg : Bytes) :
    crypt cipher iv msg = maskFrom cipher incr 16 iv 0 msg :=
  mask_eq_maskFrom hlen iv msg (k := 0) (Nat.zero_le 16)

/-- Only the blocks that follow the first one matter. -/
theorem maskFrom_congr {next' : Bytes → Bytes} {iv : Bytes} (h : ∀ k, next^[k] iv = next'^[k] iv) (n : ℕ)
    (msg : Bytes) : maskFrom cipher next size iv n msg = maskFrom cipher next' size iv n msg := by
  simp only [maskFrom, keystream, h]

/-! ### Counters in a part of the block -/

/-- A little-endian counter in the first `w` bytes. -/
def incrFront (w : ℕ) (block : Bytes) : Bytes := incr (block.take w) ++ block.drop w

/-- A big-endian counter in the last `w` bytes. -/
def incrBack (w : ℕ) (block : Bytes) : Bytes := (incrFront w block.reverse).reverse

theorem length_incr (block : Bytes) : (incr block).length = block.length := by
  induction block with
  | nil => rfl
  | cons b block ih =>
    rw [incr]
    split
    · rw [List.length_cons, List.length_cons, ih]
    · rw [List.length_cons, List.length_cons]

/-- A counter as wide as the block. -/
theorem incrFront_full {w : ℕ} {block : Bytes} (h : block.length ≤ w) : incrFront w block = incr block := by
  rw [incrFront, List.take_of_length_le h, List.drop_eq_nil_of_le h, List.append_nil]

theorem length_incrFront (w : ℕ) (block : Bytes) : (incrFront w block).length = block.length := by
  rw [incrFront, List.length_append, length_incr, ← List.length_append, List.take_append_drop]

theorem length_incrBack (w : ℕ) (block : Bytes) : (incrBack w block).length = block.length := by
  rw [incrBack, List.length_reverse, length_incrFront, List.length_reverse]

end Schemes.Ctr
