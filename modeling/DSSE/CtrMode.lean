import DSSE.Sha256
import DSSE.Schemes.CtrStream

/-! Counter mode of libtomcrypt, over any block cipher and with any kind of counter that `ctr_start` can be
    asked for. With `LTC_FAST` whole blocks are masked in words of eight bytes; the ciphertext is the same
    as without, and as that of the message in one piece. A cipher may bring a function of its own for whole
    blocks; what is proved is about those that do not. -/

namespace DSSE
open Schemes

def MAXBLOCKSIZE : ℕ := 128

def CTR_COUNTER_LITTLE_ENDIAN : ℕ := 0x0000

def CTR_COUNTER_BIG_ENDIAN : ℕ := 0x1000

def LTC_CTR_RFC3686 : ℕ := 0x2000

/-- The entries of `cipher_descriptor` that are used here. `accel_ctr_encrypt` may be NULL; it takes the
    plaintext, the number of blocks, the counter, the mode and the key, and gives the ciphertext of the
    blocks, the counter behind them and the key. -/
structure CipherDescriptor (K : Type) where
  blockLength : ℕ
  setup : Bytes → ℤ → Except CryptError K
  ecbEncrypt : Bytes → K → Except CryptError Bytes
  accelCtrEncrypt : Option (Bytes → ℕ → Bytes → ℕ → K → Except CryptError (Bytes × Bytes × K))

/-- `symmetric_CTR`. -/
structure SymmetricCTR (K : Type) where
  blocklen : ℕ
  padlen : ℕ
  mode : ℕ
  ctrlen : ℕ
  ctr : Bytes
  pad : Bytes
  key : K

/-- Add one at each of the positions in turn, up to the first byte that does not become zero. -/
def incAt : List ℕ → Bytes → Bytes
  | [], ctr => ctr
  | x :: xs, ctr =>
    let b := ctr.getD x 0 + 1
    if b ≠ 0 then ctr.set x b else incAt xs (ctr.set x b)

section
variable {K : Type}

/-- The positions that the loops over the counter go through, for either endianness. -/
def SymmetricCTR.positions (ctr : SymmetricCTR K) : List ℕ :=
  if ctr.mode = CTR_COUNTER_LITTLE_ENDIAN then List.range ctr.ctrlen
  else (List.range' ctr.ctrlen (ctr.blocklen - ctr.ctrlen)).reverse

def SymmetricCTR.increment (ctr : SymmetricCTR K) : SymmetricCTR K :=
  { ctr with ctr := incAt ctr.positions ctr.ctr }

variable (desc : CipherDescriptor K)

def ctrStart (IV key : Bytes) (numRounds : ℤ) (ctrMode : ℕ) : Except CryptError (SymmetricCTR K) :=
  let ctrlen := if ctrMode &&& 255 ≠ 0 then ctrMode &&& 255 else desc.blockLength
  if ctrlen > desc.blockLength then .error .invalidArg
  else do
    let ctrlen := if ctrMode &&& 0x1000 = CTR_COUNTER_BIG_ENDIAN then desc.blockLength - ctrlen else ctrlen
    let key ← desc.setup key numRounds
    let ctr : SymmetricCTR K :=
      { blocklen := desc.blockLength, padlen := 0, mode := ctrMode &&& 0x1000, ctrlen,
        ctr := IV.take desc.blockLength, pad := [], key }
    let ctr := if ctrMode &&& LTC_CTR_RFC3686 ≠ 0 then ctr.increment else ctr
    let pad ← desc.ecbEncrypt ctr.ctr ctr.key
    return { ctr with pad }

/-- The loop with `LTC_FAST_TYPE` of eight bytes. -/
def xorWords : ℕ → Bytes → Bytes → Bytes
  | 0, _, _ => []
  | n + 1, pt, pad => putu64 (getu64 pt ^^^ getu64 pad) ++ xorWords n (pt.drop 8) (pad.drop 8)

/-- An empty pad is filled again. -/
def SymmetricCTR.refill (ctr : SymmetricCTR K) : Except CryptError (SymmetricCTR K) :=
  if ctr.padlen = ctr.blocklen then do
    let ctr := ctr.increment
    let pad ← desc.ecbEncrypt ctr.ctr ctr.key
    return { ctr with pad, padlen := 0 }
  else return ctr

/-- The loop of `ctr_encrypt`, with and without `LTC_FAST`. -/
def ctrEncryptLoop (fast : Bool) : ℕ → SymmetricCTR K → Bytes → Except CryptError (Bytes × SymmetricCTR K)
  | 0, ctr, _ => return ([], ctr)
  | _ + 1, ctr, [] => return ([], ctr)
  | fuel + 1, ctr, b :: pt => do
    let ctr ← ctr.refill desc
    if fast ∧ ctr.padlen = 0 ∧ ctr.blocklen ≤ (b :: pt).length then
      let block := xorWords (ctr.blocklen / 8) (b :: pt) ctr.pad
      let (ct, ctr) ← ctrEncryptLoop fast fuel { ctr with padlen := ctr.blocklen } ((b :: pt).drop ctr.blocklen)
      return (block ++ ct, ctr)
    else
      let (ct, ctr') ← ctrEncryptLoop fast fuel { ctr with padlen := ctr.padlen + 1 } pt
      return ((b ^^^ ctr.pad.getD ctr.padlen 0) :: ct, ctr')

/-- The accelerator takes the whole blocks. Behind it neither `pt` nor `ct` is moved on: the loop masks the
    first bytes of the plaintext over the ciphertext of the first block, as many as do not fill a block, and
    the last bytes of the buffer stay what they were. -/
def ctrAccelerated (accel : Bytes → ℕ → Bytes → ℕ → K → Except CryptError (Bytes × Bytes × K)) (fast : Bool)
    (out : ℕ → UInt8) (pt : Bytes) (ctr : SymmetricCTR K) : Except CryptError (Bytes × SymmetricCTR K) := do
  let (blocks, IV, key) ← accel pt (pt.length / ctr.blocklen) ctr.ctr ctr.mode ctr.key
  let len := pt.length % ctr.blocklen
  let (front, ctr') ← ctrEncryptLoop desc fast (len + 1) { ctr with ctr := IV, key } (pt.take len)
  return (front ++ blocks.drop len ++ (List.range' (pt.length - len) len).map out, ctr')

/-- `out` is what the buffer for the ciphertext holds before. -/
def ctrEncrypt (fast : Bool) (out : ℕ → UInt8) (pt : Bytes) (ctr : SymmetricCTR K) :
    Except CryptError (Bytes × SymmetricCTR K) :=
  if ctr.blocklen < 1 ∨ ctr.blocklen > MAXBLOCKSIZE ∨ ctr.padlen > MAXBLOCKSIZE then .error .invalidArg
  else if fast ∧ ctr.blocklen % 8 ≠ 0 then .error .invalidArg
  else match desc.accelCtrEncrypt with
    | some accel =>
      if ctr.padlen = ctr.blocklen ∧ ctr.blocklen ≤ pt.length then ctrAccelerated desc accel fast out pt ctr
      else ctrEncryptLoop desc fast (pt.length + 1) ctr pt
    | none => ctrEncryptLoop desc fast (pt.length + 1) ctr pt

def ctrDecrypt (fast : Bool) (out : ℕ → UInt8) (ct : Bytes) (ctr : SymmetricCTR K) :
    Except CryptError (Bytes × SymmetricCTR K) :=
  ctrEncrypt desc fast out ct ctr

end

/-! ### Words -/

theorem or_shiftLeft {x k : ℕ} (b : ℕ) (hx : x < 2 ^ k) : x ||| b <<< k = x + b * 2 ^ k := by
  rw [Nat.or_comm, ← Nat.shiftLeft_add_eq_or_of_lt hx, Nat.shiftLeft_eq, Nat.add_comm]

theorem toNat_getu64 (b₀ b₁ b₂ b₃ b₄ b₅ b₆ b₇ : UInt8) (rest : Bytes) :
    (getu64 (b₀ :: b₁ :: b₂ :: b₃ :: b₄ :: b₅ :: b₆ :: b₇ :: rest)).toNat =
      b₀.toNat + b₁.toNat * 2 ^ 8 + b₂.toNat * 2 ^ 16 + b₃.toNat * 2 ^ 24 + b₄.toNat * 2 ^ 32 +
        b₅.toNat * 2 ^ 40 + b₆.toNat * 2 ^ 48 + b₇.toNat * 2 ^ 56 := by
  have h₀ := b₀.toNat_lt
  have h₁ := b₁.toNat_lt
  have h₂ := b₂.toNat_lt
  have h₃ := b₃.toNat_lt
  have h₄ := b₄.toNat_lt
  have h₅ := b₅.toNat_lt
  have h₆ := b₆.toNat_lt
  have h₇ := b₇.toNat_lt
  have hshift : ∀ (b : UInt8) {k : UInt64} {n : ℕ}, k.toNat = n → n ≤ 56 →
      (b.toUInt64 <<< k).toNat = b.toNat <<< n := by
    intro b k n hk hn
    have hb := b.toNat_lt
    have hlt : b.toNat * 2 ^ n < 2 ^ 8 * 2 ^ 56 :=
      Nat.mul_lt_mul_of_lt_of_le hb (Nat.pow_le_pow_right (by norm_num) hn) (Nat.two_pow_pos _)
    rw [UInt64.toNat_shiftLeft, UInt8.toNat_toUInt64, hk, Nat.mod_eq_of_lt (show n < 64 by omega),
      Nat.mod_eq_of_lt (by rw [Nat.shiftLeft_eq]; exact hlt)]
  simp only [getu64, List.getD_cons_zero, List.getD_cons_succ, UInt64.toNat_or, UInt8.toNat_toUInt64]
  rw [hshift b₁ (n := 8) rfl (by omega), hshift b₂ (n := 16) rfl (by omega),
    hshift b₃ (n := 24) rfl (by omega), hshift b₄ (n := 32) rfl (by omega),
    hshift b₅ (n := 40) rfl (by omega), hshift b₆ (n := 48) rfl (by omega),
    hshift b₇ (n := 56) rfl (by omega)]
  rw [or_shiftLeft b₁.toNat (by omega), or_shiftLeft b₂.toNat (by omega), or_shiftLeft b₃.toNat (by omega),
    or_shiftLeft b₄.toNat (by omega), or_shiftLeft b₅.toNat (by omega), or_shiftLeft b₆.toNat (by omega),
    or_shiftLeft b₇.toNat (by omega)]

theorem putu64_getu64 (b₀ b₁ b₂ b₃ b₄ b₅ b₆ b₇ : UInt8) (rest : Bytes) :
    putu64 (getu64 (b₀ :: b₁ :: b₂ :: b₃ :: b₄ :: b₅ :: b₆ :: b₇ :: rest)) =
      [b₀, b₁, b₂, b₃, b₄, b₅, b₆, b₇] := by
  have hv := toNat_getu64 b₀ b₁ b₂ b₃ b₄ b₅ b₆ b₇ rest
  generalize getu64 (b₀ :: b₁ :: b₂ :: b₃ :: b₄ :: b₅ :: b₆ :: b₇ :: rest) = v at hv
  have h₀ := b₀.toNat_lt
  have h₁ := b₁.toNat_lt
  have h₂ := b₂.toNat_lt
  have h₃ := b₃.toNat_lt
  have h₄ := b₄.toNat_lt
  have h₅ := b₅.toNat_lt
  have h₆ := b₆.toNat_lt
  have h₇ := b₇.toNat_lt
  simp only [putu64, List.cons.injEq, and_true, ← UInt8.toNat_inj, UInt64.toNat_toUInt8,
    UInt64.toNat_shiftRight, Nat.shiftRight_eq_div_pow, hv, UInt64.reduceToNat, Nat.reduceMod]
  omega

/-! ### Counters -/

theorem incAt_range' (front mid back : Bytes) :
    incAt (List.range' front.length mid.length) (front ++ mid ++ back) = front ++ Ctr.incr mid ++ back := by
  induction mid generalizing front with
  | nil => rfl
  | cons b mid ih =>
    have hget : (front ++ b :: mid ++ back).getD front.length 0 = b := by
      rw [List.append_assoc, List.cons_append, List.getD_append_right _ _ _ _ le_rfl, Nat.sub_self,
        List.getD_cons_zero]
    have hset : ∀ x, (front ++ b :: mid ++ back).set front.length x = front ++ x :: mid ++ back := by
      intro x
      rw [List.append_assoc, List.set_append_right _ _ le_rfl, Nat.sub_self, List.cons_append,
        List.set_cons_zero, List.append_assoc, List.cons_append]
    rw [List.length_cons, List.range'_succ, incAt, hget]
    simp only [hset]
    rw [Ctr.incr]
    by_cases hzero : b + 1 = 0
    · have ih := ih (front ++ [0])
      rw [List.length_append, List.length_singleton] at ih
      rw [if_neg (not_not.mpr hzero), if_pos hzero, hzero]
      simpa only [List.append_assoc, List.singleton_append, List.cons_append, List.nil_append] using ih
    · rw [if_pos hzero, if_neg hzero]

theorem incAt_range {w : ℕ} {block : Bytes} (hw : w ≤ block.length) :
    incAt (List.range w) block = Ctr.incrFront w block := by
  have h := incAt_range' [] (block.take w) (block.drop w)
  rwa [List.length_nil, List.length_take_of_le hw, ← List.range_eq_range', List.nil_append,
    List.take_append_drop, List.nil_append] at h

/-- Going through the positions from the end is going through the block backwards. -/
theorem incAt_reverse {xs : List ℕ} {block : Bytes} (hxs : ∀ x ∈ xs, x < block.length) :
    incAt (xs.map (block.length - 1 - ·)) block = (incAt xs block.reverse).reverse := by
  induction xs generalizing block with
  | nil => exact block.reverse_reverse.symm
  | cons x xs ih =>
    have hx : x < block.length := hxs x List.mem_cons_self
    have hget : block.getD (block.length - 1 - x) 0 = block.reverse.getD x 0 :=
      (congrFun (List.getD_reverse x hx) 0).symm
    have hset : ∀ b, block.reverse.set x b = (block.set (block.length - 1 - x) b).reverse := by
      intro b
      refine List.ext_getElem (by simp) fun i hi hi' => ?_
      simp only [List.length_set, List.length_reverse] at hi
      simp only [List.getElem_set, List.getElem_reverse, List.length_set]
      split_ifs <;> first | rfl | omega
    have ih := @ih (block.set (block.length - 1 - x) (block.getD (block.length - 1 - x) 0 + 1))
      (by simpa using fun y hy => hxs y (List.mem_cons_of_mem _ hy))
    rw [List.map_cons, incAt, incAt, ← hget]
    simp only [hset]
    rw [List.length_set] at ih
    split
    · rw [List.reverse_reverse]
    · exact ih

theorem incAt_range'_reverse {w : ℕ} {block : Bytes} (hw : w ≤ block.length) :
    incAt (List.range' (block.length - w) w).reverse block = Ctr.incrBack w block := by
  have hlast : block.length - w + w - 1 = block.length - 1 := by omega
  rw [List.reverse_range', hlast, incAt_reverse (fun x hx => (List.mem_range.mp hx).trans_le hw),
    incAt_range (by rwa [List.length_reverse]), Ctr.incrBack]

/-! ### Blocks -/

theorem putu64_getu64_take {bytes : Bytes} (h : 8 ≤ bytes.length) : putu64 (getu64 bytes) = bytes.take 8 := by
  match bytes, h with
  | b₀ :: b₁ :: b₂ :: b₃ :: b₄ :: b₅ :: b₆ :: b₇ :: rest, _ =>
    exact putu64_getu64 b₀ b₁ b₂ b₃ b₄ b₅ b₆ b₇ rest

theorem putu64_xor (x y : UInt64) :
    putu64 (x ^^^ y) = List.zipWith (· ^^^ ·) (putu64 x) (putu64 y) := by
  simp only [putu64, List.zipWith_cons_cons, List.zipWith_nil_left, UInt64.shiftRight_xor, UInt64.toUInt8_xor]

/-- Words at a time or bytes at a time. -/
theorem xorWords_eq (n : ℕ) {pt pad : Bytes} (hpt : 8 * n ≤ pt.length) (hpad : 8 * n ≤ pad.length) :
    xorWords n pt pad = List.zipWith (· ^^^ ·) (pt.take (8 * n)) (pad.take (8 * n)) := by
  induction n generalizing pt pad with
  | zero => rw [xorWords, Nat.mul_zero, List.take_zero, List.zipWith_nil_left]
  | succ n ih =>
    have hsplit : ∀ l : Bytes, l.take (8 * (n + 1)) = l.take 8 ++ (l.drop 8).take (8 * n) := by
      intro l
      rw [Nat.mul_succ, Nat.add_comm, List.take_add]
    rw [xorWords, ih (by rw [List.length_drop]; omega) (by rw [List.length_drop]; omega), putu64_xor,
      putu64_getu64_take (by omega), putu64_getu64_take (by omega), hsplit, hsplit,
      List.zipWith_append (by rw [List.length_take_of_le (by omega), List.length_take_of_le (by omega)])]

/-! ### Messages in pieces -/

/-- With a scheduled key the descriptor enciphers blocks to blocks. -/
structure CipherDescriptor.Enciphers {K : Type} (desc : CipherDescriptor K) (key : K)
    (cipher : Bytes → Bytes) : Prop where
  encrypt : ∀ block, block.length = desc.blockLength → desc.ecbEncrypt block key = .ok (cipher block)
  length : ∀ block, block.length = desc.blockLength → (cipher block).length = desc.blockLength

/-- Where a state is in its keystream: `n` bytes of it are used. -/
structure SymmetricCTR.At {K : Type} (cipher next : Bytes → Bytes) (size : ℕ) (iv : Bytes) (key : K)
    (ctr : SymmetricCTR K) (n : ℕ) : Prop where
  blocklen : ctr.blocklen = size
  key : ctr.key = key
  step : ∀ block : Bytes, block.length = size → incAt ctr.positions block = next block
  used : ∃ k, n = size * k + ctr.padlen ∧ ctr.padlen ≤ size ∧ ctr.ctr = next^[k] iv ∧ ctr.pad = cipher ctr.ctr

section
variable {K : Type} {desc : CipherDescriptor K} {cipher next : Bytes → Bytes} {iv : Bytes} {key : K}
  {ctr : SymmetricCTR K} {n : ℕ}

theorem length_iterate (hnext : ∀ block, (next block).length = block.length) (k : ℕ) (iv : Bytes) :
    (next^[k] iv).length = iv.length := by
  induction k with
  | zero => rfl
  | succ k ih => rw [Function.iterate_succ_apply', hnext, ih]

theorem SymmetricCTR.At.refill (hcipher : desc.Enciphers key cipher)
    (hnext : ∀ block, (next block).length = block.length) (hsize : 0 < desc.blockLength)
    (hiv : iv.length = desc.blockLength) (h : ctr.At cipher next desc.blockLength iv key n) :
    ∃ ctr', ctr.refill desc = .ok ctr' ∧ ctr'.padlen < desc.blockLength ∧
      ctr'.At cipher next desc.blockLength iv key n := by
  obtain ⟨k, hn, hpadlen, hctr, hpad⟩ := h.used
  have hlen : (next^[k + 1] iv).length = desc.blockLength := (length_iterate hnext _ _).trans hiv
  by_cases hfull : ctr.padlen = ctr.blocklen
  · have hstep : incAt ctr.positions ctr.ctr = next^[k + 1] iv := by
      rw [Function.iterate_succ_apply', hctr]
      exact h.step _ ((length_iterate hnext _ _).trans hiv)
    refine ⟨{ ctr with ctr := next^[k + 1] iv, pad := cipher (next^[k + 1] iv), padlen := 0 }, ?_, hsize,
      h.blocklen, h.key, h.step, k + 1, ?_, Nat.zero_le _, rfl, rfl⟩
    · rw [SymmetricCTR.refill, if_pos hfull]
      simp only [SymmetricCTR.increment, hstep, h.key, hcipher.encrypt _ hlen, bind, Except.bind, pure,
        Except.pure]
    · rw [hn, hfull, h.blocklen]
      exact (Nat.mul_succ _ _).symm
  · refine ⟨ctr, if_neg hfull, ?_, h⟩
    rw [h.blocklen] at hfull
    omega

/-- One byte is masked with the byte of the pad, and the state moves by one. -/
theorem SymmetricCTR.At.byte (h : ctr.At cipher next desc.blockLength iv key n)
    (hroom : ctr.padlen < desc.blockLength) :
    SymmetricCTR.At cipher next desc.blockLength iv key { ctr with padlen := ctr.padlen + 1 } (n + 1) ∧
      ctr.pad.getD ctr.padlen 0 = Ctr.keystream cipher next desc.blockLength iv n := by
  obtain ⟨k, hn, -, hctr, hpad⟩ := h.used
  refine ⟨⟨h.blocklen, h.key, h.step, k, by rw [hn, Nat.add_assoc], hroom, hctr, hpad⟩, ?_⟩
  rw [hpad, hctr, hn, Ctr.keystream_at hroom]

/-- A whole block is masked with a pad of which nothing is used, in words. -/
theorem SymmetricCTR.At.block (hcipher : desc.Enciphers key cipher)
    (hnext : ∀ block, (next block).length = block.length) (hiv : iv.length = desc.blockLength)
    (hwords : 8 ∣ desc.blockLength) (h : ctr.At cipher next desc.blockLength iv key n)
    (hempty : ctr.padlen = 0) {pt : Bytes} (hle : desc.blockLength ≤ pt.length) :
    SymmetricCTR.At cipher next desc.blockLength iv key { ctr with padlen := ctr.blocklen }
        (n + desc.blockLength) ∧
      xorWords (ctr.blocklen / 8) pt ctr.pad =
        Ctr.maskFrom cipher next desc.blockLength iv n (pt.take desc.blockLength) := by
  obtain ⟨k, hn, -, hctr, hpad⟩ := h.used
  have hblocklen := h.blocklen
  have hlen : (cipher (next^[k] iv)).length = desc.blockLength :=
    hcipher.length _ ((length_iterate hnext _ _).trans hiv)
  have height : 8 * (desc.blockLength / 8) = desc.blockLength := Nat.mul_div_cancel' hwords
  refine ⟨⟨hblocklen, h.key, h.step, k, ?_, hblocklen.le, hctr, hpad⟩, ?_⟩
  · show _ = desc.blockLength * k + ctr.blocklen
    rw [hblocklen, hn, hempty, Nat.add_zero]
  · rw [hblocklen, xorWords_eq _ (by rwa [height]) (by rw [height, hpad, hctr, hlen]), height, hn, hempty,
      Nat.add_zero, Ctr.maskFrom_block hlen (List.length_take_of_le hle), hpad, hctr,
      List.take_of_length_le hlen.le]

/-- The loop masks with the keystream from where the state is. -/
theorem ctrEncryptLoop_at (hcipher : desc.Enciphers key cipher)
    (hnext : ∀ block, (next block).length = block.length) (hsize : 0 < desc.blockLength)
    (hiv : iv.length = desc.blockLength) {fast : Bool} (hfast : fast → 8 ∣ desc.blockLength) {fuel : ℕ}
    {pt : Bytes} (hfuel : pt.length < fuel) (h : ctr.At cipher next desc.blockLength iv key n) :
    ∃ ctr', ctrEncryptLoop desc fast fuel ctr pt =
        .ok (Ctr.maskFrom cipher next desc.blockLength iv n pt, ctr') ∧
      ctr'.At cipher next desc.blockLength iv key (n + pt.length) := by
  induction fuel generalizing ctr n pt with
  | zero => exact absurd hfuel (Nat.not_lt_zero _)
  | succ fuel ih =>
    cases pt with
    | nil => exact ⟨ctr, rfl, h⟩
    | cons b pt =>
      rw [List.length_cons] at hfuel
      obtain ⟨ctr₀, hrefill, hroom, h₀⟩ := h.refill hcipher hnext hsize hiv
      have hblocklen := h₀.blocklen
      rw [ctrEncryptLoop, hrefill]
      simp only [bind, Except.bind]
      by_cases hwhole : fast ∧ ctr₀.padlen = 0 ∧ ctr₀.blocklen ≤ (b :: pt).length
      · -- a whole block, in words
        rw [if_pos hwhole]
        obtain ⟨hon, hempty, hle⟩ := hwhole
        rw [hblocklen] at hle
        obtain ⟨hused, hblock⟩ := h₀.block hcipher hnext hiv (hfast hon) hempty hle
        obtain ⟨ctr', hloop, hat⟩ := ih
          (show ((b :: pt).drop desc.blockLength).length < fuel by rw [List.length_drop, List.length_cons]; omega)
          hused
        refine ⟨ctr', ?_, ?_⟩
        · rw [hblocklen] at hloop hblock ⊢
          simp only [hloop, hblock, pure, Except.pure]
          have hmask : Ctr.maskFrom cipher next desc.blockLength iv n
              ((b :: pt).take desc.blockLength ++ (b :: pt).drop desc.blockLength) = _ :=
            Ctr.maskFrom_append iv n _ _
          rw [List.take_append_drop, List.length_take_of_le hle] at hmask
          rw [hmask]
        · rwa [List.length_drop, Nat.add_assoc, Nat.add_sub_cancel' hle] at hat
      · -- one byte
        obtain ⟨hused, hbyte⟩ := h₀.byte hroom
        obtain ⟨ctr', hloop, hat⟩ := ih (show pt.length < fuel by omega) hused
        refine ⟨ctr', ?_, ?_⟩
        · rw [if_neg hwhole]
          simp only [hloop, pure, Except.pure]
          rw [Ctr.maskFrom_cons, hbyte]
        · rwa [Nat.add_assoc, Nat.add_comm 1] at hat

theorem ctrEncrypt_at (haccel : desc.accelCtrEncrypt = none) (hcipher : desc.Enciphers key cipher)
    (hnext : ∀ block, (next block).length = block.length) (hsize : 0 < desc.blockLength)
    (hmax : desc.blockLength ≤ MAXBLOCKSIZE) (hiv : iv.length = desc.blockLength) {fast : Bool}
    (hfast : fast → 8 ∣ desc.blockLength) (out : ℕ → UInt8) (pt : Bytes)
    (h : ctr.At cipher next desc.blockLength iv key n) :
    ∃ ctr', ctrEncrypt desc fast out pt ctr = .ok (Ctr.maskFrom cipher next desc.blockLength iv n pt, ctr') ∧
      ctr'.At cipher next desc.blockLength iv key (n + pt.length) := by
  obtain ⟨k, -, hpadlen, -, -⟩ := h.used
  rw [ctrEncrypt, h.blocklen, if_neg (by omega), if_neg (by
    rintro ⟨hon, hrest⟩
    exact hrest (Nat.mod_eq_zero_of_dvd (hfast hon))), haccel]
  exact ctrEncryptLoop_at hcipher hnext hsize hiv hfast (Nat.lt_succ_self _) h

end

/-- The calls for the pieces of a message, one after the other. -/
def ctrPieces {K : Type} (call : Bytes → SymmetricCTR K → Except CryptError (Bytes × SymmetricCTR K)) :
    SymmetricCTR K → List Bytes → Except CryptError (Bytes × SymmetricCTR K)
  | ctr, [] => return ([], ctr)
  | ctr, pt :: pts => do
    let (ct, ctr) ← call pt ctr
    let (cts, ctr) ← ctrPieces call ctr pts
    return (ct ++ cts, ctr)

theorem ctrPieces_at {K : Type} {desc : CipherDescriptor K} {cipher next : Bytes → Bytes} {iv : Bytes}
    {key : K} {ctr : SymmetricCTR K} {n : ℕ} (haccel : desc.accelCtrEncrypt = none)
    (hcipher : desc.Enciphers key cipher) (hnext : ∀ block, (next block).length = block.length) (hsize : 0 < desc.blockLength)
    (hmax : desc.blockLength ≤ MAXBLOCKSIZE) (hiv : iv.length = desc.blockLength) {fast : Bool}
    (hfast : fast → 8 ∣ desc.blockLength) (out : ℕ → UInt8) (pieces : List Bytes)
    (h : ctr.At cipher next desc.blockLength iv key n) :
    ∃ ctr', ctrPieces (ctrEncrypt desc fast out) ctr pieces =
      .ok (Ctr.maskFrom cipher next desc.blockLength iv n pieces.flatten, ctr') := by
  induction pieces generalizing ctr n with
  | nil => exact ⟨ctr, rfl⟩
  | cons pt pts ih =>
    obtain ⟨ctr₁, hone, h₁⟩ := ctrEncrypt_at haccel hcipher hnext hsize hmax hiv hfast out pt h
    obtain ⟨ctr₂, hrest⟩ := ih h₁
    refine ⟨ctr₂, ?_⟩
    simp only [ctrPieces, hone, hrest, bind, Except.bind, pure, Except.pure]
    rw [List.flatten_cons, Ctr.maskFrom_append]

/-! ### The modes of `ctr_start` -/

/-- How wide the counter is that a mode asks for. -/
def counterWidth (ctrMode size : ℕ) : ℕ := if ctrMode &&& 255 ≠ 0 then ctrMode &&& 255 else size

/-- The step of that counter. -/
def nextBlock (ctrMode size : ℕ) : Bytes → Bytes :=
  if ctrMode &&& 0x1000 = CTR_COUNTER_BIG_ENDIAN then Ctr.incrBack (counterWidth ctrMode size)
  else Ctr.incrFront (counterWidth ctrMode size)

/-- The block that it starts from. -/
def firstBlock (ctrMode size : ℕ) (IV : Bytes) : Bytes :=
  if ctrMode &&& LTC_CTR_RFC3686 ≠ 0 then nextBlock ctrMode size IV else IV

theorem length_nextBlock (ctrMode size : ℕ) (block : Bytes) :
    (nextBlock ctrMode size block).length = block.length := by
  rw [nextBlock]
  split
  · exact Ctr.length_incrBack _ _
  · exact Ctr.length_incrFront _ _

theorem length_firstBlock (ctrMode size : ℕ) (IV : Bytes) :
    (firstBlock ctrMode size IV).length = IV.length := by
  rw [firstBlock]
  split
  · exact length_nextBlock _ _ _
  · rfl

/-- The bit for the endianness is set or it is not. -/
theorem endianness (ctrMode : ℕ) :
    ctrMode &&& 0x1000 = CTR_COUNTER_BIG_ENDIAN ∨ ctrMode &&& 0x1000 = CTR_COUNTER_LITTLE_ENDIAN := by
  have hbit : ctrMode &&& 2 ^ 12 = (ctrMode.testBit 12).toNat * 2 ^ 12 := Nat.and_two_pow ctrMode 12
  cases hset : ctrMode.testBit 12
  · rw [hset] at hbit
    exact .inr hbit
  · rw [hset] at hbit
    exact .inl hbit

/-- What the loops of either endianness do to a counter of the width that was asked for. -/
theorem incAt_positions {K : Type} {ctr : SymmetricCTR K} {ctrMode size : ℕ}
    (hmode : ctr.mode = ctrMode &&& 0x1000) (hblocklen : ctr.blocklen = size)
    (hctrlen : ctr.ctrlen = if ctrMode &&& 0x1000 = CTR_COUNTER_BIG_ENDIAN then
      size - counterWidth ctrMode size else counterWidth ctrMode size)
    (hwidth : counterWidth ctrMode size ≤ size) {block : Bytes} (hblock : block.length = size) :
    incAt ctr.positions block = nextBlock ctrMode size block := by
  rw [SymmetricCTR.positions, nextBlock, hmode, hctrlen, hblocklen]
  rcases endianness ctrMode with hbig | hlittle
  · have hback : size - (size - counterWidth ctrMode size) = counterWidth ctrMode size := by omega
    rw [if_neg (by rw [hbig]; decide), if_pos hbig, if_pos hbig, hback, ← hblock]
    exact incAt_range'_reverse (by rwa [hblock])
  · have hno : ¬ ctrMode &&& 0x1000 = CTR_COUNTER_BIG_ENDIAN := by
      rw [hlittle]
      decide
    rw [if_pos hlittle, if_neg hno, if_neg hno]
    exact incAt_range (by rwa [hblock])

theorem ctrStart_at {K : Type} {desc : CipherDescriptor K} {cipher : Bytes → Bytes} {skey : K}
    {IV key : Bytes} {numRounds : ℤ} {ctrMode : ℕ} (hsetup : desc.setup key numRounds = .ok skey)
    (hcipher : desc.Enciphers skey cipher) (hwidth : ctrMode &&& 255 ≤ desc.blockLength)
    (hIV : IV.length = desc.blockLength) :
    ∃ ctr, ctrStart desc IV key numRounds ctrMode = .ok ctr ∧
      ctr.At cipher (nextBlock ctrMode desc.blockLength) desc.blockLength
        (firstBlock ctrMode desc.blockLength IV) skey 0 := by
  have hw : counterWidth ctrMode desc.blockLength ≤ desc.blockLength := by
    rw [counterWidth]
    split <;> omega
  have hfirst := (length_firstBlock ctrMode desc.blockLength IV).trans hIV
  have hstep : ∀ (ctr pad block : Bytes), block.length = desc.blockLength →
      incAt (SymmetricCTR.positions ⟨desc.blockLength, 0, ctrMode &&& 0x1000,
        if ctrMode &&& 0x1000 = CTR_COUNTER_BIG_ENDIAN then
          desc.blockLength - counterWidth ctrMode desc.blockLength
        else counterWidth ctrMode desc.blockLength, ctr, pad, skey⟩) block =
      nextBlock ctrMode desc.blockLength block :=
    fun _ _ _ hblock => incAt_positions rfl rfl rfl hw hblock
  have hIVtake : IV.take desc.blockLength = IV := List.take_of_length_le hIV.le
  rw [ctrStart, ← counterWidth, if_neg (by omega), hsetup, hIVtake]
  refine ⟨⟨desc.blockLength, 0, ctrMode &&& 0x1000,
    if ctrMode &&& 0x1000 = CTR_COUNTER_BIG_ENDIAN then
      desc.blockLength - counterWidth ctrMode desc.blockLength
    else counterWidth ctrMode desc.blockLength,
    firstBlock ctrMode desc.blockLength IV, cipher (firstBlock ctrMode desc.blockLength IV), skey⟩, ?_,
    rfl, rfl, hstep _ _, 0, rfl, Nat.zero_le _, rfl, rfl⟩
  have hencrypt := hcipher.encrypt _ hfirst
  rw [firstBlock] at hencrypt ⊢
  by_cases hrfc : ctrMode &&& LTC_CTR_RFC3686 ≠ 0
  · rw [if_pos hrfc] at hencrypt
    simp only [if_pos hrfc, SymmetricCTR.increment, hstep _ _ _ hIV, hencrypt, bind, Except.bind, pure,
      Except.pure]
  · rw [if_neg hrfc] at hencrypt
    simp only [if_neg hrfc, hencrypt, bind, Except.bind, pure, Except.pure]

/-- Whichever build enciphers a message, and whatever pieces it comes in, the ciphertext is the message masked
    with the keystream of the mode; cut anyhow, either build deciphers it. That is for a cipher without an
    accelerator, with blocks of whole words where a build has `LTC_FAST`. -/
theorem ctr_pieces {K : Type} (desc : CipherDescriptor K) (cipher : Bytes → Bytes) (skey : K) (IV key : Bytes)
    (numRounds : ℤ) (ctrMode : ℕ) (hsetup : desc.setup key numRounds = .ok skey)
    (haccel : desc.accelCtrEncrypt = none) (hcipher : desc.Enciphers skey cipher)
    (hIV : IV.length = desc.blockLength) (hwidth : ctrMode &&& 255 ≤ desc.blockLength)
    (hsize : 0 < desc.blockLength) (hmax : desc.blockLength ≤ MAXBLOCKSIZE) (fast fast' : Bool)
    (hfast : fast → 8 ∣ desc.blockLength) (hfast' : fast' → 8 ∣ desc.blockLength) (out out' : ℕ → UInt8)
    (pieces pieces' : List Bytes)
    (hcut : pieces'.flatten = Ctr.maskFrom cipher (nextBlock ctrMode desc.blockLength) desc.blockLength
      (firstBlock ctrMode desc.blockLength IV) 0 pieces.flatten) :
    (∃ ctr', (ctrStart desc IV key numRounds ctrMode >>= fun ctr =>
      ctrPieces (ctrEncrypt desc fast out) ctr pieces) =
      .ok (pieces'.flatten, ctr')) ∧
    ∃ ctr', (ctrStart desc IV key numRounds ctrMode >>= fun ctr =>
      ctrPieces (ctrDecrypt desc fast' out') ctr pieces') =
      .ok (pieces.flatten, ctr') := by
  obtain ⟨ctr, hstart, hat⟩ := ctrStart_at hsetup hcipher hwidth hIV
  have hfirst := (length_firstBlock ctrMode desc.blockLength IV).trans hIV
  have hrun : ∀ (fast : Bool), (fast → 8 ∣ desc.blockLength) → ∀ (out : ℕ → UInt8) (pieces : List Bytes),
      ∃ ctr', ctrPieces (ctrEncrypt desc fast out) ctr pieces =
        .ok (Ctr.maskFrom cipher (nextBlock ctrMode desc.blockLength) desc.blockLength
          (firstBlock ctrMode desc.blockLength IV) 0 pieces.flatten, ctr') :=
    fun _ hfast out pieces =>
      ctrPieces_at haccel hcipher (length_nextBlock _ _) hsize hmax hfirst hfast out pieces hat
  rw [hstart]
  refine ⟨hcut ▸ hrun fast hfast out pieces, ?_⟩
  have hback := hrun fast' hfast' out' pieces'
  rwa [hcut, Ctr.maskFrom_maskFrom] at hback

/-- A block cipher for the run below. -/
def standInDesc : CipherDescriptor Bytes where
  blockLength := 16
  setup key _ := .ok key
  ecbEncrypt block key := .ok (standIn.aes key block)
  accelCtrEncrypt := none

/-- A big-endian counter in the last four bytes that is stepped before its first use. -/
theorem ctr_pieces_rfc3686 :
    (∃ ctr', (ctrStart standInDesc IV [1] 0 0x3004 >>= fun ctr =>
      ctrPieces (ctrEncrypt standInDesc true fun _ => 7) ctr [[97], List.replicate 40 98]) =
      .ok ([Ctr.maskFrom (standIn.aes [1]) (nextBlock 0x3004 16) 16 (firstBlock 0x3004 16 IV) 0
        (97 :: List.replicate 40 98)].flatten, ctr')) ∧
    ∃ ctr', (ctrStart standInDesc IV [1] 0 0x3004 >>= fun ctr =>
      ctrPieces (ctrDecrypt standInDesc false fun _ => 9) ctr
        [Ctr.maskFrom (standIn.aes [1]) (nextBlock 0x3004 16) 16 (firstBlock 0x3004 16 IV) 0
          (97 :: List.replicate 40 98)]) = .ok ([[97], List.replicate 40 98].flatten, ctr') :=
  ctr_pieces standInDesc (standIn.aes [1]) [1] IV [1] 0 0x3004 rfl rfl
    ⟨fun _ _ => rfl, fun block _ => standIn.aes_length [1] block⟩ rfl (by decide) (by decide) (by decide)
    true false (fun _ => by decide) (by rintro ⟨⟩) (fun _ => 7) (fun _ => 9) _ _ (List.append_nil _)

end DSSE
