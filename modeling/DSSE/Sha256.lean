import DSSE.Crypto
import DSSE.Schemes.BlockHash

/-! `sha256.c` of libtomcrypt and the macro `HASH_PROCESS` that it takes its input with. The compression
    is built with the rounds written out one by one, or with a loop (`LTC_SMALL_CODE`). Both are the
    compression of SHA-256, and the digest of a message does not depend on the pieces it came in. -/

namespace DSSE
open Schemes

/-- The error codes that come up here. -/
inductive CryptError where | invalidArg | hashOverflow | invalidKeysize | bufferOverflow | invalidRounds
  deriving DecidableEq

/-! ### Words -/

/-- `LOAD32H`: the first four bytes, the highest one first. -/
def load32h (b : Bytes) : UInt32 :=
  (b.getD 0 0).toUInt32 <<< 24 ||| (b.getD 1 0).toUInt32 <<< 16 ||| (b.getD 2 0).toUInt32 <<< 8 |||
    (b.getD 3 0).toUInt32

/-- `STORE32H`. -/
def store32h (x : UInt32) : Bytes := [(x >>> 24).toUInt8, (x >>> 16).toUInt8, (x >>> 8).toUInt8, x.toUInt8]

/-- `STORE64H`. -/
def store64h (x : UInt64) : Bytes :=
  [(x >>> 56).toUInt8, (x >>> 48).toUInt8, (x >>> 40).toUInt8, (x >>> 32).toUInt8,
    (x >>> 24).toUInt8, (x >>> 16).toUInt8, (x >>> 8).toUInt8, x.toUInt8]

namespace Sha256

def K : List UInt32 :=
  [0x428a2f98, 0x71374491, 0xb5c0fbcf, 0xe9b5dba5, 0x3956c25b, 0x59f111f1, 0x923f82a4, 0xab1c5ed5,
    0xd807aa98, 0x12835b01, 0x243185be, 0x550c7dc3, 0x72be5d74, 0x80deb1fe, 0x9bdc06a7, 0xc19bf174,
    0xe49b69c1, 0xefbe4786, 0x0fc19dc6, 0x240ca1cc, 0x2de92c6f, 0x4a7484aa, 0x5cb0a9dc, 0x76f988da,
    0x983e5152, 0xa831c66d, 0xb00327c8, 0xbf597fc7, 0xc6e00bf3, 0xd5a79147, 0x06ca6351, 0x14292967,
    0x27b70a85, 0x2e1b2138, 0x4d2c6dfc, 0x53380d13, 0x650a7354, 0x766a0abb, 0x81c2c92e, 0x92722c85,
    0xa2bfe8a1, 0xa81a664b, 0xc24b8b70, 0xc76c51a3, 0xd192e819, 0xd6990624, 0xf40e3585, 0x106aa070,
    0x19a4c116, 0x1e376c08, 0x2748774c, 0x34b0bcb5, 0x391c0cb3, 0x4ed8aa4a, 0x5b9cca4f, 0x682e6ff3,
    0x748f82ee, 0x78a5636f, 0x84c87814, 0x8cc70208, 0x90befffa, 0xa4506ceb, 0xbef9a3f7, 0xc67178f2]

/-- `state[8]`, and the copy `S[8]` of the compression. -/
abbrev Words := Vector UInt32 8

/-- `RORc`. -/
def ror (x n : UInt32) : UInt32 := x >>> n ||| x <<< (32 - n)

def Ch (x y z : UInt32) : UInt32 := z ^^^ (x &&& (y ^^^ z))

def Maj (x y z : UInt32) : UInt32 := ((x ||| y) &&& z) ||| (x &&& y)

def Sigma0 (x : UInt32) : UInt32 := ror x 2 ^^^ ror x 13 ^^^ ror x 22

def Sigma1 (x : UInt32) : UInt32 := ror x 6 ^^^ ror x 11 ^^^ ror x 25

def Gamma0 (x : UInt32) : UInt32 := ror x 7 ^^^ ror x 18 ^^^ x >>> 3

def Gamma1 (x : UInt32) : UInt32 := ror x 17 ^^^ ror x 19 ^^^ x >>> 10

/-! ### The compression -/

/-- `RND(S[a],..,S[h],i,ki)` with `wi` for `W[i]`. -/
def rnd (S : Words) (a b c d e f g h : Fin 8) (ki wi : UInt32) : Words :=
  let t0 := S[h] + Sigma1 S[e] + Ch S[e] S[f] S[g] + ki + wi
  let t1 := Sigma0 S[a] + Maj S[a] S[b] S[c]
  let S := S.set d (S[d] + t0)
  S.set h (t0 + t1)

/-- The lines `RND(..)`. From each to the next the parts of the `S[i]` move on by one, so line `i` starts
    with `S[-i]`. -/
def rounds : Fin 8 → List (UInt32 × UInt32) → Words → Words
  | _, [], S => S
  | i, (ki, wi) :: rest, S =>
    rounds (i + 1) rest (rnd S (0 - i) (1 - i) (2 - i) (3 - i) (4 - i) (5 - i) (6 - i) (7 - i) ki wi)

/-- `t = S[7]; S[7] = S[6]; ..; S[1] = S[0]; S[0] = t`. -/
def turn (S : Words) : Words := #v[S[7], S[0], S[1], S[2], S[3], S[4], S[5], S[6]]

/-- The loop over `RND` with `LTC_SMALL_CODE`. -/
def smallRounds : List (UInt32 × UInt32) → Words → Words
  | [], S => S
  | (ki, wi) :: rest, S => smallRounds rest (turn (rnd S 0 1 2 3 4 5 6 7 ki wi))

/-- `W[i]` from the words before it. -/
def nextW (W : List UInt32) : UInt32 :=
  let i := W.length
  Gamma1 (W.getD (i - 2) 0) + W.getD (i - 7) 0 + Gamma0 (W.getD (i - 15) 0) + W.getD (i - 16) 0

/-- The loop that fills `W[16..63]`. -/
def fillW : ℕ → List UInt32 → List UInt32
  | 0, W => W
  | n + 1, W => fillW n (W ++ [nextW W])

def loadW (buf : Bytes) : List UInt32 := (List.range 16).map fun i => load32h (buf.drop (4 * i))

/-- `sha256_compress`, with one or the other way to do the rounds. -/
def compressWith (rounds : List (UInt32 × UInt32) → Words → Words) (state : Words) (buf : Bytes) : Words :=
  let S := rounds (K.zip (fillW 48 (loadW buf))) state
  Vector.zipWith (· + ·) state S

end Sha256

open Sha256

def sha256Compress : Words → Bytes → Words := compressWith (rounds 0)

/-- `sha256_compress` with `LTC_SMALL_CODE`. -/
def sha256CompressSmall : Words → Bytes → Words := compressWith smallRounds

/-! ### Taking input -/

/-- `struct sha256_state`; the other hashes differ in their words. -/
structure HashState (V : Type) where
  length : UInt64
  state : V
  curlen : ℕ
  buf : Bytes

/-- `XMEMCPY(md->buf + md->curlen, in, n)` and what goes with it. -/
def HashState.copy {V : Type} (md : HashState V) (inp : Bytes) : HashState V :=
  { md with
    buf := md.buf.take md.curlen ++ inp ++ md.buf.drop (md.curlen + inp.length)
    curlen := md.curlen + inp.length }

/-- The loop of `HASH_PROCESS`. A round that takes nothing empties a full buffer, so that there is at most
    one more than there are bytes. -/
def hashProcessLoop {V : Type} (compress : V → Bytes → V) (blockSize : ℕ) :
    ℕ → HashState V → Bytes → HashState V
  | 0, md, _ => md
  | fuel + 1, md, inp =>
    if inp = [] then md
    else if md.curlen = 0 ∧ blockSize ≤ inp.length then
      hashProcessLoop compress blockSize fuel
        { md with
          state := compress md.state (inp.take blockSize)
          length := md.length + UInt64.ofNat (blockSize * 8) }
        (inp.drop blockSize)
    else
      let n := min inp.length (blockSize - md.curlen)
      let md := md.copy (inp.take n)
      let inp := inp.drop n
      if md.curlen = blockSize then
        hashProcessLoop compress blockSize fuel
          { md with
            state := compress md.state md.buf
            length := md.length + UInt64.ofNat (8 * blockSize)
            curlen := 0 }
          inp
      else hashProcessLoop compress blockSize fuel md inp

/-- `HASH_PROCESS(func_name, compress_name, state_var, block_size)`. The sum in the check of the length is
    one of bits and bytes. -/
def hashProcess {V : Type} (compress : V → Bytes → V) (blockSize : ℕ) (md : HashState V) (inp : Bytes) :
    Except CryptError (HashState V) :=
  if md.curlen > md.buf.length then .error .invalidArg
  else if md.length + UInt64.ofNat inp.length < md.length then .error .hashOverflow
  else .ok (hashProcessLoop compress blockSize (inp.length + 1) md inp)

abbrev Sha256State := HashState Words

def Sha256.iv : Words :=
  #v[0x6A09E667, 0xBB67AE85, 0x3C6EF372, 0xA54FF53A, 0x510E527F, 0x9B05688C, 0x1F83D9AB, 0x5BE0CD19]

/-- `sha256_init` leaves the buffer as it is. -/
def sha256Init (md : Sha256State) : Sha256State := { md with curlen := 0, length := 0, state := Sha256.iv }

def sha256Process : Sha256State → Bytes → Except CryptError Sha256State := hashProcess sha256Compress 64

/-- `while (curlen < upto) buf[curlen++] = 0`. -/
def zeroFill (buf : Bytes) (curlen upto : ℕ) : Bytes :=
  buf.take curlen ++ List.replicate (upto - curlen) 0 ++ buf.drop upto

/-- The digest, and the state as it is left. -/
def sha256Done (md : Sha256State) : Except CryptError (Bytes × Sha256State) :=
  if md.curlen ≥ md.buf.length then .error .invalidArg
  else
    let length := md.length + UInt64.ofNat (md.curlen * 8)
    let buf := md.buf.set md.curlen 0x80
    let curlen := md.curlen + 1
    let (state, buf, curlen) :=
      if curlen > 56 then
        let buf := zeroFill buf curlen 64
        (sha256Compress md.state buf, buf, 0)
      else (md.state, buf, curlen)
    let buf := (zeroFill buf curlen 56).take 56 ++ store64h length
    let state := sha256Compress state buf
    .ok (state.toList.flatMap store32h, { length, state, curlen := 56, buf })

/-! ### SHA-256 -/

namespace Sha256

def ch (x y z : UInt32) : UInt32 := (x &&& y) ^^^ (~~~x &&& z)

def maj (x y z : UInt32) : UInt32 := (x &&& y) ^^^ (x &&& z) ^^^ (y &&& z)

/-- The forms of `Ch` and `Maj` in the code are those of the definition. -/
theorem Ch_eq (x y z : UInt32) : Ch x y z = ch x y z := by
  refine UInt32.toBitVec_inj.mp (BitVec.eq_of_getLsbD_eq fun i hi => ?_)
  simp only [Ch, ch, UInt32.toBitVec_xor, UInt32.toBitVec_and, UInt32.toBitVec_not, BitVec.getLsbD_xor,
    BitVec.getLsbD_and, BitVec.getLsbD_not, hi, decide_true, Bool.true_and]
  cases x.toBitVec.getLsbD i <;> cases y.toBitVec.getLsbD i <;> cases z.toBitVec.getLsbD i <;> rfl

theorem Maj_eq (x y z : UInt32) : Maj x y z = maj x y z := by
  refine UInt32.toBitVec_inj.mp (BitVec.eq_of_getLsbD_eq fun i _ => ?_)
  simp only [Maj, maj, UInt32.toBitVec_xor, UInt32.toBitVec_and, UInt32.toBitVec_or, BitVec.getLsbD_xor,
    BitVec.getLsbD_and, BitVec.getLsbD_or]
  cases x.toBitVec.getLsbD i <;> cases y.toBitVec.getLsbD i <;> cases z.toBitVec.getLsbD i <;> rfl

/-- One round: the new `a` and `e`, and all others moved on. -/
def round (v : Words) (k w : UInt32) : Words :=
  let T1 := v[7] + Sigma1 v[4] + ch v[4] v[5] v[6] + k + w
  let T2 := Sigma0 v[0] + maj v[0] v[1] v[2]
  #v[T1 + T2, v[0], v[1], v[2], v[3] + T1, v[4], v[5], v[6]]

/-- What is added to the `d` of a round. -/
def mix (S : Words) (a b c e f g h : Fin 8) (k w : UInt32) : UInt32 × UInt32 :=
  (S[h] + Sigma1 S[e] + ch S[e] S[f] S[g] + k + w, Sigma0 S[a] + maj S[a] S[b] S[c])

theorem getElem_rnd (S : Words) (a b c d e f g h : Fin 8) (k w : UInt32) (j : Fin 8) :
    (rnd S a b c d e f g h k w)[j] =
      if h = j then (mix S a b c e f g h k w).1 + (mix S a b c e f g h k w).2
      else if d = j then S[d] + (mix S a b c e f g h k w).1
      else S[j] := by
  simp only [rnd, mix, Ch_eq, Maj_eq, Fin.getElem_fin, Vector.getElem_set, Fin.val_inj]

theorem getElem_round (v : Words) (k w : UInt32) (j : Fin 8) :
    (round v k w)[j] =
      if j = 0 then (mix v 0 1 2 4 5 6 7 k w).1 + (mix v 0 1 2 4 5 6 7 k w).2
      else if j = 4 then v[(3 : Fin 8)] + (mix v 0 1 2 4 5 6 7 k w).1
      else v[j - 1] := by
  fin_cases j <;> rfl

theorem getElem_turn (S : Words) (j : Fin 8) : (turn S)[j] = S[j - 1] := by
  fin_cases j <;> rfl

theorem words_ext {S S' : Words} (h : ∀ j : Fin 8, S[j] = S'[j]) : S = S' :=
  Vector.ext fun i hi => h ⟨i, hi⟩

/-- Where line `i` has the `h` and the `d` of the round, and the words that it only moves. -/
theorem line_parts : ∀ i j : Fin 8, (7 - i = j - 1 - i ↔ j = 0) ∧ (3 - i = j - 1 - i ↔ j = 4) ∧
    j - (i + 1) = j - 1 - i := by decide

theorem smallRounds_eq (L : List (UInt32 × UInt32)) (S : Words) :
    smallRounds L S = L.foldl (fun v p => round v p.1 p.2) S := by
  induction L generalizing S with
  | nil => rfl
  | cons p L ih =>
    obtain ⟨k, w⟩ := p
    have hround : turn (rnd S 0 1 2 3 4 5 6 7 k w) = round S k w := by
      refine words_ext fun j => ?_
      obtain ⟨hh, hd, -⟩ := line_parts 0 j
      simp only [sub_zero] at hh hd
      rw [getElem_turn, getElem_rnd, getElem_round]
      simp only [hh, hd]
    rw [smallRounds, List.foldl_cons, hround, ih]

/-- The lines that are written out leave the words where they are and move the parts that they have. -/
theorem getElem_rounds (L : List (UInt32 × UInt32)) {i : Fin 8} {S v : Words}
    (h : ∀ j : Fin 8, v[j] = S[j - i]) (j : Fin 8) :
    (L.foldl (fun v p => round v p.1 p.2) v)[j] = (rounds i L S)[j - (· + 1)^[L.length] i] := by
  induction L generalizing i S v with
  | nil => exact h j
  | cons p L ih =>
    obtain ⟨k, w⟩ := p
    have hmix : mix v 0 1 2 4 5 6 7 k w =
        mix S (0 - i) (1 - i) (2 - i) (4 - i) (5 - i) (6 - i) (7 - i) k w := by
      simp only [mix, h]
    have hstep : ∀ j : Fin 8, (round v k w)[j] =
        (rnd S (0 - i) (1 - i) (2 - i) (3 - i) (4 - i) (5 - i) (6 - i) (7 - i) k w)[j - (i + 1)] := by
      intro j
      obtain ⟨hh, hd, hrest⟩ := line_parts i j
      simp only [hrest]
      rw [getElem_round, getElem_rnd, hmix, h, h]
      simp only [hh, hd]
    exact ih hstep

/-- Eight lines are a turn, so after 64 all parts are where they were. -/
theorem rounds_eq {L : List (UInt32 × UInt32)} (hlen : L.length = 64) (S : Words) :
    rounds 0 L S = L.foldl (fun v p => round v p.1 p.2) S := by
  refine words_ext fun j => ?_
  have hj := getElem_rounds L (i := 0) (S := S) (v := S) (fun j => by simp only [sub_zero]) j
  have hturns : (· + 1)^[64] (0 : Fin 8) = 0 := rfl
  simp only [hlen, hturns, sub_zero] at hj
  exact hj.symm

/-! ### The schedule -/

/-- `W_t` of a block. -/
def schedule (block : Bytes) (t : ℕ) : UInt32 :=
  if t < 16 then load32h (block.drop (4 * t))
  else Gamma1 (schedule block (t - 2)) + schedule block (t - 7) + Gamma0 (schedule block (t - 15)) +
    schedule block (t - 16)

theorem fillW_eq (block : Bytes) (n : ℕ) {m : ℕ} (hm : 16 ≤ m) :
    fillW n ((List.range m).map (schedule block)) = (List.range (m + n)).map (schedule block) := by
  induction n generalizing m with
  | zero => rfl
  | succ n ih =>
    have hget : ∀ t < m, ((List.range m).map (schedule block)).getD t 0 = schedule block t := by
      intro t ht
      rw [List.getD_eq_getElem?_getD, List.getElem?_map, List.getElem?_range ht]
      rfl
    have hnext : nextW ((List.range m).map (schedule block)) = schedule block m := by
      rw [schedule, if_neg (by omega), nextW, List.length_map, List.length_range, hget _ (by omega),
        hget _ (by omega), hget _ (by omega), hget _ (by omega)]
    have hsucc : (List.range m).map (schedule block) ++ [nextW ((List.range m).map (schedule block))] =
        (List.range (m + 1)).map (schedule block) := by
      rw [hnext, List.range_succ, List.map_append, List.map_singleton]
    rw [fillW, hsucc, ih (by omega), Nat.add_right_comm, Nat.add_assoc]

theorem loadW_eq (block : Bytes) : loadW block = (List.range 16).map (schedule block) := by
  refine List.map_congr_left fun t ht => ?_
  rw [schedule, if_pos (List.mem_range.mp ht)]

/-- The compression of SHA-256. -/
def compress (state : Words) (block : Bytes) : Words :=
  Vector.zipWith (· + ·) state
    ((K.zip ((List.range 64).map (schedule block))).foldl (fun v p => round v p.1 p.2) state)

end Sha256

theorem sha256Compress_eq : sha256Compress = compress := by
  funext state block
  rw [sha256Compress, compressWith, compress, loadW_eq, fillW_eq block 48 le_rfl, rounds_eq]
  simp [K]

theorem sha256CompressSmall_eq : sha256CompressSmall = compress := by
  funext state block
  rw [sha256CompressSmall, compressWith, compress, loadW_eq, fillW_eq block 48 le_rfl, smallRounds_eq]

/-- Whichever way the rounds are written, the compression is that of SHA-256. -/
theorem sha256_builds (state : Words) (block : Bytes) :
    sha256Compress state block = compress state block ∧ sha256CompressSmall state block = compress state block :=
  ⟨congrFun₂ sha256Compress_eq state block, congrFun₂ sha256CompressSmall_eq state block⟩

/-! ### Messages in pieces -/

/-- What a state is that has taken in `msg`: the whole blocks are compressed and counted in bits, the rest
    is in the buffer. -/
structure HashState.Took {V : Type} (compress : V → Bytes → V) (size : ℕ) (iv : V) (md : HashState V)
    (msg : Bytes) : Prop where
  buf_length : md.buf.length = size
  absorbed : BlockHash.absorb compress size (iv, []) msg = (md.state, md.buf.take md.curlen)
  curlen : md.curlen = msg.length % size
  length : md.length = UInt64.ofNat (8 * (msg.length - md.curlen))

section
variable {V : Type} {compress : V → Bytes → V} {size : ℕ} {iv : V} {md : HashState V} {msg : Bytes}

theorem HashState.take_copy {md : HashState V} {inp : Bytes} (h : md.curlen + inp.length ≤ md.buf.length) :
    (md.copy inp).buf.length = md.buf.length ∧
      (md.copy inp).buf.take (md.copy inp).curlen = md.buf.take md.curlen ++ inp := by
  have hfront : (md.buf.take md.curlen ++ inp).length = md.curlen + inp.length := by
    rw [List.length_append, List.length_take_of_le (by omega)]
  constructor
  · rw [HashState.copy, List.length_append, hfront, List.length_drop]
    omega
  · rw [HashState.copy]
    exact List.take_left' hfront

theorem HashState.Took.curlen_lt (h : md.Took compress size iv msg) (hsize : 0 < size) : md.curlen < size := by
  rw [h.curlen]
  exact Nat.mod_lt _ hsize

/-- A block that does not go through the buffer. -/
theorem HashState.Took.block (h : md.Took compress size iv msg) (hsize : 0 < size) (hempty : md.curlen = 0)
    {block : Bytes} (hblock : block.length = size) :
    HashState.Took compress size iv
      { md with
        state := compress md.state block
        length := md.length + UInt64.ofNat (size * 8) } (msg ++ block) := by
  have hne : block ≠ [] := by
    rintro rfl
    rw [List.length_nil] at hblock
    omega
  refine ⟨h.buf_length, ?_, ?_, ?_⟩
  · rw [BlockHash.absorb_append, h.absorbed, hempty, List.take_zero,
      BlockHash.absorb_fill hne (by rw [List.length_nil, Nat.zero_add, hblock]), List.nil_append]
  · rw [List.length_append, hblock, Nat.add_mod_right]
    exact h.curlen
  · show md.length + UInt64.ofNat (size * 8) = UInt64.ofNat (8 * ((msg ++ block).length - md.curlen))
    rw [h.length, ← UInt64.ofNat_add, hempty, List.length_append, hblock]
    congr 1
    omega

/-- Bytes that go to the buffer and do not fill it. -/
theorem HashState.Took.short (h : md.Took compress size iv msg) {piece : Bytes}
    (hlen : md.curlen + piece.length < size) : (md.copy piece).Took compress size iv (msg ++ piece) := by
  have hbuf := h.buf_length
  obtain ⟨hlength, htake⟩ := md.take_copy (show md.curlen + piece.length ≤ md.buf.length by omega)
  have hcur : (md.buf.take md.curlen).length = md.curlen := List.length_take_of_le (by omega)
  have hmod := Nat.div_add_mod msg.length size
  rw [← h.curlen] at hmod
  refine ⟨hlength.trans hbuf, ?_, ?_, ?_⟩
  · rw [BlockHash.absorb_append, h.absorbed, BlockHash.absorb_short (by rw [hcur]; exact hlen), htake]
    rfl
  · have htotal : (msg ++ piece).length = size * (msg.length / size) + (md.curlen + piece.length) := by
      rw [List.length_append]
      omega
    rw [htotal, Nat.mul_add_mod, Nat.mod_eq_of_lt hlen]
    rfl
  · show md.length = UInt64.ofNat (8 * ((msg ++ piece).length - (md.curlen + piece.length)))
    rw [h.length, List.length_append]
    congr 1
    omega

/-- Bytes that fill the buffer. -/
theorem HashState.Took.fill (h : md.Took compress size iv msg) {piece : Bytes} (hne : piece ≠ [])
    (hlen : md.curlen + piece.length = size) :
    HashState.Took compress size iv
      { md.copy piece with
        state := compress md.state (md.copy piece).buf
        length := md.length + UInt64.ofNat (8 * size)
        curlen := 0 } (msg ++ piece) := by
  have hbuf := h.buf_length
  obtain ⟨hlength, htake⟩ := md.take_copy (show md.curlen + piece.length ≤ md.buf.length by omega)
  have hcur : (md.buf.take md.curlen).length = md.curlen := List.length_take_of_le (by omega)
  have hfull : (md.copy piece).buf = md.buf.take md.curlen ++ piece := by
    rw [← htake]
    exact (List.take_of_length_le (by rw [hlength, hbuf]; exact hlen.ge)).symm
  have hmod := Nat.div_add_mod msg.length size
  rw [← h.curlen] at hmod
  have htotal : (msg ++ piece).length = size * (msg.length / size + 1) := by
    rw [List.length_append, Nat.mul_succ]
    omega
  refine ⟨hlength.trans hbuf, ?_, ?_, ?_⟩
  · rw [BlockHash.absorb_append, h.absorbed, BlockHash.absorb_fill hne (by rw [hcur]; exact hlen), hfull]
    rfl
  · rw [htotal, Nat.mul_mod_right]
  · show md.length + UInt64.ofNat (8 * size) = UInt64.ofNat (8 * ((msg ++ piece).length - 0))
    rw [h.length, ← UInt64.ofNat_add, htotal, Nat.mul_succ]
    congr 1
    omega

/-- The loop takes in all that it is given. -/
theorem hashProcessLoop_took (hsize : 0 < size) {fuel : ℕ} {inp : Bytes} (hfuel : inp.length < fuel)
    (h : md.Took compress size iv msg) :
    (hashProcessLoop compress size fuel md inp).Took compress size iv (msg ++ inp) := by
  induction fuel generalizing md msg inp with
  | zero => exact absurd hfuel (Nat.not_lt_zero _)
  | succ fuel ih =>
    have hcur := h.curlen_lt hsize
    rw [hashProcessLoop]
    split_ifs with hnil hblock
    · rw [hnil, List.append_nil]
      exact h
    · obtain ⟨hempty, hlen⟩ := hblock
      have hrest := ih (show (inp.drop size).length < fuel by rw [List.length_drop]; omega)
        (h.block hsize hempty (List.length_take_of_le hlen))
      rwa [List.append_assoc, List.take_append_drop] at hrest
    · have hpos : 0 < inp.length := List.length_pos_iff.mpr hnil
      have htake : (inp.take (min inp.length (size - md.curlen))).length =
          min inp.length (size - md.curlen) := List.length_take_of_le (Nat.min_le_left _ _)
      have hdrop : (inp.drop (min inp.length (size - md.curlen))).length < fuel := by
        rw [List.length_drop]
        omega
      simp only
      split
      · -- the buffer is full
        rename_i hfull
        have hne : inp.take (min inp.length (size - md.curlen)) ≠ [] := by
          rw [← List.length_pos_iff, htake]
          omega
        have hrest := ih hdrop (h.fill hne hfull)
        rwa [List.append_assoc, List.take_append_drop] at hrest
      · -- all of the input is in the buffer
        rename_i hroom
        have hroom : md.curlen + (inp.take (min inp.length (size - md.curlen))).length ≠ size := hroom
        have hrest := ih hdrop
          (h.short (show md.curlen + (inp.take (min inp.length (size - md.curlen))).length < size by omega))
        rwa [List.append_assoc, List.take_append_drop] at hrest

theorem hashProcess_took (hsize : 0 < size) {inp : Bytes} (h : md.Took compress size iv msg)
    (hlen : msg.length + inp.length < 2 ^ 60) :
    ∃ md', hashProcess compress size md inp = .ok md' ∧ md'.Took compress size iv (msg ++ inp) := by
  have hcur := h.curlen_lt hsize
  have hbuf := h.buf_length
  have hbits : md.length.toNat = 8 * (msg.length - md.curlen) := by
    rw [h.length]
    exact UInt64.toNat_ofNat_of_lt' (show _ < 2 ^ 64 by omega)
  have hbytes : (UInt64.ofNat inp.length).toNat = inp.length :=
    UInt64.toNat_ofNat_of_lt' (show _ < 2 ^ 64 by omega)
  have hno : ¬ md.length + UInt64.ofNat inp.length < md.length := by
    rw [UInt64.lt_iff_toNat_lt, UInt64.toNat_add, hbits, hbytes]
    omega
  rw [hashProcess, if_neg (by omega), if_neg hno]
  exact ⟨_, rfl, hashProcessLoop_took hsize (Nat.lt_succ_self _) h⟩

end

/-! ### The digest -/

/-- The length of a message in bits. -/
def Sha256.lengthOf (n : ℕ) : Bytes := store64h (UInt64.ofNat (8 * n))

/-- SHA-256. -/
def Sha256.hash (msg : Bytes) : Bytes :=
  (BlockHash.hash compress 64 lengthOf iv msg).toList.flatMap store32h

theorem take_set_succ {l : Bytes} {i : ℕ} (hi : i < l.length) (b : UInt8) :
    (l.set i b).take (i + 1) = l.take i ++ [b] := by
  rw [List.take_succ_eq_append_getElem (by rw [List.length_set]; exact hi), List.take_set_of_le le_rfl,
    List.getElem_set_self]

/-- How many zeros there are is seen from the rest of the message. -/
theorem zeros_eq {n r : ℕ} (hr : r = n % 64) :
    BlockHash.zeros 64 8 n = if r + 1 > 56 then (63 - r) + 56 else 55 - r := by
  rw [BlockHash.zeros]
  split <;> omega

/-- The mark and the zeros that `sha256_done` puts behind what is in the buffer. -/
theorem take_zeroFill {buf : Bytes} {r upto : ℕ} (hr : r < upto) (hupto : upto ≤ buf.length) :
    (zeroFill (buf.set r 0x80) (r + 1) upto).take upto =
      buf.take r ++ 0x80 :: List.replicate (upto - (r + 1)) 0 := by
  have hmark : (buf.set r 0x80).take (r + 1) = buf.take r ++ [0x80] := take_set_succ (by omega) _
  have hlen : (buf.take r ++ [0x80] ++ List.replicate (upto - (r + 1)) 0).length = upto := by
    rw [List.length_append, List.length_append, List.length_take_of_le (by omega), List.length_singleton,
      List.length_replicate]
    omega
  rw [zeroFill, hmark, List.take_left' hlen, List.append_assoc, List.singleton_append]

/-- The bits that are still to be counted are those of the buffer. -/
theorem HashState.Took.bits {V : Type} {compress : V → Bytes → V} {size : ℕ} {iv : V} {md : HashState V}
    {msg : Bytes} (h : md.Took compress size iv msg) :
    md.length + UInt64.ofNat (md.curlen * 8) = UInt64.ofNat (8 * msg.length) := by
  have hle : md.curlen ≤ msg.length := by
    rw [h.curlen]
    exact Nat.mod_le _ _
  rw [h.length, ← UInt64.ofNat_add]
  congr 1
  omega

/-- The mark and the zeros that fill the buffer where the length does not fit behind them. -/
theorem zeroFill_mark {buf : Bytes} {r : ℕ} (hbuf : buf.length = 64) (hr : r < 64) :
    zeroFill (buf.set r 0x80) (r + 1) 64 = buf.take r ++ 0x80 :: List.replicate (63 - r) 0 := by
  have htake := take_zeroFill hr hbuf.ge
  have hall : (zeroFill (buf.set r 0x80) (r + 1) 64).length ≤ 64 := by
    simp [zeroFill, hbuf]
    omega
  rwa [List.take_of_length_le hall, Nat.sub_add_eq, Nat.sub_right_comm] at htake

theorem sha256Done_took {md : Sha256State} {msg : Bytes} (h : md.Took compress 64 iv msg) :
    ∃ md', sha256Done md = .ok (Sha256.hash msg, md') ∧ md'.buf.length = 64 := by
  have hcur := h.curlen_lt (by norm_num)
  have hbuf := h.buf_length
  have hlen : (md.buf.take md.curlen).length = md.curlen := List.length_take_of_le (by omega)
  have hlength := h.bits
  have hfield : (lengthOf msg.length).length = 8 := rfl
  have hpad : BlockHash.absorb compress 64 (iv, []) (BlockHash.pad 64 lengthOf msg) =
      (BlockHash.hash compress 64 lengthOf iv msg, []) := BlockHash.absorb_pad (by norm_num) lengthOf iv msg
  rw [BlockHash.pad, BlockHash.absorb_append, h.absorbed, hfield, zeros_eq h.curlen] at hpad
  rw [sha256Done, if_neg (by omega), sha256Compress_eq, hlength]
  simp only
  split_ifs at hpad ⊢ with hlong
  · -- the mark still fits, the length does not
    have hfirst := zeroFill_mark hbuf hcur
    have hsecond : (zeroFill (zeroFill (md.buf.set md.curlen 0x80) (md.curlen + 1) 64) 0 56).take 56 =
        List.replicate 56 0 := by
      rw [zeroFill, List.take_zero, List.nil_append, Nat.sub_zero, List.take_left' List.length_replicate]
    have hmsg : (0x80 : UInt8) :: (List.replicate (63 - md.curlen + 56) 0 ++ lengthOf msg.length) =
        0x80 :: List.replicate (63 - md.curlen) 0 ++ (List.replicate 56 0 ++ lengthOf msg.length) := by
      rw [← List.replicate_append_replicate, List.append_assoc, List.cons_append]
    rw [hmsg, BlockHash.absorb_append,
      BlockHash.absorb_fill (List.cons_ne_nil _ _)
        (by rw [hlen, List.length_cons, List.length_replicate]; omega),
      BlockHash.absorb_fill (by simp) (by simp [hfield]), List.nil_append] at hpad
    rw [hfirst] at hsecond ⊢
    rw [hsecond, Sha256.hash, ← (Prod.mk.inj hpad).1]
    exact ⟨_, rfl, by simp [store64h]⟩
  · have hlast := take_zeroFill (show md.curlen < 56 by omega) (show 56 ≤ md.buf.length by omega)
    rw [BlockHash.absorb_fill (List.cons_ne_nil _ _)
      (by rw [hlen, List.length_cons, List.length_append, List.length_replicate, hfield]; omega)] at hpad
    have hzeros : 56 - (md.curlen + 1) = 55 - md.curlen := by omega
    rw [hlast, Sha256.hash, ← (Prod.mk.inj hpad).1, List.append_assoc, List.cons_append, hzeros]
    exact ⟨_, rfl, by simp [hlen, store64h]; omega⟩

/-! ### Descriptors -/

/-- The entries of `hash_descriptor` that are used here. `init` sets up memory that held something else. -/
structure HashDescriptor (S : Type) where
  hashsize : ℕ
  blocksize : ℕ
  init : S → Except CryptError S
  process : S → Bytes → Except CryptError S
  done : S → Except CryptError (Bytes × S)

/-- The functions of a descriptor take in a message of fewer than `limit` bytes piece by piece and give its
    hash. What they leave can be set up again. -/
structure HashDescriptor.Streams {S : Type} (desc : HashDescriptor S) (usable : S → Prop)
    (took : S → Bytes → Prop) (limit : ℕ) (hash : Bytes → Bytes) : Prop where
  length_hash : ∀ msg, (hash msg).length = desc.hashsize
  init : ∀ {md}, usable md → ∃ md', desc.init md = .ok md' ∧ took md' []
  process : ∀ {md msg inp}, took md msg → msg.length + inp.length < limit →
    ∃ md', desc.process md inp = .ok md' ∧ took md' (msg ++ inp)
  done : ∀ {md msg}, took md msg → ∃ md', desc.done md = .ok (hash msg, md') ∧ usable md'

section
variable {S : Type} {desc : HashDescriptor S} {usable : S → Prop} {took : S → Bytes → Prop} {limit : ℕ}
  {hash : Bytes → Bytes}

/-- Any number of pieces. -/
theorem HashDescriptor.Streams.foldlM (h : desc.Streams usable took limit hash) {md : S} {msg : Bytes}
    (htook : took md msg) (pieces : List Bytes) (hlen : msg.length + pieces.flatten.length < limit) :
    ∃ md', pieces.foldlM desc.process md = .ok md' ∧ took md' (msg ++ pieces.flatten) := by
  induction pieces generalizing md msg with
  | nil => exact ⟨md, rfl, by rwa [List.flatten_nil, List.append_nil]⟩
  | cons piece pieces ih =>
    rw [List.flatten_cons, List.length_append] at hlen
    obtain ⟨md', hrun, hpiece⟩ := h.process htook (show msg.length + piece.length < limit by omega)
    obtain ⟨md'', hruns, hpieces⟩ := ih hpiece (by rw [List.length_append]; omega)
    refine ⟨md'', ?_, by rwa [List.flatten_cons, ← List.append_assoc]⟩
    rw [List.foldlM_cons, hrun]
    exact hruns

end

def sha256Desc : HashDescriptor Sha256State where
  hashsize := 32
  blocksize := 64
  init md := .ok (sha256Init md)
  process := sha256Process
  done := sha256Done

theorem Sha256.length_hash (msg : Bytes) : (Sha256.hash msg).length = 32 := by
  have hwords : ∀ words : List UInt32, (words.flatMap store32h).length = 4 * words.length := by
    intro words
    induction words with
    | nil => rfl
    | cons w words ih =>
      rw [List.flatMap_cons, List.length_append, ih, List.length_cons, Nat.mul_succ, Nat.add_comm]
      rfl
  rw [Sha256.hash, hwords, Vector.length_toList]

theorem sha256Desc_streams : sha256Desc.Streams (fun md => md.buf.length = 64)
    (fun md msg => md.Took compress 64 iv msg) (2 ^ 60) Sha256.hash where
  length_hash := Sha256.length_hash
  init hbuf := ⟨_, rfl, hbuf, rfl, rfl, rfl⟩
  process htook hlen := by
    rw [sha256Desc, sha256Process, sha256Compress_eq]
    exact hashProcess_took (by norm_num) htook hlen
  done htook := sha256Done_took htook

/-- The digest is the SHA-256 of all that came in, in whatever pieces it came and whatever the state held
    before `sha256_init`. -/
theorem sha256_pieces (md : Sha256State) (hbuf : md.buf.length = 64) (pieces : List Bytes)
    (hlen : pieces.flatten.length < 2 ^ 60) :
    ∃ md', (pieces.foldlM sha256Process (sha256Init md) >>= sha256Done) =
      .ok (Sha256.hash pieces.flatten, md') := by
  obtain ⟨md₀, hinit, hnil⟩ := sha256Desc_streams.init hbuf
  obtain ⟨md₁, hrun, htook⟩ := sha256Desc_streams.foldlM hnil pieces
    (by rw [List.length_nil, Nat.zero_add]; exact hlen)
  obtain ⟨md₂, hdone, -⟩ := sha256Desc_streams.done htook
  cases hinit
  refine ⟨md₂, ?_⟩
  show (pieces.foldlM sha256Desc.process (sha256Init md) >>= sha256Desc.done) = _
  rw [hrun]
  exact hdone

theorem sha256_pieces_abc :
    ∃ md', ([[97], [98, 99]].foldlM sha256Process (sha256Init ⟨5, Sha256.iv, 7, List.replicate 64 1⟩) >>=
      sha256Done) = .ok (Sha256.hash [97, 98, 99], md') :=
  sha256_pieces ⟨5, Sha256.iv, 7, List.replicate 64 1⟩ rfl [[97], [98, 99]] (by decide)

/-- The first of the vectors in `sha256_test`. -/
example : ([[97], [98, 99]].foldlM sha256Process (sha256Init ⟨5, Sha256.iv, 7, List.replicate 64 1⟩) >>=
      sha256Done).map Prod.fst = .ok
    [0xba, 0x78, 0x16, 0xbf, 0x8f, 0x01, 0xcf, 0xea, 0x41, 0x41, 0x40, 0xde, 0x5d, 0xae, 0x22, 0x23,
      0xb0, 0x03, 0x61, 0xa3, 0x96, 0x17, 0x7a, 0x9c, 0xb4, 0x10, 0xff, 0x61, 0xf2, 0x00, 0x15, 0xad] := by
  decide +kernel

end DSSE
