import DSSE.CtrMode
import DSSE.AesTab
import DSSE.Schemes.Rijndael

/-! `aes.c` of libtomcrypt: the key schedule and the enciphering of a block, with tables for a whole round.
    With `LTC_SMALL_CODE` most tables are made from one, and the loop over the rounds is another. -/

namespace DSSE
open Schemes

namespace Aes

/-- `byte(x, n)`. -/
def byte (x n : UInt32) : UInt8 := (x >>> (8 * n)).toUInt8

def entry (table : List UInt32) (x : UInt8) : UInt32 := table.getD x.toNat 0

variable (small : Bool)

def Te0 (x : UInt8) : UInt32 := entry TE0 x

def Te1 (x : UInt8) : UInt32 := if small then Sha256.ror (entry TE0 x) 8 else entry TE1 x

def Te2 (x : UInt8) : UInt32 := if small then Sha256.ror (entry TE0 x) 16 else entry TE2 x

def Te3 (x : UInt8) : UInt32 := if small then Sha256.ror (entry TE0 x) 24 else entry TE3 x

/-- `Te4_0[x]` and its siblings. -/
def last0 (x : UInt8) : UInt32 := if small then 0x000000FF &&& entry Te4 x else entry Te4_0 x

def last1 (x : UInt8) : UInt32 := if small then 0x0000FF00 &&& entry Te4 x else entry Te4_1 x

def last2 (x : UInt8) : UInt32 := if small then 0x00FF0000 &&& entry Te4 x else entry Te4_2 x

def last3 (x : UInt8) : UInt32 := if small then 0xFF000000 &&& entry Te4 x else entry Te4_3 x

def setupMix (temp : UInt32) : UInt32 :=
  last3 small (byte temp 2) ^^^ last2 small (byte temp 1) ^^^ last1 small (byte temp 0) ^^^
    last0 small (byte temp 3)

/-! ### The key schedule -/

/-- The lines for `rk[nk]` to `rk[nk + 3]` in a round of the loop; `nk` is 4, 6 or 8. -/
def firstFour (nk i : ℕ) (rk : List UInt32) : List UInt32 :=
  let a := rk.getD 0 0 ^^^ setupMix small (rk.getD (nk - 1) 0) ^^^ rcon.getD i 0
  let b := rk.getD 1 0 ^^^ a
  let c := rk.getD 2 0 ^^^ b
  let d := rk.getD 3 0 ^^^ c
  [a, b, c, d]

/-- The loop for a key of 16 bytes, with `n` rounds to go: what it puts behind the words `rk`. -/
def expand16 : ℕ → ℕ → List UInt32 → List UInt32
  | 0, _, _ => []
  | n + 1, i, rk =>
    let new := firstFour small 4 i rk
    if n = 0 then new else new ++ expand16 n (i + 1) new

def expand24 : ℕ → ℕ → List UInt32 → List UInt32
  | 0, _, _ => []
  | n + 1, i, rk =>
    let new := firstFour small 6 i rk
    if n = 0 then new
    else
      let rk10 := rk.getD 4 0 ^^^ new.getD 3 0
      let rk11 := rk.getD 5 0 ^^^ rk10
      let new := new ++ [rk10, rk11]
      new ++ expand24 n (i + 1) new

def expand32 : ℕ → ℕ → List UInt32 → List UInt32
  | 0, _, _ => []
  | n + 1, i, rk =>
    let new := firstFour small 8 i rk
    if n = 0 then new
    else
      let rk12 := rk.getD 4 0 ^^^ setupMix small (Sha256.ror (new.getD 3 0) 8)
      let rk13 := rk.getD 5 0 ^^^ rk12
      let rk14 := rk.getD 6 0 ^^^ rk13
      let rk15 := rk.getD 7 0 ^^^ rk14
      let new := new ++ [rk12, rk13, rk14, rk15]
      new ++ expand32 n (i + 1) new

/-! ### Rounds -/

/-- `s0`, `s1`, `s2`, `s3`. -/
structure Columns where
  s0 : UInt32
  s1 : UInt32
  s2 : UInt32
  s3 : UInt32

/-- One line of a round. -/
def line (a b c d k : UInt32) : UInt32 :=
  Te0 (byte a 3) ^^^ Te1 small (byte b 2) ^^^ Te2 small (byte c 1) ^^^ Te3 small (byte d 0) ^^^ k

def fullRound (s : Columns) (rk : List UInt32) : Columns where
  s0 := line small s.s0 s.s1 s.s2 s.s3 (rk.getD 0 0)
  s1 := line small s.s1 s.s2 s.s3 s.s0 (rk.getD 1 0)
  s2 := line small s.s2 s.s3 s.s0 s.s1 (rk.getD 2 0)
  s3 := line small s.s3 s.s0 s.s1 s.s2 (rk.getD 3 0)

/-- The loop that does two rounds at a time: the columns `t0` to `t3` and `rk` as it leaves them. -/
def roundsLoop : ℕ → Columns → List UInt32 → Columns × List UInt32
  | 0, s, rk => (s, rk)
  | r + 1, s, rk =>
    let t := fullRound small s (rk.drop 4)
    let rk := rk.drop 8
    if r = 0 then (t, rk) else roundsLoop r (fullRound small t rk) rk

/-- The loop with `LTC_SMALL_CODE`, with `n` rounds to go. -/
def smallLoop : ℕ → Columns → List UInt32 → Columns × List UInt32
  | 0, s, rk => (s, rk)
  | n + 1, s, rk =>
    let rk := rk.drop 4
    let t := fullRound small s rk
    if n = 0 then (t, rk) else smallLoop n t rk

def lastLine (a b c d k : UInt32) : UInt32 :=
  last3 small (byte a 3) ^^^ last2 small (byte b 2) ^^^ last1 small (byte c 1) ^^^ last0 small (byte d 0) ^^^ k

/-- The last round, and the columns stored. -/
def lastRound (t : Columns) (rk : List UInt32) : Bytes :=
  store32h (lastLine small t.s0 t.s1 t.s2 t.s3 (rk.getD 0 0)) ++
    store32h (lastLine small t.s1 t.s2 t.s3 t.s0 (rk.getD 1 0)) ++
    store32h (lastLine small t.s2 t.s3 t.s0 t.s1 (rk.getD 2 0)) ++
    store32h (lastLine small t.s3 t.s0 t.s1 t.s2 (rk.getD 3 0))

end Aes

open Aes

/-- `rijndael_key`, without the keys for deciphering. -/
structure RijndaelKey where
  eK : List UInt32
  Nr : ℕ

/-- The words that `LOAD32H` reads of a key. -/
def loadWords (n : ℕ) (key : Bytes) : List UInt32 := (List.range n).map fun i => load32h (key.drop (4 * i))

def rijndaelSetup (small : Bool) (key : Bytes) (numRounds : ℤ) : Except CryptError RijndaelKey :=
  let keylen := key.length
  if keylen ≠ 16 ∧ keylen ≠ 24 ∧ keylen ≠ 32 then .error .invalidKeysize
  else if numRounds ≠ 0 ∧ numRounds ≠ 10 + (keylen / 8 - 2) * 2 then .error .invalidRounds
  else
    let rk := loadWords (keylen / 4) key
    let more :=
      if keylen = 16 then expand16 small 10 0 rk
      else if keylen = 24 then expand24 small 8 0 rk
      else expand32 small 7 0 rk
    .ok { eK := rk ++ more, Nr := 10 + (keylen / 8 - 2) * 2 }

def rijndaelEcbEncrypt (small : Bool) (pt : Bytes) (skey : RijndaelKey) : Except CryptError Bytes :=
  let rk := skey.eK
  let s : Columns :=
    { s0 := load32h pt ^^^ rk.getD 0 0
      s1 := load32h (pt.drop 4) ^^^ rk.getD 1 0
      s2 := load32h (pt.drop 8) ^^^ rk.getD 2 0
      s3 := load32h (pt.drop 12) ^^^ rk.getD 3 0 }
  let (t, rk) :=
    if small then
      let (t, rk) := smallLoop small (skey.Nr - 1) s rk
      (t, rk.drop 4)
    else roundsLoop small (skey.Nr / 2) s rk
  .ok (lastRound small t rk)

def aesDesc (small : Bool) : CipherDescriptor RijndaelKey where
  blockLength := 16
  setup := rijndaelSetup small
  ecbEncrypt := rijndaelEcbEncrypt small
  accelCtrEncrypt := none

end DSSE
