import DSSE.Schemes.Ctr

/-! The block cipher AES, over bytes in four rows and four columns. The bits of a byte are the coefficients of
    a polynomial over the field of two elements, modulo `x^8 + x^4 + x^3 + x + 1`. -/

namespace Schemes.Rijndael

/-! ### The field -/

/-- A polynomial times `x`. -/
def xtime (a : ℕ) : ℕ := if a < 128 then 2 * a else (2 * a) ^^^ 0x11b

/-- A polynomial times the lowest `n` terms of another. -/
def mulTerms : ℕ → ℕ → ℕ → ℕ
  | 0, _, _ => 0
  | n + 1, a, b => (if b % 2 = 0 then 0 else a) ^^^ mulTerms n (xtime a) (b / 2)

def mul (a b : UInt8) : UInt8 := UInt8.ofNat (mulTerms 8 a.toNat b.toNat)

/-- The inverse is the 254th power; that of zero is zero. -/
def inv (b : UInt8) : UInt8 :=
  let b2 := mul b b
  let b4 := mul b2 b2
  let b8 := mul b4 b4
  let b16 := mul b8 b8
  let b32 := mul b16 b16
  let b64 := mul b32 b32
  let b128 := mul b64 b64
  mul b128 (mul b64 (mul b32 (mul b16 (mul b8 (mul b4 b2)))))

def rotl (b k : UInt8) : UInt8 := b <<< k ||| b >>> (8 - k)

/-- The inverse under an affine map. -/
def sbox (b : UInt8) : UInt8 :=
  inv b ^^^ rotl (inv b) 1 ^^^ rotl (inv b) 2 ^^^ rotl (inv b) 3 ^^^ rotl (inv b) 4 ^^^ 0x63

/-! ### Rounds -/

/-- Four bytes: a word of the key, a column of the state. -/
abbrev Word := Fin 4 → UInt8

/-- The byte in a row and a column. -/
abbrev State := Fin 4 → Fin 4 → UInt8

/-- The matrix whose rows are one row moved on. -/
def circulant (row : Word) (r i : Fin 4) : UInt8 := row (i - r)

/-- A column times a matrix. -/
def mixBy (M : Fin 4 → Fin 4 → UInt8) (v : Word) : Word := fun r =>
  mul (v 0) (M r 0) ^^^ mul (v 1) (M r 1) ^^^ mul (v 2) (M r 2) ^^^ mul (v 3) (M r 3)

def mixMatrix : Fin 4 → Fin 4 → UInt8 := circulant ![2, 3, 1, 1]

def subBytes (s : State) : State := fun r c => sbox (s r c)

def shiftRows (s : State) : State := fun r c => s r (c + r)

def mixColumns (s : State) : State := fun r c => mixBy mixMatrix (fun i => s i c) r

/-- A round key has a word for each column. -/
def addRoundKey (k : Fin 4 → Word) (s : State) : State := fun r c => s r c ^^^ k c r

def round (k : Fin 4 → Word) (s : State) : State := addRoundKey k (mixColumns (shiftRows (subBytes s)))

def lastRound (k : Fin 4 → Word) (s : State) : State := addRoundKey k (shiftRows (subBytes s))

/-! ### Round keys -/

def subWord (w : Word) : Word := fun r => sbox (w r)

def rotWord (w : Word) : Word := fun r => w (r + 1)

def xorWord (w w' : Word) : Word := fun r => w r ^^^ w' r

def rconWord (j : ℕ) : Word := ![UInt8.ofNat (xtime^[j - 1] 1), 0, 0, 0]

/-- Word `i` of the expanded key; the key itself has `nk` words. -/
def keyWord (nk : ℕ) (key : Bytes) (i : ℕ) : Word :=
  if h : i < nk ∨ nk = 0 then fun r => key.getD (4 * i + r) 0
  else
    let temp := keyWord nk key (i - 1)
    xorWord (keyWord nk key (i - nk))
      (if i % nk = 0 then xorWord (subWord (rotWord temp)) (rconWord (i / nk))
      else if nk > 6 ∧ i % nk = 4 then subWord temp
      else temp)
termination_by i
decreasing_by all_goals omega

def roundKey (nk : ℕ) (key : Bytes) (n : ℕ) : Fin 4 → Word := fun c => keyWord nk key (4 * n + c)

/-! ### The cipher -/

/-- The first `n` rounds behind the addition of the first round key. -/
def rounds (nk : ℕ) (key : Bytes) : ℕ → State → State
  | 0, s => addRoundKey (roundKey nk key 0) s
  | n + 1, s => round (roundKey nk key (n + 1)) (rounds nk key n s)

/-- Blocks fill the columns one after the other. -/
def ofBytes (block : Bytes) : State := fun r c => block.getD (4 * c + r) 0

def toBytes (s : State) : Bytes := (List.finRange 4).flatMap fun c => (List.finRange 4).map fun r => s r c

/-- The cipher with a key of `nk` words, in `nk + 6` rounds. -/
def cipher (nk : ℕ) (key block : Bytes) : Bytes :=
  toBytes (lastRound (roundKey nk key (nk + 6)) (rounds nk key (nk + 5) (ofBytes block)))

end Schemes.Rijndael
