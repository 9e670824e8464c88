import Mathlib

/-! Input from an open file as `std::ifstream` gives it: the characters that are left, the flags
    `eofbit` and `failbit`, unformatted `read`, and extraction of a character or a number, which skips
    white space first. Numbers are printed in decimal; what was printed in front of a character that is
    no digit is read back and leaves the stream at that character. -/

namespace Schemes

/-- An open input stream. There is no `badbit`: the file itself can be read. -/
structure IStream where
  rest : List UInt8
  eof : Bool
  fail : Bool
  deriving DecidableEq

namespace IStream

/-- A file just opened. -/
def ofBytes (rest : List UInt8) : IStream := ⟨rest, false, false⟩

@[simp] theorem eof_ofBytes (rest : List UInt8) : (ofBytes rest).eof = false := rfl

@[simp] theorem fail_ofBytes (rest : List UInt8) : (ofBytes rest).fail = false := rfl

def good (s : IStream) : Bool := !s.eof && !s.fail

/-- `in.read(&buf[0], n)` with a buffer of `n` zeros: what the buffer holds then. -/
def read (s : IStream) (n : ℕ) : List UInt8 × IStream :=
  if s.good then
    let short := decide (s.rest.length < n)
    (s.rest.take n ++ List.replicate (n - s.rest.length) 0, ⟨s.rest.drop n, short, short⟩)
  else (List.replicate n 0, { s with fail := true })

def isSpace (c : UInt8) : Bool := c = 32 || (9 ≤ c && c ≤ 13)

/-- What a formatted extraction does first: skip white space, and fail if nothing is left. -/
def sentry (s : IStream) : IStream :=
  if s.good then
    match s.rest.dropWhile isSpace with
    | [] => ⟨[], true, true⟩
    | rest => ⟨rest, false, false⟩
  else { s with fail := true }

/-- `in >> c`; without a value `c` stays as it was. -/
def getChar (s : IStream) : Option UInt8 × IStream :=
  match s.sentry with
  | ⟨c :: rest, false, false⟩ => (some c, ⟨rest, false, false⟩)
  | s => (none, s)

/-- `in >> str`: the characters up to the next white space. -/
def getWord (s : IStream) : Option (List UInt8) × IStream :=
  if s.sentry.good then
    let rest := s.sentry.rest.dropWhile fun c => !isSpace c
    (some (s.sentry.rest.takeWhile fun c => !isSpace c), ⟨rest, rest.isEmpty, false⟩)
  else (none, s.sentry)

def isDigit (c : UInt8) : Bool := 48 ≤ c && c ≤ 57

def value (digits : List UInt8) : ℕ := digits.foldl (fun n c => 10 * n + (c.toNat - 48)) 0

/-- An optional sign. -/
def sign : List UInt8 → Bool × List UInt8
  | 45 :: rest => (true, rest)
  | 43 :: rest => (false, rest)
  | rest => (false, rest)

/-- A sign and digits: whether it is negative, the absolute value, and the stream behind them. Without
    digits the value is 0 and the stream fails; at the end of the file it is at its end. -/
def number (text : List UInt8) : Bool × ℕ × IStream :=
  let (neg, rest) := sign text
  let digits := rest.takeWhile isDigit
  let rest := rest.dropWhile isDigit
  (neg, value digits, ⟨rest, rest.isEmpty, digits.isEmpty⟩)

/-- `in >> v` for an unsigned integer below `limit`, a power of two; without a value `v` stays as it
    was. -/
def getUnsigned (limit : ℕ) (s : IStream) : Option ℕ × IStream :=
  if s.sentry.good then
    let (neg, n, s) := number s.sentry.rest
    if n < limit then (some (if neg then (limit - n) % limit else n), s)
    else (some (limit - 1), { s with fail := true })
  else (none, s.sentry)

/-- `in >> v` for a signed integer from `-half` to `half - 1`. -/
def getSigned (half : ℕ) (s : IStream) : Option ℤ × IStream :=
  if s.sentry.good then
    let (neg, n, s) := number s.sentry.rest
    let v : ℤ := if neg then -n else n
    if v < -half then (some (-half), { s with fail := true })
    else if half ≤ v then (some (half - 1), { s with fail := true })
    else (some v, s)
  else (none, s.sentry)

/-! ### Printing -/

/-- `out << n`. -/
def decimal (n : ℕ) : List UInt8 :=
  if n = 0 then [48] else (Nat.digits 10 n).reverse.map fun d => UInt8.ofNat (48 + d)

/-- `out << v` for a signed integer. -/
def decimalInt (v : ℤ) : List UInt8 :=
  if v < 0 then 45 :: decimal v.natAbs else decimal v.natAbs

/-! ### Reading what was printed -/

theorem isDigit_ofNat {d : ℕ} (h : d < 10) : isDigit (UInt8.ofNat (48 + d)) = true := by
  interval_cases d <;> rfl

theorem toNat_ofNat {d : ℕ} (h : d < 10) : (UInt8.ofNat (48 + d)).toNat - 48 = d := by
  interval_cases d <;> rfl

theorem isDigit_decimal (n : ℕ) : ∀ c ∈ decimal n, isDigit c = true := by
  intro c hc
  rw [decimal] at hc
  split at hc
  · rw [List.mem_singleton.mp hc]; rfl
  · obtain ⟨d, hd, rfl⟩ := List.mem_map.mp hc
    exact isDigit_ofNat (Nat.digits_lt_base (by norm_num) (List.mem_reverse.mp hd))

theorem decimal_ne_nil (n : ℕ) : decimal n ≠ [] := by
  rw [decimal]
  split
  · simp
  · rename_i h
    simpa [Nat.digits_eq_nil_iff_eq_zero] using h

theorem value_decimal (n : ℕ) : value (decimal n) = n := by
  rw [decimal]
  split
  · rename_i h; rw [h]; rfl
  · rw [value, List.foldl_map, List.foldl_reverse]
    have hsame : ∀ L : List ℕ, (∀ d ∈ L, d < 10) →
        L.foldr (fun d n => 10 * n + ((UInt8.ofNat (48 + d)).toNat - 48)) 0 = Nat.ofDigits 10 L := by
      intro L
      induction L with
      | nil => intro _; rfl
      | cons d L ih =>
        intro hL
        rw [List.foldr_cons, ih fun e he => hL e (List.mem_cons_of_mem _ he), Nat.ofDigits_cons,
          toNat_ofNat (hL d List.mem_cons_self)]
        ring
    rw [hsame _ fun d hd => Nat.digits_lt_base (by norm_num) hd, Nat.ofDigits_digits]

theorem sign_of_isDigit {c : UInt8} {rest : List UInt8} (h : isDigit c = true) :
    sign (c :: rest) = (false, c :: rest) := by
  unfold sign
  split
  · rename_i heq
    rw [List.cons.injEq] at heq
    rw [heq.1] at h
    exact absurd h (by decide)
  · rename_i heq
    rw [List.cons.injEq] at heq
    rw [heq.1] at h
    exact absurd h (by decide)
  · rfl

theorem number_decimal (n : ℕ) {rest : List UInt8} (h : ∀ c ∈ rest.head?, isDigit c = false) :
    number (decimal n ++ rest) = (false, n, ⟨rest, rest.isEmpty, false⟩) := by
  have hdigits := isDigit_decimal n
  have hnil := decimal_ne_nil n
  have hvalue := value_decimal n
  have htake : rest.takeWhile isDigit = [] ∧ rest.dropWhile isDigit = rest := by
    cases rest with
    | nil => exact ⟨rfl, rfl⟩
    | cons c rest => simp [h c rfl]
  have hsign : sign (decimal n ++ rest) = (false, decimal n ++ rest) := by
    cases hd : decimal n with
    | nil => exact absurd hd hnil
    | cons c digits =>
      rw [hd] at hdigits
      exact sign_of_isDigit (hdigits c List.mem_cons_self)
  rw [number, hsign]
  simp only [List.takeWhile_append_of_pos hdigits, List.dropWhile_append_of_pos hdigits, htake.1,
    htake.2, List.append_nil, hvalue, List.isEmpty_eq_false_iff.mpr hnil]

/-- A character that is not white space is where the sentry stops. -/
theorem sentry_ofBytes {c : UInt8} {rest : List UInt8} (h : isSpace c = false) :
    (ofBytes (c :: rest)).sentry = ofBytes (c :: rest) := by
  rw [sentry, ofBytes]
  simp [good, h]

/-- White space in front of a number is skipped. -/
theorem getUnsigned_space {c : UInt8} (h : isSpace c = true) (limit : ℕ) (rest : List UInt8) :
    (ofBytes (c :: rest)).getUnsigned limit = (ofBytes rest).getUnsigned limit := by
  have hsentry : (ofBytes (c :: rest)).sentry = (ofBytes rest).sentry := by
    simp [sentry, ofBytes, good, h]
  rw [getUnsigned, getUnsigned, hsentry]

theorem isSpace_of_isDigit {c : UInt8} (h : isDigit c = true) : isSpace c = false := by
  simp only [isDigit, Bool.and_eq_true, decide_eq_true_eq, UInt8.le_iff_toNat_le] at h
  simp only [isSpace, Bool.or_eq_false_iff, Bool.and_eq_false_iff, decide_eq_false_iff_not,
    UInt8.le_iff_toNat_le, ← UInt8.toNat_inj]
  have h48 : (48 : UInt8).toNat = 48 := rfl
  have h32 : (32 : UInt8).toNat = 32 := rfl
  have h13 : (13 : UInt8).toNat = 13 := rfl
  omega

theorem sentry_decimal (n : ℕ) (rest : List UInt8) :
    (ofBytes (decimal n ++ rest)).sentry = ofBytes (decimal n ++ rest) := by
  have hdigits := isDigit_decimal n
  cases hd : decimal n with
  | nil => exact absurd hd (decimal_ne_nil n)
  | cons c digits =>
    rw [hd] at hdigits
    exact sentry_ofBytes (isSpace_of_isDigit (hdigits c List.mem_cons_self))

theorem getUnsigned_decimal {limit n : ℕ} (hn : n < limit) {rest : List UInt8}
    (h : ∀ c ∈ rest.head?, isDigit c = false) :
    (ofBytes (decimal n ++ rest)).getUnsigned limit = (some n, ⟨rest, rest.isEmpty, false⟩) := by
  have hgood : (ofBytes (decimal n ++ rest)).good = true := rfl
  rw [getUnsigned, sentry_decimal, if_pos hgood]
  simp only [ofBytes, number_decimal n h, if_pos hn, Bool.false_eq_true, if_false]

/-- A signed number in its range is read back. -/
theorem getSigned_decimalInt {half : ℕ} {v : ℤ} (hlow : -half ≤ v) (hhigh : v < half)
    {rest : List UInt8} (h : ∀ c ∈ rest.head?, isDigit c = false) :
    (ofBytes (decimalInt v ++ rest)).getSigned half = (some v, ⟨rest, rest.isEmpty, false⟩) := by
  have hnumber : (ofBytes (decimalInt v ++ rest)).sentry = ofBytes (decimalInt v ++ rest) ∧
      ∃ neg, number (decimalInt v ++ rest) = (neg, v.natAbs, ⟨rest, rest.isEmpty, false⟩) ∧
        (if neg then -(v.natAbs : ℤ) else v.natAbs) = v := by
    rw [decimalInt]
    split
    · refine ⟨sentry_ofBytes (by decide), true, ?_, by rw [if_pos rfl]; omega⟩
      have hplain := number_decimal v.natAbs h
      have hsign : sign (45 :: (decimal v.natAbs ++ rest)) = (true, decimal v.natAbs ++ rest) := rfl
      have hsign' : sign (decimal v.natAbs ++ rest) = (false, decimal v.natAbs ++ rest) := by
        cases hd : decimal v.natAbs with
        | nil => exact absurd hd (decimal_ne_nil _)
        | cons c digits =>
          have hc := isDigit_decimal v.natAbs
          rw [hd] at hc
          exact sign_of_isDigit (hc c List.mem_cons_self)
      rw [number, hsign'] at hplain
      rw [List.cons_append, number, hsign]
      simp only [Prod.mk.injEq, true_and] at hplain ⊢
      exact hplain
    · exact ⟨sentry_decimal _ _, false, number_decimal _ h, by rw [if_neg Bool.false_ne_true]; omega⟩
  obtain ⟨hsentry, neg, hnum, hvalue⟩ := hnumber
  have hgood : (ofBytes (decimalInt v ++ rest)).good = true := rfl
  rw [getSigned, hsentry, if_pos hgood]
  simp only [ofBytes, hnum, hvalue]
  rw [if_neg (by omega), if_neg (by omega)]

theorem getChar_ofBytes {c : UInt8} {rest : List UInt8} (h : isSpace c = false) :
    (ofBytes (c :: rest)).getChar = (some c, ofBytes rest) := by
  rw [getChar, sentry_ofBytes h]
  rfl

theorem read_append (buf rest : List UInt8) :
    (ofBytes (buf ++ rest)).read buf.length = (buf, ofBytes rest) := by
  have hgood : (ofBytes (buf ++ rest)).good = true := rfl
  rw [read, if_pos hgood]
  simp [ofBytes]

end IStream

end Schemes
