import DSSE.Aes

/-! The tables of `aes.c` hold what the S-box and the matrix of a round make of a byte, so both builds of the
    cipher are AES, for keys of all three sizes. -/

namespace DSSE
open Schemes

namespace Aes

/-! ### Bytes of words -/

/-- A word as the bytes of a column. -/
def toWord (x : UInt32) : Rijndael.Word := ![byte x 3, byte x 2, byte x 1, byte x 0]

theorem byte_xor (x y n : UInt32) : byte (x ^^^ y) n = byte x n ^^^ byte y n := by
  rw [byte, UInt32.shiftRight_xor, UInt32.toUInt8_xor, byte, byte]

theorem byte_and (x y n : UInt32) : byte (x &&& y) n = byte x n &&& byte y n := by
  rw [byte, UInt32.shiftRight_and, UInt32.toUInt8_and, byte, byte]

theorem toNat_byte (x : UInt32) {n : UInt32} {k : ℕ} (hk : (8 * n).toNat % 32 = k) :
    (byte x n).toNat = x.toNat / 2 ^ k % 2 ^ 8 := by
  rw [byte, UInt32.toNat_toUInt8, UInt32.toNat_shiftRight, hk, Nat.shiftRight_eq_div_pow]

theorem toNat_load32h (a b c d : UInt8) :
    (load32h [a, b, c, d]).toNat = d.toNat + c.toNat * 2 ^ 8 + b.toNat * 2 ^ 16 + a.toNat * 2 ^ 24 := by
  have ha := a.toNat_lt
  have hb := b.toNat_lt
  have hc := c.toNat_lt
  have hd := d.toNat_lt
  have hshift : ∀ (b : UInt8) {k : UInt32} {n : ℕ}, k.toNat = n → n ≤ 24 →
      (b.toUInt32 <<< k).toNat = b.toNat <<< n := by
    intro b k n hk hn
    have hlt : b.toNat * 2 ^ n < 2 ^ 8 * 2 ^ 24 :=
      Nat.mul_lt_mul_of_lt_of_le b.toNat_lt (Nat.pow_le_pow_right (by norm_num) hn) (Nat.two_pow_pos _)
    rw [UInt32.toNat_shiftLeft, UInt8.toNat_toUInt32, hk, Nat.mod_eq_of_lt (show n < 32 by omega),
      Nat.mod_eq_of_lt (by rw [Nat.shiftLeft_eq]; exact hlt)]
  simp only [load32h, List.getD_cons_zero, List.getD_cons_succ, UInt32.toNat_or, UInt8.toNat_toUInt32]
  rw [hshift a (n := 24) rfl (by omega), hshift b (n := 16) rfl (by omega), hshift c (n := 8) rfl (by omega)]
  have horder : a.toNat <<< 24 ||| b.toNat <<< 16 ||| c.toNat <<< 8 ||| d.toNat =
      d.toNat ||| c.toNat <<< 8 ||| b.toNat <<< 16 ||| a.toNat <<< 24 := by
    rw [Nat.or_comm _ d.toNat, Nat.or_comm _ (c.toNat <<< 8), Nat.or_comm (a.toNat <<< 24), ← Nat.or_assoc,
      ← Nat.or_assoc]
  rw [horder, or_shiftLeft c.toNat (by omega), or_shiftLeft b.toNat (by omega), or_shiftLeft a.toNat (by omega)]

theorem toWord_load32h (a b c d : UInt8) : toWord (load32h [a, b, c, d]) = ![a, b, c, d] := by
  have h := toNat_load32h a b c d
  have ha := a.toNat_lt
  have hb := b.toNat_lt
  have hc := c.toNat_lt
  have hd := d.toNat_lt
  have h3 : byte (load32h [a, b, c, d]) 3 = a := by
    rw [← UInt8.toNat_inj, toNat_byte _ (k := 24) rfl, h]
    omega
  have h2 : byte (load32h [a, b, c, d]) 2 = b := by
    rw [← UInt8.toNat_inj, toNat_byte _ (k := 16) rfl, h]
    omega
  have h1 : byte (load32h [a, b, c, d]) 1 = c := by
    rw [← UInt8.toNat_inj, toNat_byte _ (k := 8) rfl, h]
    omega
  have h0 : byte (load32h [a, b, c, d]) 0 = d := by
    rw [← UInt8.toNat_inj, toNat_byte _ (k := 0) rfl, h]
    omega
  rw [toWord, h3, h2, h1, h0]

theorem toNat_ror (x : UInt32) {n : UInt32} {k : ℕ} (hk : n.toNat = k) (hpos : 0 < k) (hlt : k < 32) :
    (Sha256.ror x n).toNat = x.toNat / 2 ^ k + x.toNat % 2 ^ k * 2 ^ (32 - k) := by
  have hx := x.toNat_lt
  have hsub : (32 - n).toNat = 32 - k := by
    rw [UInt32.toNat_sub_of_le _ _ (by rw [UInt32.le_iff_toNat_le, hk]; exact hlt.le), hk]
    rfl
  have hpow : 2 ^ k * 2 ^ (32 - k) = 2 ^ 32 := by
    rw [← Nat.pow_add, Nat.add_sub_cancel' hlt.le]
  have hleft : x.toNat <<< (32 - k) % 2 ^ 32 = (x.toNat % 2 ^ k) <<< (32 - k) := by
    rw [Nat.shiftLeft_eq, Nat.shiftLeft_eq, ← hpow, Nat.mul_mod_mul_right]
  have hright : x.toNat / 2 ^ k < 2 ^ (32 - k) := by
    rw [Nat.div_lt_iff_lt_mul (Nat.two_pow_pos k), Nat.mul_comm, hpow]
    exact hx
  rw [Sha256.ror, UInt32.toNat_or, UInt32.toNat_shiftRight, UInt32.toNat_shiftLeft, hsub, hk,
    Nat.mod_eq_of_lt hlt, Nat.mod_eq_of_lt (show 32 - k < 32 by omega), hleft, Nat.shiftRight_eq_div_pow,
    or_shiftLeft _ hright]

/-- A word is made of its bytes. -/
theorem load32h_toWord (x : UInt32) : load32h [byte x 3, byte x 2, byte x 1, byte x 0] = x := by
  have hx := x.toNat_lt
  have h16 : x.toNat / 2 ^ 16 = x.toNat / 2 ^ 8 / 2 ^ 8 := by rw [Nat.div_div_eq_div_mul, ← Nat.pow_add]
  have h24 : x.toNat / 2 ^ 24 = x.toNat / 2 ^ 8 / 2 ^ 8 / 2 ^ 8 := by
    rw [Nat.div_div_eq_div_mul, Nat.div_div_eq_div_mul, ← Nat.pow_add, ← Nat.pow_add]
  rw [← UInt32.toNat_inj, toNat_load32h, toNat_byte x (n := 3) (k := 24) rfl,
    toNat_byte x (n := 2) (k := 16) rfl, toNat_byte x (n := 1) (k := 8) rfl,
    toNat_byte x (n := 0) (k := 0) rfl, h16, h24, Nat.pow_zero, Nat.div_one]
  omega

/-- Rotations by whole bytes. -/
theorem ror_load32h (a b c d : UInt8) :
    Sha256.ror (load32h [a, b, c, d]) 8 = load32h [d, a, b, c] ∧
      Sha256.ror (load32h [a, b, c, d]) 16 = load32h [c, d, a, b] ∧
      Sha256.ror (load32h [a, b, c, d]) 24 = load32h [b, c, d, a] := by
  have ha := a.toNat_lt
  have hb := b.toNat_lt
  have hc := c.toNat_lt
  have hd := d.toNat_lt
  simp only [← UInt32.toNat_inj, toNat_load32h]
  rw [toNat_ror _ (k := 8) rfl (by omega) (by omega), toNat_ror _ (k := 16) rfl (by omega) (by omega),
    toNat_ror _ (k := 24) rfl (by omega) (by omega), toNat_load32h]
  omega

theorem toWord_ror (x : UInt32) : toWord (Sha256.ror x 8) = ![byte x 0, byte x 3, byte x 2, byte x 1] := by
  have h := (ror_load32h (byte x 3) (byte x 2) (byte x 1) (byte x 0)).1
  rw [load32h_toWord] at h
  rw [h, toWord_load32h]

/-! ### Tables -/

/-- What a byte in row `i` adds to a mixed column. -/
def mixed (i : Fin 4) (s : UInt8) : Rijndael.Word := fun r => Rijndael.mul s (Rijndael.mixMatrix r i)

/-- Each of the tables is the S-box in another form. -/
theorem tables_eq :
    Te4 = ((List.range 256).map fun n =>
      load32h [Rijndael.sbox (UInt8.ofNat n), Rijndael.sbox (UInt8.ofNat n), Rijndael.sbox (UInt8.ofNat n),
        Rijndael.sbox (UInt8.ofNat n)]) ∧
    TE0 = (Te4.map fun w =>
      load32h [mixed 0 (byte w 0) 0, mixed 0 (byte w 0) 1, mixed 0 (byte w 0) 2, mixed 0 (byte w 0) 3]) ∧
    TE1 = TE0.map (Sha256.ror · 8) ∧ TE2 = TE0.map (Sha256.ror · 16) ∧ TE3 = TE0.map (Sha256.ror · 24) ∧
    Te4_0 = Te4.map (0x000000FF &&& ·) ∧ Te4_1 = Te4.map (0x0000FF00 &&& ·) ∧
    Te4_2 = Te4.map (0x00FF0000 &&& ·) ∧ Te4_3 = Te4.map (0xFF000000 &&& ·) := by
  decide +kernel

theorem length_Te4 : Te4.length = 256 := by
  rw [tables_eq.1, List.length_map, List.length_range]

theorem length_TE0 : TE0.length = 256 := by
  rw [tables_eq.2.1, List.length_map, length_Te4]

theorem entry_map {table table' : List UInt32} {f : UInt32 → UInt32} (h : table' = table.map f)
    (hlen : table.length = 256) (x : UInt8) : entry table' x = f (entry table x) := by
  have hx : x.toNat < table.length := by
    rw [hlen]
    exact x.toNat_lt
  rw [entry, entry, h, List.getD_eq_getElem _ _ (by rwa [List.length_map]), List.getElem_map,
    List.getD_eq_getElem _ _ hx]

theorem entry_Te4 (x : UInt8) : entry Te4 x =
    load32h [Rijndael.sbox x, Rijndael.sbox x, Rijndael.sbox x, Rijndael.sbox x] := by
  have hx : x.toNat < 256 := x.toNat_lt
  rw [entry, tables_eq.1, List.getD_eq_getElem _ _ (by rwa [List.length_map, List.length_range]),
    List.getElem_map, List.getElem_range, UInt8.ofNat_toNat]

theorem byte_entry_Te4 (x : UInt8) : byte (entry Te4 x) 0 = Rijndael.sbox x := by
  have h := congrFun (toWord_load32h (Rijndael.sbox x) (Rijndael.sbox x) (Rijndael.sbox x) (Rijndael.sbox x)) 3
  rwa [← entry_Te4] at h

theorem entry_TE0 (x : UInt8) : entry TE0 x =
    load32h [mixed 0 (Rijndael.sbox x) 0, mixed 0 (Rijndael.sbox x) 1, mixed 0 (Rijndael.sbox x) 2,
      mixed 0 (Rijndael.sbox x) 3] := by
  rw [entry_map tables_eq.2.1 length_Te4, byte_entry_Te4]

theorem toWord_Te0 (x : UInt8) : toWord (Te0 x) = mixed 0 (Rijndael.sbox x) := by
  rw [Te0, entry_TE0, toWord_load32h]
  funext r
  fin_cases r <;> rfl

theorem toWord_Te1 (small : Bool) (x : UInt8) : toWord (Te1 small x) = mixed 1 (Rijndael.sbox x) := by
  obtain ⟨-, -, h, -⟩ := tables_eq
  rw [Te1, entry_map h length_TE0, ite_self, entry_TE0, (ror_load32h _ _ _ _).1, toWord_load32h]
  funext r
  fin_cases r <;> rfl

theorem toWord_Te2 (small : Bool) (x : UInt8) : toWord (Te2 small x) = mixed 2 (Rijndael.sbox x) := by
  obtain ⟨-, -, -, h, -⟩ := tables_eq
  rw [Te2, entry_map h length_TE0, ite_self, entry_TE0, (ror_load32h _ _ _ _).2.1, toWord_load32h]
  funext r
  fin_cases r <;> rfl

theorem toWord_Te3 (small : Bool) (x : UInt8) : toWord (Te3 small x) = mixed 3 (Rijndael.sbox x) := by
  obtain ⟨-, -, -, -, h, -⟩ := tables_eq
  rw [Te3, entry_map h length_TE0, ite_self, entry_TE0, (ror_load32h _ _ _ _).2.2, toWord_load32h]
  funext r
  fin_cases r <;> rfl

theorem toWord_and (x y : UInt32) (r : Fin 4) : toWord (x &&& y) r = toWord x r &&& toWord y r := by
  fin_cases r <;> exact byte_and _ _ _

/-- The byte in row `i` of a column of zeros. -/
def single (i : Fin 4) (s : UInt8) : Rijndael.Word := fun r => if r = i then s else 0

theorem toWord_last (small : Bool) (x : UInt8) :
    toWord (last3 small x) = single 0 (Rijndael.sbox x) ∧ toWord (last2 small x) = single 1 (Rijndael.sbox x) ∧
      toWord (last1 small x) = single 2 (Rijndael.sbox x) ∧
      toWord (last0 small x) = single 3 (Rijndael.sbox x) := by
  have hmask : ∀ (mask : UInt32) (i : Fin 4), (∀ r, toWord mask r = if r = i then 0xff else 0) →
      toWord (mask &&& entry Te4 x) = single i (Rijndael.sbox x) := by
    intro mask i h
    funext r
    have hsame : ∀ r : Fin 4, (![Rijndael.sbox x, Rijndael.sbox x, Rijndael.sbox x, Rijndael.sbox x] :
        Rijndael.Word) r = Rijndael.sbox x := by
      intro r
      fin_cases r <;> rfl
    rw [toWord_and, h, single, entry_Te4, toWord_load32h, hsame]
    split_ifs
    · exact UInt8.neg_one_and
    · exact UInt8.zero_and
  obtain ⟨-, -, -, -, -, h0, h1, h2, h3⟩ := tables_eq
  rw [last3, last2, last1, last0, entry_map h3 length_Te4, entry_map h2 length_Te4, entry_map h1 length_Te4,
    entry_map h0 length_Te4, ite_self, ite_self, ite_self, ite_self]
  exact ⟨hmask _ _ (by decide), hmask _ _ (by decide), hmask _ _ (by decide), hmask _ _ (by decide)⟩

/-! ### Rounds -/

theorem toWord_xor (x y : UInt32) : toWord (x ^^^ y) = Rijndael.xorWord (toWord x) (toWord y) := by
  funext r
  fin_cases r <;> exact byte_xor _ _ _

/-- The columns as rows and columns of bytes. -/
def view (s : Columns) : Rijndael.State := fun r c => toWord (![s.s0, s.s1, s.s2, s.s3] c) r

theorem toWord_line (small : Bool) (a b c d k : UInt32) : toWord (line small a b c d k) =
    Rijndael.xorWord (Rijndael.mixBy Rijndael.mixMatrix
      ![Rijndael.sbox (byte a 3), Rijndael.sbox (byte b 2), Rijndael.sbox (byte c 1), Rijndael.sbox (byte d 0)])
      (toWord k) := by
  rw [line, toWord_xor, toWord_xor, toWord_xor, toWord_xor, toWord_Te0, toWord_Te1, toWord_Te2, toWord_Te3]
  rfl

/-- Four lines are a round. -/
theorem view_fullRound (small : Bool) (s : Columns) (rk : List UInt32) :
    view (fullRound small s rk) = Rijndael.round (fun c => toWord (rk.getD c 0)) (view s) := by
  funext r c
  fin_cases c
  · exact congrFun (toWord_line small s.s0 s.s1 s.s2 s.s3 (rk.getD 0 0)) r
  · exact congrFun (toWord_line small s.s1 s.s2 s.s3 s.s0 (rk.getD 1 0)) r
  · exact congrFun (toWord_line small s.s2 s.s3 s.s0 s.s1 (rk.getD 2 0)) r
  · exact congrFun (toWord_line small s.s3 s.s0 s.s1 s.s2 (rk.getD 3 0)) r

/-- One byte from each of the words. -/
theorem toWord_singles (small : Bool) (a b c d : UInt8) :
    toWord (last3 small a ^^^ last2 small b ^^^ last1 small c ^^^ last0 small d) =
      ![Rijndael.sbox a, Rijndael.sbox b, Rijndael.sbox c, Rijndael.sbox d] := by
  rw [toWord_xor, toWord_xor, toWord_xor, (toWord_last small a).1, (toWord_last small b).2.1,
    (toWord_last small c).2.2.1, (toWord_last small d).2.2.2]
  funext r
  fin_cases r <;> simp [Rijndael.xorWord, single]

theorem toWord_setupMix (small : Bool) (temp : UInt32) :
    toWord (setupMix small temp) = Rijndael.subWord (Rijndael.rotWord (toWord temp)) := by
  rw [setupMix, toWord_singles]
  funext r
  fin_cases r <;> rfl

theorem toWord_setupMix_ror (small : Bool) (temp : UInt32) :
    toWord (setupMix small (Sha256.ror temp 8)) = Rijndael.subWord (toWord temp) := by
  rw [toWord_setupMix, toWord_ror]
  funext r
  fin_cases r <;> rfl

theorem toWord_lastLine (small : Bool) (a b c d k : UInt32) : toWord (lastLine small a b c d k) =
    Rijndael.xorWord
      ![Rijndael.sbox (byte a 3), Rijndael.sbox (byte b 2), Rijndael.sbox (byte c 1), Rijndael.sbox (byte d 0)]
      (toWord k) := by
  rw [lastLine, toWord_xor, toWord_singles]

theorem store32h_eq (x : UInt32) : store32h x = (List.finRange 4).map (toWord x) := by
  have h0 : x.toUInt8 = byte x 0 := by
    rw [byte, UInt32.mul_zero, UInt32.shiftRight_zero]
  rw [store32h, h0]
  rfl

/-- The last lines are the last round, stored column by column. -/
theorem lastRound_eq (small : Bool) (t : Columns) (rk : List UInt32) :
    lastRound small t rk =
      Rijndael.toBytes (Rijndael.lastRound (fun c => toWord (rk.getD c 0)) (view t)) := by
  have hcolumns : ∀ s : Rijndael.State, Rijndael.toBytes s =
      (List.finRange 4).map (fun r => s r 0) ++ (List.finRange 4).map (fun r => s r 1) ++
        (List.finRange 4).map (fun r => s r 2) ++ (List.finRange 4).map (fun r => s r 3) := fun _ => rfl
  rw [lastRound, hcolumns, store32h_eq, store32h_eq, store32h_eq, store32h_eq, toWord_lastLine, toWord_lastLine,
    toWord_lastLine, toWord_lastLine]
  rfl

/-! ### All rounds -/

theorem toWord_load32h_drop (b : Bytes) (n : ℕ) :
    toWord (load32h (b.drop n)) = fun r : Fin 4 => b.getD (n + r) 0 := by
  have hget : ∀ j, (b.drop n).getD j 0 = b.getD (n + j) 0 := by
    intro j
    rw [List.getD_eq_getElem?_getD, List.getD_eq_getElem?_getD, List.getElem?_drop]
  have hfour : load32h (b.drop n) =
      load32h [b.getD (n + 0) 0, b.getD (n + 1) 0, b.getD (n + 2) 0, b.getD (n + 3) 0] := by
    rw [← hget 0, ← hget 1, ← hget 2, ← hget 3]
    rfl
  rw [hfour, toWord_load32h]
  funext r
  fin_cases r <;> rfl

/-- The words that a schedule starts with are those of the expanded key. -/
def Scheduled (nk : ℕ) (key : Bytes) (eK : List UInt32) : Prop :=
  ∀ i < 4 * (nk + 7), toWord (eK.getD i 0) = Rijndael.keyWord nk key i

theorem Scheduled.roundKey {nk : ℕ} {key : Bytes} {eK : List UInt32} (h : Scheduled nk key eK) {n : ℕ}
    (hn : n < nk + 7) :
    (fun c : Fin 4 => toWord ((eK.drop (4 * n)).getD c 0)) = Rijndael.roundKey nk key n := by
  funext c
  have hc := c.isLt
  rw [Rijndael.roundKey, ← h _ (by omega), List.getD_eq_getElem?_getD, List.getD_eq_getElem?_getD,
    List.getElem?_drop]

section
variable (small : Bool) {nk : ℕ} {key : Bytes} {eK : List UInt32} {start : Rijndael.State}

theorem fullRound_scheduled (h : Scheduled nk key eK) {n : ℕ} (hn : n + 1 < nk + 7) {s : Columns}
    (hs : view s = Rijndael.rounds nk key n start) :
    view (fullRound small s (eK.drop (4 * (n + 1)))) = Rijndael.rounds nk key (n + 1) start := by
  rw [view_fullRound, h.roundKey hn, hs, Rijndael.rounds]

/-- Two rounds at a time. -/
theorem roundsLoop_scheduled (h : Scheduled nk key eK) {r n : ℕ} (hn : n + 2 * r + 1 < nk + 7) {s : Columns}
    (hs : view s = Rijndael.rounds nk key n start) :
    ∃ t, roundsLoop small (r + 1) s (eK.drop (4 * n)) = (t, eK.drop (4 * (n + 2 * r + 2))) ∧
      view t = Rijndael.rounds nk key (n + 2 * r + 1) start := by
  induction r generalizing n s with
  | zero =>
    refine ⟨fullRound small s (eK.drop (4 * (n + 1))), ?_, fullRound_scheduled small h (by omega) hs⟩
    rw [roundsLoop, if_pos rfl, List.drop_drop, List.drop_drop]
    rfl
  | succ r ih =>
    have hone := fullRound_scheduled small h (by omega) hs
    have htwo := fullRound_scheduled small h (n := n + 1) (by omega) hone
    obtain ⟨t, hloop, ht⟩ := ih (n := n + 2) (by omega) htwo
    refine ⟨t, ?_, ?_⟩
    · rw [roundsLoop, if_neg (Nat.succ_ne_zero r), List.drop_drop, List.drop_drop]
      exact hloop.trans (by congr 3; omega)
    · rwa [show n + 2 * (r + 1) + 1 = n + 2 + 2 * r + 1 by omega]

/-- The loop with one round at a time. -/
theorem smallLoop_scheduled (h : Scheduled nk key eK) {r n : ℕ} (hn : n + r + 1 < nk + 7) {s : Columns}
    (hs : view s = Rijndael.rounds nk key n start) :
    ∃ t, smallLoop small (r + 1) s (eK.drop (4 * n)) = (t, eK.drop (4 * (n + r + 1))) ∧
      view t = Rijndael.rounds nk key (n + r + 1) start := by
  induction r generalizing n s with
  | zero =>
    refine ⟨fullRound small s (eK.drop (4 * (n + 1))), ?_, fullRound_scheduled small h (by omega) hs⟩
    rw [smallLoop, if_pos rfl, List.drop_drop]
    rfl
  | succ r ih =>
    have hone := fullRound_scheduled small h (by omega) hs
    obtain ⟨t, hloop, ht⟩ := ih (n := n + 1) (by omega) hone
    refine ⟨t, ?_, ?_⟩
    · rw [smallLoop, if_neg (Nat.succ_ne_zero r), List.drop_drop]
      exact hloop.trans (by congr 3; omega)
    · rwa [show n + (r + 1) + 1 = n + 1 + r + 1 by omega]

end

end Aes

open Aes

/-- The first round key is added to the block as it is loaded. -/
theorem view_firstColumns {nk : ℕ} {key pt : Bytes} {eK : List UInt32} (h : Scheduled nk key eK) :
    view
      { s0 := load32h pt ^^^ eK.getD 0 0
        s1 := load32h (pt.drop 4) ^^^ eK.getD 1 0
        s2 := load32h (pt.drop 8) ^^^ eK.getD 2 0
        s3 := load32h (pt.drop 12) ^^^ eK.getD 3 0 } = Rijndael.rounds nk key 0 (Rijndael.ofBytes pt) := by
  have hkey := h.roundKey (n := 0) (by omega)
  have hcolumn : ∀ (n : ℕ) (k : UInt32), toWord (load32h (pt.drop n) ^^^ k) =
      fun r : Fin 4 => pt.getD (n + r) 0 ^^^ toWord k r := by
    intro n k
    rw [toWord_xor, toWord_load32h_drop]
    rfl
  rw [Nat.mul_zero, List.drop_zero] at hkey
  rw [Rijndael.rounds, ← hkey]
  funext r c
  fin_cases c
  · exact congrFun (hcolumn 0 (eK.getD 0 0)) r
  · exact congrFun (hcolumn 4 (eK.getD 1 0)) r
  · exact congrFun (hcolumn 8 (eK.getD 2 0)) r
  · exact congrFun (hcolumn 12 (eK.getD 3 0)) r

/-- A block is enciphered as by the rounds of the cipher, in either build. -/
theorem rijndaelEcbEncrypt_scheduled {small : Bool} {nk : ℕ} {key pt : Bytes} {skey : RijndaelKey}
    (h : Scheduled nk key skey.eK) (hNr : skey.Nr = nk + 6) (heven : 2 ∣ nk) :
    rijndaelEcbEncrypt small pt skey = .ok (Rijndael.cipher nk key pt) := by
  obtain ⟨m, rfl⟩ := heven
  have hstart := @view_firstColumns (2 * m) key pt skey.eK h
  have hlast := h.roundKey (n := 2 * m + 6) (by omega)
  cases small with
  | true =>
    obtain ⟨t, hloop, ht⟩ := smallLoop_scheduled true (r := 2 * m + 4) (n := 0) h (by omega) hstart
    rw [Nat.mul_zero, List.drop_zero] at hloop
    have hrounds : skey.Nr - 1 = 2 * m + 4 + 1 := by omega
    have hrk : 4 * (0 + (2 * m + 4) + 1) + 4 = 4 * (2 * m + 6) := by omega
    rw [rijndaelEcbEncrypt, hrounds]
    simp only [if_pos, hloop]
    rw [lastRound_eq, List.drop_drop, hrk, hlast, ht, Nat.zero_add, Rijndael.cipher]
  | false =>
    obtain ⟨t, hloop, ht⟩ := roundsLoop_scheduled false (r := m + 2) (n := 0) h (by omega) hstart
    rw [Nat.mul_zero, List.drop_zero] at hloop
    have hrounds : skey.Nr / 2 = m + 2 + 1 := by omega
    have hrk : 4 * (0 + 2 * (m + 2) + 2) = 4 * (2 * m + 6) := by omega
    have hfull : 0 + 2 * (m + 2) + 1 = 2 * m + 5 := by omega
    rw [rijndaelEcbEncrypt, hrounds]
    simp only [Bool.false_eq_true, if_false, hloop]
    rw [lastRound_eq, hrk, hlast, ht, hfull, Rijndael.cipher]

/-! ### The key schedule -/

namespace Aes

theorem toWord_rcon {i : ℕ} (hi : i < 10) : toWord (rcon.getD i 0) = Rijndael.rconWord (i + 1) := by
  interval_cases i <;> decide

section
variable {nk : ℕ} (key : Bytes) (i : ℕ)

/-- The first word of a further run of `nk` words. -/
theorem keyWord_first (hnk : 0 < nk) : Rijndael.keyWord nk key (nk * (i + 1)) =
    Rijndael.xorWord (Rijndael.keyWord nk key (nk * i))
      (Rijndael.xorWord (Rijndael.subWord (Rijndael.rotWord (Rijndael.keyWord nk key (nk * i + (nk - 1)))))
        (Rijndael.rconWord (i + 1))) := by
  have hlast : nk * (i + 1) - 1 = nk * i + (nk - 1) := by
    rw [Nat.mul_succ]
    omega
  have hbefore : nk * (i + 1) - nk = nk * i := by rw [Nat.mul_succ, Nat.add_sub_cancel]
  have hge : ¬ (nk * (i + 1) < nk ∨ nk = 0) := by
    rw [Nat.mul_succ]
    omega
  rw [Rijndael.keyWord, dif_neg hge]
  simp only
  rw [if_pos (Nat.mul_mod_right _ _), hlast, hbefore, Nat.mul_div_cancel_left _ hnk]

/-- The words behind it. -/
theorem keyWord_next {k : ℕ} (hk : k + 1 < nk) : Rijndael.keyWord nk key (nk * (i + 1) + (k + 1)) =
    Rijndael.xorWord (Rijndael.keyWord nk key (nk * i + (k + 1)))
      (if nk > 6 ∧ k + 1 = 4 then Rijndael.subWord (Rijndael.keyWord nk key (nk * (i + 1) + k))
      else Rijndael.keyWord nk key (nk * (i + 1) + k)) := by
  have hbefore : nk * (i + 1) + (k + 1) - nk = nk * i + (k + 1) := by
    rw [Nat.mul_succ]
    omega
  have hge : ¬ (nk * (i + 1) + (k + 1) < nk ∨ nk = 0) := by
    rw [Nat.mul_succ]
    omega
  have hmod : (nk * (i + 1) + (k + 1)) % nk = k + 1 := by rw [Nat.mul_add_mod, Nat.mod_eq_of_lt hk]
  have hpred : nk * (i + 1) + (k + 1) - 1 = nk * (i + 1) + k := rfl
  rw [Rijndael.keyWord, dif_neg hge]
  simp only
  rw [hmod, if_neg (Nat.succ_ne_zero k), hpred, hbefore]

end

/-- Words that are those of the expanded key from `base` on. -/
def Run (nk : ℕ) (key : Bytes) (base len : ℕ) (words : List UInt32) : Prop :=
  ∀ j < len, toWord (words.getD j 0) = Rijndael.keyWord nk key (base + j)

theorem Run.append {nk : ℕ} {key : Bytes} {base base' l m total : ℕ} {words more : List UInt32}
    (hlen : words.length = l) (h : Run nk key base l words) (hbase : base' = base + l)
    (hmore : Run nk key base' m more) (htotal : total = l + m) : Run nk key base total (words ++ more) := by
  intro j hj
  rcases Nat.lt_or_ge j l with hlt | hge
  · rw [List.getD_append _ _ _ _ (by rwa [hlen])]
    exact h j hlt
  · rw [List.getD_append_right _ _ _ _ (by rwa [hlen]), hmore _ (by omega), hlen]
    congr 1
    omega

section
variable {nk : ℕ} {key : Bytes} {base : ℕ} {a b c d : UInt32}

theorem Run.two (ha : toWord a = Rijndael.keyWord nk key base)
    (hb : toWord b = Rijndael.keyWord nk key (base + 1)) :
    Run nk key base 2 [a, b] := by
  intro j hj
  interval_cases j
  exacts [ha, hb]

theorem Run.four (ha : toWord a = Rijndael.keyWord nk key base)
    (hb : toWord b = Rijndael.keyWord nk key (base + 1))
    (hc : toWord c = Rijndael.keyWord nk key (base + 2)) (hd : toWord d = Rijndael.keyWord nk key (base + 3)) :
    Run nk key base 4 [a, b, c, d] := by
  intro j hj
  interval_cases j
  exacts [ha, hb, hc, hd]

end

section
variable {nk : ℕ} {key : Bytes} {i : ℕ} {rk : List UInt32}

/-- The line with `setup_mix` and `rcon`. -/
theorem Run.first (small : Bool) (h : Run nk key (nk * i) nk rk) (hnk : 0 < nk) (hi : i < 10) :
    toWord (rk.getD 0 0 ^^^ setupMix small (rk.getD (nk - 1) 0) ^^^ rcon.getD i 0) =
      Rijndael.keyWord nk key (nk * (i + 1)) := by
  have hassoc : ∀ u v w : Rijndael.Word, Rijndael.xorWord (Rijndael.xorWord u v) w =
      Rijndael.xorWord u (Rijndael.xorWord v w) := fun u v w => funext fun r => UInt8.xor_assoc _ _ _
  rw [toWord_xor, toWord_xor, toWord_setupMix, toWord_rcon hi, h 0 hnk, h (nk - 1) (by omega), hassoc,
    Nat.add_zero, ← keyWord_first key i hnk]

/-- The line behind one that gave `prev`. -/
theorem Run.next (h : Run nk key (nk * i) nk rk) {k : ℕ} (hk : k + 1 < nk) (hno : ¬ (nk > 6 ∧ k + 1 = 4))
    {prev : UInt32} (hprev : toWord prev = Rijndael.keyWord nk key (nk * (i + 1) + k)) :
    toWord (rk.getD (k + 1) 0 ^^^ prev) = Rijndael.keyWord nk key (nk * (i + 1) + (k + 1)) := by
  rw [toWord_xor, h _ hk, hprev, keyWord_next key i hk, if_neg hno]

end

section
variable (small : Bool) {nk : ℕ} {key : Bytes} {i : ℕ} {rk : List UInt32}

theorem Run.firstFour (h : Run nk key (nk * i) nk rk) (hnk : 4 ≤ nk) (hi : i < 10) :
    Run nk key (nk * (i + 1)) 4 (firstFour small nk i rk) := by
  have h0 := h.first small (by omega) hi
  have h1 := h.next (k := 0) (by omega) (by omega) h0
  have h2 := h.next (k := 1) (by omega) (by omega) h1
  have h3 := h.next (k := 2) (by omega) (by omega) h2
  exact Run.four h0 h1 h2 h3

theorem expand16_run (n : ℕ) (h : Run 4 key (4 * i) 4 rk) (hn : i + n < 10) :
    Run 4 key (4 * (i + 1)) (4 + 4 * n) (expand16 small (n + 1) i rk) := by
  induction n generalizing i rk with
  | zero =>
    rw [expand16, if_pos rfl]
    exact h.firstFour small le_rfl (by omega)
  | succ n ih =>
    have hnew := h.firstFour small le_rfl (by omega)
    rw [expand16, if_neg (Nat.succ_ne_zero n)]
    exact Run.append (l := 4) rfl hnew rfl (ih hnew (by omega)) (by omega)

theorem expand24_run (n : ℕ) (h : Run 6 key (6 * i) 6 rk) (hn : i + n < 10) :
    Run 6 key (6 * (i + 1)) (4 + 6 * n) (expand24 small (n + 1) i rk) := by
  induction n generalizing i rk with
  | zero =>
    rw [expand24, if_pos rfl]
    exact h.firstFour small (by norm_num) (by omega)
  | succ n ih =>
    have hfour := h.firstFour small (by norm_num) (by omega)
    have h10 := h.next (k := 3) (by norm_num) (by norm_num) (hfour 3 (by norm_num))
    have h11 := h.next (k := 4) (by norm_num) (by norm_num) h10
    have hnew := Run.append (l := 4) rfl hfour rfl (Run.two h10 h11) rfl
    rw [expand24, if_neg (Nat.succ_ne_zero n)]
    exact Run.append (l := 6) rfl hnew rfl (ih hnew (by omega)) (by omega)

theorem expand32_run (n : ℕ) (h : Run 8 key (8 * i) 8 rk) (hn : i + n < 10) :
    Run 8 key (8 * (i + 1)) (4 + 8 * n) (expand32 small (n + 1) i rk) := by
  induction n generalizing i rk with
  | zero =>
    rw [expand32, if_pos rfl]
    exact h.firstFour small (by norm_num) (by omega)
  | succ n ih =>
    have hfour := h.firstFour small (by norm_num) (by omega)
    -- the word in the middle is substituted without a rotation
    have h12 : toWord (rk.getD 4 0 ^^^ setupMix small (Sha256.ror ((firstFour small 8 i rk).getD 3 0) 8)) =
        Rijndael.keyWord 8 key (8 * (i + 1) + 4) := by
      rw [toWord_xor, toWord_setupMix_ror, h 4 (by norm_num), hfour 3 (by norm_num),
        keyWord_next key i (k := 3) (by norm_num), if_pos (by norm_num)]
    have h13 := h.next (k := 4) (by norm_num) (by norm_num) h12
    have h14 := h.next (k := 5) (by norm_num) (by norm_num) h13
    have h15 := h.next (k := 6) (by norm_num) (by norm_num) h14
    have hnew := Run.append (l := 4) rfl hfour rfl (Run.four h12 h13 h14 h15) rfl
    rw [expand32, if_neg (Nat.succ_ne_zero n)]
    exact Run.append (l := 8) rfl hnew rfl (ih hnew (by omega)) (by omega)

end

/-- The words of the key itself. -/
theorem loadWords_run (nk : ℕ) (key : Bytes) : Run nk key (nk * 0) nk (loadWords nk key) := by
  intro j hj
  rw [loadWords, List.getD_eq_getElem _ _ (by rwa [List.length_map, List.length_range]), List.getElem_map,
    List.getElem_range, toWord_load32h_drop, Nat.mul_zero, Nat.zero_add, Rijndael.keyWord, dif_pos (.inl hj)]

theorem Run.scheduled {nk : ℕ} {key : Bytes} {eK : List UInt32} (h : Run nk key (nk * 0) (4 * (nk + 7)) eK) :
    Scheduled nk key eK := by
  intro i hi
  rw [h i hi, Nat.mul_zero, Nat.zero_add]

end Aes

/-- The schedule of a key of 16, 24 or 32 bytes. -/
theorem rijndaelSetup_scheduled (small : Bool) {key : Bytes}
    (hkey : key.length = 16 ∨ key.length = 24 ∨ key.length = 32) {numRounds : ℤ}
    (hrounds : numRounds = 0 ∨ numRounds = key.length / 4 + 6) :
    ∃ skey, rijndaelSetup small key numRounds = .ok skey ∧ skey.Nr = key.length / 4 + 6 ∧
      Scheduled (key.length / 4) key skey.eK := by
  have hlen : (loadWords (key.length / 4) key).length = key.length / 4 := by
    rw [loadWords, List.length_map, List.length_range]
  have hload := loadWords_run (key.length / 4) key
  have hdefault : ¬ (numRounds ≠ 0 ∧ numRounds ≠ 10 + (key.length / 8 - 2) * 2) := by omega
  rw [rijndaelSetup]
  simp only
  rw [if_neg (by omega), if_neg hdefault]
  refine ⟨_, rfl, by show 10 + (key.length / 8 - 2) * 2 = key.length / 4 + 6; omega, ?_⟩
  rcases hkey with h | h | h
  · rw [h] at hlen hload ⊢
    rw [if_pos rfl]
    exact Run.scheduled (Run.append hlen hload rfl (expand16_run small 9 hload (by norm_num)) rfl)
  · rw [h] at hlen hload ⊢
    rw [if_neg (by norm_num), if_pos rfl]
    exact Run.scheduled (Run.append hlen hload rfl (expand24_run small 7 hload (by norm_num)) rfl)
  · rw [h] at hlen hload ⊢
    rw [if_neg (by norm_num), if_neg (by norm_num)]
    exact Run.scheduled (Run.append hlen hload rfl (expand32_run small 6 hload (by norm_num)) rfl)

/-- In either build and with a key of any size, a block is enciphered as AES does it. -/
theorem aes_encrypts (small : Bool) (key : Bytes) (hkey : key.length = 16 ∨ key.length = 24 ∨ key.length = 32)
    (numRounds : ℤ) (hrounds : numRounds = 0 ∨ numRounds = key.length / 4 + 6) (pt : Bytes) :
    (rijndaelSetup small key numRounds >>= rijndaelEcbEncrypt small pt) =
      .ok (Rijndael.cipher (key.length / 4) key pt) := by
  obtain ⟨skey, hsetup, hNr, hscheduled⟩ := rijndaelSetup_scheduled small hkey hrounds
  rw [hsetup]
  exact rijndaelEcbEncrypt_scheduled hscheduled hNr (by omega)

theorem aes_encrypts_128 :
    (rijndaelSetup true (List.replicate 16 1) 10 >>= rijndaelEcbEncrypt true (List.replicate 16 2)) =
      .ok (Rijndael.cipher (16 / 4) (List.replicate 16 1) (List.replicate 16 2)) :=
  aes_encrypts true (List.replicate 16 1) (.inl rfl) 10 (.inr rfl) (List.replicate 16 2)

/-- The last of the vectors in `rijndael_test`. -/
example : (rijndaelSetup false ((List.range 32).map UInt8.ofNat) 0 >>=
    rijndaelEcbEncrypt false ((List.range 16).map fun i => UInt8.ofNat (17 * i))) =
    .ok [0x8e, 0xa2, 0xb7, 0xca, 0x51, 0x67, 0x45, 0xbf, 0xea, 0xfc, 0x49, 0x90, 0x4b, 0x49, 0x60, 0x89] := by
  decide +kernel

end DSSE
