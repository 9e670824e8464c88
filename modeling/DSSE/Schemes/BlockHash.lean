import DSSE.Schemes.Ctr

/-! Hashing block by block. A compression function is folded over the blocks of a padded message. A
    machine that is fed one byte at a time, and compresses its buffer whenever that is full, does the same;
    it does not matter to it in what pieces the message comes. -/

namespace Schemes.BlockHash

variable {V : Type*} (compress : V → Bytes → V) (size : ℕ)

/-- One byte into the buffer; a full one is compressed. -/
def feed (s : V × Bytes) (b : UInt8) : V × Bytes :=
  if s.2.length + 1 = size then (compress s.1 (s.2 ++ [b]), []) else (s.1, s.2 ++ [b])

def absorb (s : V × Bytes) (msg : Bytes) : V × Bytes := msg.foldl (feed compress size) s

/-- The whole blocks of a message. -/
def blocks (msg : Bytes) : List Bytes :=
  (List.range (msg.length / size)).map fun i => (msg.drop (size * i)).take size

/-- How many zeros stand between the mark behind `n` bytes and a length of `k` bytes that ends a block. -/
def zeros (k n : ℕ) : ℕ := (size - (n + 1 + k) % size) % size

/-- A message with its mark and its length, in whole blocks. -/
def pad (lengthOf : ℕ → Bytes) (msg : Bytes) : Bytes :=
  msg ++ 0x80 :: (List.replicate (zeros size (lengthOf msg.length).length msg.length) 0 ++
    lengthOf msg.length)

/-- The hash of a message. -/
def hash (lengthOf : ℕ → Bytes) (iv : V) (msg : Bytes) : V :=
  (blocks size (pad size lengthOf msg)).foldl compress iv

variable {compress size}

/-! ### Pieces -/

theorem absorb_append (s : V × Bytes) (msg msg' : Bytes) :
    absorb compress size s (msg ++ msg') = absorb compress size (absorb compress size s msg) msg' :=
  List.foldl_append

/-- Bytes that do not fill the buffer. -/
theorem absorb_short {s : V × Bytes} {msg : Bytes} (h : s.2.length + msg.length < size) :
    absorb compress size s msg = (s.1, s.2 ++ msg) := by
  induction msg generalizing s with
  | nil => rw [List.append_nil]; rfl
  | cons b msg ih =>
    rw [List.length_cons] at h
    have hfeed : feed compress size s b = (s.1, s.2 ++ [b]) := if_neg (by omega)
    have hrest : (s.2 ++ [b]).length + msg.length < size := by
      rw [List.length_append, List.length_singleton]
      omega
    have ih := ih (s := (s.1, s.2 ++ [b])) hrest
    rw [List.append_assoc, List.singleton_append] at ih
    rw [absorb, List.foldl_cons, hfeed]
    exact ih

/-- Bytes that fill it. -/
theorem absorb_fill {s : V × Bytes} {msg : Bytes} (hne : msg ≠ []) (h : s.2.length + msg.length = size) :
    absorb compress size s msg = (compress s.1 (s.2 ++ msg), []) := by
  obtain ⟨front, b, rfl⟩ := (List.eq_nil_or_concat msg).resolve_left hne
  rw [List.concat_eq_append, List.length_append, List.length_singleton] at h
  have hfull : (s.2 ++ front).length + 1 = size := by
    rw [List.length_append]
    omega
  rw [List.concat_eq_append, absorb_append, absorb_short (show s.2.length + front.length < size by omega),
    ← List.append_assoc]
  exact if_pos hfull

/-! ### Blocks -/

theorem blocks_short {msg : Bytes} (h : msg.length < size) : blocks size msg = [] := by
  rw [blocks, Nat.div_eq_of_lt h, List.range_zero, List.map_nil]

theorem blocks_cons {block : Bytes} (hblock : block.length = size) (hsize : 0 < size) (msg : Bytes) :
    blocks size (block ++ msg) = block :: blocks size msg := by
  have hcount : (block ++ msg).length / size = msg.length / size + 1 := by
    rw [List.length_append, hblock, Nat.add_div_left _ hsize]
  rw [blocks, hcount, List.range_succ_eq_map, List.map_cons, List.map_map, Nat.mul_zero, List.drop_zero,
    List.take_left' hblock, blocks]
  refine congrArg _ (List.map_congr_left fun i _ => ?_)
  have hdrop : size * (i + 1) = block.length + size * i := by rw [hblock, Nat.mul_succ, Nat.add_comm]
  rw [Function.comp_apply, Nat.succ_eq_add_one, hdrop, List.drop_length_add_append]

/-- From an empty buffer all whole blocks are compressed and the rest stays. -/
theorem absorb_blocks (hsize : 0 < size) (v : V) (msg : Bytes) :
    absorb compress size (v, []) msg =
      ((blocks size msg).foldl compress v, msg.drop (size * (msg.length / size))) := by
  induction hn : msg.length using Nat.strong_induction_on generalizing v msg with
  | _ n ih =>
    subst hn
    rcases Nat.lt_or_ge msg.length size with hlt | hge
    · rw [absorb_short (by rwa [List.length_nil, Nat.zero_add]), blocks_short hlt, Nat.div_eq_of_lt hlt]
      rfl
    · -- the first block, and what stands behind it
      have hfirst : (msg.take size).length = size := List.length_take_of_le hge
      have hne : msg.take size ≠ [] := by
        intro hnil
        rw [hnil, List.length_nil] at hfirst
        omega
      have hrest : (msg.drop size).length < msg.length := by
        rw [List.length_drop]
        omega
      have hsplit : msg.take size ++ msg.drop size = msg := List.take_append_drop size msg
      have hdiv : msg.length / size = (msg.drop size).length / size + 1 := by
        rw [List.length_drop, ← Nat.add_div_right _ hsize, Nat.sub_add_cancel hge]
      have ih := ih _ hrest (compress v (msg.take size)) (msg.drop size) rfl
      rw [List.drop_drop, Nat.add_comm size, ← Nat.mul_succ, Nat.succ_eq_add_one, ← hdiv] at ih
      rw [← hsplit, absorb_append, absorb_fill hne (by rw [List.length_nil, Nat.zero_add, hfirst]),
        List.nil_append, blocks_cons hfirst hsize, List.foldl_cons, hsplit, ih]

/-! ### Padding -/

theorem length_pad (hsize : 0 < size) (lengthOf : ℕ → Bytes) (msg : Bytes) :
    (pad size lengthOf msg).length % size = 0 := by
  have hlt := Nat.mod_lt (msg.length + 1 + (lengthOf msg.length).length) hsize
  have hdiv := Nat.div_add_mod (msg.length + 1 + (lengthOf msg.length).length) size
  rw [pad, List.length_append, List.length_cons, List.length_append, List.length_replicate, zeros]
  generalize (msg.length + 1 + (lengthOf msg.length).length) % size = r at *
  rcases Nat.eq_zero_or_pos r with rfl | hr
  · rw [Nat.sub_zero, Nat.mod_self]
    have htotal : msg.length + (0 + (lengthOf msg.length).length + 1) =
        size * ((msg.length + 1 + (lengthOf msg.length).length) / size) := by omega
    rw [htotal, Nat.mul_mod_right]
  · rw [Nat.mod_eq_of_lt (show size - r < size by omega)]
    have htotal : msg.length + (size - r + (lengthOf msg.length).length + 1) =
        size * ((msg.length + 1 + (lengthOf msg.length).length) / size + 1) := by
      rw [Nat.mul_succ]
      omega
    rw [htotal, Nat.mul_mod_right]

/-- The machine that is fed the padded message ends with its hash. -/
theorem absorb_pad (hsize : 0 < size) (lengthOf : ℕ → Bytes) (iv : V) (msg : Bytes) :
    absorb compress size (iv, []) (pad size lengthOf msg) = (hash compress size lengthOf iv msg, []) := by
  have hmod := length_pad hsize lengthOf msg
  have hall : size * ((pad size lengthOf msg).length / size) = (pad size lengthOf msg).length :=
    Nat.mul_div_cancel' (Nat.dvd_of_mod_eq_zero hmod)
  rw [absorb_blocks hsize, hall, List.drop_length, hash]

end Schemes.BlockHash

namespace Schemes.Hmac

variable (hash : Bytes → Bytes) (size : ℕ)

/-- A key of the size of a block; a longer one is hashed. -/
def blockKey (key : Bytes) : Bytes :=
  let short := if key.length > size then hash key else key
  short ++ List.replicate (size - short.length) 0

/-- The hash of the key, masked, and the hash of the key, masked otherwise, and the message. -/
def hmac (key msg : Bytes) : Bytes :=
  hash ((blockKey hash size key).map (· ^^^ 0x5C) ++
    hash ((blockKey hash size key).map (· ^^^ 0x36) ++ msg))

theorem length_blockKey {key : Bytes} (hhash : (hash key).length ≤ size) :
    (blockKey hash size key).length = size := by
  rw [blockKey, List.length_append, List.length_replicate]
  split_ifs with hlong <;> omega

end Schemes.Hmac
