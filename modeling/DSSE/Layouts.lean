import DSSE.Core

/-! The three layouts of the index. For each, what the search reads out of the blocks that Setup made
    of a posting list is that posting list, in order, without `INVALID` where the layout uses it as
    padding. -/

namespace DSSE
open Schemes

variable (tc : Tomcrypt)

/-- `k` ids a piece, in order; the last piece may be shorter. -/
def chunks (k : ℕ) (fids : List UInt64) : List (List UInt64) :=
  (List.range ((fids.length + (k - 1)) / k)).map fun c => (fids.drop (c * k)).take k

/-- The ids that can be told from padding. -/
def valid (fids : List UInt64) : List UInt64 := fids.filter fun id => id ≠ INVALID

/-- A layout: how Setup cuts a posting list into blocks, how many bytes of an entry it sends, how the
    search reads an entry, and the ids it reads in each of the entries. -/
structure Layout where
  encode : Encoder
  dlen : ℕ
  entry : Core → Bytes → Bytes → Bytes → Except Halt (List UInt64)
  outs : List UInt64 → List (List UInt64)

def basicLayout : Layout :=
  ⟨basicEncoder, ENCRYPTED_FILEID_SIZE, idEntry tc, fun fids => fids.map fun id => [id]⟩

def packedLayout : Layout :=
  ⟨packedEncoder, ENCRYPTED_BLOCK_SIZE, packedEntry tc, fun fids => (chunks B fids).map valid⟩

def pointerLayout : Layout :=
  ⟨pointerEncoder tc, ENCRYPTED_BLOCK_SIZE, pointerEntry tc,
    fun fids => (chunks (B * B) fids).map valid⟩

/-- The layouts that Setup and Search know. -/
def Version.layout? : Version → Option Layout
  | .Basic => some (basicLayout tc)
  | .Packed => some (packedLayout tc)
  | .Pointer => some (pointerLayout tc)
  | .TwoLevelPointer => none

/-- What is left of a list of ids after dropping the revoked ones. -/
def unrevoked (core : Core) (K1minus : Bytes) (ids : List UInt64) : List UInt64 :=
  ids.filter fun id => !revoked tc core K1minus id

/-- A server that keeps the external blocks `M` reads the ids `out` in the entry `d`, less the revoked
    ones. -/
def Decodes (lay : Layout) (K2 : Bytes) (M : List Bytes) (d : Bytes) (out : List UInt64) : Prop :=
  ∀ core K1minus, M <+: core.A → lay.entry core K2 K1minus d = .ok (unrevoked tc core K1minus out)

/-- `blocks` hold the ids `outs`: entry by entry the search reads these lists of ids. -/
def Holds (lay : Layout) (K2 : Bytes) (M blocks : List Bytes) (outs : List (List UInt64)) : Prop :=
  List.Forall₂ (fun block out => Decodes tc lay K2 M (encryptBytes tc K2 block) out) blocks outs

/-- A layout is right if the blocks of every posting list hold its ids. The pointers are 64-bit values
    other than `INVALID`, hence the bound on the number of blocks. -/
structure Layout.Right (lay : Layout) : Prop where
  grows : ∀ K2 fids M, M <+: (lay.encode K2 fids M).2
  ext_le : ∀ K2 fids M, (lay.encode K2 fids M).2.length ≤ M.length + fids.length
  size : ∀ K2 fids M, ∀ block ∈ (lay.encode K2 fids M).1, block.length + 16 = lay.dlen
  holds : ∀ K2 fids M, M.length + fids.length < INVALID.toNat →
    Holds tc lay K2 (lay.encode K2 fids M).2 (lay.encode K2 fids M).1 (lay.outs fids)
  outs_le : ∀ fids, (lay.outs fids).length ≤ fids.length

variable {tc} in
/-- No ids, no entries. -/
theorem Layout.Right.outs_nil {lay : Layout} (hr : lay.Right tc) : lay.outs [] = [] :=
  List.eq_nil_of_length_eq_zero (Nat.le_zero.mp (hr.outs_le []))

/-! ### Pieces of a list -/

theorem length_chunks_le {k : ℕ} (hk : 0 < k) (fids : List UInt64) :
    (chunks k fids).length ≤ fids.length := by
  rw [chunks, List.length_map, List.length_range]
  rcases Nat.eq_zero_or_pos fids.length with h | h
  · rw [h, Nat.zero_add, Nat.div_eq_of_lt (by omega)]
  · refine Nat.lt_succ_iff.mp ((Nat.div_lt_iff_lt_mul hk).mpr ?_)
    have : fids.length ≤ fids.length * k := Nat.le_mul_of_pos_right _ hk
    rw [Nat.succ_mul]
    omega

theorem chunks_cons {k : ℕ} (hk : 0 < k) {fids : List UInt64} (h : fids ≠ []) :
    chunks k fids = fids.take k :: chunks k (fids.drop k) := by
  have hpos : 0 < fids.length := List.length_pos_iff.mpr h
  have hcount : (fids.length + (k - 1)) / k = ((fids.drop k).length + (k - 1)) / k + 1 := by
    rw [List.length_drop]
    rcases Nat.lt_or_ge fids.length k with hlt | hge
    · rw [Nat.sub_eq_zero_of_le hlt.le, Nat.zero_add, Nat.div_eq_of_lt (by omega : k - 1 < k)]
      exact Nat.div_eq_of_lt_le (by omega) (by omega)
    · rw [← Nat.add_div_right _ hk]
      congr 1
      omega
  rw [chunks, hcount, List.range_succ_eq_map, List.map_cons, List.map_map, chunks]
  refine congrArg₂ List.cons (by simp) (List.map_congr_left fun c _ => ?_)
  rw [Function.comp_apply, List.drop_drop, Nat.succ_mul, Nat.add_comm]

/-- Put together, the pieces are the list. -/
theorem flatten_chunks {k : ℕ} (hk : 0 < k) : ∀ (n : ℕ) (fids : List UInt64), fids.length ≤ n →
    (chunks k fids).flatten = fids
  | _, [], _ => by simp [chunks, Nat.div_eq_of_lt (by omega : k - 1 < k)]
  | n + 1, fid :: fids, hn => by
    have hlen : ((fid :: fids).drop k).length ≤ n := by
      rw [List.length_drop]; simp only [List.length_cons] at hn ⊢; omega
    rw [chunks_cons hk (by simp), List.flatten_cons, flatten_chunks hk n _ hlen,
      List.take_append_drop]

theorem flatten_map_valid (outs : List (List UInt64)) :
    (outs.map valid).flatten = valid outs.flatten := by
  rw [valid, List.filter_flatten]; rfl

/-! ### Words in a block -/

theorem drop_flatMap_putu64 : ∀ (ws : List UInt64) (i : ℕ),
    (ws.flatMap putu64).drop (i * 8) = (ws.drop i).flatMap putu64
  | ws, 0 => by simp
  | [], i + 1 => by simp
  | w :: ws, i + 1 => by
    rw [List.flatMap_cons, List.drop_succ_cons, ← drop_flatMap_putu64 ws i, Nat.succ_mul,
      Nat.add_comm, ← List.drop_drop, List.drop_left' (length_putu64 w)]

theorem length_flatMap_putu64 : ∀ ws : List UInt64, (ws.flatMap putu64).length = ws.length * 8
  | [] => rfl
  | w :: ws => by
    rw [List.flatMap_cons, List.length_append, length_flatMap_putu64 ws, length_putu64,
      List.length_cons]
    omega

theorem readWord_flatMap_putu64 {ws : List UInt64} {i : ℕ} (h : i < ws.length) :
    readWord (ws.flatMap putu64) i = .ok ws[i] := by
  rw [readWord, length_flatMap_putu64, if_pos (by omega), drop_flatMap_putu64,
    List.drop_eq_getElem_cons h, List.flatMap_cons, getu64_putu64_append]

theorem mapM_ok {α β ε : Type*} {f : α → Except ε β} : ∀ {l : List α} {g : α → β},
    (∀ a ∈ l, f a = .ok (g a)) → l.mapM f = .ok (l.map g)
  | [], _, _ => rfl
  | a :: l, g, h => by
    rw [List.mapM_cons, h a List.mem_cons_self,
      mapM_ok fun b hb => h b (List.mem_cons_of_mem _ hb)]
    rfl

theorem mapM_readWord (ws : List UInt64) :
    (List.range ws.length).mapM (readWord (ws.flatMap putu64)) = .ok ws := by
  have h : ∀ i ∈ List.range ws.length,
      readWord (ws.flatMap putu64) i = .ok (ws.getD i 0) := by
    intro i hi
    rw [List.mem_range] at hi
    rw [readWord_flatMap_putu64 hi, List.getD_eq_getElem _ _ hi]
  rw [mapM_ok h]
  congr 1
  refine List.ext_getElem (by simp) fun i hi hi' => ?_
  rw [List.getElem_map, List.getElem_range, List.getD_eq_getElem _ _ hi']

/-- A full block of ids: padding and revoked ids are left out. -/
theorem blockIds_flatMap_putu64 (core : Core) (K1minus : Bytes) {ws : List UInt64}
    (h : ws.length = B) : blockIds tc core K1minus (ws.flatMap putu64) =
      .ok (unrevoked tc core K1minus (valid ws)) := by
  rw [blockIds, ← h, mapM_readWord, unrevoked, valid, List.filter_filter]
  simp only [bind, Except.bind, pure, Except.pure, Except.ok.injEq]
  refine List.filter_congr fun id _ => ?_
  cases revoked tc core K1minus id <;> simp

theorem decrypt_block (K2 : Bytes) {ws : List UInt64} (h : ws.length = B) :
    decryptBytes tc K2 (encryptBytes tc K2 (ws.flatMap putu64))
      (encryptBytes tc K2 (ws.flatMap putu64)).length BLOCK_SIZE = .ok (ws.flatMap putu64) := by
  have hlen : (ws.flatMap putu64).length = BLOCK_SIZE := by
    rw [length_flatMap_putu64, h, BLOCK_SIZE, Nat.mul_comm]
  have := decryptBytes_encryptBytes tc K2 (ws.flatMap putu64) [] BLOCK_SIZE hlen.le
  rwa [List.append_nil, ← length_encryptBytes tc K2] at this

/-- `n` words: the first ids of a list, then `INVALID`. -/
def padded (n : ℕ) (fids : List UInt64) : List UInt64 :=
  fids.take n ++ List.replicate (n - fids.length) INVALID

@[simp] theorem length_padded (n : ℕ) (fids : List UInt64) : (padded n fids).length = n := by
  simp [padded]; omega

theorem valid_padded (n : ℕ) (fids : List UInt64) :
    valid (padded n fids) = valid (fids.take n) := by
  simp [valid, padded, List.filter_append]

/-! ### Basic -/

theorem basicLayout_right : (basicLayout tc).Right tc where
  grows _ _ _ := List.prefix_rfl
  outs_le fids := by simp [basicLayout]
  ext_le _ _ _ := Nat.le_add_right _ _
  size _ fids _ block hb := by
    simp only [basicLayout, basicEncoder, basicBlocks, List.mem_map] at hb
    obtain ⟨id, -, rfl⟩ := hb
    rfl
  holds K2 fids M _ := by
    simp only [Holds, basicLayout, basicEncoder, basicBlocks, List.forall₂_map_left_iff,
      List.forall₂_map_right_iff]
    refine List.forall₂_same.mpr fun id _ core K1minus _ => ?_
    have := decryptLong_encryptLong tc K2 id []
    rw [List.append_nil] at this
    simp only [idEntry]
    rw [← encryptLong, this]
    cases hr : revoked tc core K1minus id <;>
      simp [bind, Except.bind, pure, Except.pure, unrevoked, hr]

/-! ### Packed -/

theorem packedBlocks_eq (fids : List UInt64) : packedBlocks fids =
    (List.range ((fids.length + (B - 1)) / B)).map fun c =>
      (padded B (fids.drop (c * B))).flatMap putu64 := by
  refine List.map_congr_left fun c _ => ?_
  trans (List.range B).flatMap fun i => putu64 (((fids.drop (c * B))[i]?).getD INVALID)
  · congr 1
    funext i
    rw [List.getElem?_drop]
    cases fids[c * B + i]? <;> rfl
  rw [← List.flatMap_map]
  congr 1
  refine List.ext_getElem (by simp) fun i hi _ => ?_
  simp only [List.length_map, List.length_range] at hi
  simp only [List.getElem_map, List.getElem_range, padded, List.getElem_append, List.length_take]
  split
  · rename_i hlt
    rw [List.getElem_take, List.getElem?_eq_getElem (by omega), Option.getD_some]
  · rename_i hge
    rw [List.getElem_replicate, List.getElem?_eq_none (by omega), Option.getD_none]

theorem packedLayout_right : (packedLayout tc).Right tc where
  grows _ _ _ := List.prefix_rfl
  outs_le fids := by
    rw [packedLayout, List.length_map]
    exact length_chunks_le (by decide) fids
  ext_le _ _ _ := Nat.le_add_right _ _
  size _ fids _ block hb := by
    simp only [packedLayout, packedEncoder, packedBlocks_eq, List.mem_map] at hb
    obtain ⟨c, -, rfl⟩ := hb
    rw [length_flatMap_putu64, length_padded]; rfl
  holds K2 fids M _ := by
    simp only [Holds, packedLayout, packedEncoder, packedBlocks_eq, chunks, List.map_map,
      List.forall₂_map_left_iff, List.forall₂_map_right_iff]
    refine List.forall₂_same.mpr fun c _ core K1minus _ => ?_
    have hlen := length_padded B (fids.drop (c * B))
    simp only [packedEntry, decrypt_block tc K2 hlen, bind, Except.bind]
    rw [blockIds_flatMap_putu64 tc core K1minus hlen, valid_padded]
    rfl

/-! ### Pointer -/

theorem fillFileidBlock_eq : ∀ (k : ℕ) (fids : List UInt64),
    fillFileidBlock k fids = ((padded k fids).flatMap putu64, fids.drop k)
  | 0, fids => by simp [fillFileidBlock, padded]
  | k + 1, [] => by
    rw [fillFileidBlock, fillFileidBlock_eq k []]
    simp [padded, List.replicate_succ]
  | k + 1, fid :: fids => by
    rw [fillFileidBlock, fillFileidBlock_eq k fids]
    simp [padded]

/-- The loop over the pointers once they are read from their block. -/
def followWords (core : Core) (K2 K1minus : Bytes) : List UInt64 → Except Halt (List UInt64)
  | [] => .ok []
  | index :: rest =>
    if index = INVALID then .ok []
    else match core.A[index.toNat]? with
      | none => followWords core K2 K1minus rest
      | some encrypted => do
        let fileidBlock ← decryptBytes tc K2 encrypted encrypted.length BLOCK_SIZE
        let ids ← blockIds tc core K1minus fileidBlock
        let more ← followWords core K2 K1minus rest
        return ids ++ more

theorem followPointers_eq (core : Core) (K2 K1minus block : Bytes) :
    ∀ {is : List ℕ} {f : ℕ → UInt64}, (∀ i ∈ is, readWord block i = .ok (f i)) →
      followPointers tc core K2 K1minus block is = followWords tc core K2 K1minus (is.map f)
  | [], _, _ => rfl
  | i :: is, f, h => by
    rw [followPointers, h i List.mem_cons_self, List.map_cons, followWords,
      followPointers_eq core K2 K1minus block fun j hj => h j (List.mem_cons_of_mem _ hj)]
    rfl

theorem followPointers_flatMap (core : Core) (K2 K1minus : Bytes) {ws : List UInt64}
    (h : ws.length = B) : followPointers tc core K2 K1minus (ws.flatMap putu64) (List.range B) =
      followWords tc core K2 K1minus ws := by
  have hread : ∀ i ∈ List.range B, readWord (ws.flatMap putu64) i = .ok (ws.getD i 0) := by
    intro i hi
    rw [List.mem_range, ← h] at hi
    rw [readWord_flatMap_putu64 hi, List.getD_eq_getElem _ _ hi]
  rw [followPointers_eq tc core K2 K1minus _ hread]
  congr 1
  refine List.ext_getElem (by simp [h]) fun i hi hi' => ?_
  rw [List.getElem_map, List.getElem_range, List.getD_eq_getElem _ _ hi']

theorem followWords_invalid (core : Core) (K2 K1minus : Bytes) : ∀ n : ℕ,
    followWords tc core K2 K1minus (List.replicate n INVALID) = .ok []
  | 0 => rfl
  | n + 1 => by rw [List.replicate_succ, followWords, if_pos rfl]

/-- A pointer to a block of padded ids adds those ids to what the later pointers give. -/
theorem followWords_cons {core : Core} {K2 : Bytes} (K1minus : Bytes) {index : ℕ}
    {fids rest : List UInt64} {more : List UInt64} (hlt : index < INVALID.toNat)
    (hA : core.A[index]? = some (encryptBytes tc K2 ((padded B fids).flatMap putu64)))
    (hrest : followWords tc core K2 K1minus rest = .ok more) :
    followWords tc core K2 K1minus (UInt64.ofNat index :: rest) =
      .ok (unrevoked tc core K1minus (valid (fids.take B)) ++ more) := by
  have hnat : (UInt64.ofNat index).toNat = index :=
    UInt64.toNat_ofNat_of_lt' (hlt.trans INVALID.toNat_lt)
  have hne : UInt64.ofNat index ≠ INVALID := by
    intro h
    rw [← h, hnat] at hlt
    exact Nat.lt_irrefl _ hlt
  have hlen := length_padded B fids
  rw [followWords, if_neg hne, hnat, hA]
  simp only [decrypt_block tc K2 hlen, bind, Except.bind]
  rw [blockIds_flatMap_putu64 tc core K1minus hlen, valid_padded, hrest]
  rfl

theorem unrevoked_append (core : Core) (K1minus : Bytes) (ids ids' : List UInt64) :
    unrevoked tc core K1minus (ids ++ ids') =
      unrevoked tc core K1minus ids ++ unrevoked tc core K1minus ids' := List.filter_append ..

/-- What `fillPointerBlock` makes of the next `j * B` ids: `j` pointers that lead back to them. -/
structure Filled (K2 : Bytes) (j : ℕ) (fids : List UInt64) (M : List Bytes) (ptrs : List UInt64)
    (M' : List Bytes) : Prop where
  ptrs_length : ptrs.length = j
  grows : M <+: M'
  ext_le : M'.length + (fids.length - j * B) ≤ M.length + fids.length
  follow : M.length + fids.length < INVALID.toNat → ∀ core K1minus, M' <+: core.A →
    followWords tc core K2 K1minus ptrs =
      .ok (unrevoked tc core K1minus (valid (fids.take (j * B))))

theorem fillPointerBlock_filled (K2 : Bytes) : ∀ (j : ℕ) (fids : List UInt64) (M : List Bytes),
    fids ≠ [] →
    ∃ ptrs M', fillPointerBlock tc K2 j fids M = (ptrs.flatMap putu64, fids.drop (j * B), M') ∧
      Filled tc K2 j fids M ptrs M'
  | 0, fids, M, _ => by
    refine ⟨[], M, by simp [fillPointerBlock], rfl, List.prefix_rfl, by omega, ?_⟩
    intro _ core K1minus _
    simp [followWords, unrevoked, valid]
  | j + 1, fids, M, hne => by
    have hpos : 0 < fids.length := List.length_pos_iff.mpr hne
    have hidx : (M ++ [encryptBytes tc K2 ((padded B fids).flatMap putu64)]).length - 1 =
        M.length := by simp
    have hget : ∀ {M' A : List Bytes},
        M ++ [encryptBytes tc K2 ((padded B fids).flatMap putu64)] <+: M' → M' <+: A →
        A[M.length]? = some (encryptBytes tc K2 ((padded B fids).flatMap putu64)) := by
      intro M' A h h'
      obtain ⟨t, rfl⟩ := h.trans h'
      simp
    rw [fillPointerBlock, fillFileidBlock_eq]
    simp only [hidx]
    by_cases hlast : fids.length ≤ B
    · -- the ids run out in this file id block: the other pointers are `INVALID`
      have hdrop : fids.drop B = [] := List.drop_eq_nil_of_le hlast
      have hB : B ≤ (j + 1) * B := Nat.le_mul_of_pos_left _ (Nat.succ_pos j)
      rw [if_pos (by simp [hdrop])]
      refine ⟨UInt64.ofNat M.length :: List.replicate j INVALID,
        M ++ [encryptBytes tc K2 ((padded B fids).flatMap putu64)], ?_, ?_⟩
      · rw [List.drop_eq_nil_of_le (hlast.trans hB), List.flatMap_cons, ← List.map_replicate,
          ← List.flatMap_def]
      · refine ⟨by simp, List.prefix_append _ _, by simp; omega, ?_⟩
        intro hlt core K1minus hA
        rw [followWords_cons tc K1minus (by omega) (hget List.prefix_rfl hA)
          (followWords_invalid tc core K2 K1minus j), List.append_nil,
          List.take_of_length_le hlast, List.take_of_length_le (hlast.trans hB)]
    · have hne' : fids.drop B ≠ [] := by simpa using hlast
      have hB : 0 < B := by decide
      rw [if_neg (by simpa using hlast)]
      obtain ⟨ptrs, M', heq, hf⟩ := fillPointerBlock_filled K2 j (fids.drop B)
        (M ++ [encryptBytes tc K2 ((padded B fids).flatMap putu64)]) hne'
      have hext := hf.ext_le
      simp only [List.length_append, List.length_singleton, List.length_drop] at hext
      have hmul : (j + 1) * B = B + j * B := by rw [Nat.succ_mul, Nat.add_comm]
      refine ⟨UInt64.ofNat M.length :: ptrs, M', ?_, ?_⟩
      · simp only [heq, List.flatMap_cons, List.drop_drop, hmul]
      · refine ⟨by simp [hf.ptrs_length], (List.prefix_append _ _).trans hf.grows, by omega, ?_⟩
        intro hlt core K1minus hA
        rw [followWords_cons tc K1minus (by omega) (hget hf.grows hA)
            (hf.follow (by simp; omega) core K1minus hA), ← unrevoked_append,
          valid, valid, ← List.filter_append, ← List.take_add, hmul, valid]

/-- What `pointerBlocks` makes of a whole posting list. -/
structure Pointed (K2 : Bytes) (fids : List UInt64) (M blocks M' : List Bytes) : Prop where
  grows : M <+: M'
  ext_le : M'.length ≤ M.length + fids.length
  size : ∀ block ∈ blocks, block.length = BLOCK_SIZE
  holds : M.length + fids.length < INVALID.toNat →
    Holds tc (pointerLayout tc) K2 M' blocks ((chunks (B * B) fids).map valid)

theorem pointerBlocks_pointed (K2 : Bytes) : ∀ (fuel : ℕ) (fids : List UInt64) (M : List Bytes),
    fids.length ≤ fuel →
    Pointed tc K2 fids M (pointerBlocks tc K2 fuel fids M).1 (pointerBlocks tc K2 fuel fids M).2
  | 0, [], M, _ => ⟨List.prefix_rfl, le_rfl, by simp [pointerBlocks], fun _ => .nil⟩
  | fuel + 1, [], M, _ => by
    refine ⟨?_, ?_, ?_, fun _ => ?_⟩ <;> simp [pointerBlocks, Holds, chunks, B]
  | fuel + 1, fid :: fids, M, hf => by
    obtain ⟨ptrs, M', heq, hfill⟩ := fillPointerBlock_filled tc K2 B (fid :: fids) M (by simp)
    have hext := hfill.ext_le
    have hdrop : ((fid :: fids).drop (B * B)).length = (fid :: fids).length - B * B :=
      List.length_drop
    have hpos : 0 < B * B := by decide
    simp only [List.length_cons] at hf hext hdrop
    obtain ⟨hgrow, hext', hsize, hholds⟩ :=
      pointerBlocks_pointed K2 fuel ((fid :: fids).drop (B * B)) M' (by omega)
    rw [pointerBlocks, if_neg (by simp)]
    simp only [heq]
    refine ⟨hfill.grows.trans hgrow, by simp only [List.length_cons]; omega, ?_, ?_⟩
    · intro block hb
      rcases List.mem_cons.mp hb with rfl | hb
      · rw [length_flatMap_putu64, hfill.ptrs_length, BLOCK_SIZE, Nat.mul_comm]
      · exact hsize block hb
    · intro hlt
      simp only [List.length_cons] at hlt
      rw [chunks_cons hpos (by simp), List.map_cons]
      refine .cons (fun core K1minus hA => ?_) (hholds (by omega))
      simp only [pointerLayout, pointerEntry, decrypt_block tc K2 hfill.ptrs_length, bind,
        Except.bind]
      rw [followPointers_flatMap tc core K2 K1minus hfill.ptrs_length,
        hfill.follow (by simp only [List.length_cons]; omega) core K1minus (hgrow.trans hA)]

theorem pointerLayout_right : (pointerLayout tc).Right tc where
  grows K2 fids M := (pointerBlocks_pointed tc K2 fids.length fids M le_rfl).grows
  ext_le K2 fids M := (pointerBlocks_pointed tc K2 fids.length fids M le_rfl).ext_le
  size K2 fids M block hb := by
    rw [(pointerBlocks_pointed tc K2 fids.length fids M le_rfl).size block hb]; rfl
  holds K2 fids M := (pointerBlocks_pointed tc K2 fids.length fids M le_rfl).holds
  outs_le fids := by
    rw [pointerLayout, List.length_map]
    exact length_chunks_le (by decide) fids

theorem layout_right {v : Version} {lay : Layout} (h : v.layout? tc = some lay) : lay.Right tc := by
  cases v with
  | Basic => cases h; exact basicLayout_right tc
  | Packed => cases h; exact packedLayout_right tc
  | Pointer => cases h; exact pointerLayout_right tc
  | TwoLevelPointer => cases h

/-! ### The layout that a version number selects -/

/-- What a version lets a search read of a posting list: Basic has no padding. -/
def Version.readable : Version → List UInt64 → List UInt64
  | .Basic, fids => fids
  | _, fids => valid fids

theorem flatten_outs {v : Version} {lay : Layout} (h : v.layout? tc = some lay)
    (fids : List UInt64) : (lay.outs fids).flatten = v.readable fids := by
  cases v with
  | Basic =>
    cases h
    rw [basicLayout, ← List.flatMap_def, List.flatMap_singleton']
    rfl
  | Packed =>
    cases h
    rw [packedLayout, flatten_map_valid, flatten_chunks (by decide) _ fids le_rfl]
    rfl
  | Pointer =>
    cases h
    rw [pointerLayout, flatten_map_valid, flatten_chunks (by decide) _ fids le_rfl]
    rfl
  | TwoLevelPointer => cases h

/-- Without the reserved value in it, all of a posting list can be read. -/
theorem readable_eq (v : Version) {fids : List UInt64} (h : INVALID ∉ fids) :
    v.readable fids = fids := by
  have hvalid : valid fids = fids :=
    List.filter_eq_self.mpr fun id hid => by
      have : id ≠ INVALID := fun he => h (he ▸ hid)
      simpa using this
  cases v with
  | Basic => rfl
  | Packed => exact hvalid
  | Pointer => exact hvalid
  | TwoLevelPointer => exact hvalid

theorem setupClient_layout {v : Version} {lay : Layout} (h : v.layout? tc = some lay) (core : Core)
    (keys : Keys) (tokens : List Bytes) (fileids : Postings) :
    setupClient tc v.toInt core keys tokens fileids =
      (setupIndex tc lay.encode lay.dlen core keys tokens fileids).map fun r =>
        ({ r.1 with version := v.toInt }, r.2) := by
  cases v with
  | Basic => cases h; rfl
  | Packed => cases h; rfl
  | Pointer => cases h; rfl
  | TwoLevelPointer => cases h

/-- SetupClient only returns for a version that has a layout. -/
theorem setupClient_version {version : ℤ} {core core' : Core} {keys : Keys} {tokens : List Bytes}
    {fileids : Postings} {r : List SetupPair × List Bytes}
    (h : setupClient tc version core keys tokens fileids = .ok (core', r)) :
    ∃ v lay, Version.layout? tc v = some lay ∧ version = v.toInt := by
  by_cases h0 : version = Version.Basic.toInt
  · exact ⟨.Basic, _, rfl, h0⟩
  by_cases h1 : version = Version.Packed.toInt
  · exact ⟨.Packed, _, rfl, h1⟩
  by_cases h2 : version = Version.Pointer.toInt
  · exact ⟨.Pointer, _, rfl, h2⟩
  rw [setupClient, if_neg h0, if_neg h1, if_neg h2] at h
  simp [bind, Except.bind] at h

variable {tc} in
/-- What SetupClient leaves of the client, whatever the layout. -/
theorem setupClient_state {version : ℤ} {core core' : Core} {keys : Keys} {tokens : List Bytes}
    {fileids : Postings} {r : List SetupPair × List Bytes}
    (h : setupClient tc version core keys tokens fileids = .ok (core', r)) :
    core'.keys = keys ∧ core'.version = version ∧ core'.Dcount = core.Dcount := by
  obtain ⟨v, lay, hlay, rfl⟩ := setupClient_version tc h
  rw [setupClient_layout tc hlay, setupIndex] at h
  cases hidx : indexTokens tc lay.encode keys.key fileids tokens [] with
  | error e => rw [hidx] at h; simp [bind, Except.bind, Except.map] at h
  | ok q =>
    rw [hidx] at h
    simp only [bind, Except.bind, Except.map, pure, Except.pure, Except.ok.injEq, Prod.mk.injEq] at h
    obtain ⟨rfl, -⟩ := h
    exact ⟨rfl, rfl, rfl⟩

theorem searchServer_layout {v : Version} {lay : Layout} (h : v.layout? tc = some lay) {core : Core}
    (hv : core.version = v.toInt) (k : SearchKeys) :
    searchServer tc core k = searchLoops tc lay.entry core k := by
  rw [searchServer, hv]
  cases v with
  | Basic => cases h; rfl
  | Packed => cases h; rfl
  | Pointer => cases h; rfl
  | TwoLevelPointer => cases h

end DSSE
