import DSSE.Keystream

/-! What SetupClientPointer leaves behind: the pointer blocks of the words lead to all file id blocks, one
    after the other and each once, and in these stand the posting lists. -/

namespace DSSE
open Schemes Std

section
variable (tc : Tomcrypt)

/-- The words of a decrypted block. -/
def blockWords (K2 d : Bytes) : Except Halt (List UInt64) := do
  let block ← decryptBytes tc K2 d d.length BLOCK_SIZE
  (List.range B).mapM (readWord block)

/-- The pointer blocks of a word, for the counters 0, 1, 2, … up to the first label that is missing. -/
def Core.pointerRows (server : Core) (key w : Bytes) : Except Halt (List (List UInt64)) :=
  probe (fun c => server.D[macLong tc (macKey tc key 0x31 w) (UInt64.ofNat c)]?)
    (fun d => (blockWords tc (macKey tc key 0x32 w) d).map fun words => [words]) .hang (2 ^ 64) 0

/-- The file id block that a pointer leads to. -/
def Core.fileidRow (server : Core) (K2 : Bytes) (index : UInt64) : Except Halt (List UInt64) :=
  match server.A[index.toNat]? with
  | some d => blockWords tc K2 d
  | none => .error .undefined

end

/-! ### Rows with padding -/

theorem length_chunks (k : ℕ) (fids : List UInt64) :
    (chunks k fids).length = (fids.length + (k - 1)) / k := by
  rw [chunks, List.length_map, List.length_range]

/-- Padding stands only behind the last id, and is less than a row. -/
theorem flatten_map_padded {k : ℕ} (hk : 0 < k) : ∀ (n : ℕ) (fids : List UInt64), fids.length ≤ n →
    ∃ j < k, ((chunks k fids).map (padded k)).flatten = fids ++ List.replicate j INVALID
  | _, [], _ => ⟨0, hk, by rw [chunks_nil hk]; rfl⟩
  | n + 1, fid :: fids, hn => by
    have hne : fid :: fids ≠ [] := List.cons_ne_nil _ _
    have hlen : ((fid :: fids).drop k).length ≤ n := by
      rw [List.length_drop]
      simp only [List.length_cons] at hn ⊢
      omega
    obtain ⟨j, hj, hrest⟩ := flatten_map_padded hk n _ hlen
    have htake : padded k ((fid :: fids).take k) =
        (fid :: fids).take k ++ List.replicate (k - (fid :: fids).length) INVALID := by
      rw [padded, List.take_take, Nat.min_self, List.length_take]
      congr 2
      omega
    rw [chunks_cons hk hne, List.map_cons, List.flatten_cons, hrest, htake]
    by_cases hlast : (fid :: fids).length ≤ k
    · refine ⟨k - (fid :: fids).length, Nat.sub_lt hk (Nat.succ_pos _), ?_⟩
      have hdrop : (fid :: fids).drop k = [] := List.drop_eq_nil_of_le hlast
      obtain rfl : j = 0 := by
        rw [hdrop, chunks_nil hk] at hrest
        simpa using hrest
      rw [hdrop, List.take_of_length_le hlast, List.nil_append, List.replicate_zero, List.append_nil]
    · refine ⟨j, hj, ?_⟩
      rw [Nat.sub_eq_zero_of_le (by omega), List.replicate_zero, List.append_nil, ← List.append_assoc,
        List.take_append_drop]

theorem valid_append_replicate {fids : List UInt64} (h : INVALID ∉ fids) (j : ℕ) :
    valid (fids ++ List.replicate j INVALID) = fids := by
  have hself : valid fids = fids := by
    refine List.filter_eq_self.mpr fun id hid => ?_
    simpa using ne_of_mem_of_not_mem hid h
  rw [valid, List.filter_append, ← valid, hself, List.filter_replicate]
  simp

theorem numbers_append (m a b : ℕ) : numbers m a ++ numbers (m + a) b = numbers m (a + b) := by
  have hsplit := List.take_append_drop a (numbers m (a + b))
  rwa [take_numbers, drop_numbers, Nat.min_eq_left (Nat.le_add_right a b),
    Nat.add_sub_cancel_left] at hsplit

theorem invalid_notMem_numbers {m n : ℕ} (h : m + n ≤ INVALID.toNat) : INVALID ∉ numbers m n := by
  intro hmem
  obtain ⟨i, hi, he⟩ := List.mem_map.mp hmem
  have hlt : m + i < INVALID.toNat := (Nat.add_lt_add_left (List.mem_range.mp hi) m).trans_le h
  have hlt64 : m + i < 2 ^ 64 := hlt.trans INVALID.toNat_lt
  rw [← he, UInt64.toNat_ofNat_of_lt' hlt64] at hlt
  exact Nat.lt_irrefl _ hlt

variable {tc : Tomcrypt}

/-! ### The entries and the external blocks -/

/-- How many file id blocks the tokens need together. -/
def fileidTotal (fileids : Postings) (tokens : List Bytes) : ℕ :=
  (tokens.map fun w => (chunks B (fileids.getD w [])).length).sum

/-- The entries of the tokens are their pointer blocks, and the file id blocks follow in list order. -/
theorem encodeTokens_pointer (tc : Tomcrypt) (key : Bytes) (fileids : Postings) :
    ∀ tokens M : List Bytes, encodeTokens tc (pointerEncoder tc) key fileids tokens M =
      ((placed fileids M.length tokens).map
          fun e => (e.1, (pointersOf e.2 (fileids.getD e.1 [])).map blockOf),
        M ++ tokens.flatMap fun w => fileidBlocks tc (macKey tc key 0x32 w) (fileids.getD w []))
  | [], M => by simp [encodeTokens, placed]
  | w :: tokens, M => by
    have ih := encodeTokens_pointer tc key fileids tokens
      (M ++ fileidBlocks tc (macKey tc key 0x32 w) (fileids.getD w []))
    have hlen : (M ++ fileidBlocks tc (macKey tc key 0x32 w) (fileids.getD w [])).length =
        M.length + (chunks B (fileids.getD w [])).length := by
      rw [List.length_append, fileidBlocks, List.length_map]
    rw [hlen] at ih
    rw [encodeTokens, pointerEncoder, pointerBlocks_eq tc _ _ _ _ le_rfl]
    simp only [ih, placed, List.map_cons, List.flatMap_cons, List.append_assoc]

theorem map_fst_placed (fileids : Postings) : ∀ (tokens : List Bytes) (m : ℕ),
    (placed fileids m tokens).map Prod.fst = tokens
  | [], _ => rfl
  | w :: tokens, _ => congrArg (w :: ·) (map_fst_placed fileids tokens _)

/-- The file id blocks of a token stand from its place on. -/
theorem split_of_placed (tc : Tomcrypt) (K2 : Bytes → Bytes) (fileids : Postings) :
    ∀ (tokens M : List Bytes), ∀ e ∈ placed fileids M.length tokens, ∃ pre post, pre.length = e.2 ∧
      M ++ tokens.flatMap (fun w => fileidBlocks tc (K2 w) (fileids.getD w [])) =
        pre ++ fileidBlocks tc (K2 e.1) (fileids.getD e.1 []) ++ post
  | [], _, _, he => by cases he
  | w :: tokens, M, e, he => by
    rw [List.flatMap_cons, ← List.append_assoc]
    rcases List.mem_cons.mp he with rfl | he
    · exact ⟨M, _, rfl, rfl⟩
    · refine split_of_placed tc K2 fileids tokens (M ++ fileidBlocks tc (K2 w) (fileids.getD w [])) e ?_
      rwa [List.length_append, fileidBlocks, List.length_map]

/-- The numbers of the file id blocks of the tokens, put together. -/
theorem flatMap_numbers_placed (fileids : Postings) : ∀ (tokens : List Bytes) (m : ℕ),
    ((placed fileids m tokens).flatMap fun e =>
      numbers e.2 (chunks B (fileids.getD e.1 [])).length) = numbers m (fileidTotal fileids tokens)
  | [], _ => rfl
  | w :: tokens, m => by
    rw [placed, List.flatMap_cons, flatMap_numbers_placed fileids tokens, numbers_append, fileidTotal,
      fileidTotal, List.map_cons, List.sum_cons]

theorem placed_le (fileids : Postings) : ∀ (tokens : List Bytes) (m : ℕ), ∀ e ∈ placed fileids m tokens,
    e.2 + (chunks B (fileids.getD e.1 [])).length ≤ m + fileidTotal fileids tokens
  | [], _, _, he => by cases he
  | w :: tokens, m, e, he => by
    rw [fileidTotal, List.map_cons, List.sum_cons]
    rcases List.mem_cons.mp he with rfl | he
    · exact Nat.add_le_add_left (Nat.le_add_right _ _) m
    · have ih := placed_le fileids tokens _ e he
      rw [fileidTotal] at ih
      omega

/-- The entry of a name that is not repeated. -/
theorem lookup_of_mem {β : Type} : ∀ {L : List (Bytes × β)}, (L.map Prod.fst).Nodup →
    ∀ e ∈ L, L.lookup e.1 = some e.2
  | [], _, _, he => by cases he
  | e₀ :: L, hnodup, e, he => by
    rw [List.map_cons, List.nodup_cons] at hnodup
    rw [List.lookup_cons]
    rcases List.mem_cons.mp he with rfl | he
    · rw [beq_self_eq_true]
    · have hne : e.1 ≠ e₀.1 := fun h => hnodup.1 (h ▸ List.mem_map_of_mem he)
      rw [beq_eq_false_iff_ne.mpr hne]
      exact lookup_of_mem hnodup.2 e he

/-! ### The dictionary of a Setup -/

/-- With words that are not repeated the dictionary keeps for each word the blocks of its entry. -/
theorem handoff_filed {log : List MacCall} {key : Bytes} {dlen : ℕ} {entries : List (Bytes × List Bytes)}
    (hsize : ∀ e ∈ entries, ∀ block ∈ e.2, block.length + 16 = dlen)
    (hnodup : (entries.map Prod.fst).Nodup) (hnul : ∀ e ∈ entries, NulFree e.1)
    (hfit : ∀ e ∈ entries, e.2.length < 2 ^ 64) (hn : NoCollision tc log)
    (hlogged : ∀ e ∈ entries, ∀ c < e.2.length, derivedCalls tc key e.1 (UInt64.ofNat c) ⊆ log) :
    Filed tc log key (handoffDict tc key dlen entries) fun w =>
      ((entries.lookup w).getD []).map (encryptBytes tc (macKey tc key 0x32 w)) := by
  have hitems : ∀ w blocks, entries.lookup w = some blocks → (w, blocks) ∈ entries := by
    intro w blocks hlookup
    obtain ⟨L₁, L₂, rfl, -⟩ := List.lookup_eq_some_iff.mp hlookup
    simp
  have hentry : ∀ w, (entries.lookup w).getD [] ≠ [] → (w, (entries.lookup w).getD []) ∈ entries := by
    intro w hne
    cases hlookup : entries.lookup w with
    | none => rw [hlookup] at hne; exact absurd rfl hne
    | some blocks => exact hitems w blocks hlookup
  refine ⟨⟨fun w c d hd => ?_, fun l d hd => ?_⟩, fun w => ?_, fun w hne => ?_, fun w c hc => ?_⟩
  · rw [List.getElem?_map, Option.map_eq_some_iff] at hd
    obtain ⟨block, hblock, rfl⟩ := hd
    have hlt := (List.getElem?_eq_some_iff.mp hblock).1
    have he := hentry w (List.ne_nil_of_length_pos (Nat.zero_lt_of_lt hlt))
    obtain ⟨d, hget⟩ : ∃ d, (handoffDict tc key dlen entries)[derived tc key w (UInt64.ofNat c)]? = some d :=
      ⟨_, ExtTreeMap.getElem?_eq_some_getElem (mem_handoffDict tc key hsize _ he c hlt)⟩
    obtain ⟨e', he', c', block', hblock', hl, rfl⟩ := entry_of_handoffDict tc key hsize hget
    have hlt' := (List.getElem?_eq_some_iff.mp hblock').1
    -- the block under the label is that of the word and the number
    obtain ⟨hw, hx⟩ := derived_inj_word hn (hnul e' he') (hnul _ he) (hlogged e' he' c' hlt')
      (hlogged _ he c hlt) hl
    obtain rfl := ofNat_inj (hlt'.trans (hfit e' he')) (hlt.trans (hfit _ he)) hx
    have hsame := lookup_of_mem hnodup e' he'
    rw [hw] at hsame
    rw [hsame, Option.getD_some, hblock'] at hblock
    rw [hget, hw, Option.some.inj hblock]
  · obtain ⟨e, he, c, block, hblock, rfl, rfl⟩ := entry_of_handoffDict tc key hsize hd
    refine ⟨e.1, c, ?_, rfl⟩
    rw [lookup_of_mem hnodup e he, Option.getD_some, List.getElem?_map, hblock]
    rfl
  · rw [List.length_map]
    cases hlookup : entries.lookup w with
    | none => exact Nat.two_pow_pos 64
    | some blocks => exact hfit _ (hitems w blocks hlookup)
  · exact hnul _ (hentry w fun h => hne (by rw [h]; rfl))
  · rw [List.length_map] at hc
    exact hlogged _ (hentry w (List.ne_nil_of_length_pos (Nat.zero_lt_of_lt hc))) c hc

/-! ### Reading the blocks -/

theorem blockWords_blockOf (tc : Tomcrypt) (K2 : Bytes) (ids : List UInt64) :
    blockWords tc K2 (encryptBytes tc K2 (blockOf ids)) = .ok (padded B ids) := by
  have hlen := length_padded B ids
  have hwords := mapM_readWord (padded B ids)
  rw [hlen] at hwords
  rw [blockWords, blockOf, decrypt_block tc K2 hlen]
  exact hwords

/-- The pointer blocks of a word whose entries are these rows. -/
theorem pointerRows_of_filed {log : List MacCall} {key : Bytes} {server : Core} {cts : Bytes → List Bytes}
    (h : Filed tc log key server.D cts) (hn : NoCollision tc log) {w : Bytes} (hw : NulFree w)
    {rows : List (List UInt64)}
    (hcts : cts w = rows.map fun ids => encryptBytes tc (macKey tc key 0x32 w) (blockOf ids))
    (hkey : macKeyCall key 0x31 w ∈ log) (hlabels : labelCalls tc server.D (macKey tc key 0x31 w) ⊆ log) :
    server.pointerRows tc key w = .ok (rows.map (padded B)) := by
  have hlog := h.derivedCalls_subset hkey hlabels (Nat.le_refl (cts w).length)
  have hmiss := h.getElem? hn hw (h.fits w) hlog
  rw [List.getElem?_eq_none le_rfl] at hmiss
  have hrun : Run (fun c => server.D[macLong tc (macKey tc key 0x31 w) (UInt64.ofNat c)]?) 0 (cts w) :=
    ⟨h.hit w, by rw [Nat.zero_add]; exact hmiss⟩
  have hflat : rows.map (padded B) = (rows.map fun ids => [padded B ids]).flatten := by
    rw [← List.flatMap_def, ← List.map_eq_flatMap]
  rw [Core.pointerRows, hflat]
  refine probe_run hrun (h.fits w) ?_
  rw [hcts, List.forall₂_map_left_iff, List.forall₂_map_right_iff]
  refine List.forall₂_same.mpr fun ids _ => ?_
  rw [blockWords_blockOf]
  rfl

/-- The pointers to the blocks behind `pre` lead to the ids in them, piece by piece. -/
theorem fileidRows_of_split {server : Core} {K2 : Bytes} (post : List Bytes) :
    ∀ (pieces : List (List UInt64)) (pre : List Bytes), pre.length + pieces.length ≤ 2 ^ 64 →
      server.A = pre ++ pieces.map (fun ids => encryptBytes tc K2 (blockOf ids)) ++ post →
      (numbers pre.length pieces.length).mapM (server.fileidRow tc K2) = .ok (pieces.map (padded B))
  | [], _, _, _ => rfl
  | ids :: pieces, pre, hlt, hA => by
    simp only [List.length_cons] at hlt
    have hA' : server.A = pre ++ [encryptBytes tc K2 (blockOf ids)] ++
        pieces.map (fun ids => encryptBytes tc K2 (blockOf ids)) ++ post := by
      rw [hA, List.map_cons]
      simp only [List.append_assoc, List.cons_append, List.nil_append]
    have ih := fileidRows_of_split post pieces (pre ++ [encryptBytes tc K2 (blockOf ids)])
      (by rw [List.length_append, List.length_singleton]; omega) hA'
    rw [List.length_append, List.length_singleton] at ih
    have hrow : server.fileidRow tc K2 (UInt64.ofNat pre.length) = .ok (padded B ids) := by
      have hpre : pre.length < 2 ^ 64 := by omega
      have hnat : (UInt64.ofNat pre.length).toNat = pre.length := UInt64.toNat_ofNat_of_lt' hpre
      have hget : server.A[pre.length]? = some (encryptBytes tc K2 (blockOf ids)) := by
        rw [hA']
        simp
      rw [Core.fileidRow, hnat, hget]
      exact blockWords_blockOf tc K2 ids
    rw [List.length_cons, numbers_succ, List.mapM_cons, hrow, ih]
    rfl

/-! ### The pointer layout -/

/-- What a word with the ids `fids` has of the index: its pointer blocks are `rows`. -/
structure WordBlocks (tc : Tomcrypt) (server : Core) (K2 : Bytes) (fids : List UInt64)
    (rows : List (List UInt64)) : Prop where
  count : rows.length = (fids.length + 24) / 25
  slots : ∀ row ∈ rows, row.length = B
  suffix : ∃ j < B, rows.flatten = valid rows.flatten ++ List.replicate j INVALID
  owned : (valid rows.flatten).length = (fids.length + 4) / 5
  ids : ∃ blocks, (valid rows.flatten).mapM (server.fileidRow tc K2) = .ok blocks ∧
    (∀ block ∈ blocks, block.length = B) ∧
    ∃ j < B, blocks.flatten = fids ++ List.replicate j INVALID

theorem wordBlocks_of_split {server : Core} {K2 : Bytes} {fids : List UInt64} {pre post : List Bytes}
    (hfit : pre.length + (chunks B fids).length ≤ INVALID.toNat)
    (hA : server.A = pre ++ fileidBlocks tc K2 fids ++ post) :
    valid ((pointersOf pre.length fids).map (padded B)).flatten =
        numbers pre.length (chunks B fids).length ∧
      WordBlocks tc server K2 fids ((pointersOf pre.length fids).map (padded B)) := by
  have hB : 0 < B := by decide
  have hnumbers : (numbers pre.length (chunks B fids).length).length = (chunks B fids).length := by
    rw [numbers, List.length_map, List.length_range]
  obtain ⟨j, hj, hflat⟩ := flatten_map_padded hB _ (numbers pre.length (chunks B fids).length) le_rfl
  obtain ⟨i, hi, hids⟩ := flatten_map_padded hB _ fids le_rfl
  have hvalid : valid ((pointersOf pre.length fids).map (padded B)).flatten =
      numbers pre.length (chunks B fids).length := by
    rw [pointersOf, hflat, valid_append_replicate (invalid_notMem_numbers hfit)]
  have hrows : ∀ pieces : List (List UInt64), ∀ row ∈ pieces.map (padded B), row.length = B := by
    intro pieces row hrow
    obtain ⟨ids, -, rfl⟩ := List.mem_map.mp hrow
    exact length_padded B ids
  refine ⟨hvalid, ?_, hrows _, ⟨j, hj, ?_⟩, ?_, _, ?_, hrows (chunks B fids), i, hi, hids⟩
  · rw [List.length_map, pointersOf, length_chunks, hnumbers, length_chunks, B]
    omega
  · rw [hvalid, pointersOf, hflat]
  · rw [hvalid, hnumbers, length_chunks, B]
  · have hlt : pre.length + (chunks B fids).length ≤ 2 ^ 64 := hfit.trans INVALID.toNat_lt.le
    rw [hvalid]
    exact fileidRows_of_split post (chunks B fids) pre hlt hA

/-! ### A Setup with the pointer layout -/

/-- The tokens with their pointer blocks. -/
def pointerEntries (fileids : Postings) (tokens : List Bytes) : List (Bytes × List Bytes) :=
  (placed fileids 0 tokens).map fun e => (e.1, (pointersOf e.2 (fileids.getD e.1 [])).map blockOf)

theorem map_fst_pointerEntries (fileids : Postings) (tokens : List Bytes) :
    (pointerEntries fileids tokens).map Prod.fst = tokens := by
  rw [pointerEntries, List.map_map]
  exact map_fst_placed fileids tokens 0

theorem length_pointersOf (m : ℕ) (fids : List UInt64) :
    (pointersOf m fids).length = (fids.length + 24) / 25 := by
  rw [pointersOf, length_chunks, numbers, List.length_map, List.length_range, length_chunks, B]
  omega

theorem pointerEntries_size (fileids : Postings) (tokens : List Bytes) :
    ∀ e ∈ pointerEntries fileids tokens, ∀ block ∈ e.2, block.length + 16 = ENCRYPTED_BLOCK_SIZE := by
  intro e he block hblock
  obtain ⟨e', -, rfl⟩ := List.mem_map.mp he
  obtain ⟨ids, -, rfl⟩ := List.mem_map.mp hblock
  rw [blockOf, length_flatMap_putu64, length_padded]
  rfl

/-- What SetupClientPointer hands over. -/
theorem setupClientPointer_eq (tc : Tomcrypt) (core : Core) (keys : Keys) {tokens : List Bytes}
    {fileids : Postings} (hposted : ∀ w ∈ tokens, w ∈ fileids) :
    setupClientPointer tc core keys tokens fileids =
      .ok ({ core with key := keys.key, kplus := keys.kplus, kminus := keys.kminus },
        (sortTokenPairs (entryPairs tc keys.key (pointerEntries fileids tokens))).map
          fun p => ⟨p.l, p.d.take ENCRYPTED_BLOCK_SIZE⟩,
        tokens.flatMap fun w => fileidBlocks tc (macKey tc keys.key 0x32 w) (fileids.getD w [])) := by
  rw [setupClientPointer, setupIndex, indexTokens_eq tc _ _ _ _ _ hposted, encodeTokens_pointer]
  rfl

theorem length_handoff (tc : Tomcrypt) (key : Bytes) (fileids : Postings) (tokens : List Bytes) :
    (sortTokenPairs (entryPairs tc key (pointerEntries fileids tokens))).length =
      (tokens.map fun w => ((fileids.getD w []).length + 24) / 25).sum := by
  have htokens : tokens.map (fun w => ((fileids.getD w []).length + 24) / 25) =
      (placed fileids 0 tokens).map fun e => ((fileids.getD e.1 []).length + 24) / 25 := by
    conv_lhs => rw [← map_fst_placed fileids tokens 0, List.map_map]
    rfl
  rw [sortTokenPairs, List.length_insertionSort, entryPairs, List.length_flatMap, pointerEntries,
    List.map_map, htokens]
  refine congrArg List.sum (List.map_congr_left fun e _ => ?_)
  simp only [Function.comp_apply, setupPairs, List.length_map, List.length_zipIdx, length_pointersOf]

/-- The server that a SetupClientPointer is handed over to. -/
def pointerServer (tc : Tomcrypt) (core : Core) (keys : Keys) (tokens : List Bytes) (fileids : Postings) :
    Core :=
  match setupClientPointer tc core keys tokens fileids with
  | .ok (_, L, M) => setupServer Version.Pointer.toInt .new L M
  | .error _ => .new

/-- The labels that are looked up to read the pointer blocks of the tokens. -/
def readCalls (tc : Tomcrypt) (server : Core) (key : Bytes) (tokens : List Bytes) : List MacCall :=
  tokens.flatMap fun w => labelCalls tc server.D (macKey tc key 0x31 w)

/-- The key of every token is computed. -/
theorem macKeyCall_mem_indexCalls (tc : Tomcrypt) (encode : Encoder) (key : Bytes) (fileids : Postings) :
    ∀ (tokens M : List Bytes), (∀ w ∈ tokens, w ∈ fileids) →
      ∀ w ∈ tokens, macKeyCall key 0x31 w ∈ indexCalls tc encode key fileids tokens M
  | [], _, _, _, hw => by cases hw
  | u :: tokens, M, hposted, w, hw => by
    rw [indexCalls, getElem?_of_posted (hposted u List.mem_cons_self)]
    rcases List.mem_cons.mp hw with rfl | hw
    · exact List.mem_cons_self
    · have ih := macKeyCall_mem_indexCalls tc encode key fileids tokens
        (encode (macKey tc key 0x32 u) (fileids.getD u []) M).2
        (fun v hv => hposted v (List.mem_cons_of_mem _ hv)) w hw
      exact List.mem_cons_of_mem _ (List.mem_cons_of_mem _ (List.mem_append_right _ ih))

/-- What the server has of each token. -/
theorem wordBlocks_of_placed {log : List MacCall} {key : Bytes} {server : Core} {fileids : Postings}
    {tokens : List Bytes} (hnodup : tokens.Nodup) (hnul : ∀ w ∈ tokens, NulFree w)
    (hposted : ∀ w ∈ tokens, w ∈ fileids) (hfit : fileidTotal fileids tokens < INVALID.toNat)
    (hD : server.D = handoffDict tc key ENCRYPTED_BLOCK_SIZE (pointerEntries fileids tokens))
    (hA : server.A = tokens.flatMap fun w => fileidBlocks tc (macKey tc key 0x32 w) (fileids.getD w []))
    (hn : NoCollision tc log) (hsetup : indexCalls tc (pointerEncoder tc) key fileids tokens [] ⊆ log)
    (hread : readCalls tc server key tokens ⊆ log) {e : Bytes × ℕ} (he : e ∈ placed fileids 0 tokens) :
    server.pointerRows tc key e.1 =
        .ok ((pointersOf e.2 (fileids.getD e.1 [])).map (padded B)) ∧
      valid ((pointersOf e.2 (fileids.getD e.1 [])).map (padded B)).flatten =
        numbers e.2 (chunks B (fileids.getD e.1 [])).length ∧
      WordBlocks tc server (macKey tc key 0x32 e.1) (fileids.getD e.1 [])
        ((pointersOf e.2 (fileids.getD e.1 [])).map (padded B)) := by
  have hfst := map_fst_pointerEntries fileids tokens
  have hnodup' : ((pointerEntries fileids tokens).map Prod.fst).Nodup := by rwa [hfst]
  have hin : ∀ e ∈ pointerEntries fileids tokens, e.1 ∈ tokens := fun e he =>
    hfst ▸ List.mem_map_of_mem he
  have hlogged := encodeTokens_logged tc (pointerEncoder tc) key fileids tokens [] hposted
  rw [encodeTokens_pointer] at hlogged
  have hentry : (e.1, (pointersOf e.2 (fileids.getD e.1 [])).map blockOf) ∈
      pointerEntries fileids tokens := List.mem_map_of_mem he
  have hw : e.1 ∈ tokens := hin _ hentry
  have hlengths : ∀ e' ∈ pointerEntries fileids tokens, e'.2.length < 2 ^ 64 := by
    intro e' he'
    obtain ⟨e₀, he₀, rfl⟩ := List.mem_map.mp he'
    have hle := placed_le fileids tokens 0 e₀ he₀
    rw [length_chunks, B] at hle
    have hinv := INVALID.toNat_lt
    rw [List.length_map, length_pointersOf]
    omega
  have hfiled := handoff_filed (pointerEntries_size fileids tokens) hnodup'
    (fun e' he' => hnul _ (hin e' he')) hlengths hn
    (fun e' he' c hc => List.Subset.trans (hlogged e' he' c hc) hsetup)
  rw [← hD] at hfiled
  have hle := placed_le fileids tokens 0 e he
  rw [Nat.zero_add] at hle
  obtain ⟨pre, post, hpre, hsplit⟩ :=
    split_of_placed tc (macKey tc key 0x32) fileids tokens [] e he
  rw [List.nil_append, ← hA] at hsplit
  have hblocks := wordBlocks_of_split (by omega) hsplit
  rw [hpre] at hblocks
  refine ⟨pointerRows_of_filed hfiled hn (hnul _ hw) ?_ ?_ ?_, hblocks⟩
  · rw [lookup_of_mem hnodup' _ hentry, Option.getD_some, List.map_map]
    rfl
  · exact hsetup (macKeyCall_mem_indexCalls tc (pointerEncoder tc) key fileids tokens [] hposted e.1 hw)
  · exact fun call hcall => hread (List.mem_flatMap.mpr ⟨e.1, hw, hcall⟩)

/-- **The pointer layout loses and shares no block**: SetupClientPointer gives every token its pointer and
    file id blocks, and the pointers of all tokens, in list order, are the numbers of all blocks. -/
theorem setupClientPointer_blocks (tc : Tomcrypt) (core : Core) (keys : Keys) {tokens : List Bytes}
    {fileids : Postings} (hnodup : tokens.Nodup) (hnul : ∀ w ∈ tokens, NulFree w)
    (hposted : ∀ w ∈ tokens, w ∈ fileids)
    (hfit : (tokens.map fun w => ((fileids.getD w []).length + 4) / 5).sum < INVALID.toNat)
    (hn : NoCollision tc (setupCalls tc Version.Pointer.toInt keys tokens fileids ++
      readCalls tc (pointerServer tc core keys tokens fileids) keys.key tokens)) :
    ∃ core' L M, setupClientPointer tc core keys tokens fileids = .ok (core', L, M) ∧
      L.length = (tokens.map fun w => ((fileids.getD w []).length + 24) / 25).sum ∧
      ∃ P : Bytes → List (List UInt64),
        (∀ w ∈ tokens,
          (setupServer Version.Pointer.toInt .new L M).pointerRows tc keys.key w = .ok (P w) ∧
          WordBlocks tc (setupServer Version.Pointer.toInt .new L M) (macKey tc keys.key 0x32 w)
            (fileids.getD w []) (P w)) ∧
        (tokens.flatMap fun w => valid (P w).flatten) = (List.range M.length).map UInt64.ofNat := by
  have htotal : (tokens.map fun w => ((fileids.getD w []).length + 4) / 5).sum =
      fileidTotal fileids tokens :=
    congrArg List.sum (List.map_congr_left fun w _ => (length_chunks B _).symm)
  rw [htotal] at hfit
  rw [pointerServer, setupClientPointer_eq tc core keys hposted] at hn
  dsimp only at hn
  refine ⟨_, _, _, setupClientPointer_eq tc core keys hposted, ?_, ?_⟩
  · rw [List.length_map, length_handoff]
  have hword := fun e => wordBlocks_of_placed (e := e) hnodup hnul hposted hfit rfl rfl hn
    (List.subset_append_left _ _) (List.subset_append_right _ _)
  have hplaced : ((placed fileids 0 tokens).map Prod.fst).Nodup := by rwa [map_fst_placed]
  obtain ⟨place, hplace⟩ : ∃ place : Bytes → ℕ, ∀ e ∈ placed fileids 0 tokens, place e.1 = e.2 :=
    ⟨fun w => ((placed fileids 0 tokens).lookup w).getD 0, fun e he => by
      beta_reduce
      rw [lookup_of_mem hplaced e he, Option.getD_some]⟩
  refine ⟨fun w => (pointersOf (place w) (fileids.getD w [])).map (padded B), fun w hw => ?_, ?_⟩
  · rw [← map_fst_placed fileids tokens 0] at hw
    obtain ⟨e, he, rfl⟩ := List.mem_map.mp hw
    obtain ⟨hrows, -, hblocks⟩ := hword e he
    beta_reduce
    rw [hplace e he]
    exact ⟨hrows, hblocks⟩
  · have hnumbers : (tokens.flatMap fun w =>
        valid ((pointersOf (place w) (fileids.getD w [])).map (padded B)).flatten) =
        (placed fileids 0 tokens).flatMap fun e =>
          numbers e.2 (chunks B (fileids.getD e.1 [])).length := by
      conv_lhs => rw [← map_fst_placed fileids tokens 0, List.flatMap_map]
      refine List.flatMap_congr fun e he => ?_
      rw [hplace e he]
      exact (hword e he).2.1
    have hlen : (tokens.flatMap fun w =>
        fileidBlocks tc (macKey tc keys.key 0x32 w) (fileids.getD w [])).length =
        fileidTotal fileids tokens := by
      rw [List.length_flatMap, fileidTotal]
      simp only [fileidBlocks, List.length_map]
    rw [hnumbers, flatMap_numbers_placed, hlen, numbers]
    simp only [Nat.zero_add]

/-- A word with 26 ids, one with none and one with 5: a second pointer block, and full blocks. -/
def sampleLayout : Postings :=
  (((∅ : Postings).insert [97] ((List.range 26).map UInt64.ofNat)).insert [98] []).insert [99]
    [7, 8, 9, 10, 11]

theorem setupClientPointer_blocks_sample :
    ∃ core' L M, setupClientPointer standIn .new sampleKeys [[97], [98], [99]] sampleLayout =
        .ok (core', L, M) ∧ L.length = 3 ∧
      ∃ P : Bytes → List (List UInt64),
        (∀ w ∈ [[97], [98], [99]],
          (setupServer Version.Pointer.toInt .new L M).pointerRows standIn sampleKeys.key w = .ok (P w) ∧
          WordBlocks standIn (setupServer Version.Pointer.toInt .new L M)
            (macKey standIn sampleKeys.key 0x32 w) (sampleLayout.getD w []) (P w)) ∧
        ([[97], [98], [99]].flatMap fun w => valid (P w).flatten) =
          (List.range M.length).map UInt64.ofNat :=
  setupClientPointer_blocks standIn .new sampleKeys (by decide) (by decide) (by decide) (by decide)
    (by decide +kernel)

end DSSE
