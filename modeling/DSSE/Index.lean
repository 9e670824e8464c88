import DSSE.Filed

/-! The index that one Setup leaves on the server. `indexTokens` turns the tokens into entries, one
    for each token with its blocks; `D` maps the labels of an entry to its encrypted blocks. Without
    HMAC collisions a search of a word meets the blocks of that word one after the other and stops
    behind the last one. -/

namespace DSSE
open Schemes Std

variable (tc : Tomcrypt)

/-- How many ids all the posting lists of the tokens have together. -/
def postingsTotal (fileids : Postings) (tokens : List Bytes) : ℕ :=
  (tokens.map fun w => (fileids.getD w []).length).sum

/-- A token with its blocks, as Setup made them for a server that keeps the external blocks `M`. -/
structure Indexed (lay : Layout) (key : Bytes) (fileids : Postings) (M : List Bytes)
    (e : Bytes × List Bytes) : Prop where
  posted : e.1 ∈ fileids
  size : ∀ block ∈ e.2, block.length + 16 = lay.dlen
  holds : Holds tc lay (macKey tc key 0x32 e.1) M e.2 (lay.outs (fileids.getD e.1 []))

theorem Holds.mono {lay : Layout} {K2 : Bytes} {M M' blocks : List Bytes}
    {outs : List (List UInt64)} (h : Holds tc lay K2 M blocks outs) (hM : M <+: M') :
    Holds tc lay K2 M' blocks outs :=
  h.imp fun _ _ hd core K1minus hA => hd core K1minus (hM.trans hA)

theorem Indexed.mono {lay : Layout} {key : Bytes} {fileids : Postings} {M M' : List Bytes}
    {e : Bytes × List Bytes} (h : Indexed tc lay key fileids M e) (hM : M <+: M') :
    Indexed tc lay key fileids M' e :=
  ⟨h.posted, h.size, h.holds.mono tc hM⟩

/-! ### The loop over the tokens -/

theorem getElem?_of_posted {F : Type*} {fileids : ExtTreeMap Bytes (List F) compare} {w : Bytes}
    (h : w ∈ fileids) : fileids[w]? = some (fileids.getD w []) := by
  rw [ExtTreeMap.getD_eq_getD_getElem?, ExtTreeMap.getElem?_eq_some_getElem h, Option.getD_some]

theorem postingsAt_of_mem {fileids : Postings} {w : Bytes} (h : w ∈ fileids) :
    postingsAt fileids w = .ok (fileids.getD w []) := by
  rw [postingsAt, getElem?_of_posted h]

theorem postingsAt_of_notMem {fileids : Postings} {w : Bytes} (h : w ∉ fileids) :
    postingsAt fileids w = .error .throw := by
  rw [postingsAt, ExtTreeMap.getElem?_eq_none h]

/-- Every token has a posting list exactly when the loop succeeds. -/
theorem indexTokens_ok (encode : Encoder) (key : Bytes) (fileids : Postings) :
    ∀ (tokens M : List Bytes), (∃ r, indexTokens tc encode key fileids tokens M = .ok r) ↔
      ∀ w ∈ tokens, w ∈ fileids
  | [], M => by simp [indexTokens]
  | w :: tokens, M => by
    by_cases hw : w ∈ fileids
    · rw [indexTokens, postingsAt_of_mem hw]
      have ih := indexTokens_ok encode key fileids tokens
        (encode (macKey tc key 0x32 w) (fileids.getD w []) M).2
      simp only [bind, Except.bind, List.forall_mem_cons, hw, true_and, ← ih]
      cases indexTokens tc encode key fileids tokens
        (encode (macKey tc key 0x32 w) (fileids.getD w []) M).2 <;> simp [pure, Except.pure]
    · rw [indexTokens, postingsAt_of_notMem hw]
      simp [bind, Except.bind, hw]

/-- The loop only fails at a token without a posting list. -/
theorem indexTokens_error (encode : Encoder) (key : Bytes) (fileids : Postings) :
    ∀ (tokens M : List Bytes) {e : Halt},
      indexTokens tc encode key fileids tokens M = .error e → e = .throw
  | w :: tokens, M, e, h => by
    by_cases hw : w ∈ fileids
    · rw [indexTokens, postingsAt_of_mem hw] at h
      simp only [bind, Except.bind] at h
      cases hrest : indexTokens tc encode key fileids tokens
          (encode (macKey tc key 0x32 w) (fileids.getD w []) M).2 with
      | error e' =>
        rw [hrest] at h
        cases h
        exact indexTokens_error encode key fileids tokens _ hrest
      | ok r => rw [hrest] at h; simp [pure, Except.pure] at h
    · rw [indexTokens, postingsAt_of_notMem hw] at h
      simp only [bind, Except.bind, Except.error.injEq] at h
      exact h.symm

/-- The tokens with the blocks of their posting lists, in order, and the external blocks. -/
def encodeTokens (encode : Encoder) (key : Bytes) (fileids : Postings) :
    List Bytes → List Bytes → List (Bytes × List Bytes) × List Bytes
  | [], M => ([], M)
  | w :: tokens, M =>
    let (blocks, M) := encode (macKey tc key 0x32 w) (fileids.getD w []) M
    let (entries, M) := encodeTokens encode key fileids tokens M
    ((w, blocks) :: entries, M)

/-- The list handed to the server: one pair for each block of each entry. -/
def entryPairs (key : Bytes) (entries : List (Bytes × List Bytes)) : List TokenPair :=
  entries.flatMap fun e => setupPairs tc (macKey tc key 0x31 e.1) (macKey tc key 0x32 e.1) e.2

/-- The loop makes an entry of each token. -/
theorem indexTokens_eq (encode : Encoder) (key : Bytes) (fileids : Postings) :
    ∀ (tokens M : List Bytes), (∀ w ∈ tokens, w ∈ fileids) →
      indexTokens tc encode key fileids tokens M =
        .ok (entryPairs tc key (encodeTokens tc encode key fileids tokens M).1,
          (encodeTokens tc encode key fileids tokens M).2)
  | [], M, _ => rfl
  | w :: tokens, M, hposted => by
    have ih := indexTokens_eq encode key fileids tokens
      (encode (macKey tc key 0x32 w) (fileids.getD w []) M).2
      fun u hu => hposted u (List.mem_cons_of_mem _ hu)
    rw [indexTokens, postingsAt_of_mem (hposted w List.mem_cons_self)]
    simp only [bind, Except.bind, ih]
    rfl

theorem map_fst_encodeTokens (encode : Encoder) (key : Bytes) (fileids : Postings) :
    ∀ tokens M : List Bytes, (encodeTokens tc encode key fileids tokens M).1.map Prod.fst = tokens
  | [], _ => rfl
  | w :: tokens, _ => congrArg (w :: ·) (map_fst_encodeTokens encode key fileids tokens _)

/-- The labels of an entry are computed in the loop. -/
theorem encodeTokens_logged (encode : Encoder) (key : Bytes) (fileids : Postings) :
    ∀ (tokens M : List Bytes), (∀ w ∈ tokens, w ∈ fileids) →
      ∀ e ∈ (encodeTokens tc encode key fileids tokens M).1, ∀ c < e.2.length,
        derivedCalls tc key e.1 (UInt64.ofNat c) ⊆ indexCalls tc encode key fileids tokens M
  | [], _, _, e, he, _, _ => by cases he
  | w :: tokens, M, hposted, e, he, c, hc => by
    rw [indexCalls, getElem?_of_posted (hposted w List.mem_cons_self)]
    rcases List.mem_cons.mp he with rfl | he
    · rintro call hcall
      rcases List.mem_cons.mp hcall with rfl | hcall
      · exact List.mem_cons_self
      · rw [List.mem_singleton.mp hcall]
        exact List.mem_cons_of_mem _ (List.mem_cons_of_mem _ (List.mem_append_left _
          (List.mem_map.mpr ⟨c, List.mem_range.mpr hc, rfl⟩)))
    · have ih := encodeTokens_logged encode key fileids tokens _
        (fun u hu => hposted u (List.mem_cons_of_mem _ hu)) e he c hc
      exact List.Subset.trans ih fun call hcall =>
        List.mem_cons_of_mem _ (List.mem_cons_of_mem _ (List.mem_append_right _ hcall))

/-- Every entry holds the posting list of its token, whatever external blocks come behind. -/
theorem encodeTokens_indexed {lay : Layout} (hr : lay.Right tc) (key : Bytes) (fileids : Postings) :
    ∀ (tokens M : List Bytes), (∀ w ∈ tokens, w ∈ fileids) →
      M.length + postingsTotal fileids tokens < INVALID.toNat →
      M <+: (encodeTokens tc lay.encode key fileids tokens M).2 ∧
        ∀ e ∈ (encodeTokens tc lay.encode key fileids tokens M).1,
          Indexed tc lay key fileids (encodeTokens tc lay.encode key fileids tokens M).2 e
  | [], M, _, _ => ⟨List.prefix_rfl, by simp [encodeTokens]⟩
  | w :: tokens, M, hposted, hb => by
    have hgrow := hr.grows (macKey tc key 0x32 w) (fileids.getD w []) M
    have hext := hr.ext_le (macKey tc key 0x32 w) (fileids.getD w []) M
    have hsize := hr.size (macKey tc key 0x32 w) (fileids.getD w []) M
    have hholds := hr.holds (macKey tc key 0x32 w) (fileids.getD w []) M
    simp only [postingsTotal, List.map_cons, List.sum_cons] at hb
    obtain ⟨hpre, hind⟩ := encodeTokens_indexed hr key fileids tokens
      (lay.encode (macKey tc key 0x32 w) (fileids.getD w []) M).2
      (fun u hu => hposted u (List.mem_cons_of_mem _ hu)) (by simp only [postingsTotal]; omega)
    refine ⟨hgrow.trans hpre, fun e he => ?_⟩
    rcases List.mem_cons.mp he with rfl | he
    · exact ⟨hposted w List.mem_cons_self, hsize, (hholds (by omega)).mono tc hpre⟩
    · exact hind e he

/-! ### The dictionary -/

theorem foldl_insert_some : ∀ (L : List SetupPair) (D : Dmap) {l d : Bytes},
    (L.foldl (fun D p => D.insert p.Token p.FileID) D)[l]? = some d →
      D[l]? = some d ∨ ∃ p ∈ L, p.Token = l ∧ p.FileID = d
  | [], _, _, _, h => Or.inl h
  | p :: L, D, l, d, h => by
    rcases foldl_insert_some L _ h with h | ⟨q, hq, hl⟩
    · rw [ExtTreeMap.getElem?_insert] at h
      split at h
      · rename_i hp
        exact Or.inr ⟨p, List.mem_cons_self, compare_eq_iff_eq.mp hp, Option.some.inj h⟩
      · exact Or.inl h
    · exact Or.inr ⟨q, List.mem_cons_of_mem _ hq, hl⟩

theorem foldl_insert_mem : ∀ (L : List SetupPair) (D : Dmap) {l : Bytes},
    (l ∈ D ∨ ∃ p ∈ L, p.Token = l) → l ∈ L.foldl (fun D p => D.insert p.Token p.FileID) D
  | [], _, _, h => by simpa using h
  | p :: L, D, l, h => by
    refine foldl_insert_mem L _ ?_
    rcases h with h | ⟨q, hq, rfl⟩
    · exact Or.inl (ExtTreeMap.mem_insert.mpr (Or.inr h))
    · rcases List.mem_cons.mp hq with rfl | hq
      · exact Or.inl (ExtTreeMap.mem_insert.mpr (Or.inl (compare_eq_iff_eq.mpr rfl)))
      · exact Or.inr ⟨q, hq, rfl⟩

/-- The bytes of `p.d` that are handed over are those that the encryption wrote. -/
theorem take_setupPair (K1 K2 : Bytes) (c : ℕ) {block : Bytes} {dlen : ℕ}
    (h : block.length + 16 = dlen) :
    (setupPair tc K1 K2 c block).d.take dlen = encryptBytes tc K2 block :=
  List.take_left' (by rw [length_encryptBytes, h])

theorem mem_handoff (key : Bytes) {dlen : ℕ} {entries : List (Bytes × List Bytes)}
    (hsize : ∀ e ∈ entries, ∀ block ∈ e.2, block.length + 16 = dlen) {p : SetupPair} :
    p ∈ (sortTokenPairs (entryPairs tc key entries)).map (fun p => ⟨p.l, p.d.take dlen⟩) ↔
      ∃ e ∈ entries, ∃ c block, e.2[c]? = some block ∧
        p = ⟨derived tc key e.1 (UInt64.ofNat c), encryptBytes tc (macKey tc key 0x32 e.1) block⟩ := by
  have htake : ∀ e ∈ entries, ∀ (c : ℕ) (block : Bytes), e.2[c]? = some block →
      (setupPair tc (macKey tc key 0x31 e.1) (macKey tc key 0x32 e.1) c block).d.take dlen =
        encryptBytes tc (macKey tc key 0x32 e.1) block :=
    fun e he c block hb => take_setupPair tc _ _ c (hsize e he block (List.mem_of_getElem? hb))
  simp only [sortTokenPairs, List.mem_map, List.mem_insertionSort, entryPairs, List.mem_flatMap,
    setupPairs, Prod.exists]
  constructor
  · rintro ⟨-, ⟨w, blocks, he, block, c, hb, rfl⟩, rfl⟩
    rw [List.mk_mem_zipIdx_iff_getElem?] at hb
    refine ⟨w, blocks, he, c, block, hb, ?_⟩
    rw [htake (w, blocks) he c block hb]
    rfl
  · rintro ⟨w, blocks, he, c, block, hb, rfl⟩
    refine ⟨setupPair tc (macKey tc key 0x31 w) (macKey tc key 0x32 w) c block,
      ⟨w, blocks, he, block, c, List.mk_mem_zipIdx_iff_getElem?.mpr hb, rfl⟩, ?_⟩
    rw [htake (w, blocks) he c block hb]
    rfl

/-- The labels of the entries, entry by entry. -/
def entryLabels (key : Bytes) (entries : List (Bytes × List Bytes)) : List Bytes :=
  entries.flatMap fun e =>
    (List.range e.2.length).map fun c => derived tc key e.1 (UInt64.ofNat c)

/-- The handoff sorts the entries and keeps their labels. -/
theorem labels_handoff (key : Bytes) (dlen : ℕ) (entries : List (Bytes × List Bytes)) :
    (((sortTokenPairs (entryPairs tc key entries)).map
      (fun p => (⟨p.l, p.d.take dlen⟩ : SetupPair))).map (·.Token)).Perm (entryLabels tc key entries) := by
  have hlabels : (entryPairs tc key entries).map (·.l) = entryLabels tc key entries := by
    rw [entryPairs, entryLabels, List.map_flatMap]
    congr 1
    funext e
    refine List.ext_getElem (by simp [setupPairs]) fun c hc hc' => ?_
    simp only [List.getElem_map, setupPairs, List.getElem_zipIdx, List.getElem_range, setupPair,
      Nat.zero_add]
    rfl
  rw [List.map_map, ← hlabels]
  exact (List.perm_insertionSort _ _).map _

/-- What a Setup made: the dictionary of the server comes from entries for the tokens. -/
structure Built (lay : Layout) (log : List MacCall) (key : Bytes) (fileids : Postings)
    (tokens : List Bytes) (D : Dmap) (A : List Bytes) (entries : List (Bytes × List Bytes)) : Prop where
  tokens_eq : entries.map Prod.fst = tokens
  indexed : ∀ e ∈ entries, Indexed tc lay key fileids A e
  logged : ∀ e ∈ entries, ∀ c < e.2.length, derivedCalls tc key e.1 (UInt64.ofNat c) ⊆ log
  some_of_entry : ∀ e ∈ entries, ∀ c < e.2.length, derived tc key e.1 (UInt64.ofNat c) ∈ D
  entry_of_some : ∀ l d, D[l]? = some d → ∃ e ∈ entries, ∃ c block, e.2[c]? = some block ∧
    derived tc key e.1 (UInt64.ofNat c) = l ∧ encryptBytes tc (macKey tc key 0x32 e.1) block = d

/-- The dictionary that SetupServer makes of the list handed over. -/
def handoffDict (key : Bytes) (dlen : ℕ) (entries : List (Bytes × List Bytes)) : Dmap :=
  ((sortTokenPairs (entryPairs tc key entries)).map fun p => (⟨p.l, p.d.take dlen⟩ : SetupPair)).foldl
    (fun D p => D.insert p.Token p.FileID) ∅

/-- It has the labels of the entries, with their encrypted blocks. -/
theorem mem_handoffDict (key : Bytes) {dlen : ℕ} {entries : List (Bytes × List Bytes)}
    (hsize : ∀ e ∈ entries, ∀ block ∈ e.2, block.length + 16 = dlen) :
    ∀ e ∈ entries, ∀ c < e.2.length,
      derived tc key e.1 (UInt64.ofNat c) ∈ handoffDict tc key dlen entries := by
  intro e he c hc
  refine foldl_insert_mem _ _ (Or.inr ?_)
  exact ⟨_, (mem_handoff tc key hsize).mpr ⟨e, he, c, e.2[c], List.getElem?_eq_getElem hc, rfl⟩, rfl⟩

theorem entry_of_handoffDict (key : Bytes) {dlen : ℕ} {entries : List (Bytes × List Bytes)}
    (hsize : ∀ e ∈ entries, ∀ block ∈ e.2, block.length + 16 = dlen) {l d : Bytes}
    (hd : (handoffDict tc key dlen entries)[l]? = some d) :
    ∃ e ∈ entries, ∃ c block, e.2[c]? = some block ∧ derived tc key e.1 (UInt64.ofNat c) = l ∧
      encryptBytes tc (macKey tc key 0x32 e.1) block = d := by
  rcases foldl_insert_some _ _ hd with hd | ⟨p, hp, rfl, rfl⟩
  · simp at hd
  · obtain ⟨e, he, c, block, hb, rfl⟩ := (mem_handoff tc key hsize).mp hp
    exact ⟨e, he, c, block, hb, rfl, rfl⟩

theorem setupIndex_built {lay : Layout} (hr : lay.Right tc) {core core' : Core} {keys : Keys}
    {tokens : List Bytes} {fileids : Postings} {L : List SetupPair} {M : List Bytes}
    (h : setupIndex tc lay.encode lay.dlen core keys tokens fileids = .ok (core', L, M))
    (hfit : postingsTotal fileids tokens < INVALID.toNat) :
    core' = { core with key := keys.key, kplus := keys.kplus, kminus := keys.kminus } ∧
      ∃ entries, Built tc lay (indexCalls tc lay.encode keys.key fileids tokens []) keys.key fileids
        tokens (L.foldl (fun D p => D.insert p.Token p.FileID) ∅) M entries ∧
        (L.map (·.Token)).Perm (entryLabels tc keys.key entries) := by
  obtain ⟨r, hidx, hr'⟩ := exists_of_bind_ok h
  have hposted := (indexTokens_ok tc lay.encode keys.key fileids tokens []).mp ⟨r, hidx⟩
  rw [indexTokens_eq tc lay.encode keys.key fileids tokens [] hposted] at hidx
  cases hidx
  cases hr'
  obtain ⟨-, hind⟩ := encodeTokens_indexed tc hr keys.key fileids tokens [] hposted (by simpa using hfit)
  have hsize := fun e he => (hind e he).size
  exact ⟨rfl, _, ⟨map_fst_encodeTokens tc _ _ _ _ _, hind,
    encodeTokens_logged tc lay.encode keys.key fileids tokens [] hposted,
    mem_handoffDict tc keys.key hsize, fun _ _ hd => entry_of_handoffDict tc keys.key hsize hd⟩,
    labels_handoff tc keys.key _ _⟩

variable {tc}

theorem setupCalls_layout {v : Version} {lay : Layout} (h : v.layout? tc = some lay)
    (keys : Keys) (tokens : List Bytes) (fileids : Postings) :
    setupCalls tc v.toInt keys tokens fileids =
      indexCalls tc lay.encode keys.key fileids tokens [] := by
  cases v with
  | Basic => cases h; rfl
  | Packed => cases h; rfl
  | Pointer => cases h; rfl
  | TwoLevelPointer => cases h

variable {lay : Layout} {log : List MacCall} {key : Bytes} {fileids : Postings}
  {tokens : List Bytes} {D : Dmap} {A : List Bytes} {entries : List (Bytes × List Bytes)}

theorem Indexed.length_eq {e : Bytes × List Bytes} (h : Indexed tc lay key fileids A e) :
    e.2.length = (lay.outs (fileids.getD e.1 [])).length := h.holds.length_eq

theorem Built.length_lt (hb : Built tc lay log key fileids tokens D A entries) (hr : lay.Right tc)
    (hfit : postingsTotal fileids tokens < INVALID.toNat) {e : Bytes × List Bytes} (he : e ∈ entries) :
    e.2.length < 2 ^ 64 := by
  have hmem : e.1 ∈ tokens := hb.tokens_eq ▸ List.mem_map_of_mem he
  have hle : (fileids.getD e.1 []).length ≤ postingsTotal fileids tokens :=
    List.single_le_sum (fun _ _ => Nat.zero_le _) _ (List.mem_map_of_mem hmem)
  have hlen := (hb.indexed e he).length_eq
  have hout := hr.outs_le (fileids.getD e.1 [])
  have hinv := INVALID.toNat_lt
  omega

/-- What a search of `w` meets in `D`: ciphertexts that are read as `outs`, and then, if the label
    behind them is among the computations in `log`, nothing. -/
def Meets (tc : Tomcrypt) (lay : Layout) (log : List MacCall) (key : Bytes) (D : Dmap) (A : List Bytes)
    (w : Bytes) (outs : List (List UInt64)) : Prop :=
  ∃ cts : List Bytes, (∀ (c : ℕ) d, cts[c]? = some d → D[derived tc key w (UInt64.ofNat c)]? = some d) ∧
    (derivedCalls tc key w (UInt64.ofNat cts.length) ⊆ log →
      D[derived tc key w (UInt64.ofNat cts.length)]? = none) ∧
    cts.length < 2 ^ 64 ∧
    List.Forall₂ (Decodes tc lay (macKey tc key 0x32 w) A) cts outs

theorem macKey_congr (key : Bytes) (n : UInt8) {w w' : Bytes} (h : cstr w = cstr w') :
    macKey tc key n w = macKey tc key n w' := by
  rw [macKey, macKey, macKeyCall, macKeyCall, h]

theorem derived_congr (key : Bytes) (x : UInt64) {w w' : Bytes} (h : cstr w = cstr w') :
    derived tc key w x = derived tc key w' x := by
  rw [derived, derived, macKey_congr key 0x31 h]

/-- How many labels of a word the index uses: the blocks of its longest entry. Entries for one word
    have equal keys, also where the words only agree up to a NUL. -/
def entryLength (entries : List (Bytes × List Bytes)) (w : Bytes) : ℕ :=
  ((entries.filter fun e => cstr e.1 = cstr w).map fun e => e.2.length).foldr max 0

theorem le_foldr_max {n : ℕ} : ∀ {ns : List ℕ}, n ∈ ns → n ≤ ns.foldr max 0
  | m :: ns, h => by
    rcases List.mem_cons.mp h with rfl | h
    · exact le_max_left _ _
    · exact (le_foldr_max h).trans (le_max_right _ _)

theorem foldr_max_mem : ∀ {ns : List ℕ} {c : ℕ}, c < ns.foldr max 0 → ∃ n ∈ ns, c < n
  | m :: ns, c, h => by
    rcases lt_max_iff.mp h with h | h
    · exact ⟨m, List.mem_cons_self, h⟩
    · obtain ⟨n, hn, hc⟩ := foldr_max_mem h
      exact ⟨n, List.mem_cons_of_mem _ hn, hc⟩

theorem lt_entryLength {w : Bytes} {c : ℕ} :
    c < entryLength entries w ↔ ∃ e ∈ entries, cstr e.1 = cstr w ∧ c < e.2.length := by
  constructor
  · intro h
    obtain ⟨n, hn, hc⟩ := foldr_max_mem h
    simp only [List.mem_map, List.mem_filter, decide_eq_true_eq] at hn
    obtain ⟨e, ⟨he, hw⟩, rfl⟩ := hn
    exact ⟨e, he, hw, hc⟩
  · rintro ⟨e, he, hw, hc⟩
    refine hc.trans_le (le_foldr_max (List.mem_map.mpr ⟨e, List.mem_filter.mpr ⟨he, ?_⟩, rfl⟩))
    exact decide_eq_true hw

theorem Built.entryLength_lt (hb : Built tc lay log key fileids tokens D A entries) (hr : lay.Right tc)
    (hfit : postingsTotal fileids tokens < INVALID.toNat) (w : Bytes) :
    entryLength entries w < 2 ^ 64 := by
  by_contra hge
  have hlast : 2 ^ 64 - 1 < entryLength entries w := by omega
  obtain ⟨e, he, -, hlt⟩ := lt_entryLength.mp hlast
  have := hb.length_lt hr hfit he
  omega

/-- Under label `c` of a word is block `c` of some entry for the word, if one has so many. -/
theorem Built.pick (hb : Built tc lay log key fileids tokens D A entries) (hr : lay.Right tc)
    (hn : NoCollision tc log) (hfit : postingsTotal fileids tokens < INVALID.toNat) {w : Bytes} {c : ℕ}
    (hc : c < entryLength entries w) : ∃ e ∈ entries, cstr e.1 = cstr w ∧
      ∃ block, e.2[c]? = some block ∧ D[derived tc key w (UInt64.ofNat c)]? =
        some (encryptBytes tc (macKey tc key 0x32 w) block) := by
  obtain ⟨e, he, hw, hce⟩ := lt_entryLength.mp hc
  have hin := hb.some_of_entry e he c hce
  rw [derived_congr key _ hw] at hin
  obtain ⟨d, hd⟩ : ∃ d, D[derived tc key w (UInt64.ofNat c)]? = some d :=
    ⟨_, ExtTreeMap.getElem?_eq_some_getElem hin⟩
  obtain ⟨e', he', c', block, hblock, hl, rfl⟩ := hb.entry_of_some _ _ hd
  have hc' := (List.getElem?_eq_some_iff.mp hblock).1
  rw [← derived_congr key _ hw] at hl
  obtain ⟨-, hw', hx⟩ := derived_inj hn (hb.logged e' he' c' hc') (hb.logged e he c hce) hl
  obtain rfl := ofNat_inj (hc'.trans (hb.length_lt hr hfit he'))
    (hce.trans (hb.length_lt hr hfit he)) hx
  refine ⟨e', he', hw'.trans hw, block, hblock, ?_⟩
  rw [hd, macKey_congr key 0x32 (hw'.trans hw)]

/-- Behind the longest entry for a word nothing is stored: what were there would make an entry longer. -/
theorem Built.miss (hb : Built tc lay log key fileids tokens D A entries) (hr : lay.Right tc)
    (hn : NoCollision tc log) (hfit : postingsTotal fileids tokens < INVALID.toNat) {w : Bytes}
    (hlog : derivedCalls tc key w (UInt64.ofNat (entryLength entries w)) ⊆ log) :
    D[derived tc key w (UInt64.ofNat (entryLength entries w))]? = none := by
  cases hd : D[derived tc key w (UInt64.ofNat (entryLength entries w))]? with
  | none => rfl
  | some d =>
    obtain ⟨e, he, c, block, hblock, hl, -⟩ := hb.entry_of_some _ _ hd
    have hc := (List.getElem?_eq_some_iff.mp hblock).1
    obtain ⟨-, hw, hx⟩ := derived_inj hn (hb.logged e he c hc) hlog hl
    obtain rfl := ofNat_inj (hc.trans (hb.length_lt hr hfit he)) (hb.entryLength_lt hr hfit w) hx
    exact absurd (lt_entryLength.mpr ⟨e, he, hw, hc⟩) (Nat.lt_irrefl _)

/-- Whatever the tokens are, a search meets readable blocks and then nothing. Every block is the one
    with its number of some entry for the word. -/
theorem Built.meets (hb : Built tc lay log key fileids tokens D A entries) (hr : lay.Right tc)
    (hn : NoCollision tc log) (hfit : postingsTotal fileids tokens < INVALID.toNat) (w : Bytes) :
    ∃ outs, Meets tc lay log key D A w outs ∧ outs.length = entryLength entries w ∧
      ∀ (c : ℕ) out, outs[c]? = some out → ∃ u ∈ tokens, cstr u = cstr w ∧
        (lay.outs (fileids.getD u []))[c]? = some out := by
  have hpick := fun c hc => hb.pick hr hn hfit (w := w) (c := c) hc
  choose! e he hcstr block hblock hD using hpick
  have hout : ∀ c, c < entryLength entries w → ∃ out,
      (lay.outs (fileids.getD (e c).1 []))[c]? = some out ∧
        Decodes tc lay (macKey tc key 0x32 w) A
          (encryptBytes tc (macKey tc key 0x32 w) (block c)) out := by
    intro c hc
    have hind := hb.indexed (e c) (he c hc)
    obtain ⟨hlt, hget⟩ := List.getElem?_eq_some_iff.mp (hblock c hc)
    have hlt' : c < (lay.outs (fileids.getD (e c).1 [])).length := hind.length_eq ▸ hlt
    have hdec := hind.holds.get hlt hlt'
    refine ⟨_, List.getElem?_eq_getElem hlt', ?_⟩
    rw [List.get_eq_getElem, List.get_eq_getElem, hget, macKey_congr key 0x32 (hcstr c hc)] at hdec
    exact hdec
  choose! out hget hdec using hout
  have hnth : ∀ {α : Type} (f : ℕ → α) (c : ℕ) (a : α),
      ((List.range (entryLength entries w)).map f)[c]? = some a →
        c < entryLength entries w ∧ f c = a := by
    intro α f c a ha
    rw [List.getElem?_map, Option.map_eq_some_iff] at ha
    obtain ⟨c', hc', rfl⟩ := ha
    obtain ⟨hlt, rfl⟩ := List.getElem?_eq_some_iff.mp hc'
    rw [List.getElem_range]
    exact ⟨by simpa using hlt, rfl⟩
  refine ⟨(List.range (entryLength entries w)).map out,
    ⟨(List.range (entryLength entries w)).map fun c =>
      encryptBytes tc (macKey tc key 0x32 w) (block c), ?_, ?_, ?_, ?_⟩, by simp, ?_⟩
  · intro c d hd
    obtain ⟨hlt, rfl⟩ := hnth _ c d hd
    exact hD c hlt
  · rw [List.length_map, List.length_range]
    exact hb.miss hr hn hfit
  · rw [List.length_map, List.length_range]
    exact hb.entryLength_lt hr hfit w
  · rw [List.forall₂_map_left_iff, List.forall₂_map_right_iff]
    exact List.forall₂_same.mpr fun c hc => hdec c (List.mem_range.mp hc)
  · intro c o ho
    obtain ⟨hlt, rfl⟩ := hnth _ c o ho
    exact ⟨(e c).1, hb.tokens_eq ▸ List.mem_map_of_mem (he c hlt), hcstr c hlt, hget c hlt⟩

/-- Where one token at most of those that share the keys of `w` has ids, a search of `w` meets them. -/
theorem Built.meets_only (hb : Built tc lay log key fileids tokens D A entries) (hr : lay.Right tc)
    (hn : NoCollision tc log) (hfit : postingsTotal fileids tokens < INVALID.toNat) {u w : Bytes}
    (hu : u ∈ tokens) (hc : cstr u = cstr w)
    (hothers : ∀ u' ∈ tokens, cstr u' = cstr w → u' = u ∨ fileids.getD u' [] = []) :
    Meets tc lay log key D A w (lay.outs (fileids.getD u [])) := by
  obtain ⟨outs, hmeets, hlen, hfrom⟩ := hb.meets hr hn hfit w
  have hlength : outs.length = (lay.outs (fileids.getD u [])).length := by
    rw [hlen]
    refine eq_of_forall_lt_iff fun c => lt_entryLength.trans ?_
    constructor
    · rintro ⟨e, he, hce, hlt⟩
      have hlength := (hb.indexed e he).length_eq
      rcases hothers e.1 (hb.tokens_eq ▸ List.mem_map_of_mem he) hce with h | h
      · rwa [← h, ← hlength]
      · rw [hlength, h, hr.outs_nil] at hlt
        exact absurd hlt (Nat.not_lt_zero _)
    · intro hlt
      rw [← hb.tokens_eq, List.mem_map] at hu
      obtain ⟨e, he, rfl⟩ := hu
      exact ⟨e, he, hc, (hb.indexed e he).length_eq ▸ hlt⟩
  have houts : outs = lay.outs (fileids.getD u []) := by
    refine List.ext_getElem hlength fun c hlt hlt' => ?_
    obtain ⟨u', hu', hcu', hget⟩ := hfrom c outs[c] (List.getElem?_eq_getElem hlt)
    rcases hothers u' hu' hcu' with rfl | h
    · exact (List.getElem?_eq_some_iff.mp hget).2.symm
    · rw [h, hr.outs_nil] at hget; simp at hget
  rwa [houts] at hmeets

/-- With words that `strlen` sees whole, a search of a word meets its own posting list. -/
theorem Built.meets_word (hb : Built tc lay log key fileids tokens D A entries) (hr : lay.Right tc)
    (hn : NoCollision tc log) (hfit : postingsTotal fileids tokens < INVALID.toNat)
    (hnul : ∀ u ∈ tokens, NulFree u) {w : Bytes} (hw : NulFree w) :
    Meets tc lay log key D A w (if w ∈ tokens then lay.outs (fileids.getD w []) else []) := by
  have hsame : ∀ u ∈ tokens, cstr u = cstr w → u = w := by
    intro u hu h
    rwa [cstr_of_nulFree (hnul u hu), cstr_of_nulFree hw] at h
  by_cases hmem : w ∈ tokens
  · rw [if_pos hmem]
    exact hb.meets_only hr hn hfit hmem rfl fun u hu hc => Or.inl (hsame u hu hc)
  · obtain ⟨outs, hmeets, hlen, -⟩ := hb.meets hr hn hfit w
    have hzero : ¬ 0 < entryLength entries w := by
      intro hpos
      obtain ⟨e, he, hc, -⟩ := lt_entryLength.mp hpos
      have hin : e.1 ∈ tokens := hb.tokens_eq ▸ List.mem_map_of_mem he
      exact hmem (hsame e.1 hin hc ▸ hin)
    rw [← hlen, Nat.not_lt, Nat.le_zero, List.length_eq_zero_iff] at hzero
    rwa [if_neg hmem, ← hzero]

end DSSE
