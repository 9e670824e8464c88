import DSSE.Refinement

/-! What the lists that a client hands off depend on besides their contents. `compare_token_pair` is a
    strict total order on the bytes of a pair, so the lists of Setup and Delete do not show the order of
    the words. The pairs of an Add carry bytes of the stack. -/

namespace DSSE
open Schemes Std

/-! ### The order of pairs -/

/-- One of the three loops of `compare_token_pair`, `none` where it comes to its end. -/
def compareBytes : Bytes → Bytes → Option Bool
  | a :: as, b :: bs =>
    if a < b then some true else if a > b then some false else compareBytes as bs
  | _, _ => none

/-- `compare_token_pair` with its loops. -/
def compareTokenPairLoops (a b : TokenPair) : Bool :=
  match compareBytes a.l b.l with
  | some r => r
  | none =>
    match compareBytes a.d b.d with
    | some r => r
    | none => (compareBytes a.r b.r).getD false

/-- On arrays of one size a loop ends early exactly where they differ. -/
theorem compareBytes_eq : ∀ {as bs : Bytes}, as.length = bs.length →
    compareBytes as bs = match compare as bs with
      | .lt => some true
      | .eq => none
      | .gt => some false
  | [], [], _ => rfl
  | a :: as, b :: bs, hlen => by
    have ih := compareBytes_eq (Nat.succ.inj hlen)
    have hbyte : compare a b = if a < b then .lt else if a = b then .eq else .gt := rfl
    rw [compareBytes, List.compare_cons_cons, hbyte]
    by_cases hlt : a < b
    · rw [if_pos hlt, if_pos hlt]; rfl
    rw [if_neg hlt, if_neg hlt]
    by_cases heq : a = b
    · subst heq
      rw [if_pos rfl, if_neg hlt, ih]; rfl
    · have hgt : a > b := UInt8.lt_of_le_of_ne (UInt8.not_lt.mp hlt) (Ne.symm heq)
      rw [if_neg heq, if_pos hgt]; rfl

/-- The loops come to the lexicographic order of the three arrays. -/
theorem compareTokenPairLoops_eq {a b : TokenPair} (hl : a.l.length = b.l.length)
    (hd : a.d.length = b.d.length) (hr : a.r.length = b.r.length) :
    compareTokenPairLoops a b = compareTokenPair a b := by
  rw [compareTokenPairLoops, compareTokenPair, compareBytes_eq hl, compareBytes_eq hd,
    compareBytes_eq hr]
  cases compare a.l b.l with
  | lt => rfl
  | gt => rfl
  | eq =>
    cases compare a.d b.d with
    | lt => rfl
    | gt => rfl
    | eq => cases compare a.r b.r <;> rfl

/-- The comparison behind `compareTokenPair`. -/
def TokenPair.order : TokenPair → TokenPair → Ordering :=
  compareLex (compareOn (·.l)) (compareLex (compareOn (·.d)) (compareOn (·.r)))

instance : TransCmp TokenPair.order := inferInstanceAs (TransCmp (compareLex _ _))

theorem compareTokenPair_eq_false {a b : TokenPair} :
    compareTokenPair b a = false ↔ (TokenPair.order a b).isLE := by
  have hswap : TokenPair.order b a = (TokenPair.order a b).swap := OrientedCmp.eq_swap
  have hdef : compareTokenPair b a = (TokenPair.order b a).isLT := rfl
  rw [hdef, hswap]
  cases TokenPair.order a b <;> decide

instance : Std.Total fun a b => compareTokenPair b a = false where
  total a b := by
    simp only [compareTokenPair_eq_false]
    have hswap : TokenPair.order b a = (TokenPair.order a b).swap := OrientedCmp.eq_swap
    rw [hswap]
    cases TokenPair.order a b <;> decide

instance : IsTrans TokenPair fun a b => compareTokenPair b a = false where
  trans a b c := by
    simp only [compareTokenPair_eq_false]
    exact TransCmp.isLE_trans

/-- Pairs of which neither comes before the other have the same bytes. -/
theorem bytes_eq_of_incomparable {a b : TokenPair} (hab : compareTokenPair a b = false)
    (hba : compareTokenPair b a = false) : a.l = b.l ∧ a.d = b.d ∧ a.r = b.r := by
  have heq : TokenPair.order a b = .eq :=
    OrientedCmp.isLE_antisymm (compareTokenPair_eq_false.mp hba) (compareTokenPair_eq_false.mp hab)
  simpa [TokenPair.order, compareLex_eq_eq, compareOn, LawfulEqCmp.compare_eq_iff_eq] using heq

/-- However `std::sort` goes about it, what it makes of pairs that are told apart by their bytes is one
    list. -/
theorem eq_sortTokenPairs {L L' : List TokenPair} (hw : ∀ p ∈ L, p.w = []) (hperm : L'.Perm L)
    (hsorted : L'.Pairwise fun a b => compareTokenPair b a = false) : L' = sortTokenPairs L := by
  have hperm' : (sortTokenPairs L).Perm L := List.perm_insertionSort _ L
  refine List.Perm.eq_of_pairwise (fun a b ha hb hab hba => ?_) hsorted
    (List.pairwise_insertionSort _ L) (hperm.trans hperm'.symm)
  obtain ⟨hl, hd, hr⟩ := bytes_eq_of_incomparable hba hab
  have hwa := hw a (hperm.mem_iff.mp ha)
  have hwb := hw b (hperm'.mem_iff.mp hb)
  obtain ⟨_, _, _, _⟩ := a
  obtain ⟨_, _, _, _⟩ := b
  simp_all

theorem sortTokenPairs_congr {L L' : List TokenPair} (hw : ∀ p ∈ L, p.w = []) (h : L.Perm L') :
    sortTokenPairs L = sortTokenPairs L' :=
  (eq_sortTokenPairs hw ((List.perm_insertionSort _ L').trans h.symm)
    (List.pairwise_insertionSort _ L')).symm

/-! ### Setup and Delete -/

variable (tc : Tomcrypt)

/-- A layout that keeps each posting list in its own entries: the entries come token by token. -/
theorem indexTokens_flatMap (blocks : List UInt64 → List Bytes) (key : Bytes) (fileids : Postings) :
    ∀ (tokens M : List Bytes), (∀ w ∈ tokens, w ∈ fileids) →
      indexTokens tc (fun _ fids M => (blocks fids, M)) key fileids tokens M =
        .ok (tokens.flatMap fun w => setupPairs tc (macKey tc key 0x31 w) (macKey tc key 0x32 w)
          (blocks (fileids.getD w [])), M)
  | [], _, _ => rfl
  | w :: tokens, M, h => by
    have ih := indexTokens_flatMap blocks key fileids tokens M fun u hu => h u (List.mem_cons_of_mem _ hu)
    rw [indexTokens, postingsAt_of_mem (h w List.mem_cons_self)]
    simp only [bind, Except.bind, ih, List.flatMap_cons, pure, Except.pure]

theorem setupIndex_perm (blocks : List UInt64 → List Bytes) (dlen : ℕ) (core : Core) (keys : Keys)
    (fileids : Postings) {tokens tokens' : List Bytes} (h : tokens.Perm tokens') :
    (setupIndex tc (fun _ fids M => (blocks fids, M)) dlen core keys tokens fileids).map (·.2.1) =
      (setupIndex tc (fun _ fids M => (blocks fids, M)) dlen core keys tokens' fileids).map (·.2.1) := by
  rw [setupIndex, setupIndex]
  by_cases hposted : ∀ w ∈ tokens, w ∈ fileids
  · have hposted' : ∀ w ∈ tokens', w ∈ fileids := fun w hw => hposted w (h.mem_iff.mpr hw)
    rw [indexTokens_flatMap tc blocks keys.key fileids tokens [] hposted,
      indexTokens_flatMap tc blocks keys.key fileids tokens' [] hposted']
    simp only [bind, Except.bind, pure, Except.pure, Except.map]
    rw [sortTokenPairs_congr ?_ (h.flatMap_right _)]
    rintro p hp
    obtain ⟨w, -, hp⟩ := List.mem_flatMap.mp hp
    obtain ⟨_, -, rfl⟩ := List.mem_map.mp hp
    rfl
  · -- a token without a posting list is met in either order
    have hthrow : ∀ ts, (¬ ∀ w ∈ ts, w ∈ fileids) →
        indexTokens tc (fun _ fids M => (blocks fids, M)) keys.key fileids ts [] = .error .throw := by
      intro ts hts
      cases hidx : indexTokens tc (fun _ fids M => (blocks fids, M)) keys.key fileids ts [] with
      | error e => rw [indexTokens_error tc _ _ _ _ _ hidx]
      | ok r => exact absurd ((indexTokens_ok tc _ _ _ _ _).mp ⟨r, hidx⟩) hts
    rw [hthrow tokens hposted,
      hthrow tokens' fun h' => hposted fun w hw => h' w (h.mem_iff.mp hw)]

instance : Std.Total fun a b : Bytes => (compare a b).isLE where
  total a b := by
    have hswap : compare b a = (compare a b).swap := OrientedCmp.eq_swap
    rw [hswap]
    cases compare a b <;> decide

instance : IsTrans Bytes fun a b => (compare a b).isLE where
  trans _ _ _ := TransCmp.isLE_trans

theorem deleteClient_perm (core : Core) (id : UInt64) {words words' : List Bytes}
    (h : words.Perm words') : deleteClient tc core id words = deleteClient tc core id words' := by
  refine List.Perm.eq_of_pairwise (fun a b _ _ hab hba => ?_) (List.pairwise_insertionSort _ _)
    (List.pairwise_insertionSort _ _) ?_
  · exact LawfulEqCmp.compare_eq_iff_eq.mp (OrientedCmp.isLE_antisymm hab hba)
  · exact ((List.perm_insertionSort _ _).trans (h.map _)).trans (List.perm_insertionSort _ _).symm

/-- In whatever order Setup meets the tokens and Delete the words, it hands off the same list. -/
theorem Core.handoff_perm (core : Core) (keys : Keys) (fileids : Postings) (id : UInt64)
    {tokens tokens' words words' : List Bytes} (htokens : tokens.Perm tokens')
    (hwords : words.Perm words') :
    (setupClientBasic tc core keys tokens fileids).map (·.2.1) =
        (setupClientBasic tc core keys tokens' fileids).map (·.2.1) ∧
      (setupClientPacked tc core keys tokens fileids).map (·.2.1) =
        (setupClientPacked tc core keys tokens' fileids).map (·.2.1) ∧
      deleteClient tc core id words = deleteClient tc core id words' :=
  ⟨setupIndex_perm tc basicBlocks _ core keys fileids htokens,
    setupIndex_perm tc packedBlocks _ core keys fileids htokens, deleteClient_perm tc core id hwords⟩

/-- Postings of two tokens. -/
def sampleTwoTokens : Postings := ((∅ : Postings).insert [97] [1, 2]).insert [98] [2]

theorem Core.handoff_perm_sample :
    (setupClientBasic standIn Core.new ⟨[1], [2], [3]⟩ [[97], [98]] sampleTwoTokens).map (·.2.1) =
        (setupClientBasic standIn Core.new ⟨[1], [2], [3]⟩ [[98], [97]] sampleTwoTokens).map (·.2.1) ∧
      (setupClientPacked standIn Core.new ⟨[1], [2], [3]⟩ [[97], [98]] sampleTwoTokens).map (·.2.1) =
        (setupClientPacked standIn Core.new ⟨[1], [2], [3]⟩ [[98], [97]] sampleTwoTokens).map (·.2.1) ∧
      deleteClient standIn Core.new 1 [[97], [98], [97]] =
        deleteClient standIn Core.new 1 [[97], [97], [98]] :=
  Core.handoff_perm standIn Core.new ⟨[1], [2], [3]⟩ sampleTwoTokens 1 (.swap _ _ _)
    (.cons _ (.swap _ _ _))

/-! ### Add -/

/-- All that the stack holds. -/
def filledStack (b : UInt8) : Stack := fun _ _ => b

theorem addTokenPairs_surplus (b : UInt8) (id : UInt64) : ∀ (words : List Bytes) (core : Core) (i : ℕ),
    ∀ p ∈ (addTokenPairs tc (filledStack b) id core i words).2,
      p.d.drop ENCRYPTED_FILEID_SIZE =
        List.replicate (ENCRYPTED_BLOCK_SIZE - ENCRYPTED_FILEID_SIZE) b
  | [], _, _, p, hp => absurd hp List.not_mem_nil
  | w :: words, core, i, p, hp => by
    rw [addTokenPairs] at hp
    rcases List.mem_cons.mp hp with rfl | hp
    · have hlen : (encryptLong tc (macKey tc core.kplus 0x32 w) id).length = ENCRYPTED_FILEID_SIZE :=
        length_encryptBytes tc _ _
      rw [addTokenPair, List.drop_left' hlen]
      exact List.map_const'.trans (by rw [List.length_range])
    · exact addTokenPairs_surplus b id words (core.touch w) (i + 1) p hp

/-- The pairs of an Add and the order of its words do not depend on the stack exactly if there are no
    words. -/
theorem Core.addClient_stack_iff (core : Core) (id : UInt64) (words : List Bytes) :
    (∀ stack stack', (addClient tc core stack id words).2 = (addClient tc core stack' id words).2) ↔
      words = [] := by
  constructor
  · intro h
    by_contra hne
    have hsurplus : ∀ b, ∀ q ∈ (addClient tc core (filledStack b) id words).2.1,
        q.FileID.drop ENCRYPTED_FILEID_SIZE =
          List.replicate (ENCRYPTED_BLOCK_SIZE - ENCRYPTED_FILEID_SIZE) b := by
      intro b q hq
      obtain ⟨p, hp, rfl⟩ := List.mem_map.mp hq
      exact addTokenPairs_surplus tc b id words core 0 p ((List.mem_insertionSort _).mp hp)
    obtain ⟨-, -, hwords, -⟩ := addTokenPairs_spec tc (filledStack 0) id words core 0
    obtain ⟨q, hq⟩ : ∃ q, q ∈ (addClient tc core (filledStack 0) id words).2.1 := by
      refine List.exists_mem_of_ne_nil _ fun hnil => hne ?_
      rw [addClient, List.map_eq_nil_iff, ← List.length_eq_zero_iff, sortTokenPairs,
        List.length_insertionSort, List.length_eq_zero_iff] at hnil
      rw [← hwords, hnil, List.map_nil]
    have h0 := hsurplus 0 q hq
    rw [h (filledStack 0) (filledStack 1)] at hq
    exact absurd (h0.symm.trans (hsurplus 1 q hq)) (by decide)
  · rintro rfl stack stack'
    rfl

/-- One word, and two contents of the stack. -/
theorem Core.addClient_leaks :
    (addClient standIn Core.new (filledStack 0) 1 [[97]]).2 ≠
      (addClient standIn Core.new (filledStack 1) 1 [[97]]).2 := by
  decide +kernel

end DSSE
