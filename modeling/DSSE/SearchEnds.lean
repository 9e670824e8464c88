import DSSE.Decrypts
import DSSE.Filed

/-! The loops over a counter in a search leave only by a missing label. As many rounds as the dictionary
    has entries, and one more, are enough for that, whatever the entries are; and each round gives no more
    ids than its layout has slots. -/

namespace DSSE
open Schemes Std

/-- A call comes to an end, with at most `n` ids if it returns. -/
def Ends (n : ℕ) : Except Halt (List UInt64) → Prop
  | .ok ids => ids.length ≤ n
  | .error e => e ≠ .hang

/-- All entries of a dictionary are such. -/
def Entries (P : Bytes → Prop) (dict : Dmap) : Prop := ∀ l d : Bytes, dict[l]? = some d → P d

/-- A ciphertext of a whole block. -/
def FullBlock (d : Bytes) : Prop := d.length = ENCRYPTED_BLOCK_SIZE

section
variable (tc : Tomcrypt)

/-- A `labelLoop` that is stopped before round `n`. -/
def labelRounds (n : ℕ) (dict : Dmap) (K : Bytes) (body : Bytes → Except Halt (List UInt64)) :
    Except Halt (List UInt64) :=
  probe (fun c => dict[macLong tc K (UInt64.ofNat c)]?) body .hang n 0

end

variable {tc : Tomcrypt}

/-! ### The rounds of a loop -/

theorem Ends.mono {n m : ℕ} {r : Except Halt (List UInt64)} (h : Ends n r) (hle : n ≤ m) : Ends m r := by
  cases r with
  | error e => exact h
  | ok ids => exact Nat.le_trans h hle

theorem Ends.ne_hang {n : ℕ} {r : Except Halt (List UInt64)} (h : Ends n r) : r ≠ .error .hang := by
  rintro rfl
  exact h rfl

theorem Ends.bind {α : Type} {n : ℕ} {x : Except Halt α} {f : α → Except Halt (List UInt64)}
    (hx : x ≠ .error .hang) (hf : ∀ a, x = .ok a → Ends n (f a)) : Ends n (x >>= f) := by
  cases x with
  | error e => exact fun he => hx (congrArg Except.error he)
  | ok a => exact hf a rfl

/-- One round after the other. -/
theorem Ends.append {n m : ℕ} {x y : Except Halt (List UInt64)} (hx : Ends n x) (hy : Ends m y) :
    Ends (n + m) (do return (← x) ++ (← y)) := by
  cases x with
  | error e => exact hx
  | ok ids =>
    cases y with
    | error e => exact hy
    | ok ids' =>
      have hlen : (ids ++ ids').length ≤ n + m := by
        rw [List.length_append]
        exact Nat.add_le_add hx hy
      exact hlen

theorem ends_mapM {n : ℕ} {body : Bytes → Except Halt (List UInt64)} : ∀ {cts : List Bytes},
    (∀ d ∈ cts, Ends n (body d)) → Ends (n * cts.length) ((cts.mapM body).map List.flatten)
  | [], _ => Nat.zero_le _
  | d :: cts, h => by
    have ih : Ends (n * cts.length) ((cts.mapM body).map List.flatten) :=
      ends_mapM fun d' hd' => h d' (List.mem_cons_of_mem _ hd')
    have hboth := (h d List.mem_cons_self).append ih
    rw [List.mapM_cons, List.length_cons, Nat.mul_succ, Nat.add_comm]
    cases hd : body d with
    | error e =>
      rw [hd] at hboth
      exact hboth
    | ok ids =>
      rw [hd] at hboth
      cases hr : cts.mapM body with
      | error e =>
        rw [hr] at hboth
        exact hboth
      | ok rest =>
        rw [hr] at hboth
        exact hboth

theorem bind_ne_hang {α β : Type} {x : Except Halt α} {f : α → Except Halt β} (hx : x ≠ .error .hang)
    (hf : ∀ a, f a ≠ .error .hang) : x >>= f ≠ .error .hang := by
  cases x with
  | error e => exact fun he => hx (congrArg Except.error (Except.error.inj he))
  | ok a => exact hf a

theorem mapM_ne_hang {body : Bytes → Except Halt (List UInt64)} (hbody : ∀ d, body d ≠ .error .hang) :
    ∀ cts : List Bytes, cts.mapM body ≠ .error .hang
  | [] => nofun
  | d :: cts => by
    rw [List.mapM_cons]
    exact bind_ne_hang (hbody d) fun ids => bind_ne_hang (mapM_ne_hang hbody cts) fun rest => nofun

/-- A dictionary has the labels of a key in front and then misses one. -/
theorem exists_labels {K : Bytes} (hinj : Function.Injective (macLong tc K)) {dict : Dmap}
    (hsize : dict.size < 2 ^ 64) :
    ∃ cts, Run (fun c => dict[macLong tc K (UInt64.ofNat c)]?) 0 cts ∧ cts.length ≤ dict.size := by
  have hcard : dict.keys.toFinset.card ≤ dict.size :=
    (List.toFinset_card_le _).trans ExtTreeMap.length_keys.le
  have hkeys : ∀ (c : ℕ) (d : Bytes), dict[macLong tc K (UInt64.ofNat c)]? = some d →
      macLong tc K (UInt64.ofNat c) ∈ dict.keys.toFinset := by
    intro c d hd
    rw [List.mem_toFinset, ExtTreeMap.mem_keys, ExtTreeMap.mem_iff_isSome_getElem?, hd]
    rfl
  obtain ⟨cts, hrun, hlen⟩ := exists_run hkeys
    (fun c hc c' hc' hsame => ofNat_inj hc hc' (hinj hsame)) (hcard.trans_lt hsize)
  exact ⟨cts, hrun, hlen.trans hcard⟩

/-- As many rounds as there are entries, and one more, are enough for every loop over the dictionary. -/
theorem labelLoop_rounds {K : Bytes} (hinj : Function.Injective (macLong tc K)) {dict : Dmap}
    (hsize : dict.size < 2 ^ 64) (body : Bytes → Except Halt (List UInt64)) :
    labelLoop tc dict K body = labelRounds tc (dict.size + 1) dict K body := by
  obtain ⟨cts, hrun, hlen⟩ := exists_labels hinj hsize
  rw [labelLoop, labelRounds, hrun.probe_eq (hlen.trans_lt hsize), hrun.probe_eq (Nat.lt_succ_of_le hlen)]

/-- A loop ends if its rounds do. -/
theorem labelLoop_ne_hang {K : Bytes} (hinj : Function.Injective (macLong tc K)) {dict : Dmap}
    (hsize : dict.size < 2 ^ 64) {body : Bytes → Except Halt (List UInt64)}
    (hbody : ∀ d, body d ≠ .error .hang) : labelLoop tc dict K body ≠ .error .hang := by
  obtain ⟨cts, hrun, hlen⟩ := exists_labels hinj hsize
  rw [labelLoop, hrun.probe_eq (hlen.trans_lt hsize)]
  have hrounds : (cts.mapM body >>= fun ids => .ok ids.flatten) ≠ .error .hang :=
    bind_ne_hang (mapM_ne_hang hbody cts) fun ids => nofun
  cases hr : cts.mapM body with
  | error e => rwa [hr] at hrounds
  | ok ids => exact nofun

theorem labelLoop_ends {K : Bytes} (hinj : Function.Injective (macLong tc K)) {dict : Dmap}
    (hsize : dict.size < 2 ^ 64) {n : ℕ} {body : Bytes → Except Halt (List UInt64)}
    (hbody : ∀ d, Ends n (body d)) : Ends (n * dict.size) (labelLoop tc dict K body) := by
  obtain ⟨cts, hrun, hlen⟩ := exists_labels hinj hsize
  rw [labelLoop, hrun.probe_eq (hlen.trans_lt hsize)]
  exact (ends_mapM fun d _ => hbody d).mono (Nat.mul_le_mul_left n hlen)

theorem labelLoop_returns {K : Bytes} (hinj : Function.Injective (macLong tc K)) {dict : Dmap}
    (hsize : dict.size < 2 ^ 64) {body : Bytes → Except Halt (List UInt64)}
    (hbody : Entries (fun d => ∃ ids, body d = .ok ids) dict) :
    ∃ ids, labelLoop tc dict K body = .ok ids := by
  obtain ⟨cts, hrun, hlen⟩ := exists_labels hinj hsize
  have hall : ∀ d ∈ cts, ∃ ids, body d = .ok ids := by
    intro d hd
    obtain ⟨c, hc⟩ := List.getElem?_of_mem hd
    exact hbody _ d (hrun.hit c d hc)
  choose! ids hids using hall
  rw [labelLoop, hrun.probe_eq (hlen.trans_lt hsize), mapM_ok hids]
  exact ⟨_, rfl⟩

/-! ### The ids of a round -/

theorem decryptBytes_ne_hang (tc : Tomcrypt) (key ctext : Bytes) (ctextlen outlen : ℕ) :
    decryptBytes tc key ctext ctextlen outlen ≠ .error .hang := by
  rw [decryptBytes]
  split <;> simp

theorem idEntry_ends (tc : Tomcrypt) (core : Core) (K2 K1minus d : Bytes) :
    Ends 1 (idEntry tc core K2 K1minus d) := by
  refine Ends.bind ?_ fun id _ => ?_
  · rw [decryptLong]
    have hne := decryptBytes_ne_hang tc K2 d ENCRYPTED_FILEID_SIZE 8
    cases hdec : decryptBytes tc K2 d ENCRYPTED_FILEID_SIZE 8 with
    | ok out => simp [Except.map]
    | error e =>
      rw [hdec] at hne
      exact fun he => hne (congrArg Except.error (Except.error.inj he))
  · cases revoked tc core K1minus id
    · exact le_rfl
    · exact Nat.zero_le 1

theorem mapM_readWord_cases (block : Bytes) : ∀ is : List ℕ,
    is.mapM (readWord block) = .error .undefined ∨
      ∃ ws, is.mapM (readWord block) = .ok ws ∧ ws.length = is.length
  | [] => Or.inr ⟨[], rfl, rfl⟩
  | i :: is => by
    rw [List.mapM_cons, readWord]
    split
    · rcases mapM_readWord_cases block is with h | ⟨ws, h, hlen⟩
      · rw [h]
        exact Or.inl rfl
      · rw [h]
        exact Or.inr ⟨_, rfl, congrArg Nat.succ hlen⟩
    · exact Or.inl rfl

theorem blockIds_ends (tc : Tomcrypt) (core : Core) (K1minus block : Bytes) :
    Ends B (blockIds tc core K1minus block) := by
  rw [blockIds]
  rcases mapM_readWord_cases block (List.range B) with h | ⟨ws, h, hlen⟩
  · rw [h]
    exact Halt.noConfusion
  · rw [h]
    rw [List.length_range] at hlen
    exact (List.length_filter_le _ _).trans hlen.le

theorem packedEntry_ends (tc : Tomcrypt) (core : Core) (K2 K1minus d : Bytes) :
    Ends B (packedEntry tc core K2 K1minus d) :=
  Ends.bind (decryptBytes_ne_hang tc _ _ _ _) fun _ _ => blockIds_ends tc core K1minus _

theorem readWord_ne_hang (block : Bytes) (i : ℕ) : readWord block i ≠ .error .hang := by
  rw [readWord]
  split <;> simp

/-- Each slot leads to one block of ids at most. -/
theorem followPointers_ends (tc : Tomcrypt) (core : Core) (K2 K1minus block : Bytes) : ∀ is : List ℕ,
    Ends (B * is.length) (followPointers tc core K2 K1minus block is)
  | [] => Nat.zero_le _
  | i :: is => by
    have ih := followPointers_ends tc core K2 K1minus block is
    rw [followPointers]
    refine Ends.bind (readWord_ne_hang block i) fun index _ => ?_
    split
    · exact Nat.zero_le _
    · cases core.A[index.toNat]? with
      | none => exact ih.mono (Nat.mul_le_mul_left B (Nat.le_succ _))
      | some encrypted =>
        refine Ends.bind (decryptBytes_ne_hang tc _ _ _ _) fun fileidBlock _ => ?_
        rw [List.length_cons, Nat.mul_succ, Nat.add_comm]
        exact (blockIds_ends tc core K1minus fileidBlock).append ih

theorem pointerEntry_ends (tc : Tomcrypt) (core : Core) (K2 K1minus d : Bytes) :
    Ends (B * B) (pointerEntry tc core K2 K1minus d) := by
  refine Ends.bind (decryptBytes_ne_hang tc _ _ _ _) fun block _ => ?_
  have h := followPointers_ends tc core K2 K1minus block (List.range B)
  rwa [List.length_range] at h

/-! ### Entries of the lengths that are read -/

theorem idEntry_returns (core : Core) (K2 K1minus : Bytes) {d : Bytes} (hd : IdSized d) :
    ∃ ids, idEntry tc core K2 K1minus d = .ok ids := by
  have hlen : ENCRYPTED_FILEID_SIZE ≤ d.length := hd
  rw [ENCRYPTED_FILEID_SIZE] at hlen
  rw [idEntry, decryptLong, decryptBytes, ENCRYPTED_FILEID_SIZE, if_neg]
  · exact ⟨_, rfl⟩
  · rw [List.length_append]
    omega

theorem decrypt_fullBlock (tc : Tomcrypt) (K2 : Bytes) {d : Bytes} (hd : FullBlock d) :
    ∃ block, decryptBytes tc K2 d d.length BLOCK_SIZE = .ok block ∧ block.length = BLOCK_SIZE := by
  have hlen : d.length = BLOCK_SIZE + 16 := hd
  have hnot : ¬ (d.length < 16 ∨ (d ++ [0]).length < d.length ∨ BLOCK_SIZE < d.length - 16) := by
    rw [List.length_append]
    omega
  refine ⟨_, by rw [decryptBytes, if_neg hnot], ?_⟩
  rw [Ctr.length_crypt, List.length_drop, List.length_take, List.length_append]
  omega

theorem readWord_returns {block : Bytes} (h : block.length = BLOCK_SIZE) {i : ℕ} (hi : i < B) :
    readWord block i = .ok (getu64 (block.drop (i * 8))) := by
  have hle : i * 8 + 8 ≤ block.length := by
    rw [h, BLOCK_SIZE]
    omega
  exact if_pos hle

theorem blockIds_returns (tc : Tomcrypt) (core : Core) (K1minus : Bytes) {block : Bytes}
    (h : block.length = BLOCK_SIZE) :
    ∃ ids, blockIds tc core K1minus block = .ok ids := by
  rw [blockIds, mapM_ok fun i hi => readWord_returns h (List.mem_range.mp hi)]
  exact ⟨_, rfl⟩

theorem packedEntry_returns (core : Core) (K2 K1minus : Bytes) {d : Bytes} (hd : FullBlock d) :
    ∃ ids, packedEntry tc core K2 K1minus d = .ok ids := by
  obtain ⟨block, hblock, hlen⟩ := decrypt_fullBlock tc K2 hd
  rw [packedEntry, hblock]
  exact blockIds_returns tc core K1minus hlen

theorem followPointers_returns {core : Core} (hA : ∀ block ∈ core.A, FullBlock block) (K2 K1minus : Bytes)
    {block : Bytes} (h : block.length = BLOCK_SIZE) : ∀ is : List ℕ, (∀ i ∈ is, i < B) →
      ∃ ids, followPointers tc core K2 K1minus block is = .ok ids
  | [], _ => ⟨[], rfl⟩
  | i :: is, his => by
    obtain ⟨more, hmore⟩ := followPointers_returns hA K2 K1minus h is
      fun j hj => his j (List.mem_cons_of_mem _ hj)
    rw [followPointers, readWord_returns h (his i List.mem_cons_self)]
    simp only [bind, Except.bind]
    split
    · exact ⟨[], rfl⟩
    · cases hget : core.A[(getu64 (block.drop (i * 8))).toNat]? with
      | none => exact ⟨more, hmore⟩
      | some encrypted =>
        obtain ⟨fileidBlock, hdec, hlen⟩ :=
          decrypt_fullBlock tc K2 (hA encrypted (List.mem_of_getElem? hget))
        obtain ⟨ids, hids⟩ := blockIds_returns tc core K1minus hlen
        simp only [hdec, hids, hmore]
        exact ⟨_, rfl⟩

theorem pointerEntry_returns {core : Core} (hA : ∀ block ∈ core.A, FullBlock block) (K2 K1minus : Bytes)
    {d : Bytes} (hd : FullBlock d) : ∃ ids, pointerEntry tc core K2 K1minus d = .ok ids := by
  obtain ⟨block, hblock, hlen⟩ := decrypt_fullBlock tc K2 hd
  rw [pointerEntry, hblock]
  exact followPointers_returns hA K2 K1minus hlen _ fun i hi => List.mem_range.mp hi

/-! ### Searches -/

theorem searchLoops_ends {core : Core} {k : SearchKeys} (hinj : ∀ K, Function.Injective (macLong tc K))
    (hD : core.D.size < 2 ^ 64) (hDplus : core.Dplus.size < 2 ^ 64) {n : ℕ}
    {entry : Core → Bytes → Bytes → Bytes → Except Halt (List UInt64)}
    (hentry : ∀ d, Ends n (entry core k.K2 k.K1minus d)) :
    Ends (n * core.D.size + core.Dplus.size) (searchLoops tc entry core k) := by
  have hadded := labelLoop_ends (hinj k.K1plus) hDplus (idEntry_ends tc core k.K2plus k.K1minus)
  rw [Nat.one_mul] at hadded
  exact (labelLoop_ends (hinj k.K1) hD hentry).append hadded

theorem searchLoops_returns {core : Core} {k : SearchKeys}
    (hinj : ∀ K, Function.Injective (macLong tc K)) (hD : core.D.size < 2 ^ 64)
    (hDplus : core.Dplus.size < 2 ^ 64)
    {entry : Core → Bytes → Bytes → Bytes → Except Halt (List UInt64)}
    (hentry : Entries (fun d => ∃ ids, entry core k.K2 k.K1minus d = .ok ids) core.D)
    (hadded : Entries IdSized core.Dplus) : ∃ ids, searchLoops tc entry core k = .ok ids := by
  obtain ⟨ids, hids⟩ := labelLoop_returns (hinj k.K1) hD hentry
  obtain ⟨added, hadded⟩ := labelLoop_returns (hinj k.K1plus) hDplus
    fun l d hd => idEntry_returns core k.K2plus k.K1minus (hadded l d hd)
  refine ⟨ids ++ added, ?_⟩
  rw [searchLoops, hids, hadded]
  rfl

/-- **Every search ends**: its loops over a counter are through after one round more than their dictionary
    has entries, whatever their rounds make of these, as long as each round comes to an end, and there are
    at most 1, 5 or 25 ids for an entry of `D` and one for an entry of `Dplus`. With entries of the lengths
    that are read it returns. -/
theorem searchServer_ends (tc : Tomcrypt) (hinj : ∀ K, Function.Injective (macLong tc K)) (core : Core)
    (k : SearchKeys) (hD : core.D.size < 2 ^ 64) (hDplus : core.Dplus.size < 2 ^ 64) :
    (∀ body, labelLoop tc core.D k.K1 body = labelRounds tc (core.D.size + 1) core.D k.K1 body) ∧
    (∀ body, labelLoop tc core.Dplus k.K1plus body =
      labelRounds tc (core.Dplus.size + 1) core.Dplus k.K1plus body) ∧
    (∀ body, (∀ d, body d ≠ .error .hang) → labelLoop tc core.D k.K1 body ≠ .error .hang ∧
      labelLoop tc core.Dplus k.K1plus body ≠ .error .hang) ∧
    Ends (core.D.size + core.Dplus.size) (searchServerBasic tc core k) ∧
    Ends (5 * core.D.size + core.Dplus.size) (searchServerPacked tc core k) ∧
    Ends (25 * core.D.size + core.Dplus.size) (searchServerPointer tc core k) ∧
    (Entries IdSized core.Dplus →
      (Entries IdSized core.D → ∃ ids, searchServerBasic tc core k = .ok ids) ∧
      (Entries FullBlock core.D → ∃ ids, searchServerPacked tc core k = .ok ids) ∧
      (Entries FullBlock core.D → (∀ block ∈ core.A, FullBlock block) →
        ∃ ids, searchServerPointer tc core k = .ok ids)) := by
  have hbasic := searchLoops_ends hinj hD hDplus (idEntry_ends tc core k.K2 k.K1minus)
  rw [Nat.one_mul] at hbasic
  refine ⟨labelLoop_rounds (hinj k.K1) hD, labelLoop_rounds (hinj k.K1plus) hDplus, ?_, hbasic,
    searchLoops_ends hinj hD hDplus (packedEntry_ends tc core k.K2 k.K1minus),
    searchLoops_ends hinj hD hDplus (pointerEntry_ends tc core k.K2 k.K1minus), fun hadded => ⟨?_, ?_, ?_⟩⟩
  · intro body hbody
    exact ⟨labelLoop_ne_hang (hinj k.K1) hD hbody, labelLoop_ne_hang (hinj k.K1plus) hDplus hbody⟩
  · intro h
    exact searchLoops_returns hinj hD hDplus
      (fun l d hd => idEntry_returns core k.K2 k.K1minus (h l d hd)) hadded
  · intro h
    exact searchLoops_returns hinj hD hDplus
      (fun l d hd => packedEntry_returns core k.K2 k.K1minus (h l d hd)) hadded
  · intro h hA
    exact searchLoops_returns hinj hD hDplus
      (fun l d hd => pointerEntry_returns hA k.K2 k.K1minus (h l d hd)) hadded

/-- A stand-in for `hmac` that shows the message: a counter can be read off. -/
def openMac : Tomcrypt where
  hmac _ msg := (msg ++ List.replicate DIGESTLEN 0).take DIGESTLEN
  aes := standIn.aes
  hmac_length _ msg := by
    rw [List.length_take, List.length_append, List.length_replicate]
    omega
  aes_length := standIn.aes_length

theorem openMac_injective (K : Bytes) : Function.Injective (macLong openMac K) := by
  intro c c' h
  have htake : ∀ v : UInt64, (macLong openMac K v).take 8 = putu64 v := fun v => rfl
  exact putu64_inj (by rw [← htake c, ← htake c', h])

/-- A server to which somebody sent entries of odd lengths under the labels 0 and 1. -/
def plantedCore : Core :=
  { Core.new with
    D := ((∅ : Dmap).insert (macLong openMac [] 0) []).insert (macLong openMac [] 1) [1, 2, 3]
    Dplus := (∅ : Dmap).insert (macLong openMac [] 0) (List.replicate 99 7) }

theorem searchServer_ends_planted :
    (∀ body, labelLoop openMac plantedCore.D [] body = labelRounds openMac 3 plantedCore.D [] body) ∧
    labelLoop openMac plantedCore.D [] (pointerEntry openMac plantedCore [] []) ≠ .error .hang ∧
    Ends 51 (searchServerPointer openMac plantedCore ⟨[], [], [], [], []⟩) := by
  obtain ⟨hD, -, hhang, -, -, hpointer, -⟩ := searchServer_ends openMac openMac_injective plantedCore
    ⟨[], [], [], [], []⟩ (by decide) (by decide)
  exact ⟨hD, (hhang _ fun d => (pointerEntry_ends openMac plantedCore [] [] d).ne_hang).1, hpointer⟩

end DSSE
