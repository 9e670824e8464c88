import DSSE.Untouched
import DSSE.Updates

/-! An Add of many words and Adds of one word each. A run is the run of its words as `strlen` sees them as
    long as no two words of its Adds look alike, and there the plain index says what both do. -/

namespace DSSE
open Schemes Std

/-! ### Words as `strlen` sees them -/

theorem nulFree_cstr (w : Bytes) : NulFree (cstr w) := by
  intro h
  simpa using List.mem_takeWhile_imp h

theorem nulFree_map_cstr (words : List Bytes) : ∀ w ∈ words.map cstr, NulFree w := by
  intro w hw
  obtain ⟨u, -, rfl⟩ := List.mem_map.mp hw
  exact nulFree_cstr u

@[simp] theorem cstr_cstr (w : Bytes) : cstr (cstr w) = cstr w := cstr_of_nulFree (nulFree_cstr w)

/-- The exchange with its words cut at their first NUL. -/
def Op.cut : Op → Op
  | .setup version keys tokens fileids => .setup version keys tokens fileids
  | .add stack id words => .add stack id (words.map cstr)
  | .delete id words => .delete id (words.map cstr)
  | .search w => .search (cstr w)

/-- An Add or a Delete, of any words. -/
def Op.AddOrDelete : Op → Prop
  | .add .. => True
  | .delete .. => True
  | _ => False

instance : DecidablePred Op.AddOrDelete
  | .setup .. => inferInstanceAs (Decidable False)
  | .add .. => inferInstanceAs (Decidable True)
  | .delete .. => inferInstanceAs (Decidable True)
  | .search _ => inferInstanceAs (Decidable False)

/-- The words that an exchange adds. -/
def Op.added : Op → List Bytes
  | .add _ _ words => words
  | _ => []

/-- No two of the words agree up to their first NUL. -/
def LookDifferent (S : List Bytes) : Prop := ∀ u ∈ S, ∀ w ∈ S, cstr u = cstr w → u = w

instance (S : List Bytes) : Decidable (LookDifferent S) :=
  inferInstanceAs (Decidable (∀ u ∈ S, ∀ w ∈ S, cstr u = cstr w → u = w))

/-- The pair `q` is `p`, but its client has the counters of the words `S` under what `strlen` sees. -/
structure CutTo (S : List Bytes) (p q : Pair) : Prop where
  server : q.server = p.server
  keys : q.client.keys = p.client.keys
  counts : ∀ w ∈ S, q.client.count (cstr w) = p.client.count w

variable {tc : Tomcrypt} {S : List Bytes} {p p' q : Pair}

/-- The pair with its word cut; the bytes that are sorted and sent stay. -/
def TokenPair.cut (t : TokenPair) : TokenPair := { t with w := cstr t.w }

theorem addTokenPair_cut {core core' : Core} (hkeys : core'.keys = core.keys) {w : Bytes}
    (hcount : core'.count (cstr w) = core.count w) (id : UInt64) (surplus : Bytes) :
    addTokenPair tc core' id surplus (cstr w) = (addTokenPair tc core id surplus w).cut := by
  have hkplus : core'.kplus = core.kplus := congrArg Keys.kplus hkeys
  have hkminus : core'.kminus = core.kminus := congrArg Keys.kminus hkeys
  have hkey : ∀ key n, macKey tc key n (cstr w) = macKey tc key n w := fun key n =>
    macKey_congr key n (cstr_cstr w)
  rw [addTokenPair, TokenPair.cut, addTokenPair, hkplus, hkminus, hcount]
  simp only [hkey]

theorem addTokenPairs_cut (stack : Stack) (id : UInt64) : ∀ (words : List Bytes) {core core' : Core}
    (i : ℕ), core'.keys = core.keys → (∀ w ∈ words, core'.count (cstr w) = core.count w) →
    (addTokenPairs tc stack id core' i (words.map cstr)).2 =
      (addTokenPairs tc stack id core i words).2.map TokenPair.cut
  | [], _, _, _, _, _ => rfl
  | w :: words, core, core', i, hkeys, hcounts => by
    have hcounts' : ∀ u ∈ words, (core'.touch (cstr w)).count (cstr u) = (core.touch w).count u := by
      intro u hu
      rw [Core.count_touch, Core.count_touch]
      exact hcounts u (List.mem_cons_of_mem _ hu)
    have hkeys' : (core'.touch (cstr w)).keys = (core.touch w).keys := hkeys
    rw [List.map_cons, addTokenPairs, addTokenPairs]
    simp only [addTokenPairs_cut stack id words (i + 1) hkeys' hcounts', List.map_cons,
      addTokenPair_cut hkeys (hcounts w List.mem_cons_self)]

theorem sortTokenPairs_cut (L : List TokenPair) :
    sortTokenPairs (L.map TokenPair.cut) = (sortTokenPairs L).map TokenPair.cut :=
  (List.map_insertionSort (fun a b => compareTokenPair b a = false)
    (fun a b => compareTokenPair b a = false) TokenPair.cut L fun _ _ _ _ => Iff.rfl).symm

/-- AddClient makes the same pairs of the words cut, in the same order. -/
theorem addClient_cut (hcut : CutTo S p q) (stack : Stack) (id : UInt64) {words : List Bytes}
    (hwords : words ⊆ S) {core : Core} {L : List AddPair} {W : List Bytes}
    (h : addClient tc p.client stack id words = (core, L, W)) :
    ∃ core', addClient tc q.client stack id (words.map cstr) = (core', L, W.map cstr) := by
  have hpairs : (addTokenPairs tc stack id q.client 0 (words.map cstr)).2 =
      (addTokenPairs tc stack id p.client 0 words).2.map TokenPair.cut :=
    addTokenPairs_cut stack id words 0 hcut.keys fun w hw => hcut.counts w (hwords hw)
  rw [addClient] at h ⊢
  simp only [Prod.mk.injEq] at h
  obtain ⟨-, rfl, rfl⟩ := h
  simp only [hpairs, sortTokenPairs_cut, List.map_map]
  exact ⟨_, rfl⟩

theorem count_zip_cut (hS : LookDifferent S) {w : Bytes} (hw : w ∈ S) : ∀ {W : List Bytes}
    (r : List UInt8), W ⊆ S → ((W.map cstr).zip r).count (cstr w, 0) = (W.zip r).count (w, 0)
  | [], _, _ => by simp
  | u :: W, [], _ => by simp
  | u :: W, flag :: r, h => by
    obtain ⟨hu, hW⟩ := List.cons_subset.mp h
    have heq : ((cstr u, flag) == (cstr w, 0)) = ((u, flag) == (w, 0)) := by
      rw [Bool.eq_iff_iff, beq_iff_eq, beq_iff_eq, Prod.mk.injEq, Prod.mk.injEq]
      exact and_congr_left fun _ => ⟨hS u hu w hw, congrArg cstr⟩
    rw [List.map_cons, List.zip_cons_cons, List.zip_cons_cons, List.count_cons, List.count_cons, heq,
      count_zip_cut hS hw r hW]

theorem CutTo.add (hcut : CutTo S p q) (hS : LookDifferent S) (stack : Stack) (id : UInt64)
    {words : List Bytes} (hwords : words ⊆ S) (h : p.add tc stack id words = .ok p') :
    ∃ q', q.add tc stack id (words.map cstr) = .ok q' ∧ CutTo S p' q' := by
  obtain ⟨core, L, W, hadd⟩ : ∃ core L W, addClient tc p.client stack id words = (core, L, W) :=
    ⟨_, _, _, rfl⟩
  obtain ⟨core', hadd'⟩ := addClient_cut hcut stack id hwords hadd
  obtain ⟨client, hclient, hkeys, hcount⟩ := Pair.add_spec tc p stack id words hadd
  obtain ⟨client', hclient', hkeys', hcount'⟩ := Pair.add_spec tc q stack id _ hadd'
  obtain ⟨-, -, -, hperm⟩ := addClient_counts hadd
  rw [hclient, Except.ok.injEq] at h
  subst h
  refine ⟨_, hclient', by rw [hcut.server], (hkeys'.trans hcut.keys).trans hkeys.symm, fun w hw => ?_⟩
  rw [hcount', hcount, hcut.counts w hw, hcut.server,
    count_zip_cut hS hw _ (List.Subset.trans hperm.subset hwords)]

theorem CutTo.delete (hcut : CutTo S p q) (id : UInt64) (words : List Bytes) :
    CutTo S (p.delete tc id words) (q.delete tc id (words.map cstr)) := by
  have hkminus : q.client.kminus = p.client.kminus := congrArg Keys.kminus hcut.keys
  have hL : deleteClient tc q.client id (words.map cstr) = deleteClient tc p.client id words := by
    rw [deleteClient, deleteClient, List.map_map, hkminus]
    congr 1
    refine List.map_congr_left fun w _ => ?_
    simp only [Function.comp_apply, macKey_congr p.client.kminus 0x31 (cstr_cstr w)]
  refine ⟨?_, hcut.keys, hcut.counts⟩
  rw [Pair.delete, Pair.delete, hL, hcut.server]

/-- The computations of an exchange do not show what follows a NUL. -/
theorem CutTo.calls (hcut : CutTo S p q) {op : Op} (hop : op.AddOrDelete) (hwords : op.added ⊆ S) :
    q.calls tc op.cut = p.calls tc op := by
  have hkplus : q.client.kplus = p.client.kplus := congrArg Keys.kplus hcut.keys
  have hkminus : q.client.kminus = p.client.kminus := congrArg Keys.kminus hcut.keys
  have hkey : ∀ key n w, macKey tc key n (cstr w) = macKey tc key n w := fun key n w =>
    macKey_congr key n (cstr_cstr w)
  cases op with
  | setup => exact hop.elim
  | search => exact hop.elim
  | add stack id words =>
    simp only [Pair.calls, Op.cut, addCalls, List.flatMap_map, macKeyCall, hkplus, hkminus, cstr_cstr,
      hkey]
    exact List.flatMap_congr fun w hw => by rw [hcut.counts w (hwords hw)]
  | delete id words =>
    simp only [Pair.calls, Op.cut, deleteCalls, List.flatMap_map, macKeyCall, hkminus, cstr_cstr, hkey]

theorem CutTo.step (hcut : CutTo S p q) (hS : LookDifferent S) {op : Op} (hop : op.AddOrDelete)
    (hwords : op.added ⊆ S) : ∃ p' q', p.step tc op = .ok (p', []) ∧
      q.step tc op.cut = .ok (q', []) ∧ CutTo S p' q' := by
  cases op with
  | setup => exact hop.elim
  | search => exact hop.elim
  | add stack id words =>
    obtain ⟨core, L, W, hL⟩ : ∃ core L W, addClient tc p.client stack id words = (core, L, W) :=
      ⟨_, _, _, rfl⟩
    obtain ⟨client, hadd, -⟩ := Pair.add_spec tc p stack id words hL
    have hwords' : words ⊆ S := hwords
    obtain ⟨q', hadd', hcut'⟩ := hcut.add hS stack id hwords' hadd
    exact ⟨_, q', by rw [Pair.step, hadd]; rfl, by rw [Op.cut, Pair.step, hadd']; rfl, hcut'⟩
  | delete id words => exact ⟨_, _, rfl, rfl, hcut.delete id words⟩

/-- A run of Adds and Deletes is the run of its words cut. -/
theorem CutTo.run (hS : LookDifferent S) {ops : List Op} (hcut : CutTo S p q)
    (hops : ∀ op ∈ ops, op.AddOrDelete) (hwords : ∀ op ∈ ops, op.added ⊆ S) :
    ∃ p' q', p.run tc ops = .ok (p', []) ∧ q.run tc (ops.map Op.cut) = .ok (q', []) ∧
      CutTo S p' q' ∧ q.runCalls tc (ops.map Op.cut) = p.runCalls tc ops := by
  have hstep : ∀ p q op, CutTo S p q → op.AddOrDelete ∧ op.added ⊆ S → Renames (Pair.step tc)
      (Pair.calls tc) (Pair.step tc) (Pair.calls tc) (CutTo S) Op.cut id (fun _ => False) p q op := by
    rintro p q op hcut ⟨hop, hin⟩
    obtain ⟨p', q', hp, hq, hcut'⟩ := hcut.step hS hop hin
    exact ⟨hcut.calls hop hin, p', q', [], hp, hq, nofun, hcut'⟩
  obtain ⟨hcalls, p', q', outs, hp, hq, hnone, hcut'⟩ :=
    runs_renamed hstep hcut fun op hop => ⟨hops op hop, hwords op hop⟩
  -- neither run searches
  obtain rfl : outs = [] := List.eq_nil_iff_forall_not_mem.mpr hnone
  exact ⟨p', q', hp, hq, hcut', hcalls⟩

/-! ### One Add and many -/

/-- The two pairs store the same ids under the same labels, revoke the same and count the same. -/
structure SameUpdate (p p' : Pair) : Prop where
  Dplus : ∀ l : Bytes, (p'.server.Dplus[l]?).map (List.take ENCRYPTED_FILEID_SIZE) =
    (p.server.Dplus[l]?).map (List.take ENCRYPTED_FILEID_SIZE)
  Srev : p'.server.Srev = p.server.Srev
  counts : ∀ w, p'.client.count w = p.client.count w

theorem Encrypts.take_eq {K2 d : Bytes} {id : UInt64} (h : Encrypts tc K2 d id) :
    d.take ENCRYPTED_FILEID_SIZE = encryptLong tc K2 id := by
  obtain ⟨surplus, rfl⟩ := h
  exact List.take_left' (length_encryptBytes tc K2 (putu64 id))

theorem map_take_encrypts {K2 : Bytes} : ∀ {cts : List Bytes} {ids : List UInt64},
    List.Forall₂ (Encrypts tc K2) cts ids →
    cts.map (List.take ENCRYPTED_FILEID_SIZE) = ids.map (encryptLong tc K2)
  | _, _, .nil => rfl
  | _, _, .cons h hrest => by rw [List.map_cons, List.map_cons, h.take_eq, map_take_encrypts hrest]

/-- The plain index determines the server's state but for the surplus of the ciphertexts, and the
    counters. -/
theorem Keeps.same {log : List MacCall} {ix : PlainIndex Bytes UInt64}
    (h : Keeps tc log p ix) (h' : Keeps tc log p' ix) (hkeys : p'.client.keys = p.client.keys) :
    SameUpdate p p' := by
  obtain ⟨cts, hfiled, henc⟩ := h.tracks.added
  obtain ⟨cts', hfiled', henc'⟩ := h'.tracks.added
  have hsrev := h'.tracks.srev
  rw [hkeys] at hfiled' henc' hsrev
  refine ⟨hfiled.stores.map_eq hfiled'.stores fun w => ?_,
    ExtTreeSet.ext_mem fun r => (hsrev r).trans (h.tracks.srev r).symm,
    fun w => (h'.counts w).trans (h.counts w).symm⟩
  rw [map_take_encrypts (henc' w), map_take_encrypts (henc w)]

/-- What a run of Adds and Deletes needs for its words to be told apart. -/
structure Cuttable (S : List Bytes) (op : Op) : Prop where
  update : op.AddOrDelete
  added : op.added ⊆ S
  noRepeat : op.NoRepeat

theorem Cuttable.cut (hS : LookDifferent S) {op : Op} (h : Cuttable S op) :
    op.cut.Update ∧ op.cut.NoRepeat := by
  cases op with
  | setup => exact h.update.elim
  | search => exact h.update.elim
  | delete id words => exact ⟨nulFree_map_cstr words, trivial⟩
  | add stack id words =>
    refine ⟨nulFree_map_cstr words, List.Nodup.map_on (fun u hu w hw => ?_) h.noRepeat⟩
    exact hS u (h.added hu) w (h.added hw)

theorem CutTo.keeps {log : List MacCall} {ix : PlainIndex Bytes UInt64} (hn : NoCollision tc log)
    (hS : LookDifferent S) (hcut : CutTo S p q) (hk : Keeps tc log q ix) {ops : List Op}
    (hops : ∀ op ∈ ops, Cuttable S op) (hfit : Fits ((ops.map Op.cut).foldl plainStep ix))
    (hlog : p.runCalls tc ops ⊆ log) :
    ∃ p' q', p.run tc ops = .ok (p', []) ∧ CutTo S p' q' ∧ q'.client.keys = q.client.keys ∧
      Keeps tc log q' ((ops.map Op.cut).foldl plainStep ix) := by
  obtain ⟨p', q', hp, hq, hcut', hcalls⟩ := CutTo.run hS hcut (fun op hop => (hops op hop).update)
    fun op hop => (hops op hop).added
  have hups : ∀ op ∈ ops.map Op.cut, op.Update ∧ op.NoRepeat := by
    rintro _ hmem
    obtain ⟨op, hop, rfl⟩ := List.mem_map.mp hmem
    exact (hops op hop).cut hS
  obtain ⟨q'', hq'', hkeys, hk'⟩ := hk.run hn (fun op hop => (hups op hop).1)
    (admissible_of_single ix (fun op hop => (hups op hop).1.plain)
      (SingleAlong.of_noRepeat ix fun op hop => (hups op hop).2) hfit) (hcalls ▸ hlog)
  rw [hq, Except.ok.injEq, Prod.mk.injEq] at hq''
  obtain ⟨rfl, -⟩ := hq''
  exact ⟨p', q', hp, hcut', hkeys, hk'⟩

/-- A run that does not add the word does not count it. -/
theorem Pair.run_count {u : Bytes} : ∀ {ops : List Op} {p p' : Pair} {outs : List (List UInt64)},
    (∀ op ∈ ops, op.AddOrDelete) → (∀ op ∈ ops, u ∉ op.added) → p.run tc ops = .ok (p', outs) →
    p'.client.count u = p.client.count u
  | [], _, _, _, _, _, h => by cases h; rfl
  | op :: ops, p, p', outs, hops, hu, h => by
    rw [Pair.run, runs] at h
    obtain ⟨⟨p₁, out⟩, hstep, h⟩ := exists_of_bind_ok h
    obtain ⟨⟨p₂, out'⟩, hrest, h⟩ := exists_of_bind_ok h
    cases h
    have ih := Pair.run_count (fun o ho => hops o (List.mem_cons_of_mem _ ho))
      (fun o ho => hu o (List.mem_cons_of_mem _ ho)) hrest
    rw [ih]
    have hop := hops op List.mem_cons_self
    cases op with
    | setup => exact hop.elim
    | search => exact hop.elim
    | delete => cases hstep; rfl
    | add stack id words =>
      obtain ⟨core, L, W, hL⟩ : ∃ core L W, addClient tc p.client stack id words = (core, L, W) :=
        ⟨_, _, _, rfl⟩
      obtain ⟨client, hadd, -, hcount⟩ := Pair.add_spec tc p stack id words hL
      obtain ⟨-, -, -, hperm⟩ := addClient_counts hL
      have hnot : u ∉ W := fun hW => hu _ List.mem_cons_self (hperm.mem_iff.mp hW)
      rw [Pair.step, hadd] at hstep
      cases hstep
      have hzero : (W.zip (addServer p.server L).2).count (u, 0) = 0 :=
        List.count_eq_zero_of_not_mem fun hmem => hnot (List.of_mem_zip hmem).1
      rw [hcount, hzero]
      exact add_zero _

/-- The words added one at a time. -/
def singleAdds (memory : Bytes → Stack) (id : UInt64) (words : List Bytes) : List Op :=
  words.map fun w => .add (memory w) id [w]

theorem foldl_singleAdds (memory : Bytes → Stack) (id : UInt64) : ∀ (words : List Bytes)
    (ix : PlainIndex Bytes UInt64), (singleAdds memory id words).foldl plainStep ix = ix.add id words
  | [], _ => rfl
  | w :: words, ix => foldl_singleAdds memory id words (ix.addWord id w)

theorem map_cut_singleAdds (memory : Bytes → Stack) (id : UInt64) {words : List Bytes}
    (hwords : ∀ w ∈ words, NulFree w) :
    (singleAdds memory id words).map Op.cut = singleAdds memory id words := by
  rw [singleAdds, List.map_map]
  refine List.map_congr_left fun w hw => ?_
  simp only [Function.comp_apply, Op.cut, List.map_cons, List.map_nil, cstr_of_nulFree (hwords w hw)]

/-- From one state an Add of a list of words and Adds of its words one at a time do the same. -/
theorem CutTo.batch {log : List MacCall} {ix : PlainIndex Bytes UInt64} (hn : NoCollision tc log)
    (hS : LookDifferent S) (hcut : CutTo S p q) (hk : Keeps tc log q ix) {id : UInt64}
    {words words' : List Bytes} (hwords : ∀ w ∈ words, NulFree w) (hnodup : words.Nodup)
    (hperm : words'.Perm words) (hin : words ⊆ S) (stack : Stack) (memory : Bytes → Stack)
    (hfit : Fits (ix.add id words)) (hlog : p.runCalls tc [.add stack id words] ⊆ log)
    (hlog' : p.runCalls tc (singleAdds memory id words') ⊆ log) :
    ∃ p₁ p₂, p.run tc [.add stack id words] = .ok (p₁, []) ∧
      p.run tc (singleAdds memory id words') = .ok (p₂, []) ∧ SameUpdate p₁ p₂ := by
  have hbatch : ∀ op ∈ [Op.add stack id words], Cuttable S op := by
    rintro op hop
    rw [List.mem_singleton.mp hop]
    exact ⟨trivial, hin, hnodup⟩
  have hsingles : ∀ op ∈ singleAdds memory id words', Cuttable S op := by
    rintro op hop
    obtain ⟨w, hw, rfl⟩ := List.mem_map.mp hop
    refine ⟨trivial, fun u hu => ?_, List.nodup_singleton w⟩
    rw [List.mem_singleton.mp hu]
    exact hin (hperm.mem_iff.mp hw)
  -- what the two runs add in the clear
  have hplain : ([Op.add stack id words].map Op.cut).foldl plainStep ix = ix.add id words := by
    have hcutwords : words.map cstr = words :=
      (List.map_congr_left fun w hw => cstr_of_nulFree (hwords w hw)).trans (List.map_id' words)
    rw [List.map_singleton, Op.cut, hcutwords]
    rfl
  have hplain' : ((singleAdds memory id words').map Op.cut).foldl plainStep ix = ix.add id words := by
    rw [map_cut_singleAdds memory id fun w hw => hwords w (hperm.mem_iff.mp hw), foldl_singleAdds,
      PlainIndex.add_perm hperm]
  obtain ⟨p₁, q₁, hp₁, hcut₁, hkeys₁, hk₁⟩ := hcut.keeps hn hS hk hbatch (hplain ▸ hfit) hlog
  obtain ⟨p₂, q₂, hp₂, hcut₂, hkeys₂, hk₂⟩ := hcut.keeps hn hS hk hsingles (hplain' ▸ hfit) hlog'
  rw [hplain] at hk₁
  rw [hplain'] at hk₂
  have hsame := hk₁.same hk₂ (hkeys₂.trans hkeys₁.symm)
  refine ⟨p₁, p₂, hp₁, hp₂, ?_, ?_, fun u => ?_⟩
  · rw [← hcut₁.server, ← hcut₂.server]
    exact hsame.Dplus
  · rw [← hcut₁.server, ← hcut₂.server]
    exact hsame.Srev
  · by_cases hu : u ∈ S
    · rw [← hcut₁.counts u hu, ← hcut₂.counts u hu]
      exact hsame.counts _
    · -- a word that neither run adds is not counted
      rw [Pair.run_count (fun op hop => (hbatch op hop).update)
          (fun op hop h => hu ((hbatch op hop).added h)) hp₁,
        Pair.run_count (fun op hop => (hsingles op hop).update)
          (fun op hop h => hu ((hsingles op hop).added h)) hp₂]

/-- After a Setup and any Adds and Deletes, an Add of a list of words does the same as Adds of its words one
    at a time, in whatever order, as long as no two words that are added look alike to `strlen` and no
    counter wraps. -/
theorem Client.batch_eq_singles (tc : Tomcrypt) {version : ℤ} {keys : Keys} {tokens : List Bytes}
    {fileids : Postings} {ops : List Op} {p₀ : Pair}
    (hsetup : Client.setup tc Pair.fresh version keys tokens fileids = .ok (p₀, true))
    (hops : ∀ op ∈ ops, op.AddOrDelete ∧ op.NoRepeat) (id : UInt64) {words words' : List Bytes}
    (hwords : ∀ w ∈ words, NulFree w) (hnodup : words.Nodup) (hperm : words'.Perm words)
    (stack : Stack) (memory : Bytes → Stack)
    (hS : LookDifferent (ops.flatMap Op.added ++ words))
    (hfit : Fits (((ops.map Op.cut).foldl plainStep (.ofBase fun _ => [])).add id words))
    (hn : NoCollision tc
      (Pair.fresh.runCalls tc (.setup version keys tokens fileids :: ops ++ [.add stack id words]) ++
        Pair.fresh.runCalls tc
          (.setup version keys tokens fileids :: ops ++ singleAdds memory id words'))) :
    ∃ p p₁ p₂,
      Client.run tc Pair.fresh (.setup version keys tokens fileids :: ops) = .ok (p, []) ∧
      Client.run tc p [.add stack id words] = .ok (p₁, []) ∧
      Client.run tc p (singleAdds memory id words') = .ok (p₂, []) ∧ SameUpdate p₁ p₂ := by
  obtain ⟨log, hlog⟩ : ∃ log, Pair.fresh.runCalls tc (.setup version keys tokens fileids :: ops ++
    [.add stack id words]) ++ Pair.fresh.runCalls tc (.setup version keys tokens fileids :: ops ++
      singleAdds memory id words') = log := ⟨_, rfl⟩
  rw [hlog] at hn
  have hsetup' := Client.setup_ok tc hsetup
  have hk₀ : Keeps tc log p₀ (.ofBase fun _ => []) := (Keeps.setup hsetup' _).2
  have hcut₀ : CutTo (ops.flatMap Op.added ++ words) p₀ p₀ := by
    refine ⟨rfl, rfl, fun w _ => ?_⟩
    rw [hk₀.counts, hk₀.counts]
    rfl
  have hcuttable : ∀ op ∈ ops, Cuttable (ops.flatMap Op.added ++ words) op := fun op hop =>
    ⟨(hops op hop).1, fun w hw => List.mem_append_left _ (List.mem_flatMap.mpr ⟨op, hop, hw⟩),
      (hops op hop).2⟩
  have hstep : Pair.fresh.step tc (.setup version keys tokens fileids) = .ok (p₀, []) := by
    rw [Pair.step, hsetup']; rfl
  have hpre : p₀.runCalls tc ops ⊆ log := by
    refine List.Subset.trans ?_ (hlog ▸ List.subset_append_left _ _)
    refine List.Subset.trans ?_ (runLog_subset_append _ _)
    rw [← Pair.runCalls, Pair.runCalls_cons hstep]
    exact List.subset_append_right _ _
  have hfit₀ : Fits ((ops.map Op.cut).foldl plainStep (.ofBase fun _ => [])) := fun w =>
    (PlainIndex.length_added_add_le id words _ w).trans_lt (hfit w)
  obtain ⟨p, q, hp, hcut, -, hk⟩ := hcut₀.keeps hn hS hk₀ hcuttable hfit₀ hpre
  have hrun : Pair.fresh.run tc (.setup version keys tokens fileids :: ops) = .ok (p, []) := by
    rw [Pair.run, runs_cons hstep]
    rw [Pair.run] at hp
    rw [hp]
    rfl
  rw [Pair.runCalls_append hrun, Pair.runCalls_append hrun] at hlog
  obtain ⟨p₁, p₂, hp₁, hp₂, hsame⟩ := hcut.batch hn hS hk hwords hnodup hperm
    (List.subset_append_right _ _) stack memory hfit
    (fun c hc => hlog ▸ List.mem_append_left _ (List.mem_append_right _ hc))
    (fun c hc => hlog ▸ List.mem_append_right _ (List.mem_append_right _ hc))
  refine ⟨p, p₁, p₂, ?_, ?_, ?_, hsame⟩
  · rw [Client.run_eq, hrun]
  · rw [Client.run_eq, hp₁]
  · rw [Client.run_eq, hp₂]

/-- The pair of the first word is revoked; the single Adds come in another order. -/
theorem Client.batch_eq_singles_sample :
    ∃ p p₁ p₂, Client.run standIn Pair.fresh (.setup Version.Basic.toInt sampleKeys [] ∅ ::
        [.delete 1 [[99]], .add (fun _ _ => 0) 2 [[98], [97, 0]]]) = .ok (p, []) ∧
      Client.run standIn p [.add (fun _ _ => 0) 1 [[99], [98]]] = .ok (p₁, []) ∧
      Client.run standIn p (singleAdds (fun _ _ _ => 1) 1 [[98], [99]]) = .ok (p₂, []) ∧
      SameUpdate p₁ p₂ :=
  have hsetup : ∃ p₀, Client.setup standIn Pair.fresh Version.Basic.toInt sampleKeys [] ∅ =
      .ok (p₀, true) := ⟨_, rfl⟩
  have hfit : Fits ([Op.delete 1 [[99]], .add (fun _ _ => 0) 2 [[98], [97]],
      .add (fun _ _ => 0) 1 [[99], [98]]].foldl plainStep (.ofBase fun _ => [])) :=
    fits_of_addedTotal (by decide) _
  Client.batch_eq_singles standIn hsetup.choose_spec (by decide) 1 (by decide) (by decide)
    (.swap _ _ _) (fun _ _ => 0) (fun _ _ _ => 1) (by decide) hfit (by decide +kernel)

/-- A word with a NUL has taken the first label of "a". One Add of "a" and "b" gets one flag and counts it
    for "a", two Adds count it for "b". -/
theorem Client.batch_differs :
    ∃ p p₁ p₂, Client.run standIn Pair.fresh (.setup Version.Basic.toInt sampleKeys [] ∅ ::
        [.add (fun _ _ => 0) 1 [[97, 0, 98]]]) = .ok (p, []) ∧
      NoCollision standIn (Pair.fresh.runCalls standIn (.setup Version.Basic.toInt sampleKeys [] ∅ ::
          [.add (fun _ _ => 0) 1 [[97, 0, 98]]] ++ [.add (fun _ _ => 0) 2 [[97], [98]]]) ++
        Pair.fresh.runCalls standIn (.setup Version.Basic.toInt sampleKeys [] ∅ ::
          [.add (fun _ _ => 0) 1 [[97, 0, 98]]] ++ singleAdds (fun _ _ _ => 0) 2 [[97], [98]])) ∧
      Client.run standIn p [.add (fun _ _ => 0) 2 [[97], [98]]] = .ok (p₁, []) ∧
      Client.run standIn p (singleAdds (fun _ _ _ => 0) 2 [[97], [98]]) = .ok (p₂, []) ∧
      ¬ SameUpdate p₁ p₂ := by
  have hrun : (Client.run standIn Pair.fresh (.setup Version.Basic.toInt sampleKeys [] ∅ ::
      [.add (fun _ _ => 0) 1 [[97, 0, 98]]]) >>= fun r =>
        Client.run standIn r.1 [.add (fun _ _ => 0) 2 [[97], [98]]] >>= fun r₁ =>
          Client.run standIn r.1 (singleAdds (fun _ _ _ => 0) 2 [[97], [98]]) >>= fun r₂ =>
            .ok (r.2, r₁.2, r₂.2, r₁.1.client.count [98], r₂.1.client.count [98])) =
      .ok ([], [], [], 0, 1) := by
    decide +kernel
  obtain ⟨⟨p, outs⟩, hp, h⟩ := exists_of_bind_ok hrun
  obtain ⟨⟨p₁, outs₁⟩, hp₁, h⟩ := exists_of_bind_ok h
  obtain ⟨⟨p₂, outs₂⟩, hp₂, h⟩ := exists_of_bind_ok h
  simp only [Except.ok.injEq, Prod.mk.injEq] at h
  obtain ⟨rfl, rfl, rfl, hcount₁, hcount₂⟩ := h
  refine ⟨p, p₁, p₂, hp, by decide +kernel, hp₁, hp₂, fun hsame => ?_⟩
  have := hsame.counts [98]
  rw [hcount₁, hcount₂] at this
  exact absurd this (by decide)

end DSSE
