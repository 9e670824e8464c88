import DSSE.Simulation
import DSSE.Client

/-! Runs of `Client::Add` and `Client::Delete` after one Setup. As long as no Add makes the server meet a
    label that is taken, the labels stored for a word are those below the client's counter. An add that
    returned true is found by the next search if the pair was not revoked or had been stored before. -/

namespace DSSE
open Schemes Std

/-- An Add or a Delete of words that `strlen` sees whole. -/
def Op.Update : Op → Prop
  | .add _ _ words => ∀ w ∈ words, NulFree w
  | .delete _ words => ∀ w ∈ words, NulFree w
  | _ => False

instance : DecidablePred Op.Update
  | .setup .. => inferInstanceAs (Decidable False)
  | .add _ _ words => inferInstanceAs (Decidable (∀ w ∈ words, NulFree w))
  | .delete _ words => inferInstanceAs (Decidable (∀ w ∈ words, NulFree w))
  | .search _ => inferInstanceAs (Decidable False)

theorem Op.Update.plain {op : Op} (h : op.Update) : op.Plain := by
  cases op with
  | setup => exact h
  | add => exact h
  | delete => exact h
  | search => exact h.elim

variable {tc : Tomcrypt} {log : List MacCall} {lay : Layout} {v : Version} {p : Pair}
  {ix : PlainIndex Bytes UInt64}

/-- An update is matched by its step in the clear, whatever index Setup made. -/
theorem Keeps.step (hn : NoCollision tc log) (hk : Keeps tc log p ix) {op : Op} (hup : op.Update)
    (hop : Admissible ix op) (hlog : p.calls tc op ⊆ log) :
    Matches (Pair.step tc) plainStep (fun _ _ => [])
      (fun p' ix' => p'.client.keys = p.client.keys ∧ Keeps tc log p' ix') p ix op := by
  cases op with
  | setup => exact hup.elim
  | add stack id words =>
    obtain ⟨p', hadd, hkeys, -, hk'⟩ := hk.add hn stack hop.plain hop.single hop.fits hlog
    exact ⟨p', by rw [Pair.step, hadd]; rfl, hkeys, hk'⟩
  | delete id words => exact ⟨_, rfl, rfl, hk.delete hop.plain hlog⟩
  | search w => exact hup.elim

theorem absOuts_nil : ∀ (ops : List Op) (ix : PlainIndex Bytes UInt64),
    absOuts plainStep (fun _ _ => ([] : List (List UInt64))) ix ops = []
  | [], _ => rfl
  | op :: ops, ix => by rw [absOuts, absOuts_nil ops]; rfl

theorem Keeps.run (hn : NoCollision tc log) (hk : Keeps tc log p ix) {ops : List Op}
    (hups : ∀ op ∈ ops, op.Update)
    (hops : ∀ pre op post, ops = pre ++ op :: post → Admissible (pre.foldl plainStep ix) op)
    (hlog : p.runCalls tc ops ⊆ log) :
    ∃ p', p.run tc ops = .ok (p', []) ∧ p'.client.keys = p.client.keys ∧
      Keeps tc log p' (ops.foldl plainStep ix) := by
  have hstep : ∀ q ix op, q.client.keys = p.client.keys ∧ Keeps tc log q ix →
      op.Update ∧ Admissible ix op → q.calls tc op ⊆ log →
      Matches (Pair.step tc) plainStep (fun _ _ => [])
        (fun q ix => q.client.keys = p.client.keys ∧ Keeps tc log q ix) q ix op := by
    rintro q ix op ⟨hkeys, hk⟩ ⟨hup, hop⟩ hcalls
    obtain ⟨q', hq, hkeys', hk'⟩ := hk.step hn hup hop hcalls
    exact ⟨q', hq, hkeys'.trans hkeys, hk'⟩
  have hmatch := runs_matched hstep ops p ix ⟨rfl, hk⟩
    (fun pre op post h => ⟨hups op (by rw [h]; simp), hops pre op post h⟩) hlog
  rwa [absOuts_nil] at hmatch

/-- Updates give no search results. -/
theorem absOuts_updates : ∀ {ops : List Op} {ix : PlainIndex Bytes UInt64},
    (∀ op ∈ ops, op.Update) → absOuts plainStep plainOut ix ops = []
  | [], _, _ => rfl
  | op :: ops, ix, h => by
    have hop : plainOut ix op = [] := by
      have := h op List.mem_cons_self
      cases op with
      | search => exact this.elim
      | setup => rfl
      | add => rfl
      | delete => rfl
    rw [absOuts, hop, absOuts_updates fun op' hop' => h op' (List.mem_cons_of_mem _ hop')]
    rfl

/-- A Setup on a fresh pair and then updates. -/
theorem Keeps.setup_run (hn : NoCollision tc log) {version : ℤ} {keys : Keys} {tokens : List Bytes}
    {fileids : Postings} {p₀ : Pair}
    (hsetup : Pair.fresh.setup tc version keys tokens fileids = .ok p₀) (base : Bytes → List UInt64)
    {ops : List Op} (hups : ∀ op ∈ ops, op.Update)
    (hops : ∀ pre op post, ops = pre ++ op :: post →
      Admissible (pre.foldl plainStep (.ofBase base)) op)
    (hlog : Pair.fresh.runCalls tc (.setup version keys tokens fileids :: ops) ⊆ log) :
    ∃ p, Pair.fresh.run tc (.setup version keys tokens fileids :: ops) = .ok (p, []) ∧
      p.client.keys = keys ∧ Keeps tc log p (ops.foldl plainStep (.ofBase base)) := by
  obtain ⟨hkeys, hk⟩ := Keeps.setup hsetup base
  have hstep : Pair.fresh.step tc (.setup version keys tokens fileids) = .ok (p₀, []) := by
    rw [Pair.step, hsetup]; rfl
  have hrest : p₀.runCalls tc ops ⊆ log := fun c hc =>
    hlog (by rw [Pair.runCalls, runLog, hstep]; exact List.mem_append_right _ hc)
  obtain ⟨p, hrun, hkeys', hk'⟩ := hk.run hn hups hops hrest
  refine ⟨p, ?_, hkeys'.trans hkeys, hk'⟩
  rw [Pair.run, runs_cons hstep]
  rw [Pair.run] at hrun
  rw [hrun]
  rfl

/-! ### Counters and labels -/

/-- The label of the word with this counter is stored exactly if the counter is below the client's. -/
def Contiguous (tc : Tomcrypt) (p : Pair) (w : Bytes) (c : UInt64) : Prop :=
  derived tc p.client.kplus w c ∈ p.server.Dplus ↔ c < p.client.count w

instance (tc : Tomcrypt) (p : Pair) (w : Bytes) (c : UInt64) : Decidable (Contiguous tc p w c) :=
  inferInstanceAs (Decidable (_ ↔ _))

theorem Keeps.contiguous (hk : Keeps tc log p ix) (hn : NoCollision tc log) (hfit : Fits ix)
    {w : Bytes} (hw : NulFree w) {c : UInt64} (hlog : derivedCalls tc p.client.kplus w c ⊆ log) :
    Contiguous tc p w c := by
  obtain ⟨cts, hfiled, henc⟩ := hk.tracks.added
  have hlen : (cts w).length = (ix.added w).length := (henc w).length_eq
  have hc : UInt64.ofNat c.toNat = c := UInt64.ofNat_toNat
  have hget := hfiled.getElem? hn hw (c := c.toNat) c.toNat_lt (by rw [hc]; exact hlog)
  have hcount : (p.client.count w).toNat = (ix.added w).length := by
    rw [hk.counts, UInt64.toNat_ofNat_of_lt' (hfit w)]
  rw [hc] at hget
  have hmem : derived tc p.client.kplus w c ∈ p.server.Dplus ↔
      (p.server.Dplus[derived tc p.client.kplus w c]?).isSome := by
    rw [← ExtTreeMap.contains_eq_isSome_getElem?, ExtTreeMap.contains_iff_mem]
  have hD : p.server.Dplus[derived tc p.client.kplus w c]? = (cts w)[c.toNat]? := hget
  rw [Contiguous, hmem, hD, isSome_getElem?, UInt64.lt_iff_toNat_lt, hcount, hlen]

/-- After a Setup and any updates of which none appends a word twice, the labels stored for a word are
    those of the counters below the client's. -/
theorem Client.labels_contiguous (tc : Tomcrypt) {version : ℤ} {keys : Keys} {tokens : List Bytes}
    {fileids : Postings} {ops : List Op} {p₀ : Pair}
    (hsetup : Client.setup tc Pair.fresh version keys tokens fileids = .ok (p₀, true))
    (hups : ∀ op ∈ ops, op.Update)
    (hsingle : SingleAlong (.ofBase fun _ => []) ops)
    (hfit : Fits (ops.foldl plainStep (.ofBase fun _ => []))) {w : Bytes} (hw : NulFree w)
    (c : UInt64) (hn : NoCollision tc (Pair.fresh.runCalls tc
      (.setup version keys tokens fileids :: ops) ++ derivedCalls tc keys.kplus w c)) :
    ∃ p, Client.run tc Pair.fresh (.setup version keys tokens fileids :: ops) = .ok (p, []) ∧
      Contiguous tc p w c := by
  have hsetup' := Client.setup_ok tc hsetup
  have hops := admissible_of_single (.ofBase fun _ => []) (fun op hop => (hups op hop).plain) hsingle
    hfit
  obtain ⟨p, hrun, hkeys, hk⟩ := Keeps.setup_run hn hsetup' (fun _ => []) hups hops
    (List.subset_append_left _ _)
  refine ⟨p, (Client.run_eq tc _ _).trans hrun, hk.contiguous hn hfit hw ?_⟩
  rw [show p.client.kplus = keys.kplus from congrArg Keys.kplus hkeys]
  exact List.subset_append_right _ _

/-- A pair is added again while it is revoked, in an Add that names its word twice. -/
theorem Client.labels_contiguous_sample :
    ∃ p, Client.run standIn Pair.fresh
        (.setup Version.Basic.toInt sampleKeys [[97], [98]] samplePostings ::
          [.delete 1 [[97]], .add (fun _ _ => 0) 1 [[97], [98], [97]]]) = .ok (p, []) ∧
      Contiguous standIn p [97] 1 :=
  have hsetup : ∃ p₀, Client.setup standIn Pair.fresh Version.Basic.toInt sampleKeys [[97], [98]]
      samplePostings = .ok (p₀, true) := ⟨_, rfl⟩
  Client.labels_contiguous standIn hsetup.choose_spec (by decide) (by decide)
    (fits_of_addedTotal (by decide) _) (by decide) 1 (by decide +kernel)

/-- The word "a" comes twice in an Add and the server has no flag for its second pair: the flag of "b"
    is taken for it, and the counter of "a" gets ahead of its labels. -/
theorem Client.labels_not_contiguous :
    ∃ p, Client.run standIn Pair.fresh
        (.setup Version.Basic.toInt sampleKeys [] ∅ ::
          [.add (fun _ _ => 0) 1 [[97], [97], [98]]]) = .ok (p, []) ∧
      NoCollision standIn (Pair.fresh.runCalls standIn
        (.setup Version.Basic.toInt sampleKeys [] ∅ ::
          [.add (fun _ _ => 0) 1 [[97], [97], [98]]]) ++ derivedCalls standIn sampleKeys.kplus [97] 1) ∧
      ¬ Contiguous standIn p [97] 1 := by
  have hrun : (Client.run standIn Pair.fresh (.setup Version.Basic.toInt sampleKeys [] ∅ ::
      [.add (fun _ _ => 0) 1 [[97], [97], [98]]]) >>= fun r =>
        Except.ok (r.2, decide (Contiguous standIn r.1 [97] 1))) = .ok ([], false) := by
    decide +kernel
  obtain ⟨⟨p, outs⟩, hrun, h⟩ := exists_of_bind_ok hrun
  simp only [Except.ok.injEq, Prod.mk.injEq, decide_eq_false_iff_not] at h
  obtain ⟨rfl, hnot⟩ := h
  exact ⟨p, hrun, by decide +kernel, hnot⟩

/-! ### Acknowledged adds -/

/-- In a refined state searches change nothing, so what a row of them computes is what each of them
    computes from there. -/
theorem Refines.searchCalls_subset (hlay : v.layout? tc = some lay) (hn : NoCollision tc log)
    (hR : Refines tc log v lay p ix) : ∀ {words : List Bytes}, (∀ w ∈ words, NulFree w) →
    p.runCalls tc (words.map .search) ⊆ log → ∀ w ∈ words, p.searchCalls tc w ⊆ log
  | [], _, _, _, h => absurd h List.not_mem_nil
  | u :: words, hw, hlog, w, hmem => by
    have hu : p.searchCalls tc u ⊆ log := fun c hc =>
      hlog (by rw [List.map_cons, Pair.runCalls, runLog]; exact List.mem_append_left _ hc)
    have hstep : p.step tc (.search u) = .ok (p, [ix.search u]) := by
      rw [Pair.step, hR.search hlay hn (hw u List.mem_cons_self) hu]; rfl
    rw [List.map_cons, Pair.runCalls_cons hstep] at hlog
    rcases List.mem_cons.mp hmem with rfl | hmem
    · exact hu
    · exact hR.searchCalls_subset hlay hn (fun w h => hw w (List.mem_cons_of_mem _ h))
        (fun c hc => hlog (List.mem_append_right _ hc)) w hmem

/-- After a Setup and any updates an Add returns true, and the next searches of its words find the file
    exactly if each of its pairs that is revoked was in a posting list of Setup or stored by an Add. -/
theorem Client.add_found_iff (tc : Tomcrypt) {v : Version} (hv : v ≠ .TwoLevelPointer) (keys : Keys)
    {tokens : List Bytes} {fileids : Postings} {ops : List Op} (stack : Stack) {id : UInt64}
    {words : List Bytes} (hnul : ∀ t ∈ tokens, NulFree t) (hposted : ∀ t ∈ tokens, t ∈ fileids)
    (hids : postingsTotal fileids tokens < INVALID.toNat) (hups : ∀ op ∈ ops, op.Update)
    (hrepeat : ∀ op ∈ ops, op.NoRepeat) (hwords : ∀ w ∈ words, NulFree w) (hnodup : words.Nodup)
    (hfit : Fits ((ops ++ [Op.add stack id words]).foldl plainStep (plainSetup v tokens fileids)))
    (hn : NoCollision tc (Pair.fresh.runCalls tc (.setup v.toInt keys tokens fileids :: ops ++
      .add stack id words :: words.map .search))) :
    ∃ p p', Client.run tc Pair.fresh (.setup v.toInt keys tokens fileids :: ops) = .ok (p, []) ∧
      Client.add tc p stack id words = .ok (p', true) ∧
      ((∀ w ∈ words, ∃ ids, Client.search tc p' w = .ok (p', ids) ∧ id ∈ ids) ↔
        ∀ w ∈ words, (w, id) ∈ (ops.foldl plainStep (plainSetup v tokens fileids)).revoked →
          id ∈ (ops.foldl plainStep (plainSetup v tokens fileids)).base w ++
            (ops.foldl plainStep (plainSetup v tokens fileids)).added w) := by
  obtain ⟨lay, hlay⟩ : ∃ lay, v.layout? tc = some lay := by
    cases v with
    | Basic => exact ⟨_, rfl⟩
    | Packed => exact ⟨_, rfl⟩
    | Pointer => exact ⟨_, rfl⟩
    | TwoLevelPointer => exact absurd rfl hv
  rw [List.foldl_append] at hfit
  have hplain : ∀ op ∈ ops, op.Plain := fun op hop => (hups op hop).plain
  have hops := admissible_of_single (plainSetup v tokens fileids) hplain
    (SingleAlong.of_noRepeat _ hrepeat) hfit.of_foldl
  obtain ⟨log, hlog⟩ : ∃ log, Pair.fresh.runCalls tc (.setup v.toInt keys tokens fileids :: ops ++
    .add stack id words :: words.map .search) = log := ⟨_, rfl⟩
  rw [hlog] at hn
  have hpre : Pair.fresh.runCalls tc (.setup v.toInt keys tokens fileids :: ops) ⊆ log := by
    rw [← hlog]; exact runLog_subset_append _ _
  obtain ⟨p, hrun, hR⟩ := Pair.setup_run hlay hn hnul hposted hids hops hpre
  have hrest : p.runCalls tc (.add stack id words :: words.map .search) ⊆ log := by
    rw [← hlog, Pair.runCalls_append hrun]; exact List.subset_append_right _ _
  obtain ⟨p', hadd, hR'⟩ := hR.add hn stack hwords (PlainIndex.Single.of_nodup hnodup _ id) hfit
    (fun c hc => hrest (List.mem_append_left _ hc))
  have hstep : p.step tc (.add stack id words) = .ok (p', []) := by rw [Pair.step, hadd]; rfl
  rw [Pair.runCalls_cons hstep] at hrest
  have hcalls := hR'.searchCalls_subset hlay hn hwords
    (fun c hc => hrest (List.mem_append_right _ hc))
  have hsearch : ∀ w ∈ words, (∃ ids, Client.search tc p' w = .ok (p', ids) ∧ id ∈ ids) ↔
      id ∈ ((ops.foldl plainStep (plainSetup v tokens fileids)).add id words).search w := by
    intro w hw
    rw [Client.search_eq, hR'.search hlay hn (hwords w hw) (hcalls w hw)]
    simp [Except.map]
  refine ⟨p, p', ?_, ?_, ?_⟩
  · rw [Client.run_eq, hrun, absOuts_updates hups]
  · rw [Client.add_eq, hadd]; rfl
  · exact forall₂_congr fun w hw => (hsearch w hw).trans (PlainIndex.mem_search_add hnodup hw)

/-- One pair of the Add was deleted after Setup had put it into the index, the other was not. -/
theorem Client.add_found_sample :
    ∃ p p', Client.run standIn Pair.fresh
        (.setup Version.Packed.toInt sampleKeys [[97], [98]] samplePostings ::
          [.delete 2 [[97]], .add (fun _ _ => 0) 9 [[97]]]) = .ok (p, []) ∧
      Client.add standIn p (fun _ _ => 0) 2 [[97], [99]] = .ok (p', true) ∧
      ∀ w ∈ [[97], [99]], ∃ ids, Client.search standIn p' w = .ok (p', ids) ∧ 2 ∈ ids := by
  have hfit : Fits (([Op.delete 2 [[97]], Op.add (fun _ _ => 0) 9 [[97]]] ++
      [Op.add (fun _ _ => 0) 2 [[97], [99]]]).foldl plainStep
        (plainSetup .Packed [[97], [98]] samplePostings)) := fits_of_addedTotal (by decide) _
  obtain ⟨p, p', hrun, hadd, hfound⟩ := Client.add_found_iff standIn (by decide) sampleKeys
    (fun _ _ => 0) (by decide) (by decide) (by decide) (by decide) (by decide) (by decide)
    (by decide) hfit (by decide +kernel)
  exact ⟨p, p', hrun, hadd, hfound.mpr (by decide)⟩

/-- A pair is deleted before it was ever stored: the Add that takes the revocation back returns true and
    stores nothing. -/
theorem Client.add_not_found :
    ∃ p p', Client.run standIn Pair.fresh
        (.setup Version.Basic.toInt sampleKeys [] ∅ :: [.delete 1 [[97]]]) = .ok (p, []) ∧
      NoCollision standIn (Pair.fresh.runCalls standIn
        (.setup Version.Basic.toInt sampleKeys [] ∅ ::
          [.delete 1 [[97]], .add (fun _ _ => 0) 1 [[97]], .search [97]])) ∧
      Client.add standIn p (fun _ _ => 0) 1 [[97]] = .ok (p', true) ∧
      Client.search standIn p' [97] = .ok (p', []) := by
  have hrun : (Client.run standIn Pair.fresh
      (.setup Version.Basic.toInt sampleKeys [] ∅ :: [.delete 1 [[97]]]) >>= fun r =>
        Client.add standIn r.1 (fun _ _ => 0) 1 [[97]] >>= fun r' =>
          (r'.1.search standIn [97]).map fun ids => (r.2, r'.2, ids)) = .ok ([], true, []) := by
    decide +kernel
  obtain ⟨⟨p, outs⟩, hrun, h⟩ := exists_of_bind_ok hrun
  obtain ⟨⟨p', ok⟩, hadd, h⟩ := exists_of_bind_ok h
  cases hs : p'.search standIn [97] with
  | error e => rw [hs] at h; cases h
  | ok ids =>
    rw [hs] at h
    cases h
    exact ⟨p, p', hrun, by decide +kernel, hadd, by rw [Client.search_eq, hs]; rfl⟩

end DSSE
