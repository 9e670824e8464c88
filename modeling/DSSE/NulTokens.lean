import DSSE.SetupAgain
import DSSE.Files

/-! Tokens with NUL bytes. The client keeps tokens as counted strings, the key derivation reads them up to
    the first NUL: tokens that agree up to there share their keys, and with them the labels of their
    entries. -/

namespace DSSE
open Schemes Std

/-- After a Setup that handed `L` to the server every token has an index of its own. -/
structure TokensApart (tc : Tomcrypt) (p : Pair) (L : List SetupPair) (tokens : List Bytes)
    (fileids : Postings) : Prop where
  labels : (L.map (·.Token)).Nodup
  stored : ∀ q ∈ L, p.server.D[q.Token]? = some q.FileID
  found : ∀ w ∈ tokens, p.search tc w = .ok (fileids.getD w [])

/-- Different tokens that agree up to a NUL have no ids. -/
def NulApart (tokens : List Bytes) (fileids : Postings) : Prop :=
  ∀ u ∈ tokens, ∀ w ∈ tokens, u ≠ w → cstr u = cstr w →
    fileids.getD u [] = [] ∧ fileids.getD w [] = []

variable {tc : Tomcrypt} {log : List MacCall} {lay : Layout} {key : Bytes} {fileids : Postings}
  {tokens : List Bytes} {D : Dmap} {A : List Bytes} {entries : List (Bytes × List Bytes)}

/-- A server that overwrote nothing holds every pair that it was given. -/
theorem foldl_insert_nodup (L : List SetupPair) : ∀ (D : Dmap), (L.map (·.Token)).Nodup →
    ∀ q ∈ L, (L.foldl (fun D p => D.insert p.Token p.FileID) D)[q.Token]? = some q.FileID := by
  induction L with
  | nil => intro D _ q hq; exact absurd hq List.not_mem_nil
  | cons p L ih =>
    intro D hnodup q hq
    rw [List.map_cons, List.nodup_cons] at hnodup
    rw [List.foldl_cons]
    rcases List.mem_cons.mp hq with rfl | hq
    · -- no later pair has the label
      cases hget : (L.foldl (fun D p => D.insert p.Token p.FileID)
          (D.insert q.Token q.FileID))[q.Token]? with
      | none =>
        have hmem := foldl_insert_mem L (D.insert q.Token q.FileID) (l := q.Token)
          (Or.inl (ExtTreeMap.mem_insert_self))
        rw [ExtTreeMap.mem_iff_isSome_getElem?, hget] at hmem
        exact absurd hmem (by simp)
      | some d =>
        rcases foldl_insert_some L _ hget with hget | ⟨q', hq', hl, -⟩
        · rw [ExtTreeMap.getElem?_insert_self] at hget; exact hget.symm
        · exact absurd (List.mem_map.mpr ⟨q', hq', hl⟩) hnodup.1
    · exact ih _ hnodup.2 q hq

/-! ### Labels -/

/-- A posting list that can be read is empty exactly if it has no entries. -/
theorem outs_eq_nil_iff {v : Version} (hlay : v.layout? tc = some lay) {fids : List UInt64}
    (hids : INVALID ∉ fids) : lay.outs fids = [] ↔ fids = [] := by
  constructor
  · intro h
    have hflat := flatten_outs tc hlay fids
    rw [h, readable_eq v hids] at hflat
    exact hflat.symm
  · rintro rfl
    exact (layout_right tc hlay).outs_nil

/-- The labels differ as soon as the tokens with ids differ up to their first NUL. -/
theorem Built.labels_nodup_iff (hb : Built tc lay log key fileids tokens D A entries) {v : Version}
    (hlay : v.layout? tc = some lay) (hn : NoCollision tc log)
    (hfit : postingsTotal fileids tokens < INVALID.toNat) (hdup : tokens.Nodup)
    (hids : ∀ w ∈ tokens, INVALID ∉ fileids.getD w []) :
    (entryLabels tc key entries).Nodup ↔ ∀ u ∈ tokens, ∀ w ∈ tokens, u ≠ w → cstr u = cstr w →
      fileids.getD u [] = [] ∨ fileids.getD w [] = [] := by
  have hr := layout_right tc hlay
  have hlt : ∀ e ∈ entries, ∀ c < e.2.length, c < 2 ^ 64 := fun e he c hc =>
    hc.trans (hb.length_lt hr hfit he)
  have hmem : ∀ e ∈ entries, e.1 ∈ tokens := fun e he => hb.tokens_eq ▸ List.mem_map_of_mem he
  have hnil : ∀ e ∈ entries, e.2 = [] ↔ fileids.getD e.1 [] = [] := by
    intro e he
    rw [← outs_eq_nil_iff hlay (hids e.1 (hmem e he)), ← List.length_eq_zero_iff,
      (hb.indexed e he).length_eq, List.length_eq_zero_iff]
  have hown : ∀ e ∈ entries,
      ((List.range e.2.length).map fun c => derived tc key e.1 (UInt64.ofNat c)).Nodup := by
    intro e he
    refine List.Nodup.map_on ?_ List.nodup_range
    intro c hc c' hc' heq
    rw [List.mem_range] at hc hc'
    obtain ⟨-, -, hx⟩ := derived_inj hn (hb.logged e he c hc) (hb.logged e he c' hc') heq
    exact ofNat_inj (hlt e he c hc) (hlt e he c' hc') hx
  have hsymm : Std.Symm fun u w : Bytes =>
      cstr u = cstr w → fileids.getD u [] = [] ∨ fileids.getD w [] = [] :=
    ⟨fun u w h hc => (h hc.symm).symm⟩
  rw [entryLabels, List.nodup_flatMap, and_iff_right hown]
  trans tokens.Pairwise fun u w => cstr u = cstr w → fileids.getD u [] = [] ∨ fileids.getD w [] = []
  · rw [← hb.tokens_eq, List.pairwise_map]
    refine List.Pairwise.iff_of_mem ?_
    intro e e' he he'
    simp only [Function.onFun, ← hnil e he, ← hnil e' he']
    constructor
    · -- both entries have a block 0, and it has the same label
      intro hdisj hc
      by_contra hboth
      rw [not_or, ← ne_eq, ← ne_eq, ← List.length_pos_iff, ← List.length_pos_iff] at hboth
      refine hdisj (List.mem_map.mpr ⟨0, List.mem_range.mpr hboth.1, rfl⟩) ?_
      rw [derived_congr key _ hc]
      exact List.mem_map.mpr ⟨0, List.mem_range.mpr hboth.2, rfl⟩
    · intro h l hl hl'
      obtain ⟨c, hc, rfl⟩ := List.mem_map.mp hl
      obtain ⟨c', hc', heq⟩ := List.mem_map.mp hl'
      rw [List.mem_range] at hc hc'
      obtain ⟨-, hcstr, -⟩ := derived_inj hn (hb.logged e' he' c' hc') (hb.logged e he c hc) heq
      rcases h hcstr.symm with h | h
      · rw [h] at hc; exact absurd hc (Nat.not_lt_zero _)
      · rw [h] at hc'; exact absurd hc' (Nat.not_lt_zero _)
  · rw [← hdup.pairwise_coe]
    constructor
    · intro h u hu w hw hne hc
      exact h hu hw hne hc
    · intro h u hu w hw hne hc
      exact h u hu w hw hne hc

/-! ### Search -/

/-- Right after a Setup a search gives what it meets in `D`, if no HMAC output is among the revocations
    left over from before. -/
theorem Pair.search_setup {p : Pair} {v : Version} (hlay : v.layout? tc = some lay)
    (hver : p.server.version = v.toInt) (hDplus : p.server.Dplus = ∅) {w : Bytes}
    (hleft : Unmixed tc p.server.Srev (p.searchCalls tc w)) (hlog : p.searchCalls tc w ⊆ log)
    {outs : List (List UInt64)} (hm : Meets tc lay log p.client.key p.server.D p.server.A w outs) :
    p.search tc w = .ok outs.flatten := by
  have hloops : ∀ Srev : Revlist,
      searchServer tc { p.server with Srev := Srev } (searchClient tc p.client w) =
        .ok (unrevoked tc { p.server with Srev := Srev } (macKey tc p.client.kminus 0x31 w)
          outs.flatten) := by
    intro Srev
    have hclient : searchClientCalls p.client w ⊆ log := fun c hc =>
      hlog (List.mem_append_left _ hc)
    have hserver : searchServerCalls tc p.server (searchClient tc p.client w) ⊆ log := fun c hc =>
      hlog (List.mem_append_right _ hc)
    have hids := Meets.labelLoop { p.server with Srev := Srev } (macKey tc p.client.kminus 0x31 w) hm
      (hclient (by simp [searchClientCalls]))
      (fun c hc => hserver (List.mem_append_left _ (List.mem_append_left _ hc)))
    have hversion : ({ p.server with Srev := Srev } : Core).version = v.toInt := hver
    have hadded : DSSE.labelLoop tc p.server.Dplus (macKey tc p.client.kplus 0x31 w)
        (idEntry tc { p.server with Srev := Srev } (macKey tc p.client.kplus 0x32 w)
          (macKey tc p.client.kminus 0x31 w)) = .ok [] := by
      have hrun : Run (fun c => (∅ : Dmap)[macLong tc (macKey tc p.client.kplus 0x31 w)
          (UInt64.ofNat c)]?) 0 [] := ⟨by simp, by simp⟩
      rw [hDplus]
      exact probe_run hrun (by norm_num) .nil
    rw [searchServer_layout tc hlay hversion, searchLoops]
    simp only [searchClient] at hids hadded ⊢
    simp only [hids, hadded, bind, Except.bind, pure, Except.pure, List.append_nil]
  have hfree : ∀ id ∈ outs.flatten,
      (!revoked tc p.server (macKey tc p.client.kminus 0x31 w) id) = true := by
    intro id hid
    have hall : searchServer tc { p.server with Srev := ∅ } (searchClient tc p.client w) =
        .ok outs.flatten := by
      rw [hloops ∅, unrevoked, List.filter_eq_self.mpr fun id _ => by simp [DSSE.revoked]]
    have hcall : macLongCall (macKey tc p.client.kminus 0x31 w) id ∈ p.searchCalls tc w := by
      refine List.mem_append_right _ (List.mem_append_right _ ?_)
      rw [hall]
      exact List.mem_map.mpr ⟨id, hid, rfl⟩
    rw [DSSE.revoked, Bool.not_eq_true', ← Bool.not_eq_true, ExtTreeSet.contains_iff_mem]
    exact hleft _ hcall
  rw [Pair.search, hloops p.server.Srev, unrevoked, List.filter_eq_self.mpr hfree]

/-- A search of `w` gives the ids of `u` if no other token with the keys of `w` has ids. -/
theorem Pair.search_only {p : Pair} {v : Version} (hlay : v.layout? tc = some lay)
    (hb : Built tc lay log p.client.key fileids tokens p.server.D p.server.A entries)
    (hn : NoCollision tc log) (hfit : postingsTotal fileids tokens < INVALID.toNat)
    (hver : p.server.version = v.toInt) (hDplus : p.server.Dplus = ∅) {u w : Bytes} (hu : u ∈ tokens)
    (hids : INVALID ∉ fileids.getD u []) (hc : cstr u = cstr w)
    (hothers : ∀ u' ∈ tokens, cstr u' = cstr w → u' = u ∨ fileids.getD u' [] = [])
    (hleft : Unmixed tc p.server.Srev (p.searchCalls tc w)) (hlog : p.searchCalls tc w ⊆ log) :
    p.search tc w = .ok (fileids.getD u []) := by
  have hm := hb.meets_only (layout_right tc hlay) hn hfit hu hc hothers
  rw [Pair.search_setup hlay hver hDplus hleft hlog hm, flatten_outs tc hlay, readable_eq v hids]

/-- Different tokens do not interfere in an index exactly if none with ids agrees with another token up
    to its first NUL. The server may be in use before the Setup, and revocations may be left on it. -/
theorem Pair.tokensApart_iff {tc : Tomcrypt} {version : ℤ} {p : Pair} {keys : Keys}
    {tokens : List Bytes} {fileids : Postings} {client : Core} {L : List SetupPair} {M : List Bytes}
    (h : setupClient tc version p.client keys tokens fileids = .ok (client, L, M))
    (hdup : tokens.Nodup) (hids : ∀ w ∈ tokens, INVALID ∉ fileids.getD w [])
    (hfit : postingsTotal fileids tokens < INVALID.toNat)
    (hn : NoCollision tc (setupCalls tc version keys tokens fileids ++
      tokens.flatMap (Pair.searchCalls tc ⟨client, setupServer version p.server L M⟩)))
    (hleft : Unmixed tc p.server.Srev
      (tokens.flatMap (Pair.searchCalls tc ⟨client, setupServer version p.server L M⟩))) :
    TokensApart tc ⟨client, setupServer version p.server L M⟩ L tokens fileids ↔
      NulApart tokens fileids := by
  obtain ⟨v, lay, hlay, rfl⟩ := setupClient_version tc h
  obtain ⟨p', hp'⟩ : ∃ p' : Pair, p' = ⟨client, setupServer v.toInt p.server L M⟩ := ⟨_, rfl⟩
  rw [← hp'] at hn hleft ⊢
  have hkey : p'.client.key = keys.key := by
    rw [hp']; exact congrArg Keys.key (setupClient_state h).1
  rw [setupClient_layout tc hlay] at h
  obtain ⟨r, hidx, hr⟩ := exists_of_map_ok h
  obtain ⟨core, L', M'⟩ := r
  simp only [Prod.mk.injEq] at hr
  obtain ⟨-, rfl, rfl⟩ := hr
  obtain ⟨-, entries, hbuilt, hlabels⟩ := setupIndex_built tc (layout_right tc hlay) hidx hfit
  rw [← setupCalls_layout hlay] at hbuilt
  have hb := hbuilt.mono (List.subset_append_left _ (tokens.flatMap (p'.searchCalls tc)))
  have hnodup : (L'.map (·.Token)).Nodup ↔ ∀ u ∈ tokens, ∀ w ∈ tokens, u ≠ w → cstr u = cstr w →
      fileids.getD u [] = [] ∨ fileids.getD w [] = [] := by
    rw [hlabels.nodup_iff]
    exact hb.labels_nodup_iff hlay hn hfit hdup hids
  have hD : p'.server.D = L'.foldl (fun D p => D.insert p.Token p.FileID) ∅ := by rw [hp']; rfl
  have hA : p'.server.A = M' := by rw [hp']; rfl
  have hDplus : p'.server.Dplus = ∅ := by rw [hp']; rfl
  have hSrev : p'.server.Srev = p.server.Srev := by rw [hp']; rfl
  have hver : p'.server.version = v.toInt := by rw [hp']; rfl
  have hcalls : ∀ w ∈ tokens, p'.searchCalls tc w ⊆ tokens.flatMap (p'.searchCalls tc) :=
    fun w hw c hc => List.mem_flatMap.mpr ⟨w, hw, hc⟩
  rw [← hkey, ← hD, ← hA] at hb
  have hsearch : ∀ w ∈ tokens, ∀ u ∈ tokens, cstr u = cstr w →
      (∀ u' ∈ tokens, cstr u' = cstr w → u' = u ∨ fileids.getD u' [] = []) →
      p'.search tc w = .ok (fileids.getD u []) := fun w hw u hu hc hothers =>
    Pair.search_only hlay hb hn hfit hver hDplus hu (hids u hu) hc hothers
      (fun c hc => hSrev ▸ hleft c (hcalls w hw hc)) fun c hc => List.mem_append_right _ (hcalls w hw hc)
  constructor
  · intro hapart u hu w hw hne hc
    have hone := hnodup.mp hapart.labels
    have hempty : ∀ u ∈ tokens, ∀ w ∈ tokens, u ≠ w → cstr u = cstr w →
        fileids.getD u [] = [] → fileids.getD w [] = [] := by
      intro u hu w hw hne hc hnil
      by_contra hsome
      have hids := hsearch u hu w hw hc.symm fun u' hu' hc' => by
        by_contra hboth
        rw [not_or] at hboth
        rcases hone u' hu' w hw hboth.1 (hc'.trans hc) with h | h
        · exact hboth.2 h
        · exact hsome h
      rw [hapart.found u hu, hnil, Except.ok.injEq] at hids
      exact hsome hids.symm
    rcases hone u hu w hw hne hc with h | h
    · exact ⟨h, hempty u hu w hw hne hc h⟩
    · exact ⟨hempty w hw u hu hne.symm hc.symm h, h⟩
  · intro hapart
    have hlabels' : (L'.map (·.Token)).Nodup :=
      hnodup.mpr fun u hu w hw hne hc => Or.inl (hapart u hu w hw hne hc).1
    refine ⟨hlabels', ?_, ?_⟩
    · rw [hD]; exact foldl_insert_nodup L' ∅ hlabels'
    · intro w hw
      refine hsearch w hw w hw rfl fun u hu hc => ?_
      by_cases hne : u = w
      · exact Or.inl hne
      · exact Or.inr (hapart u hu w hw hne hc).1

/-- Two tokens, one with a NUL in it. -/
def sampleNulPostings : Postings :=
  ((∅ : Postings).insert [97] [1, 2]).insert [98, 0, 99] [3]

theorem Pair.tokensApart_sample : ∃ client L M,
    setupClient standIn Version.Packed.toInt Core.new sampleKeys [[97], [98, 0, 99]] sampleNulPostings =
      .ok (client, L, M) ∧
    (TokensApart standIn ⟨client, setupServer Version.Packed.toInt Core.new L M⟩ L
      [[97], [98, 0, 99]] sampleNulPostings ↔
        NulApart [[97], [98, 0, 99]] sampleNulPostings) := by
  have hrun : (setupClient standIn Version.Packed.toInt Core.new sampleKeys [[97], [98, 0, 99]]
      sampleNulPostings >>= fun r => .ok (decide (NoCollision standIn
        (setupCalls standIn Version.Packed.toInt sampleKeys [[97], [98, 0, 99]] sampleNulPostings ++
          [[97], [98, 0, 99]].flatMap (Pair.searchCalls standIn
            ⟨r.1, setupServer Version.Packed.toInt Core.new r.2.1 r.2.2⟩)))) : Except Halt Bool) =
        .ok true := by decide +kernel
  obtain ⟨⟨client, L, M⟩, hsetup, hn⟩ := exists_of_bind_ok hrun
  have hn := of_decide_eq_true (Except.ok.inj hn)
  refine ⟨client, L, M, hsetup, Pair.tokensApart_iff (p := Pair.fresh) hsetup (by decide) ?_ ?_ hn ?_⟩
  · decide +kernel
  · decide +kernel
  · intro c _
    simp [Pair.fresh, Core.new]

/-- A file with the words `a\0b` and `a\0c`. -/
def sampleBinary : Bytes := [97, 0, 98, 32, 97, 0, 99]

def sampleClash : Postings := ((∅ : Postings).insert [97, 0, 98] [1]).insert [97, 0, 99] [2]

/-- The two tokens of such a file have the same labels: one entry overwrites the other, and a search for
    one of them gives what belongs to the other. -/
theorem Pair.tokens_clash : ∃ tokens client L M,
    tokenize (some sampleBinary) = some tokens ∧ tokens.Nodup ∧
    (∀ w ∈ tokens, INVALID ∉ sampleClash.getD w []) ∧
    setupClient standIn Version.Basic.toInt Core.new sampleKeys tokens sampleClash =
      .ok (client, L, M) ∧
    NoCollision standIn (setupCalls standIn Version.Basic.toInt sampleKeys tokens sampleClash ++
      tokens.flatMap (Pair.searchCalls standIn
        ⟨client, setupServer Version.Basic.toInt Core.new L M⟩)) ∧
    ¬ (L.map (·.Token)).Nodup ∧
    ∃ w ∈ tokens, Pair.search standIn ⟨client, setupServer Version.Basic.toInt Core.new L M⟩ w ≠
      .ok (sampleClash.getD w []) := by
  have hrun : (setupClient standIn Version.Basic.toInt Core.new sampleKeys [[97, 0, 98], [97, 0, 99]]
      sampleClash >>= fun r => .ok (decide (NoCollision standIn
        (setupCalls standIn Version.Basic.toInt sampleKeys [[97, 0, 98], [97, 0, 99]] sampleClash ++
          [[97, 0, 98], [97, 0, 99]].flatMap (Pair.searchCalls standIn
            ⟨r.1, setupServer Version.Basic.toInt Core.new r.2.1 r.2.2⟩)) ∧
        ¬ (r.2.1.map (·.Token)).Nodup ∧
        ∃ w ∈ [[97, 0, 98], [97, 0, 99]], Pair.search standIn
          ⟨r.1, setupServer Version.Basic.toInt Core.new r.2.1 r.2.2⟩ w ≠
            .ok (sampleClash.getD w []))) : Except Halt Bool) = .ok true := by decide +kernel
  obtain ⟨⟨client, L, M⟩, hsetup, hall⟩ := exists_of_bind_ok hrun
  obtain ⟨hn, hlabels, hfound⟩ := of_decide_eq_true (Except.ok.inj hall)
  refine ⟨[[97, 0, 98], [97, 0, 99]], client, L, M, ?_, by decide, ?_, hsetup, hn, hlabels, hfound⟩
  · decide +kernel
  · decide +kernel

end DSSE
