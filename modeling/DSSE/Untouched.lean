import DSSE.Deletions
import DSSE.Flags

/-! What an Add or a Delete leaves as it was. Nothing is asked of the state before it: labels may have
    gaps, counters may be stale, pairs may have been deleted that never were there. -/

namespace DSSE
open Schemes Std

variable {tc : Tomcrypt} {log : List MacCall}

/-- What is under a label that no pair carries stays as it is. -/
theorem getElem?_dplus_addServer {t : Bytes} : ∀ (L : List AddPair) {core : Core},
    (∀ q ∈ L, q.Token ≠ t) → (addServer core L).1.Dplus[t]? = core.Dplus[t]?
  | [], _, _ => rfl
  | q :: L, core, hL => by
    have hq : q.Token ≠ t := hL q List.mem_cons_self
    have hpair : (addServerPair core q).1.Dplus[t]? = core.Dplus[t]? := by
      rcases addServerPair_cases core q with ⟨-, h⟩ | ⟨-, -, h⟩ | ⟨-, -, h⟩ <;> rw [h]
      rw [ExtTreeMap.getElem?_insert, if_neg fun he => hq (LawfulEqCmp.compare_eq_iff_eq.mp he)]
    rw [addServer, ← hpair]
    exact getElem?_dplus_addServer L fun q' hq' => hL q' (List.mem_cons_of_mem _ hq')

/-- A search of a server that has the same index, the same under the labels looked up, and of the ids met
    also those revoked that `keep` leaves out. -/
theorem searchServer_spared {core core' : Core} (hsame : SameIndex core core') {k : SearchKeys}
    (hDplus : ∀ call ∈ labelCalls tc core.Dplus k.K1plus,
      core'.Dplus[tc.mac call]? = core.Dplus[tc.mac call]?) {keep : UInt64 → Bool}
    (hkeep : ∀ id, macLongCall k.K1minus id ∈ searchServerCalls tc core k →
      revoked tc core' k.K1minus id = (revoked tc core k.K1minus id || !keep id)) :
    searchServer tc core' k = (searchServer tc core k).map (List.filter keep) := by
  rw [searchServer_frame tc core hsame.version.symm hsame.D.symm hsame.A.symm hDplus,
    searchServer_filters tc core rfl rfl rfl rfl]
  cases hall : searchServer tc { core with Srev := ∅ } k with
  | error e => rfl
  | ok ids =>
    simp only [Except.map, Except.ok.injEq, unrevoked, List.filter_filter]
    refine List.filter_congr fun id hid => ?_
    have hcall : macLongCall k.K1minus id ∈ searchServerCalls tc core k := by
      rw [searchServerCalls, hall]
      exact List.mem_append_right _ (List.mem_map_of_mem hid)
    rw [hkeep id hcall]
    cases revoked tc core k.K1minus id <;> cases keep id <;> rfl

/-! ### What a search asks for -/

variable {p : Pair} {client : Core} {id : UInt64} {words : List Bytes} {u : Bytes}

/-- The labels that a search of `u` looks up in `Dplus` are those of `u`. -/
theorem Pair.label_logged {call : MacCall}
    (h : call ∈ labelCalls tc p.server.Dplus (searchClient tc p.client u).K1plus) :
    ∃ c, tc.mac call = derived tc p.client.kplus u c ∧
      derivedCalls tc p.client.kplus u c ⊆ p.searchCalls tc u := by
  obtain ⟨c, -, rfl⟩ := List.mem_map.mp h
  refine ⟨UInt64.ofNat c, rfl, ?_⟩
  rintro call hcall
  rcases List.mem_cons.mp hcall with rfl | hcall
  · exact List.mem_append_left _ (by simp [searchClientCalls])
  · rw [List.mem_singleton.mp hcall]
    exact List.mem_append_right _ (List.mem_append_left _ (List.mem_append_right _ h))

/-- The revocation ids that a search of `u` asks for are those of `u`. -/
theorem Pair.revid_logged {x : UInt64}
    (h : macLongCall (searchClient tc p.client u).K1minus x ∈
      searchServerCalls tc p.server (searchClient tc p.client u)) :
    derivedCalls tc p.client.kminus u x ⊆ p.searchCalls tc u := by
  rintro call hcall
  rcases List.mem_cons.mp hcall with rfl | hcall
  · exact List.mem_append_left _ (by simp [searchClientCalls])
  · rw [List.mem_singleton.mp hcall]
    exact List.mem_append_right _ h

/-! ### Add and Delete -/

/-- An Add of other words: its labels and revocation ids are not those of `u`. -/
theorem Pair.search_addServer (hkeys : p.client.keys = client.keys)
    (hwords : ∀ w ∈ words, NulFree w) (hu : NulFree u) (stack : Stack)
    (hn : NoCollision tc (addCalls tc client id words ++ p.searchCalls tc u)) (hnot : u ∉ words) :
    Pair.search tc { p with
      server := (addServer p.server (addClient tc client stack id words).2.1).1 } u =
        p.search tc u := by
  have hkplus : p.client.kplus = client.kplus := congrArg Keys.kplus hkeys
  have hkminus : p.client.kminus = client.kminus := congrArg Keys.kminus hkeys
  have hall : (p.search tc u).map (List.filter fun _ => true) = p.search tc u := by
    cases p.search tc u <;> simp [Except.map]
  rw [← hall, Pair.search, Pair.search]
  refine searchServer_spared (addServer_sameIndex _ _).1 ?_ ?_
  · rintro call hcall
    obtain ⟨c, hc, hlog⟩ := Pair.label_logged hcall
    rw [hc]
    refine getElem?_dplus_addServer _ fun q hq heq => hnot ?_
    obtain ⟨w, hw, htoken, -⟩ := mem_addClient client stack id words q hq
    rw [htoken, hkplus] at heq
    rw [hkplus] at hlog
    obtain ⟨rfl, -⟩ := derived_inj_word hn (hwords w hw) hu
      (List.Subset.trans (derivedCalls_subset_addCalls tc client id hw).1
        (List.subset_append_left _ _)) (List.Subset.trans hlog (List.subset_append_right _ _)) heq
    exact hw
  · rintro x hx
    have hlog := Pair.revid_logged hx
    rw [Bool.not_true, Bool.or_false, Bool.eq_iff_iff, revoked, revoked,
      ExtTreeSet.contains_iff_mem, ExtTreeSet.contains_iff_mem, mem_srev_addServer]
    refine and_iff_left fun q hq heq => hnot ?_
    obtain ⟨w, hw, -, hrevid, -⟩ := mem_addClient client stack id words q hq
    have heq' : derived tc client.kminus w id = derived tc p.client.kminus u x := hrevid ▸ heq
    rw [hkminus] at heq' hlog
    obtain ⟨rfl, -⟩ := derived_inj_word hn (hwords w hw) hu
      (List.Subset.trans (derivedCalls_subset_addCalls tc client id hw).2
        (List.subset_append_left _ _)) (List.Subset.trans hlog (List.subset_append_right _ _)) heq'
    exact hw

/-- A Delete takes its id out of the lists of its words, wherever and however often it is there. -/
theorem Pair.search_deleteServer (hkeys : p.client.keys = client.keys)
    (hwords : ∀ w ∈ words, NulFree w) (hu : NulFree u)
    (hn : NoCollision tc (deleteCalls tc client id words ++ p.searchCalls tc u)) :
    Pair.search tc { p with server := deleteServer p.server (deleteClient tc client id words) } u =
      (p.search tc u).map (List.filter fun x => !decide (u ∈ words ∧ x = id)) := by
  have hkminus : p.client.kminus = client.kminus := congrArg Keys.kminus hkeys
  have hsame : SameIndex p.server (deleteServer p.server (deleteClient tc client id words)) :=
    ⟨rfl, rfl, rfl⟩
  rw [Pair.search, Pair.search]
  refine searchServer_spared hsame (fun _ _ => rfl) fun x hx => ?_
  have hlog := Pair.revid_logged hx
  rw [hkminus] at hlog
  rw [Bool.not_not, Bool.eq_iff_iff, Bool.or_eq_true, decide_eq_true_eq, revoked, revoked,
    ExtTreeSet.contains_iff_mem, ExtTreeSet.contains_iff_mem, deleteServer, mem_foldl_insert,
    mem_deleteClient]
  refine or_congr_right ?_
  have hx' : macLong tc (searchClient tc p.client u).K1minus x = derived tc client.kminus u x := by
    rw [← hkminus]; rfl
  rw [hx']
  constructor
  · rintro ⟨w, hw, heq⟩
    obtain ⟨rfl, rfl⟩ := derived_inj_word hn (hwords w hw) hu
      (List.Subset.trans (derivedCalls_subset_deleteCalls hw) (List.subset_append_left _ _))
      (List.Subset.trans hlog (List.subset_append_right _ _)) heq
    exact ⟨hw, rfl⟩
  · rintro ⟨hw, rfl⟩
    exact ⟨u, hw, rfl⟩

/-- The result list of `Client::Search`. -/
def Client.found (tc : Tomcrypt) (p : Pair) (w : Bytes) : Except Halt (List UInt64) :=
  (Client.search tc p w).map (·.2)

theorem Client.found_eq (p : Pair) (w : Bytes) : Client.found tc p w = p.search tc w := by
  rw [Client.found, Client.search_eq]
  cases p.search tc w <;> rfl

/-- An Add never throws: the server answers with at most one flag for each pair, and each flag 0 counts
    for the word at its place. -/
theorem Pair.add_spec (tc : Tomcrypt) (p : Pair) (stack : Stack) (id : UInt64) (words : List Bytes)
    {client : Core} {L : List AddPair} {W : List Bytes}
    (h : addClient tc p.client stack id words = (client, L, W)) :
    ∃ client', p.add tc stack id words = .ok ⟨client', (addServer p.server L).1⟩ ∧
      client'.keys = p.client.keys ∧ ∀ u, client'.count u =
        p.client.count u + UInt64.ofNat ((W.zip (addServer p.server L).2).count (u, 0)) := by
  obtain ⟨hkeys, hcount, hlen, hperm⟩ := addClient_counts h
  obtain ⟨client', hadd₂, hkeys', hcount'⟩ := addClient2_zip (addServer p.server L).2 client W
    ((length_addServer_le L p.server).trans (by rw [hlen, hperm.length_eq]))
  refine ⟨client', ?_, hkeys'.trans hkeys, fun u => by rw [hcount', hcount]⟩
  rw [Pair.add, h]
  simp only [hadd₂]
  rfl

/-- An Add leaves the result lists of all words but its own as they were. A Delete leaves the others as they
    were and takes all occurrences of its id out of the lists of its own. The server can be in any state,
    the client can have any counters, and any client with the same keys can search. -/
theorem Client.updates_spare (tc : Tomcrypt) (server : Core) {client searcher : Core}
    (hkeys : searcher.keys = client.keys) (stack : Stack) (id : UInt64) {words : List Bytes}
    (hwords : ∀ w ∈ words, NulFree w) {u : Bytes} (hu : NulFree u) :
    (NoCollision tc (addCalls tc client id words ++ Pair.searchCalls tc ⟨searcher, server⟩ u) →
      ∃ p, Client.add tc ⟨client, server⟩ stack id words = .ok (p, true) ∧
        (u ∉ words → Client.found tc ⟨searcher, p.server⟩ u = Client.found tc ⟨searcher, server⟩ u)) ∧
    (NoCollision tc (deleteCalls tc client id words ++ Pair.searchCalls tc ⟨searcher, server⟩ u) →
      ∃ p, Client.delete tc ⟨client, server⟩ id words = .ok (p, true) ∧
        (u ∉ words → Client.found tc ⟨searcher, p.server⟩ u = Client.found tc ⟨searcher, server⟩ u) ∧
        (u ∈ words → Client.found tc ⟨searcher, p.server⟩ u =
          (Client.found tc ⟨searcher, server⟩ u).map (List.filter (· ≠ id)))) := by
  simp only [Client.found_eq]
  constructor
  · intro hn
    obtain ⟨core, L, W, hL⟩ : ∃ core L W, addClient tc client stack id words = (core, L, W) :=
      ⟨_, _, _, rfl⟩
    obtain ⟨client', hadd, -⟩ := Pair.add_spec tc ⟨client, server⟩ stack id words hL
    refine ⟨_, by rw [Client.add_eq, hadd]; rfl, fun hnot => ?_⟩
    have hsearch := Pair.search_addServer (p := ⟨searcher, server⟩) hkeys hwords hu stack hn hnot
    rw [hL] at hsearch
    exact hsearch
  · intro hn
    have hfilter := Pair.search_deleteServer hkeys hwords hu hn
    refine ⟨_, Client.delete_eq tc ⟨client, server⟩ id words, fun hnot => ?_, fun hmem => ?_⟩
    · have hall : ∀ r : Except Halt (List UInt64),
          r.map (List.filter fun x => !decide (u ∈ words ∧ x = id)) = r := by
        intro r
        cases r <;> simp [Except.map, hnot]
      exact hfilter.trans (hall _)
    · have hpred : (fun x => !decide (u ∈ words ∧ x = id)) = fun x => decide (x ≠ id) := by
        funext x
        simp [hmem]
      rw [hpred] at hfilter
      exact hfilter

/-- A word is named twice in the Add, and file 1 was never there for the second word of the Delete. -/
theorem Client.updates_spare_sample :
    ∃ p p', Client.add standIn ⟨.new, sampleServer⟩ (fun _ _ => 0) 7 [[98], [98]] = .ok (p, true) ∧
      Client.found standIn ⟨.new, p.server⟩ [97] = .ok [1] ∧
      Client.delete standIn ⟨.new, sampleServer⟩ 1 [[97], [98]] = .ok (p', true) ∧
      Client.found standIn ⟨.new, p'.server⟩ [97] = .ok [] := by
  have hfound : Client.found standIn ⟨.new, sampleServer⟩ [97] = .ok [1] := by decide +kernel
  have hkeys : Core.new.keys = Core.new.keys := rfl
  have hadds : ∀ w ∈ [[98], [98]], NulFree w := by decide
  have hdeletes : ∀ w ∈ [[97], [98]], NulFree w := by decide
  have hu : NulFree [97] := by decide
  obtain ⟨p, hadd, hsame⟩ := (Client.updates_spare standIn sampleServer hkeys (fun _ _ => 0) 7 hadds
    hu).1 (by decide +kernel)
  obtain ⟨p', hdelete, -, hless⟩ := (Client.updates_spare standIn sampleServer hkeys (fun _ _ => 0) 1
    hdeletes hu).2 (by decide +kernel)
  refine ⟨p, p', hadd, (hsame (by decide)).trans hfound, hdelete, ?_⟩
  rw [hless (by decide), hfound]
  rfl

end DSSE
