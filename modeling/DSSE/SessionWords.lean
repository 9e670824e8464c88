import DSSE.Batches

/-! Client processes and words with a NUL. A process makes of its words what it makes of the words cut where
    `strlen` ends them, so an interleaving is the interleaving of its words cut as long as no two of them
    look alike. -/

namespace DSSE
open Schemes Std

/-- The words that a step adds or deletes. -/
def Event.words : Event → List Bytes
  | .addClient _ _ _ words => words
  | .delete _ _ words => words
  | _ => []

/-- The step with its words cut at their first NUL. -/
def Event.cut : Event → Event
  | .addClient i stack id words => .addClient i stack id (words.map cstr)
  | .delete i id words => .delete i id (words.map cstr)
  | .load i => .load i
  | .save i => .save i
  | .addServer i => .addServer i
  | .addClient2 i => .addClient2 i

def Phase.cut : Phase → Phase
  | .idle => .idle
  | .sent id words L W => .sent id (words.map cstr) L (W.map cstr)
  | .replied id words r W => .replied id (words.map cstr) r (W.map cstr)

/-- The words of the call are among `S`, and it gets at most one flag for each. -/
def Phase.Within (S : List Bytes) : Phase → Prop
  | .idle => True
  | .sent _ words L W => words ⊆ S ∧ W ⊆ S ∧ L.length = W.length
  | .replied _ words r W => words ⊆ S ∧ W ⊆ S ∧ r.length ≤ W.length

/-- An add that returned true, its words cut. -/
def cutAdd (a : UInt64 × List Bytes) : UInt64 × List Bytes := (a.1, a.2.map cstr)

/-- The client `core'` is `core`, but has the counters of the words `S` under what `strlen` sees. -/
structure CountsCut (S : List Bytes) (core core' : Core) : Prop where
  keys : core'.keys = core.keys
  counts : ∀ w ∈ S, core'.count (cstr w) = core.count w

/-- The process `y` is `x` with its words cut. -/
structure Session.CutTo (S : List Bytes) (x y : Session) : Prop where
  core : CountsCut S x.core y.core
  phase : y.phase = x.phase.cut
  within : x.phase.Within S

/-- The processes of `t` are those of `s` with their words cut, at the same server. -/
structure Sessions.CutTo (S : List Bytes) (s t : Sessions) : Prop where
  server : t.server = s.server
  file : CountsCut S s.file t.file
  session : ∀ i, (s.session i).CutTo S (t.session i)

variable {tc : Tomcrypt} {S : List Bytes} {s t : Sessions}

theorem CountsCut.saved {core core' : Core} (h : CountsCut S core core') :
    CountsCut S (savedClient core) (savedClient core') :=
  ⟨h.keys, h.counts⟩

theorem Sessions.CutTo.pair (h : s.CutTo S t) (i : ℕ) : DSSE.CutTo S (s.pair i) (t.pair i) :=
  ⟨h.server, (h.session i).core.keys, (h.session i).core.counts⟩

/-- A process and its cut move to states that correspond. -/
theorem Sessions.CutTo.set (h : s.CutTo S t) {i : ℕ} {x y : Session} (hxy : x.CutTo S y) :
    (s.set i x).CutTo S (t.set i y) where
  server := h.server
  file := h.file
  session j := by
    rcases eq_or_ne j i with rfl | hne
    · simp only [Sessions.set, Function.update_self]
      exact hxy
    · simp only [Sessions.set, Function.update_of_ne hne]
      exact h.session j

theorem Sessions.CutTo.addClient (h : s.CutTo S t) {i : ℕ} (hidle : (s.session i).phase = .idle)
    (stack : Stack) (id : UInt64) {words : List Bytes} (hwords : words ⊆ S) :
    ∃ s' t', s.step tc (.addClient i stack id words) = .ok (s', []) ∧
      t.step tc (.addClient i stack id (words.map cstr)) = .ok (t', []) ∧ s'.CutTo S t' := by
  have hidle' : (t.session i).phase = .idle := by rw [(h.session i).phase, hidle]; rfl
  obtain ⟨core, L, W, hL⟩ : ∃ core L W,
      DSSE.addClient tc (s.session i).core stack id words = (core, L, W) := ⟨_, _, _, rfl⟩
  obtain ⟨core', hL'⟩ := addClient_cut (h.pair i) stack id hwords hL
  have hL' : DSSE.addClient tc (t.session i).core stack id (words.map cstr) =
      (core', L, W.map cstr) := hL'
  obtain ⟨hkeys, hcount, hlen, hperm⟩ := addClient_counts hL
  obtain ⟨hkeys', hcount', -, -⟩ := addClient_counts hL'
  refine ⟨_, _, by rw [Sessions.step]; simp only [hidle, hL]; rfl,
    by rw [Sessions.step]; simp only [hidle', hL']; rfl, h.set ⟨⟨?_, fun w hw => ?_⟩, rfl, ?_⟩⟩
  · exact (hkeys'.trans (h.session i).core.keys).trans hkeys.symm
  · rw [hcount', hcount]
    exact (h.session i).core.counts w hw
  · exact ⟨hwords, List.Subset.trans hperm.subset hwords, hlen.trans hperm.length_eq.symm⟩

theorem Sessions.CutTo.addServer (h : s.CutTo S t) {i : ℕ} {id : UInt64} {words : List Bytes}
    {L : List AddPair} {W : List Bytes} (hsent : (s.session i).phase = .sent id words L W) :
    ∃ s' t', s.step tc (.addServer i) = .ok (s', []) ∧ t.step tc (.addServer i) = .ok (t', []) ∧
      s'.CutTo S t' := by
  have hsent' : (t.session i).phase = .sent id (words.map cstr) L (W.map cstr) := by
    rw [(h.session i).phase, hsent]; rfl
  have hwithin := (h.session i).within
  rw [hsent] at hwithin
  obtain ⟨hwords, hW, hpairs⟩ := hwithin
  obtain ⟨server, r, hr⟩ : ∃ server r, DSSE.addServer s.server L = (server, r) := ⟨_, _, rfl⟩
  have hlen := length_addServer_le L s.server
  rw [hr, hpairs] at hlen
  refine ⟨_, _, by rw [Sessions.step]; simp only [hsent, hr]; rfl,
    by rw [Sessions.step]; simp only [hsent', h.server, hr]; rfl, ?_⟩
  have hset := h.set (i := i) (x := ⟨(s.session i).core, .replied id words r W⟩)
    (y := ⟨(t.session i).core, .replied id (words.map cstr) r (W.map cstr)⟩)
    ⟨(h.session i).core, rfl, hwords, hW, hlen⟩
  exact ⟨rfl, hset.file, hset.session⟩

theorem Sessions.CutTo.addClient2 (h : s.CutTo S t) (hS : LookDifferent S) {i : ℕ} {id : UInt64}
    {words : List Bytes} {r : List UInt8} {W : List Bytes}
    (hreplied : (s.session i).phase = .replied id words r W) :
    ∃ s' t', s.step tc (.addClient2 i) = .ok (s', [(id, words)]) ∧
      t.step tc (.addClient2 i) = .ok (t', [cutAdd (id, words)]) ∧ words ⊆ S ∧ s'.CutTo S t' := by
  have hreplied' : (t.session i).phase = .replied id (words.map cstr) r (W.map cstr) := by
    rw [(h.session i).phase, hreplied]; rfl
  have hwithin := (h.session i).within
  rw [hreplied] at hwithin
  obtain ⟨hwords, hW, hlen⟩ := hwithin
  obtain ⟨core, hadd, hkeys, hcount⟩ := addClient2_zip r (s.session i).core W hlen
  obtain ⟨core', hadd', hkeys', hcount'⟩ := addClient2_zip r (t.session i).core (W.map cstr)
    (by rwa [List.length_map])
  refine ⟨_, _, by rw [Sessions.step]; simp only [hreplied, hadd]; rfl,
    by rw [Sessions.step]; simp only [hreplied', hadd']; rfl, hwords,
    h.set (x := ⟨core, .idle⟩) (y := ⟨core', .idle⟩) ⟨⟨?_, fun w hw => ?_⟩, rfl, trivial⟩⟩
  · exact (hkeys'.trans (h.session i).core.keys).trans hkeys.symm
  · rw [hcount', hcount, (h.session i).core.counts w hw, count_zip_cut hS hw r hW]

theorem Sessions.CutTo.delete (h : s.CutTo S t) {i : ℕ} (hidle : (s.session i).phase = .idle)
    (id : UInt64) (words : List Bytes) :
    ∃ s' t', s.step tc (.delete i id words) = .ok (s', []) ∧
      t.step tc (.delete i id (words.map cstr)) = .ok (t', []) ∧ s'.CutTo S t' := by
  have hidle' : (t.session i).phase = .idle := by rw [(h.session i).phase, hidle]; rfl
  have hserver : ((t.pair i).delete tc id (words.map cstr)).server = ((s.pair i).delete tc id words).server :=
    ((h.pair i).delete id words).server
  refine ⟨{ s with server := ((s.pair i).delete tc id words).server },
    { t with server := ((t.pair i).delete tc id (words.map cstr)).server }, ?_, ?_,
    hserver, h.file, h.session⟩
  · rw [Sessions.step]; simp only [hidle]; rfl
  · rw [Sessions.step]; simp only [hidle']; rfl

/-- A step of the processes is the step of those with their words cut. -/
theorem Sessions.CutTo.step (hS : LookDifferent S) (h : s.CutTo S t) {e : Event} (hwords : e.words ⊆ S) :
    Renames (Sessions.step tc) (Sessions.calls tc) (Sessions.step tc) (Sessions.calls tc)
      (Sessions.CutTo S) Event.cut cutAdd (·.2 ⊆ S) s t e := by
  -- a process that is not ready for its step stays as it is, cut or not
  have hnothing : t.calls tc e.cut = s.calls tc e → s.step tc e = .ok (s, []) →
      t.step tc e.cut = .ok (t, []) → Renames (Sessions.step tc) (Sessions.calls tc) (Sessions.step tc)
        (Sessions.calls tc) (Sessions.CutTo S) Event.cut cutAdd (·.2 ⊆ S) s t e :=
    fun hcalls hs ht => ⟨hcalls, s, t, [], hs, ht, nofun, h⟩
  have hphase : ∀ i, (t.session i).phase = (s.session i).phase.cut := fun i => (h.session i).phase
  cases e with
  | load i => exact ⟨rfl, _, _, [], rfl, rfl, nofun, h.set ⟨h.file, rfl, trivial⟩⟩
  | save i => exact ⟨rfl, _, _, [], rfl, rfl, nofun, h.server, (h.session i).core.saved, h.session⟩
  | addClient i stack id words =>
    have ht := hphase i
    cases hs : (s.session i).phase with
    | idle =>
      rw [hs] at ht
      obtain ⟨s', t', hstep, hstep', h'⟩ := h.addClient hs stack id hwords
      have hcalls : (t.pair i).calls tc (Op.cut (.add stack id words)) =
          (s.pair i).calls tc (.add stack id words) := (h.pair i).calls trivial hwords
      refine ⟨?_, s', t', [], hstep, hstep', nofun, h'⟩
      rw [Event.cut, Sessions.calls, Sessions.calls]
      simp only [hs, ht, Phase.cut]
      exact hcalls
    | sent | replied =>
      rw [hs] at ht
      simp only [Event.cut, Sessions.calls, Sessions.step, hs, ht, Phase.cut, forall_const] at hnothing
      exact hnothing
  | addServer i =>
    have ht := hphase i
    cases hs : (s.session i).phase with
    | sent id words L W =>
      obtain ⟨s', t', hstep, hstep', h'⟩ := h.addServer hs
      exact ⟨rfl, s', t', [], hstep, hstep', nofun, h'⟩
    | idle | replied =>
      rw [hs] at ht
      simp only [Event.cut, Sessions.calls, Sessions.step, hs, ht, Phase.cut, forall_const] at hnothing
      exact hnothing
  | addClient2 i =>
    have ht := hphase i
    cases hs : (s.session i).phase with
    | replied id words r W =>
      obtain ⟨s', t', hstep, hstep', hwords', h'⟩ := h.addClient2 hS hs
      exact ⟨rfl, s', t', [(id, words)], hstep, hstep', List.forall_mem_singleton.mpr hwords', h'⟩
    | idle | sent =>
      rw [hs] at ht
      simp only [Event.cut, Sessions.calls, Sessions.step, hs, ht, Phase.cut, forall_const] at hnothing
      exact hnothing
  | delete i id words =>
    have ht := hphase i
    cases hs : (s.session i).phase with
    | idle =>
      rw [hs] at ht
      obtain ⟨s', t', hstep, hstep', h'⟩ := h.delete hs id words
      have hcalls : (t.pair i).calls tc (Op.cut (.delete id words)) =
          (s.pair i).calls tc (.delete id words) := (h.pair i).calls trivial (List.nil_subset _)
      refine ⟨?_, s', t', [], hstep, hstep', nofun, h'⟩
      rw [Event.cut, Sessions.calls, Sessions.calls]
      simp only [hs, ht, Phase.cut]
      exact hcalls
    | sent | replied =>
      rw [hs] at ht
      simp only [Event.cut, Sessions.calls, Sessions.step, hs, ht, Phase.cut, forall_const] at hnothing
      exact hnothing

/-- A search does not see what follows a NUL. -/
theorem CutTo.search {p q : Pair} (hcut : CutTo S p q) (w : Bytes) :
    q.search tc (cstr w) = p.search tc w ∧ q.searchCalls tc (cstr w) = p.searchCalls tc w := by
  have hkey : q.client.key = p.client.key := congrArg Keys.key hcut.keys
  have hkplus : q.client.kplus = p.client.kplus := congrArg Keys.kplus hcut.keys
  have hkminus : q.client.kminus = p.client.kminus := congrArg Keys.kminus hcut.keys
  have hk : searchClient tc q.client (cstr w) = searchClient tc p.client w := by
    simp only [searchClient, hkey, hkplus, hkminus, macKey_congr _ _ (cstr_cstr w)]
  refine ⟨by rw [Pair.search, Pair.search, hk, hcut.server], ?_⟩
  rw [Pair.searchCalls, Pair.searchCalls, hk, hcut.server]
  simp only [searchClientCalls, macKeyCall, hkey, hkplus, hkminus, cstr_cstr]

theorem Event.cut_nulFree (e : Event) : e.cut.NulFree := by
  cases e with
  | addClient i stack id words => exact nulFree_map_cstr words
  | delete i id words => exact nulFree_map_cstr words
  | load | save | addServer | addClient2 => trivial

theorem Sessions.CutTo.quiet (h : s.CutTo S t) {e : Event} (hquiet : s.Quiet e) : t.Quiet e.cut := by
  cases e with
  | addServer i =>
    rw [Event.cut, Sessions.Quiet, (h.session i).phase, h.server]
    rw [Sessions.Quiet] at hquiet
    cases hs : (s.session i).phase with
    | sent id words L W =>
      rw [hs] at hquiet
      exact hquiet
    | idle | replied => trivial
  | load | save | addClient | addClient2 | delete => trivial

/-- After a Setup on a fresh pair no word is counted, cut or not. -/
theorem Sessions.CutTo.start {version : ℤ} {keys : Keys} {tokens : List Bytes} {fileids : Postings}
    {p : Pair} (hsetup : Pair.fresh.setup tc version keys tokens fileids = .ok p) :
    (Sessions.start p).CutTo S (Sessions.start p) := by
  obtain ⟨-, hcount, -⟩ := Pair.setup_state hsetup
  have hcounts : CountsCut S (savedClient p.client) (savedClient p.client) := by
    refine ⟨rfl, fun w _ => ?_⟩
    rw [Core.count, Core.count, savedClient, hcount]
    simp [Pair.fresh, Core.new]
  exact ⟨rfl, hcounts, fun i => ⟨hcounts, rfl, trivial⟩⟩

/-- In every interleaving after a Setup in which AddServer never meets a label that is taken, whatever
    Add returned true is found by every process, unless a Delete of the pair was issued. No two of the words
    look alike to `strlen`. -/
theorem Sessions.acked_found (tc : Tomcrypt) {version : ℤ} {keys : Keys} {tokens : List Bytes}
    {fileids : Postings} {p : Pair} {es : List Event}
    (hsetup : Client.setup tc Pair.fresh version keys tokens fileids = .ok (p, true))
    (hids : postingsTotal fileids tokens < INVALID.toNat) (hS : LookDifferent (es.flatMap Event.words))
    (hquiet : Along (Sessions.step tc) Sessions.Quiet (.start p) es)
    (hn : NoCollision tc (setupCalls tc version keys tokens fileids ++
      (Sessions.start p).runCalls tc es)) :
    ∃ s acked, (Sessions.start p).run tc es = .ok (s, acked) ∧
      ∀ id words, (id, words) ∈ acked → ∀ w ∈ words,
        (∀ i words', Event.delete i id words' ∈ es → w ∉ words') → ∀ i,
          NoCollision tc (setupCalls tc version keys tokens fileids ++
            (Sessions.start p).runCalls tc es ++ (s.pair i).searchCalls tc w) →
          ∃ ids, Client.search tc (s.pair i) w = .ok (s.pair i, ids) ∧ id ∈ ids := by
  obtain ⟨S, hSdef⟩ : ∃ S, es.flatMap Event.words = S := ⟨_, rfl⟩
  rw [hSdef] at hS
  have hin : ∀ e ∈ es, e.words ⊆ S := fun e he w hw => hSdef ▸ List.mem_flatMap.mpr ⟨e, he, hw⟩
  have hstart : (Sessions.start p).CutTo S (.start p) := .start (Client.setup_ok tc hsetup)
  have hstep : ∀ s t e, Sessions.CutTo S s t → e.words ⊆ S → Renames (Sessions.step tc) (Sessions.calls tc)
      (Sessions.step tc) (Sessions.calls tc) (Sessions.CutTo S) Event.cut cutAdd (·.2 ⊆ S) s t e :=
    fun s t e h he => h.step hS he
  obtain ⟨hlog, s, t, acked, hs, ht, hacked, hst⟩ := runs_renamed hstep hstart hin
  have hquiet' := Along.renamed hstep (fun s t e h => h.quiet) hstart hin hquiet
  have hnul : ∀ e ∈ es.map Event.cut, e.NulFree := by
    rintro _ he
    obtain ⟨e, -, rfl⟩ := List.mem_map.mp he
    exact e.cut_nulFree
  rw [← Sessions.runCalls, ← Sessions.runCalls] at hlog
  obtain ⟨t', acked', ht', hfound⟩ := Sessions.found_of_nulFree tc hsetup hids hnul hquiet'
    (by rwa [hlog])
  rw [Sessions.run, ht, Except.ok.injEq, Prod.mk.injEq] at ht'
  obtain ⟨rfl, rfl⟩ := ht'
  refine ⟨s, acked, hs, fun id words hmem w hw hkept i hn' => ?_⟩
  have hwS : w ∈ S := hacked (id, words) hmem hw
  have hsearch : (t.pair i).search tc (cstr w) = (s.pair i).search tc w := ((hst.pair i).search w).1
  have hcalls : (t.pair i).searchCalls tc (cstr w) = (s.pair i).searchCalls tc w :=
    ((hst.pair i).search w).2
  -- a Delete of the word cut is the cut of a Delete of the word
  have hkept' : ∀ j words', Event.delete j id words' ∈ es.map Event.cut → cstr w ∉ words' := by
    intro j words' hdel hw'
    obtain ⟨e, he, hcut⟩ := List.mem_map.mp hdel
    cases e with
    | delete j' id' words'' =>
      cases hcut
      obtain ⟨u, hu, hlook⟩ := List.mem_map.mp hw'
      exact hkept j words'' he (hS u (hin _ he hu) w hwS hlook ▸ hu)
    | load | save | addClient | addServer | addClient2 => cases hcut
  obtain ⟨ids, hids', hid⟩ := hfound id (words.map cstr) (List.mem_map_of_mem hmem) (cstr w)
    (List.mem_map_of_mem hw) hkept' i (by rwa [hlog, hcalls])
  refine ⟨ids, ?_, hid⟩
  rw [Client.search_eq, hsearch] at hids'
  obtain ⟨ids', hfind, heq⟩ := exists_of_map_ok hids'
  cases heq
  rw [Client.search_eq, hfind]
  rfl

/-- Two processes that add file 1 and file 2 to the word "a": the second starts from the state that the
    first one saved, and has another word with a NUL. File 1 is deleted at the end. -/
def sampleTurns : List Event :=
  [.addClient 0 (fun _ _ => 0) 1 [[97]], .addServer 0, .addClient2 0, .save 0, .load 1,
    .addClient 1 (fun _ _ => 0) 2 [[97], [98, 0, 97]], .addServer 1, .addClient2 1,
    .delete 0 1 [[97]]]

/-- The same adds of two processes that both start from the state after Setup. -/
def sampleRace : List Event :=
  [.addClient 0 (fun _ _ => 0) 1 [[97]], .addClient 1 (fun _ _ => 0) 2 [[97]], .addServer 0,
    .addServer 1, .addClient2 0, .addClient2 1]

theorem Sessions.acked_found_sample :
    ∃ p s, Client.setup standIn Pair.fresh Version.Basic.toInt sampleKeys [] ∅ = .ok (p, true) ∧
      (Sessions.start p).run standIn sampleTurns = .ok (s, [(1, [[97]]), (2, [[97], [98, 0, 97]])]) ∧
      ∃ ids, Client.search standIn (s.pair 0) [97] = .ok (s.pair 0, ids) ∧ 2 ∈ ids := by
  have hrun : (Client.setup standIn Pair.fresh Version.Basic.toInt sampleKeys [] ∅ >>= fun r =>
      (Sessions.start r.1).run standIn sampleTurns >>= fun q =>
        .ok (r.2, decide (q.2 = [(1, [[97]]), (2, [[97], [98, 0, 97]])] ∧
          Along (Sessions.step standIn) Sessions.Quiet (.start r.1) sampleTurns ∧
            NoCollision standIn (setupCalls standIn Version.Basic.toInt sampleKeys [] ∅ ++
              (Sessions.start r.1).runCalls standIn sampleTurns ++
                (q.1.pair 0).searchCalls standIn [97])))) = .ok (true, true) := by
    decide +kernel
  obtain ⟨⟨p, ok⟩, hsetup, h⟩ := exists_of_bind_ok hrun
  obtain ⟨⟨s, acked⟩, hes, h⟩ := exists_of_bind_ok h
  simp only [Except.ok.injEq, Prod.mk.injEq, decide_eq_true_eq] at h
  obtain ⟨rfl, rfl, hquiet, hn⟩ := h
  obtain ⟨s', acked', hes', hfound⟩ := Sessions.acked_found standIn hsetup (by decide) (by decide)
    hquiet (NoCollision.mono standIn hn (List.subset_append_left _ _))
  rw [hes, Except.ok.injEq, Prod.mk.injEq] at hes'
  obtain ⟨rfl, rfl⟩ := hes'
  refine ⟨p, s, hsetup, hes, hfound 2 [[97], [98, 0, 97]] (by simp) [97] (by simp) ?_ 0 hn⟩
  intro i words' hmem
  simp [sampleTurns] at hmem

/-- The add of the second process meets the label of the first, and returns true all the same. -/
theorem Sessions.acked_lost :
    ∃ p s, Client.setup standIn Pair.fresh Version.Basic.toInt sampleKeys [] ∅ = .ok (p, true) ∧
      (Sessions.start p).run standIn sampleRace = .ok (s, [(1, [[97]]), (2, [[97]])]) ∧
      NoCollision standIn (setupCalls standIn Version.Basic.toInt sampleKeys [] ∅ ++
        (Sessions.start p).runCalls standIn sampleRace ++ (s.pair 1).searchCalls standIn [97]) ∧
      (∀ i id words, Event.delete i id words ∉ sampleRace) ∧
      Client.search standIn (s.pair 1) [97] = .ok (s.pair 1, [1]) := by
  have hrun : (Client.setup standIn Pair.fresh Version.Basic.toInt sampleKeys [] ∅ >>= fun r =>
      (Sessions.start r.1).run standIn sampleRace >>= fun q =>
        (q.1.pair 1).search standIn [97] >>= fun ids =>
          .ok (r.2, decide (q.2 = [(1, [[97]]), (2, [[97]])] ∧ ids = [1] ∧ NoCollision standIn
            (setupCalls standIn Version.Basic.toInt sampleKeys [] ∅ ++
              (Sessions.start r.1).runCalls standIn sampleRace ++
                (q.1.pair 1).searchCalls standIn [97])))) = .ok (true, true) := by
    decide +kernel
  obtain ⟨⟨p, ok⟩, hsetup, h⟩ := exists_of_bind_ok hrun
  obtain ⟨⟨s, acked⟩, hes, h⟩ := exists_of_bind_ok h
  obtain ⟨ids, hsearch, h⟩ := exists_of_bind_ok h
  simp only [Except.ok.injEq, Prod.mk.injEq, decide_eq_true_eq] at h
  obtain ⟨rfl, rfl, rfl, hn⟩ := h
  refine ⟨p, s, hsetup, hes, hn, by simp [sampleRace], ?_⟩
  rw [Client.search_eq, hsearch]
  rfl

end DSSE
