import DSSE.Frame
import DSSE.Service

/-! Deleted pairs stay deleted, whatever state the server is in: the revocation id of the pair is on the
    revocation list, every search filters on it, and nothing but an Add of the very pair takes it off. -/

namespace DSSE
open Schemes Std

/-- A client in some state and the method it calls. -/
abbrev Call := Core × Op

section
variable (tc : Tomcrypt)

/-- The server after a call. -/
def Core.answered (server : Core) (call : Call) : Core :=
  match call.2.request tc call.1 with
  | some req => server.handled tc req
  | none => server

/-- The HMAC computations of an Add or a Delete on the client. -/
def Call.updateCalls : Call → List MacCall
  | (client, .add _ id words) => addCalls tc client id words
  | (client, .delete id words) => deleteCalls tc client id words
  | _ => []

end

/-- The call is no Setup, its words are ones that `strlen` sees whole, and it is no Add of the id with the
    word. -/
def Call.Spares (id : UInt64) (w : Bytes) : Call → Prop
  | (_, .setup ..) => False
  | (_, .add _ id' words) => (∀ w' ∈ words, NulFree w') ∧ ¬ (id' = id ∧ w ∈ words)
  | (_, .delete _ words) => ∀ w' ∈ words, NulFree w'
  | (_, .search w') => NulFree w'

variable {tc : Tomcrypt} {log : List MacCall}

/-! ### The revocation list -/

/-- The labels, ciphertexts and revocation ids that AddClient makes. -/
theorem mem_addClient (client : Core) (stack : Stack) (id : UInt64) (words : List Bytes) :
    ∀ q ∈ (addClient tc client stack id words).2.1, ∃ w ∈ words,
      q.Token = derived tc client.kplus w (client.count w) ∧ q.RevID = derived tc client.kminus w id ∧
        Encrypts tc (macKey tc client.kplus 0x32 w) q.FileID id := by
  obtain ⟨-, -, hwords, hpairs⟩ := addTokenPairs_spec tc stack id words client 0
  intro q hq
  obtain ⟨p, hp, rfl⟩ := List.mem_map.mp hq
  have hp' := (List.perm_insertionSort _ _).mem_iff.mp hp
  obtain ⟨surplus, -, he⟩ := hpairs p hp'
  have hw : p.w ∈ words := hwords ▸ List.mem_map_of_mem hp'
  exact ⟨p.w, hw, congrArg TokenPair.l he, congrArg TokenPair.r he, surplus, congrArg TokenPair.d he⟩

theorem Core.answered_srev (hn : NoCollision tc log) {kminus w : Bytes} {id : UInt64} (hw : NulFree w)
    (hpair : derivedCalls tc kminus w id ⊆ log) {server : Core}
    (hmem : derived tc kminus w id ∈ server.Srev) {call : Call} (hspares : call.Spares id w)
    (hlog : call.updateCalls tc ⊆ log) :
    derived tc kminus w id ∈ (server.answered tc call).Srev := by
  obtain ⟨client, op⟩ := call
  cases op with
  | setup => exact hspares.elim
  | add stack id' words =>
    obtain ⟨hwords, hnames⟩ := hspares
    have hserver : (server.answered tc (client, .add stack id' words)) =
        (addServer server (addClient tc client stack id' words).2.1).1 := by
      simp only [Core.answered, Op.request, Core.handled, handleMessage_add]
    rw [hserver]
    refine (mem_srev_addServer _ _ _).mpr ⟨hmem, fun q hq heq => ?_⟩
    obtain ⟨w', hw', -, hrevid, -⟩ := mem_addClient client stack id' words q hq
    have hcalls := (derivedCalls_subset_addCalls tc client id' hw').2
    -- the same revocation id is that of the same pair
    obtain ⟨-, hcstr, rfl⟩ := derived_inj hn (List.Subset.trans hcalls hlog) hpair
      (hrevid.symm.trans heq)
    rw [cstr_of_nulFree (hwords w' hw'), cstr_of_nulFree hw] at hcstr
    obtain rfl := hcstr
    exact hnames ⟨rfl, hw'⟩
  | delete id' words =>
    show _ ∈ (deleteServer server (deleteClient tc client id' words)).Srev
    rw [deleteServer, mem_foldl_insert]
    exact Or.inl hmem
  | search w' =>
    have hserver : (server.answered tc (client, .search w')) = server := by
      simp only [Core.answered, Op.request, Core.handled, handleMessage_search]
      cases searchServer tc server (searchClient tc client w') <;> rfl
    rwa [hserver]

/-- A search does not give ids whose revocation id is on the list. -/
theorem searchServer_unrevoked {core : Core} {k : SearchKeys} {ids : List UInt64} {id : UInt64}
    (h : searchServer tc core k = .ok ids) (hmem : macLong tc k.K1minus id ∈ core.Srev) : id ∉ ids := by
  rw [searchServer_filters tc core rfl rfl rfl rfl] at h
  obtain ⟨all, -, rfl⟩ := exists_of_map_ok h
  intro hid
  have hrevoked : revoked tc core k.K1minus id = true := ExtTreeSet.contains_iff_mem.mpr hmem
  simp [unrevoked, hrevoked] at hid

/-- After a Delete no search for one of its words gives its id, and this stays so until an Add names the
    id together with the word. The state before the Delete and the keys and counters of the clients
    that call later can be any. -/
theorem Core.deletion_sticks (tc : Tomcrypt) (server client : Core) {id : UInt64} {words : List Bytes}
    {w : Bytes} (hw : w ∈ words) (hnul : NulFree w) {calls : List Call}
    (hcalls : ∀ call ∈ calls, call.Spares id w)
    (hn : NoCollision tc (((client, .delete id words) :: calls).flatMap (Call.updateCalls tc)))
    {searcher : Core} (hkeys : searcher.keys = client.keys) {ids : List UInt64}
    (hsearch : searchServer tc
      (calls.foldl (Core.answered tc) (server.answered tc (client, .delete id words)))
      (searchClient tc searcher w) = .ok ids) : id ∉ ids := by
  let log := ((client, .delete id words) :: calls).flatMap (Call.updateCalls tc)
  have hlog : ∀ call ∈ calls, call.updateCalls tc ⊆ log := fun call hcall c hc =>
    List.mem_append_right _ (List.mem_flatMap.mpr ⟨call, hcall, hc⟩)
  have hpair : derivedCalls tc client.kminus w id ⊆ log := by
    intro c hc
    refine List.mem_append_left _ (List.mem_flatMap.mpr ⟨w, hw, ?_⟩)
    exact hc
  have hdelete : derived tc client.kminus w id ∈
      (server.answered tc (client, .delete id words)).Srev := by
    show _ ∈ (deleteServer server (deleteClient tc client id words)).Srev
    rw [deleteServer, mem_foldl_insert, mem_deleteClient]
    exact Or.inr ⟨w, hw, rfl⟩
  have hrun : ∀ (cs : List Call) (s : Core), (∀ call ∈ cs, call ∈ calls) →
      derived tc client.kminus w id ∈ s.Srev →
      derived tc client.kminus w id ∈ (cs.foldl (Core.answered tc) s).Srev := by
    intro cs
    induction cs with
    | nil => intro s _ hs; exact hs
    | cons call cs ih =>
      intro s hcs hs
      have hcall := hcs call List.mem_cons_self
      exact ih _ (fun c hc => hcs c (List.mem_cons_of_mem _ hc))
        (Core.answered_srev hn hnul hpair hs (hcalls call hcall) (hlog call hcall))
  refine searchServer_unrevoked hsearch ?_
  have hkminus : searcher.kminus = client.kminus := congrArg Keys.kminus hkeys
  show derived tc searcher.kminus w id ∈ _
  rw [hkminus]
  exact hrun calls _ (fun _ h => h) hdelete

/-- A client that has counted one id for the word "a". -/
def sampleCounted : Core := { Core.new with Dcount := (∅ : Dcountmap).insert [97] 1 }

def sampleServer : Core := Core.new.answered standIn (.new, .add (fun _ _ => 0) 1 [[97]])

theorem Core.deletion_sticks_sample :
    ∃ ids, searchServer standIn
      ([(sampleCounted, .add (fun _ _ => 0) 2 [[97]]), (.new, .delete 3 [[97]])].foldl
        (Core.answered standIn) (sampleServer.answered standIn (.new, .delete 1 [[97]])))
      (searchClient standIn .new [97]) = .ok ids ∧ 2 ∈ ids ∧ 1 ∉ ids := by
  let calls : List Call := [(sampleCounted, .add (fun _ _ => 0) 2 [[97]]), (.new, .delete 3 [[97]])]
  have hrun : (searchServer standIn (calls.foldl (Core.answered standIn)
      (sampleServer.answered standIn (.new, .delete 1 [[97]]))) (searchClient standIn .new [97]) >>=
        fun ids => .ok (decide (2 ∈ ids ∧ NoCollision standIn
          (((.new, .delete 1 [[97]]) :: calls).flatMap (Call.updateCalls standIn))))) = .ok true := by
    decide +kernel
  obtain ⟨ids, hsearch, h⟩ := exists_of_bind_ok hrun
  simp only [Except.ok.injEq, decide_eq_true_eq] at h
  obtain ⟨hfound, hn⟩ := h
  have hcalls : ∀ call ∈ calls, call.Spares 1 [97] := by
    intro call hcall
    simp only [calls, List.mem_cons, List.not_mem_nil, or_false] at hcall
    rcases hcall with rfl | rfl
    · exact ⟨by decide, by decide⟩
    · show ∀ w' ∈ [[97]], NulFree w'
      decide
  exact ⟨ids, hsearch, hfound, Core.deletion_sticks standIn sampleServer .new (List.mem_singleton.mpr rfl)
    (by decide) hcalls hn rfl hsearch⟩

end DSSE
