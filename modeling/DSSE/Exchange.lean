import DSSE.Core
import DSSE.Schemes.Runs

/-! Complete exchanges between a client and a server `Core`: Setup, Add, Delete and Search with both
    halves done one after the other. Beside each half stands the list of the HMAC computations it
    makes; a run is free of collisions when distinct computations made in it have distinct results. -/

namespace DSSE
open Schemes Std

/-- A client and the server it talks to. -/
structure Pair where
  client : Core
  server : Core

/-- A newly constructed client and server. -/
def Pair.fresh : Pair := ⟨Core.new, Core.new⟩

/-- One exchange; what is random or uninitialised in it is part of it. -/
inductive Op where
  | setup (version : ℤ) (keys : Keys) (tokens : List Bytes) (fileids : Postings)
  | add (stack : Stack) (id : UInt64) (words : List Bytes)
  | delete (id : UInt64) (words : List Bytes)
  | search (w : Bytes)

variable (tc : Tomcrypt)

/-- SearchClient, then SearchServer. -/
def Pair.search (p : Pair) (w : Bytes) : Except Halt (List UInt64) :=
  searchServer tc p.server (searchClient tc p.client w)

/-- SetupClient, then SetupServer. -/
def Pair.setup (p : Pair) (version : ℤ) (keys : Keys) (tokens : List Bytes) (fileids : Postings) :
    Except Halt Pair := do
  let (client, L, M) ← setupClient tc version p.client keys tokens fileids
  return ⟨client, setupServer version p.server L M⟩

/-- AddClient, AddServer, AddClient2. -/
def Pair.add (p : Pair) (stack : Stack) (id : UInt64) (words : List Bytes) : Except Halt Pair := do
  let (client, L, W) := addClient tc p.client stack id words
  let (server, r) := addServer p.server L
  let client ← addClient2 client r W
  return ⟨client, server⟩

/-- DeleteClient, then DeleteServer. -/
def Pair.delete (p : Pair) (id : UInt64) (words : List Bytes) : Pair :=
  { p with server := deleteServer p.server (deleteClient tc p.client id words) }

/-- One exchange; a search gives the ids found. -/
def Pair.step (p : Pair) : Op → Except Halt (Pair × List (List UInt64))
  | .setup version keys tokens fileids => (p.setup tc version keys tokens fileids).map (·, [])
  | .add stack id words => (p.add tc stack id words).map (·, [])
  | .delete id words => .ok (p.delete tc id words, [])
  | .search w => (p.search tc w).map fun ids => (p, [ids])

/-! ### The HMAC computations of an exchange -/

/-- The computations of the loop over the tokens. -/
def indexCalls (encode : Encoder) (key : Bytes) (fileids : Postings) :
    List Bytes → List Bytes → List MacCall
  | [], _ => []
  | w :: tokens, M =>
    macKeyCall key 0x31 w :: macKeyCall key 0x32 w ::
      match fileids[w]? with
      | none => []
      | some fids =>
        let (blocks, M) := encode (macKey tc key 0x32 w) fids M
        (List.range blocks.length).map (fun c => macLongCall (macKey tc key 0x31 w) (UInt64.ofNat c))
          ++ indexCalls encode key fileids tokens M

def setupCalls (version : ℤ) (keys : Keys) (tokens : List Bytes) (fileids : Postings) :
    List MacCall :=
  if version = Version.Basic.toInt then indexCalls tc basicEncoder keys.key fileids tokens []
  else if version = Version.Packed.toInt then indexCalls tc packedEncoder keys.key fileids tokens []
  else if version = Version.Pointer.toInt then
    indexCalls tc (pointerEncoder tc) keys.key fileids tokens []
  else []

def addCalls (core : Core) (id : UInt64) (words : List Bytes) : List MacCall :=
  words.flatMap fun w =>
    [macKeyCall core.kplus 0x31 w, macKeyCall core.kplus 0x32 w, macKeyCall core.kminus 0x31 w,
      macLongCall (macKey tc core.kplus 0x31 w) (core.count w),
      macLongCall (macKey tc core.kminus 0x31 w) id]

def deleteCalls (core : Core) (id : UInt64) (words : List Bytes) : List MacCall :=
  words.flatMap fun w =>
    [macKeyCall core.kminus 0x31 w, macLongCall (macKey tc core.kminus 0x31 w) id]

def searchClientCalls (core : Core) (w : Bytes) : List MacCall :=
  [macKeyCall core.key 0x31 w, macKeyCall core.key 0x32 w, macKeyCall core.kplus 0x31 w,
    macKeyCall core.kplus 0x32 w, macKeyCall core.kminus 0x31 w]

/-- The labels that a `labelLoop` looks up. -/
def labelCalls (dict : Dmap) (K : Bytes) : List MacCall :=
  (probed (fun c => dict[macLong tc K (UInt64.ofNat c)]?) (2 ^ 64) 0).map fun c =>
    macLongCall K (UInt64.ofNat c)

/-- The labels looked up, and the revocation ids of the ids met: those found if none is revoked. -/
def searchServerCalls (core : Core) (k : SearchKeys) : List MacCall :=
  labelCalls tc core.D k.K1 ++ labelCalls tc core.Dplus k.K1plus ++
    match searchServer tc { core with Srev := ∅ } k with
    | .ok ids => ids.map (macLongCall k.K1minus)
    | .error _ => []

def Pair.searchCalls (p : Pair) (w : Bytes) : List MacCall :=
  searchClientCalls p.client w ++ searchServerCalls tc p.server (searchClient tc p.client w)

def Pair.calls (p : Pair) : Op → List MacCall
  | .setup version keys tokens fileids => setupCalls tc version keys tokens fileids
  | .add _ id words => addCalls tc p.client id words
  | .delete id words => deleteCalls tc p.client id words
  | .search w => p.searchCalls tc w

/-- A run of exchanges and the results of its searches. -/
def Pair.run (p : Pair) (ops : List Op) : Except Halt (Pair × List (List UInt64)) :=
  runs (Pair.step tc) p ops

/-- The HMAC computations of a run. -/
def Pair.runCalls (p : Pair) (ops : List Op) : List MacCall :=
  runLog (Pair.step tc) (Pair.calls tc) p ops

theorem Pair.runCalls_append {tc : Tomcrypt} {p p' : Pair} {ops : List Op}
    {outs : List (List UInt64)} (h : p.run tc ops = .ok (p', outs)) (ops' : List Op) :
    p.runCalls tc (ops ++ ops') = p.runCalls tc ops ++ p'.runCalls tc ops' := runLog_append h ops'

theorem Pair.runCalls_cons {tc : Tomcrypt} {p p' : Pair} {op : Op} {outs : List (List UInt64)}
    (h : p.step tc op = .ok (p', outs)) (ops : List Op) :
    p.runCalls tc (op :: ops) = p.calls tc op ++ p'.runCalls tc ops := by
  rw [Pair.runCalls, runLog, h]; rfl

/-- Distinct computations have distinct results. -/
def NoCollision (calls : List MacCall) : Prop :=
  ∀ a ∈ calls, ∀ b ∈ calls, tc.mac a = tc.mac b → a = b

instance (calls : List MacCall) : Decidable (NoCollision tc calls) :=
  inferInstanceAs (Decidable (∀ a ∈ calls, ∀ b ∈ calls, tc.mac a = tc.mac b → a = b))

theorem NoCollision.mono {calls calls' : List MacCall} (h : NoCollision tc calls)
    (hsub : calls' ⊆ calls) : NoCollision tc calls' :=
  fun a ha b hb => h a (hsub ha) b (hsub hb)

/-! ### Values derived from a word and a number

Labels and revocation ids have one shape: `mac_long(mac_key(key, '1', w), x)`. -/

def derived (key w : Bytes) (x : UInt64) : Bytes := macLong tc (macKey tc key 0x31 w) x

def derivedCalls (key w : Bytes) (x : UInt64) : List MacCall :=
  [macKeyCall key 0x31 w, macLongCall (macKey tc key 0x31 w) x]

@[simp] theorem length_derived (key w : Bytes) (x : UInt64) :
    (derived tc key w x).length = DIGESTLEN := length_macLong tc _ _

/-- A word that `strlen` sees whole. -/
def NulFree (w : Bytes) : Prop := (0 : UInt8) ∉ w

instance (w : Bytes) : Decidable (NulFree w) := inferInstanceAs (Decidable ((0 : UInt8) ∉ w))

theorem cstr_of_nulFree {w : Bytes} (h : NulFree w) : cstr w = w :=
  List.takeWhile_eq_self_iff.mpr fun b hb => by
    have : b ≠ 0 := fun h0 => h (h0 ▸ hb)
    simpa using this

variable {tc} {log : List MacCall}

/-- Without collisions a derived value determines the key, the word up to its first NUL and the
    number. -/
theorem derived_inj (hn : NoCollision tc log) {key key' w w' : Bytes} {x x' : UInt64}
    (hs : derivedCalls tc key w x ⊆ log) (hs' : derivedCalls tc key' w' x' ⊆ log)
    (h : derived tc key w x = derived tc key' w' x') : key = key' ∧ cstr w = cstr w' ∧ x = x' := by
  have hlong := hn _ (hs (by simp [derivedCalls])) _ (hs' (by simp [derivedCalls])) h
  simp only [macLongCall, Prod.mk.injEq] at hlong
  have hkey := hn _ (hs List.mem_cons_self) _ (hs' List.mem_cons_self) hlong.1
  simp only [macKeyCall, Prod.mk.injEq, List.cons.injEq, true_and] at hkey
  exact ⟨hkey.1, hkey.2, putu64_inj hlong.2⟩

theorem derived_inj_word (hn : NoCollision tc log) {key w w' : Bytes} {x x' : UInt64}
    (hw : NulFree w) (hw' : NulFree w') (hs : derivedCalls tc key w x ⊆ log)
    (hs' : derivedCalls tc key w' x' ⊆ log) (h : derived tc key w x = derived tc key w' x') :
    w = w' ∧ x = x' := by
  obtain ⟨-, hc, hx⟩ := derived_inj hn hs hs' h
  rw [cstr_of_nulFree hw, cstr_of_nulFree hw'] at hc
  exact ⟨hc, hx⟩

end DSSE
