import DSSE.Exchange
import DSSE.Schemes.IStream

/-! `dsse-prototype.py`: the scheme with one label an id, client and server in one object. Strings are
    bytes, as in Python 2, file ids too. What `random_key` draws is an argument, `hmac.new` is the HMAC
    of a `Tomcrypt`, and `fuel` bounds the rounds of the `while True` loops. Beside the operations stand
    the HMAC computations they make. -/

namespace DSSE
open Schemes Std

/-- The object after `setup`. -/
structure Prototype where
  -- client state
  K : Bytes
  Kplus : Bytes
  Kminus : Bytes
  Dcount : ExtTreeMap Bytes ℕ compare
  -- server state
  D : Dmap
  Dplus : Dmap
  Srev : Revlist

namespace Prototype

/-- The exceptions raised, and a loop that is still running when its fuel is used up. -/
inductive Raised where
  | keyError | assertionError | valueError | hang
  deriving DecidableEq

/-- The strings that `action` is compared with; `other` is any other string. -/
inductive Action where
  | add | editPlus | del | editMinus | other
  deriving DecidableEq

/-- `{keyword: [fileid]}`. -/
abbrev Db := ExtTreeMap Bytes (List Bytes) compare

variable (tc : Tomcrypt)

/-- `_mac`. -/
def mac (k s : Bytes) : Bytes := tc.mac (k, s)

/-- `_enc`. -/
def enc (_k m : Bytes) : Bytes := m  -- XXX

/-- `_dec`. -/
def dec (_k m : Bytes) : Bytes := m  -- XXX

/-- `str(c)`. -/
def str (c : ℕ) : Bytes := IStream.decimal c

/-! ### Setup -/

/-- `db[w]`. -/
def dbAt (db : Db) (w : Bytes) : Except Raised (List Bytes) :=
  match db[w]? with
  | some ids => .ok ids
  | none => .error .keyError

/-- The tuples `(l, d)` of one token. -/
def tokenPairs (k w : Bytes) (ids : List Bytes) : List SetupPair :=
  ids.zipIdx.map fun (id, c) => ⟨mac tc (mac tc k (0x31 :: w)) (str c), enc (mac tc k (0x32 :: w)) id⟩

/-- The loop over the tokens. -/
def setupPairs (k : Bytes) (db : Db) : List Bytes → Except Raised (List SetupPair)
  | [] => .ok []
  | w :: tokens => do
    let ids ← dbAt db w
    let L ← setupPairs k db tokens
    return tokenPairs tc k w ids ++ L

/-- `L.sort()` for tuples `(l, d)`. -/
def sortPairs (L : List SetupPair) : List SetupPair :=
  L.insertionSort fun a b => ((compare a.Token b.Token).then (compare a.FileID b.FileID)).isLE

/-- `dict(L)`. -/
def dict (L : List SetupPair) : Dmap := L.foldl (fun D p => D.insert p.Token p.FileID) ∅

def setup (keys : Keys) (tokens : List Bytes) (db : Db) : Except Raised Prototype := do
  let L ← setupPairs tc keys.key db tokens
  return {
    K := keys.key
    Kplus := keys.kplus
    Kminus := keys.kminus
    Dcount := ∅
    D := dict (sortPairs L)
    Dplus := ∅
    Srev := ∅ }

/-! ### Search -/

/-- A loop of `search_server`, over `D` or over `Dplus`. -/
def searchLoop (fuel : ℕ) (Srev : Revlist) (dict : Dmap) (K1 K2 K1minus : Bytes) :
    Except Raised (List Bytes) :=
  probe (fun c => dict[mac tc K1 (str c)]?)
    (fun d => .ok (if Srev.contains (mac tc K1minus (dec K2 d)) then [] else [dec K2 d])) .hang fuel 0

def searchServer (fuel : ℕ) (s : Prototype) (k : SearchKeys) : Except Raised (List Bytes) := do
  let ids ← searchLoop tc fuel s.Srev s.D k.K1 k.K2 k.K1minus
  let added ← searchLoop tc fuel s.Srev s.Dplus k.K1plus k.K2plus k.K1minus
  return ids ++ added

/-- The keys that `search_client` passes on. -/
def searchKeys (s : Prototype) (w : Bytes) : SearchKeys where
  K1 := mac tc s.K (0x31 :: w)
  K2 := mac tc s.K (0x32 :: w)
  K1plus := mac tc s.Kplus (0x31 :: w)
  K2plus := mac tc s.Kplus (0x32 :: w)
  K1minus := mac tc s.Kminus (0x31 :: w)

def searchClient (fuel : ℕ) (s : Prototype) (w : Bytes) : Except Raised (List Bytes) :=
  searchServer tc fuel s (searchKeys tc s w)

/-! ### Updates -/

/-- `self.Dcount.get(w, 0)`. -/
def count (s : Prototype) (w : Bytes) : ℕ := s.Dcount.getD w 0

/-- The count of a word, one up. -/
def bump (s : Prototype) (w : Bytes) : Prototype :=
  { s with Dcount := s.Dcount.insert w (s.count w + 1) }

/-- `revid`. -/
def revId (s : Prototype) (id w : Bytes) : Bytes := mac tc (mac tc s.Kminus (0x31 :: w)) id

/-- The tuple `(l, d, revid)` of a word. -/
def addEntry (s : Prototype) (id w : Bytes) : AddPair where
  Token := mac tc (mac tc s.Kplus (0x31 :: w)) (str (s.count w))
  FileID := enc (mac tc s.Kplus (0x32 :: w)) id
  RevID := revId tc s id w

/-- The order of tuples `(l, d, revid)`. -/
def entryLE (a b : AddPair) : Prop :=
  ((compare a.Token b.Token).then ((compare a.FileID b.FileID).then (compare a.RevID b.RevID))).isLE

instance : DecidableRel entryLE := fun a b =>
  inferInstanceAs (Decidable
    (((compare a.Token b.Token).then ((compare a.FileID b.FileID).then (compare a.RevID b.RevID))).isLE
      = true))

/-- `L.sort()` for strings. -/
def sortStrings (L : List Bytes) : List Bytes := L.insertionSort fun a b => (compare a b).isLE

/-- `update_server` for 'add' and 'edit+'. -/
def updateServerAdd : Prototype → List AddPair → Except Raised (Prototype × List ℕ)
  | s, [] => .ok (s, [])
  | s, p :: L =>
    if s.Srev.contains p.RevID then do
      let (s, r) ← updateServerAdd { s with Srev := s.Srev.erase p.RevID } L
      return (s, 1 :: r)
    else if s.Dplus.contains p.Token then .error .assertionError
    else do
      let (s, r) ← updateServerAdd { s with Dplus := s.Dplus.insert p.Token p.FileID } L
      return (s, 0 :: r)

/-- `update_server` for 'del' and 'edit-'. -/
def updateServerDel (s : Prototype) (L : List Bytes) : Prototype :=
  { s with Srev := L.foldl (fun Srev revid => Srev.insert revid) s.Srev }

/-- The loop over `zip(r, W_in_order_of_Lrev)`. -/
def countFlags (s : Prototype) (flags : List (ℕ × Bytes)) : Prototype :=
  flags.foldl (fun s (ri, w) => if ri = 0 then s.bump w else s) s

def updateAdd (s : Prototype) (id : Bytes) (W : List Bytes) : Except Raised Prototype := do
  let L := (W.map (addEntry tc s id)).insertionSort entryLE
  let (s, r) ← updateServerAdd s L
  return countFlags s (r.zip (sortStrings W))  -- UHHHH p20

def updateDel (s : Prototype) (id : Bytes) (W : List Bytes) : Prototype :=
  updateServerDel s (sortStrings (W.map (revId tc s id)))

def updateClient (s : Prototype) (action : Action) (id : Bytes) (W : List Bytes) :
    Except Raised Prototype :=
  match action with
  | .add | .editPlus => updateAdd tc s id W
  | .del | .editMinus => .ok (updateDel tc s id W)
  | .other => .error .valueError

/-! ### Runs -/

/-- A call after `setup`. -/
inductive Call where
  | update (action : Action) (id : Bytes) (W : List Bytes)
  | search (w : Bytes)

/-- One call; a search gives the ids found. -/
def step (fuel : ℕ) (s : Prototype) : Call → Except Raised (Prototype × List (List Bytes))
  | .update action id W => (updateClient tc s action id W).map (·, [])
  | .search w => (searchClient tc fuel s w).map fun ids => (s, [ids])

/-- `setup` and then the calls, with the results of the searches. -/
def run (fuel : ℕ) (keys : Keys) (tokens : List Bytes) (db : Db) (calls : List Call) :
    Except Raised (Prototype × List (List Bytes)) := do
  let s ← setup tc keys tokens db
  runs (step tc fuel) s calls

/-! ### The HMAC computations of a run -/

def setupCalls (k : Bytes) (db : Db) : List Bytes → List MacCall
  | [] => []
  | w :: tokens =>
    (k, 0x31 :: w) :: (k, 0x32 :: w) ::
      match db[w]? with
      | none => []
      | some ids =>
        (List.range ids.length).map (fun c => (mac tc k (0x31 :: w), str c)) ++
          setupCalls k db tokens

def loopCalls (fuel : ℕ) (dict : Dmap) (K1 : Bytes) : List MacCall :=
  (probed (fun c => dict[mac tc K1 (str c)]?) fuel 0).map fun c => (K1, str c)

/-- The labels looked up, and the revocation ids of the ids met: those found if none is revoked. -/
def searchCalls (fuel : ℕ) (s : Prototype) (w : Bytes) : List MacCall :=
  [(s.K, 0x31 :: w), (s.K, 0x32 :: w), (s.Kplus, 0x31 :: w), (s.Kplus, 0x32 :: w),
      (s.Kminus, 0x31 :: w)] ++
    loopCalls tc fuel s.D (mac tc s.K (0x31 :: w)) ++
    loopCalls tc fuel s.Dplus (mac tc s.Kplus (0x31 :: w)) ++
    match searchClient tc fuel { s with Srev := ∅ } w with
    | .ok ids => ids.map fun id => (mac tc s.Kminus (0x31 :: w), id)
    | .error _ => []

def addCalls (s : Prototype) (id : Bytes) (W : List Bytes) : List MacCall :=
  W.flatMap fun w =>
    [(s.Kplus, 0x31 :: w), (s.Kplus, 0x32 :: w), (s.Kminus, 0x31 :: w),
      (mac tc s.Kplus (0x31 :: w), str (s.count w)), (mac tc s.Kminus (0x31 :: w), id)]

def delCalls (s : Prototype) (id : Bytes) (W : List Bytes) : List MacCall :=
  W.flatMap fun w => [(s.Kminus, 0x31 :: w), (mac tc s.Kminus (0x31 :: w), id)]

def calls (fuel : ℕ) (s : Prototype) : Call → List MacCall
  | .update action id W =>
    match action with
    | .add | .editPlus => addCalls tc s id W
    | .del | .editMinus => delCalls tc s id W
    | .other => []
  | .search w => searchCalls tc fuel s w

def runCalls (fuel : ℕ) (keys : Keys) (tokens : List Bytes) (db : Db) (cs : List Call) :
    List MacCall :=
  setupCalls tc keys.key db tokens ++
    match setup tc keys tokens db with
    | .ok s => runLog (step tc fuel) (calls tc fuel) s cs
    | .error _ => []

/-! ### Values derived from a word and a string

Labels and revocation ids have one shape: `_mac(_mac(key, '1' + w), x)`. -/

def derived (key w x : Bytes) : Bytes := mac tc (mac tc key (0x31 :: w)) x

def derivedCalls (key w x : Bytes) : List MacCall :=
  [(key, 0x31 :: w), (mac tc key (0x31 :: w), x)]

theorem str_inj {c c' : ℕ} (h : str c = str c') : c = c' := by
  rw [← IStream.value_decimal c, ← IStream.value_decimal c']
  exact congrArg IStream.value h

variable {tc} {log : List MacCall}

/-- Without collisions a derived value determines the word and the string. -/
theorem derived_inj (hn : NoCollision tc log) {key w w' x x' : Bytes}
    (hs : derivedCalls tc key w x ⊆ log) (hs' : derivedCalls tc key w' x' ⊆ log)
    (h : derived tc key w x = derived tc key w' x') : w = w' ∧ x = x' := by
  have houter := hn _ (hs (by simp [derivedCalls])) _ (hs' (by simp [derivedCalls])) h
  rw [Prod.mk.injEq] at houter
  have hinner := hn _ (hs List.mem_cons_self) _ (hs' List.mem_cons_self) houter.1
  simp only [Prod.mk.injEq, List.cons.injEq, true_and] at hinner
  exact ⟨hinner, houter.2⟩

end Prototype

end DSSE
