import DSSE.Exchange
import DSSE.Layouts

/-! What a search depends on. Of the server's state a search reads the version, `D`, `A` and `Dplus`; the
    revocation list only filters the ids at the end. -/

namespace DSSE
open Schemes Std

variable (tc : Tomcrypt)

theorem revoked_empty (core : Core) (K1minus : Bytes) (id : UInt64) :
    revoked tc { core with Srev := ∅ } K1minus id = false := by
  simp [revoked]

/-- A body of a search loop that reads only `A`, and the revocation list only to drop ids. -/
def Filters (entry : Core → Bytes → Bytes → Bytes → Except Halt (List UInt64)) : Prop :=
  ∀ (core core' : Core) (K2 K1minus d : Bytes), core'.A = core.A →
    entry core K2 K1minus d =
      (entry { core' with Srev := ∅ } K2 K1minus d).map (unrevoked tc core K1minus)

theorem idEntry_filters : Filters tc (idEntry tc) := by
  intro core core' K2 K1minus d _
  rw [idEntry, idEntry]
  cases decryptLong tc K2 d with
  | error e => rfl
  | ok id =>
    simp only [bind, Except.bind, revoked_empty, pure, Except.pure]
    cases hr : revoked tc core K1minus id <;> simp [Except.map, unrevoked, hr]

theorem blockIds_filters (core core' : Core) (K1minus block : Bytes) :
    blockIds tc core K1minus block =
      (blockIds tc { core' with Srev := ∅ } K1minus block).map (unrevoked tc core K1minus) := by
  rw [blockIds, blockIds]
  cases (List.range B).mapM (readWord block) with
  | error e => rfl
  | ok ids =>
    simp only [bind, Except.bind, revoked_empty, pure, Except.pure, Except.map, unrevoked,
      List.filter_filter, Except.ok.injEq]
    refine List.filter_congr fun id _ => ?_
    cases revoked tc core K1minus id <;> simp

theorem packedEntry_filters : Filters tc (packedEntry tc) := by
  intro core core' K2 K1minus d _
  rw [packedEntry, packedEntry]
  cases decryptBytes tc K2 d d.length BLOCK_SIZE with
  | error e => rfl
  | ok block => exact blockIds_filters tc core core' K1minus block

theorem followPointers_filters {core core' : Core} (hA : core'.A = core.A)
    (K2 K1minus block : Bytes) (is : List ℕ) :
    followPointers tc core K2 K1minus block is =
      (followPointers tc { core' with Srev := ∅ } K2 K1minus block is).map
        (unrevoked tc core K1minus) := by
  induction is with
  | nil => rfl
  | cons i is ih =>
    rw [followPointers, followPointers]
    cases readWord block i with
    | error e => rfl
    | ok index =>
      simp only [bind, Except.bind]
      by_cases hinv : index = INVALID
      · rw [if_pos hinv, if_pos hinv]; rfl
      · rw [if_neg hinv, if_neg hinv, ← hA]
        cases core'.A[index.toNat]? with
        | none => exact ih
        | some encrypted =>
          simp only
          cases decryptBytes tc K2 encrypted encrypted.length BLOCK_SIZE with
          | error e => rfl
          | ok fileidBlock =>
            simp only [blockIds_filters tc core core' K1minus fileidBlock, ih]
            cases blockIds tc { core' with Srev := ∅ } K1minus fileidBlock with
            | error e => rfl
            | ok ids =>
              cases followPointers tc { core' with Srev := ∅ } K2 K1minus block is with
              | error e => rfl
              | ok more => simp [Except.map, pure, Except.pure, unrevoked]

theorem pointerEntry_filters : Filters tc (pointerEntry tc) := by
  intro core core' K2 K1minus d hA
  rw [pointerEntry, pointerEntry]
  cases decryptBytes tc K2 d d.length BLOCK_SIZE with
  | error e => rfl
  | ok block => exact followPointers_filters tc hA K2 K1minus block (List.range B)

/-- The loop depends on nothing but what is under the labels that it looks up. -/
theorem labelLoop_congr {dict dict' : Dmap} {K : Bytes}
    (h : ∀ call ∈ labelCalls tc dict K, dict'[tc.mac call]? = dict[tc.mac call]?)
    (body : Bytes → Except Halt (List UInt64)) :
    labelLoop tc dict' K body = labelLoop tc dict K body :=
  probe_congr fun c hc => h (macLongCall K (UInt64.ofNat c)) (List.mem_map.mpr ⟨c, hc, rfl⟩)

theorem searchLoops_filters {entry : Core → Bytes → Bytes → Bytes → Except Halt (List UInt64)}
    (hentry : Filters tc entry) {core core' : Core} (hD : core'.D = core.D) (hA : core'.A = core.A)
    {k : SearchKeys} (hDplus : ∀ call ∈ labelCalls tc core'.Dplus k.K1plus,
      core.Dplus[tc.mac call]? = core'.Dplus[tc.mac call]?) :
    searchLoops tc entry core k = (searchLoops tc entry { core' with Srev := ∅ } k).map
      (unrevoked tc core k.K1minus) := by
  have hids : labelLoop tc core.D k.K1 (entry core k.K2 k.K1minus) =
      (labelLoop tc core'.D k.K1 (entry { core' with Srev := ∅ } k.K2 k.K1minus)).map
        (unrevoked tc core k.K1minus) := by
    rw [← hD]
    exact probe_filter (fun d => hentry core core' k.K2 k.K1minus d hA) _ _
  have hadded : labelLoop tc core.Dplus k.K1plus (idEntry tc core k.K2plus k.K1minus) =
      (labelLoop tc core'.Dplus k.K1plus
        (idEntry tc { core' with Srev := ∅ } k.K2plus k.K1minus)).map
          (unrevoked tc core k.K1minus) := by
    rw [labelLoop_congr tc hDplus]
    exact probe_filter (fun d => idEntry_filters tc core core' k.K2plus k.K1minus d hA) _ _
  rw [searchLoops, searchLoops, hids, hadded]
  simp only
  cases labelLoop tc core'.D k.K1 (entry { core' with Srev := ∅ } k.K2 k.K1minus) with
  | error e => rfl
  | ok ids =>
    simp only [Except.map, bind, Except.bind]
    cases labelLoop tc core'.Dplus k.K1plus
        (idEntry tc { core' with Srev := ∅ } k.K2plus k.K1minus) with
    | error e => rfl
    | ok added => simp [pure, Except.pure, unrevoked]

/-- A search is the search of a server without revocations that has the same index, and the same ids under
    the labels looked up, filtered. -/
theorem searchServer_frame {core : Core} (core' : Core) (hversion : core'.version = core.version)
    (hD : core'.D = core.D) (hA : core'.A = core.A) {k : SearchKeys}
    (hDplus : ∀ call ∈ labelCalls tc core'.Dplus k.K1plus,
      core.Dplus[tc.mac call]? = core'.Dplus[tc.mac call]?) :
    searchServer tc core k = (searchServer tc { core' with Srev := ∅ } k).map
      (unrevoked tc core k.K1minus) := by
  rw [searchServer, searchServer]
  simp only [hversion]
  split_ifs
  · exact searchLoops_filters tc (idEntry_filters tc) hD hA hDplus
  · exact searchLoops_filters tc (packedEntry_filters tc) hD hA hDplus
  · exact searchLoops_filters tc (pointerEntry_filters tc) hD hA hDplus
  · rfl

theorem searchServer_filters {core : Core} (core' : Core) (hversion : core'.version = core.version)
    (hD : core'.D = core.D) (hA : core'.A = core.A) (hDplus : core'.Dplus = core.Dplus)
    (k : SearchKeys) :
    searchServer tc core k = (searchServer tc { core' with Srev := ∅ } k).map
      (unrevoked tc core k.K1minus) :=
  searchServer_frame tc core' hversion hD hA fun _ _ => by rw [hDplus]

/-- Servers that agree on what a search reads give the same results. -/
theorem searchServer_congr {core core' : Core} (hversion : core'.version = core.version)
    (hD : core'.D = core.D) (hA : core'.A = core.A) (hDplus : core'.Dplus = core.Dplus)
    (hSrev : core'.Srev = core.Srev) (k : SearchKeys) :
    searchServer tc core' k = searchServer tc core k := by
  have hrev : unrevoked tc core' k.K1minus = unrevoked tc core k.K1minus := by
    funext ids
    rw [unrevoked, unrevoked]
    simp only [revoked, hSrev]
  rw [searchServer_filters tc core' hversion hD hA hDplus k,
    searchServer_filters tc core' rfl rfl rfl rfl k, hrev]

end DSSE
