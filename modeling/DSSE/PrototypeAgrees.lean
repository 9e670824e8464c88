import DSSE.PrototypeRuns
import DSSE.Simulation

/-! The prototype beside the C++ code with the Basic layout. Both keep the same plain index, up to the
    names of the files, so the same operations give the same ids. The prototype does so as long as its
    adds are aligned: a run in which one is not loses an id or fails the assertion. -/

namespace DSSE
open Schemes Std

namespace Prototype

/-- A call of the prototype and the exchange that does the same; `name` gives the prototype's id of a
    file. -/
inductive Same (name : UInt64 ↪ Bytes) : Call → Op → Prop
  | add (stack : Stack) (id : UInt64) (W : List Bytes) :
    Same name (.update .add (name id) W) (.add stack id W)
  | editPlus (stack : Stack) (id : UInt64) (W : List Bytes) :
    Same name (.update .editPlus (name id) W) (.add stack id W)
  | del (id : UInt64) (W : List Bytes) : Same name (.update .del (name id) W) (.delete id W)
  | editMinus (id : UInt64) (W : List Bytes) : Same name (.update .editMinus (name id) W) (.delete id W)
  | search (w : Bytes) : Same name (.search w) (.search w)

/-- The posting lists with the prototype's ids. -/
def named (name : UInt64 ↪ Bytes) (fileids : Postings) : Db := fileids.map fun _ ids => ids.map name

variable {name : UInt64 ↪ Bytes} {fuel : ℕ}

theorem Same.plainCall {call : Call} {op : Op} (h : Same name call op)
    (ix : PlainIndex Bytes UInt64) :
    Prototype.plainCall (ix.map name) call = (plainStep ix op).map name := by
  cases h with
  | add stack id W => exact (PlainIndex.map_add name id W ix).symm
  | editPlus stack id W => exact (PlainIndex.map_add name id W ix).symm
  | del id W => exact (PlainIndex.map_delete name ix id W).symm
  | editMinus id W => exact (PlainIndex.map_delete name ix id W).symm
  | search w => rfl

theorem Same.plainFound {call : Call} {op : Op} (h : Same name call op)
    (ix : PlainIndex Bytes UInt64) :
    Prototype.plainFound (ix.map name) call = (plainOut ix op).map (List.map name) := by
  cases h with
  | search w => simp only [Prototype.plainFound, plainOut, PlainIndex.map_search, List.map_cons, List.map_nil]
  | _ => rfl

theorem Same.plain {call : Call} {op : Op} (h : Same name call op) (hrepeat : op.NoRepeat) :
    call.Plain := by
  cases h with
  | add => exact hrepeat
  | editPlus => exact hrepeat
  | _ => trivial

theorem plain_same {cs : List Call} {ops : List Op} (h : List.Forall₂ (Same name) cs ops)
    (hrepeat : ∀ op ∈ ops, op.NoRepeat) : ∀ call ∈ cs, call.Plain := by
  induction h with
  | nil => exact fun _ hcall => absurd hcall List.not_mem_nil
  | cons hsame _ ih =>
    rw [List.forall_mem_cons] at hrepeat ⊢
    exact ⟨hsame.plain hrepeat.1, ih hrepeat.2⟩

theorem foldl_same {cs : List Call} {ops : List Op} (h : List.Forall₂ (Same name) cs ops) :
    ∀ ix : PlainIndex Bytes UInt64,
      cs.foldl plainCall (ix.map name) = (ops.foldl plainStep ix).map name := by
  induction h with
  | nil => exact fun _ => rfl
  | cons hsame _ ih =>
    intro ix
    rw [List.foldl_cons, List.foldl_cons, hsame.plainCall, ih]

theorem absOuts_same {cs : List Call} {ops : List Op} (h : List.Forall₂ (Same name) cs ops) :
    ∀ ix : PlainIndex Bytes UInt64, absOuts plainCall plainFound (ix.map name) cs =
      (absOuts plainStep plainOut ix ops).map (List.map name) := by
  induction h with
  | nil => exact fun _ => rfl
  | cons hsame _ ih =>
    intro ix
    rw [absOuts, absOuts, hsame.plainCall, hsame.plainFound, ih, List.map_append]

/-- The plain index after both Setups. -/
theorem map_plainSetup (tokens : List Bytes) (fileids : Postings) :
    (plainSetup .Basic tokens fileids).map name =
      .ofBase (basePostings tokens (named name fileids)) := by
  refine PlainIndex.ext (funext fun w => ?_) rfl rfl
  simp only [PlainIndex.map, plainSetup, PlainIndex.ofBase, Version.readable, DSSE.basePostings,
    basePostings]
  split
  · rw [ExtTreeMap.getD_eq_getD_getElem?, ExtTreeMap.getD_eq_getD_getElem?, named,
      ExtTreeMap.getElem?_map]
    cases fileids[w]? <;> rfl
  · exact List.map_nil

/-- The lists of the plain index are not longer than all postings and all words added together. -/
theorem short_map (tokens : List Bytes) (fileids : Postings) (ops : List Op)
    (hfuel : postingsTotal fileids tokens + addedTotal ops < fuel) :
    Short fuel ((ops.foldl plainStep (plainSetup .Basic tokens fileids)).map name) := by
  intro w
  have hbase : ((plainSetup .Basic tokens fileids).base w).length ≤ postingsTotal fileids tokens := by
    simp only [plainSetup, PlainIndex.ofBase, Version.readable, DSSE.basePostings]
    split
    · rename_i hw
      exact List.single_le_sum (fun _ _ => Nat.zero_le _) _ (List.mem_map_of_mem hw)
    · exact Nat.zero_le _
  have hadded := length_added_le_addedTotal w ops (plainSetup .Basic tokens fileids)
  have hnone : ((plainSetup .Basic tokens fileids).added w).length = 0 := rfl
  simp only [PlainIndex.map, List.length_map, foldl_plainStep_base]
  omega

/-- Runs of the same operations, each side with keys of its own, give the same ids in every search as
    long as the prototype's adds are aligned: nothing is raised and the C++ code does not fail. -/
theorem run_agrees (tc tc' : Tomcrypt) (name : UInt64 ↪ Bytes) (keys keys' : Keys) {tokens : List Bytes}
    {fileids : Postings} {cs : List Call} {ops : List Op} {fuel : ℕ}
    (hsame : List.Forall₂ (Same name) cs ops) (hnul : ∀ t ∈ tokens, NulFree t)
    (hposted : ∀ t ∈ tokens, t ∈ fileids) (hplain : ∀ op ∈ ops, op.Plain)
    (hrepeat : ∀ op ∈ ops, op.NoRepeat) (hids : postingsTotal fileids tokens < INVALID.toNat)
    (hfit : Fits (ops.foldl plainStep (plainSetup .Basic tokens fileids)))
    (hfuel : postingsTotal fileids tokens + addedTotal ops < fuel)
    (hn : NoCollision tc
      (Pair.fresh.runCalls tc (.setup Version.Basic.toInt keys tokens fileids :: ops)))
    (hn' : NoCollision tc' (runCalls tc' fuel keys' tokens (named name fileids) cs))
    (haligned : AlignedRun tc' fuel keys' tokens (named name fileids) cs) :
    ∃ p s outs,
      Pair.fresh.run tc (.setup Version.Basic.toInt keys tokens fileids :: ops) = .ok (p, outs) ∧
      run tc' fuel keys' tokens (named name fileids) cs = .ok (s, outs.map (List.map name)) := by
  obtain ⟨p, hrun, -⟩ := Pair.setup_run (v := .Basic) rfl hn hnul hposted hids
    (admissible_of_single _ hplain (SingleAlong.of_noRepeat _ hrepeat) hfit) (List.Subset.refl _)
  have hshort : Short fuel (cs.foldl plainCall (.ofBase (basePostings tokens (named name fileids)))) := by
    rw [← map_plainSetup, foldl_same hsame]
    exact short_map tokens fileids ops hfuel
  have hdb : ∀ t ∈ tokens, t ∈ named name fileids := fun t ht => by
    rw [named, ExtTreeMap.mem_map]; exact hposted t ht
  obtain ⟨s, hs⟩ := run_plain tc' keys' hdb (plain_same hsame hrepeat) hshort haligned hn'
  refine ⟨p, s, _, hrun, ?_⟩
  rw [hs, ← map_plainSetup, absOuts_same hsame]

/-- File ids for runs on fixed inputs. -/
def sampleName : UInt64 ↪ Bytes := ⟨putu64, fun _ _ => putu64_inj⟩

/-- Keys for runs on fixed inputs, with which the label of "a" comes first or last. -/
def sampleKeysPlus (n : UInt8) : Keys :=
  ⟨List.replicate KEYLEN 1, List.replicate KEYLEN n, List.replicate KEYLEN 3⟩

/-- File 1 has the word "a" at Setup, loses it, and gets it again together with "b"; then file 2 gets
    the words `W`. -/
def sampleOpsAgain (W : List Bytes) : List Op :=
  [.delete 1 [[97]], .add (fun _ _ => 0) 1 [[97], [98]], .add (fun _ _ => 0) 2 W, .search [97]]

def sampleCallsAgain (W : List Bytes) : List Call :=
  [.update .del (sampleName 1) [[97]], .update .add (sampleName 1) [[97], [98]],
    .update .editPlus (sampleName 2) W, .search [97]]

/-- Setup with the one pair. -/
def samplePostingsOne : Postings := (∅ : Postings).insert [97] [1]

theorem same_sampleOpsAgain (W : List Bytes) :
    List.Forall₂ (Same sampleName) (sampleCallsAgain W) (sampleOpsAgain W) :=
  .cons (.del 1 _) (.cons (.add _ 1 _) (.cons (.editPlus _ 2 _) (.cons (.search _) .nil)))

/-- With the label of "a" first both find files 1 and 2. -/
theorem run_agrees_sampleOpsAgain :
    ∃ p s outs, Pair.fresh.run standIn (.setup Version.Basic.toInt sampleKeys [[97]] samplePostingsOne ::
        sampleOpsAgain [[98], [97]]) = .ok (p, outs) ∧
      run standIn 8 (sampleKeysPlus 5) [[97]] (named sampleName samplePostingsOne)
        (sampleCallsAgain [[98], [97]]) = .ok (s, outs.map (List.map sampleName)) :=
  run_agrees standIn standIn sampleName sampleKeys (sampleKeysPlus 5) (same_sampleOpsAgain _)
    (by decide) (by decide) (by decide) (by decide) (by decide)
    (fits_of_addedTotal (by decide) _) (by decide) (by decide +kernel) (by decide +kernel)
    (by decide +kernel)

/-- With the label of "b" first the client counts the new pair for "a". The C++ code goes on and finds
    files 1 and 2 under "a"; the prototype does not find file 2 under "a", and fails its assertion when
    file 2 gets "b". -/
theorem run_misaligned :
    NoCollision standIn (Pair.fresh.runCalls standIn
        (.setup Version.Basic.toInt sampleKeys [[97]] samplePostingsOne :: sampleOpsAgain [[97]])) ∧
      NoCollision standIn (runCalls standIn 8 (sampleKeysPlus 2) [[97]]
        (named sampleName samplePostingsOne) (sampleCallsAgain [[97]])) ∧
      (Pair.fresh.run standIn (.setup Version.Basic.toInt sampleKeys [[97]] samplePostingsOne ::
        sampleOpsAgain [[97]])).map Prod.snd = .ok [[1, 2]] ∧
      (run standIn 8 (sampleKeysPlus 2) [[97]] (named sampleName samplePostingsOne)
        (sampleCallsAgain [[97]])).map Prod.snd = .ok [[sampleName 1]] ∧
      NoCollision standIn (Pair.fresh.runCalls standIn
        (.setup Version.Basic.toInt sampleKeys [[97]] samplePostingsOne :: sampleOpsAgain [[98]])) ∧
      NoCollision standIn (runCalls standIn 8 (sampleKeysPlus 2) [[97]]
        (named sampleName samplePostingsOne) (sampleCallsAgain [[98]])) ∧
      (Pair.fresh.run standIn (.setup Version.Basic.toInt sampleKeys [[97]] samplePostingsOne ::
        sampleOpsAgain [[98]])).map Prod.snd = .ok [[1]] ∧
      (run standIn 8 (sampleKeysPlus 2) [[97]] (named sampleName samplePostingsOne)
        (sampleCallsAgain [[98]])).map Prod.snd = .error .assertionError := by
  decide +kernel

end Prototype

end DSSE
