import DSSE.Refinement

/-! Whole runs. After a Setup on a fresh pair, every run of Add, Delete and Search exchanges moves the
    plain index along and its searches give the plain results. The layout of the index only shows in how
    a posting list is cut, so the three versions give the same results. -/

namespace DSSE
open Schemes Std

variable (tc : Tomcrypt)

/-- The posting list of a word as Setup is given it: that of a token. -/
def basePostings (tokens : List Bytes) (fileids : Postings) (w : Bytes) : List UInt64 :=
  if w ∈ tokens then fileids.getD w [] else []

/-- The plain index that a Setup of version `v` makes. -/
def plainSetup (v : Version) (tokens : List Bytes) (fileids : Postings) : PlainIndex Bytes UInt64 :=
  .ofBase fun w => v.readable (basePostings tokens fileids w)

/-- One exchange after Setup, in the clear. -/
def plainStep (ix : PlainIndex Bytes UInt64) : Op → PlainIndex Bytes UInt64
  | .setup .. => ix
  | .add _ id words => ix.add id words
  | .delete id words => ix.delete id words
  | .search _ => ix

def plainOut (ix : PlainIndex Bytes UInt64) : Op → List (List UInt64)
  | .search w => [ix.search w]
  | _ => []

/-- An exchange after Setup, with words that `strlen` sees whole. -/
def Op.Plain : Op → Prop
  | .setup .. => False
  | .add _ _ words => ∀ w ∈ words, NulFree w
  | .delete _ words => ∀ w ∈ words, NulFree w
  | .search w => NulFree w

/-- No word comes twice in an Add. -/
def Op.NoRepeat : Op → Prop
  | .add _ _ words => words.Nodup
  | _ => True

/-- No word is appended twice by an Add. -/
def Op.Single (ix : PlainIndex Bytes UInt64) : Op → Prop
  | .add _ id words => ix.Single id words
  | _ => True

/-- No Add of the run appends a word twice. -/
def SingleAlong : PlainIndex Bytes UInt64 → List Op → Prop
  | _, [] => True
  | ix, op :: ops => op.Single ix ∧ SingleAlong (plainStep ix op) ops

instance (ix : PlainIndex Bytes UInt64) : DecidablePred (Op.Single ix)
  | .setup .. => inferInstanceAs (Decidable True)
  | .add _ id words => inferInstanceAs (Decidable (ix.Single id words))
  | .delete .. => inferInstanceAs (Decidable True)
  | .search _ => inferInstanceAs (Decidable True)

instance decidableSingleAlong : ∀ (ix : PlainIndex Bytes UInt64) (ops : List Op),
    Decidable (SingleAlong ix ops)
  | _, [] => isTrue trivial
  | ix, op :: ops =>
    haveI := decidableSingleAlong (plainStep ix op) ops
    inferInstanceAs (Decidable (op.Single ix ∧ SingleAlong (plainStep ix op) ops))

instance : DecidablePred Op.Plain
  | .setup .. => inferInstanceAs (Decidable False)
  | .add _ _ words => inferInstanceAs (Decidable (∀ w ∈ words, NulFree w))
  | .delete _ words => inferInstanceAs (Decidable (∀ w ∈ words, NulFree w))
  | .search w => inferInstanceAs (Decidable (NulFree w))

instance : DecidablePred Op.NoRepeat
  | .setup .. => inferInstanceAs (Decidable True)
  | .add _ _ words => inferInstanceAs (Decidable words.Nodup)
  | .delete .. => inferInstanceAs (Decidable True)
  | .search _ => inferInstanceAs (Decidable True)

theorem Op.NoRepeat.single {op : Op} (h : op.NoRepeat) (ix : PlainIndex Bytes UInt64) :
    op.Single ix := by
  cases op with
  | add stack id words => exact PlainIndex.Single.of_nodup h ix id
  | setup => trivial
  | delete => trivial
  | search => trivial

theorem SingleAlong.of_noRepeat : ∀ {ops : List Op} (ix : PlainIndex Bytes UInt64),
    (∀ op ∈ ops, op.NoRepeat) → SingleAlong ix ops
  | [], _, _ => trivial
  | op :: _, ix, h =>
    ⟨(h op List.mem_cons_self).single ix,
      SingleAlong.of_noRepeat (plainStep ix op) fun op' hop' => h op' (List.mem_cons_of_mem _ hop')⟩

theorem SingleAlong.single : ∀ (pre : List Op) {op : Op} {post : List Op}
    {ix : PlainIndex Bytes UInt64}, SingleAlong ix (pre ++ op :: post) →
    op.Single (pre.foldl plainStep ix)
  | [], _, _, _, h => h.1
  | _ :: pre, _, _, _, h => SingleAlong.single pre h.2

/-- What a step of a run needs. -/
structure Admissible (ix : PlainIndex Bytes UInt64) (op : Op) : Prop where
  plain : op.Plain
  single : op.Single ix
  fits : Fits (plainStep ix op)

/-- No exchange after Setup changes what Setup made. -/
theorem foldl_plainStep_base : ∀ (ops : List Op) (ix : PlainIndex Bytes UInt64),
    (ops.foldl plainStep ix).base = ix.base
  | [], _ => rfl
  | op :: ops, ix => by
    rw [List.foldl_cons, foldl_plainStep_base ops]
    cases op with
    | add stack id words => exact PlainIndex.add_base id words ix
    | setup => rfl
    | delete => rfl
    | search => rfl

/-! ### Counters that fit -/

theorem length_added_plainStep_le (ix : PlainIndex Bytes UInt64) (op : Op) (w : Bytes) :
    (ix.added w).length ≤ ((plainStep ix op).added w).length := by
  cases op with
  | add stack id words => exact PlainIndex.length_added_add_le id words ix w
  | setup => exact le_rfl
  | delete => exact le_rfl
  | search => exact le_rfl

theorem length_added_foldl_le (w : Bytes) : ∀ (ops : List Op) (ix : PlainIndex Bytes UInt64),
    (ix.added w).length ≤ ((ops.foldl plainStep ix).added w).length
  | [], _ => le_rfl
  | op :: ops, ix =>
    (length_added_plainStep_le ix op w).trans (length_added_foldl_le w ops (plainStep ix op))

/-- If the counters fit at the end of a run they fit all along. -/
theorem Fits.of_foldl {ops : List Op} {ix : PlainIndex Bytes UInt64}
    (h : Fits (ops.foldl plainStep ix)) : Fits ix :=
  fun w => (length_added_foldl_le w ops ix).trans_lt (h w)

/-- How many words the Adds of a run have together. -/
def addedTotal : List Op → ℕ
  | [] => 0
  | .add _ _ words :: ops => words.length + addedTotal ops
  | _ :: ops => addedTotal ops

theorem length_added_add_le_add (id : UInt64) (w : Bytes) : ∀ (words : List Bytes)
    (ix : PlainIndex Bytes UInt64),
    ((ix.add id words).added w).length ≤ (ix.added w).length + words.length
  | [], _ => le_rfl
  | u :: words, ix => by
    have ih := length_added_add_le_add id w words (ix.addWord id u)
    have hstep : ((ix.addWord id u).added w).length ≤ (ix.added w).length + 1 := by
      rw [PlainIndex.addWord_added]
      split
      · simp
      · exact Nat.le_succ _
    rw [PlainIndex.add_cons, List.length_cons]
    omega

theorem length_added_le_addedTotal (w : Bytes) : ∀ (ops : List Op) (ix : PlainIndex Bytes UInt64),
    ((ops.foldl plainStep ix).added w).length ≤ (ix.added w).length + addedTotal ops
  | [], _ => le_rfl
  | op :: ops, ix => by
    have ih := length_added_le_addedTotal w ops (plainStep ix op)
    rw [List.foldl_cons]
    cases op with
    | add stack id words =>
      have := length_added_add_le_add id w words ix
      simp only [plainStep, addedTotal] at ih ⊢
      omega
    | setup => exact ih
    | delete => exact ih
    | search => exact ih

/-- The counters fit in every run with fewer than `2^64` words in its Adds. -/
theorem fits_of_addedTotal {ops : List Op} (h : addedTotal ops < 2 ^ 64) (base : Bytes → List UInt64) :
    Fits (ops.foldl plainStep (.ofBase base)) := by
  intro w
  have := length_added_le_addedTotal w ops (.ofBase base)
  simp only [PlainIndex.ofBase, List.length_nil] at this ⊢
  omega

/-- The steps of a run are admissible if no Add appends a word twice and the counters fit at the
    end. -/
theorem admissible_of_single {ops : List Op} (ix : PlainIndex Bytes UInt64)
    (hplain : ∀ op ∈ ops, op.Plain)
    (hsingle : SingleAlong ix ops) (hfit : Fits (ops.foldl plainStep ix)) (pre : List Op) (op : Op) (post : List Op)
    (h : ops = pre ++ op :: post) : Admissible (pre.foldl plainStep ix) op := by
  refine ⟨hplain op (by rw [h]; simp), SingleAlong.single pre (h ▸ hsingle), ?_⟩
  rw [h, List.foldl_append, List.foldl_cons] at hfit
  exact hfit.of_foldl

variable {tc} {log : List MacCall} {lay : Layout} {v : Version} {p : Pair}
  {ix : PlainIndex Bytes UInt64}

/-! ### Runs -/

/-- Every admissible exchange is matched by its step in the clear. -/
theorem Refines.step (hlay : v.layout? tc = some lay) (hn : NoCollision tc log)
    (hR : Refines tc log v lay p ix) {op : Op} (hop : Admissible ix op) (hlog : p.calls tc op ⊆ log) :
    Matches (Pair.step tc) plainStep plainOut (Refines tc log v lay) p ix op := by
  cases op with
  | setup => exact hop.plain.elim
  | add stack id words =>
    obtain ⟨p', hadd, hR'⟩ := hR.add hn stack hop.plain hop.single hop.fits hlog
    exact ⟨p', by rw [Pair.step, hadd]; rfl, hR'⟩
  | delete id words => exact ⟨_, rfl, hR.delete hop.plain hlog⟩
  | search w =>
    refine ⟨p, ?_, hR⟩
    rw [Pair.step, hR.search hlay hn hop.plain hlog]
    rfl

theorem Refines.run (hlay : v.layout? tc = some lay) (hn : NoCollision tc log)
    (hR : Refines tc log v lay p ix) {ops : List Op}
    (hops : ∀ pre op post, ops = pre ++ op :: post → Admissible (pre.foldl plainStep ix) op)
    (hlog : p.runCalls tc ops ⊆ log) :
    ∃ p', p.run tc ops = .ok (p', absOuts plainStep plainOut ix ops) ∧
      Refines tc log v lay p' (ops.foldl plainStep ix) :=
  runs_matched (fun _ _ _ hR hop hcalls => hR.step hlay hn hop hcalls) ops p ix hR hops hlog

theorem Built.mono {key : Bytes} {fileids : Postings} {tokens : List Bytes} {D : Dmap}
    {A : List Bytes} {entries : List (Bytes × List Bytes)} {log' : List MacCall}
    (hb : Built tc lay log key fileids tokens D A entries) (hsub : log ⊆ log') :
    Built tc lay log' key fileids tokens D A entries :=
  { hb with logged := fun e he c hc => List.Subset.trans (hb.logged e he c hc) hsub }

/-- A Setup on a fresh pair starts the refinement. -/
theorem Refines.setup (hlay : v.layout? tc = some lay) (hn : NoCollision tc log) {keys : Keys}
    {tokens : List Bytes} {fileids : Postings} (hnul : ∀ t ∈ tokens, NulFree t)
    (hposted : ∀ t ∈ tokens, t ∈ fileids) (hids : postingsTotal fileids tokens < INVALID.toNat)
    (hlog : setupCalls tc v.toInt keys tokens fileids ⊆ log) :
    ∃ p', Pair.fresh.setup tc v.toInt keys tokens fileids = .ok p' ∧
      Refines tc log v lay p' (plainSetup v tokens fileids) := by
  obtain ⟨p', hp'⟩ := (Pair.setup_ok hlay Pair.fresh keys tokens fileids).mpr hposted
  obtain ⟨hkeys, hkeeps⟩ : p'.client.keys = keys ∧ Keeps tc log p' (plainSetup v tokens fileids) :=
    Keeps.setup hp' _
  obtain ⟨hver, entries, hbuilt⟩ := Pair.setup_built hlay hp' hids
  have hkey : p'.client.key = keys.key := congrArg Keys.key hkeys
  refine ⟨p', hp', hkeeps, hver, fun w hw => ?_⟩
  rw [hkey]
  refine ⟨_, (hbuilt.mono hlog).meets_word (layout_right tc hlay) hn hids hnul hw, ?_⟩
  simp only [plainSetup, PlainIndex.ofBase, basePostings]
  by_cases hmem : w ∈ tokens
  · simp only [if_pos hmem]
    exact flatten_outs tc hlay _
  · simp only [if_neg hmem]
    cases v <;> rfl

/-- A Setup on a fresh pair and then a run: it does not fail, its searches give the plain results, and
    the refinement holds at its end. -/
theorem Pair.setup_run (hlay : v.layout? tc = some lay) (hn : NoCollision tc log) {keys : Keys}
    {tokens : List Bytes} {fileids : Postings} {ops : List Op} (hnul : ∀ t ∈ tokens, NulFree t)
    (hposted : ∀ t ∈ tokens, t ∈ fileids) (hids : postingsTotal fileids tokens < INVALID.toNat)
    (hops : ∀ pre op post, ops = pre ++ op :: post →
      Admissible (pre.foldl plainStep (plainSetup v tokens fileids)) op)
    (hlog : Pair.fresh.runCalls tc (.setup v.toInt keys tokens fileids :: ops) ⊆ log) :
    ∃ p, Pair.fresh.run tc (.setup v.toInt keys tokens fileids :: ops) =
        .ok (p, absOuts plainStep plainOut (plainSetup v tokens fileids) ops) ∧
      Refines tc log v lay p (ops.foldl plainStep (plainSetup v tokens fileids)) := by
  obtain ⟨p₁, hsetup, hR⟩ := Refines.setup hlay hn hnul hposted hids
    (fun c hc => hlog (by rw [Pair.runCalls, runLog]; exact List.mem_append_left _ hc))
  have hstep : Pair.fresh.step tc (.setup v.toInt keys tokens fileids) = .ok (p₁, []) := by
    rw [Pair.step, hsetup]; rfl
  have hrest : p₁.runCalls tc ops ⊆ log := fun c hc =>
    hlog (by rw [Pair.runCalls, runLog, hstep]; exact List.mem_append_right _ hc)
  obtain ⟨p, hrun, hR'⟩ := hR.run hlay hn hops hrest
  refine ⟨p, ?_, hR'⟩
  rw [Pair.run, runs_cons hstep]
  rw [Pair.run] at hrun
  rw [hrun]
  rfl

/-- With the Basic layout every run after a Setup simulates the plain index: it goes through, its
    searches give the plain results, and so does a search of any word after it. -/
theorem Pair.search_after_run (tc : Tomcrypt) (keys : Keys) {tokens : List Bytes}
    {fileids : Postings} {ops : List Op} {w : Bytes} (hnul : ∀ t ∈ tokens, NulFree t)
    (hposted : ∀ t ∈ tokens, t ∈ fileids) (hplain : ∀ op ∈ ops, op.Plain)
    (hrepeat : ∀ op ∈ ops, op.NoRepeat) (hw : NulFree w)
    (hids : postingsTotal fileids tokens < INVALID.toNat)
    (hfit : Fits (ops.foldl plainStep (plainSetup .Basic tokens fileids)))
    (hn : NoCollision tc (Pair.fresh.runCalls tc
      (.setup Version.Basic.toInt keys tokens fileids :: ops ++ [.search w]))) :
    ∃ p, Pair.fresh.run tc (.setup Version.Basic.toInt keys tokens fileids :: ops) =
        .ok (p, absOuts plainStep plainOut (plainSetup .Basic tokens fileids) ops) ∧
      p.search tc w = .ok ((ops.foldl plainStep (plainSetup .Basic tokens fileids)).search w) := by
  have hlay : Version.Basic.layout? tc = some (basicLayout tc) := rfl
  have hops := admissible_of_single (plainSetup .Basic tokens fileids) hplain
    (SingleAlong.of_noRepeat _ hrepeat) hfit
  have hsub : Pair.fresh.runCalls tc (.setup Version.Basic.toInt keys tokens fileids :: ops) ⊆
      Pair.fresh.runCalls tc
        (.setup Version.Basic.toInt keys tokens fileids :: ops ++ [.search w]) :=
    runLog_subset_append _ _
  obtain ⟨p, hrun, hR⟩ := Pair.setup_run hlay hn hnul hposted hids hops hsub
  refine ⟨p, hrun, hR.search hlay hn hw fun c hc => ?_⟩
  rw [Pair.runCalls, runLog_append hrun]
  refine List.mem_append_right _ ?_
  rw [runLog]
  exact List.mem_append_left _ hc

/-- Keys for runs on fixed inputs. -/
def sampleKeys : Keys := ⟨List.replicate KEYLEN 1, List.replicate KEYLEN 2, List.replicate KEYLEN 3⟩

/-- Postings for runs on fixed inputs: seven files with the word "a", one with the word "b". -/
def samplePostings : Postings :=
  ((∅ : Postings).insert [97] [1, 2, 3, 4, 5, 6, 7]).insert [98] [2]

/-- A run on fixed inputs: file 8 gets both words, and three pairs are revoked, one for a while. -/
def sampleOps : List Op :=
  [.add (fun _ _ => 0) 8 [[98], [97]], .delete 1 [[97], [98]], .search [97], .delete 8 [[98]],
    .add (fun _ _ => 0) 8 [[98]]]

theorem Pair.search_after_sampleOps :
    ∃ p, Pair.fresh.run standIn
        (.setup Version.Basic.toInt sampleKeys [[97], [98]] samplePostings :: sampleOps) =
        .ok (p, [[2, 3, 4, 5, 6, 7, 8]]) ∧ p.search standIn [98] = .ok [2, 8] :=
  Pair.search_after_run standIn sampleKeys (by decide) (by decide) (by decide) (by decide)
    (by decide) (by decide) (fits_of_addedTotal (by decide) _) (by decide +kernel)

/-! ### The layouts compared -/

/-- An exchange up to what its sender's stack happened to hold. -/
def Op.erase : Op → Op
  | .add _ id words => .add (fun _ _ => 0) id words
  | op => op

@[simp] theorem plainStep_erase (ix : PlainIndex Bytes UInt64) (op : Op) :
    plainStep ix op.erase = plainStep ix op := by cases op <;> rfl

@[simp] theorem plainOut_erase (ix : PlainIndex Bytes UInt64) (op : Op) :
    plainOut ix op.erase = plainOut ix op := by cases op <;> rfl

theorem Op.plain_erase (op : Op) : op.erase.Plain ↔ op.Plain := by cases op <;> rfl

theorem Op.noRepeat_erase (op : Op) : op.erase.NoRepeat ↔ op.NoRepeat := by cases op <;> rfl

theorem absOuts_erase : ∀ (ops : List Op) (ix : PlainIndex Bytes UInt64),
    absOuts plainStep plainOut ix (ops.map Op.erase) = absOuts plainStep plainOut ix ops
  | [], _ => rfl
  | op :: ops, ix => by
    rw [List.map_cons, absOuts, absOuts, plainStep_erase, plainOut_erase, absOuts_erase ops]

theorem foldl_plainStep_erase (ops : List Op) (ix : PlainIndex Bytes UInt64) :
    (ops.map Op.erase).foldl plainStep ix = ops.foldl plainStep ix := by
  rw [List.foldl_map]
  simp only [plainStep_erase]

/-- What is said of every exchange of a run up to stacks holds of the same exchanges with other
    stacks. -/
theorem forall_of_erase {P : Op → Prop} (hP : ∀ op, P op.erase ↔ P op) {ops ops' : List Op}
    (hsame : ops'.map Op.erase = ops.map Op.erase) (h : ∀ op ∈ ops, P op) : ∀ op ∈ ops', P op := by
  intro op hop
  have hmem : op.erase ∈ ops.map Op.erase := hsame ▸ List.mem_map_of_mem hop
  obtain ⟨op', hop', he⟩ := List.mem_map.mp hmem
  rw [← hP, ← he, hP]
  exact h op' hop'

/-- A server set up with the Packed or the Pointer layout gives the results that one set up with the
    Basic layout gives, each run with keys and stacks of its own. -/
theorem Pair.layouts_agree (tc : Tomcrypt) {v : Version} (hv : v = .Packed ∨ v = .Pointer)
    (keys keys' : Keys) {tokens : List Bytes} {fileids : Postings} {ops ops' : List Op}
    (hsame : ops'.map Op.erase = ops.map Op.erase) (hnul : ∀ t ∈ tokens, NulFree t)
    (hvalid : ∀ t ∈ tokens, INVALID ∉ fileids.getD t []) (hplain : ∀ op ∈ ops, op.Plain)
    (hrepeat : ∀ op ∈ ops, op.NoRepeat) (hids : postingsTotal fileids tokens < INVALID.toNat)
    (hfit : Fits (ops.foldl plainStep (plainSetup .Basic tokens fileids)))
    (hn : NoCollision tc
      (Pair.fresh.runCalls tc (.setup Version.Basic.toInt keys tokens fileids :: ops)))
    (hn' : NoCollision tc (Pair.fresh.runCalls tc (.setup v.toInt keys' tokens fileids :: ops'))) :
    (Pair.fresh.run tc (.setup v.toInt keys' tokens fileids :: ops')).map Prod.snd =
        (Pair.fresh.run tc (.setup Version.Basic.toInt keys tokens fileids :: ops)).map Prod.snd ∧
      ((∀ t ∈ tokens, t ∈ fileids) → ∃ p outs,
        Pair.fresh.run tc (.setup Version.Basic.toInt keys tokens fileids :: ops) = .ok (p, outs)) := by
  have hlay : Version.Basic.layout? tc = some (basicLayout tc) := rfl
  obtain ⟨lay', hlay'⟩ : ∃ lay', v.layout? tc = some lay' := by
    rcases hv with rfl | rfl
    · exact ⟨_, rfl⟩
    · exact ⟨_, rfl⟩
  have hbase : plainSetup v tokens fileids = plainSetup .Basic tokens fileids := by
    refine congrArg PlainIndex.ofBase (funext fun w => readable_eq v ?_)
    rw [basePostings]
    split
    · rename_i hmem; exact hvalid w hmem
    · exact List.not_mem_nil
  have hops := admissible_of_single (plainSetup .Basic tokens fileids) hplain
    (SingleAlong.of_noRepeat _ hrepeat) hfit
  have hfit' : Fits (ops'.foldl plainStep (plainSetup .Basic tokens fileids)) := by
    rwa [← foldl_plainStep_erase, hsame, foldl_plainStep_erase]
  have hrepeat' := forall_of_erase Op.noRepeat_erase hsame hrepeat
  have hops' := admissible_of_single (plainSetup .Basic tokens fileids)
    (forall_of_erase Op.plain_erase hsame hplain)
    (SingleAlong.of_noRepeat _ hrepeat') hfit'
  have houts : absOuts plainStep plainOut (plainSetup .Basic tokens fileids) ops' =
      absOuts plainStep plainOut (plainSetup .Basic tokens fileids) ops := by
    rw [← absOuts_erase ops', hsame, absOuts_erase]
  by_cases hposted : ∀ t ∈ tokens, t ∈ fileids
  · obtain ⟨p, hrun, -⟩ := Pair.setup_run hlay hn hnul hposted hids hops (List.Subset.refl _)
    obtain ⟨p', hrun', -⟩ := Pair.setup_run hlay' hn' hnul hposted hids
      (by rw [hbase]; exact hops') (List.Subset.refl _)
    rw [hrun, hrun', hbase]
    exact ⟨congrArg Except.ok houts, fun _ => ⟨p, _, rfl⟩⟩
  · refine ⟨?_, fun h => absurd h hposted⟩
    simp only [Pair.run, runs, Pair.step, Pair.setup_throws hlay' Pair.fresh keys' hposted,
      Pair.setup_throws hlay Pair.fresh keys hposted]
    rfl

theorem Pair.layouts_agree_sampleOps :
    (Pair.fresh.run standIn (.setup Version.Pointer.toInt ⟨[1], [2], [3]⟩ [[97], [98]] samplePostings
        :: sampleOps)).map Prod.snd =
      (Pair.fresh.run standIn (.setup Version.Basic.toInt sampleKeys [[97], [98]] samplePostings
        :: sampleOps)).map Prod.snd :=
  (Pair.layouts_agree standIn (Or.inr rfl) sampleKeys ⟨[1], [2], [3]⟩ rfl (by decide) (by decide)
    (by decide) (by decide) (by decide) (fits_of_addedTotal (by decide) _) (by decide +kernel)
    (by decide +kernel)).1

end DSSE
