import Mathlib

/-! Runs of a machine whose steps may fail and give outputs: `runs step s as` does the actions `as`
    one after the other and collects the outputs. `runLog` collects what each step of the run uses,
    up to the step that fails. A simulation of single steps gives a simulation of whole runs. -/

namespace Schemes

universe u

variable {S T A O C ε : Type*}

/-- A sequence of two computations that succeeds is two that succeed. -/
theorem exists_of_bind_ok {U : Type u} {V : Type u} {x : Except ε U} {f : U → Except ε V} {b : V} (h : x >>= f = .ok b) :
    ∃ a, x = .ok a ∧ f a = .ok b := by
  cases x with
  | error e => cases h
  | ok a => exact ⟨a, rfl, h⟩

theorem exists_of_map_ok {U : Type u} {V : Type u} {x : Except ε U} {f : U → V} {b : V}
    (h : x.map f = .ok b) : ∃ a, x = .ok a ∧ f a = b := by
  cases x with
  | error e => cases h
  | ok a => cases h; exact ⟨a, rfl, rfl⟩

/-- Do the actions in order and collect their outputs; the first failure ends the run. -/
def runs (step : S → A → Except ε (S × List O)) : S → List A → Except ε (S × List O)
  | s, [] => .ok (s, [])
  | s, a :: as => do
    let (s', out) ← step s a
    let (s'', outs) ← runs step s' as
    return (s'', out ++ outs)

/-- What the steps of a run use, in order. -/
def runLog (step : S → A → Except ε (S × List O)) (uses : S → A → List C) : S → List A → List C
  | _, [] => []
  | s, a :: as =>
    uses s a ++ match step s a with
      | .ok (s', _) => runLog step uses s' as
      | .error _ => []

variable {step : S → A → Except ε (S × List O)} {uses : S → A → List C}

theorem runs_cons {s s' : S} {a : A} {out : List O} (h : step s a = .ok (s', out)) (as : List A) :
    runs step s (a :: as) = (runs step s' as).map fun r => (r.1, out ++ r.2) := by
  rw [runs, h]
  cases hr : runs step s' as with
  | error e => simp [bind, Except.bind, hr, Except.map]
  | ok r => simp [bind, Except.bind, hr, Except.map, pure, Except.pure]

/-- The outputs of a run, after its first step. -/
theorem runs_cons_outs {s s' : S} {a : A} {out : List O} (h : step s a = .ok (s', out)) (as : List A) :
    (runs step s (a :: as)).map Prod.snd = ((runs step s' as).map Prod.snd).map (out ++ ·) := by
  rw [runs_cons h]
  cases runs step s' as <;> rfl

theorem runs_append {s s' : S} {as : List A} {outs : List O} (h : runs step s as = .ok (s', outs))
    (bs : List A) :
    runs step s (as ++ bs) = (runs step s' bs).map fun r => (r.1, outs ++ r.2) := by
  induction as generalizing s outs with
  | nil =>
    simp only [runs, Except.ok.injEq, Prod.mk.injEq] at h
    obtain ⟨rfl, rfl⟩ := h
    rw [List.nil_append]
    cases runs step s bs <;> simp [Except.map]
  | cons a as ih =>
    cases hs : step s a with
    | error e => simp [runs, hs, bind, Except.bind] at h
    | ok r =>
      obtain ⟨s₁, out⟩ := r
      rw [runs_cons hs] at h
      cases hr : runs step s₁ as with
      | error e => rw [hr] at h; simp [Except.map] at h
      | ok q =>
        rw [hr] at h
        simp only [Except.map, Except.ok.injEq, Prod.mk.injEq] at h
        obtain ⟨h1, rfl⟩ := h
        have hq : runs step s₁ as = .ok (s', q.2) := by rw [hr, ← h1]
        rw [List.cons_append, runs_cons hs, ih hq]
        cases runs step s' bs <;> simp [Except.map]

/-- A step that is matched by an abstract step which never fails. -/
def Matches (step : S → A → Except ε (S × List O)) (astep : T → A → T) (aout : T → A → List O)
    (R : S → T → Prop) (s : S) (t : T) (a : A) : Prop :=
  ∃ s', step s a = .ok (s', aout t a) ∧ R s' (astep t a)

/-- The outputs of an abstract run. -/
def absOuts (astep : T → A → T) (aout : T → A → List O) : T → List A → List O
  | _, [] => []
  | t, a :: as => aout t a ++ absOuts astep aout (astep t a) as

theorem runLog_append {s s' : S} {as : List A} {outs : List O}
    (h : runs step s as = .ok (s', outs)) (bs : List A) :
    runLog step uses s (as ++ bs) = runLog step uses s as ++ runLog step uses s' bs := by
  induction as generalizing s outs with
  | nil =>
    simp only [runs, Except.ok.injEq, Prod.mk.injEq] at h
    obtain ⟨rfl, -⟩ := h
    rfl
  | cons a as ih =>
    cases hs : step s a with
    | error e => simp [runs, hs, bind, Except.bind] at h
    | ok r =>
      obtain ⟨s₁, out⟩ := r
      rw [runs_cons hs] at h
      cases hr : runs step s₁ as with
      | error e => rw [hr] at h; simp [Except.map] at h
      | ok q =>
        rw [hr] at h
        simp only [Except.map, Except.ok.injEq, Prod.mk.injEq] at h
        obtain ⟨h1, -⟩ := h
        have hq : runs step s₁ as = .ok (s', q.2) := by rw [hr, ← h1]
        rw [List.cons_append, runLog, runLog, hs]
        simp only [ih hq, List.append_assoc]

/-- A longer run uses what the shorter one uses. -/
theorem runLog_subset_append (as bs : List A) {s : S} :
    runLog step uses s as ⊆ runLog step uses s (as ++ bs) := by
  induction as generalizing s with
  | nil => exact List.nil_subset _
  | cons a as ih =>
    rw [List.cons_append, runLog, runLog]
    cases step s a with
    | error e => exact List.Subset.refl _
    | ok r =>
      exact List.append_subset.mpr ⟨List.subset_append_left _ _, List.subset_append_of_subset_right _ ih⟩

/-- `P` holds of every step of a run, up to the one that fails. -/
def Along (step : S → A → Except ε (S × List O)) (P : S → A → Prop) : S → List A → Prop
  | _, [] => True
  | s, a :: as =>
    P s a ∧ match step s a with
      | .ok (s', _) => Along step P s' as
      | .error _ => True

instance Along.decidable {P : S → A → Prop} [∀ s a, Decidable (P s a)] :
    ∀ (s : S) (as : List A), Decidable (Along step P s as)
  | _, [] => isTrue trivial
  | s, a :: as =>
    @instDecidableAnd _ _ inferInstance <|
      match step s a with
      | .ok (s', _) => Along.decidable s' as
      | .error _ => isTrue trivial

/-- What holds of an action in every state holds along every run. -/
theorem Along.of_forall {P : S → A → Prop} : ∀ {as : List A} {s : S}, (∀ s, ∀ a ∈ as, P s a) →
    Along step P s as
  | [], _, _ => trivial
  | a :: as, s, h => by
    refine ⟨h s a List.mem_cons_self, ?_⟩
    cases step s a with
    | error e => trivial
    | ok r => exact Along.of_forall fun s' b hb => h s' b (List.mem_cons_of_mem _ hb)

/-- If every admissible step whose uses are all in `log` is matched, so is every admissible run: it
    does not fail, and gives the outputs of the abstract run. What is admissible may depend on both
    states. -/
theorem runs_matched_along {astep : T → A → T} {aout : T → A → List O} {R : S → T → Prop}
    {ok : T → A → Prop} {P : S → A → Prop} {log : List C}
    (hstep : ∀ s t a, R s t → ok t a → P s a → uses s a ⊆ log → Matches step astep aout R s t a) :
    ∀ (as : List A) (s : S) (t : T), R s t →
      (∀ pre a post, as = pre ++ a :: post → ok (pre.foldl astep t) a) →
      Along step P s as → runLog step uses s as ⊆ log →
      ∃ s', runs step s as = .ok (s', absOuts astep aout t as) ∧ R s' (as.foldl astep t)
  | [], s, t, hR, _, _, _ => ⟨s, rfl, hR⟩
  | a :: as, s, t, hR, hok, halong, hlog => by
    obtain ⟨ha, has⟩ := halong
    have huses : uses s a ⊆ log := fun c hc => hlog (by rw [runLog]; exact List.mem_append_left _ hc)
    obtain ⟨s₁, hs, hR₁⟩ := hstep s t a hR (hok [] a as rfl) ha huses
    have hrest : runLog step uses s₁ as ⊆ log := fun c hc =>
      hlog (by rw [runLog, hs]; exact List.mem_append_right _ hc)
    rw [hs] at has
    obtain ⟨s', hr, hR'⟩ := runs_matched_along hstep as s₁ (astep t a) hR₁
      (fun pre b post h => hok (a :: pre) b post (by rw [h]; rfl)) has hrest
    exact ⟨s', by rw [runs_cons hs, hr]; rfl, hR'⟩

theorem runs_matched {astep : T → A → T} {aout : T → A → List O} {R : S → T → Prop}
    {ok : T → A → Prop} {log : List C}
    (hstep : ∀ s t a, R s t → ok t a → uses s a ⊆ log → Matches step astep aout R s t a)
    (as : List A) (s : S) (t : T) (hR : R s t)
    (hok : ∀ pre a post, as = pre ++ a :: post → ok (pre.foldl astep t) a)
    (hlog : runLog step uses s as ⊆ log) :
    ∃ s', runs step s as = .ok (s', absOuts astep aout t as) ∧ R s' (as.foldl astep t) :=
  runs_matched_along (P := fun _ _ => True) (fun s t a hR ha _ => hstep s t a hR ha) as s t hR hok
    (Along.of_forall fun _ _ _ => trivial) hlog

theorem Along.and {P Q : S → A → Prop} : ∀ {as : List A} {s : S}, Along step P s as →
    Along step Q s as → Along step (fun s a => P s a ∧ Q s a) s as
  | [], _, _, _ => trivial
  | a :: as, s, hP, hQ => by
    obtain ⟨hPa, hPas⟩ := hP
    obtain ⟨hQa, hQas⟩ := hQ
    refine ⟨⟨hPa, hQa⟩, ?_⟩
    cases hs : step s a with
    | error e => trivial
    | ok r =>
      rw [hs] at hPas hQas
      exact hPas.and hQas

theorem Along.imp {P Q : S → A → Prop} (hPQ : ∀ s a, P s a → Q s a) : ∀ {as : List A} {s : S},
    Along step P s as → Along step Q s as
  | [], _, _ => trivial
  | a :: as, s, h => by
    obtain ⟨ha, has⟩ := h
    refine ⟨hPQ s a ha, ?_⟩
    cases hs : step s a with
    | error e => trivial
    | ok r =>
      rw [hs] at has
      exact has.imp hPQ

/-- Each step uses what the run uses. -/
theorem along_uses {log : List C} : ∀ {as : List A} {s : S}, runLog step uses s as ⊆ log →
    Along step (fun s a => uses s a ⊆ log) s as
  | [], _, _ => trivial
  | a :: as, s, hlog => by
    rw [runLog, List.append_subset] at hlog
    refine ⟨hlog.1, ?_⟩
    cases hs : step s a with
    | error e => trivial
    | ok r =>
      rw [hs] at hlog
      exact along_uses hlog.2

/-- What holds of a state and the outputs so far, and is kept by every step allowed, holds after every
    run of such steps: none of them fails. Whether a step is allowed may depend on the state. -/
theorem runs_invariant {I : S → List O → Prop} {P : S → A → Prop} {log : List C}
    (hstep : ∀ s outs a, I s outs → P s a → uses s a ⊆ log →
      ∃ s' out, step s a = .ok (s', out) ∧ I s' (outs ++ out)) :
    ∀ (as : List A) (s : S) (outs : List O), I s outs → Along step P s as →
      runLog step uses s as ⊆ log →
      ∃ s' outs', runs step s as = .ok (s', outs') ∧ I s' (outs ++ outs') := by
  intro as
  induction as with
  | nil =>
    intro s outs hI _ _
    exact ⟨s, [], rfl, by rwa [List.append_nil]⟩
  | cons a as ih =>
    rintro s outs hI ⟨ha, has⟩ hlog
    rw [runLog] at hlog
    obtain ⟨s₁, out, hs, hI₁⟩ := hstep s outs a hI ha fun c hc => hlog (List.mem_append_left _ hc)
    rw [hs] at has hlog
    obtain ⟨s', outs', hr, hI'⟩ := ih s₁ (outs ++ out) hI₁ has
      fun c hc => hlog (List.mem_append_right _ hc)
    refine ⟨s', out ++ outs', ?_, by rwa [← List.append_assoc]⟩
    rw [runs_cons hs, hr]; rfl

/-- In a run that succeeds with steps allowed, what such a step keeps holds at the end, and what it says of
    its outputs holds of all outputs. -/
theorem runs_outputs {I : S → Prop} {P : S → A → Prop} {Q : O → Prop}
    (hstep : ∀ s a s' out, I s → P s a → step s a = .ok (s', out) → I s' ∧ ∀ o ∈ out, Q o) :
    ∀ {as : List A} {s s' : S} {outs : List O}, I s → Along step P s as →
      runs step s as = .ok (s', outs) → I s' ∧ ∀ o ∈ outs, Q o := by
  intro as
  induction as with
  | nil =>
    intro s s' outs hI _ h
    cases h
    exact ⟨hI, fun o ho => absurd ho List.not_mem_nil⟩
  | cons a as ih =>
    rintro s s' outs hI ⟨ha, has⟩ h
    rw [runs] at h
    obtain ⟨⟨s₁, out⟩, hs, h⟩ := exists_of_bind_ok h
    obtain ⟨⟨s₂, outs'⟩, hr, h⟩ := exists_of_bind_ok h
    cases h
    rw [hs] at has
    obtain ⟨hI₁, hout⟩ := hstep s a s₁ out hI ha hs
    obtain ⟨hI', houts⟩ := ih hI₁ has hr
    refine ⟨hI', fun o ho => ?_⟩
    rcases List.mem_append.mp ho with ho | ho
    · exact hout o ho
    · exact houts o ho

/-- The states of a run, the first one included, up to the step that fails. -/
def states (step : S → A → Except ε (S × List O)) : S → List A → List S
  | s, [] => [s]
  | s, a :: as =>
    s :: match step s a with
      | .ok (s', _) => states step s' as
      | .error _ => []

/-- If the steps allowed keep an invariant that says `Q`, and a step that is not allowed ends in a state
    without `Q`, then `Q` holds in all states of a run exactly if all its steps are allowed. -/
theorem states_iff {I Q : S → Prop} {P : S → A → Prop} (hQ : ∀ s, I s → Q s)
    (hkeep : ∀ s a s' out, I s → P s a → step s a = .ok (s', out) → I s')
    (hbreak : ∀ s a, I s → ¬ P s a → ∃ s' out, step s a = .ok (s', out) ∧ ¬ Q s') :
    ∀ (as : List A) (s : S), I s → ((∀ s' ∈ states step s as, Q s') ↔ Along step P s as) := by
  intro as
  induction as with
  | nil =>
    intro s hI
    simp only [states, List.mem_singleton, forall_eq, Along, iff_true]
    exact hQ s hI
  | cons a as ih =>
    intro s hI
    rw [states, Along, List.forall_mem_cons, and_iff_right (hQ s hI)]
    by_cases ha : P s a
    · rw [and_iff_right ha]
      cases hs : step s a with
      | error e => simp
      | ok r => exact ih r.1 (hkeep s a r.1 r.2 hI ha hs)
    · obtain ⟨s', out, hs, hbad⟩ := hbreak s a hI ha
      refine iff_of_false (fun h => hbad (h s' ?_)) fun h => ha h.1
      rw [hs]
      cases as <;> simp [states]

/-- Two steps that end alike: both fail in the same way, or both give the same output and related
    states. -/
def InStep (R : S → T → Prop) : Except ε (S × List O) → Except ε (T × List O) → Prop
  | .ok (s, out), .ok (t, out') => out = out' ∧ R s t
  | .error e, .error e' => e = e'
  | _, _ => False

/-- If related states stay in step under every action allowed that uses only what satisfies `P`, runs
    from related states give the same outputs. -/
theorem runs_inStep {step' : T → A → Except ε (T × List O)} {R : S → T → Prop} {ok : A → Prop}
    {P : C → Prop}
    (hstep : ∀ s t a, R s t → ok a → (∀ c ∈ uses s a, P c) → InStep R (step s a) (step' t a)) :
    ∀ (as : List A) (s : S) (t : T), R s t → (∀ a ∈ as, ok a) →
      (∀ c ∈ runLog step uses s as, P c) →
      (runs step' t as).map Prod.snd = (runs step s as).map Prod.snd := by
  intro as
  induction as with
  | nil => intros; rfl
  | cons a as ih =>
    intro s t hR hok huses
    rw [runLog] at huses
    have hin := hstep s t a hR (hok a List.mem_cons_self)
      fun c hc => huses c (List.mem_append_left _ hc)
    rw [runs, runs]
    cases hs : step s a with
    | error e =>
      cases ht : step' t a with
      | error e' => rw [hs, ht] at hin; rw [show e = e' from hin]; rfl
      | ok q => rw [hs, ht] at hin; exact hin.elim
    | ok r =>
      obtain ⟨s', out⟩ := r
      cases ht : step' t a with
      | error e' => rw [hs, ht] at hin; exact hin.elim
      | ok q =>
        obtain ⟨t', out'⟩ := q
        rw [hs, ht] at hin
        obtain ⟨rfl, hR'⟩ := hin
        have hrest := ih s' t' hR' (fun a ha => hok a (List.mem_cons_of_mem _ ha)) fun c hc =>
          huses c (by rw [hs]; exact List.mem_append_right _ hc)
        simp only [bind, Except.bind]
        cases hs' : runs step s' as with
        | error e =>
          cases ht' : runs step' t' as with
          | error e' => rw [hs', ht'] at hrest; cases hrest; rfl
          | ok q => rw [hs', ht'] at hrest; cases hrest
        | ok r =>
          cases ht' : runs step' t' as with
          | error e' => rw [hs', ht'] at hrest; cases hrest
          | ok q =>
            rw [hs', ht'] at hrest
            simp only [Except.map, Except.ok.injEq] at hrest
            simp only [Except.map, pure, Except.pure, hrest]

/-- The same with what is allowed in each state, and the states that both runs end in. -/
theorem runs_inStep_along {step' : T → A → Except ε (T × List O)} {R : S → T → Prop} {P : S → A → Prop}
    (hstep : ∀ s t a, R s t → P s a → InStep R (step s a) (step' t a)) :
    ∀ (as : List A) (s : S) (t : T), R s t → Along step P s as →
      InStep R (runs step s as) (runs step' t as)
  | [], _, _, hR, _ => ⟨rfl, hR⟩
  | a :: as, s, t, hR, h => by
    obtain ⟨ha, has⟩ := h
    have hin := hstep s t a hR ha
    rw [runs, runs]
    cases hs : step s a with
    | error e =>
      cases ht : step' t a with
      | error e' => rw [hs, ht] at hin; exact hin
      | ok q => rw [hs, ht] at hin; exact hin.elim
    | ok r =>
      obtain ⟨s', out⟩ := r
      cases ht : step' t a with
      | error e' => rw [hs, ht] at hin; exact hin.elim
      | ok q =>
        obtain ⟨t', out'⟩ := q
        rw [hs, ht] at hin
        rw [hs] at has
        obtain ⟨rfl, hR'⟩ := hin
        have hrest := runs_inStep_along hstep as s' t' hR' has
        simp only [bind, Except.bind]
        cases hs' : runs step s' as with
        | error e =>
          cases ht' : runs step' t' as with
          | error e' => rw [hs', ht'] at hrest; exact hrest
          | ok q => rw [hs', ht'] at hrest; exact hrest.elim
        | ok r =>
          cases ht' : runs step' t' as with
          | error e' => rw [hs', ht'] at hrest; exact hrest.elim
          | ok q =>
            rw [hs', ht'] at hrest
            exact ⟨congrArg (out ++ ·) hrest.1, hrest.2⟩

/-- Related states in which an action and its renaming use the same and succeed in step: the outputs, of
    which `Q` holds, are renamed too. -/
def Renames {A' O' : Type*} (step : S → A → Except ε (S × List O)) (uses : S → A → List C)
    (step' : T → A' → Except ε (T × List O')) (uses' : T → A' → List C) (R : S → T → Prop) (f : A → A')
    (g : O → O') (Q : O → Prop) (s : S) (t : T) (a : A) : Prop :=
  uses' t (f a) = uses s a ∧
    ∃ s' t' out, step s a = .ok (s', out) ∧ step' t (f a) = .ok (t', out.map g) ∧ (∀ o ∈ out, Q o) ∧ R s' t'

/-- If related states stay in step under every action allowed, a run and its renaming use the same and end
    in related states. -/
theorem runs_renamed {A' O' : Type*} {step' : T → A' → Except ε (T × List O')} {uses' : T → A' → List C}
    {R : S → T → Prop} {f : A → A'} {g : O → O'} {Q : O → Prop} {ok : A → Prop}
    (hstep : ∀ s t a, R s t → ok a → Renames step uses step' uses' R f g Q s t a) :
    ∀ {as : List A} {s : S} {t : T}, R s t → (∀ a ∈ as, ok a) →
      runLog step' uses' t (as.map f) = runLog step uses s as ∧
      ∃ s' t' outs, runs step s as = .ok (s', outs) ∧
        runs step' t (as.map f) = .ok (t', outs.map g) ∧ (∀ o ∈ outs, Q o) ∧ R s' t'
  | [], s, t, hR, _ => ⟨rfl, s, t, [], rfl, rfl, nofun, hR⟩
  | a :: as, s, t, hR, hok => by
    obtain ⟨huses, s₁, t₁, out, hs, ht, hQ, hR₁⟩ := hstep s t a hR (hok a List.mem_cons_self)
    obtain ⟨hlog, s', t', outs, hs', ht', hQ', hR'⟩ :=
      runs_renamed hstep hR₁ fun b hb => hok b (List.mem_cons_of_mem _ hb)
    refine ⟨?_, s', t', out ++ outs, ?_, ?_, List.forall_mem_append.mpr ⟨hQ, hQ'⟩, hR'⟩
    · rw [List.map_cons, runLog, runLog, huses, hs, ht]
      simp only [hlog]
    · rw [runs_cons hs, hs']; rfl
    · rw [List.map_cons, runs_cons ht, ht', List.map_append]; rfl

/-- What holds along a run holds along its renaming. -/
theorem Along.renamed {A' O' : Type*} {step' : T → A' → Except ε (T × List O')} {uses' : T → A' → List C}
    {R : S → T → Prop} {f : A → A'} {g : O → O'} {Q : O → Prop} {ok : A → Prop} {P : S → A → Prop}
    {P' : T → A' → Prop} (hstep : ∀ s t a, R s t → ok a → Renames step uses step' uses' R f g Q s t a)
    (hP : ∀ s t a, R s t → P s a → P' t (f a)) :
    ∀ {as : List A} {s : S} {t : T}, R s t → (∀ a ∈ as, ok a) → Along step P s as →
      Along step' P' t (as.map f)
  | [], _, _, _, _, _ => trivial
  | a :: as, s, t, hR, hok, h => by
    obtain ⟨ha, has⟩ := h
    obtain ⟨-, s₁, t₁, out, hs, ht, -, hR₁⟩ := hstep s t a hR (hok a List.mem_cons_self)
    rw [hs] at has
    refine ⟨hP s t a hR ha, ?_⟩
    rw [ht]
    exact Along.renamed hstep hP hR₁ (fun b hb => hok b (List.mem_cons_of_mem _ hb)) has

end Schemes
