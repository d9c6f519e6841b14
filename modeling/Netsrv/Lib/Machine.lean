/-
  Labelled machines: a step function that is `some` where a label is enabled.

  `run` follows a list of labels.  `Reach ok` are the states of the runs all of whose steps
  meet `ok`; with no condition they are the reachable states.  `Passed` are the runs that come
  through a state.  `Reachable.simulated` is a machine whose steps are runs of another, `many`
  are machines side by side, `Twins` two runs of one machine.
  `Trace ok` adds what an observer saw of the run; a view of the state that each step changes
  by what is seen of the step is the same after every two runs that look the same
  (`Trace.view_eq`).
-/
import Mathlib.Algebra.BigOperators.Group.Finset.Piecewise
import Mathlib.Data.List.Induction
import Mathlib.Logic.Function.Basic

namespace Machine

variable {σ ℓ : Type} (step : σ → ℓ → Option σ)

/-- The state after the labels, or `none` where one was not enabled. -/
def run (s : σ) : List ℓ → Option σ
  | [] => some s
  | l :: ls => (step s l).bind fun s' => run s' ls

/-- The states of the runs from `init` whose steps all meet `ok`. -/
inductive Reach (ok : σ → ℓ → Prop) (init : σ) : σ → Prop
  | init : Reach ok init init
  | step {s s' : σ} (l : ℓ) : Reach ok init s → ok s l → step s l = some s' → Reach ok init s'

/-- The states of all runs. -/
abbrev Reachable (init : σ) : σ → Prop := Reach step (fun _ _ => True) init

variable {step} {ok : σ → ℓ → Prop} {init : σ}

/-- What holds at the start and is kept by every step that meets `ok` holds throughout. -/
theorem Reach.invariant {I : σ → Prop} (hinit : I init)
    (hstep : ∀ s l s', I s → ok s l → step s l = some s' → I s') {s : σ}
    (h : Reach step ok init s) : I s := by
  induction h with
  | init => exact hinit
  | step l _ hok hs ih => exact hstep _ l _ ih hok hs

theorem Reach.mono {ok' : σ → ℓ → Prop} (hok : ∀ s l, ok s l → ok' s l) {s : σ}
    (h : Reach step ok init s) : Reach step ok' init s := by
  induction h with
  | init => exact .init
  | step l _ h1 hs ih => exact .step l ih (hok _ l h1) hs

theorem Reach.reachable {s : σ} (h : Reach step ok init s) : Reachable step init s :=
  h.mono fun _ _ _ => trivial

/-- The machine that takes a step only if it meets `ok`. -/
def guarded (step : σ → ℓ → Option σ) (ok : σ → ℓ → Bool) (s : σ) (l : ℓ) : Option σ :=
  if ok s l then step s l else none

/-- A run of the guarded machine is a run whose steps meet the guard. -/
theorem Reach.of_run {ok : σ → ℓ → Bool} {s s' : σ} {ls : List ℓ}
    (h : Reach step (fun s l => ok s l = true) init s)
    (hrun : run (guarded step ok) s ls = some s') :
    Reach step (fun s l => ok s l = true) init s' := by
  induction ls generalizing s with
  | nil =>
    obtain rfl := Option.some.inj hrun
    exact h
  | cons l ls ih =>
    obtain ⟨t, hstep, hrest⟩ := Option.bind_eq_some_iff.mp hrun
    unfold guarded at hstep
    split at hstep
    · next hok => exact ih (.step l h hok hstep) hrest
    · cases hstep

theorem run_append {s s' : σ} {ls ls' : List ℓ} (h : run step s ls = some s') :
    run step s (ls ++ ls') = run step s' ls' := by
  induction ls generalizing s with
  | nil =>
    obtain rfl := Option.some.inj h
    rfl
  | cons l ls ih =>
    obtain ⟨t, hstep, hrest⟩ := Option.bind_eq_some_iff.mp h
    rw [List.cons_append, run, hstep, Option.bind_some, ih hrest]

/-- A run from a reachable state ends in one. -/
theorem Reachable.of_run {s s' : σ} {ls : List ℓ} (h : Reachable step init s)
    (hrun : run step s ls = some s') : Reachable step init s' := by
  induction ls generalizing s with
  | nil =>
    obtain rfl := Option.some.inj hrun
    exact h
  | cons l ls ih =>
    obtain ⟨t, hstep, hrest⟩ := Option.bind_eq_some_iff.mp hrun
    exact ih (.step l h trivial hstep) hrest

/-! ## Runs, label by label -/

theorem run_concat (s : σ) (ls : List ℓ) (l : ℓ) :
    run step s (ls ++ [l]) = (run step s ls).bind fun s' => step s' l := by
  induction ls generalizing s with
  | nil =>
    show (step s l).bind (fun s' => run step s' []) = step s l
    cases step s l <;> rfl
  | cons m ls ih =>
    rw [List.cons_append, run, run, Option.bind_assoc]
    congr 1
    funext s'
    exact ih s'

/-- What holds of the empty run and is kept by every step at the end of one holds of every run. -/
theorem run_induction {I : List ℓ → σ → Prop} (hinit : I [] init)
    (hstep : ∀ ls s l s', run step init ls = some s → I ls s → step s l = some s' →
      I (ls ++ [l]) s') {ls : List ℓ} {s : σ} (h : run step init ls = some s) : I ls s := by
  induction ls using List.reverseRecOn generalizing s with
  | nil =>
    obtain rfl := Option.some.inj h
    exact hinit
  | append_singleton ls l ih =>
    rw [run_concat, Option.bind_eq_some_iff] at h
    obtain ⟨t, hrun, hlast⟩ := h
    exact hstep ls t l s hrun (ih hrun) hlast

/-- The run comes through a state with `P`. -/
def Passed (step : σ → ℓ → Option σ) (init : σ) (P : σ → Prop) (ls : List ℓ) : Prop :=
  ∃ ls₁ s, ls₁ <+: ls ∧ run step init ls₁ = some s ∧ P s

theorem Passed.concat {P : σ → Prop} {ls : List ℓ} (h : Passed step init P ls) (l : ℓ) :
    Passed step init P (ls ++ [l]) := by
  obtain ⟨ls₁, s, hpre, hrun, hs⟩ := h
  exact ⟨ls₁, s, hpre.trans (List.prefix_append _ _), hrun, hs⟩

theorem Passed.last {P : σ → Prop} {ls : List ℓ} {s : σ} (h : run step init ls = some s)
    (hs : P s) : Passed step init P ls :=
  ⟨ls, s, List.prefix_rfl, h, hs⟩

theorem Passed.mono {P Q : σ → Prop} {ls : List ℓ} (h : Passed step init P ls)
    (hPQ : ∀ s, P s → Q s) : Passed step init Q ls := by
  obtain ⟨ls₁, s, hpre, hrun, hs⟩ := h
  exact ⟨ls₁, s, hpre, hrun, hPQ s hs⟩

/-! ## One machine in another -/

/-- If every step of a machine is matched by a run of another, every state it reaches is matched
    by one that the other reaches. -/
theorem Reachable.simulated {τ μ : Type} {step' : τ → μ → Option τ} {init' : τ} {R : σ → τ → Prop}
    (hinit : R init init')
    (hstep : ∀ s l s' t, R s t → step s l = some s' → ∃ ms t', run step' t ms = some t' ∧ R s' t')
    {s : σ} (h : Reachable step init s) : ∃ t, Reachable step' init' t ∧ R s t := by
  induction h with
  | init => exact ⟨init', .init, hinit⟩
  | step l _ _ hs ih =>
    obtain ⟨t, ht, hR⟩ := ih
    obtain ⟨ms, t', hrun, hR'⟩ := hstep _ l _ t hR hs
    exact ⟨t', ht.of_run hrun, hR'⟩

/-! ## Machines side by side -/

section Many

variable {ι : Type} [DecidableEq ι]

/-- One machine for each index; one of them takes a step at a time. -/
def many (step : σ → ℓ → Option σ) (s : ι → σ) (l : ι × ℓ) : Option (ι → σ) :=
  (step (s l.1) l.2).map (Function.update s l.1)

theorem many_eq_some {s s' : ι → σ} {l : ι × ℓ} (h : many step s l = some s') :
    ∃ t, step (s l.1) l.2 = some t ∧ s' = Function.update s l.1 t := by
  obtain ⟨t, ht, rfl⟩ := Option.map_eq_some_iff.mp h
  exact ⟨t, ht, rfl⟩

/-- Each of the machines is in a state it could have reached alone. -/
theorem Reachable.of_many {s : ι → σ} (h : Reachable (many step) (fun _ => init) s) (i : ι) :
    Reachable step init (s i) := by
  refine h.invariant (I := fun s => Reachable step init (s i)) .init ?_
  intro s l s' ih _ hstep
  obtain ⟨t, ht, rfl⟩ := many_eq_some hstep
  by_cases hi : i = l.1
  · subst hi
    rw [Function.update_self]
    exact .step l.2 ih trivial ht
  · rw [Function.update_of_ne hi]
    exact ih

/-- The labels of one of the machines. -/
def own (i : ι) (ls : List (ι × ℓ)) : List ℓ :=
  ls.filterMap fun l => if l.1 = i then some l.2 else none

theorem own_cons_of_eq {i : ι} {l : ι × ℓ} (h : l.1 = i) (ls : List (ι × ℓ)) :
    own i (l :: ls) = l.2 :: own i ls := by
  simp only [own, List.filterMap_cons, h, if_true]

theorem own_cons_of_ne {i : ι} {l : ι × ℓ} (h : l.1 ≠ i) (ls : List (ι × ℓ)) :
    own i (l :: ls) = own i ls := by
  simp only [own, List.filterMap_cons, h, if_false]

/-- Each of the machines runs through its own labels. -/
theorem run_of_many {s s' : ι → σ} {ls : List (ι × ℓ)} (h : run (many step) s ls = some s')
    (i : ι) : run step (s i) (own i ls) = some (s' i) := by
  induction ls generalizing s with
  | nil =>
    obtain rfl := Option.some.inj h
    rfl
  | cons l ls ih =>
    obtain ⟨u, hstep, hrest⟩ := Option.bind_eq_some_iff.mp h
    obtain ⟨t, ht, rfl⟩ := many_eq_some hstep
    have ih := ih hrest
    by_cases hi : l.1 = i
    · subst hi
      rw [Function.update_self] at ih
      rw [own_cons_of_eq rfl, run, ht]
      exact ih
    · rw [Function.update_of_ne (Ne.symm hi)] at ih
      rw [own_cons_of_ne hi]
      exact ih

/-- What is counted for each label is counted once. -/
theorem sum_own {M : Type} [AddCommMonoid M] [Fintype ι] (w : ℓ → M) (ls : List (ι × ℓ)) :
    ∑ i, ((own i ls).map w).sum = (ls.map fun l => w l.2).sum := by
  induction ls with
  | nil => exact Finset.sum_const_zero
  | cons l ls ih =>
    have hcons (i : ι) : ((own i (l :: ls)).map w).sum =
        (if l.1 = i then w l.2 else 0) + ((own i ls).map w).sum := by
      by_cases hi : l.1 = i
      · rw [own_cons_of_eq hi, if_pos hi, List.map_cons, List.sum_cons]
      · rw [own_cons_of_ne hi, if_neg hi, zero_add]
    rw [Finset.sum_congr rfl fun i _ => hcons i, Finset.sum_add_distrib, Finset.sum_ite_eq,
      if_pos (Finset.mem_univ _), ih]
    rfl

end Many

/-! ## Two runs side by side -/

/-- The ends of two runs of the same length, taken with labels that `rel` relates in the states
    they are taken in. -/
inductive Twins (step : σ → ℓ → Option σ) (rel : σ → ℓ → ℓ → Prop) (init : σ) : σ → σ → Prop
  | init : Twins step rel init init init
  | step {s t s' t' : σ} {l m : ℓ} : Twins step rel init s t → rel s l m → step s l = some s' →
      step t m = some t' → Twins step rel init s' t'

theorem Twins.reachable {rel : σ → ℓ → ℓ → Prop} {s t : σ} (h : Twins step rel init s t) :
    Reachable step init s ∧ Reachable step init t := by
  induction h with
  | init => exact ⟨.init, .init⟩
  | step _ _ hs ht ih => exact ⟨.step _ ih.1 trivial hs, .step _ ih.2 trivial ht⟩

/-! ## What an observer sees of a run -/

section Observed

variable {ε V : Type} {obs : σ → ℓ → Option ε}

/-- The states of the runs whose steps all meet `ok`, with what there was to see in them, the
    newest first. -/
inductive Trace (step : σ → ℓ → Option σ) (obs : σ → ℓ → Option ε) (ok : σ → ℓ → Prop) (init : σ) :
    List ε → σ → Prop
  | init : Trace step obs ok init [] init
  | step {seen : List ε} {s s' : σ} (l : ℓ) : Trace step obs ok init seen s → ok s l →
      step s l = some s' → Trace step obs ok init ((obs s l).toList ++ seen) s'

theorem Trace.reach {seen : List ε} {s : σ} (h : Trace step obs ok init seen s) :
    Reach step ok init s := by
  induction h with
  | init => exact .init
  | step l _ hok hs ih => exact .step l ih hok hs

theorem Trace.mono {ok' : σ → ℓ → Prop} (hok : ∀ s l, ok s l → ok' s l) {seen : List ε} {s : σ}
    (h : Trace step obs ok init seen s) : Trace step obs ok' init seen s := by
  induction h with
  | init => exact .init
  | step l _ h1 hs ih => exact .step l ih (hok _ l h1) hs

theorem Reach.exists_trace {s : σ} (h : Reach step ok init s) :
    ∃ seen, Trace step obs ok init seen s := by
  induction h with
  | init => exact ⟨[], .init⟩
  | step l _ hok hs ih =>
    obtain ⟨seen, ih⟩ := ih
    exact ⟨_, .step l ih hok hs⟩

theorem Trace.silent {seen : List ε} {s s' : σ} (h : Trace step obs ok init seen s) (l : ℓ)
    (hok : ok s l) (hs : step s l = some s') (hobs : obs s l = none) :
    Trace step obs ok init seen s' := by
  have hstep := Trace.step l h hok hs
  rwa [hobs] at hstep

theorem Trace.seen {seen : List ε} {s s' : σ} (h : Trace step obs ok init seen s) (l : ℓ)
    (hok : ok s l) (hs : step s l = some s') {e : ε} (hobs : obs s l = some e) :
    Trace step obs ok init (e :: seen) s' := by
  have hstep := Trace.step l h hok hs
  rwa [hobs] at hstep

/-- The state after the labels, with what there was to see. -/
def watch (step : σ → ℓ → Option σ) (obs : σ → ℓ → Option ε) (seen : List ε) (s : σ) :
    List ℓ → Option (List ε × σ)
  | [] => some (seen, s)
  | l :: ls => (step s l).bind fun s' => watch step obs ((obs s l).toList ++ seen) s' ls

/-- A run of the guarded machine that is watched is a run whose steps meet the guard. -/
theorem Trace.of_watch {ok : σ → ℓ → Bool} {seen seen' : List ε} {s s' : σ} {ls : List ℓ}
    (h : Trace step obs (fun s l => ok s l = true) init seen s)
    (hwatch : watch (guarded step ok) obs seen s ls = some (seen', s')) :
    Trace step obs (fun s l => ok s l = true) init seen' s' := by
  induction ls generalizing seen s with
  | nil =>
    obtain ⟨rfl, rfl⟩ := Prod.mk.inj (Option.some.inj hwatch)
    exact h
  | cons l ls ih =>
    obtain ⟨t, hstep, hrest⟩ := Option.bind_eq_some_iff.mp hwatch
    unfold guarded at hstep
    split at hstep
    · next hok => exact ih (.step l h hok hstep) hrest
    · cases hstep

/-- If what is seen of a step says how the view changes, what was seen of a run says what the
    view is. -/
theorem Trace.view_eq {view : σ → V} {apply : V → ε → V}
    (hview : ∀ s l s', Reach step ok init s → ok s l → step s l = some s' →
      view s' = (obs s l).elim (view s) (apply (view s)))
    {seen : List ε} {s : σ} (h : Trace step obs ok init seen s) :
    view s = seen.foldr (fun e v => apply v e) (view init) := by
  induction h with
  | init => rfl
  | @step seen s s' l h hok hs ih =>
    rw [hview s l s' h.reach hok hs, ih]
    cases obs s l with
    | none => rfl
    | some e => rfl

end Observed

end Machine
