import Mathlib.Tactic.Common

/-!
# Runs of a machine over a list of events

A step returns the next state and an output, or nothing when the machine has no
next state. `Meets` says that every step of a run is taken under a condition.
The two rules carry a property of one step to every run: an invariant, and a
forward simulation of one machine by another.
-/

namespace AdFilter.Lib.Runs

variable {σ τ ε ο : Type}

def run (step : σ → ε → Option (σ × ο)) : σ → List ε → Option (σ × List ο)
  | s, [] => some (s, [])
  | s, e :: es => (step s e).bind fun r => (run step r.1 es).map fun q => (q.1, r.2 :: q.2)

/-- Every event meets the condition in the state it is taken in. -/
def Meets (step : σ → ε → Option (σ × ο)) (ok : σ → ε → Prop) : σ → List ε → Prop
  | _, [] => True
  | s, e :: es => ok s e ∧ ∀ r, step s e = some r → Meets step ok r.1 es

/-- The states a run from an initial state reaches. -/
def Reached (step : σ → ε → Option (σ × ο)) (ok : σ → ε → Prop) (init : σ → Prop) (s : σ) : Prop :=
  ∃ s₀ es os, init s₀ ∧ Meets step ok s₀ es ∧ run step s₀ es = some (s, os)

variable {step : σ → ε → Option (σ × ο)}

@[simp] theorem run_nil (s : σ) : run step s [] = some (s, []) := rfl

theorem run_cons_some {s s' : σ} {e : ε} {es : List ε} {os : List ο}
    (h : run step s (e :: es) = some (s', os)) :
    ∃ t o os', step s e = some (t, o) ∧ run step t es = some (s', os') ∧ os = o :: os' := by
  obtain ⟨⟨t, o⟩, ht, hq⟩ := Option.bind_eq_some_iff.mp h
  obtain ⟨⟨u, os'⟩, hu, he⟩ := Option.map_eq_some_iff.mp hq
  obtain ⟨rfl, rfl⟩ := Prod.mk.inj he
  exact ⟨t, o, os', ht, hu, rfl⟩

theorem run_cons {s t : σ} {e : ε} {o : ο} (es : List ε) (h : step s e = some (t, o)) :
    run step s (e :: es) = (run step t es).map fun q => (q.1, o :: q.2) := by
  simp [run, h]

theorem run_append (es fs : List ε) (s : σ) :
    run step s (es ++ fs) =
      (run step s es).bind fun r => (run step r.1 fs).map fun q => (q.1, r.2 ++ q.2) := by
  induction es generalizing s with
  | nil => simp [run]
  | cons e es ih =>
    rw [List.cons_append, run, run]
    cases step s e with
    | none => rfl
    | some r =>
      simp only [Option.bind_some, ih]
      cases run step r.1 es with
      | none => rfl
      | some q =>
        simp only [Option.bind_some, Option.map_some, Option.map_map]
        rfl

theorem meets_of_forall {ok : σ → ε → Prop} (h : ∀ s e, ok s e) (s : σ) (es : List ε) :
    Meets step ok s es := by
  induction es generalizing s with
  | nil => trivial
  | cons e es ih => exact ⟨h s e, fun r _ => ih r.1⟩

/-- Events whose condition holds in any state. -/
theorem meets_of_forall_mem {ok : σ → ε → Prop} {es : List ε} (h : ∀ e ∈ es, ∀ s, ok s e) (s : σ) :
    Meets step ok s es := by
  induction es generalizing s with
  | nil => trivial
  | cons e es ih =>
    exact ⟨h e List.mem_cons_self s, fun r _ => ih (fun e' he => h e' (List.mem_cons_of_mem e he)) r.1⟩

/-- What follows from the condition for the events of the run. -/
theorem Meets.mono {ok ok' : σ → ε → Prop} {es : List ε} {s : σ} (h : Meets step ok s es)
    (hi : ∀ e ∈ es, ∀ s, ok s e → ok' s e) : Meets step ok' s es := by
  induction es generalizing s with
  | nil => trivial
  | cons e es ih =>
    refine ⟨hi e List.mem_cons_self s h.1, fun r hr => ?_⟩
    exact ih (h.2 r hr) fun e' he => hi e' (List.mem_cons_of_mem e he)

theorem Meets.append {ok : σ → ε → Prop} {es fs : List ε} {s : σ} (h : Meets step ok s es)
    (hf : ∀ r, run step s es = some r → Meets step ok r.1 fs) : Meets step ok s (es ++ fs) := by
  induction es generalizing s with
  | nil => exact hf (s, []) rfl
  | cons e es ih =>
    refine ⟨h.1, fun r hr => ih (h.2 r hr) fun q hq => ?_⟩
    exact hf (q.1, r.2 :: q.2) (by rw [run_cons es hr, hq]; rfl)

/-- The invariant rule: what every admitted step keeps, every run keeps. -/
theorem run_invariant {ok : σ → ε → Prop} (inv : σ → Prop)
    (hstep : ∀ s e s' o, inv s → ok s e → step s e = some (s', o) → inv s')
    {es : List ε} : ∀ {s s' : σ} {os : List ο}, inv s → Meets step ok s es →
      run step s es = some (s', os) → inv s' := by
  induction es with
  | nil =>
    intro s s' os hi _ hr
    obtain ⟨rfl, -⟩ := Prod.mk.inj (Option.some.inj hr)
    exact hi
  | cons e es ih =>
    intro s s' os hi hm hr
    obtain ⟨t, o, os', ht, hrest, -⟩ := run_cons_some hr
    exact ih (hstep s e t o hi hm.1 ht) (hm.2 _ ht) hrest

/-- The invariant rule for a machine that always has a next state under the condition. -/
theorem run_progress {ok : σ → ε → Prop} (inv : σ → Prop)
    (hstep : ∀ s e, inv s → ok s e → ∃ s' o, step s e = some (s', o) ∧ inv s')
    {es : List ε} : ∀ {s : σ}, inv s → Meets step ok s es →
      ∃ s' os, run step s es = some (s', os) ∧ inv s' := by
  induction es with
  | nil => exact fun {s} hi _ => ⟨s, [], rfl, hi⟩
  | cons e es ih =>
    intro s hi hm
    obtain ⟨t, o, ht, hit⟩ := hstep s e hi hm.1
    obtain ⟨s', os, hr, hi'⟩ := ih hit (hm.2 _ ht)
    exact ⟨s', o :: os, by rw [run_cons es ht, hr]; rfl, hi'⟩

theorem reached_step {ok : σ → ε → Prop} {init : σ → Prop} {s s' : σ} {e : ε} {o : ο}
    (h : Reached step ok init s) (hok : ok s e) (hs : step s e = some (s', o)) :
    Reached step ok init s' := by
  obtain ⟨s₀, es, os, h0, hm, hr⟩ := h
  refine ⟨s₀, es ++ [e], os ++ [o], h0, hm.append fun r hr' => ?_, ?_⟩
  · obtain rfl := Option.some.inj (hr.symm.trans hr')
    exact ⟨hok, fun _ _ => trivial⟩
  · rw [run_append, hr, Option.bind_some, run_cons [] hs]
    rfl

theorem reached_invariant {ok : σ → ε → Prop} {init : σ → Prop} (inv : σ → Prop)
    (hinit : ∀ s, init s → inv s)
    (hstep : ∀ s e s' o, inv s → ok s e → step s e = some (s', o) → inv s')
    {s : σ} (h : Reached step ok init s) : inv s := by
  obtain ⟨s₀, es, os, h0, hm, hr⟩ := h
  exact run_invariant inv hstep (hinit s₀ h0) hm hr

section Simulation

variable {δ : Type}

/-- A machine that always has a next state. -/
def runTotal (astep : τ → δ → τ × ο) : τ → List δ → τ × List ο
  | t, [] => (t, [])
  | t, d :: ds =>
      let r := astep t d
      let q := runTotal astep r.1 ds
      (q.1, r.2 :: q.2)

/-- The invariant rule for such a machine. -/
theorem runTotal_invariant {astep : τ → δ → τ × ο} (inv : τ → Prop)
    (hstep : ∀ t d, inv t → inv (astep t d).1) (ds : List δ) :
    ∀ {t : τ}, inv t → inv (runTotal astep t ds).1 := by
  induction ds with
  | nil => exact fun h => h
  | cons d ds ih => exact fun h => ih (hstep _ d h)

/-- The events of a run as the abstract machine sees them: what an event amounts
to may depend on the state it is taken in. -/
def labels (step : σ → ε → Option (σ × ο)) (label : σ → ε → δ) : σ → List ε → List δ
  | _, [] => []
  | s, e :: es =>
      label s e :: (step s e).elim [] fun r => labels step label r.1 es

/-- The forward simulation rule: the concrete machine has a run with the outputs
of the abstract one. -/
theorem run_simulates {astep : τ → δ → τ × ο} {label : σ → ε → δ} {ok : σ → ε → Prop}
    (rel : σ → τ → Prop)
    (hstep : ∀ s t e, rel s t → ok s e →
      ∃ s', step s e = some (s', (astep t (label s e)).2) ∧ rel s' (astep t (label s e)).1)
    {es : List ε} : ∀ {s : σ} {t : τ}, rel s t → Meets step ok s es →
      ∃ s', run step s es = some (s', (runTotal astep t (labels step label s es)).2) ∧
        rel s' (runTotal astep t (labels step label s es)).1 := by
  induction es with
  | nil => exact fun hr _ => ⟨_, rfl, hr⟩
  | cons e es ih =>
    intro s t hr hm
    obtain ⟨s₁, hs, hr₁⟩ := hstep s t e hr hm.1
    obtain ⟨s', hc, hr'⟩ := ih hr₁ (hm.2 _ hs)
    refine ⟨s', ?_, ?_⟩
    · rw [run_cons es hs, hc]
      simp [labels, hs, runTotal]
    · simpa [labels, hs, runTotal] using hr'

end Simulation

end AdFilter.Lib.Runs
