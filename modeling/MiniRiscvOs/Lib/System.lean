import Mathlib.Data.List.Induction

/-!
# `MiniRiscvOs.Lib.System`: labelled transition systems and their runs

A `System` has a set of initial states and a labelled step relation. The
states and the labels are arbitrary types, so a kernel, a driver with its
device, or an abstract scheduler are all instances.

* `System.Run` is a finite run with the list of its labels. It grows at
  the end, so the last step is the one an induction meets first.
* `System.Run.unique`: where the label decides the step, the labels of a run
  decide its end.
* `System.invariant` is the rule of inductive invariants: true at the
  start and kept by each step, so true in each reachable state.
* `System.invariant_of_allowed` is the same rule for the runs whose steps
  all meet a side condition.
* `System.runs_to_goal` is the rule of progress by a measure, and
  `System.run_to_goal` the same with one step at a time.
* `System.ofStep` is the system of a step function, where each list of
  labels is a run. `System.ofStep?` is that of a step function that may
  refuse a label.
* `System.run_of_foldlM` and `System.Run.Allowed.of_foldlM` find by
  evaluation that given labels are a run and meet a side condition.
* `Simulation` relates two systems step by step, and `Simulation.run`
  carries a whole run across.
* `System.SeenRun` is a run with what an observer sees of it.
  `WeakSimulation` relates two systems that show the same, where the second
  has steps that show nothing, and `WeakSimulation.run` finds for a run of
  the first a run of the second that looks the same.
-/

set_option autoImplicit false

namespace MiniRiscvOs.Lib

universe u v w

/-- A labelled transition system over states `σ` and labels `ε`. -/
structure System (σ : Type u) (ε : Type v) where
  init : σ → Prop
  step : σ → ε → σ → Prop

namespace System

variable {σ : Type u} {ε : Type v}

/-- A finite run from one state to another, with its labels in order. -/
inductive Run (M : System σ ε) : σ → List ε → σ → Prop
  | nil (s : σ) : Run M s [] s
  | snoc {s t u : σ} {es : List ε} {e : ε} :
      Run M s es t → M.step t e u → Run M s (es ++ [e]) u

/-- A state that some run from an initial state ends in. -/
def Reachable (M : System σ ε) (s : σ) : Prop :=
  ∃ s₀ es, M.init s₀ ∧ M.Run s₀ es s

variable {M : System σ ε}

/-- A step is a run of one label. -/
theorem Run.single {s t : σ} {e : ε} (h : M.step s e t) : M.Run s [e] t :=
  Run.snoc (Run.nil s) h

/-- Two runs that meet form one run. -/
theorem Run.append {s t u : σ} {es fs : List ε} (hst : M.Run s es t)
    (htu : M.Run t fs u) : M.Run s (es ++ fs) u := by
  induction htu with
  | nil => simpa using hst
  | snoc _ hstep ih =>
      rw [← List.append_assoc]
      exact Run.snoc ih hstep

/-- A run over a concatenation splits at the seam. Induction on the run
with the second list generalised, because a run grows at its end. -/
theorem Run.split {s u : σ} {es fs : List ε} (h : M.Run s (es ++ fs) u) :
    ∃ t, M.Run s es t ∧ M.Run t fs u := by
  induction fs using List.reverseRecOn generalizing u with
  | nil => exact ⟨u, by simpa using h, Run.nil u⟩
  | append_singleton fs f ih =>
      rw [← List.append_assoc] at h
      generalize hgs : (es ++ fs) ++ [f] = gs at h
      cases h with
      | nil => simp at hgs
      | snoc hrun hstep =>
          obtain ⟨rfl, hf⟩ := List.append_inj' hgs rfl
          obtain rfl : f = _ := by simpa using hf
          obtain ⟨t, h1, h2⟩ := ih hrun
          exact ⟨t, h1, Run.snoc h2 hstep⟩

/-- A run without labels stays where it is. -/
theorem Run.eq_of_nil {s t : σ} (h : M.Run s [] t) : t = s := by
  generalize hes : ([] : List ε) = es at h
  cases h with
  | nil => rfl
  | snoc _ _ => simp at hes

/-- The step in the middle of a run. -/
theorem Run.split_step {s u : σ} {es fs : List ε} {e : ε}
    (h : M.Run s (es ++ e :: fs) u) :
    ∃ t t', M.Run s es t ∧ M.step t e t' ∧ M.Run t' fs u := by
  have h' : M.Run s ((es ++ [e]) ++ fs) u := by simpa using h
  obtain ⟨t', h1, h2⟩ := h'.split
  generalize hgs : es ++ [e] = gs at h1
  cases h1 with
  | nil => simp at hgs
  | snoc hrun hstep =>
      obtain ⟨rfl, he⟩ := List.append_inj' hgs rfl
      obtain rfl : e = _ := by simpa using he
      exact ⟨_, _, hrun, hstep, h2⟩

/-- An initial state is reachable. -/
theorem Reachable.of_init {s : σ} (h : M.init s) : M.Reachable s :=
  ⟨s, [], h, Run.nil s⟩

/-- A step from a reachable state ends in a reachable state. -/
theorem Reachable.step {s t : σ} {e : ε} (h : M.Reachable s) (hst : M.step s e t) :
    M.Reachable t := by
  obtain ⟨s₀, es, hinit, hrun⟩ := h
  exact ⟨s₀, es ++ [e], hinit, Run.snoc hrun hst⟩

/-- A run from a reachable state ends in a reachable state. -/
theorem Reachable.run {s t : σ} {es : List ε} (h : M.Reachable s) (hst : M.Run s es t) :
    M.Reachable t := by
  obtain ⟨s₀, fs, hinit, hrun⟩ := h
  exact ⟨s₀, fs ++ es, hinit, hrun.append hst⟩

/-- A run keeps what each of its steps keeps. -/
theorem Run.preserves {I : σ → Prop} (hstep : ∀ s e t, I s → M.step s e t → I t)
    {s t : σ} {es : List ε} (hrun : M.Run s es t) (hs : I s) : I t := by
  induction hrun with
  | nil => exact hs
  | snoc _ hst ih => exact hstep _ _ _ ih hst

/-- In a system where the label decides the next state, the labels of a run
decide where it ends. -/
theorem Run.unique (hdet : ∀ s e t t', M.step s e t → M.step s e t' → t = t')
    {s t t' : σ} {es : List ε} (h : M.Run s es t) (h' : M.Run s es t') : t = t' := by
  induction h generalizing t' with
  | nil =>
      generalize hes : ([] : List ε) = es at h'
      cases h' with
      | nil => rfl
      | snoc _ _ => simp at hes
  | @snoc t u es e _ hstep ih =>
      generalize hes : es ++ [e] = fs at h'
      cases h' with
      | nil => simp at hes
      | snoc hrun' hstep' =>
          obtain ⟨rfl, hlast⟩ := List.append_inj' hes rfl
          obtain rfl : e = _ := by simpa using hlast
          obtain rfl := ih hrun'
          exact hdet _ _ _ _ hstep hstep'

/-- The rule of inductive invariants. -/
theorem invariant {I : σ → Prop} (hinit : ∀ s, M.init s → I s)
    (hstep : ∀ s e t, I s → M.step s e t → I t) {s : σ} (h : M.Reachable s) : I s := by
  obtain ⟨s₀, es, h₀, hrun⟩ := h
  exact hrun.preserves hstep (hinit s₀ h₀)

/-- The system of a step function: one initial state, and the label
decides the next state. -/
def ofStep (s₀ : σ) (step : σ → ε → σ) : System σ ε where
  init s := s = s₀
  step s e t := t = step s e

/-- Every list of labels is a run of a step function. -/
theorem ofStep_run (s₀ : σ) (step : σ → ε → σ) (s : σ) (es : List ε) :
    (ofStep s₀ step).Run s es (es.foldl step s) := by
  induction es using List.reverseRecOn with
  | nil => exact Run.nil s
  | append_singleton es e ih =>
      rw [List.foldl_append]
      exact Run.snoc ih rfl

/-- So every list of labels leads from the start to a reachable state. -/
theorem ofStep_reachable (s₀ : σ) (step : σ → ε → σ) (es : List ε) :
    (ofStep s₀ step).Reachable (es.foldl step s₀) :=
  ⟨s₀, es, rfl, ofStep_run s₀ step s₀ es⟩

/-- The system of a step function that may refuse a label. -/
def ofStep? (s₀ : σ) (step : σ → ε → Option σ) : System σ ε where
  init s := s = s₀
  step s e t := step s e = some t

/-- A list of labels is a run if a function that follows the step relation
accepts it. -/
theorem run_of_foldlM {step : σ → ε → Option σ}
    (hstep : ∀ s e t, step s e = some t → M.step s e t) {s t : σ} {es : List ε}
    (h : es.foldlM step s = some t) : M.Run s es t := by
  induction es using List.reverseRecOn generalizing t with
  | nil =>
      obtain rfl := Option.some.inj h
      exact Run.nil s
  | append_singleton es e ih =>
      rw [List.foldlM_append] at h
      obtain ⟨u, hu, hlast⟩ := Option.bind_eq_some_iff.mp h
      obtain ⟨t', ht', hend⟩ : ∃ t', step u e = some t' ∧ some t' = some t :=
        Option.bind_eq_some_iff.mp hlast
      obtain rfl := Option.some.inj hend
      exact Run.snoc (ih hu) (hstep u e t' ht')

/-- A list of labels that is not refused is a run. -/
theorem ofStep?_run {s₀ : σ} {step : σ → ε → Option σ} {s t : σ} {es : List ε}
    (h : es.foldlM step s = some t) : (ofStep? s₀ step).Run s es t :=
  run_of_foldlM (fun _ _ _ hst => hst) h

/-- A run is a list of labels that is not refused. -/
theorem foldlM_of_ofStep?_run {s₀ : σ} {step : σ → ε → Option σ} {s t : σ} {es : List ε}
    (h : (ofStep? s₀ step).Run s es t) : es.foldlM step s = some t := by
  induction h with
  | nil => rfl
  | @snoc t u es e _ hst ih =>
      have hlast : step t e = some u := hst
      rw [List.foldlM_append, ih]
      simp [hlast]

/-- The label decides the step. -/
theorem ofStep?_det {s₀ : σ} {step : σ → ε → Option σ} (s : σ) (e : ε) (t t' : σ)
    (h : (ofStep? s₀ step).step s e t) (h' : (ofStep? s₀ step).step s e t') : t = t' :=
  Option.some.inj (h.symm.trans h')

/-- The rule of progress: where from each state short of the goal a run leads
on, over labels that `ok` allows and to a smaller measure, a run over such
labels reaches the goal. Induction on the measure. -/
theorem runs_to_goal {I G : σ → Prop} {ok : ε → Prop} (μ : σ → Nat)
    (hnext : ∀ s, I s → ¬ G s → ∃ es t, M.Run s es t ∧ (∀ e ∈ es, ok e) ∧ I t ∧ μ t < μ s)
    {s : σ} (hs : I s) : ∃ es t, M.Run s es t ∧ (∀ e ∈ es, ok e) ∧ I t ∧ G t := by
  generalize hn : μ s = n
  induction n using Nat.strongRecOn generalizing s with
  | ind n ih =>
      by_cases hg : G s
      · exact ⟨[], s, Run.nil s, by simp, hs, hg⟩
      · obtain ⟨fs, t, hlead, hfs, ht, hlt⟩ := hnext s hs hg
        obtain ⟨es, u, hrun, hes, hu, hgoal⟩ := ih (μ t) (hn ▸ hlt) ht rfl
        refine ⟨fs ++ es, u, hlead.append hrun, fun f hf => ?_, hu, hgoal⟩
        rcases List.mem_append.mp hf with hf | hf
        · exact hfs f hf
        · exact hes f hf

/-- The rule of progress with one step at a time. -/
theorem run_to_goal {I G : σ → Prop} {ok : ε → Prop} (μ : σ → Nat)
    (hstep : ∀ s, I s → ¬ G s → ∃ e t, ok e ∧ M.step s e t ∧ I t ∧ μ t < μ s) {s : σ} (hs : I s) :
    ∃ es t, M.Run s es t ∧ (∀ e ∈ es, ok e) ∧ I t ∧ G t := by
  refine runs_to_goal μ (fun s hs hg => ?_) hs
  obtain ⟨e, t, he, hst, ht, hlt⟩ := hstep s hs hg
  exact ⟨[e], t, Run.single hst, fun f hf => List.mem_singleton.mp hf ▸ he, ht, hlt⟩

/-- Every step of the run meets the condition `ok` on its source state
and its label. -/
def Run.Allowed (M : System σ ε) (ok : σ → ε → Prop) (s₀ : σ) (es : List ε) : Prop :=
  ∀ pre e post t, es = pre ++ e :: post → M.Run s₀ pre t → ok t e

/-- The beginning of an allowed run is allowed. -/
theorem Run.Allowed.left {ok : σ → ε → Prop} {s₀ : σ} {es fs : List ε}
    (h : Run.Allowed M ok s₀ (es ++ fs)) : Run.Allowed M ok s₀ es := by
  intro pre f post t hes hrun
  exact h pre f (post ++ fs) t (by simp [hes]) hrun

/-- An allowed run stays allowed when its last label is dropped. -/
theorem Run.Allowed.init {ok : σ → ε → Prop} {s₀ : σ} {es : List ε} {e : ε}
    (h : Run.Allowed M ok s₀ (es ++ [e])) : Run.Allowed M ok s₀ es := h.left

/-- Where the label decides the step, a run is allowed when each of its own
steps meets the condition. -/
theorem Run.Allowed.of_steps (hdet : ∀ s e t t', M.step s e t → M.step s e t' → t = t')
    {ok : σ → ε → Prop} {s₀ s : σ} {es : List ε} (hrun : M.Run s₀ es s)
    (h : ∀ pre e post t t', M.Run s₀ pre t → M.step t e t' → M.Run t' post s → ok t e) :
    Run.Allowed M ok s₀ es := by
  rintro pre e post t rfl hpre
  obtain ⟨t₁, t₂, hto, hstep, hrest⟩ := hrun.split_step
  obtain rfl := hto.unique hdet hpre
  exact h pre e post t₁ t₂ hto hstep hrest

/-- Where a function accepts a list of labels and decides each step it
accepts, its result is where each run ends. Induction on the run. -/
theorem Run.eq_of_foldlM {step : σ → ε → Option σ}
    (hdet : ∀ s e t t', step s e = some t → M.step s e t' → t = t') {s t t' : σ} {es : List ε}
    (hrun : M.Run s es t') (h : es.foldlM step s = some t) : t = t' := by
  induction hrun generalizing t with
  | nil => exact (Option.some.inj h).symm
  | snoc _ hst ih =>
      rw [List.foldlM_append] at h
      obtain ⟨u, hu, hlast⟩ := Option.bind_eq_some_iff.mp h
      obtain ⟨v, hv, hend⟩ := Option.bind_eq_some_iff.mp hlast
      obtain rfl := ih hu
      obtain rfl := Option.some.inj hend
      exact hdet _ _ _ _ hv hst

/-- A list of labels is allowed if a function accepts it that decides each
step it accepts, and accepts only what the condition allows. -/
theorem Run.Allowed.of_foldlM {step : σ → ε → Option σ} {ok : σ → ε → Prop}
    (hdet : ∀ s e t t', step s e = some t → M.step s e t' → t = t')
    (hok : ∀ s e t, step s e = some t → ok s e) {s₀ s : σ} {es : List ε}
    (h : es.foldlM step s₀ = some s) : Run.Allowed M ok s₀ es := by
  rintro pre e post t rfl hpre
  rw [List.foldlM_append] at h
  obtain ⟨u, hu, hrest⟩ := Option.bind_eq_some_iff.mp h
  obtain ⟨v, hv, -⟩ := Option.bind_eq_some_iff.mp hrest
  obtain rfl := hpre.eq_of_foldlM hdet hu
  exact hok _ e v hv

/-- The rule of inductive invariants for the runs whose steps all meet a
side condition. -/
theorem invariant_of_allowed {I : σ → Prop} {ok : σ → ε → Prop}
    (hstep : ∀ s e t, I s → ok s e → M.step s e t → I t)
    {s₀ s : σ} {es : List ε} (h₀ : I s₀) (hrun : M.Run s₀ es s)
    (hok : Run.Allowed M ok s₀ es) : I s := by
  induction hrun with
  | nil => exact h₀
  | @snoc t u es e hrun hst ih =>
      exact hstep _ _ _ (ih hok.init) (hok es e [] t rfl hrun) hst

end System

/-- A forward simulation of `M` by `N`: related initial states, and each
step of `M` matched by a run of `N` over the labels `obs e`. -/
structure Simulation {σ : Type u} {τ : Type w} {ε δ : Type v}
    (M : System σ ε) (N : System τ δ) (obs : ε → List δ) where
  rel : σ → τ → Prop
  init : ∀ s, M.init s → ∃ t, N.init t ∧ rel s t
  step : ∀ s e s' t, rel s t → M.step s e s' → ∃ t', N.Run t (obs e) t' ∧ rel s' t'

/-- A simulation carries a run across, labels observed in order. -/
theorem Simulation.run {σ : Type u} {τ : Type w} {ε δ : Type v}
    {M : System σ ε} {N : System τ δ} {obs : ε → List δ} (S : Simulation M N obs)
    {s s' : σ} {t : τ} {es : List ε} (hrel : S.rel s t) (hrun : M.Run s es s') :
    ∃ t', N.Run t (es.flatMap obs) t' ∧ S.rel s' t' := by
  induction hrun with
  | nil => exact ⟨t, System.Run.nil t, hrel⟩
  | snoc _ hst ih =>
      obtain ⟨t₁, hrun₁, hrel₁⟩ := ih
      obtain ⟨t₂, hrun₂, hrel₂⟩ := S.step _ _ _ _ hrel₁ hst
      exact ⟨t₂, by simpa using hrun₁.append hrun₂, hrel₂⟩

/-! ### Runs as an observer sees them -/

/-- A run, and what is seen of it: the step `e` from `s` shows `seen s e`. -/
inductive System.SeenRun {σ : Type u} {ε : Type v} {ω : Type w} (M : System σ ε)
    (seen : σ → ε → List ω) : σ → List ε → List ω → σ → Prop
  | nil (s : σ) : SeenRun M seen s [] [] s
  | snoc {s t u : σ} {es : List ε} {ws : List ω} {e : ε} :
      SeenRun M seen s es ws t → M.step t e u → SeenRun M seen s (es ++ [e]) (ws ++ seen t e) u

/-- It is a run. -/
theorem System.SeenRun.run {σ : Type u} {ε : Type v} {ω : Type w} {M : System σ ε}
    {seen : σ → ε → List ω} {s t : σ} {es : List ε} {ws : List ω}
    (h : M.SeenRun seen s es ws t) : M.Run s es t := by
  induction h with
  | nil => exact Run.nil _
  | snoc _ hst ih => exact Run.snoc ih hst

/-- Something is seen of every run. -/
theorem System.Run.seen {σ : Type u} {ε : Type v} {ω : Type w} {M : System σ ε} {s t : σ}
    {es : List ε} (h : M.Run s es t) (seen : σ → ε → List ω) :
    ∃ ws, M.SeenRun seen s es ws t := by
  induction h with
  | nil => exact ⟨[], .nil _⟩
  | snoc _ hst ih =>
      obtain ⟨ws, hws⟩ := ih
      exact ⟨_, .snoc hws hst⟩

universe x y

/-- A forward simulation of `M` by `N` for the steps of `M` that `ok` allows.
A step of `M` is matched by a run of `N` whose visible labels are what the
step shows. -/
structure WeakSimulation {σ : Type u} {τ : Type v} {ε : Type w} {δ : Type x} {ω : Type y}
    (M : System σ ε) (seen : σ → ε → List ω) (ok : σ → ε → Prop) (N : System τ δ)
    (visible : δ → Option ω) where
  rel : σ → τ → Prop
  step : ∀ s e s' t, rel s t → ok s e → M.step s e s' →
    ∃ t' fs, N.Run t fs t' ∧ fs.filterMap visible = seen s e ∧ rel s' t'

/-- A run of allowed steps looks like some run of `N`. -/
theorem WeakSimulation.run {σ : Type u} {τ : Type v} {ε : Type w} {δ : Type x} {ω : Type y}
    {M : System σ ε} {seen : σ → ε → List ω} {ok : σ → ε → Prop} {N : System τ δ}
    {visible : δ → Option ω} (S : WeakSimulation M seen ok N visible) {s s' : σ} {t : τ}
    {es : List ε} {ws : List ω} (hrel : S.rel s t) (hrun : M.SeenRun seen s es ws s')
    (hok : System.Run.Allowed M ok s es) :
    ∃ t' fs, N.Run t fs t' ∧ fs.filterMap visible = ws ∧ S.rel s' t' := by
  induction hrun with
  | nil => exact ⟨t, [], System.Run.nil t, rfl, hrel⟩
  | @snoc u v es ws e hrun hst ih =>
      obtain ⟨t₁, fs, hrun₁, hfs, hrel₁⟩ := ih hok.init
      obtain ⟨t₂, gs, hrun₂, hgs, hrel₂⟩ :=
        S.step _ _ _ _ hrel₁ (hok es e [] u rfl hrun.run) hst
      exact ⟨t₂, fs ++ gs, hrun₁.append hrun₂, by rw [List.filterMap_append, hfs, hgs], hrel₂⟩

end MiniRiscvOs.Lib
