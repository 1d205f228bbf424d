import Mathlib.Data.Nat.Init
import Mathlib.Tactic.Choose
import MiniRiscvOs.Lib.System

/-!
# `MiniRiscvOs.Lib.Path`: infinite runs and what they lead to

A finite run says what can happen. What must happen is a matter of infinite
runs whose agents do not stop, such as tasks under a scheduler, a device and an
interrupt handler.

* `System.Path` is an infinite run. It may start in the middle of others.
* `Path.Fair` says of an agent that it does not stop while it has work: again
  and again it makes a step, or there is nothing for it to do.
* `Path.LeadsTo p q`: whenever `p` holds, `q` holds then or later.
* `Path.leadsTo_of_measure` is the rule of progress. Short of the goal there is
  a measure that no step takes up, and an agent, the helper, whose steps take it
  down. The helper may change with the measure only.
* `System.withIdle` is the system among others: it has a step that does nothing,
  in which somebody else makes one. `Path.map` takes a path of a larger system to
  one of the smaller, where each step of the larger is one of the smaller or none.
* `Path.rest` is a path from some time on, where from then on all labels are of a
  kind (`System.only`).
* `Path.of_run` puts a finite run before an infinite one, and `Path.stutter`
  stays for ever where a step leads back.
-/

set_option autoImplicit false

namespace MiniRiscvOs.Lib

universe u v w x y

namespace System

/-- The system with a step that does nothing. -/
def withIdle {σ : Type u} {ε : Type v} (M : System σ ε) : System σ (Option ε) where
  init := M.init
  step s e t :=
    match e with
    | some e => M.step s e t
    | none => t = s

section Idle

variable {σ : Type u} {ε : Type v} {M : System σ ε}

/-- A run is one in which nobody waits. -/
theorem Run.withIdle {s t : σ} {es : List ε} (h : M.Run s es t) :
    M.withIdle.Run s (es.map some) t := by
  induction h with
  | nil => exact Run.nil _
  | snoc _ hst ih =>
      rw [List.map_append]
      exact ih.snoc hst

/-- Nothing else can be reached. -/
theorem Reachable.of_withIdle {s : σ} (h : M.withIdle.Reachable s) : M.Reachable s := by
  refine invariant (M := M.withIdle) (I := M.Reachable) (fun s hs => .of_init hs) ?_ h
  rintro s (_ | e) t hs hst
  · obtain rfl := hst
    exact hs
  · exact hs.step hst

/-- Idle steps keep every reachable state reachable. -/
theorem Reachable.withIdle {s : σ} (h : M.Reachable s) : M.withIdle.Reachable s := by
  obtain ⟨s₀, es, hinit, hrun⟩ := h
  exact ⟨s₀, _, hinit, hrun.withIdle⟩

end Idle

/-- The system from any reachable state on, with the labels that `ok` allows. -/
def only {σ : Type u} {ε : Type v} (M : System σ ε) (ok : ε → Prop) : System σ ε where
  init := M.Reachable
  step s e t := ok e ∧ M.step s e t

/-- An infinite run. `label n` leads from `state n` to the next state. -/
structure Path {σ : Type u} {ε : Type v} (M : System σ ε) where
  state : Nat → σ
  label : Nat → ε
  steps : ∀ n, M.step (state n) (label n) (state (n + 1))

namespace Path

variable {σ : Type u} {ε : Type v} {κ : Type w} {M : System σ ε} (P : M.Path)

/-- Again and again the agent makes a step, or it has nothing to do. -/
def Fair (acts : σ → ε → Prop) (busy : σ → Prop) : Prop :=
  ∀ n, ∃ m, n ≤ m ∧ (acts (P.state m) (P.label m) ∨ ¬ busy (P.state m))

/-- Whenever `p` holds, `q` holds then or later. -/
def LeadsTo (p q : σ → Prop) : Prop :=
  ∀ n, p (P.state n) → ∃ m, n ≤ m ∧ q (P.state m)

/-- The states of a path from a reachable one are reachable. -/
theorem reachable (h : M.Reachable (P.state 0)) (n : Nat) : M.Reachable (P.state n) := by
  induction n with
  | zero => exact h
  | succ n ih => exact ih.step (P.steps n)

variable {P} {p q r : σ → Prop}

/-- An agent that has nothing to do from `k` on has stopped in its own right. -/
theorem fair_of_idle {acts : σ → ε → Prop} {busy : σ → Prop} (k : Nat)
    (h : ∀ n, ¬ busy (P.state (k + n))) : P.Fair acts busy :=
  fun n => ⟨k + n, Nat.le_add_left n k, Or.inr (h n)⟩

/-- Leading to is transitive. -/
theorem LeadsTo.trans (hpq : P.LeadsTo p q) (hqr : P.LeadsTo q r) : P.LeadsTo p r := by
  intro n hp
  obtain ⟨m, hnm, hq⟩ := hpq n hp
  obtain ⟨k, hmk, hr⟩ := hqr m hq
  exact ⟨k, Nat.le_trans hnm hmk, hr⟩

/-- The next step of an agent: `p` holds until then, and the agent is busy while it
does. -/
theorem exists_act (h₀ : M.Reachable (P.state 0)) {acts : σ → ε → Prop} {busy : σ → Prop}
    (hfair : P.Fair acts busy) (hbusy : ∀ s, p s → busy s)
    (hstep : ∀ s e t, M.Reachable s → p s → M.step s e t → acts s e ∨ p t) {n : Nat}
    (hp : p (P.state n)) : ∃ m, n ≤ m ∧ p (P.state m) ∧ acts (P.state m) (P.label m) := by
  by_contra hnone
  have hkeeps : ∀ m, n ≤ m → p (P.state m) := by
    intro m hm
    induction m, hm using Nat.le_induction with
    | base => exact hp
    | succ m hm ih =>
        exact (hstep _ _ _ (P.reachable h₀ m) ih (P.steps m)).resolve_left
          fun hacts => hnone ⟨m, hm, ih, hacts⟩
  obtain ⟨m, hnm, hacts | hidle⟩ := hfair n
  · exact hnone ⟨m, hnm, hkeeps m hnm, hacts⟩
  · exact hidle (hbusy _ (hkeeps m hnm))

/-- The rule for one agent: `p` holds until `q` does, the agent is busy while it
does, and each of its steps ends there. -/
theorem leadsTo_of_agent (h₀ : M.Reachable (P.state 0)) {acts : σ → ε → Prop} {busy : σ → Prop}
    (hfair : P.Fair acts busy) (hbusy : ∀ s, p s → ¬ q s → busy s)
    (hstep : ∀ s e t, M.Reachable s → p s → ¬ q s → M.step s e t → q t ∨ (p t ∧ ¬ acts s e)) :
    P.LeadsTo p q := by
  intro n hp
  by_contra hnone
  have hnot : ∀ m, n ≤ m → ¬ q (P.state m) := fun m hm hq => hnone ⟨m, hm, hq⟩
  have hnext : ∀ m, n ≤ m → p (P.state m) → p (P.state (m + 1)) ∧ ¬ acts (P.state m) (P.label m) :=
    fun m hm hpm => (hstep _ _ _ (P.reachable h₀ m) hpm (hnot m hm) (P.steps m)).resolve_left
      (hnot _ (Nat.le_succ_of_le hm))
  have hkeeps : ∀ m, n ≤ m → p (P.state m) := by
    intro m hm
    induction m, hm using Nat.le_induction with
    | base => exact hp
    | succ m hm ih => exact (hnext m hm ih).1
  obtain ⟨m, hnm, hacts | hidle⟩ := hfair n
  · exact (hnext m hnm (hkeeps m hnm)).2 hacts
  · exact hidle (hbusy _ (hkeeps m hnm) (hnot m hnm))

/-- The rule of progress. Induction on the measure. -/
theorem leadsTo_of_measure (h₀ : M.Reachable (P.state 0)) (μ : σ → Nat) (helper : σ → κ)
    {acts : κ → σ → ε → Prop} {busy : κ → σ → Prop} (hfair : ∀ k, P.Fair (acts k) (busy k))
    (hbusy : ∀ s, p s → ¬ q s → busy (helper s) s)
    (hstep : ∀ s e t, M.Reachable s → p s → ¬ q s → M.step s e t →
      q t ∨ (p t ∧ (μ t < μ s ∨ (μ t = μ s ∧ helper t = helper s ∧ ¬ acts (helper s) s e)))) :
    P.LeadsTo p q := by
  -- As long as the measure is `k` the helper is the same.
  have hdown : ∀ k a, P.LeadsTo (fun s => p s ∧ μ s = k ∧ helper s = a)
      (fun s => q s ∨ (p s ∧ μ s < k)) := by
    intro k a
    refine leadsTo_of_agent h₀ (hfair a) ?_ ?_
    · rintro s ⟨hp, -, rfl⟩ hq
      exact hbusy s hp fun h => hq (Or.inl h)
    · rintro s e t hs ⟨hp, rfl, rfl⟩ hq hst
      rcases hstep s e t hs hp (fun h => hq (Or.inl h)) hst with
        hqt | ⟨hpt, hlt | ⟨heq, hsame, hnot⟩⟩
      · exact Or.inl (Or.inl hqt)
      · exact Or.inl (Or.inr ⟨hpt, hlt⟩)
      · exact Or.inr ⟨⟨hpt, heq, hsame⟩, hnot⟩
  intro n
  generalize hk : μ (P.state n) = k
  induction k using Nat.strongRecOn generalizing n with
  | ind k ih =>
      intro hp
      obtain ⟨m, hnm, hq | ⟨hpm, hlt⟩⟩ := hdown k _ n ⟨hp, hk, rfl⟩
      · exact ⟨m, hnm, hq⟩
      · obtain ⟨l, hml, hq⟩ := ih _ hlt m rfl hpm
        exact ⟨l, Nat.le_trans hnm hml, hq⟩

/-! ### Paths -/

/-- A path of a larger system is one of the smaller among others. -/
def map {τ : Type x} {δ : Type y} {N : System τ δ} (P : M.Path) (h₀ : M.Reachable (P.state 0))
    (f : σ → τ) (g : σ → ε → Option δ)
    (hstep : ∀ s e t, M.Reachable s → M.step s e t → N.withIdle.step (f s) (g s e) (f t)) :
    N.withIdle.Path where
  state n := f (P.state n)
  label n := g (P.state n) (P.label n)
  steps n := hstep _ _ _ (P.reachable h₀ n) (P.steps n)

/-- The rest of a path, with labels of a kind only. -/
def rest (P : M.Path) (ok : ε → Prop) (n : Nat) (h : ∀ m, n ≤ m → ok (P.label m)) :
    (M.only ok).Path where
  state k := P.state (n + k)
  label k := P.label (n + k)
  steps k := ⟨h _ (Nat.le_add_right n k), P.steps (n + k)⟩

/-- What is left of a fair path is fair. -/
theorem Fair.rest {ok : ε → Prop} {acts : σ → ε → Prop} {busy : σ → Prop}
    (hfair : P.Fair acts busy) (n : Nat) (h : ∀ m, n ≤ m → ok (P.label m)) :
    (P.rest ok n h).Fair acts busy := by
  intro k
  obtain ⟨m, hm, hagent⟩ := hfair (n + k)
  obtain ⟨d, rfl⟩ := Nat.exists_eq_add_of_le (Nat.le_trans (Nat.le_add_right n k) hm)
  exact ⟨d, Nat.le_of_add_le_add_left hm, hagent⟩

/-- One step, and then a path. -/
def cons {s : σ} {e : ε} (Q : M.Path) (h : M.step s e (Q.state 0)) : M.Path where
  state := fun | 0 => s | n + 1 => Q.state n
  label := fun | 0 => e | n + 1 => Q.label n
  steps := fun | 0 => h | n + 1 => Q.steps n

/-- A run, and then a path. Induction on the run, which grows at its end. -/
theorem of_run {s t : σ} {es : List ε} (h : M.Run s es t) (Q : M.Path) (hQ : Q.state 0 = t) :
    ∃ P : M.Path, P.state 0 = s ∧ (∀ n, n < es.length → P.label n ∈ es) ∧
      ∀ n, P.state (es.length + n) = Q.state n ∧ P.label (es.length + n) = Q.label n := by
  induction h generalizing Q with
  | nil => exact ⟨Q, hQ, fun n hn => absurd hn (Nat.not_lt_zero n), fun n => by simp⟩
  | @snoc t u es e _ hst ih =>
      obtain ⟨P, hP, hfirst, hrest⟩ := ih (Q.cons (hQ ▸ hst)) rfl
      refine ⟨P, hP, fun n hn => ?_, fun n => ?_⟩
      · rw [List.length_append, List.length_singleton] at hn
        rcases Nat.lt_succ_iff_lt_or_eq.mp hn with hlt | rfl
        · exact List.mem_append_left _ (hfirst n hlt)
        · exact List.mem_append_right _ (List.mem_singleton.mpr (hrest 0).2)
      · have hlen : (es ++ [e]).length + n = es.length + (n + 1) := by simp; omega
        rw [hlen]
        exact hrest (n + 1)

/-- Where one can always go on, there is a path that does. -/
theorem exists_path {I : σ → Prop} {ok : ε → Prop}
    (hnext : ∀ s, I s → ∃ e t, ok e ∧ M.step s e t ∧ I t) {s : σ} (hs : I s) :
    ∃ P : M.Path, P.state 0 = s ∧ ∀ n, ok (P.label n) := by
  choose label next hok hstep hkeeps using hnext
  let after : Nat → {s // I s} := fun n =>
    Nat.rec ⟨s, hs⟩ (fun _ s => ⟨next s.1 s.2, hkeeps s.1 s.2⟩) n
  exact ⟨⟨fun n => (after n).1, fun n => label _ (after n).2, fun n => hstep _ (after n).2⟩, rfl,
    fun n => hok _ (after n).2⟩

/-- For ever the step `e` from `s` to `s`. -/
def stutter {s : σ} {e : ε} (h : M.step s e s) : M.Path where
  state _ := s
  label _ := e
  steps _ := h

/-- The state before the `n`-th label of an infinite list. -/
def stateAt (s₀ : σ) (step : σ → ε → σ) (label : Nat → ε) : Nat → σ
  | 0 => s₀
  | n + 1 => step (stateAt s₀ step label n) (label n)

/-- Every infinite list of labels is a path of a step function. -/
def ofLabels (s₀ : σ) (step : σ → ε → σ) (label : Nat → ε) : (ofStep s₀ step).Path where
  state := stateAt s₀ step label
  label := label
  steps _ := rfl

end Path

end System

end MiniRiscvOs.Lib
