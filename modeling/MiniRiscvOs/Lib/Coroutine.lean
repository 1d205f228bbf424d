import Mathlib.Data.List.Basic
import MiniRiscvOs.Lib.System

/-!
# `MiniRiscvOs.Lib.Coroutine`: coroutines under a round-robin scheduler

A scheduler and numbered coroutines pass one thread of control to and fro.
Each of them, while it does not run, is a continuation of an arbitrary type
`κ`. The scheduler activates the coroutines in turn, a coroutine yields to
the scheduler, and what happens in between is not observed.

* `Coroutines.system` is the machine: it keeps the continuations.
* `RoundRobin` is what a run looks like from outside, as a statement about
  the list of its events. It mentions no state: the `k`-th activation is of
  coroutine `k % n`, a coroutine goes on where it last yielded, and the
  scheduler where it last activated one.
* `Coroutines.roundRobin` says that the runs of the machine look so.
-/

set_option autoImplicit false

namespace MiniRiscvOs.Lib

universe u

/-- What an observer sees: who hands over control, the continuation it
leaves behind, and the one that is entered. -/
inductive CoEvent (κ : Type u) where
  | activate (i : Nat) (saved entered : κ)
  | yield (i : Nat) (saved entered : κ)

namespace CoEvent

variable {κ : Type u}

/-- The coroutine an event activates. -/
def activated : CoEvent κ → Option Nat
  | .activate i _ _ => some i
  | .yield _ _ _ => none

/-- What coroutine `i` leaves behind in a yield of its own. -/
def yielded (i : Nat) : CoEvent κ → Option κ
  | .activate _ _ _ => none
  | .yield j saved _ => if j = i then some saved else none

/-- What the scheduler leaves behind. -/
def left : CoEvent κ → Option κ
  | .activate _ saved _ => some saved
  | .yield _ _ _ => none

end CoEvent

/-! ### Events as an observer counts them -/

section Trace

variable {κ : Type u}

/-- The coroutines activated, in order. -/
def activations (es : List (CoEvent κ)) : List Nat := es.filterMap CoEvent.activated

/-- Where coroutine `i` last yielded. -/
def lastYield (i : Nat) (es : List (CoEvent κ)) : Option κ :=
  (es.filterMap (CoEvent.yielded i)).getLast?

/-- Where the scheduler last activated a coroutine. -/
def lastLeft (es : List (CoEvent κ)) : Option κ := (es.filterMap CoEvent.left).getLast?

/-- The coroutine that has control after the events, if one has. -/
def holder (es : List (CoEvent κ)) : Option Nat := es.getLast?.bind CoEvent.activated

/-- An activation comes last in the order of activations. -/
@[simp] theorem activations_activate (es : List (CoEvent κ)) (i : Nat) (k l : κ) :
    activations (es ++ [.activate i k l]) = activations es ++ [i] := by
  simp [activations, CoEvent.activated]

/-- A yield adds nothing to the order of activations. -/
@[simp] theorem activations_yield (es : List (CoEvent κ)) (i : Nat) (k l : κ) :
    activations (es ++ [.yield i k l]) = activations es := by
  simp [activations, CoEvent.activated]

/-- An activation leaves every last yield as it was. -/
@[simp] theorem lastYield_activate (j : Nat) (es : List (CoEvent κ)) (i : Nat) (k l : κ) :
    lastYield j (es ++ [.activate i k l]) = lastYield j es := by
  simp [lastYield, CoEvent.yielded]

/-- A yield is the last one of the coroutine that makes it. -/
@[simp] theorem lastYield_yield_self (es : List (CoEvent κ)) (i : Nat) (k l : κ) :
    lastYield i (es ++ [.yield i k l]) = some k := by
  simp [lastYield, CoEvent.yielded]

/-- Another coroutine's yield leaves the last yield as it was. -/
theorem lastYield_yield_of_ne {i j : Nat} (h : i ≠ j) (es : List (CoEvent κ)) (k l : κ) :
    lastYield j (es ++ [.yield i k l]) = lastYield j es := by
  simp [lastYield, CoEvent.yielded, h]

/-- An activation is where the scheduler left off last. -/
@[simp] theorem lastLeft_activate (es : List (CoEvent κ)) (i : Nat) (k l : κ) :
    lastLeft (es ++ [.activate i k l]) = some k := by
  simp [lastLeft, CoEvent.left]

/-- A yield leaves the last point of the scheduler as it was. -/
@[simp] theorem lastLeft_yield (es : List (CoEvent κ)) (i : Nat) (k l : κ) :
    lastLeft (es ++ [.yield i k l]) = lastLeft es := by
  simp [lastLeft, CoEvent.left]

/-- After an activation the activated coroutine has control. -/
@[simp] theorem holder_activate (es : List (CoEvent κ)) (i : Nat) (k l : κ) :
    holder (es ++ [.activate i k l]) = some i := by
  simp [holder, CoEvent.activated]

/-- After a yield no coroutine has control. -/
@[simp] theorem holder_yield (es : List (CoEvent κ)) (i : Nat) (k l : κ) :
    holder (es ++ [.yield i k l]) = none := by
  simp [holder, CoEvent.activated]

/-- The events of `n` coroutines under round-robin scheduling, where
coroutine `i` starts at `start i`. -/
structure RoundRobin (n : Nat) (start : Nat → κ) (es : List (CoEvent κ)) : Prop where
  /-- The `k`-th activation is of coroutine `k % n`. -/
  order : activations es = (List.range (activations es).length).map (· % n)
  /-- The scheduler activates when it has control, and a coroutine goes on
  where it last yielded. -/
  resumes : ∀ pre i saved entered post, es = pre ++ .activate i saved entered :: post →
    holder pre = none ∧ entered = (lastYield i pre).getD (start i)
  /-- A coroutine yields when it has control, and the scheduler goes on
  where it last activated one. -/
  returns : ∀ pre i saved entered post, es = pre ++ .yield i saved entered :: post →
    holder pre = some i ∧ lastLeft pre = some entered

end Trace

/-! ### The machine -/

/-- The continuations of those who do not run. -/
structure Coroutines (κ : Type u) where
  cont : Nat → κ
  sched : κ
  running : Option Nat
  count : Nat

namespace Coroutines

variable {κ : Type u}

/-- `n` coroutines that start at `start`. -/
def system (n : Nat) (start : Nat → κ) : System (Coroutines κ) (CoEvent κ) where
  init s := s.cont = start ∧ s.running = none ∧ s.count = 0
  step s e t :=
    match e with
    | .activate i saved entered =>
        s.running = none ∧ i = s.count % n ∧ entered = s.cont i ∧
          t = { s with sched := saved, running := some i, count := s.count + 1 }
    | .yield i saved entered =>
        s.running = some i ∧ entered = s.sched ∧
          t = { s with cont := Function.update s.cont i saved, running := none }

/-- The state of the machine, read off the events so far. -/
structure Follows (n : Nat) (start : Nat → κ) (es : List (CoEvent κ)) (s : Coroutines κ) :
    Prop where
  cont : ∀ i, s.cont i = (lastYield i es).getD (start i)
  count : s.count = (activations es).length
  running : s.running = holder es
  sched : ∀ i, s.running = some i → lastLeft es = some s.sched
  order : activations es = (List.range s.count).map (· % n)

variable {n : Nat} {start : Nat → κ}

/-- One event keeps the state in step with the list of events. -/
theorem Follows.step {es : List (CoEvent κ)} {s t : Coroutines κ} {e : CoEvent κ}
    (h : Follows n start es s) (hstep : (system n start).step s e t) :
    Follows n start (es ++ [e]) t := by
  cases e with
  | activate i saved entered =>
      obtain ⟨-, hi, -, rfl⟩ := hstep
      constructor
      · intro j
        rw [lastYield_activate]
        exact h.cont j
      · simp [h.count]
      · simp
      · simp
      · rw [activations_activate, h.order, hi]
        simp [List.range_succ]
  | yield i saved entered =>
      obtain ⟨-, -, rfl⟩ := hstep
      constructor
      · intro j
        -- Only the coroutine that yields has a new last yield.
        by_cases hij : i = j
        · subst hij
          simp
        · rw [lastYield_yield_of_ne hij, ← h.cont j]
          exact Function.update_of_ne (Ne.symm hij) ..
      · simp [h.count]
      · simp
      · simp
      · rw [activations_yield]
        exact h.order

/-- A run keeps them in step. -/
theorem Follows.run {s t : Coroutines κ} {es : List (CoEvent κ)}
    (hinit : (system n start).init s) (hrun : (system n start).Run s es t) :
    Follows n start es t := by
  induction hrun with
  | nil =>
      obtain ⟨hcont, hrunning, hcount⟩ := hinit
      exact ⟨fun i => congrFun hcont i, hcount, hrunning, by simp [hrunning], by simp [hcount]; rfl⟩
  | snoc _ hstep ih => exact ih.step hstep

/-- The runs of the machine are round-robin. -/
theorem roundRobin {s t : Coroutines κ} {es : List (CoEvent κ)}
    (hinit : (system n start).init s) (hrun : (system n start).Run s es t) :
    RoundRobin n start es where
  order := by
    have h := Follows.run hinit hrun
    rw [← h.count]
    exact h.order
  resumes pre i saved entered post hes := by
    subst hes
    obtain ⟨u, _, hpre, ⟨hrunning, -, hentered, -⟩, -⟩ := hrun.split_step
    have h := Follows.run hinit hpre
    exact ⟨h.running ▸ hrunning, hentered.trans (h.cont i)⟩
  returns pre i saved entered post hes := by
    subst hes
    obtain ⟨u, _, hpre, ⟨hrunning, hentered, -⟩, -⟩ := hrun.split_step
    have h := Follows.run hinit hpre
    exact ⟨h.running ▸ hrunning, hentered ▸ h.sched i hrunning⟩

end Coroutines

end MiniRiscvOs.Lib
