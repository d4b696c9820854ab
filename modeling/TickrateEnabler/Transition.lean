import Mathlib.Logic.Basic
import Mathlib.Data.List.Basic

/-!
# Runs of a transition function

`run` folds a total step function over a list of operations. `Along` evaluates a
condition on each operation in the state it is called in; an invariant that operations
meeting it keep holds after the run (`run_invariant`). Two machines that keep the same
observations for one more step exactly while a condition holds keep them on a whole
run exactly when every step meets that condition (`lockstep_iff`).
-/

namespace Transition

variable {σ τ ο : Type*}

/-- The state after the operations `os`, in order. -/
def run (step : σ → ο → σ) (s : σ) (os : List ο) : σ :=
  os.foldl step s

variable {step : σ → ο → σ} {step' : τ → ο → τ}

@[simp] theorem run_nil (s : σ) : run step s [] = s :=
  rfl

@[simp] theorem run_cons (s : σ) (o : ο) (os : List ο) :
    run step s (o :: os) = run step (step s o) os :=
  rfl

@[simp] theorem run_append (s : σ) (os os' : List ο) :
    run step s (os ++ os') = run step (run step s os) os' :=
  List.foldl_append

/-- Each operation of the run meets `ok` in the state it is called in. -/
def Along (step : σ → ο → σ) (ok : σ → ο → Prop) : σ → List ο → Prop
  | _, [] => True
  | s, o :: os => ok s o ∧ Along step ok (step s o) os

/-- Whether a run meets a decidable condition can be computed. -/
instance decidableAlong (step : σ → ο → σ) (ok : σ → ο → Prop) [∀ s o, Decidable (ok s o)] :
    ∀ s os, Decidable (Along step ok s os)
  | _, [] => inferInstanceAs (Decidable True)
  | s, o :: os =>
    have := decidableAlong step ok (step s o) os
    inferInstanceAs (Decidable (_ ∧ _))

/-- An invariant that each operation meeting `ok` keeps holds after the run. -/
theorem run_invariant (Inv : σ → Prop) {ok : σ → ο → Prop}
    (hstep : ∀ s o, Inv s → ok s o → Inv (step s o)) {os : List ο} {s : σ} (hs : Inv s)
    (hos : Along step ok s os) : Inv (run step s os) := by
  induction os generalizing s with
  | nil => exact hs
  | cons o os ih => exact ih (hstep s o hs hos.1) hos.2

/-- A property of every prefix of `o :: os` is one of `[]` and of `o` before every
prefix of `os`. -/
theorem forall_prefix_cons {P : List ο → Prop} {o : ο} {os : List ο} :
    (∀ pre, pre <+: o :: os → P pre) ↔ P [] ∧ ∀ pre, pre <+: os → P (o :: pre) := by
  constructor
  · intro h
    exact ⟨h [] List.nil_prefix, fun pre hpre => h _ (List.cons_prefix_cons.2 ⟨rfl, hpre⟩)⟩
  · rintro ⟨hnil, hcons⟩ pre hpre
    rcases List.prefix_cons_iff.1 hpre with rfl | ⟨t, rfl, ht⟩
    · exact hnil
    · exact hcons t ht

/-- Two machines in lockstep. If related states look the same, and from related states
one more operation looks the same exactly when it meets `ok`, and then leaves the
states related, the two runs look the same throughout exactly when every operation
meets `ok`. -/
theorem lockstep_iff (R same : σ → τ → Prop) {ok : σ → ο → Prop}
    (hsame : ∀ s t, R s t → same s t)
    (hok : ∀ s t o, R s t → (same (step s o) (step' t o) ↔ ok s o))
    (hstep : ∀ s t o, R s t → ok s o → R (step s o) (step' t o))
    (os : List ο) {s : σ} {t : τ} (hR : R s t) :
    (∀ pre, pre <+: os → same (run step s pre) (run step' t pre)) ↔ Along step ok s os := by
  induction os generalizing s t with
  | nil => simpa [Along] using hsame s t hR
  | cons o os ih =>
    rw [forall_prefix_cons, Along]
    constructor
    · rintro ⟨-, h⟩
      have ho : ok s o := (hok s t o hR).1 (h [] List.nil_prefix)
      exact ⟨ho, (ih (hstep s t o hR ho)).1 h⟩
    · rintro ⟨ho, h⟩
      exact ⟨hsame s t hR, (ih (hstep s t o hR ho)).2 h⟩

end Transition
