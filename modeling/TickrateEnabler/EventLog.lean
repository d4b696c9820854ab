import Mathlib.Data.List.Basic
import Mathlib.Data.List.Induction

/-!
# Logs of events

A log grows at its end. `Throughout ok log` says that every event of the log meets `ok`
with the events before it, so one more event costs one more condition
(`throughout_append_singleton`).
-/

namespace EventLog

variable {ε : Type*} {ok ok' : List ε → ε → Prop} {log : List ε}

/-- Every event of the log meets `ok` with the events before it. -/
def Throughout (ok : List ε → ε → Prop) (log : List ε) : Prop :=
  ∀ pre e post, log = pre ++ e :: post → ok pre e

theorem throughout_nil (ok : List ε → ε → Prop) : Throughout ok [] := by
  intro pre e post h
  simp at h

theorem throughout_append_singleton {e : ε} :
    Throughout ok (log ++ [e]) ↔ Throughout ok log ∧ ok log e := by
  constructor
  · intro h
    refine ⟨fun pre e' post hlog => h pre e' (post ++ [e]) ?_, h log e [] rfl⟩
    rw [hlog, List.append_assoc, List.cons_append]
  · rintro ⟨h, he⟩ pre e' post hlog
    rcases List.eq_nil_or_concat post with rfl | ⟨post', y, rfl⟩
    · obtain ⟨rfl, hlast⟩ := List.append_inj' hlog rfl
      obtain rfl := List.singleton_inj.1 hlast
      exact he
    · have hassoc : log ++ [e] = (pre ++ e' :: post') ++ [y] := by simpa using hlog
      exact h pre e' post' (List.append_inj' hassoc rfl).1

/-- Events that meet `ok` after any log that goes on from this one. -/
theorem Throughout.append (h : Throughout ok log) {es : List ε}
    (hes : ∀ e ∈ es, ∀ mid, (∀ x ∈ mid, x ∈ es) → ok (log ++ mid) e) :
    Throughout ok (log ++ es) := by
  induction es using List.reverseRecOn with
  | nil => rwa [List.append_nil]
  | append_singleton es e ih =>
    rw [← List.append_assoc, throughout_append_singleton]
    refine ⟨ih fun e' he' mid hmid => ?_, ?_⟩
    · exact hes e' (List.mem_append_left _ he') mid fun x hx => List.mem_append_left _ (hmid x hx)
    · exact hes e (by simp) es fun x hx => List.mem_append_left _ hx

end EventLog
