import Mathlib.Logic.Basic

/-!
# Computations that may fail

`Gives x P a` says that `x` returns `a` when `P` holds and fails when it does not, so `P` is
exactly when `x` returns. The rules put such facts together along a `do` block.
-/

namespace Checked

universe u v

variable {ε : Type u} {α β : Type v}

/-- `x` returns `a` under `P`, and fails otherwise. -/
structure Gives (x : Except ε α) (P : Prop) (a : α) : Prop where
  ok : P → x = .ok a
  error : ¬P → ∃ e, x = .error e

namespace Gives

variable {x : Except ε α} {P Q : Prop} {a : α}

theorem of_ok (a : α) : Gives (.ok a : Except ε α) True a :=
  ⟨fun _ => rfl, fun h => (h trivial).elim⟩

theorem of_error (e : ε) (a : α) : Gives (.error e) False a :=
  ⟨False.elim, fun _ => ⟨e, rfl⟩⟩

theorem congr (h : Gives x P a) (hPQ : P ↔ Q) : Gives x Q a :=
  ⟨fun hQ => h.ok (hPQ.2 hQ), fun hQ => h.error fun hP => hQ (hPQ.1 hP)⟩

theorem check [Decidable P] (a : α) (e : ε) : Gives (if P then .ok a else .error e) P a :=
  ⟨fun h => if_pos h, fun h => ⟨e, if_neg h⟩⟩

theorem bind {f : α → Except ε β} {c : β} (hx : Gives x P a) (hf : P → Gives (f a) Q c) :
    Gives (x >>= f) (P ∧ Q) c := by
  constructor
  · rintro ⟨hP, hQ⟩
    rw [hx.ok hP]
    exact (hf hP).ok hQ
  · intro h
    by_cases hP : P
    · rw [hx.ok hP]
      exact (hf hP).error fun hQ => h ⟨hP, hQ⟩
    · obtain ⟨e, he⟩ := hx.error hP
      exact ⟨e, by rw [he]; rfl⟩

theorem bind_ok (hx : Gives x P a) (f : α → β) : Gives (x >>= fun b => .ok (f b)) P (f a) :=
  (hx.bind fun _ => of_ok (f a)).congr (and_iff_left trivial)

/-- Naming the failures differently. -/
theorem mapError {ε' : Type u} (hx : Gives x P a) (f : ε → ε') : Gives (x.mapError f) P a := by
  refine ⟨fun hP => ?_, fun hP => ?_⟩
  · rw [hx.ok hP]
    rfl
  · obtain ⟨e, he⟩ := hx.error hP
    exact ⟨f e, by rw [he]; rfl⟩

theorem exists_ok_iff (h : Gives x P a) : (∃ b, x = .ok b) ↔ P := by
  constructor
  · rintro ⟨b, hb⟩
    refine not_not.1 fun hP => ?_
    obtain ⟨e, he⟩ := h.error hP
    exact absurd (hb.symm.trans he) (by simp)
  · exact fun hP => ⟨a, h.ok hP⟩

end Gives

end Checked
