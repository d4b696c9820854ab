import TickrateEnabler.Objects
import TickrateEnabler.PatchPhase

/-!
# What the manager owns

The leaves that are alive are those of the registered patches (`Owned`) : the `try` block
keeps this whether it throws or not (`tryBlock_owned`), and `UnregisterAll` leaves none
alive (`Owned.deleteAll`).
-/

namespace TickrateEnabler

/-- Only leaves of the manager are alive, and `operator new` has given their addresses. -/
structure Owned (ps : PatchManager) (s : Process) : Prop where
  fresh : ∀ id ∈ PatchManager.leaves ps, id < s.next
  live : ∀ id ∉ PatchManager.leaves ps, s.code.heap id = none

namespace Owned

variable {ms ps : PatchManager} {s s' : Process}

/-- Registering the patches that were made. -/
theorem allocates (h : Owned ms s) {os : List PatchObject}
    (halloc : s.Allocates s' (PatchManager.leaves ps) os) : Owned (ms ++ ps) s' := by
  refine ⟨fun id hid => ?_, fun id hid => ?_⟩
  · rw [PatchManager.leaves_append, List.mem_append] at hid
    rcases hid with hid | hid
    · exact Nat.lt_of_lt_of_le (h.fresh id hid) halloc.next_le
    · exact (halloc.fresh id hid).2
  · rw [PatchManager.leaves_append, List.mem_append, not_or] at hid
    rcases Nat.lt_or_ge id s.next with hlt | hge
    · exact (halloc.old id hlt).trans (h.live id hid.1)
    · exact halloc.rest id hid.2 hge (h.live id hid.1)

theorem patchAll (h : Owned ms s) : Owned ms (PatchManager.patchAll ms s) := by
  refine ⟨fun id hid => ?_, fun id hid => ?_⟩
  · exact Nat.lt_of_lt_of_eq (h.fresh id hid) (PatchManager.patchAll_calls ms s).next.symm
  · rw [PatchManager.patchAll_code, Code.foldl_patch_heap hid]
    exact h.live id hid

theorem unpatchAll (h : Owned ms s) : Owned ms (PatchManager.unpatchAll ms s) := by
  refine ⟨fun id hid => ?_, fun id hid => ?_⟩
  · exact Nat.lt_of_lt_of_eq (h.fresh id hid) (PatchManager.unpatchAll_calls ms s).next.symm
  · rw [PatchManager.unpatchAll_code, Code.foldl_unpatch_heap]
    exact h.live id hid

/-- After `UnregisterAll` the manager owns nothing and nothing is alive. -/
theorem deleteAll (h : Owned ms s) : Owned [] (PatchManager.deleteAll ms s) := by
  refine ⟨fun id hid => absurd hid List.not_mem_nil, fun id _ => ?_⟩
  exact PatchManager.deleteAll_heap_eq_none (or_iff_not_imp_left.2 (h.live id))

end Owned

/-- The `try` block leaves no leaf behind that is not registered. -/
theorem tryBlock_owned {κ : Type*} (b : Build) (g : FakeGlobals) (u : MemUtils κ)
    (gamedll engine : ℕ) {s : PatchState κ} (h : Owned s.m_patchManager s.process) :
    Owned (tryBlock b g u gamedll engine s).2.m_patchManager
      (tryBlock b g u gamedll engine s).2.process := by
  by_cases hv : PatchesValid b s.process.code.mem
      (found b u s.process.code.mem gamedll engine s.cache).1
  · obtain ⟨ps, s', heq, halloc⟩ := tryBlock_of_valid (g := g) s hv
    rw [heq]
    exact (h.allocates halloc).patchAll
  · obtain ⟨e, ps, s', k', os, heq, halloc⟩ := tryBlock_of_not_valid (g := g) s hv
    rw [heq]
    exact h.allocates halloc

end TickrateEnabler
