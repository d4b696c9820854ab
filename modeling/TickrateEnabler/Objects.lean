import TickrateEnabler.PatchManager

/-!
# The objects of a patch

`objects` lists a patch with all it owns in the order `delete` frees them, so `delete` is
`free` on that list (`PatchManager.deleteAll_eq_foldl`), and what it leaves follows from
`free` alone. `Patch()` and `Unpatch()` reach only these objects and make none (`Calls`).
-/

namespace TickrateEnabler

mutual

/-- The patch and all it owns, in the order `delete` frees them. -/
def CodePatch.objects : CodePatch → List ℕ
  | .bin id => [id]
  | .wrapper id p => p.objects ++ [id]
  | .composite id ps => PatchManager.objects ps ++ [id]

/-- All a manager owns. -/
def PatchManager.objects : PatchManager → List ℕ
  | [] => []
  | p :: ps => p.objects ++ PatchManager.objects ps

end

theorem PatchManager.objects_append (ps qs : PatchManager) :
    PatchManager.objects (ps ++ qs) = PatchManager.objects ps ++ PatchManager.objects qs := by
  induction ps with
  | nil => rfl
  | cons p ps ih =>
    rw [List.cons_append, PatchManager.objects, ih, PatchManager.objects, List.append_assoc]

theorem PatchManager.objects_append_singleton (ps : PatchManager) (p : CodePatch) :
    PatchManager.objects (ps ++ [p]) = PatchManager.objects ps ++ p.objects := by
  rw [PatchManager.objects_append, PatchManager.objects, PatchManager.objects, List.append_nil]

theorem PatchManager.objects_map_bin (ids : List ℕ) :
    PatchManager.objects (ids.map CodePatch.bin) = ids := by
  induction ids with
  | nil => rfl
  | cons id ids ih =>
    rw [List.map_cons, PatchManager.objects, ih, CodePatch.objects, List.singleton_append]

mutual

theorem CodePatch.leaves_subset_objects (p : CodePatch) : p.leaves ⊆ p.objects := by
  cases p with
  | bin id => exact List.Subset.refl _
  | wrapper id p =>
    exact List.Subset.trans (CodePatch.leaves_subset_objects p) (List.subset_append_left ..)
  | composite id ps =>
    exact List.Subset.trans (PatchManager.leaves_subset_objects ps) (List.subset_append_left ..)

theorem PatchManager.leaves_subset_objects (ps : PatchManager) :
    PatchManager.leaves ps ⊆ PatchManager.objects ps := by
  cases ps with
  | nil => exact List.Subset.refl _
  | cons p ps =>
    exact List.append_subset.2
      ⟨List.Subset.trans (CodePatch.leaves_subset_objects p) (List.subset_append_left ..),
        List.Subset.trans (PatchManager.leaves_subset_objects ps) (List.subset_append_right ..)⟩

end

/-! ## Deleting -/

mutual

theorem CodePatch.delete_eq_foldl (p : CodePatch) (s : Process) :
    p.delete s = p.objects.foldl Process.free s := by
  cases p with
  | bin id => rfl
  | wrapper id p =>
    rw [CodePatch.delete, CodePatch.delete_eq_foldl p, CodePatch.objects, List.foldl_append]
    rfl
  | composite id ps =>
    rw [CodePatch.delete, PatchManager.deleteAll_eq_foldl ps, CodePatch.objects,
      List.foldl_append]
    rfl

/-- `UnregisterAll` frees every object of the manager. -/
theorem PatchManager.deleteAll_eq_foldl (ps : PatchManager) (s : Process) :
    PatchManager.deleteAll ps s = (PatchManager.objects ps).foldl Process.free s := by
  cases ps with
  | nil => rfl
  | cons p ps =>
    rw [PatchManager.deleteAll, PatchManager.deleteAll_eq_foldl ps, CodePatch.delete_eq_foldl p,
      PatchManager.objects, List.foldl_append]

end

namespace Process

theorem free_heap (s : Process) (id j : ℕ) :
    (s.free id).code.heap j = if j = id then none else s.code.heap j :=
  Function.update_apply ..

variable (ids : List ℕ) (s : Process)

theorem foldl_free_world : (ids.foldl free s).code.world = s.code.world :=
  List.foldlRecOn (motive := fun s' : Process => s'.code.world = s.code.world) ids free rfl
    fun _ h _ _ => h

theorem foldl_free_next : (ids.foldl free s).next = s.next :=
  List.foldlRecOn (motive := fun s' : Process => s'.next = s.next) ids free rfl
    fun _ h _ _ => h

theorem foldl_free_log : (ids.foldl free s).log = s.log ++ ids.map .delete := by
  induction ids generalizing s with
  | nil => exact (List.append_nil _).symm
  | cons id ids ih => exact (ih (s.free id)).trans (List.append_assoc ..)

theorem foldl_free_heap (j : ℕ) :
    (ids.foldl free s).code.heap j = if j ∈ ids then none else s.code.heap j := by
  induction ids generalizing s with
  | nil => rfl
  | cons id ids ih =>
    rw [List.foldl_cons, ih, free_heap, ← ite_or]
    exact if_congr (or_comm.trans List.mem_cons.symm) rfl rfl

end Process

namespace PatchManager

variable (ps : PatchManager) (s : Process)

/-- `UnregisterAll` writes no memory. -/
theorem deleteAll_world : (deleteAll ps s).code.world = s.code.world := by
  rw [deleteAll_eq_foldl, Process.foldl_free_world]

theorem deleteAll_next : (deleteAll ps s).next = s.next := by
  rw [deleteAll_eq_foldl, Process.foldl_free_next]

theorem deleteAll_log : (deleteAll ps s).log = s.log ++ (objects ps).map .delete := by
  rw [deleteAll_eq_foldl, Process.foldl_free_log]

variable {ps s} {j : ℕ}

/-- After `UnregisterAll` no leaf of the manager is alive. -/
theorem deleteAll_heap_eq_none (h : j ∈ leaves ps ∨ s.code.heap j = none) :
    (deleteAll ps s).code.heap j = none := by
  rw [deleteAll_eq_foldl, Process.foldl_free_heap, ite_eq_left_iff]
  exact fun hj => h.resolve_left fun hleaf => hj (leaves_subset_objects ps hleaf)

/-- Leaves that are alive after `UnregisterAll` were before, and are the same. -/
theorem deleteAll_heap_some {o : PatchObject} (h : (deleteAll ps s).code.heap j = some o) :
    s.code.heap j = some o := by
  rw [deleteAll_eq_foldl, Process.foldl_free_heap] at h
  exact (Option.ite_none_left_eq_some.1 h).2

end PatchManager

/-! ## Patching and unpatching -/

/-- From `s` to `s'` only objects among `ids` were called, and none was made. -/
structure Calls (call : ℕ → ObjectEvent) (ids : List ℕ) (s s' : Process) : Prop where
  next : s'.next = s.next
  log : ∃ js ⊆ ids, s'.log = s.log ++ js.map call

namespace Calls

variable {call : ℕ → ObjectEvent} {ids ids' : List ℕ} {s s' s'' : Process}

theorem refl (s : Process) : Calls call ids s s :=
  ⟨rfl, [], List.nil_subset _, (List.append_nil _).symm⟩

theorem trans (h : Calls call ids s s') (h' : Calls call ids' s' s'') :
    Calls call (ids ++ ids') s s'' := by
  obtain ⟨js, hsub, hlog⟩ := h.log
  obtain ⟨js', hsub', hlog'⟩ := h'.log
  refine ⟨h'.next.trans h.next, js ++ js', List.append_subset.2
    ⟨List.subset_append_of_subset_left _ hsub, List.subset_append_of_subset_right _ hsub'⟩, ?_⟩
  rw [hlog', hlog, List.map_append, List.append_assoc]

/-- The call of an owner, and then the calls of what it owns. -/
theorem owner {id : ℕ} (h : Calls call ids (s.record (call id)) s') :
    Calls call (ids ++ [id]) s s' := by
  obtain ⟨js, hsub, hlog⟩ := h.log
  refine ⟨h.next, id :: js, List.cons_subset.2
    ⟨List.mem_append_right _ (List.mem_singleton_self id),
      List.subset_append_of_subset_left _ hsub⟩, ?_⟩
  exact hlog.trans (List.append_assoc ..)

end Calls

mutual

theorem CodePatch.patch_calls (p : CodePatch) (s : Process) :
    Calls .patch p.objects s (p.patch s) := by
  cases p with
  | bin id => exact ⟨rfl, [id], List.Subset.refl _, rfl⟩
  | wrapper id p => exact (CodePatch.patch_calls p _).owner
  | composite id ps => exact (PatchManager.patchAll_calls ps _).owner

/-- `PatchAll` calls `Patch()` on objects of the manager. -/
theorem PatchManager.patchAll_calls (ps : PatchManager) (s : Process) :
    Calls .patch (PatchManager.objects ps) s (PatchManager.patchAll ps s) := by
  cases ps with
  | nil => exact .refl s
  | cons p ps => exact (CodePatch.patch_calls p s).trans (PatchManager.patchAll_calls ps _)

end

mutual

theorem CodePatch.unpatch_calls (p : CodePatch) (s : Process) :
    Calls .unpatch p.objects s (p.unpatch s) := by
  cases p with
  | bin id => exact ⟨rfl, [id], List.Subset.refl _, rfl⟩
  | wrapper id p => exact (CodePatch.unpatch_calls p _).owner
  | composite id ps => exact (PatchManager.unpatchAll_calls ps _).owner

/-- `UnpatchAll` calls `Unpatch()` on objects of the manager. -/
theorem PatchManager.unpatchAll_calls (ps : PatchManager) (s : Process) :
    Calls .unpatch (PatchManager.objects ps) s (PatchManager.unpatchAll ps s) := by
  cases ps with
  | nil => exact .refl s
  | cons p ps => exact (CodePatch.unpatch_calls p s).trans (PatchManager.unpatchAll_calls ps _)

end

end TickrateEnabler
