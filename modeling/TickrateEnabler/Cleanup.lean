import TickrateEnabler.Layers
import TickrateEnabler.Ownership

/-!
# Cleaning up

`UnregisterAll` and the destructors of the manager and of a composite delete the patches.
They unpatch nothing, so code memory stays as the calls before left it. It is the memory
the leaves were constructed from exactly when no replacement that differs from it shows
(`cleanup_restores_iff`), as after a last `UnpatchAll` on leaves without `patchTimeCopy`
(`cleanup_restores_of_unpatchAll`).
-/

namespace TickrateEnabler

open Memory Transition

namespace PatchManager

/-- `UnregisterAll` : every patch is deleted, and the list is empty. -/
def unregisterAll (ps : PatchManager) (s : Process) : PatchManager × Process :=
  ([], PatchManager.deleteAll ps s)

/-- `~PatchManager`. -/
def destroy (ps : PatchManager) (s : Process) : Process :=
  (unregisterAll ps s).2

end PatchManager

/-- `~BoomerVomitFrameTimePatch` empties its manager, which is then destroyed. -/
theorem CodePatch.delete_composite (id : ℕ) (m_patches : PatchManager) (s : Process) :
    (CodePatch.composite id m_patches).delete s =
      let r := PatchManager.unregisterAll m_patches s
      (PatchManager.destroy r.1 r.2).free id :=
  rfl

/-- An end of a manager. -/
inductive Cleanup where
  | unregisterAll
  | destroy
  /-- The composite at `id`, whose member it is, is deleted. -/
  | deleteComposite (id : ℕ)

/-- The process after the end of the manager. -/
def Cleanup.run (s : ManagerState) : Cleanup → Process
  | .unregisterAll => (s.step .unregisterAll).process
  | .destroy => PatchManager.destroy s.manager s.process
  | .deleteComposite id => (CodePatch.composite id s.manager).delete s.process

/-- No end of the manager writes code memory. -/
theorem Cleanup.run_mem (s : ManagerState) (c : Cleanup) : (c.run s).code.mem = s.mem := by
  have hdelete := PatchManager.deleteAll_world s.manager s.process
  cases c with
  | unregisterAll => exact congrArg World.mem hdelete
  | destroy => exact congrArg World.mem hdelete
  | deleteComposite id => exact congrArg World.mem hdelete

/-- After any calls and any end of the manager, code memory is the memory the leaves were
constructed from exactly when every replacement byte that shows is the byte of that
memory. Which one shows at an address is read off the calls : the first `PatchAll` after a
leaf was registered lays its byte on top, remembering what was on top if it copies and
the original otherwise, and `UnpatchAll` shows what the last leaf laid on remembers. -/
theorem cleanup_restores_iff {s : Process} {calls : List ManagerCall}
    (hnd : (registeredLeaves calls).Nodup)
    (hnew : ∀ id ∈ registeredLeaves calls, NewLeaf s.code.mem s.code.heap id)
    (hcalls : ∀ call ∈ calls, call.Layers) (c : Cleanup) :
    (c.run (run ManagerState.step ⟨[], s⟩ calls)).code.mem = s.code.mem ↔
      ∀ x v, (layer (edits s.code.heap [] calls) x).now = some v → v = s.code.mem x := by
  rw [Cleanup.run_mem, run_eq_overlaid hnd hnew hcalls, run_mem_eq_iff]

/-- The overlays that the calls lay on are the registered leaves. -/
theorem exists_of_mem_edits {heap : ℕ → Option PatchObject} {pending : List ℕ}
    {calls : List ManagerCall} {o : Overlay Byte} (h : .apply o ∈ edits heap pending calls) :
    ∃ id ∈ pending ++ registeredLeaves calls, ∃ p, heap id = some p ∧ p.overlay = o := by
  induction calls generalizing pending with
  | nil => exact absurd h (List.not_mem_nil)
  | cons call calls ih =>
    cases call with
    | register p =>
      obtain ⟨id, hid, hp⟩ := ih h
      exact ⟨id, by rwa [List.append_assoc] at hid, hp⟩
    | patchAll =>
      rw [edits, List.mem_append] at h
      rcases h with h | h
      · obtain ⟨_, ho, heq⟩ := List.mem_map.1 h
        obtain rfl := Edit.apply.inj heq
        obtain ⟨p, hp, hpo⟩ := List.mem_map.1 ho
        obtain ⟨id, hid, hheap⟩ := List.mem_filterMap.1 hp
        exact ⟨id, List.mem_append_left _ hid, p, hheap, hpo⟩
      · obtain ⟨id, hid, hp⟩ := ih h
        exact ⟨id, List.mem_append_right _ hid, hp⟩
    | unpatchAll =>
      rw [edits, List.mem_cons] at h
      rcases h with h | h
      · cases h
      · exact ih h
    | unregisterAll | registerIn | patch | unpatch => exact ih h

theorem edits_append_unpatchAll (heap : ℕ → Option PatchObject) (pending : List ℕ)
    (calls : List ManagerCall) :
    edits heap pending (calls ++ [.unpatchAll]) = edits heap pending calls ++ [.undo] := by
  induction calls generalizing pending with
  | nil => rfl
  | cons call calls ih =>
    rw [List.cons_append]
    cases call with
    | patchAll => rw [edits, edits, ih, List.append_assoc]
    | unpatchAll => rw [edits, edits, ih, List.cons_append]
    | register | unregisterAll | registerIn | patch | unpatch => exact ih _

/-- Leaves without `patchTimeCopy`, unpatched by a last `UnpatchAll`, leave nothing behind. -/
theorem cleanup_restores_of_unpatchAll {s : Process} {calls : List ManagerCall}
    (hnd : (registeredLeaves calls).Nodup)
    (hnew : ∀ id ∈ registeredLeaves calls,
      ∃ o, s.code.heap id = some o ∧ Constructed s.code.mem false o)
    (hcalls : ∀ call ∈ calls, call.Layers) (c : Cleanup) :
    (c.run (run ManagerState.step ⟨[], s⟩ (calls ++ [.unpatchAll]))).code.mem = s.code.mem := by
  have hregister : registeredLeaves (calls ++ [.unpatchAll]) = registeredLeaves calls := by
    simp [registeredLeaves]
  rw [Cleanup.run_mem, run_eq_overlaid (hregister ▸ hnd) ?_ ?_, run_mem_eq_iff,
    edits_append_unpatchAll]
  · intro x v hv
    have hcopies : ∀ o, .apply o ∈ edits s.code.heap [] calls → o.copies = false := by
      intro o ho
      obtain ⟨id, hid, p, hp, rfl⟩ := exists_of_mem_edits ho
      obtain ⟨p', hp', hconstr⟩ := hnew id hid
      obtain rfl := Option.some.inj (hp.symm.trans hp')
      exact hconstr.copies_eq
    rw [layer_append_singleton, Layer.step, under_of_not_copies hcopies] at hv
    exact absurd hv.symm (Option.some_ne_none v)
  · rw [hregister]
    exact fun id hid => (hnew id hid).imp fun o ho => ⟨false, ho⟩
  · exact List.forall_mem_append.2 ⟨hcalls, List.forall_mem_singleton.2 trivial⟩

/-- One leaf of one byte, in a memory of zeros. -/
def oneLeaf : Process where
  code := ⟨⟨fun _ => 0, []⟩, fun id =>
    ([⟨1, .static (.new (fun _ => 0) 4 (fun _ => 0x90) (fun _ => 0xCC) false)⟩] :
      List PatchObject)[id]?⟩
  next := 1
  log := []

/-- The leaf was patched and unpatched before. -/
theorem cleanup_restores_unpatched :
    (Cleanup.destroy.run (run ManagerState.step ⟨[], oneLeaf⟩
      [.register (.bin 0), .patchAll, .unpatchAll])).code.mem = fun _ => 0 := by
  refine (cleanup_restores_iff (s := oneLeaf) (by decide) (fun id hid => ?_) (fun call hcall => ?_)
    .destroy).2 fun x v hv => ?_
  · obtain rfl := List.mem_singleton.1 hid
    exact ⟨_, false, rfl, .static 4 _ _⟩
  · simp only [List.mem_cons, List.not_mem_nil, or_false] at hcall
    rcases hcall with rfl | rfl | rfl <;> trivial
  · have hcopies : ∀ o : Overlay Byte,
        .apply o ∈ edits oneLeaf.code.heap [] [.register (.bin 0), .patchAll] →
          o.copies = false := by
      intro o ho
      obtain rfl := Edit.apply.inj (List.mem_singleton.1 ho)
      rfl
    exact absurd (hv.symm.trans (under_of_not_copies hcopies x)) (Option.some_ne_none v)

/-- The leaf is patched, and no end of the manager unpatches it. -/
theorem not_restored_while_patched :
    (Cleanup.unregisterAll.run (run ManagerState.step ⟨[], oneLeaf⟩
        [.register (.bin 0), .patchAll])).code.mem ≠ oneLeaf.code.mem ∧
      (Cleanup.destroy.run (run ManagerState.step ⟨[], oneLeaf⟩
        [.register (.bin 0), .patchAll])).code.mem ≠ oneLeaf.code.mem ∧
      ((Cleanup.deleteComposite 1).run (run ManagerState.step ⟨[], oneLeaf⟩
        [.register (.bin 0), .patchAll])).code.mem ≠ oneLeaf.code.mem := by
  refine ⟨fun h => ?_, fun h => ?_, fun h => ?_⟩ <;>
    exact absurd (congrFun h 4) (by decide)

end TickrateEnabler
