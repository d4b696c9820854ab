import TickrateEnabler.Overlay
import TickrateEnabler.PatchManager
import TickrateEnabler.Construct

/-!
# Layers of patches

On new leaves a run of `Register`, `PatchAll` and `UnpatchAll` lays overlays on memory and
takes them off (`run_eq_overlaid`) : the first `PatchAll` after a leaf was registered lays
its replacement on, and `UnpatchAll` puts back the saved bytes of all leaves laid on so
far, in registration order. `edits` reads this off the calls.
-/

namespace TickrateEnabler

open Memory Transition

/-! ## Leaves as overlays -/

/-- The leaf as an overlay. -/
def PatchObject.overlay (o : PatchObject) : Overlay Byte :=
  ⟨o.site, o.copies⟩

/-- The leaves at `ids` as overlays. -/
def overlays (heap : ℕ → Option PatchObject) (ids : List ℕ) : List (Overlay Byte) :=
  (ids.filterMap heap).map PatchObject.overlay

/-- What the calls lay on and take off, the leaves `pending` being registered and not patched
yet. -/
def edits (heap : ℕ → Option PatchObject) : List ℕ → List ManagerCall → List (Edit Byte)
  | _, [] => []
  | pending, .register p :: calls => edits heap (pending ++ p.leaves) calls
  | pending, .patchAll :: calls => (overlays heap pending).map .apply ++ edits heap [] calls
  | pending, .unpatchAll :: calls => .undo :: edits heap pending calls
  | pending, _ :: calls => edits heap pending calls

/-- The leaves that the calls register. -/
def registeredLeaves (calls : List ManagerCall) : List ℕ :=
  calls.flatMap fun
    | .register p => p.leaves
    | _ => []

/-- A `Register`, `PatchAll` or `UnpatchAll` of the manager. -/
def ManagerCall.Layers : ManagerCall → Prop
  | .register _ | .patchAll | .unpatchAll => True
  | _ => False

/-- A new leaf that was constructed from `M`. -/
def NewLeaf (M : ℕ → Byte) (heap : ℕ → Option PatchObject) (id : ℕ) : Prop :=
  ∃ o copy, heap id = some o ∧ Constructed M copy o

namespace PatchObject

/-- With `patchTimeCopy` the saved bytes are those `patch` finds. -/
theorem patch_saved_of_copies {o : PatchObject} (hp : o.patched = false)
    (hc : o.copies = true) (w : World) :
    (o.patch w).1.saved = ⟨o.bin.view.pTarget, o.length, load w.mem o.bin.view.pTarget o.length⟩ := by
  have hcaptured : o.bin.view.captured w.mem = load w.mem o.bin.view.pTarget o.length := if_pos hc
  simp only [patch, saved, (o.bin.view_patch w).1, BasicStaticBinPatch.patch_fst hp, hcaptured]

end PatchObject

namespace Constructed

variable {M : ℕ → Byte} {copy : Bool} {o : PatchObject}

theorem copies_eq (h : Constructed M copy o) : o.copies = copy := by
  cases h <;> rfl

/-- What `patch` leaves in the saved bytes is what the overlay keeps. -/
theorem patch_saved (h : Constructed M copy o) (w : World) :
    (o.patch w).1.saved = o.overlay.kept M w.mem := by
  have hcopies := h.copies_eq
  cases copy with
  | false =>
    rw [PatchObject.patch_saved hcopies, h.savedFrom.2, Overlay.kept, PatchObject.overlay, hcopies]
    rfl
  | true =>
    rw [PatchObject.patch_saved_of_copies h.unpatched hcopies, Overlay.kept, PatchObject.overlay,
      hcopies]
    rfl

end Constructed

namespace Code

variable {c : Code} {id : ℕ} {o : PatchObject}

theorem patch_of_patched (ho : c.heap id = some o) (hp : o.patched = true) : c.patch id = c := by
  rw [patch_of_some ho, PatchObject.patch_of_patched hp, Function.update_eq_self_iff.2 ho.symm]

theorem unpatch_of_unpatched (ho : c.heap id = some o) (hp : o.patched = false) :
    c.unpatch id = c := by
  rw [unpatch_of_some ho, PatchObject.unpatch, BinPatch.unpatch_eq,
    BasicStaticBinPatch.unpatch_of_unpatched hp]

theorem foldl_patch_of_patched {ids : List ℕ}
    (h : ∀ id ∈ ids, ∃ o, c.heap id = some o ∧ o.patched = true) : ids.foldl Code.patch c = c := by
  induction ids with
  | nil => rfl
  | cons id ids ih =>
    obtain ⟨⟨o, ho, hp⟩, hids⟩ := List.forall_mem_cons.1 h
    rw [List.foldl_cons, patch_of_patched ho hp, ih hids]

theorem foldl_unpatch_of_unpatched {ids : List ℕ}
    (h : ∀ id ∈ ids, ∃ o, c.heap id = some o ∧ o.patched = false) :
    ids.foldl Code.unpatch c = c := by
  induction ids with
  | nil => rfl
  | cons id ids ih =>
    obtain ⟨⟨o, ho, hp⟩, hids⟩ := List.forall_mem_cons.1 h
    rw [List.foldl_cons, unpatch_of_unpatched ho hp, ih hids]

/-- `Unpatch()` on patched leaves writes their saved bytes in order. -/
theorem foldl_unpatch_mem {ids : List ℕ} {os : List PatchObject}
    (hheap : ids.map c.heap = os.map some) (hos : ∀ o ∈ os, o.patched = true) :
    (ids.foldl Code.unpatch c).mem = writeAll c.mem (os.map PatchObject.saved) := by
  induction ids generalizing c os with
  | nil =>
    obtain rfl : os = [] := List.map_eq_nil_iff.1 hheap.symm
    rfl
  | cons id ids ih =>
    rcases os with - | ⟨o, os⟩
    · exact absurd hheap (by simp)
    obtain ⟨ho, hrest⟩ := List.cons.inj hheap
    obtain ⟨hp, hos⟩ := List.forall_mem_cons.1 hos
    have hmem : (c.unpatch id).mem = o.saved.write c.mem := by
      rw [unpatch_of_some ho]
      exact (o.unpatch_mem c.world).trans (if_pos hp)
    rw [List.foldl_cons, ih (c := c.unpatch id) (by rwa [unpatch_heap]) hos, hmem]
    rfl

end Code

/-! ## The simulation -/

/-- The leaves `applied` are laid on, in this order, and the others are as at first. -/
structure Layered (heap : ℕ → Option PatchObject) (applied : List ℕ) (c : Code)
    (v : Overlaid Byte) : Prop where
  mem : c.mem = v.mem
  laid : ∃ os : List PatchObject, applied.map c.heap = os.map some ∧
    (∀ o ∈ os, o.patched = true) ∧ os.map PatchObject.saved = v.saved
  rest : ∀ id ∉ applied, c.heap id = heap id

namespace Layered

variable {M : ℕ → Byte} {heap : ℕ → Option PatchObject} {applied : List ℕ} {c : Code}
  {v : Overlaid Byte}

/-- `Patch()` on a leaf that is not laid on yet. -/
theorem patch (h : Layered heap applied c v) {id : ℕ} (hid : id ∉ applied) {o : PatchObject}
    {copy : Bool} (ho : heap id = some o) (hnew : Constructed M copy o) :
    Layered heap (applied ++ [id]) (c.patch id) (v.step M (.apply o.overlay)) := by
  have hc : c.heap id = some o := (h.rest id hid).trans ho
  refine ⟨?_, ?_, fun j hj => ?_⟩
  · rw [Code.patch_of_some hc]
    show (o.patch c.world).2.mem = o.site.write v.mem
    rw [PatchObject.patch_mem hnew.unpatched, ← h.mem]
  · obtain ⟨os, hos, hp, hsaved⟩ := h.laid
    refine ⟨os ++ [(o.patch c.world).1], ?_, ?_, ?_⟩
    · have hold : applied.map (c.patch id).heap = applied.map c.heap :=
        List.map_congr_left fun j hj => c.patch_heap_of_ne (ne_of_mem_of_not_mem hj hid)
      rw [List.map_append, hold, hos, List.map_append, List.map_singleton,
        Code.patch_heap_self hc, List.map_singleton]
    · exact List.forall_mem_append.2 ⟨hp, List.forall_mem_singleton.2 (o.patch_patched _)⟩
    · rw [List.map_append, hsaved, List.map_singleton, hnew.patch_saved, Overlaid.step, ← h.mem]
  · rw [List.mem_append, List.mem_singleton, not_or] at hj
    exact (c.patch_heap_of_ne hj.2).trans (h.rest j hj.1)

/-- `Patch()` on leaves that are not laid on yet. -/
theorem foldl_patch (h : Layered heap applied c v) {ids : List ℕ} (hnd : ids.Nodup)
    (hdisj : ∀ id ∈ ids, id ∉ applied) (hnew : ∀ id ∈ ids, NewLeaf M heap id) :
    Layered heap (applied ++ ids) (ids.foldl Code.patch c)
      (run (Overlaid.step M) v ((overlays heap ids).map .apply)) := by
  induction ids generalizing applied c v with
  | nil => rwa [List.append_nil]
  | cons id ids ih =>
    obtain ⟨hid, hnd⟩ := List.nodup_cons.1 hnd
    obtain ⟨happlied, hdisj⟩ := List.forall_mem_cons.1 hdisj
    obtain ⟨⟨o, copy, ho, hconstr⟩, hnew⟩ := List.forall_mem_cons.1 hnew
    have hstep := h.patch happlied ho hconstr
    have hids := ih hstep hnd (fun j hj => ?_) hnew
    · rw [List.append_assoc, List.singleton_append] at hids
      rw [overlays, List.filterMap_cons_some ho]
      exact hids
    · rw [List.mem_append, List.mem_singleton, not_or]
      exact ⟨hdisj j hj, ne_of_mem_of_not_mem hj hid⟩

/-- The leaves that are laid on are patched. -/
theorem patched (h : Layered heap applied c v) :
    ∀ id ∈ applied, ∃ o, c.heap id = some o ∧ o.patched = true := by
  obtain ⟨os, hos, hp, -⟩ := h.laid
  intro id hid
  have hmem : c.heap id ∈ os.map some := hos ▸ List.mem_map_of_mem hid
  obtain ⟨o, ho, heq⟩ := List.mem_map.1 hmem
  exact ⟨o, heq.symm, hp o ho⟩

/-- `PatchAll` lays the leaves on that are not yet. -/
theorem patchAll (h : Layered heap applied c v) {pending : List ℕ}
    (hnd : (applied ++ pending).Nodup) (hnew : ∀ id ∈ pending, NewLeaf M heap id) :
    Layered heap (applied ++ pending) ((applied ++ pending).foldl Code.patch c)
      (run (Overlaid.step M) v ((overlays heap pending).map .apply)) := by
  obtain ⟨-, hpending, hdisj⟩ := List.nodup_append.1 hnd
  rw [List.foldl_append, Code.foldl_patch_of_patched h.patched]
  exact h.foldl_patch hpending (fun id hid hid' => hdisj id hid' id hid rfl) hnew

/-- `UnpatchAll` puts back what the leaves keep. -/
theorem unpatchAll (h : Layered heap applied c v) {pending : List ℕ}
    (hnd : (applied ++ pending).Nodup) (hnew : ∀ id ∈ pending, NewLeaf M heap id) :
    Layered heap applied ((applied ++ pending).foldl Code.unpatch c) (v.step M .undo) := by
  obtain ⟨-, -, hdisj⟩ := List.nodup_append.1 hnd
  obtain ⟨os, hos, hp, hsaved⟩ := h.laid
  have hheap : (applied.foldl Code.unpatch c).heap = c.heap := Code.foldl_unpatch_heap c applied
  have hpending : pending.foldl Code.unpatch (applied.foldl Code.unpatch c) =
      applied.foldl Code.unpatch c := by
    refine Code.foldl_unpatch_of_unpatched fun id hid => ?_
    obtain ⟨o, copy, ho, hconstr⟩ := hnew id hid
    refine ⟨o, ?_, hconstr.unpatched⟩
    rw [hheap, h.rest id fun hid' => hdisj id hid' id hid rfl, ho]
  rw [List.foldl_append, hpending]
  refine ⟨?_, ⟨os, hheap ▸ hos, hp, hsaved⟩, fun id hid => hheap ▸ h.rest id hid⟩
  rw [Code.foldl_unpatch_mem hos hp, hsaved, h.mem]
  rfl

/-- The calls follow their edits. -/
theorem run_mem {s : ManagerState} {pending : List ℕ} (calls : List ManagerCall)
    (h : Layered heap applied s.process.code v)
    (hleaves : PatchManager.leaves s.manager = applied ++ pending)
    (hnd : (applied ++ (pending ++ registeredLeaves calls)).Nodup)
    (hnew : ∀ id ∈ pending ++ registeredLeaves calls, NewLeaf M heap id)
    (hcalls : ∀ call ∈ calls, call.Layers) :
    (run ManagerState.step s calls).mem =
      (run (Overlaid.step M) v (edits heap pending calls)).mem := by
  induction calls generalizing s applied pending v with
  | nil => exact h.mem
  | cons call calls ih =>
    obtain ⟨hcall, hok⟩ := List.forall_mem_cons.1 hcalls
    have hpending : ∀ id ∈ pending, NewLeaf M heap id :=
      fun id hid => hnew id (List.mem_append_left _ hid)
    cases call with
    | register p =>
      have hregister : registeredLeaves (.register p :: calls) =
          p.leaves ++ registeredLeaves calls := rfl
      rw [hregister, ← List.append_assoc pending] at hnd hnew
      refine ih h ?_ hnd hnew hok
      show PatchManager.leaves (s.manager ++ [p]) = _
      rw [PatchManager.leaves_append_singleton, hleaves, List.append_assoc]
    | patchAll =>
      have hrest : registeredLeaves (.patchAll :: calls) = registeredLeaves calls := rfl
      rw [hrest] at hnd hnew
      rw [← List.append_assoc] at hnd
      have hstep := h.patchAll (List.nodup_append.1 hnd).1 hpending
      rw [← hleaves, ← ManagerState.step_patchAll_code] at hstep
      have hnone : PatchManager.leaves (s.step .patchAll).manager =
          PatchManager.leaves s.manager ++ [] := (List.append_nil _).symm
      rw [edits, run_append]
      refine ih hstep hnone ?_ ?_ hok
      · rwa [List.nil_append, hleaves]
      · exact fun id hid => hnew id (List.mem_append_right _ hid)
    | unpatchAll =>
      have hrest : registeredLeaves (.unpatchAll :: calls) = registeredLeaves calls := rfl
      rw [hrest] at hnd hnew
      have hnd' := hnd
      rw [← List.append_assoc] at hnd'
      have hstep := h.unpatchAll (List.nodup_append.1 hnd').1 hpending
      rw [← hleaves, ← ManagerState.step_unpatchAll_code] at hstep
      exact ih (s := s.step .unpatchAll) hstep hleaves hnd hnew hok
    | unregisterAll | registerIn | patch | unpatch => exact hcall.elim

end Layered

/-- On new leaves, each registered once, a run shows the memory its edits make. -/
theorem run_eq_overlaid {s : Process} {calls : List ManagerCall}
    (hnd : (registeredLeaves calls).Nodup)
    (hnew : ∀ id ∈ registeredLeaves calls, NewLeaf s.code.mem s.code.heap id)
    (hcalls : ∀ call ∈ calls, call.Layers) :
    (run ManagerState.step ⟨[], s⟩ calls).mem =
      (run (Overlaid.step s.code.mem) ⟨s.code.mem, []⟩ (edits s.code.heap [] calls)).mem := by
  have hstart : Layered s.code.heap [] s.code ⟨s.code.mem, []⟩ :=
    ⟨rfl, ⟨[], rfl, by simp, rfl⟩, fun _ _ => rfl⟩
  have hnone : PatchManager.leaves [] = [] ++ [] := rfl
  exact Layered.run_mem (s := ⟨[], s⟩) calls hstart hnone hnd hnew hcalls

end TickrateEnabler
