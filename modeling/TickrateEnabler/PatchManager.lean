import TickrateEnabler.CodePatch

/-!
# The patch manager

`ManagerState` is a `PatchManager` with the process it works in, `ManagerCall` what is
called on it, on the managers inside its composites, and on its patches.

Let every leaf be constructed from `M` without `patchTimeCopy`. `Undoable` says that a
byte that differs from `M` is in the target of a registered leaf whose flag is set, and
every leaf's saved bytes are those of `M`. Each call keeps it, whatever targets
overlap, and a final `UnpatchAll` writes the saved bytes of all those leaves : memory
is `M` again (`unpatchAll_restores`), in registration order too.
-/

namespace TickrateEnabler

open Memory Transition

mutual

/-- `Register(p)` on the manager of the composite at `id`, if it is in this patch. -/
def CodePatch.registerIn (q : CodePatch) (id : ℕ) (p : CodePatch) : CodePatch :=
  match q with
  | .bin i => .bin i
  | .wrapper i q => .wrapper i (q.registerIn id p)
  | .composite i qs =>
    .composite i (PatchManager.registerIn qs id p ++ if i = id then [p] else [])

/-- `Register(p)` on the manager of the composite at `id`. -/
def PatchManager.registerIn (qs : PatchManager) (id : ℕ) (p : CodePatch) : PatchManager :=
  match qs with
  | [] => []
  | q :: qs => q.registerIn id p :: PatchManager.registerIn qs id p

end

/-- The patch is registered with the manager, or with one inside its composites. -/
inductive Registered (ps : PatchManager) : CodePatch → Prop where
  | here {p : CodePatch} : p ∈ ps → Registered ps p
  | wrapped {id : ℕ} {p : CodePatch} : Registered ps (.wrapper id p) → Registered ps p
  | inside {id : ℕ} {qs : PatchManager} {p : CodePatch} :
    Registered ps (.composite id qs) → p ∈ qs → Registered ps p

/-- A manager and the process. -/
structure ManagerState where
  manager : PatchManager
  process : Process

/-- Calls on a manager, on the managers of its composites, and on registered patches.
`PatchAll` and `UnpatchAll` of an inner manager are `patch` and `unpatch` of its
composite. -/
inductive ManagerCall where
  | register (p : CodePatch)
  | registerIn (id : ℕ) (p : CodePatch)
  | patchAll
  | unpatchAll
  | unregisterAll
  | patch (p : CodePatch)
  | unpatch (p : CodePatch)

namespace ManagerState

/-- Code memory. -/
abbrev mem (s : ManagerState) : ℕ → Byte :=
  s.process.code.mem

/-- One call. -/
def step (s : ManagerState) : ManagerCall → ManagerState
  | .register p => { s with manager := s.manager ++ [p] }
  | .registerIn id p => { s with manager := PatchManager.registerIn s.manager id p }
  | .patchAll => { s with process := PatchManager.patchAll s.manager s.process }
  | .unpatchAll => { s with process := PatchManager.unpatchAll s.manager s.process }
  | .unregisterAll => ⟨[], PatchManager.deleteAll s.manager s.process⟩
  | .patch p => { s with process := p.patch s.process }
  | .unpatch p => { s with process := p.unpatch s.process }

theorem step_patchAll_code (s : ManagerState) : (s.step .patchAll).process.code =
    (PatchManager.leaves s.manager).foldl Code.patch s.process.code :=
  PatchManager.patchAll_code ..

theorem step_unpatchAll_code (s : ManagerState) : (s.step .unpatchAll).process.code =
    (PatchManager.leaves s.manager).foldl Code.unpatch s.process.code :=
  PatchManager.unpatchAll_code ..

theorem step_patch_code (s : ManagerState) (p : CodePatch) :
    (s.step (.patch p)).process.code = p.leaves.foldl Code.patch s.process.code :=
  CodePatch.patch_code ..

theorem step_unpatch_code (s : ManagerState) (p : CodePatch) :
    (s.step (.unpatch p)).process.code = p.leaves.foldl Code.unpatch s.process.code :=
  CodePatch.unpatch_code ..

end ManagerState

/-! ## Leaves of a manager -/

theorem PatchManager.leaves_append (ps qs : PatchManager) :
    PatchManager.leaves (ps ++ qs) = PatchManager.leaves ps ++ PatchManager.leaves qs := by
  induction ps with
  | nil => rfl
  | cons p ps ih =>
    rw [List.cons_append, PatchManager.leaves, ih, PatchManager.leaves, List.append_assoc]

theorem PatchManager.leaves_append_singleton (ps : PatchManager) (p : CodePatch) :
    PatchManager.leaves (ps ++ [p]) = PatchManager.leaves ps ++ p.leaves := by
  rw [PatchManager.leaves_append, PatchManager.leaves, PatchManager.leaves, List.append_nil]

theorem PatchManager.leaves_subset {p : CodePatch} {ps : PatchManager} (h : p ∈ ps) :
    p.leaves ⊆ PatchManager.leaves ps := by
  obtain ⟨l, r, rfl⟩ := List.append_of_mem h
  rw [PatchManager.leaves_append, PatchManager.leaves]
  exact fun id hid => List.mem_append_right _ (List.mem_append_left _ hid)

/-- A registered patch has its leaves in the manager. -/
theorem Registered.leaves_subset {ps : PatchManager} {p : CodePatch} (h : Registered ps p) :
    p.leaves ⊆ PatchManager.leaves ps := by
  induction h with
  | here hp => exact PatchManager.leaves_subset hp
  | wrapped _ ih => exact ih
  | inside _ hp ih => exact fun id hid => ih (PatchManager.leaves_subset hp hid)

mutual

theorem CodePatch.leaves_registerIn (q : CodePatch) (id : ℕ) (p : CodePatch) :
    q.leaves ⊆ (q.registerIn id p).leaves := by
  cases q with
  | bin i => exact List.Subset.refl _
  | wrapper i q => exact CodePatch.leaves_registerIn q id p
  | composite i qs =>
    rw [CodePatch.registerIn, CodePatch.leaves, CodePatch.leaves, PatchManager.leaves_append]
    exact fun j hj => List.mem_append_left _ (PatchManager.leaves_registerIn qs id p hj)

theorem PatchManager.leaves_registerIn (qs : PatchManager) (id : ℕ) (p : CodePatch) :
    PatchManager.leaves qs ⊆ PatchManager.leaves (PatchManager.registerIn qs id p) := by
  cases qs with
  | nil => exact List.Subset.refl _
  | cons q qs =>
    rw [PatchManager.registerIn, PatchManager.leaves, PatchManager.leaves]
    exact fun j hj => List.mem_append.2 ((List.mem_append.1 hj).imp
      (fun h => CodePatch.leaves_registerIn q id p h)
      fun h => PatchManager.leaves_registerIn qs id p h)

end

/-! ## Undoing every patch -/

/-- The leaf as its constructor leaves it on the memory `M`. -/
inductive Constructed (M : ℕ → Byte) (patchTimeCopy : Bool) : PatchObject → Prop where
  | basic {n : ℕ} (target : ℕ) (replacement : Fin n → Byte) (uninit : Fin (n + n) → Byte) :
    Constructed M patchTimeCopy ⟨n, .basic (.new M target replacement uninit patchTimeCopy)⟩
  | static {n : ℕ} (target : ℕ) (replacement uninit : Fin n → Byte) :
    Constructed M patchTimeCopy ⟨n, .static (.new M target replacement uninit patchTimeCopy)⟩

/-- The saved bytes are those of `M`, and stay so. -/
def PatchObject.SavedFrom (M : ℕ → Byte) (o : PatchObject) : Prop :=
  o.copies = false ∧ o.saved = ⟨o.bin.view.pTarget, o.length, load M o.bin.view.pTarget o.length⟩

theorem Constructed.unpatched {M : ℕ → Byte} {copy : Bool} {o : PatchObject}
    (h : Constructed M copy o) : o.patched = false := by
  cases h <;> rfl

theorem Constructed.savedFrom {M : ℕ → Byte} {o : PatchObject} (h : Constructed M false o) :
    o.SavedFrom M := by
  cases h with
  | basic target replacement uninit =>
    refine ⟨rfl, ?_⟩
    show Block.mk _ _ (BasicBinPatch.toStatic _).original = _
    rw [BasicBinPatch.toStatic_new]
    rfl
  | static target replacement uninit => exact ⟨rfl, rfl⟩

namespace PatchObject

variable {M : ℕ → Byte} {o : PatchObject}

theorem SavedFrom.patch (h : o.SavedFrom M) (w : World) : (o.patch w).1.SavedFrom M := by
  have hs := patch_saved h.1 w
  refine ⟨(o.patch_copies w).trans h.1, hs.trans (h.2.trans ?_)⟩
  have haddr : (o.patch w).1.bin.view.pTarget = o.bin.view.pTarget := congrArg (·.addr) hs
  rw [haddr]
  rfl

instance (x : ℕ) : Decidable (o.Targets x) :=
  inferInstanceAs (Decidable (Covers ..))

/-- Writing the saved bytes puts the bytes of `M` on the target. -/
theorem SavedFrom.write_saved (h : o.SavedFrom M) (m : ℕ → Byte) (x : ℕ) :
    o.saved.write m x = if o.Targets x then M x else m x := by
  rw [h.2]
  exact store_load_apply m M _ _ x

end PatchObject

/-- Every byte that differs from `M` is in the target of a patched leaf among `ids`, and
every leaf can put the bytes of `M` back. -/
structure Undoable (M : ℕ → Byte) (ids : List ℕ) (c : Code) : Prop where
  saved : ∀ id o, c.heap id = some o → o.SavedFrom M
  covered : ∀ x, c.mem x ≠ M x →
    ∃ id ∈ ids, ∃ o, c.heap id = some o ∧ o.patched = true ∧ o.Targets x

namespace Undoable

variable {M : ℕ → Byte} {ids : List ℕ} {c : Code}

theorem mono {ids' : List ℕ} (h : Undoable M ids c) (hsub : ids ⊆ ids') : Undoable M ids' c := by
  refine ⟨h.saved, fun x hx => ?_⟩
  obtain ⟨id, hid, o, ho⟩ := h.covered x hx
  exact ⟨id, hsub hid, o, ho⟩

/-- `Patch()` on one of the leaves writes only bytes that it then covers. -/
theorem patch (h : Undoable M ids c) {id : ℕ} (hid : id ∈ ids) : Undoable M ids (c.patch id) := by
  cases ho : c.heap id with
  | none => rwa [Code.patch_of_none ho]
  | some o =>
    refine ⟨fun j o' hj => ?_, fun x hx => ?_⟩
    · rcases eq_or_ne j id with rfl | hne
      · obtain rfl := Option.some.inj ((Code.patch_heap_self ho).symm.trans hj)
        exact (h.saved j o ho).patch c.world
      · exact h.saved j o' ((c.patch_heap_of_ne hne).symm.trans hj)
    by_cases hc : o.Targets x
    · refine ⟨id, hid, _, Code.patch_heap_self ho, o.patch_patched _, ?_⟩
      have hs := o.patch_site c.world
      simp only [PatchObject.site, Block.mk.injEq] at hs
      rw [PatchObject.Targets, hs.1, hs.2.1]
      exact hc
    · have hmem : (c.patch id).mem x = c.mem x :=
        Code.patch_mem_of_not_targets fun o' ho' => Option.some.inj (ho.symm.trans ho') ▸ hc
      obtain ⟨j, hj, o', ho', hp', hc'⟩ := h.covered x (hmem ▸ hx)
      have hne : j ≠ id := by
        rintro rfl
        exact hc (Option.some.inj (ho'.symm.trans ho) ▸ hc')
      exact ⟨j, hj, o', (c.patch_heap_of_ne hne).trans ho', hp', hc'⟩

/-- The byte at `x` after `Unpatch()` on a leaf. -/
theorem unpatch_mem (h : Undoable M ids c) (id x : ℕ) :
    (c.unpatch id).mem x = M x ∨
      ((c.unpatch id).mem x = c.mem x ∧
        ∀ o, c.heap id = some o → o.patched = true → ¬o.Targets x) := by
  cases ho : c.heap id with
  | none => exact Or.inr ⟨by rw [Code.unpatch_of_none ho], by simp⟩
  | some o =>
    have hsaved := h.saved id o ho
    rw [Code.unpatch_of_some ho]
    simp only [Code.mem, PatchObject.unpatch_mem, Option.some.injEq, forall_eq']
    cases hp : o.patched with
    | false => exact Or.inr ⟨rfl, by simp⟩
    | true =>
      simp only [if_true, hsaved.write_saved]
      by_cases hc : o.Targets x
      · exact Or.inl (if_pos hc)
      · exact Or.inr ⟨if_neg hc, fun _ => hc⟩

/-- `Unpatch()` on any leaf writes only bytes of `M`. -/
theorem unpatch (h : Undoable M ids c) (id : ℕ) : Undoable M ids (c.unpatch id) := by
  refine ⟨fun j o hj => h.saved j o (c.unpatch_heap id ▸ hj), fun x hx => ?_⟩
  rcases h.unpatch_mem id x with hM | ⟨hmem, -⟩
  · exact (hx hM).elim
  · obtain ⟨j, hj, o, ho⟩ := h.covered x (hmem ▸ hx)
    exact ⟨j, hj, o, (c.unpatch_heap id).symm ▸ ho⟩

theorem foldl_patch (h : Undoable M ids c) {js : List ℕ} (hjs : js ⊆ ids) :
    Undoable M ids (js.foldl Code.patch c) :=
  List.foldlRecOn js Code.patch h fun _ hc _ hj => hc.patch (hjs hj)

theorem foldl_unpatch (h : Undoable M ids c) (js : List ℕ) :
    Undoable M ids (js.foldl Code.unpatch c) :=
  List.foldlRecOn js Code.unpatch h fun _ hc j _ => hc.unpatch j

/-- A byte that `Unpatch()` on the leaves `js` leaves different from `M` is in the target
of no patched leaf among them. -/
theorem not_targets_of_foldl_unpatch (h : Undoable M ids c) {js : List ℕ} {x : ℕ}
    (hx : (js.foldl Code.unpatch c).mem x ≠ M x) :
    c.mem x ≠ M x ∧ ∀ j ∈ js, ∀ o, c.heap j = some o → o.patched = true → ¬o.Targets x := by
  induction js generalizing c with
  | nil => exact ⟨hx, by simp⟩
  | cons j js ih =>
    obtain ⟨hne, hjs⟩ := ih (h.unpatch j) hx
    rcases h.unpatch_mem j x with hM | ⟨hmem, hj⟩
    · exact (hne hM).elim
    · rw [Code.unpatch_heap] at hjs
      exact ⟨hmem ▸ hne, List.forall_mem_cons.2 ⟨hj, hjs⟩⟩

/-- `Unpatch()` on all the leaves, in any order, gives `M`. -/
theorem foldl_unpatch_mem (h : Undoable M ids c) : (ids.foldl Code.unpatch c).mem = M := by
  ext x : 1
  by_contra hx
  obtain ⟨hne, hno⟩ := h.not_targets_of_foldl_unpatch hx
  obtain ⟨id, hid, o, ho, hp, hc⟩ := h.covered x hne
  exact hno id hid o ho hp hc

end Undoable

/-- A call on a registered patch, and no `UnregisterAll`. -/
def ManagerState.CallOk (s : ManagerState) : ManagerCall → Prop
  | .patch p | .unpatch p => Registered s.manager p
  | .unregisterAll => False
  | _ => True

/-- Every call keeps the memory undoable by the manager. -/
theorem undoable_step {M : ℕ → Byte} {s : ManagerState} {call : ManagerCall}
    (h : Undoable M (PatchManager.leaves s.manager) s.process.code) (hok : s.CallOk call) :
    Undoable M (PatchManager.leaves (s.step call).manager) (s.step call).process.code := by
  cases call with
  | register p =>
    refine h.mono ?_
    show _ ⊆ PatchManager.leaves (s.manager ++ [p])
    rw [PatchManager.leaves_append_singleton]
    exact List.subset_append_left ..
  | registerIn id p => exact h.mono (PatchManager.leaves_registerIn s.manager id p)
  | patchAll =>
    rw [ManagerState.step_patchAll_code]
    exact h.foldl_patch (List.Subset.refl _)
  | unpatchAll =>
    rw [ManagerState.step_unpatchAll_code]
    exact h.foldl_unpatch _
  | unregisterAll => exact hok.elim
  | patch p =>
    rw [ManagerState.step_patch_code]
    exact h.foldl_patch (Registered.leaves_subset hok)
  | unpatch p =>
    rw [ManagerState.step_unpatch_code]
    exact h.foldl_unpatch _

/-- Whatever was registered and called before, overlapping targets included, a final
`UnpatchAll` restores the memory every leaf was constructed from. -/
theorem unpatchAll_restores {M : ℕ → Byte} {s : ManagerState} {calls : List ManagerCall}
    (hmem : s.mem = M)
    (hnew : ∀ id o, s.process.code.heap id = some o → Constructed M false o)
    (hcalls : Along ManagerState.step ManagerState.CallOk s calls) :
    (run ManagerState.step s (calls ++ [.unpatchAll])).mem = M := by
  have hstart : Undoable M (PatchManager.leaves s.manager) s.process.code :=
    ⟨fun id o ho => (hnew id o ho).savedFrom, fun x hx => (hx (congrFun hmem x)).elim⟩
  have hrun := run_invariant
    (fun s : ManagerState => Undoable M (PatchManager.leaves s.manager) s.process.code)
    (fun _ _ h hok => undoable_step h hok) hstart hcalls
  rw [run_append, run_cons, run_nil, ManagerState.step, ManagerState.mem,
    PatchManager.unpatchAll_code]
  exact hrun.foldl_unpatch_mem

/-- Three leaves with overlapping targets, constructed from a memory of zeros. -/
def overlappingLeaves : List PatchObject :=
  [⟨2, .static (.new (fun _ => 0) 4 (fun _ => 0x90) (fun _ => 0xCC) false)⟩,
    ⟨2, .basic (.new (fun _ => 0) 5 (fun _ => 0xEB) (fun _ => 0xCC) false)⟩,
    ⟨4, .static (.new (fun _ => 0) 3 (fun _ => 0xB8) (fun _ => 0xCC) false)⟩]

/-- Two of the leaves in a composite and one beside it, patched in turn. -/
theorem unpatchAll_restores_overlapping :
    (run ManagerState.step
      ⟨[], ⟨⟨⟨fun _ => 0, []⟩, fun id => overlappingLeaves[id]?⟩, 4, []⟩⟩
      ([.register (.composite 3 [.bin 0]), .registerIn 3 (.bin 1), .patchAll,
        .register (.bin 2), .patch (.bin 2), .unpatch (.bin 1)] ++ [.unpatchAll])).mem =
      fun _ => 0 := by
  refine unpatchAll_restores rfl (fun id o ho => ?_) ?_
  · have hmem : o ∈ overlappingLeaves := List.mem_of_getElem? ho
    simp only [overlappingLeaves, List.mem_cons, List.not_mem_nil, or_false] at hmem
    rcases hmem with rfl | rfl | rfl
    · exact .static 4 _ _
    · exact .basic 5 _ _
    · exact .static 3 _ _
  · have hbin2 : CodePatch.bin 2 ∈ [CodePatch.composite 3 [.bin 0, .bin 1], .bin 2] := by simp
    have hcomposite : CodePatch.composite 3 [.bin 0, .bin 1] ∈
        [CodePatch.composite 3 [.bin 0, .bin 1], .bin 2] := by simp
    have hbin1 : CodePatch.bin 1 ∈ [CodePatch.bin 0, .bin 1] := by simp
    exact ⟨trivial, trivial, trivial, trivial, .here hbin2, .inside (.here hcomposite) hbin1,
      trivial⟩

end TickrateEnabler
