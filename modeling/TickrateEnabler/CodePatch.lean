import TickrateEnabler.BinPatch

/-!
# Patch objects

A patch the plugin allocates is a leaf (`BasicBinPatch` or `BasicStaticBinPatch`), a
wrapper that owns one patch (`NetChanDataRatePatch`, `GameClientSetRatePatch`,
`ClampClientRatePatch`), or a composite with a `PatchManager` of its own
(`BoomerVomitFrameTimePatch`). `CodePatch` is the shape, with the objects' addresses;
`Code` holds the leaves' state and the memory they patch, `Process` the calls and
deletes so far.

`Patch()` on a shape is `Patch()` on its leaves in order, composites expanded in place
(`CodePatch.patch_code`, `patchAll_code`).
-/

namespace TickrateEnabler

open Memory

/-! ## Leaves -/

/-- A leaf of `n` bytes. -/
inductive BinPatch (n : ℕ) where
  | basic (p : BasicBinPatch n)
  | static (p : BasicStaticBinPatch n)

namespace BinPatch

variable {n : ℕ}

/-- The leaf as the class with two arrays. -/
def view : BinPatch n → BasicStaticBinPatch n
  | .basic p => p.toStatic
  | .static p => p

/-- The virtual call `Patch()`. -/
def patch (b : BinPatch n) (w : World) : BinPatch n × World :=
  match b with
  | .basic p => (.basic (p.patch w).1, (p.patch w).2)
  | .static p => (.static (p.patch w).1, (p.patch w).2)

/-- The virtual call `Unpatch()`. -/
def unpatch (b : BinPatch n) (w : World) : BinPatch n × World :=
  match b with
  | .basic p => (.basic (p.unpatch w).1, (p.unpatch w).2)
  | .static p => (.static (p.unpatch w).1, (p.unpatch w).2)

theorem view_patch (b : BinPatch n) (w : World) :
    (b.patch w).1.view = (b.view.patch w).1 ∧ (b.patch w).2 = (b.view.patch w).2 := by
  cases b with
  | basic p => exact p.toStatic_patch w
  | static p => exact ⟨rfl, rfl⟩

theorem patch_of_patched {b : BinPatch n} (h : b.view.bPatched = true) (w : World) :
    b.patch w = (b, w) := by
  cases b with
  | basic p =>
    have hp : p.bPatched = true := h
    rw [patch, BasicBinPatch.patch_of_patched hp]
  | static p =>
    have hp : p.bPatched = true := h
    rw [patch, BasicStaticBinPatch.patch_of_patched hp]

theorem unpatch_eq (b : BinPatch n) (w : World) : b.unpatch w = (b, (b.view.unpatch w).2) := by
  cases b with
  | basic p => rw [unpatch, BasicBinPatch.unpatch_fst, (p.toStatic_unpatch w).2, view]
  | static p => rw [unpatch, BasicStaticBinPatch.unpatch_fst, view]

end BinPatch

/-- A leaf on the heap. -/
structure PatchObject where
  length : ℕ
  bin : BinPatch length

namespace PatchObject

/-- `Patch()`. -/
def patch (o : PatchObject) (w : World) : PatchObject × World :=
  (⟨o.length, (o.bin.patch w).1⟩, (o.bin.patch w).2)

/-- `Unpatch()`. -/
def unpatch (o : PatchObject) (w : World) : PatchObject × World :=
  (⟨o.length, (o.bin.unpatch w).1⟩, (o.bin.unpatch w).2)

/-- The replacement, at the target. -/
def site (o : PatchObject) : Block Byte :=
  ⟨o.bin.view.pTarget, o.length, o.bin.view.replacement⟩

/-- The saved bytes, at the target. -/
def saved (o : PatchObject) : Block Byte :=
  ⟨o.bin.view.pTarget, o.length, o.bin.view.original⟩

/-- `m_bPatched`. -/
def patched (o : PatchObject) : Bool :=
  o.bin.view.bPatched

/-- `m_bPatchTimeCopy`. -/
def copies (o : PatchObject) : Bool :=
  o.bin.view.bPatchTimeCopy

/-- The address is in the target. -/
def Targets (o : PatchObject) (x : ℕ) : Prop :=
  Covers o.bin.view.pTarget o.length x

theorem patch_of_patched {o : PatchObject} (h : o.patched = true) (w : World) :
    o.patch w = (o, w) := by
  rw [patch, BinPatch.patch_of_patched h]

@[simp] theorem patch_site (o : PatchObject) (w : World) : (o.patch w).1.site = o.site := by
  simp only [patch, site, (o.bin.view_patch w).1, BasicStaticBinPatch.patch_pTarget,
    BasicStaticBinPatch.patch_replacement]

@[simp] theorem patch_copies (o : PatchObject) (w : World) :
    (o.patch w).1.copies = o.copies := by
  simp only [patch, copies, (o.bin.view_patch w).1, BasicStaticBinPatch.patch_bPatchTimeCopy]

@[simp] theorem patch_patched (o : PatchObject) (w : World) : (o.patch w).1.patched = true := by
  simp only [patch, patched, (o.bin.view_patch w).1, BasicStaticBinPatch.patch_bPatched]

/-- Without `patchTimeCopy` the saved bytes are those of the constructor. -/
theorem patch_saved {o : PatchObject} (h : o.copies = false) (w : World) :
    (o.patch w).1.saved = o.saved := by
  simp only [patch, saved, (o.bin.view_patch w).1, BasicStaticBinPatch.patch_pTarget,
    BasicStaticBinPatch.patch_original h]

theorem patch_mem {o : PatchObject} (h : o.patched = false) (w : World) :
    (o.patch w).2.mem = o.site.write w.mem := by
  rw [patch, (o.bin.view_patch w).2, BasicStaticBinPatch.patch_mem h]
  rfl

theorem unpatch_fst (o : PatchObject) (w : World) : (o.unpatch w).1 = o := by
  rw [unpatch, BinPatch.unpatch_eq]

theorem unpatch_mem (o : PatchObject) (w : World) :
    (o.unpatch w).2.mem = if o.patched then o.saved.write w.mem else w.mem := by
  rw [unpatch, BinPatch.unpatch_eq]
  cases h : o.patched with
  | false => rw [BasicStaticBinPatch.unpatch_of_unpatched h]; rfl
  | true => rw [BasicStaticBinPatch.unpatch_of_patched h]; rfl

end PatchObject

/-! ## Code memory and the leaves -/

/-- Code memory and the live leaves, by address. -/
structure Code where
  world : World
  heap : ℕ → Option PatchObject

namespace Code

/-- The memory. -/
abbrev mem (c : Code) : ℕ → Byte :=
  c.world.mem

/-- `Patch()` on the leaf at `id`. -/
def patch (c : Code) (id : ℕ) : Code :=
  match c.heap id with
  | some o => ⟨(o.patch c.world).2, Function.update c.heap id (some (o.patch c.world).1)⟩
  | none => c

/-- `Unpatch()` on the leaf at `id`. -/
def unpatch (c : Code) (id : ℕ) : Code :=
  match c.heap id with
  | some o => ⟨(o.unpatch c.world).2, Function.update c.heap id (some (o.unpatch c.world).1)⟩
  | none => c

theorem patch_of_some {c : Code} {id : ℕ} {o : PatchObject} (h : c.heap id = some o) :
    c.patch id = ⟨(o.patch c.world).2, Function.update c.heap id (some (o.patch c.world).1)⟩ := by
  rw [patch, h]

theorem patch_of_none {c : Code} {id : ℕ} (h : c.heap id = none) : c.patch id = c := by
  rw [patch, h]

/-- `Unpatch()` writes memory and changes no leaf. -/
theorem unpatch_of_some {c : Code} {id : ℕ} {o : PatchObject} (h : c.heap id = some o) :
    c.unpatch id = ⟨(o.unpatch c.world).2, c.heap⟩ := by
  rw [unpatch, h]
  simp only [PatchObject.unpatch_fst, Code.mk.injEq, true_and]
  exact Function.update_eq_self_iff.2 h.symm

theorem patch_heap_self {c : Code} {id : ℕ} {o : PatchObject} (h : c.heap id = some o) :
    (c.patch id).heap id = some (o.patch c.world).1 := by
  rw [patch_of_some h]
  exact Function.update_self ..

theorem patch_heap_of_ne (c : Code) {id j : ℕ} (hne : j ≠ id) :
    (c.patch id).heap j = c.heap j := by
  cases h : c.heap id with
  | none => rw [patch_of_none h]
  | some o =>
    rw [patch_of_some h]
    exact Function.update_of_ne hne ..

/-- `Patch()` leaves the bytes outside the target as they are. -/
theorem patch_mem_of_not_targets {c : Code} {id x : ℕ}
    (hx : ∀ o, c.heap id = some o → ¬o.Targets x) : (c.patch id).mem x = c.mem x := by
  cases h : c.heap id with
  | none => rw [patch_of_none h]
  | some o =>
    rw [patch_of_some h]
    cases hp : o.patched with
    | true => rw [PatchObject.patch_of_patched hp]
    | false =>
      simp only [mem, PatchObject.patch_mem hp]
      exact store_of_not_covers (hx o h)

theorem unpatch_of_none {c : Code} {id : ℕ} (h : c.heap id = none) : c.unpatch id = c := by
  rw [unpatch, h]

@[simp] theorem unpatch_heap (c : Code) (id : ℕ) : (c.unpatch id).heap = c.heap := by
  cases h : c.heap id with
  | none => rw [unpatch_of_none h]
  | some o => rw [unpatch_of_some h]

theorem foldl_unpatch_heap (c : Code) (ids : List ℕ) :
    (ids.foldl Code.unpatch c).heap = c.heap :=
  List.foldlRecOn (motive := fun c' : Code => c'.heap = c.heap) ids Code.unpatch rfl
    fun c' h id _ => (c'.unpatch_heap id).trans h

end Code

/-! ## Shapes -/

/-- A patch and what it owns, with the addresses of the objects. -/
inductive CodePatch where
  /-- `BasicBinPatch` or `BasicStaticBinPatch`. -/
  | bin (id : ℕ)
  /-- A class that owns one patch, `m_patch`. -/
  | wrapper (id : ℕ) (m_patch : CodePatch)
  /-- A class with its own `PatchManager`, `m_patches`. -/
  | composite (id : ℕ) (m_patches : List CodePatch)

/-- `PatchManager`, as its `patchList`. -/
abbrev PatchManager :=
  List CodePatch

/-- A call on, or the end of, a patch object. -/
inductive ObjectEvent where
  | patch (id : ℕ)
  | unpatch (id : ℕ)
  | delete (id : ℕ)
  deriving DecidableEq

/-- Code memory, the heap of patch objects, and the calls and deletes so far. -/
structure Process where
  code : Code
  next : ℕ
  log : List ObjectEvent

namespace Process

/-- Note an event. -/
def record (s : Process) (e : ObjectEvent) : Process :=
  { s with log := s.log ++ [e] }

/-- `Patch()` on the leaf at `id`. -/
def patch (s : Process) (id : ℕ) : Process :=
  { s.record (.patch id) with code := s.code.patch id }

/-- `Unpatch()` on the leaf at `id`. -/
def unpatch (s : Process) (id : ℕ) : Process :=
  { s.record (.unpatch id) with code := s.code.unpatch id }

/-- The object at `id` is freed. -/
def free (s : Process) (id : ℕ) : Process :=
  { s.record (.delete id) with
    code := { s.code with heap := Function.update s.code.heap id none } }

@[simp] theorem record_code (s : Process) (e : ObjectEvent) : (s.record e).code = s.code :=
  rfl

@[simp] theorem patch_code (s : Process) (id : ℕ) : (s.patch id).code = s.code.patch id :=
  rfl

@[simp] theorem unpatch_code (s : Process) (id : ℕ) : (s.unpatch id).code = s.code.unpatch id :=
  rfl

end Process

mutual

/-- The virtual call `Patch()`. -/
def CodePatch.patch : CodePatch → Process → Process
  | .bin id, s => s.patch id
  | .wrapper id p, s => p.patch (s.record (.patch id))
  | .composite id ps, s => PatchManager.patchAll ps (s.record (.patch id))

/-- `PatchManager::PatchAll`. -/
def PatchManager.patchAll : PatchManager → Process → Process
  | [], s => s
  | p :: ps, s => PatchManager.patchAll ps (p.patch s)

end

mutual

/-- The virtual call `Unpatch()`. -/
def CodePatch.unpatch : CodePatch → Process → Process
  | .bin id, s => s.unpatch id
  | .wrapper id p, s => p.unpatch (s.record (.unpatch id))
  | .composite id ps, s => PatchManager.unpatchAll ps (s.record (.unpatch id))

/-- `PatchManager::UnpatchAll`. -/
def PatchManager.unpatchAll : PatchManager → Process → Process
  | [], s => s
  | p :: ps, s => PatchManager.unpatchAll ps (p.unpatch s)

end

mutual

/-- `delete` of a patch. `~BoomerVomitFrameTimePatch` runs `UnregisterAll` and so does
the destructor of its manager, which by then is empty. -/
def CodePatch.delete : CodePatch → Process → Process
  | .bin id, s => s.free id
  | .wrapper id p, s => (p.delete s).free id
  | .composite id ps, s => (PatchManager.deleteAll ps s).free id

/-- The loop of `PatchManager::UnregisterAll`. -/
def PatchManager.deleteAll : PatchManager → Process → Process
  | [], s => s
  | p :: ps, s => PatchManager.deleteAll ps (p.delete s)

end

mutual

/-- The leaves, in the order `Patch()` reaches them. -/
def CodePatch.leaves : CodePatch → List ℕ
  | .bin id => [id]
  | .wrapper _ p => p.leaves
  | .composite _ ps => PatchManager.leaves ps

/-- The leaves of a manager, composites expanded in place. -/
def PatchManager.leaves : PatchManager → List ℕ
  | [] => []
  | p :: ps => p.leaves ++ PatchManager.leaves ps

end

/-- A manager of leaves. -/
theorem PatchManager.leaves_map_bin (ids : List ℕ) :
    PatchManager.leaves (ids.map CodePatch.bin) = ids := by
  induction ids with
  | nil => rfl
  | cons id ids ih =>
    rw [List.map_cons, PatchManager.leaves, ih, CodePatch.leaves, List.singleton_append]

mutual

theorem CodePatch.patch_code (p : CodePatch) (s : Process) :
    (p.patch s).code = p.leaves.foldl Code.patch s.code := by
  cases p with
  | bin id => rfl
  | wrapper id p => exact CodePatch.patch_code p _
  | composite id ps => exact PatchManager.patchAll_code ps _

/-- `PatchAll` is `Patch()` on the leaves, in order. -/
theorem PatchManager.patchAll_code (ps : PatchManager) (s : Process) :
    (PatchManager.patchAll ps s).code = (PatchManager.leaves ps).foldl Code.patch s.code := by
  cases ps with
  | nil => rfl
  | cons p ps =>
    rw [PatchManager.patchAll, PatchManager.patchAll_code ps, CodePatch.patch_code p,
      PatchManager.leaves, List.foldl_append]

end

mutual

theorem CodePatch.unpatch_code (p : CodePatch) (s : Process) :
    (p.unpatch s).code = p.leaves.foldl Code.unpatch s.code := by
  cases p with
  | bin id => rfl
  | wrapper id p => exact CodePatch.unpatch_code p _
  | composite id ps => exact PatchManager.unpatchAll_code ps _

/-- `UnpatchAll` is `Unpatch()` on the leaves, in order. -/
theorem PatchManager.unpatchAll_code (ps : PatchManager) (s : Process) :
    (PatchManager.unpatchAll ps s).code = (PatchManager.leaves ps).foldl Code.unpatch s.code := by
  cases ps with
  | nil => rfl
  | cons p ps =>
    rw [PatchManager.unpatchAll, PatchManager.unpatchAll_code ps, CodePatch.unpatch_code p,
      PatchManager.leaves, List.foldl_append]

end

end TickrateEnabler
