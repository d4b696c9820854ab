import TickrateEnabler.EventLog
import TickrateEnabler.Ownership

/-!
# Writes to protected memory

Code memory is not writable before `SetMemPatchable`. `m_bFirstTime` and `m_bPatched` see to
it that a leaf asks for its target once, before its first write (`Unlocked`). So in every
run of a manager each byte written is in the target of a registered leaf that was made
patchable before, and no other byte changes (`writes_unprotected`).
-/

namespace TickrateEnabler

open Memory Transition EventLog

/-! ## Writes and requests -/

/-- A write comes after a `SetMemPatchable` of its range. -/
def Unprotected (pre : List Event) : Event → Prop
  | .memcpy dest size => .setMemPatchable dest size ∈ pre
  | .setMemPatchable _ _ => True

/-- Since memory was `M`, only ranges of `S` were written, each after it was made patchable. -/
structure World.Guarded (M : ℕ → Byte) (S : ℕ → ℕ → Prop) (w : World) : Prop where
  unprotected : Throughout Unprotected w.trace
  within : ∀ dest size, .memcpy dest size ∈ w.trace → S dest size
  written : ∀ x, w.mem x ≠ M x → ∃ dest size, .memcpy dest size ∈ w.trace ∧ Covers dest size x

namespace World.Guarded

variable {M : ℕ → Byte} {S : ℕ → ℕ → Prop} {w : World}

theorem setMemPatchable (h : w.Guarded M S) (a n : ℕ) : (w.setMemPatchable a n).Guarded M S := by
  refine ⟨throughout_append_singleton.2 ⟨h.unprotected, trivial⟩, fun dest size hmem => ?_,
    fun x hx => ?_⟩
  · rcases List.mem_append.1 hmem with hmem | hmem
    · exact h.within dest size hmem
    · cases List.mem_singleton.1 hmem
  · obtain ⟨dest, size, hmem, hc⟩ := h.written x hx
    exact ⟨dest, size, List.mem_append_left _ hmem, hc⟩

theorem memcpy (h : w.Guarded M S) {a n : ℕ} (hS : S a n) (hreq : .setMemPatchable a n ∈ w.trace)
    (v : Fin n → Byte) : (w.memcpy a v).Guarded M S := by
  refine ⟨throughout_append_singleton.2 ⟨h.unprotected, hreq⟩, fun dest size hmem => ?_,
    fun x hx => ?_⟩
  · rcases List.mem_append.1 hmem with hmem | hmem
    · exact h.within dest size hmem
    · obtain ⟨rfl, rfl⟩ := Event.memcpy.inj (List.mem_singleton.1 hmem)
      exact hS
  · by_cases hc : Covers a n x
    · exact ⟨a, n, by simp [World.memcpy], hc⟩
    · rw [memcpy_mem, store_of_not_covers hc] at hx
      obtain ⟨dest, size, hmem, hc⟩ := h.written x hx
      exact ⟨dest, size, List.mem_append_left _ hmem, hc⟩

end World.Guarded

namespace BasicStaticBinPatch

variable {LENGTH : ℕ} {p : BasicStaticBinPatch LENGTH} {w : World}

/-- Once it is not the first time, the target was made patchable, and a patched leaf is past
its first time. -/
structure Unlocked (p : BasicStaticBinPatch LENGTH) (t : List Event) : Prop where
  requested : p.bFirstTime = false → .setMemPatchable p.pTarget LENGTH ∈ t
  patched : p.bPatched = true → p.bFirstTime = false

theorem Unlocked.mono {t t' : List Event} (h : p.Unlocked t) (hsub : t ⊆ t') : p.Unlocked t' :=
  ⟨fun hf => hsub (h.requested hf), h.patched⟩

/-- The world `Patch()` writes to. -/
def requested (p : BasicStaticBinPatch LENGTH) (w : World) : World :=
  if p.bFirstTime then w.setMemPatchable p.pTarget LENGTH else w

theorem patch_snd (h : p.bPatched = false) (w : World) :
    (p.patch w).2 = (p.requested w).memcpy p.pTarget p.replacement := by
  rw [patch, h]
  rfl

theorem trace_subset_requested (p : BasicStaticBinPatch LENGTH) (w : World) :
    w.trace ⊆ (p.requested w).trace := by
  unfold requested
  split
  · exact List.subset_append_left ..
  · exact List.Subset.refl _

theorem trace_subset_patch (p : BasicStaticBinPatch LENGTH) (w : World) :
    w.trace ⊆ (p.patch w).2.trace := by
  cases hp : p.bPatched with
  | true => rw [patch_of_patched hp]; exact List.Subset.refl _
  | false =>
    rw [patch_snd hp]
    exact List.Subset.trans (p.trace_subset_requested w) (List.subset_append_left ..)

theorem trace_subset_unpatch (p : BasicStaticBinPatch LENGTH) (w : World) :
    w.trace ⊆ (p.unpatch w).2.trace := by
  unfold unpatch
  split
  · exact List.Subset.refl _
  · exact List.subset_append_left ..

/-- Before `Patch()` writes, the target is patchable. -/
theorem Unlocked.mem_requested (h : p.Unlocked w.trace) :
    .setMemPatchable p.pTarget LENGTH ∈ (p.requested w).trace := by
  unfold BasicStaticBinPatch.requested
  cases hf : p.bFirstTime with
  | true => exact List.mem_append_right _ (List.mem_singleton.2 rfl)
  | false => exact h.requested hf

theorem Unlocked.patch (h : p.Unlocked w.trace) :
    (p.patch w).1.Unlocked (p.patch w).2.trace := by
  cases hp : p.bPatched with
  | true => rwa [patch_of_patched hp]
  | false =>
    rw [patch_fst hp, patch_snd hp]
    exact ⟨fun _ => List.mem_append_left _ h.mem_requested, fun _ => rfl⟩

variable {M : ℕ → Byte} {S : ℕ → ℕ → Prop}

theorem Unlocked.guarded_patch (h : p.Unlocked w.trace) (hS : S p.pTarget LENGTH)
    (hw : w.Guarded M S) : (p.patch w).2.Guarded M S := by
  cases hp : p.bPatched with
  | true => rwa [patch_of_patched hp]
  | false =>
    have hreq : (p.requested w).Guarded M S := by
      unfold BasicStaticBinPatch.requested
      split
      · exact hw.setMemPatchable _ _
      · exact hw
    rw [patch_snd hp]
    exact hreq.memcpy hS h.mem_requested _

theorem Unlocked.guarded_unpatch (h : p.Unlocked w.trace) (hS : S p.pTarget LENGTH)
    (hw : w.Guarded M S) : (p.unpatch w).2.Guarded M S := by
  cases hp : p.bPatched with
  | false => rwa [unpatch_of_unpatched hp]
  | true =>
    rw [unpatch_of_patched hp]
    exact hw.memcpy hS (h.requested (h.patched hp)) _

end BasicStaticBinPatch

/-! ## Leaves of a manager -/

/-- The target and the length. -/
def PatchObject.range (o : PatchObject) : ℕ × ℕ :=
  (o.bin.view.pTarget, o.length)

@[simp] theorem PatchObject.patch_range (o : PatchObject) (w : World) :
    (o.patch w).1.range = o.range :=
  congrArg (fun b : Block Byte => (b.addr, b.len)) (o.patch_site w)

/-- The range of one of the leaves `ids`. -/
def RangeOf (heap : ℕ → Option PatchObject) (ids : List ℕ) (dest size : ℕ) : Prop :=
  ∃ id ∈ ids, ∃ o, heap id = some o ∧ o.range = (dest, size)

/-- Since `c₀` only the leaves `ids` were written, and every leaf that is alive is unlocked. -/
structure Code.Guarded (c₀ : Code) (ids : List ℕ) (c : Code) : Prop where
  world : c.world.Guarded c₀.mem (RangeOf c₀.heap ids)
  leaves : ∀ id o, c.heap id = some o → o.bin.view.Unlocked c.world.trace ∧
    ∃ o₀, c₀.heap id = some o₀ ∧ o₀.range = o.range

namespace Code.Guarded

variable {c₀ c : Code} {ids : List ℕ}

/-- A leaf among `ids` has one of the ranges. -/
theorem rangeOf (h : c₀.Guarded ids c) {id : ℕ} (hid : id ∈ ids) {o : PatchObject}
    (ho : c.heap id = some o) : RangeOf c₀.heap ids o.bin.view.pTarget o.length := by
  obtain ⟨-, o₀, ho₀, hrange⟩ := h.leaves id o ho
  exact ⟨id, hid, o₀, ho₀, hrange⟩

theorem patch (h : c₀.Guarded ids c) {id : ℕ} (hid : id ∈ ids) : c₀.Guarded ids (c.patch id) := by
  cases ho : c.heap id with
  | none => rwa [patch_of_none ho]
  | some o =>
    obtain ⟨hunlocked, hfrom⟩ := h.leaves id o ho
    have hworld : (o.patch c.world).2 = (o.bin.view.patch c.world).2 := (o.bin.view_patch c.world).2
    have hview : (o.patch c.world).1.bin.view = (o.bin.view.patch c.world).1 :=
      (o.bin.view_patch c.world).1
    rw [patch_of_some ho]
    refine ⟨?_, fun j o' hj => ?_⟩
    · show (o.patch c.world).2.Guarded _ _
      rw [hworld]
      exact hunlocked.guarded_patch (h.rangeOf hid ho) h.world
    · show o'.bin.view.Unlocked (o.patch c.world).2.trace ∧ _
      rcases eq_or_ne j id with rfl | hne
      · have hself : Function.update c.heap j (some (o.patch c.world).1) j = some o' := hj
        rw [Function.update_self] at hself
        obtain rfl := Option.some.inj hself
        rw [hworld, hview, PatchObject.patch_range]
        exact ⟨hunlocked.patch, hfrom⟩
      · have hother : Function.update c.heap id (some (o.patch c.world).1) j = some o' := hj
        rw [Function.update_of_ne hne] at hother
        obtain ⟨hu, hfrom'⟩ := h.leaves j o' hother
        rw [hworld]
        exact ⟨hu.mono (o.bin.view.trace_subset_patch _), hfrom'⟩

theorem unpatch (h : c₀.Guarded ids c) {id : ℕ} (hid : id ∈ ids) :
    c₀.Guarded ids (c.unpatch id) := by
  cases ho : c.heap id with
  | none => rwa [unpatch_of_none ho]
  | some o =>
    have hworld : (o.unpatch c.world).2 = (o.bin.view.unpatch c.world).2 := by
      rw [PatchObject.unpatch, BinPatch.unpatch_eq]
    rw [unpatch_of_some ho, hworld]
    refine ⟨(h.leaves id o ho).1.guarded_unpatch (h.rangeOf hid ho) h.world, fun j o' hj => ?_⟩
    obtain ⟨hu, hfrom⟩ := h.leaves j o' hj
    exact ⟨hu.mono (o.bin.view.trace_subset_unpatch _), hfrom⟩

theorem foldl_patch (h : c₀.Guarded ids c) {js : List ℕ} (hjs : js ⊆ ids) :
    c₀.Guarded ids (js.foldl Code.patch c) :=
  List.foldlRecOn js Code.patch h fun _ hc _ hj => hc.patch (hjs hj)

theorem foldl_unpatch (h : c₀.Guarded ids c) {js : List ℕ} (hjs : js ⊆ ids) :
    c₀.Guarded ids (js.foldl Code.unpatch c) :=
  List.foldlRecOn js Code.unpatch h fun _ hc _ hj => hc.unpatch (hjs hj)

end Code.Guarded

/-! ## Runs -/

theorem Constructed.unlocked {M : ℕ → Byte} {copy : Bool} {o : PatchObject}
    (h : Constructed M copy o) (t : List Event) : o.bin.view.Unlocked t := by
  cases h <;>
    exact ⟨fun hf => absurd hf.symm Bool.false_ne_true, fun hp => absurd hp Bool.false_ne_true⟩

/-- The leaves a call registers. -/
def ManagerCall.registers : ManagerCall → List ℕ
  | .register p | .registerIn _ p => p.leaves
  | _ => []

/-- `Patch()` and `Unpatch()` are called on registered patches. -/
def ManagerState.OnRegistered (s : ManagerState) : ManagerCall → Prop
  | .patch p | .unpatch p => Registered s.manager p
  | _ => True

mutual

theorem CodePatch.leaves_registerIn_subset (q : CodePatch) (id : ℕ) (p : CodePatch) :
    (q.registerIn id p).leaves ⊆ q.leaves ++ p.leaves := by
  cases q with
  | bin i => exact List.subset_append_left ..
  | wrapper i q => exact CodePatch.leaves_registerIn_subset q id p
  | composite i qs =>
    rw [CodePatch.registerIn, CodePatch.leaves, CodePatch.leaves, PatchManager.leaves_append]
    refine List.append_subset.2 ⟨PatchManager.leaves_registerIn_subset qs id p, ?_⟩
    split
    · rw [PatchManager.leaves, PatchManager.leaves, List.append_nil]
      exact List.subset_append_right ..
    · exact List.nil_subset _

theorem PatchManager.leaves_registerIn_subset (qs : PatchManager) (id : ℕ) (p : CodePatch) :
    PatchManager.leaves (PatchManager.registerIn qs id p) ⊆ PatchManager.leaves qs ++ p.leaves := by
  cases qs with
  | nil => exact List.nil_subset _
  | cons q qs =>
    rw [PatchManager.registerIn, PatchManager.leaves, PatchManager.leaves]
    intro j hj
    rw [List.append_assoc, List.mem_append]
    rcases List.mem_append.1 hj with hj | hj
    · have hq := CodePatch.leaves_registerIn_subset q id p hj
      exact (List.mem_append.1 hq).imp_right (List.mem_append_right _)
    · exact Or.inr (PatchManager.leaves_registerIn_subset qs id p hj)

end

/-- The manager has only leaves among `ids`, and only those were written. -/
structure ManagerState.Guarded (c₀ : Code) (ids : List ℕ) (s : ManagerState) : Prop where
  leaves : PatchManager.leaves s.manager ⊆ ids
  code : c₀.Guarded ids s.process.code

theorem ManagerState.Guarded.step {c₀ : Code} {ids : List ℕ} {s : ManagerState}
    {call : ManagerCall} (h : s.Guarded c₀ ids) (hok : s.OnRegistered call)
    (hids : call.registers ⊆ ids) : (s.step call).Guarded c₀ ids := by
  obtain ⟨hleaves, hcode⟩ := h
  cases call with
  | register p =>
    refine ⟨?_, hcode⟩
    show PatchManager.leaves (s.manager ++ [p]) ⊆ ids
    rw [PatchManager.leaves_append_singleton]
    exact List.append_subset.2 ⟨hleaves, hids⟩
  | registerIn id p =>
    exact ⟨List.Subset.trans (PatchManager.leaves_registerIn_subset s.manager id p)
      (List.append_subset.2 ⟨hleaves, hids⟩), hcode⟩
  | patchAll =>
    refine ⟨hleaves, ?_⟩
    rw [ManagerState.step_patchAll_code]
    exact hcode.foldl_patch hleaves
  | unpatchAll =>
    refine ⟨hleaves, ?_⟩
    rw [ManagerState.step_unpatchAll_code]
    exact hcode.foldl_unpatch hleaves
  | unregisterAll =>
    refine ⟨List.nil_subset _, ?_, fun id o ho => ?_⟩
    · simp only [ManagerState.step, PatchManager.deleteAll_world]
      exact hcode.world
    · simp only [ManagerState.step, PatchManager.deleteAll_world]
      exact hcode.leaves id o (PatchManager.deleteAll_heap_some ho)
  | patch p =>
    refine ⟨hleaves, ?_⟩
    rw [ManagerState.step_patch_code]
    exact hcode.foldl_patch (List.Subset.trans (Registered.leaves_subset hok) hleaves)
  | unpatch p =>
    refine ⟨hleaves, ?_⟩
    rw [ManagerState.step_unpatch_code]
    exact hcode.foldl_unpatch (List.Subset.trans (Registered.leaves_subset hok) hleaves)

theorem ManagerState.Guarded.run {c₀ : Code} {ids : List ℕ} {s : ManagerState}
    {calls : List ManagerCall} (h : s.Guarded c₀ ids)
    (hcalls : Along ManagerState.step ManagerState.OnRegistered s calls)
    (hids : calls.flatMap ManagerCall.registers ⊆ ids) :
    (run ManagerState.step s calls).Guarded c₀ ids := by
  induction calls generalizing s with
  | nil => exact h
  | cons call calls ih =>
    rw [List.flatMap_cons, List.append_subset] at hids
    exact ih (h.step hcalls.1 hids.1) hcalls.2 hids.2

/-- Every byte that a run writes is in the target of a registered leaf for which
`SetMemPatchable` was called before, and every other byte stays as it was and is not
written. The run may end anywhere, so the leaf was registered before the write. -/
theorem writes_unprotected {M : ℕ → Byte} {heap : ℕ → Option PatchObject} {next : ℕ}
    {log : List ObjectEvent} {calls : List ManagerCall}
    (hnew : ∀ id o, heap id = some o → ∃ M' copy, Constructed M' copy o)
    (hcalls : Along ManagerState.step ManagerState.OnRegistered
      ⟨[], ⟨⟨⟨M, []⟩, heap⟩, next, log⟩⟩ calls) :
    let r := run ManagerState.step ⟨[], ⟨⟨⟨M, []⟩, heap⟩, next, log⟩⟩ calls
    let registered := calls.flatMap ManagerCall.registers
    (∀ pre dest size post, r.process.code.world.trace = pre ++ .memcpy dest size :: post →
      ∀ x, Covers dest size x → ∃ id ∈ registered, ∃ o, heap id = some o ∧ o.Targets x ∧
        .setMemPatchable o.bin.view.pTarget o.length ∈ pre) ∧
    ∀ x, (∀ id ∈ registered, ∀ o, heap id = some o → ¬o.Targets x) →
      r.mem x = M x ∧
        ∀ dest size, .memcpy dest size ∈ r.process.code.world.trace → ¬Covers dest size x := by
  intro r registered
  have hstart : ManagerState.Guarded ⟨⟨M, []⟩, heap⟩ registered
      ⟨[], ⟨⟨⟨M, []⟩, heap⟩, next, log⟩⟩ := by
    refine ⟨List.nil_subset _, ⟨throughout_nil _, ?_, fun x hx => (hx rfl).elim⟩,
      fun id o ho => ?_⟩
    · exact fun dest size h => absurd h List.not_mem_nil
    · obtain ⟨M', copy, hconstr⟩ := hnew id o ho
      exact ⟨hconstr.unlocked [], o, ho, rfl⟩
  have hworld : r.process.code.world.Guarded M (RangeOf heap registered) :=
    (hstart.run hcalls (List.Subset.refl _)).code.world
  have htargets {dest size x : ℕ} (hmem : .memcpy dest size ∈ r.process.code.world.trace)
      (hc : Covers dest size x) : ∃ id ∈ registered, ∃ o, heap id = some o ∧
        o.range = (dest, size) ∧ o.Targets x := by
    obtain ⟨id, hid, o, ho, hrange⟩ := hworld.within dest size hmem
    obtain ⟨rfl, rfl⟩ := Prod.mk.inj hrange
    exact ⟨id, hid, o, ho, rfl, hc⟩
  refine ⟨fun pre dest size post htrace x hc => ?_, fun x hx => ?_⟩
  · have hmem : .memcpy dest size ∈ r.process.code.world.trace := by
      rw [htrace]
      simp
    obtain ⟨id, hid, o, ho, hrange, ht⟩ := htargets hmem hc
    obtain ⟨rfl, rfl⟩ := Prod.mk.inj hrange
    exact ⟨id, hid, o, ho, ht, hworld.unprotected pre _ post htrace⟩
  · have hno (dest size : ℕ) (hmem : .memcpy dest size ∈ r.process.code.world.trace) :
        ¬Covers dest size x := by
      intro hc
      obtain ⟨id, hid, o, ho, -, ht⟩ := htargets hmem hc
      exact hx id hid o ho ht
    refine ⟨?_, hno⟩
    by_contra hne
    obtain ⟨dest, size, hmem, hc⟩ := hworld.written x hne
    exact hno dest size hmem hc

/-- The byte after the overlapping leaves, with `UnpatchAll` first and `UnregisterAll` last. -/
theorem writes_unprotected_overlapping :
    let r := run ManagerState.step
      ⟨[], ⟨⟨⟨fun _ => 0, []⟩, fun id => overlappingLeaves[id]?⟩, 4, []⟩⟩
      [.register (.composite 3 [.bin 0]), .registerIn 3 (.bin 1), .unpatchAll, .patchAll,
        .register (.bin 2), .patch (.bin 2), .unpatchAll, .unregisterAll]
    r.mem 7 = 0 ∧
      ∀ dest size, .memcpy dest size ∈ r.process.code.world.trace → ¬Covers dest size 7 := by
  have hleaves {id : ℕ} {o : PatchObject} (ho : overlappingLeaves[id]? = some o) :
      (∃ M copy, Constructed M copy o) ∧ ¬o.Targets 7 := by
    have hmem : o ∈ overlappingLeaves := List.mem_of_getElem? ho
    simp only [overlappingLeaves, List.mem_cons, List.not_mem_nil, or_false] at hmem
    rcases hmem with rfl | rfl | rfl
    · exact ⟨⟨_, _, .static 4 _ _⟩, by decide⟩
    · exact ⟨⟨_, _, .basic 5 _ _⟩, by decide⟩
    · exact ⟨⟨_, _, .static 3 _ _⟩, by decide⟩
  have hbin2 : CodePatch.bin 2 ∈ [CodePatch.composite 3 [.bin 0, .bin 1], .bin 2] := by simp
  have hcalls : Along ManagerState.step ManagerState.OnRegistered
      ⟨[], ⟨⟨⟨fun _ => 0, []⟩, fun id => overlappingLeaves[id]?⟩, 4, []⟩⟩
      [.register (.composite 3 [.bin 0]), .registerIn 3 (.bin 1), .unpatchAll, .patchAll,
        .register (.bin 2), .patch (.bin 2), .unpatchAll, .unregisterAll] :=
    ⟨trivial, trivial, trivial, trivial, trivial, .here hbin2, trivial, trivial, trivial⟩
  exact (writes_unprotected (fun id o ho => (hleaves ho).1) hcalls).2 7
    fun id _ o ho => (hleaves ho).2

end TickrateEnabler
