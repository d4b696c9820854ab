import TickrateEnabler.CodePatch
import TickrateEnabler.Sigs

/-!
# Constructing patches

`operator new` gives every object a new address. A constructor looks a function up
with the memory utilities, which keep a cache, checks bytes, and makes leaves from the
memory at that time, or throws a `PatchException`.

`Allocates` is all that a constructor does to the process : memory and older objects
stay as they are, and the new leaves are alive.
-/

namespace TickrateEnabler

open Memory

/-- `PatchException`, as its description. -/
structure PatchException where
  str : String
  deriving DecidableEq

/-- The lookups of `g_MemUtils`, with `κ` what it keeps between calls. `NULL` is `0`. -/
structure MemUtils (κ : Type*) where
  /-- `SimpleResolve(pBaseAddr, symbol)`. -/
  simpleResolve : κ → ℕ → Name → ℕ × κ
  /-- `FindLibPattern(libPtr, pattern, len)`, in a memory. -/
  findLibPattern : (ℕ → Byte) → ℕ → List Byte → ℕ

/-- The `Find…` functions : the build's way to look a function up. -/
def MemUtils.find {κ : Type*} (u : MemUtils κ) (mem : ℕ → Byte) (k : κ) (libPtr : ℕ) :
    Lookup → ℕ × κ
  | .symbol name => u.simpleResolve k libPtr name
  | .pattern sig len => (u.findLibPattern mem libPtr (sig.take len), k)

/-- `BasicStaticBinPatch<n>(target, replacement)`. Without `patchTimeCopy` the constructor
fills all of `m_original`. -/
def newStatic {n : ℕ} (mem : ℕ → Byte) (target : ℕ) (replacement : Fin n → Byte) : PatchObject :=
  ⟨n, .static (.new mem target replacement (load mem target n) false)⟩

namespace Process

/-- `operator new` for an object that is no leaf. -/
def alloc (s : Process) : ℕ × Process :=
  (s.next, { s with next := s.next + 1 })

/-- `new` of a leaf. -/
def new (s : Process) (o : PatchObject) : ℕ × Process :=
  (s.next, { s with
    code := { s.code with heap := Function.update s.code.heap s.next (some o) }
    next := s.next + 1 })

/-- From `s` to `s'` the leaves `os` were made, at the new addresses `ids`. -/
structure Allocates (s s' : Process) (ids : List ℕ) (os : List PatchObject) : Prop where
  world : s'.code.world = s.code.world
  next_le : s.next ≤ s'.next
  old : ∀ id < s.next, s'.code.heap id = s.code.heap id
  rest : ∀ id ∉ ids, s.next ≤ id → s.code.heap id = none → s'.code.heap id = none
  nodup : ids.Nodup
  fresh : ∀ id ∈ ids, s.next ≤ id ∧ id < s'.next
  heap : ids.map s'.code.heap = os.map some

namespace Allocates

variable {s s' s'' : Process} {ids ids' : List ℕ} {os os' : List PatchObject}

theorem refl (s : Process) : Allocates s s [] [] :=
  ⟨rfl, le_rfl, fun _ _ => rfl, fun _ _ _ h => h, List.nodup_nil, by simp, rfl⟩

theorem alloc (s : Process) : Allocates s s.alloc.2 [] [] :=
  ⟨rfl, Nat.le_succ _, fun _ _ => rfl, fun _ _ _ h => h, List.nodup_nil, by simp, rfl⟩

theorem new (s : Process) (o : PatchObject) : Allocates s (s.new o).2 [(s.new o).1] [o] := by
  refine ⟨rfl, Nat.le_succ _, fun id hid => ?_, fun id hid _ h => ?_, List.nodup_singleton _,
    ?_, ?_⟩
  · exact Function.update_of_ne (Nat.ne_of_lt hid) ..
  · exact (Function.update_of_ne (List.ne_of_not_mem_cons hid) ..).trans h
  · rintro id hid
    obtain rfl := List.mem_singleton.1 hid
    exact ⟨le_rfl, Nat.lt_succ_self _⟩
  · show [Function.update s.code.heap s.next (some o) s.next] = [some o]
    rw [Function.update_self]

/-- One constructor after another. -/
theorem trans (h : Allocates s s' ids os) (h' : Allocates s' s'' ids' os') :
    Allocates s s'' (ids ++ ids') (os ++ os') := by
  refine ⟨h'.world.trans h.world, h.next_le.trans h'.next_le, fun id hid => ?_,
    fun id hid hle hnone => ?_, ?_, ?_, ?_⟩
  · exact (h'.old id (Nat.lt_of_lt_of_le hid h.next_le)).trans (h.old id hid)
  · rw [List.mem_append, not_or] at hid
    have hs' := h.rest id hid.1 hle hnone
    rcases Nat.lt_or_ge id s'.next with hlt | hge
    · exact (h'.old id hlt).trans hs'
    · exact h'.rest id hid.2 hge hs'
  · refine List.nodup_append.2 ⟨h.nodup, h'.nodup, fun a ha b hb => ?_⟩
    have hlt := (h.fresh a ha).2
    have hle := (h'.fresh b hb).1
    exact Nat.ne_of_lt (Nat.lt_of_lt_of_le hlt hle)
  · intro id hid
    rcases List.mem_append.1 hid with hid | hid
    · exact ⟨(h.fresh id hid).1, Nat.lt_of_lt_of_le (h.fresh id hid).2 h'.next_le⟩
    · exact ⟨h.next_le.trans (h'.fresh id hid).1, (h'.fresh id hid).2⟩
  · have hold : ids.map s''.code.heap = ids.map s'.code.heap :=
      List.map_congr_left fun id hid => h'.old id (h.fresh id hid).2
    rw [List.map_append, List.map_append, hold, h.heap, h'.heap]

end Allocates

end Process

/-! ## Patching new leaves -/

namespace Code

theorem foldl_patch_heap {c : Code} {ids : List ℕ} {j : ℕ} (hj : j ∉ ids) :
    (ids.foldl Code.patch c).heap j = c.heap j :=
  List.foldlRecOn (motive := fun c' : Code => c'.heap j = c.heap j) ids Code.patch rfl
    fun c' h _ hid => (c'.patch_heap_of_ne (ne_of_mem_of_not_mem hid hj).symm).trans h

/-- `Patch()` on different leaves that are not patched writes their replacements in order. -/
theorem foldl_patch_mem {c : Code} {ids : List ℕ} {os : List PatchObject} (hnd : ids.Nodup)
    (hheap : ids.map c.heap = os.map some) (hos : ∀ o ∈ os, o.patched = false) :
    (ids.foldl Code.patch c).mem = writeAll c.mem (os.map PatchObject.site) := by
  induction ids generalizing c os with
  | nil =>
    obtain rfl : os = [] := List.map_eq_nil_iff.1 hheap.symm
    rfl
  | cons id ids ih =>
    obtain ⟨o, os, rfl⟩ : ∃ o os', os = o :: os' := by
      cases os with
      | nil => simp at hheap
      | cons o os => exact ⟨o, os, rfl⟩
    obtain ⟨hid, hnd⟩ := List.nodup_cons.1 hnd
    obtain ⟨ho, hrest⟩ := List.cons.inj hheap
    obtain ⟨hop, hos⟩ := List.forall_mem_cons.1 hos
    have hheap' : ids.map (c.patch id).heap = os.map some :=
      (List.map_congr_left fun j hj =>
        c.patch_heap_of_ne (ne_of_mem_of_not_mem hj hid)).trans hrest
    have hmem : (c.patch id).mem = o.site.write c.mem := by
      rw [patch_of_some ho]
      exact PatchObject.patch_mem hop c.world
    rw [List.foldl_cons, ih hnd hheap' hos, hmem]
    rfl

/-- A leaf after `Patch()` on the leaves `js`. -/
theorem foldl_patch_of_some {c : Code} {id : ℕ} {o : PatchObject} (ho : c.heap id = some o)
    (js : List ℕ) :
    ∃ o', (js.foldl Code.patch c).heap id = some o' ∧ o'.site = o.site ∧
      (id ∈ js ∨ o.patched = true → o'.patched = true) := by
  induction js generalizing c o with
  | nil => exact ⟨o, ho, rfl, fun h => h.resolve_left List.not_mem_nil⟩
  | cons j js ih =>
    rcases eq_or_ne j id with rfl | hne
    · obtain ⟨o', ho', hs, hp⟩ := ih (patch_heap_self ho)
      exact ⟨o', ho', hs.trans (o.patch_site _), fun _ => hp (Or.inr (o.patch_patched _))⟩
    · obtain ⟨o', ho', hs, hp⟩ := ih ((c.patch_heap_of_ne hne.symm).trans ho)
      refine ⟨o', ho', hs, fun h => hp (h.imp_left fun h => ?_)⟩
      exact (List.mem_cons.1 h).resolve_left hne.symm

/-- The flags of the leaves among `js` are set, and their sites stay. -/
theorem foldl_patch_leaves {c : Code} {ids js : List ℕ} {os : List PatchObject} (hsub : ids ⊆ js)
    (hheap : ids.map c.heap = os.map some) :
    ∃ os' : List PatchObject, ids.map (js.foldl Code.patch c).heap = os'.map some ∧
      os'.map PatchObject.site = os.map PatchObject.site ∧ ∀ o ∈ os', o.patched = true := by
  induction ids generalizing os with
  | nil =>
    obtain rfl : os = [] := List.map_eq_nil_iff.1 hheap.symm
    exact ⟨[], rfl, rfl, by simp⟩
  | cons id ids ih =>
    rcases os with - | ⟨o, os⟩
    · exact absurd hheap (by simp)
    obtain ⟨hid, hsub⟩ := List.cons_subset.1 hsub
    obtain ⟨ho, hheap⟩ := List.cons.inj hheap
    obtain ⟨o', ho', hs, hp⟩ := foldl_patch_of_some ho js
    obtain ⟨os', hos', hss, hps⟩ := ih hsub hheap
    refine ⟨o' :: os', ?_, ?_, List.forall_mem_cons.2 ⟨hp (Or.inl hid), hps⟩⟩
    · rw [List.map_cons, ho', hos', List.map_cons]
    · rw [List.map_cons, hs, hss, List.map_cons]

end Code

end TickrateEnabler
