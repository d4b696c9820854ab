import TickrateEnabler.Layers

/-!
# The order of patches

Leaves may overlap, so what `PatchAll` leaves depends on their order. Without `Unpatch` it
is the order of registration, however often `PatchAll` runs and whatever is registered in
between : the byte at an address is that of the last leaf that covers it
(`patchAll_layers`).

With `patchTimeCopy` the saved bytes of a leaf are those of the leaf below it, and
`UnpatchAll` puts them back in order of registration and not in reverse. So `PatchAll`
followed by `UnpatchAll` gives the memory before exactly when, wherever leaves overlap,
the leaf under the last one wrote what was there already (`patchAll_unpatchAll_iff`).
-/

namespace TickrateEnabler

open Memory Transition

/-! ## Patching leaves again -/

theorem eraseDups_append_singleton (ids : List ℕ) (id : ℕ) :
    (ids ++ [id]).eraseDups = if id ∈ ids then ids.eraseDups else ids.eraseDups ++ [id] := by
  rw [List.eraseDups_append]
  split_ifs with hid
  · have hrest : [id].removeAll ids = [] := by simp [List.removeAll, hid]
    rw [hrest, List.eraseDups_nil, List.append_nil]
  · have hrest : [id].removeAll ids = [id] := by simp [List.removeAll, hid]
    rw [hrest]
    rfl

theorem nodup_eraseDups (ids : List ℕ) : ids.eraseDups.Nodup := by
  induction ids using List.reverseRecOn with
  | nil => exact List.nodup_nil
  | append_singleton ids id ih =>
    rw [eraseDups_append_singleton]
    split_ifs with hid
    · exact ih
    · refine List.nodup_append.2 ⟨ih, List.nodup_singleton id, fun a ha b hb => ?_⟩
      obtain rfl := List.mem_singleton.1 hb
      exact ne_of_mem_of_not_mem (List.mem_eraseDups.1 ha) hid

theorem eraseDups_of_nodup {ids : List ℕ} (h : ids.Nodup) : ids.eraseDups = ids := by
  induction ids using List.reverseRecOn with
  | nil => rfl
  | append_singleton ids id ih =>
    obtain ⟨hids, -, hid⟩ := List.nodup_append.1 h
    have hnot : id ∉ ids := fun hmem => hid id hmem id (List.mem_singleton.2 rfl) rfl
    rw [eraseDups_append_singleton, if_neg hnot, ih hids]

namespace Code

variable {c : Code}

/-- `Patch()` on leaves again does nothing. -/
theorem foldl_patch_of_subset {ids js : List ℕ} (hsub : js ⊆ ids)
    (halive : ∀ id ∈ ids, ∃ o, c.heap id = some o) :
    js.foldl Code.patch (ids.foldl Code.patch c) = ids.foldl Code.patch c := by
  refine foldl_patch_of_patched fun id hid => ?_
  obtain ⟨o, ho⟩ := halive id (hsub hid)
  obtain ⟨o', ho', -, hp⟩ := foldl_patch_of_some ho ids
  exact ⟨o', ho', hp (Or.inl (hsub hid))⟩

/-- A leaf counts where it is first in the list. -/
theorem foldl_patch_eraseDups {ids : List ℕ} (halive : ∀ id ∈ ids, ∃ o, c.heap id = some o) :
    ids.foldl Code.patch c = ids.eraseDups.foldl Code.patch c := by
  induction ids using List.reverseRecOn with
  | nil => rfl
  | append_singleton ids id ih =>
    obtain ⟨hids, -⟩ := List.forall_mem_append.1 halive
    rw [eraseDups_append_singleton, List.foldl_append, ih hids]
    split_ifs with hid
    · rw [← ih hids, foldl_patch_of_subset (by simpa using hid) hids]
    · rw [List.foldl_append]

/-- `Patch()` on a list of leaves, when the first of them had theirs. -/
theorem foldl_patch_append {pre rest : List ℕ} (halive : ∀ id ∈ pre, ∃ o, c.heap id = some o) :
    (pre ++ rest).foldl Code.patch (pre.foldl Code.patch c) =
      (pre ++ rest).foldl Code.patch c := by
  rw [List.foldl_append, foldl_patch_of_subset (List.Subset.refl _) halive, List.foldl_append]

end Code

/-- The replacements of the leaves at `ids`, at their targets. -/
def sites (heap : ℕ → Option PatchObject) (ids : List ℕ) : List (Block Byte) :=
  (ids.filterMap heap).map PatchObject.site

/-- The leaf is alive and not patched. -/
def Unapplied (heap : ℕ → Option PatchObject) (id : ℕ) : Prop :=
  ∃ o, heap id = some o ∧ o.patched = false

theorem map_eq_map_some_filterMap {heap : ℕ → Option PatchObject} {ids : List ℕ}
    (h : ∀ id ∈ ids, ∃ o, heap id = some o) :
    ids.map heap = (ids.filterMap heap).map some := by
  induction ids with
  | nil => rfl
  | cons id ids ih =>
    obtain ⟨⟨o, ho⟩, hids⟩ := List.forall_mem_cons.1 h
    rw [List.map_cons, ih hids, List.filterMap_cons_some ho, ho, List.map_cons]

/-- What `Patch()` on leaves that are not patched leaves at `x`. -/
theorem Code.foldl_patch_apply {c : Code} {ids : List ℕ}
    (h : ∀ id ∈ ids, Unapplied c.heap id) (x : ℕ) :
    (ids.foldl Code.patch c).mem x =
      (lastCell (sites c.heap ids.eraseDups) x).getD (c.mem x) := by
  have halive : ∀ id ∈ ids, ∃ o, c.heap id = some o := fun id hid =>
    (h id hid).imp fun o ho => ho.1
  have hunapplied : ∀ o ∈ ids.eraseDups.filterMap c.heap, o.patched = false := by
    intro o ho
    obtain ⟨id, hid, hsome⟩ := List.mem_filterMap.1 ho
    obtain ⟨o', ho', hp⟩ := h id (List.mem_eraseDups.1 hid)
    rwa [Option.some.inj (hsome.symm.trans ho')]
  have hheap : ids.eraseDups.map c.heap = (ids.eraseDups.filterMap c.heap).map some :=
    map_eq_map_some_filterMap fun id hid => halive id (List.mem_eraseDups.1 hid)
  rw [Code.foldl_patch_eraseDups halive,
    Code.foldl_patch_mem (nodup_eraseDups ids) hheap hunapplied, writeAll_apply]
  rfl

/-! ## Registering and patching -/

/-- A `Register` or `PatchAll` of the manager. -/
def ManagerCall.Applies : ManagerCall → Prop
  | .register _ | .patchAll => True
  | _ => False

/-- The leaves that `PatchAll` has reached are the first of those registered. -/
theorem exists_patched_prefix {s : ManagerState} (calls : List ManagerCall)
    (halive : ∀ id ∈ PatchManager.leaves (run ManagerState.step s calls).manager,
      ∃ o, s.process.code.heap id = some o)
    (hcalls : ∀ call ∈ calls, call.Applies) :
    ∃ pre rest, (run ManagerState.step s calls).process.code =
        pre.foldl Code.patch s.process.code ∧
      PatchManager.leaves (run ManagerState.step s calls).manager = pre ++ rest := by
  induction calls using List.reverseRecOn with
  | nil => exact ⟨[], PatchManager.leaves s.manager, rfl, rfl⟩
  | append_singleton calls call ih =>
    rw [List.forall_mem_append, List.forall_mem_singleton] at hcalls
    rw [run_append] at halive ⊢
    cases call with
    | register p =>
      have hleaves : PatchManager.leaves ((run ManagerState.step s calls).manager ++ [p]) =
          PatchManager.leaves (run ManagerState.step s calls).manager ++ p.leaves :=
        PatchManager.leaves_append_singleton ..
      have hold : ∀ id ∈ PatchManager.leaves (run ManagerState.step s calls).manager,
          ∃ o, s.process.code.heap id = some o := by
        intro id hid
        refine halive id ?_
        show id ∈ PatchManager.leaves ((run ManagerState.step s calls).manager ++ [p])
        rw [hleaves]
        exact List.mem_append_left _ hid
      obtain ⟨pre, rest, hcode, hpre⟩ := ih hold hcalls.1
      refine ⟨pre, rest ++ p.leaves, hcode, hleaves.trans ?_⟩
      rw [hpre, List.append_assoc]
    | patchAll =>
      obtain ⟨pre, rest, hcode, hpre⟩ := ih halive hcalls.1
      refine ⟨pre ++ rest, [], ?_, by rw [List.append_nil]; exact hpre⟩
      have hpre_alive : ∀ id ∈ pre, ∃ o, s.process.code.heap id = some o := fun id hid =>
        halive id (hpre ▸ List.mem_append_left _ hid)
      show (PatchManager.patchAll _ _).code = _
      rw [PatchManager.patchAll_code, hpre, hcode, Code.foldl_patch_append hpre_alive]
    | unpatchAll | unregisterAll | registerIn | patch | unpatch => exact hcalls.2.elim

/-- A run that ends with `PatchAll` patches all leaves of the manager, in order. -/
theorem run_patchAll_code {s : ManagerState} {calls : List ManagerCall}
    (halive : ∀ id ∈ PatchManager.leaves (run ManagerState.step s calls).manager,
      ∃ o, s.process.code.heap id = some o)
    (hcalls : ∀ call ∈ calls, call.Applies) :
    (run ManagerState.step s (calls ++ [.patchAll])).process.code =
      (PatchManager.leaves (run ManagerState.step s calls).manager).foldl Code.patch
        s.process.code := by
  obtain ⟨pre, rest, hcode, hpre⟩ := exists_patched_prefix calls halive hcalls
  have hpre_alive : ∀ id ∈ pre, ∃ o, s.process.code.heap id = some o := fun id hid =>
    halive id (hpre ▸ List.mem_append_left _ hid)
  rw [run_append, run_cons, run_nil]
  show (PatchManager.patchAll _ _).code = _
  rw [PatchManager.patchAll_code, hpre, hcode, Code.foldl_patch_append hpre_alive]

theorem PatchManager.leaves_perm {ps qs : PatchManager} (h : List.Perm ps qs) :
    (PatchManager.leaves ps).Perm (PatchManager.leaves qs) := by
  have hflat (ps : PatchManager) : PatchManager.leaves ps = ps.flatMap CodePatch.leaves := by
    induction ps with
    | nil => rfl
    | cons p ps ih => rw [PatchManager.leaves, ih, List.flatMap_cons]
  rw [hflat, hflat]
  exact h.flatMap_right _

/-- The targets of different leaves are disjoint. -/
def DisjointTargets (heap : ℕ → Option PatchObject) (ids : List ℕ) : Prop :=
  ∀ id ∈ ids, ∀ id' ∈ ids, ∀ o o' x, heap id = some o → heap id' = some o' →
    o.Targets x → o'.Targets x → id = id'

/-- At disjoint targets the order of the leaves does not matter. -/
theorem lastCell_sites_congr {heap : ℕ → Option PatchObject} {ids ids' : List ℕ}
    (hmem : ∀ id, id ∈ ids ↔ id ∈ ids') (hdisj : DisjointTargets heap ids) (x : ℕ) :
    lastCell (sites heap ids) x = lastCell (sites heap ids') x := by
  have hmem_sites (ids : List ℕ) (b : Block Byte) :
      b ∈ sites heap ids ↔ ∃ id ∈ ids, ∃ o, heap id = some o ∧ o.site = b := by
    simp only [sites, List.mem_map, List.mem_filterMap]
    constructor
    · rintro ⟨o, ⟨id, hid, ho⟩, hb⟩
      exact ⟨id, hid, o, ho, hb⟩
    · rintro ⟨id, hid, o, ho, hb⟩
      exact ⟨o, ⟨id, hid, ho⟩, hb⟩
  refine lastCell_congr (fun b => ?_) fun b hb b' hb' v v' hv hv' => ?_
  · simp only [hmem_sites, hmem]
  · obtain ⟨id, hid, o, ho, rfl⟩ := (hmem_sites ids b).1 hb
    obtain ⟨id', hid', o', ho', rfl⟩ := (hmem_sites ids b').1 hb'
    obtain rfl := hdisj id hid id' hid' o o' x ho ho' (covers_of_cellAt hv) (covers_of_cellAt hv')
    obtain rfl := Option.some.inj (ho.symm.trans ho')
    exact Option.some.inj (hv.symm.trans hv')

theorem lastCell_sites_perm {heap : ℕ → Option PatchObject} {ids ids' : List ℕ}
    (h : ids.Perm ids') (hdisj : DisjointTargets heap ids) (x : ℕ) :
    lastCell (sites heap ids.eraseDups) x = lastCell (sites heap ids'.eraseDups) x := by
  refine lastCell_sites_congr (fun id => ?_) (fun id hid id' hid' => ?_) x
  · rw [List.mem_eraseDups, List.mem_eraseDups, h.mem_iff]
  · exact hdisj id (List.mem_eraseDups.1 hid) id' (List.mem_eraseDups.1 hid')

/-- After a run that ends with `PatchAll` each byte is that of the last leaf that covers it. -/
theorem run_patchAll_apply {s : ManagerState} {calls : List ManagerCall}
    (hunapplied : ∀ id ∈ PatchManager.leaves (run ManagerState.step s calls).manager,
      Unapplied s.process.code.heap id)
    (hcalls : ∀ call ∈ calls, call.Applies) (x : ℕ) :
    (run ManagerState.step s (calls ++ [.patchAll])).mem x =
      (lastCell (sites s.process.code.heap
        (PatchManager.leaves (run ManagerState.step s calls).manager).eraseDups) x).getD
          (s.mem x) := by
  have hcode := run_patchAll_code (fun id hid => (hunapplied id hid).imp fun o ho => ho.1) hcalls
  rw [ManagerState.mem, hcode, Code.foldl_patch_apply hunapplied]

/-- When all leaves of the manager had their `Patch()`, more `PatchAll`s do nothing. -/
theorem run_replicate_patchAll_code {s : ManagerState} {c : Code}
    (hs : s.process.code = (PatchManager.leaves s.manager).foldl Code.patch c)
    (halive : ∀ id ∈ PatchManager.leaves s.manager, ∃ o, c.heap id = some o) (n : ℕ) :
    (run ManagerState.step s (List.replicate n .patchAll)).process.code = s.process.code := by
  induction n generalizing s with
  | zero => rfl
  | succ n ih =>
    have hstep : (s.step .patchAll).process.code = s.process.code := by
      rw [ManagerState.step_patchAll_code, hs, Code.foldl_patch_of_subset (List.Subset.refl _) halive]
    rw [List.replicate_succ, run_cons, ih (s := s.step .patchAll) (hstep.trans hs) halive, hstep]

/-- A run of `Register` and `PatchAll` that ends with `PatchAll`, on leaves that are not
patched before. Each byte is that of the last leaf that covers it, leaves standing in the
order of their registration and a leaf registered again where it was first. More
`PatchAll`s change nothing, and with disjoint targets neither does another order. -/
theorem patchAll_layers {s : ManagerState} {calls : List ManagerCall}
    (hcalls : ∀ call ∈ calls, call.Applies)
    (hunapplied : ∀ id ∈ PatchManager.leaves (run ManagerState.step s calls).manager,
      Unapplied s.process.code.heap id) :
    let r := run ManagerState.step s (calls ++ [.patchAll])
    let ids := PatchManager.leaves (run ManagerState.step s calls).manager
    (∀ x, r.mem x = (lastCell (sites s.process.code.heap ids.eraseDups) x).getD (s.mem x)) ∧
      (ids.Nodup → ids.eraseDups = ids) ∧
      (∀ n, (run ManagerState.step r (List.replicate n .patchAll)).mem = r.mem) ∧
      (DisjointTargets s.process.code.heap ids →
        ∀ s' : ManagerState, s'.process = s.process →
          ∀ calls' : List ManagerCall, (∀ call ∈ calls', call.Applies) →
            (run ManagerState.step s' calls').manager.Perm
                (run ManagerState.step s calls).manager →
              (run ManagerState.step s' (calls' ++ [.patchAll])).mem = r.mem) := by
  intro r ids
  have halive : ∀ id ∈ ids, ∃ o, s.process.code.heap id = some o := fun id hid =>
    (hunapplied id hid).imp fun o ho => ho.1
  have hmanager : r.manager = (run ManagerState.step s calls).manager := by
    show (run ManagerState.step s (calls ++ [.patchAll])).manager = _
    rw [run_append]
    rfl
  have hcode : r.process.code = (PatchManager.leaves r.manager).foldl Code.patch s.process.code := by
    rw [hmanager]
    exact run_patchAll_code halive hcalls
  refine ⟨run_patchAll_apply hunapplied hcalls, eraseDups_of_nodup, fun n => ?_,
    fun hdisj s' hs' calls' hcalls' hperm => ?_⟩
  · exact congrArg Code.mem (run_replicate_patchAll_code hcode (hmanager ▸ halive) n)
  · have hleaves := PatchManager.leaves_perm hperm
    have hunapplied' : ∀ id ∈ PatchManager.leaves (run ManagerState.step s' calls').manager,
        Unapplied s'.process.code.heap id := fun id hid =>
      hs' ▸ hunapplied id (hleaves.mem_iff.1 hid)
    have hmem : s'.mem = s.mem := congrArg (fun p : Process => p.code.mem) hs'
    ext x : 1
    rw [run_patchAll_apply hunapplied' hcalls', run_patchAll_apply hunapplied hcalls, hs', hmem,
      lastCell_sites_perm hleaves.symm hdisj]

/-- A leaf in a composite, patched before one beside it that overlaps it is registered. -/
theorem patchAll_layers_overlapping :
    (run ManagerState.step
      ⟨[], ⟨⟨⟨fun _ => 0, []⟩, fun id => overlappingLeaves[id]?⟩, 4, []⟩⟩
      ([.register (.composite 3 [.bin 0]), .patchAll, .register (.bin 1)] ++ [.patchAll])).mem 5 =
      0xEB := by
  have hcalls : ∀ call ∈ [ManagerCall.register (.composite 3 [.bin 0]), .patchAll,
      .register (.bin 1)], call.Applies := by
    simp [ManagerCall.Applies]
  have hunapplied : ∀ id ∈ PatchManager.leaves [CodePatch.composite 3 [.bin 0], .bin 1],
      Unapplied (fun id => overlappingLeaves[id]?) id := by
    intro id hid
    simp only [PatchManager.leaves, CodePatch.leaves, List.append_nil, List.singleton_append,
      List.mem_cons, List.not_mem_nil, or_false] at hid
    rcases hid with rfl | rfl
    · exact ⟨_, rfl, rfl⟩
    · exact ⟨_, rfl, rfl⟩
  have hmem := (patchAll_layers
    (s := ⟨[], ⟨⟨⟨fun _ => 0, []⟩, fun id => overlappingLeaves[id]?⟩, 4, []⟩⟩)
    hcalls hunapplied).1 5
  exact hmem.trans (by decide)

/-! ## Undoing patches that copy -/

/-- The leaf covers `x`. -/
def coversAt (heap : ℕ → Option PatchObject) (x id : ℕ) : Bool :=
  (heap id).any fun o => (o.site.cellAt x).isSome

/-- What the last leaf of the list that covers `x` has under it : the byte of the leaf patched
there before it, if there is one. -/
def byteUnder (heap : ℕ → Option PatchObject) (ids : List ℕ) (x : ℕ) : Option Byte :=
  match (ids.filter (coversAt heap x)).getLast? with
  | none => none
  | some id => lastCell (sites heap (ids.eraseDups.takeWhile (· ≠ id))) x

theorem coversAt_of_some {heap : ℕ → Option PatchObject} {id : ℕ} {o : PatchObject}
    (ho : heap id = some o) (x : ℕ) : coversAt heap x id = (o.site.cellAt x).isSome := by
  rw [coversAt, ho, Option.any_some]

theorem coversAt_eq_false {heap : ℕ → Option PatchObject} {id : ℕ} {o : PatchObject}
    (ho : heap id = some o) {x : ℕ} (h : ¬o.Targets x) : coversAt heap x id = false := by
  rw [coversAt_of_some ho, (cellAt_eq_none_iff (b := o.site)).2 h, Option.isSome_none]

/-- No leaf of the list covers `x`. -/
theorem lastCell_sites_eq_none {heap : ℕ → Option PatchObject} {ids : List ℕ} {x : ℕ}
    (h : ∀ id ∈ ids, coversAt heap x id = false) : lastCell (sites heap ids) x = none := by
  refine List.findSome?_eq_none_iff.2 fun b hb => ?_
  obtain ⟨o, ho, rfl⟩ := List.mem_map.1 (List.mem_reverse.1 hb)
  obtain ⟨id, hid, hsome⟩ := List.mem_filterMap.1 ho
  have hcovers := h id hid
  rwa [coversAt_of_some hsome, Option.isSome_eq_false_iff, Option.isNone_iff_eq_none] at hcovers

namespace Code

variable {c : Code}

/-- A leaf that copies has saved what the leaves before it left. -/
theorem foldl_patch_saved {ids : List ℕ} (hnd : ids.Nodup) {id : ℕ} (hid : id ∈ ids)
    {o : PatchObject} (ho : c.heap id = some o) (hp : o.patched = false)
    (hc : o.copies = true) :
    ∃ o', (ids.foldl Code.patch c).heap id = some o' ∧ o'.patched = true ∧
      ∀ x, o'.saved.cellAt x = if (o.site.cellAt x).isSome then
        some (((ids.takeWhile (· ≠ id)).foldl Code.patch c).mem x) else none := by
  obtain ⟨pre, post, rfl, hpre⟩ := List.eq_append_cons_of_mem hid
  have hpost : id ∉ post := (List.nodup_cons.1 (List.nodup_append.1 hnd).2.1).1
  have htake : (pre ++ id :: post).takeWhile (· ≠ id) = pre := by
    rw [List.takeWhile_append_of_pos fun j hj => by simpa using ne_of_mem_of_not_mem hj hpre]
    simp
  have hc' : (pre.foldl Code.patch c).heap id = some o := (foldl_patch_heap hpre).trans ho
  refine ⟨(o.patch (pre.foldl Code.patch c).world).1, ?_, o.patch_patched _, fun x => ?_⟩
  · rw [List.foldl_append, List.foldl_cons, foldl_patch_heap hpost, patch_heap_self hc']
  · have hcovers : (o.site.cellAt x).isSome ↔ Covers o.bin.view.pTarget o.length x := by
      rw [Option.isSome_iff_ne_none, ne_eq, cellAt_eq_none_iff, not_not]
      rfl
    rw [htake, PatchObject.patch_saved_of_copies hp hc, cellAt_load]
    exact if_congr hcovers.symm rfl rfl

/-- The last `Unpatch()` of a leaf that covers `x` decides what is there. -/
theorem foldl_unpatch_apply {x : ℕ} {covers : ℕ → Bool} {u : ℕ → Byte} {ids : List ℕ}
    (h : ∀ id ∈ ids, ∃ o, c.heap id = some o ∧ o.patched = true ∧
      o.saved.cellAt x = if covers id then some (u id) else none) :
    (ids.foldl Code.unpatch c).mem x =
      ((ids.filter covers).getLast?.map u).getD (c.mem x) := by
  induction ids using List.reverseRecOn with
  | nil => rfl
  | append_singleton ids id ih =>
    obtain ⟨hids, hid⟩ := List.forall_mem_append.1 h
    obtain ⟨o, ho, hp, hsaved⟩ := hid id (List.mem_singleton_self id)
    have ho' : (ids.foldl Code.unpatch c).heap id = some o := by
      rwa [foldl_unpatch_heap]
    have hmem : ((ids.foldl Code.unpatch c).unpatch id).mem =
        o.saved.write (ids.foldl Code.unpatch c).mem := by
      rw [unpatch_of_some ho']
      exact (o.unpatch_mem _).trans (if_pos hp)
    rw [List.foldl_append, List.foldl_cons, List.foldl_nil, hmem, Block.write_apply, ih hids,
      hsaved, List.filter_append, List.filter_singleton]
    cases covers id with
    | false => simp
    | true => simp

end Code

/-- After `Patch()` and then `Unpatch()` on leaves that copy, each byte is what the last leaf
that covers it has under it. -/
theorem Code.foldl_unpatch_patch_apply {c : Code} {ids : List ℕ}
    (h : ∀ id ∈ ids, ∃ o, c.heap id = some o ∧ o.patched = false ∧ o.copies = true) (x : ℕ) :
    (ids.foldl Code.unpatch (ids.foldl Code.patch c)).mem x =
      (byteUnder c.heap ids x).getD (c.mem x) := by
  have halive : ∀ id ∈ ids, ∃ o, c.heap id = some o := fun id hid =>
    (h id hid).imp fun o ho => ho.1
  have hunapplied : ∀ id ∈ ids, Unapplied c.heap id := fun id hid =>
    (h id hid).imp fun o ho => ⟨ho.1, ho.2.1⟩
  have hsaved : ∀ id ∈ ids, ∃ o, (ids.foldl Code.patch c).heap id = some o ∧
      o.patched = true ∧ o.saved.cellAt x = if coversAt c.heap x id then
        some (((ids.eraseDups.takeWhile (· ≠ id)).foldl Code.patch c).mem x) else none := by
    intro id hid
    obtain ⟨o, ho, hp, hc⟩ := h id hid
    obtain ⟨o', ho', hp', hcell⟩ :=
      Code.foldl_patch_saved (nodup_eraseDups ids) (List.mem_eraseDups.2 hid) ho hp hc
    rw [← Code.foldl_patch_eraseDups halive] at ho'
    refine ⟨o', ho', hp', ?_⟩
    rw [hcell, coversAt_of_some ho]
  rw [Code.foldl_unpatch_apply hsaved, byteUnder]
  cases hlast : (ids.filter (coversAt c.heap x)).getLast? with
  | none =>
    have hnone : ∀ id ∈ ids, coversAt c.heap x id = false := by
      simpa using List.getLast?_eq_none_iff.1 hlast
    have hcell : lastCell (sites c.heap ids.eraseDups) x = none :=
      lastCell_sites_eq_none fun id hid => hnone id (List.mem_eraseDups.1 hid)
    show (ids.foldl Code.patch c).mem x = c.mem x
    rw [Code.foldl_patch_apply hunapplied, hcell, Option.getD_none]
  | some id =>
    have hsub : (ids.eraseDups.takeWhile (· ≠ id)).Sublist ids.eraseDups :=
      List.takeWhile_sublist _
    have hbefore : ∀ j ∈ ids.eraseDups.takeWhile (· ≠ id), Unapplied c.heap j := fun j hj =>
      hunapplied j (List.mem_eraseDups.1 (hsub.subset hj))
    show ((ids.eraseDups.takeWhile (· ≠ id)).foldl Code.patch c).mem x = _
    rw [Code.foldl_patch_apply hbefore,
      eraseDups_of_nodup ((nodup_eraseDups ids).sublist hsub)]

theorem run_map_register (ps : PatchManager) (s : Process) (ids : List ℕ)
    (calls : List ManagerCall) :
    run ManagerState.step ⟨ps, s⟩ ((ids.map fun id => .register (.bin id)) ++ calls) =
      run ManagerState.step ⟨ps ++ ids.map .bin, s⟩ calls := by
  induction ids generalizing ps with
  | nil => rw [List.map_nil, List.map_nil, List.nil_append, List.append_nil]
  | cons id ids ih =>
    rw [List.map_cons, List.cons_append, run_cons, List.map_cons, List.append_cons]
    exact ih _

/-- Leaves that copy at patch time are registered, patched and unpatched. Memory is as before
exactly when, at every address, the last leaf that covers it has under it the byte that was
there before. -/
theorem patchAll_unpatchAll_iff {s : Process} {ids : List ℕ}
    (hnew : ∀ id ∈ ids, ∃ o M, s.code.heap id = some o ∧ Constructed M true o) :
    (run ManagerState.step ⟨[], s⟩
        ((ids.map fun id => .register (.bin id)) ++ [.patchAll, .unpatchAll])).mem =
        s.code.mem ↔
      ∀ x v, byteUnder s.code.heap ids x = some v → v = s.code.mem x := by
  have hleaves : ∀ id ∈ ids, ∃ o, s.code.heap id = some o ∧ o.patched = false ∧
      o.copies = true := by
    intro id hid
    obtain ⟨o, M, ho, hconstr⟩ := hnew id hid
    exact ⟨o, ho, hconstr.unpatched, hconstr.copies_eq⟩
  have hrun (x : ℕ) : (run ManagerState.step ⟨[], s⟩
      ((ids.map fun id => .register (.bin id)) ++ [.patchAll, .unpatchAll])).mem x =
        (byteUnder s.code.heap ids x).getD (s.code.mem x) := by
    rw [run_map_register, ← Code.foldl_unpatch_patch_apply hleaves]
    show (PatchManager.unpatchAll (ids.map .bin) (PatchManager.patchAll (ids.map .bin) s)).code.mem
      x = _
    rw [PatchManager.unpatchAll_code, PatchManager.patchAll_code, PatchManager.leaves_map_bin]
  rw [funext_iff]
  refine forall_congr' fun x => ?_
  rw [hrun]
  cases byteUnder s.code.heap ids x <;> simp

/-- Two leaves that copy, of one byte at one address. -/
def copyingLeaves (first second : Byte) : List PatchObject :=
  [⟨1, .static (.new (fun _ => 0) 4 (fun _ => first) (fun _ => 0xCC) true)⟩,
    ⟨1, .basic (.new (fun _ => 0) 4 (fun _ => second) (fun _ => 0xCC) true)⟩]

/-- A process with these leaves, in a memory of zeros. -/
def copyingProcess (first second : Byte) : Process :=
  ⟨⟨⟨fun _ => 0, []⟩, fun id => (copyingLeaves first second)[id]?⟩, 2, []⟩

/-- The first leaf writes what is there. -/
theorem patchAll_unpatchAll_same_byte :
    (run ManagerState.step ⟨[], copyingProcess 0 0xCC⟩
      (([0, 1].map fun id => .register (.bin id)) ++ [.patchAll, .unpatchAll])).mem =
      fun _ => 0 := by
  have hnew : ∀ id ∈ [0, 1], ∃ o M,
      (copyingProcess 0 0xCC).code.heap id = some o ∧ Constructed M true o := by
    intro id hid
    simp only [List.mem_cons, List.not_mem_nil, or_false] at hid
    rcases hid with rfl | rfl
    · exact ⟨_, fun _ => 0, rfl, .static 4 _ _⟩
    · exact ⟨_, fun _ => 0, rfl, .basic 4 _ _⟩
  refine (patchAll_unpatchAll_iff hnew).2 ?_
  intro x v hv
  rcases eq_or_ne x 4 with rfl | hx
  · have hunder : byteUnder (copyingProcess 0 0xCC).code.heap [0, 1] 4 = some 0 := by decide
    exact (Option.some.inj (hunder.symm.trans hv)).symm
  · have hcovers : ¬Covers 4 1 x := fun h => hx (Nat.le_antisymm (Nat.le_of_lt_succ h.2) h.1)
    have hnone : byteUnder (copyingProcess 0 0xCC).code.heap [0, 1] x = none := by
      have hfilter : [0, 1].filter (coversAt (copyingProcess 0 0xCC).code.heap x) = [] := by
        refine List.filter_eq_nil_iff.2 fun id hid => ?_
        simp only [List.mem_cons, List.not_mem_nil, or_false] at hid
        rcases hid with rfl | rfl
        · refine Bool.eq_false_iff.1 (coversAt_eq_false rfl ?_)
          exact hcovers
        · refine Bool.eq_false_iff.1 (coversAt_eq_false rfl ?_)
          exact hcovers
      rw [byteUnder, hfilter]
      rfl
    exact absurd (hv.symm.trans hnone) (Option.some_ne_none v)

/-- The first leaf writes another byte, and it is left behind. -/
theorem not_restored_of_copies :
    (run ManagerState.step ⟨[], copyingProcess 0x90 0xCC⟩
      (([0, 1].map fun id => .register (.bin id)) ++ [.patchAll, .unpatchAll])).mem ≠
      (copyingProcess 0x90 0xCC).code.mem := by
  intro h
  exact absurd (congrFun h 4) (by decide)

end TickrateEnabler
