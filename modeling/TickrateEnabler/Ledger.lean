import TickrateEnabler.Cleanup
import TickrateEnabler.EventLog

/-!
# The ledger of patch objects

A manager owns what is registered with it, down to the leaves. In every run of a manager, with
constructors that may throw in between, each registered object is either owned or was
deleted (`Balanced`), so when the manager is destroyed each was deleted once, and none was
called after that (`deleted_once`).
-/

namespace TickrateEnabler

open Memory Transition EventLog

/-! ## Constructors -/

theorem initializeBinPatches_log (source : BitVec 32) (p : ℕ) (offsets : List ℕ)
    (m_patches : PatchManager) (s : Process) :
    (initializeBinPatches source p offsets m_patches s).2.2.log = s.log := by
  induction offsets generalizing m_patches s with
  | nil => rfl
  | cons offs rest ih =>
    rw [initializeBinPatches]
    split
    · rfl
    · exact ih _ _

/-- Wherever the loop stops, `m_patches` has the new leaves. -/
theorem initializeBinPatches_allocates (source : BitVec 32) (p : ℕ) (offsets : List ℕ)
    (s : Process) :
    ∃ ids os, (initializeBinPatches source p offsets [] s).2.1 = ids.map .bin ∧
      s.Allocates (initializeBinPatches source p offsets [] s).2.2 ids os := by
  by_cases h : ∀ offs ∈ offsets, KnownMov s.code.mem (p + offs)
  · obtain ⟨ids, s', heq, halloc⟩ := initializeBinPatches_of_known source [] s h
    exact ⟨ids, _, by rw [heq, List.nil_append], by rwa [heq]⟩
  · obtain ⟨e, ids, os, s', heq, halloc⟩ := initializeBinPatches_of_not_known source [] s h
    exact ⟨ids, os, by rw [heq, List.nil_append], by rwa [heq]⟩

/-- The objects `ids` are new, and were made from `s` to `s'`. -/
structure Issued (s s' : Process) (ids : List ℕ) : Prop where
  nodup : ids.Nodup
  next_le : s.next ≤ s'.next
  fresh : ∀ id ∈ ids, s.next ≤ id ∧ id < s'.next

namespace Issued

variable {s s' : Process} {ids : List ℕ}

theorem of_allocates {os : List PatchObject} (h : s.Allocates s' ids os) : Issued s s' ids :=
  ⟨h.nodup, h.next_le, h.fresh⟩

/-- The owner is made before what it owns. -/
theorem owner (h : Issued s.alloc.2 s' ids) : Issued s s' (ids ++ [s.alloc.1]) := by
  have hlt : s.next < s'.next := Nat.lt_of_succ_le h.next_le
  refine ⟨List.nodup_append.2 ⟨h.nodup, List.nodup_singleton _, fun a ha b hb => ?_⟩, hlt.le,
    fun id hid => ?_⟩
  · obtain rfl := List.mem_singleton.1 hb
    exact (Nat.lt_of_succ_le (h.fresh a ha).1).ne'
  · rcases List.mem_append.1 hid with hid | hid
    · exact ⟨(Nat.lt_of_succ_le (h.fresh id hid).1).le, (h.fresh id hid).2⟩
    · obtain rfl := List.mem_singleton.1 hid
      exact ⟨le_rfl, hlt⟩

theorem of_next {s'' : Process} (h : Issued s s' ids) (hnext : s''.next = s'.next) :
    Issued s s'' ids :=
  ⟨h.nodup, h.next_le.trans_eq hnext.symm, fun id hid => hnext.symm ▸ h.fresh id hid⟩

theorem mono (h : Issued s.alloc.2 s' ids) : Issued s s' ids :=
  ⟨h.nodup, (Nat.le_succ _).trans h.next_le,
    fun id hid => ⟨(Nat.le_succ _).trans (h.fresh id hid).1, (h.fresh id hid).2⟩⟩

end Issued

/-- What the constructor of `BoomerVomitFrameTimePatch` has registered with `m_patches` when it
returns or throws. -/
def boomerVomitPatches {κ : Type*} (b : Build) (g : FakeGlobals) (u : MemUtils κ) (gamedll : ℕ)
    (s : Process) (k : κ) : PatchManager :=
  let found := u.find s.code.mem k gamedll (CVomit_UpdateAbility b)
  if found.1 = 0 then []
  else (initializeBinPatches (g.source b) found.1 (g_FrameTimeReadOffsets b) [] s.alloc.2).2.1

section Constructors

variable {κ : Type*} (b : Build) (g : FakeGlobals) (u : MemUtils κ) (gamedll engine : ℕ)
  (c : RatePatch) (s : Process) (k : κ)

/-- The constructor makes a composite of what it has registered, or deletes that. -/
theorem newBoomerVomit_issued :
    let r := newBoomerVomit b g u gamedll s k
    let ids := PatchManager.objects (boomerVomitPatches b g u gamedll s k)
    (∃ p, r.1 = .ok p ∧ p.objects = ids ++ [s.alloc.1] ∧ r.2.1.log = s.log ∧
        Issued s r.2.1 p.objects) ∨
      ∃ e, r.1 = .error e ∧ r.2.1.log = s.log ++ ids.map .delete ∧ Issued s r.2.1 ids := by
  unfold newBoomerVomit boomerVomitPatches
  by_cases h0 : (u.find s.code.mem k gamedll (CVomit_UpdateAbility b)).1 = 0
  · simp only [if_pos h0]
    refine Or.inr ⟨_, rfl, (List.append_nil _).symm, List.nodup_nil, Nat.le_succ _, ?_⟩
    exact fun id hid => absurd hid List.not_mem_nil
  · simp only [if_neg h0]
    have hlog := initializeBinPatches_log (g.source b)
      (u.find s.code.mem k gamedll (CVomit_UpdateAbility b)).1 (g_FrameTimeReadOffsets b) []
      s.alloc.2
    obtain ⟨ids, os, hids, halloc⟩ := initializeBinPatches_allocates (g.source b)
      (u.find s.code.mem k gamedll (CVomit_UpdateAbility b)).1 (g_FrameTimeReadOffsets b)
      s.alloc.2
    have hissued := Issued.of_allocates halloc
    generalize initializeBinPatches (g.source b)
      (u.find s.code.mem k gamedll (CVomit_UpdateAbility b)).1 (g_FrameTimeReadOffsets b) []
      s.alloc.2 = r at hlog hids hissued
    obtain ⟨e?, m_patches, s'⟩ := r
    obtain rfl : m_patches = ids.map .bin := hids
    rw [PatchManager.objects_map_bin]
    cases e? with
    | none =>
      have hobjects : (CodePatch.composite s.alloc.1 (ids.map .bin)).objects =
          ids ++ [s.alloc.1] := by
        rw [CodePatch.objects, PatchManager.objects_map_bin]
      exact Or.inl ⟨_, rfl, hobjects, hlog, hobjects ▸ hissued.owner⟩
    | some e =>
      refine Or.inr ⟨e, rfl, ?_, ?_⟩
      · rw [PatchManager.deleteAll_log, PatchManager.objects_map_bin, hlog]
        rfl
      · exact hissued.mono.of_next (PatchManager.deleteAll_next _ _)

/-- The constructor makes a wrapper and its leaf, or nothing. -/
theorem newRatePatch_issued :
    let r := newRatePatch u engine c s k
    r.2.1.log = s.log ∧ s.next ≤ r.2.1.next ∧ ∀ p, r.1 = .ok p → Issued s r.2.1 p.objects := by
  cases ho : c.generatePatch s.alloc.2.code.mem
      (u.find s.alloc.2.code.mem k engine c.lookup).1 with
  | error e =>
    simp only [newRatePatch, ho]
    exact ⟨rfl, Nat.le_succ _, fun p hp => absurd hp (by simp)⟩
  | ok o =>
    simp only [newRatePatch, ho]
    have hissued : Issued s.alloc.2 (s.alloc.2.new o).2 [(s.alloc.2.new o).1] :=
      .of_allocates (.new s.alloc.2 o)
    refine ⟨rfl, hissued.owner.next_le, fun p hp => ?_⟩
    obtain rfl := Except.ok.inj hp
    exact hissued.owner

end Constructors

/-! ## The ledger -/

/-- A manager in its process, and all objects that were registered so far. -/
structure Ledger (κ : Type*) where
  patches : PatchState κ
  registered : List ℕ

/-- What can happen to a manager. A constructor that throws registers nothing with it. -/
inductive OwnerCall (κ : Type*) where
  | register (p : CodePatch)
  /-- `Register(new BoomerVomitFrameTimePatch(gamedll))`. -/
  | registerBoomerVomit (b : Build) (g : FakeGlobals) (u : MemUtils κ) (gamedll : ℕ)
  /-- `Register` of a new patch of one of the other classes. -/
  | registerRatePatch (u : MemUtils κ) (engine : ℕ) (c : RatePatch)
  | patchAll
  | unpatchAll
  | unregisterAll

namespace Ledger

variable {κ : Type*}

/-- One call. What a constructor registered with its own manager counts, also when it
throws. -/
def step (l : Ledger κ) : OwnerCall κ → Ledger κ
  | .register p =>
    ⟨{ l.patches with m_patchManager := l.patches.m_patchManager ++ [p] },
      l.registered ++ p.objects⟩
  | .registerBoomerVomit b g u gamedll =>
    let r := newBoomerVomit b g u gamedll l.patches.process l.patches.cache
    match r.1 with
    | .error _ =>
      ⟨⟨l.patches.m_patchManager, r.2.1, r.2.2⟩, l.registered ++ PatchManager.objects
        (boomerVomitPatches b g u gamedll l.patches.process l.patches.cache)⟩
    | .ok p => ⟨⟨l.patches.m_patchManager ++ [p], r.2.1, r.2.2⟩, l.registered ++ p.objects⟩
  | .registerRatePatch u engine c =>
    let r := newRatePatch u engine c l.patches.process l.patches.cache
    match r.1 with
    | .error _ => ⟨⟨l.patches.m_patchManager, r.2.1, r.2.2⟩, l.registered⟩
    | .ok p => ⟨⟨l.patches.m_patchManager ++ [p], r.2.1, r.2.2⟩, l.registered ++ p.objects⟩
  | .patchAll =>
    ⟨{ l.patches with
        process := PatchManager.patchAll l.patches.m_patchManager l.patches.process },
      l.registered⟩
  | .unpatchAll =>
    ⟨{ l.patches with
        process := PatchManager.unpatchAll l.patches.m_patchManager l.patches.process },
      l.registered⟩
  | .unregisterAll =>
    let r := PatchManager.unregisterAll l.patches.m_patchManager l.patches.process
    ⟨⟨r.1, r.2, l.patches.cache⟩, l.registered⟩

/-- Each object of a registered patch exists and is registered for the first time. -/
def RegistersOnce (l : Ledger κ) : OwnerCall κ → Prop
  | .register p =>
    p.objects.Nodup ∧ ∀ id ∈ p.objects, id < l.patches.process.next ∧ id ∉ l.registered
  | _ => True

end Ledger

/-- `Patch()` and `Unpatch()` are called before the `delete`. -/
def NotDeleted (pre : List ObjectEvent) : ObjectEvent → Prop
  | .patch id | .unpatch id => .delete id ∉ pre
  | .delete _ => True

/-- Of the registered objects, each is either owned by `ps` or was deleted once. -/
structure Balanced (registered : List ℕ) (ps : PatchManager) (s : Process) : Prop where
  once : registered.Nodup
  issued : ∀ id ∈ registered, id < s.next
  balance : ∀ id, (PatchManager.objects ps).count id + s.log.count (.delete id) =
    registered.count id
  alive : Throughout NotDeleted s.log

namespace Balanced

variable {registered : List ℕ} {ps : PatchManager} {s s' : Process}

/-- What is owned was not deleted. -/
theorem not_deleted (h : Balanced registered ps s) {id : ℕ} (hid : id ∈ PatchManager.objects ps) :
    .delete id ∉ s.log := by
  have howned : 0 < (PatchManager.objects ps).count id := List.count_pos_iff.2 hid
  have hbalance := h.balance id
  have honce : registered.count id ≤ 1 := List.nodup_iff_count_le_one.1 h.once id
  exact List.count_eq_zero.1 (by omega)

/-- Calls of objects that are owned. -/
theorem calls (h : Balanced registered ps s) {call : ℕ → ObjectEvent}
    (hcall : call = .patch ∨ call = .unpatch)
    (hc : Calls call (PatchManager.objects ps) s s') : Balanced registered ps s' := by
  obtain ⟨ids, hsub, hlog⟩ := hc.log
  have hnone (id : ℕ) : .delete id ∉ ids.map call := by
    intro hdel
    obtain ⟨j, -, hj⟩ := List.mem_map.1 hdel
    rcases hcall with rfl | rfl <;> cases hj
  refine ⟨h.once, fun id hid => hc.next ▸ h.issued id hid, fun id => ?_, ?_⟩
  · rw [hlog, List.count_append, List.count_eq_zero.2 (hnone id)]
    exact h.balance id
  · rw [hlog]
    refine h.alive.append fun e he mid hmid => ?_
    obtain ⟨id, hid, rfl⟩ := List.mem_map.1 he
    have hdel : .delete id ∉ s.log ++ mid :=
      List.not_mem_append (h.not_deleted (hsub hid)) fun hdel => hnone id (hmid _ hdel)
    rcases hcall with rfl | rfl <;> exact hdel

theorem count_map_delete (ids : List ℕ) (id : ℕ) :
    (ids.map ObjectEvent.delete).count (.delete id) = ids.count id :=
  List.count_map_of_injective ids _ (fun _ _ => ObjectEvent.delete.inj) id

/-- Deletes may come at any time. -/
theorem alive_append_deletes (h : Balanced registered ps s) (ids : List ℕ) :
    Throughout NotDeleted (s.log ++ ids.map .delete) := by
  refine h.alive.append fun e he mid _ => ?_
  obtain ⟨id, -, rfl⟩ := List.mem_map.1 he
  trivial

/-- `UnregisterAll`. -/
theorem deleteAll (h : Balanced registered ps s) :
    Balanced registered [] (PatchManager.deleteAll ps s) := by
  have hlog := PatchManager.deleteAll_log ps s
  refine ⟨h.once, fun id hid => ?_, fun id => ?_, hlog ▸ h.alive_append_deletes _⟩
  · rw [PatchManager.deleteAll_next]
    exact h.issued id hid
  · have hbalance := h.balance id
    rw [hlog, List.count_append, count_map_delete, PatchManager.objects, List.count_nil]
    omega

/-- `Register`. -/
theorem register (h : Balanced registered ps s) {p : CodePatch} (hnd : p.objects.Nodup)
    (hp : ∀ id ∈ p.objects, id < s'.next ∧ id ∉ registered) (hnext : s.next ≤ s'.next)
    (hlog : s'.log = s.log) : Balanced (registered ++ p.objects) (ps ++ [p]) s' := by
  refine ⟨List.nodup_append.2 ⟨h.once, hnd, fun a ha b hb => ?_⟩, fun id hid => ?_, fun id => ?_,
    hlog ▸ h.alive⟩
  · exact ne_of_mem_of_not_mem ha (hp b hb).2
  · rcases List.mem_append.1 hid with hid | hid
    · exact (h.issued id hid).trans_le hnext
    · exact (hp id hid).1
  · have hbalance := h.balance id
    rw [hlog, PatchManager.objects_append_singleton, List.count_append, List.count_append]
    omega

/-- A constructor that throws before it has made anything. -/
theorem idle (h : Balanced registered ps s) (hnext : s.next ≤ s'.next) (hlog : s'.log = s.log) :
    Balanced registered ps s' :=
  ⟨h.once, fun id hid => (h.issued id hid).trans_le hnext, fun id => hlog ▸ h.balance id,
    hlog ▸ h.alive⟩

/-- New objects were not registered. -/
theorem not_registered (h : Balanced registered ps s) {ids : List ℕ} (hids : Issued s s' ids) :
    ∀ id ∈ ids, id < s'.next ∧ id ∉ registered :=
  fun id hid => ⟨(hids.fresh id hid).2,
    fun hreg => absurd (h.issued id hreg) (Nat.not_lt.2 (hids.fresh id hid).1)⟩

/-- A constructor that throws deletes what it had registered. -/
theorem thrown (h : Balanced registered ps s) {ids : List ℕ} (hids : Issued s s' ids)
    (hlog : s'.log = s.log ++ ids.map .delete) : Balanced (registered ++ ids) ps s' := by
  refine ⟨List.nodup_append.2 ⟨h.once, hids.nodup, fun a ha b hb => ?_⟩, fun id hid => ?_,
    fun id => ?_, hlog ▸ h.alive_append_deletes _⟩
  · exact ne_of_mem_of_not_mem ha (h.not_registered hids b hb).2
  · rcases List.mem_append.1 hid with hid | hid
    · exact (h.issued id hid).trans_le hids.next_le
    · exact (hids.fresh id hid).2
  · have hbalance := h.balance id
    rw [hlog, List.count_append, count_map_delete, List.count_append]
    omega

end Balanced

namespace Ledger

variable {κ : Type*}

/-- The ledger balances. -/
def Balances (l : Ledger κ) : Prop :=
  Balanced l.registered l.patches.m_patchManager l.patches.process

theorem Balances.step {l : Ledger κ} {call : OwnerCall κ} (h : l.Balances)
    (hok : l.RegistersOnce call) : (l.step call).Balances := by
  cases call with
  | register p => exact Balanced.register h hok.1 hok.2 le_rfl rfl
  | registerBoomerVomit b g u gamedll =>
    unfold Ledger.step
    rcases newBoomerVomit_issued b g u gamedll l.patches.process l.patches.cache with
      ⟨p, hp, -, hlog, hids⟩ | ⟨e, he, hlog, hids⟩
    · simp only [hp]
      exact Balanced.register h hids.nodup (h.not_registered hids) hids.next_le hlog
    · simp only [he]
      exact Balanced.thrown h hids hlog
  | registerRatePatch u engine c =>
    obtain ⟨hlog, hnext, hok⟩ := newRatePatch_issued u engine c l.patches.process l.patches.cache
    unfold Ledger.step
    cases hr : (newRatePatch u engine c l.patches.process l.patches.cache).1 with
    | error e =>
      simp only [hr]
      exact Balanced.idle h hnext hlog
    | ok p =>
      have hids := hok p hr
      simp only [hr]
      exact Balanced.register h hids.nodup (h.not_registered hids) hids.next_le hlog
  | patchAll => exact Balanced.calls h (Or.inl rfl) (PatchManager.patchAll_calls ..)
  | unpatchAll => exact Balanced.calls h (Or.inr rfl) (PatchManager.unpatchAll_calls ..)
  | unregisterAll => exact Balanced.deleteAll h

end Ledger

/-- After any calls, with constructors that may throw, the manager is destroyed : every
registered object was deleted once, and `Patch()` and `Unpatch()` were called on none
after its `delete`. -/
theorem deleted_once {κ : Type*} {code : Code} {next : ℕ} {k : κ} {calls : List (OwnerCall κ)}
    (hcalls : Along Ledger.step Ledger.RegistersOnce ⟨⟨[], ⟨code, next, []⟩, k⟩, []⟩ calls) :
    let l := run Ledger.step ⟨⟨[], ⟨code, next, []⟩, k⟩, []⟩ calls
    let log := (PatchManager.destroy l.patches.m_patchManager l.patches.process).log
    (∀ id ∈ l.registered, log.count (.delete id) = 1) ∧
      ∀ pre id post, log = pre ++ .patch id :: post ∨ log = pre ++ .unpatch id :: post →
        .delete id ∉ pre := by
  intro l log
  have hstart : Ledger.Balances (κ := κ) ⟨⟨[], ⟨code, next, []⟩, k⟩, []⟩ :=
    ⟨List.nodup_nil, fun id hid => absurd hid List.not_mem_nil, fun _ => rfl, throughout_nil _⟩
  have hrun : l.Balances :=
    run_invariant Ledger.Balances (fun _ _ h hok => h.step hok) hstart hcalls
  have hend : Balanced l.registered []
      (PatchManager.destroy l.patches.m_patchManager l.patches.process) := hrun.deleteAll
  refine ⟨fun id hid => ?_, fun pre id post hlog => ?_⟩
  · have hbalance := hend.balance id
    rw [PatchManager.objects, List.count_nil, Nat.zero_add,
      List.count_eq_one_of_mem hend.once hid] at hbalance
    exact hbalance
  · rcases hlog with hlog | hlog
    · exact hend.alive pre _ post hlog
    · exact hend.alive pre _ post hlog

/-- Lookups that always find the function at 100. -/
def alwaysFound : MemUtils Unit where
  simpleResolve _ _ _ := (100, ())
  findLibPattern _ _ _ := 100

/-- A memory in which the second frametime read is not there. -/
def oneRead : Code :=
  ⟨⟨fun x => if x = 100 + 0x12D then 0x8B else 0, []⟩, fun _ => none⟩

/-- The constructor throws in its second round, after it has made the leaf 11. -/
theorem deleted_once_thrown :
    let l := run Ledger.step ⟨⟨[], ⟨oneRead, 10, []⟩, ()⟩, []⟩
      [.register (.composite 3 [.wrapper 2 (.bin 0), .bin 1]), .patchAll,
        .registerBoomerVomit ⟨.linux, .l4d2⟩ ⟨0, 0⟩ alwaysFound 0, .unpatchAll, .unregisterAll,
        .register (.bin 4), .patchAll]
    let log := (PatchManager.destroy l.patches.m_patchManager l.patches.process).log
    l.registered = [0, 2, 1, 3, 11, 4] ∧ ∀ id ∈ l.registered, log.count (.delete id) = 1 := by
  have hcalls : Along Ledger.step Ledger.RegistersOnce ⟨⟨[], ⟨oneRead, 10, []⟩, ()⟩, []⟩
      [.register (.composite 3 [.wrapper 2 (.bin 0), .bin 1]), .patchAll,
        .registerBoomerVomit ⟨.linux, .l4d2⟩ ⟨0, 0⟩ alwaysFound 0, .unpatchAll, .unregisterAll,
        .register (.bin 4), .patchAll] :=
    ⟨⟨by decide, by decide⟩, trivial, trivial, trivial, trivial, ⟨by decide, by decide⟩, trivial,
      trivial⟩
  exact ⟨by decide, (deleted_once hcalls).1⟩

end TickrateEnabler
