import TickrateEnabler.LoadCycles
import TickrateEnabler.Layers

/-!
# Runs of the plugin

`Load` and `Unload` in any order, each with whatever the engine answers. Code memory is
`M` with nothing patched (`Untouched`), or has the patches of one `Load` on it (`Patched`),
all within a set `S` of addresses. The byte that the patch of `CNetChan::SetDataRate` checks
is then one of a replacement, and no replacement has the byte that is checked
(`replacement_ne_check`). So as long as memory that is `M` outside of `S` has that function
at one address (`Steady`), a patched game is not patched again, and `Unload` gives back `M`
whatever was called before (`Held.restores`). On Linux the function is a symbol, which
stays where it is (`linux_calls_restore`).
-/

namespace TickrateEnabler

open Memory Transition

/-! ## What the constructors make -/

/-- The target of the leaf is within `S`. -/
def PatchObject.Within (S : Set ℕ) (o : PatchObject) : Prop :=
  ∀ x, Covers o.site.addr o.site.len x → x ∈ S

/-- Code memory is as before, and a leaf that is new was made from it, within `S`. -/
structure Process.Makes (S : Set ℕ) (s s' : Process) : Prop where
  world : s'.code.world = s.code.world
  heap : ∀ id o, s'.code.heap id = some o →
    s.code.heap id = some o ∨ Constructed s.code.mem false o ∧ o.Within S

namespace Process.Makes

variable {S : Set ℕ} {s s' s'' : Process}

theorem refl (s : Process) : Makes S s s :=
  ⟨rfl, fun _ _ ho => Or.inl ho⟩

theorem trans (h : Makes S s s') (h' : Makes S s' s'') : Makes S s s'' := by
  have hmem : s'.code.mem = s.code.mem := congrArg World.mem h.world
  refine ⟨h'.world.trans h.world, fun id o ho => ?_⟩
  rcases h'.heap id o ho with ho | ho
  · exact h.heap id o ho
  · exact Or.inr (hmem ▸ ho)

theorem alloc (s : Process) : Makes S s s.alloc.2 :=
  ⟨rfl, fun _ _ ho => Or.inl ho⟩

theorem new {n : ℕ} (s : Process) {target : ℕ} {replacement : Fin n → Byte}
    (hS : (newStatic s.code.mem target replacement).Within S) :
    Makes S s (s.new (newStatic s.code.mem target replacement)).2 := by
  refine ⟨rfl, fun id o ho => ?_⟩
  change Function.update s.code.heap s.next (some _) id = some o at ho
  rcases eq_or_ne id s.next with rfl | hne
  · rw [Function.update_self] at ho
    obtain rfl := Option.some.inj ho
    exact Or.inr ⟨newStatic_constructed .., hS⟩
  · rw [Function.update_of_ne hne] at ho
    exact Or.inl ho

theorem deleteAll (h : Makes S s s') (ps : PatchManager) :
    Makes S s (PatchManager.deleteAll ps s') :=
  ⟨(PatchManager.deleteAll_world ps s').trans h.world,
    fun id o ho => h.heap id o (PatchManager.deleteAll_heap_some ho)⟩

end Process.Makes

section Constructors

variable {κ : Type*} {S : Set ℕ}

theorem initializeBinPatches_makes (source : BitVec 32) (p : ℕ) {offsets : List ℕ}
    (m_patches : PatchManager) (s : Process)
    (hS : ∀ offs ∈ offsets, (frameTimeReadLeaf source s.code.mem (p + offs)).Within S) :
    s.Makes S (initializeBinPatches source p offsets m_patches s).2.2 := by
  induction offsets generalizing m_patches s with
  | nil => exact .refl s
  | cons offs offsets ih =>
    obtain ⟨hoffs, hS⟩ := List.forall_mem_cons.1 hS
    rw [initializeBinPatches]
    by_cases h : KnownMov s.code.mem (p + offs)
    · rw [frameTimeReadPatch_of_known h]
      exact (Process.Makes.new s hoffs).trans (ih _ _ hS)
    · rw [frameTimeReadPatch_of_not_known h]
      exact .refl s

/-- What the lookups keep between calls stays within `ok`. -/
def MemUtils.Keeps (u : MemUtils κ) (ok : κ → Prop) : Prop :=
  ∀ mem k libPtr lookup, ok k → ok (u.find mem k libPtr lookup).2

variable {u : MemUtils κ} {ok : κ → Prop}

theorem newBoomerVomit_cache (b : Build) (g : FakeGlobals) (gamedll : ℕ) (s : Process) (k : κ) :
    (newBoomerVomit b g u gamedll s k).2.2 =
      (u.find s.code.mem k gamedll (CVomit_UpdateAbility b)).2 := by
  rw [newBoomerVomit]
  dsimp only
  split_ifs
  · rfl
  · split <;> rfl

theorem newBoomerVomit_makes (hu : u.Keeps ok) (b : Build) (g : FakeGlobals) (gamedll : ℕ)
    (s : Process) {k : κ} (hk : ok k)
    (hS : ∀ o ∈ boomerVomitLeaves b g s.code.mem
      (u.find s.code.mem k gamedll (CVomit_UpdateAbility b)).1, o.Within S) :
    s.Makes S (newBoomerVomit b g u gamedll s k).2.1 ∧
      ok (newBoomerVomit b g u gamedll s k).2.2 := by
  have hk' := hu s.code.mem k gamedll (CVomit_UpdateAbility b) hk
  have hinit := (Process.Makes.alloc s).trans (initializeBinPatches_makes (g.source b)
    (u.find s.code.mem k gamedll (CVomit_UpdateAbility b)).1 [] s.alloc.2
    (List.forall_mem_map.1 hS))
  rw [newBoomerVomit]
  dsimp only
  split_ifs
  · exact ⟨.alloc s, hk'⟩
  · split
    · exact ⟨hinit.deleteAll _, hk'⟩
    · exact ⟨hinit, hk'⟩

theorem newRatePatch_makes (hu : u.Keeps ok) (engine : ℕ) (c : RatePatch) (s : Process) {k : κ}
    (hk : ok k) (hS : (c.leaf s.code.mem (u.find s.code.mem k engine c.lookup).1).Within S) :
    s.Makes S (newRatePatch u engine c s k).2.1 ∧ ok (newRatePatch u engine c s k).2.2 := by
  have hk' := hu s.code.mem k engine c.lookup hk
  have halloc : Process.Makes S s s.alloc.2 := .alloc s
  by_cases h : c.Valid s.alloc.2.code.mem (u.find s.alloc.2.code.mem k engine c.lookup).1
  · rw [newRatePatch]
    simp only [RatePatch.generatePatch_of_valid h]
    exact ⟨halloc.trans (.new s.alloc.2 hS), hk'⟩
  · obtain ⟨e, he⟩ := RatePatch.generatePatch_of_not_valid h
    rw [newRatePatch]
    simp only [he]
    exact ⟨halloc, hk'⟩

theorem newRatePatch_cache (engine : ℕ) (c : RatePatch) (s : Process) (k : κ) :
    (newRatePatch u engine c s k).2.2 = (u.find s.code.mem k engine c.lookup).2 := by
  rw [newRatePatch]
  split <;> rfl

theorem registerRatePatches_makes (hu : u.Keeps ok) (engine : ℕ) (cs : List RatePatch)
    (s : PatchState κ) (hk : ok s.cache)
    (hS : ∀ o ∈ rateLeaves s.process.code.mem
      (foundRates u s.process.code.mem engine cs s.cache).1, o.Within S) :
    s.process.Makes S (registerRatePatches u engine cs s).2.process ∧
      ok (registerRatePatches u engine cs s).2.cache := by
  induction cs generalizing s with
  | nil => exact ⟨.refl _, hk⟩
  | cons c cs ih =>
    obtain ⟨hleaf, hS⟩ := List.forall_mem_cons.1 hS
    obtain ⟨hmakes, hk'⟩ := newRatePatch_makes hu engine c s.process hk hleaf
    have hrates : ∀ o ∈ rateLeaves (newRatePatch u engine c s.process s.cache).2.1.code.mem
        (foundRates u (newRatePatch u engine c s.process s.cache).2.1.code.mem engine cs
          (newRatePatch u engine c s.process s.cache).2.2).1, o.Within S := by
      rw [newRatePatch_cache, Code.mem, hmakes.world]
      exact hS
    rw [registerRatePatches]
    split
    · exact ⟨hmakes, hk'⟩
    · next p _ =>
      obtain ⟨hrest, hok⟩ := ih ⟨s.m_patchManager ++ [p], _, _⟩ hk' hrates
      exact ⟨hmakes.trans hrest, hok⟩

/-- The `try` block makes leaves from code memory, and does nothing else when it throws. -/
theorem tryBlock_makes (hu : u.Keeps ok) {b : Build} {g : FakeGlobals} {gamedll engine : ℕ}
    {s : PatchState κ} (hk : ok s.cache)
    (hS : ∀ o ∈ patchLeaves b g s.process.code.mem
      (found b u s.process.code.mem gamedll engine s.cache).1, o.Within S)
    (hv : ¬PatchesValid b s.process.code.mem
      (found b u s.process.code.mem gamedll engine s.cache).1) :
    (∃ x, (tryBlock b g u gamedll engine s).1 = some x) ∧
      s.process.Makes S (tryBlock b g u gamedll engine s).2.process ∧
      ok (tryBlock b g u gamedll engine s).2.cache := by
  obtain ⟨x, ps, s', k', os, heq, -⟩ := tryBlock_of_not_valid (g := g) s hv
  have hx : (tryBlock b g u gamedll engine s).1 = some x := congrArg Prod.fst heq
  refine ⟨⟨x, hx⟩, ?_⟩
  obtain ⟨hboomer, hrates⟩ := List.forall_mem_append.1 hS
  obtain ⟨hmakes, hk'⟩ := newBoomerVomit_makes hu b g gamedll s.process hk hboomer
  rw [tryBlock] at hx ⊢
  split at hx
  · exact ⟨hmakes, hk'⟩
  · next p hp =>
    have hrates' : ∀ o ∈ rateLeaves (newBoomerVomit b g u gamedll s.process s.cache).2.1.code.mem
        (foundRates u (newBoomerVomit b g u gamedll s.process s.cache).2.1.code.mem engine
          (ratePatches b) (newBoomerVomit b g u gamedll s.process s.cache).2.2).1,
        o.Within S := by
      rw [newBoomerVomit_cache, Code.mem, hmakes.world]
      exact hrates
    obtain ⟨hrest, hok⟩ := registerRatePatches_makes hu engine (ratePatches b)
      ⟨s.m_patchManager ++ [p], _, _⟩ hk' hrates'
    dsimp only at hx ⊢
    split at hx
    · exact ⟨hmakes.trans hrest, hok⟩
    · exact (Option.some_ne_none x hx.symm).elim

end Constructors

/-! ## Nothing patched -/

/-- Code memory is `M`, and every leaf is as its constructor leaves it on `M`, within `S`. -/
structure Untouched (M : ℕ → Byte) (S : Set ℕ) (c : Code) : Prop where
  mem : c.mem = M
  leaves : ∀ id o, c.heap id = some o → Constructed M false o ∧ o.Within S

namespace Untouched

variable {M : ℕ → Byte} {S : Set ℕ} {s s' : Process}

theorem makes (h : Untouched M S s.code) (hm : s.Makes S s') : Untouched M S s'.code := by
  have hmem : s'.code.mem = s.code.mem := congrArg World.mem hm.world
  refine ⟨hmem.trans h.mem, fun id o ho => ?_⟩
  rcases hm.heap id o ho with ho | ho
  · exact h.leaves id o ho
  · exact h.mem ▸ ho

theorem allocates (h : Untouched M S s.code) {ms : PatchManager} (howned : Owned ms s)
    {ids : List ℕ} {os : List PatchObject} (halloc : s.Allocates s' ids os)
    (hos : ∀ o ∈ os, Constructed M false o ∧ o.Within S) : Untouched M S s'.code := by
  have hmem : s'.code.mem = s.code.mem := congrArg World.mem halloc.world
  refine ⟨hmem.trans h.mem, fun id o ho => ?_⟩
  by_cases hid : id ∈ ids
  · have ho' : some o ∈ os.map some := by
      rw [← halloc.heap, ← ho]
      exact List.mem_map_of_mem hid
    obtain ⟨o', hmem, heq⟩ := List.mem_map.1 ho'
    obtain rfl := Option.some.inj heq
    exact hos o' hmem
  · rcases Nat.lt_or_ge id s.next with hlt | hge
    · exact h.leaves id o ((halloc.old id hlt).symm.trans ho)
    · have hnone : s.code.heap id = none :=
        howned.live id fun hms => Nat.not_lt.2 hge (howned.fresh id hms)
      exact absurd ((halloc.rest id hid hge hnone).symm.trans ho) (by simp)

theorem undoable {c : Code} (h : Untouched M S c) (ids : List ℕ) : Undoable M ids c :=
  ⟨fun id o ho => (h.leaves id o ho).1.savedFrom, fun x hx => (hx (congrFun h.mem x)).elim⟩

end Untouched

/-! ## Patches on the memory -/

namespace Code

/-- The memory with the leaves whose flag is set. -/
def onlyPatched (c : Code) : Code :=
  ⟨c.world, fun id => (c.heap id).filter PatchObject.patched⟩

theorem onlyPatched_heap_eq_some {c : Code} {id : ℕ} {o : PatchObject} :
    c.onlyPatched.heap id = some o ↔ c.heap id = some o ∧ o.patched = true :=
  Option.filter_eq_some_iff

theorem onlyPatched_unpatch (c : Code) (id : ℕ) :
    (c.unpatch id).onlyPatched = c.onlyPatched.unpatch id := by
  cases ho : c.heap id with
  | none =>
    have hnone : c.onlyPatched.heap id = none := congrArg (Option.filter _) ho
    rw [unpatch_of_none ho, unpatch_of_none hnone]
  | some o =>
    cases hp : o.patched with
    | true =>
      rw [unpatch_of_some ho, unpatch_of_some (onlyPatched_heap_eq_some.2 ⟨ho, hp⟩)]
      rfl
    | false =>
      have hnone : c.onlyPatched.heap id = none := by
        refine (congrArg (Option.filter _) ho).trans ?_
        rw [Option.filter_some, hp]
        rfl
      rw [unpatch_of_unpatched ho hp, unpatch_of_none hnone]

/-- `Unpatch()` passes over the leaves whose flag is not set. -/
theorem onlyPatched_foldl_unpatch (c : Code) (ids : List ℕ) :
    (ids.foldl Code.unpatch c).onlyPatched = ids.foldl Code.unpatch c.onlyPatched := by
  induction ids generalizing c with
  | nil => rfl
  | cons id ids ih => rw [List.foldl_cons, ih, onlyPatched_unpatch, List.foldl_cons]

end Code

theorem Undoable.onlyPatched {M : ℕ → Byte} {ids : List ℕ} {c : Code} (h : Undoable M ids c) :
    Undoable M ids c.onlyPatched := by
  refine ⟨fun id o ho => h.saved id o (Code.onlyPatched_heap_eq_some.1 ho).1, fun x hx => ?_⟩
  obtain ⟨id, hid, o, ho, hp, hc⟩ := h.covered x hx
  exact ⟨id, hid, o, Code.onlyPatched_heap_eq_some.2 ⟨ho, hp⟩, hp, hc⟩

/-- New leaves are not patched. -/
theorem Process.Makes.onlyPatched {S : Set ℕ} {s s' : Process} (h : s.Makes S s')
    {ms : PatchManager} (howned : Owned ms s) {ids : List ℕ} {os : List PatchObject}
    (halloc : s.Allocates s' ids os) : s'.code.onlyPatched = s.code.onlyPatched := by
  unfold Code.onlyPatched
  rw [h.world]
  congr 1
  ext1 id
  rcases Nat.lt_or_ge id s.next with hlt | hge
  · rw [halloc.old id hlt]
  · have hnone : s.code.heap id = none :=
      howned.live id fun hms => Nat.not_lt.2 hge (howned.fresh id hms)
    rw [hnone]
    cases ho : s'.code.heap id with
    | none => rfl
    | some o =>
      rcases h.heap id o ho with ho' | ho'
      · exact absurd (hnone.symm.trans ho') (by simp)
      · rw [Option.filter_some, ho'.1.unpatched]
        rfl

/-! ## The byte that is checked -/

/-- No replacement has the byte that the patch of `CNetChan::SetDataRate` checks. -/
theorem replacement_ne_check (b : Build) :
    ∀ c ∈ ratePatches b, ∀ i, c.replacement i ≠ CNETCHAN_PATCH_CHECK_BYTE b := by
  obtain ⟨platform, game⟩ := b
  cases platform <;> cases game <;> decide

/-- Where `CNetChan::SetDataRate` at `p` has the byte that is checked. -/
def netChanCheck (b : Build) (p : ℕ) : ℕ :=
  p + CNETCHAN_PATCH_OFFSET b

section Found

variable {κ : Type*} {u : MemUtils κ} {ok : κ → Prop}

theorem foundRates_fst (u : MemUtils κ) (mem : ℕ → Byte) (engine : ℕ) (cs : List RatePatch)
    (k : κ) : (foundRates u mem engine cs k).1.map Prod.fst = cs := by
  induction cs generalizing k with
  | nil => rfl
  | cons c cs ih => rw [foundRates, List.map_cons, ih]

theorem foundRates_keeps (hu : u.Keeps ok) (mem : ℕ → Byte) (engine : ℕ) (cs : List RatePatch)
    {k : κ} (hk : ok k) : ok (foundRates u mem engine cs k).2 := by
  induction cs generalizing k with
  | nil => exact hk
  | cons c cs ih => exact ih (hu mem k engine c.lookup hk)

theorem found_keeps (hu : u.Keeps ok) (b : Build) (mem : ℕ → Byte) (gamedll engine : ℕ) {k : κ}
    (hk : ok k) : ok (found b u mem gamedll engine k).2 :=
  foundRates_keeps hu mem engine (ratePatches b) (hu mem k gamedll (CVomit_UpdateAbility b) hk)

/-- The memory is `M` outside of `S`. -/
def Near (M : ℕ → Byte) (S : Set ℕ) (mem : ℕ → Byte) : Prop :=
  ∀ x ∉ S, mem x = M x

/-- In memory that is `M` outside of `S`, `CNetChan::SetDataRate` is found at `p`, or not at
all. -/
def MemUtils.FindsNetChan (u : MemUtils κ) (ok : κ → Prop) (M : ℕ → Byte) (S : Set ℕ) (b : Build)
    (engine p : ℕ) : Prop :=
  ∀ mem k, Near M S mem → ok k → (u.find mem k engine (SIG_CNETCHAN_SETDATARATE b)).1 = 0 ∨
    (u.find mem k engine (SIG_CNETCHAN_SETDATARATE b)).1 = p

/-- When the checks hold, the first leaf for `engine` is at `p`. -/
theorem PatchesValid.netChan {b : Build} {M mem : ℕ → Byte} {S : Set ℕ} {gamedll engine p : ℕ}
    {k : κ} (hu : u.Keeps ok) (hp : u.FindsNetChan ok M S b engine p) (hmem : Near M S mem)
    (hk : ok k)
    (hv : PatchesValid b mem (found b u mem gamedll engine k).1) :
    mem (netChanCheck b p) = CNETCHAN_PATCH_CHECK_BYTE b ∧
      ∃ rest, (found b u mem gamedll engine k).1.2 = (NetChanDataRatePatch b, p) :: rest := by
  have hk' := hu mem k gamedll (CVomit_UpdateAbility b) hk
  have hvalid : (NetChanDataRatePatch b).Valid mem (u.find mem
      (u.find mem k gamedll (CVomit_UpdateAbility b)).2 engine (SIG_CNETCHAN_SETDATARATE b)).1 :=
    hv.2 _ (List.mem_cons_self ..)
  have hpeq := (hp mem _ hmem hk').resolve_left hvalid.1
  rw [hpeq] at hvalid
  exact ⟨hvalid.2, _, congrArg₂ List.cons (congrArg (Prod.mk _) hpeq) rfl⟩

end Found

/-- Memory has patches within `S` that `Unpatch()` on the leaves `ids` takes off, and at `x` not
the byte `check` that `M` has. -/
structure Patched (M : ℕ → Byte) (S : Set ℕ) (x : ℕ) (check : Byte) (ids : List ℕ) (c : Code) :
    Prop where
  undoable : Undoable M ids c.onlyPatched
  near : Near M S c.mem
  original : M x = check
  differs : c.mem x ≠ check

namespace Patched

variable {M : ℕ → Byte} {S : Set ℕ} {x : ℕ} {check : Byte} {ids : List ℕ} {c c' : Code}

theorem mem_ne (h : Patched M S x check ids c) : c.mem ≠ M :=
  fun hM => h.differs ((congrFun hM x).trans h.original)

theorem foldl_unpatch_mem (h : Patched M S x check ids c) :
    (ids.foldl Code.unpatch c).mem = M := by
  have hmem : (ids.foldl Code.unpatch c).mem = (ids.foldl Code.unpatch c).onlyPatched.mem := rfl
  rw [hmem, Code.onlyPatched_foldl_unpatch]
  exact h.undoable.foldl_unpatch_mem

theorem of_onlyPatched (h : Patched M S x check ids c) (hc : c'.onlyPatched = c.onlyPatched)
    {ids' : List ℕ} (hsub : ids ⊆ ids') : Patched M S x check ids' c' := by
  have hmem : c'.mem = c.mem := by
    show c'.onlyPatched.mem = c.onlyPatched.mem
    rw [hc]
  exact ⟨hc ▸ h.undoable.mono hsub, hmem ▸ h.near, h.original, hmem ▸ h.differs⟩

end Patched

section Patching

variable {κ : Type*} {b : Build} {g : FakeGlobals} {u : MemUtils κ} {ok : κ → Prop}
  {gamedll engine p : ℕ} {M : ℕ → Byte} {S : Set ℕ} {s : PatchState κ}

/-- The replacement for `CNetChan::SetDataRate`, or one written after it, is where the check
byte was. -/
theorem writeAll_patchLeaves_ne (m : ℕ → Byte) {f : ℕ × List (RatePatch × ℕ)}
    {rest : List (RatePatch × ℕ)} (hf : f.2 = (NetChanDataRatePatch b, p) :: rest)
    (hcs : f.2.map Prod.fst = ratePatches b) :
    writeAll m ((patchLeaves b g M f).map PatchObject.site) (netChanCheck b p) ≠
      CNETCHAN_PATCH_CHECK_BYTE b := by
  let net := ((NetChanDataRatePatch b).leaf M p).site
  have hcovers : Covers net.addr net.len (netChanCheck b p) :=
    ⟨le_rfl, Nat.lt_add_of_pos_right Nat.two_pos⟩
  have hsites : (patchLeaves b g M f).map PatchObject.site =
      (boomerVomitLeaves b g M f.1).map PatchObject.site ++
        net :: (rateLeaves M rest).map PatchObject.site := by
    rw [patchLeaves, hf, List.map_append]
    rfl
  rw [hsites, writeAll, List.foldl_append]
  obtain ⟨block, hblock, hcell⟩ := exists_cellAt_writeAll hcovers
    ((rateLeaves M rest).map PatchObject.site)
    (List.foldl Block.write m ((boomerVomitLeaves b g M f.1).map PatchObject.site))
  have hmem : block ∈ (rateLeaves M f.2).map PatchObject.site := by
    rw [hf]
    exact hblock
  rw [rateLeaves, List.map_map, List.mem_map] at hmem
  obtain ⟨⟨c, q⟩, hc, rfl⟩ := hmem
  have hc' : c ∈ ratePatches b := hcs ▸ List.mem_map_of_mem hc
  obtain ⟨i, hi⟩ : ∃ i, c.replacement i = writeAll _ _ (netChanCheck b p) := by
    have hcell' := hcell
    unfold Block.cellAt at hcell'
    split_ifs at hcell'
    exact ⟨_, Option.some.inj hcell'⟩
  exact ne_of_eq_of_ne hi.symm (replacement_ne_check b c hc' i)

/-- A leaf after `Patch()` on leaves is one before, with the same site. -/
theorem Code.exists_of_foldl_patch {c : Code} {ids : List ℕ} {id : ℕ} {o' : PatchObject}
    (h : (ids.foldl Code.patch c).heap id = some o') :
    ∃ o, c.heap id = some o ∧ o'.site = o.site := by
  cases ho : c.heap id with
  | none =>
    have hnone : (ids.foldl Code.patch c).heap id = none := by
      refine List.foldlRecOn (motive := fun c' : Code => c'.heap id = none) ids Code.patch ho ?_
      intro c' hc' j _
      rcases eq_or_ne id j with rfl | hne
      · rwa [Code.patch_of_none hc']
      · exact (c'.patch_heap_of_ne hne).trans hc'
    exact absurd (h.symm.trans hnone) (Option.some_ne_none o')
  | some o =>
    obtain ⟨o'', ho'', hsite, -⟩ := Code.foldl_patch_of_some ho ids
    obtain rfl := Option.some.inj (h.symm.trans ho'')
    exact ⟨o, rfl, hsite⟩

/-- `Patch()` on leaves within `S` writes nothing outside. -/
theorem Untouched.near_foldl_patch {c : Code} (h : Untouched M S c) (ids : List ℕ) :
    Near M S (ids.foldl Code.patch c).mem := by
  intro x hx
  by_contra hne
  have hundo := (h.undoable ids).foldl_patch (List.Subset.refl ids)
  obtain ⟨id, -, o', ho', -, htargets⟩ := hundo.covered x hne
  obtain ⟨o, ho, hsite⟩ := Code.exists_of_foldl_patch ho'
  refine hx ((h.leaves id o ho).2 x ?_)
  rw [← hsite]
  exact htargets

/-- A `try` block on `M` that does not throw leaves patches that can be taken off. -/
theorem Untouched.tryBlock (h : Untouched M S s.process.code)
    (howned : Owned s.m_patchManager s.process) (hu : u.Keeps ok)
    (hp : u.FindsNetChan ok M S b engine p) (hk : ok s.cache)
    (hS : ∀ o ∈ patchLeaves b g M (found b u M gamedll engine s.cache).1, o.Within S)
    (hv : PatchesValid b s.process.code.mem
      (found b u s.process.code.mem gamedll engine s.cache).1) :
    let r := TickrateEnabler.tryBlock b g u gamedll engine s
    r.1 = none ∧ ok r.2.cache ∧ Patched M S (netChanCheck b p) (CNETCHAN_PATCH_CHECK_BYTE b)
      (PatchManager.leaves r.2.m_patchManager) r.2.process.code := by
  have hnear : Near M S s.process.code.mem := fun x _ => congrFun h.mem x
  obtain ⟨hcheck, rest, hrest⟩ := hv.netChan hu hp hnear hk
  obtain ⟨ps, s', heq, halloc⟩ := tryBlock_of_valid (g := g) s hv
  dsimp only
  rw [heq]
  refine ⟨rfl, found_keeps hu b _ gamedll engine hk, ?_⟩
  have hstart : Untouched M S s'.code := by
    refine h.allocates howned halloc fun o ho => ?_
    rw [h.mem] at ho
    exact ⟨patchLeaves_constructed b g _ _ o ho, hS o ho⟩
  dsimp only
  rw [PatchManager.patchAll_code]
  refine ⟨?_, hstart.near_foldl_patch _, ?_, ?_⟩
  · exact ((hstart.undoable _).foldl_patch (List.Subset.refl _)).onlyPatched
  · rw [← h.mem]
    exact hcheck
  · let c := (PatchManager.leaves s.m_patchManager).foldl Code.patch s'.code
    have hheap : (PatchManager.leaves ps).map c.heap = (patchLeaves b g s.process.code.mem
        (found b u s.process.code.mem gamedll engine s.cache).1).map some := by
      refine (List.map_congr_left fun id hid => Code.foldl_patch_heap fun hold => ?_).trans
        halloc.heap
      exact Nat.not_lt.2 (halloc.fresh id hid).1 (howned.fresh id hold)
    rw [PatchManager.leaves_append, List.foldl_append,
      Code.foldl_patch_mem halloc.nodup hheap (patchLeaves_patched _ _ _ _)]
    exact writeAll_patchLeaves_ne _ hrest (foundRates_fst ..)

/-- The byte that is checked is not there, so the `try` block throws before `PatchAll`. -/
theorem Patched.tryBlock (h : Patched M S (netChanCheck b p) (CNETCHAN_PATCH_CHECK_BYTE b)
      (PatchManager.leaves s.m_patchManager) s.process.code)
    (howned : Owned s.m_patchManager s.process) (hu : u.Keeps ok)
    (hp : u.FindsNetChan ok M S b engine p) (hk : ok s.cache) :
    let r := TickrateEnabler.tryBlock b g u gamedll engine s
    (∃ x, r.1 = some x) ∧ ok r.2.cache ∧ r.2.process.code.mem = s.process.code.mem ∧
      Patched M S (netChanCheck b p) (CNETCHAN_PATCH_CHECK_BYTE b)
        (PatchManager.leaves r.2.m_patchManager) r.2.process.code := by
  have hv : ¬PatchesValid b s.process.code.mem
      (found b u s.process.code.mem gamedll engine s.cache).1 :=
    fun hv => h.differs (hv.netChan hu hp h.near hk).1
  -- the leaves that are new are not applied, so they may be anywhere
  obtain ⟨hx, hmakes, hok⟩ := tryBlock_makes (S := Set.univ) (g := g) hu hk
    (fun _ _ x _ => Set.mem_univ x) hv
  obtain ⟨x, ps, s', k', os, heq, halloc⟩ := tryBlock_of_not_valid (g := g) s hv
  refine ⟨hx, hok, congrArg World.mem hmakes.world, ?_⟩
  rw [heq] at hmakes ⊢
  refine h.of_onlyPatched (hmakes.onlyPatched howned halloc) ?_
  rw [PatchManager.leaves_append]
  exact List.subset_append_left _ _

end Patching

/-! ## `Load` and `Unload` -/

section Calls

variable {κ η : Type*} {e : Engine κ η} {b : Build} {ok : κ → Prop} {M : ℕ → Byte} {S : Set ℕ}
  {p : ℕ} {s : L4DTickRate κ η}

/-- A game of the build `b` whose patches on `M` are within `S`, and where `CNetChan::SetDataRate`
is found at `p`, or not at all. -/
structure Engine.Steady (e : Engine κ η) (b : Build) (ok : κ → Prop) (M : ℕ → Byte) (S : Set ℕ)
    (p : ℕ) : Prop where
  build : e.build = b
  keeps : e.memUtils.Keeps ok
  finds : e.memUtils.FindsNetChan ok M S b e.engine p
  within : ∀ k, ok k → ∀ o ∈ patchLeaves b e.fakeGlobals M
    (TickrateEnabler.found b e.memUtils M e.gamedll e.engine k).1, o.Within S

/-- The lookups are within `ok`, and code memory is `M`, or has patches on it that `Unload`
takes off. -/
structure Held (b : Build) (ok : κ → Prop) (M : ℕ → Byte) (S : Set ℕ) (p : ℕ)
    (s : L4DTickRate κ η) : Prop where
  cache : ok s.patches.cache
  code : Untouched M S s.patches.process.code ∨
    Patched M S (netChanCheck b p) (CNETCHAN_PATCH_CHECK_BYTE b)
      (PatchManager.leaves s.patches.m_patchManager) s.patches.process.code

namespace L4DTickRate

theorem loadCvars_patches : (loadCvars e s).2.patches = s.patches := by
  rw [loadCvars]
  dsimp only
  split_ifs <;> rfl

theorem loadPatches_patches : (loadPatches e s).2.patches =
    (tryBlock e.build e.fakeGlobals e.memUtils s.gamedll s.engine s.patches).2 := by
  unfold loadPatches
  dsimp only
  split
  · rfl
  · exact loadCvars_patches

theorem loadPatches_of_thrown {x : PatchException}
    (h : (tryBlock e.build e.fakeGlobals e.memUtils s.gamedll s.engine s.patches).1 = some x) :
    (loadPatches e s).1 = .returned false := by
  unfold loadPatches
  simp only [h]

end L4DTickRate

open L4DTickRate

namespace Held

/-- `Load` on memory with patches throws and writes nothing, and on `M` it puts patches on it
or leaves it. -/
theorem load (h : Held b ok M S p s) (he : e.Steady b ok M S p) :
    Held b ok M S p (load e s).2 ∧
      (s.mem ≠ M → (load e s).1 = .returned false ∧ (load e s).2.mem = s.mem) ∧
      ((load e s).1 = .returned true → s.mem = M ∧ (load e s).2.mem ≠ M) := by
  obtain ⟨rfl, hu, hp, hS⟩ := he
  by_cases hg : e.gamedll = 0
  · rw [load_of_gamedll_eq_zero hg]
    exact ⟨⟨h.cache, h.code⟩, fun _ => ⟨rfl, rfl⟩, by simp⟩
  rw [load_of_gamedll_ne_zero hg]
  have hpatches : (loadPatches e (hooked e s)).2.patches =
      (tryBlock e.build e.fakeGlobals e.memUtils e.gamedll e.engine s.patches).2 :=
    loadPatches_patches
  rcases h.code with huntouched | hpatched
  · by_cases hv : PatchesValid e.build s.mem (e.found s).1
    · obtain ⟨-, hok, hafter⟩ :=
        huntouched.tryBlock (g := e.fakeGlobals) s.owned hu hp h.cache (hS _ h.cache) hv
      rw [← hpatches] at hok hafter
      exact ⟨⟨hok, Or.inr hafter⟩, fun hne => (hne huntouched.mem).elim,
        fun _ => ⟨huntouched.mem, hafter.mem_ne⟩⟩
    · have hwithin : ∀ o ∈ patchLeaves e.build e.fakeGlobals s.mem (e.found s).1, o.Within S := by
        have hmem : s.mem = M := huntouched.mem
        rw [Engine.found, hmem]
        exact hS _ h.cache
      obtain ⟨⟨x, hx⟩, hmakes, hok⟩ :=
        tryBlock_makes (g := e.fakeGlobals) hu h.cache hwithin hv
      rw [← hpatches] at hok hmakes
      exact ⟨⟨hok, Or.inl (huntouched.makes hmakes)⟩, fun hne => (hne huntouched.mem).elim,
        fun htrue => absurd ((loadPatches_of_thrown hx).symm.trans htrue) (by simp)⟩
  · obtain ⟨⟨x, hx⟩, hok, hmem, hafter⟩ :=
      hpatched.tryBlock (g := e.fakeGlobals) s.owned hu hp h.cache
    rw [← hpatches] at hok hmem hafter
    have hfalse : (loadPatches e (hooked e s)).1 = .returned false := loadPatches_of_thrown hx
    exact ⟨⟨hok, Or.inr hafter⟩, fun _ => ⟨hfalse, hmem⟩,
      fun htrue => absurd (hfalse.symm.trans htrue) (by simp)⟩

/-- `UnpatchAll` gives back `M`. -/
theorem unpatchAll_mem (h : Held b ok M S p s) :
    (PatchManager.unpatchAll s.patches.m_patchManager s.patches.process).code.mem = M := by
  rw [PatchManager.unpatchAll_code]
  rcases h.code with huntouched | hpatched
  · exact (huntouched.undoable _).foldl_unpatch_mem
  · exact hpatched.foldl_unpatch_mem

theorem unloadPatches (h : Held b ok M S p s) : Held b ok M S p (unloadPatches e s) ∧
    (unloadPatches e s).mem = M := by
  have hmem : (L4DTickRate.unloadPatches e s).mem = M :=
    (congrArg World.mem (PatchManager.deleteAll_world ..)).trans h.unpatchAll_mem
  refine ⟨⟨h.cache, Or.inl ⟨hmem, fun id o ho => ?_⟩⟩, hmem⟩
  have hnone := (L4DTickRate.unloadPatches e s).owned.live id List.not_mem_nil
  exact absurd (hnone.symm.trans ho) (by simp)

/-- `Unload` gives back `M` and leaves no patch, or it calls a method on `NULL` before it
touches the patches. -/
theorem unload (h : Held b ok M S p s) :
    Held b ok M S p (unload e s).2 ∧
      ((∃ r, (unload e s).1 = .returned r) →
        (unload e s).2.mem = M ∧ (unload e s).2.patches.m_patchManager = []) ∧
      ((¬∃ r, (unload e s).1 = .returned r) → (unload e s).2.patches = s.patches) := by
  rw [L4DTickRate.unload]
  split_ifs with h0
  · exact ⟨h, by simp, fun _ => rfl⟩
  · dsimp only
    split
    · have hafter := Held.unloadPatches (e := e) (s := { s with
        convars := (setMaxima (e.findVar s.g_pCvar) true 30000 rateVars s.convars).2 })
        ⟨h.cache, h.code⟩
      exact ⟨hafter.1, fun _ => ⟨hafter.2, rfl⟩, fun hno => (hno ⟨_, rfl⟩).elim⟩
    · next hno =>
      refine ⟨⟨h.cache, h.code⟩, ?_, fun _ => rfl⟩
      rintro ⟨r, hr⟩
      exact (hno r hr).elim

end Held

/-! ## Runs -/

/-- A call of the server, with what the plugin is called in. -/
inductive PluginCall (κ η : Type*) where
  | load (e : Engine κ η)
  | unload (e : Engine κ η)

/-- The game of the call. -/
def PluginCall.engine : PluginCall κ η → Engine κ η
  | .load e => e
  | .unload e => e

/-- One call. -/
def L4DTickRate.step (s : L4DTickRate κ η) : PluginCall κ η → L4DTickRate κ η
  | .load e => (L4DTickRate.load e s).2
  | .unload e => (L4DTickRate.unload e s).2

theorem Held.run (h : Held b ok M S p s) {calls : List (PluginCall κ η)}
    (hcalls : ∀ c ∈ calls, c.engine.Steady b ok M S p) :
    Held b ok M S p (Transition.run L4DTickRate.step s calls) := by
  refine List.foldlRecOn calls L4DTickRate.step h fun s h c hc => ?_
  cases c with
  | load e => exact (h.load (hcalls _ hc)).1
  | unload e => exact h.unload.1

/-- After calls that keep `Held`, a changed memory is not changed again, a `Load` that returns
`true` changes `M`, and an `Unload` gives back `M` or is aborted. -/
theorem Held.restores (h : Held b ok M S p s) (he : e.Steady b ok M S p) :
    (s.mem ≠ M → (L4DTickRate.load e s).1 = .returned false ∧
      (L4DTickRate.load e s).2.mem = s.mem) ∧
    ((L4DTickRate.load e s).1 = .returned true → s.mem = M ∧ (L4DTickRate.load e s).2.mem ≠ M) ∧
    ((∃ r, (L4DTickRate.unload e s).1 = .returned r) → (L4DTickRate.unload e s).2.mem = M ∧
      (L4DTickRate.unload e s).2.patches.m_patchManager = []) ∧
    ((¬∃ r, (L4DTickRate.unload e s).1 = .returned r) →
      (L4DTickRate.unload e s).2.mem = s.mem) := by
  obtain ⟨-, hchanged, htrue⟩ := h.load he
  obtain ⟨-, hreturned, haborted⟩ := h.unload (e := e)
  refine ⟨hchanged, htrue, hreturned, fun hno => ?_⟩
  exact congrArg (fun t : PatchState κ => t.process.code.mem) (haborted hno)

/-- A plugin with nothing registered. -/
theorem Held.of_nil (hm : s.patches.m_patchManager = []) (hk : ok s.patches.cache) :
    Held b ok s.mem S p s := by
  refine ⟨hk, Or.inl ⟨rfl, fun id o ho => ?_⟩⟩
  have hid : id ∉ PatchManager.leaves s.patches.m_patchManager := by
    rw [hm]
    exact List.not_mem_nil
  exact absurd ((s.owned.live id hid).symm.trans ho) (by simp)

end Calls

/-! ## Linux -/

namespace OperatingSystem

/-- The load address tells the libraries apart. -/
def LibrariesApart (os : OperatingSystem) : Prop :=
  ∀ f f' dlmap dlmap', os.dlopen f = some dlmap → os.dlopen f' = some dlmap' →
    dlmap.l_addr = dlmap'.l_addr → dlmap = dlmap'

/-- Every table belongs to a scan of its library. -/
def ScannedTables (os : OperatingSystem) (k : SymTables) : Prop :=
  ∀ f dlmap, os.dlopen f = some dlmap →
    LibSymbolTable.Scanned dlmap (k.m_SymTables.tableOf dlmap.l_addr)

/-- The symbol in the library that has the address in it, by a fresh scan, or `NULL`. -/
def symbolAddress (os : OperatingSystem) (pBaseAddr : ℕ) (symbol : Name) : ℕ :=
  (((os.dladdr pBaseAddr).bind fun info => os.dlopen info.dli_fname).map fun dlmap =>
    (dlmap.freshScan symbol).toNat).getD 0

variable {os : OperatingSystem}

/-- `SimpleResolve` keeps the tables, and gives the address of a fresh scan or `NULL`. -/
theorem ScannedTables.simpleResolve (hlibs : os.LibrariesApart) {k : SymTables}
    (hk : os.ScannedTables k) (pBaseAddr : ℕ) (symbol : Name) :
    os.ScannedTables (os.simpleResolve .linux k pBaseAddr symbol).2 ∧
      ((os.simpleResolve .linux k pBaseAddr symbol).1 = 0 ∨
        (os.simpleResolve .linux k pBaseAddr symbol).1 = os.symbolAddress pBaseAddr symbol) := by
  unfold OperatingSystem.simpleResolve symbolAddress
  cases hinfo : os.dladdr pBaseAddr with
  | none => exact ⟨hk, Or.inl rfl⟩
  | some info =>
    simp only [Option.bind_some]
    cases hlib : os.dlopen info.dli_fname with
    | none => exact ⟨hk, Or.inl rfl⟩
    | some handle =>
      have hscan := (hk _ _ hlib).resolve symbol (os.system k.calls)
      refine ⟨fun f dlmap hf => ?_, ?_⟩
      · show LibSymbolTable.Scanned dlmap
          ((k.m_SymTables.resolveSymbol handle symbol (os.system k.calls)).2.tableOf dlmap.l_addr)
        rw [MemoryUtils.tableOf_resolveSymbol]
        split_ifs with haddr
        · obtain rfl := hlibs _ _ _ _ hf hlib haddr
          exact hscan.1
        · exact hk f dlmap hf
      · show (k.m_SymTables.resolveSymbol handle symbol (os.system k.calls)).1.toNat = 0 ∨
          (k.m_SymTables.resolveSymbol handle symbol (os.system k.calls)).1.toNat =
            (handle.freshScan symbol).toNat
        rw [MemoryUtils.resolveSymbol_fst, hscan.2]
        split_ifs
        · exact Or.inr rfl
        · exact Or.inl rfl

theorem memUtils_keeps (hlibs : os.LibrariesApart) :
    (os.memUtils .linux).Keeps os.ScannedTables := by
  rintro mem k libPtr (name | ⟨sig, len⟩) hk
  · exact (hk.simpleResolve hlibs libPtr name).1
  · exact hk

/-- On Linux `CNetChan::SetDataRate` is a symbol. -/
theorem memUtils_findsNetChan (hlibs : os.LibrariesApart) (M : ℕ → Byte) (S : Set ℕ) (game : Game)
    (engine : ℕ) : (os.memUtils .linux).FindsNetChan os.ScannedTables M S ⟨.linux, game⟩ engine
      (os.symbolAddress engine (ascii "_ZN8CNetChan11SetDataRateEf")) :=
  fun _ _ _ hk => (hk.simpleResolve hlibs engine _).2

theorem scannedTables_nil (os : OperatingSystem) {k : SymTables} (hk : k.m_SymTables = []) :
    os.ScannedTables k := by
  intro f dlmap _
  rw [hk]
  exact ScannedTo.zero dlmap

end OperatingSystem

/-- The build for Linux on the system, where the engine's interface is at `engine`. -/
structure Engine.OnLinux {η : Type*} (e : Engine SymTables η) (os : OperatingSystem) (game : Game)
    (engine : ℕ) : Prop where
  build : e.build = ⟨.linux, game⟩
  memUtils : e.memUtils = os.memUtils .linux
  engine_eq : e.engine = engine

theorem Engine.OnLinux.steady {η : Type*} {e : Engine SymTables η} {os : OperatingSystem}
    {game : Game} {engine : ℕ} (he : e.OnLinux os game engine) (hlibs : os.LibrariesApart)
    (M : ℕ → Byte) : e.Steady ⟨.linux, game⟩ os.ScannedTables M Set.univ
      (os.symbolAddress engine (ascii "_ZN8CNetChan11SetDataRateEf")) := by
  refine ⟨he.build, ?_, ?_, fun _ _ _ _ x _ => Set.mem_univ x⟩
  · rw [he.memUtils]
    exact OperatingSystem.memUtils_keeps hlibs
  · rw [he.memUtils, he.engine_eq]
    exact OperatingSystem.memUtils_findsNetChan hlibs M Set.univ game engine

/-- On Linux, from a plugin with nothing registered, `Load` and `Unload` are called in any
order, and each call may meet other interfaces, variables and open files. Once code memory
is changed every `Load` fails and writes nothing. A `Load` that returns `true` was called on
the first memory and changes it. An `Unload` that returns gives back that memory and leaves
no patch registered, and one that is aborted on `NULL` writes nothing. -/
theorem linux_calls_restore {η : Type*} {os : OperatingSystem} (hlibs : os.LibrariesApart)
    {game : Game} {engine : ℕ} {s : L4DTickRate SymTables η}
    (hm : s.patches.m_patchManager = []) (hk : s.patches.cache.m_SymTables = [])
    (calls : List (PluginCall SymTables η))
    (hcalls : ∀ c ∈ calls, c.engine.OnLinux os game engine) :
    let s' := run L4DTickRate.step s calls
    ∀ e : Engine SymTables η, e.OnLinux os game engine →
      (s'.mem ≠ s.mem → (L4DTickRate.load e s').1 = .returned false ∧
        (L4DTickRate.load e s').2.mem = s'.mem) ∧
      ((L4DTickRate.load e s').1 = .returned true →
        s'.mem = s.mem ∧ (L4DTickRate.load e s').2.mem ≠ s.mem) ∧
      ((∃ r, (L4DTickRate.unload e s').1 = .returned r) →
        (L4DTickRate.unload e s').2.mem = s.mem ∧
          (L4DTickRate.unload e s').2.patches.m_patchManager = []) ∧
      ((¬∃ r, (L4DTickRate.unload e s').1 = .returned r) →
        (L4DTickRate.unload e s').2.mem = s'.mem) := by
  intro s' e he
  have hstart : Held ⟨.linux, game⟩ os.ScannedTables s.mem Set.univ
      (os.symbolAddress engine (ascii "_ZN8CNetChan11SetDataRateEf")) s :=
    .of_nil hm (os.scannedTables_nil hk)
  have hheld : Held ⟨.linux, game⟩ os.ScannedTables s.mem Set.univ
      (os.symbolAddress engine (ascii "_ZN8CNetChan11SetDataRateEf")) s' :=
    hstart.run fun c hc => (hcalls c hc).steady hlibs s.mem
  exact hheld.restores (he.steady hlibs s.mem)

theorem librariesApart_linuxSystem : linuxSystem.LibrariesApart := by
  have hlibs : ∀ f dlmap, linuxLibrary f = some dlmap →
      some dlmap = linuxLibrary (some [0]) ∨ some dlmap = linuxLibrary (some [1]) := by
    intro f dlmap hf
    unfold linuxLibrary at hf
    split at hf
    · exact Or.inl hf.symm
    · exact Or.inr hf.symm
    · exact absurd hf (by simp)
  intro f f' dlmap dlmap' hf hf' haddr
  rcases hlibs f dlmap hf with h | h
  · rcases hlibs f' dlmap' hf' with h' | h'
    · exact Option.some.inj (h.trans h'.symm)
    · obtain rfl := Option.some.inj h
      obtain rfl := Option.some.inj h'
      exact absurd haddr (by decide)
  · rcases hlibs f' dlmap' hf' with h' | h'
    · obtain rfl := Option.some.inj h
      obtain rfl := Option.some.inj h'
      exact absurd haddr (by decide)
    · exact Option.some.inj (h.trans h'.symm)

/-- The second `Load` fails, and the `Unload` after it gives back the first memory. -/
theorem linux_calls_restore_linuxGame :
    let e := linuxGame.on linuxSystem
    let s := run L4DTickRate.step linuxPlugin [.load e]
    s.mem ≠ linuxPlugin.mem ∧ (L4DTickRate.load e s).1 = .returned false ∧
      ((∃ r, (L4DTickRate.unload e s).1 = .returned r) →
        (L4DTickRate.unload e s).2.mem = linuxPlugin.mem) := by
  have hg : (linuxGame.on linuxSystem).gamedll ≠ 0 := by decide +kernel
  have hload : (L4DTickRate.load (linuxGame.on linuxSystem) linuxPlugin).1 = .returned true :=
    L4DTickRate.load_fst_iff.2 ⟨hg, linuxGame_loadable⟩
  have hgame : (linuxGame.on linuxSystem).OnLinux linuxSystem .l4d1
      (linuxGame.on linuxSystem).engine := ⟨rfl, rfl, rfl⟩
  have hm : linuxPlugin.patches.m_patchManager = [] := rfl
  have hk : linuxPlugin.patches.cache.m_SymTables = [] := rfl
  generalize linuxGame.on linuxSystem = e at hload hgame
  generalize linuxPlugin = s at hload hm hk
  have hbefore := linux_calls_restore librariesApart_linuxSystem hm hk [] (by simp) e hgame
  have hafter := linux_calls_restore librariesApart_linuxSystem hm hk [.load e]
    (by simpa [PluginCall.engine] using hgame) e hgame
  rw [run_nil] at hbefore
  have hstep : run L4DTickRate.step s [.load e] = (L4DTickRate.load e s).2 := rfl
  dsimp only
  rw [hstep] at hafter ⊢
  have hne := (hbefore.2.1 hload).2
  exact ⟨hne, (hafter.1 hne).1, fun hr => (hafter.2.2.1 hr).1⟩

end TickrateEnabler
