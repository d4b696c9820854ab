import TickrateEnabler.Construct

/-!
# The boomer vomit patch

`BoomerVomitFrameTimePatch` redirects the frametime reads of `CVomit::UpdateAbility` to
the plugin's fake globals. Each read is a `mov` through a pointer; the six bytes at it
are copied, made to read from an absolute address, and become a leaf.

The constructor makes one leaf for each read (`newBoomerVomit_of_valid`), or throws and
leaves nothing behind (`newBoomerVomit_of_not_valid`).
-/

namespace TickrateEnabler

open Memory

/-! ## Rewriting a read -/

/-- `mov_to_disp32` : the instruction made to read from a disp32, if it is a known `mov`. -/
def mov_to_disp32 {n : ℕ} (instr : Fin (n + 2) → Byte) : (Fin (n + 2) → Byte) × Bool :=
  if instr 0 = 0x8B then (Function.update instr 1 (MODRM_SRC_TO_DISP32 (instr 1)), true)
  else if instr 0 = 0xA1 then (instr, true)
  else (instr, false)

/-- `mov_src_operand_offset`, of the byte `instr[0]`. -/
def mov_src_operand_offset (opcode : Byte) : ℕ :=
  if opcode = 0x8B then 2 else if opcode = 0xA1 then 1 else 0

/-- The addresses of the variables `gp_FakeGlobals` and, for `L4D1` on Linux,
`gpp_FakeGlobals`. -/
structure FakeGlobals where
  gp_FakeGlobals : BitVec 32
  gpp_FakeGlobals : BitVec 32

/-- The address the reads of a build are given. -/
def FakeGlobals.source (g : FakeGlobals) : Build → BitVec 32
  | ⟨.linux, .l4d1⟩ => g.gpp_FakeGlobals
  | _ => g.gp_FakeGlobals

/-- A pointer in memory, little endian. -/
def pointerBytes (p : BitVec 32) : Fin 4 → Byte :=
  fun i => p.extractLsb' (8 * i) 8

/-- `instr_buf` for the read at `pTarget`. -/
def instr_buf (source : BitVec 32) (mem : ℕ → Byte) (pTarget : ℕ) :
    Fin MAX_MOV_INSTR_LEN → Byte :=
  blit (mov_to_disp32 (load mem pTarget MAX_MOV_INSTR_LEN)).1
    (mov_src_operand_offset (mem pTarget)) (pointerBytes source)

/-- One round of the loop : the leaf for the read at `pTarget`. -/
def frameTimeReadPatch (source : BitVec 32) (mem : ℕ → Byte) (pTarget : ℕ) :
    Except PatchException PatchObject :=
  if mov_src_operand_offset (mem pTarget) = 0 then
    .error ⟨"CVomit::UpdateAbility() Patch Offset incorrect."⟩
  else .ok (newStatic mem pTarget (instr_buf source mem pTarget))

theorem mov_src_operand_offset_eq_zero_iff (opcode : Byte) :
    mov_src_operand_offset opcode = 0 ↔ ¬(opcode = 0x8B ∨ opcode = 0xA1) := by
  unfold mov_src_operand_offset
  split_ifs with h h'
  · exact iff_of_false (by decide) fun hn => hn (Or.inl h)
  · exact iff_of_false (by decide) fun hn => hn (Or.inr h')
  · exact iff_of_true rfl (not_or.2 ⟨h, h'⟩)

/-! ## The constructor -/

/-- The loop of `InitializeBinPatches`, over the offsets that are left : what is thrown, the
leaves in `m_patches`, and the process. -/
def initializeBinPatches (source : BitVec 32) (pCVomitUpdateAbility : ℕ) :
    List ℕ → PatchManager → Process → Option PatchException × PatchManager × Process
  | [], m_patches, s => (none, m_patches, s)
  | offs :: rest, m_patches, s =>
    match frameTimeReadPatch source s.code.mem (pCVomitUpdateAbility + offs) with
    | .error e => (some e, m_patches, s)
    | .ok o =>
      initializeBinPatches source pCVomitUpdateAbility rest (m_patches ++ [.bin (s.new o).1])
        (s.new o).2

/-- `new BoomerVomitFrameTimePatch(gamedll)`. When it throws, its manager is destroyed. -/
def newBoomerVomit {κ : Type*} (b : Build) (g : FakeGlobals) (u : MemUtils κ) (gamedll : ℕ)
    (s : Process) (k : κ) : Except PatchException CodePatch × Process × κ :=
  let found := u.find s.code.mem k gamedll (CVomit_UpdateAbility b)
  let s' := s.alloc.2
  if found.1 = 0 then
    (.error ⟨"Couldn't find CVomit::UpdateAbility() in server memory."⟩, s', found.2)
  else
    let r := initializeBinPatches (g.source b) found.1 (g_FrameTimeReadOffsets b) [] s'
    match r.1 with
    | some e => (.error e, PatchManager.deleteAll r.2.1 r.2.2, found.2)
    | none => (.ok (.composite s.alloc.1 r.2.1), r.2.2, found.2)

/-- The read at `pTarget` is a known `mov`. -/
def KnownMov (mem : ℕ → Byte) (pTarget : ℕ) : Prop :=
  mem pTarget = 0x8B ∨ mem pTarget = 0xA1

instance (mem : ℕ → Byte) (pTarget : ℕ) : Decidable (KnownMov mem pTarget) :=
  inferInstanceAs (Decidable (_ ∨ _))

/-- The leaf for the read at `pTarget`. -/
def frameTimeReadLeaf (source : BitVec 32) (mem : ℕ → Byte) (pTarget : ℕ) : PatchObject :=
  newStatic mem pTarget (instr_buf source mem pTarget)

/-- The function was found and every read is a known `mov`. -/
def BoomerVomitValid (b : Build) (mem : ℕ → Byte) (pCVomitUpdateAbility : ℕ) : Prop :=
  pCVomitUpdateAbility ≠ 0 ∧
    ∀ offs ∈ g_FrameTimeReadOffsets b, KnownMov mem (pCVomitUpdateAbility + offs)

instance (b : Build) (mem : ℕ → Byte) (p : ℕ) : Decidable (BoomerVomitValid b mem p) :=
  inferInstanceAs (Decidable (_ ∧ _))

/-- The leaves for the reads, all made from one memory. -/
def boomerVomitLeaves (b : Build) (g : FakeGlobals) (mem : ℕ → Byte)
    (pCVomitUpdateAbility : ℕ) : List PatchObject :=
  (g_FrameTimeReadOffsets b).map fun offs =>
    frameTimeReadLeaf (g.source b) mem (pCVomitUpdateAbility + offs)

theorem frameTimeReadPatch_of_known {source : BitVec 32} {mem : ℕ → Byte} {pTarget : ℕ}
    (h : KnownMov mem pTarget) :
    frameTimeReadPatch source mem pTarget = .ok (frameTimeReadLeaf source mem pTarget) :=
  if_neg fun h0 => (mov_src_operand_offset_eq_zero_iff _).1 h0 h

theorem frameTimeReadPatch_of_not_known {source : BitVec 32} {mem : ℕ → Byte} {pTarget : ℕ}
    (h : ¬KnownMov mem pTarget) :
    frameTimeReadPatch source mem pTarget =
      .error ⟨"CVomit::UpdateAbility() Patch Offset incorrect."⟩ :=
  if_pos ((mov_src_operand_offset_eq_zero_iff _).2 h)

theorem Process.Allocates.free {s s' : Process} {id : ℕ} {ids : List ℕ} {o : PatchObject}
    {os : List PatchObject} (h : Process.Allocates s s' (id :: ids) (o :: os)) :
    Process.Allocates s (s'.free id) ids os := by
  obtain ⟨hid, hnd⟩ := List.nodup_cons.1 h.nodup
  obtain ⟨hfresh, hids⟩ := List.forall_mem_cons.1 h.fresh
  refine ⟨h.world, h.next_le, fun j hj => ?_, fun j hj hle hnone => ?_, hnd, hids, ?_⟩
  · have hne : j ≠ id := Nat.ne_of_lt (Nat.lt_of_lt_of_le hj hfresh.1)
    exact (Function.update_of_ne hne ..).trans (h.old j hj)
  · rcases eq_or_ne j id with rfl | hne
    · exact Function.update_self ..
    · exact (Function.update_of_ne hne ..).trans
        (h.rest j (List.not_mem_cons_of_ne_of_not_mem hne hj) hle hnone)
  · refine (List.map_congr_left fun j hj => ?_).trans (List.cons.inj h.heap).2
    exact Function.update_of_ne (ne_of_mem_of_not_mem hj hid) ..

/-- Leaves made since `s` are deleted without a trace. -/
theorem Process.Allocates.deleteAll {s s' : Process} {ids : List ℕ} {os : List PatchObject}
    (h : Process.Allocates s s' ids os) :
    Process.Allocates s (PatchManager.deleteAll (ids.map .bin) s') [] [] := by
  induction ids generalizing s' os with
  | nil =>
    obtain rfl : os = [] := List.map_eq_nil_iff.1 h.heap.symm
    exact h
  | cons id ids ih =>
    rcases os with - | ⟨o, os⟩
    · exact absurd h.heap (by simp)
    · exact ih h.free

theorem initializeBinPatches_cons {source : BitVec 32} {p offs : ℕ} (rest : List ℕ)
    (m_patches : PatchManager) {s : Process} (h : KnownMov s.code.mem (p + offs)) :
    let r := s.new (frameTimeReadLeaf source s.code.mem (p + offs))
    initializeBinPatches source p (offs :: rest) m_patches s =
      initializeBinPatches source p rest (m_patches ++ [.bin r.1]) r.2 := by
  rw [initializeBinPatches, frameTimeReadPatch_of_known h]

/-- The loop makes a leaf for each read when all are known. -/
theorem initializeBinPatches_of_known (source : BitVec 32) {p : ℕ} {offsets : List ℕ}
    (m_patches : PatchManager) (s : Process)
    (h : ∀ offs ∈ offsets, KnownMov s.code.mem (p + offs)) :
    ∃ ids s', initializeBinPatches source p offsets m_patches s =
        (none, m_patches ++ ids.map .bin, s') ∧
      s.Allocates s' ids
        (offsets.map fun offs => frameTimeReadLeaf source s.code.mem (p + offs)) := by
  induction offsets generalizing m_patches s with
  | nil => exact ⟨[], s, by rw [initializeBinPatches, List.map_nil, List.append_nil], .refl s⟩
  | cons offs rest ih =>
    obtain ⟨hoffs, hrest⟩ := List.forall_mem_cons.1 h
    let o := frameTimeReadLeaf source s.code.mem (p + offs)
    obtain ⟨ids, s', heq, halloc⟩ := ih (m_patches ++ [.bin (s.new o).1]) (s.new o).2 hrest
    refine ⟨(s.new o).1 :: ids, s', ?_, (Process.Allocates.new s o).trans halloc⟩
    rw [initializeBinPatches_cons rest m_patches hoffs, heq, List.append_assoc]
    rfl

/-- The loop throws when one is not, with the leaves made so far in `m_patches`. -/
theorem initializeBinPatches_of_not_known (source : BitVec 32) {p : ℕ} {offsets : List ℕ}
    (m_patches : PatchManager) (s : Process)
    (h : ¬∀ offs ∈ offsets, KnownMov s.code.mem (p + offs)) :
    ∃ e ids os s', initializeBinPatches source p offsets m_patches s =
        (some e, m_patches ++ ids.map .bin, s') ∧ s.Allocates s' ids os := by
  induction offsets generalizing m_patches s with
  | nil => exact (h (by simp)).elim
  | cons offs rest ih =>
    by_cases hoffs : KnownMov s.code.mem (p + offs)
    · let o := frameTimeReadLeaf source s.code.mem (p + offs)
      have hrest : ¬∀ offs ∈ rest, KnownMov (s.new o).2.code.mem (p + offs) :=
        fun hr => h (List.forall_mem_cons.2 ⟨hoffs, hr⟩)
      obtain ⟨e, ids, os, s', heq, halloc⟩ :=
        ih (m_patches ++ [.bin (s.new o).1]) (s.new o).2 hrest
      refine ⟨e, (s.new o).1 :: ids, o :: os, s', ?_, (Process.Allocates.new s o).trans halloc⟩
      rw [initializeBinPatches_cons rest m_patches hoffs, heq, List.append_assoc]
      rfl
    · refine ⟨⟨"CVomit::UpdateAbility() Patch Offset incorrect."⟩, [], [], s, ?_, .refl s⟩
      rw [initializeBinPatches, frameTimeReadPatch_of_not_known hoffs, List.map_nil,
        List.append_nil]

variable {κ : Type*} {b : Build} {g : FakeGlobals} {u : MemUtils κ} {gamedll : ℕ} {s : Process}
  {k : κ}

/-- The constructor makes the leaves. -/
theorem newBoomerVomit_of_valid
    (h : BoomerVomitValid b s.code.mem
      (u.find s.code.mem k gamedll (CVomit_UpdateAbility b)).1) :
    ∃ p s', newBoomerVomit b g u gamedll s k =
        (.ok p, s', (u.find s.code.mem k gamedll (CVomit_UpdateAbility b)).2) ∧
      s.Allocates s' p.leaves (boomerVomitLeaves b g s.code.mem
        (u.find s.code.mem k gamedll (CVomit_UpdateAbility b)).1) := by
  obtain ⟨h0, hknown⟩ := h
  obtain ⟨ids, s', heq, halloc⟩ :=
    initializeBinPatches_of_known (g.source b) [] s.alloc.2 hknown
  refine ⟨.composite s.alloc.1 (ids.map .bin), s', ?_, ?_⟩
  · rw [newBoomerVomit, if_neg h0, heq]
    rfl
  · rw [CodePatch.leaves, PatchManager.leaves_map_bin]
    exact (Process.Allocates.alloc s).trans halloc

/-- The constructor throws, and leaves no patch behind. -/
theorem newBoomerVomit_of_not_valid
    (h : ¬BoomerVomitValid b s.code.mem
      (u.find s.code.mem k gamedll (CVomit_UpdateAbility b)).1) :
    ∃ e s', newBoomerVomit b g u gamedll s k =
        (.error e, s', (u.find s.code.mem k gamedll (CVomit_UpdateAbility b)).2) ∧
      s.Allocates s' [] [] := by
  by_cases h0 : (u.find s.code.mem k gamedll (CVomit_UpdateAbility b)).1 = 0
  · exact ⟨_, s.alloc.2, if_pos h0, Process.Allocates.alloc s⟩
  · obtain ⟨e, ids, os, s', heq, halloc⟩ :=
      initializeBinPatches_of_not_known (g.source b) [] s.alloc.2 fun hk => h ⟨h0, hk⟩
    refine ⟨e, PatchManager.deleteAll (ids.map .bin) s', ?_,
      ((Process.Allocates.alloc s).trans halloc).deleteAll⟩
    rw [newBoomerVomit, if_neg h0, heq]
    rfl

end TickrateEnabler
