import TickrateEnabler.Construct

/-!
# The maximum rate patches

`NetChanDataRatePatch`, `GameClientSetRatePatch` and `ClampClientRatePatch` each look up
one function, check one byte in it and own one leaf there. A `RatePatch` is what tells
the classes apart; a build has two or three of them (`ratePatches`).

The constructor makes the leaf (`newRatePatch_of_valid`), or throws and leaves nothing
behind (`newRatePatch_of_not_valid`).
-/

namespace TickrateEnabler

open Memory

/-- The constants of one of the classes in a build. -/
structure RatePatch where
  lookup : Lookup
  notFound : PatchException
  offset : ℕ
  check : Byte
  incorrect : PatchException
  length : ℕ
  replacement : Fin length → Byte

/-! ## Replacements -/

/-- A short jump over `offset` bytes. -/
def jmp8 (offset : Byte) : Fin 2 → Byte :=
  ![JMP_8_OPCODE, offset]

/-- `mov eax, edx` filled up with `NOP_9` and `NOP_3`. -/
def movEaxEdx : Fin (2 + 9 + 3) → Byte :=
  blit (blit ![MOV_R32_RM32_OPCODE, MODRM_REG_EAX_EDX, 0, 0, 0, 0, 0, 0, 0, 0, 0, 0, 0, 0] 2 NOP_9)
    11 NOP_3

/-! ## The classes -/

/-- `NetChanDataRatePatch`. -/
def NetChanDataRatePatch (b : Build) : RatePatch where
  lookup := SIG_CNETCHAN_SETDATARATE b
  notFound := ⟨"Unable to find CNetChan::SetDataRate!"⟩
  offset := CNETCHAN_PATCH_OFFSET b
  check := CNETCHAN_PATCH_CHECK_BYTE b
  incorrect := ⟨"CNetChan::SetDataRate patch offset incorrect!"⟩
  length := 2
  replacement :=
    match b.platform with
    | .windows => jmp8 (CNETCHAN_PATCH_JUMP_OFFSET b.game)
    | .linux => NOP_2

/-- `GameClientSetRatePatch`, where `CGAMECLIENT_PATCH` is defined. -/
def GameClientSetRatePatch (b : Build) : Option RatePatch :=
  let patch (length : ℕ) (replacement : Fin length → Byte) : RatePatch :=
    { lookup := SIG_CGAMECLIENT_SETDATARATE b
      notFound := ⟨"Unable to find CGameClient::SetRate!"⟩
      offset := CGAMECLIENT_PATCH_OFFSET b
      check := CGAMECLIENT_PATCH_CHECK_BYTE b.platform
      incorrect := ⟨"CGameClient::SetRate patch offset incorrect!"⟩
      length := length
      replacement := replacement }
  match b with
  | ⟨.windows, game⟩ => some (patch _ (jmp8 (CGAMECLIENT_PATCH_JUMP_OFFSET game)))
  | ⟨.linux, .l4d1⟩ => some (patch _ movEaxEdx)
  | ⟨.linux, .l4d2⟩ => none

/-- `ClampClientRatePatch`, where `CLAMPCLIENTRATE_PATCH` is defined. -/
def ClampClientRatePatch (b : Build) : Option RatePatch :=
  let patch (offset length : ℕ) (replacement : Fin length → Byte) : RatePatch :=
    { lookup := SIG_CLAMPCLIENTRATE b.platform
      notFound := ⟨"Unable to find ClampClientRate!"⟩
      offset := offset
      check := CLAMPCLIENTRATE_PATCH_CHECK_BYTE b.platform
      incorrect := ⟨"ClampClientRate patch offset incorrect!"⟩
      length := length
      replacement := replacement }
  match b with
  | ⟨.linux, game⟩ => some (patch (CLAMPCLIENTRATE_PATCH_OFFSET_LINUX game) _ movEaxEdx)
  | ⟨.windows, .l4d2⟩ =>
    some (patch CLAMPCLIENTRATE_PATCH_OFFSET_WIN32 _ (jmp8 CLAMPCLIENTRATE_PATCH_JUMP_OFFSET))
  | ⟨.windows, .l4d1⟩ => none

/-- The classes `Load` makes patches of, in order. -/
def ratePatches (b : Build) : List RatePatch :=
  NetChanDataRatePatch b :: ((GameClientSetRatePatch b).toList ++ (ClampClientRatePatch b).toList)

namespace RatePatch

/-- `GeneratePatch`, on the function that was found. -/
def generatePatch (c : RatePatch) (mem : ℕ → Byte) (p : ℕ) : Except PatchException PatchObject :=
  if p = 0 then .error c.notFound
  else if mem (p + c.offset) ≠ c.check then .error c.incorrect
  else .ok (newStatic mem (p + c.offset) c.replacement)

/-- The function was found and has the checked byte. -/
def Valid (c : RatePatch) (mem : ℕ → Byte) (p : ℕ) : Prop :=
  p ≠ 0 ∧ mem (p + c.offset) = c.check

instance (c : RatePatch) (mem : ℕ → Byte) (p : ℕ) : Decidable (c.Valid mem p) :=
  inferInstanceAs (Decidable (_ ∧ _))

/-- The leaf. -/
def leaf (c : RatePatch) (mem : ℕ → Byte) (p : ℕ) : PatchObject :=
  newStatic mem (p + c.offset) c.replacement

theorem generatePatch_of_valid {c : RatePatch} {mem : ℕ → Byte} {p : ℕ} (h : c.Valid mem p) :
    c.generatePatch mem p = .ok (c.leaf mem p) := by
  rw [generatePatch, if_neg h.1, if_neg (not_not.2 h.2)]
  rfl

theorem generatePatch_of_not_valid {c : RatePatch} {mem : ℕ → Byte} {p : ℕ}
    (h : ¬c.Valid mem p) : ∃ e, c.generatePatch mem p = .error e := by
  unfold generatePatch
  split_ifs with h0 hc
  · exact ⟨_, rfl⟩
  · exact ⟨_, rfl⟩
  · exact (h ⟨h0, not_not.1 hc⟩).elim

end RatePatch

/-! ## The constructors -/

/-- `new` of one of the classes, for `engine`. -/
def newRatePatch {κ : Type*} (u : MemUtils κ) (engine : ℕ) (c : RatePatch) (s : Process) (k : κ) :
    Except PatchException CodePatch × Process × κ :=
  let s' := s.alloc.2
  let found := u.find s'.code.mem k engine c.lookup
  match c.generatePatch s'.code.mem found.1 with
  | .error e => (.error e, s', found.2)
  | .ok o => (.ok (.wrapper s.alloc.1 (.bin (s'.new o).1)), (s'.new o).2, found.2)

variable {κ : Type*} {u : MemUtils κ} {engine : ℕ} {c : RatePatch} {s : Process} {k : κ}

/-- The constructor makes the leaf. -/
theorem newRatePatch_of_valid
    (h : c.Valid s.code.mem (u.find s.code.mem k engine c.lookup).1) :
    ∃ p s', newRatePatch u engine c s k =
        (.ok p, s', (u.find s.code.mem k engine c.lookup).2) ∧
      s.Allocates s' p.leaves
        [c.leaf s.code.mem (u.find s.code.mem k engine c.lookup).1] := by
  let o := c.leaf s.code.mem (u.find s.code.mem k engine c.lookup).1
  have hok : c.generatePatch s.alloc.2.code.mem
      (u.find s.alloc.2.code.mem k engine c.lookup).1 = .ok o := c.generatePatch_of_valid h
  refine ⟨.wrapper s.alloc.1 (.bin (s.alloc.2.new o).1), (s.alloc.2.new o).2, ?_,
    (Process.Allocates.alloc s).trans (.new s.alloc.2 o)⟩
  rw [newRatePatch]
  simp only [hok]
  rfl

/-- The constructor throws, and leaves no patch behind. -/
theorem newRatePatch_of_not_valid
    (h : ¬c.Valid s.code.mem (u.find s.code.mem k engine c.lookup).1) :
    ∃ e s', newRatePatch u engine c s k =
        (.error e, s', (u.find s.code.mem k engine c.lookup).2) ∧ s.Allocates s' [] [] := by
  obtain ⟨e, he⟩ := c.generatePatch_of_not_valid h
  have herr : c.generatePatch s.alloc.2.code.mem
      (u.find s.alloc.2.code.mem k engine c.lookup).1 = .error e := he
  refine ⟨e, s.alloc.2, ?_, .alloc s⟩
  rw [newRatePatch]
  simp only [herr]
  rfl

end TickrateEnabler
