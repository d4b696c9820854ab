import TickrateEnabler.BoomerVomit
import TickrateEnabler.X86.Decode

/-!
# Rewritten frametime reads

What the rewritten reads of `CVomit::UpdateAbility` are as x86 code. The opcode `A1`,
and `8B` with a disp32 and no SIB byte, encode a `mov` of the length of the one that is
written (`decodeOperand_length_iff`); it has the same destination, and reads the word at the
address of the fake globals pointer (`frameTimeRead_rewritten`). The check of
`InitializeBinPatches` looks at the opcode only, so it accepts other forms too, and then
changes the instruction behind (`accepted_intact_iff`).
-/

namespace TickrateEnabler

open Memory X86

/-- The ModRM byte of a disp32 source without a SIB byte. -/
def Disp32Source (modrm : Byte) : Prop :=
  (modField modrm = 2 ∧ rmField modrm ≠ 4) ∨ (modField modrm = 0 ∧ rmField modrm = 5)

instance (modrm : Byte) : Decidable (Disp32Source modrm) :=
  inferInstanceAs (Decidable (_ ∨ _))

/-! ## ModRM bytes and pointers -/

theorem modField_disp32 (modrm : Byte) : modField (MODRM_SRC_TO_DISP32 modrm) = 0 := by
  revert modrm
  decide

theorem rmField_disp32 (modrm : Byte) : rmField (MODRM_SRC_TO_DISP32 modrm) = 5 := by
  revert modrm
  decide

theorem regField_disp32 (modrm : Byte) :
    regField (MODRM_SRC_TO_DISP32 modrm) = regField modrm := by
  revert modrm
  decide

theorem decodeDisp_length (code : ℕ → BitVec 8) (disp : ℕ) (mod : BitVec 2) (base : BitVec 3)
    (index : Option (Reg × BitVec 2)) :
    (decodeDisp code disp mod base index).2 =
      disp + if mod = 0 then (if base = 5 then 4 else 0) else if mod = 1 then 1 else 4 := by
  unfold decodeDisp
  split_ifs <;> rfl

/-- Only a disp32 without a SIB byte takes five bytes with its ModRM byte. -/
theorem decodeOperand_length_iff (code : ℕ → BitVec 8) :
    (decodeOperand code).2 = 5 ↔ Disp32Source (code 0) := by
  have hmod : ∀ m : BitVec 2, m ≠ 3 → m ≠ 1 → m ≠ 0 → m = 2 := by decide
  unfold decodeOperand Disp32Source
  by_cases h3 : modField (code 0) = 3
  · rw [if_pos h3, h3]
    simp
  · rw [if_neg h3]
    by_cases h4 : rmField (code 0) = 4
    · rw [if_pos h4, h4]
      dsimp only
      rw [decodeDisp_length]
      split_ifs <;> simp
    · rw [if_neg h4]
      dsimp only
      rw [decodeDisp_length]
      split_ifs with h0 h5 h1
      · simp [h0, h5]
      · simpa [h0] using h5
      · simp [h1]
      · simpa [hmod _ h3 h1 h0] using h4

theorem decodeOperand_of_disp32 {code : ℕ → BitVec 8} (hmod : modField (code 0) = 0)
    (hrm : rmField (code 0) = 5) :
    decodeOperand code = (.mem (.absolute (imm32 code 1)), 5) := by
  simp [decodeOperand, decodeDisp, hmod, hrm, MemOperand.absolute]

/-- The bytes of a pointer read back as the pointer. -/
theorem imm32_pointerBytes {code : ℕ → BitVec 8} {i : ℕ} {p : BitVec 32}
    (h : ∀ j : Fin 4, code (i + j) = pointerBytes p j) : imm32 code i = p := by
  have h0 : code i = p.extractLsb' 0 8 := h 0
  have h1 : code (i + 1) = p.extractLsb' 8 8 := h 1
  have h2 : code (i + 2) = p.extractLsb' 16 8 := h 2
  have h3 : code (i + 3) = p.extractLsb' 24 8 := h 3
  rw [imm32, h0, h1, h2, h3]
  have happ (a b c : ℕ) : p.extractLsb' (a + b) c ++ p.extractLsb' a b = p.extractLsb' a (c + b) :=
    BitVec.extractLsb'_append_extractLsb'_eq_extractLsb' rfl
  have h32 : p.extractLsb' 24 8 ++ p.extractLsb' 16 8 = p.extractLsb' 16 16 := happ 16 8 8
  have h21 : p.extractLsb' 16 16 ++ p.extractLsb' 8 8 = p.extractLsb' 8 24 := happ 8 8 16
  have h10 : p.extractLsb' 8 24 ++ p.extractLsb' 0 8 = p.extractLsb' 0 32 := happ 0 8 24
  rw [h32, h21, h10]
  exact BitVec.extractLsb'_eq_self

/-! ## The original instruction -/

theorem decode_of_8B {code : ℕ → BitVec 8} (h : code 0 = 0x8B) :
    decode code = some (.mov (.ofBits (regField (code 1))) (decodeOperand (shift 1 code)).1,
      1 + (decodeOperand (shift 1 code)).2) :=
  if_pos h

theorem decode_of_A1 {code : ℕ → BitVec 8} (h : code 0 = 0xA1) :
    decode code = some (.mov .eax (.mem (.absolute (imm32 code 1))), 5) := by
  rw [decode, if_neg (by rw [h]; decide), if_pos h]

/-! ## The rewritten instruction -/

variable {source : BitVec 32} {mem : ℕ → Byte} {pTarget : ℕ}

/-- The six bytes written for the opcode `8B`. -/
theorem instr_buf_of_8B (source : BitVec 32) (h : mem pTarget = 0x8B) :
    instr_buf source mem pTarget 0 = 0x8B ∧
      instr_buf source mem pTarget 1 = MODRM_SRC_TO_DISP32 (mem (pTarget + 1)) ∧
      ∀ j : Fin 4, instr_buf source mem pTarget (j.natAdd 2) = pointerBytes source j := by
  have hoff : mov_src_operand_offset (mem pTarget) = 2 := by
    rw [h]
    rfl
  have hmov : (mov_to_disp32 (load mem pTarget MAX_MOV_INSTR_LEN)).1 =
      Function.update (load mem pTarget MAX_MOV_INSTR_LEN) 1
        (MODRM_SRC_TO_DISP32 (mem (pTarget + 1))) := by
    have h0 : load mem pTarget MAX_MOV_INSTR_LEN 0 = 0x8B := h
    rw [mov_to_disp32, if_pos h0]
    rfl
  rw [instr_buf, hmov, hoff]
  refine ⟨?_, ?_, fun j => ?_⟩
  · exact h
  · rfl
  · exact congrFun (slice_blit _ 2 (pointerBytes source) (by decide)) j

/-- The six bytes written for the opcode `A1`. -/
theorem instr_buf_of_A1 (source : BitVec 32) (h : mem pTarget = 0xA1) :
    instr_buf source mem pTarget 0 = 0xA1 ∧
      (∀ j : Fin 4, instr_buf source mem pTarget (j.natAdd 1).castSucc = pointerBytes source j) ∧
      instr_buf source mem pTarget 5 = mem (pTarget + 5) := by
  have hoff : mov_src_operand_offset (mem pTarget) = 1 := by
    rw [h]
    rfl
  have hmov : (mov_to_disp32 (load mem pTarget MAX_MOV_INSTR_LEN)).1 =
      load mem pTarget MAX_MOV_INSTR_LEN := by
    have h0 : load mem pTarget MAX_MOV_INSTR_LEN 0 = 0xA1 := h
    rw [mov_to_disp32, if_neg (ne_of_eq_of_ne h0 (by decide)), if_pos h0]
  rw [instr_buf, hmov, hoff]
  refine ⟨?_, fun j => ?_, ?_⟩
  · exact h
  · exact congrFun (slice_blit _ 1 (pointerBytes source) (by decide)) j
  · rfl

/-- Code that starts with the bytes written for the read at `pTarget`. -/
def Rewritten (source : BitVec 32) (mem : ℕ → Byte) (pTarget : ℕ) (code : ℕ → BitVec 8) : Prop :=
  ∀ i : Fin MAX_MOV_INSTR_LEN, code i = instr_buf source mem pTarget i

theorem decode_rewritten_of_8B {code : ℕ → BitVec 8} (hcode : Rewritten source mem pTarget code)
    (h : mem pTarget = 0x8B) :
    decode code =
      some (.mov (.ofBits (regField (mem (pTarget + 1)))) (.mem (.absolute source)), 6) := by
  obtain ⟨h0, h1, hptr⟩ := instr_buf_of_8B source h
  have hc0 : code 0 = 0x8B := (hcode 0).trans h0
  have hc1 : code 1 = MODRM_SRC_TO_DISP32 (mem (pTarget + 1)) := (hcode 1).trans h1
  have hdisp : imm32 (shift 1 code) 1 = source :=
    imm32_pointerBytes fun j => by
      rw [shift, ← Nat.add_assoc]
      exact (hcode (j.natAdd 2)).trans (hptr j)
  have hop : decodeOperand (shift 1 code) = (.mem (.absolute source), 5) := by
    have hs : shift 1 code 0 = code 1 := rfl
    rw [decodeOperand_of_disp32, hdisp]
    · rw [hs, hc1, modField_disp32]
    · rw [hs, hc1, rmField_disp32]
  rw [decode_of_8B hc0, hop, hc1, regField_disp32]
  rfl

theorem decode_rewritten_of_A1 {code : ℕ → BitVec 8} (hcode : Rewritten source mem pTarget code)
    (h : mem pTarget = 0xA1) : decode code = some (.mov .eax (.mem (.absolute source)), 5) := by
  obtain ⟨h0, hptr, -⟩ := instr_buf_of_A1 source h
  have hdisp : imm32 code 1 = source :=
    imm32_pointerBytes fun j => (hcode (j.natAdd 1).castSucc).trans (hptr j)
  rw [decode_of_A1 ((hcode 0).trans h0), hdisp]

/-- The bytes of the memory with the leaf for the read applied. -/
theorem rewritten_write (source : BitVec 32) (mem : ℕ → Byte) (pTarget : ℕ) :
    Rewritten source mem pTarget
      (shift pTarget ((frameTimeReadLeaf source mem pTarget).site.write mem)) :=
  fun i => store_add mem pTarget (instr_buf source mem pTarget) i

/-- Behind the six bytes nothing is written. -/
theorem write_behind {k : ℕ} (hk : 6 ≤ k) :
    (frameTimeReadLeaf source mem pTarget).site.write mem (pTarget + k) = mem (pTarget + k) :=
  store_of_not_covers fun hc => absurd hc.2 (Nat.not_lt.2 (Nat.add_le_add_left hk pTarget))

/-- With the opcode `A1` the sixth byte is written as it was. -/
theorem write_behind_of_A1 (h : mem pTarget = 0xA1) {k : ℕ} (hk : 5 ≤ k) :
    (frameTimeReadLeaf source mem pTarget).site.write mem (pTarget + k) = mem (pTarget + k) := by
  rcases Nat.eq_or_lt_of_le hk with rfl | hk
  · exact (rewritten_write source mem pTarget 5).trans (instr_buf_of_A1 source h).2.2
  · exact write_behind hk

/-! ## Which reads stay intact -/

/-- The instruction at `pTarget` is a `mov`, the one in `mem'` has its length, five bytes
for `A1` and six for `8B`, and the bytes behind it are the same. -/
def Intact (mem mem' : ℕ → Byte) (pTarget : ℕ) : Prop :=
  ∃ d src j n, decode (shift pTarget mem) = some (.mov d src, n) ∧
    decode (shift pTarget mem') = some (j, n) ∧
    (n = if mem pTarget = 0xA1 then 5 else 6) ∧
    ∀ k, n ≤ k → mem' (pTarget + k) = mem (pTarget + k)

theorem intact_of_A1 (h : mem pTarget = 0xA1) :
    Intact mem ((frameTimeReadLeaf source mem pTarget).site.write mem) pTarget := by
  have hnew := decode_rewritten_of_A1 (rewritten_write source mem pTarget) h
  exact ⟨_, _, _, 5, decode_of_A1 h, hnew, (if_pos h).symm, fun k hk => write_behind_of_A1 h hk⟩

/-- A read with the opcode `8B` stays intact exactly when it has a disp32 and no SIB byte. -/
theorem intact_iff_of_8B (h : mem pTarget = 0x8B) :
    Intact mem ((frameTimeReadLeaf source mem pTarget).site.write mem) pTarget ↔
      Disp32Source (mem (pTarget + 1)) := by
  have hold : decode (shift pTarget mem) = _ := decode_of_8B h
  have hnew := decode_rewritten_of_8B (rewritten_write source mem pTarget) h
  have hlen := decodeOperand_length_iff (shift 1 (shift pTarget mem))
  constructor
  · rintro ⟨d, src, j, n, hd, hd', -, -⟩
    rw [hold, Option.some_inj, Prod.mk.injEq] at hd
    rw [hnew, Option.some_inj, Prod.mk.injEq] at hd'
    exact hlen.1 (by omega)
  · intro hsrc
    rw [hlen.2 hsrc] at hold
    have hne : mem pTarget ≠ 0xA1 := by
      rw [h]
      decide
    exact ⟨_, _, _, 6, hold, hnew, (if_neg hne).symm, fun k hk => write_behind hk⟩

/-- An accepted read stays intact exactly when its opcode is not `8B`, or it has a disp32 and no
SIB byte. -/
theorem accepted_intact_iff (source : BitVec 32) (mem : ℕ → Byte) (pTarget : ℕ) :
    (∀ o, frameTimeReadPatch source mem pTarget = .ok o →
        Intact mem (o.site.write mem) pTarget) ↔
      (mem pTarget = 0x8B → Disp32Source (mem (pTarget + 1))) := by
  by_cases hknown : KnownMov mem pTarget
  · rw [frameTimeReadPatch_of_known hknown]
    simp only [Except.ok.injEq, forall_eq']
    rcases hknown with h | h
    · rw [intact_iff_of_8B h]
      exact ⟨fun hsrc _ => hsrc, fun hsrc => hsrc h⟩
    · refine iff_of_true (intact_of_A1 h) fun h8 => ?_
      rw [h] at h8
      exact absurd h8 (by decide)
  · rw [frameTimeReadPatch_of_not_known hknown]
    exact iff_of_true (fun o ho => nomatch ho) fun h8 => (hknown (Or.inl h8)).elim

/-- `mov eax, [esi+10h]` of three bytes is accepted, and the three bytes behind it are lost. -/
theorem not_intact_disp8 :
    ¬∀ o, frameTimeReadPatch 0x1000 (fun x => ([0x8B, 0x46, 0x10] : List Byte).getD x 0x90) 0 =
        .ok o → Intact (fun x => ([0x8B, 0x46, 0x10] : List Byte).getD x 0x90)
      (o.site.write fun x => ([0x8B, 0x46, 0x10] : List Byte).getD x 0x90) 0 := by
  intro h
  obtain ⟨d, src, j, n, hd, hd', -⟩ := h _ (frameTimeReadPatch_of_known (Or.inl rfl))
  rw [decode_of_8B rfl, Option.some_inj, Prod.mk.injEq] at hd
  rw [decode_rewritten_of_8B (rewritten_write _ _ _) rfl, Option.some_inj, Prod.mk.injEq] at hd'
  have hlen : n = 3 := hd.2.symm
  omega

/-- The read that is written for a `mov` from memory with the opcode `A1`, or `8B` and six
bytes long. It decodes to a `mov` of that length to the same register, from the address
of the fake globals pointer, which runs without a look at the original base register. -/
theorem frameTimeRead_rewritten (b : Build) (g : FakeGlobals) {mem : ℕ → Byte} {pTarget : ℕ}
    {d : Reg} {m : MemOperand} {n : ℕ}
    (h : decode (shift pTarget mem) = some (.mov d (.mem m), n))
    (hsite : mem pTarget = 0xA1 ∨ (mem pTarget = 0x8B ∧ n = 6)) :
    frameTimeReadPatch (g.source b) mem pTarget =
        .ok (frameTimeReadLeaf (g.source b) mem pTarget) ∧
      (∀ code, Rewritten (g.source b) mem pTarget code →
        decode code = some (.mov d (.mem (.absolute (g.source b))), n) ∧
          ∀ s : Cpu, s.code = code →
            s.step = some { s with regs := Function.update s.regs d (read32 s.mem (g.source b)),
                                   eip := s.eip + BitVec.ofNat 32 n }) ∧
      ∀ k, n ≤ k → (frameTimeReadLeaf (g.source b) mem pTarget).site.write mem (pTarget + k) =
        mem (pTarget + k) := by
  have hknown : KnownMov mem pTarget := by
    rcases hsite with h1 | ⟨h8, -⟩
    · exact Or.inr h1
    · exact Or.inl h8
  have hdecode : ∀ code, Rewritten (g.source b) mem pTarget code →
      decode code = some (.mov d (.mem (.absolute (g.source b))), n) := by
    intro code hcode
    rcases hsite with h1 | ⟨h8, rfl⟩
    · rw [decode_of_A1 (show shift pTarget mem 0 = 0xA1 from h1)] at h
      rw [decode_rewritten_of_A1 hcode h1]
      simp only [Option.some_inj, Prod.mk.injEq, Instr.mov.injEq] at h ⊢
      exact ⟨⟨h.1.1, trivial⟩, h.2⟩
    · rw [decode_of_8B (show shift pTarget mem 0 = 0x8B from h8)] at h
      rw [decode_rewritten_of_8B hcode h8]
      simp only [Option.some_inj, Prod.mk.injEq, Instr.mov.injEq] at h ⊢
      exact ⟨⟨h.1.1, trivial⟩, trivial⟩
  refine ⟨frameTimeReadPatch_of_known hknown, fun code hcode => ⟨hdecode code hcode, ?_⟩, ?_⟩
  · rintro s rfl
    rw [step_of_decode (hdecode _ hcode), exec_mov_absolute]
  · intro k hk
    rcases hsite with h1 | ⟨-, rfl⟩
    · rw [decode_of_A1 (show shift pTarget mem 0 = 0xA1 from h1)] at h
      simp only [Option.some_inj, Prod.mk.injEq] at h
      exact write_behind_of_A1 h1 (h.2 ▸ hk)
    · exact write_behind hk

/-- `mov ecx, [ebx+1234h]` in the `L4D2` build on Linux. -/
theorem frameTimeRead_rewritten_ebx :
    decode (shift 0 ((frameTimeReadLeaf 0x1000
        (fun x => ([0x8B, 0x8B, 0x34, 0x12, 0, 0] : List Byte).getD x 0x90) 0).site.write
          fun x => ([0x8B, 0x8B, 0x34, 0x12, 0, 0] : List Byte).getD x 0x90)) =
      some (.mov .ecx (.mem (.absolute 0x1000)), 6) :=
  ((frameTimeRead_rewritten ⟨.linux, .l4d2⟩ ⟨0x1000, 0x2000⟩ (m := ⟨some .ebx, none, 0x1234⟩)
    (by decide) (Or.inr ⟨rfl, rfl⟩)).2.1 _ (rewritten_write _ _ _)).1

end TickrateEnabler
