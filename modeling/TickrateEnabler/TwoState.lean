import TickrateEnabler.BinPatch
import Mathlib.Data.Fin.VecNotation

/-!
# Patch cycles

The two classes do the same under any calls and writes by other code
(`basic_static_same_world`).

`TwoState` is what a patch is for : `patch` takes it from unpatched to patched and
writes the replacement, `unpatch` takes it back and writes the captured bytes, and a
call in the other state changes no byte.

`BasicBinPatch` and `BasicStaticBinPatch` never clear `bPatched`. Once an `unpatch`
has ended a cycle, a further `patch` writes nothing and a further `unpatch` writes the
saved bytes again. `follows_twoState_iff` : with other code writing in between, the
classes show the memory of the machine throughout exactly when every call after a
cycle finds its bytes already in place (`CallFits`). A run without such calls is one
(`callsFit_of_oneCycle`).
-/

namespace TickrateEnabler

open Memory Transition

/-- A call on a patch, or a write by other code. -/
inductive Call where
  | patch
  | unpatch
  | write (dest : ℕ) (b : Byte)
  deriving DecidableEq

/-- A write by other code, not part of the trace. -/
def World.foreign (w : World) (dest : ℕ) (b : Byte) : World :=
  { w with mem := Function.update w.mem dest b }

variable {n : ℕ}

/-- A call on a `BasicStaticBinPatch`. -/
def BasicStaticBinPatch.step (s : BasicStaticBinPatch n × World) :
    Call → BasicStaticBinPatch n × World
  | .patch => s.1.patch s.2
  | .unpatch => s.1.unpatch s.2
  | .write dest b => (s.1, s.2.foreign dest b)

/-- A call on a `BasicBinPatch`. -/
def BasicBinPatch.step (s : BasicBinPatch n × World) : Call → BasicBinPatch n × World
  | .patch => s.1.patch s.2
  | .unpatch => s.1.unpatch s.2
  | .write dest b => (s.1, s.2.foreign dest b)

/-- The calls on a buffer are the calls on its two halves. -/
theorem BasicBinPatch.toStatic_step (s : BasicBinPatch n × World) (c : Call) :
    Prod.map toStatic id (BasicBinPatch.step s c) =
      BasicStaticBinPatch.step (Prod.map toStatic id s) c := by
  cases c with
  | patch => exact Prod.ext (toStatic_patch s.1 s.2).1 (toStatic_patch s.1 s.2).2
  | unpatch => exact Prod.ext (toStatic_unpatch s.1 s.2).1 (toStatic_unpatch s.1 s.2).2
  | write dest b => rfl

theorem BasicBinPatch.toStatic_run (cs : List Call) (s : BasicBinPatch n × World) :
    Prod.map toStatic id (run BasicBinPatch.step s cs) =
      run BasicStaticBinPatch.step (Prod.map toStatic id s) cs := by
  induction cs generalizing s with
  | nil => rfl
  | cons c cs ih => rw [run_cons, ih, toStatic_step, run_cons]

/-! ## The two classes side by side -/

/-- The same patch, up to saved bytes that no call reads before `patch` has set them. -/
def SameBytes (p q : BasicStaticBinPatch n) : Prop :=
  p = q ∨ p = { q with original := p.original } ∧ q.bPatchTimeCopy = true ∧ q.bPatched = false

theorem sameBytes_new (mem : ℕ → Byte) (target : ℕ) (replacement uninit uninit' : Fin n → Byte)
    (patchTimeCopy : Bool) :
    SameBytes (.new mem target replacement uninit patchTimeCopy)
      (.new mem target replacement uninit' patchTimeCopy) := by
  cases patchTimeCopy with
  | false => exact Or.inl rfl
  | true => exact Or.inr ⟨rfl, rfl, rfl⟩

/-- A call does the same to both, whatever bytes they have not set yet. -/
theorem SameBytes.step {p q : BasicStaticBinPatch n} (h : SameBytes p q) (w : World) (c : Call) :
    SameBytes (BasicStaticBinPatch.step (p, w) c).1 (BasicStaticBinPatch.step (q, w) c).1 ∧
      (BasicStaticBinPatch.step (p, w) c).2 = (BasicStaticBinPatch.step (q, w) c).2 := by
  rcases h with rfl | ⟨hp, hcopy, hq⟩
  · exact ⟨Or.inl rfl, rfl⟩
  have hpatched : p.bPatched = false := hp ▸ hq
  cases c with
  | patch =>
    have hpatch : p.patch w = q.patch w := by
      rw [hp]
      simp only [BasicStaticBinPatch.patch, hq, hcopy, if_true, Bool.false_eq_true, if_false]
    exact ⟨Or.inl (congrArg Prod.fst hpatch), congrArg Prod.snd hpatch⟩
  | unpatch =>
    show SameBytes (p.unpatch w).1 (q.unpatch w).1 ∧ (p.unpatch w).2 = (q.unpatch w).2
    rw [BasicStaticBinPatch.unpatch_of_unpatched hpatched,
      BasicStaticBinPatch.unpatch_of_unpatched hq]
    exact ⟨Or.inr ⟨hp, hcopy, hq⟩, rfl⟩
  | write dest b => exact ⟨Or.inr ⟨hp, hcopy, hq⟩, rfl⟩

theorem SameBytes.run {p q : BasicStaticBinPatch n} (h : SameBytes p q) (w : World)
    (cs : List Call) :
    (run BasicStaticBinPatch.step (p, w) cs).2 = (run BasicStaticBinPatch.step (q, w) cs).2 := by
  induction cs generalizing p q w with
  | nil => rfl
  | cons c cs ih =>
    obtain ⟨hstep, hworld⟩ := h.step w c
    have hrun := ih hstep (BasicStaticBinPatch.step (p, w) c).2
    rw [run_cons, run_cons]
    rw [Prod.mk.eta, hworld, Prod.mk.eta] at hrun
    exact hrun

/-- Started on the same memory, the two classes show the same memory and have made the same
protection requests and writes after any calls, whatever their arrays held before. -/
theorem basic_static_same_world (target : ℕ) (replacement : Fin n → Byte) (patchTimeCopy : Bool)
    (w : World) (uninit : Fin (n + n) → Byte) (uninit' : Fin n → Byte) (calls : List Call) :
    (run BasicBinPatch.step (.new w.mem target replacement uninit patchTimeCopy, w) calls).2 =
      (run BasicStaticBinPatch.step
        (.new w.mem target replacement uninit' patchTimeCopy, w) calls).2 := by
  have h := congrArg Prod.snd (BasicBinPatch.toStatic_run calls
    (.new w.mem target replacement uninit patchTimeCopy, w))
  simp only [Prod.map_snd, Prod.map_apply, id, BasicBinPatch.toStatic_new] at h
  exact h.trans ((sameBytes_new w.mem target replacement _ uninit' patchTimeCopy).run w calls)

/-! ## The two-state machine -/

/-- The memory, whether the patch is in place, and the bytes it captured. -/
structure TwoState (n : ℕ) where
  mem : ℕ → Byte
  patched : Bool
  captured : Fin n → Byte

namespace TwoState

variable (target : ℕ) (replacement : Fin n → Byte) (patchTimeCopy : Bool)

/-- Unpatched, with the target's bytes captured. -/
def start (mem : ℕ → Byte) : TwoState n where
  mem := mem
  patched := false
  captured := load mem target n

/-- One call. -/
def step (t : TwoState n) : Call → TwoState n
  | .patch =>
    if t.patched then t
    else
      { mem := store t.mem target replacement
        patched := true
        captured := if patchTimeCopy then load t.mem target n else t.captured }
  | .unpatch =>
    if t.patched then { t with mem := store t.mem target t.captured, patched := false } else t
  | .write dest b => { t with mem := Function.update t.mem dest b }

variable {target replacement patchTimeCopy} {t : TwoState n}

theorem step_patch_of_patched (h : t.patched = true) :
    t.step target replacement patchTimeCopy .patch = t :=
  if_pos h

theorem step_patch_of_unpatched (h : t.patched = false) :
    t.step target replacement patchTimeCopy .patch =
      ⟨store t.mem target replacement, true,
        if patchTimeCopy then load t.mem target n else t.captured⟩ := by
  simp [step, h]

theorem step_unpatch_of_patched (h : t.patched = true) :
    t.step target replacement patchTimeCopy .unpatch =
      ⟨store t.mem target t.captured, false, t.captured⟩ := by
  simp [step, h]

theorem step_unpatch_of_unpatched (h : t.patched = false) :
    t.step target replacement patchTimeCopy .unpatch = t := by
  simp [step, h]

end TwoState

/-! ## Calls after a cycle -/

/-- The calls on a patch so far. -/
inductive History where
  /-- No `patch`. -/
  | fresh
  /-- A `patch`, and no `unpatch` since. -/
  | applied
  /-- An `unpatch` ended a cycle, and no `patch` since. -/
  | cycled
  /-- A `patch` after a cycle, and no `unpatch` since. -/
  | reapplied
  deriving DecidableEq

/-- The calls so far, with one more. -/
def History.next : History → Call → History
  | .fresh, .patch => .applied
  | .applied, .unpatch => .cycled
  | .cycled, .patch => .reapplied
  | .reapplied, .unpatch => .cycled
  | h, _ => h

/-- A patch with the calls on it so far. -/
structure Watched (n : ℕ) where
  history : History
  patch : BasicStaticBinPatch n
  world : World

namespace Watched

/-- One call. -/
def step (s : Watched n) (c : Call) : Watched n where
  history := s.history.next c
  patch := (BasicStaticBinPatch.step (s.patch, s.world) c).1
  world := (BasicStaticBinPatch.step (s.patch, s.world) c).2

theorem run_step (cs : List Call) (s : Watched n) :
    ((run step s cs).patch, (run step s cs).world) =
      run BasicStaticBinPatch.step (s.patch, s.world) cs := by
  induction cs generalizing s with
  | nil => rfl
  | cons c cs ih => rw [run_cons, ih, run_cons, step]

end Watched

/-- A call after a cycle finds its bytes in place. After a cycle `patch` finds the
replacement in the target and `unpatch` the saved bytes; with `patchTimeCopy` an
`unpatch` after such a `patch` also needs the saved bytes to be the replacement, which
is what that `patch` would have captured. -/
def CallFits (s : Watched n) (c : Call) : Prop :=
  match s.history, c with
  | .cycled, .patch => load s.world.mem s.patch.pTarget n = s.patch.replacement
  | .cycled, .unpatch => load s.world.mem s.patch.pTarget n = s.patch.original
  | .reapplied, .unpatch => s.patch.bPatchTimeCopy = true → s.patch.original = s.patch.replacement
  | _, _ => True

section

variable (target : ℕ) (replacement : Fin n → Byte) (patchTimeCopy : Bool) (M : ℕ → Byte)

/-- A fresh `BasicStaticBinPatch` on the memory `M`. -/
def Watched.start (uninit : Fin n → Byte) : Watched n where
  history := .fresh
  patch := .new M target replacement uninit patchTimeCopy
  world := ⟨M, []⟩

/-- Every call of the run meets `CallFits`. -/
def CallsFit (uninit : Fin n → Byte) (calls : List Call) : Prop :=
  Along Watched.step CallFits (Watched.start target replacement patchTimeCopy M uninit) calls

/-- A `BasicStaticBinPatch` shows the memory of the machine after every call. -/
def BasicStaticBinPatch.Follows (uninit : Fin n → Byte) (calls : List Call) : Prop :=
  ∀ pre, pre <+: calls →
    (run BasicStaticBinPatch.step
        (.new M target replacement uninit patchTimeCopy, ⟨M, []⟩) pre).2.mem =
      (run (TwoState.step target replacement patchTimeCopy) (.start target M) pre).mem

/-- A `BasicBinPatch` shows the memory of the machine after every call. -/
def BasicBinPatch.Follows (uninit : Fin (n + n) → Byte) (calls : List Call) : Prop :=
  ∀ pre, pre <+: calls →
    (run BasicBinPatch.step (.new M target replacement uninit patchTimeCopy, ⟨M, []⟩) pre).2.mem =
      (run (TwoState.step target replacement patchTimeCopy) (.start target M) pre).mem

end

/-- Flag, saved bytes and state, as the calls so far make them. -/
def Stage (p : BasicStaticBinPatch n) (t : TwoState n) : History → Prop
  | .fresh => p.bPatched = false ∧ t.patched = false ∧
      (p.bPatchTimeCopy = false → t.captured = p.original)
  | .applied => p.bPatched = true ∧ t.patched = true ∧ t.captured = p.original
  | .cycled => p.bPatched = true ∧ t.patched = false ∧ t.captured = p.original
  | .reapplied => p.bPatched = true ∧ t.patched = true ∧
      t.captured = if p.bPatchTimeCopy then p.replacement else p.original

/-- A patch and the machine agree. -/
structure Tracks (target : ℕ) (replacement : Fin n → Byte) (patchTimeCopy : Bool)
    (s : Watched n) (t : TwoState n) : Prop where
  mem : s.world.mem = t.mem
  pTarget : s.patch.pTarget = target
  bytes : s.patch.replacement = replacement
  copy : s.patch.bPatchTimeCopy = patchTimeCopy
  stage : Stage s.patch t s.history

section

variable {target : ℕ} {replacement : Fin n → Byte} {patchTimeCopy : Bool} {s : Watched n}
  {t : TwoState n}

theorem tracks_start (M : ℕ → Byte) (uninit : Fin n → Byte) :
    Tracks target replacement patchTimeCopy
      (.start target replacement patchTimeCopy M uninit) (.start target M) := by
  refine ⟨rfl, rfl, rfl, rfl, rfl, rfl, fun h => ?_⟩
  simp only [Watched.start, BasicStaticBinPatch.new] at h ⊢
  rw [h]
  rfl

/-- After one more call the memories agree exactly when the call fits. -/
theorem Tracks.mem_step_iff (h : Tracks target replacement patchTimeCopy s t) (c : Call) :
    (s.step c).world.mem = (t.step target replacement patchTimeCopy c).mem ↔ CallFits s c := by
  obtain ⟨hist, p, w⟩ := s
  obtain ⟨hm, rfl, rfl, rfl, hst⟩ := h
  simp only at hm hst
  cases c with
  | write dest b =>
    have hfit : CallFits ⟨hist, p, w⟩ (.write dest b) := by cases hist <;> trivial
    exact iff_of_true (congrArg (fun m : ℕ → Byte => Function.update m dest b) hm) hfit
  | patch =>
    show (p.patch w).2.mem = _ ↔ _
    cases hist with
    | fresh =>
      obtain ⟨hp, ht, -⟩ := hst
      rw [TwoState.step_patch_of_unpatched ht, BasicStaticBinPatch.patch_mem hp]
      exact iff_of_true (congrArg (store · _ _) hm) trivial
    | applied =>
      obtain ⟨hp, ht, -⟩ := hst
      rw [TwoState.step_patch_of_patched ht, BasicStaticBinPatch.patch_of_patched hp]
      exact iff_of_true hm trivial
    | cycled =>
      obtain ⟨hp, ht, -⟩ := hst
      rw [TwoState.step_patch_of_unpatched ht, BasicStaticBinPatch.patch_of_patched hp, ← hm]
      exact eq_comm.trans store_eq_self_iff
    | reapplied =>
      obtain ⟨hp, ht, -⟩ := hst
      rw [TwoState.step_patch_of_patched ht, BasicStaticBinPatch.patch_of_patched hp]
      exact iff_of_true hm trivial
  | unpatch =>
    show (p.unpatch w).2.mem = _ ↔ _
    cases hist with
    | fresh =>
      obtain ⟨hp, ht, -⟩ := hst
      rw [TwoState.step_unpatch_of_unpatched ht, BasicStaticBinPatch.unpatch_of_unpatched hp]
      exact iff_of_true hm trivial
    | applied =>
      obtain ⟨hp, ht, hc⟩ := hst
      rw [TwoState.step_unpatch_of_patched ht, BasicStaticBinPatch.unpatch_of_patched hp, hc, ← hm]
      exact iff_of_true rfl trivial
    | cycled =>
      obtain ⟨hp, ht, -⟩ := hst
      rw [TwoState.step_unpatch_of_unpatched ht, BasicStaticBinPatch.unpatch_of_patched hp, ← hm]
      exact store_eq_self_iff
    | reapplied =>
      obtain ⟨hp, ht, hc⟩ := hst
      rw [TwoState.step_unpatch_of_patched ht, BasicStaticBinPatch.unpatch_of_patched hp, hc, ← hm]
      refine store_inj.trans ?_
      cases hcopy : p.bPatchTimeCopy <;> simp [CallFits, hcopy]

/-- What a `Patch` that fits does to the stage. -/
theorem Stage.patch {p : BasicStaticBinPatch n} {w : World} {history : History}
    (hst : Stage p t history) (hm : w.mem = t.mem) (hc : CallFits ⟨history, p, w⟩ .patch) :
    Stage (p.patch w).1 (t.step p.pTarget p.replacement p.bPatchTimeCopy .patch)
      (history.next .patch) := by
  cases history with
  | fresh =>
    obtain ⟨hp, ht, hcap⟩ := hst
    rw [TwoState.step_patch_of_unpatched ht, BasicStaticBinPatch.patch_fst hp]
    refine ⟨rfl, rfl, ?_⟩
    unfold BasicStaticBinPatch.captured
    rw [hm]
    exact ite_congr rfl (fun _ => rfl) fun hcopy => hcap (by simpa using hcopy)
  | applied =>
    obtain ⟨hp, ht, hcap⟩ := hst
    rw [TwoState.step_patch_of_patched ht, BasicStaticBinPatch.patch_of_patched hp]
    exact ⟨hp, ht, hcap⟩
  | cycled =>
    obtain ⟨hp, ht, hcap⟩ := hst
    rw [TwoState.step_patch_of_unpatched ht, BasicStaticBinPatch.patch_of_patched hp]
    refine ⟨hp, rfl, ?_⟩
    have hload : load t.mem p.pTarget n = p.replacement := hm ▸ hc
    rw [hload, hcap]
  | reapplied =>
    obtain ⟨hp, ht, hcap⟩ := hst
    rw [TwoState.step_patch_of_patched ht, BasicStaticBinPatch.patch_of_patched hp]
    exact ⟨hp, ht, hcap⟩

/-- What an `Unpatch` that fits does to the stage. -/
theorem Stage.unpatch {p : BasicStaticBinPatch n} {w : World} {history : History}
    (hst : Stage p t history) (hc : CallFits ⟨history, p, w⟩ .unpatch) :
    Stage p (t.step p.pTarget p.replacement p.bPatchTimeCopy .unpatch)
      (history.next .unpatch) := by
  cases history with
  | fresh =>
    obtain ⟨hp, ht, hcap⟩ := hst
    rw [TwoState.step_unpatch_of_unpatched ht]
    exact ⟨hp, ht, hcap⟩
  | applied =>
    obtain ⟨hp, ht, hcap⟩ := hst
    rw [TwoState.step_unpatch_of_patched ht]
    exact ⟨hp, rfl, hcap⟩
  | cycled =>
    obtain ⟨hp, ht, hcap⟩ := hst
    rw [TwoState.step_unpatch_of_unpatched ht]
    exact ⟨hp, ht, hcap⟩
  | reapplied =>
    obtain ⟨hp, ht, hcap⟩ := hst
    rw [TwoState.step_unpatch_of_patched ht]
    refine ⟨hp, rfl, hcap.trans ?_⟩
    split_ifs with hcopy
    · exact (hc hcopy).symm
    · rfl

/-- A call that fits keeps the patch and the machine in agreement. -/
theorem Tracks.step (h : Tracks target replacement patchTimeCopy s t) {c : Call}
    (hc : CallFits s c) :
    Tracks target replacement patchTimeCopy (s.step c)
      (t.step target replacement patchTimeCopy c) := by
  have hmem := (h.mem_step_iff c).2 hc
  obtain ⟨hist, p, w⟩ := s
  obtain ⟨hm, rfl, rfl, rfl, hst⟩ := h
  cases c with
  | write dest b => exact ⟨hmem, rfl, rfl, rfl, by cases hist <;> exact hst⟩
  | patch =>
    exact ⟨hmem, p.patch_pTarget w, p.patch_replacement w, p.patch_bPatchTimeCopy w,
      hst.patch hm hc⟩
  | unpatch =>
    have hfst := p.unpatch_fst w
    refine ⟨hmem, congrArg (·.pTarget) hfst, congrArg (·.replacement) hfst,
      congrArg (·.bPatchTimeCopy) hfst, ?_⟩
    show Stage (p.unpatch w).1 _ _
    rw [hfst]
    exact hst.unpatch hc

end

section

variable (target : ℕ) (replacement : Fin n → Byte) (patchTimeCopy : Bool) (M : ℕ → Byte)

theorem staticFollows_iff (uninit : Fin n → Byte) (calls : List Call) :
    BasicStaticBinPatch.Follows target replacement patchTimeCopy M uninit calls ↔
      CallsFit target replacement patchTimeCopy M uninit calls := by
  have hlock := lockstep_iff (Tracks target replacement patchTimeCopy)
    (fun s t => s.world.mem = t.mem) (fun _ _ h => h.mem) (fun _ _ c h => h.mem_step_iff c)
    (fun _ _ _ h hc => h.step hc) calls (tracks_start M uninit)
  refine Iff.trans (forall₂_congr fun pre _ => ?_) hlock
  have hrun : (run BasicStaticBinPatch.step
      (.new M target replacement uninit patchTimeCopy, ⟨M, []⟩) pre).2 =
        (run Watched.step (.start target replacement patchTimeCopy M uninit) pre).world :=
    (congrArg Prod.snd (Watched.run_step pre
      (.start target replacement patchTimeCopy M uninit))).symm
  rw [hrun]

theorem basicFollows_iff_static (uninit : Fin (n + n) → Byte) (calls : List Call) :
    BasicBinPatch.Follows target replacement patchTimeCopy M uninit calls ↔
      BasicStaticBinPatch.Follows target replacement patchTimeCopy M
        (slice uninit 0 n (Nat.add_le_add_right (Nat.zero_le n) n)) calls := by
  refine forall₂_congr fun pre _ => ?_
  have h := congrArg Prod.snd (BasicBinPatch.toStatic_run pre
    (.new M target replacement uninit patchTimeCopy, ⟨M, []⟩))
  simp only [Prod.map_snd, Prod.map_apply, id, BasicBinPatch.toStatic_new] at h
  rw [h]

/-- With other code writing in between, both classes show the memory of the two-state
machine after every call exactly when every call after a cycle finds its bytes in
place. -/
theorem follows_twoState_iff (uninit : Fin n → Byte) (uninit' : Fin (n + n) → Byte)
    (calls : List Call) :
    (BasicStaticBinPatch.Follows target replacement patchTimeCopy M uninit calls ↔
        CallsFit target replacement patchTimeCopy M uninit calls) ∧
      (BasicBinPatch.Follows target replacement patchTimeCopy M uninit' calls ↔
        CallsFit target replacement patchTimeCopy M
          (slice uninit' 0 n (Nat.add_le_add_right (Nat.zero_le n) n)) calls) :=
  ⟨staticFollows_iff target replacement patchTimeCopy M uninit calls,
    (basicFollows_iff_static target replacement patchTimeCopy M uninit' calls).trans
      (staticFollows_iff target replacement patchTimeCopy M _ calls)⟩

end

/-- A second `patch` does not re-install the replacement, and a second `unpatch`
overwrites what other code wrote since the first. -/
theorem not_follows_second_cycle :
    ¬BasicStaticBinPatch.Follows 0 ![0x90] false (fun _ => 0x55) ![0]
        [.patch, .unpatch, .patch] ∧
      ¬BasicBinPatch.Follows 0 ![0x90] false (fun _ => 0x55) ![0, 0]
        [.patch, .unpatch, .patch] ∧
      ¬BasicStaticBinPatch.Follows 0 ![0x90] true (fun _ => 0x55) ![0]
        [.patch, .unpatch, .write 0 0xCC, .unpatch] ∧
      ¬BasicBinPatch.Follows 0 ![0x90] true (fun _ => 0x55) ![0, 0]
        [.patch, .unpatch, .write 0 0xCC, .unpatch] := by
  refine ⟨fun h => ?_, fun h => ?_, fun h => ?_, fun h => ?_⟩ <;>
    exact absurd (congrFun (h _ List.prefix_rfl) 0) (by decide)

/-! ## Runs of one cycle -/

/-- No `patch` or `unpatch` comes after a `patch` followed by an `unpatch`. -/
def OneCycle (calls : List Call) : Prop :=
  ∀ c, c = .patch ∨ c = .unpatch → ¬List.Sublist [.patch, .unpatch, c] calls

/-- What `c` still waits for to come after a cycle. -/
def History.upTo (c : Call) : History → List Call
  | .fresh => [.patch, .unpatch, c]
  | .applied => [.unpatch, c]
  | _ => [c]

theorem along_callFits_of_oneCycle (calls : List Call) (s : Watched n)
    (hs : s.history ≠ .reapplied)
    (h : ∀ c, c = .patch ∨ c = .unpatch → ¬List.Sublist (s.history.upTo c) calls) :
    Along Watched.step CallFits s calls := by
  induction calls generalizing s with
  | nil => trivial
  | cons d calls ih =>
    obtain ⟨hist, p, w⟩ := s
    simp only at hs h
    have hskip : ∀ c, c = .patch ∨ c = .unpatch → ¬List.Sublist (hist.upTo c) calls :=
      fun c hc hsub => h c hc (hsub.cons d)
    cases hist with
    | reapplied => exact (hs rfl).elim
    | fresh =>
      refine ⟨by cases d <;> trivial, ih _ (by cases d <;> simp [Watched.step, History.next]) ?_⟩
      cases d with
      | patch =>
        exact fun c hc (hsub : List.Sublist [Call.unpatch, c] calls) =>
          h c hc (hsub.cons_cons Call.patch)
      | unpatch => exact hskip
      | write dest b => exact hskip
    | applied =>
      refine ⟨by cases d <;> trivial, ih _ (by cases d <;> simp [Watched.step, History.next]) ?_⟩
      cases d with
      | patch => exact hskip
      | unpatch =>
        exact fun c hc (hsub : List.Sublist [c] calls) => h c hc (hsub.cons_cons Call.unpatch)
      | write dest b => exact hskip
    | cycled =>
      cases d with
      | patch => exact (h .patch (Or.inl rfl) (by simp [History.upTo])).elim
      | unpatch => exact (h .unpatch (Or.inr rfl) (by simp [History.upTo])).elim
      | write dest b => exact ⟨trivial, ih _ hs hskip⟩

/-- A run of one cycle meets `CallFits` throughout. -/
theorem callsFit_of_oneCycle (target : ℕ) (replacement : Fin n → Byte) (patchTimeCopy : Bool)
    (M : ℕ → Byte) (uninit : Fin n → Byte) {calls : List Call} (h : OneCycle calls) :
    CallsFit target replacement patchTimeCopy M uninit calls :=
  along_callFits_of_oneCycle calls _ (by simp [Watched.start]) h

end TickrateEnabler
