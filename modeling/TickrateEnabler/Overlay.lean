import TickrateEnabler.Memory
import TickrateEnabler.Transition

/-!
# Overlays

Blocks laid over a memory and taken off together. An overlay keeps the cells an `undo`
puts back : those of the original memory `M`, or, when it `copies`, those it finds when
it is laid on. An `undo` puts back the kept cells of all overlays in the order they were
laid on, and forgets none.

At one address only the overlays that cover it matter. `Layer` is what shows there and
what the next `undo` will show, as the cell of an overlay or as nothing for the cell of
`M`; it follows the memory exactly (`run_mem`). Overlays that do not copy have the cell of
`M` under them (`under_of_not_copies`).
-/

namespace Memory

open Transition

variable {β : Type*}

/-- A block to be laid over a memory. -/
structure Overlay (β : Type*) where
  block : Block β
  copies : Bool

/-- The cells of the overlay that an undo puts back. -/
def Overlay.kept (M m : ℕ → β) (o : Overlay β) : Block β :=
  ⟨o.block.addr, o.block.len, load (if o.copies then m else M) o.block.addr o.block.len⟩

/-- A change of the overlays. -/
inductive Edit (β : Type*) where
  | apply (o : Overlay β)
  | undo

/-- A memory with overlays, and the blocks an undo puts back. -/
structure Overlaid (β : Type*) where
  mem : ℕ → β
  saved : List (Block β)

/-- One change of the overlays on `M`. -/
def Overlaid.step (M : ℕ → β) (s : Overlaid β) : Edit β → Overlaid β
  | .apply o => ⟨o.block.write s.mem, s.saved ++ [o.kept M s.mem]⟩
  | .undo => ⟨writeAll s.mem s.saved, s.saved⟩

/-! ## One address -/

/-- The cell that shows at an address and the one the next undo will show, nothing being the
cell of the original memory. -/
structure Layer (β : Type*) where
  now : Option β
  under : Option β
  deriving DecidableEq

/-- One change of the overlays, at the address `x`. -/
def Layer.step (x : ℕ) (l : Layer β) : Edit β → Layer β
  | .apply o =>
    match o.block.cellAt x with
    | none => l
    | some v => ⟨some v, if o.copies then l.now else none⟩
  | .undo => ⟨l.under, l.under⟩

theorem Layer.step_of_none {o : Overlay β} {x : ℕ} (h : o.block.cellAt x = none) (l : Layer β) :
    l.step x (.apply o) = l := by
  rw [step, h]

theorem Layer.step_of_some {o : Overlay β} {x : ℕ} {v : β} (h : o.block.cellAt x = some v)
    (l : Layer β) : l.step x (.apply o) = ⟨some v, if o.copies then l.now else none⟩ := by
  rw [step, h]

/-- What shows at `x` after the changes. -/
def layer (es : List (Edit β)) (x : ℕ) : Layer β :=
  run (Layer.step x) ⟨none, none⟩ es

@[simp] theorem layer_append_singleton (es : List (Edit β)) (e : Edit β) (x : ℕ) :
    layer (es ++ [e]) x = (layer es x).step x e :=
  run_append _ _ _

/-- The layer at `x` is what shows there, and what an undo will show. -/
def Layer.Shows (M : ℕ → β) (x : ℕ) (l : Layer β) (s : Overlaid β) : Prop :=
  s.mem x = l.now.getD (M x) ∧ (lastCell s.saved x).getD (s.mem x) = l.under.getD (M x)

theorem Layer.Shows.step {M : ℕ → β} {x : ℕ} {l : Layer β} {s : Overlaid β}
    (h : l.Shows M x s) (e : Edit β) : (l.step x e).Shows M x (s.step M e) := by
  obtain ⟨hnow, hunder⟩ := h
  cases e with
  | undo =>
    have hmem : (s.step M .undo).mem x = l.under.getD (M x) := (writeAll_apply ..).trans hunder
    refine ⟨hmem, ?_⟩
    rw [hmem]
    show (lastCell s.saved x).getD (l.under.getD (M x)) = l.under.getD (M x)
    rw [← hunder]
    cases lastCell s.saved x <;> rfl
  | apply o =>
    have hkept : (o.kept M s.mem).cellAt x = if Covers o.block.addr o.block.len x then
        some ((if o.copies then s.mem else M) x) else none := cellAt_load ..
    unfold Shows Overlaid.step
    dsimp only
    rw [Block.write_apply, lastCell_append_singleton, hkept]
    cases hc : o.block.cellAt x with
    | none =>
      rw [Layer.step_of_none hc, if_neg (cellAt_eq_none_iff.1 hc)]
      exact ⟨hnow, hunder⟩
    | some v =>
      rw [Layer.step_of_some hc, if_pos (covers_of_cellAt hc)]
      refine ⟨rfl, ?_⟩
      cases o.copies with
      | false => rfl
      | true => exact hnow

/-- The memory is what the layers show. -/
theorem run_mem (M : ℕ → β) (es : List (Edit β)) (x : ℕ) :
    (run (Overlaid.step M) ⟨M, []⟩ es).mem x = (layer es x).now.getD (M x) := by
  have h : (layer es x).Shows M x (run (Overlaid.step M) ⟨M, []⟩ es) := by
    induction es using List.reverseRecOn with
    | nil => exact ⟨rfl, rfl⟩
    | append_singleton es e ih =>
      rw [layer_append_singleton, run_append]
      exact ih.step e
  exact h.1

/-- The overlaid memory is the original one exactly when every cell that shows is the original
one. -/
theorem run_mem_eq_iff (M : ℕ → β) (es : List (Edit β)) :
    (run (Overlaid.step M) ⟨M, []⟩ es).mem = M ↔
      ∀ x v, (layer es x).now = some v → v = M x := by
  rw [funext_iff]
  refine forall_congr' fun x => ?_
  rw [run_mem]
  cases (layer es x).now <;> simp

/-- Overlays that do not copy leave the original cells under them. -/
theorem under_of_not_copies {es : List (Edit β)} (h : ∀ o, .apply o ∈ es → o.copies = false)
    (x : ℕ) : (layer es x).under = none := by
  induction es using List.reverseRecOn with
  | nil => rfl
  | append_singleton es e ih =>
    have hes := ih fun o ho => h o (List.mem_append_left _ ho)
    rw [layer_append_singleton]
    cases e with
    | undo => exact hes
    | apply o =>
      have ho : o.copies = false := h o (by simp)
      cases hc : o.block.cellAt x with
      | none => rw [Layer.step_of_none hc, hes]
      | some v => simp [Layer.step_of_some hc, ho]

end Memory
