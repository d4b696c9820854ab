import TickrateEnabler.Construct
import TickrateEnabler.LibraryInfo

/-!
# The memory utilities of a platform

`SimpleResolve`, and with `FindLibPattern` the lookups of `g_MemUtils`, on an operating
system. The tables of `ResolveSymbol` only grow : a name keeps its address
(`MemoryUtils.resolveSymbol_extends`), so a lookup that found something finds the same
from then on, whether or not the file can be opened again (`persistent_memUtils`).
-/

namespace TickrateEnabler

open FirstWins

/-! ## Tables grow -/

namespace LibSymbolTable

/-- The table is well formed and every address is still in it. -/
structure Grows (libtable libtable' : LibSymbolTable) : Prop where
  wf : libtable'.table.WF
  lookup : Extends libtable.table.lookup libtable'.table.lookup

theorem Grows.refl {libtable : LibSymbolTable} (h : libtable.table.WF) : Grows libtable libtable :=
  ⟨h, .refl _⟩

/-- A scan lets the table grow, and puts what it finds into it. -/
theorem scan_grows (l_addr : BitVec 32) (symbol : Name) (allocated : ℕ → Bool) (i : ℕ)
    (syms : List Elf32Sym) (libtable : LibSymbolTable) (h : libtable.table.WF) :
    Grows libtable (scan l_addr symbol allocated i syms libtable).2 ∧
      ∀ s, (scan l_addr symbol allocated i syms libtable).1 = some s →
        (scan l_addr symbol allocated i syms libtable).2.table.lookup symbol =
          some s.address := by
  induction syms generalizing i libtable with
  | nil => exact ⟨.refl h, by simp [scan]⟩
  | cons sym syms ih =>
    by_cases hs : sym.skipped = true
    · rw [scan, if_pos hs]
      exact ih (i + 1) libtable h
    rw [scan, if_neg hs]
    obtain ⟨hwf, hl, ha⟩ := h.internSymbol sym.name (l_addr + sym.st_value) (allocated i)
    have hext := extends_put libtable.table.lookup sym.name (l_addr + sym.st_value)
    by_cases hhit : symbol = sym.name
    · rw [if_pos hhit]
      refine ⟨⟨hwf, hl.symm ▸ hext⟩, fun s hsome => ?_⟩
      obtain rfl := Option.some.inj hsome
      show SymbolTable.lookup _ symbol = _
      rw [hl, ha, hhit, put_self]
    · rw [if_neg hhit]
      obtain ⟨hgrows, hfound⟩ := ih (i + 1) { libtable with table := _ } hwf
      exact ⟨⟨hgrows.wf, Extends.trans (hl.symm ▸ hext) hgrows.lookup⟩, hfound⟩

variable {symbol : Name} {libtable : LibSymbolTable}

/-- A name in the table is answered from it. -/
theorem resolve_of_lookup {a : BitVec 32} (h : libtable.table.lookup symbol = some a)
    (dlmap : Library) (sys : System) : libtable.resolve dlmap symbol sys = (a, libtable) := by
  rw [SymbolTable.lookup, Option.map_eq_some_iff] at h
  obtain ⟨s, hs, rfl⟩ := h
  rw [resolve, hs]

theorem resolve_grows (h : libtable.table.WF) (dlmap : Library) (sys : System) :
    Grows libtable (libtable.resolve dlmap symbol sys).2 ∧
      ((libtable.resolve dlmap symbol sys).1 ≠ 0 →
        (libtable.resolve dlmap symbol sys).2.table.lookup symbol =
          some (libtable.resolve dlmap symbol sys).1) := by
  cases hl : libtable.table.lookup symbol with
  | some a =>
    rw [resolve_of_lookup hl]
    exact ⟨.refl h, fun _ => hl⟩
  | none =>
    rw [SymbolTable.lookup, Option.map_eq_none_iff] at hl
    rw [resolve, hl]
    dsimp only
    split_ifs
    · exact ⟨.refl h, fun h0 => (h0 rfl).elim⟩
    · split
      · exact ⟨.refl h, fun h0 => (h0 rfl).elim⟩
      · rename_i symtab _
        obtain ⟨hgrows, hfound⟩ := scan_grows dlmap.l_addr symbol sys.allocated
          libtable.last_pos (symtab.drop libtable.last_pos) libtable h
        refine ⟨hgrows, fun h0 => ?_⟩
        rcases hr : (scan dlmap.l_addr symbol sys.allocated libtable.last_pos
          (symtab.drop libtable.last_pos) libtable).1 with - | s
        · exact (h0 (by rw [hr]; rfl)).elim
        · exact hfound s hr

end LibSymbolTable

namespace MemoryUtils

/-- Every table is well formed. -/
def WF (m : MemoryUtils) : Prop :=
  ∀ l_addr, (m.tableOf l_addr).table.WF

/-- Every address in a table of `m` is in that of `m'`. -/
def Extends (m m' : MemoryUtils) : Prop :=
  ∀ l_addr, FirstWins.Extends (m.tableOf l_addr).table.lookup (m'.tableOf l_addr).table.lookup

theorem wf_nil : WF [] :=
  fun _ => SymbolTable.wf_initializeTable

variable {m m' : MemoryUtils}

theorem resolveSymbol_wf (h : m.WF) (dlmap : Library) (symbol : Name) (sys : System) :
    (m.resolveSymbol dlmap symbol sys).2.WF := by
  intro l_addr
  rw [tableOf_resolveSymbol]
  split_ifs
  · exact (LibSymbolTable.resolve_grows (h l_addr) dlmap sys).1.wf
  · exact h l_addr

theorem resolveSymbol_extends (h : m.WF) (dlmap : Library) (symbol : Name) (sys : System) :
    m.Extends (m.resolveSymbol dlmap symbol sys).2 := by
  intro l_addr
  rw [tableOf_resolveSymbol]
  split_ifs
  · exact (LibSymbolTable.resolve_grows (h l_addr) dlmap sys).1.lookup
  · exact .refl _

/-- What was found once is found again, from any later tables and whatever the system
does. -/
theorem resolveSymbol_of_extends (h : m.WF) {dlmap : Library} {symbol : Name} {sys : System}
    (h0 : (m.resolveSymbol dlmap symbol sys).1 ≠ 0)
    (hext : (m.resolveSymbol dlmap symbol sys).2.Extends m') (sys' : System) :
    (m'.resolveSymbol dlmap symbol sys').1 = (m.resolveSymbol dlmap symbol sys).1 := by
  rw [resolveSymbol_fst] at h0
  have hfound := (LibSymbolTable.resolve_grows (h dlmap.l_addr) dlmap sys).2 h0
  have hl := hext dlmap.l_addr symbol
  rw [tableOf_resolveSymbol, if_pos rfl] at hl
  rw [resolveSymbol_fst, resolveSymbol_fst, LibSymbolTable.resolve_of_lookup (hl _ hfound)]

end MemoryUtils

/-! ## The memory utilities -/

/-- `g_MemUtils`, and how often `ResolveSymbol` was called. -/
structure SymTables where
  m_SymTables : MemoryUtils
  calls : ℕ
  wf : m_SymTables.WF

namespace OperatingSystem

/-- The next call of `ResolveSymbol`. -/
def resolveSymbol (os : OperatingSystem) (k : SymTables) (handle : Library) (symbol : Name) :
    ℕ × SymTables :=
  let r := k.m_SymTables.resolveSymbol handle symbol (os.system k.calls)
  (r.1.toNat, ⟨r.2, k.calls + 1, MemoryUtils.resolveSymbol_wf k.wf handle symbol _⟩)

/-- `SimpleResolve`. -/
def simpleResolve (os : OperatingSystem) (p : Platform) (k : SymTables) (pBaseAddr : ℕ)
    (symbol : Name) : ℕ × SymTables :=
  match p with
  | .windows => (0, k)
  | .linux =>
    match os.dladdr pBaseAddr with
    | none => (0, k)
    | some info =>
      match os.dlopen info.dli_fname with
      | none => (0, k)
      | some handle => os.resolveSymbol k handle symbol

/-- The lookups of a platform. -/
def memUtils (os : OperatingSystem) (p : Platform) : MemUtils SymTables :=
  ⟨os.simpleResolve p, os.findLibPattern p⟩

end OperatingSystem

/-- Lookups by symbol that go on finding what they found, along the order `le` of what they
keep. -/
structure MemUtils.Persistent {κ : Type*} (u : MemUtils κ) (le : κ → κ → Prop) : Prop where
  refl : ∀ k, le k k
  trans : ∀ {k k' k''}, le k k' → le k' k'' → le k k''
  grows : ∀ k p symbol, le k (u.simpleResolve k p symbol).2
  again : ∀ {k p symbol k'}, (u.simpleResolve k p symbol).1 ≠ 0 →
    le (u.simpleResolve k p symbol).2 k' →
      (u.simpleResolve k' p symbol).1 = (u.simpleResolve k p symbol).1

/-- The symbol tables are persistent. -/
theorem persistent_memUtils (os : OperatingSystem) (p : Platform) :
    (os.memUtils p).Persistent fun k k' => k.m_SymTables.Extends k'.m_SymTables := by
  refine ⟨fun k l_addr => .refl _, fun h h' l_addr => (h l_addr).trans (h' l_addr),
    fun k a symbol => ?_, fun {k a symbol k'} => ?_⟩
  · show k.m_SymTables.Extends (os.simpleResolve p k a symbol).2.m_SymTables
    unfold OperatingSystem.simpleResolve
    split
    · exact fun l_addr => .refl _
    · split
      · exact fun l_addr => .refl _
      · split
        · exact fun l_addr => .refl _
        · exact MemoryUtils.resolveSymbol_extends k.wf _ _ _
  · show (os.simpleResolve p k a symbol).1 ≠ 0 →
      (os.simpleResolve p k a symbol).2.m_SymTables.Extends k'.m_SymTables →
        (os.simpleResolve p k' a symbol).1 = (os.simpleResolve p k a symbol).1
    unfold OperatingSystem.simpleResolve
    split
    · exact fun _ _ => rfl
    · split
      · exact fun _ _ => rfl
      · split
        · exact fun _ _ => rfl
        · intro h0 hext
          refine congrArg BitVec.toNat (MemoryUtils.resolveSymbol_of_extends k.wf (fun h => h0 ?_)
            hext _)
          exact congrArg BitVec.toNat h

end TickrateEnabler
