import TickrateEnabler.ElfWalk

/-!
# System calls

`SimpleResolve` on Linux with the system calls it makes : `dladdr`, `dlopen`, `open`, `fstat`,
`mmap`, `close`, `munmap`, `dlclose`. A `Kernel` has what is held. A call fails when it releases
what is not held, reads outside of a file, also in the rest of its last page, or divides by an
`sh_entsize` of 0.

Whatever the calls are answered, a call holds nothing more when it returns, and does what the
tables without system calls do (`simpleResolveWith_eq`). So a run fails in the walk through a
file or not at all (`gives_runWith`).
-/

namespace TickrateEnabler

open Checked Transition

/-! ## The kernel -/

/-- How a call fails. -/
inductive Crash where
  | fault (f : Fault)
  /-- A descriptor, mapping or handle was released that is not held. -/
  | notHeld

/-- What the process holds. -/
structure Kernel where
  files : List ℕ
  mappings : List (ℕ × ℕ)
  /-- The handles of `dlopen`, each as often as it was opened. -/
  handles : List ℕ

namespace Kernel

/-- `open`, which gives a descriptor or -1. -/
def openFile (k : Kernel) (dlfile : Option ℕ) : Kernel :=
  { k with files := dlfile.toList ++ k.files }

/-- `close`. On -1 it fails, and does nothing. -/
def close (k : Kernel) (dlfile : Option ℕ) : Except Crash Kernel :=
  match dlfile with
  | none => .ok k
  | some fd => if fd ∈ k.files then .ok { k with files := k.files.erase fd } else .error .notHeld

/-- `mmap`, of `n` bytes at `a`. -/
def mmap (k : Kernel) (a n : ℕ) : Kernel :=
  { k with mappings := (a, n) :: k.mappings }

/-- `munmap`. -/
def munmap (k : Kernel) (a n : ℕ) : Except Crash Kernel :=
  if (a, n) ∈ k.mappings then .ok { k with mappings := k.mappings.erase (a, n) }
  else .error .notHeld

/-- `dlopen`. -/
def dlopen (k : Kernel) (handle : ℕ) : Kernel :=
  { k with handles := handle :: k.handles }

/-- `dlclose`. -/
def dlclose (k : Kernel) (handle : ℕ) : Except Crash Kernel :=
  if handle ∈ k.handles then .ok { k with handles := k.handles.erase handle }
  else .error .notHeld

theorem close_openFile (k : Kernel) (dlfile : Option ℕ) :
    (k.openFile dlfile).close dlfile = .ok k := by
  cases dlfile with
  | none => rfl
  | some fd =>
    show (if fd ∈ fd :: k.files then _ else _) = _
    rw [if_pos List.mem_cons_self]
    simp only [openFile, Option.toList_some, List.singleton_append, List.erase_cons_head]

/-- The mapping stays when the file is closed. -/
theorem close_mmap (k : Kernel) (dlfile : Option ℕ) (a n : ℕ) :
    ((k.openFile dlfile).mmap a n).close dlfile = .ok (k.mmap a n) :=
  (k.mmap a n).close_openFile dlfile

theorem munmap_mmap (k : Kernel) (a n : ℕ) : (k.mmap a n).munmap a n = .ok k := by
  show (if (a, n) ∈ (a, n) :: k.mappings then _ else _) = _
  rw [if_pos List.mem_cons_self]
  simp only [mmap, List.erase_cons_head]

theorem dlclose_dlopen (k : Kernel) (handle : ℕ) :
    (k.dlopen handle).dlclose handle = .ok k := by
  show (if handle ∈ handle :: k.handles then _ else _) = _
  rw [if_pos List.mem_cons_self]
  simp only [dlopen, List.erase_cons_head]

end Kernel

/-! ## `ResolveSymbol` -/

/-- What the system answers for a file : `open`, `fstat` with the file it is about, and `mmap`.
`allocated` is as in `System`. -/
structure FileAnswers where
  dlfile : Option ℕ
  dlstat : Option MappedFile
  map_base : Option ℕ
  allocated : ℕ → Bool

/-- The file, when it is opened and mapped. -/
def FileAnswers.mapped (a : FileAnswers) : Option MappedFile :=
  match a.dlfile, a.dlstat, a.map_base with
  | some _, some f, some _ => some f
  | _, _, _ => none

namespace LibSymbolTable

/-- `ResolveSymbol` once it has the table of the library. -/
def resolveWith (libtable : LibSymbolTable) (l_addr : BitVec 32) (symbol : Name)
    (a : FileAnswers) (k : Kernel) : Except Crash ((BitVec 32 × LibSymbolTable) × Kernel) :=
  match libtable.table.findSymbol symbol symbol.length with
  | some symbol_entry => .ok ((symbol_entry.address, libtable), k)
  | none =>
    let k := k.openFile a.dlfile
    match a.dlfile, a.dlstat with
    | some _, some f =>
      match a.map_base with
      | none => do
        let k ← k.close a.dlfile
        .ok ((0, libtable), k)
      | some map_base => do
        let k ← (k.mmap map_base f.size).close a.dlfile
        let r ← (f.walk l_addr symbol a.allocated libtable).mapError Crash.fault
        let k ← k.munmap map_base f.size
        .ok (r, k)
    | _, _ => do
      let k ← k.close a.dlfile
      .ok ((0, libtable), k)

/-- `ResolveSymbol` without system calls, on the file that is mapped. -/
def resolveFile (libtable : LibSymbolTable) (l_addr : BitVec 32) (symbol : Name)
    (a : FileAnswers) : Except Fault (BitVec 32 × LibSymbolTable) :=
  match a.mapped with
  | some f => libtable.resolveMapped f l_addr symbol a.allocated
  | none => .ok (libtable.resolve ⟨l_addr, none⟩ symbol ⟨false, a.allocated⟩)

/-- Whatever the system answers, what is opened and mapped is closed and unmapped. -/
theorem resolveWith_eq (libtable : LibSymbolTable) (l_addr : BitVec 32) (symbol : Name)
    (a : FileAnswers) (k : Kernel) : libtable.resolveWith l_addr symbol a k =
      ((libtable.resolveFile l_addr symbol a).mapError Crash.fault).map (·, k) := by
  obtain ⟨dlfile, dlstat, map_base, allocated⟩ := a
  unfold resolveWith resolveFile resolveMapped resolve
  cases hf : libtable.table.findSymbol symbol symbol.length with
  | some symbol_entry =>
    dsimp only
    split <;> rfl
  | none =>
    rcases dlfile with - | fd
    · rfl
    rcases dlstat with - | f
    · simp only [k.close_openFile]
      rfl
    rcases map_base with - | map_base
    · simp only [k.close_openFile]
      rfl
    simp only [k.close_mmap, FileAnswers.mapped]
    show ((f.walk l_addr symbol allocated libtable).mapError Crash.fault >>= _) = _
    cases f.walk l_addr symbol allocated libtable with
    | error e => rfl
    | ok r =>
      show ((k.mmap map_base f.size).munmap map_base f.size >>= _) = _
      rw [k.munmap_mmap]
      rfl

/-- The walk through the file, if there is one, reads in the file and divides by no `sh_entsize`
of 0. -/
def FileReadable (libtable : LibSymbolTable) (symbol : Name) (a : FileAnswers) : Prop :=
  ∀ f, a.mapped = some f → libtable.cached symbol = true ∨ f.Readable symbol libtable.last_pos

theorem gives_resolveFile (libtable : LibSymbolTable) (l_addr : BitVec 32) {symbol : Name}
    (hsymbol : 0 ∉ symbol) (a : FileAnswers) :
    Gives (libtable.resolveFile l_addr symbol a) (libtable.FileReadable symbol a)
      (libtable.resolve ⟨l_addr, a.mapped.bind MappedFile.symtab⟩ symbol
        ⟨a.mapped.isSome, a.allocated⟩) := by
  unfold resolveFile FileReadable
  cases hmapped : a.mapped with
  | none => exact (Gives.of_ok _).congr (by simp)
  | some f =>
    simp only [Option.some.injEq, forall_eq', Option.bind_some, Option.isSome_some]
    unfold resolveMapped cached
    cases hf : libtable.table.findSymbol symbol symbol.length with
    | some symbol_entry =>
      simp only [resolve, hf]
      exact (Gives.of_ok _).congr (by simp)
    | none => exact (f.gives_walk l_addr hsymbol a.allocated hf).congr (by simp)

end LibSymbolTable

namespace MemoryUtils

/-- The tables with one for the library put back, or at the end if it is new. -/
def putTable (m : MemoryUtils) (l_addr : BitVec 32) (libtable : LibSymbolTable) : MemoryUtils :=
  match m[m.tableIndex l_addr]? with
  | some _ => m.set (m.tableIndex l_addr) libtable
  | none => m ++ [libtable]

/-- `ResolveSymbol`. -/
def resolveSymbolWith (m : MemoryUtils) (l_addr : BitVec 32) (symbol : Name) (a : FileAnswers)
    (k : Kernel) : Except Crash ((BitVec 32 × MemoryUtils) × Kernel) := do
  let r ← (m.tableOf l_addr).resolveWith l_addr symbol a k
  .ok ((r.1.1, m.putTable l_addr r.1.2), r.2)

/-- `ResolveSymbol` without system calls. -/
def resolveSymbolFile (m : MemoryUtils) (l_addr : BitVec 32) (symbol : Name) (a : FileAnswers) :
    Except Fault (BitVec 32 × MemoryUtils) := do
  let r ← (m.tableOf l_addr).resolveFile l_addr symbol a
  .ok (r.1, m.putTable l_addr r.2)

theorem resolveSymbol_eq_putTable (m : MemoryUtils) (dlmap : Library) (symbol : Name)
    (sys : System) : m.resolveSymbol dlmap symbol sys =
      (((m.tableOf dlmap.l_addr).resolve dlmap symbol sys).1,
        m.putTable dlmap.l_addr ((m.tableOf dlmap.l_addr).resolve dlmap symbol sys).2) := by
  unfold resolveSymbol putTable tableOf
  dsimp only
  cases m[m.tableIndex dlmap.l_addr]? <;> rfl

theorem resolveSymbolWith_eq (m : MemoryUtils) (l_addr : BitVec 32) (symbol : Name)
    (a : FileAnswers) (k : Kernel) : m.resolveSymbolWith l_addr symbol a k =
      ((m.resolveSymbolFile l_addr symbol a).mapError Crash.fault).map (·, k) := by
  unfold resolveSymbolWith resolveSymbolFile
  rw [LibSymbolTable.resolveWith_eq]
  cases (m.tableOf l_addr).resolveFile l_addr symbol a <;> rfl

theorem gives_resolveSymbolFile (m : MemoryUtils) (l_addr : BitVec 32) {symbol : Name}
    (hsymbol : 0 ∉ symbol) (a : FileAnswers) :
    Gives (m.resolveSymbolFile l_addr symbol a) ((m.tableOf l_addr).FileReadable symbol a)
      (m.resolveSymbol ⟨l_addr, a.mapped.bind MappedFile.symtab⟩ symbol
        ⟨a.mapped.isSome, a.allocated⟩) := by
  rw [resolveSymbol_eq_putTable]
  exact ((m.tableOf l_addr).gives_resolveFile l_addr hsymbol a).bind_ok
    fun r => (r.1, m.putTable l_addr r.2)

end MemoryUtils

/-! ## `SimpleResolve` -/

/-- A call of `SimpleResolve`, with what the system answers : whether `dladdr` finds the
library, the handle of `dlopen` with its `l_addr`, and the answers for its file. -/
structure SimpleResolveCall where
  symbol : { str : Name // 0 ∉ str }
  dladdr : Bool
  dlopen : Option (ℕ × BitVec 32)
  file : FileAnswers

namespace SimpleResolveCall

/-- The library, when it is found and opened. -/
def library (c : SimpleResolveCall) : Option (BitVec 32) :=
  if c.dladdr then c.dlopen.map Prod.snd else none

/-- `SimpleResolve`. -/
def simpleResolveWith (m : MemoryUtils) (c : SimpleResolveCall) (k : Kernel) :
    Except Crash ((BitVec 32 × MemoryUtils) × Kernel) :=
  if c.dladdr then
    match c.dlopen with
    | some (handle, l_addr) => do
      let r ← m.resolveSymbolWith l_addr c.symbol.1 c.file (k.dlopen handle)
      let k ← r.2.dlclose handle
      .ok (r.1, k)
    | none => .ok ((0, m), k)
  else .ok ((0, m), k)

/-- `SimpleResolve` without system calls, on the file of the library. -/
def simpleResolveFile (m : MemoryUtils) (c : SimpleResolveCall) :
    Except Fault (BitVec 32 × MemoryUtils) :=
  match c.library with
  | some l_addr => m.resolveSymbolFile l_addr c.symbol.1 c.file
  | none => .ok (0, m)

/-- `SimpleResolve` on the symbols of the library. -/
def simpleResolve (m : MemoryUtils) (c : SimpleResolveCall) : BitVec 32 × MemoryUtils :=
  match c.library with
  | some l_addr => m.resolveSymbol ⟨l_addr, c.file.mapped.bind MappedFile.symtab⟩ c.symbol.1
      ⟨c.file.mapped.isSome, c.file.allocated⟩
  | none => (0, m)

/-- The walk through the file of the library, if there is one, reads in the file and divides by
no `sh_entsize` of 0. -/
def Readable (m : MemoryUtils) (c : SimpleResolveCall) : Prop :=
  ∀ l_addr, c.library = some l_addr → (m.tableOf l_addr).FileReadable c.symbol.1 c.file

/-- Whatever the system answers, what a call opens it closes. -/
theorem simpleResolveWith_eq (m : MemoryUtils) (c : SimpleResolveCall) (k : Kernel) :
    simpleResolveWith m c k = ((simpleResolveFile m c).mapError Crash.fault).map (·, k) := by
  unfold simpleResolveWith simpleResolveFile library
  cases c.dladdr with
  | false => rfl
  | true =>
    rcases c.dlopen with - | ⟨handle, l_addr⟩
    · rfl
    simp only [if_true, MemoryUtils.resolveSymbolWith_eq, Option.map_some]
    cases m.resolveSymbolFile l_addr c.symbol.1 c.file with
    | error e => rfl
    | ok r =>
      show ((k.dlopen handle).dlclose handle >>= _) = _
      rw [k.dlclose_dlopen]
      rfl

theorem gives_simpleResolveFile (m : MemoryUtils) (c : SimpleResolveCall) :
    Gives (simpleResolveFile m c) (c.Readable m) (simpleResolve m c) := by
  unfold simpleResolveFile simpleResolve Readable
  cases c.library with
  | none => exact (Gives.of_ok _).congr (by simp)
  | some l_addr =>
    exact (m.gives_resolveSymbolFile l_addr c.symbol.2 c.file).congr (by simp)

/-! ## Runs -/

/-- The calls in order, and what they return. -/
def runWith : List SimpleResolveCall → MemoryUtils → Kernel →
    Except Crash ((List (BitVec 32) × MemoryUtils) × Kernel)
  | [], m, k => .ok (([], m), k)
  | c :: cs, m, k => do
    let r ← simpleResolveWith m c k
    let rest ← runWith cs r.1.2 r.2
    .ok ((r.1.1 :: rest.1.1, rest.1.2), rest.2)

/-- The calls without system calls. -/
def runFile : List SimpleResolveCall → MemoryUtils → Except Fault (List (BitVec 32) × MemoryUtils)
  | [], m => .ok ([], m)
  | c :: cs, m => do
    let r ← simpleResolveFile m c
    let rest ← runFile cs r.2
    .ok (r.1 :: rest.1, rest.2)

/-- The tables after a call. -/
def step (m : MemoryUtils) (c : SimpleResolveCall) : MemoryUtils :=
  (simpleResolve m c).2

/-- What the calls return on the symbols of the libraries. -/
def answers : MemoryUtils → List SimpleResolveCall → List (BitVec 32)
  | _, [] => []
  | m, c :: cs => (simpleResolve m c).1 :: answers (step m c) cs

/-- Whatever the system answers to the system calls of any calls of `SimpleResolve`, nothing is
released that is not held, and when they return the process holds what it held before. They
fail exactly when one of them reads outside of its file or divides by an `sh_entsize` of 0,
and otherwise return what the tables return on the symbols of the files. -/
theorem gives_runWith (calls : List SimpleResolveCall) (m : MemoryUtils) (k : Kernel) :
    runWith calls m k = ((runFile calls m).mapError Crash.fault).map (·, k) ∧
      Gives (runFile calls m) (Along step (fun m c => c.Readable m) m calls)
        (answers m calls, run step m calls) := by
  induction calls generalizing m with
  | nil => exact ⟨rfl, .of_ok _⟩
  | cons c cs ih =>
    have hcall := gives_simpleResolveFile m c
    constructor
    · rw [runWith, runFile, simpleResolveWith_eq]
      cases simpleResolveFile m c with
      | error e => rfl
      | ok r =>
        show (runWith cs r.2 k >>= _) = _
        rw [(ih r.2).1]
        show _ = Except.map _ (Except.mapError _ (runFile cs r.2 >>= _))
        cases runFile cs r.2 <;> rfl
    · refine hcall.bind fun _ => ?_
      exact (ih (step m c)).2.bind_ok fun rest => ((simpleResolve m c).1 :: rest.1, rest.2)

end SimpleResolveCall

end TickrateEnabler
