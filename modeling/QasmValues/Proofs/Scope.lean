import Mathlib.Data.List.Nodup
import QasmValues.Scope

/-! The structure of open scopes.
The last scope is the global one, the others are blocks, and only the global
scope holds arrays and registers. A name is bound at most once in a scope, so
overwriting a binding touches no other. Registers are listed in the order of
their declaration; no operation but a declaration at global scope changes the list. -/

namespace QasmValues

namespace Binding

def isRegister : Binding → Bool
  | .qubits _ | .bits _ => true
  | .scalar _ | .array _ | .qubitAlias _ | .bitAlias _ => false

theorem isRegister_eq_false {b : Binding} (h : b.globalOnly = false) : b.isRegister = false := by
  cases b <;> first | rfl | cases h

end Binding

namespace Scope

variable {s : Scope} {name : String} {old new b : Binding}

def Distinct (s : Scope) : Prop := (s.symbols.map Prod.fst).Nodup

def registers (s : Scope) : List Binding := (s.symbols.reverse.map Prod.snd).filter (·.isRegister)

theorem distinct_empty (kind : ScopeKind) : (empty kind).Distinct := List.nodup_nil

theorem lookup?_eq_none_iff : s.lookup? name = none ↔ name ∉ s.symbols.map Prod.fst := by
  rw [lookup?, List.lookup_eq_none_iff]
  constructor
  · intro unbound member
    obtain ⟨symbol, inside, same⟩ := List.mem_map.mp member
    exact bne_iff_ne.mp (unbound symbol inside) same.symm
  · intro absent symbol inside
    exact bne_iff_ne.mpr fun same => absent (List.mem_map.mpr ⟨symbol, inside, same.symm⟩)

theorem Distinct.insert (h : s.Distinct) (unbound : s.lookup? name = none) :
    (s.insert name b).Distinct :=
  List.nodup_cons.mpr ⟨lookup?_eq_none_iff.mp unbound, h⟩

theorem lookup?_insert_self : (s.insert name b).lookup? name = some b := by
  simp [lookup?, insert]

theorem lookup?_insert_of_ne {other : String} (different : other ≠ name) :
    (s.insert name b).lookup? other = s.lookup? other := by
  have apart : (other == name) = false := beq_false_of_ne different
  simp [lookup?, insert, List.lookup_cons, apart]

theorem names_replace : (s.replace name b).symbols.map Prod.fst = s.symbols.map Prod.fst := by
  simp only [replace, List.map_map]
  refine List.map_congr_left fun symbol _ => ?_
  by_cases same : symbol.1 = name <;> simp [same]

theorem Distinct.replace (h : s.Distinct) : (s.replace name b).Distinct := by
  rw [Distinct, names_replace]
  exact h

theorem mem_of_lookup? (h : s.lookup? name = some b) : (name, b) ∈ s.symbols := by
  obtain ⟨before, after, split, -⟩ := List.lookup_eq_some_iff.mp h
  simp [split]

theorem Distinct.eq_of_mem (h : s.Distinct) (found : s.lookup? name = some old)
    (member : (name, b) ∈ s.symbols) : b = old :=
  congrArg Prod.snd (List.inj_on_of_nodup_map h member (mem_of_lookup? found) rfl)

theorem Distinct.alone (h : s.Distinct) {before after : List (String × Binding)}
    (split : s.symbols = before ++ (name, b) :: after) :
    ∀ symbol ∈ before ++ after, symbol.1 ≠ name := by
  have names : ((before ++ (name, b) :: after).map Prod.fst).Nodup := split ▸ h
  rw [List.map_append, List.map_cons, List.nodup_middle, ← List.map_append,
    List.nodup_cons] at names
  exact fun symbol member same => names.1 (List.mem_map.mpr ⟨symbol, member, same⟩)

theorem Distinct.lookup?_of_mem (h : s.Distinct) (member : (name, b) ∈ s.symbols) :
    s.lookup? name = some b := by
  obtain ⟨before, after, split⟩ := List.append_of_mem member
  refine List.lookup_eq_some_iff.mpr ⟨before, after, split, fun symbol inside => ?_⟩
  exact bne_iff_ne.mpr (h.alone split symbol (List.mem_append_left after inside)).symm

theorem mem_replace {symbol : String × Binding} (member : symbol ∈ (s.replace name b).symbols) :
    symbol = (name, b) ∨ symbol ∈ s.symbols := by
  obtain ⟨source, inside, rfl⟩ := List.mem_map.mp member
  by_cases same : source.1 = name
  · rw [if_pos same]
    exact .inl rfl
  · rw [if_neg same]
    exact .inr inside

theorem symbols_replace (new : Binding) (h : s.Distinct)
    (found : s.lookup? name = some old) :
    ∃ before after, s.symbols = before ++ (name, old) :: after ∧
      (∀ symbol ∈ before ++ after, symbol.1 ≠ name) ∧
      (s.replace name new).symbols = before ++ (name, new) :: after := by
  obtain ⟨before, after, split, -⟩ := List.lookup_eq_some_iff.mp found
  have alone := h.alone split
  obtain ⟨left, right⟩ := List.forall_mem_append.mp alone
  have kept (symbols : List (String × Binding)) (others : ∀ symbol ∈ symbols, symbol.1 ≠ name) :
      symbols.map (fun symbol => if symbol.1 = name then (name, new) else symbol) = symbols :=
    (List.map_congr_left fun symbol member => if_neg (others symbol member)).trans (List.map_id _)
  refine ⟨before, after, split, alone, ?_⟩
  rw [replace, split, List.map_append, List.map_cons, kept before left, kept after right,
    if_pos rfl]

theorem lookup?_replace_self (found : s.lookup? name = some old) :
    (s.replace name new).lookup? name = some new := by
  obtain ⟨before, after, split, others⟩ := List.lookup_eq_some_iff.mp found
  rw [lookup?, replace, split, List.map_append, List.map_cons, if_pos rfl]
  refine List.lookup_eq_some_iff.mpr ⟨_, _, rfl, fun symbol member => ?_⟩
  obtain ⟨source, inside, rfl⟩ := List.mem_map.mp member
  have other := others source inside
  rw [if_neg (bne_iff_ne.mp other).symm]
  exact other

theorem lookup?_replace_of_ne {other : String} (different : other ≠ name) :
    (s.replace name b).lookup? other = s.lookup? other := by
  obtain ⟨kind, symbols⟩ := s
  simp only [lookup?, replace]
  induction symbols with
  | nil => rfl
  | cons symbol symbols ih =>
    rw [List.map_cons, List.lookup_cons, List.lookup_cons, ih]
    by_cases same : symbol.1 = name
    · have apart : (other == name) = false := beq_false_of_ne different
      rw [if_pos same, same, apart]
    · rw [if_neg same]

theorem registers_insert :
    (s.insert name b).registers = s.registers ++ if b.isRegister then [b] else [] := by
  simp [registers, insert, List.filter_singleton]

theorem registers_replace (h : s.Distinct) (found : s.lookup? name = some old)
    (ho : old.isRegister = false) (hn : new.isRegister = false) :
    (s.replace name new).registers = s.registers := by
  have plain : ∀ symbol ∈ s.symbols.reverse, symbol.1 = name → symbol.2.isRegister = false := by
    intro symbol member same
    rw [h.eq_of_mem found (b := symbol.2) (same ▸ List.mem_reverse.mp member)]
    exact ho
  rw [registers, registers, replace, ← List.map_reverse]
  generalize s.symbols.reverse = symbols at plain
  induction symbols with
  | nil => rfl
  | cons symbol symbols ih =>
    have rest := ih fun other member => plain other (List.mem_cons_of_mem symbol member)
    simp only [List.map_cons, List.filter_cons, rest]
    by_cases same : symbol.1 = name
    · simp [same, hn, plain symbol List.mem_cons_self same]
    · simp [same]

theorem registers_eq_nil (h : ∀ symbol ∈ s.symbols, symbol.2.globalOnly = false) :
    s.registers = [] := by
  refine List.filter_eq_nil_iff.mpr fun b member => ?_
  obtain ⟨symbol, inside, rfl⟩ := List.mem_map.mp member
  simp [Binding.isRegister_eq_false (h symbol (List.mem_reverse.mp inside))]

end Scope

namespace Scopes

variable {s t : Scopes} {scope : Scope} {frames outer : List Scope} {name : String}
variable {old new b : Binding}

/-- Blocks inside the global scope. A block holds only what may be declared there. -/
inductive Nested : List Scope → Prop where
  | global {scope : Scope} (kind : scope.kind = .global) (distinct : scope.Distinct) :
      Nested [scope]
  | block {scope : Scope} {outer : List Scope} (kind : scope.kind = .block)
      (distinct : scope.Distinct) (plain : ∀ symbol ∈ scope.symbols, symbol.2.globalOnly = false)
      (rest : Nested outer) : Nested (scope :: outer)

def registersOf : List Scope → List Binding
  | [] => []
  | scope :: outer => registersOf outer ++ scope.registers

def registers (s : Scopes) : List Binding := registersOf s.frames

theorem isGlobal_iff : s.isGlobal = true ↔ ∃ scope, s.frames = [scope] := by
  simp [isGlobal, List.length_eq_one_iff]

theorem declare_eq_ok_iff :
    s.declare name b = .ok t ↔ ∃ scope outer, s.frames = scope :: outer ∧
      (b.globalOnly = true → outer = []) ∧ scope.lookup? name = none ∧
      t = ⟨scope.insert name b :: outer⟩ := by
  obtain ⟨frames⟩ := s
  cases frames with
  | nil =>
    unfold declare
    split <;> simp
  | cons scope outer =>
    have only : isGlobal ⟨scope :: outer⟩ = true ↔ outer = [] := by simp [isGlobal]
    unfold declare
    by_cases misplaced : b.globalOnly = true ∧ outer ≠ []
    · have blocked : (b.globalOnly && !isGlobal ⟨scope :: outer⟩) = true := by
        rw [misplaced.1, Bool.true_and, Bool.not_eq_true', ← Bool.not_eq_true, only]
        exact misplaced.2
      rw [if_pos blocked]
      simp only [reduceCtorEq, List.cons.injEq, false_iff]
      rintro ⟨_, _, ⟨rfl, rfl⟩, allowed, -⟩
      exact misplaced.2 (allowed misplaced.1)
    · have allowed : ¬(b.globalOnly && !isGlobal ⟨scope :: outer⟩) = true := by
        simpa [only] using misplaced
      rw [if_neg allowed]
      dsimp only
      by_cases bound : (scope.lookup? name).isSome = true
      · have found := Option.isSome_iff_ne_none.mp bound
        rw [if_pos bound]
        simp only [reduceCtorEq, List.cons.injEq, false_iff]
        rintro ⟨_, _, ⟨rfl, rfl⟩, -, unbound, -⟩
        exact found unbound
      · have unbound : scope.lookup? name = none := by simpa using bound
        have place : b.globalOnly = true → outer = [] := by simpa using misplaced
        rw [if_neg bound, Except.ok.injEq]
        constructor
        · rintro rfl
          exact ⟨scope, outer, rfl, place, unbound, rfl⟩
        · rintro ⟨_, _, same, -, -, rfl⟩
          obtain ⟨rfl, rfl⟩ := List.cons.inj same
          rfl

theorem replace_eq_ok_iff :
    s.replace name b = .ok t ↔ (∃ old, s.lookup? name = some old) ∧
      t = ⟨replaceIn name b s.frames⟩ := by
  cases h : s.lookup? name <;> simp [replace, contains, h, eq_comm]

theorem lookup_eq_ok_iff : s.lookup name = .ok b ↔ s.lookup? name = some b := by
  unfold lookup
  split <;> simp_all

theorem lookup?_cons :
    lookup? ⟨scope :: outer⟩ name = (scope.lookup? name).or (lookup? ⟨outer⟩ name) := by
  simp only [lookup?, List.findSome?_cons]
  cases scope.lookup? name <;> rfl

/-- The first scope that binds a name binds it to `b`. -/
inductive Resolves (name : String) (b : Binding) : List Scope → Prop where
  | here {scope : Scope} {outer : List Scope} (found : scope.lookup? name = some b) :
      Resolves name b (scope :: outer)
  | further {scope : Scope} {outer : List Scope} (absent : scope.lookup? name = none)
      (rest : Resolves name b outer) : Resolves name b (scope :: outer)

theorem lookup?_eq_some_iff : lookup? ⟨frames⟩ name = some b ↔ Resolves name b frames := by
  constructor
  · intro found
    induction frames with
    | nil => cases found
    | cons scope outer ih =>
      rw [lookup?_cons] at found
      cases first : scope.lookup? name with
      | some c =>
        rw [first] at found
        cases found
        exact .here first
      | none =>
        rw [first] at found
        exact .further first (ih found)
  · intro found
    induction found with
    | here first => rw [lookup?_cons, first, Option.some_or]
    | further first rest ih => rw [lookup?_cons, first, Option.none_or, ih]

theorem replaceIn_cons_of_some (found : scope.lookup? name = some old) :
    replaceIn name new (scope :: outer) = scope.replace name new :: outer := by
  rw [replaceIn, found]
  rfl

theorem replaceIn_cons_of_none (absent : scope.lookup? name = none) :
    replaceIn name new (scope :: outer) = scope :: replaceIn name new outer := by
  rw [replaceIn, absent]
  rfl

/-- Two lists of scopes differ in one symbol only, which a name resolves to. -/
inductive Updates (name : String) (old new : Binding) : List Scope → List Scope → Prop where
  | here {kind : ScopeKind} {before after : List (String × Binding)} {outer : List Scope}
      (alone : ∀ symbol ∈ before ++ after, symbol.1 ≠ name) :
      Updates name old new (⟨kind, before ++ (name, old) :: after⟩ :: outer)
        (⟨kind, before ++ (name, new) :: after⟩ :: outer)
  | further {scope : Scope} {outer updated : List Scope} (absent : scope.lookup? name = none)
      (rest : Updates name old new outer updated) :
      Updates name old new (scope :: outer) (scope :: updated)

theorem updates_replaceIn (h : ∀ scope ∈ frames, scope.Distinct)
    (found : Resolves name old frames) :
    Updates name old new frames (replaceIn name new frames) := by
  induction found with
  | @here scope outer first =>
    obtain ⟨before, after, split, alone, replaced⟩ :=
      Scope.symbols_replace new (h scope List.mem_cons_self) first
    have unchanged : scope = ⟨scope.kind, before ++ (name, old) :: after⟩ := by rw [← split]
    have updated : scope.replace name new = ⟨scope.kind, before ++ (name, new) :: after⟩ := by
      rw [← replaced]
      rfl
    rw [replaceIn_cons_of_some first, updated]
    nth_rewrite 1 [unchanged]
    exact .here alone
  | @further scope outer first found ih =>
    rw [replaceIn_cons_of_none first]
    exact .further first (ih fun other member => h other (List.mem_cons_of_mem scope member))

theorem Resolves.replaceIn (found : Resolves name old frames) :
    Resolves name new (replaceIn name new frames) := by
  induction found with
  | here first =>
    rw [replaceIn_cons_of_some first]
    exact .here (Scope.lookup?_replace_self first)
  | further first found ih =>
    rw [replaceIn_cons_of_none first]
    exact .further first ih

/-! ### Nesting -/

theorem nested_initial : Nested initial.frames := .global rfl (Scope.distinct_empty _)

theorem Nested.distinct (h : Nested frames) : ∀ scope ∈ frames, scope.Distinct := by
  induction h with
  | global _ distinct => simpa using distinct
  | block _ distinct _ _ ih => exact List.forall_mem_cons.mpr ⟨distinct, ih⟩

theorem Nested.insert (h : Nested (scope :: outer)) (unbound : scope.lookup? name = none)
    (allowed : b.globalOnly = true → outer = []) : Nested (scope.insert name b :: outer) := by
  cases h with
  | global kind distinct => exact .global kind (distinct.insert unbound)
  | block kind distinct plain rest =>
    have local_b : b.globalOnly = false := by
      by_contra h
      rw [allowed (Bool.not_eq_false _ ▸ h)] at rest
      cases rest
    exact .block kind (distinct.insert unbound) (List.forall_mem_cons.mpr ⟨local_b, plain⟩) rest

theorem Nested.replaceIn (h : Nested frames) (found : Resolves name old frames)
    (same : new.globalOnly = old.globalOnly) : Nested (replaceIn name new frames) := by
  induction found with
  | here first =>
    rw [replaceIn_cons_of_some first]
    cases h with
    | global kind distinct => exact .global kind distinct.replace
    | block kind distinct plain rest =>
      refine .block kind distinct.replace (fun symbol member => ?_) rest
      obtain rfl | inside := Scope.mem_replace member
      · exact same.trans (plain _ (Scope.mem_of_lookup? first))
      · exact plain symbol inside
  | further first found ih =>
    rw [replaceIn_cons_of_none first]
    cases h with
    | global kind distinct => cases found
    | block kind distinct plain rest => exact .block kind distinct plain (ih rest)

theorem Nested.exit (h : Nested s.frames) : Nested s.exit.2.frames := by
  obtain ⟨frames⟩ := s
  cases h with
  | global kind distinct => exact .global kind distinct
  | block kind distinct plain rest =>
    cases rest with
    | global kind distinct => exact .global kind distinct
    | block kind distinct plain rest => exact .block kind distinct plain rest

/-! ### Registers -/

theorem registersOf_replaceIn (h : ∀ scope ∈ frames, scope.Distinct)
    (found : Resolves name old frames) (ho : old.isRegister = false)
    (hn : new.isRegister = false) :
    registersOf (replaceIn name new frames) = registersOf frames := by
  induction found with
  | @here scope outer first =>
    have distinct := h scope List.mem_cons_self
    rw [replaceIn_cons_of_some first, registersOf, Scope.registers_replace distinct first ho hn,
      registersOf]
  | @further scope outer first found ih =>
    rw [replaceIn_cons_of_none first, registersOf, registersOf,
      ih fun other member => h other (List.mem_cons_of_mem scope member)]

theorem registers_enter : s.enter.registers = s.registers := List.append_nil _

theorem registers_exit (h : Nested s.frames) : s.exit.2.registers = s.registers := by
  obtain ⟨frames⟩ := s
  cases h with
  | global => rfl
  | block kind distinct plain rest =>
    have none_lost := Scope.registers_eq_nil plain
    cases rest <;> simp [Scopes.exit, registers, registersOf, none_lost]

/-! ### All bindings -/

def All (P : Binding → Prop) (frames : List Scope) : Prop :=
  ∀ scope ∈ frames, ∀ symbol ∈ scope.symbols, P symbol.2

variable {P Q : Binding → Prop}

theorem All.imp (h : All P frames) (imp : ∀ b, P b → Q b) : All Q frames :=
  fun scope member symbol inside => imp _ (h scope member symbol inside)

theorem All.lookup? (h : All P s.frames) (found : s.lookup? name = some b) : P b := by
  obtain ⟨scope, member, inside⟩ := List.exists_of_findSome?_eq_some found
  exact h scope member (name, b) (Scope.mem_of_lookup? inside)

theorem All.insert (h : All P (scope :: outer)) (hb : P b) :
    All P (scope.insert name b :: outer) := by
  obtain ⟨first, rest⟩ := List.forall_mem_cons.mp h
  exact List.forall_mem_cons.mpr ⟨List.forall_mem_cons.mpr ⟨hb, first⟩, rest⟩

theorem All.replaceIn (h : All P frames) (hn : P new) : All P (replaceIn name new frames) := by
  induction frames with
  | nil => exact h
  | cons scope outer ih =>
    obtain ⟨first, rest⟩ := List.forall_mem_cons.mp h
    unfold Scopes.replaceIn
    split
    · refine List.forall_mem_cons.mpr ⟨fun symbol member => ?_, rest⟩
      obtain rfl | inside := Scope.mem_replace member
      · exact hn
      · exact first symbol inside
    · exact List.forall_mem_cons.mpr ⟨first, ih rest⟩

theorem All.enter (h : All P s.frames) : All P s.enter.frames :=
  List.forall_mem_cons.mpr ⟨nofun, h⟩

theorem All.exit (h : All P s.frames) : All P s.exit.2.frames := by
  unfold Scopes.exit
  split
  · rename_i scope outer rest frames
    rw [frames] at h
    exact (List.forall_mem_cons.mp h).2
  · exact h

end Scopes

end QasmValues
