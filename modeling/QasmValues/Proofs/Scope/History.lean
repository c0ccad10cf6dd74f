import Mathlib.Data.List.Forall2
import QasmValues.Proofs.Scope

/-! What a name means, by the history of the scopes.
A history tells what happened, and forgets nothing: a frame that was closed keeps what was
declared in it, and a binding that was overwritten is followed by the later one. The open
scopes, which drop the one and overwrite the other, resolve each name as the history does. -/

namespace QasmValues

namespace Scopes

/-- Something that happened to the open scopes; an operation that fails is no event. -/
inductive Event where
  | opened
  | closed
  | declared (name : String) (binding : Binding)
  | overwritten (name : String) (binding : Binding)

abbrev History := List Event

namespace History

/-- The frames that are still open, innermost first. The global frame has the number zero,
and a later one the number of events up to its opening. -/
def openFrames : History → List Nat
  | [] => [0]
  | .opened :: past => (past.length + 1) :: openFrames past
  | .closed :: past => (openFrames past).tail
  | .declared .. :: past | .overwritten .. :: past => openFrames past

def current (past : History) : Nat := (openFrames past).headD 0

def declaredIn (frame : Nat) : History → List String
  | [] => []
  | .declared name _ :: past =>
    if current past = frame then name :: declaredIn frame past else declaredIn frame past
  | .opened :: past | .closed :: past | .overwritten .. :: past => declaredIn frame past

/-- The innermost frame still open in which the name was declared. -/
def owner? (past : History) (name : String) : Option Nat :=
  (openFrames past).find? fun frame => name ∈ declaredIn frame past

/-- The bindings stored under a name in a frame, by its declaration there and since then. -/
def storedIn (frame : Nat) (name : String) : History → List Binding
  | [] => []
  | .declared other b :: past =>
    if current past = frame ∧ other = name then b :: storedIn frame name past
    else storedIn frame name past
  | .overwritten other b :: past =>
    if owner? past other = some frame ∧ other = name then b :: storedIn frame name past
    else storedIn frame name past
  | .opened :: past | .closed :: past => storedIn frame name past

variable {past : History} {frame : Nat} {name stored : String} {b : Binding}

theorem le_length_of_mem_openFrames (member : frame ∈ openFrames past) :
    frame ≤ past.length := by
  induction past with
  | nil => simpa [openFrames] using member
  | cons event past ih =>
    rw [List.length_cons]
    cases event with
    | opened =>
      obtain rfl | member := List.mem_cons.mp member
      · exact Nat.le_refl _
      · exact Nat.le_succ_of_le (ih member)
    | closed => exact Nat.le_succ_of_le (ih (List.mem_of_mem_tail member))
    | declared | overwritten => exact Nat.le_succ_of_le (ih member)

theorem nodup_openFrames (past : History) : (openFrames past).Nodup := by
  induction past with
  | nil => exact List.nodup_singleton 0
  | cons event past ih =>
    cases event with
    | opened =>
      refine List.nodup_cons.mpr ⟨fun member => ?_, ih⟩
      exact Nat.lt_irrefl _ (le_length_of_mem_openFrames member)
    | closed => exact ih.tail
    | declared | overwritten => exact ih

theorem current_le_length (past : History) : current past ≤ past.length := by
  unfold current
  cases frames : openFrames past with
  | nil => exact Nat.zero_le _
  | cons frame outer =>
    have member : frame ∈ openFrames past := frames ▸ List.mem_cons_self
    exact le_length_of_mem_openFrames member

theorem mem_of_owner? (owner : owner? past name = some frame) : frame ∈ openFrames past :=
  List.mem_of_find?_eq_some owner

theorem declaredIn_of_length_lt (later : past.length < frame) : declaredIn frame past = [] := by
  induction past with
  | nil => rfl
  | cons event past ih =>
    have before : past.length < frame := Nat.lt_of_succ_lt later
    cases event with
    | declared =>
      rw [declaredIn, if_neg (Nat.ne_of_lt (Nat.lt_of_le_of_lt (current_le_length past) before)),
        ih before]
    | opened | closed | overwritten => exact ih before

theorem storedIn_of_length_lt (later : past.length < frame) : storedIn frame name past = [] := by
  induction past with
  | nil => rfl
  | cons event past ih =>
    have before : past.length < frame := Nat.lt_of_succ_lt later
    cases event with
    | declared =>
      have other : current past ≠ frame :=
        Nat.ne_of_lt (Nat.lt_of_le_of_lt (current_le_length past) before)
      rw [storedIn, if_neg (fun both => other both.1), ih before]
    | overwritten written =>
      have other : owner? past written ≠ some frame := fun owner =>
        Nat.not_lt_of_le (le_length_of_mem_openFrames (mem_of_owner? owner)) before
      rw [storedIn, if_neg (fun both => other both.1), ih before]
    | opened | closed => exact ih before

theorem exists_head_storedIn (member : name ∈ declaredIn frame past) :
    ∃ b, (storedIn frame name past).head? = some b := by
  induction past with
  | nil => cases member
  | cons event past ih =>
    cases event with
    | opened | closed => exact ih member
    | declared other b =>
      by_cases here : current past = frame ∧ other = name
      · exact ⟨b, by rw [storedIn, if_pos here, List.head?_cons]⟩
      · rw [storedIn, if_neg here]
        rw [declaredIn] at member
        split at member
        · rename_i same
          obtain rfl | member := List.mem_cons.mp member
          · exact absurd ⟨same, rfl⟩ here
          · exact ih member
        · exact ih member
    | overwritten other b =>
      rw [storedIn]
      split
      · exact ⟨b, List.head?_cons⟩
      · exact ih member

end History

end Scopes

namespace Scope

open Scopes (History)
open Scopes.History

variable {s : Scope} {past : History} {frame : Nat} {name : String} {old b : Binding}

/-- The scope is what the history tells of the frame. -/
structure Shows (past : History) (frame : Nat) (s : Scope) : Prop where
  names : s.symbols.map Prod.fst = declaredIn frame past
  bindings : ∀ name, s.lookup? name = (storedIn frame name past).head?

theorem shows_empty (kind : ScopeKind) (later : past.length < frame) :
    (empty kind).Shows past frame := by
  refine ⟨(declaredIn_of_length_lt later).symm, fun name => ?_⟩
  rw [storedIn_of_length_lt later]
  rfl

theorem Shows.opened (h : s.Shows past frame) : s.Shows (.opened :: past) frame :=
  ⟨h.names, h.bindings⟩

theorem Shows.closed (h : s.Shows past frame) : s.Shows (.closed :: past) frame :=
  ⟨h.names, h.bindings⟩

theorem Shows.insert (h : s.Shows past (current past)) :
    (s.insert name b).Shows (.declared name b :: past) (current past) := by
  constructor
  · rw [declaredIn, if_pos rfl, ← h.names]
    rfl
  · intro other
    by_cases same : name = other
    · subst same
      rw [storedIn, if_pos ⟨rfl, rfl⟩]
      exact lookup?_insert_self
    · rw [storedIn, if_neg fun both => same both.2, ← h.bindings]
      exact lookup?_insert_of_ne (Ne.symm same)

theorem Shows.declared_of_ne (h : s.Shows past frame) (other : current past ≠ frame) :
    s.Shows (.declared name b :: past) frame := by
  constructor
  · rw [declaredIn, if_neg other, h.names]
  · intro stored
    rw [storedIn, if_neg fun both => other both.1, h.bindings]

theorem Shows.replace (h : s.Shows past frame) (owner : owner? past name = some frame)
    (found : s.lookup? name = some old) :
    (s.replace name b).Shows (.overwritten name b :: past) frame := by
  constructor
  · rw [names_replace, h.names]
    rfl
  · intro other
    by_cases same : name = other
    · subst same
      rw [storedIn, if_pos ⟨owner, rfl⟩]
      exact lookup?_replace_self found
    · rw [storedIn, if_neg fun both => same both.2, ← h.bindings]
      exact lookup?_replace_of_ne (Ne.symm same)

theorem Shows.overwritten_of_ne (h : s.Shows past frame) (other : owner? past name ≠ some frame) :
    s.Shows (.overwritten name b :: past) frame := by
  refine ⟨h.names, fun stored => ?_⟩
  rw [storedIn, if_neg fun both => other both.1, h.bindings]

theorem Shows.lookup?_eq_none_iff (h : s.Shows past frame) :
    s.lookup? name = none ↔ name ∉ declaredIn frame past := by
  rw [Scope.lookup?_eq_none_iff, h.names]

theorem Shows.lookup?_of_mem (h : s.Shows past frame) (member : name ∈ declaredIn frame past) :
    ∃ b, s.lookup? name = some b :=
  Option.ne_none_iff_exists'.mp fun unbound => h.lookup?_eq_none_iff.mp unbound member

end Scope

namespace Scopes

open History

variable {s : Scopes} {past : History} {frames : List Scope} {numbers : List Nat} {name : String}
variable {b : Binding}

theorem lookup?_of_shows (shows : List.Forall₂ (Scope.Shows past) numbers frames) :
    lookup? ⟨frames⟩ name = (numbers.find? (name ∈ declaredIn · past)).bind fun frame =>
      (storedIn frame name past).head? := by
  induction shows with
  | nil => rfl
  | @cons frame scope numbers frames first _ ih =>
    rw [lookup?_cons, ih]
    by_cases member : name ∈ declaredIn frame past
    · obtain ⟨b, found⟩ := first.lookup?_of_mem member
      rw [List.find?_cons_of_pos (by simpa using member), Option.bind_some, ← first.bindings,
        found, Option.some_or]
    · rw [List.find?_cons_of_neg (by simpa using member),
        first.lookup?_eq_none_iff.mpr member, Option.none_or]

theorem shows_replaceIn (shows : List.Forall₂ (Scope.Shows past) numbers frames)
    (distinct : numbers.Nodup)
    (owner : numbers.find? (name ∈ declaredIn · past) = owner? past name) :
    List.Forall₂ (Scope.Shows (.overwritten name b :: past)) numbers (replaceIn name b frames) := by
  induction shows with
  | nil => exact .nil
  | @cons frame scope numbers frames first rest ih =>
    obtain ⟨alone, distinct⟩ := List.nodup_cons.mp distinct
    by_cases member : name ∈ declaredIn frame past
    · -- This frame owns the name, so that nothing is stored in the frames around it.
      rw [List.find?_cons_of_pos (by simpa using member)] at owner
      obtain ⟨old, found⟩ := first.lookup?_of_mem member
      rw [replaceIn_cons_of_some found]
      have others : ∀ number ∈ numbers, owner? past name ≠ some number := by
        intro number outer same
        exact alone (Option.some.inj (owner.trans same) ▸ outer)
      have kept := (List.forall₂_and_left _ _).mpr ⟨others, rest⟩
      exact .cons (first.replace owner.symm found)
        (kept.imp fun _ _ ⟨other, shows⟩ => shows.overwritten_of_ne other)
    · -- The owner is further out, and no other frame has its number.
      rw [List.find?_cons_of_neg (by simpa using member)] at owner
      rw [replaceIn_cons_of_none (first.lookup?_eq_none_iff.mpr member)]
      refine .cons (first.overwritten_of_ne fun same => ?_) (ih distinct owner)
      exact alone (List.mem_of_find?_eq_some (owner.trans same))

/-- The open scopes are what the history tells of the open frames. -/
structure Tracks (s : Scopes) (past : History) : Prop where
  frames : List.Forall₂ (Scope.Shows past) (openFrames past) s.frames
  outermost : ∃ blocks, openFrames past = blocks ++ [0]

theorem tracks_initial : initial.Tracks [] :=
  ⟨.cons ⟨rfl, fun _ => rfl⟩ .nil, [], rfl⟩

theorem Tracks.enter (h : s.Tracks past) : s.enter.Tracks (.opened :: past) := by
  obtain ⟨blocks, outermost⟩ := h.outermost
  constructor
  · have fresh := (Scope.shows_empty .block (Nat.lt_succ_self past.length)).opened
    exact .cons fresh (h.frames.imp fun _ _ => .opened)
  · exact ⟨(past.length + 1) :: blocks, congrArg _ outermost⟩

theorem Tracks.innermost {scope : Scope} {outer : List Scope} (h : s.Tracks past)
    (frames : s.frames = scope :: outer) :
    scope.Shows past (current past) ∧ ∃ numbers, openFrames past = current past :: numbers ∧
      List.Forall₂ (Scope.Shows past) numbers outer := by
  have shows := h.frames
  rw [frames] at shows
  obtain ⟨frame, numbers, first, rest, opened⟩ := List.forall₂_cons_right_iff.mp shows
  have here : current past = frame := by rw [current, opened, List.headD_cons]
  rw [here]
  exact ⟨first, numbers, opened, rest⟩

theorem Tracks.exit {count : Nat} {t : Scopes} (h : s.Tracks past)
    (closed : s.exit = (some count, t)) : t.Tracks (.closed :: past) := by
  unfold Scopes.exit at closed
  split at closed
  · rename_i scope next rest frames
    cases closed
    obtain ⟨-, numbers, opened, shows⟩ := h.innermost frames
    obtain ⟨blocks, outermost⟩ := h.outermost
    have left : openFrames (.closed :: past) = numbers := by rw [openFrames, opened, List.tail_cons]
    rw [opened] at outermost
    cases blocks with
    | nil =>
      rw [(List.cons.inj outermost).2] at shows
      cases shows
    | cons block blocks =>
      refine ⟨?_, blocks, left.trans (List.cons.inj outermost).2⟩
      rw [left]
      exact shows.imp fun _ _ => .closed
  · cases closed

theorem Tracks.isGlobal_iff (h : s.Tracks past) : s.isGlobal = true ↔ openFrames past = [0] := by
  obtain ⟨blocks, outermost⟩ := h.outermost
  have length := h.frames.length_eq
  rw [outermost, List.length_append] at length
  rw [outermost, isGlobal, decide_eq_true_iff, ← length]
  simp

theorem Tracks.declare {t : Scopes} (h : s.Tracks past) (declared : s.declare name b = .ok t) :
    t.Tracks (.declared name b :: past) := by
  obtain ⟨scope, outer, frames, -, -, rfl⟩ := declare_eq_ok_iff.mp declared
  obtain ⟨first, numbers, opened, rest⟩ := h.innermost frames
  have distinct := nodup_openFrames past
  rw [opened] at distinct
  have others : ∀ number ∈ numbers, current past ≠ number := by
    rintro number outer rfl
    exact (List.nodup_cons.mp distinct).1 outer
  have kept := (List.forall₂_and_left _ _).mpr ⟨others, rest⟩
  refine ⟨?_, h.outermost⟩
  rw [openFrames, opened]
  exact .cons first.insert (kept.imp fun _ _ ⟨other, shows⟩ => shows.declared_of_ne other)

theorem Tracks.replace {t : Scopes} (h : s.Tracks past) (replaced : s.replace name b = .ok t) :
    t.Tracks (.overwritten name b :: past) := by
  obtain ⟨-, rfl⟩ := replace_eq_ok_iff.mp replaced
  exact ⟨shows_replaceIn h.frames (nodup_openFrames past) rfl, h.outermost⟩

theorem Tracks.lookup?_eq (h : s.Tracks past) :
    s.lookup? name = (owner? past name).bind fun frame => (storedIn frame name past).head? :=
  lookup?_of_shows h.frames

theorem Tracks.exists_frames (h : s.Tracks past) : ∃ scope outer, s.frames = scope :: outer := by
  obtain ⟨blocks, outermost⟩ := h.outermost
  have length := h.frames.length_eq
  rw [outermost, List.length_append, List.length_singleton] at length
  exact List.exists_cons_of_length_pos (by omega)

theorem Tracks.exit_eq (h : s.Tracks past) :
    s.exit.1 = if s.isGlobal then none else some (declaredIn (current past) past).length := by
  obtain ⟨scope, outer, frames⟩ := h.exists_frames
  obtain ⟨shows, -⟩ := h.innermost frames
  rw [← shows.names, List.length_map]
  unfold Scopes.exit isGlobal
  rw [frames]
  cases outer <;> simp

def Misplaced (s : Scopes) (b : Binding) : Prop :=
  b.kind ∈ [.array, .qubits, .bits] ∧ s.isGlobal = false

theorem misplaced_iff : s.Misplaced b ↔ (b.globalOnly && !s.isGlobal) = true := by
  cases b <;> simp [Misplaced, Binding.kind, Binding.globalOnly]

theorem Tracks.declare_eq_error_iff {e : Fault} (h : s.Tracks past) :
    s.declare name b = .error e ↔ s.Misplaced b ∧ e = .notGlobal name ∨
      ¬s.Misplaced b ∧ name ∈ declaredIn (current past) past ∧ e = .redeclared name := by
  obtain ⟨scope, outer, frames⟩ := h.exists_frames
  obtain ⟨shows, -⟩ := h.innermost frames
  unfold Scopes.declare
  rw [frames]
  dsimp only
  by_cases wrong : s.Misplaced b
  · simp [misplaced_iff.mp wrong, wrong, eq_comm]
  · rw [if_neg fun h => wrong (misplaced_iff.mpr h)]
    by_cases member : name ∈ declaredIn (current past) past
    · obtain ⟨old, found⟩ := shows.lookup?_of_mem member
      simp [found, wrong, member, eq_comm]
    · simp [shows.lookup?_eq_none_iff.mpr member, wrong, member]

/-! ### Runs -/

/-- An operation on the open scopes. To overwrite is to look a name up and to store another
binding in its place. -/
inductive Operation where
  | enter
  | exit
  | declare (name : String) (binding : Binding)
  | overwrite (name : String) (binding : Binding)

/-- Scopes and what has happened to them. -/
structure Recorded where
  scopes : Scopes
  past : History

def Recorded.start : Recorded := ⟨initial, []⟩

def Operation.perform (op : Operation) (r : Recorded) : Recorded :=
  match op with
  | enter => ⟨r.scopes.enter, .opened :: r.past⟩
  | exit =>
    match r.scopes.exit with
    | (some _, scopes) => ⟨scopes, .closed :: r.past⟩
    | (none, scopes) => ⟨scopes, r.past⟩
  | declare name b =>
    match r.scopes.declare name b with
    | .ok scopes => ⟨scopes, .declared name b :: r.past⟩
    | .error _ => r
  | overwrite name b =>
    match r.scopes.replace name b with
    | .ok scopes => ⟨scopes, .overwritten name b :: r.past⟩
    | .error _ => r

def run (r : Recorded) (ops : List Operation) : Recorded := ops.foldl (fun r op => op.perform r) r

theorem exit_eq_none {t : Scopes} (failed : s.exit = (none, t)) : t = s := by
  unfold Scopes.exit at failed
  split at failed
  · cases failed
  · cases failed
    rfl

theorem Operation.tracks_perform (op : Operation) {r : Recorded} (h : r.scopes.Tracks r.past) :
    (op.perform r).scopes.Tracks (op.perform r).past := by
  cases op with
  | enter => exact h.enter
  | exit =>
    rw [perform]
    split
    · rename_i closed
      exact h.exit closed
    · rename_i unchanged
      rw [exit_eq_none unchanged]
      exact h
  | declare name b =>
    rw [perform]
    split
    · rename_i declared
      exact h.declare declared
    · exact h
  | overwrite name b =>
    rw [perform]
    split
    · rename_i replaced
      exact h.replace replaced
    · exact h

theorem tracks_run {r : Recorded} (h : r.scopes.Tracks r.past) (ops : List Operation) :
    (run r ops).scopes.Tracks (run r ops).past := by
  induction ops generalizing r with
  | nil => exact h
  | cons op ops ih => exact ih (op.tracks_perform h)

/-- Whatever was opened, closed, declared and overwritten, a name means what was last stored
under it in the innermost open frame that declared it, and nothing without such a frame. The
global scope is not closed, and a block that is closed drops the names declared in it. An
array or a register is declared in the global scope only, and a name once in a frame; a
declaration fails for no other reason and then changes nothing. -/
theorem resolves_by_history (ops : List Operation) :
    let r := run .start ops
    (∀ name, owner? r.past name = none → r.scopes.lookup name = .error (.undefined name)) ∧
    (∀ name frame, owner? r.past name = some frame →
      ∃ b, (storedIn frame name r.past).head? = some b ∧ r.scopes.lookup name = .ok b) ∧
    (∀ name, r.scopes.contains name = true ↔ ∃ b, r.scopes.lookup name = .ok b) ∧
    (∀ name b, (∃ t, r.scopes.replace name b = .ok t) ↔ ∃ old, r.scopes.lookup name = .ok old) ∧
    (r.scopes.isGlobal = true ↔ openFrames r.past = [0]) ∧
    (r.scopes.exit.1 = if r.scopes.isGlobal then none
      else some (declaredIn (current r.past) r.past).length) ∧
    (∀ name b e, r.scopes.declare name b = .error e ↔
      r.scopes.Misplaced b ∧ e = .notGlobal name ∨
        ¬r.scopes.Misplaced b ∧ name ∈ declaredIn (current r.past) r.past ∧
          e = .redeclared name) ∧
    ∀ name b e, r.scopes.declare name b = .error e →
      (Operation.declare name b).perform r = r := by
  intro r
  have tracks : r.scopes.Tracks r.past := tracks_run tracks_initial ops
  refine ⟨fun name nowhere => ?_, fun name frame owner => ?_, fun name => ?_, fun name b => ?_,
    tracks.isGlobal_iff, tracks.exit_eq, fun name b e => tracks.declare_eq_error_iff,
    fun name b e failed => ?_⟩
  · rw [Scopes.lookup, tracks.lookup?_eq, nowhere, Option.bind_none]
  · have declared : name ∈ declaredIn frame r.past := by simpa using List.find?_some owner
    obtain ⟨b, stored⟩ := exists_head_storedIn declared
    refine ⟨b, stored, lookup_eq_ok_iff.mpr ?_⟩
    rw [tracks.lookup?_eq, owner, Option.bind_some, stored]
  · simp only [lookup_eq_ok_iff, contains, Option.isSome_iff_exists]
  · simp only [replace_eq_ok_iff, lookup_eq_ok_iff, exists_and_left, exists_eq, and_true]
  · rw [Operation.perform, failed]

theorem resolves_by_history_of_shadowing :
    let number (n : Int64) : Binding := .scalar (.int n 8)
    let ops : List Operation :=
      [.declare "x" (number 1), .enter, .declare "x" (number 2), .declare "x" (number 3), .enter,
        .overwrite "x" (number 4), .declare "x" (number 5)]
    let inner := run .start ops
    let r := run .start (ops ++ [.exit])
    inner.scopes.lookup "x" = .ok (number 5) ∧ inner.scopes.exit.1 = some 1 ∧
      r.scopes.lookup "x" = .ok (number 4) ∧ r.scopes.lookup "y" = .error (.undefined "y") ∧
      r.scopes.declare "q" (.qubits (.ofIds [⟨0⟩])) = .error (.notGlobal "q") ∧
      r.scopes.declare "x" (number 6) = .error (.redeclared "x") := by
  intro number ops inner r
  obtain ⟨-, found, -, -, -, closed, -, -⟩ := resolves_by_history ops
  obtain ⟨missing, found', -, -, -, -, fails, -⟩ := resolves_by_history (ops ++ [.exit])
  obtain ⟨b, stored, lookup⟩ := found "x" 4 (by decide +kernel)
  obtain ⟨c, stored', lookup'⟩ := found' "x" 2 (by decide +kernel)
  have last : (storedIn 4 "x" inner.past).head? = some (number 5) := by decide +kernel
  have last' : (storedIn 2 "x" r.past).head? = some (number 4) := by decide +kernel
  obtain rfl := Option.some.inj (stored.symm.trans last)
  obtain rfl := Option.some.inj (stored'.symm.trans last')
  have block : r.scopes.isGlobal = false := by decide +kernel
  have count : inner.scopes.isGlobal = false ∧
      (declaredIn (current inner.past) inner.past).length = 1 := by decide +kernel
  refine ⟨lookup, ?_, lookup', missing "y" (by decide +kernel), ?_, ?_⟩
  · rw [closed, count.1, count.2]
    rfl
  · exact (fails "q" _ _).mpr (.inl ⟨⟨by decide, block⟩, rfl⟩)
  · have allowed : ¬r.scopes.Misplaced (number 6) := fun h => absurd h.1 (by decide)
    exact (fails "x" _ _).mpr (.inr ⟨allowed, by decide +kernel, rfl⟩)

end Scopes

end QasmValues
