import Mathlib.Data.List.Basic
import Mathlib.Data.List.Nodup
import QasmValues.Proofs.Index.Range
import QasmValues.Proofs.Register

/-! Joins of registers.
Two registers can be joined just when they share no reference. A longer join needs this of
every two of its operands and of nothing else, so that its brackets do not matter. An
expression whose slices take no position twice names no reference twice. -/

namespace QasmValues

namespace Register

variable {ι : Type} {r t : Register ι}

/-- No two of the registers share a reference. -/
def Apart (rs : List (Register ι)) : Prop := rs.Pairwise fun r t => r.ids.Disjoint t.ids

theorem apart_append {rs ts : List (Register ι)} :
    Apart (rs ++ ts) ↔ Apart rs ∧ Apart ts ∧ (rs.flatMap ids).Disjoint (ts.flatMap ids) := by
  unfold Apart
  rw [List.pairwise_append]
  simp only [List.disjoint_left, List.mem_flatMap]
  grind

theorem nodup_of_slice {spec : IndexSpec} (distinct : r.ids.Nodup)
    (once : ∀ positions, spec.resolve r.length = .ok positions → positions.Nodup)
    (h : r.slice spec = .ok t) : t.ids.Nodup := by
  obtain ⟨positions, resolved, -, rfl⟩ := slice_eq_ok_iff.mp h
  refine (once positions resolved).filterMap fun i j id hi hj => ?_
  have inside := (List.getElem?_eq_some_iff.mp hi).1
  exact (List.getElem?_inj inside distinct).mp (hi.trans hj.symm)

variable [DecidableEq ι]

theorem overlaps_comm (r t : Register ι) : r.overlaps t = t.overlaps r := by
  rw [Bool.eq_iff_iff, overlaps_iff, overlaps_iff]
  exact exists_congr fun _ => and_comm

theorem overlaps_eq_false_iff : r.overlaps t = false ↔ r.ids.Disjoint t.ids := by
  rw [← Bool.not_eq_true, overlaps_iff, not_exists]
  exact forall_congr' fun _ => not_and

theorem append_eq_ok_iff_disjoint {u : Register ι} :
    r.append t = .ok u ↔ r.ids.Disjoint t.ids ∧ u = ofIds (r.ids ++ t.ids) := by
  rw [append_eq_ok_iff, overlaps_eq_false_iff]

theorem append_eq_error_iff {e : Fault} :
    r.append t = .error e ↔ r.overlaps t = true ∧ e = .selfConcatenation := by
  cases shared : r.overlaps t with
  | true => simp [append, shared, eq_comm]
  | false => simp [append, shared]

end Register

namespace RegisterExpr

variable {ι : Type}

/-- What the outer joins of an expression join, in order. -/
def operands : RegisterExpr ι → List (RegisterExpr ι)
  | append e f => e.operands ++ f.operands
  | register r => [register r]
  | slice e spec => [slice e spec]

variable [DecidableEq ι]

/-- The expression resolves to these references, in order. -/
def Names (e : RegisterExpr ι) (ids : List ι) : Prop := ∃ t, e.resolve = .ok t ∧ t.ids = ids

def TakesOnce : RegisterExpr ι → Prop
  | register _ => True
  | slice e spec => e.TakesOnce ∧ ∀ indices, spec = .set indices →
      ∀ r positions, e.resolve = .ok r → spec.resolve r.length = .ok positions → positions.Nodup
  | append e f => e.TakesOnce ∧ f.TakesOnce

variable {e f : RegisterExpr ι} {ids : List ι} {t : Register ι}

theorem names_append :
    (append e f).Names ids ↔ ∃ left right, e.Names left ∧ f.Names right ∧
      left.Disjoint right ∧ left ++ right = ids := by
  simp only [Names, resolve, bind_eq_ok_iff, Register.append_eq_ok_iff_disjoint]
  constructor
  · rintro ⟨_, ⟨r, hr, u, hu, apart, rfl⟩, rfl⟩
    exact ⟨_, _, ⟨r, hr, rfl⟩, ⟨u, hu, rfl⟩, apart, rfl⟩
  · rintro ⟨_, _, ⟨r, hr, rfl⟩, ⟨u, hu, rfl⟩, apart, rfl⟩
    exact ⟨_, ⟨r, hr, u, hu, apart, rfl⟩, rfl⟩

theorem names_iff_alone :
    e.Names ids ↔ ∃ rs, [e].mapM resolve = .ok rs ∧ Register.Apart rs ∧
      rs.flatMap Register.ids = ids := by
  simp only [Names, List.mapM_cons, List.mapM_nil, bind_eq_ok_iff, pure_eq_ok_iff]
  constructor
  · rintro ⟨r, hr, rfl⟩
    exact ⟨[r], ⟨r, hr, [], rfl, rfl⟩, List.pairwise_singleton _ r, List.flatMap_singleton _ r⟩
  · rintro ⟨_, ⟨r, hr, _, rfl, rfl⟩, -, rfl⟩
    exact ⟨r, hr, (List.flatMap_singleton _ r).symm⟩

/-- A join resolves its operands one by one, and if no two of them share a reference it lists
all that they name. -/
theorem names_iff_operands :
    e.Names ids ↔ ∃ rs, e.operands.mapM resolve = .ok rs ∧ Register.Apart rs ∧
      rs.flatMap Register.ids = ids := by
  induction e generalizing ids with
  | register | slice => exact names_iff_alone
  | append e f ihe ihf =>
    simp only [names_append, ihe, ihf, operands, List.mapM_append, bind_eq_ok_iff, pure_eq_ok_iff]
    constructor
    · rintro ⟨_, _, ⟨rs, hrs, left, rfl⟩, ⟨ts, hts, right, rfl⟩, apart, rfl⟩
      exact ⟨_, ⟨rs, hrs, ts, hts, rfl⟩, Register.apart_append.mpr ⟨left, right, apart⟩,
        List.flatMap_append⟩
    · rintro ⟨_, ⟨rs, hrs, ts, hts, rfl⟩, apart, rfl⟩
      obtain ⟨left, right, apart⟩ := Register.apart_append.mp apart
      exact ⟨_, _, ⟨rs, hrs, left, rfl⟩, ⟨ts, hts, right, rfl⟩, apart, List.flatMap_append.symm⟩

theorem names_join_iff {rs : List (Register ι)} (joins : e.operands = rs.map register) :
    e.Names ids ↔ Register.Apart rs ∧ rs.flatMap Register.ids = ids := by
  have resolved : (rs.map register).mapM resolve = .ok rs := mapM_map_of_inverse fun _ _ => rfl
  rw [names_iff_operands, joins, resolved]
  simp only [Except.ok.injEq, exists_eq_left']

theorem nodup_of_resolve (distinct : e.Over fun r => r.ids.Nodup) (once : e.TakesOnce)
    (h : e.resolve = .ok t) : t.ids.Nodup := by
  induction e generalizing t with
  | register r =>
    cases h
    exact distinct
  | slice e spec ih =>
    obtain ⟨r, hr, part⟩ := bind_eq_ok_iff.mp h
    refine Register.nodup_of_slice (ih distinct once.1 hr) (fun positions resolved => ?_) part
    by_cases listed : ∃ indices, spec = .set indices
    · obtain ⟨indices, same⟩ := listed
      exact once.2 indices same r positions hr resolved
    · exact IndexSpec.nodup_of_resolve (fun indices same => listed ⟨indices, same⟩) resolved
  | append e f ihe ihf =>
    obtain ⟨r, hr, h⟩ := bind_eq_ok_iff.mp h
    obtain ⟨u, hu, h⟩ := bind_eq_ok_iff.mp h
    obtain ⟨apart, rfl⟩ := Register.append_eq_ok_iff_disjoint.mp h
    exact List.nodup_append'.mpr ⟨ihe distinct.1 once.1 hr, ihf distinct.2 once.2 hu, apart⟩

end RegisterExpr

namespace Register

variable {ι : Type} [DecidableEq ι]

/-- Registers overlap if some reference is in both, whichever comes first, and only then they
cannot be joined. Three of them, or any number, can be joined just when no two overlap, and
the references stay in order whatever the brackets. An expression of registers without
repetitions, whose slices take no position twice, has no repetitions. -/
theorem joins_apart :
    (∀ a b : Register ι,
      (a.overlaps b = true ↔ ∃ id, id ∈ a.ids ∧ id ∈ b.ids) ∧ a.overlaps b = b.overlaps a ∧
      (∀ t, a.append b = .ok t ↔ a.overlaps b = false ∧ t = ofIds (a.ids ++ b.ids)) ∧
      ∀ e, a.append b = .error e ↔ a.overlaps b = true ∧ e = .selfConcatenation) ∧
    (∀ (a b c : Register ι) (ids : List ι),
      ((∃ t, (do (← a.append b).append c) = .ok t ∧ t.ids = ids) ↔
        Apart [a, b, c] ∧ a.ids ++ b.ids ++ c.ids = ids) ∧
      ((∃ t, (do a.append (← b.append c)) = .ok t ∧ t.ids = ids) ↔
        Apart [a, b, c] ∧ a.ids ++ b.ids ++ c.ids = ids)) ∧
    (∀ (e : RegisterExpr ι) (rs : List (Register ι)) (ids : List ι),
      e.operands = rs.map .register → (e.Names ids ↔ Apart rs ∧ rs.flatMap Register.ids = ids)) ∧
    ∀ e : RegisterExpr ι, e.Over (fun r => r.ids.Nodup) → e.TakesOnce →
      ∀ t, e.resolve = .ok t → t.ids.Nodup := by
  refine ⟨fun a b => ⟨overlaps_iff, overlaps_comm a b, fun _ => append_eq_ok_iff,
    fun _ => append_eq_error_iff⟩, fun a b c ids => ?_, fun e rs ids => RegisterExpr.names_join_iff,
    fun e distinct once t => RegisterExpr.nodup_of_resolve distinct once⟩
  have inOrder : [a, b, c].flatMap Register.ids = a.ids ++ b.ids ++ c.ids := by simp
  rw [← inOrder]
  constructor
  · let left : RegisterExpr ι := .append (.append (.register a) (.register b)) (.register c)
    exact RegisterExpr.names_join_iff (e := left) rfl
  · let right : RegisterExpr ι := .append (.register a) (.append (.register b) (.register c))
    exact RegisterExpr.names_join_iff (e := right) rfl

theorem joins_apart_of_nested :
    let a : QubitRegister := ofIds [⟨0⟩, ⟨1⟩, ⟨2⟩]
    let b : QubitRegister := ofIds [⟨3⟩, ⟨4⟩, ⟨5⟩]
    let outer : RegisterExpr QubitId := .slice (.register a) (.set [-1, 0])
    let upper : RegisterExpr QubitId :=
      .slice (.append (.register a) (.register b)) (.range (some (-3)) none none)
    let e : RegisterExpr QubitId := .append outer (.append (.slice (.register a) (.single 1)) upper)
    (e.Over (fun r => r.ids.Nodup) ∧ e.TakesOnce) ∧
      e.resolve = .ok (ofIds [⟨2⟩, ⟨0⟩, ⟨1⟩, ⟨3⟩, ⟨4⟩, ⟨5⟩]) ∧
      ([⟨2⟩, ⟨0⟩, ⟨1⟩, ⟨3⟩, ⟨4⟩, ⟨5⟩] : List QubitId).Nodup := by
  intro a b outer upper e
  have ha : a.ids.Nodup := by decide
  have hb : b.ids.Nodup := by decide
  have distinct : e.Over fun r => r.ids.Nodup := ⟨ha, ha, ha, hb⟩
  have once : e.TakesOnce := by
    refine ⟨⟨trivial, ?_⟩, ⟨trivial, nofun⟩, ⟨trivial, trivial⟩, nofun⟩
    rintro indices - r positions resolved taken
    cases resolved
    have ends : (IndexSpec.set [-1, 0]).resolve a.length = .ok [2, 0] := by decide
    cases ends.symm.trans taken
    decide
  have resolved : e.resolve = .ok (ofIds [⟨2⟩, ⟨0⟩, ⟨1⟩, ⟨3⟩, ⟨4⟩, ⟨5⟩]) := by decide
  exact ⟨⟨distinct, once⟩, resolved, joins_apart.2.2.2 e distinct once _ resolved⟩

end Register

end QasmValues
