import Mathlib.Data.List.Nodup
import QasmValues.Overwrite

/-! Further laws of writing a list of cells in order.
Where values are written to a list of places, the last mention of a place decides
what its cell holds. -/

namespace QasmValues

variable {α : Type}

theorem overwrite_append_range' (cells suffix values : List α)
    (same : values.length = suffix.length) :
    overwrite (cells ++ suffix) ((List.range' cells.length suffix.length).zip values) =
      cells ++ values := by
  induction values generalizing cells suffix with
  | nil =>
    rw [List.zip_nil_right, overwrite_nil, List.eq_nil_of_length_eq_zero same.symm]
  | cons value values ih =>
    cases suffix with
    | nil => cases same
    | cons cell suffix =>
      have step := ih (cells ++ [value]) suffix (Nat.succ.inj same)
      rw [List.length_append, List.length_singleton] at step
      simpa [List.range'_succ, List.set_append_right] using step

/-- Where no two places are equal, writing cells through places is writing to the
list of their contents. -/
theorem map_getD_overwrite (blank : α) (cells : List α) {places : List Nat}
    (distinct : places.Nodup) (inside : ∀ place ∈ places, place < cells.length)
    (writes : List (Nat × α)) (within : ∀ write ∈ writes, write.1 < places.length) :
    places.map ((overwrite cells (writes.map fun write =>
        (places.getD write.1 0, write.2))).getD · blank) =
      overwrite (places.map (cells.getD · blank)) writes := by
  induction writes generalizing cells with
  | nil => rfl
  | cons write writes ih =>
    obtain ⟨hw, rest⟩ := List.forall_mem_cons.mp within
    have place : places.getD write.1 0 = places[write.1] := by
      rw [List.getD_eq_getElem?_getD, List.getElem?_eq_getElem hw, Option.getD_some]
    have step : places.map ((cells.set places[write.1] write.2).getD · blank) =
        (places.map (cells.getD · blank)).set write.1 write.2 := by
      refine List.ext_getElem (by simp) fun i hi _ => ?_
      rw [List.length_map] at hi
      have hp := inside places[i] (List.getElem_mem hi)
      by_cases same : write.1 = i
      · subst same
        simp [hp]
      · have other : places[write.1] ≠ places[i] := fun h =>
          same ((distinct.getElem_inj_iff).mp h)
        simp [same, other, hp]
    rw [List.map_cons, overwrite_cons, overwrite_cons, place, ← step]
    exact ih _ (by simpa using inside) rest

theorem overwrite_zip_map_self {cells : List α} {places : List Nat} {content : Nat → α}
    (h : ∀ place ∈ places, cells[place]? = some (content place)) :
    overwrite cells (places.zip (places.map content)) = cells := by
  induction places with
  | nil => rfl
  | cons place places ih =>
    obtain ⟨here, rest⟩ := List.forall_mem_cons.mp h
    obtain ⟨inside, held⟩ := List.getElem?_eq_some_iff.mp here
    rw [List.map_cons, List.zip_cons_cons, overwrite_cons, ← held, List.set_getElem_self]
    exact ih rest

theorem mem_overwrite {cells : List α} {writes : List (Nat × α)} {content : α}
    (member : content ∈ overwrite cells writes) :
    content ∈ cells ∨ ∃ write ∈ writes, write.2 = content := by
  induction writes generalizing cells with
  | nil => exact .inl member
  | cons write writes ih =>
    obtain earlier | ⟨later, inside, same⟩ := ih member
    · obtain old | rfl := List.mem_or_eq_of_mem_set earlier
      · exact .inl old
      · exact .inr ⟨write, List.mem_cons_self, rfl⟩
    · exact .inr ⟨later, List.mem_cons_of_mem _ inside, same⟩

/-! ### The last mention of a place -/

variable {ι κ : Type}

/-- The last mention of a place in a list of places. -/
def LastAt (places : List ι) (place : ι) (k : Nat) : Prop :=
  places[k]? = some place ∧ ∀ later, k < later → places[later]? ≠ some place

variable {places : List ι} {place first : ι} {k : Nat}

theorem lastAt_cons_zero : LastAt (first :: places) place 0 ↔ first = place ∧ place ∉ places := by
  rw [LastAt, List.getElem?_cons_zero, Option.some.injEq, List.mem_iff_getElem?, not_exists]
  refine and_congr_right fun _ => ⟨fun h later => h (later + 1) (Nat.succ_pos later), fun h => ?_⟩
  rintro (_ | later) after
  · exact absurd after (Nat.lt_irrefl 0)
  · exact h later

theorem lastAt_cons_succ : LastAt (first :: places) place (k + 1) ↔ LastAt places place k := by
  rw [LastAt, LastAt, List.getElem?_cons_succ]
  refine and_congr_right fun _ => ⟨fun h later after => ?_, fun h => ?_⟩
  · exact h (later + 1) (Nat.succ_lt_succ after)
  · rintro (_ | later) after
    · exact absurd after (Nat.not_lt_zero _)
    · exact h later (Nat.lt_of_succ_lt_succ after)

theorem exists_lastAt (h : place ∈ places) : ∃ k, LastAt places place k := by
  induction places with
  | nil => cases h
  | cons first places ih =>
    by_cases again : place ∈ places
    · obtain ⟨k, last⟩ := ih again
      exact ⟨k + 1, lastAt_cons_succ.mpr last⟩
    · obtain rfl | later := List.mem_cons.mp h
      · exact ⟨0, lastAt_cons_zero.mpr ⟨rfl, again⟩⟩
      · exact absurd later again

theorem lastAt_of_nodup (distinct : places.Nodup) (h : places[k]? = some place) :
    LastAt places place k := by
  refine ⟨h, fun later after again => ?_⟩
  have inside := (List.getElem?_eq_some_iff.mp h).1
  exact Nat.ne_of_lt after ((List.getElem?_inj inside distinct).mp (h.trans again.symm))

theorem lastAt_map {f : ι → κ} (injective : Function.Injective f) :
    LastAt (places.map f) (f place) k ↔ LastAt places place k := by
  have same (i : Nat) : (places.map f)[i]? = some (f place) ↔ places[i]? = some place := by
    rw [List.getElem?_map, ← Option.map_some, (Option.map_injective injective).eq_iff]
  simp only [LastAt, same, ne_eq]

theorem getElem?_overwrite_zip_of_not_mem {cells values : List α} {places : List Nat} {place : Nat}
    (h : place ∉ places) : (overwrite cells (places.zip values))[place]? = cells[place]? := by
  refine getElem?_overwrite_of_not_mem cells _ place fun write member same => ?_
  exact h (same ▸ (List.of_mem_zip member).1)

theorem getElem?_overwrite_lastAt {cells values : List α} {places : List Nat} {place : Nat}
    (same : places.length = values.length) (last : LastAt places place k)
    (inside : place < cells.length) :
    (overwrite cells (places.zip values))[place]? = values[k]? := by
  induction places generalizing cells values k with
  | nil => cases last.1
  | cons first places ih =>
    cases values with
    | nil => cases same
    | cons value values =>
      rw [List.zip_cons_cons, overwrite_cons]
      cases k with
      | zero =>
        obtain ⟨rfl, never⟩ := lastAt_cons_zero.mp last
        rw [getElem?_overwrite_zip_of_not_mem never, List.getElem?_set_self inside]
        rfl
      | succ k =>
        have rest := lastAt_cons_succ.mp last
        rw [ih (Nat.succ.inj same) rest (by simpa using inside)]
        rfl

theorem map_getD_overwrite_zip (blank : α) {cells values : List α} {places : List Nat}
    (distinct : places.Nodup) (inside : ∀ place ∈ places, place < cells.length)
    (same : places.length = values.length) :
    places.map ((overwrite cells (places.zip values)).getD · blank) = values := by
  refine List.ext_getElem (by simpa using same) fun i hi hv => ?_
  rw [List.length_map] at hi
  have last := lastAt_of_nodup distinct (List.getElem?_eq_getElem hi)
  have value := getElem?_overwrite_lastAt same last (inside _ (List.getElem_mem hi))
  rw [List.getElem_map, List.getD_eq_getElem?_getD, value, List.getElem?_eq_getElem hv,
    Option.getD_some]

end QasmValues
