/-! Writing a list of cells in order.
A later write to the same cell wins, and a write outside the list is lost. -/

namespace QasmValues

def overwrite {α : Type} (cells : List α) (writes : List (Nat × α)) : List α :=
  writes.foldl (fun cells write => cells.set write.1 write.2) cells

variable {α : Type} (cells : List α)

@[simp] theorem overwrite_nil : overwrite cells [] = cells := rfl

@[simp] theorem overwrite_cons (write : Nat × α) (writes : List (Nat × α)) :
    overwrite cells (write :: writes) = overwrite (cells.set write.1 write.2) writes := rfl

@[simp] theorem length_overwrite (writes : List (Nat × α)) :
    (overwrite cells writes).length = cells.length := by
  induction writes generalizing cells with
  | nil => rfl
  | cons write writes ih => rw [overwrite_cons, ih, List.length_set]

theorem overwrite_append (first second : List (Nat × α)) :
    overwrite cells (first ++ second) = overwrite (overwrite cells first) second :=
  List.foldl_append

theorem getElem?_overwrite_of_not_mem (writes : List (Nat × α)) (position : Nat)
    (h : ∀ write ∈ writes, write.1 ≠ position) :
    (overwrite cells writes)[position]? = cells[position]? := by
  induction writes generalizing cells with
  | nil => rfl
  | cons write writes ih =>
    rw [overwrite_cons, ih _ fun w hw => h w (List.mem_cons_of_mem _ hw),
      List.getElem?_set_ne (h write (List.mem_cons_self ..))]

end QasmValues
