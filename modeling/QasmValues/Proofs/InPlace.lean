import QasmValues.Fault
import QasmValues.Overwrite

/-! Updates in place.
An update in place reports an outcome and leaves a state, and one that fails in the middle
leaves what came before. Stores to cells fail only outside of them, so that an update which
finds its places first is carried out as a whole or not at all. -/

namespace QasmValues

variable {α : Type}

/-- What an update leaves of `old`: a fault leaves all of it. -/
def settle (old : α) : Except Fault α → α
  | .ok new => new
  | .error _ => old

theorem settle_of_forall {P : α → Prop} {old : α} {update : Except Fault α}
    (before : P old) (after : ∀ new, update = .ok new → P new) : P (settle old update) := by
  cases update with
  | error => exact before
  | ok new => exact after new rfl

/-- What an update in place reports and leaves: after a fault nothing has changed. -/
def concluded (old : α) : Except Fault α → Except Fault Unit × α
  | .ok new => (.ok (), new)
  | .error e => (.error e, old)

theorem concluded_snd (old : α) (update : Except Fault α) :
    (concluded old update).2 = settle old update := by
  cases update <;> rfl

/-- Store in order, in place. A place outside the cells fails there and keeps what was stored
before it. -/
def storeEach (cells : List α) : List (Nat × α) → Except Fault Unit × List α
  | [] => (.ok (), cells)
  | (place, content) :: writes =>
    if place < cells.length then storeEach (cells.set place content) writes
    else (.error (.indexOutOfRange place cells.length), cells)

theorem storeEach_of_inside {cells : List α} {writes : List (Nat × α)}
    (inside : ∀ write ∈ writes, write.1 < cells.length) :
    storeEach cells writes = (.ok (), overwrite cells writes) := by
  induction writes generalizing cells with
  | nil => rfl
  | cons write writes ih =>
    obtain ⟨here, rest⟩ := List.forall_mem_cons.mp inside
    have length : (cells.set write.1 write.2).length = cells.length := List.length_set
    rw [storeEach, if_pos here, ih (by rwa [length]), overwrite_cons]

end QasmValues
