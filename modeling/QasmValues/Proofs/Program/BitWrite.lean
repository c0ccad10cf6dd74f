import QasmValues.Proofs.Program.Typing

/-! The effect of writing bits by name.
A name may resolve to a register, an alias or a scalar. Through a register the bits
that it selects are written in storage, and whatever other register or alias lists
one of them reads the last value written to it. A scalar is written in the one
binding that the name resolves to. -/

namespace QasmValues

namespace Register

variable {ι : Type} {r t : Register ι} {spec : IndexSpec}

theorem positions_of_slice (h : r.slice spec = .ok t) :
    ∃ positions, spec.resolve r.length = .ok positions ∧
      List.Forall₂ (fun position id => r.ids[position]? = some id) positions t.ids := by
  obtain ⟨positions, resolved, -, rfl⟩ := slice_eq_ok_iff.mp h
  refine ⟨positions, resolved, ?_⟩
  have inside := IndexSpec.resolve_lt resolved
  clear resolved h
  rw [ofIds]
  induction positions with
  | nil => exact .nil
  | cons position positions ih =>
    obtain ⟨here, rest⟩ := List.forall_mem_cons.mp inside
    have id := List.getElem?_eq_getElem here
    rw [List.filterMap_cons_some id]
    exact .cons id (ih rest)

end Register

namespace Storage

variable {s t : Storage}

/-- The storage `t` is `s` with values written to a list of bits, as any allocated
register reads it: a written bit has the last value for it, another its old one. -/
structure Overwritten (s : Storage) (ids : List BitId) (value : Bits) (t : Storage) : Prop where
  qubits : t.qubits = s.qubits
  count : t.bits.length = s.bits.length
  read : ∀ m : BitRegister, m.Allocated s → ∃ before after,
    m.read s = .ok before ∧ m.read t = .ok after ∧ ∀ (j : Nat) id, m.ids[j]? = some id →
      (id ∈ ids → ∃ k bit, LastAt ids id k ∧ value.toList[k]? = some bit ∧
        after.toList[j]? = some bit) ∧
      (id ∉ ids → after.toList[j]? = before.toList[j]?)

end Storage

namespace Register

variable {r m : BitRegister} {s t : Storage} {value b : Bits} {spec : IndexSpec}

theorem getElem?_of_read (read : m.read s = .ok b) {j : Nat} {id : BitId}
    (held : m.ids[j]? = some id) : b.toList[j]? = s.bits[id.index]? := by
  obtain ⟨allocated, rfl⟩ := read_eq_ok_iff.mp read
  have bound := allocated id (List.mem_of_getElem? held)
  simp [places, held, bound]

theorem length_places_of_write (h : r.write s value = .ok t) :
    r.places.length = value.toList.length := by
  rw [length_places]
  exact (write_eq_ok_iff.mp h).1.symm

theorem Allocated.of_write (known : m.Allocated s) (h : r.write s value = .ok t) :
    m.Allocated t := by
  obtain ⟨-, -, rfl⟩ := write_eq_ok_iff.mp h
  intro id member
  rw [length_overwrite]
  exact known id member

theorem overwritten_of_write (h : r.write s value = .ok t) : s.Overwritten r.ids value t := by
  have same := length_places_of_write h
  have kept (m : BitRegister) (known : m.Allocated s) := known.of_write h
  obtain ⟨-, allocated, rfl⟩ := write_eq_ok_iff.mp h
  refine ⟨rfl, length_overwrite _ _, fun m known => ?_⟩
  have before := read_eq_ok_iff.mpr ⟨known, rfl⟩
  have after := read_eq_ok_iff.mpr ⟨kept m known, rfl⟩
  refine ⟨_, _, before, after, fun j id held => ⟨fun member => ?_, fun other => ?_⟩⟩
  · obtain ⟨k, last⟩ := exists_lastAt member
    have place : LastAt r.places id.index k := (lastAt_map BitId.index_injective).mpr last
    have inside : k < value.toList.length := same ▸ (List.getElem?_eq_some_iff.mp place.1).1
    have bit := List.getElem?_eq_getElem inside
    refine ⟨k, _, last, bit, ?_⟩
    rw [getElem?_of_read after held, ← bit]
    exact getElem?_overwrite_lastAt same place (allocated id member)
  · have elsewhere : id.index ∉ r.places := by
      rw [places, List.mem_map_of_injective BitId.index_injective]
      exact other
    rw [getElem?_of_read after held, getElem?_of_read before held]
    exact getElem?_overwrite_zip_of_not_mem elsewhere

theorem read_of_write (h : r.write s value = .ok t) (distinct : r.ids.Nodup) :
    r.read t = .ok value := by
  have same := length_places_of_write h
  have kept (known : r.Allocated s) := known.of_write h
  obtain ⟨-, allocated, rfl⟩ := write_eq_ok_iff.mp h
  have alone := distinct.map BitId.index_injective
  have held := map_getD_overwrite_zip false alone (places_lt allocated) same
  exact read_eq_ok_iff.mpr ⟨kept allocated, congrArg Bits.mk held.symm⟩

theorem overwritten_of_writeSlice (h : r.writeSlice s spec value = .ok t) :
    ∃ part, r.slice spec = .ok part ∧ s.Overwritten part.ids value t ∧
      (part.ids.Nodup → r.readSlice t spec = .ok value) := by
  obtain ⟨part, sliced, written⟩ := bind_eq_ok_iff.mp h
  refine ⟨part, sliced, overwritten_of_write written, fun distinct => ?_⟩
  rw [readSlice, sliced]
  exact read_of_write written distinct

end Register

namespace Program

variable {p q : Program} {name : String} {spec : IndexSpec} {value : Bits} {old new : Binding}
variable {x y : Scalar}

theorem lookup_of_bits {r : BitRegister} (found : p.bits name = .ok r) :
    p.scopes.lookup name = .ok (.bits r) ∨ p.scopes.lookup name = .ok (.bitAlias r) := by
  obtain ⟨binding, lookup, found⟩ := bind_eq_ok_iff.mp found
  cases binding with
  | bits =>
    cases found
    exact .inl lookup
  | bitAlias =>
    cases found
    exact .inr lookup
  | scalar | array | qubits | qubitAlias => cases found

theorem readBits_of_bits {r : BitRegister} (found : p.bits name = .ok r) :
    p.readBits name spec = r.readSlice p.storage spec := by
  unfold readBits
  obtain lookup | lookup := lookup_of_bits found
  all_goals
    rw [lookup]
    rfl

theorem Rebinds.lookup (h : p.Rebinds name old new q) :
    p.scopes.lookup name = .ok old ∧ q.scopes.lookup name = .ok new := by
  obtain ⟨found⟩ := h
  constructor
  · exact Scopes.lookup_eq_ok_iff.mpr (Scopes.lookup?_eq_some_iff.mpr found)
  · exact Scopes.lookup_eq_ok_iff.mpr (Scopes.lookup?_eq_some_iff.mpr found.replaceIn)

/-- The state `q` is `p` with bits of the scalar `x`, which a name resolves to,
overwritten, by which it became `y`. -/
structure ScalarWritten (p : Program) (name : String) (spec : IndexSpec) (value : Bits)
    (x y : Scalar) (q : Program) : Prop where
  policy : q.policy = p.policy
  storage : q.storage = p.storage
  scopes : Scopes.Updates name (.scalar x) (.scalar y) p.scopes.frames q.scopes.frames
  type : y.type = x.type
  bits : ∃ b c, x.bits = .ok b ∧ b.setSlice spec value = .ok c ∧ y.bits = .ok c

theorem Rebinds.scalarWritten (bound : p.Rebinds name (.scalar x) (.scalar y) q)
    (nested : Scopes.Nested p.scopes.frames) (typed : p.Typed)
    (written : x.setSlice spec value = .ok y) : p.ScalarWritten name spec value x y q := by
  have valid : x.type.Valid := bound.typed_old typed
  obtain ⟨b, c, bits, set, type, held⟩ := Scalar.bits_of_setSlice valid written
  obtain ⟨found⟩ := bound
  exact ⟨rfl, rfl, Scopes.updates_replaceIn nested.distinct found, type, b, c, bits, set, held⟩

theorem ScalarWritten.readBits (h : p.ScalarWritten name spec value x y q)
    (found : q.scopes.lookup name = .ok (.scalar y)) {b : Bits} {positions : List Nat}
    (bits : x.bits = .ok b) (resolved : spec.resolve b.length = .ok positions)
    (distinct : positions.Nodup) : q.readBits name spec = .ok value := by
  obtain ⟨_, c, same, set, held⟩ := h.bits
  rw [bits] at same
  cases same
  rw [Program.readBits, found]
  change y.slice spec = .ok value
  rw [Scalar.slice, held]
  exact Bits.slice_of_setSlice set resolved distinct

/-- Writing bits through a name in any state that a program can reach. The name is
that of a register, an alias or a scalar. Through a register or an alias the selected
bits are overwritten for all that list them, and nothing is bound anew. Of a scalar
the innermost binding changes, in the selected bits only. Where no bit is selected
twice, the bits written are read back. -/
theorem writeBits_effect (policy : Policy) (ops : List Operation) (name : String)
    (spec : IndexSpec) (value : Bits) (q : Program)
    (done : (Action.writeBits name spec value).outcome (run (initial policy) ops) = (.ok (), q)) :
    let p := run (initial policy) ops
    ((∃ r, p.bits name = .ok r) ∨ ∃ x, p.scopes.lookup name = .ok (.scalar x)) ∧
    (∀ r, p.bits name = .ok r → ∃ positions ids, spec.resolve r.length = .ok positions ∧
      List.Forall₂ (fun position id => r.ids[position]? = some id) positions ids ∧
      q.policy = p.policy ∧ q.scopes = p.scopes ∧ p.storage.Overwritten ids value q.storage ∧
      (ids.Nodup → q.readBits name spec = .ok value)) ∧
    (∀ x, p.scopes.lookup name = .ok (.scalar x) → ∃ y, p.ScalarWritten name spec value x y q ∧
      ∀ b positions, x.bits = .ok b → spec.resolve b.length = .ok positions → positions.Nodup →
        q.readBits name spec = .ok value) := by
  intro p
  have nested : Scopes.Nested p.scopes.frames := ((owned_initial policy).run ops).nested
  have typed : p.Typed := (typed_initial policy).run ops
  have step := Action.step_writeBits done
  cases step with
  | @writeRegister _ _ _ r storage found written =>
    refine ⟨.inl ⟨r, found⟩, fun s again => ?_, fun x lookup => ?_⟩
    · obtain rfl : r = s := Except.ok.inj (found.symm.trans again)
      obtain ⟨part, sliced, overwritten, back⟩ := Register.overwritten_of_writeSlice written
      obtain ⟨positions, resolved, listed⟩ := Register.positions_of_slice sliced
      refine ⟨positions, part.ids, resolved, listed, rfl, rfl, overwritten, fun distinct => ?_⟩
      have kept : Program.bits { p with storage } name = .ok r := found
      exact (readBits_of_bits kept).trans (back distinct)
    · obtain other | other := lookup_of_bits found
      all_goals
        rw [lookup] at other
        cases other
  | @writeScalar _ _ _ x y _ written bound =>
    obtain ⟨before, after⟩ := bound.lookup
    refine ⟨.inr ⟨x, before⟩, fun r found => ?_, fun other lookup => ?_⟩
    · obtain other | other := lookup_of_bits found
      all_goals
        rw [before] at other
        cases other
    · rw [before] at lookup
      cases lookup
      have effect := bound.scalarWritten nested typed written
      exact ⟨y, effect, fun b positions => effect.readBits after⟩

theorem writeBits_effect_of_hiding :
    let ops : List Operation :=
      [.declareBits "b" 3 none, .declareScalar "n" (.int 8) none, .enterScope,
        .aliasBits "pair" (.ofIds [⟨2⟩, ⟨0⟩]), .declareScalar "n" (.uint 4) none]
    let p := run (initial ⟨.round, .forbid⟩) ops
    let value : Bits := ⟨[true, false]⟩
    (∃ q, (Action.writeBits "pair" .full value).outcome p = (.ok (), q) ∧
      p.storage.Overwritten [⟨2⟩, ⟨0⟩] value q.storage ∧ q.readBits "pair" .full = .ok value) ∧
    ∃ y q, (Action.writeBits "n" (.set [-1, 0]) value).outcome p = (.ok (), q) ∧
      p.ScalarWritten "n" (.set [-1, 0]) value (.uint 0 4) y q ∧
      q.readBits "n" (.set [-1, 0]) = .ok value := by
  intro ops p value
  constructor
  · let q := ((Action.writeBits "pair" .full value).outcome p).2
    have done : (Action.writeBits "pair" .full value).outcome p = (.ok (), q) := by decide +kernel
    have found : p.bits "pair" = .ok ⟨[⟨2⟩, ⟨0⟩], some "pair"⟩ := by decide +kernel
    obtain ⟨positions, ids, resolved, listed, -, -, written, back⟩ :=
      (writeBits_effect _ ops "pair" .full value q done).2.1 _ found
    obtain rfl : [0, 1] = positions := Except.ok.inj resolved
    obtain _ | ⟨⟨⟩, _ | ⟨⟨⟩, ⟨⟩⟩⟩ := listed
    exact ⟨q, done, written, back (by decide)⟩
  · let q := ((Action.writeBits "n" (.set [-1, 0]) value).outcome p).2
    have done : (Action.writeBits "n" (.set [-1, 0]) value).outcome p = (.ok (), q) := by
      decide +kernel
    have found : p.scopes.lookup "n" = .ok (.scalar (.uint 0 4)) := by decide +kernel
    obtain ⟨y, written, back⟩ := (writeBits_effect _ ops "n" _ value q done).2.2 _ found
    have read := back (.zeros 4) [3, 0] (by decide) (by decide) (by decide)
    exact ⟨y, q, done, written, read⟩

end Program

end QasmValues
