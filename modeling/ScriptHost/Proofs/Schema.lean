import ScriptHost.Proofs.Host.Run

/-!
# Schemas stay

A cell that has become something stays it. Whatever a program does, a value that is not Null keeps
its kind; an array keeps its start, its policy and the type of its elements; a structure keeps its
type and its members, which are the same values under the same names; a number keeps its bounds, and
an integer lies in them at every moment: `Host.schema_stable`.

What one change can put in place of some contents is `Data.Keeps`. It is reflexive and transitive,
so the frames of single changes compose to the frame of a run (`Heap.Changes.keeps`). The one cell
that can take on another schema is an unlocked Null, and it takes it over from contents that obey
theirs.
-/

set_option autoImplicit false

namespace ScriptHost

namespace Heap

variable {P : Handle → Prop} {h h' : Heap} {v : Handle}

/-- What stays of every cell from one heap to another. -/
structure SchemaKept (h h' : Heap) : Prop where
  kind : ∀ v, h.kind v ≠ .null → h'.kind v = h.kind v
  array : ∀ v s, h.data v = .array s →
    ∃ t, h'.data v = .array t ∧ t.start = s.start ∧ t.policy = s.policy ∧ t.element = s.element
  record : ∀ v r, h.data v = .record r → h'.data v = .record r
  integer : ∀ v i b, h.data v = .leaf (.integer i b) → ∃ j, h'.data v = .leaf (.integer j b)
  real : ∀ v r b, h.data v = .leaf (.real r b) → ∃ q, h'.data v = .leaf (.real q b)

theorem Changes.schemaKept (changes : Changes P h h') : SchemaKept h h' := by
  have keeps : ∀ v d, h.data v = d → d.kind ≠ .null → d.Keeps (h'.data v) := by
    rintro v _ rfl other
    exact changes.keeps (made_of_kind other)
  refine ⟨fun v => changes.kind, ?_, ?_, ?_, ?_⟩
  · intro v s held
    obtain ⟨t, after, start, element, policy⟩ := keeps v _ held (by simp [Data.kind])
    exact ⟨t, after, start, policy, element⟩
  · intro v r held
    exact keeps v _ held (by simp [Data.kind])
  · intro v i b held
    exact keeps v _ held (by simp [Data.kind, Leaf.kind])
  · intro v r b held
    exact keeps v _ held (by simp [Data.kind, Leaf.kind])

/-- Integers with bounds lie in them. -/
theorem WellFormed.inBounds (formed : h.WellFormed) {i : Integer} {b : Bounds Integer}
    (held : h.data v = .leaf (.integer i (some b))) : b.least ≤ i ∧ i ≤ b.greatest := by
  have fits := formed.fits v i b held
  simpa [Bounds.holds] using fits

end Heap

namespace Host

/-- **Schema stability.** From a reachable state to every later one, cells keep their kind, arrays
their start, policy and element type, structures their type and members, and numbers their bounds;
and in both states every integer with bounds lies in them. -/
theorem schema_stable {s t : Host} (reachable : s.Reachable) (later : Run (fun _ => True) s t) :
    Heap.SchemaKept s.heap t.heap ∧
    (∀ v i b, s.heap.data v = .leaf (.integer i (some b)) → b.least ≤ i ∧ i ≤ b.greatest) ∧
    (∀ v i b, t.heap.data v = .leaf (.integer i (some b)) → b.least ≤ i ∧ i ≤ b.greatest) := by
  obtain ⟨after, changes⟩ := later.owning reachable.owning
  refine ⟨changes.schemaKept, ?_, ?_⟩
  · intro v i b held
    exact reachable.wellFormed.inBounds held
  · intro v i b held
    exact after.region.formed.inBounds held

/-- A declared integer from 1 to 6 that rolls over, and a Null: the first is assigned a text that
lies outside and a list, the second is given a structure. -/
theorem schema_stable_die :
    let die := TypeSpec.rangedInteger 1 6 .rollover
    let s := Session.after (.bare .default)
      [.hold "die" (.unary .declare (.literal (.type die))), .hold "blank" (.literal .placeholder)]
    let t := Session.after s
      [.binary .assign (.held "die") (.literal (.string "10 eyes")),
        .binary .assign (.held "die") (.array 1 [] .refuse),
        .binary .assign (.held "blank") (.record [("die", .held "die")])]
    s.heap.kind ⟨2⟩ = .null ∧ t.heap.kind ⟨2⟩ = .record ∧
      ∃ i, t.heap.data ⟨1⟩ = .leaf (.integer i (some ⟨1, 6, .rollover, by decide⟩)) ∧
      1 ≤ i ∧ i ≤ 6 := by
  intro die s t
  have reachable : s.Reachable := reachable_after ⟨.default, true, [], none⟩ _
  obtain ⟨kept, -, inside⟩ := schema_stable reachable (run_after s _ : Run _ s t)
  obtain ⟨i, held⟩ := kept.integer ⟨1⟩ 1 (some ⟨1, 6, .rollover, by decide⟩) rfl
  exact ⟨by decide +kernel, by decide +kernel, i, held, inside ⟨1⟩ i _ held⟩

end Host

end ScriptHost
