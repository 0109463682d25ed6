import ScriptHost.Program.Expr

/-!
# Settings

What a host is started with: the limit of its stack, the seed of its random stream, and whether it
traces calls. Settings are read from a record of plain data, in which a field that is missing has
its default and a field that is not known is passed over.
-/

set_option autoImplicit false

namespace ScriptHost

/-- What a host is started with. -/
structure Settings where
  stackLimit : Nat
  seed : UInt64
  trace : Bool
deriving DecidableEq, Repr

namespace Settings

/-- The settings of a host that is given none. -/
def default : Settings := ⟨1000, 0x5EED5A911C0FFEE5, false⟩

/-- A number that fits a 64-bit word, below `2 ^ 64`. -/
def word? : Datum → Option Nat
  | .integer i => if 0 ≤ i ∧ i < 18446744073709551616 then some i.toNat else none
  | _ => none

/-- A Boolean. -/
def flag? : Datum → Option Bool
  | .boolean b => some b
  | _ => none

/-- The field of a record, read, or its default when it is missing. -/
def field {α : Type} (read : Datum → Option α) (missing : α) (fields : List (String × Datum))
    (name : String) : Option α :=
  match fields.lookup name with
  | some d => read d
  | none => some missing

/-- The settings that a record spells. -/
def ofDatum? : Datum → Option Settings
  | .record fields => do
    let limit ← field word? default.stackLimit fields "max_stack_depth"
    let seed ← field word? default.seed.toNat fields "rng_seed"
    let trace ← field flag? default.trace fields "trace"
    return ⟨limit, UInt64.ofNat seed, trace⟩
  | _ => none

end Settings

end ScriptHost
