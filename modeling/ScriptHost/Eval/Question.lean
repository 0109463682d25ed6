import ScriptHost.Host.Call
import ScriptHost.Library.Version

/-!
# Answers to questions

The reports for questions about numbers, names, faults, types and settings, none of which needs the
state of a host.
-/

set_option autoImplicit false

namespace ScriptHost

/-- Settings as a report. -/
def Settings.report (s : Settings) : Report :=
  .record [("max_stack_depth", .number s.stackLimit), ("rng_seed", .number s.seed.toNat),
    ("trace", .flag s.trace)]

/-- A fault in full as a report. -/
def Fault.report (f : Fault) : Report :=
  .record [("kind", .text f.kind.name), ("index", .number f.kind.index),
    ("message", .text f.message), ("catchable", .flag f.isCatchable),
    ("diagnostic", .text f.diagnostic)]

/-- A class of fault as a report. -/
def FaultKind.report (k : FaultKind) : Report :=
  .list [.text k.name, .text k.constantName, .number k.index]

/-- A type as a report, with the names that are members of it. -/
def TypeDesc.report (t : TypeDesc) (names : List String) : Report :=
  let head := [("display", .text t.text), ("kind", .text t.kind.name)]
  match t with
  | .record name members =>
    .record (head ++ [("name", .text? name),
      ("members", .list (members.map fun (m, u) => .list [.text m, .text u.text])),
      ("has", .list (names.map fun n => .flag (members.any (·.1 == n))))])
  | _ => .record head

/-- A real sorted into classes. -/
def realClassReport (r : Float) : Report :=
  .record [("zero", .flag (Tolerance.isZero r)), ("finite", .flag r.isFinite),
    ("infinite", .flag r.isInf), ("nan", .flag r.isNaN), ("normal", .flag (Binary64.isNormal r))]

/-- What reading settings from plain data gives. -/
def settingsReport (source : Datum) : Report :=
  match Settings.ofDatum? source with
  | some s => .record [("config", s.report), ("interrupted", .flag false)]
  | none => .record [("error", .text "ConfigError")]

/-- The version of the language, spelled and by its numbers. -/
def versionReport : Report :=
  let (major, minor, patch) := Version.current
  .list [.text (Version.text Version.current),
    .list [.integer major, .integer minor, .integer patch]]

/-- The types that every host has, each made once. -/
def registryReport : Report :=
  .list [.text HostM.errorType.text, .flag true, .text Version.type.text, .flag true]

/-- The answer to a question. -/
def Question.answer : Question → Except Fault Report
  | .generalForm r => .ok (.text (Decimal.general r))
  | .readInteger text => .ok ((Numeral.integer? text).elim .nothing .integer)
  | .readReal text => .ok ((Numeral.real? text).elim .nothing .real)
  | .realEqual a b => .ok (.flag (Tolerance.equal a b))
  | .realClass r => .ok (realClassReport r)
  | .mangle name arity => .ok (.text (ScriptHost.mangle name arity))
  | .demangle key =>
    .ok ((demangle? key).elim .nothing fun (name, arity) => .list [.text name, .number arity])
  | .faultKind index => .ok ((FaultKind.ofIndex? index).elim .nothing FaultKind.report)
  | .faultInfo f => .ok f.report
  | .kinds =>
    .ok (.list (Kind.all.map fun k => .list [.text k.name, .number k.number, .flag k.isScalar]))
  | .policyOfCode code => .ok (.text? ((RangePolicy.ofCode? code).map (·.name)))
  | .policyCode p => .ok (.number p.code)
  | .defaultPolicy => .ok (.text (default : RangePolicy).name)
  | .fitInteger least greatest policy value => do
    return .integer (← (← Bounds.ofIntegers least greatest policy).fit value)
  | .fitReal least greatest policy value => do
    return .real (← (← Bounds.ofReals least greatest policy).fitReal value)
  | .arraySlots start finish policy => do
    let _ ← TypeDesc.ofRange start finish .integer policy
    let slots := TypeDesc.slots start finish
    return .list [.number slots, .flag (slots == 0)]
  | .typeInfo spec names => do return (← spec.build).report names
  | .registry => .ok registryReport
  | .version => .ok versionReport
  | .settings source => .ok (settingsReport source)

end ScriptHost
