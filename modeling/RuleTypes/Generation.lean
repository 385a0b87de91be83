import RuleTypes.Config
import RuleTypes.Declaration.Basic
import RuleTypes.Naming
import RuleTypes.Resolver
import RuleTypes.Source.Reading

/-!
# From grammars to declarations

References are checked, every rule gets its type, every type its declaration, and the declarations
are written as one block. A dangling reference is the only thing that stops a grammar.

* `resolveTypes` gives the types, one per rule and in rule order.
* `generate` gives the block.
* `resolveRecords` and `generateRecords` are what is logged on the way.
-/

namespace RuleTypes

/-- What is known about a rule in the end. -/
structure ResolvedType where
  rule : Text
  type : TsType
  exported : Bool
  explicit : Bool

/-- The resolver of a grammar. -/
def Grammar.resolver (g : Grammar) (overrides : Overrides) (config : Config) : Resolver :=
  ⟨g, overrides, config.fallback⟩

/-- The types of all rules, in rule order. -/
def resolveTypes (g : Grammar) (overrides : Overrides) (config : Config) :
    Except Failure (List ResolvedType) := do
  g.checkReferences.mapError .error
  let types ← ((g.resolver overrides config).resolveAll {}).1
  return (g.names.zip types).map fun (rule, type) =>
    { rule, type, exported := rule ∈ g.startRules, explicit := overrides.isExplicit g rule }

/-- The declaration of a rule. -/
def ResolvedType.declare (namer : Namer) (t : ResolvedType) : Except Failure Declaration :=
  match namer.get? t.rule with
  | some identifier => .ok { identifier, type := t.type, exported := t.exported }
  | none => .error (.unknownRule t.rule)

/-- The identifiers of a grammar's rules. -/
def Grammar.namer (g : Grammar) (config : Config) : Namer := .ofRules (!config.keepNames) g.names

/-- The block of declarations of a grammar. -/
def generate (g : Grammar) (overrides : Overrides) (config : Config) : Except Failure Text := do
  let types ← resolveTypes g overrides config
  let namer := g.namer config
  let declarations ← types.mapM (ResolvedType.declare namer)
  match renderBlock namer.nameOf config.header declarations with
  | some text => .ok text
  | none => .error .unwrittenType

/-! ## Records -/

/-- What is logged when the references of a grammar have been checked. -/
def Grammar.checkedRecord (g : Grammar) : Log.Record :=
  Log.debug .grammar ("Checked references of " ++ Numeral.decimal g.size ++ " rules")

/-- What is logged when overrides have been matched with a grammar. -/
def Overrides.records (o : Overrides) (g : Grammar) : List Log.Record :=
  let ignored :=
    if (o.unmatched g).isEmpty then []
    else
      [Log.debug .overrides
        ("Ignoring return types for unknown rules: " ++ Text.join ", " (o.unmatched g))]
  ignored ++
    [Log.debug .overrides
      (Numeral.decimal (o.explicit g).length ++ " explicit, " ++
        Numeral.decimal (o.pending g).length ++ " pending rule types")]

/-- What is logged about a cycle. -/
def cycleRecord (cycle : List Text) : Log.Record :=
  Log.debug .inference ("Reference cycle: " ++ Text.join " -> " cycle)

/-- What is logged while the types of a grammar are resolved. -/
def resolveRecords (g : Grammar) (overrides : Overrides) (config : Config) : List Log.Record :=
  if g.danglingReference?.isSome then []
  else
    [g.checkedRecord] ++ overrides.records g ++
      ((g.resolver overrides config).resolveAll {}).2.cycles.map cycleRecord

/-- What is logged while the declarations of a grammar are generated. -/
def generateRecords (g : Grammar) (overrides : Overrides) (config : Config) : List Log.Record :=
  let rendering :=
    match resolveTypes g overrides config with
    | .ok types =>
      [Log.debug .generator
        ("Rendering " ++ Numeral.decimal types.length ++ " declarations (" ++
          Numeral.decimal (types.countP ResolvedType.exported) ++ " exported)")]
    | .error _ => []
  config.warnings.map (⟨.warning, .generator, ·⟩) ++ resolveRecords g overrides config ++ rendering

end RuleTypes
