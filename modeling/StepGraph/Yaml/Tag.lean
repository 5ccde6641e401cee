/-!
# Tags

A node's tag names its type. The core tags have short names under one common start; every other
tag stands for itself.
-/

set_option autoImplicit false

namespace StepGraph.Yaml

inductive CoreTag
  | null
  | bool
  | int
  | float
  | str
  | seq
  | map
  /-- The key `<<`, which merges mappings. -/
  | merge
  /-- The key `=`, which gives a mapping a scalar value. -/
  | value
  | timestamp
  | binary
  | set
  | omap
  | pairs
  /-- A scalar that is a sign of the notation itself. -/
  | yaml
  deriving DecidableEq, Repr

inductive Tag
  | core (t : CoreTag)
  | other (uri : String)
  deriving DecidableEq, Repr

namespace CoreTag

def all : List CoreTag :=
  [.null, .bool, .int, .float, .str, .seq, .map, .merge, .value, .timestamp, .binary, .set,
    .omap, .pairs, .yaml]

def word : CoreTag → String
  | .null => "null"
  | .bool => "bool"
  | .int => "int"
  | .float => "float"
  | .str => "str"
  | .seq => "seq"
  | .map => "map"
  | .merge => "merge"
  | .value => "value"
  | .timestamp => "timestamp"
  | .binary => "binary"
  | .set => "set"
  | .omap => "omap"
  | .pairs => "pairs"
  | .yaml => "yaml"

/-- What the core tags start with. -/
def authority : String := "tag:yaml.org,2002:"

def uri (t : CoreTag) : String :=
  authority ++ t.word

end CoreTag

namespace Tag

def ofUri (uri : String) : Tag :=
  match CoreTag.all.find? fun t => t.uri == uri with
  | some t => .core t
  | none => .other uri

def uri : Tag → String
  | .core t => t.uri
  | .other uri => uri

end Tag

end StepGraph.Yaml
