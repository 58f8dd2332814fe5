import ShaderExpr.Config
import ShaderExpr.Number.Datum

/-!
# Configuration documents

A configuration is read from a document of nested fields.  A structure is an object, whose unknown
fields are ignored and whose missing fields have their standard values, or a list of the values of its
fields in order, which may stop early.  A component is its name, or an object that maps the name to
`null`.  A number is rounded to single precision.

`Config.ofDocument?` reads a configuration and `Config.toDocument` writes all of its fields.
-/

namespace ShaderExpr

/-- Data of the shape of JSON.  Whole numbers are apart from the others, because they may need more
than double precision. -/
inductive Document where
  | null
  | bool (b : Bool)
  | whole (i : Int)
  | number (x : Float)
  | text (s : String)
  | list (items : List Document)
  | object (fields : List (String × Document))

namespace Document

/-- The documents that stand for the fields of a structure, `none` where a field is missing: those of
an object by name, those of a list by place. -/
def fields? (names : List String) : Document → Option (List (Option Document))
  | object fields => some (names.map fun name => fields.lookup name)
  | list items =>
    if items.length ≤ names.length then some ((List.range names.length).map (items[·]?)) else none
  | _ => none

/-- A field has its standard value when it is missing, and must be readable when it is not. -/
def field? {α : Type} (read? : Document → Option α) (standard : α) : Option Document → Option α
  | some d => read? d
  | none => some standard

def text? : Document → Option String
  | text s => some s
  | _ => none

/-- Whole numbers of 64 bits, signed or unsigned, are rounded once; others are double-precision
numbers first. -/
def float32? : Document → Option Float32
  | whole i =>
    if Int64.minValue.toInt ≤ i ∧ i < UInt64.size then some (Datum.ofInt i).toFloat32
    else some (Datum.ofFloat (Datum.ofInt i).toFloat).toFloat32
  | number x => some (Datum.ofFloat x).toFloat32
  | _ => none

def axis? : Document → Option Axis
  | text s => Axis.ofName? s
  | object [(s, null)] => Axis.ofName? s
  | _ => none

end Document

def DepthBias.ofFields? : List (Option Document) → Option DepthBias
  | [divisor, component] => do
    let divisor ← Document.field? Document.float32? DepthBias.standard.divisor divisor
    let component ← Document.field? Document.axis? DepthBias.standard.component component
    return ⟨divisor, component⟩
  | _ => none

def DepthBias.ofDocument? (d : Document) : Option DepthBias := do
  DepthBias.ofFields? (← d.fields? ["divisor", "component"])

def InputNames.ofFields? : List (Option Document) → Option InputNames
  | [uv, zIndex, viewMatrix, worldMatrix] => do
    let uv ← Document.field? Document.text? InputNames.standard.uv uv
    let zIndex ← Document.field? Document.text? InputNames.standard.zIndex zIndex
    let viewMatrix ← Document.field? Document.text? InputNames.standard.viewMatrix viewMatrix
    let worldMatrix ← Document.field? Document.text? InputNames.standard.worldMatrix worldMatrix
    return ⟨uv, zIndex, viewMatrix, worldMatrix⟩
  | _ => none

def InputNames.ofDocument? (d : Document) : Option InputNames := do
  InputNames.ofFields? (← d.fields? ["uv", "z_index", "view_matrix", "world_matrix"])

namespace Config

def ofFields? : List (Option Document) → Option Config
  | [depthBias, names] => do
    let depthBias ← Document.field? DepthBias.ofDocument? DepthBias.standard depthBias
    let names ← Document.field? InputNames.ofDocument? InputNames.standard names
    return ⟨depthBias, names⟩
  | _ => none

/-- The configuration that a document describes; `none` if it is rejected. -/
def ofDocument? (d : Document) : Option Config := do
  ofFields? (← d.fields? ["depth_bias", "names"])

def toDocument (c : Config) : Document :=
  .object
    [("depth_bias", .object
        [("divisor", .number (Datum.ofFloat32 c.depthBias.divisor).toFloat),
          ("component", .text c.depthBias.component.name)]),
      ("names", .object
        [("uv", .text c.names.uv), ("z_index", .text c.names.zIndex), ("view_matrix", .text c.names.viewMatrix),
          ("world_matrix", .text c.names.worldMatrix)])]

end Config

end ShaderExpr
