import ShaderExpr.Rejection

/-!
# Notices

Everything that is built or rejected is reported in a log.  A notice is one record of the log, with a
level and a message.
-/

namespace ShaderExpr

inductive Level where
  | debug
  | trace
  deriving DecidableEq, Repr

def Level.name : Level → String
  | debug => "debug"
  | trace => "trace"

inductive Notice where
  | recorded (handle : Handle) (vertex : Vertex)
  | rebound (var expr : Handle)
  | uniformDeclared (handle : Handle) (ty : ValueType)
  | attributeDeclared (handle : Handle) (ty : ValueType) (name : String)
  | textureDeclared (handle : Handle) (kind : TextureKind) (info : TextureInfo)
  | variableDeclared (handle : Handle) (ty : ValueType) (init : Handle)
  | assigned (var expr : Handle)
  | uniformSet (handle : Handle) (value : Value)
  | rejected (reason : Rejection)
  deriving DecidableEq

namespace Notice

/-- What is appended to the record is traced; the rest is for debugging. -/
def level : Notice → Level
  | recorded .. | rebound .. => .trace
  | _ => .debug

def message : Notice → String
  | recorded handle vertex => handle.text ++ " = " ++ vertex.inspect
  | rebound var expr | assigned var expr => var.text ++ " <- " ++ expr.text
  | uniformDeclared handle ty => handle.text ++ " is a " ++ ty.name ++ " uniform"
  | attributeDeclared handle ty name => handle.text ++ " is the " ++ ty.name ++ " attribute `" ++ name ++ "`"
  | textureDeclared handle kind info =>
    handle.text ++ " is the " ++ kind.inspect ++ " texture `" ++ info.label ++ "` (resource " ++
      toString info.id.number ++ ")"
  | variableDeclared handle ty init =>
    handle.text ++ " is a " ++ ty.name ++ " variable initialized with " ++ init.text
  | uniformSet handle value => "uniform " ++ handle.text ++ " set to " ++ value.inspect
  | rejected reason => reason.report

end Notice

end ShaderExpr
