import Codegen.Error

/-!
# Faults

What can be wrong with the body of a function.  A fault never stops the work on a body: it is
recorded with its place, and the work goes on with a stand-in value.
-/

namespace Codegen.Lowering

/-- Something wrong with the body of a function. -/
inductive Fault where
  /-- A value is needed and no node has left one. -/
  | emptyStack
  /-- A node has left more or fewer values than its kind does. -/
  | unbalanced (title : String) (expected found : Nat)
  | noBody (function : String)
  | notAssignable (title : String)
  | notAddressable
  | elseNotLast
  | breakOutside
  | continueOutside
  | switchWithoutAddress
  | emptyChain
  /-- A node inside a chain that is no link. -/
  | notLink (title : String)
  /-- A link outside of a chain. -/
  | linkOutside (title : String)
  | undefinedLocal (name : String)
  | unknownGlobal (path : String)
  | notCallable (title : String)
  | noMethod (type name : String)
  | noField (path name : String)
  | noMember (path name : String)
  | noFields (path : String)
  | noPayload (path : String)
  | noEnumMember (path name : String)
  | noPath (name title : String)
  | notAggregate (path : String)
  /-- A tagged union without a layout. -/
  | noLayout (path : String)
  deriving DecidableEq, Inhabited

/-- The wording of a fault. -/
def Fault.message : Fault → String
  | emptyStack => "value stack is empty"
  | unbalanced title expected found =>
    "unbalanced value stack after " ++ title ++ ": expected " ++ Text.decimal expected ++
      ", found " ++ Text.decimal found
  | noBody function => "function " ++ function ++ " has no body"
  | notAssignable title => "cannot assign to " ++ title
  | notAddressable => "assignment target is not addressable"
  | elseNotLast => "else arm must be the last arm of a branch"
  | breakOutside => "break outside of a loop"
  | continueOutside => "continue outside of a loop"
  | switchWithoutAddress => "switch over a tagged union value without an address"
  | emptyChain => "empty call chain"
  | notLink title => title ++ " cannot appear inside a call chain"
  | linkOutside title => title ++ " outside of a call chain"
  | undefinedLocal name => "local " ++ name ++ " is not defined"
  | unknownGlobal path => "unknown global symbol " ++ path
  | notCallable title => "cannot call a " ++ title ++ " value"
  | noMethod type name => type ++ " has no method " ++ name
  | noField path name => "struct " ++ path ++ " has no field " ++ name
  | noMember path name => "tagged union " ++ path ++ " has no member " ++ name
  | noFields path => path ++ " has no fields"
  | noPayload path => "tagged union " ++ path ++ " has no payload"
  | noEnumMember path name => "enum " ++ path ++ " has no member " ++ name
  | noPath name title => "cannot take path " ++ name ++ " of a " ++ title ++ " value"
  | notAggregate path => "cannot initialize non-aggregate " ++ path
  | noLayout path => "no layout for tagged union " ++ path

/-- The error of a fault at a place of a source file. -/
def Fault.toError (fault : Fault) (span : Span) (file : String) : Error :=
  .internal fault.message span file

end Codegen.Lowering
