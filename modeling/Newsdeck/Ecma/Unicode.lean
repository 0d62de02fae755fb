import Newsdeck.Ecma.RegExp

/-!
# Case and normalisation

Two more built-ins whose tables live in the engine.  Nothing is assumed about them.
-/

namespace Ecma

class Unicode where
  /-- `String.prototype.toUpperCase`, the full Unicode mapping. -/
  toUpperCase : Text → Text
  /-- `String.prototype.normalize('NFKD')`. -/
  nfkd : Text → Text

/-- An engine that knows the ASCII letters only. -/
@[reducible] def asciiUnicode : Unicode where
  toUpperCase := List.map fun c => if isLower c then c - 32 else c
  nfkd := id

end Ecma
