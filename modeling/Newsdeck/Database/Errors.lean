import Newsdeck.Ecma.Text

/-!
# Errors of the database

The driver's error hangs under the one that reaches the services, as its cause.
-/

namespace Newsdeck.Database

open Ecma

structure DbCause where
  code : Option Text
  constraintName : Option Text
  deriving DecidableEq, Repr

/-- What a call of a repository throws. -/
structure DbError where
  message : Text
  cause : Option DbCause
  deriving DecidableEq, Repr

/-- The error reports a violation of the unique index. -/
def isConflict (index : Text) (error : DbError) : Bool :=
  match error.cause with
  | none => false
  | some cause => cause.code = some (lit "23505") && cause.constraintName = some index

/-- The error with which the driver reports a violation of the unique index. -/
def uniqueViolation (index : Text) : DbError :=
  ⟨lit "duplicate key value violates unique constraint", some ⟨some (lit "23505"), some index⟩⟩

@[simp] theorem isConflict_uniqueViolation (index : Text) :
    isConflict index (uniqueViolation index) = true := by
  simp [isConflict, uniqueViolation]

end Newsdeck.Database
