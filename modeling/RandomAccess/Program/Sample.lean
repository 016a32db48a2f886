import RandomAccess.Program.Basic

/-!
# Sample programs

Three small programs, known by name: an absolute value, a sum up to the first 0, and a choice of
one among three values.
-/

namespace RandomAccess

/-- A sample program. -/
inductive Sample where
  /-- Reads a value and writes its absolute value. -/
  | abs
  /-- Reads values until a 0 and writes their sum. -/
  | sum
  /-- Reads three values and a number `k`, and writes the `k`-th of them. -/
  | select
  deriving DecidableEq, Repr, Inhabited

namespace Sample

/-- The samples in the order in which they are offered. -/
def all : List Sample := [abs, sum, select]

/-- The name of a sample. -/
def name : Sample → String
  | abs => "abs"
  | sum => "sum"
  | select => "select"

/-- The sample of a name. -/
def ofName? (name : String) : Option Sample :=
  all.find? fun sample => sample.name == name

/-- The instructions of a sample. The sum is kept in register 2; the choice goes through the
register whose index is `k + 1`. -/
def program : Sample → Program
  | abs => .ofList [
      .read (.literal 1),
      .load (.direct 1),
      .branch .positive 6,
      .load (.literal 0),
      .arith .sub (.direct 1),
      .write (.direct 0),
      .halt]
  | sum => .ofList [
      .read (.literal 1),
      .load (.direct 1),
      .branch .zero 7,
      .arith .add (.direct 2),
      .store (.literal 2),
      .jump 1,
      .write (.direct 2),
      .halt]
  | select => .ofList [
      .read (.literal 2),
      .read (.literal 3),
      .read (.literal 4),
      .read (.literal 1),
      .load (.direct 1),
      .arith .add (.literal 1),
      .store (.literal 1),
      .write (.indirect 1),
      .halt]

/-- A number of steps within which the sample ends on every input of the given length: the sum
takes six steps for a value and five more for the 0. -/
def stepBound (inputLength : Nat) : Sample → Nat
  | abs => 7
  | sum => 6 * inputLength + 5
  | select => 9

theorem ofName?_name (sample : Sample) : ofName? sample.name = some sample := by
  cases sample <;> decide

end Sample

end RandomAccess
