import RandomAccess.Cost.Weight
import RandomAccess.Execution.Outcome

/-!
# The cost of a trace

All sums stop at the largest 64-bit number. A report has the cost of a trace in both models, and
the logarithmic cost of each category.
-/

namespace RandomAccess.Cost

/-- The largest amount that is counted, `2 ^ 64 - 1`. -/
def ceiling : Nat := UInt64.size - 1

/-- The sum of two amounts, or the largest amount. -/
def saturatingAdd (a b : Nat) : Nat :=
  min (a + b) ceiling

/-- An amount for each category. -/
structure Profile where
  arithmetic : Nat := 0
  control : Nat := 0
  io : Nat := 0
  deriving DecidableEq, Repr, Inhabited

namespace Profile

/-- The amount of a category. -/
def get (profile : Profile) : Category → Nat
  | .arithmetic => profile.arithmetic
  | .control => profile.control
  | .io => profile.io

/-- Adds an amount to a category. -/
def add (profile : Profile) (category : Category) (amount : Nat) : Profile :=
  match category with
  | .arithmetic => { profile with arithmetic := saturatingAdd profile.arithmetic amount }
  | .control => { profile with control := saturatingAdd profile.control amount }
  | .io => { profile with io := saturatingAdd profile.io amount }

/-- The categories with their amounts, in the order of the categories. -/
def entries (profile : Profile) : List (Category × Nat) :=
  Category.all.map fun category => (category, profile.get category)

/-- The sum over all categories. -/
def total (profile : Profile) : Nat :=
  profile.entries.foldl (fun sum entry => saturatingAdd sum entry.2) 0

/-- Adding to a category changes no other one. -/
theorem get_add (profile : Profile) (category other : Category) (amount : Nat) :
    (profile.add category amount).get other =
      if other = category then saturatingAdd (profile.get other) amount
      else profile.get other := by
  cases category <;> cases other <;> rfl

end Profile

/-- The cost of a trace. -/
structure Report where
  /-- The cost in the uniform model. -/
  uniform : Nat := 0
  /-- The cost in the logarithmic model. -/
  logarithmic : Nat := 0
  /-- The logarithmic cost by category. -/
  profile : Profile := {}
  deriving DecidableEq, Repr, Inhabited

/-- The report with one more instruction, weighed on the given registers. -/
def Report.charge (report : Report) (step : Step) : Report :=
  let amount := weight .logarithmic step.instruction step.registers
  { uniform := saturatingAdd report.uniform (weight .uniform step.instruction step.registers)
    logarithmic := saturatingAdd report.logarithmic amount
    profile := report.profile.add step.instruction.category amount }

/-- The cost of a trace. Every step is weighed on the registers right after it. -/
def analyze (trace : List Step) : Report :=
  trace.foldl Report.charge {}

end RandomAccess.Cost

namespace RandomAccess

/-- The cost of the recorded steps. -/
def Outcome.cost (outcome : Outcome) : Cost.Report :=
  Cost.analyze outcome.trace

end RandomAccess
